/-
# Seekbase.Shape — what a compiled plan looks like.

The rules of position are enforced in three places: the loop over the segments refuses what may not be
in a bounded query at all, the loop over the runs refuses a plan that would start in bash, and the
fusing of a run refuses a source behind something and a middle in front of everything.  Together they
are one shape.

A pipeline that is out of shape never gets a plan.  What it gets instead is not always the error of its
shape, for the checks run in the order of the text: a policy refuses an operator before its position is
looked at, and an operator's own code may raise before the second loop is reached.

* `runs_alternate` — the runs are maximal;
* `PlanShape`, `Misplaced` — the shape of a plan, and a pipeline that cannot have it;
* `PassedOn`       — what the policy and the operators' own code raise;
* `plan_shape`     — a plan has its shape, and every other error is a `QueryError`.
-/
import Seekbase.Bind

namespace Seekbase

section Shape

variable {ι α : Type} {h h' : Held ι} {params left : List Val}

/-! ## Runs -/

/-- Neighbouring runs are of different runtimes. -/
theorem runs_alternate (staged : List (Staged ι α)) :
    ((runs staged).map Run.isBash).IsChain (· ≠ ·) := by
  induction staged with
  | nil => exact .nil
  | cons s rest ih =>
    rw [runs]
    rcases hr : runs rest with _ | ⟨items | items, more⟩
    · cases s.isBash <;> exact .singleton _
    all_goals
      rw [hr] at ih
      cases s.isBash
    -- the segment joins the run in front when the two are of a kind, and begins one else
    · exact ih
    · exact List.isChain_cons_cons.mpr ⟨by simp [Run.isBash], ih⟩
    · exact List.isChain_cons_cons.mpr ⟨by simp [Run.isBash], ih⟩
    · exact ih

/-- The phase is lowered from the run, as the first of the plan or not. -/
def Makes (h : Held ι) (first : Bool) : Run ι α → PlanPhase → Prop
  | .bash items, .bash argvs => items.mapM (bashArgv h) = .ok argvs
  | .duck items, .duck sql vals =>
    ∃ params left, fuseDuckRun h items params (!first) = .ok (sql, vals, left)
  | _, _ => False

/-- A phase for each run, in their order. -/
def MadeOf (h : Held ι) : Bool → List (Run ι α) → List PlanPhase → Prop
  | _, [], phases => phases = []
  | first, r :: rs, phases =>
    ∃ phase rest, phases = phase :: rest ∧ Makes h first r phase ∧ MadeOf h false rs rest

theorem phasesOf_made {first : Bool} {rs : List (Run ι α)} {phases : List PlanPhase}
    (ho : phasesOf h first params rs = .ok (phases, left)) : MadeOf h first rs phases := by
  induction rs generalizing first params phases with
  | nil =>
    obtain ⟨rfl, -⟩ : phases = [] ∧ _ := by simpa [phasesOf, eq_comm] using ho
    rfl
  | cons r rs ih =>
    cases r with
    | bash items =>
      obtain ⟨-, argvs, phases', hargvs, hphases, rfl⟩ := phasesOf_bash_ok_iff.mp ho
      exact ⟨.bash argvs, phases', rfl, hargvs, ih hphases⟩
    | duck items =>
      obtain ⟨sql, used, between, phases', hrun, hphases, rfl⟩ := phasesOf_duck_ok_iff.mp ho
      exact ⟨.duck sql used, phases', rfl, ⟨params, between, hrun⟩, ih hphases⟩

/-- No plan starts in bash. -/
theorem phasesOf_starts {rs : List (Run ι α)} {phases : List PlanPhase}
    (ho : phasesOf h true params rs = .ok (phases, left)) (hne : rs ≠ []) :
    (rs.map Run.isBash).head? = some false := by
  rcases rs with _ | ⟨items | items, rs⟩
  · exact absurd rfl hne
  · rfl
  · obtain ⟨hfirst, -⟩ := phasesOf_bash_ok_iff.mp ho
    exact absurd hfirst (by decide)

/-! ## The bridge -/

/-- The statement selects from the relation that the phase before has left. -/
def ReadsBridge (sql : String) : Prop :=
  "WITH _s0 AS (WITH _in AS (SELECT * FROM _bridge) ".toList <+: sql.toList

theorem fuseItem_reads {s : Staged ι α} {prev body : String} {used : List Val}
    (ho : fuseItem h (some prev) params s = .ok (body, used, left)) :
    ∃ text, body = withIn prev text := by
  match s with
  | .bash _ _ _ => cases ho
  | .sql segment =>
    unfold fuseItem at ho
    dsimp only at ho
    split at ho
    · cases ho
    · exact ⟨_, (Prod.mk.inj (Except.ok.inj ho)).1.symm⟩
  | .duck key op args =>
    obtain ⟨-, ⟨hnone, -⟩ | ⟨name, code, sql, hname, -, -, -, rfl⟩⟩ := fuseItem_duck_ok_iff.mp ho
    · cases hnone
    · exact ⟨sql, by rw [Option.some.inj hname]⟩

theorem prefix_intercalate {β : Type} (sep l : List β) (ls : List (List β)) :
    l <+: sep.intercalate (l :: ls) := by
  cases ls with
  | nil => simp [List.intercalate]
  | cons l' ls =>
    rw [intercalate_cons _ _ (List.cons_ne_nil _ _)]
    exact List.prefix_append _ _

theorem chainSql_reads (text : String) (ctes : List (String × String)) (prev : Option String) :
    ReadsBridge (chainSql ((stageName 0, withIn "_bridge" text) :: ctes) prev) := by
  have hhead : "WITH _s0 AS (WITH _in AS (SELECT * FROM _bridge) ".toList
      = "WITH ".toList ++ ((stageName 0 ++ " AS (").toList
        ++ ("WITH _in AS (SELECT * FROM " ++ "_bridge" ++ ") ").toList) := by decide +kernel
  have hcte : (stageName 0 ++ " AS (").toList ++ ("WITH _in AS (SELECT * FROM " ++ "_bridge" ++ ") ").toList
      <+: cteText (stageName 0, withIn "_bridge" text) := by
    have hbody : (withIn "_bridge" text).toList
        = ("WITH _in AS (SELECT * FROM " ++ "_bridge" ++ ") ").toList ++ text.toList := pasted_toList _ _
    have hnest (a b c d : List Char) : a ++ b <+: a ++ (b ++ c ++ d) := by
      rw [List.append_assoc, ← List.append_assoc]
      exact List.prefix_append _ _
    rw [cteText_eq, hbody]
    exact hnest _ _ _ _
  rw [ReadsBridge, hhead, chainSql_toList, List.map_cons, List.prefix_append_right_inj]
  exact (hcte.trans (prefix_intercalate _ _ _)).trans (List.prefix_append _ _)

theorem fuseDuckRun_reads {items : List (Staged ι α)} {sql : String} {used : List Val}
    (hne : items ≠ []) (ho : fuseDuckRun h items params true = .ok (sql, used, left)) :
    ReadsBridge sql := by
  unfold fuseDuckRun at ho
  obtain ⟨⟨ctes, used', left'⟩, hstages, hpair⟩ := map_ok_iff.mp ho
  obtain ⟨rfl, -⟩ := Prod.mk.inj hpair
  cases items with
  | nil => exact absurd rfl hne
  | cons s items =>
    obtain ⟨body, first, between, ctes', used'', hone, -, rfl, -⟩ := fuseStages_cons_ok_iff.mp hstages
    obtain ⟨text, rfl⟩ := fuseItem_reads hone
    exact chainSql_reads text ctes' _

/-! ## Positions -/

/-- The operator may stand in a bounded query, as its first segment or behind another one. -/
structure InPlace (first : Bool) (op : Operator ι α) : Prop where
  bounded : op.bounded = true
  noSink : op.name ≠ "ingest"
  source : op.isSource = .ok first
  starts : first = true → op.optimizeDuck.isSome = true

/-- An operator of the pipeline stands where it must not. -/
def Misplaced (reg : Registry ι α) (segments : List (List Char)) : Prop :=
  ∃ pre segment post key op rest, segments = pre ++ segment :: post
    ∧ classify reg segment = some (key, op, rest) ∧ ¬ InPlace pre.isEmpty op

theorem Fits.at {first : Bool} {a b : List (Staged ι α)} {s : Staged ι α}
    (hf : Fits h first params (a ++ s :: b) left) :
    ∃ ps ps', Lowers h (first && a.isEmpty) ps s ps' := by
  induction a generalizing first params with
  | nil =>
    obtain ⟨between, hs, -⟩ := hf
    rw [List.isEmpty_nil, Bool.and_true]
    exact ⟨params, between, hs⟩
  | cons x a ih =>
    obtain ⟨between, -, hrest⟩ := hf
    rw [List.isEmpty_cons, Bool.and_false]
    exact ih hrest

theorem Taken.inPlace {reg : Registry ι α} {p : Policy} {ctx : OperatorCtx} {h₁ h₂ : Held ι}
    {segment rest : List Char} {s : Staged ι α} {key : String} {op : Operator ι α} {first : Bool}
    (ht : Taken reg p ctx h₁ segment s h₂) (hc : classify reg segment = some (key, op, rest))
    (hl : Lowers h first params s left) : InPlace first op := by
  rcases ht with ⟨hnone, -⟩ | ⟨key', op', rest', args, h₃, args', hc', hadm, -, -, -, hassign⟩
  · rw [hc] at hnone
    cases hnone
  · rw [hc] at hc'
    cases hc'
    unfold assign at hassign
    split at hassign
    · next hduck =>
      obtain rfl := Except.ok.inj hassign
      exact ⟨hadm.2.1, hadm.2.2, hl.2.1, fun _ => hduck⟩
    · split at hassign
      · split at hassign
        · cases hassign
        · next hsource =>
          obtain rfl := Except.ok.inj hassign
          -- a shell command is lowered behind something only
          obtain rfl : first = false := hl.2.1
          exact ⟨hadm.2.1, hadm.2.2, hsource, fun hfirst => by cases hfirst⟩
        · cases hassign
      · cases hassign

/-- The shape of the plan of a pipeline, whose segments have been staged. -/
structure PlanShape (reg : Registry ι α) (h : Held ι) (segments : List (List Char))
    (staged : List (Staged ι α)) (phases : List PlanPhase) : Prop where
  starts : (phases.map PlanPhase.isBash).head? = some false
  alternate : (phases.map PlanPhase.isBash).IsChain (· ≠ ·)
  /-- The staged segments, one for each, are dealt out to the phases in their order. -/
  covers : staged.length = segments.length ∧ ∃ rs : List (Run ι α), rs.flatMap Run.items = staged
    ∧ (∀ r ∈ rs, r.Uniform) ∧ MadeOf h true rs phases
  positions : ¬ Misplaced reg segments
  bridge : ∀ phase ∈ phases.tail, ∀ sql vals, phase = .duck sql vals → ReadsBridge sql

theorem MadeOf.reads {rs : List (Run ι α)} {phases : List PlanPhase} (huni : ∀ r ∈ rs, r.Uniform)
    (hm : MadeOf h false rs phases) :
    ∀ phase ∈ phases, ∀ sql vals, phase = .duck sql vals → ReadsBridge sql := by
  induction rs generalizing phases with
  | nil =>
    obtain rfl : phases = [] := hm
    intro phase hmem
    cases hmem
  | cons r rs ih =>
    obtain ⟨phase₁, rest, rfl, hmakes, hrest⟩ := hm
    intro phase hmem sql vals hphase
    rcases List.mem_cons.mp hmem with rfl | hmem
    · subst hphase
      have hr := huni r List.mem_cons_self
      cases r with
      | bash items => cases hmakes
      | duck items =>
        obtain ⟨params, left, hrun⟩ := hmakes
        exact fuseDuckRun_reads hr.1 hrun
    · exact ih (fun x hx => huni x (List.mem_cons_of_mem r hx)) hrest phase hmem sql vals hphase

section Plan

variable {reg : Registry ι α} {p : Policy} {ctx : OperatorCtx} {segments : List (List Char)}
  {staged : List (Staged ι α)} {phases : List PlanPhase}

theorem plan_placed (ht : Threaded (Taken reg p ctx) h segments staged h')
    (hfit : Fits h' true params staged []) : ¬ Misplaced reg segments := by
  rintro ⟨pre, segment, post, key, op, rest, rfl, hc, hno⟩
  obtain ⟨a, x, b, h₁, rfl, hla, -, hx⟩ :=
    ht.split (f := afterSegment reg ctx) (fun _ _ _ _ ht => ht.held) rfl
  obtain ⟨ps, ps', hl⟩ := hfit.at
  have hempty : (true && a.isEmpty) = pre.isEmpty := by
    rw [Bool.true_and, Bool.eq_iff_iff, List.isEmpty_iff_length_eq_zero,
      List.isEmpty_iff_length_eq_zero, hla]
  rw [hempty] at hl
  exact hno (hx.inPlace hc hl)

theorem plan_shaped (hne : segments ≠ []) (ht : Threaded (Taken reg p ctx) h segments staged h')
    (hplan : planOf h' params staged = .ok phases) : PlanShape reg h' segments staged phases := by
  obtain ⟨hflat, huni⟩ := runs_spec staged
  have hplaced := plan_placed ht (planOf_ok_iff.mp ⟨phases, hplan⟩)
  have hlength := ht.length
  have hruns : runs staged ≠ [] := by
    intro hnil
    rw [hnil] at hflat
    rw [← hflat] at hlength
    exact hne (List.length_eq_zero_iff.mp hlength.symm)
  have hp := planOf_phases_iff.mp hplan
  have hbash := phasesOf_bash hp
  have hmade := phasesOf_made hp
  refine ⟨?_, ?_, ⟨hlength, runs staged, hflat, huni, hmade⟩, hplaced, ?_⟩
  · rw [hbash]
    exact phasesOf_starts hp hruns
  · rw [hbash]
    exact runs_alternate staged
  · cases hr : runs staged with
    | nil => exact absurd hr hruns
    | cons r rs =>
      rw [hr] at hmade huni
      obtain ⟨phase, rest, rfl, -, hrest⟩ := hmade
      exact hrest.reads fun x hx => huni x (List.mem_cons_of_mem r hx)

/-! ## Errors -/

variable (reg p ctx) in
/-- What the policy, the operator's `parse_args` or its `prepare` raises for a segment. -/
def FrontRaises (h : Held ι) (segment : List Char) (e : PipeExc) : Prop :=
  ∃ key op rest, classify reg segment = some (key, op, rest)
    ∧ (p.check op.name (op.caps (h key)) = .error e
      ∨ (∃ tokens, splitArgs rest = .ok tokens ∧ (op.parseArgs (h key) tokens).1 = .error e)
      ∨ ∃ args h₁, readArgs h key op rest = (.ok args, h₁)
        ∧ (prepareArgs ctx h₁ key op args).result = .error e)

/-- The form of `optimize_duck` is not the one that `is_source` speaks of, which has been overridden. -/
def Misfit (op : Operator ι α) : Prop :=
  (op.isSource = .ok true ∧ ∀ code, op.optimizeDuck ≠ some (.source code))
    ∨ (op.isSource = .ok false ∧ ∀ code, op.optimizeDuck ≠ some (.middle code))

/-- What the operator's `optimize_duck` or `optimize_bash` raises: also Python's complaint about a call
in the wrong form. -/
def CellRaises (h : Held ι) : Staged ι α → PipeExc → Prop
  | .sql _, _ => False
  | .duck key op args, e =>
    (∃ code, op.optimizeDuck = some (.source code) ∧ code (h key) args = .error e)
      ∨ (∃ code, op.optimizeDuck = some (.middle code) ∧ code (h key) "_in" args = .error e)
      ∨ (e = wrongArity ∧ Misfit op)
  | .bash key op args, e => ∃ code, op.optimizeBash = some code ∧ code (h key) args = .error e

variable (reg p ctx) in
/-- An error that is not the compiler's own. -/
def PassedOn (h : Held ι) (segments : List (List Char)) (e : PipeExc) : Prop :=
  (∃ pre segment post staged h₁, segments = pre ++ segment :: post
    ∧ Threaded (Taken reg p ctx) h pre staged h₁ ∧ FrontRaises reg p ctx h₁ segment e)
  ∨ ∃ staged h', Threaded (Taken reg p ctx) h segments staged h' ∧ ∃ s ∈ staged, CellRaises h' s e

theorem stageSegment_raises {segment : List Char} {e : PipeExc} {ev : List (Event α)}
    (ho : stageSegment reg p ctx h segment = ⟨.error e, h', ev⟩) :
    e.cls = "QueryError" ∨ FrontRaises reg p ctx h segment e := by
  unfold stageSegment at ho
  match hc : classify reg segment with
  | none =>
    simp only [hc] at ho
    split at ho
    · cases ho
      exact Or.inl rfl
    · cases ho
  | some (key, op, rest) =>
    have hfront := fun hraises => Or.inr (a := e.cls = "QueryError") (b := FrontRaises reg p ctx h segment e)
      ⟨key, op, rest, hc, hraises⟩
    simp only [hc] at ho
    match ha : authorize p h key op with
    | .error e' =>
      rw [ha] at ho
      obtain ⟨he, -, -⟩ := Outcome.mk.inj ho
      obtain rfl := Except.error.inj he
      unfold authorize at ha
      match hcheck : p.check op.name (op.caps (h key)) with
      | .error e'' =>
        rw [hcheck] at ha
        obtain rfl := Except.error.inj ha
        exact hfront (Or.inl hcheck)
      | .ok () =>
        simp only [hcheck] at ha
        split at ha
        · cases ha
          exact Or.inl rfl
        · split at ha
          · cases ha
            exact Or.inl rfl
          · cases ha
    | .ok () =>
      rw [ha] at ho
      match hr : readArgs h key op rest with
      | (.error e', h₁) =>
        simp only [hr] at ho
        obtain ⟨he, -, -⟩ := Outcome.mk.inj ho
        obtain rfl := Except.error.inj he
        rcases readArgs_error hr with ⟨why, -, rfl⟩ | ⟨tokens, hs, hp⟩
        · exact Or.inl rfl
        · exact hfront (Or.inr (Or.inl ⟨tokens, hs, hp⟩))
      | (.ok args, h₁) =>
        simp only [hr] at ho
        match hpre : prepareArgs ctx h₁ key op args with
        | ⟨.error e', h₂, ev'⟩ =>
          rw [hpre] at ho
          obtain ⟨he, -, -⟩ := Outcome.mk.inj ho
          obtain rfl := Except.error.inj he
          exact hfront (Or.inr (Or.inr ⟨args, h₁, hr, by rw [hpre]⟩))
        | ⟨.ok args', h₂, ev'⟩ =>
          rw [hpre] at ho
          exact Or.inl (assign_error (congrArg Outcome.result ho))

theorem stage_raises {e : PipeExc} (ho : (stage reg p ctx h segments).result = .error e) :
    ∃ pre segment post staged h₁ h₂ ev, segments = pre ++ segment :: post
      ∧ Threaded (Taken reg p ctx) h pre staged h₁
      ∧ stageSegment reg p ctx h₁ segment = ⟨.error e, h₂, ev⟩ := by
  induction segments generalizing h with
  | nil => cases ho
  | cons segment segments ih =>
    match hone : stageSegment reg p ctx h segment with
    | ⟨.error e', h₁, ev⟩ =>
      rw [stage, overSegments_error hone] at ho
      obtain rfl := Except.error.inj ho
      exact ⟨[], segment, segments, [], h, h₁, ev, rfl, ⟨rfl, rfl⟩, hone⟩
    | ⟨.ok s, h₁, ev⟩ =>
      rw [stage, overSegments_ok hone] at ho
      obtain ⟨pre, x, post, staged, h₂, h₃, ev', rfl, ht, hx⟩ := ih (map_error_iff.mp ho)
      exact ⟨segment :: pre, x, post, s :: staged, h₂, h₃, ev', rfl,
        ⟨s, staged, h₁, rfl, stageSegment_iff.mp ⟨ev, hone⟩, ht⟩, hx⟩

theorem fuseItem_raises {s : Staged ι α} {prev : Option String} {e : PipeExc} (hs : s.isBash = false)
    (ho : fuseItem h prev params s = .error e) : e.cls = "QueryError" ∨ CellRaises h s e := by
  match s with
  | .bash _ _ _ => cases hs
  | .sql segment =>
    unfold fuseItem at ho
    dsimp only at ho
    split at ho
    · obtain rfl := Except.error.inj ho
      exact Or.inl rfl
    · cases ho
  | .duck key op args =>
    have harity (heq : Except.error wrongArity = (.error e : Except PipeExc (String × List Val × List Val)))
        (hmisfit : Misfit op) : e.cls = "QueryError" ∨ CellRaises h (.duck key op args) e :=
      Or.inr (Or.inr (Or.inr ⟨(Except.error.inj heq).symm, hmisfit⟩))
    unfold fuseItem at ho
    match hsrc : op.isSource, prev, hd : op.optimizeDuck with
    | .error e', _, _ =>
      simp only [hsrc] at ho
      obtain rfl := Except.error.inj ho
      rw [Operator.isSource_error hsrc]
      exact Or.inl rfl
    | .ok true, some _, _ | .ok false, none, _ =>
      simp only [hsrc] at ho
      obtain rfl := Except.error.inj ho
      exact Or.inl rfl
    | .ok true, none, none | .ok true, none, some (.middle code) =>
      simp only [hsrc, hd] at ho
      exact harity ho (Or.inl ⟨hsrc, by simp [hd]⟩)
    | .ok false, some _, none | .ok false, some _, some (.source code) =>
      simp only [hsrc, hd] at ho
      exact harity ho (Or.inr ⟨hsrc, by simp [hd]⟩)
    | .ok true, none, some (.source code) =>
      simp only [hsrc, hd] at ho
      exact Or.inr (Or.inl ⟨code, hd, map_error_iff.mp ho⟩)
    | .ok false, some prev, some (.middle code) =>
      simp only [hsrc, hd] at ho
      exact Or.inr (Or.inr (Or.inl ⟨code, hd, map_error_iff.mp ho⟩))

theorem fuseStages_raises {stages : List (Staged ι α)} {n : Nat} {prev : Option String} {e : PipeExc}
    (hs : ∀ s ∈ stages, s.isBash = false) (ho : fuseStages h n prev params stages = .error e) :
    e.cls = "QueryError" ∨ ∃ s ∈ stages, CellRaises h s e := by
  induction stages generalizing n prev params with
  | nil => cases ho
  | cons s stages ih =>
    unfold fuseStages at ho
    split at ho
    · next e' hone =>
      obtain rfl := Except.error.inj ho
      exact (fuseItem_raises (hs s List.mem_cons_self) hone).imp_right fun hcell =>
        ⟨s, List.mem_cons_self, hcell⟩
    · refine (ih (fun x hx => hs x (List.mem_cons_of_mem s hx)) (map_error_iff.mp ho)).imp_right ?_
      rintro ⟨x, hx, hcell⟩
      exact ⟨x, List.mem_cons_of_mem s hx, hcell⟩

theorem bashArgvs_raises {items : List (Staged ι α)} {e : PipeExc}
    (ho : items.mapM (bashArgv h) = .error e) :
    e.cls = "QueryError" ∨ ∃ s ∈ items, CellRaises h s e := by
  obtain ⟨s, hs, hone⟩ := mapM_error ho
  match s with
  | .sql segment | .duck key op args =>
    obtain rfl := Except.error.inj hone
    exact Or.inl rfl
  | .bash key op args =>
    unfold bashArgv at hone
    dsimp only at hone
    split at hone
    · next code hcode => exact Or.inr ⟨_, hs, code, hcode, hone⟩
    · obtain rfl := Except.error.inj hone
      exact Or.inl rfl

theorem phasesOf_raises {first : Bool} {rs : List (Run ι α)} {e : PipeExc}
    (huni : ∀ r ∈ rs, r.Uniform) (ho : phasesOf h first params rs = .error e) :
    e.cls = "QueryError" ∨ ∃ s ∈ rs.flatMap Run.items, CellRaises h s e := by
  induction rs generalizing first params with
  | nil => cases ho
  | cons r rs ih =>
    have hr := huni r List.mem_cons_self
    have hrest (params : List Val) (ho : phasesOf h false params rs = .error e) :
        e.cls = "QueryError" ∨ ∃ s ∈ (r :: rs).flatMap Run.items, CellRaises h s e := by
      refine (ih (fun x hx => huni x (List.mem_cons_of_mem r hx)) ho).imp_right ?_
      rintro ⟨x, hx, hcell⟩
      exact ⟨x, List.mem_append_right _ hx, hcell⟩
    have hitems (hcell : e.cls = "QueryError" ∨ ∃ s ∈ r.items, CellRaises h s e) :
        e.cls = "QueryError" ∨ ∃ s ∈ (r :: rs).flatMap Run.items, CellRaises h s e := by
      refine hcell.imp_right ?_
      rintro ⟨x, hx, hcell⟩
      exact ⟨x, List.mem_append_left _ hx, hcell⟩
    match r with
    | .bash items =>
      unfold phasesOf at ho
      split at ho
      · next e' hargvs =>
        obtain rfl := Except.error.inj ho
        exact hitems (bashArgvs_raises hargvs)
      · split at ho
        · obtain rfl := Except.error.inj ho
          exact Or.inl rfl
        · exact hrest params (map_error_iff.mp ho)
    | .duck items =>
      unfold phasesOf at ho
      split at ho
      · next e' hrun =>
        obtain rfl := Except.error.inj ho
        exact hitems (fuseStages_raises hr.2 (map_error_iff.mp hrun))
      · next sql used between _ => exact hrest between (map_error_iff.mp ho)

theorem planOf_raises {e : PipeExc} (ho : planOf h params staged = .error e) :
    e.cls = "QueryError" ∨ ∃ s ∈ staged, CellRaises h s e := by
  obtain ⟨hflat, huni⟩ := runs_spec staged
  unfold planOf at ho
  split at ho
  · next hp =>
    obtain rfl := Except.error.inj ho
    rw [← hflat]
    exact phasesOf_raises huni hp
  · cases ho
  · obtain rfl := Except.error.inj ho
    exact Or.inl rfl

/-- The compiler's own errors are of one class. -/
theorem compile_raises {e : PipeExc} (ho : (compile reg p ctx h segments params).result = .error e) :
    e.cls = "QueryError" ∨ PassedOn reg p ctx h segments e := by
  unfold compile at ho
  match hstage : stage reg p ctx h segments with
  | ⟨.error e', h', ev⟩ =>
    rw [hstage] at ho
    obtain rfl := Except.error.inj ho
    obtain ⟨pre, segment, post, staged, h₁, h₂, ev', heq, ht, hx⟩ :=
      stage_raises (congrArg Outcome.result hstage)
    exact (stageSegment_raises hx).imp_right fun hfront =>
      Or.inl ⟨pre, segment, post, staged, h₁, heq, ht, hfront⟩
  | ⟨.ok staged, h', ev⟩ =>
    rw [hstage] at ho
    have ht : Threaded (Taken reg p ctx) h segments staged h' :=
      (overSegments_iff fun _ _ _ _ => stageSegment_iff).mp ⟨ev, hstage⟩
    exact (planOf_raises ho).imp_right fun hcell => Or.inr ⟨staged, h', ht, hcell⟩

end Plan

end Shape

section Compiles

variable {ι α : Type} {reg : Registry ι α} {p : Policy} {ctx : OperatorCtx} {h : Held ι}
  {text : List Char} {segments : List (List Char)} {params : List Val}

/-- PLAN SHAPE.  A pipeline that gets a plan gets one in shape.  One that is out of place gets none, and
the error is the compiler's `QueryError` where the policy and the operators' own code raise nothing. -/
theorem plan_shape (hsplit : splitPipeline text = some segments) :
    (∀ phases, (compile reg p ctx h segments params).result = .ok phases →
      ∃ staged h', Threaded (Taken reg p ctx) h segments staged h'
        ∧ PlanShape reg h' segments staged phases)
    ∧ (Misplaced reg segments → ∃ e, (compile reg p ctx h segments params).result = .error e
      ∧ (e.cls = "QueryError" ∨ PassedOn reg p ctx h segments e)) := by
  have hne : segments ≠ [] := by
    rw [(splitPipeline_eq_some_iff.mp hsplit).1]
    intro hnil
    exact cutPipes_ne_nil none [] text (List.map_eq_nil_iff.mp hnil)
  have hshape (phases : List PlanPhase) (hok : (compile reg p ctx h segments params).result = .ok phases) :
      ∃ staged h', Threaded (Taken reg p ctx) h segments staged h'
        ∧ PlanShape reg h' segments staged phases := by
    obtain ⟨staged, h', ht, hplan⟩ := compile_iff.mp hok
    exact ⟨staged, h', ht, plan_shaped hne ht hplan⟩
  refine ⟨hshape, ?_⟩
  intro hmis
  match ho : (compile reg p ctx h segments params).result with
  | .error e => exact ⟨e, rfl, compile_raises ho⟩
  | .ok phases =>
    obtain ⟨staged, h', -, hshaped⟩ := hshape phases ho
    exact absurd hmis hshaped.positions

end Compiles

def bridged : List (List Char) :=
  ["scan notes".toList, "sh 'cat'".toList, "SELECT count(*) AS n FROM _in".toList]

/-- A scan, a shell command, and a statement on what it has printed. -/
theorem plan_shape_bridge : ∃ phases,
    (compile builtins ⟨.trusted, [], [], []⟩ notesCtx (fun _ => ()) bridged []).result = .ok phases
      ∧ ∃ staged h', Threaded (Taken builtins ⟨.trusted, [], [], []⟩ notesCtx) (fun _ => ()) bridged staged h'
        ∧ PlanShape builtins h' bridged staged phases := by
  have hsplit : splitPipeline "scan notes | sh 'cat' | SELECT count(*) AS n FROM _in".toList
      = some bridged := by decide +kernel
  have hsome : (compile builtins ⟨.trusted, [], [], []⟩ notesCtx (fun _ => ()) bridged []).result.toOption.isSome
      = true := by decide +kernel
  match hr : (compile builtins ⟨.trusted, [], [], []⟩ notesCtx (fun _ => ()) bridged []).result with
  | .error e =>
    rw [hr] at hsome
    cases hsome
  | .ok phases => exact ⟨phases, rfl, (plan_shape hsplit).1 phases hr⟩

/-- A shell command that starts a pipeline, under the default policy: it is denied before anything
looks at its position. -/
theorem denied_before_place : ∃ segments e, splitPipeline "sh 'ls'".toList = some segments
    ∧ Misplaced builtins segments
    ∧ (compile builtins readOnly notesCtx (fun _ => ()) segments []).result = .error e
    ∧ e.cls = "PermissionDenied" := by
  have hsplit : splitPipeline "sh 'ls'".toList = some ["sh 'ls'".toList] := by decide +kernel
  have hmis : Misplaced builtins ["sh 'ls'".toList] := by
    have hsome : (classify builtins "sh 'ls'".toList).isSome = true := by decide +kernel
    have hcell : ((classify builtins "sh 'ls'".toList).any fun x => x.2.1.optimizeDuck.isSome) = false := by
      decide +kernel
    obtain ⟨⟨key, op, rest⟩, hc⟩ := Option.isSome_iff_exists.mp hsome
    refine ⟨[], _, [], key, op, rest, rfl, hc, ?_⟩
    intro hplace
    rw [hc] at hcell
    have hduck := hplace.starts rfl
    rw [show op.optimizeDuck.isSome = false from hcell] at hduck
    cases hduck
  have hcls : (match (compile builtins readOnly notesCtx (fun _ => ()) ["sh 'ls'".toList] []).result with
      | .error e => e.cls
      | .ok _ => "") = "PermissionDenied" := by decide +kernel
  match hr : (compile builtins readOnly notesCtx (fun _ => ()) ["sh 'ls'".toList] []).result with
  | .ok phases =>
    rw [hr] at hcls
    have hcls : "" = "PermissionDenied" := hcls
    exact absurd hcls (by decide)
  | .error e =>
    rw [hr] at hcls
    exact ⟨_, e, hsplit, hmis, hr, hcls⟩

end Seekbase
