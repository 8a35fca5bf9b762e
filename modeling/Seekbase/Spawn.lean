/-
# Seekbase.Spawn — what the two compilers accept, and which plans start a process.

A compiler that returns a plan has taken every segment through its loop, each from the instances that
those before it leave (`Threaded`), and has then lowered what it staged.  Both halves are spelled out on
the text and the instances alone, so `compile_ok_iff` and `streamCompile_ok_iff` say WHICH texts are
accepted; and of an accepted one, a plan spawns exactly if some segment is lowered to bash.

A policy without EXEC refuses what declares EXEC.  It does not look at the cells, so a bash cell under
another declaration is accepted: that of the built-in `watch` in the middle of a stream.
-/
import Seekbase.Authorize

namespace Seekbase

section Threads

variable {ι α β : Type} {R : Held ι → List Char → β → Held ι → Prop} {h h' : Held ι}
  {segment : List Char} {segments pre post : List (List Char)} {x : β} {xs : List β}

/-! ## A loop over segments -/

/-- Every segment is taken, from the instances that those before it leave. -/
def Threaded (R : Held ι → List Char → β → Held ι → Prop) :
    Held ι → List (List Char) → List β → Held ι → Prop
  | h, [], xs, h' => xs = [] ∧ h = h'
  | h, segment :: segments, xs, h' =>
    ∃ x rest h₁, xs = x :: rest ∧ R h segment x h₁ ∧ Threaded R h₁ segments rest h'

theorem overSegments_iff {one : Held ι → List Char → Outcome ι α β}
    (hone : ∀ h segment x h', (∃ ev, one h segment = ⟨.ok x, h', ev⟩) ↔ R h segment x h') :
    (∃ ev, overSegments one h segments = ⟨.ok xs, h', ev⟩) ↔ Threaded R h segments xs h' := by
  induction segments generalizing h xs with
  | nil =>
    constructor
    · rintro ⟨ev, ho⟩
      obtain ⟨hxs, rfl, -⟩ := Outcome.mk.inj ho
      exact ⟨(Except.ok.inj hxs).symm, rfl⟩
    · rintro ⟨rfl, rfl⟩
      exact ⟨[], rfl⟩
  | cons segment segments ih =>
    constructor
    · rintro ⟨ev, ho⟩
      rcases overSegments_cons_ok ho with ⟨x, rest, h₁, ev₁, ev₂, hx, hrest, rfl, -⟩
      exact ⟨x, rest, h₁, rfl, (hone _ _ _ _).mp ⟨ev₁, hx⟩, ih.mp ⟨ev₂, hrest⟩⟩
    · rintro ⟨x, rest, h₁, rfl, hx, hrest⟩
      rcases (hone _ _ _ _).mpr hx with ⟨ev₁, hx⟩
      rcases ih.mpr hrest with ⟨ev₂, hrest⟩
      refine ⟨ev₁ ++ ev₂, ?_⟩
      rw [overSegments_ok hx, hrest]
      rfl

theorem Threaded.length (ht : Threaded R h segments xs h') : xs.length = segments.length := by
  induction segments generalizing h xs with
  | nil => rw [ht.1]; rfl
  | cons y segments ih =>
    rcases ht with ⟨z, rest, h₁, rfl, -, hrest⟩
    exact congrArg (· + 1) (ih hrest)

/-- What a segment was taken for, and from which instances, where taking one changes them by `f`. -/
theorem Threaded.split {f : Held ι → List Char → Held ι} (hf : ∀ h segment x h', R h segment x h' →
      h' = f h segment) (ht : Threaded R h segments xs h') (heq : segments = pre ++ segment :: post) :
    ∃ a x b h₁, xs = a ++ x :: b ∧ a.length = pre.length ∧ b.length = post.length
      ∧ R (pre.foldl f h) segment x h₁ := by
  subst heq
  induction pre generalizing h xs with
  | nil =>
    rcases ht with ⟨x, rest, h₁, rfl, hx, hrest⟩
    exact ⟨[], x, rest, h₁, rfl, rfl, hrest.length, hx⟩
  | cons y pre ih =>
    rcases ht with ⟨z, rest, h₁, rfl, hz, hrest⟩
    obtain rfl := hf _ _ _ _ hz
    rcases ih hrest with ⟨a, x, b, h₂, rfl, hla, hlb, hx⟩
    exact ⟨z :: a, x, b, h₂, rfl, congrArg (· + 1) hla, hlb, hx⟩

theorem Threaded.unsplit {f : Held ι → List Char → Held ι} (hf : ∀ h segment x h', R h segment x h' →
      h' = f h segment) {a b : List β} (ht : Threaded R h segments (a ++ x :: b) h') :
    ∃ pre segment post h₁, segments = pre ++ segment :: post ∧ pre.length = a.length
      ∧ post.length = b.length ∧ R (pre.foldl f h) segment x h₁ := by
  induction a generalizing h segments with
  | nil =>
    match segments with
    | [] => exact absurd ht.1 (by simp)
    | segment :: segments =>
      rcases ht with ⟨z, rest, h₁, heq, hz, hrest⟩
      obtain ⟨rfl, rfl⟩ := List.cons.inj heq
      exact ⟨[], segment, segments, h₁, rfl, rfl, hrest.length.symm, hz⟩
  | cons y a ih =>
    match segments with
    | [] => exact absurd ht.1 (by simp)
    | segment :: segments =>
      rcases ht with ⟨z, rest, h₁, heq, hz, hrest⟩
      obtain ⟨rfl, rfl⟩ := List.cons.inj heq
      obtain rfl := hf _ _ _ _ hz
      rcases ih hrest with ⟨pre, s, post, h₂, rfl, hla, hlb, hx⟩
      exact ⟨segment :: pre, s, post, h₂, rfl, congrArg (· + 1) hla, hlb, hx⟩

end Threads

/-! ## Bounded queries -/

section Query

variable {ι α : Type} {reg : Registry ι α} {p : Policy} {ctx : OperatorCtx} {h h' : Held ι}
  {segment : List Char} {segments : List (List Char)} {params left : List Val}
  {s : Staged ι α} {staged stages : List (Staged ι α)}

variable (reg p ctx) in
/-- The first loop takes a segment: plain SQL, or an admitted operator whose arguments are well formed,
whose hook returns and that has a cell a bounded query can use. -/
def Taken (h : Held ι) (segment : List Char) (s : Staged ι α) (h' : Held ι) : Prop :=
  (classify reg segment = none ∧ ';' ∉ segment ∧ s = .sql segment ∧ h' = h)
    ∨ ∃ key op rest args h₁ args',
      classify reg segment = some (key, op, rest) ∧ Admitted p h key op
      ∧ readArgs h key op rest = (.ok args, h₁)
      ∧ (prepareArgs ctx h₁ key op args).result = .ok args'
      ∧ (prepareArgs ctx h₁ key op args).held = h' ∧ assign key op args' = .ok s

variable (h) in
/-- The second loop lowers a segment: `first` says that it is the first of the text.  A source starts
it, a middle does not, and a shell command does not. -/
def Lowers (first : Bool) (params : List Val) : Staged ι α → List Val → Prop
  | .sql segment, left =>
    countPlaceholders none segment ≤ params.length
      ∧ left = params.drop (countPlaceholders none segment)
  | .duck key op args, left =>
    left = params ∧ op.isSource = .ok first
      ∧ if first then ∃ code r, op.optimizeDuck = some (.source code) ∧ code (h key) args = .ok r
        else ∃ code r, op.optimizeDuck = some (.middle code) ∧ code (h key) "_in" args = .ok r
  | .bash key op args, left =>
    left = params ∧ first = false ∧ ∃ argv, bashArgv h (.bash key op args) = .ok argv

variable (h) in
/-- Every segment is lowered, and all of the parameters are used. -/
def Fits : Bool → List Val → List (Staged ι α) → List Val → Prop
  | _, params, [], left => left = params
  | first, params, s :: rest, left =>
    ∃ between, Lowers h first params s between ∧ Fits false between rest left

theorem authorize_ok_iff {key : String} {op : Operator ι α} :
    authorize p h key op = .ok () ↔ Admitted p h key op := by
  rcases authorize_spec (p := p) h key op with ⟨hadm, ha⟩ | ⟨hno, d, ha⟩ | ⟨-, hno, e, ha, -⟩
  · exact iff_of_true ha hadm
  · exact iff_of_false (by simp [ha]) fun hadm => hno hadm.1
  · exact iff_of_false (by simp [ha]) hno

theorem stageSegment_iff : (∃ ev, stageSegment reg p ctx h segment = ⟨.ok s, h', ev⟩) ↔
    Taken reg p ctx h segment s h' := by
  constructor
  · rintro ⟨ev, ho⟩
    rcases stageSegment_ok ho with ⟨hc, hs, rfl, rfl, -⟩ |
      ⟨key, op, rest, args, h₁, args', hc, hadm, hr, hp, hassign⟩
    · exact Or.inl ⟨hc, hs, rfl, rfl⟩
    · exact Or.inr ⟨key, op, rest, args, h₁, args', hc, hadm, hr, by rw [hp], by rw [hp], hassign⟩
  · unfold stageSegment
    rintro (⟨hc, hs, rfl, rfl⟩ | ⟨key, op, rest, args, h₁, args', hc, hadm, hr, hp, hheld, hassign⟩)
    · simp only [hc]
      exact ⟨[], if_neg hs⟩
    · simp only [hc, authorize_ok_iff.mpr hadm, hr]
      match hpre : prepareArgs ctx h₁ key op args with
      | ⟨r, h₂, ev⟩ =>
        rw [hpre] at hp hheld
        obtain rfl : r = .ok args' := hp
        obtain rfl : h₂ = h' := hheld
        exact ⟨ev, by simp only [hassign]⟩

theorem Taken.held {x : Staged ι α} (ht : Taken reg p ctx h segment x h') :
    h' = afterSegment reg ctx h segment := by
  rcases stageSegment_iff.mpr ht with ⟨ev, ho⟩
  exact (stageSegment_through ho).1

/-! ## The second loop -/

/-- An operator is lowered by the cell that fits its place: the source cell where the chain starts, the
middle cell behind a stage. -/
theorem fuseItem_duck_ok_iff {prev : Option String} {key : String} {op : Operator ι α} {args : α}
    {body : String} {used : List Val} :
    fuseItem h prev params (.duck key op args) = .ok (body, used, left) ↔ left = params ∧
      ((prev = none ∧ op.isSource = .ok true
        ∧ ∃ code, op.optimizeDuck = some (.source code) ∧ code (h key) args = .ok (body, used))
      ∨ ∃ name code sql, prev = some name ∧ op.isSource = .ok false
        ∧ op.optimizeDuck = some (.middle code) ∧ code (h key) "_in" args = .ok (sql, used)
        ∧ body = withIn name sql) := by
  unfold fuseItem
  rcases hsrc : op.isSource with e | _ | _
  · simp [hsrc]
  · rcases prev with _ | name
    · simp [hsrc]
    rcases hd : op.optimizeDuck with _ | code | code
    · simp [hsrc, hd]
    · simp [hsrc, hd]
    rcases hcode : code (h key) "_in" args with e | ⟨sql, vals⟩
    · simp [hsrc, hd, hcode, Except.map]
    · simp only [hsrc, hd, hcode, Except.map, Except.ok.injEq, Prod.mk.injEq, reduceCtorEq, false_and,
        and_false, false_or, Option.some.injEq, DuckForm.middle.injEq, true_and]
      constructor
      · rintro ⟨rfl, rfl, rfl⟩
        exact ⟨rfl, name, code, sql, rfl, rfl, hcode, rfl⟩
      · rintro ⟨rfl, _, _, sql', rfl, rfl, hcode', rfl⟩
        obtain ⟨rfl, rfl⟩ := Prod.mk.inj (Except.ok.inj (hcode.symm.trans hcode'))
        exact ⟨rfl, rfl, rfl⟩
  · rcases prev with _ | name
    · rcases hd : op.optimizeDuck with _ | code | code
      · simp [hsrc, hd]
      · rcases hcode : code (h key) args with e | ⟨sql, vals⟩
        · simp [hsrc, hd, hcode, Except.map]
        · simp [hsrc, hd, hcode, Except.map, and_comm, and_left_comm, eq_comm]
      · simp [hsrc, hd]
    · simp [hsrc]

/-- Of the stage before, the fusing of one stage only asks whether there is one. -/
theorem fuseItem_iff {prev : Option String} (hs : s.isBash = false) :
    (∃ body used, fuseItem h prev params s = .ok (body, used, left)) ↔
      Lowers h prev.isNone params s left := by
  match s with
  | .bash _ _ _ => exact absurd hs (by simp [Staged.isBash])
  | .sql segment =>
    unfold fuseItem Lowers
    dsimp only
    split
    · next hlt => exact iff_of_false (by simp) fun hle => by omega
    · next hlt =>
      constructor
      · rintro ⟨body, used, heq⟩
        obtain ⟨-, -, rfl⟩ : _ ∧ _ ∧ _ := by simpa using heq
        exact ⟨by omega, rfl⟩
      · rintro ⟨-, rfl⟩
        exact ⟨_, _, rfl⟩
  | .duck key op args =>
    simp only [fuseItem_duck_ok_iff, Lowers]
    cases prev with
    | none =>
      constructor
      · rintro ⟨body, used, rfl, ⟨-, hsrc, code, hd, hcode⟩ | ⟨name, _, _, hname, -⟩⟩
        · exact ⟨rfl, hsrc, code, (body, used), hd, hcode⟩
        · cases hname
      · rintro ⟨rfl, hsrc, code, ⟨body, used⟩, hd, hcode⟩
        exact ⟨body, used, rfl, Or.inl ⟨rfl, hsrc, code, hd, hcode⟩⟩
    | some prev =>
      constructor
      · rintro ⟨body, used, rfl, ⟨hnone, -⟩ | ⟨name, code, sql, -, hsrc, hd, hcode, -⟩⟩
        · cases hnone
        · exact ⟨rfl, hsrc, code, (sql, used), hd, hcode⟩
      · rintro ⟨rfl, hsrc, code, ⟨sql, used⟩, hd, hcode⟩
        exact ⟨_, used, rfl, Or.inr ⟨prev, code, sql, rfl, hsrc, hd, hcode, rfl⟩⟩

theorem fuseStages_cons_ok_iff {n : Nat} {prev : Option String} {ctes : List (String × String)}
    {used : List Val} : fuseStages h n prev params (s :: stages) = .ok (ctes, used, left) ↔
      ∃ body first between ctes' used', fuseItem h prev params s = .ok (body, first, between)
        ∧ fuseStages h (n + 1) (some (stageName n)) between stages = .ok (ctes', used', left)
        ∧ ctes = (stageName n, body) :: ctes' ∧ used = first ++ used' := by
  rw [fuseStages]
  constructor
  · intro ho
    split at ho
    · cases ho
    · next body first between hone =>
      obtain ⟨⟨ctes', used', left'⟩, hrest, hpair⟩ := map_ok_iff.mp ho
      obtain ⟨rfl, rfl, rfl⟩ : _ = ctes ∧ _ = used ∧ left' = left := by simpa using hpair
      exact ⟨body, first, between, ctes', used', hone, hrest, rfl, rfl⟩
  · rintro ⟨body, first, between, ctes', used', hone, hrest, rfl, rfl⟩
    rw [hone]
    exact map_ok_iff.mpr ⟨_, hrest, rfl⟩

theorem fuseStages_iff {n : Nat} {prev : Option String} (hs : ∀ s ∈ stages, s.isBash = false) :
    (∃ ctes used, fuseStages h n prev params stages = .ok (ctes, used, left)) ↔
      Fits h prev.isNone params stages left := by
  induction stages generalizing n prev params with
  | nil => simp [fuseStages, Fits, eq_comm]
  | cons s stages ih =>
    have hitem : ∀ between, (∃ body used, fuseItem h prev params s = .ok (body, used, between))
        ↔ Lowers h prev.isNone params s between := fun _ => fuseItem_iff (hs s List.mem_cons_self)
    have hrest : ∀ between, (∃ ctes used, fuseStages h (n + 1) (some (stageName n)) between stages
        = .ok (ctes, used, left)) ↔ Fits h false between stages left :=
      fun _ => ih fun x hx => hs x (List.mem_cons_of_mem _ hx)
    simp only [fuseStages_cons_ok_iff]
    constructor
    · rintro ⟨ctes, used, body, first, between, ctes', used', hone, hr, -⟩
      exact ⟨between, (hitem between).mp ⟨body, first, hone⟩, (hrest between).mp ⟨ctes', used', hr⟩⟩
    · rintro ⟨between, hone, hr⟩
      rcases (hitem between).mpr hone with ⟨body, first, hone⟩
      rcases (hrest between).mpr hr with ⟨ctes', used', hr⟩
      exact ⟨_, _, body, first, between, ctes', used', hone, hr, rfl, rfl⟩

theorem Fits.append_iff {first : Bool} {a b : List (Staged ι α)} (ha : a ≠ []) :
    Fits h first params (a ++ b) left ↔
      ∃ between, Fits h first params a between ∧ Fits h false between b left := by
  induction a generalizing first params with
  | nil => exact absurd rfl ha
  | cons s a ih =>
    match a with
    | [] => simp [Fits]
    | s' :: a =>
      simp only [List.cons_append, Fits] at ih ⊢
      constructor
      · rintro ⟨m, hs, hrest⟩
        rcases (ih (by simp)).mp hrest with ⟨between, hfit, hb⟩
        exact ⟨between, ⟨m, hs, hfit⟩, hb⟩
      · rintro ⟨between, ⟨m, hs, hfit⟩, hb⟩
        exact ⟨m, hs, (ih (by simp)).mpr ⟨between, hfit, hb⟩⟩

/-- A run of shell commands: all the texts are there, and something is to be piped into them. -/
theorem bashRun_iff {first : Bool} (hs : ∀ s ∈ stages, s.isBash = true) (hne : stages ≠ []) :
    Fits h first params stages left ↔
      left = params ∧ first = false ∧ ∃ argvs, stages.mapM (bashArgv h) = .ok argvs := by
  induction stages generalizing first with
  | nil => exact absurd rfl hne
  | cons s stages ih =>
    match s, hs s List.mem_cons_self with
    | .bash key op args, _ =>
      simp only [Fits, Lowers, List.mapM_cons]
      match hone : bashArgv h (.bash key op args) with
      | .error e => simp [bind, Except.bind]
      | .ok argv =>
        match stages with
        | [] => simp [Fits, bind, Except.bind, pure, Except.pure, and_comm]
        | s' :: stages =>
          have hrest : Fits h false params (s' :: stages) left ↔ left = params ∧ false = false
              ∧ ∃ argvs, (s' :: stages).mapM (bashArgv h) = .ok argvs :=
            ih (fun x hx => hs x (List.mem_cons_of_mem _ hx)) (by simp)
          constructor
          · rintro ⟨between, ⟨rfl, hfirst, -⟩, hfit⟩
            rcases hrest.mp hfit with ⟨rfl, -, argvs, hm⟩
            exact ⟨rfl, hfirst, argv :: argvs, by rw [hm]; rfl⟩
          · rintro ⟨rfl, hfirst, argvs, hm⟩
            refine ⟨left, ⟨rfl, hfirst, argv, rfl⟩, hrest.mpr ⟨rfl, rfl, ?_⟩⟩
            match hm' : List.mapM (bashArgv h) (s' :: stages) with
            | .error e => simp [hm', bind, Except.bind] at hm
            | .ok more => exact ⟨more, rfl⟩

/-- A run is not empty, and is of one runtime. -/
def Run.Uniform (r : Run ι α) : Prop := r.items ≠ [] ∧ ∀ s ∈ r.items, s.isBash = r.isBash

theorem runs_spec (staged : List (Staged ι α)) :
    (runs staged).flatMap Run.items = staged ∧ ∀ r ∈ runs staged, r.Uniform := by
  induction staged with
  | nil => exact ⟨rfl, by simp [runs]⟩
  | cons s rest ih =>
    rcases ih with ⟨hflat, huni⟩
    rw [runs]
    match hs : s.isBash, hr : runs rest with
    | true, .bash items :: more | false, .duck items :: more =>
      rw [hr] at hflat huni
      refine ⟨by simpa [Run.items] using hflat, fun r hmem => ?_⟩
      rcases List.mem_cons.mp hmem with rfl | hmem
      · refine ⟨by simp [Run.items], fun x hx => ?_⟩
        rcases List.mem_cons.mp hx with rfl | hx
        · exact hs
        · exact (huni _ List.mem_cons_self).2 x hx
      · exact huni r (List.mem_cons_of_mem _ hmem)
    | true, [] | false, [] | true, .duck items :: more | false, .bash items :: more =>
      rw [hr] at hflat huni
      refine ⟨by simpa [Run.items] using hflat, fun r hmem => ?_⟩
      rcases List.mem_cons.mp hmem with rfl | hmem
      · exact ⟨by simp [Run.items], by simpa [Run.items, Run.isBash] using hs⟩
      · exact huni r hmem

theorem phasesOf_bash_ok_iff {first : Bool} {items : List (Staged ι α)} {rs : List (Run ι α)}
    {phases : List PlanPhase} : phasesOf h first params (.bash items :: rs) = .ok (phases, left) ↔
      first = false ∧ ∃ argvs phases', items.mapM (bashArgv h) = .ok argvs
        ∧ phasesOf h false params rs = .ok (phases', left) ∧ phases = .bash argvs :: phases' := by
  rw [phasesOf]
  constructor
  · intro ho
    split at ho
    · cases ho
    · next argvs hargvs =>
      split at ho
      · cases ho
      · next hfirst =>
        obtain ⟨⟨phases', left'⟩, hrest, hpair⟩ := map_ok_iff.mp ho
        obtain ⟨rfl, rfl⟩ := Prod.mk.inj hpair
        exact ⟨by simpa using hfirst, argvs, phases', hargvs, hrest, rfl⟩
  · rintro ⟨rfl, argvs, phases', hargvs, hrest, rfl⟩
    rw [hargvs]
    exact map_ok_iff.mpr ⟨_, hrest, rfl⟩

theorem phasesOf_duck_ok_iff {first : Bool} {items : List (Staged ι α)} {rs : List (Run ι α)}
    {phases : List PlanPhase} : phasesOf h first params (.duck items :: rs) = .ok (phases, left) ↔
      ∃ sql used between phases', fuseDuckRun h items params (!first) = .ok (sql, used, between)
        ∧ phasesOf h false between rs = .ok (phases', left) ∧ phases = .duck sql used :: phases' := by
  rw [phasesOf]
  constructor
  · intro ho
    split at ho
    · cases ho
    · next sql used between hrun =>
      obtain ⟨⟨phases', left'⟩, hrest, hpair⟩ := map_ok_iff.mp ho
      obtain ⟨rfl, rfl⟩ := Prod.mk.inj hpair
      exact ⟨sql, used, between, phases', hrun, hrest, rfl⟩
  · rintro ⟨sql, used, between, phases', hrun, hrest, rfl⟩
    rw [hrun]
    exact map_ok_iff.mpr ⟨_, hrest, rfl⟩

theorem phasesOf_iff {first : Bool} {rs : List (Run ι α)} (hs : ∀ r ∈ rs, r.Uniform) :
    (∃ phases, phasesOf h first params rs = .ok (phases, left)) ↔
      Fits h first params (rs.flatMap Run.items) left := by
  induction rs generalizing first params with
  | nil => simp [phasesOf, Fits, eq_comm]
  | cons r rs ih =>
    have hr := hs r List.mem_cons_self
    have hrest : ∀ between, (∃ phases, phasesOf h false between rs = .ok (phases, left)) ↔
        Fits h false between (rs.flatMap Run.items) left :=
      fun _ => ih fun x hx => hs x (List.mem_cons_of_mem _ hx)
    rw [List.flatMap_cons, Fits.append_iff hr.1]
    cases r with
    | bash items =>
      have hrun : ∀ between, Fits h first params items between ↔ between = params ∧ first = false
          ∧ ∃ argvs, items.mapM (bashArgv h) = .ok argvs := fun _ => bashRun_iff hr.2 hr.1
      simp only [Run.items, hrun, phasesOf_bash_ok_iff]
      constructor
      · rintro ⟨phases, hfirst, argvs, phases', hargvs, hphases, -⟩
        exact ⟨params, ⟨rfl, hfirst, argvs, hargvs⟩, (hrest params).mp ⟨phases', hphases⟩⟩
      · rintro ⟨between, ⟨rfl, hfirst, argvs, hargvs⟩, hfit⟩
        rcases (hrest between).mpr hfit with ⟨phases', hphases⟩
        exact ⟨_, hfirst, argvs, phases', hargvs, hphases, rfl⟩
    | duck items =>
      have hprev : (if (!first) = true then some "_bridge" else none : Option String).isNone = first := by
        cases first <;> rfl
      have hrun : ∀ between, (∃ sql used, fuseDuckRun h items params (!first) = .ok (sql, used, between))
          ↔ Fits h first params items between := by
        intro between
        have hduck : ∀ s ∈ items, s.isBash = false := hr.2
        have hstages : (∃ ctes used, fuseStages h 0 (if (!first) = true then some "_bridge" else none)
            params items = .ok (ctes, used, between)) ↔ Fits h first params items between := by
          rw [fuseStages_iff hduck, hprev]
        rw [← hstages]
        simp only [fuseDuckRun, map_ok_iff]
        constructor
        · rintro ⟨sql, used, ⟨ctes, used', left'⟩, hok, hpair⟩
          obtain ⟨-, -, rfl⟩ : _ ∧ _ ∧ left' = between := by simpa using hpair
          exact ⟨ctes, used', hok⟩
        · rintro ⟨ctes, used, hok⟩
          exact ⟨_, used, _, hok, rfl⟩
      simp only [Run.items, ← hrun, phasesOf_duck_ok_iff]
      constructor
      · rintro ⟨phases, sql, used, between, phases', hduck, hphases, -⟩
        exact ⟨between, ⟨sql, used, hduck⟩, (hrest between).mp ⟨phases', hphases⟩⟩
      · rintro ⟨between, ⟨sql, used, hduck⟩, hfit⟩
        rcases (hrest between).mpr hfit with ⟨phases', hphases⟩
        exact ⟨_, sql, used, between, phases', hduck, hphases, rfl⟩

/-- A plan is the phases, with no parameter left over. -/
theorem planOf_phases_iff {phases : List PlanPhase} : planOf h params staged = .ok phases
    ↔ phasesOf h true params (runs staged) = .ok (phases, []) := by
  unfold planOf
  split
  · next e he => simp [he]
  · next phases' he => simp [he]
  · next phases' left hleft he => simpa [he] using fun _ => hleft

theorem planOf_ok_iff :
    (∃ phases, planOf h params staged = .ok phases) ↔ Fits h true params staged [] := by
  rcases runs_spec staged with ⟨hflat, huni⟩
  have hiff : (∃ phases, phasesOf h true params (runs staged) = .ok (phases, [])) ↔
      Fits h true params ((runs staged).flatMap Run.items) [] := phasesOf_iff huni
  rw [hflat] at hiff
  simp only [← hiff, planOf_phases_iff]

theorem compile_iff {phases : List PlanPhase} :
    (compile reg p ctx h segments params).result = .ok phases ↔
      ∃ staged h', Threaded (Taken reg p ctx) h segments staged h'
        ∧ planOf h' params staged = .ok phases := by
  have hstage : ∀ staged h', (∃ ev, stage reg p ctx h segments = ⟨.ok staged, h', ev⟩) ↔
      Threaded (Taken reg p ctx) h segments staged h' := fun _ _ =>
    overSegments_iff fun _ _ _ _ => stageSegment_iff
  unfold compile
  match ho : stage reg p ctx h segments with
  | ⟨.error e, h', ev⟩ =>
    refine iff_of_false (by simp) ?_
    rintro ⟨staged, h'', ht, -⟩
    rcases (hstage _ _).mpr ht with ⟨ev', ho'⟩
    rw [ho] at ho'
    exact absurd (congrArg Outcome.result ho') (by simp)
  | ⟨.ok staged, h', ev⟩ =>
    constructor
    · intro hplan
      exact ⟨staged, h', (hstage _ _).mp ⟨ev, ho⟩, hplan⟩
    · rintro ⟨staged', h'', ht, hplan⟩
      rcases (hstage _ _).mpr ht with ⟨ev', ho'⟩
      rw [ho] at ho'
      obtain ⟨hs, rfl, -⟩ := Outcome.mk.inj ho'
      obtain rfl := Except.ok.inj hs
      exact hplan

/-- COMPILE accepts a text iff its first loop takes every segment and its second one lowers what that
has staged. -/
theorem compile_ok_iff :
    (∃ phases, (compile reg p ctx h segments params).result = .ok phases) ↔
      ∃ staged h', Threaded (Taken reg p ctx) h segments staged h'
        ∧ Fits h' true params staged [] := by
  simp only [compile_iff, ← planOf_ok_iff]
  constructor
  · rintro ⟨phases, staged, h', ht, hplan⟩
    exact ⟨staged, h', ht, phases, hplan⟩
  · rintro ⟨staged, h', ht, phases, hplan⟩
    exact ⟨phases, staged, h', ht, hplan⟩

/-! ## No process -/

def PlanPhase.isBash : PlanPhase → Bool
  | .bash _ => true
  | .duck _ _ => false

/-- A plan starts a process. -/
def Spawns (phases : List PlanPhase) : Prop := ∃ phase ∈ phases, phase.isBash = true

theorem phasesOf_bash {first : Bool} {rs : List (Run ι α)} {phases : List PlanPhase}
    (ho : phasesOf h first params rs = .ok (phases, left)) :
    phases.map PlanPhase.isBash = rs.map Run.isBash := by
  induction rs generalizing first params phases with
  | nil =>
    obtain ⟨rfl, -⟩ : phases = [] ∧ _ := by simpa [phasesOf, eq_comm] using ho
    rfl
  | cons r rs ih =>
    cases r with
    | bash items =>
      obtain ⟨-, argvs, phases', -, hphases, rfl⟩ := phasesOf_bash_ok_iff.mp ho
      exact congrArg (true :: ·) (ih hphases)
    | duck items =>
      obtain ⟨sql, used, between, phases', -, hphases, rfl⟩ := phasesOf_duck_ok_iff.mp ho
      exact congrArg (false :: ·) (ih hphases)

/-- A plan starts a process iff a segment was assigned to bash. -/
theorem planOf_spawns {phases : List PlanPhase} (ho : planOf h params staged = .ok phases) :
    Spawns phases ↔ ∃ s ∈ staged, s.isBash = true := by
  rcases runs_spec staged with ⟨hflat, huni⟩
  have hspawn : Spawns phases ↔ true ∈ phases.map PlanPhase.isBash := by
    simp [Spawns, List.mem_map]
  rw [hspawn, phasesOf_bash (planOf_phases_iff.mp ho), List.mem_map]
  constructor
  · rintro ⟨r, hr, hbash⟩
    rcases List.exists_mem_of_ne_nil _ (huni r hr).1 with ⟨s, hs⟩
    refine ⟨s, ?_, ((huni r hr).2 s hs).trans hbash⟩
    rw [← hflat]
    exact List.mem_flatMap.mpr ⟨r, hr, hs⟩
  · rintro ⟨s, hs, hbash⟩
    rw [← hflat] at hs
    rcases List.mem_flatMap.mp hs with ⟨r, hr, hmem⟩
    exact ⟨r, hr, ((huni r hr).2 s hmem).symm.trans hbash⟩

variable (reg) in
/-- The segment is lowered to bash in a bounded query. -/
def LowersToBash (segment : List Char) (key : String) (op : Operator ι α) : Prop :=
  (∃ rest, classify reg segment = some (key, op, rest)) ∧ op.optimizeDuck = none
    ∧ op.optimizeBash.isSome = true

theorem Taken.isBash_iff (ht : Taken reg p ctx h segment s h') :
    s.isBash = true ↔ ∃ key op, LowersToBash reg segment key op := by
  rcases ht with ⟨hc, -, rfl, -⟩ | ⟨key, op, rest, _, _, args, hc, -, -, -, -, hassign⟩
  · refine iff_of_false (by simp [Staged.isBash]) ?_
    rintro ⟨key, op, ⟨rest, hs⟩, -⟩
    rw [hc] at hs
    exact absurd hs (by simp)
  · unfold assign at hassign
    match hd : op.optimizeDuck with
    | some form =>
      obtain rfl : _ = s := by simpa [hd] using hassign
      refine iff_of_false (by simp [Staged.isBash]) ?_
      rintro ⟨key', op', ⟨rest', hs⟩, hnone, -⟩
      obtain ⟨-, rfl, -⟩ : key = key' ∧ op = op' ∧ rest = rest' := by simpa [hc] using hs
      rw [hd] at hnone
      exact absurd hnone (by simp)
    | none =>
      rw [hd, if_neg (by simp)] at hassign
      split at hassign
      · next hb =>
        split at hassign
        · exact absurd hassign (by simp)
        · obtain rfl := Except.ok.inj hassign
          exact iff_of_true rfl ⟨key, op, ⟨rest, hc⟩, hd, hb⟩
        · exact absurd hassign (by simp)
      · exact absurd hassign (by simp)

theorem Taken.allows {key : String} {op : Operator ι α} {rest : List Char}
    (ht : Taken reg p ctx h segment s h') (hc : classify reg segment = some (key, op, rest)) :
    p.Allows op.name (op.caps (h key)) := by
  rcases ht with ⟨hnone, -⟩ | ⟨key', op', rest', _, _, _, hs, hadm, -⟩
  · rw [hc] at hnone
    exact absurd hnone (by simp)
  · obtain ⟨rfl, rfl, -⟩ : key = key' ∧ op = op' ∧ rest = rest' := by simpa [hc] using hs
    exact hadm.1

/-- NO PROCESS, bounded queries.  Under a policy that does not grant EXEC, a text is compiled to no
plan that starts a process iff every segment that is lowered to bash declares EXEC, or the text is
refused for another reason. -/
theorem query_spawns_nothing (hp : ¬ p.Grants .exec) :
    (∀ phases, (compile reg p ctx h segments params).result = .ok phases → ¬ Spawns phases) ↔
      (∀ pre segment post, segments = pre ++ segment :: post →
        ∀ key op, LowersToBash reg segment key op → Cap.exec ∈ op.caps (after reg ctx h pre key))
      ∨ ¬ ∃ staged h', Threaded (Taken reg p ctx) h segments staged h'
        ∧ Fits h' true params staged [] := by
  constructor
  · intro hno
    refine or_iff_not_imp_right.mpr fun hacc pre segment post heq key op hlow => ?_
    rcases not_not.mp hacc with ⟨staged, h', ht, hfit⟩
    rcases planOf_ok_iff.mpr hfit with ⟨phases, hplan⟩
    rcases ht.split (fun _ _ _ _ => Taken.held) heq with ⟨a, s, b, h₁, rfl, -, -, hs⟩
    refine absurd ?_ (hno phases (compile_iff.mpr ⟨_, h', ht, hplan⟩))
    exact (planOf_spawns hplan).mpr ⟨s, by simp, hs.isBash_iff.mpr ⟨key, op, hlow⟩⟩
  · rintro hcond phases hok hspawn
    rcases compile_iff.mp hok with ⟨staged, h', ht, hplan⟩
    rcases hcond with hdecl | hrefused
    · rcases (planOf_spawns hplan).mp hspawn with ⟨s, hs, hbash⟩
      rcases List.append_of_mem hs with ⟨a, b, rfl⟩
      rcases ht.unsplit (fun _ _ _ _ => Taken.held) with ⟨pre, segment, post, h₁, heq, -, -, hs⟩
      rcases hs.isBash_iff.mp hbash with ⟨key, op, hlow⟩
      have hexec := hdecl pre segment post heq key op hlow
      rcases hlow.1 with ⟨rest, hc⟩
      exact hp (Policy.allows_grants (hs.allows hc) hexec)
    · exact hrefused ⟨staged, h', ht, planOf_ok_iff.mp ⟨phases, hplan⟩⟩

end Query

/-! ## Streams -/

section Stream

variable {ι α : Type} {reg : Registry ι α} {p : Policy} {h h' : Held ι} {segment : List Char}
  {sinkTable : α → Except PipeExc Unit} {c : Call ι α} {calls : List (Call ι α)}
  {pipeline : List Char} {plan : StreamPlan α}

variable (reg) in
/-- What the instances keep after a stream's segment. -/
def afterArgs (h : Held ι) (segment : List Char) : Held ι :=
  match classify reg segment with
  | none => h
  | some (key, op, rest) => (readArgs h key op rest).2

variable (reg p) in
/-- The loop takes a segment: an operator that is allowed, with well formed arguments. -/
def StreamTaken (h : Held ι) (segment : List Char) (c : Call ι α) (h' : Held ι) : Prop :=
  ∃ rest, classify reg segment = some (c.key, c.op, rest) ∧ p.Allows c.op.name (c.op.caps (h c.key))
    ∧ readArgs h c.key c.op rest = (.ok c.args, h')

variable (sinkTable) in
/-- An unbounded source, middles with a bash cell, and the sink of a known table. -/
def StreamFits (h : Held ι) (calls : List (Call ι α)) (argvs : List (List String)) : Prop :=
  ∃ source middles sink, calls = source :: (middles ++ [sink]) ∧ source.op.bounded = false
    ∧ sink.op.name = "ingest" ∧ sinkTable sink.args = .ok ()
    ∧ middles.mapM (middleArgv h) = .ok argvs

theorem streamSegment_iff : (∃ ev, streamSegment reg p h segment = ⟨.ok c, h', ev⟩) ↔
    StreamTaken reg p h segment c h' := by
  unfold streamSegment StreamTaken
  match hc : classify reg segment with
  | none => simp
  | some (key, op, rest) =>
    rcases p.check_spec op.name (op.caps (h key)) with ⟨ha, hcheck⟩ | ⟨ha, d, hcheck⟩
    · match hr : readArgs h key op rest with
      | (.error e, h₁) =>
        refine iff_of_false (by simp [hcheck, hr]) ?_
        rintro ⟨rest', hs, -, hread⟩
        obtain ⟨rfl, rfl, rfl⟩ : key = c.key ∧ op = c.op ∧ rest = rest' := by simpa using hs
        rw [hr] at hread
        exact absurd (Prod.mk.inj hread).1 (by simp)
      | (.ok args, h₁) =>
        simp only [hcheck, hr]
        constructor
        · rintro ⟨ev, ho⟩
          obtain ⟨hcall, rfl, -⟩ := Outcome.mk.inj ho
          obtain rfl := Except.ok.inj hcall
          exact ⟨rest, rfl, ha, hr⟩
        · rintro ⟨rest', hs, -, hread⟩
          match c with
          | ⟨key', op', args'⟩ =>
            obtain ⟨rfl, rfl, rfl⟩ : key = key' ∧ op = op' ∧ rest = rest' := by simpa using hs
            obtain ⟨rfl, rfl⟩ : args = args' ∧ h₁ = h' := by simpa [hr] using hread
            exact ⟨[], rfl⟩
    · refine iff_of_false (by simp [hcheck]) ?_
      rintro ⟨rest', hs, hal, -⟩
      obtain ⟨rfl, rfl, rfl⟩ : key = c.key ∧ op = c.op ∧ rest = rest' := by simpa using hs
      exact ha hal

theorem StreamTaken.held (ht : StreamTaken reg p h segment c h') :
    h' = afterArgs reg h segment := by
  rcases ht with ⟨rest, hc, -, hr⟩
  simp only [afterArgs, hc, hr]

theorem streamOf_iff : streamOf sinkTable h calls = .ok plan ↔
    StreamFits sinkTable h calls plan.middles
      ∧ ∃ source sink, calls.head? = some source ∧ calls.getLast? = some sink
        ∧ plan.source = source.args ∧ plan.sink = sink.args := by
  match calls with
  | [] => simp [streamOf, StreamFits]
  | [source] => simp [streamOf, StreamFits]
  | source :: middle :: more =>
    -- the text ends in the sink
    have hlast : (middle :: more) = (middle :: more).dropLast ++ [(middle :: more).getLast (by simp)] :=
      (List.dropLast_append_getLast (by simp)).symm
    generalize hsink : (middle :: more).getLast (by simp) = sink at hlast
    generalize hmid : (middle :: more).dropLast = middles at hlast
    have hend : (source :: middle :: more).getLast? = some sink := by
      rw [hlast, ← List.cons_append, List.getLast?_concat]
    have hfits : StreamFits sinkTable h (source :: middle :: more) plan.middles ↔
        source.op.bounded = false ∧ sink.op.name = "ingest" ∧ sinkTable sink.args = .ok ()
          ∧ middles.mapM (middleArgv h) = .ok plan.middles := by
      constructor
      · rintro ⟨source', middles', sink', heq, hb, hn, ht, hm⟩
        obtain ⟨rfl, htail⟩ := List.cons.inj heq
        rw [hlast] at htail
        obtain ⟨rfl, hone⟩ := List.append_inj' htail rfl
        obtain rfl := List.singleton_inj.mp hone
        exact ⟨hb, hn, ht, hm⟩
      · rintro ⟨hb, hn, ht, hm⟩
        exact ⟨source, middles, sink, by rw [hlast], hb, hn, ht, hm⟩
    rw [hfits, hend]
    unfold streamOf
    simp only [hsink, hmid]
    match hb : source.op.bounded with
    | true => simp
    | false =>
      by_cases hn : sink.op.name = "ingest"
      · match ht : sinkTable sink.args with
        | .error e => simp [hn]
        | .ok () =>
          match hm : middles.mapM (middleArgv h) with
          | .error e => simp [hn, Except.map]
          | .ok argvs =>
            match plan with
            | ⟨source', argvs', sink'⟩ =>
              simp only [hn, Except.map, ne_eq, not_true_eq_false, if_false, Bool.false_eq_true,
                List.head?_cons, Option.some.injEq, Except.ok.injEq, StreamPlan.mk.injEq, true_and]
              constructor
              · rintro ⟨rfl, rfl, rfl⟩
                exact ⟨rfl, source, sink, rfl, rfl, rfl, rfl⟩
              · rintro ⟨rfl, source'', sink'', rfl, rfl, rfl, rfl⟩
                exact ⟨rfl, rfl, rfl⟩
      · simp [hn]

theorem streamCompile_iff :
    (streamCompile reg p sinkTable h pipeline).result = .ok plan ↔
      ∃ segments calls h', splitPipeline pipeline = some segments
        ∧ Threaded (StreamTaken reg p) h segments calls h'
        ∧ streamOf sinkTable h' calls = .ok plan := by
  have hloop : ∀ segments calls h', (∃ ev, overSegments (streamSegment reg p) h segments
      = ⟨.ok calls, h', ev⟩) ↔ Threaded (StreamTaken reg p) h segments calls h' := fun _ _ _ =>
    overSegments_iff fun _ _ _ _ => streamSegment_iff
  unfold streamCompile
  match hs : splitPipeline pipeline with
  | none => simp
  | some segments =>
    dsimp only
    split
    · next hshort =>
      refine iff_of_false (by simp) ?_
      rintro ⟨segments', calls, h', heq, ht, hplan⟩
      obtain rfl := Option.some.inj heq
      have hlen := ht.length
      rcases (streamOf_iff.mp hplan).1 with ⟨source, middles, sink, rfl, -⟩
      simp only [List.length_cons, List.length_append] at hlen
      omega
    · match ho : overSegments (streamSegment reg p) h segments with
      | ⟨.error e, h₁, ev⟩ =>
        refine iff_of_false (by simp) ?_
        rintro ⟨segments', calls, h', heq, ht, -⟩
        obtain rfl := Option.some.inj heq
        rcases (hloop _ _ _).mpr ht with ⟨ev', ho'⟩
        rw [ho] at ho'
        exact absurd (congrArg Outcome.result ho') (by simp)
      | ⟨.ok calls, h₁, ev⟩ =>
        constructor
        · intro hplan
          exact ⟨segments, calls, h₁, rfl, (hloop _ _ _).mp ⟨ev, ho⟩, hplan⟩
        · rintro ⟨segments', calls', h', heq, ht, hplan⟩
          obtain rfl := Option.some.inj heq
          rcases (hloop _ _ _).mpr ht with ⟨ev', ho'⟩
          rw [ho] at ho'
          obtain ⟨hcalls, rfl, -⟩ := Outcome.mk.inj ho'
          obtain rfl := Except.ok.inj hcalls
          exact hplan

variable (reg) in
/-- Every middle of the text that has a bash cell declares EXEC. -/
def MiddlesDeclare (h : Held ι) (segments : List (List Char)) : Prop :=
  ∀ pre segment post, segments = pre ++ segment :: post → pre ≠ [] → post ≠ [] →
    ∀ key op rest, classify reg segment = some (key, op, rest) → op.optimizeBash.isSome = true →
      Cap.exec ∈ op.caps (pre.foldl (afterArgs reg) h key)

/-- A middle that was taken and has its argument vector has a bash cell. -/
theorem middleArgv_isSome {argv : List String} (ha : middleArgv h c = .ok argv) :
    c.op.optimizeBash.isSome = true := by
  unfold middleArgv at ha
  match hb : c.op.optimizeBash with
  | some code => rfl
  | none => simp [hb] at ha

theorem mapM_mem_ok {β γ : Type} {f : β → Except PipeExc γ} {xs : List β} {ys : List γ}
    (hm : xs.mapM f = .ok ys) {x : β} (hx : x ∈ xs) : ∃ y, f x = .ok y := by
  induction xs generalizing ys with
  | nil => exact absurd hx (by simp)
  | cons a xs ih =>
    rw [List.mapM_cons] at hm
    match ha : f a, hr : xs.mapM f with
    | .error e, _ => simp [ha, bind, Except.bind] at hm
    | .ok b, .error e => simp [ha, hr, bind, Except.bind] at hm
    | .ok b, .ok bs =>
      rcases List.mem_cons.mp hx with rfl | hx
      · exact ⟨b, ha⟩
      · exact ih hr hx

/-- NO PROCESS, streams.  Under a policy that does not grant EXEC, a text starts no stream with a
process in it iff every middle with a bash cell declares EXEC, or the text is refused for another
reason. -/
theorem stream_spawns_nothing (hp : ¬ p.Grants .exec) :
    (∀ plan, (streamCompile reg p sinkTable h pipeline).result = .ok plan → plan.middles = []) ↔
      (∀ segments, splitPipeline pipeline = some segments → MiddlesDeclare reg h segments)
      ∨ ¬ ∃ segments calls h' argvs, splitPipeline pipeline = some segments
        ∧ Threaded (StreamTaken reg p) h segments calls h' ∧ StreamFits sinkTable h' calls argvs := by
  constructor
  · intro hno
    refine or_iff_not_imp_right.mpr fun hacc segments hsplit => ?_
    rcases not_not.mp hacc with ⟨segments', calls, h', argvs, hsplit', ht, hfits⟩
    obtain rfl : segments = segments' := Option.some.inj (hsplit.symm.trans hsplit')
    rcases hfits with ⟨source, middles, sink, rfl, hfits⟩
    have hplan : streamOf sinkTable h' (source :: (middles ++ [sink]))
        = .ok ⟨source.args, argvs, sink.args⟩ := by
      refine streamOf_iff.mpr ⟨⟨source, middles, sink, rfl, hfits⟩, source, sink, rfl, ?_, rfl, rfl⟩
      rw [← List.cons_append, List.getLast?_concat]
    have hnil := hno _ (streamCompile_iff.mpr ⟨segments, _, h', hsplit, ht, hplan⟩)
    -- no process is started, so there is no middle
    have hmid : middles = [] := by
      match middles, hfits.2.2.2 with
      | [], _ => rfl
      | m :: middles, hm =>
        rw [List.mapM_cons, show argvs = [] from hnil] at hm
        match ha : middleArgv h' m, hr : middles.mapM (middleArgv h') with
        | .error e, _ => simp [ha, bind, Except.bind] at hm
        | .ok b, .error e => simp [ha, hr, bind, Except.bind] at hm
        | .ok b, .ok bs => simp [ha, hr, bind, Except.bind, pure, Except.pure] at hm
    rintro pre segment post rfl hpre hpost
    have hlen := ht.length
    rw [hmid] at hlen
    have h1 := List.length_pos_of_ne_nil hpre
    have h2 := List.length_pos_of_ne_nil hpost
    simp only [List.length_cons, List.length_append, List.length_nil] at hlen
    omega
  · intro hcond plan hok
    rcases streamCompile_iff.mp hok with ⟨segments, calls, h', hsplit, ht, hplan⟩
    have hfits := (streamOf_iff.mp hplan).1
    rcases hcond with hdecl | hrefused
    · rcases hfits with ⟨source, middles, sink, rfl, -, -, -, hm⟩
      match middles with
      | [] =>
        rw [List.mapM_nil] at hm
        exact (Except.ok.inj hm).symm
      | m :: middles =>
        rcases mapM_mem_ok hm List.mem_cons_self with ⟨argv, ha⟩
        have ht' : Threaded (StreamTaken reg p) h segments ([source] ++ m :: (middles ++ [sink])) h' := ht
        rcases ht'.unsplit (fun _ _ _ _ => StreamTaken.held) with
          ⟨pre, segment, post, h₁, heq, hpre, hpost, rest, hc, hal, -⟩
        have hexec := hdecl segments hsplit pre segment post heq
          (List.ne_nil_of_length_pos (by rw [hpre]; simp))
          (List.ne_nil_of_length_pos (by rw [hpost]; simp)) m.key m.op rest hc
          (middleArgv_isSome ha)
        exact absurd (Policy.allows_grants hal hexec) hp
    · exact absurd ⟨segments, calls, h', _, hsplit, ht, hfits⟩ hrefused

end Stream

/-- NO PROCESS WITHOUT EXEC, for both compilers. -/
theorem spawns_nothing {ι α : Type} (reg : Registry ι α) {p : Policy} (hp : ¬ p.Grants .exec)
    (h : Held ι) :
    (∀ ctx segments params,
      (∀ phases, (compile reg p ctx h segments params).result = .ok phases → ¬ Spawns phases) ↔
        (∀ pre segment post, segments = pre ++ segment :: post →
          ∀ key op, LowersToBash reg segment key op → Cap.exec ∈ op.caps (after reg ctx h pre key))
        ∨ ¬ ∃ staged h', Threaded (Taken reg p ctx) h segments staged h'
          ∧ Fits h' true params staged [])
    ∧ ∀ sinkTable pipeline,
      (∀ plan, (streamCompile reg p sinkTable h pipeline).result = .ok plan → plan.middles = []) ↔
        (∀ segments, splitPipeline pipeline = some segments → MiddlesDeclare reg h segments)
        ∨ ¬ ∃ segments calls h' argvs, splitPipeline pipeline = some segments
          ∧ Threaded (StreamTaken reg p) h segments calls h'
          ∧ StreamFits sinkTable h' calls argvs :=
  ⟨fun _ _ _ => query_spawns_nothing hp, fun _ _ => stream_spawns_nothing hp⟩

/-- A shell command after a statement: it declares EXEC. -/
theorem spawns_nothing_sh : ¬ ∃ phases,
    (compile builtins readOnly notesCtx (fun _ => ()) ["SELECT 1 AS a".toList, "sh 'ls'".toList]
      []).result = .ok phases ∧ Spawns phases := by
  rintro ⟨phases, hok, hspawn⟩
  refine ((spawns_nothing builtins (by decide) (fun _ => ())).1 notesCtx _ []).mpr (Or.inl ?_)
    phases hok hspawn
  intro pre segment post heq key op hlow
  rcases hlow with ⟨⟨rest, hc⟩, -⟩
  have hall : ∀ x ∈ ["SELECT 1 AS a".toList, "sh 'ls'".toList],
      (match classify builtins x with
        | some (_, op, _) => decide (Cap.exec ∈ op.caps ())
        | none => true) = true := by decide +kernel
  have hone := hall segment (by rw [heq]; simp)
  rw [hc] at hone
  exact of_decide_eq_true hone

def notesSink : Args → Except PipeExc Unit
  | .ingest table _ _ => if table = "notes" then .ok () else .error (.unknownTable table)
  | _ => .error (noAttribute "table")

/-- The default policy lets a stream start `tail`: the second `watch` only declares that it reads. -/
theorem watch_spawns : ((streamCompile builtins readOnly notesSink (fun _ => ())
    "watch 'a' | watch 'b' | ingest notes".toList).result.toOption.map StreamPlan.middles)
      = some [["tail", "-F", "-n", "+1", "b"]] := by decide +kernel

end Seekbase
