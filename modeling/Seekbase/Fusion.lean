/-
# Seekbase.Fusion — a fused plan means what its stages mean, one after another.

The compiler pastes the stages of a run into one statement: a chain of named queries `_s0`, `_s1`, …,
in each of which the stage before is called `_in`.  Here that is taken apart again.  `emitPlan` is the
compiler without the pasting, which keeps each stage with its own parameters; `fuse` is the pasting
alone, and the compiler is the one after the other.  What a stage gives is then defined stage by stage,
on the rows of the stage before, with no chain and no names; the fused plan gives the same.

What DuckDB is relied on for is `Engine.Sql`: the scopes of `WITH`, and parameters by position.

* `emitPlan`, `fuse`     — the two halves of the compiler, and `compile_fuses`;
* `Engine.Sql`           — the law;
* `Apart`                — each stage is a query by itself, and uses no name of one before it;
* `runInTurn`            — the plan, a stage at a time;
* `query_in_turn`        — both: the compiler pastes what the stages compile to, and a pipeline is
                           answered as if its stages ran one after another.
-/
import Seekbase.Bind
import Seekbase.Lib.Cte
import Seekbase.Unseen

namespace Seekbase

open Lines

/-! ## The compiler in two halves -/

/-- A text with the parameters that are its own. -/
abbrev StageText := String × List Val

/-- A phase with its stages apart. -/
inductive StagedPhase where
  | duck (stages : List StageText)
  | bash (argvs : List (List String))

section Emit

variable {ι α : Type} (h : Held ι)

/-- A stage by itself, and what it leaves of the user's parameters; `fed` says that there is one before
it. -/
def emitItem (fed : Bool) (params : List Val) : Staged ι α → Except PipeExc (StageText × List Val)
  | .duck key op args =>
    match op.isSource, fed, op.optimizeDuck with
    | .error e, _, _ => .error e
    | .ok true, true, _ => .error (.sourceInside op.name)
    | .ok false, false, _ => .error (.needsUpstream op.name)
    | .ok true, false, some (.source code) => (code (h key) args).map fun r => (r, params)
    | .ok false, true, some (.middle code) => (code (h key) "_in" args).map fun r => (r, params)
    | .ok _, _, _ => .error wrongArity
  | .sql segment =>
    let need := countPlaceholders none segment
    if params.length < need then .error (.shortParams need params.length)
    else .ok ((String.ofList segment, params.take need), params.drop need)
  | .bash _ op _ => .error (.noRuntime op.name)

/-- The stages of a run. -/
def emitStages : Bool → List Val → List (Staged ι α) → Except PipeExc (List StageText × List Val)
  | _, params, [] => .ok ([], params)
  | fed, params, s :: rest =>
    match emitItem h fed params s with
    | .error e => .error e
    | .ok (own, params) => (emitStages true params rest).map fun r => (own :: r.1, r.2)

def emitPhases : Bool → List Val → List (Run ι α) → Except PipeExc (List StagedPhase × List Val)
  | _, params, [] => .ok ([], params)
  | first, params, .bash items :: rest =>
    match items.mapM (bashArgv h) with
    | .error e => .error e
    | .ok argvs =>
      if first then .error .bashStarts
      else (emitPhases false params rest).map fun r => (.bash argvs :: r.1, r.2)
  | first, params, .duck items :: rest =>
    match emitStages h (!first) params items with
    | .error e => .error e
    | .ok (stages, params) => (emitPhases false params rest).map fun r => (.duck stages :: r.1, r.2)

def emitPlan (params : List Val) (staged : List (Staged ι α)) : Except PipeExc (List StagedPhase) :=
  match emitPhases h true params (runs staged) with
  | .error e => .error e
  | .ok (phases, []) => .ok phases
  | .ok (_, left) => .error (.unusedParams left.length)

/-- The name a run's first stage finds its input under. -/
def fedFrom (fed : Bool) : Option String := if fed then some "_bridge" else none

/-- The stages of a chain by name and text. -/
def chained : Nat → Option String → List StageText → List (String × String)
  | _, _, [] => []
  | n, prev, s :: rest => (stageName n, pasted prev s.1) :: chained (n + 1) (some (stageName n)) rest

/-- The stages of a run as one statement. -/
def fuseRun (fed : Bool) (stages : List StageText) : PlanPhase :=
  .duck (chainSql (chained 0 (fedFrom fed) stages) (fedFrom fed)) (stages.flatMap Prod.snd)

/-- The pasting; `first` says that there is no phase yet. -/
def fuse : Bool → List StagedPhase → List PlanPhase
  | _, [] => []
  | _, .bash argvs :: rest => .bash argvs :: fuse false rest
  | first, .duck stages :: rest => fuseRun (!first) stages :: fuse false rest

variable {h} {params : List Val}

theorem map_twice {ε α β γ : Type} (x : Except ε α) (f : α → β) (g : β → γ) :
    (x.map f).map g = x.map fun a => g (f a) := by
  cases x <;> rfl

theorem fuseItem_emit (prev : Option String) (s : Staged ι α) : fuseItem h prev params s
    = (emitItem h prev.isSome params s).map fun r => (pasted prev r.1.1, r.1.2, r.2) := by
  cases s with
  | sql segment =>
    simp only [fuseItem, emitItem]
    split
    · rfl
    · cases prev <;> rfl
  | bash key op args => rfl
  | duck key op args =>
    simp only [fuseItem, emitItem]
    cases op.isSource with
    | error e => rfl
    | ok source =>
      cases op.optimizeDuck with
      | none => cases source <;> cases prev <;> rfl
      | some cell =>
        cases cell with
        | source code =>
          cases source with
          | false => cases prev <;> rfl
          | true =>
            cases prev with
            | some p => rfl
            | none =>
              show (code (h key) args).map _ = ((code (h key) args).map _).map _
              rw [map_twice]
              rfl
        | middle code =>
          cases source with
          | true => cases prev <;> rfl
          | false =>
            cases prev with
            | none => rfl
            | some p =>
              show (code (h key) "_in" args).map _ = ((code (h key) "_in" args).map _).map _
              rw [map_twice]
              rfl

theorem fuseStages_emit (n : Nat) (prev : Option String) (items : List (Staged ι α)) :
    fuseStages h n prev params items = (emitStages h prev.isSome params items).map fun r =>
      (chained n prev r.1, r.1.flatMap Prod.snd, r.2) := by
  induction items generalizing n prev params with
  | nil => rfl
  | cons s items ih =>
    rw [fuseStages, emitStages, fuseItem_emit]
    cases emitItem h prev.isSome params s with
    | error e => rfl
    | ok r =>
      show (fuseStages h (n + 1) (some (stageName n)) r.2 items).map _
        = ((emitStages h true r.2 items).map _).map _
      rw [ih, map_twice, map_twice]
      rfl

theorem fedFrom_isSome (fed : Bool) : (fedFrom fed).isSome = fed := by
  cases fed <;> rfl

theorem fuseDuckRun_emit (fed : Bool) (items : List (Staged ι α)) : fuseDuckRun h items params fed
    = (emitStages h fed params items).map fun r =>
      (chainSql (chained 0 (fedFrom fed) r.1) (fedFrom fed), r.1.flatMap Prod.snd, r.2) := by
  show (fuseStages h 0 (fedFrom fed) params items).map _ = _
  rw [fuseStages_emit, fedFrom_isSome, map_twice]
  rfl

theorem phasesOf_emit (first : Bool) (rs : List (Run ι α)) : phasesOf h first params rs
    = (emitPhases h first params rs).map fun r => (fuse first r.1, r.2) := by
  induction rs generalizing first params with
  | nil => rfl
  | cons r rs ih =>
    cases r with
    | bash items =>
      rw [phasesOf, emitPhases]
      cases items.mapM (bashArgv h) with
      | error e => rfl
      | ok argvs =>
        cases first with
        | true => rfl
        | false =>
          show (phasesOf h false params rs).map _ = ((emitPhases h false params rs).map _).map _
          rw [ih, map_twice, map_twice]
          rfl
    | duck items =>
      rw [phasesOf, emitPhases, fuseDuckRun_emit]
      cases emitStages h (!first) params items with
      | error e => rfl
      | ok r =>
        show (phasesOf h false r.2 rs).map _ = ((emitPhases h false r.2 rs).map _).map _
        rw [ih, map_twice, map_twice]
        rfl

theorem planOf_emit (staged : List (Staged ι α)) :
    planOf h params staged = (emitPlan h params staged).map (fuse true) := by
  unfold planOf emitPlan
  rw [phasesOf_emit]
  cases emitPhases h true params (runs staged) with
  | error e => rfl
  | ok r =>
    obtain ⟨phases, left⟩ := r
    cases left <;> rfl

end Emit

/-! ## What DuckDB is relied on for -/

/-- The database's `WITH`: which texts are queries by themselves, what each means where names stand for
relations, and that a text that reads as a chain of queries, with the parameters of each one after the
other, is one SELECT and means the chain. -/
structure Engine.Sql (engine : Engine) where
  grammar : Cte.Grammar Val
  uses : Cte.Said Val → String → Prop
  bodies : (Source → Option Content) →
    Cte.Bodies String (Cte.Said Val) (Except String Rows) Cte.starText uses
  star_query : ∀ n, Cte.IsName n → grammar.query (Cte.starText n)
  star_headless : ∀ n, Cte.IsName n → grammar.headless (Cte.starText n)
  statements_reads : ∀ {sql : String} {params : List Val} {q : Cte.Query String (Cte.Said Val)},
    Cte.Reads grammar (sql.toList, params) q → engine.statements sql = .ok [true]
  execute_reads : ∀ {sql : String} {params : List Val} {q : Cte.Query String (Cte.Said Val)},
    Cte.Reads grammar (sql.toList, params) q → ∀ env,
      engine.execute sql params env = q.eval (bodies env) fun _ => none

def StageText.said (s : StageText) : Cte.Said Val := (s.1.toList, s.2)

section Meaning

variable {engine : Engine} (law : engine.Sql)

/-- A stage is a query by itself, behind another one without a `WITH` of its own, and uses the name of
none of the `n` stages before it in its chain. -/
def StandAlone : Nat → Bool → List StageText → Prop
  | _, _, [] => True
  | n, fed, s :: rest =>
    (if fed then law.grammar.headless s.said else law.grammar.query s.said)
      ∧ (∀ i < n, ¬ law.uses s.said (stageName i)) ∧ StandAlone (n + 1) true rest

/-- All stages of a plan are queries by themselves; `first` says that there is no phase yet. -/
def Apart : Bool → List StagedPhase → Prop
  | _, [] => True
  | _, .bash _ :: rest => Apart false rest
  | first, .duck stages :: rest => stages ≠ [] ∧ StandAlone law 0 (!first) stages ∧ Apart false rest

/-- What the last stage of a run gives: each stage is asked on what the one before gives, under the name
`_in`. -/
def stageRows (env : Source → Option Content) (fed : Bool) (stages : List StageText) :
    Option (Except String Rows) :=
  Cte.inTurn (law.bodies env) "_in" (fun _ => none) ((fedFrom fed).map (law.bodies env).base)
    (stages.map StageText.said)

variable {schema : ReadSchema}

/-- The phases, their stages one after another; `rows` is what the last stage has given. -/
def runInTurn (world : World) : Bool → Cursor schema → List Record → List StagedPhase → Answer schema
  | _, c, rows, [] => (.ok rows, c)
  | first, c, _, .duck stages :: rest =>
    match stageRows law (c.content world) (!first) stages with
    | none => (.error (queryError ""), c)     -- a run has a stage
    | some (.error why) => (.error (queryError why), c)
    | some (.ok (names, rows)) =>
      runInTurn world false c (rows.map fun row => dictOf (names.zip row)) rest
  | _, c, rows, .bash argvs :: rest =>
    match engine.bash argvs (rowsToJsonl rows) with
    | .error why => (.error (queryError why), c)
    | .ok out =>
      match rest with
      | [] => (jsonlToRows engine.jsonWhy out, c)
      | _ :: _ =>
        match loadBridge engine c out with
        | .error e => (.error e, c)
        | .ok c => runInTurn world false c rows rest

/-- `run_plan`, with the stages apart. -/
def runApart (c : Cursor schema) (world : World) (w : Window) (phases : List StagedPhase) :
    Answer schema :=
  match w.check engine.repr with
  | .error e => (.error e, c)
  | .ok () => runInTurn law world true (c.install w) [] phases

variable {law} {c : Cursor schema} {world : World} {fed : Bool} {stages : List StageText}

/-! ## A run -/

/-- The stages of a chain as clauses. -/
def clausesOf : Nat → Option String → List StageText → List (Cte.Clause Val)
  | _, _, [] => []
  | n, prev, s :: rest =>
    ⟨stageName n, ((pasted prev s.1).toList, s.2), Cte.link Cte.starText "_in" prev s.said⟩
      :: clausesOf (n + 1) (some (stageName n)) rest

def named : Nat → List StageText → List (String × Cte.Said Val)
  | _, [] => []
  | n, s :: rest => (stageName n, s.said) :: named (n + 1) rest

theorem isName_stage (n : Nat) : Cte.IsName (stageName n) := by
  intro c hc
  rw [stageName, String.toList_append, List.mem_append] at hc
  rcases hc with hc | hc
  · revert c
    decide
  · rw [Nat.toList_repr] at hc
    have hdigit := Nat.isDigit_of_mem_toDigits (by omega) (by omega) hc
    simp [Cte.isNameChar, Char.isAlphanum, hdigit]

theorem stageName_ne {name : String} (h : "_s".toList.isPrefixOf name.toList = false) (i : Nat) :
    stageName i ≠ name := by
  rintro rfl
  rw [stageName, String.toList_append, List.isPrefixOf_iff_prefix.mpr (List.prefix_append _ _)] at h
  cases h

theorem isName_in : Cte.IsName "_in" := List.all_eq_true.mp (by decide +kernel)

theorem isName_fedFrom (p : String) (hp : fedFrom fed = some p) : Cte.IsName p := by
  cases fed with
  | false => cases hp
  | true =>
    obtain rfl : "_bridge" = p := Option.some.inj hp
    exact List.all_eq_true.mp (by decide +kernel)

/-- `_in AS (SELECT * FROM p)`. -/
def inClause (p : String) : Cte.Clause Val := ⟨"_in", Cte.starText p, .body (Cte.starText p)⟩

theorem in_text (p : String) : ("WITH _in AS (SELECT * FROM " ++ p ++ ") ").toList
    = "WITH ".toList ++ ((inClause p).text ++ [' ']) := by
  have hhead : "WITH _in AS (SELECT * FROM ".toList
      = "WITH ".toList ++ (("_in" ++ " AS (").toList ++ "SELECT * FROM ".toList) := by decide +kernel
  show _ = "WITH ".toList
    ++ (("_in" ++ " AS (").toList ++ ("SELECT * FROM ".toList ++ p.toList ++ [')']) ++ [' '])
  rw [String.toList_append, String.toList_append, hhead]
  simp only [List.append_assoc]
  rfl

theorem pasted_clauses (p : String) (s : StageText) :
    (pasted (some p) s.1).toList = "WITH ".toList ++ Cte.clausesText [inClause p] s.said.1 := by
  rw [pasted_toList, in_text, Cte.clausesText_single]
  simp only [List.append_assoc]
  rfl

/-- A stage behind its head reads as itself behind the relation the head names. -/
theorem pasted_reads {prev : Option String} (hprev : ∀ p, prev = some p → Cte.IsName p) {s : StageText}
    (hs : if prev.isSome then law.grammar.headless s.said else law.grammar.query s.said) :
    Cte.Reads law.grammar ((pasted prev s.1).toList, s.2) (Cte.link Cte.starText "_in" prev s.said) := by
  cases prev with
  | none => exact .body hs
  | some p =>
    rw [pasted_clauses]
    refine @Cte.Reads.chain _ law.grammar [inClause p] s.said (by simp) ?_ ?_ hs
    · intro c hc
      rw [List.mem_singleton.mp hc]
      exact isName_in
    · intro c hc
      rw [List.mem_singleton.mp hc]
      exact .body (law.star_query p (hprev p rfl))

theorem clausesOf_query (n : Nat) (prev : Option String) (stages : List StageText) :
    (clausesOf n prev stages).map (fun c => (c.name, c.query))
      = Cte.feed Cte.starText "_in" prev (named n stages) := by
  induction stages generalizing n prev with
  | nil => rfl
  | cons s stages ih => exact congrArg (_ :: ·) (ih (n + 1) _)

theorem clausesOf_own (n : Nat) (prev : Option String) (stages : List StageText) :
    (clausesOf n prev stages).flatMap (fun c => c.said.2) = stages.flatMap Prod.snd := by
  induction stages generalizing n prev with
  | nil => rfl
  | cons s stages ih => exact congrArg (s.2 ++ ·) (ih (n + 1) _)

theorem clausesOf_text (n : Nat) (prev : Option String) (stages : List StageText) :
    (clausesOf n prev stages).map Cte.Clause.text = (chained n prev stages).map cteText := by
  induction stages generalizing n prev with
  | nil => rfl
  | cons s stages ih =>
    rw [clausesOf, chained, List.map_cons, List.map_cons, ih, cteText_eq]
    rfl

theorem chained_names (n : Nat) (prev : Option String) (stages : List StageText) :
    (chained n prev stages).map Prod.fst = (named n stages).map Prod.fst := by
  induction stages generalizing n prev with
  | nil => rfl
  | cons s stages ih => exact congrArg (stageName n :: ·) (ih (n + 1) _)

theorem named_stage_name {n : Nat} {l : String × Cte.Said Val} (h : l ∈ named n stages) :
    ∃ i, l.1 = stageName i := by
  induction stages generalizing n with
  | nil => cases h
  | cons s stages ih =>
    rcases List.mem_cons.mp h with rfl | h
    · exact ⟨n, rfl⟩
    · exact ih h

theorem named_said (n : Nat) (stages : List StageText) :
    (named n stages).map Prod.snd = stages.map StageText.said := by
  induction stages generalizing n with
  | nil => rfl
  | cons s stages ih => exact congrArg (s.said :: ·) (ih (n + 1))

/-- No stage of the chain uses the name of one of the `n` before it. -/
theorem StandAlone.unnamed {n : Nat} (h : StandAlone law n fed stages) {l : String × Cte.Said Val}
    (hl : l ∈ named n stages) : ∀ i < n, ¬ law.uses l.2 (stageName i) := by
  induction stages generalizing n fed with
  | nil => cases hl
  | cons s stages ih =>
    rcases List.mem_cons.mp hl with rfl | hl
    · exact h.2.1
    · exact fun i hi => ih h.2.2 hl i (Nat.lt_succ_of_lt hi)

theorem StandAlone.apart {n : Nat} (h : StandAlone law n fed stages) :
    (named n stages).Pairwise fun a b => ¬ law.uses b.2 a.1 := by
  induction stages generalizing n fed with
  | nil => exact List.Pairwise.nil
  | cons s stages ih =>
    exact List.Pairwise.cons (fun l hl => h.2.2.unnamed hl n (Nat.lt_succ_self n)) (ih h.2.2)

theorem clausesOf_reads {n : Nat} {prev : Option String} (hprev : ∀ p, prev = some p → Cte.IsName p)
    (h : StandAlone law n prev.isSome stages) :
    ∀ c ∈ clausesOf n prev stages, Cte.IsName c.name ∧ Cte.Reads law.grammar c.said c.query := by
  induction stages generalizing n prev with
  | nil => exact fun c hc => absurd hc (by simp [clausesOf])
  | cons s stages ih =>
    intro c hc
    rcases List.mem_cons.mp hc with rfl | hc
    · exact ⟨isName_stage n, pasted_reads hprev h.1⟩
    · exact @ih (n + 1) (some (stageName n)) (fun p hp => Option.some.inj hp ▸ isName_stage n) h.2.2 c hc

theorem clausesOf_ne_nil {n : Nat} {prev : Option String} (hne : stages ≠ []) :
    clausesOf n prev stages ≠ [] := by
  cases stages with
  | nil => exact absurd rfl hne
  | cons s stages => exact List.cons_ne_nil _ _

/-- The statement of a run reads as the chain of its stages. -/
theorem fuseRun_reads (hne : stages ≠ []) (h : StandAlone law 0 fed stages) :
    ∃ last, Cte.lastName (fedFrom fed) (named 0 stages) = some last ∧ Cte.Reads law.grammar
      ((chainSql (chained 0 (fedFrom fed) stages) (fedFrom fed)).toList, stages.flatMap Prod.snd)
      (Cte.binds (Cte.feed Cte.starText "_in" (fedFrom fed) (named 0 stages))
        (.body (Cte.starText last))) := by
  rw [← fedFrom_isSome fed] at h
  have hclauses := clausesOf_reads (n := 0) isName_fedFrom h
  have hlinks : named 0 stages ≠ [] := fun hnil => hne (by
    simpa [hnil] using (named_said 0 stages).symm)
  obtain ⟨l, hl⟩ := Option.isSome_iff_exists.mp (List.getLast?_isSome.mpr hlinks)
  obtain ⟨n, hn⟩ := named_stage_name (List.mem_of_getLast? hl)
  have hlast : Cte.lastName (fedFrom fed) (named 0 stages) = some l.1 := by
    rw [Cte.lastName, hl]
    rfl
  have hname : ((chained 0 (fedFrom fed) stages).getLast?.map Prod.fst).or (fedFrom fed) = some l.1 := by
    rw [← List.getLast?_map, chained_names, List.getLast?_map, hl]
    rfl
  have hreads := Cte.Reads.chain (b := Cte.starText l.1) (clausesOf_ne_nil hne)
    (fun c hc => (hclauses c hc).1) (fun c hc => (hclauses c hc).2)
    (law.star_headless l.1 (hn ▸ isName_stage n))
  refine ⟨l.1, hlast, ?_⟩
  rw [clausesOf_query, clausesOf_own, Cte.clausesText, clausesOf_text] at hreads
  have hstar : (" SELECT * FROM " ++ (some l.1).getD "None").toList
      = ' ' :: (Cte.starText l.1 : Cte.Said Val).1 := by
    rw [String.toList_append]
    rfl
  rw [chainSql_toList, hname, hstar]
  exact List.append_nil (stages.flatMap Prod.snd) ▸ hreads

/-- RUN.  The statement of a run gives what its stages give one after another. -/
theorem run_in_turn (hne : stages ≠ []) (h : StandAlone law 0 fed stages)
    (env : Source → Option Content) :
    some (engine.execute (chainSql (chained 0 (fedFrom fed) stages) (fedFrom fed))
      (stages.flatMap Prod.snd) env) = stageRows law env fed stages := by
  obtain ⟨last, hlast, hreads⟩ := fuseRun_reads hne h
  rw [law.execute_reads hreads env, Cte.chain_eval h.apart (fun _ _ _ _ => rfl) hlast, named_said]
  rfl

/-! ## A plan -/

theorem fuse_eq_nil {first : Bool} {plan : List StagedPhase} (h : fuse first plan = []) : plan = [] := by
  cases plan with
  | nil => rfl
  | cons phase plan => cases phase <;> exact absurd h (List.cons_ne_nil _ _)

/-- PLAN.  A plan of fused runs does what its stages do one after another, seams and errors included. -/
theorem plan_in_turn {first : Bool} {plan : List StagedPhase} (h : Apart law first plan)
    (rows : List Record) :
    runPhases engine world c rows (fuse first plan) = runInTurn law world first c rows plan := by
  induction plan generalizing first c rows with
  | nil => rfl
  | cons phase plan ih =>
    cases phase with
    | bash argvs =>
      rw [fuse, runPhases, runInTurn]
      cases engine.bash argvs (rowsToJsonl rows) with
      | error why => rfl
      | ok out =>
        dsimp only
        cases plan with
        | nil => rfl
        | cons phase' plan =>
          obtain ⟨fused, more, hfuse⟩ := List.exists_cons_of_ne_nil
            fun hnil => List.cons_ne_nil phase' plan (@fuse_eq_nil false _ hnil)
          rw [hfuse]
          dsimp only
          cases loadBridge engine c out with
          | error e => rfl
          | ok c' =>
            dsimp only
            rw [← hfuse]
            exact ih h rows
    | duck stages =>
      obtain ⟨hne, halone, hrest⟩ := h
      obtain ⟨last, -, hreads⟩ := fuseRun_reads hne halone
      have hrun := run_in_turn hne halone (c.content world)
      rw [fuse, fuseRun, runPhases, runInTurn, ← hrun, guardRead, law.statements_reads hreads]
      dsimp only
      rw [fetch]
      cases engine.execute _ (stages.flatMap Prod.snd) (c.content world) with
      | error why => rfl
      | ok answer =>
        obtain ⟨names, answer⟩ := answer
        exact ih hrest _

end Meaning

/-! ## A query -/

section Query

variable {ι α : Type} (reg : Registry ι α) (p : Policy) (ctx : OperatorCtx) (h : Held ι)

/-- The compiler without the pasting. -/
def compileStages (segments : List (List Char)) (params : List Val) : Outcome ι α (List StagedPhase) :=
  match stage reg p ctx h segments with
  | ⟨.error e, h, events⟩ => ⟨.error e, h, events⟩
  | ⟨.ok staged, h, events⟩ => ⟨emitPlan h params staged, h, events⟩

variable {reg p ctx h} {segments : List (List Char)} {params : List Val}

theorem compile_fuses : compile reg p ctx h segments params
    = ⟨(compileStages reg p ctx h segments params).result.map (fuse true),
        (compileStages reg p ctx h segments params).held,
        (compileStages reg p ctx h segments params).events⟩ := by
  unfold compile compileStages
  cases stage reg p ctx h segments with
  | mk result held events =>
    cases result with
    | error e => rfl
    | ok staged =>
      dsimp only
      rw [planOf_emit]

end Query

/-! ## An engine of two statements -/

/-- Whether a text counts, and the relation it is about. -/
def smallAsked (text : List Char) : Option (Bool × String) :=
  if "SELECT * FROM ".toList.isPrefixOf text then some (false, String.ofList (text.drop 14))
  else if countText.toList.isPrefixOf text then
    some (true, String.ofList (text.drop countText.toList.length))
  else none

def tableRows : Option Content → Except String Rows
  | some (.rows rows) => .ok (["id", "text"], rows.map fun r => r.cells.map Cell.fetch)
  | _ => .error "Catalog Error: Table does not exist!"

def countedRows (count : Bool) (r : Except String Rows) : Except String Rows :=
  if count then r.map fun rows => (["c"], [[.json (.int rows.2.length)]]) else r

def smallDen (env : Source → Option Content) (s : String → Option (Except String Rows))
    (b : Cte.Said Val) : Except String Rows :=
  match smallAsked b.1 with
  | some (count, n) => countedRows count ((s n).getD (tableRows (env (.relation n))))
  | none => .error "Parser Error"

def SmallUses (b : Cte.Said Val) (n : String) : Prop := ∃ count, smallAsked b.1 = some (count, n)

theorem smallAsked_star (n : String) : smallAsked (Cte.starText n : Cte.Said Val).1 = some (false, n) := by
  have hprefix : "SELECT * FROM ".toList.isPrefixOf (Cte.starText n : Cte.Said Val).1 = true :=
    List.isPrefixOf_iff_prefix.mpr (List.prefix_append _ _)
  have hdrop : (Cte.starText n : Cte.Said Val).1.drop 14 = n.toList :=
    List.drop_left' (by decide +kernel)
  rw [smallAsked, if_pos hprefix, hdrop, String.ofList_toList]

def smallBodies (env : Source → Option Content) :
    Cte.Bodies String (Cte.Said Val) (Except String Rows) Cte.starText SmallUses where
  base n := tableRows (env (.relation n))
  den := smallDen env
  den_congr b s s' h := by
    unfold smallDen
    cases hasked : smallAsked b.1 with
    | none => rfl
    | some r => simp only [h r.2 ⟨r.1, hasked⟩]
  den_star n s := by
    rw [smallDen, smallAsked_star]
    rfl

/-- A relation as it is, or the number of its rows. -/
def smallGrammar : Cte.Grammar Val :=
  let simple (b : Cte.Said Val) := b.2 = [] ∧ ∃ n, Cte.IsName n
    ∧ (b.1 = "SELECT * FROM ".toList ++ n.toList ∨ b.1 = countText.toList ++ n.toList)
  ⟨simple, simple⟩

theorem small_shaped {b : Cte.Said Val} (h : smallGrammar.query b) : Cte.Shaped b := by
  obtain ⟨hown, n, hn, htext⟩ := h
  have hname : Cte.Shaped ((n.toList, []) : Cte.Said Val) :=
    ⟨Cte.isName_level hn, (Cte.isName_marks hn).symm⟩
  obtain ⟨text, own⟩ := b
  obtain rfl : own = [] := hown
  rcases htext with htext | htext
  · obtain rfl : text = "SELECT * FROM ".toList ++ n.toList := htext
    exact (Cte.shaped_plain (t := "SELECT * FROM ".toList) rfl).append hname
  · have hcount : countText.toList
        = "SELECT count".toList ++ ('(' :: ("*".toList ++ [')']) ++ " AS c FROM ".toList) := by
      decide +kernel
    have hinner : Cte.Shaped (("*".toList, []) : Cte.Said Val) := Cte.shaped_plain rfl
    have hstar : Cte.Shaped (('(' :: ("*".toList ++ [')']), []) : Cte.Said Val) :=
      ⟨hinner.level.paren, rfl⟩
    obtain rfl : text = countText.toList ++ n.toList := htext
    rw [hcount]
    exact ((Cte.shaped_plain (t := "SELECT count".toList) rfl).append
      (hstar.append (Cte.shaped_plain (t := " AS c FROM ".toList) rfl))).append hname

theorem small_plain : smallGrammar.Plain where
  shaped _ := small_shaped
  headless _ := small_shaped
  noChain b h hwith := by
    obtain ⟨-, n, -, htext⟩ := h
    obtain ⟨more, hmore⟩ := hwith
    rcases htext with htext | htext
    · rw [htext] at hmore
      simp at hmore
    · rw [htext, countText] at hmore
      simp at hmore

theorem small_own {b : Cte.Said Val} {q : Cte.Query String (Cte.Said Val)}
    (h : Cte.Reads smallGrammar b q) : b.2 = [] := by
  induction h with
  | body hb => exact hb.1
  | chain _ _ _ hlast ih =>
    refine List.append_eq_nil_iff.mpr ⟨List.flatMap_eq_nil_iff.mpr ih, hlast.1⟩

/-- The relations the bodies of a query are about. -/
def relations : Cte.Query String (Cte.Said Val) → List String
  | .body b => ((smallAsked b.1).map Prod.snd).toList
  | .bind _ q rest => relations q ++ relations rest

theorem eval_local {env env' : Source → Option Content} {q : Cte.Query String (Cte.Said Val)}
    (h : ∀ n ∈ relations q, env (.relation n) = env' (.relation n))
    (s : String → Option (Except String Rows)) :
    q.eval (smallBodies env) s = q.eval (smallBodies env') s := by
  induction q generalizing s with
  | body b =>
    show smallDen env s b = smallDen env' s b
    unfold smallDen
    cases hasked : smallAsked b.1 with
    | none => rfl
    | some r => simp only [h r.2 (by simp [relations, hasked])]
  | bind n q rest ihq ihrest =>
    show rest.eval _ (Function.update s n (some (q.eval _ s))) = _
    rw [ihq fun m hm => h m (List.mem_append_left _ hm),
      ihrest fun m hm => h m (List.mem_append_right _ hm)]
    rfl

def smallRead (sql : String) : Option (Cte.Query String (Cte.Said Val)) :=
  Cte.parse (sql.toList.length + 1) sql.toList []

/-- It answers both statements and chains of them, reads any text as JSON, and its shell is `cat`. -/
def smallEngine : Engine := {
  countEngine with
  statements := fun _ => .ok [true]
  sources := fun sql => ((smallRead sql).map relations).getD [] |>.map .relation
  execute := fun sql params env =>
    if params ≠ [] then .error "Invalid Input Error"
    else
      ((smallRead sql).map fun q => q.eval (smallBodies env) fun _ => none).getD (.error "Parser Error")
  execute_local := by
    intro sql params env env' h
    cases hread : smallRead sql with
    | none => rfl
    | some q =>
      have hsame : q.eval (smallBodies env) (fun _ => none)
          = q.eval (smallBodies env') fun _ => none := by
        apply eval_local
        intro n hn
        apply h
        rw [hread]
        exact List.mem_map_of_mem hn
      simp only [Option.map_some, Option.getD_some, hsame] }

def smallLaw : smallEngine.Sql where
  grammar := smallGrammar
  uses := SmallUses
  bodies := smallBodies
  star_query n hn := ⟨rfl, n, hn, Or.inl rfl⟩
  star_headless n hn := ⟨rfl, n, hn, Or.inl rfl⟩
  statements_reads _ := rfl
  execute_reads {sql params q} h env := by
    obtain rfl : params = [] := small_own h
    have hread : smallRead sql = some q := Cte.parse_reads small_plain h _ (Nat.lt_succ_self _)
    show ((smallRead sql).map fun q => q.eval (smallBodies env) fun _ => none).getD _ = _
    rw [hread]
    rfl

theorem small_apart {b : Cte.Said Val} {count : Bool} {name : String}
    (hasked : smallAsked b.1 = some (count, name)) (hname : "_s".toList.isPrefixOf name.toList = false)
    (n : Nat) : ∀ i < n, ¬ SmallUses b (stageName i) := by
  rintro i - ⟨count', huses⟩
  obtain ⟨-, hsame⟩ := Prod.mk.inj (Option.some.inj (hasked.symm.trans huses))
  exact stageName_ne hname i hsame.symm

def countedNotes : List (List Char) := ["SELECT * FROM notes".toList, (countText ++ "_in").toList]

/-- The notes there were on a day, counted in a second stage. -/
def countedInTurn : Except PipeExc (List Record) :=
  (compileStages builtins readOnly notesCtx (fun _ => ()) countedNotes []).result >>= fun plan =>
    (runApart smallLaw (Cursor.fresh : Cursor notesReads) noteDeleted ⟨none, some "20260101"⟩ plan).1

end Seekbase
