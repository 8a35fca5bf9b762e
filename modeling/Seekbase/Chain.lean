/-
# Seekbase.Chain — a chain of shell commands: whose failure is heard.

The commands of a fused run are chained like a shell pipeline, and like a shell pipeline the run is
judged by its LAST process: of the others only the end is awaited.  What the operating system does
with a chain is a parameter; the code's part is which of it becomes an exception, and what a stream
and a query do with a chain that has raised none.

* `ChainRun`, `ChainRun.result` — what becomes of the processes, and `_run_bash_chain`;
* `ChainRun.Tells`     — no failure but one that the last process shares;
* `pipedStep`          — the loop of a stream with middles: read, chain, land, commit;
* `chainCalls`         — the chains a plan runs on its way;
* `chain_failures`     — a chain raises for every failure iff it tells, and then neither stream nor
                         query goes on from one;
* `silent_chain`       — `false | cat`.
-/
import Seekbase.Poll
import Seekbase.Unseen

namespace Seekbase

open Lines Transition

/-! ## One chain -/

/-- How a process ends: with a status, a negative one for a signal, or by SIGPIPE after its reader has
closed. -/
inductive Exit where
  | status (rc : Int)
  | brokenPipe

def Exit.returncode : Exit → Int
  | .status rc => rc
  | .brokenPipe => -13

/-- A process that has not done its work. -/
def Exit.Failed : Exit → Prop
  | .status rc => rc ≠ 0
  | .brokenPipe => False

instance : (e : Exit) → Decidable e.Failed
  | .status rc => inferInstanceAs (Decidable (rc ≠ 0))
  | .brokenPipe => isFalse id

/-- What becomes of a chain of `n` commands. -/
structure ChainRun (n : Nat) where
  /-- The first file that cannot be found when the processes are started. -/
  missing : Option String
  /-- Whether the last process is not done within the timeout. -/
  late : Bool
  exits : List Exit
  length : exits.length = n
  /-- What the last process writes. -/
  out : Bytes
  err : Bytes

section Chain

variable (limit : String) (errText : Bytes → String)

/-- `_run_bash_chain`; `limit` is the timeout in seconds and `errText` the beginning of what the last
process complains. -/
def ChainRun.result {n : Nat} (r : ChainRun n) : Except PipeExc Bytes :=
  match r.missing with
  | some file => .error (queryError ("bash stage command not found: " ++ file))
  | none =>
    if r.late then
      .error (queryError ("bash stage exceeded the " ++ limit ++ "s sandbox timeout"))
    else
      match r.exits.getLast? with
      | none => .error (.foreign "IndexError" "list index out of range")
      | some last =>
        if last.returncode ≠ 0 then
          .error (queryError
            ("bash stage failed (exit " ++ last.returncode.repr ++ "): " ++ errText r.err))
        else .ok r.out

/-- The chain raises for another reason, its last process fails, or none before it does. -/
def ChainRun.Tells {n : Nat} (r : ChainRun n) : Prop :=
  r.missing.isSome = true ∨ r.late = true ∨ (∃ last ∈ r.exits.getLast?, last.returncode ≠ 0)
    ∨ ∀ e ∈ r.exits.dropLast, ¬ e.Failed

variable {limit errText} {n : Nat} {r : ChainRun n}

theorem Exit.Failed.returncode {e : Exit} (h : e.Failed) : e.returncode ≠ 0 := by
  cases e with
  | status rc => exact h
  | brokenPipe => exact h.elim

theorem result_ok {out : Bytes} (h : r.result limit errText = .ok out) : r.missing = none
    ∧ r.late = false ∧ ∃ last ∈ r.exits.getLast?, last.returncode = 0 := by
  unfold ChainRun.result at h
  split at h
  · cases h
  · next hfound =>
    split at h
    · cases h
    · next hlate =>
      split at h
      · cases h
      · next last hlast =>
        split at h
        · cases h
        · next hrc => exact ⟨hfound, by simpa using hlate, last, hlast, not_not.mp hrc⟩

/-- A chain whose failures are told has none when it returns. -/
theorem ChainRun.Tells.clean (h : r.Tells) {out : Bytes} (hok : r.result limit errText = .ok out) :
    ∀ e ∈ r.exits, ¬ e.Failed := by
  rcases result_ok hok with ⟨hfound, hintime, last, hlast, hrc⟩
  have hbefore : ∀ e ∈ r.exits.dropLast, ¬ e.Failed := by
    rcases h with h | h | ⟨last', hlast', hrc'⟩ | h
    · rw [hfound] at h
      cases h
    · rw [hintime] at h
      cases h
    · rw [Option.mem_def.mp hlast] at hlast'
      rcases Option.some.inj hlast' with rfl
      exact absurd hrc hrc'
    · exact h
  intro e he
  rw [← List.dropLast_append_getLast? last hlast] at he
  rcases List.mem_append.mp he with he | he
  · exact hbefore e he
  · rw [List.mem_singleton.mp he]
    intro hfailed
    exact hfailed.returncode hrc

/-- What is raised for a chain with a process in it is a `QueryError`. -/
theorem result_error {e : PipeExc} (h : r.result limit errText = .error e) (hne : r.exits ≠ []) :
    ∃ message, e = queryError message := by
  unfold ChainRun.result at h
  split at h
  · exact ⟨_, (Except.error.inj h).symm⟩
  · split at h
    · exact ⟨_, (Except.error.inj h).symm⟩
    · split at h
      · next hnone => exact absurd (List.getLast?_eq_none_iff.mp hnone) hne
      · split at h
        · exact ⟨_, (Except.error.inj h).symm⟩
        · cases h

/-- Every failure raises iff the chain tells. -/
theorem raises_iff_tells : ((∃ e ∈ r.exits, e.Failed) →
      ∃ message, r.result limit errText = .error (queryError message)) ↔ r.Tells := by
  constructor
  · intro h
    by_contra hsilent
    unfold ChainRun.Tells at hsilent
    push Not at hsilent
    rcases hsilent with ⟨hfound, hintime, hlast, e, he, hfailed⟩
    have hmem : e ∈ r.exits := List.dropLast_subset _ he
    rcases h ⟨e, hmem, hfailed⟩ with ⟨message, hraise⟩
    -- the last process has ended well, so the chain has returned
    have hne : r.exits ≠ [] := List.ne_nil_of_mem hmem
    have hsome := List.getLast?_eq_some_getLast hne
    have hok : r.result limit errText = .ok r.out := by
      have hnone : r.missing = none := by simpa using hfound
      have hfalse : r.late = false := by simpa using hintime
      simp only [ChainRun.result, hnone, hfalse, hsome, hlast _ hsome]
      simp
    rw [hok] at hraise
    cases hraise
  · rintro htells ⟨e, he, hfailed⟩
    cases hres : r.result limit errText with
    | ok out => exact absurd hfailed (ChainRun.Tells.clean htells hres e he)
    | error why =>
      rcases result_error hres (List.ne_nil_of_mem he) with ⟨message, rfl⟩
      exact ⟨message, rfl⟩

end Chain

/-! ## A stream with middles -/

/-- A batch whose offsets were committed. -/
structure Committed (n : Nat) where
  lines : List Bytes
  next : Offsets
  chain : ChainRun n

/-- The loop of `_run`: its offsets, whether it still runs, and what it has committed. -/
structure Piped (n : Nat) where
  offsets : Offsets
  live : Bool
  commits : List (Committed n)

/-- What a turn of the loop meets: the files, what becomes of the chain, and of the insert. -/
structure PipedTurn (n : Nat) where
  glob : List String
  opened : String → Option Bytes
  chain : ChainRun n
  inserts : Bool

section Stream

variable (limit : String) (errText why : Bytes → String) (maxLines : Nat) {n : Nat}

/-- `_land` up to its insert, for `n` middles. -/
def landRows (chain : ChainRun n) (lines : List Bytes) : Except PipeExc (List Record) :=
  match (if n = 0 then .ok lines.flatten else chain.result limit errText) with
  | .error e => .error e
  | .ok data => jsonlToRows why data

/-- One turn.  An exception ends the loop with the offsets as they are. -/
def pipedStep (s : Piped n) (t : PipedTurn n) : Option (Piped n) :=
  if s.live then
    let r := readNewLines maxLines t.glob t.opened s.offsets
    if r.1 = [] then some s
    else
      match landRows limit errText why t.chain r.1 with
      | .error _ => some { s with live := false }
      | .ok rows =>
        if rows ≠ [] ∧ t.inserts = false then some { s with live := false }
        else some ⟨dictOf (s.offsets ++ r.2), true, s.commits ++ [⟨r.1, r.2, t.chain⟩]⟩
  else none

/-- The offsets are where the commits have moved them, and no committed batch went through a chain with
a failed process. -/
structure Piped.Clean (first : Offsets) (s : Piped n) : Prop where
  moved : s.offsets = s.commits.foldl (fun offsets c => dictOf (offsets ++ c.next)) first
  clean : ∀ c ∈ s.commits, ∀ e ∈ c.chain.exits, ¬ e.Failed

variable {limit errText why maxLines} {first : Offsets} {s u : Piped n} {t : PipedTurn n}

theorem landRows_clean {lines : List Bytes} {rows : List Record} (htells : t.chain.Tells)
    (h : landRows limit errText why t.chain lines = .ok rows) : ∀ e ∈ t.chain.exits, ¬ e.Failed := by
  unfold landRows at h
  split at h
  · cases h
  · next data hdata =>
    split at hdata
    · next hn =>
      -- no middles, no processes
      intro e he
      have hnone : t.chain.exits = [] := List.length_eq_zero_iff.mp (t.chain.length.trans hn)
      rw [hnone] at he
      cases he
    · exact htells.clean hdata

theorem piped_step_clean (h : s.Clean first) (htells : t.chain.Tells)
    (hs : pipedStep limit errText why maxLines s t = some u) : u.Clean first := by
  unfold pipedStep at hs
  split at hs
  · dsimp only at hs
    split at hs
    · rcases Option.some.inj hs with rfl
      exact h
    · split at hs
      · rcases Option.some.inj hs with rfl
        exact ⟨h.moved, h.clean⟩
      · next rows hrows =>
        split at hs
        · rcases Option.some.inj hs with rfl
          exact ⟨h.moved, h.clean⟩
        · rcases Option.some.inj hs with rfl
          constructor
          · show dictOf (s.offsets ++ _) = _
            rw [List.foldl_append, ← h.moved]
            rfl
          · intro c hc
            rcases List.mem_append.mp hc with hc | hc
            · exact h.clean c hc
            · rw [List.mem_singleton.mp hc]
              exact landRows_clean htells hrows
  · cases hs

theorem piped_run_clean {turns : List (PipedTurn n)} (htells : ∀ t ∈ turns, t.chain.Tells)
    (hrun : run (pipedStep limit errText why maxLines) ⟨first, true, []⟩ turns = some s) :
    s.Clean first := by
  have hinit : Piped.Clean first (⟨first, true, []⟩ : Piped n) := by
    refine ⟨rfl, fun c hc => ?_⟩
    cases hc
  have hguard : Guarded (pipedStep limit errText why maxLines) (fun _ t => t.chain.Tells)
      ⟨first, true, []⟩ turns := Guarded.of_forall fun t ht _ => htells t ht
  exact run_guarded (fun _ _ _ h htell hs => piped_step_clean h htell hs) hinit hguard hrun

end Stream

/-! ## A query with shell stages -/

section Query

variable (engine : Engine) {schema : ReadSchema} (world : World)

/-- The chains a plan runs, each with its input. -/
def chainCalls : Cursor schema → List Record → List PlanPhase → List (List (List String) × Bytes)
  | _, _, [] => []
  | c, _, .duck sql params :: rest =>
    match guardRead engine notSelect notSelect sql with
    | .error _ => []
    | .ok () =>
      match fetch engine c world sql params with
      | .error _ => []
      | .ok rows => chainCalls c rows rest
  | c, rows, .bash argvs :: rest =>
    (argvs, rowsToJsonl rows) ::
      match engine.bash argvs (rowsToJsonl rows) with
      | .error _ => []
      | .ok out =>
        match rest with
        | [] => []
        | _ :: _ =>
          match loadBridge engine c out with
          | .error _ => []
          | .ok c => chainCalls c rows rest

variable {engine world}

/-- A plan that returns has run no chain that raised. -/
theorem phases_calls {phases : List PlanPhase} {c : Cursor schema} {rows out : List Record}
    (h : (runPhases engine world c rows phases).1 = .ok out) :
    ∀ call ∈ chainCalls engine world c rows phases, ∃ bytes, engine.bash call.1 call.2 = .ok bytes := by
  induction phases generalizing c rows with
  | nil =>
    intro call hcall
    cases hcall
  | cons phase rest ih =>
    cases phase with
    | duck sql params =>
      intro call hcall
      simp only [runPhases] at h
      simp only [chainCalls] at hcall
      split at h
      · cases h
      · next hguard =>
        rw [hguard] at hcall
        split at h
        · cases h
        · next rows hrows =>
          rw [hrows] at hcall
          exact ih h call hcall
    | bash argvs =>
      intro call hcall
      simp only [runPhases] at h
      rcases List.mem_cons.mp hcall with rfl | hcall
      · split at h
        · cases h
        · next bytes hbytes => exact ⟨bytes, hbytes⟩
      · split at h
        · cases h
        · next bytes hbytes =>
          simp only [hbytes] at hcall
          split at h
          · cases hcall
          · dsimp only at hcall
            split at h
            · cases h
            · next c hload =>
              rw [hload] at hcall
              exact ih h call hcall

end Query

/-! ## The result -/

/-- The shell of an engine is the chain, of which `os` says what becomes of it. -/
def Engine.Chains (engine : Engine) (limit : String) (errText : Bytes → String)
    (os : (argvs : List (List String)) → Bytes → ChainRun argvs.length) : Prop :=
  ∀ argvs stdin, (engine.bash argvs stdin).toOption = ((os argvs stdin).result limit errText).toOption

/-- A chain raises for each failure in it iff it tells.  Where all chains do, no stream commits a batch
and no query returns rows that a failed chain had a part in. -/
theorem chain_failures {limit : String} {errText : Bytes → String}
    {os : (argvs : List (List String)) → Bytes → ChainRun argvs.length} {engine : Engine}
    (hengine : engine.Chains limit errText os) :
    (∀ (n : Nat) (r : ChainRun n), ((∃ e ∈ r.exits, e.Failed) →
        ∃ message, r.result limit errText = .error (queryError message)) ↔ r.Tells)
      ∧ (∀ (why : Bytes → String) (maxLines n : Nat) (first : Offsets) (turns : List (PipedTurn n))
        (s : Piped n), (∀ t ∈ turns, t.chain.Tells) →
          run (pipedStep limit errText why maxLines) ⟨first, true, []⟩ turns = some s → s.Clean first)
      ∧ ∀ (schema : ReadSchema) (c : Cursor schema) (world : World) (w : Window)
        (phases : List PlanPhase) (rows : List Record),
          (∀ call ∈ chainCalls engine world (c.install w) [] phases, (os call.1 call.2).Tells) →
            (runPlan engine c world w phases).1 = .ok rows →
              ∀ call ∈ chainCalls engine world (c.install w) [] phases,
                ∀ e ∈ (os call.1 call.2).exits, ¬ e.Failed := by
  refine ⟨fun n r => raises_iff_tells, ?_, ?_⟩
  · intro why maxLines n first turns s htells hrun
    exact piped_run_clean htells hrun
  · intro schema c world w phases rows htells hplan call hcall
    unfold runPlan at hplan
    split at hplan
    · cases hplan
    · rcases phases_calls hplan call hcall with ⟨bytes, hbytes⟩
      have hsame := hengine call.1 call.2
      rw [hbytes] at hsame
      cases hres : (os call.1 call.2).result limit errText with
      | error e =>
        rw [hres] at hsame
        cases hsame
      | ok out => exact (htells call hcall).clean hres

/-! ## Two processes -/

def catChain (argvs : List (List String)) (stdin : Bytes) : ChainRun argvs.length :=
  ⟨none, false, List.replicate argvs.length (.status 0), List.length_replicate, stdin, []⟩

def catEngine : Engine := {
  countEngine with
  bash := fun argvs stdin =>
    match (catChain argvs stdin).result "30" fun _ => "" with
    | .ok out => .ok out
    | .error _ => .error "" }

/-- Two processes that end well and write nothing. -/
def dropped : PipedTurn 2 :=
  ⟨["a"], fun _ => some [120, lf], ⟨none, false, [.status 0, .status 0], rfl, [], []⟩, true⟩

theorem chain_failures_cat : ∃ s : Piped 2,
    run (pipedStep "30" (fun _ => "") (fun _ => "") 1000) ⟨[], true, []⟩ [dropped] = some s
      ∧ s.offsets.start "a" = 2 ∧ s.Clean [] := by
  have hcat : catEngine.Chains "30" (fun _ => "") catChain := by
    intro argvs stdin
    show Except.toOption (match (catChain argvs stdin).result "30" fun _ => "" with
      | .ok out => .ok out
      | .error _ => .error "") = _
    cases (catChain argvs stdin).result "30" fun _ => "" <;> rfl
  have hrun : (run (pipedStep "30" (fun _ => "") (fun _ => "") 1000) ⟨[], true, []⟩ [dropped]).map
      (fun s => s.offsets.start "a") = some 2 := by decide +kernel
  rcases Option.map_eq_some_iff.mp hrun with ⟨s, hs, hstart⟩
  refine ⟨s, hs, hstart, (chain_failures hcat).2.1 _ _ _ _ _ s ?_ hs⟩
  intro t ht
  rw [List.mem_singleton.mp ht]
  refine Or.inr (Or.inr (Or.inr ?_))
  decide

/-- `false | cat`: the first process fails, the last one reads nothing and ends well. -/
def falseCat : ChainRun 2 := ⟨none, false, [.status 1, .status 0], rfl, [], []⟩

/-- The failure raises nothing, and the offset is committed past the line. -/
theorem silent_chain : (∃ e ∈ falseCat.exits, e.Failed)
    ∧ falseCat.result "30" (fun _ => "") = .ok []
    ∧ ∃ s, run (pipedStep "30" (fun _ => "") (fun _ => "") 1000) ⟨[], true, []⟩
        [⟨["a"], fun _ => some [120, lf], falseCat, true⟩] = some s
      ∧ s.offsets.start "a" = 2 ∧ ∃ c ∈ s.commits, ∃ e ∈ c.chain.exits, e.Failed := by
  refine ⟨by decide, rfl, ?_⟩
  have hrun : (run (pipedStep "30" (fun _ => "") (fun _ => "") 1000) ⟨[], true, []⟩
      [⟨["a"], fun _ => some [120, lf], falseCat, true⟩]).map (fun s => (s.offsets.start "a",
        decide (∃ c ∈ s.commits, ∃ e ∈ c.chain.exits, e.Failed))) = some (2, true) := by
    decide +kernel
  rcases Option.map_eq_some_iff.mp hrun with ⟨s, hs, heq⟩
  rw [Prod.mk.injEq, decide_eq_true_eq] at heq
  exact ⟨s, hs, heq⟩

end Seekbase
