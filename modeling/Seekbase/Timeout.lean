/-
# Seekbase.Timeout — how long a chain of shell commands can hold its caller.

`_run_bash_chain` awaits its last process with a timeout, and the others, after that, without one.  A
process of the chain that outlives the last one is what decides then: it is in nobody's way, for nothing
reads it any more, and nobody kills it, for the timeout has not passed.

Times are counted from where the last process begins to be awaited, and a process that has ended before
has ended at the least of them.  When a process ends and when its output has been closed by everything
that holds it is free; what a killed process would have done later is not looked at.

* `Proc`, `runBashChain` — the chain and what the call does, act by act;
* `runBashChain_result` — where it ends, it ends as the chain without times does;
* `Bounded`         — it waits for nothing that runs, and ends by the deadline with everything dead;
* `chain_bounded_iff` — exactly if every other process has ended when the last one is done.
-/
import Seekbase.Chain
import Mathlib.Order.Nat

namespace Seekbase

open Lines

/-- A process of a chain. -/
structure Proc (τ : Type) where
  file : String
  /-- Whether the file is found when the process is to be started. -/
  found : Bool
  /-- When the process ends if nothing kills it. -/
  exit : Option τ
  /-- When its two output pipes have been closed, by it and by whatever has inherited them. -/
  closed : Option τ
  status : Exit
  out : Bytes
  err : Bytes

/-- What the call does to its children after they are started, besides awaiting the last one. -/
inductive Deed (τ : Type) where
  /-- Waits without a timeout, from this time on. -/
  | wait (p : Proc τ) (since : τ)
  /-- Sends SIGKILL to the group of the process. -/
  | kill (p : Proc τ)

/-- A call: what it does, and when and how it ends if it does. -/
structure ChainCall (τ : Type) where
  deeds : List (Deed τ)
  ends : Option (τ × Except PipeExc Bytes)

section Timeout

variable {τ : Type} [LinearOrder τ]

/-! ## The call -/

/-- The process has ended. -/
def Proc.over (p : Proc τ) (now : τ) : Bool := p.exit.any (· ≤ now)

/-- When `communicate` has read the outputs of the process and its status. -/
def Proc.done (p : Proc τ) : Option τ := p.exit.bind fun e => p.closed.map fun c => max e c

/-- `p.wait()` of each. -/
def awaitAll : τ → List (Proc τ) → List (Deed τ) × Option τ
  | now, [] => ([], some now)
  | now, p :: ps =>
    match p.exit with
    | none => ([.wait p now], none)
    | some e => (.wait p now :: (awaitAll (max now e) ps).1, (awaitAll (max now e) ps).2)

/-- The `finally`: what `poll` does not find ended is killed. -/
def killLive (now : τ) (ps : List (Proc τ)) : List (Deed τ) :=
  (ps.filter fun p => !p.over now).map .kill

/-- What a chain that is done raises or returns. -/
def Proc.verdict (errText : Bytes → String) (last : Proc τ) : Except PipeExc Bytes :=
  if last.status.returncode ≠ 0 then
    .error (queryError
      ("bash stage failed (exit " ++ last.status.returncode.repr ++ "): " ++ errText last.err))
  else .ok last.out

/-! ## Awaiting the others -/

theorem Proc.over_iff {p : Proc τ} {now : τ} : p.over now = true ↔ ∃ e, p.exit = some e ∧ e ≤ now := by
  unfold Proc.over
  cases p.exit with
  | none => simp
  | some e => simp

theorem awaitAll_cons {now : τ} {p : Proc τ} {ps : List (Proc τ)} (h : p.over now = true) :
    awaitAll now (p :: ps) = (.wait p now :: (awaitAll now ps).1, (awaitAll now ps).2) := by
  obtain ⟨e, hexit, hle⟩ := Proc.over_iff.mp h
  rw [awaitAll, hexit]
  dsimp only
  rw [max_eq_left hle]

theorem awaitAll_over {now : τ} {ps : List (Proc τ)} (h : ∀ p ∈ ps, p.over now = true) :
    awaitAll now ps = (ps.map fun p => .wait p now, some now) := by
  induction ps with
  | nil => rfl
  | cons p ps ih =>
    rw [awaitAll_cons (h p List.mem_cons_self), ih fun x hx => h x (List.mem_cons_of_mem p hx)]
    rfl

/-- The first process that still runs is waited for as it is. -/
theorem awaitAll_running {now : τ} {ps : List (Proc τ)} (h : ∃ p ∈ ps, p.over now = false) :
    ∃ pre p post, (awaitAll now ps).1 = pre ++ .wait p now :: post ∧ p.over now = false
      ∧ ∀ q, Deed.kill q ∉ pre := by
  induction ps with
  | nil =>
    obtain ⟨p, hp, -⟩ := h
    cases hp
  | cons p ps ih =>
    by_cases hp : p.over now = true
    · have hrest : ∃ x ∈ ps, x.over now = false := by
        obtain ⟨x, hx, hrun⟩ := h
        rcases List.mem_cons.mp hx with rfl | hx
        · rw [hp] at hrun
          cases hrun
        · exact ⟨x, hx, hrun⟩
      obtain ⟨pre, q, post, hdeeds, hq, hno⟩ := ih hrest
      refine ⟨.wait p now :: pre, q, post, ?_, hq, ?_⟩
      · rw [awaitAll_cons hp, hdeeds]
        rfl
      · intro x hx
        rcases List.mem_cons.mp hx with hx | hx
        · cases hx
        · exact hno x hx
    · have hfirst : ∃ post, (awaitAll now (p :: ps)).1 = [] ++ .wait p now :: post := by
        rw [awaitAll]
        cases p.exit with
        | none => exact ⟨[], rfl⟩
        | some e => exact ⟨_, rfl⟩
      obtain ⟨post, hdeeds⟩ := hfirst
      exact ⟨[], p, post, hdeeds, by simpa using hp, fun q => List.not_mem_nil⟩

theorem not_wait_killLive {now since : τ} {p : Proc τ} {ps : List (Proc τ)} :
    Deed.wait p since ∉ killLive now ps := by
  intro h
  obtain ⟨x, -, hx⟩ := List.mem_map.mp h
  cases hx

theorem killLive_dead {now : τ} {p : Proc τ} {ps : List (Proc τ)} (h : p ∈ ps) :
    p.over now = true ∨ .kill p ∈ killLive now ps := by
  by_cases hp : p.over now = true
  · exact Or.inl hp
  · exact Or.inr (List.mem_map_of_mem (List.mem_filter.mpr ⟨h, by simpa using hp⟩))

theorem done_over {p : Proc τ} {d : τ} (h : p.done = some d) : p.over d = true := by
  unfold Proc.done at h
  obtain ⟨e, hexit, hmap⟩ := Option.bind_eq_some_iff.mp h
  obtain ⟨c, -, rfl⟩ := Option.map_eq_some_iff.mp hmap
  exact Proc.over_iff.mpr ⟨e, hexit, le_max_left e c⟩

/-- Every wait without a timeout is for a process that has ended or has been killed before; and by the
deadline the call has returned, or has raised with every process that it had started dead. -/
def Bounded (deadline : τ) (procs : List (Proc τ)) (call : ChainCall τ) : Prop :=
  (∀ pre p since post, call.deeds = pre ++ .wait p since :: post →
    p.over since = true ∨ .kill p ∈ pre)
  ∧ ∃ t res, call.ends = some (t, res) ∧ t ≤ deadline
    ∧ ((∃ out, res = .ok out)
      ∨ ∀ p ∈ procs.takeWhile Proc.found, p.over t = true ∨ .kill p ∈ call.deeds)

/-- A call that waits for nothing without a timeout, and leaves nothing alive. -/
theorem bounded_of_waitless {deadline : τ} {procs : List (Proc τ)} {deeds : List (Deed τ)} {t : τ} {res : Except PipeExc Bytes}
    (hno : ∀ p since, .wait p since ∉ deeds) (ht : t ≤ deadline)
    (hdead : ∀ p ∈ procs.takeWhile Proc.found, p.over t = true ∨ .kill p ∈ deeds) :
    Bounded deadline procs ⟨deeds, some (t, res)⟩ := by
  refine ⟨?_, t, res, rfl, ht, Or.inr hdead⟩
  intro pre p since post hdeeds
  refine absurd ?_ (hno p since)
  rw [show deeds = pre ++ .wait p since :: post from hdeeds]
  exact List.mem_append_right _ List.mem_cons_self

/-! ## The chain -/

variable [OrderBot τ]

/-- `_run_bash_chain`, whose timeout ends at `deadline`. -/
def runBashChain (limit : String) (errText : Bytes → String) (deadline : τ) (procs : List (Proc τ)) :
    ChainCall τ :=
  match procs.find? (fun p => !p.found) with
  | some p =>
    ⟨killLive ⊥ (procs.takeWhile Proc.found),
      some (⊥, .error (queryError ("bash stage command not found: " ++ p.file)))⟩
  | none =>
    match procs.getLast? with
    | none => ⟨[], some (⊥, .error (.foreign "IndexError" "list index out of range"))⟩
    | some last =>
      match last.done.filter (· ≤ deadline) with
      | none =>
        ⟨procs.map .kill ++ killLive deadline procs,
          some (deadline, .error (queryError ("bash stage exceeded the " ++ limit ++ "s sandbox timeout")))⟩
      | some now =>
        match awaitAll now (last :: procs.dropLast) with
        | (deeds, none) => ⟨deeds, none⟩
        | (deeds, some t) => ⟨deeds ++ killLive t procs, some (t, last.verdict errText)⟩

/-- The chain without times. -/
def toRun (deadline : τ) (procs : List (Proc τ)) : ChainRun procs.length where
  missing := (procs.find? fun p => !p.found).map Proc.file
  late := procs.getLast?.any fun last => (last.done.filter (· ≤ deadline)).isNone
  exits := procs.map Proc.status
  length := List.length_map _
  out := (procs.getLast?.map Proc.out).getD []
  err := (procs.getLast?.map Proc.err).getD []

/-- Of a call that ends, the times decide nothing else. -/
theorem runBashChain_result {limit : String} {errText : Bytes → String} {deadline t : τ}
    {procs : List (Proc τ)} {res : Except PipeExc Bytes}
    (h : (runBashChain limit errText deadline procs).ends = some (t, res)) :
    res = (toRun deadline procs).result limit errText := by
  unfold runBashChain at h
  unfold ChainRun.result toRun
  dsimp only
  split at h
  · next p hp =>
    obtain ⟨-, rfl⟩ := Prod.mk.inj (Option.some.inj h)
    rw [hp]
    rfl
  · next hfound =>
    rw [hfound, Option.map_none, List.getLast?_map]
    dsimp only
    split at h
    · next hnone =>
      obtain ⟨-, rfl⟩ := Prod.mk.inj (Option.some.inj h)
      rw [hnone]
      rfl
    · next last hlast =>
      rw [hlast]
      split at h
      · next hlate =>
        obtain ⟨-, rfl⟩ := Prod.mk.inj (Option.some.inj h)
        rw [Option.any_some, hlate]
        rfl
      · next now hdone =>
        rw [Option.any_some, hdone]
        split at h
        · cases h
        · obtain ⟨-, rfl⟩ := Prod.mk.inj (Option.some.inj h)
          rfl

/-! ## Bounded calls -/

/-- The last process is done within the timeout only when every other one has ended. -/
def Drains (deadline : τ) (procs : List (Proc τ)) : Prop :=
  (∃ p ∈ procs, p.found = false)
  ∨ ∀ last ∈ procs.getLast?, ∀ d, last.done = some d → d ≤ deadline →
    ∀ p ∈ procs.dropLast, p.over d = true

section Cases

variable {limit : String} {errText : Bytes → String} {deadline now : τ} {procs : List (Proc τ)}
  {last : Proc τ}

theorem bounded_missing {p : Proc τ} (hfind : (procs.find? fun p => !p.found) = some p) :
    Bounded deadline procs (runBashChain limit errText deadline procs) := by
  unfold runBashChain
  rw [hfind]
  exact bounded_of_waitless (fun _ _ => not_wait_killLive) bot_le fun _ hq => killLive_dead hq

theorem bounded_late (hfind : (procs.find? fun p => !p.found) = none) (hlast : procs.getLast? = some last)
    (hlate : last.done.filter (· ≤ deadline) = none) :
    Bounded deadline procs (runBashChain limit errText deadline procs) := by
  unfold runBashChain
  rw [hfind, hlast]
  dsimp only
  rw [hlate]
  refine bounded_of_waitless ?_ le_rfl ?_
  · intro p since hmem
    rcases List.mem_append.mp hmem with hmem | hmem
    · obtain ⟨x, -, hx⟩ := List.mem_map.mp hmem
      cases hx
    · exact not_wait_killLive hmem
  · intro p hp
    have hmem : p ∈ procs := (List.takeWhile_prefix _).subset hp
    exact Or.inr (List.mem_append_left _ (List.mem_map_of_mem hmem))

/-- The last process is done in time. -/
theorem runBashChain_done (hfind : (procs.find? fun p => !p.found) = none)
    (hlast : procs.getLast? = some last) (hdone : last.done.filter (· ≤ deadline) = some now) :
    runBashChain limit errText deadline procs
      = match awaitAll now (last :: procs.dropLast) with
        | (deeds, none) => ⟨deeds, none⟩
        | (deeds, some t) => ⟨deeds ++ killLive t procs, some (t, last.verdict errText)⟩ := by
  unfold runBashChain
  rw [hfind, hlast]
  dsimp only
  rw [hdone]

theorem bounded_done (hfind : (procs.find? fun p => !p.found) = none)
    (hlast : procs.getLast? = some last) (hdone : last.done.filter (· ≤ deadline) = some now) :
    Bounded deadline procs (runBashChain limit errText deadline procs)
      ↔ ∀ p ∈ procs.dropLast, p.over now = true := by
  obtain ⟨hsome, hle⟩ := Option.filter_eq_some_iff.mp hdone
  have hover := done_over hsome
  rw [runBashChain_done hfind hlast hdone]
  constructor
  · intro hb
    by_contra hno
    have hrun : ∃ p ∈ last :: procs.dropLast, p.over now = false := by
      simp only [not_forall, Bool.not_eq_true] at hno
      obtain ⟨p, hp, hrun⟩ := hno
      exact ⟨p, List.mem_cons_of_mem last hp, hrun⟩
    obtain ⟨pre, p, post, hdeeds, hp, hunkilled⟩ := awaitAll_running hrun
    have hwait : ∃ post', (match awaitAll now (last :: procs.dropLast) with
        | (deeds, none) => (⟨deeds, none⟩ : ChainCall τ)
        | (deeds, some t) => ⟨deeds ++ killLive t procs, some (t, last.verdict errText)⟩).deeds
          = pre ++ .wait p now :: post' := by
      match hall : awaitAll now (last :: procs.dropLast) with
      | (deeds, none) =>
        rw [hall] at hdeeds
        exact ⟨post, hdeeds⟩
      | (deeds, some t) =>
        rw [hall] at hdeeds
        refine ⟨post ++ killLive t procs, ?_⟩
        show deeds ++ killLive t procs = _
        rw [show deeds = pre ++ .wait p now :: post from hdeeds, List.append_assoc]
        rfl
    obtain ⟨post', hwait⟩ := hwait
    rcases hb.1 pre p now post' hwait with hended | hkilled
    · rw [hp] at hended
      cases hended
    · exact hunkilled p hkilled
  · intro hall
    have hevery : ∀ p ∈ last :: procs.dropLast, p.over now = true := by
      intro p hp
      rcases List.mem_cons.mp hp with rfl | hp
      · exact hover
      · exact hall p hp
    have hprocs : ∀ p ∈ procs, p.over now = true := by
      intro p hp
      rw [← List.dropLast_append_getLast? last hlast] at hp
      rcases List.mem_append.mp hp with hp | hp
      · exact hall p hp
      · rw [List.mem_singleton.mp hp]
        exact hover
    rw [awaitAll_over hevery]
    refine ⟨?_, now, _, rfl, by simpa using hle, Or.inr fun p hp => ?_⟩
    · intro pre p since post hdeeds
      have hmem : .wait p since ∈ ((last :: procs.dropLast).map fun p => Deed.wait p now)
          ++ killLive now procs := by
        rw [show _ ++ killLive now procs = pre ++ .wait p since :: post from hdeeds]
        exact List.mem_append_right _ List.mem_cons_self
      rcases List.mem_append.mp hmem with hmem | hmem
      · obtain ⟨x, hx, heq⟩ := List.mem_map.mp hmem
        cases heq
        exact Or.inl (hevery p hx)
      · exact absurd hmem not_wait_killLive
    · exact Or.inl (hprocs p ((List.takeWhile_prefix _).subset hp))

end Cases

/-- TIMEOUT.  A call is bounded exactly if no other process of its chain outlives the last one: nothing
else it does waits for what runs, and whatever runs when it raises is killed. -/
theorem chain_bounded_iff (limit : String) (errText : Bytes → String) (deadline : τ)
    (procs : List (Proc τ)) :
    Bounded deadline procs (runBashChain limit errText deadline procs) ↔ Drains deadline procs := by
  match hfind : procs.find? fun p => !p.found with
  | some p =>
    have hmissing : ∃ p ∈ procs, p.found = false :=
      ⟨p, List.mem_of_find?_eq_some hfind, by simpa using List.find?_some hfind⟩
    exact iff_of_true (bounded_missing hfind) (Or.inl hmissing)
  | none =>
    have hfound : ¬ ∃ p ∈ procs, p.found = false := by
      rintro ⟨p, hp, hno⟩
      have hp := List.find?_eq_none.mp hfind p hp
      simp [hno] at hp
    rw [Drains, or_iff_right hfound]
    match hlast : procs.getLast? with
    | none =>
      obtain rfl := List.getLast?_eq_none_iff.mp hlast
      refine iff_of_true (bounded_of_waitless ?_ bot_le ?_) (by simp)
      · exact fun _ _ => List.not_mem_nil
      · intro p hp
        cases hp
    | some last =>
      match hdone : last.done.filter (· ≤ deadline) with
      | none =>
        refine iff_of_true (bounded_late hfind hlast hdone) ?_
        intro last' hlast' d hd hle
        obtain rfl : last = last' := Option.some.inj hlast'
        rw [hd, Option.filter_some, if_pos (by simpa using hle)] at hdone
        cases hdone
      | some now =>
        obtain ⟨hsome, hle⟩ := Option.filter_eq_some_iff.mp hdone
        rw [bounded_done hfind hlast hdone]
        constructor
        · intro hall last' hlast' d hd _
          obtain rfl : last = last' := Option.some.inj hlast'
          obtain rfl : now = d := Option.some.inj (hsome.symm.trans hd)
          exact hall
        · intro hdrains
          exact hdrains last rfl now hsome (by simpa using hle)

end Timeout

/-- `sleep`, whose reader is done at once. -/
def sleeper : List (Proc Nat) :=
  [⟨"sleep", true, none, none, .status 0, [], []⟩, ⟨"true", true, some 0, some 0, .status 0, [], []⟩]

/-- A chain that hangs: its last process is done at once, and the call waits for the other one for ever. -/
theorem sleeper_hangs : (runBashChain "30" (fun _ => "") 30 sleeper).ends = none
    ∧ ¬ Bounded 30 sleeper (runBashChain "30" (fun _ => "") 30 sleeper) := by
  have hends : (runBashChain "30" (fun _ => "") 30 sleeper).ends = none := rfl
  refine ⟨hends, ?_⟩
  rintro ⟨-, t, res, hsome, -⟩
  rw [hends] at hsome
  cases hsome

end Seekbase
