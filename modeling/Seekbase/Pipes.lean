/-
# Seekbase.Pipes — what runs between the processes of a chain.

`_run_bash_chain` joins its processes by pipes of bounded size, feeds the first from a thread of its own
and reads the last by `communicate`.  Nobody reads what the others complain of: their `stderr` is a pipe
too.  Here the processes are machines that read and write byte by byte, and everything else is theirs and
the system's to schedule; the timeout is left out, so that a call hangs exactly where it would run into it.

* `chainStep`, `found` — the call at work, and what it finds when it has ended;
* `chain_composes`     — it ends, with what the commands do one after the other;
* `chain_schedule_free` — where it ends it returns or raises the same, under every schedule;
* `chain_hangs_iff`    — where nothing goes on any more it has ended, or somebody's `stderr` is full.
-/
import Seekbase.Chain
import Seekbase.Lib.PipeOrder

namespace Seekbase

open Lines Transition PipeLine

section Pipes

variable {σ : Type} (prog : σ → Want σ UInt8 Exit) (cap : Nat)

/-- The call, with pipes that hold `cap` bytes: the thread that feeds the first process, the processes,
and `communicate` on the last. -/
def chainStep : Chain σ UInt8 Exit → PipeLine.Label → Option (Chain σ UInt8 Exit) :=
  PipeLine.step prog .brokenPipe cap

/-- What the call finds once `communicate` has read everything and every process has been waited for, in
time. -/
def found (t : Chain σ UInt8 Exit) : ChainRun t.line.exits.length where
  missing := none
  late := false
  exits := t.line.exits
  length := rfl
  out := t.line.collected.1
  err := t.line.collected.2

/-- A process that has done this by itself. -/
def byItself (d : Done UInt8 Exit) : ChainRun 1 where
  missing := none
  late := false
  exits := [d.status]
  length := rfl
  out := d.out
  err := d.err

variable {prog cap} {limit : String} {errText : Bytes → String} {argvs : List σ} {stdin : Bytes}
  {t u : Chain σ UInt8 Exit} {ls ls' : List PipeLine.Label}

/-- The call is judged by its last process and what has been read of it. -/
theorem found_result {n : Nat} {r : ChainRun n} (hmissing : r.missing = none) (hlate : r.late = false)
    (hcol : t.line.collected = (r.out, r.err)) (hexit : t.line.exits.getLast? = r.exits.getLast?) :
    (found t).result limit errText = r.result limit errText := by
  have hout : t.line.collected.1 = r.out := congrArg Prod.fst hcol
  have herr : t.line.collected.2 = r.err := congrArg Prod.snd hcol
  simp only [ChainRun.result, found, hmissing, hlate, hexit, hout, herr]

/-- Commands that come to an end one after the other, and none of which but the last complains of more
than a pipe holds: under every schedule the call comes to an end, in a bounded number of steps, and if
that is in time it is judged as if the last command had been run by itself on all that the others make
of the input. -/
theorem chain_composes (hcap : 0 < cap) {fuel : Nat} {d : Done UInt8 Exit}
    (hturn : inTurn prog cap fuel argvs stdin = some d)
    (hrun : run (chainStep prog cap) (Chain.start stdin argvs) ls = some t) :
    ls.length ≤ stdin.length + 1 + (argvs.length * fuel + d.out.length + d.err.length)
      ∧ (t.line.isOver = true ∨ ∃ l, (chainStep prog cap t l).isSome = true)
      ∧ (t.line.isOver = true →
        (found t).result limit errText = (byItself d).result limit errText) := by
  obtain ⟨hlength, hresult, hon⟩ := line_runs_in_turn hcap hturn hrun
  refine ⟨hlength, hon, fun hover => ?_⟩
  obtain ⟨hcol, hexit⟩ := hresult hover
  exact found_result rfl rfl hcol hexit

/-- Whatever the commands do, and whether or not they would ever end by themselves: two calls that end in
time return the same bytes or raise the same, however the processes were scheduled and however much a pipe
held. -/
theorem chain_schedule_free {cap' : Nat} (hne : argvs ≠ [])
    (hrun : run (chainStep prog cap) (Chain.start stdin argvs) ls = some t) (ht : t.line.isOver = true)
    (hrun' : run (chainStep prog cap') (Chain.start stdin argvs) ls' = some u)
    (hu : u.line.isOver = true) :
    (found t).result limit errText = (found u).result limit errText := by
  have hsink : (Chain.start stdin argvs : Chain σ UInt8 Exit).line.isSink = false := by
    cases argvs with
    | nil => exact absurd rfl hne
    | cons => rfl
  obtain ⟨hcol, hexit⟩ := schedule_free hsink hrun ht hrun' hu
  exact found_result rfl rfl hcol hexit

/-- Where nothing can go on any more, a call has not ended exactly if a process before the last is about
to complain into a full pipe; and from the moment one is, the call never ends. -/
theorem chain_hangs_iff (hcap : 0 < cap) :
    ((∀ l, chainStep prog cap t l = none) → (t.line.isOver = false ↔ t.line.Jammed prog cap))
      ∧ (t.line.Jammed prog cap → ∀ ls u, run (chainStep prog cap) t ls = some u →
        u.line.isOver = false) := by
  have hstuck : (t.line.Jammed prog cap → ∀ ls u, run (chainStep prog cap) t ls = some u → _) ∧ _ :=
    stuck_iff_jammed hcap
  refine ⟨fun hrest => ⟨fun hover => ?_, Line.Jammed.not_over⟩, hstuck.1⟩
  by_contra hjam
  rcases hstuck.2 hjam with hend | ⟨l, hl⟩
  · rw [hover] at hend
    cases hend
  · have hnone := hrest l
    unfold chainStep at hnone
    rw [hnone] at hl
    cases hl

end Pipes

/-! ## Commands -/

/-- Some commands. -/
inductive Tool where
  | cat
  /-- `cat`, about to write. -/
  | copy (b : UInt8)
  /-- `head -c 1`. -/
  | headOne
  | first (b : UInt8)
  | yes
  /-- Complains so many times, and fails. -/
  | moan (n : Nat)
  | quit (rc : Int)

def Tool.wants : Tool → Want Tool UInt8 Exit
  | .cat => .read fun b => b.elim (.quit 0) .copy
  | .copy b => .write b .cat
  | .headOne => .read fun b => b.elim (.quit 0) .first
  | .first b => .write b (.quit 0)
  | .yes => .write 121 .yes
  | .moan 0 => .exit (.status 1)
  | .moan (n + 1) => .complain 33 (.moan n)
  | .quit rc => .exit (.status rc)

/-- Two bytes through two `cat`s, on pipes of one byte. -/
def twoCats : List PipeLine.Label :=
  [.feed, .turn 0, .turn 0, .turn 1, .turn 1, .takeOut, .feed, .turn 0, .turn 0, .turn 1, .turn 1, .takeOut,
    .feed, .turn 0, .turn 0, .turn 1, .turn 1]

theorem chain_composes_cats : ∃ t,
    run (chainStep Tool.wants 1) (Chain.start [104, 105] [Tool.cat, .cat]) twoCats = some t
      ∧ t.line.isOver = true ∧ (found t).result "30" (fun _ => "") = .ok [104, 105] := by
  have hany : (run (chainStep Tool.wants 1) (Chain.start [104, 105] [Tool.cat, .cat]) twoCats).any
      (fun t => t.line.isOver) = true := by decide +kernel
  obtain ⟨t, ht, hover⟩ := (Option.any_eq_true _ _).mp hany
  have hturn : inTurn Tool.wants 1 6 [.cat, .cat] [104, 105] = some ⟨[104, 105], [], .status 0⟩ := rfl
  exact ⟨t, ht, hover, (chain_composes Nat.one_pos hturn ht).2.2 hover⟩

/-- `yes`, which never ends, and `head -c 1`: the one is ended by the other. -/
def yesHead : Chain Tool UInt8 Exit := .start [] [.yes, .headOne]

theorem chain_schedule_free_yes : ∃ t u,
    run (chainStep Tool.wants 1) yesHead
        [.turn 0, .turn 1, .turn 1, .takeOut, .turn 1, .turn 0] = some t
      ∧ run (chainStep Tool.wants 2) yesHead
        [.feed, .turn 0, .turn 0, .turn 1, .turn 0, .turn 1, .turn 1, .turn 0, .takeOut] = some u
      ∧ (found t).result "30" (fun _ => "") = .ok [121]
      ∧ (found t).result "30" (fun _ => "") = (found u).result "30" (fun _ => "") := by
  have hany : (run (chainStep Tool.wants 1) yesHead
      [.turn 0, .turn 1, .turn 1, .takeOut, .turn 1, .turn 0]).any
      (fun t => t.line.isOver && ((found t).result "30" fun _ => "").toOption == some [121]) = true := by
    decide +kernel
  have hany' : (run (chainStep Tool.wants 2) yesHead
      [.feed, .turn 0, .turn 0, .turn 1, .turn 0, .turn 1, .turn 1, .turn 0, .takeOut]).any
      (fun t => t.line.isOver) = true := by decide +kernel
  obtain ⟨t, ht, hboth⟩ := (Option.any_eq_true _ _).mp hany
  obtain ⟨u, hu, hover'⟩ := (Option.any_eq_true _ _).mp hany'
  rw [Bool.and_eq_true, beq_iff_eq] at hboth
  obtain ⟨hover, hresult⟩ := hboth
  refine ⟨t, u, ht, hu, ?_, chain_schedule_free (List.cons_ne_nil _ _) ht hover hu hover'⟩
  revert hresult
  cases (found t).result "30" (fun _ => "") with
  | error e => exact fun h => by cases h
  | ok out => exact fun h => congrArg Except.ok (Option.some.inj h)

/-- A command that complains of two bytes, before a `cat`, on pipes of one. -/
theorem chain_hangs_moan : ∃ t,
    run (chainStep Tool.wants 1) (Chain.start [] [.moan 2, .cat]) [.turn 0] = some t
      ∧ ∀ ls u, run (chainStep Tool.wants 1) t ls = some u → u.line.isOver = false := by
  refine ⟨_, rfl, (chain_hangs_iff Nat.one_pos).2 ?_⟩
  exact Or.inl ⟨rfl, Nat.le_refl 1, .moan 1, 33, .moan 0, rfl, rfl⟩

end Seekbase
