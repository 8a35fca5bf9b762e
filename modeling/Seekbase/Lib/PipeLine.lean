/-
# Seekbase.Lib.PipeLine — a line of processes joined by bounded pipes.

Each process reads what the one before it writes, through a pipe that holds at most `cap` tokens, and a
process that writes into a pipe nobody will read any more is ended by it.  At the head of the line stands
a feeder with the input, at its end a collector, which reads what the LAST process writes and what it
complains of; nobody reads what the others complain of.  A process is a deterministic machine that reads
one token at a time, so the schedule of the line is all that is left open.

* `Want`, `Line`, `Chain`, `step` — processes, a line of them, and a line that is being fed;
* `alone`, `inTurn`  — a process on the whole of its input, and the processes one after the other;
* `Line.Jammed`      — a process before the last complains into a full pipe;
* `stuck_iff_jammed` — a line that is not over can go on unless it is jammed, and then it never ends;
* `Line.Due`         — what is still to come out of a line, and in how many steps;
* `line_runs_in_turn` — so every schedule ends, with what the processes do one after the other.
-/
import Seekbase.Lib.Run

namespace PipeLine

open Transition

/-! ## Processes -/

/-- What a process does next, and how it goes on. -/
inductive Want (σ α ρ : Type) where
  /-- Something by itself. -/
  | go (s : σ)
  /-- Reads a token, or the end of its input. -/
  | read (k : Option α → σ)
  | write (a : α) (s : σ)
  | complain (a : α) (s : σ)
  | exit (r : ρ)

inductive Stage (σ ρ : Type) where
  | running (s : σ)
  | ended (r : ρ)
  deriving DecidableEq

def Stage.isEnded {σ ρ : Type} : Stage σ ρ → Bool
  | .running _ => false
  | .ended _ => true

/-- What a process has done when it has ended. -/
structure Done (α ρ : Type) where
  out : List α
  err : List α
  status : ρ
  deriving DecidableEq

/-- A line from one of its pipes on.  Before each process is the pipe it reads, and with it the pipe it
complains into. -/
inductive Line (σ α ρ : Type) where
  /-- The collector: what is in the pipe of the last process, and what has been read. -/
  | sink (stdout out err : List α)
  | node (stdin : List α) (stage : Stage σ ρ) (stderr : List α) (rest : Line σ α ρ)
  deriving DecidableEq

/-- A line and what the feeder has still to write, if it has not closed its pipe. -/
structure Chain (σ α ρ : Type) where
  feed : Option (List α)
  line : Line σ α ρ
  deriving DecidableEq

inductive Label where
  /-- The feeder writes a token, or closes. -/
  | feed
  /-- The turn of the process with this number. -/
  | turn (i : Nat)
  | takeOut
  | takeErr
  deriving DecidableEq

namespace Line

variable {σ α ρ : Type}

/-- What is in the first pipe. -/
def inbox : Line σ α ρ → List α
  | .sink stdout _ _ => stdout
  | .node stdin _ _ _ => stdin

/-- The reader of the first pipe has ended. -/
def gone : Line σ α ρ → Bool
  | .sink .. => false
  | .node _ stage _ _ => stage.isEnded

def push (a : α) : Line σ α ρ → Line σ α ρ
  | .sink stdout out err => .sink (stdout ++ [a]) out err
  | .node stdin stage stderr rest => .node (stdin ++ [a]) stage stderr rest

/-- The line from its collector on. -/
def isSink : Line σ α ρ → Bool
  | .sink .. => true
  | .node .. => false

/-- The collector reads a token of the last process. -/
def takeOut : Line σ α ρ → Option (Line σ α ρ)
  | .sink [] _ _ => none
  | .sink (a :: stdout) out err => some (.sink stdout (out ++ [a]) err)
  | .node stdin stage stderr rest => rest.takeOut.map (.node stdin stage stderr)

/-- The collector has read a token of what the last process complains of. -/
def hear (a : α) : Line σ α ρ → Line σ α ρ
  | .sink stdout out err => .sink stdout out (err ++ [a])
  | .node stdin stage stderr rest => .node stdin stage stderr rest

/-- The collector reads a token the last process has complained of. -/
def takeErr : Line σ α ρ → Option (Line σ α ρ)
  | .sink .. => none
  | .node stdin stage stderr rest =>
    if rest.isSink then
      match stderr with
      | [] => none
      | a :: stderr => some (.node stdin stage stderr (rest.hear a))
    else rest.takeErr.map (.node stdin stage stderr)

/-- Every process has ended and the collector has read everything. -/
def isOver : Line σ α ρ → Bool
  | .sink stdout _ _ => stdout.isEmpty
  | .node _ stage stderr rest => stage.isEnded && (!rest.isSink || stderr.isEmpty) && rest.isOver

def collected : Line σ α ρ → List α × List α
  | .sink _ out err => (out, err)
  | .node _ _ _ rest => rest.collected

/-- How the processes that have ended did. -/
def exits : Line σ α ρ → List ρ
  | .sink .. => []
  | .node _ (.running _) _ rest => rest.exits
  | .node _ (.ended r) _ rest => r :: rest.exits

/-- A line that has not begun. -/
def ofProcs : List σ → Line σ α ρ
  | [] => .sink [] [] []
  | p :: ps => .node [] (.running p) [] (ofProcs ps)

end Line

/-! ## The line at work -/

section Step

variable {σ α ρ : Type} (prog : σ → Want σ α ρ) (broken : ρ) (cap : Nat)

/-- The turn of a process; `shut` tells whether what it reads is written no more. -/
def Line.act : Line σ α ρ → Bool → Nat → Option (Line σ α ρ)
  | .sink .., _, _ => none
  | .node stdin stage stderr rest, _, i + 1 =>
    (rest.act stage.isEnded i).map (.node stdin stage stderr)
  | .node stdin stage stderr rest, shut, 0 =>
    match stage with
    | .ended _ => none
    | .running s =>
      match prog s with
      | .go s => some (.node stdin (.running s) stderr rest)
      | .read k =>
        match stdin with
        | a :: stdin => some (.node stdin (.running (k (some a))) stderr rest)
        | [] => if shut then some (.node [] (.running (k none)) stderr rest) else none
      | .write a s =>
        if rest.gone then some (.node stdin (.ended broken) stderr rest)
        else if rest.inbox.length < cap then some (.node stdin (.running s) stderr (rest.push a))
        else none
      | .complain a s =>
        if stderr.length < cap then some (.node stdin (.running s) (stderr ++ [a]) rest) else none
      | .exit r => some (.node stdin (.ended r) stderr rest)

def step (c : Chain σ α ρ) : Label → Option (Chain σ α ρ)
  | .feed =>
    match c.feed with
    | none => none
    | some [] => some ⟨none, c.line⟩
    | some (a :: todo) =>
      if c.line.gone then some ⟨none, c.line⟩
      else if c.line.inbox.length < cap then some ⟨some todo, c.line.push a⟩
      else none
  | .turn i => (c.line.act prog broken cap c.feed.isNone i).map fun l => ⟨c.feed, l⟩
  | .takeOut => c.line.takeOut.map fun l => ⟨c.feed, l⟩
  | .takeErr => c.line.takeErr.map fun l => ⟨c.feed, l⟩

def Chain.start (input : List α) (ps : List σ) : Chain σ α ρ := ⟨some input, .ofProcs ps⟩

/-- A process on the whole of its input, with no pipe to fill, in at most so many steps. -/
def alone : Nat → σ → List α → Option (Done α ρ)
  | 0, _, _ => none
  | n + 1, s, input =>
    match prog s with
    | .go s => alone n s input
    | .read k =>
      match input with
      | a :: input => alone n (k (some a)) input
      | [] => alone n (k none) []
    | .write a s => (alone n s input).map fun d => { d with out := a :: d.out }
    | .complain a s => (alone n s input).map fun d => { d with err := a :: d.err }
    | .exit r => some ⟨[], [], r⟩

/-- The processes one after the other, each on all that the one before it has written, if none but the
last complains of more than a pipe holds. -/
def inTurn (fuel : Nat) : List σ → List α → Option (Done α ρ)
  | [], _ => none
  | [p], input => alone prog fuel p input
  | p :: q :: ps, input =>
    (alone prog fuel p input).bind fun d =>
      if d.err.length ≤ cap then inTurn fuel (q :: ps) d.out else none

/-- A process before the last is about to complain into a full pipe. -/
def Line.Jammed : Line σ α ρ → Prop
  | .sink .. => False
  | .node _ stage stderr rest =>
    (rest.isSink = false ∧ cap ≤ stderr.length ∧ ∃ s a s', stage = .running s ∧ prog s = .complain a s')
      ∨ rest.Jammed

end Step

/-! ## What can happen -/

section Changes

variable {σ α ρ : Type} (prog : σ → Want σ α ρ) (broken : ρ) (cap : Nat)

/-- A process or the collector has gone on. -/
inductive Changes : Bool → Line σ α ρ → Line σ α ρ → Prop
  | go {shut stdin stderr rest s s'} : prog s = .go s' →
      Changes shut (.node stdin (.running s) stderr rest) (.node stdin (.running s') stderr rest)
  | read {shut a stdin stderr rest s k} : prog s = .read k →
      Changes shut (.node (a :: stdin) (.running s) stderr rest)
        (.node stdin (.running (k (some a))) stderr rest)
  | readEnd {stderr rest s k} : prog s = .read k →
      Changes true (.node [] (.running s) stderr rest) (.node [] (.running (k none)) stderr rest)
  | killed {shut stdin stderr rest s a s'} : prog s = .write a s' → rest.gone = true →
      Changes shut (.node stdin (.running s) stderr rest) (.node stdin (.ended broken) stderr rest)
  | write {shut stdin stderr rest s a s'} : prog s = .write a s' →
      Changes shut (.node stdin (.running s) stderr rest)
        (.node stdin (.running s') stderr (rest.push a))
  | complain {shut stdin stderr rest s a s'} : prog s = .complain a s' → stderr.length < cap →
      Changes shut (.node stdin (.running s) stderr rest)
        (.node stdin (.running s') (stderr ++ [a]) rest)
  | exit {shut stdin stderr rest s r} : prog s = .exit r →
      Changes shut (.node stdin (.running s) stderr rest) (.node stdin (.ended r) stderr rest)
  | takeOut {shut a stdout out err} :
      Changes shut (.sink (a :: stdout) out err) (.sink stdout (out ++ [a]) err)
  | takeErr {shut a stdin stage stderr rest} : rest.isSink = true →
      Changes shut (.node stdin stage (a :: stderr) rest) (.node stdin stage stderr (rest.hear a))
  | behind {shut stdin stage stderr rest rest'} : Changes stage.isEnded rest rest' →
      Changes shut (.node stdin stage stderr rest) (.node stdin stage stderr rest')

variable {prog broken cap} {l m : Line σ α ρ}

theorem act_changes {shut : Bool} {i : Nat} (h : l.act prog broken cap shut i = some m) :
    Changes prog broken cap shut l m := by
  induction l generalizing shut i m with
  | sink => cases h
  | node stdin stage stderr rest ih =>
    cases i with
    | succ i =>
      obtain ⟨rest', hrest, rfl⟩ := Option.map_eq_some_iff.mp h
      exact .behind (ih hrest)
    | zero =>
      cases stage with
      | ended r => cases h
      | running s =>
        unfold Line.act at h
        dsimp only at h
        split at h
        · next s' hprog =>
          obtain rfl := Option.some.inj h
          exact .go hprog
        · next k hprog =>
          split at h
          · obtain rfl := Option.some.inj h
            exact .read hprog
          · cases shut with
            | false => cases h
            | true =>
              obtain rfl := Option.some.inj h
              exact .readEnd hprog
        · next a s' hprog =>
          split at h
          · next hgone =>
            obtain rfl := Option.some.inj h
            exact .killed hprog hgone
          · split at h
            · obtain rfl := Option.some.inj h
              exact .write hprog
            · cases h
        · next a s' hprog =>
          split at h
          · next hroom =>
            obtain rfl := Option.some.inj h
            exact .complain hprog hroom
          · cases h
        · next r hprog =>
          obtain rfl := Option.some.inj h
          exact .exit hprog

variable (prog broken cap) in
theorem takeOut_changes (shut : Bool) (h : l.takeOut = some m) : Changes prog broken cap shut l m := by
  induction l generalizing shut m with
  | sink stdout out err =>
    cases stdout with
    | nil => cases h
    | cons a stdout =>
      obtain rfl := Option.some.inj h
      exact .takeOut
  | node stdin stage stderr rest ih =>
    obtain ⟨rest', hrest, rfl⟩ := Option.map_eq_some_iff.mp h
    exact .behind (ih _ hrest)

variable (prog broken cap) in
theorem takeErr_changes (shut : Bool) (h : l.takeErr = some m) : Changes prog broken cap shut l m := by
  induction l generalizing shut m with
  | sink => cases h
  | node stdin stage stderr rest ih =>
    unfold Line.takeErr at h
    split at h
    · next hsink =>
      cases stderr with
      | nil => cases h
      | cons a stderr =>
        obtain rfl := Option.some.inj h
        exact .takeErr hsink
    · obtain ⟨rest', hrest, rfl⟩ := Option.map_eq_some_iff.mp h
      exact .behind (ih _ hrest)

theorem Changes.isSink {shut : Bool} (h : Changes prog broken cap shut l m) : m.isSink = l.isSink := by
  cases h <;> rfl

variable (prog broken cap) in
/-- What a step of the chain can be. -/
inductive Chain.Moves : Chain σ α ρ → Chain σ α ρ → Prop
  | line {todo : Option (List α)} {l m : Line σ α ρ} : Changes prog broken cap todo.isNone l m →
      Moves ⟨todo, l⟩ ⟨todo, m⟩
  | close {l : Line σ α ρ} : Moves ⟨some [], l⟩ ⟨none, l⟩
  /-- The feeder is told that nobody reads it. -/
  | lost {a : α} {todo : List α} {l : Line σ α ρ} : l.gone = true →
      Moves ⟨some (a :: todo), l⟩ ⟨none, l⟩
  | feed {a : α} {todo : List α} {l : Line σ α ρ} : Moves ⟨some (a :: todo), l⟩ ⟨some todo, l.push a⟩

theorem step_moves {c t : Chain σ α ρ} {i : Label} (h : step prog broken cap c i = some t) :
    c.Moves prog broken cap t := by
  obtain ⟨feed, l⟩ := c
  cases i with
  | turn i =>
    obtain ⟨m, hm, rfl⟩ := Option.map_eq_some_iff.mp h
    exact .line (act_changes hm)
  | takeOut =>
    obtain ⟨m, hm, rfl⟩ := Option.map_eq_some_iff.mp h
    exact .line (takeOut_changes prog broken cap _ hm)
  | takeErr =>
    obtain ⟨m, hm, rfl⟩ := Option.map_eq_some_iff.mp h
    exact .line (takeErr_changes prog broken cap _ hm)
  | feed =>
    unfold step at h
    dsimp only at h
    split at h
    · cases h
    · obtain rfl := Option.some.inj h
      exact .close
    · split at h
      · next hgone =>
        obtain rfl := Option.some.inj h
        exact .lost hgone
      · split at h
        · obtain rfl := Option.some.inj h
          exact .feed
        · cases h

end Changes

/-! ## Going on -/

section Progress

variable {σ α ρ : Type} {prog : σ → Want σ α ρ} {broken : ρ} {cap : Nat} {l m : Line σ α ρ}
  {stdin stderr : List α} {stage : Stage σ ρ}

/-- The line waits for what is written into its first pipe. -/
def Line.Starves (l : Line σ α ρ) (shut : Bool) : Prop :=
  shut = false ∧ l.inbox = [] ∧ l.gone = false

/-- Somebody in the line can go on. -/
def Line.Moves (prog : σ → Want σ α ρ) (broken : ρ) (cap : Nat) (shut : Bool) (l : Line σ α ρ) : Prop :=
  (∃ i, (l.act prog broken cap shut i).isSome = true) ∨ l.takeOut.isSome = true
    ∨ l.takeErr.isSome = true

theorem takeErr_last {a : α} (h : l.isSink = true) :
    (Line.node stdin stage (a :: stderr) l).takeErr.isSome = true := by
  simp [Line.takeErr, h]

theorem not_isSink_of_takeErr (h : l.takeErr.isSome = true) : l.isSink = false := by
  cases l with
  | sink => cases h
  | node => rfl

theorem Line.Moves.behind {shut : Bool} (h : l.Moves prog broken cap stage.isEnded) :
    (Line.node stdin stage stderr l).Moves prog broken cap shut := by
  rcases h with ⟨i, hi⟩ | hout | herr
  · refine Or.inl ⟨i + 1, ?_⟩
    show ((l.act prog broken cap stage.isEnded i).map _).isSome = true
    rw [Option.isSome_map]
    exact hi
  · refine Or.inr (Or.inl ?_)
    show (l.takeOut.map _).isSome = true
    rw [Option.isSome_map]
    exact hout
  · refine Or.inr (Or.inr ?_)
    unfold Line.takeErr
    rw [if_neg (by simp [not_isSink_of_takeErr herr]), Option.isSome_map]
    exact herr

/-- A process that runs can go on if its reader is gone or has room, unless it starves or jams. -/
theorem moves_running {s : σ} {shut : Bool} (hcap : 0 < cap)
    (hjam : ¬ (Line.node stdin (.running s) stderr l).Jammed prog cap)
    (hroom : l.gone = true ∨ l.inbox = []) :
    (Line.node stdin (.running s) stderr l).Moves prog broken cap shut
      ∨ (Line.node stdin (.running s) stderr l).Starves shut := by
  have hact : ((Line.node stdin (.running s) stderr l).act prog broken cap shut 0).isSome = true →
      (Line.node stdin (.running s) stderr l).Moves prog broken cap shut
        ∨ (Line.node stdin (.running s) stderr l).Starves shut :=
    fun h => Or.inl (Or.inl ⟨0, h⟩)
  cases hprog : prog s with
  | go s' => exact hact (by simp [Line.act, hprog])
  | exit r => exact hact (by simp [Line.act, hprog])
  | read k =>
    cases stdin with
    | cons a stdin => exact hact (by simp [Line.act, hprog])
    | nil =>
      cases shut with
      | true => exact hact (by simp [Line.act, hprog])
      | false => exact Or.inr ⟨rfl, rfl, rfl⟩
  | write a s' =>
    refine hact ?_
    rcases hroom with hgone | hempty
    · simp [Line.act, hprog, hgone]
    · have hlen : l.inbox.length < cap := by
        rw [hempty]
        exact hcap
      simp only [Line.act, hprog, hlen, if_true]
      split <;> rfl
  | complain a s' =>
    by_cases hlen : stderr.length < cap
    · exact hact (by simp [Line.act, hprog, hlen])
    · -- the pipe is full: either nobody reads it, or the collector can
      by_cases hsink : l.isSink = true
      · cases stderr with
        | nil => exact absurd hcap hlen
        | cons b stderr => exact Or.inl (Or.inr (Or.inr (takeErr_last hsink)))
      · exact absurd (Or.inl ⟨by simpa using hsink, by omega, s, a, s', rfl, hprog⟩) hjam

theorem over_gone (h : l.isOver = true) : l.gone = true ∨ l.inbox = [] := by
  cases l with
  | sink stdout => exact Or.inr (by simpa [Line.isOver, Line.inbox] using h)
  | node _ stage =>
    simp only [Line.isOver, Bool.and_eq_true] at h
    exact Or.inl h.1.1

/-- A line that is neither over nor jammed goes on, or waits for its first pipe. -/
theorem moves_or_starves (broken : ρ) (shut : Bool) (hcap : 0 < cap) (hjam : ¬ l.Jammed prog cap)
    (hover : l.isOver = false) : l.Moves prog broken cap shut ∨ l.Starves shut := by
  induction l generalizing shut with
  | sink stdout out err =>
    cases stdout with
    | nil => cases hover
    | cons a stdout => exact Or.inl (Or.inr (Or.inl rfl))
  | node stdin stage stderr rest ih =>
    have hjam' : ¬ rest.Jammed prog cap := fun h => hjam (Or.inr h)
    cases hrest : rest.isOver with
    | true =>
      cases stage with
      | running s => exact moves_running hcap hjam (over_gone hrest)
      | ended r =>
        -- what is left is what the last process complained of
        have hlast : rest.isSink = true ∧ stderr ≠ [] := by
          simpa [Line.isOver, Stage.isEnded, hrest] using hover
        obtain ⟨a, more, rfl⟩ := List.exists_cons_of_ne_nil hlast.2
        exact Or.inl (Or.inr (Or.inr (takeErr_last hlast.1)))
    | false =>
      rcases ih stage.isEnded hjam' hrest with hmoves | ⟨hshut, hempty, hgone⟩
      · exact Or.inl hmoves.behind
      · cases stage with
        | running s => exact moves_running hcap hjam (Or.inr hempty)
        | ended r => cases hshut

end Progress

/-! ## Standing still -/

section Jam

variable {σ α ρ : Type} {prog : σ → Want σ α ρ} {broken : ρ} {cap : Nat} {l m : Line σ α ρ}
  {stdin stderr : List α} {a : α}

theorem push_isSink : (l.push a).isSink = l.isSink := by
  cases l <;> rfl

theorem push_jammed : (l.push a).Jammed prog cap ↔ l.Jammed prog cap := by
  cases l <;> exact Iff.rfl

theorem Line.Jammed.not_over (h : l.Jammed prog cap) : l.isOver = false := by
  induction l with
  | sink => exact h.elim
  | node stdin stage stderr rest ih =>
    rcases h with ⟨-, -, s, a, s', rfl, -⟩ | h
    · rfl
    · simp [Line.isOver, ih h]

/-- A process that is not in front of a full pipe is not what jams the line. -/
theorem Line.Jammed.behind {s : σ} (h : (Line.node stdin (.running s) stderr l).Jammed prog cap)
    (hs : ∀ a s', prog s = .complain a s' → stderr.length < cap) : l.Jammed prog cap := by
  rcases h with ⟨-, hfull, s', a, s'', heq, hprog⟩ | h
  · obtain rfl := Stage.running.inj heq
    have := hs a s'' hprog
    omega
  · exact h

/-- A jam does not dissolve: what is in front of a full pipe stays there. -/
theorem Changes.jammed {shut : Bool} (hc : Changes prog broken cap shut l m) (h : l.Jammed prog cap) :
    m.Jammed prog cap := by
  induction hc with
  | go hprog => exact Or.inr (h.behind fun a s' hs => by rw [hprog] at hs; cases hs)
  | read hprog => exact Or.inr (h.behind fun a s' hs => by rw [hprog] at hs; cases hs)
  | readEnd hprog => exact Or.inr (h.behind fun a s' hs => by rw [hprog] at hs; cases hs)
  | killed hprog => exact Or.inr (h.behind fun a s' hs => by rw [hprog] at hs; cases hs)
  | write hprog =>
    exact Or.inr (push_jammed.mpr (h.behind fun a s' hs => by rw [hprog] at hs; cases hs))
  | complain _ hroom => exact Or.inr (h.behind fun _ _ _ => hroom)
  | exit hprog => exact Or.inr (h.behind fun a s' hs => by rw [hprog] at hs; cases hs)
  | takeOut => exact h.elim
  | @takeErr _ a _ _ _ rest hsink =>
    cases rest with
    | node => cases hsink
    | sink =>
      rcases h with ⟨hnode, -⟩ | h
      · cases hnode
      · exact h.elim
  | behind hrest ih =>
    rcases h with ⟨hsink, hfull⟩ | h
    · exact Or.inl ⟨hrest.isSink.trans hsink, hfull⟩
    · exact Or.inr (ih h)

end Jam

/-! ## What is still to come -/

section Due

variable {σ α ρ : Type} {prog : σ → Want σ α ρ} {broken : ρ} {cap fuel n w : Nat} {l m : Line σ α ρ}
  {s : σ} {input : List α} {a : α} {d last last' final : Done α ρ}

theorem alone_go {s' : σ} (hprog : prog s = .go s') (h : alone prog n s input = some d) :
    ∃ k, n = k + 1 ∧ alone prog k s' input = some d := by
  cases n with
  | zero => cases h
  | succ k => exact ⟨k, rfl, by simpa [alone, hprog] using h⟩

theorem alone_read {k : Option α → σ} (hprog : prog s = .read k)
    (h : alone prog n s (a :: input) = some d) :
    ∃ j, n = j + 1 ∧ alone prog j (k (some a)) input = some d := by
  cases n with
  | zero => cases h
  | succ j => exact ⟨j, rfl, by simpa [alone, hprog] using h⟩

theorem alone_readEnd {k : Option α → σ} (hprog : prog s = .read k)
    (h : alone prog n s [] = some d) : ∃ j, n = j + 1 ∧ alone prog j (k none) [] = some d := by
  cases n with
  | zero => cases h
  | succ j => exact ⟨j, rfl, by simpa [alone, hprog] using h⟩

theorem alone_write {s' : σ} (hprog : prog s = .write a s') (h : alone prog n s input = some d) :
    ∃ k d', n = k + 1 ∧ alone prog k s' input = some d' ∧ d = { d' with out := a :: d'.out } := by
  cases n with
  | zero => cases h
  | succ k =>
    simp only [alone, hprog] at h
    obtain ⟨d', hd', rfl⟩ := Option.map_eq_some_iff.mp h
    exact ⟨k, d', rfl, hd', rfl⟩

theorem alone_complain {s' : σ} (hprog : prog s = .complain a s')
    (h : alone prog n s input = some d) :
    ∃ k d', n = k + 1 ∧ alone prog k s' input = some d' ∧ d = { d' with err := a :: d'.err } := by
  cases n with
  | zero => cases h
  | succ k =>
    simp only [alone, hprog] at h
    obtain ⟨d', hd', rfl⟩ := Option.map_eq_some_iff.mp h
    exact ⟨k, d', rfl, hd', rfl⟩

theorem alone_exit {r : ρ} (hprog : prog s = .exit r) (h : alone prog n s input = some d) :
    0 < n ∧ d = ⟨[], [], r⟩ := by
  cases n with
  | zero => cases h
  | succ k => exact ⟨Nat.succ_pos k, by simpa [alone, hprog] using h.symm⟩

variable (prog cap) in
/-- What a process has still to do when that much is still to come in, and in how many steps. -/
def Stage.Left (input : List α) (n : Nat) (d : Done α ρ) : Stage σ ρ → Prop
  | .running s => alone prog n s input = some d
  | .ended r => n = 0 ∧ d = ⟨[], [], r⟩

variable (prog cap) in
/-- The line still comes to `final` in `w` steps.  `last` is what the process before it has still to
write, whatever of its complaints has not been read, and its status. -/
def Line.Due (last final : Done α ρ) (w : Nat) : Line σ α ρ → Prop
  | .sink stdout out err =>
    out ++ stdout ++ last.out = final.out ∧ err ++ last.err = final.err ∧ last.status = final.status
      ∧ w = stdout.length + last.out.length + last.err.length
  | .node stdin stage stderr rest =>
    ∃ n d, stage.Left prog (stdin ++ last.out) n d
      ∧ (rest.isSink = false → stderr.length + d.err.length ≤ cap)
      ∧ ∃ v, rest.Due { d with err := stderr ++ d.err } final v ∧ w = n + v

/-- One whose first process has ended is told nothing. -/
theorem due_of_gone (h : l.Due prog cap last final w) (hgone : l.gone = true) :
    l.Due prog cap last' final w := by
  cases l with
  | sink => cases hgone
  | node stdin stage stderr rest =>
    cases stage with
    | running s => cases hgone
    | ended r => exact h

theorem due_push (h : l.Due prog cap { last with out := a :: last.out } final w) :
    (l.push a).Due prog cap last final w := by
  cases l with
  | sink stdout out err =>
    obtain ⟨hout, herr, hstatus, hw⟩ := h
    refine ⟨?_, herr, hstatus, ?_⟩
    · rw [← hout]
      simp
    · simp only [List.length_cons] at hw
      simp only [List.length_append, List.length_singleton]
      omega
  | node stdin stage stderr rest =>
    obtain ⟨n, d, hleft, hrest⟩ := h
    refine ⟨n, d, ?_, hrest⟩
    rw [List.append_assoc]
    exact hleft

theorem due_hear {stderr : List α} (hsink : l.isSink = true)
    (h : l.Due prog cap { d with err := a :: stderr ++ d.err } final w) :
    ∃ v, v + 1 = w ∧ (l.hear a).Due prog cap { d with err := stderr ++ d.err } final v := by
  cases l with
  | node => cases hsink
  | sink stdout out err =>
    obtain ⟨hout, herr, hstatus, hw⟩ := h
    refine ⟨stdout.length + d.out.length + (stderr ++ d.err).length, ?_, hout, ?_, hstatus, rfl⟩
    · simp only [List.cons_append, List.length_cons] at hw
      omega
    · rw [← herr]
      simp

/-- Whatever goes on in a line, it comes to the same, and one step sooner. -/
theorem Changes.due {shut : Bool} (hc : Changes prog broken cap shut l m)
    (hshut : shut = true → last.out = []) (h : l.Due prog cap last final w) :
    ∃ v, v + 1 ≤ w ∧ m.Due prog cap last final v := by
  induction hc generalizing last w with
  | go hprog =>
    obtain ⟨n, d, hleft, hroom, v, hrest, rfl⟩ := h
    obtain ⟨k, rfl, hk⟩ := alone_go hprog hleft
    exact ⟨k + v, by omega, k, d, hk, hroom, v, hrest, rfl⟩
  | read hprog =>
    obtain ⟨n, d, hleft, hroom, v, hrest, rfl⟩ := h
    obtain ⟨k, rfl, hk⟩ := alone_read hprog hleft
    exact ⟨k + v, by omega, k, d, hk, hroom, v, hrest, rfl⟩
  | readEnd hprog =>
    obtain ⟨n, d, hleft, hroom, v, hrest, rfl⟩ := h
    have hnil : ([] : List α) ++ last.out = [] := by rw [hshut rfl]; rfl
    unfold Stage.Left at hleft
    rw [hnil] at hleft
    obtain ⟨k, rfl, hk⟩ := alone_readEnd hprog hleft
    refine ⟨k + v, by omega, k, d, ?_, hroom, v, hrest, rfl⟩
    show alone prog k _ ([] ++ last.out) = some d
    rw [hnil]
    exact hk
  | killed hprog hgone =>
    obtain ⟨n, d, hleft, hroom, v, hrest, rfl⟩ := h
    obtain ⟨k, d', rfl, -, rfl⟩ := alone_write hprog hleft
    refine ⟨0 + v, by omega, 0, ⟨[], [], broken⟩, ⟨rfl, rfl⟩, fun hsink => ?_, v, due_of_gone hrest hgone,
      rfl⟩
    have := hroom hsink
    simp only [List.length_nil]
    omega
  | write hprog =>
    obtain ⟨n, d, hleft, hroom, v, hrest, rfl⟩ := h
    obtain ⟨k, d', rfl, hk, rfl⟩ := alone_write hprog hleft
    exact ⟨k + v, by omega, k, d', hk, fun hsink => hroom (push_isSink.symm.trans hsink), v,
      due_push hrest, rfl⟩
  | complain hprog hfits =>
    obtain ⟨n, d, hleft, hroom, v, hrest, rfl⟩ := h
    obtain ⟨k, d', rfl, hk, rfl⟩ := alone_complain hprog hleft
    refine ⟨k + v, by omega, k, d', hk, fun hsink => ?_, v, ?_, rfl⟩
    · have := hroom hsink
      simp only [List.length_cons, List.length_append, List.length_nil] at this ⊢
      omega
    · rw [List.append_assoc]
      exact hrest
  | exit hprog =>
    obtain ⟨n, d, hleft, hroom, v, hrest, rfl⟩ := h
    obtain ⟨hpos, rfl⟩ := alone_exit hprog hleft
    exact ⟨0 + v, by omega, 0, _, ⟨rfl, rfl⟩, hroom, v, hrest, rfl⟩
  | takeOut =>
    obtain ⟨hout, herr, hstatus, rfl⟩ := h
    refine ⟨_, ?_, ?_, herr, hstatus, rfl⟩
    · simp only [List.length_cons]
      omega
    · rw [← hout]
      simp
  | @takeErr _ _ _ _ _ rest hsink =>
    obtain ⟨n, d, hleft, -, v, hrest, rfl⟩ := h
    obtain ⟨u, rfl, hu⟩ := due_hear hsink hrest
    refine ⟨n + u, by omega, n, d, hleft, fun hnode => ?_, u, hu, rfl⟩
    cases rest with
    | sink => cases hnode
    | node => cases hsink
  | @behind _ _ stage stderr _ _ hrest ih =>
    obtain ⟨n, d, hleft, hroom, v, hdue, rfl⟩ := h
    have hend : stage.isEnded = true → d.out = [] := by
      intro hended
      cases stage with
      | running s => cases hended
      | ended r =>
        obtain ⟨-, rfl⟩ := hleft
        rfl
    have hend' : stage.isEnded = true → { d with err := stderr ++ d.err }.out = [] := hend
    obtain ⟨u, hu, hdue'⟩ := ih hend' hdue
    exact ⟨n + u, by omega, n, d, hleft, fun hsink => hroom (hrest.isSink.symm.trans hsink), u, hdue',
      rfl⟩

theorem Line.Due.not_jammed (h : l.Due prog cap last final w) : ¬ l.Jammed prog cap := by
  induction l generalizing last w with
  | sink => exact id
  | node stdin stage stderr rest ih =>
    obtain ⟨n, d, hleft, hroom, v, hrest, -⟩ := h
    rintro (⟨hsink, hfull, s, a, s', rfl, hprog⟩ | hjam)
    · obtain ⟨k, d', -, -, rfl⟩ := alone_complain hprog hleft
      have := hroom hsink
      simp only [List.length_cons] at this
      omega
    · exact ih hrest hjam

/-- A line that is over has come to it. -/
theorem Line.Due.of_over (h : l.Due prog cap last final w) (hover : l.isOver = true)
    (hlast : l.isSink = true → last.out = [] ∧ last.err = []) :
    l.collected = (final.out, final.err)
      ∧ (l.isSink = true → last.status = final.status)
      ∧ (l.isSink = false → l.exits.getLast? = some final.status) := by
  induction l generalizing last w with
  | sink stdout out err =>
    obtain ⟨hout, herr, hstatus, -⟩ := h
    obtain rfl : stdout = [] := by simpa [Line.isOver] using hover
    rw [(hlast rfl).1] at hout
    rw [(hlast rfl).2] at herr
    refine ⟨?_, fun _ => hstatus, fun hno => ?_⟩
    · simpa [Line.collected] using And.intro hout herr
    · cases hno
  | node stdin stage stderr rest ih =>
    obtain ⟨n, d, hleft, -, v, hrest, -⟩ := h
    simp only [Line.isOver, Bool.and_eq_true] at hover
    obtain ⟨⟨hended, herr⟩, hrestOver⟩ := hover
    cases stage with
    | running s => cases hended
    | ended r =>
      obtain ⟨-, rfl⟩ := hleft
      obtain ⟨hcol, hstatus, hexit⟩ := ih hrest hrestOver fun hsink => by
        refine ⟨rfl, ?_⟩
        rw [hsink] at herr
        simpa using herr
      refine ⟨hcol, fun hno => ?_, fun _ => ?_⟩
      · cases hno
      · cases hsink : rest.isSink with
        | true =>
          cases rest with
          | node => cases hsink
          | sink => exact congrArg some (hstatus hsink)
        | false =>
          have hlast := hexit hsink
          show (r :: rest.exits).getLast? = _
          rw [List.getLast?_cons, hlast]
          rfl

/-- A line that has not begun comes to what its processes do in turn. -/
theorem due_ofProcs {ps : List σ} (h : inTurn prog cap fuel ps input = some final)
    (hlast : last.out = input) : (Line.ofProcs ps : Line σ α ρ).Due prog cap last final
      (ps.length * fuel + final.out.length + final.err.length) := by
  induction ps generalizing input last with
  | nil => cases h
  | cons p ps ih =>
    cases ps with
    | nil =>
      refine ⟨fuel, final, ?_, fun hsink => ?_, final.out.length + final.err.length, ⟨rfl, rfl, rfl, ?_⟩,
        ?_⟩
      · show alone prog fuel p ([] ++ last.out) = some final
        rw [hlast]
        exact h
      · cases hsink
      · simp
      · simp only [List.length_singleton]
        omega
    | cons q ps =>
      obtain ⟨d, hd, hrest⟩ := Option.bind_eq_some_iff.mp h
      split at hrest
      · next hfits =>
        refine ⟨fuel, d, ?_, fun _ => ?_, _, ih hrest rfl, ?_⟩
        · show alone prog fuel p ([] ++ last.out) = some d
          rw [hlast]
          exact hd
        · simpa using hfits
        · simp only [List.length_cons, Nat.succ_mul]
          omega
      · cases hrest

end Due

/-! ## The chain -/

section Chain

variable {σ α ρ : Type} {prog : σ → Want σ α ρ} {broken : ρ} {cap fuel w : Nat} {c t : Chain σ α ρ}
  {final : Done α ρ} {input : List α}

/-- What the feeder has still to do. -/
def Chain.feeding (c : Chain σ α ρ) : Nat := (c.feed.map fun todo => todo.length + 1).getD 0

variable (prog cap) in
def Chain.Due (final : Done α ρ) (w : Nat) (c : Chain σ α ρ) : Prop :=
  c.line.isSink = false
    ∧ ∃ v, c.line.Due prog cap { final with out := c.feed.getD [] } final v ∧ w = v + c.feeding

theorem step_jammed {l : Label} (hjam : c.line.Jammed prog cap)
    (h : step prog broken cap c l = some t) : t.line.Jammed prog cap := by
  cases step_moves h with
  | line hc => exact hc.jammed hjam
  | close => exact hjam
  | lost => exact hjam
  | feed => exact push_jammed.mpr hjam

theorem exists_step (hcap : 0 < cap) (hjam : ¬ c.line.Jammed prog cap) (hover : c.line.isOver = false) :
    ∃ l, (step prog broken cap c l).isSome = true := by
  rcases moves_or_starves broken c.feed.isNone hcap hjam hover with
    (⟨i, hi⟩ | hout | herr) | ⟨hshut, hempty, hgone⟩
  · exact ⟨.turn i, by simpa [step] using hi⟩
  · exact ⟨.takeOut, by simpa [step] using hout⟩
  · exact ⟨.takeErr, by simpa [step] using herr⟩
  · refine ⟨.feed, ?_⟩
    unfold step
    cases hfeed : c.feed with
    | none =>
      rw [hfeed] at hshut
      cases hshut
    | some todo =>
      cases todo with
      | nil => rfl
      | cons a todo => simp [hgone, hempty, hcap]

/-- A line that is not over goes on unless a process before the last has filled the pipe it complains
into, and then it is never over. -/
theorem stuck_iff_jammed (hcap : 0 < cap) :
    (c.line.Jammed prog cap → ∀ ls t, run (step prog broken cap) c ls = some t → t.line.isOver = false)
      ∧ (¬ c.line.Jammed prog cap →
        c.line.isOver = true ∨ ∃ l, (step prog broken cap c l).isSome = true) := by
  constructor
  · intro hjam ls t hrun
    have hend : t.line.Jammed prog cap :=
      run_invariant (I := fun c => c.line.Jammed prog cap) (fun _ _ _ => step_jammed) hjam hrun
    exact hend.not_over
  · intro hjam
    cases hover : c.line.isOver with
    | true => exact Or.inl rfl
    | false => exact Or.inr (exists_step hcap hjam hover)

theorem step_due {l : Label} (h : c.Due prog cap final w) (hstep : step prog broken cap c l = some t) :
    ∃ v, v + 1 ≤ w ∧ t.Due prog cap final v := by
  obtain ⟨hsink, v, hdue, rfl⟩ := h
  cases step_moves hstep with
  | @line todo _ _ hc =>
    obtain ⟨u, hu, hdue'⟩ := hc.due (fun hnone => by simp [Option.isNone_iff_eq_none.mp hnone]) hdue
    refine ⟨_, ?_, hc.isSink.trans hsink, u, hdue', rfl⟩
    show u + (todo.map fun rest => rest.length + 1).getD 0 + 1
      ≤ v + (todo.map fun rest => rest.length + 1).getD 0
    omega
  | close => exact ⟨v + 0, Nat.le_refl _, hsink, v, hdue, rfl⟩
  | @lost a todo l hgone =>
    refine ⟨v + 0, ?_, hsink, v, due_of_gone hdue hgone, rfl⟩
    show v + 0 + 1 ≤ v + (todo.length + 1 + 1)
    omega
  | feed => exact ⟨v + _, Nat.le_refl _, push_isSink.trans hsink, v, due_push hdue, rfl⟩

theorem run_due {ls : List Label} (h : c.Due prog cap final w)
    (hrun : run (step prog broken cap) c ls = some t) :
    ∃ v, ls.length + v ≤ w ∧ t.Due prog cap final v := by
  induction ls generalizing c w with
  | nil =>
    obtain rfl := Option.some.inj hrun
    exact ⟨w, by simp, h⟩
  | cons l ls ih =>
    obtain ⟨u, hu, hrun⟩ := run_cons_iff.mp hrun
    obtain ⟨v, hv, hdue⟩ := step_due h hu
    obtain ⟨x, hx, hend⟩ := ih hdue hrun
    refine ⟨x, ?_, hend⟩
    simp only [List.length_cons]
    omega

/-- Under every schedule a line whose processes would each come to an end in turn comes to an end, with
what the last of them does in turn. -/
theorem line_runs_in_turn (hcap : 0 < cap) {ps : List σ}
    (hturn : inTurn prog cap fuel ps input = some final) {ls : List Label}
    (hrun : run (step prog broken cap) (Chain.start input ps) ls = some t) :
    ls.length ≤ input.length + 1 + (ps.length * fuel + final.out.length + final.err.length)
      ∧ (t.line.isOver = true → t.line.collected = (final.out, final.err)
        ∧ t.line.exits.getLast? = some final.status)
      ∧ (t.line.isOver = true ∨ ∃ l, (step prog broken cap t l).isSome = true) := by
  have hstart : (Chain.start input ps : Chain σ α ρ).Due prog cap final
      (ps.length * fuel + final.out.length + final.err.length + (input.length + 1)) := by
    refine ⟨?_, _, due_ofProcs hturn rfl, rfl⟩
    cases ps with
    | nil => cases hturn
    | cons => rfl
  obtain ⟨v, hv, hsink, u, hdue, -⟩ := run_due hstart hrun
  refine ⟨by omega, fun hover => ?_, (stuck_iff_jammed hcap).2 hdue.not_jammed⟩
  obtain ⟨hcol, -, hexit⟩ := hdue.of_over hover fun hno => by
    rw [hsink] at hno
    cases hno
  exact ⟨hcol, hexit hsink⟩

end Chain

end PipeLine
