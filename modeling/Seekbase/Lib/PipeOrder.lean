/-
# Seekbase.Lib.PipeOrder — what a line of processes comes to does not depend on its schedule.

Processes that never end, or that are ended because nobody reads them, have no outcome of their own, so a
line of them is not what its processes do in turn.  What can be said of each is how far it has to go for
the line to come to its end, and that much it goes in every run.

* `track`        — a process up to some step, on input that may go on;
* `Line.Comes`   — the line, left alone, comes to this end;
* `comes_iff`    — a step forward or backward changes nothing in that;
* `schedule_free` — two runs that end have come to the same, whatever the pipes hold.
-/
import Seekbase.Lib.PipeLine

namespace PipeLine

open Transition

section Track

variable {σ α ρ : Type}

/-- What a process has done up to some step, and its status if it has ended there. -/
structure Track (α ρ : Type) where
  out : List α
  err : List α
  status : Option ρ

variable (prog : σ → Want σ α ρ)

/-- A process up to a step, or up to its end if that is sooner.  Unless the input `ends`, there is no
telling what the process does where it has read all of it. -/
def track : Nat → σ → List α → Bool → Option (Track α ρ)
  | 0, _, _, _ => some ⟨[], [], none⟩
  | n + 1, s, input, ends =>
    match prog s with
    | .go s => track n s input ends
    | .read k =>
      match input with
      | a :: input => track n (k (some a)) input ends
      | [] => if ends then track n (k none) [] true else none
    | .write a s => (track n s input ends).map fun d => { d with out := a :: d.out }
    | .complain a s => (track n s input ends).map fun d => { d with err := a :: d.err }
    | .exit r => some ⟨[], [], some r⟩

/-- A process that comes to this, sooner or later. -/
def Stage.Reaches (input : List α) (ends : Bool) (d : Track α ρ) : Stage σ ρ → Prop
  | .running s => ∃ n, track prog n s input ends = some d
  | .ended r => d = ⟨[], [], some r⟩

/-- The line comes to `final`, each process going as far as that takes.  `last` is how far the process
before it goes, with whatever of its complaints has not been read. -/
def Line.Comes (last : Track α ρ) (final : Done α ρ) : Line σ α ρ → Prop
  | .sink stdout out err =>
    out ++ stdout ++ last.out = final.out ∧ err ++ last.err = final.err
      ∧ last.status = some final.status
  | .node stdin stage stderr rest =>
    ∃ d, stage.Reaches prog (stdin ++ last.out) last.status.isSome d
      ∧ rest.Comes { d with err := stderr ++ d.err } final

end Track

section Reaches

variable {σ α ρ : Type} {prog : σ → Want σ α ρ} {broken : ρ} {cap : Nat} {l m : Line σ α ρ}
  {s s' : σ} {input : List α} {a : α} {d last last' : Track α ρ} {final : Done α ρ} {ends : Bool}

/-- What a process does before its input is all read, it does whatever else comes in. -/
theorem track_more {n : Nat} (more : List α) (ends : Bool)
    (h : track prog n s input false = some d) : track prog n s (input ++ more) ends = some d := by
  induction n generalizing s input d with
  | zero => exact h
  | succ n ih =>
    cases hprog : prog s with
    | go s' =>
      simp only [track, hprog] at h ⊢
      exact ih h
    | read k =>
      cases input with
      | nil => simp [track, hprog] at h
      | cons a input =>
        simp only [track, hprog, List.cons_append] at h ⊢
        exact ih h
    | write a s' =>
      simp only [track, hprog] at h ⊢
      obtain ⟨d', hd', rfl⟩ := Option.map_eq_some_iff.mp h
      rw [ih hd']
      rfl
    | complain a s' =>
      simp only [track, hprog] at h ⊢
      obtain ⟨d', hd', rfl⟩ := Option.map_eq_some_iff.mp h
      rw [ih hd']
      rfl
    | exit r =>
      simp only [track, hprog] at h ⊢
      exact h

theorem Stage.Reaches.more {stage : Stage σ ρ} (more : List α) (ends : Bool)
    (h : stage.Reaches prog input false d) : stage.Reaches prog (input ++ more) ends d := by
  cases stage with
  | ended r => exact h
  | running s =>
    obtain ⟨n, hn⟩ := h
    exact ⟨n, track_more more ends hn⟩

/-- A process may be left where it is. -/
theorem reaches_here : (Stage.running s).Reaches prog input ends (⟨[], [], none⟩ : Track α ρ) :=
  ⟨0, rfl⟩

theorem reaches_go (hprog : prog s = .go s') : (Stage.running s).Reaches prog input ends d
    ↔ (Stage.running s').Reaches prog input ends d := by
  constructor
  · rintro ⟨n, hn⟩
    cases n with
    | zero => exact ⟨0, hn⟩
    | succ n => exact ⟨n, by simpa [track, hprog] using hn⟩
  · rintro ⟨n, hn⟩
    exact ⟨n + 1, by simpa [track, hprog] using hn⟩

theorem reaches_read {k : Option α → σ} (hprog : prog s = .read k) :
    (Stage.running s).Reaches prog (a :: input) ends d
      ↔ (Stage.running (k (some a))).Reaches prog input ends d := by
  constructor
  · rintro ⟨n, hn⟩
    cases n with
    | zero => exact ⟨0, hn⟩
    | succ n => exact ⟨n, by simpa [track, hprog] using hn⟩
  · rintro ⟨n, hn⟩
    exact ⟨n + 1, by simpa [track, hprog] using hn⟩

theorem reaches_readEnd {k : Option α → σ} (hprog : prog s = .read k) :
    (Stage.running s).Reaches prog [] true d ↔ (Stage.running (k none)).Reaches prog [] true d := by
  constructor
  · rintro ⟨n, hn⟩
    cases n with
    | zero => exact ⟨0, hn⟩
    | succ n => exact ⟨n, by simpa [track, hprog] using hn⟩
  · rintro ⟨n, hn⟩
    exact ⟨n + 1, by simpa [track, hprog] using hn⟩

/-- A process that writes goes on to do so, unless it is left here. -/
theorem reaches_write (hprog : prog s = .write a s') : (Stage.running s).Reaches prog input ends d
    ↔ d = ⟨[], [], none⟩
      ∨ ∃ d', (Stage.running s').Reaches prog input ends d' ∧ d = { d' with out := a :: d'.out } := by
  constructor
  · rintro ⟨n, hn⟩
    cases n with
    | zero => exact Or.inl (Option.some.inj hn).symm
    | succ n =>
      simp only [track, hprog] at hn
      obtain ⟨d', hd', rfl⟩ := Option.map_eq_some_iff.mp hn
      exact Or.inr ⟨d', ⟨n, hd'⟩, rfl⟩
  · rintro (rfl | ⟨d', ⟨n, hn⟩, rfl⟩)
    · exact reaches_here
    · exact ⟨n + 1, by simp [track, hprog, hn]⟩

theorem reaches_complain (hprog : prog s = .complain a s') :
    (Stage.running s).Reaches prog input ends d
      ↔ d = ⟨[], [], none⟩
        ∨ ∃ d', (Stage.running s').Reaches prog input ends d' ∧ d = { d' with err := a :: d'.err } := by
  constructor
  · rintro ⟨n, hn⟩
    cases n with
    | zero => exact Or.inl (Option.some.inj hn).symm
    | succ n =>
      simp only [track, hprog] at hn
      obtain ⟨d', hd', rfl⟩ := Option.map_eq_some_iff.mp hn
      exact Or.inr ⟨d', ⟨n, hd'⟩, rfl⟩
  · rintro (rfl | ⟨d', ⟨n, hn⟩, rfl⟩)
    · exact reaches_here
    · exact ⟨n + 1, by simp [track, hprog, hn]⟩

theorem reaches_exit {r : ρ} (hprog : prog s = .exit r) : (Stage.running s).Reaches prog input ends d
    ↔ d = ⟨[], [], none⟩ ∨ d = ⟨[], [], some r⟩ := by
  constructor
  · rintro ⟨n, hn⟩
    cases n with
    | zero => exact Or.inl (Option.some.inj hn).symm
    | succ n => exact Or.inr (by simpa [track, hprog] using hn.symm)
  · rintro (rfl | rfl)
    · exact reaches_here
    · exact ⟨1, by simp [track, hprog]⟩

/-! ## Lines -/

/-- A line whose first process has ended is told nothing. -/
theorem comes_of_gone (hgone : l.gone = true) :
    l.Comes prog last final ↔ l.Comes prog last' final := by
  cases l with
  | sink => cases hgone
  | node stdin stage stderr rest =>
    cases stage with
    | running s => cases hgone
    | ended r => exact Iff.rfl

/-- Behind a process that is left where it is stands another, which needs no more of it: no more input,
no end of its input, and none of its complaints. -/
theorem Line.Comes.beyond (h : l.Comes prog ⟨[], input, none⟩ final) (d : Track α ρ)
    (hout : d.out = []) : l.Comes prog d final := by
  cases l with
  | sink => cases h.2.2
  | node stdin stage stderr rest =>
    obtain ⟨e, he, hrest⟩ := h
    refine ⟨e, ?_, hrest⟩
    rw [hout]
    simpa using he.more [] d.status.isSome

theorem Line.Comes.push_beyond (h : l.Comes prog ⟨[], input, none⟩ final) (a : α) :
    (l.push a).Comes prog ⟨[], input, none⟩ final := by
  cases l with
  | sink => cases h.2.2
  | node stdin stage stderr rest =>
    obtain ⟨e, he, hrest⟩ := h
    refine ⟨e, ?_, hrest⟩
    simpa using he.more [a] false

theorem comes_push : (l.push a).Comes prog last final
    ↔ l.Comes prog { last with out := a :: last.out } final := by
  cases l with
  | sink stdout out err => simp [Line.push, Line.Comes]
  | node stdin stage stderr rest => simp [Line.push, Line.Comes]

theorem comes_hear {stderr : List α} (hsink : l.isSink = true) :
    (l.hear a).Comes prog { d with err := stderr ++ d.err } final
      ↔ l.Comes prog { d with err := a :: stderr ++ d.err } final := by
  cases l with
  | node => cases hsink
  | sink stdout out err => simp [Line.hear, Line.Comes]

/-- A step in the line neither decides nor changes what it comes to. -/
theorem comes_iff {shut : Bool} (hc : Changes prog broken cap shut l m)
    (hshut : shut = true → last.out = [] ∧ last.status.isSome = true) :
    l.Comes prog last final ↔ m.Comes prog last final := by
  induction hc generalizing last with
  | go hprog => exact exists_congr fun d => and_congr_left' (reaches_go hprog)
  | read hprog => exact exists_congr fun d => and_congr_left' (reaches_read hprog)
  | readEnd hprog =>
    refine exists_congr fun d => and_congr_left' ?_
    rw [(hshut rfl).1, (hshut rfl).2]
    exact reaches_readEnd hprog
  | killed hprog hgone =>
    constructor
    · rintro ⟨d, -, hrest⟩
      exact ⟨_, rfl, (comes_of_gone hgone).mp hrest⟩
    · rintro ⟨d, -, hrest⟩
      exact ⟨_, reaches_here, (comes_of_gone hgone).mp hrest⟩
  | write hprog =>
    constructor
    · rintro ⟨d, hd, hrest⟩
      rcases (reaches_write hprog).mp hd with rfl | ⟨d', hd', rfl⟩
      · exact ⟨_, reaches_here, hrest.push_beyond _⟩
      · exact ⟨d', hd', comes_push.mpr hrest⟩
    · rintro ⟨d, hd, hrest⟩
      exact ⟨_, (reaches_write hprog).mpr (Or.inr ⟨d, hd, rfl⟩), comes_push.mp hrest⟩
  | complain hprog =>
    constructor
    · rintro ⟨d, hd, hrest⟩
      rcases (reaches_complain hprog).mp hd with rfl | ⟨d', hd', rfl⟩
      · exact ⟨_, reaches_here, hrest.beyond _ rfl⟩
      · refine ⟨d', hd', ?_⟩
        rw [List.append_assoc]
        exact hrest
    · rintro ⟨d, hd, hrest⟩
      refine ⟨_, (reaches_complain hprog).mpr (Or.inr ⟨d, hd, rfl⟩), ?_⟩
      rw [List.append_assoc] at hrest
      exact hrest
  | exit hprog =>
    constructor
    · rintro ⟨d, hd, hrest⟩
      rcases (reaches_exit hprog).mp hd with rfl | rfl
      · exact ⟨_, rfl, hrest.beyond _ rfl⟩
      · exact ⟨_, rfl, hrest⟩
    · rintro ⟨d, rfl, hrest⟩
      exact ⟨_, (reaches_exit hprog).mpr (Or.inr rfl), hrest⟩
  | takeOut => simp [Line.Comes]
  | takeErr hsink =>
    refine exists_congr fun d => and_congr_right fun _ => ?_
    exact (comes_hear hsink).symm
  | @behind _ _ stage stderr _ _ _ ih =>
    refine exists_congr fun d => and_congr_right fun hd => ?_
    have hend : stage.isEnded = true →
        (⟨d.out, stderr ++ d.err, d.status⟩ : Track _ _).out = [] ∧ d.status.isSome = true := by
      intro hended
      cases stage with
      | running s => cases hended
      | ended r =>
        obtain rfl := hd
        exact ⟨rfl, rfl⟩
    exact ih hend

/-- A line that is over has come to what it has come to. -/
theorem comes_over (hover : l.isOver = true) (hlast : l.isSink = true → last.out = [] ∧ last.err = []) :
    l.Comes prog last final ↔ l.collected = (final.out, final.err)
      ∧ l.exits.getLast?.or last.status = some final.status := by
  induction l generalizing last with
  | sink stdout out err =>
    obtain rfl : stdout = [] := by simpa [Line.isOver] using hover
    simp [Line.Comes, Line.collected, Line.exits, hlast rfl, and_assoc]
  | node stdin stage stderr rest ih =>
    simp only [Line.isOver, Bool.and_eq_true] at hover
    obtain ⟨⟨hended, herr⟩, hrest⟩ := hover
    cases stage with
    | running s => cases hended
    | ended r =>
      have hread : rest.isSink = true → stderr = [] := by
        intro hsink
        rw [hsink] at herr
        simpa using herr
      have hcomes : (Line.node stdin (.ended r) stderr rest).Comes prog last final
          ↔ rest.Comes prog ⟨[], stderr, some r⟩ final := by
        simp [Line.Comes, Stage.Reaches]
      rw [hcomes, ih hrest fun hsink => ⟨rfl, hread hsink⟩]
      show _ ↔ rest.collected = _ ∧ (r :: rest.exits).getLast?.or last.status = _
      rw [List.getLast?_cons]
      cases rest.exits.getLast? <;> rfl

end Reaches

/-! ## Chains -/

section Chain

variable {σ α ρ : Type} {prog : σ → Want σ α ρ} {broken broken' : ρ} {cap cap' : Nat}
  {c t t' : Chain σ α ρ} {final : Done α ρ}

variable (prog) in
/-- The chain comes to `final`. -/
def Chain.Comes (final : Done α ρ) (c : Chain σ α ρ) : Prop :=
  c.line.Comes prog ⟨c.feed.getD [], [], some final.status⟩ final

theorem step_comes {l : Label} (h : step prog broken cap c l = some t) :
    c.Comes prog final ↔ t.Comes prog final := by
  cases step_moves h with
  | line hc => exact comes_iff hc fun hnone => ⟨by simp [Option.isNone_iff_eq_none.mp hnone], rfl⟩
  | close => exact Iff.rfl
  | lost hgone => exact comes_of_gone hgone
  | @feed a todo l =>
    have hpush : (l.push a).Comes prog ⟨todo, [], some final.status⟩ final ↔ _ := comes_push
    exact hpush.symm

theorem run_comes {ls : List Label} (hrun : run (step prog broken cap) c ls = some t) :
    c.Comes prog final ↔ t.Comes prog final := by
  induction ls generalizing c with
  | nil =>
    obtain rfl := Option.some.inj hrun
    exact Iff.rfl
  | cons l ls ih =>
    obtain ⟨u, hu, hrun⟩ := run_cons_iff.mp hrun
    exact (step_comes hu).trans (ih hrun)

theorem step_isSink {l : Label} (h : step prog broken cap c l = some t) :
    t.line.isSink = c.line.isSink := by
  cases step_moves h with
  | line hc => exact hc.isSink
  | close => rfl
  | lost => rfl
  | feed => exact push_isSink

theorem exists_exit {l : Line σ α ρ} (hover : l.isOver = true) (hsink : l.isSink = false) :
    ∃ r, l.exits.getLast? = some r := by
  cases l with
  | sink => cases hsink
  | node stdin stage stderr rest =>
    simp only [Line.isOver, Bool.and_eq_true] at hover
    cases stage with
    | running s => cases hover.1.1
    | ended r => exact ⟨_, List.getLast?_cons⟩

theorem chain_comes_over (hover : t.line.isOver = true) (hsink : t.line.isSink = false) :
    t.Comes prog final ↔ t.line.collected = (final.out, final.err)
      ∧ t.line.exits.getLast? = some final.status := by
  unfold Chain.Comes
  rw [comes_over hover fun hno => by rw [hsink] at hno; cases hno]
  obtain ⟨r, hr⟩ := exists_exit hover hsink
  rw [hr]
  rfl

/-- Two runs of one chain that both come to an end come to the same one, in whatever order its processes
took their turns and however much its pipes hold. -/
theorem schedule_free (hsink : c.line.isSink = false) {ls ls' : List Label}
    (hrun : run (step prog broken cap) c ls = some t) (hover : t.line.isOver = true)
    (hrun' : run (step prog broken' cap') c ls' = some t') (hover' : t'.line.isOver = true) :
    t.line.collected = t'.line.collected ∧ t.line.exits.getLast? = t'.line.exits.getLast? := by
  have hnode : t.line.isSink = false :=
    run_invariant (I := fun c => c.line.isSink = false) (fun _ _ _ h hs => (step_isSink hs).trans h)
      hsink hrun
  have hnode' : t'.line.isSink = false :=
    run_invariant (I := fun c => c.line.isSink = false) (fun _ _ _ h hs => (step_isSink hs).trans h)
      hsink hrun'
  obtain ⟨r, hr⟩ := exists_exit hover hnode
  have hcomes : t.Comes prog ⟨t.line.collected.1, t.line.collected.2, r⟩ :=
    (chain_comes_over hover hnode).mpr ⟨rfl, hr⟩
  have hcomes' := (run_comes hrun').mp ((run_comes hrun).mpr hcomes)
  obtain ⟨hcol, hexit⟩ := (chain_comes_over hover' hnode').mp hcomes'
  exact ⟨hcol.symm, hr.trans hexit.symm⟩

end Chain

end PipeLine
