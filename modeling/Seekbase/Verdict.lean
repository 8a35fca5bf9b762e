/-
# Seekbase.Verdict — the verdict on a segment, over any history of queries and streams.

An operator may set its capabilities from the arguments of a segment.  The policy is asked BEFORE the
arguments are read, so what it judges is what the instance has kept from the segment before; over a whole
history all verdicts are right iff that never matters: each segment's own capabilities get the verdict
that the declared ones get (`verdicts_right_iff`).

* `PerArgument` — `parse_args` sets the capabilities to what the tokens require;
* `reached`     — the segments whose check a compiler makes, with the instances as they are then;
* `trace`       — the same over a history, each use from the instances the one before has left.
-/
import Seekbase.Authorize

namespace Seekbase

section Verdict

variable {ι α β ρ : Type} {reg : Registry ι α} {p : Policy} {ctx : OperatorCtx} {store : Reads ρ}
  {sinkTable : α → Except PipeExc Unit} {h h' : Held ι} {key : String} {op : Operator ι α}
  {requires : List String → Option (List Cap)} {segment : List Char} {segments : List (List Char)}

/-! ## The contract -/

/-- `parse_args` sets the capabilities to what the tokens require, and leaves them where the tokens are
malformed; the `prepare` hook does not touch them. -/
structure PerArgument (op : Operator ι α) (requires : List String → Option (List Cap)) : Prop where
  sets : ∀ self tokens caps, requires tokens = some caps →
    op.caps (op.parseArgs self tokens).2 = caps
  keeps : ∀ self tokens, requires tokens = none →
    op.caps (op.parseArgs self tokens).2 = op.caps self
  hook : ∀ f, op.prepare = some f → ∀ self ctx args, op.caps (f self ctx args).2 = op.caps self

variable (reg key requires) in
/-- What the arguments of a segment of the operator require. -/
def required (segment : List Char) : Option (List Cap) :=
  match classify reg segment with
  | none => none
  | some (key', _, rest) =>
    if key' = key then
      match splitArgs rest with
      | .ok tokens => requires tokens
      | .error _ => none
    else none

variable (reg p key op requires) in
/-- The segment is accepted iff the policy allows what its own arguments require. -/
def Right (h : Held ι) (segment : List Char) : Prop :=
  ∀ caps, required reg key requires segment = some caps →
    (p.check op.name (op.caps (h key)) = .ok () ↔ p.Allows op.name caps)

variable (reg p key op requires) in
/-- What the arguments require gets the verdict of these capabilities. -/
def Accords (declared : List Cap) (segment : List Char) : Prop :=
  ∀ caps, required reg key requires segment = some caps →
    (p.Allows op.name declared ↔ p.Allows op.name caps)

theorem right_iff : Right reg p key op requires h segment ↔
    Accords reg p key op requires (op.caps (h key)) segment := by
  unfold Right Accords
  simp only [p.check_ok_iff]

/-! ## One segment -/

variable (reg p key op requires) in
/-- What a turn of a compiler's loop does to the operator's capabilities: nothing, or it sets those the
segment requires, having accepted it. -/
def Turn (h h' : Held ι) (segment : List Char) : Prop :=
  op.caps (h' key) = op.caps (h key)
    ∨ p.Allows op.name (op.caps (h key))
      ∧ required reg key requires segment = some (op.caps (h' key))

/-- A registry has one operator for a key. -/
theorem classify_unique (hreg : (key, op) ∈ reg.ops) {op' : Operator ι α} {rest : List Char}
    (hc : classify reg segment = some (key, op', rest)) : op' = op := by
  unfold classify at hc
  split at hc
  · rcases Option.map_eq_some_iff.mp hc with ⟨⟨k, o⟩, hr, heq⟩
    obtain ⟨rfl, rfl, -⟩ : k = key ∧ o = op' ∧ _ := by simpa using heq
    have hinj := List.inj_on_of_nodup_map reg.keysNodup (Registry.resolve_mem hr) hreg rfl
    exact (Prod.mk.inj hinj).2
  · exact absurd hc (by simp)

theorem readArgs_turn (hop : PerArgument op requires) (hreg : (key, op) ∈ reg.ops) {key' : String}
    {op' : Operator ι α} {rest : List Char} (hc : classify reg segment = some (key', op', rest))
    (ha : p.Allows op'.name (op'.caps (h key'))) :
    Turn reg p key op requires h (readArgs h key' op' rest).2 segment := by
  unfold readArgs
  match hs : splitArgs rest with
  | .error why => exact Or.inl rfl
  | .ok tokens =>
    dsimp only
    by_cases hk : key' = key
    · subst hk
      obtain rfl := classify_unique hreg hc
      simp only [Turn, Function.update_self]
      match hq : requires tokens with
      | none => exact Or.inl (hop.keeps _ _ hq)
      | some caps =>
        have hset := hop.sets (h key') tokens caps hq
        refine Or.inr ⟨ha, ?_⟩
        simp only [required, hc, if_true, hs, hset, hq]
    · exact Or.inl (by rw [Function.update_of_ne (Ne.symm hk)])

variable (ctx h) in
theorem prepareArgs_caps (hop : PerArgument op requires) (hreg : (key, op) ∈ reg.ops) {key' : String}
    {op' : Operator ι α} {rest : List Char} (hc : classify reg segment = some (key', op', rest))
    (args : α) : op.caps ((prepareArgs ctx h key' op' args).held key) = op.caps (h key) := by
  unfold prepareArgs
  match hf : op'.prepare with
  | none => rfl
  | some f =>
    by_cases hk : key' = key
    · subst hk
      obtain rfl := classify_unique hreg hc
      simp only [Function.update_self]
      exact hop.hook f hf _ _ _
    · simp only [Function.update_of_ne (Ne.symm hk)]

theorem stageSegment_turn (hop : PerArgument op requires) (hreg : (key, op) ∈ reg.ops) (h : Held ι)
    (segment : List Char) :
    Turn reg p key op requires h (stageSegment reg p ctx h segment).held segment := by
  unfold stageSegment
  match hc : classify reg segment with
  | none => exact Or.inl (by dsimp only; split <;> rfl)
  | some (key', op', rest) =>
    dsimp only
    rcases authorize_spec (p := p) h key' op' with ⟨hadm, ha⟩ | ⟨-, d, ha⟩ | ⟨-, -, e, ha, -⟩
    · have hread := readArgs_turn hop hreg hc hadm.1
      rw [ha]
      dsimp only
      match hr : readArgs h key' op' rest with
      | (.error e, h₁) =>
        rw [hr] at hread
        exact hread
      | (.ok args, h₁) =>
        rw [hr] at hread
        have hcaps := prepareArgs_caps ctx h₁ hop hreg hc args
        dsimp only
        match hp : prepareArgs ctx h₁ key' op' args with
        | ⟨.error e, h₂, ev⟩ =>
          rw [hp] at hcaps
          unfold Turn at hread ⊢
          rw [hcaps]
          exact hread
        | ⟨.ok args', h₂, ev⟩ =>
          rw [hp] at hcaps
          unfold Turn at hread ⊢
          rw [hcaps]
          exact hread
    · rw [ha]
      exact Or.inl rfl
    · rw [ha]
      exact Or.inl rfl

theorem streamSegment_turn (hop : PerArgument op requires) (hreg : (key, op) ∈ reg.ops) (h : Held ι)
    (segment : List Char) :
    Turn reg p key op requires h (streamSegment reg p h segment).held segment := by
  unfold streamSegment
  match hc : classify reg segment with
  | none => exact Or.inl rfl
  | some (key', op', rest) =>
    dsimp only
    rcases p.check_spec op'.name (op'.caps (h key')) with ⟨hal, ha⟩ | ⟨-, d, ha⟩
    · have hread := readArgs_turn hop hreg hc hal
      rw [ha]
      dsimp only
      match hr : readArgs h key' op' rest with
      | (.error e, h₁) | (.ok args, h₁) =>
        rw [hr] at hread
        exact hread
    · rw [ha]
      exact Or.inl rfl

/-- A turn that gets the verdict right leaves capabilities with the same verdict. -/
theorem Turn.verdict (ht : Turn reg p key op requires h h' segment)
    (hr : Right reg p key op requires h segment) :
    p.Allows op.name (op.caps (h' key)) ↔ p.Allows op.name (op.caps (h key)) := by
  rcases ht with heq | ⟨ha, hreq⟩
  · rw [heq]
  · exact (right_iff.mp hr _ hreq).symm

/-! ## A text -/

/-- The segments whose check a loop makes, with the instances as they are then. -/
def reached (one : Held ι → List Char → Outcome ι α β) :
    Held ι → List (List Char) → List (Held ι × List Char)
  | _, [] => []
  | h, segment :: segments =>
    (h, segment) ::
      match one h segment with
      | ⟨.error _, _, _⟩ => []
      | ⟨.ok _, h, _⟩ => reached one h segments

variable (reg p key op requires) in
def AllRight (vs : List (Held ι × List Char)) : Prop :=
  ∀ v ∈ vs, Right reg p key op requires v.1 v.2

variable (reg p key op requires) in
def AllAccord (declared : List Cap) (vs : List (Held ι × List Char)) : Prop :=
  ∀ v ∈ vs, Accords reg p key op requires declared v.2

theorem AllAccord.congr {a b : List Cap} (hab : p.Allows op.name a ↔ p.Allows op.name b)
    (vs : List (Held ι × List Char)) :
    AllAccord reg p key op requires a vs ↔ AllAccord reg p key op requires b vs := by
  unfold AllAccord Accords
  simp only [hab]

/-- Over a text: all verdicts are right iff each segment agrees with what the instance held before it,
and then the instance ends with the verdict it had. -/
theorem reached_right {one : Held ι → List Char → Outcome ι α β}
    (hone : ∀ h segment, Turn reg p key op requires h (one h segment).held segment) (h : Held ι)
    (segments : List (List Char)) :
    (AllRight reg p key op requires (reached one h segments) ↔
        AllAccord reg p key op requires (op.caps (h key)) (reached one h segments))
      ∧ (AllRight reg p key op requires (reached one h segments) →
        (p.Allows op.name (op.caps ((overSegments one h segments).held key)) ↔
          p.Allows op.name (op.caps (h key)))) := by
  induction segments generalizing h with
  | nil => exact ⟨by simp [AllRight, AllAccord, reached], fun _ => Iff.rfl⟩
  | cons segment segments ih =>
    have hturn := hone h segment
    unfold AllRight AllAccord at ih ⊢
    simp only [reached, List.forall_mem_cons]
    match ho : one h segment with
    | ⟨.error e, h₁, ev⟩ =>
      rw [ho] at hturn
      refine ⟨by simp [right_iff], fun hr => ?_⟩
      rw [overSegments_error ho]
      exact hturn.verdict hr.1
    | ⟨.ok x, h₁, ev⟩ =>
      rw [ho] at hturn
      rcases ih h₁ with ⟨hiff, hend⟩
      constructor
      · rw [right_iff]
        refine and_congr_right fun hagree => hiff.trans ?_
        exact AllAccord.congr (hturn.verdict (right_iff.mpr hagree)) _
      · rintro ⟨hr, hrest⟩
        rw [overSegments_ok ho]
        exact (hend hrest).trans (hturn.verdict hr)

/-! ## A history -/

/-- A use of the store: a query in its window, or the start of a stream. -/
inductive Use where
  | query (ctx : OperatorCtx) (sql : List Char) (params : List Val)
  | stream (pipeline : List Char)

variable (reg p) in
/-- The segments whose check a use makes. -/
def Use.reached (h : Held ι) : Use → List (Held ι × List Char)
  | .query ctx sql _ =>
    match splitPipeline (strip sql) with
    | none => []
    | some segments => Seekbase.reached (stageSegment reg p ctx) h segments
  | .stream pipeline =>
    match splitPipeline pipeline with
    | none => []
    | some segments =>
      if segments.length < 2 then [] else Seekbase.reached (streamSegment reg p) h segments

variable (reg p store sinkTable) in
/-- What the instances keep after a use. -/
def Use.held (h : Held ι) : Use → Held ι
  | .query ctx sql params => (Seekbase.query reg p ctx store h sql params).held
  | .stream pipeline => (streamCompile reg p sinkTable h pipeline).held

variable (reg p store sinkTable) in
/-- The checks of a history, each use from the instances that the one before has left. -/
def trace : Held ι → List Use → List (Held ι × List Char)
  | _, [] => []
  | h, u :: us => u.reached reg p h ++ trace (u.held reg p store sinkTable h) us

theorem query_held {sql : List Char} {params : List Val}
    (hsplit : splitPipeline (strip sql) = some segments) :
    (query reg p ctx store h sql params).held = (stage reg p ctx h segments).held := by
  by_cases hplain : ∀ segment, segments = [segment] → classify reg segment ≠ none
  · rw [query_compiled store params hsplit hplain, compile]
    rcases stage reg p ctx h segments with ⟨e | staged, h₁, ev⟩
    · rfl
    · show (runPlanned store ⟨planOf h₁ params staged, h₁, ev⟩ : Outcome ι α ρ).held = h₁
      cases planOf h₁ params staged <;> rfl
  · -- a plain statement touches no instance
    obtain ⟨segment, rfl, hnone⟩ : ∃ segment, segments = [segment] ∧ classify reg segment = none := by
      simpa using hplain
    have htext : strip sql ≠ [] := by
      intro hnil
      have hempty : splitPipeline [] = none := by decide
      rw [hnil, hempty] at hsplit
      exact absurd hsplit (by simp)
    have hquery : (query reg p ctx store h sql params).held = h := by
      unfold query
      simp only [if_neg htext, hsplit, List.map_cons, List.map_nil, hnone]
    rw [hquery]
    have hone : (stageSegment reg p ctx h segment).held = h := by
      unfold stageSegment
      rw [hnone]
      dsimp only
      split <;> rfl
    rcases ho : stageSegment reg p ctx h segment with ⟨e | x, h₁, ev⟩
    · rw [stage, overSegments_error ho]
      rw [ho] at hone
      exact hone.symm
    · rw [stage, overSegments_ok ho]
      rw [ho] at hone
      exact hone.symm

theorem streamCompile_held {pipeline : List Char}
    (hsplit : splitPipeline pipeline = some segments) (hlen : ¬ segments.length < 2) :
    (streamCompile reg p sinkTable h pipeline).held
      = (overSegments (streamSegment reg p) h segments).held := by
  unfold streamCompile
  rw [hsplit]
  dsimp only
  rw [if_neg hlen]
  match overSegments (streamSegment reg p) h segments with
  | ⟨.error e, h₁, ev⟩ => rfl
  | ⟨.ok calls, h₁, ev⟩ => rfl

variable (p store sinkTable) in
/-- One use, by the compiler it goes to. -/
theorem use_right (hop : PerArgument op requires) (hreg : (key, op) ∈ reg.ops) (h : Held ι) (u : Use) :
    (AllRight reg p key op requires (u.reached reg p h) ↔
        AllAccord reg p key op requires (op.caps (h key)) (u.reached reg p h))
      ∧ (AllRight reg p key op requires (u.reached reg p h) →
        (p.Allows op.name (op.caps (u.held reg p store sinkTable h key)) ↔
          p.Allows op.name (op.caps (h key)))) := by
  have hnil : (AllRight reg p key op requires [] ↔
      AllAccord reg p key op requires (op.caps (h key)) []) := by simp [AllRight, AllAccord]
  match u with
  | .query ctx sql params =>
    match hsplit : splitPipeline (strip sql) with
    | none =>
      have hheld : (query reg p ctx store h sql params).held = h := by
        unfold query
        simp only [hsplit]
        split <;> rfl
      simp only [Use.reached, Use.held, hsplit, hheld]
      exact ⟨hnil, fun _ => trivial⟩
    | some segments =>
      simp only [Use.reached, Use.held, hsplit, query_held hsplit]
      exact reached_right (stageSegment_turn hop hreg) h segments
  | .stream pipeline =>
    match hsplit : splitPipeline pipeline with
    | none =>
      have hheld : (streamCompile reg p sinkTable h pipeline).held = h := by
        unfold streamCompile
        rw [hsplit]
      simp only [Use.reached, Use.held, hsplit, hheld]
      exact ⟨hnil, fun _ => trivial⟩
    | some segments =>
      by_cases hlen : segments.length < 2
      · have hheld : (streamCompile reg p sinkTable h pipeline).held = h := by
          unfold streamCompile
          rw [hsplit]
          dsimp only
          rw [if_pos hlen]
        simp only [Use.reached, Use.held, hsplit, hheld, if_pos hlen]
        exact ⟨hnil, fun _ => trivial⟩
      · simp only [Use.reached, Use.held, hsplit, streamCompile_held hsplit hlen, if_neg hlen]
        exact reached_right (streamSegment_turn hop hreg) h segments

/-- BY ARGUMENT.  Of an operator whose `parse_args` sets its capabilities, over every history of queries
and streams: all verdicts are right iff each segment's arguments require capabilities that get the
verdict of those the instance has at the beginning. -/
theorem verdicts_right_iff (hop : PerArgument op requires) (hreg : (key, op) ∈ reg.ops) (h : Held ι)
    (us : List Use) :
    AllRight reg p key op requires (trace reg p store sinkTable h us) ↔
      AllAccord reg p key op requires (op.caps (h key)) (trace reg p store sinkTable h us) := by
  induction us generalizing h with
  | nil => simp [AllRight, AllAccord, trace]
  | cons u us ih =>
    rcases use_right p store sinkTable hop hreg h u with ⟨hiff, hend⟩
    have hright : AllRight reg p key op requires (trace reg p store sinkTable h (u :: us)) ↔
        AllRight reg p key op requires (u.reached reg p h) ∧ AllRight reg p key op requires
          (trace reg p store sinkTable (u.held reg p store sinkTable h) us) := by
      simp only [AllRight, trace, List.forall_mem_append]
    have hagree : AllAccord reg p key op requires (op.caps (h key))
        (trace reg p store sinkTable h (u :: us)) ↔
        AllAccord reg p key op requires (op.caps (h key)) (u.reached reg p h)
          ∧ AllAccord reg p key op requires (op.caps (h key))
            (trace reg p store sinkTable (u.held reg p store sinkTable h) us) := by
      simp only [AllAccord, trace, List.forall_mem_append]
    rw [hright, hagree, ← hiff]
    refine and_congr_right fun hr => (ih _).trans ?_
    exact AllAccord.congr (hend hr) _

end Verdict

/-! ## An operator of the documented kind -/

/-- `find <pat>` is pure, `find <pat> <path>` reads files. -/
def find : Operator (List Cap) Unit where
  name := "find"
  bounded := true
  caps self := self
  parseArgs self tokens :=
    match tokens with
    | [_] => (.ok (), [.pure])
    | [_, _] => (.ok (), [.fsRead])
    | _ => (.error (.usage "find <pat> [<path>]"), self)
  prepare := none
  source := none
  optimizeDuck := some (.middle fun _ prev _ => .ok ("SELECT * FROM " ++ prev, []))
  runDuck := none
  optimizeBash := none
  runBash := false

def findRequires : List String → Option (List Cap)
  | [_] => some [.pure]
  | [_, _] => some [.fsRead]
  | _ => none

theorem find_perArgument : PerArgument find findRequires where
  sets self tokens caps h := by
    match tokens with
    | [] | _ :: _ :: _ :: _ => simp [findRequires] at h
    | [_] | [_, _] => exact Option.some.inj h
  keeps self tokens h := by
    match tokens with
    | [] | _ :: _ :: _ :: _ => rfl
    | [_] | [_, _] => simp [findRequires] at h
  hook f h := by simp [find] at h

def finds : Registry (List Cap) Unit := ⟨[("find", find)], by simp, by decide⟩

/-- A mode that reads files, with that capability denied. -/
def noFiles : Policy := ⟨.readOnly, [], [], [.fsRead]⟩

def findUse (sql : String) : Use := .query notesCtx sql.toList []

/-- Two uses of the pure kind. -/
theorem verdicts_right_pure : AllRight finds noFiles "find" find findRequires
    (trace finds noFiles emptyReads (fun _ => .ok ()) (fun _ => [.pure])
      [findUse "SELECT 1 AS a | find 'x'", findUse "SELECT 2 AS a | find 'y'"]) := by
  refine (verdicts_right_iff find_perArgument (by simp [finds]) _ _).mpr ?_
  have hall : ∀ v ∈ trace finds noFiles emptyReads (fun _ => .ok ()) (fun _ => [.pure])
      [findUse "SELECT 1 AS a | find 'x'", findUse "SELECT 2 AS a | find 'y'"],
      required finds "find" findRequires v.2 = none
        ∨ required finds "find" findRequires v.2 = some [.pure] := by decide +kernel
  intro v hv caps hr
  rcases hall v hv with hnone | hpure
  · rw [hnone] at hr
    exact absurd hr (by simp)
  · obtain rfl := Option.some.inj (hpure.symm.trans hr)
    exact Iff.rfl

/-- The first use reads files and is let through; the second is pure and is refused for it. -/
theorem verdicts_swapped :
    ((trace finds noFiles emptyReads (fun _ => .ok ()) (fun _ => [.pure])
      [findUse "SELECT 1 AS a | find 'x' 'p'", findUse "SELECT 1 AS a | find 'x'"]).map fun v =>
        (required finds "find" findRequires v.2, decide (Refused finds noFiles v.1 v.2)))
      = [(none, false), (some [.fsRead], false), (none, false), (some [.pure], true)]
    ∧ ¬ noFiles.Allows "find" [.fsRead] ∧ noFiles.Allows "find" [.pure] := by
  refine ⟨?_, ?_, ?_⟩
  · decide +kernel
  · decide
  · decide

end Seekbase
