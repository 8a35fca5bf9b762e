/-
# Seekbase.Authorize — what has been done by the time a pipeline is refused.

The policy is asked segment by segment, and what is read before the refused one has been parsed and
PREPARED by then.  A text with a refused segment runs nothing and ends in `PermissionDenied` iff the
segments up to the first that is denied go through quietly (`denied_runs_nothing`): each is plain SQL, or
an operator without a `prepare` hook whose arguments are well formed.

* `Refused`, `ArgsDenied` — denied by the policy, or by the operator's own parser;
* `Quiet`, `AllQuiet`     — goes through, and nothing is done for it;
* `Outcome.Silent`        — denied, and nothing was done before.
-/
import Seekbase.Pipeline
import Seekbase.Store

namespace Seekbase

section Authorize

variable {ι α β : Type} {reg : Registry ι α} {p : Policy} {ctx : OperatorCtx} {h : Held ι}
  {segment : List Char} {key : String} {op : Operator ι α} {rest : List Char}

/-! ## The instances -/

variable (reg ctx) in
/-- What the instances keep after a segment that is read to its end. -/
def afterSegment (h : Held ι) (segment : List Char) : Held ι :=
  match classify reg segment with
  | none => h
  | some (key, op, rest) =>
    match readArgs h key op rest with
    | (.error _, h) => h
    | (.ok args, h) => (prepareArgs ctx h key op args).held

variable (reg ctx) in
def after (h : Held ι) (segments : List (List Char)) : Held ι :=
  segments.foldl (afterSegment reg ctx) h

/-! ## Denied first -/

variable (reg p) in
/-- The policy refuses the segment's operator. -/
def Refused (h : Held ι) (segment : List Char) : Prop :=
  ∃ key op rest, classify reg segment = some (key, op, rest) ∧ ¬ p.Allows op.name (op.caps (h key))

instance : Decidable (Refused reg p h segment) :=
  match hc : classify reg segment with
  | none => isFalse fun ⟨_, _, _, hs, _⟩ => by simp [hc] at hs
  | some (key, op, rest) =>
    decidable_of_iff (¬ p.Allows op.name (op.caps (h key))) <| by
      constructor
      · exact fun hno => ⟨key, op, rest, hc, hno⟩
      · rintro ⟨key', op', rest', hs, hno⟩
        rw [hc] at hs
        obtain ⟨rfl, rfl, -⟩ : key = key' ∧ op = op' ∧ rest = rest' := by simpa using hs
        exact hno

variable (p) in
/-- A bounded query takes the operator and goes on to its arguments. -/
def Admitted (h : Held ι) (key : String) (op : Operator ι α) : Prop :=
  p.Allows op.name (op.caps (h key)) ∧ op.bounded = true ∧ op.name ≠ "ingest"

variable (reg p) in
/-- The operator's own parser raises `PermissionDenied`. -/
def ArgsDenied (h : Held ι) (segment : List Char) : Prop :=
  ∃ key op rest tokens e, classify reg segment = some (key, op, rest) ∧ Admitted p h key op
    ∧ splitArgs rest = .ok tokens ∧ (op.parseArgs (h key) tokens).1 = .error e
    ∧ e.cls = "PermissionDenied"

variable (reg p) in
/-- The segment goes through and nothing is done for it: plain SQL, or an operator without a `prepare`
hook whose arguments are well formed. -/
def Quiet (h : Held ι) (segment : List Char) : Prop :=
  match classify reg segment with
  | none => ';' ∉ segment
  | some (key, op, rest) =>
    Admitted p h key op ∧ op.prepare = none
      ∧ ∃ args, (readArgs h key op rest).1 = .ok args ∧ ∃ s, assign key op args = .ok s

variable (reg p ctx) in
/-- Every segment goes through, each from the instances that those before it leave. -/
def AllQuiet : Held ι → List (List Char) → Prop
  | _, [] => True
  | h, segment :: segments =>
    Quiet reg p h segment ∧ AllQuiet (afterSegment reg ctx h segment) segments

/-- Denied, and nothing was done before. -/
def Outcome.Silent (o : Outcome ι α β) : Prop :=
  (∃ e, o.result = .error e ∧ e.cls = "PermissionDenied") ∧ o.events = []

theorem silent_error {e : PipeExc} {h : Held ι} {events : List (Event α)} :
    (⟨.error e, h, events⟩ : Outcome ι α β).Silent ↔ e.cls = "PermissionDenied" ∧ events = [] := by
  constructor
  · rintro ⟨⟨e', he, hcls⟩, hnil⟩
    exact ⟨Except.error.inj he ▸ hcls, hnil⟩
  · rintro ⟨hcls, hnil⟩
    exact ⟨⟨e, rfl, hcls⟩, hnil⟩

theorem not_silent_ok {x : β} {h : Held ι} {events : List (Event α)} :
    ¬ (⟨.ok x, h, events⟩ : Outcome ι α β).Silent := by
  rintro ⟨⟨e, he, -⟩, -⟩
  exact absurd he (by simp)

theorem authorize_spec (h : Held ι) (key : String) (op : Operator ι α) :
    (Admitted p h key op ∧ authorize p h key op = .ok ())
      ∨ (¬ p.Allows op.name (op.caps (h key)) ∧ ∃ d, authorize p h key op = .error (.denied d))
      ∨ p.Allows op.name (op.caps (h key)) ∧ ¬ Admitted p h key op
        ∧ ∃ e, authorize p h key op = .error e ∧ e.cls = "QueryError" := by
  unfold authorize
  rcases p.check_spec op.name (op.caps (h key)) with ⟨ha, hc⟩ | ⟨ha, d, hc⟩
  · rw [hc]
    dsimp only
    split
    · next hb =>
      refine Or.inr (Or.inr ⟨ha, fun had => ?_, _, rfl, rfl⟩)
      rw [had.2.1] at hb
      exact absurd hb (by simp)
    · next hb =>
      split
      · next hi => exact Or.inr (Or.inr ⟨ha, fun had => had.2.2 hi, _, rfl, rfl⟩)
      · next hi => exact Or.inl ⟨⟨ha, by simpa using hb, hi⟩, rfl⟩
  · rw [hc]
    exact Or.inr (Or.inl ⟨ha, d, rfl⟩)

theorem readArgs_error {e : PipeExc} {h' : Held ι} (hr : readArgs h key op rest = (.error e, h')) :
    (∃ why, splitArgs rest = .error why ∧ e = .badArguments why)
      ∨ ∃ tokens, splitArgs rest = .ok tokens ∧ (op.parseArgs (h key) tokens).1 = .error e := by
  unfold readArgs at hr
  split at hr
  · next why hs => exact Or.inl ⟨why, hs, by simpa using (Prod.mk.inj hr).1.symm⟩
  · next tokens hs => exact Or.inr ⟨tokens, hs, (Prod.mk.inj hr).1⟩

/-- An operator that is not assigned a runtime is no denial. -/
theorem assign_error {args : α} {e : PipeExc} (he : assign key op args = .error e) :
    e.cls = "QueryError" := by
  unfold assign at he
  split at he
  · exact absurd he (by simp)
  · split at he
    · split at he
      · obtain rfl := Except.error.inj he
        rfl
      · exact absurd he (by simp)
      · next hsrc =>
        obtain rfl := Except.error.inj he
        rw [Operator.isSource_error hsrc]
        rfl
    · obtain rfl := Except.error.inj he
      rfl

variable (reg p ctx) in
/-- One turn of the loop is denied in silence by the policy, or by the operator's parser. -/
theorem stageSegment_silent (h : Held ι) (segment : List Char) :
    (stageSegment reg p ctx h segment).Silent ↔ Refused reg p h segment ∨ ArgsDenied reg p h segment := by
  have hquery : ¬ "QueryError" = "PermissionDenied" := by decide
  unfold stageSegment
  match hc : classify reg segment with
  | none =>
    refine iff_of_false ?_ ?_
    · dsimp only
      split
      · exact fun hs => hquery (silent_error.mp hs).1
      · exact not_silent_ok
    · rintro (⟨key, op, rest, hs, -⟩ | ⟨key, op, rest, _, _, hs, -⟩) <;> simp [hc] at hs
  | some (key, op, rest) =>
    have hone : ∀ {key' op' rest'}, classify reg segment = some (key', op', rest') →
        key' = key ∧ op' = op ∧ rest' = rest := by
      intro key' op' rest' hs
      rw [hc] at hs
      simpa [eq_comm] using hs
    dsimp only
    rcases authorize_spec (p := p) h key op with ⟨hadm, ha⟩ | ⟨hno, d, ha⟩ | ⟨hal, hno, e, ha, hcls⟩
    · rw [ha]
      have hnot : ¬ Refused reg p h segment := by
        rintro ⟨key', op', rest', hs, hn⟩
        obtain ⟨rfl, rfl, rfl⟩ := hone hs
        exact hn hadm.1
      rw [or_iff_right hnot]
      dsimp only
      rcases hr : readArgs h key op rest with ⟨e | args, h'⟩
      · dsimp only
        rw [silent_error]
        constructor
        · rintro ⟨hcls, -⟩
          rcases readArgs_error hr with ⟨why, -, rfl⟩ | ⟨tokens, hs, hp⟩
          · exact absurd hcls hquery
          · exact ⟨key, op, rest, tokens, e, hc, hadm, hs, hp, hcls⟩
        · rintro ⟨key', op', rest', tokens, e', hs, -, htok, hp, hcls⟩
          obtain ⟨rfl, rfl, rfl⟩ := hone hs
          have hee : e = e' := by
            rw [readArgs, htok] at hr
            exact Except.error.inj ((Prod.mk.inj hr).1.symm.trans hp)
          exact ⟨hee ▸ hcls, rfl⟩
      · refine iff_of_false ?_ ?_
        · dsimp only
          unfold prepareArgs
          cases hpre : op.prepare with
          | none =>
            rintro ⟨⟨e, he, hcls⟩, -⟩
            exact hquery ((assign_error he).symm.trans hcls)
          | some hook =>
            -- the hook has run, whatever it returns
            dsimp only
            split
            · next heq =>
              rintro ⟨-, hev⟩
              rw [← congrArg Outcome.events heq] at hev
              exact absurd hev (by simp)
            · next heq =>
              rintro ⟨-, hev⟩
              rw [← congrArg Outcome.events heq] at hev
              exact absurd hev (by simp)
        · rintro ⟨key', op', rest', tokens, e', hs, -, htok, hp, -⟩
          obtain ⟨rfl, rfl, rfl⟩ := hone hs
          rw [readArgs, htok] at hr
          have hok := (Prod.mk.inj hr).1
          rw [hp] at hok
          exact absurd hok (by simp)
    · rw [ha]
      exact iff_of_true (silent_error.mpr ⟨rfl, rfl⟩) (Or.inl ⟨key, op, rest, hc, hno⟩)
    · rw [ha]
      refine iff_of_false ?_ ?_
      · exact fun hs => hquery (hcls.symm.trans (silent_error.mp hs).1)
      · rintro (⟨key', op', rest', hs, hn⟩ | ⟨key', op', rest', _, _, hs, hadm, -⟩)
        · obtain ⟨rfl, rfl, rfl⟩ := hone hs
          exact hn hal
        · obtain ⟨rfl, rfl, rfl⟩ := hone hs
          exact hno hadm

/-- A segment that goes through: what stood in the way of none of the steps. -/
theorem stageSegment_ok {s : Staged ι α} {h' : Held ι} {events : List (Event α)}
    (ho : stageSegment reg p ctx h segment = ⟨.ok s, h', events⟩) :
    (classify reg segment = none ∧ ';' ∉ segment ∧ s = .sql segment ∧ h' = h ∧ events = [])
      ∨ ∃ key op rest args h₁ args',
        classify reg segment = some (key, op, rest) ∧ Admitted p h key op
        ∧ readArgs h key op rest = (.ok args, h₁)
        ∧ prepareArgs ctx h₁ key op args = ⟨.ok args', h', events⟩
        ∧ assign key op args' = .ok s := by
  unfold stageSegment at ho
  match hc : classify reg segment with
  | none =>
    simp only [hc] at ho
    split at ho
    · exact absurd (congrArg Outcome.result ho) (by simp)
    · next hs =>
      obtain ⟨hr, rfl, rfl⟩ := Outcome.mk.inj ho
      exact Or.inl ⟨rfl, hs, (Except.ok.inj hr).symm, rfl, rfl⟩
  | some (key, op, rest) =>
    simp only [hc] at ho
    rcases authorize_spec (p := p) h key op with ⟨hadm, ha⟩ | ⟨-, d, ha⟩ | ⟨-, -, e, ha, -⟩
    · simp only [ha] at ho
      match hr : readArgs h key op rest with
      | (.error e, h₁) =>
        simp only [hr] at ho
        exact absurd (congrArg Outcome.result ho) (by simp)
      | (.ok args, h₁) =>
        simp only [hr] at ho
        match hp : prepareArgs ctx h₁ key op args with
        | ⟨.error e, h₂, ev⟩ =>
          simp only [hp] at ho
          exact absurd (congrArg Outcome.result ho) (by simp)
        | ⟨.ok args', h₂, ev⟩ =>
          simp only [hp] at ho
          obtain ⟨hs, rfl, rfl⟩ := Outcome.mk.inj ho
          exact Or.inr ⟨key, op, rest, args, h₁, args', rfl, hadm, hr, hp, hs⟩
    · simp only [ha] at ho
      exact absurd (congrArg Outcome.result ho) (by simp)
    · simp only [ha] at ho
      exact absurd (congrArg Outcome.result ho) (by simp)

variable (ctx) in
theorem prepareArgs_events (h : Held ι) (key : String) (op : Operator ι α) (args : α) :
    (prepareArgs ctx h key op args).events = [] ↔ op.prepare = none := by
  unfold prepareArgs
  split
  · next hp => exact iff_of_true rfl hp
  · next hook hp => exact iff_of_false (by simp) (by simp [hp])

/-- What goes through leaves the instances as `afterSegment` says, and nothing is done for it iff it is
quiet. -/
theorem stageSegment_through {s : Staged ι α} {h' : Held ι} {events : List (Event α)}
    (ho : stageSegment reg p ctx h segment = ⟨.ok s, h', events⟩) :
    h' = afterSegment reg ctx h segment ∧ (events = [] ↔ Quiet reg p h segment) := by
  rcases stageSegment_ok ho with ⟨hc, hs, -, rfl, rfl⟩ |
    ⟨key, op, rest, args, h₁, args', hc, hadm, hr, hp, hassign⟩
  · simp [afterSegment, Quiet, hc, hs]
  · constructor
    · simp only [afterSegment, hc, hr, hp]
    · have hev := prepareArgs_events ctx h₁ key op args
      rw [hp] at hev
      rw [show events = [] ↔ op.prepare = none from hev]
      simp only [Quiet, hc]
      constructor
      · intro hnone
        refine ⟨hadm, hnone, args, by rw [hr], s, ?_⟩
        have hargs : args' = args := by
          simp only [prepareArgs, hnone] at hp
          exact (Except.ok.inj (Outcome.mk.inj hp).1).symm
        exact hargs ▸ hassign
      · rintro ⟨-, hnone, -⟩
        exact hnone

variable (ctx) in
theorem Quiet.through (hq : Quiet reg p h segment) :
    ∃ s h', stageSegment reg p ctx h segment = ⟨.ok s, h', []⟩ := by
  unfold stageSegment
  match hc : classify reg segment with
  | none =>
    simp only [Quiet, hc] at hq
    exact ⟨_, _, if_neg hq⟩
  | some (key, op, rest) =>
    simp only [Quiet, hc] at hq
    rcases hq with ⟨hadm, hnone, args, hargs, s, hs⟩
    have hauth : authorize p h key op = .ok () := by
      rcases authorize_spec (p := p) h key op with ⟨-, ha⟩ | ⟨hno, -⟩ | ⟨-, hno, -⟩
      · exact ha
      · exact absurd hadm.1 hno
      · exact absurd hadm hno
    match hr : readArgs h key op rest with
    | (.error e, h₁) =>
      rw [hr] at hargs
      exact absurd hargs (by simp)
    | (.ok args', h₁) =>
      obtain rfl : args' = args := by
        rw [hr] at hargs
        exact Except.ok.inj hargs
      refine ⟨s, h₁, ?_⟩
      simp only [hauth, hr, prepareArgs, hnone, hs]

/-- The loop is denied in silence iff all is quiet up to a segment that is refused, or whose own parser
denies it. -/
theorem stage_silent (h : Held ι) (segments : List (List Char)) :
    (stage reg p ctx h segments).Silent ↔
      ∃ pre segment post, segments = pre ++ segment :: post ∧ AllQuiet reg p ctx h pre
        ∧ (Refused reg p (after reg ctx h pre) segment
          ∨ ArgsDenied reg p (after reg ctx h pre) segment) := by
  induction segments generalizing h with
  | nil =>
    refine iff_of_false ?_ ?_
    · rintro ⟨⟨e, he, -⟩, -⟩
      exact absurd he (by simp [stage, overSegments])
    · rintro ⟨pre, segment, post, hnil, -⟩
      exact absurd hnil (by simp)
  | cons segment segments ih =>
    have hone := stageSegment_silent reg p ctx h segment
    rcases ho : stageSegment reg p ctx h segment with ⟨e | s, h', events⟩
    · have hwhole : stage reg p ctx h (segment :: segments) = ⟨.error e, h', events⟩ :=
        overSegments_error ho
      rw [ho, silent_error] at hone
      rw [hwhole, silent_error]
      constructor
      · intro hs
        exact ⟨[], segment, segments, rfl, trivial, hone.mp hs⟩
      · rintro ⟨pre, x, post, heq, hquiet, hlast⟩
        cases pre with
        | nil =>
          obtain ⟨rfl, rfl⟩ := List.cons.inj heq
          exact hone.mpr hlast
        | cons y pre =>
          obtain ⟨rfl, -⟩ := List.cons.inj heq
          rcases hquiet.1.through ctx with ⟨s, h'', hthrough⟩
          rw [ho] at hthrough
          exact absurd (congrArg Outcome.result hthrough) (by simp)
    · rcases stageSegment_through ho with ⟨rfl, hev⟩
      have hwhole : (stage reg p ctx h (segment :: segments)).Silent ↔
          events = [] ∧ (stage reg p ctx (afterSegment reg ctx h segment) segments).Silent := by
        rw [stage, overSegments_ok ho]
        constructor
        · rintro ⟨⟨e, he, hcls⟩, hnil⟩
          rcases List.append_eq_nil_iff.mp hnil with ⟨hnil, hrest⟩
          refine ⟨hnil, ⟨e, ?_, hcls⟩, hrest⟩
          exact map_error_iff.mp he
        · rintro ⟨hnil, ⟨e, he, hcls⟩, hrest⟩
          refine ⟨⟨e, ?_, hcls⟩, List.append_eq_nil_iff.mpr ⟨hnil, hrest⟩⟩
          exact map_error_iff.mpr he
      rw [hwhole, hev, ih]
      constructor
      · rintro ⟨hq, pre, x, post, rfl, hquiet, hlast⟩
        exact ⟨segment :: pre, x, post, rfl, ⟨hq, hquiet⟩, hlast⟩
      · rintro ⟨pre, x, post, heq, hquiet, hlast⟩
        cases pre with
        | nil =>
          obtain ⟨rfl, rfl⟩ := List.cons.inj heq
          rw [ho] at hone
          exact absurd (hone.mpr hlast) not_silent_ok
        | cons y pre =>
          obtain ⟨rfl, rfl⟩ := List.cons.inj heq
          exact ⟨hquiet.1, pre, x, post, rfl, hquiet.2, hlast⟩

/-- Where the loop raises nothing, no segment is refused at its turn. -/
theorem stage_ok_allowed {segments : List (List Char)} {staged : List (Staged ι α)} {h' : Held ι}
    {events : List (Event α)} (ho : stage reg p ctx h segments = ⟨.ok staged, h', events⟩)
    {pre post : List (List Char)} (heq : segments = pre ++ segment :: post) :
    ¬ Refused reg p (after reg ctx h pre) segment := by
  subst heq
  induction pre generalizing h staged events with
  | nil =>
    intro hno
    rcases overSegments_cons_ok ho with ⟨s, _, h₁, ev₁, _, hone, -⟩
    have hsilent := (stageSegment_silent reg p ctx h segment).mpr (Or.inl hno)
    rw [hone] at hsilent
    exact not_silent_ok hsilent
  | cons x pre ih =>
    rcases overSegments_cons_ok ho with ⟨s, _, h₁, ev₁, _, hone, hrest, -⟩
    obtain ⟨rfl, -⟩ := stageSegment_through hone
    exact ih hrest

/-- A text other than a single plain statement is compiled. -/
theorem query_compiled {ρ : Type} (store : Reads ρ) {sql : List Char} (params : List Val)
    {segments : List (List Char)} (hsplit : splitPipeline (strip sql) = some segments)
    (hplain : ∀ segment, segments = [segment] → classify reg segment ≠ none) :
    query reg p ctx store h sql params = runPlanned store (compile reg p ctx h segments params) := by
  have htext : strip sql ≠ [] := by
    intro hnil
    have hnone : splitPipeline [] = none := by decide
    rw [hnil, hnone] at hsplit
    exact absurd hsplit (by simp)
  unfold query
  simp only [if_neg htext, hsplit]
  match segments, hplain with
  | [], _ => rfl
  | [x], hplain =>
    match hx : classify reg x with
    | none => exact absurd hx (hplain x rfl)
    | some e => simp only [List.map_cons, List.map_nil, hx]
  | _ :: _ :: _, _ => rfl

/-- DENIED FIRST.  A text with a segment that is refused at its turn ends in `PermissionDenied` and
nothing was done for it, iff the segments up to the first that is denied go through QUIETLY: no other
segment raises before it, and none has a `prepare` hook. -/
theorem denied_runs_nothing {ρ : Type} (store : Reads ρ) {sql : List Char} {params : List Val}
    {segments : List (List Char)} (hsplit : splitPipeline (strip sql) = some segments)
    (hden : ∃ pre segment post, segments = pre ++ segment :: post
      ∧ Refused reg p (after reg ctx h pre) segment) :
    (query reg p ctx store h sql params).Silent ↔
      ∃ pre segment post, segments = pre ++ segment :: post ∧ AllQuiet reg p ctx h pre
        ∧ (Refused reg p (after reg ctx h pre) segment
          ∨ ArgsDenied reg p (after reg ctx h pre) segment) := by
  rcases hden with ⟨pre, segment, post, heq, hno⟩
  have hplain : ∀ x, segments = [x] → classify reg x ≠ none := by
    rintro x rfl
    rcases hno with ⟨key, op, rest, hc, -⟩
    obtain rfl : segment = x := List.mem_singleton.mp (heq ▸ by simp)
    simp [hc]
  rw [← stage_silent, query_compiled store params hsplit hplain, compile]
  match ho : stage reg p ctx h segments with
  | ⟨.error e, h', events⟩ => exact silent_error.trans silent_error.symm
  | ⟨.ok staged, h', events⟩ => exact absurd hno (stage_ok_allowed ho heq)

end Authorize

/-- A store without operators of its own. -/
def builtins : Registry Unit Args :=
  match registryOf (builtinOperators Char.isAlphanum) with
  | .ok r => r
  | .error _ => .empty

theorem builtins_ops :
    builtins.ops = (builtinOperators Char.isAlphanum).map fun op => (pyLower op.name, op) := by
  have hok : (registryOf (builtinOperators (ι := Unit) Char.isAlphanum)).toOption.isSome = true := by
    decide +kernel
  unfold builtins
  split
  · next r hr => exact registryOf_ops hr
  · next e he =>
    rw [he] at hok
    cases hok

def readOnly : Policy := ⟨.readOnly, [], [], []⟩

def notesCtx : OperatorCtx where
  table name := if name = "notes" then .ok searchNotes else .error (.unknownTable name)
  embed := some fun text => .ok (.json (.str text), text)
  searchLower table _ qvec qtok _ := .ok ("SELECT * FROM _sb_" ++ table, [qvec, .json (.str qtok)])
  visibleSql table := .ok ("SELECT * FROM _sb_" ++ table)

def emptyReads : Reads Unit := ⟨fun _ _ => .ok (), fun _ => .ok ()⟩

/-- A statement, then a shell command that the default policy refuses. -/
theorem denied_runs_nothing_sql : (query builtins readOnly notesCtx emptyReads (fun _ => ())
    "SELECT 1 AS a | sh 'ls'".toList []).Silent := by
  have hrefused : Refused builtins readOnly
      (after builtins notesCtx (fun _ => ()) ["SELECT 1 AS a".toList]) "sh 'ls'".toList := by
    decide +kernel
  have hsplit : splitPipeline (strip "SELECT 1 AS a | sh 'ls'".toList)
      = some ["SELECT 1 AS a".toList, "sh 'ls'".toList] := by decide +kernel
  refine (denied_runs_nothing emptyReads hsplit
    ⟨["SELECT 1 AS a".toList], _, [], rfl, hrefused⟩).mpr ?_
  refine ⟨["SELECT 1 AS a".toList], _, [], rfl, ⟨?_, trivial⟩, Or.inl hrefused⟩
  have hplain : (classify builtins "SELECT 1 AS a".toList).isNone = true := by decide +kernel
  rw [Quiet, Option.isNone_iff_eq_none.mp hplain]
  decide +kernel

/-- The text of the search is embedded before the command is refused. -/
theorem denied_after_embedding :
    Refused builtins readOnly (after builtins notesCtx (fun _ => ()) ["search notes 'x'".toList])
      "sh 'ls'".toList
    ∧ (query builtins readOnly notesCtx emptyReads (fun _ => ())
      "search notes 'x' | sh 'ls'".toList []).events.map Event.hook = [some "search"] := by
  constructor
  · decide +kernel
  · decide +kernel

end Seekbase
