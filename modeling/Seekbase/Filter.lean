/-
# Seekbase.Filter — a policy only filters.

The policy is asked by the two compilers and by nothing else, and its answer is a verdict: what a
pipeline is compiled to, what is prepared on the way and what is run does not depend on which policy let
it through.  So two policies can be compared.  Where one allows no more than the other, each use of the
store ends alike under both, or it is refused by the first, and then only hooks have run, those that run
first under the second as well; and a whole history is the same up to its first refusal.

* `Policy.Within`        — one policy allows no more than another; `within_of`, by mode and lists;
* `Outcome.Cut`          — the same outcome, or a refusal that breaks it off;
* `Filtered`             — two histories that are alike up to the first refusal;
* `policy_only_filters`  — the histories of a stricter and a laxer policy are.
-/
import Seekbase.Verdict

namespace Seekbase

/-! ## Two policies -/

/-- What `p` allows, `q` allows. -/
def Policy.Within (p q : Policy) : Prop := ∀ name caps, p.Allows name caps → q.Allows name caps

/-- A mode with more capabilities, fewer denials, and a list that is longer or is none. -/
theorem Policy.within_of {p q : Policy} (hmode : ∀ c ∈ p.mode.caps, c ∈ q.mode.caps)
    (hdeny : ∀ name ∈ q.deny, name ∈ p.deny) (hcaps : ∀ c ∈ q.denyCaps, c ∈ p.denyCaps)
    (hallow : q.allow = [] ∨ p.allow ≠ [] ∧ ∀ name ∈ p.allow, name ∈ q.allow) : p.Within q := by
  rintro name caps ⟨hname, hcap, hlist, hgranted⟩
  refine ⟨fun h => hname (hdeny name h), fun c hc h => hcap c hc (hcaps c h), ?_,
    fun c hc => hmode c (hgranted c hc)⟩
  rcases hallow with hnone | ⟨hsome, hsub⟩
  · exact Or.inl hnone
  · exact Or.inr (hsub name (hlist.resolve_left hsome))

/-- The outcomes are the same, or the first is a refusal before which only hooks have run, those that
ran first for the second. -/
def Outcome.Cut {ι α β : Type} (a b : Outcome ι α β) : Prop :=
  a = b ∨ (∃ d, a.result = .error (.denied d)) ∧ a.events <+: b.events
    ∧ ∀ e ∈ a.events, e.hook.isSome = true

section Filter

variable {ι α β γ : Type} {reg : Registry ι α} {p q : Policy} {ctx : OperatorCtx} {h : Held ι}

/-! ## One segment -/

theorem check_within (hpq : p.Within q) (name : String) (caps : List Cap) :
    p.check name caps = q.check name caps ∨ ∃ d, p.check name caps = .error (.denied d) := by
  rcases p.check_spec name caps with ⟨hallows, hok⟩ | ⟨-, hdenied⟩
  · rcases q.check_spec name caps with ⟨-, hok'⟩ | ⟨hnot, -⟩
    · exact Or.inl (hok.trans hok'.symm)
    · exact absurd (hpq name caps hallows) hnot
  · exact Or.inr hdenied

theorem cut_denied {d : Denial} (b : Outcome ι α β) :
    (⟨.error (.denied d), h, []⟩ : Outcome ι α β).Cut b :=
  Or.inr ⟨⟨d, rfl⟩, List.nil_prefix, by simp⟩

theorem stageSegment_cut (hpq : p.Within q) (h : Held ι) (segment : List Char) :
    (stageSegment reg p ctx h segment).Cut (stageSegment reg q ctx h segment) := by
  unfold stageSegment
  cases classify reg segment with
  | none => exact Or.inl rfl
  | some found =>
    obtain ⟨key, op, rest⟩ := found
    dsimp only
    rcases check_within hpq op.name (op.caps (h key)) with hsame | ⟨d, hdenied⟩
    · rw [show authorize p h key op = authorize q h key op by rw [authorize, authorize, hsame]]
      exact Or.inl rfl
    · rw [show authorize p h key op = .error (.denied d) by rw [authorize, hdenied]]
      exact cut_denied _

theorem streamSegment_cut (hpq : p.Within q) (h : Held ι) (segment : List Char) :
    (streamSegment reg p h segment).Cut (streamSegment reg q h segment) := by
  unfold streamSegment
  cases classify reg segment with
  | none => exact Or.inl rfl
  | some found =>
    obtain ⟨key, op, rest⟩ := found
    dsimp only
    rcases check_within hpq op.name (op.caps (h key)) with hsame | ⟨d, hdenied⟩
    · rw [hsame]
      exact Or.inl rfl
    · rw [hdenied]
      exact cut_denied _

/-- Only hooks run for a segment. -/
theorem stageSegment_hooks (h : Held ι) (segment : List Char) :
    ∀ e ∈ (stageSegment reg q ctx h segment).events, e.hook.isSome = true := by
  have hprepare (h : Held ι) (key : String) (op : Operator ι α) (args : α) :
      ∀ e ∈ (prepareArgs ctx h key op args).events, e.hook.isSome = true := by
    unfold prepareArgs
    split
    · exact fun e he => absurd he (by simp)
    · intro e he
      rw [List.mem_singleton.mp he]
      rfl
  unfold stageSegment
  split
  · split <;> exact fun e he => absurd he (by simp)
  · next key op rest _ =>
    split
    · exact fun e he => absurd he (by simp)
    · split
      · exact fun e he => absurd he (by simp)
      · next args h' _ =>
        have hev := hprepare h' key op args
        split
        · next hp =>
          rw [hp] at hev
          exact hev
        · next hp =>
          rw [hp] at hev
          exact hev

theorem streamSegment_hooks (h : Held ι) (segment : List Char) :
    ∀ e ∈ (streamSegment reg q h segment).events, e.hook.isSome = true := by
  unfold streamSegment
  split
  · exact fun e he => absurd he (by simp)
  · split
    · exact fun e he => absurd he (by simp)
    · split <;> exact fun e he => absurd he (by simp)

/-! ## All segments -/

theorem overSegments_begins (one : Held ι → List Char → Outcome ι α β) (h : Held ι)
    (segment : List Char) (segments : List (List Char)) :
    (one h segment).events <+: (overSegments one h (segment :: segments)).events := by
  rcases ho : one h segment with ⟨e | x, h', events⟩
  · have hend : overSegments one h (segment :: segments) = _ := overSegments_error ho
    exact ⟨[], (List.append_nil events).trans (congrArg Outcome.events hend).symm⟩
  · rw [overSegments_ok ho]
    exact List.prefix_append _ _

/-- The loop breaks off where a segment is refused, and up to there it goes as it goes. -/
theorem overSegments_cut {one one' : Held ι → List Char → Outcome ι α β}
    (hcut : ∀ h segment, (one h segment).Cut (one' h segment))
    (hhooks : ∀ h segment, ∀ e ∈ (one h segment).events, e.hook.isSome = true) (h : Held ι)
    (segments : List (List Char)) :
    (overSegments one h segments).Cut (overSegments one' h segments) := by
  induction segments generalizing h with
  | nil => exact Or.inl rfl
  | cons segment segments ih =>
    rcases hcut h segment with hsame | ⟨⟨d, hdenied⟩, hprefix, hev⟩
    · rcases ho : one h segment with ⟨e | x, h', events⟩
      · rw [overSegments_error ho, overSegments_error (hsame ▸ ho)]
        exact Or.inl rfl
      · have hmine := hhooks h segment
        rw [ho] at hmine
        rw [overSegments_ok ho, overSegments_ok (hsame ▸ ho)]
        rcases ih h' with hrest | ⟨⟨d, hdenied⟩, hprefix, hev⟩
        · rw [hrest]
          exact Or.inl rfl
        · refine Or.inr ⟨⟨d, ?_⟩, (List.prefix_append_right_inj events).mpr hprefix, ?_⟩
          · show (overSegments one h' segments).result.map (x :: ·) = _
            rw [hdenied]
            rfl
          · intro e he
            rcases List.mem_append.mp he with he | he
            · exact hmine e he
            · exact hev e he
    · rcases ho : one h segment with ⟨e | x, h', events⟩
      · rw [ho] at hdenied hprefix hev
        obtain rfl : e = .denied d := Except.error.inj hdenied
        rw [overSegments_error ho]
        exact Or.inr ⟨⟨d, rfl⟩, hprefix.trans (overSegments_begins one' h segment segments), hev⟩
      · rw [ho] at hdenied
        cases hdenied

/-- What comes after the loop is the same where the loop is, and does not come where it is refused. -/
theorem Outcome.Cut.after {a b : Outcome ι α β} (hcut : a.Cut b) (next : Outcome ι α β → Outcome ι α γ)
    (herror : ∀ e h events, next ⟨.error e, h, events⟩ = ⟨.error e, h, events⟩)
    (hevents : ∀ o, o.events <+: (next o).events) : (next a).Cut (next b) := by
  rcases hcut with rfl | ⟨⟨d, hdenied⟩, hprefix, hev⟩
  · exact Or.inl rfl
  · obtain ⟨result, held, events⟩ := a
    obtain rfl : result = .error (.denied d) := hdenied
    rw [herror]
    exact Or.inr ⟨⟨d, rfl⟩, hprefix.trans (hevents b), hev⟩

/-- What a compiler does with the staged segments. -/
def planned (params : List Val) : Outcome ι α (List (Staged ι α)) → Outcome ι α (List PlanPhase)
  | ⟨.error e, h, events⟩ => ⟨.error e, h, events⟩
  | ⟨.ok staged, h, events⟩ => ⟨planOf h params staged, h, events⟩

theorem compile_planned (segments : List (List Char)) (params : List Val) :
    compile reg p ctx h segments params = planned params (stage reg p ctx h segments) := by
  unfold compile
  rcases stage reg p ctx h segments with ⟨e | staged, h', events⟩ <;> rfl

theorem compile_cut (hpq : p.Within q) (segments : List (List Char)) (params : List Val) :
    (compile reg p ctx h segments params).Cut (compile reg q ctx h segments params) := by
  rw [compile_planned, compile_planned]
  refine (overSegments_cut (stageSegment_cut hpq) stageSegment_hooks h segments).after (planned params)
    (fun _ _ _ => rfl) ?_
  rintro ⟨e | staged, h', events⟩
  · exact List.prefix_rfl
  · exact List.prefix_rfl

/-! ## One use -/

variable {ρ : Type} {store : Reads ρ} {sinkTable : α → Except PipeExc Unit}

/-- A query under a stricter policy. -/
theorem query_cut (hpq : p.Within q) (sql : List Char) (params : List Val) :
    (query reg p ctx store h sql params).Cut (query reg q ctx store h sql params) := by
  have hplan (segments : List (List Char)) : (runPlanned store (compile reg p ctx h segments params)).Cut
      (runPlanned store (compile reg q ctx h segments params)) := by
    refine (compile_cut hpq segments params).after (runPlanned store) (fun _ _ _ => rfl) ?_
    rintro ⟨e | phases, h', events⟩
    · exact List.prefix_rfl
    · exact List.prefix_append _ _
  unfold query
  dsimp only
  split
  · exact Or.inl rfl
  · split
    · exact Or.inl rfl
    · split
      · exact Or.inl rfl
      · exact hplan _

/-- What the other compiler does with the parsed segments. -/
def streamed (sinkTable : α → Except PipeExc Unit) :
    Outcome ι α (List (Call ι α)) → Outcome ι α (StreamPlan α)
  | ⟨.error e, h, events⟩ => ⟨.error e, h, events⟩
  | ⟨.ok calls, h, events⟩ => ⟨streamOf sinkTable h calls, h, events⟩

/-- The start of a stream under a stricter policy. -/
theorem streamCompile_cut (hpq : p.Within q) (pipeline : List Char) :
    (streamCompile reg p sinkTable h pipeline).Cut (streamCompile reg q sinkTable h pipeline) := by
  have hstream (segments : List (List Char)) : (streamed sinkTable
      (overSegments (streamSegment reg p) h segments)).Cut
        (streamed sinkTable (overSegments (streamSegment reg q) h segments)) := by
    refine (overSegments_cut (streamSegment_cut hpq) streamSegment_hooks h segments).after
      (streamed sinkTable) (fun _ _ _ => rfl) ?_
    rintro ⟨e | calls, h', events⟩
    · exact List.prefix_rfl
    · exact List.prefix_rfl
  unfold streamCompile
  split
  · exact Or.inl rfl
  · next segments _ =>
    split
    · exact Or.inl rfl
    · refine cast (congrArg₂ Outcome.Cut ?_ ?_) (hstream segments)
      · rcases overSegments (streamSegment reg p) h segments with ⟨e | calls, h', events⟩ <;> rfl
      · rcases overSegments (streamSegment reg q) h segments with ⟨e | calls, h', events⟩ <;> rfl

/-! ## A history -/

/-- How a use of the store ends. -/
inductive Answered (ι α ρ : Type) where
  | query (o : Outcome ι α ρ)
  | stream (o : Outcome ι α (StreamPlan α))

/-- What the instances keep after it. -/
def Answered.held : Answered ι α ρ → Held ι
  | .query o => o.held
  | .stream o => o.held

def Answered.Cut : Answered ι α ρ → Answered ι α ρ → Prop
  | .query a, .query b => a.Cut b
  | .stream a, .stream b => a.Cut b
  | _, _ => False

variable (reg p sinkTable) in
/-- One use, of the store as it is then. -/
def Use.answered (h : Held ι) (store : Reads ρ) : Use → Answered ι α ρ
  | .query ctx sql params => .query (Seekbase.query reg p ctx store h sql params)
  | .stream pipeline => .stream (streamCompile reg p sinkTable h pipeline)

variable (reg p sinkTable) in
/-- A history, each use from the instances that the one before has left. -/
def answers : Held ι → List (Reads ρ × Use) → List (Answered ι α ρ)
  | _, [] => []
  | h, (store, u) :: uses =>
    let a := u.answered reg p sinkTable h store
    a :: answers a.held uses

/-- Use by use the same, up to one that is refused in the first history; of what comes after a refusal
nothing is said, for it has left the instances where it has broken off. -/
def Filtered : List (Answered ι α ρ) → List (Answered ι α ρ) → Prop
  | [], [] => True
  | a :: as, b :: bs => (a = b ∧ Filtered as bs) ∨ (a ≠ b ∧ a.Cut b)
  | _, _ => False

variable (reg sinkTable) in
/-- FILTER.  Under a policy that allows no more than another, every history is the history under the
other up to its first refusal, and what is refused has run no more than hooks, and those first. -/
theorem policy_only_filters (hpq : p.Within q) (h : Held ι) (uses : List (Reads ρ × Use)) :
    Filtered (answers reg p sinkTable h uses) (answers reg q sinkTable h uses) := by
  induction uses generalizing h with
  | nil => trivial
  | cons use uses ih =>
    obtain ⟨store, u⟩ := use
    have hcut : (u.answered reg p sinkTable h store).Cut (u.answered reg q sinkTable h store) := by
      cases u with
      | query ctx sql params => exact query_cut hpq sql params
      | stream pipeline => exact streamCompile_cut hpq pipeline
    by_cases hsame : u.answered reg p sinkTable h store = u.answered reg q sinkTable h store
    · refine Or.inl ⟨hsame, ?_⟩
      rw [← hsame]
      exact ih _
    · exact Or.inr ⟨hsame, hcut⟩

end Filter

/-- A query, one with a shell stage, and the start of a stream. -/
def threeUses : List (Reads Unit × Use) :=
  [(emptyReads, .query notesCtx "SELECT * FROM notes".toList []),
    (emptyReads, .query notesCtx "search notes 'x' | sh cat".toList []),
    (emptyReads, .stream "watch '*.jsonl' | ingest notes".toList)]

/-- The default policy, and the one its message tells to escalate to. -/
theorem policy_only_filters_shell :
    Filtered (answers builtins readOnly (fun _ => .ok ()) (fun _ => ()) threeUses)
      (answers builtins ⟨.sandboxed, [], [], []⟩ (fun _ => .ok ()) (fun _ => ()) threeUses) := by
  have hwithin : readOnly.Within ⟨.sandboxed, [], [], []⟩ :=
    Policy.within_of (by decide +kernel) (by decide +kernel) (by decide +kernel) (Or.inl rfl)
  exact policy_only_filters builtins (fun _ => .ok ()) hwithin (fun _ => ()) threeUses

end Seekbase
