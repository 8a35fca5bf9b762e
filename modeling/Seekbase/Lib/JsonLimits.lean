/-
# Seekbase.Lib.JsonLimits — JSON text under the limits of an interpreter.

`dumps` and `loads` know no bounds.  An interpreter does: a writer and a reader that recurse go only so
deep, and an integer is converted to and from its digits only up to a length.  Here both run under such
limits, and break off at the character at which the limit is met.  A run under limits is compared with
the run without: it goes through exactly when every value it builds, and every container it has open,
is within them.

* `Limits`, `Json.fitsAt`           — what is within the limits;
* `loadsIn`, `loadsIn_ok_iff`       — the reader, and what it reads;
* `State.Overflows`, `loadsIn_recursion_iff` — where it goes too deep;
* `dumpsIn`, `dumpsIn_ok_iff`       — the writer, and what it writes.
-/
import Seekbase.Lib.JsonCut

namespace JsonText

/-! ## Within the limits -/

structure Limits where
  /-- How many containers can be open at once. -/
  depth : Nat
  /-- How many digits an integer can have, where that is limited. -/
  digits : Option Nat

/-- The two ways a conversion breaks off. -/
inductive Refusal where
  | value
  | recursion
  deriving DecidableEq

/-- The digits of an integer are no more than the limit. -/
def Limits.takes (L : Limits) (i : Int) : Bool :=
  match L.digits with
  | none => true
  | some n => (Nat.toDigits 10 i.natAbs).length ≤ n

mutual
/-- Under `k` open containers a value is within the limits. -/
def Json.fitsAt (L : Limits) (k : Nat) : Json → Bool
  | .int i => L.takes i
  | .arr xs => k < L.depth && fitsItems L (k + 1) xs
  | .obj ms => k < L.depth && fitsMembers L (k + 1) ms
  | _ => true
def fitsItems (L : Limits) (k : Nat) : List Json → Bool
  | [] => true
  | x :: xs => x.fitsAt L k && fitsItems L k xs
def fitsMembers (L : Limits) (k : Nat) : List (String × Json) → Bool
  | [] => true
  | (_, v) :: ms => v.fitsAt L k && fitsMembers L k ms
end

section Fits

variable {L : Limits} {k : Nat}

theorem fitsItems_iff {xs : List Json} :
    fitsItems L k xs = true ↔ ∀ x ∈ xs, x.fitsAt L k = true := by
  induction xs with
  | nil => simp [fitsItems]
  | cons x xs ih => simp [fitsItems, ih]

theorem fitsMembers_iff {ms : List (String × Json)} :
    fitsMembers L k ms = true ↔ ∀ m ∈ ms, m.2.fitsAt L k = true := by
  induction ms with
  | nil => simp [fitsMembers]
  | cons m ms ih => simp [fitsMembers, ih]

theorem fitsAt_arr {xs : List Json} :
    (Json.arr xs).fitsAt L k = true ↔ k < L.depth ∧ ∀ x ∈ xs, x.fitsAt L (k + 1) = true := by
  rw [Json.fitsAt, Bool.and_eq_true, decide_eq_true_eq, fitsItems_iff]

theorem fitsAt_obj {ms : List (String × Json)} :
    (Json.obj ms).fitsAt L k = true ↔ k < L.depth ∧ ∀ m ∈ ms, m.2.fitsAt L (k + 1) = true := by
  rw [Json.fitsAt, Bool.and_eq_true, decide_eq_true_eq, fitsMembers_iff]

end Fits

/-! ## Reading -/

/-- The containers that are open. -/
def State.depth (s : State) : Nat := s.stack.length + if s.mode.inObject then 1 else 0

/-- The number that is being read is an integer with too many digits.  JSON integers have no leading
zeros, so these are the digits of the value. -/
def Mode.long (L : Limits) : Mode → Bool
  | .num buf =>
    match parseNumber buf with
    | some v => !v.fitsAt L 0
    | none => false
  | _ => false

/-- One character: a container too many breaks off where it opens, an integer where it ends. -/
def State.stepIn (L : Limits) (s : State) (c : Char) : Except Refusal State :=
  match s.step c with
  | none => .error .value
  | some t =>
    if L.depth < t.depth then .error .recursion
    else if s.mode.long L && !isNumChar c then .error .value
    else .ok t

def State.runIn (L : Limits) (s : State) : List Char → Except Refusal State
  | [] => .ok s
  | c :: cs => (s.stepIn L c).bind (·.runIn L cs)

def State.finishIn (L : Limits) (s : State) : Except Refusal Json :=
  match s.finish with
  | none => .error .value
  | some v => if s.mode.long L then .error .value else .ok v

/-- Read a whole text as one JSON value, within the limits. -/
def loadsIn (L : Limits) (cs : List Char) : Except Refusal Json :=
  (start.runIn L cs).bind (State.finishIn L)

/-! ## What a state holds -/

/-- The values read into an open container. -/
def Frame.values : Frame → List Json
  | .arr xs => xs
  | .obj ms _ => ms.map Prod.snd

def FitsStack (L : Limits) : List Frame → Prop
  | [] => True
  | f :: K => K.length < L.depth ∧ (∀ v ∈ f.values, v.fitsAt L (K.length + 1) = true) ∧ FitsStack L K

/-- What a mode holds under `k` open containers on the stack. -/
def Mode.Fits (L : Limits) (k : Nat) : Mode → Prop
  | .key ms _ | .colon ms _ | .str _ _ (.key ms) =>
    k < L.depth ∧ ∀ m ∈ ms, m.2.fitsAt L (k + 1) = true
  | .lit _ v | .after v => v.fitsAt L k = true
  | _ => True

/-- All that a state holds is within the limits. -/
def State.Fits (L : Limits) (s : State) : Prop :=
  FitsStack L s.stack ∧ s.mode.Fits L s.stack.length

section Reading

variable {L : Limits} {K : List Frame} {s t : State} {c : Char} {cs : List Char} {v : Json}

theorem FitsStack.length_le (h : FitsStack L K) : K.length ≤ L.depth := by
  cases K with
  | nil => exact Nat.zero_le _
  | cons f K => exact h.1

theorem State.Fits.depth_le (h : s.Fits L) : s.depth ≤ L.depth := by
  obtain ⟨K, mode⟩ := s
  have hK := h.1.length_le
  have hmode : mode.Fits L K.length := h.2
  show K.length + (if mode.inObject then 1 else 0) ≤ L.depth
  match mode with
  | .key ms _ | .colon ms _ | .str _ _ (.key ms) => exact hmode.1
  | .value | .first | .str _ _ .value | .num _ | .lit _ _ | .after _ => exact hK

theorem fitsStack_arr {xs : List Json} : FitsStack L (.arr xs :: K)
    ↔ (K.length < L.depth ∧ ∀ x ∈ xs, x.fitsAt L (K.length + 1) = true) ∧ FitsStack L K :=
  and_assoc.symm

theorem fitsStack_obj {ms : List (String × Json)} {key : String} : FitsStack L (.obj ms key :: K)
    ↔ (K.length < L.depth ∧ ∀ m ∈ ms, m.2.fitsAt L (K.length + 1) = true) ∧ FitsStack L K := by
  rw [FitsStack, Frame.values, List.forall_mem_map, and_assoc]

/-- The first character of a value opens a container, or leaves nothing to hold. -/
theorem startValue_cases (h : startValue K c = some t) :
    t = ⟨K, .key [] true⟩ ∨ t = ⟨.arr [] :: K, .first⟩
      ∨ ∃ m : Mode, t = ⟨K, m⟩ ∧ m.inObject = false ∧ ∀ L k, m.Fits L k := by
  unfold startValue at h
  split_ifs at h <;> obtain rfl := Option.some.inj h
  · exact Or.inr (Or.inr ⟨_, rfl, rfl, fun _ _ => trivial⟩)
  · exact Or.inr (Or.inr ⟨_, rfl, rfl, fun _ _ => trivial⟩)
  · exact Or.inl rfl
  · exact Or.inr (Or.inl rfl)
  · exact Or.inr (Or.inr ⟨_, rfl, rfl, fun _ _ => rfl⟩)
  · exact Or.inr (Or.inr ⟨_, rfl, rfl, fun _ _ => rfl⟩)
  · exact Or.inr (Or.inr ⟨_, rfl, rfl, fun _ _ => rfl⟩)
  · exact Or.inr (Or.inr ⟨_, rfl, rfl, fun _ _ => rfl⟩)
  · exact Or.inr (Or.inr ⟨_, rfl, rfl, fun _ _ => rfl⟩)
  · exact Or.inr (Or.inr ⟨_, rfl, rfl, fun _ _ => trivial⟩)

/-- A value begins: only a container can be one too many. -/
theorem startValue_fits (h : startValue K c = some t) :
    t.Fits L ↔ FitsStack L K ∧ t.depth ≤ L.depth := by
  refine ⟨fun ht => ⟨?_, ht.depth_le⟩, fun ⟨hK, hd⟩ => ?_⟩
  · rcases startValue_cases h with rfl | rfl | ⟨m, rfl, -, -⟩
    · exact ht.1
    · exact ht.1.2.2
    · exact ht.1
  · rcases startValue_cases h with rfl | rfl | ⟨m, rfl, -, hm⟩
    · exact ⟨hK, hd, List.forall_mem_nil _⟩
    · exact ⟨⟨hd, List.forall_mem_nil _, hK⟩, trivial⟩
    · exact ⟨hK, hm L _⟩

/-- A value ends: it goes into its container, and with the last one the container ends. -/
theorem afterValue_fits (h : afterValue K v c = some t) :
    t.Fits L ↔ FitsStack L K ∧ v.fitsAt L K.length = true := by
  match K with
  | [] =>
    simp only [afterValue] at h
    split_ifs at h
    obtain rfl := Option.some.inj h
    exact Iff.rfl
  | .arr xs :: K =>
    rw [fitsStack_arr, List.length_cons]
    simp only [afterValue] at h
    split_ifs at h <;> obtain rfl := Option.some.inj h
    · rw [State.Fits, fitsStack_arr]
      exact Iff.rfl
    · rw [State.Fits, fitsStack_arr]
      simp only [List.forall_mem_append, List.forall_mem_singleton, Mode.Fits, and_true]
      tauto
    · rw [State.Fits, Mode.Fits, fitsAt_arr]
      simp only [List.forall_mem_append, List.forall_mem_singleton]
      tauto
  | .obj ms key :: K =>
    rw [fitsStack_obj, List.length_cons]
    simp only [afterValue] at h
    split_ifs at h <;> obtain rfl := Option.some.inj h
    · rw [State.Fits, fitsStack_obj]
      exact Iff.rfl
    · rw [State.Fits, Mode.Fits]
      simp only [List.forall_mem_append, List.forall_mem_singleton]
      tauto
    · rw [State.Fits, Mode.Fits, fitsAt_obj]
      simp only [List.forall_mem_append, List.forall_mem_singleton]
      tauto

theorem parseNumber_fits {buf : List Char} {k : Nat} (h : parseNumber buf = some v) :
    (Mode.num buf).long L = false ↔ v.fitsAt L k = true := by
  rw [Mode.long, h]
  show (!v.fitsAt L 0) = false ↔ _
  rw [Bool.not_eq_false']
  -- a number is no container, so it does not matter where it stands
  unfold parseNumber at h
  split at h
  · obtain ⟨i, -, rfl⟩ := Option.map_eq_some_iff.mp h
    exact Iff.rfl
  · split at h
    · obtain rfl := Option.some.inj h
      exact Iff.rfl
    · cases h

/-- Where a container can still be empty, nothing has been read into it. -/
def State.Fresh (s : State) : Prop :=
  match s.mode with
  | .first => ∃ K, s.stack = .arr [] :: K
  | .key ms true => ms = []
  | _ => True

theorem startValue_fresh (h : startValue K c = some t) : t.Fresh := by
  unfold startValue at h
  split_ifs at h <;> obtain rfl := Option.some.inj h <;>
    first | exact trivial | exact rfl | exact ⟨K, rfl⟩

theorem afterValue_fresh (h : afterValue K v c = some t) : t.Fresh := by
  match K with
  | [] =>
    simp only [afterValue] at h
    split_ifs at h
    obtain rfl := Option.some.inj h
    exact trivial
  | .arr xs :: K =>
    simp only [afterValue] at h
    split_ifs at h <;> obtain rfl := Option.some.inj h <;> exact trivial
  | .obj ms key :: K =>
    simp only [afterValue] at h
    split_ifs at h <;> obtain rfl := Option.some.inj h <;> exact trivial

theorem step_fresh (hs : s.Fresh) (h : s.step c = some t) : t.Fresh := by
  obtain ⟨K, mode⟩ := s
  cases mode with
  | value => exact startValue_fresh h
  | first =>
    simp only [State.step] at h
    split_ifs at h
    · obtain rfl := Option.some.inj h
      exact hs
    · cases K with
      | nil => cases h
      | cons f K =>
        obtain rfl := Option.some.inj h
        exact trivial
    · exact startValue_fresh h
  | key ms fst =>
    simp only [State.step] at h
    split_ifs at h <;> obtain rfl := Option.some.inj h
    · exact hs
    · exact trivial
    · exact trivial
  | colon ms key =>
    simp only [State.step] at h
    split_ifs at h <;> obtain rfl := Option.some.inj h <;> exact trivial
  | str buf esc slot =>
    obtain ⟨m, hm, rfl⟩ := Option.map_eq_some_iff.mp h
    rcases stepStr_slot hm with ⟨buf', esc', rfl⟩ | rfl
    · exact trivial
    · cases slot <;> exact trivial
  | num buf =>
    simp only [State.step] at h
    split_ifs at h
    · obtain rfl := Option.some.inj h
      exact trivial
    · obtain rfl := Option.some.inj h
      exact trivial
    · obtain ⟨v, -, hv⟩ := Option.bind_eq_some_iff.mp h
      exact afterValue_fresh hv
  | lit rest v =>
    cases rest with
    | nil => cases h
    | cons r rs =>
      simp only [State.step] at h
      split_ifs at h <;> obtain rfl := Option.some.inj h <;> exact trivial
  | after v => exact afterValue_fresh h

/-- One character, and what is held after it. -/
theorem step_fits (hs : s.Fresh) (h : s.step c = some t) : t.Fits L
    ↔ s.Fits L ∧ t.depth ≤ L.depth ∧ (s.mode.long L && !isNumChar c) = false := by
  suffices hfits : t.depth ≤ L.depth →
      (t.Fits L ↔ s.Fits L ∧ (s.mode.long L && !isNumChar c) = false) by
    refine ⟨fun ht => ?_, fun ⟨hs, hd, hlong⟩ => (hfits hd).mpr ⟨hs, hlong⟩⟩
    obtain ⟨hs, hlong⟩ := (hfits ht.depth_le).mp ht
    exact ⟨hs, ht.depth_le, hlong⟩
  intro hd
  obtain ⟨K, mode⟩ := s
  -- in all modes but one no number ends here
  have hplain (hm : mode.long L = false) (hheld : t.Fits L ↔ State.Fits L ⟨K, mode⟩) :
      t.Fits L ↔ State.Fits L ⟨K, mode⟩ ∧ (mode.long L && !isNumChar c) = false := by
    rw [hm, hheld]
    exact (and_iff_left rfl).symm
  cases mode with
  | value =>
    refine hplain rfl ?_
    rw [startValue_fits h]
    exact ⟨fun hK => ⟨hK.1, trivial⟩, fun hs => ⟨hs.1, hd⟩⟩
  | first =>
    refine hplain rfl ?_
    simp only [State.step] at h
    split_ifs at h
    · obtain rfl := Option.some.inj h
      exact Iff.rfl
    · obtain ⟨K, rfl⟩ := hs
      obtain rfl := Option.some.inj h
      show FitsStack L K ∧ (Json.arr []).fitsAt L K.length = true ↔ FitsStack L (.arr [] :: K) ∧ True
      rw [fitsAt_arr, fitsStack_arr]
      tauto
    · rw [startValue_fits h]
      exact ⟨fun hK => ⟨hK.1, trivial⟩, fun hs => ⟨hs.1, hd⟩⟩
  | key ms fst =>
    refine hplain rfl ?_
    simp only [State.step] at h
    split_ifs at h with hws hquote hclose <;> obtain rfl := Option.some.inj h
    · exact Iff.rfl
    · exact Iff.rfl
    · obtain ⟨-, rfl⟩ := hclose
      obtain rfl := hs
      show FitsStack L K ∧ (Json.obj []).fitsAt L K.length = true ↔ FitsStack L K ∧ _ ∧ _
      rw [fitsAt_obj]
  | colon ms key =>
    refine hplain rfl ?_
    simp only [State.step] at h
    split_ifs at h <;> obtain rfl := Option.some.inj h
    · exact Iff.rfl
    · show FitsStack L (.obj ms key :: K) ∧ True ↔ FitsStack L K ∧ _ ∧ _
      rw [fitsStack_obj]
      tauto
  | str buf esc slot =>
    refine hplain rfl ?_
    obtain ⟨m, hm, rfl⟩ := Option.map_eq_some_iff.mp h
    rcases stepStr_slot hm with ⟨buf', esc', rfl⟩ | rfl
    · cases slot <;> exact Iff.rfl
    · cases slot with
      | value => exact ⟨fun ht => ⟨ht.1, trivial⟩, fun hs => ⟨hs.1, rfl⟩⟩
      | key ms => exact Iff.rfl
  | num buf =>
    simp only [State.step] at h
    split_ifs at h with hnum hneg
    · obtain rfl := Option.some.inj h
      rw [hnum, Bool.not_true, Bool.and_false]
      exact (and_iff_left rfl).symm
    · obtain rfl := Option.some.inj h
      obtain ⟨rfl, -⟩ := hneg
      exact ⟨fun ht => ⟨⟨ht.1, trivial⟩, rfl⟩, fun hs => ⟨hs.1.1, rfl⟩⟩
    · obtain ⟨v, hv, hafter⟩ := Option.bind_eq_some_iff.mp h
      have hend : (!isNumChar c) = true := by simpa using hnum
      rw [afterValue_fits hafter, hend, Bool.and_true, parseNumber_fits hv]
      exact ⟨fun ht => ⟨⟨ht.1, trivial⟩, ht.2⟩, fun hs => ⟨hs.1.1, hs.2⟩⟩
  | lit rest v =>
    refine hplain rfl ?_
    cases rest with
    | nil => cases h
    | cons r rs =>
      simp only [State.step] at h
      split_ifs at h <;> obtain rfl := Option.some.inj h <;> exact Iff.rfl
  | after v =>
    refine hplain rfl ?_
    exact afterValue_fits h

/-! ## Whole texts -/

theorem start_fresh : start.Fresh := trivial

theorem start_fits : start.Fits L := ⟨trivial, trivial⟩

theorem stepIn_ok_iff (hs : s.Fresh) (hfits : s.Fits L) :
    s.stepIn L c = .ok t ↔ s.step c = some t ∧ t.Fits L := by
  unfold State.stepIn
  cases h : s.step c with
  | none => simp
  | some u =>
    have hu : u.Fits L ↔ _ := step_fits hs h
    rw [and_iff_right hfits] at hu
    show (if L.depth < u.depth then _ else if _ then _ else _) = _ ↔ _
    rw [Option.some.injEq]
    by_cases hd : L.depth < u.depth
    · rw [if_pos hd]
      refine ⟨fun hn => (nomatch hn), ?_⟩
      rintro ⟨rfl, ht⟩
      exact absurd ht.depth_le (by omega)
    · rw [if_neg hd]
      by_cases hlong : (s.mode.long L && !isNumChar c) = true
      · rw [if_pos hlong]
        refine ⟨fun hn => (nomatch hn), ?_⟩
        rintro ⟨rfl, ht⟩
        rw [(hu.mp ht).2] at hlong
        cases hlong
      · rw [if_neg hlong, Except.ok.injEq]
        refine ⟨?_, And.left⟩
        rintro rfl
        exact ⟨rfl, hu.mpr ⟨by omega, by simpa using hlong⟩⟩

/-- What is held at the end of a run was held all along. -/
theorem run_fits (hs : s.Fresh) (h : s.run cs = some t) (ht : t.Fits L) : s.Fits L := by
  induction cs generalizing s with
  | nil =>
    obtain rfl := Option.some.inj h
    exact ht
  | cons c cs ih =>
    obtain ⟨u, hu, hrun⟩ := Option.bind_eq_some_iff.mp h
    exact ((step_fits hs hu).mp (ih (step_fresh hs hu) hrun)).1

theorem runIn_ok_iff (hs : s.Fresh) (hfits : s.Fits L) :
    s.runIn L cs = .ok t ↔ s.run cs = some t ∧ t.Fits L := by
  induction cs generalizing s with
  | nil =>
    show Except.ok s = _ ↔ some s = some t ∧ _
    rw [Except.ok.injEq, Option.some.injEq]
    refine ⟨?_, And.left⟩
    rintro rfl
    exact ⟨rfl, hfits⟩
  | cons c cs ih =>
    show (s.stepIn L c).bind _ = _ ↔ (s.step c).bind _ = _ ∧ _
    constructor
    · intro h
      cases hu : s.stepIn L c with
      | error e =>
        rw [hu] at h
        cases h
      | ok u =>
        rw [hu] at h
        obtain ⟨hstep, hufits⟩ := (stepIn_ok_iff hs hfits).mp hu
        rw [hstep]
        exact (ih (step_fresh hs hstep) hufits).mp h
    · rintro ⟨h, ht⟩
      obtain ⟨u, hstep, hrun⟩ := Option.bind_eq_some_iff.mp h
      have hufits := run_fits (step_fresh hs hstep) hrun ht
      rw [(stepIn_ok_iff hs hfits).mpr ⟨hstep, hufits⟩]
      exact (ih (step_fresh hs hstep) hufits).mpr ⟨hrun, ht⟩

theorem finish_cases (h : s.finish = some v) :
    s.stack = [] ∧ (s.mode = .after v ∨ ∃ buf, s.mode = .num buf ∧ parseNumber buf = some v) := by
  obtain ⟨K, mode⟩ := s
  unfold State.finish at h
  split at h
  · next hK hm =>
    obtain rfl := Option.some.inj h
    exact ⟨hK, Or.inl hm⟩
  · next hK hm => exact ⟨hK, Or.inr ⟨_, hm, h⟩⟩
  · cases h

theorem finishIn_ok_iff (hfits : s.Fits L) :
    s.finishIn L = .ok v ↔ s.finish = some v ∧ v.fitsAt L 0 = true := by
  unfold State.finishIn
  cases h : s.finish with
  | none => simp
  | some w =>
    suffices hlong : s.mode.long L = false ↔ w.fitsAt L 0 = true by
      show (if s.mode.long L = true then _ else _) = _ ↔ _
      rw [Option.some.injEq]
      by_cases hl : s.mode.long L = true
      · rw [if_pos hl]
        refine ⟨fun hn => (nomatch hn), ?_⟩
        rintro ⟨rfl, hw⟩
        rw [hlong.mpr hw] at hl
        cases hl
      · rw [if_neg hl, Except.ok.injEq]
        refine ⟨?_, And.left⟩
        rintro rfl
        exact ⟨rfl, hlong.mp (by simpa using hl)⟩
    obtain ⟨hK, hmode | ⟨buf, hmode, hv⟩⟩ := finish_cases h
    · have hw := hfits.2
      rw [hmode, hK] at hw
      rw [hmode]
      exact ⟨fun _ => hw, fun _ => rfl⟩
    · rw [hmode]
      exact parseNumber_fits hv

/-- Within the limits exactly the values that are within them are read. -/
theorem loadsIn_ok_iff : loadsIn L cs = .ok v ↔ loads cs = some v ∧ v.fitsAt L 0 = true := by
  show (start.runIn L cs).bind _ = _ ↔ (start.run cs).bind _ = _ ∧ _
  constructor
  · intro h
    cases hrun : start.runIn L cs with
    | error e =>
      rw [hrun] at h
      cases h
    | ok t =>
      rw [hrun] at h
      obtain ⟨hrun, ht⟩ := (runIn_ok_iff start_fresh start_fits).mp hrun
      rw [hrun]
      exact (finishIn_ok_iff ht).mp h
  · rintro ⟨h, hv⟩
    obtain ⟨t, hrun, hfin⟩ := Option.bind_eq_some_iff.mp h
    have ht : t.Fits L := by
      obtain ⟨hK, hmode | ⟨buf, hmode, -⟩⟩ := finish_cases hfin
      · rw [State.Fits, hK, hmode]
        exact ⟨trivial, hv⟩
      · rw [State.Fits, hK, hmode]
        exact ⟨trivial, trivial⟩
    rw [(runIn_ok_iff start_fresh start_fits).mpr ⟨hrun, ht⟩]
    exact (finishIn_ok_iff ht).mpr ⟨hfin, hv⟩

/-! ## Too deep -/

/-- The characters are read as far as one that opens a container too many. -/
def State.Overflows (L : Limits) (s : State) (cs : List Char) : Prop :=
  ∃ p c rest t u, cs = p ++ c :: rest ∧ s.run p = some t ∧ t.Fits L ∧ t.step c = some u
    ∧ L.depth < u.depth

theorem overflows_nil : ¬ s.Overflows L [] := by
  rintro ⟨p, c, rest, t, u, hcs, -⟩
  simp at hcs

theorem overflows_cons : s.Overflows L (c :: cs)
    ↔ ∃ u, s.step c = some u ∧ (s.Fits L ∧ L.depth < u.depth ∨ u.Overflows L cs) := by
  constructor
  · rintro ⟨p, d, rest, t, u, hcs, hrun, ht, hstep, hdeep⟩
    cases p with
    | nil =>
      obtain ⟨rfl, -⟩ := List.cons.inj hcs
      obtain rfl := Option.some.inj hrun
      exact ⟨u, hstep, Or.inl ⟨ht, hdeep⟩⟩
    | cons e p =>
      obtain ⟨rfl, rfl⟩ := List.cons.inj hcs
      obtain ⟨w, hw, hrun⟩ := Option.bind_eq_some_iff.mp hrun
      exact ⟨w, hw, Or.inr ⟨p, d, rest, t, u, rfl, hrun, ht, hstep, hdeep⟩⟩
  · rintro ⟨u, hstep, ⟨hs, hdeep⟩ | ⟨p, d, rest, t, w, rfl, hrun, ht, hnext, hdeep⟩⟩
    · exact ⟨[], c, cs, s, u, rfl, rfl, hs, hstep, hdeep⟩
    · refine ⟨c :: p, d, rest, t, w, rfl, ?_, ht, hnext, hdeep⟩
      exact Option.bind_eq_some_iff.mpr ⟨u, hstep, hrun⟩

theorem overflows_fits (hs : s.Fresh) (h : s.Overflows L cs) : s.Fits L := by
  obtain ⟨p, c, rest, t, u, -, hrun, ht, -⟩ := h
  exact run_fits hs hrun ht

theorem runIn_recursion_iff (hs : s.Fresh) (hfits : s.Fits L) :
    s.runIn L cs = .error .recursion ↔ s.Overflows L cs := by
  induction cs generalizing s with
  | nil => exact ⟨fun h => (nomatch h), fun h => absurd h overflows_nil⟩
  | cons c cs ih =>
    rw [overflows_cons]
    show (s.stepIn L c).bind _ = _ ↔ _
    unfold State.stepIn
    cases hstep : s.step c with
    | none => simp [Except.bind]
    | some u =>
      have hfresh := step_fresh hs hstep
      have hu : u.Fits L ↔ _ := step_fits hs hstep
      simp only [Option.some.injEq, exists_eq_left']
      by_cases hd : L.depth < u.depth
      · rw [if_pos hd]
        exact ⟨fun _ => Or.inl ⟨hfits, hd⟩, fun _ => rfl⟩
      · rw [if_neg hd, or_iff_right fun h => hd h.2]
        by_cases hlong : (s.mode.long L && !isNumChar c) = true
        · rw [if_pos hlong]
          refine ⟨fun h => (nomatch h), fun h => ?_⟩
          rw [(hu.mp (overflows_fits hfresh h)).2.2] at hlong
          cases hlong
        · rw [if_neg hlong]
          exact ih hfresh (hu.mpr ⟨hfits, by omega, by simpa using hlong⟩)

/-- A reader raises on the depth of a text exactly when it comes to a container too many. -/
theorem loadsIn_recursion_iff : loadsIn L cs = .error .recursion ↔ start.Overflows L cs := by
  rw [← runIn_recursion_iff start_fresh start_fits]
  show (start.runIn L cs).bind _ = _ ↔ _
  cases start.runIn L cs with
  | error e =>
    show Except.error e = _ ↔ _
    rw [Except.error.injEq, Except.error.injEq]
  | ok t =>
    show t.finishIn L = _ ↔ _
    unfold State.finishIn
    refine ⟨fun h => ?_, fun h => nomatch h⟩
    split at h
    · cases h
    · split_ifs at h
      cases h

theorem run_brackets (K : List Frame) (n : Nat) : State.run ⟨K, .value⟩ (List.replicate n '[')
    = some ⟨List.replicate n (.arr []) ++ K, if n = 0 then .value else .first⟩ := by
  suffices hfirst : ∀ n K, State.run ⟨K, .first⟩ (List.replicate n '[')
      = some ⟨List.replicate n (.arr []) ++ K, .first⟩ by
    cases n with
    | zero => rfl
    | succ n =>
      show State.run ⟨.arr [] :: K, .first⟩ (List.replicate n '[') = _
      rw [hfirst, List.replicate_succ', List.append_assoc]
      rfl
  intro n
  induction n with
  | zero => exact fun K => rfl
  | succ n ih =>
    intro K
    show State.run ⟨.arr [] :: K, .first⟩ (List.replicate n '[') = _
    rw [ih, List.replicate_succ', List.append_assoc]
    rfl

theorem fitsStack_brackets {n : Nat} (hK : FitsStack L K) (hn : n + K.length ≤ L.depth) :
    FitsStack L (List.replicate n (.arr []) ++ K) := by
  induction n with
  | zero => exact hK
  | succ n ih =>
    refine ⟨?_, List.forall_mem_nil _, ih (by omega)⟩
    show (List.replicate n (Frame.arr []) ++ K).length < L.depth
    rw [List.length_append, List.length_replicate]
    omega

/-- Brackets enough are too many, whatever comes after them. -/
theorem overflows_brackets {p rest : List Char} {n : Nat} (hp : start.run p = some ⟨K, .value⟩)
    (hK : FitsStack L K) (hn : L.depth < K.length + n) :
    start.Overflows L (p ++ List.replicate n '[' ++ rest) := by
  obtain ⟨m, hm⟩ : ∃ m, L.depth = K.length + m := Nat.exists_eq_add_of_le hK.length_le
  obtain ⟨k, rfl⟩ : ∃ k, n = m + (k + 1) := ⟨n - m - 1, by omega⟩
  have hrun := run_brackets K m
  -- the first bracket that is one too many
  have hstep : State.step ⟨List.replicate m (.arr []) ++ K, if m = 0 then .value else .first⟩ '['
      = some ⟨.arr [] :: (List.replicate m (.arr []) ++ K), .first⟩ := by
    split <;> rfl
  refine ⟨p ++ List.replicate m '[', '[', List.replicate k '[' ++ rest, _, _, ?_,
    (run_append_of hp _).trans hrun, ⟨fitsStack_brackets hK (by omega), ?_⟩, hstep, ?_⟩
  · rw [List.replicate_add, List.replicate_succ]
    simp
  · show Mode.Fits L _ (if m = 0 then .value else .first)
    split <;> trivial
  · show L.depth < List.length (_ :: (List.replicate m _ ++ K)) + 0
    rw [List.length_cons, List.length_append, List.length_replicate]
    omega

end Reading

/-! ## Writing -/

section Writing

variable (L : Limits) (esc : Char → List Char)

mutual
/-- The text of a value under `k` open containers. -/
def dumpsAt : Nat → Json → Except Refusal (List Char)
  | _, .int i => if L.takes i then .ok i.repr.toList else .error .value
  | k, .arr xs =>
    if k < L.depth then (dumpItemsAt (k + 1) true xs).map ('[' :: ·) else .error .recursion
  | k, .obj ms =>
    if k < L.depth then (dumpMembersAt (k + 1) true ms).map ('{' :: ·) else .error .recursion
  | _, j => .ok (dumpsWith esc j)
def dumpItemsAt (k : Nat) (fst : Bool) : List Json → Except Refusal (List Char)
  | [] => .ok [']']
  | x :: xs => do
    let item ← dumpsAt k x
    let rest ← dumpItemsAt k false xs
    pure ((if fst then [] else [',', ' ']) ++ item ++ rest)
def dumpMembersAt (k : Nat) (fst : Bool) : List (String × Json) → Except Refusal (List Char)
  | [] => .ok ['}']
  | (key, v) :: ms => do
    let item ← dumpsAt k v
    let rest ← dumpMembersAt k false ms
    pure ((if fst then [] else [',', ' ']) ++ dumpStr esc key ++ (':' :: ' ' :: item) ++ rest)
end

variable {L esc} {k : Nat}

theorem ok_of_map {α β : Type} {x : Except Refusal α} {f : α → β} {b : β} :
    x.map f = .ok b ↔ ∃ a, x = .ok a ∧ b = f a := by
  cases x with
  | error e => simp [Except.map]
  | ok a => simp [Except.map, eq_comm]

theorem ok_of_bind {α β : Type} {x : Except Refusal α} {f : α → Except Refusal β} {b : β} :
    (x >>= f) = .ok b ↔ ∃ a, x = .ok a ∧ f a = .ok b := by
  cases x with
  | error e => simp [bind, Except.bind]
  | ok a => simp [bind, Except.bind]

mutual
/-- The writer under limits writes what the writer writes, exactly where that is within them. -/
theorem dumpsAt_ok_iff : ∀ {j : Json} {k : Nat} {cs : List Char},
    dumpsAt L esc k j = .ok cs ↔ j.fitsAt L k = true ∧ cs = dumpsWith esc j
  | .int i, k, cs => by
    rw [dumpsAt, Json.fitsAt, dumpsWith]
    by_cases h : L.takes i = true
    · simp [h, eq_comm]
    · simp [h]
  | .arr xs, k, cs => by
    rw [dumpsAt, Json.fitsAt, Bool.and_eq_true, decide_eq_true_eq, dumpsWith]
    by_cases hk : k < L.depth
    · rw [if_pos hk, ok_of_map, and_iff_right hk]
      simp only [dumpItemsAt_ok_iff, and_assoc, exists_and_left, exists_eq_left]
    · simp [hk]
  | .obj ms, k, cs => by
    rw [dumpsAt, Json.fitsAt, Bool.and_eq_true, decide_eq_true_eq, dumpsWith]
    by_cases hk : k < L.depth
    · rw [if_pos hk, ok_of_map, and_iff_right hk]
      simp only [dumpMembersAt_ok_iff, and_assoc, exists_and_left, exists_eq_left]
    · simp [hk]
  | .null, k, cs | .bool _, k, cs | .dec _, k, cs | .nan, k, cs | .inf, k, cs | .negInf, k, cs
  | .str _, k, cs => by
    rw [dumpsAt, Json.fitsAt, Except.ok.injEq, and_iff_right rfl]
    · exact eq_comm
    all_goals simp
theorem dumpItemsAt_ok_iff : ∀ {xs : List Json} {k : Nat} {fst : Bool} {cs : List Char},
    dumpItemsAt L esc k fst xs = .ok cs ↔ fitsItems L k xs = true ∧ cs = dumpItems esc fst xs
  | [], k, fst, cs => by
    rw [dumpItemsAt, fitsItems, dumpItems, Except.ok.injEq, and_iff_right rfl, eq_comm]
  | x :: xs, k, fst, cs => by
    rw [dumpItemsAt, fitsItems, dumpItems, Bool.and_eq_true]
    simp only [ok_of_bind, dumpsAt_ok_iff, dumpItemsAt_ok_iff, pure, Except.pure, Except.ok.injEq,
      and_assoc, exists_and_left, exists_eq_left]
    rw [eq_comm (b := cs)]
theorem dumpMembersAt_ok_iff : ∀ {ms : List (String × Json)} {k : Nat} {fst : Bool} {cs : List Char},
    dumpMembersAt L esc k fst ms = .ok cs
      ↔ fitsMembers L k ms = true ∧ cs = dumpMembers esc fst ms
  | [], k, fst, cs => by
    rw [dumpMembersAt, fitsMembers, dumpMembers, Except.ok.injEq, and_iff_right rfl, eq_comm]
  | (key, v) :: ms, k, fst, cs => by
    rw [dumpMembersAt, fitsMembers, dumpMembers, Bool.and_eq_true]
    simp only [ok_of_bind, dumpsAt_ok_iff, dumpMembersAt_ok_iff, pure, Except.pure, Except.ok.injEq,
      and_assoc, exists_and_left, exists_eq_left]
    rw [eq_comm (b := cs)]
end

end Writing

/-- `dumps`, within the limits. -/
def dumpsIn (L : Limits) (j : Json) : Except Refusal (List Char) := dumpsAt L escChar 0 j

theorem dumpsIn_ok_iff {L : Limits} {j : Json} {cs : List Char} :
    dumpsIn L j = .ok cs ↔ j.fitsAt L 0 = true ∧ cs = dumps j := dumpsAt_ok_iff

end JsonText
