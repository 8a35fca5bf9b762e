/-
# Seekbase.Clock — what the clock reads, as texts.

`today` and `now` write an instant of UTC in digits, `now` with a fraction of a second unless it is
zero.  Texts of varying length are compared all over the engine, and it is the plus sign of the offset,
which stands before the point, that makes their order the order of time.

* `Instant.today`, `Instant.now` — a reading of the clock and its two texts;
* `now_lt_iff`              — the texts of two instants are ordered as they are;
* `today_lt_iff`            — and so are the days'.
-/
import Seekbase.Days

namespace Seekbase

/-- A reading of `datetime.now(timezone.utc)`. -/
structure Instant where
  date : Date
  hour : Nat
  minute : Nat
  second : Nat
  micro : Nat
  hourIn : hour < 24
  minuteIn : minute < 60
  secondIn : second < 60
  microIn : micro < 1000000

/-- Instants follow one another as their numbers do. -/
def Instant.number (i : Instant) : Nat :=
  (((i.date.number * 100 + i.hour) * 100 + i.minute) * 100 + i.second) * 1000000 + i.micro

/-! ## Texts -/

def pad2 (n : Nat) : List Char := [digit (n / 10), digit n]

def pad4 (n : Nat) : List Char := pad2 (n / 100) ++ pad2 n

def pad6 (n : Nat) : List Char := pad2 (n / 10000) ++ pad4 n

/-- The text up to the seconds. -/
def Instant.head (i : Instant) : List Char :=
  pad4 i.date.year ++ '-' :: (pad2 i.date.month ++ '-' :: (pad2 i.date.day ++ 'T' :: (pad2 i.hour
    ++ ':' :: (pad2 i.minute ++ ':' :: pad2 i.second))))

/-- The fraction, which is left out when it is zero, and the offset. -/
def Instant.tail (i : Instant) : List Char :=
  (if i.micro = 0 then [] else '.' :: pad6 i.micro) ++ "+00:00".toList

/-- `now`: `isoformat`. -/
def Instant.now (i : Instant) : String := String.ofList (i.head ++ i.tail)

/-- `today`. -/
def Instant.today (i : Instant) : String := i.date.stamp

/-! ## Order -/

/-- Texts that begin with as many characters each. -/
theorem append_lt_iff {p q s t : List Char} (h : p.length = q.length) :
    p ++ s < q ++ t ↔ p < q ∨ p = q ∧ s < t := by
  induction p generalizing q with
  | nil =>
    obtain rfl := List.length_eq_zero_iff.mp h.symm
    simp
  | cons x p ih =>
    cases q with
    | nil => cases h
    | cons y q =>
      rw [List.cons_append, List.cons_append, List.cons_lt_cons_iff, List.cons_lt_cons_iff,
        ih (Nat.succ.inj h), List.cons.injEq]
      tauto

/-- Digits are ordered as their numbers. -/
theorem digits_lt_iff {a b : List Char} (hlen : a.length = b.length)
    (ha : ∀ c ∈ a, c.isDigit = true) (hb : ∀ c ∈ b, c.isDigit = true) :
    (a < b ↔ number a < number b) ∧ (a = b ↔ number a = number b) := by
  have hdecimal : ∀ c ∈ b, isDecimal c = true := by
    intro c hc
    obtain ⟨hlo, hhi⟩ := isDigit_iff.mp (hb c hc)
    refine List.any_eq_true.mpr ⟨48, List.mem_cons_self, ?_⟩
    rw [Bool.and_eq_true, decide_eq_true_eq, decide_eq_true_eq]
    omega
  have hcompare := compare_lead hlen ha hdecimal []
  rw [leadDigits_eq_self.mpr hb, List.append_nil, if_pos rfl] at hcompare
  split at hcompare
  · subst hcompare
    simp
  · rcases hcompare with ⟨hless, hnum⟩ | ⟨hless, hnum⟩
    · exact ⟨iff_of_true hless hnum, iff_of_false hless.ne hnum.ne⟩
    · exact ⟨iff_of_false hless.asymm hnum.asymm, iff_of_false hless.ne' hnum.ne'⟩

theorem pad2_length (n : Nat) : (pad2 n).length = 2 := rfl

theorem pad4_length (n : Nat) : (pad4 n).length = 4 := rfl

theorem pad6_length (n : Nat) : (pad6 n).length = 6 := rfl

theorem pad2_digits (n : Nat) : ∀ c ∈ pad2 n, c.isDigit = true := by
  intro c hc
  rcases List.mem_pair.mp hc with rfl | rfl <;> exact digit_isDigit _

theorem pad4_digits (n : Nat) : ∀ c ∈ pad4 n, c.isDigit = true := by
  intro c hc
  rcases List.mem_append.mp hc with hc | hc <;> exact pad2_digits _ c hc

theorem pad6_digits (n : Nat) : ∀ c ∈ pad6 n, c.isDigit = true := by
  intro c hc
  rcases List.mem_append.mp hc with hc | hc
  · exact pad2_digits _ c hc
  · exact pad4_digits _ c hc

theorem number_pad2 {n : Nat} (h : n < 100) : number (pad2 n) = n := by
  simp only [pad2, number, decimalValue_digit, List.length_cons, List.length_nil]
  omega

theorem number_pad4 {n : Nat} (h : n < 10000) : number (pad4 n) = n := by
  simp only [pad4, pad2, List.cons_append, List.nil_append, number, decimalValue_digit,
    List.length_cons, List.length_nil]
  omega

theorem number_pad6 {n : Nat} (h : n < 1000000) : number (pad6 n) = n := by
  simp only [pad6, pad4, pad2, List.cons_append, List.nil_append, number, decimalValue_digit,
    List.length_cons, List.length_nil]
  omega

theorem pad2_compare {m n : Nat} (hm : m < 100) (hn : n < 100) :
    (pad2 m < pad2 n ↔ m < n) ∧ (pad2 m = pad2 n ↔ m = n) := by
  have h := digits_lt_iff (pad2_length m) (pad2_digits m) (pad2_digits n)
  rwa [number_pad2 hm, number_pad2 hn] at h

theorem pad4_compare {m n : Nat} (hm : m < 10000) (hn : n < 10000) :
    (pad4 m < pad4 n ↔ m < n) ∧ (pad4 m = pad4 n ↔ m = n) := by
  have h := digits_lt_iff (pad4_length m) (pad4_digits m) (pad4_digits n)
  rwa [number_pad4 hm, number_pad4 hn] at h

theorem pad6_lt_iff {m n : Nat} (hm : m < 1000000) (hn : n < 1000000) : pad6 m < pad6 n ↔ m < n := by
  have h := digits_lt_iff (pad6_length m) (pad6_digits m) (pad6_digits n)
  rw [number_pad6 hm, number_pad6 hn] at h
  exact h.1

/-- The offset stands before the point of a fraction. -/
theorem tail_lt_iff (a b : Instant) : a.tail < b.tail ↔ a.micro < b.micro := by
  have hplus : ("+00:00".toList : List Char) = '+' :: "00:00".toList := rfl
  rw [Instant.tail, Instant.tail, hplus]
  by_cases ha : a.micro = 0 <;> by_cases hb : b.micro = 0
  · rw [if_pos ha, if_pos hb, ha, hb]
    simp
  · rw [if_pos ha, if_neg hb]
    refine iff_of_true (List.cons_lt_cons_iff.mpr (.inl (by decide))) (by omega)
  · rw [if_neg ha, if_pos hb]
    refine iff_of_false (fun h => ?_) (by omega)
    rcases List.cons_lt_cons_iff.mp h with h | ⟨h, -⟩ <;> exact absurd h (by decide)
  · rw [if_neg ha, if_neg hb, List.cons_append, List.cons_append, List.cons_lt_cons_iff,
      append_lt_iff (by rw [pad6_length, pad6_length]), pad6_lt_iff a.microIn b.microIn]
    simp

/-- A field, a separator and what follows: the numbers of both, the first in front. -/
theorem field_compare {p q s t : List Char} {c : Char} {m n x y w : Nat} (hlen : p.length = q.length)
    (hp : (p < q ↔ m < n) ∧ (p = q ↔ m = n)) (hs : (s < t ↔ x < y) ∧ (s = t ↔ x = y))
    (hx : x < w) (hy : y < w) : (p ++ c :: s < q ++ c :: t ↔ m * w + x < n * w + y)
      ∧ (p ++ c :: s = q ++ c :: t ↔ m * w + x = n * w + y) := by
  have hless : p ++ c :: s < q ++ c :: t ↔ m < n ∨ m = n ∧ x < y := by
    rw [append_lt_iff hlen, hp.1, hp.2, List.cons_lt_cons_iff, hs.1]
    simp
  have hsame : p ++ c :: s = q ++ c :: t ↔ m = n ∧ x = y := by
    rw [← hp.2, ← hs.2]
    constructor
    · intro h
      obtain ⟨hpq, hrest⟩ := List.append_inj h hlen
      exact ⟨hpq, (List.cons.inj hrest).2⟩
    · rintro ⟨rfl, rfl⟩
      rfl
  rw [hless, hsame]
  rcases lt_trichotomy m n with h | rfl | h
  · have hstep := Nat.mul_le_mul_right w h
    rw [Nat.succ_mul] at hstep
    omega
  · omega
  · have hstep := Nat.mul_le_mul_right w h
    rw [Nat.succ_mul] at hstep
    omega

/-- The text of a later instant is a later text. -/
theorem now_lt_iff {a b : Instant} : a.now < b.now ↔ a.number < b.number := by
  have hlen : a.head.length = b.head.length := rfl
  have hy : a.date.year < 10000 ∧ b.date.year < 10000 := by
    have := a.date.yearIn
    have := b.date.yearIn
    omega
  have hm : a.date.month < 100 ∧ b.date.month < 100 := by
    have := a.date.monthIn
    have := b.date.monthIn
    omega
  have hd : a.date.day < 100 ∧ b.date.day < 100 := by
    have := a.date.day_le
    have := b.date.day_le
    omega
  have h24 := a.hourIn
  have h24' := b.hourIn
  have h60 := a.minuteIn
  have h60' := b.minuteIn
  have hs := a.secondIn
  have hs' := b.secondIn
  -- from the seconds on, each field goes in front of what is compared already
  have hsecond := pad2_compare (m := a.second) (n := b.second) (by omega) (by omega)
  have hminute := field_compare (c := ':') (w := 100) (by rfl)
    (pad2_compare (m := a.minute) (n := b.minute) (by omega) (by omega)) hsecond (by omega) (by omega)
  have hhour := field_compare (c := ':') (w := 10000) (by rfl)
    (pad2_compare (m := a.hour) (n := b.hour) (by omega) (by omega)) hminute (by omega) (by omega)
  have hday := field_compare (c := 'T') (w := 1000000) (by rfl) (pad2_compare hd.1 hd.2) hhour
    (by omega) (by omega)
  have hmonth := field_compare (c := '-') (w := 100000000) (by rfl) (pad2_compare hm.1 hm.2) hday
    (by omega) (by omega)
  have hyear := field_compare (c := '-') (w := 10000000000) (by rfl) (pad4_compare hy.1 hy.2) hmonth
    (by omega) (by omega)
  have ha := a.microIn
  have hb := b.microIn
  rw [Instant.now, Instant.now, String.lt_iff_toList_lt, String.toList_ofList, String.toList_ofList,
    append_lt_iff hlen, Instant.head, Instant.head, hyear.1, hyear.2, tail_lt_iff, Instant.number,
    Instant.number, Date.number, Date.number]
  omega

theorem now_le_iff {a b : Instant} : a.now ≤ b.now ↔ a.number ≤ b.number := by
  rw [← not_lt, ← not_lt, now_lt_iff]

theorem today_lt_iff {a b : Instant} : a.today < b.today ↔ a.date.number < b.date.number := by
  have hlen : a.date.digits.length = b.date.digits.length := rfl
  rw [Instant.today, Instant.today, stamp_lt, Date.stamp, String.toList_ofList,
    (digits_lt_iff hlen a.date.digits_isDigit b.date.digits_isDigit).1, Date.number_digits,
    Date.number_digits]

end Seekbase
