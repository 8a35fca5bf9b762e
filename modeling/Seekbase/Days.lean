/-
# Seekbase.Days — what the two days of a window mean to the database.

A row is stamped with eight ASCII digits, and the predicate compares texts.  Texts of eight ASCII digits
compare as their numbers do.  The check accepts more than those: `\d` is any decimal digit and `$` also
matches before a closing line feed, and such a text is greater than every stamp that begins with its
leading ASCII digits.

* `Date`, `Date.stamp` — the days of the calendar, and what `today` makes of them;
* `dayNumber`       — the number a text denotes, as Python reads it;
* `compare_lead`    — how a text compares with a stamp that begins as it does, and with any other;
* `MeansStart`, `MeansEnd` — refused, or the rows the number says;
* `days_mean_iff`   — exactly which texts mean what they say.
-/
import Seekbase.Parse
import Seekbase.Unseen
import Mathlib.Tactic.Ring

namespace Seekbase

/-! ## Numbers -/

def number : List Char → Nat
  | [] => 0
  | c :: cs => decimalValue c * 10 ^ cs.length + number cs

theorem isDigit_iff {c : Char} : c.isDigit = true ↔ 48 ≤ c.toNat ∧ c.toNat ≤ 57 := Char.isDigit_iff_toNat

theorem decimalValue_lt (c : Char) : decimalValue c < 10 := by
  unfold decimalValue
  cases hz : decimalZeros.find? fun z => z ≤ c.toNat && c.toNat < z + 10 with
  | none => exact Nat.zero_lt_succ 9
  | some z =>
    have hin := List.find?_some hz
    rw [Bool.and_eq_true, decide_eq_true_eq, decide_eq_true_eq] at hin
    show c.toNat - z < 10
    omega

theorem decimalValue_ascii {c : Char} (h : c.isDigit = true) : decimalValue c = c.toNat - 48 := by
  obtain ⟨hlo, hhi⟩ := isDigit_iff.mp h
  have hfirst : (decide (48 ≤ c.toNat) && decide (c.toNat < 48 + 10)) = true := by
    rw [Bool.and_eq_true, decide_eq_true_eq, decide_eq_true_eq]
    omega
  have hfind : (decimalZeros.find? fun z => z ≤ c.toNat && c.toNat < z + 10) = some 48 :=
    List.find?_cons_of_pos hfirst
  rw [decimalValue, hfind]
  rfl

/-- A decimal digit that is not an ASCII one stands behind all of those. -/
theorem decimal_gt {c d : Char} (hc : c.isDigit = true) (hd : isDecimal d = true)
    (hno : d.isDigit = false) : c < d := by
  obtain ⟨-, hhi⟩ := isDigit_iff.mp hc
  have hzeros : ∀ z ∈ decimalZeros, z = 48 ∨ 1632 ≤ z := by decide
  obtain ⟨z, hz, hin⟩ := List.any_eq_true.mp hd
  rw [Bool.and_eq_true, decide_eq_true_eq, decide_eq_true_eq] at hin
  have hlarge : 57 < d.toNat := by
    rcases hzeros z hz with rfl | hbig
    · have hdigit : ¬ (48 ≤ d.toNat ∧ d.toNat ≤ 57) := by
        rw [← isDigit_iff, hno]
        exact Bool.false_ne_true
      omega
    · omega
  show c.toNat < d.toNat
  omega

theorem ascii_lt {c d : Char} (hc : c.isDigit = true) (hd : d.isDigit = true) (h : c < d) :
    decimalValue c < decimalValue d := by
  obtain ⟨hlo, hhi⟩ := isDigit_iff.mp hc
  have hlt : c.toNat < d.toNat := h
  rw [decimalValue_ascii hc, decimalValue_ascii hd]
  omega

theorem number_lt (cs : List Char) : number cs < 10 ^ cs.length := by
  induction cs with
  | nil => exact Nat.zero_lt_one
  | cons c cs ih =>
    have hc := decimalValue_lt c
    have hstep : (decimalValue c + 1) * 10 ^ cs.length ≤ 10 * 10 ^ cs.length :=
      Nat.mul_le_mul_right _ hc
    rw [number, List.length_cons, Nat.pow_succ, Nat.mul_comm (10 ^ cs.length)]
    rw [Nat.add_mul, Nat.one_mul] at hstep
    omega

/-- The leading digit decides. -/
theorem number_cons_lt {x y : Char} {a b : List Char} (hlen : a.length = b.length)
    (h : decimalValue x < decimalValue y) : number (x :: a) < number (y :: b) := by
  have ha := number_lt a
  have hstep : (decimalValue x + 1) * 10 ^ a.length ≤ decimalValue y * 10 ^ a.length :=
    Nat.mul_le_mul_right _ h
  rw [Nat.add_mul, Nat.one_mul] at hstep
  rw [number, number, ← hlen]
  omega

/-! ## Comparing -/

/-- The ASCII digits a text begins with. -/
def leadDigits (cs : List Char) : List Char := cs.takeWhile Char.isDigit

/-- Beside a stamp of as many digits: one that begins with other digits than the text compares as the
numbers do, and one that begins with its digits is smaller, unless it is all of them. -/
theorem compare_lead {t b : List Char} (hlen : t.length = b.length) (ht : ∀ c ∈ t, c.isDigit = true)
    (hb : ∀ c ∈ b, isDecimal c = true) (tail : List Char) :
    if leadDigits b <+: t then (if leadDigits b = b then t = b else t < b ++ tail)
    else (t < b ++ tail ∧ number t < number b) ∨ (b ++ tail < t ∧ number b < number t) := by
  induction b generalizing t with
  | nil =>
    obtain rfl := List.length_eq_zero_iff.mp hlen
    simp [leadDigits]
  | cons x b ih =>
    cases t with
    | nil => cases hlen
    | cons y t =>
      have hlen' : t.length = b.length := Nat.succ.inj hlen
      have hrest := ih hlen' (fun c hc => ht c (List.mem_cons_of_mem y hc))
        fun c hc => hb c (List.mem_cons_of_mem x hc)
      have hy := ht y List.mem_cons_self
      by_cases hx : x.isDigit = true
      · have hlead : leadDigits (x :: b) = x :: leadDigits b := List.takeWhile_cons_of_pos hx
        rw [hlead, List.cons_append]
        rcases lt_trichotomy y x with hlt | rfl | hgt
        · have hno : ¬ x :: leadDigits b <+: y :: t := by
            rintro ⟨rest, heq⟩
            exact hlt.ne (List.cons.inj heq).1.symm
          rw [if_neg hno]
          exact Or.inl ⟨List.cons_lt_cons_iff.mpr (Or.inl hlt), number_cons_lt hlen' (ascii_lt hy hx hlt)⟩
        · have hcut : (y :: leadDigits b <+: y :: t) = (leadDigits b <+: t) :=
            propext ⟨fun h => (List.cons_prefix_cons.mp h).2, fun h => List.cons_prefix_cons.mpr ⟨rfl, h⟩⟩
          have hall : (y :: leadDigits b = y :: b) = (leadDigits b = b) := by simp
          have htext : (y :: t = y :: b) = (t = b) := by simp
          have hless (u v : List Char) : (y :: u < y :: v) = (u < v) := by
            simp
          have hnumber (u v : List Char) (huv : u.length = v.length) :
              (number (y :: u) < number (y :: v)) = (number u < number v) := by
            simp [number, huv]
          rw [hless, hless, hnumber t b hlen', hnumber b t hlen'.symm]
          simp only [hcut, hall, htext]
          exact hrest
        · have hno : ¬ x :: leadDigits b <+: y :: t := by
            rintro ⟨rest, heq⟩
            exact hgt.ne (List.cons.inj heq).1
          rw [if_neg hno]
          exact Or.inr ⟨List.cons_lt_cons_iff.mpr (Or.inl hgt), number_cons_lt hlen'.symm (ascii_lt hx hy hgt)⟩
      · have hno : x.isDigit = false := by simpa using hx
        have hlead : leadDigits (x :: b) = [] := List.takeWhile_cons_of_neg hx
        have hlt : y :: t < x :: b ++ tail :=
          List.cons_lt_cons_iff.mpr (Or.inl (decimal_gt hy (hb x List.mem_cons_self) hno))
        rw [hlead, if_pos (List.nil_prefix), if_neg (by simp)]
        exact hlt

/-! ## Days and stamps -/

/-- How many days a month of the calendar has. -/
def daysIn (year month : Nat) : Nat :=
  if month = 2 then if year % 4 = 0 ∧ (year % 100 ≠ 0 ∨ year % 400 = 0) then 29 else 28
  else if month ∈ [4, 6, 9, 11] then 30 else 31

/-- A day `datetime.now` can give. -/
structure Date where
  year : Nat
  month : Nat
  day : Nat
  yearIn : 1970 ≤ year ∧ year ≤ 9999
  monthIn : 1 ≤ month ∧ month ≤ 12
  dayIn : 1 ≤ day ∧ day ≤ daysIn year month

def digit (k : Nat) : Char := Char.ofNat (48 + k % 10)

theorem digit_toNat (k : Nat) : (digit k).toNat = 48 + k % 10 := by
  have hlt : k % 10 < 10 := Nat.mod_lt k (by omega)
  have hvalid : (48 + k % 10).isValidChar := Or.inl (by omega)
  rw [digit, Char.ofNat, dif_pos hvalid]
  rfl

theorem digit_isDigit (k : Nat) : (digit k).isDigit = true := by
  rw [isDigit_iff, digit_toNat]
  omega

theorem decimalValue_digit (k : Nat) : decimalValue (digit k) = k % 10 := by
  rw [decimalValue_ascii (digit_isDigit k), digit_toNat]
  omega

def Date.digits (d : Date) : List Char :=
  [digit (d.year / 1000), digit (d.year / 100), digit (d.year / 10), digit d.year,
    digit (d.month / 10), digit d.month, digit (d.day / 10), digit d.day]

/-- `today`: `strftime("%Y%m%d")`. -/
def Date.stamp (d : Date) : String := String.ofList d.digits

/-- The number a day is written as. -/
def Date.number (d : Date) : Nat := d.year * 10000 + d.month * 100 + d.day

theorem Date.day_le (d : Date) : d.day ≤ 31 := by
  have h := d.dayIn.2
  unfold daysIn at h
  split at h <;> split at h <;> omega

theorem Date.number_digits (d : Date) : Seekbase.number d.digits = d.number := by
  have hday := d.day_le
  have hmonth := d.monthIn
  have hyear := d.yearIn
  simp only [Date.digits, Seekbase.number, decimalValue_digit, List.length_cons, List.length_nil,
    Date.number]
  omega

theorem Date.digits_isDigit (d : Date) : ∀ c ∈ d.digits, c.isDigit = true := by
  intro c hc
  simp only [Date.digits, List.mem_cons, List.not_mem_nil, or_false] at hc
  obtain rfl | rfl | rfl | rfl | rfl | rfl | rfl | rfl := hc <;> exact digit_isDigit _

/-! ## Accepted texts -/

/-- The number a text denotes: `$` leaves a closing line feed out, and so does `int`. -/
def dayNumber (s : String) : Nat := number (dollar s.toList)

/-- Eight ASCII digits and nothing else. -/
def EightDigits (s : String) : Prop := s.toList.length = 8 ∧ ∀ c ∈ s.toList, c.isDigit = true

theorem isDs_split {s : String} (h : isDs s = true) : ∃ tail, s.toList = dollar s.toList ++ tail
    ∧ (tail = [] ∨ tail = ['\n']) ∧ (dollar s.toList).length = 8
    ∧ ∀ c ∈ dollar s.toList, isDecimal c = true := by
  rw [isDs, Bool.and_eq_true, beq_iff_eq, List.all_eq_true] at h
  obtain ⟨hlen, hall⟩ := h
  by_cases hlast : s.toList.getLast? = some '\n'
  · refine ⟨['\n'], ?_, Or.inr rfl, hlen, hall⟩
    rw [dollar, if_pos hlast]
    exact (List.dropLast_append_getLast? '\n' hlast).symm
  · refine ⟨[], ?_, Or.inl rfl, hlen, hall⟩
    rw [dollar, if_neg hlast, List.append_nil]

theorem leadDigits_append {b tail : List Char} (h : tail = [] ∨ tail = ['\n']) :
    leadDigits (b ++ tail) = leadDigits b := by
  induction b with
  | nil => rcases h with rfl | rfl <;> rfl
  | cons x b ih =>
    rw [List.cons_append]
    by_cases hx : x.isDigit = true
    · rw [leadDigits, List.takeWhile_cons_of_pos hx, leadDigits, List.takeWhile_cons_of_pos hx]
      exact congrArg (x :: ·) ih
    · rw [leadDigits, List.takeWhile_cons_of_neg hx, leadDigits, List.takeWhile_cons_of_neg hx]

theorem leadDigits_eq_self {b : List Char} : leadDigits b = b ↔ ∀ c ∈ b, c.isDigit = true :=
  List.takeWhile_eq_self_iff

theorem stamp_lt {d : Date} {s : String} : d.stamp < s ↔ d.digits < s.toList := by
  rw [String.lt_iff_toList_lt, Date.stamp, String.toList_ofList]

theorem lt_stamp {d : Date} {s : String} : s < d.stamp ↔ s.toList < d.digits := by
  rw [String.lt_iff_toList_lt, Date.stamp, String.toList_ofList]

/-- A stamp beside an accepted text: where the text's leading digits are not the stamp's the two compare
as the numbers do, and else the stamp is smaller, unless the text is nothing but its digits. -/
theorem stamp_compare {s : String} (h : isDs s = true) (d : Date) :
    if leadDigits s.toList <+: d.digits then
      (EightDigits s → d.stamp = s ∧ d.number = dayNumber s) ∧ (¬ EightDigits s → d.stamp < s)
    else (d.stamp < s ∧ d.number < dayNumber s) ∨ (s < d.stamp ∧ dayNumber s < d.number) := by
  obtain ⟨tail, hsplit, htail, hlen, hall⟩ := isDs_split h
  have hlead : leadDigits s.toList = leadDigits (dollar s.toList) := by
    rw [hsplit, leadDigits_append htail, ← hsplit]
  have hcompare := compare_lead (t := d.digits) hlen.symm d.digits_isDigit hall tail
  rw [← hsplit, ← hlead, d.number_digits] at hcompare
  by_cases hpre : leadDigits s.toList <+: d.digits
  · rw [if_pos hpre] at hcompare ⊢
    by_cases hself : leadDigits s.toList = dollar s.toList
    · rw [if_pos hself] at hcompare
      have hnumber : d.number = dayNumber s := by
        rw [← d.number_digits, hcompare]
        rfl
      rcases htail with rfl | rfl
      · -- nothing follows the digits, so the text is the stamp
        have heq : d.digits = s.toList := by rw [hcompare, ← List.append_nil (dollar _), ← hsplit]
        refine ⟨fun _ => ⟨?_, hnumber⟩, fun hno => absurd ?_ hno⟩
        · rw [Date.stamp, heq, String.ofList_toList]
        · exact ⟨heq ▸ rfl, heq ▸ d.digits_isDigit⟩
      · refine ⟨fun height => absurd height.1 ?_, fun _ => ?_⟩
        · rw [hsplit, List.length_append, hlen]
          exact Nat.succ_ne_self 8
        · -- the line feed stands behind the whole stamp
          have hless : d.digits ++ [] < d.digits ++ ['\n'] := List.append_left_lt (List.nil_lt_cons '\n' [])
          rw [List.append_nil] at hless
          rw [stamp_lt, hsplit, ← hcompare]
          exact hless
    · rw [if_neg hself] at hcompare
      refine ⟨fun height => absurd ?_ hself, fun _ => stamp_lt.mpr hcompare⟩
      rw [hlead, leadDigits_eq_self]
      intro c hc
      exact height.2 c (hsplit ▸ List.mem_append_left tail hc)
  · rw [if_neg hpre] at hcompare ⊢
    rw [stamp_lt, lt_stamp]
    exact hcompare

/-! ## The two roles -/

/-- Both reads raise `QueryError`, and nothing is executed: the answer is the same whatever the database
and the shell would have said. -/
def Window.Refused (w : Window) : Prop :=
  ∀ (schema : ReadSchema) (engine engine' : Engine) (c : Cursor schema) (world world' : World) (sql : String)
    (params : List Val) (phases : List PlanPhase), engine'.repr = engine.repr →
    ∃ e, e.cls = "QueryError"
      ∧ runQuery engine c world w sql params = (.error e, c)
      ∧ runQuery engine' c world' w sql params = (.error e, c)
      ∧ runPlan engine c world w phases = (.error e, c)
      ∧ runPlan engine' c world' w phases = (.error e, c)

/-- A `ds_start` is refused, or it adds that a row's day of creation is its number or a later one. -/
def MeansStart (s : String) : Prop :=
  (∀ other, Window.Refused ⟨some s, other⟩)
  ∨ ∀ (other : Option String) (r : Row) (d : Date), r.ds = some d.stamp →
      (asof (some s) other r = true ↔ asof none other r = true ∧ dayNumber s ≤ d.number)

/-- A `ds_end` is refused, or it keeps the rows whose day of creation is its number or an earlier one and
whose day of deletion, if they have one, is a later one. -/
def MeansEnd (s : String) : Prop :=
  (∀ other, Window.Refused ⟨other, some s⟩)
  ∨ ∀ (other : Option String) (r : Row) (d : Date), r.ds = some d.stamp →
      (r.deletedDs = none ∨ ∃ x : Date, r.deletedDs = some x.stamp) →
      (asof other (some s) r = true ↔ (∀ a, other = some a → a ≤ d.stamp) ∧ d.number ≤ dayNumber s
        ∧ ∀ x : Date, r.deletedDs = some x.stamp → dayNumber s < x.number)

theorem check_refused {repr : String → String} {w : Window}
    (h : (∃ s, w.dsStart = some s ∧ isDs s = false) ∨ ∃ s, w.dsEnd = some s ∧ isDs s = false) :
    ∃ e, e.cls = "QueryError" ∧ w.check repr = .error e := by
  have hbad (label s : String) (hs : isDs s = false) : checkDs repr label (some s)
      = .error (queryError (label ++ " must be YYYYMMDD, got " ++ repr s)) := by
    rw [checkDs, hs]
    rfl
  unfold Window.check
  cases hstart : checkDs repr "ds_start" w.dsStart with
  | error e =>
    refine ⟨e, ?_, rfl⟩
    cases hds : w.dsStart with
    | none =>
      rw [hds] at hstart
      cases hstart
    | some s =>
      rw [hds, checkDs] at hstart
      split at hstart
      · cases hstart
      · cases hstart
        rfl
  | ok u =>
    rcases h with ⟨s, hds, hs⟩ | ⟨s, hds, hs⟩
    · rw [hds, hbad "ds_start" s hs] at hstart
      cases hstart
    · exact ⟨_, rfl, by rw [hds]; exact hbad "ds_end" s hs⟩

/-- A window with a day that does not have the form is refused. -/
theorem refused_of_bad {w : Window}
    (h : (∃ s, w.dsStart = some s ∧ isDs s = false) ∨ ∃ s, w.dsEnd = some s ∧ isDs s = false) :
    w.Refused := by
  intro schema engine engine' c world world' sql params phases hrepr
  obtain ⟨e, hcls, hcheck⟩ : ∃ e, e.cls = "QueryError" ∧ w.check engine.repr = .error e := check_refused h
  have hcheck' : w.check engine'.repr = .error e := by rw [hrepr, hcheck]
  refine ⟨e, hcls, ?_, ?_, ?_, ?_⟩
  · rw [runQuery, hcheck]
  · rw [runQuery, hcheck']
  · rw [runPlan, hcheck]
  · rw [runPlan, hcheck']

/-- A database where every text is a SELECT without rows. -/
def quietEngine : Engine :=
  { countEngine with
    statements := fun _ => .ok [true]
    execute := fun _ _ _ => .ok ([], [])
    execute_local := fun _ _ _ _ _ => rfl }

/-- A window whose days have the form is not refused. -/
theorem not_refused {w : Window} (hstart : ∀ s, w.dsStart = some s → isDs s = true)
    (hend : ∀ s, w.dsEnd = some s → isDs s = true) : ¬ w.Refused := by
  intro h
  have hcheckDs (label : String) (o : Option String) (ho : ∀ s, o = some s → isDs s = true) :
      checkDs quietEngine.repr label o = .ok () := by
    cases o with
    | none => rfl
    | some s => rw [checkDs, if_pos (ho s rfl)]
  have hcheck : w.check quietEngine.repr = .ok () := by
    rw [Window.check, hcheckDs _ _ hstart]
    exact hcheckDs _ _ hend
  obtain ⟨e, -, hquery, -⟩ :=
    h notesReads quietEngine quietEngine Cursor.fresh nothingStored nothingStored "" [] [] rfl
  rw [runQuery, hcheck] at hquery
  have hanswer := congrArg Prod.fst hquery
  cases hanswer

/-! ## What the condition is -/

/-- For a `ds_start`: it is not accepted, or it is eight ASCII digits, or no day that begins with its
leading ASCII digits reaches its number. -/
def StartsRight (s : String) : Prop :=
  isDs s = false ∨ EightDigits s ∨ ∀ d : Date, leadDigits s.toList <+: d.digits → d.number < dayNumber s

/-- For a `ds_end`: it is not accepted, or no day that begins with its leading ASCII digits exceeds its
number. -/
def EndsRight (s : String) : Prop :=
  isDs s = false ∨ ∀ d : Date, leadDigits s.toList <+: d.digits → d.number ≤ dayNumber s

/-- A row put on a day, and not deleted. -/
def stampedRow (d : Date) : Row := ⟨.null, [], some d.stamp, none, none, none, []⟩

/-- The comparison from the left, day by day. -/
theorem start_agrees {s : String} (h : isDs s = true) (d : Date) :
    (s ≤ d.stamp ↔ dayNumber s ≤ d.number)
      ↔ EightDigits s ∨ (leadDigits s.toList <+: d.digits → d.number < dayNumber s) := by
  have hcompare := stamp_compare h d
  by_cases hpre : leadDigits s.toList <+: d.digits
  · rw [if_pos hpre] at hcompare
    by_cases height : EightDigits s
    · obtain ⟨hstamp, hnumber⟩ := hcompare.1 height
      exact iff_of_true (iff_of_true hstamp.ge hnumber.ge) (Or.inl height)
    · have hbefore : ¬ s ≤ d.stamp := not_le.mpr (hcompare.2 height)
      constructor
      · intro hiff
        exact Or.inr fun _ => not_le.mp fun hle => hbefore (hiff.mpr hle)
      · rintro (hdigits | hnumber)
        · exact absurd hdigits height
        · exact iff_of_false hbefore (not_le.mpr (hnumber hpre))
  · rw [if_neg hpre] at hcompare
    refine iff_of_true ?_ (Or.inr fun hlead => absurd hlead hpre)
    rcases hcompare with ⟨hlt, hnumber⟩ | ⟨hlt, hnumber⟩
    · exact iff_of_false (not_le.mpr hlt) (not_le.mpr hnumber)
    · exact iff_of_true hlt.le hnumber.le

/-- The comparison from the right, day by day. -/
theorem end_agrees {s : String} (h : isDs s = true) (d : Date) :
    (d.stamp ≤ s ↔ d.number ≤ dayNumber s)
      ↔ (leadDigits s.toList <+: d.digits → d.number ≤ dayNumber s) := by
  have hcompare := stamp_compare h d
  by_cases hpre : leadDigits s.toList <+: d.digits
  · rw [if_pos hpre] at hcompare
    have hbefore : d.stamp ≤ s := by
      by_cases height : EightDigits s
      · exact (hcompare.1 height).1.le
      · exact (hcompare.2 height).le
    exact ⟨fun hiff _ => hiff.mp hbefore, fun hnumber => iff_of_true hbefore (hnumber hpre)⟩
  · rw [if_neg hpre] at hcompare
    refine iff_of_true ?_ fun hlead => absurd hlead hpre
    rcases hcompare with ⟨hlt, hnumber⟩ | ⟨hlt, hnumber⟩
    · exact iff_of_true hlt.le hnumber.le
    · exact iff_of_false (not_le.mpr hlt) (not_le.mpr hnumber)

/-- What a `ds_start` adds to the predicate. -/
theorem asof_start {s ds : String} {other : Option String} {r : Row} (hds : r.ds = some ds) :
    asof (some s) other r = true ↔ asof none other r = true ∧ s ≤ ds := by
  cases other <;> simp [asof, hds]

/-- What a `ds_end` asks of a row. -/
theorem asof_end {s ds : String} {other : Option String} {r : Row} (hds : r.ds = some ds) :
    asof other (some s) r = true ↔ (∀ a, other = some a → a ≤ ds) ∧ ds ≤ s
      ∧ ∀ x, r.deletedDs = some x → s < x := by
  cases other <;> cases hx : r.deletedDs <;> simp [asof, hds, hx, and_comm]

theorem meansStart_iff (s : String) : MeansStart s ↔ StartsRight s := by
  cases hs : isDs s with
  | false =>
    exact iff_of_true (Or.inl fun other => refused_of_bad (Or.inl ⟨s, rfl, hs⟩)) (Or.inl hs)
  | true =>
    constructor
    · rintro (href | hmean)
      · refine absurd (href none) (not_refused ?_ nofun)
        intro day hday
        rw [← Option.some.inj hday, hs]
      · have hagrees (d : Date) := (start_agrees hs d).mp (by
          have hrow := hmean none (stampedRow d) d rfl
          rw [asof_start (r := stampedRow d) rfl] at hrow
          have hlive : asof none none (stampedRow d) = true := rfl
          exact ⟨fun hle => (hrow.mp ⟨hlive, hle⟩).2, fun hle => (hrow.mpr ⟨hlive, hle⟩).2⟩)
        by_cases height : EightDigits s
        · exact Or.inr (Or.inl height)
        · exact Or.inr (Or.inr fun d => (hagrees d).resolve_left height)
    · rintro (hno | hright)
      · rw [hs] at hno
        cases hno
      · right
        intro other r d hds
        have hagree := (start_agrees hs d).mpr (hright.imp_right fun h => h d)
        rw [asof_start hds, hagree]

theorem meansEnd_iff (s : String) : MeansEnd s ↔ EndsRight s := by
  cases hs : isDs s with
  | false =>
    exact iff_of_true (Or.inl fun other => refused_of_bad (Or.inr ⟨s, rfl, hs⟩)) (Or.inl hs)
  | true =>
    constructor
    · rintro (href | hmean)
      · refine absurd (href none) (not_refused nofun ?_)
        intro day hday
        rw [← Option.some.inj hday, hs]
      · right
        intro d
        refine (end_agrees hs d).mp ?_
        have hrow := hmean none (stampedRow d) d rfl (Or.inl rfl)
        rw [asof_end (r := stampedRow d) rfl] at hrow
        exact ⟨fun hle => (hrow.mp ⟨nofun, hle, nofun⟩).2.1, fun hle => (hrow.mpr ⟨nofun, hle, nofun⟩).2.1⟩
    · rintro (hno | hright)
      · rw [hs] at hno
        cases hno
      · right
        intro other r d hds hdeleted
        have hlater (x : Date) : s < x.stamp ↔ dayNumber s < x.number := by
          rw [← not_le, ← not_le, (end_agrees hs x).mpr (hright x)]
        rw [asof_end hds, (end_agrees hs d).mpr (hright d)]
        refine and_congr_right fun _ => and_congr_right fun _ => ⟨?_, ?_⟩
        · intro h x hx
          exact (hlater x).mp (h x.stamp hx)
        · intro h x hx
          rcases hdeleted with hnone | ⟨y, hy⟩
          · rw [hnone] at hx
            cases hx
          · obtain rfl := Option.some.inj (hy.symm.trans hx)
            exact (hlater y).mpr (h y hy)

/-- A text given as the first or the last day of a window is refused or means its number exactly when the
condition of its role holds, and a window with a text that has not the form executes nothing. -/
theorem days_mean_iff (s : String) : (MeansStart s ↔ StartsRight s) ∧ (MeansEnd s ↔ EndsRight s)
    ∧ ∀ w : Window, (w.dsStart = some s ∨ w.dsEnd = some s) → isDs s = false → w.Refused := by
  refine ⟨meansStart_iff s, meansEnd_iff s, fun w hw hs => refused_of_bad ?_⟩
  exact hw.imp (fun h => ⟨s, h, hs⟩) fun h => ⟨s, h, hs⟩

def secondOfJanuary : Date where
  year := 2026
  month := 1
  day := 2
  yearIn := by decide
  monthIn := by decide
  dayIn := by decide

def ninthOfJanuary : Date where
  year := 2026
  month := 1
  day := 9
  yearIn := by decide
  monthIn := by decide
  dayIn := by decide

/-- With a closing line feed the day itself is left out at the start; with a wide digit at the end later
days are let in. -/
theorem days_misread : ¬ MeansStart "20260102\n" ∧ ¬ MeansEnd "2026010２" := by
  constructor
  · rw [meansStart_iff]
    rintro (hno | height | hright)
    · exact absurd hno (by decide)
    · exact absurd height.1 (by decide)
    · exact absurd (hright secondOfJanuary (by decide +kernel)) (by decide)
  · rw [meansEnd_iff]
    rintro (hno | hright)
    · exact absurd hno (by decide)
    · exact absurd (hright ninthOfJanuary (by decide +kernel)) (by decide)

end Seekbase
