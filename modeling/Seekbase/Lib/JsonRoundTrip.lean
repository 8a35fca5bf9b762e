/-
# Seekbase.Lib.JsonRoundTrip — what `dumps` wrote, `loads` reads back, ∀ values.

The machine is deterministic, so the round trip is one fact per writer function: from a state that
expects a value, the text of `v` leads to a state that holds `v` as finished (`run_dumpsWith`).  A
number has no closing character, so "finished" is `Ready`: either the value itself or a number
token that stands for it.  The rest is the mutual recursion of the writer, over any escapes that the
machine takes back one character at a time (`Escapes`); both writers have such escapes.
-/
import Mathlib.Data.List.TakeWhile
import Seekbase.Lib.Json

namespace JsonText

/-! ## Runs compose -/

@[simp] theorem State.run_nil (s : State) : s.run [] = some s := rfl

@[simp] theorem State.run_cons (s : State) (c : Char) (cs : List Char) :
    s.run (c :: cs) = (s.step c).bind (·.run cs) := rfl

theorem State.run_append (s : State) (a b : List Char) :
    s.run (a ++ b) = (s.run a).bind (·.run b) := by
  induction a generalizing s with
  | nil => rfl
  | cons c a ih =>
    simp only [List.cons_append, State.run_cons, Option.bind_assoc]
    exact congrArg _ (funext fun t => ih t)

/-- A run through `a` and then `b`, one step lemma after the other. -/
theorem run_append_of {s t : State} {a : List Char} (h : s.run a = some t) (b : List Char) :
    s.run (a ++ b) = t.run b := by
  rw [State.run_append, h]; rfl

/-! ## Strings -/

theorem hexVal_hexDigit : ∀ d, d < 16 → hexVal (hexDigit d) = some d := by decide

theorem unescape_shortEscape {c e : Char} (h : shortEscape c = some e) :
    e ≠ 'u' ∧ unescape e = some c := by
  unfold shortEscape at h
  split_ifs at h <;> subst_vars <;> obtain rfl := Option.some.inj h <;> decide

/-- A character without a short escape is neither the quote nor the backslash. -/
theorem shortEscape_none {c : Char} (h : shortEscape c = none) : c ≠ '"' ∧ c ≠ '\\' :=
  ⟨by rintro rfl; exact absurd h (by decide), by rintro rfl; exact absurd h (by decide)⟩

/-- The machine reads the escape of a character as the character. -/
def Escapes (esc : Char → List Char) : Prop := ∀ K buf slot c,
  State.run ⟨K, .str buf .plain slot⟩ (esc c) = some ⟨K, .str (buf ++ [c]) .plain slot⟩

theorem run_escChar : Escapes escChar := by
  intro K buf slot c
  unfold escChar
  cases hs : shortEscape c with
  | some e =>
    obtain ⟨hu, hc⟩ := unescape_shortEscape hs
    simp [State.step, stepStr, hu, hc]
  | none =>
    obtain ⟨hq, hb⟩ := shortEscape_none hs
    by_cases h32 : c.toNat < 32
    · have h0 : hexVal '0' = some 0 := by decide
      have h1 := hexVal_hexDigit (c.toNat / 16) (by omega)
      have h2 := hexVal_hexDigit (c.toNat % 16) (by omega)
      have hsum : c.toNat / 16 * 16 + c.toNat % 16 = c.toNat := Nat.div_add_mod' c.toNat 16
      have hlo : ¬ 55296 ≤ c.toNat := by omega
      have hhi : ¬ 56320 ≤ c.toNat := by omega
      simp [State.step, stepStr, closeHex, h32, h0, h1, h2, hsum, hlo, hhi]
    · simp [State.step, stepStr, hq, hb, h32]

/-- Four digits are read as the number they write. -/
theorem run_hex4 (K : List Frame) (buf : List Char) (slot : Slot) (hi : Option Nat) {n : Nat}
    (h : n < 65536) : State.run ⟨K, .str buf (.slash hi) slot⟩ (hex4 n).tail
      = (closeHex buf slot hi n).map (⟨K, ·⟩) := by
  have h1 := hexVal_hexDigit (n / 4096 % 16) (by omega)
  have h2 := hexVal_hexDigit (n / 256 % 16) (by omega)
  have h3 := hexVal_hexDigit (n / 16 % 16) (by omega)
  have h4 := hexVal_hexDigit (n % 16) (by omega)
  have hsum : ((n / 4096 % 16 * 16 + n / 256 % 16) * 16 + n / 16 % 16) * 16 + n % 16 = n := by omega
  simp only [hex4, List.tail_cons, State.run_cons, State.step, stepStr, if_pos, Option.map_some,
    Option.bind_some, h1, h2, h3, h4]
  simp [hsum]

theorem run_escAscii : Escapes escAscii := by
  intro K buf slot c
  unfold escAscii
  have hvalid := c.valid
  split
  · exact run_escChar K buf slot c
  · next h127 =>
    split
    · next h16 =>
      -- no character is a surrogate
      have hno : ¬ (55296 ≤ c.toNat ∧ c.toNat < 57344) := by
        rcases hvalid with hlo | hhi
        · intro h
          exact absurd h.1 (Nat.not_le.mpr hlo)
        · intro h
          exact absurd h.2 (Nat.not_lt.mpr (Nat.le_of_lt_succ (Nat.succ_lt_succ hhi.1)))
      have hhigh : ¬ (55296 ≤ c.toNat ∧ c.toNat < 56320) := by omega
      have hlow : ¬ (56320 ≤ c.toNat ∧ c.toNat < 57344) := by omega
      have hslash : State.step ⟨K, .str buf .plain slot⟩ '\\'
          = some ⟨K, .str buf (.slash none) slot⟩ := by simp [State.step, stepStr]
      show State.run _ ('\\' :: (hex4 c.toNat).tail) = _
      rw [State.run_cons, hslash, Option.bind_some, run_hex4 K buf slot none h16]
      simp [closeHex, hhigh, hlow]
    · next h16 =>
      have htop : c.toNat < 1114112 := by
        rcases hvalid with hlo | hhi
        · exact Nat.lt_trans hlo (by decide)
        · exact hhi.2
      have hi := run_hex4 K buf slot none (n := 55296 + (c.toNat - 65536) / 1024) (by omega)
      have lo := run_hex4 K buf slot (some (55296 + (c.toNat - 65536) / 1024))
        (n := 56320 + (c.toNat - 65536) % 1024) (by omega)
      have hhigh : 55296 ≤ 55296 + (c.toNat - 65536) / 1024
          ∧ 55296 + (c.toNat - 65536) / 1024 < 56320 := by omega
      have hlow : 56320 ≤ 56320 + (c.toNat - 65536) % 1024
          ∧ 56320 + (c.toNat - 65536) % 1024 < 57344 := by omega
      have hpair : 65536 + (55296 + (c.toNat - 65536) / 1024 - 55296) * 1024
          + (56320 + (c.toNat - 65536) % 1024 - 56320) = c.toNat := by omega
      simp only [closeHex, if_pos hhigh, Option.map_some] at hi
      simp only [closeHex, if_pos hlow, hpair, Option.map_some, Char.ofNat_toNat] at lo
      have hslash : State.step ⟨K, .str buf .plain slot⟩ '\\'
          = some ⟨K, .str buf (.slash none) slot⟩ := by simp [State.step, stepStr]
      have hagain : ∀ h, State.step ⟨K, .str buf (.high h) slot⟩ '\\'
          = some ⟨K, .str buf (.slash (some h)) slot⟩ := by simp [State.step, stepStr]
      show State.run _ ('\\' :: ((hex4 _).tail ++ '\\' :: (hex4 _).tail)) = _
      rw [State.run_cons, hslash, Option.bind_some, run_append_of hi, State.run_cons, hagain,
        Option.bind_some]
      exact lo

section Escaped

variable {esc : Char → List Char} (hesc : Escapes esc)
include hesc

theorem run_escaped (K : List Frame) (slot : Slot) (cs buf : List Char) :
    State.run ⟨K, .str buf .plain slot⟩ (cs.flatMap esc)
      = some ⟨K, .str (buf ++ cs) .plain slot⟩ := by
  induction cs generalizing buf with
  | nil => simp
  | cons c cs ih =>
    rw [List.flatMap_cons, run_append_of (hesc K buf slot c), ih]
    simp

/-- The text of a string, from its opening quote to its closing quote, in either slot. -/
theorem run_dumpStr_body (K : List Frame) (slot : Slot) (s : String) :
    State.run ⟨K, .str [] .plain slot⟩ (s.toList.flatMap esc ++ ['"'])
      = some ⟨K, closeStr s.toList slot⟩ := by
  rw [run_append_of (run_escaped hesc K slot s.toList [])]
  simp [State.step, stepStr]

theorem run_dumpStr_value (K : List Frame) (s : String) :
    State.run ⟨K, .value⟩ (dumpStr esc s) = some ⟨K, .after (.str s)⟩ := by
  have h := run_dumpStr_body hesc K .value s
  simpa [dumpStr, State.step, startValue, isWs, closeStr] using h

theorem run_dumpStr_key (K : List Frame) (ms : List (String × Json)) (fst : Bool) (s : String) :
    State.run ⟨K, .key ms fst⟩ (dumpStr esc s) = some ⟨K, .colon ms s⟩ := by
  have h := run_dumpStr_body hesc K (.key ms) s
  simpa [dumpStr, State.step, isWs, closeStr] using h

end Escaped

/-! ## Numbers -/

theorem isNumChar_of_isDigit {c : Char} (h : c.isDigit = true) : isNumChar c = true := by
  simp [isNumChar, h]

theorem dropWhile_isDigit {ds : List Char} (h : ∀ c ∈ ds, c.isDigit = true) :
    ds.dropWhile Char.isDigit = [] := List.dropWhile_eq_nil_iff.mpr h

theorem isDigit_of_mem_digits {n : Nat} {c : Char} (h : c ∈ Nat.toDigits 10 n) :
    c.isDigit = true := Nat.isDigit_of_mem_toDigits (b := 10) (by omega) (by omega) h

/-- The decimal digits of a number are an integer token: only `0` itself starts with a zero. -/
theorem intPart_toDigits (n : Nat) : intPart (Nat.toDigits 10 n) = some [] := by
  have hd : ∀ c ∈ Nat.toDigits 10 n, c.isDigit = true := fun c hc => isDigit_of_mem_digits hc
  have hhead : ∀ m : Nat, 0 < m → ∀ c r, Nat.toDigits 10 m = c :: r → c ≠ '0' := by
    intro m
    induction m using Nat.strongRecOn with
    | _ m ih =>
      intro hm c r hcr
      rw [Nat.toDigits_eq_if (by decide)] at hcr
      split at hcr
      · obtain ⟨rfl, -⟩ := List.cons.inj hcr
        simp; omega
      · cases hq : Nat.toDigits 10 (m / 10) with
        | nil => exact absurd hq (by simp)
        | cons d ds =>
          rw [hq] at hcr
          obtain ⟨rfl, -⟩ := List.cons.inj hcr
          exact ih (m / 10) (by omega) (by omega) d ds hq
  cases hn : Nat.toDigits 10 n with
  | nil => exact absurd hn (by simp)
  | cons c r =>
    rw [hn] at hd
    have hr : r.dropWhile Char.isDigit = [] :=
      dropWhile_isDigit fun d h => hd d (List.mem_cons_of_mem c h)
    by_cases hc : c = '0'
    · have h0 : n = 0 := by
        by_contra h
        exact hhead n (by omega) c r hn hc
      subst h0
      obtain ⟨rfl, rfl⟩ := List.cons.inj hn.symm
      rfl
    · simp [intPart, hc, hd c (by simp), hr]

theorem isDigit_ne_minus {c : Char} (h : c.isDigit = true) : c ≠ '-' := by
  rintro rfl; revert h; decide

theorem unsign_toDigits (n : Nat) : unsign (Nat.toDigits 10 n) = Nat.toDigits 10 n := by
  cases hn : Nat.toDigits 10 n with
  | nil => rfl
  | cons c r =>
    have hc : c ≠ '-' := isDigit_ne_minus (isDigit_of_mem_digits (n := n) (by rw [hn]; simp))
    simp [unsign, hc]

/-- An integer's text is a number token that stands for it. -/
theorem parseNumber_int (i : Int) : parseNumber i.repr.toList = some (.int i) := by
  have hint : isInt i.repr.toList = true := by
    rw [Int.repr_eq_if]
    split
    · rename_i h
      simp [isInt, unsign_toDigits, intPart_toDigits]
    · simp [isInt, unsign, intPart_toDigits]
  simp [parseNumber, hint]

theorem int_chars (i : Int) : ∀ c ∈ i.repr.toList, isNumChar c = true := by
  rw [Int.repr_eq_if]
  intro c hc
  split at hc
  · simp only [Nat.toList_repr] at hc
    exact isNumChar_of_isDigit (isDigit_of_mem_digits hc)
  · simp only [String.toList_append, Nat.toList_repr, List.mem_append] at hc
    rcases hc with hc | hc
    · simp at hc; subst hc; decide
    · exact isNumChar_of_isDigit (isDigit_of_mem_digits hc)

theorem parseNumber_dec (d : Dec) : parseNumber d.text.toList = some (.dec d) := by
  have hint : isInt d.text.toList = false := by
    have h := d.wf
    by_contra hc
    simp only [Bool.not_eq_false, isInt, decide_eq_true_eq] at hc
    simp [isDec, hc, isExp] at h
  have hc := d.chars
  simp only [parseNumber, hint, Bool.false_eq_true, if_false]
  rw [dif_pos ⟨d.wf, hc⟩]
  simp

/-- A number token starts with a sign or a digit. -/
theorem head_of_intPart {cs : List Char} (h : intPart (unsign cs) ≠ none) :
    ∃ c r, cs = c :: r ∧ (c = '-' ∨ c.isDigit = true) := by
  cases cs with
  | nil => exact absurd rfl h
  | cons c r =>
    refine ⟨c, r, rfl, ?_⟩
    by_cases hm : c = '-'
    · exact Or.inl hm
    · refine Or.inr ?_
      by_contra hd
      have hz : c ≠ '0' := by rintro rfl; exact hd (by decide)
      simp [unsign, intPart, hm, hd, hz] at h

theorem head_of_parseNumber {cs : List Char} {v : Json} (h : parseNumber cs = some v) :
    ∃ c r, cs = c :: r ∧ (c = '-' ∨ c.isDigit = true) := by
  apply head_of_intPart
  intro hn
  simp [parseNumber, isInt, isDec, hn] at h

theorem startValue_num {K : List Frame} {c : Char} (h : c = '-' ∨ c.isDigit = true) :
    startValue K c = some ⟨K, .num [c]⟩ := by
  rcases h with rfl | h
  · simp [startValue, isWs]
  · have hne : ∀ d : Char, d.isDigit = false → c ≠ d := by
      rintro d hd rfl; rw [h] at hd; exact Bool.noConfusion hd
    simp [startValue, isWs, h, hne ' ' rfl, hne '\t' rfl, hne '\n' rfl, hne '\r' rfl, hne '"' rfl,
      hne '{' rfl, hne '[' rfl, hne 'n' rfl, hne 't' rfl, hne 'f' rfl, hne 'N' rfl, hne 'I' rfl]

theorem run_numChars (K : List Frame) (cs buf : List Char) (h : ∀ c ∈ cs, isNumChar c = true) :
    State.run ⟨K, .num buf⟩ cs = some ⟨K, .num (buf ++ cs)⟩ := by
  induction cs generalizing buf with
  | nil => simp
  | cons c cs ih =>
    have hc : isNumChar c = true := h c (by simp)
    have hstep : State.step ⟨K, .num buf⟩ c = some ⟨K, .num (buf ++ [c])⟩ := by
      simp [State.step, hc]
    rw [State.run_cons, hstep, Option.bind_some, ih _ (fun d hd => h d (by simp [hd]))]
    simp

/-! ## Finished values -/

/-- The machine holds `v` as a finished value on the stack `K`: a number token is only closed by
the character after it. -/
def Ready (K : List Frame) (v : Json) (s : State) : Prop :=
  s = ⟨K, .after v⟩ ∨ ∃ buf, s = ⟨K, .num buf⟩ ∧ parseNumber buf = some v

theorem Ready.step {K : List Frame} {v : Json} {s : State} (h : Ready K v s) {c : Char}
    (hc : isNumChar c = false) (hI : c ≠ 'I') : s.step c = afterValue K v c := by
  rcases h with rfl | ⟨buf, rfl, hb⟩
  · rfl
  · simp [State.step, hc, hI, hb]

theorem Ready.finish {v : Json} {s : State} (h : Ready [] v s) : s.finish = some v := by
  rcases h with rfl | ⟨buf, rfl, hb⟩
  · rfl
  · exact hb

theorem ready_num {K : List Frame} {v : Json} {cs : List Char} (hv : parseNumber cs = some v)
    (hcs : ∀ c ∈ cs, isNumChar c = true) :
    ∃ s, State.run ⟨K, .value⟩ cs = some s ∧ Ready K v s := by
  obtain ⟨c, r, rfl, hc⟩ := head_of_parseNumber hv
  refine ⟨⟨K, .num (c :: r)⟩, ?_, Or.inr ⟨_, rfl, hv⟩⟩
  have hstep : State.step ⟨K, .value⟩ c = some ⟨K, .num [c]⟩ := startValue_num hc
  rw [State.run_cons, hstep, Option.bind_some, run_numChars K r [c] (fun d hd => hcs d (by simp [hd]))]
  simp

section RoundTrip

variable {esc : Char → List Char}

/-- The first character of a value's text is a visible one of ASCII, and no closing bracket. -/
theorem dumpsWith_visible (j : Json) :
    ∃ c r, dumpsWith esc j = c :: r ∧ (32 < c.toNat ∧ c.toNat < 127) ∧ c ≠ ']' := by
  have hnum : ∀ {cs : List Char} {v : Json}, parseNumber cs = some v →
      ∃ c r, cs = c :: r ∧ (32 < c.toNat ∧ c.toNat < 127) ∧ c ≠ ']' := by
    intro cs v hv
    obtain ⟨c, r, rfl, hc⟩ := head_of_parseNumber hv
    refine ⟨c, r, rfl, ?_⟩
    rcases hc with rfl | hc
    · exact ⟨by decide, by decide⟩
    · have hle : 48 ≤ c.toNat ∧ c.toNat ≤ 57 := Char.isDigit_iff_toNat.mp hc
      refine ⟨by omega, ?_⟩
      rintro rfl
      exact absurd hle (by decide)
  cases j with
  | null | nan | inf | negInf => exact ⟨_, _, rfl, by decide, by decide⟩
  | bool b => cases b <;> exact ⟨_, _, rfl, by decide, by decide⟩
  | int i => exact hnum (parseNumber_int i)
  | dec d => exact hnum (parseNumber_dec d)
  | str s => exact ⟨_, _, rfl, by decide, by decide⟩
  | arr xs => exact ⟨_, _, rfl, by decide, by decide⟩
  | obj ms => exact ⟨_, _, rfl, by decide, by decide⟩

/-- It is neither blank nor a closing bracket. -/
theorem dumpsWith_head (j : Json) :
    ∃ c r, dumpsWith esc j = c :: r ∧ isWs c = false ∧ c ≠ ']' := by
  obtain ⟨c, r, heq, ⟨hlow, -⟩, hc⟩ := @dumpsWith_visible esc j
  refine ⟨c, r, heq, ?_, hc⟩
  have hne : ∀ d : Char, d.toNat ≤ 32 → c ≠ d := by
    rintro d hd rfl
    omega
  simp [isWs, hne ' ' (by decide), hne '\t' (by decide), hne '\n' (by decide), hne '\r' (by decide)]

/-- After an opening bracket a value is read exactly as anywhere else. -/
theorem run_first {K : List Frame} (j : Json) :
    State.run ⟨K, .first⟩ (dumpsWith esc j) = State.run ⟨K, .value⟩ (dumpsWith esc j) := by
  obtain ⟨c, r, hj, hws, hb⟩ := dumpsWith_head j
  have hstep : State.step ⟨K, .first⟩ c = State.step ⟨K, .value⟩ c := by
    simp [State.step, hws, hb]
  rw [hj, State.run_cons, State.run_cons, hstep]

/-! ## The round trip -/

mutual
/-- From a state that expects a value, the text of `j` leads to a state that holds `j`. -/
theorem run_dumpsWith (hesc : Escapes esc) : ∀ (j : Json) (K : List Frame),
    ∃ s, State.run ⟨K, .value⟩ (dumpsWith esc j) = some s ∧ Ready K j s
  | .null, K => ⟨_, rfl, Or.inl rfl⟩
  | .bool true, K => ⟨_, rfl, Or.inl rfl⟩
  | .bool false, K => ⟨_, rfl, Or.inl rfl⟩
  | .int i, K => ready_num (parseNumber_int i) (int_chars i)
  | .dec d, K => ready_num (parseNumber_dec d) d.chars
  | .nan, K => ⟨_, rfl, Or.inl rfl⟩
  | .inf, K => ⟨_, rfl, Or.inl rfl⟩
  | .negInf, K => ⟨_, rfl, Or.inl rfl⟩
  | .str s, K => ⟨_, run_dumpStr_value hesc K s, Or.inl rfl⟩
  | .arr [], K => ⟨⟨K, .after (.arr [])⟩, by
      simp [dumpsWith, dumpItems, State.step, startValue, isWs], Or.inl rfl⟩
  | .arr (x :: xs), K => by
    obtain ⟨s, hs, hx⟩ := run_dumpsWith hesc x (.arr [] :: K)
    refine ⟨⟨K, .after (.arr (x :: xs))⟩, ?_, Or.inl rfl⟩
    have hopen : State.step ⟨K, .value⟩ '[' = some ⟨.arr [] :: K, .first⟩ := by
      simp [State.step, startValue, isWs]
    have htext : dumpsWith esc (.arr (x :: xs))
        = '[' :: (dumpsWith esc x ++ dumpItems esc false xs) := by
      simp [dumpsWith, dumpItems]
    rw [htext, State.run_cons, hopen, Option.bind_some, run_append_of ((run_first x).trans hs)]
    simpa using run_dumpItems hesc xs K [] x s hx
  | .obj [], K => ⟨⟨K, .after (.obj [])⟩, by
      simp [dumpsWith, dumpMembers, State.step, startValue, isWs], Or.inl rfl⟩
  | .obj ((k, v) :: ms), K => by
    obtain ⟨s, hs, hv⟩ := run_dumpsWith hesc v (.obj [] k :: K)
    refine ⟨⟨K, .after (.obj ((k, v) :: ms))⟩, ?_, Or.inl rfl⟩
    have hopen : State.step ⟨K, .value⟩ '{' = some ⟨K, .key [] true⟩ := by
      simp [State.step, startValue, isWs]
    have hcolon : State.run ⟨K, .colon [] k⟩ [':', ' '] = some ⟨.obj [] k :: K, .value⟩ := by
      simp [State.step, startValue, isWs]
    have htext : dumpsWith esc (.obj ((k, v) :: ms)) = '{' :: (dumpStr esc k
        ++ ([':', ' '] ++ (dumpsWith esc v ++ dumpMembers esc false ms))) := by
      simp [dumpsWith, dumpMembers]
    rw [htext, State.run_cons, hopen, Option.bind_some,
      run_append_of (run_dumpStr_key hesc K [] true k),
      run_append_of hcolon, run_append_of hs]
    simpa using run_dumpMembers hesc ms K [] k v s hv
/-- The items after `v` close the array that `v` was read into. -/
theorem run_dumpItems (hesc : Escapes esc) : ∀ (xs : List Json) (K : List Frame)
    (done : List Json) (v : Json) (s : State), Ready (.arr done :: K) v s →
    s.run (dumpItems esc false xs) = some ⟨K, .after (.arr (done ++ v :: xs))⟩
  | [], K, done, v, s, h => by
    have hstep : s.step ']' = some ⟨K, .after (.arr (done ++ [v]))⟩ := by
      rw [h.step (by decide) (by decide)]; simp [afterValue, isWs]
    simp [dumpItems, hstep]
  | x :: xs, K, done, v, s, h => by
    obtain ⟨t, ht, hx⟩ := run_dumpsWith hesc x (.arr (done ++ [v]) :: K)
    have hcomma : s.step ',' = some ⟨.arr (done ++ [v]) :: K, .value⟩ := by
      rw [h.step (by decide) (by decide)]; simp [afterValue, isWs]
    have hblank : State.step ⟨.arr (done ++ [v]) :: K, .value⟩ ' '
        = some ⟨.arr (done ++ [v]) :: K, .value⟩ := by simp [State.step, startValue, isWs]
    have htext : dumpItems esc false (x :: xs)
        = ',' :: ' ' :: (dumpsWith esc x ++ dumpItems esc false xs) := by
      simp [dumpItems]
    rw [htext, State.run_cons, hcomma, Option.bind_some, State.run_cons, hblank, Option.bind_some,
      run_append_of ht, run_dumpItems hesc xs K (done ++ [v]) x t hx]
    simp
/-- The members after `(k, v)` close the object that `v` was read into. -/
theorem run_dumpMembers (hesc : Escapes esc) : ∀ (rest : List (String × Json)) (K : List Frame)
    (done : List (String × Json)) (k : String) (v : Json) (s : State),
    Ready (.obj done k :: K) v s →
    s.run (dumpMembers esc false rest) = some ⟨K, .after (.obj (done ++ (k, v) :: rest))⟩
  | [], K, done, k, v, s, h => by
    have hstep : s.step '}' = some ⟨K, .after (.obj (done ++ [(k, v)]))⟩ := by
      rw [h.step (by decide) (by decide)]; simp [afterValue, isWs]
    simp [dumpMembers, hstep]
  | (k', v') :: rest, K, done, k, v, s, h => by
    obtain ⟨t, ht, hv⟩ := run_dumpsWith hesc v' (.obj (done ++ [(k, v)]) k' :: K)
    have hcomma : s.step ',' = some ⟨K, .key (done ++ [(k, v)]) false⟩ := by
      rw [h.step (by decide) (by decide)]; simp [afterValue, isWs]
    have hblank : State.step ⟨K, .key (done ++ [(k, v)]) false⟩ ' '
        = some ⟨K, .key (done ++ [(k, v)]) false⟩ := by simp [State.step, isWs]
    have hcolon : State.run ⟨K, .colon (done ++ [(k, v)]) k'⟩ [':', ' ']
        = some ⟨.obj (done ++ [(k, v)]) k' :: K, .value⟩ := by
      simp [State.step, startValue, isWs]
    have htext : dumpMembers esc false ((k', v') :: rest) = ',' :: ' ' :: (dumpStr esc k'
        ++ ([':', ' '] ++ (dumpsWith esc v' ++ dumpMembers esc false rest))) := by
      simp [dumpMembers]
    rw [htext, State.run_cons, hcomma, Option.bind_some, State.run_cons, hblank, Option.bind_some,
      run_append_of (run_dumpStr_key hesc K _ false k'), run_append_of hcolon, run_append_of ht,
      run_dumpMembers hesc rest K (done ++ [(k, v)]) k' v' t hv]
    simp
end

/-- What a writer with such escapes wrote is read back, for every value. -/
theorem loads_dumpsWith (hesc : Escapes esc) (j : Json) : loads (dumpsWith esc j) = some j := by
  obtain ⟨s, hs, hr⟩ := run_dumpsWith hesc j []
  simp [loads, start, hs, hr.finish]

end RoundTrip

/-- What `dumps` wrote is read back, for every value. -/
theorem loads_dumps (j : Json) : loads (dumps j) = some j := loads_dumpsWith run_escChar j

/-- What the ASCII-only writer wrote is read back, for every value. -/
theorem loads_dumpsAscii (j : Json) : loads (dumpsAscii j) = some j := loads_dumpsWith run_escAscii j

end JsonText
