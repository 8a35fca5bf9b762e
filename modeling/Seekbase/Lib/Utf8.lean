/-
# Seekbase.Lib.Utf8 — UTF-8 text as a list of bytes, and what a cut leaves of it.

Nothing here mentions a program.  `encode` writes a text, `decode` is the STRICT reader: a byte list
that is no encoding of any text is refused as a whole.  A byte-wise cut of an encoding is therefore
either the encoding of a shorter text or unreadable, and nothing written after it repairs it:

* `isSome_decode_append` — whether bytes can be decoded depends only on what follows the last whole
                           character;
* `decode_take`          — a readable cut of a text is the text of a prefix.
-/
import Mathlib.Data.List.Basic

namespace Utf8

/-- The bytes of a text. -/
def encode (cs : List Char) : List UInt8 := cs.flatMap String.utf8EncodeChar

/-- The text whose bytes these are, if there is one. -/
def decode (bs : List UInt8) : Option (List Char) := bs.toByteArray.utf8Decode?.map Array.toList

@[simp] theorem encode_nil : encode [] = [] := rfl

@[simp] theorem encode_append (a b : List Char) : encode (a ++ b) = encode a ++ encode b := by
  simp [encode]

/-- The byte of an ASCII character, or one from 128 on. -/
theorem mem_utf8EncodeChar {c : Char} {b : UInt8} (h : b ∈ String.utf8EncodeChar c) :
    b.toNat = c.toNat ∨ 128 ≤ b.toNat := by
  have hnat : c.val.toNat = c.toNat := rfl
  unfold String.utf8EncodeChar at h
  dsimp only at h
  split at h
  · next hle =>
    rw [List.mem_singleton.mp h, UInt8.toNat_ofNat']
    omega
  · refine Or.inr ?_
    split at h
    · simp only [List.mem_cons, List.not_mem_nil, or_false] at h
      rcases h with rfl | rfl <;> rw [UInt8.toNat_ofNat'] <;> omega
    · split at h
      · simp only [List.mem_cons, List.not_mem_nil, or_false] at h
        rcases h with rfl | rfl | rfl <;> rw [UInt8.toNat_ofNat'] <;> omega
      · simp only [List.mem_cons, List.not_mem_nil, or_false] at h
        rcases h with rfl | rfl | rfl | rfl <;> rw [UInt8.toNat_ofNat'] <;> omega

/-- A text without control characters has no control byte. -/
theorem encode_ge {n : Nat} (hn : n ≤ 128) {cs : List Char} (h : ∀ c ∈ cs, n ≤ c.toNat) {b : UInt8}
    (hb : b ∈ encode cs) : n ≤ b.toNat := by
  obtain ⟨c, hc, hmem⟩ := List.mem_flatMap.mp hb
  have hge := h c hc
  rcases mem_utf8EncodeChar hmem with heq | hbig
  · omega
  · omega

theorem toByteArray_encode (cs : List Char) : (encode cs).toByteArray = cs.utf8Encode := rfl

theorem toByteArray_inj {a b : List UInt8} (h : a.toByteArray = b.toByteArray) : a = b := by
  have hdata := congrArg (fun x => x.data.toList) h
  simpa using hdata

@[simp] theorem decode_encode (cs : List Char) : decode (encode cs) = some cs := by
  simp [decode, toByteArray_encode]

theorem decode_eq_some_iff {bs : List UInt8} {cs : List Char} :
    decode bs = some cs ↔ bs = encode cs := by
  constructor
  · intro h
    obtain ⟨arr, harr, rfl⟩ := Option.map_eq_some_iff.mp h
    have hsome : bs.toByteArray.utf8Decode?.isSome = true := by rw [harr]; rfl
    obtain ⟨l, hl⟩ := ByteArray.isSome_utf8Decode?_iff.mp hsome
    have hdec : some l.toArray = some arr := by rw [← harr, hl, List.utf8Decode?_utf8Encode]
    obtain rfl := Option.some.inj hdec
    exact toByteArray_inj hl
  · rintro rfl
    exact decode_encode cs

/-- A text in front changes nothing about whether the rest can be decoded. -/
theorem isSome_decode_append {cs : List Char} {bs : List UInt8} :
    (decode (encode cs ++ bs)).isSome = (decode bs).isSome := by
  induction cs with
  | nil => rfl
  | cons c cs ih =>
    rw [← ih, Bool.eq_iff_iff]
    have hbytes : (encode (c :: cs) ++ bs).toByteArray
        = [c].utf8Encode ++ (encode cs ++ bs).toByteArray := by
      rw [← toByteArray_encode, ← List.toByteArray_append]
      simp [encode]
    have hstep := ByteArray.isValidUTF8_utf8Encode_singleton_append_iff
      (b := (encode cs ++ bs).toByteArray) (c := c)
    simp only [decode, Option.isSome_map, ByteArray.isSome_utf8Decode?_iff, hbytes]
    constructor
    · rintro ⟨l, hl⟩
      obtain ⟨m, hm⟩ := hstep.mp ⟨l, hl⟩
      exact ⟨m, hm⟩
    · rintro ⟨l, hl⟩
      obtain ⟨m, hm⟩ := hstep.mpr ⟨l, hl⟩
      exact ⟨m, hm⟩

/-- A cut that leaves whole characters leaves the text of a prefix. -/
theorem encode_prefix {a b : List Char} (h : encode a <+: encode b) : a <+: b := by
  obtain ⟨rest, hrest⟩ := h
  refine List.isPrefix_of_utf8Encode_append_eq_utf8Encode rest.toByteArray ?_
  rw [← toByteArray_encode, ← toByteArray_encode, ← List.toByteArray_append, hrest]

theorem decode_take {cs q : List Char} {k : Nat} (h : decode ((encode cs).take k) = some q) :
    q <+: cs := by
  apply encode_prefix
  rw [← decode_eq_some_iff.mp h]
  exact List.take_prefix k (encode cs)

end Utf8
