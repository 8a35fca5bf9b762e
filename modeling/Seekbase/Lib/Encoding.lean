/-
# Seekbase.Lib.Encoding — the encodings a JSON text can come in.

A reader of JSON bytes is not told their encoding.  It looks for a byte order mark, and then at where
the first bytes are zero: a JSON text begins with two ASCII characters, and each of the encodings puts
their zero bytes elsewhere.

* `detectEncoding` — what the first bytes say;
* `decodeJson`     — the text, if the bytes are one in that encoding;
* `decodeJson_encode` — UTF-8 without a mark is read as UTF-8.

A text is characters; a surrogate on its own is none, and bytes that hold one are no text here.
-/
import Seekbase.Lib.Utf8

namespace JsonText

/-- An encoding, and the length of the byte order mark. -/
inductive Encoding where
  | utf8 (mark : Nat)
  | utf16 (be : Bool) (mark : Nat)
  | utf32 (be : Bool) (mark : Nat)

def detectEncoding (bs : List UInt8) : Encoding :=
  if [0x00, 0x00, 0xFE, 0xFF] <+: bs then .utf32 true 4
  else if [0xFF, 0xFE, 0x00, 0x00] <+: bs then .utf32 false 4
  else if [0xFE, 0xFF] <+: bs then .utf16 true 2
  else if [0xFF, 0xFE] <+: bs then .utf16 false 2
  else if [0xEF, 0xBB, 0xBF] <+: bs then .utf8 3
  else
    match bs with
    | [a, b] =>
      if a = 0 then .utf16 true 0 else if b = 0 then .utf16 false 0 else .utf8 0
    | a :: b :: c :: d :: _ =>
      if a = 0 then if b ≠ 0 then .utf16 true 0 else .utf32 true 0
      else if b = 0 then if c ≠ 0 ∨ d ≠ 0 then .utf16 false 0 else .utf32 false 0
      else .utf8 0
    | _ => .utf8 0

/-- The code units of two bytes each. -/
def units16 (be : Bool) : List UInt8 → Option (List Nat)
  | [] => some []
  | [_] => none
  | a :: b :: bs =>
    (units16 be bs).map ((if be then a.toNat * 256 + b.toNat else b.toNat * 256 + a.toNat) :: ·)

/-- The characters of code units; a high surrogate takes the low one after it. -/
def joinUnits : List Nat → Option (List Char)
  | [] => some []
  | [u] => if 0xD800 ≤ u ∧ u < 0xE000 then none else some [Char.ofNat u]
  | u :: v :: us =>
    if 0xD800 ≤ u ∧ u < 0xDC00 then
      if 0xDC00 ≤ v ∧ v < 0xE000 then
        (joinUnits us).map (Char.ofNat (0x10000 + (u - 0xD800) * 1024 + (v - 0xDC00)) :: ·)
      else none
    else if 0xDC00 ≤ u ∧ u < 0xE000 then none
    else (joinUnits (v :: us)).map (Char.ofNat u :: ·)

/-- The characters of four bytes each. -/
def decode32 (be : Bool) : List UInt8 → Option (List Char)
  | [] => some []
  | a :: b :: c :: d :: bs =>
    let n := if be then ((a.toNat * 256 + b.toNat) * 256 + c.toNat) * 256 + d.toNat
      else ((d.toNat * 256 + c.toNat) * 256 + b.toNat) * 256 + a.toNat
    if n.isValidChar then (decode32 be bs).map (Char.ofNat n :: ·) else none
  | _ => none

/-- The text of the bytes of a JSON document. -/
def decodeJson (bs : List UInt8) : Option (List Char) :=
  match detectEncoding bs with
  | .utf8 mark => Utf8.decode (bs.drop mark)
  | .utf16 be mark => (units16 be (bs.drop mark)).bind joinUnits
  | .utf32 be mark => decode32 be (bs.drop mark)

/-- After a brace comes no zero: a text that begins so is UTF-8. -/
theorem detectEncoding_brace {b : UInt8} (hb : b ≠ 0) (bs : List UInt8) :
    detectEncoding (123 :: b :: bs) = .utf8 0 := by
  unfold detectEncoding
  simp only [List.cons_prefix_cons, show (0x00 : UInt8) ≠ 123 by decide,
    show (0xFF : UInt8) ≠ 123 by decide, show (0xFE : UInt8) ≠ 123 by decide,
    show (0xEF : UInt8) ≠ 123 by decide, false_and, if_false]
  match bs with
  | [] => simp [hb]
  | [c] => rfl
  | c :: d :: bs => simp [hb]

/-- UTF-8 without a mark is read as it was written. -/
theorem decodeJson_encode {c : Char} (hc : c.toNat ≠ 0) (cs : List Char) :
    decodeJson (Utf8.encode ('{' :: c :: cs)) = some ('{' :: c :: cs) := by
  have hne : String.utf8EncodeChar c ≠ [] := by
    intro hnil
    have hlen := String.length_utf8EncodeChar c
    rw [hnil, List.length_nil] at hlen
    exact absurd c.utf8Size_pos (by omega)
  obtain ⟨b, bs, hb⟩ := List.exists_cons_of_ne_nil hne
  have hzero : b ≠ 0 := by
    rintro rfl
    have hmem : (0 : UInt8) ∈ String.utf8EncodeChar c := hb ▸ List.mem_cons_self
    rcases Utf8.mem_utf8EncodeChar hmem with heq | hbig
    · exact hc heq.symm
    · exact absurd hbig (by decide)
  have hbytes : Utf8.encode ('{' :: c :: cs) = 123 :: b :: (bs ++ Utf8.encode cs) := by
    show 123 :: (String.utf8EncodeChar c ++ Utf8.encode cs) = _
    rw [hb, List.cons_append]
  rw [decodeJson, hbytes, detectEncoding_brace hzero, ← hbytes]
  exact Utf8.decode_encode _

end JsonText
