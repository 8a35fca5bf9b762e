/-
# Seekbase.TornTail — one partition file byte by byte, with appends that a crash cuts short.

`File.lean` keeps the mirror as its lines.  Here a partition file is its BYTES: an append adds the
UTF-8 bytes of one line, a crash adds a proper part of them, and `iter_events` decodes strictly,
splits at newlines and skips every line that is no JSON text.

* `iterEvents_bytes` — over whole lines the two views of the mirror agree;
* `Intact`           — the file is whole lines and one stuck tail;
* `torn_tails`       — reading is exact in every state of a run iff no append went onto a torn tail
                       and no cut fell inside a character or just before the newline.
-/
import Mathlib.Data.List.DropRight
import Seekbase.Lib.JsonCut
import Seekbase.Lib.Utf8
import Seekbase.Mirror

namespace Seekbase

open JsonText Transition

/-! ## Reading -/

/-- Universal newlines.  `\r\n` ends one line; read as two ends it leaves an empty line, which the
reader skips. -/
def isNewline (c : Char) : Bool := c == '\n' || c == '\r'

/-- The record of one line, if it is not blank and a JSON text. -/
def readLine (line : List Char) : Option Json :=
  let line := strip line
  if line = [] then none else loads line

/-- The records of an open file. -/
def readText (text : List Char) : List Json := (text.splitOnP isNewline).filterMap readLine

/-- The records of a file's bytes; nothing where decoding raises. -/
def readFile (bytes : List UInt8) : Option (List Json) := (Utf8.decode bytes).map readText

/-- `iter_events` of a table over its partition files `(ds, bytes)`; nothing where it raises. -/
def iterEventBytes (parts : List (String × List UInt8)) : Option (List (String × Json)) :=
  ((parts.insertionSort fun a b => a.1 ≤ b.1).mapM fun p =>
    (readFile p.2).map fun recs => recs.map (p.1, ·)).map List.flatten

/-- The text `_append` writes: one line. -/
def lineText (m : Members) : List Char := dumps (.obj m) ++ ['\n']

def lineBytes (m : Members) : List UInt8 := Utf8.encode (lineText m)

/-! ## Lines of a text -/

theorem readText_newline (a b : List Char) : readText (a ++ '\n' :: b) = readText a ++ readText b := by
  have hsep : isNewline '\n' = true := by decide
  rw [readText, List.splitOnP_append_cons _ _ hsep, List.filterMap_append]
  rfl

theorem readText_single {cs : List Char} (h : ∀ c ∈ cs, isNewline c = false) :
    readText cs = (readLine cs).toList := by
  rw [readText, List.splitOnP_eq_singleton h]
  cases hl : readLine cs <;> simp [hl]

@[simp] theorem readText_nil : readText [] = [] := by
  rw [readText_single (by simp)]; rfl

theorem isNewline_dumps (j : Json) : ∀ c ∈ dumps j, isNewline c = false := by
  intro c hc
  have h32 := dumps_ge j c hc
  have hn : c ≠ '\n' := by rintro rfl; exact absurd h32 (by decide)
  have hr : c ≠ '\r' := by rintro rfl; exact absurd h32 (by decide)
  simp [isNewline, hn, hr]

/-- A text between braces is not touched by `strip`. -/
theorem strip_braces (body : List Char) : strip ('{' :: body ++ ['}']) = '{' :: body ++ ['}'] := by
  have hopen : isSpace '{' = false := by decide
  have hclose : isSpace '}' = false := by decide
  unfold strip
  rw [List.cons_append, List.dropWhile_cons_of_neg (by simp [hopen]), ← List.cons_append,
    List.rdropWhile_concat_neg _ _ _ (by simp [hclose])]

theorem readLine_dumps (m : Members) : readLine (dumps (.obj m)) = some (.obj m) := by
  obtain ⟨body, hbody⟩ := dumps_obj_braces m
  have hstrip : strip (dumps (.obj m)) = dumps (.obj m) := by rw [hbody, strip_braces]
  have hne : dumps (.obj m) ≠ [] := by rw [hbody]; exact List.cons_ne_nil _ _
  unfold readLine
  simp only [hstrip, if_neg hne]
  exact loads_dumps _

theorem readText_dumps (m : Members) : readText (dumps (.obj m)) = [.obj m] := by
  rw [readText_single (isNewline_dumps _), readLine_dumps]; rfl

theorem readText_lineText (m : Members) (cs : List Char) :
    readText (lineText m ++ cs) = .obj m :: readText cs := by
  rw [lineText, List.append_assoc, List.singleton_append, readText_newline, readText_dumps]
  rfl

/-- Nothing is read from a stuck line. -/
theorem readText_stuck {cs : List Char} (hs : Stuck cs) (hhead : ∀ c ∈ cs.head?, c = '{')
    (hnl : ∀ c ∈ cs, isNewline c = false) : readText cs = [] := by
  rw [readText_single hnl]
  have hdrop : cs.dropWhile isSpace = cs := by
    cases cs with
    | nil => rfl
    | cons c cs =>
      have hc : c = '{' := hhead c (by simp)
      subst hc
      exact List.dropWhile_cons_of_neg (by decide)
  have hloads : loads (strip cs) = none := by
    apply Stuck.loads
    apply hs.prefix
    rw [strip, hdrop]
    exact List.rdropWhile_prefix isSpace cs
  have hnone : readLine cs = none := by
    simp only [readLine, hloads, ite_self]
  rw [hnone]; rfl

/-! ## The two views of the mirror -/

/-- The partition files of a table, as the bytes of their lines. -/
def partitionBytes (files : Files) (table : String) : List (String × List UInt8) :=
  (dsDirs files).map fun ds =>
    (ds, (files.filter fun l => l.ds = ds ∧ l.table = table).flatMap fun l => lineBytes l.members)

theorem flatMap_lineBytes (ms : List Members) :
    ms.flatMap lineBytes = Utf8.encode (ms.flatMap lineText) := by
  induction ms with
  | nil => rfl
  | cons m ms ih => rw [List.flatMap_cons, List.flatMap_cons, Utf8.encode_append, ih]; rfl

theorem readFile_lines (ms : List Members) :
    readFile (ms.flatMap lineBytes) = some (ms.map Json.obj) := by
  rw [readFile, flatMap_lineBytes, Utf8.decode_encode, Option.map_some]
  congr 1
  induction ms with
  | nil => exact readText_nil
  | cons m ms ih => rw [List.flatMap_cons, readText_lineText, ih, List.map_cons]

/-- Over whole lines, reading the bytes is the line-level `iterEvents`. -/
theorem iterEvents_bytes (files : Files) (table : String) :
    iterEventBytes (partitionBytes files table)
      = some ((iterEvents files table).map fun e => (e.1, .obj e.2)) := by
  have hsorted : (partitionBytes files table).insertionSort (fun a b => a.1 ≤ b.1)
      = partitionBytes files table := by
    apply List.Pairwise.insertionSort_eq
    rw [partitionBytes, List.pairwise_map]
    exact dsDirs_sorted files
  rw [iterEventBytes, hsorted, partitionBytes, iterEvents]
  generalize dsDirs files = dirs
  rw [List.map_flatMap]
  have hmap : ∀ dirs : List String, ((dirs.map fun ds => (ds,
      (files.filter fun l => l.ds = ds ∧ l.table = table).flatMap fun l => lineBytes l.members)).mapM
        fun p => (readFile p.2).map fun recs => recs.map (p.1, ·))
      = some (dirs.map fun ds => ((files.filter fun l => l.ds = ds ∧ l.table = table).map fun l =>
          (ds, l.members)).map fun e => (e.1, Json.obj e.2)) := by
    intro dirs
    induction dirs with
    | nil => rfl
    | cons ds dirs ih =>
      have hread := readFile_lines
        ((files.filter fun l => l.ds = ds ∧ l.table = table).map (·.members))
      rw [List.flatMap_map] at hread
      rw [List.map_cons, List.mapM_cons, ih, hread]
      simp
  rw [hmap, Option.map_some, ← List.flatMap_def]

/-! ## Appending -/

/-- A record `_append` is called with for a table's partition, and the dict its text stands for. -/
structure Entry (spec : TableSpec) (ds : String) where
  record : Record
  members : Members
  written : Written spec ds record
  dumped : record.toMembers? = some members

/-- An append that completes, or one that a crash cuts after `k` bytes of its line. -/
inductive Append (spec : TableSpec) (ds : String) where
  | whole (e : Entry spec ds)
  | cut (e : Entry spec ds) (k : Nat) (hk : k < (lineBytes e.members).length)

/-- A partition file, and the records whose appends completed. -/
structure Partition where
  bytes : List UInt8
  acked : List Members

def Partition.empty : Partition := ⟨[], []⟩

section Appends

variable {spec : TableSpec} {ds : String}

/-- `open(p, "a")` and one `write`: the bytes go to the end of the file, whatever it ends with. -/
def Partition.append (p : Partition) : Append spec ds → Option Partition
  | .whole e => some ⟨p.bytes ++ lineBytes e.members, p.acked ++ [e.members]⟩
  | .cut e k _ => some ⟨p.bytes ++ (lineBytes e.members).take k, p.acked⟩

/-- `iter_events` raises nothing and yields exactly the completely appended records, in order. -/
def Partition.Reads (ds : String) (p : Partition) : Prop :=
  iterEventBytes [(ds, p.bytes)] = some (p.acked.map fun m => (ds, .obj m))

/-- The file is empty or ends with a newline. -/
def Partition.AtLineStart (p : Partition) : Prop := p.bytes = [] ∨ p.bytes.getLast? = some 10

instance (p : Partition) : Decidable p.AtLineStart := by unfold Partition.AtLineStart; infer_instance

/-- A complete append finds no torn tail.  A cut leaves whole characters, and at the start of a line
it does not leave the whole text of the record without its newline. -/
def CleanCut (p : Partition) : Append spec ds → Prop
  | .whole _ => p.AtLineStart
  | .cut e k _ => (Utf8.decode ((lineBytes e.members).take k)).isSome = true
    ∧ (p.AtLineStart → k ≠ (Utf8.encode (dumps (.obj e.members))).length)

/-- The file is whole lines, read as the completely appended records, and one stuck tail. -/
structure Intact (p : Partition) (lines tail : List Char) : Prop where
  bytes : p.bytes = Utf8.encode (lines ++ tail)
  ends : lines = [] ∨ ∃ body, lines = body ++ ['\n']
  stuck : Stuck tail
  head : ∀ c ∈ tail.head?, c = '{'
  oneLine : ∀ c ∈ tail, isNewline c = false
  reads : readText lines = p.acked.map .obj

end Appends

/-! ## Cut and glued lines -/

theorem isIdentStart_opens {c : Char} (h : isIdentStart c = true) : Opens c := by
  have hne : ∀ d : Char, isIdentStart d = false → c ≠ d := by
    rintro d hd rfl
    rw [h] at hd
    exact Bool.noConfusion hd
  have h32 : ¬ c.toNat < 32 := by
    simp only [isIdentStart, Bool.or_eq_true, Bool.and_eq_true, decide_eq_true_eq, beq_iff_eq] at h
    rcases h with (⟨hA, -⟩ | ⟨ha, -⟩) | rfl
    · have hle : 65 ≤ c.toNat := hA
      omega
    · have hle : 97 ≤ c.toNat := ha
      omega
    · decide
  have hshort : shortEscape c = none := by
    simp [shortEscape, hne '"' rfl, hne '\\' rfl, hne '\n' rfl, hne '\r' rfl, hne '\t' rfl,
      hne (Char.ofNat 8) rfl, hne (Char.ofNat 12) rfl]
  refine ⟨?_, ?_, ?_⟩
  · simp [escChar, hshort, h32]
  · simp [isWs, hne ' ' rfl, hne '\t' rfl, hne '\n' rfl, hne '\r' rfl]
  · simp [hne ',' rfl, hne ']' rfl, hne '}' rfl, hne ':' rfl, hne '"' rfl]

theorem toMembers?_head {kv : String × Val} {r : Record} {m : Members}
    (h : Record.toMembers? (kv :: r) = some m) : ∃ j ms, m = (kv.1, j) :: ms := by
  rw [Record.toMembers?_cons] at h
  obtain ⟨j, -, h⟩ := Option.bind_eq_some_iff.mp h
  obtain ⟨ms, -, rfl⟩ := Option.map_eq_some_iff.mp h
  exact ⟨j, ms, rfl⟩

/-- Every line of the mirror starts with a key that separates nothing: a column name of a table that
was created, or `_deleted`. -/
theorem written_keyed {spec : TableSpec} {ds : String} {line : Record} {m : Members}
    (h : Written spec ds line) (hm : line.toMembers? = some m) : Keyed m := by
  cases h with
  | put r ts hts =>
    obtain ⟨c, cols, hcols⟩ := List.exists_cons_of_ne_nil (List.ne_nil_of_mem spec.primaryMem)
    obtain ⟨a, rest, hname, ha⟩ := spec.identNames c (by rw [hcols]; simp)
    have hline : putLine spec r ds ts = (c.name, r.get c.name)
        :: (cols.map (fun c => (c.name, r.get c.name))
          ++ [("ds", strVal ds), ("created_at", strVal ts)]) := by
      simp [putLine, TableSpec.columnNames, hcols, Function.comp_def]
    rw [hline] at hm
    obtain ⟨j, ms, rfl⟩ := toMembers?_head hm
    exact ⟨a, rest, hname, isIdentStart_opens ha⟩
  | del k ts =>
    obtain ⟨j, ms, rfl⟩ := toMembers?_head hm
    have hname : "_deleted".toList = '_' :: "deleted".toList := by decide
    exact ⟨'_', _, hname, isIdentStart_opens (by decide)⟩

section Steps

variable {spec : TableSpec} {ds : String} {p q : Partition} {lines tail : List Char}

theorem Entry.keyed (e : Entry spec ds) : Keyed e.members := written_keyed e.written e.dumped

theorem Entry.braces (e : Entry spec ds) : ∃ body, dumps (.obj e.members) = '{' :: body := by
  obtain ⟨body, hbody⟩ := dumps_obj_braces e.members
  exact ⟨body ++ ['}'], by rw [hbody]; rfl⟩

/-! ## The file ends at a line boundary iff its tail is empty -/

theorem cont_ne_newline (n : Nat) : UInt8.ofNat (n % 64 + 128) ≠ 10 := by
  intro h
  have hnat := congrArg UInt8.toNat h
  simp only [UInt8.toNat_ofNat'] at hnat
  have h10 : (10 : UInt8).toNat = 10 := rfl
  omega

/-- The last byte of a character is the newline byte only in the newline itself. -/
theorem getLast_utf8EncodeChar {c : Char} (h : (String.utf8EncodeChar c).getLast? = some 10) :
    c = '\n' := by
  unfold String.utf8EncodeChar at h
  dsimp only at h
  split_ifs at h with h1 h2 h3
  · have hbyte : UInt8.ofNat c.val.toNat = 10 := Option.some.inj h
    have hnat := congrArg UInt8.toNat hbyte
    simp only [UInt8.toNat_ofNat'] at hnat
    have h10 : (10 : UInt8).toNat = 10 := rfl
    have hc : c.val.toNat = 10 := by omega
    exact Char.ext (UInt32.toNat_inj.mp hc)
  · exact absurd (Option.some.inj h) (cont_ne_newline _)
  · exact absurd (Option.some.inj h) (cont_ne_newline _)
  · exact absurd (Option.some.inj h) (cont_ne_newline _)

theorem Intact.atLineStart (h : Intact p lines tail) : p.AtLineStart ↔ tail = [] := by
  unfold Partition.AtLineStart
  rw [h.bytes]
  constructor
  · intro hstart
    by_contra hne
    obtain ⟨init, c, rfl⟩ := (List.eq_nil_or_concat' tail).resolve_left hne
    have hc : Utf8.encode [c] ≠ [] := by
      simp [Utf8.encode]
    rw [← List.append_assoc, Utf8.encode_append] at hstart
    rcases hstart with hnil | hlast
    · exact hc (List.append_eq_nil_iff.mp hnil).2
    · rw [List.getLast?_append_of_ne_nil _ hc] at hlast
      have hcn : c = '\n' := getLast_utf8EncodeChar (by simpa [Utf8.encode] using hlast)
      subst hcn
      exact absurd (h.oneLine '\n' (by simp)) (by decide)
  · rintro rfl
    rcases h.ends with rfl | ⟨body, rfl⟩
    · exact Or.inl rfl
    · have hn : Utf8.encode ['\n'] = [10] := by decide
      refine Or.inr ?_
      rw [List.append_nil, Utf8.encode_append, hn, List.getLast?_concat]

/-- Whole lines end before anything that follows them. -/
theorem readText_lines (h : lines = [] ∨ ∃ body, lines = body ++ ['\n']) (cs : List Char) :
    readText (lines ++ cs) = readText lines ++ readText cs := by
  rcases h with rfl | ⟨body, rfl⟩
  · simp
  · have hbody := readText_newline body []
    rw [List.append_assoc, List.singleton_append, readText_newline, hbody, readText_nil,
      List.append_nil]

theorem readFile_encode (cs : List Char) : readFile (Utf8.encode cs) = some (readText cs) := by
  rw [readFile, Utf8.decode_encode, Option.map_some]

theorem iterEventBytes_single (ds : String) (bytes : List UInt8) :
    iterEventBytes [(ds, bytes)] = (readFile bytes).map fun recs => recs.map (ds, ·) := by
  unfold iterEventBytes
  cases hr : readFile bytes <;> simp [hr]

theorem reads_iff : p.Reads ds ↔ readFile p.bytes = some (p.acked.map .obj) := by
  have hinj : Function.Injective fun j : Json => (ds, j) := fun a b hab => (Prod.mk.inj hab).2
  unfold Partition.Reads
  rw [iterEventBytes_single]
  constructor
  · intro hreads
    obtain ⟨recs, hrecs, hmap⟩ := Option.map_eq_some_iff.mp hreads
    have hmap' : recs.map (fun j => (ds, j)) = (p.acked.map Json.obj).map fun j => (ds, j) := by
      rw [hmap, List.map_map]; rfl
    rw [hrecs, (List.map_inj_right hinj).mp hmap']
  · intro hread
    rw [hread, Option.map_some, List.map_map]; rfl

theorem Intact.good (h : Intact p lines tail) : p.Reads ds := by
  rw [reads_iff, h.bytes, readFile_encode, readText_lines h.ends,
    readText_stuck h.stuck h.head h.oneLine, List.append_nil, h.reads]

/-! ## One append -/

/-- A complete append at the start of a line adds a line. -/
theorem Intact.whole (h : Intact p lines []) (e : Entry spec ds) :
    Intact ⟨p.bytes ++ lineBytes e.members, p.acked ++ [e.members]⟩ (lines ++ lineText e.members) [] where
  bytes := by rw [h.bytes, List.append_nil, List.append_nil, Utf8.encode_append]; rfl
  ends := Or.inr ⟨lines ++ dumps (.obj e.members), by rw [lineText, List.append_assoc]⟩
  stuck := h.stuck
  head := by simp
  oneLine := by simp
  reads := by
    have hline := readText_lineText e.members []
    rw [List.append_nil, readText_nil] at hline
    rw [readText_lines h.ends, hline, h.reads, List.map_append]; rfl

/-- A complete append on a torn tail is lost. -/
theorem Intact.whole_lost (h : Intact p lines tail) (hne : tail ≠ []) (e : Entry spec ds) :
    ¬ Partition.Reads ds ⟨p.bytes ++ lineBytes e.members, p.acked ++ [e.members]⟩ := by
  have hstuck : Stuck (tail ++ dumps (.obj e.members)) :=
    h.stuck.append hne e.keyed (List.prefix_refl _)
  have hbytes : p.bytes ++ lineBytes e.members
      = Utf8.encode (lines ++ ((tail ++ dumps (.obj e.members)) ++ '\n' :: [])) := by
    rw [h.bytes, lineBytes, ← Utf8.encode_append, lineText]
    simp only [List.append_assoc]
  have hglued : readText (tail ++ dumps (.obj e.members)) = [] := by
    refine readText_stuck hstuck ?_ ?_
    · rw [List.head?_append_of_ne_nil _ hne]
      exact h.head
    · intro c hc
      rcases List.mem_append.mp hc with hc | hc
      · exact h.oneLine c hc
      · exact isNewline_dumps _ c hc
  rw [reads_iff, hbytes, readFile_encode, readText_lines h.ends, readText_newline, hglued, h.reads]
  intro hread
  have hlen := congrArg List.length (Option.some.inj hread)
  simp at hlen

/-- What a cut between characters leaves of a line is a prefix of the record's text. -/
theorem cut_prefix {m : Members} {k : Nat} (hk : k < (lineBytes m).length)
    (hdec : (Utf8.decode ((lineBytes m).take k)).isSome = true) :
    ∃ more, (lineBytes m).take k = Utf8.encode more ∧ more <+: dumps (.obj m) := by
  obtain ⟨more, hmore⟩ := Option.isSome_iff_exists.mp hdec
  have hbytes := Utf8.decode_eq_some_iff.mp hmore
  refine ⟨more, hbytes, ?_⟩
  rcases List.prefix_concat_iff.mp (Utf8.decode_take hmore) with hall | hpre
  · -- the whole line would have been written
    have hlen := congrArg List.length hbytes
    rw [hall, List.length_take] at hlen
    change min k (lineBytes m).length = (lineBytes m).length at hlen
    omega
  · exact hpre

/-- A cut between characters that leaves no whole record only lengthens the stuck tail. -/
theorem Intact.cut (h : Intact p lines tail) (e : Entry spec ds) {k : Nat}
    (hk : k < (lineBytes e.members).length) (hg : CleanCut p (.cut e k hk)) :
    ∃ more, Intact ⟨p.bytes ++ (lineBytes e.members).take k, p.acked⟩ lines (tail ++ more) := by
  obtain ⟨hdec, hpart⟩ := hg
  obtain ⟨more, hbytes, hpre⟩ := cut_prefix hk hdec
  refine ⟨more, ?_, h.ends, ?_, ?_, ?_, h.reads⟩
  · show p.bytes ++ _ = _
    rw [h.bytes, hbytes, ← Utf8.encode_append, List.append_assoc]
  · by_cases hne : tail = []
    · subst hne
      rw [List.nil_append]
      have hk' := hpart (h.atLineStart.mpr rfl)
      refine stuck_of_cut hpre fun hall => hk' ?_
      have hlen := congrArg List.length hbytes
      rw [hall, List.length_take] at hlen
      omega
    · exact h.stuck.append hne e.keyed hpre
  · intro c hc
    obtain ⟨body, hbody⟩ := e.braces
    cases tail with
    | nil =>
      cases more with
      | nil => simp at hc
      | cons d more =>
        rw [hbody] at hpre
        obtain rfl : d = c := by simpa using hc
        exact (List.cons_prefix_cons.mp hpre).1
    | cons d tail => exact h.head c (by simpa using hc)
  · intro c hc
    rcases List.mem_append.mp hc with hc | hc
    · exact h.oneLine c hc
    · exact isNewline_dumps _ c (hpre.subset hc)

/-- Any other cut makes reading raise, or yields a record that was not completely appended. -/
theorem Intact.cut_bad (h : Intact p lines tail) (e : Entry spec ds) {k : Nat}
    (hk : k < (lineBytes e.members).length) (hg : ¬ CleanCut p (.cut e k hk)) :
    ¬ Partition.Reads ds ⟨p.bytes ++ (lineBytes e.members).take k, p.acked⟩ := by
  rw [reads_iff]
  show ¬ readFile (p.bytes ++ _) = _
  intro hread
  by_cases hdec : (Utf8.decode ((lineBytes e.members).take k)).isSome = true
  · have hbad : ¬ (p.AtLineStart → k ≠ (Utf8.encode (dumps (.obj e.members))).length) :=
      fun hp => hg ⟨hdec, hp⟩
    simp only [Classical.not_imp, not_not] at hbad
    obtain ⟨hstart, hlen⟩ := hbad
    obtain rfl := h.atLineStart.mp hstart
    have htake : (lineBytes e.members).take k = Utf8.encode (dumps (.obj e.members)) := by
      rw [lineBytes, lineText, Utf8.encode_append, hlen, List.take_left]
    rw [h.bytes, htake, List.append_nil, ← Utf8.encode_append, readFile_encode,
      readText_lines h.ends, readText_dumps, h.reads] at hread
    have hcount := congrArg List.length (Option.some.inj hread)
    simp at hcount
  · have hnone : (Utf8.decode (Utf8.encode (lines ++ tail) ++ (lineBytes e.members).take k)).isSome
        = (Utf8.decode ((lineBytes e.members).take k)).isSome := Utf8.isSome_decode_append
    rw [← h.bytes] at hnone
    rw [← hnone] at hdec
    obtain ⟨text, htext, -⟩ := Option.map_eq_some_iff.mp hread
    exact hdec (by rw [htext]; rfl)

/-! ## Runs -/

theorem empty_intact : Intact Partition.empty [] [] where
  bytes := rfl
  ends := Or.inl rfl
  stuck := by
    intro p hp hpre
    exact absurd (List.prefix_nil.mp hpre) hp
  head := by simp
  oneLine := by simp
  reads := readText_nil

theorem append_isSome (a : Append spec ds) : (p.append a).isSome = true := by
  cases a <;> rfl

theorem run_append_isSome (ls : List (Append spec ds)) (p : Partition) :
    (run Partition.append p ls).isSome = true := by
  induction ls generalizing p with
  | nil => rfl
  | cons a ls ih =>
    obtain ⟨q, hq⟩ := Option.isSome_iff_exists.mp (append_isSome (p := p) a)
    rw [run, hq]
    exact ih q

/-- TORN TAILS.  Over every sequence of appends to a partition file, cut anywhere: reading raises
nothing and yields exactly the completely appended records in every state the sequence passes, iff
each complete append starts at a line start, each cut leaves whole characters, and no cut at a line
start leaves a record's whole text without its newline. -/
theorem torn_tails (ls : List (Append spec ds)) :
    (∀ pre, pre <+: ls → ∀ p, run Partition.append Partition.empty pre = some p → p.Reads ds)
      ↔ Guarded Partition.append CleanCut Partition.empty ls := by
  refine always_iff_guarded (I := fun p => ∃ lines tail, Intact p lines tail) ?_ ?_ ?_
    ⟨[], [], empty_intact⟩ (run_append_isSome ls _)
  · rintro p ⟨lines, tail, h⟩
    exact h.good
  · rintro p a q ⟨lines, tail, h⟩ hg hstep
    cases a with
    | whole e =>
      obtain rfl := Option.some.inj hstep
      obtain rfl := h.atLineStart.mp hg
      exact ⟨_, _, h.whole e⟩
    | cut e k hk =>
      obtain rfl := Option.some.inj hstep
      obtain ⟨more, hmore⟩ := h.cut e hk hg
      exact ⟨lines, tail ++ more, hmore⟩
  · rintro p a q ⟨lines, tail, h⟩ hg hstep
    cases a with
    | whole e =>
      obtain rfl := Option.some.inj hstep
      exact h.whole_lost (fun ht => hg (h.atLineStart.mpr ht)) e
    | cut e k hk =>
      obtain rfl := Option.some.inj hstep
      exact h.cut_bad e hk hg

end Steps

/-! ## An acknowledged write that is lost -/

/-- A note of the table of notes, as the mirror's put line of the day. -/
def noteEntry (id : String) : Entry notes "20240101" where
  record := putLine notes [("id", strVal id)] "20240101" "t1"
  members := [("id", .str id), ("text", .null), ("ds", .str "20240101"), ("created_at", .str "t1")]
  written := .put _ _ (by decide)
  dumped := rfl

/-- The first append is cut after three bytes; the second completes. -/
def tornAppends : List (Append notes "20240101") :=
  [.cut (noteEntry "n1") 3 (by decide), .whole (noteEntry "n2")]

/-- A completely appended record is not read: its line was glued onto the torn one. -/
theorem torn_tail_loses : ∃ p, run Partition.append Partition.empty tornAppends = some p
    ∧ p.acked = [(noteEntry "n2").members] ∧ iterEventBytes [("20240101", p.bytes)] = some [] := by
  refine ⟨_, rfl, rfl, ?_⟩
  have hbytes : (lineBytes (noteEntry "n1").members).take 3 ++ lineBytes (noteEntry "n2").members
      = Utf8.encode (['{', '"', 'i'] ++ lineText (noteEntry "n2").members) := by decide
  have hread : readText (['{', '"', 'i'] ++ lineText (noteEntry "n2").members) = [] := by decide
  show iterEventBytes [("20240101", ([] ++ _) ++ _)] = some []
  rw [iterEventBytes_single, List.nil_append, hbytes, readFile_encode, hread]
  rfl

end Seekbase
