/-
# Seekbase.Kind — what a log line is read back as.

A line carries no tag.  The writer puts the user's columns and the engine's `ds` and `created_at` in
one dict, and the reader takes a line for a tombstone when it has the key `_deleted`.  So it depends on
the columns a table may have whether a put is still a put when it is read.

The parser lets through any name that can be hashed.  One that is no text becomes a text in the line,
and the reader asks for the name itself.

* `putRecord`      — the dict of a put line, for the columns of any parsed table;
* `ReadsAsPut`, `ReadsAsTombstone` — what the reader makes of the text of a line;
* `Plain`          — the records whose line is read back as what it is;
* `kinds_kept`     — exactly these, and every tombstone.
-/
import Seekbase.Create
import Seekbase.Replay
import Seekbase.TornTail

namespace Seekbase

open JsonText

/-! ## Lines -/

/-- The key `json.dumps` writes for the key of a dict; no name is a list or a dict. -/
def dictKey : Json → String
  | .str s => s
  | .bool true => "true"
  | .bool false => "false"
  | .null => "null"
  | .int i => i.repr
  | .dec d => d.text
  | .nan => "NaN"
  | .inf => "Infinity"
  | .negInf => "-Infinity"
  | .arr _ | .obj _ => ""

/-- The dict of a put line: the business columns, then `ds` and `created_at`.  `r` is the record, which
binds each of the table's names. -/
def putRecord (t : ParsedTable) (r : Json → Val) (ds now : String) : Record :=
  t.columns.map (fun c => (dictKey c.name, r c.name))
    ++ [("ds", strVal ds), ("created_at", strVal now)]

/-- `rec.get(name)` of a decoded line: no text is the same as a name that is none. -/
def getName (m : Members) : Json → Json
  | .str s => m.get s
  | _ => .null

/-- The text of the line is one event, a put with these values. -/
def ReadsAsPut (t : ParsedTable) (r : Json → Val) (ds now : String) (text : List Char) : Prop :=
  ∃ m : Members, readText text = [.obj m] ∧ isTombstone m = false
    ∧ (∀ c ∈ t.columns, (r c.name).toJson? = some (getName m c.name))
    ∧ m.get "ds" = .str ds ∧ m.get "created_at" = .str now

/-- The text of the line is one event, a tombstone for this key. -/
def ReadsAsTombstone (key : Val) (now : String) (text : List Char) : Prop :=
  ∃ m : Members, readText text = [.obj m] ∧ isTombstone m = true
    ∧ key.toJson? = some (m.get "_deleted") ∧ m.get "deleted_at" = .str now

def IsText (name : Json) : Prop := ∃ s, name = .str s

/-- The records whose lines are read back as they were: no column is called `_deleted`, the columns
whose names are no texts hold nothing, and so does a column whose key a later one of these takes. -/
structure Plain (t : ParsedTable) (r : Json → Val) : Prop where
  undeleted : ∀ c ∈ t.columns, c.name ≠ .str "_deleted"
  texts : ∀ c ∈ t.columns, ¬ IsText c.name → (r c.name).isNone = true
  taken : ∀ pre c post, t.columns = pre ++ c :: post → ∀ d ∈ post, ¬ IsText d.name →
    c.name = .str (dictKey d.name) → (r c.name).isNone = true

/-! ## What the parser has checked of the names -/

/-- No column has a name of the engine's, and no two have the same. -/
structure ParsedTable.Named (py : Python) (t : ParsedTable) : Prop where
  ours : ∀ c ∈ t.columns, ∀ n ∈ metaColumns, c.name ≠ .str n
  apart : t.columns.Pairwise fun a b => py.same b.name a.name = false

section Names

variable {py : Python} {raw : Json} {t : ParsedTable} {tables : List ParsedTable}

theorem among_false {name : Json} {seen : List Json} (h : py.among name seen = false) :
    ∀ n ∈ seen, py.same name n = false := by
  intro n hn
  rw [Python.among, List.any_eq_false] at h
  exact Bool.eq_false_iff.mpr (h n hn)

theorem clean_column {before : List Json} {entry : Json}
    (h : (Item.column before entry).fault py = none) :
    (∀ n ∈ metaColumns, columnName entry ≠ .str n)
      ∧ ∀ n ∈ before, py.same (columnName entry) n = false := by
  dsimp only [Item.fault] at h
  split at h
  · cases h
  split at h
  · cases h
  split at h
  · cases h
  next hmeta =>
  split at h
  · cases h
  next hseen =>
  refine ⟨fun n hn heq => ?_, among_false (Bool.eq_false_iff.mpr hseen)⟩
  have hno := among_false (Bool.eq_false_iff.mpr hmeta) (.str n) (List.mem_map_of_mem hn)
  rw [heq, py.same_str, beq_self_eq_true] at hno
  cases hno

theorem clean_columns {before entries : List Json}
    (h : ∀ x ∈ columnItems before entries, x.fault py = none) :
    (∀ e ∈ entries, (∀ n ∈ metaColumns, columnName e ≠ .str n)
        ∧ ∀ n ∈ before, py.same (columnName e) n = false)
      ∧ entries.Pairwise fun a b => py.same (columnName b) (columnName a) = false := by
  induction entries generalizing before with
  | nil =>
    refine ⟨?_, .nil⟩
    intro e he
    cases he
  | cons e es ih =>
    rw [columnItems, List.forall_mem_cons] at h
    obtain ⟨heach, hpair⟩ := ih h.2
    refine ⟨List.forall_mem_cons.mpr ⟨clean_column h.1, fun d hd => ?_⟩, ?_⟩
    · exact ⟨(heach d hd).1, fun n hn => (heach d hd).2 n (by simp [hn])⟩
    · exact .cons (fun d hd => (heach d hd).2 _ (by simp)) hpair

theorem parsed_named (h : parseSchema py raw = .ok tables) : ∀ t ∈ tables, t.Named py := by
  obtain ⟨hclean, rfl⟩ := parse_ok h
  intro t ht
  obtain ⟨entry, hentry, rfl⟩ := List.mem_map.mp ht
  have hcols : ∀ x ∈ columnItems [] (itemsOf ((membersOf entry).get "columns")),
      x.fault py = none := by
    intro x hx
    apply hclean x
    rw [items, List.mem_cons]
    refine .inr (specItems_sub hentry x ?_)
    rw [specItems, List.mem_cons, List.mem_append]
    exact .inr (.inl hx)
  obtain ⟨heach, hpair⟩ := clean_columns hcols
  constructor
  · intro c hc
    obtain ⟨e, he, rfl⟩ := List.mem_map.mp hc
    exact (heach e he).1
  · show ((itemsOf ((membersOf entry).get "columns")).map (columnOf py)).Pairwise _
    rw [List.pairwise_map]
    exact hpair

end Names

/-! ## Reading a put -/

section Puts

variable {py : Python} {t : ParsedTable} {r : Json → Val} {ds now : String} {m : Members}

theorem dictKey_deleted {name : Json} (h : dictKey name = "_deleted") : name = .str "_deleted" := by
  -- the text of a number has no letter in it, and none of the others is this one
  have hnum : ∀ text : String, (∀ c ∈ text.toList, isNumChar c = true) → text ≠ "_deleted" := by
    rintro text htext rfl
    exact absurd (htext '_' (by decide)) (by decide)
  cases name with
  | str s => exact congrArg Json.str h
  | int i => exact absurd h (hnum _ (int_chars i))
  | dec d => exact absurd h (hnum _ d.chars)
  | bool b => cases b <;> exact absurd h (by decide)
  | _ => simp [dictKey] at h

theorem lookup_keys {cols : List ParsedColumn} {key : String} {v : Val}
    (h : lookup key (cols.map fun c => (dictKey c.name, r c.name)) = some v) :
    ∃ c ∈ cols, dictKey c.name = key ∧ r c.name = v := by
  obtain ⟨c, hc, heq⟩ := List.mem_map.mp (mem_of_lookup h)
  exact ⟨c, hc, (Prod.mk.injEq ..).mp heq⟩

theorem lookup_keys_last {pre post : List ParsedColumn} {c : ParsedColumn}
    (h : ∀ d ∈ post, dictKey d.name ≠ dictKey c.name) :
    lookup (dictKey c.name) ((pre ++ c :: post).map fun c => (dictKey c.name, r c.name))
      = some (r c.name) := by
  have hpost : lookup (dictKey c.name) (post.map fun c => (dictKey c.name, r c.name)) = none := by
    rw [Option.eq_none_iff_forall_ne_some]
    intro v hv
    obtain ⟨d, hd, hkey, -⟩ := lookup_keys hv
    exact h d hd hkey
  rw [List.map_append, lookup_append, List.map_cons, lookup, hpost, if_pos rfl]
  rfl

theorem putRecord_get {key : String} (hds : key ≠ "ds") (hca : key ≠ "created_at") :
    (putRecord t r ds now).get key
      = (lookup key (t.columns.map fun c => (dictKey c.name, r c.name))).getD (.json .null) := by
  simp [Record.get, putRecord, lookup_append, lookup, hds.symm, hca.symm]

theorem putRecord_deleted : (lookup "_deleted" (putRecord t r ds now)).isSome = false
    ↔ ∀ c ∈ t.columns, c.name ≠ .str "_deleted" := by
  rw [← Bool.not_eq_true, lookup_isSome_iff, putRecord, List.map_append, List.map_map,
    List.mem_append]
  constructor
  · intro h c hc hname
    exact h (.inl (List.mem_map.mpr ⟨c, hc, congrArg dictKey hname⟩))
  · rintro h (hmem | hmem)
    · obtain ⟨c, hc, hkey⟩ := List.mem_map.mp hmem
      exact h c hc (dictKey_deleted hkey)
    · simp at hmem

/-- A text that is among the names is there once. -/
theorem ParsedTable.Named.once (hn : t.Named py) {pre post : List ParsedColumn} {c : ParsedColumn}
    (h : t.columns = pre ++ c :: post) {s : String} (hs : c.name = .str s) :
    ∀ d ∈ post, dictKey d.name = s → ¬ IsText d.name := by
  rintro d hd hkey ⟨s', hs'⟩
  have happart := hn.apart
  rw [h, List.pairwise_append] at happart
  have hno := (List.pairwise_cons.mp happart.2.1).1 d hd
  rw [hs'] at hkey
  rw [hs, hs', show s' = s from hkey, py.same_str, beq_self_eq_true] at hno
  cases hno

/-- What stands in the line under the name of a column that is a text. -/
theorem text_column (hn : t.Named py) (hm : (putRecord t r ds now).toMembers? = some m)
    (htexts : ∀ c ∈ t.columns, ¬ IsText c.name → (r c.name).isNone = true)
    {pre post : List ParsedColumn} {c : ParsedColumn} (h : t.columns = pre ++ c :: post)
    (hc : IsText c.name) : (r c.name).toJson? = some (getName m c.name)
      ↔ ∀ d ∈ post, ¬ IsText d.name → c.name = .str (dictKey d.name) →
        (r c.name).isNone = true := by
  obtain ⟨s, hs⟩ := hc
  have hmem : c ∈ t.columns := by simp [h]
  have hne : ∀ n ∈ metaColumns, s ≠ n := fun n hn' heq => hn.ours c hmem n hn' (heq ▸ hs)
  have hget : ((putRecord t r ds now).get s).toJson? = some (getName m c.name) := by
    rw [hs]
    exact toMembers?_get hm s
  rw [putRecord_get (hne "ds" (by decide)) (hne "created_at" (by decide))] at hget
  by_cases hlast : ∀ d ∈ post, dictKey d.name ≠ s
  · have hlook : lookup (dictKey c.name) (t.columns.map fun c => (dictKey c.name, r c.name))
        = some (r c.name) := by
      rw [h]
      exact lookup_keys_last (by rwa [hs])
    rw [hs, show dictKey (.str s) = s from rfl] at hlook
    rw [hlook, Option.getD_some, ← hs] at hget
    refine ⟨fun _ d hd hno heq => ?_, fun _ => hget⟩
    rw [hs, Json.str.injEq] at heq
    exact absurd heq.symm (hlast d hd)
  · -- a later column takes the key: its name is no text, so it holds nothing
    have hpost : ∃ v, lookup s (post.map fun c => (dictKey c.name, r c.name)) = some v := by
      rw [← Option.isSome_iff_exists, lookup_isSome_iff, List.map_map, List.mem_map]
      by_contra hno
      exact hlast fun d hd hkey => hno ⟨d, hd, hkey⟩
    obtain ⟨v, hv⟩ := hpost
    obtain ⟨e, he, hkey, rfl⟩ := lookup_keys hv
    have hno := hn.once h hs e he hkey
    have hnone := isNone_iff.mp (htexts e (by simp [h, he]) hno)
    rw [h, List.map_append, lookup_append, List.map_cons, lookup, hv, Option.some_or,
      Option.some_or, Option.getD_some, hnone] at hget
    rw [← Option.some.inj hget, ← isNone_iff]
    exact ⟨fun h d _ _ _ => h, fun h => h e he hno (by rw [hs, hkey])⟩

/-- A line of `putRecord` is read as the put it is exactly when the record is plain. -/
theorem put_reads_iff (hn : t.Named py) (hm : (putRecord t r ds now).toMembers? = some m) :
    ReadsAsPut t r ds now (lineText m) ↔ Plain t r := by
  have hread : readText (lineText m) = [.obj m] := by
    have hline := readText_lineText m []
    rwa [List.append_nil] at hline
  have htomb : isTombstone m = false ↔ ∀ c ∈ t.columns, c.name ≠ .str "_deleted" := by
    rw [isTombstone, isSome_lookup_toMembers? hm, putRecord_deleted]
  have hds : Members.get m "ds" = .str ds := by
    have hget := toMembers?_get hm "ds"
    rw [show (putRecord t r ds now).get "ds" = strVal ds by
      simp [Record.get, putRecord, lookup_append, lookup]] at hget
    exact (Option.some.inj hget).symm
  have hca : Members.get m "created_at" = .str now := by
    have hget := toMembers?_get hm "created_at"
    rw [show (putRecord t r ds now).get "created_at" = strVal now by
      simp [Record.get, putRecord, lookup_append, lookup]] at hget
    exact (Option.some.inj hget).symm
  have hblank : ∀ c ∈ t.columns, ¬ IsText c.name →
      ((r c.name).toJson? = some (getName m c.name) ↔ (r c.name).isNone = true) := by
    intro c hc hno
    rw [isNone_iff]
    cases hname : c.name with
    | str s => exact absurd ⟨s, hname⟩ hno
    | _ => rfl
  constructor
  · rintro ⟨m', hm', htag, hvals, -, -⟩
    rw [hread] at hm'
    obtain rfl := Json.obj.inj (List.cons.inj hm').1
    have htexts : ∀ c ∈ t.columns, ¬ IsText c.name → (r c.name).isNone = true :=
      fun c hc hno => (hblank c hc hno).mp (hvals c hc)
    refine ⟨htomb.mp htag, htexts, ?_⟩
    intro pre c post h d hd hno heq
    have hc := hvals c (by simp [h])
    exact (text_column hn hm htexts h ⟨_, heq⟩).mp hc d hd hno heq
  · rintro ⟨hdel, htexts, htaken⟩
    refine ⟨m, hread, htomb.mpr hdel, ?_, hds, hca⟩
    intro c hc
    by_cases htext : IsText c.name
    · obtain ⟨pre, post, h⟩ := List.append_of_mem hc
      exact (text_column hn hm htexts h htext).mpr (htaken pre c post h)
    · exact (hblank c hc htext).mpr (htexts c hc htext)

/-- A tombstone is read as the tombstone it is. -/
theorem tombstone_reads {key : Val} (hm : (tombstone key now).toMembers? = some m) :
    ReadsAsTombstone key now (lineText m) := by
  obtain ⟨j, hj, rfl⟩ := tombstone_members hm
  have hline := readText_lineText [("_deleted", j), ("deleted_at", .str now)] []
  rw [List.append_nil] at hline
  exact ⟨_, hline, rfl, hj, rfl⟩

/-- Every record of a table is plain when its columns are texts and none is called `_deleted`. -/
theorem plain_all_iff : (∀ r, Plain t r) ↔ ∀ c ∈ t.columns, ∃ s, c.name = .str s ∧ s ≠ "_deleted" := by
  constructor
  · intro h c hc
    -- a record that holds something everywhere
    have hplain := h fun _ => .json (.bool true)
    by_cases htext : IsText c.name
    · obtain ⟨s, hs⟩ := htext
      refine ⟨s, hs, ?_⟩
      rintro rfl
      exact hplain.undeleted c hc hs
    · exact absurd (hplain.texts c hc htext) (by decide)
  · intro h r
    have htext : ∀ c ∈ t.columns, IsText c.name := fun c hc =>
      let ⟨s, hs, _⟩ := h c hc
      ⟨s, hs⟩
    refine ⟨fun c hc hname => ?_, fun c hc hno => absurd (htext c hc) hno, ?_⟩
    · obtain ⟨s, hs, hne⟩ := h c hc
      exact hne (Json.str.inj (hs.symm.trans hname))
    · intro pre c post heq d hd hno
      exact absurd (htext d (by simp [heq, hd])) hno

/-- For the tables of an opened store these are the lines of `putLine`. -/
theorem putRecord_eq_putLine {spec : TableSpec} (h : t.columns.map ParsedColumn.name
    = spec.columnNames.map .str) (rec : Record) :
    putRecord t (fun name => rec.get (dictKey name)) ds now = putLine spec rec ds now := by
  have hmap := congrArg (List.map fun name => (dictKey name, rec.get (dictKey name))) h
  rw [List.map_map, List.map_map] at hmap
  rw [putRecord, putLine]
  exact congrArg (· ++ [("ds", strVal ds), ("created_at", strVal now)]) hmap

end Puts

/-- The lines of an accepted schema: a put is read back as the put it was exactly when its record is
plain, and a tombstone always as the tombstone it was. -/
theorem kinds_kept {py : Python} {raw : Json} {tables : List ParsedTable}
    (hparsed : parseSchema py raw = .ok tables) : ∀ t ∈ tables,
    (∀ r ds now m, (putRecord t r ds now).toMembers? = some m →
      (ReadsAsPut t r ds now (lineText m) ↔ Plain t r))
    ∧ ∀ key now m, (tombstone key now).toMembers? = some m →
      ReadsAsTombstone key now (lineText m) := by
  intro t ht
  refine ⟨?_, ?_⟩
  · intro r ds now m hm
    exact put_reads_iff (parsed_named hparsed t ht) hm
  · intro key now m hm
    exact tombstone_reads hm

/-- A schema with one table, of two columns. -/
def noteSchema (second : Json) : Json :=
  .arr [.obj [("table", .str "note"), ("columns", .arr [
      .obj [("name", .str "id"), ("type", .str "str")],
      .obj [("name", second), ("type", .str "bool")]]),
    ("primary", .str "id")]]

/-- A record of such a table. -/
def noteRecord : Json → Val
  | .str "id" => .json (.str "a")
  | _ => .json (.bool false)

theorem kinds_kept_note : parseSchema plainPython (noteSchema (.str "done"))
      = .ok (tablesOf plainPython (noteSchema (.str "done")))
    ∧ ∀ t ∈ tablesOf plainPython (noteSchema (.str "done")),
      (∀ r ds now m, (putRecord t r ds now).toMembers? = some m →
        (ReadsAsPut t r ds now (lineText m) ↔ Plain t r))
      ∧ ∀ key now m, (tombstone key now).toMembers? = some m →
        ReadsAsTombstone key now (lineText m) :=
  ⟨parse_clean (by decide +kernel), kinds_kept (parse_clean (by decide +kernel))⟩

/-- A column called `_deleted` is accepted, and every put line of its table is read as a tombstone. -/
theorem put_as_tombstone : ∃ tables, ∃ t ∈ tables,
    parseSchema plainPython (noteSchema (.str "_deleted")) = .ok tables
    ∧ ∃ m : Members, (putRecord t noteRecord "20240101" "t0").toMembers? = some m
      ∧ readText (lineText m) = [.obj m] ∧ isTombstone m = true
      ∧ ¬ ReadsAsPut t noteRecord "20240101" "t0" (lineText m) := by
  have hparsed : parseSchema plainPython (noteSchema (.str "_deleted"))
      = .ok (tablesOf plainPython (noteSchema (.str "_deleted"))) := parse_clean (by decide +kernel)
  refine ⟨_, _, List.mem_cons_self, hparsed, _, rfl, ?_, rfl, ?_⟩
  · rw [← List.append_nil (lineText _)]
    exact readText_lineText _ []
  · intro h
    have hplain := (put_reads_iff (parsed_named hparsed _ List.mem_cons_self) rfl).mp h
    exact hplain.undeleted _ (List.mem_cons_of_mem _ List.mem_cons_self) rfl

end Seekbase
