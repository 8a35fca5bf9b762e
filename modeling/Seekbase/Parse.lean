/-
# Seekbase.Parse — `parse_schema`: a JSON value read as an ordered list of table specs.

The parser hashes and matches what it is given before it knows what kind of value that is, so a fault
of the input is either TOLD, by a SchemaError that names it, or it is not: the interpreter raises.
Which of the two comes first is a matter of the order of reading.

* `parseSchema`             — the parser, statement by statement;
* `Item`, `items`           — what it looks at, in reading order, with nothing of what it does;
* `Item.fault`              — what is wrong with one of these, and whether that is told;
* `Matches`                 — a parser against its items: the first fault decides, and without one the
                              value is what stands in the input (`tablesOf`);
* `parse_matches`           — the whole parser does.

A name may be any value that can be hashed, a number for one; which of these are the same to a set is
the interpreter's (`Python.same`), and only texts are assumed to be the same when they are equal.
-/
import Mathlib.Data.List.Sort
import Mathlib.Data.List.Dedup
import Mathlib.Data.String.Basic
import Seekbase.Struct

namespace Seekbase

open JsonText

/-! ## The interpreter -/

structure Python where
  repr : Json → String
  /-- `==` of two values that can be hashed. -/
  same : Json → Json → Bool
  same_str : ∀ a b, same (.str a) (.str b) = (a == b)
  same_left : ∀ a j, (∀ b, j ≠ .str b) → same (.str a) j = false
  same_right : ∀ a j, (∀ b, j ≠ .str b) → same j (.str a) = false

/-- Whether a value can be a member of a set. -/
def hashable : Json → Bool
  | .arr _ | .obj _ => false
  | _ => true

/-- Whether a value is this text. -/
def isText (text : String) : Json → Bool
  | .str s => s == text
  | _ => false

/-- `f"{x}"`. -/
def Python.text (py : Python) (j : Json) : String := (Val.json j).str py.repr

inductive SchemaFail where
  | schema (message : String)
  /-- An exception of another class. -/
  | foreign (cls : String)

/-! ## Types -/

/-- A text without the line feed that `$` lets stand at its end. -/
def dollar (cs : List Char) : List Char := if cs.getLast? = some '\n' then cs.dropLast else cs

/-- `_DECIMAL_RE`: the two groups. -/
def decimalGroups (cs : List Char) : Option (List Char × List Char) :=
  match dollar cs with
  | 'd' :: 'e' :: 'c' :: 'i' :: 'm' :: 'a' :: 'l' :: '(' :: rest =>
    match rest.takeWhile isDecimal, rest.dropWhile isDecimal with
    | p :: ps, ',' :: rest =>
      match rest.takeWhile isDecimal, rest.dropWhile isDecimal with
      | s :: ss, [')'] => some (p :: ps, s :: ss)
      | _, _ => none
    | _, _ => none
  | _ => none

/-- `_SCALAR_SQL`. -/
def scalarSql (decl : String) : Option SqlType :=
  if decl = "str" then some .varchar
  else if decl = "int" then some .bigint
  else if decl = "float" then some .double
  else if decl = "bool" then some .boolean
  else if decl = "timestamptz" then some .timestamptz
  else if decl = "json" then some .json
  else none

variable (py : Python)

def unknownType (decl : Json) : SchemaFail :=
  .schema ("unknown type " ++ py.repr decl
    ++ " (expected str/int/float/bool/decimal(p,s)/timestamptz/json)")

/-- `_sql_type` of a text. -/
def sqlTypeOf (decl : String) : Except SchemaFail SqlType :=
  match scalarSql decl with
  | some t => .ok t
  | none =>
    match decimalGroups decl.toList with
    | none => .error (unknownType py (.str decl))
    | some (ps, ss) =>
      match intOf ps, intOf ss with
      | some p, some s =>
        if 1 ≤ p ∧ s ≤ p then .ok (.decimal p s)
        else .error (.schema
          ("illegal decimal(" ++ p.repr ++ "," ++ s.repr ++ "): need 1<=p and 0<=s<=p"))
      | _, _ => .error (.foreign "ValueError")

/-- `_sql_type`: nothing but a text is in the table or can be matched. -/
def sqlType : Json → Except SchemaFail SqlType
  | .str decl => sqlTypeOf py decl
  | _ => .error (.foreign "TypeError")

/-! ## The parser -/

structure ParsedColumn where
  name : Json
  type : Json
  sqlType : SqlType

structure ParsedTable where
  name : Json
  columns : List ParsedColumn
  primary : Json
  searchable : List Json

/-- `name in seen`. -/
def Python.among (name : Json) (seen : List Json) : Bool := seen.any (py.same name)

/-- `by_name[name]`. -/
def Python.column (columns : List ParsedColumn) (name : Json) : Option ParsedColumn :=
  columns.find? fun c => py.same name c.name

/-- One turn of the loop of `_parse_columns`. -/
def parseColumn (table : Json) (i : Nat) (seen : List Json) (entry : Json) :
    Except SchemaFail ParsedColumn :=
  let need := SchemaFail.schema (py.text table ++ ".columns[" ++ i.repr
    ++ "]: need \x7b'name': …, 'type': …\x7d")
  match entry with
  | .obj m =>
    if (lookup "name" m).isNone ∨ (lookup "type" m).isNone then .error need
    else
      let name := Members.get m "name"
      if hashable name = false then .error (.foreign "TypeError")
      else if py.among name (metaColumns.map .str) then
        .error (.schema (py.text table ++ "." ++ py.text name ++ ": " ++ py.repr name
          ++ " is engine-managed; do not declare it"))
      else if py.among name seen then
        .error (.schema (py.text table ++ ": duplicate column " ++ py.repr name))
      else (sqlType py (Members.get m "type")).map fun t => ⟨name, Members.get m "type", t⟩
  | _ => .error need

def parseColumnsFrom (table : Json) : Nat → List Json → List Json →
    Except SchemaFail (List ParsedColumn)
  | _, _, [] => .ok []
  | i, seen, entry :: rest => do
    let c ← parseColumn py table i seen entry
    let cs ← parseColumnsFrom table (i + 1) (seen ++ [c.name]) rest
    pure (c :: cs)

/-- `_parse_columns`. -/
def parseColumns (table raw : Json) : Except SchemaFail (List ParsedColumn) :=
  match raw with
  | .arr (e :: es) => parseColumnsFrom py table 0 [] (e :: es)
  | _ => .error (.schema (py.text table ++ ".columns: must be a non-empty list of \x7bname, type\x7d"))

def tableKeys : List String := ["table", "columns", "primary", "searchable"]

/-- The checks on the primary key. -/
def parsePrimary (table : Json) (columns : List ParsedColumn) (m : Members) : Except SchemaFail Json :=
  match lookup "primary" m with
  | none => .error (.schema (py.text table ++ ": missing 'primary' (primary-key column name)"))
  | some primary =>
    if hashable primary = false then .error (.foreign "TypeError")
    else
      match py.column columns primary with
      | none => .error (.schema
        (py.text table ++ ".primary: " ++ py.repr primary ++ " is not a declared column"))
      | some c =>
        if isText "str" c.type || isText "int" c.type then .ok primary
        else .error (.schema
          (py.text table ++ ".primary: key must be str/int, got " ++ py.repr c.type))

/-- `tuple(x)`: what a value iterates over. -/
def iterate : Json → Option (List Json)
  | .arr xs => some xs
  | .str s => some (s.toList.map fun c => .str (String.ofList [c]))
  | .obj m => some ((m.map Prod.fst).eraseDups.map .str)
  | _ => none

/-- One turn of the loop over the searchable columns. -/
def checkSearchable (table : Json) (columns : List ParsedColumn) (s : Json) : Except SchemaFail Unit :=
  if hashable s = false then .error (.foreign "TypeError")
  else
    match py.column columns s with
    | none => .error (.schema
      (py.text table ++ ".searchable: " ++ py.repr s ++ " is not a declared column"))
    | some c =>
      if isText "str" c.type then .ok ()
      else .error (.schema
        (py.text table ++ ".searchable: " ++ py.repr s ++ " must be a str column"))

/-- The loop over the searchable columns. -/
def parseSearchable (table : Json) (columns : List ParsedColumn) (m : Members) :
    Except SchemaFail (List Json) :=
  match lookup "searchable" m with
  | none => .ok []
  | some raw =>
    match iterate raw with
    | none => .error (.foreign "TypeError")
    | some names => do
      let _ ← names.mapM (checkSearchable py table columns)
      pure names

/-- `_parse_table`. -/
def parseTable (index : Nat) (entry : Json) : Except SchemaFail ParsedTable :=
  match entry with
  | .obj m =>
    match lookup "table" m with
    | none => .error (.schema ("SCHEMA[" ++ index.repr ++ "]: each item needs a 'table' name"))
    | some table =>
      let unknown := ((m.map Prod.fst).filter (· ∉ tableKeys)).dedup.insertionSort (· ≤ ·)
      if unknown ≠ [] then
        .error (.schema
          (py.text table ++ ": unknown key(s) " ++ py.repr (.arr (unknown.map .str))))
      else
        match lookup "columns" m with
        | none => .error (.schema (py.text table ++ ": missing 'columns'"))
        | some raw => do
          let columns ← parseColumns py table raw
          let primary ← parsePrimary py table columns m
          let searchable ← parseSearchable py table columns m
          pure ⟨table, columns, primary, searchable⟩
  | _ => .error (.schema ("SCHEMA[" ++ index.repr ++ "]: each item needs a 'table' name"))

/-- `spec.name in seen`. -/
def checkName (seen : List Json) (name : Json) : Except SchemaFail Unit :=
  if hashable name = false then .error (.foreign "TypeError")
  else if py.among name seen then .error (.schema ("duplicate table " ++ py.repr name))
  else .ok ()

def parseTables : Nat → List Json → List Json → Except SchemaFail (List ParsedTable)
  | _, _, [] => .ok []
  | i, seen, entry :: rest => do
    let spec ← parseTable py i entry
    let _ ← checkName py seen spec.name
    let specs ← parseTables (i + 1) (seen ++ [spec.name]) rest
    pure (spec :: specs)

/-- `parse_schema`. -/
def parseSchema (raw : Json) : Except SchemaFail (List ParsedTable) :=
  match raw with
  | .arr (e :: es) => parseTables py 0 [] (e :: es)
  | _ => .error (.schema "SCHEMA must be a non-empty list of table specs")

/-! ## What stands in the input -/

/-- The members of a dict, and none of anything else. -/
def membersOf : Json → Members
  | .obj m => m
  | _ => []

/-- The items of a list, and none of anything else. -/
def itemsOf : Json → List Json
  | .arr xs => xs
  | _ => []

def columnName (entry : Json) : Json := (membersOf entry).get "name"

/-- The type a text declares. -/
def typeOf (decl : Json) : SqlType := ((sqlType py decl).toOption).getD .varchar

def columnOf (entry : Json) : ParsedColumn :=
  let type := (membersOf entry).get "type"
  ⟨columnName entry, type, typeOf py type⟩

def columnsOf (entry : Json) : List ParsedColumn :=
  (itemsOf ((membersOf entry).get "columns")).map (columnOf py)

def searchableOf (entry : Json) : List Json :=
  ((lookup "searchable" (membersOf entry)).bind iterate).getD []

def tableOf (entry : Json) : ParsedTable :=
  let m := membersOf entry
  ⟨m.get "table", columnsOf py entry, m.get "primary", searchableOf entry⟩

def tablesOf (raw : Json) : List ParsedTable := (itemsOf raw).map (tableOf py)

/-! ## Faults -/

inductive Fault where
  | told
  | untold
  deriving DecidableEq

/-- What the parser looks at, each with what it has read before. -/
inductive Item where
  | whole (raw : Json)
  /-- A table spec up to its list of columns. -/
  | spec (entry : Json)
  | column (before : List Json) (entry : Json)
  | primary (columns : List ParsedColumn) (entry : Json)
  | searchable (entry : Json)
  | searched (columns : List ParsedColumn) (name : Json)
  | table (before : List Json) (name : Json)

def columnItems : List Json → List Json → List Item
  | _, [] => []
  | before, entry :: rest => .column before entry :: columnItems (before ++ [columnName entry]) rest

def specItems (entry : Json) : List Item :=
  .spec entry :: (columnItems [] (itemsOf ((membersOf entry).get "columns"))
    ++ .primary (columnsOf py entry) entry :: .searchable entry
      :: (searchableOf entry).map (.searched (columnsOf py entry)))

def tableItems : List Json → List Json → List Item
  | _, [] => []
  | before, entry :: rest =>
    specItems py entry ++ .table before ((membersOf entry).get "table")
      :: tableItems (before ++ [(membersOf entry).get "table"]) rest

def items (raw : Json) : List Item := .whole raw :: tableItems py [] (itemsOf raw)

def faultOf (type : Json) : Option Fault :=
  match type with
  | .str decl =>
    match scalarSql decl, decimalGroups decl.toList with
    | some _, _ => none
    | none, none => some .told
    | none, some (ps, ss) =>
      match intOf ps, intOf ss with
      | some p, some s => if 1 ≤ p ∧ s ≤ p then none else some .told
      | _, _ => some .untold
  | _ => some .untold

/-- What is wrong with a name that should be one of the declared columns, of certain types. -/
def declaredFault (columns : List ParsedColumn) (types : List String) (name : Json) : Option Fault :=
  if hashable name = false then some .untold
  else
    match py.column columns name with
    | none => some .told
    | some c => if types.any (isText · c.type) then none else some .told

def Item.fault : Item → Option Fault
  | .whole raw => if itemsOf raw = [] then some .told else none
  | .spec entry =>
    let m := membersOf entry
    if (lookup "table" m).isSome ∧ (m.map Prod.fst).all (· ∈ tableKeys)
      ∧ itemsOf (m.get "columns") ≠ [] then none
    else some .told
  | .column before entry =>
    let m := membersOf entry
    if (lookup "name" m).isNone ∨ (lookup "type" m).isNone then some .told
    else if hashable (columnName entry) = false then some .untold
    else if py.among (columnName entry) (metaColumns.map .str) then some .told
    else if py.among (columnName entry) before then some .told
    else faultOf (m.get "type")
  | .primary columns entry =>
    match lookup "primary" (membersOf entry) with
    | none => some .told
    | some key => declaredFault py columns ["str", "int"] key
  | .searchable entry =>
    match lookup "searchable" (membersOf entry) with
    | none => none
    | some raw => if (iterate raw).isNone then some .untold else none
  | .searched columns name => declaredFault py columns ["str"] name
  | .table before name =>
    if hashable name = false then some .untold
    else if py.among name before then some .told
    else none

/-! ## A parser against its items -/

/-- The first fault of the items decides; without one the parser returns the value. -/
def Matches {α : Type} (x : Except SchemaFail α) (fault : Option Fault) (a : α) : Prop :=
  match fault with
  | none => x = .ok a
  | some .told => ∃ message, x = .error (.schema message)
  | some .untold => ∃ cls, x = .error (.foreign cls)

section Matching

variable {py} {α β : Type}

theorem Matches.ok (a : α) : Matches (.ok a) none a := rfl

theorem Matches.told {message : String} (a : α) :
    Matches (.error (.schema message)) (some .told) a := ⟨message, rfl⟩

theorem Matches.untold {cls : String} (a : α) :
    Matches (.error (.foreign cls)) (some .untold) a := ⟨cls, rfl⟩

/-- One parser after another, and the faults of the first before those of the second. -/
theorem Matches.bind {x : Except SchemaFail α} {f : α → Except SchemaFail β} {p q : Option Fault}
    {a : α} {b : β} (hx : Matches x p a) (hf : Matches (f a) q b) : Matches (x >>= f) (p.or q) b := by
  match p with
  | none =>
    have hok : x = .ok a := hx
    rw [hok]
    exact hf
  | some .told =>
    rcases hx with ⟨message, rfl⟩
    exact Matches.told b
  | some .untold =>
    rcases hx with ⟨cls, rfl⟩
    exact Matches.untold b

theorem Matches.map {x : Except SchemaFail α} {p : Option Fault} {a : α} (f : α → β)
    (hx : Matches x p a) : Matches (x.map f) p (f a) := by
  match p with
  | none =>
    have hok : x = .ok a := hx
    rw [hok]
    rfl
  | some .told =>
    rcases hx with ⟨message, rfl⟩
    exact Matches.told (f a)
  | some .untold =>
    rcases hx with ⟨cls, rfl⟩
    exact Matches.untold (f a)

/-- A parser and what is made of its value, with no further fault. -/
theorem Matches.last {x : Except SchemaFail α} {p : Option Fault} {a : α} (f : α → β)
    (hx : Matches x p a) : Matches (x >>= fun a => .ok (f a)) p (f a) := by
  have hboth : Matches (x >>= fun a => .ok (f a)) (p.or none) (f a) := hx.bind (Matches.ok (f a))
  rwa [Option.or_none] at hboth

theorem findSome?_cons_or (f : α → Option β) (a : α) (as : List α) :
    (a :: as).findSome? f = (f a).or (as.findSome? f) := by
  rw [List.findSome?_cons]
  cases f a <;> rfl

/-- Two tests that ask the same. -/
theorem Matches.ite {c d : Prop} [Decidable c] [Decidable d] (h : c ↔ d)
    {x y : Except SchemaFail α} {p q : Option Fault} {a : α} (ht : Matches x p a)
    (hf : Matches y q a) : Matches (if c then x else y) (if d then p else q) a := by
  by_cases hc : c
  · rw [if_pos hc, if_pos (h.mp hc)]
    exact ht
  · rw [if_neg hc, if_neg fun hd => hc (h.mpr hd)]
    exact hf

theorem sqlType_matches (decl : Json) : Matches (sqlType py decl) (faultOf decl) (typeOf py decl) := by
  unfold typeOf
  cases decl with
  | str s =>
    simp only [sqlType, sqlTypeOf, faultOf]
    cases scalarSql s with
    | some t => exact Matches.ok t
    | none =>
      cases decimalGroups s.toList with
      | none => exact Matches.told _
      | some groups =>
        rcases groups with ⟨ps, ss⟩
        dsimp only
        cases intOf ps with
        | none => exact Matches.untold _
        | some p =>
          cases intOf ss with
          | none => exact Matches.untold _
          | some n =>
            dsimp only
            split
            · exact Matches.ok _
            · exact Matches.told _
  | _ => exact Matches.untold _

theorem parseColumn_matches (table : Json) (i : Nat) (seen : List Json) (entry : Json) :
    Matches (parseColumn py table i seen entry) (Item.fault py (.column seen entry))
      (columnOf py entry) := by
  cases entry with
  | obj m =>
    refine .ite .rfl (.told _) (.ite .rfl (.untold _) (.ite .rfl (.told _) (.ite .rfl (.told _) ?_)))
    exact (sqlType_matches (Members.get m "type")).map _
  | _ => exact Matches.told _

theorem parseColumnsFrom_matches (table : Json) (i : Nat) (seen entries : List Json) :
    Matches (parseColumnsFrom py table i seen entries)
      ((columnItems seen entries).findSome? (Item.fault py)) (entries.map (columnOf py)) := by
  induction entries generalizing i seen with
  | nil => exact Matches.ok []
  | cons entry rest ih =>
    rw [columnItems, findSome?_cons_or]
    exact (parseColumn_matches table i seen entry).bind ((ih _ _).last (columnOf py entry :: ·))

theorem parsePrimary_matches (table : Json) (columns : List ParsedColumn) (entry : Json) :
    Matches (parsePrimary py table columns (membersOf entry))
      (Item.fault py (.primary columns entry)) ((membersOf entry).get "primary") := by
  unfold parsePrimary Item.fault
  dsimp only
  cases hkey : lookup "primary" (membersOf entry) with
  | none => exact Matches.told _
  | some key =>
    have hget : (membersOf entry).get "primary" = key := by
      rw [Members.get, hkey]
      rfl
    rw [hget]
    refine .ite .rfl (.untold _) ?_
    cases py.column columns key with
    | none => exact Matches.told _
    | some c =>
      refine .ite ?_ (.ok _) (.told _)
      simp

theorem checkSearchable_matches (table : Json) (columns : List ParsedColumn) (name : Json) :
    Matches (checkSearchable py table columns name) (Item.fault py (.searched columns name)) () := by
  refine .ite .rfl (.untold _) ?_
  cases py.column columns name with
  | none => exact Matches.told _
  | some c =>
    refine .ite ?_ (.ok _) (.told _)
    simp

theorem checkAll_matches (table : Json) (columns : List ParsedColumn) (names : List Json) :
    Matches (names.mapM (checkSearchable py table columns))
      ((names.map (.searched columns)).findSome? (Item.fault py)) (names.map fun _ => ()) := by
  induction names with
  | nil => exact Matches.ok []
  | cons name names ih =>
    rw [List.mapM_cons, List.map_cons, findSome?_cons_or]
    exact (checkSearchable_matches table columns name).bind (ih.last (() :: ·))

theorem parseSearchable_matches (table : Json) (columns : List ParsedColumn) (entry : Json) :
    Matches (parseSearchable py table columns (membersOf entry))
      ((.searchable entry :: (searchableOf entry).map (.searched columns)).findSome? (Item.fault py))
      (searchableOf entry) := by
  unfold parseSearchable searchableOf
  rw [findSome?_cons_or, Item.fault]
  cases lookup "searchable" (membersOf entry) with
  | none => exact Matches.ok []
  | some raw =>
    cases hraw : iterate raw with
    | none =>
      simp only [Option.bind_some, hraw]
      exact Matches.untold _
    | some names =>
      simp only [Option.bind_some, hraw]
      exact (checkAll_matches table columns names).last fun _ => names

theorem parseColumns_matches (table : Json) {raw : Json} (h : itemsOf raw ≠ []) :
    Matches (parseColumns py table raw) ((columnItems [] (itemsOf raw)).findSome? (Item.fault py))
      ((itemsOf raw).map (columnOf py)) := by
  match raw, h with
  | .arr (e :: es), _ => exact parseColumnsFrom_matches table 0 [] (e :: es)

theorem unknown_nil {keys : List String} :
    (keys.filter (· ∉ tableKeys)).dedup.insertionSort (· ≤ ·) = [] ↔ ∀ k ∈ keys, k ∈ tableKeys := by
  rw [← List.length_eq_zero_iff, List.length_insertionSort, List.length_eq_zero_iff]
  constructor
  · intro h k hk
    by_contra hno
    have hmem : k ∈ (keys.filter (· ∉ tableKeys)).dedup := by
      rw [List.mem_dedup, List.mem_filter]
      exact ⟨hk, by simpa using hno⟩
    rw [h] at hmem
    cases hmem
  · intro h
    have hnil : keys.filter (· ∉ tableKeys) = [] := by
      rw [List.filter_eq_nil_iff]
      intro k hk
      simpa using h k hk
    rw [hnil]
    rfl

/-- What a table spec is told of before its columns are read. -/
theorem spec_fault (m : Members) : Item.fault py (.spec (.obj m))
    = if (lookup "table" m).isSome ∧ (m.map Prod.fst).all (· ∈ tableKeys)
        ∧ itemsOf (Members.get m "columns") ≠ [] then none else some .told := rfl

theorem parseColumns_told (table : Json) {raw : Json} (h : itemsOf raw = []) :
    ∃ message, parseColumns py table raw = .error (.schema message) := by
  match raw, h with
  | .arr [], _ | .null, _ | .bool _, _ | .int _, _ | .dec _, _ | .nan, _ | .inf, _ | .negInf, _
  | .str _, _ | .obj _, _ => exact ⟨_, rfl⟩

theorem parseTable_matches (index : Nat) (entry : Json) :
    Matches (parseTable py index entry) ((specItems py entry).findSome? (Item.fault py))
      (tableOf py entry) := by
  rw [specItems, findSome?_cons_or]
  match entry with
  | .obj m =>
    rw [spec_fault, parseTable]
    cases htable : lookup "table" m with
    | none => exact Matches.told _
    | some table =>
      dsimp only
      by_cases hkeys : ∀ k ∈ m.map Prod.fst, k ∈ tableKeys
      · rw [if_neg (not_not.mpr (unknown_nil.mpr hkeys))]
        cases hcolumns : lookup "columns" m with
        | none =>
          have hget : Members.get m "columns" = .null := by rw [Members.get, hcolumns]; rfl
          rw [hget, if_neg fun h => h.2.2 rfl]
          exact Matches.told _
        | some raw =>
          have hget : Members.get m "columns" = raw := by rw [Members.get, hcolumns]; rfl
          rw [hget]
          by_cases hraw : itemsOf raw = []
          · rcases parseColumns_told table hraw with ⟨message, herr⟩
            rw [if_neg fun h => h.2.2 hraw]
            dsimp only
            rw [herr]
            exact Matches.told _
          · have hall : (m.map Prod.fst).all (· ∈ tableKeys) = true := by
              rw [List.all_eq_true]
              intro k hk
              exact decide_eq_true (hkeys k hk)
            have hcols : Matches (parseColumns py table raw)
                ((columnItems [] (itemsOf ((membersOf (.obj m)).get "columns"))).findSome?
                  (Item.fault py)) (columnsOf py (.obj m)) := by
              rw [columnsOf, show (membersOf (.obj m)).get "columns" = raw from hget]
              exact parseColumns_matches table hraw
            have hname : (membersOf (.obj m)).get "table" = table := by
              show Members.get m "table" = table
              rw [Members.get, htable]
              rfl
            rw [if_pos ⟨rfl, hall, hraw⟩, Option.none_or, List.findSome?_append, findSome?_cons_or,
              tableOf, hname]
            refine hcols.bind ((parsePrimary_matches table _ (.obj m)).bind ?_)
            exact (parseSearchable_matches table _ (.obj m)).last (ParsedTable.mk table _ _ ·)
      · rw [if_pos fun h => hkeys (unknown_nil.mp h), if_neg fun h => hkeys ?_]
        · exact Matches.told _
        · intro k hk
          exact of_decide_eq_true (List.all_eq_true.mp h.2.1 k hk)
  | .arr _ | .null | .bool _ | .int _ | .dec _ | .nan | .inf | .negInf | .str _ =>
    exact Matches.told _

theorem checkName_matches (seen : List Json) (name : Json) :
    Matches (checkName py seen name) (Item.fault py (.table seen name)) () :=
  .ite .rfl (.untold _) (.ite .rfl (.told _) (.ok _))

theorem parseTables_matches (i : Nat) (seen entries : List Json) :
    Matches (parseTables py i seen entries) ((tableItems py seen entries).findSome? (Item.fault py))
      (entries.map (tableOf py)) := by
  induction entries generalizing i seen with
  | nil => exact Matches.ok []
  | cons entry rest ih =>
    rw [tableItems, List.findSome?_append, findSome?_cons_or]
    refine (parseTable_matches i entry).bind ((checkName_matches seen _).bind ?_)
    exact (ih _ _).last (tableOf py entry :: ·)

/-- The whole parser: the first fault of the input decides, and without one it returns what stands in
the input. -/
theorem parse_matches (raw : Json) :
    Matches (parseSchema py raw) ((items py raw).findSome? (Item.fault py)) (tablesOf py raw) := by
  rw [items, findSome?_cons_or]
  match raw with
  | .arr (e :: es) => exact parseTables_matches 0 [] (e :: es)
  | .arr [] | .null | .bool _ | .int _ | .dec _ | .nan | .inf | .negInf | .str _ | .obj _ =>
    exact Matches.told _

/-- An input in which nothing is wrong is accepted. -/
theorem parse_clean {raw : Json} (h : (items py raw).findSome? (Item.fault py) = none) :
    parseSchema py raw = .ok (tablesOf py raw) := by
  have hmatch : Matches (parseSchema py raw) ((items py raw).findSome? (Item.fault py))
    (tablesOf py raw) := parse_matches raw
  rwa [h] at hmatch

/-- In an accepted input nothing is wrong. -/
theorem parse_ok {raw : Json} {tables : List ParsedTable} (h : parseSchema py raw = .ok tables) :
    (∀ x ∈ items py raw, x.fault py = none) ∧ tables = tablesOf py raw := by
  cases hfault : (items py raw).findSome? (Item.fault py) with
  | none =>
    rw [parse_clean hfault, Except.ok.injEq] at h
    exact ⟨List.findSome?_eq_none_iff.mp hfault, h.symm⟩
  | some fault =>
    have hmatch : Matches (parseSchema py raw) (some fault) (tablesOf py raw) :=
      hfault ▸ parse_matches raw
    rw [h] at hmatch
    cases fault with
    | told =>
      obtain ⟨message, herr⟩ := hmatch
      cases herr
    | untold =>
      obtain ⟨cls, herr⟩ := hmatch
      cases herr

end Matching

end Seekbase
