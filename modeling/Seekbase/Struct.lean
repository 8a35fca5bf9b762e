/-
# Seekbase.Struct — the values every layer passes on: Python values, records, table specs.

A client's record is a Python dict.  Its values are `Val`: what JSON has, or any `other` Python
value, which has a `str` text and, where `json.dumps` takes it (a tuple, a dict with integer keys),
a JSON image.  A dict that `json.loads` returned has only JSON values, and of a name that a text
binds twice the LAST binding stands, so `lookup` is last-wins throughout.

`TableSpec` and `Schema` carry what `parse_schema` and the table creation at open have checked, so
no later result assumes it again.
-/
import Mathlib.Data.List.DropRight
import Mathlib.Data.List.Forall2
import Mathlib.Data.List.Nodup
import Seekbase.Lib.Json

namespace Seekbase

open JsonText

/-! ## Membership

The lookups among texts and cells rest on these two, each under one name. -/

instance lawfulBEq_chars : LawfulBEq (List Char) := inferInstance

instance lawfulBEq_cell : LawfulBEq (Option String) := inferInstance

/-! ## Exceptions -/

theorem map_error_iff {ε α β : Type} {x : Except ε α} {f : α → β} {e : ε} :
    x.map f = .error e ↔ x = .error e := by
  cases x <;> simp [Except.map]

theorem map_ok_iff {ε α β : Type} {x : Except ε α} {f : α → β} {y : β} :
    x.map f = .ok y ↔ ∃ a, x = .ok a ∧ f a = y := by
  cases x <;> simp [Except.map]

theorem bind_ok_iff {ε α β : Type} {x : Except ε α} {f : α → Except ε β} {b : β} :
    (x >>= f) = .ok b ↔ ∃ a, x = .ok a ∧ f a = .ok b := by
  cases x with
  | error e => simp [bind, Except.bind]
  | ok a => simp [bind, Except.bind]

theorem bind_error_iff {ε α β : Type} {x : Except ε α} {f : α → Except ε β} {e : ε} :
    (x >>= f) = .error e ↔ x = .error e ∨ ∃ a, x = .ok a ∧ f a = .error e := by
  cases x with
  | error e' => simp [bind, Except.bind]
  | ok a => simp [bind, Except.bind]

theorem mapM_congr {ε α β : Type} {f g : α → Except ε β} {xs : List α}
    (h : ∀ x ∈ xs, f x = g x) : xs.mapM f = xs.mapM g := by
  induction xs with
  | nil => rfl
  | cons x xs ih =>
    rw [List.mapM_cons, List.mapM_cons, h x (by simp), ih fun y hy => h y (by simp [hy])]

theorem forall₂_left {α β : Type} {R : α → β → Prop} {as : List α} {bs : List β}
    (h : List.Forall₂ R as bs) {a : α} (ha : a ∈ as) : ∃ b ∈ bs, R a b := by
  induction h with
  | nil => cases ha
  | @cons x y xs ys hxy _ ih =>
    rcases List.mem_cons.mp ha with rfl | ha
    · exact ⟨y, List.mem_cons_self, hxy⟩
    · rcases ih ha with ⟨b, hb, hab⟩
      exact ⟨b, List.mem_cons_of_mem _ hb, hab⟩

/-- A list of results is a result for each. -/
theorem mapM_ok_iff {ε α β : Type} {f : α → Except ε β} {xs : List α} {ys : List β} :
    xs.mapM f = .ok ys ↔ List.Forall₂ (fun x y => f x = .ok y) xs ys := by
  induction xs generalizing ys with
  | nil => simp [pure, Except.pure, eq_comm]
  | cons x xs ih =>
    rw [List.mapM_cons, List.forall₂_cons_left_iff]
    simp only [bind_ok_iff, pure, Except.pure, Except.ok.injEq, ih]
    constructor
    · rintro ⟨y, hy, ys', hys, rfl⟩; exact ⟨y, ys', hy, hys, rfl⟩
    · rintro ⟨y, ys', hy, hys, rfl⟩; exact ⟨y, hy, ys', hys, rfl⟩

/-- The same, where what an item gives and when it does is known. -/
theorem mapM_ok_map_iff {ε α β : Type} {f : α → Except ε β} {p : α → Prop} {g : α → β} {xs : List α}
    (h : ∀ x ∈ xs, ∀ y, f x = .ok y ↔ p x ∧ y = g x) {ys : List β} :
    xs.mapM f = .ok ys ↔ (∀ x ∈ xs, p x) ∧ ys = xs.map g := by
  induction xs generalizing ys with
  | nil => simp [pure, Except.pure, eq_comm]
  | cons x xs ih =>
    have hrest : ∀ ys, xs.mapM f = .ok ys ↔ (∀ x ∈ xs, p x) ∧ ys = xs.map g :=
      fun ys => ih fun y hy => h y (by simp [hy])
    rw [List.mapM_cons]
    simp only [bind_ok_iff, pure, Except.pure, Except.ok.injEq, hrest, h x (by simp),
      List.forall_mem_cons, List.map_cons]
    constructor
    · rintro ⟨y, ⟨hx, rfl⟩, ys', ⟨hxs, rfl⟩, rfl⟩
      exact ⟨⟨hx, hxs⟩, rfl⟩
    · rintro ⟨⟨hx, hxs⟩, rfl⟩
      exact ⟨_, ⟨hx, rfl⟩, _, ⟨hxs, rfl⟩, rfl⟩

/-- A list of results raises what the first raises that has none. -/
theorem mapM_error_iff {ε α β : Type} {f : α → Except ε β} {xs : List α} {e : ε} :
    xs.mapM f = .error e ↔
      ∃ before x after, xs = before ++ x :: after ∧ (∀ y ∈ before, ∃ b, f y = .ok b) ∧ f x = .error e := by
  induction xs with
  | nil => simp [pure, Except.pure]
  | cons x xs ih =>
    rw [List.mapM_cons, bind_error_iff]
    constructor
    · rintro (h | ⟨b, hb, h⟩)
      · exact ⟨[], x, xs, rfl, by simp, h⟩
      · rcases bind_error_iff.mp h with h | ⟨bs, -, h⟩
        · obtain ⟨before, z, after, rfl, hbefore, hz⟩ := ih.mp h
          exact ⟨x :: before, z, after, rfl, List.forall_mem_cons.mpr ⟨⟨b, hb⟩, hbefore⟩, hz⟩
        · cases h
    · rintro ⟨before, z, after, hxs, hbefore, hz⟩
      cases before with
      | nil =>
        obtain ⟨rfl, -⟩ := List.cons.inj hxs
        exact Or.inl hz
      | cons y before =>
        obtain ⟨rfl, rfl⟩ := List.cons.inj hxs
        obtain ⟨⟨b, hb⟩, hbefore⟩ := List.forall_mem_cons.mp hbefore
        exact Or.inr ⟨b, hb, bind_error_iff.mpr (Or.inl (ih.mpr ⟨before, z, after, rfl, hbefore, hz⟩))⟩

theorem mapM_error {ε α β : Type} {f : α → Except ε β} {xs : List α} {e : ε}
    (h : xs.mapM f = .error e) : ∃ x ∈ xs, f x = .error e := by
  obtain ⟨before, x, after, rfl, -, hx⟩ := mapM_error_iff.mp h
  exact ⟨x, by simp, hx⟩

/-! ## Dicts -/

/-- `dict.get`: the last binding of a name. -/
def lookup {α : Type} (name : String) : List (String × α) → Option α
  | [] => none
  | (k, v) :: r => (lookup name r).or (if k = name then some v else none)

theorem lookup_append {α : Type} (name : String) (a b : List (String × α)) :
    lookup name (a ++ b) = (lookup name b).or (lookup name a) := by
  induction a with
  | nil => simp [lookup]
  | cons kv a ih => simp [lookup, ih, Option.or_assoc]

/-- A dict comprehension over names binds exactly these names. -/
theorem lookup_map {α : Type} (name : String) (f : String → α) (names : List String) :
    lookup name (names.map fun c => (c, f c)) = if name ∈ names then some (f name) else none := by
  induction names with
  | nil => rfl
  | cons c names ih =>
    by_cases hin : name ∈ names
    · simp [lookup, ih, hin]
    · by_cases hc : c = name
      · subst hc; simp [lookup, ih, hin]
      · simp [lookup, ih, hin, hc, Ne.symm hc]

theorem lookup_map_snd {α β : Type} (name : String) (g : α → β) (r : List (String × α)) :
    lookup name (r.map fun kv => (kv.1, g kv.2)) = (lookup name r).map g := by
  induction r with
  | nil => rfl
  | cons kv r ih =>
    rw [List.map_cons, lookup, lookup, ih]
    cases lookup name r <;> by_cases hk : kv.1 = name <;> simp [hk]

theorem lookup_isSome_iff {α : Type} (name : String) (r : List (String × α)) :
    (lookup name r).isSome = true ↔ name ∈ r.map Prod.fst := by
  induction r with
  | nil => simp [lookup]
  | cons kv r ih =>
    rw [lookup, List.map_cons, List.mem_cons, ← ih]
    by_cases hk : kv.1 = name
    · cases lookup name r <;> simp [hk]
    · cases lookup name r <;> simp [hk, Ne.symm hk]

theorem mem_of_lookup {α : Type} {name : String} {r : List (String × α)} {v : α}
    (h : lookup name r = some v) : (name, v) ∈ r := by
  induction r with
  | nil => cases h
  | cons kv r ih =>
    rw [lookup, Option.or_eq_some_iff] at h
    rcases h with h | ⟨-, h⟩
    · exact List.mem_cons_of_mem _ (ih h)
    · split at h
      · next hk =>
        rcases Option.some.inj h with rfl
        rw [← hk]
        exact List.mem_cons_self
      · cases h

/-! ## Python values -/

/-- A Python value as a record holds it. -/
inductive Val where
  | json (j : Json)
  | other (text : String) (dump : Option Json)

/-- What `json.dumps` makes of a value: nothing where it raises. -/
def Val.toJson? : Val → Option Json
  | .json j => some j
  | .other _ dump => dump

/-- `v is None`: no other value is written as `null`. -/
def Val.isNone (v : Val) : Bool :=
  match v.toJson? with
  | some .null => true
  | _ => false

theorem isNone_iff {v : Val} : v.isNone = true ↔ v.toJson? = some .null := by
  unfold Val.isNone
  constructor
  · intro h
    split at h
    · next heq => exact heq
    · cases h
  · intro h
    rw [h]

/-- Python's `str`; `repr` is the text of a list or a dict. -/
def Val.str (repr : Json → String) : Val → String
  | .json .null => "None"
  | .json (.bool true) => "True"
  | .json (.bool false) => "False"
  | .json (.int i) => i.repr
  | .json (.dec d) => d.text
  | .json .nan => "nan"
  | .json .inf => "inf"
  | .json .negInf => "-inf"
  | .json (.str s) => s
  | .json j => repr j
  | .other text _ => text

/-- Whether a JSON value counts as true: not `None`, `False`, zero or empty. -/
def truthy : Json → Bool
  | .null => false
  | .bool b => b
  | .int i => i != 0
  | .dec d => (d.text.toList.takeWhile fun c => c != 'e' && c != 'E').any fun c =>
      c.isDigit && c != '0'
  | .nan | .inf | .negInf => true
  | .str s => s != ""
  | .arr xs => !xs.isEmpty
  | .obj ms => !ms.isEmpty

/-- Python's `str.isspace` for one character. -/
def isSpace (c : Char) : Bool :=
  let n := c.toNat
  (9 ≤ n && n ≤ 13) || (28 ≤ n && n ≤ 32) || n == 133 || n == 160 || n == 5760
    || (8192 ≤ n && n ≤ 8202) || n == 8232 || n == 8233 || n == 8239 || n == 8287 || n == 12288

/-- `str.strip`. -/
def strip (cs : List Char) : List Char := (cs.dropWhile isSpace).rdropWhile isSpace

/-- The zeros of Unicode's decimal digits; nine more digits follow each of them. -/
def decimalZeros : List Nat :=
  [48, 1632, 1776, 1984, 2406, 2534, 2662, 2790, 2918, 3046, 3174, 3302, 3430, 3558, 3664, 3792,
    3872, 4160, 4240, 6112, 6160, 6470, 6608, 6784, 6800, 6992, 7088, 7232, 7248, 42528, 43216,
    43264, 43472, 43504, 43600, 44016, 65296, 66720, 68912, 69734, 69872, 69942, 70096, 70384, 70736,
    70864, 71248, 71360, 71472, 71904, 72016, 72784, 73040, 73120, 92768, 92864, 93008, 120782,
    120792, 120802, 120812, 120822, 123200, 123632, 125264, 130032]

def isDecimal (c : Char) : Bool := decimalZeros.any fun z => z ≤ c.toNat && c.toNat < z + 10

/-- The value of a decimal digit. -/
def decimalValue (c : Char) : Nat :=
  ((decimalZeros.find? fun z => z ≤ c.toNat && c.toNat < z + 10).map (c.toNat - ·)).getD 0

/-- `int` of decimal digits; it refuses more than 4300 of them. -/
def intOf (digits : List Char) : Option Nat :=
  if 4300 < digits.length then none
  else some (digits.foldl (fun n c => 10 * n + decimalValue c) 0)

/-- A dict with string keys. -/
abbrev Record := List (String × Val)

/-- A dict as `json.loads` returns it. -/
abbrev Members := List (String × Json)

/-- `rec.get(c)`: `None` when the name is not bound. -/
def Record.get (r : Record) (c : String) : Val := (lookup c r).getD (.json .null)

def Members.get (m : Members) (c : String) : Json := (lookup c m).getD .null

/-- A decoded dict as a record. -/
def Members.record (m : Members) : Record := m.map fun kv => (kv.1, .json kv.2)

/-- What `json.dumps` makes of a dict: every value has to have a JSON image. -/
def Record.toMembers? (r : Record) : Option Members :=
  r.mapM fun kv => kv.2.toJson?.map (kv.1, ·)

theorem Record.toMembers?_nil : Record.toMembers? [] = some [] := rfl

theorem Record.toMembers?_cons (kv : String × Val) (r : Record) :
    Record.toMembers? (kv :: r)
      = kv.2.toJson?.bind fun j => (Record.toMembers? r).map ((kv.1, j) :: ·) := by
  simp only [Record.toMembers?, List.mapM_cons]
  cases kv.2.toJson? with
  | none => rfl
  | some j => cases List.mapM (fun kv : String × Val => kv.2.toJson?.map (kv.1, ·)) r <;> rfl

/-- A dict's JSON image binds a name to the JSON image of what the dict binds it to. -/
theorem lookup_toMembers? {r : Record} {m : Members} (h : r.toMembers? = some m) (c : String) :
    lookup c m = (lookup c r).bind Val.toJson?
      ∧ ∀ v, lookup c r = some v → v.toJson?.isSome = true := by
  induction r generalizing m with
  | nil =>
    obtain rfl := Option.some.inj h
    exact ⟨rfl, fun v hv => by simp [lookup] at hv⟩
  | cons kv r ih =>
    rw [Record.toMembers?_cons] at h
    obtain ⟨j, hj, h⟩ := Option.bind_eq_some_iff.mp h
    obtain ⟨m', hm', rfl⟩ := Option.map_eq_some_iff.mp h
    obtain ⟨hlook, hsome⟩ := ih hm'
    cases hr : lookup c r with
    | none =>
      by_cases hk : kv.1 = c
      · simp [lookup, hlook, hr, hk, hj]
      · simp [lookup, hlook, hr, hk]
    | some v =>
      obtain ⟨w, hw⟩ := Option.isSome_iff_exists.mp (hsome v hr)
      simp [lookup, hlook, hr, hw]

theorem toMembers?_get {r : Record} {m : Members} (h : r.toMembers? = some m) (c : String) :
    (r.get c).toJson? = some (m.get c) := by
  obtain ⟨hlook, hsome⟩ := lookup_toMembers? h c
  cases hr : lookup c r with
  | none => simp [Record.get, Members.get, hlook, hr, Val.toJson?]
  | some v =>
    obtain ⟨w, hw⟩ := Option.isSome_iff_exists.mp (hsome v hr)
    simp [Record.get, Members.get, hlook, hr, hw]

/-! ## Table specs -/

/-- The DuckDB type a declared type resolves to. -/
inductive SqlType where
  | varchar
  | bigint
  | double
  | boolean
  | timestamptz
  | json
  | decimal (p s : Nat)
  deriving DecidableEq

structure Column where
  name : String
  type : String
  sqlType : SqlType
  deriving DecidableEq

/-- The engine-managed columns: `ds`, `created_at`, `deleted_ds`, `deleted_at`. -/
def metaColumns : List String := ["ds", "created_at", "deleted_ds", "deleted_at"]

/-- The first character `_ident` lets a name start with. -/
def isIdentStart (c : Char) : Bool :=
  ('A' ≤ c && c ≤ 'Z') || ('a' ≤ c && c ≤ 'z') || c == '_'

/-- `[A-Za-z0-9_]`. -/
def isIdentChar (c : Char) : Bool := isIdentStart c || ('0' ≤ c && c ≤ '9')

/-- A parsed table of an opened store, with what `parse_schema` checks of it and what `_ident` checks of
a column's first character when the physical table is created. -/
structure TableSpec where
  name : String
  columns : List Column
  primary : Column
  searchable : List String
  namesNodup : (columns.map Column.name).Nodup
  noMeta : ∀ c ∈ columns, c.name ∉ metaColumns
  identNames : ∀ c ∈ columns, ∃ a r, c.name.toList = a :: r ∧ isIdentStart a = true
  primaryMem : primary ∈ columns
  primaryOk : (primary.type = "str" ∧ primary.sqlType = .varchar) ∨
    (primary.type = "int" ∧ primary.sqlType = .bigint)
  searchableOk : ∀ s ∈ searchable, ∃ c ∈ columns, c.name = s ∧ c.sqlType = .varchar

def TableSpec.primaryKey (spec : TableSpec) : String := spec.primary.name

def TableSpec.columnNames (spec : TableSpec) : List String := spec.columns.map Column.name

def TableSpec.allColumnNames (spec : TableSpec) : List String := spec.columnNames ++ metaColumns

theorem TableSpec.primaryKey_mem (spec : TableSpec) : spec.primaryKey ∈ spec.columnNames :=
  List.mem_map_of_mem spec.primaryMem

theorem TableSpec.not_mem_meta (spec : TableSpec) {c : String} (h : c ∈ spec.columnNames) :
    c ∉ metaColumns := by
  obtain ⟨col, hcol, rfl⟩ := List.mem_map.mp h
  exact spec.noMeta col hcol

structure Schema where
  tables : List TableSpec
  namesNodup : (tables.map TableSpec.name).Nodup

/-- `Schema.table`: the spec of a table name. -/
def Schema.table (schema : Schema) (name : String) : Option TableSpec :=
  schema.tables.find? (·.name = name)

theorem Schema.table_mem {schema : Schema} {name : String} {spec : TableSpec}
    (h : schema.table name = some spec) : spec ∈ schema.tables ∧ spec.name = name :=
  ⟨List.mem_of_find?_eq_some h, by simpa using List.find?_some h⟩

/-- A schema has one spec for a name. -/
theorem Schema.eq_of_name {schema : Schema} {a b : TableSpec} (ha : a ∈ schema.tables)
    (hb : b ∈ schema.tables) (h : a.name = b.name) : a = b :=
  List.inj_on_of_nodup_map schema.namesNodup ha hb h

end Seekbase
