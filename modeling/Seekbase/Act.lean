/-
# Seekbase.Act — the atomic effects: one line append, one SQL statement.

Every operation of the store is a decision on what it read and then a list of `Act`s, each of which
happens whole or not at all.  `exec` is their meaning on a database; a crash, an exception or an
interleaved operation is something that happens BETWEEN two of them, so a result about all schedules
is a fact about `exec` and one about lists.

* `exec_append_iff` … — per constructor, exactly when an act completes and what it leaves;
* `exec_files`, `execAll_files` — the mirror only grows, and only by appends;
* `exec_shown`, `execAll_shown` — the rows of a table are the fold of `Act.effect`.
-/
import Seekbase.Store

namespace Seekbase

open JsonText

/-- A full-text snapshot's row: the key and its tokens. -/
abbrev FtsRow := Cell × List (Option String)

/-- Everything an operation can change: the mirror, the physical tables, the side datasets of the
lance backend and the full-text snapshots of the vss backend. -/
structure Db where
  files : Files
  tables : String → PhysTable
  index : String → List IndexRow
  fts : String → List FtsRow

def Db.init : Db := ⟨[], fun _ => .empty, fun _ => [], fun _ => []⟩

def Db.setTable (db : Db) (name : String) (t : PhysTable) : Db :=
  { db with tables := Function.update db.tables name t }

inductive Act where
  | append (ds table : String) (line : Record)
  | insert (spec : TableSpec) (r : Record) (search : List Search) (ds createdAt : Val)
  | softDelete (spec : TableSpec) (keys : List String) (ds : String) (deletedAt : Val)
  | clear (spec : TableSpec)
  | rebuildFts (spec : TableSpec)
  | indexAppend (spec : TableSpec) (rows : List IndexRow)
  | indexOverwrite (spec : TableSpec) (rows : List IndexRow)

/-- The rows of a full-text snapshot. -/
def ftsRows (t : PhysTable) : List FtsRow := t.rows.map fun r => (r.key, r.search.map Prod.snd)

/-- One effect.  `soft_delete` of no key runs no statement. -/
def exec (env : Env) : Act → Db → Except Exc Db
  | .append ds table line, db =>
    match line.toMembers? with
    | some m => .ok { db with files := db.files ++ [⟨ds, table, m⟩] }
    | none => .error .notSerializable
  | .insert spec r search ds createdAt, db => do
    let row ← env.newRow spec r search ds createdAt
    let t ← insertRow (db.tables spec.name) row
    pure (db.setTable spec.name t)
  | .softDelete spec keys ds deletedAt, db =>
    if keys = [] then .ok db
    else do
      let at' ← accept (env.bindText deletedAt)
      pure (db.setTable spec.name (softDeleteRows (db.tables spec.name) keys ds at'))
  | .clear spec, db => .ok (db.setTable spec.name .empty)
  | .rebuildFts spec, db =>
    .ok (if env.vss ∧ spec.searchable ≠ [] then
      { db with fts := Function.update db.fts spec.name (ftsRows (db.tables spec.name)) } else db)
  | .indexAppend spec rows, db =>
    if env.copies spec.name rows then
      .ok { db with index := Function.update db.index spec.name (db.index spec.name ++ rows) }
    else .error .copyFailed
  | .indexOverwrite spec rows, db =>
    if env.copies spec.name rows then
      .ok { db with index := Function.update db.index spec.name rows }
    else .error .copyFailed

/-- Acts one after another up to the first that raises; what happened before it stays. -/
def execAll (env : Env) : List Act → Db → Db × Option Exc
  | [], db => (db, none)
  | a :: acts, db =>
    match exec env a db with
    | .ok db' => execAll env acts db'
    | .error e => (db, some e)

/-! ## What each act did -/

section Inversion

variable {env : Env} {db db' : Db}

theorem accept_ok_iff {α : Type} {x : Option α} {a : α} : accept x = .ok a ↔ x = some a := by
  cases x <;> simp [accept]

section Stored

variable {spec : TableSpec} {r : Record} {ds ca : Val} {row : Row}

theorem stored_ok_iff : env.stored spec r ds ca = .ok row ↔ ∃ cells key d c,
    (spec.columns.mapM fun col => env.cell col (r.get col.name)) = .ok cells
      ∧ env.cell spec.primary (r.get spec.primaryKey) = .ok key
      ∧ env.bindText ds = some d ∧ env.bindText ca = some c
      ∧ row = ⟨key, cells, d, c, none, none, []⟩ := by
  simp only [Env.stored, bind_ok_iff, accept_ok_iff, pure, Except.pure, Except.ok.injEq]
  constructor
  · rintro ⟨cells, hc, key, hk, d, hd, c, hca, rfl⟩
    exact ⟨cells, key, d, c, hc, hk, hd, hca, rfl⟩
  · rintro ⟨cells, key, d, c, hc, hk, hd, hca, rfl⟩
    exact ⟨cells, hc, key, hk, d, hd, c, hca, rfl⟩

/-- A row as it is first stored has no mark and no search columns. -/
theorem stored_live (h : env.stored spec r ds ca = .ok row) :
    row.deletedDs = none ∧ row.deletedAt = none ∧ row.search = [] := by
  obtain ⟨cells, key, d, c, -, -, -, -, rfl⟩ := stored_ok_iff.mp h
  exact ⟨rfl, rfl, rfl⟩

theorem newRow_ok_iff {search : List Search} : env.newRow spec r search ds ca = .ok row ↔
    ∃ base, env.stored spec r ds ca = .ok base
      ∧ row = { base with search := if env.vss then search else [] } := by
  unfold Env.newRow
  cases env.stored spec r ds ca with
  | error e => simp [Except.map]
  | ok base => simp only [Except.map, Except.ok.injEq, exists_eq_left', eq_comm]

/-- What `newRow` stores, but for the search columns. -/
theorem newRow_shown {search : List Search} (h : env.newRow spec r search ds ca = .ok row) :
    env.stored spec r ds ca = .ok row.shown := by
  obtain ⟨base, hb, rfl⟩ := newRow_ok_iff.mp h
  obtain ⟨-, -, hs⟩ := stored_live hb
  rw [hb, Row.shown, ← hs]

end Stored

theorem insertRow_ok_iff {t t' : PhysTable} {r : Row} :
    insertRow t r = .ok t'
      ↔ r.key ≠ .null ∧ r.key ∉ t.rows.map Row.key ∧ t'.rows = t.rows ++ [r] := by
  unfold insertRow
  split
  · rename_i h
    constructor
    · intro ht
      injection ht with ht
      subst ht
      exact ⟨h.1, h.2, rfl⟩
    · rintro ⟨-, -, ht⟩
      exact congrArg Except.ok (PhysTable.ext_rows ht.symm)
  · rename_i h
    simp only [reduceCtorEq, false_iff]
    rintro ⟨h1, h2, -⟩
    exact h ⟨h1, h2⟩

theorem exec_append_iff {ds table : String} {line : Record} :
    exec env (.append ds table line) db = .ok db'
      ↔ ∃ m, line.toMembers? = some m ∧ db' = { db with files := db.files ++ [⟨ds, table, m⟩] } := by
  cases hm : line.toMembers? <;> simp [exec, hm, eq_comm]

theorem exec_insert_iff {spec : TableSpec} {r : Record} {search : List Search} {ds ca : Val} :
    exec env (.insert spec r search ds ca) db = .ok db'
      ↔ ∃ row t, env.newRow spec r search ds ca = .ok row
        ∧ row.key ≠ .null ∧ row.key ∉ (db.tables spec.name).rows.map Row.key
        ∧ t.rows = (db.tables spec.name).rows ++ [row] ∧ db' = db.setTable spec.name t := by
  simp only [exec, bind_ok_iff, insertRow_ok_iff, pure, Except.pure, Except.ok.injEq]
  constructor
  · rintro ⟨row, hrow, t, ⟨h1, h2, h3⟩, rfl⟩
    exact ⟨row, t, hrow, h1, h2, h3, rfl⟩
  · rintro ⟨row, t, hrow, h1, h2, h3, rfl⟩
    exact ⟨row, hrow, t, ⟨h1, h2, h3⟩, rfl⟩

theorem exec_softDelete_iff {spec : TableSpec} {keys : List String} {ds : String} {at' : Val} :
    exec env (.softDelete spec keys ds at') db = .ok db'
      ↔ (keys = [] ∧ db' = db) ∨ (keys ≠ [] ∧ ∃ x, env.bindText at' = some x
        ∧ db' = db.setTable spec.name (softDeleteRows (db.tables spec.name) keys ds x)) := by
  by_cases hk : keys = []
  · simp [exec, hk, eq_comm]
  · simp only [exec, hk, if_false, bind_ok_iff, accept_ok_iff, pure, Except.pure, Except.ok.injEq,
      false_and, false_or, ne_eq, not_false_eq_true, true_and]
    constructor
    · rintro ⟨x, hx, rfl⟩; exact ⟨x, hx, rfl⟩
    · rintro ⟨x, hx, rfl⟩; exact ⟨x, hx, rfl⟩

end Inversion

@[simp] theorem setTable_files (db : Db) (name : String) (t : PhysTable) :
    (db.setTable name t).files = db.files := rfl

@[simp] theorem setTable_self (db : Db) (name : String) (t : PhysTable) :
    (db.setTable name t).tables name = t := by simp [Db.setTable]

@[simp] theorem setTable_other (db : Db) {name other : String} (t : PhysTable) (h : other ≠ name) :
    (db.setTable name t).tables other = db.tables other := by
  simp [Db.setTable, Function.update_of_ne h]

/-! ## The effect of a completed act on the mirror and on a table -/

/-- The rows of a table without their search columns. -/
def Db.shown (db : Db) (name : String) : List Row := (db.tables name).rows.map Row.shown

/-- The lines an act appends. -/
def Act.lines : Act → List Line
  | .append ds table line => (line.toMembers?.map fun m => (⟨ds, table, m⟩ : Line)).toList
  | _ => []

/-- What an act does to the rows of a table. -/
def Act.effect (env : Env) (name : String) (rows : List Row) : Act → List Row
  | .insert spec r _ ds ca =>
    if spec.name = name then rows ++ (env.stored spec r ds ca).toOption.toList else rows
  | .softDelete spec keys ds deletedAt =>
    match env.bindText deletedAt with
    | some at' => if spec.name = name then rows.map (mark keys ds at') else rows
    | none => rows
  | .clear spec => if spec.name = name then [] else rows
  | _ => rows

theorem mark_shown (keys : List String) (ds : String) (at' : Option String) (r : Row) :
    (mark keys ds at' r).shown = mark keys ds at' r.shown := by
  by_cases h : r.key.text ∈ keys.map some ∧ r.deletedDs = none
  · have h' : r.shown.key.text ∈ keys.map some ∧ r.shown.deletedDs = none := h
    rw [mark, if_pos h, mark, if_pos h']; rfl
  · have h' : ¬ (r.shown.key.text ∈ keys.map some ∧ r.shown.deletedDs = none) := h
    rw [mark, if_neg h, mark, if_neg h']

theorem mark_nil (ds : String) (at' : Option String) : mark [] ds at' = id :=
  funext fun r => by simp [mark]

theorem shown_setTable (db : Db) (name other : String) (t : PhysTable) :
    (db.setTable name t).shown other
      = if name = other then t.rows.map Row.shown else db.shown other := by
  by_cases h : name = other
  · subst h; simp [Db.shown]
  · simp [Db.shown, h, setTable_other db t (Ne.symm h)]

section Effects

variable {env : Env} {db db' : Db}

theorem exec_files {a : Act} (h : exec env a db = .ok db') : db'.files = db.files ++ a.lines := by
  cases a with
  | append ds table line =>
    obtain ⟨m, hm, rfl⟩ := exec_append_iff.mp h
    simp [Act.lines, hm]
  | insert spec r search ds ca =>
    obtain ⟨row, t, -, -, -, -, rfl⟩ := exec_insert_iff.mp h
    simp [Act.lines]
  | softDelete spec keys ds at' =>
    rcases exec_softDelete_iff.mp h with ⟨-, rfl⟩ | ⟨-, x, -, rfl⟩ <;> simp [Act.lines]
  | clear spec => obtain rfl := Except.ok.inj h; simp [Act.lines]
  | rebuildFts spec =>
    obtain rfl := Except.ok.inj h
    split <;> simp [Act.lines]
  | indexAppend spec rows | indexOverwrite spec rows =>
    simp only [exec] at h
    split at h
    · obtain rfl := Except.ok.inj h; simp [Act.lines]
    · cases h

theorem exec_shown {a : Act} (h : exec env a db = .ok db') (name : String) :
    db'.shown name = a.effect env name (db.shown name) := by
  cases a with
  | append ds table line =>
    obtain ⟨m, hm, rfl⟩ := exec_append_iff.mp h
    rfl
  | insert spec r search ds ca =>
    obtain ⟨row, t, hrow, -, -, ht, rfl⟩ := exec_insert_iff.mp h
    have hstored := newRow_shown hrow
    rw [shown_setTable, ht]
    by_cases hn : spec.name = name
    · subst hn
      simp [Act.effect, hstored, Db.shown, Except.toOption]
    · simp [Act.effect, hn]
  | softDelete spec keys ds at' =>
    rcases exec_softDelete_iff.mp h with ⟨rfl, rfl⟩ | ⟨-, x, hx, rfl⟩
    · cases hb : env.bindText at' <;> simp [Act.effect, hb, mark_nil]
    · rw [shown_setTable]
      by_cases hn : spec.name = name
      · subst hn
        simp [Act.effect, hx, softDeleteRows, Db.shown, Function.comp_def, mark_shown]
      · simp [Act.effect, hx, hn]
  | clear spec =>
    obtain rfl := Except.ok.inj h
    rw [shown_setTable]
    by_cases hn : spec.name = name <;> simp [Act.effect, hn, PhysTable.empty]
  | rebuildFts spec =>
    obtain rfl := Except.ok.inj h
    split <;> rfl
  | indexAppend spec rows | indexOverwrite spec rows =>
    simp only [exec] at h
    split at h
    · obtain rfl := Except.ok.inj h; rfl
    · cases h

theorem execAll_append (acts more : List Act) (db : Db) :
    execAll env (acts ++ more) db = match execAll env acts db with
      | (db', none) => execAll env more db'
      | (db', some e) => (db', some e) := by
  induction acts generalizing db with
  | nil => rfl
  | cons a acts ih =>
    simp only [List.cons_append, execAll]
    cases exec env a db with
    | ok db' => exact ih db'
    | error e => rfl

theorem execAll_cons_none {a : Act} {acts : List Act} :
    execAll env (a :: acts) db = (db', none)
      ↔ ∃ mid, exec env a db = .ok mid ∧ execAll env acts mid = (db', none) := by
  rw [execAll]
  cases exec env a db <;> simp

theorem execAll_append_none {acts more : List Act} :
    execAll env (acts ++ more) db = (db', none)
      ↔ ∃ mid, execAll env acts db = (mid, none) ∧ execAll env more mid = (db', none) := by
  rw [execAll_append]
  rcases execAll env acts db with ⟨mid, _ | e⟩ <;> simp

theorem execAll_files {acts : List Act} (h : execAll env acts db = (db', none)) :
    db'.files = db.files ++ acts.flatMap Act.lines := by
  induction acts generalizing db with
  | nil => obtain rfl := (Prod.mk.inj h).1; simp
  | cons a acts ih =>
    obtain ⟨mid, ha, h⟩ := execAll_cons_none.mp h
    rw [ih h, exec_files ha, List.flatMap_cons, List.append_assoc]

theorem execAll_shown {acts : List Act} (h : execAll env acts db = (db', none)) (name : String) :
    db'.shown name = acts.foldl (Act.effect env name) (db.shown name) := by
  induction acts generalizing db with
  | nil => obtain rfl := (Prod.mk.inj h).1; rfl
  | cons a acts ih =>
    obtain ⟨mid, ha, h⟩ := execAll_cons_none.mp h
    rw [ih h, exec_shown ha, List.foldl_cons]

end Effects

/-- A table's keys are distinct and none is missing, whatever is shown of its rows. -/
theorem shown_keys (db : Db) (name : String) :
    (db.shown name).map Row.key = (db.tables name).rows.map Row.key := by
  simp [Db.shown, Function.comp_def, Row.shown]

theorem shown_nodup (db : Db) (name : String) : ((db.shown name).map Row.key).Nodup :=
  shown_keys db name ▸ (db.tables name).pkUnique

theorem shown_notNull (db : Db) (name : String) : ∀ r ∈ db.shown name, r.key ≠ .null := by
  intro r hr
  obtain ⟨r', hr', rfl⟩ := List.mem_map.mp hr
  exact (db.tables name).pkNotNull r' hr'

/-! ## Programs along the mirror they write -/

/-- An act that does not fail at `json.dumps`. -/
def Act.Dumps : Act → Prop
  | .append _ _ line => line.toMembers?.isSome = true
  | _ => True

/-- The line of an append that has not failed. -/
theorem dumped_line {acts : List Act} (hdumps : ∀ a ∈ acts, a.Dumps) {ds table : String}
    {line : Record} (h : .append ds table line ∈ acts) :
    ∃ m, line.toMembers? = some m ∧ (⟨ds, table, m⟩ : Line) ∈ acts.flatMap Act.lines := by
  obtain ⟨m, hm⟩ := Option.isSome_iff_exists.mp (hdumps _ h)
  exact ⟨m, hm, List.mem_flatMap.mpr ⟨_, h, by simp [Act.lines, hm]⟩⟩

/-- Each act has a property of the mirror as the acts before it leave it. -/
def Along (P : Files → Act → Prop) (files : Files) : List Act → Prop
  | [] => True
  | a :: acts => P files a ∧ (a.Dumps → Along P (files ++ a.lines) acts)

section Along

variable {P : Files → Act → Prop} {files more : Files}
  (hP : ∀ files more a, P files a → files ⊆ more → P more a)

include hP in
theorem along_mono {acts : List Act} (h : Along P files acts) (hsub : files ⊆ more) :
    Along P more acts := by
  induction acts generalizing files more with
  | nil => trivial
  | cons a acts ih =>
    refine ⟨hP _ _ _ h.1 hsub, fun hd => ih (h.2 hd) ?_⟩
    intro l hl
    rcases List.mem_append.mp hl with hl | hl
    · exact List.mem_append_left _ (hsub hl)
    · exact List.mem_append_right _ hl

theorem along_append {a b : List Act} (ha : Along P files a)
    (hb : (∀ x ∈ a, x.Dumps) → Along P (files ++ a.flatMap Act.lines) b) :
    Along P files (a ++ b) := by
  induction a generalizing files with
  | nil => simpa using hb
  | cons x a ih =>
    refine ⟨ha.1, fun hx => ih (ha.2 hx) fun hall => ?_⟩
    have h := hb fun y hy => (List.mem_cons.mp hy).elim (fun heq => heq ▸ hx) (hall y)
    rw [List.flatMap_cons, ← List.append_assoc] at h
    exact h

include hP in
/-- Acts that need nothing of each other. -/
theorem along_of_forall {acts : List Act} (h : ∀ a ∈ acts, P files a) : Along P files acts := by
  induction acts generalizing files with
  | nil => trivial
  | cons a acts ih =>
    refine ⟨h a (by simp), fun _ => ih fun b hb => hP _ _ _ (h b (by simp [hb])) ?_⟩
    exact List.subset_append_left _ _

theorem exec_dumps {env : Env} {a : Act} {db db' : Db} (h : exec env a db = .ok db') :
    a.Dumps := by
  cases a with
  | append ds table line =>
    obtain ⟨m, hm, -⟩ := exec_append_iff.mp h
    show line.toMembers?.isSome = true
    rw [hm]; rfl
  | _ => trivial

/-- The acts that are left go on along the mirror as it is now. -/
theorem exec_along {env : Env} {a : Act} {acts : List Act} {db db' : Db}
    (h : Along P db.files (a :: acts)) (he : exec env a db = .ok db') :
    Along P db'.files acts := by
  rw [exec_files he]
  exact h.2 (exec_dumps he)

end Along

end Seekbase
