/-
# Seekbase.Seam — what a relation is after a shell stage that changes nothing.

At the seam the rows of a phase become lines of JSON, and the lines the shell prints become the table
`_bridge`.  The columns are carried by the rows alone: each line has the keys of its row.  So a relation
with rows comes back as it was, and one without rows comes back without its columns, as a table that has
the one column `_empty`.

What DuckDB makes of a file of JSON objects is a parameter, `read_json_auto`, with one law: each line is
a row, and its keys are the columns.

* `ReadsObjects`    — the law;
* `bridgeRelation`  — the table behind `_bridge`;
* `rowsToJsonl_lines` — the lines of the rows are objects with the columns as keys;
* `seam_keeps`      — a shell stage that copies its input, in the middle of a plan.
-/
import Seekbase.Lib.JsonCut
import Seekbase.Unseen

namespace Seekbase

open JsonText Lines

/-! ## Lines of objects -/

mutual
/-- A value that JSON has: no `NaN`, no infinity, and no key of an object twice. -/
def properJson : Json → Bool
  | .nan | .inf | .negInf => false
  | .arr xs => properItems xs
  | .obj ms => decide (ms.map Prod.fst).Nodup && properMembers ms
  | _ => true
def properItems : List Json → Bool
  | [] => true
  | x :: xs => properJson x && properItems xs
def properMembers : List (String × Json) → Bool
  | [] => true
  | (_, v) :: ms => properJson v && properMembers ms
end

/-- The names of the columns, and the rows. -/
abbrev Relation := List String × List (List Json)

/-- The line, without its line feed, is an object that has the columns as its keys. -/
def ObjectLine (cols : List String) (body : Bytes) (row : List Json) : Prop :=
  lf ∉ body ∧ loadsBytes body = some (.obj (cols.zip row)) ∧ row.length = cols.length
    ∧ ∀ j ∈ row, properJson j = true

/-- `read_json_auto` maps each line that is a JSON object to a row, with its keys as columns. -/
structure ReadsObjects (table : Bytes → Except String Relation) : Prop where
  reads : ∀ {cols : List String} {bodies : List Bytes} {cells : List (List Json)}, bodies ≠ [] →
    cols ≠ [] → cols.Nodup → List.Forall₂ (ObjectLine cols) bodies cells →
    table (bodies.flatMap (· ++ [lf])) = .ok (cols, cells)

/-- The table behind `_bridge`. -/
def bridgeRelation (table : Bytes → Except String Relation) (jsonl : Bytes) : Except String Relation :=
  if trim jsonl = [] then .ok (["_empty"], []) else table jsonl

/-- Rows with these columns, of values that JSON has. -/
def Regular (cols : List String) (rows : List Record) : Prop :=
  ∀ row ∈ rows, row.map Prod.fst = cols ∧ ∀ kv ∈ row, ∃ j, kv.2 = .json j ∧ properJson j = true

def cells (row : Record) : List Json := row.map fun kv => kv.2.image

def rowBody (row : Record) : Bytes := Utf8.encode (dumps (.obj (row.map fun kv => (kv.1, kv.2.image))))

theorem rowBody_ge {row : Record} {b : UInt8} (hb : b ∈ rowBody row) : 32 ≤ b.toNat :=
  Utf8.encode_ge (by omega) (dumps_ge _) hb

theorem zip_cells {cols : List String} {row : Record} (h : row.map Prod.fst = cols) :
    cols.zip (cells row) = row.map fun kv => (kv.1, kv.2.image) := by
  rw [← h, cells, List.zip_map']

/-- The line of a row. -/
theorem rowBody_object {cols : List String} {row : Record} (h : row.map Prod.fst = cols)
    (hcells : ∀ kv ∈ row, ∃ j, kv.2 = .json j ∧ properJson j = true) :
    ObjectLine cols (rowBody row) (cells row) := by
  refine ⟨?_, ?_, ?_, ?_⟩
  · intro hmem
    have hge := rowBody_ge hmem
    have hlf : lf.toNat = 10 := rfl
    omega
  · rw [zip_cells h]
    exact loadsBytes_obj _
  · rw [← h, cells, List.length_map, List.length_map]
  · intro j hj
    obtain ⟨kv, hkv, rfl⟩ := List.mem_map.mp hj
    obtain ⟨j, hj, hproper⟩ := hcells kv hkv
    rw [hj]
    exact hproper

theorem rowsToJsonl_lines {cols : List String} {rows : List Record} (h : Regular cols rows) :
    rowsToJsonl rows = (rows.map rowBody).flatMap (· ++ [lf])
      ∧ List.Forall₂ (ObjectLine cols) (rows.map rowBody) (rows.map cells) := by
  refine ⟨?_, ?_⟩
  · rw [rowsToJsonl, List.flatMap_map]
    rfl
  · induction rows with
    | nil => exact .nil
    | cons row rows ih =>
      obtain ⟨hcols, hcells⟩ := h row List.mem_cons_self
      exact .cons (rowBody_object hcols hcells) (ih fun x hx => h x (List.mem_cons_of_mem row hx))

/-- What the rows print is blank only if there are none. -/
theorem trim_rowsToJsonl {rows : List Record} : trim (rowsToJsonl rows) = [] ↔ rows = [] := by
  constructor
  · intro htrim
    cases rows with
    | nil => rfl
    | cons row rows =>
      have hhead : ∃ rest, rowsToJsonl (row :: rows) = 123 :: rest := ⟨_, rfl⟩
      obtain ⟨rest, hrest⟩ := hhead
      rw [hrest, trim, List.dropWhile_cons_of_neg (by decide), List.rdropWhile_eq_nil_iff] at htrim
      have hblank := htrim 123 List.mem_cons_self
      exact absurd hblank (by decide)
  · rintro rfl
    rfl

/-! ## The seam -/

section Seam

variable {engine : Engine} {table : Bytes → Except String Relation} {schema : ReadSchema}

/-- SEAM.  Behind a shell stage that copies its input, the next phase of the plan runs on a `_bridge`
with the columns and the rows of the phase before; of a phase without rows the columns are lost, and
`_bridge` has the column `_empty` instead. -/
theorem seam_keeps (htable : ReadsObjects table)
    (hreads : ∀ jsonl relation, table jsonl = .ok relation → engine.readJson jsonl = .ok ())
    {argvs : List (List String)} {cols : List String} {rows : List Record}
    (hcat : engine.bash argvs (rowsToJsonl rows) = .ok (rowsToJsonl rows))
    (hname : bridgeName ∉ schema.names) (hne : cols ≠ []) (hcols : cols.Nodup)
    (hrows : Regular cols rows) (world : World) (c : Cursor schema) (phase : PlanPhase)
    (rest : List PlanPhase) :
    ∃ c' jsonl, runPhases engine world c rows (.bash argvs :: phase :: rest)
        = runPhases engine world c' rows (phase :: rest)
      ∧ c'.views = c.views ∧ c'.content world (.relation bridgeName) = some (.bridge jsonl)
      ∧ bridgeRelation table jsonl
        = .ok (if rows = [] then (["_empty"], []) else (cols, rows.map cells)) := by
  obtain ⟨hlines, hobjects⟩ := rowsToJsonl_lines hrows
  by_cases hnone : rows = []
  · have hblank := trim_rowsToJsonl.mpr hnone
    have hload : loadBridge engine c (rowsToJsonl rows) = .ok ⟨c.views, some [], fun _ => hname⟩ := by
      rw [loadBridge, if_pos hblank, dif_neg hname]
    refine ⟨⟨c.views, some [], fun _ => hname⟩, [], ?_, rfl, content_bridge rfl world, ?_⟩
    · rw [runPhases, hcat]
      dsimp only
      rw [hload]
    · rw [if_pos hnone]
      rfl
  · have hprinted : trim (rowsToJsonl rows) ≠ [] := fun h => hnone (trim_rowsToJsonl.mp h)
    have hrelation : table (rowsToJsonl rows) = .ok (cols, rows.map cells) := by
      rw [hlines]
      exact htable.reads (by simpa using hnone) hne hcols hobjects
    have hload : loadBridge engine c (rowsToJsonl rows)
        = .ok ⟨c.views, some (rowsToJsonl rows), fun _ => hname⟩ := by
      rw [loadBridge, if_neg hprinted, hreads _ _ hrelation]
      dsimp only
      rw [dif_neg hname]
    refine ⟨⟨c.views, some (rowsToJsonl rows), fun _ => hname⟩, rowsToJsonl rows, ?_, rfl,
      content_bridge rfl world, ?_⟩
    · rw [runPhases, hcat]
      dsimp only
      rw [hload]
    · rw [if_neg hnone, bridgeRelation, if_neg hprinted, hrelation]

end Seam

/-! ## A reader of objects -/

def objectOf (line : Bytes) : Option (List (String × Json)) :=
  match loadsBytes line with
  | some (.obj members) => some members
  | _ => none

/-- Of lines that are all objects, the columns of the first one, and the values of each. -/
def lineTable (jsonl : Bytes) : Except String Relation :=
  match ((jsonl.splitOn lf).filter (· ≠ [])).mapM objectOf with
  | some (ms :: more) => .ok (ms.map Prod.fst, (ms :: more).map fun members => members.map Prod.snd)
  | _ => .error "Malformed JSON"

theorem splitOn_lines {bodies : List Bytes} (h : ∀ b ∈ bodies, lf ∉ b) :
    (bodies.flatMap (· ++ [lf])).splitOn lf = bodies ++ [[]] := by
  induction bodies with
  | nil => rfl
  | cons b bodies ih =>
    have hb := h b List.mem_cons_self
    have hrest := ih fun x hx => h x (List.mem_cons_of_mem b hx)
    rw [List.splitOn_eq_splitOnP] at hrest ⊢
    rw [List.flatMap_cons, List.append_assoc, List.singleton_append,
      List.splitOnP_append_cons _ _ (by simp), hrest, List.splitOnP_eq_singleton]
    · rfl
    · intro c hc
      have hne : c ≠ lf := fun he => hb (he ▸ hc)
      simpa using hne

theorem objectOf_line {cols : List String} {body : Bytes} {row : List Json}
    (h : ObjectLine cols body row) : objectOf body = some (cols.zip row) := by
  rw [objectOf, h.2.1]

theorem lineTable_reads : ReadsObjects lineTable where
  reads := by
    intro cols bodies cells hne hcols hnodup hobjects
    have hbodies : ∀ b ∈ bodies, lf ∉ b ∧ b ≠ [] := by
      intro b hb
      obtain ⟨row, -, hno, hloads, -⟩ := forall₂_left hobjects hb
      refine ⟨hno, ?_⟩
      rintro rfl
      cases hloads
    have hkept : ((bodies.flatMap (· ++ [lf])).splitOn lf).filter (· ≠ []) = bodies := by
      rw [splitOn_lines fun b hb => (hbodies b hb).1, List.filter_append, List.filter_eq_self.mpr]
      · simp
      · intro b hb
        simpa using (hbodies b hb).2
    have hall : bodies.mapM objectOf = some (cells.map fun row => cols.zip row) := by
      clear hne hbodies hkept
      induction hobjects with
      | nil => rfl
      | cons hone _ ih =>
        rw [List.mapM_cons, objectOf_line hone, ih]
        rfl
    unfold lineTable
    rw [hkept, hall]
    have hrows : ((cells.map fun row => cols.zip row).map fun members => members.map Prod.snd) = cells := by
      rw [List.map_map]
      refine (List.map_congr_left fun row hrow => ?_).trans (List.map_id cells)
      obtain ⟨b, -, -, -, hlength, -⟩ := forall₂_left hobjects.flip hrow
      exact List.map_snd_zip (by omega)
    cases hobjects with
    | nil => exact absurd rfl hne
    | cons hone hrest =>
      have hkeys := List.map_fst_zip (Nat.le_of_eq hone.2.2.1.symm)
      exact congrArg Except.ok (Prod.ext hkeys hrows)

/-! ## `cat` -/

def pairOfNotes : List Record :=
  [[("id", .json (.str "n1")), ("n", .json (.int 1))], [("id", .json (.str "n2")), ("n", .json .null)]]

def counting : PlanPhase := .duck (countText ++ "_bridge") []

/-- Two notes through `cat`. -/
theorem seam_keeps_notes : ∃ c' jsonl,
    runPhases countEngine nothingStored (Cursor.fresh.install now : Cursor notesReads) pairOfNotes
        [.bash [["cat"]], counting]
      = runPhases countEngine nothingStored c' pairOfNotes [counting]
    ∧ c'.views = some now ∧ c'.content nothingStored (.relation bridgeName) = some (.bridge jsonl)
    ∧ bridgeRelation lineTable jsonl
      = .ok (["id", "n"], [[.str "n1", .int 1], [.str "n2", .null]]) := by
  have hregular : Regular ["id", "n"] pairOfNotes := by
    intro row hrow
    rcases List.mem_cons.mp hrow with rfl | hrow
    · refine ⟨rfl, ?_⟩
      simp [properJson]
    · rw [List.mem_singleton.mp hrow]
      refine ⟨rfl, ?_⟩
      simp [properJson]
  exact seam_keeps lineTable_reads (fun _ _ _ => rfl) rfl (by decide) (by decide) (by decide) hregular
    nothingStored _ counting []

/-- A schema with a table of the bridge's name. -/
def bridgeReads : ReadSchema := ⟨⟨[{ notes with name := "_bridge" }], by decide⟩, by decide⟩

/-- A phase that has found nothing, in its column `id`: behind `cat` that column is gone.  And where a
table has the bridge's name, no phase comes behind the shell. -/
theorem empty_loses_columns : (∃ c' jsonl,
    runPhases countEngine nothingStored (Cursor.fresh.install now : Cursor notesReads) []
        [.bash [["cat"]], counting]
      = runPhases countEngine nothingStored c' [] [counting]
    ∧ Regular ["id"] []
    ∧ c'.content nothingStored (.relation bridgeName) = some (.bridge jsonl)
    ∧ bridgeRelation lineTable jsonl = .ok (["_empty"], [])
    ∧ bridgeRelation lineTable jsonl ≠ .ok (["id"], []))
    ∧ ∃ e, (runPhases countEngine nothingStored (Cursor.fresh.install now : Cursor bridgeReads) []
      [.bash [["cat"]], counting]).1 = .error e := by
  have hempty : bridgeRelation lineTable [] = .ok (["_empty"], []) := rfl
  refine ⟨⟨⟨some now, some [], by decide⟩, [], rfl, ?_, rfl, hempty, ?_⟩, _, rfl⟩
  · intro row hrow
    cases hrow
  · intro hkept
    rw [hempty] at hkept
    have hcols : "_empty" = "id" := by
      injection hkept with hpair
      injection hpair with hcols
      injection hcols
    exact absurd hcols (by decide)

end Seekbase
