/-
# Seekbase.File — the file mirror: one append-only log per partition day and table.

The mirror is the list of its lines in the order they were appended; a partition file is the
sublist of one `(ds, table)`.  A line is kept as the dict `json.loads` makes of it (that the text
of a completely appended line reads back as its dict is `loads_dumps`, and what a cut text does is
the matter of the torn-tail module).  Empty partition directories hold no line and are left out.

* `putLine`, `tombstone` — the two record shapes, the only place that knows them;
* `iterEvents`           — the replay source: partitions in name order, then line order.
-/
import Mathlib.Data.List.Sort
import Mathlib.Data.List.Dedup
import Mathlib.Data.String.Basic
import Seekbase.Struct

namespace Seekbase

open JsonText

def strVal (s : String) : Val := .json (.str s)

/-- A put line: the business columns, then `ds` and `created_at`. -/
def putLine (spec : TableSpec) (r : Record) (ds now : String) : Record :=
  spec.columnNames.map (fun c => (c, r.get c)) ++ [("ds", strVal ds), ("created_at", strVal now)]

/-- A tombstone line for a key. -/
def tombstone (key : Val) (now : String) : Record :=
  [("_deleted", key), ("deleted_at", strVal now)]

/-- A line of the mirror, in the partition `ds` of a table. -/
structure Line where
  ds : String
  table : String
  members : Members

abbrev Files := List Line

/-! ## Reading -/

/-- The partition directories in name order. -/
def dsDirs (files : Files) : List String :=
  ((files.map Line.ds).dedup).insertionSort (· ≤ ·)

/-- `iter_events`: the events of a table, partitions in name order, lines in append order. -/
def iterEvents (files : Files) (table : String) : List (String × Members) :=
  (dsDirs files).flatMap fun ds =>
    (files.filter fun l => l.ds = ds ∧ l.table = table).map fun l => (ds, l.members)

theorem mem_dsDirs {files : Files} {ds : String} :
    ds ∈ dsDirs files ↔ ∃ l ∈ files, l.ds = ds := by
  simp [dsDirs, List.mem_insertionSort, List.mem_dedup]

theorem mem_iterEvents {files : Files} {table ds : String} {m : Members} :
    (ds, m) ∈ iterEvents files table
      ↔ ∃ l ∈ files, l.ds = ds ∧ l.table = table ∧ l.members = m := by
  simp only [iterEvents, List.mem_flatMap, mem_dsDirs, List.mem_map, List.mem_filter,
    decide_eq_true_eq, Prod.mk.injEq]
  constructor
  · rintro ⟨d, -, l, ⟨hl, rfl, ht⟩, rfl, rfl⟩
    exact ⟨l, hl, rfl, ht, rfl⟩
  · rintro ⟨l, hl, rfl, ht, rfl⟩
    exact ⟨l.ds, ⟨l, hl, rfl⟩, l, ⟨hl, rfl, ht⟩, rfl, rfl⟩

theorem dsDirs_nodup (files : Files) : (dsDirs files).Nodup :=
  (List.perm_insertionSort _ _).nodup_iff.mpr (List.nodup_dedup _)

theorem dsDirs_sorted (files : Files) : (dsDirs files).Pairwise (· ≤ ·) :=
  List.pairwise_insertionSort _ _

/-- Splitting a list by a key and putting the parts one after another reorders it. -/
theorem flatMap_filter_perm {α β : Type} [DecidableEq β] (f : α → β) (keys : List β) (xs : List α)
    (hnd : keys.Nodup) (hcov : ∀ x ∈ xs, f x ∈ keys) :
    (keys.flatMap fun k => xs.filter (f · = k)).Perm xs := by
  induction keys generalizing xs with
  | nil =>
    cases xs with
    | nil => simp
    | cons x xs => exact absurd (hcov x (by simp)) (by simp)
  | cons k keys ih =>
    obtain ⟨hk, hnd⟩ := List.nodup_cons.mp hnd
    have hrest : (keys.flatMap fun k' => xs.filter (f · = k'))
        = keys.flatMap fun k' => (xs.filter fun x => !decide (f x = k)).filter (f · = k') := by
      refine List.flatMap_congr fun k' hk' => ?_
      rw [List.filter_filter]
      refine List.filter_congr fun x _ => ?_
      by_cases hx : f x = k'
      · have hne : k' ≠ k := fun h => hk (h ▸ hk')
        simp only [hx, hne, decide_true, decide_false, Bool.not_false, Bool.and_self]
      · simp only [hx, decide_false, Bool.false_and]
    rw [List.flatMap_cons, hrest]
    refine (List.Perm.append_left _ (ih _ hnd fun x hx => ?_)).trans
      (List.filter_append_perm (fun x => decide (f x = k)) xs)
    obtain ⟨hx, hne⟩ := List.mem_filter.mp hx
    exact (List.mem_cons.mp (hcov x hx)).resolve_left (by simpa using hne)

/-- Reading by partitions reorders the lines of a table and loses none. -/
theorem iterEvents_perm (files : Files) (table : String) :
    (iterEvents files table).Perm
      ((files.filter (·.table = table)).map fun l => (l.ds, l.members)) := by
  have hparts : iterEvents files table = ((dsDirs files).flatMap fun ds =>
      (files.filter (·.table = table)).filter (·.ds = ds)).map fun l => (l.ds, l.members) := by
    rw [iterEvents, List.map_flatMap]
    refine List.flatMap_congr fun ds _ => ?_
    rw [List.filter_filter]
    have hcond : (files.filter fun l => decide (l.ds = ds ∧ l.table = table))
        = files.filter fun l => decide (l.ds = ds) && decide (l.table = table) :=
      List.filter_congr fun l _ => by simp
    rw [hcond]
    refine List.map_congr_left fun l hl => ?_
    have hds : l.ds = ds := by
      have h := (List.mem_filter.mp hl).2
      simp only [Bool.and_eq_true, decide_eq_true_eq] at h
      exact h.1
    rw [hds]
  rw [hparts]
  refine List.Perm.map _ (flatMap_filter_perm Line.ds _ _ (dsDirs_nodup files) fun l hl => ?_)
  exact mem_dsDirs.mpr ⟨l, (List.mem_filter.mp hl).1, rfl⟩

/-! ## Record shapes -/

section Shapes

variable {spec : TableSpec} {r : Record} {ds now : String}

theorem putLine_get (spec : TableSpec) (r : Record) (ds now : String) {c : String}
    (h : c ∈ spec.columnNames) : (putLine spec r ds now).get c = r.get c := by
  have hds : "ds" ≠ c := fun hc => spec.not_mem_meta h (by simp [metaColumns, ← hc])
  have hca : "created_at" ≠ c := fun hc => spec.not_mem_meta h (by simp [metaColumns, ← hc])
  simp [Record.get, putLine, lookup_append, lookup, lookup_map, h, hds, hca]

theorem putLine_names (spec : TableSpec) (r : Record) (ds now : String) :
    (putLine spec r ds now).map Prod.fst = spec.columnNames ++ ["ds", "created_at"] := by
  simp [putLine, Function.comp_def]

end Shapes

end Seekbase
