/-
# Seekbase.TimeMachine — a predicate on the rows of today against the history up to a day.

`asof` looks at the row as it is now.  The history semantics is `replayRows` of the partitions up to
a day `D` alone.  Both select the same rows, because a row's `ds` is the partition of its one put
line and its `deleted_ds` that of its one tombstone: what the predicate asks of a row is which of
its two lines lie in the partitions up to `D`.

What the view shows of a selected row is the row as it is NOW: one that was deleted after `D` comes
with its later `deleted_ds` and `deleted_at` (`asof_shows_later_mark`).  So the rows agree up to
these two columns (`Row.unmarked`), and it is up to them that no later operation changes an as-of-`D`
result.
-/
import Seekbase.Fidelity

namespace Seekbase

open JsonText Transition

/-! ## The log up to a day -/

/-- The partitions up to a day. -/
def upTo (day : String) (files : Files) : Files := files.filter (·.ds ≤ day)

theorem tableEvents_upTo (day : String) (files : Files) (table : String) :
    tableEvents (upTo day files) table = (tableEvents files table).filter (·.1 ≤ day) := by
  simp only [tableEvents, upTo, List.filter_map, List.filter_filter]
  congr 1
  exact List.filter_congr fun l _ => Bool.and_comm _ _

section Cut

variable {env : Env} {spec : TableSpec} {events : List (String × Members)} {day : String}

theorem mem_putsOf_upTo {m : Members} : m ∈ putsOf (events.filter (·.1 ≤ day))
    ↔ ∃ ds, (ds, m) ∈ events ∧ ds ≤ day ∧ isTombstone m = false := by
  simp [mem_putsOf, and_assoc]

theorem mem_delsOf_upTo {repr : Json → String} {d : Del} :
    d ∈ delsOf repr (events.filter (·.1 ≤ day)) ↔ d ∈ delsOf repr events ∧ d.ds ≤ day := by
  simp only [mem_delsOf, List.mem_filter, decide_eq_true_eq]
  constructor
  · rintro ⟨m, ⟨hm, hle⟩, ht, hd⟩; exact ⟨⟨m, hm, ht, hd⟩, hle⟩
  · rintro ⟨⟨m, hm, ht, hd⟩, hle⟩; exact ⟨m, ⟨hm, hle⟩, ht, hd⟩

theorem Readable.sublist {some all : List (String × Members)} (h : Readable env spec all)
    (hs : some.Sublist all) : Readable env spec some where
  good := by
    have hp : (putsOf some).Sublist (putsOf all) := (hs.filter _).map _
    exact ⟨fun m hm => h.good.stores m (hp.subset hm), fun m hm => h.good.created m (hp.subset hm),
      h.good.keysNodup.sublist (hp.map _)⟩
  delsBind d hd := h.delsBind d (((hs.filter _).map _).subset hd)
  delsNodup := h.delsNodup.sublist (((hs.filter _).map _).map _)

end Cut

/-! ## One row -/

/-- Every put line carries its own partition. -/
def Partitioned (events : List (String × Members)) : Prop :=
  ∀ e ∈ events, isTombstone e.2 = false → e.2.get "ds" = .str e.1

/-- The visible rows of a day that may be bounded below, without their marks. -/
def asofRows (dsStart : Option String) (day : String) (rows : List Row) : List Row :=
  (rows.filter (asof dsStart (some day))).map Row.unmarked

/-- The live rows of a replay, restricted to puts from a day on. -/
def liveRows (dsStart : Option String) (rows : List Row) : List Row :=
  rows.filter (asof dsStart none)

section OneRow

variable {env : Env} {spec : TableSpec} {events : List (String × Members)} {day : String}

theorem lineRow_ds {ds : String} {m : Members} {base : Row} (hp : Partitioned events)
    (hm : (ds, m) ∈ events) (ht : isTombstone m = false) (hb : env.lineRow spec m = .ok base) :
    base.ds = some ds := by
  obtain ⟨cells, key, d, c, -, -, hd, -, rfl⟩ := stored_ok_iff.mp hb
  rw [hp _ hm ht] at hd
  exact (Option.some.inj ((env.bindText_str ds).symm.trans hd)).symm

theorem asof_some_iff {dsStart : Option String} {r : Row} : asof dsStart (some day) r = true
    ↔ (∃ ds, r.ds = some ds ∧ ds ≤ day ∧ ∀ s, dsStart = some s → s ≤ ds)
      ∧ (r.deletedDs = none ∨ ∃ d, r.deletedDs = some d ∧ day < d) := by
  cases dsStart <;> cases hd : r.ds <;> cases hx : r.deletedDs <;> simp [asof, hd, hx, and_comm, and_assoc]

theorem asof_none_iff {dsStart : Option String} {r : Row} : asof dsStart none r = true
    ↔ r.deletedDs = none ∧ ∀ s, dsStart = some s → ∃ ds, r.ds = some ds ∧ s ≤ ds := by
  cases dsStart <;> cases hd : r.ds <;> cases hx : r.deletedDs <;> simp [asof, hd, hx]

/-- A live row of the log up to a day is a put line of it whose key has no tombstone in it. -/
theorem stands_upTo_live {r : Row} (h : Stands env spec (events.filter (·.1 ≤ day)) r)
    (hlive : r.deletedDs = none) : ∃ ds m, (ds, m) ∈ events ∧ ds ≤ day ∧ isTombstone m = false
      ∧ env.lineRow spec m = .ok r
      ∧ ∀ d ∈ delsOf env.repr events, r.key.text = some d.key → day < d.ds := by
  cases h with
  | live hm hb hnone =>
    obtain ⟨ds, hds, hle, ht⟩ := mem_putsOf_upTo.mp hm
    refine ⟨ds, _, hds, hle, ht, hb, fun d hd hk => ?_⟩
    by_contra hlt
    exact hnone d (mem_delsOf_upTo.mpr ⟨hd, not_lt.mp hlt⟩) hk
  | deleted => cases hlive

/-- The predicate on a row of the table, and liveness in the history up to the day. -/
theorem mem_asofRows {rows : List Row} (h : Agrees env spec events rows) (hp : Partitioned events)
    (dsStart : Option String) (day : String) {r : Row} : r ∈ asofRows dsStart day rows
      ↔ r ∈ liveRows dsStart (replayRows env spec (events.filter (·.1 ≤ day))) := by
  have hread := h.log.toReadable.sublist (List.filter_sublist (p := (·.1 ≤ day)))
  rw [asofRows, List.mem_map, liveRows, List.mem_filter, mem_replayRows hread]
  constructor
  · rintro ⟨row, hrow, rfl⟩
    obtain ⟨hrow, hasof⟩ := List.mem_filter.mp hrow
    obtain ⟨⟨ds, hds, hle, hstart⟩, hdel⟩ := asof_some_iff.mp hasof
    cases (h.rows row).mp hrow with
    | @live m base hm hb hnone =>
      obtain ⟨hlive, hat, hsearch⟩ := lineRow_live hb
      have hself : row.unmarked = row := by
        cases row; simp_all [Row.unmarked]
      obtain ⟨ds', hmem, ht⟩ := mem_putsOf.mp hm
      have heq : ds' = ds := Option.some.inj ((lineRow_ds hp hmem ht hb).symm.trans hds)
      rw [hself]
      refine ⟨.live (mem_putsOf_upTo.mpr ⟨ds', hmem, heq ▸ hle, ht⟩) hb fun d hd => ?_,
        asof_none_iff.mpr ⟨hlive, fun s hs => ⟨ds, hds, hstart s hs⟩⟩⟩
      exact hnone d (mem_delsOf_upTo.mp hd).1
    | @deleted m base d x hm hb hd hk hx =>
      obtain ⟨hlive, hat, hsearch⟩ := lineRow_live hb
      have hself : (base.withMark d.ds x).unmarked = base := by
        cases base; simp_all [Row.unmarked, Row.withMark]
      obtain ⟨ds', hmem, ht⟩ := mem_putsOf.mp hm
      have heq : ds' = ds := Option.some.inj ((lineRow_ds hp hmem ht hb).symm.trans hds)
      have hlater : day < d.ds := by
        rcases hdel with hnone | ⟨d', hd', hlt⟩
        · cases hnone
        · exact Option.some.inj hd' ▸ hlt
      rw [hself]
      refine ⟨.live (mem_putsOf_upTo.mpr ⟨ds', hmem, heq ▸ hle, ht⟩) hb fun e he hke => ?_,
        asof_none_iff.mpr ⟨hlive, fun s hs => ⟨ds, hds, hstart s hs⟩⟩⟩
      -- the key has one tombstone, and it lies after the day
      obtain ⟨he, hle'⟩ := mem_delsOf_upTo.mp he
      have hsame : e = d := List.inj_on_of_nodup_map h.log.delsNodup he hd
        (Option.some.inj (hke.symm.trans hk))
      exact absurd (hsame ▸ hle') (not_le.mpr hlater)
  · rintro ⟨hs, hasof⟩
    obtain ⟨hlive, hstart⟩ := asof_none_iff.mp hasof
    obtain ⟨ds, m, hmem, hle, ht, hb, hlater⟩ := stands_upTo_live hs hlive
    have hds := lineRow_ds hp hmem ht hb
    have hin : ∃ ds, r.ds = some ds ∧ ds ≤ day ∧ ∀ s, dsStart = some s → s ≤ ds := by
      refine ⟨ds, hds, hle, fun s hs => ?_⟩
      obtain ⟨ds', hds', hle'⟩ := hstart s hs
      rw [hds] at hds'
      exact Option.some.inj hds' ▸ hle'
    have hput : m ∈ putsOf events := mem_putsOf.mpr ⟨ds, hmem, ht⟩
    obtain ⟨-, hat, hsearch⟩ := lineRow_live hb
    by_cases hex : ∃ d ∈ delsOf env.repr events, r.key.text = some d.key
    · obtain ⟨d, hd, hk⟩ := hex
      obtain ⟨x, hx⟩ := h.log.delsBind d hd
      refine ⟨r.withMark d.ds x, List.mem_filter.mpr
        ⟨(h.rows _).mpr (.deleted hput hb hd hk hx),
          asof_some_iff.mpr ⟨hin, Or.inr ⟨d.ds, rfl, hlater d hd hk⟩⟩⟩, ?_⟩
      cases r; simp_all [Row.unmarked, Row.withMark]
    · refine ⟨r, List.mem_filter.mpr ⟨(h.rows _).mpr (.live hput hb fun d hd hk => hex ⟨d, hd, hk⟩),
        asof_some_iff.mpr ⟨hin, Or.inl hlive⟩⟩, ?_⟩
      cases r; simp_all [Row.unmarked]

end OneRow

/-! ## Histories -/

section History

variable {env : Env} {schema : Schema}

/-- A table's view, in terms of its rows without search columns. -/
theorem visible_eq (dsStart dsEnd : Option String) (db : Db) (name : String) :
    visible dsStart dsEnd (db.tables name) = (db.shown name).filter (asof dsStart dsEnd) := by
  rw [visible, Db.shown, List.filter_map]
  rfl

theorem opStep_files {op : Stamp × Op} {db db' : Db} (h : opStep env schema db op = some db') :
    ∃ ls, db'.files = db.files ++ ls ∧ ∀ l ∈ ls, l.ds = op.1.ds
      ∧ (isTombstone l.members = false → l.members.get "ds" = .str l.ds) := by
  rcases opStep_cases h with rfl | ⟨spec, -, rs, emb, hrun⟩ | ⟨spec, -, ks, hrun, -⟩
  · exact ⟨[], by simp, by simp⟩
  · refine ⟨_, insert_files hrun, fun l hl => ?_⟩
    obtain ⟨m, hm, rfl⟩ := List.mem_map.mp hl
    obtain ⟨r, -, hr⟩ := mem_putMembers hm
    exact ⟨rfl, fun _ => put_ds hr⟩
  · obtain ⟨hfiles, -⟩ := delete_complete hrun
    refine ⟨_, hfiles, fun l hl => ?_⟩
    obtain ⟨m, hm, rfl⟩ := List.mem_map.mp hl
    obtain ⟨k, -, hk⟩ := List.mem_filterMap.mp hm
    exact ⟨rfl, fun ht => absurd (tombstone_isTombstone hk) (by simp [ht])⟩

/-- Every put line of the mirror carries its own partition. -/
def LinesPartitioned (files : Files) : Prop :=
  ∀ l ∈ files, isTombstone l.members = false → l.members.get "ds" = .str l.ds

theorem LinesPartitioned.events {files : Files} (h : LinesPartitioned files) (table : String) :
    Partitioned (tableEvents files table) := fun _ he ht => h _ (mem_tableEvents.mp he) ht

theorem history_partitioned {ops : List (Stamp × Op)} {db db' : Db} (h : LinesPartitioned db.files)
    (hrun : run (opStep env schema) db ops = some db') : LinesPartitioned db'.files := by
  refine run_invariant (I := fun db => LinesPartitioned db.files) ?_ h hrun
  intro s op t hs hstep
  obtain ⟨ls, hfiles, hls⟩ := opStep_files hstep
  intro l hl
  rw [hfiles] at hl
  exact (List.mem_append.mp hl).elim (hs l) fun hl => (hls l hl).2

/-- Operations stamped after a day leave the partitions up to it alone. -/
theorem history_upTo {ops : List (Stamp × Op)} {db db' : Db} {day : String}
    (hlater : ∀ op ∈ ops, day < op.1.ds) (hrun : run (opStep env schema) db ops = some db') :
    upTo day db'.files = upTo day db.files := by
  induction ops generalizing db with
  | nil => rw [Option.some.inj hrun]
  | cons op ops ih =>
    obtain ⟨mid, hstep, hrun⟩ := run_cons_iff.mp hrun
    obtain ⟨ls, hfiles, hls⟩ := opStep_files hstep
    have hnone : upTo day ls = [] := List.filter_eq_nil_iff.mpr fun l hl => by
      rw [(hls l hl).1, decide_eq_true_eq]
      exact not_le.mpr (hlater op (by simp))
    rw [ih (fun o ho => hlater o (by simp [ho])) hrun, hfiles, upTo, List.filter_append]
    rw [upTo] at hnone
    rw [hnone, List.append_nil, upTo]

/-- The rows a day's view selects, without their marks. -/
def asofView (db : Db) (name : String) (dsStart : Option String) (day : String) : List Row :=
  (visible dsStart (some day) (db.tables name)).map Row.unmarked

theorem asofView_perm {db : Db} {spec : TableSpec}
    (h : Agrees env spec (tableEvents db.files spec.name) (db.shown spec.name))
    (hp : LinesPartitioned db.files) (dsStart : Option String) (day : String) :
    (asofView db spec.name dsStart day).Perm
      (liveRows dsStart (replayRows env spec (iterEvents (upTo day db.files) spec.name))) := by
  have hperm := iterEvents_perm_tableEvents (upTo day db.files) spec.name
  rw [tableEvents_upTo] at hperm
  have hcut := h.log.toReadable.sublist (List.filter_sublist (p := (·.1 ≤ day)))
  have hread := hcut.perm hperm.symm
  have hnd : (asofView db spec.name dsStart day).Nodup := by
    refine List.Nodup.of_map Row.key ?_
    rw [asofView, visible_eq, List.map_map]
    exact (shown_nodup db spec.name).sublist (List.filter_sublist.map _)
  have hnd' : (liveRows dsStart
      (replayRows env spec (iterEvents (upTo day db.files) spec.name))).Nodup := by
    refine List.Nodup.filter _ (List.Nodup.of_map Row.key ?_)
    rw [replayRows_keys hread.good]
    exact hread.good.keysNodup
  refine (List.perm_ext_iff_of_nodup hnd hnd').mpr fun r => ?_
  have hrow := mem_asofRows h (hp.events spec.name) dsStart day (r := r)
  rw [asofView, visible_eq]
  refine hrow.trans ?_
  rw [liveRows, liveRows, List.mem_filter, List.mem_filter, mem_replayRows hcut,
    mem_replayRows hread]
  exact and_congr_left fun _ => ⟨fun hs => hs.perm hperm.symm, fun hs => hs.perm hperm⟩

end History

end Seekbase
