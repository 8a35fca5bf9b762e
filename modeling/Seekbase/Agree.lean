/-
# Seekbase.Agree — when a table agrees with its log, said row by row.

`replayRows` is a list and depends on the order in which events are read.  In a log where no key is
put twice and no key has two tombstones (`LogOk`) the order does not matter, and being a row of the
replay is a property of the row alone:

    Stands row  :=  row is the row of a put line, with the mark of the tombstone for its key,
                    or without a mark if there is none.

`Agrees` says that the rows of a table are exactly those that stand.  It is what the write path keeps
step by step, and `Agrees.perm` turns it back into an equation with `replayRows`.
-/
import Seekbase.Replay

namespace Seekbase

open JsonText

/-- The events of a table in append order. -/
def tableEvents (files : Files) (table : String) : List (String × Members) :=
  (files.filter (·.table = table)).map fun l => (l.ds, l.members)

theorem tableEvents_append (a b : Files) (table : String) :
    tableEvents (a ++ b) table = tableEvents a table ++ tableEvents b table := by
  simp [tableEvents]

theorem mem_tableEvents {files : Files} {table : String} {e : String × Members} :
    e ∈ tableEvents files table ↔ ⟨e.1, table, e.2⟩ ∈ files := by
  simp only [tableEvents, List.mem_map, List.mem_filter, decide_eq_true_eq]
  constructor
  · rintro ⟨l, ⟨hl, rfl⟩, rfl⟩; exact hl
  · intro h; exact ⟨_, ⟨h, rfl⟩, rfl⟩

section Events

variable {repr : Json → String} {a b : List (String × Members)}

theorem putsOf_append (a b : List (String × Members)) : putsOf (a ++ b) = putsOf a ++ putsOf b := by
  simp [putsOf]

theorem delsOf_append (repr : Json → String) (a b : List (String × Members)) :
    delsOf repr (a ++ b) = delsOf repr a ++ delsOf repr b := by
  simp [delsOf]

theorem putsOf_perm (h : a.Perm b) : (putsOf a).Perm (putsOf b) :=
  (h.filter _).map _

theorem delsOf_perm (h : a.Perm b) : (delsOf repr a).Perm (delsOf repr b) :=
  (h.filter _).map _

theorem mem_putsOf {m : Members} : m ∈ putsOf a ↔ ∃ ds, (ds, m) ∈ a ∧ isTombstone m = false := by
  simp [putsOf]

theorem mem_delsOf {d : Del} : d ∈ delsOf repr a ↔ ∃ m, (d.ds, m) ∈ a ∧ isTombstone m = true
    ∧ d = ⟨(Val.json (m.get "_deleted")).str repr, d.ds, m.get "deleted_at"⟩ := by
  simp only [delsOf, List.mem_map, List.mem_filter]
  constructor
  · rintro ⟨⟨ds, m⟩, ⟨hm, ht⟩, rfl⟩; exact ⟨m, hm, ht, rfl⟩
  · rintro ⟨m, hm, ht, hd⟩; exact ⟨(d.ds, m), ⟨hm, ht⟩, hd.symm⟩

end Events

/-! ## Logs without repeated keys -/

section Log

variable (env : Env) (spec : TableSpec)

/-- Events that can be read in any order. -/
structure Readable (events : List (String × Members)) : Prop where
  good : GoodPuts env spec (putsOf events)
  delsBind : ∀ d ∈ delsOf env.repr events, ∃ x, env.bindText (.json d.deletedAt) = some x
  delsNodup : ((delsOf env.repr events).map Del.key).Nodup

/-- A log in which, besides, every tombstone is for a key that was put. -/
structure LogOk (events : List (String × Members)) : Prop extends Readable env spec events where
  delsPut : ∀ d ∈ delsOf env.repr events,
    ∃ m ∈ putsOf events, (env.lineKey spec m).text = some d.key

/-- A row with the mark of a tombstone. -/
def Row.withMark (r : Row) (ds : String) (deletedAt : Option String) : Row :=
  { r with deletedDs := some ds, deletedAt := deletedAt }

/-- A row as it was before any tombstone. -/
def Row.unmarked (r : Row) : Row := { r with deletedDs := none, deletedAt := none }

/-- A row the events stand for. -/
inductive Stands (events : List (String × Members)) : Row → Prop
  | live {m : Members} {base : Row} (hm : m ∈ putsOf events) (hb : env.lineRow spec m = .ok base)
      (hnone : ∀ d ∈ delsOf env.repr events, base.key.text ≠ some d.key) : Stands events base
  | deleted {m : Members} {base : Row} {d : Del} {x : Option String} (hm : m ∈ putsOf events)
      (hb : env.lineRow spec m = .ok base) (hd : d ∈ delsOf env.repr events)
      (hk : base.key.text = some d.key) (hx : env.bindText (.json d.deletedAt) = some x) :
      Stands events (base.withMark d.ds x)

/-- Rows are exactly the rows the events stand for. -/
structure Agrees (events : List (String × Members)) (rows : List Row) : Prop where
  log : LogOk env spec events
  rows : ∀ r, r ∈ rows ↔ Stands env spec events r

end Log

section Facts

variable {env : Env} {spec : TableSpec} {a b events : List (String × Members)}

theorem GoodPuts.perm {ms ns : List Members} (h : GoodPuts env spec ms) (hp : ms.Perm ns) :
    GoodPuts env spec ns where
  stores m hm := h.stores m (hp.mem_iff.mpr hm)
  created m hm := h.created m (hp.mem_iff.mpr hm)
  keysNodup := (hp.map _).nodup_iff.mp h.keysNodup

theorem Readable.perm (h : Readable env spec a) (hp : a.Perm b) : Readable env spec b where
  good := h.good.perm (putsOf_perm hp)
  delsBind d hd := h.delsBind d ((delsOf_perm hp).mem_iff.mpr hd)
  delsNodup := ((delsOf_perm hp).map _).nodup_iff.mp h.delsNodup

theorem Stands.perm {r : Row} (h : Stands env spec a r) (hp : a.Perm b) : Stands env spec b r := by
  cases h with
  | live hm hb hnone =>
    exact .live ((putsOf_perm hp).mem_iff.mp hm) hb fun d hd =>
      hnone d ((delsOf_perm hp).mem_iff.mpr hd)
  | deleted hm hb hd hk hx =>
    exact .deleted ((putsOf_perm hp).mem_iff.mp hm) hb ((delsOf_perm hp).mem_iff.mp hd) hk hx

theorem Stands.keyCell {r : Row} (h : Stands env spec a r) : KeyCell spec r.key := by
  cases h with
  | live _ hb _ => exact stored_keyCell hb
  | @deleted _ base _ _ _ hb _ _ _ =>
    show KeyCell spec base.key
    exact stored_keyCell hb

theorem iterEvents_perm_tableEvents (files : Files) (table : String) :
    (iterEvents files table).Perm (tableEvents files table) := iterEvents_perm files table

theorem LogOk.iterEvents {files : Files} (h : LogOk env spec (tableEvents files spec.name)) :
    Readable env spec (iterEvents files spec.name) :=
  h.toReadable.perm (iterEvents_perm_tableEvents files spec.name).symm

theorem LogOk.replayable {files : Files} (h : LogOk env spec (tableEvents files spec.name)) :
    Replayable env spec files := ⟨h.iterEvents.good, h.iterEvents.delsBind⟩

/-! ## The mark of a row -/

theorem applyDel_of_ne {r : Row} {d : Del} (h : r.key.text ≠ some d.key) :
    applyDel env r d = r := by
  unfold applyDel
  split
  · rw [mark, if_neg]
    simp [h]
  · rfl

theorem applyDels_of_ne {dels : List Del} {r : Row} (h : ∀ d ∈ dels, r.key.text ≠ some d.key) :
    applyDels env dels r = r := by
  induction dels with
  | nil => rfl
  | cons d dels ih =>
    rw [applyDels, List.foldl_cons, applyDel_of_ne (h d (by simp))]
    exact ih fun e he => h e (by simp [he])

/-- Among tombstones with distinct keys the one of the row's key marks it. -/
theorem applyDels_of_mem {dels : List Del} {r : Row} {d : Del} {x : Option String}
    (hnd : (dels.map Del.key).Nodup) (hd : d ∈ dels) (hk : r.key.text = some d.key)
    (hx : env.bindText (.json d.deletedAt) = some x) (hlive : r.deletedDs = none) :
    applyDels env dels r = r.withMark d.ds x := by
  induction dels with
  | nil => cases hd
  | cons e dels ih =>
    obtain ⟨he, hnd⟩ := List.nodup_cons.mp hnd
    rw [applyDels, List.foldl_cons]
    rcases List.mem_cons.mp hd with rfl | hd
    · have hone : applyDel env r d = r.withMark d.ds x := by
        simp [applyDel, hx, mark, hk, hlive, Row.withMark]
      rw [hone]
      refine applyDels_of_ne fun e' he' => ?_
      show r.key.text ≠ some e'.key
      rw [hk]
      rintro heq
      exact he (Option.some.inj heq ▸ List.mem_map_of_mem he')
    · have hne : r.key.text ≠ some e.key := by
        rw [hk]
        rintro heq
        exact he (Option.some.inj heq ▸ List.mem_map_of_mem hd)
      rw [applyDel_of_ne hne]
      exact ih hnd hd

theorem lineRow_live {m : Members} {base : Row} (h : env.lineRow spec m = .ok base) :
    base.deletedDs = none ∧ base.deletedAt = none ∧ base.search = [] := stored_live h

theorem mem_replayRows (h : Readable env spec events) {r : Row} :
    r ∈ replayRows env spec events ↔ Stands env spec events r := by
  rw [replayRows, List.mem_map]
  constructor
  · rintro ⟨base, hbase, rfl⟩
    obtain ⟨m, hm, hb⟩ := mem_lineRows.mp hbase
    by_cases hex : ∃ d ∈ delsOf env.repr events, base.key.text = some d.key
    · obtain ⟨d, hd, hk⟩ := hex
      obtain ⟨x, hx⟩ := h.delsBind d hd
      rw [applyDels_of_mem h.delsNodup hd hk hx (lineRow_live hb).1]
      exact .deleted hm hb hd hk hx
    · have hnone : ∀ d ∈ delsOf env.repr events, base.key.text ≠ some d.key :=
        fun d hd hk => hex ⟨d, hd, hk⟩
      rw [applyDels_of_ne hnone]
      exact .live hm hb hnone
  · intro hs
    cases hs with
    | live hm hb hnone => exact ⟨_, mem_lineRows.mpr ⟨_, hm, hb⟩, applyDels_of_ne hnone⟩
    | deleted hm hb hd hk hx =>
      exact ⟨_, mem_lineRows.mpr ⟨_, hm, hb⟩,
        applyDels_of_mem h.delsNodup hd hk hx (lineRow_live hb).1⟩

theorem replayRows_keys (h : GoodPuts env spec (putsOf events)) :
    (replayRows env spec events).map Row.key = (putsOf events).map (env.lineKey spec) := by
  rw [replayRows, List.map_map, ← lineRows_keys h.rows]
  exact List.map_congr_left fun r _ => applyDels_key env _ r

/-- A table that agrees with its log has the rows of the replay, in some order. -/
theorem Agrees.perm {db : Db}
    (h : Agrees env spec (tableEvents db.files spec.name) (db.shown spec.name)) :
    (db.shown spec.name).Perm (replayRows env spec (iterEvents db.files spec.name)) := by
  have hp := iterEvents_perm_tableEvents db.files spec.name
  have hlog := h.log.iterEvents
  have hnd : (replayRows env spec (iterEvents db.files spec.name)).Nodup :=
    List.Nodup.of_map Row.key ((replayRows_keys hlog.good).symm ▸ hlog.good.keysNodup)
  refine (List.perm_ext_iff_of_nodup (List.Nodup.of_map Row.key (shown_nodup db spec.name)) hnd).mpr
    fun r => ?_
  rw [h.rows, mem_replayRows hlog]
  exact ⟨fun hs => hs.perm hp.symm, fun hs => hs.perm hp⟩

theorem agrees_nil : Agrees env spec [] [] where
  log := ⟨⟨⟨by simp [putsOf], by simp [putsOf], by simp [putsOf]⟩, by simp [delsOf],
    by simp [delsOf]⟩, by simp [delsOf]⟩
  rows r := by
    refine ⟨fun h => absurd h (by simp), fun h => ?_⟩
    cases h with
    | live hm | deleted hm => simp [putsOf] at hm

/-- Every put line's key is a key of the rows. -/
theorem Agrees.mem_key {rows : List Row} (h : Agrees env spec events rows) {m : Members}
    (hm : m ∈ putsOf events) : env.lineKey spec m ∈ rows.map Row.key := by
  obtain ⟨base, hb, -⟩ := h.log.good.stores m hm
  by_cases hex : ∃ d ∈ delsOf env.repr events, base.key.text = some d.key
  · obtain ⟨d, hd, hk⟩ := hex
    obtain ⟨x, hx⟩ := h.log.delsBind d hd
    refine List.mem_map.mpr ⟨_, (h.rows _).mpr (.deleted hm hb hd hk hx), ?_⟩
    show base.key = _
    exact lineRow_key hb
  · exact List.mem_map.mpr ⟨base, (h.rows _).mpr (.live hm hb fun d hd hk => hex ⟨d, hd, hk⟩),
      lineRow_key hb⟩

theorem lineKey_keyCell {m : Members} (h : ∃ row, env.lineRow spec m = .ok row ∧ row.key ≠ .null) :
    KeyCell spec (env.lineKey spec m) ∧ env.lineKey spec m ≠ .null := by
  obtain ⟨row, hrow, h0⟩ := h
  rw [← lineRow_key hrow]
  exact ⟨stored_keyCell hrow, h0⟩

/-! ## Writes keep the agreement -/

/-- Put lines under new keys, and their rows. -/
theorem agrees_puts {rows : List Row} {ds : String} {ms : List Members}
    (h : Agrees env spec events rows) (hput : ∀ m ∈ ms, isTombstone m = false)
    (hcreated : ∀ m ∈ ms, truthy (m.get "created_at") = true)
    (hstores : ∀ m ∈ ms, ∃ row, env.lineRow spec m = .ok row ∧ row.key ≠ .null)
    (hnd : ((rows ++ lineRows env spec ms).map Row.key).Nodup) :
    Agrees env spec (events ++ ms.map fun m => (ds, m)) (rows ++ lineRows env spec ms) := by
  have hputs : putsOf (events ++ ms.map fun m => (ds, m)) = putsOf events ++ ms := by
    rw [putsOf_append, putsOf, putsOf, List.filter_map, List.map_map]
    have hall : ms.filter ((fun e => !isTombstone e.2) ∘ fun m => (ds, m)) = ms :=
      List.filter_eq_self.mpr fun m hm => by simp [hput m hm]
    rw [hall]
    simp [Function.comp_def]
  have hdels : delsOf env.repr (events ++ ms.map fun m => (ds, m)) = delsOf env.repr events := by
    have hnone : (ms.map fun m => (ds, m)).filter (fun e => isTombstone e.2) = [] :=
      List.filter_eq_nil_iff.mpr fun e he => by
        obtain ⟨m, hm, rfl⟩ := List.mem_map.mp he
        simp [hput m hm]
    rw [delsOf_append, delsOf, delsOf, hnone]
    simp
  rw [List.map_append, lineRows_keys fun m hm => (hstores m hm).imp fun _ h => h.1] at hnd
  obtain ⟨-, hndms, hdisj⟩ := List.nodup_append'.mp hnd
  -- a tombstone is for a key put before, so none is for a new key
  have hfree : ∀ m ∈ ms, ∀ base, env.lineRow spec m = .ok base →
      ∀ d ∈ delsOf env.repr events, base.key.text ≠ some d.key := by
    intro m hm base hb d hd hk
    obtain ⟨m', hm', hk'⟩ := h.log.delsPut d hd
    obtain ⟨hc, h0⟩ := lineKey_keyCell (hstores m hm)
    obtain ⟨hc', h0'⟩ := lineKey_keyCell (h.log.good.stores m' hm')
    rw [lineRow_key hb, ← hk'] at hk
    have heq := hc.text_inj hc' h0 h0' hk
    exact hdisj (h.mem_key hm') (heq ▸ List.mem_map_of_mem hm)
  constructor
  · refine ⟨⟨?_, ?_, ?_⟩, ?_⟩
    · rw [hputs]
      refine ⟨fun m hm => ?_, fun m hm => ?_, ?_⟩
      · exact (List.mem_append.mp hm).elim (h.log.good.stores m) (hstores m)
      · exact (List.mem_append.mp hm).elim (h.log.good.created m) (hcreated m)
      · rw [List.map_append]
        refine List.nodup_append'.mpr ⟨h.log.good.keysNodup, hndms, fun k hk hk' => ?_⟩
        obtain ⟨m, hm, rfl⟩ := List.mem_map.mp hk
        exact hdisj (h.mem_key hm) hk'
    · rw [hdels]; exact h.log.delsBind
    · rw [hdels]; exact h.log.delsNodup
    · rw [hdels, hputs]
      intro d hd
      obtain ⟨m, hm, hk⟩ := h.log.delsPut d hd
      exact ⟨m, List.mem_append_left _ hm, hk⟩
  · intro r
    rw [List.mem_append, h.rows, mem_lineRows]
    constructor
    · rintro (hr | ⟨m, hm, hb⟩)
      · cases hr with
        | live hm hb hnone =>
          exact .live (hputs ▸ List.mem_append_left _ hm) hb (hdels ▸ hnone)
        | deleted hm hb hd hk hx =>
          exact .deleted (hputs ▸ List.mem_append_left _ hm) hb (hdels ▸ hd) hk hx
      · exact .live (hputs ▸ List.mem_append_right _ hm) hb (hdels ▸ hfree m hm r hb)
    · intro hr
      cases hr with
      | live hm hb hnone =>
        rw [hputs] at hm
        rw [hdels] at hnone
        rcases List.mem_append.mp hm with hm | hm
        · exact Or.inl (.live hm hb hnone)
        · exact Or.inr ⟨_, hm, hb⟩
      | deleted hm hb hd hk hx =>
        rw [hputs] at hm
        rw [hdels] at hd
        rcases List.mem_append.mp hm with hm | hm
        · exact Or.inl (.deleted hm hb hd hk hx)
        · exact absurd hk (hfree _ hm _ hb _ hd)

/-- Tombstones for live rows, one for each, and the marks. -/
theorem agrees_dels {rows : List Row} (more : List (String × Members)) (ds : String)
    (x : Option String) (h : Agrees env spec events rows) (hputs : putsOf more = [])
    (hds : ∀ d ∈ delsOf env.repr more, d.ds = ds ∧ env.bindText (.json d.deletedAt) = some x)
    (hnd : ((delsOf env.repr more).map Del.key).Nodup)
    (hlive : ∀ d ∈ delsOf env.repr more, ∃ r ∈ rows, r.deletedDs = none ∧ r.key.text = some d.key) :
    Agrees env spec (events ++ more) (rows.map (mark ((delsOf env.repr more).map Del.key) ds x)) := by
  have hputs' : putsOf (events ++ more) = putsOf events := by
    rw [putsOf_append, hputs, List.append_nil]
  have hdels := delsOf_append env.repr events more
  -- a row that is live has no tombstone yet
  have hfree : ∀ r ∈ rows, r.deletedDs = none →
      ∃ m ∈ putsOf events, env.lineRow spec m = .ok r
        ∧ ∀ d ∈ delsOf env.repr events, r.key.text ≠ some d.key := by
    intro r hr h0
    cases (h.rows r).mp hr with
    | live hm hb hnone => exact ⟨_, hm, hb, hnone⟩
    | deleted => cases h0
  have hndall : ((delsOf env.repr (events ++ more)).map Del.key).Nodup := by
    rw [hdels, List.map_append]
    refine List.nodup_append'.mpr ⟨h.log.delsNodup, hnd, fun k hk hk' => ?_⟩
    obtain ⟨d, hd, rfl⟩ := List.mem_map.mp hk
    obtain ⟨d', hd', heq⟩ := List.mem_map.mp hk'
    obtain ⟨r, hr, h0, hkey⟩ := hlive d' hd'
    obtain ⟨m, -, -, hnone⟩ := hfree r hr h0
    exact hnone d hd (by rw [hkey, heq])
  have hmark : ∀ r : Row, (∀ d ∈ delsOf env.repr more, r.key.text ≠ some d.key) →
      mark ((delsOf env.repr more).map Del.key) ds x r = r := by
    intro r hr
    rw [mark, if_neg]
    rintro ⟨hin, -⟩
    obtain ⟨k, hk, heq⟩ := List.mem_map.mp hin
    obtain ⟨d, hd, rfl⟩ := List.mem_map.mp hk
    exact hr d hd heq.symm
  have hmarked : ∀ (r : Row) (d : Del), d ∈ delsOf env.repr more → r.key.text = some d.key →
      r.deletedDs = none → mark ((delsOf env.repr more).map Del.key) ds x r = r.withMark d.ds x := by
    intro r d hd hk h0
    rw [mark, if_pos ⟨List.mem_map.mpr ⟨d.key, List.mem_map_of_mem hd, hk.symm⟩, h0⟩, (hds d hd).1]
    rfl
  constructor
  · refine ⟨⟨?_, ?_, ?_⟩, ?_⟩
    · rw [hputs']; exact h.log.good
    · intro d hd
      rw [hdels] at hd
      exact (List.mem_append.mp hd).elim (h.log.delsBind d) fun hd => ⟨x, (hds d hd).2⟩
    · exact hndall
    · rw [hputs']
      intro d hd
      rw [hdels] at hd
      rcases List.mem_append.mp hd with hd | hd
      · exact h.log.delsPut d hd
      · obtain ⟨r, hr, h0, hk⟩ := hlive d hd
        obtain ⟨m, hm, hb, -⟩ := hfree r hr h0
        exact ⟨m, hm, by rw [← lineRow_key hb]; exact hk⟩
  · intro r
    rw [List.mem_map]
    constructor
    · rintro ⟨base, hbase, rfl⟩
      cases (h.rows base).mp hbase with
      | live hm hb hnone =>
        by_cases hex : ∃ d ∈ delsOf env.repr more, base.key.text = some d.key
        · obtain ⟨d, hd, hk⟩ := hex
          rw [hmarked base d hd hk (lineRow_live hb).1]
          exact .deleted (hputs' ▸ hm) hb (hdels ▸ List.mem_append_right _ hd) hk (hds d hd).2
        · have hnone' : ∀ d ∈ delsOf env.repr more, base.key.text ≠ some d.key :=
            fun d hd hk => hex ⟨d, hd, hk⟩
          rw [hmark base hnone']
          refine .live (hputs' ▸ hm) hb fun d hd => ?_
          rw [hdels] at hd
          exact (List.mem_append.mp hd).elim (hnone d) (hnone' d)
      | @deleted m base d y hm hb hd hk hx =>
        rw [mark, if_neg (by simp [Row.withMark])]
        exact .deleted (hputs' ▸ hm) hb (hdels ▸ List.mem_append_left _ hd) hk hx
    · intro hr
      cases hr with
      | live hm hb hnone =>
        rw [hputs'] at hm
        rw [hdels] at hnone
        refine ⟨r, (h.rows r).mpr (.live hm hb fun d hd => hnone d (List.mem_append_left _ hd)),
          hmark r fun d hd => hnone d (List.mem_append_right _ hd)⟩
      | @deleted m base d y hm hb hd hk hx =>
        rw [hputs'] at hm
        have hd' := hd
        rw [hdels] at hd'
        rcases List.mem_append.mp hd' with hd' | hd'
        · exact ⟨_, (h.rows _).mpr (.deleted hm hb hd' hk hx),
            by rw [mark, if_neg (by simp [Row.withMark])]⟩
        · have hlive0 := (lineRow_live hb).1
          refine ⟨base, (h.rows base).mpr (.live hm hb fun e he hke => ?_), ?_⟩
          · -- the same key would have two tombstones
            have heq : e.key = d.key := Option.some.inj (hke.symm.trans hk)
            rw [hdels, List.map_append] at hndall
            exact (List.nodup_append'.mp hndall).2.2 (List.mem_map_of_mem he)
              (heq ▸ List.mem_map_of_mem hd')
          · have hxy : y = x := Option.some.inj (hx.symm.trans (hds d hd').2)
            rw [hmarked base d hd' hk hlive0, hxy]

end Facts

end Seekbase
