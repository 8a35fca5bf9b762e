/-
# Seekbase.Fidelity — the online path and the offline replay agree, over whole histories.

A history is a sequence of operations on any days, each of which is rejected on its first read or
completes; `opStep` is one of them.  Every operation keeps every table in agreement with its log
(`opStep_agrees`): an insert appends put lines under new keys and INSERTs their rows, a delete
appends one tombstone for each live row it selected and marks exactly these.  So after any history
the rows are those of the replay, and rebuild, which computes the replay, gives them back.

The reordering of `_replay` (all puts of a table, then all tombstones) is harmless because a key is
put once and deleted at most once.
-/
import Seekbase.Agree
import Seekbase.Lib.Run

namespace Seekbase

open JsonText Transition

/-! ## What a completed operation did -/

section Complete

variable {env : Env} {db db' : Db}

theorem mem_execAll {acts : List Act} (h : execAll env acts db = (db', none)) {a : Act}
    (ha : a ∈ acts) : ∃ mid mid', exec env a mid = .ok mid' := by
  induction acts generalizing db with
  | nil => cases ha
  | cons b acts ih =>
    obtain ⟨mid, hb, h⟩ := execAll_cons_none.mp h
    rcases List.mem_cons.mp ha with rfl | ha
    · exact ⟨db, mid, hb⟩
    · exact ih h ha

/-- The lines a batch of puts appends. -/
def putMembers (spec : TableSpec) (rs : List Record) (st : Stamp) : List Members :=
  rs.filterMap fun r => (putLine spec r st.ds st.ts).toMembers?

theorem putActs_lines (spec : TableSpec) (rs : List Record) (st : Stamp) :
    (putActs spec rs st).flatMap Act.lines
      = (putMembers spec rs st).map fun m => ⟨st.ds, spec.name, m⟩ := by
  induction rs with
  | nil => rfl
  | cons r rs ih =>
    rw [putActs, List.map_cons, List.flatMap_cons]
    rw [putActs] at ih
    rw [ih, putMembers, putMembers]
    cases hm : (putLine spec r st.ds st.ts).toMembers? <;> simp [Act.lines, hm]

theorem rowActs_insert (spec : TableSpec) (rs : List Record) (emb : List (String × List Search))
    (st : Stamp) : ∀ a ∈ rowActs spec rs emb st, a.InsertsInto spec := by
  intro a ha
  obtain ⟨i, hi, rfl⟩ := List.mem_mapIdx.mp ha
  exact ⟨_, _, _, _, rfl⟩

theorem indexActs_mem {spec : TableSpec} {rs : List Record} {emb : List (String × List Search)}
    {a : Act} (h : a ∈ indexActs env spec rs emb) :
    a = .indexAppend spec (lancePayload env spec rs emb) := by
  unfold indexActs at h
  split at h
  · exact List.mem_singleton.mp h
  · cases h

/-- The parts of an insert. -/
theorem mem_insertActs {spec : TableSpec} {rs : List Record} {emb : List (String × List Search)}
    {st : Stamp} {a : Act} (h : a ∈ insertActs env spec rs emb st) :
    (∃ r ∈ rs, a = .append st.ds spec.name (putLine spec r st.ds st.ts))
      ∨ (∃ i, ∃ r, rs[i]? = some r
        ∧ a = .insert spec r (searchAt spec emb i) (strVal st.ds) (strVal st.ts))
      ∨ a = .indexAppend spec (lancePayload env spec rs emb) := by
  rw [insertActs, List.append_assoc] at h
  rcases List.mem_append.mp h with h | h
  · obtain ⟨r, hr, rfl⟩ := List.mem_map.mp h
    exact Or.inl ⟨r, hr, rfl⟩
  · rcases List.mem_append.mp h with h | h
    · obtain ⟨i, hi, rfl⟩ := List.mem_mapIdx.mp h
      exact Or.inr (Or.inl ⟨i, rs[i], List.getElem?_eq_getElem hi, rfl⟩)
    · exact Or.inr (Or.inr (indexActs_mem h))

/-- The parts of a delete. -/
theorem mem_deleteActs {repr : Json → String} {spec : TableSpec} {ks : List Val} {st : Stamp}
    {a : Act} (h : a ∈ deleteActs repr spec ks st) :
    (∃ k ∈ ks, a = .append st.ds spec.name (tombstone k st.ts))
      ∨ a = .softDelete spec (ks.map (Val.str repr)) st.ds (strVal st.ts) := by
  rcases List.mem_append.mp h with h | h
  · obtain ⟨k, hk, rfl⟩ := List.mem_map.mp h
    exact Or.inl ⟨k, hk, rfl⟩
  · exact Or.inr (List.mem_singleton.mp h)

/-- With every line written and every row stored, the rows are those of the lines. -/
theorem lineRows_putMembers (hrt : env.RoundTrip) {spec : TableSpec} {rs : List Record}
    {st : Stamp} (hdump : ∀ r ∈ rs, ∃ m, (putLine spec r st.ds st.ts).toMembers? = some m) :
    lineRows env spec (putMembers spec rs st)
      = rs.filterMap fun r => (env.stored spec r (strVal st.ds) (strVal st.ts)).toOption := by
  induction rs with
  | nil => rfl
  | cons r rs ih =>
    obtain ⟨m, hm⟩ := hdump r (by simp)
    have htail := ih fun r' hr' => hdump r' (by simp [hr'])
    rw [lineRows] at htail ⊢
    rw [putMembers, List.filterMap_cons, hm, List.filterMap_cons, List.filterMap_cons,
      stored_roundTrip hrt hm, ← htail]
    rfl

theorem mem_putMembers {spec : TableSpec} {rs : List Record} {st : Stamp} {m : Members}
    (h : m ∈ putMembers spec rs st) : ∃ r ∈ rs, (putLine spec r st.ds st.ts).toMembers? = some m :=
  List.mem_filterMap.mp h

/-- A completed insert appended its put lines. -/
theorem insert_files {spec : TableSpec} {rs : List Record} {emb : List (String × List Search)}
    {st : Stamp} (h : execAll env (insertActs env spec rs emb st) db = (db', none)) :
    db'.files = db.files ++ (putMembers spec rs st).map (fun m => ⟨st.ds, spec.name, m⟩) := by
  have hrows : (rowActs spec rs emb st).flatMap Act.lines = [] :=
    List.flatMap_eq_nil_iff.mpr fun a ha => by
      obtain ⟨_, _, _, _, rfl⟩ := rowActs_insert spec rs emb st a ha
      rfl
  have hidx : (indexActs env spec rs emb).flatMap Act.lines = [] :=
    List.flatMap_eq_nil_iff.mpr fun a ha => by rw [indexActs_mem ha]; rfl
  rw [execAll_files h, insertActs, List.flatMap_append, List.flatMap_append, putActs_lines, hrows,
    hidx, List.append_nil, List.append_nil]

section Insert

variable {spec : TableSpec} {rs : List Record} {emb : List (String × List Search)} {st : Stamp}
  (h : execAll env (insertActs env spec rs emb st) db = (db', none))

include h

theorem insert_dumps {r : Record} (hr : r ∈ rs) :
    ∃ m, (putLine spec r st.ds st.ts).toMembers? = some m := by
  have ha : Act.append st.ds spec.name (putLine spec r st.ds st.ts)
      ∈ insertActs env spec rs emb st := by
    simp only [insertActs, putActs, List.mem_append, List.mem_map]
    exact Or.inl (Or.inl ⟨r, hr, rfl⟩)
  obtain ⟨mid, mid', hmid⟩ := mem_execAll h ha
  obtain ⟨m, hm, -⟩ := exec_append_iff.mp hmid
  exact ⟨m, hm⟩

theorem insert_stored {r : Record} (hr : r ∈ rs) :
    ∃ row, env.stored spec r (strVal st.ds) (strVal st.ts) = .ok row := by
  obtain ⟨i, hi, hri⟩ := List.getElem_of_mem hr
  have ha : Act.insert spec r (searchAt spec emb i) (strVal st.ds) (strVal st.ts)
      ∈ insertActs env spec rs emb st := by
    simp only [insertActs, rowActs, List.mem_append, List.mem_mapIdx]
    exact Or.inl (Or.inr ⟨i, hi, by rw [hri]⟩)
  obtain ⟨mid, mid', hmid⟩ := mem_execAll h ha
  obtain ⟨row, t, hrow, -⟩ := exec_insert_iff.mp hmid
  exact ⟨_, newRow_shown hrow⟩

/-- A completed insert added the rows of its records to its table and nothing to the others. -/
theorem insert_effect (name : String) : db'.shown name
    = (rowActs spec rs emb st).foldl (Act.effect env name) (db.shown name) := by
  have hputs : ∀ rows, (putActs spec rs st).foldl (Act.effect env name) rows = rows := by
    refine fun rows => foldl_other rows fun a ha rs => ?_
    obtain ⟨r, -, rfl⟩ := List.mem_map.mp ha
    rfl
  have hindex : ∀ rows, (indexActs env spec rs emb).foldl (Act.effect env name) rows = rows := by
    refine fun rows => foldl_other rows fun a ha rs => ?_
    rw [indexActs_mem ha]
    rfl
  rw [execAll_shown h, insertActs, List.foldl_append, List.foldl_append, hputs, hindex]

theorem insert_shown : db'.shown spec.name
    = db.shown spec.name ++ (rowActs spec rs emb st).flatMap (Act.newRows env) := by
  rw [insert_effect h, foldl_inserts (rowActs_insert spec rs emb st)]

theorem insert_other {other : String} (hne : spec.name ≠ other) :
    db'.shown other = db.shown other := by
  rw [insert_effect h]
  refine foldl_other _ fun a ha rows => ?_
  obtain ⟨_, _, _, _, rfl⟩ := rowActs_insert spec rs emb st a ha
  simp [Act.effect, hne]

/-- The put lines of a completed insert store, and their rows are the rows it added. -/
theorem insert_complete (hrt : env.RoundTrip) :
    (∀ m ∈ putMembers spec rs st, ∃ row, env.lineRow spec m = .ok row)
      ∧ db'.shown spec.name = db.shown spec.name ++ lineRows env spec (putMembers spec rs st) := by
  constructor
  · intro m hm
    obtain ⟨r, hr, hrm⟩ := mem_putMembers hm
    obtain ⟨row, hrow⟩ := insert_stored h hr
    exact ⟨row, by rw [← stored_roundTrip hrt hrm]; exact hrow⟩
  · have hnew : (rowActs spec rs emb st).flatMap (Act.newRows env)
        = lineRows env spec (putMembers spec rs st) := by
      rw [lineRows_putMembers hrt fun r hr => insert_dumps h hr, ← flatMap_toList, rowActs]
      exact flatMap_mapIdx fun i r _ => rfl
    rw [insert_shown h, hnew]

end Insert

/-- The events of a delete's tombstones. -/
def tombstoneMembers (ks : List Val) (st : Stamp) : List Members :=
  ks.filterMap fun k => (tombstone k st.ts).toMembers?

/-- A completed delete: its tombstones, and the marks. -/
theorem delete_complete {spec : TableSpec} {ks : List Val} {st : Stamp}
    (h : execAll env (deleteActs env.repr spec ks st) db = (db', none)) :
    db'.files = db.files ++ (tombstoneMembers ks st).map (fun m => ⟨st.ds, spec.name, m⟩)
      ∧ (∀ k ∈ ks, ∃ m, (tombstone k st.ts).toMembers? = some m)
      ∧ db'.shown spec.name
        = (db.shown spec.name).map (mark (ks.map (Val.str env.repr)) st.ds (some st.ts))
      ∧ ∀ other, spec.name ≠ other → db'.shown other = db.shown other := by
  have htombs : ∀ name rows, (tombstoneActs spec ks st).foldl (Act.effect env name) rows = rows := by
    intro name rows
    refine foldl_other rows fun a ha rs => ?_
    obtain ⟨k, -, rfl⟩ := List.mem_map.mp ha
    rfl
  refine ⟨?_, ?_, ?_, ?_⟩
  · have hlines : (tombstoneActs spec ks st).flatMap Act.lines
        = (tombstoneMembers ks st).map fun m => ⟨st.ds, spec.name, m⟩ := by
      clear h htombs
      induction ks with
      | nil => rfl
      | cons k ks ih =>
        rw [tombstoneActs] at ih ⊢
        rw [List.map_cons, List.flatMap_cons, ih, tombstoneMembers, tombstoneMembers]
        cases hm : (tombstone k st.ts).toMembers? <;> simp [Act.lines, hm]
    rw [execAll_files h, deleteActs, List.flatMap_append, hlines]
    simp [Act.lines]
  · intro k hk
    have ha : Act.append st.ds spec.name (tombstone k st.ts) ∈ deleteActs env.repr spec ks st := by
      simp only [deleteActs, tombstoneActs, List.mem_append, List.mem_map]
      exact Or.inl ⟨k, hk, rfl⟩
    obtain ⟨mid, mid', hmid⟩ := mem_execAll h ha
    obtain ⟨m, hm, -⟩ := exec_append_iff.mp hmid
    exact ⟨m, hm⟩
  · rw [execAll_shown h, deleteActs, List.foldl_append, htombs]
    simp [Act.effect]
  · intro other hne
    rw [execAll_shown h, deleteActs, List.foldl_append, htombs]
    simp [Act.effect, hne]

end Complete

/-! ## Histories -/

section History

variable (env : Env) (schema : Schema)

/-- One operation of a history: rejected by its first read, or complete. -/
def opStep (db : Db) (op : Stamp × Op) : Option Db :=
  match decideOp env schema db.tables op.2 with
  | .error _ => some db
  | .ok _ =>
    match execute env schema op.1 op.2 db with
    | (db', .ok _) => some db'
    | (_, .error _) => none

/-- A where text that selects keys of live rows of the table by a condition on the rows. -/
def IsPredicate (spec : TableSpec) (cond : String) (params : List Val) : Prop :=
  ∀ views ks, env.selectKeys spec cond params views = .ok ks →
    ∃ p : Row → Bool, ks = ((views spec.name).filter p).map fun r => r.key.fetch

/-- The where clause of a delete is a predicate over the table's rows. -/
def Op.Predicate : Op → Prop
  | .insert _ _ _ => True
  | .delete table cond params => ∀ spec text s, schema.table table = some spec → cond = some text →
      oneStatement text "delete where" = .ok s → IsPredicate env spec s params

/-- Every table agrees with its log. -/
def AllAgree (db : Db) : Prop := ∀ spec ∈ schema.tables,
  Agrees env spec (tableEvents db.files spec.name) (db.shown spec.name)

variable {env schema}

theorem tableEvents_new (name ds : String) (ms : List Members) :
    tableEvents (ms.map fun m => ⟨ds, name, m⟩) name = ms.map fun m => (ds, m) := by
  simp [tableEvents, List.filter_map, Function.comp_def]

theorem tableEvents_other {name other ds : String} (ms : List Members) (h : name ≠ other) :
    tableEvents (ms.map fun m => ⟨ds, name, m⟩) other = [] := by
  simp [tableEvents, List.filter_map, Function.comp_def, h]

/-- Tables that an operation does not name keep their agreement. -/
theorem agrees_other {spec other : TableSpec} {db db' : Db} {ds : String} {ms : List Members}
    (hne : spec.name ≠ other.name)
    (hfiles : db'.files = db.files ++ ms.map fun m => ⟨ds, spec.name, m⟩)
    (hshown : db'.shown other.name = db.shown other.name)
    (h : Agrees env other (tableEvents db.files other.name) (db.shown other.name)) :
    Agrees env other (tableEvents db'.files other.name) (db'.shown other.name) := by
  rw [hfiles, tableEvents_append, tableEvents_other ms hne, List.append_nil, hshown]
  exact h

theorem insert_agrees (hrt : env.RoundTrip)
    (hdel : ∀ spec ∈ schema.tables, "_deleted" ∉ spec.columnNames) {spec : TableSpec}
    (hspec : spec ∈ schema.tables) {rs : List Record} {emb : List (String × List Search)}
    {st : Stamp} {db db' : Db} (h : AllAgree env schema db)
    (hrun : execAll env (insertActs env spec rs emb st) db = (db', none)) :
    AllAgree env schema db' := by
  have hfiles := insert_files hrun
  obtain ⟨hrows, hshown⟩ := insert_complete hrun hrt
  intro other hmem
  by_cases hne : spec.name = other.name
  · obtain rfl := schema.eq_of_name hspec hmem hne
    have hkeys := shown_nodup db' spec.name
    have hnull := shown_notNull db' spec.name
    rw [hshown] at hkeys hnull ⊢
    rw [hfiles, tableEvents_append, tableEvents_new]
    refine agrees_puts (h spec hspec) (fun m hm => ?_) (fun m hm => ?_) (fun m hm => ?_) hkeys
    · obtain ⟨r, -, hr⟩ := mem_putMembers hm
      exact put_not_tombstone hr (hdel spec hspec)
    · obtain ⟨r, -, hr⟩ := mem_putMembers hm
      rw [put_createdAt hr]
      exact truthy_str st.tsNe
    · obtain ⟨row, hrow⟩ := hrows m hm
      exact ⟨row, hrow, hnull row (List.mem_append_right _ (mem_lineRows.mpr ⟨m, hm, hrow⟩))⟩
  · exact agrees_other hne hfiles (insert_other hrun hne) (h other hmem)

/-- A key's fetched value is written as JSON that has the key's text. -/
theorem KeyCell.fetch {spec : TableSpec} {c : Cell} (h : KeyCell spec c) (h0 : c ≠ .null)
    (repr : Json → String) : ∃ j, c.fetch.toJson? = some j
      ∧ c.text = some ((Val.json j).str repr) ∧ c.text = some (c.fetch.str repr) := by
  rcases h.resolve_left h0 with ⟨-, s, rfl⟩ | ⟨-, i, rfl⟩
  · exact ⟨.str s, rfl, rfl, rfl⟩
  · exact ⟨.int i, rfl, rfl, rfl⟩

theorem delsOf_tombstones {repr : Json → String} {ks : List Val} (st : Stamp)
    (hks : ∀ k ∈ ks, ∃ j, k.toJson? = some j ∧ (Val.json j).str repr = k.str repr) :
    delsOf repr ((tombstoneMembers ks st).map fun m => (st.ds, m))
        = ks.map (fun k => ⟨k.str repr, st.ds, .str st.ts⟩)
      ∧ putsOf ((tombstoneMembers ks st).map fun m => (st.ds, m)) = [] := by
  induction ks with
  | nil => exact ⟨rfl, rfl⟩
  | cons k ks ih =>
    obtain ⟨j, hj, htext⟩ := hks k (by simp)
    obtain ⟨hdels, hputs⟩ := ih fun k' hk' => hks k' (by simp [hk'])
    have hm : (tombstone k st.ts).toMembers?
        = some [("_deleted", j), ("deleted_at", .str st.ts)] := by
      rw [tombstone, Record.toMembers?_cons, hj]
      rfl
    have hcons : tombstoneMembers (k :: ks) st
        = [("_deleted", j), ("deleted_at", .str st.ts)] :: tombstoneMembers ks st := by
      simp [tombstoneMembers, hm]
    constructor
    · rw [hcons, List.map_cons, List.map_cons, ← hdels, ← htext]
      simp [delsOf, isTombstone, lookup, Members.get]
    · rw [hcons, List.map_cons]
      rw [putsOf] at hputs ⊢
      simpa [isTombstone, lookup] using hputs

theorem delete_agrees {spec : TableSpec} (hspec : spec ∈ schema.tables) {ks : List Val}
    {st : Stamp} {db db' : Db} (h : AllAgree env schema db)
    (hsel : ∃ p : Row → Bool,
      ks = ((visible none none (db.tables spec.name)).filter p).map fun r => r.key.fetch)
    (hrun : execAll env (deleteActs env.repr spec ks st) db = (db', none)) :
    AllAgree env schema db' := by
  obtain ⟨hfiles, -, hshown, hother⟩ := delete_complete hrun
  intro other hmem
  by_cases hne : spec.name = other.name
  · obtain rfl := schema.eq_of_name hspec hmem hne
    obtain ⟨p, rfl⟩ := hsel
    have hagree := h spec hspec
    -- the selected rows: live, and with keys of the key column's type
    have hlive : ∀ r ∈ (visible none none (db.tables spec.name)).filter p,
        r ∈ db.shown spec.name ∧ r.deletedDs = none ∧ KeyCell spec r.key ∧ r.key ≠ .null := by
      intro r hr
      obtain ⟨r', hr', rfl⟩ := List.mem_map.mp (List.mem_filter.mp hr).1
      obtain ⟨hr', hasof⟩ := List.mem_filter.mp hr'
      have hmem : r'.shown ∈ db.shown spec.name := List.mem_map_of_mem hr'
      exact ⟨hmem, by simpa [asof, Row.shown] using hasof, ((hagree.rows _).mp hmem).keyCell,
        shown_notNull db _ _ hmem⟩
    have htexts : (((visible none none (db.tables spec.name)).filter p).map
        fun r => r.key.fetch.str env.repr).Nodup := by
      have hsub : (((visible none none (db.tables spec.name)).filter p).map Row.key).Nodup :=
        (shown_nodup db spec.name).sublist
          ((List.filter_sublist.trans (List.filter_sublist.map _)).map _)
      refine List.pairwise_map.mpr ((List.pairwise_map.mp hsub).imp_of_mem fun ha hb hne heq => ?_)
      obtain ⟨-, -, hca, hna⟩ := hlive _ ha
      obtain ⟨-, -, hcb, hnb⟩ := hlive _ hb
      obtain ⟨-, -, -, hta⟩ := hca.fetch hna env.repr
      obtain ⟨-, -, -, htb⟩ := hcb.fetch hnb env.repr
      exact hne (hca.text_inj hcb hna hnb (by rw [hta, htb, heq]))
    have hks : ∀ k ∈ ((visible none none (db.tables spec.name)).filter p).map
        (fun r => r.key.fetch), ∃ j, k.toJson? = some j ∧ (Val.json j).str env.repr
          = k.str env.repr := by
      intro k hk
      obtain ⟨r, hr, rfl⟩ := List.mem_map.mp hk
      obtain ⟨-, -, hc, h0⟩ := hlive r hr
      obtain ⟨j, hj, h1, h2⟩ := hc.fetch h0 env.repr
      exact ⟨j, hj, Option.some.inj (h1.symm.trans h2)⟩
    obtain ⟨hdels, hputs⟩ := delsOf_tombstones st hks
    have hmarks := agrees_dels ((tombstoneMembers _ st).map fun m => (st.ds, m)) st.ds
      (some st.ts) hagree hputs (by
        rw [hdels]
        intro d hd
        obtain ⟨k, -, rfl⟩ := List.mem_map.mp hd
        exact ⟨rfl, env.bindText_str st.ts⟩) (by
        rw [hdels, List.map_map, List.map_map]
        exact htexts) (by
        rw [hdels]
        intro d hd
        obtain ⟨k, hk, rfl⟩ := List.mem_map.mp hd
        obtain ⟨r, hr, rfl⟩ := List.mem_map.mp hk
        obtain ⟨hmem, h0, hc, hn⟩ := hlive r hr
        obtain ⟨j, -, -, h2⟩ := hc.fetch hn env.repr
        exact ⟨r, hmem, h0, h2⟩)
    rw [hfiles, tableEvents_append, tableEvents_new, hshown]
    rw [hdels, List.map_map] at hmarks
    exact hmarks
  · exact agrees_other hne hfiles (hother other.name hne) (h other hmem)

/-- What a step of a history did: nothing, a whole insert or a whole delete. -/
theorem opStep_cases {op : Stamp × Op} {db db' : Db} (h : opStep env schema db op = some db') :
    db' = db
    ∨ (∃ spec ∈ schema.tables, ∃ rs emb, execAll env (insertActs env spec rs emb op.1) db
        = (db', none))
    ∨ (∃ spec ∈ schema.tables, ∃ ks, execAll env (deleteActs env.repr spec ks op.1) db = (db', none)
        ∧ (op.2.Predicate env schema → ∃ p : Row → Bool,
          ks = ((visible none none (db.tables spec.name)).filter p).map fun r => r.key.fetch)) := by
  obtain ⟨st, op⟩ := op
  unfold opStep at h
  split at h
  · exact Or.inl (Option.some.inj h).symm
  split at h
  · rename_i mid r hexec
    obtain rfl := Option.some.inj h
    obtain ⟨d, acts, hd, hplan, hrun, -⟩ := execute_ok hexec
    cases op with
    | insert table rows skip =>
      obtain ⟨spec, rs, hspec, -, rfl⟩ := decide_insert hd
      rcases plan_records hplan with rfl | ⟨emb, -, rfl⟩
      · exact Or.inl (Prod.mk.inj hrun).1.symm
      · exact Or.inr (Or.inl ⟨spec, (Schema.table_mem hspec).1, rs, emb, hrun⟩)
    | delete table cond params =>
      obtain ⟨text, spec, ks, hcond, hspec, hks, rfl⟩ := decide_delete hd
      obtain rfl := Except.ok.inj hplan
      obtain ⟨s, hs, hsel⟩ := matchLive_ok hks
      exact Or.inr (Or.inr ⟨spec, (Schema.table_mem hspec).1, ks, hrun, fun hpred =>
        hpred spec text s hspec hcond hs _ ks hsel⟩)
  · cases h

/-- An operation of a history keeps every table in agreement with its log. -/
theorem opStep_agrees (hrt : env.RoundTrip)
    (hdel : ∀ spec ∈ schema.tables, "_deleted" ∉ spec.columnNames) {op : Stamp × Op} {db db' : Db}
    (hpred : op.2.Predicate env schema) (h : AllAgree env schema db)
    (hstep : opStep env schema db op = some db') : AllAgree env schema db' := by
  rcases opStep_cases hstep with rfl | ⟨spec, hspec, rs, emb, hrun⟩ | ⟨spec, hspec, ks, hrun, hsel⟩
  · exact h
  · exact insert_agrees hrt hdel hspec h hrun
  · exact delete_agrees hspec h (hsel hpred) hrun

theorem init_agrees : AllAgree env schema Db.init := fun _ _ => agrees_nil

/-- After any history every table agrees with its log. -/
theorem history_agrees (hrt : env.RoundTrip)
    (hdel : ∀ spec ∈ schema.tables, "_deleted" ∉ spec.columnNames) {ops : List (Stamp × Op)}
    {db : Db} (hpred : ∀ op ∈ ops, op.2.Predicate env schema)
    (hrun : run (opStep env schema) Db.init ops = some db) : AllAgree env schema db := by
  have hguard : Guarded (opStep env schema) (fun _ op => op.2.Predicate env schema) Db.init ops :=
    Guarded.of_forall fun op hop _ => hpred op hop
  exact run_guarded (fun _ _ _ hs hg hstep => opStep_agrees hrt hdel hg hs hstep) init_agrees hguard
    hrun

theorem plainEnv_roundTrip : plainEnv.RoundTrip := by
  intro c v j hj
  have hj' : (Val.json j).toJson? = some j := rfl
  have hnone : v.isNone = (Val.json j).isNone := by rw [Val.isNone, Val.isNone, hj, hj']
  have hbind : plainBind c.sqlType v = plainBind c.sqlType (.json j) := by
    simp only [plainBind, hj, hj']
  simp only [Env.cell, storeVal, hnone, hj, hj']
  split
  · rfl
  · exact congrArg accept hbind

/-- Two notes are written, one is deleted three days later. -/
def noteHistory : List (Stamp × Op) :=
  [(⟨"20260102", "t1", t1_ne⟩, .insert "notes"
      [[("id", strVal "n1"), ("text", strVal "v1")], [("id", strVal "n2")]] false),
    (⟨"20260105", "t2", t2_ne⟩, .delete "notes" (some "id = ?") [strVal "n1"])]

theorem plainSelect_predicate (spec : TableSpec) (cond : String) (params : List Val) :
    IsPredicate plainEnv spec cond params := by
  intro views ks h
  simp only [plainEnv, plainSelect] at h
  split at h
  · exact ⟨fun _ => true, by rw [← Except.ok.inj h, List.filter_true]⟩
  · split at h
    · exact ⟨_, (Except.ok.inj h).symm⟩
    · cases h

theorem noteHistory_predicate : ∀ op ∈ noteHistory, op.2.Predicate plainEnv notesSchema := by
  rintro ⟨st, op⟩ -
  cases op with
  | insert => trivial
  | delete => exact fun spec text s _ _ _ => plainSelect_predicate spec s _

theorem notes_noDeleted : ∀ spec ∈ notesSchema.tables, "_deleted" ∉ spec.columnNames := by decide

end History

end Seekbase
