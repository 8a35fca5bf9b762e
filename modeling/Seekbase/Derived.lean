/-
# Seekbase.Derived — tables, snapshots and datasets are derived from the mirror.

A rebuild clears every table and replays the mirror into it, and what it does next never looks at what
was there.  So two databases over one mirror come out of it alike, whatever had become of either: one
that a crash left half written and one with nothing in it fail at the same act or end with the same
tables, the same full-text snapshots and the same side datasets.

* `SameRows`          — two databases with the same rows in the tables of the schema;
* `exec_same`         — an act of the schema does to both the same, and fails on both or on neither;
* `InStep`            — the full-text snapshot of a table is that of its rows;
* `rebuild_derives`   — a rebuild in place is a rebuild from scratch, and leaves everything in step.
-/
import Seekbase.Done
import Seekbase.Transparent

namespace Seekbase

open JsonText Transition

/-- What DuckDB and the side datasets keep of a table: a snapshot only with vss, a dataset only with
lance. -/
structure Derivation where
  rows : List Row
  fts : List FtsRow
  index : List IndexRow
  deriving DecidableEq

def Db.kept (env : Env) (spec : TableSpec) (db : Db) : Derivation where
  rows := (db.tables spec.name).rows
  fts := if env.vss ∧ spec.searchable ≠ [] then db.fts spec.name else []
  index := if env.indexes spec then db.index spec.name else []

/-- The mirror, with a database that has nothing in it. -/
def Db.scratch (files : Files) : Db := { Db.init with files := files }

section Same

variable {env : Env} {schema : Schema} {a b a' b' : Db}

/-- The tables of the schema have the same rows. -/
def SameRows (schema : Schema) (a b : Db) : Prop :=
  ∀ spec ∈ schema.tables, a.tables spec.name = b.tables spec.name

/-- The act is about a table of the schema, and appends nothing. -/
def Act.Of (schema : Schema) : Act → Prop
  | .append .. => False
  | .insert spec .. | .softDelete spec .. | .clear spec | .rebuildFts spec | .indexAppend spec _
  | .indexOverwrite spec _ => spec ∈ schema.tables

/-- What both keep of a table besides its rows is the same, or the act will make it so. -/
structure SameKept (env : Env) (spec : TableSpec) (a b : Db) (acts : List Act) : Prop where
  fts : env.vss = true → spec.searchable ≠ [] →
    a.fts spec.name = b.fts spec.name ∨ .rebuildFts spec ∈ acts
  index : env.indexes spec = true →
    a.index spec.name = b.index spec.name ∨ ∃ rows, .indexOverwrite spec rows ∈ acts

theorem SameRows.set (h : SameRows schema a b) (name : String) (t : PhysTable) :
    SameRows schema (a.setTable name t) (b.setTable name t) := by
  intro spec hspec
  by_cases hn : spec.name = name
  · subst hn
    rw [setTable_self, setTable_self]
  · rw [setTable_other a t hn, setTable_other b t hn]
    exact h spec hspec

/-- Two updates at one name agree where what they update does, and at the name. -/
theorem update_same {α : Type} {f g : String → α} {name other : String} {x y : α} (hxy : x = y)
    (h : f other = g other ∨ name = other) :
    Function.update f name x other = Function.update g name y other := by
  subst hxy
  by_cases hn : other = name
  · subst hn
    rw [Function.update_self, Function.update_self]
  · rw [Function.update_of_ne hn, Function.update_of_ne hn]
    exact h.resolve_right fun heq => hn heq.symm

/-- What only changes the rows leaves what is kept besides. -/
theorem SameKept.of_same {spec : TableSpec} {act : Act} {acts : List Act}
    (h : SameKept env spec a b (act :: acts)) (hact : ∀ s, act ≠ .rebuildFts s)
    (hact' : ∀ s rows, act ≠ .indexOverwrite s rows) (ha : a'.fts = a.fts ∧ a'.index = a.index)
    (hb : b'.fts = b.fts ∧ b'.index = b.index) : SameKept env spec a' b' acts where
  fts := by
    intro hv hs
    rw [ha.1, hb.1]
    rcases h.fts hv hs with heq | hmem
    · exact Or.inl heq
    · exact Or.inr ((List.mem_cons.mp hmem).resolve_left fun heq => hact spec heq.symm)
  index := by
    intro hi
    rw [ha.2, hb.2]
    rcases h.index hi with heq | ⟨rows, hmem⟩
    · exact Or.inl heq
    · exact Or.inr ⟨rows, (List.mem_cons.mp hmem).resolve_left fun heq => hact' spec rows heq.symm⟩

/-- A rebuild of a snapshot makes it the same on both. -/
theorem SameKept.rebuildFts {spec other : TableSpec} {acts : List Act} (hspec : spec ∈ schema.tables)
    (hrows : SameRows schema a b) (h : SameKept env other a b (.rebuildFts spec :: acts)) :
    SameKept env other
      { a with fts := Function.update a.fts spec.name (ftsRows (a.tables spec.name)) }
      { b with fts := Function.update b.fts spec.name (ftsRows (b.tables spec.name)) } acts where
  fts := by
    intro hv hs
    have hrowsEq := congrArg ftsRows (hrows spec hspec)
    rcases h.fts hv hs with heq | hmem
    · exact Or.inl (update_same hrowsEq (Or.inl heq))
    · rcases List.mem_cons.mp hmem with heq | hmem
      · rw [Act.rebuildFts.inj heq]
        exact Or.inl (update_same hrowsEq (Or.inr rfl))
      · exact Or.inr hmem
  index := by
    intro hi
    rcases h.index hi with heq | ⟨rows, hmem⟩
    · exact Or.inl heq
    · exact Or.inr ⟨rows, (List.mem_cons.mp hmem).resolve_left fun heq => by cases heq⟩

/-- An append to a dataset keeps it the same, and an overwrite makes it so. -/
theorem SameKept.copy {spec other : TableSpec} {act : Act} {acts : List Act}
    {x y : List IndexRow} (h : SameKept env other a b (act :: acts))
    (hfts : ∀ s, act ≠ .rebuildFts s)
    (hx : a.index spec.name = b.index spec.name → x = y)
    (hover : ∀ s r, act = .indexOverwrite s r → s = spec ∧ x = y) :
    SameKept env other { a with index := Function.update a.index spec.name x }
      { b with index := Function.update b.index spec.name y } acts where
  fts := by
    intro hv hs
    rcases h.fts hv hs with heq | hmem
    · exact Or.inl heq
    · exact Or.inr ((List.mem_cons.mp hmem).resolve_left fun heq => hfts other heq.symm)
  index := by
    intro hi
    have hover' : (∃ r, act = .indexOverwrite other r) → Function.update a.index spec.name x other.name
        = Function.update b.index spec.name y other.name := by
      rintro ⟨r, heq⟩
      obtain ⟨rfl, hxy⟩ := hover other r heq
      exact update_same hxy (Or.inr rfl)
    rcases h.index hi with heq | ⟨r, hmem⟩
    · left
      show Function.update a.index spec.name x other.name
        = Function.update b.index spec.name y other.name
      by_cases hn : spec.name = other.name
      · rw [← hn, Function.update_self, Function.update_self]
        exact hx (by rw [hn]; exact heq)
      · rw [Function.update_of_ne (Ne.symm hn), Function.update_of_ne (Ne.symm hn)]
        exact heq
    · rcases List.mem_cons.mp hmem with heq | hmem
      · exact Or.inl (hover' ⟨r, heq.symm⟩)
      · exact Or.inr ⟨r, hmem⟩

variable (env) in
/-- An act of the schema fails on both, or does the same to both. -/
theorem exec_same {act : Act} (hact : act.Of schema) (h : SameRows schema a b) :
    (∃ e, exec env act a = .error e ∧ exec env act b = .error e)
      ∨ ∃ a' b', exec env act a = .ok a' ∧ exec env act b = .ok b' ∧ SameRows schema a' b'
        ∧ ∀ spec acts, SameKept env spec a b (act :: acts) → SameKept env spec a' b' acts := by
  cases act with
  | append => exact hact.elim
  | insert spec r search ds ca =>
    have htable := h spec hact
    cases hrow : env.newRow spec r search ds ca with
    | error e => exact Or.inl ⟨e, by simp [exec, hrow, bind, Except.bind]⟩
    | ok row =>
      cases hins : insertRow (b.tables spec.name) row with
      | error e => exact Or.inl ⟨e, by simp [exec, hrow, htable, hins, bind, Except.bind]⟩
      | ok t =>
        refine Or.inr ⟨a.setTable spec.name t, b.setTable spec.name t, ?_, ?_, h.set _ _,
          fun other acts hk => hk.of_same (by simp) (by simp) ⟨rfl, rfl⟩ ⟨rfl, rfl⟩⟩
        · simp [exec, hrow, htable, hins, bind, Except.bind, pure, Except.pure]
        · simp [exec, hrow, hins, bind, Except.bind, pure, Except.pure]
  | softDelete spec keys ds deletedAt =>
    have htable := h spec hact
    by_cases hkeys : keys = []
    · refine Or.inr ⟨a, b, by simp [exec, hkeys], by simp [exec, hkeys], h,
        fun other acts hk => hk.of_same (by simp) (by simp) ⟨rfl, rfl⟩ ⟨rfl, rfl⟩⟩
    · cases hat : env.bindText deletedAt with
      | none =>
        exact Or.inl ⟨.refused, by simp [exec, hkeys, hat, accept, bind, Except.bind]⟩
      | some x =>
        refine Or.inr ⟨a.setTable spec.name (softDeleteRows (b.tables spec.name) keys ds x),
          b.setTable spec.name (softDeleteRows (b.tables spec.name) keys ds x), ?_, ?_, h.set _ _,
          fun other acts hk => hk.of_same (by simp) (by simp) ⟨rfl, rfl⟩ ⟨rfl, rfl⟩⟩
        · simp [exec, hkeys, hat, accept, htable, bind, Except.bind, pure, Except.pure]
        · simp [exec, hkeys, hat, accept, bind, Except.bind, pure, Except.pure]
  | clear spec =>
    exact Or.inr ⟨_, _, rfl, rfl, h.set _ _,
      fun other acts hk => hk.of_same (by simp) (by simp) ⟨rfl, rfl⟩ ⟨rfl, rfl⟩⟩
  | rebuildFts spec =>
    by_cases hv : env.vss = true ∧ spec.searchable ≠ []
    · have hexec (db : Db) : exec env (.rebuildFts spec) db = .ok
          { db with fts := Function.update db.fts spec.name (ftsRows (db.tables spec.name)) } := by
        rw [exec, if_pos hv]
      exact Or.inr ⟨_, _, hexec a, hexec b, h, fun other acts hk => hk.rebuildFts hact h⟩
    · refine Or.inr ⟨a, b, by rw [exec, if_neg hv], by rw [exec, if_neg hv], h,
        fun other acts hk => ⟨fun hv' hs => ?_, fun hi => ?_⟩⟩
      · rcases hk.fts hv' hs with heq | hmem
        · exact Or.inl heq
        · refine Or.inr ((List.mem_cons.mp hmem).resolve_left fun heq => hv ⟨hv', ?_⟩)
          rwa [← Act.rebuildFts.inj heq]
      · rcases hk.index hi with heq | ⟨rows, hmem⟩
        · exact Or.inl heq
        · exact Or.inr ⟨rows, (List.mem_cons.mp hmem).resolve_left fun heq => by cases heq⟩
  | indexAppend spec rows =>
    by_cases hc : env.copies spec.name rows = true
    · have hexec (db : Db) : exec env (.indexAppend spec rows) db = .ok
          { db with index := Function.update db.index spec.name (db.index spec.name ++ rows) } := by
        rw [exec, if_pos hc]
      exact Or.inr ⟨_, _, hexec a, hexec b, h,
        fun other acts hk => hk.copy (by simp) (fun heq => by rw [heq]) (by simp)⟩
    · exact Or.inl ⟨.copyFailed, by rw [exec, if_neg hc], by rw [exec, if_neg hc]⟩
  | indexOverwrite spec rows =>
    by_cases hc : env.copies spec.name rows = true
    · have hexec (db : Db) : exec env (.indexOverwrite spec rows) db = .ok
          { db with index := Function.update db.index spec.name rows } := by
        rw [exec, if_pos hc]
      refine Or.inr ⟨_, _, hexec a, hexec b, h,
        fun other acts hk => hk.copy (by simp) (fun _ => rfl) ?_⟩
      intro s r heq
      injection heq with hs
      exact ⟨hs.symm, rfl⟩
    · exact Or.inl ⟨.copyFailed, by rw [exec, if_neg hc], by rw [exec, if_neg hc]⟩

variable (env) in
/-- A list of such acts stops at the same act on both, or does the same to both. -/
theorem execAll_same {acts : List Act} (hacts : ∀ act ∈ acts, act.Of schema)
    (h : SameRows schema a b) :
    (execAll env acts a).2 = (execAll env acts b).2
      ∧ SameRows schema (execAll env acts a).1 (execAll env acts b).1
      ∧ ((execAll env acts b).2 = none → ∀ spec, SameKept env spec a b acts →
        SameKept env spec (execAll env acts a).1 (execAll env acts b).1 []) := by
  induction acts generalizing a b with
  | nil => exact ⟨rfl, h, fun _ _ hk => hk⟩
  | cons act acts ih =>
    rcases exec_same env (hacts act List.mem_cons_self) h with
      ⟨e, ha, hb⟩ | ⟨a', b', ha, hb, hrows, hkept⟩
    · simp only [execAll, ha, hb]
      exact ⟨trivial, h, fun hnone => by cases hnone⟩
    · simp only [execAll, ha, hb]
      obtain ⟨heq, hsame, hrest⟩ := ih (fun x hx => hacts x (List.mem_cons_of_mem act hx)) hrows
      exact ⟨heq, hsame, fun hnone spec hk => hrest hnone spec (hkept spec acts hk)⟩

/-! ## From scratch -/

theorem replayActs_of {now : String → Nat → String} {files : Files} {snaps : List Snap}
    (h : (schema.tables.mapM fun spec => snapshot env spec files) = .ok snaps) :
    ∀ act ∈ replayActs env schema now snaps, act.Of schema := by
  intro act hact
  rcases mem_replayActs hact with ⟨spec, hspec, rfl⟩ | ⟨s, hs, hact⟩
  · exact hspec
  · have hspec := (mem_snapshots h hs).1
    rcases mem_loadActs hact with ⟨_, _, _, _, rfl⟩ | ⟨_, -, rfl⟩ | rfl | ⟨-, rfl⟩ <;> exact hspec

variable (env) in
/-- After the clears there is nothing left of what was. -/
theorem clears_same (schema : Schema) (a b : Db) :
    ∃ a' b', execAll env (clearActs schema) a = (a', none)
      ∧ execAll env (clearActs schema) b = (b', none) ∧ SameRows schema a' b' := by
  have hclear : ∀ act ∈ clearActs schema, ∀ db, ∃ db', exec env act db = .ok db' := by
    intro act hact db
    obtain ⟨spec, -, rfl⟩ := List.mem_map.mp hact
    exact ⟨_, rfl⟩
  have hempty : ∀ {db db' : Db}, execAll env (clearActs schema) db = (db', none) →
      ∀ spec ∈ schema.tables, db'.tables spec.name = .empty := by
    intro db db' h spec hspec
    have hshown : db'.shown spec.name = [] := by
      rw [execAll_shown h, foldl_clear, if_pos (List.mem_map_of_mem hspec)]
    exact PhysTable.ext_rows (List.map_eq_nil_iff.mp hshown)
  obtain ⟨a', ha⟩ := execAll_ok a hclear
  obtain ⟨b', hb⟩ := execAll_ok b hclear
  exact ⟨a', b', ha, hb, fun spec hspec => (hempty ha spec hspec).trans (hempty hb spec hspec).symm⟩

/-- Every table's load rebuilds its snapshot and overwrites its dataset. -/
theorem loads_refresh {now : String → Nat → String} {files : Files} {snaps : List Snap}
    (h : (schema.tables.mapM fun spec => snapshot env spec files) = .ok snaps) {spec : TableSpec}
    (hspec : spec ∈ schema.tables) {a b : Db} :
    SameKept env spec a b (snaps.flatMap fun s => loadActs env (now s.spec.name) s) := by
  obtain ⟨s, hs, rfl, -, -⟩ := snapshots_find h hspec
  refine ⟨fun _ _ => Or.inr ?_, fun hi => Or.inr ⟨lancePayload env s.spec s.recs s.emb, ?_⟩⟩
  · apply List.mem_flatMap.mpr
    exact ⟨s, hs, List.mem_append_right _ List.mem_cons_self⟩
  · apply List.mem_flatMap.mpr
    refine ⟨s, hs, List.mem_append_right _ (List.mem_cons_of_mem _ ?_)⟩
    rw [if_pos hi]
    exact List.mem_cons_self

theorem kept_same (h : SameRows schema a b) {spec : TableSpec} (hspec : spec ∈ schema.tables)
    (hk : SameKept env spec a b []) : a.kept env spec = b.kept env spec := by
  have hfts : (if env.vss = true ∧ spec.searchable ≠ [] then a.fts spec.name else [])
      = if env.vss = true ∧ spec.searchable ≠ [] then b.fts spec.name else [] := by
    split
    · next hv => exact (hk.fts hv.1 hv.2).resolve_right List.not_mem_nil
    · rfl
  have hindex : (if env.indexes spec = true then a.index spec.name else [])
      = if env.indexes spec = true then b.index spec.name else [] := by
    split
    · next hi => exact (hk.index hi).resolve_right fun ⟨_, hmem⟩ => List.not_mem_nil hmem
    · rfl
  simp only [Db.kept, h spec hspec, hfts, hindex]

variable (env schema) in
/-- Over one mirror two rebuilds end alike. -/
theorem rebuild_same (hfiles : a.files = b.files) (now : String → Nat → String) :
    (rebuild env schema now a).2 = (rebuild env schema now b).2
      ∧ ∀ stats, (rebuild env schema now b).2 = .ok stats → ∀ spec ∈ schema.tables,
        (rebuild env schema now a).1.kept env spec = (rebuild env schema now b).1.kept env spec := by
  unfold rebuild
  rw [hfiles]
  cases hsnaps : schema.tables.mapM fun spec => snapshot env spec b.files with
  | error e => exact ⟨rfl, fun stats h => by cases h⟩
  | ok snaps =>
    obtain ⟨a₁, b₁, ha, hb, hrows⟩ := clears_same env schema a b
    have hof : ∀ act ∈ snaps.flatMap fun s => loadActs env (now s.spec.name) s, act.Of schema :=
      fun act hact => replayActs_of hsnaps act (List.mem_append_right _ hact)
    obtain ⟨hstop, hsame, hkept⟩ := execAll_same env hof hrows
    have hrun (db db₁ : Db) (h : execAll env (clearActs schema) db = (db₁, none)) :
        execAll env (replayActs env schema now snaps) db
          = execAll env (snaps.flatMap fun s => loadActs env (now s.spec.name) s) db₁ := by
      rw [replayActs, execAll_append, h]
    simp only [hrun a a₁ ha, hrun b b₁ hb]
    have hmade : ∀ spec ∈ schema.tables, SameKept env spec a₁ b₁
        (snaps.flatMap fun s => loadActs env (now s.spec.name) s) :=
      fun spec hspec => loads_refresh hsnaps hspec
    generalize execAll env (snaps.flatMap fun s => loadActs env (now s.spec.name) s) a₁ = x
      at hstop hsame hkept
    generalize execAll env (snaps.flatMap fun s => loadActs env (now s.spec.name) s) b₁ = y
      at hstop hsame hkept
    rcases x with ⟨a₂, e⟩
    rcases y with ⟨b₂, e'⟩
    obtain rfl : e = e' := hstop
    cases e with
    | none =>
      exact ⟨rfl, fun _ _ spec hspec => kept_same hsame hspec (hkept rfl spec (hmade spec hspec))⟩
    | some e => exact ⟨rfl, fun stats h => by cases h⟩

/-! ## In step -/

/-- The full-text snapshot of the table is that of its rows. -/
def InStep (spec : TableSpec) (db : Db) : Prop :=
  db.fts spec.name = ftsRows (db.tables spec.name)

variable {spec : TableSpec} {db db' : Db}

theorem exec_inStep {act : Act} (hact : act.Spares spec.name) (h : InStep spec db)
    (he : exec env act db = .ok db') : InStep spec db' := by
  unfold InStep
  rw [exec_spares hact he, ← h]
  cases act with
  | append ds table line =>
    obtain ⟨m, -, rfl⟩ := exec_append_iff.mp he
    rfl
  | insert other r search ds ca =>
    obtain ⟨row, t, -, -, -, -, rfl⟩ := exec_insert_iff.mp he
    rfl
  | softDelete other keys ds at' =>
    rcases exec_softDelete_iff.mp he with ⟨-, rfl⟩ | ⟨-, x, -, rfl⟩ <;> rfl
  | clear other => exact hact.elim
  | rebuildFts other =>
    obtain rfl := Except.ok.inj he
    split
    · by_cases hn : spec.name = other.name
      · show Function.update db.fts other.name _ spec.name = _
        rw [h, hn, Function.update_self]
      · exact Function.update_of_ne hn _ _
    · rfl
  | indexAppend other rows | indexOverwrite other rows =>
    simp only [exec] at he
    split at he
    · obtain rfl := Except.ok.inj he
      rfl
    · cases he

theorem execAll_inStep {acts : List Act} (hacts : ∀ act ∈ acts, act.Spares spec.name)
    (h : InStep spec db) (he : execAll env acts db = (db', none)) : InStep spec db' := by
  induction acts generalizing db with
  | nil =>
    obtain rfl := (Prod.mk.inj he).1
    exact h
  | cons act acts ih =>
    obtain ⟨mid, hmid, he⟩ := execAll_cons_none.mp he
    exact ih (fun x hx => hacts x (List.mem_cons_of_mem act hx))
      (exec_inStep (hacts act List.mem_cons_self) h hmid) he

/-- A load leaves its table in step. -/
theorem load_inStep (hvss : env.vss = true) {now : Nat → String} {s : Snap}
    (hs : s.spec.searchable ≠ []) (he : execAll env (loadActs env now s) db = (db', none)) :
    InStep s.spec db' := by
  obtain ⟨mid, -, hrest⟩ := execAll_append_none.mp he
  obtain ⟨fresh, hfts, hrest⟩ := execAll_cons_none.mp hrest
  refine execAll_inStep ?_ ?_ hrest
  · intro act hact
    split at hact
    · rw [List.mem_singleton.mp hact]
      trivial
    · cases hact
  · have hspare : (Act.rebuildFts s.spec).Spares s.spec.name := trivial
    show fresh.fts s.spec.name = ftsRows (fresh.tables s.spec.name)
    rw [refresh_fts hfts hvss hs, exec_spares hspare hfts]

theorem load_spares {now : Nat → String} {s : Snap} {name : String} (hn : s.spec.name ≠ name) :
    ∀ act ∈ loadActs env now s, act.Spares name := by
  intro act hact
  rcases mem_loadActs hact with ⟨_, _, _, _, rfl⟩ | ⟨_, -, rfl⟩ | rfl | ⟨-, rfl⟩
  · exact hn
  · trivial
  · trivial
  · trivial

theorem loads_inStep (hvss : env.vss = true) {now : String → Nat → String} {snaps : List Snap}
    (hnd : (snaps.map (·.spec.name)).Nodup)
    (he : execAll env (snaps.flatMap fun s => loadActs env (now s.spec.name) s) db = (db', none))
    {s : Snap} (hs : s ∈ snaps) (hsearch : s.spec.searchable ≠ []) : InStep s.spec db' := by
  induction snaps generalizing db with
  | nil => cases hs
  | cons t snaps ih =>
    obtain ⟨ht, hnd⟩ := List.nodup_cons.mp hnd
    rw [List.flatMap_cons] at he
    obtain ⟨mid, hmid, hrest⟩ := execAll_append_none.mp he
    rcases List.mem_cons.mp hs with rfl | hs
    · refine execAll_inStep ?_ (load_inStep hvss hsearch hmid) hrest
      intro act hact
      obtain ⟨u, hu, hact⟩ := List.mem_flatMap.mp hact
      exact load_spares (fun heq => ht (List.mem_map.mpr ⟨u, hu, heq⟩)) act hact
    · exact ih hnd hrest hs

/-! ## Lines that say when they were created -/

/-- Every put line has its `created_at`. -/
def Stamped (schema : Schema) (files : Files) : Prop :=
  ∀ spec ∈ schema.tables, ∀ m ∈ putsOf (iterEvents files spec.name), truthy (m.get "created_at") = true

theorem reloadActs_stamped {s : Snap} (h : ∀ m ∈ s.puts, truthy (m.get "created_at") = true)
    (now later : Nat → String) : reloadActs now s = reloadActs later s := by
  rw [reloadActs, reloadActs, List.mapIdx_eq_mapIdx_iff]
  intro i hi
  have htruthy := h _ (List.getElem_mem hi)
  rw [orNow_truthy htruthy, orNow_truthy htruthy]

/-- What a rebuild does over such lines is the same whenever it runs. -/
theorem rebuild_stamped {db : Db} (h : Stamped schema db.files) (now later : String → Nat → String) :
    rebuild env schema now db = rebuild env schema later db := by
  unfold rebuild
  cases hsnaps : schema.tables.mapM fun spec => snapshot env spec db.files with
  | error e => rfl
  | ok snaps =>
    have hacts : replayActs env schema now snaps = replayActs env schema later snaps := by
      refine congrArg (clearActs schema ++ ·) (List.flatMap_congr fun s hs => ?_)
      obtain ⟨hspec, hsnap⟩ := mem_snapshots hsnaps hs
      obtain ⟨emb, -, hse⟩ := snapshot_ok_iff.mp hsnap
      have hputs : s.puts = putsOf (iterEvents db.files s.spec.name) := by rw [hse]
      have hstamped : ∀ m ∈ s.puts, truthy (m.get "created_at") = true := hputs ▸ h s.spec hspec
      rw [loadActs, loadActs, reloadActs_stamped hstamped (now s.spec.name) (later s.spec.name)]
    simp only [hacts]

variable (env schema) in
/-- A rebuild in place and one over an empty database, with the same mirror and the same readings of the
clock, raise the same or end with the same tables, snapshots and datasets, whatever state the database
was in.  One that completes leaves the mirror as it is and every snapshot in step with its table.  Where
the put lines have their `created_at`, a later one at any other readings comes to the same result and
changes nothing. -/
theorem rebuild_derives (now : String → Nat → String) (db : Db) :
    (rebuild env schema now db).2 = (rebuild env schema now (Db.scratch db.files)).2
      ∧ ∀ stats db', rebuild env schema now db = (db', .ok stats) → db'.files = db.files
        ∧ ∀ spec ∈ schema.tables,
          db'.kept env spec = (rebuild env schema now (Db.scratch db.files)).1.kept env spec
          ∧ (env.vss = true → spec.searchable ≠ [] → InStep spec db')
          ∧ (Stamped schema db.files → ∀ later, (rebuild env schema later db').2 = .ok stats
            ∧ (rebuild env schema later db').1.kept env spec = db'.kept env spec) := by
  have hscratch := rebuild_same env schema (b := Db.scratch db.files) (a := db) rfl now
  refine ⟨hscratch.1, fun stats db' hreb => ?_⟩
  have hfiles := (rebuild_rows hreb).1
  have hagain := rebuild_same env schema hfiles now
  have hok : (rebuild env schema now db).2 = .ok stats := congrArg Prod.snd hreb
  refine ⟨hfiles, fun spec hspec => ⟨?_, fun hvss hsearch => ?_, fun hstamped later => ?_⟩⟩
  · have hkept := hscratch.2 stats (hscratch.1.symm.trans hok) spec hspec
    rw [hreb] at hkept
    exact hkept
  · obtain ⟨snaps, hsnaps, hrun, -⟩ := rebuild_ok_iff.mp hreb
    obtain ⟨mid, -, hloads⟩ := execAll_append_none.mp hrun
    obtain ⟨s, hs, rfl, -, -⟩ := snapshots_find hsnaps hspec
    exact loads_inStep hvss (snapshots_nodup hsnaps) hloads hs hsearch
  · -- the later rebuild is one at the readings of the first
    rw [rebuild_stamped (hfiles.symm ▸ hstamped) later now]
    have hkept := hagain.2 stats hok spec hspec
    rw [hreb] at hkept
    exact ⟨hagain.1.trans hok, hkept⟩

end Same

/-! ## A database that has lost a note and kept a ghost -/

/-- The mirror of two notes. -/
def twoLines : Files :=
  [⟨"20260102", "notes", [("id", .str "n1"), ("ds", .str "20260102"), ("created_at", .str "t1")]⟩,
    ⟨"20260102", "notes", [("id", .str "n2"), ("ds", .str "20260102"), ("created_at", .str "t1")]⟩]

/-- Its table has one row, of which there is no line. -/
def ghostTable : PhysTable where
  rows := [⟨.varchar "n9", [.varchar "n9", .null], some "20260101", some "t0", none, none, []⟩]
  pkUnique := by simp
  pkNotNull := by simp

def ghostDb : Db := { Db.scratch twoLines with tables := fun _ => ghostTable }

theorem twoLines_stamped : Stamped notesSchema twoLines := by
  unfold Stamped
  decide

/-- The table comes out of it with the rows of the mirror, and a rebuild by another clock leaves it
so. -/
theorem rebuild_derives_notes : ∃ stats db',
    rebuild plainEnv notesSchema (fun _ _ => "t3") ghostDb = (db', .ok stats)
      ∧ (db'.kept plainEnv notes).rows.map Row.key = [.varchar "n1", .varchar "n2"]
      ∧ db'.files = twoLines
      ∧ db'.kept plainEnv notes
        = (rebuild plainEnv notesSchema (fun _ _ => "t3") (Db.scratch twoLines)).1.kept plainEnv notes
      ∧ (rebuild plainEnv notesSchema (fun _ _ => "t4") db').1.kept plainEnv notes
        = db'.kept plainEnv notes := by
  have hkeys : ((rebuild plainEnv notesSchema (fun _ _ => "t3") ghostDb).1.kept plainEnv
      notes).rows.map Row.key = [.varchar "n1", .varchar "n2"] := by decide
  have hok : (rebuild plainEnv notesSchema (fun _ _ => "t3") ghostDb).2.toOption.isSome = true := by
    decide
  have hall := rebuild_derives plainEnv notesSchema (fun _ _ => "t3") ghostDb
  rcases hreb : rebuild plainEnv notesSchema (fun _ _ => "t3") ghostDb with ⟨db', e | stats⟩
  · rw [hreb] at hok
    cases hok
  · rw [hreb] at hkeys
    obtain ⟨hfiles, hkept⟩ := hall.2 stats db' hreb
    obtain ⟨hscratch, -, hagain⟩ := hkept notes (by simp [notesSchema])
    have hlater := hagain twoLines_stamped fun _ _ => "t4"
    exact ⟨stats, db', rfl, hkeys, hfiles, hscratch, hlater.2⟩

end Seekbase
