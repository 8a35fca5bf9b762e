/-
# Seekbase.WriteOnce — the history of a table: written once, marked once, never undone.

Inserts and deletes decide on one statement and write in others, by texts of keys.  That the worker
runs them one after another, and that nothing but the worker writes, is what makes a decision still
true when its acts run; `Batch` has that as `serial` and `Grew`.  Here is what follows for a client:

* `strict_insert_fresh` — a strict insert that was reported found none of its keys and left them all;
* `delete_matched`      — a delete that was reported wrote the tombstone of each row its clause
                          selects, and a mark on exactly these;
* `write_once`          — both along every run, with the rows as they only age.
-/
import Seekbase.Atomicity
import Seekbase.Batch

namespace Seekbase

open JsonText Transition

/-! ## Strict inserts -/

/-- A strict insert into a table of a row with this key. -/
def Op.StrictlyInserts (schema : Schema) (table : String) (key : Val) : Op → Prop
  | .insert other rows skip => skip = false ∧ other = table
    ∧ ∃ spec, schema.table table = some spec ∧ ∃ r ∈ rows, r.get spec.primaryKey = key
  | .delete _ _ _ => False

section Insert

variable {env : Env} {schema : Schema}

/-- What a strict validation lets through: every row, over the declared columns. -/
theorem validate_strict {repr : Json → String} {spec : TableSpec} {t : PhysTable}
    {rows rs : List Record} (h : validate repr spec t rows false = .ok rs) :
    rs = rows.map (project spec) := by
  simp only [validate, Bool.false_eq_true, if_false] at h
  split at h
  · cases h
  · split at h
    · cases h
    · split at h
      · cases h
      · exact (Except.ok.inj h).symm

theorem project_primary (spec : TableSpec) (row : Record) :
    (project spec row).get spec.primaryKey = row.get spec.primaryKey := by
  simp [Record.get, project, lookup_map, spec.primaryKey_mem]

theorem plan_cons {st : Stamp} {spec : TableSpec} {r : Record} {rs : List Record}
    {acts : List Act} (h : plan env st (.records spec (r :: rs)) = .ok acts) : ∃ emb,
      embedRecords env spec (r :: rs) = .ok emb ∧ acts = insertActs env spec (r :: rs) emb st := by
  simp only [plan] at h
  rcases map_ok_iff.mp h with ⟨emb, hemb, rfl⟩
  exact ⟨emb, hemb, rfl⟩

/-- The key a row is stored under is the cell of its key's value. -/
theorem stored_key {spec : TableSpec} {r : Record} {ds ca : Val} {row : Row}
    (h : env.stored spec r ds ca = .ok row) :
    env.bind spec.primary.sqlType (r.get spec.primaryKey) = some row.key := by
  rcases stored_ok_iff.mp h with ⟨cells, key, d, c, -, hk, -, -, rfl⟩
  rw [cell_primary] at hk
  exact accept_ok_iff.mp hk

/-- A strict insert that was reported found no row under its keys, and left one under each. -/
theorem strict_insert_fresh {r : Report} (h : r.Ran env schema) {table : String} {key : Val}
    (hop : r.op.StrictlyInserts schema table key) : ∃ spec c, schema.table table = some spec
      ∧ env.bind spec.primary.sqlType key = some c
      ∧ c ∉ (r.before.tables spec.name).rows.map Row.key
      ∧ c ∈ (r.after.tables spec.name).rows.map Row.key := by
  rcases h.acts with ⟨st, acts, hplan, hrun⟩
  have hdec := h.decided.decision
  cases hr : r.op with
  | delete other cond params =>
    rw [hr] at hop
    exact hop.elim
  | insert other rows skip =>
    rw [hr] at hop hdec
    rcases hop with ⟨rfl, rfl, spec, hspec, row, hrow, rfl⟩
    rcases decide_insert hdec with ⟨spec', rs, hspec', hval, hd⟩
    rcases Option.some.inj (hspec.symm.trans hspec') with rfl
    have hrs : project spec row ∈ rs := by
      rw [validate_strict hval]
      exact List.mem_map_of_mem hrow
    have hne : rs ≠ [] := List.ne_nil_of_mem hrs
    rw [hd] at hplan
    match rs, hne with
    | x :: xs, hne =>
    rcases plan_cons hplan with ⟨emb, -, rfl⟩
    have hacc := acceptable_of_complete hne hrun
    rcases hacc.stores _ hrs with ⟨base, hbase, -⟩
    refine ⟨spec, base.key, hspec, ?_, ?_, ?_⟩
    · rw [← project_primary spec row]
      exact stored_key hbase
    · -- the keys of the rows before and of the new rows are distinct
      have hkeys := hacc.keys
      rw [List.map_append, List.nodup_append] at hkeys
      intro hold
      rw [← shown_keys] at hold
      refine hkeys.2.2 _ hold _ (List.mem_map.mpr ⟨base, ?_, rfl⟩) rfl
      exact List.mem_filterMap.mpr ⟨_, hrs, by rw [hbase]; rfl⟩
    · rw [← shown_keys, insert_shown hrun, rowActs_newRows, List.map_append]
      refine List.mem_append_right _ (List.mem_map.mpr ⟨base, ?_, rfl⟩)
      exact List.mem_filterMap.mpr ⟨_, hrs, by rw [hbase]; rfl⟩

theorem Db.Grew.keys {a b : Db} (h : a.Grew b) {name : String} {c : Cell}
    (hc : c ∈ (a.tables name).rows.map Row.key) : c ∈ (b.tables name).rows.map Row.key := by
  rcases List.mem_map.mp hc with ⟨row, hrow, rfl⟩
  rcases h.mem hrow with ⟨row', hrow', hage⟩
  exact List.mem_map.mpr ⟨row', hrow', hage.key⟩

end Insert

/-! ## Deletes -/

/-- The clause is a predicate over the rows of the table it is read on: it selects the keys of those
that satisfy it, in whatever state the views are. -/
def PredicateClause (env : Env) (text : String) (params : List Val) : Prop :=
  ∀ stmt, oneStatement text "delete where" = .ok stmt → ∀ spec views, ∃ p : Row → Bool, ∀ ks,
    env.selectKeys spec stmt params views = .ok ks →
      ks = ((views spec.name).filter p).map fun r => r.key.fetch

/-- An insert, or a delete by a predicate. -/
def Op.Predicated (env : Env) : Op → Prop
  | .delete _ (some text) params => PredicateClause env text params
  | _ => True

/-- Inserts and deletes by predicates; no rebuild writes. -/
def BatchLabel.WritesOnly (env : Env) : BatchLabel → Prop
  | .sys (.replay _) => False
  | .sys (.take op) => op.Predicated env
  | _ => True

/-- A live row that satisfies a predicate, marked. -/
def markIf (p : Row → Bool) (st : Stamp) (r : Row) : Row :=
  if r.deletedDs = none ∧ p r.shown = true then
    { r with deletedDs := some st.ds, deletedAt := some st.ts }
  else r

/-- The line is the tombstone of the key. -/
def Buries (spec : TableSpec) (st : Stamp) (k : Val) (l : Line) : Prop :=
  l.table = spec.name ∧ l.ds = st.ds ∧ (tombstone k st.ts).toMembers? = some l.members
    ∧ isTombstone l.members = true

/-- A delete matched the live rows that its clause selects, which are those of a predicate; it appended
the tombstone of each, in their order, marked these and no other row, and did nothing else. -/
def Report.DeletesMatched (env : Env) (schema : Schema) (r : Report) : Prop :=
  ∀ table cond params, r.op = .delete table cond params → ∃ text spec ks p st lines,
    cond = some text ∧ schema.table table = some spec
      -- the keys that were decided on are the ones the clause selects before the write
      ∧ matchLive env spec r.before.tables text params = .ok ks ∧ r.decision = .keys spec ks
      ∧ ks = ((visible none none (r.before.tables spec.name)).filter p).map (fun x => x.key.fetch)
      ∧ r.decision.matched = some lines.length
      ∧ r.after.files = r.before.files ++ lines
      ∧ List.Forall₂ (Buries spec st) ks lines
      ∧ (r.after.tables spec.name).rows = (r.before.tables spec.name).rows.map (markIf p st)
      ∧ (∀ name, name ≠ spec.name → r.after.tables name = r.before.tables name)
      ∧ r.after.index = r.before.index ∧ r.after.fts = r.before.fts

section Delete

variable {env : Env} {schema : Schema}

/-- A key as it is fetched prints as the text the key is compared by. -/
theorem fetch_str {spec : TableSpec} {c : Cell} (h : KeyCell spec c) (h0 : c ≠ .null)
    (repr : Json → String) : c.text = some (c.fetch.str repr) := by
  rcases h.resolve_left h0 with ⟨-, s, rfl⟩ | ⟨-, i, rfl⟩ <;> rfl

/-- The UPDATE by the texts of the matched keys marks the matched rows. -/
theorem mark_eq_markIf {repr : Json → String} {spec : TableSpec} {t : PhysTable} {p : Row → Bool}
    {st : Stamp} (hrows : ∀ r ∈ t.rows, r.Ok spec) {r : Row} (hr : r ∈ t.rows) :
    mark ((((visible none none t).filter p).map fun r => r.key.fetch).map (Val.str repr)) st.ds
      (some st.ts) r = markIf p st r := by
  have hiff : r.key.text ∈ ((((visible none none t).filter p).map fun r => r.key.fetch).map
      (Val.str repr)).map some ∧ r.deletedDs = none ↔ r.deletedDs = none ∧ p r.shown = true := by
    rw [and_comm]
    refine and_congr_right fun hlive => ?_
    simp only [visible, List.map_map, List.mem_map, List.mem_filter, Function.comp_apply]
    constructor
    · rintro ⟨x, ⟨⟨y, ⟨hy, -⟩, rfl⟩, hp⟩, htext⟩
      -- two rows of a table with one key text are the same row
      have hynull := t.pkNotNull y hy
      have hrnull := t.pkNotNull r hr
      have hsame : y.key = r.key := by
        refine (hrows y hy).key.text_inj (hrows r hr).key hynull hrnull ?_
        rw [← htext]
        exact fetch_str (hrows y hy).key hynull repr
      rw [List.inj_on_of_nodup_map t.pkUnique hy hr hsame] at hp
      exact hp
    · intro hp
      refine ⟨r.shown, ⟨⟨r, ⟨hr, ?_⟩, rfl⟩, hp⟩, ?_⟩
      · simp [asof, hlive]
      · exact (fetch_str (hrows r hr).key (t.pkNotNull r hr) repr).symm
  unfold mark markIf
  simp only [hiff]

/-- The tombstones of fetched keys are lines of the mirror, one for each key. -/
theorem tombstoneActs_lines {spec : TableSpec} {ks : List Val} {st : Stamp}
    (h : ∀ a ∈ tombstoneActs spec ks st, a.Dumps) :
    List.Forall₂ (Buries spec st) ks ((tombstoneActs spec ks st).flatMap Act.lines) := by
  induction ks with
  | nil => exact List.Forall₂.nil
  | cons k ks ih =>
    have hcons : tombstoneActs spec (k :: ks) st
        = .append st.ds spec.name (tombstone k st.ts) :: tombstoneActs spec ks st := rfl
    rw [hcons] at h ⊢
    have hrest := ih fun a ha => h a (List.mem_cons_of_mem _ ha)
    rcases Option.isSome_iff_exists.mp (h _ List.mem_cons_self) with ⟨m, hm⟩
    have hline : Act.lines (.append st.ds spec.name (tombstone k st.ts))
        = [⟨st.ds, spec.name, m⟩] := by
      rw [Act.lines, hm]
      rfl
    rw [List.flatMap_cons, hline]
    exact List.Forall₂.cons ⟨rfl, rfl, hm, tombstone_isTombstone hm⟩ hrest

theorem execAll_dumps {acts : List Act} {db db' : Db} (h : execAll env acts db = (db', none)) :
    ∀ a ∈ acts, a.Dumps := by
  intro a ha
  rcases mem_execAll h ha with ⟨mid, mid', hexec⟩
  exact exec_dumps hexec

/-- Appends touch nothing but the mirror. -/
theorem tombstoneActs_files {spec : TableSpec} {ks : List Val} {st : Stamp} {db db' : Db}
    (h : execAll env (tombstoneActs spec ks st) db = (db', none)) :
    db' = { db with files := db'.files } := by
  induction ks generalizing db with
  | nil =>
    rcases (Prod.mk.inj h).1 with rfl
    rfl
  | cons k ks ih =>
    rcases execAll_cons_none.mp h with ⟨mid, hexec, hrest⟩
    rcases exec_append_iff.mp hexec with ⟨m, -, rfl⟩
    have hfiles := ih hrest
    exact hfiles

/-- What the acts of a delete leave: a tombstone line for each key, and the marks. -/
theorem deleteActs_effect {spec : TableSpec} {ks : List Val} {st : Stamp} {db db' : Db}
    (h : execAll env (deleteActs env.repr spec ks st) db = (db', none)) : ∃ lines,
      db'.files = db.files ++ lines ∧ List.Forall₂ (Buries spec st) ks lines
      ∧ (db'.tables spec.name).rows = (db.tables spec.name).rows.map
        (mark (ks.map (Val.str env.repr)) st.ds (some st.ts))
      ∧ (∀ name, name ≠ spec.name → db'.tables name = db.tables name)
      ∧ db'.index = db.index ∧ db'.fts = db.fts := by
  rcases execAll_append_none.mp h with ⟨mid, htombs, hmark⟩
  rcases execAll_cons_none.mp hmark with ⟨last, hexec, hlast⟩
  rcases (Prod.mk.inj hlast).1 with rfl
  have hmid := tombstoneActs_files htombs
  have htables : mid.tables = db.tables := by rw [hmid]
  have hindex : mid.index = db.index := by rw [hmid]
  have hfts : mid.fts = db.fts := by rw [hmid]
  have hlines := tombstoneActs_lines (execAll_dumps htombs)
  have hfiles : last.files = db.files ++ (tombstoneActs spec ks st).flatMap Act.lines := by
    rw [exec_files hexec, execAll_files htombs]
    exact List.append_nil _
  refine ⟨_, hfiles, hlines, ?_⟩
  rcases exec_softDelete_iff.mp hexec with ⟨hnil, rfl⟩ | ⟨-, x, hx, rfl⟩
  · -- no key was matched, and no statement runs
    rw [hnil, mark_nil, List.map_id, htables]
    exact ⟨rfl, fun _ _ => rfl, hindex, hfts⟩
  · rw [Env.bindText_str] at hx
    rcases Option.some.inj hx with rfl
    refine ⟨?_, fun name hname => ?_, hindex, hfts⟩
    · rw [setTable_self, htables]
      rfl
    · rw [setTable_other _ _ hname, htables]

/-- A delete that was reported did what its clause says. -/
theorem delete_matched {r : Report} (h : r.Ran env schema) (hclause : r.op.Predicated env) :
    r.DeletesMatched env schema := by
  intro table cond params hop
  rw [hop] at hclause
  rcases h.acts with ⟨st, acts, hplan, hrun⟩
  have hdec := h.decided.decision
  rw [hop] at hdec
  rcases decide_delete hdec with ⟨text, spec, ks, rfl, hspec, hmatch, hd⟩
  rcases matchLive_ok hmatch with ⟨stmt, hstmt, hsel⟩
  rcases hclause stmt hstmt spec (fun name => visible none none (r.before.tables name))
    with ⟨p, hp⟩
  have hks := hp ks hsel
  rw [hd] at hplan
  rcases Except.ok.inj hplan with rfl
  rcases deleteActs_effect hrun with ⟨lines, hfiles, hlines, hrows, hother, hindex, hfts⟩
  have hmatched : r.decision.matched = some ks.length := by
    rw [hd]
    rfl
  refine ⟨text, spec, ks, p, st, lines, rfl, hspec, hmatch, hd, hks, ?_, hfiles, hlines, ?_,
    hother, hindex, hfts⟩
  · rw [hmatched, hlines.length_eq]
  · have hok : ∀ r' ∈ (r.before.tables spec.name).rows, r'.Ok spec :=
      h.decided.rows spec (schema.table_mem hspec).1
    rw [hrows]
    refine List.map_congr_left fun row hrow => ?_
    rw [hks]
    exact mark_eq_markIf hok hrow

end Delete

/-! ## Every run -/

/-- Every operation of the ledger has a property. -/
structure Batch.AllOps (P : Op → Prop) (b : Batch) : Prop where
  taken : ∀ op, b.sys.worker = .taken op → P op
  job : ∀ j ∈ b.job, P j.op
  reports : ∀ r ∈ b.reports, P r.op

section Runs

variable {env : Env} {schema : Schema} {b c : Batch}

theorem BatchLabel.WritesOnly.noReload {l : BatchLabel} (h : l.WritesOnly env) : l.NoReload := by
  cases l with
  | sys l =>
    cases l with
    | replay i => exact h.elim
    | _ => trivial
  | log | logFault => trivial

/-- An operation the worker has taken is the one it took, or had taken. -/
theorem step_taken {s t : System} {l : Label} {op : Op} (hl : BatchLabel.NoReload (.sys l))
    (hs : step env schema s l = some t) (ht : t.worker = .taken op) :
    l = .take op ∨ s.worker = .taken op := by
  cases step_moves (fun i hi => by subst hi; exact hl) hs with
  | take hw =>
    injection ht with hop
    exact Or.inl (hop ▸ rfl)
  | decide hw =>
    simp only [Worker.decide] at ht
    split at ht <;> cases ht
  | plan hw =>
    simp only [Worker.plan] at ht
    split at ht <;> cases ht
  | write | refuse | fault | finish | crash => cases ht
  | refresh | skip | settle | background => exact Or.inr ht

theorem nextJob_mem {s : System} {l : Label} {j : Running} (h : j ∈ b.nextJob s l) :
    j ∈ b.job ∨ b.sys.worker = .taken j.op := by
  unfold Batch.nextJob at h
  split at h
  · split at h
    · next op d hw hd =>
      rcases Option.some.inj h with rfl
      exact Or.inr hw
    · cases h
  · exact Or.inl h

theorem nextFinished_mem {l : Label} {r : Report} (h : r ∈ b.nextFinished l) :
    r ∈ b.finished ∨ r.toRunning ∈ b.job := by
  unfold Batch.nextFinished at h
  split at h
  · rcases List.mem_append.mp h with h | h
    · exact Or.inl h
    · rcases Option.mem_toList.mp h with h
      rcases Option.map_eq_some_iff.mp h with ⟨j, hj, rfl⟩
      exact Or.inr hj
  · cases h
  · exact Or.inl h

theorem all_ops_step {P : Op → Prop} (h : b.AllOps P) {l : BatchLabel} (hl : l.NoReload)
    (hP : ∀ op, l = .sys (.take op) → P op) (hs : batchStep env schema b l = some c) :
    c.AllOps P := by
  cases l with
  | sys l =>
    rcases batchStep_sys hs with ⟨-, s, hstep, rfl⟩
    refine ⟨fun op hop => ?_, fun j hj => ?_, fun r hr => ?_⟩
    · rcases step_taken hl hstep hop with rfl | hold
      · exact hP op rfl
      · exact h.taken op hold
    · rcases nextJob_mem hj with hold | hold
      · exact h.job j hold
      · exact h.taken j.op hold
    · rcases List.mem_append.mp hr with hr | hr
      · exact h.reports r (List.mem_append_left _ hr)
      · rcases nextFinished_mem hr with hold | hold
        · exact h.reports r (List.mem_append_right _ hold)
        · exact h.job r.toRunning hold
  | log =>
    rcases batchStep_log hs with ⟨-, r, rest, hf, rfl⟩
    refine ⟨h.taken, h.job, fun r' hr' => h.reports r' ?_⟩
    rw [Batch.reports, hf]
    rw [Batch.reports, List.append_assoc] at hr'
    exact hr'
  | logFault =>
    rcases batchStep_logFault hs with ⟨-, rfl⟩
    refine ⟨h.taken, h.job, fun r' hr' => h.reports r' (List.mem_append_left _ ?_)⟩
    rw [Batch.reports, List.append_nil] at hr'
    exact hr'

theorem all_ops_run {labels : List BatchLabel} (hl : ∀ l ∈ labels, l.WritesOnly env)
    (hrun : run (batchStep env schema) Batch.init labels = some b) :
    b.AllOps (Op.Predicated env) := by
  have hguard : Guarded (batchStep env schema) (fun _ l => l.WritesOnly env) Batch.init labels :=
    Guarded.of_forall fun l hlm _ => hl l hlm
  have hinit : Batch.init.AllOps (Op.Predicated env) := by
    refine ⟨fun op hop => ?_, fun j hj => ?_, fun r hr => ?_⟩
    · cases hop
    · cases hj
    · cases hr
  refine run_guarded (fun x l y hx hg hs => ?_) hinit hguard hrun
  exact all_ops_step hx hg.noReload (fun op hop => by subst hop; exact hg) hs

end Runs

/-- The steps of an operation of `n` acts, its task, and its answer. -/
def reportLabels (st : Stamp) (op : Op) (n : Nat) : List BatchLabel :=
  ([.take op, .decide, .plan st] ++ List.replicate n .write ++ [.finish] : List Label).map .sys
    ++ [.log, .sys .settle]

instance : (l : BatchLabel) → Decidable l.NoReload
  | .sys (.replay _) => isFalse id
  | .log | .logFault => isTrue trivial
  | .sys (.take _) | .sys .decide | .sys (.plan _) | .sys .write | .sys .fault | .sys .finish
  | .sys .refresh | .sys .refreshFault | .sys .settle | .sys (.rebuild _) | .sys (.read _)
  | .sys (.stop _) | .sys .crash => isTrue trivial

theorem plain_predicated (op : Op) : op.Predicated plainEnv := by
  cases op with
  | insert table rows skip => trivial
  | delete table cond params =>
    cases cond with
    | none => trivial
    | some text =>
      intro stmt _ spec views
      show ∃ p : Row → Bool, ∀ ks, plainSelect spec stmt params views = .ok ks → _
      unfold plainSelect
      split
      · refine ⟨fun _ => true, fun ks hks => ?_⟩
        rw [List.filter_eq_self.mpr fun _ _ => rfl]
        exact (Except.ok.inj hks).symm
      · split
        · exact ⟨_, fun ks hks => (Except.ok.inj hks).symm⟩
        · exact ⟨fun _ => true, fun ks hks => by cases hks⟩

theorem plain_writesOnly {l : BatchLabel} (h : l.NoReload) : l.WritesOnly plainEnv := by
  cases l with
  | sys l =>
    cases l with
    | take op => exact plain_predicated op
    | replay i => exact h.elim
    | _ => trivial
  | log | logFault => trivial

/-- A note, its replay by a stream, its deletion, and a strict insert of the same key. -/
def noteLedger : List BatchLabel :=
  reportLabels ⟨"20260102", "t1", t1_ne⟩ (.insert "notes"
      [[("id", strVal "n1"), ("text", strVal "v1")]] false) 2
    ++ reportLabels ⟨"20260103", "t2", t2_ne⟩ (.insert "notes"
      [[("id", strVal "n1"), ("text", strVal "v2")]] true) 0
    ++ reportLabels ⟨"20260104", "t3", t3_ne⟩ (.delete "notes" (some "id = ?")
      [strVal "n1"]) 2
    ++ [.sys (.take (.insert "notes" [[("id", strVal "n1"), ("text", strVal "v3")]] false)),
      .sys .decide]

end Seekbase
