/-
# Seekbase.Done — a done task and the whole of what it stands for.

A task is the last thing a batch writes, so that a done task means the files, the table and the
search index have the rows.  Before the tasks come the full-text snapshots of the tables the batch
touched, and there an error is suppressed: the batch goes on and logs its tasks over a snapshot that
was never taken.

* `Report.Complete`  — every row an insert wrote is in the mirror, the table and the search index;
* `done_is_complete` — in every run in which no snapshot fails and no rebuild writes, every insert
                       that is logged as done is complete in EVERY later state;
* `done_without_snapshot` — one failing snapshot, and a task is done whose row no search finds.
-/
import Seekbase.WriteOnce

namespace Seekbase

open JsonText Transition

/-! ## Complete inserts -/

section Complete

variable (env : Env)

/-- The row of a record is in the table: the row it was stored as, aged at most. -/
def Db.HoldsRow (db : Db) (spec : TableSpec) (base : Row) : Prop :=
  ∃ row ∈ (db.tables spec.name).rows, base.Ages row

/-- The record at a place of a batch is in the mirror, in the table and in the search index. -/
structure RecordIn (db : Db) (spec : TableSpec) (rs : List Record)
    (emb : List (String × List Search)) (st : Stamp) (i : Nat) (r : Record) : Prop where
  mirror : ∃ m, (putLine spec r st.ds st.ts).toMembers? = some m
    ∧ (⟨st.ds, spec.name, m⟩ : Line) ∈ db.files
  table : ∃ base, env.newRow spec r (searchAt spec emb i) (strVal st.ds) (strVal st.ts) = .ok base
    ∧ db.HoldsRow spec base
    ∧ (env.vss = true → spec.searchable ≠ [] →
      (base.key, base.search.map Prod.snd) ∈ db.fts spec.name)
  dataset : env.indexes spec = true →
    ∀ x, (lancePayload env spec rs emb)[i]? = some x → x ∈ db.index spec.name

/-- Every row an operation wrote is where a search or a rebuild will look for it. -/
def Report.Complete (r : Report) (db : Db) : Prop :=
  ∀ spec rs, r.decision = .records spec rs → rs ≠ [] → ∃ emb st,
    embedRecords env spec rs = .ok emb
      ∧ ∀ i x, rs[i]? = some x → RecordIn env db spec rs emb st i x

/-- The snapshot of the table has every row there was when the operation ended. -/
def Report.Snapped (r : Report) (db : Db) : Prop :=
  ∀ spec ∈ r.decision.fts env, env.vss = true → spec.searchable ≠ [] →
    ftsRows (r.after.tables spec.name) ⊆ db.fts spec.name

end Complete

section Snapshots

variable {env : Env} {schema : Schema}

theorem ftsRows_grew {a b : Db} (h : a.Grew b) (name : String) :
    ftsRows (a.tables name) ⊆ ftsRows (b.tables name) := by
  intro x hx
  rcases List.mem_map.mp hx with ⟨row, hrow, rfl⟩
  rcases h.mem hrow with ⟨row', hrow', hage⟩
  refine List.mem_map.mpr ⟨row', hrow', ?_⟩
  rw [hage.key, hage.search]

/-- A snapshot has no row that the table has not. -/
def Db.SnapshotsOld (db : Db) : Prop := ∀ name, db.fts name ⊆ ftsRows (db.tables name)

/-- An act that takes nothing back takes nothing out of a snapshot. -/
theorem exec_fts {a : Act} {db db' : Db} (hgrew : db.Grew db') (hold : db.SnapshotsOld)
    (h : exec env a db = .ok db') :
    (∀ name, db.fts name ⊆ db'.fts name) ∧ db'.SnapshotsOld := by
  have hsame : db'.fts = db.fts →
      (∀ name, db.fts name ⊆ db'.fts name) ∧ db'.SnapshotsOld := by
    intro hfts
    refine ⟨fun name => ?_, fun name => ?_⟩
    · rw [hfts]
      exact List.Subset.refl _
    · rw [hfts]
      exact List.Subset.trans (hold name) (ftsRows_grew hgrew name)
  cases a with
  | append ds table line =>
    rcases exec_append_iff.mp h with ⟨m, -, rfl⟩
    exact hsame rfl
  | insert spec r search ds ca =>
    rcases exec_insert_iff.mp h with ⟨row, t, -, -, -, -, rfl⟩
    exact hsame rfl
  | softDelete spec keys ds at' =>
    rcases exec_softDelete_iff.mp h with ⟨-, rfl⟩ | ⟨-, x, -, rfl⟩ <;> exact hsame rfl
  | clear spec =>
    rcases Except.ok.inj h with rfl
    exact hsame rfl
  | rebuildFts spec =>
    rcases Except.ok.inj h with rfl
    by_cases hc : env.vss = true ∧ spec.searchable ≠ []
    · rw [if_pos hc]
      refine ⟨fun name => ?_, fun name => ?_⟩
      · by_cases hn : name = spec.name
        · subst hn
          show _ ⊆ Function.update db.fts spec.name _ spec.name
          rw [Function.update_self]
          exact hold spec.name
        · show _ ⊆ Function.update db.fts spec.name _ name
          rw [Function.update_of_ne hn]
          exact List.Subset.refl _
      · by_cases hn : name = spec.name
        · subst hn
          show Function.update db.fts spec.name _ spec.name ⊆ _
          rw [Function.update_self]
          exact List.Subset.refl _
        · show Function.update db.fts spec.name _ name ⊆ _
          rw [Function.update_of_ne hn]
          exact hold name
    · refine hsame ?_
      rw [if_neg hc]
  | indexAppend spec rows | indexOverwrite spec rows =>
    simp only [exec] at h
    split at h
    · rcases Except.ok.inj h with rfl
      exact hsame rfl
    · cases h

/-- A refresh takes the table as it is. -/
theorem refresh_fts {spec : TableSpec} {db db' : Db} (h : exec env (.rebuildFts spec) db = .ok db')
    (hvss : env.vss = true) (hs : spec.searchable ≠ []) :
    db'.fts spec.name = ftsRows (db.tables spec.name) := by
  rcases Except.ok.inj h with rfl
  rw [if_pos ⟨hvss, hs⟩]
  exact Function.update_self _ _ _

end Snapshots

/-! ## Runs without a failing snapshot -/

/-- No snapshot fails, and no rebuild writes. -/
def BatchLabel.Refreshes : BatchLabel → Prop
  | .sys (.replay _) | .sys .refreshFault => False
  | _ => True

/-- Where the snapshots stand: behind every logged task, and behind or still before every operation
of the batch. -/
structure Batch.Indexed (env : Env) (b : Batch) : Prop where
  old : b.sys.db.SnapshotsOld
  logged : ∀ r ∈ b.logged, r.Snapped env b.sys.db
  finished : ∀ r ∈ b.finished, r.Snapped env b.sys.db
    ∨ ∃ spec ∈ r.decision.fts env, spec ∈ b.sys.touched

section Runs

variable {env : Env} {schema : Schema} {b c : Batch}

theorem BatchLabel.Refreshes.noReload {l : BatchLabel} (h : l.Refreshes) : l.NoReload := by
  cases l with
  | sys l =>
    cases l with
    | replay i => exact h.elim
    | _ => trivial
  | log | logFault => trivial

theorem Report.Snapped.mono {r : Report} {db db' : Db} (h : r.Snapped env db)
    (hsub : ∀ name, db.fts name ⊆ db'.fts name) : r.Snapped env db' :=
  fun spec hspec hvss hs => List.Subset.trans (h spec hspec hvss hs) (hsub spec.name)

theorem sys_fts (ht : b.Traced env schema) (hold : b.sys.db.SnapshotsOld) {l : Label} {s : System}
    (hl : BatchLabel.NoReload (.sys l)) (hs : step env schema b.sys l = some s) :
    (∀ name, b.sys.db.fts name ⊆ s.db.fts name) ∧ s.db.SnapshotsOld := by
  rcases step_db hl hs with hsame | ⟨spec, he⟩ | ⟨fts, done, a, todo, hw, he⟩
  · rw [hsame]
    exact ⟨fun _ => List.Subset.refl _, hold⟩
  · exact exec_fts (sys_grew ht hl hs) hold he
  · exact exec_fts (sys_grew ht hl hs) hold he

/-- A step that leaves the batch and its tables as they are. -/
theorem Batch.Indexed.keep (h : b.Indexed env) {s : System} {job : Option Running}
    (hfts : (∀ name, b.sys.db.fts name ⊆ s.db.fts name) ∧ s.db.SnapshotsOld)
    (htouched : s.touched = b.sys.touched) :
    Batch.Indexed env ⟨s, job, b.finished, b.logged⟩ where
  old := hfts.2
  logged := fun r hr => (h.logged r hr).mono hfts.1
  finished := by
    intro r hr
    rcases h.finished r hr with hsnap | ⟨spec, hspec, hin⟩
    · exact Or.inl (hsnap.mono hfts.1)
    · refine Or.inr ⟨spec, hspec, ?_⟩
      show spec ∈ s.touched
      rw [htouched]
      exact hin

/-- The operation that ends leaves its table to the refresh. -/
theorem finish_indexed (ht : b.Traced env schema) (h : b.Indexed env) {s : System}
    {fts : Option TableSpec} {done : List Act} {job : Option Running}
    (hw : b.sys.worker = .acting fts done []) (hdb : s.db = b.sys.db)
    (htouched : s.touched = b.sys.touched ++ fts.toList) :
    Batch.Indexed env ⟨s, job, b.nextFinished .finish, b.logged⟩ := by
  have htraced := ht.worker
  rw [hw] at htraced
  rcases htraced with ⟨j, hj, -, rfl, -⟩
  refine ⟨hdb ▸ h.old, fun r hr => hdb ▸ h.logged r hr, fun r hr => ?_⟩
  show _ ∨ ∃ spec, _ ∧ spec ∈ s.touched
  rw [htouched, hdb]
  rcases List.mem_append.mp hr with hr | hr
  · rcases h.finished r hr with hsnap | ⟨spec, hspec, hin⟩
    · exact Or.inl hsnap
    · exact Or.inr ⟨spec, hspec, List.mem_append_left _ hin⟩
  · rw [Option.mem_def.mp hj] at hr
    rcases List.mem_singleton.mp hr with rfl
    by_cases hnone : j.decision.fts env = none
    · refine Or.inl fun spec hspec => ?_
      rw [show (Report.mk j b.sys.db).decision.fts env = none from hnone] at hspec
      cases hspec
    · rcases Option.ne_none_iff_exists'.mp hnone with ⟨spec, hspec⟩
      refine Or.inr ⟨spec, hspec, List.mem_append_right _ ?_⟩
      rw [hspec]
      exact List.mem_singleton_self spec

/-- The refresh makes the snapshot that the first table waited for. -/
theorem refresh_indexed (ht : b.Traced env schema) (h : b.Indexed env) {s : System}
    {spec : TableSpec} {rest : List TableSpec} {job : Option Running}
    (hfts : (∀ name, b.sys.db.fts name ⊆ s.db.fts name) ∧ s.db.SnapshotsOld)
    (htouched : b.sys.touched = spec :: rest) (hrest : s.touched = rest)
    (he : exec env (.rebuildFts spec) b.sys.db = .ok s.db) :
    Batch.Indexed env ⟨s, job, b.finished, b.logged⟩ := by
  refine ⟨hfts.2, fun r hr => (h.logged r hr).mono hfts.1, fun r hr => ?_⟩
  rcases h.finished r hr with hsnap | ⟨other, hother, hin⟩
  · exact Or.inl (hsnap.mono hfts.1)
  · rw [htouched] at hin
    rcases List.mem_cons.mp hin with rfl | hin
    · refine Or.inl fun spec' hspec' hvss hs' => ?_
      rcases Option.some.inj (hother.symm.trans hspec') with rfl
      show _ ⊆ s.db.fts other.name
      rw [refresh_fts he hvss hs']
      exact ftsRows_grew (ht.grew r (List.mem_append_right _ hr)) other.name
    · exact Or.inr ⟨other, hother, hrest ▸ hin⟩

theorem sys_indexed (ht : b.Traced env schema) (h : b.Indexed env) {l : Label} {s : System}
    (hl : BatchLabel.Refreshes (.sys l)) (hs : step env schema b.sys l = some s) :
    Batch.Indexed env ⟨s, b.nextJob s l, b.nextFinished l, b.logged⟩ := by
  have hfts := sys_fts ht h.old hl.noReload hs
  obtain ⟨i, r, rfl, -, -⟩ | hm := step_cases hs
  · exact hl.elim
  · cases hm with
    | take | decide | plan | write | refuse | fault | settle => exact h.keep hfts rfl
    | finish hw => exact finish_indexed ht h hw rfl rfl
    | refresh hw htouched he => exact refresh_indexed ht h hfts htouched rfl he
    | skip hw htouched hl' =>
      -- a snapshot does not fail, and no step here makes it fail
      rcases hl' with rfl | rfl
      · simp only [step, hw, htouched] at hs
        split at hs
        · next db he =>
          have hdb : db = b.sys.db := congrArg System.db (Option.some.inj hs)
          exact refresh_indexed ht h hfts htouched rfl (hdb ▸ he)
        · next he => cases he
      · exact hl.elim
    | background hl' =>
      cases l with
      | rebuild | read | stop => exact h.keep hfts rfl
      | _ => exact hl'.elim
    | crash => exact ⟨hfts.2, fun r hr => (h.logged r hr).mono hfts.1, fun r hr => by cases hr⟩

theorem batch_step_indexed (ht : b.Traced env schema) (h : b.Indexed env) {l : BatchLabel}
    (hl : l.Refreshes) (hs : batchStep env schema b l = some c) : c.Indexed env := by
  cases l with
  | sys l =>
    rcases batchStep_sys hs with ⟨-, s, hstep, rfl⟩
    exact sys_indexed ht h hl hstep
  | log =>
    rcases batchStep_log hs with ⟨htouched, r, rest, hf, rfl⟩
    refine ⟨h.old, fun r' hr' => ?_, fun r' hr' => h.finished r' ?_⟩
    · rcases List.mem_append.mp hr' with hr' | hr'
      · exact h.logged r' hr'
      · rcases List.mem_singleton.mp hr' with rfl
        -- nothing is touched any more when the first task is appended
        rcases h.finished r' (by rw [hf]; exact List.mem_cons_self) with hsnap | ⟨spec, -, hin⟩
        · exact hsnap
        · rw [htouched] at hin
          cases hin
    · rw [hf]
      exact List.mem_cons_of_mem _ hr'
  | logFault =>
    rcases batchStep_logFault hs with ⟨-, rfl⟩
    exact ⟨h.old, h.logged, fun r hr => by cases hr⟩

theorem batch_indexed {labels : List BatchLabel} (hl : ∀ l ∈ labels, l.Refreshes)
    (hrun : run (batchStep env schema) Batch.init labels = some b) :
    b.Traced env schema ∧ b.Indexed env := by
  have hguard : Guarded (batchStep env schema) (fun _ l => l.Refreshes) Batch.init labels :=
    Guarded.of_forall fun l hlm _ => hl l hlm
  have hinit : Batch.init.Indexed env := by
    refine ⟨fun name x hx => ?_, fun r hr => ?_, fun r hr => ?_⟩
    · cases hx
    · cases hr
    · cases hr
  refine run_guarded (I := fun x => x.Traced env schema ∧ x.Indexed env) ?_
    ⟨batch_init_traced, hinit⟩ hguard hrun
  rintro x l y ⟨hx, hidx⟩ hg hs
  exact ⟨batch_step_traced hx hg.noReload hs, batch_step_indexed hx hidx hg hs⟩

end Runs

/-! ## What was done is there -/

section Found

variable {env : Env} {schema : Schema}

/-- The acts of a completed insert left the record of each place in the mirror, the table and the
side dataset, and nothing has taken it out since. -/
theorem insert_left {spec : TableSpec} {rs : List Record} {emb : List (String × List Search)}
    {st : Stamp} {before after db : Db}
    (hadds : ∀ a ∈ insertActs env spec rs emb st, a.Adds schema) (hok : before.RowsOk schema)
    (hrun : execAll env (insertActs env spec rs emb st) before = (after, none))
    (hgrew : after.Grew db)
    (hsnap : env.vss = true → spec.searchable ≠ [] →
      ftsRows (after.tables spec.name) ⊆ db.fts spec.name)
    {i : Nat} {r : Record} (hr : rs[i]? = some r) : RecordIn env db spec rs emb st i r := by
  rcases List.getElem?_eq_some_iff.mp hr with ⟨hi, rfl⟩
  have hput : Act.append st.ds spec.name (putLine spec rs[i] st.ds st.ts)
      ∈ insertActs env spec rs emb st := by
    rw [insertActs, List.append_assoc]
    exact List.mem_append_left _ (List.mem_map_of_mem (List.getElem_mem hi))
  have hins : Act.insert spec rs[i] (searchAt spec emb i) (strVal st.ds) (strVal st.ts)
      ∈ insertActs env spec rs emb st := by
    rw [insertActs]
    exact List.mem_append_left _ (List.mem_append_right _ (List.mem_mapIdx.mpr ⟨i, hi, rfl⟩))
  refine ⟨?_, ?_, fun hidx x hx => ?_⟩
  · rcases mem_execAll_grew hadds hok hrun hput with ⟨mid, mid', hexec, hmid⟩
    rcases exec_append_iff.mp hexec with ⟨m, hm, rfl⟩
    refine ⟨m, hm, (hmid.trans hgrew).files.subset ?_⟩
    exact List.mem_append_right _ (List.mem_singleton_self _)
  · rcases mem_execAll_grew hadds hok hrun hins with ⟨mid, mid', hexec, hmid⟩
    rcases exec_insert_iff.mp hexec with ⟨base, t, hbase, -, -, ht, rfl⟩
    have hin : base ∈ ((mid.setTable spec.name t).tables spec.name).rows := by
      rw [setTable_self, ht]
      exact List.mem_append_right _ (List.mem_singleton_self _)
    rcases hmid.mem hin with ⟨row, hrow, hage⟩
    refine ⟨base, hbase, (hmid.trans hgrew).mem hin, fun hvss hs => hsnap hvss hs ?_⟩
    refine List.mem_map.mpr ⟨row, hrow, ?_⟩
    rw [hage.key, hage.search]
  · have hne : rs ≠ [] := List.ne_nil_of_mem (List.getElem_mem hi)
    have hact : Act.indexAppend spec (lancePayload env spec rs emb)
        ∈ insertActs env spec rs emb st := by
      rw [insertActs, indexActs, if_pos ⟨hidx, hne⟩]
      exact List.mem_append_right _ (List.mem_singleton_self _)
    rcases mem_execAll_grew hadds hok hrun hact with ⟨mid, mid', hexec, hmid⟩
    simp only [exec] at hexec
    split at hexec
    · rcases Except.ok.inj hexec with rfl
      refine ((hmid.trans hgrew).index spec.name).subset ?_
      show x ∈ Function.update mid.index spec.name _ spec.name
      rw [Function.update_self]
      exact List.mem_append_right _ (List.mem_of_getElem? hx)
    · cases hexec

theorem ran_complete {r : Report} (h : r.Ran env schema) {db : Db} (hgrew : r.after.Grew db)
    (hsnap : r.Snapped env db) : r.Complete env db := by
  intro spec rs hd hne
  rcases h.acts with ⟨st, acts, hplan, hrun⟩
  have hadds := h.decided.adds hplan
  rw [hd] at hplan
  match rs, hne with
  | x :: xs, hne =>
  rcases plan_cons hplan with ⟨emb, hemb, rfl⟩
  refine ⟨emb, st, hemb, fun i y hy => insert_left hadds h.decided.rows hrun hgrew ?_ hy⟩
  intro hvss hs
  refine hsnap spec ?_ hvss hs
  have hembedder : env.embedder.isSome = true := (Bool.and_eq_true_iff.mp hvss).2
  rw [hd, Decision.fts, if_pos hembedder]
  rfl

/-- Every insert the log calls done is complete, in every state a run without a failing snapshot
reaches. -/
theorem done_is_complete {labels : List BatchLabel} {b : Batch} (hl : ∀ l ∈ labels, l.Refreshes)
    (hrun : run (batchStep env schema) Batch.init labels = some b) :
    ∀ r ∈ b.logged, r.Complete env b.sys.db := by
  intro r hr
  rcases batch_indexed hl hrun with ⟨htraced, hindexed⟩
  have hmem : r ∈ b.reports := List.mem_append_left _ hr
  exact ran_complete (htraced.ran r hmem) (htraced.grew r hmem) (hindexed.logged r hr)

end Found

/-! ## A snapshot that fails -/

def searchSchema : Schema := ⟨[searchNotes], searchNotes_nodup⟩

/-- An embedder whose vectors are the texts. -/
def textEmbedder : Embedder where
  dim := 1
  embed texts := .ok (texts.map fun t => ⟨[t]⟩)
  tok t := t

def searchEnv : Env := { plainEnv with embedder := some textEmbedder }

/-- A note whose batch ends with a refresh, or with one that fails. -/
def noteBatch (last : Label) : List BatchLabel :=
  ([.take (.insert "notes" [[("id", strVal "n1"), ("text", strVal "v1")]] false), .decide,
    .plan ⟨"20260102", "t1", t1_ne⟩, .write, .write, .finish, last] : List Label).map .sys
    ++ [.log, .sys .settle]

theorem done_is_complete_note : ∃ b,
    run (batchStep searchEnv searchSchema) Batch.init (noteBatch .refresh) = some b
      ∧ b.logged.length = 1 ∧ ∀ r ∈ b.logged, r.Complete searchEnv b.sys.db := by
  have hlen : (run (batchStep searchEnv searchSchema) Batch.init (noteBatch .refresh)).map
      (fun b => b.logged.length) = some 1 := by decide
  rcases Option.map_eq_some_iff.mp hlen with ⟨b, hrun, hone⟩
  refine ⟨b, hrun, hone, done_is_complete (fun l hl => ?_) hrun⟩
  simp only [noteBatch, List.map_cons, List.map_nil, List.cons_append, List.nil_append,
    List.mem_cons, List.not_mem_nil, or_false] at hl
  rcases hl with rfl | rfl | rfl | rfl | rfl | rfl | rfl | rfl | rfl <;> trivial

/-- The operation wrote a row of a table whose search columns are in a snapshot. -/
def Report.wroteTo (name : String) (r : Report) : Bool :=
  match r.decision with
  | .records spec rs => spec.name == name && !rs.isEmpty && !spec.searchable.isEmpty
  | .keys _ _ => false

/-- A row in no snapshot. -/
theorem incomplete_of_empty {env : Env} {db : Db} {r : Report} {name : String}
    (hr : r.wroteTo name = true) (hvss : env.vss = true) (hfts : db.fts name = []) :
    ¬ r.Complete env db := by
  intro h
  unfold Report.wroteTo at hr
  split at hr
  · next spec rs hd =>
    simp only [Bool.and_eq_true, beq_iff_eq, Bool.not_eq_true', List.isEmpty_eq_false_iff] at hr
    rcases hr with ⟨⟨rfl, hne⟩, hs⟩
    rcases h spec rs hd hne with ⟨emb, st, -, hall⟩
    rcases List.exists_cons_of_ne_nil hne with ⟨x, xs, rfl⟩
    rcases (hall 0 x rfl).table with ⟨base, -, -, hin⟩
    have hmem := hin hvss hs
    rw [hfts] at hmem
    cases hmem
  · cases hr

/-- The refresh fails, the task is logged and the future resolved, and the snapshot is empty. -/
theorem done_without_snapshot : ∃ b,
    run (batchStep searchEnv searchSchema) Batch.init (noteBatch .refreshFault) = some b
      ∧ b.sys.acked.length = 1 ∧ ¬ ∀ r ∈ b.logged, r.Complete searchEnv b.sys.db := by
  have hsome : (run (batchStep searchEnv searchSchema) Batch.init (noteBatch .refreshFault)).map
      (fun b => (b.sys.acked.length, (b.sys.db.fts "notes").isEmpty,
        b.logged.any (Report.wroteTo "notes"))) = some (1, true, true) := by decide
  rcases Option.map_eq_some_iff.mp hsome with ⟨b, hrun, hb⟩
  rcases Prod.mk.inj hb with ⟨hacked, hb⟩
  rcases Prod.mk.inj hb with ⟨hfts, hlogged⟩
  rcases List.any_eq_true.mp hlogged with ⟨r, hr, hwrote⟩
  refine ⟨b, hrun, hacked, fun hall => ?_⟩
  exact incomplete_of_empty hwrote rfl (List.isEmpty_iff.mp hfts) (hall r hr)

end Seekbase
