/-
# Seekbase.Whole — what a read sees: whole operations, or the middle of one.

Reads run on cursors of their own, beside the bridge.  Every statement of a write commits for itself,
so a read sees the tables as they are between two STATEMENTS; whether it sees them as they are
between two OPERATIONS depends on how many statements an operation has that a read can see.

* `View`        — what a read can see: the tables, the side datasets and the snapshots, no file;
* `readStep`    — `System` with queries between its steps, and the operations that ran to their last
                  statement;
* `serial`      — the specification: the same operations, each in ONE step;
* `reads_whole` — in every run of operations with a single statement to be seen, every query is
                  answered from a state of `serial`;
* `insert_middle` — and every larger batch has a middle that a read can see;
* `read_inside_batch` — two rows in one insert, and a query is answered from neither side of it.
-/
import Seekbase.Atomicity
import Seekbase.Batch

namespace Seekbase

open JsonText Transition

/-- What a statement on a read cursor can see. -/
structure View where
  tables : String → PhysTable
  index : String → List IndexRow
  fts : String → List FtsRow

def Db.view (db : Db) : View := ⟨db.tables, db.index, db.fts⟩

/-! ## The specification: each operation in one step -/

section Spec

variable (env : Env) (schema : Schema)

/-- A batch of one operation, up to the snapshot its table needs. -/
def wholeOp (db : Db) (so : Stamp × Op) : Db :=
  let after := (execute env schema so.1 so.2 db).1
  match decideOp env schema db.tables so.2 with
  | .ok d =>
    match d.fts env with
    | some spec => (exec env (.rebuildFts spec) after).toOption.getD after
    | none => after
  | .error _ => after

/-- The state after these operations, one after another. -/
def serial (ops : List (Stamp × Op)) : Db := ops.foldl (wholeOp env schema) Db.init

end Spec

/-! ## Queries between the statements -/

/-- The store with its readers: the operation the worker is at, the operations whose statements have
all run, and the queries answered so far. -/
structure Reading (κ β : Type) where
  sys : System
  op : Option Op
  stamped : Option (Stamp × Op)
  ops : List (Stamp × Op)
  answers : List (κ × β)

inductive ReadLabel (κ : Type) where
  | sys (l : Label)
  | query (q : κ)

section Readers

variable {κ β : Type} (eval : κ → View → β) (env : Env) (schema : Schema)

def Reading.init : Reading κ β := ⟨System.init, none, none, [], []⟩

def Reading.nextOp (r : Reading κ β) : Label → Option Op
  | .decide =>
    match r.sys.worker with
    | .taken op => some op
    | _ => r.op
  | _ => r.op

def Reading.nextStamped (r : Reading κ β) : Label → Option (Stamp × Op)
  | .plan st => r.op.map fun op => (st, op)
  | _ => r.stamped

/-- The last statement of an operation has run. -/
def Reading.nextOps (r : Reading κ β) (s : System) : Label → List (Stamp × Op)
  | .write =>
    match s.worker with
    | .acting _ _ [] => r.ops ++ r.stamped.toList
    | _ => r.ops
  | _ => r.ops

/-- A step of the store, or a query answered from the state there is. -/
def readStep (r : Reading κ β) : ReadLabel κ → Option (Reading κ β)
  | .sys l => (step env schema r.sys l).map fun s =>
      ⟨s, r.nextOp l, r.nextStamped l, r.nextOps s l, r.answers⟩
  | .query q => some { r with answers := r.answers ++ [(q, eval q r.sys.db.view)] }

/-- An operation whose writes a read can only see all at once: a delete, or an insert of at most one
row into a table that no search index goes with. -/
def Decision.Single : Decision → Prop
  | .records spec rs => rs.length ≤ 1 ∧ (env.embedder = none ∨ spec.searchable = [])
  | .keys _ _ => True

/-- Only such operations are planned, and no rebuild writes. -/
def SingleStatement (r : Reading κ β) : ReadLabel κ → Prop
  | .sys (.plan _) =>
    match r.sys.worker with
    | .decided d => d.Single env
    | _ => True
  | .sys (.replay _) => False
  | _ => True

instance : (d : Decision) → Decidable (d.Single env)
  | .records _ _ => inferInstanceAs (Decidable (_ ∧ _))
  | .keys _ _ => isTrue trivial

instance (r : Reading κ β) : (l : ReadLabel κ) → Decidable (SingleStatement env r l)
  | .sys (.plan _) =>
    match hw : r.sys.worker with
    | .decided d => decidable_of_iff (d.Single env) (by simp [SingleStatement, hw])
    | .idle | .taken _ | .acting _ _ _ => isTrue (by simp [SingleStatement, hw])
  | .sys (.replay _) => isFalse id
  | .query _ => isTrue trivial
  | .sys (.take _) | .sys .decide | .sys .write | .sys .fault | .sys .finish | .sys .refresh
  | .sys .refreshFault | .sys .settle | .sys (.rebuild _) | .sys (.read _) | .sys (.stop _)
  | .sys .crash => isTrue trivial

end Readers

/-! ## Acts and views -/

section Views

variable {env : Env} {schema : Schema}

/-- An append, which no read sees. -/
def Act.IsAppend : Act → Prop
  | .append _ _ _ => True
  | _ => False

theorem view_tables {a b : Db} (h : a.view = b.view) : a.tables = b.tables :=
  congrArg View.tables h

/-- An act does to a view what it does to a database that looks the same. -/
theorem exec_view {act : Act} {a b a' : Db} (h : a.view = b.view) (he : exec env act a = .ok a') :
    ∃ b', exec env act b = .ok b' ∧ a'.view = b'.view := by
  have ht := view_tables h
  have hi : a.index = b.index := congrArg View.index h
  have hf : a.fts = b.fts := congrArg View.fts h
  cases act with
  | append ds table line =>
    rcases exec_append_iff.mp he with ⟨m, hm, rfl⟩
    exact ⟨_, exec_append_iff.mpr ⟨m, hm, rfl⟩, h⟩
  | insert spec r search ds ca =>
    rcases exec_insert_iff.mp he with ⟨row, t, hrow, h0, hfresh, hrows, rfl⟩
    rw [ht] at hfresh hrows
    refine ⟨_, exec_insert_iff.mpr ⟨row, t, hrow, h0, hfresh, hrows, rfl⟩, ?_⟩
    simp only [Db.view, Db.setTable, ht, hi, hf]
  | softDelete spec keys ds at' =>
    rcases exec_softDelete_iff.mp he with ⟨hk, rfl⟩ | ⟨hk, x, hx, rfl⟩
    · exact ⟨b, exec_softDelete_iff.mpr (Or.inl ⟨hk, rfl⟩), h⟩
    · refine ⟨_, exec_softDelete_iff.mpr (Or.inr ⟨hk, x, hx, rfl⟩), ?_⟩
      simp only [Db.view, Db.setTable, ht, hi, hf]
  | clear spec =>
    rcases Except.ok.inj he with rfl
    refine ⟨_, rfl, ?_⟩
    simp only [Db.view, Db.setTable, ht, hi, hf]
  | rebuildFts spec =>
    rcases Except.ok.inj he with rfl
    refine ⟨_, rfl, ?_⟩
    split <;> simp only [Db.view, ht, hi, hf]
  | indexAppend spec rows | indexOverwrite spec rows =>
    simp only [exec] at he
    split at he
    · next hc =>
      rcases Except.ok.inj he with rfl
      refine ⟨_, if_pos hc, ?_⟩
      simp only [Db.view, ht, hi, hf]
    · cases he

theorem exec_append_view {act : Act} {a a' : Db} (h : act.IsAppend)
    (he : exec env act a = .ok a') : a'.view = a.view := by
  cases act with
  | append ds table line =>
    rcases exec_append_iff.mp he with ⟨m, -, rfl⟩
    rfl
  | _ => exact h.elim

/-- Appends that went through once go through on any database. -/
theorem execAll_appends {acts : List Act} (h : ∀ x ∈ acts, x.IsAppend ∧ x.Dumps) (a : Db) :
    ∃ a', execAll env acts a = (a', none) ∧ a'.view = a.view := by
  induction acts generalizing a with
  | nil => exact ⟨a, rfl, rfl⟩
  | cons x acts ih =>
    rcases h x List.mem_cons_self with ⟨happ, hdumps⟩
    match x, happ with
    | .append ds table line, _ =>
    rcases Option.isSome_iff_exists.mp hdumps with ⟨m, hm⟩
    have hx : exec env (.append ds table line) a
        = .ok { a with files := a.files ++ [⟨ds, table, m⟩] } := exec_append_iff.mpr ⟨m, hm, rfl⟩
    rcases ih (fun y hy => h y (List.mem_cons_of_mem _ hy))
      { a with files := a.files ++ [⟨ds, table, m⟩] } with ⟨a', hrun, hview⟩
    exact ⟨a', execAll_cons_none.mpr ⟨_, hx, hrun⟩, hview⟩

/-- All acts of such an operation but the last are appends. -/
theorem plan_single {st : Stamp} {d : Decision} {acts : List Act} (hd : d.Single env)
    (h : plan env st d = .ok acts) : ∀ x ∈ acts.dropLast, x.IsAppend := by
  intro x hx
  cases d with
  | records spec rs =>
    match rs, hd with
    | [], _ =>
      rcases Except.ok.inj h with rfl
      cases hx
    | [r], ⟨_, hno⟩ =>
      rcases map_ok_iff.mp h with ⟨emb, -, rfl⟩
      have hidx : indexActs env spec [r] emb = [] := by
        refine if_neg fun hc => ?_
        have hlance := hc.1
        rcases hno with hno | hno
        · simp [Env.indexes, Env.lance, hno] at hlance
        · simp [Env.indexes, hno] at hlance
      rw [insertActs, hidx, List.append_nil] at hx
      rcases List.mem_singleton.mp hx with rfl
      trivial
    | _ :: _ :: _, ⟨hlen, _⟩ =>
      simp only [List.length_cons] at hlen
      omega
  | keys spec ks =>
    rcases Except.ok.inj h with rfl
    rw [deleteActs, List.dropLast_concat] at hx
    rcases List.mem_map.mp hx with ⟨k, -, rfl⟩
    trivial

/-- What was done before the last act is appends. -/
theorem mem_dropLast {done todo : List Act} {a : Act} :
    ∀ x ∈ done, x ∈ (done ++ a :: todo).dropLast := by
  intro x hx
  rw [List.dropLast_append_of_ne_nil (by simp)]
  exact List.mem_append_left _ hx

/-- A snapshot of a table that none goes with changes nothing. -/
theorem refresh_single {spec : TableSpec} {db : Db}
    (h : env.embedder = none ∨ spec.searchable = []) : exec env (.rebuildFts spec) db = .ok db := by
  have hc : ¬ (env.vss = true ∧ spec.searchable ≠ []) := by
    rintro ⟨hvss, hs⟩
    rcases h with h | h
    · simp [Env.vss, h] at hvss
    · exact hs h
  show Except.ok _ = _
  rw [if_neg hc]

theorem single_fts {d : Decision} (hd : d.Single env) {spec : TableSpec}
    (h : d.fts env = some spec) : env.embedder = none ∨ spec.searchable = [] := by
  unfold Decision.fts at h
  split at h
  · split at h
    · rcases Option.some.inj h with rfl
      exact hd.2
    · cases h
  · cases h

/-- An operation in one step, where all of its acts go through. -/
theorem wholeOp_view {st : Stamp} {op : Op} {d : Decision} {acts : List Act} {db db' : Db}
    (hdec : decideOp env schema db.tables op = .ok d) (hd : d.Single env)
    (hplan : plan env st d = .ok acts) (hrun : execAll env acts db = (db', none)) :
    wholeOp env schema db (st, op) = db' := by
  have hexec : (execute env schema st op db).1 = db' := by
    simp only [execute, hdec, hplan, hrun]
  simp only [wholeOp, hexec, hdec]
  cases hf : d.fts env with
  | none => rfl
  | some spec =>
    simp only [refresh_single (single_fts hd hf)]
    rfl

/-- Any larger batch that completes has a middle: a point between two of its statements where its
table has more rows than before and fewer than after. -/
theorem insert_middle {spec : TableSpec} {r r' : Record} {rs : List Record}
    {emb : List (String × List Search)} {st : Stamp} {db db' : Db}
    (h : execAll env (insertActs env spec (r :: r' :: rs) emb st) db = (db', none)) :
    ∃ pre post mid, insertActs env spec (r :: r' :: rs) emb st = pre ++ post
      ∧ execAll env pre db = (mid, none)
      ∧ (db.shown spec.name).length < (mid.shown spec.name).length
      ∧ (mid.shown spec.name).length < (db'.shown spec.name).length := by
  rcases insert_stored h (r := r) List.mem_cons_self with ⟨row, hrow⟩
  rcases insert_stored h (r := r') (List.mem_cons_of_mem _ List.mem_cons_self) with ⟨row', hrow'⟩
  have hsplit : insertActs env spec (r :: r' :: rs) emb st
      = (putActs spec (r :: r' :: rs) st
        ++ [.insert spec r (searchAt spec emb 0) (strVal st.ds) (strVal st.ts)])
        ++ ((rowActs spec (r :: r' :: rs) emb st).tail ++ indexActs env spec (r :: r' :: rs) emb) := by
    simp only [insertActs, rowActs, List.mapIdx_cons, List.tail_cons, List.append_assoc,
      List.cons_append, List.nil_append]
  have hlong : (db'.shown spec.name).length
      = (db.shown spec.name).length + 2 + (rs.filterMap fun x =>
        (env.stored spec x (strVal st.ds) (strVal st.ts)).toOption).length := by
    rw [insert_shown h, rowActs_newRows, List.length_append, List.filterMap_cons, hrow,
      List.filterMap_cons, hrow']
    simp only [Except.toOption, List.length_cons]
    omega
  have hrun := h
  rw [hsplit] at hrun
  rcases execAll_append_none.mp hrun with ⟨mid, hpre, -⟩
  have hmid : (mid.shown spec.name).length = (db.shown spec.name).length + 1 := by
    rcases execAll_append_none.mp hpre with ⟨puts, hputs, hfirst⟩
    rcases execAll_cons_none.mp hfirst with ⟨last, hexec, hlast⟩
    rcases (Prod.mk.inj hlast).1 with rfl
    rw [exec_shown hexec, Act.effect, if_pos rfl, hrow, putActs_shown hputs]
    simp [Except.toOption]
  refine ⟨_, _, mid, hsplit, hpre, ?_, ?_⟩ <;> omega

theorem serial_snoc (ops : List (Stamp × Op)) (so : Stamp × Op) :
    serial env schema (ops ++ [so]) = wholeOp env schema (serial env schema ops) so := by
  simp [serial]

end Views

/-! ## Every query is answered from whole operations -/

/-- Where the worker is with its operation: as long as there is an act to do, the tables are the
ones it decided on. -/
def Worker.AtOne (env : Env) (schema : Schema) (op : Option Op) (stamped : Option (Stamp × Op))
    (db : Db) : Worker → Prop
  | .decided d => ∃ o, op = some o ∧ decideOp env schema db.tables o = .ok d
  | .acting fts done todo => ∃ st o d, stamped = some (st, o) ∧ fts = d.fts env ∧ d.Single env
    ∧ (todo ≠ [] → decideOp env schema db.tables o = .ok d
      ∧ Seekbase.plan env st d = .ok (done ++ todo) ∧ ∀ x ∈ done, x.Dumps)
  | _ => True

section Runs

variable {κ β : Type} (eval : κ → View → β) {env : Env} {schema : Schema}

/-- Each answer is the query's value after some number of whole operations. -/
def Reading.AnswersWhole (env : Env) (schema : Schema) (r : Reading κ β) : Prop :=
  ∀ x ∈ r.answers, ∃ k, k ≤ r.ops.length
    ∧ x.2 = eval x.1 (serial env schema (r.ops.take k)).view

structure Reading.Whole (env : Env) (schema : Schema) (r : Reading κ β) : Prop where
  same : r.sys.db.view = (serial env schema r.ops).view
  touched : ∀ spec ∈ r.sys.touched, env.embedder = none ∨ spec.searchable = []
  worker : r.sys.worker.AtOne env schema r.op r.stamped r.sys.db
  answers : r.AnswersWhole eval env schema

variable {eval} {r r' : Reading κ β}

theorem Reading.AnswersWhole.snoc {sys : System} {op : Option Op} {stamped : Option (Stamp × Op)}
    (h : r.AnswersWhole eval env schema) (more : List (Stamp × Op)) :
    Reading.AnswersWhole eval env schema ⟨sys, op, stamped, r.ops ++ more, r.answers⟩ := by
  intro x hx
  rcases h x hx with ⟨k, hk, heq⟩
  refine ⟨k, ?_, ?_⟩
  · rw [List.length_append]
    omega
  · show x.2 = eval x.1 (serial env schema ((r.ops ++ more).take k)).view
    rw [List.take_append_of_le_length hk]
    exact heq

/-- A step that leaves the view alone, with the worker idle or on its way. -/
theorem Reading.Whole.rest (h : r.Whole eval env schema) {s : System} {op : Option Op}
    {stamped : Option (Stamp × Op)} (hview : s.db.view = r.sys.db.view)
    (htouched : ∀ spec ∈ s.touched, env.embedder = none ∨ spec.searchable = [])
    (hw : s.worker.AtOne env schema op stamped s.db) :
    Reading.Whole eval env schema ⟨s, op, stamped, r.ops, r.answers⟩ where
  same := hview.trans h.same
  touched := htouched
  worker := hw
  answers := h.answers

/-- The write of an act: an append that no read sees, or the last act, and the operation is whole. -/
theorem write_whole (h : r.Whole eval env schema) {fts : Option TableSpec} {done todo : List Act}
    {a : Act} {db : Db} (hw : r.sys.worker = .acting fts done (a :: todo))
    (he : exec env a r.sys.db = .ok db) :
    Reading.Whole eval env schema
      ⟨{ r.sys with db := db, worker := .acting fts (done ++ [a]) todo }, r.op, r.stamped,
        r.nextOps { r.sys with db := db, worker := .acting fts (done ++ [a]) todo } .write,
        r.answers⟩ := by
  have hone := h.worker
  rw [hw] at hone
  rcases hone with ⟨st, o, d, hstamped, hfts, hsingle, hready⟩
  rcases hready (by simp) with ⟨hdec, hplan, hdumps⟩
  have happends := plan_single hsingle hplan
  match todo with
  | [] =>
    -- the same acts, from the state after the operations so far
    have hdone : ∀ x ∈ done, x.IsAppend ∧ x.Dumps := fun x hx =>
      ⟨happends x (mem_dropLast x hx), hdumps x hx⟩
    rcases execAll_appends hdone (serial env schema r.ops) with ⟨mid, hmid, hmidView⟩
    have hviews : r.sys.db.view = mid.view := h.same.trans hmidView.symm
    rcases exec_view hviews he with ⟨last, hlast, hview⟩
    have hrun : execAll env (done ++ [a]) (serial env schema r.ops) = (last, none) :=
      execAll_append_none.mpr ⟨mid, hmid, execAll_cons_none.mpr ⟨last, hlast, rfl⟩⟩
    rw [view_tables h.same] at hdec
    have hops : r.nextOps { r.sys with db := db, worker := .acting fts (done ++ [a]) [] } .write
        = r.ops ++ [(st, o)] := by
      show r.ops ++ r.stamped.toList = _
      rw [hstamped]
      rfl
    rw [hops]
    refine ⟨?_, h.touched, ⟨st, o, d, hstamped, hfts, hsingle, fun hne => absurd rfl hne⟩,
      h.answers.snoc _⟩
    show db.view = (serial env schema (r.ops ++ [(st, o)])).view
    rw [serial_snoc, wholeOp_view hdec hsingle hplan hrun]
    exact hview
  | b :: rest =>
    have ha : a.IsAppend := by
      refine happends a ?_
      rw [List.dropLast_append_of_ne_nil (by simp), List.dropLast_cons_of_ne_nil (by simp)]
      exact List.mem_append_right _ List.mem_cons_self
    have hview := exec_append_view ha he
    refine h.rest hview h.touched ⟨st, o, d, hstamped, hfts, hsingle, fun _ => ⟨?_, ?_, ?_⟩⟩
    · show decideOp env schema db.tables o = .ok d
      rw [view_tables hview]
      exact hdec
    · rw [List.append_assoc]
      exact hplan
    · intro x hx
      rcases List.mem_append.mp hx with hx | hx
      · exact hdumps x hx
      · rw [List.mem_singleton.mp hx]
        exact exec_dumps he

theorem decide_whole {o : Op} (hw : r.sys.worker = .taken o) :
    (Worker.decide env schema r.sys.db o).AtOne env schema (r.nextOp .decide) r.stamped
      r.sys.db := by
  cases hd : decideOp env schema r.sys.db.tables o with
  | error e =>
    simp only [Worker.decide, hd]
    trivial
  | ok d =>
    simp only [Worker.decide, hd, Reading.nextOp, hw]
    exact ⟨o, rfl, hd⟩

theorem plan_whole (h : r.Whole eval env schema) {st : Stamp} {d : Decision}
    (hl : SingleStatement env r (.sys (.plan st))) (hw : r.sys.worker = .decided d) :
    (Worker.plan env st d).AtOne env schema r.op (r.nextStamped (.plan st)) r.sys.db := by
  have hone := h.worker
  rw [hw] at hone
  rcases hone with ⟨o, ho, hdec⟩
  cases hp : plan env st d with
  | error e =>
    simp only [Worker.plan, hp]
    trivial
  | ok acts =>
    have hsingle : d.Single env := by
      simp only [SingleStatement, hw] at hl
      exact hl
    simp only [Worker.plan, hp, Reading.nextStamped, ho]
    exact ⟨st, o, d, rfl, rfl, hsingle, fun _ => ⟨hdec, hp, fun x hx => by cases hx⟩⟩

theorem sys_whole (h : r.Whole eval env schema) {l : Label} {s : System}
    (hl : SingleStatement env r (.sys l)) (hs : step env schema r.sys l = some s) :
    Reading.Whole eval env schema
      ⟨s, r.nextOp l, r.nextStamped l, r.nextOps s l, r.answers⟩ := by
  obtain ⟨i, b, rfl, -, -⟩ | hm := step_cases hs
  · exact hl.elim
  · cases hm with
    | take | refuse | fault => exact h.rest rfl h.touched trivial
    | decide hw => exact h.rest rfl h.touched (decide_whole hw)
    | plan hw => exact h.rest rfl h.touched (plan_whole h hl hw)
    | write hw he => exact write_whole h hw he
    | finish hw =>
      have hone := h.worker
      rw [hw] at hone
      rcases hone with ⟨st, o, d, -, rfl, hsingle, -⟩
      refine h.rest rfl (fun spec hspec => ?_) trivial
      rcases List.mem_append.mp hspec with hspec | hspec
      · exact h.touched spec hspec
      · exact single_fts hsingle (Option.mem_toList.mp hspec)
    | @refresh spec rest db hw htouched he =>
      have hsingle := h.touched spec (by rw [htouched]; exact List.mem_cons_self)
      -- the snapshot of a table that no search reads is no snapshot
      rcases Except.ok.inj ((refresh_single hsingle).symm.trans he) with rfl
      refine h.rest rfl (fun x hx => h.touched x ?_) ?_
      · rw [htouched]
        exact List.mem_cons_of_mem _ hx
      · show r.sys.worker.AtOne env schema _ _ _
        rw [hw]
        trivial
    | @skip spec rest l hw htouched hl' =>
      have hrest : ∀ x ∈ rest, env.embedder = none ∨ x.searchable = [] := fun x hx =>
        h.touched x (by rw [htouched]; exact List.mem_cons_of_mem _ hx)
      rcases hl' with rfl | rfl <;> exact h.rest rfl hrest h.worker
    | settle => exact h.rest rfl h.touched h.worker
    | background hl' =>
      cases l with
      | rebuild | read | stop => exact h.rest rfl h.touched h.worker
      | _ => exact hl'.elim
    | crash => exact h.rest rfl (fun spec hspec => by cases hspec) trivial

theorem read_step_whole (h : r.Whole eval env schema) {l : ReadLabel κ}
    (hl : SingleStatement env r l) (hs : readStep eval env schema r l = some r') :
    r'.Whole eval env schema := by
  cases l with
  | sys l =>
    rcases Option.map_eq_some_iff.mp hs with ⟨s, hstep, rfl⟩
    exact sys_whole h hl hstep
  | query q =>
    rcases Option.some.inj hs with rfl
    refine ⟨h.same, h.touched, h.worker, fun x hx => ?_⟩
    rcases List.mem_append.mp hx with hx | hx
    · exact h.answers x hx
    · rw [List.mem_singleton.mp hx]
      refine ⟨r.ops.length, Nat.le_refl _, ?_⟩
      show eval q r.sys.db.view = eval q (serial env schema (r.ops.take r.ops.length)).view
      rw [List.take_length, h.same]

/-- Where every operation of a run has a single statement to be seen, every query of the run is
answered from the state after some number of whole operations. -/
theorem reads_whole {labels : List (ReadLabel κ)}
    (hl : Guarded (readStep eval env schema) (SingleStatement env) Reading.init labels)
    (hrun : run (readStep eval env schema) Reading.init labels = some r) :
    r.AnswersWhole eval env schema := by
  have hinit : (Reading.init : Reading κ β).Whole eval env schema := by
    refine ⟨rfl, fun spec hspec => ?_, trivial, fun x hx => ?_⟩
    · cases hspec
    · cases hx
  exact (run_guarded (fun _ _ _ h hg hs => read_step_whole h hg hs) hinit hl hrun).answers

end Runs

/-- How many notes a read finds. -/
def countNotes (_ : Unit) (v : View) : Nat := (visible none none (v.tables "notes")).length

/-- An insert of these notes with a query between its last two statements, and one after it. -/
def readBeside (rows : List Record) (n : Nat) : List (ReadLabel Unit) :=
  ([.take (.insert "notes" rows false), .decide, .plan ⟨"20260102", "t1", t1_ne⟩]
      ++ List.replicate n .write : List Label).map .sys
    ++ [.query (), .sys .write, .sys .finish, .query ()]

def oneNote : List Record := [[("id", strVal "n1"), ("text", strVal "v1")]]

def twoNotes : List Record := oneNote ++ [[("id", strVal "n2"), ("text", strVal "v2")]]

theorem reads_whole_note : ∃ r,
    run (readStep countNotes plainEnv notesSchema) Reading.init (readBeside oneNote 1) = some r
      ∧ r.answers = [((), 0), ((), 1)] ∧ r.AnswersWhole countNotes plainEnv notesSchema := by
  have hsome : (run (readStep countNotes plainEnv notesSchema) Reading.init
      (readBeside oneNote 1)).map (fun r => r.answers) = some [((), 0), ((), 1)] := by decide
  rcases Option.map_eq_some_iff.mp hsome with ⟨r, hrun, hanswers⟩
  have hsingle : Guarded (readStep countNotes plainEnv notesSchema) (SingleStatement plainEnv)
      Reading.init (readBeside oneNote 1) := by decide
  exact ⟨r, hrun, hanswers, reads_whole hsingle hrun⟩

/-- Two notes in one insert: between their rows a query finds one, which is the state after no number
of whole operations. -/
theorem read_inside_batch : ∃ r,
    run (readStep countNotes plainEnv notesSchema) Reading.init (readBeside twoNotes 3) = some r
      ∧ r.ops.length = 1 ∧ ¬ r.AnswersWhole countNotes plainEnv notesSchema := by
  have hsome : (run (readStep countNotes plainEnv notesSchema) Reading.init
      (readBeside twoNotes 3)).map (fun r => (r.answers, r.ops.length,
        countNotes () (serial plainEnv notesSchema (r.ops.take 0)).view,
        countNotes () (serial plainEnv notesSchema (r.ops.take 1)).view))
      = some ([((), 1), ((), 2)], 1, 0, 2) := by decide
  rcases Option.map_eq_some_iff.mp hsome with ⟨r, hrun, hr⟩
  rcases Prod.mk.inj hr with ⟨hanswers, hr⟩
  rcases Prod.mk.inj hr with ⟨hops, hr⟩
  rcases Prod.mk.inj hr with ⟨hzero, hone⟩
  refine ⟨r, hrun, hops, fun h => ?_⟩
  have hmem : ((), 1) ∈ r.answers := by
    rw [hanswers]
    exact List.mem_cons_self
  rcases h _ hmem with ⟨k, hk, heq⟩
  rw [hops] at hk
  match k, hk with
  | 0, _ =>
    rw [hzero] at heq
    cases heq
  | 1, _ =>
    rw [hone] at heq
    cases heq

end Seekbase
