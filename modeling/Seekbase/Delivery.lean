/-
# Seekbase.Delivery — at least once into an idempotent sink: nothing lost, nothing doubled.

An offset in the side file is a promise about BYTES, the table holds ROWS, and between them lies an
insert of another service that may fail, be given up or be cut by a crash.  The tie is `Spans`: up to an
offset a file is complete lines, and every line that is not blank has its key in the table.

* `readNewLines_spec` — what a read returns: complete lines, and offsets that span them;
* `stream_insert_keys` — a reported insert of the stream has left a row under every key of its batch;
* `Feed.Sound`         — the invariant: offsets in memory and in the side file keep their promise, a
                         batch on its way owes only its own lines, what was written stands for lines;
* `stream_delivers`    — the result, over every run in which no rebuild writes.
-/
import Seekbase.Poll
import Seekbase.WriteOnce

namespace Seekbase

open JsonText Lines Transition

/-! ## What a read returns -/

section Reading

variable {maxLines : Nat} {disk : String → Bytes}

/-- Every path's offset spans what has the property. -/
def OffsetsOk (P : Bytes → Prop) (disk : String → Bytes) (offsets : Offsets) : Prop :=
  ∀ path, Spans P (disk path) ((lookup path offsets).getD 0)

/-- A line some file has. -/
def OnDisk (disk : String → Bytes) (line : Bytes) : Prop := ∃ path, line ∈ completeLines (disk path)

/-- What has been read so far: lines of the files, and offsets up to which nothing else is owed. -/
structure ReadOk (P : Bytes → Prop) (disk : String → Bytes) (lines : List Bytes) (next : Offsets) :
    Prop where
  kept : ∀ l ∈ lines, IsLine l ∧ trim l ≠ [] ∧ OnDisk disk l
  moved : ∀ kv ∈ next, Spans (fun l => P l ∨ l ∈ lines) (disk kv.1) kv.2

theorem readPaths_spec {P : Bytes → Prop} {opened : String → Option Bytes} {offsets : Offsets}
    (hopen : ∀ path content, opened path = some content → content <+: disk path)
    (hoff : OffsetsOk P disk offsets) (paths : List String) {lines : List Bytes} {next : Offsets}
    (h : ReadOk P disk lines next) :
    ReadOk P disk (readPaths maxLines opened offsets paths lines next).1
      (readPaths maxLines opened offsets paths lines next).2 := by
  induction paths generalizing lines next with
  | nil => exact h
  | cons path paths ih =>
    rw [readPaths]
    split
    · exact h
    · split
      · exact ih h
      · next content hcontent =>
        have hstart := hoff path
        rcases readChunk_spec maxLines (splitLines (content.drop
          ((lookup path offsets).getD 0))) ((lookup path offsets).getD 0) lines with
          ⟨taken, htaken, hends, heq⟩
        have hline : ∀ l ∈ taken, IsLine l := fun l hl =>
          isLine_of_mem (htaken.subset hl) (hends l hl)
        have hflat : taken.flatten <+: (disk path).drop ((lookup path offsets).getD 0) :=
          taken_prefix (hopen path content hcontent) htaken
        dsimp only
        rw [heq]
        apply ih
        constructor
        · intro l hl
          rcases List.mem_append.mp hl with hl | hl
          · exact h.kept l hl
          · rcases List.mem_filter.mp hl with ⟨hl, hne⟩
            exact ⟨hline l hl, by simpa using hne, path, hstart.mem_completeLines hflat hline hl⟩
        · have hgrow : ∀ kv ∈ next, Spans (fun l => P l ∨ l ∈ lines ++ taken.filter (trim · ≠ []))
              (disk kv.1) kv.2 := by
            intro kv hkv
            refine (h.moved kv hkv).mono ?_
            rintro l (hl | hl)
            · exact Or.inl hl
            · exact Or.inr (List.mem_append_left _ hl)
          split
          · intro kv hkv
            rcases List.mem_append.mp hkv with hkv | hkv
            · exact hgrow kv hkv
            · rw [List.mem_singleton.mp hkv]
              refine (hstart.mono fun l hl => Or.inl hl).extend hflat fun l hl => ⟨hline l hl, ?_⟩
              intro hne
              refine Or.inr (List.mem_append_right _ (List.mem_filter.mpr ⟨hl, ?_⟩))
              simpa using hne
          · exact hgrow

theorem readNewLines_spec {P : Bytes → Prop} {opened : String → Option Bytes} {offsets : Offsets}
    (hopen : ∀ path content, opened path = some content → content <+: disk path)
    (hoff : OffsetsOk P disk offsets) (glob : List String) :
    ReadOk P disk (readNewLines maxLines glob opened offsets).1
      (readNewLines maxLines glob opened offsets).2 := by
  apply readPaths_spec hopen hoff
  constructor
  · intro l hl
    cases hl
  · intro kv hkv
    cases hkv

end Reading

/-! ## Lines and rows -/

/-- The dict of a line. -/
def LineDict (line : Bytes) (m : Members) : Prop := loadsBytes (trim line) = some (.obj m)

/-- Every complete line that is a dict has a text as its primary key. -/
def StringKeys (spec : TableSpec) (disk : String → Bytes) : Prop :=
  ∀ line, OnDisk disk line → ∀ m, LineDict line m → ∃ k, m.get spec.primaryKey = .str k

/-- The line's key is in the table. -/
def Delivered (spec : TableSpec) (db : Db) (line : Bytes) : Prop :=
  ∃ m k, LineDict line m ∧ m.get spec.primaryKey = .str k
    ∧ .varchar k ∈ (db.tables spec.name).rows.map Row.key

/-- Rows that are dicts of lines of the files. -/
def FromDisk (disk : String → Bytes) (rows : List Record) : Prop :=
  ∀ row ∈ rows, ∃ line m, OnDisk disk line ∧ LineDict line m ∧ row = Members.record m

/-- A row is what a line of the files is stored as, but for a deletion mark it may have got. -/
def FromLine (env : Env) (spec : TableSpec) (disk : String → Bytes) (row : Row) : Prop :=
  ∃ line m base ds ts, OnDisk disk line ∧ LineDict line m
    ∧ env.stored spec (project spec (Members.record m)) ds ts = .ok base ∧ base.Ages row.shown

section Lines

variable {env : Env} {spec : TableSpec} {disk : String → Bytes} {why : Bytes → String}

theorem OnDisk.grow {line : Bytes} (h : OnDisk disk line) (path : String) (more : Bytes) :
    OnDisk (Function.update disk path (disk path ++ more)) line := by
  rcases h with ⟨other, hline⟩
  refine ⟨other, ?_⟩
  by_cases hp : other = path
  · subst hp
    rw [Function.update_self]
    exact (completeLines_grow _ _).subset hline
  · rw [Function.update_of_ne hp]
    exact hline

theorem spans_update {P : Bytes → Prop} {other : String} {off : Nat}
    (h : Spans P (disk other) off) (path : String) (more : Bytes) :
    Spans P (Function.update disk path (disk path ++ more) other) off := by
  by_cases hp : other = path
  · subst hp
    rw [Function.update_self]
    exact h.grow more
  · rw [Function.update_of_ne hp]
    exact h

theorem record_get (m : Members) (c : String) : (Members.record m).get c = .json (m.get c) := by
  rw [Record.get, Members.record, lookup_map_snd, Members.get]
  cases lookup c m <;> rfl

theorem Row.Ages.shown {a b : Row} (h : a.Ages b) : a.shown.Ages b.shown := by
  rcases h with rfl | ⟨hds, hat, ds, at', rfl⟩
  · exact .refl _
  · exact Or.inr ⟨hds, hat, ds, at', rfl⟩

theorem rowOfLine_ok {line : Bytes} {row : Record} (h : rowOfLine why (trim line) = .ok row) :
    ∃ m, LineDict line m ∧ row = Members.record m := by
  unfold rowOfLine at h
  split at h
  · cases h
  · next m hm => exact ⟨m, hm, (Except.ok.inj h).symm⟩
  · cases h

/-- The rows of a batch are the dicts of its lines. -/
theorem jsonlToRows_lines {lines : List Bytes} {rows : List Record}
    (hl : ∀ l ∈ lines, IsLine l ∧ trim l ≠ []) (h : jsonlToRows why lines.flatten = .ok rows) :
    List.Forall₂ (fun line row => ∃ m, LineDict line m ∧ row = Members.record m) lines rows := by
  have hkept : (lines.map trim).filter (· ≠ []) = lines.map trim := by
    apply List.filter_eq_self.mpr
    intro x hx
    rcases List.mem_map.mp hx with ⟨l, hmem, rfl⟩
    simpa using (hl l hmem).2
  rw [jsonlToRows, splitLines_flatten fun l hmem => (hl l hmem).1, hkept, mapM_ok_iff,
    List.forall₂_map_left_iff] at h
  exact h.imp fun line row hrow => rowOfLine_ok hrow

end Lines

/-! ## The idempotent insert -/

section Sink

variable {env : Env} {schema : Schema} {spec : TableSpec}

/-- Of each key text the first record is kept. -/
theorem dedupKeys_covers (repr : Json → String) (records : List Record) (seen : List String)
    {r : Record} (hr : r ∈ records) : keyText repr spec r ∈ seen
      ∨ ∃ x ∈ dedupKeys repr spec seen records, keyText repr spec x = keyText repr spec r := by
  induction records generalizing seen with
  | nil => cases hr
  | cons y records ih =>
    rw [dedupKeys]
    split
    · next hseen =>
      rcases List.mem_cons.mp hr with rfl | hr
      · exact Or.inl hseen
      · exact ih seen hr
    · rcases List.mem_cons.mp hr with rfl | hr
      · exact Or.inr ⟨r, List.mem_cons_self, rfl⟩
      · rcases ih (keyText repr spec y :: seen) hr with hseen | ⟨x, hx, hkey⟩
        · rcases List.mem_cons.mp hseen with hy | hseen
          · exact Or.inr ⟨y, List.mem_cons_self, hy.symm⟩
          · exact Or.inl hseen
        · exact Or.inr ⟨x, List.mem_cons_of_mem _ hx, hkey⟩

theorem dedupKeys_subset (repr : Json → String) (records : List Record) (seen : List String) :
    ∀ x ∈ dedupKeys repr spec seen records, x ∈ records := by
  induction records generalizing seen with
  | nil =>
    intro x hx
    cases hx
  | cons y records ih =>
    intro x hx
    rw [dedupKeys] at hx
    split at hx
    · exact List.mem_cons_of_mem _ (ih seen x hx)
    · rcases List.mem_cons.mp hx with rfl | hx
      · exact List.mem_cons_self
      · exact List.mem_cons_of_mem _ (ih _ x hx)

/-- What the lenient validation lets through comes from the batch, and what it drops has a key that is
in the table or is let through in another record. -/
theorem validate_skip {repr : Json → String} {t : PhysTable} {rows rs : List Record}
    (h : validate repr spec t rows true = .ok rs) : (∀ x ∈ rs, ∃ row ∈ rows, x = project spec row)
      ∧ ∀ row ∈ rows, (∃ r ∈ t.rows, r.key.text = some (keyText repr spec (project spec row)))
        ∨ ∃ x ∈ rs, keyText repr spec x = keyText repr spec (project spec row) := by
  simp only [validate, if_true] at h
  split at h
  · cases h
  · rcases Except.ok.inj h with rfl
    constructor
    · intro x hx
      rcases List.mem_filter.mp hx with ⟨hx, -⟩
      rcases List.mem_map.mp (dedupKeys_subset _ _ _ x hx) with ⟨row, hrow, rfl⟩
      exact ⟨row, hrow, rfl⟩
    · intro row hrow
      rcases dedupKeys_covers repr (rows.map (project spec)) [] (List.mem_map_of_mem hrow) with
        hseen | ⟨x, hx, hkey⟩
      · cases hseen
      · by_cases hold : keyText repr spec x ∈ existingKeys t
            ((dedupKeys repr spec [] (rows.map (project spec))).map (keyText repr spec))
        · rcases List.mem_filter.mp hold with ⟨hold, -⟩
          rcases List.mem_filterMap.mp hold with ⟨r, hr, htext⟩
          exact Or.inl ⟨r, hr, hkey ▸ htext⟩
        · refine Or.inr ⟨x, List.mem_filter.mpr ⟨hx, ?_⟩, hkey⟩
          simpa using hold

theorem keyText_project {repr : Json → String} {row : Record} {k : String}
    (h : row.get spec.primaryKey = strVal k) : keyText repr spec (project spec row) = k := by
  rw [keyText, project_primary, h]
  rfl

/-- A row whose key has this text has this key. -/
theorem key_of_text {r : Row} (h : r.Ok spec) (hvar : spec.primary.sqlType = .varchar) {k : String}
    (htext : r.key.text = some k) : r.key = .varchar k := by
  rcases h.key with hnull | ⟨-, s, hs⟩ | ⟨hbig, -⟩
  · rw [hnull] at htext
    cases htext
  · rw [hs] at htext ⊢
    rw [Option.some.inj htext]
  · rw [hvar] at hbig
    cases hbig

/-- A reported insert of the stream has left a row under every key of its batch. -/
theorem stream_insert_keys {r : Report} (h : r.Ran env schema) {rows : List Record}
    (hop : r.op = sinkOp spec rows) (hspec : spec ∈ schema.tables)
    (hvar : spec.primary.sqlType = .varchar)
    (hkeys : ∀ row ∈ rows, ∃ k, row.get spec.primaryKey = strVal k) {row : Record}
    (hrow : row ∈ rows) {k : String} (hk : row.get spec.primaryKey = strVal k) :
    .varchar k ∈ (r.after.tables spec.name).rows.map Row.key := by
  have hdec := h.decided.decision
  rw [hop] at hdec
  rcases decide_insert hdec with ⟨spec', rs, htable, hval, hd⟩
  rcases schema.table_mem htable with ⟨hspec', hname⟩
  rcases schema.eq_of_name hspec' hspec hname with rfl
  rcases validate_skip hval with ⟨hfrom, hcover⟩
  rcases hcover row hrow with ⟨old, hold, htext⟩ | ⟨x, hx, hkey⟩
  · -- the key was there: it stays
    rw [keyText_project hk] at htext
    have hcell := key_of_text (h.decided.rows _ hspec old hold) hvar htext
    rw [← hcell]
    exact h.grew.keys (List.mem_map_of_mem hold)
  · -- a record with the key was let through, and stored
    rcases hfrom x hx with ⟨row', hrow', rfl⟩
    rcases hkeys row' hrow' with ⟨k', hk'⟩
    rw [keyText_project hk', keyText_project hk] at hkey
    rcases h.acts with ⟨st, acts, hplan, hrun⟩
    rw [hd] at hplan
    match rs, hx with
    | y :: ys, hx =>
    rcases plan_cons hplan with ⟨emb, -, rfl⟩
    rcases insert_stored hrun hx with ⟨base, hbase⟩
    have hcell : base.key = .varchar k := by
      have hbind := stored_key hbase
      rw [hvar, project_primary, hk', hkey, env.bind_str] at hbind
      exact (Option.some.inj hbind).symm
    rw [← hcell, ← shown_keys, insert_shown hrun, rowActs_newRows, List.map_append]
    refine List.mem_append_right _ (List.mem_map.mpr ⟨base, ?_, rfl⟩)
    exact List.mem_filterMap.mpr ⟨_, hx, by rw [hbase]; rfl⟩

end Sink

/-! ## The invariant -/

section Invariant

variable (env : Env) (schema : Schema) (spec : TableSpec)

/-- Where the worker is with an operation it has taken. -/
def Worker.Runs (op : Op) (job : Option Running) : Worker → Prop
  | .idle => True
  | .taken op' => op' = op
  | .decided _ | .acting _ _ _ => ∀ j ∈ job, j.op = op

/-- The insert of these rows, as far as the stream has heard of it. -/
def Wait.Ok (b : Batch) (own : Option (List Record)) (rows : List Record) : Wait → Prop
  | .queued => True
  | .running => ∀ rows' ∈ own, rows' = rows
  | .reported i => ∃ r, b.reports[i]? = some r ∧ r.op = sinkOp spec rows

/-- A batch on its way: its rows are dicts of lines of the files, and its offsets are owed nothing but
lines of its own. -/
def Doing.Ok (f : Feed) : Doing → Prop
  | .reading | .landed _ => True
  | .landing rows next _ wait => FromDisk f.disk rows ∧ wait.Ok spec f.batch f.own rows
    ∧ ∃ lines : List Bytes, (∀ l ∈ lines, ∃ m, LineDict l m ∧ Members.record m ∈ rows)
      ∧ ∀ kv ∈ next, Spans (fun l => Delivered spec f.batch.sys.db l ∨ l ∈ lines) (f.disk kv.1) kv.2

/-- Offsets that span delivered lines. -/
def Feed.Covers (f : Feed) (offsets : Offsets) : Prop :=
  OffsetsOk (Delivered spec f.batch.sys.db) f.disk offsets

structure Feed.Sound (f : Feed) : Prop where
  traced : f.batch.Traced env schema
  own : ∀ rows ∈ f.own, FromDisk f.disk rows
    ∧ f.batch.sys.worker.Runs (sinkOp spec rows) f.batch.job
  wrote : ∀ i ∈ f.wrote, ∃ row, (f.batch.sys.db.tables spec.name).rows[i]? = some row
    ∧ FromLine env spec f.disk row
  saved : ∀ text ∈ f.saved, ∀ offsets ∈ offsetsOf text, f.Covers spec offsets
  offsets : ∀ t ∈ f.task, f.Covers spec t.offsets
  doing : ∀ t ∈ f.task, t.doing.Ok spec f

end Invariant

section Keep

variable {env : Env} {schema : Schema} {spec : TableSpec} {f : Feed}

theorem Delivered.grow {a b : Db} (h : a.Grew b) {line : Bytes} (hl : Delivered spec a line) :
    Delivered spec b line := by
  rcases hl with ⟨m, k, hm, hk, hkey⟩
  exact ⟨m, k, hm, hk, h.keys hkey⟩

theorem FromDisk.grow {disk : String → Bytes} {rows : List Record} (h : FromDisk disk rows)
    (path : String) (more : Bytes) :
    FromDisk (Function.update disk path (disk path ++ more)) rows := by
  intro row hrow
  rcases h row hrow with ⟨line, m, hline, hm, rfl⟩
  exact ⟨line, m, hline.grow path more, hm, rfl⟩

theorem FromLine.grow {disk : String → Bytes} {row : Row} (h : FromLine env spec disk row)
    (path : String) (more : Bytes) :
    FromLine env spec (Function.update disk path (disk path ++ more)) row := by
  rcases h with ⟨line, m, base, ds, ts, hline, hm, hbase, hage⟩
  exact ⟨line, m, base, ds, ts, hline.grow path more, hm, hbase, hage⟩

theorem FromLine.age {disk : String → Bytes} {row row' : Row} (h : FromLine env spec disk row)
    (hage : row.Ages row') : FromLine env spec disk row' := by
  rcases h with ⟨line, m, base, ds, ts, hline, hm, hbase, hbefore⟩
  exact ⟨line, m, base, ds, ts, hline, hm, hbase, hbefore.trans hage.shown⟩

/-- A file grows. -/
theorem append_sound (h : f.Sound env schema spec) (path : String) (more : Bytes) :
    Feed.Sound env schema spec
      { f with disk := Function.update f.disk path (f.disk path ++ more) } where
  traced := h.traced
  own := fun rows hrows => ⟨(h.own rows hrows).1.grow path more, (h.own rows hrows).2⟩
  wrote := by
    intro i hi
    rcases h.wrote i hi with ⟨row, hrow, hline⟩
    exact ⟨row, hrow, hline.grow path more⟩
  saved := fun text htext offsets ho other =>
    spans_update (h.saved text htext offsets ho other) path more
  offsets := fun t ht other => spans_update (h.offsets t ht other) path more
  doing := by
    intro t ht
    have hdoing := h.doing t ht
    cases hd : t.doing with
    | reading | landed last => trivial
    | landing rows next last wait =>
      rw [hd] at hdoing
      rcases hdoing with ⟨hrows, hwait, lines, hlines, hnext⟩
      exact ⟨hrows.grow path more, hwait, lines, hlines, fun kv hkv =>
        spans_update (hnext kv hkv) path more⟩

theorem Feed.Covers.grow {offsets : Offsets} (h : f.Covers spec offsets) {b : Batch}
    (hgrew : f.batch.sys.db.Grew b.sys.db) :
    OffsetsOk (Delivered spec b.sys.db) f.disk offsets :=
  fun path => (h path).mono fun _ hl => hl.grow hgrew

/-- The offsets that a task moves to, once what its batch owed is delivered. -/
theorem covers_update {offsets next : Offsets} (h : f.Covers spec offsets)
    (hnext : ∀ kv ∈ next, Spans (Delivered spec f.batch.sys.db) (f.disk kv.1) kv.2) :
    f.Covers spec (dictOf (offsets ++ next)) := by
  intro path
  rw [lookup_dictOf, lookup_append]
  cases hl : lookup path next with
  | none =>
    rw [Option.none_or]
    exact h path
  | some off => exact hnext (path, off) (mem_of_lookup hl)

/-- A batch reported in the log has delivered its lines. -/
theorem reported_delivers (h : f.Sound env schema spec) (hspec : spec ∈ schema.tables)
    (hvar : spec.primary.sqlType = .varchar) (hkeys : StringKeys spec f.disk) {rows : List Record}
    (hrows : FromDisk f.disk rows) {i : Nat} {r : Report}
    (hr : f.batch.reports[i]? = some r) (hop : r.op = sinkOp spec rows) {line : Bytes} {m : Members}
    (hm : LineDict line m) (hrow : Members.record m ∈ rows) : Delivered spec f.batch.sys.db line := by
  have hrmem : r ∈ f.batch.reports := List.mem_of_getElem? hr
  have hall : ∀ row ∈ rows, ∃ k, row.get spec.primaryKey = strVal k := by
    intro row hrow
    rcases hrows row hrow with ⟨l, m, hl, hm, rfl⟩
    rcases hkeys l hl m hm with ⟨k, hk⟩
    exact ⟨k, by rw [record_get, hk]; rfl⟩
  rcases hrows _ hrow with ⟨l, m', hl, hm', heq⟩
  rcases hall _ hrow with ⟨k, hk⟩
  have hkey := stream_insert_keys (h.traced.ran r hrmem) hop hspec hvar hall hrow hk
  refine ⟨m, k, hm, ?_, (h.traced.grew r hrmem).keys hkey⟩
  rw [record_get] at hk
  injection hk

/-- The worker stays with the operation it has, or drops it. -/
theorem runs_step {op : Op} {b : Batch} {s : System} {l : Label}
    (h : b.sys.worker.Runs op b.job) (hno : ∀ other, l ≠ .take other)
    (hm : Moves env schema b.sys l s) : s.worker.Runs op (b.nextJob s l) := by
  cases hm with
  | take hw => exact absurd rfl (hno _)
  | @decide op' hw =>
    rw [hw] at h
    have hop : op' = op := h
    show (Worker.decide env schema b.sys.db op').Runs op _
    cases hd : decideOp env schema b.sys.db.tables op' with
    | error e =>
      simp only [Worker.decide, hd]
      trivial
    | ok d =>
      simp only [Worker.decide, hd, Batch.nextJob, hw]
      intro j hj
      rcases Option.some.inj hj with rfl
      exact hop
  | plan hw =>
    rw [hw] at h
    show (Worker.plan env _ _).Runs op b.job
    unfold Worker.plan
    split
    · exact h
    · trivial
  | write hw he =>
    rw [hw] at h
    exact h
  | refuse hw he | fault hw | finish hw | crash => trivial
  | refresh hw ht he | skip hw ht hl | settle hw ht =>
    show b.sys.worker.Runs op _
    rw [hw]
    trivial
  | @background l rebuilds hl =>
    show b.sys.worker.Runs op (b.nextJob { b.sys with rebuilds := rebuilds } l)
    cases l with
    | rebuild now | read i | stop i => exact h
    | _ => exact hl.elim

/-- A row that the stream's insert has written is what one of its lines is stored as. -/
theorem write_fromLine {disk : String → Bytes} {b : Batch} (hb : b.Traced env schema)
    (hspec : spec ∈ schema.tables) {rows : List Record} (hrows : FromDisk disk rows)
    (hruns : b.sys.worker.Runs (sinkOp spec rows) b.job) {fts : Option TableSpec}
    {done todo : List Act} {a : Act} {db : Db} (hw : b.sys.worker = .acting fts done (a :: todo))
    (he : exec env a b.sys.db = .ok db) :
    (db.tables spec.name).rows = (b.sys.db.tables spec.name).rows
      ∨ ∃ row, (db.tables spec.name).rows = (b.sys.db.tables spec.name).rows ++ [row]
        ∧ FromLine env spec disk row := by
  have htraced := hb.worker
  rw [hw] at htraced hruns
  rcases htraced with ⟨j, hj, hdec, -, ⟨st, hplan⟩, -⟩
  have hdecision := hdec.decision
  rw [hruns j hj] at hdecision
  rcases decide_insert hdecision with ⟨spec', rs, htable, hval, hd⟩
  rcases schema.table_mem htable with ⟨hspec', hname⟩
  rcases schema.eq_of_name hspec' hspec hname with rfl
  rw [hd] at hplan
  rcases plan_records hplan with hnil | ⟨emb, -, hacts⟩
  · exact absurd hnil (by simp)
  · have hmem : a ∈ insertActs env spec' rs emb st := by
      rw [← hacts]
      simp
    rcases mem_insertActs hmem with ⟨r, -, rfl⟩ | ⟨i, r, hr, rfl⟩ | rfl
    · rcases exec_append_iff.mp he with ⟨m, -, rfl⟩
      exact Or.inl rfl
    · rcases exec_insert_iff.mp he with ⟨row, t, hrow, -, -, ht, rfl⟩
      rcases (validate_skip hval).1 r (List.mem_of_getElem? hr) with ⟨row', hrow', rfl⟩
      rcases hrows row' hrow' with ⟨line, m, hline, hm, rfl⟩
      refine Or.inr ⟨row, ?_, line, m, row.shown, _, _, hline, hm, newRow_shown hrow, .refl _⟩
      rw [setTable_self]
      exact ht
    · simp only [exec] at he
      split at he
      · rcases Except.ok.inj he with rfl
        exact Or.inl rfl
      · cases he

/-- While the stream's insert is at the worker, the table stays as it is or gets one of its rows. -/
theorem own_appends (h : f.Sound env schema spec) (hspec : spec ∈ schema.tables) {l : BatchLabel}
    (hl : l.NoReload) {b : Batch} (hs : batchStep env schema f.batch l = some b) (hown : f.own.isSome) :
    (b.sys.db.tables spec.name).rows = (f.batch.sys.db.tables spec.name).rows
      ∨ ∃ row, (b.sys.db.tables spec.name).rows
          = (f.batch.sys.db.tables spec.name).rows ++ [row] ∧ FromLine env spec f.disk row := by
  rcases Option.isSome_iff_exists.mp hown with ⟨rows, hrows⟩
  rcases h.own rows hrows with ⟨hdisk, hruns⟩
  cases l with
  | sys l =>
    rcases batchStep_sys hs with ⟨-, s, hstep, rfl⟩
    cases step_moves (fun i hi => by subst hi; exact hl) hstep with
    | write hw he => exact write_fromLine h.traced hspec hdisk hruns hw he
    | refresh hw ht he =>
      rcases Except.ok.inj he with rfl
      refine Or.inl ?_
      show (Db.tables (if _ then _ else _) spec.name).rows = _
      split <;> rfl
    | _ => exact Or.inl rfl
  | log =>
    rcases batchStep_log hs with ⟨-, r, rest, -, rfl⟩
    exact Or.inl rfl
  | logFault =>
    rcases batchStep_logFault hs with ⟨-, rfl⟩
    exact Or.inl rfl

/-- What a step adds to the table while the stream's insert is at the worker. -/
theorem added_fromLine (h : f.Sound env schema spec) (hspec : spec ∈ schema.tables) {l : BatchLabel}
    (hl : l.NoReload) {b : Batch} (hs : batchStep env schema f.batch l = some b) :
    ∀ i ∈ f.added spec b, ∃ row, (b.sys.db.tables spec.name).rows[i]? = some row
      ∧ FromLine env spec f.disk row := by
  intro i hi
  unfold Feed.added at hi
  dsimp only at hi
  split at hi
  · next hown =>
    rcases own_appends h hspec hl hs hown with hsame | ⟨row, hmore, hline⟩
    · rw [hsame, Nat.sub_self] at hi
      cases hi
    · rw [hmore, List.length_append, Nat.add_sub_cancel_left] at hi
      refine ⟨row, ?_, hline⟩
      rw [hmore, List.mem_singleton.mp hi]
      simp
  · cases hi

/-- What a batch on its way relies on is kept where the files are the same and the table only grows. -/
theorem doing_kept {g : Feed} {d : Doing} (h : d.Ok spec f) (hdisk : g.disk = f.disk)
    (hgrew : f.batch.sys.db.Grew g.batch.sys.db)
    (hwait : ∀ rows next last wait, d = .landing rows next last wait →
      wait.Ok spec f.batch f.own rows → wait.Ok spec g.batch g.own rows) : d.Ok spec g := by
  cases d with
  | reading | landed last => trivial
  | landing rows next last wait =>
    rcases h with ⟨hrows, hw, lines, hlines, hnext⟩
    refine ⟨hdisk ▸ hrows, hwait rows next last wait rfl hw, lines, hlines, fun kv hkv => ?_⟩
    rw [hdisk]
    refine (hnext kv hkv).mono ?_
    rintro l (hl | hl)
    · exact Or.inl (hl.grow hgrew)
    · exact Or.inr hl

theorem reports_kept {b : Batch} {l : Label} (hl : l ≠ .crash) {i : Nat} {r : Report}
    (h : b.reports[i]? = some r) : (b.logged ++ b.nextFinished l)[i]? = some r := by
  have hmore : ∃ more, b.logged ++ b.nextFinished l = b.reports ++ more := by
    cases l with
    | finish => exact ⟨_, (List.append_assoc _ _ _).symm⟩
    | crash => exact absurd rfl hl
    | _ => exact ⟨[], (List.append_nil _).symm⟩
  rcases hmore with ⟨more, hmore⟩
  have hlt : i < b.reports.length := (List.getElem?_eq_some_iff.mp h).1
  rw [hmore, List.getElem?_append_left hlt]
  exact h

/-- A step of the store, but for what the stream's task makes of it. -/
theorem store_sound_of (h : f.Sound env schema spec) (hspec : spec ∈ schema.tables) {l : BatchLabel}
    (hl : l.NoReload) {b : Batch} (hs : batchStep env schema f.batch l = some b)
    (hown : ∀ rows ∈ f.nextOwn l, rows ∈ f.own ∧ b.sys.worker.Runs (sinkOp spec rows) b.job)
    (htask : ∀ t ∈ f.nextTask l, (∃ t' ∈ f.task, t.offsets = t'.offsets)
      ∧ t.doing.Ok spec ⟨b, f.disk, f.saved, f.nextTask l, f.nextOwn l, f.wrote ++ f.added spec b⟩) :
    Feed.Sound env schema spec
      ⟨b, f.disk, f.saved, f.nextTask l, f.nextOwn l, f.wrote ++ f.added spec b⟩ := by
  have hgrew := batch_step_grew h.traced hl hs
  constructor
  · exact batch_step_traced h.traced hl hs
  · intro rows hrows
    exact ⟨(h.own rows (hown rows hrows).1).1, (hown rows hrows).2⟩
  · intro i hi
    rcases List.mem_append.mp hi with hi | hi
    · rcases h.wrote i hi with ⟨row, hrow, hline⟩
      rcases hgrew.rows spec.name i row hrow with ⟨row', hrow', hage⟩
      exact ⟨row', hrow', hline.age hage⟩
    · exact added_fromLine h hspec hl hs i hi
  · intro text htext offsets ho
    exact (h.saved text htext offsets ho).grow hgrew
  · intro t ht
    rcases (htask t ht).1 with ⟨t', ht', heq⟩
    show OffsetsOk _ _ t.offsets
    rw [heq]
    exact (h.offsets t' ht').grow hgrew
  · intro t ht
    exact (htask t ht).2

/-- A step of the store. -/
theorem store_sound (h : f.Sound env schema spec) (hspec : spec ∈ schema.tables) {l : BatchLabel}
    (hl : l.NoReload) (hcrash : l ≠ .sys .crash) {b : Batch}
    (hs : batchStep env schema f.batch l = some b) : Feed.Sound env schema spec
      ⟨b, f.disk, f.saved, f.nextTask l, f.nextOwn l, f.wrote ++ f.added spec b⟩ := by
  have hgrew := batch_step_grew h.traced hl hs
  apply store_sound_of h hspec hl hs
  · intro rows hrows
    cases l with
    | sys l =>
      rcases batchStep_sys hs with ⟨-, s, hstep, rfl⟩
      have hm := step_moves (fun i hi => by subst hi; exact hl) hstep
      have hkept : rows ∈ f.own → (∀ other, l ≠ .take other) →
          rows ∈ f.own ∧ s.worker.Runs (sinkOp spec rows) (f.batch.nextJob s l) :=
        fun hmem hno => ⟨hmem, runs_step (h.own rows hmem).2 hno hm⟩
      cases l with
      | take op | finish => cases hrows
      | _ => exact hkept hrows fun other hne => by cases hne
    | log =>
      rcases batchStep_log hs with ⟨-, r, rest, -, rfl⟩
      exact ⟨hrows, (h.own rows hrows).2⟩
    | logFault =>
      rcases batchStep_logFault hs with ⟨-, rfl⟩
      exact ⟨hrows, (h.own rows hrows).2⟩
  · intro t ht
    cases l with
    | sys l =>
      rcases batchStep_sys hs with ⟨-, s, hstep, rfl⟩
      have hne : l ≠ .crash := fun heq => hcrash (heq ▸ rfl)
      -- the task as it was: no report of the ledger has moved
      have hsame : (∀ rows ∈ f.nextOwn (.sys l), rows ∈ f.own) → t ∈ f.task →
          t.doing.Ok spec ⟨⟨s, f.batch.nextJob s l, f.batch.nextFinished l, f.batch.logged⟩, f.disk,
            f.saved, f.nextTask (.sys l), f.nextOwn (.sys l), f.wrote ++ f.added spec
              ⟨s, f.batch.nextJob s l, f.batch.nextFinished l, f.batch.logged⟩⟩ := by
        intro hown hmem
        refine doing_kept (h.doing t hmem) rfl hgrew fun rows next last wait _ hwait => ?_
        cases wait with
        | queued => trivial
        | running => exact fun rows' hrows' => hwait rows' (hown rows' hrows')
        | reported i =>
          rcases hwait with ⟨r, hr, hop⟩
          exact ⟨r, reports_kept hne hr, hop⟩
      cases l with
      | finish =>
        have hnone : ∀ rows ∈ f.nextOwn (.sys .finish), rows ∈ f.own := fun rows hrows => by
          cases hrows
        cases step_moves (fun i hi => by cases hi) hstep with
        | skip hw ht hl => rcases hl with hl | hl <;> cases hl
        | background hl => exact hl.elim
        | @finish fts done hw =>
        simp only [Feed.nextTask] at ht
        split at ht
        · next own offsets stopping rows next last hown htask =>
          rcases Option.some.inj ht with rfl
          refine ⟨⟨_, htask, rfl⟩, ?_⟩
          have hdoing := h.doing _ htask
          rcases hdoing with ⟨hrows, hrunning, lines, hlines, hnext⟩
          have hsameRows : own = rows := hrunning own hown
          -- the report that is put at the end of the ledger is the stream's
          have htraced := h.traced.worker
          have hruns := (h.own own hown).2
          rw [hw] at htraced hruns
          rcases htraced with ⟨j, hj, -⟩
          refine ⟨hrows, ⟨⟨j, f.batch.sys.db⟩, ?_, ?_⟩, lines, hlines, fun kv hkv => ?_⟩
          · show (f.batch.logged ++ (f.batch.finished ++ (f.batch.job.map _).toList))[_]? = _
            rw [Option.mem_def.mp hj, ← List.append_assoc, ← List.length_append]
            exact List.getElem?_concat_length
          · rw [← hsameRows]
            exact hruns j hj
          · refine (hnext kv hkv).mono ?_
            rintro l (hl | hl)
            · exact Or.inl (hl.grow hgrew)
            · exact Or.inr hl
        · exact ⟨⟨t, ht, rfl⟩, hsame hnone ht⟩
      | take op =>
        exact ⟨⟨t, ht, rfl⟩, hsame (fun rows hrows => by cases hrows) ht⟩
      | _ => exact ⟨⟨t, ht, rfl⟩, hsame (fun rows hrows => hrows) ht⟩
    | log =>
      rcases batchStep_log hs with ⟨-, r, rest, hf, rfl⟩
      refine ⟨⟨t, ht, rfl⟩, doing_kept (h.doing t ht) rfl hgrew fun rows next last wait _ hwait => ?_⟩
      cases wait with
      | queued => trivial
      | running => exact hwait
      | reported i =>
        rcases hwait with ⟨r', hr', hop⟩
        refine ⟨r', ?_, hop⟩
        show (f.batch.logged ++ [r] ++ rest)[i]? = some r'
        rw [← hr', Batch.reports, hf, List.append_assoc]
        rfl
    | logFault =>
      rcases batchStep_logFault hs with ⟨hw, rfl⟩
      have hmem : t ∈ f.task ∧ ∀ offsets stopping rows next last i,
          t = ⟨offsets, stopping, .landing rows next last (.reported i)⟩ →
          i < f.batch.logged.length := by
        simp only [Feed.nextTask] at ht
        split at ht
        · next offsets stopping rows next last i htask =>
          split at ht
          · cases ht
          · next hlt =>
            refine ⟨ht, ?_⟩
            rintro offsets' stopping' rows' next' last' i' rfl
            rw [htask] at ht
            injection ht with ht
            injection ht with _ _ ht
            injection ht with _ _ _ ht
            injection ht with ht
            omega
        · next hno =>
          refine ⟨ht, ?_⟩
          rintro offsets' stopping' rows' next' last' i' rfl
          exact absurd ht (hno _ _ _ _ _ _)
      refine ⟨⟨t, hmem.1, rfl⟩, doing_kept (h.doing t hmem.1) rfl hgrew ?_⟩
      intro rows next last wait hdoing hwait
      cases wait with
      | queued => trivial
      | running => exact hwait
      | reported i =>
        rcases hwait with ⟨r, hr, hop⟩
        have hlt : i < f.batch.logged.length := by
          apply hmem.2 t.offsets t.stopping rows next last i
          rw [← hdoing]
        refine ⟨r, ?_, hop⟩
        rw [Batch.reports, List.getElem?_append_left hlt] at hr
        show (f.batch.logged ++ [])[i]? = some r
        rw [List.append_nil]
        exact hr

/-! ## The steps of the task -/

variable {maxLines : Nat} {why : Bytes → String}

theorem offsets_covers (h : f.Sound env schema spec) (readable : Bool) :
    f.Covers spec (f.offsets readable) := by
  intro path
  unfold Feed.offsets
  split
  · cases hs : f.saved.bind offsetsOf with
    | none => exact Spans.zero _ _
    | some offsets =>
      rcases Option.bind_eq_some_iff.mp hs with ⟨text, htext, ho⟩
      exact h.saved text htext offsets ho path
  · exact Spans.zero _ _

/-- Only the task has changed. -/
theorem task_sound (h : f.Sound env schema spec) {task : Option Follower}
    (hoff : ∀ t ∈ task, f.Covers spec t.offsets) (hdoing : ∀ t ∈ task, t.doing.Ok spec f) :
    Feed.Sound env schema spec { f with task := task } where
  traced := h.traced
  own := h.own
  wrote := h.wrote
  saved := h.saved
  offsets := hoff
  doing := by
    intro t ht
    have hd := hdoing t ht
    cases hdo : t.doing with
    | reading | landed last => trivial
    | landing rows next last wait =>
      rw [hdo] at hd
      exact hd

/-- A read submits dicts of lines, and owes no more than these lines. -/
theorem poll_ok {offsets : Offsets} (hoff : f.Covers spec offsets) (glob : List String)
    (seen : String → Option Nat) (stopping : Bool) {t : Follower}
    (ht : t ∈ f.poll maxLines why glob seen ⟨offsets, stopping, .reading⟩) :
    f.Covers spec t.offsets ∧ t.doing.Ok spec f := by
  have hread : ReadOk (Delivered spec f.batch.sys.db) f.disk
      (readNewLines maxLines glob (f.opened seen) offsets).1
      (readNewLines maxLines glob (f.opened seen) offsets).2 := by
    apply readNewLines_spec ?_ hoff
    intro path content hcontent
    rcases Option.map_eq_some_iff.mp hcontent with ⟨n, -, rfl⟩
    exact List.take_prefix _ _
  have hlines := fun l hl => (hread.kept l hl).imp_right And.left
  unfold Feed.poll at ht
  dsimp only at ht
  split at ht
  · split at ht
    · cases ht
    · rcases Option.some.inj ht with rfl
      exact ⟨hoff, trivial⟩
  · next hne =>
    split at ht
    · cases ht
    · next hrows =>
      -- a line that was read is a row
      have hlen := (jsonlToRows_lines hlines hrows).length_eq
      exact absurd (List.length_eq_zero_iff.mp hlen) hne
    · next rows hrows hsome =>
      rcases Option.some.inj ht with rfl
      have hall := jsonlToRows_lines hlines hsome
      refine ⟨hoff, ?_, trivial, _, ?_, hread.moved⟩
      · intro row hrow
        rcases forall₂_left hall.flip hrow with ⟨line, hline, m, hm, rfl⟩
        exact ⟨line, m, (hread.kept line hline).2.2, hm, rfl⟩
      · intro line hline
        rcases forall₂_left hall hline with ⟨row, hrow, m, hm, rfl⟩
        exact ⟨m, hm, hrow⟩

/-- The worker takes the stream's insert. -/
theorem take_sound (h : f.Sound env schema spec) {offsets next : Offsets} {stopping last : Bool}
    {rows : List Record} (htask : f.task = some ⟨offsets, stopping, .landing rows next last .queued⟩)
    {b : Batch} (hs : batchStep env schema f.batch (.sys (.take (sinkOp spec rows))) = some b) :
    Feed.Sound env schema spec { f with
      batch := b
      own := some rows
      task := some ⟨offsets, stopping, .landing rows next last .running⟩ } := by
  have hgrew := batch_step_grew h.traced (l := .sys (.take (sinkOp spec rows))) trivial hs
  have hoff : f.Covers spec offsets := h.offsets _ htask
  have hdoing := h.doing _ htask
  constructor
  · exact batch_step_traced h.traced (l := .sys (.take (sinkOp spec rows))) trivial hs
  · intro rows' hrows'
    rcases Option.some.inj hrows' with rfl
    refine ⟨hdoing.1, ?_⟩
    rcases batchStep_sys hs with ⟨-, s, hstep, rfl⟩
    cases step_moves (fun i hi => by cases hi) hstep with
    | take hw => exact rfl
    | skip hw ht hl => rcases hl with hl | hl <;> cases hl
    | background hl => exact hl.elim
  · intro i hi
    rcases h.wrote i hi with ⟨row, hrow, hline⟩
    rcases hgrew.rows spec.name i row hrow with ⟨row', hrow', hage⟩
    exact ⟨row', hrow', hline.age hage⟩
  · intro text htext saved ho
    exact (h.saved text htext saved ho).grow hgrew
  · intro t ht
    rcases Option.some.inj ht with rfl
    exact hoff.grow hgrew
  · intro t ht
    rcases Option.some.inj ht with rfl
    rcases hdoing with ⟨hrows, -, lines, hlines, hnext⟩
    refine ⟨hrows, ?_, lines, hlines, fun kv hkv => (hnext kv hkv).mono ?_⟩
    · intro rows' hrows'
      exact (Option.some.inj hrows').symm
    · rintro l (hl | hl)
      · exact Or.inl (hl.grow hgrew)
      · exact Or.inr hl

/-- The insert's task is in the log: the offsets move over lines that are delivered. -/
theorem land_covers (h : f.Sound env schema spec) (hspec : spec ∈ schema.tables)
    (hvar : spec.primary.sqlType = .varchar) (hkeys : StringKeys spec f.disk)
    {offsets next : Offsets} {stopping last : Bool} {rows : List Record} {i : Nat}
    (htask : f.task = some ⟨offsets, stopping, .landing rows next last (.reported i)⟩) :
    f.Covers spec (dictOf (offsets ++ next)) := by
  rcases h.doing _ htask with ⟨hrows, ⟨r, hr, hop⟩, lines, hlines, hnext⟩
  apply covers_update (h.offsets _ htask)
  intro kv hkv
  refine (hnext kv hkv).mono ?_
  rintro l (hl | hl)
  · exact hl
  · rcases hlines l hl with ⟨m, hm, hrow⟩
    exact reported_delivers h hspec hvar hkeys hrows hr hop hm hrow

end Keep

/-! ## The result -/

section Result

variable {env : Env} {schema : Schema} {spec : TableSpec} {maxLines : Nat} {why : Bytes → String}
  {f g : Feed}

/-- No rebuild writes, and every complete line is a dict under a text key. -/
def FeedLabel.Fed (spec : TableSpec) (f : Feed) (l : FeedLabel) : Prop :=
  StringKeys spec f.disk ∧ ∀ l', l = .store l' → l'.NoReload

/-- What a step does, with what it takes to be enabled. -/
inductive FeedMoves (env : Env) (schema : Schema) (spec : TableSpec) (maxLines : Nat)
    (why : Bytes → String) (f : Feed) : FeedLabel → Feed → Prop
  | store {l : BatchLabel} {b : Batch} (hne : l ≠ .sys .crash)
    (hb : batchStep env schema f.batch l = some b) :
    FeedMoves env schema spec maxLines why f (.store l)
      ⟨b, f.disk, f.saved, f.nextTask l, f.nextOwn l, f.wrote ++ f.added spec b⟩
  | append (path : String) (bytes : Bytes) :
    FeedMoves env schema spec maxLines why f (.append path bytes)
      { f with disk := Function.update f.disk path (f.disk path ++ bytes) }
  | start (readable : Bool) :
    FeedMoves env schema spec maxLines why f (.start readable)
      { f with task := some ⟨f.offsets readable, false, .reading⟩ }
  | poll {glob : List String} {seen : String → Option Nat} {offsets : Offsets} {stopping : Bool}
    (htask : f.task = some ⟨offsets, stopping, .reading⟩) :
    FeedMoves env schema spec maxLines why f (.poll glob seen)
      { f with task := f.poll maxLines why glob seen ⟨offsets, stopping, .reading⟩ }
  | take {offsets next : Offsets} {stopping last : Bool} {rows : List Record} {b : Batch}
    (htask : f.task = some ⟨offsets, stopping, .landing rows next last .queued⟩)
    (hb : batchStep env schema f.batch (.sys (.take (sinkOp spec rows))) = some b) :
    FeedMoves env schema spec maxLines why f .take { f with
      batch := b
      own := some rows
      task := some ⟨offsets, stopping, .landing rows next last .running⟩ }
  | land {offsets next : Offsets} {stopping last : Bool} {rows : List Record} {i : Nat}
    (htask : f.task = some ⟨offsets, stopping, .landing rows next last (.reported i)⟩) :
    FeedMoves env schema spec maxLines why f .land
      { f with task := some ⟨dictOf (offsets ++ next), stopping, .landed last⟩ }
  | checkpoint {offsets : Offsets} {stopping last : Bool}
    (htask : f.task = some ⟨offsets, stopping, .landed last⟩) :
    FeedMoves env schema spec maxLines why f .checkpoint { f with
      saved := some (offsetsText offsets)
      task := if last then none else some ⟨offsets, stopping, .reading⟩ }
  | stop {t : Follower} (htask : f.task = some t) :
    FeedMoves env schema spec maxLines why f .stop
      { f with task := some { t with stopping := true } }
  | die : FeedMoves env schema spec maxLines why f .die { f with task := none }
  | crash {b : Batch} (hb : batchStep env schema f.batch (.sys .crash) = some b) :
    FeedMoves env schema spec maxLines why f .crash { f with batch := b, task := none, own := none }

theorem feedStep_moves {l : FeedLabel} (hs : feedStep env schema spec maxLines why f l = some g) :
    FeedMoves env schema spec maxLines why f l g := by
  cases l with
  | store l =>
    by_cases hcrash : l = .sys .crash
    · subst hcrash
      cases hs
    · rw [feedStep] at hs
      · rcases Option.map_eq_some_iff.mp hs with ⟨b, hb, rfl⟩
        exact .store hcrash hb
      · exact hcrash
  | append path bytes => exact Option.some.inj hs ▸ .append path bytes
  | start readable =>
    simp only [feedStep] at hs
    split at hs
    · exact Option.some.inj hs ▸ .start readable
    · cases hs
  | poll glob seen =>
    simp only [feedStep] at hs
    split at hs
    · next htask => exact Option.some.inj hs ▸ .poll htask
    · cases hs
  | take =>
    simp only [feedStep] at hs
    split at hs
    · next htask =>
      rcases Option.map_eq_some_iff.mp hs with ⟨b, hb, rfl⟩
      exact .take htask hb
    · cases hs
  | land =>
    simp only [feedStep] at hs
    split at hs
    · next htask =>
      split at hs
      · exact Option.some.inj hs ▸ .land htask
      · cases hs
    · cases hs
  | checkpoint =>
    simp only [feedStep] at hs
    split at hs
    · next htask => exact Option.some.inj hs ▸ .checkpoint htask
    · cases hs
  | stop =>
    rcases Option.map_eq_some_iff.mp hs with ⟨t, htask, rfl⟩
    exact .stop htask
  | die => exact Option.some.inj hs ▸ .die
  | crash =>
    simp only [feedStep] at hs
    rcases Option.map_eq_some_iff.mp hs with ⟨b, hb, rfl⟩
    exact .crash hb

/-- The offsets of a task that has landed are saved. -/
theorem checkpoint_sound (h : f.Sound env schema spec) {offsets : Offsets} {stopping last : Bool}
    (htask : f.task = some ⟨offsets, stopping, .landed last⟩) : Feed.Sound env schema spec { f with
      saved := some (offsetsText offsets)
      task := if last then none else some ⟨offsets, stopping, .reading⟩ } := by
  have hoff : f.Covers spec offsets := h.offsets _ htask
  refine ⟨h.traced, h.own, h.wrote, ?_, ?_, ?_⟩
  · intro text htext saved hsaved
    rcases Option.some.inj htext with rfl
    rw [offsetsOf_text] at hsaved
    rcases Option.some.inj hsaved with rfl
    exact hoff
  · intro t ht
    split at ht
    · cases ht
    · rcases Option.some.inj ht with rfl
      exact hoff
  · intro t ht
    split at ht
    · cases ht
    · rcases Option.some.inj ht with rfl
      trivial

theorem crash_sound (h : f.Sound env schema spec) {b : Batch}
    (hb : batchStep env schema f.batch (.sys .crash) = some b) :
    Feed.Sound env schema spec { f with batch := b, task := none, own := none } := by
  have hgrew := batch_step_grew h.traced (l := .sys .crash) trivial hb
  refine ⟨batch_step_traced h.traced (l := .sys .crash) trivial hb, nofun, ?_, ?_, nofun, nofun⟩
  · intro i hi
    rcases h.wrote i hi with ⟨row, hrow, hline⟩
    rcases hgrew.rows spec.name i row hrow with ⟨row', hrow', hage⟩
    exact ⟨row', hrow', hline.age hage⟩
  · intro text htext offsets ho
    exact (h.saved text htext offsets ho).grow hgrew

/-- One step, case by case of what it does. -/
theorem feed_step_sound (hspec : spec ∈ schema.tables) (hvar : spec.primary.sqlType = .varchar)
    (h : f.Sound env schema spec) {l : FeedLabel} (hl : l.Fed spec f)
    (hs : feedStep env schema spec maxLines why f l = some g) : g.Sound env schema spec := by
  cases feedStep_moves hs with
  | store hne hb => exact store_sound h hspec (hl.2 _ rfl) hne hb
  | append path bytes => exact append_sound h path bytes
  | start readable =>
    apply task_sound h
    · intro t ht
      rcases Option.some.inj ht with rfl
      exact offsets_covers h readable
    · intro t ht
      rcases Option.some.inj ht with rfl
      trivial
  | @poll glob seen offsets stopping htask =>
    have hok : ∀ t ∈ f.poll maxLines why glob seen ⟨offsets, stopping, .reading⟩,
        f.Covers spec t.offsets ∧ t.doing.Ok spec f :=
      fun _ => poll_ok (h.offsets _ htask) glob seen stopping
    exact task_sound h (fun t ht => (hok t ht).1) fun t ht => (hok t ht).2
  | take htask hb => exact take_sound h htask hb
  | land htask =>
    apply task_sound h
    · intro t ht
      rcases Option.some.inj ht with rfl
      exact land_covers h hspec hvar hl.1 htask
    · intro t ht
      rcases Option.some.inj ht with rfl
      trivial
  | checkpoint htask => exact checkpoint_sound h htask
  | @stop t htask =>
    apply task_sound h
    · intro t' ht'
      rcases Option.some.inj ht' with rfl
      exact h.offsets t htask
    · intro t' ht'
      rcases Option.some.inj ht' with rfl
      exact h.doing t htask
  | die => exact task_sound h nofun nofun
  | crash hb => exact crash_sound h hb

theorem feed_init_sound (disk : String → Bytes) : (Feed.init disk).Sound env schema spec where
  traced := batch_init_traced
  own := by
    intro rows hrows
    cases hrows
  wrote := by
    intro i hi
    cases hi
  saved := by
    intro text htext
    cases htext
  offsets := by
    intro t ht
    cases ht
  doing := by
    intro t ht
    cases ht

theorem feed_run_sound (hspec : spec ∈ schema.tables) (hvar : spec.primary.sqlType = .varchar)
    {labels : List FeedLabel} (h : f.Sound env schema spec)
    (hguard : Guarded (feedStep env schema spec maxLines why) (FeedLabel.Fed spec) f labels)
    (hrun : run (feedStep env schema spec maxLines why) f labels = some g) :
    g.Sound env schema spec :=
  run_guarded (fun _ _ _ hx hl hs => feed_step_sound hspec hvar hx hl hs) h hguard hrun

/-- One step, on the tables: they only grow. -/
theorem feed_step_grew (h : f.Sound env schema spec) {l : FeedLabel} (hl : l.Fed spec f)
    (hs : feedStep env schema spec maxLines why f l = some g) :
    f.batch.sys.db.Grew g.batch.sys.db := by
  cases feedStep_moves hs with
  | store hne hb => exact batch_step_grew h.traced (hl.2 _ rfl) hb
  | @take offsets next stopping last rows b htask hb =>
    exact batch_step_grew h.traced (l := .sys (.take (sinkOp spec rows))) trivial hb
  | crash hb => exact batch_step_grew h.traced (l := .sys .crash) trivial hb
  | _ => exact .refl _

theorem feed_run_grew (hspec : spec ∈ schema.tables) (hvar : spec.primary.sqlType = .varchar)
    {labels : List FeedLabel} (h : f.Sound env schema spec)
    (hguard : Guarded (feedStep env schema spec maxLines why) (FeedLabel.Fed spec) f labels)
    (hrun : run (feedStep env schema spec maxLines why) f labels = some g) :
    f.batch.sys.db.Grew g.batch.sys.db := by
  have hboth : g.Sound env schema spec ∧ f.batch.sys.db.Grew g.batch.sys.db := by
    refine run_guarded (I := fun x => x.Sound env schema spec ∧ f.batch.sys.db.Grew x.batch.sys.db)
      ?_ ⟨h, .refl _⟩ hguard hrun
    intro x l y hx hl hs
    exact ⟨feed_step_sound hspec hvar hx.1 hl hs, hx.2.trans (feed_step_grew hx.1 hl hs)⟩
  exact hboth.2

/-- A step of the stream, and one of the store while it is at the stream's insert, leaves every row of
the table as it is. -/
theorem own_step_rows (hspec : spec ∈ schema.tables) (h : f.Sound env schema spec) {l : FeedLabel}
    (hl : l.Fed spec f) (hown : f.own.isSome ∨ ∀ l', l ≠ .store l')
    (hs : feedStep env schema spec maxLines why f l = some g) :
    (f.batch.sys.db.tables spec.name).rows <+: (g.batch.sys.db.tables spec.name).rows := by
  cases feedStep_moves hs with
  | @store l b hne hb =>
    have hsome : f.own.isSome := hown.resolve_right fun hno => hno l rfl
    rcases own_appends h hspec (hl.2 l rfl) hb hsome with hsame | ⟨row, hmore, -⟩
    · exact ⟨[], by rw [List.append_nil]; exact hsame.symm⟩
    · exact ⟨[row], hmore.symm⟩
  | take htask hb =>
    rcases batchStep_sys hb with ⟨-, s, hstep, rfl⟩
    cases step_moves (fun i hi => by cases hi) hstep with
    | take hw => exact List.prefix_rfl
    | skip hw ht hl => rcases hl with hl | hl <;> cases hl
    | background hl => exact hl.elim
  | crash hb =>
    rcases batchStep_sys hb with ⟨-, s, hstep, rfl⟩
    rcases Option.some.inj hstep with rfl
    exact List.prefix_rfl
  | _ => exact List.prefix_rfl

/-- At least once into an idempotent sink.  What a saved offset has passed is in the table, what the
stream wrote stands for lines, and a key keeps its one row, which no step of the stream changes. -/
theorem stream_delivers (hspec : spec ∈ schema.tables) (hvar : spec.primary.sqlType = .varchar)
    {disk : String → Bytes} {labels : List FeedLabel}
    (hguard : Guarded (feedStep env schema spec maxLines why) (FeedLabel.Fed spec) (Feed.init disk)
      labels)
    (hrun : run (feedStep env schema spec maxLines why) (Feed.init disk) labels = some f) :
    (∀ text ∈ f.saved, ∀ offsets ∈ offsetsOf text, ∀ path,
        ∀ line ∈ completeLines ((f.disk path).take ((lookup path offsets).getD 0)),
          trim line ≠ [] → Delivered spec f.batch.sys.db line)
      ∧ (∀ i ∈ f.wrote, ∃ row, (f.batch.sys.db.tables spec.name).rows[i]? = some row
        ∧ FromLine env spec f.disk row)
      ∧ (∀ more g, Guarded (feedStep env schema spec maxLines why) (FeedLabel.Fed spec) f more →
        run (feedStep env schema spec maxLines why) f more = some g →
          ∀ (i : Nat) (row : Row), (f.batch.sys.db.tables spec.name).rows[i]? = some row →
            ∃ row', (g.batch.sys.db.tables spec.name).rows[i]? = some row' ∧ row.Ages row'
              ∧ ∀ other ∈ (g.batch.sys.db.tables spec.name).rows, other.key = row.key → other = row')
      ∧ ∀ l g, l.Fed spec f → (f.own.isSome ∨ ∀ l', l ≠ .store l') →
        feedStep env schema spec maxLines why f l = some g →
          (f.batch.sys.db.tables spec.name).rows <+: (g.batch.sys.db.tables spec.name).rows := by
  have hsound := feed_run_sound hspec hvar (feed_init_sound disk) hguard hrun
  refine ⟨?_, hsound.wrote, ?_, ?_⟩
  · intro text htext offsets ho path line hline hne
    exact (hsound.saved text htext offsets ho path).lines hline hne
  · intro more g hmore hmrun i row hrow
    rcases (feed_run_grew hspec hvar hsound hmore hmrun).rows spec.name i row hrow with
      ⟨row', hrow', hage⟩
    refine ⟨row', hrow', hage, fun other hother hkey => ?_⟩
    have hunique := (g.batch.sys.db.tables spec.name).pkUnique
    exact List.inj_on_of_nodup_map hunique hother (List.mem_of_getElem? hrow')
      (hkey.trans hage.key.symm)
  · intro l g hl hown hs
    exact own_step_rows hspec hsound hl hown hs

end Result

/-! ## A stream of notes -/

section Notes

variable {env : Env} {schema : Schema} {spec : TableSpec} {maxLines : Nat} {why : Bytes → String}
  {f g : Feed}

/-- A label that leaves the files as they are, and no rebuild of which writes. -/
def FeedLabel.quiet : FeedLabel → Bool
  | .append _ _ | .store (.sys (.replay _)) => false
  | _ => true

theorem feedStep_disk {l : FeedLabel} (hl : l.quiet = true)
    (hs : feedStep env schema spec maxLines why f l = some g) : g.disk = f.disk := by
  cases feedStep_moves hs with
  | append => cases hl
  | _ => rfl

/-- A run over files that stay as they are. -/
theorem quiet_fed {labels : List FeedLabel} (hl : ∀ l ∈ labels, l.quiet = true)
    (h : StringKeys spec f.disk) :
    Guarded (feedStep env schema spec maxLines why) (FeedLabel.Fed spec) f labels := by
  induction labels generalizing f with
  | nil => trivial
  | cons l labels ih =>
    have hquiet := hl l List.mem_cons_self
    refine ⟨⟨h, ?_⟩, fun g hs => ?_⟩
    · rintro l' rfl
      cases l' with
      | sys l =>
        cases l with
        | replay i => cases hquiet
        | _ => trivial
      | log | logFault => trivial
    · apply ih fun l' hl' => hl l' (List.mem_cons_of_mem _ hl')
      rw [feedStep_disk hquiet hs]
      exact h

end Notes

def noteMembers : Members := [("id", .str "n1")]

def noteFile : Bytes := Utf8.encode (dumps (.obj noteMembers)) ++ [lf]

def noteDisk (path : String) : Bytes := if path = "a" then noteFile else []

theorem noteFile_dict : LineDict noteFile noteMembers := by
  have htrim : trim noteFile = Utf8.encode (dumps (.obj noteMembers)) := by decide +kernel
  rw [LineDict, htrim, loadsBytes_obj]

theorem noteDisk_keyed : StringKeys notes noteDisk := by
  have hlines : completeLines noteFile = [noteFile] := by decide +kernel
  rintro line ⟨path, hline⟩ m hm
  unfold noteDisk at hline
  split at hline
  · rw [hlines, List.mem_singleton] at hline
    subst hline
    have hsame : some (Json.obj m) = some (.obj noteMembers) := hm.symm.trans noteFile_dict
    injection hsame with hsame
    injection hsame with hsame
    subst hsame
    exact ⟨"n1", rfl⟩
  · cases hline

abbrev noteStep := feedStep plainEnv notesSchema notes 1000 fun _ => "bad"

theorem noteFile_polled : run noteStep (Feed.init noteDisk)
    [.start true, .poll ["a"] fun _ => some 100] = some { Feed.init noteDisk with
      task := some ⟨[], false, .landing [noteMembers.record] [("a", 13)] false .queued⟩ } := by
  have hread : readNewLines 1000 ["a"] ((Feed.init noteDisk).opened fun _ => some 100) []
      = ([noteFile], [("a", 13)]) := by
    decide +kernel
  have hsplit : ((splitLines [noteFile].flatten).map trim).filter (· ≠ []) = [trim noteFile] := by
    decide +kernel
  have hrows : jsonlToRows (fun _ => "bad") [noteFile].flatten = .ok [noteMembers.record] := by
    rw [jsonlToRows, hsplit, List.mapM_cons, rowOfLine, show loadsBytes (trim noteFile) = _ from noteFile_dict]
    rfl
  have hpoll : (Feed.init noteDisk).poll 1000 (fun _ => "bad") ["a"] (fun _ => some 100)
      ⟨[], false, .reading⟩
        = some ⟨[], false, .landing [noteMembers.record] [("a", 13)] false .queued⟩ := by
    simp only [Feed.poll, hread, hrows]
    rfl
  rw [run_cons_iff]
  refine ⟨{ Feed.init noteDisk with task := some ⟨[], false, .reading⟩ }, rfl, ?_⟩
  rw [run_cons_iff]
  refine ⟨_, ?_, rfl⟩
  exact congrArg (fun task => some { Feed.init noteDisk with task := task }) hpoll

/-- A line lands and is checkpointed, and the process dies. -/
def noteFeed : List FeedLabel :=
  .take :: ([.decide, .plan ⟨"20260102", "t1", t1_ne⟩, .write, .write, .finish] : List Label).map
      (fun l => .store (.sys l))
    ++ [.store .log, .store (.sys .settle), .land, .checkpoint, .crash]

theorem stream_delivers_note : ∃ f,
    run noteStep (Feed.init noteDisk) ([.start true, .poll ["a"] fun _ => some 100] ++ noteFeed) = some f
      ∧ f.wrote = [0] ∧ f.saved = some (offsetsText [("a", 13)])
      ∧ Delivered notes f.batch.sys.db noteFile := by
  have hrest : (run noteStep { Feed.init noteDisk with
      task := some ⟨[], false, .landing [noteMembers.record] [("a", 13)] false .queued⟩ }
        noteFeed).map (fun f => (f.wrote, f.saved, f.disk "a"))
      = some ([0], some (offsetsText [("a", 13)]), noteFile) := by decide +kernel
  rcases Option.map_eq_some_iff.mp hrest with ⟨f, hf, heq⟩
  simp only [Prod.mk.injEq] at heq
  rcases heq with ⟨hwrote, hsaved, hdisk⟩
  have hrun : run noteStep (Feed.init noteDisk)
      ([.start true, .poll ["a"] fun _ => some 100] ++ noteFeed) = some f := by
    rw [run_append, noteFile_polled]
    exact hf
  refine ⟨f, hrun, hwrote, hsaved, ?_⟩
  have hquiet : ∀ l ∈ [.start true, .poll ["a"] fun _ => some 100] ++ noteFeed, l.quiet = true := by
    decide
  have hkept := (stream_delivers (by simp [notesSchema]) rfl (quiet_fed hquiet noteDisk_keyed) hrun).1
  refine hkept _ hsaved _ (offsetsOf_text _) "a" noteFile ?_ ?_
  · rw [hdisk]
    decide +kernel
  · decide +kernel

end Seekbase
