/-
# Seekbase.Landing — the idempotent sink does not see where its batches are cut.

A landing is the lenient insert: of each key text the first record, and of these the ones whose text
is not that of a stored key.  Both steps are ONE scan that starts out knowing the stored texts, so a
batch that is cut in two is scanned by two scans, the second of which knows what the first has stored
under the text of its cell and not as the caller wrote it.

* `dedupKeys_append`, `validate_land` — the scan;
* `Landed`               — what a landing that raised nothing left;
* `texts_agree`          — what the second batch sees stored is what one batch would have seen;
* `land_batches`         — the same rows and the same lines, and a replay changes nothing.
-/
import Seekbase.Search

namespace Seekbase

open JsonText

/-- The lenient insert of the sink, `write` with `skip_existing`. -/
def land (env : Env) (schema : Schema) (st : Stamp) (table : String) (rows : List Record) (db : Db) :
    Db × Except Exc (Option Nat) :=
  execute env schema st (.insert table rows true) db

/-- The texts of the stored keys, live or not. -/
def keyTexts (t : PhysTable) : List String := t.rows.filterMap fun r => r.key.text

/-! ## The scan -/

section Scan

variable {repr : Json → String} {spec : TableSpec} {records more : List Record}
  {seen seen' known : List String}

/-- The scan asks of what it knows only whether the texts of the records are in it. -/
theorem dedupKeys_congr
    (h : ∀ r ∈ records, keyText repr spec r ∈ seen ↔ keyText repr spec r ∈ seen') :
    dedupKeys repr spec seen records = dedupKeys repr spec seen' records := by
  induction records generalizing seen seen' with
  | nil => rfl
  | cons r records ih =>
    have hr := h r List.mem_cons_self
    have hrest := fun x hx => h x (List.mem_cons_of_mem _ hx)
    rw [dedupKeys, dedupKeys]
    by_cases hin : keyText repr spec r ∈ seen
    · rw [if_pos hin, if_pos (hr.mp hin)]
      exact ih hrest
    · rw [if_neg hin, if_neg fun h' => hin (hr.mpr h')]
      refine congrArg (r :: ·) (ih fun x hx => ?_)
      rw [List.mem_cons, List.mem_cons, hrest x hx]

/-- Dropping known texts afterwards is knowing them from the start. -/
theorem dedupKeys_filter : (dedupKeys repr spec seen records).filter (keyText repr spec · ∉ known)
    = dedupKeys repr spec (known ++ seen) records := by
  induction records generalizing seen with
  | nil => rfl
  | cons r records ih =>
    rw [dedupKeys, dedupKeys]
    by_cases hseen : keyText repr spec r ∈ seen
    · rw [if_pos hseen, if_pos (List.mem_append_right _ hseen)]
      exact ih
    rw [if_neg hseen]
    have hpush : dedupKeys repr spec (known ++ keyText repr spec r :: seen) records
        = dedupKeys repr spec (keyText repr spec r :: (known ++ seen)) records :=
      dedupKeys_congr fun x _ => (List.perm_middle).mem_iff
    by_cases hknown : keyText repr spec r ∈ known
    · -- the text is known already, so pushing it adds nothing
      rw [List.filter_cons_of_neg (by simpa using hknown), ih, hpush,
        if_pos (List.mem_append_left _ hknown)]
      refine dedupKeys_congr fun x _ => ⟨fun h => ?_, List.mem_cons_of_mem _⟩
      rcases List.mem_cons.mp h with h | h
      · exact h ▸ List.mem_append_left _ hknown
      · exact h
    · have hnew : keyText repr spec r ∉ known ++ seen := by
        rw [List.mem_append]
        exact not_or.mpr ⟨hknown, hseen⟩
      rw [List.filter_cons_of_pos (by simpa using hknown), ih, hpush, if_neg hnew]

/-- A scan goes on with what it knows and the texts it has seen. -/
theorem dedupKeys_append : dedupKeys repr spec seen (records ++ more)
    = dedupKeys repr spec seen records
      ++ dedupKeys repr spec (seen ++ records.map (keyText repr spec)) more := by
  induction records generalizing seen with
  | nil => simp [dedupKeys]
  | cons r records ih =>
    rw [List.cons_append, dedupKeys, dedupKeys]
    by_cases hseen : keyText repr spec r ∈ seen
    · rw [if_pos hseen, if_pos hseen, ih]
      refine congrArg (dedupKeys repr spec seen records ++ ·) (dedupKeys_congr fun x _ => ?_)
      rw [List.map_cons, List.mem_append, List.mem_append, List.mem_cons]
      constructor
      · rintro (h | h)
        · exact .inl h
        · exact .inr (.inr h)
      · rintro (h | h | h)
        · exact .inl h
        · exact .inl (h ▸ hseen)
        · exact .inr h
    · rw [if_neg hseen, if_neg hseen, ih, List.cons_append]
      refine congrArg (fun rest => r :: (dedupKeys repr spec _ records ++ rest))
        (dedupKeys_congr fun x _ => ?_)
      rw [List.map_cons]
      exact List.perm_middle.symm.mem_iff

theorem dedupKeys_known (h : ∀ r ∈ records, keyText repr spec r ∈ seen) :
    dedupKeys repr spec seen records = [] := by
  induction records with
  | nil => rfl
  | cons r records ih =>
    rw [dedupKeys, if_pos (h r List.mem_cons_self)]
    exact ih fun x hx => h x (List.mem_cons_of_mem _ hx)

/-- The first record of a text that is not known is kept. -/
theorem dedupKeys_first {r : Record} (hknown : keyText repr spec r ∉ seen)
    (hfirst : keyText repr spec r ∉ records.map (keyText repr spec)) :
    r ∈ dedupKeys repr spec seen (records ++ r :: more) := by
  have hnew : keyText repr spec r ∉ seen ++ records.map (keyText repr spec) := by
    rw [List.mem_append]
    exact not_or.mpr ⟨hknown, hfirst⟩
  rw [dedupKeys_append, dedupKeys, if_neg hnew]
  exact List.mem_append_right _ List.mem_cons_self

/-- The lenient validation is the scan that knows the stored texts. -/
theorem validate_land {t : PhysTable} {rows rs : List Record} :
    validate repr spec t rows true = .ok rs ↔ (∀ row ∈ rows, unknownColumns spec row = [])
      ∧ rs = dedupKeys repr spec (keyTexts t) (rows.map (project spec)) := by
  have hscan : (dedupKeys repr spec [] (rows.map (project spec))).filter (keyText repr spec · ∉
        existingKeys t ((dedupKeys repr spec [] (rows.map (project spec))).map (keyText repr spec)))
      = dedupKeys repr spec (keyTexts t) (rows.map (project spec)) := by
    rw [← List.append_nil (keyTexts t), ← dedupKeys_filter]
    refine List.filter_congr fun r hr => ?_
    have hiff : keyText repr spec r ∈ existingKeys t
          ((dedupKeys repr spec [] (rows.map (project spec))).map (keyText repr spec))
        ↔ keyText repr spec r ∈ keyTexts t := by
      rw [existingKeys, List.mem_filter]
      exact and_iff_left (decide_eq_true (List.mem_map_of_mem hr))
    rw [decide_eq_decide, not_iff_not, hiff]
  simp only [validate, if_true]
  split
  · next row hrow =>
    have hmem := List.mem_of_find?_eq_some hrow
    have hbad : unknownColumns spec row ≠ [] := by simpa using List.find?_some hrow
    constructor
    · intro h
      cases h
    · rintro ⟨hok, -⟩
      exact absurd (hok row hmem) hbad
  · next hnone =>
    have hok : ∀ row ∈ rows, unknownColumns spec row = [] := by
      intro row hrow
      simpa using List.find?_eq_none.mp hnone row hrow
    rw [Except.ok.injEq, hscan]
    exact ⟨fun h => ⟨hok, h.symm⟩, fun h => h.2.symm⟩

end Scan

/-! ## Vectors and tokens, text by text -/

/-- The embedder answers text by text: the vector of each text, in order. -/
def Env.Embeds (env : Env) (f : String → Vec) : Prop :=
  ∀ e, env.embedder = some e → ∀ texts out, e.embed texts = .ok out → out = texts.map f

/-- The vectors and tokens of a record that is embedded by itself. -/
def Env.searchFor (env : Env) (f : String → Vec) (spec : TableSpec) (r : Record) : List Search :=
  spec.searchable.map fun col =>
    match env.embedder, searchText env.repr (r.get col) with
    | some e, some t => (some (f t), some (e.tok t))
    | _, _ => (none, none)

section Embedding

variable {env : Env} {f : String → Vec} {spec : TableSpec} {rs : List Record}

theorem placeVecs_map (e : Embedder) (texts : List (Option String)) :
    placeVecs e texts ((texts.filterMap id).map f)
      = .ok (texts.map fun t => (t.map f, t.map e.tok)) := by
  induction texts with
  | nil => rfl
  | cons t texts ih =>
    cases t with
    | none =>
      rw [List.filterMap_cons_none rfl, placeVecs, ih]
      rfl
    | some t =>
      show placeVecs e (some t :: texts) (f t :: (texts.filterMap id).map f) = _
      rw [placeVecs, ih]
      rfl

theorem embedAll_ok_iff {e : Embedder} {texts : List String} {out : List Vec} :
    e.embedAll texts = .ok out
      ↔ e.embed texts = .ok out ∧ ∀ v ∈ out, v.components.length = e.dim := by
  unfold Embedder.embedAll
  split
  · next why hwhy => simp [hwhy]
  next got hgot =>
  rw [hgot, Except.ok.injEq]
  split
  · next v hv =>
    have hdim : v.components.length ≠ e.dim := by simpa using List.find?_some hv
    constructor
    · intro h
      cases h
    · rintro ⟨rfl, hall⟩
      exact absurd (hall v (List.mem_of_find?_eq_some hv)) hdim
  · next hnone =>
    rw [Except.ok.injEq]
    refine ⟨?_, And.left⟩
    rintro rfl
    refine ⟨rfl, fun v hv => ?_⟩
    simpa using List.find?_eq_none.mp hnone v hv

theorem embedColumn_map {e : Embedder} (he : ∀ texts out, e.embed texts = .ok out → out = texts.map f)
    {texts : List (Option String)} {column : List Search} (h : embedColumn e texts = .ok column) :
    column = texts.map fun t => (t.map f, t.map e.tok) := by
  suffices hplace : placeVecs e texts ((texts.filterMap id).map f) = .ok column by
    rw [placeVecs_map] at hplace
    exact (Except.ok.inj hplace).symm
  simp only [embedColumn] at h
  split at h
  · next hnil =>
    rw [hnil]
    exact h
  · obtain ⟨emb, hemb, hplace⟩ := bind_ok_iff.mp h
    rw [← he _ _ (embedAll_ok_iff.mp hemb).1]
    exact hplace

/-- A record of a batch gets the vectors and tokens of its own texts. -/
theorem searchAt_map (hf : env.Embeds f) {emb : List (String × List Search)}
    (h : embedRecords env spec rs = .ok emb) {i : Nat} (hi : i < rs.length) :
    searchAt spec emb i = env.searchFor f spec rs[i] := by
  refine List.map_congr_left fun col hcol => ?_
  unfold embedRecords at h
  cases he : env.embedder with
  | none =>
    rw [he] at h
    obtain rfl := Except.ok.inj h
    rfl
  | some e =>
    rw [he] at h
    set pairs : Record → String → Search := fun r col =>
      ((searchText env.repr (r.get col)).map f, (searchText env.repr (r.get col)).map e.tok)
    have hemb : spec.searchable.map (fun col => (col, rs.map (pairs · col))) = emb := by
      refine List.forall₂_eq_eq_eq ▸ List.forall₂_map_left_iff.mpr ((mapM_ok_iff.mp h).imp ?_)
      intro c p hp
      obtain ⟨column, hcolumn, hp⟩ := bind_ok_iff.mp hp
      rw [← Except.ok.inj hp, embedColumn_map (hf e he) hcolumn, List.map_map]
      rfl
    rw [← hemb, lookup_map, if_pos hcol]
    show ((rs.map (pairs · col))[i]?).getD (none, none) = _
    rw [List.getElem?_map, List.getElem?_eq_getElem hi]
    show ((searchText env.repr (rs[i].get col)).map f, (searchText env.repr (rs[i].get col)).map e.tok) = _
    cases searchText env.repr (rs[i].get col) <;> rfl

end Embedding

/-! ## What a landing leaves -/

/-- The row a landing made of a record: where the embedder answers text by text, it does not depend on
the rest of the batch. -/
def Env.Lands (env : Env) (spec : TableSpec) (st : Stamp) (r : Record) (row : Row) : Prop :=
  ∃ search, env.newRow spec r search (strVal st.ds) (strVal st.ts) = .ok row
    ∧ ∀ f, env.Embeds f → search = env.searchFor f spec r

/-- What the landing of some records left: their lines, and their rows in the one table. -/
structure Landed (env : Env) (spec : TableSpec) (st : Stamp) (rs : List Record) (new : List Row)
    (db db' : Db) : Prop where
  dumps : ∀ r ∈ rs, ∃ m, (putLine spec r st.ds st.ts).toMembers? = some m
  files : db'.files = db.files ++ (putMembers spec rs st).map (fun m => ⟨st.ds, spec.name, m⟩)
  made : List.Forall₂ (env.Lands spec st) rs new
  rows : (db'.tables spec.name).rows = (db.tables spec.name).rows ++ new
  other : ∀ name, name ≠ spec.name → db'.tables name = db.tables name

section Landed

variable {env : Env} {schema : Schema} {spec : TableSpec} {st : Stamp} {table : String}
  {rows rs : List Record} {new : List Row} {db db' : Db} {n : Option Nat}

theorem inserts_rows {batch : List (Record × List Search)} {ds ca : Val}
    (h : execAll env (batch.map fun p => .insert spec p.1 p.2 ds ca) db = (db', none)) :
    ∃ new, List.Forall₂ (fun p row => env.newRow spec p.1 p.2 ds ca = .ok row) batch new
      ∧ (db'.tables spec.name).rows = (db.tables spec.name).rows ++ new
      ∧ ∀ name, name ≠ spec.name → db'.tables name = db.tables name := by
  induction batch generalizing db with
  | nil =>
    obtain rfl := (Prod.mk.inj h).1
    exact ⟨[], .nil, (List.append_nil _).symm, fun _ _ => rfl⟩
  | cons p batch ih =>
    obtain ⟨mid, hexec, h⟩ := execAll_cons_none.mp h
    obtain ⟨row, t, hrow, -, -, ht, rfl⟩ := exec_insert_iff.mp hexec
    obtain ⟨new, hnew, hrows, hother⟩ := ih h
    refine ⟨row :: new, .cons hrow hnew, ?_, fun name hname => ?_⟩
    · rw [hrows, setTable_self, ht, List.append_assoc]
      rfl
    · rw [hother name hname, setTable_other db t hname]

/-- Lines and side datasets are none of the tables' business. -/
theorem execAll_tables {acts : List Act} (hrun : execAll env acts db = (db', none))
    (h : ∀ a ∈ acts, (∃ ds t line, a = .append ds t line) ∨ ∃ s x, a = .indexAppend s x) :
    db'.tables = db.tables := by
  suffices hall : (execAll env acts db).1.tables = db.tables by rwa [hrun] at hall
  refine execAll_keeps (I := fun d => d.tables = db.tables) rfl ?_
  intro a ha mid mid' hmid hexec
  rw [← hmid]
  rcases h a ha with ⟨ds, t, line, rfl⟩ | ⟨s, x, rfl⟩
  · obtain ⟨m, -, rfl⟩ := exec_append_iff.mp hexec
    rfl
  · simp only [exec] at hexec
    split at hexec
    · obtain rfl := Except.ok.inj hexec
      rfl
    · cases hexec

theorem insertActs_landed {emb : List (String × List Search)}
    (hemb : embedRecords env spec rs = .ok emb)
    (h : execAll env (insertActs env spec rs emb st) db = (db', none)) :
    ∃ new, Landed env spec st rs new db db' := by
  have hfiles := insert_files h
  have hdumps := fun r (hr : r ∈ rs) => insert_dumps h hr
  rw [insertActs, List.append_assoc] at h
  obtain ⟨mid, hputs, h⟩ := execAll_append_none.mp h
  obtain ⟨mid', hinserts, hindex⟩ := execAll_append_none.mp h
  have hmid : mid.tables = db.tables := by
    refine execAll_tables hputs fun a ha => ?_
    obtain ⟨r, -, rfl⟩ := List.mem_map.mp ha
    exact .inl ⟨_, _, _, rfl⟩
  have hend : db'.tables = mid'.tables := by
    refine execAll_tables hindex fun a ha => ?_
    exact .inr ⟨_, _, indexActs_mem ha⟩
  rw [rowActs_eq] at hinserts
  obtain ⟨new, hnew, hrows, hother⟩ := inserts_rows hinserts
  refine ⟨new, hdumps, hfiles, ?_, by rw [hend, hrows, hmid], fun name hname => ?_⟩
  · rw [List.forall₂_iff_get] at hnew ⊢
    obtain ⟨hlen, hnew⟩ := hnew
    rw [List.length_mapIdx] at hlen
    refine ⟨hlen, fun i hi hi' => ?_⟩
    -- the place of a record in the batch is the one its vectors are looked up at
    have hrow := hnew i (by rwa [List.length_mapIdx]) hi'
    simp only [List.get_eq_getElem, List.getElem_mapIdx] at hrow
    exact ⟨_, hrow, fun f hf => searchAt_map hf hemb hi⟩
  · rw [hend, hother name hname, hmid]

/-- A landing that raised nothing left the records of its scan. -/
theorem land_ok (htable : schema.table table = some spec)
    (h : land env schema st table rows db = (db', .ok n)) :
    ∃ new, Landed env spec st (dedupKeys env.repr spec (keyTexts (db.tables spec.name))
      (rows.map (project spec))) new db db' := by
  obtain ⟨d, acts, hd, hacts, hrun, -⟩ := execute_ok h
  obtain ⟨spec', rs, hspec, hrs, rfl⟩ := decide_insert hd
  obtain rfl : spec = spec' := Option.some.inj (htable.symm.trans hspec)
  obtain ⟨-, rfl⟩ := validate_land.mp hrs
  set rs := dedupKeys env.repr spec (keyTexts (db.tables spec.name)) (rows.map (project spec))
    with hscan
  cases hcases : rs with
  | nil =>
    rw [hcases] at hacts
    obtain rfl := Except.ok.inj hacts
    obtain rfl := (Prod.mk.inj hrun).1
    exact ⟨[], fun r hr => absurd hr List.not_mem_nil, (List.append_nil _).symm, .nil,
      (List.append_nil _).symm, fun _ _ => rfl⟩
  | cons r rest =>
    rw [hcases] at hacts
    obtain ⟨emb, hemb, rfl⟩ := plan_cons hacts
    exact insertActs_landed hemb hrun

/-- Landing rows under known keys only is nothing. -/
theorem land_known (htable : schema.table table = some spec)
    (h : ∀ row ∈ rows, unknownColumns spec row = []
      ∧ keyText env.repr spec row ∈ keyTexts (db.tables spec.name)) :
    land env schema st table rows db = (db, .ok none) := by
  have hscan : dedupKeys env.repr spec (keyTexts (db.tables spec.name)) (rows.map (project spec))
      = [] := by
    refine dedupKeys_known fun r hr => ?_
    obtain ⟨row, hrow, rfl⟩ := List.mem_map.mp hr
    rw [keyText, project_primary]
    exact (h row hrow).2
  have hv : validate env.repr spec (db.tables spec.name) rows true = .ok [] :=
    validate_land.mpr ⟨fun row hrow => (h row hrow).1, hscan.symm⟩
  have hd : decideOp env schema db.tables (.insert table rows true) = .ok (.records spec []) := by
    simp only [decideOp, Schema.tableSpec, htable]
    show (validate env.repr spec (db.tables spec.name) rows true >>= _) = _
    rw [hv]
    rfl
  rw [land, execute, hd]
  rfl

end Landed

/-! ## Keys as they are written and as they are stored -/

/-- DuckDB reads a number back from the text it writes it as. -/
def Env.CastsBack (env : Env) : Prop :=
  ∀ v i, env.bind .bigint v = some (.bigint i) → env.bind .bigint (strVal i.repr) = some (.bigint i)

section Keys

variable {env : Env} {spec : TableSpec} {st : Stamp} {r : Record} {row : Row}

theorem bind_back (hback : env.CastsBack) {v : Val} {c : Cell} {k : String}
    (h : env.bind spec.primary.sqlType v = some c) (htext : c.text = some k) :
    env.bind spec.primary.sqlType (strVal k) = some c := by
  rcases spec.primaryOk with ⟨-, ht⟩ | ⟨-, ht⟩
  · rw [ht] at h ⊢
    rcases env.bind_varchar _ _ h with rfl | ⟨s, rfl⟩
    · cases htext
    · rw [← Option.some.inj htext]
      exact env.bind_str s
  · rw [ht] at h ⊢
    rcases env.bind_bigint _ _ h with rfl | ⟨i, rfl⟩
    · cases htext
    · rw [← Option.some.inj htext]
      exact hback v i h

/-- The cell of a key that is a text depends on the text only. -/
theorem keyCell_text (h : ∃ k, r.get spec.primaryKey = strVal k) :
    env.keyCell spec r = env.bind spec.primary.sqlType (strVal (keyText env.repr spec r)) := by
  obtain ⟨k, hk⟩ := h
  rw [Env.keyCell, keyText, hk]
  rfl

theorem lands_cell (h : env.Lands spec st r row) : env.keyCell spec r = some row.key := by
  obtain ⟨search, hrow, -⟩ := h
  exact newRow_keyCell hrow

/-- Of records that all got a row, no two have the key of one row. -/
theorem landed_apart {as bs : List Record} {new : List Row}
    (hmade : List.Forall₂ (fun r row => env.keyCell spec r = some row.key) (as ++ bs) new)
    (hnodup : (new.map Row.key).Nodup) {a b : Record} (ha : a ∈ as) (hb : b ∈ bs) :
    env.keyCell spec a ≠ env.keyCell spec b := by
  have hcells : (as ++ bs).map (env.keyCell spec) = (new.map Row.key).map some := by
    rw [List.map_map]
    exact List.forall₂_eq_eq_eq ▸ List.forall₂_map_left_iff.mpr (List.forall₂_map_right_iff.mpr hmade)
  have hall : ((as ++ bs).map (env.keyCell spec)).Nodup := by
    rw [hcells]
    exact hnodup.map (Option.some_injective _)
  rw [List.map_append, List.nodup_append] at hall
  exact hall.2.2 _ (List.mem_map_of_mem ha) _ (List.mem_map_of_mem hb)

/-- What the second of two batches sees stored is what the scan of one batch has seen, as far as its
own records go: a text that only one of the two knows would make a landing break the PRIMARY KEY. -/
theorem texts_agree (hback : env.CastsBack) {db first : Db} {px py : List Record} {st₁ : Stamp}
    {newX newW newY : List Row} {t' t'' : PhysTable}
    (hkeys : ∀ r ∈ px ++ py, ∃ k, r.get spec.primaryKey = strVal k)
    (hfirst : Landed env spec st₁
      (dedupKeys env.repr spec (keyTexts (db.tables spec.name)) px) newX db first)
    (hwhole : List.Forall₂ (fun r row => env.keyCell spec r = some row.key)
      (dedupKeys env.repr spec (keyTexts (db.tables spec.name)) (px ++ py)) newW)
    (ht' : t'.rows = (db.tables spec.name).rows ++ newW)
    (hthen : List.Forall₂ (fun r row => env.keyCell spec r = some row.key)
      (dedupKeys env.repr spec (keyTexts (first.tables spec.name)) py) newY)
    (ht'' : t''.rows = (first.tables spec.name).rows ++ newY) {r : Record} (hr : r ∈ py) :
    keyText env.repr spec r ∈ keyTexts (db.tables spec.name) ++ px.map (keyText env.repr spec)
      ↔ keyText env.repr spec r ∈ keyTexts (first.tables spec.name) := by
  set old := keyTexts (db.tables spec.name) with hold
  set X := dedupKeys env.repr spec old px with hX
  have hcellsX : List.Forall₂ (fun r row => env.keyCell spec r = some row.key) X newX :=
    hfirst.made.imp fun _ _ => lands_cell
  have hfirstTexts : keyTexts (first.tables spec.name) = old ++ newX.filterMap fun r => r.key.text := by
    rw [keyTexts, hfirst.rows, List.filterMap_append]
    rfl
  have htextX : ∀ x ∈ X, ∃ k, x.get spec.primaryKey = strVal k := fun x hx =>
    hkeys x (List.mem_append_left _ (dedupKeys_subset _ _ _ x hx))
  have htextY : ∀ seen, ∀ y ∈ dedupKeys env.repr spec seen py, ∃ k, y.get spec.primaryKey = strVal k :=
    fun seen y hy => hkeys y (List.mem_append_right _ (dedupKeys_subset _ _ _ y hy))
  constructor
  · intro hknown
    by_contra hnew
    rcases List.mem_append.mp hknown with hk | hk
    · exact hnew (hfirstTexts ▸ List.mem_append_left _ hk)
    -- the first batch stored the text, under a cell whose own text is another one
    obtain ⟨z, hz, hzk⟩ := List.mem_map.mp hk
    rcases dedupKeys_covers env.repr px old hz with hseen | ⟨x, hx, hxk⟩
    · rw [hzk] at hseen
      exact hnew (hfirstTexts ▸ List.mem_append_left _ hseen)
    rcases dedupKeys_covers env.repr py (keyTexts (first.tables spec.name)) hr with hseen | ⟨y, hy, hyk⟩
    · exact hnew hseen
    have hnodup : ((newX ++ newY).map Row.key).Nodup := by
      have hall := t''.pkUnique
      rw [ht'', hfirst.rows, List.append_assoc, List.map_append] at hall
      exact hall.of_append_right
    refine landed_apart (List.rel_append hcellsX hthen) hnodup hx hy ?_
    rw [keyCell_text (htextX x hx), keyCell_text (htextY _ y hy), hxk, hzk, hyk]
  · intro hstored
    by_contra hnew
    rw [hfirstTexts] at hstored
    rcases List.mem_append.mp hstored with hk | hk
    · exact hnew (List.mem_append_left _ hk)
    -- the text is that of a new cell, and one batch would store it again
    obtain ⟨row, hrow, htext⟩ := List.mem_filterMap.mp hk
    obtain ⟨x, hx, hcell⟩ := forall₂_left hcellsX.flip hrow
    rcases dedupKeys_covers env.repr py (old ++ px.map (keyText env.repr spec)) hr with
      hseen | ⟨y, hy, hyk⟩
    · exact hnew hseen
    rw [dedupKeys_append] at hwhole
    have hnodup : (newW.map Row.key).Nodup := by
      have hall := t'.pkUnique
      rw [ht', List.map_append] at hall
      exact hall.of_append_right
    refine landed_apart hwhole hnodup hx hy ?_
    rw [keyCell_text (htextY _ y hy), hyk, hcell]
    exact (bind_back hback hcell htext).symm

end Keys

/-! ## Batches -/

/-- A row but for the day and the instant of its landing. -/
def Row.bare (r : Row) : Row := { r with ds := none, createdAt := none }

/-- A line but for the day and the instant, and the partition of the day. -/
def Line.bare (l : Line) : Line :=
  ⟨"", l.table, l.members.filter fun kv => kv.1 ∉ ["ds", "created_at"]⟩

section Batches

variable {env : Env} {schema : Schema} {spec : TableSpec} {st st' : Stamp} {table : String}
  {rs : List Record} {new new' : List Row} {db : Db}

theorem lands_shown {r : Record} {row row' : Row} (h : env.Lands spec st r row)
    (h' : env.Lands spec st' r row') : row.shown.bare = row'.shown.bare := by
  obtain ⟨search, hrow, -⟩ := h
  obtain ⟨search', hrow', -⟩ := h'
  obtain ⟨cells, key, d, c, hcells, hkey, -, -, heq⟩ := stored_ok_iff.mp (newRow_shown hrow)
  obtain ⟨cells', key', d', c', hcells', hkey', -, -, heq'⟩ := stored_ok_iff.mp (newRow_shown hrow')
  rw [heq, heq', Except.ok.inj (hcells.symm.trans hcells'), Except.ok.inj (hkey.symm.trans hkey')]
  rfl

/-- Under an embedder that answers text by text the vectors and tokens are the same, too. -/
theorem lands_bare {f : String → Vec} (hf : env.Embeds f) {r : Record} {row row' : Row}
    (h : env.Lands spec st r row) (h' : env.Lands spec st' r row') : row.bare = row'.bare := by
  have hshown := lands_shown h h'
  obtain ⟨search, hrow, hsearch⟩ := h
  obtain ⟨search', hrow', hsearch'⟩ := h'
  have hvecs : row.search = row'.search := by
    obtain ⟨base, -, rfl⟩ := newRow_ok_iff.mp hrow
    obtain ⟨base', -, rfl⟩ := newRow_ok_iff.mp hrow'
    show (if env.vss then search else []) = if env.vss then search' else []
    rw [hsearch f hf, hsearch' f hf]
  calc row.bare = { row.shown.bare with search := row.search } := rfl
    _ = { row'.shown.bare with search := row'.search } := by rw [hshown, hvecs]
    _ = row'.bare := rfl

/-- What was made of the same records twice, seen through a view of which the record decides. -/
theorem made_eq {α : Type} {view : Row → α} {R R' : Record → Row → Prop}
    (hview : ∀ r row row', R r row → R' r row' → view row = view row')
    (h : List.Forall₂ R rs new) (h' : List.Forall₂ R' rs new') : new.map view = new'.map view := by
  induction h generalizing new' with
  | nil =>
    obtain rfl := List.forall₂_nil_left_iff.mp h'
    rfl
  | cons hrow _ ih =>
    obtain ⟨row', rest', hrow', hrest', rfl⟩ := List.forall₂_cons_left_iff.mp h'
    rw [List.map_cons, List.map_cons, hview _ _ _ hrow hrow', ih hrest']

/-- The columns before the day and the instant of a put line are written without them. -/
theorem columns_bare {r : Record} {names : List String} {ds now : String} {m : Members}
    (hnames : ∀ c ∈ names, c ∉ metaColumns)
    (h : Record.toMembers? (names.map (fun c => (c, r.get c))
      ++ [("ds", strVal ds), ("created_at", strVal now)]) = some m) :
    Record.toMembers? (names.map fun c => (c, r.get c))
      = some (m.filter fun kv => kv.1 ∉ ["ds", "created_at"]) := by
  induction names generalizing m with
  | nil =>
    obtain rfl := Option.some.inj h
    rfl
  | cons c names ih =>
    rw [List.map_cons, List.cons_append, Record.toMembers?_cons] at h
    obtain ⟨j, hj, h⟩ := Option.bind_eq_some_iff.mp h
    obtain ⟨m', hm', rfl⟩ := Option.map_eq_some_iff.mp h
    have hrest := ih (fun x hx => hnames x (List.mem_cons_of_mem _ hx)) hm'
    have hc : c ∉ ["ds", "created_at"] := fun hmem =>
      hnames c List.mem_cons_self (List.mem_append_left ["deleted_ds", "deleted_at"] hmem)
    rw [List.map_cons, Record.toMembers?_cons, hj, Option.bind_some, hrest,
      List.filter_cons_of_pos (by simpa using hc)]
    rfl

theorem putLine_bare {r : Record} {m m' : Members}
    (h : (putLine spec r st.ds st.ts).toMembers? = some m)
    (h' : (putLine spec r st'.ds st'.ts).toMembers? = some m') :
    Line.bare ⟨st.ds, spec.name, m⟩ = Line.bare ⟨st'.ds, spec.name, m'⟩ := by
  have hnames : ∀ c ∈ spec.columnNames, c ∉ metaColumns := fun c hc => spec.not_mem_meta hc
  have hmembers := (columns_bare hnames h).symm.trans (columns_bare hnames h')
  exact congrArg (Line.mk "" spec.name) (Option.some.inj hmembers)

/-- Two landings of the same records append the same lines. -/
theorem putMembers_bare
    (hdumps : ∀ r ∈ rs, ∃ m, (putLine spec r st.ds st.ts).toMembers? = some m)
    (hdumps' : ∀ r ∈ rs, ∃ m, (putLine spec r st'.ds st'.ts).toMembers? = some m) :
    ((putMembers spec rs st).map fun m => Line.bare ⟨st.ds, spec.name, m⟩)
      = (putMembers spec rs st').map fun m => Line.bare ⟨st'.ds, spec.name, m⟩ := by
  induction rs with
  | nil => rfl
  | cons r rs ih =>
    obtain ⟨m, hm⟩ := hdumps r List.mem_cons_self
    obtain ⟨m', hm'⟩ := hdumps' r List.mem_cons_self
    have hrest := ih (fun x hx => hdumps x (List.mem_cons_of_mem _ hx))
      fun x hx => hdumps' x (List.mem_cons_of_mem _ hx)
    rw [putMembers, List.filterMap_cons, hm, putMembers, List.filterMap_cons, hm']
    exact List.cons_eq_cons.mpr ⟨putLine_bare hm hm', hrest⟩

/-- The rows of the tables, seen through a view of a landed row that leaves out the stamps. -/
theorem tables_agree {α : Type} {view : Row → α} {X Y : List Record} {st₁ st₂ : Stamp}
    {newW newX newY : List Row} {whole first both : Db}
    (hview : ∀ st st' r row row', env.Lands spec st r row → env.Lands spec st' r row' →
      view row = view row')
    (hw : Landed env spec st (X ++ Y) newW db whole) (hx : Landed env spec st₁ X newX db first)
    (hy : Landed env spec st₂ Y newY first both) (name : String) :
    (whole.tables name).rows.map view = (both.tables name).rows.map view := by
  by_cases hname : name = spec.name
  · subst hname
    -- the parts were stamped at different times
    have hparts : List.Forall₂ (fun r row => ∃ st, env.Lands spec st r row) (X ++ Y) (newX ++ newY) :=
      List.rel_append (hx.made.imp fun _ _ h => ⟨st₁, h⟩) (hy.made.imp fun _ _ h => ⟨st₂, h⟩)
    have hnew : newW.map view = (newX ++ newY).map view := by
      refine made_eq ?_ hw.made hparts
      rintro r row row' h ⟨st', h'⟩
      exact hview _ _ _ _ _ h h'
    rw [hw.rows, hy.rows, hx.rows, List.append_assoc, List.map_append, List.map_append, hnew]
  · rw [hw.other name hname, hy.other name hname, hx.other name hname]

theorem files_agree {X Y : List Record} {st₁ st₂ : Stamp} {newW newX newY : List Row}
    {whole first both : Db} (hw : Landed env spec st (X ++ Y) newW db whole)
    (hx : Landed env spec st₁ X newX db first) (hy : Landed env spec st₂ Y newY first both) :
    whole.files.map Line.bare = both.files.map Line.bare := by
  have hdumpsX := fun r hr => hw.dumps r (List.mem_append_left Y hr)
  have hdumpsY := fun r hr => hw.dumps r (List.mem_append_right X hr)
  have hsplit : putMembers spec (X ++ Y) st = putMembers spec X st ++ putMembers spec Y st :=
    List.filterMap_append
  rw [hw.files, hy.files, hx.files, hsplit]
  simp only [List.map_append, List.map_map, List.append_assoc]
  have hX := putMembers_bare hdumpsX hx.dumps
  have hY := putMembers_bare hdumpsY hy.dumps
  exact congrArg (db.files.map Line.bare ++ ·) (congrArg₂ (· ++ ·) hX hY)

/-- The sink does not see where its batches are cut.  Landing rows under keys that are stored, live or
not, is nothing.  And when one batch, and then its two parts one after the other, raise nothing, they
leave the same rows and the same lines up to the day and the instant they are stamped with, and under
each new key the first record of it. -/
theorem land_batches (db : Db) (hback : env.CastsBack) (htable : schema.table table = some spec) :
    (∀ rows st, (∀ row ∈ rows, unknownColumns spec row = []
        ∧ keyText env.repr spec row ∈ keyTexts (db.tables spec.name)) →
      land env schema st table rows db = (db, .ok none))
    ∧ ∀ xs ys st st₁ st₂ whole first both, (∀ row ∈ xs ++ ys, ∃ k, row.get spec.primaryKey = strVal k) →
      land env schema st table (xs ++ ys) db = (whole, .ok none) →
      land env schema st₁ table xs db = (first, .ok none) →
      land env schema st₂ table ys first = (both, .ok none) →
        (∀ name, (whole.shown name).map Row.bare = (both.shown name).map Row.bare)
        ∧ ((∃ f, env.Embeds f) → ∀ name,
          (whole.tables name).rows.map Row.bare = (both.tables name).rows.map Row.bare)
        ∧ whole.files.map Line.bare = both.files.map Line.bare
        ∧ ∀ pre row post, xs ++ ys = pre ++ row :: post →
          keyText env.repr spec row ∉ keyTexts (db.tables spec.name) →
          keyText env.repr spec row ∉ pre.map (keyText env.repr spec) →
            (∃ r ∈ whole.shown spec.name,
              env.stored spec (project spec row) (strVal st.ds) (strVal st.ts) = .ok r)
            ∧ ∃ m, (putLine spec (project spec row) st.ds st.ts).toMembers? = some m
              ∧ ⟨st.ds, spec.name, m⟩ ∈ whole.files := by
  refine ⟨fun rows st hrows => land_known htable hrows, ?_⟩
  intro xs ys st st₁ st₂ whole first both hkeys hwhole hfirst hthen
  obtain ⟨newW, hw⟩ := land_ok htable hwhole
  obtain ⟨newX, hx⟩ := land_ok htable hfirst
  obtain ⟨newY, hy⟩ := land_ok htable hthen
  have hproject : ∀ row, keyText env.repr spec (project spec row) = keyText env.repr spec row := by
    intro row
    rw [keyText, project_primary]
    rfl
  set px := xs.map (project spec) with hpx
  set py := ys.map (project spec) with hpy
  set old := keyTexts (db.tables spec.name) with hold
  have hwall := hw
  rw [List.map_append, ← hpx, ← hpy] at hw
  have hstrings : ∀ r ∈ px ++ py, ∃ k, r.get spec.primaryKey = strVal k := by
    intro r hr
    rw [hpx, hpy, ← List.map_append] at hr
    obtain ⟨row, hrow, rfl⟩ := List.mem_map.mp hr
    rw [project_primary]
    exact hkeys row hrow
  -- the second batch is scanned as the rest of the one batch is
  have hscan : dedupKeys env.repr spec (old ++ px.map (keyText env.repr spec)) py
      = dedupKeys env.repr spec (keyTexts (first.tables spec.name)) py :=
    dedupKeys_congr fun r hr => texts_agree hback hstrings hx
      (hw.made.imp fun _ _ => lands_cell) hw.rows (hy.made.imp fun _ _ => lands_cell) hy.rows hr
  rw [dedupKeys_append, hscan] at hw
  refine ⟨fun name => ?_, ?_, files_agree hw hx hy, ?_⟩
  · rw [Db.shown, Db.shown, List.map_map, List.map_map]
    exact tables_agree (fun _ _ _ _ _ => lands_shown) hw hx hy name
  · rintro ⟨f, hf⟩ name
    exact tables_agree (fun _ _ _ _ _ => lands_bare hf) hw hx hy name
  · intro pre row post hsplit hnew hfirst
    have hmem : project spec row ∈ dedupKeys env.repr spec old ((xs ++ ys).map (project spec)) := by
      rw [hsplit, List.map_append, List.map_cons]
      refine dedupKeys_first (by rwa [hproject]) ?_
      rw [hproject, List.map_map]
      exact fun h => hfirst (by simpa [Function.comp_def, hproject] using h)
    refine ⟨?_, ?_⟩
    · obtain ⟨r, hr, search, hrow, -⟩ := forall₂_left hwall.made hmem
      refine ⟨r.shown, List.mem_map_of_mem ?_, newRow_shown hrow⟩
      rw [hwall.rows]
      exact List.mem_append_right _ hr
    · obtain ⟨m, hm⟩ := hwall.dumps _ hmem
      refine ⟨m, hm, ?_⟩
      rw [hwall.files]
      exact List.mem_append_right _ (List.mem_map_of_mem (List.mem_filterMap.mpr ⟨_, hmem, hm⟩))

end Batches

/-! ## A row that is refused -/

/-- `{"table": "tallies", "columns": [id str, n int], "primary": "id"}`. -/
def tallies : TableSpec where
  name := "tallies"
  columns := [idColumn, ⟨"n", "int", .bigint⟩]
  primary := idColumn
  searchable := []
  namesNodup := by decide
  noMeta := by decide
  identNames := by
    intro c hc
    rcases List.mem_cons.mp hc with rfl | hc
    · exact ⟨'i', ['d'], by decide, by decide⟩
    · obtain rfl := List.mem_singleton.mp hc
      exact ⟨'n', [], by decide, by decide⟩
  primaryMem := by simp [idColumn]
  primaryOk := notes.primaryOk
  searchableOk := by simp

def talliesSchema : Schema := ⟨[tallies], by decide⟩

def noon : Stamp := ⟨"2026-03-01", "2026-03-01T12:00:00+00:00", by decide⟩

theorem plainEnv_castsBack : plainEnv.CastsBack := by
  intro v i _
  show (i.repr.toInt?).map Cell.bigint = _
  rw [Int.toInt?_repr]
  rfl

def tallyA : Record := [("id", strVal "a"), ("n", .json (.int 1))]
def tallyB : Record := [("id", strVal "b"), ("n", .json (.int 2))]

/-- What a landing leaves of the tallies. -/
def tallied (rows : List Record) (db : Db) : Db :=
  (land plainEnv talliesSchema noon "tallies" rows db).1

/-- A replay that overlaps: `a`, then `b` and `a` again, then `a` once more. -/
theorem land_batches_tallies : (tallied [tallyA, tallyB, tallyA] Db.init).files.map Line.bare
      = (tallied [tallyB, tallyA] (tallied [tallyA] Db.init)).files.map Line.bare
    ∧ land plainEnv talliesSchema noon "tallies" [tallyA] (tallied [tallyA] Db.init)
      = (tallied [tallyA] Db.init, .ok none) := by
  have hkeys : ∀ row ∈ [tallyA] ++ [tallyB, tallyA],
      ∃ k, Record.get row tallies.primaryKey = strVal k := by
    intro row hrow
    simp only [List.cons_append, List.nil_append, List.mem_cons, List.not_mem_nil, or_false] at hrow
    rcases hrow with rfl | rfl | rfl
    exacts [⟨"a", rfl⟩, ⟨"b", rfl⟩, ⟨"a", rfl⟩]
  have htable : talliesSchema.table "tallies" = some tallies := rfl
  constructor
  · exact ((land_batches Db.init plainEnv_castsBack htable).2 [tallyA] [tallyB, tallyA] noon noon noon
      (tallied ([tallyA] ++ [tallyB, tallyA]) Db.init) (tallied [tallyA] Db.init)
      (tallied [tallyB, tallyA] (tallied [tallyA] Db.init)) hkeys rfl rfl rfl).2.2.1
  · refine (land_batches _ plainEnv_castsBack htable).1 [tallyA] noon fun row hrow => ?_
    obtain rfl := List.mem_singleton.mp hrow
    exact ⟨by decide, by decide⟩

def tallyWrong : Record := [("id", strVal "a"), ("n", strVal "abc")]

/-- A row whose value DuckDB refuses keeps the rows after it out of the table when they are in one
batch with it, and not when they are in the next. -/
theorem cut_is_seen :
    (∀ row ∈ [tallyWrong, tallyB], unknownColumns tallies row = []
      ∧ ∃ k, Record.get row tallies.primaryKey = strVal k)
    ∧ (land castEnv talliesSchema noon "tallies" ([tallyWrong] ++ [tallyB]) Db.init).1.shown "tallies"
      = []
    ∧ ((land castEnv talliesSchema noon "tallies" [tallyB]
        (land castEnv talliesSchema noon "tallies" [tallyWrong] Db.init).1).1.shown "tallies").map Row.key
      = [.varchar "b"] := by
  refine ⟨?_, by decide, by decide⟩
  intro row hrow
  rcases List.mem_cons.mp hrow with rfl | hrow
  · exact ⟨by decide, "a", rfl⟩
  · obtain rfl := List.mem_singleton.mp hrow
    exact ⟨by decide, "b", rfl⟩

end Seekbase
