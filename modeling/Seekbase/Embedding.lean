/-
# Seekbase.Embedding — vectors and tokens by index, in a batch and one record at a time.

`embed_records` embeds a column in one call.  The texts that are there are picked out by their indices,
and what comes back for the `j`-th of them is written at the index it was picked from; all else stays
`None`.  Three readers take the columns apart again: the reload slices one record's entries out, and the
rows of the table and of the side dataset are filled by index.

* `GivesAll`, `Owns`        — what an embedder that answers text by text gives a batch and a record;
* `EmbeddingService.embedRecords` — the columns, by index;
* `foldlM_place`            — the loop writes at its indices what `placeVecs` gives out in order;
* `embedRecords_pairs`      — so the columns are those of `embedRecords`;
* `slice_ofPairs`, `searchCells_ofPairs`, `payload_ofPairs` — the three readers;
* `rowActs_own`, `reloadActs_own` — what the acts of a write and of a reload insert;
* `batch_rowwise`           — every record gets from a batch what it gets alone.
-/
import Seekbase.Landing

namespace Seekbase

open JsonText

/-! ## Text by text -/

/-- `embed` answers text by text: a vector for each, in order. -/
def Embedder.Pointwise (e : Embedder) (f : String → Except String Vec) : Prop :=
  ∀ texts, e.embed texts = texts.mapM f

/-- What a text is given: nothing where there is none, and else the vector of that text, of the
embedder's dimension, and its tokens. -/
inductive Embedder.Gives (e : Embedder) (f : String → Except String Vec) :
    Option String → Search → Prop where
  | absent : e.Gives f none (none, none)
  | present {t : String} {v : Vec} : f t = .ok v → v.components.length = e.dim →
      e.Gives f (some t) (some v, some (e.tok t))

/-- Each searchable column has for each record what its text is given. -/
def Embedder.GivesAll (e : Embedder) (f : String → Except String Vec) (repr : Json → String)
    (spec : TableSpec) (rs : List Record) (emb : List (String × List Search)) : Prop :=
  List.Forall₂ (fun col p => p.1 = col
    ∧ List.Forall₂ (fun r s => e.Gives f (searchText repr (r.get col)) s) rs p.2) spec.searchable emb

/-- What a record has of its own: for each searchable column what its text is given. -/
def Embedder.Owns (e : Embedder) (f : String → Except String Vec) (repr : Json → String)
    (spec : TableSpec) (r : Record) (own : List Search) : Prop :=
  List.Forall₂ (fun col s => e.Gives f (searchText repr (r.get col)) s) spec.searchable own

section Pointwise

variable {e : Embedder} {f : String → Except String Vec} {texts : List (Option String)}
  {column : List Search}

theorem Embedder.Gives.none_iff {t : Option String} {s : Search} (h : e.Gives f t s) :
    (s.1 = none ↔ t = none) ∧ (s.2 = none ↔ t = none) := by
  cases h with
  | absent => exact ⟨by simp, by simp⟩
  | present => exact ⟨by simp, by simp⟩

theorem searchText_none_iff {repr : Json → String} {v : Val} :
    searchText repr v = none ↔ v.isNone = true ∨ v.str repr = "" := by
  unfold searchText
  split_ifs with h
  · simpa using h
  · simpa using h

theorem embedAll_pointwise (hf : e.Pointwise f) {texts : List String} {out : List Vec} :
    e.embedAll texts = .ok out
      ↔ List.Forall₂ (fun t v => f t = .ok v ∧ v.components.length = e.dim) texts out := by
  rw [embedAll_ok_iff, hf, mapM_ok_iff]
  constructor
  · rintro ⟨hout, hdim⟩
    exact (List.forall₂_and_left ..).mpr ⟨hdim, hout.flip⟩ |>.flip.imp fun _ _ h => h.symm
  · intro h
    have hboth := (List.forall₂_and_left ..).mp (h.imp fun _ _ h => h.symm).flip
    exact ⟨hboth.2.flip, hboth.1⟩

/-- Giving out the vectors of the texts that are there gives every text what it is given. -/
theorem placeVecs_gives : (∃ vecs,
      List.Forall₂ (fun t v => f t = .ok v ∧ v.components.length = e.dim) (texts.filterMap id) vecs
        ∧ placeVecs e texts vecs = .ok column)
    ↔ List.Forall₂ (e.Gives f) texts column := by
  induction texts generalizing column with
  | nil =>
    constructor
    · rintro ⟨vecs, -, h⟩
      obtain rfl := Except.ok.inj h
      exact .nil
    · intro h
      obtain rfl := List.forall₂_nil_left_iff.mp h
      exact ⟨[], .nil, rfl⟩
  | cons t texts ih =>
    rw [List.forall₂_cons_left_iff]
    constructor
    · rintro ⟨vecs, hvecs, h⟩
      cases t with
      | none =>
        obtain ⟨rest, hrest, rfl⟩ := map_ok_iff.mp h
        exact ⟨_, rest, .absent, ih.mp ⟨vecs, hvecs, hrest⟩, rfl⟩
      | some t =>
        obtain ⟨v, more, hv, hmore, rfl⟩ := List.forall₂_cons_left_iff.mp hvecs
        obtain ⟨rest, hrest, rfl⟩ := map_ok_iff.mp h
        exact ⟨_, rest, .present hv.1 hv.2, ih.mp ⟨more, hmore, hrest⟩, rfl⟩
    · rintro ⟨s, rest, hs, hrest, rfl⟩
      obtain ⟨vecs, hvecs, hplace⟩ := ih.mpr hrest
      cases hs with
      | absent => exact ⟨vecs, hvecs, map_ok_iff.mpr ⟨rest, hplace, rfl⟩⟩
      | @present t v hv hdim =>
        exact ⟨v :: vecs, .cons ⟨hv, hdim⟩ hvecs, map_ok_iff.mpr ⟨rest, hplace, rfl⟩⟩

theorem embedColumn_pointwise (hf : e.Pointwise f) :
    embedColumn e texts = .ok column ↔ List.Forall₂ (e.Gives f) texts column := by
  rw [← placeVecs_gives]
  simp only [embedColumn]
  split
  · next hnil =>
    rw [hnil]
    simp only [List.forall₂_nil_left_iff, exists_eq_left]
    rfl
  · rw [bind_ok_iff]
    simp only [embedAll_pointwise hf]

end Pointwise

namespace EmbeddingService

/-! ## The columns -/

/-- What `embed_records` returns: for each searchable column a list aligned with the records. -/
structure Columns where
  vecs : List (String × List (Option Vec))
  toks : List (String × List (Option String))

section Code

variable (e : Embedder) (repr : Json → String)

/-- `t is not None and str(t) != ""`. -/
def present (t : Val) : Bool := !t.isNone && t.str repr != ""

/-- The indices, from `k` on, of the texts to embed. -/
def idxFrom (k : Nat) (texts : List Val) : List Nat :=
  ((texts.zipIdx k).filter fun p => present repr p.1).map Prod.snd

/-- `str(texts[i])`; the indices are those of `texts`. -/
def textAt (texts : List Val) (i : Nat) : String := (texts.getD i (.json .null)).str repr

/-- One turn of the loop: `cv[i] = emb[j]` and `ct[i] = self.tok(str(texts[i]))`. -/
def place (texts : List Val) (emb : List Vec) (cells : List (Option Vec) × List (Option String))
    (p : Nat × Nat) : Except Exc (List (Option Vec) × List (Option String)) :=
  match emb[p.2]? with
  | none => .error .embedderShort
  | some v => .ok (cells.1.set p.1 (some v), cells.2.set p.1 (some (e.tok (textAt repr texts p.1))))

/-- One searchable column. -/
def embedColumn (texts : List Val) : Except Exc (List (Option Vec) × List (Option String)) := do
  let idx := idxFrom repr 0 texts
  let emb ← if idx = [] then pure [] else e.embedAll (idx.map (textAt repr texts))
  let empty := (List.replicate texts.length none, List.replicate texts.length none)
  idx.zipIdx.foldlM (place e repr texts emb) empty

/-- `embed_records`. -/
def embedRecords (spec : TableSpec) (records : List Record) : Except Exc Columns := do
  let cols ← spec.searchable.mapM fun col => do
    let cells ← embedColumn e repr (records.map fun r => r.get col)
    pure (col, cells)
  pure ⟨cols.map fun p => (p.1, p.2.1), cols.map fun p => (p.1, p.2.2)⟩

end Code

/-! ## The readers -/

/-- `{c: [vecs[c][i]] for c in vecs}`, and the same of the tokens; nothing where an index is out of
range. -/
def Columns.slice (C : Columns) (i : Nat) : Option Columns := do
  let vecs ← C.vecs.mapM fun p => p.2[i]?.map fun v => (p.1, [v])
  let toks ← C.toks.mapM fun p => p.2[i]?.map fun t => (p.1, [t])
  pure ⟨vecs, toks⟩

/-- `vecs.get(col, [None] * len(records))[i]` and the same of the tokens, column by column: what
`_insert_rows` puts into row `i` of `n`. -/
def Columns.searchCells (C : Columns) (spec : TableSpec) (n i : Nat) : Option (List Search) :=
  spec.searchable.mapM fun col => do
    let v ← ((lookup col C.vecs).getD (List.replicate n none))[i]?
    let t ← ((lookup col C.toks).getD (List.replicate n none))[i]?
    pure (v, t)

/-- `_lance_payload`: the vectors normalized. -/
def Columns.payload (C : Columns) (env : Env) (spec : TableSpec) (records : List Record) :
    Option (List IndexRow) :=
  records.zipIdx.mapM fun p => (C.searchCells spec records.length p.2).map fun cells =>
    ⟨keyText env.repr spec p.1, cells.map fun s => (s.1.map env.normalize, s.2)⟩

/-! ## The loop -/

section Loop

variable {e : Embedder} {repr : Json → String}

theorem present_iff {t : Val} : present repr t = (searchText repr t).isSome := by
  unfold present searchText
  cases t.isNone <;> cases h : (t.str repr == "") <;> simp_all [bne]

theorem searchText_present {t : Val} (h : present repr t = true) :
    searchText repr t = some (t.str repr) := by
  obtain ⟨s, hs⟩ := Option.isSome_iff_exists.mp (present_iff ▸ h)
  rw [hs]
  unfold searchText at hs
  split_ifs at hs
  exact hs.symm

theorem searchText_absent {t : Val} (h : ¬ present repr t = true) : searchText repr t = none := by
  rw [present_iff] at h
  exact Option.not_isSome_iff_eq_none.mp h

theorem idxFrom_cons (k : Nat) (t : Val) (texts : List Val) : idxFrom repr k (t :: texts)
    = if present repr t then k :: idxFrom repr (k + 1) texts else idxFrom repr (k + 1) texts := by
  rw [idxFrom, List.zipIdx_cons, List.filter_cons]
  split <;> rfl

theorem textAt_length (before texts : List Val) (t : Val) :
    textAt repr (before ++ t :: texts) before.length = t.str repr := by
  simp [textAt]

/-- The texts that are picked out, by index or one after the other. -/
theorem map_idxFrom (before texts : List Val) :
    (idxFrom repr before.length texts).map (textAt repr (before ++ texts))
      = (texts.map (searchText repr)).filterMap id := by
  induction texts generalizing before with
  | nil => rfl
  | cons t texts ih =>
    have hrest := ih (before ++ [t])
    rw [List.length_append, List.length_singleton, List.append_assoc, List.singleton_append] at hrest
    rw [idxFrom_cons, List.map_cons]
    by_cases ht : present repr t = true
    · rw [if_pos ht, List.map_cons, textAt_length, hrest, searchText_present ht]
      rfl
    · rw [if_neg ht, hrest, searchText_absent ht]
      rfl

theorem set_length {α : Type} {cells : List (Option α)} {n : Nat} (h : cells.length = n) (a : α)
    (rest : List (Option α)) :
    (cells ++ none :: rest).set n (some a) = cells ++ some a :: rest := by
  subst h
  simp

/-- The loop writes at its indices what is given out in order.  Of the texts those before have had their
turn, with `j` vectors used and the cells `cv` and `ct` written. -/
theorem foldlM_place (before texts : List Val) (emb : List Vec) (j : Nat) (cv : List (Option Vec))
    (ct : List (Option String)) (hcv : cv.length = before.length) (hct : ct.length = before.length) :
    ((idxFrom repr before.length texts).zipIdx j).foldlM (place e repr (before ++ texts) emb)
        (cv ++ List.replicate texts.length none, ct ++ List.replicate texts.length none)
      = (placeVecs e (texts.map (searchText repr)) (emb.drop j)).map fun cells =>
          (cv ++ cells.map Prod.fst, ct ++ cells.map Prod.snd) := by
  induction texts generalizing before j cv ct with
  | nil => rfl
  | cons t texts ih =>
    have hrest (j : Nat) (v : Option Vec) (w : Option String) :=
      ih (before ++ [t]) j (cv ++ [v]) (ct ++ [w]) (by simp [hcv]) (by simp [hct])
    simp only [List.length_append, List.length_singleton, List.append_assoc, List.singleton_append]
      at hrest
    rw [idxFrom_cons, List.map_cons, List.length_cons, List.replicate_succ, List.replicate_succ]
    by_cases ht : present repr t = true
    · rw [if_pos ht, searchText_present ht, List.zipIdx_cons, List.foldlM_cons]
      by_cases hj : j < emb.length
      · have hplace : place e repr (before ++ t :: texts) emb
            (cv ++ none :: List.replicate texts.length none, ct ++ none :: List.replicate texts.length none)
            (before.length, j)
          = .ok (cv ++ some emb[j] :: List.replicate texts.length none,
              ct ++ some (e.tok (t.str repr)) :: List.replicate texts.length none) := by
          simp only [place, List.getElem?_eq_getElem hj, textAt_length, set_length hcv, set_length hct]
        rw [hplace, List.drop_eq_getElem_cons hj, placeVecs]
        refine (hrest (j + 1) (some emb[j]) (some (e.tok (t.str repr)))).trans ?_
        cases placeVecs e (texts.map (searchText repr)) (emb.drop (j + 1)) <;> rfl
      · -- more texts than vectors
        have hnone : emb[j]? = none := List.getElem?_eq_none (by omega)
        rw [List.drop_eq_nil_of_le (by omega)]
        simp only [place, hnone]
        rfl
    · rw [if_neg ht, searchText_absent ht, placeVecs]
      refine (hrest j none none).trans ?_
      cases placeVecs e (texts.map (searchText repr)) (emb.drop j) <;> rfl

theorem embedColumn_pairs (texts : List Val) : EmbeddingService.embedColumn e repr texts
    = (Seekbase.embedColumn e (texts.map (searchText repr))).map fun column =>
        (column.map Prod.fst, column.map Prod.snd) := by
  have hidx : (idxFrom repr 0 texts).map (textAt repr texts)
      = (texts.map (searchText repr)).filterMap id := map_idxFrom [] texts
  have hloop (emb : List Vec) : (idxFrom repr 0 texts).zipIdx.foldlM (place e repr texts emb)
        (List.replicate texts.length none, List.replicate texts.length none)
      = (placeVecs e (texts.map (searchText repr)) emb).map fun column =>
          (column.map Prod.fst, column.map Prod.snd) :=
    foldlM_place [] texts emb 0 [] [] rfl rfl
  simp only [embedColumn, Seekbase.embedColumn, ← hidx, List.map_eq_nil_iff]
  by_cases hnil : idxFrom repr 0 texts = []
  · rw [if_pos hnil, if_pos hnil]
    exact hloop []
  · rw [if_neg hnil, if_neg hnil]
    cases e.embedAll ((idxFrom repr 0 texts).map (textAt repr texts)) with
    | error x => rfl
    | ok emb => exact hloop emb

end Loop

/-! ## The columns, and what reads them -/

/-- The lists of vectors and the lists of tokens. -/
def Columns.ofPairs (emb : List (String × List Search)) : Columns :=
  ⟨emb.map fun p => (p.1, p.2.map Prod.fst), emb.map fun p => (p.1, p.2.map Prod.snd)⟩

section Columns

variable {env : Env} {e : Embedder} {spec : TableSpec} {rs : List Record}
  {emb : List (String × List Search)}

theorem mapM_map_right {ε α β γ : Type} {f : α → Except ε β} {g : β → γ} (xs : List α) :
    (xs.mapM fun x => (f x).map g) = (xs.mapM f).map (List.map g) := by
  induction xs with
  | nil => rfl
  | cons x xs ih =>
    rw [List.mapM_cons, List.mapM_cons, ih]
    cases f x with
    | error why => rfl
    | ok y => cases xs.mapM f <;> rfl

/-- The columns are those of the pairs, and it raises when they do. -/
theorem embedRecords_pairs (he : env.embedder = some e) :
    EmbeddingService.embedRecords e env.repr spec rs
      = (Seekbase.embedRecords env spec rs).map Columns.ofPairs := by
  have hcol (col : String) : (do
        let cells ← embedColumn e env.repr (rs.map fun r : Record => r.get col)
        pure (col, cells) : Except Exc _)
      = (do
        let column ← Seekbase.embedColumn e (rs.map fun r : Record => searchText env.repr (r.get col))
        pure (col, column) : Except Exc _).map fun p => (p.1, p.2.map Prod.fst, p.2.map Prod.snd) := by
    rw [embedColumn_pairs, List.map_map]
    show _ = Except.map _ (Seekbase.embedColumn e (rs.map (searchText env.repr ∘ fun r => r.get col)) >>= _)
    cases Seekbase.embedColumn e (rs.map (searchText env.repr ∘ fun r => r.get col)) <;> rfl
  unfold EmbeddingService.embedRecords Seekbase.embedRecords
  simp only [he, hcol, mapM_map_right]
  generalize (spec.searchable.mapM _ : Except Exc (List (String × List Search))) = pairs
  cases pairs with
  | error x => rfl
  | ok emb =>
    show Except.ok (Columns.mk _ _) = _
    simp only [List.map_map]
    rfl

/-- What one record has of the columns. -/
def sliceOf (i : Nat) (emb : List (String × List Search)) : List (String × List Search) :=
  emb.map fun p => (p.1, (p.2[i]?).toList)

theorem mapM_slice {α β : Type} {i : Nat} (get : α → β) {emb : List (String × List α)}
    (h : ∀ p ∈ emb, i < p.2.length) :
    ((emb.map fun p => (p.1, p.2.map get)).mapM fun p => p.2[i]?.map fun v => (p.1, [v]))
      = some (emb.map fun p => (p.1, (p.2[i]?).toList.map get)) := by
  induction emb with
  | nil => rfl
  | cons p emb ih =>
    have hp := List.getElem?_eq_getElem (h p List.mem_cons_self)
    rw [List.map_cons, List.mapM_cons, ih fun q hq => h q (List.mem_cons_of_mem _ hq),
      List.map_cons, List.getElem?_map, hp]
    rfl

/-- The slice is the columns of one record. -/
theorem slice_ofPairs {i : Nat} (h : ∀ p ∈ emb, i < p.2.length) :
    (Columns.ofPairs emb).slice i = some (Columns.ofPairs (sliceOf i emb)) := by
  simp only [Columns.slice, Columns.ofPairs, mapM_slice _ h, sliceOf, List.map_map]
  rfl

theorem getElem?_column {α : Type} {n i : Nat} (hi : i < n) (get : Search → Option α)
    (hget : get (none, none) = none) {col : String} (h : ∀ p ∈ emb, p.2.length = n) :
    ((lookup col (emb.map fun p => (p.1, p.2.map get))).getD (List.replicate n none))[i]?
      = some (get (((lookup col emb).bind (·[i]?)).getD (none, none))) := by
  rw [lookup_map_snd]
  cases hcol : lookup col emb with
  | none =>
    show (List.replicate n none)[i]? = some (get (none, none))
    rw [hget, List.getElem?_replicate, if_pos hi]
  | some ss =>
    have hlen : ss.length = n := h _ (mem_of_lookup hcol)
    have hss : i < ss.length := by omega
    show (ss.map get)[i]? = some (get (ss[i]?.getD (none, none)))
    rw [List.getElem?_map, List.getElem?_eq_getElem hss]
    rfl

/-- The cells read by index are those of `searchAt`. -/
theorem searchCells_ofPairs {n i : Nat} (hi : i < n) (h : ∀ p ∈ emb, p.2.length = n) :
    (Columns.ofPairs emb).searchCells spec n i = some (searchAt spec emb i) := by
  simp only [Columns.searchCells, Columns.ofPairs, getElem?_column hi Prod.fst rfl h,
    getElem?_column hi Prod.snd rfl h]
  exact List.mapM_pure

theorem mapM_some {α β : Type} {f : α → Option β} {g : α → β} {xs : List α}
    (h : ∀ x ∈ xs, f x = some (g x)) : xs.mapM f = some (xs.map g) := by
  induction xs with
  | nil => rfl
  | cons x xs ih =>
    rw [List.mapM_cons, h x List.mem_cons_self, ih fun y hy => h y (List.mem_cons_of_mem _ hy)]
    rfl

/-- The rows of the side dataset are those of `lancePayload`. -/
theorem payload_ofPairs (h : ∀ p ∈ emb, p.2.length = rs.length) :
    (Columns.ofPairs emb).payload env spec rs = some (lancePayload env spec rs emb) := by
  rw [lancePayload, List.mapIdx_eq_zipIdx_map]
  refine mapM_some fun p hp => ?_
  obtain ⟨hi, -⟩ := List.mem_zipIdx' hp
  rw [searchCells_ofPairs hi h]
  rfl

/-- What is read at a record's index is what is read of its slice at the one there is. -/
theorem searchAt_slice (i : Nat) : searchAt spec (sliceOf i emb) 0 = searchAt spec emb i := by
  refine List.map_congr_left fun col _ => ?_
  rw [sliceOf, lookup_map_snd col (fun ss : List Search => (ss[i]?).toList)]
  cases lookup col emb with
  | none => rfl
  | some ss =>
    show ((ss[i]?.toList)[0]?).getD (none, none) = (ss[i]?).getD (none, none)
    cases ss[i]? <;> rfl

end Columns

end EmbeddingService

/-! ## A batch and its records -/

theorem forall₂_exists {α β : Type} {R : α → β → Prop} {as : List α}
    (h : ∀ a ∈ as, ∃ b, R a b) : ∃ bs, List.Forall₂ R as bs := by
  induction as with
  | nil => exact ⟨[], .nil⟩
  | cons a as ih =>
    obtain ⟨b, hb⟩ := h a List.mem_cons_self
    obtain ⟨bs, hbs⟩ := ih fun x hx => h x (List.mem_cons_of_mem _ hx)
    exact ⟨b :: bs, .cons hb hbs⟩

namespace Embedder.GivesAll

variable {env : Env} {e : Embedder} {f : String → Except String Vec} {repr : Json → String}
  {spec : TableSpec} {rs : List Record} {emb : List (String × List Search)}

theorem iff_ok (he : env.embedder = some e) (hf : e.Pointwise f) :
    e.GivesAll f env.repr spec rs emb ↔ embedRecords env spec rs = .ok emb := by
  unfold embedRecords
  simp only [he]
  rw [mapM_ok_iff]
  simp only [bind_ok_iff, embedColumn_pointwise hf, List.forall₂_map_left_iff]
  have hcol (col : String) (p : String × List Search) : (p.1 = col
        ∧ List.Forall₂ (fun r s => e.Gives f (searchText env.repr (r.get col)) s) rs p.2)
      ↔ ∃ ss, List.Forall₂ (fun r s => e.Gives f (searchText env.repr (r.get col)) s) rs ss
        ∧ (pure (col, ss) : Except Exc (String × List Search)) = .ok p := by
    constructor
    · rintro ⟨rfl, h⟩
      exact ⟨p.2, h, rfl⟩
    · rintro ⟨ss, h, hp⟩
      obtain rfl := Except.ok.inj hp
      exact ⟨rfl, h⟩
  exact ⟨fun h => h.imp fun col p => (hcol col p).mp, fun h => h.imp fun col p => (hcol col p).mpr⟩

theorem aligned (h : e.GivesAll f repr spec rs emb) : ∀ p ∈ emb, p.2.length = rs.length := by
  intro p hp
  obtain ⟨col, -, -, hcol⟩ := forall₂_left h.flip hp
  exact hcol.length_eq.symm

theorem column (h : e.GivesAll f repr spec rs emb) {col : String} (hcol : col ∈ spec.searchable) :
    ∃ ss, lookup col emb = some ss
      ∧ List.Forall₂ (fun r s => e.Gives f (searchText repr (r.get col)) s) rs ss := by
  obtain ⟨p, hp, rfl, -⟩ := forall₂_left h hcol
  obtain ⟨ss, hss⟩ := Option.isSome_iff_exists.mp
    ((lookup_isSome_iff p.1 emb).mpr (List.mem_map_of_mem hp))
  obtain ⟨other, -, hother, hgiven⟩ := forall₂_left h.flip (mem_of_lookup hss)
  exact ⟨ss, hss, hother ▸ hgiven⟩

/-- One record of a batch has its slice. -/
theorem slice (h : e.GivesAll f repr spec rs emb) {i : Nat} (hi : i < rs.length) :
    e.GivesAll f repr spec [rs[i]] (EmbeddingService.sliceOf i emb) := by
  refine List.forall₂_map_right_iff.mpr (h.imp ?_)
  rintro col p ⟨hcol, hgiven⟩
  have hlt : i < p.2.length := by
    have := hgiven.length_eq
    omega
  refine ⟨hcol, ?_⟩
  rw [List.getElem?_eq_getElem hlt]
  exact .cons (hgiven.get hi hlt) .nil

/-- There are columns when each text can be given something. -/
theorem exists_iff : (∃ emb, e.GivesAll f repr spec rs emb)
    ↔ ∀ r ∈ rs, ∀ col ∈ spec.searchable, ∃ s, e.Gives f (searchText repr (r.get col)) s := by
  constructor
  · rintro ⟨emb, h⟩ r hr col hcol
    obtain ⟨ss, -, hgiven⟩ := h.column hcol
    obtain ⟨s, -, hs⟩ := forall₂_left hgiven hr
    exact ⟨s, hs⟩
  · intro h
    refine forall₂_exists fun col hcol => ?_
    obtain ⟨ss, hss⟩ := forall₂_exists fun r hr => h r hr col hcol
    exact ⟨(col, ss), rfl, hss⟩

theorem owns (h : e.GivesAll f repr spec rs emb) {i : Nat} (hi : i < rs.length) :
    e.Owns f repr spec rs[i] (searchAt spec emb i) := by
  refine List.forall₂_map_right_iff.mpr (List.forall₂_same.mpr fun col hcol => ?_)
  obtain ⟨ss, hss, hgiven⟩ := h.column hcol
  have hlt : i < ss.length := by
    have := hgiven.length_eq
    omega
  rw [hss]
  show e.Gives f _ (ss[i]?.getD (none, none))
  rw [List.getElem?_eq_getElem hlt]
  exact hgiven.get hi hlt

end Embedder.GivesAll

section Batch

open EmbeddingService

variable {env : Env} {e : Embedder} {f : String → Except String Vec} {spec : TableSpec}
  {rs : List Record} {emb : List (String × List Search)}

theorem columns_ok_iff (he : env.embedder = some e) (hf : e.Pointwise f) {C : Columns} :
    EmbeddingService.embedRecords e env.repr spec rs = .ok C
      ↔ ∃ emb, e.GivesAll f env.repr spec rs emb ∧ Columns.ofPairs emb = C := by
  rw [embedRecords_pairs he, map_ok_iff]
  simp only [Embedder.GivesAll.iff_ok he hf]

/-- Some records are embedded when each text of theirs can be given something. -/
theorem columns_exist_iff (he : env.embedder = some e) (hf : e.Pointwise f) :
    (∃ C, EmbeddingService.embedRecords e env.repr spec rs = .ok C)
      ↔ ∀ r ∈ rs, ∀ col ∈ spec.searchable, ∃ s, e.Gives f (searchText env.repr (r.get col)) s := by
  rw [← Embedder.GivesAll.exists_iff]
  simp only [columns_ok_iff he hf]
  constructor
  · rintro ⟨C, emb, h, -⟩
    exact ⟨emb, h⟩
  · rintro ⟨emb, h⟩
    exact ⟨Columns.ofPairs emb, emb, h, rfl⟩

/-- One position of the two lists of a column. -/
theorem column_at (h : e.GivesAll f env.repr spec rs emb) {i : Nat} (hi : i < rs.length) {col : String}
    (hcol : col ∈ spec.searchable) : ∃ vecs toks v t,
      lookup col (Columns.ofPairs emb).vecs = some vecs ∧ vecs.length = rs.length ∧ vecs[i]? = some v
      ∧ lookup col (Columns.ofPairs emb).toks = some toks ∧ toks.length = rs.length ∧ toks[i]? = some t
      ∧ lookup col (Columns.ofPairs (sliceOf i emb)).vecs = some [v]
      ∧ lookup col (Columns.ofPairs (sliceOf i emb)).toks = some [t]
      ∧ (v = none ↔ (rs[i].get col).isNone = true ∨ (rs[i].get col).str env.repr = "")
      ∧ (t = none ↔ (rs[i].get col).isNone = true ∨ (rs[i].get col).str env.repr = "") := by
  obtain ⟨ss, hss, hgives⟩ := h.column hcol
  have hlen : ss.length = rs.length := hgives.length_eq.symm
  have hlt : i < ss.length := by omega
  have hnone := (hgives.get hi hlt).none_iff
  rw [searchText_none_iff] at hnone
  have hslice : lookup col (sliceOf i emb) = some [ss[i]] := by
    rw [sliceOf, lookup_map_snd col (fun ss : List Search => (ss[i]?).toList), hss, Option.map_some,
      List.getElem?_eq_getElem hlt]
    rfl
  simp only [Columns.ofPairs, lookup_map_snd, hss, hslice, Option.map_some]
  refine ⟨_, _, ss[i].1, ss[i].2, rfl, ?_, ?_, rfl, ?_, ?_, rfl, rfl, hnone.1, hnone.2⟩
  · rw [List.length_map, hlen]
  · rw [List.getElem?_map, List.getElem?_eq_getElem hlt]
    rfl
  · rw [List.length_map, hlen]
  · rw [List.getElem?_map, List.getElem?_eq_getElem hlt]
    rfl

/-- `commit_rows` of a batch: row `i` is inserted with the cells at `i`, which are the record's own. -/
theorem rowActs_own (he : env.embedder = some e) (hf : e.Pointwise f)
    (h : Seekbase.embedRecords env spec rs = .ok emb) (st : Stamp) :
    ∃ C, EmbeddingService.embedRecords e env.repr spec rs = .ok C
      ∧ ∀ i (hi : i < rs.length), ∃ own, C.searchCells spec rs.length i = some own
        ∧ e.Owns f env.repr spec rs[i] own
        ∧ (rowActs spec rs emb st)[i]? = some (.insert spec rs[i] own (strVal st.ds) (strVal st.ts)) := by
  have hgiven := (Embedder.GivesAll.iff_ok he hf).mpr h
  refine ⟨Columns.ofPairs emb, (columns_ok_iff he hf).mpr ⟨emb, hgiven, rfl⟩, fun i hi => ?_⟩
  refine ⟨searchAt spec emb i, searchCells_ofPairs hi hgiven.aligned, hgiven.owns hi, ?_⟩
  rw [rowActs, List.getElem?_mapIdx, List.getElem?_eq_getElem hi]
  rfl

/-- The reload of a table: put line `i` is committed by itself with the slice at `i`, whose one row holds
what is the record's own. -/
theorem reloadActs_own (he : env.embedder = some e) (hf : e.Pointwise f) {s : Snap}
    (h : Seekbase.embedRecords env s.spec s.recs = .ok s.emb) (now : Nat → String) :
    ∃ C, EmbeddingService.embedRecords e env.repr s.spec s.recs = .ok C
      ∧ ∀ i m, s.puts[i]? = some m → ∃ C₁ own, C.slice i = some C₁
        ∧ C₁.searchCells s.spec 1 0 = some own
        ∧ e.Owns f env.repr s.spec (jsonRecord s.spec m) own
        ∧ (reloadActs now s)[i]? = some (.insert s.spec (jsonRecord s.spec m) own (.json (m.get "ds"))
          (orNow (m.get "created_at") (now i))) := by
  have hgiven := (Embedder.GivesAll.iff_ok he hf).mpr h
  refine ⟨Columns.ofPairs s.emb, (columns_ok_iff he hf).mpr ⟨s.emb, hgiven, rfl⟩, fun i m hm => ?_⟩
  obtain ⟨hput, rfl⟩ := List.getElem?_eq_some_iff.mp hm
  have hi : i < s.recs.length := by
    rw [Snap.recs, List.length_map]
    exact hput
  have hrec : s.recs[i] = jsonRecord s.spec s.puts[i] := List.getElem_map ..
  have hlt : ∀ p ∈ s.emb, i < p.2.length := by
    intro p hp
    rw [hgiven.aligned p hp]
    exact hi
  refine ⟨Columns.ofPairs (sliceOf i s.emb), searchAt s.spec s.emb i, slice_ofPairs hlt, ?_,
    hrec ▸ hgiven.owns hi, ?_⟩
  · rw [← searchAt_slice i]
    exact searchCells_ofPairs (by omega) (hgiven.slice hi).aligned
  · rw [reloadActs, List.getElem?_mapIdx, hm]
    rfl

/-- Batch embedding is row-by-row embedding.  Of an embedder that answers text by text, a batch is embedded
when each of its records is.  At a record's position each list then holds what the record alone has
there, and `None` when its text is missing or empty.  The slice of the reload is the record's own
columns, and what is read from it, from the batch and into the side dataset is given by its own texts. -/
theorem batch_rowwise (he : env.embedder = some e) (hf : e.Pointwise f) (spec : TableSpec)
    (records : List Record) :
    ((∃ C, EmbeddingService.embedRecords e env.repr spec records = .ok C)
      ↔ ∀ r ∈ records, ∃ C, EmbeddingService.embedRecords e env.repr spec [r] = .ok C)
    ∧ ∀ C, EmbeddingService.embedRecords e env.repr spec records = .ok C →
      ∀ i (hi : i < records.length), ∃ own C₁,
        EmbeddingService.embedRecords e env.repr spec [records[i]] = .ok C₁
        ∧ (∀ col ∈ spec.searchable, ∃ vecs toks v t,
          lookup col C.vecs = some vecs ∧ vecs.length = records.length ∧ vecs[i]? = some v
          ∧ lookup col C.toks = some toks ∧ toks.length = records.length ∧ toks[i]? = some t
          ∧ lookup col C₁.vecs = some [v] ∧ lookup col C₁.toks = some [t]
          ∧ (v = none ↔ (records[i].get col).isNone = true ∨ (records[i].get col).str env.repr = "")
          ∧ (t = none ↔ (records[i].get col).isNone = true ∨ (records[i].get col).str env.repr = ""))
        ∧ C.slice i = some C₁
        ∧ C₁.searchCells spec 1 0 = some own
        ∧ C.searchCells spec records.length i = some own
        ∧ (∃ payload, C.payload env spec records = some payload ∧ payload[i]?
          = some ⟨keyText env.repr spec records[i], own.map fun s => (s.1.map env.normalize, s.2)⟩)
        ∧ e.Owns f env.repr spec records[i] own := by
  refine ⟨?_, fun C hC i hi => ?_⟩
  · rw [columns_exist_iff he hf]
    simp only [columns_exist_iff he hf, List.forall_mem_singleton]
  obtain ⟨emb, h, rfl⟩ := (columns_ok_iff he hf).mp hC
  have hall := h.aligned
  have hone := h.slice hi
  have hlt : ∀ p ∈ emb, i < p.2.length := by
    intro p hp
    rw [hall p hp]
    exact hi
  refine ⟨searchAt spec emb i, Columns.ofPairs (sliceOf i emb), (columns_ok_iff he hf).mpr ⟨_, hone, rfl⟩,
    fun col hcol => column_at h hi hcol, slice_ofPairs hlt, ?_, searchCells_ofPairs hi hall, ?_,
    h.owns hi⟩
  · rw [← searchAt_slice i]
    exact searchCells_ofPairs (by omega) hone.aligned
  · refine ⟨_, payload_ofPairs hall, ?_⟩
    rw [lancePayload, List.getElem?_mapIdx, List.getElem?_eq_getElem hi]
    rfl

end Batch

/-! ## Three notes -/

/-- A note without a text, one with the empty text, and one with a text. -/
def threeNotes : List Record :=
  [[("id", strVal "a")], [("id", strVal "b"), ("text", strVal "")],
    [("id", strVal "c"), ("text", strVal "red")]]

theorem textEmbedder_pointwise : textEmbedder.Pointwise fun t => .ok ⟨[t]⟩ := fun texts =>
  (List.mapM_pure (m := Except String) (l := texts) (f := fun t => Vec.mk [t])).symm

theorem batch_rowwise_notes : ∃ C C₁,
    EmbeddingService.embedRecords textEmbedder searchEnv.repr searchNotes threeNotes = .ok C
      ∧ lookup "text" C.vecs = some [none, none, some ⟨["red"]⟩]
      ∧ EmbeddingService.embedRecords textEmbedder searchEnv.repr searchNotes [threeNotes[2]] = .ok C₁
      ∧ C.slice 2 = some C₁ := by
  obtain ⟨own, C₁, hone, -, hslice, -⟩ :=
    (batch_rowwise (show searchEnv.embedder = some textEmbedder from rfl) textEmbedder_pointwise searchNotes threeNotes).2 _ rfl 2 (by decide)
  exact ⟨_, C₁, rfl, rfl, hone, hslice⟩

end Seekbase
