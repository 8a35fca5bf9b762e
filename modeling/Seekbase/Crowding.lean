/-
# Seekbase.Crowding — where the two backends select the same rows.

Suppose both engines rank the keys of a column alike, by vector and by text.  The vss backend then
takes the first candidates OF THE WINDOW, `k` of them in the current view and four times as many in a
historical one; the lance backend takes the first `4k` of all keys and leaves it to the join to drop
those outside the window.  What is dropped keeps its rank: rows outside the window push those inside
it down, or out.  And in the current view what the over-fetch adds may have a rank in one arm that it
does not have for the other backend.

* `vssArm`, `lanceArm`  — the candidates of both backends from one ranking;
* `Uncrowded`           — no row outside the window is in front, and what only the over-fetch reaches is
                          behind `k` others in both rankings;
* `backends_agree`      — then both select the same rows with the same scores.
-/
import Mathlib.Tactic.Linarith
import Seekbase.Search

namespace Seekbase

open JsonText Ranked Transition

section Rankings

variable (k : ℕ) (dsStart dsEnd : Option String) (t : PhysTable)

/-- A ranking of keys of the table. -/
structure Ranking (l : List Cell) : Prop where
  nodup : l.Nodup
  keys : ∀ key ∈ l, key ∈ t.rows.map Row.key

/-- A key of a row of the window. -/
def inWindow (key : Cell) : Bool := (visible dsStart dsEnd t).any fun r => r.key = key

/-- The candidates of the vss backend: the first of the window. -/
def vssArm (l : List Cell) : List Cell :=
  (l.filter (inWindow dsStart dsEnd t)).take (vssCand k dsEnd)

/-- The text a key is indexed under. -/
def pkText (key : Cell) : String := key.text.getD ""

/-- The candidates of the lance backend: the first of all. -/
def lanceArm (l : List Cell) : List String := (l.take (lanceCand k)).map pkText

/-- Where a ranking has the key `x`, it has `y` ahead of it. -/
def Ahead (l : List Cell) (y x : Cell) : Prop := ∀ j, rank l x = some j → ∃ i < j, rank l y = some i

/-- No row outside the window is ranked ahead of one of the window's first candidates, and a row of the
window that only the over-fetch reaches is behind `k` rows of the window in both rankings. -/
structure Uncrowded (V F : List Cell) : Prop where
  vector : vssArm k dsStart dsEnd t V <+: V
  text : vssArm k dsStart dsEnd t F <+: F
  behind : ∀ x, inWindow dsStart dsEnd t x = true →
    (x ∈ V.take (lanceCand k) ∧ x ∉ vssArm k dsStart dsEnd t V
      ∨ x ∈ F.take (lanceCand k) ∧ x ∉ vssArm k dsStart dsEnd t F) →
    ∃ ahead : List Cell, ahead.Nodup ∧ ahead.length = k ∧ ∀ y ∈ ahead,
      inWindow dsStart dsEnd t y = true
        ∧ Ahead (V.take (lanceCand k)) y x ∧ Ahead (F.take (lanceCand k)) y x

end Rankings

/-! ## Scores along a ranking -/

theorem rankWeight_lt {i j : ℕ} (h : i < j) : rankWeight (some j) < rankWeight (some i) := by
  have hcast : (i : ℚ) < j := by exact_mod_cast h
  have hpos : (0 : ℚ) < 60 + i := by positivity
  unfold rankWeight
  exact one_div_lt_one_div_of_lt hpos (by linarith)

section Ahead

variable {l m : List Cell} {x y : Cell}

theorem Ahead.weight_lt (h : Ahead l y x) (hx : x ∈ l) :
    rankWeight (rank l x) < rankWeight (rank l y) := by
  obtain ⟨j, hj⟩ := rank_of_mem hx
  obtain ⟨i, hlt, hi⟩ := h j hj
  rw [hj, hi]
  exact rankWeight_lt hlt

theorem Ahead.weight_le (h : Ahead l y x) : rankWeight (rank l x) ≤ rankWeight (rank l y) := by
  by_cases hx : x ∈ l
  · exact (h.weight_lt hx).le
  · rw [rank_eq_none.mpr hx]
    exact rankWeight_nonneg _

theorem Ahead.mem (h : Ahead l y x) (hx : x ∈ l) : y ∈ l := by
  obtain ⟨j, hj⟩ := rank_of_mem hx
  obtain ⟨i, -, hi⟩ := h j hj
  by_contra hy
  rw [rank_eq_none.mpr hy] at hi
  cases hi

/-- A key that is behind another in both rankings has the smaller score. -/
theorem rrf_lt (hl : Ahead l y x) (hm : Ahead m y x) (hx : x ∈ l ∨ x ∈ m) :
    rrf (rank l x) (rank m x) < rrf (rank l y) (rank m y) := by
  rw [rrf, rrf]
  rcases hx with hx | hx
  · exact add_lt_add_of_lt_of_le (hl.weight_lt hx) hm.weight_le
  · exact add_lt_add_of_le_of_lt hl.weight_le (hm.weight_lt hx)

end Ahead

/-! ## The candidates -/

section Candidates

variable {k : ℕ} {dsStart dsEnd : Option String} {t : PhysTable} {V F : List Cell} {key : Cell}

theorem vssCand_le : vssCand k dsEnd ≤ lanceCand k := by
  rw [vssCand, lanceCand, overfetch]
  split <;> omega

theorem inWindow_iff : inWindow dsStart dsEnd t key = true
    ↔ ∃ r ∈ visible dsStart dsEnd t, r.key = key := by
  rw [inWindow, List.any_eq_true]
  simp

theorem mem_vssArm (h : key ∈ vssArm k dsStart dsEnd t V) :
    key ∈ V ∧ inWindow dsStart dsEnd t key = true :=
  List.mem_filter.mp (List.mem_of_mem_take h)

theorem vssArm_nodup (hV : Ranking t V) : (vssArm k dsStart dsEnd t V).Nodup :=
  (hV.nodup.filter _).sublist (List.take_sublist _ _)

/-- The first candidates are among those of the over-fetch. -/
theorem vssArm_take (h : vssArm k dsStart dsEnd t V <+: V) :
    vssArm k dsStart dsEnd t V <+: V.take (lanceCand k) := by
  rw [List.prefix_take_iff]
  refine ⟨h, ?_⟩
  rw [vssArm, List.length_take]
  exact (Nat.min_le_left _ _).trans vssCand_le

theorem rank_vssArm (hV : Ranking t V) (h : vssArm k dsStart dsEnd t V <+: V)
    (hkey : key ∈ vssArm k dsStart dsEnd t V) :
    rank (vssArm k dsStart dsEnd t V) key = rank (V.take (lanceCand k)) key :=
  rank_initial (hV.nodup.sublist (List.take_sublist _ _)) (vssArm_take h) hkey

/-- In a historical window the over-fetch reaches nothing the window's first candidates do not. -/
theorem mem_vssArm_of_historical {d : String} (hkey : key ∈ V.take (lanceCand k))
    (hin : inWindow dsStart (some d) t key = true) : key ∈ vssArm k dsStart (some d) t V := by
  have hsub : (V.take (lanceCand k)).filter (inWindow dsStart (some d) t)
      <+: V.filter (inWindow dsStart (some d) t) := (List.take_prefix _ _).filter _
  have htake : (V.take (lanceCand k)).filter (inWindow dsStart (some d) t)
      <+: vssArm k dsStart (some d) t V := by
    rw [vssArm, List.prefix_take_iff]
    refine ⟨hsub, ?_⟩
    have hlen := List.length_filter_le (inWindow dsStart (some d) t) (V.take (lanceCand k))
    rw [List.length_take] at hlen
    exact hlen.trans (Nat.min_le_left _ _)
  exact htake.subset (List.mem_filter.mpr ⟨hkey, hin⟩)

/-- A key that one arm of the vss backend has, the other arm has as the over-fetch has it. -/
theorem rank_other (hV : Ranking t V) (hF : Ranking t F) (h : Uncrowded k dsStart dsEnd t V F)
    (hkey : key ∈ vssArm k dsStart dsEnd t F) :
    rank (vssArm k dsStart dsEnd t V) key = rank (V.take (lanceCand k)) key := by
  by_cases hmem : key ∈ vssArm k dsStart dsEnd t V
  · exact rank_vssArm hV h.vector hmem
  have hin := (mem_vssArm hkey).2
  rw [rank_eq_none.mpr hmem, eq_comm, rank_eq_none]
  intro hover
  obtain ⟨ahead, hnodup, hlen, hahead⟩ := h.behind key hin (.inl ⟨hover, hmem⟩)
  cases dsEnd with
  | some d => exact hmem (mem_vssArm_of_historical hover hin)
  | none =>
    -- `k` keys ahead of it, and it is one of the first `k`
    obtain ⟨j, hj⟩ := rank_of_mem hkey
    have hle := rank_le_length (vssArm_nodup hF) hj
    rw [rank_vssArm hF h.text hkey] at hj
    have hnodupF := hF.nodup.sublist (List.take_sublist (lanceCand k) F)
    have hpos := numbered_pos ((rank_eq_some hnodupF).mp hj)
    have hlt := length_lt_of_rank hnodupF hnodup hpos fun y hy => (hahead y hy).2.2 j hj
    rw [vssArm, List.length_take] at hle
    have hcand : vssCand k none = k := rfl
    omega

theorem Uncrowded.symm (h : Uncrowded k dsStart dsEnd t V F) : Uncrowded k dsStart dsEnd t F V where
  vector := h.text
  text := h.vector
  behind := by
    intro x hx hover
    obtain ⟨ahead, hnodup, hlen, hahead⟩ := h.behind x hx hover.symm
    refine ⟨ahead, hnodup, hlen, fun y hy => ?_⟩
    exact ⟨(hahead y hy).1, (hahead y hy).2.2, (hahead y hy).2.1⟩

/-- A candidate of the vss backend has the same ranks among those of the over-fetch. -/
theorem ranks_agree (hV : Ranking t V) (hF : Ranking t F) (h : Uncrowded k dsStart dsEnd t V F)
    (hkey : key ∈ vssArm k dsStart dsEnd t V ∨ key ∈ vssArm k dsStart dsEnd t F) :
    rank (vssArm k dsStart dsEnd t V) key = rank (V.take (lanceCand k)) key
      ∧ rank (vssArm k dsStart dsEnd t F) key = rank (F.take (lanceCand k)) key := by
  rcases hkey with hkey | hkey
  · exact ⟨rank_vssArm hV h.vector hkey, rank_other hF hV h.symm hkey⟩
  · exact ⟨rank_other hV hF h hkey, rank_vssArm hF h.text hkey⟩

end Candidates

/-! ## The joined rows -/

section Joined

variable {spec : TableSpec} {k : ℕ} {dsStart dsEnd : Option String} {t : PhysTable} {V F : List Cell}
  {r : Row} {s : ℚ}

/-- The fused candidates of the vss backend on the rows of the window, without a limit. -/
def vssJoin (k : ℕ) (dsStart dsEnd : Option String) (t : PhysTable) (V F : List Cell) :
    List (Row × ℚ) :=
  joinBack (fun r key => joins r key.text) (visible dsStart dsEnd t)
    (fused (vssArm k dsStart dsEnd t V) (vssArm k dsStart dsEnd t F))

/-- The fused candidates of the lance backend on the rows of the window, without a limit. -/
def lanceJoin (k : ℕ) (dsStart dsEnd : Option String) (t : PhysTable) (V F : List Cell) :
    List (Row × ℚ) :=
  joinBack (fun r pk => joins r (some pk)) (visible dsStart dsEnd t)
    (fused (lanceArm k V) (lanceArm k F))

theorem text_of_key (ht : t.Keyed spec) {key : Cell} (hkey : key ∈ t.rows.map Row.key) :
    key.text = some (pkText key) := by
  obtain ⟨row, hrow, rfl⟩ := List.mem_map.mp hkey
  obtain ⟨s, hs⟩ := (ht row hrow).text_some (t.pkNotNull row hrow)
  rw [pkText, hs]
  rfl

theorem pkText_inj (ht : t.Keyed spec) {a b : Cell} (ha : a ∈ t.rows.map Row.key)
    (hb : b ∈ t.rows.map Row.key) (h : pkText a = pkText b) : a = b := by
  have htext : a.text = b.text := by rw [text_of_key ht ha, text_of_key ht hb, h]
  obtain ⟨row, hrow, rfl⟩ := List.mem_map.mp ha
  obtain ⟨other, hother, rfl⟩ := List.mem_map.mp hb
  exact (ht row hrow).text_inj (ht other hother) (t.pkNotNull row hrow) (t.pkNotNull other hother) htext

theorem visible_key (hr : r ∈ visible dsStart dsEnd t) : r.key ∈ t.rows.map Row.key := by
  obtain ⟨row, hrow, -, rfl⟩ := mem_visible.mp hr
  exact List.mem_map.mpr ⟨row, hrow, rfl⟩

theorem row_of_key {a b : Row} (ha : a ∈ visible dsStart dsEnd t) (hb : b ∈ visible dsStart dsEnd t)
    (h : a.key = b.key) : a = b := List.inj_on_of_nodup_map visible_nodup ha hb h

/-- A row of the window meets the candidates of the vss backend by its key. -/
theorem mem_vssJoin (ht : t.Keyed spec) (hV : Ranking t V) (hF : Ranking t F) :
    (r, s) ∈ vssJoin k dsStart dsEnd t V F ↔ r ∈ visible dsStart dsEnd t
      ∧ (r.key ∈ vssArm k dsStart dsEnd t V ∨ r.key ∈ vssArm k dsStart dsEnd t F)
      ∧ s = rrf (rank (vssArm k dsStart dsEnd t V) r.key) (rank (vssArm k dsStart dsEnd t F) r.key) := by
  rw [vssJoin, mem_joinBack]
  refine and_congr_right fun hr => ?_
  constructor
  · rintro ⟨key, hmem, hon⟩
    obtain ⟨hin, hs⟩ := (mem_fused (vssArm_nodup hV) (vssArm_nodup hF)).mp hmem
    have htable : key ∈ t.rows.map Row.key := by
      rcases hin with hin | hin
      · exact hV.keys key (mem_vssArm hin).1
      · exact hF.keys key (mem_vssArm hin).1
    rw [key_of_joins ht hr htable hon]
    exact ⟨hin, hs⟩
  · rintro ⟨hin, hs⟩
    refine ⟨r.key, (mem_fused (vssArm_nodup hV) (vssArm_nodup hF)).mpr ⟨hin, hs⟩, ?_⟩
    exact joins_iff.mpr ⟨_, text_of_key ht (visible_key hr), text_of_key ht (visible_key hr)⟩

theorem overfetch_inj (ht : t.Keyed spec) (hV : Ranking t V) (hr : r ∈ visible dsStart dsEnd t) :
    ∀ a ∈ r.key :: V.take (lanceCand k), ∀ b ∈ r.key :: V.take (lanceCand k),
      pkText a = pkText b → a = b := by
  have htable : ∀ a ∈ r.key :: V.take (lanceCand k), a ∈ t.rows.map Row.key := by
    intro a ha
    rcases List.mem_cons.mp ha with rfl | ha
    · exact visible_key hr
    · exact hV.keys a (List.mem_of_mem_take ha)
  intro a ha b hb
  exact pkText_inj ht (htable a ha) (htable b hb)

theorem lanceArm_nodup (ht : t.Keyed spec) (hV : Ranking t V) : (lanceArm k V).Nodup := by
  refine (hV.nodup.sublist (List.take_sublist _ _)).map_on ?_
  intro a ha b hb
  exact pkText_inj ht (hV.keys a (List.mem_of_mem_take ha)) (hV.keys b (List.mem_of_mem_take hb))

/-- The arm of texts has a row's text where the ranking has its key, at the same rank. -/
theorem lanceArm_rank (ht : t.Keyed spec) (hV : Ranking t V) (hr : r ∈ visible dsStart dsEnd t) :
    rank (lanceArm k V) (pkText r.key) = rank (V.take (lanceCand k)) r.key :=
  rank_map (hV.nodup.sublist (List.take_sublist _ _)) (overfetch_inj ht hV hr)

theorem lanceArm_mem (ht : t.Keyed spec) (hV : Ranking t V) (hr : r ∈ visible dsStart dsEnd t) :
    pkText r.key ∈ lanceArm k V ↔ r.key ∈ V.take (lanceCand k) := by
  constructor
  · intro h
    obtain ⟨a, ha, heq⟩ := List.mem_map.mp h
    have hkey := overfetch_inj ht hV hr a (List.mem_cons_of_mem _ ha) r.key List.mem_cons_self heq
    exact hkey ▸ ha
  · exact List.mem_map_of_mem

/-- A row of the window meets the candidates of the lance backend by its text. -/
theorem mem_lanceJoin (ht : t.Keyed spec) (hV : Ranking t V) (hF : Ranking t F) :
    (r, s) ∈ lanceJoin k dsStart dsEnd t V F ↔ r ∈ visible dsStart dsEnd t
      ∧ (r.key ∈ V.take (lanceCand k) ∨ r.key ∈ F.take (lanceCand k))
      ∧ s = rrf (rank (V.take (lanceCand k)) r.key) (rank (F.take (lanceCand k)) r.key) := by
  rw [lanceJoin, mem_joinBack]
  refine and_congr_right fun hr => ?_
  have hfused : (pkText r.key, s) ∈ fused (lanceArm k V) (lanceArm k F)
      ↔ (r.key ∈ V.take (lanceCand k) ∨ r.key ∈ F.take (lanceCand k))
        ∧ s = rrf (rank (V.take (lanceCand k)) r.key) (rank (F.take (lanceCand k)) r.key) := by
    rw [mem_fused (lanceArm_nodup ht hV) (lanceArm_nodup ht hF), lanceArm_mem ht hV hr,
      lanceArm_mem ht hF hr, lanceArm_rank ht hV hr, lanceArm_rank ht hF hr]
  rw [← hfused]
  have htext := text_of_key ht (visible_key hr)
  constructor
  · rintro ⟨pk, hmem, hon⟩
    obtain ⟨u, hu, hpk⟩ := joins_iff.mp hon
    obtain rfl := Option.some.inj (hpk.trans (hu.symm.trans htext))
    exact hmem
  · intro hmem
    exact ⟨_, hmem, joins_iff.mpr ⟨_, htext, rfl⟩⟩

theorem join_nodup {l : List (Row × ℚ)} (h : (l.map fun x => x.1.key).Nodup) : l.Nodup :=
  List.Nodup.of_map _ h

theorem lanceJoin_nodup (ht : t.Keyed spec) (hV : Ranking t V) (hF : Ranking t F) :
    ((lanceJoin k dsStart dsEnd t V F).map fun x => x.1.key).Nodup := by
  let on : Row → String → Bool := fun r pk => joins r (some pk)
  refine joinBack_keys on fun r _ => ?_
  refine matches_one on (fused_keys (lanceArm_nodup ht hV) (lanceArm_nodup ht hF)) ?_
  intro x _ y _ hx hy
  obtain ⟨u, hu, hx⟩ := joins_iff.mp hx
  obtain ⟨w, hw, hy⟩ := joins_iff.mp hy
  rw [Option.some.inj hx, Option.some.inj hy, Option.some.inj (hu.symm.trans hw)]

theorem vssJoin_nodup (ht : t.Keyed spec) (hV : Ranking t V) (hF : Ranking t F) :
    ((vssJoin k dsStart dsEnd t V F).map fun x => x.1.key).Nodup := by
  let on : Row → Cell → Bool := fun r key => joins r key.text
  refine joinBack_keys on fun r hr => ?_
  refine matches_one on (fused_keys (vssArm_nodup hV) (vssArm_nodup hF)) ?_
  have hkey : ∀ x ∈ fused (vssArm k dsStart dsEnd t V) (vssArm k dsStart dsEnd t F),
      on r x.1 = true → r.key = x.1 := by
    intro x hx hon
    refine key_of_joins ht hr ?_ hon
    rcases ((mem_fused (vssArm_nodup hV) (vssArm_nodup hF)).mp hx).1 with hin | hin
    · exact hV.keys x.1 (mem_vssArm hin).1
    · exact hF.keys x.1 (mem_vssArm hin).1
  intro x hx y hy h1 h2
  exact (hkey x hx h1).symm.trans (hkey y hy h2)

/-! ## The same selection -/

/-- Every row of the vss backend is a row of the lance backend with the same score. -/
theorem vssJoin_sub (ht : t.Keyed spec) (hV : Ranking t V) (hF : Ranking t F)
    (h : Uncrowded k dsStart dsEnd t V F) :
    vssJoin k dsStart dsEnd t V F ⊆ lanceJoin k dsStart dsEnd t V F := by
  intro x hx
  obtain ⟨hr, hin, hs⟩ := (mem_vssJoin ht hV hF).mp hx
  obtain ⟨hrankV, hrankF⟩ := ranks_agree hV hF h hin
  refine (mem_lanceJoin ht hV hF).mpr ⟨hr, ?_, ?_⟩
  · exact hin.imp (fun hv => (vssArm_take h.vector).subset hv) fun hf => (vssArm_take h.text).subset hf
  · rw [hs, hrankV, hrankF]

/-- A row that only the lance backend has is beaten by `k` others. -/
theorem extra_beaten (ht : t.Keyed spec) (hV : Ranking t V) (hF : Ranking t F)
    (h : Uncrowded k dsStart dsEnd t V F) {x : Row × ℚ} (hx : x ∈ lanceJoin k dsStart dsEnd t V F)
    (hnot : x ∉ vssJoin k dsStart dsEnd t V F) :
    Beaten Prod.snd k (lanceJoin k dsStart dsEnd t V F) x := by
  obtain ⟨hr, hin, hs⟩ := (mem_lanceJoin ht hV hF).mp hx
  have hout : ¬ (x.1.key ∈ vssArm k dsStart dsEnd t V ∨ x.1.key ∈ vssArm k dsStart dsEnd t F) := by
    intro hcand
    obtain ⟨hrankV, hrankF⟩ := ranks_agree hV hF h hcand
    refine hnot ((mem_vssJoin ht hV hF).mpr ⟨hr, hcand, ?_⟩)
    rw [hs, hrankV, hrankF]
  have hover : x.1.key ∈ V.take (lanceCand k) ∧ x.1.key ∉ vssArm k dsStart dsEnd t V
      ∨ x.1.key ∈ F.take (lanceCand k) ∧ x.1.key ∉ vssArm k dsStart dsEnd t F :=
    hin.imp (fun hv => ⟨hv, fun hc => hout (.inl hc)⟩) fun hf => ⟨hf, fun hc => hout (.inr hc)⟩
  obtain ⟨ahead, hnodup, hlen, hahead⟩ := h.behind x.1.key (inWindow_iff.mpr ⟨x.1, hr, rfl⟩) hover
  have hkeys : ((lanceJoin k dsStart dsEnd t V F).map fun x => x.1.key).Nodup :=
    lanceJoin_nodup ht hV hF
  -- the rows of the keys ahead
  refine ⟨(lanceJoin k dsStart dsEnd t V F).filter fun y => y.1.key ∈ ahead, ?_, ?_, ?_, ?_⟩
  · exact (join_nodup hkeys).filter _
  · have hsub : ahead ⊆ ((lanceJoin k dsStart dsEnd t V F).filter fun y => y.1.key ∈ ahead).map
        fun y => y.1.key := by
      intro key hkey
      obtain ⟨hwindow, haV, haF⟩ := hahead key hkey
      obtain ⟨row, hrow, rfl⟩ := inWindow_iff.mp hwindow
      have hmem : row.key ∈ V.take (lanceCand k) ∨ row.key ∈ F.take (lanceCand k) :=
        hin.imp haV.mem haF.mem
      have hjoin : (row, rrf (rank (V.take (lanceCand k)) row.key) (rank (F.take (lanceCand k)) row.key))
          ∈ lanceJoin k dsStart dsEnd t V F := (mem_lanceJoin ht hV hF).mpr ⟨hrow, hmem, rfl⟩
      exact List.mem_map.mpr ⟨_, List.mem_filter.mpr ⟨hjoin, decide_eq_true hkey⟩, rfl⟩
    have hle := (List.subperm_of_subset hnodup hsub).length_le
    rwa [List.length_map, hlen] at hle
  · exact List.filter_subset_self _
  · intro y hy
    obtain ⟨hy, hkey⟩ := List.mem_filter.mp hy
    obtain ⟨-, haV, haF⟩ := hahead y.1.key (of_decide_eq_true hkey)
    obtain ⟨-, -, hsy⟩ := (mem_lanceJoin ht hV hF).mp hy
    rw [hs, hsy]
    exact rrf_lt haV haF hin

/-- The first `k` are the same. -/
theorem leading_joins (ht : t.Keyed spec) (hV : Ranking t V) (hF : Ranking t F)
    (h : Uncrowded k dsStart dsEnd t V F) {out : List (Row × ℚ)} :
    Leading Prod.snd k (lanceJoin k dsStart dsEnd t V F) out
      ↔ Leading Prod.snd k (vssJoin k dsStart dsEnd t V F) out := by
  have hlance : (lanceJoin k dsStart dsEnd t V F).Nodup := join_nodup (lanceJoin_nodup ht hV hF)
  have hvss : (vssJoin k dsStart dsEnd t V F).Nodup := join_nodup (vssJoin_nodup ht hV hF)
  let both : Row × ℚ → Bool := fun x => x ∈ vssJoin k dsStart dsEnd t V F
  have hboth : ((lanceJoin k dsStart dsEnd t V F).filter both).Perm (vssJoin k dsStart dsEnd t V F) := by
    rw [List.perm_ext_iff_of_nodup (hlance.filter _) hvss]
    intro x
    rw [List.mem_filter]
    constructor
    · rintro ⟨-, hx⟩
      exact of_decide_eq_true hx
    · intro hx
      exact ⟨vssJoin_sub ht hV hF h hx, decide_eq_true hx⟩
  have hsplit : (lanceJoin k dsStart dsEnd t V F).Perm (vssJoin k dsStart dsEnd t V F
      ++ (lanceJoin k dsStart dsEnd t V F).filter fun x => !both x) :=
    (List.filter_append_perm both _).symm.trans (hboth.append_right _)
  refine leading_of_dominated hlance hsplit fun x hx => ?_
  obtain ⟨hx, hnot⟩ := List.mem_filter.mp hx
  exact extra_beaten ht hV hF h hx (by simpa [both] using hnot)

/-- A row to fall back on. -/
def blankRow : Row := ⟨.null, [], none, none, none, none, []⟩

/-- The row of a key, in the window. -/
def rowOf (dsStart dsEnd : Option String) (t : PhysTable) (key : Cell) : Row :=
  ((visible dsStart dsEnd t).find? fun r => r.key = key).getD blankRow

theorem rowOf_spec {key : Cell} (h : inWindow dsStart dsEnd t key = true) :
    rowOf dsStart dsEnd t key ∈ visible dsStart dsEnd t ∧ (rowOf dsStart dsEnd t key).key = key := by
  have hsome : ((visible dsStart dsEnd t).find? fun r => r.key = key).isSome = true := by
    rw [List.find?_isSome]
    exact (inWindow_iff.mp h).imp fun r hr => ⟨hr.1, decide_eq_true hr.2⟩
  obtain ⟨r, hr⟩ := Option.isSome_iff_exists.mp hsome
  have hkey := List.find?_some hr
  rw [rowOf, hr]
  exact ⟨List.mem_of_find?_eq_some hr, of_decide_eq_true hkey⟩

/-- The vss backend may as well join first and limit then. -/
theorem vssSelects_iff (ht : t.Keyed spec) (hV : Ranking t V) (hF : Ranking t F)
    {out : List (Row × ℚ)} :
    VssSelects k dsStart dsEnd t (vssArm k dsStart dsEnd t V) (vssArm k dsStart dsEnd t F) out
      ↔ ∃ out', Leading Prod.snd k (vssJoin k dsStart dsEnd t V F) out' ∧ out'.Perm out := by
  have hcand : ∀ x ∈ fused (vssArm k dsStart dsEnd t V) (vssArm k dsStart dsEnd t F),
      x.1 ∈ t.rows.map Row.key ∧ inWindow dsStart dsEnd t x.1 = true := by
    intro x hx
    rcases ((mem_fused (vssArm_nodup hV) (vssArm_nodup hF)).mp hx).1 with hin | hin
    · exact ⟨hV.keys x.1 (mem_vssArm hin).1, (mem_vssArm hin).2⟩
    · exact ⟨hF.keys x.1 (mem_vssArm hin).1, (mem_vssArm hin).2⟩
  apply leading_joinBack (visible_nodup.of_map Row.key) (rowOf dsStart dsEnd t) Row.key
  · intro x hx
    exact (rowOf_spec (hcand x hx).2).2
  · intro x hx
    exact (rowOf_spec (hcand x hx).2).1
  · intro x hx r hr
    obtain ⟨hrow, hkey⟩ := rowOf_spec (hcand x hx).2
    constructor
    · intro hon
      exact row_of_key hr hrow ((key_of_joins ht hr (hcand x hx).1 hon).trans hkey.symm)
    · rintro rfl
      have htext := text_of_key ht (hcand x hx).1
      exact joins_iff.mpr ⟨_, by rw [hkey, htext], htext⟩

end Joined

/-- In every reachable state, over rankings in which nothing crowds, both backends select the same rows
with the same scores; the lance backend gives them from the best down. -/
theorem backends_agree {env : Env} {schema : Schema} {changes : List Change} {db : Db}
    (hrun : run (change env schema) Db.init changes = some db) {spec : TableSpec}
    (hspec : spec ∈ schema.tables) {k : ℕ} {dsStart dsEnd : Option String} {V F : List Cell}
    (hV : Ranking (db.tables spec.name) V) (hF : Ranking (db.tables spec.name) F)
    (h : Uncrowded k dsStart dsEnd (db.tables spec.name) V F) (out : List (Row × ℚ)) :
    VssSelects k dsStart dsEnd (db.tables spec.name)
        (vssArm k dsStart dsEnd (db.tables spec.name) V)
        (vssArm k dsStart dsEnd (db.tables spec.name) F) out
      ↔ ∃ out', LanceSelects k dsStart dsEnd (db.tables spec.name) (lanceArm k V) (lanceArm k F) out'
        ∧ out'.Perm out := by
  have hkeyed : db.Keyed schema := run_invariant (fun _ _ _ => change_keyed) init_keyed hrun
  rw [vssSelects_iff (hkeyed spec hspec) hV hF]
  refine exists_congr fun out' => and_congr_left fun _ => ?_
  exact (leading_joins (hkeyed spec hspec) hV hF h).symm

/-! ## Two notes, and five -/

def noteKey (id : String) : Cell := .varchar id

/-- Two live notes. -/
def liveNotes : PhysTable := ⟨[noteRow "n1" "v1", noteRow "n2" "v2"], by decide, by decide⟩

def twoInserts : List Change := [noteInsert [(strVal "n1", "v1"), (strVal "n2", "v2")]]

theorem run_twoInserts : ∃ db, run (change lanceEnv searchSchema) Db.init twoInserts = some db
    ∧ db.tables searchNotes.name = liveNotes := by
  have hsome : (run (change lanceEnv searchSchema) Db.init twoInserts).map
      (fun db => (db.tables searchNotes.name).rows) = some liveNotes.rows := by decide +kernel
  obtain ⟨db, hrun, hrows⟩ := Option.map_eq_some_iff.mp hsome
  exact ⟨db, hrun, PhysTable.ext_rows hrows⟩

theorem backends_agree_two : ∃ db, run (change lanceEnv searchSchema) Db.init twoInserts = some db
    ∧ ∀ out, VssSelects 1 none none (db.tables searchNotes.name)
        (vssArm 1 none none (db.tables searchNotes.name) [noteKey "n1", noteKey "n2"])
        (vssArm 1 none none (db.tables searchNotes.name) [noteKey "n1", noteKey "n2"]) out
      ↔ ∃ out', LanceSelects 1 none none (db.tables searchNotes.name)
          (lanceArm 1 [noteKey "n1", noteKey "n2"]) (lanceArm 1 [noteKey "n1", noteKey "n2"]) out'
        ∧ out'.Perm out := by
  obtain ⟨db, hrun, ht⟩ := run_twoInserts
  have hranking : Ranking liveNotes [noteKey "n1", noteKey "n2"] := ⟨by decide, by decide⟩
  have hahead : Ahead [noteKey "n1", noteKey "n2"] (noteKey "n1") (noteKey "n2") := by
    intro j hj
    have htwo : rank [noteKey "n1", noteKey "n2"] (noteKey "n2") = some 2 := by decide
    obtain rfl := Option.some.inj (htwo.symm.trans hj)
    exact ⟨1, by decide, by decide⟩
  have huncrowded : Uncrowded 1 none none liveNotes [noteKey "n1", noteKey "n2"]
      [noteKey "n1", noteKey "n2"] := by
    refine ⟨by decide, by decide, fun x _ hover => ?_⟩
    have hsecond : x = noteKey "n2" := by
      obtain ⟨hin, hnot⟩ := or_self_iff.mp hover
      rcases List.mem_cons.mp hin with rfl | hin
      · exact absurd (by decide) hnot
      · exact List.mem_singleton.mp hin
    subst hsecond
    refine ⟨[noteKey "n1"], by decide, rfl, fun y hy => ?_⟩
    rw [List.mem_singleton.mp hy]
    exact ⟨by decide, hahead, hahead⟩
  exact ⟨db, hrun, backends_agree hrun (by simp [searchSchema]) (ht ▸ hranking) (ht ▸ hranking)
    (ht ▸ huncrowded)⟩

/-- Four deleted notes and a live one. -/
def fiveNotes : PhysTable :=
  ⟨([("n1", "v1"), ("n2", "v2"), ("n3", "v3"), ("n4", "v4")].map fun n =>
      { noteRow n.1 n.2 with deletedDs := some "20260105", deletedAt := some "t2" })
    ++ [noteRow "n5" "v5"], by decide, by decide⟩

def fourDeletes : List Change :=
  [noteInsert [(strVal "n1", "v1"), (strVal "n2", "v2"), (strVal "n3", "v3"), (strVal "n4", "v4")],
    .write ⟨"20260105", "t2", t2_ne⟩ (.delete "notes" (some "true") []),
    noteInsert [(strVal "n5", "v5")]]

theorem run_fourDeletes : ∃ db, run (change lanceEnv searchSchema) Db.init fourDeletes = some db
    ∧ db.tables searchNotes.name = fiveNotes := by
  have hsome : (run (change lanceEnv searchSchema) Db.init fourDeletes).map
      (fun db => (db.tables searchNotes.name).rows) = some fiveNotes.rows := by decide +kernel
  obtain ⟨db, hrun, hrows⟩ := Option.map_eq_some_iff.mp hsome
  exact ⟨db, hrun, PhysTable.ext_rows hrows⟩

def fiveKeys : List Cell := [noteKey "n1", noteKey "n2", noteKey "n3", noteKey "n4", noteKey "n5"]

/-- A row that the lance backend does not find among its candidates is in none of its answers. -/
theorem lance_misses {k : ℕ} {dsStart dsEnd : Option String} {t : PhysTable} {v f : List String}
    {out : List (Row × ℚ)} {x : Row × ℚ} (hx : x ∈ out)
    (hnot : x ∉ joinBack (fun r pk => joins r (some pk)) (visible dsStart dsEnd t) (fused v f)) :
    ¬ ∃ out', LanceSelects k dsStart dsEnd t v f out' ∧ out'.Perm out := by
  rintro ⟨out', hlead, hperm⟩
  exact hnot (hlead.picks.mem (hperm.symm.subset hx))

/-- One candidate each. -/
theorem two_differ : VssSelects 1 none none liveNotes
      (vssArm 1 none none liveNotes [noteKey "n1", noteKey "n2"])
      (vssArm 1 none none liveNotes [noteKey "n2", noteKey "n1"]) [(noteRow "n1" "v1", 1 / 61)]
    ∧ ¬ ∃ out', LanceSelects 1 none none liveNotes (lanceArm 1 [noteKey "n1", noteKey "n2"])
        (lanceArm 1 [noteKey "n2", noteKey "n1"]) out' ∧ out'.Perm [(noteRow "n1" "v1", 1 / 61)] := by
  refine ⟨⟨[(noteKey "n1", 1 / 61)], ?_, ?_⟩, lance_misses List.mem_cons_self (by decide +kernel)⟩
  · have hfused : fused (vssArm 1 none none liveNotes [noteKey "n1", noteKey "n2"])
        (vssArm 1 none none liveNotes [noteKey "n2", noteKey "n1"])
        = [(noteKey "n1", 1 / 61), (noteKey "n2", 1 / 61)] := by decide +kernel
    rw [hfused]
    refine ⟨rfl, List.pairwise_singleton _ _, [(noteKey "n2", 1 / 61)], List.Perm.refl _, ?_⟩
    intro a ha b hb
    rw [List.mem_singleton.mp ha, List.mem_singleton.mp hb]
  · exact List.Perm.of_eq (by decide +kernel)

/-- The live note, found by the one backend and not by the other. -/
theorem five_differ : VssSelects 1 none none fiveNotes (vssArm 1 none none fiveNotes fiveKeys)
      (vssArm 1 none none fiveNotes fiveKeys) [(noteRow "n5" "v5", 1 / 61 + 1 / 61)]
    ∧ ¬ ∃ out', LanceSelects 1 none none fiveNotes (lanceArm 1 fiveKeys) (lanceArm 1 fiveKeys) out'
      ∧ out'.Perm [(noteRow "n5" "v5", 1 / 61 + 1 / 61)] := by
  refine ⟨⟨[(noteKey "n5", 1 / 61 + 1 / 61)], ?_, ?_⟩, lance_misses List.mem_cons_self (by decide +kernel)⟩
  · have hfused : fused (vssArm 1 none none fiveNotes fiveKeys) (vssArm 1 none none fiveNotes fiveKeys)
        = [(noteKey "n5", 1 / 61 + 1 / 61)] := by decide +kernel
    rw [hfused]
    exact Leading.of_sorted (List.pairwise_singleton _ _) (by decide)
  · exact List.Perm.of_eq (by decide +kernel)

/-- The rankings are common and the selections are not: of two live notes the over-fetch ranks each in
both arms, and four deleted notes leave no room for a live one. -/
theorem selections_differ :
    (∃ db out, run (change lanceEnv searchSchema) Db.init twoInserts = some db
      ∧ Ranking (db.tables searchNotes.name) [noteKey "n1", noteKey "n2"]
      ∧ Ranking (db.tables searchNotes.name) [noteKey "n2", noteKey "n1"]
      ∧ VssSelects 1 none none (db.tables searchNotes.name)
        (vssArm 1 none none (db.tables searchNotes.name) [noteKey "n1", noteKey "n2"])
        (vssArm 1 none none (db.tables searchNotes.name) [noteKey "n2", noteKey "n1"]) out
      ∧ ¬ ∃ out', LanceSelects 1 none none (db.tables searchNotes.name)
          (lanceArm 1 [noteKey "n1", noteKey "n2"]) (lanceArm 1 [noteKey "n2", noteKey "n1"]) out'
        ∧ out'.Perm out)
    ∧ ∃ db out, run (change lanceEnv searchSchema) Db.init fourDeletes = some db
      ∧ Ranking (db.tables searchNotes.name) fiveKeys
      ∧ VssSelects 1 none none (db.tables searchNotes.name)
        (vssArm 1 none none (db.tables searchNotes.name) fiveKeys)
        (vssArm 1 none none (db.tables searchNotes.name) fiveKeys) out
      ∧ ¬ ∃ out', LanceSelects 1 none none (db.tables searchNotes.name)
          (lanceArm 1 fiveKeys) (lanceArm 1 fiveKeys) out' ∧ out'.Perm out := by
  obtain ⟨db, hrun, ht⟩ := run_twoInserts
  obtain ⟨db', hrun', ht'⟩ := run_fourDeletes
  refine ⟨⟨db, _, hrun, ?_, ?_, ht ▸ two_differ⟩, ⟨db', _, hrun', ?_, ht' ▸ five_differ⟩⟩
  · exact ht ▸ ⟨by decide, by decide⟩
  · exact ht ▸ ⟨by decide, by decide⟩
  · exact ht' ▸ ⟨by decide, by decide⟩

end Seekbase
