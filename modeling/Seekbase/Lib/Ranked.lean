/-
# Seekbase.Lib.Ranked — ranked lists: the first n by score, two rankings joined by key, a join back.

What a ranked query answers is seldom one list: among equals any order will do (`Leading`), and an
approximate index may leave out what it likes (`Picks`).  Two rankings of keys are put side by side by
a FULL OUTER JOIN of their row numbers, and each key is scored by the two numbers it has.

* `Picks`, `Leading`     — some of the items, and ORDER BY score DESC LIMIT n;
* `leading_of_dominated` — items that n others beat do not matter for the first n;
* `outerJoin`            — the FULL OUTER JOIN of two keyed lists, each key once where the keys are distinct;
* `rank`                 — the number a ranking gives a key, along prefixes and injective maps;
* `joinBack`             — the rows of a relation beside the scores of the keys they match.
-/
import Mathlib.Data.Finset.Max
import Mathlib.Data.List.Nodup
import Mathlib.Data.List.Perm.Basic
import Mathlib.Data.List.Perm.Subperm
import Mathlib.Data.List.Enum

namespace Ranked

variable {α β γ : Type}

/-! ## Some of the items -/

/-- Some of the items, at most `n` of them, in any order. -/
structure Picks (n : ℕ) (xs l : List α) : Prop where
  sub : l.Subperm xs
  length : l.length ≤ n

theorem Picks.nodup {n : ℕ} {xs l : List α} (h : Picks n xs l) (hxs : xs.Nodup) : l.Nodup := by
  obtain ⟨m, hperm, hsub⟩ := h.sub
  exact hperm.nodup_iff.mp (hxs.sublist hsub)

theorem Picks.self {n : ℕ} {l : List α} (h : l.length ≤ n) : Picks n l l :=
  ⟨List.Subperm.refl l, h⟩

theorem Picks.mem {n : ℕ} {xs l : List α} (h : Picks n xs l) {a : α} (ha : a ∈ l) : a ∈ xs :=
  h.sub.subset ha

/-! ## The first n by score -/

section Leading

variable {S : Type} [LinearOrder S] {score : α → S} {n : ℕ} {xs ys zs l : List α}

/-- ORDER BY score DESC LIMIT n: the items from the top down, and none that is left out is above one
that is not. -/
structure Leading (score : α → S) (n : ℕ) (xs l : List α) : Prop where
  length : l.length = min n xs.length
  sorted : l.Pairwise fun a b => score b ≤ score a
  rest : ∃ others, (l ++ others).Perm xs ∧ ∀ a ∈ l, ∀ b ∈ others, score b ≤ score a

theorem Leading.picks (h : Leading score n xs l) : Picks n xs l := by
  obtain ⟨others, hperm, -⟩ := h.rest
  refine ⟨(List.sublist_append_left l others).subperm.trans hperm.subperm, ?_⟩
  rw [h.length]
  exact Nat.min_le_left _ _

theorem Leading.perm (h : Leading score n xs l) (hperm : xs.Perm ys) : Leading score n ys l := by
  obtain ⟨others, hothers, habove⟩ := h.rest
  refine ⟨?_, h.sorted, others, hothers.trans hperm, habove⟩
  rw [h.length, hperm.length_eq]

theorem Leading.of_sorted (hsorted : xs.Pairwise fun a b => score b ≤ score a) (hn : xs.length ≤ n) :
    Leading score n xs xs := by
  refine ⟨(Nat.min_eq_right hn).symm, hsorted, [], ?_, fun a _ b hb => ?_⟩
  · rw [List.append_nil]
  · cases hb

/-- Two scores that order the items alike have the same first `n`. -/
theorem leading_congr {S' : Type} [LinearOrder S'] {score' : α → S'}
    (h : ∀ a b, score a ≤ score b ↔ score' a ≤ score' b) :
    Leading score n xs l ↔ Leading score' n xs l := by
  constructor
  · rintro ⟨hlength, hsorted, others, hperm, habove⟩
    refine ⟨hlength, hsorted.imp fun hab => (h _ _).mp hab, others, hperm, ?_⟩
    exact fun a ha b hb => (h b a).mp (habove a ha b hb)
  · rintro ⟨hlength, hsorted, others, hperm, habove⟩
    refine ⟨hlength, hsorted.imp fun hab => (h _ _).mpr hab, others, hperm, ?_⟩
    exact fun a ha b hb => (h b a).mpr (habove a ha b hb)

/-- The items under a map that keeps the scores. -/
theorem Leading.map {score' : β → S} (h : Leading score n xs l) (g : α → β)
    (hg : ∀ a ∈ xs, score' (g a) = score a) : Leading score' n (xs.map g) (l.map g) := by
  obtain ⟨others, hothers, habove⟩ := h.rest
  have hl : ∀ a ∈ l, score' (g a) = score a := fun a ha =>
    hg a (hothers.subset (List.mem_append_left _ ha))
  have ho : ∀ b ∈ others, score' (g b) = score b := fun b hb =>
    hg b (hothers.subset (List.mem_append_right _ hb))
  refine ⟨?_, ?_, others.map g, ?_, ?_⟩
  · rw [List.length_map, List.length_map, h.length]
  · rw [List.pairwise_map]
    refine h.sorted.imp_of_mem ?_
    intro a b ha hb hab
    rw [hl a ha, hl b hb]
    exact hab
  · rw [← List.map_append]
    exact hothers.map g
  · intro x hx y hy
    obtain ⟨a, ha, rfl⟩ := List.mem_map.mp hx
    obtain ⟨b, hb, rfl⟩ := List.mem_map.mp hy
    rw [hl a ha, ho b hb]
    exact habove a ha b hb

/-- An item that `n` of the others are strictly above. -/
def Beaten (score : α → S) (n : ℕ) (xs : List α) (z : α) : Prop :=
  ∃ better : List α, better.Nodup ∧ n ≤ better.length ∧ better ⊆ xs ∧ ∀ b ∈ better, score z < score b

theorem Beaten.length_le {z : α} (h : Beaten score n xs z) : n ≤ xs.length := by
  obtain ⟨better, hnodup, hlen, hsub, -⟩ := h
  exact hlen.trans (List.subperm_of_subset hnodup hsub).length_le

/-- A beaten item is not among the first `n`. -/
theorem Leading.not_beaten (h : Leading score n xs l) {z : α} (hz : z ∈ l) :
    ¬ Beaten score n xs z := by
  rintro ⟨better, hnodup, hlen, hsub, habove⟩
  obtain ⟨others, hperm, hrest⟩ := h.rest
  -- all that beat `z` are above the cut, and `z` with them
  have hin : ∀ b ∈ better, b ∈ l := by
    intro b hb
    have hmem := hperm.symm.subset (hsub hb)
    rcases List.mem_append.mp hmem with hl | ho
    · exact hl
    · exact absurd (hrest z hz b ho) (not_le.mpr (habove b hb))
  have hfresh : z ∉ better := fun hzb => lt_irrefl _ (habove z hzb)
  have hle : (z :: better).Subperm l := by
    refine List.subperm_of_subset (List.nodup_cons.mpr ⟨hfresh, hnodup⟩) ?_
    intro b hb
    rcases List.mem_cons.mp hb with rfl | hb
    · exact hz
    · exact hin b hb
  have hlt := hle.length_le
  rw [List.length_cons, h.length] at hlt
  omega

/-- Items that `n` others beat do not matter for the first `n`. -/
theorem leading_of_dominated (hxs : xs.Nodup) (hperm : xs.Perm (ys ++ zs))
    (hbeaten : ∀ z ∈ zs, Beaten score n xs z) : Leading score n xs l ↔ Leading score n ys l := by
  classical
  have hyz : (ys ++ zs).Nodup := hperm.nodup_iff.mp hxs
  have hsub : ys ⊆ xs := fun a ha => hperm.symm.subset (List.mem_append_left _ ha)
  constructor
  · intro h
    have hl : l.Nodup := h.picks.nodup hxs
    have hin : l ⊆ ys := by
      intro a ha
      rcases List.mem_append.mp (hperm.subset (h.picks.mem ha)) with hy | hz
      · exact hy
      · exact absurd (hbeaten a hz) (h.not_beaten ha)
    have hsubperm : l.Subperm ys := List.subperm_of_subset hl hin
    obtain ⟨others, hothers, habove⟩ := h.rest
    refine ⟨?_, h.sorted, ys.diff l, List.subperm_append_diff_self_of_count_le ?_, ?_⟩
    · cases zs with
      | nil =>
        rw [h.length, hperm.length_eq, List.append_nil]
      | cons z zs =>
        have hn := (hbeaten z (by simp)).length_le
        have hle := hsubperm.length_le
        rw [h.length] at hle ⊢
        omega
    · intro a _
      exact hsubperm.count_le a
    · intro a ha b hb
      have hb' := (hyz.sublist (List.sublist_append_left ys zs)).mem_sdiff_iff.mp hb
      refine habove a ha b ?_
      exact (List.mem_append.mp (hothers.symm.subset (hsub hb'.1))).resolve_left hb'.2
  · intro h
    obtain ⟨others, hothers, habove⟩ := h.rest
    -- what beats the best of the dominated items is not dominated itself
    have hcut : ∀ z ∈ zs, n ≤ ys.length ∧ ∀ a ∈ l, score z ≤ score a := by
      intro z hz
      obtain ⟨top, htop, hmax⟩ := zs.toFinset.exists_max_image score ⟨z, List.mem_toFinset.mpr hz⟩
      rw [List.mem_toFinset] at htop
      obtain ⟨better, hnodup, hlen, hbsub, hb⟩ := hbeaten top htop
      have hinys : better ⊆ ys := by
        intro b hbm
        rcases List.mem_append.mp (hperm.subset (hbsub hbm)) with hy | hbz
        · exact hy
        · exact absurd (hmax b (List.mem_toFinset.mpr hbz)) (not_le.mpr (hb b hbm))
      have htopys : Beaten score n ys top := ⟨better, hnodup, hlen, hinys, hb⟩
      refine ⟨htopys.length_le, fun a ha => ?_⟩
      refine (hmax z (List.mem_toFinset.mpr hz)).trans ?_
      by_contra hlt
      refine h.not_beaten ha ⟨better, hnodup, hlen, hinys, fun b hbm => ?_⟩
      exact (not_le.mp hlt).trans (hb b hbm)
    refine ⟨?_, h.sorted, others ++ zs, ?_, ?_⟩
    · cases zs with
      | nil => rw [h.length, hperm.length_eq, List.append_nil]
      | cons z zs =>
        have hn := (hcut z (by simp)).1
        have hlen := hperm.length_eq
        rw [List.length_append] at hlen
        rw [h.length]
        omega
    · rw [← List.append_assoc]
      exact (hothers.append_right zs).trans hperm.symm
    · intro a ha b hb
      rcases List.mem_append.mp hb with hb | hb
      · exact habove a ha b hb
      · exact (hcut b hb).2 a ha

end Leading

/-! ## Keyed lists -/

section Keyed

variable [DecidableEq α] {a : α}

/-- The value under a key. -/
def valueAt (l : List (α × β)) (a : α) : Option β := (l.find? (·.1 = a)).map Prod.snd

theorem valueAt_eq_none {l : List (α × β)} : valueAt l a = none ↔ a ∉ l.map Prod.fst := by
  rw [valueAt, Option.map_eq_none_iff, List.find?_eq_none]
  constructor
  · intro h hmem
    obtain ⟨x, hx, rfl⟩ := List.mem_map.mp hmem
    exact h x hx (by simp)
  · intro h x hx heq
    exact h (List.mem_map.mpr ⟨x, hx, of_decide_eq_true heq⟩)

theorem filter_key {l : List (α × β)} (hl : (l.map Prod.fst).Nodup) (a : α) :
    l.filter (·.1 = a) = (valueAt l a).toList.map (a, ·) := by
  induction l with
  | nil => rfl
  | cons x l ih =>
    rw [List.map_cons, List.nodup_cons] at hl
    by_cases hx : x.1 = a
    · have hnone : l.filter (·.1 = a) = [] := by
        rw [List.filter_eq_nil_iff]
        intro y hy heq
        exact hl.1 (List.mem_map.mpr ⟨y, hy, (of_decide_eq_true heq).trans hx.symm⟩)
      rw [List.filter_cons, if_pos (decide_eq_true hx), hnone, valueAt, List.find?_cons,
        decide_eq_true hx, ← hx]
      rfl
    · rw [List.filter_cons, if_neg (by simpa using hx), ih hl.2, valueAt, valueAt, List.find?_cons,
        decide_eq_false hx]

theorem mem_iff_valueAt {l : List (α × β)} (hl : (l.map Prod.fst).Nodup) {b : β} :
    (a, b) ∈ l ↔ valueAt l a = some b := by
  have hfilter : (a, b) ∈ l ↔ (a, b) ∈ l.filter (·.1 = a) := by
    rw [List.mem_filter]
    simp
  rw [hfilter, filter_key hl]
  simp

/-- FULL OUTER JOIN on the key. -/
def outerJoin (v : List (α × β)) (f : List (α × γ)) : List (α × Option β × Option γ) :=
  (v.flatMap fun x =>
    match f.filter (·.1 = x.1) with
    | [] => [(x.1, some x.2, none)]
    | y :: ys => (y :: ys).map fun y => (x.1, some x.2, some y.2))
  ++ (f.filter fun y => y.1 ∉ v.map Prod.fst).map fun y => (y.1, none, some y.2)

variable {v : List (α × β)} {f : List (α × γ)}

theorem outerJoin_eq (hf : (f.map Prod.fst).Nodup) : outerJoin v f
    = v.map (fun x => (x.1, some x.2, valueAt f x.1))
      ++ (f.filter fun y => y.1 ∉ v.map Prod.fst).map fun y => (y.1, none, some y.2) := by
  rw [outerJoin]
  congr 1
  rw [List.map_eq_flatMap]
  refine congrArg (List.flatMap · v) (funext fun x => ?_)
  rw [filter_key hf]
  cases valueAt f x.1 <;> rfl

theorem outerJoin_keys (hv : (v.map Prod.fst).Nodup) (hf : (f.map Prod.fst).Nodup) :
    ((outerJoin v f).map Prod.fst).Nodup := by
  rw [outerJoin_eq hf, List.map_append, List.map_map, List.map_map]
  refine List.Nodup.append hv ?_ ?_
  · exact hf.sublist (List.Sublist.map Prod.fst List.filter_sublist)
  · intro a ha hb
    obtain ⟨y, hy, rfl⟩ := List.mem_map.mp hb
    exact absurd ha (by simpa using (List.mem_filter.mp hy).2)

/-- A key of either list is in the join with its two values. -/
theorem mem_outerJoin (hv : (v.map Prod.fst).Nodup) (hf : (f.map Prod.fst).Nodup)
    {x : Option β} {y : Option γ} : (a, x, y) ∈ outerJoin v f
      ↔ (a ∈ v.map Prod.fst ∨ a ∈ f.map Prod.fst) ∧ x = valueAt v a ∧ y = valueAt f a := by
  rw [outerJoin_eq hf, List.mem_append, List.mem_map, List.mem_map]
  constructor
  · rintro (⟨p, hp, heq⟩ | ⟨p, hp, heq⟩)
    · obtain ⟨rfl, rfl, rfl⟩ := heq
      exact ⟨.inl (List.mem_map_of_mem hp), ((mem_iff_valueAt hv).mp hp).symm, rfl⟩
    · obtain ⟨rfl, rfl, rfl⟩ := heq
      obtain ⟨hp, hnot⟩ := List.mem_filter.mp hp
      refine ⟨.inr (List.mem_map_of_mem hp), ?_, ((mem_iff_valueAt hf).mp hp).symm⟩
      exact (valueAt_eq_none.mpr (of_decide_eq_true hnot)).symm
  · rintro ⟨hmem, rfl, rfl⟩
    by_cases ha : a ∈ v.map Prod.fst
    · obtain ⟨p, hp, rfl⟩ := List.mem_map.mp ha
      refine .inl ⟨p, hp, ?_⟩
      rw [(mem_iff_valueAt hv).mp hp]
    · obtain ⟨p, hp, rfl⟩ := List.mem_map.mp (hmem.resolve_left ha)
      refine .inr ⟨p, List.mem_filter.mpr ⟨hp, decide_eq_true ha⟩, ?_⟩
      rw [(mem_iff_valueAt hf).mp hp, valueAt_eq_none.mpr ha]

end Keyed

/-! ## Row numbers -/

/-- `row_number()` over a ranking. -/
def numbered (l : List α) : List (α × ℕ) := l.zipIdx 1

@[simp] theorem numbered_keys (l : List α) : (numbered l).map Prod.fst = l := List.zipIdx_map_fst 1 l

theorem numbered_map (g : α → β) (l : List α) :
    numbered (l.map g) = (numbered l).map fun x => (g x.1, x.2) := by
  rw [numbered, List.zipIdx_map]
  rfl

theorem numbered_initial {l m : List α} (h : l <+: m) : numbered l <+: numbered m := by
  obtain ⟨rest, rfl⟩ := h
  rw [numbered, numbered, List.zipIdx_append]
  exact List.prefix_append _ _

theorem numbered_pos {l : List α} {a : α} {i : ℕ} (h : (a, i) ∈ numbered l) : 0 < i := by
  have hle := List.le_snd_of_mem_zipIdx h
  exact hle

section Rank

variable [DecidableEq α] [DecidableEq β] {l m : List α} {a b : α} {i j : ℕ}

/-- The number a ranking gives a key. -/
def rank (l : List α) (a : α) : Option ℕ := valueAt (numbered l) a

theorem rank_eq_some (hl : l.Nodup) : rank l a = some i ↔ (a, i) ∈ numbered l := by
  rw [rank, mem_iff_valueAt (by rwa [numbered_keys])]

theorem rank_eq_none : rank l a = none ↔ a ∉ l := by
  rw [rank, valueAt_eq_none, numbered_keys]

theorem rank_of_mem (ha : a ∈ l) : ∃ i, rank l a = some i := by
  cases h : rank l a with
  | none => exact absurd ha (rank_eq_none.mp h)
  | some i => exact ⟨i, rfl⟩

/-- A prefix gives its keys the numbers they have. -/
theorem rank_initial (hm : m.Nodup) (h : l <+: m) (ha : a ∈ l) : rank l a = rank m a := by
  obtain ⟨i, hi⟩ := rank_of_mem ha
  rw [hi]
  have hmem := (rank_eq_some (hm.sublist h.sublist)).mp hi
  exact ((rank_eq_some hm).mpr ((numbered_initial h).subset hmem)).symm

theorem rank_le_length (hl : l.Nodup) (hi : rank l a = some i) : i ≤ l.length := by
  have hlt := List.snd_lt_add_of_mem_zipIdx ((rank_eq_some hl).mp hi)
  omega

/-- There are fewer keys ahead of a number than it says. -/
theorem length_lt_of_rank (hl : l.Nodup) (hm : m.Nodup) (hj : 0 < j)
    (h : ∀ x ∈ m, ∃ i < j, rank l x = some i) : m.length < j := by
  have hsub : m ⊆ l.take (j - 1) := by
    intro x hx
    obtain ⟨i, hi, hrank⟩ := h x hx
    have hmem := (rank_eq_some hl).mp hrank
    have hpos := numbered_pos hmem
    have hget : l[i - 1]? = some x := (List.mk_mem_zipIdx_iff_le_and_getElem?_sub.mp hmem).2
    apply List.mem_of_getElem? (i := i - 1)
    rw [List.getElem?_take_of_lt (by omega)]
    exact hget
  have hle := (List.subperm_of_subset hm hsub).length_le
  rw [List.length_take] at hle
  omega

theorem rank_map {g : α → β} (hl : l.Nodup) (hg : ∀ x ∈ a :: l, ∀ y ∈ a :: l, g x = g y → x = y) :
    rank (l.map g) (g a) = rank l a := by
  have hnodup : (l.map g).Nodup := by
    refine hl.map_on ?_
    intro x hx y hy
    exact hg x (List.mem_cons_of_mem _ hx) y (List.mem_cons_of_mem _ hy)
  by_cases ha : a ∈ l
  · obtain ⟨i, hi⟩ := rank_of_mem ha
    rw [hi, rank_eq_some hnodup, numbered_map]
    exact List.mem_map_of_mem ((rank_eq_some hl).mp hi)
  · rw [rank_eq_none.mpr ha, rank_eq_none, List.mem_map]
    rintro ⟨x, hx, heq⟩
    exact ha (hg x (List.mem_cons_of_mem _ hx) a List.mem_cons_self heq ▸ hx)

end Rank

/-! ## The join back -/

/-- JOIN: the rows of a relation, each beside the scores of the keys it matches. -/
def joinBack {S : Type} (on : β → α → Bool) (base : List β) (h : List (α × S)) : List (β × S) :=
  base.flatMap fun b => (h.filter fun x => on b x.1).map fun x => (b, x.2)

section JoinBack

variable {S : Type} {on : β → α → Bool} {base : List β} {h : List (α × S)}

theorem mem_joinBack {b : β} {s : S} :
    (b, s) ∈ joinBack on base h ↔ b ∈ base ∧ ∃ a, (a, s) ∈ h ∧ on b a = true := by
  rw [joinBack, List.mem_flatMap]
  constructor
  · rintro ⟨b', hb, hmem⟩
    obtain ⟨x, hx, heq⟩ := List.mem_map.mp hmem
    obtain ⟨rfl, rfl⟩ := Prod.mk.inj heq
    obtain ⟨hx, hon⟩ := List.mem_filter.mp hx
    exact ⟨hb, x.1, hx, hon⟩
  · rintro ⟨hb, a, ha, hon⟩
    exact ⟨b, hb, List.mem_map.mpr ⟨(a, s), List.mem_filter.mpr ⟨ha, hon⟩, rfl⟩⟩

/-- Rows that match one key at most are not multiplied. -/
theorem joinBack_rows (hone : ∀ b ∈ base, (h.filter fun x => on b x.1).length ≤ 1) :
    ((joinBack on base h).map Prod.fst).Sublist base := by
  induction base with
  | nil => exact List.Sublist.refl _
  | cons b base ih =>
    have hrest := ih fun c hc => hone c (List.mem_cons_of_mem _ hc)
    have hb := hone b List.mem_cons_self
    rw [joinBack, List.flatMap_cons, List.map_append]
    cases hmatch : h.filter fun x => on b x.1 with
    | nil => exact hrest.cons b
    | cons x rest =>
      rw [hmatch, List.length_cons] at hb
      have hnil : rest = [] := List.eq_nil_of_length_eq_zero (by omega)
      rw [hnil]
      exact hrest.cons_cons b

theorem flatMap_once [DecidableEq β] {l : List β} (hl : l.Nodup) {b : β} (hb : b ∈ l) (f : β → γ) :
    (l.flatMap fun x => if x = b then [f x] else []) = [f b] := by
  induction l with
  | nil => cases hb
  | cons y l ih =>
    obtain ⟨hy, hl⟩ := List.nodup_cons.mp hl
    rw [List.flatMap_cons]
    rcases List.mem_cons.mp hb with rfl | hb
    · have hnone : (l.flatMap fun x => if x = b then [f x] else []) = [] := by
        rw [List.flatMap_eq_nil_iff]
        intro x hx
        refine if_neg ?_
        rintro rfl
        exact hy hx
      rw [if_pos rfl, hnone, List.append_nil]
    · have hne : y ≠ b := by
        rintro rfl
        exact hy hb
      rw [if_neg hne, ih hl hb, List.nil_append]

/-- Where each key matches one row, the join puts that row in the key's place. -/
theorem joinBack_perm (hbase : base.Nodup) (g : α → β) (hg : ∀ x ∈ h, g x.1 ∈ base)
    (hon : ∀ x ∈ h, ∀ b ∈ base, on b x.1 = true ↔ b = g x.1) :
    (joinBack on base h).Perm (h.map fun x => (g x.1, x.2)) := by
  classical
  induction h with
  | nil =>
    have hnil : joinBack on base ([] : List (α × S)) = [] := by
      rw [joinBack, List.flatMap_eq_nil_iff]
      intro b _
      rfl
    rw [hnil]
    rfl
  | cons x h ih =>
    have hrest := ih (fun y hy => hg y (List.mem_cons_of_mem _ hy))
      (fun y hy => hon y (List.mem_cons_of_mem _ hy))
    -- the rows that match `x`, and then those that match the others
    have hsplit : joinBack on base (x :: h) = base.flatMap fun b =>
        (if on b x.1 then [(b, x.2)] else []) ++ (h.filter fun y => on b y.1).map fun y => (b, y.2) := by
      rw [joinBack]
      refine congrArg (List.flatMap · base) (funext fun b => ?_)
      rw [List.filter_cons]
      split <;> rfl
    have hfirst : (base.flatMap fun b => if on b x.1 then [(b, x.2)] else []) = [(g x.1, x.2)] := by
      rw [← flatMap_once hbase (hg x List.mem_cons_self) fun b => (b, x.2)]
      refine List.flatMap_congr fun b hb => ?_
      by_cases heq : b = g x.1
      · rw [if_pos heq, if_pos ((hon x List.mem_cons_self b hb).mpr heq)]
      · rw [if_neg heq, if_neg fun h => heq ((hon x List.mem_cons_self b hb).mp h)]
    rw [hsplit, List.map_cons]
    refine (List.flatMap_append_perm base _ _).symm.trans ?_
    rw [hfirst]
    exact hrest.cons _

end JoinBack

/-- Where keys and rows match one to one, the limit may be taken before the join or after it. -/
theorem leading_joinBack {S : Type} [LinearOrder S] {on : β → α → Bool} {base : List β}
    {xs : List (α × S)} {n : ℕ} {out : List (β × S)} (hbase : base.Nodup) (g : α → β) (key : β → α)
    (hkey : ∀ x ∈ xs, key (g x.1) = x.1) (hg : ∀ x ∈ xs, g x.1 ∈ base)
    (hon : ∀ x ∈ xs, ∀ b ∈ base, on b x.1 = true ↔ b = g x.1) :
    (∃ h, Leading Prod.snd n xs h ∧ out.Perm (joinBack on base h))
      ↔ ∃ out', Leading Prod.snd n (joinBack on base xs) out' ∧ out'.Perm out := by
  have hall := joinBack_perm hbase g hg hon
  constructor
  · rintro ⟨h, htop, hout⟩
    have hsub : ∀ x ∈ h, x ∈ xs := fun x hx => htop.picks.mem hx
    have hjoin := joinBack_perm hbase g (fun x hx => hg x (hsub x hx)) fun x hx => hon x (hsub x hx)
    refine ⟨h.map fun x => (g x.1, x.2), ?_, (hout.trans hjoin).symm⟩
    exact (htop.map (fun x => (g x.1, x.2)) fun x _ => rfl).perm hall.symm
  · rintro ⟨out', htop, hout⟩
    have hback : (joinBack on base xs).map (fun y => (key y.1, y.2)) |>.Perm xs := by
      refine (hall.map _).trans ?_
      rw [List.map_map]
      refine List.Perm.of_eq ((List.map_congr_left fun x hx => ?_).trans (List.map_id xs))
      show (key (g x.1), x.2) = x
      rw [hkey x hx]
    have hlead : Leading Prod.snd n xs (out'.map fun y => (key y.1, y.2)) :=
      (htop.map (fun y => (key y.1, y.2)) fun y _ => rfl).perm hback
    have hsub : ∀ x ∈ out'.map (fun y => (key y.1, y.2)), x ∈ xs := fun x hx => hlead.picks.mem hx
    have hjoin := joinBack_perm hbase g (fun x hx => hg x (hsub x hx)) fun x hx => hon x (hsub x hx)
    refine ⟨_, hlead, hout.symm.trans (List.Perm.trans (List.Perm.of_eq ?_) hjoin.symm)⟩
    rw [List.map_map]
    refine ((List.map_congr_left fun y hy => ?_).trans (List.map_id out')).symm
    obtain ⟨x, hx, rfl⟩ := List.mem_map.mp (hall.subset (htop.picks.mem hy))
    show (g (key (g x.1)), x.2) = (g x.1, x.2)
    rw [hkey x hx]

end Ranked
