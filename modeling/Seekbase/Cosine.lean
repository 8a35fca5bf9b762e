/-
# Seekbase.Cosine — the lance backend measures normalised vectors, the vss backend angles.

The vss index orders by cosine distance, the lance dataset by squared L2 distance, and `_l2_normalize`
on both sides of the latter is all that makes them one order.  Over exact reals they are one: between
unit vectors the squared distance is twice the cosine distance.

* `dot`, `sqDist`            — sums over components, of two vectors of one length;
* `sqDist_eq`                — the binomial, summed;
* `l2Normalize`, `dot_l2Normalize` — the vectors the dataset holds are unit vectors;
* `sqDist_l2Normalize`       — twice the cosine distance;
* `normalized_ranks`         — so both engines compare, tie and rank candidates alike.
-/
import Mathlib.Analysis.Real.Sqrt
import Mathlib.Tactic.Linarith
import Seekbase.Lib.Ranked

namespace Seekbase

open Ranked

/-! ## Sums over components -/

section Sums

variable {R : Type} [CommRing R]

def dot (u w : List R) : R := (List.zipWith (· * ·) u w).sum

/-- The squared Euclidean distance, what lance calls `_distance`. -/
def sqDist (u w : List R) : R := (List.zipWith (fun x y => (x - y) * (x - y)) u w).sum

@[simp] theorem dot_nil (w : List R) : dot [] w = 0 := rfl

@[simp] theorem dot_cons (x y : R) (u w : List R) : dot (x :: u) (y :: w) = x * y + dot u w := by
  simp [dot]

@[simp] theorem sqDist_cons (x y : R) (u w : List R) :
    sqDist (x :: u) (y :: w) = (x - y) * (x - y) + sqDist u w := by
  simp [sqDist]

theorem sum_squares (v : List R) : (v.map fun x => x * x).sum = dot v v := by
  rw [dot, List.zipWith_self]

theorem sqDist_eq {u w : List R} (h : u.length = w.length) :
    sqDist u w = dot u u - 2 * dot u w + dot w w := by
  induction u generalizing w with
  | nil =>
    obtain rfl := List.length_eq_zero_iff.mp h.symm
    simp [sqDist]
  | cons x u ih =>
    cases w with
    | nil => cases h
    | cons y w =>
      rw [sqDist_cons, dot_cons, dot_cons, dot_cons, ih (Nat.succ.inj h)]
      ring

theorem dot_scale (c e : R) (u w : List R) :
    dot (u.map (· * c)) (w.map (· * e)) = dot u w * (c * e) := by
  induction u generalizing w with
  | nil => simp
  | cons x u ih =>
    cases w with
    | nil => simp [dot]
    | cons y w =>
      rw [List.map_cons, List.map_cons, dot_cons, dot_cons, ih]
      ring

end Sums

/-! ## Vectors the engines compare -/

/-- A vector of `FLOAT[d]` with a direction. -/
abbrev Directed (d : ℕ) := { v : List ℝ // v.length = d ∧ ∃ x ∈ v, x ≠ 0 }

noncomputable section

/-- `sum(x * x for x in v) ** 0.5`. -/
def norm2 (v : List ℝ) : ℝ := Real.sqrt (v.map fun x => x * x).sum

/-- `_l2_normalize`: a vector without a norm is left as it is. -/
def l2Normalize (v : List ℝ) : List ℝ := if norm2 v ≠ 0 then v.map (· / norm2 v) else v

/-- `array_cosine_distance`. -/
def cosineDistance (u w : List ℝ) : ℝ := 1 - dot u w / (norm2 u * norm2 w)

end

theorem dot_self_nonneg (v : List ℝ) : 0 ≤ dot v v := by
  rw [← sum_squares]
  refine List.sum_nonneg fun y hy => ?_
  obtain ⟨x, -, rfl⟩ := List.mem_map.mp hy
  exact mul_self_nonneg x

theorem norm2_sq (v : List ℝ) : norm2 v * norm2 v = dot v v := by
  rw [norm2, sum_squares, Real.mul_self_sqrt (dot_self_nonneg v)]

theorem dot_self_pos {v : List ℝ} (h : ∃ x ∈ v, x ≠ 0) : 0 < dot v v := by
  obtain ⟨x, hx, hne⟩ := h
  induction v with
  | nil => cases hx
  | cons y v ih =>
    rw [dot_cons]
    rcases List.mem_cons.mp hx with rfl | hx
    · have hsquare := mul_self_pos.mpr hne
      have hrest := dot_self_nonneg v
      linarith
    · have hsquare := mul_self_nonneg y
      have hrest := ih hx
      linarith

theorem norm2_pos {v : List ℝ} (h : ∃ x ∈ v, x ≠ 0) : 0 < norm2 v := by
  rw [norm2, sum_squares]
  exact Real.sqrt_pos.mpr (dot_self_pos h)

theorem l2Normalize_eq {v : List ℝ} (h : ∃ x ∈ v, x ≠ 0) :
    l2Normalize v = v.map (· * (norm2 v)⁻¹) := by
  rw [l2Normalize, if_pos (norm2_pos h).ne']
  simp only [div_eq_mul_inv]

/-- The angle between normalised vectors is that between the vectors. -/
theorem dot_l2Normalize {u w : List ℝ} (hu : ∃ x ∈ u, x ≠ 0) (hw : ∃ x ∈ w, x ≠ 0) :
    dot (l2Normalize u) (l2Normalize w) = dot u w / (norm2 u * norm2 w) := by
  rw [l2Normalize_eq hu, l2Normalize_eq hw, dot_scale, ← mul_inv, div_eq_mul_inv]

/-- A normalised vector is a unit vector. -/
theorem unit_l2Normalize {v : List ℝ} (h : ∃ x ∈ v, x ≠ 0) :
    dot (l2Normalize v) (l2Normalize v) = 1 := by
  rw [dot_l2Normalize h h, norm2_sq, div_self (dot_self_pos h).ne']

/-- ‖q̂ − â‖² = 2 − 2 cos θ. -/
theorem sqDist_l2Normalize {d : ℕ} (q a : Directed d) :
    sqDist (l2Normalize q.1) (l2Normalize a.1) = 2 * cosineDistance q.1 a.1 := by
  have hlen : (l2Normalize q.1).length = (l2Normalize a.1).length := by
    rw [l2Normalize_eq q.2.2, l2Normalize_eq a.2.2, List.length_map, List.length_map, q.2.1, a.2.1]
  rw [sqDist_eq hlen, unit_l2Normalize q.2.2, unit_l2Normalize a.2.2, dot_l2Normalize q.2.2 a.2.2,
    cosineDistance]
  ring

/-- Over exact reals, for vectors of any dimension that are not zero: normalised, they are as near by
squared distance as they are by cosine distance, with the same ties, and of any candidates the first
`n` of the one order are the first `n` of the other. -/
theorem normalized_ranks {d : ℕ} (q : Directed d) :
    (∀ a b : Directed d,
      (sqDist (l2Normalize q.1) (l2Normalize a.1) ≤ sqDist (l2Normalize q.1) (l2Normalize b.1)
          ↔ cosineDistance q.1 a.1 ≤ cosineDistance q.1 b.1)
        ∧ (sqDist (l2Normalize q.1) (l2Normalize a.1) = sqDist (l2Normalize q.1) (l2Normalize b.1)
          ↔ cosineDistance q.1 a.1 = cosineDistance q.1 b.1))
      ∧ ∀ (κ : Type) (n : ℕ) (cands l : List (κ × Directed d)),
        Leading (fun c => -sqDist (l2Normalize q.1) (l2Normalize c.2.1)) n cands l
          ↔ Leading (fun c => -cosineDistance q.1 c.2.1) n cands l := by
  constructor
  · intro a b
    rw [sqDist_l2Normalize, sqDist_l2Normalize]
    constructor
    · constructor <;> intro h <;> linarith
    · constructor <;> intro h <;> linarith
  · intro κ n cands l
    apply leading_congr
    intro c e
    rw [sqDist_l2Normalize, sqDist_l2Normalize]
    constructor <;> intro h <;> linarith

end Seekbase
