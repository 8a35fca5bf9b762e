/-
# Seekbase.Lib.Run — labelled transition systems: runs, invariants, guarded runs.

A system is a partial step function on states and labels, so a schedule is a list of labels and the
state it leads to is computed.  Five rules carry every result about runs:

* `run_invariant` — what every step keeps holds after every run;
* `run_guarded`   — what every step that meets a guard keeps holds after every run that meets it
                    throughout;
* `run_iff`       — a property that a step keeps EXACTLY when it meets the guard holds after a run
                    iff the run meets the guard throughout;
* `always_iff_guarded` — the same for a property of every state the run passes;
* `run_spends`    — a measure that every step takes from bounds the length of a run.
-/
import Mathlib.Algebra.GroupWithZero.Nat
import Mathlib.Data.List.Basic

namespace Transition

variable {σ ι : Type} (step : σ → ι → Option σ)

/-- The state a schedule leads to, if every label of it is enabled in turn. -/
def run : σ → List ι → Option σ
  | s, [] => some s
  | s, l :: ls => (step s l).bind fun t => run t ls

/-- Every step of the schedule meets the guard in the state it is taken from. -/
def Guarded (guard : σ → ι → Prop) : σ → List ι → Prop
  | _, [] => True
  | s, l :: ls => guard s l ∧ ∀ t, step s l = some t → Guarded guard t ls

/-- A guard that can be evaluated can be evaluated along a schedule. -/
instance Guarded.decidable (guard : σ → ι → Prop) [∀ s l, Decidable (guard s l)] :
    ∀ s ls, Decidable (Guarded step guard s ls)
  | _, [] => isTrue trivial
  | s, l :: ls =>
    match h : step s l with
    | none => decidable_of_iff (guard s l) (by simp [Guarded, h])
    | some t =>
      have := Guarded.decidable guard t ls
      decidable_of_iff (guard s l ∧ Guarded step guard t ls) (by simp [Guarded, h])

variable {step}

theorem run_cons_iff {s t : σ} {l : ι} {ls : List ι} :
    run step s (l :: ls) = some t ↔ ∃ u, step s l = some u ∧ run step u ls = some t := by
  rw [run, Option.bind_eq_some_iff]

theorem run_append (s : σ) (a b : List ι) :
    run step s (a ++ b) = (run step s a).bind fun t => run step t b := by
  induction a generalizing s with
  | nil => rfl
  | cons l a ih =>
    simp only [List.cons_append, run, Option.bind_assoc]
    exact congrArg _ (funext ih)

theorem run_snoc_iff {s t : σ} {l : ι} {ls : List ι} :
    run step s (ls ++ [l]) = some t ↔ ∃ u, run step s ls = some u ∧ step u l = some t := by
  rw [run_append, Option.bind_eq_some_iff]
  constructor
  · rintro ⟨u, hu, ht⟩
    obtain ⟨v, hv, ht⟩ := run_cons_iff.mp ht
    obtain rfl := Option.some.inj ht
    exact ⟨u, hu, hv⟩
  · rintro ⟨u, hu, ht⟩
    exact ⟨u, hu, run_cons_iff.mpr ⟨t, ht, rfl⟩⟩

theorem run_invariant {I : σ → Prop} (hstep : ∀ s l t, I s → step s l = some t → I t)
    {s t : σ} {ls : List ι} (hs : I s) (hrun : run step s ls = some t) : I t := by
  induction ls generalizing s with
  | nil => obtain rfl := Option.some.inj hrun; exact hs
  | cons l ls ih =>
    obtain ⟨u, hu, hrun⟩ := run_cons_iff.mp hrun
    exact ih (hstep s l u hs hu) hrun

theorem run_guarded {I : σ → Prop} {guard : σ → ι → Prop}
    (hstep : ∀ s l t, I s → guard s l → step s l = some t → I t)
    {s t : σ} {ls : List ι} (hs : I s) (hg : Guarded step guard s ls)
    (hrun : run step s ls = some t) : I t := by
  induction ls generalizing s with
  | nil => obtain rfl := Option.some.inj hrun; exact hs
  | cons l ls ih =>
    obtain ⟨u, hu, hrun⟩ := run_cons_iff.mp hrun
    exact ih (hstep s l u hs hg.1 hu) (hg.2 u hu) hrun

/-- Where a guarded step keeps an invariant that makes a state good, and an unguarded one leads from
it to a state that is not, a run passes good states only iff it is guarded throughout. -/
theorem always_iff_guarded {I P : σ → Prop} {guard : σ → ι → Prop} (hgood : ∀ s, I s → P s)
    (hkeep : ∀ s l t, I s → guard s l → step s l = some t → I t)
    (hbreak : ∀ s l t, I s → ¬ guard s l → step s l = some t → ¬ P t)
    {s : σ} {ls : List ι} (hs : I s) (hrun : (run step s ls).isSome = true) :
    (∀ pre, pre <+: ls → ∀ t, run step s pre = some t → P t) ↔ Guarded step guard s ls := by
  induction ls generalizing s with
  | nil =>
    refine ⟨fun _ => trivial, fun _ pre hpre t ht => ?_⟩
    obtain rfl := List.prefix_nil.mp hpre
    obtain rfl := Option.some.inj ht
    exact hgood s hs
  | cons l ls ih =>
    obtain ⟨v, hv⟩ := Option.isSome_iff_exists.mp hrun
    obtain ⟨u, hu, hv⟩ := run_cons_iff.mp hv
    have hrest : (run step u ls).isSome = true := by rw [hv]; rfl
    constructor
    · intro hall
      have hg : guard s l := by
        by_contra hg
        refine hbreak s l u hs hg hu (hall [l] ?_ u ?_)
        · exact List.prefix_append [l] ls
        · exact run_cons_iff.mpr ⟨u, hu, rfl⟩
      refine ⟨hg, fun t ht => ?_⟩
      obtain rfl := Option.some.inj (hu.symm.trans ht)
      refine (ih (hkeep s l u hs hg hu) hrest).mp fun pre hpre t ht => ?_
      exact hall (l :: pre) (List.cons_prefix_cons.mpr ⟨rfl, hpre⟩) t
        (run_cons_iff.mpr ⟨u, hu, ht⟩)
    · rintro ⟨hg, hguard⟩ pre hpre t ht
      cases pre with
      | nil => obtain rfl := Option.some.inj ht; exact hgood s hs
      | cons l' pre =>
        obtain ⟨rfl, hpre'⟩ := List.cons_prefix_cons.mp hpre
        obtain ⟨u', hu', ht⟩ := run_cons_iff.mp ht
        obtain rfl := Option.some.inj (hu.symm.trans hu')
        exact (ih (hkeep s l' u hs hg hu) hrest).mpr (hguard u hu) pre hpre' t ht

/-- A guard on the labels alone. -/
theorem Guarded.of_forall {guard : σ → ι → Prop} {s : σ} {ls : List ι}
    (h : ∀ l ∈ ls, ∀ t, guard t l) : Guarded step guard s ls := by
  induction ls generalizing s with
  | nil => trivial
  | cons l ls ih => exact ⟨h l (by simp) s, fun t _ => ih fun l' hl' => h l' (by simp [hl'])⟩

/-- A guard and one on the labels alone. -/
theorem Guarded.and_forall {guard guard' : σ → ι → Prop} {s : σ} {ls : List ι}
    (h : Guarded step guard s ls) (h' : ∀ l ∈ ls, ∀ t, guard' t l) :
    Guarded step (fun s l => guard s l ∧ guard' s l) s ls := by
  induction ls generalizing s with
  | nil => trivial
  | cons l ls ih =>
    refine ⟨⟨h.1, h' l (by simp) s⟩, fun t ht => ?_⟩
    exact ih (h.2 t ht) fun l' hl' => h' l' (by simp [hl'])

theorem Guarded.imp {guard guard' : σ → ι → Prop} (h : ∀ s l, guard s l → guard' s l) {s : σ}
    {ls : List ι} (hg : Guarded step guard s ls) : Guarded step guard' s ls := by
  induction ls generalizing s with
  | nil => trivial
  | cons l ls ih => exact ⟨h s l hg.1, fun t ht => ih (hg.2 t ht)⟩

/-- A guarded run stays guarded up to any state it passes. -/
theorem Guarded.append {guard : σ → ι → Prop} {s : σ} {a b : List ι}
    (h : Guarded step guard s (a ++ b)) : Guarded step guard s a := by
  induction a generalizing s with
  | nil => trivial
  | cons l a ih => exact ⟨h.1, fun t ht => ih (h.2 t ht)⟩

/-- Where every guarded step takes one off a measure, apart from what its label pays in, the measure and
what was paid bound the length of a run. -/
theorem run_spends {I : σ → Prop} {guard : σ → ι → Prop} {m : σ → Nat} {cost : ι → Nat}
    (hstep : ∀ s l t, I s → guard s l → step s l = some t → I t ∧ m t + 1 ≤ m s + cost l)
    {s t : σ} {ls : List ι} (hs : I s) (hg : Guarded step guard s ls)
    (hrun : run step s ls = some t) : ls.length + m t ≤ m s + (ls.map cost).sum := by
  induction ls generalizing s with
  | nil =>
    obtain rfl := Option.some.inj hrun
    simp
  | cons l ls ih =>
    obtain ⟨u, hu, hrun⟩ := run_cons_iff.mp hrun
    obtain ⟨hI, hm⟩ := hstep s l u hs hg.1 hu
    have hrest := ih hI (hg.2 u hu) hrun
    simp only [List.length_cons, List.map_cons, List.sum_cons]
    omega

theorem run_iff {I P : σ → Prop} {guard : σ → ι → Prop}
    (hinv : ∀ s l t, I s → step s l = some t → I t)
    (hstep : ∀ s l t, I s → step s l = some t → (P t ↔ P s ∧ guard s l))
    {s t : σ} {ls : List ι} (hs : I s) (hrun : run step s ls = some t) :
    P t ↔ P s ∧ Guarded step guard s ls := by
  induction ls generalizing s with
  | nil => obtain rfl := Option.some.inj hrun; simp [Guarded]
  | cons l ls ih =>
    obtain ⟨u, hu, hrun⟩ := run_cons_iff.mp hrun
    rw [ih (hinv s l u hs hu) hrun, hstep s l u hs hu, Guarded, and_assoc]
    refine and_congr_right fun _ => and_congr_right fun _ => ?_
    constructor
    · intro hg t ht
      rw [hu] at ht
      exact Option.some.inj ht ▸ hg
    · intro hg
      exact hg u hu

end Transition
