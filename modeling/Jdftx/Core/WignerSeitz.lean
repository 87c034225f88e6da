/-
# Core.WignerSeitz — the Wigner–Seitz cell of a lattice

`getCellMap` builds `WignerSeitz ws(Rsup)`, a class that is not among the sources, and asks it
whether a point, given in lattice coordinates, lies on the boundary of the cell, whether it
lies strictly inside (`boundaryDistance > 0`), and for the circumradius of the cell. This
module defines the closed cell of the lattice `Rsup·ℤ³` exactly, as the points that no lattice
point is closer to than the origin, with its interior and its boundary; `WignerSeitz.Exact` is
what the model assumes of the class. The facts the cell map rests on:

* `inCell_iff`: the closed cell is the union of the interior and the boundary, and
  `not_onBoundary_of_interior`: the two are disjoint.
* `eq_zero_of_interior_of_inCell`: an interior point has no other lattice translate in the
  closed cell.
* `exists_inCell_translate`: every point has a lattice translate in the closed cell.
* `sq_coord_le`: a coordinate of `v` is bounded by the length of a row of `R⁻¹` times the
  length of `R·v` (Cauchy–Schwarz); this is the bounding box of `getCellMap`.
-/
import Jdftx.Core.Matrix3
import Mathlib.Algebra.Order.BigOperators.Ring.Finset
import Mathlib.Algebra.Order.Floor
import Mathlib.Data.Fintype.BigOperators

namespace Jdftx

set_option autoImplicit false

open Matrix

variable {α : Type} [LinearOrderedField α]

/-! ## The cell -/

/-- The squared distance of `y` from the lattice point `Rsup·n`. -/
def distSq (Rsup : Matrix3 α) (y : Vector3 α) (n : Fin 3 → ℤ) : α :=
  (y - Rsup *ᵥ Vector3.ofInt n) ⬝ᵥ (y - Rsup *ᵥ Vector3.ofInt n)

/-- The closed Wigner–Seitz cell of `Rsup·ℤ³`: no lattice point is closer to `y` than the
origin. -/
def InCell (Rsup : Matrix3 α) (y : Vector3 α) : Prop := ∀ n, y ⬝ᵥ y ≤ distSq Rsup y n

/-- The interior: every other lattice point is farther from `y` than the origin. -/
def InInterior (Rsup : Matrix3 α) (y : Vector3 α) : Prop :=
  ∀ n, n ≠ 0 → y ⬝ᵥ y < distSq Rsup y n

/-- The boundary: `y` is in the closed cell and as far from another lattice point as from the
origin. -/
def OnBoundary (Rsup : Matrix3 α) (y : Vector3 α) : Prop :=
  InCell Rsup y ∧ ∃ n, n ≠ 0 ∧ distSq Rsup y n = y ⬝ᵥ y

/-- The queries `getCellMap` makes of `WignerSeitz ws(Rsup)`, in the lattice coordinates `x`
of a point `Rsup·x`. -/
structure WignerSeitz (α : Type) where
  onBoundary : Vector3 α → Bool
  boundaryDistance : Vector3 α → α
  circumRadius : α

/-- The class answers exactly, and its circumradius bounds the cell. -/
structure WignerSeitz.Exact (ws : WignerSeitz α) (Rsup : Matrix3 α) : Prop where
  onBoundary_iff : ∀ x, ws.onBoundary x = true ↔ OnBoundary Rsup (Rsup *ᵥ x)
  boundaryDistance_pos_iff : ∀ x, 0 < ws.boundaryDistance x ↔ InInterior Rsup (Rsup *ᵥ x)
  circumRadius_nonneg : 0 ≤ ws.circumRadius
  circumRadius_bound : ∀ y, InCell Rsup y → y ⬝ᵥ y ≤ ws.circumRadius ^ 2

@[simp] theorem distSq_zero (Rsup : Matrix3 α) (y : Vector3 α) : distSq Rsup y 0 = y ⬝ᵥ y := by
  simp [distSq]

/-- The distance of a translate `y - Rsup·m` from `Rsup·n` is that of `y` from `Rsup·(m + n)`. -/
theorem distSq_translate (Rsup : Matrix3 α) (y : Vector3 α) (m n : Fin 3 → ℤ) :
    distSq Rsup (y - Rsup *ᵥ Vector3.ofInt m) n = distSq Rsup y (m + n) := by
  simp only [distSq, Vector3.ofInt_add, mulVec_add, sub_sub]

theorem inCell_of_interior {Rsup : Matrix3 α} {y : Vector3 α} (interior : InInterior Rsup y) :
    InCell Rsup y := fun n => by
  by_cases zero : n = 0
  · simp [zero]
  · exact (interior n zero).le

theorem inCell_iff (Rsup : Matrix3 α) (y : Vector3 α) :
    InCell Rsup y ↔ InInterior Rsup y ∨ OnBoundary Rsup y := by
  refine ⟨fun cell => ?_, fun side => side.elim inCell_of_interior And.left⟩
  by_cases equidistant : ∃ n, n ≠ 0 ∧ distSq Rsup y n = y ⬝ᵥ y
  · exact .inr ⟨cell, equidistant⟩
  · push_neg at equidistant
    exact .inl fun n nonzero => (cell n).lt_of_ne (equidistant n nonzero).symm

theorem not_onBoundary_of_interior {Rsup : Matrix3 α} {y : Vector3 α}
    (interior : InInterior Rsup y) : ¬ OnBoundary Rsup y := fun ⟨_, n, nonzero, equal⟩ =>
  (interior n nonzero).ne' equal

/-- An interior point has no other lattice translate in the closed cell. -/
theorem eq_zero_of_interior_of_inCell {Rsup : Matrix3 α} {y : Vector3 α} {m : Fin 3 → ℤ}
    (interior : InInterior Rsup y) (cell : InCell Rsup (y - Rsup *ᵥ Vector3.ofInt m)) : m = 0 := by
  by_contra nonzero
  have farther := interior m nonzero
  have closer := cell (-m)
  rw [distSq_translate, add_neg_cancel, distSq_zero] at closer
  exact absurd farther (not_lt.2 closer)

/-! ## Bounds -/

/-- Cauchy–Schwarz for `⬝ᵥ`. -/
theorem dotProduct_sq_le (u v : Vector3 α) : (u ⬝ᵥ v) ^ 2 ≤ (u ⬝ᵥ u) * (v ⬝ᵥ v) := by
  simpa only [dotProduct, sq] using Finset.sum_mul_sq_le_sq_mul_sq Finset.univ u v

/-- A coordinate of `v` against the length of `R·v`, for a left inverse `Rinv` of `R`. -/
theorem sq_coord_le {R Rinv : Matrix3 α} (left : Rinv * R = 1) (v : Vector3 α) (l : Fin 3) :
    v l ^ 2 ≤ (Rinv l ⬝ᵥ Rinv l) * ((R *ᵥ v) ⬝ᵥ (R *ᵥ v)) := by
  have coord : v l = Rinv l ⬝ᵥ (R *ᵥ v) := by
    conv_lhs => rw [← one_mulVec v, ← left, ← mulVec_mulVec]
    rfl
  rw [coord]
  exact dotProduct_sq_le _ _

/-- `|a - b|² ≤ 2|a|² + 2|b|²`. -/
theorem dotProduct_sub_self_le (a b : Vector3 α) :
    (a - b) ⬝ᵥ (a - b) ≤ 2 * (a ⬝ᵥ a) + 2 * (b ⬝ᵥ b) := by
  have sum := dotProduct_self_nonneg (a + b)
  simp only [add_dotProduct, dotProduct_add, sub_dotProduct, dotProduct_sub,
    dotProduct_comm b a] at sum ⊢
  linarith

section Translate

variable [FloorRing α] {Rsup Rinv : Matrix3 α}

/-- The lattice points no farther from `y` than the origin lie in a box. -/
theorem abs_le_of_distSq_le (left : Rinv * Rsup = 1) (y : Vector3 α) {n : Fin 3 → ℤ}
    (near : distSq Rsup y n ≤ y ⬝ᵥ y) (l : Fin 3) :
    |n l| ≤ ⌈∑ k, (Rinv k ⬝ᵥ Rinv k) * (4 * (y ⬝ᵥ y))⌉₊ := by
  have point : (Rsup *ᵥ Vector3.ofInt n) ⬝ᵥ (Rsup *ᵥ Vector3.ofInt n) ≤ 4 * (y ⬝ᵥ y) := by
    have := dotProduct_sub_self_le y (y - Rsup *ᵥ Vector3.ofInt n)
    rw [sub_sub_cancel] at this
    unfold distSq at near
    linarith
  have coord := sq_coord_le left (Vector3.ofInt n) l
  have row : (Rinv l ⬝ᵥ Rinv l) * (4 * (y ⬝ᵥ y)) ≤ ∑ k, (Rinv k ⬝ᵥ Rinv k) * (4 * (y ⬝ᵥ y)) := by
    apply Finset.single_le_sum (fun k _ => ?_) (Finset.mem_univ l)
    exact mul_nonneg (dotProduct_self_nonneg _) (mul_nonneg zero_le_four (dotProduct_self_nonneg _))
  have square : ((|n l| : ℤ) : α) ≤ (n l : α) ^ 2 := by
    rw [Int.abs_eq_natAbs]
    exact_mod_cast Int.natAbs_le_self_sq (n l)
  have bound : ((|n l| : ℤ) : α) ≤ ⌈∑ k, (Rinv k ⬝ᵥ Rinv k) * (4 * (y ⬝ᵥ y))⌉₊ :=
    calc ((|n l| : ℤ) : α) ≤ (n l : α) ^ 2 := square
      _ ≤ (Rinv l ⬝ᵥ Rinv l) * (4 * (y ⬝ᵥ y)) := by
        simpa using coord.trans (mul_le_mul_of_nonneg_left point (dotProduct_self_nonneg _))
      _ ≤ _ := row.trans (Nat.le_ceil _)
  exact_mod_cast bound

/-- Every point has a lattice translate in the closed cell: a closest lattice point exists. -/
theorem exists_inCell_translate (left : Rinv * Rsup = 1) (y : Vector3 α) :
    ∃ m, InCell Rsup (y - Rsup *ᵥ Vector3.ofInt m) := by
  let B : ℕ := ⌈∑ k, (Rinv k ⬝ᵥ Rinv k) * (4 * (y ⬝ᵥ y))⌉₊
  let box : Finset (Fin 3 → ℤ) := Fintype.piFinset fun _ => Finset.Icc (-(B : ℤ)) B
  have inBox : ∀ n, distSq Rsup y n ≤ y ⬝ᵥ y → n ∈ box := fun n near =>
    Fintype.mem_piFinset.2 fun l => Finset.mem_Icc.2 (abs_le.1 (abs_le_of_distSq_le left y near l))
  have zero : (0 : Fin 3 → ℤ) ∈ box := inBox 0 (by simp)
  obtain ⟨m, -, least⟩ := box.exists_min_image (distSq Rsup y) ⟨0, zero⟩
  refine ⟨m, fun n => ?_⟩
  rw [distSq_translate]
  change distSq Rsup y m ≤ _
  by_cases mem : m + n ∈ box
  · exact least _ mem
  · have far : y ⬝ᵥ y < distSq Rsup y (m + n) := not_le.1 fun near => mem (inBox _ near)
    exact (least 0 zero).trans ((distSq_zero Rsup y).le.trans far.le)

end Translate

end Jdftx
