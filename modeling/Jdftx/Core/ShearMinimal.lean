/-
# Core.ShearMinimal — lattices that no shear shortens, and their symmetries

`reduceLatticeVectors` stops once no shear of a sweep lowers `nrm2(Rreduced)` by more than
`symmThreshold`. When no shear lowers it at all, the reduced lattice is a local minimum of the
shear search (`ShearMinimal` of its metric `M = Rreducedᵀ·Rreduced`): for every `k` and every
integer `v` with entries in `{-1,0,1}` and `v k ≠ 0`, column `k` is no longer than
`Rreduced·v`. This is what `getSymmetries` counts on when it searches only `{-1,0,1}` entries
("all entries of reduced lattice vector symmetries must be -1, 0 or 1"):

* `le_gramQ`: on such a metric `M k k ≤ xᵀ·M·x` for every integer `x` with `x k ≠ 0`, strictly
  when some `|x l| ≥ 2`. With `σ` the signs of `x`, the form of `x = σ + (x - σ)` is that of `σ`,
  which the shears bound below, plus a cross term that the shears adding one column to another
  keep nonnegative, plus the form of `x - σ`.
* `unitEntries_of_invariant`: every integer `m` with `mᵀ·M·m = M` has entries in `{-1,0,1}`. A
  nonzero term of the Leibniz expansion of `det m` gives a permutation `π` with
  `m (π j) j ≠ 0`, so that column `j` of `m`, of form `M j j`, bounds `M (π j) (π j)`; the two
  sides have one sum, so no column can leave the box, which would make its bound strict.
-/
import Jdftx.Core.ReduceLatticeVectors
import Jdftx.Core.Supercell.Lattice
import Mathlib.LinearAlgebra.Matrix.DotProduct

namespace Jdftx

set_option autoImplicit false

open Matrix

variable {α : Type} [LinearOrderedField α]

/-! ## The shears as vectors -/

/-- The lattice coordinates of column `k1` after the shear: `e_k1 + i·e_(k1+1) + j·e_(k1+2)`. -/
def Shear.column (s : Shear) : Fin 3 → ℤ :=
  Pi.single s.k1 1 + Pi.single (s.k1 + 1) s.i + Pi.single (s.k1 + 2) s.j

/-- No shear of a sweep shortens the lattice of metric `M` at all. -/
def ShearMinimal {β : Type} [LinearOrderedCommRing β] (M : Matrix3 β) : Prop :=
  ∀ s ∈ sweepShears, 0 ≤ s.gain M

instance {β : Type} [LinearOrderedCommRing β] (M : Matrix3 β) :
    Decidable (ShearMinimal M) :=
  inferInstanceAs (Decidable (∀ s ∈ sweepShears, _))

@[simp] theorem shearMinimal_cast (M : Matrix3 ℤ) :
    ShearMinimal (Matrix3.cast M : Matrix3 α) ↔ ShearMinimal M := by
  simp only [ShearMinimal, Shear.gain_cast, Int.cast_nonneg]

/-! ## The form -/

section Form

variable {M : Matrix3 α}

theorem gramQ_neg (M : Matrix3 α) (x : Fin 3 → α) : gramQ M (-x) = gramQ M x := by
  simp only [gramQ, mulVec_neg, neg_dotProduct, dotProduct_neg, neg_neg]

theorem gramQ_add (symm : Mᵀ = M) (u w : Fin 3 → α) :
    gramQ M (u + w) = gramQ M u + 2 * (w ⬝ᵥ (M *ᵥ u)) + gramQ M w := by
  have swap : u ⬝ᵥ (M *ᵥ w) = w ⬝ᵥ (M *ᵥ u) := by
    rw [dotProduct_mulVec, ← mulVec_transpose, symm, dotProduct_comm]
  simp only [gramQ, mulVec_add, dotProduct_add, add_dotProduct, swap]
  ring

theorem Vector3.ofInt_single (k : Fin 3) (a : ℤ) :
    (Vector3.ofInt (Pi.single k a) : Vector3 α) = Pi.single k (a : α) :=
  funext <| Pi.apply_single (fun _ => Int.cast) (fun _ => Int.cast_zero) k a

theorem gramQ_single (M : Matrix3 α) (k : Fin 3) (a : α) :
    gramQ M (Pi.single k a) = a ^ 2 * M k k := by
  simp only [gramQ, mulVec_single, single_dotProduct]
  ring

/-- The form at `a·e_k + b·e_j`. -/
theorem gramQ_pair (symm : Mᵀ = M) (j k : Fin 3) (a b : ℤ) :
    gramQ M (Vector3.ofInt (Pi.single k a + Pi.single j b)) =
      a ^ 2 * M k k + b ^ 2 * M j j + 2 * a * b * M k j := by
  have entry : M j k = M k j := by rw [← transpose_apply M k j, symm]
  simp only [Vector3.ofInt_add, Vector3.ofInt_single, gramQ_add symm, gramQ_single, mulVec_single,
    single_dotProduct, entry]
  ring

/-- The gain of a shear is the form at the sheared column less the form at the column. -/
theorem Shear.gain_eq (symm : Mᵀ = M) (s : Shear) :
    s.gain M = gramQ M (Vector3.ofInt s.column) - M s.k1 s.k1 := by
  have entry : ∀ i l, M l i = M i l := fun i l => by rw [← transpose_apply M i l, symm]
  simp only [Shear.column, Vector3.ofInt_add, Vector3.ofInt_single, Int.cast_one, gramQ_add symm,
    gramQ_single, mulVec_add, mulVec_single, dotProduct_add, single_dotProduct, Shear.gain,
    entry s.k1 (s.k1 + 1), entry s.k1 (s.k1 + 2), entry (s.k1 + 1) (s.k1 + 2)]
  ring

theorem gramQ_pos {X : Matrix3 α} (nondegenerate : X.det ≠ 0) {x : Fin 3 → α} (nonzero : x ≠ 0) :
    0 < gramQ (Xᵀ * X) x := by
  rw [← gramQ_mulVec]
  refine (dotProduct_self_nonneg _).lt_of_ne fun zero => nonzero ?_
  rw [← one_mulVec x, ← nonsing_inv_mul X (isUnit_iff_ne_zero.2 nondegenerate), ← mulVec_mulVec,
    dotProduct_self_eq_zero.1 zero.symm, mulVec_zero]

/-- An integer matrix that keeps a nondegenerate metric exactly has determinant `±1`. -/
theorem det_sq_of_invariant (nondegenerate : M.det ≠ 0) {m : Matrix3 ℤ}
    (invariant : (Matrix3.cast m)ᵀ * M * Matrix3.cast m = M) : m.det ^ 2 = 1 := by
  have := congrArg det invariant
  rw [det_mul, det_mul, det_transpose, Matrix3.det_cast] at this
  have : ((m.det ^ 2 : ℤ) : α) * M.det = 1 * M.det := by push_cast; linear_combination this
  exact_mod_cast mul_right_cancel₀ nondegenerate this

/-- Column `j` of `m`, under the form: entry `(j, j)` of `mᵀ·M·m`. -/
theorem gramQ_column (M : Matrix3 α) (m : Matrix3 ℤ) (j : Fin 3) :
    gramQ M (Vector3.ofInt fun i => m i j) =
      ((Matrix3.cast m : Matrix3 α)ᵀ * M * Matrix3.cast m : Matrix3 α) j j := by
  simp only [gramQ, dotProduct, mulVec, mul_apply, transpose_apply, Matrix3.cast_apply,
    Vector3.ofInt_apply, Finset.mul_sum, Finset.sum_mul]
  rw [Finset.sum_comm]
  exact Finset.sum_congr rfl fun _ _ => Finset.sum_congr rfl fun _ _ => by ring

end Form

/-! ## Signs -/

theorem sign_cases (a : ℤ) : a.sign = 1 ∧ |a| = a ∨ a = 0 ∨ a.sign = -1 ∧ |a| = -a := by
  rcases lt_trichotomy a 0 with h | h | h
  · exact .inr (.inr ⟨Int.sign_eq_neg_one_of_neg h, abs_of_neg h⟩)
  · exact .inr (.inl h)
  · exact .inl ⟨Int.sign_eq_one_of_pos h, abs_of_pos h⟩

theorem sub_sign_eq (a : ℤ) : a - a.sign = (|a| - 1) * a.sign := by
  rcases sign_cases a with ⟨sign, abs⟩ | rfl | ⟨sign, abs⟩
  · rw [sign, abs]; ring
  · simp
  · rw [sign, abs]; ring

/-! ## Shear-minimal metrics -/

namespace ShearMinimal

variable {M : Matrix3 α} (minimal : ShearMinimal M) (symm : Mᵀ = M)
include minimal symm

/-- The form at a vector with entries in `{-1,0,1}` is at least the form at any basis vector
it uses. -/
theorem le_gramQ_of_unit {v : Fin 3 → ℤ} (unit : ∀ i, -1 ≤ v i ∧ v i ≤ 1) {k : Fin 3}
    (nonzero : v k ≠ 0) : M k k ≤ gramQ M (Vector3.ofInt v) := by
  wlog one : v k = 1 generalizing v
  · have := this (v := -v) (fun i => by have := unit i; simp; omega)
      (by simpa using nonzero) (by have := unit k; simp; omega)
    rwa [Vector3.ofInt_neg, gramQ_neg] at this
  have mem : (⟨k, v (k + 1), v (k + 2)⟩ : Shear) ∈ sweepShears :=
    mem_sweepShears.2 ⟨by have := unit (k + 1); simp; omega, by have := unit (k + 2); simp; omega⟩
  have column : (⟨k, v (k + 1), v (k + 2)⟩ : Shear).column = v := by
    conv_rhs => rw [← Finset.univ_sum_single v, ← Equiv.sum_comp (Equiv.addLeft k)]
    simp [Fin.sum_univ_three, Shear.column, one]
  have gain := minimal _ mem
  rw [Shear.gain_eq symm, column] at gain
  linarith

/-- The shears adding one column to another: `2·|M j k| ≤ M j j`. -/
theorem two_mul_abs_le {j k : Fin 3} (ne : j ≠ k) : 2 * |M j k| ≤ M j j := by
  have entry : M k j = M j k := by rw [← transpose_apply M j k, symm]
  have pair (b : ℤ) (hb : b = 1 ∨ b = -1) : -(2 * b * M j k) ≤ M j j := by
    have := minimal.le_gramQ_of_unit symm (v := Pi.single k 1 + Pi.single j b) (k := k)
      (fun i => by
        rcases eq_or_ne i k with rfl | hk
        · simp [ne.symm]
        rcases eq_or_ne i j with rfl | hj
        · simp [hk]; omega
        · simp [hk, hj])
      (by simp [ne.symm])
    have sq : (b : α) ^ 2 = 1 := by rcases hb with rfl | rfl <;> norm_num
    rw [gramQ_pair symm j k, sq, entry, Int.cast_one] at this
    linarith
  have up := pair 1 (.inl rfl)
  have down := pair (-1) (.inr rfl)
  push_cast at up down
  rcases abs_cases (M j k) with ⟨h, -⟩ | ⟨h, -⟩ <;> linarith

/-- For a vector `σ` with entries in `{-1,0,1}`, each term `σ j·(M·σ) j` of `σᵀ·M·σ` is
nonnegative. -/
theorem row_nonneg {σ : Fin 3 → ℤ} (unit : ∀ i, -1 ≤ σ i ∧ σ i ≤ 1) (j : Fin 3) :
    0 ≤ (σ j : α) * (M *ᵥ Vector3.ofInt σ) j := by
  by_cases zero : σ j = 0
  · simp [zero]
  have sj : σ j = 1 ∨ σ j = -1 := by have := unit j; omega
  have sign : (σ j : α) * σ j = 1 := by rcases sj with h | h <;> simp [h]
  have term : ∀ l ∈ Finset.univ.erase j, -(M j j / 2) ≤ (σ j : α) * (M j l * σ l) :=
    fun l mem => by
      have bound := minimal.two_mul_abs_le symm (Finset.ne_of_mem_erase mem).symm
      have product : |σ j * σ l| ≤ 1 := by
        rw [abs_mul]
        exact mul_le_one₀ (abs_le.2 (unit j)) (abs_nonneg _) (abs_le.2 (unit l))
      have rearrange : (σ j : α) * (M j l * σ l) = ((σ j * σ l : ℤ) : α) * M j l := by
        push_cast; ring
      rw [rearrange]
      rcases Int.abs_le_one_iff.1 product with p | p | p <;> rw [p] <;> push_cast <;>
        linarith only [bound, neg_abs_le (M j l), le_abs_self (M j l)]
  have card : (Finset.univ.erase j).card = 2 := by
    rw [Finset.card_erase_of_mem (Finset.mem_univ j)]; rfl
  have rest := Finset.card_nsmul_le_sum _ _ _ term
  rw [card, nsmul_eq_mul, Nat.cast_two] at rest
  simp only [mulVec, dotProduct, Finset.mul_sum, Vector3.ofInt_apply]
  rw [← Finset.add_sum_erase _ _ (Finset.mem_univ j), ← mul_assoc, mul_comm _ (M j j),
    mul_assoc, sign]
  linarith

end ShearMinimal

/-! ## Every vector, and the symmetries -/

section Lattice

variable {X : Matrix3 α} (nondegenerate : X.det ≠ 0) (minimal : ShearMinimal (Xᵀ * X))
include nondegenerate minimal

/-- On a shear-minimal metric, `M k k ≤ xᵀ·M·x` for every integer `x` with `x k ≠ 0`, and
strictly when some entry of `x` has `|x l| ≥ 2`. -/
theorem ShearMinimal.le_gramQ (x : Fin 3 → ℤ) {k : Fin 3} (nonzero : x k ≠ 0) :
    (Xᵀ * X) k k ≤ gramQ (Xᵀ * X) (Vector3.ofInt x) ∧
      ((∃ l, 1 < |x l|) → (Xᵀ * X) k k < gramQ (Xᵀ * X) (Vector3.ofInt x)) := by
  have symm : (Xᵀ * X)ᵀ = Xᵀ * X := by rw [transpose_mul, transpose_transpose]
  set σ : Fin 3 → ℤ := fun i => Int.sign (x i)
  have unit : ∀ i, -1 ≤ σ i ∧ σ i ≤ 1 := fun i => by
    rcases sign_cases (x i) with ⟨h, -⟩ | h | ⟨h, -⟩ <;> simp only [σ, h, Int.sign_zero] <;> decide
  have split := gramQ_add symm (Vector3.ofInt σ) (Vector3.ofInt (x - σ))
  rw [← Vector3.ofInt_add, add_sub_cancel] at split
  have cross : 0 ≤ Vector3.ofInt (x - σ) ⬝ᵥ ((Xᵀ * X) *ᵥ Vector3.ofInt σ) :=
    Finset.sum_nonneg fun i _ => by
      have row := minimal.row_nonneg symm unit i
      by_cases zero : x i = 0
      · simp [σ, zero]
      have factor : ((x - σ) i : α) = (|x i| - 1 : ℤ) * (σ i : α) := by
        rw [Pi.sub_apply, sub_sign_eq, Int.cast_mul]
      rw [Vector3.ofInt_apply, factor, mul_assoc]
      exact mul_nonneg (Int.cast_nonneg.2 (by have := Int.one_le_abs zero; omega)) row
  have first := minimal.le_gramQ_of_unit symm unit (k := k)
    (by simpa [σ, Int.sign_eq_zero_iff_zero] using nonzero)
  have rest : ∀ y : Fin 3 → ℤ, 0 ≤ gramQ (Xᵀ * X) (Vector3.ofInt y) := fun y => by
    rw [← gramQ_mulVec]
    exact dotProduct_self_nonneg _
  refine ⟨by linarith only [split, cross, first, rest (x - σ)], fun ⟨l, big⟩ => ?_⟩
  have moved : Vector3.ofInt (x - σ) ≠ (0 : Vector3 α) := fun zero => by
    have entry : (x - σ) l = 0 := by
      have := congrFun zero l
      rw [Vector3.ofInt_apply, Pi.zero_apply] at this
      exact_mod_cast this
    rw [Pi.sub_apply, sub_sign_eq] at entry
    rcases sign_cases (x l) with ⟨h, -⟩ | h | ⟨h, -⟩ <;> simp [σ, h] at entry big <;> omega
  linarith only [split, cross, first, gramQ_pos nondegenerate moved]

/-- Every exact symmetry `m` of a shear-minimal metric, `mᵀ·M·m = M`, has entries in
`{-1,0,1}`. -/
theorem ShearMinimal.unitEntries_of_invariant {m : Matrix3 ℤ}
    (invariant : (Matrix3.cast m)ᵀ * (Xᵀ * X) * Matrix3.cast m = Xᵀ * X) (i j : Fin 3) :
    -1 ≤ m i j ∧ m i j ≤ 1 := by
  have metric : (Xᵀ * X).det ≠ 0 := by
    rw [det_mul, det_transpose]
    exact mul_ne_zero nondegenerate nondegenerate
  have leibniz : ∑ π : Equiv.Perm (Fin 3), Equiv.Perm.sign π • ∏ i, m (π i) i ≠ 0 := by
    rw [← det_apply]
    intro zero
    simpa [zero] using det_sq_of_invariant metric invariant
  obtain ⟨π, -, term⟩ := Finset.exists_ne_zero_of_sum_ne_zero leibniz
  rw [Units.smul_def, smul_eq_mul] at term
  have pivot : ∀ j, m (π j) j ≠ 0 := fun j =>
    Finset.prod_ne_zero_iff.1 (right_ne_zero_of_mul term) j (Finset.mem_univ j)
  have column : ∀ j, gramQ (Xᵀ * X) (Vector3.ofInt fun i => m i j) = (Xᵀ * X) j j := fun j => by
    rw [gramQ_column, invariant]
  have bound : ∀ j, (Xᵀ * X) (π j) (π j) ≤ (Xᵀ * X) j j := fun j => by
    rw [← column j]
    exact (minimal.le_gramQ nondegenerate (fun r => m r j) (pivot j)).1
  refine abs_le.1 (not_lt.1 fun big => ?_)
  have strict : (Xᵀ * X) (π j) (π j) < (Xᵀ * X) j j := by
    rw [← column j]
    exact (minimal.le_gramQ nondegenerate (fun r => m r j) (pivot j)).2 ⟨i, big⟩
  have sums : ∑ j, (Xᵀ * X) (π j) (π j) < ∑ j, (Xᵀ * X) j j :=
    Finset.sum_lt_sum (fun j _ => bound j) ⟨j, Finset.mem_univ j, strict⟩
  rw [Equiv.sum_comp π fun j => (Xᵀ * X) j j] at sums
  exact lt_irrefl _ sums

end Lattice

end Jdftx
