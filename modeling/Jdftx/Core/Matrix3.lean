/-
# Core.Matrix3 — the 3×3 linear algebra of the lattice utilities

JDFTx's `matrix3<scalar>` and `vector3<scalar>` are Mathlib's `Matrix (Fin 3) (Fin 3)` and
`Fin 3 → _`: `~m` is `mᵀ`, `m1 * m2` and `m * v` are `*` and `*ᵥ`, and a `matrix3<int>`
enters floating-point arithmetic through `Matrix3.cast`. Arithmetic is exact, in a linear
ordered field `α`: `ℚ` runs the model, and `ℝ`, whose `Real.sqrt` is the `sqrt` behind
`nrm2` and `length`, is the field of the results about real lattices.

`nrm2` of a `matrix3` is the Frobenius norm `√(Σ m(i,j)²)`. The lattice code only compares
two such norms, so the model keeps the square `nrm2Sq` and decides each comparison the
source writes without a square root: `SqrtLtSqrtSub` for `nrm2(A) < nrm2(B) - c` and
`SqrtLtMulSqrt` for `nrm2(A) < c * nrm2(B)`. Over `ℝ`, `sqrtLtSqrtSub_iff` and
`sqrtLtMulSqrt_iff` show that these are exactly the comparisons of the source.
-/
import Mathlib.Data.Matrix.Notation
import Mathlib.Data.Real.Sqrt
import Mathlib.LinearAlgebra.Matrix.NonsingularInverse
import Mathlib.Analysis.Normed.Field.Lemmas

namespace Jdftx

set_option autoImplicit false

open Matrix

/-- `matrix3<scalar>`. -/
abbrev Matrix3 (α : Type) := Matrix (Fin 3) (Fin 3) α

/-- `vector3<scalar>`. -/
abbrev Vector3 (α : Type) := Fin 3 → α

variable {α : Type} [LinearOrderedField α]

namespace Matrix3

/-- The conversion of a `matrix3<int>` to a `matrix3<double>`. -/
def cast (m : Matrix3 ℤ) : Matrix3 α := (Int.castRingHom α).mapMatrix m

@[simp] theorem cast_apply (m : Matrix3 ℤ) (i j : Fin 3) : (cast m : Matrix3 α) i j = m i j :=
  rfl

@[simp] theorem cast_mul (a b : Matrix3 ℤ) : (cast (a * b) : Matrix3 α) = cast a * cast b :=
  map_mul _ a b

@[simp] theorem cast_one : (cast 1 : Matrix3 α) = 1 := map_one _

@[simp] theorem cast_transpose (m : Matrix3 ℤ) : (cast mᵀ : Matrix3 α) = (cast m)ᵀ := rfl

@[simp] theorem cast_sub (a b : Matrix3 ℤ) : (cast (a - b) : Matrix3 α) = cast a - cast b :=
  map_sub _ a b

@[simp] theorem det_cast (m : Matrix3 ℤ) : (cast m : Matrix3 α).det = m.det :=
  ((Int.castRingHom α).map_det m).symm

@[simp] theorem cast_diagonal (v : Fin 3 → ℤ) :
    (cast (diagonal v) : Matrix3 α) = diagonal fun i => (v i : α) :=
  diagonal_map (map_zero (Int.castRingHom α))

/-- `inv(m)` of a `matrix3<>`: the adjugate over the determinant. -/
def inv (m : Matrix3 α) : Matrix3 α := (m.det)⁻¹ • m.adjugate

theorem inv_eq (m : Matrix3 α) : inv m = m⁻¹ := by
  rw [Matrix.inv_def, Ring.inverse_eq_inv']
  rfl

theorem cast_injective : Function.Injective (cast : Matrix3 ℤ → Matrix3 α) :=
  fun a b same => Matrix.ext fun i j => by
    have := congrFun (congrFun same i) j
    rwa [cast_apply, cast_apply, Int.cast_inj] at this

end Matrix3

/-- The conversion of a `vector3<int>` to a `vector3<double>`. -/
def Vector3.ofInt (v : Fin 3 → ℤ) : Vector3 α := fun i => v i

@[simp] theorem Vector3.ofInt_apply (v : Fin 3 → ℤ) (i : Fin 3) :
    (Vector3.ofInt v : Vector3 α) i = v i := rfl

@[simp] theorem Vector3.ofInt_add (v w : Fin 3 → ℤ) :
    (Vector3.ofInt (v + w) : Vector3 α) = Vector3.ofInt v + Vector3.ofInt w := by
  ext i; simp

@[simp] theorem Vector3.ofInt_neg (v : Fin 3 → ℤ) :
    (Vector3.ofInt (-v) : Vector3 α) = -Vector3.ofInt v := by
  ext i; simp

@[simp] theorem Vector3.ofInt_zero : (Vector3.ofInt 0 : Vector3 α) = 0 := by
  ext i; simp

@[simp] theorem Vector3.ofInt_smul (k : ℤ) (v : Fin 3 → ℤ) :
    (Vector3.ofInt (k • v) : Vector3 α) = (k : α) • Vector3.ofInt v := by
  ext i; simp

theorem Vector3.ofInt_injective : Function.Injective (Vector3.ofInt : (Fin 3 → ℤ) → Vector3 α) :=
  fun a b same => funext fun i => by simpa using congrFun same i

/-- `m * v` of a `matrix3<int>` and a `vector3<int>` commutes with the conversion. -/
@[simp] theorem Vector3.ofInt_mulVec (m : Matrix3 ℤ) (v : Fin 3 → ℤ) :
    (Vector3.ofInt (m *ᵥ v) : Vector3 α) = Matrix3.cast m *ᵥ Vector3.ofInt v :=
  funext fun i => (Int.castRingHom α).map_mulVec m v i

/-! ## Norms and the comparisons of the source -/

theorem dotProduct_self_nonneg (v : Vector3 α) : 0 ≤ v ⬝ᵥ v :=
  Finset.sum_nonneg fun i _ => mul_self_nonneg (v i)

/-- The square of `nrm2(m)`, the Frobenius norm of a `matrix3`. -/
def nrm2Sq {β : Type} [CommRing β] (m : Matrix3 β) : β := ∑ i, ∑ j, m i j ^ 2

@[simp] theorem nrm2Sq_cast (m : Matrix3 ℤ) : nrm2Sq (Matrix3.cast m : Matrix3 α) = nrm2Sq m := by
  simp [nrm2Sq]

theorem nrm2Sq_smul {β : Type} [CommRing β] (c : β) (m : Matrix3 β) :
    nrm2Sq (c • m) = c ^ 2 * nrm2Sq m := by
  simp [nrm2Sq, mul_pow, Finset.mul_sum]

/-- `nrm2(m)² = tr(mᵀ·m)`: it depends on `m` only through its metric. -/
theorem nrm2Sq_eq_trace {β : Type} [CommRing β] (m : Matrix3 β) : nrm2Sq m = (mᵀ * m).trace := by
  simp only [nrm2Sq, trace, diag_apply, mul_apply, transpose_apply, sq]
  exact Finset.sum_comm

theorem nrm2Sq_orthogonal {β : Type} [CommRing β] {Q : Matrix3 β} (orthogonal : Qᵀ * Q = 1)
    (m : Matrix3 β) : nrm2Sq (Q * m) = nrm2Sq m := by
  rw [nrm2Sq_eq_trace, nrm2Sq_eq_trace, transpose_mul, mul_assoc, ← mul_assoc Qᵀ, orthogonal,
    one_mul]

section Ordered

variable {β : Type} [LinearOrderedCommRing β]

theorem nrm2Sq_nonneg (m : Matrix3 β) : 0 ≤ nrm2Sq m :=
  Finset.sum_nonneg fun _ _ => Finset.sum_nonneg fun _ _ => sq_nonneg _

theorem nrm2Sq_eq_zero_iff (m : Matrix3 β) : nrm2Sq m = 0 ↔ m = 0 := by
  refine ⟨fun zero => ?_, fun h => by simp [h, nrm2Sq]⟩
  ext i j
  have row : ∑ j, m i j ^ 2 ≤ nrm2Sq m := Finset.single_le_sum
    (fun i _ => Finset.sum_nonneg fun j _ => sq_nonneg (m i j)) (Finset.mem_univ i)
  have entry : m i j ^ 2 ≤ ∑ j, m i j ^ 2 :=
    Finset.single_le_sum (fun j _ => sq_nonneg (m i j)) (Finset.mem_univ j)
  exact (pow_eq_zero_iff two_ne_zero).1 (le_antisymm ((entry.trans row).trans zero.le) (sq_nonneg _))

theorem nrm2Sq_pos {m : Matrix3 β} (nonzero : m ≠ 0) : 0 < nrm2Sq m :=
  (nrm2Sq_nonneg m).lt_of_ne fun h => nonzero ((nrm2Sq_eq_zero_iff m).1 h.symm)

@[simp] theorem nrm2Sq_zero : nrm2Sq (0 : Matrix3 β) = 0 := (nrm2Sq_eq_zero_iff _).2 rfl

end Ordered

/-- `nrm2(A) < nrm2(B) - c` for `a = nrm2(A)²`, `b = nrm2(B)²` and `0 ≤ c`: `√a + c < √b`
holds iff `a + c² < b` and `(2c)²·a < (b - a - c²)²`. -/
def SqrtLtSqrtSub (a b c : α) : Prop := a + c ^ 2 < b ∧ 4 * c ^ 2 * a < (b - a - c ^ 2) ^ 2

instance (a b c : α) : Decidable (SqrtLtSqrtSub a b c) := inferInstanceAs (Decidable (_ ∧ _))

/-- `nrm2(A) < c * nrm2(B)` for `a = nrm2(A)²`, `b = nrm2(B)²`. -/
def SqrtLtMulSqrt (a b c : α) : Prop := 0 < c ∧ a < c ^ 2 * b

instance (a b c : α) : Decidable (SqrtLtMulSqrt a b c) := inferInstanceAs (Decidable (_ ∧ _))

/-- A comparison `SqrtLtSqrtSub` lowers the square by more than `c²`. -/
theorem SqrtLtSqrtSub.lt {a b c : α} (drop : SqrtLtSqrtSub a b c) : a + c ^ 2 < b := drop.1

/-- The test is homogeneous: scaling both norms and the threshold by `k ≠ 0` changes nothing. -/
theorem sqrtLtSqrtSub_scale {a b c k : α} (nonzero : k ≠ 0) :
    SqrtLtSqrtSub (k ^ 2 * a) (k ^ 2 * b) (k * c) ↔ SqrtLtSqrtSub a b c := by
  have square : 0 < k ^ 2 := by positivity
  have fourth : 0 < k ^ 4 := by positivity
  rw [SqrtLtSqrtSub, SqrtLtSqrtSub, show k ^ 2 * a + (k * c) ^ 2 = k ^ 2 * (a + c ^ 2) by ring,
    mul_lt_mul_left square, show 4 * (k * c) ^ 2 * (k ^ 2 * a) = k ^ 4 * (4 * c ^ 2 * a) by ring,
    show (k ^ 2 * b - k ^ 2 * a - (k * c) ^ 2) ^ 2 = k ^ 4 * (b - a - c ^ 2) ^ 2 by ring,
    mul_lt_mul_left fourth]

theorem sqrtLtSqrtSub_iff {a b c : ℝ} (ha : 0 ≤ a) (hc : 0 ≤ c) :
    SqrtLtSqrtSub a b c ↔ √a < √b - c := by
  have hx : 0 ≤ 2 * c * √a := by positivity
  have key : (2 * c * √a) ^ 2 = 4 * c ^ 2 * a := by rw [mul_pow, Real.sq_sqrt ha]; ring
  have expand : (√a + c) ^ 2 = a + 2 * c * √a + c ^ 2 := by rw [add_sq, Real.sq_sqrt ha]; ring
  rw [lt_sub_iff_add_lt, Real.lt_sqrt (by positivity), SqrtLtSqrtSub, ← key, expand]
  constructor
  · rintro ⟨below, squares⟩
    have := lt_of_pow_lt_pow_left₀ 2 (by linarith) squares
    linarith
  · intro h
    exact ⟨by linarith, pow_lt_pow_left₀ (by linarith) hx two_ne_zero⟩

theorem sqrtLtMulSqrt_iff {a b c : ℝ} (ha : 0 ≤ a) :
    SqrtLtMulSqrt a b c ↔ √a < c * √b := by
  rcases le_or_lt c 0 with hc | hc
  · simp only [SqrtLtMulSqrt, not_lt.2 hc, false_and, false_iff, not_lt]
    exact (mul_nonpos_of_nonpos_of_nonneg hc (Real.sqrt_nonneg b)).trans (Real.sqrt_nonneg a)
  · have : √(c ^ 2 * b) = c * √b := by rw [Real.sqrt_mul (sq_nonneg c), Real.sqrt_sq hc.le]
    rw [← this, Real.sqrt_lt_sqrt_iff ha]
    simp [SqrtLtMulSqrt, hc]

end Jdftx
