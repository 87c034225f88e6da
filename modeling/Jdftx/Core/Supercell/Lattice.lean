/-
# Core.Supercell.Lattice — greedy bases of a three-dimensional lattice

The basis discovery of `Supercell::Supercell` picks, among the differences of mesh points, a
shortest vector `v0`, then a shortest vector off the line of `v0`, then a shortest vector off
the plane of `v0` and `v1`. In three dimensions such greedy choices form a basis of the lattice
they are taken from. This module proves it in the coordinates `x` of the basis: with `G` the
Gram matrix of `v0, v1, v2`, the squared length of `Σ x k • v k` is the quadratic form
`gramQ G x`, and `P` is the set of coordinates of lattice vectors, closed under integer shifts.

* `gramQ_eq`, `gramQ_eq_plane`: the form written out, and split into the plane of `v0, v1` and
  the height over it.
* `exists_shift_lt`: in the plane of a shortest `v0` and a shortest `v1` off its line, one of
  two neighbouring lattice points is closer than `(3/4)·|v1|²` (squared) to a point of the
  half-cell.
* `Greedy.integral`: greedy minimality makes the coordinates of every lattice vector integers.
-/
import Jdftx.Core.Matrix3
import Mathlib.Algebra.Order.Floor
import Mathlib.Tactic.LinearCombination

namespace Jdftx

set_option autoImplicit false

open Matrix

variable {α : Type} [LinearOrderedField α]

/-! ## The Gram form -/

/-- `xᵀ·G·x`: the squared length of `B·x` for the Gram matrix `G = Bᵀ·B`. -/
def gramQ (G : Matrix3 α) (x : Fin 3 → α) : α := x ⬝ᵥ (G *ᵥ x)

theorem gramQ_mulVec (B : Matrix3 α) (x : Fin 3 → α) :
    (B *ᵥ x) ⬝ᵥ (B *ᵥ x) = gramQ (Bᵀ * B) x := by
  rw [gramQ, ← mulVec_mulVec, dotProduct_mulVec x Bᵀ, vecMul_transpose]

/-- The form of a symmetric `G`, written out. -/
theorem gramQ_eq {G : Matrix3 α} (symm : Gᵀ = G) (x : Fin 3 → α) :
    gramQ G x = x 0 ^ 2 * G 0 0 + x 1 ^ 2 * G 1 1 + x 2 ^ 2 * G 2 2 + 2 * x 0 * x 1 * G 0 1 +
      2 * x 0 * x 2 * G 0 2 + 2 * x 1 * x 2 * G 1 2 := by
  have entry : ∀ i j, G j i = G i j := fun i j => by rw [← transpose_apply G i j, symm]
  simp only [gramQ, dotProduct, mulVec, Fin.sum_univ_three, entry 1 0, entry 2 0, entry 2 1]
  ring

/-- The form of the plane of the first two basis vectors. -/
def planeQ (G : Matrix3 α) (a b : α) : α := a ^ 2 * G 0 0 + 2 * a * b * G 0 1 + b ^ 2 * G 1 1

/-- With `μ` the coordinates of the projection of the third basis vector on the plane of the
first two, the form is the form of the plane at the projected point plus the squared height
`x₂²·H`. -/
theorem gramQ_eq_plane {G : Matrix3 α} (symm : Gᵀ = G) {μ0 μ1 : α}
    (project0 : G 0 2 = μ0 * G 0 0 + μ1 * G 0 1) (project1 : G 1 2 = μ0 * G 0 1 + μ1 * G 1 1)
    (x : Fin 3 → α) :
    gramQ G x = planeQ G (x 0 + x 2 * μ0) (x 1 + x 2 * μ1) +
      x 2 ^ 2 * (G 2 2 - μ0 * G 0 2 - μ1 * G 1 2) := by
  rw [gramQ_eq symm, planeQ]
  linear_combination (2 * x 0 * x 2 + x 2 ^ 2 * μ0) * project0 +
    (2 * x 1 * x 2 + x 2 ^ 2 * μ1) * project1

theorem planeQ_eq_gramQ (G : Matrix3 α) (symm : Gᵀ = G) (a b : α) :
    planeQ G a b = gramQ G ![a, b, 0] := by
  rw [gramQ_eq symm, planeQ]
  simp
  ring

/-! ## The plane -/

theorem sq_le_quarter {s : α} (half : |s| ≤ 1 / 2) : s ^ 2 ≤ 1 / 4 :=
  calc s ^ 2 = |s| ^ 2 := (sq_abs s).symm
    _ ≤ (1 / 2) ^ 2 := pow_le_pow_left₀ (abs_nonneg s) half 2
    _ = 1 / 4 := by norm_num

theorem planeQ_neg (G : Matrix3 α) (a b : α) : planeQ G (-a) (-b) = planeQ G a b := by
  simp only [planeQ]
  ring

/-- The case `0 < s`, `0 < t·g01` of `exists_shift_lt`: the neighbours `0` and `1` have an
average below `(3/4)·g11`; the certificate is `P(0) + P(1) = g00 + 2 t² g11 - 2·gap - 2·cross`. -/
theorem exists_shift_lt_of_pos {G : Matrix3 α} {s t : α} (pos : 0 < G 0 0) (le : G 0 0 ≤ G 1 1)
    (posS : 0 < s) (hs : s ≤ 1 / 2) (t2 : t ^ 2 * G 1 1 ≤ 1 / 4 * G 1 1) (tg : 0 < t * G 0 1) :
    ∃ σ : ℤ, planeQ G (s - σ) t < 3 / 4 * G 1 1 := by
  have gap : 0 < s * (1 - s) * G 0 0 :=
    mul_pos (mul_pos posS (sub_pos.2 (hs.trans_lt one_half_lt_one))) pos
  have cross : 0 ≤ (1 - 2 * s) * (t * G 0 1) :=
    mul_nonneg (sub_nonneg.2 ((le_div_iff₀' two_pos).1 hs)) tg.le
  by_contra! both
  have at0 := both 0
  have at1 := both 1
  simp only [planeQ, Int.cast_zero, Int.cast_one, sub_zero] at at0 at1
  exact lt_irrefl (0 : α) (by linear_combination at0 + at1 + 2 * gap + 2 * cross + 2 * t2 + le)

/-- In a plane with `0 < g00 ≤ g11`, the point `(s, t)` of the half-cell, or its neighbour
`(s - σ, t)`, is closer than `(3/4)·g11` to the origin. -/
theorem exists_shift_lt {G : Matrix3 α} {s t : α} (pos : 0 < G 0 0) (le : G 0 0 ≤ G 1 1)
    (hs : |s| ≤ 1 / 2) (ht : |t| ≤ 1 / 2) : ∃ σ : ℤ, planeQ G (s - σ) t < 3 / 4 * G 1 1 := by
  have t2 := mul_le_mul_of_nonneg_right (sq_le_quarter ht) (pos.trans_le le).le
  obtain ⟨sLo, sHi⟩ := abs_le.1 hs
  by_cases opposite : s * (t * G 0 1) ≤ 0
  · refine ⟨0, ?_⟩
    have s2 := mul_le_mul_of_nonneg_right (sq_le_quarter hs) pos.le
    simp only [planeQ, Int.cast_zero, sub_zero]
    linear_combination s2 + 2 * opposite + t2 + 1 / 2 * le + 1 / 4 * pos
  -- `s` and `t·g01` have one sign; the mirror image `(-s, -t)` turns `s < 0` into `0 < s`
  rcases pos_and_pos_or_neg_and_neg_of_mul_pos (not_le.1 opposite) with ⟨posS, tg⟩ | ⟨negS, tg⟩
  · exact exists_shift_lt_of_pos pos le posS sHi t2 tg
  · obtain ⟨σ, close⟩ := exists_shift_lt_of_pos pos le (neg_pos.2 negS) (neg_le.1 sLo)
      (by rwa [neg_sq]) (by rwa [neg_mul, neg_pos])
    refine ⟨-σ, ?_⟩
    rwa [Int.cast_neg, sub_neg_eq_add, ← planeQ_neg, neg_add, ← sub_eq_add_neg]

/-! ## Greedy bases -/

/-- The Gram matrix `G` of `v0, v1, v2` and the set `P` of coordinates of lattice vectors:
`G` is positive definite, `P` holds `0` and is closed under integer shifts, `v0` is a shortest
nonzero lattice vector, `v1` a shortest one off the line of `v0` and `v2` a shortest one off
the plane of `v0, v1`. -/
structure Greedy (G : Matrix3 α) (P : (Fin 3 → α) → Prop) : Prop where
  symm : Gᵀ = G
  definite : ∀ x, x ≠ 0 → 0 < gramQ G x
  zero : P 0
  shift : ∀ x (n : Fin 3 → ℤ), P x → P (x - Vector3.ofInt n)
  first : ∀ x, P x → x ≠ 0 → G 0 0 ≤ gramQ G x
  second : ∀ x, P x → (x 1 ≠ 0 ∨ x 2 ≠ 0) → G 1 1 ≤ gramQ G x
  third : ∀ x, P x → x 2 ≠ 0 → G 2 2 ≤ gramQ G x

namespace Greedy

variable {G : Matrix3 α} {P : (Fin 3 → α) → Prop}

theorem ofInt_mem (greedy : Greedy G P) (n : Fin 3 → ℤ) : P (Vector3.ofInt n) := by
  simpa using greedy.shift 0 (-n) greedy.zero

theorem gramQ_nonneg (greedy : Greedy G P) (x : Fin 3 → α) : 0 ≤ gramQ G x := by
  by_cases zero : x = 0
  · simp [zero, gramQ]
  · exact (greedy.definite x zero).le

theorem g00_pos (greedy : Greedy G P) : 0 < G 0 0 := by
  simpa [gramQ_eq greedy.symm] using greedy.definite ![1, 0, 0] (by simp)

theorem g00_le_g11 (greedy : Greedy G P) : G 0 0 ≤ G 1 1 := by
  simpa [gramQ_eq greedy.symm] using greedy.first _ (greedy.ofInt_mem ![0, 1, 0])
    fun zero => by simpa using congrFun zero 1

theorem g11_le_g22 (greedy : Greedy G P) : G 1 1 ≤ G 2 2 := by
  simpa [gramQ_eq greedy.symm] using greedy.second _ (greedy.ofInt_mem ![0, 0, 1]) (.inr (by simp))

/-- The plane of `v0, v1` is nondegenerate: the third basis vector has a projection `μ` on it. -/
theorem exists_projection (greedy : Greedy G P) :
    ∃ μ0 μ1 : α, G 0 2 = μ0 * G 0 0 + μ1 * G 0 1 ∧ G 1 2 = μ0 * G 0 1 + μ1 * G 1 1 := by
  have form := greedy.definite ![-G 0 1, G 0 0, 0]
    fun zero => greedy.g00_pos.ne' (by simpa using congrFun zero 1)
  simp only [gramQ_eq greedy.symm, Matrix.cons_val_zero, Matrix.cons_val_one, Matrix.head_cons,
    Matrix.cons_val_two, Matrix.tail_cons] at form
  have scaled : 0 < G 0 0 * (G 0 0 * G 1 1 - G 0 1 ^ 2) := by linear_combination form
  have minor := (mul_pos_iff_of_pos_left greedy.g00_pos).1 scaled
  refine ⟨(G 0 2 * G 1 1 - G 1 2 * G 0 1) / (G 0 0 * G 1 1 - G 0 1 ^ 2),
    (G 1 2 * G 0 0 - G 0 2 * G 0 1) / (G 0 0 * G 1 1 - G 0 1 ^ 2), ?_, ?_⟩ <;>
  · rw [div_mul_eq_mul_div, div_mul_eq_mul_div, div_add_div_same, eq_div_iff minor.ne']
    ring

variable [FloorRing α]

/-- The third coordinate of a lattice vector is an integer: otherwise a lattice vector at
height at most half that of `v2` over the plane of `v0, v1` would be shorter than `v2`. -/
theorem third_eq_round (greedy : Greedy G P) {x : Fin 3 → α} (mem : P x) : x 2 = round (x 2) := by
  obtain ⟨μ0, μ1, project0, project1⟩ := greedy.exists_projection
  have split := gramQ_eq_plane greedy.symm project0 project1
  by_contra off
  set y2 := x 2 - round (x 2) with hy2
  set a := x 0 + y2 * μ0
  set b := x 1 + y2 * μ1
  obtain ⟨σ, close⟩ := exists_shift_lt greedy.g00_pos greedy.g00_le_g11 (abs_sub_round a)
    (abs_sub_round b)
  have shorter := greedy.third _ (greedy.shift x ![round a + σ, round b, round (x 2)] mem)
    (by simpa using sub_ne_zero.2 off)
  rw [split] at shorter
  simp only [Pi.sub_apply, Vector3.ofInt_apply, Matrix.cons_val_zero, Matrix.cons_val_one,
    Matrix.head_cons, Matrix.cons_val_two, Matrix.tail_cons, Int.cast_add, ← hy2] at shorter
  have same : planeQ G (x 0 - (round a + σ) + y2 * μ0) (x 1 - round b + y2 * μ1) =
      planeQ G (a - round a - σ) (b - round b) := by
    congr 1 <;> ring
  -- the squared height `H` of `v2` over the plane is positive, and `|v2|² = planeQ μ + H`
  have height := greedy.definite ![-μ0, -μ1, 1] fun zero => by simpa using congrFun zero 2
  rw [split] at height
  simp only [planeQ, Matrix.cons_val_zero, Matrix.cons_val_one, Matrix.head_cons,
    Matrix.cons_val_two, Matrix.tail_cons] at height
  have positive : 0 < G 2 2 - μ0 * G 0 2 - μ1 * G 1 2 := by linear_combination height
  have top : μ0 * G 0 2 + μ1 * G 1 2 = planeQ G μ0 μ1 := by
    rw [project0, project1, planeQ]
    ring
  have below := mul_le_mul_of_nonneg_right
    (sq_le_quarter (abs_sub_round (x 2)) : y2 ^ 2 ≤ 1 / 4) positive.le
  have plane : 0 ≤ planeQ G μ0 μ1 := by
    rw [planeQ_eq_gramQ G greedy.symm]
    exact greedy.gramQ_nonneg _
  have := greedy.g11_le_g22
  rw [same] at shorter
  exact lt_irrefl (0 : α) (by linear_combination shorter + close + below + 3 / 4 * this +
    1 / 4 * plane - 1 / 4 * top)

/-- In the plane of `v0, v1`, the second coordinate of a lattice vector is an integer: otherwise
a lattice vector off the line of `v0` would be shorter than `v1`. -/
theorem second_eq_round (greedy : Greedy G P) {x : Fin 3 → α} (mem : P x) (flat : x 2 = 0) :
    x 1 = round (x 1) := by
  by_contra off
  obtain ⟨σ, close⟩ := exists_shift_lt greedy.g00_pos greedy.g00_le_g11
    (abs_sub_round (x 0)) (abs_sub_round (x 1))
  have shorter := greedy.second _ (greedy.shift x ![round (x 0) + σ, round (x 1), 0] mem)
    (.inl (by simpa using sub_ne_zero.2 off))
  have inPlane : x - Vector3.ofInt ![round (x 0) + σ, round (x 1), 0] =
      ![x 0 - round (x 0) - σ, x 1 - round (x 1), 0] := by
    funext i
    fin_cases i
    · simp
      ring
    · simp
    · simp [flat]
  rw [inPlane, ← planeQ_eq_gramQ G greedy.symm] at shorter
  exact lt_irrefl (0 : α) (by linear_combination shorter + close + 1 / 4 * greedy.g00_le_g11 +
    1 / 4 * greedy.g00_pos)

/-- On the line of `v0`, the first coordinate of a lattice vector is an integer: otherwise a
nonzero lattice vector would be shorter than `v0`. -/
theorem first_eq_round (greedy : Greedy G P) {x : Fin 3 → α} (mem : P x) (flat1 : x 1 = 0)
    (flat2 : x 2 = 0) : x 0 = round (x 0) := by
  by_contra off
  have onLine : x - Vector3.ofInt ![round (x 0), 0, 0] = ![x 0 - round (x 0), 0, 0] := by
    funext i
    fin_cases i <;> simp [flat1, flat2]
  have shorter := greedy.first _ (greedy.shift x ![round (x 0), 0, 0] mem)
    (by rw [onLine]; simpa using sub_ne_zero.2 off)
  rw [onLine, gramQ_eq greedy.symm] at shorter
  simp only [Matrix.cons_val_zero, Matrix.cons_val_one, Matrix.head_cons, Matrix.cons_val_two,
    Matrix.tail_cons] at shorter
  have quarter := mul_le_mul_of_nonneg_right (sq_le_quarter (abs_sub_round (x 0)))
    greedy.g00_pos.le
  exact lt_irrefl (0 : α) (by linear_combination shorter + quarter + 3 / 4 * greedy.g00_pos)

/-- Greedy choices form a basis: the coordinates of every lattice vector are integers. -/
theorem integral (greedy : Greedy G P) {x : Fin 3 → α} (mem : P x) :
    ∃ n : Fin 3 → ℤ, x = Vector3.ofInt n := by
  have two := greedy.third_eq_round mem
  have one : x 1 = round (x 1) := by
    simpa using greedy.second_eq_round (greedy.shift x ![0, 0, round (x 2)] mem)
      (by simpa using sub_eq_zero.2 two)
  have zero : x 0 = round (x 0) := by
    simpa using greedy.first_eq_round (greedy.shift x ![0, round (x 1), round (x 2)] mem)
      (by simpa using sub_eq_zero.2 one) (by simpa using sub_eq_zero.2 two)
  refine ⟨fun i => round (x i), funext fun i => ?_⟩
  fin_cases i
  exacts [zero, one, two]

end Greedy

end Jdftx
