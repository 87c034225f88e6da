/-
# Core.Supercell.SuperMatrix — the supercell matrix of a Bravais mesh

Once the search loops have found a basis `kBasis₀` of the mesh lattice `L` with an integer
inverse `M` (`kBasisOf_basis`), the rest of the constructor is integer algebra in disguise:
`reduceLatticeVectors` multiplies the basis by a unimodular `t`, so `kBasisInv = tInv·M` is an
integer matrix of determinant `±N`; the second reduction multiplies `R·kBasisInvᵀ` by a unimodular
`t'`, so `superTemp = Mᵀ·tInvᵀ·t'` is an integer matrix that rounds to itself; the pivot permutes
columns and the sign fix negates. The result is `Mᵀ·U` with `U` unimodular and `det ≥ 0`, and
`Mᵀ·ℤ³` is the lattice dual to `L`.

* `pivot_sign`: the pivot and the sign fix multiply by a unimodular matrix and leave `det ≥ 0`.
* `supercellMatrix_eq`: with an integer inverse of the unreduced basis, none of the three checks
  fails and `super = Mᵀ·U`.
* `bravaisMesh_closeMesh`: with exact deduplication, a closed mesh that is one coset is Bravais.
* `supercell_spec`: for such a mesh and `0 < symmThreshold < 1/N²` the constructor returns;
  `det super = N`, every mesh point is integral against `super` (so the assertion of
  `getWfns` holds), the columns of `super` generate the dual of `L`, and `Rsuper = R·super`.
-/
import Jdftx.Core.Supercell.KBasis

namespace Jdftx

set_option autoImplicit false

open Matrix

/-! ## The pivot and the sign fix -/

theorem permutations_bijective : ∀ p ∈ permutations, Function.Bijective p := by decide

/-- The pivot loop ends on its initial order or on one it tried. -/
theorem foldl_pivot_mem (super : Matrix3 ℤ) :
    ∀ (perms : List (Fin 3 → Fin 3)) (best : ℚ × (Fin 3 → Fin 3)),
      (perms.foldl (fun (best : ℚ × (Fin 3 → Fin 3)) perm =>
        if best.1 < pivotScore super perm then (pivotScore super perm, perm) else best)
        best).2 ∈ best.2 :: perms
  | [], best => List.mem_singleton_self _
  | perm :: perms, best => by
    rw [List.foldl_cons]
    by_cases better : best.1 < pivotScore super perm
    · rw [if_pos better]
      exact List.mem_cons_of_mem _ (foldl_pivot_mem super perms _)
    · rw [if_neg better]
      rcases List.mem_cons.1 (foldl_pivot_mem super perms best) with kept | tried
      · rw [kept]
        exact List.mem_cons_self _ _
      · exact List.mem_cons_of_mem _ (List.mem_cons_of_mem _ tried)

theorem pivotChoice_mem (super : Matrix3 ℤ) : pivotChoice super ∈ permutations := by
  unfold pivotChoice
  rcases List.mem_cons.1 (foldl_pivot_mem super permutations (0, ![0, 1, 2])) with first | tried
  · rw [first]
    exact List.mem_cons_self _ _
  · exact tried

/-- The pivot permutes the columns. -/
theorem pivotColumns_eq (super : Matrix3 ℤ) :
    ∃ σ : Equiv.Perm (Fin 3), pivotColumns super = super.submatrix id σ :=
  ⟨Equiv.ofBijective _ (permutations_bijective _ (pivotChoice_mem super)), rfl⟩

/-- The pivot and the sign fix multiply `super` by a unimodular matrix, and leave a determinant
`≥ 0`. -/
theorem pivot_sign (super : Matrix3 ℤ) :
    ∃ U : Matrix3 ℤ, IsUnit U ∧
      (if (pivotColumns super).det < 0 then -pivotColumns super else pivotColumns super) =
        super * U ∧
      0 ≤ (if (pivotColumns super).det < 0 then -pivotColumns super
        else pivotColumns super).det := by
  obtain ⟨σ, pivot⟩ := pivotColumns_eq super
  have permute : pivotColumns super = super * (1 : Matrix3 ℤ).submatrix (Equiv.refl _) σ := by
    rw [pivot, mul_submatrix_one]
    rfl
  have unit : IsUnit ((1 : Matrix3 ℤ).submatrix (Equiv.refl _) σ) := by
    rw [isUnit_iff_isUnit_det, show ((1 : Matrix3 ℤ).submatrix (Equiv.refl _) σ) =
      (1 : Matrix3 ℤ).submatrix id σ from rfl, det_permute', det_one, mul_one, Int.cast_id]
    exact (Equiv.Perm.sign σ).isUnit
  split_ifs with negative
  · refine ⟨_, unit.neg, by rw [permute, mul_neg], ?_⟩
    rw [det_neg, Fintype.card_fin]
    linarith
  · exact ⟨_, unit, permute, not_lt.1 negative⟩

/-! ## The supercell matrix of a basis -/

section Supercell

variable {α : Type} [LinearOrderedField α]

theorem Vector3.ofInt_dotProduct (a b : Fin 3 → ℤ) :
    Vector3.ofInt a ⬝ᵥ Vector3.ofInt b = ((a ⬝ᵥ b : ℤ) : α) := by
  simp [dotProduct, Vector3.ofInt_apply]

theorem mulVec_dotProduct (B : Matrix3 α) (x y : Vector3 α) :
    (B *ᵥ x) ⬝ᵥ y = x ⬝ᵥ (Bᵀ *ᵥ y) := by
  rw [dotProduct_mulVec, vecMul_transpose]

/-- A unimodular factor on the right does not change the integer combinations of the columns. -/
theorem exists_mulVec_mul_unit {A U : Matrix3 ℤ} (unit : IsUnit U) (n : Fin 3 → ℤ) :
    (∃ c, n = (A * U) *ᵥ c) ↔ ∃ c, n = A *ᵥ c := by
  obtain ⟨u, rfl⟩ := unit
  constructor
  · rintro ⟨c, rfl⟩
    exact ⟨_, (mulVec_mulVec c A _).symm⟩
  · rintro ⟨c, rfl⟩
    refine ⟨↑u⁻¹ *ᵥ c, ?_⟩
    rw [mulVec_mulVec, mul_assoc, Units.mul_inv, mul_one]

/-- `det (A·U) = |det A|` for a unimodular `U` and `det (A·U) ≥ 0`. -/
theorem det_mul_unit {A U : Matrix3 ℤ} (unit : IsUnit U) (nonneg : 0 ≤ (A * U).det) :
    (A * U).det = A.det.natAbs := by
  rw [det_mul] at nonneg ⊢
  rcases Int.isUnit_iff.1 ((isUnit_iff_isUnit_det U).1 unit) with one | minusOne
  · rw [one, mul_one] at nonneg ⊢
    exact (Int.natAbs_of_nonneg nonneg).symm
  · rw [minusOne] at nonneg ⊢
    omega

variable {B : Matrix3 α} {M U : Matrix3 ℤ}

/-- Against `super = Mᵀ·U`, an integer combination of the basis columns is integral. -/
theorem vecMul_cast_mul (inverse : Matrix3.cast M * B = 1) (c : Fin 3 → ℤ) :
    vecMul (B *ᵥ Vector3.ofInt c) (Matrix3.cast (Mᵀ * U)) = Vector3.ofInt (Uᵀ *ᵥ c) := by
  rw [vecMul_mulVec, Matrix3.cast_mul, Matrix3.cast_transpose, ← mul_assoc, ← transpose_mul,
    inverse, transpose_one, one_mul, ← mulVec_transpose, ← Matrix3.cast_transpose,
    Vector3.ofInt_mulVec]

/-- The columns of `Mᵀ·U` generate the integer vectors whose products with the integer
combinations of the columns of `B` are integers. -/
theorem dual_iff (inverse : B * Matrix3.cast M = 1) (unit : IsUnit U) (n : Fin 3 → ℤ) :
    (∀ c : Fin 3 → ℤ, ∃ z : ℤ, (B *ᵥ Vector3.ofInt c) ⬝ᵥ Vector3.ofInt n = z) ↔
      ∃ c, n = (Mᵀ * U) *ᵥ c := by
  have inverse' : (Matrix3.cast M)ᵀ * Bᵀ = 1 := by rw [← transpose_mul, inverse, transpose_one]
  have inverse'' : Bᵀ * (Matrix3.cast M)ᵀ = 1 := mul_eq_one_comm.1 inverse'
  rw [exists_mulVec_mul_unit unit]
  constructor
  · intro integral
    choose z hz using fun i => integral (Pi.single i 1)
    have coords : Bᵀ *ᵥ Vector3.ofInt n = Vector3.ofInt z := funext fun i => by
      rw [Vector3.ofInt_apply, ← hz i, mulVec_dotProduct]
      simp [dotProduct, Pi.single_apply, Vector3.ofInt_apply]
    have image : (Vector3.ofInt (Mᵀ *ᵥ z) : Vector3 α) = Vector3.ofInt n := by
      rw [Vector3.ofInt_mulVec, Matrix3.cast_transpose, ← coords, mulVec_mulVec, inverse',
        one_mulVec]
    exact ⟨z, Vector3.ofInt_injective image.symm⟩
  · rintro ⟨m, rfl⟩ c
    refine ⟨c ⬝ᵥ m, ?_⟩
    rw [mulVec_dotProduct, ← Vector3.ofInt_dotProduct, Vector3.ofInt_mulVec, Matrix3.cast_transpose,
      mulVec_mulVec, inverse'', one_mulVec]

variable [FloorRing α]

theorem roundHalfAway_intCast (n : ℤ) : roundHalfAway (n : α) = n := by
  unfold roundHalfAway
  split_ifs
  · rw [← Int.cast_neg, round_intCast, neg_neg]
  · exact round_intCast n

/-- With an integer inverse `M` of the unreduced basis, of determinant `±N`, and every mesh point
an integer combination of its columns, none of the three checks fails and `super = Mᵀ·U` for a
unimodular `U`, with `det super ≥ 0`. -/
theorem supercellMatrix_eq {sqrt : α → α} {roundErr : Vector3 α → α} {symmThreshold : α}
    {R : Matrix3 α} {kmesh : List (Vector3 α)} (rounding : RoundErrSpec roundErr)
    (positive : 0 < symmThreshold) (unit : R.det ≠ 0) {M : Matrix3 ℤ}
    (inverse : kBasisOf sqrt symmThreshold kmesh * Matrix3.cast M = 1)
    (count : M.det.natAbs = kmesh.length)
    (integral : ∀ k ∈ kmesh, ∃ c : Fin 3 → ℤ,
      k - kmesh.headD 0 = kBasisOf sqrt symmThreshold kmesh *ᵥ Vector3.ofInt c) :
    ∃ U : Matrix3 ℤ, IsUnit U ∧ 0 ≤ (Mᵀ * U).det ∧
      supercellMatrix sqrt roundErr symmThreshold R kmesh = .ok (Mᵀ * U) := by
  set B := kBasisOf sqrt symmThreshold kmesh
  obtain ⟨⟨kBasis, t, tInv⟩, reduced⟩ : ∃ r, reduceLatticeVectors symmThreshold B = r := ⟨_, rfl⟩
  have tracks := tracks_of_reduceLatticeVectors symmThreshold B reduced
  have basis : kBasis = B * Matrix3.cast t := tracks.reduced
  have t_mul_tInv : t * tInv = 1 := tracks.t_mul_tInv
  have inverse' : Matrix3.cast M * B = 1 := mul_eq_one_comm.1 inverse
  -- `kBasisInv = tInv·M`, an integer matrix of determinant `±N`
  have kBasisInv : Matrix3.inv kBasis = Matrix3.cast (tInv * M) := by
    rw [Matrix3.inv_eq]
    refine inv_eq_right_inv ?_
    rw [basis, Matrix3.cast_mul, mul_assoc, ← mul_assoc (Matrix3.cast t),
      ← Matrix3.cast_mul, t_mul_tInv, Matrix3.cast_one, one_mul, inverse]
  have det_tInv : tInv.det = 1 := by
    have := congrArg det t_mul_tInv
    rwa [det_mul, show t.det = 1 from tracks.det_t, one_mul, det_one] at this
  have first : (kmesh.any fun kpoint => decide (symmThreshold <
      roundErr (Matrix3.cast (tInv * M) *ᵥ (kpoint - kmesh.headD 0)))) = false := by
    refine List.any_eq_false.2 fun k mem => ?_
    obtain ⟨c, hc⟩ := integral k mem
    rw [hc, mulVec_mulVec, Matrix3.cast_mul, mul_assoc, inverse', mul_one,
      ← Vector3.ofInt_mulVec, rounding.integral]
    simpa using positive.le
  have second : ¬ (kmesh.length : α) * symmThreshold <
      |(|(Matrix3.cast (tInv * M) : Matrix3 α).det| - kmesh.length)| := by
    rw [Matrix3.det_cast, det_mul, det_tInv, one_mul, ← Int.cast_abs,
      Int.abs_eq_natAbs, count, Int.cast_natCast, sub_self, abs_zero]
    exact not_lt.2 (mul_nonneg (Nat.cast_nonneg _) positive.le)
  -- `superTemp = Mᵀ·tInvᵀ·t'`, an integer matrix
  obtain ⟨⟨Rreduced, t', tInv'⟩, reduced'⟩ :
      ∃ r, reduceLatticeVectors symmThreshold (R * (Matrix3.cast (tInv * M))ᵀ) = r := ⟨_, rfl⟩
  have tracks' := tracks_of_reduceLatticeVectors symmThreshold _ reduced'
  have basis' : Rreduced = R * (Matrix3.cast (tInv * M))ᵀ * Matrix3.cast t' := tracks'.reduced
  have superTemp : Matrix3.inv R * Rreduced = Matrix3.cast ((tInv * M)ᵀ * t') := by
    rw [basis', ← mul_assoc, ← mul_assoc, Matrix3.inv_eq,
      nonsing_inv_mul _ (Ne.isUnit unit), one_mul, ← Matrix3.cast_transpose, ← Matrix3.cast_mul]
  have rounded : (Matrix.of fun i j => roundHalfAway ((Matrix3.cast ((tInv * M)ᵀ * t') :
      Matrix3 α) i j)) = (tInv * M)ᵀ * t' := by
    ext i j
    rw [of_apply, Matrix3.cast_apply, roundHalfAway_intCast]
  have third : ¬ ∃ i j, symmThreshold < |(Matrix3.cast ((tInv * M)ᵀ * t') : Matrix3 α) i j -
      (((tInv * M)ᵀ * t') i j : α)| := by
    simpa using positive.le
  -- the pivot and the sign fix
  obtain ⟨V, unitV, pivoted, nonneg⟩ := pivot_sign ((tInv * M)ᵀ * t')
  have unit_tInv : IsUnit tInvᵀ := by
    rw [isUnit_iff_isUnit_det, det_transpose, det_tInv]
    exact isUnit_one
  have unit_t' : IsUnit t' := by
    rw [isUnit_iff_isUnit_det, show t'.det = 1 from tracks'.det_t]
    exact isUnit_one
  have super : (tInv * M)ᵀ * t' * V = Mᵀ * (tInvᵀ * t' * V) := by
    rw [transpose_mul, mul_assoc, mul_assoc, mul_assoc]
  refine ⟨tInvᵀ * t' * V, (unit_tInv.mul unit_t').mul unitV, super ▸ pivoted ▸ nonneg, ?_⟩
  simp only [supercellMatrix, ← super, ← pivoted]
  rw [reduced]
  simp only [first, Bool.false_eq_true, if_false, if_neg second, kBasisInv, reduced',
    superTemp, rounded, if_neg third]

/-- With exact deduplication, a closed mesh that is one coset of `L` modulo `ℤ³` holds one point
of each class, inside the centered zone. -/
theorem bravaisMesh_closeMesh {find : PeriodicFind α} (lookup : FindSpec SameClass find)
    {kmeshReduced : List (Vector3 α)} {sym : List (Matrix3 ℤ)} {invertList : List ℤ}
    {L : AddSubgroup (Vector3 α)}
    (coset : CosetMesh L (closeMesh find kmeshReduced sym invertList).kmesh) :
    BravaisMesh L (closeMesh find kmeshReduced sym invertList).kmesh where
  toCosetMesh := coset
  distinct := by
    have separated :=
      (closeMesh_closed sameClass_periodicNear lookup kmeshReduced sym invertList).2.2
    exact List.pairwise_iff_getElem.2 fun i j hi hj lt =>
      separated i j _ _ lt.ne (List.getElem?_eq_getElem hi) (List.getElem?_eq_getElem hj)
  centered k mem := by
    have aligned := closeMesh_aligned find kmeshReduced sym invertList
    obtain ⟨n, hn, rfl⟩ := List.getElem_of_mem mem
    have hT : n < (closeMesh find kmeshReduced sym invertList).kmeshTransform.length :=
      aligned.length_eq ▸ hn
    exact (aligned.rebuilds_getElem? (List.getElem?_eq_getElem hn)
      (List.getElem?_eq_getElem hT)).2

end Supercell

/-! ## The constructor on a Bravais mesh -/

/-- For a lattice `R` and a closed mesh that is, modulo `ℤ³`, one coset `kmesh[0] + L` of a group
`L ⊇ ℤ³` (deduplication exact), in real arithmetic with `0 < symmThreshold < 1/N²`: the
constructor returns; `L` has `N` classes modulo `ℤ³`, `det super = N`, every mesh point is
integral against `super` and passes the assertion of `getWfns`, the columns of `super` generate
the integer vectors whose products with `L` are integers, and `Rsuper = R·super`. -/
theorem supercell_spec (find : PeriodicFind ℝ) (roundErr : Vector3 ℝ → ℝ) (symmThreshold : ℝ)
    (R : Matrix3 ℝ) (kmeshReduced : List (Vector3 ℝ)) (sym : List (Matrix3 ℤ))
    (invertList : List ℤ) (L : AddSubgroup (Vector3 ℝ)) (unit : R.det ≠ 0)
    (lookup : FindSpec SameClass find) (rounding : RoundErrSpec roundErr)
    (positive : 0 < symmThreshold)
    (coset : CosetMesh L (closeMesh find kmeshReduced sym invertList).kmesh)
    (fine : symmThreshold <
      1 / ((closeMesh find kmeshReduced sym invertList).kmesh.length : ℝ) ^ 2) :
    ∃ sc : Supercell ℝ,
      supercell find Real.sqrt roundErr symmThreshold R kmeshReduced sym invertList = .ok sc ∧
      sc.kmesh = (closeMesh find kmeshReduced sym invertList).kmesh ∧
      (integerPoints.addSubgroupOf L).index = sc.kmesh.length ∧
      sc.super.det = sc.kmesh.length ∧
      (∀ k ∈ sc.kmesh, ∃ n : Fin 3 → ℤ,
        vecMul (k - sc.kmesh.headD 0) (Matrix3.cast sc.super) = Vector3.ofInt n) ∧
      (∀ k ∈ sc.kmesh, getWfnsAssert roundErr symmThreshold sc k = true) ∧
      (∀ n : Fin 3 → ℤ, (∀ l ∈ L, ∃ z : ℤ, l ⬝ᵥ Vector3.ofInt n = z) ↔
        ∃ c, n = sc.super *ᵥ c) ∧
      sc.Rsuper = R * Matrix3.cast sc.super := by
  have mesh := bravaisMesh_closeMesh lookup coset
  set kmesh := (closeMesh find kmeshReduced sym invertList).kmesh
  obtain ⟨combos, basis, M, inverse, count⟩ := kBasisOf_basis mesh positive fine
  obtain ⟨U, unitU, nonneg, super⟩ := supercellMatrix_eq rounding positive unit inverse count
    fun k mem => basis _ (mesh.sub_mem k mem)
  have integral : ∀ k ∈ kmesh, ∃ n : Fin 3 → ℤ,
      vecMul (k - kmesh.headD 0) (Matrix3.cast (Mᵀ * U)) = Vector3.ofInt n := fun k mem => by
    obtain ⟨c, hc⟩ := basis _ (mesh.sub_mem k mem)
    exact ⟨_, hc ▸ vecMul_cast_mul (mul_eq_one_comm.1 inverse) c⟩
  refine ⟨⟨kmesh, (closeMesh find kmeshReduced sym invertList).kmeshTransform, Mᵀ * U,
    R * Matrix3.cast (Mᵀ * U)⟩, ?_, rfl, mesh.index_eq, ?_, integral, fun k mem => ?_,
    fun n => ?_, rfl⟩
  · simp only [supercell, super]
    rfl
  · rw [det_mul_unit unitU nonneg, det_transpose, count]
  · obtain ⟨n, hn⟩ := integral k mem
    simp only [getWfnsAssert, hn, rounding.integral, decide_eq_true_eq]
    exact positive
  · rw [← dual_iff inverse unitU n]
    constructor
    · intro dual c
      exact dual _ (combos c)
    · intro dual l mem
      obtain ⟨c, rfl⟩ := basis l mem
      exact dual c

/-- The mesh `{0, ½e₀}` of a cubic cell with no symmetry: `L = {v : (2v₀, v₁, v₂) ∈ ℤ³}`, two
points, `det super = 2`. -/
theorem supercell_spec_half :
    let roundErr : Vector3 ℝ → ℝ := fun v => ∑ k, |v k - round (v k)|
    let kmesh := (closeMesh (exactFind : PeriodicFind ℝ) [0, ![1 / 2, 0, 0]] [1] [1]).kmesh
    let L : AddSubgroup (Vector3 ℝ) := integerPoints.comap
      (AddMonoidHom.mk' (fun v => Matrix3.cast (diagonal ![2, 1, 1]) *ᵥ v) (mulVec_add _))
    (1 : Matrix3 ℝ).det ≠ 0 ∧ FindSpec SameClass (exactFind : PeriodicFind ℝ) ∧
    RoundErrSpec roundErr ∧ (0 : ℝ) < 1 / 8 ∧ CosetMesh L kmesh ∧
    (1 / 8 : ℝ) < 1 / (kmesh.length : ℝ) ^ 2 ∧ kmesh.length = 2 ∧
    ∃ sc : Supercell ℝ,
      supercell exactFind Real.sqrt roundErr (1 / 8) 1 [0, ![1 / 2, 0, 0]] [1] [1] = .ok sc ∧
      sc.kmesh = kmesh ∧
      (integerPoints.addSubgroupOf L).index = sc.kmesh.length ∧
      sc.super.det = sc.kmesh.length ∧
      (∀ k ∈ sc.kmesh, ∃ n : Fin 3 → ℤ,
        vecMul (k - sc.kmesh.headD 0) (Matrix3.cast sc.super) = Vector3.ofInt n) ∧
      (∀ k ∈ sc.kmesh, getWfnsAssert roundErr (1 / 8) sc k = true) ∧
      (∀ n : Fin 3 → ℤ, (∀ l ∈ L, ∃ z : ℤ, l ⬝ᵥ Vector3.ofInt n = z) ↔
        ∃ c, n = sc.super *ᵥ c) ∧
      sc.Rsuper = 1 * Matrix3.cast sc.super := by
  intro roundErr kmesh L
  have rounding : RoundErrSpec roundErr := roundErrSpec_sum
  have origin : toCenteredZone (orbitPoint 1 (0 : Vector3 ℝ) 1) = 0 := by
    funext i
    norm_num [toCenteredZone, zoneOffset, orbitPoint, Int.floor_eq_iff]
  have half : toCenteredZone (orbitPoint 1 (![1 / 2, 0, 0] : Vector3 ℝ) 1) = ![-1 / 2, 0, 0] := by
    funext i
    fin_cases i <;> norm_num [toCenteredZone, zoneOffset, orbitPoint, Int.floor_eq_iff]
  have apart : ¬ SameClass (0 : Vector3 ℝ) ![-1 / 2, 0, 0] := fun ⟨n, hn⟩ => by
    have entry := congrFun hn 0
    simp only [zero_add, Vector3.ofInt_apply, Matrix.cons_val_zero] at entry
    have odd : ((2 * n 0 : ℤ) : ℝ) = ((-1 : ℤ) : ℝ) := by push_cast; linarith only [entry]
    have := Int.cast_injective odd
    omega
  have closed : kmesh = [0, ![-1 / 2, 0, 0]] := by
    have candidates : closureCandidates [0, (![1 / 2, 0, 0] : Vector3 ℝ)] [1] [1] =
        [⟨1, 0, 0, 0, 1⟩, ⟨1, 1, ![1 / 2, 0, 0], 0, 1⟩] := rfl
    simp only [kmesh, closeMesh, candidates, List.foldl_cons, List.foldl_nil]
    rw [closureStep_of_missing (c := ⟨1, 0, 0, 0, 1⟩) rfl, closureStep_of_missing]
    · simp only [Candidate.point, origin, half, List.nil_append, List.singleton_append]
    · simp only [Candidate.point, origin, half, List.nil_append, exactFind, List.findIdx?_cons,
        decide_eq_true_eq, apart, if_false, List.findIdx?_nil, Option.map_none']
  -- `L`: the points with a half-integer first coordinate and integer others
  have memL : ∀ l, l ∈ L ↔ ∃ n : Fin 3 → ℤ, l = ![(n 0 : ℝ) / 2, n 1, n 2] := fun l => by
    simp only [L, AddSubgroup.mem_comap, AddMonoidHom.mk'_apply, mem_integerPoints,
      Matrix3.cast_diagonal]
    constructor
    · rintro ⟨n, hn⟩
      refine ⟨n, funext fun i => ?_⟩
      have entry := congrFun hn i
      fin_cases i <;> simp [mulVec_diagonal] at entry ⊢ <;> linarith only [entry]
    · rintro ⟨n, rfl⟩
      exact ⟨n, funext fun i => by
        fin_cases i <;> simp [mulVec_diagonal, mul_div_cancel₀ _ (two_ne_zero' ℝ)]⟩
  have coset : CosetMesh L kmesh := by
    rw [closed]
    refine ⟨fun n => (memL _).2 ⟨![2 * n 0, n 1, n 2], funext fun i => by fin_cases i <;> simp⟩,
      fun k mem => ?_, fun l mem => ?_⟩
    · rcases List.mem_pair.1 mem with rfl | rfl
      · simpa using L.zero_mem
      · exact (memL _).2 ⟨![-1, 0, 0], funext fun i => by fin_cases i <;> simp⟩
    · obtain ⟨n, rfl⟩ := (memL l).1 mem
      obtain ⟨a, even | odd⟩ := Int.even_or_odd' (n 0)
      · refine ⟨0, List.mem_cons_self _ _, ![-a, -n 1, -n 2], funext fun i => ?_⟩
        fin_cases i <;> simp [even]
      · refine ⟨![-1 / 2, 0, 0], List.mem_pair.2 (.inr rfl), ![-a - 1, -n 1, -n 2],
          funext fun i => ?_⟩
        fin_cases i
        · simp [odd]; ring
        all_goals simp
  have two : kmesh.length = 2 := by rw [closed]; rfl
  have fine : (1 / 8 : ℝ) < 1 / (kmesh.length : ℝ) ^ 2 := by
    rw [two]
    norm_num
  exact ⟨by simp, exactFind_spec, rounding, by norm_num, coset, fine, two,
    supercell_spec exactFind roundErr (1 / 8) 1 [0, ![1 / 2, 0, 0]] [1] [1] L (by simp)
      exactFind_spec rounding (by norm_num) coset fine⟩

end Jdftx
