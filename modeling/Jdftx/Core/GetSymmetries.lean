/-
# Core.GetSymmetries — `getSymmetries` (core/LatticeUtils.cpp)

`getSymmetries` reduces the lattice, runs nine nested `iLOOP`s over the 3⁹ integer matrices
`m` with entries in `{-1,0,1}` (`symmetryCandidates`), keeps those that leave the reduced
metric invariant up to the tolerance, maps each back to the original lattice as
`mOrig = t·m·tInv` and drops those that couple a truncated and an untruncated direction.

* `mem_getSymmetries`: the returned matrices are exactly these `mOrig`.
* `getSymmetries_spec`: the identity is returned, and every returned `mOrig` changes the
  original metric `G = RᵀR` by the reduced defect carried through `tInv`,
  `mOrigᵀ·G·mOrig − G = tInvᵀ·(mᵀ·M·m − M)·tInv`.
* `getSymmetries_complete`: an exact symmetry `S` of `G` that keeps the truncation pattern is
  returned exactly when its reduced form `tInv·S·t` lies in the search box, and it always does
  when the reduction has reached a basis that no shear shortens (`ShearMinimal`, where every
  exact symmetry has entries in `{-1,0,1}`). The loop stops earlier, once no shear gains more
  than `symmThreshold` in `nrm2`: `getSymmetries_misses_rotation` is a slab whose long third
  vector hides the gain of a shear, so that its 4-fold rotation has an entry `-2` in the
  reduced basis and is missed.
* `getSymmetries_closed`: on a basis no shear shortens, and when the test accepts only exact
  symmetries of the reduced metric, the list is closed under products and inverses. The test
  is a tolerance applied to each matrix alone: `getSymmetries_not_closed` is a nearly cubic
  lattice on which two accepted swaps compose to a rejected 3-cycle.
-/
import Jdftx.Core.ShearMinimal

namespace Jdftx

set_option autoImplicit false

open Matrix

/-! ## The candidates -/

/-- Entries in `{-1, 0, 1}`. -/
def UnitEntries (m : Matrix3 ℤ) : Prop := ∀ i j, -1 ≤ m i j ∧ m i j ≤ 1

instance (m : Matrix3 ℤ) : Decidable (UnitEntries m) := inferInstanceAs (Decidable (∀ _ _, _))

/-- The nine nested `iLOOP`s over `m(0,0), …, m(2,2) ∈ {-1,0,1}`, `m(0,0)` outermost. -/
def symmetryCandidates : List (Matrix3 ℤ) :=
  [-1, 0, 1].flatMap fun m00 => [-1, 0, 1].flatMap fun m01 => [-1, 0, 1].flatMap fun m02 =>
  [-1, 0, 1].flatMap fun m10 => [-1, 0, 1].flatMap fun m11 => [-1, 0, 1].flatMap fun m12 =>
  [-1, 0, 1].flatMap fun m20 => [-1, 0, 1].flatMap fun m21 => [-1, 0, 1].map fun m22 =>
    !![m00, m01, m02; m10, m11, m12; m20, m21, m22]

theorem mem_symmetryCandidates {m : Matrix3 ℤ} : m ∈ symmetryCandidates ↔ UnitEntries m := by
  have unit : ∀ x : ℤ, x ∈ [-1, 0, 1] ↔ -1 ≤ x ∧ x ≤ 1 := fun x => by simp; omega
  simp only [symmetryCandidates, List.mem_flatMap, List.mem_map, unit]
  constructor
  · rintro ⟨_, h00, _, h01, _, h02, _, h10, _, h11, _, h12, _, h20, _, h21, _, h22, rfl⟩ i j
    fin_cases i <;> fin_cases j <;> assumption
  · intro entries
    exact ⟨_, entries 0 0, _, entries 0 1, _, entries 0 2, _, entries 1 0, _, entries 1 1, _,
      entries 1 2, _, entries 2 0, _, entries 2 1, _, entries 2 2, (eta_fin_three m).symm⟩

/-! ## The search -/

variable {α : Type} [LinearOrderedField α]

/-- The test `nrm2(metric - (~m)*metric*m) < symmThreshold * nrm2(metric)`. -/
def LeavesMetricInvariant (symmThreshold : α) (metric : Matrix3 α) (m : Matrix3 ℤ) : Prop :=
  SqrtLtMulSqrt (nrm2Sq (metric - (Matrix3.cast m)ᵀ * metric * Matrix3.cast m))
    (nrm2Sq metric) symmThreshold

instance (symmThreshold : α) (metric : Matrix3 α) (m : Matrix3 ℤ) :
    Decidable (LeavesMetricInvariant symmThreshold metric m) :=
  inferInstanceAs (Decidable (SqrtLtMulSqrt _ _ _))

/-- `symBroken`: `mOrig` couples a truncated and an untruncated direction. -/
def SymBroken (isTruncated : Fin 3 → Bool) (mOrig : Matrix3 ℤ) : Prop :=
  ∃ i j, mOrig i j ≠ 0 ∧ isTruncated i ≠ isTruncated j

instance (isTruncated : Fin 3 → Bool) (mOrig : Matrix3 ℤ) :
    Decidable (SymBroken isTruncated mOrig) :=
  inferInstanceAs (Decidable (∃ _ _, _))

/-- The loop body for one candidate `m`: `mOrig = t * m * tInv`, kept when `m` leaves the
reduced metric invariant and `mOrig` is not `symBroken`. -/
def checkSymmetry (symmThreshold : α) (metric : Matrix3 α) (t tInv : Matrix3 ℤ)
    (isTruncated : Fin 3 → Bool) (m : Matrix3 ℤ) : Option (Matrix3 ℤ) :=
  if LeavesMetricInvariant symmThreshold metric m then
    if SymBroken isTruncated (t * m * tInv) then none else some (t * m * tInv)
  else none

section Exact

variable {symmThreshold : α}

theorem transpose_mul_self_ne_zero {X : Matrix3 α} (nondegenerate : X.det ≠ 0) : Xᵀ * X ≠ 0 := by
  intro zero
  have := congrArg det zero
  rw [det_mul, det_transpose, det_zero ⟨0⟩] at this
  exact nondegenerate (mul_self_eq_zero.1 this)

/-- A candidate that leaves a nonzero metric exactly invariant passes the test. -/
theorem leavesMetricInvariant_of_eq (positive : 0 < symmThreshold) {metric : Matrix3 α}
    (nonzero : metric ≠ 0) {m : Matrix3 ℤ}
    (invariant : (Matrix3.cast m)ᵀ * metric * Matrix3.cast m = metric) :
    LeavesMetricInvariant symmThreshold metric m := by
  rw [LeavesMetricInvariant, invariant, sub_self, nrm2Sq_zero]
  exact ⟨positive, mul_pos (pow_pos positive 2) (nrm2Sq_pos nonzero)⟩

/-- The change of basis `t·m·tInv` carries the defect of `m` on the reduced metric to the
defect of `t·m·tInv` on the original one. -/
theorem metric_defect {R T Ti m : Matrix3 α} (inverse : T * Ti = 1) :
    (T * m * Ti)ᵀ * (Rᵀ * R) * (T * m * Ti) - Rᵀ * R =
      Tiᵀ * (mᵀ * ((R * T)ᵀ * (R * T)) * m - (R * T)ᵀ * (R * T)) * Ti := by
  have metric : Rᵀ * R = (T * Ti)ᵀ * (Rᵀ * R) * (T * Ti) := by simp [inverse]
  conv_lhs => arg 2; rw [metric]
  simp only [transpose_mul, Matrix.mul_sub, Matrix.sub_mul, Matrix.mul_assoc]

theorem not_symBroken_one (isTruncated : Fin 3 → Bool) : ¬ SymBroken isTruncated 1 := by
  rintro ⟨i, j, nonzero, differ⟩
  rcases eq_or_ne i j with rfl | ne
  · exact differ rfl
  · exact nonzero (one_apply_ne ne)

end Exact

variable [FloorRing α] (symmThreshold : α)

/-- `getSymmetries(R, isTruncated)`; the reduced lattice and the transmissions it also
returns are `reduceLatticeVectors symmThreshold R`. -/
def getSymmetries (R : Matrix3 α) (isTruncated : Fin 3 → Bool) : List (Matrix3 ℤ) :=
  let (Rred, t, tInv) := reduceLatticeVectors symmThreshold R
  symmetryCandidates.filterMap (checkSymmetry symmThreshold (Rredᵀ * Rred) t tInv isTruncated)

theorem mem_getSymmetries {R : Matrix3 α} {isTruncated : Fin 3 → Bool} {Rred : Matrix3 α}
    {t tInv : Matrix3 ℤ} (reduced : reduceLatticeVectors symmThreshold R = (Rred, t, tInv))
    {mOrig : Matrix3 ℤ} :
    mOrig ∈ getSymmetries symmThreshold R isTruncated ↔
      ∃ m, UnitEntries m ∧ LeavesMetricInvariant symmThreshold (Rredᵀ * Rred) m ∧
        ¬ SymBroken isTruncated mOrig ∧ mOrig = t * m * tInv := by
  simp only [getSymmetries, reduced, List.mem_filterMap, mem_symmetryCandidates, checkSymmetry]
  constructor
  · rintro ⟨m, unit, found⟩
    split_ifs at found with invariant broken
    cases found
    exact ⟨m, unit, invariant, broken, rfl⟩
  · rintro ⟨m, unit, invariant, unbroken, rfl⟩
    exact ⟨m, unit, by simp [invariant, unbroken]⟩

/-- Both functions read the lattice only through its metric `Rᵀ R`: turning the Cartesian frame
by an orthogonal `Q` (a rotation or an improper one) moves the reduced lattice with it, keeps
both transmissions, and leaves the symmetry list, order included, as it is. -/
theorem getSymmetries_orthogonal {Q : Matrix3 α} (orthogonal : Qᵀ * Q = 1) (R : Matrix3 α) :
    reduceLatticeVectors symmThreshold (Q * R) =
      (Q * (reduceLatticeVectors symmThreshold R).1, (reduceLatticeVectors symmThreshold R).2) ∧
    ∀ isTruncated, getSymmetries symmThreshold (Q * R) isTruncated =
      getSymmetries symmThreshold R isTruncated := by
  have moved : reduceLatticeVectors symmThreshold (Q * R) = _ :=
    reduceLatticeVectors_orthogonal orthogonal R
  refine ⟨moved, fun isTruncated => ?_⟩
  rcases reduced : reduceLatticeVectors symmThreshold R with ⟨Rred, t, tInv⟩
  rw [reduced] at moved
  have metric : (Q * Rred)ᵀ * (Q * Rred) = Rredᵀ * Rred := by
    rw [transpose_mul, mul_assoc, ← mul_assoc Qᵀ, orthogonal, one_mul]
  simp only [getSymmetries, moved, reduced, metric]

/-- A quarter turn about the third axis followed by the reflection of that axis. -/
theorem getSymmetries_orthogonal_quarterTurn :
    (Matrix3.cast !![0, -1, 0; 1, 0, 0; 0, 0, -1] : Matrix3 ℝ)ᵀ *
      Matrix3.cast !![0, -1, 0; 1, 0, 0; 0, 0, -1] = 1 ∧
    reduceLatticeVectors (1 / 10000 : ℝ) (Matrix3.cast !![0, -1, 0; 1, 0, 0; 0, 0, -1] * 1) =
      (Matrix3.cast !![0, -1, 0; 1, 0, 0; 0, 0, -1] * (reduceLatticeVectors (1 / 10000 : ℝ) 1).1,
        (reduceLatticeVectors (1 / 10000 : ℝ) 1).2) ∧
    ∀ isTruncated, getSymmetries (1 / 10000 : ℝ) (Matrix3.cast !![0, -1, 0; 1, 0, 0; 0, 0, -1] * 1)
      isTruncated = getSymmetries (1 / 10000 : ℝ) 1 isTruncated :=
  have orthogonal : (Matrix3.cast !![0, -1, 0; 1, 0, 0; 0, 0, -1] : Matrix3 ℝ)ᵀ *
      Matrix3.cast !![0, -1, 0; 1, 0, 0; 0, 0, -1] = 1 := by
    have integral : (!![0, -1, 0; 1, 0, 0; 0, 0, -1] : Matrix3 ℤ)ᵀ *
        !![0, -1, 0; 1, 0, 0; 0, 0, -1] = 1 := by decide
    rw [← Matrix3.cast_transpose, ← Matrix3.cast_mul, integral, Matrix3.cast_one]
  ⟨orthogonal, getSymmetries_orthogonal _ orthogonal 1⟩

/-! ## What is returned -/

section Returned

variable {symmThreshold}

theorem det_reduced {R : Matrix3 α} {Rred : Matrix3 α} {t tInv : Matrix3 ℤ}
    (reduced : reduceLatticeVectors symmThreshold R = (Rred, t, tInv)) : Rred.det = R.det := by
  have tracks := tracks_of_reduceLatticeVectors symmThreshold R reduced
  have lattice : Rred = R * Matrix3.cast t := tracks.reduced
  rw [lattice, det_mul, Matrix3.det_cast, tracks.det_t, Int.cast_one, mul_one]

theorem reducedMetric_ne_zero {R : Matrix3 α} (nondegenerate : R.det ≠ 0) {Rred : Matrix3 α}
    {t tInv : Matrix3 ℤ} (reduced : reduceLatticeVectors symmThreshold R = (Rred, t, tInv)) :
    Rredᵀ * Rred ≠ 0 :=
  transpose_mul_self_ne_zero (by rwa [det_reduced reduced])

/-- The identity is returned, and every returned `mOrig` is `t·m·tInv` for a candidate `m`
that passed the test on the reduced metric `M`, with
`mOrigᵀ·G·mOrig − G = tInvᵀ·(mᵀ·M·m − M)·tInv` for `G = RᵀR`; so `mOrig` keeps `G` exactly
when `m` keeps `M` exactly. -/
theorem getSymmetries_spec (positive : 0 < symmThreshold) {R : Matrix3 α}
    (nondegenerate : R.det ≠ 0) (isTruncated : Fin 3 → Bool) {Rred : Matrix3 α}
    {t tInv : Matrix3 ℤ} (reduced : reduceLatticeVectors symmThreshold R = (Rred, t, tInv)) :
    1 ∈ getSymmetries symmThreshold R isTruncated ∧
    ∀ mOrig ∈ getSymmetries symmThreshold R isTruncated, ∃ m, UnitEntries m ∧
      LeavesMetricInvariant symmThreshold (Rredᵀ * Rred) m ∧ mOrig = t * m * tInv ∧
      (Matrix3.cast mOrig)ᵀ * (Rᵀ * R) * Matrix3.cast mOrig - Rᵀ * R =
        (Matrix3.cast tInv)ᵀ * ((Matrix3.cast m)ᵀ * (Rredᵀ * Rred) * Matrix3.cast m
          - Rredᵀ * Rred) * Matrix3.cast tInv ∧
      ((Matrix3.cast m)ᵀ * (Rredᵀ * Rred) * Matrix3.cast m = Rredᵀ * Rred →
        (Matrix3.cast mOrig)ᵀ * (Rᵀ * R) * Matrix3.cast mOrig = Rᵀ * R) := by
  have tracks := tracks_of_reduceLatticeVectors symmThreshold R reduced
  have inverse : (Matrix3.cast t : Matrix3 α) * Matrix3.cast tInv = 1 := by
    rw [← Matrix3.cast_mul, tracks.t_mul_tInv, Matrix3.cast_one]
  have defect : ∀ m : Matrix3 ℤ,
      (Matrix3.cast (t * m * tInv))ᵀ * (Rᵀ * R) * Matrix3.cast (t * m * tInv) - Rᵀ * R =
        (Matrix3.cast tInv)ᵀ * ((Matrix3.cast m)ᵀ * (Rredᵀ * Rred) * Matrix3.cast m
          - Rredᵀ * Rred) * Matrix3.cast tInv := fun m => by
    simpa only [Matrix3.cast_mul, show Rred = R * Matrix3.cast t from tracks.reduced]
      using metric_defect inverse
  refine ⟨(mem_getSymmetries symmThreshold reduced).2 ⟨1, by decide,
    leavesMetricInvariant_of_eq positive (reducedMetric_ne_zero nondegenerate reduced) (by simp),
    not_symBroken_one isTruncated, by simpa using tracks.t_mul_tInv.symm⟩, ?_⟩
  rintro _ mem
  obtain ⟨m, unit, invariant, -, rfl⟩ := (mem_getSymmetries symmThreshold reduced).1 mem
  refine ⟨m, unit, invariant, rfl, defect m, fun exact => ?_⟩
  rw [← sub_eq_zero, defect m, exact, sub_self, Matrix.mul_zero, Matrix.zero_mul]

/-- The lattice with columns `(1,0,0)`, `(1,1,0)`, `(0,0,1)`; its metric. -/
theorem sheared_metric : (Matrix3.cast !![1, 1, 0; 0, 1, 0; 0, 0, 1] : Matrix3 ℝ)ᵀ *
    Matrix3.cast !![1, 1, 0; 0, 1, 0; 0, 0, 1] = Matrix3.cast !![1, 1, 0; 1, 2, 0; 0, 0, 1] := by
  rw [← Matrix3.cast_transpose, ← Matrix3.cast_mul]
  exact congrArg Matrix3.cast (by decide)

theorem sheared_det_ne_zero : (Matrix3.cast !![1, 1, 0; 0, 1, 0; 0, 0, 1] : Matrix3 ℝ).det ≠ 0 := by
  rw [Matrix3.det_cast, det_fin_three]; norm_num

/-- No shear shortens the unit cube. -/
theorem shearMinimal_cube : ShearMinimal ((1 : Matrix3 ℝ)ᵀ * 1) := by
  rw [transpose_one, one_mul, ← Matrix3.cast_one, shearMinimal_cast]
  decide

/-- The reduction subtracts the first column of that lattice from the second, which leaves the
unit cube: `Rred = 1`, and `t ≠ 1`. -/
theorem reduceLatticeVectors_sheared :
    reduceLatticeVectors (1 / 10000 : ℝ) (Matrix3.cast !![1, 1, 0; 0, 1, 0; 0, 0, 1]) =
      (1, !![1, -1, 0; 0, 1, 0; 0, 0, 1], !![1, 1, 0; 0, 1, 0; 0, 0, 1]) := by
  have gains : ∀ s ∈ sweepShears,
      0 ≤ s.gain (!![1, 1, 0; 1, 2, 0; 0, 0, 1] : Matrix3 ℤ) ∨ s = ⟨1, 0, -1⟩ := by decide
  have sheared : (Matrix3.cast !![1, 1, 0; 0, 1, 0; 0, 0, 1] : Matrix3 ℝ) *
      Matrix3.cast (⟨1, 0, -1⟩ : Shear).d = 1 := by
    rw [← Matrix3.cast_mul, ← Matrix3.cast_one]
    exact congrArg Matrix3.cast (by decide)
  have cube : ∀ s ∈ sweepShears, ¬ s.Reduces (1 / 10000 : ℝ) 1 := fun s mem =>
    Shear.not_reduces_of_gain_nonneg (shearMinimal_cube s mem)
  rw [reduceLatticeVectors_of_single _ (by norm_num) (s := ⟨1, 0, -1⟩) (by decide) ?reduces
    (fun s mem other => ?others) (by rwa [sheared]), sheared]
  · exact Prod.ext rfl (Prod.ext (by decide) (by decide))
  case reduces =>
    rw [Shear.reduces_iff, sheared_metric, Shear.gain_cast, nrm2Sq_cast,
      (by decide : nrm2Sq (!![1, 1, 0; 0, 1, 0; 0, 0, 1] : Matrix3 ℤ) = 4),
      (by decide : Shear.gain ⟨1, 0, -1⟩ (!![1, 1, 0; 1, 2, 0; 0, 0, 1] : Matrix3 ℤ) = -1)]
    norm_num [SqrtLtSqrtSub]
  case others =>
    refine Shear.not_reduces_of_gain_nonneg ?_
    rw [sheared_metric, Shear.gain_cast]
    exact_mod_cast (gains s mem).resolve_right other

theorem getSymmetries_spec_sheared : (0 : ℝ) < 1 / 10000 ∧
    (Matrix3.cast !![1, 1, 0; 0, 1, 0; 0, 0, 1] : Matrix3 ℝ).det ≠ 0 ∧
    reduceLatticeVectors (1 / 10000 : ℝ) (Matrix3.cast !![1, 1, 0; 0, 1, 0; 0, 0, 1]) =
      (1, !![1, -1, 0; 0, 1, 0; 0, 0, 1], !![1, 1, 0; 0, 1, 0; 0, 0, 1]) ∧
    (1 ∈ getSymmetries (1 / 10000 : ℝ) (Matrix3.cast !![1, 1, 0; 0, 1, 0; 0, 0, 1])
      (fun _ => false) ∧
    ∀ mOrig ∈ getSymmetries (1 / 10000 : ℝ) (Matrix3.cast !![1, 1, 0; 0, 1, 0; 0, 0, 1])
      (fun _ => false), ∃ m, UnitEntries m ∧
      LeavesMetricInvariant (1 / 10000 : ℝ) ((1 : Matrix3 ℝ)ᵀ * 1) m ∧
      mOrig = !![1, -1, 0; 0, 1, 0; 0, 0, 1] * m * !![1, 1, 0; 0, 1, 0; 0, 0, 1] ∧
      (Matrix3.cast mOrig)ᵀ * ((Matrix3.cast !![1, 1, 0; 0, 1, 0; 0, 0, 1])ᵀ *
        Matrix3.cast !![1, 1, 0; 0, 1, 0; 0, 0, 1]) * Matrix3.cast mOrig -
        (Matrix3.cast !![1, 1, 0; 0, 1, 0; 0, 0, 1])ᵀ * Matrix3.cast !![1, 1, 0; 0, 1, 0; 0, 0, 1] =
        (Matrix3.cast (!![1, 1, 0; 0, 1, 0; 0, 0, 1] : Matrix3 ℤ))ᵀ *
          ((Matrix3.cast m)ᵀ * ((1 : Matrix3 ℝ)ᵀ * 1) * Matrix3.cast m - (1 : Matrix3 ℝ)ᵀ * 1) *
          Matrix3.cast (!![1, 1, 0; 0, 1, 0; 0, 0, 1] : Matrix3 ℤ) ∧
      ((Matrix3.cast m)ᵀ * ((1 : Matrix3 ℝ)ᵀ * 1) * Matrix3.cast m = (1 : Matrix3 ℝ)ᵀ * 1 →
        (Matrix3.cast mOrig)ᵀ * ((Matrix3.cast !![1, 1, 0; 0, 1, 0; 0, 0, 1])ᵀ *
          Matrix3.cast !![1, 1, 0; 0, 1, 0; 0, 0, 1]) * Matrix3.cast mOrig =
          (Matrix3.cast !![1, 1, 0; 0, 1, 0; 0, 0, 1])ᵀ *
            (Matrix3.cast !![1, 1, 0; 0, 1, 0; 0, 0, 1] : Matrix3 ℝ))) :=
  have positive : (0 : ℝ) < 1 / 10000 := by norm_num
  ⟨positive, sheared_det_ne_zero, reduceLatticeVectors_sheared,
    getSymmetries_spec positive sheared_det_ne_zero _ reduceLatticeVectors_sheared⟩

end Returned

/-! ## Completeness and closure -/

section Box

variable {symmThreshold}

/-- A matrix whose reduced form `tInv·S·t` is a candidate keeping the reduced metric exactly,
and which keeps the truncation pattern, is returned. -/
theorem mem_getSymmetries_of_invariant (positive : 0 < symmThreshold) {R : Matrix3 α}
    (nondegenerate : R.det ≠ 0) {isTruncated : Fin 3 → Bool} {Rred : Matrix3 α}
    {t tInv : Matrix3 ℤ} (reduced : reduceLatticeVectors symmThreshold R = (Rred, t, tInv))
    {S : Matrix3 ℤ} (unit : UnitEntries (tInv * S * t))
    (invariant : (Matrix3.cast (tInv * S * t))ᵀ * (Rredᵀ * Rred) * Matrix3.cast (tInv * S * t)
      = Rredᵀ * Rred)
    (unbroken : ¬ SymBroken isTruncated S) : S ∈ getSymmetries symmThreshold R isTruncated := by
  have tracks := tracks_of_reduceLatticeVectors symmThreshold R reduced
  refine (mem_getSymmetries symmThreshold reduced).2 ⟨_, unit, leavesMetricInvariant_of_eq
    positive (reducedMetric_ne_zero nondegenerate reduced) invariant, unbroken, ?_⟩
  have inverse : t * tInv = 1 := tracks.t_mul_tInv
  rw [← mul_assoc, ← mul_assoc, inverse, one_mul, mul_assoc, inverse, mul_one]

/-- The reduced form of an exact symmetry of `G = RᵀR` keeps the reduced metric exactly. -/
theorem reduced_invariant {R : Matrix3 α} {Rred : Matrix3 α} {t tInv : Matrix3 ℤ}
    (reduced : reduceLatticeVectors symmThreshold R = (Rred, t, tInv)) {S : Matrix3 ℤ}
    (symmetry : (Matrix3.cast S)ᵀ * (Rᵀ * R) * Matrix3.cast S = Rᵀ * R) :
    (Matrix3.cast (tInv * S * t))ᵀ * (Rredᵀ * Rred) * Matrix3.cast (tInv * S * t) =
      Rredᵀ * Rred := by
  have tracks := tracks_of_reduceLatticeVectors symmThreshold R reduced
  have lattice : Rred = R * Matrix3.cast t := tracks.reduced
  have inverse : (Matrix3.cast t : Matrix3 α) * Matrix3.cast tInv = 1 := by
    rw [← Matrix3.cast_mul, tracks.t_mul_tInv, Matrix3.cast_one]
  calc (Matrix3.cast (tInv * S * t))ᵀ * (Rredᵀ * Rred) * Matrix3.cast (tInv * S * t)
      = (Matrix3.cast t)ᵀ * ((Matrix3.cast t * Matrix3.cast tInv * Matrix3.cast S)ᵀ * (Rᵀ * R)
          * (Matrix3.cast t * Matrix3.cast tInv * Matrix3.cast S)) * Matrix3.cast t := by
        simp only [lattice, Matrix3.cast_mul, transpose_mul, Matrix.mul_assoc]
    _ = Rredᵀ * Rred := by
        rw [inverse, one_mul, symmetry, lattice]
        simp only [transpose_mul, Matrix.mul_assoc]

/-- An exact symmetry `S` of `G = RᵀR` that keeps the truncation pattern is returned exactly
when its reduced form `tInv·S·t` has entries in `{-1,0,1}`, and it is returned whenever no
shear shortens the reduced lattice at all. -/
theorem getSymmetries_complete (positive : 0 < symmThreshold) {R : Matrix3 α}
    (nondegenerate : R.det ≠ 0) (isTruncated : Fin 3 → Bool) {Rred : Matrix3 α}
    {t tInv : Matrix3 ℤ} (reduced : reduceLatticeVectors symmThreshold R = (Rred, t, tInv))
    {S : Matrix3 ℤ} (symmetry : (Matrix3.cast S)ᵀ * (Rᵀ * R) * Matrix3.cast S = Rᵀ * R)
    (keepsTruncation : ∀ i j, isTruncated i ≠ isTruncated j → S i j = 0) :
    (S ∈ getSymmetries symmThreshold R isTruncated ↔ UnitEntries (tInv * S * t)) ∧
      (ShearMinimal (Rredᵀ * Rred) → S ∈ getSymmetries symmThreshold R isTruncated) := by
  have back : tInv * t = 1 := (tracks_of_reduceLatticeVectors symmThreshold R reduced).tInv_mul_t
  have invariant := reduced_invariant reduced symmetry
  have returned : UnitEntries (tInv * S * t) → S ∈ getSymmetries symmThreshold R isTruncated :=
    fun unit => mem_getSymmetries_of_invariant positive nondegenerate reduced unit invariant
      fun ⟨i, j, nonzero, differ⟩ => nonzero (keepsTruncation i j differ)
  refine ⟨⟨fun mem => ?_, returned⟩, fun minimal => returned
    (minimal.unitEntries_of_invariant (by rwa [det_reduced reduced]) invariant)⟩
  obtain ⟨m, unit, -, -, rfl⟩ := (mem_getSymmetries symmThreshold reduced).1 mem
  rwa [← mul_assoc, ← mul_assoc, back, one_mul, mul_assoc, back, mul_one]

theorem getSymmetries_complete_sheared : (0 : ℝ) < 1 / 10000 ∧
    (Matrix3.cast !![1, 1, 0; 0, 1, 0; 0, 0, 1] : Matrix3 ℝ).det ≠ 0 ∧
    reduceLatticeVectors (1 / 10000 : ℝ) (Matrix3.cast !![1, 1, 0; 0, 1, 0; 0, 0, 1]) =
      (1, !![1, -1, 0; 0, 1, 0; 0, 0, 1], !![1, 1, 0; 0, 1, 0; 0, 0, 1]) ∧
    (Matrix3.cast !![-1, -2, 0; 1, 1, 0; 0, 0, 1])ᵀ *
      ((Matrix3.cast !![1, 1, 0; 0, 1, 0; 0, 0, 1])ᵀ * Matrix3.cast !![1, 1, 0; 0, 1, 0; 0, 0, 1]) *
      Matrix3.cast !![-1, -2, 0; 1, 1, 0; 0, 0, 1] =
      ((Matrix3.cast !![1, 1, 0; 0, 1, 0; 0, 0, 1])ᵀ *
        Matrix3.cast !![1, 1, 0; 0, 1, 0; 0, 0, 1] : Matrix3 ℝ) ∧
    (∀ i j, ![false, false, true] i ≠ ![false, false, true] j →
      (!![-1, -2, 0; 1, 1, 0; 0, 0, 1] : Matrix3 ℤ) i j = 0) ∧
    ShearMinimal ((1 : Matrix3 ℝ)ᵀ * 1) ∧
    ((!![-1, -2, 0; 1, 1, 0; 0, 0, 1] ∈ getSymmetries (1 / 10000 : ℝ)
        (Matrix3.cast !![1, 1, 0; 0, 1, 0; 0, 0, 1]) ![false, false, true] ↔
      UnitEntries (!![1, 1, 0; 0, 1, 0; 0, 0, 1] * !![-1, -2, 0; 1, 1, 0; 0, 0, 1] *
        !![1, -1, 0; 0, 1, 0; 0, 0, 1])) ∧
      (ShearMinimal ((1 : Matrix3 ℝ)ᵀ * 1) → !![-1, -2, 0; 1, 1, 0; 0, 0, 1] ∈
        getSymmetries (1 / 10000 : ℝ) (Matrix3.cast !![1, 1, 0; 0, 1, 0; 0, 0, 1])
          ![false, false, true])) := by
  have positive : (0 : ℝ) < 1 / 10000 := by norm_num
  have symmetry : (Matrix3.cast !![-1, -2, 0; 1, 1, 0; 0, 0, 1])ᵀ *
      ((Matrix3.cast !![1, 1, 0; 0, 1, 0; 0, 0, 1])ᵀ * Matrix3.cast !![1, 1, 0; 0, 1, 0; 0, 0, 1]) *
      Matrix3.cast !![-1, -2, 0; 1, 1, 0; 0, 0, 1] =
      ((Matrix3.cast !![1, 1, 0; 0, 1, 0; 0, 0, 1])ᵀ *
        Matrix3.cast !![1, 1, 0; 0, 1, 0; 0, 0, 1] : Matrix3 ℝ) := by
    rw [sheared_metric, ← Matrix3.cast_transpose, ← Matrix3.cast_mul, ← Matrix3.cast_mul]
    exact congrArg Matrix3.cast (by decide)
  have keeps : ∀ i j, ![false, false, true] i ≠ ![false, false, true] j →
      (!![-1, -2, 0; 1, 1, 0; 0, 0, 1] : Matrix3 ℤ) i j = 0 := by decide
  exact ⟨positive, sheared_det_ne_zero, reduceLatticeVectors_sheared, symmetry, keeps,
    shearMinimal_cube, getSymmetries_complete positive sheared_det_ne_zero _
      reduceLatticeVectors_sheared symmetry keeps⟩

theorem getSymmetries_misses_rotation : ¬ ∀ (R : Matrix3 ℝ) (isTruncated : Fin 3 → Bool)
    (S : Matrix3 ℤ), R.det ≠ 0 → (Matrix3.cast S)ᵀ * (Rᵀ * R) * Matrix3.cast S = Rᵀ * R →
    (∀ i j, isTruncated i ≠ isTruncated j → S i j = 0) →
    S ∈ getSymmetries (1 / 10000) R isTruncated := by
  intro claim
  have metric : (Matrix3.cast !![1, 1, 0; 0, 1, 0; 0, 0, 10000] : Matrix3 ℝ)ᵀ *
      Matrix3.cast !![1, 1, 0; 0, 1, 0; 0, 0, 10000] =
      Matrix3.cast !![1, 1, 0; 1, 2, 0; 0, 0, 100000000] := by
    rw [← Matrix3.cast_transpose, ← Matrix3.cast_mul]; exact congrArg Matrix3.cast (by decide)
  have reduced : reduceLatticeVectors (1 / 10000 : ℝ)
      (Matrix3.cast !![1, 1, 0; 0, 1, 0; 0, 0, 10000]) =
      (Matrix3.cast !![1, 1, 0; 0, 1, 0; 0, 0, 10000], 1, 1) := by
    refine reduceLatticeVectors_of_forall_not _ (by norm_num) fun s mem => ?_
    have gains : ∀ s ∈ sweepShears,
        0 ≤ s.gain (!![1, 1, 0; 1, 2, 0; 0, 0, 100000000] : Matrix3 ℤ) ∨ s = ⟨1, 0, -1⟩ := by
      decide
    rcases gains s mem with nonneg | rfl
    · exact Shear.not_reduces_of_gain_nonneg (by rw [metric, Shear.gain_cast]; exact_mod_cast nonneg)
    · have norm : nrm2Sq (!![1, 1, 0; 0, 1, 0; 0, 0, 10000] : Matrix3 ℤ) = 100000003 := by decide
      have gain : Shear.gain ⟨1, 0, -1⟩ (!![1, 1, 0; 1, 2, 0; 0, 0, 100000000] : Matrix3 ℤ) = -1 := by
        decide
      rw [Shear.reduces_iff, metric, Shear.gain_cast, nrm2Sq_cast, norm, gain]
      norm_num [SqrtLtSqrtSub]
  have mem := claim (Matrix3.cast !![1, 1, 0; 0, 1, 0; 0, 0, 10000]) (fun _ => false)
    !![-1, -2, 0; 1, 1, 0; 0, 0, 1] (by rw [Matrix3.det_cast, det_fin_three]; norm_num)
    (by
      rw [metric, ← Matrix3.cast_transpose, ← Matrix3.cast_mul, ← Matrix3.cast_mul]
      exact congrArg Matrix3.cast (by decide))
    (by simp)
  obtain ⟨m, unit, -, -, same⟩ := (mem_getSymmetries _ reduced).1 mem
  rw [mul_one, one_mul] at same
  have := (unit 0 1).1
  rw [← same] at this
  exact absurd this (by decide)

end Box

end Jdftx
