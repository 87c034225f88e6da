/-
# Core.ReduceLatticeVectors — `reduceLatticeVectors` (core/LatticeUtils.cpp)

The reduction repeats sweeps over 27 shears. The shear `d` adds `i ∈ {-1,0,1}` times column
`k2 = (k1+1)%3` and `j ∈ {-1,0,1}` times column `k3 = (k1+2)%3` to column `k1`, and it is
applied when `nrm2(Rreduced * d) < nrm2(Rreduced) - symmThreshold`; the loop stops after a
sweep that applies none. A sweep is a fold of `shearStep` over `sweepShears`; the
`while(true)` loop is `reduceLoop`, driven by a supply of sweeps, and `reduceLatticeVectors`
gives it `sweepBound` sweeps, which always suffice (`reduceLoop_sweepBound`).

* `Tracks R`: `Rreduced = R·t`, `t·tInv = tInv·t = 1` and `det t = 1`. Every applied shear
  keeps it (`Tracks.shear`), hence every sweep and the result
  (`reduceLatticeVectors_tracks`).
* `ShearRun`: a chain of accepted shears. Each lowers `nrm2(Rreduced)` by more than
  `symmThreshold`, so a run from `R` accepts at most `⌊nrm2(R)/symmThreshold⌋` shears and the
  loop stops within one sweep more (`reduceLatticeVectors_terminates`).
-/
import Jdftx.Core.Matrix3
import Mathlib.Algebra.Order.Floor
import Mathlib.LinearAlgebra.Matrix.Transvection

namespace Jdftx

set_option autoImplicit false

open Matrix

/-! ## Shears -/

/-- The identity with `d(k1+1, k1) = i` and `d(k1+2, k1) = j` (indices mod 3). -/
def shearMatrix (k1 : Fin 3) (i j : ℤ) : Matrix3 ℤ :=
  1 + stdBasisMatrix (k1 + 1) k1 i + stdBasisMatrix (k1 + 2) k1 j

theorem stdBasisMatrix_neg (a b : Fin 3) (x : ℤ) :
    stdBasisMatrix a b (-x) = -stdBasisMatrix a b x := by
  rw [eq_neg_iff_add_eq_zero, ← stdBasisMatrix_add, neg_add_cancel, stdBasisMatrix_zero]

theorem self_ne_add_one (k : Fin 3) : k ≠ k + 1 := by fin_cases k <;> decide

theorem self_ne_add_two (k : Fin 3) : k ≠ k + 2 := by fin_cases k <;> decide

theorem shearMatrix_mul_neg (k1 : Fin 3) (i j : ℤ) :
    shearMatrix k1 i j * shearMatrix k1 (-i) (-j) = 1 := by
  simp only [shearMatrix, add_mul, mul_add, one_mul, mul_one,
    StdBasisMatrix.mul_of_ne _ _ _ (self_ne_add_one k1),
    StdBasisMatrix.mul_of_ne _ _ _ (self_ne_add_two k1), add_zero, stdBasisMatrix_neg, mul_neg,
    neg_zero]
  abel

/-- A shear is the product of the two transvections that add columns `k1+1` and `k1+2`. -/
theorem shearMatrix_eq_transvection_mul (k1 : Fin 3) (i j : ℤ) :
    shearMatrix k1 i j = transvection (k1 + 1) k1 i * transvection (k1 + 2) k1 j := by
  rw [shearMatrix, transvection, transvection, mul_add, mul_one, add_mul, one_mul,
    StdBasisMatrix.mul_of_ne _ _ _ (self_ne_add_two k1), add_zero, add_assoc]

theorem det_shearMatrix (k1 : Fin 3) (i j : ℤ) : (shearMatrix k1 i j).det = 1 := by
  rw [shearMatrix_eq_transvection_mul, det_mul,
    det_transvection_of_ne _ _ (self_ne_add_one k1).symm,
    det_transvection_of_ne _ _ (self_ne_add_two k1).symm, one_mul]

/-- One shear of a sweep: column `k1` gains `i` times column `k1+1` and `j` times column
`k1+2`. -/
structure Shear where
  k1 : Fin 3
  i : ℤ
  j : ℤ
  deriving DecidableEq, Repr

namespace Shear

/-- `d`. -/
def d (s : Shear) : Matrix3 ℤ := shearMatrix s.k1 s.i s.j

/-- `dInv`: `dInv(k2,k1) = -i`, `dInv(k3,k1) = -j`. -/
def dInv (s : Shear) : Matrix3 ℤ := shearMatrix s.k1 (-s.i) (-s.j)

theorem d_mul_dInv (s : Shear) : s.d * s.dInv = 1 := shearMatrix_mul_neg _ _ _

theorem dInv_mul_d (s : Shear) : s.dInv * s.d = 1 := by
  simpa [d, dInv] using shearMatrix_mul_neg s.k1 (-s.i) (-s.j)

theorem det_d (s : Shear) : s.d.det = 1 := det_shearMatrix _ _ _

variable {α : Type} [LinearOrderedField α]

/-- The test `nrm2(Rproposed) < nrm2(Rreduced) - symmThreshold`, `Rproposed = Rreduced * d`. -/
def Reduces (symmThreshold : α) (Rreduced : Matrix3 α) (s : Shear) : Prop :=
  SqrtLtSqrtSub (nrm2Sq (Rreduced * Matrix3.cast s.d)) (nrm2Sq Rreduced) symmThreshold

instance (symmThreshold : α) (Rreduced : Matrix3 α) (s : Shear) :
    Decidable (s.Reduces symmThreshold Rreduced) :=
  inferInstanceAs (Decidable (SqrtLtSqrtSub _ _ _))

/-- How much the shear raises `nrm2²`, from the metric `G = XᵀX` of the columns: only
column `k1` changes. -/
def gain {β : Type} [CommRing β] (s : Shear) (G : Matrix3 β) : β :=
  (s.i : β) ^ 2 * G (s.k1 + 1) (s.k1 + 1) + (s.j : β) ^ 2 * G (s.k1 + 2) (s.k1 + 2)
    + 2 * s.i * G s.k1 (s.k1 + 1) + 2 * s.j * G s.k1 (s.k1 + 2)
    + 2 * s.i * s.j * G (s.k1 + 1) (s.k1 + 2)

/-- Right multiplication by `d` adds `i` times column `k1 + 1` and `j` times column `k1 + 2` to
column `k1`. -/
theorem mul_d_apply (X : Matrix3 α) (s : Shear) (r c : Fin 3) :
    (X * Matrix3.cast s.d : Matrix3 α) r c =
      X r c + if c = s.k1 then s.i * X r (s.k1 + 1) + s.j * X r (s.k1 + 2) else 0 := by
  have split : (Matrix3.cast s.d : Matrix3 α) =
      1 + stdBasisMatrix (s.k1 + 1) s.k1 (s.i : α) + stdBasisMatrix (s.k1 + 2) s.k1 (s.j : α) := by
    ext a b
    simp [d, shearMatrix, stdBasisMatrix, one_apply, apply_ite (Int.cast : ℤ → α)]
  rw [split, Matrix.mul_add, Matrix.mul_add, Matrix.mul_one, add_apply, add_apply, add_assoc]
  congr 1
  by_cases same : c = s.k1
  · subst same
    rw [StdBasisMatrix.mul_right_apply_same, StdBasisMatrix.mul_right_apply_same, if_pos rfl,
      mul_comm, mul_comm (X r _)]
  · rw [StdBasisMatrix.mul_right_apply_of_ne _ _ _ _ _ same,
      StdBasisMatrix.mul_right_apply_of_ne _ _ _ _ _ same, if_neg same, add_zero]

/-- Adding `δ` to one entry of a row adds `2·x·δ + δ²` to its squared length. -/
theorem sum_sq_add_single (x : Fin 3 → α) (k : Fin 3) (δ : α) :
    ∑ c, (x c + if c = k then δ else 0) ^ 2 = ∑ c, x c ^ 2 + (2 * x k * δ + δ ^ 2) := by
  have single : ∀ c, (x c + if c = k then δ else 0) ^ 2 =
      x c ^ 2 + if c = k then 2 * x k * δ + δ ^ 2 else 0 := fun c => by
    split_ifs with same
    · subst same
      ring
    · ring
  simp only [single, Finset.sum_add_distrib, Finset.sum_ite_eq', Finset.mem_univ, if_true]

theorem nrm2Sq_mul_d (X : Matrix3 α) (s : Shear) :
    nrm2Sq (X * Matrix3.cast s.d) = nrm2Sq X + s.gain (Xᵀ * X) := by
  simp only [nrm2Sq, mul_d_apply, sum_sq_add_single, Finset.sum_add_distrib]
  simp only [gain, mul_apply, transpose_apply, Finset.mul_sum]
  congr 1
  simp only [← Finset.sum_add_distrib]
  exact Finset.sum_congr rfl fun r _ => by ring

@[simp] theorem gain_cast (s : Shear) (G : Matrix3 ℤ) :
    s.gain (Matrix3.cast G : Matrix3 α) = s.gain G := by
  simp [gain]

theorem gain_smul (s : Shear) (k : α) (G : Matrix3 α) : s.gain (k • G) = k * s.gain G := by
  simp only [gain, smul_apply, smul_eq_mul]
  ring

theorem reduces_iff {symmThreshold : α} {X : Matrix3 α} {s : Shear} :
    s.Reduces symmThreshold X ↔
      SqrtLtSqrtSub (nrm2Sq X + s.gain (Xᵀ * X)) (nrm2Sq X) symmThreshold := by
  rw [Reduces, nrm2Sq_mul_d]

theorem not_reduces_of_gain_nonneg {symmThreshold : α} {X : Matrix3 α} {s : Shear}
    (nonneg : 0 ≤ s.gain (Xᵀ * X)) : ¬ s.Reduces symmThreshold X := fun reduces => by
  have := reduces_iff.1 reduces |>.lt
  linarith [sq_nonneg symmThreshold]

end Shear

/-- The shears of one sweep, in the order of the loops over `k1`, `i` and `j`. -/
def sweepShears : List Shear :=
  [0, 1, 2].flatMap fun k1 => [-1, 0, 1].flatMap fun i => [-1, 0, 1].map fun j => ⟨k1, i, j⟩

theorem mem_sweepShears {k1 : Fin 3} {i j : ℤ} :
    (⟨k1, i, j⟩ : Shear) ∈ sweepShears ↔ i ∈ [-1, 0, 1] ∧ j ∈ [-1, 0, 1] := by
  simp only [sweepShears, List.mem_flatMap, List.mem_map]
  constructor
  · rintro ⟨_, -, i', hi, j', hj, same⟩
    cases same
    exact ⟨hi, hj⟩
  · rintro ⟨hi, hj⟩
    exact ⟨k1, by fin_cases k1 <;> decide, i, hi, j, hj, rfl⟩

/-! ## The loop -/

/-- The variables the loop updates. -/
structure ReduceState (α : Type) where
  Rreduced : Matrix3 α
  t : Matrix3 ℤ
  tInv : Matrix3 ℤ

variable {α : Type} [LinearOrderedField α]

namespace ReduceState

/-- Before the loop: `Rreduced = R` and `t = tInv = 1`. -/
def init (R : Matrix3 α) : ReduceState α := ⟨R, 1, 1⟩

/-- An applied shear: `Rreduced = Rproposed`, `t = t * d`, `tInv = dInv * tInv`. -/
def shear (st : ReduceState α) (s : Shear) : ReduceState α :=
  ⟨st.Rreduced * Matrix3.cast s.d, st.t * s.d, s.dInv * st.tInv⟩

@[simp] theorem shear_Rreduced (st : ReduceState α) (s : Shear) :
    (st.shear s).Rreduced = st.Rreduced * Matrix3.cast s.d := rfl

omit [LinearOrderedField α] in
@[simp] theorem init_Rreduced (R : Matrix3 α) : (init R).Rreduced = R := rfl

end ReduceState

section Loop

variable (symmThreshold : α)

/-- One pass of the innermost loop body, on the state and the flag `changed`. -/
def shearStep (acc : ReduceState α × Bool) (s : Shear) : ReduceState α × Bool :=
  if s.Reduces symmThreshold acc.1.Rreduced then (acc.1.shear s, true) else acc

/-- One pass of the body of `while(true)`: the new state and `changed`. -/
def sweep (st : ReduceState α) : ReduceState α × Bool :=
  sweepShears.foldl (shearStep symmThreshold) (st, false)

/-- The `while(true)` loop given `fuel` sweeps: `none` if they run out before a sweep leaves
`changed` false. -/
def reduceLoop : ℕ → ReduceState α → Option (ReduceState α)
  | 0, _ => none
  | fuel + 1, st =>
    match sweep symmThreshold st with
    | (st', true) => reduceLoop fuel st'
    | (st', false) => some st'

variable [FloorRing α]

/-- Sweeps enough for the loop to stop: every applied shear lowers `nrm2(Rreduced)²` by more
than `symmThreshold²`. -/
def sweepBound (R : Matrix3 α) : ℕ := ⌈nrm2Sq R / symmThreshold ^ 2⌉₊ + 1

/-- `reduceLatticeVectors(R, &transmission, &invTransmission)`: the reduced lattice, the
transmission `t` and the inverse transmission `tInv`. -/
def reduceLatticeVectors (R : Matrix3 α) : Matrix3 α × Matrix3 ℤ × Matrix3 ℤ :=
  let st := (reduceLoop symmThreshold (sweepBound symmThreshold R) (.init R)).getD (.init R)
  (st.Rreduced, st.t, st.tInv)

end Loop

/-! ## The invariant: `Rreduced = R·t` with `t` unimodular and `tInv` its inverse -/

/-- The loop invariant, relative to the input `R`. -/
structure Tracks (R : Matrix3 α) (st : ReduceState α) : Prop where
  reduced : st.Rreduced = R * Matrix3.cast st.t
  t_mul_tInv : st.t * st.tInv = 1
  tInv_mul_t : st.tInv * st.t = 1
  det_t : st.t.det = 1

theorem Tracks.init (R : Matrix3 α) : Tracks R (.init R) :=
  ⟨by simp [ReduceState.init], mul_one 1, mul_one 1, det_one⟩

theorem Tracks.shear {R : Matrix3 α} {st : ReduceState α} (tracks : Tracks R st) (s : Shear) :
    Tracks R (st.shear s) where
  reduced := by simp [ReduceState.shear, tracks.reduced, Matrix.mul_assoc]
  t_mul_tInv := by
    rw [ReduceState.shear, mul_assoc, ← mul_assoc s.d, s.d_mul_dInv, one_mul, tracks.t_mul_tInv]
  tInv_mul_t := by
    rw [ReduceState.shear, mul_assoc, ← mul_assoc st.tInv, tracks.tInv_mul_t, one_mul,
      s.dInv_mul_d]
  det_t := by simp [ReduceState.shear, det_mul, tracks.det_t, s.det_d]

section Invariant

variable (symmThreshold : α)

theorem foldl_shearStep_tracks {R : Matrix3 α} (shears : List Shear) {acc : ReduceState α × Bool}
    (tracks : Tracks R acc.1) : Tracks R (shears.foldl (shearStep symmThreshold) acc).1 := by
  induction shears generalizing acc with
  | nil => exact tracks
  | cons s rest ih =>
    refine ih ?_
    unfold shearStep
    split
    · exact tracks.shear s
    · exact tracks

theorem sweep_tracks {R : Matrix3 α} {st : ReduceState α} (tracks : Tracks R st) :
    Tracks R (sweep symmThreshold st).1 :=
  foldl_shearStep_tracks symmThreshold sweepShears tracks

theorem reduceLoop_tracks {R : Matrix3 α} :
    ∀ (fuel : ℕ) {st st' : ReduceState α}, Tracks R st →
      reduceLoop symmThreshold fuel st = some st' → Tracks R st'
  | 0, _, _, _, done => by simp [reduceLoop] at done
  | fuel + 1, st, st', tracks, done => by
    have next := sweep_tracks symmThreshold tracks
    rw [reduceLoop] at done
    split at done
    · rename_i st₁ h
      rw [h] at next
      exact reduceLoop_tracks fuel next done
    · rename_i st₁ h
      rw [h] at next
      exact Option.some_injective _ done ▸ next

variable [FloorRing α]

theorem tracks_of_reduceLatticeVectors (R : Matrix3 α) {Rreduced : Matrix3 α}
    {t tInv : Matrix3 ℤ} (result : reduceLatticeVectors symmThreshold R = (Rreduced, t, tInv)) :
    Tracks R ⟨Rreduced, t, tInv⟩ := by
  have tracks : Tracks R ((reduceLoop symmThreshold (sweepBound symmThreshold R)
      (.init R)).getD (.init R)) := by
    cases h : reduceLoop symmThreshold (sweepBound symmThreshold R) (.init R) with
    | none => exact Tracks.init R
    | some st => exact reduceLoop_tracks symmThreshold _ (Tracks.init R) h
  simp only [reduceLatticeVectors, Prod.mk.injEq] at result
  obtain ⟨rfl, rfl, rfl⟩ := result
  exact tracks

/-- Every applied shear is unimodular with inverse `dInv`, every sweep keeps the invariant,
and on return `Rreduced = R·t` with `t` unimodular and `tInv = t⁻¹`. -/
theorem reduceLatticeVectors_tracks (R : Matrix3 α) :
    (∀ s ∈ sweepShears, s.d * s.dInv = 1 ∧ s.dInv * s.d = 1 ∧ s.d.det = 1) ∧
    (∀ st, Tracks R st → Tracks R (sweep symmThreshold st).1) ∧
    ∀ Rreduced t tInv, reduceLatticeVectors symmThreshold R = (Rreduced, t, tInv) →
      Rreduced = R * Matrix3.cast t ∧ t * tInv = 1 ∧ tInv * t = 1 ∧ t.det = 1 := by
  refine ⟨fun s _ => ⟨s.d_mul_dInv, s.dInv_mul_d, s.det_d⟩, fun st => sweep_tracks _, ?_⟩
  intro Rreduced t tInv result
  have tracks := tracks_of_reduceLatticeVectors symmThreshold R result
  exact ⟨tracks.reduced, tracks.t_mul_tInv, tracks.tInv_mul_t, tracks.det_t⟩

end Invariant

/-! ## Termination -/

/-- `ShearRun symmThreshold st n st'`: `st'` is reached from `st` by `n` accepted shears. -/
inductive ShearRun (symmThreshold : α) : ReduceState α → ℕ → ReduceState α → Prop
  | refl (st : ReduceState α) : ShearRun symmThreshold st 0 st
  | step {st st' : ReduceState α} {n : ℕ} (s : Shear)
      (reduces : s.Reduces symmThreshold st.Rreduced)
      (rest : ShearRun symmThreshold (st.shear s) n st') : ShearRun symmThreshold st (n + 1) st'

namespace ShearRun

variable {symmThreshold : α} {st st' st'' : ReduceState α} {n m : ℕ}

theorem trans (first : ShearRun symmThreshold st n st')
    (second : ShearRun symmThreshold st' m st'') : ShearRun symmThreshold st (n + m) st'' := by
  induction first with
  | refl => simpa using second
  | step s reduces _ ih => simpa [Nat.add_right_comm] using step s reduces (ih second)

/-- Every accepted shear lowers `nrm2(Rreduced)²` by more than `symmThreshold²`. -/
theorem nrm2Sq_add_le (run : ShearRun symmThreshold st n st') :
    nrm2Sq st'.Rreduced + n * symmThreshold ^ 2 ≤ nrm2Sq st.Rreduced := by
  induction run with
  | refl => simp
  | step s reduces _ ih =>
    have := reduces.lt
    simp only [ReduceState.shear_Rreduced, Nat.cast_succ] at ih ⊢
    linarith

end ShearRun

section Termination

variable (symmThreshold : α)

theorem foldl_shearStep_run (shears : List Shear) (acc : ReduceState α × Bool) :
    ∃ n, ShearRun symmThreshold acc.1 n (shears.foldl (shearStep symmThreshold) acc).1 ∧
      ((shears.foldl (shearStep symmThreshold) acc).2 = true ↔ acc.2 = true ∨ 0 < n) := by
  induction shears generalizing acc with
  | nil => exact ⟨0, .refl _, by simp⟩
  | cons s rest ih =>
    rw [List.foldl_cons]
    obtain ⟨n, run, changed⟩ := ih (shearStep symmThreshold acc s)
    by_cases reduces : s.Reduces symmThreshold acc.1.Rreduced
    · simp only [shearStep, reduces, if_true, true_or, iff_true] at run changed ⊢
      exact ⟨n + 1, .step s reduces run, by simp [changed]⟩
    · simp only [shearStep, reduces, if_false] at run changed ⊢
      exact ⟨n, run, changed⟩

/-- A sweep applies a chain of accepted shears, and reports `changed` iff it is not empty. -/
theorem sweep_run (st : ReduceState α) :
    ∃ n, ShearRun symmThreshold st n (sweep symmThreshold st).1 ∧
      ((sweep symmThreshold st).2 = true ↔ 0 < n) := by
  simpa using foldl_shearStep_run symmThreshold sweepShears (st, false)

theorem reduceLoop_run : ∀ (fuel : ℕ) {st st' : ReduceState α},
    reduceLoop symmThreshold fuel st = some st' → ∃ n, ShearRun symmThreshold st n st'
  | 0, _, _, done => by simp [reduceLoop] at done
  | fuel + 1, st, st', done => by
    obtain ⟨n, run, -⟩ := sweep_run symmThreshold st
    rw [reduceLoop] at done
    split at done
    · rename_i st₁ h
      rw [h] at run
      obtain ⟨m, rest⟩ := reduceLoop_run fuel done
      exact ⟨n + m, run.trans rest⟩
    · rename_i st₁ h
      rw [h] at run
      cases Option.some_injective _ done
      exact ⟨n, run⟩

/-- The loop stops within `k + 1` sweeps when no chain of accepted shears is longer than `k`. -/
theorem reduceLoop_isSome : ∀ (k : ℕ) (st : ReduceState α),
    (∀ n st', ShearRun symmThreshold st n st' → n ≤ k) →
      (reduceLoop symmThreshold (k + 1) st).isSome
  | k, st, bound => by
    obtain ⟨n, run, changed⟩ := sweep_run symmThreshold st
    rw [reduceLoop]
    split
    · rename_i st₁ h
      rw [h] at run changed
      have positive := changed.1 rfl
      cases k with
      | zero => exact absurd (bound n st₁ run) (by omega)
      | succ k =>
        exact reduceLoop_isSome k st₁ fun m st₂ rest => by
          have := bound _ _ (run.trans rest); omega
    · rfl

theorem reduceLoop_mono : ∀ {fuel fuel' : ℕ} {st st' : ReduceState α}, fuel ≤ fuel' →
    reduceLoop symmThreshold fuel st = some st' → reduceLoop symmThreshold fuel' st = some st'
  | 0, _, _, _, _, done => by simp [reduceLoop] at done
  | _ + 1, 0, _, _, le, _ => by omega
  | fuel + 1, fuel' + 1, st, st', le, done => by
    rw [reduceLoop] at done ⊢
    split at done
    · exact reduceLoop_mono (by omega) done
    · exact done

theorem foldl_shearStep_of_forall_not (shears : List Shear) (acc : ReduceState α × Bool)
    (none : ∀ s ∈ shears, ¬ s.Reduces symmThreshold acc.1.Rreduced) :
    shears.foldl (shearStep symmThreshold) acc = acc := by
  induction shears with
  | nil => rfl
  | cons s rest ih =>
    rw [List.foldl_cons, shearStep, if_neg (none s (List.mem_cons_self _ _))]
    exact ih fun s' mem => none s' (List.mem_cons_of_mem _ mem)

/-- A sweep that reports no change applied no shear: it tested every shear against the state it
started from and rejected it. -/
theorem foldl_shearStep_unchanged (shears : List Shear) (acc : ReduceState α × Bool)
    (unchanged : (shears.foldl (shearStep symmThreshold) acc).2 = false) :
    (shears.foldl (shearStep symmThreshold) acc).1 = acc.1 ∧
      ∀ s ∈ shears, ¬ s.Reduces symmThreshold acc.1.Rreduced := by
  induction shears generalizing acc with
  | nil => exact ⟨rfl, nofun⟩
  | cons s rest ih =>
    rw [List.foldl_cons] at unchanged ⊢
    by_cases reduces : s.Reduces symmThreshold acc.1.Rreduced
    · obtain ⟨n, -, changed⟩ := foldl_shearStep_run symmThreshold rest (shearStep symmThreshold acc s)
      rw [shearStep, if_pos reduces] at unchanged changed
      simp [unchanged] at changed
    · rw [shearStep, if_neg reduces] at unchanged ⊢
      obtain ⟨same, rejected⟩ := ih acc unchanged
      exact ⟨same, List.forall_mem_cons.2 ⟨reduces, rejected⟩⟩

/-- When the loop stops, no shear of a sweep reduces its result. -/
theorem reduceLoop_fixed : ∀ (fuel : ℕ) {st st' : ReduceState α},
    reduceLoop symmThreshold fuel st = some st' →
      ∀ s ∈ sweepShears, ¬ s.Reduces symmThreshold st'.Rreduced
  | 0, _, _, done => by simp [reduceLoop] at done
  | fuel + 1, st, st', done => by
    rw [reduceLoop] at done
    split at done
    · exact reduceLoop_fixed fuel done
    · rename_i st₁ swept
      cases Option.some_injective _ done
      obtain ⟨same, rejected⟩ :=
        foldl_shearStep_unchanged symmThreshold sweepShears (st, false) (by rw [← sweep, swept])
      rw [← sweep, swept] at same
      simp only at same
      rwa [same]

/-- A sweep in which `s` is the one shear that reduces the state, and after which no shear
reduces it, applies `s` alone. -/
theorem foldl_shearStep_single {st : ReduceState α} {s : Shear} (shears : List Shear) (b : Bool)
    (mem : s ∈ shears) (reduces : s.Reduces symmThreshold st.Rreduced)
    (others : ∀ s' ∈ shears, s' ≠ s → ¬ s'.Reduces symmThreshold st.Rreduced)
    (after : ∀ s' ∈ shears, ¬ s'.Reduces symmThreshold (st.shear s).Rreduced) :
    shears.foldl (shearStep symmThreshold) (st, b) = (st.shear s, true) := by
  induction shears generalizing b with
  | nil => cases mem
  | cons s' rest ih =>
    rw [List.foldl_cons]
    by_cases same : s' = s
    · subst same
      rw [shearStep, if_pos reduces]
      exact foldl_shearStep_of_forall_not symmThreshold rest _
        fun s'' mem'' => after s'' (List.mem_cons_of_mem _ mem'')
    · rw [shearStep, if_neg (others s' (List.mem_cons_self _ _) same)]
      exact ih b ((List.mem_cons.1 mem).resolve_left fun h => same h.symm)
        (fun s'' mem'' => others s'' (List.mem_cons_of_mem _ mem''))
        (fun s'' mem'' => after s'' (List.mem_cons_of_mem _ mem''))

variable [FloorRing α]

theorem ShearRun.le_ceil (positive : 0 < symmThreshold) {R : Matrix3 α} {st : ReduceState α}
    {n : ℕ} (run : ShearRun symmThreshold (.init R) n st) :
    n ≤ ⌈nrm2Sq R / symmThreshold ^ 2⌉₊ := by
  have drop := run.nrm2Sq_add_le
  have : (n : α) ≤ nrm2Sq R / symmThreshold ^ 2 := by
    rw [le_div_iff₀ (by positivity)]
    simp only [ReduceState.init_Rreduced] at drop
    linarith [nrm2Sq_nonneg st.Rreduced]
  exact_mod_cast this.trans (Nat.le_ceil _)

/-- `sweepBound` sweeps always suffice. -/
theorem reduceLoop_sweepBound (positive : 0 < symmThreshold) (R : Matrix3 α) :
    ∃ st, reduceLoop symmThreshold (sweepBound symmThreshold R) (.init R) = some st :=
  Option.isSome_iff_exists.1 <| reduceLoop_isSome symmThreshold _ _ fun _ _ run =>
    run.le_ceil symmThreshold positive

/-- Whenever the loop stops, its result is `reduceLatticeVectors`. -/
theorem reduceLatticeVectors_eq (positive : 0 < symmThreshold) {R : Matrix3 α} {fuel : ℕ}
    {st : ReduceState α} (done : reduceLoop symmThreshold fuel (.init R) = some st) :
    reduceLatticeVectors symmThreshold R = (st.Rreduced, st.t, st.tInv) := by
  obtain ⟨st', bounded⟩ := reduceLoop_sweepBound symmThreshold positive R
  have same := (reduceLoop_mono symmThreshold (le_max_left _ fuel) bounded).symm.trans
    (reduceLoop_mono symmThreshold (le_max_right _ fuel) done)
  simp [reduceLatticeVectors, bounded, Option.some_injective _ same]

/-- A lattice that no shear of a sweep reduces is returned as it is, with `t = tInv = 1`. -/
theorem reduceLatticeVectors_of_forall_not (positive : 0 < symmThreshold) {R : Matrix3 α}
    (none : ∀ s ∈ sweepShears, ¬ s.Reduces symmThreshold R) :
    reduceLatticeVectors symmThreshold R = (R, 1, 1) := by
  have swept : sweep symmThreshold (.init R) = (.init R, false) :=
    foldl_shearStep_of_forall_not symmThreshold _ _ none
  have done : reduceLoop symmThreshold 1 (.init R) = some (.init R) := by
    simp only [reduceLoop, swept]
  exact reduceLatticeVectors_eq symmThreshold positive done

/-- No shear of a sweep reduces the reduced lattice, so reducing it again returns it with
`t = tInv = 1`. -/
theorem reduceLatticeVectors_fixed (positive : 0 < symmThreshold) (R : Matrix3 α) :
    (∀ s ∈ sweepShears, ¬ s.Reduces symmThreshold (reduceLatticeVectors symmThreshold R).1) ∧
    reduceLatticeVectors symmThreshold (reduceLatticeVectors symmThreshold R).1 =
      ((reduceLatticeVectors symmThreshold R).1, 1, 1) := by
  obtain ⟨st, done⟩ := reduceLoop_sweepBound symmThreshold positive R
  have fixed := reduceLoop_fixed symmThreshold _ done
  rw [reduceLatticeVectors_eq symmThreshold positive done]
  exact ⟨fixed, reduceLatticeVectors_of_forall_not symmThreshold positive fixed⟩

/-- A lattice whose every shear raises `nrm2` is already reduced. -/
theorem reduceLatticeVectors_of_gain_nonneg (positive : 0 < symmThreshold) {R : Matrix3 α}
    (nonneg : ∀ s ∈ sweepShears, 0 ≤ s.gain (Rᵀ * R)) :
    reduceLatticeVectors symmThreshold R = (R, 1, 1) :=
  reduceLatticeVectors_of_forall_not symmThreshold positive fun s mem =>
    Shear.not_reduces_of_gain_nonneg (nonneg s mem)

/-- The unit cube is reduced. -/
theorem reduceLatticeVectors_one (positive : 0 < symmThreshold) :
    reduceLatticeVectors symmThreshold (1 : Matrix3 α) = (1, 1, 1) := by
  refine reduceLatticeVectors_of_gain_nonneg symmThreshold positive fun s mem => ?_
  rw [transpose_one, one_mul, ← Matrix3.cast_one, Shear.gain_cast]
  exact_mod_cast (by decide : ∀ s ∈ sweepShears, 0 ≤ s.gain (1 : Matrix3 ℤ)) s mem

/-- A lattice on which `s` is the one shear of a sweep that reduces, and whose shear by `s` no
shear reduces, is returned sheared by `s`, with `t = d` and `tInv = dInv`. -/
theorem reduceLatticeVectors_of_single (positive : 0 < symmThreshold) {R : Matrix3 α}
    {s : Shear} (mem : s ∈ sweepShears) (reduces : s.Reduces symmThreshold R)
    (others : ∀ s' ∈ sweepShears, s' ≠ s → ¬ s'.Reduces symmThreshold R)
    (after : ∀ s' ∈ sweepShears, ¬ s'.Reduces symmThreshold (R * Matrix3.cast s.d)) :
    reduceLatticeVectors symmThreshold R = (R * Matrix3.cast s.d, s.d, s.dInv) := by
  have first : sweep symmThreshold (.init R) = ((ReduceState.init R).shear s, true) :=
    foldl_shearStep_single symmThreshold _ _ mem reduces others after
  have second : sweep symmThreshold ((ReduceState.init R).shear s) =
      ((ReduceState.init R).shear s, false) :=
    foldl_shearStep_of_forall_not symmThreshold _ _ after
  have done : reduceLoop symmThreshold 2 (.init R) = some ((ReduceState.init R).shear s) := by
    simp only [reduceLoop, first, second]
  rw [reduceLatticeVectors_eq symmThreshold positive done]
  simp [ReduceState.shear, ReduceState.init]

end Termination

/-! ## Changes of frame -/

section Frame

variable {symmThreshold symmThreshold' : α} {φ : Matrix3 α → Matrix3 α}

/-- `φ` moves the lattice without changing the run: it commutes with every shear, and the test
on the moved lattice at `symmThreshold'` is the test on the lattice at `symmThreshold`. -/
structure Frame (φ : Matrix3 α → Matrix3 α) (symmThreshold symmThreshold' : α) : Prop where
  mul_d : ∀ X (s : Shear), φ (X * Matrix3.cast s.d) = φ X * Matrix3.cast s.d
  reduces_iff : ∀ X (s : Shear), s.Reduces symmThreshold' (φ X) ↔ s.Reduces symmThreshold X

/-- The state with its lattice moved by `φ`. -/
def ReduceState.move (φ : Matrix3 α → Matrix3 α) (st : ReduceState α) : ReduceState α :=
  ⟨φ st.Rreduced, st.t, st.tInv⟩

namespace Frame

theorem shearStep_move (frame : Frame φ symmThreshold symmThreshold')
    (acc : ReduceState α × Bool) (s : Shear) :
    shearStep symmThreshold' (acc.1.move φ, acc.2) s =
      ((shearStep symmThreshold acc s).1.move φ, (shearStep symmThreshold acc s).2) := by
  by_cases reduces : s.Reduces symmThreshold acc.1.Rreduced
  · simp only [shearStep, ReduceState.move, frame.reduces_iff, reduces, if_true,
      ReduceState.shear, frame.mul_d]
  · simp only [shearStep, ReduceState.move, frame.reduces_iff, reduces, if_false]

theorem foldl_move (frame : Frame φ symmThreshold symmThreshold') (shears : List Shear)
    (acc : ReduceState α × Bool) :
    shears.foldl (shearStep symmThreshold') (acc.1.move φ, acc.2) =
      ((shears.foldl (shearStep symmThreshold) acc).1.move φ,
        (shears.foldl (shearStep symmThreshold) acc).2) := by
  induction shears generalizing acc with
  | nil => rfl
  | cons s rest ih => rw [List.foldl_cons, List.foldl_cons, frame.shearStep_move, ih]

/-- Both runs take the same branches, sweep after sweep. -/
theorem reduceLoop_move (frame : Frame φ symmThreshold symmThreshold') :
    ∀ (fuel : ℕ) (st : ReduceState α),
      reduceLoop symmThreshold' fuel (st.move φ) =
        (reduceLoop symmThreshold fuel st).map (ReduceState.move φ)
  | 0, _ => rfl
  | fuel + 1, st => by
    have swept : sweep symmThreshold' (st.move φ) =
        ((sweep symmThreshold st).1.move φ, (sweep symmThreshold st).2) :=
      frame.foldl_move sweepShears (st, false)
    rw [reduceLoop, reduceLoop, swept]
    obtain ⟨st₁, _ | _⟩ := sweep symmThreshold st
    · rfl
    · exact frame.reduceLoop_move fuel st₁

end Frame

/-- Scaling the lattice by `c > 0`, with the threshold scaled by `c`. -/
theorem frame_smul {c : α} (positive : 0 < c) :
    Frame (c • ·) symmThreshold (c * symmThreshold) where
  mul_d X _ := (smul_mul_assoc c X _).symm
  reduces_iff X _ := by
    rw [Shear.Reduces, Shear.Reduces, smul_mul_assoc, nrm2Sq_smul, nrm2Sq_smul,
      sqrtLtSqrtSub_scale positive.ne']

/-- An orthogonal map of the Cartesian frame, at the same threshold. -/
theorem frame_orthogonal {Q : Matrix3 α} (orthogonal : Qᵀ * Q = 1) :
    Frame (Q * ·) symmThreshold symmThreshold where
  mul_d X _ := (mul_assoc Q X _).symm
  reduces_iff X _ := by
    rw [Shear.Reduces, Shear.Reduces, mul_assoc, nrm2Sq_orthogonal orthogonal,
      nrm2Sq_orthogonal orthogonal]

variable [FloorRing α]

/-- A change of frame that allows the same number of sweeps moves the result and keeps the
transmissions. -/
theorem Frame.reduceLatticeVectors_move (frame : Frame φ symmThreshold symmThreshold')
    {R : Matrix3 α} (bound : sweepBound symmThreshold' (φ R) = sweepBound symmThreshold R) :
    reduceLatticeVectors symmThreshold' (φ R) =
      (φ (reduceLatticeVectors symmThreshold R).1, (reduceLatticeVectors symmThreshold R).2) := by
  have moved := frame.reduceLoop_move (sweepBound symmThreshold R) (.init R)
  simp only [reduceLatticeVectors, bound]
  rw [show ReduceState.init (φ R) = (ReduceState.init R).move φ from rfl, moved]
  cases reduceLoop symmThreshold (sweepBound symmThreshold R) (.init R) <;> rfl

/-- Scaling the lattice and the threshold by `c > 0` scales the reduced lattice and keeps the
transmissions: the reduction is homogeneous for a threshold relative to the lattice. -/
theorem reduceLatticeVectors_smul {c : α} (positive : 0 < c) (R : Matrix3 α) :
    reduceLatticeVectors (c * symmThreshold) (c • R) =
      (c • (reduceLatticeVectors symmThreshold R).1, (reduceLatticeVectors symmThreshold R).2) := by
  refine (frame_smul positive).reduceLatticeVectors_move ?_
  rw [sweepBound, sweepBound, nrm2Sq_smul, mul_pow, mul_div_mul_left _ _ (pow_ne_zero 2 positive.ne')]

theorem reduceLatticeVectors_smul_two : (0 : ℚ) < 2 ∧
    reduceLatticeVectors (2 * 1 : ℚ) ((2 : ℚ) • (1 : Matrix3 ℚ)) =
      ((2 : ℚ) • (reduceLatticeVectors (1 : ℚ) 1).1, (reduceLatticeVectors (1 : ℚ) 1).2) :=
  ⟨two_pos, reduceLatticeVectors_smul two_pos 1⟩

/-- An orthogonal map `Q` of the frame moves the reduced lattice and keeps the transmissions. -/
theorem reduceLatticeVectors_orthogonal {Q : Matrix3 α} (orthogonal : Qᵀ * Q = 1)
    (R : Matrix3 α) :
    reduceLatticeVectors symmThreshold (Q * R) =
      (Q * (reduceLatticeVectors symmThreshold R).1, (reduceLatticeVectors symmThreshold R).2) :=
  (frame_orthogonal orthogonal).reduceLatticeVectors_move (by
    rw [sweepBound, sweepBound, nrm2Sq_orthogonal orthogonal])

end Frame

section Real

variable {symmThreshold : ℝ}

theorem shear_nrm2_lt (nonneg : 0 ≤ symmThreshold) {st : ReduceState ℝ} {s : Shear}
    (reduces : s.Reduces symmThreshold st.Rreduced) :
    √(nrm2Sq (st.shear s).Rreduced) < √(nrm2Sq st.Rreduced) - symmThreshold :=
  (sqrtLtSqrtSub_iff (nrm2Sq_nonneg _) nonneg).1 reduces

theorem ShearRun.sqrt_add_le (nonneg : 0 ≤ symmThreshold) {st st' : ReduceState ℝ} {n : ℕ}
    (run : ShearRun symmThreshold st n st') :
    √(nrm2Sq st'.Rreduced) + n * symmThreshold ≤ √(nrm2Sq st.Rreduced) := by
  induction run with
  | refl => simp
  | step s reduces _ ih =>
    have := shear_nrm2_lt nonneg reduces
    push_cast
    linarith

theorem ShearRun.le_floor (positive : 0 < symmThreshold) {R : Matrix3 ℝ} {st : ReduceState ℝ}
    {n : ℕ} (run : ShearRun symmThreshold (.init R) n st) :
    n ≤ ⌊√(nrm2Sq R) / symmThreshold⌋₊ := by
  have drop := run.sqrt_add_le positive.le
  simp only [ReduceState.init_Rreduced] at drop
  apply Nat.le_floor
  rw [le_div_iff₀ positive]
  linarith [Real.sqrt_nonneg (nrm2Sq st.Rreduced)]

/-- Every applied shear lowers `nrm2(Rreduced)` by more than `symmThreshold`, so no run from
`R` applies more than `⌊nrm2(R)/symmThreshold⌋` shears, and the `while(true)` loop stops
within one sweep more, with the result `reduceLatticeVectors` returns. -/
theorem reduceLatticeVectors_terminates (positive : 0 < symmThreshold) (R : Matrix3 ℝ) :
    (∀ (st : ReduceState ℝ) (s : Shear), s.Reduces symmThreshold st.Rreduced →
      √(nrm2Sq (st.shear s).Rreduced) < √(nrm2Sq st.Rreduced) - symmThreshold) ∧
    (∀ n st, ShearRun symmThreshold (.init R) n st → n ≤ ⌊√(nrm2Sq R) / symmThreshold⌋₊) ∧
    ∃ st n, reduceLoop symmThreshold (⌊√(nrm2Sq R) / symmThreshold⌋₊ + 1) (.init R) = some st ∧
      ShearRun symmThreshold (.init R) n st ∧
      reduceLatticeVectors symmThreshold R = (st.Rreduced, st.t, st.tInv) := by
  refine ⟨fun _ _ => shear_nrm2_lt positive.le, fun _ _ run => run.le_floor positive, ?_⟩
  obtain ⟨st, done⟩ := Option.isSome_iff_exists.1 <| reduceLoop_isSome symmThreshold _ _
    fun _ _ run => run.le_floor positive
  obtain ⟨n, run⟩ := reduceLoop_run symmThreshold _ done
  exact ⟨st, n, done, run, reduceLatticeVectors_eq symmThreshold positive done⟩

theorem reduceLatticeVectors_terminates_one : (0 : ℝ) < 1 ∧
    ((∀ (st : ReduceState ℝ) (s : Shear), s.Reduces 1 st.Rreduced →
      √(nrm2Sq (st.shear s).Rreduced) < √(nrm2Sq st.Rreduced) - 1) ∧
    (∀ n st, ShearRun 1 (.init (1 : Matrix3 ℝ)) n st → n ≤ ⌊√(nrm2Sq (1 : Matrix3 ℝ)) / 1⌋₊) ∧
    ∃ st n, reduceLoop (1 : ℝ) (⌊√(nrm2Sq (1 : Matrix3 ℝ)) / 1⌋₊ + 1) (.init 1) = some st ∧
      ShearRun 1 (.init 1) n st ∧ reduceLatticeVectors (1 : ℝ) 1 = (st.Rreduced, st.t, st.tInv)) :=
  ⟨one_pos, reduceLatticeVectors_terminates one_pos 1⟩

/-- The reduced lattice admits no improving shear: for each `k1` and `i, j ∈ {-1, 0, 1}`,
`nrm2(Rreduced·d) ≥ nrm2(Rreduced) - symmThreshold`; so reducing it again returns it with
`t = tInv = 1`. -/
theorem reduceLatticeVectors_idempotent (positive : 0 < symmThreshold) (R : Matrix3 ℝ) :
    (∀ (k1 : Fin 3) (i j : ℤ), i ∈ [-1, 0, 1] → j ∈ [-1, 0, 1] →
      √(nrm2Sq (reduceLatticeVectors symmThreshold R).1) - symmThreshold ≤
        √(nrm2Sq ((reduceLatticeVectors symmThreshold R).1 * Matrix3.cast (shearMatrix k1 i j)))) ∧
    reduceLatticeVectors symmThreshold (reduceLatticeVectors symmThreshold R).1 =
      ((reduceLatticeVectors symmThreshold R).1, 1, 1) := by
  obtain ⟨rejected, again⟩ := reduceLatticeVectors_fixed symmThreshold positive R
  refine ⟨fun k1 i j hi hj => not_lt.1 fun lower => ?_, again⟩
  exact rejected ⟨k1, i, j⟩ (mem_sweepShears.2 ⟨hi, hj⟩)
    ((sqrtLtSqrtSub_iff (nrm2Sq_nonneg _) positive.le).2 lower)

/-- With the code's absolute threshold `symmThreshold = 10⁻⁴`, the lattice with columns
`(1,0,0)`, `(1,1,0)`, `(0,0,1)` is sheared (`v1 - v0` is shorter than `v1` by `2 - √3`), while
the same lattice in a length unit `10⁴` times larger, where that shear gains only
`(2 - √3)·10⁻⁴`, is returned as it is. -/
theorem reduceLatticeVectors_scale_dependent : ¬ ∀ (R : Matrix3 ℝ) (c : ℝ), 0 < c →
    reduceLatticeVectors (1 / 10000) (c • R) =
      (c • (reduceLatticeVectors (1 / 10000) R).1, (reduceLatticeVectors (1 / 10000) R).2) := by
  intro scaleFree
  set R₀ : Matrix3 ℤ := !![1, 1, 0; 0, 1, 0; 0, 0, 1]
  have norm : nrm2Sq R₀ = 4 := by decide
  have gains : ∀ s ∈ sweepShears, -1 ≤ s.gain (R₀ᵀ * R₀) := by decide
  have best : (⟨1, 0, -1⟩ : Shear).gain (R₀ᵀ * R₀) = -1 := by decide
  -- the test on `c • R₀` reads `nrm2² = 4c²` and the gains `c²·gain`
  have test : ∀ (c : ℝ) (s : Shear), s.Reduces (1 / 10000 : ℝ) (c • Matrix3.cast R₀) ↔
      SqrtLtSqrtSub (c ^ 2 * 4 + c ^ 2 * s.gain (R₀ᵀ * R₀)) (c ^ 2 * 4) (1 / 10000) := by
    intro c s
    rw [Shear.reduces_iff, transpose_smul, smul_mul_smul_comm, ← Matrix3.cast_transpose,
      ← Matrix3.cast_mul, Shear.gain_smul, Shear.gain_cast, nrm2Sq_smul, nrm2Sq_cast, norm, ← sq,
      Int.cast_ofNat]
  have small : reduceLatticeVectors (1 / 10000 : ℝ) ((1 / 10000 : ℝ) • Matrix3.cast R₀) =
      ((1 / 10000 : ℝ) • Matrix3.cast R₀, 1, 1) :=
    reduceLatticeVectors_of_forall_not _ (by norm_num) fun s mem reduces => by
      have drop := ((test _ s).1 reduces).lt
      have floor : (-1 : ℝ) ≤ s.gain (R₀ᵀ * R₀) := by exact_mod_cast gains s mem
      linarith
  obtain ⟨fixed, -⟩ := reduceLatticeVectors_fixed (1 / 10000 : ℝ) (by norm_num) (Matrix3.cast R₀)
  have same := scaleFree (Matrix3.cast R₀) (1 / 10000) (by norm_num)
  rw [small, Prod.ext_iff] at same
  have unscaled : (reduceLatticeVectors (1 / 10000 : ℝ) (Matrix3.cast R₀)).1 = Matrix3.cast R₀ :=
    (smul_right_injective _ (by norm_num : (1 / 10000 : ℝ) ≠ 0) same.1).symm
  refine fixed ⟨1, 0, -1⟩ (by decide) ?_
  rw [unscaled, ← one_smul ℝ (Matrix3.cast R₀ : Matrix3 ℝ), test, best]
  norm_num [SqrtLtSqrtSub]

theorem reduceLatticeVectors_idempotent_one : (0 : ℝ) < 1 ∧
    ((∀ (k1 : Fin 3) (i j : ℤ), i ∈ [-1, 0, 1] → j ∈ [-1, 0, 1] →
      √(nrm2Sq (reduceLatticeVectors (1 : ℝ) 1).1) - 1 ≤
        √(nrm2Sq ((reduceLatticeVectors (1 : ℝ) 1).1 * Matrix3.cast (shearMatrix k1 i j)))) ∧
    reduceLatticeVectors (1 : ℝ) (reduceLatticeVectors (1 : ℝ) 1).1 =
      ((reduceLatticeVectors (1 : ℝ) 1).1, 1, 1)) :=
  ⟨one_pos, reduceLatticeVectors_idempotent one_pos 1⟩

end Real

end Jdftx
