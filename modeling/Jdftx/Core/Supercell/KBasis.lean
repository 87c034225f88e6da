/-
# Core.Supercell.KBasis — the basis discovery on a Bravais mesh, in exact arithmetic

On a mesh that is one coset of a group `L ⊇ ℤ³` with `N` classes modulo `ℤ³` (`BravaisMesh`),
every vector of `L` is a multiple of `1/N`. In exact real arithmetic with
`0 < symmThreshold < 1/N²`, the tests of the second and third search loops are therefore exact:
a cross product of two vectors of `L` is zero or at least `1/N²` long, and a box product is zero
or at least the covolume `1/N`. The search loops then pick a shortest vector of `L`, a shortest
one off its line and a shortest one off their plane, which form a basis of `L`
(`Greedy.integral`).

* `BravaisMesh.index_eq`: `L/ℤ³` has `N` elements, one per mesh point.
* `BravaisMesh.pickShortest_least`: a search loop whose test is exact on the differences it
  sees returns a shortest vector of `L` that passes it.
* `kBasisOf_basis`: `kBasis` is a basis of `L`, with an integer inverse of determinant `±N`.
-/
import Jdftx.Core.Supercell.Basis

namespace Jdftx

set_option autoImplicit false

open Matrix

variable {α : Type} [LinearOrderedField α]

/-! ## Columns, cross and box products -/

section Products

variable (v0 v1 v2 : Vector3 α)

theorem ofColumns_mulVec (x : Fin 3 → α) :
    ofColumns v0 v1 v2 *ᵥ x = x 0 • v0 + x 1 • v1 + x 2 • v2 := by
  ext i
  simp [ofColumns, mulVec, dotProduct, Fin.sum_univ_three, mul_comm]

theorem det_ofColumns : (ofColumns v0 v1 v2).det = v0 ⬝ᵥ (v1 ×₃ v2) := by
  rw [triple_product_eq_det, ← det_transpose]
  congr 1

theorem gram_ofColumns (i j : Fin 3) :
    ((ofColumns v0 v1 v2)ᵀ * ofColumns v0 v1 v2) i j = ![v0, v1, v2] i ⬝ᵥ ![v0, v1, v2] j := by
  simp [ofColumns, mul_apply, dotProduct]

/-- The box product with the first two columns reads the third coordinate. -/
theorem box_mulVec (x : Fin 3 → α) :
    v0 ⬝ᵥ (v1 ×₃ (ofColumns v0 v1 v2 *ᵥ x)) = x 2 * (v0 ⬝ᵥ (v1 ×₃ v2)) := by
  simp only [ofColumns_mulVec, map_add, LinearMap.map_smul, cross_self, dotProduct_add,
    dotProduct_smul, dot_cross_self, smul_zero, smul_eq_mul, add_zero, mul_zero, zero_add]

/-- The cross product of the first column with `B·x` drops the first coordinate. -/
theorem cross_ofColumns_mulVec (x : Fin 3 → α) :
    v0 ×₃ (ofColumns v0 v1 v2 *ᵥ x) = x 1 • (v0 ×₃ v1) + x 2 • (v0 ×₃ v2) := by
  simp only [ofColumns_mulVec, map_add, LinearMap.map_smul, cross_self, smul_zero, zero_add]

/-- The cross product with the first column vanishes only on its line. -/
theorem cross_mulVec_eq_zero {x : Fin 3 → α} (nonsingular : v0 ⬝ᵥ (v1 ×₃ v2) ≠ 0)
    (zero : v0 ×₃ (ofColumns v0 v1 v2 *ᵥ x) = 0) : x 1 = 0 ∧ x 2 = 0 := by
  rw [cross_ofColumns_mulVec] at zero
  have two := congrArg (v2 ⬝ᵥ ·) zero
  have one := congrArg (v1 ⬝ᵥ ·) zero
  simp only [dotProduct_add, dotProduct_smul, dot_cross_self, dotProduct_zero, smul_eq_mul,
    mul_zero, add_zero, zero_add] at one two
  -- `v2·(v0×v1)` and `v1·(v0×v2)` are `±v0·(v1×v2)`
  rw [← triple_product_permutation, ← triple_product_permutation] at two
  rw [triple_product_permutation, ← cross_anticomm, dotProduct_neg] at one
  exact ⟨(mul_eq_zero.1 two).resolve_right nonsingular,
    (mul_eq_zero.1 one).resolve_right (neg_ne_zero.2 nonsingular)⟩

end Products

theorem ofInt_cross (a b : Fin 3 → ℤ) :
    (Vector3.ofInt a : Vector3 α) ×₃ Vector3.ofInt b = Vector3.ofInt (a ×₃ b) := by
  ext i
  fin_cases i <;> simp [cross_apply]

theorem one_le_dotProduct_ofInt {n : Fin 3 → ℤ} (nonzero : n ≠ 0) :
    1 ≤ (Vector3.ofInt n : Vector3 α) ⬝ᵥ Vector3.ofInt n := by
  obtain ⟨i, entry⟩ := Function.ne_iff.1 nonzero
  have square : (1 : ℤ) ≤ n i * n i := by
    rw [← abs_mul_abs_self]
    exact one_le_mul_of_one_le_of_one_le (Int.one_le_abs entry) (Int.one_le_abs entry)
  calc (1 : α) ≤ (n i : α) * n i := by exact_mod_cast square
    _ ≤ (Vector3.ofInt n : Vector3 α) ⬝ᵥ Vector3.ofInt n :=
      Finset.single_le_sum (fun j _ => mul_self_nonneg (n j : α)) (Finset.mem_univ i)

/-- The coordinate vector `e_i`. -/
def unitVector (i : Fin 3) : Vector3 α := Vector3.ofInt (Pi.single i 1)

theorem abs_unitVector_le (i j : Fin 3) : |(unitVector i : Vector3 α) j| ≤ 1 := by
  by_cases same : j = i
  · subst same
    simp [unitVector]
  · simp [unitVector, same]

theorem dotProduct_unitVector (i : Fin 3) : (unitVector i : Vector3 α) ⬝ᵥ unitVector i = 1 := by
  fin_cases i <;> simp [unitVector, dotProduct, Fin.sum_univ_three]

theorem unitVector_ne_zero (i : Fin 3) : (unitVector i : Vector3 α) ≠ 0 := fun zero => by
  simpa [unitVector] using congrFun zero i

/-- A nonzero vector is off the line of some coordinate vector. -/
theorem exists_cross_unitVector {v : Vector3 α} (nonzero : v ≠ 0) :
    ∃ i, v ×₃ unitVector i ≠ 0 := by
  by_contra! parallel
  have e0 := congrFun (parallel 0) 1
  have e1 := congrFun (parallel 1) 2
  have e2 := congrFun (parallel 2) 0
  simp [unitVector, cross_apply] at e0 e1 e2
  exact nonzero (funext fun i => by fin_cases i <;> simp [*])

/-- Two vectors off each other's line span a plane that some coordinate vector is off. -/
theorem exists_box_unitVector {v0 v1 : Vector3 α} (nonzero : v0 ×₃ v1 ≠ 0) :
    ∃ i, v0 ⬝ᵥ (v1 ×₃ unitVector i) ≠ 0 := by
  by_contra! flat
  refine nonzero (funext fun i => ?_)
  have := flat i
  rw [triple_product_permutation, triple_product_permutation] at this
  fin_cases i <;> simpa [unitVector, dotProduct, Fin.sum_univ_three] using this

theorem sq_le_dotProduct_self (l : Vector3 α) (i : Fin 3) : l i * l i ≤ l ⬝ᵥ l :=
  Finset.single_le_sum (fun j _ => mul_self_nonneg (l j)) (Finset.mem_univ i)

theorem abs_le_one_of_dotProduct_le {l : Vector3 α} (short : l ⬝ᵥ l ≤ 1) (i : Fin 3) :
    |l i| ≤ 1 :=
  abs_le_one_iff_mul_self_le_one.2 ((sq_le_dotProduct_self l i).trans short)

/-! ## The classes of a Bravais mesh -/

/-- `ℤ³` inside `α³`. -/
def integerPoints : AddSubgroup (Vector3 α) :=
  (AddMonoidHom.mk' (Vector3.ofInt : (Fin 3 → ℤ) → Vector3 α) Vector3.ofInt_add).range

theorem mem_integerPoints {v : Vector3 α} : v ∈ integerPoints ↔ ∃ n, Vector3.ofInt n = v :=
  AddMonoidHom.mem_range

namespace BravaisMesh

variable {L : AddSubgroup (Vector3 α)} {kmesh : List (Vector3 α)}

theorem ne_nil (mesh : BravaisMesh L kmesh) : kmesh ≠ [] := by
  obtain ⟨k, mem, -⟩ := mesh.covers 0 L.zero_mem
  exact List.ne_nil_of_mem mem

/-- Two mesh points in one class are the same point. -/
theorem eq_of_sameClass (mesh : BravaisMesh L kmesh) {i j : Fin kmesh.length}
    (same : SameClass (kmesh.get i) (kmesh.get j)) : i = j := by
  have pairwise := List.pairwise_iff_get.1 mesh.distinct
  rcases lt_trichotomy i j with lt | eq | gt
  · exact absurd same (pairwise i j lt)
  · exact eq
  · exact absurd same.symm (pairwise j i gt)

/-- `L/ℤ³` has one element per mesh point. -/
theorem index_eq (mesh : BravaisMesh L kmesh) :
    (integerPoints.addSubgroupOf L).index = kmesh.length := by
  let f : Fin kmesh.length → L ⧸ integerPoints.addSubgroupOf L := fun i =>
    QuotientAddGroup.mk ⟨kmesh.get i - kmesh.headD 0, mesh.sub_mem _ (List.get_mem _ _ _)⟩
  have injective : Function.Injective f := fun i j same => by
    obtain ⟨n, hn⟩ := mem_integerPoints.1 (AddSubgroup.mem_addSubgroupOf.1
      (QuotientAddGroup.eq.1 same))
    refine mesh.eq_of_sameClass ⟨n, ?_⟩
    simp only [AddSubgroup.coe_add, AddSubgroup.coe_neg] at hn
    rw [hn]
    abel
  have surjective : Function.Surjective f := fun q => by
    obtain ⟨⟨l, hl⟩, rfl⟩ := QuotientAddGroup.mk_surjective q
    obtain ⟨k, mem, n, hk⟩ := mesh.covers l hl
    obtain ⟨i, rfl⟩ := List.mem_iff_get.1 mem
    refine ⟨i, QuotientAddGroup.eq.2 (AddSubgroup.mem_addSubgroupOf.2
      (mem_integerPoints.2 ⟨-n, ?_⟩))⟩
    simp only [AddSubgroup.coe_add, AddSubgroup.coe_neg, Vector3.ofInt_neg, hk]
    abel
  rw [AddSubgroup.index, ← Nat.card_eq_of_bijective f ⟨injective, surjective⟩, Nat.card_eq_fintype_card,
    Fintype.card_fin]

/-- `N` times a vector of `L` is an integer vector. -/
theorem nsmul_mem (mesh : BravaisMesh L kmesh) {l : Vector3 α} (mem : l ∈ L) :
    ∃ a : Fin 3 → ℤ, (kmesh.length : α) • l = Vector3.ofInt a := by
  have := AddSubgroup.nsmul_index_mem (integerPoints.addSubgroupOf L) ⟨l, mem⟩
  rw [mesh.index_eq, AddSubgroup.mem_addSubgroupOf, AddSubgroup.coe_nsmul] at this
  obtain ⟨a, ha⟩ := mem_integerPoints.1 this
  exact ⟨a, by rw [ha, Nat.cast_smul_eq_nsmul]⟩

/-- A search loop whose test agrees, on the differences it sees, with a property `Q` that some
coordinate vector has returns a shortest nonzero vector of `L` with `Q`, no longer than `1`. -/
theorem pickShortest_least {front : Vector3 α} {rest : List (Vector3 α)}
    (mesh : BravaisMesh L (front :: rest)) (test : Vector3 α → Bool) (Q : Vector3 α → Prop)
    (exact : ∀ k ∈ meshImages front rest, test (k - front) = true ↔ Q (k - front))
    (unit : ∃ i, Q (unitVector i)) :
    ∃ v, pickShortest test (kmesh333 (front :: rest)) = v ∧ v ∈ L ∧ v ≠ 0 ∧ Q v ∧ v ⬝ᵥ v ≤ 1 ∧
      ∀ l ∈ L, l ≠ 0 → Q l → v ⬝ᵥ v ≤ l ⬝ᵥ l := by
  obtain ⟨i, unit⟩ := unit
  obtain ⟨k, mem, hk⟩ := mesh.exists_meshImages_sub (mesh.integers (Pi.single i 1))
    (unitVector_ne_zero i) (abs_unitVector_le i)
  obtain ⟨⟨k', mem', pass, found⟩, least⟩ :=
    pickShortest_spec (⟨k, mem, (exact k mem).2 (hk ▸ unit)⟩ :
      ∃ k ∈ meshImages front rest, test (k - front) = true)
  obtain ⟨inL, nonzero⟩ := mesh.sub_mem_of_mem mem'
  have short : (k' - front) ⬝ᵥ (k' - front) ≤ 1 := by
    have := least k mem ((exact k mem).2 (hk ▸ unit))
    rw [found, hk] at this
    exact this.trans_eq (dotProduct_unitVector i)
  refine ⟨k' - front, found, inL, nonzero, (exact k' mem').1 pass, short, fun l hl nz q => ?_⟩
  by_cases small : l ⬝ᵥ l ≤ 1
  · obtain ⟨k'', mem'', hk''⟩ :=
      mesh.exists_meshImages_sub hl nz (abs_le_one_of_dotProduct_le small)
    have := least k'' mem'' ((exact k'' mem'').2 (hk'' ▸ q))
    rwa [found, hk''] at this
  · exact short.trans (not_le.1 small).le

end BravaisMesh

/-! ## Greedy columns -/

section Columns

variable {L : AddSubgroup (Vector3 α)} {v0 v1 w : Vector3 α}

/-- The integer combinations of three vectors of `L` are in `L`. -/
theorem ofColumns_mulVec_ofInt_mem (h0 : v0 ∈ L) (h1 : v1 ∈ L) (hw : w ∈ L) (c : Fin 3 → ℤ) :
    ofColumns v0 v1 w *ᵥ Vector3.ofInt c ∈ L := by
  rw [ofColumns_mulVec]
  simp only [Vector3.ofInt_apply, Int.cast_smul_eq_zsmul]
  exact L.add_mem (L.add_mem (L.zsmul_mem h0 _) (L.zsmul_mem h1 _)) (L.zsmul_mem hw _)

/-- Three vectors of `L` with a nonzero box product, each a shortest vector of `L` off the span
of those before it, are greedy choices. -/
theorem greedy_ofColumns (h0 : v0 ∈ L) (h1 : v1 ∈ L) (hw : w ∈ L)
    (nonsingular : v0 ⬝ᵥ (v1 ×₃ w) ≠ 0) (least0 : ∀ l ∈ L, l ≠ 0 → v0 ⬝ᵥ v0 ≤ l ⬝ᵥ l)
    (least1 : ∀ l ∈ L, l ≠ 0 → v0 ×₃ l ≠ 0 → v1 ⬝ᵥ v1 ≤ l ⬝ᵥ l)
    (least2 : ∀ l ∈ L, l ≠ 0 → v0 ⬝ᵥ (v1 ×₃ l) ≠ 0 → w ⬝ᵥ w ≤ l ⬝ᵥ l) :
    Greedy ((ofColumns v0 v1 w)ᵀ * ofColumns v0 v1 w) fun x => ofColumns v0 v1 w *ᵥ x ∈ L where
  symm := by rw [transpose_mul, transpose_transpose]
  definite x nonzero := by
    rw [← gramQ_mulVec]
    have image : ofColumns v0 v1 w *ᵥ x ≠ 0 := fun zero => by
      rw [← det_ofColumns] at nonsingular
      exact nonsingular (Matrix.exists_mulVec_eq_zero_iff.1 ⟨x, nonzero, zero⟩)
    exact (dotProduct_self_nonneg _).lt_of_ne (Ne.symm (mt dotProduct_self_eq_zero.1 image))
  zero := by simpa using L.zero_mem
  shift x n mem := by
    rw [mulVec_sub]
    exact L.sub_mem mem (ofColumns_mulVec_ofInt_mem h0 h1 hw n)
  first x mem nonzero := by
    rw [gram_ofColumns, ← gramQ_mulVec]
    refine least0 _ mem fun zero => nonzero ?_
    by_contra off
    rw [← det_ofColumns] at nonsingular
    exact nonsingular (Matrix.exists_mulVec_eq_zero_iff.1 ⟨x, off, zero⟩)
  second x mem off := by
    rw [gram_ofColumns, ← gramQ_mulVec]
    have cross : v0 ×₃ (ofColumns v0 v1 w *ᵥ x) ≠ 0 := fun zero => by
      obtain ⟨one, two⟩ := cross_mulVec_eq_zero v0 v1 w nonsingular zero
      exact off.elim (· one) (· two)
    exact least1 _ mem (fun zero => cross (by rw [zero, map_zero])) cross
  third x mem off := by
    rw [gram_ofColumns, ← gramQ_mulVec]
    have box : v0 ⬝ᵥ (v1 ×₃ (ofColumns v0 v1 w *ᵥ x)) ≠ 0 := by
      rw [box_mulVec]
      exact mul_ne_zero off nonsingular
    exact least2 _ mem (fun zero => box (by rw [zero, map_zero, dotProduct_zero])) box

end Columns

/-! ## Exact tests in real arithmetic -/

section Real

variable {L : AddSubgroup (Vector3 ℝ)} {kmesh : List (Vector3 ℝ)} {symmThreshold : ℝ}

/-- The test of the second loop is exact on `L`: a nonzero cross product of two vectors of `L`
is at least `1/N²` long, and `|v0| ≤ 1`. -/
theorem BravaisMesh.offLine_iff (mesh : BravaisMesh L kmesh) (positive : 0 < symmThreshold)
    (fine : symmThreshold < 1 / (kmesh.length : ℝ) ^ 2) {v0 dk : Vector3 ℝ} (mem0 : v0 ∈ L)
    (mem : dk ∈ L) (short : v0 ⬝ᵥ v0 ≤ 1) :
    offLine Real.sqrt symmThreshold v0 dk = true ↔ v0 ×₃ dk ≠ 0 := by
  rw [offLine, decide_eq_true_iff]
  constructor
  · intro longer zero
    rw [zero, dotProduct_zero, Real.sqrt_zero] at longer
    exact absurd longer (not_lt.2 (mul_nonneg positive.le (Real.sqrt_nonneg _)))
  · intro nonzero
    have Npos : (0 : ℝ) < kmesh.length := Nat.cast_pos.2 (List.length_pos.2 mesh.ne_nil)
    obtain ⟨a, ha⟩ := mesh.nsmul_mem mem0
    obtain ⟨b, hb⟩ := mesh.nsmul_mem mem
    have scaled : (Vector3.ofInt (a ×₃ b) : Vector3 ℝ) = ((kmesh.length : ℝ) ^ 2) • (v0 ×₃ dk) := by
      rw [← ofInt_cross, ← ha, ← hb]
      simp only [LinearMap.map_smul, LinearMap.smul_apply, smul_smul, sq]
    have integral : a ×₃ b ≠ 0 := fun zero => nonzero <| by
      rw [zero, Vector3.ofInt_zero] at scaled
      exact (smul_eq_zero.1 scaled.symm).resolve_left (pow_ne_zero 2 Npos.ne')
    have big : (1 : ℝ) ≤ (kmesh.length : ℝ) ^ 2 * (kmesh.length : ℝ) ^ 2 *
        ((v0 ×₃ dk) ⬝ᵥ (v0 ×₃ dk)) := by
      have := (one_le_dotProduct_ofInt integral : (1 : ℝ) ≤ _)
      rwa [scaled, smul_dotProduct, dotProduct_smul, smul_eq_mul, smul_eq_mul, ← mul_assoc,
        mul_comm ((kmesh.length : ℝ) ^ 2)] at this
    have root : 1 / (kmesh.length : ℝ) ^ 2 ≤ Real.sqrt ((v0 ×₃ dk) ⬝ᵥ (v0 ×₃ dk)) := by
      rw [Real.le_sqrt (by positivity) (dotProduct_self_nonneg _), div_pow, one_pow,
        div_le_iff₀ (by positivity)]
      linarith
    calc symmThreshold * Real.sqrt (v0 ⬝ᵥ v0) ≤ symmThreshold * 1 :=
          mul_le_mul_of_nonneg_left (Real.sqrt_le_one.2 short) positive.le
      _ < 1 / (kmesh.length : ℝ) ^ 2 := by rwa [mul_one]
      _ ≤ _ := root

/-- The test of the third loop is exact on the integer combinations of a basis `v0, v1, w` of
covolume at least `1/N`, for `|v0|, |v1| ≤ 1`. -/
theorem offPlane_iff (positive : 0 < symmThreshold) {N : ℝ} (one_le : 1 ≤ N)
    (fine : symmThreshold < 1 / N ^ 2) {v0 v1 w : Vector3 ℝ} (short0 : v0 ⬝ᵥ v0 ≤ 1)
    (short1 : v1 ⬝ᵥ v1 ≤ 1) (covolume : 1 / N ≤ |v0 ⬝ᵥ (v1 ×₃ w)|) (c : Fin 3 → ℤ) :
    offPlane Real.sqrt symmThreshold v0 v1 (ofColumns v0 v1 w *ᵥ Vector3.ofInt c) = true ↔
      v0 ⬝ᵥ (v1 ×₃ (ofColumns v0 v1 w *ᵥ Vector3.ofInt c)) ≠ 0 := by
  rw [offPlane, decide_eq_true_iff]
  constructor
  · intro larger zero
    rw [zero, abs_zero] at larger
    exact absurd larger (not_lt.2 (mul_nonneg positive.le (Real.sqrt_nonneg _)))
  · intro nonzero
    rw [box_mulVec] at nonzero ⊢
    have coordinate : 1 ≤ |(c 2 : ℝ)| := by
      have entry : c 2 ≠ 0 := by simpa using left_ne_zero_of_mul nonzero
      exact_mod_cast Int.one_le_abs entry
    have area : (v0 ×₃ v1) ⬝ᵥ (v0 ×₃ v1) ≤ 1 := by
      rw [cross_dot_cross, dotProduct_comm v1 v0]
      exact (sub_le_self _ (mul_self_nonneg _)).trans
        (mul_le_one₀ short0 (dotProduct_self_nonneg v1) short1)
    calc symmThreshold * Real.sqrt ((v0 ×₃ v1) ⬝ᵥ (v0 ×₃ v1)) ≤ symmThreshold * 1 :=
          mul_le_mul_of_nonneg_left (Real.sqrt_le_one.2 area) positive.le
      _ < 1 / N ^ 2 := by rwa [mul_one]
      _ ≤ 1 / N := one_div_le_one_div_of_le (by positivity) (le_self_pow₀ one_le two_ne_zero)
      _ ≤ |v0 ⬝ᵥ (v1 ×₃ w)| := covolume
      _ ≤ |(Vector3.ofInt c : Vector3 ℝ) 2 * (v0 ⬝ᵥ (v1 ×₃ w))| := by
        rw [abs_mul, Vector3.ofInt_apply]
        exact le_mul_of_one_le_left (abs_nonneg _) coordinate

end Real

/-! ## The basis -/

/-- A matrix whose integer combinations are exactly the vectors of `L ⊇ ℤ³` has an integer
inverse, whose determinant is `±` the index of `ℤ³` in `L`. -/
theorem exists_integer_inverse {L : AddSubgroup (Vector3 ℝ)} {B : Matrix3 ℝ}
    (combos : ∀ c : Fin 3 → ℤ, B *ᵥ Vector3.ofInt c ∈ L)
    (basis : ∀ l ∈ L, ∃ c : Fin 3 → ℤ, l = B *ᵥ Vector3.ofInt c)
    (integers : ∀ n : Fin 3 → ℤ, (Vector3.ofInt n : Vector3 ℝ) ∈ L) :
    ∃ M : Matrix3 ℤ, B * Matrix3.cast M = 1 ∧
      M.det.natAbs = (integerPoints.addSubgroupOf L).index := by
  choose m hm using fun j => basis _ (integers (Pi.single j 1))
  have inverse : B * Matrix3.cast (Matrix.of fun i j => m j i) = 1 := by
    ext i j
    have := congrFun (hm j) i
    simp only [mulVec, dotProduct, Vector3.ofInt_apply] at this
    simp only [mul_apply, Matrix3.cast_apply, of_apply, one_apply, ← this, Pi.single_apply]
    split_ifs <;> simp
  have inverse' := mul_eq_one_comm.1 inverse
  have detM : (Matrix.of fun i j => m j i).det ≠ 0 := fun zero => by
    have := congrArg det inverse
    rw [det_mul, Matrix3.det_cast, zero, Int.cast_zero, mul_zero, det_one] at this
    exact zero_ne_one this
  -- `c ↦ B·c` maps `ℤ³` onto `L`, and `ℤ³ ⊆ L` pulls back to the range of the inverse
  let φ : (Fin 3 → ℤ) →+ L := AddMonoidHom.mk' (fun c => ⟨B *ᵥ Vector3.ofInt c, combos c⟩)
    fun a b => Subtype.ext (by simp [mulVec_add])
  have surjective : Function.Surjective φ := fun ⟨l, hl⟩ => by
    obtain ⟨c, rfl⟩ := basis l hl
    exact ⟨c, rfl⟩
  have comap : (integerPoints.addSubgroupOf L).comap φ =
      (LinearMap.range (toLin' (Matrix.of fun i j => m j i))).toAddSubgroup := by
    ext c
    simp only [AddSubgroup.mem_comap, AddSubgroup.mem_addSubgroupOf, mem_integerPoints,
      Submodule.mem_toAddSubgroup, LinearMap.mem_range, toLin'_apply]
    constructor
    · rintro ⟨n, hn⟩
      have image : (Vector3.ofInt ((Matrix.of fun i j => m j i) *ᵥ n) : Vector3 ℝ) =
          Vector3.ofInt c := by
        rw [Vector3.ofInt_mulVec, hn]
        show _ *ᵥ (B *ᵥ Vector3.ofInt c) = _
        rw [mulVec_mulVec, inverse', one_mulVec]
      exact ⟨n, Vector3.ofInt_injective image⟩
    · rintro ⟨n, rfl⟩
      refine ⟨n, ?_⟩
      show _ = B *ᵥ _
      rw [Vector3.ofInt_mulVec, mulVec_mulVec, inverse, one_mulVec]
  have index := AddSubgroup.index_comap_of_surjective (integerPoints.addSubgroupOf L) surjective
  rw [comap, index_range_toLin' _ detM] at index
  exact ⟨_, inverse, index⟩

/-- On a Bravais mesh, in exact real arithmetic with `0 < symmThreshold < 1/N²`, the search
loops return a basis of `L`: `kBasis` maps `ℤ³` onto `L` and has an integer inverse of
determinant `±N`. -/
theorem kBasisOf_basis {L : AddSubgroup (Vector3 ℝ)} {kmesh : List (Vector3 ℝ)}
    {symmThreshold : ℝ} (mesh : BravaisMesh L kmesh) (positive : 0 < symmThreshold)
    (fine : symmThreshold < 1 / (kmesh.length : ℝ) ^ 2) :
    (∀ c : Fin 3 → ℤ, kBasisOf Real.sqrt symmThreshold kmesh *ᵥ Vector3.ofInt c ∈ L) ∧
    (∀ l ∈ L, ∃ c : Fin 3 → ℤ, l = kBasisOf Real.sqrt symmThreshold kmesh *ᵥ Vector3.ofInt c) ∧
    ∃ M : Matrix3 ℤ, kBasisOf Real.sqrt symmThreshold kmesh * Matrix3.cast M = 1 ∧
      M.det.natAbs = kmesh.length := by
  obtain ⟨front, rest, rfl⟩ := List.exists_cons_of_ne_nil mesh.ne_nil
  -- the three search loops, with the third test replaced by its exact form
  obtain ⟨v0, hv0, mem0, nonzero0, -, short0, least0⟩ :=
    mesh.pickShortest_least (fun _ => true) (fun _ => True) (fun _ _ => by simp) ⟨0, trivial⟩
  obtain ⟨v1, hv1, mem1, -, cross1, short1, least1⟩ :=
    mesh.pickShortest_least (offLine Real.sqrt symmThreshold v0) (fun l => v0 ×₃ l ≠ 0)
      (fun k mem => mesh.offLine_iff positive fine mem0 (mesh.sub_mem_of_mem mem).1 short0)
      (exists_cross_unitVector nonzero0)
  obtain ⟨w, hw, memw, -, boxw, -, leastw⟩ :=
    mesh.pickShortest_least (fun dk => decide (v0 ⬝ᵥ (v1 ×₃ dk) ≠ 0))
      (fun l => v0 ⬝ᵥ (v1 ×₃ l) ≠ 0) (fun _ _ => decide_eq_true_iff)
      (exists_box_unitVector cross1)
  have greedy := greedy_ofColumns mem0 mem1 memw boxw (fun l hl nz => least0 l hl nz trivial)
    least1 leastw
  have combos := ofColumns_mulVec_ofInt_mem mem0 mem1 memw
  have invertible : (ofColumns v0 v1 w).det ≠ 0 := by rwa [det_ofColumns]
  have basis : ∀ l ∈ L, ∃ c : Fin 3 → ℤ, l = ofColumns v0 v1 w *ᵥ Vector3.ofInt c := by
    intro l hl
    have back : ofColumns v0 v1 w *ᵥ (Matrix3.inv (ofColumns v0 v1 w) *ᵥ l) = l := by
      rw [mulVec_mulVec, mul_inv_self_of_det_ne_zero invertible, one_mulVec]
    obtain ⟨c, hc⟩ := greedy.integral (back.symm ▸ hl :
      ofColumns v0 v1 w *ᵥ (Matrix3.inv (ofColumns v0 v1 w) *ᵥ l) ∈ L)
    exact ⟨c, by rw [← hc, back]⟩
  obtain ⟨M, inverse, index⟩ := exists_integer_inverse combos basis mesh.integers
  rw [mesh.index_eq] at index
  -- the covolume is `1/N`, so the third test is exact
  have covolume : 1 / ((front :: rest).length : ℝ) ≤ |v0 ⬝ᵥ (v1 ×₃ w)| := by
    have product := congrArg (fun A => |det A|) inverse
    simp only [det_mul, Matrix3.det_cast, det_one, abs_mul, abs_one, det_ofColumns] at product
    rw [← Int.cast_abs, Int.abs_eq_natAbs, index] at product
    exact (eq_one_div_of_mul_eq_one_left product).ge
  have third :
      pickShortest (offPlane Real.sqrt symmThreshold v0 v1) (kmesh333 (front :: rest)) = w := by
    rw [← hw, kmesh333_cons]
    refine pickShortest_congr fun k mem => ?_
    obtain ⟨c, hc⟩ := basis _ (mesh.sub_mem_of_mem mem).1
    rw [hc]
    exact Bool.eq_iff_iff.2 ((offPlane_iff positive (by simp) fine short0 short1 covolume c).trans
      decide_eq_true_iff.symm)
  have kBasis : kBasisOf Real.sqrt symmThreshold (front :: rest) = ofColumns v0 v1 w := by
    simp only [kBasisOf, hv0, hv1, third]
  rw [kBasis]
  exact ⟨combos, basis, M, inverse, index⟩

end Jdftx
