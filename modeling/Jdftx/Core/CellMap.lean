/-
# Core.CellMap — `getCellMap`: the unit cells of a supercell and their weights

`getCellMap(R, Rsup)` lists the unit-cell lattice vectors `i` whose point `R·i` lies in the
Wigner–Seitz cell of the supercell lattice `Rsup = R·S`, each with a weight: `1` inside the
cell, and `1/m` on its boundary, for the `m` boundary vectors that are one point modulo the
supercell lattice. It then asserts that the weights add up to `nCells`, the number of unit
cells in the supercell. The model runs the three loops of the source: the scan of the bounding
box (`cellBox`, `scanStep`), the grouping of the surface cells (`weighSurface`) and the sum
(`weightSum`). `WignerSeitz`, `vector3<>::length()` (`sqrt`) and `round(v, &err)`
(`roundErr`) are not in the sources and enter as parameters; each result says what it assumes
of them.

* `lookup_weighSurface`: the grouping loop gives every surface cell the weight one over the
  number of surface cells its test relates it to.
* `index_range_toLin'`: `S·ℤ³` has index `|det S|` in `ℤ³` (Smith normal form).
* `getCellMap_spec`: in exact arithmetic, with exact Wigner–Seitz queries and
  `symmThreshold < 1/|det S|`, the keys are exactly the vectors `i` with `R·i` in the closed
  cell, each class modulo `S·ℤ³` holds `m ≥ 1` keys of weight `1/m`, the weights add up to
  `|det S| = nCells`, and the final assertion holds.
-/
import Jdftx.Core.WignerSeitz
import Mathlib.Data.List.AList
import Mathlib.Data.Int.AbsoluteValue
import Mathlib.Data.Int.Associated
import Mathlib.LinearAlgebra.FreeModule.Int
import Mathlib.LinearAlgebra.Matrix.ToLinearEquiv
import Mathlib.LinearAlgebra.Dimension.Constructions
import Mathlib.LinearAlgebra.Determinant

namespace Jdftx

set_option autoImplicit false

open Matrix

/-! ## The loops -/

/-- `std::map<vector3<int>, double>`. -/
abbrev CellMap (α : Type) := AList fun _ : Fin 3 → ℤ => α

/-- `for(x = -a; x <= a; x++)`. -/
def intRange (a : ℤ) : List ℤ := (List.range (2 * a + 1).toNat).map fun k : ℕ => -a + (k : ℤ)

/-- The triple loop over `iCell`, with `iCell[2]` innermost. -/
def cellBox (iCellMax : Fin 3 → ℤ) : List (Fin 3 → ℤ) :=
  (intRange (iCellMax 0)).flatMap fun i0 => (intRange (iCellMax 1)).flatMap fun i1 =>
    (intRange (iCellMax 2)).map fun i2 => ![i0, i1, i2]

/-- The map and the list of surface cells that the first loop fills. -/
structure CellScan (α : Type) where
  iCellMap : CellMap α
  iCellSurface : List (Fin 3 → ℤ)

/-- The second loop: take the first surface cell, erase the later ones its test relates to it,
give all of them the weight `1/(1 + equiv.size())`, and go on with the cells left. -/
def weighSurface {α : Type} [LinearOrderedField α] (equiv : (Fin 3 → ℤ) → (Fin 3 → ℤ) → Bool) :
    List (Fin 3 → ℤ) → CellMap α → CellMap α
  | [], iCellMap => iCellMap
  | iCell :: rest, iCellMap =>
    let equivCells := rest.filter (equiv iCell)
    let weight : α := 1 / (1 + equivCells.length)
    weighSurface equiv (rest.filter fun iCell2 => !equiv iCell iCell2)
      (equivCells.foldl (fun m c => m.insert c weight) (iCellMap.insert iCell weight))
termination_by cells => cells.length
decreasing_by exact Nat.lt_succ_of_le (List.length_filter_le _ _)

variable {α : Type} [LinearOrderedField α]

/-- The body of the first loop: surface cells wait for their multiplicity, interior cells get
weight `1`. -/
def scanStep (ws : WignerSeitz α) (superInv : Matrix3 α) (st : CellScan α) (iCell : Fin 3 → ℤ) :
    CellScan α :=
  let xCell := superInv *ᵥ Vector3.ofInt iCell
  if ws.onBoundary xCell then ⟨st.iCellMap, st.iCellSurface ++ [iCell]⟩
  else if 0 < ws.boundaryDistance xCell then ⟨st.iCellMap.insert iCell 1, st.iCellSurface⟩
  else st

/-- The first loop, over the bounding box `iCellMax`. -/
def scanCells (ws : WignerSeitz α) (superInv : Matrix3 α) (iCellMax : Fin 3 → ℤ) : CellScan α :=
  (cellBox iCellMax).foldl (scanStep ws superInv) ⟨∅, []⟩

/-- The test of the second loop: `round(superInv * (iCell2 - iCell), &err)` with
`err < symmThreshold`. -/
def surfaceEquiv (roundErr : Vector3 α → α) (symmThreshold : α) (superInv : Matrix3 α)
    (iCell iCell2 : Fin 3 → ℤ) : Bool :=
  decide (roundErr (superInv *ᵥ Vector3.ofInt (iCell2 - iCell)) < symmThreshold)

/-- The sum of the weights, over the entries of the map. -/
def weightSum (iCellMap : CellMap α) : α := (iCellMap.entries.map Sigma.snd).sum

section Run

variable [FloorRing α]

/-- `iCellMax[l] = 1 + ceil(Rmax * invR.row(l).length())`. -/
def cellBound (sqrt : α → α) (Rmax : α) (invR : Matrix3 α) : Fin 3 → ℤ :=
  fun l => 1 + ⌈Rmax * sqrt (invR l ⬝ᵥ invR l)⌉

/-- The two loops of `getCellMap`: the map before the final check. -/
def collectCells (sqrt : α → α) (roundErr : Vector3 α → α) (symmThreshold : α)
    (ws : WignerSeitz α) (R Rsup : Matrix3 α) : CellMap α :=
  let iCellMax := cellBound sqrt ws.circumRadius (Matrix3.inv R)
  let superInv := Matrix3.inv Rsup * R
  let scan := scanCells ws superInv iCellMax
  weighSurface (surfaceEquiv roundErr symmThreshold superInv) scan.iCellSurface scan.iCellMap

/-- `getCellMap`, without the log and the file dump: `none` when the final `myassert` fails. -/
def getCellMap (sqrt : α → α) (roundErr : Vector3 α → α) (symmThreshold : α)
    (ws : WignerSeitz α) (R Rsup : Matrix3 α) : Option (CellMap α) :=
  let iCellMap := collectCells sqrt roundErr symmThreshold ws R Rsup
  let nCells : ℤ := round |1 / (Matrix3.inv Rsup * R).det|
  if |weightSum iCellMap / nCells - 1| < symmThreshold then some iCellMap else none

end Run

/-! ## The bounding box -/

theorem mem_intRange {a x : ℤ} : x ∈ intRange a ↔ -a ≤ x ∧ x ≤ a := by
  simp only [intRange, List.mem_map, List.mem_range]
  constructor
  · rintro ⟨k, lt, rfl⟩
    omega
  · intro within
    exact ⟨(x + a).toNat, by omega, by omega⟩

theorem nodup_intRange (a : ℤ) : (intRange a).Nodup :=
  (List.nodup_range _).map fun _ _ same => by simpa using same

theorem mem_cellBox {iCellMax i : Fin 3 → ℤ} :
    i ∈ cellBox iCellMax ↔ ∀ l, -iCellMax l ≤ i l ∧ i l ≤ iCellMax l := by
  simp only [cellBox, List.mem_flatMap, List.mem_map, mem_intRange]
  constructor
  · rintro ⟨i0, in0, i1, in1, i2, in2, rfl⟩ l
    fin_cases l <;> assumption
  · intro within
    exact ⟨i 0, within 0, i 1, within 1, i 2, within 2, by ext l; fin_cases l <;> rfl⟩

theorem nodup_cellBox (iCellMax : Fin 3 → ℤ) : (cellBox iCellMax).Nodup := by
  refine List.nodup_flatMap.2 ⟨fun i0 _ => List.nodup_flatMap.2 ⟨fun i1 _ =>
    (nodup_intRange _).map fun a b same => by simpa using congrFun same 2, ?_⟩, ?_⟩
  · refine (nodup_intRange _).imp fun {a b} distinct => List.disjoint_left.2 fun {v} inA inB => ?_
    simp only [List.mem_map] at inA inB
    obtain ⟨_, _, rfl⟩ := inA
    obtain ⟨_, _, same⟩ := inB
    exact distinct (by simpa using (congrFun same 1).symm)
  · refine (nodup_intRange _).imp fun {a b} distinct => List.disjoint_left.2 fun {v} inA inB => ?_
    simp only [List.mem_flatMap, List.mem_map] at inA inB
    obtain ⟨_, _, _, _, rfl⟩ := inA
    obtain ⟨_, _, _, _, same⟩ := inB
    exact distinct (by simpa using (congrFun same 0).symm)

/-! ## The first loop -/

section Scan

variable (ws : WignerSeitz α) (superInv : Matrix3 α)

theorem scanStep_iCellSurface (st : CellScan α) (c : Fin 3 → ℤ) :
    (scanStep ws superInv st c).iCellSurface =
      st.iCellSurface ++ [c].filter fun c => ws.onBoundary (superInv *ᵥ Vector3.ofInt c) := by
  unfold scanStep
  by_cases onBoundary : ws.onBoundary (superInv *ᵥ Vector3.ofInt c) <;>
    by_cases inside : 0 < ws.boundaryDistance (superInv *ᵥ Vector3.ofInt c) <;>
    simp [onBoundary, inside]

theorem scanStep_lookup (st : CellScan α) (c k : Fin 3 → ℤ) :
    (scanStep ws superInv st c).iCellMap.lookup k =
      if k = c ∧ ws.onBoundary (superInv *ᵥ Vector3.ofInt c) = false ∧
          0 < ws.boundaryDistance (superInv *ᵥ Vector3.ofInt c)
      then some 1 else st.iCellMap.lookup k := by
  unfold scanStep
  by_cases same : k = c
  · subst same
    by_cases onBoundary : ws.onBoundary (superInv *ᵥ Vector3.ofInt k) <;>
      by_cases inside : 0 < ws.boundaryDistance (superInv *ᵥ Vector3.ofInt k) <;>
      simp [onBoundary, inside]
  · by_cases onBoundary : ws.onBoundary (superInv *ᵥ Vector3.ofInt c) <;>
      by_cases inside : 0 < ws.boundaryDistance (superInv *ᵥ Vector3.ofInt c) <;>
      simp [onBoundary, inside, same, AList.lookup_insert_ne same]

theorem scan_surface : ∀ (cells : List (Fin 3 → ℤ)) (st : CellScan α),
    (cells.foldl (scanStep ws superInv) st).iCellSurface =
      st.iCellSurface ++ cells.filter fun c => ws.onBoundary (superInv *ᵥ Vector3.ofInt c)
  | [], st => by simp
  | c :: cells, st => by
    rw [List.foldl_cons, scan_surface cells, scanStep_iCellSurface, List.append_assoc,
      ← List.filter_append, List.singleton_append]

theorem scan_lookup : ∀ (cells : List (Fin 3 → ℤ)) (st : CellScan α) (k : Fin 3 → ℤ),
    (cells.foldl (scanStep ws superInv) st).iCellMap.lookup k =
      if k ∈ cells ∧ ws.onBoundary (superInv *ᵥ Vector3.ofInt k) = false ∧
          0 < ws.boundaryDistance (superInv *ᵥ Vector3.ofInt k)
      then some 1 else st.iCellMap.lookup k
  | [], st, k => by simp
  | c :: cells, st, k => by
    rw [List.foldl_cons, scan_lookup cells, scanStep_lookup]
    by_cases same : k = c
    · subst same
      split_ifs <;> simp_all
    · simp [same]

theorem nodup_scanCells (iCellMax : Fin 3 → ℤ) : (scanCells ws superInv iCellMax).iCellSurface.Nodup := by
  rw [scanCells, scan_surface, List.nil_append]
  exact (nodup_cellBox _).filter _

end Scan

/-! ## The second loop -/

section Weigh

variable {β : Type}

/-- `equiv` is reflexive, symmetric and transitive on `cells`. -/
structure EquivOn (equiv : β → β → Bool) (cells : List β) : Prop where
  refl : ∀ a ∈ cells, equiv a a
  symm : ∀ a ∈ cells, ∀ b ∈ cells, equiv a b → equiv b a
  trans : ∀ a ∈ cells, ∀ b ∈ cells, ∀ c ∈ cells, equiv a b → equiv b c → equiv a c

variable {equiv : β → β → Bool} {cells : List β}

theorem EquivOn.mono {cells' : List β} (equivOn : EquivOn equiv cells) (sub : cells' ⊆ cells) :
    EquivOn equiv cells' :=
  ⟨fun a ha => equivOn.refl a (sub ha), fun a ha b hb => equivOn.symm a (sub ha) b (sub hb),
    fun a ha b hb c hc => equivOn.trans a (sub ha) b (sub hb) c (sub hc)⟩

/-- Two related cells relate to the same cells. -/
theorem EquivOn.filter_eq (equivOn : EquivOn equiv cells) {a b : β} (ha : a ∈ cells) (hb : b ∈ cells)
    (related : equiv a b) : cells.filter (equiv b) = cells.filter (equiv a) :=
  List.filter_congr fun c hc => Bool.eq_iff_iff.2
    ⟨fun bc => equivOn.trans a ha b hb c hc related bc,
      fun ac => equivOn.trans b hb a ha c hc (equivOn.symm a ha b hb related) ac⟩

end Weigh

theorem lookup_foldl_insert {γ : Type} (w : γ) :
    ∀ (cells : List (Fin 3 → ℤ)) (m : AList fun _ : Fin 3 → ℤ => γ) (k : Fin 3 → ℤ),
      (cells.foldl (fun m c => m.insert c w) m).lookup k = if k ∈ cells then some w else m.lookup k
  | [], m, k => by simp
  | c :: cells, m, k => by
    rw [List.foldl_cons, lookup_foldl_insert w cells]
    by_cases same : k = c
    · subst same; simp
    · simp [same, AList.lookup_insert_ne same]

/-- The grouping loop, for a test that is an equivalence on the surface cells: each surface
cell gets one over the number of surface cells related to it, and every other key keeps its
value. -/
theorem lookup_weighSurface (equiv : (Fin 3 → ℤ) → (Fin 3 → ℤ) → Bool)
    (cells : List (Fin 3 → ℤ)) (m : CellMap α) (equivOn : EquivOn equiv cells) (k : Fin 3 → ℤ) :
    (weighSurface equiv cells m).lookup k =
      if k ∈ cells then some (1 / ((cells.filter (equiv k)).length : α)) else m.lookup k := by
  induction cells, m using @weighSurface.induct α _ equiv with
  | case1 m => simp [weighSurface]
  | case2 c rest m equivCells weight ih =>
    unfold equivCells weight at ih
    have sub : ∀ {p : (Fin 3 → ℤ) → Bool}, rest.filter p ⊆ c :: rest :=
      fun mem => List.mem_cons_of_mem _ (List.mem_of_mem_filter mem)
    have selfFirst : (c :: rest).filter (equiv c) = c :: rest.filter (equiv c) :=
      List.filter_cons_of_pos (equivOn.refl c (List.mem_cons_self _ _))
    rw [weighSurface, ih (equivOn.mono sub), lookup_foldl_insert]
    by_cases other : k ∈ rest.filter fun b => !equiv c b
    · obtain ⟨inRest, unrelated⟩ := List.mem_filter.1 other
      have same : (c :: rest).filter (equiv k) = (rest.filter fun b => !equiv c b).filter (equiv k) := by
        rw [List.filter_filter, List.filter_cons_of_neg fun kc => by
          simp [equivOn.symm k (List.mem_cons_of_mem _ inRest) c (List.mem_cons_self _ _) kc] at unrelated]
        refine List.filter_congr fun b hb => ?_
        by_cases kb : equiv k b
        · have cb : equiv c b = false := by
            by_contra cb
            have ck := equivOn.trans c (List.mem_cons_self _ _) b (List.mem_cons_of_mem _ hb) k
              (List.mem_cons_of_mem _ inRest) (by simpa using cb)
              (equivOn.symm k (List.mem_cons_of_mem _ inRest) b (List.mem_cons_of_mem _ hb) kb)
            simp [ck] at unrelated
          simp [kb, cb]
        · simp [kb]
      simp [other, List.mem_cons_of_mem _ inRest, same]
    · simp only [other, if_false]
      by_cases related : k ∈ rest.filter (equiv c)
      · obtain ⟨inRest, ck⟩ := List.mem_filter.1 related
        rw [if_pos related, if_pos (List.mem_cons_of_mem _ inRest),
          equivOn.filter_eq (List.mem_cons_self _ _) (List.mem_cons_of_mem _ inRest) ck, selfFirst]
        simp [add_comm]
      · rw [if_neg related]
        by_cases first : k = c
        · subst first
          rw [AList.lookup_insert, if_pos (List.mem_cons_self _ _), selfFirst]
          simp [add_comm]
        · have notInRest : k ∉ rest := fun inRest => by
            by_cases ck : equiv c k
            · exact related (List.mem_filter.2 ⟨inRest, ck⟩)
            · exact other (List.mem_filter.2 ⟨inRest, by simpa using ck⟩)
          rw [AList.lookup_insert_ne first, if_neg (by simp [first, notInRest])]

/-! ## Classes modulo the supercell lattice -/

/-- `S·ℤⁿ` has index `|det S|` in `ℤⁿ`: in a Smith normal form basis the inclusion is diagonal.
The determinant of the inclusion is `det S` up to a unit, and the index is the product of the
diagonal entries. -/
theorem index_range_toLin' {ι : Type} [Fintype ι] [DecidableEq ι] (S : Matrix ι ι ℤ)
    (nonsingular : S.det ≠ 0) :
    (LinearMap.range (Matrix.toLin' S)).toAddSubgroup.index = S.det.natAbs := by
  set N := LinearMap.range (Matrix.toLin' S)
  obtain ⟨n, bM, bN, f, a, snf⟩ := N.smithNormalForm (Pi.basisFun ℤ ι)
  have inj : Function.Injective (Matrix.toLin' S) := by
    rw [← LinearMap.ker_eq_bot, LinearMap.ker_eq_bot']
    intro v zero
    by_contra nonzero
    exact nonsingular (Matrix.exists_mulVec_eq_zero_iff.1 ⟨v, nonzero, zero⟩)
  let e : (ι → ℤ) ≃ₗ[ℤ] N := LinearEquiv.ofInjective _ inj
  have hn : n = Fintype.card ι := by
    have := e.finrank_eq
    rw [Module.finrank_eq_card_basis bN, Module.finrank_fintype_fun_eq_card] at this
    simpa using this.symm
  subst hn
  let σ : Fin (Fintype.card ι) ≃ ι := Equiv.ofBijective f
    ((Fintype.bijective_iff_injective_and_card f).2 ⟨f.injective, by simp⟩)
  let e' : (ι → ℤ) ≃ₗ[ℤ] N := bM.equiv bN σ.symm
  have key : LinearMap.det (N.subtype ∘ₗ (e' : (ι → ℤ) →ₗ[ℤ] N)) = ∏ i, a i := by
    rw [← LinearMap.det_toMatrix bM]
    have diag : LinearMap.toMatrix bM bM (N.subtype ∘ₗ (e' : (ι → ℤ) →ₗ[ℤ] N)) =
        Matrix.diagonal (fun j => a (σ.symm j)) := by
      ext j k
      rw [LinearMap.toMatrix_apply]
      simp only [LinearMap.coe_comp, Function.comp_apply, LinearEquiv.coe_coe, e',
        Basis.equiv_apply, Submodule.coe_subtype, snf]
      have : f (σ.symm k) = k := σ.apply_symm_apply k
      rw [this, LinearEquiv.map_smul, Basis.repr_self, Finsupp.smul_single, smul_eq_mul, mul_one,
        Matrix.diagonal_apply, Finsupp.single_apply]
      rcases eq_or_ne j k with rfl | h <;> simp [*, Ne.symm]
    rw [diag, det_diagonal]
    exact Fintype.prod_equiv σ.symm _ _ (fun _ => rfl)
  have assoc := LinearMap.associated_det_comp_equiv N.subtype e e'
  have hφ : N.subtype ∘ₗ (e : (ι → ℤ) →ₗ[ℤ] N) = Matrix.toLin' S := by
    exact LinearMap.ext fun _ => rfl
  rw [hφ, LinearMap.det_toLin'] at assoc
  rw [(Basis.SmithNormalForm.toAddSubgroup_index_eq_ite ⟨bM, bN, f, a, snf⟩), if_pos rfl]
  simp only [Ideal.span_singleton_toAddSubgroup_eq_zmultiples, Int.index_zmultiples]
  rw [Int.natAbs_eq_iff_associated.2 assoc, key]
  exact (map_prod Int.natAbsHom a Finset.univ).symm

/-- `i` and `j` are one point modulo the supercell lattice `S·ℤ³`: the supercell coordinates
`S⁻¹·(j - i) = adj(S)·(j - i) / det S` of their difference are integers. -/
def SameCell (S : Matrix3 ℤ) (i j : Fin 3 → ℤ) : Prop := ∀ k, S.det ∣ (S.adjugate *ᵥ (j - i)) k

instance (S : Matrix3 ℤ) (i j : Fin 3 → ℤ) : Decidable (SameCell S i j) :=
  inferInstanceAs (Decidable (∀ _, _))

namespace SameCell

variable {S : Matrix3 ℤ} {i j k : Fin 3 → ℤ}

theorem refl (i : Fin 3 → ℤ) : SameCell S i i := fun _ => by simp

theorem symm (same : SameCell S i j) : SameCell S j i := fun l => by
  rw [← neg_sub j i, mulVec_neg, Pi.neg_apply]
  exact (same l).neg_right

theorem trans (ij : SameCell S i j) (jk : SameCell S j k) : SameCell S i k := fun l => by
  rw [← sub_add_sub_cancel k j i, mulVec_add, Pi.add_apply]
  exact (jk l).add (ij l)

end SameCell

/-- For a nonsingular `S`, `SameCell` is equality modulo `S·ℤ³`. -/
theorem sameCell_iff {S : Matrix3 ℤ} (nonsingular : S.det ≠ 0) {i j : Fin 3 → ℤ} :
    SameCell S i j ↔ ∃ n, j = i + S *ᵥ n := by
  constructor
  · intro divides
    choose r hr using divides
    have scaled : S.det • (j - i) = S.det • (S *ᵥ r) :=
      calc S.det • (j - i) = S *ᵥ (S.adjugate *ᵥ (j - i)) := by
            rw [mulVec_mulVec, mul_adjugate, smul_mulVec_assoc, one_mulVec]
        _ = S *ᵥ (S.det • r) :=
            congrArg (S *ᵥ ·) (funext fun l => by rw [hr, Pi.smul_apply, smul_eq_mul])
        _ = S.det • (S *ᵥ r) := mulVec_smul _ _ _
    exact ⟨r, by rw [← smul_right_injective (Fin 3 → ℤ) nonsingular scaled]; abel⟩
  · rintro ⟨n, rfl⟩ l
    exact ⟨n l, by simp [mulVec_mulVec, adjugate_mul, smul_mulVec_assoc]⟩

/-- The classes modulo `S·ℤ³` are the cosets of the range of `S`. -/
theorem mk_eq_mk_iff {S : Matrix3 ℤ} (nonsingular : S.det ≠ 0) {i j : Fin 3 → ℤ} :
    (QuotientAddGroup.mk i : (Fin 3 → ℤ) ⧸ (LinearMap.range (toLin' S)).toAddSubgroup) =
      QuotientAddGroup.mk j ↔ SameCell S i j := by
  rw [QuotientAddGroup.eq, sameCell_iff nonsingular]
  simp only [Submodule.mem_toAddSubgroup, LinearMap.mem_range, toLin'_apply]
  constructor
  · rintro ⟨n, hn⟩
    exact ⟨n, by rw [hn]; abel⟩
  · rintro ⟨n, rfl⟩
    exact ⟨n, by abel⟩

/-- Summing one over the size of its class over a finite set counts the classes. -/
theorem sum_one_div_card_filter {ι Q : Type} [DecidableEq Q] (K : Finset ι) (π : ι → Q) :
    ∑ k ∈ K, (1 : α) / (K.filter fun j => π j = π k).card = (K.image π).card := by
  rw [← Finset.sum_fiberwise_of_maps_to (fun k hk => Finset.mem_image_of_mem π hk),
    Finset.card_eq_sum_ones, Nat.cast_sum]
  refine Finset.sum_congr rfl fun q hq => ?_
  obtain ⟨k, hk, rfl⟩ := Finset.mem_image.1 hq
  have fiber : ∀ j ∈ K.filter (fun j => π j = π k),
      (1 : α) / (K.filter fun l => π l = π j).card = 1 / (K.filter fun l => π l = π k).card :=
    fun j hj => by rw [(Finset.mem_filter.1 hj).2]
  have nonempty : (0 : α) < (K.filter fun l => π l = π k).card :=
    Nat.cast_pos.2 (Finset.card_pos.2 ⟨k, Finset.mem_filter.2 ⟨hk, rfl⟩⟩)
  rw [Finset.sum_congr rfl fiber, Finset.sum_const, nsmul_eq_mul, Nat.cast_one,
    mul_one_div_cancel nonempty.ne']

/-! ## The cell map in exact arithmetic -/

/-- What the model assumes of `round(v, &err)` of `vector3<>`, which is not in the sources:
`err` is zero on integer vectors and bounds the distance of every coordinate to the integer it
is rounded to. -/
structure RoundErrSpec (roundErr : Vector3 α → α) : Prop where
  integral : ∀ n : Fin 3 → ℤ, roundErr (Vector3.ofInt n) = 0
  bound : ∀ v, ∃ n : Fin 3 → ℤ, ∀ k, |v k - (n k : α)| ≤ roundErr v

omit [LinearOrderedField α] in
/-- The number of keys of `iCellMap` in the class of `i` modulo `S·ℤ³`. -/
def classSize (S : Matrix3 ℤ) (iCellMap : CellMap α) (i : Fin 3 → ℤ) : ℕ :=
  (iCellMap.keys.filter fun j => decide (SameCell S i j)).length

omit [LinearOrderedField α] in
/-- One class, one count. -/
theorem classSize_congr {S : Matrix3 ℤ} (iCellMap : CellMap α) {i j : Fin 3 → ℤ}
    (same : SameCell S i j) : classSize S iCellMap j = classSize S iCellMap i := by
  unfold classSize
  exact congrArg List.length
    (List.filter_congr fun l _ => decide_eq_decide.2 ⟨same.trans, same.symm.trans⟩)

/-- The sum over the entries, as a sum over the keys. -/
theorem weightSum_eq_sum_keys (iCellMap : CellMap α) :
    weightSum iCellMap = (iCellMap.keys.map fun j => (iCellMap.lookup j).getD 0).sum := by
  rw [weightSum, AList.keys, List.keys, List.map_map]
  exact congrArg List.sum (List.map_congr_left fun s mem => by
    rw [Function.comp_apply, AList.mem_lookup_iff.2 mem]; rfl)

/-- A map whose keys weigh one over the number of keys of their class gives each class the
weight `1`. -/
theorem class_sum_of_weights {S : Matrix3 ℤ} (iCellMap : CellMap α)
    (weights : ∀ i ∈ iCellMap, iCellMap.lookup i = some (1 / (classSize S iCellMap i : α)))
    {i : Fin 3 → ℤ} (nonempty : 0 < classSize S iCellMap i) :
    ((iCellMap.keys.filter fun j => decide (SameCell S i j)).map
      fun j => (iCellMap.lookup j).getD 0).sum = 1 := by
  have weight : ∀ j ∈ iCellMap.keys.filter (fun j => decide (SameCell S i j)),
      (iCellMap.lookup j).getD 0 = 1 / (classSize S iCellMap i : α) := by
    intro j hj
    obtain ⟨mem, same⟩ := List.mem_filter.1 hj
    rw [weights j (AList.mem_keys.2 mem), classSize_congr _ (of_decide_eq_true same)]
    rfl
  rw [List.map_congr_left weight, List.map_const', List.sum_replicate, nsmul_eq_mul]
  exact mul_one_div_cancel (Nat.cast_pos.2 nonempty).ne'

/-- If moreover every class has a key, the weights add up to the number of classes,
`[ℤ³ : S·ℤ³] = |det S|`. -/
theorem weightSum_of_weights {S : Matrix3 ℤ} (nonsingular : S.det ≠ 0) (iCellMap : CellMap α)
    (weights : ∀ i ∈ iCellMap, iCellMap.lookup i = some (1 / (classSize S iCellMap i : α)))
    (nonempty : ∀ i, ∃ j ∈ iCellMap, SameCell S i j) :
    weightSum iCellMap = |(S.det : α)| := by
  classical
  let π : (Fin 3 → ℤ) → (Fin 3 → ℤ) ⧸ (LinearMap.range (toLin' S)).toAddSubgroup :=
    QuotientAddGroup.mk
  have size : ∀ j, (classSize S iCellMap j : α) =
      (iCellMap.keys.toFinset.filter fun l => π l = π j).card := fun j => by
    rw [classSize, ← List.toFinset_card_of_nodup ((AList.keys_nodup _).filter _),
      List.toFinset_filter]
    exact congrArg (fun n : ℕ => (n : α)) (congrArg Finset.card (Finset.filter_congr fun l _ => by
      rw [decide_eq_true_iff, mk_eq_mk_iff nonsingular]
      exact ⟨SameCell.symm, SameCell.symm⟩))
  have classes : (iCellMap.keys.toFinset.image π : Set _) = Set.univ :=
    Set.eq_univ_of_forall fun q => QuotientAddGroup.induction_on q fun i => by
      obtain ⟨j, mem, same⟩ := nonempty i
      exact Finset.mem_coe.2 (Finset.mem_image.2 ⟨j, List.mem_toFinset.2 (AList.mem_keys.1 mem),
        (mk_eq_mk_iff nonsingular).2 same.symm⟩)
  calc weightSum iCellMap = (iCellMap.keys.map fun j => (1 : α) / classSize S iCellMap j).sum := by
        rw [weightSum_eq_sum_keys]
        exact congrArg List.sum (List.map_congr_left fun j mem => by
          rw [weights j (AList.mem_keys.2 mem)]; rfl)
    _ = ∑ j ∈ iCellMap.keys.toFinset, (1 : α) / (iCellMap.keys.toFinset.filter
          fun l => π l = π j).card := by
        rw [List.sum_toFinset _ (AList.keys_nodup _)]
        simp only [size]
    _ = (iCellMap.keys.toFinset.image π).card := sum_one_div_card_filter _ π
    _ = |(S.det : α)| := by
        rw [← Set.ncard_coe_Finset, classes, Set.ncard_univ, ← AddSubgroup.index,
          index_range_toLin' S nonsingular, Int.cast_natAbs, Int.cast_abs]

theorem inv_mul_self_of_det_ne_zero {M : Matrix3 α} (unit : M.det ≠ 0) :
    Matrix3.inv M * M = 1 := by
  rw [Matrix3.inv_eq]
  exact nonsing_inv_mul M (isUnit_iff_ne_zero.2 unit)

theorem mul_inv_self_of_det_ne_zero {M : Matrix3 α} (unit : M.det ≠ 0) :
    M * Matrix3.inv M = 1 := by
  rw [Matrix3.inv_eq]
  exact mul_nonsing_inv M (isUnit_iff_ne_zero.2 unit)

section Exact

variable {R : Matrix3 α} {S : Matrix3 ℤ}

theorem det_cast_ne_zero (nonsingular : S.det ≠ 0) : (Matrix3.cast S : Matrix3 α).det ≠ 0 := by
  simpa using nonsingular

/-- `superInv = inv(Rsup)·R` is `S⁻¹` for `Rsup = R·S`. -/
theorem superInv_eq (unit : R.det ≠ 0) :
    Matrix3.inv (R * Matrix3.cast S) * R = Matrix3.inv (Matrix3.cast S) := by
  rw [Matrix3.inv_eq, Matrix3.inv_eq, Matrix.mul_inv_rev, Matrix.mul_assoc,
    nonsing_inv_mul _ (isUnit_iff_ne_zero.2 unit), Matrix.mul_one]

/-- The point of the supercell coordinates `S⁻¹·v` is `R·v`. -/
theorem mulVec_inv_cast (nonsingular : S.det ≠ 0) (v : Vector3 α) :
    (R * Matrix3.cast S) *ᵥ (Matrix3.inv (Matrix3.cast S) *ᵥ v) = R *ᵥ v := by
  rw [mulVec_mulVec, Matrix.mul_assoc, mul_inv_self_of_det_ne_zero (det_cast_ne_zero nonsingular),
    Matrix.mul_one]

/-- `S⁻¹·d = adj(S)·d / det S`. -/
theorem inv_cast_mulVec_ofInt (d : Fin 3 → ℤ) :
    Matrix3.inv (Matrix3.cast S : Matrix3 α) *ᵥ Vector3.ofInt d =
      (S.det : α)⁻¹ • Vector3.ofInt (S.adjugate *ᵥ d) := by
  rw [Matrix3.inv, Matrix3.det_cast, smul_mulVec_assoc, Vector3.ofInt_mulVec, Matrix3.cast,
    Matrix3.cast, RingHom.map_adjugate]

/-- Below `1/|det S|`, the test of the second loop is equality modulo `S·ℤ³`: the supercell
coordinates of an integer difference are multiples of `1/det S`, so a non-integer one is at
least `1/|det S|` from every integer. -/
theorem surfaceEquiv_iff {roundErr : Vector3 α → α} {symmThreshold : α}
    (rounding : RoundErrSpec roundErr) (positive : 0 < symmThreshold)
    (fine : symmThreshold < 1 / |(S.det : α)|) (nonsingular : S.det ≠ 0) (i j : Fin 3 → ℤ) :
    surfaceEquiv roundErr symmThreshold (Matrix3.inv (Matrix3.cast S)) i j = true ↔
      SameCell S i j := by
  have det : (S.det : α) ≠ 0 := Int.cast_ne_zero.2 nonsingular
  rw [surfaceEquiv, decide_eq_true_iff, inv_cast_mulVec_ofInt]
  constructor
  · intro small l
    obtain ⟨n, close⟩ := rounding.bound ((S.det : α)⁻¹ • Vector3.ofInt (S.adjugate *ᵥ (j - i)))
    have within := (close l).trans_lt (small.trans fine)
    have scaled : |(((S.adjugate *ᵥ (j - i)) l - n l * S.det : ℤ) : α)| < 1 := by
      have split : (((S.adjugate *ᵥ (j - i)) l - n l * S.det : ℤ) : α) =
          ((S.det : α)⁻¹ • Vector3.ofInt (S.adjugate *ᵥ (j - i)) l - n l) * S.det := by
        simp only [Pi.smul_apply, Vector3.ofInt_apply, smul_eq_mul, Int.cast_sub, Int.cast_mul]
        rw [sub_mul, mul_right_comm, inv_mul_cancel₀ det, one_mul]
      rw [split, abs_mul]
      calc _ < 1 / |(S.det : α)| * |(S.det : α)| :=
            mul_lt_mul_of_pos_right within (abs_pos.2 det)
        _ = 1 := one_div_mul_cancel (abs_ne_zero.2 det)
    have zero : (S.adjugate *ᵥ (j - i)) l - n l * S.det = 0 :=
      Int.abs_lt_one_iff.1 (by exact_mod_cast scaled)
    exact ⟨n l, by linarith⟩
  · intro same
    choose r hr using same
    have integral : (S.det : α)⁻¹ • (Vector3.ofInt (S.adjugate *ᵥ (j - i)) : Vector3 α) =
        Vector3.ofInt r := by
      ext l
      rw [Pi.smul_apply, Vector3.ofInt_apply, Vector3.ofInt_apply, hr, smul_eq_mul, Int.cast_mul,
        inv_mul_cancel_left₀ det]
    rw [integral, rounding.integral]
    exact positive

end Exact

/-- An interior vector is the only vector of its class in the closed cell. -/
theorem eq_of_interior_of_sameCell {R : Matrix3 α} {S : Matrix3 ℤ} (nonsingular : S.det ≠ 0)
    {i j : Fin 3 → ℤ} (interior : InInterior (R * Matrix3.cast S) (R *ᵥ Vector3.ofInt i))
    (cell : InCell (R * Matrix3.cast S) (R *ᵥ Vector3.ofInt j)) (same : SameCell S i j) : j = i := by
  obtain ⟨n, rfl⟩ := (sameCell_iff nonsingular).1 same
  have shifted : R *ᵥ Vector3.ofInt i - (R * Matrix3.cast S) *ᵥ Vector3.ofInt (-n) =
      R *ᵥ Vector3.ofInt (i + S *ᵥ n) := by
    simp only [Vector3.ofInt_add, Vector3.ofInt_neg, Vector3.ofInt_mulVec, mulVec_add, mulVec_neg,
      mulVec_mulVec, sub_neg_eq_add]
  rw [← shifted] at cell
  rw [neg_eq_zero.1 (eq_zero_of_interior_of_inCell interior cell), mulVec_zero, add_zero]

/-- The hypotheses of the exact cell map: an exact square root, nonsingular `R` and `S`, exact
`WignerSeitz` queries for `Rsup = R·S`, a rounding error as `RoundErrSpec` says, and a
threshold in `(0, 1/|det S|)`. -/
structure CellMapHyp (sqrt : α → α) (roundErr : Vector3 α → α) (symmThreshold : α)
    (ws : WignerSeitz α) (R : Matrix3 α) (S : Matrix3 ℤ) : Prop where
  exactSqrt : ∀ x, 0 ≤ x → 0 ≤ sqrt x ∧ sqrt x * sqrt x = x
  unit : R.det ≠ 0
  nonsingular : S.det ≠ 0
  exact : ws.Exact (R * Matrix3.cast S)
  rounding : RoundErrSpec roundErr
  positive : 0 < symmThreshold
  fine : symmThreshold < 1 / |(S.det : α)|

namespace CellMapHyp

variable {sqrt : α → α} {roundErr : Vector3 α → α} {symmThreshold : α} {ws : WignerSeitz α}
  {R : Matrix3 α} {S : Matrix3 ℤ}

theorem onBoundary_iff (hyp : CellMapHyp sqrt roundErr symmThreshold ws R S) (i : Fin 3 → ℤ) :
    ws.onBoundary (Matrix3.inv (Matrix3.cast S) *ᵥ Vector3.ofInt i) = true ↔
      OnBoundary (R * Matrix3.cast S) (R *ᵥ Vector3.ofInt i) := by
  rw [hyp.exact.onBoundary_iff, mulVec_inv_cast hyp.nonsingular]

theorem interior_iff (hyp : CellMapHyp sqrt roundErr symmThreshold ws R S) (i : Fin 3 → ℤ) :
    0 < ws.boundaryDistance (Matrix3.inv (Matrix3.cast S) *ᵥ Vector3.ofInt i) ↔
      InInterior (R * Matrix3.cast S) (R *ᵥ Vector3.ofInt i) := by
  rw [hyp.exact.boundaryDistance_pos_iff, mulVec_inv_cast hyp.nonsingular]

variable [FloorRing α]

/-- The bounding box `1 + ceil(Rmax·|row of R⁻¹|)` holds every vector of the closed cell. -/
theorem mem_cellBox_of_inCell (hyp : CellMapHyp sqrt roundErr symmThreshold ws R S) {i : Fin 3 → ℤ}
    (cell : InCell (R * Matrix3.cast S) (R *ᵥ Vector3.ofInt i)) :
    i ∈ cellBox (cellBound sqrt ws.circumRadius (Matrix3.inv R)) := by
  refine Jdftx.mem_cellBox.2 fun l => ?_
  obtain ⟨rootNonneg, root⟩ := hyp.exactSqrt _ (dotProduct_self_nonneg (Matrix3.inv R l))
  have bound : (i l : α) ^ 2 ≤
      (ws.circumRadius * sqrt (Matrix3.inv R l ⬝ᵥ Matrix3.inv R l)) ^ 2 :=
    calc (i l : α) ^ 2
        ≤ (Matrix3.inv R l ⬝ᵥ Matrix3.inv R l) * ((R *ᵥ Vector3.ofInt i) ⬝ᵥ (R *ᵥ Vector3.ofInt i)) :=
          sq_coord_le (inv_mul_self_of_det_ne_zero hyp.unit) (Vector3.ofInt i) l
      _ ≤ (Matrix3.inv R l ⬝ᵥ Matrix3.inv R l) * ws.circumRadius ^ 2 :=
          mul_le_mul_of_nonneg_left (hyp.exact.circumRadius_bound _ cell) (dotProduct_self_nonneg _)
      _ = _ := by rw [mul_pow, sq (sqrt _), root, mul_comm]
  obtain ⟨lower, upper⟩ :=
    abs_le_of_sq_le_sq' bound (mul_nonneg hyp.exact.circumRadius_nonneg rootNonneg)
  have ceil := Int.le_ceil (ws.circumRadius * sqrt (Matrix3.inv R l ⬝ᵥ Matrix3.inv R l))
  have below : -⌈ws.circumRadius * sqrt (Matrix3.inv R l ⬝ᵥ Matrix3.inv R l)⌉ ≤ i l := by
    have : -((⌈ws.circumRadius * sqrt (Matrix3.inv R l ⬝ᵥ Matrix3.inv R l)⌉ : ℤ) : α) ≤ i l := by
      linarith
    exact_mod_cast this
  have above : i l ≤ ⌈ws.circumRadius * sqrt (Matrix3.inv R l ⬝ᵥ Matrix3.inv R l)⌉ := by
    exact_mod_cast upper.trans ceil
  simp only [cellBound]
  omega


/-- The first loop collects the boundary vectors of the cell as surface cells. -/
theorem mem_surface (hyp : CellMapHyp sqrt roundErr symmThreshold ws R S) (i : Fin 3 → ℤ) :
    i ∈ (scanCells ws (Matrix3.inv (Matrix3.cast S))
        (cellBound sqrt ws.circumRadius (Matrix3.inv R))).iCellSurface ↔
      OnBoundary (R * Matrix3.cast S) (R *ᵥ Vector3.ofInt i) := by
  rw [scanCells, scan_surface, List.nil_append, List.mem_filter, hyp.onBoundary_iff]
  exact ⟨And.right, fun boundary => ⟨hyp.mem_cellBox_of_inCell boundary.1, boundary⟩⟩

open Classical in
/-- The first loop gives every interior vector of the cell the weight `1`. -/
theorem lookup_scanCells (hyp : CellMapHyp sqrt roundErr symmThreshold ws R S) (i : Fin 3 → ℤ) :
    (scanCells ws (Matrix3.inv (Matrix3.cast S))
        (cellBound sqrt ws.circumRadius (Matrix3.inv R))).iCellMap.lookup i =
      if InInterior (R * Matrix3.cast S) (R *ᵥ Vector3.ofInt i) then some 1 else none := by
  rw [scanCells, scan_lookup, AList.lookup_empty]
  by_cases interior : InInterior (R * Matrix3.cast S) (R *ᵥ Vector3.ofInt i)
  · have inside : ws.onBoundary (Matrix3.inv (Matrix3.cast S) *ᵥ Vector3.ofInt i) = false := by
      rw [Bool.eq_false_iff, ne_eq, hyp.onBoundary_iff]
      exact not_onBoundary_of_interior interior
    rw [if_pos ⟨hyp.mem_cellBox_of_inCell (inCell_of_interior interior), inside,
      (hyp.interior_iff i).2 interior⟩, if_pos interior]
  · rw [if_neg fun ⟨_, _, pos⟩ => interior ((hyp.interior_iff i).1 pos), if_neg interior]

/-- `superInv` is `S⁻¹`: the map is the second loop over the results of the first. -/
theorem collectCells_eq (hyp : CellMapHyp sqrt roundErr symmThreshold ws R S) :
    collectCells sqrt roundErr symmThreshold ws R (R * Matrix3.cast S) =
      weighSurface (surfaceEquiv roundErr symmThreshold (Matrix3.inv (Matrix3.cast S)))
        (scanCells ws (Matrix3.inv (Matrix3.cast S))
          (cellBound sqrt ws.circumRadius (Matrix3.inv R))).iCellSurface
        (scanCells ws (Matrix3.inv (Matrix3.cast S))
          (cellBound sqrt ws.circumRadius (Matrix3.inv R))).iCellMap := by
  simp only [collectCells, superInv_eq hyp.unit]

open Classical in
/-- Boundary vectors get one over the number of surface cells of their class, interior vectors
`1`, and no other vector is a key. -/
theorem lookup_collectCells (hyp : CellMapHyp sqrt roundErr symmThreshold ws R S)
    (i : Fin 3 → ℤ) :
    (collectCells sqrt roundErr symmThreshold ws R (R * Matrix3.cast S)).lookup i =
      if i ∈ (scanCells ws (Matrix3.inv (Matrix3.cast S))
          (cellBound sqrt ws.circumRadius (Matrix3.inv R))).iCellSurface
      then some (1 / (((scanCells ws (Matrix3.inv (Matrix3.cast S))
          (cellBound sqrt ws.circumRadius (Matrix3.inv R))).iCellSurface.filter
            (surfaceEquiv roundErr symmThreshold (Matrix3.inv (Matrix3.cast S)) i)).length : α))
      else if InInterior (R * Matrix3.cast S) (R *ᵥ Vector3.ofInt i) then some 1 else none := by
  have test := surfaceEquiv_iff hyp.rounding hyp.positive hyp.fine hyp.nonsingular
  have equivOn : EquivOn (surfaceEquiv roundErr symmThreshold (Matrix3.inv (Matrix3.cast S)))
      (scanCells ws (Matrix3.inv (Matrix3.cast S))
        (cellBound sqrt ws.circumRadius (Matrix3.inv R))).iCellSurface :=
    ⟨fun a _ => (test a a).2 (SameCell.refl a),
      fun a _ b _ ab => (test b a).2 ((test a b).1 ab).symm,
      fun a _ b _ c _ ab bc => (test a c).2 (((test a b).1 ab).trans ((test b c).1 bc))⟩
  rw [hyp.collectCells_eq, lookup_weighSurface _ _ _ equivOn,
    hyp.lookup_scanCells]

/-- The keys are exactly the vectors of the closed cell. -/
theorem mem_collectCells (hyp : CellMapHyp sqrt roundErr symmThreshold ws R S) (i : Fin 3 → ℤ) :
    i ∈ collectCells sqrt roundErr symmThreshold ws R (R * Matrix3.cast S) ↔
      InCell (R * Matrix3.cast S) (R *ᵥ Vector3.ofInt i) := by
  rw [← AList.lookup_isSome, hyp.lookup_collectCells, inCell_iff, ← hyp.mem_surface]
  split_ifs with boundary interior <;> simp [*]

/-- The keys of the class of `i` are the vectors of the class in the closed cell. -/
theorem mem_class (hyp : CellMapHyp sqrt roundErr symmThreshold ws R S) (i j : Fin 3 → ℤ) :
    j ∈ (collectCells sqrt roundErr symmThreshold ws R (R * Matrix3.cast S)).keys.filter
        (fun j => decide (SameCell S i j)) ↔
      InCell (R * Matrix3.cast S) (R *ᵥ Vector3.ofInt j) ∧ SameCell S i j := by
  rw [List.mem_filter, ← AList.mem_keys, hyp.mem_collectCells, decide_eq_true_iff]

/-- An interior vector is alone in its class. -/
theorem classSize_eq_one (hyp : CellMapHyp sqrt roundErr symmThreshold ws R S) {i : Fin 3 → ℤ}
    (interior : InInterior (R * Matrix3.cast S) (R *ᵥ Vector3.ofInt i)) :
    classSize S (collectCells sqrt roundErr symmThreshold ws R (R * Matrix3.cast S)) i = 1 := by
  refine List.Perm.length_eq (?_ : List.Perm _ [i])
  refine (List.perm_ext_iff_of_nodup ((AList.keys_nodup _).filter _) (List.nodup_singleton i)).2
    fun j => ?_
  rw [hyp.mem_class, List.mem_singleton]
  exact ⟨fun ⟨cell, same⟩ => eq_of_interior_of_sameCell hyp.nonsingular interior cell same,
    fun same => by subst same; exact ⟨inCell_of_interior interior, SameCell.refl j⟩⟩

/-- The surface cells the test relates to a boundary vector are the keys of its class: a
vector of its class in the closed cell cannot be interior. -/
theorem length_filter_surface (hyp : CellMapHyp sqrt roundErr symmThreshold ws R S)
    {i : Fin 3 → ℤ} (boundary : OnBoundary (R * Matrix3.cast S) (R *ᵥ Vector3.ofInt i)) :
    ((scanCells ws (Matrix3.inv (Matrix3.cast S))
        (cellBound sqrt ws.circumRadius (Matrix3.inv R))).iCellSurface.filter
          (surfaceEquiv roundErr symmThreshold (Matrix3.inv (Matrix3.cast S)) i)).length =
      classSize S (collectCells sqrt roundErr symmThreshold ws R (R * Matrix3.cast S)) i := by
  refine List.Perm.length_eq ((List.perm_ext_iff_of_nodup ((nodup_scanCells _ _ _).filter _)
    ((AList.keys_nodup _).filter _)).2 fun j => ?_)
  rw [hyp.mem_class, List.mem_filter, hyp.mem_surface,
    surfaceEquiv_iff hyp.rounding hyp.positive hyp.fine hyp.nonsingular]
  refine ⟨fun ⟨onBoundary, same⟩ => ⟨onBoundary.1, same⟩, fun ⟨cell, same⟩ => ⟨?_, same⟩⟩
  rcases (inCell_iff _ _).1 cell with interior | onBoundary
  · exact eq_of_interior_of_sameCell hyp.nonsingular interior boundary.1 same.symm ▸ boundary
  · exact onBoundary

/-- Every key weighs one over the number of keys of its class. -/
theorem lookup_collectCells_of_mem (hyp : CellMapHyp sqrt roundErr symmThreshold ws R S)
    {i : Fin 3 → ℤ} (mem : i ∈ collectCells sqrt roundErr symmThreshold ws R (R * Matrix3.cast S)) :
    (collectCells sqrt roundErr symmThreshold ws R (R * Matrix3.cast S)).lookup i =
      some (1 / (classSize S (collectCells sqrt roundErr symmThreshold ws R (R * Matrix3.cast S)) i : α)) := by
  rw [hyp.lookup_collectCells]
  rcases (inCell_iff _ _).1 ((hyp.mem_collectCells i).1 mem) with interior | boundary
  · rw [if_neg fun surface => not_onBoundary_of_interior interior ((hyp.mem_surface i).1 surface),
      if_pos interior, hyp.classSize_eq_one interior, Nat.cast_one, div_one]
  · rw [if_pos ((hyp.mem_surface i).2 boundary), hyp.length_filter_surface boundary]

/-- Every class has a key: the closest point of the supercell lattice to `R·i` moves `i` into
the closed cell. -/
theorem exists_mem_class (hyp : CellMapHyp sqrt roundErr symmThreshold ws R S) (i : Fin 3 → ℤ) :
    ∃ j ∈ collectCells sqrt roundErr symmThreshold ws R (R * Matrix3.cast S), SameCell S i j := by
  have det : (R * Matrix3.cast S).det ≠ 0 := by
    rw [det_mul]
    exact mul_ne_zero hyp.unit (det_cast_ne_zero hyp.nonsingular)
  obtain ⟨m, cell⟩ := exists_inCell_translate (inv_mul_self_of_det_ne_zero det) (R *ᵥ Vector3.ofInt i)
  refine ⟨i + S *ᵥ -m, (hyp.mem_collectCells _).2 ?_, (sameCell_iff hyp.nonsingular).2 ⟨-m, rfl⟩⟩
  convert cell using 1
  simp only [Vector3.ofInt_add, Vector3.ofInt_mulVec, Vector3.ofInt_neg, mulVec_add, mulVec_neg,
    mulVec_mulVec, sub_eq_add_neg]

theorem classSize_pos (hyp : CellMapHyp sqrt roundErr symmThreshold ws R S) (i : Fin 3 → ℤ) :
    0 < classSize S (collectCells sqrt roundErr symmThreshold ws R (R * Matrix3.cast S)) i := by
  obtain ⟨j, mem, same⟩ := hyp.exists_mem_class i
  exact List.length_pos_of_mem ((hyp.mem_class i j).2 ⟨(hyp.mem_collectCells j).1 mem, same⟩)

/-- The weights of every class add up to `1`. -/
theorem class_sum (hyp : CellMapHyp sqrt roundErr symmThreshold ws R S) (i : Fin 3 → ℤ) :
    (((collectCells sqrt roundErr symmThreshold ws R (R * Matrix3.cast S)).keys.filter
        fun j => decide (SameCell S i j)).map
      fun j => ((collectCells sqrt roundErr symmThreshold ws R (R * Matrix3.cast S)).lookup j).getD 0).sum =
      1 :=
  class_sum_of_weights _ (fun _ => hyp.lookup_collectCells_of_mem) (hyp.classSize_pos i)

/-- The weights add up to `|det S|`. -/
theorem weightSum_eq (hyp : CellMapHyp sqrt roundErr symmThreshold ws R S) :
    weightSum (collectCells sqrt roundErr symmThreshold ws R (R * Matrix3.cast S)) =
      |(S.det : α)| :=
  weightSum_of_weights hyp.nonsingular _ (fun _ => hyp.lookup_collectCells_of_mem)
    hyp.exists_mem_class

/-- `nCells = round(|1/det(superInv)|)` is `|det S|`. -/
theorem nCells_eq (hyp : CellMapHyp sqrt roundErr symmThreshold ws R S) :
    round |1 / (Matrix3.inv (R * Matrix3.cast S) * R).det| = |S.det| := by
  rw [superInv_eq hyp.unit, Matrix3.inv_eq, det_nonsing_inv, Ring.inverse_eq_inv', one_div,
    inv_inv, Matrix3.det_cast, ← Int.cast_abs, round_intCast]

/-- The final assertion holds: `getCellMap` returns the collected map. -/
theorem getCellMap_eq (hyp : CellMapHyp sqrt roundErr symmThreshold ws R S) :
    getCellMap sqrt roundErr symmThreshold ws R (R * Matrix3.cast S) =
      some (collectCells sqrt roundErr symmThreshold ws R (R * Matrix3.cast S)) := by
  simp only [getCellMap]
  rw [hyp.nCells_eq, if_pos]
  rw [hyp.weightSum_eq, Int.cast_abs, div_self (abs_ne_zero.2 (Int.cast_ne_zero.2 hyp.nonsingular)),
    sub_self, abs_zero]
  exact hyp.positive

end CellMapHyp

/-! ## In exact real arithmetic -/

/-- `getCellMap(R, R·S)` in exact real arithmetic, with the real square root for
`vector3<>::length()`: it returns; its keys are the integer vectors `i` with `R·i` in the closed
Wigner–Seitz cell of `R·S`; every class modulo `S·ℤ³` holds `m ≥ 1` keys, each of weight `1/m`,
so the weights of a class add up to `1`; all weights add up to `|det S|`, which is `nCells`. -/
theorem getCellMap_spec (roundErr : Vector3 ℝ → ℝ) (symmThreshold : ℝ) (ws : WignerSeitz ℝ)
    (R : Matrix3 ℝ) (S : Matrix3 ℤ) (unit : R.det ≠ 0) (nonsingular : S.det ≠ 0)
    (exact : ws.Exact (R * Matrix3.cast S)) (rounding : RoundErrSpec roundErr)
    (positive : 0 < symmThreshold) (fine : symmThreshold < 1 / |(S.det : ℝ)|) :
    ∃ iCellMap, getCellMap Real.sqrt roundErr symmThreshold ws R (R * Matrix3.cast S) =
        some iCellMap ∧
      (∀ i, i ∈ iCellMap ↔ InCell (R * Matrix3.cast S) (R *ᵥ Vector3.ofInt i)) ∧
      (∀ i, 0 < classSize S iCellMap i ∧ ∀ j ∈ iCellMap, SameCell S i j →
        iCellMap.lookup j = some (1 / (classSize S iCellMap i : ℝ))) ∧
      (∀ i, ((iCellMap.keys.filter fun j => decide (SameCell S i j)).map
        fun j => (iCellMap.lookup j).getD 0).sum = 1) ∧
      weightSum iCellMap = |(S.det : ℝ)| ∧
      round |1 / (Matrix3.inv (R * Matrix3.cast S) * R).det| = |S.det| := by
  have hyp : CellMapHyp Real.sqrt roundErr symmThreshold ws R S :=
    ⟨fun x nonneg => ⟨Real.sqrt_nonneg x, Real.mul_self_sqrt nonneg⟩, unit, nonsingular, exact,
      rounding, positive, fine⟩
  refine ⟨_, hyp.getCellMap_eq, hyp.mem_collectCells, fun i => ⟨hyp.classSize_pos i,
    fun j mem same => ?_⟩, hyp.class_sum, hyp.weightSum_eq, hyp.nCells_eq⟩
  rw [← classSize_congr _ same]
  exact hyp.lookup_collectCells_of_mem mem

/-- The closed Wigner–Seitz cell of the rectangular lattice `diagonal c` lies in the box
`|y k| ≤ c k / 2`. -/
theorem sq_le_of_inCell_diagonal {c : Fin 3 → ℝ} {y : Vector3 ℝ} (cell : InCell (diagonal c) y)
    {k : Fin 3} (pos : 0 < c k) : (2 * y k) ^ 2 ≤ c k ^ 2 := by
  have single : ∀ x : ℤ, diagonal c *ᵥ Vector3.ofInt (Pi.single k x) = Pi.single k (c k * x) :=
    fun x => funext fun l => by
      by_cases same : l = k
      · subst same; simp [mulVec_diagonal]
      · simp [mulVec_diagonal, same]
  have up := cell (Pi.single k 1)
  have down := cell (Pi.single k (-1))
  simp only [distSq, single, sub_dotProduct, dotProduct_sub, dotProduct_single,
    single_dotProduct, Pi.sub_apply, Pi.single_eq_same] at up down
  push_cast at up down
  have below : 2 * y k ≤ c k := le_of_mul_le_mul_left (by linarith) pos
  have above : -c k ≤ 2 * y k := le_of_mul_le_mul_left (by linarith) pos
  exact sq_le_sq' above below

/-- The rounding error `Σ|v_k - round(v_k)|` is one that `RoundErrSpec` describes. -/
theorem roundErrSpec_sum : RoundErrSpec fun v : Vector3 ℝ => ∑ k, |v k - round (v k)| :=
  ⟨fun n => by simp [round_intCast], fun v => ⟨fun k => round (v k), fun k =>
    Finset.single_le_sum (fun k _ => abs_nonneg (v k - round (v k))) (Finset.mem_univ k)⟩⟩

open Classical in
/-- The supercell `diag(2,1,1)` of the simple cubic lattice, with exact Wigner–Seitz queries,
circumradius `2` and the rounding error `Σ|v_k - round(v_k)|`: two cells, weights summing to
`2`. -/
theorem getCellMap_spec_double :
    let ws : WignerSeitz ℝ :=
      ⟨fun x => decide (OnBoundary (diagonal ![2, 1, 1]) (diagonal ![2, 1, 1] *ᵥ x)),
        fun x => if InInterior (diagonal ![2, 1, 1]) (diagonal ![2, 1, 1] *ᵥ x) then 1 else 0, 2⟩
    let roundErr : Vector3 ℝ → ℝ := fun v => ∑ k, |v k - round (v k)|
    (diagonal ![2, 1, 1] : Matrix3 ℤ).det = 2 ∧
    ws.Exact ((1 : Matrix3 ℝ) * Matrix3.cast (diagonal ![2, 1, 1])) ∧ RoundErrSpec roundErr ∧
    ∃ iCellMap, getCellMap Real.sqrt roundErr (1 / 10000) ws 1
        ((1 : Matrix3 ℝ) * Matrix3.cast (diagonal ![2, 1, 1])) = some iCellMap ∧
      (∀ i, i ∈ iCellMap ↔ InCell ((1 : Matrix3 ℝ) * Matrix3.cast (diagonal ![2, 1, 1]))
        ((1 : Matrix3 ℝ) *ᵥ Vector3.ofInt i)) ∧
      (∀ i, 0 < classSize (diagonal ![2, 1, 1]) iCellMap i ∧ ∀ j ∈ iCellMap,
        SameCell (diagonal ![2, 1, 1]) i j →
          iCellMap.lookup j = some (1 / (classSize (diagonal ![2, 1, 1]) iCellMap i : ℝ))) ∧
      (∀ i, ((iCellMap.keys.filter fun j => decide (SameCell (diagonal ![2, 1, 1]) i j)).map
        fun j => (iCellMap.lookup j).getD 0).sum = 1) ∧
      weightSum iCellMap = |((diagonal ![2, 1, 1] : Matrix3 ℤ).det : ℝ)| ∧
      round |1 / (Matrix3.inv ((1 : Matrix3 ℝ) * Matrix3.cast (diagonal ![2, 1, 1])) * 1).det| =
        |(diagonal ![2, 1, 1] : Matrix3 ℤ).det| := by
  intro ws roundErr
  have det : (diagonal ![2, 1, 1] : Matrix3 ℤ).det = 2 := by simp [det_diagonal, Fin.prod_univ_three]
  have lattice : (1 : Matrix3 ℝ) * Matrix3.cast (diagonal ![2, 1, 1]) = diagonal ![2, 1, 1] := by
    rw [one_mul, Matrix3.cast_diagonal]
    exact congrArg diagonal (funext fun i => by fin_cases i <;> simp)
  have exact : ws.Exact ((1 : Matrix3 ℝ) * Matrix3.cast (diagonal ![2, 1, 1])) := by
    rw [lattice]
    refine ⟨fun x => by simp [ws], fun x => ?_, by norm_num, fun y cell => ?_⟩
    · by_cases interior : InInterior (diagonal ![2, 1, 1]) (diagonal ![2, 1, 1] *ᵥ x) <;>
        simp [ws, interior]
    · have box0 : (2 * y 0) ^ 2 ≤ 2 ^ 2 := sq_le_of_inCell_diagonal cell (k := 0) (by norm_num)
      have box1 : (2 * y 1) ^ 2 ≤ 1 ^ 2 := sq_le_of_inCell_diagonal cell (k := 1) (by norm_num)
      have box2 : (2 * y 2) ^ 2 ≤ 1 ^ 2 := sq_le_of_inCell_diagonal cell (k := 2) (by norm_num)
      simp only [dotProduct, Fin.sum_univ_three]
      linarith
  have rounding : RoundErrSpec roundErr := roundErrSpec_sum
  exact ⟨det, exact, rounding, getCellMap_spec roundErr (1 / 10000) ws 1 _ (by simp)
    (by rw [det]; norm_num) exact rounding (by norm_num) (by rw [det]; norm_num)⟩

end Jdftx
