/-
# Electronic.ElectronScattering — the k-mesh shuffle of `ElectronScattering::dump`

For load balancing, `dump` shuffles the supercell's `kmesh` in place: for each `ik` below
`kmesh.size()-1` it draws `jk = ik + floor(Random::uniform(kmesh.size()-ik))` and, when
`jk != ik && jk < kmesh.size()`, swaps entry `ik` with entry `jk` of `kmesh` and of
`kmeshTransform`. The draws are a parameter `draw`, so a theorem over every `draw` holds for
every run of the random generator.

* `zip_swapEntries`: swapping two entries of both lists swaps the pairs of the zipped list.
* `foldl_shuffleStep_perm`: every run of the shuffle keeps both lengths and permutes the
  `(kmesh[n], kmeshTransform[n])` pairs.
* `shuffleKmesh_aligned`: after the mesh closure and any run of the shuffle, every record
  still rebuilds its own mesh point exactly, inside the centered zone.
-/
import Jdftx.Core.Supercell.MeshClosure
import Mathlib.Data.List.FinRange

namespace Jdftx

set_option autoImplicit false

/-! ## Swapping two entries -/

section Swap

variable {β : Type}

/-- `std::swap(l[i], l[j])`. Both indices are in range wherever the shuffle swaps; out of
range the list is left as it is. -/
def swapEntries (l : List β) (i j : ℕ) : List β :=
  match l[i]?, l[j]? with
  | some a, some b => (l.set i b).set j a
  | _, _ => l

variable {l : List β} {i j : ℕ}

/-- Entry `k` of the swapped list is entry `swap i j k` of the list. -/
theorem getElem?_swapEntries (hi : i < l.length) (hj : j < l.length) (k : ℕ) :
    (swapEntries l i j)[k]? = l[Equiv.swap i j k]? := by
  simp only [swapEntries, List.getElem?_eq_getElem hi, List.getElem?_eq_getElem hj,
    List.getElem?_set, List.length_set, Equiv.swap_apply_def]
  split_ifs <;> subst_vars <;> simp_all only [not_true_eq_false, List.getElem?_eq_getElem]

@[simp] theorem length_swapEntries : (swapEntries l i j).length = l.length := by
  unfold swapEntries
  split <;> simp

theorem swapEntries_perm (hi : i < l.length) (hj : j < l.length) : (swapEntries l i j).Perm l := by
  have reindex : swapEntries l i j = List.ofFn (l.get ∘ Equiv.swap ⟨i, hi⟩ ⟨j, hj⟩) := by
    refine List.ext_getElem? fun k => ?_
    rw [getElem?_swapEntries hi hj, List.getElem?_ofFn, List.ofFnNthVal]
    split_ifs with hk
    · simp [Fin.val_injective.map_swap]
    · rw [Equiv.swap_apply_of_ne_of_ne (by omega) (by omega), List.getElem?_eq_none (by omega)]
  rw [reindex]
  simpa only [List.ofFn_get] using (Equiv.swap ⟨i, hi⟩ ⟨j, hj⟩).ofFn_comp_perm l.get

/-- Swapping entries `i` and `j` of two lists of one length swaps the pairs of their zip. -/
theorem zip_swapEntries {γ : Type} {l' : List γ} (same : l.length = l'.length)
    (hi : i < l.length) (hj : j < l.length) :
    (swapEntries l i j).zip (swapEntries l' i j) = swapEntries (l.zip l') i j := by
  have hi' : i < (l.zip l').length := by simpa [← same] using hi
  have hj' : j < (l.zip l').length := by simpa [← same] using hj
  refine List.ext_getElem? fun k => ?_
  simp only [List.zip_eq_zipWith, List.getElem?_zipWith]
  rw [← List.zip_eq_zipWith, getElem?_swapEntries hi' hj', List.zip_eq_zipWith,
    List.getElem?_zipWith, getElem?_swapEntries hi hj, getElem?_swapEntries (same ▸ hi) (same ▸ hj)]

end Swap

/-! ## The shuffle -/

variable {α : Type}

/-- Iteration `ik` of the shuffle, with `draw ik` the value of
`floor(Random::uniform(kmesh.size()-ik))`. -/
def shuffleStep (draw : ℕ → ℕ) (st : MeshClosure α) (ik : ℕ) : MeshClosure α :=
  let jk := ik + draw ik
  if jk ≠ ik ∧ jk < st.kmesh.length then
    ⟨swapEntries st.kmesh ik jk, swapEntries st.kmeshTransform ik jk⟩
  else st

/-- The loop `for(ik=0; ik<kmesh.size()-1; ik++)`; the swaps keep `kmesh.size()`. -/
def shuffleKmesh (draw : ℕ → ℕ) (st : MeshClosure α) : MeshClosure α :=
  (List.range (st.kmesh.length - 1)).foldl (shuffleStep draw) st

/-- The pairs `(kmesh[n], kmeshTransform[n])`. -/
def MeshClosure.pairs (st : MeshClosure α) : List (Vector3 α × KmeshTransform) :=
  st.kmesh.zip st.kmeshTransform

/-- One iteration keeps both lengths equal and permutes the pairs. -/
theorem shuffleStep_perm (draw : ℕ → ℕ) {st : MeshClosure α}
    (same : st.kmesh.length = st.kmeshTransform.length) (ik : ℕ) :
    (shuffleStep draw st ik).kmesh.length = st.kmesh.length ∧
      (shuffleStep draw st ik).kmeshTransform.length = st.kmeshTransform.length ∧
      (shuffleStep draw st ik).pairs.Perm st.pairs := by
  dsimp only [shuffleStep]
  split_ifs with swaps
  · have hj : ik + draw ik < st.kmesh.length := swaps.2
    refine ⟨length_swapEntries, length_swapEntries, ?_⟩
    rw [MeshClosure.pairs, zip_swapEntries same (by omega) hj]
    exact swapEntries_perm (by simp [← same]; omega) (by simpa [← same] using hj)
  · exact ⟨rfl, rfl, List.Perm.refl _⟩

/-- Every run of the shuffle keeps both lengths and moves the pairs jointly. -/
theorem foldl_shuffleStep_perm (draw : ℕ → ℕ) :
    ∀ (iks : List ℕ) {st : MeshClosure α}, st.kmesh.length = st.kmeshTransform.length →
      (iks.foldl (shuffleStep draw) st).kmesh.length = st.kmesh.length ∧
      (iks.foldl (shuffleStep draw) st).kmeshTransform.length = st.kmeshTransform.length ∧
      (iks.foldl (shuffleStep draw) st).pairs.Perm st.pairs
  | [], _, _ => ⟨rfl, rfl, List.Perm.refl _⟩
  | ik :: iks, _, same => by
    obtain ⟨mesh, transform, perm⟩ := shuffleStep_perm draw same ik
    obtain ⟨mesh', transform', perm'⟩ :=
      foldl_shuffleStep_perm draw iks (mesh.trans (same.trans transform.symm))
    exact ⟨mesh'.trans mesh, transform'.trans transform, perm'.trans perm⟩

section Aligned

variable [LinearOrderedField α]

/-- Alignment depends only on the multiset of pairs. -/
theorem Aligned.of_perm {kmeshReduced : List (Vector3 α)} {sym : List (Matrix3 ℤ)}
    {st st' : MeshClosure α} (aligned : Aligned kmeshReduced sym st)
    (same : st'.kmesh.length = st'.kmeshTransform.length) (perm : st'.pairs.Perm st.pairs) :
    Aligned kmeshReduced sym st' :=
  ⟨same, fun p mem => aligned.rebuilds p (perm.subset mem)⟩

variable [FloorRing α]

/-- After the mesh closure and any run of the shuffle, `kmesh` and `kmeshTransform` have one
length, every record `T = kmeshTransform[n]` indexes `kmeshReduced` and `sym` and rebuilds
`kmesh[n] = T.invert·(sym[T.iSym])ᵀ·kmeshReduced[T.iReduced] + T.offset` exactly, inside the
centered zone, and the pairs are those of the closure, moved jointly. -/
theorem shuffleKmesh_aligned (find : PeriodicFind α) (kmeshReduced : List (Vector3 α))
    (sym : List (Matrix3 ℤ)) (invertList : List ℤ) (draw : ℕ → ℕ) :
    let closed := closeMesh find kmeshReduced sym invertList
    let st := shuffleKmesh draw closed
    st.kmesh.length = st.kmeshTransform.length ∧
    (∀ (n : ℕ) (k : Vector3 α) (T : KmeshTransform),
      st.kmesh[n]? = some k → st.kmeshTransform[n]? = some T →
        T.iReduced < kmeshReduced.length ∧ T.iSym < sym.length ∧
          Rebuilds kmeshReduced sym k T) ∧
    (st.kmesh.zip st.kmeshTransform).Perm (closed.kmesh.zip closed.kmeshTransform) := by
  intro closed st
  have aligned := closeMesh_aligned find kmeshReduced sym invertList
  obtain ⟨mesh, transform, perm⟩ := foldl_shuffleStep_perm draw
    (List.range (closed.kmesh.length - 1)) aligned.length_eq
  have same : st.kmesh.length = st.kmeshTransform.length :=
    mesh.trans (aligned.length_eq.trans transform.symm)
  have shuffled := aligned.of_perm same perm
  refine ⟨same, fun n k T atMesh atTransform => ?_, perm⟩
  have rebuilds := shuffled.rebuilds_getElem? atMesh atTransform
  obtain ⟨kOrig, m, found, foundSym, -⟩ := rebuilds.1
  exact ⟨(List.getElem?_eq_some_iff.1 found).1, (List.getElem?_eq_some_iff.1 foundSym).1, rebuilds⟩

end Aligned

end Jdftx
