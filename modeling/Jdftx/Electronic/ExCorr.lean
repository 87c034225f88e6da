/-
# Electronic.ExCorr — the interleaved layout of the LibXC interface

For a spin-polarised density `ExCorr::operator()` (electronic/ExCorr.cpp) hands LibXC its inputs
with the spin components of each grid point side by side: `transpose<M>(inVec)` interleaves `M`
scalar fields of `nElem` values into one array, value `n` of field `m` at `n*M + m`. After LibXC
has filled its outputs in that order, `transpose<M>(in, outVec)` stores them back into the fields.

* `transpose_roundTrip`: on `M ≥ 1` fields of one size the two functions are inverse to each
  other: the interleaved array stored into any `M` fields of that size gives back the fields, and
  an array of `M·nElem` values stored into fields and interleaved again gives back the array.

A scalar field is the list of its values. Both functions take `nElem` from field 0 and index the
other fields by it; a read or a store outside an array, which C++ leaves undefined, is `none`.
-/
import Mathlib.Data.List.Basic
import Mathlib.Tactic.Ring

namespace Jdftx.Electronic.ExCorr

set_option autoImplicit false

variable {α β γ : Type}

/-- `mapM` over `Option` of a function that succeeds on every element: the list of its values. -/
theorem mapM_spec {f : β → Option γ} {l : List β} (ok : ∀ x ∈ l, (f x).isSome) :
    ∃ w : List γ, l.mapM f = some w ∧ w.length = l.length ∧ ∀ i : ℕ, w[i]? = l[i]?.bind f := by
  induction l with
  | nil => exact ⟨[], rfl, rfl, fun _ => rfl⟩
  | cons x l ih =>
    obtain ⟨y, hy⟩ := Option.isSome_iff_exists.1 (ok x (List.mem_cons_self x l))
    obtain ⟨w, hw, length, entries⟩ := ih fun z hz => ok z (List.mem_cons_of_mem x hz)
    refine ⟨y :: w, by rw [List.mapM_cons, hy, hw]; rfl, by simp [length], fun i => ?_⟩
    cases i with
    | zero => simp [hy]
    | succ i => simp [entries]

/-- The loop nest `for(n < N) for(m < M)` of both functions, its body at `(m, n)` in order: the
element `n*M + m` of the interleaved array. -/
def interleaved (M N : ℕ) (g : ℕ → ℕ → α) : List α :=
  (List.range N).flatMap fun n => (List.range M).map fun m => g m n

theorem length_interleaved (M N : ℕ) (g : ℕ → ℕ → α) : (interleaved M N g).length = N * M := by
  induction N with
  | zero => simp [interleaved]
  | succ N ih =>
    rw [interleaved, List.range_succ, List.flatMap_append, List.length_append, ← interleaved, ih,
      List.flatMap_singleton, List.length_map, List.length_range, Nat.succ_mul]

/-- Element `n*M + m` of the interleaved order lies below `N·M`. -/
theorem index_lt {M N m n : ℕ} (hn : n < N) (hm : m < M) : n * M + m < N * M :=
  calc n * M + m < n * M + M := by omega
    _ = (n + 1) * M := by ring
    _ ≤ N * M := Nat.mul_le_mul_right M hn

theorem getElem?_interleaved (g : ℕ → ℕ → α) {M N m n : ℕ} (hm : m < M) (hn : n < N) :
    (interleaved M N g)[n * M + m]? = some (g m n) := by
  induction N with
  | zero => omega
  | succ N ih =>
    rw [interleaved, List.range_succ, List.flatMap_append, ← interleaved, List.flatMap_singleton]
    rcases Nat.lt_succ_iff_lt_or_eq.1 hn with before | last
    · rw [List.getElem?_append_left (by rw [length_interleaved]; exact index_lt before hm), ih before]
    · subst last
      rw [List.getElem?_append_right (by rw [length_interleaved]; omega), length_interleaved,
        Nat.add_sub_cancel_left, List.getElem?_map, List.getElem?_range hm]
      rfl

theorem mem_interleaved {M N : ℕ} {k : ℕ × ℕ} (mem : k ∈ interleaved M N fun m n => (m, n)) :
    k.1 < M ∧ k.2 < N := by
  obtain ⟨n, hn, hk⟩ := List.mem_flatMap.1 mem
  obtain ⟨m, hm, rfl⟩ := List.mem_map.1 hk
  exact ⟨List.mem_range.1 hm, List.mem_range.1 hn⟩

/-- Two arrays of `N·M` elements that agree at every `n*M + m` are equal. -/
theorem ext_interleaved {M N : ℕ} {w w' : List α} (length : w.length = N * M)
    (length' : w'.length = N * M)
    (same : ∀ m < M, ∀ n < N, w[n * M + m]? = w'[n * M + m]?) : w = w' := by
  refine List.ext_getElem? fun i => ?_
  by_cases inside : i < N * M
  · have pos : 0 < M := Nat.pos_of_ne_zero fun zero => by simp [zero] at inside
    rw [← Nat.div_add_mod' i M]
    exact same _ (Nat.mod_lt i pos) _ ((Nat.div_lt_iff_lt_mul pos).2 inside)
  · rw [List.getElem?_eq_none (by omega), List.getElem?_eq_none (by omega)]

/-- Two lists of `M` fields of `N` values that agree at every value are equal. -/
theorem ext_fields {M N : ℕ} {fs fs' : List (List α)} (length : fs.length = M)
    (length' : fs'.length = M) (sizes : ∀ f ∈ fs, f.length = N) (sizes' : ∀ f ∈ fs', f.length = N)
    (same : ∀ m < M, ∀ n < N, fs[m]?.bind (·[n]?) = fs'[m]?.bind (·[n]?)) : fs = fs' := by
  refine List.ext_getElem (by rw [length, length']) fun m hm hm' => List.ext_getElem?
    fun n => ?_
  have size := sizes _ (List.getElem_mem hm)
  have size' := sizes' _ (List.getElem_mem hm')
  by_cases inside : n < N
  · simpa [List.getElem?_eq_getElem hm, List.getElem?_eq_getElem hm'] using
      same m (by omega) n inside
  · rw [List.getElem?_eq_none (by omega), List.getElem?_eq_none (by omega)]

/-- `transpose<M>(const ScalarFieldArray& inVec)`: `*(outPtr++) = in[m][n]` over the loop nest,
with `N = inVec[0]->nElem`; `none` when `myassert(inVec.size()==M)` fails or a read leaves its
field. -/
def transpose (M : ℕ) (inVec : List (List α)) : Option (List α) :=
  if inVec.length = M then do
    let N := (← inVec.head?).length
    (interleaved M N fun m n => (m, n)).mapM fun k => inVec[k.1]?.bind (·[k.2]?)
  else none

/-- `transpose<M>(double* in, ScalarFieldArray& outVec)`: `out[m][n] = *(inPtr++)` over the loop
nest, with `N = outVec[0]->nElem`, the values of each field from `N` on kept; `none` when
`myassert(outVec.size()==M)` fails or an access leaves its array. The stores touch distinct
elements, so they are grouped here by field. -/
def transposeInto (M : ℕ) (input : List α) (outVec : List (List α)) : Option (List (List α)) :=
  if outVec.length = M then do
    let N := (← outVec.head?).length
    (List.range M).mapM fun m => do
      let field ← outVec[m]?
      if field.length < N then none
      else
        let values ← (List.range N).mapM fun n => input[n * M + m]?
        pure (values ++ field.drop N)
  else none

section Layout

variable {M N : ℕ} (pos : 0 < M)

include pos in
/-- The first field of `M ≥ 1` fields of `N` values each has `N` values. -/
theorem head?_length {fs : List (List α)} (length : fs.length = M)
    (sizes : ∀ f ∈ fs, f.length = N) : (fs.head?).map List.length = some N := by
  obtain ⟨f, rest, rfl⟩ := List.exists_cons_of_length_pos (by omega : 0 < fs.length)
  simp [sizes f (List.mem_cons_self f rest)]

include pos in
/-- `transpose<M>(inVec)` puts value `n` of field `m` at `n*M + m` of an array of `N·M`. -/
theorem transpose_spec {inVec : List (List α)} (length : inVec.length = M)
    (sizes : ∀ f ∈ inVec, f.length = N) :
    ∃ w, transpose M inVec = some w ∧ w.length = N * M ∧
      ∀ m < M, ∀ n < N, w[n * M + m]? = inVec[m]?.bind (·[n]?) := by
  obtain ⟨f0, rest, hf0⟩ := List.exists_cons_of_length_pos (by omega : 0 < inVec.length)
  have first : f0.length = N := sizes f0 (by simp [hf0])
  obtain ⟨w, hw, wLength, entries⟩ := @mapM_spec _ _ (fun k : ℕ × ℕ => inVec[k.1]?.bind (·[k.2]?))
    (interleaved M N fun m n => (m, n)) fun k mem => by
      obtain ⟨hm, hn⟩ := mem_interleaved mem
      have := sizes _ (List.getElem_mem (by omega : k.1 < inVec.length))
      simp [List.getElem?_eq_getElem (by omega : k.1 < inVec.length), this, hn]
  refine ⟨w, ?_, by rw [wLength, length_interleaved], fun m hm n hn => ?_⟩
  · have head : inVec.head? = some f0 := by rw [hf0]; rfl
    simp only [transpose, if_pos length, head, Option.bind_eq_bind, Option.some_bind, first, hw]
  · rw [entries, getElem?_interleaved _ hm hn]
    rfl

include pos in
/-- `transpose<M>(in, outVec)` on `M` fields of `N` values and an array of `N·M` stores element
`n*M + m` at value `n` of field `m`, and keeps the shape of the fields. -/
theorem transposeInto_spec {input : List α} {outVec : List (List α)} (length : outVec.length = M)
    (sizes : ∀ f ∈ outVec, f.length = N) (inputLength : input.length = N * M) :
    ∃ fs, transposeInto M input outVec = some fs ∧ fs.length = M ∧ (∀ f ∈ fs, f.length = N) ∧
      ∀ m < M, ∀ n < N, fs[m]?.bind (·[n]?) = input[n * M + m]? := by
  obtain ⟨f0, rest, hf0⟩ := List.exists_cons_of_length_pos (by omega : 0 < outVec.length)
  have first : f0.length = N := sizes f0 (by simp [hf0])
  have field (m : ℕ) (hm : m < M) : ∃ v, (do
      let field ← outVec[m]?
      if field.length < N then none
      else
        let values ← (List.range N).mapM fun n => input[n * M + m]?
        pure (values ++ field.drop N)) = some v ∧ v.length = N ∧
        ∀ n < N, v[n]? = input[n * M + m]? := by
    have size := sizes _ (List.getElem_mem (by omega : m < outVec.length))
    obtain ⟨v, hv, vLength, entries⟩ :=
      @mapM_spec _ _ (fun n => input[n * M + m]?) (List.range N) fun n mem => by
        have := index_lt (List.mem_range.1 mem) hm
        simp [List.getElem?_eq_getElem (by omega : n * M + m < input.length)]
    refine ⟨v, ?_, by rw [vLength, List.length_range], fun n hn => ?_⟩
    · simp only [List.getElem?_eq_getElem (by omega : m < outVec.length), Option.bind_eq_bind,
        Option.some_bind, size, lt_self_iff_false, if_false, hv, List.drop_eq_nil_of_le size.le,
        List.append_nil]
      rfl
    · rw [entries, List.getElem?_range hn]
      rfl
  obtain ⟨fs, hfs, fsLength, fsEntries⟩ := @mapM_spec _ _ (fun m => do
      let field ← outVec[m]?
      if field.length < N then none
      else
        let values ← (List.range N).mapM fun n => input[n * M + m]?
        pure (values ++ field.drop N)) (List.range M) fun m mem => by
    obtain ⟨v, hv, -, -⟩ := field m (List.mem_range.1 mem)
    simp only [hv, Option.isSome_some]
  have fields (m : ℕ) (hm : m < M) : ∃ v, fs[m]? = some v ∧ v.length = N ∧
      ∀ n < N, v[n]? = input[n * M + m]? := by
    rw [fsEntries, List.getElem?_range hm, Option.some_bind]
    exact field m hm
  have head : outVec.head? = some f0 := by rw [hf0]; rfl
  refine ⟨fs, ?_, fsLength.trans (List.length_range M), fun f mem => ?_, fun m hm n hn => ?_⟩
  · simp only [transposeInto, if_pos length, head, Option.bind_eq_bind, Option.some_bind, first]
    exact hfs
  · obtain ⟨m, hm⟩ := List.mem_iff_getElem?.1 mem
    have inside : m < M := by
      simpa [fsLength] using (List.getElem?_eq_some_iff.1 hm).1
    obtain ⟨v, hv, vLength, -⟩ := fields m inside
    rw [hm] at hv
    exact Option.some_injective _ hv ▸ vLength
  · obtain ⟨v, hv, -, entries⟩ := fields m hm
    rw [hv, Option.some_bind, entries n hn]

include pos in
/-- On `M ≥ 1` fields of `N` values the two `transpose<M>`s are inverse: interleaving the fields
and storing the array into any `M` fields of `N` values gives back the fields, and storing an
array of `N·M` values into those fields and interleaving them gives back the array. -/
theorem transpose_roundTrip {inVec outVec : List (List α)} {w : List α}
    (length : inVec.length = M) (sizes : ∀ f ∈ inVec, f.length = N)
    (outLength : outVec.length = M) (outSizes : ∀ f ∈ outVec, f.length = N)
    (wLength : w.length = N * M) :
    (∃ w', transpose M inVec = some w' ∧ transposeInto M w' outVec = some inVec) ∧
      ∃ fs, transposeInto M w outVec = some fs ∧ transpose M fs = some w := by
  constructor
  · obtain ⟨w', hw', w'Length, w'Entries⟩ := transpose_spec pos length sizes
    obtain ⟨fs, hfs, fsLength, fsSizes, fsEntries⟩ :=
      transposeInto_spec pos outLength outSizes w'Length
    refine ⟨w', hw', hfs.trans (congrArg some
      (ext_fields fsLength length fsSizes sizes fun m hm n hn => ?_))⟩
    rw [fsEntries m hm n hn, w'Entries m hm n hn]
  · obtain ⟨fs, hfs, fsLength, fsSizes, fsEntries⟩ :=
      transposeInto_spec pos outLength outSizes wLength
    obtain ⟨w', hw', w'Length, w'Entries⟩ := transpose_spec pos fsLength fsSizes
    refine ⟨fs, hfs, hw'.trans (congrArg some
      (ext_interleaved w'Length wLength fun m hm n hn => ?_))⟩
    rw [w'Entries m hm n hn, fsEntries m hm n hn]

end Layout

/-- The two spin components of two grid points. -/
theorem transpose_roundTrip_spin :
    let inVec : List (List ℕ) := [[1, 2], [3, 4]]
    let outVec : List (List ℕ) := [[0, 0], [0, 0]]
    (0 < 2 ∧ inVec.length = 2 ∧ (∀ f ∈ inVec, f.length = 2) ∧ outVec.length = 2 ∧
      (∀ f ∈ outVec, f.length = 2) ∧ [5, 6, 7, 8].length = 2 * 2) ∧
    (∃ w', transpose 2 inVec = some w' ∧ transposeInto 2 w' outVec = some inVec) ∧
      ∃ fs, transposeInto 2 [5, 6, 7, 8] outVec = some fs ∧ transpose 2 fs = some [5, 6, 7, 8] := by
  intro inVec outVec
  exact ⟨⟨by decide, rfl, by decide, rfl, by decide, rfl⟩,
    @transpose_roundTrip ℕ 2 2 (by decide) _ _ _ rfl (by decide) rfl (by decide) rfl⟩

end Jdftx.Electronic.ExCorr
