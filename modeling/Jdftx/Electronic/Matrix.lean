/-
# Electronic.Matrix — the dense `matrix`, its buffer and its strided slices

`matrix` (electronic/matrix.cpp) keeps `nr × nc` complex numbers in one buffer in column-major
order: entry `(i, j)` lies at `index(i,j) = nr*j + i`. (The header that defines `index` and
`ceildiv` is not among the sources; both are taken with these meanings.) The strided slice
`A(iStart,iStep,iStop, jStart,jStep,jStop)` copies the entries `(i*iStep+iStart, j*jStep+jStart)`
for `i < ceildiv(iStop-iStart, iStep)` and `j < ceildiv(jStop-jStart, jStep)` into a new matrix,
and `A.set(iStart,…,jStop, m)` stores `m` into the same places. Each loop nest is a list of
stores into a buffer (`storeAll`), and the elements of `A` it reads or writes are
`Slice.sources`.

* `lt_ceildiv_iff`: a loop index is below the count exactly when its element is below the stop.
* `sources_mem`: under the `myassert`s every row touched lies in `[0, nr)`, but a column only in
  `[jStart, jStop)`: the column checks are joined by `||`. `slice_past_buffer` is a `2 × 2`
  matrix whose slice `(0,1,1, 0,1,5)` passes every check, and both loops touch column `4`,
  past the end of the buffer.
* `subGet_spec`, `set_spec`: what the two functions return, from `storeAll_apply` and the
  injectivity of the index (`index_inj`).
* `set_subGet`: on a slice inside the matrix, `set` then `operator()` gives back what was
  stored, `set` changes no other entry, and storing a slice of `A` back into `A` gives `A`.

Only the CPU loops are modelled (the GPU kernels are not among the sources); `int` is `ℤ`, and
the element type is any type `E`, since both loops only copy.
-/
import Mathlib.Algebra.Order.Group.Int
import Mathlib.Data.Int.Order.Lemmas
import Mathlib.Data.List.Nodup
import Mathlib.Data.List.ProdSigma
import Mathlib.Logic.Function.Basic
import Mathlib.Tactic.Lift
import Mathlib.Tactic.Linarith

namespace Jdftx.Electronic

set_option autoImplicit false

/-! ## Loops -/

/-- `ceildiv(num, den) = (num + den - 1)/den`, with the truncating `/` of C++. -/
def ceildiv (num den : ℤ) : ℤ := (num + den - 1).tdiv den

@[simp] theorem ceildiv_one (num : ℤ) : ceildiv num 1 = num := by simp [ceildiv]

/-- A loop index is below `ceildiv(num, den)` exactly when `i*den` is below `num`: the loop
`for(i=0; i<ceildiv(stop-start, step); i++)` visits `i*step+start` while it is below `stop`. -/
theorem lt_ceildiv_iff {num den i : ℤ} (den_pos : 0 < den) (nonneg : 0 ≤ i) :
    i < ceildiv num den ↔ i * den < num := by
  have product : 0 ≤ i * den := mul_nonneg nonneg den_pos.le
  rcases le_or_lt 0 (num + den - 1) with numerator | numerator
  · rw [ceildiv, Int.tdiv_eq_ediv numerator den_pos.le, ← Int.add_one_le_iff,
      Int.le_ediv_iff_mul_le den_pos]
    constructor <;> intro <;> linarith
  · have : ceildiv num den ≤ 0 := by
      rw [ceildiv, ← neg_neg (num + den - 1), Int.neg_tdiv]
      exact neg_nonpos.2 (Int.tdiv_nonneg (by omega) den_pos.le)
    constructor <;> intro <;> linarith

/-- The element `k*step+start` at a loop index below `ceildiv(stop-start, step)` lies in
`[start, stop)`. -/
theorem strided_mem {start step stop : ℤ} (step_pos : 0 < step) {k : ℕ}
    (lt : (k : ℤ) < ceildiv (stop - start) step) :
    start ≤ k * step + start ∧ k * step + start < stop := by
  have := (lt_ceildiv_iff step_pos k.cast_nonneg).1 lt
  have : 0 ≤ (k : ℤ) * step := mul_nonneg k.cast_nonneg step_pos.le
  constructor <;> linarith

/-- The loop nest `for(int i=0; i<iDelta; i++) for(int j=0; j<jDelta; j++)` in its order; a
count `≤ 0` runs no iteration. -/
def loopNest (iDelta jDelta : ℤ) : List (ℕ × ℕ) :=
  List.range iDelta.toNat ×ˢ List.range jDelta.toNat

@[simp] theorem mem_loopNest {iDelta jDelta : ℤ} {k : ℕ × ℕ} :
    k ∈ loopNest iDelta jDelta ↔ (k.1 : ℤ) < iDelta ∧ (k.2 : ℤ) < jDelta := by
  obtain ⟨i, j⟩ := k
  simp [loopNest, Int.lt_toNat]

theorem nodup_loopNest (iDelta jDelta : ℤ) : (loopNest iDelta jDelta).Nodup :=
  (List.nodup_range _).product (List.nodup_range _)

/-- `n*j + i` with `0 ≤ i < n` determines `i` and `j`. -/
theorem mul_add_inj {n i j i' j' : ℤ} (same : n * j + i = n * j' + i') (bound : 0 ≤ i ∧ i < n)
    (bound' : 0 ≤ i' ∧ i' < n) : i = i' ∧ j = j' := by
  have dvd : n ∣ i' - i := ⟨j - j', by rw [mul_sub]; linarith⟩
  have rows : i' - i = 0 := Int.eq_zero_of_abs_lt_dvd dvd (abs_lt.2 ⟨by omega, by omega⟩)
  exact ⟨by omega, mul_left_cancel₀ (by omega : n ≠ 0) (by linarith)⟩

/-! ## Stores into a buffer -/

section Store

variable {E κ : Type} (pos : κ → ℤ) (val : κ → E)

/-- A loop of stores `buf[pos k] = val k` over the keys `ks`, in order. -/
def storeAll (ks : List κ) (buf : ℤ → E) : ℤ → E :=
  ks.foldl (fun d k => Function.update d (pos k) (val k)) buf

@[simp] theorem storeAll_nil (buf : ℤ → E) : storeAll pos val [] buf = buf := rfl

@[simp] theorem storeAll_cons (k : κ) (ks : List κ) (buf : ℤ → E) :
    storeAll pos val (k :: ks) buf = storeAll pos val ks (Function.update buf (pos k) (val k)) :=
  rfl

theorem storeAll_append (ks ks' : List κ) (buf : ℤ → E) :
    storeAll pos val (ks ++ ks') buf = storeAll pos val ks' (storeAll pos val ks buf) :=
  List.foldl_append _ _ _ _

theorem storeAll_map {ι : Type} (f : ι → κ) (ks : List ι) (buf : ℤ → E) :
    storeAll pos val (ks.map f) buf = storeAll (pos ∘ f) (val ∘ f) ks buf :=
  List.foldl_map _ _ _ _

/-- A loop of loops of stores, `for b in bs: for k in ks: buf[pos (b, k)] = val (b, k)`, is one
loop over the pairs. -/
theorem storeAll_product {β ι : Type} (pos : β × ι → ℤ) (val : β × ι → E) (bs : List β)
    (ks : List ι) (buf : ℤ → E) :
    storeAll pos val (bs ×ˢ ks) buf =
      bs.foldl (fun C b => storeAll (fun k => pos (b, k)) (fun k => val (b, k)) ks C) buf := by
  induction bs generalizing buf with
  | nil => rfl
  | cons b bs ih => rw [List.product_cons, storeAll_append, storeAll_map, ih]; rfl

/-- A position no store hits keeps its value. -/
theorem storeAll_apply_of_forall_ne {ks : List κ} {x : ℤ} (ne : ∀ k ∈ ks, pos k ≠ x)
    (buf : ℤ → E) : storeAll pos val ks buf x = buf x := by
  induction ks generalizing buf with
  | nil => rfl
  | cons k ks ih =>
    rw [storeAll_cons, ih (fun k' mem => ne k' (List.mem_cons_of_mem _ mem)),
      Function.update_noteq (ne k (List.mem_cons_self _ _)).symm]

/-- A position that only the key `k` stores to holds `val k`. -/
theorem storeAll_apply {ks : List κ} {k : κ} (mem : k ∈ ks)
    (inj : ∀ k' ∈ ks, pos k' = pos k → k' = k) (buf : ℤ → E) :
    storeAll pos val ks buf (pos k) = val k := by
  induction ks generalizing buf with
  | nil => cases mem
  | cons k₀ ks ih =>
    rw [storeAll_cons]
    by_cases later : k ∈ ks
    · exact ih later (fun k' mem' => inj k' (List.mem_cons_of_mem _ mem')) _
    · obtain rfl : k = k₀ := (List.mem_cons.1 mem).resolve_right later
      rw [storeAll_apply_of_forall_ne pos val
        (fun k' mem' same => later (inj k' (List.mem_cons_of_mem _ mem') same ▸ mem')),
        Function.update_same]

/-- Storing back what the buffer already holds leaves it as it is. -/
theorem storeAll_self {ks : List κ} {buf : ℤ → E} (same : ∀ k ∈ ks, val k = buf (pos k)) :
    storeAll pos val ks buf = buf := by
  induction ks with
  | nil => rfl
  | cons k ks ih =>
    rw [storeAll_cons, same k (List.mem_cons_self _ _), Function.update_eq_self,
      ih fun k' mem => same k' (List.mem_cons_of_mem _ mem)]

end Store

/-! ## The matrix and its slices -/

/-- A `matrix` on the CPU: `nr` rows, `nc` columns, and its buffer. -/
structure Matrix (E : Type) where
  nr : ℤ
  nc : ℤ
  data : ℤ → E

/-- The arguments `(iStart, iStep, iStop, jStart, jStep, jStop)` of a strided slice. -/
structure Slice where
  iStart : ℤ
  iStep : ℤ
  iStop : ℤ
  jStart : ℤ
  jStep : ℤ
  jStop : ℤ
  deriving DecidableEq

namespace Matrix

variable {E : Type}

/-- `index(i,j) = nr*j + i`: the buffer is column-major. -/
def index (A : Matrix E) (i j : ℤ) : ℤ := A.nr * j + i

/-- Entry `(i, j)`, read from the buffer. -/
def entry (A : Matrix E) (i j : ℤ) : E := A.data (A.index i j)

/-- `(i, j)` is an entry of `A`. -/
def InRange (A : Matrix E) (i j : ℤ) : Prop := 0 ≤ i ∧ i < A.nr ∧ 0 ≤ j ∧ j < A.nc

/-- `A` and `B` hold the same matrix: the same shape and the same entries (what a buffer holds
past its `nr*nc` entries is no part of the value). -/
def Same (A B : Matrix E) : Prop :=
  A.nr = B.nr ∧ A.nc = B.nc ∧ ∀ i j, A.InRange i j → A.entry i j = B.entry i j

/-- With the row in `[0, nr)`, the index `nr*j + i` determines the row and the column. -/
theorem index_inj {A : Matrix E} {i j i' j' : ℤ} (same : A.index i j = A.index i' j')
    (row : 0 ≤ i ∧ i < A.nr) (row' : 0 ≤ i' ∧ i' < A.nr) : i = i' ∧ j = j' :=
  mul_add_inj same row row'

/-- An entry lies inside the allocation of `nr*nc` elements. -/
theorem index_mem_of_inRange (A : Matrix E) {i j : ℤ} (range : A.InRange i j) :
    0 ≤ A.index i j ∧ A.index i j < A.nr * A.nc := by
  obtain ⟨i_nonneg, i_lt, j_nonneg, j_lt⟩ := range
  have : A.nr * (j + 1) ≤ A.nr * A.nc := mul_le_mul_of_nonneg_left (by omega) (by omega)
  have : 0 ≤ A.nr * j := mul_nonneg (by omega) j_nonneg
  constructor <;> simp only [index] <;> linarith

end Matrix

namespace Slice

/-- `iDelta = ceildiv(iStop-iStart, iStep)`, the number of rows of the slice. -/
def iDelta (r : Slice) : ℤ := ceildiv (r.iStop - r.iStart) r.iStep

/-- `jDelta = ceildiv(jStop-jStart, jStep)`, the number of columns of the slice. -/
def jDelta (r : Slice) : ℤ := ceildiv (r.jStop - r.jStart) r.jStep

/-- Row `i*iStep+iStart` of the sliced matrix at loop index `i`. -/
def row (r : Slice) (i : ℕ) : ℤ := i * r.iStep + r.iStart

/-- Column `j*jStep+jStart` of the sliced matrix at loop index `j`. -/
def col (r : Slice) (j : ℕ) : ℤ := j * r.jStep + r.jStart

/-- The elements `(row, column)` of the sliced matrix that the loop nest reads (in
`operator()`) or writes (in `set`), in order. -/
def sources (r : Slice) : List (ℤ × ℤ) :=
  (loopNest r.iDelta r.jDelta).map fun k => (r.row k.1, r.col k.2)

/-- The shortcut of `operator()`: `iStart==0 && iStep==1 && iStop==nr && jStart==0 &&
jStep==1 && jStop==nc`. -/
def IsWhole (r : Slice) (nr nc : ℤ) : Prop :=
  r.iStart = 0 ∧ r.iStep = 1 ∧ r.iStop = nr ∧ r.jStart = 0 ∧ r.jStep = 1 ∧ r.jStop = nc

instance (r : Slice) (nr nc : ℤ) : Decidable (r.IsWhole nr nc) :=
  inferInstanceAs (Decidable (_ ∧ _))

/-- The six `myassert`s that open both functions, as written: the column checks
`jStart>=0 || jStart<nc` and `jStop>jStart || jStop<=nc` are joined by `||`. -/
def Asserts (r : Slice) (nr nc : ℤ) : Prop :=
  (0 ≤ r.iStart ∧ r.iStart < nr) ∧ (r.iStart < r.iStop ∧ r.iStop ≤ nr) ∧ 0 < r.iStep ∧
    (0 ≤ r.jStart ∨ r.jStart < nc) ∧ (r.jStart < r.jStop ∨ r.jStop ≤ nc) ∧ 0 < r.jStep

instance (r : Slice) (nr nc : ℤ) : Decidable (r.Asserts nr nc) :=
  inferInstanceAs (Decidable (_ ∧ _))

variable {r : Slice} {nr nc : ℤ}

theorem row_mem (asserts : r.Asserts nr nc) {k : ℕ × ℕ}
    (mem : k ∈ loopNest r.iDelta r.jDelta) : 0 ≤ r.row k.1 ∧ r.row k.1 < nr := by
  obtain ⟨⟨start, -⟩, ⟨-, stop⟩, step, -⟩ := asserts
  have := strided_mem step (mem_loopNest.1 mem).1
  unfold row
  omega

theorem row_inj (asserts : r.Asserts nr nc) {i i' : ℕ} (same : r.row i = r.row i') : i = i' := by
  have := mul_right_cancel₀ asserts.2.2.1.ne' (add_right_cancel same)
  exact_mod_cast this

theorem col_inj (asserts : r.Asserts nr nc) {j j' : ℕ} (same : r.col j = r.col j') : j = j' := by
  have := mul_right_cancel₀ asserts.2.2.2.2.2.ne' (add_right_cancel same)
  exact_mod_cast this

/-- What the `myassert`s guarantee of the elements the loops touch: the row lies in `[0, nr)`,
the column only in `[jStart, jStop)`, a window that the `||`-joined checks do not keep inside
`[0, nc)`. -/
theorem sources_mem (asserts : r.Asserts nr nc) {p : ℤ × ℤ} (mem : p ∈ r.sources) :
    (0 ≤ p.1 ∧ p.1 < nr) ∧ r.jStart ≤ p.2 ∧ p.2 < r.jStop := by
  obtain ⟨k, loop, rfl⟩ := List.mem_map.1 mem
  exact ⟨row_mem asserts loop, strided_mem asserts.2.2.2.2.2 (mem_loopNest.1 loop).2⟩

end Slice

namespace Matrix

variable {E : Type}

/-- `operator()(iStart,iStep,iStop,jStart,jStep,jStop)` on the CPU, `none` when a `myassert`
fails; `fresh` is what the buffer of the new matrix `ret(iDelta, jDelta)` holds before the
loop. -/
def subGet (A : Matrix E) (r : Slice) (fresh : ℤ → E) : Option (Matrix E) :=
  if r.IsWhole A.nr A.nc then some A
  else if r.Asserts A.nr A.nc then
    let ret : Matrix E := ⟨r.iDelta, r.jDelta, fresh⟩
    some { ret with
      data := storeAll (fun k => ret.index k.1 k.2) (fun k => A.entry (r.row k.1) (r.col k.2))
        (loopNest r.iDelta r.jDelta) ret.data }
  else none

/-- `set(iStart,iStep,iStop,jStart,jStep,jStop, m)` on the CPU, `none` when a `myassert`
fails. -/
def set (A : Matrix E) (r : Slice) (m : Matrix E) : Option (Matrix E) :=
  if r.Asserts A.nr A.nc ∧ r.iDelta = m.nr ∧ r.jDelta = m.nc then
    some { A with
      data := storeAll (fun k => A.index (r.row k.1) (r.col k.2)) (fun k => m.entry k.1 k.2)
        (loopNest r.iDelta r.jDelta) A.data }
  else none

variable {A m : Matrix E} {r : Slice}

/-- `operator()` returns an `iDelta × jDelta` matrix whose entry `(i, j)` is the element
`(i*iStep+iStart, j*jStep+jStart)` of `A`, when the checks pass or the shortcut is taken. -/
theorem subGet_spec (fresh : ℤ → E) (ok : r.IsWhole A.nr A.nc ∨ r.Asserts A.nr A.nc) :
    ∃ ret, A.subGet r fresh = some ret ∧ ret.nr = r.iDelta ∧ ret.nc = r.jDelta ∧
      ∀ k ∈ loopNest r.iDelta r.jDelta, ret.entry k.1 k.2 = A.entry (r.row k.1) (r.col k.2) := by
  by_cases whole : r.IsWhole A.nr A.nc
  · obtain ⟨iStart, iStep, iStop, jStart, jStep, jStop⟩ := whole
    refine ⟨A, if_pos ⟨iStart, iStep, iStop, jStart, jStep, jStop⟩, ?_, ?_, fun k _ => ?_⟩ <;>
      simp [Slice.iDelta, Slice.jDelta, Slice.row, Slice.col, *]
  · have asserts := ok.resolve_left whole
    refine ⟨_, by rw [subGet, if_neg whole, if_pos asserts], rfl, rfl, fun k mem => ?_⟩
    refine storeAll_apply _ _ mem (fun k' mem' same => ?_) _
    have rows := (mem_loopNest.1 mem).1
    have := index_inj same ⟨k'.1.cast_nonneg, (mem_loopNest.1 mem').1⟩ ⟨k.1.cast_nonneg, rows⟩
    exact Prod.ext (by exact_mod_cast this.1) (by exact_mod_cast this.2)

/-- `set` keeps the shape, stores entry `(i, j)` of `m` at `(i*iStep+iStart, j*jStep+jStart)`,
and changes no other entry of a row in `[0, nr)`. -/
theorem set_spec (asserts : r.Asserts A.nr A.nc) (rows : r.iDelta = m.nr) (cols : r.jDelta = m.nc) :
    ∃ A', A.set r m = some A' ∧ A'.nr = A.nr ∧ A'.nc = A.nc ∧
      (∀ k ∈ loopNest r.iDelta r.jDelta, A'.entry (r.row k.1) (r.col k.2) = m.entry k.1 k.2) ∧
      ∀ i j, 0 ≤ i → i < A.nr → (i, j) ∉ r.sources → A'.entry i j = A.entry i j := by
  refine ⟨_, if_pos ⟨asserts, rows, cols⟩, rfl, rfl, fun k mem => ?_, fun i j nonneg lt fresh => ?_⟩
  · refine storeAll_apply _ _ mem (fun k' mem' same => ?_) _
    have := index_inj same (Slice.row_mem asserts mem') (Slice.row_mem asserts mem)
    exact Prod.ext (Slice.row_inj asserts this.1) (Slice.col_inj asserts this.2)
  · refine storeAll_apply_of_forall_ne _ _ (fun k mem same => fresh ?_) _
    have := index_inj same (Slice.row_mem asserts mem) ⟨nonneg, lt⟩
    exact List.mem_map.2 ⟨k, mem, Prod.ext this.1 this.2⟩

/-- Joined by `&&` as the row checks are, the column checks would make the guard sound: under
the `myassert`s, with `0 ≤ jStart` and `jStop ≤ nc`, every element that `operator()` reads and
`set` writes is an entry of `A`. -/
theorem sources_inRange (asserts : r.Asserts A.nr A.nc) (jStart_nonneg : 0 ≤ r.jStart)
    (jStop_le : r.jStop ≤ A.nc) : ∀ p ∈ r.sources, A.InRange p.1 p.2 := by
  intro p mem
  obtain ⟨row, low, high⟩ := Slice.sources_mem asserts mem
  exact ⟨row.1, row.2, by omega, by omega⟩

/-- Every other column of a `2 × 3` matrix, ending at the last one. -/
theorem sources_inRange_strided :
    let A : Matrix ℤ := ⟨2, 3, fun _ => 0⟩
    let r : Slice := ⟨0, 1, 2, 0, 2, 3⟩
    (r.Asserts A.nr A.nc ∧ 0 ≤ r.jStart ∧ r.jStop ≤ A.nc) ∧ ∀ p ∈ r.sources, A.InRange p.1 p.2 :=
  ⟨by decide, sources_inRange (by decide) (by decide) (by decide)⟩

/-- With the column checks joined by `||`, the `2 × 2` matrix and the slice `(0,1,1, 0,1,5)`
pass every `myassert` of both functions, and both loops touch element `(0, 4)`, at position `8`
of a buffer of `4`: `operator()` reads it and `set` writes it. -/
theorem slice_past_buffer :
    let A : Matrix ℤ := ⟨2, 2, fun _ => 0⟩
    let r : Slice := ⟨0, 1, 1, 0, 1, 5⟩
    ¬ r.IsWhole A.nr A.nc ∧ r.Asserts A.nr A.nc ∧ (0, 4) ∈ r.sources ∧
      A.nr * A.nc ≤ A.index 0 4 ∧
      (∀ fresh, ∃ ret, A.subGet r fresh = some ret ∧ ret.entry 0 4 = A.data (A.index 0 4)) ∧
      ∀ m : Matrix ℤ, m.nr = 1 → m.nc = 5 →
        ∃ A', A.set r m = some A' ∧ A'.data (A.index 0 4) = m.entry 0 4 := by
  intro A r
  have asserts : r.Asserts A.nr A.nc := by decide
  have loop : ((0, 4) : ℕ × ℕ) ∈ loopNest r.iDelta r.jDelta := by decide
  refine ⟨by decide, asserts, by decide, by decide, fun fresh => ?_, fun m rows cols => ?_⟩
  · obtain ⟨ret, found, -, -, entries⟩ := subGet_spec fresh (.inr asserts)
    exact ⟨ret, found, entries _ loop⟩
  · obtain ⟨A', found, nr, -, stored, -⟩ :=
      set_spec asserts (by rw [rows]; decide) (by rw [cols]; decide)
    exact ⟨A', found, by simpa [entry, index, Slice.row, Slice.col, nr] using stored _ loop⟩

/-- On a slice inside the matrix, every element the loops touch is an entry of `A`,
`A.set(range, X)` followed by `operator()(range)` gives back `X`, `set` changes no entry outside
the slice, and `A.set(range, A(range))` leaves `A` as it is. -/
theorem set_subGet {X : Matrix E} (iStart_nonneg : 0 ≤ r.iStart) (iStart_lt : r.iStart < r.iStop)
    (iStop_le : r.iStop ≤ A.nr) (iStep_pos : 0 < r.iStep) (jStart_nonneg : 0 ≤ r.jStart)
    (jStart_lt : r.jStart < r.jStop) (jStop_le : r.jStop ≤ A.nc) (jStep_pos : 0 < r.jStep)
    (rows : X.nr = r.iDelta) (cols : X.nc = r.jDelta) (fresh : ℤ → E) :
    (∀ p ∈ r.sources, A.InRange p.1 p.2) ∧
    (∃ A', A.set r X = some A' ∧ A'.nr = A.nr ∧ A'.nc = A.nc ∧
      (∃ Y, A'.subGet r fresh = some Y ∧ Y.Same X) ∧
      ∀ i j, A.InRange i j → (i, j) ∉ r.sources → A'.entry i j = A.entry i j) ∧
    ∃ Y, A.subGet r fresh = some Y ∧ A.set r Y = some A := by
  have asserts : r.Asserts A.nr A.nc :=
    ⟨⟨iStart_nonneg, by omega⟩, ⟨iStart_lt, iStop_le⟩, iStep_pos, .inl jStart_nonneg,
      .inl jStart_lt, jStep_pos⟩
  refine ⟨fun p mem => ?_, ?_, ?_⟩
  · have := Slice.sources_mem asserts mem
    exact ⟨this.1.1, this.1.2, by omega, by omega⟩
  · obtain ⟨A', found, nr, nc, stored, frame⟩ := set_spec asserts rows.symm cols.symm
    have asserts' : r.Asserts A'.nr A'.nc := nr ▸ nc ▸ asserts
    obtain ⟨Y, got, Ynr, Ync, entries⟩ := subGet_spec fresh (.inr asserts')
    refine ⟨A', found, nr, nc, ⟨Y, got, by rw [Ynr, rows], by rw [Ync, cols], ?_⟩,
      fun i j range => frame i j range.1 range.2.1⟩
    rintro i j ⟨i_nonneg, i_lt, j_nonneg, j_lt⟩
    lift i to ℕ using i_nonneg
    lift j to ℕ using j_nonneg
    have loop : (i, j) ∈ loopNest r.iDelta r.jDelta := mem_loopNest.2 ⟨Ynr ▸ i_lt, Ync ▸ j_lt⟩
    exact (entries _ loop).trans (stored _ loop)
  · obtain ⟨Y, got, Ynr, Ync, entries⟩ := subGet_spec fresh (.inr asserts)
    refine ⟨Y, got, ?_⟩
    rw [set, if_pos ⟨asserts, Ynr.symm, Ync.symm⟩, storeAll_self _ _ fun k mem => entries k mem]

/-- Rows `0, 1` and columns `0, 2` of a `2 × 3` matrix: a column stride that does not divide
the range, ending at the last column. -/
theorem set_subGet_strided :
    let A : Matrix ℤ := ⟨2, 3, fun p => p⟩
    let X : Matrix ℤ := ⟨2, 2, fun _ => 7⟩
    let r : Slice := ⟨0, 1, 2, 0, 2, 3⟩
    (0 ≤ r.iStart ∧ r.iStart < r.iStop ∧ r.iStop ≤ A.nr ∧ 0 < r.iStep ∧ 0 ≤ r.jStart ∧
      r.jStart < r.jStop ∧ r.jStop ≤ A.nc ∧ 0 < r.jStep ∧ X.nr = r.iDelta ∧ X.nc = r.jDelta) ∧
    (∀ p ∈ r.sources, A.InRange p.1 p.2) ∧
    (∃ A', A.set r X = some A' ∧ A'.nr = A.nr ∧ A'.nc = A.nc ∧
      (∃ Y, A'.subGet r 0 = some Y ∧ Y.Same X) ∧
      ∀ i j, A.InRange i j → (i, j) ∉ r.sources → A'.entry i j = A.entry i j) ∧
    ∃ Y, A.subGet r 0 = some Y ∧ A.set r Y = some A :=
  ⟨by decide, set_subGet (by decide) (by decide) (by decide) (by decide) (by decide) (by decide)
    (by decide) (by decide) (by decide) (by decide) 0⟩

end Matrix

end Jdftx.Electronic
