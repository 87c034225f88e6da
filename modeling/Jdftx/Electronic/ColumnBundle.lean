/-
# Electronic.ColumnBundle — the buffer of a `ColumnBundle` and its column blocks

A `ColumnBundle` (electronic/ColumnBundle.cpp) keeps `nCols` columns of `colLength` complex
numbers in one buffer, column after column: element `j` of column `i` lies at
`index(i,j) = i*colLength + j`. `getSub(colStart, colStop)` copies columns `[colStart, colStop)`
into a new bundle made by `similar`; `setSub(colStart, Y)` copies the first
`min(Y.nCols(), nCols()-colStart)` columns of `Y` over the columns from `colStart`, so that a
`Y` too wide for the rest of the bundle is cut. Each is one `eblas_copy` of whole columns.

* `getSub_spec`, `setSub_spec`: what the two functions return, column by column.

Block `s` of column `i`, the `nbasis` elements from `index(i, s*nbasis)`, is spinor component `s`
of the column. `getColumn(i, s)` scatters it into a full G-space vector, element `k` to the grid
point `basis->index[k]`; `setColumn(i, s, full)` zeroes it and gathers it back from those points
(`accumColumn`).

* `setColumn_getColumn`: `setColumn(i, s, getColumn(i, s))` gives the bundle back when the basis
  elements sit at distinct grid points.
* `getColumn_setColumn`: `getColumn(i, s)` after `setColumn(i, s, full)` is `full` kept at the
  basis's grid points and zero elsewhere.
* `getColumn_setColumn_other`: when the blocks fit in a column, `setColumn(i, s, ·)` leaves
  `getColumn` of every other block as it was.

The headers that define `index`, `eblas_copy`, `eblas_zero`, `eblas_scatter_zdaxpy` and
`eblas_gather_zdaxpy` are not among the sources; they are taken with these meanings. A bundle
records of its `basis` and `qnum` only what the functions here and in `Checkpoint` read:
`basis->nbasis` and `spinorLength()`; `basis->index` is an argument of the functions that read it.
-/
import Mathlib.Algebra.BigOperators.Group.Finset
import Mathlib.Algebra.Order.Group.Nat
import Mathlib.Data.Int.Order.Lemmas
import Mathlib.Tactic.Ring

namespace Jdftx.Electronic

set_option autoImplicit false

/-- `eblas_copy(dest+destOff, src+srcOff, n)`: `dest[destOff+k] = src[srcOff+k]` for `k < n`. -/
def eblasCopy {E : Type} (dest : ℕ → E) (destOff : ℕ) (src : ℕ → E) (srcOff n : ℕ) : ℕ → E :=
  fun x => if destOff ≤ x ∧ x < destOff + n then src (srcOff + (x - destOff)) else dest x

/-- Element `j < len` of block `i` lies below the end of block `m` exactly when `i < m`. -/
theorem mul_add_lt_mul_iff {i j len m : ℕ} (hj : j < len) : i * len + j < m * len ↔ i < m := by
  constructor
  · intro lt
    by_contra! ge
    have := Nat.mul_le_mul_right len ge
    omega
  · intro lt
    have := Nat.mul_le_mul_right len (Nat.succ_le_of_lt lt)
    rw [Nat.succ_mul] at this
    omega

/-- Element `j < len` of block `i` lies at or after the start of block `m` exactly when
`m ≤ i`. -/
theorem mul_le_mul_add_iff {i j len m : ℕ} (hj : j < len) : m * len ≤ i * len + j ↔ m ≤ i := by
  rw [← not_lt, mul_add_lt_mul_iff hj, not_lt]

/-- A `ColumnBundle` on the CPU: its shape, what it reads of its `basis` and `qnum`, and its
buffer. -/
structure ColumnBundle (E : Type) where
  nCols : ℕ
  colLength : ℕ
  nbasis : ℕ
  nSpinor : ℕ
  data : ℕ → E

namespace ColumnBundle

variable {E : Type}

/-- `nData() = nCols()*colLength()`. -/
def nData (Y : ColumnBundle E) : ℕ := Y.nCols * Y.colLength

/-- Column `i`: element `j` at `index(i,j) = i*colLength + j`. -/
def column (Y : ColumnBundle E) (i : ℕ) (j : ℕ) : E := Y.data (i * Y.colLength + j)

/-- `index(i,j) = i*colLength + j`, the element of the buffer that `column` reads. -/
def index (Y : ColumnBundle E) (i j : ℕ) : ℕ := i * Y.colLength + j

/-- `init(nc, len, basis, qnum)`: a bundle of `nc` columns of length `len`; it fails
`myassert(colLength() != 0)` for a nonempty bundle with empty columns. `fresh` is what the new
buffer holds. -/
def init (nc len nbasis nSpinor : ℕ) (fresh : ℕ → E) : Option (ColumnBundle E) :=
  if nc ≠ 0 ∧ len = 0 then none else some ⟨nc, len, nbasis, nSpinor, fresh⟩

/-- `similar(nc)`: `ColumnBundle(nc, col_length, basis, qnum)`, a new bundle of `nc` columns on
the same basis. -/
def similar (Y : ColumnBundle E) (nc : ℕ) (fresh : ℕ → E) : Option (ColumnBundle E) :=
  init nc Y.colLength Y.nbasis Y.nSpinor fresh

/-- `getSub(colStart, colStop)`. -/
def getSub (Y : ColumnBundle E) (colStart colStop : ℤ) (fresh : ℕ → E) :
    Option (ColumnBundle E) :=
  if 0 ≤ colStart ∧ colStop ≤ Y.nCols ∧ 0 < colStop - colStart then
    let nColsSub := (colStop - colStart).toNat
    (Y.similar nColsSub fresh).map fun ret =>
      { ret with
        data := eblasCopy ret.data 0 Y.data (colStart.toNat * Y.colLength)
          (nColsSub * Y.colLength) }
  else none

/-- `setSub(colStart, Y)`: `nColsSub = std::min(Y.nCols(), nCols()-colStart)`. -/
def setSub (Y : ColumnBundle E) (colStart : ℤ) (Y' : ColumnBundle E) : Option (ColumnBundle E) :=
  if 0 ≤ colStart ∧ colStart < Y.nCols ∧ Y.colLength = Y'.colLength then
    let nColsSub := (min (Y'.nCols : ℤ) (Y.nCols - colStart)).toNat
    some { Y with
      data := eblasCopy Y.data (colStart.toNat * Y.colLength) Y'.data 0
        (nColsSub * Y.colLength) }
  else none

/-- Copying whole columns: column `i` of the result is column `i - destStart` of the source,
from its column `srcStart`, inside the `n` columns copied, and column `i` of the destination
elsewhere. -/
theorem column_eblasCopy (dest src : ℕ → E) (destStart srcStart n i : ℕ) {len j : ℕ}
    (hj : j < len) :
    eblasCopy dest (destStart * len) src (srcStart * len) (n * len) (i * len + j) =
      if destStart ≤ i ∧ i < destStart + n then src ((srcStart + (i - destStart)) * len + j)
      else dest (i * len + j) := by
  have upper : i * len + j < destStart * len + n * len ↔ i < destStart + n := by
    rw [← Nat.add_mul, mul_add_lt_mul_iff hj]
  simp only [eblasCopy, mul_le_mul_add_iff hj, upper]
  split_ifs with inside
  · congr 1
    obtain ⟨k, rfl⟩ := Nat.exists_eq_add_of_le inside.1
    rw [Nat.add_sub_cancel_left, Nat.add_mul, Nat.add_mul]
    omega
  · rfl

/-- `getSub` succeeds when its `myassert`s pass and the columns are not empty, with the
`colStop - colStart` columns from `colStart`. -/
theorem getSub_spec {Y : ColumnBundle E} {colStart colStop : ℤ} (fresh : ℕ → E)
    (start : 0 ≤ colStart) (stop : colStop ≤ Y.nCols) (nonempty : colStart < colStop)
    (length : Y.colLength ≠ 0) :
    ∃ Z, Y.getSub colStart colStop fresh = some Z ∧ (Z.nCols : ℤ) = colStop - colStart ∧
      Z.colLength = Y.colLength ∧ Z.nbasis = Y.nbasis ∧ Z.nSpinor = Y.nSpinor ∧
      ∀ i < Z.nCols, ∀ j < Z.colLength, Z.column i j = Y.column (colStart.toNat + i) j := by
  have asserts : 0 ≤ colStart ∧ colStop ≤ Y.nCols ∧ 0 < colStop - colStart :=
    ⟨start, stop, by omega⟩
  refine ⟨{ Y with
    nCols := (colStop - colStart).toNat
    data := eblasCopy fresh 0 Y.data (colStart.toNat * Y.colLength)
      ((colStop - colStart).toNat * Y.colLength) },
    by simp only [getSub, similar, init, if_pos asserts, length, and_false, if_false,
      Option.map_some'],
    by simp only; omega, rfl, rfl, rfl, fun i hi j hj => ?_⟩
  have := column_eblasCopy fresh Y.data 0 colStart.toNat (colStop - colStart).toNat i hj
  rw [Nat.zero_mul] at this
  simp only [column]
  rw [this, if_pos ⟨Nat.zero_le _, by simpa using hi⟩, Nat.sub_zero]

/-- `setSub` succeeds when its `myassert`s pass. It stores column `i - colStart` of `Y'` in each
column `i` from `colStart` on, for the `min(Y'.nCols(), nCols()-colStart)` columns copied, and
leaves every other column as it was. -/
theorem setSub_spec {Y Y' : ColumnBundle E} {colStart : ℕ} (start : colStart < Y.nCols)
    (length : Y.colLength = Y'.colLength) :
    ∃ Z, Y.setSub colStart Y' = some Z ∧ Z.nCols = Y.nCols ∧ Z.colLength = Y.colLength ∧
      Z.nbasis = Y.nbasis ∧ Z.nSpinor = Y.nSpinor ∧
      ∀ i < Z.nCols, ∀ j < Z.colLength, Z.column i j =
        if colStart ≤ i ∧ i < colStart + min Y'.nCols (Y.nCols - colStart) then
          Y'.column (i - colStart) j
        else Y.column i j := by
  have asserts : 0 ≤ (colStart : ℤ) ∧ (colStart : ℤ) < Y.nCols ∧ Y.colLength = Y'.colLength :=
    ⟨by omega, by omega, length⟩
  have copied : (min (Y'.nCols : ℤ) (Y.nCols - colStart)).toNat =
      min Y'.nCols (Y.nCols - colStart) := by omega
  refine ⟨{ Y with
    data := eblasCopy Y.data (colStart * Y.colLength) Y'.data 0
      (min Y'.nCols (Y.nCols - colStart) * Y.colLength) },
    by simp only [setSub, if_pos asserts, Int.toNat_natCast, copied], rfl, rfl, rfl, rfl,
    fun i _ j hj => ?_⟩
  have := column_eblasCopy Y.data Y'.data colStart 0 (min Y'.nCols (Y.nCols - colStart)) i hj
  simp only [column, Nat.zero_mul, Nat.zero_add] at this ⊢
  rw [this, length]

/-- `i·len + j` with `j < len` determines `i` and `j`. -/
theorem mul_add_unique {i j i' j' len : ℕ} (hj : j < len) (hj' : j' < len)
    (h : i * len + j = i' * len + j') : i = i' ∧ j = j' := by
  have pos : 0 < len := by omega
  have div := congrArg (· / len) h
  have mod := congrArg (· % len) h
  simp only [add_comm (_ * len), Nat.add_mul_div_right _ _ pos, Nat.add_mul_mod_self_right,
    Nat.div_eq_of_lt hj, Nat.div_eq_of_lt hj', Nat.mod_eq_of_lt hj, Nat.mod_eq_of_lt hj',
    zero_add] at div mod
  exact ⟨div, mod⟩

/-- When `spinorLength()` blocks of `nbasis` elements fit in a column, an element of block
`(i, s)` is one of block `(i', s')` only when the two blocks are one. -/
theorem block_inj {Y : ColumnBundle E} (layout : Y.nSpinor * Y.nbasis ≤ Y.colLength)
    {i s i' s' k k' : ℕ} (hs : s < Y.nSpinor) (hs' : s' < Y.nSpinor) (hk : k < Y.nbasis)
    (hk' : k' < Y.nbasis) (h : Y.index i (s * Y.nbasis) + k = Y.index i' (s' * Y.nbasis) + k') :
    i = i' ∧ s = s' := by
  have inColumn {s k : ℕ} (hs : s < Y.nSpinor) (hk : k < Y.nbasis) :
      s * Y.nbasis + k < Y.colLength :=
    lt_of_lt_of_le ((mul_add_lt_mul_iff hk).2 hs) layout
  simp only [index, Nat.add_assoc] at h
  obtain ⟨rfl, inner⟩ := mul_add_unique (inColumn hs hk) (inColumn hs' hk') h
  exact ⟨rfl, (mul_add_unique hk hk' inner).1⟩

end ColumnBundle

/-! ## Columns on the full G-space grid -/

section Grid

open Finset

variable {E : Type} [Semiring E]

/-- `eblas_scatter_zdaxpy(n, a, index, x+xOff, y)`: `y[index[k]] += a·x[xOff+k]` for each `k < n`
in turn, so that every `k` that `index` sends to one point adds to it. -/
def eblasScatterZdaxpy (n : ℕ) (a : E) (index : ℕ → ℕ) (x : ℕ → E) (xOff : ℕ) (y : ℕ → E) :
    ℕ → E :=
  (List.range n).foldl (fun y k => Function.update y (index k) (y (index k) + a * x (xOff + k))) y

/-- `eblas_gather_zdaxpy(n, a, index, x, y+yOff)`: `y[yOff+k] += a·x[index[k]]` for `k < n`. -/
def eblasGatherZdaxpy (n : ℕ) (a : E) (index : ℕ → ℕ) (x : ℕ → E) (y : ℕ → E) (yOff : ℕ) :
    ℕ → E :=
  fun p => if yOff ≤ p ∧ p < yOff + n then y p + a * x (index (p - yOff)) else y p

/-- `eblas_zero(n, y+off)`: `y[off+k] = 0` for `k < n`. -/
def eblasZero (n : ℕ) (y : ℕ → E) (off : ℕ) : ℕ → E :=
  fun p => if off ≤ p ∧ p < off + n then 0 else y p

theorem eblasScatterZdaxpy_succ (n : ℕ) (a : E) (index : ℕ → ℕ) (x : ℕ → E) (xOff : ℕ)
    (y : ℕ → E) :
    eblasScatterZdaxpy (n + 1) a index x xOff y =
      Function.update (eblasScatterZdaxpy n a index x xOff y) (index n)
        (eblasScatterZdaxpy n a index x xOff y (index n) + a * x (xOff + n)) := by
  simp only [eblasScatterZdaxpy, List.range_succ, List.foldl_append, List.foldl_cons,
    List.foldl_nil]

/-- What the scatter leaves at point `p`: what was there, plus `a·x[xOff+k]` for every `k < n`
that `index` sends to `p`. -/
theorem eblasScatterZdaxpy_apply (n : ℕ) (a : E) (index : ℕ → ℕ) (x : ℕ → E) (xOff : ℕ)
    (y : ℕ → E) (p : ℕ) :
    eblasScatterZdaxpy n a index x xOff y p =
      y p + ∑ k ∈ range n, if index k = p then a * x (xOff + k) else 0 := by
  induction n with
  | zero => simp [eblasScatterZdaxpy]
  | succ n ih =>
    rw [eblasScatterZdaxpy_succ, Function.update_apply, sum_range_succ]
    by_cases hit : p = index n
    · subst hit
      rw [if_pos rfl, if_pos rfl, ih, add_assoc]
    · rw [if_neg hit, if_neg (Ne.symm hit), add_zero, ih]

variable {n : ℕ} {a : E} {index : ℕ → ℕ} {x : ℕ → E} {xOff : ℕ} {y : ℕ → E}

/-- At the point of an element `k < n`, when `index` sends no other element there, the scatter
adds `a·x[xOff+k]` alone. -/
theorem eblasScatterZdaxpy_hit (distinct : ∀ k < n, ∀ k' < n, index k = index k' → k = k')
    {k : ℕ} (hk : k < n) :
    eblasScatterZdaxpy n a index x xOff y (index k) = y (index k) + a * x (xOff + k) := by
  rw [eblasScatterZdaxpy_apply, sum_eq_single k (fun k' hk' other => if_neg fun same =>
    other (distinct k' (mem_range.1 hk') k hk same)) (fun out => absurd (mem_range.2 hk) out),
    if_pos rfl]

/-- At a point no element is sent to, the scatter changes nothing. -/
theorem eblasScatterZdaxpy_miss {p : ℕ} (miss : ∀ k < n, index k ≠ p) :
    eblasScatterZdaxpy n a index x xOff y p = y p := by
  rw [eblasScatterZdaxpy_apply, sum_eq_zero fun k hk => if_neg (miss k (mem_range.1 hk)),
    add_zero]

/-- The scatter reads only the `n` elements of `x` from `xOff`. -/
theorem eblasScatterZdaxpy_congr {x' : ℕ → E} (same : ∀ k < n, x (xOff + k) = x' (xOff + k)) :
    eblasScatterZdaxpy n a index x xOff y = eblasScatterZdaxpy n a index x' xOff y :=
  funext fun p => by
    simp only [eblasScatterZdaxpy_apply]
    exact congrArg _ (sum_congr rfl fun k hk => by rw [same k (mem_range.1 hk)])

namespace ColumnBundle

/-- `CHECK_COLUMN_INDEX`: `myassert(i>=0 && i<nCols())` and
`myassert(s>=0 && s<spinorLength())`. -/
def checkColumnIndex (Y : ColumnBundle E) (i s : ℤ) : Bool :=
  decide (0 ≤ i ∧ i < Y.nCols ∧ 0 ≤ s ∧ s < Y.nSpinor)

/-- `getColumn(i, s)`: block `s` of column `i`, the `nbasis` elements from `index(i, s*nbasis)`,
scattered into a full G-space vector that `nullToZero` made zero, element `k` to the grid point
`basis->index[k]`. -/
def getColumn (Y : ColumnBundle E) (index : ℕ → ℕ) (i s : ℤ) : Option (ℕ → E) :=
  if Y.checkColumnIndex i s then
    some (eblasScatterZdaxpy Y.nbasis 1 index Y.data (Y.index i.toNat (s.toNat * Y.nbasis)) 0)
  else none

/-- `accumColumn(i, s, full)`: after `myassert(full)`, a null `full` being `none`, and
`CHECK_COLUMN_INDEX`, element `k` of block `s` of column `i` adds what `full` holds at
`basis->index[k]`. -/
def accumColumn (Y : ColumnBundle E) (index : ℕ → ℕ) (i s : ℤ) (full : Option (ℕ → E)) :
    Option (ColumnBundle E) := do
  let full ← full
  if Y.checkColumnIndex i s then
    some { Y with
      data := eblasGatherZdaxpy Y.nbasis 1 index full Y.data
        (Y.index i.toNat (s.toNat * Y.nbasis)) }
  else none

/-- `setColumn(i, s, full)`: the block zeroed by `eblas_zero`, before any check, then
`accumColumn(i, s, full)`. -/
def setColumn (Y : ColumnBundle E) (index : ℕ → ℕ) (i s : ℤ) (full : Option (ℕ → E)) :
    Option (ColumnBundle E) :=
  accumColumn { Y with data := eblasZero Y.nbasis Y.data (Y.index i.toNat (s.toNat * Y.nbasis)) }
    index i s full

omit [Semiring E] in
theorem checkColumnIndex_iff {Y : ColumnBundle E} {i s : ℤ} :
    Y.checkColumnIndex i s = true ↔
      ∃ i' s' : ℕ, i = i' ∧ s = s' ∧ i' < Y.nCols ∧ s' < Y.nSpinor := by
  simp only [checkColumnIndex, decide_eq_true_eq]
  constructor
  · rintro ⟨hi0, hi, hs0, hs⟩
    exact ⟨i.toNat, s.toNat, by omega, by omega, by omega, by omega⟩
  · rintro ⟨i', s', rfl, rfl, hi, hs⟩
    omega

variable {Y : ColumnBundle E} (index : ℕ → ℕ) {i s : ℕ} (hi : i < Y.nCols) (hs : s < Y.nSpinor)
include hi hs

theorem getColumn_of_lt :
    Y.getColumn index i s =
      some (eblasScatterZdaxpy Y.nbasis 1 index Y.data (Y.index i (s * Y.nbasis)) 0) := by
  rw [getColumn, if_pos (checkColumnIndex_iff.2 ⟨i, s, rfl, rfl, hi, hs⟩), Int.toNat_natCast,
    Int.toNat_natCast]

/-- `setColumn(i, s, full)` on a block in range with a non-null `full`: element `k` of the block
is `full[index[k]]`, every other element as it was. -/
theorem setColumn_of_lt (full : ℕ → E) :
    Y.setColumn index i s (some full) = some { Y with
      data := fun p => if Y.index i (s * Y.nbasis) ≤ p ∧ p < Y.index i (s * Y.nbasis) + Y.nbasis
        then full (index (p - Y.index i (s * Y.nbasis))) else Y.data p } := by
  simp only [setColumn, accumColumn, Option.bind_eq_bind, Option.some_bind, Int.toNat_natCast,
    checkColumnIndex, Nat.cast_nonneg, Nat.cast_lt, hi, hs, and_self, decide_True, if_true]
  congr
  funext p
  simp only [eblasGatherZdaxpy, eblasZero, ColumnBundle.index]
  split_ifs <;> simp

/-- `setColumn(i, s, getColumn(i, s))` gives the bundle back, every element of it, when
`basis->index` sends the `nbasis` basis elements to distinct grid points: the scatter leaves
element `k` alone at `index[k]`, and the gather reads it back from there. -/
theorem setColumn_getColumn
    (distinct : ∀ k < Y.nbasis, ∀ k' < Y.nbasis, index k = index k' → k = k') :
    ∃ full, Y.getColumn index i s = some full ∧ Y.setColumn index i s (some full) = some Y := by
  refine ⟨_, getColumn_of_lt index hi hs, ?_⟩
  rw [setColumn_of_lt index hi hs]
  refine congrArg some (congrArg (fun data : ℕ → E => ({ Y with data } : ColumnBundle E))
    (funext fun p => ?_))
  split_ifs with inside
  · rw [eblasScatterZdaxpy_hit distinct (by omega), Pi.zero_apply, zero_add, one_mul]
    congr 1
    omega
  · rfl

omit hi hs in
/-- One column of two basis elements, sent to the grid points `3` and `4`. -/
theorem setColumn_getColumn_shifted :
    let Y : ColumnBundle ℤ := ⟨1, 2, 2, 1, fun n => n⟩
    (0 < Y.nCols ∧ 0 < Y.nSpinor ∧ ∀ k < Y.nbasis, ∀ k' < Y.nbasis, k + 3 = k' + 3 → k = k') ∧
    ∃ full, Y.getColumn (· + 3) 0 0 = some full ∧ Y.setColumn (· + 3) 0 0 (some full) = some Y := by
  intro Y
  exact ⟨⟨by decide, by decide, by decide⟩,
    setColumn_getColumn (· + 3) (by decide) (by decide) (by decide)⟩

/-- `getColumn(i, s)` after `setColumn(i, s, full)` is `full` at the grid points of the basis
elements and zero at every other point, when those points are distinct. -/
theorem getColumn_setColumn
    (distinct : ∀ k < Y.nbasis, ∀ k' < Y.nbasis, index k = index k' → k = k') (full : ℕ → E) :
    ∃ Y', Y.setColumn index i s (some full) = some Y' ∧
      Y'.getColumn index i s = some fun q => if ∃ k < Y.nbasis, index k = q then full q else 0 := by
  refine ⟨_, setColumn_of_lt index hi hs full, ?_⟩
  rw [getColumn_of_lt index ?_ ?_]
  · refine congrArg some (funext fun q => ?_)
    split_ifs with onGrid
    · obtain ⟨k, hk, rfl⟩ := onGrid
      rw [eblasScatterZdaxpy_hit distinct hk]
      simp [ColumnBundle.index, hk]
    · exact eblasScatterZdaxpy_miss fun k hk same => onGrid ⟨k, hk, same⟩
  exacts [hi, hs]

omit hi hs in
/-- The same column, set from the grid vector that holds `q` at each point `q`. -/
theorem getColumn_setColumn_shifted :
    let Y : ColumnBundle ℤ := ⟨1, 2, 2, 1, fun n => n⟩
    (0 < Y.nCols ∧ 0 < Y.nSpinor ∧ ∀ k < Y.nbasis, ∀ k' < Y.nbasis, k + 3 = k' + 3 → k = k') ∧
    ∃ Y', Y.setColumn (· + 3) 0 0 (some fun q => (q : ℤ)) = some Y' ∧
      Y'.getColumn (· + 3) 0 0 = some fun q => if ∃ k < Y.nbasis, k + 3 = q then (q : ℤ) else 0 := by
  intro Y
  exact ⟨⟨by decide, by decide, by decide⟩,
    getColumn_setColumn (· + 3) (by decide) (by decide) (by decide) _⟩

/-- When the `spinorLength()` blocks of `nbasis` elements fit in a column, `setColumn(i, s, full)`
changes what `getColumn` returns for block `(i, s)` alone: for every other pair `(i', s')`, in
range or not, `getColumn(i', s')` returns what it returned before. -/
theorem getColumn_setColumn_other (layout : Y.nSpinor * Y.nbasis ≤ Y.colLength) (full : ℕ → E) :
    ∃ Y', Y.setColumn index i s (some full) = some Y' ∧
      ∀ i' s' : ℤ, (i', s') ≠ ((i : ℤ), (s : ℤ)) →
        Y'.getColumn index i' s' = Y.getColumn index i' s' := by
  refine ⟨_, setColumn_of_lt index hi hs full, fun i' s' other => ?_⟩
  by_cases inRange : Y.checkColumnIndex i' s'
  · obtain ⟨i', s', rfl, rfl, hi', hs'⟩ := checkColumnIndex_iff.1 inRange
    rw [getColumn_of_lt index ?_ ?_, getColumn_of_lt index hi' hs']
    · simp only [ColumnBundle.index]
      refine congrArg some (eblasScatterZdaxpy_congr fun k hk => if_neg fun ⟨lo, up⟩ => other ?_)
      obtain ⟨rfl, rfl⟩ := @block_inj E Y layout i' s' i s k _ hs' hs hk
        (Nat.sub_lt_left_of_lt_add lo up) (by simp only [ColumnBundle.index]; omega)
      rfl
    exacts [hi', hs']
  · simp only [getColumn, checkColumnIndex] at inRange ⊢
    rw [if_neg inRange, if_neg inRange]

omit hi hs in
/-- Two columns of two spinor components of one basis element each; component `1` of column `0`
is set. -/
theorem getColumn_setColumn_other_spinor :
    let Y : ColumnBundle ℤ := ⟨2, 2, 1, 2, fun n => n⟩
    (0 < Y.nCols ∧ 1 < Y.nSpinor ∧ Y.nSpinor * Y.nbasis ≤ Y.colLength) ∧
    ∃ Y', Y.setColumn id 0 1 (some fun _ => 7) = some Y' ∧
      ∀ i' s' : ℤ, (i', s') ≠ (0, 1) → Y'.getColumn id i' s' = Y.getColumn id i' s' := by
  intro Y
  exact ⟨⟨by decide, by decide, by decide⟩,
    getColumn_setColumn_other id (by decide) (by decide) (by decide) _⟩

end ColumnBundle

end Grid

end Jdftx.Electronic
