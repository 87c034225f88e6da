/-
# Electronic.BundleProduct — `Y*M` and `Y1^Y2` (electronic/ColumnBundle.cpp)

`Y*M` multiplies the columns of a bundle by a matrix that carries a scale and a pending
transpose or dagger (`matrixScaledTransOp`), and `Y1^Y2 = Y1†·Y2` is the matrix of overlaps of
the columns of two bundles. Each is one `eblas_zgemm` call (`zgemm`, with BLAS's argument
checks) on the buffers seen as column-major matrices. Both have a shortcut for a non-spinor
bundle against a spinor one: each column `ψ` of the non-spinor bundle stands for the two spinor
columns `(ψ, 0)` and `(0, ψ)` (`spinorExpand`). Instead of building them, the code multiplies
the bundle as it is and moves the entries of the product into place with two strided `set`s
(`rowPairsToCols`, `colPairsToRows`).

* `overlap_spinor`: the shortcut of `Y1^Y2` gives the overlaps with the expanded bundle.
* `mulScaledTransOp_spinor`: the shortcut of `Y*M` gives the product of the expanded bundle,
  times `Mst.scale` once more: `matrix mIn(Mst)` applies the scale, and `scaleFac` applies it
  again.
* `mulScaledTransOp_columns`: without the shortcut, `zgemm` is told the `M->nCols()` columns of
  the matrix before its transpose, so that under a transpose or dagger of a matrix with more rows
  than columns the columns of the result from `mat.nCols()` on are never written; with fewer
  rows than columns the leading dimension `mat.nRows()` is below what BLAS accepts, and the call
  is refused.

The header of `matrixScaledTransOp` is not among the sources: `nRows()` and `nCols()` are those
of `op(mat)`, and a `scaled<matrix>` turned into a `matrix` is multiplied by its scale. The
element type is a commutative ring with a `star` in place of `complex`; a `double` scale is an
element of it. Only the CPU paths are modelled.
-/
import Jdftx.Electronic.ColumnBundle
import Jdftx.Electronic.TiledBlockMatrix
import Mathlib.Algebra.Star.Basic

namespace Jdftx.Electronic

set_option autoImplicit false

open Finset

variable {E : Type}

/-- `Σ_{l ∈ [0, n)}` over `int` is the sum over `l < n`. -/
theorem sum_Ico_natCast {F : Type} [AddCommMonoid F] (n : ℕ) (f : ℤ → F) :
    ∑ l ∈ Ico (0 : ℤ) n, f l = ∑ l ∈ range n, f l := by
  rw [Int.Ico_eq_finset_map, sum_map, sub_zero, Int.toNat_natCast]
  simp

/-! ## Moving pairs of rows into pairs of columns -/

theorem ceildiv_two {num : ℤ} (h : -1 ≤ num) : ceildiv num 2 = (num + 1) / 2 := by
  rw [ceildiv, Int.tdiv_eq_ediv (by omega) (by norm_num)]
  ring_nf

namespace Matrix

/-- `out.set(0,1,n, 0,2,2p, in(0,2,2n, 0,1,p))`, then
`out.set(0,1,n, 1,2,2p, in(1,2,2n, 0,1,p))`: entry `(2i+s, j)` of the `2n × p` matrix `in` goes
to entry `(i, 2j+s)` of the `n × 2p` matrix `out`. -/
def rowPairsToCols (input out : Matrix E) (fresh : ℤ → E) : Option (Matrix E) := do
  let even ← input.subGet ⟨0, 2, input.nr, 0, 1, input.nc⟩ fresh
  let out ← out.set ⟨0, 1, out.nr, 0, 2, out.nc⟩ even
  let odd ← input.subGet ⟨1, 2, input.nr, 0, 1, input.nc⟩ fresh
  out.set ⟨0, 1, out.nr, 1, 2, out.nc⟩ odd

/-- `out.set(0,2,2n, 0,1,p, in(0,1,n, 0,2,2p))`, then
`out.set(1,2,2n, 0,1,p, in(0,1,n, 1,2,2p))`: entry `(i, 2j+s)` of the `n × 2p` matrix `in` goes
to entry `(2i+s, j)` of the `2n × p` matrix `out`. -/
def colPairsToRows (input out : Matrix E) (fresh : ℤ → E) : Option (Matrix E) := do
  let even ← input.subGet ⟨0, 1, input.nr, 0, 2, input.nc⟩ fresh
  let out ← out.set ⟨0, 2, out.nr, 0, 1, out.nc⟩ even
  let odd ← input.subGet ⟨0, 1, input.nr, 1, 2, input.nc⟩ fresh
  out.set ⟨1, 2, out.nr, 0, 1, out.nc⟩ odd

variable {input out : Matrix E} {n p : ℕ}

/-- `out.set(dst, in(src))` on slices of one shape: each element the source slice reads lands at
its place in the destination slice, and no other entry of a row of `out` changes. -/
theorem set_subGet_move (fresh : ℤ → E) {src dst : Slice} (srcOk : src.Asserts input.nr input.nc)
    (dstOk : dst.Asserts out.nr out.nc) (rows : src.iDelta = dst.iDelta)
    (cols : src.jDelta = dst.jDelta) :
    ∃ m out', input.subGet src fresh = some m ∧ out.set dst m = some out' ∧
      out'.nr = out.nr ∧ out'.nc = out.nc ∧
      (∀ k ∈ loopNest dst.iDelta dst.jDelta,
        out'.entry (dst.row k.1) (dst.col k.2) = input.entry (src.row k.1) (src.col k.2)) ∧
      ∀ i j, 0 ≤ i → i < out.nr → (i, j) ∉ dst.sources → out'.entry i j = out.entry i j := by
  obtain ⟨m, get, mRows, mCols, mEntries⟩ := subGet_spec fresh (.inr srcOk)
  obtain ⟨out', put, outRows, outCols, stored, frame⟩ :=
    set_spec dstOk (by rw [mRows, rows]) (by rw [mCols, cols])
  refine ⟨m, out', get, put, outRows, outCols, fun k mem => ?_, frame⟩
  rw [stored k mem, mEntries k (by rwa [rows, cols])]

theorem rowPairsToCols_spec (fresh : ℤ → E) (inRows : input.nr = 2 * n) (inCols : input.nc = p)
    (outRows : out.nr = n) (outCols : out.nc = 2 * p) (pos : 0 < n) :
    ∃ out', rowPairsToCols input out fresh = some out' ∧ out'.nr = n ∧ out'.nc = 2 * p ∧
      ∀ i < n, ∀ j < p, ∀ s : ℕ, s < 2 → out'.entry i (2 * j + s) = input.entry (2 * i + s) j := by
  have halves : ceildiv input.nr 2 = n ∧ ceildiv (input.nr - 1) 2 = n ∧
      ceildiv out.nc 2 = p ∧ ceildiv (out.nc - 1) 2 = p := by
    simp only [ceildiv_two (by omega : -1 ≤ input.nr), ceildiv_two (by omega : -1 ≤ input.nr - 1),
      ceildiv_two (by omega : -1 ≤ out.nc), ceildiv_two (by omega : -1 ≤ out.nc - 1)]
    omega
  obtain ⟨even, out₁, getEven, setEven, rows₁, cols₁, storedEven, -⟩ :=
    @set_subGet_move E input out fresh ⟨0, 2, input.nr, 0, 1, input.nc⟩
      ⟨0, 1, out.nr, 0, 2, out.nc⟩ (by simp only [Slice.Asserts]; omega)
      (by simp only [Slice.Asserts]; omega)
      (by simp only [Slice.iDelta, sub_zero, ceildiv_one, halves]; omega)
      (by simp only [Slice.jDelta, sub_zero, ceildiv_one, halves]; omega)
  obtain ⟨odd, out₂, getOdd, setOdd, rows₂, cols₂, storedOdd, frame⟩ :=
    @set_subGet_move E input out₁ fresh ⟨1, 2, input.nr, 0, 1, input.nc⟩
      ⟨0, 1, out₁.nr, 1, 2, out₁.nc⟩ (by simp only [Slice.Asserts]; omega)
      (by simp only [Slice.Asserts]; omega)
      (by simp only [Slice.iDelta, sub_zero, ceildiv_one, halves]; omega)
      (by simp only [Slice.jDelta, sub_zero, ceildiv_one, cols₁, halves]; omega)
  refine ⟨out₂, ?_, by omega, by omega, fun i hi j hj s hs => ?_⟩
  · simp only [rowPairsToCols, getEven, setEven, getOdd, setOdd, Option.bind_eq_bind,
      Option.some_bind]
  rcases (by omega : s = 0 ∨ s = 1) with rfl | rfl
  · have unwritten : ((i : ℤ), 2 * (j : ℤ)) ∉ Slice.sources ⟨0, 1, out₁.nr, 1, 2, out₁.nc⟩ := by
      intro mem
      obtain ⟨k, -, same⟩ := List.mem_map.1 mem
      simp only [Slice.col, Prod.mk.injEq] at same
      omega
    rw [Nat.cast_zero, add_zero, add_zero, frame _ _ (by omega) (by omega) unwritten]
    simpa [Slice.row, Slice.col, mul_comm] using storedEven (i, j) (mem_loopNest.2
      ⟨by simp only [Slice.iDelta, sub_zero, ceildiv_one]; omega,
        by simp only [Slice.jDelta, sub_zero, halves]; omega⟩)
  · simpa [Slice.row, Slice.col, mul_comm, add_comm] using storedOdd (i, j) (mem_loopNest.2
      ⟨by simp only [Slice.iDelta, sub_zero, ceildiv_one]; omega,
        by simp only [Slice.jDelta, cols₁, halves]; omega⟩)

theorem colPairsToRows_spec (fresh : ℤ → E) (inRows : input.nr = n) (inCols : input.nc = 2 * p)
    (outRows : out.nr = 2 * n) (outCols : out.nc = p) (pos : 0 < n) :
    ∃ out', colPairsToRows input out fresh = some out' ∧ out'.nr = 2 * n ∧ out'.nc = p ∧
      ∀ i < n, ∀ j < p, ∀ s : ℕ, s < 2 → out'.entry (2 * i + s) j = input.entry i (2 * j + s) := by
  have halves : ceildiv input.nc 2 = p ∧ ceildiv (input.nc - 1) 2 = p ∧
      ceildiv out.nr 2 = n ∧ ceildiv (out.nr - 1) 2 = n := by
    simp only [ceildiv_two (by omega : -1 ≤ input.nc), ceildiv_two (by omega : -1 ≤ input.nc - 1),
      ceildiv_two (by omega : -1 ≤ out.nr), ceildiv_two (by omega : -1 ≤ out.nr - 1)]
    omega
  obtain ⟨even, out₁, getEven, setEven, rows₁, cols₁, storedEven, -⟩ :=
    @set_subGet_move E input out fresh ⟨0, 1, input.nr, 0, 2, input.nc⟩
      ⟨0, 2, out.nr, 0, 1, out.nc⟩ (by simp only [Slice.Asserts]; omega)
      (by simp only [Slice.Asserts]; omega)
      (by simp only [Slice.iDelta, sub_zero, ceildiv_one, halves]; omega)
      (by simp only [Slice.jDelta, sub_zero, ceildiv_one, halves]; omega)
  obtain ⟨odd, out₂, getOdd, setOdd, rows₂, cols₂, storedOdd, frame⟩ :=
    @set_subGet_move E input out₁ fresh ⟨0, 1, input.nr, 1, 2, input.nc⟩
      ⟨1, 2, out₁.nr, 0, 1, out₁.nc⟩ (by simp only [Slice.Asserts]; omega)
      (by simp only [Slice.Asserts]; omega)
      (by simp only [Slice.iDelta, sub_zero, ceildiv_one, rows₁, halves]; omega)
      (by simp only [Slice.jDelta, sub_zero, ceildiv_one, halves]; omega)
  refine ⟨out₂, ?_, by omega, by omega, fun i hi j hj s hs => ?_⟩
  · simp only [colPairsToRows, getEven, setEven, getOdd, setOdd, Option.bind_eq_bind,
      Option.some_bind]
  rcases (by omega : s = 0 ∨ s = 1) with rfl | rfl
  · have unwritten : (2 * (i : ℤ), (j : ℤ)) ∉ Slice.sources ⟨1, 2, out₁.nr, 0, 1, out₁.nc⟩ := by
      intro mem
      obtain ⟨k, -, same⟩ := List.mem_map.1 mem
      simp only [Slice.row, Prod.mk.injEq] at same
      omega
    rw [Nat.cast_zero, add_zero, add_zero, frame _ _ (by omega) (by omega) unwritten]
    simpa [Slice.row, Slice.col, mul_comm] using storedEven (i, j) (mem_loopNest.2
      ⟨by simp only [Slice.iDelta, sub_zero, halves]; omega,
        by simp only [Slice.jDelta, sub_zero, ceildiv_one]; omega⟩)
  · simpa [Slice.row, Slice.col, mul_comm, add_comm] using storedOdd (i, j) (mem_loopNest.2
      ⟨by simp only [Slice.iDelta, rows₁, halves]; omega,
        by simp only [Slice.jDelta, sub_zero, ceildiv_one]; omega⟩)

end Matrix

namespace ColumnBundle

variable {F : Type}

/-- `dataPref()`: the buffer as `eblas` reads it. -/
def buf (Y : ColumnBundle F) : ℤ → F := fun x => Y.data x.toNat

/-- The bundle whose buffer a call wrote, as `eblas` wrote it. -/
def withBuf (Y : ColumnBundle F) (C : ℤ → F) : ColumnBundle F := { Y with data := fun n => C n }

theorem buf_eq_column (Y : ColumnBundle F) (l x : ℕ) :
    Y.buf (x + Y.colLength * l) = Y.column l x := by
  rw [buf, column, ← Nat.cast_mul, ← Nat.cast_add, Int.toNat_natCast, Nat.add_comm, Nat.mul_comm]

theorem column_withBuf (Y : ColumnBundle F) (C : ℤ → F) (l x : ℕ) :
    (Y.withBuf C).column l x = C (x + Y.colLength * l) := by
  simp only [withBuf, column]
  push_cast
  ring_nf

/-- The spinor bundle the shortcuts stand for: column `l` of the non-spinor `Y` as the spinor
columns `2l`, holding `(ψ, 0)`, and `2l+1`, holding `(0, ψ)`. Element `s·colLength + g` of
spinor column `c` is element `g` of column `c/2` when `s = c % 2`, and `0` otherwise. -/
def spinorExpand [Zero F] (Y : ColumnBundle F) : ColumnBundle F where
  nCols := 2 * Y.nCols
  colLength := 2 * Y.colLength
  nbasis := Y.nbasis
  nSpinor := 2
  data x :=
    let c := x / (2 * Y.colLength)
    let r := x % (2 * Y.colLength)
    if r / Y.colLength = c % 2 then Y.data (c / 2 * Y.colLength + r % Y.colLength) else 0

theorem spinorExpand_column [Zero F] (Y : ColumnBundle F) {l s s' g : ℕ} (hs : s < 2)
    (hs' : s' < 2) (hg : g < Y.colLength) :
    Y.spinorExpand.column (2 * l + s') (s * Y.colLength + g) =
      if s = s' then Y.column l g else 0 := by
  have len : 0 < Y.colLength := by omega
  have within : s * Y.colLength + g < 2 * Y.colLength := by
    rcases (by omega : s = 0 ∨ s = 1) with rfl | rfl <;> omega
  have col : ((2 * l + s') * (2 * Y.colLength) + (s * Y.colLength + g)) / (2 * Y.colLength) =
      2 * l + s' := by
    rw [Nat.mul_comm, Nat.mul_add_div (by omega), Nat.div_eq_of_lt within, Nat.add_zero]
  have rest : ((2 * l + s') * (2 * Y.colLength) + (s * Y.colLength + g)) % (2 * Y.colLength) =
      s * Y.colLength + g := by
    rw [Nat.mul_comm, Nat.mul_add_mod, Nat.mod_eq_of_lt within]
  have part : (s * Y.colLength + g) / Y.colLength = s := by
    rw [Nat.mul_comm, Nat.mul_add_div len, Nat.div_eq_of_lt hg, Nat.add_zero]
  have elem : (s * Y.colLength + g) % Y.colLength = g := by
    rw [Nat.mul_comm, Nat.mul_add_mod, Nat.mod_eq_of_lt hg]
  simp only [spinorExpand, column, col, rest, part, elem]
  have : (2 * l + s') % 2 = s' := by omega
  have half : (2 * l + s') / 2 = l := by omega
  rw [this, half]

end ColumnBundle

/-! ## `Y*M` -/

/-- A `matrixScaledTransOp`: `scale·op(mat)`, with the operation still pending. -/
structure MatrixScaledTransOp (E : Type) where
  mat : Matrix E
  scale : E
  op : BlasOp

section Products

variable [CommRing E] [StarRing E]

omit [StarRing E] in
theorem sum_range_two_mul (f : ℕ → E) (n : ℕ) :
    ∑ k ∈ range (2 * n), f k = ∑ l ∈ range n, (f (2 * l) + f (2 * l + 1)) := by
  induction n with
  | zero => rfl
  | succ n ih =>
    rw [Nat.mul_succ, sum_range_succ, sum_range_succ, ih, sum_range_succ]
    ring

namespace MatrixScaledTransOp

variable (Mst : MatrixScaledTransOp E)

/-- `nRows()`: the rows of `op(mat)`. -/
def nRows : ℤ := if Mst.op = .noTrans then Mst.mat.nr else Mst.mat.nc

/-- `nCols()`: the columns of `op(mat)`. -/
def nCols : ℤ := if Mst.op = .noTrans then Mst.mat.nc else Mst.mat.nr

/-- Entry `(i, j)` of `op(mat)`. -/
def entry (i j : ℤ) : E := Mst.op.entry Mst.mat.data Mst.mat.nr i j

/-- `operator matrix()`: `scale * mat`, or a new `mat.nCols() × mat.nRows()` matrix that holds
`scale * conjOp(mat(j,i))` at `(i, j)`. -/
def toMatrix (fresh : ℤ → E) : Matrix E :=
  if Mst.op = .noTrans then ⟨Mst.mat.nr, Mst.mat.nc, fun x => Mst.scale * Mst.mat.data x⟩
  else
    let ret : Matrix E := ⟨Mst.mat.nc, Mst.mat.nr, fresh⟩
    { ret with
      data := storeAll (fun k => ret.index k.1 k.2)
        (fun k => Mst.scale * Mst.op.conj (Mst.mat.entry k.2 k.1)) (loopNest Mst.mat.nc Mst.mat.nr)
        ret.data }

omit [CommRing E] [StarRing E] in
theorem nCols_nonneg (shape : 0 ≤ Mst.mat.nr ∧ 0 ≤ Mst.mat.nc) : 0 ≤ Mst.nCols := by
  unfold nCols
  split_ifs <;> omega

/-- `matrix(Mst)` is `scale·op(mat)`, of the shape of `op(mat)`. -/
theorem toMatrix_spec (fresh : ℤ → E) :
    (Mst.toMatrix fresh).nr = Mst.nRows ∧ (Mst.toMatrix fresh).nc = Mst.nCols ∧
      ∀ i j : ℕ, (i : ℤ) < Mst.nRows → (j : ℤ) < Mst.nCols →
        (Mst.toMatrix fresh).entry i j = Mst.scale * Mst.entry i j := by
  by_cases same : Mst.op = .noTrans
  · refine ⟨by simp [toMatrix, nRows, same], by simp [toMatrix, nCols, same], fun i j _ _ => ?_⟩
    simp only [toMatrix, entry, BlasOp.entry, Matrix.entry, Matrix.index, if_pos same, add_comm]
  · refine ⟨by simp [toMatrix, nRows, same], by simp [toMatrix, nCols, same], fun i j hi hj => ?_⟩
    simp only [nRows, nCols, if_neg same] at hi hj
    have loop : ((i, j) : ℕ × ℕ) ∈ loopNest Mst.mat.nc Mst.mat.nr := mem_loopNest.2 ⟨hi, hj⟩
    simp only [toMatrix, entry, BlasOp.entry, if_neg same]
    refine (storeAll_apply _ _ loop (fun k mem same => ?_) fresh).trans ?_
    · have := mul_add_inj same ⟨k.1.cast_nonneg, (mem_loopNest.1 mem).1⟩ ⟨i.cast_nonneg, hi⟩
      exact Prod.ext (by exact_mod_cast this.1) (by exact_mod_cast this.2)
    · simp only [Matrix.entry, Matrix.index, add_comm]

end MatrixScaledTransOp

/-- `operator*(const scaled<ColumnBundle>& sY, const matrixScaledTransOp& Mst)` on the CPU: `sY`
is the scale of `scaled<ColumnBundle>`, `none` when a `myassert` fails or BLAS refuses the call,
and `fresh` is what a new buffer holds. -/
def mulScaledTransOp (sY : E) (Y : ColumnBundle E) (Mst : MatrixScaledTransOp E)
    (fresh : ℤ → E) : Option (ColumnBundle E) :=
  let scaleFac := sY * Mst.scale
  if 2 * (Y.nCols : ℤ) = Mst.nRows then do
    let mIn := Mst.toMatrix fresh
    let Mtmp ← Matrix.rowPairsToCols mIn ⟨Y.nCols, 2 * mIn.nc, fresh⟩ fresh
    let YM ← if Y.nSpinor = 2 then none
      else ColumnBundle.init mIn.nc.toNat (Y.colLength * 2) Y.nbasis Y.nSpinor fun n => fresh n
    let buf ← zgemm .noTrans .noTrans Y.colLength Mtmp.nc Y.nCols scaleFac Y.buf Y.colLength
      Mtmp.data Mtmp.nr 0 YM.buf Y.colLength
    some (YM.withBuf buf)
  else if (Y.nCols : ℤ) = Mst.nRows then do
    let YM ← Y.similar (if Mst.nCols < 0 then Y.nCols else Mst.nCols.toNat) fun n => fresh n
    let buf ← zgemm .noTrans Mst.op Y.colLength Mst.mat.nc Y.nCols scaleFac Y.buf Y.colLength
      Mst.mat.data Mst.mat.nr 0 YM.buf Y.colLength
    some (YM.withBuf buf)
  else none

/-- Element `x` of column `j` of `alpha·Y·op(mat)`. -/
def productColumn (alpha : E) (Y : ColumnBundle E) (Mst : MatrixScaledTransOp E) (j x : ℕ) : E :=
  alpha * ∑ l ∈ range Y.nCols, Y.column l x * Mst.entry l j

omit [CommRing E] [StarRing E] in
/-- Without the shortcut, BLAS accepts the call of `Y*M` when the matrix is stored with at least
as many rows as `zgemm` is told `op(mat)` has columns: always under no operation, and under a
transpose or dagger when `mat.nCols() ≤ mat.nRows()`. -/
theorem mulScaledTransOp_legal {Y : ColumnBundle E} {Mst : MatrixScaledTransOp E}
    (rows : (Y.nCols : ℤ) = Mst.nRows) (cols : 0 < Y.nCols) (length : Y.colLength ≠ 0)
    (shape : 0 ≤ Mst.mat.nr ∧ 0 ≤ Mst.mat.nc) (ldb : Mst.op = .noTrans ∨ Mst.mat.nc ≤ Mst.mat.nr) :
    ZgemmLegal .noTrans Mst.op Y.colLength Mst.mat.nc Y.nCols Y.colLength Mst.mat.nr
      Y.colLength := by
  simp only [MatrixScaledTransOp.nRows] at rows
  by_cases same : Mst.op = .noTrans <;>
    simp only [ZgemmLegal, BlasOp.storedRows, same, if_true, if_false, true_or, false_or] at rows ldb ⊢ <;>
    omega

/-- Without the shortcut, `Y*M` is one `zgemm` of `Y` and `op(mat)` over `mat.nCols()` columns into
a new bundle of `nCols()` columns of `Y`'s length, whenever BLAS accepts the call. -/
theorem mulScaledTransOp_eq_gemm {sY : E} {Y : ColumnBundle E} {Mst : MatrixScaledTransOp E}
    (fresh : ℤ → E) (rows : (Y.nCols : ℤ) = Mst.nRows) (cols : 0 < Y.nCols)
    (length : Y.colLength ≠ 0) (shape : 0 ≤ Mst.mat.nr ∧ 0 ≤ Mst.mat.nc)
    (ldb : Mst.op = .noTrans ∨ Mst.mat.nc ≤ Mst.mat.nr) :
    let YM : ColumnBundle E :=
      ⟨Mst.nCols.toNat, Y.colLength, Y.nbasis, Y.nSpinor, fun n => fresh n⟩
    mulScaledTransOp sY Y Mst fresh = some (YM.withBuf (gemmStores .noTrans Mst.op Y.colLength
      Mst.mat.nc Y.nCols (sY * Mst.scale) Y.buf Y.colLength Mst.mat.data Mst.mat.nr 0 YM.buf
      Y.colLength)) := by
  simp only [mulScaledTransOp, if_neg (by omega : 2 * (Y.nCols : ℤ) ≠ Mst.nRows), if_pos rows,
    if_neg (not_lt.2 (Mst.nCols_nonneg shape)), ColumnBundle.similar, ColumnBundle.init, length,
    and_false, if_false, Option.bind_eq_bind, Option.some_bind,
    zgemm_of_legal (mulScaledTransOp_legal rows cols length shape ldb)]

/-- Column `j` of the `zgemm` of `Y` and `op(mat)` over `mat.nCols()` columns into the buffer of
`YM`: that of `alpha·Y·op(mat)` for `j < mat.nCols()`, and what `YM` held from there on. -/
theorem column_gemm (alpha : E) (Y YM : ColumnBundle E) (Mst : MatrixScaledTransOp E)
    (same : YM.colLength = Y.colLength) {j x : ℕ} (hx : x < Y.colLength) :
    (YM.withBuf (gemmStores .noTrans Mst.op Y.colLength Mst.mat.nc Y.nCols alpha Y.buf
      Y.colLength Mst.mat.data Mst.mat.nr 0 YM.buf Y.colLength)).column j x =
        if (j : ℤ) < Mst.mat.nc then productColumn alpha Y Mst j x else YM.column j x := by
  rw [ColumnBundle.column_withBuf, same]
  split_ifs with written
  · rw [gemmStores_apply le_rfl ⟨x.cast_nonneg, by omega⟩ ⟨j.cast_nonneg, written⟩, zero_mul,
      add_zero, sum_Ico_natCast, productColumn]
    simp only [BlasOp.entry, if_true, ColumnBundle.buf_eq_column, MatrixScaledTransOp.entry]
  · rw [gemmStores_apply_of_le le_rfl ⟨x.cast_nonneg, by omega⟩ (not_lt.1 written), ← same,
      ColumnBundle.buf_eq_column]

/-- Without the shortcut, when BLAS accepts the call, `Y*M` has the `nCols()` columns of
`op(mat)`, and column `j` is that of `scaleFac·Y·op(mat)` only for `j < mat.nCols()`: `zgemm` is
told `M->nCols()` columns, and the columns from there on keep what the new buffer held. -/
theorem mulScaledTransOp_columns {sY : E} {Y : ColumnBundle E} {Mst : MatrixScaledTransOp E}
    (fresh : ℤ → E) (rows : (Y.nCols : ℤ) = Mst.nRows) (cols : 0 < Y.nCols)
    (length : Y.colLength ≠ 0) (shape : 0 ≤ Mst.mat.nr ∧ 0 ≤ Mst.mat.nc)
    (ldb : Mst.op = .noTrans ∨ Mst.mat.nc ≤ Mst.mat.nr) :
    ∃ YM, mulScaledTransOp sY Y Mst fresh = some YM ∧ (YM.nCols : ℤ) = Mst.nCols ∧
      YM.colLength = Y.colLength ∧ ∀ j < YM.nCols, ∀ x < Y.colLength, YM.column j x =
        if (j : ℤ) < Mst.mat.nc then productColumn (sY * Mst.scale) Y Mst j x
        else fresh ((j * Y.colLength + x : ℕ) : ℤ) := by
  refine ⟨_, mulScaledTransOp_eq_gemm fresh rows cols length shape ldb,
    Int.toNat_of_nonneg (Mst.nCols_nonneg shape), rfl, fun j _ x hx => ?_⟩
  rw [column_gemm _ _ _ _ ?_ hx]
  exacts [rfl, rfl]

/-- A transposed `3 × 2` matrix against two columns: `Y*M` has three columns. -/
theorem mulScaledTransOp_columns_trans :
    let Y : ColumnBundle ℤ := ⟨2, 1, 1, 1, fun _ => 1⟩
    let Mst : MatrixScaledTransOp ℤ := ⟨⟨3, 2, fun _ => 1⟩, 1, .trans⟩
    ((Y.nCols : ℤ) = Mst.nRows ∧ 0 < Y.nCols ∧ Y.colLength ≠ 0 ∧ 0 ≤ Mst.mat.nr ∧
      0 ≤ Mst.mat.nc ∧ (Mst.op = .noTrans ∨ Mst.mat.nc ≤ Mst.mat.nr)) ∧
    ∃ YM, mulScaledTransOp 1 Y Mst (fun _ => 5) = some YM ∧ (YM.nCols : ℤ) = Mst.nCols ∧
      YM.colLength = Y.colLength ∧ ∀ j < YM.nCols, ∀ x < Y.colLength, YM.column j x =
        if (j : ℤ) < Mst.mat.nc then productColumn (1 * Mst.scale) Y Mst j x
        else (fun _ => 5 : ℤ → ℤ) ((j * Y.colLength + x : ℕ) : ℤ) := by
  intro Y Mst
  exact ⟨⟨by decide, by decide, by decide, by decide, by decide, by decide⟩,
    mulScaledTransOp_columns _ (by decide) (by decide) (by decide) ⟨by decide, by decide⟩
      (by decide)⟩

/-- The transpose of a `1 × 2` matrix against two columns of one element: `zgemm` is told
`N = mat.nCols() = 2` with `ldb = mat.nRows() = 1`, which BLAS refuses. -/
example : mulScaledTransOp 1 ⟨2, 1, 1, 1, fun _ => 1⟩
    ⟨⟨1, 2, fun _ => 1⟩, 1, .trans⟩ (fun _ => (0 : ℤ)) = none := by
  have refused : ¬ ZgemmLegal .noTrans .trans 1 2 2 1 1 1 := by decide
  simp [mulScaledTransOp, MatrixScaledTransOp.nRows, MatrixScaledTransOp.nCols,
    ColumnBundle.similar, ColumnBundle.init, zgemm_of_not_legal refused]

omit [StarRing E] in
/-- Summed against weights, column `s·colLength + g` of the expanded bundle picks element `g` of
each column `l`, at the weight of spinor column `2l + s`. -/
theorem sum_spinorExpand (Y : ColumnBundle E) {s g : ℕ} (hs : s < 2) (hg : g < Y.colLength)
    (w : ℕ → E) :
    ∑ k ∈ range Y.spinorExpand.nCols, Y.spinorExpand.column k (s * Y.colLength + g) * w k =
      ∑ l ∈ range Y.nCols, Y.column l g * w (2 * l + s) := by
  rw [show Y.spinorExpand.nCols = 2 * Y.nCols from rfl, sum_range_two_mul]
  refine sum_congr rfl fun l _ => ?_
  have up := @ColumnBundle.spinorExpand_column E _ Y l s 0 g hs two_pos hg
  have down := @ColumnBundle.spinorExpand_column E _ Y l s 1 g hs one_lt_two hg
  rw [Nat.add_zero] at up
  rw [up, down]
  rcases (by omega : s = 0 ∨ s = 1) with rfl | rfl <;> simp

/-- The shortcut of `Y*M`, for a non-spinor `Y` against a matrix of `2·nCols` rows, gives the
product of the expanded bundle `spinorExpand Y` with `op(mat)`, times `Mst.scale` once more than
`scaleFac`: `matrix mIn(Mst)` applies the scale, and `zgemm` applies `scaleFac`. -/
theorem mulScaledTransOp_spinor {sY : E} {Y : ColumnBundle E} {Mst : MatrixScaledTransOp E}
    (fresh : ℤ → E) (spinorMode : 2 * (Y.nCols : ℤ) = Mst.nRows) (cols : 0 < Y.nCols)
    (notSpinor : Y.nSpinor ≠ 2) (length : Y.colLength ≠ 0)
    (shape : 0 ≤ Mst.mat.nr ∧ 0 ≤ Mst.mat.nc) :
    ∃ YM, mulScaledTransOp sY Y Mst fresh = some YM ∧ (YM.nCols : ℤ) = Mst.nCols ∧
      YM.colLength = 2 * Y.colLength ∧ ∀ j < YM.nCols, ∀ x < YM.colLength,
        YM.column j x = Mst.scale * productColumn (sY * Mst.scale) Y.spinorExpand Mst j x := by
  have nonneg := Mst.nCols_nonneg shape
  obtain ⟨inRows, inCols, inEntries⟩ := Mst.toMatrix_spec fresh
  obtain ⟨Mtmp, pairs, tmpRows, tmpCols, tmpEntries⟩ :=
    @Matrix.rowPairsToCols_spec E (Mst.toMatrix fresh) ⟨Y.nCols, 2 * (Mst.toMatrix fresh).nc, fresh⟩
      Y.nCols Mst.nCols.toNat fresh (by rw [inRows, ← spinorMode]) (by rw [inCols]; omega) rfl
      (by show 2 * _ = _; rw [inCols]; omega) cols
  let YM : ColumnBundle E :=
    ⟨Mst.nCols.toNat, Y.colLength * 2, Y.nbasis, Y.nSpinor, fun n => fresh n⟩
  have legal : ZgemmLegal .noTrans .noTrans Y.colLength Mtmp.nc Y.nCols Y.colLength Mtmp.nr
      Y.colLength := by
    simp only [ZgemmLegal, BlasOp.storedRows, if_true, tmpRows, tmpCols]
    omega
  refine ⟨YM.withBuf (gemmStores .noTrans .noTrans Y.colLength Mtmp.nc Y.nCols (sY * Mst.scale)
      Y.buf Y.colLength Mtmp.data Mtmp.nr 0 YM.buf Y.colLength), ?_, ?_, Nat.mul_comm _ _,
    fun j hj x hx => ?_⟩
  · have tmpNc : (Mst.toMatrix fresh).nc.toNat = Mst.nCols.toNat := by rw [inCols]
    simp only [mulScaledTransOp, if_pos spinorMode, pairs, if_neg notSpinor, ColumnBundle.init,
      tmpNc, length, Nat.mul_eq_zero, false_or, OfNat.ofNat_ne_zero, and_false, if_false,
      Option.bind_eq_bind, Option.some_bind, YM, zgemm_of_legal legal]
  · show ((Mst.nCols.toNat : ℕ) : ℤ) = Mst.nCols
    omega
  · have hj' : j < Mst.nCols.toNat := hj
    have hx' : x < 2 * Y.colLength := by rw [Nat.mul_comm]; exact hx
    obtain ⟨s, g, hs, hg, rfl⟩ : ∃ s g, s < 2 ∧ g < Y.colLength ∧ x = s * Y.colLength + g :=
      ⟨x / Y.colLength, x % Y.colLength, (Nat.div_lt_iff_lt_mul (by omega)).2 hx',
        Nat.mod_lt _ (by omega), (Nat.div_add_mod' x _).symm⟩
    have index : ((s * Y.colLength + g : ℕ) : ℤ) + (Y.colLength * 2 : ℕ) * j =
        g + Y.colLength * (2 * j + s) := by
      push_cast
      ring
    rw [ColumnBundle.column_withBuf, show YM.colLength = Y.colLength * 2 from rfl, index,
      gemmStores_apply le_rfl ⟨g.cast_nonneg, by omega⟩ ⟨by omega, by rw [tmpCols]; omega⟩,
      zero_mul, add_zero, sum_Ico_natCast, productColumn, sum_spinorExpand Y hs hg, mul_sum,
      mul_sum, mul_sum]
    refine sum_congr rfl fun l hl => ?_
    have hl' := mem_range.1 hl
    have moved := tmpEntries l hl' j hj' s hs
    have scaled := inEntries (2 * l + s) j (by rw [← spinorMode]; omega) (by omega)
    push_cast at scaled
    simp only [BlasOp.entry, if_true, ColumnBundle.buf_eq_column]
    rw [show (l : ℤ) + Mtmp.nr * (2 * j + s) = Mtmp.index l (2 * j + s) by
      rw [Matrix.index]; ring, ← Matrix.entry, moved, scaled]
    push_cast
    ring

/-- One non-spinor column against a `2 × 1` matrix of scale `2`. -/
theorem mulScaledTransOp_spinor_column :
    let Y : ColumnBundle ℤ := ⟨1, 1, 1, 1, fun _ => 3⟩
    let Mst : MatrixScaledTransOp ℤ := ⟨⟨2, 1, fun _ => 1⟩, 2, .noTrans⟩
    (2 * (Y.nCols : ℤ) = Mst.nRows ∧ 0 < Y.nCols ∧ Y.nSpinor ≠ 2 ∧ Y.colLength ≠ 0 ∧
      0 ≤ Mst.mat.nr ∧ 0 ≤ Mst.mat.nc) ∧
    ∃ YM, mulScaledTransOp 1 Y Mst (fun _ => 0) = some YM ∧ (YM.nCols : ℤ) = Mst.nCols ∧
      YM.colLength = 2 * Y.colLength ∧ ∀ j < YM.nCols, ∀ x < YM.colLength,
        YM.column j x = Mst.scale * productColumn (1 * Mst.scale) Y.spinorExpand Mst j x := by
  intro Y Mst
  exact ⟨⟨by decide, by decide, by decide, by decide, by decide, by decide⟩,
    mulScaledTransOp_spinor _ (by decide) (by decide) (by decide) (by decide)
      ⟨by decide, by decide⟩⟩

/-! ## `Y1^Y2` -/

/-- The column counts and the column length of the `zgemm` of `Y1^Y2`: those of the bundles when
their columns have one length; when exactly one is a spinor on a common basis,
`nCols()*spinorLength()` columns of `nbasis` numbers each; `none` when a `myassert` fails. -/
def overlapShape (Y1 Y2 : ColumnBundle E) : Option (ℕ × ℕ × ℕ) :=
  if Y1.colLength = Y2.colLength then some (Y1.nCols, Y2.nCols, Y1.colLength)
  else if Y1.nbasis = Y2.nbasis ∧ (Y1.nSpinor = 2 ↔ Y2.nSpinor ≠ 2) then
    some (Y1.nCols * Y1.nSpinor, Y2.nCols * Y2.nSpinor, Y1.nbasis)
  else none

/-- `operator^(const scaled<ColumnBundle>& sY1, const scaled<ColumnBundle>& sY2)` on the CPU:
`Y1†·Y2` by one `zgemm`, then, when one bundle is a spinor, its entries moved so that the
non-spinor bundle counts two spinor columns per column. -/
def overlap (s1 : E) (Y1 : ColumnBundle E) (s2 : E) (Y2 : ColumnBundle E) (fresh : ℤ → E) :
    Option (Matrix E) := do
  let (nCols1, nCols2, colLength) ← overlapShape Y1 Y2
  let data ← zgemm .conjTrans .noTrans nCols1 nCols2 colLength (s1 * s2) Y1.buf colLength Y2.buf
    colLength 0 fresh nCols1
  let Y1dY2 : Matrix E := ⟨nCols1, nCols2, data⟩
  if Y1.nCols ≠ nCols1 then Matrix.rowPairsToCols Y1dY2 ⟨Y1.nCols, 2 * nCols2, fresh⟩ fresh
  else if Y2.nCols ≠ nCols2 then Matrix.colPairsToRows Y1dY2 ⟨2 * nCols1, Y2.nCols, fresh⟩ fresh
  else some Y1dY2

/-- Entry `(a, c)` of `alpha·Y1†·Y2`: the overlap of column `a` of `Y1` with column `c` of
`Y2`. -/
def overlapEntry (alpha : E) (Y1 Y2 : ColumnBundle E) (a c : ℕ) : E :=
  alpha * ∑ x ∈ range Y1.colLength, star (Y1.column a x) * Y2.column c x

/-- `Y` as the spinor bundle it stands for against `other`: expanded when `other` is a spinor
and `Y` is not. -/
def ColumnBundle.asSpinorOf (Y other : ColumnBundle E) : ColumnBundle E :=
  if Y.nSpinor < other.nSpinor then Y.spinorExpand else Y

omit [StarRing E] in
/-- Summed over its elements, column `2c + s` of the expanded bundle is element `g` of column
`c`, at element `s·colLength + g`. -/
theorem sum_spinorExpand_elements (Y : ColumnBundle E) {c s : ℕ} (hs : s < 2)
    (F : E → ℕ → E) (zero : ∀ x, F 0 x = 0) :
    ∑ x ∈ range (2 * Y.colLength), F (Y.spinorExpand.column (2 * c + s) x) x =
      ∑ g ∈ range Y.colLength, F (Y.column c g) (s * Y.colLength + g) := by
  rw [two_mul, sum_range_add]
  have lower (g : ℕ) (hg : g ∈ range Y.colLength) :
      Y.spinorExpand.column (2 * c + s) g = if 0 = s then Y.column c g else 0 := by
    simpa using Y.spinorExpand_column (by norm_num : 0 < 2) hs (mem_range.1 hg)
  have upper (g : ℕ) (hg : g ∈ range Y.colLength) :
      Y.spinorExpand.column (2 * c + s) (Y.colLength + g) = if 1 = s then Y.column c g else 0 := by
    simpa using Y.spinorExpand_column one_lt_two hs (mem_range.1 hg)
  rw [sum_congr rfl fun g hg => congrArg (F · g) (lower g hg),
    sum_congr rfl fun g hg => congrArg (F · (Y.colLength + g)) (upper g hg)]
  rcases (by omega : s = 0 ∨ s = 1) with rfl | rfl <;> simp [zero]

omit [CommRing E] [StarRing E] in
/-- BLAS accepts the `zgemm` of `Y1^Y2` over `n1` columns of `len` numbers when both are
positive: `len` is the leading dimension of both bundles, `n1` that of the product. -/
theorem overlapGemm_legal {n1 n2 len : ℕ} (cols : 0 < n1) (length : 0 < len) :
    ZgemmLegal .conjTrans .noTrans n1 n2 len len len n1 := by
  simp only [ZgemmLegal, BlasOp.storedRows, reduceCtorEq, if_true, if_false]
  omega

/-- The `zgemm` of `Y1^Y2` over columns of `len` numbers: entry `(a, c)` is the overlap of the
`len` numbers from `len·a` in `Y1` with those from `len·c` in `Y2`. -/
theorem entry_overlapGemm {s1 s2 : E} {Y1 Y2 : ColumnBundle E} {fresh : ℤ → E} {n1 n2 len a c : ℕ}
    (ha : a < n1) (hc : c < n2) :
    (⟨n1, n2, gemmStores .conjTrans .noTrans n1 n2 len (s1 * s2) Y1.buf len Y2.buf len 0 fresh
        n1⟩ : Matrix E).entry a c =
      s1 * s2 * ∑ g ∈ range len, star (Y1.buf (g + len * a)) * Y2.buf (g + len * c) := by
  simp only [Matrix.entry, Matrix.index]
  rw [add_comm, gemmStores_apply le_rfl ⟨a.cast_nonneg, by omega⟩ ⟨c.cast_nonneg, by omega⟩, zero_mul,
    add_zero, sum_Ico_natCast]
  simp [BlasOp.entry, BlasOp.conj]

variable {s1 s2 : E} {Y1 Y2 : ColumnBundle E} (fresh : ℤ → E)

/-- Columns of one length: `Y1^Y2` is the matrix of overlaps, when `Y1` has a column and the
columns hold at least one number. -/
theorem overlap_of_colLength (length : Y1.colLength = Y2.colLength)
    (nonempty : 0 < Y1.colLength ∧ 0 < Y1.nCols) :
    ∃ out, overlap s1 Y1 s2 Y2 fresh = some out ∧ out.nr = Y1.nCols ∧ out.nc = Y2.nCols ∧
      ∀ a < Y1.nCols, ∀ c < Y2.nCols, out.entry a c = overlapEntry (s1 * s2) Y1 Y2 a c := by
  refine ⟨_, by simp only [overlap, overlapShape, if_pos length, ne_eq, not_true_eq_false,
    if_false, Option.bind_eq_bind, Option.some_bind,
    zgemm_of_legal (overlapGemm_legal nonempty.2 nonempty.1)]; rfl, rfl, rfl, fun a ha c hc => ?_⟩
  have second (x : ℕ) : Y2.buf (x + Y1.colLength * c) = Y2.column c x := by
    rw [length, ColumnBundle.buf_eq_column]
  rw [entry_overlapGemm ha hc, overlapEntry]
  simp only [ColumnBundle.buf_eq_column, second]

/-- A spinor `Y1` against a non-spinor `Y2` on its basis. -/
theorem overlap_spinorLeft (spin1 : Y1.nSpinor = 2) (spin2 : Y2.nSpinor = 1)
    (basis : Y1.nbasis = Y2.nbasis) (nonempty : 0 < Y1.nbasis)
    (len1 : Y1.colLength = Y1.nbasis * Y1.nSpinor) (len2 : Y2.colLength = Y2.nbasis * Y2.nSpinor)
    (cols1 : 0 < Y1.nCols) :
    ∃ out, overlap s1 Y1 s2 Y2 fresh = some out ∧ out.nr = Y1.nCols ∧
      out.nc = Y2.spinorExpand.nCols ∧ ∀ a < Y1.nCols, ∀ c < Y2.spinorExpand.nCols,
        out.entry a c = overlapEntry (s1 * s2) Y1 Y2.spinorExpand a c := by
  have shape : overlapShape Y1 Y2 = some (Y1.nCols * 2, Y2.nCols * 1, Y1.nbasis) := by
    rw [overlapShape, if_neg (by rw [len1, len2, spin1, spin2, basis]; omega), spin1, spin2,
      if_pos ⟨basis, by decide⟩]
  obtain ⟨out, pairs, rows, cols, entries⟩ := @Matrix.rowPairsToCols_spec E
    ⟨(Y1.nCols * 2 : ℕ), (Y2.nCols * 1 : ℕ), gemmStores .conjTrans .noTrans (Y1.nCols * 2 : ℕ)
      (Y2.nCols * 1 : ℕ) Y1.nbasis (s1 * s2) Y1.buf Y1.nbasis Y2.buf Y1.nbasis 0 fresh
      (Y1.nCols * 2 : ℕ)⟩ ⟨Y1.nCols, 2 * (Y2.nCols * 1 : ℕ), fresh⟩ Y1.nCols Y2.nCols fresh
    (by push_cast; ring) (by simp) rfl (by simp) cols1
  refine ⟨out, ?_, rows, by rw [cols]; rfl, fun a ha c' hc' => ?_⟩
  · simp only [overlap, shape, Option.bind_eq_bind, Option.some_bind,
      zgemm_of_legal (overlapGemm_legal (by omega : 0 < Y1.nCols * 2) nonempty),
      if_pos (by omega : Y1.nCols ≠ Y1.nCols * 2)]
    exact pairs
  obtain ⟨c, s, hs, rfl⟩ : ∃ c s, s < 2 ∧ c' = 2 * c + s :=
    ⟨c' / 2, c' % 2, Nat.mod_lt _ two_pos, (Nat.div_add_mod c' 2).symm⟩
  have hc : c < Y2.nCols := by simp only [ColumnBundle.spinorExpand] at hc'; omega
  have nb2 : Y2.colLength = Y1.nbasis := by rw [len2, spin2, basis, Nat.mul_one]
  have nb1 : Y1.colLength = 2 * Y2.colLength := by rw [len1, spin1, nb2, Nat.mul_comm]
  push_cast
  rw [entries a ha c hc s hs, show 2 * (a : ℤ) + s = ((2 * a + s : ℕ) : ℤ) by push_cast; ring,
    entry_overlapGemm (by omega) (by omega), overlapEntry, nb1,
    sum_spinorExpand_elements Y2 hs (fun z x => star (Y1.column a x) * z) fun _ => mul_zero _, nb2]
  refine congrArg _ (sum_congr rfl fun g _ => ?_)
  have first : (g : ℤ) + Y1.nbasis * ((2 * a + s : ℕ) : ℤ) =
      ((s * Y1.nbasis + g : ℕ) : ℤ) + (Y1.colLength : ℤ) * a := by
    rw [nb1, nb2]
    push_cast
    ring
  have second : (g : ℤ) + Y1.nbasis * c = (g : ℤ) + (Y2.colLength : ℤ) * c := by rw [nb2]
  rw [first, second, ColumnBundle.buf_eq_column, ColumnBundle.buf_eq_column]

/-- A non-spinor `Y1` against a spinor `Y2` on its basis. -/
theorem overlap_spinorRight (spin1 : Y1.nSpinor = 1) (spin2 : Y2.nSpinor = 2)
    (basis : Y1.nbasis = Y2.nbasis) (nonempty : 0 < Y1.nbasis)
    (len1 : Y1.colLength = Y1.nbasis * Y1.nSpinor) (len2 : Y2.colLength = Y2.nbasis * Y2.nSpinor)
    (cols1 : 0 < Y1.nCols) (cols2 : 0 < Y2.nCols) :
    ∃ out, overlap s1 Y1 s2 Y2 fresh = some out ∧ out.nr = Y1.spinorExpand.nCols ∧
      out.nc = Y2.nCols ∧ ∀ a < Y1.spinorExpand.nCols, ∀ c < Y2.nCols,
        out.entry a c = overlapEntry (s1 * s2) Y1.spinorExpand Y2 a c := by
  have shape : overlapShape Y1 Y2 = some (Y1.nCols * 1, Y2.nCols * 2, Y1.nbasis) := by
    rw [overlapShape, if_neg (by rw [len1, len2, spin1, spin2, basis]; omega), spin1, spin2,
      if_pos ⟨basis, by decide⟩]
  obtain ⟨out, pairs, rows, cols, entries⟩ := @Matrix.colPairsToRows_spec E
    ⟨(Y1.nCols * 1 : ℕ), (Y2.nCols * 2 : ℕ), gemmStores .conjTrans .noTrans (Y1.nCols * 1 : ℕ)
      (Y2.nCols * 2 : ℕ) Y1.nbasis (s1 * s2) Y1.buf Y1.nbasis Y2.buf Y1.nbasis 0 fresh
      (Y1.nCols * 1 : ℕ)⟩ ⟨2 * (Y1.nCols * 1 : ℕ), Y2.nCols, fresh⟩ Y1.nCols Y2.nCols fresh
    (by simp) (by push_cast; ring) (by simp) rfl cols1
  refine ⟨out, ?_, by rw [rows]; rfl, cols, fun a' ha' c hc => ?_⟩
  · simp only [overlap, shape, Option.bind_eq_bind, Option.some_bind,
      zgemm_of_legal (overlapGemm_legal (by omega : 0 < Y1.nCols * 1) nonempty),
      if_neg (by omega : ¬Y1.nCols ≠ Y1.nCols * 1), if_pos (by omega : Y2.nCols ≠ Y2.nCols * 2)]
    exact pairs
  obtain ⟨a, s, hs, rfl⟩ : ∃ a s, s < 2 ∧ a' = 2 * a + s :=
    ⟨a' / 2, a' % 2, Nat.mod_lt _ two_pos, (Nat.div_add_mod a' 2).symm⟩
  have ha : a < Y1.nCols := by simp only [ColumnBundle.spinorExpand] at ha'; omega
  have nb1 : Y1.colLength = Y1.nbasis := by rw [len1, spin1, Nat.mul_one]
  have nb2 : Y2.colLength = 2 * Y1.colLength := by rw [len2, spin2, nb1, basis, Nat.mul_comm]
  push_cast
  rw [entries a ha c hc s hs, show 2 * (c : ℤ) + s = ((2 * c + s : ℕ) : ℤ) by push_cast; ring,
    entry_overlapGemm (by omega) (by omega), overlapEntry,
    show Y1.spinorExpand.colLength = 2 * Y1.colLength from rfl,
    sum_spinorExpand_elements Y1 hs (fun z x => star z * Y2.column c x)
      fun _ => by simp only [star_zero, zero_mul], nb1]
  refine congrArg _ (sum_congr rfl fun g _ => ?_)
  have first : (g : ℤ) + Y1.nbasis * a = (g : ℤ) + (Y1.colLength : ℤ) * a := by rw [nb1]
  have second : (g : ℤ) + Y1.nbasis * ((2 * c + s : ℕ) : ℤ) =
      ((s * Y1.nbasis + g : ℕ) : ℤ) + (Y2.colLength : ℤ) * c := by
    rw [nb2, nb1]
    push_cast
    ring
  rw [first, second, ColumnBundle.buf_eq_column, ColumnBundle.buf_eq_column]

/-- On bundles of one basis whose columns hold `nbasis·spinorLength()` numbers, `Y1^Y2` is the
matrix of overlaps of the spinor bundles they stand for: each bundle as it is, except a
non-spinor bundle against a spinor one, which counts as `spinorExpand`, two spinor columns per
column. -/
theorem overlap_spinor (basis : Y1.nbasis = Y2.nbasis) (nonempty : 0 < Y1.nbasis)
    (spin1 : Y1.nSpinor = 1 ∨ Y1.nSpinor = 2) (spin2 : Y2.nSpinor = 1 ∨ Y2.nSpinor = 2)
    (len1 : Y1.colLength = Y1.nbasis * Y1.nSpinor) (len2 : Y2.colLength = Y2.nbasis * Y2.nSpinor)
    (cols1 : 0 < Y1.nCols) (cols2 : 0 < Y2.nCols) :
    ∃ out, overlap s1 Y1 s2 Y2 fresh = some out ∧
      out.nr = (Y1.asSpinorOf Y2).nCols ∧ out.nc = (Y2.asSpinorOf Y1).nCols ∧
      ∀ a < (Y1.asSpinorOf Y2).nCols, ∀ c < (Y2.asSpinorOf Y1).nCols,
        out.entry a c = overlapEntry (s1 * s2) (Y1.asSpinorOf Y2) (Y2.asSpinorOf Y1) a c := by
  rcases spin1 with spin1 | spin1 <;> rcases spin2 with spin2 | spin2 <;>
    simp only [ColumnBundle.asSpinorOf, spin1, spin2, lt_self_iff_false, if_false,
      Nat.one_lt_two, if_true, Nat.not_lt.2 one_le_two]
  · exact overlap_of_colLength fresh (by rw [len1, len2, spin1, spin2, basis])
      ⟨by rw [len1, spin1]; omega, cols1⟩
  · exact overlap_spinorRight fresh spin1 spin2 basis nonempty len1 len2 cols1 cols2
  · exact overlap_spinorLeft fresh spin1 spin2 basis nonempty len1 len2 cols1
  · exact overlap_of_colLength fresh (by rw [len1, len2, spin1, spin2, basis])
      ⟨by rw [len1, spin1]; omega, cols1⟩

/-- A spinor column against a non-spinor one on a basis of one function. -/
theorem overlap_spinor_mixed :
    let Y1 : ColumnBundle ℤ := ⟨1, 2, 1, 2, fun n => n + 1⟩
    let Y2 : ColumnBundle ℤ := ⟨1, 1, 1, 1, fun _ => 4⟩
    (Y1.nbasis = Y2.nbasis ∧ 0 < Y1.nbasis ∧ (Y1.nSpinor = 1 ∨ Y1.nSpinor = 2) ∧
      (Y2.nSpinor = 1 ∨ Y2.nSpinor = 2) ∧ Y1.colLength = Y1.nbasis * Y1.nSpinor ∧
      Y2.colLength = Y2.nbasis * Y2.nSpinor ∧ 0 < Y1.nCols ∧ 0 < Y2.nCols) ∧
    ∃ out, overlap 1 Y1 1 Y2 (fun _ => 0) = some out ∧
      out.nr = (Y1.asSpinorOf Y2).nCols ∧ out.nc = (Y2.asSpinorOf Y1).nCols ∧
      ∀ a < (Y1.asSpinorOf Y2).nCols, ∀ c < (Y2.asSpinorOf Y1).nCols,
        out.entry a c = overlapEntry (1 * 1) (Y1.asSpinorOf Y2) (Y2.asSpinorOf Y1) a c := by
  intro Y1 Y2
  exact ⟨⟨by decide, by decide, by decide, by decide, by decide, by decide, by decide, by decide⟩,
    overlap_spinor _ (by decide) (by decide) (by decide) (by decide) (by decide) (by decide)
      (by decide) (by decide)⟩

end Products

end Jdftx.Electronic
