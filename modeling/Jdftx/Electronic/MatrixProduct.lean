/-
# Electronic.MatrixProduct — products with `matrix` and `diagMatrix`, `trace`, `traceinner`

`operator*(const matrixScaledTransOp&, const matrixScaledTransOp&)` (electronic/matrix.cpp)
multiplies two matrices, each with a scale and a pending transpose or dagger, by one
`eblas_zgemm` told the shapes of `op(mat)`. The products with a `diagMatrix` never build the
diagonal matrix: `d*m` multiplies column `j` of a copy of `m` elementwise by `d`
(`eblas_zmuld`), `m*d` scales it by `d[j]` (`eblas_zdscal`), and `Y*d` (electronic/ColumnBundle.cpp)
scales column `i` of a copy of the bundle by `scale·d[i]` (`eblas_zscal`). `traceinner(F, X, Y)`
(electronic/operators.cpp) computes what its comment calls `trace(F*X^Y)` with one `zdotc` per
column, without the overlap matrix.

* `mul_entry`: the product is `scale1·scale2·op1(m1)·op2(m2)`, for each of the nine pairs of
  operations.
* `diagMul_same`, `mulDiag_same`: the column loops of `d*m` and `m*d` give the dense products
  with `matrix(d)`.
* `mulDiag_columns`: the column loop of `Y*d` gives `Y*matrix(d)`.
* `traceinner_eq_trace`: `traceinner(F, X, Y)` is `trace(F*(X^Y))`, and each step of the latter
  succeeds.
* `diagouter_eq_diag`: `diagouter(A, B)` (electronic/ElectronScattering.cpp), which adds the
  columns of `A∘conj(B)` into its column 0 in place, is `diag(A*dagger(B))`.
* `diagDot_eq_diag`: `diagDot(X, Y)` (electronic/operators.cpp), one `zdotc` per column, is
  `diag(X^Y)`.

`eblas_zmuld`, `eblas_zdscal`, `eblas_zscal`, `eblas_zdotc`, `eblas_zmul` and `eblas_zaxpy` are
not among the sources; they are taken with their BLAS meanings at unit stride. A `diagMatrix` is
the list of its entries, a `double` an element of the ring, the real part of a `complex` (which
`diag` and `diagouter` read through its `double` view) a function `re`, and a `matrix` used as a
`matrixScaledTransOp` has scale `1` and no pending operation, as in `BundleProduct`.
-/
import Jdftx.Electronic.BundleProduct

namespace Jdftx.Electronic

set_option autoImplicit false

open Finset

variable {E : Type}

/-! ## Loops over the columns of a buffer -/

/-- The `n` elements of `y` from `off` on, element `k` replaced by `f k` of what it held. -/
def updateRange (n : ℕ) (off : ℤ) (f : ℕ → E → E) (y : ℤ → E) : ℤ → E :=
  fun p => if off ≤ p ∧ p < off + n then f (p - off).toNat (y p) else y p

/-- Element `i < n` of block `j` of a buffer cut in blocks of `n` lies in block `b` exactly when
`j = b`. -/
theorem mem_block_iff {n i j b : ℕ} (hi : i < n) :
    ((n : ℤ) * b ≤ i + n * j ∧ (i : ℤ) + n * j < n * b + n) ↔ j = b := by
  refine ⟨fun ⟨lower, upper⟩ => ?_, fun same => by subst same; omega⟩
  have below : (n : ℤ) * b < n * (j + 1) := by linarith
  have above : (n : ℤ) * j < n * (b + 1) := by linarith
  have := lt_of_mul_lt_mul_left below (by positivity)
  have := lt_of_mul_lt_mul_left above (by positivity)
  omega

/-- A loop over the columns `b < nc` of a column-major buffer of leading dimension `n` that
updates column `b` in place, element by element: element `i` of column `j` ends as `f j i` of
what it held, or as it was when the loop never reaches column `j`. -/
theorem foldl_updateRange {n : ℕ} {off : ℕ → ℤ} (hoff : ∀ b, off b = n * b)
    (f : ℕ → ℕ → E → E) (y : ℤ → E) {i : ℕ} (hi : i < n) (j nc : ℕ) :
    (List.range nc).foldl (fun buf b => updateRange n (off b) (f b) buf) y (i + n * j) =
      if j < nc then f j i (y (i + n * j)) else y (i + n * j) := by
  induction nc with
  | zero => simp
  | succ b ih =>
    rw [List.range_succ, List.foldl_append, List.foldl_cons, List.foldl_nil, updateRange, ih, hoff]
    by_cases same : j = b
    · subst same
      rw [if_pos ((mem_block_iff hi).2 rfl), if_neg (lt_irrefl j), if_pos j.lt_succ_self]
      congr
      omega
    · rw [if_neg (mt (mem_block_iff hi).1 same)]
      exact if_congr (by omega) rfl rfl

section Ring

variable [CommRing E]

/-- `Σ` by a loop `result += g(i)` over `i < n`, from `a`. -/
theorem foldl_add_range (g : ℕ → E) (a : E) (n : ℕ) :
    (List.range n).foldl (fun acc i => acc + g i) a = a + ∑ i ∈ range n, g i := by
  induction n with
  | zero => simp
  | succ n ih =>
    rw [List.range_succ, List.foldl_append, ih, sum_range_succ, List.foldl_cons, List.foldl_nil,
      add_assoc]

/-- `eblas_zmuld(n, x, 1, y+off, 1)`: `y[off+k] *= x[k]` for `k < n`. -/
def eblasZmuld (n : ℕ) (x : ℕ → E) (y : ℤ → E) (off : ℤ) : ℤ → E :=
  updateRange n off (fun k z => x k * z) y

/-- `eblas_zscal(n, a, y+off, 1)`, and `eblas_zdscal` for a `double` `a`: `y[off+k] *= a` for
`k < n`. -/
def eblasZscal (n : ℕ) (a : E) (y : ℤ → E) (off : ℤ) : ℤ → E :=
  updateRange n off (fun _ z => a * z) y

/-! ## `matrix` and `diagMatrix` -/

namespace Matrix

/-- `matrix(const diagMatrix& d)`: `d.size()` rows and columns; for a nonempty `d`, a zeroed
buffer with `d[i]` stored at `(i, i)`. `fresh` is what the buffer of an empty one holds. -/
def ofDiag (d : List E) (fresh : ℤ → E) : Matrix E :=
  let ret : Matrix E := ⟨d.length, d.length, fun _ => 0⟩
  { ret with
    data := if d.length ≠ 0 then
        storeAll (fun i : ℕ => ret.index i i) (fun i => d.getD i 0) (List.range d.length) ret.data
      else fresh }

/-- `operator*(const diagMatrix& d, const matrix& m)`: a copy of `m` with each column multiplied
elementwise by `d`, `none` when `myassert(d.nCols()==m.nRows())` fails. -/
def diagMul (d : List E) (m : Matrix E) : Option (Matrix E) :=
  if (d.length : ℤ) = m.nr then
    some { m with
      data := (List.range m.nc.toNat).foldl
        (fun buf (j : ℕ) => eblasZmuld m.nr.toNat (fun k => d.getD k 0) buf (m.index 0 j)) m.data }
  else none

/-- `operator*(const matrix& m, const diagMatrix& d)`: a copy of `m` with column `j` scaled by
`d[j]`, `none` when `myassert(m.nCols()==d.nRows())` fails. -/
def mulDiag (m : Matrix E) (d : List E) : Option (Matrix E) :=
  if m.nc = d.length then
    some { m with
      data := (List.range m.nc.toNat).foldl
        (fun buf (j : ℕ) => eblasZscal m.nr.toNat (d.getD j 0) buf (m.index 0 j)) m.data }
  else none

/-- `trace(const matrix& A)`: the sum of the diagonal, `none` when
`myassert(A.nRows() == A.nCols())` fails. -/
def trace (A : Matrix E) : Option E :=
  if A.nr = A.nc then
    some ((List.range A.nr.toNat).foldl (fun tr (i : ℕ) => tr + A.data (A.index i i)) 0)
  else none

variable {d : List E} {m : Matrix E}

theorem entry_ofDiag (fresh : ℤ → E) {i j : ℕ} (hi : i < d.length) (hj : j < d.length) :
    (ofDiag d fresh).entry i j = if i = j then d.getD i 0 else 0 := by
  simp only [ofDiag, entry, index, if_pos (by omega : d.length ≠ 0)]
  split_ifs with same
  · subst same
    refine storeAll_apply _ _ (List.mem_range.2 hi) (fun k mem hk => ?_) _
    have := mul_add_inj hk ⟨k.cast_nonneg, by exact_mod_cast List.mem_range.1 mem⟩
      ⟨i.cast_nonneg, by exact_mod_cast hi⟩
    exact_mod_cast this.1
  · refine storeAll_apply_of_forall_ne _ _ (fun k mem hk => same ?_) _
    have := mul_add_inj hk ⟨k.cast_nonneg, by exact_mod_cast List.mem_range.1 mem⟩
      ⟨i.cast_nonneg, by exact_mod_cast hi⟩
    exact_mod_cast this.1.symm.trans this.2

/-- The column loop of `d*m` multiplies entry `(i, j)` by `d[i]`. -/
theorem diagMul_spec (rows : (d.length : ℤ) = m.nr) :
    ∃ dm, diagMul d m = some dm ∧ dm.nr = m.nr ∧ dm.nc = m.nc ∧
      ∀ i j : ℕ, (i : ℤ) < m.nr → (j : ℤ) < m.nc → dm.entry i j = d.getD i 0 * m.entry i j := by
  refine ⟨_, if_pos rows, rfl, rfl, fun i j hi hj => ?_⟩
  have n : m.nr = (m.nr.toNat : ℤ) := by omega
  have pos : m.nr * j + i = (i : ℤ) + (m.nr.toNat : ℤ) * j := by rw [← n, add_comm]
  simp only [entry, index, eblasZmuld, pos]
  rw [foldl_updateRange (fun b => by rw [add_zero, ← n]) _ _ (by omega),
    if_pos (by omega)]

/-- The column loop of `m*d` multiplies entry `(i, j)` by `d[j]`. -/
theorem mulDiag_spec (cols : m.nc = d.length) :
    ∃ md, mulDiag m d = some md ∧ md.nr = m.nr ∧ md.nc = m.nc ∧
      ∀ i j : ℕ, (i : ℤ) < m.nr → (j : ℤ) < m.nc → md.entry i j = d.getD j 0 * m.entry i j := by
  refine ⟨_, if_pos cols, rfl, rfl, fun i j hi hj => ?_⟩
  have n : m.nr = (m.nr.toNat : ℤ) := by omega
  have pos : m.nr * j + i = (i : ℤ) + (m.nr.toNat : ℤ) * j := by rw [← n, add_comm]
  simp only [entry, index, eblasZscal, pos]
  rw [foldl_updateRange (fun b => by rw [add_zero, ← n]) _ _ (by omega),
    if_pos (by omega)]

/-- `trace` of a square matrix is the sum of its diagonal entries. -/
theorem trace_spec (square : m.nr = m.nc) :
    m.trace = some (∑ i ∈ range m.nr.toNat, m.entry i i) := by
  rw [trace, if_pos square, foldl_add_range, zero_add]
  rfl

end Matrix

/-! ## `matrixScaledTransOp * matrixScaledTransOp` -/

variable [StarRing E]

namespace MatrixScaledTransOp

/-- `operator*(const matrixScaledTransOp& m1st, const matrixScaledTransOp& m2st)` on the CPU: a
new `m1st.nRows() × m2st.nCols()` matrix from one `zgemm`, `none` when
`myassert(m1st.nCols() == m2st.nRows())` fails or BLAS refuses the call. -/
def mul (A B : MatrixScaledTransOp E) (fresh : ℤ → E) : Option (Matrix E) :=
  if A.nCols = B.nRows then do
    let ret : Matrix E := ⟨A.nRows, B.nCols, fresh⟩
    let data ← zgemm A.op B.op ret.nr ret.nc A.nCols (A.scale * B.scale) A.mat.data A.mat.nr
      B.mat.data B.mat.nr 0 ret.data ret.nr
    some { ret with data }
  else none

omit [CommRing E] [StarRing E] in
/-- BLAS accepts the `zgemm` of `m1st*m2st` for nonempty matrices: each is stored with at least
one row, and with as many rows as `op(mat)` has on the side `zgemm` reads. -/
theorem mul_legal {A B : MatrixScaledTransOp E} (inner : A.nCols = B.nRows)
    (nonempty : 0 < A.mat.nr ∧ 0 < A.mat.nc ∧ 0 < B.mat.nr ∧ 0 < B.mat.nc) :
    ZgemmLegal A.op B.op A.nRows B.nCols A.nCols A.mat.nr B.mat.nr A.nRows := by
  simp only [nRows, nCols] at inner ⊢
  by_cases opA : A.op = .noTrans <;> by_cases opB : B.op = .noTrans <;>
    simp only [ZgemmLegal, BlasOp.storedRows, opA, opB, if_true, if_false] at inner ⊢ <;> omega

theorem mul_eq {A B : MatrixScaledTransOp E} (fresh : ℤ → E) (inner : A.nCols = B.nRows)
    (nonempty : 0 < A.mat.nr ∧ 0 < A.mat.nc ∧ 0 < B.mat.nr ∧ 0 < B.mat.nc) :
    A.mul B fresh = some ⟨A.nRows, B.nCols, gemmStores A.op B.op A.nRows B.nCols A.nCols
      (A.scale * B.scale) A.mat.data A.mat.nr B.mat.data B.mat.nr 0 fresh A.nRows⟩ := by
  simp only [mul, if_pos inner, zgemm_of_legal (mul_legal inner nonempty), Option.bind_eq_bind,
    Option.some_bind]

/-- A `matrix` taken as a `matrixScaledTransOp` with no pending operation reads its own
entries. -/
@[simp] theorem entry_noTrans (m : Matrix E) (s : E) (i j : ℤ) :
    (⟨m, s, .noTrans⟩ : MatrixScaledTransOp E).entry i j = m.entry i j := by
  simp only [entry, BlasOp.entry, if_true, Matrix.entry, Matrix.index, add_comm]

omit [CommRing E] [StarRing E] in
@[simp] theorem nRows_noTrans (m : Matrix E) (s : E) :
    (⟨m, s, .noTrans⟩ : MatrixScaledTransOp E).nRows = m.nr := rfl

omit [CommRing E] [StarRing E] in
@[simp] theorem nCols_noTrans (m : Matrix E) (s : E) :
    (⟨m, s, .noTrans⟩ : MatrixScaledTransOp E).nCols = m.nc := rfl

/-- The product of two nonempty `matrixScaledTransOp`s is `scale1·scale2·op1(m1)·op2(m2)`:
`zgemm` is told the shapes of `op(mat)` and the leading dimensions of the matrices before their
operations, which is right, and accepted by BLAS, for every pair of operations. -/
theorem mul_entry {A B : MatrixScaledTransOp E} (fresh : ℤ → E) (inner : A.nCols = B.nRows)
    (nonempty : 0 < A.mat.nr ∧ 0 < A.mat.nc ∧ 0 < B.mat.nr ∧ 0 < B.mat.nc) :
    ∃ P, A.mul B fresh = some P ∧ P.nr = A.nRows ∧ P.nc = B.nCols ∧
      ∀ i j : ℕ, (i : ℤ) < A.nRows → (j : ℤ) < B.nCols →
        P.entry i j = A.scale * B.scale * ∑ l ∈ range A.nCols.toNat, A.entry i l * B.entry l j := by
  refine ⟨_, mul_eq fresh inner nonempty, rfl, rfl, fun i j hi hj => ?_⟩
  obtain ⟨K, hK⟩ := Int.eq_ofNat_of_zero_le (A.nCols_nonneg ⟨nonempty.1.le, nonempty.2.1.le⟩)
  simp only [Matrix.entry, Matrix.index]
  rw [add_comm, gemmStores_apply le_rfl ⟨i.cast_nonneg, hi⟩ ⟨j.cast_nonneg, hj⟩, zero_mul,
    add_zero, hK, sum_Ico_natCast, Int.toNat_natCast]
  rfl

/-- A `2 × 3` matrix under a transpose against a `3 × 1` one. -/
theorem mul_entry_trans :
    let A : MatrixScaledTransOp ℤ := ⟨⟨3, 2, fun x => x⟩, 2, .trans⟩
    let B : MatrixScaledTransOp ℤ := ⟨⟨3, 1, fun _ => 1⟩, 1, .noTrans⟩
    (A.nCols = B.nRows ∧ 0 < A.mat.nr ∧ 0 < A.mat.nc ∧ 0 < B.mat.nr ∧ 0 < B.mat.nc) ∧
    ∃ P, A.mul B (fun _ => 0) = some P ∧ P.nr = A.nRows ∧ P.nc = B.nCols ∧
      ∀ i j : ℕ, (i : ℤ) < A.nRows → (j : ℤ) < B.nCols →
        P.entry i j = A.scale * B.scale * ∑ l ∈ range A.nCols.toNat, A.entry i l * B.entry l j := by
  intro A B
  exact ⟨⟨by decide, by decide, by decide, by decide, by decide⟩,
    mul_entry _ (by decide) ⟨by decide, by decide, by decide, by decide⟩⟩

end MatrixScaledTransOp

/-! ## The shortcuts for `diagMatrix` -/

section Diag

variable {d : List E}

omit [StarRing E] in
/-- Summed against the column `j < d.size()` of `matrix(d)`, a row picks its entry `j`,
times `d[j]`. -/
theorem sum_mul_ofDiag (fresh : ℤ → E) (w : ℕ → E) {j : ℕ} (hj : j < d.length) :
    ∑ l ∈ range d.length, w l * (Matrix.ofDiag d fresh).entry l j = w j * d.getD j 0 := by
  rw [sum_eq_single j (fun l hl ne => by
      rw [Matrix.entry_ofDiag fresh (mem_range.1 hl) hj, if_neg ne, mul_zero])
    (fun out => absurd (mem_range.2 hj) out), Matrix.entry_ofDiag fresh hj hj, if_pos rfl]

omit [StarRing E] in
/-- Summed against the row `i < d.size()` of `matrix(d)`, a column picks its entry `i`,
times `d[i]`. -/
theorem sum_ofDiag_mul (fresh : ℤ → E) (w : ℕ → E) {i : ℕ} (hi : i < d.length) :
    ∑ l ∈ range d.length, (Matrix.ofDiag d fresh).entry i l * w l = d.getD i 0 * w i := by
  rw [sum_eq_single i (fun l hl ne => by
      rw [Matrix.entry_ofDiag fresh hi (mem_range.1 hl), if_neg ne.symm, zero_mul])
    (fun out => absurd (mem_range.2 hi) out), Matrix.entry_ofDiag fresh hi hi, if_pos rfl]

variable {m : Matrix E}

/-- `d*m` is the dense product `matrix(d)*m` for a nonempty `m`: the column loop of
`eblas_zmuld` gives the same shape and the same entries as the `zgemm` with the diagonal
matrix. -/
theorem diagMul_same (fresh : ℤ → E) (rows : (d.length : ℤ) = m.nr)
    (nonempty : 0 < m.nr ∧ 0 < m.nc) :
    ∃ dm P, Matrix.diagMul d m = some dm ∧
      MatrixScaledTransOp.mul ⟨Matrix.ofDiag d fresh, 1, .noTrans⟩ ⟨m, 1, .noTrans⟩ fresh =
        some P ∧ dm.Same P := by
  obtain ⟨dm, hdm, dmRows, dmCols, dmEntries⟩ := Matrix.diagMul_spec rows
  obtain ⟨P, hP, PRows, PCols, PEntries⟩ := @MatrixScaledTransOp.mul_entry E _ _
    ⟨Matrix.ofDiag d fresh, 1, .noTrans⟩ ⟨m, 1, .noTrans⟩ fresh rows
    ⟨(rows ▸ nonempty.1 : (0 : ℤ) < d.length), (rows ▸ nonempty.1 : (0 : ℤ) < d.length),
      nonempty⟩
  refine ⟨dm, P, hdm, hP, by rw [dmRows, PRows, ← rows]; rfl, by rw [dmCols, PCols]; rfl, ?_⟩
  rintro i j ⟨hi0, hi, hj0, hj⟩
  lift i to ℕ using hi0
  lift j to ℕ using hj0
  rw [dmRows] at hi
  rw [dmCols] at hj
  have hi' : i < d.length := by omega
  rw [dmEntries i j hi hj, PEntries i j (by simpa [Matrix.ofDiag] using hi') hj, one_mul, one_mul]
  simp only [MatrixScaledTransOp.entry_noTrans, MatrixScaledTransOp.nCols_noTrans, Matrix.ofDiag,
    Int.toNat_natCast]
  exact (sum_ofDiag_mul fresh (fun l => m.entry l j) hi').symm

/-- `diag(2, 3)` against a `2 × 2` matrix. -/
theorem diagMul_same_two :
    let d : List ℤ := [2, 3]
    let m : Matrix ℤ := ⟨2, 2, fun x => x⟩
    ((d.length : ℤ) = m.nr ∧ 0 < m.nr ∧ 0 < m.nc) ∧
    ∃ dm P, Matrix.diagMul d m = some dm ∧
      MatrixScaledTransOp.mul ⟨Matrix.ofDiag d (fun _ => 0), 1, .noTrans⟩ ⟨m, 1, .noTrans⟩
        (fun _ => 0) = some P ∧ dm.Same P := by
  intro d m
  exact ⟨⟨by decide, by decide, by decide⟩, diagMul_same _ (by decide) ⟨by decide, by decide⟩⟩

/-- `m*d` is the dense product `m*matrix(d)` for a nonempty `m`: the column loop of
`eblas_zdscal` gives the same shape and the same entries as the `zgemm` with the diagonal
matrix. -/
theorem mulDiag_same (fresh : ℤ → E) (cols : m.nc = d.length) (nonempty : 0 < m.nr ∧ 0 < m.nc) :
    ∃ md P, Matrix.mulDiag m d = some md ∧
      MatrixScaledTransOp.mul ⟨m, 1, .noTrans⟩ ⟨Matrix.ofDiag d fresh, 1, .noTrans⟩ fresh =
        some P ∧ md.Same P := by
  obtain ⟨md, hmd, mdRows, mdCols, mdEntries⟩ := Matrix.mulDiag_spec cols
  obtain ⟨P, hP, PRows, PCols, PEntries⟩ := @MatrixScaledTransOp.mul_entry E _ _
    ⟨m, 1, .noTrans⟩ ⟨Matrix.ofDiag d fresh, 1, .noTrans⟩ fresh cols
    ⟨nonempty.1, nonempty.2, (cols ▸ nonempty.2 : (0 : ℤ) < d.length),
      (cols ▸ nonempty.2 : (0 : ℤ) < d.length)⟩
  refine ⟨md, P, hmd, hP, by rw [mdRows, PRows]; rfl, by rw [mdCols, PCols, cols]; rfl, ?_⟩
  rintro i j ⟨hi0, hi, hj0, hj⟩
  lift i to ℕ using hi0
  lift j to ℕ using hj0
  rw [mdRows] at hi
  rw [mdCols] at hj
  have hj' : j < d.length := by omega
  rw [mdEntries i j hi hj, PEntries i j hi (by simpa [Matrix.ofDiag] using hj'), one_mul, one_mul]
  simp only [MatrixScaledTransOp.entry_noTrans, MatrixScaledTransOp.nCols_noTrans, cols,
    Int.toNat_natCast]
  rw [sum_mul_ofDiag fresh (fun l => m.entry i l) hj', mul_comm]

/-- A `1 × 2` matrix against `diag(2, 3)`. -/
theorem mulDiag_same_two :
    let d : List ℤ := [2, 3]
    ((⟨1, 2, fun x => x⟩ : Matrix ℤ).nc = d.length ∧ 0 < (⟨1, 2, fun x => x⟩ : Matrix ℤ).nr ∧
      0 < (⟨1, 2, fun x => x⟩ : Matrix ℤ).nc) ∧
    ∃ md P, Matrix.mulDiag ⟨1, 2, fun x => x⟩ d = some md ∧
      MatrixScaledTransOp.mul ⟨⟨1, 2, fun x => x⟩, 1, .noTrans⟩
        ⟨Matrix.ofDiag d (fun _ => 0), 1, .noTrans⟩ (fun _ => 0) = some P ∧ md.Same P := by
  intro d
  exact ⟨⟨by decide, by decide, by decide⟩, mulDiag_same _ (by decide) ⟨by decide, by decide⟩⟩

namespace ColumnBundle

/-- `operator*(const scaled<ColumnBundle>& sY, const diagMatrix& d)` on the CPU: a copy of `Y`
with column `i` scaled by `sY.scale*d[i]`, `none` when `myassert(Y.nCols()==d.nRows())`
fails. -/
def mulDiag (sY : E) (Y : ColumnBundle E) (d : List E) : Option (ColumnBundle E) :=
  if Y.nCols = d.length then
    some (Y.withBuf ((List.range d.length).foldl
      (fun buf i => eblasZscal Y.colLength (sY * d.getD i 0) buf (Y.index i 0)) Y.buf))
  else none

omit [StarRing E] in
/-- The column loop of `Y*d` scales column `i` by `sY·d[i]`. -/
theorem mulDiag_spec {sY : E} {Y : ColumnBundle E} (cols : Y.nCols = d.length) :
    ∃ Yd, Y.mulDiag sY d = some Yd ∧ Yd.nCols = Y.nCols ∧ Yd.colLength = Y.colLength ∧
      ∀ i < Y.nCols, ∀ x < Y.colLength, Yd.column i x = sY * d.getD i 0 * Y.column i x := by
  refine ⟨_, if_pos cols, rfl, rfl, fun i hi x hx => ?_⟩
  have hoff (b : ℕ) : ((Y.index b 0 : ℕ) : ℤ) = Y.colLength * b := by
    rw [index, Nat.add_zero, Nat.cast_mul, mul_comm]
  rw [column_withBuf]
  simp only [eblasZscal]
  rw [foldl_updateRange hoff _ _ hx, if_pos (by omega), buf_eq_column]

end ColumnBundle

/-- `Y*d` is `Y*matrix(d)`: the column loop of `eblas_zscal` gives the bundle that the `zgemm` of
`Y` with the diagonal matrix gives, on a bundle with a column of nonzero length. -/
theorem mulDiag_columns {sY : E} {Y : ColumnBundle E} (fresh : ℤ → E)
    (cols : Y.nCols = d.length) (nonempty : 0 < Y.nCols) (length : Y.colLength ≠ 0) :
    ∃ Yd YM, Y.mulDiag sY d = some Yd ∧
      mulScaledTransOp sY Y ⟨Matrix.ofDiag d fresh, 1, .noTrans⟩ fresh = some YM ∧
      Yd.nCols = YM.nCols ∧ Yd.colLength = YM.colLength ∧
      ∀ i < Yd.nCols, ∀ x < Yd.colLength, Yd.column i x = YM.column i x := by
  obtain ⟨Yd, hYd, ydCols, ydLength, ydColumns⟩ := @ColumnBundle.mulDiag_spec E _ d sY Y cols
  have rows : (Y.nCols : ℤ) =
      (⟨Matrix.ofDiag d fresh, 1, .noTrans⟩ : MatrixScaledTransOp E).nRows := by
    rw [cols]
    rfl
  refine ⟨Yd, _, hYd, mulScaledTransOp_eq_gemm fresh rows nonempty length
      ⟨d.length.cast_nonneg, d.length.cast_nonneg⟩ (.inl rfl), by rw [ydCols, cols]; rfl, ydLength,
    fun i hi x hx => ?_⟩
  rw [ydCols] at hi
  rw [ydLength] at hx
  have hi' : i < d.length := by omega
  rw [column_gemm _ _ _ _ ?_ hx]
  · rw [if_pos (by simpa [Matrix.ofDiag] using hi'), productColumn, ydColumns i hi x hx, cols,
      mul_one]
    simp only [MatrixScaledTransOp.entry_noTrans]
    rw [sum_mul_ofDiag fresh (fun l => Y.column l x) hi']
    ring
  · rfl

/-- Two columns of one element scaled by `diag(2, 3)`. -/
theorem mulDiag_columns_two :
    let Y : ColumnBundle ℤ := ⟨2, 1, 1, 1, fun n => n + 1⟩
    let d : List ℤ := [2, 3]
    (Y.nCols = d.length ∧ 0 < Y.nCols ∧ Y.colLength ≠ 0) ∧
    ∃ Yd YM, Y.mulDiag 1 d = some Yd ∧
      mulScaledTransOp 1 Y ⟨Matrix.ofDiag d (fun _ => 0), 1, .noTrans⟩ (fun _ => 0) = some YM ∧
      Yd.nCols = YM.nCols ∧ Yd.colLength = YM.colLength ∧
      ∀ i < Yd.nCols, ∀ x < Yd.colLength, Yd.column i x = YM.column i x := by
  intro Y d
  exact ⟨⟨by decide, by decide, by decide⟩, mulDiag_columns _ (by decide) (by decide) (by decide)⟩

end Diag

/-! ## `traceinner` -/

/-- `eblas_zdotc(n, x+xOff, 1, y+yOff, 1)`: `Σ_{k<n} conj(x[xOff+k])·y[yOff+k]`. -/
def eblasZdotc (n : ℕ) (x : ℤ → E) (xOff : ℤ) (y : ℤ → E) (yOff : ℤ) : E :=
  ∑ k ∈ range n, star (x (xOff + k)) * y (yOff + k)

/-- `traceinner(F, X, Y)`, which "returns `trace(F*X^Y)`": `Σ_i F[i]·zdotc` of column `i` of `X`
and column `i` of `Y`, `none` when a `myassert` fails. -/
def traceinner (F : List E) (X Y : ColumnBundle E) : Option E :=
  if X.colLength = Y.colLength ∧ X.nCols = Y.nCols ∧ X.nCols = F.length then
    some ((List.range X.nCols).foldl (fun result i => result +
      F.getD i 0 * eblasZdotc X.colLength X.buf (X.index i 0) Y.buf (Y.index i 0)) 0)
  else none

/-- The `zdotc` of column `b` of `X` with column `b` of `Y`, as `traceinner` and `diagDot` call
it: the sum over the column of `conj(X[b][x])·Y[b][x]`. -/
theorem eblasZdotc_column (n b : ℕ) (X Y : ColumnBundle E) :
    eblasZdotc n X.buf (X.index b 0) Y.buf (Y.index b 0) =
      ∑ x ∈ range n, star (X.column b x) * Y.column b x := by
  simp only [eblasZdotc, ColumnBundle.buf, ColumnBundle.index, ColumnBundle.column, Nat.add_zero,
    ← Nat.cast_add, Int.toNat_natCast]

/-- `traceinner(F, X, Y)` is `trace(F*(X^Y))` whenever its `myassert`s pass: the overlap `X^Y`, the
product with `F` and the trace all succeed, and the trace is what the loop of `zdotc`s returns. -/
theorem traceinner_eq_trace {F : List E} {X Y : ColumnBundle E} (fresh : ℤ → E)
    (length : X.colLength = Y.colLength) (cols : X.nCols = Y.nCols)
    (weights : X.nCols = F.length) (nonempty : 0 < X.colLength ∧ 0 < X.nCols) :
    ∃ t M FM, traceinner F X Y = some t ∧ overlap 1 X 1 Y fresh = some M ∧
      Matrix.diagMul F M = some FM ∧ Matrix.trace FM = some t := by
  obtain ⟨M, hM, MRows, MCols, MEntries⟩ :=
    @overlap_of_colLength E _ _ 1 1 X Y fresh length nonempty
  obtain ⟨FM, hFM, FMRows, FMCols, FMEntries⟩ :=
    @Matrix.diagMul_spec E _ F M (by rw [MRows, weights])
  have square : FM.nr = FM.nc := by rw [FMRows, FMCols, MRows, MCols, cols]
  refine ⟨_, M, FM, if_pos ⟨length, cols, weights⟩, hM, hFM, ?_⟩
  rw [Matrix.trace_spec square, foldl_add_range, zero_add, FMRows, MRows, Int.toNat_natCast]
  refine congrArg some (sum_congr rfl fun i hi => ?_)
  have hi' := mem_range.1 hi
  rw [FMEntries i i (by omega) (by omega), MEntries i hi' i (by omega), overlapEntry,
    eblasZdotc_column, one_mul, one_mul]

/-- Two columns of one element on each side, weighted by `3` and `5`. -/
theorem traceinner_eq_trace_two :
    let X : ColumnBundle ℤ := ⟨2, 1, 1, 1, fun n => n + 1⟩
    let Y : ColumnBundle ℤ := ⟨2, 1, 1, 1, fun n => 2 * n⟩
    (X.colLength = Y.colLength ∧ X.nCols = Y.nCols ∧ X.nCols = [(3 : ℤ), 5].length ∧
      0 < X.colLength ∧ 0 < X.nCols) ∧
    ∃ t M FM, traceinner [3, 5] X Y = some t ∧ overlap 1 X 1 Y (fun _ => 0) = some M ∧
      Matrix.diagMul [3, 5] M = some FM ∧ Matrix.trace FM = some t := by
  intro X Y
  exact ⟨⟨rfl, rfl, rfl, by decide, by decide⟩, traceinner_eq_trace _ rfl rfl rfl
    ⟨by decide, by decide⟩⟩

/-! ## `diagouter` -/

/-- `eblas_zmul(n, x, 1, y, 1)`: `y[k] *= x[k]` for `k < n`. -/
def eblasZmul (n : ℕ) (x : ℤ → E) (y : ℤ → E) : ℤ → E :=
  updateRange n 0 (fun k z => x k * z) y

/-- `eblas_zaxpy(n, alpha, x+xOff, 1, y+yOff, 1)`: `y[yOff+k] += alpha·x[xOff+k]` for `k < n`. -/
def eblasZaxpy (n : ℕ) (alpha : E) (x : ℤ → E) (xOff : ℤ) (y : ℤ → E) (yOff : ℤ) : ℤ → E :=
  updateRange n yOff (fun k z => z + alpha * x (xOff + k)) y

namespace Matrix

/-- `nData() = nr*nc`, the elements of the buffer. -/
def nData (A : Matrix E) : ℤ := A.nr * A.nc

/-- `conj(const scaled<matrix>& A)`: a copy of the matrix whose `nData()` elements are scaled by
`scale` in their real parts and by `-scale` in their imaginary parts (two `eblas_dscal`s at
stride 2), that is `scale·conj(z)` for a real `scale`. -/
def conj (A : Matrix E) (scale : E) : Matrix E :=
  { A with data := updateRange A.nData.toNat 0 (fun _ z => scale * star z) A.data }

/-- `diag(const matrix& A)`: the real parts of the diagonal, `none` when
`myassert(A.nRows()==A.nCols())` fails. `re` is the real part of a `complex`. -/
def diag (re : E → E) (A : Matrix E) : Option (List E) :=
  if A.nr = A.nc then some ((List.range A.nr.toNat).map fun (i : ℕ) => re (A.data (A.index i i)))
  else none

end Matrix

/-- `diagouter(A, B)` (electronic/ElectronScattering.cpp), `diag(A*dagger(B))` "without
constructing large intermediate matrix": `conj(B)` multiplied elementwise by `A` (`eblas_zmul`),
columns `1, …, nCols-1` added into column 0 of that buffer by `eblas_zaxpy`s that read it, and
the real parts of column 0 read into a zero `diagMatrix` (`eblas_daxpy` at stride 2); `none` when
a `myassert` fails. `re` is the real part of a `complex`, as the `double` view reads it. -/
def diagouter (re : E → E) (A B : Matrix E) : Option (List E) :=
  if A.nr = B.nr ∧ A.nc = B.nc then
    let ABconj := B.conj 1
    let ABconj := { ABconj with data := eblasZmul ABconj.nData.toNat A.data ABconj.data }
    let summed := (List.range' 1 (ABconj.nc.toNat - 1)).foldl
      (fun buf (col : ℕ) => eblasZaxpy ABconj.nr.toNat 1 buf (ABconj.index 0 col) buf 0)
      ABconj.data
    some ((List.range ABconj.nr.toNat).map fun (i : ℕ) => re (summed i))
  else none

/-- Element `i < n` of column `l < c` lies inside a buffer of `c` columns of `n`. -/
theorem add_mul_lt_mul {n i l c : ℕ} (hi : i < n) (hl : l < c) : i + n * l < n * c :=
  calc i + n * l < n + n * l := by omega
    _ = n * (l + 1) := by ring
    _ ≤ n * c := Nat.mul_le_mul_left n hl

omit [StarRing E] in
/-- The loop of `zaxpy`s that adds columns `1, …, c` of a buffer of leading dimension `n` into
its column 0, each read from the buffer as the loop left it: column 0 ends as the sum of columns
`0, …, c`, and the rest of the buffer as it was. -/
theorem foldl_zaxpy_columns {n : ℕ} {off : ℕ → ℤ} (hoff : ∀ col, off col = n * col)
    (y : ℤ → E) (c : ℕ) (p : ℤ) :
    (List.range' 1 c).foldl (fun buf col => eblasZaxpy n 1 buf (off col) buf 0) y p =
      if 0 ≤ p ∧ p < n then y p + ∑ col ∈ range c, y (p + n * (col + 1)) else y p := by
  induction c generalizing p with
  | zero => split_ifs <;> simp
  | succ c ih =>
    rw [List.range'_concat, Nat.one_mul, List.foldl_append, List.foldl_cons, List.foldl_nil,
      eblasZaxpy, updateRange, zero_add, hoff, ih p]
    by_cases column0 : 0 ≤ p ∧ p < n
    · have beyond : (n : ℤ) ≤ n * ((1 + c : ℕ) : ℤ) :=
        le_mul_of_one_le_right (by positivity) (by push_cast; omega)
      simp only [if_pos column0]
      rw [ih, if_neg (by omega), sum_range_succ, one_mul, sub_zero, Int.toNat_of_nonneg column0.1,
        show (n : ℤ) * ((1 + c : ℕ) : ℤ) + p = p + n * (c + 1) by push_cast; ring, add_assoc]
    · simp only [if_neg column0]

/-- `diagouter(A, B)` is `diag(A*dagger(B))` for matrices of one shape with at least one column:
the elementwise products summed along each row by the in-place `zaxpy` loop are the diagonal of
the `zgemm` product of `A` with the dagger of `B`. -/
theorem diagouter_eq_diag (re : E → E) {A B : Matrix E} (fresh : ℤ → E) (rows : A.nr = B.nr)
    (cols : A.nc = B.nc) (nonempty : 0 < A.nr ∧ 0 < A.nc) :
    ∃ P, MatrixScaledTransOp.mul ⟨A, 1, .noTrans⟩ ⟨B, 1, .conjTrans⟩ fresh = some P ∧
      diagouter re A B = Matrix.diag re P := by
  obtain ⟨P, hP, PRows, PCols, PEntries⟩ := @MatrixScaledTransOp.mul_entry E _ _
    ⟨A, 1, .noTrans⟩ ⟨B, 1, .conjTrans⟩ fresh cols
    ⟨nonempty.1, nonempty.2, rows ▸ nonempty.1, cols ▸ nonempty.2⟩
  have square : P.nr = P.nc := by
    rw [PRows, PCols]
    exact rows
  refine ⟨P, hP, ?_⟩
  rw [diagouter, if_pos ⟨rows, cols⟩, Matrix.diag, if_pos square, PRows]
  simp only [Matrix.conj, MatrixScaledTransOp.nRows_noTrans, ← rows]
  refine congrArg some (List.map_congr_left fun i hi => congrArg re ?_)
  have hi' := List.mem_range.1 hi
  obtain ⟨c, hc⟩ := Int.eq_ofNat_of_zero_le nonempty.2.le
  rw [show P.data (P.index i i) = P.entry i i from rfl,
    PEntries i i (by simp; omega) (by simp [MatrixScaledTransOp.nCols]; omega),
    MatrixScaledTransOp.nCols_noTrans, hc, Int.toNat_natCast, one_mul, one_mul]
  obtain ⟨n, hn⟩ := Int.eq_ofNat_of_zero_le (by omega : 0 ≤ A.nr)
  simp only [Matrix.nData, Matrix.index, ← rows, ← cols, hn, hc, add_zero, ← Nat.cast_mul,
    Int.toNat_natCast]
  rw [foldl_zaxpy_columns (fun col => Nat.cast_mul n col), if_pos ⟨by positivity, by omega⟩]
  have product (l : ℕ) (hl : l < c) :
      eblasZmul (n * c) A.data (updateRange (n * c) 0 (fun _ z => 1 * star z) B.data)
        (i + n * l) = (⟨A, 1, .noTrans⟩ : MatrixScaledTransOp E).entry i l *
          (⟨B, 1, .conjTrans⟩ : MatrixScaledTransOp E).entry l i := by
    have inside : (0 : ℤ) ≤ i + n * l ∧ (i : ℤ) + n * l < 0 + ((n * c : ℕ) : ℤ) := by
      have := add_mul_lt_mul (by omega : i < n) hl
      constructor <;> [positivity; (push_cast at this ⊢; omega)]
    simp only [eblasZmul, updateRange, if_pos inside, sub_zero, one_mul,
      Int.toNat_of_nonneg inside.1, MatrixScaledTransOp.entry_noTrans, MatrixScaledTransOp.entry,
      BlasOp.entry, BlasOp.conj, if_neg (by decide : BlasOp.conjTrans ≠ BlasOp.noTrans), if_true,
      Matrix.entry, Matrix.index, ← rows, hn, add_comm ((n : ℤ) * l)]
  obtain ⟨c', rfl⟩ : ∃ c', c = c' + 1 := ⟨c - 1, by omega⟩
  rw [Nat.add_sub_cancel, sum_range_succ', add_comm, ← Nat.cast_zero, ← product 0 (by omega),
    Nat.cast_zero, mul_zero, add_zero]
  refine congrArg (· + _) (sum_congr rfl fun l hl => ?_)
  rw [← product (l + 1) (by simpa using hl)]
  push_cast
  rfl

/-- Two `2 × 2` matrices, with the identity for the real part. -/
theorem diagouter_eq_diag_square :
    let A : Matrix ℤ := ⟨2, 2, fun x => x⟩
    let B : Matrix ℤ := ⟨2, 2, fun x => 2 * x⟩
    (A.nr = B.nr ∧ A.nc = B.nc ∧ 0 < A.nr ∧ 0 < A.nc) ∧
    ∃ P, MatrixScaledTransOp.mul ⟨A, 1, .noTrans⟩ ⟨B, 1, .conjTrans⟩ (fun _ => 0) = some P ∧
      diagouter id A B = Matrix.diag id P := by
  intro A B
  exact ⟨⟨rfl, rfl, by decide, by decide⟩, diagouter_eq_diag id _ rfl rfl ⟨by decide, by decide⟩⟩

/-! ## `diagDot` -/

/-- `diagDot(X, Y)` (electronic/operators.cpp): the real parts of the `zdotc`s of column `b` of
`X` with column `b` of `Y`, over `X.colLength()` elements, in a new `diagMatrix`; `none` when a
`myassert` fails. `sameBasis` is the outcome of `X.basis==Y.basis`, which compares pointers. -/
def diagDot (re : E → E) (X Y : ColumnBundle E) (sameBasis : Bool) : Option (List E) :=
  if X.nCols = Y.nCols ∧ sameBasis then
    some ((List.range X.nCols).map fun b =>
      re (eblasZdotc X.colLength X.buf (X.index b 0) Y.buf (Y.index b 0)))
  else none

/-- `diagDot(X, Y)` on one basis is `diag(X^Y)` for bundles of one column length: its one `zdotc`
per column gives the diagonal of the overlap matrix that `operator^` builds by `zgemm`. -/
theorem diagDot_eq_diag (re : E → E) {X Y : ColumnBundle E} (fresh : ℤ → E)
    (length : X.colLength = Y.colLength) (cols : X.nCols = Y.nCols)
    (nonempty : 0 < X.colLength ∧ 0 < X.nCols) :
    ∃ M, overlap 1 X 1 Y fresh = some M ∧ diagDot re X Y true = Matrix.diag re M := by
  obtain ⟨M, hM, MRows, MCols, MEntries⟩ :=
    @overlap_of_colLength E _ _ 1 1 X Y fresh length nonempty
  refine ⟨M, hM, ?_⟩
  rw [diagDot, if_pos ⟨cols, rfl⟩, Matrix.diag, if_pos (by rw [MRows, MCols, cols]), MRows,
    Int.toNat_natCast]
  refine congrArg some (List.map_congr_left fun b hb => congrArg re ?_)
  have hb := List.mem_range.1 hb
  rw [show M.data (M.index b b) = M.entry b b from rfl, MEntries b hb b (by omega), overlapEntry,
    eblasZdotc_column, one_mul, one_mul]

/-- Two columns of two elements on each side, with the identity for the real part. -/
theorem diagDot_eq_diag_two :
    let X : ColumnBundle ℤ := ⟨2, 2, 2, 1, fun n => n + 1⟩
    let Y : ColumnBundle ℤ := ⟨2, 2, 2, 1, fun n => 3 - n⟩
    (X.colLength = Y.colLength ∧ X.nCols = Y.nCols ∧ 0 < X.colLength ∧ 0 < X.nCols) ∧
    ∃ M, overlap 1 X 1 Y (fun _ => 0) = some M ∧ diagDot id X Y true = Matrix.diag id M := by
  intro X Y
  exact ⟨⟨rfl, rfl, by decide, by decide⟩, diagDot_eq_diag id _ rfl rfl ⟨by decide, by decide⟩⟩

end Ring

end Jdftx.Electronic
