/-
# Electronic.Blas — `eblas_zgemm`, as BLAS specifies `zgemm`

`eblas_zgemm(opA, opB, M, N, K, alpha, A, lda, B, ldb, beta, C, ldc)` (called from
electronic/matrix.cpp and electronic/ColumnBundle.cpp) is the CPU entry to BLAS `zgemm` on
column-major buffers. Neither it nor BLAS is among the sources, so it is taken with the contract
of the reference `zgemm`, in two parts:

* the argument checks (`ZgemmLegal`): no dimension is negative, and each leading dimension is at
  least `max(1, rows)` of the matrix stored there, `rows` being `M` or `K` for `A` and `K` or `N`
  for `B` as the operation says, and `M` for `C`. A call that fails one is refused (`xerbla`)
  and computes nothing: `zgemm` is `none`.
* the stores of a legal call (`gemmStores`): for `i < M` and `j < N`,
  `C[i + ldc*j] = alpha·Σ_{l<K} op(A)(i,l)·op(B)(l,j) + beta·C[i + ldc*j]`.

A pointer `p + offs` is the buffer seen from `offs` (`fun q => p (offs + q)`); what a call leaves
in the buffer seen from there is the buffer the caller gets back, shifted (`storeAll_shift`).

The element type is a semiring with a `star`, the conjugate of `CblasConjTrans`, in place of
`complex`.
-/
import Jdftx.Electronic.Matrix
import Mathlib.Algebra.BigOperators.Group.Finset
import Mathlib.Algebra.Star.Basic
import Mathlib.Data.Int.Interval

namespace Jdftx.Electronic

set_option autoImplicit false

open Finset

/-- `CBLAS_TRANSPOSE`: the operation a `zgemm` applies to a factor. -/
inductive BlasOp
  | noTrans
  | trans
  | conjTrans
  deriving DecidableEq

namespace BlasOp

/-- The rows of the buffer that holds a factor of `rows × cols` under `op`: the factor itself
under `CblasNoTrans`, its transpose otherwise. -/
def storedRows (op : BlasOp) (rows cols : ℤ) : ℤ := if op = noTrans then rows else cols

variable {E : Type} [Star E]

/-- `conjOp`: the conjugate under `CblasConjTrans`. -/
def conj (op : BlasOp) (z : E) : E := if op = conjTrans then star z else z

/-- Entry `(i, j)` of `op(A)`, for `A` column-major with leading dimension `ld`. -/
def entry (op : BlasOp) (A : ℤ → E) (ld i j : ℤ) : E :=
  if op = noTrans then A (i + ld * j) else op.conj (A (j + ld * i))

end BlasOp

/-! ## The call -/

/-- The argument checks of `zgemm`: `M, N, K ≥ 0`, `lda ≥ max(1, rows of A)`,
`ldb ≥ max(1, rows of B)` and `ldc ≥ max(1, M)`. -/
def ZgemmLegal (opA opB : BlasOp) (M N K lda ldb ldc : ℤ) : Prop :=
  0 ≤ M ∧ 0 ≤ N ∧ 0 ≤ K ∧ max 1 (opA.storedRows M K) ≤ lda ∧
    max 1 (opB.storedRows K N) ≤ ldb ∧ max 1 M ≤ ldc

instance (opA opB : BlasOp) (M N K lda ldb ldc : ℤ) :
    Decidable (ZgemmLegal opA opB M N K lda ldb ldc) :=
  inferInstanceAs (Decidable (_ ∧ _ ∧ _ ∧ _ ∧ _ ∧ _))

variable {E : Type} [Semiring E] [Star E]

/-- The stores of a legal call, `C[i + ldc*j] = alpha·Σ_{l<K} op(A)(i,l)·op(B)(l,j) +
beta·C[i + ldc*j]` for `i < M` and `j < N`. -/
def gemmStores (opA opB : BlasOp) (M N K : ℤ) (alpha : E) (A : ℤ → E) (lda : ℤ) (B : ℤ → E)
    (ldb : ℤ) (beta : E) (C : ℤ → E) (ldc : ℤ) : ℤ → E :=
  storeAll (fun k => k.1 + ldc * k.2)
    (fun k => alpha * ∑ l ∈ Ico 0 K, opA.entry A lda k.1 l * opB.entry B ldb l k.2 +
      beta * C (k.1 + ldc * k.2))
    (loopNest M N) C

/-- `eblas_zgemm(opA, opB, M, N, K, alpha, A, lda, B, ldb, beta, C, ldc)`: the new contents of
`C`, `none` when BLAS refuses the arguments. -/
def zgemm (opA opB : BlasOp) (M N K : ℤ) (alpha : E) (A : ℤ → E) (lda : ℤ) (B : ℤ → E)
    (ldb : ℤ) (beta : E) (C : ℤ → E) (ldc : ℤ) : Option (ℤ → E) :=
  if ZgemmLegal opA opB M N K lda ldb ldc then
    some (gemmStores opA opB M N K alpha A lda B ldb beta C ldc)
  else none

section Gemm

variable {opA opB : BlasOp} {M N K lda ldb ldc : ℤ} {alpha beta : E} {A B C : ℤ → E}

theorem zgemm_of_legal (legal : ZgemmLegal opA opB M N K lda ldb ldc) :
    zgemm opA opB M N K alpha A lda B ldb beta C ldc =
      some (gemmStores opA opB M N K alpha A lda B ldb beta C ldc) :=
  if_pos legal

theorem zgemm_of_not_legal (illegal : ¬ ZgemmLegal opA opB M N K lda ldb ldc) :
    zgemm opA opB M N K alpha A lda B ldb beta C ldc = none :=
  if_neg illegal

/-- Entry `(i, j)` of the product, for `i < M ≤ ldc` and `j < N`, is what the call stores
there. -/
theorem gemmStores_apply (ld : M ≤ ldc) {i j : ℤ} (hi : 0 ≤ i ∧ i < M) (hj : 0 ≤ j ∧ j < N) :
    gemmStores opA opB M N K alpha A lda B ldb beta C ldc (i + ldc * j) =
      alpha * ∑ l ∈ Ico 0 K, opA.entry A lda i l * opB.entry B ldb l j + beta * C (i + ldc * j) := by
  lift i to ℕ using hi.1
  lift j to ℕ using hj.1
  have loop : ((i, j) : ℕ × ℕ) ∈ loopNest M N := mem_loopNest.2 ⟨hi.2, hj.2⟩
  refine storeAll_apply _ _ loop (fun k mem same => ?_) C
  have rows := (mem_loopNest.1 mem).1
  have := mul_add_inj (by linarith : ldc * k.2 + k.1 = ldc * j + i)
    ⟨k.1.cast_nonneg, by omega⟩ ⟨i.cast_nonneg, by omega⟩
  exact Prod.ext (by exact_mod_cast this.1) (by exact_mod_cast this.2)

/-- A column from `N` on keeps what `C` held. -/
theorem gemmStores_apply_of_le (ld : M ≤ ldc) {i j : ℤ} (hi : 0 ≤ i ∧ i < ldc) (hj : N ≤ j) :
    gemmStores opA opB M N K alpha A lda B ldb beta C ldc (i + ldc * j) = C (i + ldc * j) := by
  refine storeAll_apply_of_forall_ne _ _ (fun k mem same => ?_) C
  have := (mem_loopNest.1 mem)
  have := mul_add_inj (by linarith : ldc * k.2 + k.1 = ldc * j + i) ⟨k.1.cast_nonneg, by omega⟩ hi
  omega

end Gemm

/-! ## Pointers into a buffer -/

omit [Semiring E] [Star E] in
/-- Stores into the buffer seen from `offs` are the same stores into the buffer itself, each
position moved by `offs`. -/
theorem storeAll_shift {κ : Type} (pos : κ → ℤ) (val : κ → E) (ks : List κ) (offs : ℤ)
    (buf : ℤ → E) :
    (fun q => storeAll pos val ks (fun p => buf (offs + p)) (q - offs)) =
      storeAll (fun k => offs + pos k) val ks buf := by
  induction ks generalizing buf with
  | nil => simp
  | cons k ks ih =>
    have moved : Function.update (fun p => buf (offs + p)) (pos k) (val k) =
        fun p => Function.update buf (offs + pos k) (val k) (offs + p) := by
      funext p
      simp only [Function.update_apply, add_right_inj]
    rw [storeAll_cons, storeAll_cons, moved, ih]

end Jdftx.Electronic
