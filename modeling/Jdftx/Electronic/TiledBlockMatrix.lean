/-
# Electronic.TiledBlockMatrix — a block-diagonal matrix applied one block at a time

`tiledBlockMatrix(mBlock, nBlocks, phaseArr)` (electronic/matrix.cpp) stands for the
block-diagonal matrix `diag(phase_0·mBlock, …, phase_{nBlocks-1}·mBlock)`, with every phase `1`
when there is no `phaseArr`. Its `operator*` multiplies it into `other` one block at a time:
block `iBlock` is one `eblas_zgemm` call (`zgemm`, with BLAS's argument checks) that reads rows
`iBlock·c …` of `other` (`c = mBlock.nCols()`) and writes at the same offset `iBlock·c` of
`result`, whose blocks have `r = mBlock.nRows()` rows.

* `mul_eq`: when BLAS accepts the arguments of the calls, the block loop is one loop of stores,
  at the positions `writes` (`storeAll_product`).
* `mul_square_blocks`: for nonempty square blocks (`r = c > 0`) the result is the dense product
  of the block-diagonal matrix with `other` (`denseMulEntry`), every entry of the result is
  stored exactly once, and no store leaves it.
* `mul_offset_mismatch`: with a `1 × 2` block and two blocks, block `1` stores at position `2`
  of a result of `2` entries and entry `(1, 0)` keeps what the new buffer held; the output
  offset would have to be `iBlock·r`.

The element type is any semiring `E` with a `star` in place of `complex`.
-/
import Jdftx.Electronic.Blas
import Mathlib.Algebra.BigOperators.Ring
import Mathlib.Analysis.Normed.Field.Lemmas
import Mathlib.Algebra.Order.BigOperators.Group.Finset
import Mathlib.Tactic.Ring

namespace Jdftx.Electronic

set_option autoImplicit false

open Finset

/-- A loop in `Option` whose every step succeeds is the loop of the steps. -/
theorem foldlM_of_forall_some {α β : Type} {f : β → α → Option β} (g : β → α → β) {l : List α}
    (step : ∀ a ∈ l, ∀ b, f b a = some (g b a)) (b : β) : l.foldlM f b = some (l.foldl g b) := by
  induction l generalizing b with
  | nil => rfl
  | cons a l ih =>
    rw [List.foldlM_cons, step a (List.mem_cons_self _ _)]
    exact ih (fun a' mem => step a' (List.mem_cons_of_mem _ mem)) _

variable {E : Type} [Semiring E] [Star E]

/-! ## The operator -/

/-- A `tiledBlockMatrix`: `nBlocks` copies of `mBlock` down the diagonal, block `iBlock` scaled
by `phaseArr->at(iBlock)` when there is a phase array, which has one phase per block. -/
structure TiledBlockMatrix (E : Type) where
  mBlock : Matrix E
  nBlocks : ℤ
  phaseArr : Option (List E)
  nBlocks_eq : ∀ phases ∈ phaseArr, nBlocks = phases.length

namespace TiledBlockMatrix

/-- The constructor: `none` when `myassert(nBlocks==int(phaseArr->size()))` fails. -/
def create (mBlock : Matrix E) (nBlocks : ℤ) : Option (List E) → Option (TiledBlockMatrix E)
  | none => some ⟨mBlock, nBlocks, none, by simp⟩
  | some phases =>
    if h : nBlocks = phases.length then some ⟨mBlock, nBlocks, some phases, by simpa using h⟩
    else none

/-- `phaseArr ? phaseArr->at(iBlock) : 1` (the index is in range for `iBlock < nBlocks`). -/
def phase (T : TiledBlockMatrix E) (iBlock : ℕ) : E :=
  match T.phaseArr with
  | some phases => phases.getD iBlock 1
  | none => 1

/-- `operator*(other)`: `none` when `myassert(mBlock.nCols()*nBlocks == other.nRows())` fails
or BLAS refuses a call; `fresh` is what the buffer of `result` holds before the loop. The
pointers `other.dataPref()+offs` and `result.dataPref()+offs` are the buffers seen from
`offs`. -/
def mul (T : TiledBlockMatrix E) (other : Matrix E) (fresh : ℤ → E) : Option (Matrix E) :=
  if T.mBlock.nc * T.nBlocks = other.nr then do
    let result : Matrix E := ⟨T.mBlock.nr * T.nBlocks, other.nc, fresh⟩
    let data ← (List.range T.nBlocks.toNat).foldlM (fun C (iBlock : ℕ) =>
      let offs : ℤ := iBlock * T.mBlock.nc
      (zgemm .noTrans .noTrans T.mBlock.nr other.nc T.mBlock.nc (T.phase iBlock) T.mBlock.data
        T.mBlock.nr (fun p => other.data (offs + p)) other.nr 0 (fun p => C (offs + p))
        result.nr).map fun C' q => C' (q - offs)) result.data
    some { result with data }
  else none

/-! ## The block loop as one loop of stores -/

variable (T : TiledBlockMatrix E) (other : Matrix E)

/-- The stores of the block loop, in order: block `b`, then `(i, j)` as `zgemm` visits them. -/
def blockKeys : List (ℕ × ℕ × ℕ) :=
  List.range T.nBlocks.toNat ×ˢ loopNest T.mBlock.nr other.nc

/-- Block `b` stores entry `(i, j)` of its product at offset `b·c` of `result`. -/
def blockPos (key : ℕ × ℕ × ℕ) : ℤ :=
  key.1 * T.mBlock.nc + (key.2.1 + T.mBlock.nr * T.nBlocks * key.2.2)

/-- What it stores there: `phase_b · Σ_l mBlock(i, l) · other(b·c + l, j)`. -/
def blockVal (key : ℕ × ℕ × ℕ) : E :=
  T.phase key.1 * ∑ l ∈ Ico 0 T.mBlock.nc,
    T.mBlock.data (key.2.1 + T.mBlock.nr * l) *
      other.data (key.1 * T.mBlock.nc + (l + other.nr * key.2.2))

/-- The positions of `result` that the block loop stores to, in order. -/
def writes : List ℤ := (T.blockKeys other).map (T.blockPos)

/-- When BLAS accepts the arguments of the block calls (there are calls only for
`nBlocks > 0`), the block loop is one loop of stores. -/
theorem mul_eq {fresh : ℤ → E} (rows : T.mBlock.nc * T.nBlocks = other.nr)
    (legal : 0 < T.nBlocks → ZgemmLegal .noTrans .noTrans T.mBlock.nr other.nc T.mBlock.nc
      T.mBlock.nr other.nr (T.mBlock.nr * T.nBlocks)) :
    T.mul other fresh = some ⟨T.mBlock.nr * T.nBlocks, other.nc,
      storeAll (T.blockPos) (T.blockVal other) (T.blockKeys other) fresh⟩ := by
  have block : ∀ b ∈ List.range T.nBlocks.toNat, ∀ C : ℤ → E,
      (zgemm .noTrans .noTrans T.mBlock.nr other.nc T.mBlock.nc (T.phase b) T.mBlock.data
        T.mBlock.nr (fun p => other.data (b * T.mBlock.nc + p)) other.nr 0
        (fun p => C (b * T.mBlock.nc + p)) (T.mBlock.nr * T.nBlocks)).map
          (fun C' q => C' (q - b * T.mBlock.nc)) =
        some (storeAll (fun k => T.blockPos (b, k)) (fun k => T.blockVal other (b, k))
          (loopNest T.mBlock.nr other.nc) C) := fun b mem C => by
    rw [zgemm_of_legal (legal (by simp at mem; omega)), Option.map_some', gemmStores,
      storeAll_shift]
    simp only [zero_mul, add_zero, BlasOp.entry, if_true]
    rfl
  simp only [mul, if_pos rows, foldlM_of_forall_some _ block, blockKeys, storeAll_product,
    Option.bind_eq_bind, Option.some_bind]

/-! ## What the operator stands for -/

/-- Entry `(i, l)` of `diag(phase_0·mBlock, …, phase_{nBlocks-1}·mBlock)`: nonzero only when the
row's block `i / r` is the column's block `l / c`. -/
def blockDiagEntry (i l : ℤ) : E :=
  if i / T.mBlock.nr = l / T.mBlock.nc then
    T.phase (i / T.mBlock.nr).toNat * T.mBlock.entry (i % T.mBlock.nr) (l % T.mBlock.nc)
  else 0

/-- Entry `(i, j)` of the dense product of the block-diagonal matrix with `other`. -/
def denseMulEntry (i j : ℤ) : E :=
  ∑ l ∈ Ico 0 (T.mBlock.nc * T.nBlocks), T.blockDiagEntry i l * other.entry l j

end TiledBlockMatrix

/-- Column `l` is in block `b` exactly when `b·c ≤ l < b·c + c`. -/
theorem eq_ediv_iff {l c b : ℤ} (c_pos : 0 < c) : b = l / c ↔ b * c ≤ l ∧ l < b * c + c := by
  have upper : l / c ≤ b ↔ l < b * c + c := by
    rw [← Int.lt_add_one_iff, Int.ediv_lt_iff_lt_mul c_pos, add_mul, one_mul]
  rw [le_antisymm_iff, Int.le_ediv_iff_mul_le c_pos, upper]

omit [Star E] in
/-- In a row of block `b` only the `c` columns of block `b` count. -/
theorem sum_blockRow {c n b : ℤ} (f : ℤ → ℤ → E) (c_pos : 0 < c) (b_nonneg : 0 ≤ b)
    (b_lt : b < n) :
    ∑ l ∈ Ico 0 (c * n), (if b = l / c then f (l % c) l else 0) =
      ∑ l ∈ Ico 0 c, f l (b * c + l) := by
  have within : c * (b + 1) ≤ c * n := mul_le_mul_of_nonneg_left (by omega) c_pos.le
  have block :
      (Ico 0 (c * n)).filter (fun l => b = l / c) = (Ico 0 c).map (addLeftEmbedding (b * c)) := by
    ext l
    simp only [mem_filter, mem_Ico, mem_map, addLeftEmbedding_apply, eq_ediv_iff c_pos]
    have : 0 ≤ b * c := mul_nonneg b_nonneg c_pos.le
    constructor
    · rintro ⟨-, low, high⟩
      exact ⟨l - b * c, ⟨by omega, by omega⟩, by omega⟩
    · rintro ⟨a, ⟨a_nonneg, a_lt⟩, rfl⟩
      exact ⟨⟨by omega, by linarith⟩, by omega, by omega⟩
  rw [← sum_filter, block, sum_map]
  refine sum_congr rfl fun l mem => ?_
  rw [mem_Ico] at mem
  have : (b * c + l) % c = l := by
    rw [add_comm, Int.add_mul_emod_self, Int.emod_eq_of_lt mem.1 mem.2]
  rw [addLeftEmbedding_apply, this]

namespace TiledBlockMatrix

variable {T : TiledBlockMatrix E} {other : Matrix E}

omit [Semiring E] [Star E] in
theorem mem_blockKeys {key : ℕ × ℕ × ℕ} :
    key ∈ T.blockKeys other ↔
      (key.1 : ℤ) < T.nBlocks ∧ (key.2.1 : ℤ) < T.mBlock.nr ∧ (key.2.2 : ℤ) < other.nc := by
  obtain ⟨b, k⟩ := key
  simp [blockKeys, List.mem_product, Int.lt_toNat]

section Square

variable (square : T.mBlock.nr = T.mBlock.nc)
include square

omit [Semiring E] [Star E] in
/-- With square blocks the store of `(b, i, j)` lands on entry `(b·r + i, j)` of `result`. -/
theorem blockPos_eq (key : ℕ × ℕ × ℕ) :
    T.blockPos key = T.mBlock.nr * T.nBlocks * key.2.2 + T.mBlock.index key.2.1 key.1 := by
  simp only [blockPos, Matrix.index, square]
  ring

omit [Semiring E] [Star E] square in
theorem blockRow_mem {key : ℕ × ℕ × ℕ} (mem : key ∈ T.blockKeys other) :
    0 ≤ T.mBlock.index key.2.1 key.1 ∧ T.mBlock.index key.2.1 key.1 < T.mBlock.nr * T.nBlocks := by
  obtain ⟨b, i, j⟩ := mem_blockKeys.1 mem
  have : T.mBlock.nr * (key.1 + 1) ≤ T.mBlock.nr * T.nBlocks :=
    mul_le_mul_of_nonneg_left (by omega) (by omega)
  have : 0 ≤ T.mBlock.nr * key.1 := mul_nonneg (by omega) key.1.cast_nonneg
  constructor <;> simp only [Matrix.index] <;> linarith

omit [Semiring E] [Star E] in
/-- With square blocks no two stores of the loop hit the same position. -/
theorem blockPos_inj {key key' : ℕ × ℕ × ℕ} (mem : key ∈ T.blockKeys other)
    (mem' : key' ∈ T.blockKeys other) (same : T.blockPos key' = T.blockPos key) :
    key' = key := by
  rw [blockPos_eq square, blockPos_eq square] at same
  obtain ⟨rows, cols⟩ := mul_add_inj same (blockRow_mem mem') (blockRow_mem mem)
  obtain ⟨i, b⟩ := Matrix.index_inj rows ⟨key'.2.1.cast_nonneg, (mem_blockKeys.1 mem').2.1⟩
    ⟨key.2.1.cast_nonneg, (mem_blockKeys.1 mem).2.1⟩
  obtain ⟨b', i', j'⟩ := key'
  obtain ⟨b, i, j⟩ := key
  simp only [Nat.cast_inj] at *
  simp [*]

omit [Star E] in
/-- With square blocks, what block `b` stores for `(i, j)` is entry `(b·r + i, j)` of the dense
product. -/
theorem blockVal_eq {key : ℕ × ℕ × ℕ} (mem : key ∈ T.blockKeys other) :
    T.blockVal other key = T.denseMulEntry other (T.mBlock.index key.2.1 key.1) key.2.2 := by
  obtain ⟨b, i, j⟩ := key
  obtain ⟨b_lt, i_lt, -⟩ := mem_blockKeys.1 mem
  have r_pos : 0 < T.mBlock.nr := by omega
  obtain ⟨row_block, row_offset⟩ := (Int.ediv_emod_unique r_pos).2
    (show (i : ℤ) + T.mBlock.nr * b = T.mBlock.index i b ∧ 0 ≤ (i : ℤ) ∧ (i : ℤ) < T.mBlock.nr from
      ⟨add_comm _ _, i.cast_nonneg, i_lt⟩)
  simp only [denseMulEntry, blockDiagEntry, row_block, row_offset, Int.toNat_natCast, ite_mul,
    zero_mul]
  rw [sum_blockRow (fun l' l => T.phase b * T.mBlock.entry i l' * other.entry l j)
    (by rwa [← square]) b.cast_nonneg b_lt, blockVal, mul_sum]
  refine sum_congr rfl fun l _ => ?_
  simp only [Matrix.entry, Matrix.index, mul_assoc]
  congr 3 <;> ring

omit [Semiring E] [Star E] square in
/-- Every entry `(p, j)` of the result is entry `(p mod r, j)` of the product of block
`p / r`. -/
theorem exists_blockKey (nonneg : 0 ≤ T.mBlock.nr) {p j : ℤ} (p_nonneg : 0 ≤ p)
    (p_lt : p < T.mBlock.nr * T.nBlocks) (j_nonneg : 0 ≤ j) (j_lt : j < other.nc) :
    ∃ key ∈ T.blockKeys other, T.mBlock.index key.2.1 key.1 = p ∧ (key.2.2 : ℤ) = j := by
  have r_pos : 0 < T.mBlock.nr := by
    rcases nonneg.lt_or_eq with r_pos | r_zero
    · exact r_pos
    · rw [← r_zero, zero_mul] at p_lt
      omega
  have block := Int.toNat_of_nonneg (Int.ediv_nonneg p_nonneg r_pos.le)
  have offset := Int.toNat_of_nonneg (Int.emod_nonneg p r_pos.ne')
  refine ⟨((p / T.mBlock.nr).toNat, (p % T.mBlock.nr).toNat, j.toNat), ?_, ?_, by simp [j_nonneg]⟩
  · rw [mem_blockKeys]
    simp only [block, offset, Int.toNat_of_nonneg j_nonneg]
    exact ⟨(Int.ediv_lt_iff_lt_mul r_pos).2 (by rwa [mul_comm]), Int.emod_lt_of_pos p r_pos, j_lt⟩
  · simp only [Matrix.index, block, offset]
    exact Int.ediv_add_emod p T.mBlock.nr

/-- With nonempty square blocks (`r = c > 0`) the loop computes the dense product of the
block-diagonal matrix with `other`: every entry of the result holds `denseMulEntry`, the stores
hit pairwise different positions, all inside the `(r·nBlocks) × other.nCols()` result, and every
entry of the result is stored to. -/
theorem mul_square_blocks (pos : 0 < T.mBlock.nc) (cols : 0 ≤ other.nc)
    (rows : T.mBlock.nc * T.nBlocks = other.nr) (fresh : ℤ → E) :
    ∃ Y, T.mul other fresh = some Y ∧ Y.nr = T.mBlock.nr * T.nBlocks ∧ Y.nc = other.nc ∧
      (∀ i j, Y.InRange i j → Y.entry i j = T.denseMulEntry other i j) ∧
      (T.writes other).Nodup ∧ (∀ w ∈ T.writes other, 0 ≤ w ∧ w < Y.nr * Y.nc) ∧
      ∀ i j, Y.InRange i j → Y.index i j ∈ T.writes other := by
  have nonneg : 0 ≤ T.mBlock.nr := square ▸ pos.le
  -- BLAS accepts the calls: every leading dimension holds at least one block
  have legal : 0 < T.nBlocks → ZgemmLegal .noTrans .noTrans T.mBlock.nr other.nc T.mBlock.nc
      T.mBlock.nr other.nr (T.mBlock.nr * T.nBlocks) := fun blocks => by
    have wide : T.mBlock.nc ≤ T.mBlock.nc * T.nBlocks := le_mul_of_one_le_right pos.le blocks
    simp only [ZgemmLegal, BlasOp.storedRows, if_true, ← rows, square]
    omega
  let Y : Matrix E := ⟨T.mBlock.nr * T.nBlocks, other.nc,
    storeAll T.blockPos (T.blockVal other) (T.blockKeys other) fresh⟩
  refine ⟨Y, mul_eq T other rows legal, rfl, rfl, ?_, ?_, ?_, ?_⟩
  · rintro p j ⟨p_nonneg, p_lt, j_nonneg, (j_lt : j < other.nc)⟩
    obtain ⟨key, mem, row, col⟩ := exists_blockKey nonneg p_nonneg p_lt j_nonneg j_lt
    rw [← row, ← col, ← blockVal_eq square mem]
    refine (congrArg _ (blockPos_eq square key).symm).trans ?_
    exact storeAll_apply _ _ mem (fun key' mem' same => blockPos_inj square mem mem' same) _
  · exact ((List.nodup_range _).product (nodup_loopNest _ _)).map_on
      fun key mem key' mem' same => blockPos_inj square mem' mem same
  · intro w written
    obtain ⟨key, mem, rfl⟩ := List.mem_map.1 written
    rw [blockPos_eq square]
    exact Y.index_mem_of_inRange ⟨(blockRow_mem mem).1, (blockRow_mem mem).2,
      key.2.2.cast_nonneg, (mem_blockKeys.1 mem).2.2⟩
  · rintro p j ⟨p_nonneg, p_lt, j_nonneg, (j_lt : j < other.nc)⟩
    obtain ⟨key, mem, row, col⟩ := exists_blockKey nonneg p_nonneg p_lt j_nonneg j_lt
    exact List.mem_map.2 ⟨key, mem, by rw [blockPos_eq square, row, col]; rfl⟩

end Square

/-- Two `2 × 2` blocks with phases `1` and `2`, applied to a `4 × 1` column. -/
theorem mul_square_blocks_two :
    let T : TiledBlockMatrix ℤ := ⟨⟨2, 2, fun p => p⟩, 2, some [1, 2], by decide⟩
    let other : Matrix ℤ := ⟨4, 1, fun p => p + 1⟩
    T.mBlock.nr = T.mBlock.nc ∧ 0 < T.mBlock.nc ∧ 0 ≤ other.nc ∧
    T.mBlock.nc * T.nBlocks = other.nr ∧
    ∃ Y, T.mul other 0 = some Y ∧ Y.nr = T.mBlock.nr * T.nBlocks ∧ Y.nc = other.nc ∧
      (∀ i j, Y.InRange i j → Y.entry i j = T.denseMulEntry other i j) ∧
      (T.writes other).Nodup ∧ (∀ w ∈ T.writes other, 0 ≤ w ∧ w < Y.nr * Y.nc) ∧
      ∀ i j, Y.InRange i j → Y.index i j ∈ T.writes other :=
  ⟨rfl, by decide, by decide, rfl, mul_square_blocks rfl (by decide) (by decide) rfl 0⟩

/-- A `1 × 2` block, two blocks, no phases, and a `4 × 1` column of ones: BLAS accepts the
calls, block `1` stores at offset `iBlock·c = 2`, position `2` of a result of `2` entries, and
entry `(1, 0)` keeps what the new buffer held (`0`) where the dense product has `2`. -/
theorem mul_offset_mismatch :
    ∃ (T : TiledBlockMatrix ℤ) (other Y : Matrix ℤ), T.mul other 0 = some Y ∧
      Y.nr * Y.nc ≤ 2 ∧ 2 ∈ T.writes other ∧ Y.entry 1 0 ≠ T.denseMulEntry other 1 0 :=
  ⟨⟨⟨1, 2, fun _ => 1⟩, 2, none, by simp⟩, ⟨4, 1, fun _ => 1⟩, _,
    mul_eq _ _ (by decide) fun _ => by decide, by decide, by decide, by decide⟩

end TiledBlockMatrix

end Jdftx.Electronic
