/-
# Electronic.Checkpoint — `write` and `read` of the wavefunctions (electronic/ColumnBundle.cpp)

`write(Y, fname, eInfo)` runs on every process at once. Each process adds the bytes of its
bundles `Y[q]`, `qStart ≤ q < qStop`, into `nBytes[iProcess]`; the broadcasts give every process
all of `nBytes`; each process then writes its bundles one after the other from
`offset = Σ_{iSrc<iProcess} nBytes[iSrc]` of the file they opened together, which has
`fsize = Σ nBytes` bytes. `read` computes the offsets from the sizes it expects, checks the
size of the file (`fopenRead`), and reads each bundle back; with a conversion that sets
`nBandsOld`, it reads bundles of `nBandsOld` columns and keeps their first columns
(`setSub`/`getSub`).

A process holds a list of bundles, a write is a position with the bytes written there, and the
file maps positions to bytes and has a size. A complex number lies in memory, and in the file,
as `sizeof(complex)` bytes (`MemoryImage`).

* `writeAll_write_perm`: the writes of all the processes leave the same file in every order, in
  particular in every interleaving of the processes: the bundles of process `0`, then those of
  process `1`, …, one after the other, in a file of `fsize` bytes (`written`).
* `read_written`: reading that file with any split of bundles of the sizes `read` expects over
  any number of processes gives each bundle the columns written at its place; under a
  conversion, the first `nBandsOld` columns of the bundle are those of the file and the others
  keep what they held.

The MPI calls are taken with the meaning their names give (`MPIUtil` is not among the sources):
`fwrite` and `fread` move the file pointer of their process, and a read past the end of the file
fails. The real-space conversion and the conversion to another plane-wave cutoff are not
modelled: the conversions modelled are those with `realSpace` unset and `EcutOld` either unset or
equal to `Ecut`, for which `read` only looks at `nBandsOld`. The test `Ytmp[q] ? … : …` is
`needTmp`: a `Ytmp[q]` that `init` made has columns. What a new buffer holds before it is written
is the parameter `fresh`.
-/
import Jdftx.Electronic.ColumnBundle
import Mathlib.Algebra.BigOperators.Group.List
import Mathlib.Data.List.Forall2
import Mathlib.Data.List.Perm.Basic

namespace Jdftx.Electronic

set_option autoImplicit false

/-- How a `complex` lies in memory and in the file: `sizeof(complex)` bytes, which read back as
the same number. -/
structure MemoryImage (E B : Type) where
  size : ℕ
  bytes : E → List B
  ofBytes : List B → E
  length_bytes : ∀ e, (bytes e).length = size
  ofBytes_bytes : ∀ e, ofBytes (bytes e) = e

namespace MemoryImage

variable {E B : Type} (img : MemoryImage E B)

/-- The bytes of `fwrite(data, sizeof(complex), n, fp)`. -/
def encode (data : ℕ → E) (n : ℕ) : List B := (List.range n).flatMap fun k => img.bytes (data k)

/-- `fread(data, sizeof(complex), n, fp)` of the bytes `bs`: element `k < n` from the bytes
`[k·size, (k+1)·size)`, the rest of the buffer as it was. -/
def decode (bs : List B) (data : ℕ → E) (n : ℕ) : ℕ → E :=
  fun k => if k < n then img.ofBytes ((bs.drop (k * img.size)).take img.size) else data k

theorem encode_succ (data : ℕ → E) (n : ℕ) :
    img.encode data (n + 1) = img.encode data n ++ img.bytes (data n) := by
  simp only [encode, List.range_succ, List.flatMap_append, List.flatMap_cons, List.flatMap_nil,
    List.append_nil]

@[simp] theorem length_encode (data : ℕ → E) (n : ℕ) : (img.encode data n).length = n * img.size := by
  induction n with
  | zero => simp [encode]
  | succ n ih => rw [encode_succ, List.length_append, ih, img.length_bytes, Nat.succ_mul]

/-- Element `k < n` of an encoding lies in its bytes `[k·size, (k+1)·size)`. -/
theorem take_drop_encode (data : ℕ → E) {n k : ℕ} (hk : k < n) :
    ((img.encode data n).drop (k * img.size)).take img.size = img.bytes (data k) := by
  induction n with
  | zero => omega
  | succ n ih =>
    rw [encode_succ]
    rcases Nat.lt_succ_iff_lt_or_eq.1 hk with lt | rfl
    · have room : k * img.size + img.size ≤ (img.encode data n).length := by
        rw [length_encode, ← Nat.succ_mul]
        exact Nat.mul_le_mul_right _ lt
      rw [List.drop_append_of_le_length (by omega),
        List.take_append_of_le_length (by rw [List.length_drop]; omega), ih lt]
    · rw [List.drop_left' (length_encode img data k),
        List.take_of_length_le (img.length_bytes _).le]

/-- `fread` of what `fwrite` wrote gives back the `n` numbers written. -/
theorem decode_encode (data buffer : ℕ → E) (n : ℕ) :
    img.decode (img.encode data n) buffer n = fun k => if k < n then data k else buffer k := by
  funext k
  simp only [decode]
  split_ifs with hk
  · rw [take_drop_encode img data hk, img.ofBytes_bytes]
  · rfl

end MemoryImage

/-- A file: the byte at each position, `none` where nothing was written, and its size. -/
@[ext] structure File (B : Type) where
  bytes : ℕ → Option B
  size : ℕ

namespace File

variable {B : Type}

/-- The file `fopenWrite` leaves: empty. -/
def empty : File B := ⟨fun _ => none, 0⟩

/-- `fwrite` of the bytes `bs` at the file pointer `pos`: the file grows to the end of a
nonempty write. -/
def write (f : File B) (pos : ℕ) (bs : List B) : File B :=
  ⟨fun x => if pos ≤ x ∧ x < pos + bs.length then bs[x - pos]? else f.bytes x,
    if bs.length = 0 then f.size else max f.size (pos + bs.length)⟩

@[simp] theorem write_bytes (f : File B) (pos : ℕ) (bs : List B) (x : ℕ) :
    (f.write pos bs).bytes x = if pos ≤ x ∧ x < pos + bs.length then bs[x - pos]? else f.bytes x :=
  rfl

@[simp] theorem write_size (f : File B) (pos : ℕ) (bs : List B) :
    (f.write pos bs).size = if bs.length = 0 then f.size else max f.size (pos + bs.length) :=
  rfl

/-- `fread` of `n` bytes at the file pointer `pos`; `none` when the file ends before. -/
def read (f : File B) (pos : ℕ) : ℕ → Option (List B)
  | 0 => some []
  | n + 1 => do
    let b ← f.bytes pos
    let bs ← f.read (pos + 1) n
    pure (b :: bs)

/-- The file holds the bytes `bs` from `pos` on. -/
def Holds (f : File B) (pos : ℕ) (bs : List B) : Prop := ∀ k < bs.length, f.bytes (pos + k) = bs[k]?

theorem Holds.append {f : File B} {pos : ℕ} {bs bs' : List B} (holds : f.Holds pos (bs ++ bs')) :
    f.Holds pos bs ∧ f.Holds (pos + bs.length) bs' := by
  refine ⟨fun k hk => ?_, fun k hk => ?_⟩
  · rw [← List.getElem?_append_left hk]
    exact holds k (by rw [List.length_append]; omega)
  · rw [Nat.add_assoc, holds _ (by rw [List.length_append]; omega),
      List.getElem?_append_right (by omega), Nat.add_sub_cancel_left]

/-- Reading bytes the file holds gives them back. -/
theorem read_eq_some {f : File B} {pos : ℕ} {bs : List B} (holds : f.Holds pos bs) :
    f.read pos bs.length = some bs := by
  induction bs generalizing pos with
  | nil => rfl
  | cons b bs ih =>
    have first : f.bytes pos = some b := by simpa using holds 0 (by simp)
    have rest : f.read (pos + 1) bs.length = some bs := ih fun k hk => by
      simpa only [Nat.add_assoc, Nat.add_comm 1 k, List.getElem?_cons_succ] using
        holds (k + 1) (by simp [hk])
    simp only [List.length_cons, read, first, rest, Option.bind_eq_bind, Option.some_bind]
    rfl

/-- A write, the position and the bytes. -/
abbrev Write (B : Type) := ℕ × List B

/-- The file after the writes `ws`, in this order, into `f`. -/
def writeAll (f : File B) (ws : List (Write B)) : File B := ws.foldl (fun f w => f.write w.1 w.2) f

end File

/-! ## Writes laid end to end -/

section Layout

variable {B : Type}

/-- The segments `ss` written one after the other from `pos`. -/
def laidOut (pos : ℕ) : List (List B) → List (File.Write B)
  | [] => []
  | s :: ss => (pos, s) :: laidOut (pos + s.length) ss

/-- Two writes that do not overlap: one ends where or before the other starts. -/
def Apart (w w' : File.Write B) : Prop := w.1 + w.2.length ≤ w'.1 ∨ w'.1 + w'.2.length ≤ w.1

/-- Writes that do not overlap commute. -/
theorem write_comm (f : File B) {w w' : File.Write B} (apart : Apart w w') :
    (f.write w.1 w.2).write w'.1 w'.2 = (f.write w'.1 w'.2).write w.1 w.2 := by
  obtain ⟨p, bs⟩ := w
  obtain ⟨p', bs'⟩ := w'
  simp only [Apart] at apart
  simp only [File.write, File.mk.injEq]
  refine ⟨funext fun x => ?_, ?_⟩
  · split_ifs <;> first | rfl | omega
  · split_ifs <;> omega

theorem laidOut_append (pos : ℕ) (ss ss' : List (List B)) :
    laidOut pos (ss ++ ss') = laidOut pos ss ++ laidOut (pos + ss.flatten.length) ss' := by
  induction ss generalizing pos with
  | nil => rfl
  | cons s ss ih =>
    rw [List.cons_append, laidOut, laidOut, ih, List.cons_append, List.flatten_cons,
      List.length_append, Nat.add_assoc]

theorem le_of_mem_laidOut {pos : ℕ} {ss : List (List B)} {w : File.Write B}
    (mem : w ∈ laidOut pos ss) : pos ≤ w.1 ∧ w.1 + w.2.length ≤ pos + (ss.map List.length).sum := by
  induction ss generalizing pos with
  | nil => cases mem
  | cons s ss ih =>
    rcases List.mem_cons.1 mem with rfl | later
    · simp
    · have := ih later
      simp only [List.map_cons, List.sum_cons]
      omega

/-- Two writes of a layout are one and the same, or do not overlap. -/
theorem apart_of_mem_laidOut {pos : ℕ} {ss : List (List B)} {w w' : File.Write B}
    (mem : w ∈ laidOut pos ss) (mem' : w' ∈ laidOut pos ss) : w = w' ∨ Apart w w' := by
  induction ss generalizing pos with
  | nil => cases mem
  | cons s ss ih =>
    rcases List.mem_cons.1 mem with rfl | later <;> rcases List.mem_cons.1 mem' with rfl | later'
    · exact .inl rfl
    · exact .inr (.inl (le_of_mem_laidOut later').1)
    · exact .inr (.inr (le_of_mem_laidOut later).1)
    · exact ih later later'

/-- Writing a layout in order puts its bytes one after the other from `pos`. -/
theorem File.writeAll_laidOut (f : File B) (pos : ℕ) (ss : List (List B)) :
    (f.writeAll (laidOut pos ss)).bytes =
        (fun x => if pos ≤ x ∧ x < pos + ss.flatten.length then ss.flatten[x - pos]? else f.bytes x) ∧
      (f.writeAll (laidOut pos ss)).size =
        if ss.flatten.length = 0 then f.size else max f.size (pos + ss.flatten.length) := by
  induction ss generalizing f pos with
  | nil =>
    refine ⟨funext fun x => ?_, rfl⟩
    simp only [laidOut, File.writeAll, List.foldl_nil, List.flatten_nil, List.length_nil]
    rw [if_neg (by omega)]
  | cons s ss ih =>
    obtain ⟨bytes, size⟩ := ih (f.write pos s) (pos + s.length)
    simp only [laidOut, File.writeAll, List.foldl_cons] at bytes size ⊢
    simp only [List.flatten_cons, List.length_append]
    refine ⟨?_, ?_⟩
    · rw [bytes]
      funext x
      by_cases later : pos + s.length ≤ x ∧ x < pos + s.length + ss.flatten.length
      · rw [if_pos later, if_pos (by omega), List.getElem?_append_right (by omega)]
        congr 1
        omega
      · rw [if_neg later]
        by_cases first : pos ≤ x ∧ x < pos + s.length
        · rw [File.write_bytes, if_pos first, if_pos (by omega),
            List.getElem?_append_left (by omega)]
        · rw [File.write_bytes, if_neg first, if_neg (by omega)]
    · rw [size, File.write_size]
      split_ifs <;> omega

/-- In every order, the writes of a layout leave the same file as in order. -/
theorem File.writeAll_perm_laidOut (f : File B) (pos : ℕ) (ss : List (List B))
    {sched : List (File.Write B)} (perm : sched.Perm (laidOut pos ss)) :
    f.writeAll sched = f.writeAll (laidOut pos ss) := by
  refine perm.foldl_eq' (fun w mem w' mem' g => ?_) f
  rcases apart_of_mem_laidOut (perm.subset mem) (perm.subset mem') with rfl | apart
  · rfl
  · exact write_comm g apart

end Layout

/-! ## `write` -/

section Bundles

variable {E B : Type} (img : MemoryImage E B)

/-- The bytes of `fwrite(Y.data(), sizeof(complex), Y.nData(), fp)`. -/
def bundleBytes (Y : ColumnBundle E) : List B := img.encode Y.data Y.nData

theorem length_bundleBytes (Y : ColumnBundle E) : (bundleBytes img Y).length = Y.nData * img.size :=
  img.length_encode _ _

/-- `nBytes[iProcess]` of `write`: `Σ Y[q].nData()*sizeof(complex)` over the bundles of the
process. -/
def writeBytes (Ys : List (ColumnBundle E)) : ℕ := (Ys.map fun Y => Y.nData * img.size).sum

/-- `offset` of the process `iProcess`: `Σ_{iSrc<iProcess} nBytes[iSrc]`. -/
def offsetOf (nBytes : List ℕ) (iProcess : ℕ) : ℕ := (nBytes.take iProcess).sum

@[simp] theorem offsetOf_zero (nBytes : List ℕ) : offsetOf nBytes 0 = 0 := rfl

@[simp] theorem offsetOf_cons_succ (n : ℕ) (nBytes : List ℕ) (iProcess : ℕ) :
    offsetOf (n :: nBytes) (iProcess + 1) = n + offsetOf nBytes iProcess := by
  simp [offsetOf]

/-- `write(Y, fname, eInfo)`: the `fwrite`s of each process, its bundles `Y[q]` one after the other
from its `offset`. -/
def write (procs : List (List (ColumnBundle E))) : List (List (File.Write B)) :=
  let nBytes := procs.map (writeBytes img)
  procs.mapIdx fun iProcess Ys => laidOut (offsetOf nBytes iProcess) (Ys.map (bundleBytes img))

theorem writeBytes_eq_length (Ys : List (ColumnBundle E)) :
    writeBytes img Ys = (Ys.map (bundleBytes img)).flatten.length := by
  simp only [writeBytes, List.length_flatten, List.map_map, Function.comp_def, length_bundleBytes]

/-- The writes of the processes, from their offsets, are the bundles of all the processes laid
out one after the other. -/
theorem flatten_mapIdx_laidOut (pos : ℕ) (procs : List (List (ColumnBundle E))) :
    (procs.mapIdx fun iProcess Ys =>
        laidOut (pos + offsetOf (procs.map (writeBytes img)) iProcess) (Ys.map (bundleBytes img))).flatten =
      laidOut pos (procs.flatten.map (bundleBytes img)) := by
  induction procs generalizing pos with
  | nil => rfl
  | cons Ys procs ih =>
    simp only [List.mapIdx_cons, List.map_cons, offsetOf_zero, offsetOf_cons_succ, Nat.add_zero,
      ← Nat.add_assoc, List.flatten_cons, List.map_append, laidOut_append, writeBytes_eq_length, ih]

theorem sum_writeBytes (procs : List (List (ColumnBundle E))) :
    (procs.map (writeBytes img)).sum = (procs.flatten.map (bundleBytes img)).flatten.length := by
  rw [show writeBytes img = fun Ys => (Ys.map fun Y => Y.nData * img.size).sum from rfl]
  simp only [List.length_flatten, List.map_flatten, List.sum_flatten, List.map_map,
    Function.comp_def, length_bundleBytes]

/-- The file of the bundles `procs` of all the processes: their bytes one after the other, and
`fsize = Σ nBytes` bytes. -/
def written (procs : List (List (ColumnBundle E))) : File B :=
  ⟨fun x => (procs.flatten.map (bundleBytes img)).flatten[x]?, (procs.map (writeBytes img)).sum⟩

/-- Every interleaving of the writes of the processes, and every other order of them, leaves the
same file: the bundles of process `0`, then those of process `1`, and so on, one after the other,
in a file of `fsize` bytes. -/
theorem writeAll_write_perm (procs : List (List (ColumnBundle E))) {sched : List (File.Write B)}
    (perm : sched.Perm (write img procs).flatten) :
    File.empty.writeAll sched = written img procs := by
  have layout : (write img procs).flatten = laidOut 0 (procs.flatten.map (bundleBytes img)) := by
    simpa only [Nat.zero_add] using flatten_mapIdx_laidOut img 0 procs
  rw [layout] at perm
  obtain ⟨bytes, size⟩ := File.writeAll_laidOut File.empty 0 (procs.flatten.map (bundleBytes img))
  rw [File.writeAll_perm_laidOut File.empty 0 _ perm]
  ext1
  · rw [bytes]
    funext x
    split_ifs with inside
    · rw [Nat.sub_zero]
      rfl
    · exact (List.getElem?_eq_none (by omega)).symm
  · rw [size, written, sum_writeBytes]
    split_ifs with empty
    · exact empty.symm
    · simp [File.empty]

/-- Two processes with bundles of two-byte numbers, their writes in the reverse order. -/
theorem writeAll_write_perm_reversed :
    let img : MemoryImage (ℕ × ℕ) ℕ :=
      ⟨2, fun z => [z.1, z.2], fun bs => (bs.getD 0 0, bs.getD 1 0), fun _ => rfl, fun _ => rfl⟩
    let procs : List (List (ColumnBundle (ℕ × ℕ))) :=
      [[⟨1, 2, 2, 1, fun k => (k, 1)⟩], [⟨2, 1, 1, 1, fun k => (k, 2)⟩, ⟨1, 1, 1, 1, fun k => (k, 3)⟩]]
    (write img procs).flatten.reverse.Perm (write img procs).flatten ∧
      File.empty.writeAll (write img procs).flatten.reverse = written img procs := by
  intro img procs
  exact ⟨List.reverse_perm _, writeAll_write_perm img procs (List.reverse_perm _)⟩

/-! ## `read` -/

/-- `needTmp` of `read` under a conversion that sets `nBandsOld` only (`0`: no conversion): the
bundle in the file has another number of columns than the bundle read into. -/
def NeedTmp (nBandsOld : ℕ) (Y : ColumnBundle E) : Prop := nBandsOld ≠ 0 ∧ nBandsOld ≠ Y.nCols

instance (nBandsOld : ℕ) (Y : ColumnBundle E) : Decidable (NeedTmp nBandsOld Y) :=
  inferInstanceAs (Decidable (_ ∧ _))

/-- `nCols` of `read`: the columns of the bundle in the file. -/
def readCols (nBandsOld : ℕ) (Y : ColumnBundle E) : ℕ :=
  if NeedTmp nBandsOld Y then nBandsOld else Y.nCols

/-- `nBytes` of `read` for one bundle: `nCols * basis->nbasis*nSpinor * sizeof(complex)`. -/
def readBytes (nBandsOld : ℕ) (Y : ColumnBundle E) : ℕ :=
  readCols nBandsOld Y * (Y.nbasis * Y.nSpinor) * img.size

variable (f : File B) (nBandsOld : ℕ) (fresh : ℕ → E)

/-- One bundle of the read loop from the file pointer `pos`, and the file pointer after: when the
bundle in the file has other columns, `fread` into `Ytmp[q]`, then `setSub` or `getSub`; else
`fread` into `Y[q]`. -/
def readBundle (pos : ℕ) (Y : ColumnBundle E) : Option (ColumnBundle E × ℕ) :=
  if NeedTmp nBandsOld Y then do
    let Ytmp ← ColumnBundle.init nBandsOld (Y.nbasis * Y.nSpinor) Y.nbasis Y.nSpinor fresh
    let bs ← f.read pos (Ytmp.nData * img.size)
    let Ytmp := { Ytmp with data := img.decode bs Ytmp.data Ytmp.nData }
    let Y' ← if Ytmp.nCols < Y.nCols then Y.setSub 0 Ytmp else Ytmp.getSub 0 Y.nCols fresh
    pure (Y', pos + Ytmp.nData * img.size)
  else do
    let bs ← f.read pos (Y.nData * img.size)
    pure ({ Y with data := img.decode bs Y.data Y.nData }, pos + Y.nData * img.size)

/-- The read loop of one process from the file pointer `pos`. -/
def readProcess : ℕ → List (ColumnBundle E) → Option (List (ColumnBundle E))
  | _, [] => some []
  | pos, Y :: Ys => do
    let (Y', pos') ← readBundle img f nBandsOld fresh pos Y
    let Ys' ← readProcess pos' Ys
    pure (Y' :: Ys')

/-- `read(Y, fname, eInfo, conversion)`: every process computes `nBytes`, its `offset` and
`fsize` from the bundles it expects; `fopenRead` fails unless the file has `fsize` bytes; each
process then reads its bundles from its offset. -/
def read (procs : List (List (ColumnBundle E))) : Option (List (List (ColumnBundle E))) :=
  let nBytes := procs.map fun Ys => (Ys.map (readBytes img nBandsOld)).sum
  if f.size ≠ nBytes.sum then none
  else (procs.mapIdx fun iProcess Ys =>
    readProcess img f nBandsOld fresh (offsetOf nBytes iProcess) Ys).mapM id

/-- A bundle `Y` that `read` fills from the bundle `W` of the file: columns of
`nbasis*spinorLength()` numbers, as `ElecVars` makes them; `W` of the size `read` expects; and,
when the column counts differ, columns in both (the `myassert`s of `Ytmp[q].init` and of
`getSub`). -/
structure Fits (nBandsOld : ℕ) (Y W : ColumnBundle E) : Prop where
  colLength : Y.colLength = Y.nbasis * Y.nSpinor
  size : W.nData = readCols nBandsOld Y * Y.colLength
  nonempty : NeedTmp nBandsOld Y → 0 < Y.nCols ∧ 0 < Y.colLength

/-- What `read` leaves in `Y` from the bundle `W` of the file: the shape of `Y`; in each column
before `readCols`, the column of `W` at the same place, and the other columns as they were. -/
structure Loaded (nBandsOld : ℕ) (Y W Y' : ColumnBundle E) : Prop where
  nCols : Y'.nCols = Y.nCols
  colLength : Y'.colLength = Y.colLength
  nbasis : Y'.nbasis = Y.nbasis
  nSpinor : Y'.nSpinor = Y.nSpinor
  column : ∀ i < Y.nCols, ∀ j < Y.colLength,
    Y'.column i j = if i < readCols nBandsOld Y then W.data (i * Y.colLength + j) else Y.column i j

theorem readBytes_eq {Y W : ColumnBundle E} (fits : Fits nBandsOld Y W) :
    readBytes img nBandsOld Y = W.nData * img.size := by
  rw [readBytes, fits.size, fits.colLength]

/-- A bundle read from bytes the file holds gets the bundle written there, and the file pointer
moves past it. -/
theorem readBundle_spec {pos : ℕ} {Y W : ColumnBundle E} (fits : Fits nBandsOld Y W)
    (holds : f.Holds pos (bundleBytes img W)) :
    ∃ Y', readBundle img f nBandsOld fresh pos Y = some (Y', pos + W.nData * img.size) ∧
      Loaded nBandsOld Y W Y' := by
  have read : f.read pos (W.nData * img.size) = some (bundleBytes img W) := by
    rw [← length_bundleBytes]
    exact File.read_eq_some holds
  have decoded (buffer : ℕ → E) {k : ℕ} (hk : k < W.nData) :
      img.decode (bundleBytes img W) buffer W.nData k = W.data k := by
    rw [bundleBytes, img.decode_encode]
    exact if_pos hk
  by_cases need : NeedTmp nBandsOld Y
  · obtain ⟨cols, len⟩ := fits.nonempty need
    have readCols_eq : readCols nBandsOld Y = nBandsOld := if_pos need
    have tmpSize (data : ℕ → E) : (⟨nBandsOld, Y.nbasis * Y.nSpinor, Y.nbasis, Y.nSpinor, data⟩ :
        ColumnBundle E).nData = W.nData := by
      rw [ColumnBundle.nData, fits.size, readCols_eq, fits.colLength]
    have init : ColumnBundle.init nBandsOld (Y.nbasis * Y.nSpinor) Y.nbasis Y.nSpinor fresh =
        some ⟨nBandsOld, Y.nbasis * Y.nSpinor, Y.nbasis, Y.nSpinor, fresh⟩ := by
      rw [ColumnBundle.init, if_neg (by rw [← fits.colLength]; omega)]
    let Ytmp : ColumnBundle E := ⟨nBandsOld, Y.nbasis * Y.nSpinor, Y.nbasis, Y.nSpinor,
      img.decode (bundleBytes img W) fresh W.nData⟩
    have tmpColumn {i j : ℕ} (hi : i < nBandsOld) (hj : j < Y.colLength) :
        Ytmp.column i j = W.data (i * Y.colLength + j) := by
      simp only [ColumnBundle.column, Ytmp, ← fits.colLength]
      exact decoded fresh (by rw [fits.size, readCols_eq]; exact (mul_add_lt_mul_iff hj).2 hi)
    have loop : readBundle img f nBandsOld fresh pos Y =
        (if nBandsOld < Y.nCols then Y.setSub 0 Ytmp else Ytmp.getSub 0 Y.nCols fresh).bind
          fun Y' => some (Y', pos + W.nData * img.size) := by
      simp only [readBundle, if_pos need, init, tmpSize, read, Option.bind_eq_bind,
        Option.some_bind, Ytmp]
      split_ifs <;> rfl
    rcases lt_or_le nBandsOld Y.nCols with fewer | more
    · obtain ⟨Z, setSub, nCols, colLength, nbasis, nSpinor, column⟩ :=
        @ColumnBundle.setSub_spec E Y Ytmp 0 cols fits.colLength
      refine ⟨Z, by rw [loop, if_pos fewer, show Y.setSub 0 Ytmp = some Z from setSub]; rfl,
        ⟨nCols, colLength, nbasis, nSpinor, fun i hi j hj => ?_⟩⟩
      rw [column i (nCols ▸ hi) j (colLength ▸ hj), readCols_eq]
      simp only [Nat.zero_le, true_and, Nat.zero_add, Nat.sub_zero, Nat.min_eq_left fewer.le,
        Nat.sub_zero]
      split_ifs with before
      · exact tmpColumn before hj
      · rfl
    · have more : Y.nCols < nBandsOld := lt_of_le_of_ne more (Ne.symm need.2)
      obtain ⟨Z, getSub, nCols, colLength, nbasis, nSpinor, column⟩ :=
        @ColumnBundle.getSub_spec E Ytmp 0 Y.nCols fresh le_rfl (by simp only [Ytmp]; omega)
          (by omega) (by simp only [Ytmp]; rw [← fits.colLength]; omega)
      have nCols' : Z.nCols = Y.nCols := by omega
      refine ⟨Z, by rw [loop, if_neg (by omega), getSub]; rfl,
        ⟨nCols', colLength.trans fits.colLength.symm, nbasis, nSpinor, fun i hi j hj => ?_⟩⟩
      have hj' : j < Y.nbasis * Y.nSpinor := fits.colLength ▸ hj
      rw [column i (nCols' ▸ hi) j (colLength ▸ hj'), readCols_eq,
        if_pos (by omega), Int.toNat_zero, Nat.zero_add]
      exact tmpColumn (by omega) hj
  · have readCols_eq : readCols nBandsOld Y = Y.nCols := if_neg need
    have nData : Y.nData = W.nData := by rw [fits.size, readCols_eq]; rfl
    refine ⟨{ Y with data := img.decode (bundleBytes img W) Y.data Y.nData }, ?_, rfl, rfl, rfl, rfl,
      fun i hi j hj => ?_⟩
    · simp only [readBundle, if_neg need, nData, read, Option.bind_eq_bind, Option.some_bind]
      rfl
    · rw [readCols_eq, if_pos hi]
      simp only [ColumnBundle.column]
      rw [nData]
      exact decoded Y.data (by rw [← nData]; exact (mul_add_lt_mul_iff hj).2 hi)

theorem sum_readBytes {Ys Ws : List (ColumnBundle E)} (fits : List.Forall₂ (Fits nBandsOld) Ys Ws) :
    (Ys.map (readBytes img nBandsOld)).sum = (Ws.map (bundleBytes img)).flatten.length := by
  induction fits with
  | nil => rfl
  | cons fit _ ih =>
    simp only [List.map_cons, List.sum_cons, List.flatten_cons, List.length_append, ih,
      readBytes_eq img nBandsOld fit, length_bundleBytes]

/-- The read loop of one process over bytes the file holds gets each bundle written there. -/
theorem readProcess_spec {Ys Ws : List (ColumnBundle E)} (fits : List.Forall₂ (Fits nBandsOld) Ys Ws)
    {pos : ℕ} (holds : f.Holds pos (Ws.map (bundleBytes img)).flatten) :
    ∃ Ys', readProcess img f nBandsOld fresh pos Ys = some Ys' ∧
      List.Forall₂ (fun Y' YW => Loaded nBandsOld YW.1 YW.2 Y') Ys' (Ys.zip Ws) := by
  induction fits generalizing pos with
  | nil => exact ⟨[], rfl, .nil⟩
  | @cons Y W Ys Ws fit _ ih =>
    rw [List.map_cons, List.flatten_cons] at holds
    obtain ⟨first, rest⟩ := holds.append
    obtain ⟨Y', read, loaded⟩ := readBundle_spec img f nBandsOld fresh fit first
    obtain ⟨Ys', reads, loadeds⟩ := ih (length_bundleBytes img W ▸ rest)
    refine ⟨Y' :: Ys', ?_, .cons loaded loadeds⟩
    simp only [readProcess, read, reads, Option.bind_eq_bind, Option.some_bind]
    rfl

/-- The read loops of all the processes, each from its offset, over bytes the file holds. -/
theorem mapM_readProcess {procs : List (List (ColumnBundle E))} {Ws : List (ColumnBundle E)}
    (fits : List.Forall₂ (Fits nBandsOld) procs.flatten Ws) {pos : ℕ}
    (holds : f.Holds pos (Ws.map (bundleBytes img)).flatten) :
    ∃ R, (procs.mapIdx fun iProcess Ys => readProcess img f nBandsOld fresh
          (pos + offsetOf (procs.map fun Ys => (Ys.map (readBytes img nBandsOld)).sum) iProcess)
          Ys).mapM id = some R ∧
      R.map List.length = procs.map List.length ∧
      List.Forall₂ (fun Y' YW => Loaded nBandsOld YW.1 YW.2 Y') R.flatten (procs.flatten.zip Ws) := by
  induction procs generalizing Ws pos with
  | nil =>
    rw [List.flatten_nil, List.forall₂_nil_left_iff] at fits
    subst fits
    exact ⟨[], rfl, rfl, .nil⟩
  | cons Ys procs ih =>
    rw [List.flatten_cons] at fits
    have fits₁ : List.Forall₂ (Fits nBandsOld) Ys (Ws.take Ys.length) := by
      simpa only [List.take_left] using List.forall₂_take Ys.length fits
    have fits₂ : List.Forall₂ (Fits nBandsOld) procs.flatten (Ws.drop Ys.length) := by
      simpa only [List.drop_left] using List.forall₂_drop Ys.length fits
    rw [← List.take_append_drop Ys.length Ws, List.map_append, List.flatten_append] at holds
    obtain ⟨first, rest⟩ := holds.append
    obtain ⟨Ys', read, loaded⟩ := readProcess_spec img f nBandsOld fresh fits₁ first
    obtain ⟨R, reads, lengths, loadeds⟩ := ih fits₂ (sum_readBytes img nBandsOld fits₁ ▸ rest)
    refine ⟨Ys' :: R, ?_, ?_, ?_⟩
    · simp only [List.mapIdx_cons, List.map_cons, offsetOf_zero, offsetOf_cons_succ, Nat.add_zero,
        ← Nat.add_assoc, List.mapM_cons, id, read, reads, Option.pure_def, Option.bind_eq_bind,
        Option.some_bind]
    · have length : Ys'.length = Ys.length := by
        rw [loaded.length_eq, List.length_zip, ← fits₁.length_eq, Nat.min_self]
      rw [List.map_cons, List.map_cons, lengths, length]
    · rw [List.flatten_cons, List.flatten_cons, ← List.take_append_drop Ys.length Ws,
        List.zip_append fits₁.length_eq]
      exact List.rel_append loaded loadeds

/-- Reading the file of the bundles `procs`, with any split `procs'` of bundles of the sizes
`read` expects over any number of processes, gives every process as many bundles as it had; each
bundle gets, in its columns before `readCols`, the columns of the bundle of `procs` at its place,
and keeps its other columns. -/
theorem read_written (procs procs' : List (List (ColumnBundle E)))
    (fits : List.Forall₂ (Fits nBandsOld) procs'.flatten procs.flatten) :
    ∃ R, read img (written img procs) nBandsOld fresh procs' = some R ∧
      R.map List.length = procs'.map List.length ∧
      List.Forall₂ (fun Y' YW => Loaded nBandsOld YW.1 YW.2 Y') R.flatten
        (procs'.flatten.zip procs.flatten) := by
  have fsize : (written img procs).size =
      (procs'.map fun Ys => (Ys.map (readBytes img nBandsOld)).sum).sum := by
    show (procs.map (writeBytes img)).sum = _
    rw [sum_writeBytes, ← sum_readBytes img nBandsOld fits, List.map_flatten, List.sum_flatten,
      List.map_map]
    rfl
  have holds : (written img procs).Holds 0 (procs.flatten.map (bundleBytes img)).flatten :=
    fun k _ => by rw [Nat.zero_add]; rfl
  obtain ⟨R, reads, lengths, loadeds⟩ := mapM_readProcess img (written img procs) nBandsOld fresh
    fits holds
  refine ⟨R, ?_, lengths, loadeds⟩
  simp only [Nat.zero_add] at reads
  rw [read, if_neg (not_not.2 fsize), reads]

/-- Two bundles of two columns written by one process, read by two processes into bundles of three
columns with `nBandsOld = 2`. -/
theorem read_written_nBandsOld :
    let img : MemoryImage (ℕ × ℕ) ℕ :=
      ⟨2, fun z => [z.1, z.2], fun bs => (bs.getD 0 0, bs.getD 1 0), fun _ => rfl, fun _ => rfl⟩
    let procs : List (List (ColumnBundle (ℕ × ℕ))) :=
      [[⟨2, 1, 1, 1, fun k => (k, 1)⟩, ⟨2, 1, 1, 1, fun k => (k, 2)⟩]]
    let procs' : List (List (ColumnBundle (ℕ × ℕ))) :=
      [[⟨3, 1, 1, 1, fun _ => (0, 0)⟩], [⟨3, 1, 1, 1, fun _ => (0, 0)⟩]]
    List.Forall₂ (Fits 2) procs'.flatten procs.flatten ∧
      ∃ R, read img (written img procs) 2 (fun _ => (0, 0)) procs' = some R ∧
        R.map List.length = procs'.map List.length ∧
        List.Forall₂ (fun Y' YW => Loaded 2 YW.1 YW.2 Y') R.flatten (procs'.flatten.zip procs.flatten) := by
  intro img procs procs'
  have fits : List.Forall₂ (Fits 2) procs'.flatten procs.flatten :=
    .cons ⟨rfl, by decide, fun _ => ⟨by decide, by decide⟩⟩
      (.cons ⟨rfl, by decide, fun _ => ⟨by decide, by decide⟩⟩ .nil)
  exact ⟨fits, read_written img 2 _ procs procs' fits⟩

end Bundles

end Jdftx.Electronic
