/-
# Core.ManagedMemory — allocations and the memory-usage report (core/ManagedMemory.cpp)

Every `ManagedMemory` (the base class of `matrix` and `ColumnBundle`) records the `category` of
its allocation, its size `nElements` in complex numbers, and whether it lives on the GPU.
`memInit` frees what the object holds and allocates anew, unless the object already has the
requested category, size and place; `memFree` gives the memory back, and does nothing when the
object holds no element; `memMove` swaps the contents of two objects; the destructor frees.
With `ENABLE_PROFILING`, `MemUsageReport::manager` keeps the current usage and its peak per
category and in total: `Add` after every allocation and `Remove` after every free, each under
one lock, so each is one step here.

The model is the program's heap, the objects alive and the report; `step` is one operation on
it and `run` a sequence of operations, `none` when a `myassert` fails.

* `accounted_run`: after every run from the empty heap, the current usage of each category and
  the total are the sizes of the live allocations, and never exceed their peaks.
* `remove_le_current`: every `Remove` takes from a category and from the total at most their
  current usage, so the `size_t` subtraction never wraps.
* `peak_trace`: the peak of each category and of the total is the largest usage among the
  states of the run.

The CPU build is modelled (`GPU_ENABLED` unset): an object on the GPU fails
`myassert(!"onGpu=true without GPU_ENABLED")`. The pointer `c` is not modelled, and an
allocation is taken to succeed.
-/
import Mathlib.Algebra.Order.BigOperators.Group.List
import Mathlib.Algebra.Order.Group.Nat
import Mathlib.Algebra.Order.Ring.Nat

namespace Jdftx

set_option autoImplicit false

/-! ## The report -/

/-- `MemUsageReport::Usage`: the current and the peak usage, in complex numbers; `Usage()` is
both zero. -/
structure Usage where
  current : ℕ
  peak : ℕ
  deriving DecidableEq, Repr

namespace Usage

instance : Inhabited Usage := ⟨⟨0, 0⟩⟩

/-- `operator+=(n)`: `current += n; if(current > peak) peak = current;`. -/
def add (u : Usage) (n : ℕ) : Usage :=
  ⟨u.current + n, if u.current + n > u.peak then u.current + n else u.peak⟩

/-- `operator-=(n)`: `current -= n`. -/
def sub (u : Usage) (n : ℕ) : Usage := ⟨u.current - n, u.peak⟩

@[simp] theorem add_current (u : Usage) (n : ℕ) : (u.add n).current = u.current + n := rfl

@[simp] theorem add_peak (u : Usage) (n : ℕ) : (u.add n).peak = max u.peak (u.current + n) := by
  simp only [add, gt_iff_lt, max_def]
  split_ifs <;> omega

@[simp] theorem sub_current (u : Usage) (n : ℕ) : (u.sub n).current = u.current - n := rfl

@[simp] theorem sub_peak (u : Usage) (n : ℕ) : (u.sub n).peak = u.peak := rfl

end Usage

/-- The static state of `MemUsageReport::manager`: `usageMap`, a `std::map` whose `operator[]`
inserts `Usage()` for a category it has not seen (so a function that is `Usage()` off the
categories used), and `usageTotal`. -/
structure Report where
  usageMap : String → Usage
  usageTotal : Usage

namespace Report

/-- The report before any allocation. -/
def empty : Report := ⟨fun _ => default, default⟩

/-- `manager(Add, category, nElements)`: `usageMap[category] += nElements; usageTotal +=
nElements;`, then `myassert(category.length())`. -/
def add (rep : Report) (category : String) (nElements : ℕ) : Option Report :=
  if category.length = 0 then none
  else some ⟨Function.update rep.usageMap category ((rep.usageMap category).add nElements),
    rep.usageTotal.add nElements⟩

/-- `manager(Remove, category, nElements)`: `usageMap[category] -= nElements; usageTotal -=
nElements;`, then `myassert(category.length())`. -/
def remove (rep : Report) (category : String) (nElements : ℕ) : Option Report :=
  if category.length = 0 then none
  else some ⟨Function.update rep.usageMap category ((rep.usageMap category).sub nElements),
    rep.usageTotal.sub nElements⟩

end Report

/-! ## One object -/

/-- The fields of a `ManagedMemory` that its functions read and write. -/
structure ManagedMemory where
  category : String
  nElements : ℕ
  onGpu : Bool
  deriving DecidableEq, Repr

namespace ManagedMemory

/-- `ManagedMemory()`: `nElements(0), c(0), onGpu(false)`, and an empty category. -/
def empty : ManagedMemory := ⟨"", 0, false⟩

/-- `memFree()`: `if(!nElements) return;`, then `fftw_free(c)` (on the CPU build an object on
the GPU fails its `myassert`), `Remove`, and `c = 0; nElements = 0; category.clear();`. -/
def memFree (o : ManagedMemory) (rep : Report) : Option (ManagedMemory × Report) :=
  if o.nElements = 0 then some (o, rep)
  else if o.onGpu then none
  else (rep.remove o.category o.nElements).map fun rep => ({ o with category := "", nElements := 0 }, rep)

/-- `memInit(category, nElements, onGpu)`: nothing when the object is already in the required
state; otherwise `memFree()`, the new fields, `fftw_malloc` (an object on the GPU fails its
`myassert` on the CPU build), and `Add`. -/
def memInit (o : ManagedMemory) (rep : Report) (category : String) (nElements : ℕ)
    (onGpu : Bool) : Option (ManagedMemory × Report) :=
  if category = o.category ∧ nElements = o.nElements ∧ onGpu = o.onGpu then some (o, rep)
  else do
    let (_, rep) ← o.memFree rep
    if onGpu then none
    else (rep.add category nElements).map fun rep => (⟨category, nElements, onGpu⟩, rep)

end ManagedMemory

/-! ## The heap -/

/-- The objects alive, in order of construction, and the report. -/
structure Heap where
  objects : List ManagedMemory
  report : Report

/-- The operations on the heap: construct an object, destroy one (`~ManagedMemory` calls
`memFree`), and the three member functions that allocate, free and move. -/
inductive Op where
  | construct
  | destroy (i : ℕ)
  | memInit (i : ℕ) (category : String) (nElements : ℕ) (onGpu : Bool)
  | memFree (i : ℕ)
  | memMove (i j : ℕ)

namespace Heap

/-- The empty heap and the empty report. -/
def empty : Heap := ⟨[], Report.empty⟩

/-- One operation; `memMove(std::move(other))` on object `i` swaps the category, the size, the
place and the pointer of objects `i` and `j`. -/
def step (h : Heap) : Op → Option Heap
  | .construct => some ⟨h.objects ++ [ManagedMemory.empty], h.report⟩
  | .destroy i => do
    let o ← h.objects[i]?
    let (_, report) ← o.memFree h.report
    return ⟨h.objects.eraseIdx i, report⟩
  | .memInit i category nElements onGpu => do
    let o ← h.objects[i]?
    let (o', report) ← o.memInit h.report category nElements onGpu
    return ⟨h.objects.set i o', report⟩
  | .memFree i => do
    let o ← h.objects[i]?
    let (o', report) ← o.memFree h.report
    return ⟨h.objects.set i o', report⟩
  | .memMove i j => do
    let a ← h.objects[i]?
    let b ← h.objects[j]?
    return ⟨(h.objects.set i b).set j a, h.report⟩

/-- A sequence of operations. -/
def run (h : Heap) : List Op → Option Heap
  | [] => some h
  | op :: ops => (h.step op).bind fun h' => h'.run ops

/-- The states after each operation of a run. -/
def trace (h : Heap) : List Op → Option (List Heap)
  | [] => some []
  | op :: ops => (h.step op).bind fun h' => (h'.trace ops).map (h' :: ·)

end Heap

/-! ## Accounting -/

namespace ManagedMemory

/-- The elements of category `k` the object holds. -/
def share (o : ManagedMemory) (k : String) : ℕ := if k = o.category then o.nElements else 0

@[simp] theorem share_empty (k : String) : empty.share k = 0 := by
  simp [share, empty]

theorem share_le (o : ManagedMemory) (k : String) : o.share k ≤ o.nElements := by
  unfold share
  split_ifs <;> omega

end ManagedMemory

open ManagedMemory

/-- The elements of category `k` that the objects hold. -/
def live (objects : List ManagedMemory) (k : String) : ℕ := (objects.map (·.share k)).sum

/-- The elements that the objects hold. -/
def liveTotal (objects : List ManagedMemory) : ℕ := (objects.map (·.nElements)).sum

section Sums

variable {β : Type} (f : β → ℕ)

theorem sum_map_set : ∀ (l : List β) (i : ℕ) (hi : i < l.length) (x : β),
    ((l.set i x).map f).sum + f l[i] = (l.map f).sum + f x
  | _ :: _, 0, _, _ => by
    simp only [List.set_cons_zero, List.map_cons, List.sum_cons, List.getElem_cons_zero]
    omega
  | a :: l, i + 1, hi, x => by
    have := sum_map_set l i (by simpa using hi) x
    simp only [List.set_cons_succ, List.map_cons, List.sum_cons, List.getElem_cons_succ]
    omega

theorem sum_map_eraseIdx : ∀ (l : List β) (i : ℕ) (hi : i < l.length),
    ((l.eraseIdx i).map f).sum + f l[i] = (l.map f).sum
  | _ :: _, 0, _ => by
    simp only [List.eraseIdx_cons_zero, List.getElem_cons_zero, List.map_cons, List.sum_cons]
    omega
  | a :: l, i + 1, hi => by
    have := sum_map_eraseIdx l i (by simpa using hi)
    simp only [List.eraseIdx_cons_succ, List.map_cons, List.sum_cons, List.getElem_cons_succ]
    omega

end Sums

/-- The report accounts for the objects: the current usage of each category and the total are
what the live objects hold, and no current usage exceeds its peak. -/
structure Accounted (h : Heap) : Prop where
  current_eq : ∀ k, (h.report.usageMap k).current = live h.objects k
  total_eq : h.report.usageTotal.current = liveTotal h.objects
  le_peak : ∀ k, (h.report.usageMap k).current ≤ (h.report.usageMap k).peak
  total_le_peak : h.report.usageTotal.current ≤ h.report.usageTotal.peak

theorem accounted_empty : Accounted Heap.empty :=
  ⟨fun _ => rfl, rfl, fun _ => le_refl _, le_refl _⟩

/-- The report follows one object from `o` to `o'`: the share of `o` leaves each category and
the total, the share of `o'` enters, and each peak becomes the larger of the old peak and the
new current usage. -/
structure Follows (rep rep' : Report) (o o' : ManagedMemory) : Prop where
  current : ∀ k, (rep'.usageMap k).current + o.share k = (rep.usageMap k).current + o'.share k
  total : rep'.usageTotal.current + o.nElements = rep.usageTotal.current + o'.nElements
  peak : ∀ k, (rep'.usageMap k).peak = max (rep.usageMap k).peak (rep'.usageMap k).current
  total_peak : rep'.usageTotal.peak = max rep.usageTotal.peak rep'.usageTotal.current

/-- What the report must hold of an object before a `Remove` of it: its elements are counted in
its category and in the total, and no current usage exceeds its peak. -/
structure Covers (rep : Report) (o : ManagedMemory) : Prop where
  share_le : o.nElements ≤ (rep.usageMap o.category).current
  total_le : o.nElements ≤ rep.usageTotal.current
  le_peak : ∀ k, (rep.usageMap k).current ≤ (rep.usageMap k).peak
  total_le_peak : rep.usageTotal.current ≤ rep.usageTotal.peak

namespace Report

variable {rep rep' : Report} {category : String} {nElements : ℕ}

theorem add_eq_some (add : rep.add category nElements = some rep') :
    (∀ k, rep'.usageMap k =
      if k = category then (rep.usageMap category).add nElements else rep.usageMap k) ∧
    rep'.usageTotal = rep.usageTotal.add nElements := by
  unfold Report.add at add
  split_ifs at add
  cases add
  exact ⟨fun k => Function.update_apply _ _ _ _, rfl⟩

theorem remove_eq_some (remove : rep.remove category nElements = some rep') :
    (∀ k, rep'.usageMap k =
      if k = category then (rep.usageMap category).sub nElements else rep.usageMap k) ∧
    rep'.usageTotal = rep.usageTotal.sub nElements := by
  unfold Report.remove at remove
  split_ifs at remove
  cases remove
  exact ⟨fun k => Function.update_apply _ _ _ _, rfl⟩

end Report

theorem Follows.refl {rep : Report} {o : ManagedMemory}
    (le_peak : ∀ k, (rep.usageMap k).current ≤ (rep.usageMap k).peak)
    (total_le_peak : rep.usageTotal.current ≤ rep.usageTotal.peak) : Follows rep rep o o :=
  ⟨fun _ => rfl, rfl, fun k => (max_eq_left (le_peak k)).symm, (max_eq_left total_le_peak).symm⟩

namespace ManagedMemory

variable {o o' : ManagedMemory} {rep rep' : Report}

theorem share_self (o : ManagedMemory) : o.share o.category = o.nElements := if_pos rfl

theorem share_of_ne {o : ManagedMemory} {k : String} (ne : k ≠ o.category) : o.share k = 0 :=
  if_neg ne

theorem share_eq_zero {o : ManagedMemory} (empty : o.nElements = 0) (k : String) :
    o.share k = 0 :=
  Nat.le_zero.1 (empty ▸ o.share_le k)

/-- `memFree` leaves the object without elements, on the same device, and the report follows
it. -/
theorem memFree_spec (covers : Covers rep o) (free : o.memFree rep = some (o', rep')) :
    o'.nElements = 0 ∧ o'.onGpu = o.onGpu ∧ Follows rep rep' o o' := by
  unfold memFree at free
  split_ifs at free with empty gpu
  · cases free
    exact ⟨empty, rfl, Follows.refl covers.le_peak covers.total_le_peak⟩
  obtain ⟨rep₁, removed, same⟩ := Option.map_eq_some'.1 free
  cases same
  obtain ⟨entries, total⟩ := Report.remove_eq_some removed
  have zero := @share_eq_zero { o with category := "", nElements := 0 } rfl
  refine ⟨rfl, rfl, ⟨fun k => ?_, ?_, fun k => ?_, ?_⟩⟩
  · rw [entries, zero]
    by_cases mine : k = o.category
    · subst mine
      rw [if_pos rfl, Usage.sub_current, share_self]
      have := covers.share_le
      omega
    · rw [if_neg mine, share_of_ne mine]
  · rw [total, Usage.sub_current]
    have := covers.total_le
    dsimp only
    omega
  · rw [entries]
    have := covers.le_peak k
    split_ifs with mine
    · subst mine
      rw [Usage.sub_peak, Usage.sub_current]
      omega
    · omega
  · rw [total, Usage.sub_peak, Usage.sub_current]
    have := covers.total_le_peak
    omega

/-- `memInit` leaves the object in the requested state, and the report follows it. -/
theorem memInit_spec {category : String} {nElements : ℕ} {onGpu : Bool} (covers : Covers rep o)
    (init : o.memInit rep category nElements onGpu = some (o', rep')) :
    o' = ⟨category, nElements, onGpu⟩ ∧ Follows rep rep' o o' := by
  unfold memInit at init
  split_ifs at init with same gpu
  · cases init
    obtain ⟨rfl, rfl, rfl⟩ := same
    exact ⟨rfl, Follows.refl covers.le_peak covers.total_le_peak⟩
  · simp at init
  obtain ⟨⟨o₁, rep₁⟩, free, added⟩ := Option.bind_eq_some.1 init
  obtain ⟨empty, -, freed⟩ := memFree_spec covers free
  obtain ⟨rep₂, add, same⟩ := Option.map_eq_some'.1 added
  cases same
  obtain ⟨entries, total⟩ := Report.add_eq_some add
  have zero := share_eq_zero empty
  refine ⟨rfl, ⟨fun k => ?_, ?_, fun k => ?_, ?_⟩⟩
  · have := freed.current k
    rw [zero] at this
    rw [entries]
    split_ifs with mine
    · subst mine
      rw [Usage.add_current, share_self]
      dsimp only
      omega
    · rw [@share_of_ne ⟨category, nElements, onGpu⟩ k mine]
      omega
  · have := freed.total
    rw [empty] at this
    rw [total, Usage.add_current]
    dsimp only
    omega
  · have := freed.current k
    have := freed.peak k
    have := covers.le_peak k
    rw [zero] at *
    rw [entries]
    split_ifs with mine
    · subst mine
      rw [Usage.add_peak, Usage.add_current]
      omega
    · omega
  · have := freed.total
    have := freed.total_peak
    have := covers.total_le_peak
    rw [empty] at *
    rw [total, Usage.add_peak, Usage.add_current]
    omega

end ManagedMemory

/-! ## Runs -/

/-- Each peak of `rep'` is the larger of the peak of `rep` and the current usage of `rep'`. -/
def PeaksAt (rep rep' : Report) : Prop :=
  (∀ k, (rep'.usageMap k).peak = max (rep.usageMap k).peak (rep'.usageMap k).current) ∧
    rep'.usageTotal.peak = max rep.usageTotal.peak rep'.usageTotal.current

namespace Accounted

variable {h : Heap}

/-- Every live object is counted in its category and in the total. -/
theorem covers (acc : Accounted h) {o : ManagedMemory} (mem : o ∈ h.objects) :
    Covers h.report o := by
  refine ⟨?_, ?_, acc.le_peak, acc.total_le_peak⟩
  · rw [acc.current_eq, live, ← share_self o]
    exact List.le_sum_of_mem (List.mem_map_of_mem (fun x : ManagedMemory => x.share o.category) mem)
  · rw [acc.total_eq, liveTotal]
    exact List.le_sum_of_mem (List.mem_map_of_mem ManagedMemory.nElements mem)

theorem peaksAt (acc : Accounted h) : PeaksAt h.report h.report :=
  ⟨fun k => (max_eq_left (acc.le_peak k)).symm, (max_eq_left acc.total_le_peak).symm⟩

/-- Replacing object `i` by `o'` keeps the accounting when the report follows it. -/
theorem set (acc : Accounted h) {i : ℕ} (hi : i < h.objects.length) {o' : ManagedMemory}
    {rep' : Report} (follows : Follows h.report rep' h.objects[i] o') :
    Accounted ⟨h.objects.set i o', rep'⟩ := by
  refine ⟨fun k => ?_, ?_, fun k => ?_, ?_⟩
  · have := sum_map_set (·.share k) h.objects i hi o'
    have := follows.current k
    have := acc.current_eq k
    simp only [live] at *
    omega
  · have := sum_map_set (·.nElements) h.objects i hi o'
    have := follows.total
    have := acc.total_eq
    simp only [liveTotal] at *
    omega
  · exact (follows.peak k).symm ▸ le_max_right _ _
  · exact follows.total_peak.symm ▸ le_max_right _ _

/-- Removing object `i`, once the report has followed it to an empty object, keeps the
accounting. -/
theorem eraseIdx (acc : Accounted h) {i : ℕ} (hi : i < h.objects.length) {o' : ManagedMemory}
    (empty : o'.nElements = 0) {rep' : Report} (follows : Follows h.report rep' h.objects[i] o') :
    Accounted ⟨h.objects.eraseIdx i, rep'⟩ := by
  refine ⟨fun k => ?_, ?_, fun k => ?_, ?_⟩
  · have := sum_map_eraseIdx (·.share k) h.objects i hi
    have := follows.current k
    have := acc.current_eq k
    rw [share_eq_zero empty] at *
    simp only [live] at *
    omega
  · have := sum_map_eraseIdx (·.nElements) h.objects i hi
    have := follows.total
    have := acc.total_eq
    simp only [liveTotal, empty] at *
    omega
  · exact (follows.peak k).symm ▸ le_max_right _ _
  · exact follows.total_peak.symm ▸ le_max_right _ _

end Accounted

/-- Swapping two entries of a list keeps the sum of `f` over it. -/
theorem sum_map_swap {β : Type} (f : β → ℕ) (l : List β) {i j : ℕ} (hi : i < l.length)
    (hj : j < l.length) : (((l.set i l[j]).set j l[i]).map f).sum = (l.map f).sum := by
  have first := sum_map_set f l i hi l[j]
  have hj' : j < (l.set i l[j]).length := by simpa using hj
  have second := sum_map_set f (l.set i l[j]) j hj' l[i]
  have moved : (l.set i l[j])[j] = l[j] := by
    rw [List.getElem_set]
    split_ifs with same
    · subst same; rfl
    · rfl
  rw [moved] at second
  omega

namespace Heap

variable {h h' : Heap}

/-- One operation keeps the accounting, and each peak becomes the larger of the old peak and the
new current usage. -/
theorem step_accounted (acc : Accounted h) {op : Op} (step : h.step op = some h') :
    Accounted h' ∧ PeaksAt h.report h'.report := by
  cases op with
  | construct =>
    cases step
    refine ⟨⟨fun k => ?_, ?_, acc.le_peak, acc.total_le_peak⟩, acc.peaksAt⟩
    · simp [live, acc.current_eq k]
    · simp [liveTotal, acc.total_eq, ManagedMemory.empty]
  | destroy i =>
    obtain ⟨o, found, freed⟩ := Option.bind_eq_some.1 step
    obtain ⟨⟨o', rep'⟩, free, same⟩ := Option.bind_eq_some.1 freed
    cases same
    obtain ⟨hi, rfl⟩ := List.getElem?_eq_some_iff.1 found
    obtain ⟨empty, -, follows⟩ := memFree_spec (acc.covers (List.getElem_mem hi)) free
    exact ⟨acc.eraseIdx hi empty follows, follows.peak, follows.total_peak⟩
  | memInit i category nElements onGpu =>
    obtain ⟨o, found, inited⟩ := Option.bind_eq_some.1 step
    obtain ⟨⟨o', rep'⟩, init, same⟩ := Option.bind_eq_some.1 inited
    cases same
    obtain ⟨hi, rfl⟩ := List.getElem?_eq_some_iff.1 found
    obtain ⟨-, follows⟩ := memInit_spec (acc.covers (List.getElem_mem hi)) init
    exact ⟨acc.set hi follows, follows.peak, follows.total_peak⟩
  | memFree i =>
    obtain ⟨o, found, freed⟩ := Option.bind_eq_some.1 step
    obtain ⟨⟨o', rep'⟩, free, same⟩ := Option.bind_eq_some.1 freed
    cases same
    obtain ⟨hi, rfl⟩ := List.getElem?_eq_some_iff.1 found
    obtain ⟨-, -, follows⟩ := memFree_spec (acc.covers (List.getElem_mem hi)) free
    exact ⟨acc.set hi follows, follows.peak, follows.total_peak⟩
  | memMove i j =>
    obtain ⟨a, foundA, moved⟩ := Option.bind_eq_some.1 step
    obtain ⟨b, foundB, same⟩ := Option.bind_eq_some.1 moved
    cases same
    obtain ⟨hi, rfl⟩ := List.getElem?_eq_some_iff.1 foundA
    obtain ⟨hj, rfl⟩ := List.getElem?_eq_some_iff.1 foundB
    refine ⟨⟨fun k => ?_, ?_, acc.le_peak, acc.total_le_peak⟩, acc.peaksAt⟩
    · rw [acc.current_eq, live, live, sum_map_swap _ _ hi hj]
    · rw [acc.total_eq, liveTotal, liveTotal, sum_map_swap _ _ hi hj]

theorem run_accounted (acc : Accounted h) {ops : List Op} (run : h.run ops = some h') :
    Accounted h' := by
  induction ops generalizing h with
  | nil => cases run; exact acc
  | cons op ops ih =>
    obtain ⟨h₁, step, rest⟩ := Option.bind_eq_some.1 run
    exact ih (step_accounted acc step).1 rest

end Heap

/-- After every run from the empty heap that no `myassert` stops, the current usage of each
category is what the live objects of that category hold, the current total is what all live
objects hold, and no current usage exceeds its peak. -/
theorem accounted_run {ops : List Op} {h : Heap} (run : Heap.empty.run ops = some h) :
    Accounted h :=
  Heap.run_accounted accounted_empty run

/-- A `matrix` of `9` elements and a `ColumnBundle` of `40` swap places, the bundle is
reallocated with `12` elements, and the matrix is destroyed. -/
theorem accounted_run_swap :
    let ops := [Op.construct, .memInit 0 "matrix" 9 false, .construct,
      .memInit 1 "ColumnBundle" 40 false, .memMove 0 1, .memInit 0 "ColumnBundle" 12 false,
      .destroy 1]
    ∃ h, Heap.empty.run ops = some h ∧ Accounted h := by
  intro ops
  exact ⟨_, rfl, @accounted_run ops _ rfl⟩

/-- After every run from the empty heap, each live object holds at most the current usage of its
category and of the total: the `Remove` of its `memFree` never makes the `size_t` subtraction
wrap. -/
theorem remove_le_current {ops : List Op} {h : Heap} (run : Heap.empty.run ops = some h)
    {o : ManagedMemory} (mem : o ∈ h.objects) :
    o.nElements ≤ (h.report.usageMap o.category).current ∧
      o.nElements ≤ h.report.usageTotal.current :=
  let covers := (Heap.run_accounted accounted_empty run).covers mem
  ⟨covers.share_le, covers.total_le⟩

/-- The `ColumnBundle` left by the run of `accounted_run_swap`. -/
theorem remove_le_current_swap :
    let ops := [Op.construct, .memInit 0 "matrix" 9 false, .construct,
      .memInit 1 "ColumnBundle" 40 false, .memMove 0 1, .memInit 0 "ColumnBundle" 12 false,
      .destroy 1]
    ∃ h, Heap.empty.run ops = some h ∧ ⟨"ColumnBundle", 12, false⟩ ∈ h.objects ∧
      12 ≤ (h.report.usageMap "ColumnBundle").current ∧ 12 ≤ h.report.usageTotal.current := by
  intro ops
  exact ⟨_, rfl, by decide, @remove_le_current ops _ rfl ⟨"ColumnBundle", 12, false⟩ (by decide)⟩

/-- Along a run from the empty heap, the peak of each category, and of the total, is the
largest current usage among the states the run went through. -/
theorem peak_trace {ops : List Op} {hs : List Heap} (trace : Heap.empty.trace ops = some hs) :
    (∀ k, ((hs.getLastD Heap.empty).report.usageMap k).peak =
      (hs.map fun s => (s.report.usageMap k).current).foldl max 0) ∧
    (hs.getLastD Heap.empty).report.usageTotal.peak =
      (hs.map fun s => s.report.usageTotal.current).foldl max 0 := by
  suffices general : ∀ (h : Heap), Accounted h → ∀ ops hs, h.trace ops = some hs →
      (∀ k, ((hs.getLastD h).report.usageMap k).peak =
        (hs.map fun s => (s.report.usageMap k).current).foldl max (h.report.usageMap k).peak) ∧
      (hs.getLastD h).report.usageTotal.peak =
        (hs.map fun s => s.report.usageTotal.current).foldl max h.report.usageTotal.peak from
    general _ accounted_empty ops hs trace
  intro h acc ops
  induction ops generalizing h with
  | nil =>
    intro hs trace
    cases trace
    exact ⟨fun _ => rfl, rfl⟩
  | cons op ops ih =>
    intro hs trace
    obtain ⟨h₁, step, rest⟩ := Option.bind_eq_some.1 trace
    obtain ⟨hs₁, trace₁, rfl⟩ := Option.map_eq_some'.1 rest
    obtain ⟨acc₁, peaks, total⟩ := Heap.step_accounted acc step
    obtain ⟨later, laterTotal⟩ := ih h₁ acc₁ hs₁ trace₁
    refine ⟨fun k => ?_, ?_⟩
    · rw [List.getLastD_cons, later k, peaks k]
      rfl
    · rw [List.getLastD_cons, laterTotal, total]
      rfl

/-- The run of `accounted_run_swap`, in the category `ColumnBundle`. -/
theorem peak_trace_swap :
    let ops := [Op.construct, .memInit 0 "matrix" 9 false, .construct,
      .memInit 1 "ColumnBundle" 40 false, .memMove 0 1, .memInit 0 "ColumnBundle" 12 false,
      .destroy 1]
    ∃ hs, Heap.empty.trace ops = some hs ∧
      ((hs.getLastD Heap.empty).report.usageMap "ColumnBundle").peak =
        (hs.map fun s => (s.report.usageMap "ColumnBundle").current).foldl max 0 ∧
      (hs.getLastD Heap.empty).report.usageTotal.peak =
        (hs.map fun s => s.report.usageTotal.current).foldl max 0 := by
  intro ops
  obtain ⟨category, total⟩ := @peak_trace ops _ rfl
  exact ⟨_, rfl, category "ColumnBundle", total⟩

end Jdftx
