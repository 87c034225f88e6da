/-
# Core.CellMap.SurfaceLoop — the multiplicity loop of getCellMap, iterator by iterator

`weighSurface` (Core.CellMap) reads the multiplicity loop of `getCellMap` as a recursion over
lists. The source runs it on the `std::list` iCellSurface with two iterators, erasing while it
iterates: for each `iter`, `iter2` starts at the next cell; a cell whose difference to `*iter`
rounds with `err < symmThreshold` is pushed to `equiv` and erased (`iter2` moves to the cell
after it), any other cell is stepped over; then `*iter` and the cells of `equiv` get the weight
`1/(1+equiv.size())`, and `iter` steps to the next cell of the list as it now is. This module
models both iterators as positions in the current list: `innerLoop` is the `while` loop and
`outerLoop` the `for` loop, which also records the cells `*iter` takes.

* `innerLoop_eq`: the inner loop keeps every cell before `iter2`, the cell `*iter` among them,
  and moves exactly the later cells related to `*iter`, in order, to `equiv`.
* `outerLoop_eq`: the iterator loop computes `weighSurface`, and `*iter` takes the cells that
  `representatives` lists.
* `filter_representatives`: for an equivalence, `*iter` takes one cell of each class, the first
  one listed.
* `surfaceLoop_spec`: for the rounding test of the code below `1/|det S|`, on any list of
  surface cells.
-/
import Jdftx.Core.CellMap

namespace Jdftx

set_option autoImplicit false

section Inner

variable {β : Type} (test : β → β → Bool) (cur : β)

/-- The `while` loop, `iter2` at position `q` of the current list: a cell that `test` relates to
`cur = *iter` is pushed to `equiv` and erased, after which `iter2` points at the cell that
followed it; any other cell is stepped over. -/
def innerLoop (cells : List β) (q : ℕ) (equiv : List β) : List β × List β :=
  if h : q < cells.length then
    if test cur cells[q] then innerLoop (cells.eraseIdx q) q (equiv ++ [cells[q]])
    else innerLoop cells (q + 1) equiv
  else (cells, equiv)
termination_by cells.length - q
decreasing_by
  all_goals simp_wf
  · rw [List.length_eraseIdx, if_pos h]
    omega
  · omega

/-- The inner loop keeps the cells before `iter2` and moves the later cells related to `cur`, in
order, to `equiv`. -/
theorem innerLoop_eq (cells : List β) (q : ℕ) (equiv : List β) :
    innerLoop test cur cells q equiv =
      (cells.take q ++ (cells.drop q).filter (fun c => !test cur c),
        equiv ++ (cells.drop q).filter (test cur)) := by
  induction cells, q, equiv using innerLoop.induct test cur with
  | case1 cells q equiv h related ih =>
    have prefix_length : (cells.take q).length = q := List.length_take_of_le h.le
    rw [innerLoop, dif_pos h, if_pos related, ih, List.eraseIdx_eq_take_drop_succ,
      List.take_left' prefix_length, List.drop_left' prefix_length, List.drop_eq_getElem_cons h]
    simp only [List.filter_cons, related, Bool.not_true, Bool.false_eq_true, if_true, if_false,
      List.append_assoc, List.singleton_append]
  | case2 cells q equiv h unrelated ih =>
    rw [innerLoop, dif_pos h, if_neg unrelated, ih, List.drop_eq_getElem_cons h,
      ← List.take_concat_get _ _ h]
    simp only [List.filter_cons, unrelated, Bool.not_false, Bool.false_eq_true, if_true, if_false,
      List.concat_eq_append, List.append_assoc, List.singleton_append]
  | case3 cells q equiv h =>
    rw [innerLoop, dif_neg h, List.take_of_length_le (by omega), List.drop_eq_nil_of_le (by omega)]
    simp

theorem length_innerLoop_le (cells : List β) (q : ℕ) (equiv : List β) :
    (innerLoop test cur cells q equiv).1.length ≤ cells.length := by
  rw [innerLoop_eq, List.length_append, List.length_take]
  have := List.length_filter_le (fun c => !test cur c) (cells.drop q)
  rw [List.length_drop] at this
  omega

/-- The inner loop never erases a cell before `iter2`. -/
theorem take_innerLoop (cells : List β) (q : ℕ) (equiv : List β) :
    (innerLoop test cur cells q equiv).1.take q = cells.take q := by
  rw [innerLoop_eq, List.take_append_eq_append_take, List.take_take, min_self]
  rcases le_or_lt q cells.length with inside | past
  · simp [List.length_take_of_le inside]
  · simp [List.drop_eq_nil_of_le past.le]

/-- The cells the outer iterator takes, read as a recursion over lists: the first cell, then
those it takes of the cells the first one leaves. -/
def representatives : List β → List β
  | [] => []
  | c :: rest => c :: representatives (rest.filter fun c2 => !test c c2)
termination_by cells => cells.length
decreasing_by exact Nat.lt_succ_of_le (List.length_filter_le _ _)

theorem representatives_sublist (cells : List β) : (representatives test cells).Sublist cells := by
  induction cells using representatives.induct test with
  | case1 => simp [representatives]
  | case2 c rest ih =>
    rw [representatives]
    exact (ih.trans (List.filter_sublist _)).cons₂ c

/-- For an equivalence, the outer iterator takes exactly one cell of the class of each cell, the
first one listed. -/
theorem filter_representatives (cells : List β) (equivOn : EquivOn test cells) {k : β}
    (mem : k ∈ cells) :
    (representatives test cells).filter (test k) = (cells.filter (test k)).take 1 := by
  induction cells using representatives.induct test with
  | case1 => cases mem
  | case2 c rest ih =>
    have head : c ∈ c :: rest := List.mem_cons_self _ _
    rw [representatives, List.filter_cons, List.filter_cons]
    by_cases kc : test k c
    · -- the class of `k` is taken at `c`; the cells taken later are unrelated to `c`, so to `k`
      have later :
          (representatives test (rest.filter fun c2 => !test c c2)).filter (test k) = [] := by
        refine List.filter_eq_nil_iff.2 fun x taken kx => ?_
        obtain ⟨inRest, cx⟩ := List.mem_filter.1 ((representatives_sublist test _).subset taken)
        have := equivOn.trans c head k mem x (List.mem_cons_of_mem _ inRest)
          (equivOn.symm k mem c head kc) kx
        simp [this] at cx
      rw [if_pos kc, if_pos kc, later]
      rfl
    · -- `k` is left for later, and so is every cell related to it
      have inRest : k ∈ rest := (List.mem_cons.1 mem).resolve_left fun same => by
        subst same; exact kc (equivOn.refl k mem)
      have ck : test c k = false := by
        by_contra ck
        exact kc (equivOn.symm c head k mem (by simpa using ck))
      have restOn : EquivOn test (rest.filter fun c2 => !test c c2) :=
        equivOn.mono fun x hx => List.mem_cons_of_mem _ (List.mem_of_mem_filter hx)
      rw [if_neg kc, if_neg kc, ih restOn (List.mem_filter.2 ⟨inRest, by simp [ck]⟩),
        List.filter_filter]
      congr 1
      refine List.filter_congr fun x hx => ?_
      by_cases kx : test k x
      · have cx : test c x = false := by
          by_contra cx
          exact kc (equivOn.trans k mem x (List.mem_cons_of_mem _ hx) c head kx
            (equivOn.symm c head x (List.mem_cons_of_mem _ hx) (by simpa using cx)))
        simp [kx, cx]
      · simp [kx]

end Inner

variable {α : Type} [LinearOrderedField α] (test : (Fin 3 → ℤ) → (Fin 3 → ℤ) → Bool)

/-- The `for` loop, `iter` at position `p`: run the inner loop from the next cell, give `*iter`
and the cells moved to `equiv` the weight `1/(1+equiv.size())`, and step `iter`. Besides the map
it returns `visited` followed by the cells `*iter` took. -/
def outerLoop (cells : List (Fin 3 → ℤ)) (p : ℕ) (iCellMap : CellMap α)
    (visited : List (Fin 3 → ℤ)) : CellMap α × List (Fin 3 → ℤ) :=
  if h : p < cells.length then
    let inner := innerLoop test cells[p] cells (p + 1) []
    let weight : α := 1 / (1 + inner.2.length)
    outerLoop inner.1 (p + 1)
      (inner.2.foldl (fun m c => m.insert c weight) (iCellMap.insert cells[p] weight))
      (visited ++ [cells[p]])
  else (iCellMap, visited)
termination_by cells.length - p
decreasing_by
  simp_wf
  have := length_innerLoop_le test cells[p] cells (p + 1) []
  omega

/-- The iterator loop computes `weighSurface`: once `iter` has passed the cells `done`, the run
goes on as `weighSurface` of the cells after them, and `*iter` takes their `representatives`. -/
theorem outerLoop_eq (rest : List (Fin 3 → ℤ)) (iCellMap : CellMap α)
    (done visited : List (Fin 3 → ℤ)) :
    outerLoop test (done ++ rest) done.length iCellMap visited =
      (weighSurface test rest iCellMap, visited ++ representatives test rest) := by
  induction rest, iCellMap using @weighSurface.induct α _ test generalizing done visited with
  | case1 iCellMap =>
    rw [List.append_nil, outerLoop, dif_neg (lt_irrefl _)]
    simp [weighSurface, representatives]
  | case2 c rest iCellMap equivCells weight ih =>
    have bound : done.length < (done ++ c :: rest).length := by simp
    have cur : (done ++ c :: rest)[done.length] = c := by
      rw [List.getElem_append_right (le_refl _)]
      simp
    have inner : innerLoop test c (done ++ c :: rest) (done.length + 1) [] =
        ((done ++ [c]) ++ rest.filter fun c2 => !test c c2, rest.filter (test c)) := by
      rw [innerLoop_eq]
      simp [List.take_append_eq_append_take]
    have step := ih (done ++ [c]) (visited ++ [c])
    rw [List.length_append, List.length_singleton] at step
    rw [outerLoop, dif_pos bound]
    simp only [cur, inner, List.nil_append]
    rw [step, weighSurface, representatives, List.append_assoc, List.singleton_append]

/-- The multiplicity loop of `getCellMap` on any list of surface cells, with the rounding test of
the code (`err < symmThreshold` for the supercell coordinates `S⁻¹·(b - a)`), which below
`1/|det S|` is equality modulo `S·ℤ³`: the inner loop never erases a cell before `iter2`, the
cell `*iter` among them; `*iter` takes cells of the list, in order, one of each class, the first
one listed; and every cell of the list ends up with the weight one over the number of cells of
its class in the list, while every other key keeps the value it had. -/
theorem surfaceLoop_spec {roundErr : Vector3 α → α} {symmThreshold : α} {S : Matrix3 ℤ}
    (rounding : RoundErrSpec roundErr) (positive : 0 < symmThreshold)
    (fine : symmThreshold < 1 / |(S.det : α)|) (nonsingular : S.det ≠ 0)
    (cells : List (Fin 3 → ℤ)) (iCellMap : CellMap α) :
    let test := surfaceEquiv roundErr symmThreshold (Matrix3.inv (Matrix3.cast S))
    let run := outerLoop test cells 0 iCellMap []
    (∀ cur cs q equiv, (innerLoop test cur cs q equiv).1.take q = cs.take q) ∧
    run.2.Sublist cells ∧
    (∀ c ∈ cells, run.2.filter (fun c2 => decide (SameCell S c c2)) =
      (cells.filter fun c2 => decide (SameCell S c c2)).take 1) ∧
    ∀ k, run.1.lookup k =
      if k ∈ cells then some (1 / ((cells.filter fun c2 => decide (SameCell S k c2)).length : α))
      else iCellMap.lookup k := by
  intro test run
  have same : ∀ a, test a = fun b => decide (SameCell S a b) := fun a => funext fun b =>
    Bool.eq_iff_iff.2 ((surfaceEquiv_iff rounding positive fine nonsingular a b).trans
      decide_eq_true_iff.symm)
  have equivOn : EquivOn test cells := by
    refine ⟨fun a _ => ?_, fun a _ b _ ab => ?_, fun a _ b _ c _ ab bc => ?_⟩ <;>
      simp only [same, decide_eq_true_iff] at *
    exacts [SameCell.refl a, ab.symm, ab.trans bc]
  have loop : run = (weighSurface test cells iCellMap, representatives test cells) :=
    outerLoop_eq test cells iCellMap [] []
  refine ⟨fun cur cs q equiv => take_innerLoop test cur cs q equiv,
    loop ▸ representatives_sublist test cells, fun c mem => ?_, fun k => ?_⟩
  · rw [loop, ← same]
    exact filter_representatives test cells equivOn mem
  · rw [loop, lookup_weighSurface test cells iCellMap equivOn, same]

/-- Three cells of the doubled cubic cell, `0` and `2·e₀` one class modulo `S·ℤ³`. -/
theorem surfaceLoop_spec_doubled :
    let S : Matrix3 ℤ := !![2, 0, 0; 0, 1, 0; 0, 0, 1]
    let roundErr : Vector3 ℝ → ℝ := fun v => ∑ k, |v k - round (v k)|
    let cells : List (Fin 3 → ℤ) := [![0, 0, 0], ![1, 0, 0], ![2, 0, 0]]
    let test := surfaceEquiv roundErr (1 / 10000) (Matrix3.inv (Matrix3.cast S))
    let run := outerLoop test cells 0 (∅ : CellMap ℝ) []
    (RoundErrSpec roundErr ∧ (0 : ℝ) < 1 / 10000 ∧ (1 / 10000 : ℝ) < 1 / |(S.det : ℝ)| ∧
      S.det ≠ 0) ∧
    (∀ cur cs q equiv, (innerLoop test cur cs q equiv).1.take q = cs.take q) ∧
    run.2.Sublist cells ∧
    (∀ c ∈ cells, run.2.filter (fun c2 => decide (SameCell S c c2)) =
      (cells.filter fun c2 => decide (SameCell S c c2)).take 1) ∧
    ∀ k, run.1.lookup k =
      if k ∈ cells then some (1 / ((cells.filter fun c2 => decide (SameCell S k c2)).length : ℝ))
      else (∅ : CellMap ℝ).lookup k := by
  intro S roundErr cells test run
  have det : S.det = 2 := by simp [S, Matrix.det_fin_three]
  have fine : (1 / 10000 : ℝ) < 1 / |(S.det : ℝ)| := by rw [det]; norm_num
  exact ⟨⟨roundErrSpec_sum, by norm_num, fine, by rw [det]; norm_num⟩,
    surfaceLoop_spec roundErrSpec_sum (by norm_num) fine (by rw [det]; norm_num) cells ∅⟩

end Jdftx
