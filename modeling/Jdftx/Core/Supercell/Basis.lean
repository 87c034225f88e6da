/-
# Core.Supercell.Basis — the supercell matrix of the `Supercell` constructor

After the mesh closure, the constructor adds to `kmesh` its periodic images in the 26
neighbouring zones (`kmesh333`) and runs three search loops over the differences
`dk = kmesh333[i] - kmesh333.front()`: `v[0]` is the first shortest one, `v[1]` the first
shortest one whose cross product with `v[0]` is longer than `symmThreshold·|v[0]|`, `v[2]` the
first shortest one whose box product with `v[0], v[1]` exceeds `symmThreshold·|v[0]×v[1]|`.
The columns `v[k]` form `kBasis`, which is reduced; the constructor dies unless every mesh point
is integral in that basis and `|det(kBasis⁻¹)|` is the number of points, and unless
`inv(R)·reduceLatticeVectors(R·kBasis⁻ᵀ)` is an integer matrix `super`. The columns of `super`
are then pivoted towards the identity and its sign fixed.

`cross`, `box` and `vector3<>::length()` are not in the sources: `×₃`, the triple product
`a·(b×c)` (the source takes its absolute value, the same for every order of the factors) and a
parameter `sqrt`.

* `foldl_pickStep`: a search loop keeps the first shortest difference that passes its test.
* `exists_kmesh333_sub`: for a mesh that is one coset of a group `L ⊇ ℤ³` in the centered zone,
  every nonzero vector of `L` with coordinates in `[-1, 1]` is a difference the loops see.
-/
import Jdftx.Core.Supercell.Lattice
import Jdftx.Core.Supercell.MeshClosure
import Jdftx.Core.ReduceLatticeVectors
import Jdftx.Core.CellMap
import Mathlib.LinearAlgebra.CrossProduct

namespace Jdftx

set_option autoImplicit false

open Matrix

variable {α : Type} [LinearOrderedField α]

/-! ## The model -/

/-- The 26 zones `iZone ≠ 0` around the origin, in the order of the loops over `iZone`. -/
def neighbourZones : List (Fin 3 → ℤ) := (cellBox fun _ => 1).filter (· ≠ 0)

/-- `kmesh333`: the mesh, then its images `k + iZone` in the neighbouring zones. -/
def kmesh333 (kmesh : List (Vector3 α)) : List (Vector3 α) :=
  kmesh ++ neighbourZones.flatMap fun iZone => kmesh.map (· + Vector3.ofInt iZone)

/-- One iteration of a search loop: `dk = k - front` replaces the shortest difference so far
when it passes the test and is shorter (`none` while `minLengthSq` is `DBL_MAX`). -/
def pickStep (test : Vector3 α → Bool) (front : Vector3 α) (best : Option (Vector3 α × α))
    (k : Vector3 α) : Option (Vector3 α × α) :=
  if test (k - front) && best.all fun b => decide ((k - front) ⬝ᵥ (k - front) < b.2) then
    some (k - front, (k - front) ⬝ᵥ (k - front))
  else best

/-- A search loop `for(i=1; i<kmesh333.size(); i++)`; `v[k]` keeps its initial zero when no
difference passes the test. -/
def pickShortest (test : Vector3 α → Bool) : List (Vector3 α) → Vector3 α
  | [] => 0
  | front :: rest => ((rest.foldl (pickStep test front) none).map Prod.fst).getD 0

/-- The test of the second loop: `cross(v[0], dk).length() > symmThreshold * v[0].length()`. -/
def offLine (sqrt : α → α) (symmThreshold : α) (v0 dk : Vector3 α) : Bool :=
  decide (symmThreshold * sqrt (v0 ⬝ᵥ v0) < sqrt ((v0 ×₃ dk) ⬝ᵥ (v0 ×₃ dk)))

/-- The test of the third loop:
`fabs(box(v[0], v[1], dk)) > symmThreshold * cross(v[0], v[1]).length()`. -/
def offPlane (sqrt : α → α) (symmThreshold : α) (v0 v1 dk : Vector3 α) : Bool :=
  decide (symmThreshold * sqrt ((v0 ×₃ v1) ⬝ᵥ (v0 ×₃ v1)) < |v0 ⬝ᵥ (v1 ×₃ dk)|)

/-- The matrix with columns `v0, v1, v2` (`kBasis.set_col(k, v[k])`). -/
def ofColumns (v0 v1 v2 : Vector3 α) : Matrix3 α := Matrix.of fun i k => ![v0, v1, v2] k i

/-- `kBasis` before its reduction: the results of the three search loops as columns. -/
def kBasisOf (sqrt : α → α) (symmThreshold : α) (kmesh : List (Vector3 α)) : Matrix3 α :=
  let v0 := pickShortest (fun _ => true) (kmesh333 kmesh)
  let v1 := pickShortest (offLine sqrt symmThreshold v0) (kmesh333 kmesh)
  ofColumns v0 v1 (pickShortest (offPlane sqrt symmThreshold v0 v1) (kmesh333 kmesh))

/-- `kMeshErrorMsg`. -/
def kMeshErrorMsg : String :=
  "k-point mesh is not a Bravais lattice, which is currently required for\n" ++
  "exact-exchange and density-of-states calculations.\n" ++
  "HINT: This might be caused by an off-Gamma k-point mesh (eg. Monkhorst-Pack)\n" ++
  "   whose symmetries are a subgroup of that of the system. Try switching to\n" ++
  "   Gamma-centered sampling or disabling symmetries.\n"

/-- The message of the third `die()`. -/
def commensurateErrorMsg : String :=
  "k-point mesh does not correspond to a commensurate (integer)\n" ++
  "super-cell. This is currently required for exact-exchange\n" ++
  "and density-of-states calculations.\n"

/-- `permutation[6][3]`: the column orders the pivot tries. -/
def permutations : List (Fin 3 → Fin 3) :=
  [![0, 1, 2], ![1, 2, 0], ![2, 0, 1], ![2, 1, 0], ![1, 0, 2], ![0, 2, 1]]

/-- The score of a column order: `score *= pow(col[k], 2); score /= col.length_squared()` for
`col = super.column(permutation[p][k])`, exactly, in `ℚ`. -/
def pivotScore (super : Matrix3 ℤ) (perm : Fin 3 → Fin 3) : ℚ :=
  (List.finRange 3).foldl (fun score k =>
    score * (super k (perm k) : ℚ) ^ 2 / ∑ i, (super i (perm k) : ℚ) ^ 2) 1

/-- `permutation[pBest]`: the first column order of the highest score (`maxScore` starts at
`0`, `pBest` at `0`). -/
def pivotChoice (super : Matrix3 ℤ) : Fin 3 → Fin 3 :=
  (permutations.foldl (fun (best : ℚ × (Fin 3 → Fin 3)) perm =>
    if best.1 < pivotScore super perm then (pivotScore super perm, perm) else best)
    (0, ![0, 1, 2])).2

/-- `super.set_col(k, superOrig.column(permutation[pBest][k]))`. -/
def pivotColumns (super : Matrix3 ℤ) : Matrix3 ℤ := Matrix.of fun i k => super i (pivotChoice super k)

section Constructor

variable [FloorRing α]

/-- `round` of `<cmath>`: to the nearest integer, halves away from zero. -/
def roundHalfAway (x : α) : ℤ := if x < 0 then -round (-x) else round x

/-- The basis discovery and the supercell matrix, after the mesh closure: `super`, or the
message of the `die()` call the constructor reaches. -/
def supercellMatrix (sqrt : α → α) (roundErr : Vector3 α → α) (symmThreshold : α)
    (R : Matrix3 α) (kmesh : List (Vector3 α)) : Except String (Matrix3 ℤ) :=
  let kBasis := (reduceLatticeVectors symmThreshold (kBasisOf sqrt symmThreshold kmesh)).1
  let kBasisInv := Matrix3.inv kBasis
  if kmesh.any fun kpoint =>
      decide (symmThreshold < roundErr (kBasisInv *ᵥ (kpoint - kmesh.headD 0))) then
    .error kMeshErrorMsg
  else if (kmesh.length : α) * symmThreshold < |(|kBasisInv.det| - kmesh.length)| then
    .error kMeshErrorMsg
  else
    let superTemp := Matrix3.inv R * (reduceLatticeVectors symmThreshold (R * kBasisInvᵀ)).1
    let super : Matrix3 ℤ := Matrix.of fun i j => roundHalfAway (superTemp i j)
    if ∃ i j, symmThreshold < |superTemp i j - super i j| then .error commensurateErrorMsg
    else
      let super := pivotColumns super
      .ok (if super.det < 0 then -super else super)

/-- The members of `Supercell` that the constructor sets. -/
structure Supercell (α : Type) where
  kmesh : List (Vector3 α)
  kmeshTransform : List KmeshTransform
  super : Matrix3 ℤ
  Rsuper : Matrix3 α

/-- `Supercell::Supercell(gInfo, kmeshReduced, sym, invertList)`, without the log. -/
def supercell (find : PeriodicFind α) (sqrt : α → α) (roundErr : Vector3 α → α)
    (symmThreshold : α) (R : Matrix3 α) (kmeshReduced : List (Vector3 α))
    (sym : List (Matrix3 ℤ)) (invertList : List ℤ) : Except String (Supercell α) := do
  let closed := closeMesh find kmeshReduced sym invertList
  let super ← supercellMatrix sqrt roundErr symmThreshold R closed.kmesh
  return ⟨closed.kmesh, closed.kmeshTransform, super, R * Matrix3.cast super⟩

end Constructor

/-- `ElectronScattering::getWfns`: `kSup = round((k - kmesh[0]) * super, &roundErr)` and
`myassert(roundErr < symmThreshold)`. -/
def getWfnsAssert (roundErr : Vector3 α → α) (symmThreshold : α) (sc : Supercell α)
    (k : Vector3 α) : Bool :=
  decide (roundErr (vecMul (k - sc.kmesh.headD 0) (Matrix3.cast sc.super)) < symmThreshold)

/-! ## The search loops -/

section Search

variable (test : Vector3 α → Bool) (front : Vector3 α)

/-- What a search loop knows after the points `done`: no difference passed the test, or `best`
holds a shortest passing difference with its squared length. -/
def Shortest (done : List (Vector3 α)) : Option (Vector3 α × α) → Prop
  | none => ∀ k ∈ done, test (k - front) = false
  | some (v, m) => m = v ⬝ᵥ v ∧ (∃ k ∈ done, test (k - front) = true ∧ v = k - front) ∧
      ∀ k ∈ done, test (k - front) = true → m ≤ (k - front) ⬝ᵥ (k - front)

variable {test front}

theorem shortest_pickStep {done : List (Vector3 α)} {best : Option (Vector3 α × α)}
    (shortest : Shortest test front done best) (k : Vector3 α) :
    Shortest test front (done ++ [k]) (pickStep test front best k) := by
  unfold pickStep
  cases best with
  | none =>
    by_cases pass : test (k - front) = true
    · rw [if_pos (by simp [pass])]
      refine ⟨rfl, ⟨k, by simp, pass, rfl⟩, fun j mem passJ => ?_⟩
      rcases List.mem_append.1 mem with inDone | isK
      · exact absurd (shortest j inDone) (by simp [passJ])
      · rw [List.mem_singleton.1 isK]
    · rw [if_neg (by simp [pass])]
      intro j mem
      rcases List.mem_append.1 mem with inDone | isK
      · exact shortest j inDone
      · rw [List.mem_singleton.1 isK]
        simpa using pass
  | some b =>
    obtain ⟨v, m⟩ := b
    obtain ⟨length, found, least⟩ := shortest
    by_cases better : test (k - front) = true ∧ (k - front) ⬝ᵥ (k - front) < m
    · rw [if_pos (by simp only [Bool.and_eq_true, Option.all_some, decide_eq_true_eq]; exact better)]
      refine ⟨rfl, ⟨k, by simp, better.1, rfl⟩, fun j mem passJ => ?_⟩
      rcases List.mem_append.1 mem with inDone | isK
      · exact better.2.le.trans (least j inDone passJ)
      · rw [List.mem_singleton.1 isK]
    · rw [if_neg (by simpa [not_and] using better)]
      obtain ⟨j, inDone, passJ, rfl⟩ := found
      refine ⟨length, ⟨j, by simp [inDone], passJ, rfl⟩, fun j' mem passJ' => ?_⟩
      rcases List.mem_append.1 mem with inDone' | isK
      · exact least j' inDone' passJ'
      · rw [List.mem_singleton.1 isK] at passJ' ⊢
        exact not_lt.1 fun shorter => better ⟨passJ', shorter⟩

theorem shortest_foldl : ∀ (ks done : List (Vector3 α)) (best : Option (Vector3 α × α)),
    Shortest test front done best →
      Shortest test front (done ++ ks) (ks.foldl (pickStep test front) best)
  | [], done, best, shortest => by simpa using shortest
  | k :: ks, done, best, shortest => by
    simpa using shortest_foldl ks (done ++ [k]) _ (shortest_pickStep shortest k)

/-- A search loop returns a shortest difference that passes its test, whenever one passes. -/
theorem pickShortest_spec {rest : List (Vector3 α)} (passes : ∃ k ∈ rest, test (k - front) = true) :
    (∃ k ∈ rest, test (k - front) = true ∧ pickShortest test (front :: rest) = k - front) ∧
      ∀ k ∈ rest, test (k - front) = true →
        pickShortest test (front :: rest) ⬝ᵥ pickShortest test (front :: rest) ≤
          (k - front) ⬝ᵥ (k - front) := by
  have shortest := shortest_foldl rest [] none (show Shortest test front [] none from nofun)
  rw [List.nil_append] at shortest
  rw [show pickShortest test (front :: rest) =
    ((rest.foldl (pickStep test front) none).map Prod.fst).getD 0 from rfl]
  cases result : rest.foldl (pickStep test front) none with
  | none =>
    rw [result] at shortest
    obtain ⟨k, mem, pass⟩ := passes
    exact absurd (shortest k mem) (by simp [pass])
  | some b =>
    obtain ⟨v, m⟩ := b
    rw [result] at shortest
    obtain ⟨rfl, ⟨k, mem, pass, rfl⟩, least⟩ := shortest
    exact ⟨⟨k, mem, pass, rfl⟩, least⟩

/-- A search loop depends only on its test at the differences it sees. -/
theorem pickShortest_congr {test' : Vector3 α → Bool} {rest : List (Vector3 α)}
    (same : ∀ k ∈ rest, test (k - front) = test' (k - front)) :
    pickShortest test (front :: rest) = pickShortest test' (front :: rest) := by
  have fold : rest.foldl (pickStep test front) none = rest.foldl (pickStep test' front) none :=
    List.foldl_ext _ _ _ fun best k mem => by simp only [pickStep, same k mem]
  simp only [pickShortest, fold]

end Search

/-! ## The differences the loops see -/

/-- `kmesh` is, modulo `ℤ³`, the coset `kmesh[0] + L` of a group `L ⊇ ℤ³`. -/
structure CosetMesh (L : AddSubgroup (Vector3 α)) (kmesh : List (Vector3 α)) : Prop where
  integers : ∀ n, Vector3.ofInt n ∈ L
  sub_mem : ∀ k ∈ kmesh, k - kmesh.headD 0 ∈ L
  covers : ∀ l ∈ L, ∃ k ∈ kmesh, SameClass (kmesh.headD 0 + l) k

/-- A coset mesh with one point of each class, inside the centered zone: what the closure loop
builds from the orbit of a coset when it deduplicates exactly. -/
structure BravaisMesh (L : AddSubgroup (Vector3 α)) (kmesh : List (Vector3 α))
    extends CosetMesh L kmesh : Prop where
  distinct : kmesh.Pairwise fun p q => ¬ SameClass p q
  centered : ∀ k ∈ kmesh, ∀ i, -(1 / 2) ≤ k i ∧ k i < 1 / 2

/-- The points `kmesh333[i]`, `i ≥ 1`, of a mesh `front :: rest`. -/
def meshImages (front : Vector3 α) (rest : List (Vector3 α)) : List (Vector3 α) :=
  rest ++ neighbourZones.flatMap fun iZone => (front :: rest).map (· + Vector3.ofInt iZone)

theorem kmesh333_cons (front : Vector3 α) (rest : List (Vector3 α)) :
    kmesh333 (front :: rest) = front :: meshImages front rest := rfl

theorem mem_neighbourZones {z : Fin 3 → ℤ} :
    z ∈ neighbourZones ↔ (∀ l, -1 ≤ z l ∧ z l ≤ 1) ∧ z ≠ 0 := by
  simp [neighbourZones, mem_cellBox]

namespace BravaisMesh

variable {L : AddSubgroup (Vector3 α)} {front : Vector3 α} {rest : List (Vector3 α)}

theorem sameClass_front (mesh : BravaisMesh L (front :: rest)) {p : Vector3 α}
    (mem : p ∈ front :: rest) (same : SameClass p front) : p = front := by
  rcases List.mem_cons.1 mem with rfl | inRest
  · rfl
  · exact absurd same.symm ((List.pairwise_cons.1 mesh.distinct).1 p inRest)

/-- Every difference the loops see is a nonzero vector of `L`. -/
theorem sub_mem_of_mem (mesh : BravaisMesh L (front :: rest)) {k : Vector3 α}
    (mem : k ∈ meshImages front rest) : k - front ∈ L ∧ k - front ≠ 0 := by
  rcases List.mem_append.1 mem with inRest | image
  · refine ⟨by simpa using mesh.sub_mem k (List.mem_cons_of_mem _ inRest), fun zero => ?_⟩
    have := (List.pairwise_cons.1 mesh.distinct).1 k inRest
    exact this (sub_eq_zero.1 zero ▸ SameClass.refl front)
  · obtain ⟨z, zone, translate⟩ := List.mem_flatMap.1 image
    obtain ⟨p, mem', rfl⟩ := List.mem_map.1 translate
    have shifted : p + Vector3.ofInt z - front = (p - front) + Vector3.ofInt z := by abel
    refine ⟨shifted ▸ L.add_mem (by simpa using mesh.sub_mem p mem') (mesh.integers z),
      fun zero => ?_⟩
    have atFront := mesh.sameClass_front mem' ⟨z, (sub_eq_zero.1 zero).symm⟩
    subst atFront
    have image : Vector3.ofInt z = (0 : Vector3 α) := by simpa using zero
    exact (mem_neighbourZones.1 zone).2 (funext fun i => by simpa using congrFun image i)

/-- Every nonzero vector of `L` with coordinates in `[-1, 1]` is a difference the loops see: the
point of its class in the mesh is in the centered zone, so the zone of the image is `0` or a
neighbouring one. -/
theorem exists_meshImages_sub (mesh : BravaisMesh L (front :: rest)) {l : Vector3 α}
    (mem : l ∈ L) (nonzero : l ≠ 0) (small : ∀ i, |l i| ≤ 1) :
    ∃ k ∈ meshImages front rest, k - front = l := by
  obtain ⟨p, mem', n, hp⟩ := mesh.covers l mem
  simp only [List.headD_cons] at hp
  have bound : ∀ i, -1 ≤ n i ∧ n i ≤ 1 := fun i => by
    have hi := congrFun hp i
    simp only [Pi.add_apply, Vector3.ofInt_apply] at hi
    have zone := mesh.centered p mem' i
    have zone0 := mesh.centered front (List.mem_cons_self _ _) i
    have li := abs_le.1 (small i)
    have lower : ((-2 : ℤ) : α) < n i := by push_cast; linarith
    have upper : (n i : α) < ((2 : ℤ) : α) := by push_cast; linarith
    have := Int.cast_lt.1 lower
    have := Int.cast_lt.1 upper
    omega
  by_cases zero : n = 0
  · subst zero
    have atP : p = front + l := by simpa using hp
    have inRest : p ∈ rest := by
      rcases List.mem_cons.1 mem' with rfl | inRest
      · exact absurd (by simpa using atP) nonzero
      · exact inRest
    exact ⟨p, List.mem_append_left _ inRest, by rw [atP]; abel⟩
  · refine ⟨p + Vector3.ofInt (-n), List.mem_append_right _ ?_, by rw [hp]; simp⟩
    exact List.mem_flatMap.2 ⟨-n, mem_neighbourZones.2 ⟨fun i => by
      simp only [Pi.neg_apply]; have := bound i; omega, neg_ne_zero.2 zero⟩,
      List.mem_map.2 ⟨p, mem', rfl⟩⟩

end BravaisMesh

end Jdftx
