/-
# Core.Supercell.MeshClosure — the mesh closure of the `Supercell` constructor

The constructor closes `kmeshReduced` under the symmetry matrices `sym` and the inversion
flags `invertList`. For each `invert`, `iReduced` and `iSym`, in that loop order, the
candidate `(~m)·kOrig·invert` is moved into the centered zone `[-½, ½)³` by an integer
`offset`, and appended to `kmesh`, with its `KmeshTransform` record, unless the
`PeriodicLookup` over the points added so far finds it. The lookup is an external
collaborator: the model takes its `find` as a parameter, and each result says what it
assumes of it (`FindSpec` for a closeness relation `near`).

* `closeMesh_aligned`: for every lookup, `kmesh` and `kmeshTransform` stay index-aligned and
  every record rebuilds its point exactly, inside the centered zone.
* `closeMesh_closed`: for a lookup that finds a stored point close to the query exactly when
  there is one, every candidate is close to some mesh point, every mesh point is a wrapped
  candidate, and no two mesh points are close. `closeMesh_tolerance` reads this for the
  tolerance `τ` modulo `ℤ³` in the metric `GGT` (`WithinTol`), where `τ = 0` leaves one point
  per `ℤ³`-class of the orbit.
* `closeMesh_symmetric`: with exact deduplication and `sym`, `invertList` closed under
  products, the wrapped image of every mesh point under every operation is found in the mesh.

`exactFind`, the first stored point in the class of the query, is a lookup that meets
`FindSpec SameClass` (`exactFind_spec`).
-/
import Jdftx.Core.Matrix3
import Mathlib.Algebra.Order.Floor
import Mathlib.LinearAlgebra.Matrix.DotProduct

namespace Jdftx

set_option autoImplicit false

open Matrix

/-! ## The loop -/

/-- `Supercell::KmeshTransform`: the reduced point, the symmetry, the inversion and the zone
offset that produce a mesh point. -/
structure KmeshTransform where
  iReduced : ℕ
  iSym : ℕ
  invert : ℤ
  offset : Fin 3 → ℤ
  deriving DecidableEq

/-- One iteration of the three loops, with the entries it reads. -/
structure Candidate (α : Type) where
  invert : ℤ
  iReduced : ℕ
  kOrig : Vector3 α
  iSym : ℕ
  m : Matrix3 ℤ

/-- The mesh and its records; the lookup table holds `kmesh`. -/
structure MeshClosure (α : Type) where
  kmesh : List (Vector3 α)
  kmeshTransform : List KmeshTransform

/-- `PeriodicLookup::find` over the points added so far: an index, or `string::npos`. -/
abbrev PeriodicFind (α : Type) := List (Vector3 α) → Vector3 α → Option ℕ

variable {α : Type}

/-- The iterations in loop order: `invert`, then `iReduced`, then `iSym`. -/
def closureCandidates (kmeshReduced : List (Vector3 α)) (sym : List (Matrix3 ℤ))
    (invertList : List ℤ) : List (Candidate α) :=
  invertList.flatMap fun invert => kmeshReduced.enum.flatMap fun (iReduced, kOrig) =>
    sym.enum.map fun (iSym, m) => ⟨invert, iReduced, kOrig, iSym, m⟩

theorem mem_closureCandidates {kmeshReduced : List (Vector3 α)} {sym : List (Matrix3 ℤ)}
    {invertList : List ℤ} {c : Candidate α} :
    c ∈ closureCandidates kmeshReduced sym invertList ↔
      c.invert ∈ invertList ∧ kmeshReduced[c.iReduced]? = some c.kOrig ∧
        sym[c.iSym]? = some c.m := by
  obtain ⟨invert, iReduced, kOrig, iSym, m⟩ := c
  simp only [closureCandidates, List.mem_flatMap, List.mem_map, Prod.exists,
    List.mk_mem_enum_iff_getElem?, Candidate.mk.injEq]
  constructor
  · rintro ⟨_, mem, _, _, found, _, _, foundSym, rfl, rfl, rfl, rfl, rfl⟩
    exact ⟨mem, found, foundSym⟩
  · rintro ⟨mem, found, foundSym⟩
    exact ⟨_, mem, _, _, found, _, _, foundSym, rfl, rfl, rfl, rfl, rfl⟩

/-- What the model assumes of `PeriodicLookup::find` for a closeness relation `near`: a
returned index holds a point close to the query, and `npos` means that no stored point is. -/
def FindSpec (near : Vector3 α → Vector3 α → Prop) (find : PeriodicFind α) : Prop :=
  ∀ pts q, (∀ j, find pts q = some j → ∃ p, pts[j]? = some p ∧ near p q) ∧
    (find pts q = none → ∀ p ∈ pts, ¬ near p q)

theorem FindSpec.of_iff {near near' : Vector3 α → Vector3 α → Prop} {find : PeriodicFind α}
    (lookup : FindSpec near find) (same : ∀ p q, near p q ↔ near' p q) : FindSpec near' find :=
  (funext₂ fun p q => propext (same p q)) ▸ lookup

/-- A lookup always answers for a point close to a stored one. -/
theorem FindSpec.found {near : Vector3 α → Vector3 α → Prop} {find : PeriodicFind α}
    (lookup : FindSpec near find) {pts : List (Vector3 α)} {p q : Vector3 α} (mem : p ∈ pts)
    (close : near p q) : ∃ j p', find pts q = some j ∧ pts[j]? = some p' ∧ near p' q := by
  cases answer : find pts q with
  | none => exact absurd close ((lookup pts q).2 answer p mem)
  | some j =>
    obtain ⟨p', stored, close'⟩ := (lookup pts q).1 j answer
    exact ⟨j, p', rfl, stored, close'⟩

variable [LinearOrderedField α]

/-- `(~m) * kOrig * invert`. -/
def orbitPoint (m : Matrix3 ℤ) (kOrig : Vector3 α) (invert : ℤ) : Vector3 α :=
  (invert : α) • ((Matrix3.cast m)ᵀ *ᵥ kOrig)

/-- The candidate point of an iteration, before it is moved into the centered zone. -/
def Candidate.point (c : Candidate α) : Vector3 α := orbitPoint c.m c.kOrig c.invert

/-- Every entry of the three lists is the candidate of one iteration. -/
theorem exists_candidate {kmeshReduced : List (Vector3 α)} {sym : List (Matrix3 ℤ)}
    {invertList : List ℤ} {invert : ℤ} {kOrig : Vector3 α} {m : Matrix3 ℤ}
    (inInverts : invert ∈ invertList) (inReduced : kOrig ∈ kmeshReduced) (inSym : m ∈ sym) :
    ∃ c ∈ closureCandidates kmeshReduced sym invertList, c.point = orbitPoint m kOrig invert := by
  obtain ⟨iReduced, found⟩ := List.getElem?_of_mem inReduced
  obtain ⟨iSym, foundSym⟩ := List.getElem?_of_mem inSym
  exact ⟨⟨invert, iReduced, kOrig, iSym, m⟩, mem_closureCandidates.2 ⟨inInverts, found, foundSym⟩,
    rfl⟩

/-! ## Classes modulo `ℤ³` -/

/-- `p` and `q` are one point modulo `ℤ³`. -/
def SameClass (p q : Vector3 α) : Prop := ∃ n : Fin 3 → ℤ, q = p + Vector3.ofInt n

namespace SameClass

theorem refl (p : Vector3 α) : SameClass p p := ⟨0, by simp⟩

theorem symm {p q : Vector3 α} : SameClass p q → SameClass q p
  | ⟨n, same⟩ => ⟨-n, by simp [same]⟩

theorem trans {p q r : Vector3 α} : SameClass p q → SameClass q r → SameClass p r
  | ⟨n, pq⟩, ⟨n', qr⟩ => ⟨n + n', by simp [pq, qr, add_assoc]⟩

end SameClass

/-- Composing two operations is the operation of the product matrix and the product of the
inversions: `(~m)·((~m1)·k·invert1)·invert = ~(m1·m)·k·(invert·invert1)`. -/
theorem orbitPoint_orbitPoint (m1 m : Matrix3 ℤ) (kOrig : Vector3 α) (invert1 invert : ℤ) :
    orbitPoint m (orbitPoint m1 kOrig invert1) invert =
      orbitPoint (m1 * m) kOrig (invert * invert1) := by
  simp only [orbitPoint, Matrix3.cast_mul, transpose_mul, mulVec_smul, ← mulVec_mulVec,
    smul_smul, Int.cast_mul]

/-- An integer operation maps a class modulo `ℤ³` into one class. -/
theorem SameClass.orbitPoint {p q : Vector3 α} (same : SameClass p q) (m : Matrix3 ℤ)
    (invert : ℤ) : SameClass (orbitPoint m p invert) (orbitPoint m q invert) := by
  obtain ⟨n, rfl⟩ := same
  exact ⟨invert • (mᵀ *ᵥ n), by
    simp only [Jdftx.orbitPoint, mulVec_add, smul_add, Vector3.ofInt_smul, Vector3.ofInt_mulVec,
      Matrix3.cast_transpose]⟩

/-! ## The lookup: specification and closeness relations -/

/-- A closeness modulo `ℤ³`: reflexive, symmetric, and blind to integer shifts of the query. -/
structure PeriodicNear (near : Vector3 α → Vector3 α → Prop) : Prop where
  refl : ∀ p, near p p
  symm : ∀ p q, near p q → near q p
  shift : ∀ p q q', SameClass q' q → near p q → near p q'

theorem sameClass_periodicNear : PeriodicNear (SameClass (α := α)) :=
  ⟨SameClass.refl, fun _ _ => SameClass.symm, fun _ _ _ same close => close.trans same.symm⟩


/-- `PeriodicLookup`'s closeness: some integer shift of `q - p` has squared length at most
`τ²` in the metric `GGT`. -/
def WithinTol (GGT : Matrix3 α) (τ : α) (p q : Vector3 α) : Prop :=
  ∃ n : Fin 3 → ℤ, (q - p + Vector3.ofInt n) ⬝ᵥ (GGT *ᵥ (q - p + Vector3.ofInt n)) ≤ τ ^ 2

/-- The metric `GGT` is positive definite. -/
def PositiveMetric (GGT : Matrix3 α) : Prop := ∀ v : Vector3 α, v ≠ 0 → 0 < v ⬝ᵥ (GGT *ᵥ v)

theorem withinTol_periodicNear (GGT : Matrix3 α) (τ : α) : PeriodicNear (WithinTol GGT τ) where
  refl p := ⟨0, by simp [sq_nonneg]⟩
  symm p q := fun ⟨n, close⟩ => ⟨-n, by
    have flip : p - q + Vector3.ofInt (-n) = -(q - p + Vector3.ofInt n) := by simp; abel
    rwa [flip, mulVec_neg, neg_dotProduct, dotProduct_neg, neg_neg]⟩
  shift p q q' := fun ⟨m, same⟩ ⟨n, close⟩ => ⟨m + n, by
    have moved : q' - p + Vector3.ofInt (m + n) = q - p + Vector3.ofInt n := by
      rw [same]; simp; abel
    rwa [moved]⟩

/-- For a positive metric, tolerance `0` is equality modulo `ℤ³`. -/
theorem withinTol_zero_iff {GGT : Matrix3 α} (positive : PositiveMetric GGT) (p q : Vector3 α) :
    WithinTol GGT 0 p q ↔ SameClass p q := by
  constructor
  · rintro ⟨n, close⟩
    by_cases zero : q - p + Vector3.ofInt n = 0
    · exact ⟨-n, by rw [Vector3.ofInt_neg, ← sub_eq_zero, ← zero]; abel⟩
    · exact absurd close (not_le.2 (by simpa using positive _ zero))
  · rintro ⟨n, rfl⟩
    exact ⟨-n, by simp⟩

theorem positiveMetric_one : PositiveMetric (1 : Matrix3 α) := fun v nonzero => by
  rw [one_mulVec]
  exact (dotProduct_self_nonneg v).lt_of_ne (Ne.symm (mt dotProduct_self_eq_zero.1 nonzero))

/-! ## Records -/


/-- The record `T` rebuilds the point `k` from the reduced mesh, inside the centered zone. -/
def Rebuilds (kmeshReduced : List (Vector3 α)) (sym : List (Matrix3 ℤ)) (k : Vector3 α)
    (T : KmeshTransform) : Prop :=
  (∃ kOrig m, kmeshReduced[T.iReduced]? = some kOrig ∧ sym[T.iSym]? = some m ∧
    k = orbitPoint m kOrig T.invert + Vector3.ofInt T.offset) ∧
  ∀ i, -(1 / 2) ≤ k i ∧ k i < 1 / 2

/-- `kmesh` and `kmeshTransform` have one length and every record rebuilds its point. -/
structure Aligned (kmeshReduced : List (Vector3 α)) (sym : List (Matrix3 ℤ))
    (st : MeshClosure α) : Prop where
  length_eq : st.kmesh.length = st.kmeshTransform.length
  rebuilds : ∀ p ∈ st.kmesh.zip st.kmeshTransform, Rebuilds kmeshReduced sym p.1 p.2

variable {kmeshReduced : List (Vector3 α)} {sym : List (Matrix3 ℤ)} in
/-- The records of an aligned state, read index by index. -/
theorem Aligned.rebuilds_getElem? {st : MeshClosure α} (aligned : Aligned kmeshReduced sym st)
    {n : ℕ} {k : Vector3 α} {T : KmeshTransform} (atMesh : st.kmesh[n]? = some k)
    (atTransform : st.kmeshTransform[n]? = some T) : Rebuilds kmeshReduced sym k T :=
  aligned.rebuilds (k, T) (List.getElem?_mem (List.getElem?_zip_eq_some.2 ⟨atMesh, atTransform⟩))

variable [FloorRing α]

/-! ## The centered zone and the loop body -/

/-- `offset[i] = -floor(0.5 + k[i])`. -/
def zoneOffset (k : Vector3 α) : Fin 3 → ℤ := fun i => -⌊1 / 2 + k i⌋

/-- `k[i] += offset[i]`: the point moved into the centered zone. -/
def toCenteredZone (k : Vector3 α) : Vector3 α := k + Vector3.ofInt (zoneOffset k)

/-- The loop body: add the wrapped point and its record unless the lookup finds it. -/
def closureStep (find : PeriodicFind α) (st : MeshClosure α) (c : Candidate α) :
    MeshClosure α :=
  match find st.kmesh (toCenteredZone c.point) with
  | some _ => st
  | none => ⟨st.kmesh ++ [toCenteredZone c.point],
      st.kmeshTransform ++ [⟨c.iReduced, c.iSym, c.invert, zoneOffset c.point⟩]⟩

/-- `kmesh` and `kmeshTransform` after the closure loop. -/
def closeMesh (find : PeriodicFind α) (kmeshReduced : List (Vector3 α))
    (sym : List (Matrix3 ℤ)) (invertList : List ℤ) : MeshClosure α :=
  (closureCandidates kmeshReduced sym invertList).foldl (closureStep find) ⟨[], []⟩

theorem closureStep_of_found {find : PeriodicFind α} {st : MeshClosure α} {c : Candidate α}
    {j : ℕ} (found : find st.kmesh (toCenteredZone c.point) = some j) :
    closureStep find st c = st := by
  simp only [closureStep, found]

theorem closureStep_of_missing {find : PeriodicFind α} {st : MeshClosure α} {c : Candidate α}
    (missing : find st.kmesh (toCenteredZone c.point) = none) :
    closureStep find st c = ⟨st.kmesh ++ [toCenteredZone c.point],
      st.kmeshTransform ++ [⟨c.iReduced, c.iSym, c.invert, zoneOffset c.point⟩]⟩ := by
  simp only [closureStep, missing]

theorem toCenteredZone_centered (k : Vector3 α) (i : Fin 3) :
    -(1 / 2) ≤ toCenteredZone k i ∧ toCenteredZone k i < 1 / 2 := by
  have below := Int.floor_le (1 / 2 + k i)
  have above := Int.lt_floor_add_one (1 / 2 + k i)
  simp only [toCenteredZone, zoneOffset, Pi.add_apply, Vector3.ofInt_apply, Int.cast_neg]
  constructor <;> linarith

theorem sameClass_toCenteredZone (k : Vector3 α) : SameClass k (toCenteredZone k) :=
  ⟨zoneOffset k, rfl⟩

theorem sameClass_iff_fract (p q : Vector3 α) :
    SameClass p q ↔ ∀ i, Int.fract (q i - p i) = 0 := by
  constructor
  · rintro ⟨n, rfl⟩ i
    simp
  · intro integral
    refine ⟨fun i => ⌊q i - p i⌋, funext fun i => ?_⟩
    have := Int.self_sub_floor (q i - p i)
    simp only [integral, Pi.add_apply, Vector3.ofInt_apply] at this ⊢
    linarith

instance (p q : Vector3 α) : Decidable (SameClass p q) :=
  decidable_of_iff _ (sameClass_iff_fract p q).symm

/-! ## An exact lookup -/

/-- The first stored point in the class of the query. -/
def exactFind : PeriodicFind α := fun pts q => pts.findIdx? fun p => decide (SameClass p q)

theorem exactFind_spec : FindSpec SameClass (exactFind (α := α)) := fun pts q =>
  ⟨fun j found => by
    obtain ⟨lt, same, -⟩ := List.findIdx?_eq_some_iff_getElem.1 found
    exact ⟨pts[j], List.getElem?_eq_getElem lt, of_decide_eq_true same⟩,
  fun missing p mem => by simpa using List.findIdx?_eq_none_iff.1 missing p mem⟩

/-! ## The loop keeps the records aligned -/

section Aligned

variable {kmeshReduced : List (Vector3 α)} {sym : List (Matrix3 ℤ)}

theorem aligned_closureStep (find : PeriodicFind α) {st : MeshClosure α}
    (aligned : Aligned kmeshReduced sym st) {c : Candidate α}
    (found : kmeshReduced[c.iReduced]? = some c.kOrig) (foundSym : sym[c.iSym]? = some c.m) :
    Aligned kmeshReduced sym (closureStep find st c) := by
  cases lookup : find st.kmesh (toCenteredZone c.point) with
  | some j => rwa [closureStep_of_found lookup]
  | none =>
    rw [closureStep_of_missing lookup]
    refine ⟨by simp [aligned.length_eq], fun p mem => ?_⟩
    rw [List.zip_append aligned.length_eq] at mem
    rcases List.mem_append.1 mem with old | new
    · exact aligned.rebuilds p old
    · simp only [List.zip_cons_cons, List.zip_nil_right, List.mem_singleton] at new
      subst new
      exact ⟨⟨c.kOrig, c.m, found, foundSym, rfl⟩, toCenteredZone_centered _⟩

theorem aligned_foldl (find : PeriodicFind α) {invertList : List ℤ} :
    ∀ (cs : List (Candidate α)), (∀ c ∈ cs, c ∈ closureCandidates kmeshReduced sym invertList) →
      ∀ {st : MeshClosure α}, Aligned kmeshReduced sym st →
        Aligned kmeshReduced sym (cs.foldl (closureStep find) st)
  | [], _, _, aligned => aligned
  | c :: cs, inCandidates, _, aligned => by
    obtain ⟨-, found, foundSym⟩ :=
      mem_closureCandidates.1 (inCandidates c (List.mem_cons_self _ _))
    exact aligned_foldl find cs (fun c' mem => inCandidates c' (List.mem_cons_of_mem _ mem))
      (aligned_closureStep find aligned found foundSym)

/-- For every lookup, the records of the closed mesh stay index-aligned with it, and each
rebuilds its point exactly inside the centered zone. -/
theorem closeMesh_aligned (find : PeriodicFind α) (kmeshReduced : List (Vector3 α))
    (sym : List (Matrix3 ℤ)) (invertList : List ℤ) :
    Aligned kmeshReduced sym (closeMesh find kmeshReduced sym invertList) :=
  aligned_foldl find _ (fun _ mem => mem) ⟨rfl, by simp⟩

end Aligned

/-! ## Coverage and separation -/

/-- The closure invariant after the candidates `done`: each is close to a stored point, each
stored point is the wrapped point of one of them, and no stored point is close to a later
one. -/
structure Closed (near : Vector3 α → Vector3 α → Prop) (done : List (Candidate α))
    (kmesh : List (Vector3 α)) : Prop where
  covers : ∀ c ∈ done, ∃ p ∈ kmesh, near p (toCenteredZone c.point)
  origin : ∀ p ∈ kmesh, ∃ c ∈ done, p = toCenteredZone c.point
  separated : kmesh.Pairwise fun p q => ¬ near p q

section Closed

variable {near : Vector3 α → Vector3 α → Prop} {find : PeriodicFind α}

theorem closed_closureStep (lookup : FindSpec near find) (refl : ∀ p, near p p)
    {done : List (Candidate α)} {st : MeshClosure α} (closed : Closed near done st.kmesh)
    (c : Candidate α) : Closed near (done ++ [c]) (closureStep find st c).kmesh := by
  cases answer : find st.kmesh (toCenteredZone c.point) with
  | some j =>
    obtain ⟨p, stored, close⟩ := (lookup _ _).1 j answer
    rw [closureStep_of_found answer]
    refine ⟨fun c' mem => ?_, fun p mem => ?_, closed.separated⟩
    · rcases List.mem_append.1 mem with old | new
      · exact closed.covers c' old
      · rw [List.mem_singleton.1 new]
        exact ⟨p, List.getElem?_mem stored, close⟩
    · obtain ⟨c', mem', wrapped⟩ := closed.origin p mem
      exact ⟨c', List.mem_append_left _ mem', wrapped⟩
  | none =>
    rw [closureStep_of_missing answer]
    refine ⟨fun c' mem => ?_, fun p mem => ?_, ?_⟩
    · rcases List.mem_append.1 mem with old | new
      · obtain ⟨p, mem', close⟩ := closed.covers c' old
        exact ⟨p, List.mem_append_left _ mem', close⟩
      · rw [List.mem_singleton.1 new]
        exact ⟨_, List.mem_append_right _ (List.mem_singleton_self _), refl _⟩
    · rcases List.mem_append.1 mem with old | new
      · obtain ⟨c', mem', wrapped⟩ := closed.origin p old
        exact ⟨c', List.mem_append_left _ mem', wrapped⟩
      · exact ⟨c, List.mem_append_right _ (List.mem_singleton_self _), List.mem_singleton.1 new⟩
    · refine List.pairwise_append.2 ⟨closed.separated, List.pairwise_singleton _ _, ?_⟩
      intro p mem q new
      rw [List.mem_singleton.1 new]
      exact (lookup _ _).2 answer p mem

theorem closed_foldl (lookup : FindSpec near find) (refl : ∀ p, near p p) :
    ∀ (cs : List (Candidate α)) (st : MeshClosure α) {done : List (Candidate α)},
      Closed near done st.kmesh → Closed near (done ++ cs) (cs.foldl (closureStep find) st).kmesh
  | [], _, _, closed => by simpa using closed
  | c :: cs, st, _, closed => by
    simpa using closed_foldl lookup refl cs _ (closed_closureStep lookup refl closed c)

/-- For a lookup that finds a close stored point exactly when there is one, every orbit point
is close to a mesh point, every mesh point is in the class of an orbit point, and no two mesh
points are close. -/
theorem closeMesh_closed (periodic : PeriodicNear near) (lookup : FindSpec near find)
    (kmeshReduced : List (Vector3 α)) (sym : List (Matrix3 ℤ)) (invertList : List ℤ) :
    let kmesh := (closeMesh find kmeshReduced sym invertList).kmesh
    (∀ invert ∈ invertList, ∀ kOrig ∈ kmeshReduced, ∀ m ∈ sym,
      ∃ p ∈ kmesh, near p (orbitPoint m kOrig invert)) ∧
    (∀ p ∈ kmesh, ∃ invert ∈ invertList, ∃ kOrig ∈ kmeshReduced, ∃ m ∈ sym,
      SameClass (orbitPoint m kOrig invert) p) ∧
    ∀ (i j : ℕ) (p q : Vector3 α), i ≠ j → kmesh[i]? = some p → kmesh[j]? = some q → ¬ near p q := by
  have closed : Closed near (closureCandidates kmeshReduced sym invertList)
      (closeMesh find kmeshReduced sym invertList).kmesh := by
    simpa using closed_foldl lookup periodic.refl _ ⟨[], []⟩
      (⟨nofun, nofun, List.Pairwise.nil⟩ : Closed near [] [])
  refine ⟨fun invert inInverts kOrig inReduced m inSym => ?_, fun p mem => ?_, ?_⟩
  · obtain ⟨c, mem, point⟩ := exists_candidate inInverts inReduced inSym
    obtain ⟨p, mem', close⟩ := closed.covers c mem
    exact ⟨p, mem', point ▸ periodic.shift _ _ _ (sameClass_toCenteredZone _) close⟩
  · obtain ⟨c, mem', rfl⟩ := closed.origin p mem
    obtain ⟨inInverts, found, foundSym⟩ := mem_closureCandidates.1 mem'
    exact ⟨c.invert, inInverts, c.kOrig, List.getElem?_mem found, c.m, List.getElem?_mem foundSym,
      sameClass_toCenteredZone _⟩
  · intro i j p q distinct atI atJ
    have pairwise := List.pairwise_iff_getElem.1 closed.separated
    obtain ⟨hi, rfl⟩ := List.getElem?_eq_some_iff.1 atI
    obtain ⟨hj, rfl⟩ := List.getElem?_eq_some_iff.1 atJ
    rcases Nat.lt_or_gt_of_ne distinct with lt | gt
    · exact pairwise i j hi hj lt
    · exact fun close => pairwise j i hj hi gt (periodic.symm _ _ close)

end Closed

/-- With `PeriodicLookup` finding a stored point within `τ` modulo `ℤ³` in the metric `GGT`
exactly when there is one, every orbit point is within `τ` of a mesh point and two mesh points
are never within `τ`; for `τ = 0` and a positive metric, the mesh holds one point of each
`ℤ³`-class of the orbit, and only those. -/
theorem closeMesh_tolerance (GGT : Matrix3 α) (τ : α) (find : PeriodicFind α)
    (lookup : FindSpec (WithinTol GGT τ) find) (kmeshReduced : List (Vector3 α))
    (sym : List (Matrix3 ℤ)) (invertList : List ℤ) :
    let kmesh := (closeMesh find kmeshReduced sym invertList).kmesh
    (∀ invert ∈ invertList, ∀ kOrig ∈ kmeshReduced, ∀ m ∈ sym,
      ∃ p ∈ kmesh, WithinTol GGT τ p (orbitPoint m kOrig invert)) ∧
    (∀ (i j : ℕ) (p q : Vector3 α), i ≠ j → kmesh[i]? = some p → kmesh[j]? = some q → ¬ WithinTol GGT τ p q) ∧
    (τ = 0 → PositiveMetric GGT →
      (∀ invert ∈ invertList, ∀ kOrig ∈ kmeshReduced, ∀ m ∈ sym,
        ∃ p ∈ kmesh, SameClass p (orbitPoint m kOrig invert)) ∧
      (∀ p ∈ kmesh, ∃ invert ∈ invertList, ∃ kOrig ∈ kmeshReduced, ∃ m ∈ sym,
        SameClass (orbitPoint m kOrig invert) p) ∧
      ∀ (i j : ℕ) (p q : Vector3 α), i ≠ j → kmesh[i]? = some p → kmesh[j]? = some q → ¬ SameClass p q) := by
  obtain ⟨covers, -, separated⟩ :=
    closeMesh_closed (withinTol_periodicNear GGT τ) lookup kmeshReduced sym invertList
  refine ⟨covers, separated, fun zero positive => ?_⟩
  subst zero
  exact closeMesh_closed sameClass_periodicNear (lookup.of_iff (withinTol_zero_iff positive))
    kmeshReduced sym invertList

theorem closeMesh_tolerance_exact :
    FindSpec (WithinTol (1 : Matrix3 ℚ) 0) exactFind ∧
    let kmesh := (closeMesh exactFind [![0, 1 / 2, 0]] [1] [1, -1]).kmesh
    (∀ invert ∈ [(1 : ℤ), -1], ∀ kOrig ∈ [(![0, 1 / 2, 0] : Vector3 ℚ)], ∀ m ∈ [(1 : Matrix3 ℤ)],
      ∃ p ∈ kmesh, WithinTol 1 0 p (orbitPoint m kOrig invert)) ∧
    (∀ (i j : ℕ) (p q : Vector3 ℚ), i ≠ j → kmesh[i]? = some p → kmesh[j]? = some q →
      ¬ WithinTol 1 0 p q) ∧
    ((0 : ℚ) = 0 → PositiveMetric (1 : Matrix3 ℚ) →
      (∀ invert ∈ [(1 : ℤ), -1], ∀ kOrig ∈ [(![0, 1 / 2, 0] : Vector3 ℚ)],
        ∀ m ∈ [(1 : Matrix3 ℤ)], ∃ p ∈ kmesh, SameClass p (orbitPoint m kOrig invert)) ∧
      (∀ p ∈ kmesh, ∃ invert ∈ [(1 : ℤ), -1], ∃ kOrig ∈ [(![0, 1 / 2, 0] : Vector3 ℚ)],
        ∃ m ∈ [(1 : Matrix3 ℤ)], SameClass (orbitPoint m kOrig invert) p) ∧
      ∀ (i j : ℕ) (p q : Vector3 ℚ), i ≠ j → kmesh[i]? = some p → kmesh[j]? = some q →
        ¬ SameClass p q) :=
  have lookup : FindSpec (WithinTol (1 : Matrix3 ℚ) 0) exactFind :=
    exactFind_spec.of_iff fun p q => (withinTol_zero_iff positiveMetric_one p q).symm
  ⟨lookup, closeMesh_tolerance 1 0 exactFind lookup _ _ _⟩

/-! ## Invariance under the operations -/

/-- With exact deduplication and `sym`, `invertList` closed under products, the wrapped image
`inv·mᵀ·k` of every mesh point `k` is in the class of a mesh point, which the lookup over the
mesh finds. -/
theorem closeMesh_symmetric (find : PeriodicFind α) (lookup : FindSpec SameClass find)
    (kmeshReduced : List (Vector3 α)) (sym : List (Matrix3 ℤ)) (invertList : List ℤ)
    (symClosed : ∀ a ∈ sym, ∀ b ∈ sym, a * b ∈ sym)
    (invertClosed : ∀ a ∈ invertList, ∀ b ∈ invertList, a * b ∈ invertList) :
    let kmesh := (closeMesh find kmeshReduced sym invertList).kmesh
    ∀ k ∈ kmesh, ∀ m ∈ sym, ∀ invert ∈ invertList,
      (∃ p ∈ kmesh, SameClass p (toCenteredZone (orbitPoint m k invert))) ∧
      ∃ j p, find kmesh (toCenteredZone (orbitPoint m k invert)) = some j ∧ kmesh[j]? = some p ∧
        SameClass p (toCenteredZone (orbitPoint m k invert)) := by
  obtain ⟨covers, origin, -⟩ :=
    closeMesh_closed sameClass_periodicNear lookup kmeshReduced sym invertList
  intro kmesh k mem m inSym invert inInverts
  obtain ⟨invert1, inInverts1, kOrig, inReduced, m1, inSym1, source⟩ := origin k mem
  obtain ⟨p, mem', same⟩ := covers _ (invertClosed _ inInverts _ inInverts1) kOrig inReduced _
    (symClosed _ inSym1 _ inSym)
  have image : SameClass p (toCenteredZone (orbitPoint m k invert)) := by
    refine same.trans (.trans ?_ (sameClass_toCenteredZone _))
    rw [← orbitPoint_orbitPoint]
    exact source.orbitPoint m invert
  exact ⟨⟨p, mem', image⟩, lookup.found mem' image⟩

theorem closeMesh_symmetric_rotations :
    FindSpec SameClass (exactFind (α := ℚ)) ∧
    (∀ a ∈ [(1 : Matrix3 ℤ), !![0, -1, 0; 1, 0, 0; 0, 0, 1], !![-1, 0, 0; 0, -1, 0; 0, 0, 1],
        !![0, 1, 0; -1, 0, 0; 0, 0, 1]],
      ∀ b ∈ [(1 : Matrix3 ℤ), !![0, -1, 0; 1, 0, 0; 0, 0, 1], !![-1, 0, 0; 0, -1, 0; 0, 0, 1],
        !![0, 1, 0; -1, 0, 0; 0, 0, 1]],
      a * b ∈ [(1 : Matrix3 ℤ), !![0, -1, 0; 1, 0, 0; 0, 0, 1], !![-1, 0, 0; 0, -1, 0; 0, 0, 1],
        !![0, 1, 0; -1, 0, 0; 0, 0, 1]]) ∧
    (∀ a ∈ [(1 : ℤ), -1], ∀ b ∈ [(1 : ℤ), -1], a * b ∈ [(1 : ℤ), -1]) ∧
    let sym := [(1 : Matrix3 ℤ), !![0, -1, 0; 1, 0, 0; 0, 0, 1], !![-1, 0, 0; 0, -1, 0; 0, 0, 1],
      !![0, 1, 0; -1, 0, 0; 0, 0, 1]]
    let kmesh := (closeMesh exactFind [(![1 / 2, 1 / 4, 0] : Vector3 ℚ)] sym [1, -1]).kmesh
    ∀ k ∈ kmesh, ∀ m ∈ sym, ∀ invert ∈ [(1 : ℤ), -1],
      (∃ p ∈ kmesh, SameClass p (toCenteredZone (orbitPoint m k invert))) ∧
      ∃ j p, exactFind kmesh (toCenteredZone (orbitPoint m k invert)) = some j ∧
        kmesh[j]? = some p ∧ SameClass p (toCenteredZone (orbitPoint m k invert)) :=
  have symClosed : ∀ a ∈ [(1 : Matrix3 ℤ), !![0, -1, 0; 1, 0, 0; 0, 0, 1],
      !![-1, 0, 0; 0, -1, 0; 0, 0, 1], !![0, 1, 0; -1, 0, 0; 0, 0, 1]],
      ∀ b ∈ [(1 : Matrix3 ℤ), !![0, -1, 0; 1, 0, 0; 0, 0, 1], !![-1, 0, 0; 0, -1, 0; 0, 0, 1],
        !![0, 1, 0; -1, 0, 0; 0, 0, 1]],
      a * b ∈ [(1 : Matrix3 ℤ), !![0, -1, 0; 1, 0, 0; 0, 0, 1], !![-1, 0, 0; 0, -1, 0; 0, 0, 1],
        !![0, 1, 0; -1, 0, 0; 0, 0, 1]] := by decide
  have invertClosed : ∀ a ∈ [(1 : ℤ), -1], ∀ b ∈ [(1 : ℤ), -1], a * b ∈ [(1 : ℤ), -1] := by
    decide
  ⟨exactFind_spec, symClosed, invertClosed,
    closeMesh_symmetric exactFind exactFind_spec _ _ _ symClosed invertClosed⟩

end Jdftx
