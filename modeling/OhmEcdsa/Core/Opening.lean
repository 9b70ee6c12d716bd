import OhmEcdsa.Core.Shamir

/-!
# Verified openings and product proofs (`src/primitives/open.rs`, `dleq.rs`)

Every opening checks each broadcast share against the public commitment, blames
the senders that fail and interpolates from the first `t` that pass:

    all shares valid → t ≤ shares.size → openAt point t com shares = .ok (com.poly.eval point)
                                                                    (openAt_ok)
    t ≤ number of valid shares →
      openRobust t com shares = .ok (com.poly.eval 0, the senders of the others)
                                                                    (openRobust_ok)
-/

set_option linter.unusedSectionVars false

namespace OhmEcdsa

open Polynomial FeldmanCommitment

variable {F G : Type} [Field F] [DecidableEq F] [AddCommGroup G] [Module F G] [DecidableEq G]

/-- `m[&i]`. -/
def index {ν : Type} (m : PartyMap ν) (i : PartyId) : Outcome ν :=
  match m[i]? with
  | some v => .ok v
  | none => .error (.panic "no entry found for key")

/-- `v[k]`. -/
def nth {α : Type} (v : List α) (k : Nat) : Outcome α :=
  match v[k]? with
  | some a => .ok a
  | none => .error (.panic "index out of bounds")

/-- `iter.collect()` into a `BTreeMap`: a later entry of a key replaces an earlier one. -/
def collect {ν : Type} (l : List (PartyId × ν)) : PartyMap ν := Std.ExtTreeMap.ofList l compare

/-! ## Algorithm: open.rs -/

section Open

variable [K256 F G]

/-- The loop of every opening: the shares that pass the commitment check, in
order, and the senders of the others. -/
def partitionShares (com : FeldmanCommitment G) (shares : List (PartyId × F)) :
    List (PartyId × F) × List PartyId :=
  shares.foldl (fun acc e =>
    if com.verifyShare e.1 e.2 then (acc.1 ++ [e], acc.2) else (acc.1, acc.2 ++ [e.1])) ([], [])

/-- Truncate to `quorum` and interpolate at `point`. -/
def interpolateFirst (quorum : Usize) (point : F) (valid : List (PartyId × F)) : Outcome F :=
  let validParties := (valid.map (·.1)).take quorum.val
  let validShares := (valid.map (·.2)).take quorum.val
  if point = 0 then interpolateAtZero validParties validShares
  else interpolateAt point validParties validShares

/-- Open a committed sharing at `point` from broadcast shares; any bad share
aborts blaming its sender. -/
def openAt (point : F) (t : Usize) (com : FeldmanCommitment G) (shares : PartyMap F) (phase : Phase) :
    Outcome F :=
  let (valid, blamed) := partitionShares com shares.toList
  if blamed ≠ [] then
    .error (abort phase blamed "share failed commitment check during opening")
  else if valid.length < t.val then .error (.error (.notEnoughShares valid.length t.val))
  else interpolateFirst t point valid

def «open» (t : Usize) (com : FeldmanCommitment G) (shares : PartyMap F) (phase : Phase) : Outcome F :=
  openAt 0 t com shares phase

/-- Bad shares are filtered out and their senders returned. -/
def openRobust (t : Usize) (com : FeldmanCommitment G) (shares : PartyMap F) (_phase : Phase) :
    Outcome (F × List PartyId) :=
  let (valid, blamed) := partitionShares com shares.toList
  if valid.length < t.val then .error (.error (.notEnoughShares valid.length t.val))
  else do
    let v ← interpolateFirst t 0 valid
    return (v, blamed)

end Open

/-! ## Algorithm: dleq.rs -/

/-- A DLEQ proof: commitments `(t1, t2)` and response `z`. -/
structure DleqProof (F G : Type) where
  t1 : G
  t2 : G
  z : F
  deriving DecidableEq

namespace DleqProof

variable [K256 F G]

def challenge (sid tag : Bytes) (g1 x1 g2 x2 t1 t2 : G) : F :=
  K256.scalarFromDigest G (K256.sha256 F G
    (tag ++ sid ++ [g1, x1, g2, x2, t1, t2].flatMap (K256.pointBytes F)))

/-- Prove `log_{g1}(x·g1) = log_{g2}(x·g2)` with the nonce `w`. -/
def proveWith (sid tag : Bytes) (x : F) (g1 g2 : G) (w : F) : G × G × DleqProof F G :=
  let x1 := x • g1
  let x2 := x • g2
  let t1 := w • g1
  let t2 := w • g2
  let c : F := challenge sid tag g1 x1 g2 x2 t1 t2
  (x1, x2, ⟨t1, t2, w + c * x⟩)

def prove (sid tag : Bytes) (x : F) (g1 g2 : G) (k : Nat) : RngM F (G × G × DleqProof F G) := do
  let w ← randomScalar k
  return proveWith sid tag x g1 g2 w

def verify (sid tag : Bytes) (g1 x1 g2 x2 : G) (proof : DleqProof F G) : Bool :=
  let c : F := challenge sid tag g1 x1 g2 x2 proof.t1 proof.t2
  proof.z • g1 == proof.t1 + c • x1 && proof.z • g2 == proof.t2 + c • x2

theorem verify_proveWith (sid tag : Bytes) (x : F) (g1 g2 : G) (w : F) :
    verify sid tag g1 (x • g1) g2 (x • g2) (proveWith sid tag x g1 g2 w).2.2 = true := by
  unfold verify proveWith
  simp only [add_smul, mul_smul, beq_self_eq_true, Bool.and_self]

end DleqProof

/-! ## Lemmas: maps and positional arrays -/

theorem compare_ne_eq {i j : PartyId} (h : i ≠ j) : ¬ compare i j = .eq := by
  simpa using h

theorem collect_getElem? {ν : Type} (l : List (PartyId × ν)) (hnd : (l.map (·.1)).Nodup)
    {i : PartyId} {v : ν} (h : (i, v) ∈ l) : (collect l)[i]? = some v := by
  unfold collect
  refine Std.ExtTreeMap.getElem?_ofList_of_mem (k := i) (by simp) ?_ h
  rw [List.Nodup, List.pairwise_map] at hnd
  exact hnd.imp fun h => compare_ne_eq h

theorem collect_getElem?_none {ν : Type} (l : List (PartyId × ν)) {i : PartyId}
    (h : i ∉ l.map (·.1)) : (collect l)[i]? = none := by
  unfold collect
  refine Std.ExtTreeMap.getElem?_ofList_of_contains_eq_false ?_
  simpa using h

theorem index_none {ν : Type} {m : PartyMap ν} {i : PartyId} (h : i ∉ m) :
    index m i = .error (.panic "no entry found for key") := by
  unfold index
  rw [Std.ExtTreeMap.getElem?_eq_none h]

theorem index_some {ν : Type} {m : PartyMap ν} {i : PartyId} {v : ν} (h : m[i]? = some v) : index m i = .ok v := by
  unfold index
  rw [h]

theorem mem_of_getElem? {ν : Type} {m : PartyMap ν} {i : PartyId} {v : ν} (h : m[i]? = some v) : i ∈ m :=
  Std.ExtTreeMap.mem_iff_isSome_getElem?.mpr (by rw [h]; rfl)

theorem getElem?_of_mem {ν : Type} {m : PartyMap ν} {i : PartyId} (h : i ∈ m) : ∃ v, m[i]? = some v :=
  ⟨m[i], Std.ExtTreeMap.getElem?_eq_some_getElem h⟩

theorem collect_one {ν : Type} (i : PartyId) (v : ν) : (collect [(i, v)])[i]? = some v :=
  collect_getElem? [(i, v)] (List.nodup_singleton i) List.mem_cons_self

/-- What a map was collected from. -/
theorem mem_of_collect {ν : Type} {l : List (PartyId × ν)} {i : PartyId} {v : ν} (h : (collect l)[i]? = some v) :
    (i, v) ∈ l := by
  have hmany : ∀ (l : List (PartyId × ν)) (m : PartyMap ν), (m.insertMany l)[i]? = some v → (i, v) ∈ l ∨ m[i]? = some v := by
    intro l
    induction l with
    | nil => exact fun m hm => Or.inr hm
    | cons e l ih =>
      intro m hm
      obtain ⟨j, u⟩ := e
      rw [Std.ExtTreeMap.insertMany_cons] at hm
      rcases ih _ hm with hmem | hins
      · exact Or.inl (List.mem_cons_of_mem _ hmem)
      · rw [Std.ExtTreeMap.getElem?_insert] at hins
        split at hins
        · next hji =>
          obtain rfl : j = i := by simpa using hji
          obtain rfl := Option.some.inj hins
          exact Or.inl List.mem_cons_self
        · exact Or.inr hins
  unfold collect at h
  rw [Std.ExtTreeMap.ofList_eq_insertMany_empty] at h
  rcases hmany l ∅ h with hmem | hempty
  · exact hmem
  · simp at hempty

theorem mem_toList_collect {ν : Type} (l : List (PartyId × ν)) (hnd : (l.map (·.1)).Nodup)
    (e : PartyId × ν) : e ∈ (collect l).toList ↔ e ∈ l := by
  obtain ⟨i, v⟩ := e
  rw [Std.ExtTreeMap.mem_toList_iff_getElem?_eq_some]
  constructor
  · intro h
    by_contra hmem
    by_cases hi : i ∈ l.map (·.1)
    · obtain ⟨⟨j, w⟩, hw, rfl⟩ := List.mem_map.mp hi
      rw [collect_getElem? l hnd hw] at h
      cases h
      exact hmem hw
    · rw [collect_getElem?_none l hi] at h
      cases h
  · exact collect_getElem? l hnd

theorem size_collect {ν : Type} (l : List (PartyId × ν)) (hnd : (l.map (·.1)).Nodup) :
    (collect l).size = l.length := by
  unfold collect
  refine Std.ExtTreeMap.size_ofList ?_
  rw [List.Nodup, List.pairwise_map] at hnd
  exact hnd.imp fun h => compare_ne_eq h

/-- Two lists with the same entries, no key twice, collect to the same map. -/
theorem collect_ext {ν : Type} {l l' : List (PartyId × ν)} (hnd : (l.map (·.1)).Nodup)
    (hnd' : (l'.map (·.1)).Nodup) (h : ∀ e ∈ l, e ∈ l') (hkeys : ∀ e ∈ l', e.1 ∈ l.map (·.1)) :
    collect l = collect l' := by
  refine Std.ExtTreeMap.ext_getElem? fun i => ?_
  by_cases hi : i ∈ l.map (·.1)
  · obtain ⟨⟨j, v⟩, hv, rfl⟩ := List.mem_map.mp hi
    rw [collect_getElem? l hnd hv, collect_getElem? l' hnd' (h _ hv)]
  · have hi' : i ∉ l'.map (·.1) := by
      intro hmem
      obtain ⟨e, he, rfl⟩ := List.mem_map.mp hmem
      exact hi (hkeys e he)
    rw [collect_getElem?_none l hi, collect_getElem?_none l' hi']

theorem nodup_keys_toList {ν : Type} (m : PartyMap ν) : (m.toList.map (·.1)).Nodup := by
  rw [List.Nodup, List.pairwise_map]
  exact (Std.ExtTreeMap.distinct_keys_toList (t := m)).imp fun h hij => h (by simp [hij])

theorem index_collect {ν : Type} (l : List (PartyId × ν)) (hnd : (l.map (·.1)).Nodup)
    {i : PartyId} {v : ν} (h : (i, v) ∈ l) : index (collect l) i = .ok v := by
  unfold index
  rw [collect_getElem? l hnd h]

theorem nth_map {α β : Type} (l : List α) (f : α → β) (k : Nat) : nth (l.map f) k = (nth l k).map f := by
  unfold nth
  rw [List.getElem?_map]
  cases l[k]? <;> rfl

/-- Position `k` of an array indexed by `ids` belongs to `ids[k]`. -/
theorem nth_map_of_mem {α : Type} (ids : List PartyId) (f : PartyId → α) {e : PartyId × Nat}
    (he : e ∈ ids.zipIdx) : nth (ids.map f) e.2 = .ok (f e.1) := by
  have hp : ids[e.2]? = some e.1 := List.mem_zipIdx_iff_getElem?.mp he
  unfold nth
  rw [List.getElem?_map, hp]
  rfl

/-! ## Lemmas: openings -/

section Lemmas

variable [K256 F G]

theorem partitionShares_eq (com : FeldmanCommitment G) (shares : List (PartyId × F)) :
    partitionShares com shares = (shares.filter fun e => com.verifyShare e.1 e.2,
      (shares.filter fun e => !com.verifyShare e.1 e.2).map (·.1)) := by
  have step : ∀ (l : List (PartyId × F)) (acc : List (PartyId × F) × List PartyId),
      l.foldl (fun acc e =>
        if com.verifyShare e.1 e.2 then (acc.1 ++ [e], acc.2) else (acc.1, acc.2 ++ [e.1])) acc =
      (acc.1 ++ l.filter fun e => com.verifyShare e.1 e.2,
        acc.2 ++ (l.filter fun e => !com.verifyShare e.1 e.2).map (·.1)) := by
    intro l
    induction l with
    | nil => intro acc; simp
    | cons e l ih =>
      intro acc
      rw [List.foldl_cons, ih]
      by_cases hv : com.verifyShare e.1 e.2 = true
      · simp [hv]
      · simp [hv]
  unfold partitionShares
  rw [step]
  simp

theorem partitionShares_valid (com : FeldmanCommitment G) (shares : List (PartyId × F))
    (h : ∀ e ∈ shares, com.verifyShare e.1 e.2 = true) : partitionShares com shares = (shares, []) := by
  rw [partitionShares_eq, List.filter_eq_self.mpr h, List.filter_eq_nil_iff.mpr fun e he => by simp [h e he]]
  rfl

/-- **Any `quorum` valid shares open the committed polynomial.** -/
theorem interpolateFirst_ok (quorum : Usize) (point : F) (com : FeldmanCommitment G)
    (valid : List (PartyId × F)) (hnd : (valid.map (·.1)).Nodup)
    (hv : ∀ e ∈ valid, com.verifyShare e.1 e.2 = true) (hq : quorum.val ≤ valid.length)
    (hdeg : (com.poly F).degree < quorum.val) :
    interpolateFirst quorum point valid = .ok ((com.poly F).eval point) := by
  have hparties : (((valid.map (·.1)).take quorum.val).map (scalarFrom : PartyId → F)).Nodup :=
    map_scalarFrom_nodup F G (hnd.sublist (List.take_sublist _ _))
  have hshares : (valid.map (·.2)).take quorum.val =
      ((valid.map (·.1)).take quorum.val).map fun j => (com.poly F).eval (scalarFrom j) := by
    rw [← List.map_take, ← List.map_take, List.map_map]
    refine List.map_congr_left fun e he => ?_
    exact ((verifyShare_iff com e.1 e.2).mp (hv e (List.mem_of_mem_take he))).symm
  have hint := interpolateAt_eval point _ hparties (com.poly F) (by
    rw [List.length_take, List.length_map, min_eq_left hq]; exact hdeg)
  unfold interpolateFirst interpolateAtZero
  rw [hshares]
  split
  · next h0 => subst h0; exact hint
  · exact hint

theorem openAt_ok (point : F) (t : Usize) (com : FeldmanCommitment G) (shares : PartyMap F) (phase : Phase)
    (hv : ∀ e ∈ shares.toList, com.verifyShare e.1 e.2 = true) (ht : t.val ≤ shares.size)
    (hdeg : (com.poly F).degree < t.val) :
    openAt point t com shares phase = .ok ((com.poly F).eval point) := by
  have hlen : shares.toList.length = shares.size := Std.ExtTreeMap.length_toList
  unfold openAt
  simp only [partitionShares_valid com _ hv, ne_eq, not_true_eq_false, if_false]
  rw [if_neg (by omega)]
  exact interpolateFirst_ok t point com _ (nodup_keys_toList shares) hv (by omega) hdeg

/-- One bad share aborts the opening. -/
theorem open_bad (t : Usize) (com : FeldmanCommitment G) (shares : PartyMap F) (phase : Phase) {e : PartyId × F}
    (he : e ∈ shares.toList) (hbad : com.verifyShare e.1 e.2 = false) :
    «open» t com shares phase = .error (abort phase
      ((shares.toList.filter fun e => !com.verifyShare e.1 e.2).map (·.1))
      "share failed commitment check during opening") := by
  have hne : (shares.toList.filter fun e => !com.verifyShare e.1 e.2).map (·.1) ≠ [] := by
    have : e ∈ shares.toList.filter fun e => !com.verifyShare e.1 e.2 :=
      List.mem_filter.mpr ⟨he, by rw [hbad]; rfl⟩
    intro hnil
    rw [List.map_eq_nil_iff] at hnil
    rw [hnil] at this
    cases this
  unfold «open» openAt
  simp only [partitionShares_eq]
  rw [if_pos hne]

/-- Opening the shares that the members hold of `com`. -/
theorem open_collect_ok (t : Usize) (com : FeldmanCommitment G) (ids : List PartyId) (f : PartyId → F)
    (phase : Phase) (hnd : ids.Nodup) (hv : ∀ i ∈ ids, com.verifyShare i (f i) = true)
    (ht : t.val ≤ ids.length) (hdeg : (com.poly F).degree < t.val) :
    «open» t com (collect (ids.map fun i => (i, f i))) phase = .ok ((com.poly F).eval 0) := by
  have hkeys : ((ids.map fun i => (i, f i)).map (·.1)).Nodup := by
    simpa [Function.comp_def] using hnd
  refine openAt_ok 0 t com _ phase (fun e he => ?_) (by rw [size_collect _ hkeys]; simpa using ht) hdeg
  rw [mem_toList_collect _ hkeys] at he
  obtain ⟨i, hi, rfl⟩ := List.mem_map.mp he
  exact hv i hi

theorem openRobust_ok (t : Usize) (com : FeldmanCommitment G) (shares : PartyMap F) (phase : Phase)
    (ht : t.val ≤ (shares.toList.filter fun e => com.verifyShare e.1 e.2).length)
    (hdeg : (com.poly F).degree < t.val) :
    openRobust t com shares phase = .ok ((com.poly F).eval 0,
      (shares.toList.filter fun e => !com.verifyShare e.1 e.2).map (·.1)) := by
  unfold openRobust
  simp only [partitionShares_eq]
  rw [if_neg (by omega), interpolateFirst_ok t 0 com _
    ((nodup_keys_toList shares).sublist (List.filter_sublist.map _))
    (fun e he => (List.mem_filter.mp he).2) ht hdeg]
  rfl

end Lemmas

end OhmEcdsa
