import OhmEcdsa.Core.Sign

/-!
# Robust presigning against arbitrary broadcasts (`presign_robust_with_committee`)

The orchestrator computes every broadcast itself; here each party sends what it
likes, and the fault hooks of the source are one choice of what is sent
(`presignRobust_ofTamper`).  With `t` honest members an instance ends as the honest
one does, minus the records of the parties that sent a wrong value:

    (t honest members) → presignRobust c keys id sent rngs =
      the honest run with the blamed parties' records removed, any t of the others sign
                                                                    (presignRobust_delivers)
-/

set_option linter.unusedSectionVars false

namespace OhmEcdsa

open Polynomial FeldmanCommitment Hoare Interpolation

/-- What each party broadcasts, as a function of the value prescribed to it. -/
structure Broadcasts (F G : Type) where
  delta : PartyId → F → F
  eps : PartyId → F → F
  v : PartyId → F → F
  nonce : PartyId → G → G
  d2 : PartyId → F → F
  e2 : PartyId → F → F

/-- The values prescribed to one party in the two opening rounds and the nonce round. -/
structure Prescribed (F G : Type) where
  delta : F
  eps : F
  v : F
  nonce : G
  d2 : F
  e2 : F

/-- The outcome of an instance with the values it opened. -/
structure RobustRun (F G : Type) where
  delta : F
  eps : F
  v : F
  bigR : G
  r : F
  d2v : F
  e2v : F
  presigs : List (Presignature F G)
  blamed : List PartyId
  deriving DecidableEq

variable {F G : Type} [Field F] [DecidableEq F] [AddCommGroup G] [Module F G] [DecidableEq G] [K256 F G]

/-! ## Algorithm -/

def Broadcasts.honest : Broadcasts F G :=
  ⟨fun _ s => s, fun _ s => s, fun _ s => s, fun _ p => p, fun _ s => s, fun _ s => s⟩

/-- The fault hooks: a wrong share in the `v` opening and a wrong nonce point. -/
def Broadcasts.ofTamper (tamper : Option PresignTamper) : Broadcasts F G :=
  { (Broadcasts.honest : Broadcasts F G) with
    v := fun j s => if tamper.bind (·.badOpenShare) = some j then s + 1 else s
    nonce := fun j p => if tamper.bind (·.badNoncePoint) = some j then p + K256.generator F else p }

/-- The shares on the wire: what the active parties send in place of `pick`. -/
def sentShares (committee : Committee) (active : List PartyId) (send : PartyId → F → F)
    (pick : Nat → Outcome F) : Outcome (PartyMap F) := do
  let l ← active.mapM fun j => do
    let k ← activePosition committee j
    let s ← pick k
    return (j, send j s)
  return collect l

/-- The share of a Beaver product at position `k`. -/
def productShare (triples : List (TripleShare F × TriplePublic G)) (delta eps : F) (k : Nat) : Outcome F := do
  let triple ← nth triples k
  return beaverShare triple.1 delta eps

/-- P2: open `δ`, `ε` (one round, the blame of both is unioned) and `v`. -/
def robustInverse (committee : Committee) (sent : Broadcasts F G) (t1 : List (TripleShare F × TriplePublic G))
    (pub1 : TriplePublic G) (uCom aCom : FeldmanCommitment G) (uShares aShares : List F) :
    Outcome (F × F × F × List PartyId × List PartyId) := do
  let t := committee.t
  let active := committee.ids
  let deltas ← sentShares committee active sent.delta (maskedShare uShares t1 (·.a))
  let epsilons ← sentShares committee active sent.eps (maskedShare aShares t1 (·.b))
  let (delta, bD) ← openRobust t (uCom.add (pub1.ca.scale (-1 : F))) deltas .presign
  let (eps, bE) ← openRobust t (aCom.add (pub1.cb.scale (-1 : F))) epsilons .presign
  let (blamed, active) := expel [] active bD
  let (blamed, active) := expel blamed active bE
  let vCom ← beaverCom pub1 delta eps
  let vShares ← sentShares committee active sent.v (productShare t1 delta eps)
  let (v, bV) ← openRobust t vCom vShares .presign
  return (delta, eps, v, expel blamed active bV)

/-- P3: bad nonce points are filtered and `R` is interpolated over the others. -/
def robustNonce (committee : Committee) (sent : Broadcasts F G) (aCom : FeldmanCommitment G) (aShares : List F)
    (vInv : F) (expelled : List PartyId × List PartyId) : Outcome (G × F × List PartyId × List PartyId) := do
  let (blamed, active) := expelled
  let kCom := aCom.scale vInv
  let points ← active.mapM fun j => do
    let k ← activePosition committee j
    let a ← nth aShares k
    return (j, sent.nonce j ((vInv * a) • K256.generator F))
  let valid := points.filter fun e => e.2 == kCom.evalAt F e.1
  let badPoints := (points.filter fun e => !(e.2 == kCom.evalAt F e.1)).map (·.1)
  if valid.length < committee.t.val then throw (.error (.notEnoughShares valid.length committee.t.val))
  else
    let lambdas : List F ← lagrangeCoeffs (valid.map (·.1))
    let bigR := interpolatePoints lambdas (valid.map (·.2))
    let r : F ← nonceScalar bigR
    return (bigR, r, expel blamed active badPoints)

/-- P4: open `δ'`, `ε'` and write the records of the parties left. -/
def robustBind (committee : Committee) (keys : List (KeyShare F G)) (id : U64) (sent : Broadcasts F G)
    (t2 : List (TripleShare F × TriplePublic G)) (pub2 : TriplePublic G) (uCom : FeldmanCommitment G)
    (uShares : List F) (bigR : G) (r : F) (expelled : List PartyId × List PartyId) :
    Outcome (F × F × List (Presignature F G) × List PartyId) := do
  let t := committee.t
  let (blamed, active) := expelled
  let key0 ← nth keys 0
  let d2 ← sentShares committee active sent.d2 (maskedShare uShares t2 (·.a))
  let e2 ← sentShares committee active sent.e2 (maskedShare (keys.map (·.share)) t2 (·.b))
  let (d2v, bD2) ← openRobust t (uCom.add (pub2.ca.scale (-1 : F))) d2 .presign
  let (e2v, bE2) ← openRobust t (key0.com.add (pub2.cb.scale (-1 : F))) e2 .presign
  let (blamed, active) := expel blamed active bD2
  let (blamed, active) := expel blamed active bE2
  let zCom ← beaverCom pub2 d2v e2v
  let presigs ← active.mapM fun j => do
    let k ← activePosition committee j
    let z ← productShare t2 d2v e2v k
    let u ← nth uShares k
    return (⟨id, j, r, bigR, u, z, uCom, zCom⟩ : Presignature F G)
  return (d2v, e2v, presigs, blamed.insertionSort (· ≤ ·))

/-- What the dealing phases hand to the openings: two triples, `[u]` and `[a]`. -/
abbrev Dealt (F G : Type) := List (TripleShare F × TriplePublic G) × List (TripleShare F × TriplePublic G) ×
  List (DkgOutput F G) × List (DkgOutput F G)

/-- P2–P4 over dealt sharings. -/
def presignRobustOver (committee : Committee) (keys : List (KeyShare F G)) (id : U64) (sent : Broadcasts F G)
    (dealt : Dealt F G) : Outcome (RobustRun F G) := do
  let (t1, t2, uOut, aOut) := dealt
  let pub1 ← nth t1 0
  let pub2 ← nth t2 0
  let u0 ← nth uOut 0
  let a0 ← nth aOut 0
  let uShares := uOut.map (·.share)
  let aShares := aOut.map (·.share)
  let (delta, eps, v, expelled) ← robustInverse committee sent t1 pub1.2 u0.com a0.com uShares aShares
  match invert v with
  | none => throw (.error (.zeroValue "v = 0"))
  | some vInv =>
    let (bigR, r, expelled) ← robustNonce committee sent a0.com aShares vInv expelled
    let (d2v, e2v, presigs, blamed) ←
      robustBind committee keys id sent t2 pub2.2 u0.com uShares bigR r expelled
    return ⟨delta, eps, v, bigR, r, d2v, e2v, presigs, blamed⟩

/-- `presign_robust_with_committee` over honest dealings and arbitrary broadcasts. -/
def presignRobust (committee : Committee) (keys : List (KeyShare F G)) (id : U64) (sent : Broadcasts F G) :
    RngM F (RobustRun F G) := do
  let s ← get
  lift (checkCommitteeInputs committee keys s.rngs.length)
  let dealt ← dealPresign committee id none
  lift (presignRobustOver committee keys id sent dealt)

/-! ## Specification -/

/-- The values prescribed to the party at position `k`, in a run that opened
`delta`, `eps` and `v`. -/
def prescribed (keys : List (KeyShare F G)) (dealt : Dealt F G) (run : RobustRun F G) (k : Nat) :
    Outcome (Prescribed F G) := do
  let (t1, t2, uOut, aOut) := dealt
  let delta ← maskedShare (uOut.map (·.share)) t1 (·.a) k
  let eps ← maskedShare (aOut.map (·.share)) t1 (·.b) k
  let v ← productShare t1 run.delta run.eps k
  let a ← nth aOut k
  let d2 ← maskedShare (uOut.map (·.share)) t2 (·.a) k
  let e2 ← maskedShare (keys.map (·.share)) t2 (·.b) k
  return ⟨delta, eps, v, (run.v⁻¹ * a.share) • K256.generator F, d2, e2⟩

/-- Party `j` sends a value other than the one prescribed. -/
def Broadcasts.wrong (sent : Broadcasts F G) (j : PartyId) (p : Prescribed F G) : Bool :=
  sent.delta j p.delta != p.delta || sent.eps j p.eps != p.eps || sent.v j p.v != p.v ||
    sent.nonce j p.nonce != p.nonce || sent.d2 j p.d2 != p.d2 || sent.e2 j p.e2 != p.e2

/-- The parties that send a wrong value in some round, in id order.  One that is
expelled in a round is not checked again, so these are the parties of whom a
checked value was wrong. -/
def wrongParties (committee : Committee) (keys : List (KeyShare F G)) (dealt : Dealt F G)
    (run : RobustRun F G) (sent : Broadcasts F G) : List PartyId :=
  (committee.ids.zipIdx.filter fun e =>
    match prescribed keys dealt run e.2 with
    | .ok p => sent.wrong e.1 p
    | .error _ => false).map (·.1)

/-- Party `j` sends what is prescribed. -/
structure Broadcasts.HonestAt (sent : Broadcasts F G) (j : PartyId) : Prop where
  delta : ∀ s, sent.delta j s = s
  eps : ∀ s, sent.eps j s = s
  v : ∀ s, sent.v j s = s
  nonce : ∀ p, sent.nonce j p = p
  d2 : ∀ s, sent.d2 j s = s
  e2 : ∀ s, sent.e2 j s = s

/-! ## Lemmas -/

theorem KeySharing.nth_zero {c : Committee} {keys : List (KeyShare F G)} {p : F[X]} (hk : KeySharing c keys p) :
    ∃ key0, nth keys 0 = .ok key0 := by
  obtain ⟨key0, rest, rfl⟩ : ∃ key0 rest, keys = key0 :: rest := by
    refine List.exists_cons_of_ne_nil fun h => c.ids_ne ?_
    rw [← hk.index, h]
    rfl
  exact ⟨key0, rfl⟩

/-! ### Expulsion -/

theorem mem_expel_blamed (blamed active new : List PartyId) (j : PartyId) :
    j ∈ (expel blamed active new).1 ↔ j ∈ blamed ∨ j ∈ new := by
  unfold expel
  induction new generalizing blamed active with
  | nil => simp
  | cons i new ih =>
    rw [List.foldl_cons, ih, List.mem_cons]
    by_cases hi : blamed.contains i
    · have hmem : i ∈ blamed := by simpa using hi
      rw [if_pos hi]
      constructor
      · rintro (h | h)
        · exact Or.inl h
        · exact Or.inr (Or.inr h)
      · rintro (h | rfl | h)
        · exact Or.inl h
        · exact Or.inl hmem
        · exact Or.inr h
    · rw [if_neg hi, List.mem_append, List.mem_singleton, or_assoc]

theorem expel_nodup (blamed active new : List PartyId) (h : blamed.Nodup) : (expel blamed active new).1.Nodup := by
  unfold expel
  induction new generalizing blamed active with
  | nil => exact h
  | cons i new ih =>
    rw [List.foldl_cons]
    refine ih _ _ ?_
    split
    · exact h
    · next hi =>
      refine List.nodup_append.mpr ⟨h, List.nodup_singleton i, fun a ha b hb hab => hi ?_⟩
      rw [List.mem_singleton] at hb
      subst hb
      subst hab
      simpa using ha

theorem expel_active (blamed active new : List PartyId) :
    (expel blamed active new).2 = active.filter fun j => !new.contains j := by
  unfold expel
  induction new generalizing blamed active with
  | nil => simp
  | cons i new ih =>
    rw [List.foldl_cons, ih, List.filter_filter]
    refine List.filter_congr fun j _ => ?_
    by_cases hj : j = i
    · simp [hj]
    · simp [hj]

/-- The blame list and the active set once the parties that satisfy `bad` are out. -/
structure Expelled (ids : List PartyId) (bad : PartyId → Bool) (s : List PartyId × List PartyId) : Prop where
  active : s.2 = ids.filter fun j => !bad j
  nodup : s.1.Nodup
  blamed : ∀ j, j ∈ s.1 ↔ j ∈ ids ∧ bad j = true

theorem expelled_none (ids : List PartyId) : Expelled ids (fun _ => false) ([], ids) where
  active := by simp
  nodup := List.nodup_nil
  blamed := by simp

/-- One round of expulsion: whoever was checked and failed. -/
theorem Expelled.step {ids : List PartyId} {bad failed : PartyId → Bool} {s : List PartyId × List PartyId}
    (h : Expelled ids bad s) (new : List PartyId) (hsound : ∀ j ∈ new, j ∈ ids ∧ failed j = true)
    (hall : ∀ j ∈ ids, bad j = false → failed j = true → j ∈ new) :
    Expelled ids (fun j => bad j || failed j) (expel s.1 s.2 new) where
  active := by
    rw [expel_active, h.active, List.filter_filter]
    refine List.filter_congr fun j hj => ?_
    cases hb : bad j with
    | true => simp
    | false =>
      cases hf : failed j with
      | true => simp [hall j hj hb hf]
      | false =>
        have : j ∉ new := fun hmem => by
          rw [(hsound j hmem).2] at hf
          cases hf
        simp [this]
  nodup := expel_nodup _ _ _ h.nodup
  blamed := by
    intro j
    rw [mem_expel_blamed, h.blamed, Bool.or_eq_true]
    constructor
    · rintro (⟨hj, hb⟩ | hmem)
      · exact ⟨hj, Or.inl hb⟩
      · exact ⟨(hsound j hmem).1, Or.inr (hsound j hmem).2⟩
    · rintro ⟨hj, hb⟩
      cases hbad : bad j with
      | true => exact Or.inl ⟨hj, rfl⟩
      | false => exact Or.inr (hall j hj hbad (hb.resolve_left (by rw [hbad]; simp)))

/-- The sorted blame list is the failing parties in id order. -/
theorem Expelled.sorted {c : Committee} {bad : PartyId → Bool} {s : List PartyId × List PartyId}
    (h : Expelled c.ids bad s) : s.1.insertionSort (· ≤ ·) = c.ids.filter bad := by
  have hperm : (s.1.insertionSort (· ≤ ·)).Perm (c.ids.filter bad) := by
    refine (List.perm_insertionSort _ _).trans ?_
    refine (List.perm_ext_iff_of_nodup h.nodup (c.nodup.filter _)).mpr fun j => ?_
    rw [h.blamed, List.mem_filter]
  have hsorted : (c.ids.filter bad).Pairwise (· ≤ ·) := (c.sorted.imp le_of_lt).sublist List.filter_sublist
  exact hperm.eq_of_pairwise (fun a b _ _ hab hba => le_antisymm hab hba) (List.pairwise_insertionSort _ _) hsorted

/-! ### What is sent -/

theorem activePosition_ok {c : Committee} {j : PartyId} (hj : j ∈ c.ids) :
    ∃ k, activePosition c j = .ok k ∧ (j, k) ∈ c.ids.zipIdx := by
  obtain ⟨k, hk⟩ : ∃ k, c.position j = some k := by
    refine Option.ne_none_iff_exists'.mp fun hnone => ?_
    rw [Committee.position, List.findIdx?_eq_none_iff] at hnone
    exact absurd (hnone j hj) (by simp)
  refine ⟨k, by unfold activePosition; rw [hk], ?_⟩
  rw [Committee.position, List.findIdx?_eq_some_iff_getElem] at hk
  obtain ⟨hlt, heq, -⟩ := hk
  rw [List.mem_zipIdx_iff_getElem?, List.getElem?_eq_getElem hlt]
  exact congrArg some (by simpa using heq)

theorem mem_of_nth {α : Type} {v : List α} {k : Nat} {a : α} (h : nth v k = .ok a) : a ∈ v := by
  unfold nth at h
  split at h
  · next b hb =>
    cases h
    exact List.mem_of_getElem? hb
  · cases h

/-- `pick` gives every member its value of `f`. -/
def PicksAt {α : Type} (c : Committee) (pick : Nat → Outcome α) (f : PartyId → α) : Prop :=
  ∀ e ∈ c.ids.zipIdx, pick e.2 = .ok (f e.1)

theorem sentShares_ok {c : Committee} {active : List PartyId} (hsub : ∀ j ∈ active, j ∈ c.ids)
    (send : PartyId → F → F) {pick : Nat → Outcome F} {f : PartyId → F} (hpick : PicksAt c pick f) :
    sentShares c active send pick = .ok (collect (active.map fun j => (j, send j (f j)))) := by
  unfold sentShares
  rw [mapM_ok_of _ (fun j => (j, send j (f j))) active fun j hj => ?_]
  · rfl
  · obtain ⟨k, hk, hmem⟩ := activePosition_ok (hsub j hj)
    rw [hk]
    simp only [bind, Except.bind, hpick _ hmem]
    rfl

/-- A map collected from a list in key order lists it back. -/
theorem toList_collect {ν : Type} (l : List (PartyId × ν)) (h : (l.map (·.1)).Pairwise (· < ·)) :
    (collect l).toList = l := by
  have hnd : (l.map (·.1)).Nodup := h.imp fun hlt => hlt.ne
  have hperm : (collect l).toList.Perm l := by
    refine (List.perm_ext_iff_of_nodup ?_ (hnd.of_map _)).mpr (mem_toList_collect l hnd)
    exact (nodup_keys_toList (collect l)).of_map _
  have hsorted : (collect l).toList.Pairwise fun a b => a.1 < b.1 :=
    Std.ExtTreeMap.ordered_keys_toList.imp fun {a b} hab => compare_lt_iff_lt.mp hab
  refine hperm.eq_of_pairwise ?_ hsorted (List.pairwise_map.mp h)
  intro a b _ _ hab hba
  exact absurd (hab.trans hba) (lt_irrefl _)

/-- **An opening among the active parties**: the value of the sharing, and the
active parties whose share was not it. -/
theorem openRobust_sent {c : Committee} (bad : PartyId → Bool) (com : FeldmanCommitment G)
    (hdeg : (com.poly F).degree < c.t.val) (f : PartyId → F) (hf : ∀ j, (com.poly F).eval (scalarFrom j) = f j)
    (send : PartyId → F → F) {pick : Nat → Outcome F} (hpick : PicksAt c pick f)
    (hq : c.t.val ≤ (c.ids.filter fun j => !(bad j || send j (f j) != f j)).length) (phase : Phase) :
    ∃ shares, sentShares c (c.ids.filter fun j => !bad j) send pick = .ok shares ∧
      openRobust c.t com shares phase = .ok ((com.poly F).eval 0,
        (c.ids.filter fun j => !bad j).filter fun j => send j (f j) != f j) := by
  refine ⟨_, sentShares_ok (fun j hj => (List.mem_filter.mp hj).1) send hpick, ?_⟩
  have hlist := toList_collect ((c.ids.filter fun j => !bad j).map fun j => (j, send j (f j))) (by
    rw [List.map_map]
    simpa [Function.comp_def] using c.sorted.sublist (List.filter_sublist (p := fun j => !bad j)))
  have hverify : ∀ j, com.verifyShare j (send j (f j)) = (send j (f j) == f j) := by
    intro j
    rw [Bool.eq_iff_iff, verifyShare_iff, hf, beq_iff_eq]
    exact eq_comm
  rw [openRobust_ok c.t com _ phase ?_ hdeg, hlist]
  · simp only [List.filter_map, List.map_map, Function.comp_def, hverify, List.map_id']
    rfl
  · rw [hlist, List.filter_map, List.length_map]
    simp only [Function.comp_def, hverify, List.filter_filter]
    refine hq.trans (le_of_eq (congrArg List.length (List.filter_congr fun j _ => ?_)))
    rw [Bool.not_or, Bool.and_comm, bne, Bool.not_not]

/-! ### The fault hooks -/

theorem bind_map_eq {α β γ : Type} {x : Outcome α} {f : α → Outcome β} {g : α → Outcome γ} {h : γ → β}
    (hfg : ∀ a, f a = (g a).map h) : (x >>= f) = (x >>= g).map h := by
  cases x with
  | error e => rfl
  | ok a => exact hfg a

theorem map_bind_eq {α β γ : Type} (x : Outcome α) (f : α → β) (g : β → Outcome γ) :
    (x.map f >>= g) = x >>= fun a => g (f a) := by
  cases x <;> rfl

theorem mapM_map_right {α β γ : Type} (f : α → Outcome β) (g : β → γ) (l : List α) :
    (l.mapM fun a => (f a).map g) = (l.mapM f).map (List.map g) := by
  induction l with
  | nil => rfl
  | cons a l ih =>
    rw [List.mapM_cons, List.mapM_cons, ih]
    cases f a with
    | error e => rfl
    | ok b => cases l.mapM f <;> rfl

/-- `*s += 1` in the collected map is a wrong share sent. -/
theorem tamperOpen_collect (tamper : Option PresignTamper) (l : List (PartyId × F)) (hnd : (l.map (·.1)).Nodup) :
    tamperOpen tamper (collect l) =
      collect (l.map fun e => (e.1, (Broadcasts.ofTamper (G := G) tamper).v e.1 e.2)) := by
  have hkeys : ((l.map fun e => (e.1, (Broadcasts.ofTamper (G := G) tamper).v e.1 e.2)).map (·.1)).Nodup := by
    rw [List.map_map]
    exact hnd
  have hsame : ∀ i : PartyId, tamper.bind (·.badOpenShare) ≠ some i → ∀ s : F,
      (Broadcasts.ofTamper (G := G) tamper).v i s = s := fun i hi s => if_neg hi
  refine Std.ExtTreeMap.ext_getElem? fun i => ?_
  have hright : (collect (l.map fun e => (e.1, (Broadcasts.ofTamper (G := G) tamper).v e.1 e.2)))[i]? =
      (collect l)[i]?.map ((Broadcasts.ofTamper (G := G) tamper).v i) := by
    by_cases hi : i ∈ l.map (·.1)
    · obtain ⟨⟨i, s⟩, hs, rfl⟩ := List.mem_map.mp hi
      rw [collect_getElem? _ hkeys (List.mem_map.mpr ⟨(i, s), hs, rfl⟩), collect_getElem? l hnd hs]
      rfl
    · rw [collect_getElem?_none l hi, collect_getElem?_none _ (by rw [List.map_map]; exact hi)]
      rfl
  rw [hright]
  unfold tamperOpen
  cases htamper : tamper.bind (·.badOpenShare) with
  | none =>
    have hv : (Broadcasts.ofTamper (G := G) tamper).v i = fun s : F => s :=
      funext (hsame i (by rw [htamper]; simp))
    rw [hv]
    simp
  | some j =>
    simp only
    cases hj : (collect l)[j]? with
    | none =>
      simp only
      by_cases hij : j = i
      · rw [← hij, hj]
        rfl
      · have hv : (Broadcasts.ofTamper (G := G) tamper).v i = fun s : F => s :=
          funext (hsame i (by rw [htamper]; simpa using hij))
        rw [hv]
        simp
    | some s =>
      simp only
      rw [Std.ExtTreeMap.getElem?_insert]
      by_cases hij : j = i
      · subst hij
        rw [if_pos (by simp), hj]
        show some (s + 1) = some (if tamper.bind (·.badOpenShare) = some j then s + 1 else s)
        rw [if_pos htamper]
      · have hv : (Broadcasts.ofTamper (G := G) tamper).v i = fun s : F => s :=
          funext (hsame i (by rw [htamper]; simpa using hij))
        rw [if_neg (compare_ne_eq hij), hv]
        simp

theorem sentShares_ofTamper (tamper : Option PresignTamper) (c : Committee) {active : List PartyId}
    (hnd : active.Nodup) (pick : Nat → Outcome F) :
    sentShares c active (Broadcasts.ofTamper (G := G) tamper).v pick =
      (activeShares c active pick).map (tamperOpen tamper) := by
  unfold sentShares activeShares
  have hmap : (active.mapM fun j => do
      let k ← activePosition c j
      let s ← pick k
      return (j, (Broadcasts.ofTamper (G := G) tamper).v j s) : Outcome (List (PartyId × F))) =
      (active.mapM fun j => do
        let k ← activePosition c j
        let s ← pick k
        return (j, s)).map (List.map fun e : PartyId × F => (e.1, (Broadcasts.ofTamper (G := G) tamper).v e.1 e.2)) := by
    rw [← mapM_map_right]
    refine mapM_congr _ fun j _ => ?_
    cases activePosition c j with
    | error e => rfl
    | ok k =>
      show (pick k >>= _) = Except.map _ (pick k >>= _)
      cases pick k <;> rfl
  rw [hmap]
  cases hl : (active.mapM fun j => do
      let k ← activePosition c j
      let s ← pick k
      return (j, s) : Outcome (List (PartyId × F))) with
  | error e => rfl
  | ok l =>
    have hfst : active.map (fun j => j) = l.map (·.1) := by
      refine forall₂_map_eq ((forall₂_of_mapM_ok _ _ hl).imp fun j e hje => ?_)
      cases hk : activePosition c j with
      | error _ =>
        rw [hk] at hje
        cases hje
      | ok k =>
        rw [hk] at hje
        change (pick k >>= _) = _ at hje
        cases hp : pick k with
        | error _ =>
          rw [hp] at hje
          cases hje
        | ok s =>
          rw [hp] at hje
          cases hje
          rfl
    rw [List.map_id'] at hfst
    show Except.ok _ = Except.ok _
    rw [tamperOpen_collect (G := G) tamper l (hfst ▸ hnd)]

theorem presignRobustFrom_eq (c : Committee) (keys : List (KeyShare F G)) (id : U64) (tamper : Option PresignTamper)
    (t1 t2 : List (TripleShare F × TriplePublic G)) (uOut aOut : List (DkgOutput F G)) :
    presignRobustFrom c keys id tamper t1 t2 uOut aOut =
      (presignRobustOver c keys id (Broadcasts.ofTamper tamper) (t1, t2, uOut, aOut)).map
        fun run => (run.presigs, run.blamed) := by
  unfold presignRobustFrom presignRobustOver robustInverse robustNonce robustBind
  simp only [bind_assoc, pure_bind]
  refine bind_map_eq fun pub1 => bind_map_eq fun pub2 => bind_map_eq fun u0 => bind_map_eq fun a0 => ?_
  refine bind_map_eq fun deltas => bind_map_eq fun epsilons => bind_map_eq fun delta => bind_map_eq fun eps => ?_
  refine bind_map_eq fun vCom => ?_
  have hactive : (expel (expel [] c.ids delta.2).1 (expel [] c.ids delta.2).2 eps.2).2.Nodup := by
    rw [expel_active, expel_active]
    exact (c.nodup.filter _).filter _
  rw [sentShares_ofTamper tamper c hactive, map_bind_eq]
  refine bind_map_eq fun vShares => bind_map_eq fun v => ?_
  generalize expel (expel (expel [] c.ids delta.2).1 (expel [] c.ids delta.2).2 eps.2).1
    (expel (expel [] c.ids delta.2).1 (expel [] c.ids delta.2).2 eps.2).2 v.2 = expelled
  cases hinv : invert v.1 with
  | none => rfl
  | some vInv =>
    have hpoints : (expelled.2.mapM fun j => do
        let k ← activePosition c j
        let rj : G ← noncePoint tamper vInv (aOut.map fun o : DkgOutput F G => o.share) j k
        return (j, rj)) = expelled.2.mapM fun j => do
        let k ← activePosition c j
        let a ← nth (aOut.map fun o : DkgOutput F G => o.share) k
        return (j, (Broadcasts.ofTamper (F := F) (G := G) tamper).nonce j ((vInv * a) • K256.generator F)) := by
      refine mapM_congr _ fun j _ => ?_
      unfold noncePoint
      simp only [bind_assoc, pure_bind]
      rfl
    simp only [hpoints]
    refine bind_map_eq fun points => ?_
    by_cases hlen : (points.filter fun e => e.2 == (a0.com.scale vInv).evalAt F e.1).length < c.t.val
    · rw [if_pos hlen, if_pos hlen]
      rfl
    · rw [if_neg hlen, if_neg hlen]
      simp only [bind_assoc, pure_bind]
      refine bind_map_eq fun lambdas => bind_map_eq fun r => bind_map_eq fun key0 => bind_map_eq fun d2 => ?_
      refine bind_map_eq fun e2 => bind_map_eq fun d2v => bind_map_eq fun e2v => bind_map_eq fun zCom => ?_
      simp only [productShare, bind_assoc, pure_bind]
      exact bind_map_eq fun presigs => rfl

/-- **The source's `presign_robust_with_committee`** is the instance in which the
parties send what its fault hooks say. -/
theorem presignRobust_ofTamper (c : Committee) (keys : List (KeyShare F G)) (id : U64) (tamper : Option PresignTamper)
    (htamper : tamper.bind (·.tripleTamper) = none) (rngs : Rngs F) :
    presignRobustWithCommittee c keys id tamper rngs =
      let out := presignRobust c keys id (Broadcasts.ofTamper tamper) rngs
      (out.1.map fun run => (run.presigs, run.blamed), out.2) := by
  have hdeal : (dealPresign c id tamper : RngM F (Dealt F G)) = dealPresign c id none := by
    unfold dealPresign
    rw [htamper]
    rfl
  show (lift (checkCommitteeInputs c keys rngs.rngs.length) >>= _) rngs =
    let out := (lift (checkCommitteeInputs c keys rngs.rngs.length) >>= _) rngs
    (out.1.map _, out.2)
  rw [lift_bind_run, lift_bind_run]
  cases checkCommitteeInputs c keys rngs.rngs.length with
  | error e => rfl
  | ok _ =>
    show ((dealPresign c id tamper : RngM F (Dealt F G)) >>= _) rngs =
      let out := (dealPresign c id none >>= _) rngs
      (out.1.map _, out.2)
    rw [hdeal, bind_run, bind_run]
    rcases (dealPresign c id none : RngM F (Dealt F G)) rngs with ⟨e | ⟨t1, t2, uOut, aOut⟩, s⟩
    · rfl
    · exact congrArg (·, s) (presignRobustFrom_eq c keys id tamper t1 t2 uOut aOut)

/-! ### The three stages -/

/-- Fewer expelled parties leave no smaller quorum. -/
theorem quorum_mono {t : Nat} {ids : List PartyId} {bad bad' : PartyId → Bool}
    (h : t ≤ (ids.filter fun j => !bad' j).length) (himp : ∀ j, bad j = true → bad' j = true) :
    t ≤ (ids.filter fun j => !bad j).length := by
  refine h.trans (List.Sublist.length_le (List.monotone_filter_right ids fun j hj => ?_))
  rw [Bool.not_eq_true'] at hj ⊢
  by_contra hb
  rw [himp j (by simpa using hb)] at hj
  cases hj

/-- An opening of a sharing masked by one component of a triple, with the
expulsion of whoever sends a wrong share. -/
theorem openRobust_masked {c : Committee} {outs : List (TripleShare F × TriplePublic G)} {pub : TriplePublic G}
    (hbt : BeaverTriple c outs pub) (bad : PartyId → Bool) (xCom mCom : FeldmanCommitment G)
    (mask : TripleShare F → F)
    (hmask : ∀ i, mask ⟨i, (pub.ca.poly F).eval (scalarFrom i), (pub.cb.poly F).eval (scalarFrom i),
      (pub.cc.poly F).eval (scalarFrom i)⟩ = (mCom.poly F).eval (scalarFrom i))
    (hx : (xCom.poly F).degree < c.t.val) (hm : (mCom.poly F).degree < c.t.val) (send : PartyId → F → F)
    (wrong : PartyId → Bool) (hwrong : ∀ j, wrong j = (send j ((xCom.poly F).eval (scalarFrom j) -
      (mCom.poly F).eval (scalarFrom j)) != (xCom.poly F).eval (scalarFrom j) - (mCom.poly F).eval (scalarFrom j)))
    (hq : c.t.val ≤ (c.ids.filter fun j => !(bad j || wrong j)).length) :
    ∃ shares, sentShares c (c.ids.filter fun j => !bad j) send
        (maskedShare (c.ids.map fun i => (xCom.poly F).eval (scalarFrom i)) outs mask) = .ok shares ∧
      openRobust c.t (xCom.add (mCom.scale (-1 : F))) shares .presign =
        .ok ((xCom.poly F).eval 0 - (mCom.poly F).eval 0, (c.ids.filter fun j => !bad j).filter wrong) := by
  have hpoly : (xCom.add (mCom.scale (-1 : F))).poly F = xCom.poly F + C (-1) * mCom.poly F := by
    rw [poly_add, poly_scale]
  obtain rfl : wrong = fun j => send j ((xCom.poly F).eval (scalarFrom j) - (mCom.poly F).eval (scalarFrom j)) !=
      (xCom.poly F).eval (scalarFrom j) - (mCom.poly F).eval (scalarFrom j) := funext hwrong
  have hdeg : ((xCom.add (mCom.scale (-1 : F))).poly F).degree < c.t.val := by
    rw [hpoly]
    exact degree_add_lt hx (degree_C_mul_lt _ hm)
  have hval : ∀ a : F, ((xCom.add (mCom.scale (-1 : F))).poly F).eval a = (xCom.poly F).eval a - (mCom.poly F).eval a := by
    intro a
    rw [hpoly]
    simp [sub_eq_add_neg]
  have hpick : PicksAt c (maskedShare (c.ids.map fun i => (xCom.poly F).eval (scalarFrom i)) outs mask)
      fun j => (xCom.poly F).eval (scalarFrom j) - (mCom.poly F).eval (scalarFrom j) := by
    intro e he
    unfold maskedShare
    rw [hbt.outs_eq, nth_map_of_mem _ _ he, nth_map_of_mem _ _ he]
    simp only [bind, Except.bind, hmask]
    rfl
  obtain ⟨shares, hshares, hopen⟩ := openRobust_sent bad _ hdeg _ (fun j => hval (scalarFrom j)) send hpick hq .presign
  exact ⟨shares, hshares, by rw [hopen, hval]⟩

theorem picksAt_product {c : Committee} {outs : List (TripleShare F × TriplePublic G)} {pub : TriplePublic G}
    (hbt : BeaverTriple c outs pub) (delta eps : F) {f : PartyId → F}
    (hf : ∀ i, f i = beaverShare ⟨i, (pub.ca.poly F).eval (scalarFrom i), (pub.cb.poly F).eval (scalarFrom i),
      (pub.cc.poly F).eval (scalarFrom i)⟩ delta eps) : PicksAt c (productShare outs delta eps) f := by
  intro e he
  unfold productShare
  rw [hbt.outs_eq, nth_map_of_mem _ _ he, hf]
  rfl

/-- What the parties are to send, from the dealt polynomials. -/
noncomputable def ideal (pub1 pub2 : TriplePublic G) (uCom aCom keyCom : FeldmanCommitment G) (j : PartyId) :
    Prescribed F G :=
  let atJ := fun com : FeldmanCommitment G => (com.poly F).eval (scalarFrom j)
  let atZero := fun com : FeldmanCommitment G => (com.poly F).eval 0
  { delta := atJ uCom - atJ pub1.ca
    eps := atJ aCom - atJ pub1.cb
    v := beaverShare ⟨j, atJ pub1.ca, atJ pub1.cb, atJ pub1.cc⟩ (atZero uCom - atZero pub1.ca)
      (atZero aCom - atZero pub1.cb)
    nonce := ((atZero uCom * atZero aCom)⁻¹ * atJ aCom) • K256.generator F
    d2 := atJ uCom - atJ pub2.ca
    e2 := atJ keyCom - atJ pub2.cb }

section Stages

variable {c : Committee} {t1 t2 : List (TripleShare F × TriplePublic G)} {pub1 pub2 : TriplePublic G}
  (h1 : BeaverTriple c t1 pub1) (h2 : BeaverTriple c t2 pub2) (uCom aCom keyCom : FeldmanCommitment G)
  (hu : (uCom.poly F).degree < c.t.val) (ha : (aCom.poly F).degree < c.t.val) (sent : Broadcasts F G)

/-- Party `j` fails an opening of P2. -/
def Broadcasts.failsP2 (sent : Broadcasts F G) (j : PartyId) (p : Prescribed F G) : Bool :=
  sent.delta j p.delta != p.delta || sent.eps j p.eps != p.eps || sent.v j p.v != p.v

include h1 hu ha

theorem robustInverse_ok (hq : c.t.val ≤ (c.ids.filter fun j =>
      !sent.failsP2 j (ideal pub1 pub2 uCom aCom keyCom j)).length) :
    ∃ expelled, robustInverse c sent t1 pub1 uCom aCom (c.ids.map fun i => (uCom.poly F).eval (scalarFrom i))
        (c.ids.map fun i => (aCom.poly F).eval (scalarFrom i)) =
        .ok ((uCom.poly F).eval 0 - (pub1.ca.poly F).eval 0, (aCom.poly F).eval 0 - (pub1.cb.poly F).eval 0,
          (uCom.poly F).eval 0 * (aCom.poly F).eval 0, expelled) ∧
      Expelled c.ids (fun j => sent.failsP2 j (ideal pub1 pub2 uCom aCom keyCom j)) expelled := by
  generalize hp : (ideal pub1 pub2 uCom aCom keyCom : PartyId → Prescribed F G) = p at *
  obtain ⟨hca, hcb, -⟩ := beaver_degrees h1
  obtain ⟨deltas, hdeltas, hdelta⟩ := openRobust_masked h1 (fun _ => false) uCom pub1.ca (·.a) (fun _ => rfl)
    hu hca sent.delta (fun j => sent.delta j (p j).delta != (p j).delta) (fun j => by rw [← hp]; rfl)
    (quorum_mono hq fun j hj => by simp_all [Broadcasts.failsP2])
  obtain ⟨epsilons, hepsilons, heps⟩ := openRobust_masked h1 (fun _ => false) aCom pub1.cb (·.b) (fun _ => rfl)
    ha hcb sent.eps (fun j => sent.eps j (p j).eps != (p j).eps) (fun j => by rw [← hp]; rfl)
    (quorum_mono hq fun j hj => by simp_all [Broadcasts.failsP2])
  simp only [Bool.not_false, List.filter_true] at hdeltas hdelta hepsilons heps
  obtain ⟨vCom, hvCom, hvdeg, hv, hvshare⟩ := beaver_ok h1 ((uCom.poly F).eval 0) ((aCom.poly F).eval 0)
  have hD := (expelled_none c.ids).step (c.ids.filter fun j => sent.delta j (p j).delta != (p j).delta)
    (fun j hj => List.mem_filter.mp hj) (fun j hj _ hbad => List.mem_filter.mpr ⟨hj, hbad⟩)
  have hE := hD.step (c.ids.filter fun j => sent.eps j (p j).eps != (p j).eps)
    (fun j hj => List.mem_filter.mp hj) (fun j hj _ hbad => List.mem_filter.mpr ⟨hj, hbad⟩)
  obtain ⟨vShares, hvs, hvopen⟩ := openRobust_sent
    (fun j => sent.delta j (p j).delta != (p j).delta || sent.eps j (p j).eps != (p j).eps) vCom hvdeg
    (fun j => (p j).v) (fun j => by rw [← hvshare, ← hp]; rfl) sent.v
    (picksAt_product h1 _ _ fun j => by rw [← hp]; rfl) hq .presign
  have hV := hE.step ((c.ids.filter fun j => !(sent.delta j (p j).delta != (p j).delta ||
      sent.eps j (p j).eps != (p j).eps)).filter fun j => sent.v j (p j).v != (p j).v)
    (fun j hj => ⟨(List.mem_filter.mp (List.mem_filter.mp hj).1).1, (List.mem_filter.mp hj).2⟩)
    (fun j hj hok hbad => List.mem_filter.mpr ⟨List.mem_filter.mpr ⟨hj, by simpa using hok⟩, hbad⟩)
  simp only [Bool.false_or] at hE hV
  refine ⟨_, ?_, hV⟩
  unfold robustInverse
  simp only [hdeltas, hepsilons, hdelta, heps, hvCom, hE.active, hvs, hvopen, bind, Except.bind]
  rw [hv]
  rfl

omit h1 hu in
/-- **P3**: the valid nonce points interpolate to `R = (vInv·a)·G`. -/
theorem robustNonce_ok {bad : PartyId → Bool} {expelled : List PartyId × List PartyId}
    (hex : Expelled c.ids bad expelled) (vInv : F) (wrong : PartyId → Bool)
    (hwrong : ∀ j, wrong j = (sent.nonce j ((vInv * (aCom.poly F).eval (scalarFrom j)) • K256.generator F) !=
      (vInv * (aCom.poly F).eval (scalarFrom j)) • K256.generator F))
    (hq : c.t.val ≤ (c.ids.filter fun j => !(bad j || wrong j)).length) :
    ∃ expelled', robustNonce c sent aCom (c.ids.map fun i => (aCom.poly F).eval (scalarFrom i)) vInv expelled = (do
        let r : F ← nonceScalar ((vInv * (aCom.poly F).eval 0) • K256.generator F : G)
        return ((vInv * (aCom.poly F).eval 0) • K256.generator F, r, expelled')) ∧
      Expelled c.ids (fun j => bad j || wrong j) expelled' := by
  generalize hP : (fun j : PartyId => (vInv * (aCom.poly F).eval (scalarFrom j)) • (K256.generator F : G)) = P
  have hPj : ∀ j : PartyId, (vInv * (aCom.poly F).eval (scalarFrom j)) • (K256.generator F : G) = P j :=
    fun j => congrFun hP j
  obtain ⟨blamed, active⟩ := expelled
  have hactive : active = c.ids.filter fun j => !bad j := hex.active
  have hpoints : (active.mapM fun j => do
      let k ← activePosition c j
      let a ← nth (c.ids.map fun i => (aCom.poly F).eval (scalarFrom i)) k
      return (j, sent.nonce j ((vInv * a) • K256.generator F)) : Outcome (List (PartyId × G))) =
      .ok (active.map fun j => (j, sent.nonce j (P j))) := by
    refine mapM_ok_of _ _ _ fun j hj => ?_
    rw [hactive] at hj
    obtain ⟨k, hk, hmem⟩ := activePosition_ok (List.mem_filter.mp hj).1
    rw [hk]
    simp only [bind, Except.bind]
    rw [nth_map_of_mem _ _ hmem, ← hPj]
    rfl
  have hcheck : ∀ j, (sent.nonce j (P j) == (aCom.scale vInv).evalAt F j) = !wrong j := by
    intro j
    rw [evalAt_eq, poly_scale, eval_mul, eval_C, hPj, hwrong, hPj, bne, Bool.not_not]
  -- the valid points are the prescribed ones
  have hvalid : (active.map fun j => (j, sent.nonce j (P j))).filter
      (fun e => e.2 == (aCom.scale vInv).evalAt F e.1) =
      (active.filter fun j => !wrong j).map fun j => (j, P j) := by
    rw [List.filter_map]
    simp only [Function.comp_def, hcheck]
    refine List.map_congr_left fun j hj => ?_
    have hgood : wrong j = false := by simpa using (List.mem_filter.mp hj).2
    rw [hwrong, hPj] at hgood
    rw [show sent.nonce j (P j) = P j by simpa using hgood]
  have hsenders : active.filter (fun j => !wrong j) = c.ids.filter fun j => !(bad j || wrong j) := by
    rw [hactive, List.filter_filter]
    exact List.filter_congr fun j _ => by rw [Bool.not_or, Bool.and_comm]
  have hbadpoints : ((active.map fun j => (j, sent.nonce j (P j))).filter
      (fun e => !(e.2 == (aCom.scale vInv).evalAt F e.1))).map (·.1) = active.filter wrong := by
    rw [List.filter_map, List.map_map]
    simp only [Function.comp_def, hcheck, Bool.not_not, List.map_id']
  have hstep := hex.step (active.filter wrong)
    (fun j hj => ⟨by
      have := (List.mem_filter.mp hj).1
      rw [hactive] at this
      exact (List.mem_filter.mp this).1, (List.mem_filter.mp hj).2⟩)
    (fun j hj hok hbad => List.mem_filter.mpr ⟨by
      rw [hactive]
      exact List.mem_filter.mpr ⟨hj, by rw [hok]; rfl⟩, hbad⟩)
  refine ⟨_, ?_, hstep⟩
  generalize hS : (c.ids.filter fun j => !(bad j || wrong j)) = S at hq hsenders
  have hnd : S.Nodup := hS ▸ c.nodup.filter _
  have hint := sum_weight_mul_eval 0 _ (map_scalarFrom_nodup F G hnd) (C vInv * aCom.poly F) (by
    rw [List.length_map]
    exact degree_C_mul_lt _ (lt_of_lt_of_le ha (by exact_mod_cast hq)))
  rw [List.map_map, eval_mul, eval_C] at hint
  simp only [Function.comp_def, eval_mul, eval_C] at hint
  have hlam := lagrangeCoeffsAt_eq (0 : F) S (map_scalarFrom_nodup F G hnd)
  unfold robustNonce
  simp only
  rw [hpoints]
  simp only [bind, Except.bind]
  rw [hvalid, hbadpoints, hsenders, List.length_map, if_neg (by omega), List.map_map, List.map_map]
  simp only [Function.comp_def, List.map_id', lagrangeCoeffs, hlam, ← hP]
  rw [interpolatePoints_eq, hint]

include h2 in
omit h1 ha in
/-- **P4**: records of `z = u·x` for the parties left. -/
theorem robustBind_ok {keys : List (KeyShare F G)} {key0 : KeyShare F G} {p : F[X]} (hk : KeySharing c keys p)
    (hkey0 : nth keys 0 = .ok key0) (hp : key0.com.poly F = p) {zCom : FeldmanCommitment G}
    (hz : beaverCom pub2 ((uCom.poly F).eval 0 - (pub2.ca.poly F).eval 0)
      ((key0.com.poly F).eval 0 - (pub2.cb.poly F).eval 0) = .ok zCom)
    (hzshare : ∀ i, beaverShare ⟨i, (pub2.ca.poly F).eval (scalarFrom i), (pub2.cb.poly F).eval (scalarFrom i),
      (pub2.cc.poly F).eval (scalarFrom i)⟩ ((uCom.poly F).eval 0 - (pub2.ca.poly F).eval 0)
      ((key0.com.poly F).eval 0 - (pub2.cb.poly F).eval 0) = (zCom.poly F).eval (scalarFrom i))
    (id : U64) (bigR : G) (r : F) {bad wrongD wrongE : PartyId → Bool} {expelled : List PartyId × List PartyId}
    (hex : Expelled c.ids bad expelled)
    (hwrongD : ∀ j, wrongD j = (sent.d2 j ((uCom.poly F).eval (scalarFrom j) - (pub2.ca.poly F).eval (scalarFrom j)) !=
      (uCom.poly F).eval (scalarFrom j) - (pub2.ca.poly F).eval (scalarFrom j)))
    (hwrongE : ∀ j, wrongE j = (sent.e2 j ((key0.com.poly F).eval (scalarFrom j) - (pub2.cb.poly F).eval (scalarFrom j)) !=
      (key0.com.poly F).eval (scalarFrom j) - (pub2.cb.poly F).eval (scalarFrom j)))
    (hq : c.t.val ≤ (c.ids.filter fun j => !(bad j || wrongD j || wrongE j)).length) :
    robustBind c keys id sent t2 pub2 uCom (c.ids.map fun i => (uCom.poly F).eval (scalarFrom i)) bigR r expelled =
      .ok ((uCom.poly F).eval 0 - (pub2.ca.poly F).eval 0, (key0.com.poly F).eval 0 - (pub2.cb.poly F).eval 0,
        (c.ids.filter fun j => !(bad j || wrongD j || wrongE j)).map fun i =>
          ⟨id, i, r, bigR, (uCom.poly F).eval (scalarFrom i), (zCom.poly F).eval (scalarFrom i), uCom, zCom⟩,
        c.ids.filter fun j => bad j || wrongD j || wrongE j) := by
  obtain ⟨hca, hcb, -⟩ := beaver_degrees h2
  obtain ⟨blamed, active⟩ := expelled
  obtain rfl : active = c.ids.filter fun j => !bad j := hex.active
  have hshares : keys.map (·.share) = c.ids.map fun i => (key0.com.poly F).eval (scalarFrom i) := by
    rw [← hk.index, List.map_map, hp]
    exact List.map_congr_left fun key hmem => hk.share key hmem
  obtain ⟨d2, hd2, hd2v⟩ := openRobust_masked h2 bad uCom pub2.ca (·.a) (fun _ => rfl)
    hu hca sent.d2 wrongD hwrongD (quorum_mono hq fun j hj => by rw [hj]; rfl)
  obtain ⟨e2, he2, he2v⟩ := openRobust_masked h2 bad key0.com pub2.cb (·.b) (fun _ => rfl)
    (by rw [hp]; exact hk.degree) hcb sent.e2 wrongE hwrongE (quorum_mono hq fun j hj => by
      rcases Bool.or_eq_true _ _ ▸ hj with h | h <;> simp [h])
  have hD := hex.step ((c.ids.filter fun j => !bad j).filter wrongD)
    (fun j hj => ⟨(List.mem_filter.mp (List.mem_filter.mp hj).1).1, (List.mem_filter.mp hj).2⟩)
    (fun j hj hok hbad => List.mem_filter.mpr ⟨List.mem_filter.mpr ⟨hj, by rw [hok]; rfl⟩, hbad⟩)
  have hE := hD.step ((c.ids.filter fun j => !bad j).filter wrongE)
    (fun j hj => ⟨(List.mem_filter.mp (List.mem_filter.mp hj).1).1, (List.mem_filter.mp hj).2⟩)
    (fun j hj hok hbad => List.mem_filter.mpr ⟨List.mem_filter.mpr ⟨hj, by
      rw [(Bool.or_eq_false_iff.mp hok).1]
      rfl⟩, hbad⟩)
  have hrecords : ((c.ids.filter fun j => !(bad j || wrongD j || wrongE j)).mapM fun j => do
      let k ← activePosition c j
      let z ← productShare t2 ((uCom.poly F).eval 0 - (pub2.ca.poly F).eval 0)
        ((key0.com.poly F).eval 0 - (pub2.cb.poly F).eval 0) k
      let u ← nth (c.ids.map fun i => (uCom.poly F).eval (scalarFrom i)) k
      return (⟨id, j, r, bigR, u, z, uCom, zCom⟩ : Presignature F G) : Outcome (List (Presignature F G))) =
      .ok ((c.ids.filter fun j => !(bad j || wrongD j || wrongE j)).map fun i =>
        ⟨id, i, r, bigR, (uCom.poly F).eval (scalarFrom i), (zCom.poly F).eval (scalarFrom i), uCom, zCom⟩) := by
    refine mapM_ok_of _ _ _ fun j hj => ?_
    obtain ⟨k, hk, hmem⟩ := activePosition_ok (List.mem_filter.mp hj).1
    rw [hk]
    simp only [bind, Except.bind]
    rw [picksAt_product h2 _ _ (fun i => (hzshare i).symm) _ hmem]
    simp only
    rw [nth_map_of_mem _ _ hmem]
    rfl
  unfold robustBind
  simp only [hkey0, hshares, hd2, he2, hd2v, he2v, hz, bind, Except.bind] at hrecords ⊢
  rw [hE.active, hrecords]
  simp only [hE.sorted]
  rfl

include h2 in
/-- **Every choice of broadcasts that leaves a quorum ends alike**: the same zero
value, or the same opened values and the records of whoever sent no wrong value. -/
theorem presignRobustOver_cases {keys : List (KeyShare F G)} {key0 : KeyShare F G} {p : F[X]}
    (hk : KeySharing c keys p) (hkey0 : nth keys 0 = .ok key0) (id : U64) :
    (∃ msg, ∀ sent : Broadcasts F G,
      c.t.val ≤ (c.ids.filter fun j => !sent.wrong j (ideal pub1 pub2 uCom aCom key0.com j)).length →
      presignRobustOver c keys id sent (t1, t2, c.ids.map fun i => ⟨i, (uCom.poly F).eval (scalarFrom i), uCom⟩,
        c.ids.map fun i => ⟨i, (aCom.poly F).eval (scalarFrom i), aCom⟩) = .error (.error (.zeroValue msg))) ∨
    ∃ d2v e2v zCom k r ps, Presigned c (p.eval 0) id ps uCom zCom k r ∧ ∀ sent : Broadcasts F G,
      c.t.val ≤ (c.ids.filter fun j => !sent.wrong j (ideal pub1 pub2 uCom aCom key0.com j)).length →
      presignRobustOver c keys id sent (t1, t2, c.ids.map fun i => ⟨i, (uCom.poly F).eval (scalarFrom i), uCom⟩,
        c.ids.map fun i => ⟨i, (aCom.poly F).eval (scalarFrom i), aCom⟩) =
        .ok ⟨(uCom.poly F).eval 0 - (pub1.ca.poly F).eval 0, (aCom.poly F).eval 0 - (pub1.cb.poly F).eval 0,
          (uCom.poly F).eval 0 * (aCom.poly F).eval 0, k • K256.generator F, r, d2v, e2v,
          ps.filter fun q => !sent.wrong q.index (ideal pub1 pub2 uCom aCom key0.com q.index),
          c.ids.filter fun j => sent.wrong j (ideal pub1 pub2 uCom aCom key0.com j)⟩ := by
  have hp : key0.com.poly F = p := hk.com key0 (mem_of_nth hkey0)
  obtain ⟨s1, hs1⟩ := h1.nth_zero
  obtain ⟨s2, hs2⟩ := h2.nth_zero
  obtain ⟨i1, -, hi1⟩ := nth_zero_map c fun i => (⟨i, (uCom.poly F).eval (scalarFrom i), uCom⟩ : DkgOutput F G)
  obtain ⟨i2, -, hi2⟩ := nth_zero_map c fun i => (⟨i, (aCom.poly F).eval (scalarFrom i), aCom⟩ : DkgOutput F G)
  obtain ⟨zCom, hz, hzdeg, hzval, hzshare⟩ := beaver_ok h2 ((uCom.poly F).eval 0) ((key0.com.poly F).eval 0)
  -- P2, whatever is sent
  have hP2 : ∀ sent : Broadcasts F G,
      c.t.val ≤ (c.ids.filter fun j => !sent.wrong j (ideal pub1 pub2 uCom aCom key0.com j)).length → _ := fun sent hq =>
    robustInverse_ok h1 uCom aCom key0.com hu ha sent
        (quorum_mono hq fun j hj => by
          simp only [Broadcasts.wrong, Bool.or_eq_true]
          exact Or.inl (Or.inl (Or.inl (by simpa only [Broadcasts.failsP2, Bool.or_eq_true] using hj))))
  generalize hv : (uCom.poly F).eval 0 * (aCom.poly F).eval 0 = v at hP2
  by_cases hv0 : v = 0
  · refine Or.inl ⟨"v = 0", fun sent hq => ?_⟩
    obtain ⟨expelled, hrun, -⟩ := hP2 sent hq
    unfold presignRobustOver
    simp only [hs1, hs2, hi1, hi2, List.map_map, Function.comp_def, hrun, bind, Except.bind, invert, hv0, if_true]
    rfl
  · have ha0 : (aCom.poly F).eval 0 ≠ 0 := fun h => hv0 (by rw [← hv, h, mul_zero])
    have hk0 : v⁻¹ * (aCom.poly F).eval 0 ≠ 0 := mul_ne_zero (inv_ne_zero hv0) ha0
    have hinv : (uCom.poly F).eval 0 * (v⁻¹ * (aCom.poly F).eval 0) = 1 := by
      rw [← mul_assoc, mul_comm _ v⁻¹, mul_assoc, hv, inv_mul_cancel₀ hv0]
    -- P3, whatever is sent
    have hP3 : ∀ sent : Broadcasts F G, ∀ expelled,
        c.t.val ≤ (c.ids.filter fun j => !sent.wrong j (ideal pub1 pub2 uCom aCom key0.com j)).length →
        Expelled c.ids (fun j => sent.failsP2 j (ideal pub1 pub2 uCom aCom key0.com j)) expelled → _ :=
      fun sent expelled hq hex => robustNonce_ok aCom ha sent hex v⁻¹
        (fun j => sent.nonce j (ideal pub1 pub2 uCom aCom key0.com j).nonce !=
          (ideal pub1 pub2 uCom aCom key0.com j).nonce) (fun j => by rw [← hv]; rfl)
        (quorum_mono hq fun j hj => by
          simp only [Broadcasts.wrong, Bool.or_eq_true]
          exact Or.inl (Or.inl (by simpa only [Broadcasts.failsP2, Bool.or_eq_true] using hj)))
    rcases nonceScalar_cases (G := G) hk0 with ⟨r, hr, hrne, hx⟩ | hr
    · refine Or.inr ⟨(uCom.poly F).eval 0 - (pub2.ca.poly F).eval 0,
        (key0.com.poly F).eval 0 - (pub2.cb.poly F).eval 0, zCom, v⁻¹ * (aCom.poly F).eval 0, r, _,
        ⟨⟨hu, hzdeg, hinv, by rw [hzval, hp], hx, hrne⟩, rfl⟩, fun sent hq => ?_⟩
      obtain ⟨expelled, hrun, hex⟩ := hP2 sent hq
      obtain ⟨expelled', hrun', hex'⟩ := hP3 sent expelled hq hex
      have hbind := robustBind_ok h2 uCom hu sent hk hkey0 hp hz hzshare id
        ((v⁻¹ * (aCom.poly F).eval 0) • K256.generator F) r hex' (fun _ => rfl) (fun _ => rfl) hq
      unfold presignRobustOver
      simp only [hs1, hs2, hi1, hi2, List.map_map, Function.comp_def, hrun, bind, Except.bind, invert, hv0, if_false,
        hrun', hr, pure, Except.pure, hbind, List.filter_map]
      rfl
    · refine Or.inl ⟨"r = 0", fun sent hq => ?_⟩
      obtain ⟨expelled, hrun, hex⟩ := hP2 sent hq
      obtain ⟨expelled', hrun', -⟩ := hP3 sent expelled hq hex
      unfold presignRobustOver
      simp only [hs1, hs2, hi1, hi2, List.map_map, Function.comp_def, hrun, bind, Except.bind, invert, hv0, if_false,
        hrun', hr]

end Stages

theorem Broadcasts.HonestAt.not_wrong {sent : Broadcasts F G} {j : PartyId} (h : sent.HonestAt j) (q : Prescribed F G) :
    sent.wrong j q = false := by
  unfold Broadcasts.wrong
  rw [h.delta, h.eps, h.v, h.nonce, h.d2, h.e2]
  simp

theorem ofTamper_honestAt {tamper : Option PresignTamper} {j : PartyId}
    (hopen : tamper.bind (·.badOpenShare) ≠ some j) (hnonce : tamper.bind (·.badNoncePoint) ≠ some j) :
    (Broadcasts.ofTamper tamper : Broadcasts F G).HonestAt j :=
  ⟨fun _ => rfl, fun _ => rfl, fun _ => if_neg hopen, fun _ => if_neg hnonce, fun _ => rfl, fun _ => rfl⟩

theorem honest_honestAt (j : PartyId) : (Broadcasts.honest : Broadcasts F G).HonestAt j :=
  ⟨fun _ => rfl, fun _ => rfl, fun _ => rfl, fun _ => rfl, fun _ => rfl, fun _ => rfl⟩

/-- `t` honest members are a quorum whatever the others send. -/
theorem honest_quorum {c : Committee} {sent : Broadcasts F G} {honest : List PartyId} (hnd : honest.Nodup)
    (hlen : c.t.val ≤ honest.length) (hh : ∀ j ∈ honest, j ∈ c.ids ∧ sent.HonestAt j)
    (q : PartyId → Prescribed F G) : c.t.val ≤ (c.ids.filter fun j => !sent.wrong j (q j)).length := by
  refine hlen.trans (List.subperm_of_subset hnd fun j hj => ?_).length_le
  refine List.mem_filter.mpr ⟨(hh j hj).1, ?_⟩
  rw [(hh j hj).2.not_wrong]
  rfl

/-- The code's own values are the ideal ones. -/
theorem prescribed_ok {c : Committee} {t1 t2 : List (TripleShare F × TriplePublic G)} {pub1 pub2 : TriplePublic G}
    (h1 : BeaverTriple c t1 pub1) (h2 : BeaverTriple c t2 pub2) (uCom aCom : FeldmanCommitment G)
    {keys : List (KeyShare F G)} {key0 : KeyShare F G} {p : F[X]} (hk : KeySharing c keys p)
    (hp : key0.com.poly F = p) (run : RobustRun F G)
    (hdelta : run.delta = (uCom.poly F).eval 0 - (pub1.ca.poly F).eval 0)
    (heps : run.eps = (aCom.poly F).eval 0 - (pub1.cb.poly F).eval 0)
    (hv : run.v = (uCom.poly F).eval 0 * (aCom.poly F).eval 0) (e : PartyId × Nat) (he : e ∈ c.ids.zipIdx) :
    prescribed keys (t1, t2, c.ids.map fun i => ⟨i, (uCom.poly F).eval (scalarFrom i), uCom⟩,
      c.ids.map fun i => ⟨i, (aCom.poly F).eval (scalarFrom i), aCom⟩) run e.2 =
      .ok (ideal pub1 pub2 uCom aCom key0.com e.1) := by
  have hshares : keys.map (·.share) = c.ids.map fun i => (key0.com.poly F).eval (scalarFrom i) := by
    rw [← hk.index, List.map_map, hp]
    exact List.map_congr_left fun key hmem => hk.share key hmem
  unfold prescribed maskedShare productShare
  simp only [hshares, h1.outs_eq, h2.outs_eq, List.map_map, Function.comp_def]
  simp only [nth_map_of_mem _ _ he, hdelta, heps, hv]
  rfl

theorem wrongParties_eq {c : Committee} {t1 t2 : List (TripleShare F × TriplePublic G)} {pub1 pub2 : TriplePublic G}
    (h1 : BeaverTriple c t1 pub1) (h2 : BeaverTriple c t2 pub2) (uCom aCom : FeldmanCommitment G)
    {keys : List (KeyShare F G)} {key0 : KeyShare F G} {p : F[X]} (hk : KeySharing c keys p)
    (hp : key0.com.poly F = p) (run : RobustRun F G)
    (hdelta : run.delta = (uCom.poly F).eval 0 - (pub1.ca.poly F).eval 0)
    (heps : run.eps = (aCom.poly F).eval 0 - (pub1.cb.poly F).eval 0)
    (hv : run.v = (uCom.poly F).eval 0 * (aCom.poly F).eval 0) (sent : Broadcasts F G) :
    wrongParties c keys (t1, t2, c.ids.map fun i => ⟨i, (uCom.poly F).eval (scalarFrom i), uCom⟩,
      c.ids.map fun i => ⟨i, (aCom.poly F).eval (scalarFrom i), aCom⟩) run sent =
      c.ids.filter fun j => sent.wrong j (ideal pub1 pub2 uCom aCom key0.com j) := by
  have hfst : c.ids = c.ids.zipIdx.map (·.1) := (List.zipIdx_map_fst 0 c.ids).symm
  unfold wrongParties
  conv_rhs => rw [hfst, List.filter_map]
  refine congrArg _ (List.filter_congr fun e he => ?_)
  rw [prescribed_ok h1 h2 uCom aCom hk hp run hdelta heps hv e he]
  rfl

theorem Presigned.index_mem {c : Committee} {x : F} {id : U64} {ps : List (Presignature F G)}
    {uCom zCom : FeldmanCommitment G} {k r : F} (h : Presigned c x id ps uCom zCom k r) {q : Presignature F G}
    (hq : q ∈ ps) : q.index ∈ c.ids := by
  rw [h.ps_eq] at hq
  obtain ⟨i, hi, rfl⟩ := List.mem_map.mp hq
  exact hi

/-! ## Top theorem -/

/-- **Output delivery**: with at least `t` members honest, whatever the others
broadcast, an instance ends as the honest one on the same randomness, with the
same zero value or the same opened values and nonce; it blames exactly the
senders of a wrong value, the others get their records, and any `t` of these
sign. -/
theorem presignRobust_delivers (c : Committee) (ht : 2 * c.t.val ≤ c.n + 1) (keys : List (KeyShare F G)) (p : F[X])
    (hk : KeySharing c keys p) (id : U64) (sent : Broadcasts F G) (honest : List PartyId) (hnd : honest.Nodup)
    (hlen : c.t.val ≤ honest.length) (hh : ∀ j ∈ honest, j ∈ c.ids ∧ sent.HonestAt j) (rngs : Rngs F)
    (hrngs : c.n ≤ rngs.rngs.length) :
    ∃ dealt s, dealPresign c id none rngs = (.ok dealt, s) ∧
      ((∃ msg, presignRobust c keys id .honest rngs = (.error (.error (.zeroValue msg)), s) ∧
        presignRobust c keys id sent rngs = (.error (.error (.zeroValue msg)), s)) ∨
      ∃ run uCom zCom k, presignRobust c keys id .honest rngs = (.ok run, s) ∧
        Presigned c (p.eval 0) id run.presigs uCom zCom k run.r ∧ run.bigR = k • K256.generator F ∧ run.blamed = [] ∧
        ∃ left, left = run.presigs.filter (fun q => q.index ∉ wrongParties c keys dealt run sent) ∧
          presignRobust c keys id sent rngs =
            (.ok { run with presigs := left, blamed := wrongParties c keys dealt run sent }, s) ∧
          c.t.val ≤ left.length ∧
          ∀ params : Params, params.t = c.t → ∀ sub : List (Presignature F G), sub ⊆ left →
            (sub.map (·.index)).Nodup → c.t.val ≤ sub.length → ∀ m : F, ∀ record ∈ left,
              combine params record m (sub.map fun q => signShare q m) =
                .ok (run.r, (uCom.poly F).eval 0 * (m + run.r * p.eval 0)) ∧
              (m + run.r * p.eval 0 ≠ 0 → ∃ sig,
                finishSignature G run.r ((uCom.poly F).eval 0 * (m + run.r * p.eval 0)) = .ok sig ∧
                sig.Verifies (p.eval 0 • K256.generator F : G) m ∧ sig.LowS G)) := by
  obtain ⟨dealt, s, hdeal, -, hdealt⟩ := (dealPresign_triple (F := F) (G := G) c ht id).ok hrngs
  obtain ⟨t1, t2, _, _⟩ := dealt
  obtain ⟨⟨pub1, h1⟩, ⟨pub2, h2⟩, ⟨uCom, hulen, rfl⟩, ⟨aCom, halen, rfl⟩⟩ := hdealt
  have hu : (uCom.poly F).degree < c.t.val := hulen ▸ degree_poly_lt uCom
  have ha : (aCom.poly F).degree < c.t.val := halen ▸ degree_poly_lt aCom
  obtain ⟨key0, hkey0⟩ := hk.nth_zero
  have hrun : ∀ sent : Broadcasts F G, presignRobust c keys id sent rngs = (presignRobustOver c keys id sent
      (t1, t2, c.ids.map fun i => ⟨i, (uCom.poly F).eval (scalarFrom i), uCom⟩,
        c.ids.map fun i => ⟨i, (aCom.poly F).eval (scalarFrom i), aCom⟩), s) := by
    intro sent
    have hcheck := checkCommitteeInputs_ok hk hrngs
    show (lift (checkCommitteeInputs c keys rngs.rngs.length) >>= _) rngs = _
    rw [lift_bind_run, hcheck]
    show (dealPresign c id none >>= _) rngs = _
    rw [bind_run, hdeal]
    rfl
  refine ⟨_, s, hdeal, ?_⟩
  have hhonest : ∀ j ∈ c.ids, j ∈ c.ids ∧ (Broadcasts.honest : Broadcasts F G).HonestAt j :=
    fun j hj => ⟨hj, honest_honestAt j⟩
  have hq := honest_quorum hnd hlen hh (ideal pub1 pub2 uCom aCom key0.com)
  have hq' := honest_quorum c.nodup (c.t_le_n ht) hhonest (ideal pub1 pub2 uCom aCom key0.com)
  rcases presignRobustOver_cases h1 h2 uCom aCom hu ha hk hkey0 id with
    ⟨msg, hzero⟩ | ⟨d2v, e2v, zCom, k, r, ps, hps, hok⟩
  · exact Or.inl ⟨msg, by rw [hrun, hzero _ hq'], by rw [hrun, hzero _ hq]⟩
  · right
    have hgood : ∀ j : PartyId, (Broadcasts.honest : Broadcasts F G).wrong j (ideal pub1 pub2 uCom aCom key0.com j) = false :=
      fun j => (honest_honestAt j).not_wrong _
    have hrunH := hok _ hq'
    simp only [hgood, Bool.not_false, List.filter_true, List.filter_false] at hrunH
    refine ⟨_, uCom, zCom, k, by rw [hrun, hrunH], hps, rfl, rfl, ?_⟩
    obtain ⟨wrong, hwrong⟩ : ∃ wrong : PartyId → Bool, wrong = fun j =>
        sent.wrong j (ideal pub1 pub2 uCom aCom key0.com j) := ⟨_, rfl⟩
    have hparties := wrongParties_eq h1 h2 uCom aCom hk (hk.com key0 (mem_of_nth hkey0))
      ⟨(uCom.poly F).eval 0 - (pub1.ca.poly F).eval 0, (aCom.poly F).eval 0 - (pub1.cb.poly F).eval 0,
        (uCom.poly F).eval 0 * (aCom.poly F).eval 0, k • K256.generator F, r, d2v, e2v, ps, []⟩ rfl rfl rfl sent
    have hleft : (ps.filter fun q => q.index ∉ c.ids.filter wrong) = ps.filter fun q => !wrong q.index := by
      refine List.filter_congr fun q hq => ?_
      have hmem : q.index ∈ c.ids := hps.index_mem hq
      rw [Bool.eq_iff_iff]
      simp [hmem]
    rw [hparties, ← hwrong, hleft]
    refine ⟨_, rfl, by rw [hrun, hok sent hq, hwrong], ?_, ?_⟩
    · rw [hps.ps_eq, List.filter_map, List.length_map, hwrong]
      exact hq
    · intro params hparams sub hsub hsubnd hsublen m record hrecord
      have hsub' : sub ⊆ ps := fun q hq => (List.mem_filter.mp (hsub hq)).1
      exact ⟨combine_ok hps params hparams m sub hsub' hsubnd hsublen record (List.mem_filter.mp hrecord).1,
        fun hm => finishSignature_verifies hps.toSignBasis hm⟩

/-! ### Two of three parties honest -/

section Cheat

open Secp256k1

/-- The shares of the key `1 + X` among the 2-of-3 committee. -/
def lineKeys : List (KeyShare Scalar Point) := trio.ids.map fun j => ⟨j, 1 + scalarFrom j, ⟨[1, 1]⟩⟩

def onesRngs : Rngs Scalar := ⟨trio.ids.map fun j => ⟨j, fun _ => 1, 0⟩, []⟩

/-- Party 3 adds 1 to its share in the opening of `v`. -/
def cheat : PresignTamper := ⟨none, some 3, none⟩

theorem lineKeys_sharing : KeySharing trio lineKeys (⟨[1, 1]⟩ : ShamirPoly Scalar).poly where
  index := by decide
  degree := by
    have := Interpolation.degree_ofCoeffs_lt ([1, 1] : List Scalar)
    exact this
  com := by
    have hcom : (⟨[1, 1]⟩ : FeldmanCommitment Point) = fromPoly (⟨[1, 1]⟩ : ShamirPoly Scalar) := by decide +kernel
    intro key hkey
    obtain ⟨j, -, rfl⟩ := List.mem_map.mp hkey
    show poly Scalar (⟨[1, 1]⟩ : FeldmanCommitment Point) = _
    rw [hcom, poly_fromPoly]
  share := by
    intro key hkey
    rw [← ShamirPoly.evalAt_eq]
    revert key
    decide +kernel

theorem cheat_honestAt : ∀ j ∈ ([1, 2] : List PartyId), j ∈ trio.ids ∧
    (Broadcasts.ofTamper (some cheat) : Broadcasts Scalar Point).HonestAt j := by
  intro j hj
  rcases List.mem_pair.mp hj with rfl | rfl
  · exact ⟨by decide, ofTamper_honestAt (by decide) (by decide)⟩
  · exact ⟨by decide, ofTamper_honestAt (by decide) (by decide)⟩

theorem presignRobust_trio : (presignRobust trio lineKeys 0 (Broadcasts.ofTamper (some cheat)) onesRngs).1.map
    (fun run => (run.r, run.presigs.map (·.index), run.blamed)) = .ok (-3⁻¹, [1, 2], [3]) := by
  decide +kernel

/-- Party 3's wrong share costs it its record and nobody else: 1 and 2 sign. -/
theorem presignRobust_cheat : ∃ run record s sig,
    (presignRobust trio lineKeys 0 (Broadcasts.ofTamper (some cheat)) onesRngs).1 = .ok run ∧ run.blamed = [3] ∧
      record ∈ run.presigs ∧ combine ⟨3, 2⟩ record 1 (run.presigs.map fun q => signShare q 1) = .ok (run.r, s) ∧
      finishSignature Point run.r s = .ok sig ∧ sig.Verifies ((1 : Scalar) • K256.generator Scalar : Point) 1 := by
  have hkey : ((⟨[1, 1]⟩ : ShamirPoly Scalar).poly).eval 0 = 1 := by
    rw [← ShamirPoly.evalAt_eq]
    decide +kernel
  have htrio := presignRobust_trio
  obtain ⟨dealt, s, -, ⟨msg, -, hzero⟩ | ⟨run, uCom, zCom, k, -, -, -, -, left, -, hrun, hlen, hsign⟩⟩ :=
    presignRobust_delivers trio (by decide) lineKeys _ lineKeys_sharing 0 (Broadcasts.ofTamper (some cheat)) [1, 2]
      (by decide) (by decide) cheat_honestAt onesRngs (by decide)
  · rw [hzero] at htrio
    cases htrio
  · rw [hrun] at htrio
    have hval := Except.ok.inj htrio
    simp only [Prod.mk.injEq] at hval
    obtain ⟨hr, hindex, hblamed⟩ := hval
    obtain ⟨record, rest, rfl⟩ : ∃ record rest, left = record :: rest := by
      refine List.exists_cons_of_ne_nil fun hnil => ?_
      rw [hnil] at hindex
      cases hindex
    have hm : (1 : Scalar) + run.r * 1 ≠ 0 := by
      rw [hr]
      decide +kernel
    obtain ⟨hcombine, hsig⟩ := hsign ⟨3, 2⟩ rfl (record :: rest) (fun _ h => h) (by rw [hindex]; decide) hlen 1 record
      List.mem_cons_self
    rw [hkey] at hcombine hsig
    obtain ⟨sig, hfinish, hver, -⟩ := hsig hm
    refine ⟨{ run with
        presigs := record :: rest
        blamed := wrongParties trio lineKeys dealt run (Broadcasts.ofTamper (some cheat)) },
      record, _, sig, by rw [hrun], hblamed, List.mem_cons_self, hcombine, hfinish, hver⟩

/-- With every party honest and `r = x = 1`, the records of `solo` combine to
`s = 0` on the message scalar `-1`, which is no signature. -/
theorem presignRobust_zero :
    (presignRobustWithCommittee solo [soloKey] 0 none soloRngs).1 = .ok ([soloRecord], []) ∧
      combine ⟨1, 1⟩ soloRecord (-1) [signShare soloRecord (-1)] = .ok (1, 0) ∧
      ∀ X : Point, ∀ m, ¬ (⟨1, 0⟩ : Signature Scalar).Verifies X m :=
  ⟨by decide +kernel, by decide +kernel, fun _ _ h => h.2.1 rfl⟩

-- Among three honest parties all keep their records.
example : (presignRobust trio lineKeys 0 Broadcasts.honest onesRngs).1.map
    (fun run => (run.presigs.map (·.index), run.blamed)) = .ok ([1, 2, 3], []) := by
  decide +kernel

end Cheat

end OhmEcdsa
