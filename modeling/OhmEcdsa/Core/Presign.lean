import OhmEcdsa.Core.Triples

/-!
# Presignatures (`src/protocol/presign.rs`)

`u` is dealt at random and `k = v⁻¹·a` with `v = a·u` opened through a triple, so
`u = k⁻¹`; a second triple gives `z = u·x`.  Among honest parties an instance
returns records of one presignature or the zero-value restart, nothing else:

    Triple (n ≤ rngs) (presignWithCommittee c keys id none)
      (∃ uCom zCom k r, Presigned c x id · uCom zCom k r) (∃ msg, · = ZeroValue msg)
                                                                    (presign_triple)
-/

set_option linter.unusedSectionVars false

namespace OhmEcdsa

open Polynomial FeldmanCommitment Hoare Interpolation

/-- A `u64`. -/
abbrev U64 := Fin (2 ^ 64)

/-- Long-term key share. -/
abbrev KeyShare := DkgOutput

/-- One party's single-use record. -/
structure Presignature (F G : Type) where
  id : U64
  index : PartyId
  r : F
  bigR : G
  uShare : F
  zShare : F
  uCom : FeldmanCommitment G
  zCom : FeldmanCommitment G
  deriving DecidableEq

/-- Fault hooks of an instance. -/
structure PresignTamper where
  badNoncePoint : Option PartyId
  badOpenShare : Option PartyId
  tripleTamper : Option TripleTamper

variable {F G : Type} [Field F] [DecidableEq F] [AddCommGroup G] [Module F G] [DecidableEq G] [K256 F G]

/-! ## Algorithm: presign_with_committee -/

/-- `keys[k]` must belong to `ids[k]`; trailing `rngs` are ignored. -/
def checkCommitteeInputs (committee : Committee) (keys : List (KeyShare F G)) (rngsLen : Nat) : Outcome Unit :=
  if keys.length ≠ committee.n ∨ rngsLen < committee.n ∨
      (keys.zip committee.ids).any fun e => e.1.index != e.2 then
    .error (.error (.invalidParams
      "keys/rngs must match the committee positionally (keys[k].index == ids[k])"))
  else .ok ()

/-- Commitment to the product of two sharings masked by a triple (P2 and P4):
`A[γ] + δ·A[β] + ε·A[α] + δε`. -/
def beaverCom (pub : TriplePublic G) (delta eps : F) : Outcome (FeldmanCommitment G) :=
  ((pub.cc.add (pub.cb.scale delta)).add (pub.ca.scale eps)).addConst (delta * eps)

/-- A party's share of that product. -/
def beaverShare (triple : TripleShare F) (delta eps : F) : F :=
  triple.c + delta * triple.b + eps * triple.a + delta * eps

/-- `(ids[k], pick k)` for every position. -/
def sharesBy (ids : List PartyId) (pick : Nat → Outcome F) : Outcome (PartyMap F) := do
  let l ← ids.zipIdx.mapM fun e => do
    let s ← pick e.2
    return (e.1, s)
  return collect l

/-- The share of `x - mask` at position `k`. -/
def maskedShare (xs : List F) (triples : List (TripleShare F × TriplePublic G)) (mask : TripleShare F → F)
    (k : Nat) : Outcome F := do
  let x ← nth xs k
  let triple ← nth triples k
  return x - mask triple.1

/-- `v_shares.get_mut(&j)`: a wrong opening share from `bad_open_share`. -/
def tamperOpen (tamper : Option PresignTamper) (shares : PartyMap F) : PartyMap F :=
  match tamper.bind (·.badOpenShare) with
  | none => shares
  | some j =>
    match shares[j]? with
    | none => shares
    | some s => shares.insert j (s + 1)

/-- P3: the nonce share point party `j` broadcasts. -/
def noncePoint (tamper : Option PresignTamper) (vInv : F) (aShares : List F) (j : PartyId) (k : Nat) :
    Outcome G := do
  let a ← nth aShares k
  let rj : G := (vInv * a) • K256.generator F
  return if tamper.bind (·.badNoncePoint) = some j then rj + K256.generator F else rj

/-- Its check against `A[k]`. -/
def checkNoncePoint (tamper : Option PresignTamper) (vInv : F) (aShares : List F)
    (kCom : FeldmanCommitment G) (e : PartyId × Nat) : Outcome G := do
  let rj ← noncePoint tamper vInv aShares e.1 e.2
  if rj ≠ kCom.evalAt F e.1 then throw (abort .presign [e.1] "invalid nonce point R_j")
  else return rj

/-- `Σ λ_j·R_j`. -/
def interpolatePoints (lambdas : List F) (points : List G) : G :=
  (lambdas.zip points).foldl (fun acc e => acc + e.1 • e.2) 0

/-- `r = F(R)`; the identity has no x-coordinate to unwrap. -/
def nonceScalar (bigR : G) : Outcome F :=
  match K256.xBytes F bigR with
  | none => .error (.panic "uncompressed point has x")
  | some x =>
    let r := K256.scalarFromDigest G x
    if r = 0 then .error (.error (.zeroValue "r = 0")) else .ok r

/-- P2: open `δ`, `ε` and `v = a·u`; returns `v⁻¹`. -/
def openInverse (committee : Committee) (tamper : Option PresignTamper)
    (t1 : List (TripleShare F × TriplePublic G)) (pub1 : TriplePublic G) (uCom aCom : FeldmanCommitment G)
    (uShares aShares : List F) : Outcome F := do
  let ids := committee.ids
  let t := committee.t
  let deltas ← sharesBy ids (maskedShare uShares t1 (·.a))
  let epsilons ← sharesBy ids (maskedShare aShares t1 (·.b))
  let delta ← «open» t (uCom.add (pub1.ca.scale (-1 : F))) deltas .presign
  let eps ← «open» t (aCom.add (pub1.cb.scale (-1 : F))) epsilons .presign
  let vCom ← beaverCom pub1 delta eps
  let vShares ← sharesBy ids fun k => do
    let triple ← nth t1 k
    return beaverShare triple.1 delta eps
  let v ← «open» t vCom (tamperOpen tamper vShares) .presign
  match invert v with
  | none => .error (.error (.zeroValue "v = 0"))
  | some vInv => .ok vInv

/-- P3: check every nonce point against `v⁻¹·A[a]` and interpolate `R`. -/
def openNonce (committee : Committee) (tamper : Option PresignTamper) (aCom : FeldmanCommitment G)
    (aShares : List F) (vInv : F) : Outcome (G × F) := do
  let kCom := aCom.scale vInv
  let rPoints ← committee.ids.zipIdx.mapM (checkNoncePoint tamper vInv aShares kCom)
  let lambdas : List F ← lagrangeCoeffs committee.ids
  let bigR := interpolatePoints lambdas rPoints
  let r : F ← nonceScalar bigR
  return (bigR, r)

/-- P4: `z = u·x` via the second triple, and the records. -/
def bindKey (committee : Committee) (keys : List (KeyShare F G)) (id : U64)
    (t2 : List (TripleShare F × TriplePublic G)) (pub2 : TriplePublic G) (uCom : FeldmanCommitment G)
    (uShares : List F) (bigR : G) (r : F) : Outcome (List (Presignature F G)) := do
  let ids := committee.ids
  let t := committee.t
  let key0 ← nth keys 0
  let d2 ← sharesBy ids (maskedShare uShares t2 (·.a))
  let e2 ← sharesBy ids (maskedShare (keys.map (·.share)) t2 (·.b))
  let d2v ← «open» t (uCom.add (pub2.ca.scale (-1 : F))) d2 .presign
  let e2v ← «open» t (key0.com.add (pub2.cb.scale (-1 : F))) e2 .presign
  let zCom ← beaverCom pub2 d2v e2v
  ids.zipIdx.mapM fun e => do
    let triple ← nth t2 e.2
    let u ← nth uShares e.2
    return ⟨id, e.1, r, bigR, u, beaverShare triple.1 d2v e2v, uCom, zCom⟩

/-- The session id of a presignature. -/
def presignSid (id : U64) : Bytes := utf8 ("ohm-ecdsa/presign/" ++ toString id.val)

/-- Two triples and P1's joint sharings `[u]`, `[a]`. -/
def dealPresign (committee : Committee) (id : U64) (tamper : Option PresignTamper) :
    RngM F (List (TripleShare F × TriplePublic G) × List (TripleShare F × TriplePublic G) ×
      List (DkgOutput F G) × List (DkgOutput F G)) := do
  let sid := presignSid id
  let t1 ← generateWithCommittee committee (sid ++ utf8 "/t1") (tamper.bind (·.tripleTamper))
  let t2 ← generateWithCommittee committee (sid ++ utf8 "/t2") none
  let uOut ← jointRandom committee (sid ++ utf8 "/u") .presign
  let aOut ← jointRandom committee (sid ++ utf8 "/a") .presign
  return (t1, t2, uOut, aOut)

def presignWithCommittee (committee : Committee) (keys : List (KeyShare F G)) (id : U64)
    (tamper : Option PresignTamper) : RngM F (List (Presignature F G)) := do
  let s ← get
  lift (checkCommitteeInputs committee keys s.rngs.length)
  let (t1, t2, uOut, aOut) ← dealPresign committee id tamper
  lift (do
    let pub1 ← nth t1 0
    let pub2 ← nth t2 0
    let u0 ← nth uOut 0
    let a0 ← nth aOut 0
    let vInv ← openInverse committee tamper t1 pub1.2 u0.com a0.com (uOut.map (·.share)) (aOut.map (·.share))
    let (bigR, r) ← openNonce committee tamper a0.com (aOut.map (·.share)) vInv
    bindKey committee keys id t2 pub2.2 u0.com (uOut.map (·.share)) bigR r)

/-! ## Algorithm: presign_robust_with_committee -/

/-- Add `new` to the blame list and expel them from the active set. -/
def expel (blamed active new : List PartyId) : List PartyId × List PartyId :=
  new.foldl (fun acc j =>
    (if acc.1.contains j then acc.1 else acc.1 ++ [j], acc.2.filter (· ≠ j))) (blamed, active)

def activePosition (committee : Committee) (j : PartyId) : Outcome Nat :=
  match committee.position j with
  | some k => .ok k
  | none => .error (.panic "active ⊆ committee")

/-- Broadcast shares of the active parties. -/
def activeShares (committee : Committee) (active : List PartyId) (pick : Nat → Outcome F) :
    Outcome (PartyMap F) := do
  let l ← active.mapM fun j => do
    let k ← activePosition committee j
    let s ← pick k
    return (j, s)
  return collect l

/-- P2–P4 with blame-and-continue openings. -/
def presignRobustFrom (committee : Committee) (keys : List (KeyShare F G)) (id : U64)
    (tamper : Option PresignTamper) (t1 t2 : List (TripleShare F × TriplePublic G))
    (uOut aOut : List (DkgOutput F G)) : Outcome (List (Presignature F G) × List PartyId) := do
  let t := committee.t
  let pub1 ← nth t1 0
  let pub2 ← nth t2 0
  let u0 ← nth uOut 0
  let a0 ← nth aOut 0
  let uShares := uOut.map (·.share)
  let aShares := aOut.map (·.share)
  -- P2: both openings are one broadcast round, so their blame is unioned
  let active := committee.ids
  let deltas ← activeShares committee active (maskedShare uShares t1 (·.a))
  let epsilons ← activeShares committee active (maskedShare aShares t1 (·.b))
  let (delta, bD) ← openRobust t (u0.com.add (pub1.2.ca.scale (-1 : F))) deltas .presign
  let (eps, bE) ← openRobust t (a0.com.add (pub1.2.cb.scale (-1 : F))) epsilons .presign
  let (blamed, active) := expel [] active bD
  let (blamed, active) := expel blamed active bE
  let vCom ← beaverCom pub1.2 delta eps
  let vShares ← activeShares committee active fun k => do
    let triple ← nth t1 k
    return beaverShare triple.1 delta eps
  let (v, bV) ← openRobust t vCom (tamperOpen tamper vShares) .presign
  let (blamed, active) := expel blamed active bV
  match invert v with
  | none => throw (.error (.zeroValue "v = 0"))
  | some vInv =>
    -- P3: bad nonce points are filtered
    let kCom := a0.com.scale vInv
    let points ← active.mapM fun j => do
      let k ← activePosition committee j
      let rj : G ← noncePoint tamper vInv aShares j k
      return (j, rj)
    let valid := points.filter fun e => e.2 == kCom.evalAt F e.1
    let badPoints := (points.filter fun e => !(e.2 == kCom.evalAt F e.1)).map (·.1)
    let (blamed, active) := expel blamed active badPoints
    if valid.length < t.val then throw (.error (.notEnoughShares valid.length t.val))
    else
      let lambdas : List F ← lagrangeCoeffs (valid.map (·.1))
      let bigR := interpolatePoints lambdas (valid.map (·.2))
      let r : F ← nonceScalar bigR
      -- P4
      let key0 ← nth keys 0
      let d2 ← activeShares committee active (maskedShare uShares t2 (·.a))
      let e2 ← activeShares committee active (maskedShare (keys.map (·.share)) t2 (·.b))
      let (d2v, bD2) ← openRobust t (u0.com.add (pub2.2.ca.scale (-1 : F))) d2 .presign
      let (e2v, bE2) ← openRobust t (key0.com.add (pub2.2.cb.scale (-1 : F))) e2 .presign
      let (blamed, active) := expel blamed active bD2
      let (blamed, active) := expel blamed active bE2
      let zCom ← beaverCom pub2.2 d2v e2v
      let presigs ← active.mapM fun j => do
        let k ← activePosition committee j
        let triple ← nth t2 k
        let u ← nth uShares k
        return (⟨id, j, r, bigR, u, beaverShare triple.1 d2v e2v, u0.com, zCom⟩ : Presignature F G)
      return (presigs, blamed.insertionSort (· ≤ ·))

def presignRobustWithCommittee (committee : Committee) (keys : List (KeyShare F G)) (id : U64)
    (tamper : Option PresignTamper) : RngM F (List (Presignature F G) × List PartyId) := do
  let s ← get
  lift (checkCommitteeInputs committee keys s.rngs.length)
  let (t1, t2, uOut, aOut) ← dealPresign committee id tamper
  lift (presignRobustFrom committee keys id tamper t1 t2 uOut aOut)

/-! ## Lemmas -/

/-- `keys` are the shares of one polynomial `p` of degree below `t`. -/
structure KeySharing (c : Committee) (keys : List (KeyShare F G)) (p : F[X]) : Prop where
  index : keys.map (·.index) = c.ids
  degree : p.degree < c.t.val
  com : ∀ key ∈ keys, key.com.poly F = p
  share : ∀ key ∈ keys, key.share = p.eval (scalarFrom key.index)

/-- What signing with the key `x` rests on: `u = k⁻¹` and `z = u·x` committed in
degree below `t`, and `r = F(k·G)`. -/
structure SignBasis (t : Usize) (x : F) (uCom zCom : FeldmanCommitment G) (k r : F) : Prop where
  degree_u : (uCom.poly F).degree < t.val
  degree_z : (zCom.poly F).degree < t.val
  inverse : (uCom.poly F).eval 0 * k = 1
  product : (zCom.poly F).eval 0 = (uCom.poly F).eval 0 * x
  nonce : (K256.xBytes F (k • K256.generator F : G)).map (K256.scalarFromDigest G) = some r
  r_ne : r ≠ 0

/-- The records of one presignature for the key `x` with the nonce `k`. -/
structure Presigned (c : Committee) (x : F) (id : U64) (ps : List (Presignature F G))
    (uCom zCom : FeldmanCommitment G) (k r : F) : Prop extends SignBasis c.t x uCom zCom k r where
  ps_eq : ps = c.ids.map fun i => ⟨id, i, r, k • K256.generator F, (uCom.poly F).eval (scalarFrom i),
    (zCom.poly F).eval (scalarFrom i), uCom, zCom⟩

theorem sharesBy_ok (ids : List PartyId) (pick : Nat → Outcome F) (f : PartyId → F)
    (h : ∀ e ∈ ids.zipIdx, pick e.2 = .ok (f e.1)) :
    sharesBy ids pick = .ok (collect (ids.map fun i => (i, f i))) := by
  unfold sharesBy
  rw [mapM_zipIdx_ok _ (fun i => (i, f i)) ids fun e he => by rw [h e he]; rfl]
  rfl

/-- Opening a sharing masked at each position by a value of another. -/
theorem open_masked_at (t : Usize) (ids : List PartyId) (hnd : ids.Nodup) (hn : t.val ≤ ids.length)
    (outs : List (TripleShare F × TriplePublic G)) (phase : Phase) (xCom mCom : FeldmanCommitment G)
    (mask : TripleShare F → F)
    (hmask : ∀ e ∈ ids.zipIdx, ∃ triple, nth outs e.2 = .ok triple ∧ mask triple.1 = (mCom.poly F).eval (scalarFrom e.1))
    (hx : (xCom.poly F).degree < t.val) (hm : (mCom.poly F).degree < t.val) :
    ∃ shares, sharesBy ids (maskedShare (ids.map fun i => (xCom.poly F).eval (scalarFrom i)) outs mask) = .ok shares ∧
      «open» t (xCom.add (mCom.scale (-1 : F))) shares phase = .ok ((xCom.poly F).eval 0 - (mCom.poly F).eval 0) := by
  have hpoly : (xCom.add (mCom.scale (-1 : F))).poly F = xCom.poly F + C (-1) * mCom.poly F := by
    rw [poly_add, poly_scale]
  refine ⟨collect (ids.map fun i => (i, (xCom.poly F).eval (scalarFrom i) - (mCom.poly F).eval (scalarFrom i))),
    ?_, ?_⟩
  · refine sharesBy_ok _ _ (fun i => (xCom.poly F).eval (scalarFrom i) - (mCom.poly F).eval (scalarFrom i))
      fun e he => ?_
    obtain ⟨triple, htriple, hval⟩ := hmask e he
    unfold maskedShare
    rw [nth_map_of_mem _ _ he, htriple, ← hval]
    rfl
  · rw [open_collect_ok t _ ids _ _ hnd (fun i _ => ?_) hn ?_, hpoly]
    · simp [sub_eq_add_neg]
    · rw [hpoly]
      exact degree_add_lt hx (degree_C_mul_lt _ hm)
    · rw [verifyShare_iff, hpoly]
      simp [sub_eq_add_neg]

section Beaver

variable {c : Committee} {outs : List (TripleShare F × TriplePublic G)} {pub : TriplePublic G}
  (hbt : BeaverTriple c outs pub)

include hbt

theorem beaver_degrees : (pub.ca.poly F).degree < c.t.val ∧ (pub.cb.poly F).degree < c.t.val ∧
    (pub.cc.poly F).degree < c.t.val := by
  refine ⟨?_, ?_, ?_⟩
  · rw [← hbt.length_ca]; exact degree_poly_lt _
  · rw [← hbt.length_cb]; exact degree_poly_lt _
  · rw [← hbt.length_cc]; exact degree_poly_lt _

/-- Opening a sharing masked by one component of a triple. -/
theorem open_masked (hn : c.t.val ≤ c.n) (xCom mCom : FeldmanCommitment G) (mask : TripleShare F → F)
    (hmask : ∀ i ∈ c.ids, mask ⟨i, (pub.ca.poly F).eval (scalarFrom i), (pub.cb.poly F).eval (scalarFrom i),
      (pub.cc.poly F).eval (scalarFrom i)⟩ = (mCom.poly F).eval (scalarFrom i))
    (hx : (xCom.poly F).degree < c.t.val) (hm : (mCom.poly F).degree < c.t.val) :
    ∃ shares, sharesBy c.ids (maskedShare (c.ids.map fun i => (xCom.poly F).eval (scalarFrom i)) outs mask) =
        .ok shares ∧
      «open» c.t (xCom.add (mCom.scale (-1 : F))) shares .presign =
        .ok ((xCom.poly F).eval 0 - (mCom.poly F).eval 0) := by
  refine open_masked_at c.t c.ids c.nodup hn outs .presign xCom mCom mask (fun e he => ?_) hx hm
  have hmem : e.1 ∈ c.ids := List.mem_of_getElem? (List.mem_zipIdx_iff_getElem?.mp he)
  rw [hbt.outs_eq, nth_map_of_mem _ _ he]
  exact ⟨_, rfl, hmask e.1 hmem⟩

/-- **The Beaver identity**: with `δ = x - α` and `ε = y - β` the combination
shares `x·y`. -/
theorem beaver_ok (x y : F) :
    ∃ com, beaverCom pub (x - (pub.ca.poly F).eval 0) (y - (pub.cb.poly F).eval 0) = .ok com ∧
      (com.poly F).degree < c.t.val ∧ (com.poly F).eval 0 = x * y ∧
      ∀ i, beaverShare ⟨i, (pub.ca.poly F).eval (scalarFrom i), (pub.cb.poly F).eval (scalarFrom i),
        (pub.cc.poly F).eval (scalarFrom i)⟩ (x - (pub.ca.poly F).eval 0) (y - (pub.cb.poly F).eval 0) =
        (com.poly F).eval (scalarFrom i) := by
  obtain ⟨hca, hcb, hcc⟩ := beaver_degrees hbt
  generalize hd : x - (pub.ca.poly F).eval 0 = delta
  generalize he : y - (pub.cb.poly F).eval 0 = eps
  have hne : ((pub.cc.add (pub.cb.scale delta)).add (pub.ca.scale eps)).points ≠ [] := by
    have hpos := c.t_pos
    rw [← List.length_pos_iff, length_add, length_add, hbt.length_cc]
    omega
  obtain ⟨com, hok, hpoly, -⟩ := addConst_ok _ (delta * eps) hne
  rw [poly_add, poly_add, poly_scale, poly_scale] at hpoly
  refine ⟨com, hok, ?_, ?_, fun i => ?_⟩
  · rw [hpoly]
    exact degree_add_lt (degree_add_lt (degree_add_lt hcc (degree_C_mul_lt _ hcb)) (degree_C_mul_lt _ hca))
      (degree_C_lt _ c.t_pos)
  · rw [hpoly]
    simp only [eval_add, eval_mul, eval_C]
    rw [hbt.product, ← hd, ← he]
    ring
  · rw [hpoly]
    simp only [eval_add, eval_mul, eval_C, beaverShare]

end Beaver

section Instance

variable {c : Committee} (hn : c.t.val ≤ c.n)

include hn

/-- **P2 opens `v = u·a`**, which is invertible unless it is zero. -/
theorem openInverse_ok {t1 : List (TripleShare F × TriplePublic G)} {pub1 : TriplePublic G}
    (hbt : BeaverTriple c t1 pub1) (uCom aCom : FeldmanCommitment G)
    (hu : (uCom.poly F).degree < c.t.val) (ha : (aCom.poly F).degree < c.t.val) :
    openInverse c none t1 pub1 uCom aCom (c.ids.map fun i => (uCom.poly F).eval (scalarFrom i))
        (c.ids.map fun i => (aCom.poly F).eval (scalarFrom i)) =
      match invert ((uCom.poly F).eval 0 * (aCom.poly F).eval 0) with
      | none => .error (.error (.zeroValue "v = 0"))
      | some vInv => .ok vInv := by
  obtain ⟨hca, hcb, -⟩ := beaver_degrees hbt
  obtain ⟨deltas, hdeltas, hdelta⟩ := open_masked hbt hn uCom pub1.ca (·.a) (fun _ _ => rfl) hu hca
  obtain ⟨epsilons, hepsilons, heps⟩ := open_masked hbt hn aCom pub1.cb (·.b) (fun _ _ => rfl) ha hcb
  obtain ⟨vCom, hvCom, hvdeg, hv, hvshare⟩ := beaver_ok hbt ((uCom.poly F).eval 0) ((aCom.poly F).eval 0)
  unfold openInverse
  simp only [hdeltas, hepsilons, hdelta, heps, hvCom, bind, Except.bind]
  rw [sharesBy_ok _ _ (fun i => (vCom.poly F).eval (scalarFrom i)) fun e he => by
    rw [hbt.outs_eq, nth_map_of_mem _ _ he, ← hvshare]; rfl]
  simp only [tamperOpen, Option.bind_none]
  rw [open_collect_ok c.t vCom c.ids _ _ c.nodup (fun i _ => (verifyShare_iff _ _ _).mpr rfl) hn hvdeg, hv]

omit hn in
theorem checkNoncePoint_ok (aCom : FeldmanCommitment G) (vInv : F) (e : PartyId × Nat) (he : e ∈ c.ids.zipIdx) :
    checkNoncePoint none vInv (c.ids.map fun i => (aCom.poly F).eval (scalarFrom i)) (aCom.scale vInv) e =
      .ok ((vInv * (aCom.poly F).eval (scalarFrom e.1)) • K256.generator F) := by
  unfold checkNoncePoint noncePoint
  rw [nth_map_of_mem _ _ he]
  simp only [evalAt_eq, poly_scale, eval_mul, eval_C]
  simp [bind, Except.bind, pure, Except.pure]

omit hn in
theorem interpolatePoints_eq (ids : List PartyId) (w f : PartyId → F) :
    interpolatePoints (ids.map w) (ids.map fun i => f i • (K256.generator F : G)) =
      (ids.map fun i => w i * f i).sum • K256.generator F := by
  have step : ∀ (l : List PartyId) (acc : G),
      ((l.map w).zip (l.map fun i => f i • (K256.generator F : G))).foldl (fun acc e => acc + e.1 • e.2) acc =
        acc + (l.map fun i => w i * f i).sum • K256.generator F := by
    intro l
    induction l with
    | nil => intro acc; simp
    | cons i l ih =>
      intro acc
      simp only [List.map_cons, List.zip_cons_cons, List.foldl_cons, List.sum_cons]
      rw [ih, add_smul, smul_smul, add_assoc]
  unfold interpolatePoints
  rw [step, zero_add]

/-- **P3**: honest nonce points interpolate to `R = k·G`, `k = v⁻¹·a`. -/
theorem openNonce_ok (aCom : FeldmanCommitment G) (ha : (aCom.poly F).degree < c.t.val) (vInv : F) :
    openNonce c none aCom (c.ids.map fun i => (aCom.poly F).eval (scalarFrom i)) vInv = (do
      let r : F ← nonceScalar ((vInv * (aCom.poly F).eval 0) • K256.generator F : G)
      return ((vInv * (aCom.poly F).eval 0) • K256.generator F, r)) := by
  have hdeg : (C vInv * aCom.poly F).degree < (c.ids.map (scalarFrom : PartyId → F)).length := by
    rw [List.length_map]
    refine degree_C_mul_lt _ (lt_of_lt_of_le ha ?_)
    exact_mod_cast hn
  have hint := sum_weight_mul_eval 0 _ (map_scalarFrom_nodup F G c.nodup) _ hdeg
  rw [List.map_map, eval_mul, eval_C] at hint
  simp only [Function.comp_def, eval_mul, eval_C] at hint
  unfold openNonce
  simp only
  rw [mapM_zipIdx_ok _ (fun i => (vInv * (aCom.poly F).eval (scalarFrom i)) • (K256.generator F : G)) _
      (checkNoncePoint_ok aCom vInv),
    lagrangeCoeffs, lagrangeCoeffsAt_eq 0 c.ids (map_scalarFrom_nodup F G c.nodup)]
  simp only [bind, Except.bind]
  rw [interpolatePoints_eq, hint]

/-- **P4 binds the key**: the records share `z = u·x`. -/
theorem bindKey_ok {t2 : List (TripleShare F × TriplePublic G)} {pub2 : TriplePublic G}
    (hbt : BeaverTriple c t2 pub2) {keys : List (KeyShare F G)} {p : F[X]} (hk : KeySharing c keys p)
    (id : U64) (uCom : FeldmanCommitment G) (hu : (uCom.poly F).degree < c.t.val) (bigR : G) (r : F) :
    ∃ zCom, bindKey c keys id t2 pub2 uCom (c.ids.map fun i => (uCom.poly F).eval (scalarFrom i)) bigR r =
        .ok (c.ids.map fun i => ⟨id, i, r, bigR, (uCom.poly F).eval (scalarFrom i),
          (zCom.poly F).eval (scalarFrom i), uCom, zCom⟩) ∧
      (zCom.poly F).degree < c.t.val ∧ (zCom.poly F).eval 0 = (uCom.poly F).eval 0 * p.eval 0 := by
  obtain ⟨hca, hcb, -⟩ := beaver_degrees hbt
  obtain ⟨key0, rest, rfl⟩ : ∃ key0 rest, keys = key0 :: rest := by
    refine List.exists_cons_of_ne_nil fun h => c.ids_ne ?_
    rw [← hk.index, h]
    rfl
  have hkey : key0.com.poly F = p := hk.com key0 List.mem_cons_self
  have hshares : (key0 :: rest).map (·.share) = c.ids.map fun i => (key0.com.poly F).eval (scalarFrom i) := by
    rw [← hk.index, List.map_map, hkey]
    exact List.map_congr_left fun key hmem => hk.share key hmem
  obtain ⟨d2, hd2, hd2v⟩ := open_masked hbt hn uCom pub2.ca (·.a) (fun _ _ => rfl) hu hca
  obtain ⟨e2, he2, he2v⟩ := open_masked hbt hn key0.com pub2.cb (·.b) (fun _ _ => rfl)
    (by rw [hkey]; exact hk.degree) hcb
  obtain ⟨zCom, hz, hzdeg, hzval, hzshare⟩ := beaver_ok hbt ((uCom.poly F).eval 0) ((key0.com.poly F).eval 0)
  refine ⟨zCom, ?_, hzdeg, by rw [hzval, hkey]⟩
  have hkey0 : nth (key0 :: rest) 0 = .ok key0 := rfl
  unfold bindKey
  rw [hkey0, hshares]
  simp only [hd2, he2, hd2v, he2v, hz, bind, Except.bind]
  refine mapM_zipIdx_ok _ _ _ fun e he => ?_
  rw [nth_map_of_mem _ _ he, hbt.outs_eq, nth_map_of_mem _ _ he]
  simp only [hzshare]
  rfl

end Instance

theorem checkCommitteeInputs_ok {c : Committee} {keys : List (KeyShare F G)} {p : F[X]}
    (hk : KeySharing c keys p) {m : Nat} (hm : c.n ≤ m) : checkCommitteeInputs c keys m = .ok () := by
  have hlen : keys.length = c.n := by rw [Committee.n, ← hk.index, List.length_map]
  have hany : (keys.zip c.ids).any (fun e => e.1.index != e.2) = false := by
    rw [← hk.index, ← List.map_prod_left_eq_zip, List.any_map]
    simp
  unfold checkCommitteeInputs
  rw [if_neg]
  rintro (h | h | h)
  · exact h hlen
  · omega
  · rw [hany] at h
    cases h

theorem dealPresign_triple (c : Committee) (ht : 2 * c.t.val ≤ c.n + 1) (id : U64) :
    Triple (Enough c.n) (dealPresign c id none : RngM F (List (TripleShare F × TriplePublic G) ×
        List (TripleShare F × TriplePublic G) × List (DkgOutput F G) × List (DkgOutput F G)))
      (fun d => (∃ pub, BeaverTriple c d.1 pub) ∧ (∃ pub, BeaverTriple c d.2.1 pub) ∧
        (∃ com, JointSharing c d.2.2.1 com) ∧ ∃ com, JointSharing c d.2.2.2 com) Never := by
  unfold dealPresign
  refine (generate_triple c ht _).bind fun t1 h1 => ?_
  refine (generate_triple c ht _).bind fun t2 h2 => ?_
  refine (jointRandom_triple c _ _).bind fun u hu => ?_
  refine (jointRandom_triple c _ _).bind fun a ha => ?_
  exact Triple.pure ⟨h1, h2, hu, ha⟩

/-- The identity is never the nonce point: `k = (u·a)⁻¹·a` is a unit. -/
theorem nonceScalar_cases {k : F} (hk : k ≠ 0) :
    (∃ r : F, nonceScalar (k • K256.generator F : G) = .ok r ∧ r ≠ 0 ∧
      (K256.xBytes F (k • K256.generator F : G)).map (K256.scalarFromDigest G) = some r) ∨
    (nonceScalar (k • K256.generator F : G) : Outcome F) = .error (.error (.zeroValue "r = 0")) := by
  have hne : (k • K256.generator F : G) ≠ 0 := fun h => hk (K256.generator_free k h)
  obtain ⟨x, hx⟩ := Option.ne_none_iff_exists'.mp fun h => hne ((K256.xBytes_eq_none (F := F) _).mp h)
  unfold nonceScalar
  rw [hx]
  by_cases hr : (K256.scalarFromDigest G x : F) = 0
  · exact Or.inr (by simp [hr])
  · exact Or.inl ⟨K256.scalarFromDigest G x, by simp [hr], hr, rfl⟩

/-- **P2 and P3 among honest parties**: a zero value, or the nonce point of some
`k` with `u·k = 1`. -/
theorem openNonce_cases {c : Committee} (hn : c.t.val ≤ c.n) {t1 : List (TripleShare F × TriplePublic G)}
    {pub1 : TriplePublic G} (h1 : BeaverTriple c t1 pub1) (uCom aCom : FeldmanCommitment G)
    (hu : (uCom.poly F).degree < c.t.val) (ha : (aCom.poly F).degree < c.t.val) :
    (∃ vInv k r : F, openInverse c none t1 pub1 uCom aCom (c.ids.map fun i => (uCom.poly F).eval (scalarFrom i))
        (c.ids.map fun i => (aCom.poly F).eval (scalarFrom i)) = .ok vInv ∧
      openNonce c none aCom (c.ids.map fun i => (aCom.poly F).eval (scalarFrom i)) vInv =
        .ok (k • K256.generator F, r) ∧
      (uCom.poly F).eval 0 * k = 1 ∧ r ≠ 0 ∧
      (K256.xBytes F (k • K256.generator F : G)).map (K256.scalarFromDigest G) = some r) ∨
    ∃ msg, (do
      let vInv ← openInverse c none t1 pub1 uCom aCom (c.ids.map fun i => (uCom.poly F).eval (scalarFrom i))
        (c.ids.map fun i => (aCom.poly F).eval (scalarFrom i))
      openNonce c none aCom (c.ids.map fun i => (aCom.poly F).eval (scalarFrom i)) vInv : Outcome (G × F)) =
      .error (.error (.zeroValue msg)) := by
  rw [openInverse_ok hn h1 uCom aCom hu ha]
  generalize hv : (uCom.poly F).eval 0 * (aCom.poly F).eval 0 = v
  by_cases hv0 : v = 0
  · refine Or.inr ⟨"v = 0", ?_⟩
    simp only [invert, hv0, if_true]
    rfl
  · have ha0 : (aCom.poly F).eval 0 ≠ 0 := fun h => hv0 (by rw [← hv, h, mul_zero])
    have hk0 : v⁻¹ * (aCom.poly F).eval 0 ≠ 0 := mul_ne_zero (inv_ne_zero hv0) ha0
    simp only [invert, hv0, if_false]
    rcases nonceScalar_cases (G := G) hk0 with ⟨r, hr, hrne, hx⟩ | hr
    · refine Or.inl ⟨v⁻¹, v⁻¹ * (aCom.poly F).eval 0, r, rfl, ?_, ?_, hrne, hx⟩
      · rw [openNonce_ok hn aCom ha, hr]
        rfl
      · rw [← mul_assoc, mul_comm _ v⁻¹, mul_assoc, hv, inv_mul_cancel₀ hv0]
    · refine Or.inr ⟨"r = 0", ?_⟩
      show openNonce c none aCom _ v⁻¹ = _
      rw [openNonce_ok hn aCom ha, hr]
      rfl

/-- The public half of a triple is any party's. -/
theorem BeaverTriple.nth_zero {c : Committee} {outs : List (TripleShare F × TriplePublic G)} {pub : TriplePublic G}
    (h : BeaverTriple c outs pub) : ∃ s, nth outs 0 = .ok (s, pub) := by
  obtain ⟨i, -, hi⟩ := nth_zero_map c fun i => ((⟨i, (pub.ca.poly F).eval (scalarFrom i),
    (pub.cb.poly F).eval (scalarFrom i), (pub.cc.poly F).eval (scalarFrom i)⟩ : TripleShare F), pub)
  rw [← h.outs_eq] at hi
  exact ⟨_, hi⟩

/-- **Presigning among honest parties** gives the records of one presignature of
the key, or the zero-value restart. -/
theorem presign_triple (c : Committee) (ht : 2 * c.t.val ≤ c.n + 1) {keys : List (KeyShare F G)} {p : F[X]}
    (hk : KeySharing c keys p) (id : U64) :
    Triple (Enough c.n) (presignWithCommittee c keys id none)
      (fun ps => ∃ uCom zCom k r, Presigned c (p.eval 0) id ps uCom zCom k r)
      (fun e => ∃ msg, e = .error (.zeroValue msg)) := by
  have hn := c.t_le_n ht
  unfold presignWithCommittee
  refine Triple.get_bind fun s hs => ?_
  refine Triple.lift_bind (checkCommitteeInputs_ok hk hs) ?_
  refine ((dealPresign_triple c ht id).conseq (fun _ h => h) fun e he => he.elim).bind ?_
  rintro ⟨t1, t2, _, _⟩ ⟨⟨pub1, h1⟩, ⟨pub2, h2⟩, ⟨uCom, hulen, rfl⟩, ⟨aCom, halen, rfl⟩⟩
  have hu : (uCom.poly F).degree < c.t.val := hulen ▸ degree_poly_lt uCom
  have ha : (aCom.poly F).degree < c.t.val := halen ▸ degree_poly_lt aCom
  obtain ⟨i1, -, hi1⟩ := nth_zero_map c fun i => (⟨i, (uCom.poly F).eval (scalarFrom i), uCom⟩ : DkgOutput F G)
  obtain ⟨i2, -, hi2⟩ := nth_zero_map c fun i => (⟨i, (aCom.poly F).eval (scalarFrom i), aCom⟩ : DkgOutput F G)
  obtain ⟨s1, hs1⟩ := h1.nth_zero
  obtain ⟨s2, hs2⟩ := h2.nth_zero
  simp only [List.map_map, Function.comp_def, hs1, hs2, hi1, hi2, bind, Except.bind]
  rcases openNonce_cases hn h1 uCom aCom hu ha with ⟨vInv, k, r, hinv, hnonce, huk, hr, hx⟩ | ⟨msg, hzero⟩
  · obtain ⟨zCom, hz, hzdeg, hzval⟩ := bindKey_ok hn h2 hk id uCom hu (k • K256.generator F) r
    simp only [hinv, hnonce, hz]
    refine Triple.lift (fun ps h => ?_) (fun _ h => by cases h)
    exact ⟨uCom, zCom, k, r, ⟨hu, hzdeg, huk, hzval, hx, hr⟩, (Except.ok.inj h).symm⟩
  · simp only [bind, Except.bind] at hzero
    split at hzero
    · cases hzero
      exact Triple.lift (fun _ h => by cases h) fun e h => ⟨msg, by cases h; rfl⟩
    · simp only [hzero]
      exact Triple.lift (fun _ h => by cases h) fun e h => ⟨msg, by cases h; rfl⟩

end OhmEcdsa
