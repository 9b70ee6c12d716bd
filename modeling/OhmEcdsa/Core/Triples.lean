import OhmEcdsa.Core.Dkg

/-!
# Beaver triples (`src/protocol/triples.rs`)

`[α]`, `[β]` are joint sharings; each party re-shares its local product with a
DLEQ product proof, and the Lagrange-weighted sum of the re-sharings is `[αβ]`:

    2·t ≤ n + 1 →
      Triple (n ≤ rngs) (generateWithCommittee c sid none) (∃ pub, BeaverTriple c · pub) False
                                                                    (generate_triple)
-/

set_option linter.unusedSectionVars false

namespace OhmEcdsa

open Polynomial FeldmanCommitment Hoare Interpolation

/-- One party's share of a triple `(α, β, γ = αβ)`. -/
structure TripleShare (F : Type) where
  index : PartyId
  a : F
  b : F
  c : F
  deriving DecidableEq

/-- Public commitments to the triple's three polynomials. -/
structure TriplePublic (G : Type) where
  ca : FeldmanCommitment G
  cb : FeldmanCommitment G
  cc : FeldmanCommitment G
  deriving DecidableEq

/-- Fault hooks of the factory. -/
structure TripleTamper where
  badReshare : Option (PartyId × PartyId)
  badProductProof : Option PartyId

/-- What one dealer re-shares in T2: its commitment, its proved statement and
its shares by receiver position. -/
structure Reshare (F G : Type) where
  com : FeldmanCommitment G
  proof : G × G × DleqProof F G
  shares : List F

variable {F G : Type} [Field F] [DecidableEq F] [AddCommGroup G] [Module F G] [DecidableEq G] [K256 F G]

/-! ## Algorithm -/

/-- T2: the party at position `k` re-shares its local product. -/
def reshare (committee : Committee) (sid : Bytes) (cb : FeldmanCommitment G) (aShares bShares : List F)
    (j : PartyId) (k : Nat) : RngM F (Reshare F G) := do
  let a ← lift (nth aShares k)
  let b ← lift (nth bShares k)
  let g ← ShamirPoly.random (a * b) committee.t k
  let proof ← DleqProof.prove sid tags.tripleProduct a (K256.generator F) (cb.evalAt F j) k
  return ⟨fromPoly g, proof, committee.ids.map g.eval⟩

/-- Fault injection between T2 and T3. -/
def tamperReshares (committee : Committee) (tamper : Option TripleTamper) (deals : List (Reshare F G)) :
    List (Reshare F G) :=
  match tamper with
  | none => deals
  | some tamp =>
    let deals := match tamp.badReshare with
      | none => deals
      | some (dealer, victim) =>
        match committee.position dealer, committee.position victim with
        | some d, some v => deals.modify d fun r => { r with shares := r.shares.modify v (· + 1) }
        | _, _ => deals
    match tamp.badProductProof.bind committee.position with
    | none => deals
    | some p => deals.modify p fun r =>
        { r with proof := (r.proof.1, r.proof.2.1, { r.proof.2.2 with z := r.proof.2.2.z + 1 }) }

/-- T3: the product proof of dealer `j` is about its own points. -/
def productProofValid (sid : Bytes) (ca cb : FeldmanCommitment G) (j : PartyId) (deal : Reshare F G) :
    Outcome Bool :=
  let (x1, x2, proof) := deal.proof
  if x1 ≠ ca.evalAt F j then .ok false
  else do
    let p0 ← nth deal.com.points 0
    return x2 == p0 && DleqProof.verify sid tags.tripleProduct (K256.generator F) x1 (cb.evalAt F j) x2 proof

/-- T3: verify one dealer; any failure aborts. -/
def checkReshare (committee : Committee) (sid : Bytes) (ca cb : FeldmanCommitment G)
    (e : PartyId × Reshare F G) : Outcome Unit := do
  let valid ← productProofValid sid ca cb e.1 e.2
  if valid then
    (committee.ids.zip e.2.shares).forM fun is =>
      if e.2.com.verifyShare is.1 is.2 then .ok ()
      else .error (resolveComplaint .triples e.2.com e.1 is.1 is.2)
  else throw (abort .triples [e.1] "invalid DLEQ product proof")

/-- The Lagrange-weighted commitment `Σ λ_j·C_j`. -/
def combineCommitments (lambdas : List F) (deals : List (Reshare F G)) : Outcome (FeldmanCommitment G) :=
  match List.zipWith (fun (l : F) (d : Reshare F G) => d.com.scale l) lambdas deals with
  | [] => .error (.panic "n >= 1")
  | first :: rest => .ok (rest.foldl add first)

/-- The `γ`-share of the receiver at position `k`. -/
def combineShare (lambdas : List F) (deals : List (Reshare F G)) (k : Nat) : Outcome F := do
  let terms ← (lambdas.zip deals).mapM fun e => do
    let s ← nth e.2.shares k
    return e.1 * s
  return terms.foldl (· + ·) 0

/-- The record of the party at position `k`. -/
def tripleRecord (lambdas aShares bShares : List F) (deals : List (Reshare F G)) (pub : TriplePublic G)
    (e : PartyId × Nat) : Outcome (TripleShare F × TriplePublic G) := do
  let a ← nth aShares e.2
  let b ← nth bShares e.2
  let c ← combineShare lambdas deals e.2
  return (⟨e.1, a, b, c⟩, pub)

/-- T3 of `generate_with_committee`: fail-fast. -/
def combineReshares (committee : Committee) (sid : Bytes) (ca cb : FeldmanCommitment G)
    (lambdas aShares bShares : List F) (deals : List (Reshare F G)) :
    Outcome (List (TripleShare F × TriplePublic G)) := do
  (committee.ids.zip deals).forM (checkReshare committee sid ca cb)
  let cc ← combineCommitments lambdas deals
  committee.ids.zipIdx.mapM (tripleRecord lambdas aShares bShares deals ⟨ca, cb, cc⟩)

/-- T1 and T2, common to the fail-fast and the robust factory. -/
def dealTriple (committee : Committee) (sid : Bytes) : RngM F (FeldmanCommitment G × FeldmanCommitment G ×
    List F × List F × List F × List (Reshare F G)) := do
  let aOut ← jointRandom committee (sid ++ utf8 "/alpha") .triples
  let bOut ← jointRandom committee (sid ++ utf8 "/beta") .triples
  let aShares := aOut.map (·.share)
  let bShares := bOut.map (·.share)
  let a0 ← lift (nth aOut 0)
  let b0 ← lift (nth bOut 0)
  let lambdas ← lift (lagrangeCoeffs committee.ids)
  let deals ← committee.ids.zipIdx.mapM fun e => reshare committee sid b0.com aShares bShares e.1 e.2
  return (a0.com, b0.com, lambdas, aShares, bShares, deals)

def generateWithCommittee (committee : Committee) (sid : Bytes) (tamper : Option TripleTamper) :
    RngM F (List (TripleShare F × TriplePublic G)) := do
  let (ca, cb, lambdas, aShares, bShares, deals) ← dealTriple committee sid
  lift (combineReshares committee sid ca cb lambdas aShares bShares (tamperReshares committee tamper deals))

/-! ### `generate_robust_with_committee` -/

/-- A dealer with bad shares is blamed, and its contaminated shares are
recomputed from the first `t` valid ones. -/
def repairReshare (committee : Committee) (sid : Bytes) (ca cb : FeldmanCommitment G)
    (e : PartyId × Reshare F G) : Outcome (Reshare F G × List PartyId) := do
  let valid ← productProofValid sid ca cb e.1 e.2
  if !valid then throw (abort .triples [e.1] "invalid DLEQ product proof")
  else
    let (valid, victims) := partitionShares e.2.com (committee.ids.zip e.2.shares)
    if victims = [] then return (e.2, [])
    else if valid.length < committee.t.val then
      throw (abort .triples [e.1]
        "fewer than t valid re-shared shares; committed re-sharing polynomial unrecoverable")
    else
      let validParties := (valid.map (·.1)).take committee.t.val
      let validShares := (valid.map (·.2)).take committee.t.val
      let shares ← victims.foldlM (fun shares i =>
        match committee.position i with
        | none => .error (.panic "victim is a member")
        | some v => do
          let s ← interpolateAt (scalarFrom i) validParties validShares
          return shares.set v s) e.2.shares
      return ({ e.2 with shares := shares }, [e.1])

def generateRobustWithCommittee (committee : Committee) (sid : Bytes) (tamper : Option TripleTamper) :
    RngM F (List (TripleShare F × TriplePublic G) × List PartyId) := do
  let (ca, cb, lambdas, aShares, bShares, deals) ← dealTriple committee sid
  lift (do
    let repaired ← (committee.ids.zip (tamperReshares committee tamper deals)).mapM
      (repairReshare committee sid ca cb)
    let deals := repaired.map (·.1)
    let blamed := repaired.flatMap (·.2)
    let cc ← combineCommitments lambdas deals
    let out ← (committee.ids.zipIdx.filter fun e => !blamed.contains e.1).mapM
      (tripleRecord lambdas aShares bShares deals ⟨ca, cb, cc⟩)
    return (out, blamed))

/-! ## Lemmas -/

/-- The output of the factory: three committed sharings with `γ = αβ`. -/
structure BeaverTriple (c : Committee) (outs : List (TripleShare F × TriplePublic G))
    (pub : TriplePublic G) : Prop where
  length_ca : pub.ca.points.length = c.t.val
  length_cb : pub.cb.points.length = c.t.val
  length_cc : pub.cc.points.length = c.t.val
  outs_eq : outs = c.ids.map fun i => (⟨i, (pub.ca.poly F).eval (scalarFrom i),
    (pub.cb.poly F).eval (scalarFrom i), (pub.cc.poly F).eval (scalarFrom i)⟩, pub)
  product : (pub.cc.poly F).eval 0 = (pub.ca.poly F).eval 0 * (pub.cb.poly F).eval 0

/-- What an honest dealer of `a·b` at `j` produces. -/
structure HonestReshare (c : Committee) (sid : Bytes) (cb : FeldmanCommitment G) (j : PartyId) (a b : F)
    (deal : Reshare F G) : Prop where
  length : deal.com.points.length = c.t.val
  secret : (deal.com.poly F).eval 0 = a * b
  head : deal.com.points.head? = some ((a * b) • K256.generator F)
  shares : deal.shares = c.ids.map fun i => (deal.com.poly F).eval (scalarFrom i)
  proof : ∃ w, deal.proof = DleqProof.proveWith sid tags.tripleProduct a (K256.generator F) (cb.evalAt F j) w

theorem nth_zero_map {α : Type} (c : Committee) (f : PartyId → α) :
    ∃ i ∈ c.ids, nth (c.ids.map f) 0 = .ok (f i) := by
  obtain ⟨i, l, hl⟩ := List.exists_cons_of_ne_nil c.ids_ne
  refine ⟨i, by rw [hl]; exact List.mem_cons_self, ?_⟩
  rw [hl]
  rfl

theorem lt_n_of_mem_zipIdx {c : Committee} {e : PartyId × Nat} (he : e ∈ c.ids.zipIdx) : e.2 < c.n :=
  (List.getElem?_eq_some_iff.mp (List.mem_zipIdx_iff_getElem?.mp he)).1

theorem reshare_triple (c : Committee) (sid : Bytes) (cb : FeldmanCommitment G) (a b : PartyId → F)
    (e : PartyId × Nat) (he : e ∈ c.ids.zipIdx) :
    Triple (Enough c.n) (reshare c sid cb (c.ids.map a) (c.ids.map b) e.1 e.2)
      (HonestReshare c sid cb e.1 (a e.1) (b e.1)) Never := by
  have hk := lt_n_of_mem_zipIdx he
  unfold reshare
  rw [nth_map_of_mem _ a he, nth_map_of_mem _ b he]
  refine Triple.lift_bind rfl (Triple.lift_bind rfl ?_)
  refine (random_triple hk (a e.1 * b e.1) c.t c.t_pos).bind fun g hg => ?_
  have hprove : Triple (Enough c.n) (DleqProof.prove sid tags.tripleProduct (a e.1) (K256.generator F)
      (cb.evalAt F e.1) e.2) (fun p => ∃ w, p = DleqProof.proveWith sid tags.tripleProduct (a e.1)
        (K256.generator F) (cb.evalAt F e.1) w) Never :=
    (randomScalar_triple hk).bind fun w _ => Triple.pure ⟨w, rfl⟩
  refine hprove.bind fun proof hproof => Triple.pure ?_
  obtain ⟨hlen, hhead⟩ := hg
  obtain ⟨coeffs⟩ := g
  cases coeffs with
  | nil => cases hhead
  | cons s cs =>
    obtain rfl : s = a e.1 * b e.1 := Option.some.inj hhead
    refine ⟨by simpa [fromPoly] using hlen, ?_, rfl, ?_, hproof⟩
    · simp [ShamirPoly.poly]
    · exact List.map_congr_left fun i _ => by rw [poly_fromPoly, ShamirPoly.eval_eq]

/-- The proof of an honest dealer verifies against its own commitment. -/
theorem productProofValid_ok {c : Committee} {sid : Bytes} {ca cb : FeldmanCommitment G} {j : PartyId}
    {deal : Reshare F G}
    (h : HonestReshare c sid cb j ((ca.poly F).eval (scalarFrom j)) ((cb.poly F).eval (scalarFrom j)) deal) :
    productProofValid sid ca cb j deal = .ok true := by
  obtain ⟨w, hw⟩ := h.proof
  have hp0 : nth deal.com.points 0 = .ok ((ca.poly F).eval (scalarFrom j) • cb.evalAt F j) := by
    unfold nth
    rw [← List.head?_eq_getElem?, h.head, mul_smul, ← evalAt_eq]
  have hver := DleqProof.verify_proveWith (F := F) (G := G) sid tags.tripleProduct
    ((ca.poly F).eval (scalarFrom j)) (K256.generator F) (cb.evalAt F j) w
  have hx1 := (evalAt_eq (F := F) ca j).symm
  unfold productProofValid
  rw [hw]
  simp only [DleqProof.proveWith, hx1, ne_eq, not_true_eq_false, if_false, hp0] at hver ⊢
  simp only [bind, Except.bind, beq_self_eq_true, Bool.true_and, hver]
  rfl

/-- **Honest re-sharings pass T3.** -/
theorem checkReshare_ok {c : Committee} {sid : Bytes} {ca cb : FeldmanCommitment G} {j : PartyId}
    {deal : Reshare F G}
    (h : HonestReshare c sid cb j ((ca.poly F).eval (scalarFrom j)) ((cb.poly F).eval (scalarFrom j)) deal) :
    checkReshare c sid ca cb (j, deal) = .ok () := by
  unfold checkReshare
  simp only [productProofValid_ok h, bind, Except.bind, if_true]
  refine forM_ok_of _ _ fun is his => ?_
  rw [h.shares, ← List.map_prod_left_eq_zip] at his
  obtain ⟨i, -, rfl⟩ := List.mem_map.mp his
  rw [if_pos ((verifyShare_iff _ _ _).mpr rfl)]

section Combine

variable {c : Committee} {sid : Bytes} {ca cb : FeldmanCommitment G} (lam : PartyId → F)
  (deal : PartyId → Reshare F G) (hdeal : ∀ j ∈ c.ids, HonestReshare c sid cb j
    ((ca.poly F).eval (scalarFrom j)) ((cb.poly F).eval (scalarFrom j)) (deal j))

include hdeal

/-- The combined commitment is the weighted sum of the dealers' polynomials. -/
theorem combineCommitments_ok :
    ∃ cc, combineCommitments (c.ids.map lam) (c.ids.map deal) = .ok cc ∧
      cc.poly F = (c.ids.map fun j => C (lam j) * (deal j).com.poly F).sum ∧
      cc.points.length = c.t.val := by
  have hzip : List.zipWith (fun (l : F) (d : Reshare F G) => d.com.scale l) (c.ids.map lam) (c.ids.map deal) =
      c.ids.map fun j => (deal j).com.scale (lam j) := by
    rw [List.zipWith_map, List.zipWith_self]
  obtain ⟨i, l, hl⟩ := List.exists_cons_of_ne_nil c.ids_ne
  refine ⟨(l.map fun j => (deal j).com.scale (lam j)).foldl add ((deal i).com.scale (lam i)), ?_, ?_, ?_⟩
  · unfold combineCommitments
    rw [hzip, hl, List.map_cons]
  · rw [poly_foldl_add, hl, List.map_cons, List.sum_cons, List.map_map, poly_scale]
    simp only [Function.comp_def, poly_scale]
  · refine length_foldl_add _ _ _ (fun d hd => ?_) ?_
    · obtain ⟨j, hj, rfl⟩ := List.mem_map.mp hd
      rw [length_scale, (hdeal j (by rw [hl]; exact List.mem_cons_of_mem _ hj)).length]
    · rw [length_scale, (hdeal i (by rw [hl]; exact List.mem_cons_self)).length]

/-- The combined share of a member is the combined polynomial's value at it. -/
theorem combineShare_ok (e : PartyId × Nat) (he : e ∈ c.ids.zipIdx) :
    combineShare (c.ids.map lam) (c.ids.map deal) e.2 =
      .ok ((c.ids.map fun j => C (lam j) * (deal j).com.poly F).sum.eval (scalarFrom e.1)) := by
  have hterm : ∀ j ∈ c.ids, (do
      let s ← nth (deal j).shares e.2
      return lam j * s : Outcome F) = .ok (lam j * ((deal j).com.poly F).eval (scalarFrom e.1)) := by
    intro j hj
    rw [(hdeal j hj).shares, nth_map_of_mem _ _ he]
    rfl
  have hfold : ∀ (l : List F) (acc : F), l.foldl (· + ·) acc = acc + l.sum := by
    intro l
    induction l with
    | nil => intro acc; simp
    | cons a l ih => intro acc; rw [List.foldl_cons, ih, List.sum_cons, add_assoc]
  unfold combineShare
  rw [List.zip_map', List.mapM_map, Function.comp_def, mapM_ok_of _ _ _ hterm]
  simp only [bind, Except.bind]
  rw [hfold, zero_add, eval_listSum, List.map_map]
  simp only [Function.comp_def, eval_mul, eval_C]
  rfl

/-- **Degree reduction**: with the Lagrange weights at 0 the combination
re-shares the product of the two secrets. -/
theorem combine_product (ht : 2 * c.t.val ≤ c.n + 1) (hca : ca.points.length = c.t.val)
    (hcb : cb.points.length = c.t.val) :
    (c.ids.map fun j => C (weight 0 (c.ids.map scalarFrom) (scalarFrom j)) * (deal j).com.poly F).sum.eval 0 =
      (ca.poly F).eval 0 * (cb.poly F).eval 0 := by
  have hdeg : (ca.poly F * cb.poly F).degree < (c.ids.map (scalarFrom : PartyId → F)).length := by
    have ha := degree_poly_lt (F := F) ca
    have hb := degree_poly_lt (F := F) cb
    rw [hca] at ha
    rw [hcb] at hb
    rw [List.length_map]
    exact degree_mul_lt _ _ ha hb c.t_pos ht
  have hnd : (c.ids.map (scalarFrom : PartyId → F)).Nodup := map_scalarFrom_nodup F G c.nodup
  have hint := sum_weight_mul_eval 0 _ hnd _ hdeg
  rw [List.map_map, eval_mul] at hint
  rw [eval_listSum, List.map_map, ← hint]
  refine congrArg _ (List.map_congr_left fun j hj => ?_)
  simp only [Function.comp_apply, eval_mul, eval_C, (hdeal j hj).secret]

end Combine

theorem combineReshares_ok {c : Committee} {sid : Bytes} {ca cb : FeldmanCommitment G}
    (ht : 2 * c.t.val ≤ c.n + 1) (hca : ca.points.length = c.t.val) (hcb : cb.points.length = c.t.val)
    (deal : PartyId → Reshare F G) (hdeal : ∀ j ∈ c.ids, HonestReshare c sid cb j
      ((ca.poly F).eval (scalarFrom j)) ((cb.poly F).eval (scalarFrom j)) (deal j)) :
    ∃ outs cc, combineReshares c sid ca cb
        (c.ids.map fun j => weight 0 (c.ids.map scalarFrom) (scalarFrom j))
        (c.ids.map fun j => (ca.poly F).eval (scalarFrom j))
        (c.ids.map fun j => (cb.poly F).eval (scalarFrom j)) (c.ids.map deal) = .ok outs ∧
      BeaverTriple c outs ⟨ca, cb, cc⟩ := by
  obtain ⟨cc, hcc, hpoly, hlen⟩ :=
    combineCommitments_ok (fun j => weight 0 (c.ids.map scalarFrom) (scalarFrom j)) deal hdeal
  refine ⟨_, cc, ?_, hca, hcb, hlen, rfl, by rw [hpoly]; exact combine_product deal hdeal ht hca hcb⟩
  have hcheck : (c.ids.zip (c.ids.map deal)).forM (checkReshare c sid ca cb) = .ok () := by
    refine forM_ok_of _ _ fun e he => ?_
    rw [← List.map_prod_left_eq_zip] at he
    obtain ⟨j, hj, rfl⟩ := List.mem_map.mp he
    exact checkReshare_ok (hdeal j hj)
  unfold combineReshares
  rw [hcheck, hcc]
  simp only [bind, Except.bind]
  refine mapM_zipIdx_ok _ _ _ fun e he => ?_
  unfold tripleRecord
  rw [nth_map_of_mem _ _ he, nth_map_of_mem _ _ he, combineShare_ok _ deal hdeal e he, hpoly]
  rfl

/-- **The triple factory is correct among honest parties**, and `α` is what its
first joint sharing deals. -/
theorem generate_run (c : Committee) (ht : 2 * c.t.val ≤ c.n + 1) (sid : Bytes) (s : Rngs F) (hs : Enough c.n s) :
    ∃ aOut ca s₁, (jointRandom c (sid ++ utf8 "/alpha") .triples : RngM F (List (DkgOutput F G))) s = (.ok aOut, s₁) ∧
      JointSharing c aOut ca ∧ ∃ outs s', generateWithCommittee c sid none s = (.ok outs, s') ∧
        Enough c.n s' ∧ ∃ pub : TriplePublic G, pub.ca = ca ∧ BeaverTriple c outs pub := by
  obtain ⟨aOut, s₁, hrun, hs₁, ca, hjs⟩ := (jointRandom_triple (F := F) (G := G) c (sid ++ utf8 "/alpha") .triples).ok hs
  refine ⟨aOut, ca, s₁, hrun, hjs, ?_⟩
  obtain ⟨hca, rfl⟩ := hjs
  unfold generateWithCommittee dealTriple
  simp only [bind_assoc]
  refine Triple.bind_ok hrun hs₁ ?_
  refine (jointRandom_triple c _ _).bind ?_
  rintro _ ⟨cb, hcb, rfl⟩
  obtain ⟨i, -, hi⟩ := nth_zero_map c fun i =>
    (⟨i, (ca.poly F).eval (scalarFrom i), ca⟩ : DkgOutput F G)
  obtain ⟨i', -, hi'⟩ := nth_zero_map c fun i =>
    (⟨i, (cb.poly F).eval (scalarFrom i), cb⟩ : DkgOutput F G)
  have hlam := lagrangeCoeffsAt_eq (0 : F) c.ids (map_scalarFrom_nodup F G c.nodup)
  rw [hi, hi', lagrangeCoeffs, hlam]
  refine Triple.lift_bind rfl (Triple.lift_bind rfl (Triple.lift_bind rfl ?_))
  simp only [List.map_map, Function.comp_def]
  refine (Triple.mapM _ fun e he => reshare_triple c sid _ _ _ e he).bind fun deals hdeals => ?_
  have : Nonempty (Reshare F G) := ⟨⟨⟨[]⟩, (0, 0, ⟨0, 0, 0⟩), []⟩⟩
  obtain ⟨deal, rfl, hdeal⟩ := forall₂_exists_map c.nodup (forall₂_zipIdx
    (R := fun j => HonestReshare c sid cb j ((ca.poly F).eval (scalarFrom j))
      ((cb.poly F).eval (scalarFrom j))) hdeals)
  obtain ⟨outs, cc, hok, hbt⟩ := combineReshares_ok ht hca hcb deal hdeal
  simp only [pure_bind, tamperReshares]
  rw [hok]
  exact Triple.lift (fun _ h => by cases h; exact ⟨_, rfl, hbt⟩) (fun _ h => by cases h)

theorem generate_triple (c : Committee) (ht : 2 * c.t.val ≤ c.n + 1) (sid : Bytes) :
    Triple (Enough c.n) (generateWithCommittee c sid none : RngM F (List (TripleShare F × TriplePublic G)))
      (fun outs => ∃ pub, BeaverTriple c outs pub) Never := by
  intro s hs
  obtain ⟨_, _, _, -, -, outs, s', hrun, hs', pub, -, hbt⟩ := generate_run (F := F) (G := G) c ht sid s hs
  rw [hrun]
  exact ⟨hs', pub, hbt⟩

end OhmEcdsa
