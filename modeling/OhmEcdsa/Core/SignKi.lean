import OhmEcdsa.Core.Sign
import OhmEcdsa.Core.Transport

/-!
# Key-independent signing (`presign_ki`, `combine_ki`, `run_sign_ki`)

The pool record carries `[u]` and `R` but no key; signing multiplies `[u]` by
the key `[x]` with a triple generated on the spot for all of `1..=n`.  The code
reads that triple by position in the quorum, so the masks are the right ones
exactly when they do not depend on the party or position `k` is party `k + 1`:

    (∀ rngs, … → run_sign_ki signs) ↔ m + r·x ≠ 0 ∧ (t = 1 ∨ quorum = 1..=len)     (runSignKi_iff)
-/

set_option linter.unusedSectionVars false

namespace OhmEcdsa

open Polynomial Interpolation FeldmanCommitment Hoare

variable {F G : Type} [Field F] [DecidableEq F] [AddCommGroup G] [Module F G] [DecidableEq G] [K256 F G]

/-! ## Algorithm: presign.rs -/

def presignKiSid (id : U64) : Bytes := utf8 ("ohm-ecdsa/presign-ki/" ++ toString id.val)

/-- P1–P3 of presigning, with one triple and no key. -/
def presignKiWithCommittee (committee : Committee) (id : U64) (tamper : Option PresignTamper) :
    RngM F (List (KiPresignature F G)) := do
  let s ← get
  if s.rngs.length < committee.n then throw (.error (.invalidParams "rngs must cover the committee"))
  else
    let sid := presignKiSid id
    let t1 ← generateWithCommittee committee (sid ++ utf8 "/t1") (tamper.bind (·.tripleTamper))
    let uOut ← jointRandom committee (sid ++ utf8 "/u") .presign
    let aOut ← jointRandom committee (sid ++ utf8 "/a") .presign
    lift (do
      let pub1 ← nth t1 0
      let u0 ← nth uOut 0
      let a0 ← nth aOut 0
      let vInv ← openInverse committee tamper t1 pub1.2 u0.com a0.com (uOut.map (·.share)) (aOut.map (·.share))
      let (bigR, r) ← openNonce committee tamper a0.com (aOut.map (·.share)) vInv
      committee.ids.zipIdx.mapM fun e => do
        let u ← nth (uOut.map (·.share)) e.2
        return ⟨id, e.1, r, bigR, u, u0.com⟩)

/-! ## Algorithm: sign.rs -/

/-- Fault hooks of the two online rounds. -/
structure KiSignTamper (F : Type) where
  badOpenShare : Option PartyId
  badSignShare : Option (PartyId × F)

/-- `meta` is any party's record: the commitments are identical. -/
def combineKi (params : Params) (record : KiPresignature F G) (zCom : FeldmanCommitment G) (m : F)
    (shares : List (SignShare F)) : Outcome (F × F) :=
  combineVerified params.t 0 record.r (signCom record.uCom zCom m record.r) shares

/-! ## Algorithm: sim.rs -/

/-- `deltas.get_mut(&j)`: a wrong R1 opening share. -/
def tamperDelta (tamper : Option (KiSignTamper F)) (deltas : PartyMap F) : PartyMap F :=
  match tamper.bind (·.badOpenShare) with
  | none => deltas
  | some j =>
    match deltas[j]? with
    | none => deltas
    | some s => deltas.insert j (s + 1)

/-- R1 and R2 with the fresh triple. -/
def onlineKi (params : Params) (keys : List (KeyShare F G)) (presigs : List (KiPresignature F G)) (m : F)
    (tamper : Option (KiSignTamper F)) (triple : List (TripleShare F × TriplePublic G)) : Outcome (Signature F) := do
  let ids := presigs.map (·.index)
  let t0 ← nth triple 0
  let record ← nth presigs 0
  let key0 ← nth keys 0
  let deltas ← sharesBy ids (maskedShare (presigs.map (·.uShare)) triple (·.a))
  let epsilons ← sharesBy (keys.map (·.index)) (maskedShare (keys.map (·.share)) triple (·.b))
  let delta ← «open» params.t (record.uCom.add (t0.2.ca.scale (-1 : F))) (tamperDelta tamper deltas) .sign
  let eps ← «open» params.t (key0.com.add (t0.2.cb.scale (-1 : F))) epsilons .sign
  let zCom ← kiZCom t0.2 delta eps
  let shares ← presigs.zipIdx.mapM fun e => do
    let tr ← nth triple e.2
    return signShareKi e.1 (kiZShare tr.1 delta eps) m
  let shares := match tamper.bind (·.badSignShare) with
    | none => shares
    | some (party, fake) => shares.map fun sh => if sh.sender = party then ⟨sh.sender, fake⟩ else sh
  let (r, s) ← combineKi params record zCom m shares
  finishSignature G r s

/-- Two-round signing with a key-independent record: the triple is generated
for all of `params`. -/
def runSignKi (params : Params) (keys : List (KeyShare F G)) (presigs : List (KiPresignature F G)) (msg : Bytes)
    (tamper : Option (KiSignTamper F)) : RngM F (Signature F) :=
  if keys.length ≠ presigs.length ∨ (keys.zip presigs).any fun e => e.1.index != e.2.index then
    throw (.error (.invalidParams "keys/presigs must match positionally (keys[i].index == presigs[i].index)"))
  else do
    let record ← lift (nth presigs 0)
    let committee ← lift (Committee.full params)
    let triple ← generateWithCommittee committee (utf8 "ohm-ecdsa/sign-ki/" ++ u64Bytes record.id.val) none
    lift (onlineKi params keys presigs (messageScalar F G msg) tamper triple)

/-! ## Lemmas: the records -/

/-- The records of one key-independent presignature with the nonce `k`. -/
structure KiPresigned (c : Committee) (id : U64) (ps : List (KiPresignature F G)) (uCom : FeldmanCommitment G)
    (k r : F) : Prop where
  degree_u : (uCom.poly F).degree < c.t.val
  inverse : (uCom.poly F).eval 0 * k = 1
  nonce : (K256.xBytes F (k • K256.generator F : G)).map (K256.scalarFromDigest G) = some r
  r_ne : r ≠ 0
  ps_eq : ps = c.ids.map fun i => ⟨id, i, r, k • K256.generator F, (uCom.poly F).eval (scalarFrom i), uCom⟩

/-- **Key-independent presigning among honest parties** gives the records of
one presignature, or the zero-value restart. -/
theorem presignKi_triple (c : Committee) (ht : 2 * c.t.val ≤ c.n + 1) (id : U64) :
    Triple (Enough c.n) (presignKiWithCommittee (F := F) (G := G) c id none)
      (fun ps => ∃ uCom k r, KiPresigned c id ps uCom k r) (fun e => ∃ msg, e = .error (.zeroValue msg)) := by
  have hn := c.t_le_n ht
  unfold presignKiWithCommittee
  refine Triple.get_bind fun s hs => ?_
  rw [if_neg (Nat.not_lt.mpr hs)]
  refine ((generate_triple c ht _).conseq (fun _ h => h) fun e he => he.elim).bind ?_
  rintro t1 ⟨pub1, h1⟩
  refine ((jointRandom_triple c _ _).conseq (fun _ h => h) fun e he => he.elim).bind ?_
  rintro _ ⟨uCom, hulen, rfl⟩
  refine ((jointRandom_triple c _ _).conseq (fun _ h => h) fun e he => he.elim).bind ?_
  rintro _ ⟨aCom, halen, rfl⟩
  have hu : (uCom.poly F).degree < c.t.val := hulen ▸ degree_poly_lt uCom
  have ha : (aCom.poly F).degree < c.t.val := halen ▸ degree_poly_lt aCom
  obtain ⟨i1, -, hi1⟩ := nth_zero_map c fun i => (⟨i, (uCom.poly F).eval (scalarFrom i), uCom⟩ : DkgOutput F G)
  obtain ⟨i2, -, hi2⟩ := nth_zero_map c fun i => (⟨i, (aCom.poly F).eval (scalarFrom i), aCom⟩ : DkgOutput F G)
  obtain ⟨s1, hs1⟩ := h1.nth_zero
  simp only [List.map_map, Function.comp_def, hs1, hi1, hi2, bind, Except.bind]
  rcases openNonce_cases hn h1 uCom aCom hu ha with ⟨vInv, k, r, hinv, hnonce, huk, hr, hx⟩ | ⟨msg, hzero⟩
  · have hrecords : (c.ids.zipIdx.mapM fun e => do
        let u ← nth (c.ids.map fun i => (uCom.poly F).eval (scalarFrom i)) e.2
        return ⟨id, e.1, r, k • K256.generator F, u, uCom⟩ : Outcome (List (KiPresignature F G))) =
        .ok (c.ids.map fun i => ⟨id, i, r, k • K256.generator F, (uCom.poly F).eval (scalarFrom i), uCom⟩) := by
      refine mapM_zipIdx_ok _ _ _ fun e he => ?_
      rw [nth_map_of_mem _ _ he]
      rfl
    simp only [bind, Except.bind] at hrecords
    simp only [hinv, hnonce, hrecords]
    refine Triple.lift (fun ps h => ?_) (fun _ h => by cases h)
    exact ⟨uCom, k, r, hu, huk, hx, hr, (Except.ok.inj h).symm⟩
  · simp only [bind, Except.bind] at hzero
    split at hzero
    · cases hzero
      exact Triple.lift (fun _ h => by cases h) fun e h => ⟨msg, by cases h; rfl⟩
    · simp only [hzero]
      exact Triple.lift (fun _ h => by cases h) fun e h => ⟨msg, by cases h; rfl⟩

/-! ## Lemmas: the online rounds -/

/-- What a quorum supplies: for each of its members, in one order, its key share
and its record. -/
structure KiQuorum (c : Committee) (p : F[X]) (id : U64) (uCom : FeldmanCommitment G) (k r : F)
    (keys : List (KeyShare F G)) (presigs : List (KiPresignature F G)) : Prop where
  keys_sharing : ∃ all, KeySharing c all p ∧ ∀ key ∈ keys, key ∈ all
  presigned : ∃ all, KiPresigned c id all uCom k r ∧ ∀ ps ∈ presigs, ps ∈ all
  matched : keys.map (·.index) = presigs.map (·.index)
  distinct : (presigs.map (·.index)).Nodup
  quorum : c.t.val ≤ presigs.length

section Quorum

variable {c : Committee} {p : F[X]} {id : U64} {uCom : FeldmanCommitment G} {k r : F}
  {keys : List (KeyShare F G)} {presigs : List (KiPresignature F G)} (h : KiQuorum c p id uCom k r keys presigs)

include h

theorem KiQuorum.signBasis_of {zCom : FeldmanCommitment G} (hz : (zCom.poly F).degree < c.t.val) {x : F}
    (hx : (zCom.poly F).eval 0 = (uCom.poly F).eval 0 * x) : SignBasis c.t x uCom zCom k r := by
  obtain ⟨all, hall, -⟩ := h.presigned
  exact ⟨hall.degree_u, hz, hall.inverse, hx, hall.nonce, hall.r_ne⟩

theorem KiQuorum.presigs_eq : presigs = (presigs.map (·.index)).map fun i =>
    ⟨id, i, r, k • K256.generator F, (uCom.poly F).eval (scalarFrom i), uCom⟩ := by
  obtain ⟨all, hall, hsub⟩ := h.presigned
  rw [List.map_map]
  conv_lhs => rw [← List.map_id presigs]
  refine List.map_congr_left fun ps hps => ?_
  have := hsub ps hps
  rw [hall.ps_eq] at this
  obtain ⟨i, -, rfl⟩ := List.mem_map.mp this
  rfl

theorem KiQuorum.keys_shares : keys.map (·.share) = (presigs.map (·.index)).map fun i => p.eval (scalarFrom i) := by
  obtain ⟨all, hall, hsub⟩ := h.keys_sharing
  rw [← h.matched, List.map_map]
  exact List.map_congr_left fun key hkey => hall.share key (hsub key hkey)

theorem KiQuorum.degree_p : p.degree < c.t.val := by
  obtain ⟨all, hall, -⟩ := h.keys_sharing
  exact hall.degree

theorem KiQuorum.mem_ids {i : PartyId} (hi : i ∈ presigs.map (·.index)) : i ∈ c.ids := by
  obtain ⟨all, hall, hsub⟩ := h.presigned
  obtain ⟨ps, hps, rfl⟩ := List.mem_map.mp hi
  have := hsub ps hps
  rw [hall.ps_eq] at this
  obtain ⟨i, hmem, rfl⟩ := List.mem_map.mp this
  exact hmem

/-- The first record and key of the quorum. -/
theorem KiQuorum.heads : ∃ record key0, nth presigs 0 = .ok record ∧ record.id = id ∧ record.r = r ∧
    record.uCom = uCom ∧ nth keys 0 = .ok key0 ∧ key0.com.poly F = p := by
  obtain ⟨all, hall, hsub⟩ := h.keys_sharing
  have hpos := c.t_pos
  have hq := h.quorum
  have hlen : keys.length = presigs.length := by
    have := congrArg List.length h.matched
    rwa [List.length_map, List.length_map] at this
  obtain ⟨record, presigs', rfl⟩ : ∃ a l, presigs = a :: l :=
    List.exists_cons_of_ne_nil fun hnil => by rw [hnil, List.length_nil] at hq; omega
  obtain ⟨key0, keys', rfl⟩ : ∃ a l, keys = a :: l :=
    List.exists_cons_of_ne_nil fun hnil => by rw [hnil, List.length_nil, List.length_cons] at hlen; omega
  have heq := (List.cons.inj h.presigs_eq).1
  refine ⟨record, key0, rfl, ?_, ?_, ?_, rfl, hall.com key0 (hsub key0 List.mem_cons_self)⟩ <;> rw [heq]

/-- The positional check passes. -/
theorem KiQuorum.check : ¬ (keys.length ≠ presigs.length ∨
    (keys.zip presigs).any (fun e => e.1.index != e.2.index) = true) := by
  have hlen : keys.length = presigs.length := by
    have := congrArg List.length h.matched
    rwa [List.length_map, List.length_map] at this
  rintro (hne | hany)
  · exact hne hlen
  · rw [List.any_eq_true] at hany
    obtain ⟨e, he, hne⟩ := hany
    obtain ⟨i, hi, rfl⟩ := List.mem_iff_getElem.mp he
    have hik : i < keys.length := by rw [List.length_zip] at hi; omega
    have hip : i < presigs.length := by omega
    have hat : keys[i].index = presigs[i].index := by
      have := congrArg (fun l => l[i]?) h.matched
      simpa [hik, hip] using this
    rw [List.getElem_zip, hat] at hne
    simp at hne

/-- **The online rounds sign** when at each position the triple's three
polynomials have the values of the quorum's member. -/
theorem onlineKi_ok {d : Committee} {triple : List (TripleShare F × TriplePublic G)} {pub : TriplePublic G}
    (hbt : BeaverTriple d triple pub) (ht : d.t = c.t) {params : Params} (hparams : params.t = c.t)
    (hat : ∀ e ∈ (presigs.map (·.index)).zipIdx, ∃ j, nth d.ids e.2 = .ok j ∧
      ∀ q : F[X], q.degree < c.t.val → q.eval (scalarFrom j) = q.eval (scalarFrom e.1)) (m : F) :
    onlineKi params keys presigs m none triple =
      finishSignature G r ((uCom.poly F).eval 0 * (m + r * p.eval 0)) := by
  obtain ⟨hca, hcb, hcc⟩ := beaver_degrees hbt
  rw [ht] at hca hcb hcc
  obtain ⟨record, key0, hrecord, -, hr, huCom, hkey0, hkey⟩ := h.heads
  obtain ⟨s0, hs0⟩ := hbt.nth_zero
  have hu : (uCom.poly F).degree < c.t.val := h.presigned.choose_spec.1.degree_u
  have hat' : ∀ e ∈ (presigs.map (·.index)).zipIdx, ∃ j, nth triple e.2 = .ok (⟨j, (pub.ca.poly F).eval (scalarFrom j),
      (pub.cb.poly F).eval (scalarFrom j), (pub.cc.poly F).eval (scalarFrom j)⟩, pub) ∧
      ∀ q : F[X], q.degree < c.t.val → q.eval (scalarFrom j) = q.eval (scalarFrom e.1) := by
    intro e he
    obtain ⟨j, hj, hq⟩ := hat e he
    refine ⟨j, ?_, hq⟩
    rw [hbt.outs_eq, nth_map, hj]
    rfl
  have hlen : params.t.val ≤ (presigs.map (·.index)).length := by
    rw [hparams, List.length_map]
    exact h.quorum
  have hushares : presigs.map (·.uShare) = (presigs.map (·.index)).map fun i => (uCom.poly F).eval (scalarFrom i) := by
    conv_lhs => rw [h.presigs_eq, List.map_map]
    rfl
  obtain ⟨deltas, hdeltas, hdelta⟩ := open_masked_at params.t _ h.distinct hlen triple .sign uCom pub.ca (·.a)
    (fun e he => by
      obtain ⟨j, hj, hq⟩ := hat' e he
      exact ⟨_, hj, hq _ hca⟩) (by rw [hparams]; exact hu) (by rw [hparams]; exact hca)
  obtain ⟨epsilons, hepsilons, heps⟩ := open_masked_at params.t _ h.distinct hlen triple .sign key0.com pub.cb (·.b)
    (fun e he => by
      obtain ⟨j, hj, hq⟩ := hat' e he
      exact ⟨_, hj, hq _ hcb⟩) (by rw [hparams, hkey]; exact h.degree_p) (by rw [hparams]; exact hcb)
  obtain ⟨zCom, hz, hzdeg, hzval, hzshare⟩ := beaver_ok hbt ((uCom.poly F).eval 0) ((key0.com.poly F).eval 0)
  rw [ht] at hzdeg
  rw [hkey] at hepsilons hzval hz heps hzshare
  have hbasis := h.signBasis_of hzdeg hzval
  have hshares : (presigs.zipIdx.mapM fun e => do
      let tr ← nth triple e.2
      return signShareKi e.1 (kiZShare tr.1 ((uCom.poly F).eval 0 - (pub.ca.poly F).eval 0)
        (p.eval 0 - (pub.cb.poly F).eval 0)) m : Outcome (List (SignShare F))) =
      .ok ((presigs.map (·.index)).map fun i => ⟨i, ((signCom uCom zCom m r).poly F).eval (scalarFrom i)⟩) := by
    conv_lhs => rw [h.presigs_eq, List.zipIdx_map, List.mapM_map]
    refine mapM_zipIdx_ok _ (fun i => (⟨i, ((signCom uCom zCom m r).poly F).eval (scalarFrom i)⟩ : SignShare F)) _
      fun e he => ?_
    obtain ⟨j, hj, hq⟩ := hat' e he
    simp only [Function.comp_apply, Prod.map, id_eq, hj, bind, Except.bind, kiZShare, hzshare, signShareKi, hq _ hzdeg,
      poly_signCom, eval_add, eval_mul, eval_C]
    rfl
  have hcombine := combineVerified_ok (G := G) params.t r (signCom uCom zCom m r)
    ((presigs.map (·.index)).map fun i => ⟨i, ((signCom uCom zCom m r).poly F).eval (scalarFrom i)⟩)
    (by rw [List.map_map]; simpa [Function.comp_def] using h.distinct)
    (fun sh hsh => by
      obtain ⟨i, -, rfl⟩ := List.mem_map.mp hsh
      exact (verifyShare_iff _ _ _).mpr rfl)
    (by rw [List.length_map]; exact hlen) (by rw [hparams]; exact degree_signCom hbasis m)
  rw [eval_signCom hbasis] at hcombine
  unfold onlineKi
  simp only [bind, Except.bind] at hshares ⊢
  simp only [hs0, hrecord, hkey0, hushares, h.keys_shares, h.matched, hdeltas, hepsilons, tamperDelta, Option.bind_none,
    huCom, hdelta, heps, kiZCom, hz, hshares, combineKi, hr, hcombine]

/-- **A mask off its own party's value fails the first opening.** -/
theorem onlineKi_misaligned {d : Committee} {triple : List (TripleShare F × TriplePublic G)} {pub : TriplePublic G}
    (hbt : BeaverTriple d triple pub) {params : Params} (hn : presigs.length ≤ d.n) (m : F)
    {e : PartyId × Nat} (he : e ∈ (presigs.map (·.index)).zipIdx) {j : PartyId} (hj : nth d.ids e.2 = .ok j)
    (hne : (pub.ca.poly F).eval (scalarFrom j) ≠ (pub.ca.poly F).eval (scalarFrom e.1)) :
    ∃ fault, onlineKi params keys presigs m none triple = .error fault := by
  obtain ⟨record, key0, hrecord, -, hr, huCom, hkey0, -⟩ := h.heads
  obtain ⟨s0, hs0⟩ := hbt.nth_zero
  have hushares : presigs.map (·.uShare) = (presigs.map (·.index)).map fun i => (uCom.poly F).eval (scalarFrom i) := by
    conv_lhs => rw [h.presigs_eq, List.map_map]
    rfl
  have hnth : ∀ i j, nth d.ids i = .ok j → nth triple i = .ok (⟨j, (pub.ca.poly F).eval (scalarFrom j),
      (pub.cb.poly F).eval (scalarFrom j), (pub.cc.poly F).eval (scalarFrom j)⟩, pub) := by
    intro i j hij
    rw [hbt.outs_eq, nth_map, hij]
    rfl
  have hat : ∀ e' ∈ (presigs.map (·.index)).zipIdx, ∃ j', nth d.ids e'.2 = .ok j' := by
    intro e' he'
    have hlt : e'.2 < d.ids.length := by
      have := (List.getElem?_eq_some_iff.mp (List.mem_zipIdx_iff_getElem?.mp he')).1
      rw [List.length_map] at this
      exact this.trans_le hn
    exact ⟨d.ids[e'.2], by unfold nth; rw [List.getElem?_eq_getElem hlt]⟩
  choose! at' hat using hat
  -- the mask of position `k` is the triple share of the `k`-th party of `1..=n`
  have hdeltas : sharesBy (presigs.map (·.index)) (maskedShare (presigs.map (·.uShare)) triple (·.a)) =
      .ok (collect ((presigs.map (·.index)).zipIdx.map fun e' =>
        (e'.1, (uCom.poly F).eval (scalarFrom e'.1) - (pub.ca.poly F).eval (scalarFrom (at' e'))))) := by
    unfold sharesBy
    rw [mapM_ok_of _ _ _ fun e' he' => by
      unfold maskedShare
      rw [hushares, nth_map_of_mem _ _ he', hnth _ _ (hat e' he')]
      rfl]
    rfl
  have hkeys : ((((presigs.map (·.index)).zipIdx.map fun e' =>
      (e'.1, (uCom.poly F).eval (scalarFrom e'.1) - (pub.ca.poly F).eval (scalarFrom (at' e')))) :
      List (PartyId × F)).map (·.1)).Nodup := by
    rw [List.map_map]
    have := List.zipIdx_map_fst 0 (presigs.map (·.index))
    exact this.symm ▸ h.distinct
  have hat_e : at' e = j := by
    have := hat e he
    rw [hj] at this
    exact (Except.ok.inj this).symm
  have hbad := open_bad params.t (uCom.add (pub.ca.scale (-1 : F))) _ .sign
    ((mem_toList_collect _ hkeys _).mpr (List.mem_map_of_mem he)) (by
      rw [Bool.eq_false_iff]
      intro hv
      rw [verifyShare_iff, poly_add, poly_scale, hat_e] at hv
      simp only [eval_add, eval_mul, eval_C] at hv
      exact hne (by linear_combination hv))
  unfold onlineKi
  simp only [bind, Except.bind, hs0, hrecord, hkey0, hdeltas, tamperDelta, Option.bind_none, huCom, hbad]
  cases sharesBy (keys.map (·.index)) (maskedShare (keys.map (·.share)) triple (·.b)) with
  | error fault => exact ⟨fault, rfl⟩
  | ok epsilons => exact ⟨_, rfl⟩

end Quorum

/-! ## Top theorems -/

/-- Position `k` of the quorum is party `k + 1`: the quorum is `1..=len`. -/
def Aligned (ids : List PartyId) : Prop := ∀ e ∈ ids.zipIdx, e.1.val = e.2 + 1

theorem nth_full {d : Committee} {params : Params} (hd : d.ids = params.parties) {i : Nat}
    (hi : i < params.n.val) : nth d.ids i = .ok (Fin.ofNat (2 ^ 64) (i + 1)) := by
  rw [hd]
  unfold nth Params.parties
  rw [List.getElem?_map, List.getElem?_range hi]
  rfl

section Run

variable {c : Committee} (hc : 2 * c.t.val ≤ c.n + 1) {p : F[X]} {id : U64} {uCom : FeldmanCommitment G} {k r : F}
  {keys : List (KeyShare F G)} {presigs : List (KiPresignature F G)} (h : KiQuorum c p id uCom k r keys presigs)
  {params : Params} (hparams : params.t = c.t) (hn : c.n ≤ params.n.val)

include h in
theorem KiQuorum.length_le : presigs.length ≤ c.n := by
  have := (List.subperm_of_subset h.distinct fun i hi => h.mem_ids hi).length_le
  rwa [List.length_map] at this

include hc h hparams hn

/-- A run is the online rounds with a triple of the whole parameter set. -/
theorem runSignKi_run (msg : Bytes) {rngs : Rngs F} (hrngs : params.n.val ≤ rngs.rngs.length) :
    ∃ d triple pub, d.ids = params.parties ∧ d.t = params.t ∧ d.n = params.n.val ∧ BeaverTriple d triple pub ∧
      (runSignKi params keys presigs msg none rngs).1 =
        onlineKi params keys presigs (messageScalar F G msg) none triple ∧
      ∃ sid aOut s', (jointRandom d sid .triples : RngM F (List (DkgOutput F G))) rngs = (.ok aOut, s') ∧
        JointSharing d aOut pub.ca := by
  have hmaj : 2 * params.t.val ≤ params.n.val + 1 := by
    rw [hparams]
    omega
  obtain ⟨d, hd, hids, hdt, hdn⟩ := full_ok params (by rw [hparams]; exact c.t_pos) hmaj
  obtain ⟨record, -, hrecord, hid, -⟩ := h.heads
  obtain ⟨aOut, ca, s₁, hjoint, hjs, triple, s', hgen, -, pub, hca, hbt⟩ :=
    generate_run (G := G) d (by rw [hdt, hdn]; exact hmaj) (utf8 "ohm-ecdsa/sign-ki/" ++ u64Bytes record.id.val) rngs
      (by unfold Enough; rw [hdn]; exact hrngs)
  refine ⟨d, triple, pub, hids, hdt, hdn, hbt, ?_, _, aOut, s₁, hjoint, hca ▸ hjs⟩
  unfold runSignKi
  rw [if_neg h.check, lift_bind_run, hrecord]
  dsimp only
  rw [lift_bind_run, hd]
  dsimp only
  rw [bind_run, hgen]
  rfl

/-- **Aligned quorums sign**, and so do all when `t = 1`. -/
theorem runSignKi_aligned (hal : c.t.val = 1 ∨ Aligned (presigs.map (·.index))) (msg : Bytes) {rngs : Rngs F}
    (hrngs : params.n.val ≤ rngs.rngs.length) :
    (runSignKi params keys presigs msg none rngs).1 =
      finishSignature G r ((uCom.poly F).eval 0 * (messageScalar F G msg + r * p.eval 0)) := by
  obtain ⟨d, triple, pub, hids, hdt, -, hbt, hrun, -⟩ := runSignKi_run hc h hparams hn msg hrngs
  have hle := h.length_le
  rw [hrun]
  refine onlineKi_ok h hbt (hdt.trans hparams) hparams (fun e he => ?_) _
  have hpos := (List.getElem?_eq_some_iff.mp (List.mem_zipIdx_iff_getElem?.mp he)).1
  rw [List.length_map] at hpos
  refine ⟨_, nth_full hids (hpos.trans_le (hle.trans hn)), fun q hq => ?_⟩
  rcases hal with ht | hal
  · -- a constant has the same value everywhere
    rw [ht] at hq
    have hconst : q = C (q.coeff 0) := eq_C_of_degree_le_zero (Nat.WithBot.lt_one_iff_le_zero.mp (by exact_mod_cast hq))
    rw [hconst, eval_C, eval_C]
  · have : (Fin.ofNat (2 ^ 64) (e.2 + 1) : PartyId) = e.1 := by
      rw [← hal e he]
      exact Fin.ofNat_val_eq_self e.1
    rw [this]

omit [DecidableEq F] [AddCommGroup G] [Module F G] [DecidableEq G] [K256 F G] hc h hparams hn in
/-- Generators that deal the polynomial `X` first. -/
theorem skew_poly {n t : Nat} (hn : 1 ≤ n) (ht : 2 ≤ t) :
    ((List.range n).map fun k => ofCoeffs
      ((⟨k, fun i => if k = 0 ∧ i = 1 then 1 else 0, 0⟩ : StdRng F).next t)).sum = (X : F[X]) := by
  obtain ⟨n, rfl⟩ : ∃ m, n = m + 1 := ⟨n - 1, by omega⟩
  have hcoeff : ∀ k i, (ofCoeffs ((⟨k, fun i => if k = 0 ∧ i = 1 then 1 else 0, 0⟩ : StdRng F).next t)).coeff i =
      if k = 0 ∧ i = 1 then 1 else 0 := by
    intro k i
    rw [coeff_ofCoeffs]
    unfold StdRng.next
    by_cases hi : i < t
    · rw [List.getD_eq_getElem _ _ (by rw [List.length_map, List.length_range]; exact hi), List.getElem_map,
        List.getElem_range, Nat.zero_add]
    · rw [List.getD_eq_default _ _ (by rw [List.length_map, List.length_range]; omega), if_neg (by omega)]
  rw [List.range_succ_eq_map, List.map_cons, List.map_map, List.sum_cons]
  have hrest : ∀ q ∈ (List.range n).map ((fun k => ofCoeffs
      ((⟨k, fun i => if k = 0 ∧ i = 1 then 1 else 0, 0⟩ : StdRng F).next t)) ∘ Nat.succ), q = 0 := by
    intro q hq
    obtain ⟨k, -, rfl⟩ := List.mem_map.mp hq
    ext i
    rw [Function.comp_apply, hcoeff, if_neg (by omega), coeff_zero]
  rw [List.sum_eq_zero hrest, add_zero]
  ext i
  rw [hcoeff, coeff_X]
  by_cases hi : i = 1
  · rw [if_pos ⟨rfl, hi⟩, if_pos hi.symm]
  · rw [if_neg (fun h => hi h.2), if_neg (fun h => hi h.symm)]

/-- **A quorum out of place fails** for some randomness. -/
theorem runSignKi_skew (ht : c.t.val ≠ 1) (hal : ¬ Aligned (presigs.map (·.index))) (msg : Bytes) :
    ∃ rngs : Rngs F, params.n.val ≤ rngs.rngs.length ∧
      ∃ fault, (runSignKi params keys presigs msg none rngs).1 = .error fault := by
  let skew : Nat → StdRng F := fun k => ⟨k, fun i => if k = 0 ∧ i = 1 then 1 else 0, 0⟩
  let rngs : Rngs F := ⟨(List.range params.n.val).map skew, []⟩
  have hlen : params.n.val ≤ rngs.rngs.length := by simp [rngs]
  refine ⟨rngs, hlen, ?_⟩
  obtain ⟨d, triple, pub, hids, hdt, hdn, hbt, hrun, sid, aOut, s', hjoint, hjs⟩ :=
    runSignKi_run hc h hparams hn msg hlen
  have hpos := c.t_pos
  have hcn := c.n_pos
  obtain ⟨outs, com, s'', hjoint', hjs', hpoly⟩ := jointRandom_run (G := G) d sid .triples skew (s := rngs) (by
    intro k hk
    show ((List.range params.n.val).map skew)[k]? = _
    rw [List.getElem?_map, List.getElem?_range (by omega)]
    rfl)
  have hca : pub.ca.poly F = X := by
    rw [hjoint] at hjoint'
    cases hjoint'
    obtain ⟨i, hi, l, hl⟩ : ∃ i, i ∈ d.ids ∧ ∃ l, d.ids = i :: l := by
      obtain ⟨i, l, hl⟩ := List.exists_cons_of_ne_nil d.ids_ne
      exact ⟨i, by rw [hl]; exact List.mem_cons_self, l, hl⟩
    have heq := hjs.outs_eq.symm.trans hjs'.outs_eq
    rw [hl, List.map_cons, List.map_cons] at heq
    have hcom : pub.ca = com := congrArg DkgOutput.com (List.cons.inj heq).1
    rw [hcom, hpoly, hdt, hparams]
    exact skew_poly (by omega) (by omega)
  obtain ⟨e, he, hne⟩ : ∃ e ∈ (presigs.map (·.index)).zipIdx, e.1.val ≠ e.2 + 1 := by
    by_contra hall
    exact hal fun e he => by_contra fun hne => hall ⟨e, he, hne⟩
  have hlt := (List.getElem?_eq_some_iff.mp (List.mem_zipIdx_iff_getElem?.mp he)).1
  rw [List.length_map] at hlt
  have hle := h.length_le
  have hnlt := params.n.isLt
  rw [hrun]
  refine onlineKi_misaligned h hbt (by omega) _ he (nth_full hids (by omega)) ?_
  rw [hca, eval_X, eval_X]
  intro heq
  have := congrArg Fin.val (scalarFrom_injective F G heq)
  rw [Fin.val_ofNat, Nat.mod_eq_of_lt (by omega)] at this
  exact hne this.symm

/-- **When key-independent signing works**: whatever the randomness, exactly for
`t = 1` or the quorum `1..=len`, where the signature exists at all. -/
theorem runSignKi_iff (msg : Bytes) :
    (∀ rngs : Rngs F, params.n.val ≤ rngs.rngs.length → ∃ sig,
      (runSignKi params keys presigs msg none rngs).1 = .ok sig ∧
        sig.Verifies (p.eval 0 • K256.generator F : G) (messageScalar F G msg) ∧ sig.LowS G) ↔
      messageScalar F G msg + r * p.eval 0 ≠ 0 ∧ (c.t.val = 1 ∨ Aligned (presigs.map (·.index))) := by
  constructor
  · intro hall
    have hal : c.t.val = 1 ∨ Aligned (presigs.map (·.index)) := by
      by_contra hnot
      obtain ⟨ht, hal⟩ := not_or.mp hnot
      obtain ⟨rngs, hlen, fault, hfault⟩ := runSignKi_skew hc h hparams hn ht hal msg
      obtain ⟨sig, hsig, -⟩ := hall rngs hlen
      rw [hfault] at hsig
      cases hsig
    refine ⟨fun hzero => ?_, hal⟩
    let rngs : Rngs F := ⟨(List.range params.n.val).map fun k => ⟨k, fun _ => 0, 0⟩, []⟩
    have hlen : params.n.val ≤ rngs.rngs.length := by simp [rngs]
    obtain ⟨sig, hsig, -⟩ := hall rngs hlen
    rw [runSignKi_aligned hc h hparams hn hal msg hlen, hzero, mul_zero] at hsig
    unfold finishSignature Signature.fromScalars at hsig
    rw [if_pos (Or.inr rfl)] at hsig
    cases hsig
  · rintro ⟨hne, hal⟩ rngs hlen
    rw [runSignKi_aligned hc h hparams hn hal msg hlen]
    have hu := h.presigned.choose_spec.1.degree_u
    have hbasis : SignBasis c.t (p.eval 0) uCom (uCom.scale (p.eval 0)) k r := by
      refine h.signBasis_of ?_ ?_
      · rw [poly_scale]
        exact degree_C_mul_lt _ hu
      · rw [poly_scale, eval_mul, eval_C, mul_comm]
    exact finishSignature_verifies hbasis hne

end Run

/-! ### Two of three -/

section Trio

open Secp256k1

def kiRngs : Rngs Scalar := ⟨[⟨1, fun i => i + 2, 0⟩, ⟨2, fun i => i + 5, 0⟩, ⟨3, fun i => i + 11, 0⟩], []⟩

/-- Key generation, one pool record, and a signature by the members at `positions`. -/
def kiSession (positions : List Nat) : Outcome (Signature Scalar) := do
  let keys ← (driveDkg (F := Scalar) (G := Point) ⟨3, 2⟩ [0] tags.dkgCommit .keyGen none kiRngs).1
  let presigs ← (presignKiWithCommittee (F := Scalar) (G := Point) trio 7 none kiRngs).1
  let keys ← positions.mapM (nth keys)
  let presigs ← positions.mapM (nth presigs)
  (runSignKi ⟨3, 2⟩ keys presigs [] none kiRngs).1

example : (kiSession [0, 1]).isOk = true := by decide +kernel

/-- Parties 1 and 3 sign with the triple shares of parties 1 and 2, and the
honest party 3 is blamed. -/
theorem kiSession_frames : kiSession [0, 2] =
    .error (abort .sign [3] "share failed commitment check during opening") := by decide +kernel

/-- Member `j`'s record of a key-independent presigning. -/
def trioKiRecord (j : PartyId) : KiPresignature Scalar Point := ⟨0, j, -3⁻¹, 3⁻¹, 3 + 3 * scalarFrom j, ⟨[3, 3]⟩⟩

theorem presignKi_trio :
    (presignKiWithCommittee trio 0 none trioRngs).1 = .ok (trio.ids.map trioKiRecord) := by
  decide +kernel

theorem trio_kiPresigned : ∃ (uCom : FeldmanCommitment Point) (k : Scalar),
    KiPresigned trio 0 (trio.ids.map trioKiRecord) uCom k (-3⁻¹) := by
  obtain ⟨-, hpost⟩ := presignKi_triple (F := Scalar) (G := Point) trio (by decide) 0 trioRngs (show 3 ≤ 3 from le_refl 3)
  rw [presignKi_trio] at hpost
  obtain ⟨uCom, k, r, h⟩ := hpost
  obtain rfl : -3⁻¹ = r := congrArg KiPresignature.r (List.cons.inj h.ps_eq).1
  exact ⟨uCom, k, h⟩

theorem trioKi_quorum {ids : List PartyId} (hids : ids ⊆ trio.ids) (hnd : ids.Nodup) (hlen : 2 ≤ ids.length) :
    ∃ (uCom : FeldmanCommitment Point) (k : Scalar), KiQuorum trio (⟨[1, 1]⟩ : ShamirPoly Scalar).poly 0 uCom k (-3⁻¹)
      (ids.map trioKey) (ids.map trioKiRecord) := by
  obtain ⟨uCom, k, hpresigned⟩ := trio_kiPresigned
  refine ⟨uCom, k, ⟨trioKeys, trioKeys_sharing, List.map_subset _ hids⟩, ⟨_, hpresigned, List.map_subset _ hids⟩, ?_, ?_, ?_⟩
  · simp [trioKey, trioKiRecord, Function.comp_def]
  · simpa [trioKiRecord, Function.comp_def] using hnd
  · rwa [List.length_map]

/-- These members sign the message `[2]`, whatever is drawn. -/
def TrioSigns (ids : List PartyId) : Prop :=
  ∀ rngs : Rngs Scalar, 3 ≤ rngs.rngs.length → ∃ sig,
    (runSignKi ⟨3, 2⟩ (ids.map trioKey) (ids.map trioKiRecord) [2] none rngs).1 = .ok sig ∧
      sig.Verifies ((1 : Scalar) • K256.generator Scalar : Point) (messageScalar Scalar Point [2]) ∧ sig.LowS Point

/-- Members 1 and 2 sign, 1 and 3 do not. -/
theorem runSignKi_iff_trio : TrioSigns [1, 2] ∧ ¬ TrioSigns [1, 3] := by
  have hiff : ∀ ids ⊆ trio.ids, ids.Nodup → 2 ≤ ids.length → (TrioSigns ids ↔ Aligned ids) := by
    intro ids hids hnd hlen
    obtain ⟨uCom, k, hquorum⟩ := trioKi_quorum hids hnd hlen
    have h := runSignKi_iff (c := trio) (by decide) hquorum rfl
      (show trio.n ≤ (⟨3, 2⟩ : Params).n.val by decide) [2]
    have hm : messageScalar Scalar Point [2] + -3⁻¹ * 1 ≠ 0 := by decide +kernel
    have hindex : (ids.map trioKiRecord).map (·.index) = ids := by simp [trioKiRecord, Function.comp_def]
    have ht : ¬ trio.t.val = 1 := by decide
    rw [trioKey_eval, hindex] at h
    exact h.trans ((and_iff_right hm).trans (or_iff_right ht))
  constructor
  · exact (hiff [1, 2] (by decide) (by decide) (by decide)).mpr (show ∀ e ∈ [1, 2].zipIdx, _ by decide)
  · intro hsigns
    have halign := (hiff [1, 3] (by decide) (by decide) (by decide)).mp hsigns
    exact absurd (halign (3, 1) (by decide)) (by decide)

end Trio

end OhmEcdsa
