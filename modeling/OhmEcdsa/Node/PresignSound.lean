import OhmEcdsa.Core.Combine
import OhmEcdsa.Node.TripleSound

/-!
# What a returned presignature is worth (`party.rs`: `presign_run`, `presign_robust_run`)

Every opening of a presigning is checked against a commitment, and so is every nonce
point, so what the others broadcast can end a presigning but not bend it.  Over triples
whose dealers kept to `t` points, the members that return have the records of one
presignature for the key, and a signature a node returns with its record is valid,
whatever shares it was sent:

    run.Delivers                                                     (presign_sound)
-/

set_option linter.unusedSectionVars false

namespace OhmEcdsa

open Hoare FeldmanCommitment Polynomial Interpolation

variable {F G : Type} [Field F] [DecidableEq F] [AddCommGroup G] [Module F G] [DecidableEq G] [K256 F G]

/-! ## Lemmas: openings -/

/-- An opening that returns gives the committed value. -/
theorem open_value {t : Usize} {com : FeldmanCommitment G} {shares : PartyMap F} {phase : Phase} {v : F}
    (hdeg : (com.poly F).degree < t.val) (h : «open» t com shares phase = .ok v) : v = (com.poly F).eval 0 := by
  unfold «open» openAt at h
  simp only [partitionShares_eq] at h
  split at h
  · cases h
  split at h
  · cases h
  next hlen =>
    rw [interpolateFirst_ok t 0 com _ ((nodup_keys_toList shares).sublist (List.filter_sublist.map _))
      (fun e he => (List.mem_filter.mp he).2) (Nat.not_lt.mp hlen) hdeg] at h
    exact (Except.ok.inj h).symm

theorem openRobust_value {t : Usize} {com : FeldmanCommitment G} {shares : PartyMap F} {phase : Phase} {v : F}
    {blamed : List PartyId} (hdeg : (com.poly F).degree < t.val) (h : openRobust t com shares phase = .ok (v, blamed)) :
    v = (com.poly F).eval 0 := by
  by_cases hlen : t.val ≤ (shares.toList.filter fun e => com.verifyShare e.1 e.2).length
  · rw [openRobust_ok t com shares phase hlen hdeg] at h
    exact (Prod.mk.inj (Except.ok.inj h)).1.symm
  · unfold openRobust at h
    simp only [partitionShares_eq] at h
    rw [if_pos (Nat.not_le.mp hlen)] at h
    cases h

theorem poly_sub (com mask : FeldmanCommitment G) :
    (com.add (mask.scale (-1 : F))).poly F = com.poly F - mask.poly F := by
  rw [poly_add, poly_scale, C_neg, C_1]
  ring

/-! ## Lemmas: the Beaver products -/

/-- The public half of a triple that shares a product. -/
structure SoundTriple (t : Usize) (pub : TriplePublic G) : Prop where
  degree_ca : (pub.ca.poly F).degree < t.val
  degree_cb : (pub.cb.poly F).degree < t.val
  degree_cc : (pub.cc.poly F).degree < t.val
  product : (pub.cc.poly F).eval 0 = (pub.ca.poly F).eval 0 * (pub.cb.poly F).eval 0

/-- No dealer dealt more than `t` points. -/
def ShortDeals (t : Usize) (ids : List PartyId) (deals : AcceptedSet F G) : Prop :=
  ∀ i ∈ ids, (dealtCom deals i).points.length ≤ t.val

theorem JointTriple.sound {c : Committee} {me : PartyId} {sid : Bytes} {alphas betas deals : AcceptedSet F G}
    {share : TripleShare F} {pub : TriplePublic G} (h : JointTriple c.t me sid c.ids alphas betas deals share pub)
    (hmaj : 2 * c.t.val ≤ c.ids.length + 1) (htrue : ProofsTrue (F := F) sid c.ids betas deals)
    (hshort : ShortDeals c.t c.ids deals) : SoundTriple (F := F) c.t pub :=
  ⟨h.alpha.degree, h.beta.degree, by rw [h.poly_cc]; exact degree_resharedSum hshort, h.product hmaj htrue⟩

theorem poly_beaverCom {pub : TriplePublic G} {delta eps : F} {com : FeldmanCommitment G}
    (h : beaverCom pub delta eps = .ok com) :
    com.poly F = pub.cc.poly F + C delta * pub.cb.poly F + C eps * pub.ca.poly F + C (delta * eps) := by
  unfold beaverCom at h
  have hne : ((pub.cc.add (pub.cb.scale delta)).add (pub.ca.scale eps)).points ≠ [] := by
    intro hnil
    unfold addConst at h
    rw [hnil] at h
    cases h
  obtain ⟨com', hok, hpoly, -⟩ := addConst_ok _ (delta * eps) hne
  rw [h] at hok
  obtain rfl := Except.ok.inj hok
  rw [hpoly, poly_add, poly_add, poly_scale, poly_scale]

/-- **The Beaver identity**, with the openings of `x - α` and `y - β`. -/
theorem SoundTriple.beaver {t : Usize} (ht : 1 ≤ t.val) {pub : TriplePublic G} (h : SoundTriple (F := F) t pub)
    (x y : F) {com : FeldmanCommitment G}
    (hcom : beaverCom pub (x - (pub.ca.poly F).eval 0) (y - (pub.cb.poly F).eval 0) = .ok com) :
    (com.poly F).degree < t.val ∧ (com.poly F).eval 0 = x * y := by
  rw [poly_beaverCom hcom]
  constructor
  · exact degree_add_lt (degree_add_lt (degree_add_lt h.degree_cc (degree_C_mul_lt _ h.degree_cb))
      (degree_C_mul_lt _ h.degree_ca)) (degree_C_lt _ ht)
  · simp only [eval_add, eval_mul, eval_C]
    rw [h.product]
    ring

/-- A member's combination is its share of the product. -/
theorem beaverShare_eq {pub : TriplePublic G} {share : TripleShare F} {me : PartyId} {delta eps : F}
    {com : FeldmanCommitment G} (hcom : beaverCom pub delta eps = .ok com)
    (ha : share.a = (pub.ca.poly F).eval (scalarFrom me)) (hb : share.b = (pub.cb.poly F).eval (scalarFrom me))
    (hc : share.c = (pub.cc.poly F).eval (scalarFrom me)) :
    beaverShare share delta eps = (com.poly F).eval (scalarFrom me) := by
  rw [poly_beaverCom hcom, beaverShare, ha, hb, hc]
  simp only [eval_add, eval_mul, eval_C]

/-! ## Lemmas: the nonce -/

theorem nonceScalar_ok {bigR : G} {r : F} (h : nonceScalar bigR = .ok r) :
    (K256.xBytes F bigR).map (K256.scalarFromDigest G) = some r ∧ r ≠ 0 := by
  unfold nonceScalar at h
  split at h
  · cases h
  next x hx =>
    simp only at h
    split at h
    · cases h
    next hr =>
      rw [Except.ok.injEq] at h
      rw [hx, ← h]
      exact ⟨rfl, hr⟩

theorem invertV_ok {v vInv : F} (h : invertV v = .ok vInv) : v * vInv = 1 := by
  unfold invertV invert at h
  by_cases hv : v = 0
  · rw [if_pos hv] at h
    cases h
  · rw [if_neg hv] at h
    rw [← Except.ok.inj h, mul_inv_cancel₀ hv]

/-- Points of the right sharing over distinct members interpolate to its nonce. -/
theorem interpolatePoints_value {ids : List PartyId} (hnd : ids.Nodup) {kCom : FeldmanCommitment G} {lambdas : List F}
    (hlambdas : lagrangeCoeffs ids = .ok lambdas) (hdeg : (kCom.poly F).degree < ids.length) :
    interpolatePoints lambdas (ids.map fun i => kCom.evalAt F i) = (kCom.poly F).eval 0 • K256.generator F := by
  have hxs := map_scalarFrom_nodup F G hnd
  rw [show lagrangeCoeffs ids = _ from lagrangeCoeffsAt_eq (0 : F) ids hxs] at hlambdas
  obtain rfl := Except.ok.inj hlambdas
  have hint := sum_weight_mul_eval 0 _ hxs (kCom.poly F) (by rwa [List.length_map])
  rw [List.map_map] at hint
  rw [List.map_congr_left fun i _ => evalAt_eq kCom i, interpolatePoints_eq, ← hint]
  rfl

/-- The accepted values of a sorted committee stand in its order. -/
theorem keys_of_complete {c : Committee} {set : AcceptedSet F G} (h : Complete c.ids set) :
    (acceptedOver c.ids set).toList.map (·.1) = c.ids := by
  have hsub : (acceptedOver c.ids set).toList.map (·.1) ⊆ c.ids := by
    intro g hg
    obtain ⟨e, he, rfl⟩ := List.mem_map.mp hg
    exact (mem_acceptedOver.mp he).1
  have hperm : ((acceptedOver c.ids set).toList.map (·.1)).Perm c.ids := by
    refine (List.subperm_of_subset (nodup_keys_toList _) hsub).perm_of_length_le ?_
    rw [List.length_map, Std.ExtTreeMap.length_toList, h]
  refine hperm.eq_of_pairwise' (r := (· < ·)) ?_ c.sorted
  rw [List.pairwise_map]
  exact Std.ExtTreeMap.ordered_keys_toList.imp fun {a b} hab => compare_lt_iff_lt.mp hab

theorem checkNonce_ok {kCom : FeldmanCommitment G} {e : PartyId × NodePayload F G} {p : G}
    (h : checkNonce kCom e = .ok p) : p = kCom.evalAt F e.1 := by
  unfold checkNonce at h
  split at h
  · split at h
    · cases h
    · next hp =>
      rw [← Except.ok.inj h]
      exact not_not.mp hp
  · cases h

/-- **The fail-fast nonce round** gives the nonce point of the sharing. -/
theorem nonceRound_value {c : Committee} {kCom : FeldmanCommitment G} {view : AcceptedSet F G} {bigR : G} {r : F}
    (hdeg : (kCom.poly F).degree < c.ids.length) (h : nonceRound c.ids kCom view = .ok (bigR, r)) :
    bigR = (kCom.poly F).eval 0 • K256.generator F ∧ nonceScalar bigR = .ok r := by
  unfold nonceRound at h
  dsimp only at h
  split at h
  · cases h
  next hsize =>
    obtain ⟨points, hpoints, h⟩ := ok_of_bind h
    obtain ⟨lambdas, hlambdas, h⟩ := ok_of_bind h
    obtain ⟨r', hr, h⟩ := ok_of_bind h
    cases h
    have heq : (acceptedOver c.ids view).toList.map (fun e => kCom.evalAt F e.1) = points.map id :=
      forall₂_map_eq ((forall₂_of_mapM_ok _ _ hpoints).imp fun _ _ he => (checkNonce_ok he).symm)
    have hids : points = c.ids.map fun i => kCom.evalAt F i := by
      have hkeys := congrArg (List.map fun i => kCom.evalAt F i) (keys_of_complete (not_not.mp hsize))
      rw [List.map_map] at hkeys
      rw [List.map_id] at heq
      rw [← heq, ← hkeys]
      rfl
    rw [hids] at hr ⊢
    exact ⟨interpolatePoints_value c.nodup hlambdas hdeg, hr⟩

/-- What the robust round files as valid. -/
theorem fileNonce_valid {kCom : FeldmanCommitment G} (l : List (PartyId × NodePayload F G))
    {out out' : List (PartyId × G) × List PartyId} (h : l.foldlM (fileNonce kCom) out = .ok out') :
    ∃ senders : List PartyId, senders.Sublist (l.map (·.1)) ∧
      out'.1 = out.1 ++ senders.map fun i => (i, kCom.evalAt F i) := by
  induction l generalizing out with
  | nil =>
    cases h
    exact ⟨[], List.Sublist.refl _, (List.append_nil _).symm⟩
  | cons e l ih =>
    rw [List.foldlM_cons] at h
    obtain ⟨mid, hmid, h⟩ := ok_of_bind h
    obtain ⟨senders, hsub, hout⟩ := ih h
    unfold fileNonce at hmid
    split at hmid
    · split at hmid
      · next p hp hvalid =>
        cases hmid
        refine ⟨e.1 :: senders, hsub.cons_cons _, ?_⟩
        rw [hout, List.map_cons, List.append_assoc, hvalid]
        rfl
      · cases hmid
        exact ⟨senders, hsub.cons _, hout⟩
    · cases hmid

/-- **The robust nonce round** does so too, from the valid points alone. -/
theorem nonceRoundRobust_value {t : Usize} {kCom : FeldmanCommitment G} {blamed active : List PartyId}
    {view : AcceptedSet F G} {bigR : G} {r : F} {left : List PartyId × List PartyId}
    (hdeg : (kCom.poly F).degree < t.val) (h : nonceRoundRobust t kCom blamed active view = .ok (bigR, r, left)) :
    bigR = (kCom.poly F).eval 0 • K256.generator F ∧ nonceScalar bigR = .ok r := by
  unfold nonceRoundRobust at h
  dsimp only at h
  split at h
  · cases h
  obtain ⟨⟨valid, bad⟩, hfile, h⟩ := ok_of_bind h
  obtain ⟨senders, hsub, hvalid⟩ := fileNonce_valid _ hfile
  dsimp only at h hvalid
  rw [List.nil_append] at hvalid
  split at h
  · cases h
  next hlen =>
    obtain ⟨lambdas, hlambdas, h⟩ := ok_of_bind h
    obtain ⟨r', hr, h⟩ := ok_of_bind h
    cases h
    have hnd : senders.Nodup := hsub.nodup (nodup_keys_toList _)
    simp only [hvalid, List.map_map, Function.comp_def, List.map_id', List.length_map, not_lt] at hlen hlambdas hr ⊢
    refine ⟨interpolatePoints_value hnd hlambdas (lt_of_lt_of_le hdeg ?_), hr⟩
    exact_mod_cast hlen

/-! ## Specification -/

/-- A member's share of `u` and the nonce point of `k = u⁻¹`. -/
structure NonceShare (t : Usize) (me : PartyId) (ids : List PartyId) (us : AcceptedSet F G) (uShare : F)
    (uCom : FeldmanCommitment G) (r : F) (bigR : G) : Prop where
  u : JointShare t me ids us ⟨me, uShare, uCom⟩
  nonce : ∃ k : F, (uCom.poly F).eval 0 * k = 1 ∧ bigR = k • K256.generator F
  scalar : nonceScalar bigR = .ok r

/-- The node's own complaint lists were accepted as sent. -/
structure NonceView.Own (log : List (Envelope (NodePayload F G))) (me : PartyId) (sid : Bytes)
    (view : NonceView F G) : Prop where
  triple : view.triple.Own log me (sid ++ utf8 "/t1")
  u : OwnRound log me (sid ++ utf8 "/u") .presign VSS_ROUND_COMPLAIN view.u.complaints
  a : OwnRound log me (sid ++ utf8 "/a") .presign VSS_ROUND_COMPLAIN view.a.complaints

/-- A triple session's accepted proofs are of true statements, and its vectors short. -/
structure TripleView.FairlyDealt (view : TripleView F G) (t : Usize) (sid : Bytes) (ids : List PartyId) : Prop where
  proofs : ProofsTrue (F := F) sid ids view.beta.reveals view.deals
  short : ShortDeals t ids view.deals

/-! ## Lemmas: P1–P3 -/

section Nonce

variable {log : List (Envelope (NodePayload F G))} (hone : OneEach log) {me : PartyId} (c : Committee)
  (hmaj : 2 * c.t.val ≤ c.ids.length + 1) (hme : me ∈ c.ids) (sid : Bytes) {view : NonceView F G}
  (hown : view.Own log me sid) (hfair : view.triple.FairlyDealt c.t (sid ++ utf8 "/t1") c.ids)

/-- **P2 and P3**, from what the dealings gave: `v = u·a` and `R = (v⁻¹·a)·G`. -/
theorem nonceShare_of {t1 : TripleShare F} {pub1 : TriplePublic G} {us as alphas betas deals : AcceptedSet F G}
    {uOut aOut : KeyShare F G} {delta eps v vInv r : F} {vCom : FeldmanCommitment G} {bigR : G} {s : Bytes}
    (h1 : JointTriple c.t me s c.ids alphas betas deals t1 pub1) (hsound : SoundTriple (F := F) c.t pub1)
    (hu : JointShare c.t me c.ids us uOut) (ha : JointShare c.t me c.ids as aOut)
    (hdelta : ((uOut.com.add (pub1.ca.scale (-1 : F))).poly F).degree < c.t.val →
      delta = ((uOut.com.add (pub1.ca.scale (-1 : F))).poly F).eval 0)
    (heps : ((aOut.com.add (pub1.cb.scale (-1 : F))).poly F).degree < c.t.val →
      eps = ((aOut.com.add (pub1.cb.scale (-1 : F))).poly F).eval 0)
    (hvCom : beaverCom pub1 delta eps = .ok vCom)
    (hv : (vCom.poly F).degree < c.t.val → v = (vCom.poly F).eval 0) (hinv : invertV v = .ok vInv)
    (hR : ((aOut.com.scale vInv).poly F).degree < c.t.val →
      bigR = ((aOut.com.scale vInv).poly F).eval 0 • K256.generator F ∧ nonceScalar bigR = .ok r) :
    NonceShare c.t me c.ids us uOut.share uOut.com r bigR := by
  rw [poly_sub] at hdelta heps
  have hdelta := hdelta (lt_of_le_of_lt (degree_sub_le _ _) (max_lt hu.degree hsound.degree_ca))
  have heps := heps (lt_of_le_of_lt (degree_sub_le _ _) (max_lt ha.degree hsound.degree_cb))
  rw [eval_sub] at hdelta heps
  rw [hdelta, heps] at hvCom
  obtain ⟨hdeg, hprod⟩ := hsound.beaver c.t_pos _ _ hvCom
  have hv := hv hdeg
  rw [hprod] at hv
  rw [poly_scale] at hR
  obtain ⟨hbigR, hr⟩ := hR (degree_C_mul_lt _ ha.degree)
  rw [eval_mul, eval_C] at hbigR
  refine ⟨⟨rfl, hu.points, hu.com, hu.share⟩, ⟨vInv * (aOut.com.poly F).eval 0, ?_, hbigR⟩, hr⟩
  rw [mul_left_comm, ← hv, mul_comm]
  exact invertV_ok hinv

include hone hmaj hme hown hfair

theorem presignP1P3_within :
    Within Driver.sent log (presignP1P3 me c.t sid c.ids view) fun out =>
      NonceShare c.t me c.ids view.u.reveals out.1 out.2.1 out.2.2.1 out.2.2.2 := by
  have hn : c.t.val ≤ c.ids.length := c.t_le_n hmaj
  unfold presignP1P3
  refine (tripleRun_within hone c.t _ c hme hown.triple).bind ?_
  rintro ⟨t1, pub1⟩
  refine (jointVssRun_within hone hme c.t _ _ _ hown.u).bind fun uOut => ?_
  refine (jointVssRun_within hone hme c.t _ _ _ hown.a).bind fun aOut => ?_
  refine (send_skip _).skip fun _ => Within.lift_bind ?_
  rintro ⟨deltas, epsilons⟩ -
  refine Within.lift_bind fun delta hdelta => Within.lift_bind fun eps heps => Within.lift_bind fun vCom hvCom => ?_
  refine (send_skip _).skip fun _ => Within.lift_bind fun vShares _ => Within.lift_bind fun v hv => ?_
  refine Within.lift_bind fun vInv hinv => (send_skip _).skip fun _ => Within.lift_bind ?_
  rintro ⟨bigR, r⟩ hR
  refine Within.pure fun ha hu h1 => ?_
  exact nonceShare_of c h1 (h1.sound hmaj hfair.proofs hfair.short) hu ha (fun hdeg => open_value hdeg hdelta)
    (fun hdeg => open_value hdeg heps) hvCom (fun hdeg => open_value hdeg hv) hinv
    fun hdeg => nonceRound_value (lt_of_lt_of_le hdeg (by exact_mod_cast hn)) hR

theorem presignP1P3Robust_within :
    Within Driver.sent log (presignP1P3Robust me c.t sid c.ids view) fun out =>
      NonceShare c.t me c.ids view.u.reveals out.1 out.2.1 out.2.2.1 out.2.2.2.1 := by
  unfold presignP1P3Robust
  refine (tripleRun_within hone c.t _ c hme hown.triple).bind ?_
  rintro ⟨t1, pub1⟩
  refine (jointVssRun_within hone hme c.t _ _ _ hown.u).bind fun uOut => ?_
  refine (jointVssRun_within hone hme c.t _ _ _ hown.a).bind fun aOut => ?_
  refine (send_skip _).skip fun _ => Within.lift_bind ?_
  rintro ⟨deltas, epsilons⟩ -
  refine Within.lift_bind ?_
  rintro ⟨delta, bD⟩ hdelta
  refine Within.lift_bind ?_
  rintro ⟨eps, bE⟩ heps
  refine Within.lift_bind fun vCom hvCom => ?_
  refine (send_skip _).skip fun _ => Within.lift_bind fun vShares _ => Within.lift_bind ?_
  rintro ⟨v, bV⟩ hv
  refine Within.lift_bind fun vInv hinv => (send_skip _).skip fun _ => Within.lift_bind ?_
  rintro ⟨bigR, r, left⟩ hR
  refine Within.pure fun ha hu h1 => ?_
  exact nonceShare_of c h1 (h1.sound hmaj hfair.proofs hfair.short) hu ha (fun hdeg => openRobust_value hdeg hdelta)
    (fun hdeg => openRobust_value hdeg heps) hvCom (fun hdeg => openRobust_value hdeg hv) hinv
    fun hdeg => nonceRoundRobust_value hdeg hR

end Nonce

/-! ## Lemmas: P4 -/

/-- A member's record for the key commitment `keyCom`: its shares of `u` and of `z = u·x`. -/
structure JointRecord (c : Committee) (me : PartyId) (sid : Bytes) (id : U64) (keyCom : FeldmanCommitment G)
    (us alphas betas deals : AcceptedSet F G) (record : Presignature F G) : Prop where
  id : record.id = id
  index : record.index = me
  nonce : NonceShare c.t me c.ids us record.uShare record.uCom record.r record.bigR
  zCom : ∃ t2 pub2, JointTriple c.t me (sid ++ utf8 "/t2") c.ids alphas betas deals t2 pub2 ∧
    beaverCom pub2 ((record.uCom.poly F).eval 0 - (pub2.ca.poly F).eval 0)
      ((keyCom.poly F).eval 0 - (pub2.cb.poly F).eval 0) = .ok record.zCom
  zShare : record.zShare = (record.zCom.poly F).eval (scalarFrom me)

structure PresignView.Own (log : List (Envelope (NodePayload F G))) (me : PartyId) (sid : Bytes)
    (view : PresignView F G) : Prop where
  nonce : view.toNonceView.Own log me sid
  triple2 : view.triple2.Own log me (sid ++ utf8 "/t2")

/-- Both triple sessions of a presigning are fairly dealt. -/
structure PresignView.FairlyDealt (view : PresignView F G) (t : Usize) (sid : Bytes) (ids : List PartyId) : Prop where
  triple : view.triple.FairlyDealt t (sid ++ utf8 "/t1") ids
  triple2 : view.triple2.FairlyDealt t (sid ++ utf8 "/t2") ids

theorem jointRecord_of {c : Committee} (hmaj : 2 * c.t.val ≤ c.ids.length + 1) {me : PartyId} {sid : Bytes} (id : U64)
    {key : KeyShare F G} (hkey : (key.com.poly F).degree < c.t.val) {view : PresignView F G}
    (hfair : view.triple2.FairlyDealt c.t (sid ++ utf8 "/t2") c.ids) {uj r d2v e2v : F}
    {uCom zCom : FeldmanCommitment G} {bigR : G} {t2 : TripleShare F} {pub2 : TriplePublic G}
    (hnonce : NonceShare c.t me c.ids view.u.reveals uj uCom r bigR)
    (h2 : JointTriple c.t me (sid ++ utf8 "/t2") c.ids view.triple2.alpha.reveals view.triple2.beta.reveals
      view.triple2.deals t2 pub2)
    (hd2 : ((uCom.add (pub2.ca.scale (-1 : F))).poly F).degree < c.t.val →
      d2v = ((uCom.add (pub2.ca.scale (-1 : F))).poly F).eval 0)
    (he2 : ((key.com.add (pub2.cb.scale (-1 : F))).poly F).degree < c.t.val →
      e2v = ((key.com.add (pub2.cb.scale (-1 : F))).poly F).eval 0)
    (hz : beaverCom pub2 d2v e2v = .ok zCom) :
    JointRecord c me sid id key.com view.u.reveals view.triple2.alpha.reveals view.triple2.beta.reveals
      view.triple2.deals ⟨id, me, r, bigR, uj, beaverShare t2 d2v e2v, uCom, zCom⟩ := by
  have hsound := h2.sound hmaj hfair.proofs hfair.short
  rw [poly_sub] at hd2 he2
  have hd2 := hd2 (lt_of_le_of_lt (degree_sub_le _ _) (max_lt hnonce.u.degree hsound.degree_ca))
  have he2 := he2 (lt_of_le_of_lt (degree_sub_le _ _) (max_lt hkey hsound.degree_cb))
  rw [eval_sub] at hd2 he2
  refine ⟨rfl, rfl, hnonce, ⟨t2, pub2, h2, by rw [← hd2, ← he2]; exact hz⟩, ?_⟩
  exact beaverShare_eq hz h2.alpha.share h2.beta.share h2.share

section Presign

variable {log : List (Envelope (NodePayload F G))} (hone : OneEach log) {me : PartyId} (c : Committee)
  (hmaj : 2 * c.t.val ≤ c.ids.length + 1) (hme : me ∈ c.ids) (sid : Bytes) (id : U64) {key : KeyShare F G}
  (hkey : (key.com.poly F).degree < c.t.val) {view : PresignView F G} (hown : view.Own log me sid)
  (hfair : view.FairlyDealt c.t sid c.ids)

include hone hmaj hme hkey hown hfair

theorem presignRun_within :
    Within Driver.sent log (presignRun me c.t sid id key c.ids view)
      (JointRecord c me sid id key.com view.u.reveals view.triple2.alpha.reveals view.triple2.beta.reveals
        view.triple2.deals) := by
  unfold presignRun
  refine (presignP1P3_within hone c hmaj hme sid hown.nonce hfair.triple).bind ?_
  rintro ⟨uj, uCom, r, bigR⟩
  refine (tripleRun_within hone c.t _ c hme hown.triple2).bind ?_
  rintro ⟨t2, pub2⟩
  refine (send_skip _).skip fun _ => Within.lift_bind ?_
  rintro ⟨d2s, e2s⟩ -
  refine Within.lift_bind fun d2v hd2 => Within.lift_bind fun e2v he2 => Within.lift_bind fun zCom hz => ?_
  refine Within.pure fun h2 hnonce => ?_
  exact jointRecord_of hmaj id hkey hfair.triple2 hnonce h2 (fun hdeg => open_value hdeg hd2)
    (fun hdeg => open_value hdeg he2) hz

theorem presignRobustRun_within :
    Within Driver.sent log (presignRobustRun me c.t sid id key c.ids view) fun out =>
      JointRecord c me sid id key.com view.u.reveals view.triple2.alpha.reveals view.triple2.beta.reveals
        view.triple2.deals out.1 := by
  unfold presignRobustRun
  refine (presignP1P3Robust_within hone c hmaj hme sid hown.nonce hfair.triple).bind ?_
  rintro ⟨uj, uCom, r, bigR, blamed, active⟩
  refine (tripleRun_within hone c.t _ c hme hown.triple2).bind ?_
  rintro ⟨t2, pub2⟩
  refine (send_skip _).skip fun _ => Within.lift_bind ?_
  rintro ⟨d2s, e2s⟩ -
  refine Within.lift_bind ?_
  rintro ⟨d2v, bD2⟩ hd2
  refine Within.lift_bind ?_
  rintro ⟨e2v, bE2⟩ he2
  refine Within.lift_bind fun zCom hz => Within.pure fun h2 hnonce => ?_
  exact jointRecord_of hmaj id hkey hfair.triple2 hnonce h2 (fun hdeg => openRobust_value hdeg hd2)
    (fun hdeg => openRobust_value hdeg he2) hz

end Presign

/-! ## Lemmas: what a record is worth -/

namespace NonceShare

variable {t : Usize} {me me' : PartyId} {ids : List PartyId} {us : AcceptedSet F G} {uShare uShare' r r' : F}
  {uCom uCom' : FeldmanCommitment G} {bigR bigR' : G}

theorem nonce_eq (h : NonceShare t me ids us uShare uCom r bigR) (h' : NonceShare t me' ids us uShare' uCom' r' bigR') :
    uCom' = uCom ∧ bigR' = bigR ∧ r' = r := by
  have hu : uCom = uCom' := h.u.com_eq h'.u
  obtain ⟨k, hk, hR⟩ := h.nonce
  obtain ⟨k', hk', hR'⟩ := h'.nonce
  have hkk : k' = k := mul_left_cancel₀ (left_ne_zero_of_mul_eq_one hk) (by rw [hk, hu, hk'])
  have hbigR : bigR' = bigR := by rw [hR, hR', hkk]
  have hr := h'.scalar
  rw [hbigR, h.scalar] at hr
  exact ⟨hu.symm, hbigR, (Except.ok.inj hr).symm⟩

end NonceShare

namespace JointRecord

variable {c : Committee} {me me' : PartyId} {sid : Bytes} {id : U64} {keyCom : FeldmanCommitment G}
  {us alphas betas deals : AcceptedSet F G} {record record' : Presignature F G}

theorem basis (h : JointRecord c me sid id keyCom us alphas betas deals record)
    (hmaj : 2 * c.t.val ≤ c.ids.length + 1) (htrue : ProofsTrue (F := F) (sid ++ utf8 "/t2") c.ids betas deals)
    (hshort : ShortDeals c.t c.ids deals) :
    ∃ k, SignBasis c.t ((keyCom.poly F).eval 0) record.uCom record.zCom k record.r ∧
      record.bigR = k • K256.generator F := by
  obtain ⟨k, hk, hR⟩ := h.nonce.nonce
  obtain ⟨t2, pub2, h2, hz⟩ := h.zCom
  obtain ⟨hdeg, hprod⟩ := (h2.sound hmaj htrue hshort).beaver c.t_pos _ _ hz
  obtain ⟨hx, hr⟩ := nonceScalar_ok h.nonce.scalar
  exact ⟨k, ⟨h.nonce.u.degree, hdeg, hk, hprod, by rw [← hR]; exact hx, hr⟩, hR⟩

/-- **One presignature**: two members' records differ in their shares alone. -/
theorem record_eq (h : JointRecord c me sid id keyCom us alphas betas deals record)
    (h' : JointRecord c me' sid id keyCom us alphas betas deals record') :
    record' = ⟨id, me', record.r, record.bigR, (record.uCom.poly F).eval (scalarFrom me'),
      (record.zCom.poly F).eval (scalarFrom me'), record.uCom, record.zCom⟩ := by
  obtain ⟨hu, hR, hr⟩ := h.nonce.nonce_eq h'.nonce
  obtain ⟨t2, pub2, h2, hz⟩ := h.zCom
  obtain ⟨t2', pub2', h2', hz'⟩ := h'.zCom
  have hzCom : record'.zCom = record.zCom := by
    rw [h2.pub_eq h2', hu, hz] at hz'
    exact (Except.ok.inj hz').symm
  have huShare := h'.nonce.u.share
  have hzShare := h'.zShare
  have hid := h'.id
  have hindex := h'.index
  obtain ⟨id', index', r', bigR', uShare', zShare', uCom', zCom'⟩ := record'
  dsimp only at hu hR hr hzCom huShare hzShare hid hindex
  subst hu hR hr hzCom hid hindex
  rw [huShare, hzShare]

end JointRecord

/-- **A signature a node returns is valid**, whatever shares it was sent. -/
theorem signRunScalar_sound {params : Params} {presig : Presignature F G} {x k m : F}
    (basis : SignBasis params.t x presig.uCom presig.zCom k presig.r) {set : AcceptedSet F G} {sig : Signature F}
    {blamed : List PartyId} (h : signRunScalar params presig m set = .ok (sig, blamed)) :
    sig.Verifies (x • K256.generator F : G) m ∧ sig.LowS G := by
  unfold signRunScalar at h
  obtain ⟨shares, -, h⟩ := ok_of_bind h
  obtain ⟨⟨⟨r, s⟩, b⟩, hcombine, h⟩ := ok_of_bind h
  obtain ⟨sig', hsig, h⟩ := ok_of_bind h
  cases h
  have hvalue : r = presig.r ∧ s = (presig.uCom.poly F).eval 0 * (m + presig.r * x) := by
    unfold combineRobust at hcombine
    rw [combineRobustVerified_cases _ _ _ (degree_signCom basis m)] at hcombine
    split at hcombine
    · cases hcombine
    split at hcombine
    · cases hcombine
      exact ⟨rfl, eval_signCom basis m⟩
    · cases hcombine
  obtain ⟨rfl, rfl⟩ := hvalue
  have hm : m + presig.r * x ≠ 0 := by
    intro hm
    unfold finishSignature Signature.fromScalars at hsig
    rw [hm, mul_zero, if_pos (Or.inr rfl)] at hsig
    cases hsig
  obtain ⟨sig'', hok, hver, hlow⟩ := finishSignature_verifies (G := G) basis hm
  rw [hsig] at hok
  cases hok
  exact ⟨hver, hlow⟩

/-! ## Runs -/

/-- One presigning session: who is honest, which driver the members run, their keys'
commitment, what everyone accepts of the reveals and deals its records rest on, and
what each member accepts. -/
structure PresignSession (F G : Type) where
  c : Committee
  sid : Bytes
  id : U64
  robust : Bool
  honest : List PartyId
  rng : PartyId → Rngs F
  key : PartyId → KeyShare F G
  keyCom : FeldmanCommitment G
  us : AcceptedSet F G
  alphas : AcceptedSet F G
  betas : AcceptedSet F G
  deals : AcceptedSet F G
  view : PartyId → PresignView F G

namespace PresignSession

variable (run : PresignSession F G)

/-- The driver `h` runs, for its record. -/
def driver (h : PartyId) : NodeM F G (Presignature F G) :=
  if run.robust then do
    let (record, _) ← presignRobustRun h run.c.t run.sid run.id (run.key h) run.c.ids (run.view h)
    return record
  else presignRun h run.c.t run.sid run.id (run.key h) run.c.ids (run.view h)

def node (h : PartyId) : Except Fault (Presignature F G) × Driver F G := run.driver h ⟨run.rng h, []⟩

def outcome (h : PartyId) : Outcome (Presignature F G) := (run.node h).1

def sent (h : PartyId) : List (Envelope (NodePayload F G)) := (run.node h).2.sent

theorem driver_follows (h : PartyId) : Follows Driver.slots (presignPlan h run.sid) (run.driver h) := by
  unfold driver
  refine Follows.ite ?_ (presignRun_follows h run.c.t run.sid run.id (run.key h) run.c.ids (run.view h))
  refine (presignRobustRun_follows h run.c.t run.sid run.id (run.key h) run.c.ids (run.view h)).bind_last ?_
  rintro ⟨record, blamed⟩
  exact Follows.pure _

end PresignSession

/-- A session over a broadcast channel with fairly dealt triples and one key of degree
below `t`; nothing is asked of the other members' messages. -/
structure PresignRun (F G : Type) [Field F] [DecidableEq F] [AddCommGroup G] [Module F G] [DecidableEq G]
    [K256 F G] extends PresignSession F G where
  majority : 2 * c.t.val ≤ c.ids.length + 1
  honest_sub : honest ⊆ c.ids
  key_com : ∀ h ∈ honest, (key h).com = keyCom
  key_degree : (keyCom.poly F).degree < c.t.val
  us_accepted : ∀ h ∈ honest, (view h).u.reveals = us
  alphas_accepted : ∀ h ∈ honest, (view h).triple2.alpha.reveals = alphas
  betas_accepted : ∀ h ∈ honest, (view h).triple2.beta.reveals = betas
  deals_accepted : ∀ h ∈ honest, (view h).triple2.deals = deals
  own : ∀ h ∈ honest, (view h).Own (toPresignSession.sent h) h sid
  fairly_dealt : ∀ h ∈ honest, (view h).FairlyDealt c.t sid c.ids

namespace PresignRun

variable (run : PresignRun F G)

theorem outcome_ok {h : PartyId} (hh : h ∈ run.honest) {record : Presignature F G}
    (hok : run.outcome h = .ok record) :
    JointRecord run.c h run.sid run.id run.keyCom run.us run.alphas run.betas run.deals record := by
  have hone : OneEach (run.sent h) :=
    oneEach_of_follows (run.driver_follows h) (presignPlan_nodup h run.sid) (run.rng h)
  have hown := run.own h hh
  have hfair := run.fairly_dealt h hh
  have hme := run.honest_sub hh
  have hkey : ((run.key h).com.poly F).degree < run.c.t.val := by rw [run.key_com h hh]; exact run.key_degree
  have hdriver : Within Driver.sent (run.sent h) (run.driver h)
      (JointRecord run.c h run.sid run.id (run.key h).com (run.view h).u.reveals (run.view h).triple2.alpha.reveals
        (run.view h).triple2.beta.reveals (run.view h).triple2.deals) := by
    unfold PresignSession.driver
    refine Within.ite (fun _ => ?_) fun _ =>
      presignRun_within hone run.c run.majority hme run.sid run.id hkey hown hfair
    refine (presignRobustRun_within hone run.c run.majority hme run.sid run.id hkey hown hfair).bind ?_
    rintro ⟨record, blamed⟩
    exact Within.pure fun hrec => hrec
  have hj := hdriver.result hok
  rwa [run.key_com h hh, run.us_accepted h hh, run.alphas_accepted h hh, run.betas_accepted h hh,
    run.deals_accepted h hh] at hj

/-! ## Top theorem -/

/-- What the honest members that return have: the records of one presignature for the
key, with which no returned signature is invalid. -/
structure Delivers : Prop where
  records : ∀ h ∈ run.honest, ∀ record, run.outcome h = .ok record →
    ∃ k, SignBasis run.c.t ((run.keyCom.poly F).eval 0) record.uCom record.zCom k record.r ∧
      record.bigR = k • K256.generator F
  agree : ∀ h ∈ run.honest, ∀ h' ∈ run.honest, ∀ record record', run.outcome h = .ok record →
    run.outcome h' = .ok record' → record' = ⟨run.id, h', record.r, record.bigR,
      (record.uCom.poly F).eval (scalarFrom h'), (record.zCom.poly F).eval (scalarFrom h'), record.uCom, record.zCom⟩
  signs : ∀ h ∈ run.honest, ∀ record, run.outcome h = .ok record → ∀ params : Params, params.t = run.c.t →
    ∀ m set sig blamed, signRunScalar params record m set = .ok (sig, blamed) →
      sig.Verifies ((run.keyCom.poly F).eval 0 • K256.generator F : G) m ∧ sig.LowS G

/-- **Presigning and signing are sound under corruption**: the members that return, of
the fail-fast driver or of the robust one, have `u·k = 1`, `z = u·x` and `R = k·G` in
common, and a signature one of them returns verifies under `x·G`. -/
theorem presign_sound : run.Delivers where
  records h hh record hok := (run.outcome_ok hh hok).basis run.majority
    (by rw [← run.betas_accepted h hh, ← run.deals_accepted h hh]; exact (run.fairly_dealt h hh).triple2.proofs)
    (by rw [← run.deals_accepted h hh]; exact (run.fairly_dealt h hh).triple2.short)
  agree h hh h' hh' record record' hok hok' := (run.outcome_ok hh hok).record_eq (run.outcome_ok hh' hok')
  signs h hh record hok params hparams m set sig blamed hsig := by
    obtain ⟨k, basis, -⟩ := (run.outcome_ok hh hok).basis run.majority
      (by rw [← run.betas_accepted h hh, ← run.deals_accepted h hh]; exact (run.fairly_dealt h hh).triple2.proofs)
      (by rw [← run.deals_accepted h hh]; exact (run.fairly_dealt h hh).triple2.short)
    rw [← hparams] at basis
    exact signRunScalar_sound basis hsig

end PresignRun

/-! ### Member 3 broadcasts a wrong share of `v` -/

section Trio

open Secp256k1

/-- The deal of `reconDeal` in the session `sid`. -/
def fairDeal (sid : Bytes) (j : PartyId) : TripleDealMsg Scalar Point :=
  let a := reconProduct j
  let x1 : Point := a • K256.generator Scalar
  ⟨⟨[(a * a) • K256.generator Scalar, 1]⟩, x1, (a * a) • K256.generator Scalar,
    (DleqProof.proveWith sid tags.tripleProduct a (K256.generator Scalar) x1 1).2.2⟩

def fairTriple (sid : Bytes) (h : PartyId) : TripleView Scalar Point where
  alpha := reconVss (sid ++ utf8 "/alpha") h
  beta := reconVss (sid ++ utf8 "/beta") h
  deals := collect (trio.ids.map fun j => (j, .tripleDeal (fairDeal sid j)))
  reshares := collect (trio.ids.map fun j =>
    (j, ⟨Envelope.p2p sid .triples TR_ROUND_DEAL j h (.reshare (reconReshare j h)), []⟩))
  complaints := collect (trio.ids.map fun j => (j, .complaints []))
  defenses := collect (trio.ids.map fun j => (j, .defenses []))
  requests := ∅
  supplies := ∅

/-- `α = β = u = a = 3 + 3·X`, so `δ = ε = 0` and `v = γ`, of which member 3 sends a wrong share. -/
def badOpenView (h : PartyId) : PresignView Scalar Point where
  triple := fairTriple (utf8 "/t1") h
  u := reconVss (utf8 "/u") h
  a := reconVss (utf8 "/a") h
  deltaEps := collect (trio.ids.map fun j => (j, .beaverOpen 0 0))
  v := collect [(1, .openShare 10), (2, .openShare 11), (3, .openShare 0)]
  nonce := collect (trio.ids.map fun j => (j, .noncePoint (((9 : Scalar)⁻¹ * reconProduct j) • K256.generator Scalar)))
  triple2 := fairTriple (utf8 "/t2") h
  z := collect (trio.ids.map fun j => (j, .beaverOpen 0 (1 + scalarFrom j - reconProduct j)))

def badOpenSession : PresignSession Scalar Point where
  c := trio
  sid := []
  id := 0
  robust := true
  honest := [1, 2]
  rng h := ⟨[⟨h.val, fun _ => 1, 0⟩], []⟩
  key h := ⟨h, 1 + scalarFrom h, ⟨[1, 1]⟩⟩
  keyCom := ⟨[1, 1]⟩
  us := collect (trio.ids.map fun j => (j, .dkg (.reveal ⟨j, ⟨[1, 1]⟩⟩)))
  alphas := collect (trio.ids.map fun j => (j, .dkg (.reveal ⟨j, ⟨[1, 1]⟩⟩)))
  betas := collect (trio.ids.map fun j => (j, .dkg (.reveal ⟨j, ⟨[1, 1]⟩⟩)))
  deals := collect (trio.ids.map fun j => (j, .tripleDeal (fairDeal (utf8 "/t2") j)))
  view := badOpenView

/-- The complaint rounds of a presigning with session `[]`. -/
def complaintRounds : List (Bytes × Phase × Nat) :=
  [(utf8 "/t1" ++ utf8 "/alpha", .triples, VSS_ROUND_COMPLAIN), (utf8 "/t1" ++ utf8 "/beta", .triples, VSS_ROUND_COMPLAIN),
    (utf8 "/t1", .triples, TR_ROUND_COMPLAIN), (utf8 "/u", .presign, VSS_ROUND_COMPLAIN),
    (utf8 "/a", .presign, VSS_ROUND_COMPLAIN), (utf8 "/t2" ++ utf8 "/alpha", .triples, VSS_ROUND_COMPLAIN),
    (utf8 "/t2" ++ utf8 "/beta", .triples, VSS_ROUND_COMPLAIN), (utf8 "/t2", .triples, TR_ROUND_COMPLAIN)]

theorem badOpen_contented (h : PartyId) (hh : h ∈ ([1, 2] : List PartyId)) :
    complaintRounds.all (fun slot => contented (badOpenSession.sent h) slot.1 slot.2.1 slot.2.2 h) = true := by
  have hall : (([1, 2] : List PartyId).all fun h =>
      complaintRounds.all fun slot => contented (badOpenSession.sent h) slot.1 slot.2.1 slot.2.2 h) = true := by
    decide +kernel
  exact List.all_eq_true.mp hall h hh

theorem fairTriple_fairlyDealt (sid : Bytes) (h : PartyId) (sid' : Bytes) :
    (fairTriple sid h).FairlyDealt trio.t sid' trio.ids := by
  refine ⟨fun cb hcb i hi d hd _ => ?_, fun i hi => ?_⟩
  · have hsum : FeldmanCommitment.sum (trio.ids.map (revealedCom (fairTriple sid h).beta.reveals)) =
        .ok ⟨[3, 3]⟩ := by
      have hsum' : FeldmanCommitment.sum (trio.ids.map (revealedCom
          (collect (trio.ids.map fun j => (j, .dkg (.reveal ⟨j, ⟨[1, 1]⟩⟩))) : AcceptedSet Scalar Point))) =
          .ok ⟨[3, 3]⟩ := by decide +kernel
      exact hsum'
    obtain rfl : (⟨[3, 3]⟩ : FeldmanCommitment Point) = cb := Except.ok.inj (hsum.symm.trans hcb)
    have hdeal : d = fairDeal sid i :=
      NodePayload.tripleDeal.inj (collect_trio (fun j => NodePayload.tripleDeal (fairDeal sid j)) hd)
    have hall : (trio.ids.all fun j => reconProduct j • (K256.generator Scalar : Point) =
        reconProduct j • K256.generator Scalar ∧
        (reconProduct j * reconProduct j) • (K256.generator Scalar : Point) =
          reconProduct j • (⟨[3, 3]⟩ : FeldmanCommitment Point).evalAt Scalar j) = true := by
      decide +kernel
    rw [hdeal]
    exact ⟨reconProduct i, of_decide_eq_true (List.all_eq_true.mp hall i hi)⟩
  · unfold dealtCom
    split
    · next d hd =>
      have hdeal : d = fairDeal sid i :=
        NodePayload.tripleDeal.inj (collect_trio (fun j => NodePayload.tripleDeal (fairDeal sid j)) hd)
      rw [hdeal]
      exact (by decide : 2 ≤ trio.t.val)
    · decide

/-- Members 1 and 2 are honest, and member 3's shares of `v` are wrong. -/
def badOpenRun : PresignRun Scalar Point where
  toPresignSession := badOpenSession
  majority := trio_majority
  honest_sub := one_two_sub_trio
  key_com _ _ := rfl
  key_degree := degree_poly_lt (⟨[1, 1]⟩ : FeldmanCommitment Point)
  us_accepted _ _ := rfl
  alphas_accepted _ _ := rfl
  betas_accepted _ _ := rfl
  deals_accepted _ _ := rfl
  own h hh := by
    have hall := badOpen_contented h hh
    simp only [complaintRounds, List.all_cons, List.all_nil, Bool.and_eq_true, Bool.and_true] at hall
    obtain ⟨h₁, h₂, h₃, h₄, h₅, h₆, h₇, h₈⟩ := hall
    exact ⟨⟨⟨ownRound_of_contented h₁, ownRound_of_contented h₂, ownRound_of_contented h₃⟩,
      ownRound_of_contented h₄, ownRound_of_contented h₅⟩,
      ⟨ownRound_of_contented h₆, ownRound_of_contented h₇, ownRound_of_contented h₈⟩⟩
  fairly_dealt h _ := ⟨fairTriple_fairlyDealt _ h _, fairTriple_fairlyDealt _ h _⟩

/-- Both honest members get their records of one presignature, member 3 blamed. -/
theorem presign_sound_trio : badOpenRun.Delivers ∧
    badOpenRun.outcome 1 = .ok (trioRecord 1) ∧ badOpenRun.outcome 2 = .ok (trioRecord 2) :=
  ⟨badOpenRun.presign_sound, by decide +kernel, by decide +kernel⟩

end Trio

end OhmEcdsa
