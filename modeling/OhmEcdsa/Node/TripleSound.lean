import OhmEcdsa.Node.Calls
import OhmEcdsa.Node.VssRun
import OhmEcdsa.Node.VssSound

/-!
# What a returned triple is worth (`party.rs`: `triple_run`)

The dealers of the re-sharings prove that they share `α(i)·β(i)`; they are asked for
nothing else, not even for `t` points.  Whatever they send, the members that return have
their shares of one combination `Σ λ_i·C_i` of the accepted vectors, which is
`α(0)·β(0)` at 0 if the accepted proofs are of true statements:

    net.Authentic → net.ProofsTrue → net.Delivers                          (triple_sound)

Its degree is that of the longest accepted vector.
-/

set_option linter.unusedSectionVars false

namespace OhmEcdsa

open Hoare FeldmanCommitment Polynomial Interpolation

variable {F G : Type} [Field F] [DecidableEq F] [AddCommGroup G] [Module F G] [DecidableEq G] [K256 F G]

/-! ## Specification -/

def dealtCom (deals : AcceptedSet F G) (i : PartyId) : FeldmanCommitment G :=
  match deals[i]? with
  | some (.tripleDeal d) => d.com
  | _ => ⟨[]⟩

/-- `λ_i` over the committee. -/
noncomputable def lagrangeWeight (F : Type) [Field F] [DecidableEq F] (ids : List PartyId) (i : PartyId) : F :=
  weight 0 (ids.map scalarFrom) (scalarFrom i)

/-- `me`'s share of the combination of two joint sharings' re-shared products. -/
structure JointTriple (t : Usize) (me : PartyId) (sid : Bytes) (ids : List PartyId)
    (alphas betas deals : AcceptedSet F G) (share : TripleShare F) (pub : TriplePublic G) : Prop where
  index : share.index = me
  alpha : JointShare t me ids alphas ⟨me, share.a, pub.ca⟩
  beta : JointShare t me ids betas ⟨me, share.b, pub.cb⟩
  proved : ∀ i ∈ ids, ∃ d, deals[i]? = some (.tripleDeal d) ∧ dealFails sid pub.ca pub.cb i d = false
  cc : FeldmanCommitment.sum (ids.map fun i => (dealtCom deals i).scale (lagrangeWeight F ids i)) = .ok pub.cc
  share : share.c = (pub.cc.poly F).eval (scalarFrom me)

/-- The node's own complaint lists were accepted as sent. -/
structure TripleView.Own (log : List (Envelope (NodePayload F G))) (me : PartyId) (sid : Bytes)
    (view : TripleView F G) : Prop where
  alpha : OwnRound log me (sid ++ utf8 "/alpha") .triples VSS_ROUND_COMPLAIN view.alpha.complaints
  beta : OwnRound log me (sid ++ utf8 "/beta") .triples VSS_ROUND_COMPLAIN view.beta.complaints
  reshares : OwnRound log me sid .triples TR_ROUND_COMPLAIN view.complaints

/-- The accepted proofs for the product with a point of `cb` are of true statements. -/
def ProofsTrue (sid : Bytes) (ids : List PartyId) (betas deals : AcceptedSet F G) : Prop :=
  ∀ cb, FeldmanCommitment.sum (ids.map (revealedCom betas)) = .ok cb →
    ∀ i ∈ ids, ∀ d, deals[i]? = some (.tripleDeal d) →
      DleqProof.verify sid tags.tripleProduct (K256.generator F) d.x1 (cb.evalAt F i) d.x2 d.proof = true →
      ∃ a : F, d.x1 = a • K256.generator F ∧ d.x2 = a • cb.evalAt F i

/-! ## Lemmas: the combination -/

theorem dealtCom_eq {deals : AcceptedSet F G} {i : PartyId} {d : TripleDealMsg F G}
    (h : deals[i]? = some (.tripleDeal d)) : dealtCom deals i = d.com := by
  unfold dealtCom
  rw [h]

/-- `[γ] = Σ λ_i·[g_i]` over the deals and re-shares at hand. -/
theorem tripleCombine_eq (c : Committee) (me : PartyId) (alpha beta : KeyShare F G) (deals : AcceptedSet F G)
    {t2deals : PartyMap (TripleDealMsg F G)} {mine : PartyMap F} (s : PartyId → F)
    (hdeals : ∀ i ∈ c.ids, ∃ d, deals[i]? = some (.tripleDeal d) ∧ t2deals[i]? = some d)
    (hmine : ∀ i ∈ c.ids, mine[i]? = some (s i)) :
    tripleCombine me c.ids alpha beta t2deals mine =
      (FeldmanCommitment.sum (c.ids.map fun i => (dealtCom deals i).scale (lagrangeWeight F c.ids i))).map fun cc =>
        (⟨me, alpha.share, beta.share, (c.ids.map fun i => lagrangeWeight F c.ids i * s i).sum⟩,
          ⟨alpha.com, beta.com, cc⟩) := by
  have hlam : lagrangeCoeffs (F := F) c.ids = .ok (c.ids.map (lagrangeWeight F c.ids)) :=
    lagrangeCoeffsAt_eq (0 : F) c.ids (map_scalarFrom_nodup F G c.nodup)
  have hzip : c.ids.zip (c.ids.map (lagrangeWeight F c.ids)) = c.ids.map fun i => (i, lagrangeWeight F c.ids i) :=
    List.map_prod_left_eq_zip .. |>.symm
  have hscaled := mapM_ok_of (fun e : PartyId × F => do
      let d ← index t2deals e.1
      return d.com.scale e.2 : PartyId × F → Outcome (FeldmanCommitment G))
    (fun e => (dealtCom deals e.1).scale e.2) (c.ids.map fun i => (i, lagrangeWeight F c.ids i)) fun e he => by
      obtain ⟨i, hi, rfl⟩ := List.mem_map.mp he
      obtain ⟨d, hd, hd2⟩ := hdeals i hi
      rw [index_some hd2, dealtCom_eq hd]
      rfl
  have hterms := mapM_ok_of (fun e : PartyId × F => do
      let x ← index mine e.1
      return e.2 * x : PartyId × F → Outcome F)
    (fun e => e.2 * s e.1) (c.ids.map fun i => (i, lagrangeWeight F c.ids i)) fun e he => by
      obtain ⟨i, hi, rfl⟩ := List.mem_map.mp he
      rw [index_some (hmine i hi)]
      rfl
  rw [List.map_map] at hscaled hterms
  unfold tripleCombine
  rw [hlam]
  simp only [bind, Except.bind] at hscaled hterms ⊢
  rw [hzip, hscaled]
  simp only
  rw [hterms]
  obtain ⟨first, rest, hids⟩ := List.exists_cons_of_ne_nil c.ids_ne
  simp only [hids, List.map_cons, Function.comp_def, FeldmanCommitment.sum]
  rw [List.sum_eq_foldl]
  rfl

/-! ## Lemmas: one node's run -/

/-- The re-shares were checked against every member's deal. -/
theorem deal_of_badReshares {me : PartyId} {ids : List PartyId} {t2 : TripleT2 F G} {bad : List PartyId}
    (h : badReshares me ids t2 = .ok bad) {i : PartyId} (hi : i ∈ ids) : ∃ d, t2.deals[i]? = some d := by
  unfold badReshares at h
  obtain ⟨checked, hchecked, -⟩ := ok_of_bind h
  obtain ⟨b, -, hb⟩ := forall₂_exists_left (forall₂_of_mapM_ok _ _ hchecked).flip hi
  obtain ⟨d, hd, -⟩ := ok_of_bind hb
  exact ⟨d, getElem?_of_index hd⟩

section Within

variable {log : List (Envelope (NodePayload F G))} (hone : OneEach log) {me : PartyId} (t : Usize) (sid : Bytes)
  {view : TripleView F G}

include hone

/-- **T1 and T2**: two shares of the revealed sums, and what was accepted of the deals. -/
theorem tripleT1T2_within {ids : List PartyId} (hme : me ∈ ids) (hown : view.Own log me sid) :
    Within Driver.sent log (tripleT1T2 me t sid ids view) fun out =>
      JointShare t me ids view.alpha.reveals out.1 ∧ JointShare t me ids view.beta.reveals out.2.1 ∧
      out.2.2.Collected ids view := by
  unfold tripleT1T2
  refine (jointVssRun_within hone hme t _ _ _ hown.alpha).bind fun alpha => ?_
  refine (jointVssRun_within hone hme t _ _ _ hown.beta).bind fun beta => ?_
  refine (draw_within _).skip fun g => (draw_within _).skip ?_
  rintro ⟨x1, x2, proof⟩
  refine (send_skip _).skip fun _ => (Within.forM ids fun i _ => send_skip _).skip fun _ => ?_
  exact Within.lift_bind fun t2 ht2 => Within.pure fun hbeta halpha => ⟨halpha, hbeta, (collectT2_ok ht2).1⟩

/-- **A returned triple**: every accepted deal passed its proof check, every re-share its vector. -/
theorem tripleRun_within (c : Committee) (hme : me ∈ c.ids) (hown : view.Own log me sid) :
    Within Driver.sent log (tripleRun me t sid c.ids view) fun out =>
      JointTriple t me sid c.ids view.alpha.reveals view.beta.reveals view.deals out.1 out.2 := by
  unfold tripleRun
  refine (tripleT1T2_within hone t sid hme hown).bind ?_
  rintro ⟨alpha, beta, t2⟩
  refine Within.lift_bind fun _ hproofs => Within.lift_bind fun complaints hbad => ?_
  have hv : ∀ d ∈ c.ids, ∀ a ∈ c.ids, ∃ verifies : F → Bool, ∀ s, (do
      let deal ← index t2.deals d
      return deal.com.verifyShare a s : Outcome Bool) = .ok (verifies s) := by
    intro i hi a _
    obtain ⟨d, hd⟩ := deal_of_badReshares hbad hi
    exact ⟨d.com.verifyShare a, fun s => by rw [index_some hd]; rfl⟩
  refine (complaintRound_within hone hme sid .triples _ complaints t2.sent hv view.complaints view.defenses
    hown.reshares).bind fun _ => Within.lift ?_
  rintro out hout ⟨rfl, -⟩ ⟨halpha, hbeta, hcol⟩
  have hdeals : ∀ i ∈ c.ids, ∃ d, view.deals[i]? = some (.tripleDeal d) ∧ t2.deals[i]? = some d := hcol.deal
  have hgood : ∀ i ∈ c.ids, ∀ d, t2.deals[i]? = some d → dealFails sid alpha.com beta.com i d = false := by
    rw [tripleCheckProofs_eq sid alpha.com beta.com fun i hi => (hdeals i hi).imp fun _ h => h.2] at hproofs
    cases hfirst : firstBadDeal sid alpha.com beta.com c.ids t2.deals with
    | some j =>
      rw [hfirst] at hproofs
      obtain ⟨d, -, hd⟩ := hdeals j (List.mem_of_find?_eq_some hfirst)
      have hfails := List.find?_some hfirst
      rw [hd, Option.any_some] at hfails
      rcases tripleCheckProof_cases sid alpha.com beta.com hd with ⟨hok, -⟩ | ⟨-, ⟨-, he⟩ | ⟨-, msg, he⟩⟩
      · rw [hok] at hfails
        cases hfails
      · simp only [he] at hproofs
        cases hproofs
      · simp only [he] at hproofs
        cases hproofs
    | none =>
      intro i hi d hd
      have hnone := List.find?_eq_none.mp hfirst i hi
      rw [hd, Option.any_some] at hnone
      simpa using hnone
  rw [badReshares_eq hcol] at hbad
  have hmine : ∀ i ∈ c.ids, t2.mine[i]? = some (((dealtCom view.deals i).poly F).eval (scalarFrom me)) := by
    intro i hi
    obtain ⟨d, hd, hd2⟩ := hdeals i hi
    obtain ⟨x, hx⟩ := hcol.mine hi
    have hverify := List.filter_eq_nil_iff.mp (Except.ok.inj hbad) i hi
    unfold TripleT2.verifies at hverify
    rw [hd2, hx] at hverify
    rw [hx, dealtCom_eq hd, (verifyShare_iff d.com me x).mp (by simpa using hverify)]
  rw [tripleCombine_eq c me alpha beta view.deals _ hdeals hmine] at hout
  cases hsum : FeldmanCommitment.sum (c.ids.map fun i =>
      (dealtCom view.deals i).scale (lagrangeWeight F c.ids i)) with
  | error e =>
    rw [hsum] at hout
    cases hout
  | ok cc =>
    rw [hsum] at hout
    obtain rfl := Except.ok.inj hout
    have halpha' : JointShare t me c.ids view.alpha.reveals ⟨me, alpha.share, alpha.com⟩ :=
      ⟨rfl, halpha.points, halpha.com, halpha.share⟩
    have hbeta' : JointShare t me c.ids view.beta.reveals ⟨me, beta.share, beta.com⟩ :=
      ⟨rfl, hbeta.points, hbeta.com, hbeta.share⟩
    refine ⟨rfl, halpha', hbeta', fun i hi => ?_, hsum, ?_⟩
    · obtain ⟨d, hd, hd2⟩ := hdeals i hi
      exact ⟨d, hd, hgood i hi d hd2⟩
    · obtain ⟨cc', hok', hpoly⟩ := sum_ok (F := F) _ (by
        simpa using c.ids_ne : (c.ids.map fun i => (dealtCom view.deals i).scale (lagrangeWeight F c.ids i)) ≠ [])
      rw [hsum] at hok'
      obtain rfl := Except.ok.inj hok'
      rw [hpoly, eval_listSum, List.map_map, List.map_map]
      refine congrArg List.sum (List.map_congr_left fun i _ => ?_)
      simp only [Function.comp_apply, poly_scale, eval_mul, eval_C]

end Within

/-! ## Lemmas: what a triple is worth -/

/-- `Σ λ_i·C_i` of the accepted vectors. -/
noncomputable def resharedSum (ids : List PartyId) (deals : AcceptedSet F G) : F[X] :=
  (ids.map fun i => C (lagrangeWeight F ids i) * (dealtCom deals i).poly F).sum

namespace JointTriple

variable {c : Committee} {t : Usize} {me me' : PartyId} {sid : Bytes} {ids : List PartyId}
  {alphas betas deals : AcceptedSet F G} {share share' : TripleShare F} {pub pub' : TriplePublic G}

theorem pub_eq (h : JointTriple t me sid ids alphas betas deals share pub)
    (h' : JointTriple t me' sid ids alphas betas deals share' pub') : pub' = pub := by
  obtain ⟨ca, cb, cc⟩ := pub
  obtain ⟨ca', cb', cc'⟩ := pub'
  have ha : ca = ca' := h.alpha.com_eq h'.alpha
  have hb : cb = cb' := h.beta.com_eq h'.beta
  have hok := h.cc
  rw [h'.cc] at hok
  have hc : cc' = cc := Except.ok.inj hok
  rw [ha, hb, hc]

theorem poly_cc (h : JointTriple t me sid c.ids alphas betas deals share pub) :
    pub.cc.poly F = resharedSum c.ids deals := by
  obtain ⟨cc, hok, hpoly⟩ := sum_ok (F := F) _ (by
    simpa using c.ids_ne : (c.ids.map fun i => (dealtCom deals i).scale (lagrangeWeight F c.ids i)) ≠ [])
  rw [h.cc] at hok
  obtain rfl := Except.ok.inj hok
  rw [hpoly, resharedSum, List.map_map]
  refine congrArg List.sum (List.map_congr_left fun i _ => ?_)
  exact poly_scale _ _

/-- A true proof that passes is one of the product. -/
theorem product_at (h : JointTriple t me sid ids alphas betas deals share pub)
    (htrue : ProofsTrue (F := F) sid ids betas deals) {i : PartyId} (hi : i ∈ ids) :
    ((dealtCom deals i).poly F).eval 0 =
      (pub.ca.poly F).eval (scalarFrom i) * (pub.cb.poly F).eval (scalarFrom i) := by
  obtain ⟨d, hd, hgood⟩ := h.proved i hi
  unfold dealFails at hgood
  simp only [Bool.not_eq_false', decide_eq_true_eq] at hgood
  obtain ⟨hx1, hhead, hverify⟩ := hgood
  obtain ⟨a, ha1, ha2⟩ := htrue pub.cb h.beta.com i hi d hd hverify
  rw [hx1, evalAt_eq, smul_generator_inj] at ha1
  rw [evalAt_eq, smul_smul] at ha2
  obtain ⟨ps, hps⟩ : ∃ ps, d.com.points = d.x2 :: ps := by
    cases hpoints : d.com.points with
    | nil =>
      rw [hpoints] at hhead
      cases hhead
    | cons p ps =>
      rw [hpoints] at hhead
      exact ⟨ps, by rw [Option.some.inj hhead]⟩
  rw [dealtCom_eq hd, poly, hps, List.map_cons, eval_zero_ofCoeffs, ha2, log_generator_smul, ha1]

/-- **Degree reduction**, whatever was dealt: at 0 the combination is the product. -/
theorem product (h : JointTriple c.t me sid c.ids alphas betas deals share pub)
    (hmaj : 2 * c.t.val ≤ c.ids.length + 1) (htrue : ProofsTrue (F := F) sid c.ids betas deals) :
    (pub.cc.poly F).eval 0 = (pub.ca.poly F).eval 0 * (pub.cb.poly F).eval 0 := by
  have hdeg : (pub.ca.poly F * pub.cb.poly F).degree < (c.ids.map (scalarFrom : PartyId → F)).length := by
    rw [List.length_map]
    exact degree_mul_lt _ _ h.alpha.degree h.beta.degree c.t_pos hmaj
  have hint := sum_weight_mul_eval 0 _ (map_scalarFrom_nodup F G c.nodup) _ hdeg
  rw [List.map_map, eval_mul] at hint
  rw [h.poly_cc, resharedSum, eval_listSum, List.map_map, ← hint]
  refine congrArg _ (List.map_congr_left fun i hi => ?_)
  simp only [Function.comp_apply, eval_mul, eval_C, h.product_at htrue hi]
  rfl

end JointTriple

theorem degree_resharedSum {ids : List PartyId} {deals : AcceptedSet F G} {k : Nat}
    (h : ∀ i ∈ ids, (dealtCom deals i).points.length ≤ k) : (resharedSum (F := F) ids deals).degree < k := by
  refine degree_sum_lt _ fun p hp => ?_
  obtain ⟨i, hi, rfl⟩ := List.mem_map.mp hp
  exact degree_C_mul_lt _ (lt_of_lt_of_le (degree_poly_lt _) (by exact_mod_cast h i hi))

/-! ## Runs -/

/-- One session: who is honest, what everyone accepts of the reveals and deals, and
what each member accepts. -/
structure TripleSession (F G : Type) where
  c : Committee
  sid : Bytes
  honest : List PartyId
  rng : PartyId → Rngs F
  alphas : AcceptedSet F G
  betas : AcceptedSet F G
  deals : AcceptedSet F G
  view : PartyId → TripleView F G

namespace TripleSession

variable (run : TripleSession F G)

def node (h : PartyId) : Except Fault (TripleShare F × TriplePublic G) × Driver F G :=
  tripleRun h run.c.t run.sid run.c.ids (run.view h) ⟨run.rng h, []⟩

def outcome (h : PartyId) : Outcome (TripleShare F × TriplePublic G) := (run.node h).1

def sent (h : PartyId) : List (Envelope (NodePayload F G)) := (run.node h).2.sent

end TripleSession

/-- A session over a broadcast channel, whose accepted proofs are of true statements;
nothing is asked of the other members' messages. -/
structure TripleRun (F G : Type) [Field F] [DecidableEq F] [AddCommGroup G] [Module F G] [DecidableEq G]
    [K256 F G] extends TripleSession F G where
  majority : 2 * c.t.val ≤ c.ids.length + 1
  honest_sub : honest ⊆ c.ids
  alphas_accepted : ∀ h ∈ honest, (view h).alpha.reveals = alphas
  betas_accepted : ∀ h ∈ honest, (view h).beta.reveals = betas
  deals_accepted : ∀ h ∈ honest, (view h).deals = deals
  own : ∀ h ∈ honest, (view h).Own (toTripleSession.sent h) h sid
  proofs_true : ProofsTrue (F := F) sid c.ids betas deals

namespace TripleRun

variable (run : TripleRun F G)

theorem outcome_ok {h : PartyId} (hh : h ∈ run.honest) {share : TripleShare F} {pub : TriplePublic G}
    (hok : run.outcome h = .ok (share, pub)) :
    JointTriple run.c.t h run.sid run.c.ids run.alphas run.betas run.deals share pub := by
  have hone : OneEach (run.sent h) := oneEach_of_follows (tripleRun_follows h run.c.t run.sid run.c.ids (run.view h))
    (triplePlan_nodup h run.sid) (run.rng h)
  have hj : JointTriple run.c.t h run.sid run.c.ids (run.view h).alpha.reveals (run.view h).beta.reveals
      (run.view h).deals share pub :=
    (tripleRun_within hone run.c.t run.sid run.c (run.honest_sub hh) (run.own h hh)).result hok
  rwa [run.alphas_accepted h hh, run.betas_accepted h hh, run.deals_accepted h hh] at hj

/-! ## Top theorem -/

/-- The c-shares of `quorum` interpolate to `α(0)·β(0)`. -/
def Opens (quorum : List PartyId) (out : PartyId → TripleShare F) (pub : TriplePublic G) : Prop :=
  interpolateAtZero quorum (quorum.map fun i => (out i).c) = .ok ((pub.ca.poly F).eval 0 * (pub.cb.poly F).eval 0)

/-- What the honest members that return have: shares of one triple. -/
structure Delivers : Prop where
  agree : ∀ h ∈ run.honest, ∀ h' ∈ run.honest, ∀ share pub share' pub', run.outcome h = .ok (share, pub) →
    run.outcome h' = .ok (share', pub') → pub' = pub
  shares : ∀ h ∈ run.honest, ∀ share pub, run.outcome h = .ok (share, pub) →
    share = ⟨h, (pub.ca.poly F).eval (scalarFrom h), (pub.cb.poly F).eval (scalarFrom h),
      (pub.cc.poly F).eval (scalarFrom h)⟩
  combination : ∀ h ∈ run.honest, ∀ share pub, run.outcome h = .ok (share, pub) →
    pub.cc.poly F = resharedSum run.c.ids run.deals
  degrees : ∀ h ∈ run.honest, ∀ share pub, run.outcome h = .ok (share, pub) →
    (pub.ca.poly F).degree < run.c.t.val ∧ (pub.cb.poly F).degree < run.c.t.val ∧
    ∀ k, (∀ i ∈ run.c.ids, (dealtCom run.deals i).points.length ≤ k) → (pub.cc.poly F).degree < k
  product : ∀ h ∈ run.honest, ∀ share pub, run.outcome h = .ok (share, pub) →
    (pub.cc.poly F).eval 0 = (pub.ca.poly F).eval 0 * (pub.cb.poly F).eval 0
  opens_iff : ∀ (quorum : List PartyId) (out : PartyId → TripleShare F) (pub : TriplePublic G), quorum ⊆ run.honest →
    quorum.Nodup → quorum ≠ [] → (∀ h ∈ quorum, run.outcome h = .ok (out h, pub)) →
    (Opens quorum out pub ↔
      (quotient (quorum.map scalarFrom) (resharedSum (F := F) run.c.ids run.deals)).eval 0 = 0)
  opens : ∀ (quorum : List PartyId) (out : PartyId → TripleShare F) (pub : TriplePublic G), quorum ⊆ run.honest →
    quorum.Nodup → quorum ≠ [] → (∀ h ∈ quorum, run.outcome h = .ok (out h, pub)) →
    (∀ i ∈ run.c.ids, (dealtCom run.deals i).points.length ≤ quorum.length) → Opens quorum out pub

/-- A quorum opens its c-shares to the product exactly when the rest of `Σ λ_i·C_i` does
not count at 0. -/
theorem opens_iff {quorum : List PartyId} {out : PartyId → TripleShare F} {pub : TriplePublic G}
    (hsub : quorum ⊆ run.honest) (hnd : quorum.Nodup) (hne : quorum ≠ [])
    (hok : ∀ h ∈ quorum, run.outcome h = .ok (out h, pub)) :
    Opens quorum out pub ↔
      (quotient (quorum.map scalarFrom) (resharedSum (F := F) run.c.ids run.deals)).eval 0 = 0 := by
  obtain ⟨h, hh⟩ := List.exists_mem_of_ne_nil _ hne
  have hj := run.outcome_ok (hsub hh) (hok h hh)
  have hprod := hj.product run.majority run.proofs_true
  have hxnd : (quorum.map (scalarFrom : PartyId → F)).Nodup := map_scalarFrom_nodup F G hnd
  have hzero : (0 : F) ∉ quorum.map scalarFrom := by
    intro hmem
    obtain ⟨i, hi, h0⟩ := List.mem_map.mp hmem
    have : i = 0 := scalarFrom_injective F G (h0.trans (by simp [scalarFrom]))
    exact (run.c.ids_pos i (run.honest_sub (hsub hi))).ne' this
  have hshares : (quorum.map fun i => (out i).c) =
      quorum.map fun i => (remainder (quorum.map scalarFrom) (pub.cc.poly F)).eval (scalarFrom i) := by
    refine List.map_congr_left fun i hi => ?_
    rw [eval_remainder _ _ (List.mem_map_of_mem hi)]
    exact (run.outcome_ok (hsub hi) (hok i hi)).share
  have hdeg : (remainder (quorum.map scalarFrom) (pub.cc.poly F)).degree < quorum.length := by
    have := degree_remainder_lt _ hxnd (pub.cc.poly F)
    rwa [List.length_map] at this
  unfold Opens interpolateAtZero
  rw [hshares, interpolateAt_eval 0 quorum hxnd _ hdeg, ← hprod, Except.ok.injEq, eval_remainder_iff, hj.poly_cc]
  exact or_iff_right hzero

/-- **Triples are sound under corruption.**  The members that return agree, their
shares lie on the committed polynomials, and `γ(0) = α(0)·β(0)`.  A quorum opens its
c-shares to the product exactly when the part of `Σ λ_i·C_i` of degree beyond the
quorum vanishes at 0, so always when no dealer dealt more points than the quorum has
members. -/
theorem triple_sound : run.Delivers where
  agree h hh h' hh' share pub share' pub' hok hok' := (run.outcome_ok hh hok).pub_eq (run.outcome_ok hh' hok')
  shares h hh share pub hok := by
    obtain ⟨index, a, b, x⟩ := share
    have hj := run.outcome_ok hh hok
    rw [← hj.share, ← show a = _ from hj.alpha.share, ← show b = _ from hj.beta.share, ← hj.index]
  combination h hh share pub hok := (run.outcome_ok hh hok).poly_cc
  degrees h hh share pub hok := by
    have hj := run.outcome_ok hh hok
    refine ⟨hj.alpha.degree, hj.beta.degree, fun k hk => ?_⟩
    rw [hj.poly_cc]
    exact degree_resharedSum hk
  product h hh share pub hok := (run.outcome_ok hh hok).product run.majority run.proofs_true
  opens_iff quorum out pub hsub hnd hne hok := run.opens_iff hsub hnd hne hok
  opens quorum out pub hsub hnd hne hok hlen := by
    have hdeg : (resharedSum (F := F) run.c.ids run.deals).degree < (quorum.map (scalarFrom : PartyId → F)).length := by
      rw [List.length_map]
      exact degree_resharedSum hlen
    rw [run.opens_iff hsub hnd hne hok, quotient_eq_zero _ (map_scalarFrom_nodup F G hnd) hdeg, eval_zero]

end TripleRun

/-! ### Dealer 3 commits to a point too many -/

section Trio

open Secp256k1

/-- Dealer 3 re-shares its product by a polynomial with leading coefficient `x`. -/
def longReshare (x : Scalar) (j h : PartyId) : Scalar :=
  reconReshare j h + if j = 3 then x * scalarFrom h * scalarFrom h else 0

def longDeal (x : Scalar) (j : PartyId) : TripleDealMsg Scalar Point :=
  if j = 3 then { reconDeal j with com := ⟨(reconDeal j).com.points ++ [x • K256.generator Scalar]⟩ } else reconDeal j

def longView (x : Scalar) (h : PartyId) : TripleView Scalar Point where
  alpha := reconVss (utf8 "/alpha") h
  beta := reconVss (utf8 "/beta") h
  deals := collect (trio.ids.map fun j => (j, .tripleDeal (longDeal x j)))
  reshares := collect (trio.ids.map fun j =>
    (j, ⟨Envelope.p2p [] .triples TR_ROUND_DEAL j h (.reshare (longReshare x j h)), []⟩))
  complaints := collect (trio.ids.map fun j => (j, .complaints []))
  defenses := collect (trio.ids.map fun j => (j, .defenses []))
  requests := ∅
  supplies := ∅

def longSession (x : Scalar) : TripleSession Scalar Point where
  c := trio
  sid := []
  honest := [1, 2]
  rng h := ⟨[⟨h.val, fun _ => 1, 0⟩], []⟩
  alphas := collect (trio.ids.map fun j => (j, .dkg (.reveal ⟨j, ⟨[1, 1]⟩⟩)))
  betas := collect (trio.ids.map fun j => (j, .dkg (.reveal ⟨j, ⟨[1, 1]⟩⟩)))
  deals := collect (trio.ids.map fun j => (j, .tripleDeal (longDeal x j)))
  view := longView x

/-- `me` broadcast an empty complaint list. -/
def contented (sent : List (Envelope (NodePayload Scalar Point))) (sid : Bytes) (phase : Phase) (round : Nat)
    (me : PartyId) : Bool :=
  sent.any fun env => env.sid = sid ∧ env.phase = phase ∧ env.round = round ∧ env.sender = me ∧
    env.addressee = none ∧ VssSession.samePayload env.payload (.complaints [])

theorem ownRound_of_contented {sent : List (Envelope (NodePayload Scalar Point))} {sid : Bytes} {phase : Phase}
    {round : Nat} {me : PartyId} (h : contented sent sid phase round me = true) :
    OwnRound sent me sid phase round (collect (trio.ids.map fun j => (j, .complaints []))) := by
  intro p hp
  obtain rfl := collect_trio (fun _ => NodePayload.complaints []) hp
  obtain ⟨env, henv, heq⟩ := List.any_eq_true.mp h
  obtain ⟨h₁, h₂, h₃, h₄, h₅, h₆⟩ := of_decide_eq_true heq
  have henv' : env = Envelope.broadcast sid phase round me (.complaints []) := by
    rw [← h₁, ← h₂, ← h₃, ← h₄]
    unfold Envelope.broadcast
    rw [← h₅, ← VssSession.eq_of_samePayload h₆]
  rwa [← henv']

theorem long_contented (h : PartyId) (hh : h ∈ ([1, 2] : List PartyId)) :
    contented ((longSession 5).sent h) (utf8 "/alpha") .triples VSS_ROUND_COMPLAIN h = true ∧
    contented ((longSession 5).sent h) (utf8 "/beta") .triples VSS_ROUND_COMPLAIN h = true ∧
    contented ((longSession 5).sent h) [] .triples TR_ROUND_COMPLAIN h = true := by
  have hall : (([1, 2] : List PartyId).all fun h =>
      contented ((longSession 5).sent h) (utf8 "/alpha") .triples VSS_ROUND_COMPLAIN h &&
      (contented ((longSession 5).sent h) (utf8 "/beta") .triples VSS_ROUND_COMPLAIN h &&
      contented ((longSession 5).sent h) [] .triples TR_ROUND_COMPLAIN h)) = true := by
    decide +kernel
  simpa only [Bool.and_eq_true] using List.all_eq_true.mp hall h hh

/-- Members 1 and 2 are honest. -/
def longRun : TripleRun Scalar Point where
  toTripleSession := longSession 5
  majority := trio_majority
  honest_sub := one_two_sub_trio
  alphas_accepted _ _ := rfl
  betas_accepted _ _ := rfl
  deals_accepted _ _ := rfl
  own h hh := by
    obtain ⟨ha, hb, hr⟩ := long_contented h hh
    exact ⟨ownRound_of_contented ha, ownRound_of_contented hb, ownRound_of_contented hr⟩
  proofs_true cb hcb i hi d hd _ := by
    have hsum : FeldmanCommitment.sum (trio.ids.map (revealedCom (longSession 5).betas)) = .ok ⟨[3, 3]⟩ := by
      decide +kernel
    obtain rfl : (⟨[3, 3]⟩ : FeldmanCommitment Point) = cb := Except.ok.inj (hsum.symm.trans hcb)
    have hdeal : d = longDeal 5 i :=
      NodePayload.tripleDeal.inj (collect_trio (fun j => NodePayload.tripleDeal (longDeal 5 j)) hd)
    have hall : (trio.ids.all fun j => (longDeal 5 j).x1 = reconProduct j • K256.generator Scalar ∧
        (longDeal 5 j).x2 = reconProduct j • (⟨[3, 3]⟩ : FeldmanCommitment Point).evalAt Scalar j) = true := by
      decide +kernel
    rw [hdeal]
    exact ⟨reconProduct i, of_decide_eq_true (List.all_eq_true.mp hall i hi)⟩

/-- The two honest members return, and open `γ` to something else than `α·β`. -/
theorem triple_sound_long : longRun.Delivers ∧
    (do let (one, pub) ← longRun.outcome 1
        let (two, _) ← longRun.outcome 2
        let product ← interpolateAtZero [1, 2] [one.c, two.c]
        return (product, pub) : Outcome (Scalar × TriplePublic Point)) =
      .ok (-1, ⟨⟨[3, 3]⟩, ⟨[3, 3]⟩, ⟨[9, 1, 5]⟩⟩) :=
  ⟨longRun.triple_sound, by decide +kernel⟩

end Trio

end OhmEcdsa
