import OhmEcdsa.Node.Reconstruct

/-!
# Robust triples among honest and corrupt members

The honest members run `triple_robust_run` over the same accepted broadcasts; what
they accept from one another is what was sent, and no one signs for them.

## Top theorem

    run.Settled ↔ run.Answered ∧ run.Interpolated      (reconstruction_settled_iff)
-/

set_option linter.unusedSectionVars false

namespace OhmEcdsa

open FeldmanCommitment Hoare Interpolation Polynomial

variable {F G K : Type} [Field F] [DecidableEq F] [AddCommGroup G] [Module F G] [DecidableEq G] [K256 F G]

/-! ## Lemmas: what a node sends -/

section AllSent

variable {P : Envelope (NodePayload F G) → Prop}

theorem complaintRound_allSent (me : PartyId) {sid : Bytes} (h : ∀ env, env.sid = sid → P env) (phase : Phase)
    (rounds : Nat × Nat) (ids complaints : List PartyId) (defenseFor : PartyId → F)
    (defenseVerifies : PartyId → PartyId → F → Outcome Bool) (complaintView defenseView : AcceptedSet F G) :
    Triple (Driver.AllSent P) (complaintRound me sid phase rounds ids complaints defenseFor defenseVerifies
      complaintView defenseView) (fun _ => True) (fun _ => True) := by
  intro d hd
  obtain ⟨sent, hrun, hsent⟩ := complaintRound_run me sid phase rounds ids complaints defenseFor defenseVerifies
    complaintView defenseView d
  rw [hrun]
  refine ⟨fun e he => ?_, by split <;> trivial⟩
  rcases List.mem_append.mp he with he | he
  · exact hd e he
  · apply h
    rcases hsent e he with rfl | ⟨-, -, rfl⟩ <;> rfl

/-- A dealing sends in its own session only. -/
theorem jointVssRun_allSent (me : PartyId) (t : Usize) {sid : Bytes} (h : ∀ env, env.sid = sid → P env) (tag : Bytes)
    (phase : Phase) (ids : List PartyId) (view : VssView F G) :
    Triple (Driver.AllSent P) (jointVssRun me t sid tag phase ids view) (fun _ => True) (fun _ => True) := by
  unfold jointVssRun
  refine (step_allSent _).bind fun committee _ => (draw_allSent _).bind ?_
  rintro ⟨inst, b1⟩ -
  refine (send_allSent (h _ rfl)).bind fun _ _ => (step_allSent _).bind ?_
  rintro ⟨b2, shares⟩ -
  refine (send_allSent (h _ rfl)).bind fun _ _ => (forM_allSent shares fun _ _ => h _ rfl).bind fun _ _ => ?_
  refine (step_allSent _).bind ?_
  rintro ⟨r2, mine, complaints⟩ -
  exact (complaintRound_allSent me h phase _ ids _ _ _ _ _).bind fun _ _ => step_allSent _

end AllSent

/-- An envelope of the deal round of dealer `me` with the polynomial `g`. -/
def DealsOut (me : PartyId) (sid : Bytes) (g : ShamirPoly F) (env : Envelope (NodePayload F G)) : Prop :=
  (∃ d : TripleDealMsg F G, d.com = fromPoly g ∧
    env = Envelope.broadcast sid .triples TR_ROUND_DEAL me (.tripleDeal d)) ∨
  ∃ i, env = Envelope.p2p sid .triples TR_ROUND_DEAL me i (.reshare (g.eval i))

section Deals

variable (me : PartyId) (sid : Bytes) (ids : List PartyId) (view : TripleView F G)

/-- After a run without envelopes of the session, one polynomial was committed to and re-shared. -/
def Deals (m : NodeM F G (KeyShare F G × KeyShare F G × TripleT2 F G)) : Prop :=
  ∀ s : Driver F G, (s.AllSent fun env => env.sid ≠ sid) → ∃ g : ShamirPoly F,
    ((m s).2.AllSent fun env => env.sid = sid → DealsOut me sid g env) ∧
    ∀ out, (m s).1 = .ok out → collectT2 ids g.eval view = .ok out.2.2

theorem Deals.after {α : Type} {m : NodeM F G α} {f : α → NodeM F G (KeyShare F G × KeyShare F G × TripleT2 F G)}
    (hm : Triple (Driver.AllSent fun env => env.sid ≠ sid) m (fun _ => True) (fun _ => True))
    (hf : ∀ a, Deals me sid ids view (f a)) : Deals me sid ids view (m >>= f) := by
  intro s hs
  have hsent := (hm s hs).1
  rw [bind_run]
  rcases hms : m s with ⟨e | a, s'⟩ <;> rw [hms] at hsent
  · exact ⟨⟨[]⟩, fun env henv heq => absurd heq (hsent env henv), nofun⟩
  · exact hf a s' hsent

theorem Deals.of_triple {m : NodeM F G (KeyShare F G × KeyShare F G × TripleT2 F G)} (g : ShamirPoly F)
    (hm : Triple (Driver.AllSent fun env => env.sid = sid → DealsOut me sid g env) m
      (fun out => collectT2 ids g.eval view = .ok out.2.2) (fun _ => True)) : Deals me sid ids view m := by
  intro s hs
  obtain ⟨hsent, hpost⟩ := hm s fun env henv heq => absurd heq (hs env henv)
  refine ⟨g, hsent, fun out hout => ?_⟩
  rw [hout] at hpost
  exact hpost

/-- **T1 and T2** deal so. -/
theorem tripleT1T2_deals (t : Usize) : Deals me sid ids view (tripleT1T2 me t sid ids view) := by
  have hsub : ∀ label : String, utf8 label ≠ [] → ∀ env : Envelope (NodePayload F G), env.sid = sid ++ utf8 label →
      env.sid ≠ sid := by
    intro label hlabel env henv heq
    rw [heq] at henv
    exact hlabel (List.append_right_eq_self.mp henv.symm)
  unfold tripleT1T2
  refine Deals.after me sid ids view (jointVssRun_allSent me t (hsub "/alpha" (by decide +kernel)) _ _ ids _) fun alpha => ?_
  refine Deals.after me sid ids view (jointVssRun_allSent me t (hsub "/beta" (by decide +kernel)) _ _ ids _) fun beta => ?_
  refine Deals.after me sid ids view (draw_allSent _) fun g => Deals.after me sid ids view (draw_allSent _) ?_
  rintro ⟨x1, x2, proof⟩
  refine Deals.of_triple me sid ids view g ?_
  refine (send_allSent fun _ => Or.inl ⟨_, rfl, rfl⟩).bind fun _ _ => ?_
  refine (forM_allSent ids fun i _ _ => Or.inr ⟨i, rfl⟩).bind fun _ _ => ?_
  refine (Triple.lift (P := fun t2 => collectT2 ids g.eval view = .ok t2) (fun t2 ht2 => ht2) fun _ _ => trivial).bind
    fun t2 ht2 => Triple.pure ht2

end Deals

/-- What T2 collects, from the accepted sets. -/
theorem collectT2_ok {ids : List PartyId} {sent : PartyId → F} {view : TripleView F G} {t2 : TripleT2 F G}
    (h : collectT2 ids sent view = .ok t2) :
    t2.Collected ids view ∧ t2.deals = dealsOf (acceptedOver ids view.deals) := by
  have hcomplete : Complete ids view.deals ∧ Complete ids (openEnvelopes view.reshares) := by
    by_contra hno
    unfold collectT2 at h
    rw [if_pos (by unfold Complete at hno; tauto)] at h
    cases h
  obtain ⟨hD, hR⟩ := hcomplete
  rcases collectT2_cases sent hD hR with ⟨f, -, ⟨detail, he⟩, -⟩ | ⟨t2', hok, hcol⟩
  · rw [he] at h
    cases h
  rw [hok] at h
  cases h
  refine ⟨hcol, Std.ExtTreeMap.ext_getElem? fun i => ?_⟩
  rw [dealsOf_getElem?, acceptedOver_getElem?]
  by_cases hi : i ∈ ids
  · obtain ⟨d, hp, hd⟩ := hcol.deal i hi
    rw [if_pos hi, hp, hd]
    rfl
  · rw [if_neg hi]
    unfold collectT2 at hok
    rw [if_neg (by simp only [ne_eq, not_or, not_not]; exact ⟨hD, hR⟩), parseSet_eq, parseSet_eq] at hok
    cases hm : firstMalformed asTripleDeal (acceptedOver ids view.deals) with
    | some f => rw [hm] at hok; cases hok
    | none =>
      cases hm' : firstMalformed asReshare (acceptedOver ids (openEnvelopes view.reshares)) with
      | some f => rw [hm, hm'] at hok; cases hok
      | none =>
        rw [hm, hm'] at hok
        cases hok
        refine collect_getElem?_none _ fun hmem => hi ?_
        obtain ⟨e, he, rfl⟩ := List.mem_map.mp hmem
        obtain ⟨e', he', heq⟩ := List.mem_filterMap.mp he
        obtain ⟨d, -, rfl⟩ := Option.map_eq_some_iff.mp heq
        exact (mem_acceptedOver.mp he').1

theorem mem_of_dealsOf {ids : List PartyId} {set : AcceptedSet F G} {d : PartyId} {deal : TripleDealMsg F G}
    (h : (dealsOf (acceptedOver ids set))[d]? = some deal) : d ∈ ids := by
  rw [dealsOf_getElem?, acceptedOver_getElem?] at h
  by_contra hd
  rw [if_neg hd] at h
  cases h

/-- How `triple_robust_run` ends after its proofs, over complete requests. -/
def reconEnd (w : Wire F G K) (registry : PartyMap K) (me : PartyId) (t : Usize) (sid : Bytes) (ids : List PartyId)
    (alpha beta : KeyShare F G) (t2 : TripleT2 F G) (view : TripleView F G) :
    Outcome (TripleShare F × TriplePublic G × List PartyId) := do
  let reconstruct ← verdict w registry sid t2.deals (acceptedOver ids view.requests)
  let blamed := reconstruct.sort (· ≤ ·)
  let mine ← (if blamed = [] then .ok t2.mine else supplyEnd me t ids blamed t2 view.supplies : Outcome (PartyMap F))
  let (share, pub) ← tripleCombine me ids alpha beta t2.deals mine
  return (share, pub, blamed)

section AfterProofs

variable (w : Wire F G K) (registry : PartyMap K) (me : PartyId) (t : Usize) (sid : Bytes) {ids : List PartyId}
  (alpha beta : KeyShare F G) {t2 : TripleT2 F G} {view : TripleView F G}

variable (ids t2 view) in
/-- A node supplies its share of every reconstructed dealer. -/
def SuppliesAll (env : Envelope (NodePayload F G)) : Prop :=
  ∃ reconstruct list, verdict w registry sid t2.deals (acceptedOver ids view.requests) = .ok reconstruct ∧
    (∀ d ∈ reconstruct, ∃ e ∈ list, e.1 = d) ∧
    env = Envelope.broadcast sid .triples TR_ROUND_RECON_SUPPLY me (.reshareSupply list)

theorem supplyAndCombine_run (hcol : t2.Collected ids view) (hdeals : t2.deals = dealsOf (acceptedOver ids view.deals))
    (s : Driver F G) :
    ∃ extra, (∀ env ∈ extra, SuppliesAll w registry me sid ids t2 view env) ∧
      (do let reconstruct ← lift (verdict w registry sid t2.deals (acceptedOver ids view.requests))
          let blamed := reconstruct.sort (· ≤ ·)
          let mine ← (if blamed = [] then pure t2.mine else supplyRound me t sid ids blamed t2 view.supplies :
            NodeM F G (PartyMap F))
          let (share, pub) ← lift (tripleCombine me ids alpha beta t2.deals mine)
          return (share, pub, blamed) : NodeM F G (TripleShare F × TriplePublic G × List PartyId)) s =
        (reconEnd w registry me t sid ids alpha beta t2 view, { s with sent := s.sent ++ extra }) := by
  rw [lift_bind_run]
  cases hv : verdict w registry sid t2.deals (acceptedOver ids view.requests) with
  | error e => exact ⟨[], nofun, by unfold reconEnd; rw [hv, List.append_nil]; rfl⟩
  | ok reconstruct =>
    have hend : reconEnd w registry me t sid ids alpha beta t2 view = (do
        let mine ← (if reconstruct.sort (· ≤ ·) = [] then .ok t2.mine
          else supplyEnd me t ids (reconstruct.sort (· ≤ ·)) t2 view.supplies : Outcome (PartyMap F))
        let (share, pub) ← tripleCombine me ids alpha beta t2.deals mine
        return (share, pub, reconstruct.sort (· ≤ ·))) := by
      unfold reconEnd
      rw [hv]
      rfl
    rw [hend]
    have hlast : ∀ mine (s : Driver F G), (do
        let (share, pub) ← lift (tripleCombine me ids alpha beta t2.deals mine)
        return (share, pub, reconstruct.sort (· ≤ ·)) :
          NodeM F G (TripleShare F × TriplePublic G × List PartyId)) s =
        ((do
          let (share, pub) ← tripleCombine me ids alpha beta t2.deals mine
          return (share, pub, reconstruct.sort (· ≤ ·)) :
            Outcome (TripleShare F × TriplePublic G × List PartyId)), s) := by
      intro mine s
      rw [lift_bind_run]
      cases tripleCombine me ids alpha beta t2.deals mine <;> rfl
    simp only
    by_cases hempty : reconstruct.sort (· ≤ ·) = []
    · refine ⟨[], nofun, ?_⟩
      rw [if_pos hempty, if_pos hempty, List.append_nil]
      exact hlast t2.mine s
    · have hmine : ∀ d ∈ reconstruct.sort (· ≤ ·), ∃ x, t2.mine[d]? = some x := by
        intro d hd
        obtain ⟨e, -, list, -, r, -, rfl, hgen⟩ := genuine_of_verdict w registry sid t2.deals hv
          ((Finset.mem_sort _).mp hd)
        obtain ⟨-, deal, -, hdeal, -⟩ := of_genuine w registry sid t2.deals hgen
        rw [hdeals] at hdeal
        obtain ⟨env, x, -, -, hx, -⟩ := hcol.reshare r.1 (mem_of_dealsOf hdeal)
        exact ⟨x, hx⟩
      obtain ⟨list, hlist, hrun⟩ := supplyRound_run me t sid ids (reconstruct.sort (· ≤ ·)) t2 view.supplies hmine s
      refine ⟨[_], fun env henv => ⟨reconstruct, list, hv, fun d hd => hlist d ((Finset.mem_sort _).mpr hd),
        List.mem_singleton.mp henv⟩, ?_⟩
      rw [if_neg hempty, if_neg hempty, bind_run, hrun]
      cases supplyEnd me t ids (reconstruct.sort (· ≤ ·)) t2 view.supplies with
      | error e => rfl
      | ok mine => exact hlast mine _

/-- **A node's requests** carry the re-shares that failed there; the rest is the accepted sets'. -/
theorem afterProofs_run (hcol : t2.Collected ids view) (hdeals : t2.deals = dealsOf (acceptedOver ids view.deals))
    (hreq : Complete ids view.requests) (s : Driver F G) :
    ∃ requests extra, (∀ r ∈ requests, r.1 ∈ ids ∧ t2.verifies me r.1 = false ∧ t2.reshEnvs[r.1]? = some r.2) ∧
      (∀ env ∈ extra, SuppliesAll w registry me sid ids t2 view env) ∧
      afterProofs w registry me t sid ids alpha beta t2 view s = (reconEnd w registry me t sid ids alpha beta t2 view,
        { s with sent := s.sent ++ Envelope.broadcast sid .triples TR_ROUND_RECON_REQ me (.reshareRequests requests) ::
          extra }) := by
  have henv : ∀ i ∈ ids, ∃ env, t2.reshEnvs[i]? = some env := fun i hi => by
    obtain ⟨env, s, -, -, -, h⟩ := hcol.reshare i hi
    exact ⟨env, h⟩
  obtain ⟨requests, hrequests⟩ := mapM_exists_ok (fun i => do
      let env ← index t2.reshEnvs i
      return (i, env) : PartyId → Outcome (PartyId × SignedEnvelope (NodePayload F G)))
      (ids.filter fun i => !t2.verifies me i) fun i hi => by
    obtain ⟨env, h⟩ := henv i (List.mem_filter.mp hi).1
    exact ⟨(i, env), by rw [index_some h]; rfl⟩
  obtain ⟨extra, hextra, hrun⟩ := supplyAndCombine_run w registry me t sid alpha beta hcol hdeals
    { s with sent := s.sent ++ [Envelope.broadcast sid .triples TR_ROUND_RECON_REQ me (.reshareRequests requests)] }
  refine ⟨requests, extra, fun r hr => ?_, hextra, ?_⟩
  · obtain ⟨i, hi, heq⟩ := forall₂_exists_left (forall₂_of_mapM_ok _ _ hrequests) hr
    obtain ⟨hmem, hbad⟩ := List.mem_filter.mp hi
    obtain ⟨env, h⟩ := henv i hmem
    rw [index_some h] at heq
    obtain rfl := Except.ok.inj heq
    exact ⟨hmem, by simpa using hbad, h⟩
  · unfold afterProofs
    rw [lift_bind_run, badReshares_eq hcol]
    simp only
    rw [lift_bind_run, hrequests]
    simp only
    rw [send_bind_run]
    have hsize : ¬ (acceptedOver ids view.requests).size ≠ ids.length := not_not.mpr hreq
    rw [if_neg hsize]
    refine hrun.trans ?_
    rw [List.append_assoc]
    rfl

end AfterProofs

/-! ## Runs -/

/-- One session: who is honest, and what is accepted in its rounds. -/
structure ReconSession (F G K : Type) where
  w : Wire F G K
  registry : PartyMap K
  c : Committee
  sid : Bytes
  honest : List PartyId
  rng : PartyId → Rngs F
  alpha : PartyId → VssView F G
  beta : PartyId → VssView F G
  deals : AcceptedSet F G
  reshares : PartyId → PartyMap (SignedEnvelope (NodePayload F G))
  requests : AcceptedSet F G
  supplies : AcceptedSet F G

namespace ReconSession

variable (run : ReconSession F G K)

/-- What member `h` accepts: the common broadcasts and its own P2P re-shares. -/
def view (h : PartyId) : TripleView F G where
  alpha := run.alpha h
  beta := run.beta h
  deals := run.deals
  reshares := run.reshares h
  complaints := ∅
  defenses := ∅
  requests := run.requests
  supplies := run.supplies

def node (h : PartyId) : Except Fault (TripleShare F × TriplePublic G × List PartyId) × Driver F G :=
  tripleRobustRun run.w run.registry h run.c.t run.sid run.c.ids (run.view h) ⟨run.rng h, []⟩

def outcome (h : PartyId) : Outcome (TripleShare F × TriplePublic G × List PartyId) := (run.node h).1

def sent (h : PartyId) : List (Envelope (NodePayload F G)) := (run.node h).2.sent

/-- A broadcast accepted from `h` in `round` is one that `h` sent. -/
def Authentic (h : PartyId) (round : Nat) (set : AcceptedSet F G) : Prop :=
  ∀ p, set[h]? = some p → Envelope.broadcast run.sid .triples round h p ∈ run.sent h

/-- The envelope is dealer `d`'s re-share of this session. -/
structure IsReshare (d : PartyId) (addressee : Option PartyId) (env : SignedEnvelope (NodePayload F G)) : Prop where
  signed : signedReshare run.w run.registry d env = true
  sender : env.envelope.sender = d
  addressee : env.envelope.addressee = addressee
  sid : env.envelope.sid = run.sid
  phase : env.envelope.phase = .triples
  round : env.envelope.round = TR_ROUND_DEAL

/-- The accepted deals. -/
def dealt : PartyMap (TripleDealMsg F G) := dealsOf (acceptedOver run.c.ids run.deals)

/-- The reconstruction verdict, alike at every node. -/
def verdict : Outcome (Finset PartyId) :=
  OhmEcdsa.verdict run.w run.registry run.sid run.dealt (acceptedOver run.c.ids run.requests)

/-- T1 and T2 of member `h`. -/
def begun (h : PartyId) : Outcome (KeyShare F G × KeyShare F G × TripleT2 F G) :=
  (tripleT1T2 h run.c.t run.sid run.c.ids (run.view h) ⟨run.rng h, []⟩).1

/-- The shares member `h` continues with. -/
def continued (h : PartyId) : Outcome (PartyMap F) := do
  let (_, _, t2) ← run.begun h
  let reconstruct ← run.verdict
  let blamed := reconstruct.sort (· ≤ ·)
  if blamed = [] then return t2.mine else supplyEnd h run.c.t run.c.ids blamed t2 run.supplies

end ReconSession

/-- A session of at most `t - 1` corrupt members over authenticated channels. -/
structure ReconRun (F G K : Type) [Field F] [DecidableEq F] [AddCommGroup G] [Module F G] [DecidableEq G]
    [K256 F G] extends ReconSession F G K where
  majority : 2 * c.t.val ≤ c.ids.length + 1
  honest_sub : honest ⊆ c.ids
  honest_nodup : honest.Nodup
  few_corrupt : c.ids.length < honest.length + c.t.val
  deals_sent : ∀ h ∈ honest, toReconSession.Authentic h TR_ROUND_DEAL deals
  requests_sent : ∀ h ∈ honest, toReconSession.Authentic h TR_ROUND_RECON_REQ requests
  supplies_sent : ∀ h ∈ honest, toReconSession.Authentic h TR_ROUND_RECON_SUPPLY supplies
  reshares_accepted : ∀ h ∈ honest, ∀ d env, (reshares h)[d]? = some env → toReconSession.IsReshare d (some h) env
  unforgeable : ∀ h ∈ honest, ∀ addressee env, toReconSession.IsReshare h addressee env →
    env.envelope ∈ toReconSession.sent h
  requests_complete : Complete c.ids requests

namespace ReconRun

variable (run : ReconRun F G K)

/-! ## Specification -/

/-- Member `v`'s broadcast is no request list, or one of its requests is false. -/
def FalseRequest (v : PartyId) : Prop :=
  ∃ p, run.requests[v]? = some p ∧ refused run.w run.registry run.sid run.dealt (v, p) = true

/-- Every request is genuine, and the dealers they name are reconstructed. -/
structure Genuine (reconstruct : Finset PartyId) : Prop where
  requests : ∀ v ∈ run.c.ids, ∃ list, run.requests[v]? = some (.reshareRequests list) ∧
    ∀ r ∈ list, genuine run.w run.registry run.sid run.dealt v r = true ∧ r.1 ∈ reconstruct
  named : ∀ d ∈ reconstruct, d ∈ run.c.ids ∧ d ∉ run.honest ∧ ∃ v ∈ run.c.ids, ∃ list,
    run.requests[v]? = some (.reshareRequests list) ∧ ∃ r ∈ list, r.1 = d

/-- Member `h` fails closed, blames a corrupt member, or continues with the committed
values of the reconstructed dealers. -/
inductive Ends (reconstruct : Finset PartyId) (h : PartyId) : Prop
  | incomplete : run.continued h = .error incomplete → run.outcome h = .error incomplete → Ends reconstruct h
  | blames (p : PartyId) (detail : String) : p ∈ run.c.ids → p ∉ run.honest →
      run.continued h = .error (abort .triples [p] detail) →
      run.outcome h = .error (abort .triples [p] detail) → Ends reconstruct h
  | continues (mine : PartyMap F) (share : TripleShare F) (pub : TriplePublic G) : run.continued h = .ok mine →
      run.outcome h = .ok (share, pub, reconstruct.sort (· ≤ ·)) →
      (∀ d ∈ reconstruct, ∃ deal, run.dealt[d]? = some deal ∧ mine[d]? = some ((deal.com.poly F).eval (scalarFrom h))) →
      Ends reconstruct h

/-- **Every request is settled**: a false one blames its corrupt requester at every
honest node, or all are genuine and the honest nodes go on with the committed values. -/
def Settled : Prop :=
  (∃ v ∈ run.c.ids, v ∉ run.honest ∧ run.FalseRequest v ∧ ∃ detail,
    run.verdict = .error (abort .triples [v] detail) ∧
      ∀ h ∈ run.honest, run.outcome h = .error (abort .triples [v] detail)) ∨
  ∃ reconstruct, run.verdict = .ok reconstruct ∧ run.Genuine reconstruct ∧ ∀ h ∈ run.honest, run.Ends reconstruct h

/-- The first false request, if there is one, names a dealer the node has the key and deal of. -/
def Answered : Prop :=
  ∀ e, (acceptedOver run.c.ids run.requests).toList.find? (refused run.w run.registry run.sid run.dealt) = some e →
    answered run.w run.registry run.sid run.dealt e = true

/-- The supplied shares, by dealer and sender. -/
def supplyMap : PartyMap (PartyMap F) := supplied (supplyLists run.c.ids run.supplies)

/-- No request is false, and every named dealer has `t` valid supplies. -/
structure Supplied : Prop where
  genuine : (acceptedOver run.c.ids run.requests).toList.find? (refused run.w run.registry run.sid run.dealt) = none
  complete : Complete run.c.ids run.supplies
  wellFormed : firstMalformed asReshareSupply (acceptedOver run.c.ids run.supplies) = none
  enough : ∀ d ∈ named (acceptedOver run.c.ids run.requests), run.c.t.val ≤ (validSupplies run.dealt run.supplyMap d).length

/-- Where the named dealers' shares are reconstructed, an honest member supplied the valid
share itself or is a root of the rest of the committed polynomial. -/
def Interpolated : Prop :=
  run.Supplied → ∀ d ∈ named (acceptedOver run.c.ids run.requests), ∀ deal, run.dealt[d]? = some deal →
    ∀ h ∈ run.honest, scalarFrom h ∈ suppliers run.c.t run.dealt run.supplyMap d ∨
      (quotient (suppliers run.c.t run.dealt run.supplyMap d) (deal.com.poly F)).eval (scalarFrom h) = 0

/-! ## Lemmas: honest members -/

/-- What an honest member did and sent. -/
structure HonestMember (h : PartyId) (alpha beta : KeyShare F G) (t2 : TripleT2 F G) (g : ShamirPoly F) : Prop where
  begun : run.begun h = .ok (alpha, beta, t2)
  collected : t2.Collected run.c.ids (run.view h)
  deals_eq : t2.deals = run.dealt
  outcome : run.outcome h = reconEnd run.w run.registry h run.c.t run.sid run.c.ids alpha beta t2 (run.view h)
  deal : ∀ p, run.deals[h]? = some p → ∃ d : TripleDealMsg F G, p = .tripleDeal d ∧ d.com = fromPoly g
  reshare : ∀ v env s, run.IsReshare h (some v) env → env.envelope.payload = .reshare s → s = g.eval v
  request : ∀ p, run.requests[h]? = some p → ∃ requests, p = .reshareRequests requests ∧
    ∀ r ∈ requests, r.1 ∈ run.c.ids ∧ t2.verifies h r.1 = false ∧ t2.reshEnvs[r.1]? = some r.2
  supply : ∀ p, run.supplies[h]? = some p → ∃ reconstruct list, run.verdict = .ok reconstruct ∧
    p = .reshareSupply list ∧ ∀ d ∈ reconstruct, ∃ e ∈ list, e.1 = d

theorem round_of_dealsOut {me : PartyId} {sid : Bytes} {g : ShamirPoly F} {env : Envelope (NodePayload F G)}
    (h : DealsOut me sid g env) : env.round = TR_ROUND_DEAL := by
  rcases h with ⟨d, -, rfl⟩ | ⟨i, rfl⟩ <;> rfl

theorem honest_member {h : PartyId} (hh : h ∈ run.honest) : ∃ alpha beta t2 g, run.HonestMember h alpha beta t2 g := by
  obtain ⟨p, hp⟩ := run.requests_complete.getElem? (run.honest_sub hh)
  have hreq := run.requests_sent h hh p hp
  obtain ⟨g, hdeals, hcollect⟩ := tripleT1T2_deals h run.sid run.c.ids (run.view h) run.c.t ⟨run.rng h, []⟩ nofun
  -- its request broadcast shows that the member got past T3a
  have hpast : ∀ (e : Fault) (s : Driver F G), (s.AllSent fun env => env.sid = run.sid → DealsOut h run.sid g env) →
      run.node h ≠ (.error e, s) := by
    intro e s hs hnode
    unfold ReconSession.sent at hreq
    rw [hnode] at hreq
    have hround := round_of_dealsOut (hs _ hreq rfl)
    cases hround
  have hnode : run.node h = tripleRobustRun run.w run.registry h run.c.t run.sid run.c.ids (run.view h)
    ⟨run.rng h, []⟩ := rfl
  rw [tripleRobustRun_eq, bind_run] at hnode
  rcases hbegun : tripleT1T2 h run.c.t run.sid run.c.ids (run.view h) ⟨run.rng h, []⟩ with ⟨e | ⟨alpha, beta, t2⟩, s₁⟩ <;>
    rw [hbegun] at hnode hdeals hcollect
  · exact absurd hnode (hpast e s₁ hdeals)
  simp only at hnode
  rw [lift_bind_run] at hnode
  rcases hproofs : tripleCheckProofs run.sid run.c.ids t2.deals alpha.com beta.com with e | _ <;> rw [hproofs] at hnode
  · exact absurd hnode (hpast e s₁ hdeals)
  obtain ⟨hcol, hdealt⟩ := collectT2_ok (hcollect _ rfl)
  obtain ⟨requests, extra, hrequests, hextra, hrun⟩ := afterProofs_run run.w run.registry h run.c.t run.sid alpha beta
    hcol hdealt run.requests_complete s₁
  simp only at hnode
  rw [hrun] at hnode
  have hmem : ∀ env ∈ run.sent h, env.sid = run.sid → DealsOut h run.sid g env ∨
      env = Envelope.broadcast run.sid .triples TR_ROUND_RECON_REQ h (.reshareRequests requests) ∨
      SuppliesAll run.w run.registry h run.sid run.c.ids t2 (run.view h) env := by
    intro env henv hsid
    unfold ReconSession.sent at henv
    rw [hnode] at henv
    rcases List.mem_append.mp henv with henv | henv
    · exact Or.inl (hdeals env henv hsid)
    · rcases List.mem_cons.mp henv with rfl | henv
      · exact Or.inr (Or.inl rfl)
      · exact Or.inr (Or.inr (hextra env henv))
  refine ⟨alpha, beta, t2, g, ⟨congrArg Prod.fst hbegun, hcol, hdealt, congrArg Prod.fst hnode, ?_, ?_, ?_, ?_⟩⟩
  · intro p hp
    rcases hmem _ (run.deals_sent h hh p hp) rfl with (⟨d, hcom, he⟩ | ⟨i, he⟩) | he | ⟨_, _, -, -, he⟩
    · exact ⟨d, (Envelope.broadcast_eq.mp he).2, hcom⟩
    · exact absurd he Envelope.broadcast_ne_p2p
    · cases (Envelope.broadcast_eq.mp he).1
    · cases (Envelope.broadcast_eq.mp he).1
  · intro v env s hclaim hpayload
    have haddr := hclaim.addressee
    have hround := hclaim.round
    rcases hmem _ (run.unforgeable h hh _ env hclaim) hclaim.sid with (⟨d, hcom, he⟩ | ⟨i, he⟩) | he | ⟨_, _, -, -, he⟩ <;>
      rw [he] at haddr hround hpayload
    · cases haddr
    · cases haddr
      cases hpayload
      rfl
    · cases hround
    · cases hround
  · intro p hp
    rcases hmem _ (run.requests_sent h hh p hp) rfl with hdeal | he | ⟨_, _, -, -, he⟩
    · cases round_of_dealsOut hdeal
    · exact ⟨requests, (Envelope.broadcast_eq.mp he).2, hrequests⟩
    · cases (Envelope.broadcast_eq.mp he).1
  · intro p hp
    rcases hmem _ (run.supplies_sent h hh p hp) rfl with hdeal | he | ⟨reconstruct, list, hv, hlist, he⟩
    · cases round_of_dealsOut hdeal
    · cases (Envelope.broadcast_eq.mp he).1
    · refine ⟨reconstruct, list, ?_, (Envelope.broadcast_eq.mp he).2, hlist⟩
      rw [hdealt] at hv
      exact hv

theorem claimsReshare_some {sid : Bytes} {v d : PartyId} {env : Envelope (NodePayload F G)} {s : F} :
    claimsReshare sid v d env = some s ↔ (env.sender = d ∧ env.addressee = some v ∧ env.sid = sid ∧
      env.phase = .triples ∧ env.round = TR_ROUND_DEAL) ∧ env.payload = .reshare s := by
  unfold claimsReshare
  rw [Option.ite_none_right_eq_some, and_congr_right_iff]
  intro _
  cases env.payload <;> simp [asReshare]

/-- **An honest member's requests are genuine.** -/
theorem honest_not_refused {h : PartyId} (hh : h ∈ run.honest) {p : NodePayload F G} (hp : run.requests[h]? = some p) :
    refused run.w run.registry run.sid run.dealt (h, p) = false := by
  obtain ⟨alpha, beta, t2, g, hm⟩ := run.honest_member hh
  obtain ⟨requests, rfl, hrequests⟩ := hm.request p hp
  show (requests.any fun r => !genuine run.w run.registry run.sid run.dealt h r) = false
  rw [List.any_eq_false]
  intro r hr
  obtain ⟨hmem, hbad, henv⟩ := hrequests r hr
  obtain ⟨env, s, hview, hpayload, hmine, henv'⟩ := hm.collected.reshare r.1 hmem
  obtain rfl : r.2 = env := Option.some.inj (henv.symm.trans henv')
  have hclaim := run.reshares_accepted h hh r.1 r.2 hview
  obtain ⟨d, -, hd⟩ := hm.collected.deal r.1 hmem
  unfold TripleT2.verifies at hbad
  rw [hd, hmine] at hbad
  unfold genuine
  rw [claimsReshare_some.mpr ⟨⟨hclaim.sender, hclaim.addressee, hclaim.sid, hclaim.phase, hclaim.round⟩, hpayload⟩,
    ← hm.deals_eq, hd]
  simp only [hclaim.signed, hbad, Bool.not_false, Bool.and_self, Bool.not_true, Bool.false_eq_true, not_false_eq_true]

/-- **No genuine request names an honest dealer.** -/
theorem genuine_corrupt {v : PartyId} {r : PartyId × SignedEnvelope (NodePayload F G)}
    (hgen : genuine run.w run.registry run.sid run.dealt v r = true) : r.1 ∈ run.c.ids ∧ r.1 ∉ run.honest := by
  obtain ⟨s, deal, hclaim, hdeal, hsigned, hbad⟩ := of_genuine run.w run.registry run.sid run.dealt hgen
  have hmem := mem_of_dealsOf hdeal
  refine ⟨hmem, fun hh => ?_⟩
  obtain ⟨alpha, beta, t2, g, hm⟩ := run.honest_member hh
  obtain ⟨⟨hsender, haddressee, hsid, hphase, hround⟩, hpayload⟩ := claimsReshare_some.mp hclaim
  have hs : s = g.eval v := hm.reshare v r.2 s ⟨hsigned, hsender, haddressee, hsid, hphase, hround⟩ hpayload
  obtain ⟨d, hp, hd⟩ := hm.collected.deal r.1 hmem
  rw [← hm.deals_eq, hd] at hdeal
  obtain rfl := Option.some.inj hdeal
  obtain ⟨d', hd', hcom⟩ := hm.deal _ hp
  cases hd'
  have hgood : d.com.verifyShare v s = true := by
    rw [verifyShare_iff, hcom, poly_fromPoly, hs, ShamirPoly.eval_eq]
  rw [hgood] at hbad
  cases hbad

theorem exists_honest : ∃ h, h ∈ run.honest := by
  have h₁ := run.majority
  have h₂ := run.few_corrupt
  have h₃ := run.c.t_pos
  exact List.exists_mem_of_length_pos (by omega)

/-- Where the supply lists are well formed, every named dealer is supplied. -/
theorem supplied_all {reconstruct : Finset PartyId} (hv : run.verdict = .ok reconstruct)
    (hS : Complete run.c.ids run.supplies)
    {d : PartyId} (hd : d ∈ reconstruct) : d ∈ run.supplyMap := by
  obtain ⟨h, hh⟩ := run.exists_honest
  obtain ⟨alpha, beta, t2, g, hm⟩ := run.honest_member hh
  obtain ⟨p, hp⟩ := hS.getElem? (run.honest_sub hh)
  obtain ⟨reconstruct', list, hv', rfl, hlist⟩ := hm.supply p hp
  rw [hv] at hv'
  cases hv'
  obtain ⟨e, he, hde⟩ := hlist d hd
  refine mem_supplied.mpr ⟨(h, list), List.mem_filterMap.mpr ⟨(h, .reshareSupply list), ?_, rfl⟩, e, he, hde⟩
  exact mem_acceptedOver.mpr ⟨run.honest_sub hh, hp⟩

/-- A member's run by the verdict. -/
theorem outcome_error {h : PartyId} (hh : h ∈ run.honest) {e : Fault} (hv : run.verdict = .error e) :
    run.outcome h = .error e := by
  obtain ⟨alpha, beta, t2, g, hm⟩ := run.honest_member hh
  rw [hm.outcome]
  unfold reconEnd
  rw [hm.deals_eq]
  unfold ReconSession.verdict at hv
  show (do let reconstruct ← OhmEcdsa.verdict run.w run.registry run.sid run.dealt (acceptedOver run.c.ids run.requests); _) = _
  rw [hv]
  rfl

theorem outcome_ok {h : PartyId} (hh : h ∈ run.honest) {reconstruct : Finset PartyId}
    (hv : run.verdict = .ok reconstruct) : ∃ alpha beta t2, t2.Collected run.c.ids (run.view h) ∧ t2.deals = run.dealt ∧
      run.continued h = (if reconstruct.sort (· ≤ ·) = [] then .ok t2.mine
        else supplyEnd h run.c.t run.c.ids (reconstruct.sort (· ≤ ·)) t2 run.supplies) ∧
      run.outcome h = (do
        let mine ← run.continued h
        let (share, pub) ← tripleCombine h run.c.ids alpha beta t2.deals mine
        return (share, pub, reconstruct.sort (· ≤ ·))) := by
  obtain ⟨alpha, beta, t2, g, hm⟩ := run.honest_member hh
  have hcont : run.continued h = (if reconstruct.sort (· ≤ ·) = [] then .ok t2.mine
      else supplyEnd h run.c.t run.c.ids (reconstruct.sort (· ≤ ·)) t2 run.supplies) := by
    unfold ReconSession.continued
    rw [hm.begun, hv]
    rfl
  refine ⟨alpha, beta, t2, hm.collected, hm.deals_eq, hcont, ?_⟩
  rw [hm.outcome, hcont]
  unfold reconEnd
  unfold ReconSession.verdict at hv
  rw [← hm.deals_eq] at hv
  show (do let reconstruct ← OhmEcdsa.verdict run.w run.registry run.sid t2.deals (acceptedOver run.c.ids run.requests); _) = _
  rw [hv]
  rfl

/-- **One member's end**: it continues rightly exactly when its interpolations are right. -/
theorem ends_iff {h : PartyId} (hh : h ∈ run.honest)
    (hfind : (acceptedOver run.c.ids run.requests).toList.find? (refused run.w run.registry run.sid run.dealt) = none)
    (hv : run.verdict = .ok (named (acceptedOver run.c.ids run.requests))) :
    run.Ends (named (acceptedOver run.c.ids run.requests)) h ↔ (run.Supplied →
      ∀ d ∈ named (acceptedOver run.c.ids run.requests), ∀ deal, run.dealt[d]? = some deal →
        scalarFrom h ∈ suppliers run.c.t run.dealt run.supplyMap d ∨
          (quotient (suppliers run.c.t run.dealt run.supplyMap d) (deal.com.poly F)).eval (scalarFrom h) = 0) := by
  obtain ⟨alpha, beta, t2, hcol, hdeals, hcont, hout⟩ := run.outcome_ok hh hv
  generalize hR : named (acceptedOver run.c.ids run.requests) = reconstruct at *
  have hdealt : ∀ d ∈ reconstruct.sort (· ≤ ·), d ∈ run.c.ids ∧ d ∉ run.honest ∧ ∃ deal, t2.deals[d]? = some deal := by
    intro d hd
    obtain ⟨e, -, list, -, r, -, rfl, hgen⟩ := genuine_of_verdict run.w run.registry run.sid run.dealt hv
      ((Finset.mem_sort _).mp hd)
    obtain ⟨hmem, hcorrupt⟩ := run.genuine_corrupt hgen
    exact ⟨hmem, hcorrupt, (hcol.deal r.1 hmem).imp fun _ h => h.2⟩
  have hdeal : ∀ i ∈ run.c.ids, ∃ d, t2.deals[i]? = some d := fun i hi => (hcol.deal i hi).imp fun _ h => h.2
  by_cases hempty : reconstruct.sort (· ≤ ·) = []
  · have hnone : ∀ d, d ∉ reconstruct := by
      intro d hd
      have := (Finset.mem_sort (· ≤ ·)).mpr hd
      rw [hempty] at this
      cases this
    obtain ⟨⟨share, pub⟩, hcombine⟩ := tripleCombine_ok run.c h alpha beta hdeal fun i hi => hcol.mine hi
    rw [if_pos hempty] at hcont
    refine iff_of_true (.continues t2.mine share pub hcont ?_ fun d hd => absurd hd (hnone d)) fun _ d hd =>
      absurd hd (hnone d)
    rw [hout, hcont]
    show (do let out ← tripleCombine h run.c.ids alpha beta t2.deals t2.mine; _) = _
    rw [hcombine]
    rfl
  rw [if_neg hempty] at hcont
  have hfails : ∀ e, run.continued h = .error e → run.outcome h = .error e := fun e he => by rw [hout, he]; rfl
  rcases supplyEnd_cases h run.c.t run.supplies (fun d hd => (hdealt d hd).2.2) (fun hS _ d hd =>
    run.supplied_all hv hS ((Finset.mem_sort _).mp hd)) with
    ⟨hS, he⟩ | ⟨hS, ⟨f, hm, detail, he⟩ | ⟨hm, ⟨d, hd, hshort, detail, he⟩ | ⟨henough, mine, hok, hmine⟩⟩⟩
  · refine iff_of_true (.incomplete (hcont.trans he) (hfails _ (hcont.trans he))) fun hsup => absurd hsup.complete hS
  · obtain ⟨hf, p, hp, hnone⟩ := firstMalformed_some hm
    have hcorrupt : f ∉ run.honest := by
      intro hfh
      obtain ⟨alpha, beta, t2, g, hm⟩ := run.honest_member hfh
      obtain ⟨_, list, -, rfl, -⟩ := hm.supply p hp
      cases hnone
    refine iff_of_true (.blames f detail hf hcorrupt (hcont.trans he) (hfails _ (hcont.trans he))) fun hsup => ?_
    rw [hsup.wellFormed] at hm
    cases hm
  · obtain ⟨hmem, hcorrupt, -⟩ := hdealt d hd
    refine iff_of_true (.blames d detail hmem hcorrupt (hcont.trans he) (hfails _ (hcont.trans he))) fun hsup => ?_
    have := hsup.enough d (by rw [hR]; exact (Finset.mem_sort _).mp hd)
    rw [hdeals] at hshort
    exact absurd hshort (Nat.not_lt.mpr this)
  · have hsup : run.Supplied := ⟨hfind, hS, hm, fun d hd => by
      rw [hR] at hd
      have := henough d ((Finset.mem_sort _).mpr hd)
      rw [hdeals] at this
      exact this⟩
    have hright : ∀ d ∈ reconstruct, ∀ deal, run.dealt[d]? = some deal →
        (mine[d]? = some ((deal.com.poly F).eval (scalarFrom h)) ↔
          scalarFrom h ∈ suppliers run.c.t run.dealt run.supplyMap d ∨
          (quotient (suppliers run.c.t run.dealt run.supplyMap d) (deal.com.poly F)).eval (scalarFrom h) = 0) := by
      intro d hd deal hdeal
      rw [hmine d, if_pos ((Finset.mem_sort _).mpr hd), Option.some.injEq, hdeals]
      unfold reconstructed
      rw [hdeal]
      exact eval_remainder_iff _ _ _
    constructor
    · intro hends _ d hd deal hdeal
      rcases hends with ⟨he, -⟩ | ⟨p, detail, -, -, he, -⟩ | ⟨mine', share, pub, hok', -, hvalues⟩
      · rw [hcont, hok] at he; cases he
      · rw [hcont, hok] at he; cases he
      · rw [hcont, hok] at hok'
        cases hok'
        obtain ⟨deal', hdeal', hvalue⟩ := hvalues d hd
        rw [hdeal] at hdeal'
        cases hdeal'
        exact (hright d hd deal hdeal).mp hvalue
    · intro hall
      obtain ⟨⟨share, pub⟩, hcombine⟩ := tripleCombine_ok run.c h alpha beta hdeal fun i hi => by
        rw [hmine i]
        split
        · exact ⟨_, rfl⟩
        · exact hcol.mine hi
      refine .continues mine share pub (hcont.trans hok) ?_ fun d hd => ?_
      · rw [hout, hcont, hok]
        show (do let out ← tripleCombine h run.c.ids alpha beta t2.deals mine; _) = _
        rw [hcombine]
        rfl
      · obtain ⟨deal, hdeal⟩ := (hdealt d ((Finset.mem_sort _).mpr hd)).2.2
        rw [hdeals] at hdeal
        exact ⟨deal, hdeal, (hright d hd deal hdeal).mpr (hall hsup d hd deal hdeal)⟩

/-! ## Top theorem -/

/-- **The reconstruction is settled** exactly when the first false request names a dealer
the nodes know, and the supplies determine the committed values. -/
theorem reconstruction_settled_iff : run.Settled ↔ run.Answered ∧ run.Interpolated := by
  rcases verdict_cases run.w run.registry run.sid run.dealt (acceptedOver run.c.ids run.requests) with
    ⟨e, hfind, hcase⟩ | ⟨hfind, hok⟩
  · obtain ⟨hmem, hp⟩ := mem_acceptedOver.mp (List.mem_of_find?_eq_some hfind)
    have hbad := List.find?_some hfind
    have hcorrupt : e.1 ∉ run.honest := by
      intro hh
      rw [run.honest_not_refused hh hp] at hbad
      cases hbad
    rcases hcase with ⟨hans, detail, he⟩ | ⟨hans, msg, he⟩
    · refine iff_of_true (Or.inl ⟨e.1, hmem, hcorrupt, ⟨e.2, hp, hbad⟩, detail, he, fun h hh => run.outcome_error hh he⟩)
        ⟨fun e' he' => ?_, fun hsup => ?_⟩
      · rw [hfind] at he'
        cases he'
        exact hans
      · have := hsup.genuine
        rw [hfind] at this
        cases this
    · refine iff_of_false ?_ fun h => ?_
      · rintro (⟨v, -, -, -, detail, hv, -⟩ | ⟨reconstruct, hv, -⟩)
        · cases he.symm.trans hv
        · cases he.symm.trans hv
      · have := h.1 e hfind
        rw [hans] at this
        cases this
  · have hgenuine : run.Genuine (named (acceptedOver run.c.ids run.requests)) := by
      obtain ⟨-, hall⟩ := verdict_ok run.w run.registry run.sid run.dealt hok
      have hlists : ∀ v ∈ run.c.ids, ∃ list, run.requests[v]? = some (.reshareRequests list) ∧
          ∀ r ∈ list, genuine run.w run.registry run.sid run.dealt v r = true := by
        intro v hv
        obtain ⟨p, hp⟩ := run.requests_complete.getElem? hv
        obtain ⟨list, hlist, hgen⟩ := hall (v, p) (mem_acceptedOver.mpr ⟨hv, hp⟩)
        cases p <;> cases hlist
        exact ⟨list, hp, hgen⟩
      refine ⟨fun v hv => ?_, fun d hd => ?_⟩
      · obtain ⟨list, hp, hgen⟩ := hlists v hv
        refine ⟨list, hp, fun r hr => ⟨hgen r hr, mem_named.mpr ⟨(v, _), mem_acceptedOver.mpr ⟨hv, hp⟩, r, hr, rfl⟩⟩⟩
      · obtain ⟨e, he, list, hlist, r, hr, rfl, hgen⟩ := genuine_of_verdict run.w run.registry run.sid run.dealt hok hd
        obtain ⟨hv, hp⟩ := mem_acceptedOver.mp he
        obtain ⟨hmem, hcorrupt⟩ := run.genuine_corrupt hgen
        refine ⟨hmem, hcorrupt, e.1, hv, list, ?_, r, hr, rfl⟩
        obtain ⟨v, p⟩ := e
        cases p <;> cases hlist
        exact hp
    have hends := fun h (hh : h ∈ run.honest) => run.ends_iff hh hfind hok
    constructor
    · rintro (⟨v, -, -, -, detail, hv, -⟩ | ⟨reconstruct, hv, -, hall⟩)
      · cases hok.symm.trans hv
      · cases hok.symm.trans hv
        refine ⟨fun e he => ?_, fun hsup d hd deal hdeal h hh => (hends h hh).mp (hall h hh) hsup d hd deal hdeal⟩
        rw [hfind] at he
        cases he
    · rintro ⟨-, hint⟩
      exact Or.inr ⟨_, hok, hgenuine, fun h hh => (hends h hh).mpr fun hsup d hd deal hdeal =>
        hint hsup d hd deal hdeal h hh⟩

end ReconRun

/-! ### Two honest members of three, every draw 1 -/

section Trio

open Secp256k1

/-- Member `j`'s share of α and β: both are `3 + 3·X`. -/
def reconProduct (j : PartyId) : Scalar := 3 * (1 + scalarFrom j)

/-- Dealer `j` re-shares its product with slope 1. -/
def reconReshare (j h : PartyId) : Scalar := reconProduct j * reconProduct j + scalarFrom h

def reconDeal (j : PartyId) : TripleDealMsg Scalar Point :=
  let a := reconProduct j
  let x1 : Point := a • K256.generator Scalar
  ⟨⟨[(a * a) • K256.generator Scalar, 1]⟩, x1, (a * a) • K256.generator Scalar,
    (DleqProof.proveWith [] tags.tripleProduct a (K256.generator Scalar) x1 1).2.2⟩

/-- Every dealer of the joint sharings deals `1 + X`, without a complaint. -/
def reconVss (sid : Bytes) (h : PartyId) : VssView Scalar Point where
  commits := collect (trio.ids.map fun j =>
    (j, .dkg (.commit ⟨j, hashCommitment Scalar sid tags.dkgCommit j (⟨[1, 1]⟩ : FeldmanCommitment Point)⟩)))
  reveals := collect (trio.ids.map fun j => (j, .dkg (.reveal ⟨j, ⟨[1, 1]⟩⟩)))
  shares := collect (trio.ids.map fun j => (j, .dkg (.share ⟨j, h, 1 + scalarFrom h⟩)))
  complaints := collect (trio.ids.map fun j => (j, .complaints []))
  defenses := collect (trio.ids.map fun j => (j, .defenses []))

def reconPayloadBytes : NodePayload Scalar Point → Bytes
  | .reshare s => 1 :: bytes32 s.val
  | _ => []

theorem collect_trio {ν : Type} (f : PartyId → ν) {i : PartyId} {v : ν}
    (h : (collect (trio.ids.map fun j => (j, f j)))[i]? = some v) : v = f i := by
  have hmem := mem_of_collect h
  obtain ⟨j, -, heq⟩ := List.mem_map.mp hmem
  cases heq
  rfl

section Session

variable (dealt : PartyId → PartyId → Scalar)

/-- Dealer `j`'s re-share to member `h`, where it deals it `dealt j h`. -/
def reconEnvelope (j h : PartyId) : Envelope (NodePayload Scalar Point) :=
  Envelope.p2p [] .triples TR_ROUND_DEAL j h (.reshare (dealt j h))

/-- Every member signed its re-shares to members 1 and 2, and nothing else. -/
def reconWire : Wire Scalar Point PartyId where
  dkg := fun _ => []
  node := reconPayloadBytes
  verify := fun key bytes _ => [1, 2].any fun h => bytes = signingBytes reconPayloadBytes (reconEnvelope dealt key h)

def reconSession (requests supplies : AcceptedSet Scalar Point) : ReconSession Scalar Point PartyId where
  w := reconWire dealt
  registry := collect (trio.ids.map fun j => (j, j))
  c := trio
  sid := []
  honest := [1, 2]
  rng h := ⟨[⟨h.val, fun _ => 1, 0⟩], []⟩
  alpha := reconVss (utf8 "/alpha")
  beta := reconVss (utf8 "/beta")
  deals := collect (trio.ids.map fun j => (j, .tripleDeal (reconDeal j)))
  reshares h := collect (trio.ids.map fun j => (j, ⟨reconEnvelope dealt j h, []⟩))
  requests := requests
  supplies := supplies

theorem reconEnvelope_of_bytes {env : Envelope (NodePayload Scalar Point)} {j h : PartyId} (hsender : env.sender = j)
    (hsid : env.sid = []) (hphase : env.phase = .triples) (hround : env.round = TR_ROUND_DEAL)
    (hbytes : signingBytes reconPayloadBytes env = signingBytes reconPayloadBytes (reconEnvelope dealt j h)) :
    env = reconEnvelope dealt j h := by
  obtain ⟨sid, phase, round, sender, addressee, payload⟩ := env
  dsimp only at hsender hsid hphase hround
  subst hsender hsid hphase hround
  have hencode := List.append_cancel_left hbytes
  have hrest : addresseeBytes addressee ++ putBytes (reconPayloadBytes payload) =
      addresseeBytes (some h) ++ putBytes (reconPayloadBytes (.reshare (dealt sender h))) := by
    unfold Envelope.encode at hencode
    simp only [List.append_assoc] at hencode
    exact List.append_cancel_left (List.append_cancel_left (List.append_cancel_left hencode))
  obtain ⟨rfl, hput⟩ := takeAddressee_lawful.append_inj trivial trivial hrest
  have hlen : ∀ s : Scalar, 8 + (reconPayloadBytes (.reshare s)).length < 2 ^ 64 := by
    intro s
    simp [reconPayloadBytes, bytes32]
  cases payload with
  | reshare s =>
    have hs := takeBytes_lawful.injective (hlen s) (hlen _) hput
    have hscalar : s = dealt sender h := takeScalar_lawful (F := Scalar) (G := Point).injective trivial trivial
      (List.cons.inj hs).2
    rw [hscalar]
    rfl
  | _ => cases takeBytes_lawful.injective (by simp [reconPayloadBytes]) (hlen _) hput

theorem recon_signed {requests supplies : AcceptedSet Scalar Point} {d : PartyId}
    {env : SignedEnvelope (NodePayload Scalar Point)}
    (h : signedReshare (reconSession dealt requests supplies).w (reconSession dealt requests supplies).registry d env =
      true) :
    ∃ j ∈ ([1, 2] : List PartyId),
      signingBytes reconPayloadBytes env.envelope = signingBytes reconPayloadBytes (reconEnvelope dealt d j) := by
  unfold signedReshare at h
  obtain ⟨key, hkey, hver⟩ := (Option.any_eq_true _ _).mp h
  obtain rfl := collect_trio (fun j => j) hkey
  obtain ⟨j, hj, heq⟩ := List.any_eq_true.mp hver
  exact ⟨j, hj, of_decide_eq_true heq⟩

end Session

/-- Equality of the requests and payloads this session's members send, for running it. -/
def sameRequest : PartyId × SignedEnvelope (NodePayload Scalar Point) →
    PartyId × SignedEnvelope (NodePayload Scalar Point) → Bool
  | (d, ⟨⟨sid, phase, round, sender, addressee, .reshare s⟩, sig⟩),
    (d', ⟨⟨sid', phase', round', sender', addressee', .reshare s'⟩, sig'⟩) =>
    d = d' ∧ sid = sid' ∧ phase = phase' ∧ round = round' ∧ sender = sender' ∧ addressee = addressee' ∧ s = s' ∧ sig = sig'
  | _, _ => false

theorem eq_of_sameRequest {r r' : PartyId × SignedEnvelope (NodePayload Scalar Point)} (h : sameRequest r r' = true) :
    r = r' := by
  obtain ⟨d, ⟨⟨sid, phase, round, sender, addressee, payload⟩, sig⟩⟩ := r
  obtain ⟨d', ⟨⟨sid', phase', round', sender', addressee', payload'⟩, sig'⟩⟩ := r'
  cases payload <;> cases payload' <;> simp_all [sameRequest]

theorem eq_of_sameRequests {l l' : List (PartyId × SignedEnvelope (NodePayload Scalar Point))}
    (h : l.isEqv l' sameRequest = true) : l = l' := by
  induction l generalizing l' with
  | nil => cases l' with
    | nil => rfl
    | cons _ _ => cases h
  | cons r l ih => cases l' with
    | nil => cases h
    | cons r' l' =>
      obtain ⟨hr, hl⟩ := Bool.and_eq_true_iff.mp h
      rw [eq_of_sameRequest hr, ih hl]

def sameTriple : NodePayload Scalar Point → NodePayload Scalar Point → Bool
  | .tripleDeal d, .tripleDeal d' => d = d'
  | .reshare s, .reshare s' => s = s'
  | .reshareRequests l, .reshareRequests l' => l.isEqv l' sameRequest
  | .reshareSupply l, .reshareSupply l' => l = l'
  | _, _ => false

theorem eq_of_sameTriple {p q : NodePayload Scalar Point} (h : sameTriple p q = true) : p = q := by
  cases p <;> cases q
  case reshareRequests.reshareRequests l l' => rw [eq_of_sameRequests h]
  all_goals simp_all [sameTriple]

def wasSent (sent : List (Envelope (NodePayload Scalar Point))) (env : Envelope (NodePayload Scalar Point)) : Bool :=
  sent.any fun e => e.sid = env.sid ∧ e.phase = env.phase ∧ e.round = env.round ∧ e.sender = env.sender ∧
    e.addressee = env.addressee ∧ sameTriple e.payload env.payload

theorem mem_of_wasSent {sent : List (Envelope (NodePayload Scalar Point))} {env : Envelope (NodePayload Scalar Point)}
    (h : wasSent sent env = true) : env ∈ sent := by
  obtain ⟨e, he, heq⟩ := List.any_eq_true.mp h
  obtain ⟨h₁, h₂, h₃, h₄, h₅, h₆⟩ := of_decide_eq_true heq
  obtain ⟨sid, phase, round, sender, addressee, payload⟩ := env
  dsimp only at h₁ h₂ h₃ h₄ h₅ h₆
  subst h₁ h₂ h₃ h₄ h₅
  rwa [← eq_of_sameTriple h₆]

/-- What is accepted from member `h` in a round was sent by it. -/
def ReconSession.sentBy (run : ReconSession Scalar Point PartyId) (h : PartyId) (round : Nat)
    (set : AcceptedSet Scalar Point) : Bool :=
  set[h]?.all fun p => wasSent (run.sent h) (Envelope.broadcast run.sid .triples round h p)

theorem ReconSession.authentic_of_sentBy {run : ReconSession Scalar Point PartyId} {h : PartyId} {round : Nat}
    {set : AcceptedSet Scalar Point} (hs : run.sentBy h round set = true) : run.Authentic h round set := fun p hp =>
  mem_of_wasSent ((Option.all_eq_true _ _).mp hs p hp)

/-- What members 1 and 2 accept from one another was sent, and every member makes requests. -/
def reconCheck (dealt : PartyId → PartyId → Scalar) (requests supplies : AcceptedSet Scalar Point) (h : PartyId) :
    Bool :=
  let run := reconSession dealt requests supplies
  run.sentBy h TR_ROUND_DEAL run.deals && (run.sentBy h TR_ROUND_RECON_REQ requests &&
    (run.sentBy h TR_ROUND_RECON_SUPPLY supplies && ([1, 2] : List PartyId).all fun j =>
      wasSent (run.sent h) (reconEnvelope dealt h j)))

theorem reconCheck_sent {dealt : PartyId → PartyId → Scalar} {requests supplies : AcceptedSet Scalar Point} {h : PartyId}
    (hcheck : reconCheck dealt requests supplies h = true) :
    let run := reconSession dealt requests supplies
    run.Authentic h TR_ROUND_DEAL run.deals ∧ run.Authentic h TR_ROUND_RECON_REQ requests ∧
      run.Authentic h TR_ROUND_RECON_SUPPLY supplies ∧
      ∀ j ∈ ([1, 2] : List PartyId), reconEnvelope dealt h j ∈ run.sent h := by
  unfold reconCheck at hcheck
  simp only [Bool.and_eq_true, List.all_eq_true] at hcheck
  obtain ⟨hdeals, hrequests, hsupplies, hreshares⟩ := hcheck
  exact ⟨ReconSession.authentic_of_sentBy hdeals, ReconSession.authentic_of_sentBy hrequests,
    ReconSession.authentic_of_sentBy hsupplies, fun j hj => mem_of_wasSent (hreshares j hj)⟩

def reconRun (dealt : PartyId → PartyId → Scalar) (requests supplies : AcceptedSet Scalar Point)
    (h₁ : reconCheck dealt requests supplies 1 = true) (h₂ : reconCheck dealt requests supplies 2 = true)
    (hcomplete : Complete trio.ids requests) : ReconRun Scalar Point PartyId where
  toReconSession := reconSession dealt requests supplies
  majority := trio_majority
  honest_sub := one_two_sub_trio
  honest_nodup := one_two_nodup
  few_corrupt := trio_few_corrupt
  deals_sent := forall_one_two (reconCheck_sent h₁).1 (reconCheck_sent h₂).1
  requests_sent := forall_one_two (reconCheck_sent h₁).2.1 (reconCheck_sent h₂).2.1
  supplies_sent := forall_one_two (reconCheck_sent h₁).2.2.1 (reconCheck_sent h₂).2.2.1
  reshares_accepted h hh d env henv := by
    have hd : d ∈ trio.ids := by
      obtain ⟨j, hj, heq⟩ := List.mem_map.mp (mem_of_collect henv)
      rwa [← (Prod.mk.inj heq).1]
    obtain rfl := collect_trio (fun j => (⟨reconEnvelope dealt j h, []⟩ : SignedEnvelope (NodePayload Scalar Point))) henv
    refine ⟨?_, rfl, rfl, rfl, rfl, rfl⟩
    have hreg : (collect (trio.ids.map fun j => (j, j)))[d]? = some d :=
      collect_getElem? _ (by decide) (List.mem_map.mpr ⟨d, hd, rfl⟩)
    show ((collect (trio.ids.map fun j => (j, j)))[d]?).any _ = true
    rw [hreg]
    exact List.any_eq_true.mpr ⟨h, hh, decide_eq_true rfl⟩
  unforgeable h hh addressee env hshare := by
    obtain ⟨j, hj, hbytes⟩ := recon_signed dealt hshare.signed
    rw [reconEnvelope_of_bytes dealt hshare.sender hshare.sid hshare.phase hshare.round hbytes]
    exact forall_one_two (P := fun h => reconEnvelope dealt h j ∈ (reconSession dealt requests supplies).sent h)
      ((reconCheck_sent h₁).2.2.2 j hj) ((reconCheck_sent h₂).2.2.2 j hj) h hh
  requests_complete := hcomplete

/-- Member 3 accuses an outsider by an envelope it made up. -/
def outsiderRequest : List (PartyId × SignedEnvelope (NodePayload Scalar Point)) :=
  [(7, ⟨Envelope.p2p [] .triples TR_ROUND_DEAL 7 3 (.reshare 0), []⟩)]

def outsiderRun : ReconRun Scalar Point PartyId :=
  reconRun reconReshare
    (collect [(1, .reshareRequests []), (2, .reshareRequests []), (3, .reshareRequests outsiderRequest)]) ∅
    (by decide +kernel) (by decide +kernel) (by decide +kernel)

def panics {α : Type} : Outcome α → Bool
  | .error (.panic _) => true
  | _ => false

/-- Member 3's request ends the verdict in a panic. -/
theorem reconstruction_panics : ¬ outsiderRun.Settled := by
  have hpanic : panics outsiderRun.verdict = true := by decide +kernel
  rintro (⟨v, -, -, -, detail, hv, -⟩ | ⟨reconstruct, hv, -⟩)
  · rw [hv] at hpanic
    cases hpanic
  · rw [hv] at hpanic
    cases hpanic

/-- Dealer 3 re-shares 0 to member 1. -/
def badReshare (j h : PartyId) : Scalar := if j = 3 ∧ h = 1 then 0 else reconReshare j h

/-- Member 1 shows its re-share of dealer 3, and all supply theirs. -/
def repairRun : ReconRun Scalar Point PartyId :=
  reconRun badReshare
    (collect [(1, .reshareRequests [(3, ⟨reconEnvelope badReshare 3 1, []⟩)]), (2, .reshareRequests []),
      (3, .reshareRequests [])])
    (collect (trio.ids.map fun j => (j, .reshareSupply [(3, badReshare 3 j)])))
    (by decide +kernel) (by decide +kernel) (by decide +kernel)

theorem repairRun_named : named (acceptedOver trio.ids repairRun.requests) = {3} := by decide +kernel

theorem repairRun_suppliers : suppliers trio.t repairRun.dealt repairRun.supplyMap 3 = [2, 3] := by decide +kernel

theorem repairRun_dealt : repairRun.dealt[(3 : PartyId)]? = some (reconDeal 3) := by decide +kernel

/-- Dealer 3 is reconstructed from members 2 and 3, and member 1 has its right share. -/
theorem reconstruction_settled_repair :
    (repairRun.continued 1).toOption.bind (·[(3 : PartyId)]?) = some (reconReshare 3 1) ∧ repairRun.Settled := by
  refine ⟨by decide +kernel, repairRun.reconstruction_settled_iff.mpr ⟨?_, fun _ d hd deal hdeal h hh => ?_⟩⟩
  · intro e he
    have hnone : (acceptedOver repairRun.c.ids repairRun.requests).toList.find?
        (refused repairRun.w repairRun.registry repairRun.sid repairRun.dealt) = none := by
      decide +kernel
    rw [hnone] at he
    cases he
  · obtain rfl : d = 3 := by
      rw [show repairRun.c.ids = trio.ids from rfl, repairRun_named] at hd
      exact Finset.mem_singleton.mp hd
    rw [repairRun_dealt] at hdeal
    obtain rfl := Option.some.inj hdeal
    have hdeg : ((reconDeal 3).com.poly Scalar).degree < ([2, 3] : List Scalar).length :=
      degree_poly_lt (reconDeal 3).com
    right
    rw [show suppliers repairRun.c.t repairRun.dealt repairRun.supplyMap 3 = [2, 3] from repairRun_suppliers,
      quotient_eq_zero [2, 3] (by decide +kernel) hdeg, eval_zero]

end Trio

end OhmEcdsa
