import OhmEcdsa.Node.Acceptor
import OhmEcdsa.Node.Codec
import OhmEcdsa.Node.Presign
import OhmEcdsa.Node.ReconRun

/-!
# What the drivers send (`party.rs`)

A list in a message has at most one entry for each member, a vector a point for each
coefficient, and the evidence in a request is what the node's acceptor kept for the
session.  So it is for every driver:

    Triple (Driver.AllSent (Sized call.ids.length call.t)) (call.run me) ..      (DriverCall.run_sized)
-/

set_option linter.unusedSectionVars false

namespace OhmEcdsa

open FeldmanCommitment Hoare

variable {F G K : Type} [Field F] [DecidableEq F] [AddCommGroup G] [Module F G] [DecidableEq G] [K256 F G]

/-! ## The drivers -/

/-- A driver with its arguments and what it accepts. -/
inductive DriverCall (F G K : Type)
  | jointVss (t : Usize) (sid tag : Bytes) (phase : Phase) (ids : List PartyId) (view : VssView F G)
  | triple (t : Usize) (sid : Bytes) (ids : List PartyId) (view : TripleView F G)
  | tripleRobust (w : Wire F G K) (registry : PartyMap K) (t : Usize) (sid : Bytes) (ids : List PartyId)
      (view : TripleView F G)
  | presign (t : Usize) (sid : Bytes) (id : U64) (key : KeyShare F G) (ids : List PartyId) (view : PresignView F G)
  | presignRobust (t : Usize) (sid : Bytes) (id : U64) (key : KeyShare F G) (ids : List PartyId)
      (view : PresignView F G)
  | presignKi (params : Params) (sid : Bytes) (id : U64) (view : NonceView F G)
  | sign (params : Params) (sid : Bytes) (presig : Presignature F G) (m : F) (ids : List PartyId)
      (view : AcceptedSet F G)
  | signKi (params : Params) (sid : Bytes) (presig : KiPresignature F G) (key : KeyShare F G) (msg : Bytes)
      (view : KiView F G)
  | signKiRobust (params : Params) (sid : Bytes) (presig : KiPresignature F G) (key : KeyShare F G) (msg : Bytes)
      (view : KiView F G)
  | keygenWithRestart (params : Params) (sid tag : Bytes) (views : U64 → VssView F G) (fuel : Nat)
  | presignWithRestart (params : Params) (sid : Bytes) (firstId : U64) (key : KeyShare F G) (start : List PartyId)
      (views : U64 → PresignView F G) (fuel : Nat)

namespace DriverCall

def t : DriverCall F G K → Usize
  | jointVss t .. | triple t .. | tripleRobust _ _ t .. | presign t .. | presignRobust t .. => t
  | presignKi params .. | sign params .. | signKi params .. | signKiRobust params .. => params.t
  | keygenWithRestart params .. | presignWithRestart params .. => params.t

/-- The committee the driver starts over. -/
def ids : DriverCall F G K → List PartyId
  | jointVss _ _ _ _ ids _ | triple _ _ ids _ | tripleRobust _ _ _ _ ids _ | presign _ _ _ _ ids _ => ids
  | presignRobust _ _ _ _ ids _ | sign _ _ _ _ ids _ | presignWithRestart _ _ _ _ ids .. => ids
  | presignKi params .. | signKi params .. | signKiRobust params .. | keygenWithRestart params .. => params.parties

def run (me : PartyId) : DriverCall F G K → NodeM F G Unit
  | jointVss t sid tag phase ids view => do let _ ← jointVssRun me t sid tag phase ids view
  | triple t sid ids view => do let _ ← tripleRun me t sid ids view
  | tripleRobust w registry t sid ids view => do let _ ← tripleRobustRun w registry me t sid ids view
  | presign t sid id key ids view => do let _ ← presignRun me t sid id key ids view
  | presignRobust t sid id key ids view => do let _ ← presignRobustRun me t sid id key ids view
  | presignKi params sid id view => do let _ ← presignKiRun me params sid id view
  | sign params sid presig m ids view => do let _ ← signScalarOver me params sid presig m ids view
  | signKi params sid presig key msg view => do let _ ← signKiRun me params sid presig key msg view
  | signKiRobust params sid presig key msg view => do let _ ← signKiRobustRun me params sid presig key msg view
  | keygenWithRestart params sid tag views fuel => do
    let _ ← OhmEcdsa.keygenWithRestart me params sid tag views fuel
  | presignWithRestart params sid firstId key start views fuel => do
    let _ ← presignWithRestartOver me params sid firstId key start views fuel

end DriverCall

/-- The re-shares are those an acceptor that processed well-formed messages kept for `me`. -/
def TripleView.Kept [WireFormat F G] (me : PartyId) (sid : Bytes) (view : TripleView F G) : Prop :=
  ∃ (t : Usize) (msgs : List (Received (NodePayload F G))), (∀ msg ∈ msgs, msg.env.signature.length = 64) ∧
    ∀ (f : PartyId) (env : SignedEnvelope (NodePayload F G)), view.reshares[f]? = some env →
      ((msgs.foldl (Acceptor.process NodePayload.encode) (Acceptor.new t)).p2p
        ⟨sid, .triples, TR_ROUND_DEAL, me⟩)[f]? = some env

/-- What the driver reads of its acceptor comes from it. -/
def DriverCall.Kept [WireFormat F G] (me : PartyId) : DriverCall F G K → Prop
  | .tripleRobust _ _ _ sid _ view => view.Kept me sid
  | _ => True

/-! ## Sizes -/

/-- A re-share of the session, as its dealer signed it. -/
def IsReshare (sid : Bytes) (env : SignedEnvelope (NodePayload F G)) : Prop :=
  env.envelope.sid = sid ∧ env.signature.length = 64 ∧ ∃ s, env.envelope.payload = .reshare s

/-- The size of a payload of session `sid` over `k` members with threshold `t`. -/
def NodePayload.Sized (k : Nat) (t : Usize) (sid : Bytes) : NodePayload F G → Prop
  | .dkg (.commit b) => ∃ bytes, b.hash = K256.sha256 F G bytes
  | .dkg (.reveal b) => b.com.points.length = t.val
  | .complaints dealers => dealers.length ≤ k
  | .defenses defs => defs.length ≤ k
  | .tripleDeal d => d.com.points.length = t.val
  | .reshareRequests requests => requests.length ≤ k ∧ ∀ r ∈ requests, IsReshare sid r.2
  | .reshareSupply supplies => supplies.length ≤ k
  | _ => True

def Sized (k : Nat) (t : Usize) (env : Envelope (NodePayload F G)) : Prop := env.payload.Sized k t env.sid

/-- What a driver over `k` members with threshold `t` sends. -/
abbrev SendsSized (k : Nat) (t : Usize) {α : Type} (m : NodeM F G α) : Prop :=
  Triple (Driver.AllSent (Sized k t)) m (fun _ => True) (fun _ => True)

/-! ## Lemmas: the acceptor's P2P slots -/

namespace Acceptor

variable {M : Type} {payloadBytes : M → Bytes}

theorem insertCandidate_p2p (a : Acceptor M) (key : SlotKey) (payload : Bytes) (env : SignedEnvelope M) :
    (a.insertCandidate key payload env).p2p = a.p2p := by
  unfold insertCandidate
  dsimp only
  split
  · rfl
  · split
    · split <;> rfl
    · rfl

theorem admitSid_p2p (a : Acceptor M) (sid : Bytes) : (a.admitSid sid).2.p2p = a.p2p := by
  unfold admitSid
  split
  · rfl
  · split <;> rfl

/-- A P2P slot of a session has the originals of that session only. -/
def P2pFrom (msgs : List (Received M)) (a : Acceptor M) : Prop :=
  ∀ (key : SlotKey) (f : PartyId) (env : SignedEnvelope M), (a.p2p key)[f]? = some env →
    env.envelope.sid = key.sid ∧ .original env ∈ msgs

theorem process_p2pFrom {a : Acceptor M} {msgs : List (Received M)} (h : P2pFrom msgs a) (msg : Received M) :
    P2pFrom (msgs ++ [msg]) (a.process payloadBytes msg) := by
  have hkeep : ∀ a' : Acceptor M, a'.p2p = a.p2p → P2pFrom (msgs ++ [msg]) a' := by
    intro a' ha' key f env henv
    rw [ha'] at henv
    exact ⟨(h key f env henv).1, List.mem_append_left _ (h key f env henv).2⟩
  cases msg with
  | original env =>
    rw [process]
    have hopen := admitSid_p2p a env.envelope.sid
    rcases hrun : a.admitSid env.envelope.sid with ⟨_ | _, a'⟩ <;> rw [hrun] at hopen
    · exact hkeep a' hopen
    · simp only
      split
      · show P2pFrom _ (if a'.poisoned (slotOf env.envelope).sid (slotOf env.envelope).party = true then a' else
          a'.insertCandidate (slotOf env.envelope) (env.encode payloadBytes) env)
        by_cases hp : a'.poisoned (slotOf env.envelope).sid (slotOf env.envelope).party = true
        · rw [if_pos hp]
          exact hkeep a' hopen
        · rw [if_neg hp]
          exact hkeep _ ((insertCandidate_p2p a' _ _ _).trans hopen)
      · next j hj =>
        intro key f e he
        simp only at he
        rw [show a'.p2p = a.p2p from hopen] at he
        by_cases hkey : key = ⟨env.envelope.sid, env.envelope.phase, env.envelope.round, j⟩
        · subst hkey
          rw [Function.update_self, Std.ExtTreeMap.getElem?_insertIfNew] at he
          split at he
          · obtain rfl := Option.some.inj he
            exact ⟨rfl, List.mem_append_right _ List.mem_cons_self⟩
          · exact ⟨(h _ f e he).1, List.mem_append_left _ (h _ f e he).2⟩
        · rw [Function.update_of_ne hkey] at he
          exact ⟨(h key f e he).1, List.mem_append_left _ (h key f e he).2⟩
  | echo echoer original =>
    rw [process]
    have hopen := admitSid_p2p a original.envelope.sid
    rcases hrun : a.admitSid original.envelope.sid with ⟨_ | _, a'⟩ <;> rw [hrun] at hopen
    · exact hkeep a' hopen
    · show P2pFrom _ (if a'.poisoned (slotOf original.envelope).sid (slotOf original.envelope).party = true then a' else
        if echoer = (slotOf original.envelope).party then
          a'.insertCandidate (slotOf original.envelope) (original.encode payloadBytes) original
        else (a'.insertCandidate (slotOf original.envelope) (original.encode payloadBytes) original).addEchoer
          (slotOf original.envelope) (original.encode payloadBytes) echoer)
      have hins := (insertCandidate_p2p a' (slotOf original.envelope) (original.encode payloadBytes) original).trans hopen
      by_cases hp : a'.poisoned (slotOf original.envelope).sid (slotOf original.envelope).party = true
      · rw [if_pos hp]
        exact hkeep a' hopen
      · rw [if_neg hp]
        by_cases hown : echoer = (slotOf original.envelope).party
        · rw [if_pos hown]
          exact hkeep _ hins
        · rw [if_neg hown]
          exact hkeep _ hins

theorem foldl_p2pFrom (t : Usize) (msgs : List (Received M)) :
    P2pFrom msgs (msgs.foldl (process payloadBytes) (Acceptor.new t)) := by
  induction msgs using List.reverseRecOn with
  | nil =>
    intro key f env henv
    rw [List.foldl_nil, Acceptor.new, Std.ExtTreeMap.getElem?_empty] at henv
    cases henv
  | append_singleton msgs msg ih =>
    rw [List.foldl_append]
    exact process_p2pFrom ih msg

end Acceptor

theorem TripleView.Kept.isReshare [WireFormat F G] {me : PartyId} {sid : Bytes} {view : TripleView F G}
    (h : view.Kept me sid) {f : PartyId} {env : SignedEnvelope (NodePayload F G)} (henv : view.reshares[f]? = some env) :
    env.envelope.sid = sid ∧ env.signature.length = 64 := by
  obtain ⟨t, msgs, hsig, hkept⟩ := h
  obtain ⟨hsid, hmem⟩ := Acceptor.foldl_p2pFrom t msgs _ f env (hkept f env henv)
  exact ⟨hsid, hsig _ hmem⟩

/-! ## Lemmas: dealings -/

section Sends

variable {k : Nat} {t : Usize}

/-- A draw ends as its generator does. -/
theorem draw_triple {α : Type} {P : Envelope (NodePayload F G) → Prop} {Q : α → Prop} {m : RngM F α}
    (h : Triple (fun _ => True) m Q fun _ => True) : Triple (Driver.AllSent P) (draw m) Q fun _ => True := by
  intro d hd
  exact ⟨hd, (h d.rng trivial).2⟩

theorem random_length (secret : F) (ht : 1 ≤ t.val) (i : Nat) :
    Triple (fun _ => True) (ShamirPoly.random secret t i) (fun p => p.coeffs.length = t.val) fun _ => True := by
  unfold ShamirPoly.random
  refine (Triple.mapM (P := fun _ _ => True) _ fun _ _ => Triple.top).bind fun tail htail => Triple.pure ?_
  have hlen := htail.length_eq
  rw [List.length_range] at hlen
  rw [List.length_cons]
  omega

theorem fromPoly_length (p : ShamirPoly F) : (fromPoly p : FeldmanCommitment G).points.length = p.coeffs.length :=
  List.length_map _

theorem startCommittee_length (committee : Committee) (ht : 1 ≤ committee.t.val) (sid tag : Bytes) (me : PartyId) (i : Nat) :
    Triple (fun _ => True) (DkgInstance.startCommittee (F := F) (G := G) committee sid tag me i)
      (fun out => (out.1.com.points.length = committee.t.val ∧ out.1.badReveal = false) ∧
        ∃ bytes, out.2.hash = K256.sha256 F G bytes) fun _ => True := by
  unfold DkgInstance.startCommittee DkgInstance.startWithSecret
  refine Triple.top.bind fun secret _ => (random_length secret ht i).bind fun poly hpoly => Triple.pure ?_
  exact ⟨⟨(fromPoly_length poly).trans hpoly, rfl⟩, _, rfl⟩

theorem complaintRound_sized (me : PartyId) (sid : Bytes) (phase : Phase) (rounds : Nat × Nat) {ids complaints : List PartyId}
    (hids : ids.length ≤ k) (hcomplaints : complaints.length ≤ k) (defenseFor : PartyId → F)
    (defenseVerifies : PartyId → PartyId → F → Outcome Bool) (complaintView defenseView : AcceptedSet F G) :
    SendsSized k t (complaintRound me sid phase rounds ids complaints defenseFor defenseVerifies complaintView
      defenseView) := by
  intro d hd
  obtain ⟨sent, hrun, hsent⟩ := complaintRound_run me sid phase rounds ids complaints defenseFor defenseVerifies
    complaintView defenseView d
  rw [hrun]
  refine ⟨fun env henv => ?_, by split <;> trivial⟩
  rcases List.mem_append.mp henv with henv | henv
  · exact hd env henv
  · rcases hsent env henv with rfl | ⟨hcomplete, -, rfl⟩
    · exact hcomplaints
    · -- every accuser is a member
      have hlists : (complaintLists ids complaintView).length ≤ ids.length := by
        refine (List.length_filterMap_le _ _).trans ?_
        rw [Std.ExtTreeMap.length_toList, hcomplete]
      show (answers me ids defenseFor complaintView).length ≤ k
      rw [answers, List.length_map]
      exact (List.length_filter_le _ _).trans (hlists.trans hids)

theorem vssChecks_length {sid tag : Bytes} {phase : Phase} {me : PartyId} {ids : List PartyId} {view : VssView F G}
    {out : PartyMap (DkgBcast2 G) × PartyMap F × List PartyId} (h : vssChecks t sid tag phase me ids view = .ok out) :
    out.2.2.length ≤ ids.length := by
  rcases vssChecks_cases t sid tag phase me ids view with ⟨-, he⟩ | ⟨-, f, detail, -, he⟩ |
    ⟨-, -, r2, mine, complaints, hok, hchecked⟩
  · rw [he] at h
    cases h
  · rw [he] at h
    cases h
  · rw [hok] at h
    obtain rfl := Except.ok.inj h
    rw [hchecked.complaints_eq]
    exact List.length_filter_le _ _

theorem reveal_length {inst : DkgInstance F G} (hcom : inst.com.points.length = t.val) (hbad : inst.badReveal = false)
    {out : DkgBcast2 G × List (DkgP2P F)} (h : inst.reveal = .ok out) : out.1.com.points.length = t.val := by
  unfold DkgInstance.reveal at h
  rw [hbad] at h
  obtain rfl := Except.ok.inj h
  exact hcom

/-- A step whose value the rest may rest on. -/
theorem step_value {α : Type} {P : Envelope (NodePayload F G) → Prop} (x : Outcome α) :
    Triple (Driver.AllSent P) (lift x) (fun a => x = .ok a) (fun _ => True) :=
  Triple.lift (fun _ h => h) fun _ _ => trivial

theorem jointVssRun_sized (me : PartyId) (ht : 1 ≤ t.val) (sid tag : Bytes) (phase : Phase) {ids : List PartyId}
    (hids : ids.length ≤ k) (view : VssView F G) : SendsSized k t (jointVssRun me t sid tag phase ids view) := by
  unfold jointVssRun
  refine (step_value _).bind fun committee hcommittee => ?_
  have hct := (Committee.new_ok hcommittee).2.1
  refine (draw_triple (startCommittee_length committee (hct ▸ ht) sid tag me 0)).bind ?_
  rintro ⟨inst, b1⟩ ⟨⟨hcom, hbad⟩, hhash⟩
  rw [hct] at hcom
  refine (send_allSent hhash).bind fun _ _ => (step_value _).bind ?_
  rintro ⟨b2, shares⟩ hreveal
  refine (send_allSent (reveal_length hcom hbad hreveal)).bind fun _ _ => ?_
  refine (forM_allSent shares fun _ _ => trivial).bind fun _ _ => (step_value _).bind ?_
  rintro ⟨r2, mine, complaints⟩ hchecks
  refine (complaintRound_sized me sid phase _ hids ?_ _ _ _ _).bind fun _ _ => step_allSent _
  exact (vssChecks_length hchecks).trans hids

/-! ## Lemmas: triples -/

theorem tripleT1T2_sized (me : PartyId) (ht : 1 ≤ t.val) (sid : Bytes) {ids : List PartyId} (hids : ids.length ≤ k)
    (view : TripleView F G) :
    Triple (Driver.AllSent (Sized k t)) (tripleT1T2 me t sid ids view)
      (fun out => ∃ sent, collectT2 ids sent view = .ok out.2.2) fun _ => True := by
  unfold tripleT1T2
  refine (jointVssRun_sized me ht _ _ _ hids view.alpha).bind fun alpha _ => ?_
  refine (jointVssRun_sized me ht _ _ _ hids view.beta).bind fun beta _ => ?_
  refine (draw_triple (random_length _ ht 0)).bind fun g hg => (draw_allSent _).bind ?_
  rintro ⟨x1, x2, proof⟩ -
  refine (send_allSent ((fromPoly_length g).trans hg)).bind fun _ _ => ?_
  refine (forM_allSent ids fun i _ => trivial).bind fun _ _ => (step_value _).bind fun t2 ht2 => ?_
  exact Triple.pure ⟨_, ht2⟩

theorem badReshares_length {me : PartyId} {ids : List PartyId} {t2 : TripleT2 F G} {bad : List PartyId}
    (h : badReshares me ids t2 = .ok bad) : bad.length ≤ ids.length := by
  unfold badReshares at h
  obtain ⟨checked, hchecked, hbad⟩ := ok_of_bind h
  obtain rfl := Except.ok.inj hbad
  rw [List.length_map, (forall₂_of_mapM_ok _ _ hchecked).length_eq]
  exact List.length_filter_le _ _

theorem tripleRun_sized (me : PartyId) (ht : 1 ≤ t.val) (sid : Bytes) {ids : List PartyId} (hids : ids.length ≤ k)
    (view : TripleView F G) : SendsSized k t (tripleRun me t sid ids view) := by
  unfold tripleRun
  refine (tripleT1T2_sized me ht sid hids view).bind ?_
  rintro ⟨alpha, beta, t2⟩ -
  refine (step_allSent _).bind fun _ _ => (step_value _).bind fun complaints hcomplaints => ?_
  refine (complaintRound_sized me sid .triples _ hids ?_ _ _ _ _).bind fun _ _ => step_allSent _
  exact (badReshares_length hcomplaints).trans hids

theorem getElem?_of_index {ν : Type} {m : PartyMap ν} {i : PartyId} {v : ν} (h : index m i = .ok v) : m[i]? = some v := by
  unfold index at h
  split at h
  · next hv =>
    rw [Except.ok.inj h] at hv
    exact hv
  · cases h

section Collected

variable {ids : List PartyId} {view : TripleView F G} {t2 : TripleT2 F G} {sent : PartyId → F}
  (h : collectT2 ids sent view = .ok t2)

include h

theorem collectT2_parsed : ∃ deals mine,
    parseSet .triples "malformed re-share envelope" asReshare (acceptedOver ids (openEnvelopes view.reshares)) = .ok mine ∧
      t2 = ⟨collect deals, collect mine, sent, view.reshares.filter fun f _ => ids.contains f⟩ := by
  unfold collectT2 at h
  dsimp only at h
  split at h
  · cases h
  obtain ⟨deals, -, h⟩ := ok_of_bind h
  obtain ⟨mine, hmine, h⟩ := ok_of_bind h
  exact ⟨deals, mine, hmine, (Except.ok.inj h).symm⟩

theorem mem_of_mine {d : PartyId} {s : F} (hs : t2.mine[d]? = some s) : d ∈ ids := by
  obtain ⟨deals, mine, hmine, rfl⟩ := collectT2_parsed h
  rw [parseSet_eq] at hmine
  split at hmine
  · cases hmine
  obtain rfl := Except.ok.inj hmine
  by_contra hd
  refine absurd hs ?_
  rw [collect_getElem?_none]
  · exact nofun
  · intro hmem
    obtain ⟨e, he, rfl⟩ := List.mem_map.mp hmem
    obtain ⟨e', he', heq⟩ := List.mem_filterMap.mp he
    obtain ⟨s', -, rfl⟩ := Option.map_eq_some_iff.mp heq
    exact hd (mem_acceptedOver.mp he').1

theorem reshEnvs_reshare {d : PartyId} {env : SignedEnvelope (NodePayload F G)} (henv : t2.reshEnvs[d]? = some env) :
    view.reshares[d]? = some env ∧ ∃ s, env.envelope.payload = .reshare s := by
  obtain ⟨deals, mine, -, hshape⟩ := collectT2_parsed h
  have hd : d ∈ ids ∧ view.reshares[d]? = some env := by
    rw [hshape, Std.ExtTreeMap.getElem?_filter'] at henv
    obtain ⟨hview, hmem⟩ := Option.filter_eq_some_iff.mp henv
    exact ⟨by simpa using hmem, hview⟩
  obtain ⟨env', s, hview, hpayload, -, -⟩ := (collectT2_ok h).1.reshare d hd.1
  obtain rfl := Option.some.inj (hd.2.symm.trans hview)
  exact ⟨hview, s, hpayload⟩

/-- A supply names a dealer whose share the node has. -/
theorem supplies_length {blamed : List PartyId} (hblamed : blamed.Nodup) {supplies : List (PartyId × F)}
    (hsupplies : (blamed.mapM fun d => do
      let s ← index t2.mine d
      return (d, s) : Outcome (List (PartyId × F))) = .ok supplies) : supplies.length ≤ ids.length := by
  have hall := forall₂_of_mapM_ok _ _ hsupplies
  have hsub : blamed ⊆ ids := by
    intro d hd
    obtain ⟨e, -, he⟩ := forall₂_exists_left hall.flip hd
    obtain ⟨s, hs, -⟩ := ok_of_bind he
    exact mem_of_mine h (getElem?_of_index hs)
  rw [← hall.length_eq]
  exact (List.subperm_of_subset hblamed hsub).length_le

end Collected

theorem supplyRound_sized (me : PartyId) (sid : Bytes) {ids blamed : List PartyId} (hids : ids.length ≤ k)
    (hblamed : blamed.Nodup) {sent : PartyId → F} {view : TripleView F G} {t2 : TripleT2 F G}
    (ht2 : collectT2 ids sent view = .ok t2) (supplies : AcceptedSet F G) :
    SendsSized k t (supplyRound me t sid ids blamed t2 supplies) := by
  unfold supplyRound
  refine (step_value _).bind fun list hlist => ?_
  refine (send_allSent ((supplies_length ht2 hblamed hlist).trans hids)).bind fun _ _ => ?_
  dsimp only
  split
  · exact Triple.throw trivial
  · exact (step_allSent _).bind fun lists _ => step_allSent _

theorem tripleRobustRun_sized (w : Wire F G K) (registry : PartyMap K) (me : PartyId) (ht : 1 ≤ t.val) (sid : Bytes)
    {ids : List PartyId} (hids : ids.length ≤ k) {view : TripleView F G}
    (hkept : ∀ (f : PartyId) (env : SignedEnvelope (NodePayload F G)), view.reshares[f]? = some env →
      env.envelope.sid = sid ∧ env.signature.length = 64) :
    SendsSized k t (tripleRobustRun w registry me t sid ids view) := by
  unfold tripleRobustRun
  refine (tripleT1T2_sized me ht sid hids view).bind ?_
  rintro ⟨alpha, beta, t2⟩ ⟨sent, ht2⟩
  refine (step_allSent _).bind fun _ _ => (step_value _).bind fun bad hbad => (step_value _).bind fun requests hreq => ?_
  have hall := forall₂_of_mapM_ok _ _ hreq
  have hsized : requests.length ≤ k ∧ ∀ r ∈ requests, IsReshare sid r.2 := by
    refine ⟨hall.length_eq ▸ (badReshares_length hbad).trans hids, fun r hr => ?_⟩
    obtain ⟨i, -, hi⟩ := forall₂_exists_left hall hr
    obtain ⟨env, henv, hpair⟩ := ok_of_bind hi
    obtain rfl := Except.ok.inj hpair
    obtain ⟨hview, hs⟩ := reshEnvs_reshare ht2 (getElem?_of_index henv)
    exact ⟨(hkept i env hview).1, (hkept i env hview).2, hs⟩
  refine (send_allSent hsized).bind fun _ _ => ?_
  dsimp only
  split
  · exact Triple.throw trivial
  refine (step_allSent _).bind fun reconstruct _ => ?_
  have hmine : SendsSized k t (if reconstruct.sort (· ≤ ·) = [] then pure t2.mine
      else supplyRound me t sid ids (reconstruct.sort (· ≤ ·)) t2 view.supplies : NodeM F G (PartyMap F)) := by
    split
    · exact Triple.pure trivial
    · exact supplyRound_sized me sid hids (Finset.sort_nodup _ _) ht2 _
  refine hmine.bind fun mine _ => (step_allSent _).bind ?_
  rintro ⟨share, pub⟩ -
  exact Triple.pure trivial

/-! ## Lemmas: presigning and signing -/

theorem presignP1P3_sized (me : PartyId) (ht : 1 ≤ t.val) (sid : Bytes) {ids : List PartyId} (hids : ids.length ≤ k)
    (view : NonceView F G) : SendsSized k t (presignP1P3 me t sid ids view) := by
  unfold presignP1P3
  refine (tripleRun_sized me ht _ hids view.triple).bind ?_
  rintro ⟨t1, pub1⟩ -
  refine (jointVssRun_sized me ht _ _ _ hids view.u).bind fun uOut _ => ?_
  refine (jointVssRun_sized me ht _ _ _ hids view.a).bind fun aOut _ => ?_
  refine (send_allSent trivial).bind fun _ _ => (step_allSent _).bind ?_
  rintro ⟨deltas, epsilons⟩ -
  refine (step_allSent _).bind fun delta _ => (step_allSent _).bind fun eps _ => (step_allSent _).bind fun vCom _ => ?_
  refine (send_allSent trivial).bind fun _ _ => ?_
  refine (step_allSent _).bind fun vShares _ => (step_allSent _).bind fun v _ => (step_allSent _).bind fun vInv _ => ?_
  refine (send_allSent trivial).bind fun _ _ => (step_allSent _).bind ?_
  rintro ⟨bigR, r⟩ -
  exact Triple.pure trivial

theorem presignP1P3Robust_sized (me : PartyId) (ht : 1 ≤ t.val) (sid : Bytes) {ids : List PartyId}
    (hids : ids.length ≤ k) (view : NonceView F G) : SendsSized k t (presignP1P3Robust me t sid ids view) := by
  unfold presignP1P3Robust
  refine (tripleRun_sized me ht _ hids view.triple).bind ?_
  rintro ⟨t1, pub1⟩ -
  refine (jointVssRun_sized me ht _ _ _ hids view.u).bind fun uOut _ => ?_
  refine (jointVssRun_sized me ht _ _ _ hids view.a).bind fun aOut _ => ?_
  refine (send_allSent trivial).bind fun _ _ => (step_allSent _).bind ?_
  rintro ⟨deltas, epsilons⟩ -
  refine (step_allSent _).bind fun delta _ => (step_allSent _).bind fun eps _ => (step_allSent _).bind fun vCom _ => ?_
  refine (send_allSent trivial).bind fun _ _ => ?_
  refine (step_allSent _).bind fun vShares _ => (step_allSent _).bind fun v _ => (step_allSent _).bind fun vInv _ => ?_
  refine (send_allSent trivial).bind fun _ _ => (step_allSent _).bind ?_
  rintro ⟨bigR, r, blamed, active⟩ -
  exact Triple.pure trivial

theorem presignRun_sized (me : PartyId) (ht : 1 ≤ t.val) (sid : Bytes) (id : U64) (key : KeyShare F G)
    {ids : List PartyId} (hids : ids.length ≤ k) (view : PresignView F G) :
    SendsSized k t (presignRun me t sid id key ids view) := by
  unfold presignRun
  refine (presignP1P3_sized me ht sid hids _).bind ?_
  rintro ⟨uj, uCom, r, bigR⟩ -
  refine (tripleRun_sized me ht _ hids view.triple2).bind ?_
  rintro ⟨t2, pub2⟩ -
  refine (send_allSent trivial).bind fun _ _ => (step_allSent _).bind ?_
  rintro ⟨d2s, e2s⟩ -
  refine (step_allSent _).bind fun d2v _ => (step_allSent _).bind fun e2v _ => (step_allSent _).bind fun zCom _ => ?_
  exact Triple.pure trivial

theorem presignRobustRun_sized (me : PartyId) (ht : 1 ≤ t.val) (sid : Bytes) (id : U64) (key : KeyShare F G)
    {ids : List PartyId} (hids : ids.length ≤ k) (view : PresignView F G) :
    SendsSized k t (presignRobustRun me t sid id key ids view) := by
  unfold presignRobustRun
  refine (presignP1P3Robust_sized me ht sid hids _).bind ?_
  rintro ⟨uj, uCom, r, bigR, blamed, active⟩ -
  refine (tripleRun_sized me ht _ hids view.triple2).bind ?_
  rintro ⟨t2, pub2⟩ -
  refine (send_allSent trivial).bind fun _ _ => (step_allSent _).bind ?_
  rintro ⟨d2s, e2s⟩ -
  refine (step_allSent _).bind fun d2 _ => (step_allSent _).bind fun e2 _ => (step_allSent _).bind fun zCom _ => ?_
  exact Triple.pure trivial

theorem signScalarOver_sized (me : PartyId) (params : Params) (sid : Bytes) (presig : Presignature F G) (m : F)
    (ids : List PartyId) (view : AcceptedSet F G) : SendsSized k t (signScalarOver me params sid presig m ids view) := by
  unfold signScalarOver
  split
  · exact Triple.throw trivial
  · exact (send_allSent trivial).bind fun _ _ => step_allSent _

theorem signKiOpens_sized (me : PartyId) (params : Params) (ht : 1 ≤ params.t.val) (hids : params.parties.length ≤ k)
    (sid : Bytes) (presig : KiPresignature F G) (key : KeyShare F G) (view : KiView F G) :
    SendsSized k params.t (signKiOpens me params sid presig key view) := by
  unfold signKiOpens
  refine (tripleRun_sized me ht _ hids view.triple).bind ?_
  rintro ⟨share, pub⟩ -
  refine (send_allSent trivial).bind fun _ _ => (step_allSent _).bind ?_
  rintro ⟨deltas, epsilons⟩ -
  exact Triple.pure trivial

theorem signKiRun_sized (me : PartyId) (params : Params) (ht : 1 ≤ params.t.val) (hids : params.parties.length ≤ k)
    (sid : Bytes) (presig : KiPresignature F G) (key : KeyShare F G) (msg : Bytes) (view : KiView F G) :
    SendsSized k params.t (signKiRun me params sid presig key msg view) := by
  unfold signKiRun
  refine (signKiOpens_sized me params ht hids sid presig key view).bind ?_
  rintro ⟨share, pub, ⟨deltaCom, deltas⟩, epsCom, epsilons⟩ -
  refine (step_allSent _).bind fun delta _ => (step_allSent _).bind fun eps _ => (step_allSent _).bind fun zCom _ => ?_
  refine (send_allSent trivial).bind fun _ _ => (step_allSent _).bind fun shares _ => (step_allSent _).bind ?_
  rintro ⟨r, s⟩ -
  exact step_allSent _

theorem signKiRobustRun_sized (me : PartyId) (params : Params) (ht : 1 ≤ params.t.val)
    (hids : params.parties.length ≤ k) (sid : Bytes) (presig : KiPresignature F G) (key : KeyShare F G) (msg : Bytes)
    (view : KiView F G) : SendsSized k params.t (signKiRobustRun me params sid presig key msg view) := by
  unfold signKiRobustRun
  refine (signKiOpens_sized me params ht hids sid presig key view).bind ?_
  rintro ⟨share, pub, ⟨deltaCom, deltas⟩, epsCom, epsilons⟩ -
  refine (step_allSent _).bind ?_
  rintro ⟨delta, bD⟩ -
  refine (step_allSent _).bind ?_
  rintro ⟨eps, bE⟩ -
  refine (step_allSent _).bind fun zCom _ => ?_
  exact (send_allSent trivial).bind fun _ _ => step_allSent _

/-! ## Lemmas: restarts -/

theorem attemptAgain_le {me : PartyId} {st st' : NodeRestart} {e : Fault} (h : attemptAgain me t st e = .ok st') :
    st'.current.length ≤ st.current.length := by
  unfold attemptAgain at h
  split at h
  · next a =>
    obtain ⟨next, hnext, h⟩ := ok_of_bind h
    cases next with
    | none => cases h
    | some survivors =>
      obtain rfl := Except.ok.inj h
      have hcommittee : restartCommittee st.current a.blamed t = .ok survivors :=
        (@restartStep_some me t st.current st.blamedAll survivors a hnext).1
      unfold restartCommittee at hcommittee
      split at hcommittee
      · cases hcommittee
      · dsimp only at hcommittee
        split at hcommittee
        · cases hcommittee
        · rw [← Except.ok.inj hcommittee, List.length_insertionSort]
          exact List.length_filter_le _ _
  · cases h

/-- Attempts are over the committee or what is left of it. -/
theorem nodeRestartLoop_sized {α : Type} (me : PartyId) {run : NodeRestart → NodeM F G α}
    (hrun : ∀ st, st.current.length ≤ k → SendsSized k t (run st)) (fuel : Nat) (st : NodeRestart)
    (hst : st.current.length ≤ k) : SendsSized k t (nodeRestartLoop me t run fuel st) := by
  induction fuel generalizing st with
  | zero => exact Triple.pure trivial
  | succ fuel ih =>
    unfold nodeRestartLoop
    have hobserve : SendsSized k t (observe (run st)) := fun d hd => ⟨(hrun st hst d hd).1, trivial⟩
    refine hobserve.bind fun result _ => ?_
    cases result with
    | ok a => exact Triple.pure trivial
    | error e => exact (step_value _).bind fun st' hst' => ih st' ((attemptAgain_le hst').trans hst)

/-- **The sizes of what a driver sends.** -/
theorem DriverCall.run_sized [WireFormat F G] (me : PartyId) (call : DriverCall F G K) (ht : 1 ≤ call.t.val)
    (hkept : call.Kept me) : SendsSized call.ids.length call.t (call.run me) := by
  cases call with
  | jointVss t sid tag phase ids view =>
    exact (jointVssRun_sized me ht sid tag phase (Nat.le_refl _) view).bind fun _ _ => Triple.pure trivial
  | triple t sid ids view => exact (tripleRun_sized me ht sid (Nat.le_refl _) view).bind fun _ _ => Triple.pure trivial
  | tripleRobust w registry t sid ids view =>
    exact (tripleRobustRun_sized w registry me ht sid (Nat.le_refl _) fun _ _ henv => hkept.isReshare henv).bind
      fun _ _ => Triple.pure trivial
  | presign t sid id key ids view =>
    exact (presignRun_sized me ht sid id key (Nat.le_refl _) view).bind fun _ _ => Triple.pure trivial
  | presignRobust t sid id key ids view =>
    exact (presignRobustRun_sized me ht sid id key (Nat.le_refl _) view).bind fun _ _ => Triple.pure trivial
  | presignKi params sid id view =>
    refine Triple.bind (P := fun _ => True) ?_ fun _ _ => Triple.pure trivial
    exact (presignP1P3_sized me ht sid (Nat.le_refl _) view).bind fun _ _ => Triple.pure trivial
  | sign params sid presig m ids view =>
    exact (signScalarOver_sized me params sid presig m ids view).bind fun _ _ => Triple.pure trivial
  | signKi params sid presig key msg view =>
    exact (signKiRun_sized me params ht (Nat.le_refl _) sid presig key msg view).bind fun _ _ => Triple.pure trivial
  | signKiRobust params sid presig key msg view =>
    exact (signKiRobustRun_sized me params ht (Nat.le_refl _) sid presig key msg view).bind
      fun _ _ => Triple.pure trivial
  | keygenWithRestart params sid tag views fuel =>
    refine Triple.bind (P := fun _ => True) ?_ fun _ _ => Triple.pure trivial
    refine Triple.bind (P := fun _ => True) (nodeRestartLoop_sized me (fun st hst => ?_) fuel _ (Nat.le_refl _))
      fun _ _ => Triple.pure trivial
    exact jointVssRun_sized me ht _ _ _ hst _
  | presignWithRestart params sid firstId key start views fuel =>
    refine Triple.bind (P := fun _ => True) ?_ fun _ _ => Triple.pure trivial
    refine Triple.bind (P := fun _ => True) (nodeRestartLoop_sized me (fun st hst => ?_) fuel _ (Nat.le_refl _))
      fun _ _ => Triple.pure trivial
    exact presignRobustRun_sized me ht _ _ _ hst _

end Sends

end OhmEcdsa
