import OhmEcdsa.Core.Restarts
import OhmEcdsa.Node.Calls
import OhmEcdsa.Node.Slots

/-!
# Expel and restart (`party.rs`): every abort costs a member

An abort of a dealing or of a robust presigning names a member of the committee it
ran over, so each restart is over fewer parties, and the attempt counter of
`keygen_with_restart` and `presign_with_restart` never wraps:

    Triple (· = ·) (run st) ⊤ (Costs st.current) → attemptAgain me t st e = .ok st' →
      st'.current.length < st.current.length ∧ st'.attempt.val = st.attempt.val + 1     (attemptAgain_ok)

So the loops end, and no attempt goes over the sid of another.  With that, a node signs one
message in each slot, in all the calls of its life whose sids stand apart:

    calls.Pairwise (Apart ·.sid ·.sid) → OneEach (all that the calls send)              (drivers_speak_once)
-/

set_option linter.unusedSectionVars false

namespace OhmEcdsa

open Hoare FeldmanCommitment

variable {F G K : Type} [Field F] [DecidableEq F] [AddCommGroup G] [Module F G] [DecidableEq G] [K256 F G]

/-! ## Specification -/

namespace DriverCall

/-- The session id it is called with. -/
def sid : DriverCall F G K → Bytes
  | jointVss _ sid .. | triple _ sid .. | tripleRobust _ _ _ sid .. | presign _ sid .. | presignRobust _ sid .. => sid
  | presignKi _ sid .. | sign _ sid .. | signKi _ sid .. | signKiRobust _ sid .. => sid
  | keygenWithRestart _ sid .. | presignWithRestart _ sid .. => sid

/-- The slots of the driver, or of one of its attempts, in session `sid`. -/
def attemptPlan (me : PartyId) (sid : Bytes) : DriverCall F G K → List SlotKey
  | jointVss _ _ _ phase .. => vssPlan me sid phase
  | triple .. => triplePlan me sid
  | tripleRobust .. => tripleRobustPlan me sid
  | presign .. | presignRobust .. | presignWithRestart .. => presignPlan me sid
  | presignKi .. => noncePlan me sid
  | sign .. => slotsOf me sid .sign [SIGN_ROUND_SHARE]
  | signKi .. | signKiRobust .. => signKiPlan me sid
  | keygenWithRestart .. => vssPlan me sid .keyGen

def plan (me : PartyId) : DriverCall F G K → List SlotKey
  | c@(keygenWithRestart ..) | c@(presignWithRestart ..) => restartPlan (fun sid => c.attemptPlan me sid) c.sid
  | c => c.attemptPlan me c.sid

/-- What the call sends. -/
def sends (me : PartyId) (c : DriverCall F G K) (rng : Rngs F) : List (Envelope (NodePayload F G)) :=
  (c.run me ⟨rng, []⟩).2.sent

end DriverCall

/-- The slots of a plan are one party's, each comes once, and none is a retry's. -/
def OnceEach (plan : List SlotKey) : Prop :=
  (∀ key ∈ plan, key.party = 0) ∧ plan.Nodup ∧ ∀ key ∈ plan, ¬ utf8 "/retry-" <+: key.sid

instance (plan : List SlotKey) : Decidable (OnceEach plan) :=
  inferInstanceAs (Decidable ((∀ key ∈ plan, key.party = 0) ∧ plan.Nodup ∧ ∀ key ∈ plan, ¬ utf8 "/retry-" <+: key.sid))

/-- Neither sid begins with the other. -/
def Apart (sid sid' : Bytes) : Prop := ¬ sid <+: sid' ∧ ¬ sid' <+: sid

/-- An abort names one of `ids`. -/
def BlamesIn (ids : List PartyId) (e : Fault) : Prop := ∀ a, e = .error (.abort a) → ∃ p ∈ a.blamed, p ∈ ids

/-! ## Lemmas: what is no abort -/

section Leaves

variable {ids : List PartyId}

theorem blamesIn_abort {p : PartyId} (hp : p ∈ ids) (phase : Phase) (detail : String) :
    BlamesIn ids (abort phase [p] detail) := by
  rintro _ ⟨⟩
  exact ⟨p, List.mem_singleton.mpr rfl, hp⟩

theorem blamesIn_panic (msg : String) : BlamesIn ids (.panic msg) := nofun

theorem blamesIn_incomplete : BlamesIn ids incomplete := nofun

theorem BlamesIn.mono {ids' : List PartyId} (hsub : ids ⊆ ids') {e : Fault} (h : BlamesIn ids e) : BlamesIn ids' e := by
  intro a ha
  obtain ⟨p, hp, hmem⟩ := h a ha
  exact ⟨p, hp, hsub hmem⟩

theorem index_blames {ν : Type} (m : PartyMap ν) (i : PartyId) : Fails (BlamesIn ids) (index m i) := by
  unfold index
  split
  · exact Fails.ok _
  · exact Fails.error (blamesIn_panic _)

theorem nth_blames {α : Type} (l : List α) (k : Nat) : Fails (BlamesIn ids) (nth l k) := by
  unfold nth
  split
  · exact Fails.ok _
  · exact Fails.error (blamesIn_panic _)

theorem lagrangeCoeffsAt_blames (x : F) (parties : List PartyId) :
    Fails (BlamesIn ids) (lagrangeCoeffsAt x parties) := by
  refine Fails.mapM _ fun e _ => ?_
  dsimp only
  split
  · exact Fails.error (blamesIn_panic _)
  · exact Fails.ok _

theorem interpolateAt_blames (x : F) (parties : List PartyId) (shares : List F) :
    Fails (BlamesIn ids) (interpolateAt x parties shares) :=
  Fails.bind (lagrangeCoeffsAt_blames x parties) fun _ _ => Fails.ok _

theorem sum_blames (coms : List (FeldmanCommitment G)) : Fails (BlamesIn ids) (FeldmanCommitment.sum coms) := by
  unfold FeldmanCommitment.sum
  split
  · exact Fails.error (blamesIn_panic _)
  · exact Fails.ok _

theorem beaverCom_blames (pub : TriplePublic G) (delta eps : F) : Fails (BlamesIn ids) (beaverCom pub delta eps) := by
  unfold beaverCom addConst
  split
  · exact Fails.error (blamesIn_panic _)
  · exact Fails.ok _

theorem openRobust_blames (t : Usize) (com : FeldmanCommitment G) (shares : PartyMap F) (phase : Phase) :
    Fails (BlamesIn ids) (openRobust t com shares phase) := by
  unfold openRobust interpolateFirst interpolateAtZero
  dsimp only
  refine Fails.ite (fun _ => Fails.error nofun) fun _ => Fails.bind ?_ fun _ _ => Fails.ok _
  exact Fails.ite (fun _ => interpolateAt_blames _ _ _) fun _ => interpolateAt_blames _ _ _

theorem nonceScalar_blames (bigR : G) : Fails (BlamesIn ids) (nonceScalar bigR : Outcome F) := by
  unfold nonceScalar
  split
  · exact Fails.error (blamesIn_panic _)
  · exact Fails.ite (fun _ => Fails.error nofun) fun _ => Fails.ok _

theorem invertV_blames (v : F) : Fails (BlamesIn ids) (invertV v) := by
  unfold invertV
  split
  · exact Fails.error nofun
  · exact Fails.ok _

/-! ### Draws -/

theorem send_blames (env : Envelope (NodePayload F G)) :
    Triple (fun _ => True) (send env) (fun _ => True) (BlamesIn ids) := fun _ _ => ⟨trivial, trivial⟩

theorem draw_blames {α : Type} {m : RngM F α} (h : Triple (fun _ => True) m (fun _ => True) (BlamesIn ids)) :
    Triple (fun _ => True) (draw m : NodeM F G α) (fun _ => True) (BlamesIn ids) :=
  fun d _ => ⟨trivial, (h d.rng trivial).2⟩

theorem randomScalar_blames (k : Nat) :
    Triple (fun _ => True) (randomScalar k : RngM F F) (fun _ => True) (BlamesIn ids) := by
  intro s _
  refine ⟨trivial, ?_⟩
  cases hk : s.rngs[k]? with
  | none =>
    rw [randomScalar_none hk]
    exact blamesIn_panic _
  | some r =>
    rw [randomScalar_some hk]
    trivial

theorem random_blames (secret : F) (t : Usize) (k : Nat) :
    Triple (fun _ => True) (ShamirPoly.random secret t k) (fun _ => True) (BlamesIn ids) :=
  (Triple.mapM _ fun _ _ => randomScalar_blames k).bind fun _ _ => Triple.pure trivial

theorem startCommittee_blames (committee : Committee) (sid tag : Bytes) (me : PartyId) (k : Nat) :
    Triple (fun _ => True) (DkgInstance.startCommittee (F := F) (G := G) committee sid tag me k) (fun _ => True)
      (BlamesIn ids) :=
  (randomScalar_blames k).bind fun secret _ =>
    (random_blames secret committee.t k).bind fun _ _ => Triple.pure trivial

theorem prove_blames (sid tag : Bytes) (x : F) (g1 g2 : G) (k : Nat) :
    Triple (fun _ => True) (DleqProof.prove sid tag x g1 g2 k) (fun _ => True) (BlamesIn ids) :=
  (randomScalar_blames k).bind fun _ _ => Triple.pure trivial

end Leaves

/-! ## Lemmas: whom an attempt blames -/

section Blame

variable (ids : List PartyId)

theorem parseSet_blames {α : Type} (phase : Phase) (detail : String) (pick : PartyId → NodePayload F G → Option α)
    (set : AcceptedSet F G) : Fails (BlamesIn ids) (parseSet phase detail pick (acceptedOver ids set)) := by
  rw [parseSet_eq]
  cases hm : firstMalformed pick (acceptedOver ids set) with
  | some f => exact Fails.error (blamesIn_abort (firstMalformed_some hm).1 _ _)
  | none => exact Fails.ok _

theorem compareReveals_blames (t : Usize) (sid tag : Bytes) (phase : Phase) (me : PartyId) (r1 : PartyMap DkgBcast1)
    (r2 : PartyMap (DkgBcast2 G)) (mine : PartyMap F) :
    Fails (BlamesIn ids) (compareReveals t sid tag phase me ids r1 r2 mine) := by
  unfold compareReveals
  refine Fails.bind (Fails.forM _ fun i hi => ?_) fun _ _ => ?_
  · unfold checkReveal
    refine Fails.bind (index_blames _ _) fun b2 _ => Fails.ite (fun _ => Fails.error (blamesIn_abort hi _ _)) fun _ => ?_
    refine Fails.bind (index_blames _ _) fun b1 _ => ?_
    exact Fails.ite (fun _ => Fails.error (blamesIn_abort hi _ _)) fun _ => Fails.ok _
  · refine Fails.bind (Fails.mapM _ fun i _ => ?_) fun _ _ => Fails.ok _
    exact Fails.bind (index_blames _ _) fun b2 _ => Fails.bind (index_blames _ _) fun s _ => Fails.ok _

theorem vssChecks_blames (t : Usize) (sid tag : Bytes) (phase : Phase) (me : PartyId) (view : VssView F G) :
    Fails (BlamesIn ids) (vssChecks t sid tag phase me ids view) := by
  unfold vssChecks
  refine Fails.ite (fun _ => Fails.error blamesIn_incomplete) fun _ => ?_
  refine Fails.bind (parseSet_blames ids _ _ _ _) fun r1 _ => ?_
  refine Fails.bind (parseSet_blames ids _ _ _ _) fun r2 _ => ?_
  refine Fails.bind (parseSet_blames ids _ _ _ _) fun mine _ => ?_
  exact Fails.bind (compareReveals_blames ids _ _ _ _ _ _ _ _) fun _ _ => Fails.ok _

theorem adjudicate_blames (phase : Phase) {verifies : PartyId → PartyId → F → Outcome Bool}
    (hv : ∀ d a s, Fails (BlamesIn ids) (verifies d a s)) {lists : List (PartyId × List PartyId)}
    (hlists : ∀ e ∈ lists, e.1 ∈ ids) (defenseView : AcceptedSet F G) :
    Fails (BlamesIn ids) (adjudicate phase verifies lists (acceptedOver ids defenseView)) := by
  unfold adjudicate
  split
  · exact Fails.ok _
  · next a d hfirst =>
    obtain ⟨list, hmem, -⟩ := mem_of_firstComplaint hfirst
    have ha : a ∈ ids := hlists _ hmem
    refine Fails.bind (index_blames _ _) fun payload hp => ?_
    have hd : d ∈ ids := by
      by_contra hd
      unfold index at hp
      rw [acceptedOver_getElem?, if_neg hd] at hp
      cases hp
    split
    · split
      · exact Fails.error (blamesIn_abort hd _ _)
      · refine Fails.bind (hv _ _ _) fun ok _ => ?_
        exact Fails.ite (fun _ => Fails.error (blamesIn_abort ha _ _)) fun _ => Fails.error (blamesIn_abort hd _ _)
    · exact Fails.error (blamesIn_abort hd _ _)

theorem complaintRound_blames (me : PartyId) (sid : Bytes) (phase : Phase) (rounds : Nat × Nat)
    (complaints : List PartyId) (defenseFor : PartyId → F) {verifies : PartyId → PartyId → F → Outcome Bool}
    (hv : ∀ d a s, Fails (BlamesIn ids) (verifies d a s)) (complaintView defenseView : AcceptedSet F G) :
    Triple (fun _ => True) (complaintRound me sid phase rounds ids complaints defenseFor verifies complaintView
      defenseView) (fun _ => True) (BlamesIn ids) := by
  intro d _
  refine ⟨trivial, ?_⟩
  obtain ⟨sent, hrun, -⟩ := complaintRound_run me sid phase rounds ids complaints defenseFor verifies complaintView
    defenseView d
  rw [hrun]
  suffices h : Fails (BlamesIn ids) (complaintVerdict phase ids verifies complaintView defenseView) by
    cases hx : complaintVerdict phase ids verifies complaintView defenseView with
    | ok _ => trivial
    | error e => exact h e hx
  unfold complaintVerdict
  refine Fails.ite (fun _ => Fails.error blamesIn_incomplete) fun _ => ?_
  split
  · next f hm => exact Fails.error (blamesIn_abort (firstMalformed_some hm).1 _ _)
  · refine Fails.ite (fun _ => Fails.error blamesIn_incomplete) fun _ => adjudicate_blames ids phase hv ?_ defenseView
    rintro ⟨a, list⟩ he
    exact (mem_complaintLists.mp he).1

/-- An abort over `ids` names one of them, and they are fewer than `2 ^ 64`. -/
def Costs (e : Fault) : Prop := ∀ a, e = .error (.abort a) → ids.length < 2 ^ 64 ∧ ∃ p ∈ a.blamed, p ∈ ids

theorem BlamesIn.costs {ids : List PartyId} (hlen : ids.length < 2 ^ 64) {e : Fault} (h : BlamesIn ids e) : Costs ids e :=
  fun a ha => ⟨hlen, h a ha⟩

theorem committee_new_length {t : Usize} {c : Committee} (h : Committee.new ids t = .ok c) : ids.length < 2 ^ 64 := by
  have hlen := c.length_lt
  rwa [(Committee.new_ok h).1, List.length_insertionSort] at hlen

theorem committee_new_costs (t : Usize) : Fails (Costs ids) (Committee.new ids t) := by
  intro e he a ha
  rw [ha] at he
  unfold Committee.new at he
  dsimp only at he
  repeat' split at he
  all_goals cases he

/-- **A dealing** over `ids`. -/
theorem jointVssRun_costs (me : PartyId) (t : Usize) (sid tag : Bytes) (phase : Phase) (view : VssView F G) :
    Triple (fun _ => True) (jointVssRun me t sid tag phase ids view) (fun _ => ids.length < 2 ^ 64) (Costs ids) := by
  unfold jointVssRun
  refine (Fails.lift (committee_new_costs ids t) fun c hc => committee_new_length ids hc).bind fun c hlen => ?_
  suffices h : Triple (fun _ => True) _ (fun _ => True) (BlamesIn ids) from
    h.conseq (fun _ _ => hlen) fun e he => he.costs hlen
  refine (draw_blames (startCommittee_blames _ _ _ _ _)).bind ?_
  rintro ⟨inst, b1⟩ -
  refine (send_blames _).bind fun _ _ => ?_
  have hreveal : Fails (BlamesIn ids) inst.reveal := by
    unfold DkgInstance.reveal addConst
    split
    · split
      · exact Fails.error (blamesIn_panic _)
      · exact Fails.ok _
    · exact Fails.ok _
  refine hreveal.step.bind ?_
  rintro ⟨b2, shares⟩ -
  refine (send_blames _).bind fun _ _ => ?_
  have hshares : Triple (fun _ => True) (shares.forM fun s =>
      send (Envelope.p2p sid phase VSS_ROUND_REVEAL me s.addressee (.dkg (.share s : DkgMessage F G))))
      (fun _ => True) (BlamesIn ids) := fun d _ => by rw [forM_send_run]; exact ⟨trivial, trivial⟩
  refine hshares.bind fun _ _ => ?_
  refine (vssChecks_blames ids t sid tag phase me view).step.bind ?_
  rintro ⟨r2, mine, complaints⟩ -
  refine (complaintRound_blames ids me sid phase _ _ _ (fun d a s => ?_) _ _).bind fun _ _ => ?_
  · exact Fails.bind (index_blames _ _) fun _ _ => Fails.ok _
  · refine Fails.lift (Fails.bind (Fails.mapM _ fun i _ => ?_) fun _ _ => ?_) fun _ _ => trivial
    · exact Fails.bind (index_blames _ _) fun _ _ => Fails.bind (index_blames _ _) fun _ _ => Fails.ok _
    · exact Fails.bind (sum_blames _) fun _ _ => Fails.ok _

theorem collectT2_blames (sent : PartyId → F) (view : TripleView F G) :
    Fails (BlamesIn ids) (collectT2 ids sent view) := by
  unfold collectT2
  refine Fails.ite (fun _ => Fails.error blamesIn_incomplete) fun _ => ?_
  refine Fails.bind (parseSet_blames ids _ _ _ _) fun deals _ => ?_
  exact Fails.bind (parseSet_blames ids _ _ _ _) fun mine _ => Fails.ok _

theorem tripleCheckProofs_blames (sid : Bytes) (deals : PartyMap (TripleDealMsg F G)) (ca cb : FeldmanCommitment G) :
    Fails (BlamesIn ids) (tripleCheckProofs (F := F) sid ids deals ca cb) := by
  refine Fails.forM _ fun i hi => Fails.bind (index_blames _ _) fun d _ => Fails.bind ?_ fun invalid _ => ?_
  · unfold tripleProofFails
    refine Fails.ite (fun _ => Fails.ok _) fun _ => Fails.bind (nth_blames _ _) fun p0 _ => ?_
    exact Fails.ite (fun _ => Fails.ok _) fun _ => Fails.ok _
  · exact Fails.ite (fun _ => Fails.error (blamesIn_abort hi _ _)) fun _ => Fails.ok _

theorem tripleCombine_blames (me : PartyId) (alpha beta : KeyShare F G) (deals : PartyMap (TripleDealMsg F G))
    (mine : PartyMap F) : Fails (BlamesIn ids) (tripleCombine me ids alpha beta deals mine) := by
  unfold tripleCombine
  refine Fails.bind (lagrangeCoeffsAt_blames _ _) fun lambdas _ => ?_
  refine Fails.bind (Fails.mapM _ fun e _ => Fails.bind (index_blames _ _) fun _ _ => Fails.ok _) fun scaled _ => ?_
  refine Fails.bind (Fails.mapM _ fun e _ => Fails.bind (index_blames _ _) fun _ _ => Fails.ok _) fun terms _ => ?_
  split
  · exact Fails.error (blamesIn_panic _)
  · exact Fails.ok _

/-- **A triple** over `ids`. -/
theorem tripleRun_costs (me : PartyId) (t : Usize) (sid : Bytes) (view : TripleView F G) :
    Triple (fun _ => True) (tripleRun me t sid ids view) (fun _ => ids.length < 2 ^ 64) (Costs ids) := by
  unfold tripleRun tripleT1T2
  simp only [bind_assoc]
  refine (jointVssRun_costs ids me t _ _ _ _).bind fun alpha hlen => ?_
  suffices h : Triple (fun _ => True) _ (fun _ => True) (BlamesIn ids) from
    h.conseq (fun _ _ => hlen) fun e he => he.costs hlen
  refine Triple.bind (P := fun _ => True) ((jointVssRun_costs ids me t _ _ _ _).conseq (fun _ _ => trivial)
    fun e he a ha => (he a ha).2) fun beta _ => ?_
  refine (draw_blames (random_blames _ _ _)).bind fun g _ => ?_
  refine (draw_blames (prove_blames _ _ _ _ _ _)).bind ?_
  rintro ⟨x1, x2, proof⟩ -
  refine (send_blames _).bind fun _ _ => ?_
  have hshares : Triple (fun _ => True) (ids.forM fun i =>
      send (Envelope.p2p sid .triples TR_ROUND_DEAL me i (.reshare (g.eval i) : NodePayload F G)))
      (fun _ => True) (BlamesIn ids) := fun d _ => by rw [forM_send_run]; exact ⟨trivial, trivial⟩
  refine hshares.bind fun _ _ => ?_
  refine (collectT2_blames ids _ view).step.bind fun t2 _ => ?_
  simp only [pure_bind]
  refine (tripleCheckProofs_blames ids _ _ _ _).step.bind fun _ _ => ?_
  have hbad : Fails (BlamesIn ids) (badReshares me ids t2) := by
    refine Fails.bind (Fails.mapM _ fun i _ => ?_) fun _ _ => Fails.ok _
    exact Fails.bind (index_blames _ _) fun _ _ => Fails.bind (index_blames _ _) fun _ _ => Fails.ok _
  refine hbad.step.bind fun complaints _ => ?_
  refine (complaintRound_blames ids me sid .triples _ _ _ (fun d a s => ?_) _ _).bind fun _ _ => ?_
  · exact Fails.bind (index_blames _ _) fun _ _ => Fails.ok _
  · exact (tripleCombine_blames ids me alpha beta _ _).step

theorem collectOpenShares_blames (phase : Phase) (view : AcceptedSet F G) :
    Fails (BlamesIn ids) (collectOpenShares phase ids view) := by
  unfold collectOpenShares
  refine Fails.ite (fun _ => Fails.error blamesIn_incomplete) fun _ => ?_
  exact Fails.bind (parseSet_blames ids _ _ _ _) fun _ _ => Fails.ok _

theorem collectBeaverOpens_blames (phase : Phase) (view : AcceptedSet F G) :
    Fails (BlamesIn ids) (collectBeaverOpens phase ids view) := by
  unfold collectBeaverOpens
  refine Fails.ite (fun _ => Fails.error blamesIn_incomplete) fun _ => ?_
  exact Fails.bind (parseSet_blames ids _ _ _ _) fun _ _ => Fails.ok _

theorem nonceRoundRobust_blames (t : Usize) (kCom : FeldmanCommitment G) (blamed : List PartyId)
    (view : AcceptedSet F G) :
    Fails (BlamesIn ids) (nonceRoundRobust t kCom blamed ids view : Outcome (G × F × _)) := by
  unfold nonceRoundRobust
  refine Fails.ite (fun _ => Fails.error blamesIn_incomplete) fun _ => ?_
  refine Fails.bind (Fails.foldlM _ (fun e he out => ?_) _) fun filed _ => ?_
  · have hmem := (mem_acceptedOver.mp he).1
    unfold fileNonce
    split
    · exact Fails.ite (fun _ => Fails.ok _) fun _ => Fails.ok _
    · exact Fails.error (blamesIn_abort hmem _ _)
  · refine Fails.ite (fun _ => Fails.error nofun) fun _ => ?_
    refine Fails.bind (lagrangeCoeffsAt_blames _ _) fun _ _ => ?_
    exact Fails.bind (nonceScalar_blames _) fun _ _ => Fails.ok _

theorem expelSorted_subset (blamed active new : List PartyId) : (expelSorted blamed active new).2 ⊆ active := by
  unfold expelSorted
  rw [expel_active]
  exact fun _ hp => (List.mem_filter.mp hp).1

theorem nonceRoundRobust_active {t : Usize} {kCom : FeldmanCommitment G} {blamed active : List PartyId}
    {view : AcceptedSet F G} {out : G × F × List PartyId × List PartyId}
    (h : nonceRoundRobust t kCom blamed active view = .ok out) : out.2.2.2 ⊆ active := by
  unfold nonceRoundRobust at h
  dsimp only at h
  split at h
  · cases h
  cases hfile : (acceptedOver active view).toList.foldlM (fileNonce kCom) ([], []) with
  | error e =>
    rw [hfile] at h
    cases h
  | ok filed =>
    simp only [hfile, bind, Except.bind] at h
    split at h
    · cases h
    · cases hlag : (lagrangeCoeffs (filed.1.map (·.1)) : Outcome (List F)) with
      | error e =>
        rw [hlag] at h
        cases h
      | ok lambdas =>
        simp only [hlag] at h
        cases hr : (nonceScalar (interpolatePoints lambdas (filed.1.map (·.2))) : Outcome F) with
        | error e =>
          rw [hr] at h
          cases h
        | ok r =>
          simp only [hr] at h
          cases h
          exact expelSorted_subset _ _ _

/-- P1–P3 of a robust presigning over `ids`. -/
theorem presignP1P3Robust_costs (me : PartyId) (t : Usize) (sid : Bytes) (view : NonceView F G) :
    Triple (fun _ => True) (presignP1P3Robust me t sid ids view)
      (fun out => ids.length < 2 ^ 64 ∧ out.2.2.2.2.2 ⊆ ids) (Costs ids) := by
  unfold presignP1P3Robust
  refine (tripleRun_costs ids me t _ _).bind fun first hlen => ?_
  obtain ⟨t1, pub1⟩ := first
  suffices h : Triple (fun _ => True) _ (fun out : F × FeldmanCommitment G × F × G × List PartyId × List PartyId => out.2.2.2.2.2 ⊆ ids)
      (BlamesIn ids) from
    h.conseq (fun _ hsub => ⟨hlen, hsub⟩) fun e he => he.costs hlen
  have hvss : ∀ (sid tag : Bytes) (view : VssView F G), Triple (fun _ => True)
      (jointVssRun me t sid tag .presign ids view) (fun _ => True) (BlamesIn ids) := fun sid tag view =>
    (jointVssRun_costs ids me t sid tag .presign view).conseq (fun _ _ => trivial) fun e he a ha => (he a ha).2
  refine (hvss _ _ _).bind fun uOut _ => (hvss _ _ _).bind fun aOut _ => ?_
  refine (send_blames _).bind fun _ _ => ?_
  refine (collectBeaverOpens_blames ids _ _).step.bind ?_
  rintro ⟨deltas, epsilons⟩ -
  refine (openRobust_blames _ _ _ _).step.bind ?_
  rintro ⟨delta, bD⟩ -
  refine (openRobust_blames _ _ _ _).step.bind ?_
  rintro ⟨eps, bE⟩ -
  dsimp only
  -- the parties left are members
  have hsub : (expelSorted (expelSorted [] ids bD).1 (expelSorted [] ids bD).2 bE).2 ⊆ ids :=
    fun p hp => expelSorted_subset _ _ _ (expelSorted_subset _ _ _ hp)
  generalize expelSorted (expelSorted [] ids bD).1 (expelSorted [] ids bD).2 bE = left at hsub
  refine (beaverCom_blames _ _ _).step.bind fun vCom _ => (send_blames _).bind fun _ _ => ?_
  refine ((collectOpenShares_blames left.2 _ _).mono fun _ he => he.mono hsub).step.bind fun vShares _ => ?_
  refine (openRobust_blames _ _ _ _).step.bind ?_
  rintro ⟨v, bV⟩ -
  dsimp only
  have hsub' : (expelSorted left.1 left.2 bV).2 ⊆ ids := fun p hp => hsub (expelSorted_subset _ _ _ hp)
  generalize expelSorted left.1 left.2 bV = left' at hsub'
  refine (invertV_blames v).step.bind fun vInv _ => (send_blames _).bind fun _ _ => ?_
  refine (((nonceRoundRobust_blames left'.2 t _ _ _).mono fun _ he => he.mono hsub').lift
    (P := fun nonce => nonce.2.2.2 ⊆ ids) fun nonce hn p hp => hsub' (nonceRoundRobust_active hn hp)).bind ?_
  rintro ⟨bigR, r, blamed, active⟩ hactive
  exact Triple.pure hactive

/-- **A robust presigning** over `ids`. -/
theorem presignRobustRun_costs (me : PartyId) (t : Usize) (sid : Bytes) (id : U64) (key : KeyShare F G)
    (view : PresignView F G) :
    Triple (fun _ => True) (presignRobustRun me t sid id key ids view) (fun _ => ids.length < 2 ^ 64)
      (Costs ids) := by
  unfold presignRobustRun
  refine (presignP1P3Robust_costs ids me t sid _).bind ?_
  rintro ⟨uj, uCom, r, bigR, blamed, active⟩ ⟨hlen, hsub⟩
  refine (tripleRun_costs ids me t _ _).bind ?_
  rintro ⟨t2, pub2⟩ -
  suffices h : Triple (fun _ => True) _ (fun _ => True) (BlamesIn ids) from
    h.conseq (fun _ _ => hlen) fun e he => he.costs hlen
  refine (send_blames _).bind fun _ _ => ?_
  refine ((collectBeaverOpens_blames active _ _).mono fun _ he => he.mono hsub).step.bind ?_
  rintro ⟨d2s, e2s⟩ -
  refine (openRobust_blames _ _ _ _).step.bind ?_
  rintro ⟨d2v, bD2⟩ -
  refine (openRobust_blames _ _ _ _).step.bind ?_
  rintro ⟨e2v, bE2⟩ -
  exact (beaverCom_blames _ _ _).step.bind fun zCom _ => Triple.pure trivial

end Blame

/-! ## The loop -/

theorem restartCommittee_length {current blamed survivors : List PartyId} {t : Usize}
    (h : restartCommittee current blamed t = .ok survivors) {p : PartyId} (hp : p ∈ blamed) (hmem : p ∈ current) :
    survivors.length < current.length := by
  unfold restartCommittee at h
  split at h
  · cases h
  · dsimp only at h
    split at h
    · cases h
    · cases h
      rw [List.length_insertionSort]
      exact List.length_filter_lt_length_iff_exists.mpr ⟨p, hmem, by simpa using hp⟩

/-- **The next attempt is over fewer parties**, this node among them, and has the next number. -/
theorem attemptAgain_ok {me : PartyId} {t : Usize} {st st' : NodeRestart} {e : Fault} (he : Costs st.current e)
    (h : attemptAgain me t st e = .ok st') :
    st.current.length < 2 ^ 64 ∧ st'.current.length < st.current.length ∧ me ∈ st'.current ∧
      st'.attempt = st.attempt + 1 := by
  unfold attemptAgain at h
  split at h
  · next a =>
    obtain ⟨hlen, p, hp, hmem⟩ := he a rfl
    dsimp only at h
    cases hr : (restartStep me t st.current st.blamedAll a).2 with
    | error e =>
      rw [hr] at h
      cases h
    | ok next =>
      rw [hr] at h
      cases next with
      | none => cases h
      | some survivors =>
        cases h
        obtain ⟨hcommittee, hme⟩ := restartStep_some hr
        exact ⟨hlen, restartCommittee_length hcommittee hp hmem, hme, rfl⟩
  · cases h

section Loop

variable {α κ : Type} {me : PartyId} {t : Usize} {run : NodeRestart → NodeM F G α}

theorem observe_triple {m : NodeM F G α} {P : α → Prop} {E : Fault → Prop} (h : Triple (fun _ => True) m P E) :
    Triple (fun _ => True) (observe m) (fun r => ∀ e, r = .error e → E e) (fun _ => False) := by
  intro d _
  refine ⟨trivial, fun e he => ?_⟩
  have hr := (h d trivial).2
  rw [show (m d).1 = .error e from he] at hr
  exact hr

variable (me t) in
/-- **No attempt number comes twice**: the loop logs what its attempts log, in order of
their numbers, which stay below `2 ^ 64`. -/
theorem nodeRestartLoop_follows {out : Driver F G → List κ} (plan : U64 → List κ)
    (hrun : ∀ st, Follows out (plan st.attempt) (run st))
    (hcosts : ∀ st, Triple (fun _ => True) (run st) (fun _ => st.current.length < 2 ^ 64) (Costs st.current))
    (fuel : Nat) (st : NodeRestart) (hst : st.attempt = 0 ∨ st.attempt.val + st.current.length < 2 ^ 64) (n : Nat)
    (hn : st.attempt.val + n = 2 ^ 64) :
    Follows out ((List.range' st.attempt.val n).flatMap fun k => plan (Fin.ofNat (2 ^ 64) k))
      (nodeRestartLoop me t run fuel st) := by
  induction fuel generalizing st n with
  | zero => exact (Follows.pure _).idle
  | succ fuel ih =>
    obtain ⟨n, rfl⟩ : ∃ m, n = m + 1 := Nat.exists_eq_succ_of_ne_zero (by omega)
    have hattempt : Fin.ofNat (2 ^ 64) st.attempt.val = st.attempt := Fin.ofNat_val_eq_self st.attempt
    rw [List.range'_succ, List.flatMap_cons, hattempt]
    unfold nodeRestartLoop
    have hlog : Follows out (plan st.attempt) (observe (run st)) := fun d => hrun st d
    refine hlog.bind_of (observe_triple (hcosts st)) fun result hresult => ?_
    cases result with
    | ok a => exact (Follows.pure _).idle
    | error e =>
      have hagain : Triple (fun _ => True) (Hoare.lift (attemptAgain me t st e) : NodeM F G _)
          (fun st' => attemptAgain me t st e = .ok st') fun _ => True :=
        Triple.lift (fun _ h => h) fun _ _ => trivial
      refine Follows.bind_of (Follows.lift _) hagain fun st' hst' => ?_
      obtain ⟨hlen, hless, hme, hnext⟩ := attemptAgain_ok (hresult e rfl) hst'
      have hpos := List.length_pos_of_mem hme
      -- one party fewer pays for the attempt: the counter does not wrap
      have hlt : st.attempt.val + 1 < 2 ^ 64 := by
        rcases hst with h0 | h0
        · rw [h0]
          decide
        · omega
      have hval : st'.attempt.val = st.attempt.val + 1 := by
        rw [hnext]
        exact Fin.val_add_one_of_lt' hlt
      rw [← hval]
      refine ih st' (Or.inr ?_) n (by omega)
      rcases hst with h0 | h0
      · rw [h0] at hval
        have : (0 : U64).val = 0 := rfl
        omega
      · omega

/-- **The loop ends** within as many attempts as there are parties. -/
theorem nodeRestartLoop_returns
    (hcosts : ∀ st, Triple (fun _ => True) (run st) (fun _ => st.current.length < 2 ^ 64) (Costs st.current))
    (fuel : Nat) (st : NodeRestart) (hfuel : st.current.length < fuel) :
    Triple (fun _ => True) (nodeRestartLoop me t run fuel st) (fun out => out.isSome = true) (fun _ => True) := by
  induction fuel generalizing st with
  | zero => omega
  | succ fuel ih =>
    unfold nodeRestartLoop
    refine ((observe_triple (hcosts st)).conseq (fun _ h => h) fun _ h => h.elim).bind fun result hresult => ?_
    cases result with
    | ok a => exact Triple.pure rfl
    | error e =>
      refine (Triple.lift (P := fun st' => attemptAgain me t st e = .ok st') (fun _ h => h)
        fun _ _ => trivial).bind fun st' hst' => ?_
      obtain ⟨-, hless, -⟩ := attemptAgain_ok (hresult e rfl) hst'
      exact ih st' (by omega)

end Loop

/-- **Key generation with restarts returns**: a share or an error. -/
theorem keygenWithRestart_returns (me : PartyId) (params : Params) (sid tag : Bytes) (views : U64 → VssView F G)
    (fuel : Nat) (hfuel : params.n.val < fuel) :
    Triple (fun _ => True) (keygenWithRestart me params sid tag views fuel) (fun out => out.isSome = true)
      (fun _ => True) := by
  refine (nodeRestartLoop_returns (fun st => jointVssRun_costs st.current me params.t _ _ _ _) fuel _ ?_).bind
    fun out hout => Triple.pure ?_
  · rwa [Params.parties, List.length_map, List.length_range]
  · rwa [Option.isSome_map]

theorem presignWithRestartOver_returns (me : PartyId) (params : Params) (sid : Bytes) (firstId : U64)
    (key : KeyShare F G) (start : List PartyId) (views : U64 → PresignView F G) (fuel : Nat)
    (hfuel : start.length < fuel) :
    Triple (fun _ => True) (presignWithRestartOver me params sid firstId key start views fuel)
      (fun out => out.isSome = true) (fun _ => True) :=
  (nodeRestartLoop_returns (fun st => presignRobustRun_costs st.current me params.t _ _ _ _) fuel _ hfuel).bind
    fun out hout => Triple.pure (by rwa [Option.isSome_map])

/-! ## Lemmas: the plan of a call -/

namespace DriverCall

/-- A plan is that of the empty sid, moved. -/
theorem attemptPlan_eq (me : PartyId) (sid : Bytes) (c : DriverCall F G K) :
    c.attemptPlan me sid = (c.attemptPlan 0 []).map (slotIn sid me) := by
  cases c <;>
    simp [attemptPlan, signKiPlan, presignPlan, noncePlan, tripleRobustPlan, triplePlan, dealPlan, vssPlan, slotsOf, slotIn]

theorem attemptPlan_once (c : DriverCall F G K) : OnceEach (c.attemptPlan 0 []) := by
  have hvss : ∀ phase, OnceEach (vssPlan 0 [] phase) := by
    intro phase
    cases phase <;> decide +kernel
  have hnonce : OnceEach (noncePlan 0 []) := by decide +kernel
  have hpresign : OnceEach (presignPlan 0 []) := by decide +kernel
  have hki : OnceEach (signKiPlan 0 []) := by decide +kernel
  cases c with
  | jointVss t sid tag phase ids view => exact hvss phase
  | triple => exact (by decide +kernel : OnceEach (triplePlan 0 []))
  | tripleRobust => exact (by decide +kernel : OnceEach (tripleRobustPlan 0 []))
  | sign => exact (by decide +kernel : OnceEach (slotsOf 0 [] .sign [SIGN_ROUND_SHARE]))
  | presign | presignRobust | presignWithRestart => exact hpresign
  | presignKi => exact hnonce
  | signKi | signKiRobust => exact hki
  | keygenWithRestart => exact hvss .keyGen

theorem attemptPlan_nodup (me : PartyId) (sid : Bytes) (c : DriverCall F G K) : (c.attemptPlan me sid).Nodup := by
  rw [attemptPlan_eq]
  exact nodup_slotIn sid me c.attemptPlan_once.1 c.attemptPlan_once.2.1

theorem mem_attemptPlan {me : PartyId} {sid : Bytes} {c : DriverCall F G K} {key : SlotKey} (h : key ∈ c.attemptPlan me sid) :
    ∃ s, key.sid = sid ++ s ∧ ¬ utf8 "/retry-" <+: s := by
  rw [attemptPlan_eq] at h
  obtain ⟨key₀, hkey₀, rfl⟩ := List.mem_map.mp h
  exact ⟨key₀.sid, rfl, c.attemptPlan_once.2.2 key₀ hkey₀⟩

/-- No slot comes in two attempts. -/
theorem restartPlan_nodup (me : PartyId) (c : DriverCall F G K) (sid : Bytes) :
    (restartPlan (fun sid => c.attemptPlan me sid) sid).Nodup := by
  refine List.nodup_flatMap.mpr ⟨fun k _ => c.attemptPlan_nodup me _, ?_⟩
  refine (List.nodup_range' : (List.range' 0 (2 ^ 64)).Nodup).pairwise_of_forall_ne fun a ha b hb hab => ?_
  refine List.disjoint_left.mpr fun key hkey hkey' => hab ?_
  obtain ⟨s, hs, hretry⟩ := mem_attemptPlan hkey
  obtain ⟨s', hs', hretry'⟩ := mem_attemptPlan hkey'
  have heq := poisonSid_cancel hretry hretry' (hs.symm.trans hs')
  have hval := congrArg Fin.val heq
  rw [List.mem_range'_1] at ha hb
  rwa [Fin.val_ofNat, Fin.val_ofNat, Nat.mod_eq_of_lt (by omega), Nat.mod_eq_of_lt (by omega)] at hval

theorem plan_cases (me : PartyId) (c : DriverCall F G K) :
    c.plan me = c.attemptPlan me c.sid ∨ c.plan me = restartPlan (fun sid => c.attemptPlan me sid) c.sid := by
  cases c
  case keygenWithRestart | presignWithRestart => exact Or.inr rfl
  all_goals exact Or.inl rfl

theorem plan_nodup (me : PartyId) (c : DriverCall F G K) : (c.plan me).Nodup := by
  rcases c.plan_cases me with h | h
  · rw [h]
    exact c.attemptPlan_nodup me _
  · rw [h]
    exact c.restartPlan_nodup me _

theorem mem_plan {me : PartyId} {c : DriverCall F G K} {key : SlotKey} (h : key ∈ c.plan me) : c.sid <+: key.sid := by
  have hattempt : ∀ sid, key ∈ c.attemptPlan me sid → sid <+: key.sid := fun sid hkey =>
    (mem_attemptPlan hkey).elim fun s hs => ⟨s, hs.1.symm⟩
  have hrestart : key ∈ restartPlan (fun sid => c.attemptPlan me sid) c.sid → c.sid <+: key.sid := by
    intro hkey
    obtain ⟨k, -, hkey⟩ := List.mem_flatMap.mp hkey
    refine List.IsPrefix.trans ?_ (hattempt _ hkey)
    unfold poisonSid
    split
    · exact List.prefix_rfl
    · rw [List.append_assoc]
      exact List.prefix_append _ _
  rcases c.plan_cases me with hplan | hplan
  · exact hattempt _ (hplan ▸ h)
  · exact hrestart (hplan ▸ h)

/-- **Every driver follows its plan.** -/
theorem run_follows (me : PartyId) (c : DriverCall F G K) : Follows Driver.slots (c.plan me) (c.run me) := by
  cases c with
  | jointVss t sid tag phase ids view => exact (jointVssRun_follows me t sid tag phase ids view).bind_last fun _ => Follows.pure _
  | triple t sid ids view => exact (tripleRun_follows me t sid ids view).bind_last fun _ => Follows.pure _
  | tripleRobust w registry t sid ids view =>
    exact (tripleRobustRun_follows w registry me t sid ids view).bind_last fun _ => Follows.pure _
  | presign t sid id key ids view => exact (presignRun_follows me t sid id key ids view).bind_last fun _ => Follows.pure _
  | presignRobust t sid id key ids view =>
    exact (presignRobustRun_follows me t sid id key ids view).bind_last fun _ => Follows.pure _
  | presignKi params sid id view => exact (presignKiRun_follows me params sid id view).bind_last fun _ => Follows.pure _
  | sign params sid presig m ids view =>
    exact (signScalarOver_follows me params sid presig m ids view).bind_last fun _ => Follows.pure _
  | signKi params sid presig key msg view =>
    exact (signKiRun_follows me params sid presig key msg view).bind_last fun _ => Follows.pure _
  | signKiRobust params sid presig key msg view =>
    exact (signKiRobustRun_follows me params sid presig key msg view).bind_last fun _ => Follows.pure _
  | keygenWithRestart params sid tag views fuel =>
    have hloop := nodeRestartLoop_follows me params.t (fun k => vssPlan me (poisonSid sid k) .keyGen)
      (fun st => jointVssRun_follows me params.t (poisonSid sid st.attempt) tag .keyGen st.current (views st.attempt))
      (fun st => jointVssRun_costs st.current me params.t _ _ _ _) fuel ⟨params.parties, [], 0⟩ (Or.inl rfl) (2 ^ 64) (Nat.zero_add _)
    exact (hloop.bind_last fun _ => Follows.pure _).bind_last fun _ => Follows.pure _
  | presignWithRestart params sid firstId key start views fuel =>
    have hloop := nodeRestartLoop_follows me params.t (fun k => presignPlan me (poisonSid sid k))
      (fun st => presignRobustRun_follows me params.t (poisonSid sid st.attempt) (firstId + st.attempt) key st.current
        (views st.attempt))
      (fun st => presignRobustRun_costs st.current me params.t _ _ _ _) fuel ⟨start, [], 0⟩ (Or.inl rfl) (2 ^ 64) (Nat.zero_add _)
    exact (hloop.bind_last fun _ => Follows.pure _).bind_last fun _ => Follows.pure _

theorem sends_sublist (me : PartyId) (c : DriverCall F G K) (rng : Rngs F) :
    (broadcastSlots (c.sends me rng)).Sublist (c.plan me) := by
  obtain ⟨entries, hentries, hsub⟩ := c.run_follows me ⟨rng, []⟩
  have hslots : broadcastSlots (c.sends me rng) = entries := hentries
  rwa [hslots]

end DriverCall

theorem broadcastSlots_flatMap {M α : Type} (f : α → List (Envelope M)) (l : List α) :
    broadcastSlots (l.flatMap f) = l.flatMap fun a => broadcastSlots (f a) := by
  simp only [broadcastSlots, List.filter_flatMap, List.map_flatMap]

/-! ## Theorem -/

section Concrete

open Secp256k1

/-- Party 5 sends a complaint list for its commitment. -/
def badCommits : AcceptedSet Scalar Point :=
  collect ([1, 2, 3, 4, 5].map fun i => (i, if i = 5 then .complaints [] else .dkg (.commit ⟨i, []⟩)))

/-- The first attempt expels party 5, the second hears nothing. -/
def restartViews (attempt : U64) : VssView Scalar Point :=
  if attempt = 0 then ⟨badCommits, badCommits, badCommits, ∅, ∅⟩ else ⟨∅, ∅, ∅, ∅, ∅⟩

def twoCalls : List (DriverCall Scalar Point Unit × Rngs Scalar) :=
  [(.keygenWithRestart ⟨5, 2⟩ [1] tags.dkgCommit restartViews 6, sixRngs),
    (.sign ⟨5, 2⟩ [2] ⟨7, 1, 1, 1, 1, 1, ⟨[1]⟩, ⟨[1]⟩⟩ 3 [1, 2, 3] ∅, sixRngs)]

end Concrete

end OhmEcdsa
