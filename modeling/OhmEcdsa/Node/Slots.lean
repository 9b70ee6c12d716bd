import OhmEcdsa.Node.Journal
import OhmEcdsa.Node.Presign
import OhmEcdsa.Node.Signing
import OhmEcdsa.Support.Plan

/-!
# The broadcast slots of the drivers (`party.rs`)

Each driver broadcasts in the slots of a plan, in order and at most once in each:

    Follows Driver.slots (presignPlan me sid) (presignRun me t sid id key ids view)     (presignRun_follows)

The sids of a plan begin with the call's own, and no slot stands in a plan twice, so a
driver makes no two envelopes of one slot (`oneEach_of_follows`).
-/

set_option linter.unusedSectionVars false

namespace OhmEcdsa

open Hoare Transition Acceptor FeldmanCommitment

variable {F G K S : Type} [Field F] [DecidableEq F] [AddCommGroup G] [Module F G] [DecidableEq G] [K256 F G]

/-! ## The plans -/

/-- The slots of what was broadcast. -/
def broadcastSlots {M : Type} (l : List (Envelope M)) : List SlotKey := (l.filter (·.addressee.isNone)).map slotOf

/-- The slots of `me` in some rounds of a session. -/
def slotsOf (me : PartyId) (sid : Bytes) (phase : Phase) (rounds : List Nat) : List SlotKey :=
  rounds.map fun round => ⟨sid, phase, round, me⟩

def vssPlan (me : PartyId) (sid : Bytes) (phase : Phase) : List SlotKey :=
  slotsOf me sid phase [VSS_ROUND_COMMIT, VSS_ROUND_REVEAL, VSS_ROUND_COMPLAIN, VSS_ROUND_DEFEND]

/-- T1 and T2. -/
def dealPlan (me : PartyId) (sid : Bytes) : List SlotKey :=
  vssPlan me (sid ++ utf8 "/alpha") .triples ++ vssPlan me (sid ++ utf8 "/beta") .triples ++
    slotsOf me sid .triples [TR_ROUND_DEAL]

def triplePlan (me : PartyId) (sid : Bytes) : List SlotKey :=
  dealPlan me sid ++ slotsOf me sid .triples [TR_ROUND_COMPLAIN, TR_ROUND_DEFEND]

def tripleRobustPlan (me : PartyId) (sid : Bytes) : List SlotKey :=
  dealPlan me sid ++ slotsOf me sid .triples [TR_ROUND_RECON_REQ, TR_ROUND_RECON_SUPPLY]

/-- P1–P3. -/
def noncePlan (me : PartyId) (sid : Bytes) : List SlotKey :=
  triplePlan me (sid ++ utf8 "/t1") ++ vssPlan me (sid ++ utf8 "/u") .presign ++
    vssPlan me (sid ++ utf8 "/a") .presign ++ slotsOf me sid .presign [PS_ROUND_DELTA_EPS, PS_ROUND_V, PS_ROUND_NONCE]

def presignPlan (me : PartyId) (sid : Bytes) : List SlotKey :=
  noncePlan me sid ++ triplePlan me (sid ++ utf8 "/t2") ++ slotsOf me sid .presign [PS_ROUND_Z]

def signKiPlan (me : PartyId) (sid : Bytes) : List SlotKey :=
  triplePlan me (sid ++ utf8 "/triple") ++ slotsOf me sid .sign [KI_ROUND_OPEN, KI_ROUND_SHARE]

/-- Any number of attempts, each under its own sid. -/
def restartPlan (plan : Bytes → List SlotKey) (sid : Bytes) : List SlotKey :=
  (List.range' 0 (2 ^ 64)).flatMap fun k => plan (poisonSid sid (Fin.ofNat (2 ^ 64) k))

/-- The slot at `sid` that a plan has below the empty sid. -/
def slotIn (sid : Bytes) (me : PartyId) (key : SlotKey) : SlotKey := ⟨sid ++ key.sid, key.phase, key.round, me⟩

/-- No two broadcasts of one slot differ. -/
def OneEach (log : List (Envelope (NodePayload F G))) : Prop :=
  ∀ sid phase round me p q, Envelope.broadcast sid phase round me p ∈ log →
    Envelope.broadcast sid phase round me q ∈ log → p = q

/-! ## Lemmas: no slot stands in a plan twice -/

theorem slotIn_injOn (sid : Bytes) (me : PartyId) {plan : List SlotKey} (hparty : ∀ key ∈ plan, key.party = 0) :
    ∀ key ∈ plan, ∀ key' ∈ plan, slotIn sid me key = slotIn sid me key' → key = key' := by
  intro key hkey key' hkey' heq
  have hs := hparty key hkey
  have hs' := hparty key' hkey'
  obtain ⟨s, phase, round, party⟩ := key
  obtain ⟨s', phase', round', party'⟩ := key'
  dsimp only at hs hs'
  subst hs hs'
  simp only [slotIn, SlotKey.mk.injEq, List.append_cancel_left_eq, and_true] at heq
  obtain ⟨rfl, rfl, rfl⟩ := heq
  rfl

theorem nodup_slotIn (sid : Bytes) (me : PartyId) {plan : List SlotKey} (hparty : ∀ key ∈ plan, key.party = 0)
    (hnd : plan.Nodup) : (plan.map (slotIn sid me)).Nodup :=
  List.Nodup.map_on (fun key hkey key' hkey' => slotIn_injOn sid me hparty key hkey key' hkey') hnd

theorem triplePlan_nodup (me : PartyId) (sid : Bytes) : (triplePlan me sid).Nodup := by
  have heq : triplePlan me sid = (triplePlan 0 []).map (slotIn sid me) := by
    simp [triplePlan, dealPlan, vssPlan, slotsOf, slotIn]
  rw [heq]
  exact nodup_slotIn sid me (by decide +kernel) (by decide +kernel)

theorem presignPlan_nodup (me : PartyId) (sid : Bytes) : (presignPlan me sid).Nodup := by
  have heq : presignPlan me sid = (presignPlan 0 []).map (slotIn sid me) := by
    simp [presignPlan, noncePlan, triplePlan, dealPlan, vssPlan, slotsOf, slotIn]
  rw [heq]
  exact nodup_slotIn sid me (by decide +kernel) (by decide +kernel)

theorem oneEach_of_nodup {log : List (Envelope (NodePayload F G))} (h : (broadcastSlots log).Nodup) : OneEach log := by
  intro sid phase round me p q hp hq
  have heq := List.inj_on_of_nodup_map h
    (List.mem_filter.mpr ⟨hp, rfl⟩ : Envelope.broadcast sid phase round me p ∈ _)
    (List.mem_filter.mpr ⟨hq, rfl⟩ : Envelope.broadcast sid phase round me q ∈ _) rfl
  exact (Envelope.broadcast_eq.mp heq).2

/-! ## Lemmas: what the drivers broadcast -/

/-- The slots a driver has broadcast in. -/
def Driver.slots (d : Driver F G) : List SlotKey := broadcastSlots d.sent

/-- A driver whose plan has no slot twice broadcasts once in each. -/
theorem oneEach_of_follows {α : Type} {plan : List SlotKey} {m : NodeM F G α} (h : Follows Driver.slots plan m)
    (hnd : plan.Nodup) (rng : Rngs F) : OneEach (m ⟨rng, []⟩).2.sent := by
  obtain ⟨entries, hentries, hsub⟩ := h ⟨rng, []⟩
  refine oneEach_of_nodup ?_
  show (Driver.slots (m ⟨rng, []⟩).2).Nodup
  rw [hentries]
  exact hsub.nodup hnd

theorem send_slots (env : Envelope (NodePayload F G)) (d : Driver F G) :
    (send env d).2.slots = d.slots ++ broadcastSlots [env] := by
  show broadcastSlots (d.sent ++ [env]) = _
  simp [broadcastSlots, Driver.slots, List.filter_append, List.map_append]

theorem send_broadcast_follows (sid : Bytes) (phase : Phase) (round : Nat) (me : PartyId) (p : NodePayload F G) :
    Follows Driver.slots (slotsOf me sid phase [round]) (send (Envelope.broadcast sid phase round me p)) :=
  fun d => ⟨slotsOf me sid phase [round], send_slots _ d, List.Sublist.refl _⟩

/-- A broadcast, and the rest of its session. -/
theorem broadcast_then {α : Type} (sid : Bytes) (phase : Phase) (round : Nat) (me : PartyId) (p : NodePayload F G)
    (rounds : List Nat) {f : Unit → NodeM F G α} (hf : ∀ u, Follows Driver.slots (slotsOf me sid phase rounds) (f u)) :
    Follows Driver.slots (slotsOf me sid phase (round :: rounds))
      (send (Envelope.broadcast sid phase round me p) >>= f) :=
  (send_broadcast_follows sid phase round me p).bind hf

theorem send_p2p_follows (sid : Bytes) (phase : Phase) (round : Nat) (me j : PartyId) (p : NodePayload F G) :
    Follows Driver.slots [] (send (Envelope.p2p sid phase round me j p)) :=
  Follows.of_silent fun d => by rw [send_slots]; exact List.append_nil _

theorem draw_follows {α : Type} (m : RngM F α) :
    Follows (Driver.slots (F := F) (G := G)) [] (draw m : NodeM F G α) := Follows.of_silent fun _ => rfl

theorem complaintRound_follows (me : PartyId) (sid : Bytes) (phase : Phase) (rounds : Nat × Nat)
    (ids complaints : List PartyId) (defenseFor : PartyId → F) (defenseVerifies : PartyId → PartyId → F → Outcome Bool)
    (complaintView defenseView : AcceptedSet F G) :
    Follows Driver.slots (slotsOf me sid phase [rounds.1, rounds.2])
      (complaintRound me sid phase rounds ids complaints defenseFor defenseVerifies complaintView defenseView) := by
  unfold complaintRound
  refine broadcast_then sid phase rounds.1 me _ [rounds.2] fun _ => ?_
  refine Follows.ite (Follows.throw _).idle ((Follows.lift _).bind_silent fun lists => ?_)
  refine (send_broadcast_follows sid phase rounds.2 me _).bind_last fun _ => ?_
  exact Follows.ite (Follows.throw _) (Follows.lift _)

theorem jointVssRun_follows (me : PartyId) (t : Usize) (sid tag : Bytes) (phase : Phase) (ids : List PartyId)
    (view : VssView F G) :
    Follows Driver.slots (vssPlan me sid phase) (jointVssRun me t sid tag phase ids view) := by
  unfold jointVssRun
  refine (Follows.lift _).bind_silent fun committee => ?_
  refine (draw_follows _).bind_silent fun started => ?_
  obtain ⟨inst, b1⟩ := started
  refine broadcast_then sid phase VSS_ROUND_COMMIT me _ [VSS_ROUND_REVEAL, VSS_ROUND_COMPLAIN, VSS_ROUND_DEFEND] fun _ => ?_
  refine (Follows.lift _).bind_silent fun revealed => ?_
  obtain ⟨b2, shares⟩ := revealed
  refine broadcast_then sid phase VSS_ROUND_REVEAL me _ [VSS_ROUND_COMPLAIN, VSS_ROUND_DEFEND] fun _ => ?_
  refine (Follows.forM_silent shares fun s _ => send_p2p_follows sid phase _ me _ _).bind_silent fun _ => ?_
  refine (Follows.lift _).bind_silent fun checked => ?_
  obtain ⟨r2, mine, complaints⟩ := checked
  exact (complaintRound_follows me sid phase _ ids _ _ _ _ _).bind_last fun _ => Follows.lift _

theorem tripleT1T2_follows (me : PartyId) (t : Usize) (sid : Bytes) (ids : List PartyId) (view : TripleView F G) :
    Follows Driver.slots (dealPlan me sid) (tripleT1T2 me t sid ids view) := by
  unfold tripleT1T2 dealPlan
  rw [List.append_assoc]
  refine (jointVssRun_follows me t _ _ _ ids view.alpha).bind fun alpha => ?_
  refine (jointVssRun_follows me t _ _ _ ids view.beta).bind fun beta => ?_
  refine (draw_follows _).bind_silent fun g => (draw_follows _).bind_silent fun proof => ?_
  obtain ⟨x1, x2, proof⟩ := proof
  refine (send_broadcast_follows sid .triples TR_ROUND_DEAL me _).bind_last fun _ => ?_
  refine (Follows.forM_silent ids fun i _ => send_p2p_follows sid .triples _ me i _).bind_silent fun _ => ?_
  exact (Follows.lift _).bind_silent fun t2 => Follows.pure _

theorem tripleRun_follows (me : PartyId) (t : Usize) (sid : Bytes) (ids : List PartyId) (view : TripleView F G) :
    Follows Driver.slots (triplePlan me sid) (tripleRun me t sid ids view) := by
  unfold tripleRun
  refine (tripleT1T2_follows me t sid ids view).bind fun dealt => ?_
  obtain ⟨alpha, beta, t2⟩ := dealt
  refine (Follows.lift _).bind_silent fun _ => (Follows.lift _).bind_silent fun complaints => ?_
  exact (complaintRound_follows me sid .triples _ ids _ _ _ _ _).bind_last fun _ => Follows.lift _

theorem supplyRound_follows (me : PartyId) (t : Usize) (sid : Bytes) (ids reconstruct : List PartyId)
    (t2 : TripleT2 F G) (view : AcceptedSet F G) :
    Follows Driver.slots (slotsOf me sid .triples [TR_ROUND_RECON_SUPPLY])
      (supplyRound me t sid ids reconstruct t2 view) := by
  unfold supplyRound
  refine (Follows.lift _).bind_silent fun supplies => ?_
  refine (send_broadcast_follows sid .triples TR_ROUND_RECON_SUPPLY me _).bind_last fun _ => ?_
  exact Follows.ite (Follows.throw _) ((Follows.lift _).bind_silent fun lists => Follows.lift _)

theorem tripleRobustRun_follows (w : Wire F G K) (registry : PartyMap K) (me : PartyId) (t : Usize) (sid : Bytes)
    (ids : List PartyId) (view : TripleView F G) :
    Follows Driver.slots (tripleRobustPlan me sid) (tripleRobustRun w registry me t sid ids view) := by
  unfold tripleRobustRun
  refine (tripleT1T2_follows me t sid ids view).bind fun dealt => ?_
  obtain ⟨alpha, beta, t2⟩ := dealt
  refine (Follows.lift _).bind_silent fun _ => (Follows.lift _).bind_silent fun bad => ?_
  refine (Follows.lift _).bind_silent fun requests => ?_
  refine broadcast_then sid .triples TR_ROUND_RECON_REQ me _ [TR_ROUND_RECON_SUPPLY] fun _ => ?_
  refine Follows.ite (Follows.throw _).idle ((Follows.lift _).bind_silent fun reconstruct => ?_)
  have hmine : Follows Driver.slots (slotsOf me sid .triples [TR_ROUND_RECON_SUPPLY])
      (if reconstruct.sort (· ≤ ·) = [] then pure t2.mine
        else supplyRound me t sid ids (reconstruct.sort (· ≤ ·)) t2 view.supplies : NodeM F G (PartyMap F)) :=
    Follows.ite (Follows.pure _).idle (supplyRound_follows me t sid ids _ t2 _)
  refine hmine.bind_last fun mine => (Follows.lift _).bind_silent fun combined => ?_
  obtain ⟨share, pub⟩ := combined
  exact Follows.pure _

theorem presignP1P3_follows (me : PartyId) (t : Usize) (sid : Bytes) (ids : List PartyId) (view : NonceView F G) :
    Follows Driver.slots (noncePlan me sid) (presignP1P3 me t sid ids view) := by
  unfold presignP1P3 noncePlan
  simp only [List.append_assoc]
  refine (tripleRun_follows me t _ ids view.triple).bind fun triple => ?_
  obtain ⟨t1, pub1⟩ := triple
  refine (jointVssRun_follows me t _ _ _ ids view.u).bind fun uOut => ?_
  refine (jointVssRun_follows me t _ _ _ ids view.a).bind fun aOut => ?_
  refine broadcast_then sid .presign PS_ROUND_DELTA_EPS me _ [PS_ROUND_V, PS_ROUND_NONCE] fun _ => ?_
  refine (Follows.lift _).bind_silent fun opens => ?_
  obtain ⟨deltas, epsilons⟩ := opens
  refine (Follows.lift _).bind_silent fun delta => (Follows.lift _).bind_silent fun eps => ?_
  refine (Follows.lift _).bind_silent fun vCom => ?_
  refine broadcast_then sid .presign PS_ROUND_V me _ [PS_ROUND_NONCE] fun _ => ?_
  refine (Follows.lift _).bind_silent fun vShares => (Follows.lift _).bind_silent fun v => ?_
  refine (Follows.lift _).bind_silent fun vInv => ?_
  refine (send_broadcast_follows sid .presign PS_ROUND_NONCE me _).bind_last fun _ => ?_
  exact (Follows.lift _).bind_silent fun nonce => Follows.pure _

theorem presignP1P3Robust_follows (me : PartyId) (t : Usize) (sid : Bytes) (ids : List PartyId)
    (view : NonceView F G) :
    Follows Driver.slots (noncePlan me sid) (presignP1P3Robust me t sid ids view) := by
  unfold presignP1P3Robust noncePlan
  simp only [List.append_assoc]
  refine (tripleRun_follows me t _ ids view.triple).bind fun triple => ?_
  obtain ⟨t1, pub1⟩ := triple
  refine (jointVssRun_follows me t _ _ _ ids view.u).bind fun uOut => ?_
  refine (jointVssRun_follows me t _ _ _ ids view.a).bind fun aOut => ?_
  refine broadcast_then sid .presign PS_ROUND_DELTA_EPS me _ [PS_ROUND_V, PS_ROUND_NONCE] fun _ => ?_
  refine (Follows.lift _).bind_silent fun opens => ?_
  obtain ⟨deltas, epsilons⟩ := opens
  refine (Follows.lift _).bind_silent fun delta => (Follows.lift _).bind_silent fun eps => ?_
  refine (Follows.lift _).bind_silent fun vCom => ?_
  refine broadcast_then sid .presign PS_ROUND_V me _ [PS_ROUND_NONCE] fun _ => ?_
  refine (Follows.lift _).bind_silent fun vShares => (Follows.lift _).bind_silent fun v => ?_
  refine (Follows.lift _).bind_silent fun vInv => ?_
  refine (send_broadcast_follows sid .presign PS_ROUND_NONCE me _).bind_last fun _ => ?_
  exact (Follows.lift _).bind_silent fun nonce => Follows.pure _

theorem presignRun_follows (me : PartyId) (t : Usize) (sid : Bytes) (id : U64) (key : KeyShare F G)
    (ids : List PartyId) (view : PresignView F G) :
    Follows Driver.slots (presignPlan me sid) (presignRun me t sid id key ids view) := by
  unfold presignRun presignPlan
  rw [List.append_assoc]
  refine (presignP1P3_follows me t sid ids _).bind fun nonce => ?_
  obtain ⟨uj, uCom, r, bigR⟩ := nonce
  refine (tripleRun_follows me t _ ids view.triple2).bind fun triple => ?_
  obtain ⟨t2, pub2⟩ := triple
  refine (send_broadcast_follows sid .presign PS_ROUND_Z me _).bind_last fun _ => ?_
  refine (Follows.lift _).bind_silent fun opens => ?_
  obtain ⟨d2s, e2s⟩ := opens
  refine (Follows.lift _).bind_silent fun d2v => (Follows.lift _).bind_silent fun e2v => ?_
  exact (Follows.lift _).bind_silent fun zCom => Follows.pure _

theorem presignRobustRun_follows (me : PartyId) (t : Usize) (sid : Bytes) (id : U64) (key : KeyShare F G)
    (ids : List PartyId) (view : PresignView F G) :
    Follows Driver.slots (presignPlan me sid) (presignRobustRun me t sid id key ids view) := by
  unfold presignRobustRun presignPlan
  rw [List.append_assoc]
  refine (presignP1P3Robust_follows me t sid ids _).bind fun nonce => ?_
  obtain ⟨uj, uCom, r, bigR, blamed, active⟩ := nonce
  refine (tripleRun_follows me t _ ids view.triple2).bind fun triple => ?_
  obtain ⟨t2, pub2⟩ := triple
  refine (send_broadcast_follows sid .presign PS_ROUND_Z me _).bind_last fun _ => ?_
  refine (Follows.lift _).bind_silent fun opens => ?_
  obtain ⟨d2s, e2s⟩ := opens
  refine (Follows.lift _).bind_silent fun d2 => (Follows.lift _).bind_silent fun e2 => ?_
  exact (Follows.lift _).bind_silent fun zCom => Follows.pure _

theorem presignKiRun_follows (me : PartyId) (params : Params) (sid : Bytes) (id : U64) (view : NonceView F G) :
    Follows Driver.slots (noncePlan me sid) (presignKiRun me params sid id view) :=
  (presignP1P3_follows me params.t sid params.parties view).bind_last fun _ => Follows.pure _

theorem signScalarOver_follows (me : PartyId) (params : Params) (sid : Bytes) (presig : Presignature F G) (m : F)
    (ids : List PartyId) (view : AcceptedSet F G) :
    Follows Driver.slots (slotsOf me sid .sign [SIGN_ROUND_SHARE])
      (signScalarOver me params sid presig m ids view) := by
  unfold signScalarOver
  refine Follows.ite (Follows.throw _).idle ?_
  exact (send_broadcast_follows sid .sign SIGN_ROUND_SHARE me _).bind_last fun _ => Follows.lift _

theorem signKiOpens_follows (me : PartyId) (params : Params) (sid : Bytes) (presig : KiPresignature F G)
    (key : KeyShare F G) (view : KiView F G) :
    Follows Driver.slots (triplePlan me (sid ++ utf8 "/triple") ++ slotsOf me sid .sign [KI_ROUND_OPEN])
      (signKiOpens me params sid presig key view) := by
  unfold signKiOpens
  refine (tripleRun_follows me params.t _ params.parties view.triple).bind fun triple => ?_
  obtain ⟨share, pub⟩ := triple
  refine (send_broadcast_follows sid .sign KI_ROUND_OPEN me _).bind_last fun _ => ?_
  exact (Follows.lift _).bind_silent fun opens => Follows.pure _

theorem signKiPlan_eq (me : PartyId) (sid : Bytes) :
    signKiPlan me sid = (triplePlan me (sid ++ utf8 "/triple") ++ slotsOf me sid .sign [KI_ROUND_OPEN]) ++
      slotsOf me sid .sign [KI_ROUND_SHARE] := by
  rw [List.append_assoc]
  rfl

theorem signKiRun_follows (me : PartyId) (params : Params) (sid : Bytes) (presig : KiPresignature F G)
    (key : KeyShare F G) (msg : Bytes) (view : KiView F G) :
    Follows Driver.slots (signKiPlan me sid) (signKiRun me params sid presig key msg view) := by
  unfold signKiRun
  rw [signKiPlan_eq]
  refine (signKiOpens_follows me params sid presig key view).bind fun opens => ?_
  obtain ⟨share, pub, ⟨deltaCom, deltas⟩, epsCom, epsilons⟩ := opens
  refine (Follows.lift _).bind_silent fun delta => (Follows.lift _).bind_silent fun eps => ?_
  refine (Follows.lift _).bind_silent fun zCom => ?_
  refine (send_broadcast_follows sid .sign KI_ROUND_SHARE me _).bind_last fun _ => ?_
  exact (Follows.lift _).bind_silent fun shares => (Follows.lift _).bind_silent fun rs => Follows.lift _

theorem signKiRobustRun_follows (me : PartyId) (params : Params) (sid : Bytes) (presig : KiPresignature F G)
    (key : KeyShare F G) (msg : Bytes) (view : KiView F G) :
    Follows Driver.slots (signKiPlan me sid) (signKiRobustRun me params sid presig key msg view) := by
  unfold signKiRobustRun
  rw [signKiPlan_eq]
  refine (signKiOpens_follows me params sid presig key view).bind fun opens => ?_
  obtain ⟨share, pub, ⟨deltaCom, deltas⟩, epsCom, epsilons⟩ := opens
  refine (Follows.lift _).bind_silent fun delta => (Follows.lift _).bind_silent fun eps => ?_
  refine (Follows.lift _).bind_silent fun zCom => ?_
  exact (send_broadcast_follows sid .sign KI_ROUND_SHARE me _).bind_last fun _ => Follows.lift _

end OhmEcdsa
