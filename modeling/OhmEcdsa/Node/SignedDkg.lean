import OhmEcdsa.Core.DkgFaults
import OhmEcdsa.Node.Signing

/-!
# The signed DKG driver (`src/runtime/transport.rs`)

`driveDkgSigned` runs the DKG of all parties over a signing transport.  A failed
signature blames the sender it claims; a failed dealing leaves a blame token when
the dealer's signed share is the evidence.  Over an inner transport that drops and
forges what it likes, but files each validly signed envelope of the run under its
sender and slot, the driver never panics, blames a party of no fault hook only
through a forgery in its name, and attaches tokens that verify
(drive_dkg_signed_sound).
-/

set_option linter.unusedSectionVars false

namespace OhmEcdsa

open Hoare FeldmanCommitment

variable {F G K S T : Type} [Field F] [DecidableEq F] [AddCommGroup G] [Module F G] [DecidableEq G] [K256 F G]

/-! ## Algorithm -/

/-- The protocol error, and the token if the failure left a signed share as evidence. -/
structure SignedDriveError (F G : Type) where
  error : Fault
  token : Option (BlameToken F G)

def signedError (fault : Fault) : SignedDriveError F G := ⟨fault, none⟩

/-- Every party's dealing, with the fault hooks set. -/
def startDealers (params : Params) (sid tag : Bytes) (tamper : Option DkgTamper) :
    RngM F (List (DkgInstance F G × DkgBcast1)) :=
  params.parties.zipIdx.mapM fun e => do
    let committee ← lift (Committee.full params)
    let (inst, b1) ← DkgInstance.startCommittee (F := F) (G := G) committee sid tag e.1 e.2
    return (tamperDealer tamper inst, b1)

section

variable [Transport T (SignedEnvelope (DkgMessage F G))] (w : Wire F G K) (pairs : KeyPairs S K) (sid : Bytes)
  (phase : Phase) (tamper : Option DkgTamper)

/-- One dealer's reveal and shares. -/
def sendReveal (st : SigningTransport T S K) (inst : DkgInstance F G) : Outcome (SigningTransport T S K) := do
  let (b2, shares) ← inst.reveal
  let st ← st.broadcast pairs w.dkg (Envelope.broadcast sid phase DKG_ROUND_REVEAL inst.me (.reveal b2))
  shares.foldlM (fun st s =>
    st.sendP2p pairs w.dkg (Envelope.p2p sid phase DKG_ROUND_REVEAL s.sender s.addressee (.share s))) st

/-- Rounds 1 and 2: what the parties send. -/
def handOver (started : List (DkgInstance F G × DkgBcast1)) (st : SigningTransport T S K) :
    Outcome (SigningTransport T S K) := do
  let st ← started.foldlM (fun st e =>
    st.broadcast pairs w.dkg (Envelope.broadcast sid phase DKG_ROUND_COMMIT e.1.me (.commit e.2))) st
  (started.map (·.1)).foldlM (sendReveal w pairs sid phase) st

/-- `corrupt_share`: one accepted share changed after its signature was checked. -/
def tamperSigned (me : PartyId) (envs : PartyMap (SignedEnvelope (DkgMessage F G))) :
    PartyMap (SignedEnvelope (DkgMessage F G)) :=
  match tamper.bind (·.corruptShare) with
  | none => envs
  | some (dealer, victim) =>
    if victim = me then
      match envs[dealer]? with
      | some env =>
        match env.envelope.payload with
        | .share s =>
          envs.insert dealer
            { env with envelope := { env.envelope with payload := .share { s with share := s.share + 1 } } }
        | _ => envs
      | none => envs
    else envs

/-- The token of a dealer fault: the abort names a dealer whose share envelope fails
the revealed commitment. -/
def dealerBlameToken (fault : Fault) (shareEnvs : PartyMap (SignedEnvelope (DkgMessage F G)))
    (r2 : PartyMap (DkgBcast2 G)) : Option (BlameToken F G) :=
  match fault with
  | .error (.abort abort) =>
    match abort.blamed with
    | [dealer] => do
      let envelope ← shareEnvs[dealer]?
      let b2 ← r2[dealer]?
      match envelope.envelope.payload with
      | .share share =>
        if share.sender ≠ dealer ∨ b2.com.verifyShare share.addressee share.share = true then none
        else some ⟨abort, envelope, b2.com⟩
      | _ => none
    | _ => none
  | _ => none

/-- Round 3 of one party. -/
def finalizeSigned (st : SigningTransport T S K) (insts : List (DkgInstance F G)) (r1 : PartyMap DkgBcast1)
    (r2 : PartyMap (DkgBcast2 G)) (inst : DkgInstance F G) : Except (SignedDriveError F G) (DkgOutput F G) := do
  let accepted ← (st.acceptedP2p w w.dkg sid phase DKG_ROUND_REVEAL inst.me).mapError signedError
  let shareEnvs := tamperSigned tamper inst.me accepted
  let mine ← (payloadsOf (fun | .share s => some s.share | _ => none) "p2p carries only shares"
    (shareEnvs.map fun _ e => e.envelope)).mapError signedError
  let defenses := collect (insts.map fun d => (d.me, d.defend inst.me))
  match inst.finalize phase r1 r2 mine defenses with
  | .ok out => .ok out
  | .error fault => .error ⟨fault, dealerBlameToken fault shareEnvs r2⟩

/-- The verified accepted broadcasts of both rounds. -/
def acceptedSets (st : SigningTransport T S K) :
    Except (SignedDriveError F G) (PartyMap DkgBcast1 × PartyMap (DkgBcast2 G)) := do
  let commits ← (st.acceptedBroadcasts w w.dkg sid phase DKG_ROUND_COMMIT).mapError signedError
  let r1 ← (commitsOf (commits.map fun _ e => e.envelope)).mapError signedError
  let reveals ← (st.acceptedBroadcasts w w.dkg sid phase DKG_ROUND_REVEAL).mapError signedError
  let r2 ← (revealsOf (reveals.map fun _ e => e.envelope)).mapError signedError
  return (r1, r2)

/-- Round 3 of every party. -/
def finalizeAll (st : SigningTransport T S K) (insts : List (DkgInstance F G)) :
    Except (SignedDriveError F G) (List (DkgOutput F G)) := do
  let (r1, r2) ← acceptedSets w sid phase st
  insts.mapM (finalizeSigned w sid phase tamper st insts r1 r2)

def driveDkgSigned (params : Params) (tag : Bytes) (st : SigningTransport T S K) :
    ExceptT (SignedDriveError F G) (StateM (Rngs F)) (List (DkgOutput F G)) := do
  let started ← ExceptT.adapt signedError (startDealers (G := G) params sid tag tamper)
  let st ← lift ((handOver w pairs sid phase started st).mapError signedError)
  lift (finalizeAll w sid phase tamper st (started.map (·.1)))

end

/-! ## Specification -/

/-- The vector an instance reveals. -/
def DkgInstance.revealCom (inst : DkgInstance F G) : FeldmanCommitment G :=
  match inst.badReveal, inst.com.addConst (1 : F) with
  | true, .ok com => com
  | _, _ => inst.com

/-- What a dealer hands over in round 2. -/
def revealOf (sid : Bytes) (phase : Phase) (d : DkgInstance F G) : Envelope (DkgMessage F G) :=
  .broadcast sid phase DKG_ROUND_REVEAL d.me (.reveal ⟨d.me, d.revealCom⟩)

section

variable [Transport T (SignedEnvelope (DkgMessage F G))] (w : Wire F G K) (sid : Bytes) (phase : Phase)
  (st : SigningTransport T S K) (insts : List (DkgInstance F G))

/-- What verifies in one answer of the inner transport was handed over by the dealer it is filed under. -/
def Own (raw : PartyMap (Envelope (SignedEnvelope (DkgMessage F G)))) (env : DkgInstance F G → Envelope (DkgMessage F G)) :
    Prop :=
  ∀ (p : PartyId) outer, raw[p]? = some outer → st.valid w w.dkg outer.payload = true →
    ∃ d ∈ insts, d.me = p ∧ outer.payload.envelope = env d

/-- The inner transport drops and forges, but neither relabels nor replays: what
verifies is what its sender handed over for that query in this run. -/
structure GenuineAnswers : Prop where
  commits : Own w st insts (Transport.acceptedBroadcasts st.inner sid phase DKG_ROUND_COMMIT) (commitEnvelope sid phase)
  reveals : Own w st insts (Transport.acceptedBroadcasts st.inner sid phase DKG_ROUND_REVEAL) (revealOf sid phase)
  shares : ∀ j : PartyId, Own w st insts (Transport.acceptedP2p st.inner sid phase DKG_ROUND_REVEAL j)
    fun d => shareEnvelope sid phase d j

/-- An envelope that claims to be from `p` and does not verify reaches the driver. -/
def Forged (p : PartyId) : Prop :=
  ∃ raw, (raw = Transport.acceptedBroadcasts st.inner sid phase DKG_ROUND_COMMIT ∨
      raw = Transport.acceptedBroadcasts st.inner sid phase DKG_ROUND_REVEAL ∨
      ∃ inst ∈ insts, raw = Transport.acceptedP2p st.inner sid phase DKG_ROUND_REVEAL inst.me) ∧
    ∃ (q : PartyId) (outer : Envelope (SignedEnvelope (DkgMessage F G))), raw[q]? = some outer ∧
      st.valid w w.dkg outer.payload = false ∧ outer.payload.envelope.sender = p

end

/-- The fault hooks that make `p` deviate: a bad deal, a bad reveal, a false accusation. -/
def Tampered (tamper : Option DkgTamper) (p : PartyId) : Prop :=
  (∃ v, tamper.bind (·.badDeal) = some (p, v)) ∨ tamper.bind (·.badReveal) = some p ∨
    ∃ d, tamper.bind (·.corruptShare) = some (d, p)

/-- The share that `corrupt_share` changes is one an honest dealer dealt to another party. -/
def HonestlyDealt (tamper : Option DkgTamper) : Prop :=
  ∀ d v, tamper.bind (·.corruptShare) = some (d, v) →
    d ≠ v ∧ tamper.bind (·.badDeal) ≠ some (d, v) ∧ tamper.bind (·.badReveal) ≠ some d

section

variable [Transport T (SignedEnvelope (DkgMessage F G))] (w : Wire F G K) (sid : Bytes) (phase : Phase)
  (tamper : Option DkgTamper) (st : SigningTransport T S K) (insts : List (DkgInstance F G))

/-- Party `inst` finalizes with the error, over the reveals `r2`. -/
def FailsAt (inst : DkgInstance F G) (r2 : PartyMap (DkgBcast2 G)) (e : SignedDriveError F G) : Prop :=
  ∃ r1, acceptedSets w sid phase st = .ok (r1, r2) ∧ finalizeSigned w sid phase tamper st insts r1 r2 inst = .error e

/-- The error names who is at fault, with a token that verifies where there is evidence. -/
structure Accountable (e : SignedDriveError F G) : Prop where
  no_panic : ∃ err, e.error = .error err
  blamed : ∀ phase' blamed detail, e.error = abort phase' blamed detail →
    ∀ p ∈ blamed, Tampered tamper p ∨ Forged w sid phase st insts p
  token : HonestlyDealt tamper → ∀ token, e.token = some token → token.verify w st.verifyingKeys.toList = true
  evidence : HonestlyDealt tamper → ∀ inst ∈ insts, ∀ r2, FailsAt w sid phase tamper st insts inst r2 e →
    ∀ phase' dealer detail, e.error = abort phase' [dealer] detail →
    ∀ set signed s b2, st.acceptedP2p w w.dkg sid phase DKG_ROUND_REVEAL inst.me = .ok set →
      set[dealer]? = some signed → signed.envelope.payload = .share s → r2[dealer]? = some b2 →
      b2.com.verifyShare s.addressee s.share = false → e.token.isSome = true

end

/-! ## Lemmas: the dealers -/

/-- The hooks change neither who deals nor the commitment of round 1. -/
theorem tamperDealer_wire (tamper : Option DkgTamper) (d : DkgInstance F G) :
    (tamperDealer tamper d).me = d.me ∧ (tamperDealer tamper d).commitOf = d.commitOf := by
  unfold tamperDealer
  rcases tamper.bind (·.badDeal) with _ | ⟨dealer, victim⟩ <;> simp only <;> split_ifs <;> exact ⟨rfl, rfl⟩

/-- A dealer of the session, with the hooks of `tamper`. -/
def Dealer (c : Committee) (sid tag : Bytes) (tamper : Option DkgTamper) (inst : DkgInstance F G) : Prop :=
  ∃ d : DkgInstance F G, d.Honest c sid tag ∧ inst = tamperDealer tamper d

namespace Dealer

variable {c : Committee} {sid tag : Bytes} {tamper : Option DkgTamper} {inst : DkgInstance F G}

/-- What the hooks leave as it is, and what they change. -/
theorem fields (h : Dealer c sid tag tamper inst) :
    inst.committee = c ∧ inst.sid = sid ∧ inst.tag = tag ∧ inst.com = fromPoly inst.poly ∧
      inst.com.points.length = c.t.val ∧
      (∀ v, inst.badDeal = some v → tamper.bind (·.badDeal) = some (inst.me, v)) ∧
      (inst.badReveal = true → tamper.bind (·.badReveal) = some inst.me) := by
  obtain ⟨d, hd, rfl⟩ := h
  have hlen := hd.length_com
  unfold tamperDealer
  rcases hbad : tamper.bind (·.badDeal) with _ | ⟨dealer, victim⟩ <;> simp only
  · split
    · next hrev =>
      exact ⟨hd.committee, hd.sid, hd.tag, hd.com, hlen, fun v hv => by simp [hd.badDeal] at hv, fun _ => hrev⟩
    · exact ⟨hd.committee, hd.sid, hd.tag, hd.com, hlen, fun v hv => by simp [hd.badDeal] at hv,
        fun hr => by simp [hd.badReveal] at hr⟩
  · by_cases hme : dealer = d.me
    · simp only [if_pos hme]
      split
      · next hrev =>
        exact ⟨hd.committee, hd.sid, hd.tag, hd.com, hlen, fun v hv => by rw [hme, Option.some.inj hv], fun _ => hrev⟩
      · exact ⟨hd.committee, hd.sid, hd.tag, hd.com, hlen, fun v hv => by rw [hme, Option.some.inj hv],
          fun hr => by simp [hd.badReveal] at hr⟩
    · simp only [if_neg hme]
      split
      · next hrev =>
        exact ⟨hd.committee, hd.sid, hd.tag, hd.com, hlen, fun v hv => by simp [hd.badDeal] at hv, fun _ => hrev⟩
      · exact ⟨hd.committee, hd.sid, hd.tag, hd.com, hlen, fun v hv => by simp [hd.badDeal] at hv,
          fun hr => by simp [hd.badReveal] at hr⟩

theorem reveal (h : Dealer c sid tag tamper inst) : inst.reveal =
    .ok (⟨inst.me, inst.revealCom⟩, c.ids.map fun j => ⟨inst.me, j, inst.shareFor j⟩) := by
  obtain ⟨hc, -, -, -, hlen, -⟩ := h.fields
  have hne : inst.com.points ≠ [] := by
    intro h0
    have := c.t_pos
    rw [h0, List.length_nil] at hlen
    omega
  obtain ⟨out, hout, -⟩ := addConst_ok (F := F) inst.com 1 hne
  unfold DkgInstance.reveal DkgInstance.revealCom
  rw [hc, hout]
  cases inst.badReveal <;> rfl

theorem revealCom_eq (hrev : inst.badReveal = false) : inst.revealCom = inst.com := by
  unfold DkgInstance.revealCom
  rw [hrev]

/-- Without its hooks the instance finalizes in the same way. -/
theorem honest_finalize (h : Dealer c sid tag tamper inst) :
    ({ inst with badDeal := none, badReveal := false } : DkgInstance F G).Honest c sid tag := by
  obtain ⟨hc, hsid, htag, hcom, hlen, -⟩ := h.fields
  refine ⟨hc, hsid, htag, hcom, ?_, rfl, rfl⟩
  rw [hcom, fromPoly, List.length_map] at hlen
  exact hlen

/-- A dealer whose reveal is not tampered with is consistent. -/
theorem consistent (h : Dealer c sid tag tamper inst) (hrev : tamper.bind (·.badReveal) ≠ some inst.me)
    {r1 : PartyMap DkgBcast1} {r2 : PartyMap (DkgBcast2 G)} (h1 : r1[inst.me]? = some inst.commitOf)
    (h2 : r2[inst.me]? = some ⟨inst.me, inst.revealCom⟩) :
    DkgInstance.revealConsistent F c.t sid tag r1 r2 inst.me = true := by
  obtain ⟨-, hsid, htag, -, hlen, -, hreveal⟩ := h.fields
  have hfalse : inst.badReveal = false := by
    cases hb : inst.badReveal with
    | false => rfl
    | true => exact absurd (hreveal hb) hrev
  unfold DkgInstance.revealConsistent
  rw [h1, h2]
  simp only [revealCom_eq hfalse, hlen, DkgInstance.commitOf, hsid, htag, and_self, decide_true]

/-- The share a dealer deals to `j`, neither it nor the reveal tampered with, verifies. -/
theorem verifies (h : Dealer c sid tag tamper inst) {j : PartyId} (hrev : tamper.bind (·.badReveal) ≠ some inst.me)
    (hdeal : tamper.bind (·.badDeal) ≠ some (inst.me, j)) : inst.revealCom.verifyShare j (inst.shareFor j) = true := by
  obtain ⟨-, -, -, hcom, -, hbad, hreveal⟩ := h.fields
  have hfalse : inst.badReveal = false := by
    cases hb : inst.badReveal with
    | false => rfl
    | true => exact absurd (hreveal hb) hrev
  have hnone : inst.badDeal ≠ some j := fun hb => hdeal (hbad j hb)
  rw [revealCom_eq hfalse, verifyShare_iff, hcom, poly_fromPoly, DkgInstance.shareFor, if_neg hnone, ShamirPoly.eval_eq]

end Dealer

theorem startDealers_triple {params : Params} {c : Committee} (hc : Committee.full params = .ok c)
    (hids : c.ids = params.parties) (sid tag : Bytes) (tamper : Option DkgTamper) :
    Triple (Enough c.n) (startDealers (F := F) (G := G) params sid tag tamper)
      (fun started => (started.map (·.1)).map (·.me) = c.ids ∧
        ∀ e ∈ started, Dealer c sid tag tamper e.1 ∧ e.2 = e.1.commitOf) Never := by
  unfold startDealers
  have hstart : ∀ e ∈ c.ids.zipIdx, Triple (Enough c.n)
      (lift (Committee.full params) >>= fun committee =>
        DkgInstance.startCommittee (F := F) (G := G) committee sid tag e.1 e.2 >>= fun b =>
          pure (tamperDealer tamper b.1, b.2))
      (fun b => b.1.me = e.1 ∧ Dealer c sid tag tamper b.1 ∧ b.2 = b.1.commitOf) Never := by
    intro e he
    refine Triple.lift_bind hc ?_
    refine (DkgInstance.startCommittee_triple (lt_n_of_mem_zipIdx he) c sid tag e.1).bind fun b hb => ?_
    have hd : Dealer c sid tag tamper (tamperDealer tamper b.1) := ⟨b.1, hb.1, rfl⟩
    obtain ⟨hme, hcommit⟩ := tamperDealer_wire tamper b.1
    refine Triple.pure ⟨by rw [hme, hb.2.1], hd, ?_⟩
    rw [hcommit, hb.2.2]
  rw [← hids]
  refine (Triple.mapM _ hstart).conseq (fun started hs => ⟨?_, fun e he => ?_⟩) fun _ h => h
  · rw [List.map_map, ← List.zipIdx_map_fst 0 c.ids]
    exact (forall₂_map_eq (hs.imp fun _ _ h => h.1.symm)).symm
  · obtain ⟨e', -, he'⟩ := forall₂_exists_left hs he
    exact he'.2

/-! ## Lemmas: what is handed over -/

section Sending

variable [Transport T (SignedEnvelope (DkgMessage F G))] (w : Wire F G K) (pairs : KeyPairs S K) (sid : Bytes)
  (phase : Phase) {c : Committee} {tag : Bytes} {tamper : Option DkgTamper}

/-- Every member has a signing key. -/
def Registered (c : Committee) (st : SigningTransport T S K) : Prop :=
  ∀ i ∈ c.ids, ∃ key, st.signingKeys[i]? = some key

/-- The front end after messages whose inner state satisfies `I`. -/
def Handed (st : SigningTransport T S K) (I : T → Prop) (st' : SigningTransport T S K) : Prop :=
  st'.signingKeys = st.signingKeys ∧ st'.verifyingKeys = st.verifyingKeys ∧ I st'.inner

variable {st : SigningTransport T S K} {I : T → Prop}

theorem broadcast_handed {st' : SigningTransport T S K} (hh : Handed st I st') {env : Envelope (DkgMessage F G)}
    (hkey : ∃ key, st.signingKeys[env.sender]? = some key)
    (hI : ∀ t signed, I t → signed.envelope = env →
      I (Transport.broadcast t (Envelope.broadcast env.sid env.phase env.round env.sender signed))) :
    ∃ st'', st'.broadcast pairs w.dkg env = .ok st'' ∧ Handed st I st'' := by
  obtain ⟨key, hkey⟩ := hkey
  obtain ⟨hs, hv, hi⟩ := hh
  unfold SigningTransport.broadcast SigningTransport.signEnv
  rw [hs, hkey]
  exact ⟨_, rfl, rfl, hv, hI _ _ hi rfl⟩

theorem sendP2p_handed {st' : SigningTransport T S K} (hh : Handed st I st') {env : Envelope (DkgMessage F G)}
    {j : PartyId} (hj : env.addressee = some j) (hkey : ∃ key, st.signingKeys[env.sender]? = some key)
    (hI : ∀ t signed, I t → signed.envelope = env →
      I (Transport.sendP2p t (Envelope.p2p env.sid env.phase env.round env.sender j signed))) :
    ∃ st'', st'.sendP2p pairs w.dkg env = .ok st'' ∧ Handed st I st'' := by
  obtain ⟨key, hkey⟩ := hkey
  obtain ⟨hs, hv, hi⟩ := hh
  unfold SigningTransport.sendP2p SigningTransport.signEnv
  rw [hs, hkey]
  simp only [SignedEnvelope.sign, bind, Except.bind, hj]
  exact ⟨_, rfl, rfl, hv, hI _ _ hi rfl⟩

/-- **Rounds 1 and 2** hand over the dealers' own envelopes, and nothing else. -/
theorem handOver_ok (hreg : Registered c st) {started : List (DkgInstance F G × DkgBcast1)}
    (hme : (started.map (·.1)).map (·.me) = c.ids)
    (hd : ∀ e ∈ started, Dealer c sid tag tamper e.1 ∧ e.2 = e.1.commitOf)
    (hbcast : ∀ t signed, I t → (∃ d ∈ started.map (·.1), signed.envelope = commitEnvelope sid phase d ∨
        signed.envelope = revealOf sid phase d) →
      I (Transport.broadcast t (Envelope.broadcast signed.envelope.sid signed.envelope.phase signed.envelope.round
        signed.envelope.sender signed)))
    (hp2p : ∀ t signed j, I t → (∃ d ∈ started.map (·.1), signed.envelope = shareEnvelope sid phase d j) →
      I (Transport.sendP2p t (Envelope.p2p signed.envelope.sid signed.envelope.phase signed.envelope.round
        signed.envelope.sender j signed)))
    (hinit : I st.inner) : ∃ st', handOver w pairs sid phase started st = .ok st' ∧ Handed st I st' := by
  have hmem : ∀ d ∈ started.map (·.1), ∃ key, st.signingKeys[d.me]? = some key := by
    intro d hdm
    refine hreg d.me ?_
    rw [← hme]
    exact List.mem_map_of_mem hdm
  obtain ⟨st₁, hrun₁, hh₁⟩ := foldlM_inv (J := Handed st I) (f := fun st e =>
      st.broadcast pairs w.dkg (Envelope.broadcast sid phase DKG_ROUND_COMMIT e.1.me (.commit e.2))) started
    (fun e he st' hst' => by
      refine broadcast_handed w pairs hst' (hmem e.1 (List.mem_map_of_mem he)) fun t signed ht hsigned => ?_
      have hcommit : signed.envelope = commitEnvelope sid phase e.1 := by
        rw [hsigned, (hd e he).2]
        rfl
      have := hbcast t signed ht ⟨e.1, List.mem_map_of_mem he, Or.inl hcommit⟩
      rw [hsigned] at this
      exact this) st ⟨rfl, rfl, hinit⟩
  obtain ⟨st₂, hrun₂, hh₂⟩ := foldlM_inv (J := Handed st I) (f := sendReveal w pairs sid phase) (started.map (·.1))
    (fun d hdm st' hst' => by
      obtain ⟨e, he, rfl⟩ := List.mem_map.mp hdm
      have hreveal := (hd e he).1.reveal
      have hsent : ∀ t signed, I t → signed.envelope = revealOf sid phase e.1 → I (Transport.broadcast t
          (Envelope.broadcast (revealOf sid phase e.1).sid (revealOf sid phase e.1).phase
            (revealOf sid phase e.1).round (revealOf sid phase e.1).sender signed)) := fun t signed ht hsigned => by
          have := hbcast t signed ht ⟨e.1, hdm, Or.inr hsigned⟩
          rw [hsigned] at this
          exact this
      obtain ⟨st₃, hrun₃, hh₃⟩ := broadcast_handed w pairs hst' (hmem e.1 hdm) hsent
      obtain ⟨st₄, hrun₄, hh₄⟩ := foldlM_inv (J := Handed st I) (f := fun st s =>
          st.sendP2p pairs w.dkg (Envelope.p2p sid phase DKG_ROUND_REVEAL s.sender s.addressee (.share s)))
        (c.ids.map fun j => (⟨e.1.me, j, e.1.shareFor j⟩ : DkgP2P F))
        (fun s hs st' hst' => by
          obtain ⟨j, -, rfl⟩ := List.mem_map.mp hs
          refine sendP2p_handed w pairs hst' rfl (hmem e.1 hdm) fun t signed ht hsigned => ?_
          have := hp2p t signed j ht ⟨e.1, hdm, hsigned⟩
          rw [hsigned] at this
          exact this) st₃ hh₃
      refine ⟨st₄, ?_, hh₄⟩
      unfold sendReveal
      rw [hreveal]
      show (st'.broadcast pairs w.dkg (revealOf sid phase e.1) >>= _) = _
      rw [hrun₃]
      exact hrun₄) st₁ hh₁
  refine ⟨st₂, ?_, hh₂⟩
  unfold handOver
  rw [hrun₁]
  exact hrun₂

end Sending

/-! ## Lemmas: what is accepted -/

/-- A map with as many entries as the committee, all of them members', has every member. -/
theorem keyed_of_size {ν : Type} {c : Committee} {m : PartyMap ν} (hsub : ∀ (i : PartyId) v, m[i]? = some v → i ∈ c.ids)
    (hsize : m.size = c.n) : Keyed c m := by
  have hkeys : m.toList.map (·.1) ⊆ c.ids := by
    intro i hi
    obtain ⟨e, he, rfl⟩ := List.mem_map.mp hi
    exact hsub e.1 e.2 (Std.ExtTreeMap.mem_toList_iff_getElem?_eq_some.mp he)
  have hlen : c.ids.length ≤ (m.toList.map (·.1)).length := by
    rw [List.length_map, Std.ExtTreeMap.length_toList, hsize]
    exact le_refl _
  have hperm := ((nodup_keys_toList m).subperm hkeys).perm_of_length_le hlen
  intro i
  rw [← hperm.mem_iff, List.mem_map]
  constructor
  · intro hi
    exact ⟨(i, m[i]), Std.ExtTreeMap.mem_toList_iff_getElem?_eq_some.mpr (Std.ExtTreeMap.getElem?_eq_some_getElem hi), rfl⟩
  · rintro ⟨e, he, rfl⟩
    rw [Std.ExtTreeMap.mem_iff_isSome_getElem?, Std.ExtTreeMap.mem_toList_iff_getElem?_eq_some.mp he]
    rfl

theorem payloadsOf_pick {α : Type} (pick : DkgMessage F G → Option α) (text : String)
    {set : PartyMap (SignedEnvelope (DkgMessage F G))}
    (h : ∀ (p : PartyId) signed, set[p]? = some signed → ∃ v, pick signed.envelope.payload = some v) :
    ∃ r, payloadsOf pick text (set.map fun _ e => e.envelope) = .ok r ∧
      ∀ p : PartyId, r[p]? = set[p]?.bind fun e => pick e.envelope.payload := by
  have hread : ∀ f : PartyId × Envelope (DkgMessage F G) → Outcome (PartyId × α),
      (∀ e v, pick e.2.payload = some v → f e = .ok (e.1, v)) →
      ∃ r, (do let l ← (set.map fun _ e => e.envelope).toList.mapM f; return collect l : Outcome (PartyMap α)) = .ok r ∧
        ∀ p : PartyId, r[p]? = set[p]?.bind fun e => pick e.envelope.payload := by
    intro f hf
    obtain ⟨l, hrun, hmap⟩ := collect_mapM (m := set.map fun _ e => e.envelope) (f := f)
      (g := fun env => pick env.payload) (by
      intro i env hi
      rw [Std.ExtTreeMap.getElem?_map] at hi
      obtain ⟨signed, hs, rfl⟩ := Option.map_eq_some_iff.mp hi
      obtain ⟨v, hv⟩ := h i signed hs
      exact ⟨v, hv, hf (i, signed.envelope) v hv⟩)
    refine ⟨collect l, ?_, fun p => ?_⟩
    · exact congrArg (fun x : Outcome _ => x >>= fun l => pure (collect l)) hrun
    · rw [hmap p, Std.ExtTreeMap.getElem?_map]
      cases set[p]? <;> rfl
  exact hread _ fun e v hv => by simp only [hv]

section Accepted

variable [Transport T (SignedEnvelope (DkgMessage F G))] {w : Wire F G K} {sid : Bytes} {phase : Phase}
  {st : SigningTransport T S K} {insts : List (DkgInstance F G)}

/-- Every entry is what the dealer it is filed under handed over, and verifies. -/
def OwnSet (w : Wire F G K) (st : SigningTransport T S K) (insts : List (DkgInstance F G))
    (env : DkgInstance F G → Envelope (DkgMessage F G)) (set : PartyMap (SignedEnvelope (DkgMessage F G))) : Prop :=
  ∀ (p : PartyId) signed, set[p]? = some signed →
    st.valid w w.dkg signed = true ∧ ∃ d ∈ insts, d.me = p ∧ signed.envelope = env d

variable (phase) in
theorem verifyAll_own {env : DkgInstance F G → Envelope (DkgMessage F G)}
    {raw : PartyMap (Envelope (SignedEnvelope (DkgMessage F G)))} (h : Own w st insts raw env) :
    (∃ (q : PartyId) (outer : Envelope (SignedEnvelope (DkgMessage F G))), raw[q]? = some outer ∧
      st.valid w w.dkg outer.payload = false ∧ ∃ detail, st.verifyAll w w.dkg phase raw =
        .error (abort phase [outer.payload.envelope.sender] detail)) ∨
    ∃ set, st.verifyAll w w.dkg phase raw = .ok set ∧ OwnSet w st insts env set := by
  rcases st.verifyAll_cases w w.dkg phase raw with ⟨q, outer, hq, hinvalid, hrun⟩ | ⟨hvalid, set, hrun, hset⟩
  · exact Or.inl ⟨q, outer, hq, hinvalid, _, hrun⟩
  · refine Or.inr ⟨set, hrun, fun p signed hp => ?_⟩
    rw [hset p] at hp
    obtain ⟨outer, hraw, rfl⟩ := Option.map_eq_some_iff.mp hp
    exact ⟨hvalid p outer hraw, h p outer hraw (hvalid p outer hraw)⟩

/-- A failed signature, as the driver reports it. -/
def ForgedError (w : Wire F G K) (sid : Bytes) (phase : Phase) (st : SigningTransport T S K)
    (insts : List (DkgInstance F G)) (e : SignedDriveError F G) : Prop :=
  ∃ q detail, Forged w sid phase st insts q ∧ e = signedError (abort phase [q] detail)

/-- The values of a round, each its dealer's. -/
def OwnValues {ν : Type} (insts : List (DkgInstance F G)) (m : PartyMap ν) (val : DkgInstance F G → ν) : Prop :=
  ∀ (p : PartyId) v, m[p]? = some v → ∃ d ∈ insts, d.me = p ∧ v = val d

theorem OwnSet.payloads {α : Type} {env : DkgInstance F G → Envelope (DkgMessage F G)} {val : DkgInstance F G → α}
    {set : PartyMap (SignedEnvelope (DkgMessage F G))} (h : OwnSet w st insts env set)
    (pick : DkgMessage F G → Option α) (text : String) (hpick : ∀ d, pick (env d).payload = some (val d)) :
    ∃ r, payloadsOf pick text (set.map fun _ e => e.envelope) = .ok r ∧ OwnValues insts r val := by
  have hsome : ∀ (p : PartyId) signed, set[p]? = some signed → ∃ v, pick signed.envelope.payload = some v := by
    intro p signed hp
    obtain ⟨-, d, -, -, henv⟩ := h p signed hp
    exact ⟨val d, by rw [henv, hpick d]⟩
  obtain ⟨r, hrun, hmap⟩ := payloadsOf_pick pick text hsome
  refine ⟨r, hrun, fun p v hv => ?_⟩
  rw [hmap p] at hv
  obtain ⟨signed, hs, hv⟩ := Option.bind_eq_some_iff.mp hv
  obtain ⟨-, d, hd, hme, henv⟩ := h p signed hs
  rw [henv, hpick d] at hv
  exact ⟨d, hd, hme, (Option.some.inj hv).symm⟩

/-- **The accepted broadcasts** are the dealers' own, or a signature fails. -/
theorem acceptedSets_cases (hgen : GenuineAnswers w sid phase st insts) :
    (∃ e, acceptedSets w sid phase st = .error e ∧ ForgedError w sid phase st insts e) ∨
    ∃ r1 r2, acceptedSets w sid phase st = .ok (r1, r2) ∧ OwnValues insts r1 DkgInstance.commitOf ∧
      OwnValues insts r2 fun d => ⟨d.me, d.revealCom⟩ := by
  unfold acceptedSets SigningTransport.acceptedBroadcasts
  rcases verifyAll_own phase hgen.commits with ⟨q, outer, hq, hinvalid, detail, hrun⟩ | ⟨commits, hrun, hown⟩
  · refine Or.inl ⟨signedError (abort phase [outer.payload.envelope.sender] detail), by rw [hrun]; rfl, _, detail,
      ⟨_, Or.inl rfl, q, outer, hq, hinvalid, rfl⟩, rfl⟩
  obtain ⟨r1, hcommits, hown1⟩ : ∃ r1, commitsOf (commits.map fun _ e => e.envelope) = .ok r1 ∧
      OwnValues insts r1 DkgInstance.commitOf := hown.payloads _ _ fun d => rfl
  rcases verifyAll_own phase hgen.reveals with ⟨q, outer, hq, hinvalid, detail, hrun'⟩ | ⟨reveals, hrun', hown'⟩
  · refine Or.inl ⟨signedError (abort phase [outer.payload.envelope.sender] detail), ?_, _, detail,
      ⟨_, Or.inr (Or.inl rfl), q, outer, hq, hinvalid, rfl⟩, rfl⟩
    simp only [hrun, hrun', hcommits, bind, Except.bind, Except.mapError]
  obtain ⟨r2, hreveals, hown2⟩ : ∃ r2, revealsOf (reveals.map fun _ e => e.envelope) = .ok r2 ∧
      OwnValues insts r2 fun d => ⟨d.me, d.revealCom⟩ := hown'.payloads _ _ fun d => rfl
  refine Or.inr ⟨r1, r2, ?_, hown1, hown2⟩
  simp only [hrun, hrun', hcommits, hreveals, bind, Except.bind, Except.mapError]
  rfl

end Accepted

/-! ## Lemmas: one party's round 3 -/

/-- An envelope whose share is changed in transit. -/
def corruptEnvelope (env : SignedEnvelope (DkgMessage F G)) : SignedEnvelope (DkgMessage F G) :=
  match env.envelope.payload with
  | .share s => { env with envelope := { env.envelope with payload := .share { s with share := s.share + 1 } } }
  | _ => env

theorem tamperSigned_get (tamper : Option DkgTamper) (me : PartyId) (envs : PartyMap (SignedEnvelope (DkgMessage F G)))
    (p : PartyId) : (tamperSigned tamper me envs)[p]? = envs[p]?.map fun env =>
      if tamper.bind (·.corruptShare) = some (p, me) then corruptEnvelope env else env := by
  have hsame : envs[p]? = envs[p]?.map fun env => env := by cases envs[p]? <;> rfl
  unfold tamperSigned
  rcases hcor : tamper.bind (·.corruptShare) with _ | ⟨dealer, victim⟩
  · exact hsame
  simp only
  by_cases hv : victim = me
  · rw [if_pos hv, hv]
    by_cases hp : dealer = p
    · rw [hp]
      simp only [if_true]
      cases henv : envs[p]? with
      | none =>
        simp only
        rw [henv]
        rfl
      | some env =>
        simp only [Option.map_some, corruptEnvelope]
        split
        · next s hs => exact Std.ExtTreeMap.getElem?_insert_self
        · exact henv
    · have hne : ¬ (some (dealer, me) = some (p, me)) := fun h => hp (Prod.mk.inj (Option.some.inj h)).1
      simp only [if_neg hne]
      split
      · split
        · rw [Std.ExtTreeMap.getElem?_insert, if_neg (by simpa using hp)]
          exact hsame
        · exact hsame
      · exact hsame
  · rw [if_neg hv]
    have hne : ¬ (some (dealer, victim) = some (p, me)) := fun h => hv (Prod.mk.inj (Option.some.inj h)).2
    simp only [if_neg hne]
    exact hsame

/-- Whom `me` blames when dealer `d` fails its checks: itself after a false accusation,
else a dealer that dealt it a bad share or revealed off its commitment. -/
def Blames (tamper : Option DkgTamper) (me : PartyId) (d : DkgInstance F G) (x : PartyId) : Prop :=
  (x = me ∧ tamper.bind (·.corruptShare) = some (d.me, me)) ∨
    (x = d.me ∧ (tamper.bind (·.badReveal) = some d.me ∨ tamper.bind (·.badDeal) = some (d.me, me)))

theorem Blames.tampered {tamper : Option DkgTamper} {me : PartyId} {d : DkgInstance F G} {x : PartyId}
    (h : Blames tamper me d x) : Tampered tamper x := by
  rcases h with ⟨rfl, hcor⟩ | ⟨rfl, hrev | hdeal⟩
  · exact Or.inr (Or.inr ⟨d.me, hcor⟩)
  · exact Or.inr (Or.inl hrev)
  · exact Or.inl ⟨me, hdeal⟩

section Finalize

variable {sid tag : Bytes} {phase : Phase} {tamper : Option DkgTamper} {insts : List (DkgInstance F G)} {c : Committee}
  (hdeal : ∀ d ∈ insts, Dealer c sid tag tamper d) (hme : insts.map (·.me) = c.ids)

include hme

theorem dealer_unique {d d' : DkgInstance F G} (hd : d ∈ insts) (hd' : d' ∈ insts) (h : d.me = d'.me) : d = d' :=
  List.inj_on_of_nodup_map (by rw [hme]; exact c.nodup) hd hd' h

theorem OwnValues.get {ν : Type} {m : PartyMap ν} {val : DkgInstance F G → ν} (h : OwnValues insts m val)
    (hkeyed : Keyed c m) {d : DkgInstance F G} (hd : d ∈ insts) : m[d.me]? = some (val d) := by
  have hmem : d.me ∈ c.ids := by rw [← hme]; exact List.mem_map_of_mem hd
  obtain ⟨v, hv⟩ := hkeyed.getElem? hmem
  obtain ⟨d', hd', heq, rfl⟩ := h d.me v hv
  rw [hv, dealer_unique hme hd' hd heq]

theorem OwnValues.keyed {ν : Type} {m : PartyMap ν} {val : DkgInstance F G → ν} (h : OwnValues insts m val)
    (hsize : m.size = c.n) : Keyed c m := by
  refine keyed_of_size (fun i v hv => ?_) hsize
  obtain ⟨d, hd, rfl, -⟩ := h i v hv
  rw [← hme]
  exact List.mem_map_of_mem hd

include hdeal

/-- **One finalization**: the parties' own messages, one share perhaps corrupted,
are incomplete or blame whom the hooks made deviate. -/
theorem finalize_blames {inst : DkgInstance F G} (hinst : inst ∈ insts) {r1 : PartyMap DkgBcast1}
    {r2 : PartyMap (DkgBcast2 G)} {mine : PartyMap F} (h1 : OwnValues insts r1 DkgInstance.commitOf)
    (h2 : OwnValues insts r2 fun d => ⟨d.me, d.revealCom⟩)
    (hmine : OwnValues insts mine fun d =>
      if tamper.bind (·.corruptShare) = some (d.me, inst.me) then d.shareFor inst.me + 1 else d.shareFor inst.me)
    {fault : Fault} (hf : inst.finalize phase r1 r2 mine (collect (insts.map fun d => (d.me, d.defend inst.me))) =
      .error fault) :
    fault = .error (.invalidParams "incomplete message sets") ∨
      ∃ d ∈ insts, ∃ x detail, fault = abort phase [x] detail ∧ Blames tamper inst.me d x := by
  have hids : inst.committee = c := (hdeal inst hinst).fields.1
  have hnd : ((insts.map fun d => (d.me, d.defend inst.me)).map (·.1)).Nodup := by
    rw [List.map_map]
    show (insts.map (·.me)).Nodup
    rw [hme]
    exact c.nodup
  have hdef : ∀ d ∈ insts, (collect (insts.map fun d => (d.me, d.defend inst.me)))[d.me]? = some (d.shareFor inst.me) :=
    fun d hd => collect_getElem? _ hnd (List.mem_map_of_mem hd)
  by_cases hsize : r1.size ≠ c.n ∨ r2.size ≠ c.n ∨ mine.size ≠ c.n ∨
      (collect (insts.map fun d => (d.me, d.defend inst.me))).size ≠ c.n
  · unfold DkgInstance.finalize at hf
    rw [hids, if_pos hsize] at hf
    exact Or.inl (Except.error.inj hf).symm
  rw [not_or, not_or, not_or, not_not, not_not, not_not, not_not] at hsize
  obtain ⟨hs1, hs2, hsm, hsd⟩ := hsize
  have k1 := h1.keyed hme hs1
  have k2 := h2.keyed hme hs2
  have km := hmine.keyed hme hsm
  have kd : Keyed c (collect (insts.map fun d => (d.me, d.defend inst.me))) := by
    refine keyed_of_size (fun i v hv => ?_) hsd
    obtain ⟨d, hd, heq⟩ := List.mem_map.mp (mem_of_collect hv)
    obtain ⟨rfl, -⟩ := Prod.mk.inj heq
    rw [← hme]
    exact List.mem_map_of_mem hd
  have hhonest := (hdeal inst hinst).honest_finalize
  rcases DkgInstance.finalize_cases _ hhonest phase k1 k2 km kd with ⟨i, hfirst, detail, herr⟩ | ⟨-, -, com, -, hok⟩
  · have hrun := hf.symm.trans herr
    have hfound := List.find?_some hfirst
    have hi : i ∈ c.ids := by
      have := List.mem_of_find?_eq_some hfirst
      rwa [show ({ inst with badDeal := none, badReveal := false } : DkgInstance F G).committee = c from hids] at this
    rw [← hme] at hi
    obtain ⟨d, hd, rfl⟩ := List.mem_map.mp hi
    refine Or.inr ⟨d, hd, _, detail, Except.error.inj hrun, ?_⟩
    have hg1 := h1.get hme k1 hd
    have hg2 := h2.get hme k2 hd
    have hgm := hmine.get hme km hd
    have hgd := hdef d hd
    have hver : ∀ values : PartyMap F, ∀ v, values[d.me]? = some v →
        DkgInstance.entryVerifies r2 values inst.me d.me = d.revealCom.verifyShare inst.me v := by
      intro values v hv
      unfold DkgInstance.entryVerifies
      rw [hg2, hv]
    have hfail : (DkgInstance.revealConsistent F c.t sid tag r1 r2 d.me &&
        DkgInstance.entryVerifies r2 mine inst.me d.me) = false := by
      have hkeep : inst.committee = c ∧ inst.sid = sid ∧ inst.tag = tag :=
        ⟨hids, (hdeal inst hinst).fields.2.1, (hdeal inst hinst).fields.2.2.1⟩
      have := hfound
      simp only [hkeep.1, hkeep.2.1, hkeep.2.2, Bool.not_eq_true'] at this
      exact this
    cases hcase : (DkgInstance.revealConsistent F c.t sid tag r1 r2 d.me && DkgInstance.entryVerifies r2
        (collect (insts.map fun d => (d.me, d.defend inst.me))) inst.me d.me) with
    | true =>
      refine Or.inl ⟨if_pos rfl, ?_⟩
      by_contra hcor
      rw [if_neg hcor] at hgm
      rw [hver _ _ hgm, ← hver _ _ hgd, hcase] at hfail
      cases hfail
    | false =>
      refine Or.inr ⟨if_neg Bool.false_ne_true, ?_⟩
      by_contra hclean
      obtain ⟨hrev, hbad⟩ := not_or.mp hclean
      rw [(hdeal d hd).consistent hrev hg1 hg2, hver _ _ hgd, (hdeal d hd).verifies hrev hbad] at hcase
      cases hcase
  · have hrun := hf.symm.trans hok
    cases hrun

end Finalize

section Finalized

variable [Transport T (SignedEnvelope (DkgMessage F G))] {w : Wire F G K} {sid tag : Bytes} {phase : Phase}
  {tamper : Option DkgTamper} {st : SigningTransport T S K} {insts : List (DkgInstance F G)} {c : Committee}

/-- **How one party's round 3 fails**: a failed signature, or its finalization over the
dealers' own shares, with the token built from them. -/
theorem finalizeSigned_cases (hdeal : ∀ d ∈ insts, Dealer c sid tag tamper d) (hme : insts.map (·.me) = c.ids)
    (hgen : GenuineAnswers w sid phase st insts) {inst : DkgInstance F G} (hinst : inst ∈ insts)
    {r1 : PartyMap DkgBcast1} {r2 : PartyMap (DkgBcast2 G)} (h1 : OwnValues insts r1 DkgInstance.commitOf)
    (h2 : OwnValues insts r2 fun d => ⟨d.me, d.revealCom⟩) {e : SignedDriveError F G}
    (he : finalizeSigned w sid phase tamper st insts r1 r2 inst = .error e) :
    (ForgedError w sid phase st insts e ∧ ∃ fault, st.acceptedP2p w w.dkg sid phase DKG_ROUND_REVEAL inst.me =
      .error fault) ∨
    ∃ set, st.acceptedP2p w w.dkg sid phase DKG_ROUND_REVEAL inst.me = .ok set ∧
      OwnSet w st insts (fun d => shareEnvelope sid phase d inst.me) set ∧
      e.token = dealerBlameToken e.error (tamperSigned tamper inst.me set) r2 ∧
      (e.error = .error (.invalidParams "incomplete message sets") ∨
        ∃ d ∈ insts, ∃ x detail, e.error = abort phase [x] detail ∧ Blames tamper inst.me d x) := by
  unfold finalizeSigned at he
  rcases verifyAll_own phase (hgen.shares inst.me) with ⟨q, outer, hq, hinvalid, detail, hrun⟩ | ⟨set, hrun, hown⟩
  · refine Or.inl ⟨⟨_, detail, ⟨_, Or.inr (Or.inr ⟨inst, hinst, rfl⟩), q, outer, hq, hinvalid, rfl⟩, ?_⟩, _, hrun⟩
    unfold SigningTransport.acceptedP2p at he
    rw [hrun] at he
    exact (Except.error.inj he).symm
  · refine Or.inr ⟨set, hrun, hown, ?_⟩
    have hentry : ∀ (p : PartyId) signed, (tamperSigned tamper inst.me set)[p]? = some signed →
        ∃ d ∈ insts, d.me = p ∧ (match signed.envelope.payload with
          | .share s => some s.share
          | _ => none) = some (if tamper.bind (·.corruptShare) = some (d.me, inst.me) then d.shareFor inst.me + 1
            else d.shareFor inst.me) := by
      intro p signed hp
      rw [tamperSigned_get] at hp
      obtain ⟨own, hset, rfl⟩ := Option.map_eq_some_iff.mp hp
      obtain ⟨-, d, hd, rfl, henv⟩ := hown p own hset
      refine ⟨d, hd, rfl, ?_⟩
      split_ifs with hcor
      · unfold corruptEnvelope
        rw [henv]
        rfl
      · rw [henv]
        rfl
    let pick : DkgMessage F G → Option F := fun | .share s => some s.share | _ => none
    have hsome : ∀ (p : PartyId) signed, (tamperSigned tamper inst.me set)[p]? = some signed →
        ∃ v, pick signed.envelope.payload = some v := fun p signed hp => by
      obtain ⟨d, -, -, hpick⟩ := hentry p signed hp
      exact ⟨_, hpick⟩
    obtain ⟨mine, hmine, hvals⟩ := payloadsOf_pick pick "p2p carries only shares" hsome
    have hownMine : OwnValues insts mine fun d =>
        if tamper.bind (·.corruptShare) = some (d.me, inst.me) then d.shareFor inst.me + 1 else d.shareFor inst.me := by
      intro p v hv
      rw [hvals p] at hv
      obtain ⟨signed, hp, hpick⟩ := Option.bind_eq_some_iff.mp hv
      obtain ⟨d, hd, hdme, hpick'⟩ := hentry p signed hp
      exact ⟨d, hd, hdme, Option.some.inj (hpick.symm.trans hpick')⟩
    unfold SigningTransport.acceptedP2p at he
    simp only [hrun, bind, Except.bind, Except.mapError] at he
    rw [show payloadsOf _ _ _ = _ from hmine] at he
    simp only at he
    split at he
    · cases he
    · next fault hfault =>
      obtain rfl := Except.error.inj he
      exact ⟨rfl, finalize_blames hdeal hme hinst h1 h2 hownMine hfault⟩

end Finalized

/-! ## Lemmas: tokens -/

/-- What a token is made of. -/
theorem dealerBlameToken_some {fault : Fault} {shareEnvs : PartyMap (SignedEnvelope (DkgMessage F G))}
    {r2 : PartyMap (DkgBcast2 G)} {token : BlameToken F G} (h : dealerBlameToken fault shareEnvs r2 = some token) :
    ∃ ab dealer s, fault = .error (.abort ab) ∧ ab.blamed = [dealer] ∧ token.abort = ab ∧
      shareEnvs[dealer]? = some token.envelope ∧ token.envelope.envelope.payload = .share s ∧ s.sender = dealer ∧
      token.com.verifyShare s.addressee s.share = false := by
  unfold dealerBlameToken at h
  split at h
  · next ab =>
    split at h
    · next dealer hblamed =>
      obtain ⟨envelope, henv, h⟩ := Option.bind_eq_some_iff.mp h
      obtain ⟨b2, hb2, h⟩ := Option.bind_eq_some_iff.mp h
      split at h
      · next s hs =>
        split at h
        · cases h
        · next hnot =>
          obtain ⟨hsender, hfail⟩ := not_or.mp hnot
          obtain rfl := Option.some.inj h
          exact ⟨ab, dealer, s, rfl, hblamed, rfl, henv, hs, not_not.mp hsender, by simpa using hfail⟩
      · cases h
    · cases h
  · cases h

theorem dealerBlameToken_of_fails {phase : Phase} {dealer : PartyId} {detail : String}
    {shareEnvs : PartyMap (SignedEnvelope (DkgMessage F G))} {r2 : PartyMap (DkgBcast2 G)}
    {envelope : SignedEnvelope (DkgMessage F G)} {b2 : DkgBcast2 G} {s : DkgP2P F}
    (henv : shareEnvs[dealer]? = some envelope) (hb2 : r2[dealer]? = some b2)
    (hs : envelope.envelope.payload = .share s) (hsender : s.sender = dealer)
    (hfail : b2.com.verifyShare s.addressee s.share = false) :
    (dealerBlameToken (abort phase [dealer] detail) shareEnvs r2).isSome = true := by
  unfold dealerBlameToken abort
  simp only [henv, hb2, Option.bind_eq_bind, Option.bind_some, hs]
  rw [if_neg (by rw [hsender, hfail]; simp)]
  rfl

theorem keyOf_toList {ν : Type} (m : PartyMap ν) (p : PartyId) : keyOf m.toList p = m[p]? := by
  unfold keyOf
  cases hp : m[p]? with
  | some v =>
    cases hf : m.toList.find? fun e => e.1 == p with
    | none =>
      have := List.find?_eq_none.mp hf (p, v) (Std.ExtTreeMap.mem_toList_iff_getElem?_eq_some.mpr hp)
      simp at this
    | some e =>
      have he := Std.ExtTreeMap.mem_toList_iff_getElem?_eq_some.mp (List.mem_of_find?_eq_some hf)
      have hep : e.1 = p := by simpa using List.find?_some hf
      rw [hep, hp] at he
      exact he.symm
  | none =>
    rw [Option.map_eq_none_iff, List.find?_eq_none]
    intro e he hep
    have he := Std.ExtTreeMap.mem_toList_iff_getElem?_eq_some.mp he
    have hep : e.1 = p := by simpa using hep
    rw [hep, hp] at he
    cases he

/-- A corrupted share of an honest dealer does not make that dealer the one to blame. -/
theorem Blames.not_corrupted {tamper : Option DkgTamper} {me : PartyId} {d : DkgInstance F G} {x : PartyId}
    (h : Blames tamper me d x) (hplain : HonestlyDealt tamper) : tamper.bind (·.corruptShare) ≠ some (x, me) := by
  intro hcor
  obtain ⟨hne, hdeal, hrev⟩ := hplain x me hcor
  rcases h with ⟨hx, -⟩ | ⟨rfl, hrev' | hdeal'⟩
  · exact hne hx
  · exact hrev hrev'
  · exact hdeal hdeal'

section Accountability

variable [Transport T (SignedEnvelope (DkgMessage F G))] {w : Wire F G K} {sid tag : Bytes} {phase : Phase}
  {tamper : Option DkgTamper} {st : SigningTransport T S K} {insts : List (DkgInstance F G)} {c : Committee}
  (hdeal : ∀ d ∈ insts, Dealer c sid tag tamper d) (hme : insts.map (·.me) = c.ids)
  (hgen : GenuineAnswers w sid phase st insts)

include hdeal hme hgen

/-- The evidence clause, whatever made the driver fail. -/
theorem evidence_of_failsAt (hplain : HonestlyDealt tamper) {inst : DkgInstance F G} (hinst : inst ∈ insts)
    {r2 : PartyMap (DkgBcast2 G)} {e : SignedDriveError F G} (hfails : FailsAt w sid phase tamper st insts inst r2 e)
    {phase' : Phase} {dealer : PartyId} {detail : String} (herr : e.error = abort phase' [dealer] detail)
    {set : PartyMap (SignedEnvelope (DkgMessage F G))} {signed : SignedEnvelope (DkgMessage F G)} {s : DkgP2P F}
    {b2 : DkgBcast2 G} (hset : st.acceptedP2p w w.dkg sid phase DKG_ROUND_REVEAL inst.me = .ok set)
    (hsigned : set[dealer]? = some signed) (hs : signed.envelope.payload = .share s) (hb2 : r2[dealer]? = some b2)
    (hfail : b2.com.verifyShare s.addressee s.share = false) : e.token.isSome = true := by
  obtain ⟨r1, hsets, hrun⟩ := hfails
  rcases acceptedSets_cases hgen with ⟨_, hbad, -⟩ | ⟨r1', r2', hsets', h1, h2⟩
  · rw [hsets] at hbad
    cases hbad
  rw [hsets] at hsets'
  obtain ⟨rfl, rfl⟩ := Prod.mk.inj (Except.ok.inj hsets')
  rcases finalizeSigned_cases hdeal hme hgen hinst h1 h2 hrun with ⟨-, fault, hfault⟩ | ⟨set', hset', hown, htoken, hcause⟩
  · rw [hset] at hfault
    cases hfault
  rw [hset] at hset'
  obtain rfl := Except.ok.inj hset'
  rcases hcause with hinv | ⟨d, hd, x, detail', hab, hblames⟩
  · rw [hinv] at herr
    cases herr
  rw [hab] at herr
  have hx : x = dealer := by cases herr; rfl
  subst hx
  have hget : (tamperSigned tamper inst.me set)[x]? = some signed := by
    rw [tamperSigned_get, hsigned, Option.map_some, if_neg (hblames.not_corrupted hplain)]
  obtain ⟨-, d', hd', rfl, henv⟩ := hown x signed hsigned
  have hsender : s.sender = d'.me := by
    rw [henv] at hs
    cases hs
    rfl
  rw [htoken, hab]
  exact dealerBlameToken_of_fails hget hb2 hs hsender hfail

/-- A forged envelope blames its claimed sender, without a token. -/
theorem accountable_of_forged {e : SignedDriveError F G} (h : ForgedError w sid phase st insts e) :
    Accountable w sid phase tamper st insts e := by
  obtain ⟨q, detail, hforged, rfl⟩ := h
  refine ⟨⟨_, rfl⟩, fun phase' blamed detail' herr p hp => ?_, fun _ token htoken => (by cases htoken), ?_⟩
  · cases herr
    obtain rfl := List.mem_singleton.mp hp
    exact Or.inr hforged
  · intro hplain inst hinst r2 hfails phase' dealer detail' herr set signed s b2
    exact evidence_of_failsAt hdeal hme hgen hplain hinst hfails herr

/-- **One party's failure is accounted for.** -/
theorem accountable_of_failsAt {inst : DkgInstance F G} (hinst : inst ∈ insts) {r2 : PartyMap (DkgBcast2 G)}
    {e : SignedDriveError F G} (hfails : FailsAt w sid phase tamper st insts inst r2 e) :
    Accountable w sid phase tamper st insts e := by
  obtain ⟨r1, hsets, hrun⟩ := id hfails
  rcases acceptedSets_cases hgen with ⟨_, hbad, -⟩ | ⟨r1', r2', hsets', h1, h2⟩
  · rw [hsets] at hbad
    cases hbad
  rw [hsets] at hsets'
  obtain ⟨rfl, rfl⟩ := Prod.mk.inj (Except.ok.inj hsets')
  rcases finalizeSigned_cases hdeal hme hgen hinst h1 h2 hrun with ⟨hforged, -⟩ | ⟨set, hset, hown, htoken, hcause⟩
  · exact accountable_of_forged hdeal hme hgen hforged
  refine ⟨?_, fun phase' blamed detail' herr p hp => ?_, fun hplain token htok => ?_, ?_⟩
  · rcases hcause with hinv | ⟨-, -, x, detail, hab, -⟩
    · exact ⟨_, hinv⟩
    · exact ⟨_, hab⟩
  · rcases hcause with hinv | ⟨d, hd, x, detail, hab, hblames⟩
    · rw [hinv] at herr
      cases herr
    · rw [hab] at herr
      cases herr
      obtain rfl := List.mem_singleton.mp hp
      exact Or.inl hblames.tampered
  · rw [htoken] at htok
    obtain ⟨ab, dealer, s, hfault, hblamed, habort, henv, hs, hsender, hfail⟩ := dealerBlameToken_some htok
    rcases hcause with hinv | ⟨d, hd, x, detail, hab, hblames⟩
    · rw [hinv] at hfault
      cases hfault
    rw [hab] at hfault
    obtain rfl : ab = ⟨phase, [x], detail⟩ := by cases hfault; rfl
    obtain rfl : x = dealer := (List.cons.inj hblamed).1
    rw [tamperSigned_get] at henv
    obtain ⟨signed, hsigned, heq⟩ := Option.map_eq_some_iff.mp henv
    rw [if_neg (hblames.not_corrupted hplain)] at heq
    obtain ⟨hvalid, d', hd', hx, henvelope⟩ := hown x signed hsigned
    rw [heq] at hvalid henvelope
    have henvSender : token.envelope.envelope.sender = x := by rw [henvelope]; exact hx
    have hphase : token.envelope.envelope.phase = phase := by rw [henvelope]; rfl
    have hsig : signedBy w w.dkg st.verifyingKeys.toList x token.envelope = true := by
      unfold signedBy
      rw [keyOf_toList, ← henvSender]
      exact hvalid
    unfold BlameToken.verify
    simp only [habort, henvSender, hphase, hs, hsender, hsig, hfail]
    simp
  · intro hplain inst' hinst' r2' hfails' phase' dealer detail' herr set' signed s b2
    exact evidence_of_failsAt hdeal hme hgen hplain hinst' hfails' herr

end Accountability

/-! ## Theorems -/

/-- The default committee of parameters that `Params::new` accepts. -/
theorem full_of_new {n t : Usize} {params : Params} (h : Params.new n t = .ok params) :
    ∃ c, Committee.full params = .ok c ∧ c.ids = params.parties ∧ c.n = params.n.val := by
  unfold Params.new at h
  split at h
  · cases h
  next ht =>
  split at h
  · cases h
  next hn =>
  obtain rfl := Except.ok.inj h
  have hlen : (⟨n, t⟩ : Params).parties.length = n.val := by
    unfold Params.parties
    rw [List.length_map, List.length_range]
  have hnt : (2 * t - 1).val ≤ n.val := not_lt.mp hn
  have hpos : 0 < n.val := by
    have hmul : (2 * t : Usize).val = (2 * t.val) % 2 ^ 64 := by rw [Fin.val_mul]; rfl
    have hsub : (2 * t - 1 : Usize).val = (2 ^ 64 - 1 + (2 * t : Usize).val) % 2 ^ 64 := Fin.sub_def ..▸ rfl
    rw [hsub, hmul] at hnt
    omega
  have hsorted := parties_sorted ⟨n, t⟩
  have hids : ∀ i ∈ (⟨n, t⟩ : Params).parties, 0 < i := by
    intro i hi
    obtain ⟨k, hk, rfl⟩ := List.mem_map.mp hi
    have hk := List.mem_range.mp hk
    have hlt := n.isLt
    rw [Fin.lt_def, Fin.val_ofNat, Nat.mod_eq_of_lt (by simp only at hk; omega)]
    exact Nat.succ_pos k
  have hne : (⟨n, t⟩ : Params).parties ≠ [] := by
    intro h0
    rw [h0, List.length_nil] at hlen
    omega
  have hsort : (⟨n, t⟩ : Params).parties.insertionSort (· ≤ ·) = (⟨n, t⟩ : Params).parties :=
    List.Pairwise.insertionSort_eq (hsorted.imp le_of_lt)
  have hnew : ∃ c, Committee.new (⟨n, t⟩ : Params).parties t = .ok c := by
    unfold Committee.new
    rw [dif_neg ht, if_neg (by rw [hlen]; exact not_lt.mpr hnt)]
    simp only [hsort]
    split
    · next h0 =>
      rw [hsort] at h0
      exact absurd (List.head?_eq_none_iff.mp h0) hne
    · next a h0 =>
      rw [hsort] at h0
      rw [dif_neg (Fin.pos_iff_ne_zero.mp (hids a (List.mem_of_head? h0))),
        dif_neg (by simp [Committee.hasDup_of_pairwise_lt hsorted])]
      exact ⟨_, rfl⟩
  obtain ⟨c, hc⟩ := hnew
  have hcids : c.ids = (⟨n, t⟩ : Params).parties := by rw [(Committee.new_ok hc).1, hsort]
  refine ⟨c, ?_, hcids, by rw [Committee.n, hcids, hlen]⟩
  unfold Committee.full
  rw [hc]

section Main

variable [Transport T (SignedEnvelope (DkgMessage F G))]

/-- **The driver's run** up to round 3: all dealers start and hand over their envelopes. -/
theorem driveDkgSigned_run {n t : Usize} {params : Params} (hparams : Params.new n t = .ok params) (w : Wire F G K)
    (pairs : KeyPairs S K) (sid tag : Bytes) (phase : Phase) (tamper : Option DkgTamper) (inner : T)
    {signers : List (PartyId × S)} (hsigners : ∀ i ∈ params.parties, i ∈ signers.map (·.1)) {s : Rngs F}
    (hs : params.n.val ≤ s.rngs.length) :
    ∃ c started st s', Registered c (SigningTransport.new pairs inner signers) ∧
      (started.map (·.1)).map (·.me) = c.ids ∧ (∀ e ∈ started, Dealer c sid tag tamper e.1 ∧ e.2 = e.1.commitOf) ∧
      startDealers (G := G) params sid tag tamper s = (.ok started, s') ∧
      handOver w pairs sid phase started (.new pairs inner signers) = .ok st ∧
      st.verifyingKeys = (SigningTransport.new pairs inner signers).verifyingKeys ∧
      driveDkgSigned w pairs sid phase tamper params tag (.new pairs inner signers) s =
        (finalizeAll w sid phase tamper st (started.map (·.1)), s') := by
  obtain ⟨c, hc, hids, hn⟩ := full_of_new hparams
  obtain ⟨started, s', hrun, -, hme, hd⟩ := (startDealers_triple (F := F) (G := G) hc hids sid tag tamper).ok (s := s)
    (by unfold Enough; rw [hn]; exact hs)
  have hreg : Registered c (SigningTransport.new pairs inner signers) := by
    intro i hi
    rw [hids] at hi
    have hmem : i ∈ collect signers := by
      unfold collect
      rw [Std.ExtTreeMap.mem_ofList]
      simpa using hsigners i hi
    exact ⟨_, Std.ExtTreeMap.getElem?_eq_some_getElem hmem⟩
  obtain ⟨st, hhand, -, hkeys, -⟩ := handOver_ok (I := fun _ => True) w pairs sid phase hreg hme hd
    (fun _ _ _ _ => trivial) (fun _ _ _ _ _ => trivial) trivial
  refine ⟨c, started, st, s', hreg, hme, hd, hrun, hhand, hkeys, ?_⟩
  unfold driveDkgSigned
  rw [bind_run, adapt_run, hrun]
  simp only [Except.mapError, lift_bind_run, hhand]
  rfl

/-- **The signed DKG driver blames soundly.**  Over an inner transport whose valid
envelopes are the run's own, a failure is never a panic, blames a party of no hook only for
an envelope forged in its name, and carries a token that verifies wherever a signed share
is the evidence. -/
theorem drive_dkg_signed_sound {n t : Usize} {params : Params} (hparams : Params.new n t = .ok params) (w : Wire F G K)
    (pairs : KeyPairs S K) (sid tag : Bytes) (phase : Phase) (tamper : Option DkgTamper) (inner : T)
    (signers : List (PartyId × S)) (hsigners : ∀ i ∈ params.parties, i ∈ signers.map (·.1)) (s : Rngs F)
    (hs : params.n.val ≤ s.rngs.length) :
    ∃ started st s', startDealers (G := G) params sid tag tamper s = (.ok started, s') ∧
      handOver w pairs sid phase started (.new pairs inner signers) = .ok st ∧
      st.verifyingKeys = (SigningTransport.new pairs inner signers).verifyingKeys ∧
      (GenuineAnswers w sid phase st (started.map (·.1)) → ∀ e,
        (driveDkgSigned w pairs sid phase tamper params tag (.new pairs inner signers) s).1 = .error e →
        (ForgedError w sid phase st (started.map (·.1)) e ∨
          ∃ inst ∈ started.map (·.1), ∃ r2, FailsAt w sid phase tamper st (started.map (·.1)) inst r2 e) ∧
        Accountable w sid phase tamper st (started.map (·.1)) e) := by
  obtain ⟨c, started, st, s', -, hme, hd, hrun, hhand, hkeys, hdrive⟩ :=
    driveDkgSigned_run hparams w pairs sid tag phase tamper inner hsigners hs
  refine ⟨started, st, s', hrun, hhand, hkeys, fun hgen e he => ?_⟩
  have hdeal : ∀ d ∈ started.map (·.1), Dealer c sid tag tamper d := by
    intro d hdm
    obtain ⟨e, hem, rfl⟩ := List.mem_map.mp hdm
    exact (hd e hem).1
  have hraised : ForgedError w sid phase st (started.map (·.1)) e ∨
      ∃ inst ∈ started.map (·.1), ∃ r2, FailsAt w sid phase tamper st (started.map (·.1)) inst r2 e := by
    rw [hdrive] at he
    unfold finalizeAll at he
    rcases acceptedSets_cases hgen with ⟨e', hsets, hforged⟩ | ⟨r1, r2, hsets, -, -⟩
    · rw [hsets] at he
      obtain rfl := Except.error.inj he
      exact Or.inl hforged
    · rw [hsets] at he
      obtain ⟨inst, hinst, hfinalize⟩ := mapM_error_mem _ _ he
      exact Or.inr ⟨inst, hinst, r2, r1, hsets, hfinalize⟩
  refine ⟨hraised, ?_⟩
  rcases hraised with hforged | ⟨inst, hinst, r2, hfails⟩
  · exact accountable_of_forged hdeal hme hgen hforged
  · exact accountable_of_failsAt hdeal hme hgen hinst hfails

end Main

/-! ### Runs over the in-process transport, and over one that forges -/

section Sim

variable {w : Wire F G K} {pairs : KeyPairs S K} {sid tag : Bytes} {phase : Phase} {tamper : Option DkgTamper}
  {c : Committee} {signers : List (PartyId × S)}

/-- What the in-process transport holds of a run. -/
def HoldsOwn (sid : Bytes) (phase : Phase) (insts : List (DkgInstance F G))
    (tr : SimTransport (SignedEnvelope (DkgMessage F G))) : Prop :=
  (∀ o ∈ tr.bcast, o.sender = o.payload.envelope.sender ∧ o.round = o.payload.envelope.round ∧
    ∃ d ∈ insts, o.payload.envelope = commitEnvelope sid phase d ∨ o.payload.envelope = revealOf sid phase d) ∧
  ∀ o ∈ tr.p2p, o.sender = o.payload.envelope.sender ∧ ∃ d ∈ insts, ∃ j, o.addressee = some j ∧
    o.payload.envelope = shareEnvelope sid phase d j

/-- The in-process transport neither relabels nor replays. -/
theorem genuine_sim {started : List (DkgInstance F G × DkgBcast1)} {st : SigningTransport (SimTransport
      (SignedEnvelope (DkgMessage F G))) S K} (hreg : Registered c (SigningTransport.new pairs
      (SimTransport.new : SimTransport (SignedEnvelope (DkgMessage F G))) signers))
    (hme : (started.map (·.1)).map (·.me) = c.ids)
    (hd : ∀ e ∈ started, Dealer c sid tag tamper e.1 ∧ e.2 = e.1.commitOf)
    (hhand : handOver w pairs sid phase started (.new pairs SimTransport.new signers) = .ok st) :
    GenuineAnswers w sid phase st (started.map (·.1)) := by
  obtain ⟨st', hhand', -, -, hb, hp⟩ := handOver_ok (I := HoldsOwn sid phase (started.map (·.1))) w pairs sid phase hreg hme hd
    (fun t signed ht hown => by
      refine ⟨fun o ho => ?_, ht.2⟩
      rcases List.mem_append.mp ho with ho | ho
      · exact ht.1 o ho
      · obtain rfl := List.mem_singleton.mp ho
        exact ⟨rfl, rfl, hown⟩)
    (fun t signed j ht hown => by
      refine ⟨ht.1, fun o ho => ?_⟩
      rcases List.mem_append.mp ho with ho | ho
      · exact ht.2 o ho
      · obtain rfl := List.mem_singleton.mp ho
        obtain ⟨d, hd, henv⟩ := hown
        exact ⟨rfl, d, hd, j, rfl, henv⟩)
    ⟨fun o ho => (by cases ho), fun o ho => (by cases ho)⟩
  rw [hhand] at hhand'
  obtain rfl := Except.ok.inj hhand'
  refine ⟨fun p outer hraw _ => ?_, fun p outer hraw _ => ?_, fun j p outer hraw _ => ?_⟩
  · obtain ⟨hmem, hsender, -, -, hround⟩ := SimTransport.acceptedBroadcasts_mem hraw
    obtain ⟨hlabel, hr, d, hdm, hcommit | hreveal⟩ := hb outer hmem
    · exact ⟨d, hdm, by rw [← hsender, hlabel, hcommit]; rfl, hcommit⟩
    · rw [hr, hreveal] at hround
      cases hround
  · obtain ⟨hmem, hsender, -, -, hround⟩ := SimTransport.acceptedBroadcasts_mem hraw
    obtain ⟨hlabel, hr, d, hdm, hcommit | hreveal⟩ := hb outer hmem
    · rw [hr, hcommit] at hround
      cases hround
    · exact ⟨d, hdm, by rw [← hsender, hlabel, hreveal]; rfl, hreveal⟩
  · obtain ⟨hmem, hsender, -, -, -, haddressee⟩ := SimTransport.acceptedP2p_mem hraw
    obtain ⟨hlabel, d, hdm, j', hj, hshare⟩ := hp outer hmem
    obtain rfl : j' = j := Option.some.inj (hj.symm.trans haddressee)
    exact ⟨d, hdm, by rw [← hsender, hlabel, hshare]; rfl, hshare⟩

end Sim

section Example

open Secp256k1

/-- Every party's signatures are `[1]`, and nothing else verifies. -/
def markWire : Wire Scalar Point Unit := ⟨DkgMessage.encode, fun _ => [], fun _ _ sig => sig == [1]⟩

def markKeys : KeyPairs Unit Unit := ⟨id, fun _ _ => [1]⟩

def threeRngs : Rngs Scalar := ⟨[⟨1, fun _ => 1, 0⟩, ⟨2, fun _ => 1, 0⟩, ⟨3, fun _ => 1, 0⟩], []⟩

/-- Three parties, where dealer 2 deals party 1 a bad share. -/
def tamperedDrive : Except (SignedDriveError Scalar Point) (List (DkgOutput Scalar Point)) :=
  (driveDkgSigned markWire markKeys (utf8 "s") .keyGen (some ⟨none, some (2, 1), none⟩) ⟨3, 2⟩ []
    (.new markKeys (SimTransport.new : SimTransport (SignedEnvelope (DkgMessage Scalar Point)))
      [(1, ()), (2, ()), (3, ())]) threeRngs).1

/-- The drive blames dealer 2 with a token. -/
theorem tamperedDrive_error : ∃ e, tamperedDrive = .error e ∧
    e.error = abort .keyGen [2] "dealer 2's defense share fails verification against its commitment" ∧
    e.token.isSome = true := by
  have hrun : tamperedDrive.mapError (fun e => (e.error, e.token.isSome)) =
      .error (abort .keyGen [2] "dealer 2's defense share fails verification against its commitment", true) := by
    decide +kernel
  rcases h : tamperedDrive with e | outs
  · rw [h] at hrun
    obtain ⟨herror, htoken⟩ := Prod.mk.inj (Except.error.inj hrun)
    exact ⟨e, rfl, herror, htoken⟩
  · rw [h] at hrun
    cases hrun

theorem drive_dkg_signed_three : Params.new 3 2 = .ok ⟨3, 2⟩ ∧ ∃ e, tamperedDrive = .error e ∧
    (e.error = abort .keyGen [2] "dealer 2's defense share fails verification against its commitment" ∧
      e.token.isSome = true) ∧
    ∃ st insts, Accountable (T := SimTransport (SignedEnvelope (DkgMessage Scalar Point))) markWire (utf8 "s") .keyGen
      (some ⟨none, some (2, 1), none⟩) (S := Unit) st insts e := by
  have hsigners : ∀ i ∈ (⟨3, 2⟩ : Params).parties, i ∈ [((1 : PartyId), ()), (2, ()), (3, ())].map (·.1) := by
    intro i hi
    rw [show (⟨3, 2⟩ : Params).parties = [1, 2, 3] from rfl] at hi
    exact hi
  have hrngs : (⟨3, 2⟩ : Params).n.val ≤ threeRngs.rngs.length := le_refl 3
  obtain ⟨started, st, s', hrun, hhand, -, hsound⟩ := drive_dkg_signed_sound (show Params.new 3 2 = .ok ⟨3, 2⟩ from rfl)
    markWire markKeys (utf8 "s") [] .keyGen (some ⟨none, some (2, 1), none⟩)
    (SimTransport.new : SimTransport (SignedEnvelope (DkgMessage Scalar Point))) [(1, ()), (2, ()), (3, ())] hsigners
    threeRngs hrngs
  obtain ⟨c, started', st', s'', hreg, hme, hd, hrun', -⟩ := driveDkgSigned_run (show Params.new 3 2 = .ok ⟨3, 2⟩ from rfl)
    markWire markKeys (utf8 "s") [] .keyGen (some ⟨none, some (2, 1), none⟩)
    (SimTransport.new : SimTransport (SignedEnvelope (DkgMessage Scalar Point))) hsigners hrngs
  rw [hrun] at hrun'
  obtain rfl := Except.ok.inj (Prod.mk.inj hrun').1
  obtain ⟨e, he, hblamed⟩ := tamperedDrive_error
  exact ⟨rfl, e, he, hblamed, st, started.map (·.1), (hsound (genuine_sim hreg hme hd hhand) e he).2⟩

/-- A transport that answers every query with one envelope. -/
structure Forger where
  answer : Envelope (SignedEnvelope (DkgMessage Scalar Point))

instance : Transport Forger (SignedEnvelope (DkgMessage Scalar Point)) where
  broadcast := fun t _ => t
  sendP2p := fun t _ => t
  acceptedBroadcasts := fun t _ _ _ => collect [(1, t.answer)]
  acceptedP2p := fun t _ _ _ _ => collect [(1, t.answer)]

/-- A commitment in party 1's name with a signature that is not its own. -/
def forgedCommit : SignedEnvelope (DkgMessage Scalar Point) :=
  ⟨Envelope.broadcast (utf8 "s") .keyGen DKG_ROUND_COMMIT 1 (.commit ⟨1, []⟩), [0]⟩

def forger : Forger := ⟨Envelope.broadcast (utf8 "s") .keyGen DKG_ROUND_COMMIT 1 forgedCommit⟩

/-- A forgery in its name blames party 1, which follows the protocol. -/
theorem forged_commit_blames : ∃ e, (driveDkgSigned markWire markKeys (utf8 "s") .keyGen none ⟨1, 1⟩ []
      (.new markKeys forger [(1, ())]) threeRngs).1 = .error e ∧
    (∃ detail, e.error = abort .keyGen [1] detail) ∧ ¬ Tampered none 1 := by
  have hsigners : ∀ i ∈ (⟨1, 1⟩ : Params).parties, i ∈ [((1 : PartyId), ())].map (·.1) := by
    intro i hi
    rw [show (⟨1, 1⟩ : Params).parties = [1] from rfl] at hi
    exact hi
  obtain ⟨c, started, st, s', hreg, hme, hd, -, hhand, -, hdrive⟩ :=
    driveDkgSigned_run (show Params.new 1 1 = .ok ⟨1, 1⟩ from rfl) markWire markKeys (utf8 "s") [] .keyGen none forger
      hsigners (show (⟨1, 1⟩ : Params).n.val ≤ threeRngs.rngs.length from (by decide : 1 ≤ 3))
  obtain ⟨st', hhand', -, -, hinner⟩ := handOver_ok (I := (· = forger)) markWire markKeys (utf8 "s") .keyGen hreg hme hd
    (fun _ _ ht _ => ht) (fun _ _ _ ht _ => ht) rfl
  rw [hhand] at hhand'
  obtain rfl := Except.ok.inj hhand'
  have hraw : (Transport.acceptedBroadcasts st.inner (utf8 "s") .keyGen DKG_ROUND_COMMIT)[(1 : PartyId)]? =
      some forger.answer := by
    rw [hinner]
    exact collect_one 1 _
  have hinvalid : st.valid markWire DkgMessage.encode forgedCommit = false := by
    unfold SigningTransport.valid
    cases st.verifyingKeys[forgedCommit.envelope.sender]? <;> rfl
  have hreject : ∃ detail, st.acceptedBroadcasts markWire markWire.dkg (utf8 "s") .keyGen DKG_ROUND_COMMIT =
      .error (abort .keyGen [1] detail) := by
    unfold SigningTransport.acceptedBroadcasts
    rcases st.verifyAll_cases markWire markWire.dkg .keyGen
      (Transport.acceptedBroadcasts st.inner (utf8 "s") .keyGen DKG_ROUND_COMMIT) with ⟨p, outer, hp, -, hrun⟩ | ⟨hvalid, -⟩
    · rw [hinner] at hp
      obtain ⟨-, rfl⟩ := Prod.mk.inj (List.mem_singleton.mp (mem_of_collect hp))
      exact ⟨_, hrun⟩
    · have := hvalid 1 forger.answer hraw
      rw [show st.valid markWire markWire.dkg forger.answer.payload = false from hinvalid] at this
      cases this
  obtain ⟨detail, hreject⟩ := hreject
  refine ⟨signedError (abort .keyGen [1] detail), ?_, ⟨detail, rfl⟩, ?_⟩
  · rw [hdrive]
    unfold finalizeAll acceptedSets
    rw [hreject]
    rfl
  · rintro (⟨v, h⟩ | h | ⟨d, h⟩) <;> cases h

end Example

end OhmEcdsa
