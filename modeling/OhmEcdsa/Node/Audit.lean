import OhmEcdsa.Node.Payload

/-!
# Blame tokens and the offline auditor (`transport.rs`, `store/persist.rs`)

A token is an abort, a signed envelope of the blamed party and the public data the
failed check is recomputed from.  The signature covers the envelope and nothing
else, so the auditor blames an honest signer exactly when the token carries a
reference that the signed share was not made for:

    audit passes and blames p ↔ the token's share is p's own and fails the check
      against the commitments, message and r that come with it     (blame_no_framing_iff)

Two conflicting values of one slot are never an honest signer's.
-/

set_option linter.unusedSectionVars false

namespace OhmEcdsa

open FeldmanCommitment

variable {M : Type}

/-- The encodings of the two payload types, and `VerifyingKey::verify` of a
signature on a byte string. -/
structure Wire (F G K : Type) where
  dkg : DkgMessage F G → Bytes
  node : NodePayload F G → Bytes
  verify : K → Bytes → Bytes → Bool

variable {F G K : Type} [Field F] [DecidableEq F] [AddCommGroup G] [Module F G] [DecidableEq G] [K256 F G]

def SignedEnvelope.verifySignature (w : Wire F G K) (payloadBytes : M → Bytes) (env : SignedEnvelope M) (key : K) :
    Bool :=
  w.verify key (signingBytes payloadBytes env.envelope) env.signature

/-- `party_keys.iter().find(|(p, _)| *p == from)`. -/
def keyOf (partyKeys : List (PartyId × K)) (p : PartyId) : Option K :=
  (partyKeys.find? fun e => e.1 == p).map (·.2)

/-- The signature verifies under the registered key of `p`. -/
def signedBy (w : Wire F G K) (payloadBytes : M → Bytes) (partyKeys : List (PartyId × K)) (p : PartyId)
    (env : SignedEnvelope M) : Bool :=
  (keyOf partyKeys p).any (env.verifySignature w payloadBytes)

/-! ## Tokens -/

/-- The core's token: the blamed dealer's signed share and the revealed
commitment it is checked against. -/
structure BlameToken (F G : Type) where
  abort : IdentifiableAbort
  envelope : SignedEnvelope (DkgMessage F G)
  com : FeldmanCommitment G

/-- The auditor's offline check of the core. -/
def BlameToken.verify (w : Wire F G K) (token : BlameToken F G) (partyKeys : List (PartyId × K)) : Bool :=
  let env := token.envelope.envelope
  if token.abort.blamed ≠ [env.sender] ∨ token.abort.phase ≠ env.phase then false
  else
    match env.payload with
    | .share s =>
      if s.sender ≠ env.sender then false
      else if !signedBy w w.dkg partyKeys s.sender token.envelope then false
      else !token.com.verifyShare s.addressee s.share
    | _ => false

inductive BlameEvidence (F G : Type)
  | core (token : BlameToken F G)
  | dealtShare (abort : IdentifiableAbort) (envelope : SignedEnvelope (NodePayload F G)) (com : FeldmanCommitment G)
  | signShare (abort : IdentifiableAbort) (envelope : SignedEnvelope (NodePayload F G)) (message : Bytes) (r : F)
      (uCom zCom : FeldmanCommitment G)
  | equivocation (abort : IdentifiableAbort) (first second : SignedEnvelope (NodePayload F G))

def BlameEvidence.abort : BlameEvidence F G → IdentifiableAbort
  | .core token => token.abort
  | .dealtShare abort _ _ => abort
  | .signShare abort _ _ _ _ _ => abort
  | .equivocation abort _ _ => abort

/-- One line per check, and what the token claims. -/
structure AuditReport where
  checks : List (String × Bool)
  blamed : List PartyId
  phase : Phase

/-- Every check passed. -/
def AuditReport.verdict (report : AuditReport) : Bool := !report.checks.isEmpty && report.checks.all (·.2)

/-- The dealt share of a core payload, if the sender signed it as its own. -/
def dealtShare (sender : PartyId) : DkgMessage F G → Option (DkgP2P F)
  | .share s => if s.sender = sender then some s else none
  | _ => none

def dealtShareNode (sender : PartyId) : NodePayload F G → Option (DkgP2P F)
  | .dkg m => dealtShare sender m
  | _ => none

def signedShare : NodePayload F G → Option F
  | .signShare _ s => some s
  | _ => none

/-- The checks of one token, by the class of its evidence. -/
def auditChecks (w : Wire F G K) (partyKeys : List (PartyId × K)) : BlameEvidence F G → List (String × Bool)
  | .core token =>
    let env := token.envelope.envelope
    let party := toString env.sender.val
    [("blame consistency: abort names exactly the sender " ++ party ++ " in its phase",
        token.abort.blamed == [env.sender] && token.abort.phase == env.phase &&
          (dealtShare env.sender env.payload).isSome),
      ("envelope signature verifies under party " ++ party ++ "'s transport key",
        signedBy w w.dkg partyKeys env.sender token.envelope),
      ("recomputed check really fails: dealt share does not match EvalCom(com, to)",
        match env.payload with
        | .share s => !token.com.verifyShare s.addressee s.share
        | _ => false),
      ("core BlameToken::verify agrees (the core's auditor)", token.verify w partyKeys)]
  | .dealtShare abort envelope com =>
    let env := envelope.envelope
    let party := toString env.sender.val
    let share := dealtShareNode env.sender env.payload
    [("blame consistency: abort names exactly the sender " ++ party ++ " in its phase",
        abort.blamed == [env.sender] && abort.phase == env.phase && share.isSome),
      ("envelope signature verifies under party " ++ party ++ "'s transport key",
        signedBy w w.node partyKeys env.sender envelope),
      ("recomputed check really fails: dealt share does not match EvalCom(com, to)",
        share.any fun s => !com.verifyShare s.addressee s.share)]
  | .equivocation abort first second =>
    let env := first.envelope
    let party := toString env.sender.val
    let sameSlot := env.addressee.isNone && second.envelope.addressee.isNone &&
      second.envelope.sender == env.sender && second.envelope.sid == env.sid &&
      second.envelope.phase == env.phase && second.envelope.round == env.round
    [("blame consistency: abort names exactly the sender " ++ party ++
        " in its phase, both envelopes are broadcasts of the same slot",
        abort.blamed == [env.sender] && abort.phase == env.phase && sameSlot),
      ("both envelope signatures verify under party " ++ party ++ "'s transport key",
        (keyOf partyKeys env.sender).any fun key =>
          first.verifySignature w w.node key && second.verifySignature w w.node key),
      ("the two signed values really conflict (distinct payloads in one slot)",
        first.encode w.node != second.encode w.node)]
  | .signShare abort envelope message r uCom zCom =>
    let env := envelope.envelope
    let party := toString env.sender.val
    let s := signedShare env.payload
    [("blame consistency: abort names exactly the sender " ++ party ++ " in phase sign",
        abort.blamed == [env.sender] && abort.phase == .sign && env.phase == .sign && s.isSome),
      ("envelope signature verifies under party " ++ party ++ "'s transport key",
        signedBy w w.node partyKeys env.sender envelope),
      ("recomputed check really fails: s_j·G != EvalCom(m·A[u] + r·A[z], j)",
        s.any fun s => !(signCom uCom zCom (messageScalar F G message) r).verifyShare env.sender s)]

/-- `audit_token` of a file; `evidence` is what `BlameEvidence::decode` makes of it. -/
def auditToken (w : Wire F G K) (evidence : Option (BlameEvidence F G)) (partyKeys : List (PartyId × K)) :
    AuditReport :=
  match evidence with
  | none => ⟨[("token file decodes (canonical wire format, no trailing bytes)", false)], [], .keyGen⟩
  | some ev => ⟨auditChecks w partyKeys ev, ev.abort.blamed, ev.abort.phase⟩

/-! ## Specification -/

/-- Party `p` as the auditor knows it: a signature verifies under its registered
key exactly when `p` made it, and `p` gave one value in each broadcast slot. -/
structure HonestSigner (w : Wire F G K) (partyKeys : List (PartyId × K)) (p : PartyId) (signed : Set Bytes)
    (signature : Bytes → Bytes) : Prop where
  unforgeable : ∃ key, keyOf partyKeys p = some key ∧
    ∀ bytes sig, w.verify key bytes sig = true ↔ bytes ∈ signed ∧ sig = signature bytes
  one_value : ∀ e₁ e₂ : Envelope (NodePayload F G), e₁.sender = p → e₂.sender = p → e₁.addressee = none →
    e₂.addressee = none → e₁.sid = e₂.sid → e₁.phase = e₂.phase → e₁.round = e₂.round →
    signingBytes w.node e₁ ∈ signed → signingBytes w.node e₂ ∈ signed →
    signingBytes w.node e₁ = signingBytes w.node e₂

/-- The envelope is one that `p` signed. -/
def Genuine (payloadBytes : M → Bytes) (p : PartyId) (signed : Set Bytes) (signature : Bytes → Bytes)
    (env : SignedEnvelope M) : Prop :=
  env.envelope.sender = p ∧ signingBytes payloadBytes env.envelope ∈ signed ∧
    env.signature = signature (signingBytes payloadBytes env.envelope)

/-- The abort names `p` alone, in the envelope's phase. -/
def Names (abort : IdentifiableAbort) (p : PartyId) (env : Envelope M) : Prop :=
  abort.blamed = [p] ∧ abort.phase = env.phase

section

variable (w : Wire F G K) (p : PartyId) (signed : Set Bytes) (signature : Bytes → Bytes)

/-- A dealt share that `p` signed, with a commitment it does not lie on. -/
def CoreMismatch (token : BlameToken F G) : Prop :=
  Names token.abort p token.envelope.envelope ∧ Genuine w.dkg p signed signature token.envelope ∧
    ∃ s, dealtShare p token.envelope.envelope.payload = some s ∧ token.com.verifyShare s.addressee s.share = false

/-- A share that `p` signed, with public data it was not made for. -/
def Mismatch : BlameEvidence F G → Prop
  | .core token => CoreMismatch w p signed signature token
  | .dealtShare abort envelope com =>
    Names abort p envelope.envelope ∧ Genuine w.node p signed signature envelope ∧
      ∃ s, dealtShareNode p envelope.envelope.payload = some s ∧ com.verifyShare s.addressee s.share = false
  | .signShare abort envelope message r uCom zCom =>
    Names abort p envelope.envelope ∧ abort.phase = .sign ∧ Genuine w.node p signed signature envelope ∧
      ∃ s, signedShare envelope.envelope.payload = some s ∧
        (signCom uCom zCom (messageScalar F G message) r).verifyShare p s = false
  | .equivocation _ _ _ => False

end

/-- A passing verdict against `p`. -/
def Frames (report : AuditReport) (p : PartyId) : Prop := report.verdict = true ∧ p ∈ report.blamed

/-! ## Lemmas -/

theorem of_dealtShare {p : PartyId} {m : DkgMessage F G} {s : DkgP2P F} (h : dealtShare p m = some s) :
    m = .share s ∧ s.sender = p := by
  unfold dealtShare at h
  split at h
  · split at h
    · next hs =>
      obtain rfl := Option.some.inj h
      exact ⟨rfl, hs⟩
    · cases h
  · cases h

section Honest

variable {w : Wire F G K} {partyKeys : List (PartyId × K)} {p : PartyId} {signed : Set Bytes}
  {signature : Bytes → Bytes} (h : HonestSigner w partyKeys p signed signature)

include h

theorem signedBy_iff (payloadBytes : M → Bytes) (env : SignedEnvelope M) (hp : env.envelope.sender = p) :
    signedBy w payloadBytes partyKeys env.envelope.sender env = true ↔ Genuine payloadBytes p signed signature env := by
  obtain ⟨key, hkey, hver⟩ := h.unforgeable
  unfold signedBy SignedEnvelope.verifySignature Genuine
  rw [hp, hkey, Option.any_some, hver]
  constructor
  · rintro ⟨hmem, hsig⟩
    exact ⟨rfl, hmem, hsig⟩
  · rintro ⟨-, hmem, hsig⟩
    exact ⟨hmem, hsig⟩

theorem core_verify_iff (token : BlameToken F G) :
    (token.verify w partyKeys = true ∧ p ∈ token.abort.blamed) ↔ CoreMismatch w p signed signature token := by
  unfold BlameToken.verify CoreMismatch Names
  constructor
  · rintro ⟨hver, hp⟩
    simp only at hver
    split at hver
    · cases hver
    · next hnames =>
      obtain ⟨hblamed, hphase⟩ := not_or.mp hnames
      rw [not_not] at hblamed hphase
      obtain rfl : p = token.envelope.envelope.sender := by
        rw [hblamed] at hp
        exact List.mem_singleton.mp hp
      split at hver
      · next s hpayload =>
        split at hver
        · cases hver
        · next hs =>
          rw [not_not] at hs
          split at hver
          · cases hver
          · next hsig =>
            have hsig' : signedBy w w.dkg partyKeys token.envelope.envelope.sender token.envelope = true := by
              rw [← hs]
              simpa using hsig
            refine ⟨⟨hblamed, hphase⟩, (signedBy_iff h w.dkg token.envelope rfl).mp hsig', s, ?_, by simpa using hver⟩
            rw [hpayload, dealtShare, if_pos hs]
      · cases hver
  · rintro ⟨⟨hblamed, hphase⟩, hgen, s, hshare, hfail⟩
    have hsender : token.envelope.envelope.sender = p := hgen.1
    have hsig := (signedBy_iff h w.dkg token.envelope hsender).mpr hgen
    refine ⟨?_, by rw [hblamed]; exact List.mem_singleton_self p⟩
    simp only
    rw [if_neg (by rw [hsender]; exact not_or.mpr ⟨not_not.mpr hblamed, not_not.mpr hphase⟩)]
    obtain ⟨hpayload, hs⟩ := of_dealtShare hshare
    rw [hpayload]
    simp only
    rw [if_neg (by rw [hsender]; exact not_not.mpr hs), hs, ← hsender, hsig, hfail]
    rfl

theorem core_audit_iff (token : BlameToken F G) :
    Frames (auditToken w (some (.core token)) partyKeys) p ↔ CoreMismatch w p signed signature token := by
  rw [← core_verify_iff h token]
  constructor
  · rintro ⟨hverdict, hp⟩
    simp only [auditToken, AuditReport.verdict, auditChecks, List.all_cons, Bool.and_eq_true] at hverdict
    exact ⟨hverdict.2.2.2.2.1, hp⟩
  · rintro ⟨hver, hp⟩
    obtain ⟨⟨hblamed, hphase⟩, hgen, s, hshare, hfail⟩ := (core_verify_iff h token).mp ⟨hver, hp⟩
    have hsender : token.envelope.envelope.sender = p := hgen.1
    have hsig := (signedBy_iff h w.dkg token.envelope hsender).mpr hgen
    refine ⟨?_, hp⟩
    have hpayload := (of_dealtShare hshare).1
    rw [← hsender] at hshare hblamed
    rw [hpayload] at hshare
    simp only [auditToken, AuditReport.verdict, auditChecks, List.all_cons, hver, hsig, hpayload, hshare, hblamed, hphase,
      hfail]
    simp

theorem dealtShare_audit_iff (abort : IdentifiableAbort) (envelope : SignedEnvelope (NodePayload F G))
    (com : FeldmanCommitment G) : Frames (auditToken w (some (.dealtShare abort envelope com)) partyKeys) p ↔
      Mismatch w p signed signature (.dealtShare abort envelope com) := by
  constructor
  · rintro ⟨hverdict, hp⟩
    simp only [auditToken, AuditReport.verdict, auditChecks, List.all_cons, Bool.and_eq_true, beq_iff_eq] at hverdict
    obtain ⟨-, ⟨⟨hblamed, hphase⟩, -⟩, hsig, hfail, -⟩ := hverdict
    obtain rfl : p = envelope.envelope.sender := by
      have hp' : p ∈ abort.blamed := hp
      rw [hblamed] at hp'
      exact List.mem_singleton.mp hp'
    obtain ⟨s, hs, hf⟩ := (Option.any_eq_true _ _).mp hfail
    exact ⟨⟨hblamed, hphase⟩, (signedBy_iff h w.node envelope rfl).mp hsig, s, hs, by simpa using hf⟩
  · rintro ⟨⟨hblamed, hphase⟩, hgen, s, hshare, hfail⟩
    have hsender : envelope.envelope.sender = p := hgen.1
    have hsig := (signedBy_iff h w.node envelope hsender).mpr hgen
    refine ⟨?_, by
      show p ∈ abort.blamed
      rw [hblamed]
      exact List.mem_singleton_self p⟩
    rw [← hsender] at hshare hblamed
    simp only [auditToken, AuditReport.verdict, auditChecks, List.all_cons, hsig, hshare, hblamed, hphase]
    simp [hfail]

theorem signShare_audit_iff (abort : IdentifiableAbort) (envelope : SignedEnvelope (NodePayload F G))
    (message : Bytes) (r : F) (uCom zCom : FeldmanCommitment G) :
    Frames (auditToken w (some (.signShare abort envelope message r uCom zCom)) partyKeys) p ↔
      Mismatch w p signed signature (.signShare abort envelope message r uCom zCom) := by
  constructor
  · rintro ⟨hverdict, hp⟩
    simp only [auditToken, AuditReport.verdict, auditChecks, List.all_cons, Bool.and_eq_true, beq_iff_eq] at hverdict
    obtain ⟨-, ⟨⟨⟨hblamed, hphase⟩, hphase'⟩, -⟩, hsig, hfail, -⟩ := hverdict
    obtain rfl : p = envelope.envelope.sender := by
      have hp' : p ∈ abort.blamed := hp
      rw [hblamed] at hp'
      exact List.mem_singleton.mp hp'
    obtain ⟨s, hs, hf⟩ := (Option.any_eq_true _ _).mp hfail
    exact ⟨⟨hblamed, by rw [hphase, hphase']⟩, hphase, (signedBy_iff h w.node envelope rfl).mp hsig, s, hs,
      by simpa using hf⟩
  · rintro ⟨⟨hblamed, hphase⟩, hsign, hgen, s, hshare, hfail⟩
    have hsender : envelope.envelope.sender = p := hgen.1
    have hsig := (signedBy_iff h w.node envelope hsender).mpr hgen
    refine ⟨?_, by
      show p ∈ abort.blamed
      rw [hblamed]
      exact List.mem_singleton_self p⟩
    rw [← hsender] at hfail hblamed
    rw [hsign] at hphase
    simp only [auditToken, AuditReport.verdict, auditChecks, List.all_cons, hsig, hshare, hblamed, hsign, ← hphase]
    simp [hfail]

/-- **No pair of envelopes of an honest signer is an equivocation.** -/
theorem equivocation_sound (abort : IdentifiableAbort) (first second : SignedEnvelope (NodePayload F G)) :
    ¬ Frames (auditToken w (some (.equivocation abort first second)) partyKeys) p := by
  rintro ⟨hverdict, hp⟩
  simp only [auditToken, AuditReport.verdict, auditChecks, List.all_cons, Bool.and_eq_true, beq_iff_eq,
    Option.isNone_iff_eq_none] at hverdict
  obtain ⟨-, ⟨⟨hblamed, -⟩, ⟨⟨⟨⟨hto₁, hto₂⟩, hsender⟩, hsid⟩, hph⟩, hround⟩, hsigs, hconflict, -⟩ := hverdict
  obtain rfl : p = first.envelope.sender := by
    have hp' : p ∈ abort.blamed := hp
    rw [hblamed] at hp'
    exact List.mem_singleton.mp hp'
  obtain ⟨key, hkey, hver⟩ := h.unforgeable
  rw [hkey, Option.any_some, Bool.and_eq_true] at hsigs
  obtain ⟨hmem₁, hsig₁⟩ := (hver _ _).mp hsigs.1
  obtain ⟨hmem₂, hsig₂⟩ := (hver _ _).mp hsigs.2
  have hbytes := h.one_value first.envelope second.envelope rfl hsender hto₁ hto₂ hsid.symm hph.symm hround.symm
    hmem₁ hmem₂
  have henc : first.envelope.encode w.node = second.envelope.encode w.node := List.append_cancel_left hbytes
  refine absurd hconflict ?_
  unfold SignedEnvelope.encode
  rw [henc, hsig₁, hsig₂, hbytes]
  simp

/-- **When a token frames**: against an honest signer exactly the tokens pass that
pair a share it signed with public data the share was not made for. -/
theorem blame_no_framing_iff :
    (∀ evidence : BlameEvidence F G, ¬ Frames (auditToken w (some evidence) partyKeys) p ↔
      ¬ Mismatch w p signed signature evidence) ∧
    (¬ Frames (auditToken w (none : Option (BlameEvidence F G)) partyKeys) p) ∧
    ∀ token : BlameToken F G, ¬ (token.verify w partyKeys = true ∧ p ∈ token.abort.blamed) ↔
      ¬ CoreMismatch w p signed signature token := by
  refine ⟨fun evidence => not_congr ?_, ?_, fun token => not_congr (core_verify_iff h token)⟩
  · cases evidence with
    | core token => exact core_audit_iff h token
    | dealtShare abort envelope com => exact dealtShare_audit_iff h abort envelope com
    | signShare abort envelope message r uCom zCom => exact signShare_audit_iff h abort envelope message r uCom zCom
    | equivocation abort first second =>
      exact ⟨fun hf => equivocation_sound h abort first second hf, fun hf => hf.elim⟩
  · rintro ⟨-, hp⟩
    cases hp

end Honest

/-! ### An honest dealer of the polynomial `1 + X` -/

section Dealer

open Secp256k1

/-- The share dealer 1 sends party 2. -/
def dealerPayload : NodePayload Scalar Point := .dkg (.share ⟨1, 2, (⟨[1, 1]⟩ : ShamirPoly Scalar).eval 2⟩)

def sharePayloadBytes : NodePayload Scalar Point → Bytes
  | .dkg (.share s) => [1, 3] ++ u64Bytes s.sender.val ++ u64Bytes s.addressee.val ++ bytes32 s.share.val
  | _ => []

def dealerEnvelope : SignedEnvelope (NodePayload Scalar Point) :=
  ⟨Envelope.p2p (utf8 "keygen") .keyGen 2 1 2 dealerPayload, List.replicate 64 1⟩

/-- The wire on which dealer 1 signed that envelope and nothing else. -/
def dealerWire : Wire Scalar Point Unit where
  dkg := fun _ => []
  node := sharePayloadBytes
  verify := fun _ bytes sig => bytes == signingBytes sharePayloadBytes dealerEnvelope.envelope && sig == List.replicate 64 1

theorem dealer_honest : HonestSigner dealerWire [(1, ())] 1
    {signingBytes sharePayloadBytes dealerEnvelope.envelope} (fun _ => List.replicate 64 1) where
  unforgeable := by
    refine ⟨(), rfl, fun bytes sig => ?_⟩
    show (bytes == _ && sig == _) = true ↔ _
    rw [Bool.and_eq_true, beq_iff_eq, beq_iff_eq]
    rfl
  one_value := by
    intro e₁ e₂ _ _ _ _ _ _ _ h₁ h₂
    exact (Set.mem_singleton_iff.mp h₁).trans (Set.mem_singleton_iff.mp h₂).symm

/-- With the commitment it was dealt under the share is no evidence. -/
theorem blame_no_framing_dealer : ¬ Frames (auditToken dealerWire (some (.dealtShare ⟨.keyGen, [1], ""⟩ dealerEnvelope
    (fromPoly (⟨[1, 1]⟩ : ShamirPoly Scalar)))) [(1, ())]) 1 := by
  refine ((blame_no_framing_iff dealer_honest).1 _).mpr ?_
  rintro ⟨-, -, s, hs, hfail⟩
  obtain rfl := Option.some.inj hs
  revert hfail
  decide +kernel

/-- With the commitment to the constant 1 the audit passes and blames dealer 1,
whose share lies on the polynomial it committed to. -/
theorem audit_frames_dealer :
    HonestSigner dealerWire [(1, ())] 1 {signingBytes sharePayloadBytes dealerEnvelope.envelope}
        (fun _ => List.replicate 64 1) ∧
      (fromPoly (⟨[1, 1]⟩ : ShamirPoly Scalar) : FeldmanCommitment Point).verifyShare 2
        ((⟨[1, 1]⟩ : ShamirPoly Scalar).eval 2) = true ∧
      Frames (auditToken dealerWire (some (.dealtShare ⟨.keyGen, [1], ""⟩ dealerEnvelope ⟨[1]⟩)) [(1, ())]) 1 :=
  ⟨dealer_honest, by decide +kernel, by decide +kernel, List.mem_singleton_self 1⟩

end Dealer

end OhmEcdsa
