import OhmEcdsa.Node.Acceptance
import OhmEcdsa.Node.Presign
import OhmEcdsa.Node.Token

/-!
# The tokens of a signing round (`party.rs`, `store/persist.rs`)

For each sender a combine blames, the signing drivers archive its signed share with
the message, `r` and the commitments.  The auditor hashes the archived message again:
that is the scalar the drivers over byte strings checked against, while the drivers
over a scalar archive the scalar's own bytes.

    every token of the call audits ↔ no blamed share passes for the scalar that the
      archived bytes hash to                                     (sign_tokens_audit_iff)
-/

set_option linter.unusedSectionVars false

namespace OhmEcdsa

open Hoare Acceptor FeldmanCommitment

section Verify

variable {M F G K : Type} [Field F] [DecidableEq F] [AddCommGroup G] [Module F G] [DecidableEq G] [K256 F G]

/-! ## Algorithm: wire.rs -/

def echoBytes (payloadBytes : M → Bytes) (echoer : PartyId) (original : SignedEnvelope M) : Bytes :=
  utf8 "OHM-ECDSA-NODE/v0.1/echo" ++ u64Bytes echoer.val ++ original.encode payloadBytes

def WireMessage.verify (w : Wire F G K) (payloadBytes : M → Bytes) (registry : List (PartyId × K)) :
    WireMessage M → Bool
  | .original env => signedBy w payloadBytes registry env.envelope.sender env
  | .echo echoer env signature =>
    -- a party's echo of its own message counts for nothing
    if echoer = env.envelope.sender ∨ env.envelope.addressee.isSome then false
    else signedBy w payloadBytes registry env.envelope.sender env &&
      (keyOf registry echoer).any fun key => w.verify key (echoBytes payloadBytes echoer env) signature

def WireMessage.received : WireMessage M → Received M
  | .original env => .original env
  | .echo echoer env _ => .echo echoer env

/-- What of the arriving messages reaches the acceptor. -/
def verified (w : Wire F G K) (payloadBytes : M → Bytes) (registry : List (PartyId × K))
    (wire : List (WireMessage M)) : List (Received M) :=
  (wire.filter (WireMessage.verify w payloadBytes registry)).map WireMessage.received

end Verify

variable {F G K : Type} [Field F] [DecidableEq F] [AddCommGroup G] [Module F G] [DecidableEq G] [K256 F G]

/-! ## Algorithm: party.rs -/

/-- The signed envelopes a round accepted. -/
abbrev EnvelopeSet (F G : Type) := PartyMap (SignedEnvelope (NodePayload F G))

def payloads (set : EnvelopeSet F G) : AcceptedSet F G := set.map fun _ env => env.envelope.payload

/-- Code that archives tokens; what it archived stays when it fails. -/
abbrev ArchiveM (F G α : Type) := ExceptT Fault (StateM (List (BlameEvidence F G))) α

def note (evidence : BlameEvidence F G) : ArchiveM F G Unit := modify (· ++ [evidence])

/-- The loop over the accepted set: the shares of `id`, and the envelope of each. -/
def collectShareEnvs (id : U64) (set : EnvelopeSet F G) : Outcome (List (SignShare F) × EnvelopeSet F G) :=
  set.toList.foldlM (fun acc e =>
    match e.2.envelope.payload with
    | .signShare pid s => if pid = id then .ok (acc.1 ++ [⟨e.1, s⟩], acc.2.insert e.1 e.2) else .ok acc
    | _ => .error (abort .sign [e.1] "malformed sign broadcast")) ([], ∅)

/-- What a share's check is made of: the record's `r` and `A[u]`, and `A[z]`. -/
structure ShareCheck (F G : Type) where
  r : F
  uCom : FeldmanCommitment G
  zCom : FeldmanCommitment G

/-- The token of one blamed sender. -/
def shareToken (detail : String) (message : Bytes) (check : ShareCheck F G) (f : PartyId)
    (env : SignedEnvelope (NodePayload F G)) : BlameEvidence F G :=
  .signShare ⟨.sign, [f], detail⟩ env message check.r check.uCom check.zCom

/-- One token for each blamed sender whose envelope was kept. -/
def noteShares (shareEnvOf : EnvelopeSet F G) (blamed : List PartyId) (detail : String) (message : Bytes)
    (check : ShareCheck F G) : ArchiveM F G Unit :=
  blamed.forM fun f =>
    match shareEnvOf[f]? with
    | some env => note (shareToken detail message check f env)
    | none => return ()

def shareFailed : String := "signature share failed commitment check"

/-- `sign_run_scalar` after its broadcast. -/
def signRunScalarNoted (params : Params) (presig : Presignature F G) (m : F) (message : Bytes)
    (set : EnvelopeSet F G) : ArchiveM F G (Signature F × List PartyId) := do
  let (shares, shareEnvOf) ← lift (collectShareEnvs presig.id set)
  let ((r, s), blamed) ← lift (combineRobust params presig m shares)
  noteShares shareEnvOf blamed shareFailed message ⟨presig.r, presig.uCom, presig.zCom⟩
  let sig ← lift (finishSignature G r s)
  return (sig, blamed)

/-- R2 of `sign_ki_run`: the combine's abort is archived before it goes up. -/
def signKiR2Noted (params : Params) (presig : KiPresignature F G) (zCom : FeldmanCommitment G) (m : F)
    (message : Bytes) (set : EnvelopeSet F G) : ArchiveM F G (Signature F) := do
  let (shares, shareEnvOf) ← lift (collectShareEnvs presig.id set)
  match combineKi params presig zCom m shares with
  | .ok (r, s) => lift (finishSignature G r s)
  | .error (.error (.abort a)) => do
    noteShares shareEnvOf a.blamed a.detail message ⟨presig.r, presig.uCom, zCom⟩
    throw (.error (.abort a))
  | .error e => throw e

/-- R2 of `sign_ki_robust_run`, given R1's blame, active set and `A[z]`. -/
def signKiRobustR2Noted (params : Params) (presig : KiPresignature F G) (zCom : FeldmanCommitment G) (m : F)
    (message : Bytes) (blamed active : List PartyId) (set : EnvelopeSet F G) :
    ArchiveM F G (Signature F × List PartyId) := do
  let (shares, shareEnvOf) ← lift (collectShareEnvs presig.id set)
  let ((r, s), b2) ← lift (combineKiRobust params presig zCom m shares)
  noteShares shareEnvOf b2 shareFailed message ⟨presig.r, presig.uCom, zCom⟩
  let (blamed, _active) := expelSorted blamed active b2
  let sig ← lift (finishSignature G r s)
  return (sig, blamed)

/-- A signing session whose share round is on: over a byte string (`sign`,
`sign_over`, `sign_stored`), over a scalar (`sign_scalar`, `sign_stored_scalar`), and
with a key-independent record, fail-fast and robust. -/
inductive SignCall (F G : Type)
  | message (presig : Presignature F G) (msg : Bytes) (ids : List PartyId)
  | scalar (presig : Presignature F G) (m : F) (ids : List PartyId)
  | ki (presig : KiPresignature F G) (zCom : FeldmanCommitment G) (msg : Bytes)
  | kiRobust (presig : KiPresignature F G) (zCom : FeldmanCommitment G) (msg : Bytes) (blamed active : List PartyId)

namespace SignCall

variable [WireFormat F G]

/-- The round and the senders the call waits for. -/
def round : SignCall F G → Nat
  | .message .. | .scalar .. => SIGN_ROUND_SHARE
  | .ki .. | .kiRobust .. => KI_ROUND_SHARE

def ids (params : Params) : SignCall F G → List PartyId
  | .message _ _ ids | .scalar _ _ ids => ids
  | .ki .. => params.parties
  | .kiRobust _ _ _ _ active => active

/-- The tokens the driver archives over the accepted set. -/
def archived (params : Params) (set : EnvelopeSet F G) : SignCall F G → List (BlameEvidence F G)
  | .message presig msg _ => (signRunScalarNoted params presig (messageScalar F G msg) msg set []).2
  -- the scalar's canonical bytes stand in for the message
  | .scalar presig m _ => (signRunScalarNoted params presig m (WireFormat.scalarBytes G m) set []).2
  | .ki presig zCom msg => (signKiR2Noted params presig zCom (messageScalar F G msg) msg set []).2
  | .kiRobust presig zCom msg blamed active =>
    (signKiRobustR2Noted params presig zCom (messageScalar F G msg) msg blamed active set []).2

end SignCall

/-! ## Specification -/

/-- The accepted shares of `id` that pass the check. -/
def validShares (id : U64) (sCom : FeldmanCommitment G) (set : AcceptedSet F G) : List (SignShare F) :=
  (set.toList.filterMap (pickShare id)).filter fun sh => sCom.verifyShare sh.sender sh.s

namespace SignCall

variable [WireFormat F G]

def id : SignCall F G → U64
  | .message presig _ _ | .scalar presig _ _ => presig.id
  | .ki presig _ _ | .kiRobust presig _ _ _ _ => presig.id

/-- The scalar the shares are checked for. -/
def scalarOf : SignCall F G → F
  | .message _ msg _ | .ki _ _ msg | .kiRobust _ _ msg _ _ => messageScalar F G msg
  | .scalar _ m _ => m

/-- The message of the tokens. -/
def messageOf : SignCall F G → Bytes
  | .message _ msg _ | .ki _ _ msg | .kiRobust _ _ msg _ _ => msg
  | .scalar _ m _ => WireFormat.scalarBytes G m

def check : SignCall F G → ShareCheck F G
  | .message presig _ _ | .scalar presig _ _ => ⟨presig.r, presig.uCom, presig.zCom⟩
  | .ki presig zCom _ | .kiRobust presig zCom _ _ _ => ⟨presig.r, presig.uCom, zCom⟩

/-- `m·A[u] + r·A[z]` of the call's record. -/
def comFor (call : SignCall F G) (m : F) : FeldmanCommitment G :=
  signCom call.check.uCom call.check.zCom m call.check.r

/-- The robust combines return only with `t` valid shares. -/
def Combines (params : Params) (set : AcceptedSet F G) (call : SignCall F G) : Prop :=
  match call with
  | .ki .. => True
  | call => params.t.val ≤ (validShares call.id (call.comFor call.scalarOf) set).length

end SignCall

/-- Sizes of a Rust process: the message and the commitments fit in a token. -/
def SignCall.Fits [WireFormat F G] (call : SignCall F G) : Prop :=
  8 + call.messageOf.length < 2 ^ 64 ∧ call.check.uCom.Fits ∧ call.check.zCom.Fits

/-- No share blamed for the scalar `m` passes for the scalar that `m`'s bytes hash to. -/
def SignCall.Audits [WireFormat F G] (params : Params) (set : AcceptedSet F G) : SignCall F G → Prop
  | .scalar presig m _ =>
    let sCom := signCom presig.uCom presig.zCom m presig.r
    let hashedCom := signCom presig.uCom presig.zCom (messageScalar F G (WireFormat.scalarBytes G m)) presig.r
    AllSignShares set → params.t.val ≤ (validShares presig.id sCom set).length →
      ∀ f s, set[f]? = some (.signShare presig.id s) → sCom.verifyShare f s = false → hashedCom.verifyShare f s = false
  | _ => True

/-- The accepted set of the call's round, of the messages that arrived. -/
def SignCall.accepted [WireFormat F G] (verify : K → Bytes → Bytes → Bool) (registry : List (PartyId × K))
    (params : Params) (wire : List (WireMessage (NodePayload F G))) (sid : Bytes) (call : SignCall F G) :
    EnvelopeSet F G :=
  (Acceptor.run NodePayload.encode params.t
    (verified (⟨DkgMessage.encode, NodePayload.encode, verify⟩ : Wire F G K) NodePayload.encode registry wire)).bcastSet
      sid .sign call.round (call.ids params)

/-- Every file the driver wrote passes the offline audit. -/
def AllAudited [WireFormat F G] (w : Wire F G K) (partyKeys : List (PartyId × K)) (tokens : List (BlameEvidence F G)) :
    Prop :=
  ∀ ev ∈ tokens, (auditToken w (BlameEvidence.decode F G ev.encode) partyKeys).verdict = true

/-! ## Lemmas: the shares and their envelopes -/

def isShareOf (id : U64) (e : PartyId × SignedEnvelope (NodePayload F G)) : Bool :=
  (pickShare id (e.1, e.2.envelope.payload)).isSome

theorem toList_payloads (set : EnvelopeSet F G) :
    (payloads set).toList = set.toList.map fun e => (e.1, e.2.envelope.payload) := Std.ExtTreeMap.toList_map

theorem payloads_getElem? (set : EnvelopeSet F G) (f : PartyId) :
    (payloads set)[f]? = (set[f]?).map fun env => env.envelope.payload := Std.ExtTreeMap.getElem?_map

/-- The loop's shares are those of the loop without envelopes, and it keeps the
envelope of each. -/
theorem shareEnvs_fold (id : U64) (l : List (PartyId × SignedEnvelope (NodePayload F G))) (shares : List (SignShare F))
    (envs : EnvelopeSet F G) :
    l.foldlM (fun acc e =>
      match e.2.envelope.payload with
      | .signShare pid s => if pid = id then .ok (acc.1 ++ [⟨e.1, s⟩], acc.2.insert e.1 e.2) else .ok acc
      | _ => .error (abort .sign [e.1] "malformed sign broadcast") :
        List (SignShare F) × EnvelopeSet F G → _ → Outcome _) (shares, envs) =
      ((l.map fun e => (e.1, e.2.envelope.payload)).foldlM (fun shares e =>
        match e.2 with
        | .signShare pid s => if pid = id then .ok (shares ++ [⟨e.1, s⟩]) else .ok shares
        | _ => .error (abort .sign [e.1] "malformed sign broadcast") : List (SignShare F) → _ → Outcome _) shares).map
        fun shares => (shares, envs.insertMany (l.filter (isShareOf id))) := by
  induction l generalizing shares envs with
  | nil => rfl
  | cons e l ih =>
    obtain ⟨f, env⟩ := e
    obtain ⟨⟨sid, phase, round, sender, addressee, payload⟩, signature⟩ := env
    rw [List.map_cons, List.foldlM_cons, List.foldlM_cons]
    cases payload with
    | signShare pid s =>
      by_cases hp : pid = id
      · simp only [hp, if_true, bind, Except.bind]
        rw [ih, List.filter_cons_of_pos (by simp [isShareOf, pickShare]), Std.ExtTreeMap.insertMany_cons]
      · simp only [hp, if_false, bind, Except.bind]
        rw [ih, List.filter_cons_of_neg (by simp [isShareOf, pickShare, hp])]
    | _ => rfl

theorem collectShareEnvs_eq (id : U64) (set : EnvelopeSet F G) :
    collectShareEnvs id set = (collectSignShares id (payloads set)).map fun shares =>
      (shares, collect (set.toList.filter (isShareOf id))) := by
  unfold collectShareEnvs collectSignShares collect
  have hfold := shareEnvs_fold id set.toList [] ∅
  rw [← toList_payloads] at hfold
  rw [Std.ExtTreeMap.ofList_eq_insertMany_empty]
  exact hfold

/-- `f`'s accepted share of `id` came in `env` and fails the check against `sCom`. -/
def FailedShare (id : U64) (sCom : FeldmanCommitment G) (set : EnvelopeSet F G) (f : PartyId)
    (env : SignedEnvelope (NodePayload F G)) : Prop :=
  set[f]? = some env ∧ ∃ s, env.envelope.payload = .signShare id s ∧ sCom.verifyShare f s = false

theorem isShareOf_iff {id : U64} {e : PartyId × SignedEnvelope (NodePayload F G)} :
    isShareOf id e = true ↔ ∃ s, e.2.envelope.payload = .signShare id s := by
  unfold isShareOf pickShare
  constructor
  · intro h
    split at h
    · next pid s hpayload =>
      split at h
      · next hp => exact ⟨s, hp ▸ hpayload⟩
      · cases h
    · cases h
  · rintro ⟨s, hs⟩
    simp [hs]

/-- The envelopes kept are those of the shares collected. -/
theorem shareEnv_iff {id : U64} {set : EnvelopeSet F G} {f : PartyId} {env : SignedEnvelope (NodePayload F G)} :
    (collect (set.toList.filter (isShareOf id)))[f]? = some env ↔
      set[f]? = some env ∧ ∃ s, env.envelope.payload = .signShare id s := by
  have hnd : ((set.toList.filter (isShareOf id)).map (·.1)).Nodup :=
    (nodup_keys_toList set).sublist (List.filter_sublist.map _)
  rw [← Std.ExtTreeMap.mem_toList_iff_getElem?_eq_some, mem_toList_collect _ hnd, List.mem_filter, isShareOf_iff,
    Std.ExtTreeMap.mem_toList_iff_getElem?_eq_some]

theorem noteShares_run (shareEnvOf : EnvelopeSet F G) (blamed : List PartyId) (detail : String) (message : Bytes)
    (check : ShareCheck F G) (noted : List (BlameEvidence F G)) :
    noteShares shareEnvOf blamed detail message check noted =
      (.ok (), noted ++ blamed.filterMap fun f => (shareEnvOf[f]?).map (shareToken detail message check f)) := by
  unfold noteShares
  rw [List.forM_eq_forM]
  induction blamed generalizing noted with
  | nil =>
    rw [List.filterMap_nil, List.append_nil]
    rfl
  | cons f blamed ih =>
    rw [List.forM_cons, List.filterMap_cons]
    cases shareEnvOf[f]? with
    | none => exact ih noted
    | some env =>
      refine (ih (noted ++ [shareToken detail message check f env])).trans ?_
      rw [List.append_assoc]
      rfl

/-- One token for each failing share. -/
theorem mem_tokens {id : U64} {sCom : FeldmanCommitment G} {set : EnvelopeSet F G} {detail : String} {message : Bytes}
    {check : ShareCheck F G} {ev : BlameEvidence F G} :
    ev ∈ (((((payloads set).toList.filterMap (pickShare id)).filter fun sh => !sCom.verifyShare sh.sender sh.s).map
        (·.sender)).filterMap fun f => ((collect (set.toList.filter (isShareOf id)))[f]?).map
          (shareToken detail message check f)) ↔
      ∃ f env, FailedShare id sCom set f env ∧ ev = shareToken detail message check f env := by
  simp only [List.mem_filterMap, List.mem_map, List.mem_filter, Option.map_eq_some_iff]
  constructor
  · rintro ⟨f, ⟨sh, ⟨⟨e, he, hpick⟩, hbad⟩, rfl⟩, env, henv, rfl⟩
    obtain ⟨hset, s, hs⟩ := shareEnv_iff.mp henv
    have hsh := mem_collected.mp (List.mem_filterMap.mpr ⟨e, he, hpick⟩)
    rw [payloads_getElem?, hset, Option.map_some, hs] at hsh
    cases hsh
    exact ⟨sh.sender, env, ⟨hset, sh.s, hs, by simpa using hbad⟩, rfl⟩
  · rintro ⟨f, env, ⟨hset, s, hs, hbad⟩, rfl⟩
    have hmem : (⟨f, s⟩ : SignShare F) ∈ (payloads set).toList.filterMap (pickShare id) := by
      refine mem_collected.mpr ?_
      rw [payloads_getElem?, hset, Option.map_some, hs]
    exact ⟨f, ⟨⟨f, s⟩, ⟨List.mem_filterMap.mp hmem, by simpa using hbad⟩, rfl⟩, env, shareEnv_iff.mpr ⟨hset, s, hs⟩, rfl⟩

/-! ## Lemmas: when a driver archives -/

theorem interpolateFirst_total (F G : Type) [Field F] [DecidableEq F] [AddCommGroup G] [Module F G] [K256 F G]
    (quorum : Usize) (point : F) (valid : List (PartyId × F)) (hnd : (valid.map (·.1)).Nodup) :
    ∃ s, interpolateFirst quorum point valid = .ok s := by
  have hparties : (((valid.map (·.1)).take quorum.val).map (scalarFrom : PartyId → F)).Nodup :=
    map_scalarFrom_nodup F G (hnd.sublist (List.take_sublist _ _))
  unfold interpolateFirst interpolateAtZero interpolateAt
  simp only [lagrangeCoeffsAt_eq _ _ hparties, bind, Except.bind]
  split <;> exact ⟨_, rfl⟩

/-- A robust combine of the collected shares. -/
theorem combineRobust_collected (quorum : Usize) (r : F) (sCom : FeldmanCommitment G) (id : U64) (set : AcceptedSet F G) :
    if quorum.val ≤ (validShares id sCom set).length then
      ∃ s, combineRobustVerified quorum r sCom (set.toList.filterMap (pickShare id)) = .ok ((r, s),
        ((set.toList.filterMap (pickShare id)).filter fun sh => !sCom.verifyShare sh.sender sh.s).map (·.sender))
    else combineRobustVerified quorum r sCom (set.toList.filterMap (pickShare id)) =
      .error (.error (.notEnoughShares (validShares id sCom set).length quorum.val)) := by
  unfold combineRobustVerified validShares
  simp only [partitionShares_eq, List.filter_map, Function.comp_def, List.length_map, List.map_map]
  split
  · next hquorum =>
    rw [if_neg (by omega)]
    have hnd : ((((set.toList.filterMap (pickShare id)).filter fun sh => sCom.verifyShare sh.sender sh.s).map
        fun sh => (sh.sender, sh.s)).map (·.1)).Nodup := by
      rw [List.map_map]
      exact (collected_nodup id set).sublist (List.filter_sublist.map _)
    obtain ⟨s, hs⟩ := interpolateFirst_total F G quorum 0 _ hnd
    rw [hs]
    exact ⟨s, rfl⟩
  · next hquorum => rw [if_pos (by omega)]

/-- A fail-fast combine of the collected shares blames every failing one. -/
theorem combine_collected_failing (quorum : Usize) (r : F) (sCom : FeldmanCommitment G) (id : U64)
    (set : AcceptedSet F G) :
    let failing := ((set.toList.filterMap (pickShare id)).filter fun sh => !sCom.verifyShare sh.sender sh.s).map (·.sender)
    (failing ≠ [] → combineVerified quorum 0 r sCom (set.toList.filterMap (pickShare id)) =
      .error (abort .sign failing shareFailed)) ∧
    (failing = [] → ∀ a, combineVerified quorum 0 r sCom (set.toList.filterMap (pickShare id)) ≠ .error (.error (.abort a))) := by
  intro failing
  unfold combineVerified
  simp only [partitionShares_eq, List.filter_map, Function.comp_def, List.length_map, List.map_map]
  refine ⟨fun hne => if_pos hne, fun hnil a => ?_⟩
  rw [if_neg (not_not.mpr hnil)]
  have hnd : ((((set.toList.filterMap (pickShare id)).filter fun sh => sCom.verifyShare sh.sender sh.s).map
      fun sh => (sh.sender, sh.s)).map (·.1)).Nodup := by
    rw [List.map_map]
    exact (collected_nodup id set).sublist (List.filter_sublist.map _)
  obtain ⟨s, hs⟩ := interpolateFirst_total F G quorum 0 _ hnd
  split
  · rintro ⟨⟩
  · rw [hs]
    rintro ⟨⟩

/-- A robust round archives a token for each failing share, once its combine has
`t` valid ones. -/
theorem mem_noted_robust {α : Type} {params : Params} {id : U64} {sCom : FeldmanCommitment G} {r : F} {message : Bytes}
    {check : ShareCheck F G} {set : EnvelopeSet F G} (tail : F → F → List PartyId → ArchiveM F G α)
    (htail : ∀ r s blamed noted, (tail r s blamed noted).2 = noted) (ev : BlameEvidence F G) :
    ev ∈ ((do
      let (shares, shareEnvOf) ← lift (collectShareEnvs id set)
      let ((r, s), blamed) ← lift (combineRobustVerified params.t r sCom shares)
      noteShares shareEnvOf blamed shareFailed message check
      tail r s blamed : ArchiveM F G α) []).2 ↔
      AllSignShares (payloads set) ∧ params.t.val ≤ (validShares id sCom (payloads set)).length ∧
        ∃ f env, FailedShare id sCom set f env ∧ ev = shareToken shareFailed message check f env := by
  rw [collectShareEnvs_eq]
  by_cases hall : AllSignShares (payloads set)
  · rw [collectSignShares_ok hall]
    have hcombine := combineRobust_collected params.t r sCom id (payloads set)
    split at hcombine
    · next hquorum =>
      obtain ⟨s, hs⟩ := hcombine
      simp only [Except.map, bind, ExceptT.bind, ExceptT.bindCont, ExceptT.mk, lift, StateT.bind, hs, noteShares_run,
        htail, List.nil_append]
      rw [mem_tokens]
      simp [hall, hquorum]
    · next hquorum =>
      simp only [Except.map, bind, ExceptT.bind, ExceptT.bindCont, ExceptT.mk, lift, StateT.bind, hcombine, pure, StateT.pure]
      simp [hquorum]
  · obtain ⟨f, hf⟩ := collectSignShares_malformed id hall
    rw [hf]
    simp [Except.map, bind, ExceptT.bind, ExceptT.bindCont, ExceptT.mk, lift, StateT.bind, pure, StateT.pure, hall]

/-- The fail-fast round archives a token for each failing share. -/
theorem mem_noted_ki {params : Params} {presig : KiPresignature F G} {zCom : FeldmanCommitment G} {m : F}
    {message : Bytes} {set : EnvelopeSet F G} (ev : BlameEvidence F G) :
    ev ∈ (signKiR2Noted params presig zCom m message set []).2 ↔ AllSignShares (payloads set) ∧
      ∃ f env, FailedShare presig.id (signCom presig.uCom zCom m presig.r) set f env ∧
        ev = shareToken shareFailed message ⟨presig.r, presig.uCom, zCom⟩ f env := by
  unfold signKiR2Noted combineKi
  rw [collectShareEnvs_eq]
  by_cases hall : AllSignShares (payloads set)
  · rw [collectSignShares_ok hall]
    obtain ⟨hblames, hpasses⟩ := combine_collected_failing params.t presig.r (signCom presig.uCom zCom m presig.r)
      presig.id (payloads set)
    rw [← mem_tokens, and_iff_right hall]
    by_cases hnil : (((payloads set).toList.filterMap (pickShare presig.id)).filter fun sh =>
        !(signCom presig.uCom zCom m presig.r).verifyShare sh.sender sh.s).map (·.sender) = []
    · rw [hnil]
      have hnone := hpasses hnil
      simp only [Except.map, bind, ExceptT.bind, ExceptT.bindCont, ExceptT.mk, lift, StateT.bind]
      generalize combineVerified params.t 0 presig.r (signCom presig.uCom zCom m presig.r)
        ((payloads set).toList.filterMap (pickShare presig.id)) = out at hnone
      rcases out with (e | msg) | ⟨r, s⟩
      · cases e with
        | abort a => exact absurd rfl (hnone a)
        | _ => exact Iff.rfl
      · exact Iff.rfl
      · exact Iff.rfl
    · simp only [Except.map, bind, ExceptT.bind, ExceptT.bindCont, ExceptT.mk, lift, StateT.bind, hblames hnil, abort,
        noteShares_run, List.nil_append, throw, throwThe, MonadExceptOf.throw, pure, StateT.pure]
  · obtain ⟨f, hf⟩ := collectSignShares_malformed presig.id hall
    rw [hf]
    simp [Except.map, bind, ExceptT.bind, ExceptT.bindCont, ExceptT.mk, lift, StateT.bind, pure, StateT.pure, hall]

section Outcome

variable (params : Params) (m : F) (message : Bytes) (set : EnvelopeSet F G) (noted : List (BlameEvidence F G))

/-- Archiving leaves the drivers' outcomes alone. -/
theorem signRunScalarNoted_outcome (presig : Presignature F G) :
    (signRunScalarNoted params presig m message set noted).1 = signRunScalar params presig m (payloads set) := by
  unfold signRunScalarNoted signRunScalar
  rw [collectShareEnvs_eq]
  cases collectSignShares presig.id (payloads set) with
  | error e => rfl
  | ok shares =>
    simp only [Except.map, bind, ExceptT.bind, ExceptT.bindCont, ExceptT.mk, lift, StateT.bind, Except.bind]
    cases combineRobust params presig m shares with
    | error e => rfl
    | ok out =>
      simp only [StateT.bind, noteShares_run]
      cases finishSignature G out.1.1 out.1.2 <;> rfl

theorem signKiRobustR2Noted_outcome (presig : KiPresignature F G) (zCom : FeldmanCommitment G)
    (blamed active : List PartyId) : (signKiRobustR2Noted params presig zCom m message blamed active set noted).1 =
      signKiRobustR2 params presig zCom m blamed active (payloads set) := by
  unfold signKiRobustR2Noted signKiRobustR2
  rw [collectShareEnvs_eq]
  cases collectSignShares presig.id (payloads set) with
  | error e => rfl
  | ok shares =>
    simp only [Except.map, bind, ExceptT.bind, ExceptT.bindCont, ExceptT.mk, lift, StateT.bind, Except.bind]
    cases combineKiRobust params presig zCom m shares with
    | error e => rfl
    | ok out =>
      simp only [StateT.bind, noteShares_run]
      cases finishSignature G out.1.1 out.1.2 <;> rfl

theorem signKiR2Noted_outcome (presig : KiPresignature F G) (zCom : FeldmanCommitment G) :
    (signKiR2Noted params presig zCom m message set noted).1 = (do
      let shares ← collectSignShares presig.id (payloads set)
      let (r, s) ← combineKi params presig zCom m shares
      finishSignature G r s) := by
  unfold signKiR2Noted
  rw [collectShareEnvs_eq]
  cases collectSignShares presig.id (payloads set) with
  | error e => rfl
  | ok shares =>
    simp only [Except.map, bind, ExceptT.bind, ExceptT.bindCont, ExceptT.mk, lift, StateT.bind, Except.bind]
    rcases combineKi params presig zCom m shares with (e | msg) | ⟨r, s⟩
    · cases e with
      | abort a =>
        simp only [StateT.bind, noteShares_run]
        rfl
      | _ => rfl
    · rfl
    · rfl

end Outcome

namespace SignCall

variable [WireFormat F G]

theorem mem_archived (params : Params) (set : EnvelopeSet F G) (call : SignCall F G) (ev : BlameEvidence F G) :
    ev ∈ call.archived params set ↔ AllSignShares (payloads set) ∧ call.Combines params (payloads set) ∧
      ∃ f env, FailedShare call.id (call.comFor call.scalarOf) set f env ∧
        ev = shareToken shareFailed call.messageOf call.check f env := by
  have htail : ∀ (r s : F) (blamed : List PartyId) (noted : List (BlameEvidence F G)), ((do
      let sig ← lift (finishSignature G r s)
      return (sig, blamed) : ArchiveM F G (Signature F × List PartyId)) noted).2 = noted := by
    intro r s blamed noted
    cases finishSignature G r s <;> rfl
  cases call with
  | message presig msg ids => exact mem_noted_robust _ htail ev
  | scalar presig m ids => exact mem_noted_robust _ htail ev
  | ki presig zCom msg =>
    unfold Combines
    rw [true_and]
    exact mem_noted_ki ev
  | kiRobust presig zCom msg blamed active =>
    exact mem_noted_robust (fun r s b => do
      let (blamed, _active) := expelSorted blamed active b
      let sig ← lift (finishSignature G r s)
      return (sig, blamed)) (fun r s b noted => htail r s _ noted) ev

end SignCall

/-! ## Lemmas: the accepted envelopes -/

section Accepted

variable {w : Wire F G K} {registry : List (PartyId × K)} {wire : List (WireMessage (NodePayload F G))}

theorem signedBy_of_verify {msg : WireMessage (NodePayload F G)} (h : msg.verify w w.node registry = true) :
    signedBy w w.node registry msg.received.env.envelope.sender msg.received.env = true ∧
      ∀ x e, msg.received = .echo x e → e.envelope.addressee = none := by
  cases msg with
  | original env => exact ⟨h, nofun⟩
  | echo echoer env signature =>
    simp only [WireMessage.verify] at h
    split at h
    · cases h
    · next hok =>
      rw [Bool.and_eq_true] at h
      refine ⟨h.1, ?_⟩
      rintro x e ⟨⟩
      exact Option.not_isSome_iff_eq_none.mp fun hs => hok (Or.inr hs)

theorem faithful_run (payloadBytes : NodePayload F G → Bytes) (t : Usize) {msgs : List (Received (NodePayload F G))}
    (hecho : ∀ msg ∈ msgs, ∀ x e, msg = .echo x e → e.envelope.addressee = none) :
    Faithful payloadBytes msgs (Acceptor.run payloadBytes t msgs) := by
  induction msgs using List.reverseRecOn with
  | nil => exact faithful_new t
  | append_singleton msgs msg ih =>
    have hprev := ih fun m hm => hecho m (List.mem_append_left _ hm)
    unfold Acceptor.run at hprev ⊢
    rw [List.foldl_append]
    exact (hprev.process msg (hecho msg (List.mem_append_right _ (List.mem_singleton_self msg)))).1

/-- Who an accepted broadcast is from, and that its signature verified. -/
theorem accepted_signed {t : Usize} {sid : Bytes} {phase : Phase} {round : Nat} {ids : List PartyId} {f : PartyId}
    {env : SignedEnvelope (NodePayload F G)}
    (h : ((Acceptor.run w.node t (verified w w.node registry wire)).bcastSet sid phase round ids)[f]? = some env) :
    env.envelope.sender = f ∧ env.envelope.phase = phase ∧ signedBy w w.node registry f env = true ∧
      ∃ msg ∈ wire, msg.received.env = env := by
  have hverified : ∀ msg ∈ verified w w.node registry wire,
      ∃ m ∈ wire, m.verify w w.node registry = true ∧ m.received = msg := by
    intro msg hmsg
    obtain ⟨m, hm, rfl⟩ := List.mem_map.mp hmsg
    exact ⟨m, (List.mem_filter.mp hm).1, (List.mem_filter.mp hm).2, rfl⟩
  have hecho : ∀ msg ∈ verified w w.node registry wire, ∀ x e, msg = .echo x e → e.envelope.addressee = none := by
    intro msg hmsg
    obtain ⟨m, -, hver, rfl⟩ := hverified msg hmsg
    exact (signedBy_of_verify hver).2
  have hfaithful := faithful_run w.node t hecho
  rw [bcastSet_getElem?] at h
  split at h
  · obtain ⟨-, ⟨payload, c⟩, hc, -, rfl⟩ := accepted_some h
    obtain ⟨-, hholds⟩ := hfaithful.holds _ payload c (Std.ExtTreeMap.mem_toList_iff_getElem?_eq_some.mp hc)
    have hsender : c.env.envelope.sender = f := congrArg SlotKey.party hholds.slot
    obtain ⟨msg, hmsg, henv⟩ := hholds.source
    obtain ⟨m, hm, hver, rfl⟩ := hverified msg hmsg
    have hsigned := (signedBy_of_verify hver).1
    rw [henv, hsender] at hsigned
    exact ⟨hsender, congrArg SlotKey.phase hholds.slot, hsigned, m, hm, henv⟩
  · cases h

end Accepted

section Audit

variable [WireFormat F G]

theorem WireMessage.Fits.env {msg : WireMessage (NodePayload F G)}
    (h : msg.Fits F G NodePayload.encode NodePayload.Fits) :
    msg.received.env.Fits F G NodePayload.encode NodePayload.Fits := by
  cases msg with
  | original env => exact h
  | echo echoer env signature => exact h.1

/-- The audit of a signed share's token is the check for the archived message. -/
theorem shareToken_audit {w : Wire F G K} {partyKeys : List (PartyId × K)} {message : Bytes} {check : ShareCheck F G}
    {f : PartyId} {env : SignedEnvelope (NodePayload F G)} {id : U64} {s : F} (hsender : env.envelope.sender = f)
    (hphase : env.envelope.phase = .sign) (hsigned : signedBy w w.node partyKeys f env = true)
    (hpayload : env.envelope.payload = .signShare id s) (henv : env.Fits F G NodePayload.encode NodePayload.Fits)
    (hmessage : 8 + message.length < 2 ^ 64) (hu : check.uCom.Fits) (hz : check.zCom.Fits) :
    (auditToken w (BlameEvidence.decode F G (shareToken shareFailed message check f env).encode) partyKeys).verdict =
        true ↔
      (signCom check.uCom check.zCom (messageScalar F G message) check.r).verifyShare f s = false := by
  have hdetail : 8 + (utf8 shareFailed).length < 2 ^ 64 := by decide +kernel
  have habort : (⟨.sign, [f], shareFailed⟩ : IdentifiableAbort).Fits := ⟨by simp, hdetail⟩
  have hfits : (shareToken shareFailed message check f env).Fits := ⟨habort, henv, hmessage, hu, hz⟩
  rw [BlameEvidence.decode_encode hfits]
  subst hsender
  simp [auditToken, auditChecks, AuditReport.verdict, shareToken, hphase, hsigned, hpayload, signedShare]

/-! ## Top theorem -/

/-- **When the auditor agrees with the driver**: in a session over a byte string
always; in one over a scalar exactly when no blamed share passes for the scalar that
the archived bytes hash to. -/
theorem sign_tokens_audit_iff (verify : K → Bytes → Bytes → Bool) (registry : List (PartyId × K)) (params : Params)
    (wire : List (WireMessage (NodePayload F G)))
    (hwire : ∀ msg ∈ wire, msg.Fits F G NodePayload.encode NodePayload.Fits) (sid : Bytes) (call : SignCall F G)
    (hcall : call.Fits) :
    AllAudited ⟨DkgMessage.encode, NodePayload.encode, verify⟩ registry
        (call.archived params (call.accepted verify registry params wire sid)) ↔
      call.Audits params (payloads (call.accepted verify registry params wire sid)) := by
  set set := call.accepted verify registry params wire sid
  -- each token's verdict is the check for the archived message
  have haudit : ∀ f env, FailedShare call.id (call.comFor call.scalarOf) set f env → ∀ s,
      env.envelope.payload = .signShare call.id s →
      ((auditToken ⟨DkgMessage.encode, NodePayload.encode, verify⟩ (BlameEvidence.decode F G
        (shareToken shareFailed call.messageOf call.check f env).encode) registry).verdict = true ↔
        (call.comFor (messageScalar F G call.messageOf)).verifyShare f s = false) := by
    rintro f env ⟨henv, -⟩ s hs
    obtain ⟨hsender, hphase, hsigned, msg, hmsg, rfl⟩ :=
      accepted_signed (w := (⟨DkgMessage.encode, NodePayload.encode, verify⟩ : Wire F G K)) henv
    exact shareToken_audit hsender hphase hsigned hs (hwire msg hmsg).env hcall.1 hcall.2.1 hcall.2.2
  have hsame : call.scalarOf = messageScalar F G call.messageOf →
      AllAudited ⟨DkgMessage.encode, NodePayload.encode, verify⟩ registry (call.archived params set) := by
    intro hm ev hev
    obtain ⟨-, -, f, env, hfailed, rfl⟩ := (call.mem_archived params set ev).mp hev
    have ⟨_, s, hs, hbad⟩ := hfailed
    rw [haudit f env hfailed s hs, ← hm]
    exact hbad
  cases call with
  | message presig msg ids => exact ⟨fun _ => trivial, fun _ => hsame rfl⟩
  | ki presig zCom msg => exact ⟨fun _ => trivial, fun _ => hsame rfl⟩
  | kiRobust presig zCom msg blamed active => exact ⟨fun _ => trivial, fun _ => hsame rfl⟩
  | scalar presig m ids =>
    constructor
    · intro hall hshares hquorum f s hf hbad
      rw [payloads_getElem?, Option.map_eq_some_iff] at hf
      obtain ⟨env, henv, hs⟩ := hf
      have hfailed : FailedShare presig.id (signCom presig.uCom presig.zCom m presig.r) set f env := ⟨henv, s, hs, hbad⟩
      exact (haudit f env hfailed s hs).mp (hall _ ((SignCall.mem_archived params set (.scalar presig m ids) _).mpr
        ⟨hshares, hquorum, f, env, hfailed, rfl⟩))
    · intro haudits ev hev
      obtain ⟨hshares, hquorum, f, env, hfailed, rfl⟩ :=
        (SignCall.mem_archived params set (.scalar presig m ids) ev).mp hev
      obtain ⟨henv, s, hs, hbad⟩ := hfailed
      rw [haudit f env ⟨henv, s, hs, hbad⟩ s hs]
      refine haudits hshares hquorum f s ?_ hbad
      rw [payloads_getElem?, henv, Option.map_some, hs]
      rfl

end Audit

/-! ### A share of the scalar that the archived bytes hash to -/

section Digest

open Secp256k1

/-- The points, with the SHA-256 digest of the scalar 1. -/
def Hashed := Point

instance : AddCommGroup Hashed := inferInstanceAs (AddCommGroup Point)
instance : Module Scalar Hashed := inferInstanceAs (Module Scalar Point)
instance : DecidableEq Hashed := inferInstanceAs (DecidableEq Point)

/-- SHA-256 of the 32 bytes of 1. -/
def digestOfOne : Bytes :=
  bytes32 0xec4916dd28fc4c10d78e287ca5d9cc51ee1ae73cbfde08c6b37324cbfaac8bc5

instance : K256 Scalar Hashed := withDigest fun b => if b = bytes32 1 then digestOfOne else b

instance : WireFormat Scalar Hashed := wireWithDigest _

/-- Party `j`'s record: the nonce is `1/3`. -/
def hashedRecord (j : PartyId) : Presignature Scalar Hashed :=
  ⟨0, j, -3⁻¹, (3⁻¹ : Point), 3 + 3 * scalarFrom j, 3 - 5 * scalarFrom j, ⟨[(3 : Point), (3 : Point)]⟩,
    ⟨[(3 : Point), (-5 : Point)]⟩⟩

def shareSignature : Bytes := bytes32 1 ++ bytes32 1

def signEnvelope (j : PartyId) (m : Scalar) : SignedEnvelope (NodePayload Scalar Hashed) :=
  ⟨.broadcast (utf8 "s") .sign 1 j (.signShare 0 (signShare (hashedRecord j) m).s), shareSignature⟩

/-- Each share and one echo: parties 1 and 2 sign the scalar 1, party 3 what its
bytes hash to. -/
def shareWire : List (WireMessage (NodePayload Scalar Hashed)) :=
  [(1, 2, 1), (2, 3, 1), (3, 1, messageScalar Scalar Hashed (bytes32 1))].flatMap fun e =>
    [.original (signEnvelope e.1 e.2.2), .echo e.2.1 (signEnvelope e.1 e.2.2) shareSignature]

def shareVerify (_ : Unit) (_ sig : Bytes) : Bool := sig == shareSignature

def shareRegistry : List (PartyId × Unit) := [(1, ()), (2, ()), (3, ())]

theorem shareSignature_ok : shareSignature.length = 64 ∧ signatureOk Scalar Hashed shareSignature = true :=
  ⟨rfl, by decide +kernel⟩

theorem signEnvelope_fits (j : PartyId) (m : Scalar) :
    (signEnvelope j m).Fits Scalar Hashed NodePayload.encode NodePayload.Fits := by
  have hsid : 8 + (utf8 "s").length < 2 ^ 64 := by decide +kernel
  have hpayload : 8 + (NodePayload.encode (signEnvelope j m).envelope.payload).length < 2 ^ 64 := by
    simp [signEnvelope, Envelope.broadcast, NodePayload.encode, WireFormat.scalarBytes_length, u64Bytes]
  refine ⟨⟨hsid, show 1 < 256 by decide, ?_, hpayload⟩, shareSignature_ok⟩
  simp [signEnvelope, Envelope.broadcast, NodePayload.Fits]

theorem shareWire_fits : ∀ msg ∈ shareWire, msg.Fits Scalar Hashed NodePayload.encode NodePayload.Fits := by
  intro msg hmsg
  obtain ⟨e, -, hmsg⟩ := List.mem_flatMap.mp hmsg
  rcases List.mem_pair.mp hmsg with rfl | rfl
  · exact signEnvelope_fits e.1 e.2.2
  · exact ⟨signEnvelope_fits e.1 e.2.2, shareSignature_ok⟩

/-- The call over a byte string that hashes to 1. -/
def messageCall : SignCall Scalar Hashed := .message (hashedRecord 1) [1] trio.ids

/-- Party 3 is blamed, with a token that passes. -/
theorem message_token_audited :
    (messageCall.archived ⟨3, 2⟩ (messageCall.accepted shareVerify shareRegistry ⟨3, 2⟩ shareWire (utf8 "s"))).length = 1 ∧
      AllAudited ⟨DkgMessage.encode, NodePayload.encode, shareVerify⟩ shareRegistry
        (messageCall.archived ⟨3, 2⟩ (messageCall.accepted shareVerify shareRegistry ⟨3, 2⟩ shareWire (utf8 "s"))) :=
  ⟨by decide +kernel, (sign_tokens_audit_iff shareVerify shareRegistry ⟨3, 2⟩ shareWire shareWire_fits (utf8 "s") messageCall
    ⟨by decide, show 2 < 2 ^ 64 by decide, show 2 < 2 ^ 64 by decide⟩).mpr trivial⟩

def scalarCall : SignCall Scalar Hashed := .scalar (hashedRecord 1) 1 trio.ids

/-- Party 3 is blamed, and the token that says so fails the audit. -/
theorem scalar_token_rejected : ¬ AllAudited ⟨DkgMessage.encode, NodePayload.encode, shareVerify⟩ shareRegistry
    (scalarCall.archived ⟨3, 2⟩ (scalarCall.accepted shareVerify shareRegistry ⟨3, 2⟩ shareWire (utf8 "s"))) := by
  intro h
  have hall : ((scalarCall.archived ⟨3, 2⟩ (scalarCall.accepted shareVerify shareRegistry ⟨3, 2⟩ shareWire
      (utf8 "s"))).all fun ev => (auditToken ⟨DkgMessage.encode, NodePayload.encode, shareVerify⟩
        (BlameEvidence.decode Scalar Hashed ev.encode) shareRegistry).verdict) = true := List.all_eq_true.mpr h
  revert hall
  decide +kernel

end Digest

end OhmEcdsa
