import OhmEcdsa.Core.SignKi
import OhmEcdsa.Node.Sign
import OhmEcdsa.Node.Triple

/-!
# The wire presigning and signing drivers (`party.rs`)

P1–P4 over broadcast rounds, fail-fast and robust, key-independent presigning,
online signing, and the expel-and-restart loops around key generation and
presigning.
-/

set_option linter.unusedSectionVars false

namespace OhmEcdsa

open Hoare FeldmanCommitment

variable {F G : Type} [Field F] [DecidableEq F] [AddCommGroup G] [Module F G] [DecidableEq G] [K256 F G]

def PS_ROUND_DELTA_EPS : Nat := 1
def PS_ROUND_V : Nat := 2
def PS_ROUND_NONCE : Nat := 3
def PS_ROUND_Z : Nat := 4
def SIGN_ROUND_SHARE : Nat := 1
def KI_ROUND_OPEN : Nat := 1
def KI_ROUND_SHARE : Nat := 2

/-- What a node accepted in P1–P3. -/
structure NonceView (F G : Type) where
  triple : TripleView F G
  u : VssView F G
  a : VssView F G
  deltaEps : AcceptedSet F G
  v : AcceptedSet F G
  nonce : AcceptedSet F G

/-- What a node accepted in a presigning session. -/
structure PresignView (F G : Type) extends NonceView F G where
  triple2 : TripleView F G
  z : AcceptedSet F G

/-- What a node accepted in a key-independent signing session. -/
structure KiView (F G : Type) where
  triple : TripleView F G
  opens : AcceptedSet F G
  shares : AcceptedSet F G

/-! ## Algorithm: collecting a round -/

def asOpenShare (_ : PartyId) : NodePayload F G → Option F
  | .openShare s => some s
  | _ => none

def asBeaverOpen (_ : PartyId) : NodePayload F G → Option (F × F)
  | .beaverOpen first second => some (first, second)
  | _ => none

def collectOpenShares (phase : Phase) (ids : List PartyId) (view : AcceptedSet F G) : Outcome (PartyMap F) :=
  let envs := acceptedOver ids view
  if envs.size ≠ ids.length then .error incomplete
  else do
    let l ← parseSet phase "malformed opening broadcast" asOpenShare envs
    return collect l

/-- The `δ`- and `ε`-shares of one round. -/
def collectBeaverOpens (phase : Phase) (ids : List PartyId) (view : AcceptedSet F G) :
    Outcome (PartyMap F × PartyMap F) :=
  let envs := acceptedOver ids view
  if envs.size ≠ ids.length then .error incomplete
  else do
    let l ← parseSet phase "malformed opening broadcast" asBeaverOpen envs
    return (collect (l.map fun e => (e.1, e.2.1)), collect (l.map fun e => (e.1, e.2.2)))

def invertV (v : F) : Outcome F :=
  match invert v with
  | none => .error (.error (.zeroValue "v = 0"))
  | some vInv => .ok vInv

/-- One nonce point, checked against `EvalCom(A[k], j)`. -/
def checkNonce (kCom : FeldmanCommitment G) (e : PartyId × NodePayload F G) : Outcome G :=
  match e.2 with
  | .noncePoint p =>
    if p ≠ kCom.evalAt F e.1 then .error (abort .presign [e.1] "invalid nonce point R_j") else .ok p
  | _ => .error (abort .presign [e.1] "malformed nonce broadcast")

/-- `(R, r)` of the nonce round. -/
def nonceRound (ids : List PartyId) (kCom : FeldmanCommitment G) (view : AcceptedSet F G) : Outcome (G × F) :=
  let nonceEnvs := acceptedOver ids view
  if nonceEnvs.size ≠ ids.length then .error incomplete
  else do
    let rPoints ← nonceEnvs.toList.mapM (checkNonce kCom)
    let lambdas : List F ← lagrangeCoeffs ids
    let bigR := interpolatePoints lambdas rPoints
    let r : F ← nonceScalar bigR
    return (bigR, r)

/-- One nonce point, filed under the valid or the bad ones. -/
def fileNonce (kCom : FeldmanCommitment G) (out : List (PartyId × G) × List PartyId)
    (e : PartyId × NodePayload F G) : Outcome (List (PartyId × G) × List PartyId) :=
  match e.2 with
  | .noncePoint p =>
    if p = kCom.evalAt F e.1 then .ok (out.1 ++ [(e.1, p)], out.2) else .ok (out.1, out.2 ++ [e.1])
  | _ => .error (abort .presign [e.1] "malformed nonce broadcast")

/-- `(R, r)` over the valid senders, and the blame and the active set after the round. -/
def nonceRoundRobust (t : Usize) (kCom : FeldmanCommitment G) (blamed active : List PartyId)
    (view : AcceptedSet F G) : Outcome (G × F × List PartyId × List PartyId) :=
  let nonceEnvs := acceptedOver active view
  if nonceEnvs.size ≠ active.length then .error incomplete
  else do
    let (valid, badPoints) ← nonceEnvs.toList.foldlM (fileNonce kCom) ([], [])
    let (blamed, active) := expelSorted blamed active badPoints
    if valid.length < t.val then throw (.error (.notEnoughShares valid.length t.val))
    else
      let lambdas : List F ← lagrangeCoeffs (valid.map (·.1))
      let bigR := interpolatePoints lambdas (valid.map (·.2))
      let r : F ← nonceScalar bigR
      return (bigR, r, blamed, active)

/-! ## Algorithm: presigning -/

/-- P1–P3: this node's `u`-share, `A[u]`, `r` and `R`. -/
def presignP1P3 (me : PartyId) (t : Usize) (sid : Bytes) (ids : List PartyId) (view : NonceView F G) :
    NodeM F G (F × FeldmanCommitment G × F × G) := do
  let (t1, pub1) ← tripleRun me t (sid ++ utf8 "/t1") ids view.triple
  let uOut ← jointVssRun me t (sid ++ utf8 "/u") tags.dkgCommit .presign ids view.u
  let aOut ← jointVssRun me t (sid ++ utf8 "/a") tags.dkgCommit .presign ids view.a
  let deltaCom := uOut.com.add (pub1.ca.scale (-1 : F))
  let epsCom := aOut.com.add (pub1.cb.scale (-1 : F))
  send (Envelope.broadcast sid .presign PS_ROUND_DELTA_EPS me
    (.beaverOpen (uOut.share - t1.a) (aOut.share - t1.b)))
  let (deltas, epsilons) ← lift (collectBeaverOpens .presign ids view.deltaEps)
  let delta ← lift («open» t deltaCom deltas .presign)
  let eps ← lift («open» t epsCom epsilons .presign)
  let vCom ← lift (beaverCom pub1 delta eps)
  send (Envelope.broadcast sid .presign PS_ROUND_V me (.openShare (beaverShare t1 delta eps)))
  let vShares ← lift (collectOpenShares .presign ids view.v)
  let v ← lift («open» t vCom vShares .presign)
  let vInv ← lift (invertV v)
  send (Envelope.broadcast sid .presign PS_ROUND_NONCE me
    (.noncePoint ((vInv * aOut.share) • K256.generator F)))
  let (bigR, r) ← lift (nonceRound ids (aOut.com.scale vInv) view.nonce)
  return (uOut.share, uOut.com, r, bigR)

def presignRun (me : PartyId) (t : Usize) (sid : Bytes) (id : U64) (key : KeyShare F G) (ids : List PartyId)
    (view : PresignView F G) : NodeM F G (Presignature F G) := do
  let (uj, uCom, r, bigR) ← presignP1P3 me t sid ids view.toNonceView
  let (t2, pub2) ← tripleRun me t (sid ++ utf8 "/t2") ids view.triple2
  let d2Com := uCom.add (pub2.ca.scale (-1 : F))
  let e2Com := key.com.add (pub2.cb.scale (-1 : F))
  send (Envelope.broadcast sid .presign PS_ROUND_Z me (.beaverOpen (uj - t2.a) (key.share - t2.b)))
  let (d2s, e2s) ← lift (collectBeaverOpens .presign ids view.z)
  let d2v ← lift («open» t d2Com d2s .presign)
  let e2v ← lift («open» t e2Com e2s .presign)
  let zCom ← lift (beaverCom pub2 d2v e2v)
  return ⟨id, me, r, bigR, uj, beaverShare t2 d2v e2v, uCom, zCom⟩

/-- P1–P3 with robust openings: besides `u`, `A[u]`, `r` and `R`, the blame and the
parties left. -/
def presignP1P3Robust (me : PartyId) (t : Usize) (sid : Bytes) (ids : List PartyId) (view : NonceView F G) :
    NodeM F G (F × FeldmanCommitment G × F × G × List PartyId × List PartyId) := do
  let (t1, pub1) ← tripleRun me t (sid ++ utf8 "/t1") ids view.triple
  let uOut ← jointVssRun me t (sid ++ utf8 "/u") tags.dkgCommit .presign ids view.u
  let aOut ← jointVssRun me t (sid ++ utf8 "/a") tags.dkgCommit .presign ids view.a
  let deltaCom := uOut.com.add (pub1.ca.scale (-1 : F))
  let epsCom := aOut.com.add (pub1.cb.scale (-1 : F))
  send (Envelope.broadcast sid .presign PS_ROUND_DELTA_EPS me
    (.beaverOpen (uOut.share - t1.a) (aOut.share - t1.b)))
  let (deltas, epsilons) ← lift (collectBeaverOpens .presign ids view.deltaEps)
  let (delta, bD) ← lift (openRobust t deltaCom deltas .presign)
  let (eps, bE) ← lift (openRobust t epsCom epsilons .presign)
  let (blamed, active) := expelSorted [] ids bD
  let (blamed, active) := expelSorted blamed active bE
  let vCom ← lift (beaverCom pub1 delta eps)
  send (Envelope.broadcast sid .presign PS_ROUND_V me (.openShare (beaverShare t1 delta eps)))
  let vShares ← lift (collectOpenShares .presign active view.v)
  let (v, bV) ← lift (openRobust t vCom vShares .presign)
  let (blamed, active) := expelSorted blamed active bV
  let vInv ← lift (invertV v)
  send (Envelope.broadcast sid .presign PS_ROUND_NONCE me
    (.noncePoint ((vInv * aOut.share) • K256.generator F)))
  let (bigR, r, blamed, active) ← lift (nonceRoundRobust t (aOut.com.scale vInv) blamed active view.nonce)
  return (uOut.share, uOut.com, r, bigR, blamed, active)

def presignRobustRun (me : PartyId) (t : Usize) (sid : Bytes) (id : U64) (key : KeyShare F G)
    (ids : List PartyId) (view : PresignView F G) : NodeM F G (Presignature F G × List PartyId) := do
  let (uj, uCom, r, bigR, blamed, active) ← presignP1P3Robust me t sid ids view.toNonceView
  let (t2, pub2) ← tripleRun me t (sid ++ utf8 "/t2") ids view.triple2
  let d2Com := uCom.add (pub2.ca.scale (-1 : F))
  let e2Com := key.com.add (pub2.cb.scale (-1 : F))
  send (Envelope.broadcast sid .presign PS_ROUND_Z me (.beaverOpen (uj - t2.a) (key.share - t2.b)))
  let (d2s, e2s) ← lift (collectBeaverOpens .presign active view.z)
  let (d2v, bD2) ← lift (openRobust t d2Com d2s .presign)
  let (e2v, bE2) ← lift (openRobust t e2Com e2s .presign)
  let (blamed, active) := expelSorted blamed active bD2
  let (blamed, _active) := expelSorted blamed active bE2
  let zCom ← lift (beaverCom pub2 d2v e2v)
  return (⟨id, me, r, bigR, uj, beaverShare t2 d2v e2v, uCom, zCom⟩, blamed)

def presignKiRun (me : PartyId) (params : Params) (sid : Bytes) (id : U64) (view : NonceView F G) :
    NodeM F G (KiPresignature F G) := do
  let (uj, uCom, r, bigR) ← presignP1P3 me params.t sid params.parties view
  return ⟨id, me, r, bigR, uj, uCom⟩

/-! ## Algorithm: signing -/

/-- `sign_scalar_over`: the node signs with its record over a committee it is in. -/
def signScalarOver (me : PartyId) (params : Params) (sid : Bytes) (presig : Presignature F G) (m : F)
    (ids : List PartyId) (view : AcceptedSet F G) : NodeM F G (Signature F × List PartyId) := do
  if !ids.contains me then
    throw (.error (.invalidParams "this node is not a member of the signing committee"))
  else do
    send (Envelope.broadcast sid .sign SIGN_ROUND_SHARE me (signShareMessage presig m))
    lift (signRunScalar params presig m (acceptedOver ids view))

def signOver (me : PartyId) (params : Params) (sid : Bytes) (presig : Presignature F G) (msg : Bytes)
    (ids : List PartyId) (view : AcceptedSet F G) : NodeM F G (Signature F × List PartyId) :=
  signScalarOver me params sid presig (messageScalar F G msg) ids view

/-- R1: a fresh triple, and the `δ`- and `ε`-shares of all with what they are checked against. -/
def signKiOpens (me : PartyId) (params : Params) (sid : Bytes) (presig : KiPresignature F G)
    (key : KeyShare F G) (view : KiView F G) :
    NodeM F G (TripleShare F × TriplePublic G × (FeldmanCommitment G × PartyMap F) ×
      (FeldmanCommitment G × PartyMap F)) := do
  let (share, pub) ← tripleRun me params.t (sid ++ utf8 "/triple") params.parties view.triple
  let deltaCom := presig.uCom.add (pub.ca.scale (-1 : F))
  let epsCom := key.com.add (pub.cb.scale (-1 : F))
  send (Envelope.broadcast sid .sign KI_ROUND_OPEN me (.beaverOpen (presig.uShare - share.a) (key.share - share.b)))
  let (deltas, epsilons) ← lift (collectBeaverOpens .sign params.parties view.opens)
  return (share, pub, (deltaCom, deltas), (epsCom, epsilons))

/-- The R2 share of a node that opened `delta` and `eps`. -/
def signKiShare (me : PartyId) (sid : Bytes) (presig : KiPresignature F G) (m : F) (share : TripleShare F)
    (delta eps : F) : Envelope (NodePayload F G) :=
  Envelope.broadcast sid .sign KI_ROUND_SHARE me
    (.signShare presig.id (signShareKi presig (kiZShare share delta eps) m).s)

def signKiRun (me : PartyId) (params : Params) (sid : Bytes) (presig : KiPresignature F G) (key : KeyShare F G)
    (msg : Bytes) (view : KiView F G) : NodeM F G (Signature F) := do
  let m := messageScalar F G msg
  let (share, pub, (deltaCom, deltas), (epsCom, epsilons)) ← signKiOpens me params sid presig key view
  let delta ← lift («open» params.t deltaCom deltas .sign)
  let eps ← lift («open» params.t epsCom epsilons .sign)
  let zCom ← lift (kiZCom pub delta eps)
  send (signKiShare me sid presig m share delta eps)
  let shares ← lift (collectSignShares presig.id (acceptedOver params.parties view.shares))
  let (r, s) ← lift (combineKi params presig zCom m shares)
  lift (finishSignature G r s)

def signKiRobustRun (me : PartyId) (params : Params) (sid : Bytes) (presig : KiPresignature F G)
    (key : KeyShare F G) (msg : Bytes) (view : KiView F G) : NodeM F G (Signature F × List PartyId) := do
  let m := messageScalar F G msg
  let (share, pub, (deltaCom, deltas), (epsCom, epsilons)) ← signKiOpens me params sid presig key view
  let (delta, bD) ← lift (openRobust params.t deltaCom deltas .sign)
  let (eps, bE) ← lift (openRobust params.t epsCom epsilons .sign)
  let (blamed, active) := expelSorted [] params.parties bD
  let (blamed, active) := expelSorted blamed active bE
  let zCom ← lift (kiZCom pub delta eps)
  send (signKiShare me sid presig m share delta eps)
  lift (signKiRobustR2 params presig zCom m blamed active (acceptedOver active view.shares))

/-! ## Algorithm: expel and restart -/

/-- The state of a `*_with_restart` loop. -/
structure NodeRestart where
  current : List PartyId
  blamedAll : List PartyId
  attempt : U64

def expelledHere (a : IdentifiableAbort) : Fault :=
  abort a.phase a.blamed (a.detail ++ "; this node is expelled — the session continues over the surviving committee")

/-- An attempt's error; the driver goes on after an abort. -/
def attemptAgain (me : PartyId) (t : Usize) (st : NodeRestart) (e : Fault) : Outcome NodeRestart :=
  match e with
  | .error (.abort a) => do
    let (blamedAll, next) := restartStep me t st.current st.blamedAll a
    match (← next) with
    | some survivors => return ⟨survivors, blamedAll, st.attempt + 1⟩
    | none => throw (expelledHere a)
  | e => .error e

/-- A driver's result as a value. -/
def observe {α : Type} (m : NodeM F G α) : NodeM F G (Outcome α) := fun d => (.ok (m d).1, (m d).2)

/-- The loop of the `*_with_restart` drivers, `none` when `fuel` attempts were not enough. -/
def nodeRestartLoop {α : Type} (me : PartyId) (t : Usize) (run : NodeRestart → NodeM F G α) :
    Nat → NodeRestart → NodeM F G (Option (NodeRestart × α))
  | 0, _ => return none
  | fuel + 1, st => do
    let result ← observe (run st)
    match result with
    | .ok a => return some (st, a)
    | .error e => do
      let st' ← lift (attemptAgain me t st e)
      nodeRestartLoop me t run fuel st'

/-- The share, the final committee and the cumulative blame; `views` has the accepted
sets of each attempt. -/
def keygenWithRestart (me : PartyId) (params : Params) (sid tag : Bytes) (views : U64 → VssView F G)
    (fuel : Nat) : NodeM F G (Option (KeyShare F G × List PartyId × List PartyId)) := do
  let out ← nodeRestartLoop me params.t (fun st =>
    jointVssRun me params.t (poisonSid sid st.attempt) tag .keyGen st.current (views st.attempt))
    fuel ⟨params.parties, [], 0⟩
  return out.map fun (st, share) => (share, st.current, st.blamedAll)

/-- The record, the id it has, the final committee and the cumulative blame. -/
def presignWithRestartOver (me : PartyId) (params : Params) (sid : Bytes) (firstId : U64) (key : KeyShare F G)
    (start : List PartyId) (views : U64 → PresignView F G) (fuel : Nat) :
    NodeM F G (Option (Presignature F G × U64 × List PartyId × List PartyId)) := do
  let out ← nodeRestartLoop me params.t (fun st =>
    presignRobustRun me params.t (poisonSid sid st.attempt) (firstId + st.attempt) key st.current (views st.attempt))
    fuel ⟨start, [], 0⟩
  return out.map fun (st, record, inAttempt) =>
    (record, firstId + st.attempt, st.current, accumulateBlame st.blamedAll inAttempt)

end OhmEcdsa
