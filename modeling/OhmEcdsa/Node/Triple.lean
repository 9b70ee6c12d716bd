import OhmEcdsa.Core.Triples
import OhmEcdsa.Node.Audit
import OhmEcdsa.Node.Vss

/-!
# The wire triples (`party.rs`): `triple_run` and `triple_robust_run`

Two joint sharings, then the re-sharings of the local products with their DLEQ
proofs.  The fail-fast driver settles a bad re-share by complaints and defenses,
the robust one by public reconstruction.
-/

set_option linter.unusedSectionVars false

namespace OhmEcdsa

open Hoare FeldmanCommitment

variable {F G K : Type} [Field F] [DecidableEq F] [AddCommGroup G] [Module F G] [DecidableEq G] [K256 F G]

def TR_ROUND_DEAL : Nat := 1
def TR_ROUND_COMPLAIN : Nat := 2
def TR_ROUND_DEFEND : Nat := 3
def TR_ROUND_RECON_REQ : Nat := 4
def TR_ROUND_RECON_SUPPLY : Nat := 5

/-- What a node accepted in a triple session; the re-shares are kept as signed. -/
structure TripleView (F G : Type) where
  alpha : VssView F G
  beta : VssView F G
  deals : AcceptedSet F G
  reshares : PartyMap (SignedEnvelope (NodePayload F G))
  complaints : AcceptedSet F G
  defenses : AcceptedSet F G
  requests : AcceptedSet F G
  supplies : AcceptedSet F G

/-- T2: the deals, the re-shares this node received and those it sent. -/
structure TripleT2 (F G : Type) where
  deals : PartyMap (TripleDealMsg F G)
  mine : PartyMap F
  sent : PartyId → F
  reshEnvs : PartyMap (SignedEnvelope (NodePayload F G))

/-! ## Algorithm -/

def asTripleDeal (_ : PartyId) : NodePayload F G → Option (TripleDealMsg F G)
  | .tripleDeal d => some d
  | _ => none

def asReshare (_ : PartyId) : NodePayload F G → Option F
  | .reshare s => some s
  | _ => none

def asReshareRequests (_ : PartyId) : NodePayload F G → Option (List (PartyId × SignedEnvelope (NodePayload F G)))
  | .reshareRequests requests => some requests
  | _ => none

def asReshareSupply (_ : PartyId) : NodePayload F G → Option (List (PartyId × F))
  | .reshareSupply supplies => some supplies
  | _ => none

/-- The payloads of accepted envelopes. -/
def openEnvelopes (envs : PartyMap (SignedEnvelope (NodePayload F G))) : AcceptedSet F G :=
  envs.map fun _ env => env.envelope.payload

/-- This node's accepted sets of the deal round. -/
def collectT2 (ids : List PartyId) (sent : PartyId → F) (view : TripleView F G) : Outcome (TripleT2 F G) :=
  let dealEnvs := acceptedOver ids view.deals
  let reshEnvs := acceptedOver ids (openEnvelopes view.reshares)
  if dealEnvs.size ≠ ids.length ∨ reshEnvs.size ≠ ids.length then .error incomplete
  else do
    let deals ← parseSet .triples "malformed triple deal broadcast" asTripleDeal dealEnvs
    let mine ← parseSet .triples "malformed re-share envelope" asReshare reshEnvs
    return ⟨collect deals, collect mine, sent, view.reshares.filter fun f _ => ids.contains f⟩

/-- T1 and T2. -/
def tripleT1T2 (me : PartyId) (t : Usize) (sid : Bytes) (ids : List PartyId) (view : TripleView F G) :
    NodeM F G (KeyShare F G × KeyShare F G × TripleT2 F G) := do
  let alpha ← jointVssRun me t (sid ++ utf8 "/alpha") tags.dkgCommit .triples ids view.alpha
  let beta ← jointVssRun me t (sid ++ utf8 "/beta") tags.dkgCommit .triples ids view.beta
  let g ← draw (ShamirPoly.random (alpha.share * beta.share) t 0)
  let (x1, x2, proof) ← draw (DleqProof.prove sid tags.tripleProduct alpha.share (K256.generator F)
    (beta.com.evalAt F me) 0)
  send (Envelope.broadcast sid .triples TR_ROUND_DEAL me (.tripleDeal ⟨fromPoly g, x1, x2, proof⟩))
  ids.forM fun i => send (Envelope.p2p sid .triples TR_ROUND_DEAL me i (.reshare (g.eval i)))
  let t2 ← lift (collectT2 ids g.eval view)
  return (alpha, beta, t2)

/-- T3a: dealer `i` proved something else than its own product, or nothing. -/
def tripleProofFails (sid : Bytes) (ca cb : FeldmanCommitment G) (i : PartyId) (d : TripleDealMsg F G) : Outcome Bool :=
  if d.x1 ≠ ca.evalAt F i then .ok true
  else do
    let p0 ← nth d.com.points 0
    if d.x2 ≠ p0 then return true
    else return !DleqProof.verify sid tags.tripleProduct (K256.generator F) d.x1 (cb.evalAt F i) d.x2 d.proof

def tripleCheckProof (sid : Bytes) (deals : PartyMap (TripleDealMsg F G)) (ca cb : FeldmanCommitment G)
    (i : PartyId) : Outcome Unit := do
  let d ← index deals i
  if (← tripleProofFails sid ca cb i d) then throw (abort .triples [i] "invalid DLEQ product proof") else return ()

def tripleCheckProofs (sid : Bytes) (ids : List PartyId) (deals : PartyMap (TripleDealMsg F G))
    (ca cb : FeldmanCommitment G) : Outcome Unit :=
  ids.forM (tripleCheckProof (F := F) sid deals ca cb)

/-- T3b: the dealers whose re-share fails here. -/
def badReshares (me : PartyId) (ids : List PartyId) (t2 : TripleT2 F G) : Outcome (List PartyId) := do
  let checked ← ids.mapM fun i => do
    let d ← index t2.deals i
    let s ← index t2.mine i
    return (i, d.com.verifyShare me s)
  return (checked.filter fun e => !e.2).map (·.1)

/-- T3c: `[γ] = Σ λ_j·[g_j]`. -/
def tripleCombine (me : PartyId) (ids : List PartyId) (alpha beta : KeyShare F G)
    (deals : PartyMap (TripleDealMsg F G)) (mine : PartyMap F) : Outcome (TripleShare F × TriplePublic G) := do
  let lambdas : List F ← lagrangeCoeffs ids
  let scaled ← (ids.zip lambdas).mapM fun e => do
    let d ← index deals e.1
    return d.com.scale e.2
  let terms ← (ids.zip lambdas).mapM fun e => do
    let s ← index mine e.1
    return e.2 * s
  match scaled with
  | [] => throw (.panic "n >= 1")
  | first :: rest =>
    return (⟨me, alpha.share, beta.share, terms.foldl (· + ·) 0⟩, ⟨alpha.com, beta.com, rest.foldl add first⟩)

def tripleRun (me : PartyId) (t : Usize) (sid : Bytes) (ids : List PartyId) (view : TripleView F G) :
    NodeM F G (TripleShare F × TriplePublic G) := do
  let (alpha, beta, t2) ← tripleT1T2 me t sid ids view
  lift (tripleCheckProofs sid ids t2.deals alpha.com beta.com)
  let complaints ← lift (badReshares me ids t2)
  complaintRound me sid .triples (TR_ROUND_COMPLAIN, TR_ROUND_DEFEND) ids complaints t2.sent
    (fun d a s => do let deal ← index t2.deals d; return deal.com.verifyShare a s) view.complaints view.defenses
  lift (tripleCombine me ids alpha beta t2.deals t2.mine)

/-! ### `triple_robust_run` -/

/-- A request against dealer `d` holds up: the dealer's own signed re-share of this
session to the requester `v`, off the dealer's commitment. -/
def genuineRequest (w : Wire F G K) (registry : PartyMap K) (sid : Bytes) (deals : PartyMap (TripleDealMsg F G))
    (v d : PartyId) (evidence : SignedEnvelope (NodePayload F G)) : Outcome Bool :=
  let env := evidence.envelope
  if env.sender = d ∧ env.addressee = some v ∧ env.sid = sid ∧ env.phase = .triples ∧ env.round = TR_ROUND_DEAL then
    match env.payload with
    | .reshare s => do
      let key ← index registry d
      if evidence.verifySignature w w.node key then do
        let deal ← index deals d
        return !deal.com.verifyShare v s
      else return false
    | _ => return false
  else return false

/-- One requester's evidence: the dealers it proves bad. -/
def checkRequests (w : Wire F G K) (registry : PartyMap K) (sid : Bytes) (deals : PartyMap (TripleDealMsg F G))
    (reconstruct : Finset PartyId) (e : PartyId × NodePayload F G) : Outcome (Finset PartyId) :=
  match asReshareRequests e.1 e.2 with
  | none => .error (abort .triples [e.1] "malformed reconstruction request broadcast")
  | some requests =>
    requests.foldlM (fun reconstruct r => do
      if (← genuineRequest w registry sid deals e.1 r.1 r.2) then return insert r.1 reconstruct
      else throw (abort .triples [e.1] ("false accusation: " ++ toString e.1 ++
        "'s reconstruction request against dealer " ++ toString r.1 ++ " does not hold up"))) reconstruct

/-- The supplies by dealer; a later one of the same sender replaces an earlier. -/
def supplied (lists : List (PartyId × List (PartyId × F))) : PartyMap (PartyMap F) :=
  lists.foldl (fun out e => e.2.foldl (fun out s => out.alter s.1 fun m => some ((m.getD ∅).insert e.1 s.2)) out) ∅

/-- The contaminated share of dealer `d`, from the first `t` valid supplies. -/
def reconstructShare (me : PartyId) (t : Usize) (deals : PartyMap (TripleDealMsg F G))
    (supplies : PartyMap (PartyMap F)) (mine : PartyMap F) (d : PartyId) : Outcome (PartyMap F) := do
  let shares ← index supplies d
  let deal ← index deals d
  let valid := shares.toList.filter fun e => deal.com.verifyShare e.1 e.2
  if valid.length < t.val then
    throw (abort .triples [d]
      "fewer than t valid re-shared shares; committed re-sharing polynomial unrecoverable")
  else do
    let s ← interpolateAt (scalarFrom me) ((valid.map (·.1)).take t.val) ((valid.map (·.2)).take t.val)
    return mine.insert d s

/-- The supply round, and this node's shares after it. -/
def supplyRound (me : PartyId) (t : Usize) (sid : Bytes) (ids : List PartyId) (reconstruct : List PartyId)
    (t2 : TripleT2 F G) (view : AcceptedSet F G) : NodeM F G (PartyMap F) := do
  let supplies ← lift (reconstruct.mapM fun d => do
    let s ← index t2.mine d
    return (d, s))
  send (Envelope.broadcast sid .triples TR_ROUND_RECON_SUPPLY me (.reshareSupply supplies))
  let supSets := acceptedOver ids view
  if supSets.size ≠ ids.length then throw incomplete
  else do
    let lists ← lift (parseSet .triples "malformed reconstruction supply broadcast" asReshareSupply supSets)
    lift (reconstruct.foldlM (reconstructShare me t t2.deals (supplied lists)) t2.mine)

def tripleRobustRun (w : Wire F G K) (registry : PartyMap K) (me : PartyId) (t : Usize) (sid : Bytes)
    (ids : List PartyId) (view : TripleView F G) :
    NodeM F G (TripleShare F × TriplePublic G × List PartyId) := do
  let (alpha, beta, t2) ← tripleT1T2 me t sid ids view
  lift (tripleCheckProofs sid ids t2.deals alpha.com beta.com)
  let bad ← lift (badReshares me ids t2)
  let requests ← lift (bad.mapM fun i => do
    let env ← index t2.reshEnvs i
    return (i, env))
  send (Envelope.broadcast sid .triples TR_ROUND_RECON_REQ me (.reshareRequests requests))
  let reqSets := acceptedOver ids view.requests
  if reqSets.size ≠ ids.length then throw incomplete
  else do
    let reconstruct ← lift (reqSets.toList.foldlM (checkRequests w registry sid t2.deals) ∅)
    let blamed := reconstruct.sort (· ≤ ·)
    let mine ← (if blamed = [] then pure t2.mine else supplyRound me t sid ids blamed t2 view.supplies :
      NodeM F G (PartyMap F))
    let (share, pub) ← lift (tripleCombine me ids alpha beta t2.deals mine)
    return (share, pub, blamed)

end OhmEcdsa
