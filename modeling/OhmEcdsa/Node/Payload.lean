import OhmEcdsa.Core.Sign
import OhmEcdsa.Core.Codec

/-!
# The node's messages (`node/src/party/party.rs`)

A round's accepted set maps each sender to the payload its acceptor handed out
for the round's slot: broadcasts are keyed by sender alike at every node that
accepted them, P2P messages are the node's own.
-/

namespace OhmEcdsa

/-- A T2 deal: re-sharing commitment, proved statement, proof. -/
structure TripleDealMsg (F G : Type) where
  com : FeldmanCommitment G
  x1 : G
  x2 : G
  proof : DleqProof F G
  deriving DecidableEq

inductive NodePayload (F G : Type)
  | dkg (m : DkgMessage F G)
  | complaints (dealers : List PartyId)
  | defenses (defs : List (PartyId × F))
  | signShare (presig : U64) (s : F)
  | tripleDeal (d : TripleDealMsg F G)
  | reshare (s : F)
  | beaverOpen (first second : F)
  | openShare (s : F)
  | noncePoint (p : G)
  | reshareRequests (requests : List (PartyId × SignedEnvelope (NodePayload F G)))
  | reshareSupply (supplies : List (PartyId × F))

/-- The accepted payloads of one round, by sender. -/
abbrev AcceptedSet (F G : Type) := PartyMap (NodePayload F G)

end OhmEcdsa
