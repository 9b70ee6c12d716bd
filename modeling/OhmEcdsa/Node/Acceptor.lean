import OhmEcdsa.Node.Audit
import OhmEcdsa.Support.Run

/-!
# The echo-broadcast acceptor and the mesh around it (`party.rs`, `mesh.rs`)

A node echoes the first value it receives in a broadcast slot; an acceptor hands a
value out once `t - 1` parties other than the sender echoed it and no second value
of the slot was seen.  The step function runs the honest nodes over any authentic
deliveries, in any order.

A value is handed out the moment its quorum is met, while an honest echo of
another value may still be under way, so two nodes can accept different values
(`acceptors_split`).  They agree in every run whose queries come after the
conflicting honest echoes already sent:

    Run (step net) net.Heard World.init acts w → Consistent net w     (consistent_of_heard)
-/

set_option linter.unusedSectionVars false

namespace OhmEcdsa

open Transition

variable {M : Type}

/-! ## Algorithm: the acceptor -/

def maxSid : Nat := 128
def maxTrackedSids : Nat := 4096
def maxCandidatesPerSlot : Nat := 8

/-- `(sid, phase, round, from)`; a P2P slot has the addressee last. -/
structure SlotKey where
  sid : Bytes
  phase : Phase
  round : Nat
  party : PartyId
  deriving DecidableEq

/-- A wire message whose signatures were verified. -/
inductive Received (M : Type)
  | original (env : SignedEnvelope M)
  | echo (echoer : PartyId) (original : SignedEnvelope M)
  deriving DecidableEq

/-- The envelope a message carries. -/
def Received.env : Received M → SignedEnvelope M
  | .original env => env
  | .echo _ env => env

/-- One distinct signed broadcast and the parties that echoed it. -/
structure Candidate (M : Type) where
  env : SignedEnvelope M
  echoers : Finset PartyId

/-- Maps with `entry(key).or_default()` are total functions; the candidates of a
slot are keyed by their encoding. -/
structure Acceptor (M : Type) where
  echoQuorum : Nat
  bcast : SlotKey → Std.ExtTreeMap Bytes (Candidate M)
  p2p : SlotKey → PartyMap (SignedEnvelope M)
  equivocations : Bytes × PartyId → Option (SignedEnvelope M × SignedEnvelope M)
  sids : Finset Bytes
  dropped : Nat

namespace Acceptor

def new (t : Usize) : Acceptor M := ⟨t.val - 1, fun _ => ∅, fun _ => ∅, fun _ => none, ∅, 0⟩

/-- The sender is ⊥ in the session. -/
def poisoned (a : Acceptor M) (sid : Bytes) (party : PartyId) : Bool := (a.equivocations (sid, party)).isSome

def admitSid (a : Acceptor M) (sid : Bytes) : Bool × Acceptor M :=
  if sid ∈ a.sids then (true, a)
  else if sid.length > maxSid ∨ a.sids.card ≥ maxTrackedSids then (false, { a with dropped := a.dropped + 1 })
  else (true, { a with sids := insert sid a.sids })

def insertCandidate (a : Acceptor M) (key : SlotKey) (payload : Bytes) (env : SignedEnvelope M) : Acceptor M :=
  let payloads := a.bcast key
  if payloads.size ≥ maxCandidatesPerSlot ∧ payload ∉ payloads then { a with dropped := a.dropped + 1 }
  else
    let payloads := payloads.insertIfNew payload ⟨env, ∅⟩
    let a := { a with bcast := Function.update a.bcast key payloads }
    match payloads.toList with
    | [first, second] =>
      if a.poisoned key.sid key.party then a
      else { a with equivocations :=
        Function.update a.equivocations (key.sid, key.party) (some (first.2.env, second.2.env)) }
    | _ => a

def slotOf (env : Envelope M) : SlotKey := ⟨env.sid, env.phase, env.round, env.sender⟩

def slotAndPayload (payloadBytes : M → Bytes) (env : SignedEnvelope M) : SlotKey × Bytes :=
  (slotOf env.envelope, env.encode payloadBytes)

def addEchoer (a : Acceptor M) (key : SlotKey) (payload : Bytes) (echoer : PartyId) : Acceptor M :=
  { a with bcast := Function.update a.bcast key ((a.bcast key).modify payload fun c =>
    { c with echoers := insert echoer c.echoers }) }

def process (payloadBytes : M → Bytes) (a : Acceptor M) : Received M → Acceptor M
  | .original env =>
    match a.admitSid env.envelope.sid with
    | (false, a) => a
    | (true, a) =>
      match env.envelope.addressee with
      | none =>
        let (key, payload) := slotAndPayload payloadBytes env
        if a.poisoned key.sid key.party then a else a.insertCandidate key payload env
      | some j =>
        let key : SlotKey := ⟨env.envelope.sid, env.envelope.phase, env.envelope.round, j⟩
        { a with p2p := Function.update a.p2p key ((a.p2p key).insertIfNew env.envelope.sender env) }
  | .echo echoer original =>
    match a.admitSid original.envelope.sid with
    | (false, a) => a
    | (true, a) =>
      let (key, payload) := slotAndPayload payloadBytes original
      if a.poisoned key.sid key.party then a
      else
        let a := a.insertCandidate key payload original
        -- the sender's own copy adds nothing to the quorum
        if echoer = key.party then a else a.addEchoer key payload echoer

/-- The value a slot's query hands out. -/
def accepted (a : Acceptor M) (key : SlotKey) : Option (SignedEnvelope M) :=
  if a.poisoned key.sid key.party then none
  else ((a.bcast key).toList.find? fun e => a.echoQuorum ≤ e.2.echoers.card).map (·.2.env)

/-- The accepted set of one round. -/
def bcastSet (a : Acceptor M) (sid : Bytes) (phase : Phase) (round : Nat) (ids : List PartyId) :
    PartyMap (SignedEnvelope M) :=
  ids.foldl (fun out id =>
    match a.accepted ⟨sid, phase, round, id⟩ with
    | some env => out.insert id env
    | none => out) ∅

end Acceptor

open Acceptor

/-! ## Algorithm: the mesh -/

def inboxBound : Nat := 65536

/-- A node: the slots it echoed, its mailbox, the acceptor its collector feeds, and
for the specification what the acceptor processed. -/
structure MeshNode (M : Type) where
  echoed : Finset SlotKey
  mailbox : List (Received M)
  acceptor : Acceptor M
  processed : List (Received M)

namespace MeshNode

def new (t : Usize) : MeshNode M := ⟨∅, [], Acceptor.new t, []⟩

/-- `try_send`: a full mailbox drops the message. -/
def deliver (node : MeshNode M) (msg : Received M) : MeshNode M :=
  if node.mailbox.length < inboxBound then { node with mailbox := node.mailbox ++ [msg] } else node

/-- The receive path after verification, and what the node echoes to all. -/
def handle (node : MeshNode M) (me : PartyId) : Received M → MeshNode M × Option (SignedEnvelope M)
  | .original env =>
    match env.envelope.addressee with
    | some j => if j ≠ me then (node, none) else (node.deliver (.original env), none)
    | none =>
      let slot := slotOf env.envelope
      if slot ∈ node.echoed then (node.deliver (.original env), none)
      else
        let node := { node with echoed := insert slot node.echoed }
        ((node.deliver (.echo me env)).deliver (.original env), some env)
  | .echo echoer original => (node.deliver (.echo echoer original), none)

def process (payloadBytes : M → Bytes) (node : MeshNode M) (msg : Received M) : MeshNode M :=
  { node with acceptor := node.acceptor.process payloadBytes msg, processed := node.processed ++ [msg] }

/-- The collector takes the mailbox's first message. -/
def collect (payloadBytes : M → Bytes) (node : MeshNode M) : Option (MeshNode M) :=
  match node.mailbox with
  | [] => none
  | msg :: rest => some ({ node with mailbox := rest }.process payloadBytes msg)

end MeshNode

/-! ## The network -/

/-- The registry, the corrupt parties, and the payloads' encoding. -/
structure Net (M : Type) where
  committee : Committee
  corrupt : Finset PartyId
  payloadBytes : M → Bytes

/-- An answer of `accepted_broadcasts_over`, complete or at the round timeout. -/
structure Answer (M : Type) where
  node : PartyId
  sid : Bytes
  phase : Phase
  round : Nat
  set : PartyMap (SignedEnvelope M)

/-- The nodes, and what the honest parties signed, echoed and were handed so far. -/
structure World (M : Type) where
  node : PartyId → MeshNode M
  sent : List (Envelope M)
  echoes : List (PartyId × SignedEnvelope M)
  answers : List (Answer M)

def World.init (t : Usize) : World M := ⟨fun _ => MeshNode.new t, [], [], []⟩

inductive Action (M : Type)
  /-- A node's driver signs an envelope and hands it to the mesh. -/
  | send (env : SignedEnvelope M)
  | receive (h : PartyId) (msg : Received M)
  | collect (h : PartyId)
  | answer (h : PartyId) (sid : Bytes) (phase : Phase) (round : Nat) (ids : List PartyId)

section Step

variable [DecidableEq M]

namespace Net

variable (net : Net M)

def Honest (h : PartyId) : Prop := h ∈ net.committee.ids ∧ h ∉ net.corrupt

instance (h : PartyId) : Decidable (net.Honest h) := inferInstanceAs (Decidable (_ ∧ _))

/-- A valid signature: the sender's own act, or a corrupt party's. -/
def Signed (w : World M) (env : SignedEnvelope M) : Prop :=
  env.signature.length = 64 ∧ env.envelope.sender ∈ net.committee.ids ∧
    (env.envelope.sender ∉ net.corrupt → env.envelope ∈ w.sent)

/-- A message whose signatures verify. -/
def Genuine (w : World M) : Received M → Prop
  | .original env => net.Signed w env
  | .echo echoer env => net.Signed w env ∧ env.envelope.addressee = none ∧ echoer ∈ net.committee.ids ∧
      (echoer ∉ net.corrupt → (echoer, env) ∈ w.echoes)

/-- `WireMessage::verify`; an echo of the echoer's own message is refused. -/
def Verifies (w : World M) (msg : Received M) : Prop :=
  net.Genuine w msg ∧ ∀ echoer env, msg = .echo echoer env → echoer ≠ env.envelope.sender

/-- An honest driver gives one value in each broadcast slot. -/
def Sendable (w : World M) (env : SignedEnvelope M) : Prop :=
  net.Honest env.envelope.sender ∧ env.signature.length = 64 ∧
    ∀ e ∈ w.sent, e.addressee = none → env.envelope.addressee = none → slotOf e = slotOf env.envelope →
      e = env.envelope

instance (w : World M) (env : SignedEnvelope M) : Decidable (net.Signed w env) :=
  inferInstanceAs (Decidable (_ ∧ _ ∧ _))

instance (w : World M) : ∀ msg, Decidable (net.Genuine w msg)
  | .original env => inferInstanceAs (Decidable (net.Signed w env))
  | .echo _ env => inferInstanceAs (Decidable (net.Signed w env ∧ _ ∧ _ ∧ _))

instance (w : World M) : ∀ msg, Decidable (net.Verifies w msg)
  | .original env => decidable_of_iff (net.Genuine w (.original env)) ⟨fun h => ⟨h, nofun⟩, And.left⟩
  | .echo echoer env => decidable_of_iff (net.Genuine w (.echo echoer env) ∧ echoer ≠ env.envelope.sender)
      ⟨fun h => ⟨h.1, by rintro _ _ ⟨⟩; exact h.2⟩, fun h => ⟨h.1, h.2 _ _ rfl⟩⟩

instance (w : World M) (env : SignedEnvelope M) : Decidable (net.Sendable w env) :=
  inferInstanceAs (Decidable (_ ∧ _ ∧ _))

end Net

namespace World

def setNode (w : World M) (h : PartyId) (node : MeshNode M) : World M :=
  { w with node := Function.update w.node h node }

end World

/-- One event at one honest node; the corrupt parties only sign and echo. -/
def step (net : Net M) (w : World M) : Action M → Option (World M)
  | .send env =>
    if net.Sendable w env then
      let me := env.envelope.sender
      let w := { w with sent := w.sent ++ [env.envelope] }
      -- a node's own P2P copy goes straight into its acceptor
      if env.envelope.addressee = some me then
        some (w.setNode me ((w.node me).process net.payloadBytes (.original env)))
      else some w
    else none
  | .receive h msg =>
    if net.Honest h ∧ net.Verifies w msg then
      match (w.node h).handle h msg with
      | (node, some env) => some { w.setNode h node with echoes := w.echoes ++ [(h, env)] }
      | (node, none) => some (w.setNode h node)
    else none
  | .collect h =>
    if net.Honest h then ((w.node h).collect net.payloadBytes).map fun node => w.setNode h node
    else none
  | .answer h sid phase round ids =>
    if net.Honest h then
      some { w with answers := w.answers ++ [⟨h, sid, phase, round, (w.node h).acceptor.bcastSet sid phase round ids⟩] }
    else none

/-! ## Specification -/

/-- Answers for one slot and sender carry the same payload. -/
def Consistent (net : Net M) (w : World M) : Prop :=
  ∀ r ∈ w.answers, ∀ r' ∈ w.answers, r.sid = r'.sid → r.phase = r'.phase → r.round = r'.round →
    ∀ (id : PartyId) (env env' : SignedEnvelope M), r.set[id]? = some env → r'.set[id]? = some env' →
      net.payloadBytes env.envelope.payload = net.payloadBytes env'.envelope.payload

/-- For a value that has its quorum at the node, the acceptor has processed every
honest echo of another value of the slot sent so far. -/
def World.HeardConflicts (net : Net M) (w : World M) (node : MeshNode M) (key : SlotKey) : Prop :=
  ∀ e ∈ (node.acceptor.bcast key).toList, node.acceptor.echoQuorum ≤ e.2.echoers.card →
    ∀ m ∈ w.echoes, slotOf m.2.envelope = key → m.1 ≠ key.party → m.2.encode net.payloadBytes ≠ e.1 →
      Received.echo m.1 m.2 ∈ node.processed

/-- A query comes after the conflicting honest echoes. -/
def Net.Heard (net : Net M) (w : World M) : Action M → Prop
  | .answer h sid phase round ids => ∀ id ∈ ids, w.HeardConflicts net (w.node h) ⟨sid, phase, round, id⟩
  | _ => True

instance (net : Net M) (w : World M) (node : MeshNode M) (key : SlotKey) :
    Decidable (w.HeardConflicts net node key) :=
  inferInstanceAs (Decidable (∀ e ∈ _, _))

instance (net : Net M) (w : World M) : ∀ a, Decidable (net.Heard w a)
  | .answer h sid phase round ids =>
    List.decidableBAll (fun id => w.HeardConflicts net (w.node h) ⟨sid, phase, round, id⟩) ids
  | .send _ | .receive _ _ | .collect _ => inferInstanceAs (Decidable True)

end Step

/-! ## Lemmas: one message at the acceptor -/

namespace Acceptor

/-- The session id is turned away for good. -/
def Refuses (a : Acceptor M) (sid : Bytes) : Prop :=
  sid ∉ a.sids ∧ (maxSid < sid.length ∨ maxTrackedSids ≤ a.sids.card)

/-- What stays from message to message: sessions admitted and refused, senders
poisoned, candidates held. -/
structure Grows (a a' : Acceptor M) : Prop where
  echoQuorum : a'.echoQuorum = a.echoQuorum
  sids : a.sids ⊆ a'.sids
  refuses : ∀ sid, a.Refuses sid → a'.Refuses sid
  poisoned : ∀ sid party, a.poisoned sid party = true → a'.poisoned sid party = true
  candidates : ∀ key payload, payload ∈ a.bcast key → payload ∈ a'.bcast key

theorem Grows.refl (a : Acceptor M) : a.Grows a :=
  ⟨rfl, subset_rfl, fun _ h => h, fun _ _ h => h, fun _ _ h => h⟩

theorem Grows.trans {a b c : Acceptor M} (h : a.Grows b) (h' : b.Grows c) : a.Grows c :=
  ⟨h'.echoQuorum.trans h.echoQuorum, h.sids.trans h'.sids, fun _ hs => h'.refuses _ (h.refuses _ hs),
    fun _ _ hs => h'.poisoned _ _ (h.poisoned _ _ hs), fun _ _ hs => h'.candidates _ _ (h.candidates _ _ hs)⟩

/-- The sid is admitted, or refused for good; slots and evidence are left alone. -/
theorem admitSid_cases (a : Acceptor M) (sid : Bytes) :
    ∃ admitted a', a.admitSid sid = (admitted, a') ∧ a'.bcast = a.bcast ∧ a'.equivocations = a.equivocations ∧
      a.Grows a' ∧ (if admitted then sid ∈ a'.sids else a'.Refuses sid) := by
  unfold admitSid
  by_cases hmem : sid ∈ a.sids
  · exact ⟨true, a, by rw [if_pos hmem], rfl, rfl, Grows.refl a, hmem⟩
  · rw [if_neg hmem]
    by_cases hcap : sid.length > maxSid ∨ a.sids.card ≥ maxTrackedSids
    · exact ⟨false, _, if_pos hcap, rfl, rfl,
        ⟨rfl, subset_rfl, fun _ h => h, fun _ _ h => h, fun _ _ h => h⟩, hmem, hcap⟩
    · have hsub : a.sids ⊆ insert sid a.sids := Finset.subset_insert _ _
      refine ⟨true, _, if_neg hcap, rfl, rfl, ⟨rfl, hsub, ?_, fun _ _ h => h, fun _ _ h => h⟩,
        Finset.mem_insert_self _ _⟩
      rintro s ⟨hs, hfull⟩
      refine ⟨fun hins => ?_, hfull.imp_right fun h => h.trans (Finset.card_le_card hsub)⟩
      rcases Finset.mem_insert.mp hins with rfl | h
      · exact hcap hfull
      · exact hs h

/-- In an unpoisoned slot the cap on candidates is never met, and a second candidate,
and nothing else, poisons its sender. -/
theorem insertCandidate_cases {a : Acceptor M} {key : SlotKey} (h : (a.bcast key).size ≤ 1) (payload : Bytes)
    (env : SignedEnvelope M) :
    ∃ equivocations, a.insertCandidate key payload env = { a with
        bcast := Function.update a.bcast key ((a.bcast key).insertIfNew payload ⟨env, ∅⟩)
        equivocations := equivocations } ∧
      (∀ p, (a.equivocations p).isSome = true → (equivocations p).isSome = true) ∧
      ((equivocations (key.sid, key.party)).isSome = false →
        ((a.bcast key).insertIfNew payload ⟨env, ∅⟩).size ≤ 1) ∧
      ∀ p, (equivocations p).isSome = true → (a.equivocations p).isSome = true ∨
        p = (key.sid, key.party) ∧ ((a.bcast key).insertIfNew payload ⟨env, ∅⟩).size = 2 := by
  have hcap : ¬ ((a.bcast key).size ≥ maxCandidatesPerSlot ∧ payload ∉ a.bcast key) := by
    rintro ⟨h8, -⟩
    have : maxCandidatesPerSlot = 8 := rfl
    omega
  have hsize : ((a.bcast key).insertIfNew payload ⟨env, ∅⟩).size ≤ 2 := by
    rw [Std.ExtTreeMap.size_insertIfNew]
    split <;> omega
  unfold insertCandidate
  simp only [if_neg hcap]
  split
  · rename_i first second hpair
    have htwo : ((a.bcast key).insertIfNew payload ⟨env, ∅⟩).size = 2 := by
      rw [← Std.ExtTreeMap.length_toList, hpair]
      rfl
    by_cases hp : a.poisoned key.sid key.party = true
    · refine ⟨a.equivocations, if_pos hp, fun p hp => hp, fun hfree => ?_, fun p hp => Or.inl hp⟩
      rw [show (a.equivocations (key.sid, key.party)).isSome = true from hp] at hfree
      cases hfree
    · refine ⟨_, if_neg hp, fun p hsome => ?_, fun hfree => ?_, fun p hsome => ?_⟩
      · by_cases hkey : p = (key.sid, key.party)
        · rw [hkey, Function.update_self]
          rfl
        · rw [Function.update_of_ne hkey]
          exact hsome
      · rw [Function.update_self] at hfree
        cases hfree
      · by_cases hkey : p = (key.sid, key.party)
        · exact Or.inr ⟨hkey, htwo⟩
        · rw [Function.update_of_ne hkey] at hsome
          exact Or.inl hsome
  · rename_i hnot
    refine ⟨a.equivocations, rfl, fun p hp => hp, fun _ => ?_, fun p hp => Or.inl hp⟩
    by_contra hlt
    have htwo : ((a.bcast key).insertIfNew payload ⟨env, ∅⟩).toList.length = 2 := by
      rw [Std.ExtTreeMap.length_toList]
      omega
    obtain ⟨first, second, hpair⟩ := List.length_eq_two.mp htwo
    exact hnot first second hpair

section Process

variable {payloadBytes : M → Bytes} {processed : List (Received M)} {a : Acceptor M}

/-- Each candidate is under its encoding in the slot of its envelope, with the
processed echoes of that value. -/
structure Holds (payloadBytes : M → Bytes) (processed : List (Received M)) (key : SlotKey) (payload : Bytes)
    (c : Candidate M) : Prop where
  encode : c.env.encode payloadBytes = payload
  slot : slotOf c.env.envelope = key
  addressee : c.env.envelope.addressee = none
  source : ∃ m ∈ processed, m.env = c.env
  echoers : ∀ x ∈ c.echoers, x ≠ key.party ∧
    ∃ e, Received.echo x e ∈ processed ∧ e.encode payloadBytes = payload ∧ slotOf e.envelope = key

theorem Holds.mono {processed' : List (Received M)} (hsub : processed ⊆ processed') {key : SlotKey}
    {payload : Bytes} {c : Candidate M} (h : Holds payloadBytes processed key payload c) :
    Holds payloadBytes processed' key payload c := by
  obtain ⟨m, hm, henv⟩ := h.source
  refine ⟨h.encode, h.slot, h.addressee, ⟨m, hsub hm, henv⟩, fun x hx => ?_⟩
  obtain ⟨hne, e, he, henc⟩ := h.echoers x hx
  exact ⟨hne, e, hsub he, henc⟩

/-- The candidates, as the processed messages gave them. -/
structure Tidy (payloadBytes : M → Bytes) (processed : List (Received M)) (a : Acceptor M) : Prop where
  holds : ∀ key payload c, (a.bcast key)[payload]? = some c →
    key.sid ∈ a.sids ∧ Holds payloadBytes processed key payload c
  single : ∀ key, a.poisoned key.sid key.party = false → (a.bcast key).size ≤ 1

/-- What became of a processed echo. -/
def Seen (payloadBytes : M → Bytes) (a : Acceptor M) (env : SignedEnvelope M) : Prop :=
  a.Refuses env.envelope.sid ∨ a.poisoned env.envelope.sid env.envelope.sender = true ∨
    env.encode payloadBytes ∈ a.bcast (slotOf env.envelope)

/-- The acceptor as the messages processed so far left it. -/
structure Faithful (payloadBytes : M → Bytes) (processed : List (Received M)) (a : Acceptor M) : Prop
    extends Tidy payloadBytes processed a where
  seen : ∀ x e, Received.echo x e ∈ processed → Seen payloadBytes a e

theorem faithful_new (t : Usize) : Faithful payloadBytes [] (Acceptor.new t : Acceptor M) where
  holds := by
    intro key payload c h
    simp [Acceptor.new] at h
  single := by
    intro key _
    simp [Acceptor.new]
  seen := by
    intro x e h
    cases h

theorem Seen.grow {a' : Acceptor M} {env : SignedEnvelope M} (h : Seen payloadBytes a env) (hgrow : a.Grows a') :
    Seen payloadBytes a' env :=
  h.imp (hgrow.refuses _) (Or.imp (hgrow.poisoned _ _) (hgrow.candidates _ _))

theorem Tidy.mono {processed' : List (Received M)} (hsub : processed ⊆ processed')
    (h : Tidy payloadBytes processed a) : Tidy payloadBytes processed' a :=
  ⟨fun key payload c hc => (h.holds key payload c hc).imp_right (Holds.mono hsub), h.single⟩

/-- Sessions admitted on the way change no slot. -/
theorem Tidy.grow {a' : Acceptor M} (h : Tidy payloadBytes processed a) (hgrow : a.Grows a')
    (hbcast : a'.bcast = a.bcast) (heq : a'.equivocations = a.equivocations) : Tidy payloadBytes processed a' where
  holds := by
    intro key payload c hc
    rw [hbcast] at hc
    obtain ⟨hsid, hholds⟩ := h.holds key payload c hc
    exact ⟨hgrow.sids hsid, hholds⟩
  single := by
    intro key hfree
    rw [hbcast]
    refine h.single key ?_
    unfold poisoned at hfree ⊢
    rw [← heq]
    exact hfree

/-- A new candidate goes into the slot of its envelope. -/
theorem Tidy.insertCandidate (h : Tidy payloadBytes processed a) {msg : Received M} (hmsg : msg ∈ processed)
    (hto : msg.env.envelope.addressee = none) (hsid : msg.env.envelope.sid ∈ a.sids)
    (hfree : a.poisoned msg.env.envelope.sid msg.env.envelope.sender = false) :
    Tidy payloadBytes processed
        (a.insertCandidate (slotOf msg.env.envelope) (msg.env.encode payloadBytes) msg.env) ∧
      a.Grows (a.insertCandidate (slotOf msg.env.envelope) (msg.env.encode payloadBytes) msg.env) ∧
      msg.env.encode payloadBytes ∈ (a.insertCandidate (slotOf msg.env.envelope) (msg.env.encode payloadBytes)
        msg.env).bcast (slotOf msg.env.envelope) := by
  obtain ⟨equivocations, heq, hmono, hsize, -⟩ := insertCandidate_cases (h.single (slotOf msg.env.envelope) hfree)
    (msg.env.encode payloadBytes) msg.env
  rw [heq]
  refine ⟨⟨fun key payload c hc => ?_, fun key hkey => ?_⟩, ⟨rfl, subset_rfl, fun _ hs => hs,
    fun sid party hp => hmono _ hp, fun key payload hp => ?_⟩, ?_⟩
  · by_cases hslot : key = slotOf msg.env.envelope
    · subst hslot
      simp only [Function.update_self, Std.ExtTreeMap.getElem?_insertIfNew] at hc
      split at hc
      · rename_i hnew
        cases hc
        refine ⟨hsid, ⟨Std.LawfulEqCmp.eq_of_compare hnew.1, rfl, hto, ⟨msg, hmsg, rfl⟩, fun x hx => ?_⟩⟩
        cases hx
      · exact h.holds _ payload c hc
    · simp only [Function.update_of_ne hslot] at hc
      exact h.holds key payload c hc
  · by_cases hslot : key = slotOf msg.env.envelope
    · subst hslot
      simp only [Function.update_self]
      exact hsize hkey
    · simp only [Function.update_of_ne hslot]
      refine h.single key ?_
      by_contra hp
      rw [Bool.not_eq_false] at hp
      have : (equivocations (key.sid, key.party)).isSome = true := hmono _ hp
      rw [show (equivocations (key.sid, key.party)).isSome = false from hkey] at this
      cases this
  · by_cases hslot : key = slotOf msg.env.envelope
    · subst hslot
      simp only [Function.update_self, Std.ExtTreeMap.mem_insertIfNew]
      exact Or.inr hp
    · simp only [Function.update_of_ne hslot]
      exact hp
  · simp only [Function.update_self, Std.ExtTreeMap.mem_insertIfNew]
    exact Or.inl (by simp)

/-- An echo counts for the candidate of its value. -/
theorem Tidy.addEchoer (h : Tidy payloadBytes processed a) {x : PartyId} {env : SignedEnvelope M}
    (hmsg : Received.echo x env ∈ processed) (hne : x ≠ env.envelope.sender) :
    Tidy payloadBytes processed (a.addEchoer (slotOf env.envelope) (env.encode payloadBytes) x) ∧
      a.Grows (a.addEchoer (slotOf env.envelope) (env.encode payloadBytes) x) := by
  refine ⟨⟨fun key payload c hc => ?_, fun key hkey => ?_⟩, ⟨rfl, subset_rfl, fun _ hs => hs, fun _ _ hp => hp,
    fun key payload hp => ?_⟩⟩
  · by_cases hslot : key = slotOf env.envelope
    · subst hslot
      simp only [Acceptor.addEchoer, Function.update_self, Std.ExtTreeMap.getElem?_modify] at hc
      split at hc
      · rename_i hcmp
        obtain rfl : env.encode payloadBytes = payload := Std.LawfulEqCmp.eq_of_compare hcmp
        obtain ⟨c0, hc0, rfl⟩ := Option.map_eq_some_iff.mp hc
        obtain ⟨hsid, hholds⟩ := h.holds _ _ c0 hc0
        refine ⟨hsid, ⟨hholds.encode, hholds.slot, hholds.addressee, hholds.source, fun y hy => ?_⟩⟩
        rcases Finset.mem_insert.mp hy with rfl | hy
        · exact ⟨hne, env, hmsg, rfl, rfl⟩
        · exact hholds.echoers y hy
      · exact h.holds _ payload c hc
    · simp only [Acceptor.addEchoer, Function.update_of_ne hslot] at hc
      exact h.holds key payload c hc
  · have hsize := h.single key hkey
    by_cases hslot : key = slotOf env.envelope
    · subst hslot
      simp only [Acceptor.addEchoer, Function.update_self, Std.ExtTreeMap.size_modify]
      exact hsize
    · simp only [Acceptor.addEchoer, Function.update_of_ne hslot]
      exact hsize
  · by_cases hslot : key = slotOf env.envelope
    · subst hslot
      simp only [Acceptor.addEchoer, Function.update_self, Std.ExtTreeMap.mem_modify]
      exact hp
    · simp only [Acceptor.addEchoer, Function.update_of_ne hslot]
      exact hp

/-- **One message**: the acceptor stays as its messages left it. -/
theorem Faithful.process (h : Faithful payloadBytes processed a) (msg : Received M)
    (hecho : ∀ x e, msg = .echo x e → e.envelope.addressee = none) :
    Faithful payloadBytes (processed ++ [msg]) (a.process payloadBytes msg) ∧
      a.Grows (a.process payloadBytes msg) := by
  have hmem : msg ∈ processed ++ [msg] := List.mem_append_right _ (List.mem_singleton.mpr rfl)
  -- what is left to show of the state after: its slots, that it grew, and the new echo
  suffices hkey : Tidy payloadBytes (processed ++ [msg]) (a.process payloadBytes msg) ∧
      a.Grows (a.process payloadBytes msg) ∧
      ∀ x e, msg = .echo x e → Seen payloadBytes (a.process payloadBytes msg) e by
    obtain ⟨htidy, hgrow, hnew⟩ := hkey
    refine ⟨⟨htidy, fun x e he => ?_⟩, hgrow⟩
    rcases List.mem_append.mp he with he | he
    · exact (h.seen x e he).grow hgrow
    · exact hnew x e (List.mem_singleton.mp he).symm
  obtain ⟨admitted, a1, hopen, hbcast, heq, hgrow, hsid⟩ := a.admitSid_cases msg.env.envelope.sid
  have htidy : Tidy payloadBytes (processed ++ [msg]) a1 :=
    (h.toTidy.mono (List.subset_append_left _ _)).grow hgrow hbcast heq
  cases msg with
  | original env =>
    have hno : ∀ x e, Received.original env = .echo x e →
        Seen payloadBytes (a.process payloadBytes (.original env)) e := nofun
    refine and_assoc.mp ⟨?_, hno⟩
    have hopen : a.admitSid env.envelope.sid = (admitted, a1) := hopen
    cases admitted with
    | false =>
      have hrun : a.process payloadBytes (.original env) = a1 := by simp only [Acceptor.process, hopen]
      rw [hrun]
      exact ⟨htidy, hgrow⟩
    | true =>
      cases hto : env.envelope.addressee with
      | none =>
        cases hp : a1.poisoned env.envelope.sid env.envelope.sender with
        | true =>
          have hrun : a.process payloadBytes (.original env) = a1 := by
            simp [Acceptor.process, hopen, hto, slotAndPayload, slotOf, hp]
          rw [hrun]
          exact ⟨htidy, hgrow⟩
        | false =>
          have hrun : a.process payloadBytes (.original env) =
              a1.insertCandidate (slotOf env.envelope) (env.encode payloadBytes) env := by
            simp [Acceptor.process, hopen, hto, slotAndPayload, slotOf, hp]
          rw [hrun]
          obtain ⟨htidy', hgrow', -⟩ := htidy.insertCandidate hmem hto hsid hp
          exact ⟨htidy', hgrow.trans hgrow'⟩
      | some j =>
        have hgrow' : a1.Grows (a.process payloadBytes (.original env)) := by
          simp only [Acceptor.process, hopen, hto]
          exact ⟨rfl, subset_rfl, fun _ h => h, fun _ _ h => h, fun _ _ h => h⟩
        refine ⟨htidy.grow hgrow' ?_ ?_, hgrow.trans hgrow'⟩
        · simp only [Acceptor.process, hopen, hto]
        · simp only [Acceptor.process, hopen, hto]
  | echo x env =>
    have hopen : a.admitSid env.envelope.sid = (admitted, a1) := hopen
    have hto := hecho x env rfl
    suffices hseen : Tidy payloadBytes (processed ++ [.echo x env]) (a.process payloadBytes (.echo x env)) ∧
        a.Grows (a.process payloadBytes (.echo x env)) ∧ Seen payloadBytes (a.process payloadBytes (.echo x env)) env by
      refine ⟨hseen.1, hseen.2.1, ?_⟩
      rintro _ _ ⟨⟩
      exact hseen.2.2
    cases admitted with
    | false =>
      have hrun : a.process payloadBytes (.echo x env) = a1 := by simp only [Acceptor.process, hopen]
      rw [hrun]
      exact ⟨htidy, hgrow, Or.inl hsid⟩
    | true =>
      cases hp : a1.poisoned env.envelope.sid env.envelope.sender with
      | true =>
        have hrun : a.process payloadBytes (.echo x env) = a1 := by
          simp [Acceptor.process, hopen, slotAndPayload, slotOf, hp]
        rw [hrun]
        exact ⟨htidy, hgrow, Or.inr (Or.inl hp)⟩
      | false =>
        obtain ⟨htidy', hgrow', hin⟩ := htidy.insertCandidate hmem hto hsid hp
        by_cases hself : x = env.envelope.sender
        · have hrun : a.process payloadBytes (.echo x env) =
              a1.insertCandidate (slotOf env.envelope) (env.encode payloadBytes) env := by
            simp [Acceptor.process, hopen, slotAndPayload, slotOf, hp, hself]
          rw [hrun]
          exact ⟨htidy', hgrow.trans hgrow', Or.inr (Or.inr hin)⟩
        · have hrun : a.process payloadBytes (.echo x env) =
              (a1.insertCandidate (slotOf env.envelope) (env.encode payloadBytes) env).addEchoer
                (slotOf env.envelope) (env.encode payloadBytes) x := by
            simp [Acceptor.process, hopen, slotAndPayload, slotOf, hp, hself]
          rw [hrun]
          obtain ⟨htidy'', hgrow''⟩ := htidy'.addEchoer hmem hself
          exact ⟨htidy'', (hgrow.trans hgrow').trans hgrow'', Or.inr (Or.inr (hgrow''.candidates _ _ hin))⟩

end Process

/-- A value handed out is the slot's candidate, with a quorum. -/
theorem accepted_some {a : Acceptor M} {key : SlotKey} {env : SignedEnvelope M} (h : a.accepted key = some env) :
    a.poisoned key.sid key.party = false ∧ ∃ e ∈ (a.bcast key).toList, a.echoQuorum ≤ e.2.echoers.card ∧
      e.2.env = env := by
  unfold accepted at h
  split at h
  · cases h
  · rename_i hp
    obtain ⟨e, he, henv⟩ := Option.map_eq_some_iff.mp h
    exact ⟨Bool.eq_false_of_not_eq_true hp, e, List.mem_of_find?_eq_some he,
      by simpa using List.find?_some he, henv⟩

theorem bcastSet_getElem? (a : Acceptor M) (sid : Bytes) (phase : Phase) (round : Nat) (ids : List PartyId)
    (id : PartyId) : (a.bcastSet sid phase round ids)[id]? =
      if id ∈ ids then a.accepted ⟨sid, phase, round, id⟩ else none := by
  -- over the ids left, on top of what is in `out`
  suffices hout : ∀ (ids : List PartyId) (out : PartyMap (SignedEnvelope M)),
      (ids.foldl (fun out id =>
        match a.accepted ⟨sid, phase, round, id⟩ with
        | some env => out.insert id env
        | none => out) out)[id]? =
      if id ∈ ids then (a.accepted ⟨sid, phase, round, id⟩).or out[id]? else out[id]? by
    unfold bcastSet
    rw [hout]
    simp
  intro ids
  induction ids with
  | nil =>
    intro out
    simp
  | cons j ids ih =>
    intro out
    rw [List.foldl_cons, ih]
    by_cases hj : id = j
    · subst hj
      cases a.accepted ⟨sid, phase, round, id⟩ <;> simp
    · have hget : (match a.accepted ⟨sid, phase, round, j⟩ with
          | some env => out.insert j env
          | none => out)[id]? = out[id]? := by
        cases a.accepted ⟨sid, phase, round, j⟩ with
        | none => rfl
        | some env =>
          rw [Std.ExtTreeMap.getElem?_insert, if_neg (compare_ne_eq (Ne.symm hj))]
      rw [hget]
      simp [hj]

end Acceptor

theorem toList_eq_singleton {α : Type} {m : Std.ExtTreeMap Bytes α} (h : m.size ≤ 1) {e : Bytes × α}
    (he : e ∈ m.toList) : m.toList = [e] := by
  rw [← Std.ExtTreeMap.length_toList] at h
  rcases hl : m.toList with _ | ⟨a, _ | ⟨b, l⟩⟩
  · rw [hl] at he
    cases he
  · rw [hl, List.mem_singleton] at he
    rw [he]
  · rw [hl] at h
    simp at h

/-- Two candidates of an unpoisoned slot are one. -/
theorem mem_unique {α : Type} {m : Std.ExtTreeMap Bytes α} (h : m.size ≤ 1) {x y : Bytes} (hx : x ∈ m) (hy : y ∈ m) :
    x = y := by
  rw [← Std.ExtTreeMap.mem_keys, ← Std.ExtTreeMap.map_fst_toList_eq_keys] at hx hy
  obtain ⟨e, he, rfl⟩ := List.mem_map.mp hx
  obtain ⟨e', he', rfl⟩ := List.mem_map.mp hy
  rw [toList_eq_singleton h he, List.mem_singleton] at he'
  rw [he']

/-- In one slot, the encoding has the payload's bytes. -/
theorem payload_of_encode {payloadBytes : M → Bytes} {env env' : SignedEnvelope M}
    (h : env.encode payloadBytes = env'.encode payloadBytes) (hslot : slotOf env.envelope = slotOf env'.envelope)
    (hto : env.envelope.addressee = env'.envelope.addressee)
    (hsig : env.signature.length = env'.signature.length) :
    payloadBytes env.envelope.payload = payloadBytes env'.envelope.payload := by
  obtain ⟨hsid, hphase, hround, hsender⟩ := SlotKey.mk.inj hslot
  unfold SignedEnvelope.encode Envelope.encode putBytes at h
  rw [hsid, hphase, hround, hsender, hto] at h
  have hbytes := (List.append_inj' h hsig).1
  have hpayload := List.append_cancel_left hbytes
  exact (List.append_inj hpayload (by simp [u64Bytes])).2

/-! ## Lemmas: one event of the network -/

section Network

variable [DecidableEq M] {net : Net M} {w w' : World M}

theorem Net.Signed.mono {env : SignedEnvelope M} (hsent : w.sent ⊆ w'.sent) (h : net.Signed w env) :
    net.Signed w' env :=
  ⟨h.1, h.2.1, fun hc => hsent (h.2.2 hc)⟩

theorem Net.Genuine.mono {msg : Received M} (hsent : w.sent ⊆ w'.sent) (hechoes : w.echoes ⊆ w'.echoes)
    (h : net.Genuine w msg) : net.Genuine w' msg := by
  cases msg with
  | original env => exact Net.Signed.mono hsent h
  | echo x env =>
    obtain ⟨hsig, hto, hx, hecho⟩ := h
    exact ⟨hsig.mono hsent, hto, hx, fun hc => hechoes (hecho hc)⟩

theorem Net.Genuine.signed {msg : Received M} (h : net.Genuine w msg) : net.Signed w msg.env := by
  cases msg with
  | original env => exact h
  | echo x env => exact h.1

/-- An accepted value: signed, and echoed by a quorum of others. -/
def Net.Backed (net : Net M) (w : World M) (key : SlotKey) (env : SignedEnvelope M) : Prop :=
  slotOf env.envelope = key ∧ env.envelope.addressee = none ∧ net.Signed w env ∧
    ∃ quorum : Finset PartyId, net.committee.t.val - 1 ≤ quorum.card ∧ ∀ x ∈ quorum, x ≠ key.party ∧
      ∃ e, net.Genuine w (.echo x e) ∧ slotOf e.envelope = key ∧
        e.encode net.payloadBytes = env.encode net.payloadBytes

theorem Net.Backed.mono {key : SlotKey} {env : SignedEnvelope M} (h : net.Backed w key env)
    (hsent : w.sent ⊆ w'.sent) (hechoes : w.echoes ⊆ w'.echoes) : net.Backed w' key env := by
  obtain ⟨hslot, hto, hsig, quorum, hcard, hq⟩ := h
  refine ⟨hslot, hto, hsig.mono hsent, quorum, hcard, fun x hx => ?_⟩
  obtain ⟨hne, e, he, hrest⟩ := hq x hx
  exact ⟨hne, e, he.mono hsent hechoes, hrest⟩

/-- A node whose acceptor is as its messages left it, all of them genuine. -/
structure Net.Tended (net : Net M) (w : World M) (node : MeshNode M) : Prop where
  faithful : Faithful net.payloadBytes node.processed node.acceptor
  echoQuorum : node.acceptor.echoQuorum = net.committee.t.val - 1
  mailbox : ∀ m ∈ node.mailbox, net.Genuine w m
  processed : ∀ m ∈ node.processed, net.Genuine w m

theorem Net.Tended.mono {node : MeshNode M} (h : net.Tended w node) (hsent : w.sent ⊆ w'.sent)
    (hechoes : w.echoes ⊆ w'.echoes) : net.Tended w' node :=
  ⟨h.faithful, h.echoQuorum, fun m hm => (h.mailbox m hm).mono hsent hechoes,
    fun m hm => (h.processed m hm).mono hsent hechoes⟩

theorem Net.Tended.deliver {node : MeshNode M} {msg : Received M} (h : net.Tended w node)
    (hmsg : net.Genuine w msg) : net.Tended w (node.deliver msg) := by
  unfold MeshNode.deliver
  split
  · refine ⟨h.faithful, h.echoQuorum, fun m hm => ?_, h.processed⟩
    rcases List.mem_append.mp hm with hm | hm
    · exact h.mailbox m hm
    · rw [List.mem_singleton.mp hm]
      exact hmsg
  · exact h

theorem Net.Tended.process {node : MeshNode M} {msg : Received M} (h : net.Tended w node)
    (hmsg : net.Genuine w msg) : net.Tended w (node.process net.payloadBytes msg) := by
  obtain ⟨hfaithful, hgrow⟩ := h.faithful.process msg (by
    rintro x e rfl
    exact hmsg.2.1)
  refine ⟨hfaithful, hgrow.echoQuorum.trans h.echoQuorum, h.mailbox, fun m hm => ?_⟩
  rcases List.mem_append.mp hm with hm | hm
  · exact h.processed m hm
  · rw [List.mem_singleton.mp hm]
    exact hmsg

/-- The honest nodes are tended, an honest sender gave one value in each slot, and
every answer is backed. -/
structure Net.Sound (net : Net M) (w : World M) : Prop where
  nodes : ∀ h, net.Honest h → net.Tended w (w.node h)
  once : ∀ e ∈ w.sent, ∀ e' ∈ w.sent, e.addressee = none → e'.addressee = none → slotOf e = slotOf e' → e = e'
  answers : ∀ r ∈ w.answers, ∀ (id : PartyId) (env : SignedEnvelope M), r.set[id]? = some env →
    net.Backed w ⟨r.sid, r.phase, r.round, id⟩ env

theorem Net.sound_init (net : Net M) : net.Sound (World.init net.committee.t) where
  nodes _ _ := ⟨faithful_new _, rfl, nofun, nofun⟩
  once := nofun
  answers := nofun

/-- A node is replaced, and the records of what was sent and echoed grow. -/
theorem Net.Sound.update (h : net.Sound w) {me : PartyId} {node : MeshNode M}
    (hnode : w'.node = Function.update w.node me node) (hsent : w.sent ⊆ w'.sent) (hechoes : w.echoes ⊆ w'.echoes)
    (hanswers : w'.answers = w.answers) (htended : net.Honest me → net.Tended w' node)
    (honce : ∀ e ∈ w'.sent, ∀ e' ∈ w'.sent, e.addressee = none → e'.addressee = none → slotOf e = slotOf e' →
      e = e') : net.Sound w' where
  nodes := by
    intro j hj
    rw [hnode]
    by_cases hme : j = me
    · subst hme
      rw [Function.update_self]
      exact htended hj
    · rw [Function.update_of_ne hme]
      exact (h.nodes j hj).mono hsent hechoes
  once := honce
  answers := by
    intro r hr id env henv
    rw [hanswers] at hr
    exact (h.answers r hr id env henv).mono hsent hechoes

/-- What a query hands out is backed. -/
theorem Net.Tended.backed {node : MeshNode M} (h : net.Tended w node) {key : SlotKey} {env : SignedEnvelope M}
    (henv : node.acceptor.accepted key = some env) : net.Backed w key env := by
  obtain ⟨-, ⟨payload, c⟩, hc, hquorum, rfl⟩ := accepted_some henv
  rw [Std.ExtTreeMap.mem_toList_iff_getElem?_eq_some] at hc
  obtain ⟨-, hholds⟩ := h.faithful.holds key payload c hc
  obtain ⟨m, hm, hmenv⟩ := hholds.source
  refine ⟨hholds.slot, hholds.addressee, ?_, c.echoers, h.echoQuorum ▸ hquorum, fun x hx => ?_⟩
  · show net.Signed w c.env
    rw [← hmenv]
    exact (h.processed m hm).signed
  · obtain ⟨hne, e, he, hencode, hslot⟩ := hholds.echoers x hx
    refine ⟨hne, e, h.processed _ he, hslot, ?_⟩
    rw [hencode, ← hholds.encode]

/-- The receive path leaves the acceptor alone; a first broadcast is echoed, to all
and to the node itself. -/
theorem handle_tended {me : PartyId} {node : MeshNode M} {msg : Received M} (hme : net.Honest me)
    (h : net.Tended w node) (hmsg : net.Genuine w msg) :
    match node.handle me msg with
    | (node', none) => net.Tended w node'
    | (node', some env) => ∀ w', w'.sent = w.sent → w'.echoes = w.echoes ++ [(me, env)] → net.Tended w' node' := by
  cases msg with
  | echo x env => exact h.deliver hmsg
  | original env =>
    cases hto : env.envelope.addressee with
    | some j =>
      by_cases hj : j = me
      · have hrun : node.handle me (.original env) = (node.deliver (.original env), none) := by
          simp [MeshNode.handle, hto, hj]
        rw [hrun]
        exact h.deliver hmsg
      · have hrun : node.handle me (.original env) = (node, none) := by simp [MeshNode.handle, hto, hj]
        rw [hrun]
        exact h
    | none =>
      by_cases hslot : slotOf env.envelope ∈ node.echoed
      · have hrun : node.handle me (.original env) = (node.deliver (.original env), none) := by
          simp [MeshNode.handle, hto, hslot]
        rw [hrun]
        exact h.deliver hmsg
      · have hrun : node.handle me (.original env) =
            ((({ node with echoed := insert (slotOf env.envelope) node.echoed }.deliver (.echo me env)).deliver
              (.original env)), some env) := by
          simp [MeshNode.handle, hto, hslot]
        rw [hrun]
        intro w' hsent hechoes
        have hsub : w.echoes ⊆ w'.echoes := by
          rw [hechoes]
          exact List.subset_append_left _ _
        have hsub' : w.sent ⊆ w'.sent := hsent ▸ List.Subset.refl _
        have hmsg' : net.Genuine w' (.original env) := hmsg.mono hsub' hsub
        have hecho : net.Genuine w' (.echo me env) :=
          ⟨hmsg', hto, hme.1, fun _ => by rw [hechoes]; exact List.mem_append_right _ (List.mem_singleton.mpr rfl)⟩
        have hmarked : net.Tended w' { node with echoed := insert (slotOf env.envelope) node.echoed } := by
          obtain ⟨hfaithful, hquorum, hmailbox, hprocessed⟩ := h.mono hsub' hsub
          exact ⟨hfaithful, hquorum, hmailbox, hprocessed⟩
        exact (hmarked.deliver hecho).deliver hmsg'

/-- **One event** keeps the network sound. -/
theorem Net.Sound.step (h : net.Sound w) {a : Action M} (hstep : OhmEcdsa.step net w a = some w') : net.Sound w' := by
  cases a with
  | send env =>
    simp only [OhmEcdsa.step] at hstep
    by_cases hsend : net.Sendable w env
    · obtain ⟨hhonest, hsig, hfresh⟩ := hsend
      rw [if_pos ⟨hhonest, hsig, hfresh⟩] at hstep
      have honce : ∀ e ∈ w.sent ++ [env.envelope], ∀ e' ∈ w.sent ++ [env.envelope], e.addressee = none →
          e'.addressee = none → slotOf e = slotOf e' → e = e' := by
        intro e he e' he' hto hto' hslot
        rcases List.mem_append.mp he with he | he <;> rcases List.mem_append.mp he' with he' | he'
        · exact h.once e he e' he' hto hto' hslot
        · obtain rfl := List.mem_singleton.mp he'
          exact hfresh e he hto hto' hslot
        · obtain rfl := List.mem_singleton.mp he
          exact (hfresh e' he' hto' hto hslot.symm).symm
        · rw [List.mem_singleton.mp he, List.mem_singleton.mp he']
      split at hstep
      · obtain rfl := Option.some.inj hstep
        refine h.update rfl (List.subset_append_left _ _) (List.Subset.refl _) rfl (fun _ => ?_) honce
        have hsigned : net.Genuine { w with sent := w.sent ++ [env.envelope] } (.original env) :=
          ⟨hsig, hhonest.1, fun _ => List.mem_append_right _ (List.mem_singleton.mpr rfl)⟩
        exact Net.Tended.process ((h.nodes _ hhonest).mono (List.subset_append_left _ _) (List.Subset.refl _)) hsigned
      · obtain rfl := Option.some.inj hstep
        refine h.update (Function.update_eq_self env.envelope.sender w.node).symm (List.subset_append_left _ _)
          (List.Subset.refl _) rfl (fun _ => ?_) honce
        exact (h.nodes _ hhonest).mono (List.subset_append_left _ _) (List.Subset.refl _)
    · rw [if_neg hsend] at hstep
      cases hstep
  | receive me msg =>
    simp only [OhmEcdsa.step] at hstep
    by_cases hrecv : net.Honest me ∧ net.Verifies w msg
    · rw [if_pos hrecv] at hstep
      obtain ⟨hme, hmsg, -⟩ := hrecv
      have hnode := handle_tended hme (h.nodes me hme) hmsg
      rcases hh : (w.node me).handle me msg with ⟨node, _ | env⟩
      · rw [hh] at hnode hstep
        obtain rfl := Option.some.inj hstep
        exact h.update rfl (List.Subset.refl _) (List.Subset.refl _) rfl
          (fun _ => (show net.Tended w node from hnode).mono (fun _ he => he) fun _ he => he) h.once
      · rw [hh] at hnode hstep
        obtain rfl := Option.some.inj hstep
        exact h.update rfl (List.Subset.refl _) (List.subset_append_left _ _) rfl (fun _ => hnode _ rfl rfl) h.once
    · rw [if_neg hrecv] at hstep
      cases hstep
  | collect me =>
    simp only [OhmEcdsa.step] at hstep
    by_cases hme : net.Honest me
    · rw [if_pos hme] at hstep
      obtain ⟨node, hnode, rfl⟩ := Option.map_eq_some_iff.mp hstep
      refine h.update rfl (List.Subset.refl _) (List.Subset.refl _) rfl (fun _ => ?_) h.once
      obtain ⟨hfaithful, hquorum, hmailbox, hprocessed⟩ := h.nodes me hme
      unfold MeshNode.collect at hnode
      rcases hbox : (w.node me).mailbox with _ | ⟨msg, rest⟩
      · rw [hbox] at hnode
        cases hnode
      · rw [hbox] at hnode hmailbox
        obtain rfl := Option.some.inj hnode
        have hrest : net.Tended w { w.node me with mailbox := rest } :=
          ⟨hfaithful, hquorum, fun m hm => hmailbox m (List.mem_cons_of_mem _ hm), hprocessed⟩
        exact (hrest.process (hmailbox msg List.mem_cons_self)).mono (fun _ he => he) fun _ he => he
    · rw [if_neg hme] at hstep
      cases hstep
  | answer me sid phase round ids =>
    simp only [OhmEcdsa.step] at hstep
    by_cases hme : net.Honest me
    · rw [if_pos hme] at hstep
      obtain rfl := Option.some.inj hstep
      refine ⟨fun j hj => (h.nodes j hj).mono (fun _ he => he) fun _ he => he, h.once,
        fun r hr id env henv => ?_⟩
      rcases List.mem_append.mp hr with hr | hr
      · exact (h.answers r hr id env henv).mono (fun _ he => he) fun _ he => he
      · obtain rfl := List.mem_singleton.mp hr
        rw [bcastSet_getElem?] at henv
        split at henv
        · exact ((h.nodes me hme).backed henv).mono (fun _ he => he) fun _ he => he
        · cases henv
    · rw [if_neg hme] at hstep
      cases hstep

/-- Of a quorum of others behind a corrupt sender's value, one is honest. -/
theorem honest_echoer (hcorrupt : net.corrupt.card < net.committee.t.val) {key : SlotKey} {env : SignedEnvelope M}
    (h : net.Backed w key env) (hsender : key.party ∈ net.corrupt) :
    ∃ x e, x ≠ key.party ∧ (x, e) ∈ w.echoes ∧ slotOf e.envelope = key ∧
      e.encode net.payloadBytes = env.encode net.payloadBytes := by
  obtain ⟨-, -, -, quorum, hcard, hq⟩ := h
  by_contra hnone
  have hsub : quorum ⊆ net.corrupt.erase key.party := by
    intro x hx
    obtain ⟨hne, e, ⟨-, -, -, hecho⟩, hslot, hencode⟩ := hq x hx
    refine Finset.mem_erase.mpr ⟨hne, ?_⟩
    by_contra hx
    exact hnone ⟨x, e, hne, hecho hx, hslot, hencode⟩
  have hle := Finset.card_le_card hsub
  rw [Finset.card_erase_of_mem hsender] at hle
  have hpos : 0 < net.corrupt.card := Finset.card_pos.mpr ⟨_, hsender⟩
  omega

/-- **Agreement of two queries**: the later one has heard the honest echo behind the
earlier one's value, so it holds that value or nothing. -/
theorem agree_of_heard (hcorrupt : net.corrupt.card < net.committee.t.val) (h : net.Sound w) {me : PartyId}
    (hme : net.Honest me) {sid : Bytes} {phase : Phase} {round : Nat} {ids : List PartyId}
    (hheard : net.Heard w (.answer me sid phase round ids)) {i : PartyId} (hi : i ∈ ids)
    {env env' : SignedEnvelope M} (henv : (w.node me).acceptor.accepted ⟨sid, phase, round, i⟩ = some env)
    (henv' : net.Backed w ⟨sid, phase, round, i⟩ env') :
    net.payloadBytes env.envelope.payload = net.payloadBytes env'.envelope.payload := by
  have hnode := h.nodes me hme
  obtain ⟨hslot, hto, hsigned, -⟩ := hnode.backed henv
  obtain ⟨hslot', hto', hsigned', -⟩ := id henv'
  by_cases hsender : i ∈ net.corrupt
  · obtain ⟨x, e, hne, hecho, heslot, hencode⟩ := honest_echoer hcorrupt henv' hsender
    obtain ⟨hfree, ⟨payload, c⟩, hc, hquorum, rfl⟩ := accepted_some henv
    have hcget := Std.ExtTreeMap.mem_toList_iff_getElem?_eq_some.mp hc
    obtain ⟨hadmitted, hholds⟩ := hnode.faithful.holds _ payload c hcget
    have hsame : e.encode net.payloadBytes = payload := by
      by_contra hdiff
      have hseen := hnode.faithful.seen x e (hheard i hi _ hc hquorum (x, e) hecho heslot hne hdiff)
      have hparty : e.envelope.sid = sid ∧ e.envelope.sender = i := by
        obtain ⟨h1, -, -, h4⟩ := SlotKey.mk.inj heslot
        exact ⟨h1, h4⟩
      unfold Seen at hseen
      rw [hparty.1, hparty.2, heslot] at hseen
      rcases hseen with hrefused | hpoisoned | hin
      · exact hrefused.1 hadmitted
      · rw [hfree] at hpoisoned
        cases hpoisoned
      · refine hdiff (mem_unique (hnode.faithful.single _ hfree) hin ?_)
        exact Std.ExtTreeMap.mem_iff_isSome_getElem?.mpr (by rw [hcget]; rfl)
    refine payload_of_encode ?_ (hslot.trans hslot'.symm) (hto.trans hto'.symm) (hsigned.1.trans hsigned'.1.symm)
    rw [← hencode, hsame]
    exact hholds.encode
  · -- an honest sender gave one value
    have hparty : env.envelope.sender = i := (SlotKey.mk.inj hslot).2.2.2
    have hparty' : env'.envelope.sender = i := (SlotKey.mk.inj hslot').2.2.2
    have hsame := h.once _ (hsigned.2.2 (by rw [hparty]; exact hsender)) _
      (hsigned'.2.2 (by rw [hparty']; exact hsender)) hto hto' (hslot.trans hslot'.symm)
    rw [hsame]

/-- Sound, and the answers so far agree. -/
structure Net.Agreed (net : Net M) (w : World M) : Prop extends net.Sound w where
  consistent : Consistent net w

/-- **A step that heard enough** keeps the answers in agreement. -/
theorem Net.Agreed.step (hcorrupt : net.corrupt.card < net.committee.t.val) (h : net.Agreed w) {a : Action M}
    (hheard : net.Heard w a) (hstep : OhmEcdsa.step net w a = some w') : net.Agreed w' := by
  refine ⟨h.toSound.step hstep, ?_⟩
  cases a with
  | answer me sid phase round ids =>
    simp only [OhmEcdsa.step] at hstep
    by_cases hme : net.Honest me
    · rw [if_pos hme] at hstep
      obtain rfl := Option.some.inj hstep
      -- the new answer against an earlier one
      have hnew : ∀ r ∈ w.answers, r.sid = sid → r.phase = phase → r.round = round →
          ∀ (i : PartyId) (env env' : SignedEnvelope M),
            ((w.node me).acceptor.bcastSet sid phase round ids)[i]? = some env → r.set[i]? = some env' →
              net.payloadBytes env.envelope.payload = net.payloadBytes env'.envelope.payload := by
        rintro r hr rfl rfl rfl i env env' henv henv'
        rw [bcastSet_getElem?] at henv
        by_cases hi : i ∈ ids
        · rw [if_pos hi] at henv
          exact agree_of_heard hcorrupt h.toSound hme hheard hi henv (h.answers r hr i env' henv')
        · rw [if_neg hi] at henv
          cases henv
      intro r hr r' hr' hsid hphase hround i env env' henv henv'
      rcases List.mem_append.mp hr with hr | hr <;> rcases List.mem_append.mp hr' with hr' | hr'
      · exact h.consistent r hr r' hr' hsid hphase hround i env env' henv henv'
      · obtain rfl := List.mem_singleton.mp hr'
        exact (hnew r hr hsid hphase hround i env' env henv' henv).symm
      · obtain rfl := List.mem_singleton.mp hr
        exact hnew r' hr' hsid.symm hphase.symm hround.symm i env env' henv henv'
      · obtain rfl := List.mem_singleton.mp hr
        obtain rfl := List.mem_singleton.mp hr'
        rw [henv] at henv'
        rw [Option.some.inj henv']
    · rw [if_neg hme] at hstep
      cases hstep
  | _ =>
    have hanswers : w'.answers = w.answers := by
      simp only [OhmEcdsa.step] at hstep
      grind [World.setNode, Option.map_eq_some_iff]
    unfold Consistent
    rw [hanswers]
    exact h.consistent

end Network

/-! ## Theorems -/

/-- **Consistency of the echo broadcast**: in every run whose queries come after the
conflicting honest echoes already sent, any two answers at honest nodes carry the
same payload for the same sender and slot. -/
theorem consistent_of_heard [DecidableEq M] (net : Net M) (hcorrupt : net.corrupt.card < net.committee.t.val)
    {acts : List (Action M)} {w : World M}
    (hrun : Run (step net) net.Heard (World.init net.committee.t) acts w) : Consistent net w := by
  have hinit : net.Agreed (World.init net.committee.t) := ⟨net.sound_init, nofun⟩
  exact (hrun.invariant (fun _ _ _ h hheard hstep => h.step hcorrupt hheard hstep) hinit).consistent

/-- Two answers of one slot give different values of sender `id`. -/
def World.splits (net : Net M) (w : World M) (id : PartyId) : Bool :=
  w.answers.any fun r => w.answers.any fun r' => r.sid == r'.sid && r.phase == r'.phase && r.round == r'.round &&
    match r.set[id]?, r'.set[id]? with
    | some env, some env' => net.payloadBytes env.envelope.payload != net.payloadBytes env'.envelope.payload
    | _, _ => false

theorem not_consistent_of_splits {net : Net M} {w : World M} {id : PartyId} (h : w.splits net id = true) :
    ¬ Consistent net w := by
  intro hconsistent
  obtain ⟨r, hr, hany⟩ := List.any_eq_true.mp h
  obtain ⟨r', hr', hsplit⟩ := List.any_eq_true.mp hany
  rw [Bool.and_eq_true, Bool.and_eq_true, Bool.and_eq_true, beq_iff_eq, beq_iff_eq, beq_iff_eq] at hsplit
  obtain ⟨⟨⟨hsid, hphase⟩, hround⟩, hdiff⟩ := hsplit
  rcases henv : r.set[id]? with _ | env <;> rcases henv' : r'.set[id]? with _ | env' <;>
    simp only [henv, henv', Bool.false_eq_true, bne_iff_ne, ne_eq] at hdiff
  exact hdiff (hconsistent r hr r' hr' hsid hphase hround id env env' henv henv')

/-! Parties 1 and 2 are honest, payloads are given by their encodings. -/

def trioNet : Net Bytes := ⟨trio, {3}, id⟩

/-- Party `j`'s complaint list of key generation, as it is encoded and signed. -/
def trioComplaints (j : PartyId) (dealers : List PartyId) : SignedEnvelope Bytes :=
  ⟨.broadcast (utf8 "dkg") .keyGen 3 j (2 :: u64Bytes dealers.length ++ dealers.flatMap fun d => u64Bytes d.val),
    List.replicate 64 0⟩

/-- The two honest parties' lists go round; party 3 sends `first` to 1 and `second` to 2. -/
def trioRound (first second : SignedEnvelope Bytes) : List (Action Bytes) :=
  let one := trioComplaints 1 []
  let two := trioComplaints 2 []
  [.send one, .send two, .receive 1 (.original two), .receive 2 (.original one), .receive 1 (.echo 2 one),
    .receive 2 (.echo 1 two), .receive 1 (.original first), .receive 2 (.original second)] ++
  List.replicate 5 (.collect 1) ++ List.replicate 5 (.collect 2)

/-- Both nodes query the round's set. -/
def trioQueries : List (Action Bytes) :=
  [.answer 1 (utf8 "dkg") .keyGen 3 trio.ids, .answer 2 (utf8 "dkg") .keyGen 3 trio.ids]

theorem consistent_of_heard_trio : ∃ w, Run (step trioNet) trioNet.Heard (World.init trioNet.committee.t)
    (trioRound (trioComplaints 3 []) (trioComplaints 3 []) ++ trioQueries) w ∧ Consistent trioNet w := by
  have hsome : ((trioRound (trioComplaints 3 []) (trioComplaints 3 []) ++ trioQueries).foldlM
      (fun s a => if trioNet.Heard s a then step trioNet s a else none)
      (World.init trioNet.committee.t)).isSome = true := by
    decide +kernel
  obtain ⟨w, hw⟩ := Option.isSome_iff_exists.mp hsome
  have hrun := (Run.iff_foldlM _ _ _).mpr hw
  exact ⟨w, hrun, consistent_of_heard trioNet (by decide) hrun⟩

/-- Each node has a complete set before the other's echo of party 3's value arrives. -/
theorem acceptors_split : trioNet.corrupt.card ≤ trioNet.committee.t.val - 1 ∧
    2 * trioNet.committee.t.val - 1 ≤ trioNet.committee.ids.length ∧
    ∃ w, Run (step trioNet) (fun _ _ => True) (World.init trioNet.committee.t)
      (trioRound (trioComplaints 3 []) (trioComplaints 3 [1]) ++ trioQueries) w ∧ ¬ Consistent trioNet w := by
  refine ⟨by decide, by decide, ?_⟩
  have hsplit : ((trioRound (trioComplaints 3 []) (trioComplaints 3 [1]) ++ trioQueries).foldlM
      (fun s a => if True then step trioNet s a else none) (World.init trioNet.committee.t)).any
        (fun w => w.splits trioNet 3) = true := by
    decide +kernel
  obtain ⟨w, hw⟩ := Option.isSome_iff_exists.mp (Option.isSome_of_any hsplit)
  rw [hw, Option.any_some] at hsplit
  exact ⟨w, (Run.iff_foldlM _ _ _).mpr hw, not_consistent_of_splits hsplit⟩

end OhmEcdsa
