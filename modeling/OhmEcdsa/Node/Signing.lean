import OhmEcdsa.Core.Secp256k1
import OhmEcdsa.Node.Audit

/-!
# The signing transport (`src/runtime/transport.rs`)

`SigningTransport` signs what it hands to an inner transport and checks the
signature of what that accepts, under the key of the sender the envelope itself
names.  The label and the slot under which the inner transport files an envelope
are not checked, so with unforgeable signatures

    every accepted set is authentic ↔ a signature fails, or each envelope is
      filed under the sender and slot it names        (signing_transport_authentic_iff)
-/

set_option linter.unusedSectionVars false

namespace OhmEcdsa

/-! ## Algorithm -/

/-- The transport a driver sends through and collects a round's accepted sets from. -/
class Transport (T : Type) (M : outParam Type) where
  broadcast : T → Envelope M → T
  sendP2p : T → Envelope M → T
  acceptedBroadcasts : T → Bytes → Phase → Nat → PartyMap (Envelope M)
  acceptedP2p : T → Bytes → Phase → Nat → PartyId → PartyMap (Envelope M)

instance {M : Type} : Transport (SimTransport M) M where
  broadcast := SimTransport.broadcast
  sendP2p := SimTransport.sendP2p
  acceptedBroadcasts := SimTransport.acceptedBroadcasts
  acceptedP2p := SimTransport.acceptedP2p

/-- `k256::ecdsa::SigningKey`: the public half, and the signature on a byte string. -/
structure KeyPairs (S K : Type) where
  verifyingKey : S → K
  sign : S → Bytes → Bytes

structure SigningTransport (T S K : Type) where
  inner : T
  signingKeys : PartyMap S
  verifyingKeys : PartyMap K

variable {F G K S T M : Type} [Field F] [DecidableEq F] [AddCommGroup G] [Module F G] [DecidableEq G] [K256 F G]

/-- Sign an envelope with the sender's transport key. -/
def SignedEnvelope.sign (pairs : KeyPairs S K) (payloadBytes : M → Bytes) (env : Envelope M) (key : S) :
    SignedEnvelope M :=
  ⟨env, pairs.sign key (signingBytes payloadBytes env)⟩

namespace SigningTransport

/-- Wrap `inner`; the registry is derived from the secret keys. -/
def new (pairs : KeyPairs S K) (inner : T) (signers : List (PartyId × S)) : SigningTransport T S K :=
  ⟨inner, collect signers, collect (signers.map fun e => (e.1, pairs.verifyingKey e.2))⟩

def signEnv (pairs : KeyPairs S K) (payloadBytes : M → Bytes) (st : SigningTransport T S K) (env : Envelope M) :
    Outcome (SignedEnvelope M) :=
  match st.signingKeys[env.sender]? with
  | some key => .ok (.sign pairs payloadBytes env key)
  | none => .error (.panic "sender has a registered transport key")

section

variable [Transport T (SignedEnvelope M)]

def broadcast (pairs : KeyPairs S K) (payloadBytes : M → Bytes) (st : SigningTransport T S K) (env : Envelope M) :
    Outcome (SigningTransport T S K) := do
  let signed ← st.signEnv pairs payloadBytes env
  let e := signed.envelope
  return { st with inner := Transport.broadcast st.inner (Envelope.broadcast e.sid e.phase e.round e.sender signed) }

def sendP2p (pairs : KeyPairs S K) (payloadBytes : M → Bytes) (st : SigningTransport T S K) (env : Envelope M) :
    Outcome (SigningTransport T S K) := do
  let signed ← st.signEnv pairs payloadBytes env
  let e := signed.envelope
  match e.addressee with
  | some j =>
    return { st with inner := Transport.sendP2p st.inner (Envelope.p2p e.sid e.phase e.round e.sender j signed) }
  | none => throw (.panic "p2p envelope has an addressee")

end

/-- The signature verifies under the registered key of the sender it claims. -/
def valid (w : Wire F G K) (payloadBytes : M → Bytes) (st : SigningTransport T S K) (env : SignedEnvelope M) : Bool :=
  st.verifyingKeys[env.envelope.sender]?.any (env.verifySignature w payloadBytes)

def verifyAll (w : Wire F G K) (payloadBytes : M → Bytes) (st : SigningTransport T S K) (phase : Phase)
    (raw : PartyMap (Envelope (SignedEnvelope M))) : Outcome (PartyMap (SignedEnvelope M)) := do
  let l ← raw.toList.mapM fun e =>
    let signed := e.2.payload
    if st.valid w payloadBytes signed then .ok (e.1, signed)
    else .error (abort phase [signed.envelope.sender] "invalid transport signature (forged or tampered envelope)")
  return collect l

section

variable [Transport T (SignedEnvelope M)]

def acceptedBroadcasts (w : Wire F G K) (payloadBytes : M → Bytes) (st : SigningTransport T S K) (sid : Bytes)
    (phase : Phase) (round : Nat) : Outcome (PartyMap (SignedEnvelope M)) :=
  st.verifyAll w payloadBytes phase (Transport.acceptedBroadcasts st.inner sid phase round)

def acceptedP2p (w : Wire F G K) (payloadBytes : M → Bytes) (st : SigningTransport T S K) (sid : Bytes)
    (phase : Phase) (round : Nat) (j : PartyId) : Outcome (PartyMap (SignedEnvelope M)) :=
  st.verifyAll w payloadBytes phase (Transport.acceptedP2p st.inner sid phase round j)

end

/-! ## Specification -/

/-- A signature that verifies under a party's registered key is the party's. -/
def Unforgeable (w : Wire F G K) (st : SigningTransport T S K) (signed : PartyId → Set Bytes) : Prop :=
  ∀ (p : PartyId) (key : K), st.verifyingKeys[p]? = some key →
    ∀ bytes sig, w.verify key bytes sig = true → bytes ∈ signed p

/-- The envelope names this sender and this slot. -/
def Labelled (sid : Bytes) (phase : Phase) (round : Nat) (addressee : Option PartyId) (p : PartyId) (env : Envelope M) :
    Prop :=
  env.sender = p ∧ env.sid = sid ∧ env.phase = phase ∧ env.round = round ∧ env.addressee = addressee

/-- Each envelope of an inner transport's answer is filed under the sender and slot it names. -/
def Filed (sid : Bytes) (phase : Phase) (round : Nat) (addressee : Option PartyId)
    (raw : PartyMap (Envelope (SignedEnvelope M))) : Prop :=
  ∀ (p : PartyId) outer, raw[p]? = some outer → Labelled sid phase round addressee p outer.payload.envelope

/-- What a query accepts under `p` was signed by `p` for that query. -/
def Authentic (payloadBytes : M → Bytes) (signed : PartyId → Set Bytes) (sid : Bytes) (phase : Phase) (round : Nat)
    (addressee : Option PartyId) (accepted : Outcome (PartyMap (SignedEnvelope M))) : Prop :=
  ∀ set, accepted = .ok set → ∀ (p : PartyId) env, set[p]? = some env →
    Labelled sid phase round addressee p env.envelope ∧ signingBytes payloadBytes env.envelope ∈ signed p

/-- Some signature of the answer fails. -/
def Rejected (w : Wire F G K) (payloadBytes : M → Bytes) (st : SigningTransport T S K)
    (raw : PartyMap (Envelope (SignedEnvelope M))) : Prop :=
  ∃ (p : PartyId) (outer : Envelope (SignedEnvelope M)), raw[p]? = some outer ∧
    st.valid w payloadBytes outer.payload = false

end SigningTransport

/-! ## Lemmas -/

/-- A loop over a map's entries that fails at none of them maps the values. -/
theorem collect_mapM {ε α β : Type} {m : PartyMap α} {f : PartyId × α → Except ε (PartyId × β)} {g : α → Option β}
    (hf : ∀ (i : PartyId) a, m[i]? = some a → ∃ b, g a = some b ∧ f (i, a) = .ok (i, b)) :
    ∃ l, m.toList.mapM f = .ok l ∧ ∀ i : PartyId, (collect l)[i]? = m[i]?.bind g := by
  have hloop : ∀ l : List (PartyId × α), (∀ e ∈ l, ∃ b, g e.2 = some b ∧ f e = .ok (e.1, b)) →
      ∃ l', l.mapM f = .ok l' ∧ l'.map (·.1) = l.map (·.1) ∧
        ∀ e ∈ l, ∃ b, g e.2 = some b ∧ (e.1, b) ∈ l' := by
    intro l
    induction l with
    | nil => exact fun _ => ⟨[], rfl, rfl, fun e he => by cases he⟩
    | cons e l ih =>
      intro h
      obtain ⟨b, hg, hb⟩ := h e List.mem_cons_self
      obtain ⟨l', hrun, hkeys, hmem⟩ := ih fun e he => h e (List.mem_cons_of_mem _ he)
      refine ⟨(e.1, b) :: l', ?_, by rw [List.map_cons, List.map_cons, hkeys], fun e' he' => ?_⟩
      · rw [List.mapM_cons, hb, hrun]
        rfl
      · rcases List.mem_cons.mp he' with rfl | he'
        · exact ⟨b, hg, List.mem_cons_self⟩
        · obtain ⟨b', hg', hb'⟩ := hmem e' he'
          exact ⟨b', hg', List.mem_cons_of_mem _ hb'⟩
  obtain ⟨l, hrun, hkeys, hmem⟩ := hloop m.toList fun e he =>
    hf e.1 e.2 (Std.ExtTreeMap.mem_toList_iff_getElem?_eq_some.mp he)
  have hnd : (l.map (·.1)).Nodup := by rw [hkeys]; exact nodup_keys_toList m
  refine ⟨l, hrun, fun i => ?_⟩
  cases hi : m[i]? with
  | some a =>
    obtain ⟨b, hg, hb⟩ := hmem (i, a) (Std.ExtTreeMap.mem_toList_iff_getElem?_eq_some.mpr hi)
    rw [collect_getElem? l hnd hb]
    exact hg.symm
  | none =>
    refine collect_getElem?_none l ?_
    rw [hkeys, List.mem_map]
    rintro ⟨⟨j, a⟩, ha, rfl⟩
    rw [Std.ExtTreeMap.mem_toList_iff_getElem?_eq_some, hi] at ha
    cases ha

namespace SimTransport

/-- The in-process transport hands on what it was given, under its sender and slot. -/
theorem acceptedBroadcasts_mem {tr : SimTransport M} {sid : Bytes} {phase : Phase} {round : Nat} {p : PartyId}
    {env : Envelope M} (h : (tr.acceptedBroadcasts sid phase round)[p]? = some env) :
    env ∈ tr.bcast ∧ env.sender = p ∧ env.sid = sid ∧ env.phase = phase ∧ env.round = round := by
  obtain ⟨e, he, heq⟩ := List.mem_map.mp (mem_of_collect h)
  obtain ⟨rfl, rfl⟩ := Prod.mk.inj heq
  obtain ⟨hmem, hslot⟩ := List.mem_filter.mp he
  simp only [Bool.and_eq_true, beq_iff_eq] at hslot
  exact ⟨hmem, rfl, hslot.1.1, hslot.1.2, hslot.2⟩

theorem acceptedP2p_mem {tr : SimTransport M} {sid : Bytes} {phase : Phase} {round : Nat} {j p : PartyId}
    {env : Envelope M} (h : (tr.acceptedP2p sid phase round j)[p]? = some env) :
    env ∈ tr.p2p ∧ env.sender = p ∧ env.sid = sid ∧ env.phase = phase ∧ env.round = round ∧ env.addressee = some j := by
  obtain ⟨e, he, heq⟩ := List.mem_map.mp (mem_of_collect h)
  obtain ⟨rfl, rfl⟩ := Prod.mk.inj heq
  obtain ⟨hmem, hslot⟩ := List.mem_filter.mp he
  simp only [Bool.and_eq_true, beq_iff_eq] at hslot
  exact ⟨hmem, rfl, hslot.1.1.1, hslot.1.1.2, hslot.1.2, hslot.2⟩

end SimTransport

namespace SigningTransport

variable (w : Wire F G K) (payloadBytes : M → Bytes) (st : SigningTransport T S K)

/-- **What the signature check does**: it hands on the answer as it is filed, or blames the
claimed sender of an envelope whose signature fails. -/
theorem verifyAll_cases (phase : Phase) (raw : PartyMap (Envelope (SignedEnvelope M))) :
    (∃ (p : PartyId) (outer : Envelope (SignedEnvelope M)), raw[p]? = some outer ∧
      st.valid w payloadBytes outer.payload = false ∧ st.verifyAll w payloadBytes phase raw =
        .error (abort phase [outer.payload.envelope.sender]
          "invalid transport signature (forged or tampered envelope)")) ∨
    ((∀ (p : PartyId) outer, raw[p]? = some outer → st.valid w payloadBytes outer.payload = true) ∧
      ∃ set, st.verifyAll w payloadBytes phase raw = .ok set ∧
        ∀ (p : PartyId), set[p]? = raw[p]?.map (·.payload)) := by
  unfold verifyAll
  generalize hf : (fun e : PartyId × Envelope (SignedEnvelope M) =>
    (if st.valid w payloadBytes e.2.payload = true then .ok (e.1, e.2.payload)
      else .error (abort phase [e.2.payload.envelope.sender]
        "invalid transport signature (forged or tampered envelope)") : Outcome (PartyId × SignedEnvelope M))) = f
  have hgood : ∀ e, st.valid w payloadBytes e.2.payload = true → f e = .ok (e.1, e.2.payload) := by
    intro e he
    rw [← hf]
    exact if_pos he
  have hbad : ∀ e, st.valid w payloadBytes e.2.payload = false → f e = .error (abort phase
      [e.2.payload.envelope.sender] "invalid transport signature (forged or tampered envelope)") := by
    intro e he
    rw [← hf]
    exact if_neg (by rw [he]; exact Bool.false_ne_true)
  rcases Hoare.mapM_find f (fun e => !st.valid w payloadBytes e.2.payload) raw.toList
    (fun e _ he => ⟨_, hgood e (by simpa using he)⟩) (fun e _ he => ⟨_, hbad e (by simpa using he)⟩) with
    ⟨⟨p, outer⟩, hmem, hfind, err, herr, hrun⟩ | ⟨hfind, l, hrun⟩
  · have hinvalid : st.valid w payloadBytes outer.payload = false := by simpa using List.find?_some hfind
    refine Or.inl ⟨p, outer, Std.ExtTreeMap.mem_toList_iff_getElem?_eq_some.mp hmem, hinvalid, ?_⟩
    rw [hbad (p, outer) hinvalid] at herr
    rw [hrun, ← Except.error.inj herr]
    rfl
  · have hall : ∀ (p : PartyId) outer, raw[p]? = some outer → st.valid w payloadBytes outer.payload = true := by
      intro p outer hp
      have := List.find?_eq_none.mp hfind (p, outer) (Std.ExtTreeMap.mem_toList_iff_getElem?_eq_some.mpr hp)
      simpa using this
    refine Or.inr ⟨hall, collect l, by rw [hrun]; rfl, fun p => ?_⟩
    obtain ⟨l', hrun', hmap⟩ := collect_mapM (f := f) (g := fun outer => some outer.payload) fun i outer hi =>
      ⟨_, rfl, hgood (i, outer) (hall i outer hi)⟩
    rw [hrun] at hrun'
    rw [Except.ok.inj hrun', hmap p]
    cases raw[p]? <;> rfl

variable {w payloadBytes st} {signed : PartyId → Set Bytes}

theorem Unforgeable.signed_of_valid (h : st.Unforgeable w signed) {env : SignedEnvelope M}
    (hvalid : st.valid w payloadBytes env = true) : signingBytes payloadBytes env.envelope ∈ signed env.envelope.sender := by
  unfold valid at hvalid
  cases hkey : st.verifyingKeys[env.envelope.sender]? with
  | none =>
    rw [hkey] at hvalid
    cases hvalid
  | some key =>
    rw [hkey] at hvalid
    exact h _ key hkey _ _ hvalid

/-- One query: authentic exactly when the inner transport files what verifies as it is labelled. -/
theorem verifyAll_authentic_iff (h : st.Unforgeable w signed) (sid : Bytes) (phase : Phase) (round : Nat)
    (addressee : Option PartyId) (raw : PartyMap (Envelope (SignedEnvelope M))) :
    Authentic payloadBytes signed sid phase round addressee (st.verifyAll w payloadBytes phase raw) ↔
      (st.Rejected w payloadBytes raw ∨ Filed sid phase round addressee raw) := by
  rcases st.verifyAll_cases w payloadBytes phase raw with ⟨p, outer, hp, hinvalid, hrun⟩ | ⟨hvalid, set, hrun, hset⟩
  · rw [hrun]
    exact ⟨fun _ => Or.inl ⟨p, outer, hp, hinvalid⟩, fun _ set hok => by cases hok⟩
  · constructor
    · intro hauth
      refine Or.inr fun p outer hp => ?_
      exact (hauth set hrun p outer.payload (by rw [hset p, hp]; rfl)).1
    · rintro (⟨p', outer, hp, hinvalid⟩ | hfiled) set' hok p env henv
      · rw [hvalid p' outer hp] at hinvalid
        cases hinvalid
      · rw [hrun] at hok
        obtain rfl := Except.ok.inj hok
        rw [hset p] at henv
        obtain ⟨outer, hp, rfl⟩ := Option.map_eq_some_iff.mp henv
        have hlabel := hfiled p outer hp
        refine ⟨hlabel, ?_⟩
        rw [← hlabel.1]
        exact h.signed_of_valid (hvalid p outer hp)

end SigningTransport

/-! ## Theorems -/

section Authenticity

variable [Transport T (SignedEnvelope M)] {w : Wire F G K} {payloadBytes : M → Bytes} {st : SigningTransport T S K}
  {signed : PartyId → Set Bytes}

/-- **Signed transport authenticity** holds of a query exactly when the inner transport
files each envelope under the sender and slot it names, or a signature fails. -/
theorem signing_transport_authentic_iff (h : st.Unforgeable w signed) (sid : Bytes) (phase : Phase) (round : Nat) :
    (SigningTransport.Authentic payloadBytes signed sid phase round none
        (st.acceptedBroadcasts w payloadBytes sid phase round) ↔
      (st.Rejected w payloadBytes (Transport.acceptedBroadcasts st.inner sid phase round) ∨
        SigningTransport.Filed sid phase round none (Transport.acceptedBroadcasts st.inner sid phase round))) ∧
    ∀ j : PartyId, SigningTransport.Authentic payloadBytes signed sid phase round (some j)
        (st.acceptedP2p w payloadBytes sid phase round j) ↔
      (st.Rejected w payloadBytes (Transport.acceptedP2p st.inner sid phase round j) ∨
        SigningTransport.Filed sid phase round (some j) (Transport.acceptedP2p st.inner sid phase round j)) :=
  ⟨SigningTransport.verifyAll_authentic_iff h sid phase round none _,
    fun j => SigningTransport.verifyAll_authentic_iff h sid phase round (some j) _⟩

end Authenticity

/-! Party 1 signs the commitment it broadcasts in the session `s`, and nothing else. -/

section Example

open Secp256k1

def signedCommit : SignedEnvelope (DkgMessage Scalar Point) :=
  ⟨Envelope.broadcast (utf8 "s") .keyGen DKG_ROUND_COMMIT 1 (.commit ⟨1, List.replicate 32 7⟩), List.replicate 64 1⟩

def commitBytes : Bytes := signingBytes DkgMessage.encode signedCommit.envelope

def commitWire : Wire Scalar Point Unit where
  dkg := DkgMessage.encode
  node := fun _ => []
  verify := fun _ bytes sig => bytes == commitBytes && sig == signedCommit.signature

/-- A front end over a queue that files party 1's envelope under `label`. -/
def filedUnder (label : PartyId) : SigningTransport (SimTransport (SignedEnvelope (DkgMessage Scalar Point))) Unit Unit :=
  ⟨⟨[Envelope.broadcast (utf8 "s") .keyGen DKG_ROUND_COMMIT label signedCommit], []⟩, collect [(1, ())],
    collect [(1, ())]⟩

theorem filedUnder_unforgeable (label : PartyId) :
    (filedUnder label).Unforgeable commitWire fun p => {b | p = 1 ∧ b = commitBytes} := by
  intro p key hkey bytes sig hver
  obtain ⟨rfl, -⟩ := Prod.mk.inj (List.mem_singleton.mp (mem_of_collect hkey))
  have hboth : (bytes == commitBytes && sig == signedCommit.signature) = true := hver
  rw [Bool.and_eq_true, beq_iff_eq] at hboth
  exact ⟨rfl, hboth.1⟩

theorem signing_transport_authentic_commit : SigningTransport.Authentic DkgMessage.encode
    (fun p => {b | p = 1 ∧ b = commitBytes}) (utf8 "s") .keyGen DKG_ROUND_COMMIT none
    ((filedUnder 1).acceptedBroadcasts commitWire DkgMessage.encode (utf8 "s") .keyGen DKG_ROUND_COMMIT) := by
  refine (signing_transport_authentic_iff (filedUnder_unforgeable 1) (utf8 "s") .keyGen DKG_ROUND_COMMIT).1.mpr
    (Or.inr fun p outer hp => ?_)
  obtain ⟨hmem, hsender, -⟩ := SimTransport.acceptedBroadcasts_mem hp
  obtain rfl := List.mem_singleton.mp hmem
  exact ⟨hsender, rfl, rfl, rfl, rfl⟩

/-- Filed under party 2, party 1's envelope is accepted as party 2's. -/
theorem relabelled_commit_accepted : (filedUnder 2).Unforgeable commitWire (fun p => {b | p = 1 ∧ b = commitBytes}) ∧
    ¬ SigningTransport.Authentic DkgMessage.encode (fun p => {b | p = 1 ∧ b = commitBytes}) (utf8 "s") .keyGen
      DKG_ROUND_COMMIT none
      ((filedUnder 2).acceptedBroadcasts commitWire DkgMessage.encode (utf8 "s") .keyGen DKG_ROUND_COMMIT) := by
  have hraw : (Transport.acceptedBroadcasts (filedUnder 2).inner (utf8 "s") .keyGen DKG_ROUND_COMMIT)[(2 : PartyId)]? =
      some (Envelope.broadcast (utf8 "s") .keyGen DKG_ROUND_COMMIT 2 signedCommit) := by
    show (collect (List.map _ (List.filter _ [Envelope.broadcast (utf8 "s") .keyGen DKG_ROUND_COMMIT 2 signedCommit])))[
      (2 : PartyId)]? = _
    rw [List.filter_eq_self.mpr]
    · exact collect_one 2 _
    · intro e he
      obtain rfl := List.mem_singleton.mp he
      simp [Envelope.broadcast]
  have hvalid : (filedUnder 2).valid commitWire DkgMessage.encode signedCommit = true := by
    show ((collect [((1 : PartyId), ())])[(1 : PartyId)]?).any _ = true
    rw [collect_one]
    show (commitBytes == commitBytes && signedCommit.signature == signedCommit.signature) = true
    simp
  refine ⟨filedUnder_unforgeable 2, fun hauth => ?_⟩
  rcases (SigningTransport.verifyAll_authentic_iff (filedUnder_unforgeable 2) _ _ _ _ _).mp hauth with
    ⟨p, outer, hp, hinvalid⟩ | hfiled
  · obtain ⟨hmem, -⟩ := SimTransport.acceptedBroadcasts_mem hp
    obtain rfl := List.mem_singleton.mp hmem
    rw [show (filedUnder 2).valid commitWire DkgMessage.encode
      (Envelope.broadcast (utf8 "s") .keyGen DKG_ROUND_COMMIT 2 signedCommit).payload = true from hvalid] at hinvalid
    cases hinvalid
  · have hsender : (1 : PartyId) = 2 := (hfiled 2 _ hraw).1
    exact absurd hsender (by decide)

end Example

end OhmEcdsa
