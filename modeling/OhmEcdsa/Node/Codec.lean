import OhmEcdsa.Node.Payload

/-!
# The node's payloads and frames on the wire (`party.rs`, `net/wire.rs`)

A payload may carry signed envelopes of payloads; each sits in a length-prefixed
field, so the decoder calls itself on strictly shorter inputs.  As in the core,
decoding and encoding are inverse in both directions (`node_codec_canonical`).
-/

set_option linter.unusedSectionVars false

namespace OhmEcdsa

open Codec Decoder

variable {F G : Type} [Field F] [DecidableEq F] [AddCommGroup G] [Module F G] [DecidableEq G] [K256 F G]
  [WireFormat F G]

/-- One message on the wire. -/
inductive WireMessage (M : Type)
  | original (env : SignedEnvelope M)
  | echo (echoer : PartyId) (original : SignedEnvelope M) (signature : Bytes)

/-! ## Algorithm: encoding -/

def TripleDealMsg.encode (d : TripleDealMsg F G) : Bytes :=
  d.com.encode F ++ K256.pointBytes F d.x1 ++ K256.pointBytes F d.x2 ++ K256.pointBytes F d.proof.t1 ++
    K256.pointBytes F d.proof.t2 ++ WireFormat.scalarBytes G d.proof.z

/-- An entry of a counted collection: whose, then what. -/
def keyedBytes {α : Type} (enc : α → Bytes) (e : PartyId × α) : Bytes := u64Bytes e.1.val ++ enc e.2

def countedBytes {α : Type} (enc : α → Bytes) (l : List α) : Bytes := u64Bytes l.length ++ l.flatMap enc

mutual

def NodePayload.encode : NodePayload F G → Bytes
  | .dkg m => 1 :: m.encode
  | .complaints dealers => 2 :: countedBytes (fun d => u64Bytes d.val) dealers
  | .defenses defs => 3 :: countedBytes (keyedBytes (WireFormat.scalarBytes G)) defs
  | .signShare presig s => 4 :: (u64Bytes presig.val ++ WireFormat.scalarBytes G s)
  | .tripleDeal d => 5 :: d.encode
  | .reshare s => 6 :: WireFormat.scalarBytes G s
  | .beaverOpen first second => 7 :: (WireFormat.scalarBytes G first ++ WireFormat.scalarBytes G second)
  | .openShare s => 8 :: WireFormat.scalarBytes G s
  | .noncePoint p => 9 :: K256.pointBytes F p
  | .reshareRequests requests => 10 :: (u64Bytes requests.length ++ encodeRequests requests)
  | .reshareSupply supplies => 11 :: countedBytes (keyedBytes (WireFormat.scalarBytes G)) supplies

def encodeRequests : List (PartyId × SignedEnvelope (NodePayload F G)) → Bytes
  | [] => []
  | (d, ⟨⟨sid, phase, round, sender, addressee, payload⟩, signature⟩) :: rest =>
    u64Bytes d.val ++ SignedEnvelope.encode (fun _ : NodePayload F G => NodePayload.encode payload)
      ⟨⟨sid, phase, round, sender, addressee, payload⟩, signature⟩ ++ encodeRequests rest

end

def WireMessage.encode {M : Type} (payloadBytes : M → Bytes) : WireMessage M → Bytes
  | .original env => 1 :: env.encode payloadBytes
  | .echo echoer env signature => 2 :: (u64Bytes echoer.val ++ env.encode payloadBytes ++ signature)

/-! ## What fits on the wire -/

mutual

def NodePayload.Fits : NodePayload F G → Prop
  | .dkg m => m.Fits
  | .complaints dealers => dealers.length < 2 ^ 64
  | .defenses defs => defs.length < 2 ^ 64
  | .tripleDeal d => d.com.Fits
  | .reshareRequests requests => requests.length < 2 ^ 64 ∧ requestsFit requests
  | .reshareSupply supplies => supplies.length < 2 ^ 64
  | _ => True

def requestsFit : List (PartyId × SignedEnvelope (NodePayload F G)) → Prop
  | [] => True
  | (_, ⟨⟨sid, phase, round, sender, addressee, payload⟩, signature⟩) :: rest =>
    SignedEnvelope.Fits F G (fun _ : NodePayload F G => NodePayload.encode payload) (fun _ => NodePayload.Fits payload)
      ⟨⟨sid, phase, round, sender, addressee, payload⟩, signature⟩ ∧ requestsFit rest

end

def WireMessage.Fits (F G : Type) [Field F] [DecidableEq F] [AddCommGroup G] [Module F G] [K256 F G]
    [WireFormat F G] {M : Type} (payloadBytes : M → Bytes) (FitsM : M → Prop) : WireMessage M → Prop
  | .original env => env.Fits F G payloadBytes FitsM
  | .echo _ env signature => env.Fits F G payloadBytes FitsM ∧ signature.length = 64 ∧
      signatureOk F G signature = true

/-! ## Algorithm: decoding -/

/-- `for _ in 0..n`, after the count. -/
def counted {α : Type} (d : Decoder α) : Decoder (List α) := do
  let n ← takeU64
  d.times n

def takeUsize : Decoder Usize := do
  let v ← takeU64
  ofOption (usizeOf v)

def keyed {α : Type} (d : Decoder α) : Decoder (PartyId × α) := do
  let j ← takeU64
  let a ← d
  let j ← ofOption (usizeOf j)
  return (j, a)

section Decode

variable (F G : Type) [Field F] [DecidableEq F] [AddCommGroup G] [Module F G] [DecidableEq G] [K256 F G]
  [WireFormat F G]

def TripleDealMsg.decode : Decoder (TripleDealMsg F G) := do
  let com ← FeldmanCommitment.decode F G
  let x1 ← takePoint F G
  let x2 ← takePoint F G
  let t1 ← takePoint F G
  let t2 ← takePoint F G
  let z ← takeScalar F G
  return ⟨com, x1, x2, ⟨t1, t2, z⟩⟩

/-- The body of `NodePayload::decode`; `payload` is its call on a nested payload field. -/
def NodePayload.decodeBody (payload : Decoder (NodePayload F G)) : Decoder (NodePayload F G) := do
  let tag ← takeByte
  match tag.toNat with
  | 1 => do
    let m ← DkgMessage.decode F G
    return .dkg m
  | 2 => do
    let dealers ← counted takeUsize
    return .complaints dealers
  | 3 => do
    let defs ← counted (keyed (takeScalar F G))
    return .defenses defs
  | 4 => do
    let presig ← takeUsize
    let s ← takeScalar F G
    return .signShare presig s
  | 5 => do
    let d ← TripleDealMsg.decode F G
    return .tripleDeal d
  | 6 => do
    let s ← takeScalar F G
    return .reshare s
  | 7 => do
    let first ← takeScalar F G
    let second ← takeScalar F G
    return .beaverOpen first second
  | 8 => do
    let s ← takeScalar F G
    return .openShare s
  | 9 => do
    let p ← takePoint F G
    return .noncePoint p
  | 10 => do
    let requests ← counted (keyed (SignedEnvelope.decode F G payload))
    return .reshareRequests requests
  | 11 => do
    let supplies ← counted (keyed (takeScalar F G))
    return .reshareSupply supplies
  | _ => fail

/-- `NodePayload::decode`: nested payload fields are shorter than the input. -/
def NodePayload.decode (b : Bytes) : Option (NodePayload F G × Nat) :=
  (NodePayload.decodeBody F G fun field =>
    if _h : field.length < b.length then NodePayload.decode field else none).run b
termination_by b.length

def WireMessage.decode {M : Type} (payload : Decoder M) : Decoder (WireMessage M) := do
  let tag ← takeByte
  match tag.toNat with
  | 1 => do
    let env ← SignedEnvelope.decode F G payload
    return .original env
  | 2 => do
    let echoer ← takeU64
    let original ← SignedEnvelope.decode F G payload
    let signature ← takeSignature F G
    let echoer ← ofOption (usizeOf echoer)
    return .echo echoer original signature
  | _ => fail

end Decode

/-! ## Lemmas: collections -/

section Collections

variable {α : Type} {n : Nat} {d : Decoder α} {enc : α → List UInt8} {Valid : α → Prop}

theorem counted_texts {E : α → List UInt8 → Prop} (h : Reads n d E) :
    Reads n (counted d) fun l w => l.length < 2 ^ 64 ∧
      ∃ texts, List.Forall₂ E l texts ∧ w = u64Bytes l.length ++ texts.flatten := by
  refine ((takeU64_reads n).bind' fun k => Reads.times_texts h k).congr fun l w => ?_
  constructor
  · rintro ⟨k, _, _, ⟨hk, rfl⟩, ⟨rfl, texts, htexts, rfl⟩, rfl⟩
    exact ⟨hk, texts, htexts, rfl⟩
  · rintro ⟨hk, texts, htexts, rfl⟩
    exact ⟨_, _, _, ⟨hk, rfl⟩, ⟨rfl, texts, htexts, rfl⟩, rfl⟩

theorem counted_reads (h : Reads n d fun v w => Valid v ∧ w = enc v) :
    Reads n (counted d) fun l w => (l.length < 2 ^ 64 ∧ ∀ v ∈ l, Valid v) ∧ w = countedBytes enc l := by
  refine ((takeU64_reads n).bind' fun k => Reads.times h k).congr fun l w => ?_
  constructor
  · rintro ⟨k, _, _, ⟨hk, rfl⟩, ⟨rfl, hv, rfl⟩, rfl⟩
    exact ⟨⟨hk, hv⟩, rfl⟩
  · rintro ⟨⟨hk, hv⟩, rfl⟩
    exact ⟨_, _, _, ⟨hk, rfl⟩, ⟨rfl, hv, rfl⟩, rfl⟩

theorem takeUsize_reads : Reads n takeUsize fun v w => True ∧ w = u64Bytes v.val := by
  refine (usize_reads fun j => Reads.ofOption (usizeOf j.val)).congr fun v w => ?_
  constructor
  · rintro ⟨j, _, ⟨hj, rfl⟩, rfl⟩
    rw [usizeOf_val] at hj
    cases hj
    exact ⟨trivial, List.append_nil _⟩
  · rintro ⟨-, rfl⟩
    exact ⟨v, [], ⟨usizeOf_val v, rfl⟩, (List.append_nil _).symm⟩

theorem keyed_texts {E : α → List UInt8 → Prop} (h : Reads n d E) :
    Reads n (keyed d) fun e w => ∃ x, E e.2 x ∧ w = u64Bytes e.1.val ++ x := by
  refine (usize_reads fun j => h.bind' fun a => (Reads.ofOption (usizeOf j.val)).bind' fun i =>
    Reads.pure (i, a)).congr fun e w => ?_
  constructor
  · rintro ⟨j, _, ⟨a, x, _, ha, ⟨i, _, _, ⟨hi, rfl⟩, ⟨rfl, rfl⟩, rfl⟩, rfl⟩, rfl⟩
    rw [usizeOf_val] at hi
    cases hi
    exact ⟨x, ha, by simp⟩
  · rintro ⟨x, ha, rfl⟩
    exact ⟨e.1, _, ⟨e.2, x, [], ha, ⟨e.1, [], [], ⟨usizeOf_val _, rfl⟩, ⟨rfl, rfl⟩, rfl⟩, (List.append_nil _).symm⟩, rfl⟩

theorem keyed_reads (h : Reads n d fun v w => Valid v ∧ w = enc v) :
    Reads n (keyed d) fun e w => Valid e.2 ∧ w = keyedBytes enc e := by
  refine (keyed_texts h).congr fun e w => ?_
  constructor
  · rintro ⟨_, ⟨hv, rfl⟩, rfl⟩
    exact ⟨hv, rfl⟩
  · rintro ⟨hv, rfl⟩
    exact ⟨_, ⟨hv, rfl⟩, rfl⟩

end Collections

theorem encodeRequests_eq (requests : List (PartyId × SignedEnvelope (NodePayload F G))) :
    encodeRequests requests = requests.flatMap (keyedBytes (SignedEnvelope.encode NodePayload.encode)) := by
  induction requests with
  | nil => simp [encodeRequests]
  | cons e rest ih =>
    obtain ⟨d, ⟨⟨sid, phase, round, sender, addressee, payload⟩, signature⟩⟩ := e
    rw [encodeRequests, ih, List.flatMap_cons]
    rfl

theorem encode_reshareRequests (requests : List (PartyId × SignedEnvelope (NodePayload F G))) :
    (NodePayload.reshareRequests requests).encode =
      10 :: countedBytes (keyedBytes (SignedEnvelope.encode NodePayload.encode)) requests := by
  rw [NodePayload.encode, encodeRequests_eq]
  rfl

theorem requestsFit_iff (requests : List (PartyId × SignedEnvelope (NodePayload F G))) :
    requestsFit requests ↔ ∀ e ∈ requests, e.2.Fits F G NodePayload.encode NodePayload.Fits := by
  induction requests with
  | nil => simp [requestsFit]
  | cons e rest ih =>
    obtain ⟨d, ⟨⟨sid, phase, round, sender, addressee, payload⟩, signature⟩⟩ := e
    rw [requestsFit, ih, List.forall_mem_cons]
    rfl

/-! ## Lemmas: payloads -/

theorem TripleDealMsg.decode_lawful : Lawful (TripleDealMsg.encode : TripleDealMsg F G → Bytes)
    (TripleDealMsg.decode F G) fun d => d.com.Fits := by
  intro n
  have hpoint := takePoint_lawful (F := F) (G := G) n
  refine ((FeldmanCommitment.decode_lawful (F := F) (G := G) n).bind' fun com => hpoint.bind' fun x1 =>
    hpoint.bind' fun x2 => hpoint.bind' fun t1 => hpoint.bind' fun t2 => (takeScalar_lawful n).bind' fun z =>
    Reads.pure (⟨com, x1, x2, ⟨t1, t2, z⟩⟩ : TripleDealMsg F G)).congr fun v w => ?_
  constructor
  · rintro ⟨com, _, _, ⟨hfits, rfl⟩, ⟨x1, _, _, ⟨-, rfl⟩, ⟨x2, _, _, ⟨-, rfl⟩, ⟨t1, _, _, ⟨-, rfl⟩, ⟨t2, _, _,
      ⟨-, rfl⟩, ⟨z, _, _, ⟨-, rfl⟩, ⟨rfl, rfl⟩, rfl⟩, rfl⟩, rfl⟩, rfl⟩, rfl⟩, rfl⟩
    exact ⟨hfits, by simp [TripleDealMsg.encode]⟩
  · rintro ⟨hfits, rfl⟩
    exact ⟨v.com, _, _, ⟨hfits, rfl⟩, ⟨v.x1, _, _, ⟨trivial, rfl⟩, ⟨v.x2, _, _, ⟨trivial, rfl⟩, ⟨v.proof.t1, _, _,
      ⟨trivial, rfl⟩, ⟨v.proof.t2, _, _, ⟨trivial, rfl⟩, ⟨v.proof.z, _, [], ⟨trivial, rfl⟩, ⟨rfl, rfl⟩, rfl⟩, rfl⟩,
      rfl⟩, rfl⟩, rfl⟩, by simp [TripleDealMsg.encode]⟩

/-- Two scalars, or a word and a scalar: one field after the other. -/
theorem pair_reads {α β γ : Type} {n : Nat} {d : Decoder α} {d' : Decoder β} {enc : α → List UInt8}
    {enc' : β → List UInt8} (h : Reads n d fun v w => True ∧ w = enc v) (h' : Reads n d' fun v w => True ∧ w = enc' v)
    (mk : α → β → γ) :
    Reads n (do
      let a ← d
      let b ← d'
      return mk a b) fun v w => ∃ a b, v = mk a b ∧ w = enc a ++ enc' b := by
  refine (h.bind' fun a => h'.bind' fun b => Reads.pure (mk a b)).congr fun v w => ?_
  constructor
  · rintro ⟨a, _, _, ⟨-, rfl⟩, ⟨b, _, _, ⟨-, rfl⟩, ⟨rfl, rfl⟩, rfl⟩, rfl⟩
    exact ⟨a, b, rfl, by simp⟩
  · rintro ⟨a, b, rfl, rfl⟩
    exact ⟨a, _, _, ⟨trivial, rfl⟩, ⟨b, _, [], ⟨trivial, rfl⟩, ⟨rfl, rfl⟩, rfl⟩, by simp⟩

theorem NodePayload.encode_ne_nil (p : NodePayload F G) : p.encode ≠ [] := by
  cases p <;> simp [NodePayload.encode]

/-- **The payload decoder**, where its calls on nested fields read what they should. -/
theorem NodePayload.decodeBody_reads {n : Nat} {payload : Decoder (NodePayload F G)}
    (h : ∀ m < n, Reads m payload fun v w => NodePayload.Fits v ∧ w = v.encode) :
    Reads n (NodePayload.decodeBody F G payload) fun v w => NodePayload.Fits v ∧ w = v.encode := by
  have hscalar := takeScalar_lawful (F := F) (G := G) n
  refine tagged_reads NodePayload.encode_ne_nil fun tag => ?_
  split
  · rename_i htag
    obtain rfl : tag = 1 := UInt8.toNat_inj.mp htag
    refine (variant_reads (DkgMessage.decode_lawful n) NodePayload.dkg).congr fun v w => ?_
    cases v <;> simp [NodePayload.encode, NodePayload.Fits]
  · rename_i htag
    obtain rfl : tag = 2 := UInt8.toNat_inj.mp htag
    refine (variant_reads (counted_reads takeUsize_reads) NodePayload.complaints).congr fun v w => ?_
    cases v <;> simp [NodePayload.encode, NodePayload.Fits]
  · rename_i htag
    obtain rfl : tag = 3 := UInt8.toNat_inj.mp htag
    refine (variant_reads (counted_reads (keyed_reads hscalar)) NodePayload.defenses).congr fun v w => ?_
    cases v <;> simp [NodePayload.encode, NodePayload.Fits]
  · rename_i htag
    obtain rfl : tag = 4 := UInt8.toNat_inj.mp htag
    refine (pair_reads takeUsize_reads hscalar NodePayload.signShare).congr fun v w => ?_
    cases v <;> simp [NodePayload.encode, NodePayload.Fits]
  · rename_i htag
    obtain rfl : tag = 5 := UInt8.toNat_inj.mp htag
    refine (variant_reads (TripleDealMsg.decode_lawful n) NodePayload.tripleDeal).congr fun v w => ?_
    cases v <;> simp [NodePayload.encode, NodePayload.Fits]
  · rename_i htag
    obtain rfl : tag = 6 := UInt8.toNat_inj.mp htag
    refine (variant_reads hscalar NodePayload.reshare).congr fun v w => ?_
    cases v <;> simp [NodePayload.encode, NodePayload.Fits]
  · rename_i htag
    obtain rfl : tag = 7 := UInt8.toNat_inj.mp htag
    refine (pair_reads hscalar hscalar NodePayload.beaverOpen).congr fun v w => ?_
    cases v <;> simp [NodePayload.encode, NodePayload.Fits]
  · rename_i htag
    obtain rfl : tag = 8 := UInt8.toNat_inj.mp htag
    refine (variant_reads hscalar NodePayload.openShare).congr fun v w => ?_
    cases v <;> simp [NodePayload.encode, NodePayload.Fits]
  · rename_i htag
    obtain rfl : tag = 9 := UInt8.toNat_inj.mp htag
    refine (variant_reads (takePoint_lawful n) NodePayload.noncePoint).congr fun v w => ?_
    cases v <;> simp [NodePayload.encode, NodePayload.Fits]
  · rename_i htag
    obtain rfl : tag = 10 := UInt8.toNat_inj.mp htag
    refine (variant_reads (counted_reads (keyed_reads (SignedEnvelope.decode_reads h)))
      NodePayload.reshareRequests).congr fun v w => ?_
    cases v with
    | reshareRequests requests =>
      rw [encode_reshareRequests, NodePayload.Fits, requestsFit_iff]
      simp
    | _ => simp [NodePayload.encode]
  · rename_i htag
    obtain rfl : tag = 11 := UInt8.toNat_inj.mp htag
    refine (variant_reads (counted_reads (keyed_reads hscalar)) NodePayload.reshareSupply).congr fun v w => ?_
    cases v <;> simp [NodePayload.encode, NodePayload.Fits]
  · rename_i h1 h2 h3 h4 h5 h6 h7 h8 h9 h10 h11
    refine Reads.fail.congr fun v w => iff_of_false not_false ?_
    rintro ⟨-, htag⟩
    cases v <;> simp only [NodePayload.encode, List.cons.injEq] at htag <;> simp_all

theorem NodePayload.decode_reads (n : Nat) :
    Reads n (NodePayload.decode F G) fun v w => NodePayload.Fits v ∧ w = v.encode := by
  induction n using Nat.strong_induction_on with
  | _ n ih =>
    intro b hb
    have hnested : ∀ m < b.length, Reads m (fun field : Bytes =>
        if _h : field.length < b.length then NodePayload.decode F G field else none)
          fun v w => NodePayload.Fits v ∧ w = v.encode := by
      intro m hm field hfield v used
      refine Iff.trans ?_ (ih m (hm.trans_le hb) field hfield v used)
      show (if _h : field.length < b.length then NodePayload.decode F G field else none) = _ ↔
        NodePayload.decode F G field = _
      rw [dif_pos (hfield.trans_lt hm)]
    have hbody := NodePayload.decodeBody_reads hnested
    intro v used
    refine Iff.trans ?_ (hbody b le_rfl v used)
    show NodePayload.decode F G b = _ ↔ _
    rw [NodePayload.decode]

theorem NodePayload.decode_lawful :
    Lawful (NodePayload.encode : NodePayload F G → Bytes) (NodePayload.decode F G) NodePayload.Fits :=
  NodePayload.decode_reads

/-- Decoding `b` asks for the payloads of shorter fields only. -/
theorem NodePayload.decodeBody_eq {b : Bytes} {payload : Decoder (NodePayload F G)}
    (h : ∀ field, field.length < b.length → payload.run field = NodePayload.decode F G field) :
    (NodePayload.decodeBody F G payload).run b = NodePayload.decode F G b := by
  have hnested : ∀ m < b.length, Reads m payload fun v w => NodePayload.Fits v ∧ w = v.encode := by
    intro m hm field hfield
    rw [h field (hfield.trans_lt hm)]
    exact NodePayload.decode_reads m field hfield
  have hbody := NodePayload.decodeBody_reads hnested
  apply Option.ext
  rintro ⟨v, used⟩
  exact (hbody b le_rfl v used).trans (NodePayload.decode_reads b.length b le_rfl v used).symm

theorem WireMessage.encode_ne_nil {M : Type} (payloadBytes : M → Bytes) (m : WireMessage M) :
    m.encode payloadBytes ≠ [] := by
  cases m <;> exact List.cons_ne_nil _ _

theorem WireMessage.decode_lawful {M : Type} {payloadBytes : M → Bytes} {payload : Decoder M} {FitsM : M → Prop}
    (h : Lawful payloadBytes payload FitsM) :
    Lawful (WireMessage.encode payloadBytes) (WireMessage.decode F G payload)
      (WireMessage.Fits F G payloadBytes FitsM) := by
  intro n
  have henv := SignedEnvelope.decode_reads (F := F) (G := G) (n := n) fun m _ => h m
  refine tagged_reads (WireMessage.encode_ne_nil payloadBytes) fun tag => ?_
  split
  · rename_i htag
    obtain rfl : tag = 1 := UInt8.toNat_inj.mp htag
    refine (variant_reads henv WireMessage.original).congr fun v w => ?_
    cases v <;> simp [WireMessage.encode, WireMessage.Fits]
  · rename_i htag
    obtain rfl : tag = 2 := UInt8.toNat_inj.mp htag
    refine (usize_reads fun j => henv.bind' fun original => (takeSignature_lawful (F := F) (G := G) n).bind'
      fun signature => (Reads.ofOption (usizeOf j.val)).bind' fun echoer =>
        Reads.pure (WireMessage.echo echoer original signature)).congr fun v w => ?_
    constructor
    · rintro ⟨j, _, ⟨original, _, _, ⟨hfits, rfl⟩, ⟨signature, _, _, ⟨hsig, rfl⟩, ⟨echoer, _, _, ⟨hj, rfl⟩,
        ⟨rfl, rfl⟩, rfl⟩, rfl⟩, rfl⟩, rfl⟩
      rw [usizeOf_val] at hj
      cases hj
      exact ⟨⟨hfits, hsig⟩, by simp [WireMessage.encode]⟩
    · rintro ⟨hfits, h2⟩
      rcases v with env | ⟨echoer, env, signature⟩
      · cases (List.cons.inj h2).1
      · refine ⟨echoer, _, ⟨env, _, _, ⟨hfits.1, rfl⟩, ⟨signature, _, [], ⟨hfits.2, rfl⟩, ⟨echoer, [], [],
          ⟨usizeOf_val _, rfl⟩, ⟨rfl, rfl⟩, rfl⟩, (List.append_nil _).symm⟩, rfl⟩, ?_⟩
        rw [(List.cons.inj h2).2, List.append_assoc]
  · rename_i h1 h2
    refine Reads.fail.congr fun v w => iff_of_false not_false ?_
    rintro ⟨-, htag⟩
    cases v
    · exact h1 (congrArg UInt8.toNat (List.cons.inj htag).1)
    · exact h2 (congrArg UInt8.toNat (List.cons.inj htag).1)

/-! ## Theorems -/

variable (F G) in
/-- **The node's payload and frame codecs are canonical bijections, and decoding
terminates**: on every input the body asks for nested payloads of strictly shorter
fields only, and `decode` is its value. -/
theorem node_codec_canonical :
    Canonical NodePayload.encode (NodePayload.decode F G) NodePayload.Fits ∧
    Canonical (WireMessage.encode NodePayload.encode) (WireMessage.decode F G (NodePayload.decode F G))
      (WireMessage.Fits F G NodePayload.encode NodePayload.Fits) ∧
    ∀ b : Bytes, (NodePayload.decodeBody F G (NodePayload.decode F G)).run b = NodePayload.decode F G b ∧
      ∀ payload : Decoder (NodePayload F G),
        (∀ field, field.length < b.length → payload.run field = NodePayload.decode F G field) →
          (NodePayload.decodeBody F G payload).run b = NodePayload.decode F G b :=
  ⟨lawful_iff_canonical.mp NodePayload.decode_lawful,
    lawful_iff_canonical.mp (WireMessage.decode_lawful NodePayload.decode_lawful),
    fun _ => ⟨NodePayload.decodeBody_eq fun _ _ => rfl, fun _ h => NodePayload.decodeBody_eq h⟩⟩

end OhmEcdsa
