import OhmEcdsa.Core.Transport
import OhmEcdsa.Support.Codec

/-!
# The canonical wire encoding (`transport.rs`)

Length-prefixed byte strings, big-endian `u64`s, canonical scalars, SEC1 compressed
points (the identity is one zero byte).  Every decoder reads exactly the encodings:

    Canonical enc dec Fits:  decode (encode v ++ rest) = (v, length)  and
      decode b = (v, used) → used ≤ length b ∧ encode v = take used b

`Fits` says of a value what its Rust type does: lengths and round numbers are in range.
-/

set_option linter.unusedSectionVars false

namespace OhmEcdsa

open Codec Decoder

/-- An envelope with its sender's signature. -/
structure SignedEnvelope (M : Type) where
  envelope : Envelope M
  signature : Bytes
  deriving DecidableEq

/-- The encodings of `k256`: `to_bytes` and `from_repr` of scalars, which rejects values
from `q` on, and SEC1 points, of which `from_encoded_point` accepts the compressed
form of each point but the identity. -/
class WireFormat (F G : Type) [Field F] [AddCommGroup G] [Module F G] [K256 F G] where
  scalarBytes : F → Bytes
  scalarFromRepr : Bytes → Option F
  scalarBytes_length : ∀ s, (scalarBytes s).length = 32
  scalarFromRepr_iff : ∀ b s, b.length = 32 → (scalarFromRepr b = some s ↔ b = scalarBytes s)
  pointBytes_zero : K256.pointBytes F (0 : G) = [0]
  pointBytes_compressed : ∀ P : G, P ≠ 0 →
    ∃ tag x, (tag = 2 ∨ tag = 3) ∧ x.length = 32 ∧ K256.pointBytes F P = tag :: x
  pointFromCompressed : Bytes → Option G
  pointFromCompressed_iff : ∀ tag x P, tag = 2 ∨ tag = 3 → x.length = 32 →
    (pointFromCompressed (tag :: x) = some P ↔ tag :: x = K256.pointBytes F P)

/-! ## Algorithm: encoding -/

/-- The code of the phase on the wire. -/
def phaseCode : Phase → UInt8
  | .keyGen => 1
  | .triples => 2
  | .presign => 3
  | .sign => 4
  | .refresh => 5

/-- The length, then the bytes. -/
def putBytes (b : Bytes) : Bytes := u64Bytes b.length ++ b

section Encode

variable {F G : Type} [Field F] [DecidableEq F] [AddCommGroup G] [Module F G] [DecidableEq G] [K256 F G]

def FeldmanCommitment.encode (F : Type) {G : Type} [Field F] [AddCommGroup G] [Module F G] [K256 F G]
    (com : FeldmanCommitment G) : Bytes :=
  u64Bytes com.points.length ++ com.points.flatMap (K256.pointBytes F)

def DkgBcast1.encode (b : DkgBcast1) : Bytes := u64Bytes b.sender.val ++ putBytes b.hash

def DkgBcast2.encode (F : Type) {G : Type} [Field F] [AddCommGroup G] [Module F G] [K256 F G]
    (b : DkgBcast2 G) : Bytes :=
  u64Bytes b.sender.val ++ b.com.encode F

def DkgP2P.encode (G : Type) {F : Type} [Field F] [AddCommGroup G] [Module F G] [K256 F G] [WireFormat F G]
    (s : DkgP2P F) : Bytes :=
  u64Bytes s.sender.val ++ u64Bytes s.addressee.val ++ WireFormat.scalarBytes G s.share

def DkgMessage.encode [WireFormat F G] : DkgMessage F G → Bytes
  | .commit b => 1 :: b.encode
  | .reveal b => 2 :: b.encode F
  | .share s => 3 :: s.encode G

end Encode

variable {M : Type}

/-- `(sid ‖ phase ‖ round ‖ from ‖ to ‖ payload)`, over the payload's encoding. -/
def Envelope.encode (payloadBytes : M → Bytes) (env : Envelope M) : Bytes :=
  putBytes env.sid ++ [phaseCode env.phase, UInt8.ofNat env.round] ++ u64Bytes env.sender.val ++
    (match env.addressee with
      | none => [0]
      | some j => 1 :: u64Bytes j.val) ++
    putBytes (payloadBytes env.payload)

namespace tags

def transportSign : Bytes := utf8 "OHM-ECDSA/v0.1/transport-sign"

end tags

/-- What a transport signature covers. -/
def signingBytes (payloadBytes : M → Bytes) (env : Envelope M) : Bytes :=
  tags.transportSign ++ env.encode payloadBytes

def SignedEnvelope.encode (payloadBytes : M → Bytes) (env : SignedEnvelope M) : Bytes :=
  env.envelope.encode payloadBytes ++ env.signature

/-! ## Algorithm: decoding -/

def phaseDecode (code : UInt8) : Option Phase :=
  match code.toNat with
  | 1 => some .keyGen
  | 2 => some .triples
  | 3 => some .presign
  | 4 => some .sign
  | 5 => some .refresh
  | _ => none

/-- `usize::try_from(v).ok()`. -/
def usizeOf (v : Nat) : Option Usize := if h : v < 2 ^ 64 then some ⟨v, h⟩ else none

def takeU64 : Decoder Nat := do
  let a ← takeN 8
  return ofBigEndian a

def takeBytes : Decoder Bytes := do
  let n ← takeU64
  -- `used.checked_add(n)?`
  if 8 + n < 2 ^ 64 then takeN n else fail

def takeScalar (F G : Type) [Field F] [AddCommGroup G] [Module F G] [K256 F G] [WireFormat F G] : Decoder F := do
  let a ← takeN 32
  ofOption (WireFormat.scalarFromRepr G a)

/-- Identity or compressed; the compressed form is read with its tag. -/
def takePoint (F G : Type) [Field F] [AddCommGroup G] [Module F G] [K256 F G] [WireFormat F G] : Decoder G := do
  let tag ← takeByte
  if tag = 0 then return 0
  else if tag = 2 ∨ tag = 3 then do
    let x ← takeN 32
    ofOption (WireFormat.pointFromCompressed F (tag :: x))
  else fail

/-- `Signature::from_slice`: both scalars canonical, neither zero. -/
def signatureOk (F G : Type) [Field F] [DecidableEq F] [AddCommGroup G] [Module F G] [K256 F G] [WireFormat F G]
    (b : Bytes) : Bool :=
  (WireFormat.scalarFromRepr (F := F) G (b.take 32)).any (· != 0) &&
    (WireFormat.scalarFromRepr (F := F) G (b.drop 32)).any (· != 0)

def takeSignature (F G : Type) [Field F] [DecidableEq F] [AddCommGroup G] [Module F G] [K256 F G] [WireFormat F G] :
    Decoder Bytes := do
  let a ← takeN 64
  if signatureOk F G a then return a else fail

section Decode

variable (F G : Type) [Field F] [DecidableEq F] [AddCommGroup G] [Module F G] [DecidableEq G] [K256 F G]
  [WireFormat F G]

def FeldmanCommitment.decode : Decoder (FeldmanCommitment G) := do
  let n ← takeU64
  -- every point takes a byte: a larger count is refused before the loop
  require n
  let points ← (takePoint F G).times n
  return ⟨points⟩

def DkgBcast1.decode : Decoder DkgBcast1 := do
  let sender ← takeU64
  let hash ← takeBytes
  if hash.length = 32 then do
    let sender ← ofOption (usizeOf sender)
    return ⟨sender, hash⟩
  else fail

def DkgBcast2.decode : Decoder (DkgBcast2 G) := do
  let sender ← takeU64
  let com ← FeldmanCommitment.decode F G
  let sender ← ofOption (usizeOf sender)
  return ⟨sender, com⟩

def DkgP2P.decode : Decoder (DkgP2P F) := do
  let sender ← takeU64
  let addressee ← takeU64
  let share ← takeScalar F G
  let sender ← ofOption (usizeOf sender)
  let addressee ← ofOption (usizeOf addressee)
  return ⟨sender, addressee, share⟩

def DkgMessage.decode : Decoder (DkgMessage F G) := do
  let tag ← takeByte
  match tag.toNat with
  | 1 => do
    let b ← DkgBcast1.decode
    return .commit b
  | 2 => do
    let b ← DkgBcast2.decode F G
    return .reveal b
  | 3 => do
    let s ← DkgP2P.decode F G
    return .share s
  | _ => fail

end Decode

/-- The addressee field. -/
def takeAddressee : Decoder (Option PartyId) := do
  let tag ← takeByte
  match tag.toNat with
  | 0 => return none
  | 1 => do
    let j ← takeU64
    let j ← ofOption (usizeOf j)
    return some j
  | _ => fail

def Envelope.decode (payload : Decoder M) : Decoder (Envelope M) := do
  let sid ← takeBytes
  let code ← takeByte
  let phase ← ofOption (phaseDecode code)
  let round ← takeByte
  let sender ← takeU64
  let addressee ← takeAddressee
  let payloadBytes ← takeBytes
  -- the payload field must decode exactly
  let payload ← ofOption (payload.exactly payloadBytes)
  let sender ← ofOption (usizeOf sender)
  return ⟨sid, phase, round.toNat, sender, addressee, payload⟩

def SignedEnvelope.decode (F G : Type) [Field F] [DecidableEq F] [AddCommGroup G] [Module F G] [K256 F G]
    [WireFormat F G] (payload : Decoder M) : Decoder (SignedEnvelope M) := do
  let envelope ← Envelope.decode payload
  let signature ← takeSignature F G
  return ⟨envelope, signature⟩

/-! ## What fits on the wire -/

def FeldmanCommitment.Fits {G : Type} (com : FeldmanCommitment G) : Prop := com.points.length < 2 ^ 64

def DkgMessage.Fits {F G : Type} : DkgMessage F G → Prop
  | .commit b => b.hash.length = 32
  | .reveal b => b.com.Fits
  | .share _ => True

def Envelope.Fits (payloadBytes : M → Bytes) (FitsM : M → Prop) (env : Envelope M) : Prop :=
  8 + env.sid.length < 2 ^ 64 ∧ env.round < 256 ∧ FitsM env.payload ∧
    8 + (payloadBytes env.payload).length < 2 ^ 64

def SignedEnvelope.Fits (F G : Type) [Field F] [DecidableEq F] [AddCommGroup G] [Module F G] [K256 F G]
    [WireFormat F G] (payloadBytes : M → Bytes) (FitsM : M → Prop) (env : SignedEnvelope M) : Prop :=
  env.envelope.Fits payloadBytes FitsM ∧ env.signature.length = 64 ∧ signatureOk F G env.signature = true

/-! ## Lemmas: fields -/

theorem u64Bytes_length (v : Nat) : (u64Bytes v).length = 8 := bigEndian_length 8 v

theorem usizeOf_val (j : Usize) : usizeOf j.val = some j := dif_pos j.isLt

theorem usizeOf_iff {v : Nat} {j : Usize} : usizeOf v = some j ↔ v = j.val := by
  constructor
  · intro h
    unfold usizeOf at h
    by_cases hv : v < 2 ^ 64
    · rw [dif_pos hv] at h
      cases h
      rfl
    · rw [dif_neg hv] at h
      cases h
  · rintro rfl
    exact usizeOf_val j

theorem phaseDecode_iff {code : UInt8} {phase : Phase} : phaseDecode code = some phase ↔ code = phaseCode phase := by
  constructor
  · intro h
    apply UInt8.toNat_inj.mp
    unfold phaseDecode at h
    split at h <;> cases h <;> assumption
  · rintro rfl
    cases phase <;> rfl

theorem takeU64_reads (n : Nat) : Reads n takeU64 fun v w => v < 2 ^ 64 ∧ w = u64Bytes v := by
  refine (Reads.bind' (Reads.takeN 8) fun a => Reads.pure (ofBigEndian a)).congr fun v w => ?_
  constructor
  · rintro ⟨a, w1, w2, ⟨rfl, hlen⟩, ⟨rfl, rfl⟩, rfl⟩
    have hlt := ofBigEndian_lt w1
    have hback := bigEndian_ofBigEndian w1
    rw [hlen] at hlt hback
    exact ⟨hlt, by rw [List.append_nil]; exact hback.symm⟩
  · rintro ⟨hv, rfl⟩
    have hmod : ofBigEndian (u64Bytes v) = v := (ofBigEndian_bigEndian 8 v).trans (Nat.mod_eq_of_lt hv)
    exact ⟨u64Bytes v, u64Bytes v, [], ⟨rfl, bigEndian_length 8 v⟩, ⟨hmod.symm, rfl⟩, (List.append_nil _).symm⟩

/-- A `usize` field. -/
theorem usize_reads {α : Type} {n : Nat} {f : Nat → Decoder α} {E : Usize → α → List UInt8 → Prop}
    (hf : ∀ j : Usize, Reads n (f j.val) (E j)) :
    Reads n (takeU64 >>= f) fun r w => ∃ (j : Usize) (w' : List UInt8), E j r w' ∧ w = u64Bytes j.val ++ w' := by
  have hrest : ∀ v w, v < 2 ^ 64 ∧ w = u64Bytes v → w.length ≤ n →
      Reads (n - w.length) (f v) fun r w' => ∃ j : Usize, j.val = v ∧ E j r w' := by
    rintro v w ⟨hv, -⟩ -
    refine ((hf ⟨v, hv⟩).mono (Nat.sub_le _ _)).congr fun r w' => ?_
    constructor
    · intro hE
      exact ⟨⟨v, hv⟩, rfl, hE⟩
    · rintro ⟨j, rfl, hE⟩
      exact hE
  refine ((takeU64_reads n).bind hrest).congr fun r w => ?_
  constructor
  · rintro ⟨v, w1, w2, ⟨-, rfl⟩, ⟨j, rfl, hE⟩, rfl⟩
    exact ⟨j, w2, hE, rfl⟩
  · rintro ⟨j, w', hE, rfl⟩
    exact ⟨j.val, _, w', ⟨j.isLt, rfl⟩, ⟨j, rfl, hE⟩, rfl⟩

theorem takeBytes_lawful : Lawful putBytes takeBytes fun b => 8 + b.length < 2 ^ 64 := by
  intro n
  refine ((takeU64_reads n).bind' fun k => (Reads.takeN k).guard).congr fun v w => ?_
  constructor
  · rintro ⟨k, w1, w2, ⟨-, rfl⟩, ⟨hk, rfl, rfl⟩, rfl⟩
    exact ⟨hk, rfl⟩
  · rintro ⟨hv, rfl⟩
    exact ⟨v.length, _, v, ⟨by omega, rfl⟩, ⟨hv, rfl, rfl⟩, rfl⟩

section Fields

variable {F G : Type} [Field F] [DecidableEq F] [AddCommGroup G] [Module F G] [DecidableEq G] [K256 F G]
  [WireFormat F G]

theorem takeScalar_lawful : Lawful (WireFormat.scalarBytes G : F → Bytes) (takeScalar F G) fun _ => True := by
  intro n
  refine (Reads.bind' (Reads.takeN 32) fun a => Reads.ofOption (WireFormat.scalarFromRepr (F := F) G a)).congr
    fun v w => ?_
  constructor
  · rintro ⟨a, w1, w2, ⟨rfl, hlen⟩, ⟨hs, rfl⟩, rfl⟩
    rw [List.append_nil]
    exact ⟨trivial, (WireFormat.scalarFromRepr_iff _ _ hlen).mp hs⟩
  · rintro ⟨-, rfl⟩
    have hlen := WireFormat.scalarBytes_length (G := G) v
    exact ⟨_, _, [], ⟨rfl, hlen⟩, ⟨(WireFormat.scalarFromRepr_iff _ _ hlen).mpr rfl, rfl⟩, (List.append_nil _).symm⟩

/-- Each point has one textual form: the identity one byte, the others 33. -/
theorem takePoint_lawful : Lawful (K256.pointBytes F : G → Bytes) (takePoint F G) fun _ => True := by
  intro n
  have hcompressed : ∀ tag : UInt8, Reads n
      (if tag = 0 then return 0
        else if tag = 2 ∨ tag = 3 then do
          let x ← takeN 32
          ofOption (WireFormat.pointFromCompressed F (tag :: x))
        else fail : Decoder G)
      fun v w => tag :: w = K256.pointBytes F v := by
    intro tag
    by_cases h0 : tag = 0
    · rw [if_pos h0]
      refine (Reads.pure (0 : G)).congr fun v w => ?_
      constructor
      · rintro ⟨rfl, rfl⟩
        rw [h0, WireFormat.pointBytes_zero]
      · intro h
        by_cases hv : v = 0
        · rw [hv, WireFormat.pointBytes_zero] at h
          exact ⟨hv, (List.cons.inj h).2⟩
        · obtain ⟨tag', x, htag, -, hx⟩ := WireFormat.pointBytes_compressed (F := F) v hv
          rw [hx] at h
          rw [← (List.cons.inj h).1, h0] at htag
          exact absurd htag (by decide)
    · rw [if_neg h0]
      by_cases htag : tag = 2 ∨ tag = 3
      · rw [if_pos htag]
        refine (Reads.bind' (Reads.takeN 32) fun x =>
          Reads.ofOption (WireFormat.pointFromCompressed F (tag :: x) : Option G)).congr fun v w => ?_
        constructor
        · rintro ⟨x, w1, w2, ⟨rfl, hlen⟩, ⟨hp, rfl⟩, rfl⟩
          rw [List.append_nil]
          exact (WireFormat.pointFromCompressed_iff tag _ v htag hlen).mp hp
        · intro h
          have hlen : w.length = 32 := by
            by_cases hv : v = 0
            · rw [hv, WireFormat.pointBytes_zero] at h
              exact absurd (List.cons.inj h).1 h0
            · obtain ⟨tag', x, -, hlen, hx⟩ := WireFormat.pointBytes_compressed (F := F) v hv
              rw [hx] at h
              rw [(List.cons.inj h).2, hlen]
          exact ⟨w, w, [], ⟨rfl, hlen⟩, ⟨(WireFormat.pointFromCompressed_iff tag w v htag hlen).mpr h, rfl⟩,
            (List.append_nil _).symm⟩
      · rw [if_neg htag]
        refine Reads.fail.congr fun v w => ?_
        refine iff_of_false not_false fun h => ?_
        by_cases hv : v = 0
        · rw [hv, WireFormat.pointBytes_zero] at h
          exact h0 (List.cons.inj h).1
        · obtain ⟨tag', x, htag', -, hx⟩ := WireFormat.pointBytes_compressed (F := F) v hv
          rw [hx] at h
          rw [(List.cons.inj h).1] at htag
          exact htag htag'
  refine (Reads.bind' Reads.takeByte hcompressed).congr fun v w => ?_
  constructor
  · rintro ⟨tag, w1, w2, rfl, h, rfl⟩
    exact ⟨trivial, h⟩
  · rintro ⟨-, rfl⟩
    have hne : K256.pointBytes F v ≠ [] := by
      by_cases hv : v = 0
      · rw [hv, WireFormat.pointBytes_zero]
        exact List.cons_ne_nil _ _
      · obtain ⟨tag, x, -, -, hx⟩ := WireFormat.pointBytes_compressed (F := F) v hv
        rw [hx]
        exact List.cons_ne_nil _ _
    obtain ⟨tag, x, hx⟩ := List.exists_cons_of_ne_nil hne
    exact ⟨tag, [tag], x, rfl, hx.symm, hx⟩

theorem takeSignature_lawful :
    Lawful (fun b : Bytes => b) (takeSignature F G) fun b => b.length = 64 ∧ signatureOk F G b = true := by
  intro n
  refine (Reads.bind' (Reads.takeN 64) fun a => (Reads.pure a).guard).congr fun v w => ?_
  constructor
  · rintro ⟨a, w1, w2, ⟨rfl, hlen⟩, ⟨hok, rfl, rfl⟩, rfl⟩
    exact ⟨⟨hlen, hok⟩, List.append_nil _⟩
  · rintro ⟨⟨hlen, hok⟩, rfl⟩
    exact ⟨w, w, [], ⟨rfl, hlen⟩, ⟨hok, rfl, rfl⟩, (List.append_nil _).symm⟩

theorem signatureOk_append {r s : F} (hr : r ≠ 0) (hs : s ≠ 0) :
    signatureOk F G (WireFormat.scalarBytes G r ++ WireFormat.scalarBytes G s) = true := by
  have hrepr : ∀ x : F, WireFormat.scalarFromRepr (F := F) G (WireFormat.scalarBytes G x) = some x :=
    fun x => (WireFormat.scalarFromRepr_iff _ x (WireFormat.scalarBytes_length x)).mpr rfl
  have hlen := WireFormat.scalarBytes_length (G := G) r
  unfold signatureOk
  rw [List.take_left' hlen, List.drop_left' hlen, hrepr, hrepr]
  simp [hr, hs]

theorem pointBytes_length_pos (P : G) : 0 < (K256.pointBytes F P).length := by
  by_cases hP : P = 0
  · rw [hP, WireFormat.pointBytes_zero]
    decide
  · obtain ⟨tag, x, -, -, hx⟩ := WireFormat.pointBytes_compressed (F := F) P hP
    rw [hx]
    exact Nat.succ_pos _

theorem pointBytes_length {P : G} (hP : P ≠ 0) : (K256.pointBytes F P).length = 33 := by
  obtain ⟨tag, x, -, hx, heq⟩ := WireFormat.pointBytes_compressed (F := F) P hP
  rw [heq, List.length_cons, hx]

/-- Points other than the identity take 33 bytes each. -/
theorem length_flatMap_pointBytes {l : List G} (h : ∀ P ∈ l, P ≠ 0) :
    (l.flatMap (K256.pointBytes F)).length = 33 * l.length := by
  induction l with
  | nil => rfl
  | cons P l ih =>
    rw [List.flatMap_cons, List.length_append, pointBytes_length (h P List.mem_cons_self),
      ih fun Q hQ => h Q (List.mem_cons_of_mem _ hQ), List.length_cons]
    omega

theorem length_le_flatMap {α : Type} (f : α → List UInt8) (hf : ∀ a, 0 < (f a).length) (l : List α) :
    l.length ≤ (l.flatMap f).length := by
  induction l with
  | nil => exact Nat.le_refl 0
  | cons a l ih =>
    have := hf a
    rw [List.flatMap_cons, List.length_append, List.length_cons]
    omega

/-! ## Lemmas: messages -/

theorem FeldmanCommitment.decode_lawful :
    Lawful (FeldmanCommitment.encode F : FeldmanCommitment G → Bytes) (FeldmanCommitment.decode F G)
      FeldmanCommitment.Fits := by
  intro n
  have hpoints : ∀ k, Reads n (do
      let points ← (takePoint F G).times k
      return (⟨points⟩ : FeldmanCommitment G))
      fun v w => v.points.length = k ∧ w = v.points.flatMap (K256.pointBytes F) := by
    intro k
    refine ((Reads.times (takePoint_lawful n) k).bind' fun points => Reads.pure _).congr fun v w => ?_
    constructor
    · rintro ⟨points, w1, w2, ⟨hlen, -, rfl⟩, ⟨rfl, rfl⟩, rfl⟩
      exact ⟨hlen, List.append_nil _⟩
    · rintro ⟨hlen, rfl⟩
      exact ⟨v.points, _, [], ⟨hlen, fun _ _ => trivial, rfl⟩, ⟨rfl, rfl⟩, (List.append_nil _).symm⟩
  have hchecked : ∀ k, Reads n (do
      require k
      let points ← (takePoint F G).times k
      return (⟨points⟩ : FeldmanCommitment G))
      fun v w => v.points.length = k ∧ w = v.points.flatMap (K256.pointBytes F) := by
    intro k
    refine Reads.require_bind (hpoints k) ?_
    rintro v w ⟨rfl, rfl⟩
    exact length_le_flatMap _ pointBytes_length_pos _
  refine ((takeU64_reads n).bind' hchecked).congr fun v w => ?_
  constructor
  · rintro ⟨k, w1, w2, ⟨hk, rfl⟩, ⟨rfl, rfl⟩, rfl⟩
    exact ⟨hk, rfl⟩
  · rintro ⟨hfits, rfl⟩
    exact ⟨_, _, _, ⟨hfits, rfl⟩, ⟨rfl, rfl⟩, rfl⟩

theorem DkgBcast1.decode_lawful : Lawful DkgBcast1.encode DkgBcast1.decode fun b => b.hash.length = 32 := by
  intro n
  refine (usize_reads fun j => (takeBytes_lawful n).bind' fun hash =>
    ((Reads.ofOption (usizeOf j.val)).bind' fun sender =>
      Reads.pure (⟨sender, hash⟩ : DkgBcast1)).guard).congr fun v w => ?_
  constructor
  · rintro ⟨j, _, ⟨hash, _, _, ⟨-, rfl⟩, ⟨hlen, sender, _, _, ⟨hj, rfl⟩, ⟨rfl, rfl⟩, rfl⟩, rfl⟩, rfl⟩
    rw [usizeOf_val] at hj
    cases hj
    exact ⟨hlen, by simp [DkgBcast1.encode]⟩
  · rintro ⟨hlen, rfl⟩
    exact ⟨v.sender, _, ⟨v.hash, _, [], ⟨by omega, rfl⟩, ⟨hlen, v.sender, [], [], ⟨usizeOf_val _, rfl⟩, ⟨rfl, rfl⟩, rfl⟩,
      (List.append_nil _).symm⟩, rfl⟩

theorem DkgBcast2.decode_lawful :
    Lawful (DkgBcast2.encode F : DkgBcast2 G → Bytes) (DkgBcast2.decode F G) fun b => b.com.Fits := by
  intro n
  refine (usize_reads fun j => (FeldmanCommitment.decode_lawful n).bind' fun com =>
    (Reads.ofOption (usizeOf j.val)).bind' fun sender =>
      Reads.pure (⟨sender, com⟩ : DkgBcast2 G)).congr fun v w => ?_
  constructor
  · rintro ⟨j, _, ⟨com, _, _, ⟨hfits, rfl⟩, ⟨sender, _, _, ⟨hj, rfl⟩, ⟨rfl, rfl⟩, rfl⟩, rfl⟩, rfl⟩
    rw [usizeOf_val] at hj
    cases hj
    exact ⟨hfits, by simp [DkgBcast2.encode]⟩
  · rintro ⟨hfits, rfl⟩
    exact ⟨v.sender, _, ⟨v.com, _, [], ⟨hfits, rfl⟩, ⟨v.sender, [], [], ⟨usizeOf_val _, rfl⟩, ⟨rfl, rfl⟩, rfl⟩,
      (List.append_nil _).symm⟩, rfl⟩

theorem DkgP2P.decode_lawful :
    Lawful (DkgP2P.encode G : DkgP2P F → Bytes) (DkgP2P.decode F G) fun _ => True := by
  intro n
  refine (usize_reads fun j => usize_reads fun i => (takeScalar_lawful n).bind' fun share =>
    (Reads.ofOption (usizeOf j.val)).bind' fun sender => (Reads.ofOption (usizeOf i.val)).bind' fun addressee =>
      Reads.pure (⟨sender, addressee, share⟩ : DkgP2P F)).congr fun v w => ?_
  constructor
  · rintro ⟨j, _, ⟨i, _, ⟨share, _, _, ⟨-, rfl⟩, ⟨sender, _, _, ⟨hj, rfl⟩, ⟨addressee, _, _, ⟨hi, rfl⟩, ⟨rfl, rfl⟩,
      rfl⟩, rfl⟩, rfl⟩, rfl⟩, rfl⟩
    rw [usizeOf_val] at hj hi
    cases hj
    cases hi
    exact ⟨trivial, by simp [DkgP2P.encode]⟩
  · rintro ⟨-, rfl⟩
    exact ⟨v.sender, _, ⟨v.addressee, _, ⟨v.share, _, [], ⟨trivial, rfl⟩, ⟨v.sender, [], [], ⟨usizeOf_val _, rfl⟩,
      ⟨v.addressee, [], [], ⟨usizeOf_val _, rfl⟩, ⟨rfl, rfl⟩, rfl⟩, rfl⟩, (List.append_nil _).symm⟩, rfl⟩,
      List.append_assoc _ _ _⟩

/-- A tag, then what the tag says. -/
theorem tagged_reads {α : Type} {n : Nat} {enc : α → List UInt8} {Valid : α → Prop} {body : UInt8 → Decoder α}
    (hne : ∀ v, enc v ≠ []) (hbody : ∀ tag, Reads n (body tag) fun v w => Valid v ∧ tag :: w = enc v) :
    Reads n (takeByte >>= body) fun v w => Valid v ∧ w = enc v := by
  refine (Reads.bind' Reads.takeByte hbody).congr fun v w => ?_
  constructor
  · rintro ⟨tag, w1, w2, rfl, ⟨hv, h⟩, rfl⟩
    exact ⟨hv, h⟩
  · rintro ⟨hv, rfl⟩
    obtain ⟨tag, x, hx⟩ := List.exists_cons_of_ne_nil (hne v)
    exact ⟨tag, [tag], x, rfl, ⟨hv, hx.symm⟩, hx⟩

/-- One variant: its tag in front of the encoding of its content. -/
theorem variant_reads {α β : Type} {n : Nat} {d : Decoder α} {enc : α → List UInt8} {Valid : α → Prop}
    (h : Reads n d fun v w => Valid v ∧ w = enc v) (mk : α → β) :
    Reads n (do
      let a ← d
      return mk a) fun v w => ∃ a, v = mk a ∧ Valid a ∧ w = enc a := by
  refine (h.bind' fun a => Reads.pure (mk a)).congr fun v w => ?_
  constructor
  · rintro ⟨a, w1, w2, ⟨ha, rfl⟩, ⟨rfl, rfl⟩, rfl⟩
    exact ⟨a, rfl, ha, List.append_nil _⟩
  · rintro ⟨a, rfl, ha, rfl⟩
    exact ⟨a, _, [], ⟨ha, rfl⟩, ⟨rfl, rfl⟩, (List.append_nil _).symm⟩

theorem DkgMessage.decode_lawful :
    Lawful (DkgMessage.encode : DkgMessage F G → Bytes) (DkgMessage.decode F G) DkgMessage.Fits := by
  intro n
  refine tagged_reads (fun v => by cases v <;> exact List.cons_ne_nil _ _) fun tag => ?_
  split
  · rename_i htag
    obtain rfl : tag = 1 := UInt8.toNat_inj.mp htag
    refine (variant_reads (DkgBcast1.decode_lawful n) DkgMessage.commit).congr fun v w => ?_
    cases v <;> simp [DkgMessage.encode, DkgMessage.Fits]
  · rename_i htag
    obtain rfl : tag = 2 := UInt8.toNat_inj.mp htag
    refine (variant_reads (DkgBcast2.decode_lawful n) DkgMessage.reveal).congr fun v w => ?_
    cases v <;> simp [DkgMessage.encode, DkgMessage.Fits]
  · rename_i htag
    obtain rfl : tag = 3 := UInt8.toNat_inj.mp htag
    refine (variant_reads (DkgP2P.decode_lawful n) DkgMessage.share).congr fun v w => ?_
    cases v <;> simp [DkgMessage.encode, DkgMessage.Fits]
  · rename_i h1 h2 h3
    refine Reads.fail.congr fun v w => iff_of_false not_false ?_
    rintro ⟨-, h⟩
    cases v
    · exact h1 (congrArg UInt8.toNat (List.cons.inj h).1)
    · exact h2 (congrArg UInt8.toNat (List.cons.inj h).1)
    · exact h3 (congrArg UInt8.toNat (List.cons.inj h).1)

end Fields

/-- The addressee field as it is written. -/
def addresseeBytes : Option PartyId → Bytes
  | none => [0]
  | some j => 1 :: u64Bytes j.val

theorem takeAddressee_lawful : Lawful addresseeBytes takeAddressee fun _ => True := by
  intro n
  refine tagged_reads (fun v => by cases v <;> exact List.cons_ne_nil _ _) fun tag => ?_
  split
  · rename_i htag
    obtain rfl : tag = 0 := UInt8.toNat_inj.mp htag
    refine (Reads.pure (none : Option PartyId)).congr fun v w => ?_
    cases v <;> simp [addresseeBytes]
  · rename_i htag
    obtain rfl : tag = 1 := UInt8.toNat_inj.mp htag
    refine (usize_reads fun j => (Reads.ofOption (usizeOf j.val)).bind' fun i => Reads.pure (some i)).congr
      fun v w => ?_
    constructor
    · rintro ⟨j, _, ⟨i, _, _, ⟨hi, rfl⟩, ⟨rfl, rfl⟩, rfl⟩, rfl⟩
      rw [usizeOf_val] at hi
      cases hi
      exact ⟨trivial, by simp [addresseeBytes]⟩
    · rintro ⟨-, h⟩
      rcases v with _ | j
      · cases h
      · exact ⟨j, [], ⟨j, [], [], ⟨usizeOf_val j, rfl⟩, ⟨rfl, rfl⟩, rfl⟩, by
          rw [(List.cons.inj h).2, List.append_nil]⟩
  · rename_i h0 h1
    refine Reads.fail.congr fun v w => iff_of_false not_false ?_
    rintro ⟨-, h⟩
    rcases v with _ | j
    · exact h0 (congrArg UInt8.toNat (List.cons.inj h).1)
    · exact h1 (congrArg UInt8.toNat (List.cons.inj h).1)

section Payload

variable {payloadBytes : M → Bytes} {payload : Decoder M} {FitsM : M → Prop}

/-- The payload field: read exactly, by a decoder that reads all shorter strings. -/
theorem payload_reads {α : Type} {n : Nat} {f : M → Decoder α} {E : M → α → List UInt8 → Prop}
    (h : ∀ m < n, Reads m payload fun v w => FitsM v ∧ w = payloadBytes v) (hf : ∀ v, Reads n (f v) (E v)) :
    Reads n (takeBytes >>= fun bytes => ofOption (payload.exactly bytes) >>= f) fun r w =>
      ∃ v w', FitsM v ∧ 8 + (payloadBytes v).length < 2 ^ 64 ∧ E v r w' ∧ w = putBytes (payloadBytes v) ++ w' := by
  have hbody : ∀ bytes w, (8 + bytes.length < 2 ^ 64 ∧ w = putBytes bytes) → w.length ≤ n →
      Reads (n - w.length) (ofOption (payload.exactly bytes) >>= f)
        fun r w' => ∃ v, (FitsM v ∧ bytes = payloadBytes v) ∧ E v r w' := by
    rintro bytes w ⟨-, rfl⟩ hw
    have hshort : bytes.length < n := by
      unfold putBytes u64Bytes at hw
      simp only [List.length_append, List.length_map, List.length_reverse, List.length_range] at hw
      omega
    refine ((Reads.ofOption _).bind' fun v => (hf v).mono (Nat.sub_le _ _)).congr fun r w' => ?_
    constructor
    · rintro ⟨v, w1, w2, ⟨hv, rfl⟩, hE, rfl⟩
      exact ⟨v, ((h _ hshort).exactly v).mp hv, hE⟩
    · rintro ⟨v, hv, hE⟩
      exact ⟨v, [], w', ⟨((h _ hshort).exactly v).mpr hv, rfl⟩, hE, rfl⟩
  refine ((takeBytes_lawful n).bind hbody).congr fun r w => ?_
  constructor
  · rintro ⟨bytes, w1, w2, ⟨hlen, rfl⟩, ⟨v, ⟨hv, rfl⟩, hE⟩, rfl⟩
    exact ⟨v, w2, hv, hlen, hE, rfl⟩
  · rintro ⟨v, w', hv, hlen, hE, rfl⟩
    exact ⟨_, _, w', ⟨hlen, rfl⟩, ⟨v, ⟨hv, rfl⟩, hE⟩, rfl⟩

/-- **An envelope**, over the inputs whose payload fields the payload's decoder reads. -/
theorem Envelope.decode_reads {n : Nat} (h : ∀ m < n, Reads m payload fun v w => FitsM v ∧ w = payloadBytes v) :
    Reads n (Envelope.decode payload) fun env w =>
      env.Fits payloadBytes FitsM ∧ w = env.encode payloadBytes := by
  refine ((takeBytes_lawful n).bind' fun sid => Reads.takeByte.bind' fun code =>
    (Reads.ofOption (phaseDecode code)).bind' fun phase => Reads.takeByte.bind' fun round =>
    usize_reads fun sender => (takeAddressee_lawful n).bind' fun addressee => payload_reads h fun payload =>
    (Reads.ofOption (usizeOf sender.val)).bind' fun j =>
      Reads.pure (⟨sid, phase, round.toNat, j, addressee, payload⟩ : Envelope M)).congr fun env w => ?_
  constructor
  · rintro ⟨sid, _, _, ⟨hsid, rfl⟩, ⟨code, _, _, rfl, ⟨phase, _, _, ⟨hphase, rfl⟩, ⟨round, _, _, rfl, ⟨sender, _,
      ⟨addressee, _, _, ⟨-, rfl⟩, ⟨payload, _, hpayload, hlen, ⟨j, _, _, ⟨hj, rfl⟩, ⟨rfl, rfl⟩, rfl⟩, rfl⟩, rfl⟩,
      rfl⟩, rfl⟩, rfl⟩, rfl⟩, rfl⟩
    rw [usizeOf_val] at hj
    cases hj
    rw [phaseDecode_iff] at hphase
    refine ⟨⟨hsid, round.toNat_lt, hpayload, hlen⟩, ?_⟩
    simp only [Envelope.encode, hphase, UInt8.ofNat_toNat, List.append_nil, List.nil_append, List.append_assoc,
      List.cons_append]
    rfl
  · rintro ⟨⟨hsid, hround, hpayload, hlen⟩, rfl⟩
    refine ⟨env.sid, _, _, ⟨hsid, rfl⟩, ⟨phaseCode env.phase, _, _, rfl, ⟨env.phase, [], _,
      ⟨phaseDecode_iff.mpr rfl, rfl⟩, ⟨UInt8.ofNat env.round, _, _, rfl, ⟨env.sender, _, ⟨env.addressee, _, _,
      ⟨trivial, rfl⟩, ⟨env.payload, [], hpayload, hlen, ⟨env.sender, [], [], ⟨usizeOf_val _, rfl⟩, ⟨?_, rfl⟩, rfl⟩,
      rfl⟩, rfl⟩, rfl⟩, rfl⟩, rfl⟩, rfl⟩, ?_⟩
    · have hbyte : (UInt8.ofNat env.round).toNat = env.round := by
        rw [UInt8.toNat_ofNat']
        omega
      rw [hbyte]
    · simp only [Envelope.encode, List.append_nil, List.nil_append, List.append_assoc, List.cons_append]
      rfl

variable {F G : Type} [Field F] [DecidableEq F] [AddCommGroup G] [Module F G] [DecidableEq G] [K256 F G]
  [WireFormat F G]

theorem SignedEnvelope.decode_reads {n : Nat}
    (h : ∀ m < n, Reads m payload fun v w => FitsM v ∧ w = payloadBytes v) :
    Reads n (SignedEnvelope.decode F G payload) fun env w =>
      env.Fits F G payloadBytes FitsM ∧ w = env.encode payloadBytes := by
  refine ((Envelope.decode_reads h).bind' fun envelope => (takeSignature_lawful (F := F) (G := G) n).bind'
    fun signature => Reads.pure (⟨envelope, signature⟩ : SignedEnvelope M)).congr fun env w => ?_
  constructor
  · rintro ⟨envelope, _, _, ⟨hfits, rfl⟩, ⟨signature, _, _, ⟨hsig, rfl⟩, ⟨rfl, rfl⟩, rfl⟩, rfl⟩
    exact ⟨⟨hfits, hsig⟩, by rw [List.append_nil]; rfl⟩
  · rintro ⟨⟨hfits, hsig⟩, rfl⟩
    exact ⟨env.envelope, _, _, ⟨hfits, rfl⟩, ⟨env.signature, _, [], ⟨hsig, rfl⟩, ⟨rfl, rfl⟩, rfl⟩, by
      rw [List.append_nil]; rfl⟩

end Payload

/-! ## Theorems -/

section Theorems

variable (F G : Type) [Field F] [DecidableEq F] [AddCommGroup G] [Module F G] [DecidableEq G] [K256 F G]
  [WireFormat F G]

/-- **The core's wire codec is a canonical bijection**, for every payload type whose
codec is one, and what is signed determines the envelope. -/
theorem wire_codec_canonical :
    Canonical (WireFormat.scalarBytes G) (takeScalar F G) (fun _ => True) ∧
    Canonical (K256.pointBytes F) (takePoint F G) (fun _ => True) ∧
    Canonical (FeldmanCommitment.encode F) (FeldmanCommitment.decode F G) FeldmanCommitment.Fits ∧
    Canonical DkgMessage.encode (DkgMessage.decode F G) DkgMessage.Fits ∧
    ∀ {M : Type} (payloadBytes : M → Bytes) (payload : Decoder M) (FitsM : M → Prop),
      Canonical payloadBytes payload FitsM →
        Canonical (Envelope.encode payloadBytes) (Envelope.decode payload) (Envelope.Fits payloadBytes FitsM) ∧
        Canonical (SignedEnvelope.encode payloadBytes) (SignedEnvelope.decode F G payload)
          (SignedEnvelope.Fits F G payloadBytes FitsM) ∧
        (∀ b b' env, (SignedEnvelope.decode F G payload).run b = some (env, b.length) →
          (SignedEnvelope.decode F G payload).run b' = some (env, b'.length) → b = b') ∧
        ∀ env env' : Envelope M, env.Fits payloadBytes FitsM → env'.Fits payloadBytes FitsM →
          signingBytes payloadBytes env = signingBytes payloadBytes env' → env = env' := by
  refine ⟨lawful_iff_canonical.mp takeScalar_lawful, lawful_iff_canonical.mp takePoint_lawful,
    lawful_iff_canonical.mp FeldmanCommitment.decode_lawful, lawful_iff_canonical.mp DkgMessage.decode_lawful, ?_⟩
  intro M payloadBytes payload FitsM hpayload
  have hp := lawful_iff_canonical.mpr hpayload
  have henv : Lawful (Envelope.encode payloadBytes) (Envelope.decode payload) (Envelope.Fits payloadBytes FitsM) :=
    fun n => Envelope.decode_reads fun m _ => hp m
  have hsigned : Lawful (SignedEnvelope.encode payloadBytes) (SignedEnvelope.decode F G payload)
      (SignedEnvelope.Fits F G payloadBytes FitsM) :=
    fun n => SignedEnvelope.decode_reads fun m _ => hp m
  refine ⟨lawful_iff_canonical.mp henv, lawful_iff_canonical.mp hsigned, fun b b' env hb hb' =>
    (lawful_iff_canonical.mp hsigned).unique hb hb', fun env env' hfits hfits' heq => ?_⟩
  exact henv.injective hfits hfits' (List.append_cancel_left heq)

end Theorems

end OhmEcdsa
