import OhmEcdsa.Store.Record

/-!
# The files of the setup (`setup/seed.rs`, `setup/ceremony.rs`)

Each file is the bytes of one value.  The decoders read the value off the front and do not
look whether the file goes on:

    decodeIdentity b = some v ↔ encodeIdentity v <+: b          (takeIdentity_lawful, Lawful.front_iff)

A verifying key has two texts, of which the encoders write one: the compressed point, and the
compact form where `y` is even.  A committee file is read whatever ids its registry has.
-/

set_option linter.unusedSectionVars false

namespace OhmEcdsa

open Codec Decoder

/-- A verifying key is a point other than the identity. -/
abbrev VerifyingKey (G : Type) [AddCommGroup G] := { P : G // P ≠ 0 }

/-- A secret key is a scalar other than zero. -/
abbrev SecretKey (F : Type) [Field F] := { s : F // s ≠ 0 }

/-- The key parsers of `k256` on inputs of the right length.  `VerifyingKey::from_sec1_bytes`, which is
`EncodedPoint::from_bytes`, `from_encoded_point` and `from_affine`, takes 33 bytes that are a compressed
point (tag 2 or 3) or a compact one: tag 5, for the point of even `y` with this `x`.
`SecretKey::from_bytes` takes the scalars other than zero. -/
class KeyFormat (F G : Type) [Field F] [AddCommGroup G] [Module F G] [K256 F G] [WireFormat F G] where
  verifyingKeyFromSec1 : Bytes → Option (VerifyingKey G)
  verifyingKeyFromSec1_iff : ∀ tag x key, tag ≠ 5 → x.length = 32 →
    (verifyingKeyFromSec1 (tag :: x) = some key ↔ tag :: x = K256.pointBytes F key.val)
  verifyingKeyFromSec1_compact : ∀ x, x.length = 32 → verifyingKeyFromSec1 (5 :: x) = verifyingKeyFromSec1 (2 :: x)
  secretKeyFromBytes : Bytes → Option (SecretKey F)
  secretKeyFromBytes_iff : ∀ b key, b.length = 32 →
    (secretKeyFromBytes b = some key ↔ b = WireFormat.scalarBytes G key.val)

variable {F G : Type} [Field F] [DecidableEq F] [AddCommGroup G] [Module F G] [DecidableEq G]

structure CommitteeInfo (G : Type) [AddCommGroup G] where
  params : Params
  x : G
  registry : List (PartyId × VerifyingKey G)

structure PartySeed (F G : Type) [Field F] where
  id : PartyId
  transportKey : SecretKey F
  keyShare : DkgOutput F G
  presigs : List (Presignature F G)

structure Identity (F : Type) [Field F] where
  id : PartyId
  transportKey : SecretKey F

structure PubBundle (G : Type) [AddCommGroup G] where
  id : PartyId
  verifyingKey : VerifyingKey G
  addr : String
  certPem : String

/-! ## Algorithm -/

section Encode

variable [K256 F G] [WireFormat F G]

def encodeCommittee (F : Type) {G : Type} [Field F] [AddCommGroup G] [Module F G] [K256 F G]
    (info : CommitteeInfo G) : Bytes :=
  u64Bytes info.params.n.val ++ u64Bytes info.params.t.val ++ K256.pointBytes F info.x ++
    countedBytes (keyedBytes fun key : VerifyingKey G => K256.pointBytes F key.val) info.registry

def encodeSeed (seed : PartySeed F G) : Bytes :=
  u64Bytes seed.id.val ++ WireFormat.scalarBytes G seed.transportKey.val ++ u64Bytes seed.keyShare.index.val ++
    WireFormat.scalarBytes G seed.keyShare.share ++ seed.keyShare.com.encode F ++
    countedBytes Presignature.encode seed.presigs

def encodeIdentity (G : Type) {F : Type} [Field F] [AddCommGroup G] [Module F G] [K256 F G] [WireFormat F G]
    (identity : Identity F) : Bytes :=
  u64Bytes identity.id.val ++ WireFormat.scalarBytes G identity.transportKey.val

def encodePub (F : Type) {G : Type} [Field F] [AddCommGroup G] [Module F G] [K256 F G] (bundle : PubBundle G) : Bytes :=
  u64Bytes bundle.id.val ++ K256.pointBytes F bundle.verifyingKey.val ++ putBytes (utf8 bundle.addr) ++
    putBytes (utf8 bundle.certPem)

end Encode

section Decode

variable (F G) [K256 F G] [WireFormat F G] [KeyFormat F G]

def takeVerifyingKey : Decoder (VerifyingKey G) := do
  let b ← takeN 33
  ofOption (KeyFormat.verifyingKeyFromSec1 F b)

def takeSecretKey : Decoder (SecretKey F) := do
  let b ← takeN 32
  ofOption (KeyFormat.secretKeyFromBytes G b)

def takeCommittee : Decoder (CommitteeInfo G) := do
  let n ← takeU64
  let t ← takeU64
  let x ← takePoint F G
  let registry ← counted (keyed (takeVerifyingKey F G))
  let n ← ofOption (usizeOf n)
  let t ← ofOption (usizeOf t)
  let params ← ofOption (Params.new n t).toOption
  return ⟨params, x, registry⟩

def takeSeed : Decoder (PartySeed F G) := do
  let id ← takeU64
  let transportKey ← takeSecretKey F G
  let index ← takeU64
  let share ← takeScalar F G
  let com ← FeldmanCommitment.decode F G
  let presigs ← counted (takePresig F G)
  let id ← ofOption (usizeOf id)
  let index ← ofOption (usizeOf index)
  return ⟨id, transportKey, ⟨index, share, com⟩, presigs⟩

def takeIdentity : Decoder (Identity F) := do
  let id ← takeU64
  let transportKey ← takeSecretKey F G
  let id ← ofOption (usizeOf id)
  return ⟨id, transportKey⟩

/-- A counted string that starts at `used`. -/
def takeText (used : Nat) : Decoder String := do
  let n ← takeU64
  -- `used.checked_add(n)?`
  if used + 8 + n < 2 ^ 64 then do
    let b ← takeN n
    ofOption (fromUtf8 b)
  else fail

def takePub : Decoder (PubBundle G) := do
  let id ← takeU64
  let verifyingKey ← takeVerifyingKey F G
  let addr ← takeText 41
  let certPem ← takeText (49 + (utf8 addr).length)
  let id ← ofOption (usizeOf id)
  return ⟨id, verifyingKey, addr, certPem⟩

end Decode

section Files

variable (F G) [K256 F G] [WireFormat F G] [KeyFormat F G]

def decodeCommittee (b : Bytes) : Option (CommitteeInfo G) := (takeCommittee F G).front b

def decodeSeed (b : Bytes) : Option (PartySeed F G) := (takeSeed F G).front b

def decodeIdentity (b : Bytes) : Option (Identity F) := (takeIdentity F G).front b

def decodePub (b : Bytes) : Option (PubBundle G) := (takePub F G).front b

end Files

/-- One bundle's certificate. -/
def checkCert (parses : String → Bool) (withTls : Bool) (b : PubBundle G) : Except String Unit :=
  if b.certPem.isEmpty == withTls then
    .error "assemble: inconsistent TLS posture (some bundles carry a certificate, some do not)"
  else if withTls && !parses b.certPem then .error "assemble: unparseable certificate"
  else .ok ()

/-- `assemble`, up to the files it writes; `parses` says which certificates parse. -/
def assemble (parses : String → Bool) (bundles : List (PubBundle G)) (t : Option Usize) : Except String (CommitteeInfo G) :=
  if bundles = [] then .error "assemble: no input bundles"
  else if ¬ (bundles.map (·.id)).Nodup then .error "assemble: duplicate party id"
  else
    let sorted := bundles.insertionSort fun a b => a.id ≤ b.id
    if sorted.zipIdx.any fun e => e.1.id.val ≠ e.2 + 1 then
      .error "assemble: party ids must be exactly 1..=n, one bundle per id"
    else
      let withTls := (sorted.head?.map fun b => !b.certPem.isEmpty).getD false
      match sorted.forM (checkCert parses withTls) with
      | .error msg => .error msg
      | .ok () =>
        let n := sorted.length
        match Params.new (Fin.ofNat _ n) (t.getD (Fin.ofNat _ ((n + 1) / 2))) with
        | .error _ => .error "assemble: invalid (n, t)"
        | .ok params => .ok ⟨params, 0, sorted.map fun b => (b.id, b.verifyingKey)⟩

/-! ## Specification -/

def CommitteeInfo.Fits (info : CommitteeInfo G) : Prop :=
  Params.new info.params.n info.params.t = .ok info.params ∧ info.registry.length < 2 ^ 64

def PartySeed.Fits (seed : PartySeed F G) : Prop :=
  seed.keyShare.com.Fits ∧ seed.presigs.length < 2 ^ 64 ∧ ∀ p ∈ seed.presigs, p.Fits

def PubBundle.Fits (bundle : PubBundle G) : Prop :=
  57 + (utf8 bundle.addr).length + (utf8 bundle.certPem).length < 2 ^ 64

/-- One key for each id `1..=n`. -/
def CommitteeInfo.OneKeyEach (info : CommitteeInfo G) : Prop :=
  (info.registry.map (·.1)).Perm info.params.parties

section Texts

variable (F) [K256 F G]

/-- A text that is read as the key: the compressed point, or the compact form of one of even `y`. -/
inductive KeyText (key : VerifyingKey G) : Bytes → Prop
  | compressed : KeyText key (K256.pointBytes F key.val)
  | compact {x : Bytes} : K256.pointBytes F key.val = 2 :: x → KeyText key (5 :: x)

/-- An entry of a registry: the id, then a text of the key. -/
def EntryText (e : PartyId × VerifyingKey G) (w : Bytes) : Prop := ∃ x, KeyText F e.2 x ∧ w = u64Bytes e.1.val ++ x

/-- A text that is read as the committee, of these entries. -/
def CommitteeText (info : CommitteeInfo G) (entries : List Bytes) (w : Bytes) : Prop :=
  List.Forall₂ (EntryText F) info.registry entries ∧
    w = u64Bytes info.params.n.val ++ u64Bytes info.params.t.val ++ K256.pointBytes F info.x ++
      (u64Bytes info.registry.length ++ entries.flatten)

/-- A text that is read as the bundle, with this text of its key. -/
def PubText (bundle : PubBundle G) (key w : Bytes) : Prop :=
  KeyText F bundle.verifyingKey key ∧
    w = u64Bytes bundle.id.val ++ key ++ putBytes (utf8 bundle.addr) ++ putBytes (utf8 bundle.certPem)

/-- The key is in compact form. -/
def Compact (key : Bytes) : Prop := key.head? = some 5

/-- The key of the entry, behind its id. -/
def entryKey (entry : Bytes) : Bytes := entry.drop 8

end Texts

/-! ## Lemmas: keys and strings -/

section Keys

variable [K256 F G] [WireFormat F G]

theorem KeyText.length {key : VerifyingKey G} {w : Bytes} (h : KeyText F key w) : w.length = 33 := by
  have hlen := pointBytes_length (F := F) key.property
  cases h with
  | compressed => exact hlen
  | compact hx =>
    rw [hx] at hlen
    exact hlen

/-- A text is the compressed point exactly if it is not compact. -/
theorem KeyText.eq_iff {key : VerifyingKey G} {w : Bytes} (h : KeyText F key w) :
    w = K256.pointBytes F key.val ↔ ¬ Compact w := by
  obtain ⟨tag, x, htag, -, hbytes⟩ := WireFormat.pointBytes_compressed (F := F) key.val key.property
  have hpoint : ¬ Compact (K256.pointBytes F key.val) := by
    rw [hbytes]
    intro h5
    have h5 : tag = 5 := Option.some.inj h5
    rw [h5] at htag
    exact absurd htag (by decide)
  cases h with
  | compressed => exact iff_of_true rfl hpoint
  | compact hx => exact iff_of_false (fun h => hpoint (h ▸ rfl)) fun h => h rfl

variable [KeyFormat F G]

theorem verifyingKeyFromSec1_iff {b : Bytes} (hb : b.length = 33) (key : VerifyingKey G) :
    KeyFormat.verifyingKeyFromSec1 F b = some key ↔ KeyText F key b := by
  obtain ⟨tag, x, rfl⟩ := List.exists_cons_of_ne_nil (List.ne_nil_of_length_pos (by omega : 0 < b.length))
  have hx : x.length = 32 := by simpa using hb
  by_cases htag : tag = 5
  · subst htag
    rw [KeyFormat.verifyingKeyFromSec1_compact x hx, KeyFormat.verifyingKeyFromSec1_iff 2 x key (by decide) hx]
    constructor
    · exact fun h => .compact h.symm
    · intro h
      generalize hw : (5 : UInt8) :: x = w at h
      cases h with
      | compressed => exact absurd (hw ▸ rfl) (KeyText.eq_iff (.compressed : KeyText F key _) |>.mp rfl)
      | compact h =>
        obtain rfl := (List.cons.inj hw).2
        exact h.symm
  · rw [KeyFormat.verifyingKeyFromSec1_iff tag x key htag hx]
    constructor
    · intro h
      rw [h]
      exact .compressed
    · intro h
      exact h.eq_iff.mpr fun h5 => htag (Option.some.inj h5)

theorem takeVerifyingKey_reads (n : Nat) : Reads n (takeVerifyingKey F G) (KeyText F) := by
  refine ((Reads.takeN 33).bind' fun b => Reads.ofOption (KeyFormat.verifyingKeyFromSec1 F b)).congr fun v w => ?_
  constructor
  · rintro ⟨b, _, _, ⟨rfl, hlen⟩, ⟨hkey, rfl⟩, rfl⟩
    rw [List.append_nil]
    exact (verifyingKeyFromSec1_iff hlen v).mp hkey
  · intro h
    exact ⟨w, _, [], ⟨rfl, h.length⟩, ⟨(verifyingKeyFromSec1_iff h.length v).mpr h, rfl⟩, (List.append_nil _).symm⟩

theorem takeSecretKey_lawful : Lawful (fun key : SecretKey F => WireFormat.scalarBytes G key.val) (takeSecretKey F G)
    fun _ => True := by
  intro n
  refine ((Reads.takeN 32).bind' fun b => Reads.ofOption (KeyFormat.secretKeyFromBytes G b)).congr fun v w => ?_
  constructor
  · rintro ⟨b, _, _, ⟨rfl, hlen⟩, ⟨hread, rfl⟩, rfl⟩
    rw [List.append_nil]
    exact ⟨trivial, (KeyFormat.secretKeyFromBytes_iff _ v hlen).mp hread⟩
  · rintro ⟨-, rfl⟩
    have hlen := WireFormat.scalarBytes_length (G := G) v.val
    exact ⟨_, _, [], ⟨rfl, hlen⟩, ⟨(KeyFormat.secretKeyFromBytes_iff _ v hlen).mpr rfl, rfl⟩, (List.append_nil _).symm⟩

end Keys

theorem takeText_lawful (used : Nat) :
    Lawful (fun s => putBytes (utf8 s)) (takeText used) fun s => used + 8 + (utf8 s).length < 2 ^ 64 := by
  intro n
  refine ((takeU64_reads n).bind' fun k =>
    ((Reads.takeN k).bind' fun b => Reads.ofOption (fromUtf8 b)).guard).congr fun v w => ?_
  constructor
  · rintro ⟨k, _, _, ⟨-, rfl⟩, ⟨hk, b, _, _, ⟨rfl, rfl⟩, ⟨hb, rfl⟩, rfl⟩, rfl⟩
    obtain rfl := fromUtf8_iff.mp hb
    exact ⟨hk, by rw [List.append_nil]; rfl⟩
  · rintro ⟨hv, rfl⟩
    exact ⟨(utf8 v).length, _, utf8 v, ⟨by omega, rfl⟩, ⟨hv, utf8 v, _, [], ⟨rfl, rfl⟩, ⟨fromUtf8_iff.mpr rfl, rfl⟩,
      (List.append_nil _).symm⟩, rfl⟩

theorem Params.new_eq {n t : Usize} {params : Params} (h : Params.new n t = .ok params) : params = ⟨n, t⟩ := by
  unfold Params.new at h
  split at h
  · cases h
  · split at h
    · cases h
    · exact (Except.ok.inj h).symm

/-! ## Lemmas: the files -/

section Files

variable [K256 F G] [WireFormat F G] [KeyFormat F G]

theorem takeIdentity_lawful : Lawful (encodeIdentity G : Identity F → Bytes) (takeIdentity F G) fun _ => True := by
  intro n
  refine (usize_reads fun id => (takeSecretKey_lawful (F := F) (G := G) n).bind' fun key =>
    (Reads.ofOption (usizeOf id.val)).bind' fun id => Reads.pure (⟨id, key⟩ : Identity F)).congr fun v w => ?_
  constructor
  · rintro ⟨j, _, ⟨key, _, _, ⟨-, rfl⟩, ⟨id, _, _, ⟨hid, rfl⟩, ⟨rfl, rfl⟩, rfl⟩, rfl⟩, rfl⟩
    rw [usizeOf_val] at hid
    cases hid
    exact ⟨trivial, by simp [encodeIdentity]⟩
  · rintro ⟨-, rfl⟩
    exact ⟨v.id, _, ⟨v.transportKey, _, [], ⟨trivial, rfl⟩, ⟨v.id, [], [], ⟨usizeOf_val _, rfl⟩, ⟨rfl, rfl⟩, rfl⟩,
      (List.append_nil _).symm⟩, rfl⟩

theorem takePub_reads (n : Nat) :
    Reads n (takePub F G) fun bundle w => bundle.Fits ∧ ∃ key, PubText F bundle key w := by
  refine (usize_reads fun id => (takeVerifyingKey_reads n).bind' fun key => (takeText_lawful 41 n).bind' fun addr =>
    (takeText_lawful (49 + (utf8 addr).length) n).bind' fun certPem => (Reads.ofOption (usizeOf id.val)).bind' fun id =>
    Reads.pure (⟨id, key, addr, certPem⟩ : PubBundle G)).congr fun v w => ?_
  constructor
  · rintro ⟨j, _, ⟨key, x, _, hkey, ⟨addr, _, _, ⟨haddr, rfl⟩, ⟨cert, _, _, ⟨hcert, rfl⟩, ⟨id, _, _, ⟨hid, rfl⟩,
      ⟨rfl, rfl⟩, rfl⟩, rfl⟩, rfl⟩, rfl⟩, rfl⟩
    rw [usizeOf_val] at hid
    cases hid
    refine ⟨?_, x, hkey, by simp⟩
    show 57 + (utf8 addr).length + (utf8 cert).length < 2 ^ 64
    omega
  · rintro ⟨hfits, x, hkey, rfl⟩
    have hfits' : 57 + (utf8 v.addr).length + (utf8 v.certPem).length < 2 ^ 64 := hfits
    exact ⟨v.id, _, ⟨v.verifyingKey, x, _, hkey, ⟨v.addr, _, _, ⟨by omega, rfl⟩, ⟨v.certPem, _, [], ⟨by omega, rfl⟩,
      ⟨v.id, [], [], ⟨usizeOf_val _, rfl⟩, ⟨rfl, rfl⟩, rfl⟩, rfl⟩, rfl⟩, rfl⟩, by simp⟩

theorem takeSeed_lawful : Lawful (encodeSeed : PartySeed F G → Bytes) (takeSeed F G) PartySeed.Fits := by
  intro n
  refine (usize_reads fun id => (takeSecretKey_lawful (F := F) (G := G) n).bind' fun key => usize_reads fun index =>
    (takeScalar_lawful n).bind' fun share => (FeldmanCommitment.decode_lawful (F := F) n).bind' fun com =>
    (counted_reads (takePresig_lawful (F := F) (G := G) n)).bind' fun presigs =>
    (Reads.ofOption (usizeOf id.val)).bind' fun id => (Reads.ofOption (usizeOf index.val)).bind' fun index =>
    Reads.pure (⟨id, key, ⟨index, share, com⟩, presigs⟩ : PartySeed F G)).congr fun v w => ?_
  constructor
  · rintro ⟨j, _, ⟨key, _, _, ⟨-, rfl⟩, ⟨i, _, ⟨share, _, _, ⟨-, rfl⟩, ⟨com, _, _, ⟨hcom, rfl⟩, ⟨presigs, _, _,
      ⟨⟨hcount, hpresigs⟩, rfl⟩, ⟨id, _, _, ⟨hid, rfl⟩, ⟨index, _, _, ⟨hindex, rfl⟩, ⟨rfl, rfl⟩, rfl⟩, rfl⟩, rfl⟩, rfl⟩, rfl⟩,
      rfl⟩, rfl⟩, rfl⟩
    rw [usizeOf_val] at hid hindex
    cases hid
    cases hindex
    exact ⟨⟨hcom, hcount, hpresigs⟩, by simp [encodeSeed]⟩
  · rintro ⟨⟨hcom, hcount, hpresigs⟩, rfl⟩
    exact ⟨v.id, _, ⟨v.transportKey, _, _, ⟨trivial, rfl⟩, ⟨v.keyShare.index, _, ⟨v.keyShare.share, _, _, ⟨trivial, rfl⟩,
      ⟨v.keyShare.com, _, _, ⟨hcom, rfl⟩, ⟨v.presigs, _, [], ⟨⟨hcount, hpresigs⟩, rfl⟩, ⟨v.id, [], [], ⟨usizeOf_val _, rfl⟩,
      ⟨v.keyShare.index, [], [], ⟨usizeOf_val _, rfl⟩, ⟨rfl, rfl⟩, rfl⟩, rfl⟩, rfl⟩, rfl⟩, rfl⟩, rfl⟩, rfl⟩,
      by simp [encodeSeed]⟩

theorem takeCommittee_reads (n : Nat) :
    Reads n (takeCommittee F G) fun info w => info.Fits ∧ ∃ entries, CommitteeText F info entries w := by
  refine (usize_reads fun n' => usize_reads fun t => (takePoint_lawful (F := F) n).bind' fun x =>
    (counted_texts (keyed_texts (takeVerifyingKey_reads (F := F) (G := G) n))).bind' fun registry =>
    (Reads.ofOption (usizeOf n'.val)).bind' fun n' => (Reads.ofOption (usizeOf t.val)).bind' fun t =>
    (Reads.ofOption (Params.new n' t).toOption).bind' fun params =>
    Reads.pure (⟨params, x, registry⟩ : CommitteeInfo G)).congr fun v w => ?_
  constructor
  · rintro ⟨j, _, ⟨i, _, ⟨x, _, _, ⟨-, rfl⟩, ⟨registry, _, _, ⟨hcount, entries, hentries, rfl⟩, ⟨n', _, _, ⟨hn, rfl⟩,
      ⟨t, _, _, ⟨ht, rfl⟩, ⟨params, _, _, ⟨hparams, rfl⟩, ⟨rfl, rfl⟩, rfl⟩, rfl⟩, rfl⟩, rfl⟩, rfl⟩, rfl⟩, rfl⟩
    rw [usizeOf_val] at hn ht
    cases hn
    cases ht
    have hok : Params.new j i = .ok params := by
      cases hnew : Params.new j i with
      | error e =>
        rw [hnew] at hparams
        cases hparams
      | ok q =>
        rw [hnew] at hparams
        rw [Option.some.inj hparams]
    obtain rfl := Params.new_eq hok
    exact ⟨⟨hok, hcount⟩, entries, hentries, by simp⟩
  · rintro ⟨⟨hparams, hcount⟩, entries, hentries, rfl⟩
    refine ⟨v.params.n, _, ⟨v.params.t, _, ⟨v.x, _, _, ⟨trivial, rfl⟩, ⟨v.registry, _, [], ⟨hcount, entries, hentries, rfl⟩,
      ⟨v.params.n, [], [], ⟨usizeOf_val _, rfl⟩, ⟨v.params.t, [], [], ⟨usizeOf_val _, rfl⟩, ⟨v.params, [], [], ⟨?_, rfl⟩,
      ⟨rfl, rfl⟩, rfl⟩, rfl⟩, rfl⟩, rfl⟩, rfl⟩, rfl⟩, by simp⟩
    rw [hparams]
    rfl

/-- A text of an entry is what `encode_committee` writes exactly if the key is not compact. -/
theorem EntryText.eq_iff {e : PartyId × VerifyingKey G} {w : Bytes} (h : EntryText F e w) :
    w = keyedBytes (fun key : VerifyingKey G => K256.pointBytes F key.val) e ↔ ¬ Compact (entryKey w) := by
  obtain ⟨x, hx, rfl⟩ := h
  have hdrop : entryKey (u64Bytes e.1.val ++ x) = x := List.drop_left' (u64Bytes_length _)
  rw [hdrop, ← hx.eq_iff]
  exact List.append_right_inj _

theorem EntryText.length {e : PartyId × VerifyingKey G} {w : Bytes} (h : EntryText F e w) : w.length = 41 := by
  obtain ⟨x, hx, rfl⟩ := h
  rw [List.length_append, u64Bytes_length, hx.length]

theorem entries_length {registry : List (PartyId × VerifyingKey G)} {entries : List Bytes}
    (h : List.Forall₂ (EntryText F) registry entries) : entries.map List.length =
      (registry.map (keyedBytes fun key : VerifyingKey G => K256.pointBytes F key.val)).map List.length := by
  induction h with
  | nil => rfl
  | @cons e w _ _ he _ ih =>
    have hkeyed : EntryText F e (keyedBytes (fun key : VerifyingKey G => K256.pointBytes F key.val) e) :=
      ⟨_, .compressed, rfl⟩
    rw [List.map_cons, List.map_cons, List.map_cons, he.length, hkeyed.length, ih]

theorem entries_eq_iff {registry : List (PartyId × VerifyingKey G)} {entries : List Bytes}
    (h : List.Forall₂ (EntryText F) registry entries) :
    entries.flatten = registry.flatMap (keyedBytes fun key : VerifyingKey G => K256.pointBytes F key.val) ↔
      ∀ entry ∈ entries, ¬ Compact (entryKey entry) := by
  have hpairs : entries = registry.map (keyedBytes fun key : VerifyingKey G => K256.pointBytes F key.val) ↔
      ∀ entry ∈ entries, ¬ Compact (entryKey entry) := by
    induction h with
    | nil => simp
    | cons he _ ih => rw [List.map_cons, List.cons_eq_cons, he.eq_iff, ih, List.forall_mem_cons]
  rw [← hpairs, List.eq_iff_flatten_eq, List.flatMap_def]
  exact (and_iff_left (entries_length h)).symm

/-- A text is not what `encode_committee` writes exactly if one of its keys is compact. -/
theorem CommitteeText.ne_iff {info : CommitteeInfo G} {entries : List Bytes} {w : Bytes} (h : CommitteeText F info entries w) :
    w ≠ encodeCommittee F info ↔ ∃ entry ∈ entries, Compact (entryKey entry) := by
  obtain ⟨hentries, rfl⟩ := h
  rw [encodeCommittee, countedBytes, Ne, List.append_right_inj, List.append_right_inj, entries_eq_iff hentries]
  simp only [not_forall, not_not, exists_prop]

theorem CommitteeText.length {info : CommitteeInfo G} {entries : List Bytes} {w : Bytes} (h : CommitteeText F info entries w) :
    w.length = (encodeCommittee F info).length := by
  obtain ⟨hentries, rfl⟩ := h
  have hflat : entries.flatten.length =
      (info.registry.flatMap (keyedBytes fun key : VerifyingKey G => K256.pointBytes F key.val)).length := by
    rw [List.length_flatten, entries_length hentries, ← List.length_flatten, List.flatMap_def]
  simp only [encodeCommittee, countedBytes, List.length_append, hflat]

theorem committeeText_encode (info : CommitteeInfo G) : ∃ entries, CommitteeText F info entries (encodeCommittee F info) := by
  refine ⟨info.registry.map (keyedBytes fun key : VerifyingKey G => K256.pointBytes F key.val), ?_, ?_⟩
  · rw [List.forall₂_map_right_iff, List.forall₂_same]
    exact fun e _ => ⟨_, .compressed, rfl⟩
  · rw [encodeCommittee, countedBytes, List.flatMap_def]

theorem PubText.ne_iff {bundle : PubBundle G} {key w : Bytes} (h : PubText F bundle key w) :
    w ≠ encodePub F bundle ↔ Compact key := by
  obtain ⟨hkey, rfl⟩ := h
  rw [← not_not (a := Compact key), ← hkey.eq_iff, encodePub]
  simp only [ne_eq, List.append_left_inj, List.append_right_inj]

theorem PubText.length {bundle : PubBundle G} {key w : Bytes} (h : PubText F bundle key w) :
    w.length = (encodePub F bundle).length := by
  obtain ⟨hkey, rfl⟩ := h
  have hwritten : KeyText F bundle.verifyingKey (K256.pointBytes F bundle.verifyingKey.val) := .compressed
  simp only [encodePub, List.length_append, hkey.length, hwritten.length]

end Files

/-- What `assemble` writes has the ids in order, one key each. -/
theorem assemble_ok {parses : String → Bool} {bundles : List (PubBundle G)} {t : Option Usize} {info : CommitteeInfo G}
    (hlen : bundles.length < 2 ^ 64) (h : assemble parses bundles t = .ok info) : info.Fits ∧ info.OneKeyEach := by
  unfold assemble at h
  split at h
  · cases h
  · split at h
    · cases h
    · simp only at h
      split at h
      · cases h
      · next hids =>
        split at h
        · cases h
        · split at h
          · cases h
          · next params hparams =>
            obtain rfl := Except.ok.inj h
            have hsorted : (bundles.insertionSort fun a b => a.id ≤ b.id).length = bundles.length :=
              List.length_insertionSort _ _
            have hn : (Fin.ofNat (2 ^ 64) (bundles.insertionSort fun a b => a.id ≤ b.id).length).val =
                (bundles.insertionSort fun a b => a.id ≤ b.id).length :=
              Nat.mod_eq_of_lt (by rw [hsorted]; exact hlen)
            have hp := Params.new_eq hparams
            refine ⟨⟨by rw [hp] at hparams ⊢; exact hparams, by rw [List.length_map, hsorted]; exact hlen⟩, ?_⟩
            refine List.Perm.of_eq (List.ext_getElem ?_ fun i hi hi' => ?_)
            · rw [hp, List.length_map, List.length_map, Params.parties, List.length_map, List.length_range, hn]
            · have hi₀ : i < (bundles.insertionSort fun a b => a.id ≤ b.id).length := by simpa using hi
              have hget : ((bundles.insertionSort fun a b => a.id ≤ b.id)[i], i) ∈
                  (bundles.insertionSort fun a b => a.id ≤ b.id).zipIdx :=
                List.mem_zipIdx_iff_getElem?.mpr (List.getElem?_eq_getElem hi₀)
              have hid : (bundles.insertionSort fun a b => a.id ≤ b.id)[i].id.val = i + 1 := by
                by_contra hne
                exact hids (List.any_eq_true.mpr ⟨_, hget, by simpa using hne⟩)
              simp only [List.getElem_map, Params.parties, List.getElem_range]
              apply Fin.ext
              rw [hid]
              exact (Nat.mod_eq_of_lt (by omega)).symm

section Read

variable [K256 F G] [WireFormat F G] [KeyFormat F G]

theorem decodeCommittee_encode (info : CommitteeInfo G) :
    decodeCommittee F G (encodeCommittee F info) = some info ↔ info.Fits := by
  refine ((takeCommittee_reads _).front info).trans ⟨fun ⟨_, _, h, _⟩ => h.1, fun hfits => ?_⟩
  exact ⟨_, [], ⟨hfits, committeeText_encode info⟩, (List.append_nil _).symm⟩

theorem decodePub_encode (bundle : PubBundle G) : decodePub F G (encodePub F bundle) = some bundle ↔ bundle.Fits := by
  refine ((takePub_reads _).front bundle).trans ⟨fun ⟨_, _, h, _⟩ => h.1, fun hfits => ?_⟩
  exact ⟨_, [], ⟨hfits, _, .compressed, rfl⟩, (List.append_nil _).symm⟩

end Read

/-! ## Theorem -/

section Theorem

variable (F G) [K256 F G] [WireFormat F G] [KeyFormat F G]

/-- **When the setup files are canonical**: each value that fits is read back, and a file is its value's
encoding unless it goes on behind it or holds a key in compact form; a committee file may also have other
ids than `1..=n`. -/
theorem setup_files_canonical_iff :
    (∀ info : CommitteeInfo G, decodeCommittee F G (encodeCommittee F info) = some info ↔ info.Fits) ∧
    (∀ seed : PartySeed F G, decodeSeed F G (encodeSeed seed) = some seed ↔ seed.Fits) ∧
    (∀ identity : Identity F, decodeIdentity F G (encodeIdentity G identity) = some identity) ∧
    (∀ bundle : PubBundle G, decodePub F G (encodePub F bundle) = some bundle ↔ bundle.Fits) ∧
    (∀ b, (∀ info, decodeCommittee F G b = some info → b = encodeCommittee F info ∧ info.OneKeyEach) ↔
      ¬ ∃ (info : CommitteeInfo G) (entries : List Bytes) (w rest : Bytes), info.Fits ∧ CommitteeText F info entries w ∧
        b = w ++ rest ∧ (rest ≠ [] ∨ (∃ entry ∈ entries, Compact (entryKey entry)) ∨ ¬ info.OneKeyEach)) ∧
    (∀ b, (∀ seed, decodeSeed F G b = some seed → b = encodeSeed seed) ↔
      ¬ ∃ (seed : PartySeed F G) (rest : Bytes), seed.Fits ∧ rest ≠ [] ∧ b = encodeSeed seed ++ rest) ∧
    (∀ b, (∀ identity, decodeIdentity F G b = some identity → b = encodeIdentity G identity) ↔
      ¬ ∃ (identity : Identity F) (rest : Bytes), rest ≠ [] ∧ b = encodeIdentity G identity ++ rest) ∧
    ∀ b, (∀ bundle, decodePub F G b = some bundle → b = encodePub F bundle) ↔
      ¬ ∃ (bundle : PubBundle G) (key w rest : Bytes), bundle.Fits ∧ PubText F bundle key w ∧ b = w ++ rest ∧
        (rest ≠ [] ∨ Compact key) := by
  refine ⟨fun info => ?_, fun seed => ?_, fun identity => ?_, fun bundle => ?_, fun b => ?_, fun b => ?_, fun b => ?_,
    fun b => ?_⟩
  · exact decodeCommittee_encode info
  · exact takeSeed_lawful.front_iff.trans (and_iff_left (List.prefix_refl _))
  · exact takeIdentity_lawful.front_iff.mpr ⟨trivial, List.prefix_refl _⟩
  · exact decodePub_encode bundle
  · refine ((takeCommittee_reads _).front_canonical_iff fun v w ⟨_, entries, h⟩ => h.length).trans (not_congr ?_)
    constructor
    · rintro ⟨info, w, rest, ⟨hfits, entries, htext⟩, hb, hbad⟩
      exact ⟨info, entries, w, rest, hfits, htext, hb, hbad.imp_right fun h => h.imp_left htext.ne_iff.mp⟩
    · rintro ⟨info, entries, w, rest, hfits, htext, hb, hbad⟩
      exact ⟨info, w, rest, ⟨hfits, entries, htext⟩, hb, hbad.imp_right fun h => h.imp_left htext.ne_iff.mpr⟩
  · exact takeSeed_lawful.front_canonical_iff b
  · refine (takeIdentity_lawful.front_canonical_iff b).trans (not_congr ?_)
    simp only [true_and]
  · have hiff := (takePub_reads (F := F) (G := G) b.length).front_canonical_iff (Q := fun _ => True)
      fun v w ⟨_, key, h⟩ => h.length
    simp only [and_true, not_true, or_false] at hiff
    refine hiff.trans (not_congr ?_)
    constructor
    · rintro ⟨bundle, w, rest, ⟨hfits, key, htext⟩, hb, hbad⟩
      exact ⟨bundle, key, w, rest, hfits, htext, hb, hbad.imp_right htext.ne_iff.mp⟩
    · rintro ⟨bundle, key, w, rest, hfits, htext, hb, hbad⟩
      exact ⟨bundle, w, rest, ⟨hfits, key, htext⟩, hb, hbad.imp_right htext.ne_iff.mpr⟩

end Theorem

section Secp256k1

open Secp256k1

/-- A point that is not the identity, as a key. -/
def toVerifyingKey (P : Point) : Option (VerifyingKey Point) := if h : P ≠ 0 then some ⟨P, h⟩ else none

def verifyingKeyFromSec1 : Bytes → Option (VerifyingKey Point)
  | [] => none
  | tag :: x =>
    let tag := if tag = 5 then 2 else tag
    if tag = 2 ∨ tag = 3 then (pointFromCompressed (tag :: x)).bind toVerifyingKey else none

theorem toVerifyingKey_iff {P : Point} {key : VerifyingKey Point} : toVerifyingKey P = some key ↔ P = key.val := by
  unfold toVerifyingKey
  constructor
  · intro h
    split at h
    · rw [← Option.some.inj h]
    · cases h
  · rintro rfl
    rw [dif_pos key.property]

instance : KeyFormat Scalar Point where
  verifyingKeyFromSec1 := verifyingKeyFromSec1
  verifyingKeyFromSec1_iff tag x key htag hx := by
    simp only [verifyingKeyFromSec1, if_neg htag]
    by_cases hform : tag = 2 ∨ tag = 3
    · rw [if_pos hform, Option.bind_eq_some_iff]
      simp only [toVerifyingKey_iff, exists_eq_right]
      exact pointFromCompressed_iff tag x key.val hform hx
    · rw [if_neg hform]
      refine iff_of_false (fun h => (by cases h)) fun h => ?_
      obtain ⟨tag', x', htag', -, hbytes⟩ := WireFormat.pointBytes_compressed (F := Scalar) key.val key.property
      rw [hbytes] at h
      exact hform ((List.cons.inj h).1 ▸ htag')
  verifyingKeyFromSec1_compact x _ := rfl
  secretKeyFromBytes b := (scalarFromRepr b).bind toVerifyingKey
  secretKeyFromBytes_iff b key hb := by
    rw [Option.bind_eq_some_iff]
    simp only [toVerifyingKey_iff, exists_eq_right]
    exact scalarFromRepr_iff b key.val hb

/-- An identity with a byte behind it, a committee of one without a key, and one whose key is in compact form. -/
theorem setup_files_accept_more :
    (∃ identity : Identity Scalar, decodeIdentity Scalar Point (encodeIdentity Point identity ++ [0]) = some identity) ∧
    (∃ info : CommitteeInfo Point, decodeCommittee Scalar Point (encodeCommittee Scalar info) = some info ∧
      ¬ info.OneKeyEach) ∧
    ∃ (info : CommitteeInfo Point) (b : Bytes), decodeCommittee Scalar Point b = some info ∧ info.OneKeyEach ∧
      b ≠ encodeCommittee Scalar info := by
  refine ⟨⟨⟨1, ⟨1, one_ne_zero⟩⟩, takeIdentity_lawful.front_iff.mpr ⟨trivial, List.prefix_append _ _⟩⟩,
    ⟨⟨⟨1, 1⟩, 0, []⟩, (decodeCommittee_encode _).mpr ⟨by decide, by decide⟩, fun h => ?_⟩, ?_⟩
  · have := h.length_eq
    cases this
  · have heven : K256.pointBytes Scalar (1 : Point) = 2 :: bytes32 1 := by decide +kernel
    have hkey : KeyText Scalar (⟨1, one_ne_zero⟩ : VerifyingKey Point) (5 :: bytes32 1) := .compact heven
    have hentry : EntryText Scalar ((1, ⟨1, one_ne_zero⟩) : PartyId × VerifyingKey Point) (u64Bytes 1 ++ 5 :: bytes32 1) :=
      ⟨_, hkey, rfl⟩
    have htext : CommitteeText Scalar (⟨⟨1, 1⟩, 0, [(1, ⟨1, one_ne_zero⟩)]⟩ : CommitteeInfo Point) _ _ :=
      ⟨.cons hentry .nil, rfl⟩
    refine ⟨_, _, ((takeCommittee_reads _).front _).mpr ⟨_, [], ⟨⟨by decide, by decide⟩, _, htext⟩,
      (List.append_nil _).symm⟩, ?_, htext.ne_iff.mpr ⟨_, List.mem_singleton_self _, rfl⟩⟩
    exact List.Perm.of_eq (by decide)

end Secp256k1

end OhmEcdsa
