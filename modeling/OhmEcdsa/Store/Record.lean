import OhmEcdsa.Node.Token
import OhmEcdsa.Store.Presig

/-!
# Records, tokens and journal entries as bytes (`store/persist.rs`)

A stored record is of the second version, which its first byte says, or of the first, whose
first byte is the top byte of the id.  Each decodes to what was written, and nothing else
decodes:

    takeRecord b = some (p, some t) ↔ p and t fit ∧ b = putRecord p t              (takeRecord_stamped_iff)
    takeRecord b = some (p, none) ↔ p fits ∧ b = p.encode ∧ the id's top byte ≠ 2  (takeRecord_legacy_iff)
-/

set_option linter.unusedSectionVars false

namespace OhmEcdsa

open Codec Decoder

variable {F G : Type} [Field F] [DecidableEq F] [AddCommGroup G] [Module F G] [DecidableEq G] [K256 F G]
  [WireFormat F G]

/-- Lengths of vectors are words. -/
def Presignature.Fits (p : Presignature F G) : Prop := p.uCom.Fits ∧ p.zCom.Fits

/-! ## Lemmas -/

theorem takePresig_lawful : Lawful (Presignature.encode : Presignature F G → Bytes) (takePresig F G) Presignature.Fits := by
  intro n
  have hcom := FeldmanCommitment.decode_lawful (F := F) (G := G) n
  refine (takeUsize_reads.bind' fun id => takeUsize_reads.bind' fun index => (takeScalar_lawful n).bind' fun r =>
    (takePoint_lawful n).bind' fun bigR => (takeScalar_lawful n).bind' fun uShare => (takeScalar_lawful n).bind' fun zShare =>
    hcom.bind' fun uCom => hcom.bind' fun zCom =>
      Reads.pure (⟨id, index, r, bigR, uShare, zShare, uCom, zCom⟩ : Presignature F G)).congr fun v w => ?_
  constructor
  · rintro ⟨id, _, _, ⟨-, rfl⟩, ⟨index, _, _, ⟨-, rfl⟩, ⟨r, _, _, ⟨-, rfl⟩, ⟨bigR, _, _, ⟨-, rfl⟩, ⟨uShare, _, _, ⟨-, rfl⟩,
      ⟨zShare, _, _, ⟨-, rfl⟩, ⟨uCom, _, _, ⟨hu, rfl⟩, ⟨zCom, _, _, ⟨hz, rfl⟩, ⟨rfl, rfl⟩, rfl⟩, rfl⟩, rfl⟩, rfl⟩, rfl⟩,
      rfl⟩, rfl⟩, rfl⟩
    exact ⟨⟨hu, hz⟩, by simp [Presignature.encode]⟩
  · rintro ⟨⟨hu, hz⟩, rfl⟩
    exact ⟨v.id, _, _, ⟨trivial, rfl⟩, ⟨v.index, _, _, ⟨trivial, rfl⟩, ⟨v.r, _, _, ⟨trivial, rfl⟩, ⟨v.bigR, _, _,
      ⟨trivial, rfl⟩, ⟨v.uShare, _, _, ⟨trivial, rfl⟩, ⟨v.zShare, _, _, ⟨trivial, rfl⟩, ⟨v.uCom, _, _, ⟨hu, rfl⟩,
      ⟨v.zCom, _, [], ⟨hz, rfl⟩, ⟨rfl, rfl⟩, rfl⟩, rfl⟩, rfl⟩, rfl⟩, rfl⟩, rfl⟩, rfl⟩, by simp [Presignature.encode]⟩

/-- A record of the second version, past its first byte. -/
theorem takeRecord_v2 {b : Bytes} (hb : b.head? = some RECORD_V2) (e : Presignature F G × Option Nat) :
    takeRecord F G b = some e ↔
      ∃ createdAt, (e.1.Fits ∧ createdAt < 2 ^ 64) ∧ e.2 = some createdAt ∧ b = putRecord e.1 createdAt := by
  have hreads := (Reads.takeByte (n := b.length)).bind' fun _ => (takeU64_reads b.length).bind' fun createdAt =>
    (takePresig_lawful (F := F) (G := G) b.length).bind' fun p => Reads.pure (p, some createdAt)
  unfold takeRecord
  rw [if_pos hb]
  rw [show _ ↔ _ from hreads.exactly e]
  constructor
  · rintro ⟨tag, _, _, rfl, ⟨t, _, _, ⟨ht, rfl⟩, ⟨q, _, _, ⟨hq, rfl⟩, ⟨rfl, rfl⟩, rfl⟩, rfl⟩, rfl⟩
    obtain rfl : tag = RECORD_V2 := Option.some.inj hb
    exact ⟨t, ⟨hq, ht⟩, rfl, by simp [putRecord]⟩
  · rintro ⟨t, ⟨hp, ht⟩, hstamp, rfl⟩
    refine ⟨RECORD_V2, _, _, rfl, ⟨t, _, _, ⟨ht, rfl⟩, ⟨e.1, _, [], ⟨hp, rfl⟩, ⟨?_, rfl⟩, rfl⟩, rfl⟩, by simp [putRecord]⟩
    rw [← hstamp]

theorem takeRecord_v1 {b : Bytes} (hb : b.head? ≠ some RECORD_V2) (e : Presignature F G × Option Nat) :
    takeRecord F G b = some e ↔ e.1.Fits ∧ e.2 = none ∧ b = e.1.encode := by
  unfold takeRecord
  rw [if_neg hb, Option.map_eq_some_iff]
  constructor
  · rintro ⟨p, hp, rfl⟩
    obtain ⟨hfits, hb⟩ := ((takePresig_lawful _).exactly p).mp hp
    exact ⟨hfits, rfl, hb⟩
  · rintro ⟨hfits, hnone, rfl⟩
    exact ⟨e.1, ((takePresig_lawful _).exactly e.1).mpr ⟨hfits, rfl⟩, by rw [← hnone]⟩

theorem putRecord_head (p : Presignature F G) (createdAt : Nat) : (putRecord p createdAt).head? = some RECORD_V2 := rfl

/-- The first byte of a record of the first version is the top byte of its id. -/
theorem encode_head (p : Presignature F G) : p.encode.head? = some (UInt8.ofNat (p.id.val / 2 ^ 56)) := by
  have hid : u64Bytes p.id.val = UInt8.ofNat (p.id.val / 256 ^ 7) :: bigEndian 7 p.id.val := bigEndian_succ 7 _
  unfold Presignature.encode
  rw [hid]
  rfl

theorem encode_head_ne {p : Presignature F G} (hid : p.id.val < 2 ^ 57) : p.encode.head? ≠ some RECORD_V2 := by
  rw [encode_head]
  intro h
  have htop : (UInt8.ofNat (p.id.val / 2 ^ 56)).toNat = 2 := congrArg UInt8.toNat (Option.some.inj h)
  rw [UInt8.toNat_ofNat'] at htop
  omega

theorem takeRecord_stamped_iff {b : Bytes} {p : Presignature F G} {createdAt : Nat} :
    takeRecord F G b = some (p, some createdAt) ↔ (p.Fits ∧ createdAt < 2 ^ 64) ∧ b = putRecord p createdAt := by
  by_cases hb : b.head? = some RECORD_V2
  · rw [takeRecord_v2 hb]
    constructor
    · rintro ⟨t, hfits, ht, rfl⟩
      obtain rfl := Option.some.inj ht
      exact ⟨hfits, rfl⟩
    · rintro ⟨hfits, rfl⟩
      exact ⟨createdAt, hfits, rfl, rfl⟩
  · rw [takeRecord_v1 hb]
    constructor
    · rintro ⟨-, h, -⟩
      cases h
    · rintro ⟨-, rfl⟩
      exact absurd (putRecord_head p createdAt) hb

theorem takeRecord_legacy_iff {b : Bytes} {p : Presignature F G} :
    takeRecord F G b = some (p, none) ↔ p.Fits ∧ b = p.encode ∧ b.head? ≠ some RECORD_V2 := by
  by_cases hb : b.head? = some RECORD_V2
  · rw [takeRecord_v2 hb]
    constructor
    · rintro ⟨t, -, h, -⟩
      cases h
    · rintro ⟨-, -, hne⟩
      exact absurd hb hne
  · rw [takeRecord_v1 hb]
    constructor
    · rintro ⟨hfits, -, rfl⟩
      exact ⟨hfits, rfl, hb⟩
    · rintro ⟨hfits, rfl, -⟩
      exact ⟨hfits, rfl, rfl⟩

/-! ## Inputs with missing or trailing bytes -/

/-- A part of `e` or a continuation of it, and not `e`. -/
def Damaged (e b : Bytes) : Prop := b ≠ e ∧ (b <+: e ∨ e <+: b)

theorem exactly_damaged {α : Type} {enc : α → Bytes} {d : Decoder α} {Valid : α → Prop} (h : Lawful enc d Valid)
    {v : α} (hv : Valid v) {b : Bytes} (hb : Damaged (enc v) b) : d.exactly b = none :=
  Option.eq_none_iff_forall_ne_some.mpr fun _ hd => hb.1 (h.exactly_comparable hv hb.2 hd).2

theorem Damaged.head {e b : Bytes} (h : Damaged e b) (hb : b ≠ []) (he : e ≠ []) : b.head? = e.head? := by
  obtain ⟨x, b, rfl⟩ := List.exists_cons_of_ne_nil hb
  obtain ⟨y, e, rfl⟩ := List.exists_cons_of_ne_nil he
  rcases h.2 with ⟨rest, hrest⟩ | ⟨rest, hrest⟩
  · rw [(List.cons.inj hrest).1]
    rfl
  · rw [← (List.cons.inj hrest).1]
    rfl

theorem encode_ne_nil (p : Presignature F G) : p.encode ≠ [] := by
  intro h
  have := encode_head p
  rw [h] at this
  cases this

/-- A stamped record behind its version byte. -/
theorem putRecord_lawful : Lawful (fun e : Presignature F G × Nat => u64Bytes e.2 ++ e.1.encode) (do
    let createdAt ← takeU64
    let p ← takePresig F G
    return (p, createdAt)) fun e => e.1.Fits ∧ e.2 < 2 ^ 64 := by
  intro n
  refine ((takeU64_reads n).bind' fun createdAt => (takePresig_lawful n).bind' fun p =>
    Reads.pure ((p, createdAt) : Presignature F G × Nat)).congr fun v w => ?_
  constructor
  · rintro ⟨t, _, _, ⟨ht, rfl⟩, ⟨p, _, _, ⟨hp, rfl⟩, ⟨rfl, rfl⟩, rfl⟩, rfl⟩
    exact ⟨⟨hp, ht⟩, by simp⟩
  · rintro ⟨⟨hp, ht⟩, rfl⟩
    exact ⟨v.2, _, _, ⟨ht, rfl⟩, ⟨v.1, _, [], ⟨hp, rfl⟩, ⟨rfl, rfl⟩, rfl⟩, by simp⟩

theorem takeRecord_damaged {e b : Bytes} {p : Presignature F G} {stamp : Option Nat} (he : takeRecord F G e = some (p, stamp))
    (hb : Damaged e b) : takeRecord F G b = none := by
  refine Option.eq_none_iff_forall_ne_some.mpr fun v hv => ?_
  have hnil : takeRecord F G [] ≠ some v := by
    intro h
    obtain ⟨-, -, hnil⟩ := (takeRecord_v1 (by decide) v).mp h
    exact encode_ne_nil _ hnil.symm
  have hbne : b ≠ [] := fun h => hnil (h ▸ hv)
  by_cases hhead : e.head? = some RECORD_V2
  · have hene : e ≠ [] := fun h => by rw [h] at hhead; cases hhead
    have hbhead := (hb.head hbne hene).trans hhead
    obtain ⟨t, hfits, -, rfl⟩ := (takeRecord_v2 hhead _).mp he
    obtain ⟨t', hfits', -, rfl⟩ := (takeRecord_v2 hbhead _).mp hv
    have htail : u64Bytes t' ++ v.1.encode <+: u64Bytes t ++ p.encode ∨ u64Bytes t ++ p.encode <+: u64Bytes t' ++ v.1.encode :=
      hb.2.imp (fun h => (List.cons_prefix_cons.mp h).2) fun h => (List.cons_prefix_cons.mp h).2
    have hexact := ((putRecord_lawful (F := F) (G := G) (u64Bytes t' ++ v.1.encode).length).exactly (v.1, t')).mpr ⟨hfits', rfl⟩
    have heq := (putRecord_lawful.exactly_comparable (v := (p, t)) hfits htail hexact).2
    exact hb.1 (congrArg (RECORD_V2 :: ·) heq)
  · obtain ⟨hfits, -, rfl⟩ := (takeRecord_v1 hhead _).mp he
    have hbhead : b.head? ≠ some RECORD_V2 := by
      rw [hb.head hbne (encode_ne_nil p)]
      exact hhead
    obtain ⟨hfits', -, rfl⟩ := (takeRecord_v1 hbhead _).mp hv
    have hexact : (takePresig F G).exactly v.1.encode = some v.1 := ((takePresig_lawful _).exactly v.1).mpr ⟨hfits', rfl⟩
    exact hb.1 (takePresig_lawful.exactly_comparable hfits hb.2 hexact).2

/-! ## Theorem -/

variable (F G) in
/-- **The persisted formats**: each value is read back from its bytes and from no others. -/
theorem persisted_formats_canonical :
    (∀ (p : Presignature F G) (createdAt : Nat), p.Fits → createdAt < 2 ^ 64 →
      takeRecord F G (putRecord p createdAt) = some (p, some createdAt) ∧
      ∀ b, Damaged (putRecord p createdAt) b → takeRecord F G b = none) ∧
    (∀ p : Presignature F G, p.Fits → p.id.val < 2 ^ 57 → takeRecord F G p.encode = some (p, none) ∧
      ∀ b, Damaged p.encode b → takeRecord F G b = none) ∧
    (∀ ev : BlameEvidence F G, ev.Fits → BlameEvidence.decode F G ev.encode = some ev ∧
      ∀ b, Damaged ev.encode b → BlameEvidence.decode F G b = none) ∧
    (∀ (ev : BlameEvidence F G) (b : Bytes), BlameEvidence.decode F G b = some ev → ev.Fits ∧ ev.encode = b) ∧
    (∀ e : JournalEntry, e.Fits → JournalEntry.decode e.encode = some e ∧
      ∀ b, Damaged e.encode b → JournalEntry.decode b = none) ∧
    ∀ (e : JournalEntry) (b : Bytes), JournalEntry.decode b = some e → e.Fits ∧ e.encode = b := by
  refine ⟨fun p t hp ht => ?_, fun p hp hid => ?_, fun ev hev => ?_, fun ev b h => ?_, fun e he => ?_, fun e b h => ?_⟩
  · have hread := takeRecord_stamped_iff.mpr ⟨⟨hp, ht⟩, rfl⟩
    exact ⟨hread, fun b hb => takeRecord_damaged hread hb⟩
  · have hread := takeRecord_legacy_iff.mpr ⟨hp, rfl, encode_head_ne hid⟩
    exact ⟨hread, fun b hb => takeRecord_damaged hread hb⟩
  · exact ⟨BlameEvidence.decode_encode hev, fun b hb => exactly_damaged BlameEvidence.decode_lawful hev hb⟩
  · obtain ⟨hfits, rfl⟩ := ((BlameEvidence.decode_lawful _).exactly ev).mp h
    exact ⟨hfits, rfl⟩
  · exact ⟨JournalEntry.decode_eq_some.mpr ⟨he, rfl⟩, fun b hb => exactly_damaged JournalEntry.decode_lawful he hb⟩
  · obtain ⟨hfits, rfl⟩ := JournalEntry.decode_eq_some.mp h
    exact ⟨hfits, rfl⟩

open Secp256k1 in
def unitRecord : Presignature Scalar Point := ⟨1, 1, 1, 1, 1, 1, ⟨[1]⟩, ⟨[1]⟩⟩

theorem unitRecord_fits : unitRecord.Fits := ⟨show 1 < 2 ^ 64 by decide, show 1 < 2 ^ 64 by decide⟩

open Secp256k1 in
theorem persisted_formats_secp256k1 : takeRecord Scalar Point (putRecord unitRecord 5) = some (unitRecord, some 5) :=
  ((persisted_formats_canonical Scalar Point).1 unitRecord 5 unitRecord_fits (by decide)).1

end OhmEcdsa
