import OhmEcdsa.Node.Audit
import OhmEcdsa.Node.Codec

/-!
# Blame tokens as files (`store/persist.rs`, `net/wire.rs`)

A token file holds the tag of its class and its fields; decoding it gives the token
back, so what the auditor reads is what the driver archived:

    Lawful BlameEvidence.encode (BlameEvidence.decodePrefix F G) BlameEvidence.Fits    (BlameEvidence.decode_lawful)
-/

set_option linter.unusedSectionVars false

namespace OhmEcdsa

open Codec Decoder

/-! ## Algorithm -/

/-- `String::from_utf8(..).ok()`. -/
def fromUtf8 (b : Bytes) : Option String := String.fromUTF8? ⟨b.toArray⟩

def takeString : Decoder String := do
  let b ← takeBytes
  ofOption (fromUtf8 b)

/-- `put_abort`. -/
def IdentifiableAbort.encode (a : IdentifiableAbort) : Bytes :=
  phaseCode a.phase :: (countedBytes (fun id => u64Bytes id.val) a.blamed ++ putBytes (utf8 a.detail))

/-- `take_abort`. -/
def takeAbort : Decoder IdentifiableAbort := do
  let code ← takeByte
  let phase ← ofOption (phaseDecode code)
  let blamed ← counted takeUsize
  let detail ← takeString
  return ⟨phase, blamed, detail⟩

section

variable {F G : Type} [Field F] [DecidableEq F] [AddCommGroup G] [Module F G] [DecidableEq G] [K256 F G]
  [WireFormat F G]

def BlameEvidence.encode : BlameEvidence F G → Bytes
  | .core token => 1 :: (token.abort.encode ++ token.envelope.encode DkgMessage.encode ++ token.com.encode F)
  | .dealtShare abort envelope com => 2 :: (abort.encode ++ envelope.encode NodePayload.encode ++ com.encode F)
  | .signShare abort envelope message r uCom zCom =>
    3 :: (abort.encode ++ envelope.encode NodePayload.encode ++ putBytes message ++ WireFormat.scalarBytes G r ++
      uCom.encode F ++ zCom.encode F)
  | .equivocation abort first second =>
    4 :: (abort.encode ++ first.encode NodePayload.encode ++ second.encode NodePayload.encode)

variable (F G) in
def BlameEvidence.decodePrefix : Decoder (BlameEvidence F G) := do
  let tag ← takeByte
  match tag.toNat with
  | 1 => do
    let abort ← takeAbort
    let envelope ← SignedEnvelope.decode F G (DkgMessage.decode F G)
    let com ← FeldmanCommitment.decode F G
    return .core ⟨abort, envelope, com⟩
  | 2 => do
    let abort ← takeAbort
    let envelope ← SignedEnvelope.decode F G (NodePayload.decode F G)
    let com ← FeldmanCommitment.decode F G
    return .dealtShare abort envelope com
  | 3 => do
    let abort ← takeAbort
    let envelope ← SignedEnvelope.decode F G (NodePayload.decode F G)
    let message ← takeBytes
    let r ← takeScalar F G
    let uCom ← FeldmanCommitment.decode F G
    let zCom ← FeldmanCommitment.decode F G
    return .signShare abort envelope message r uCom zCom
  | 4 => do
    let abort ← takeAbort
    let first ← SignedEnvelope.decode F G (NodePayload.decode F G)
    let second ← SignedEnvelope.decode F G (NodePayload.decode F G)
    return .equivocation abort first second
  | _ => fail

variable (F G) in
/-- `BlameEvidence::decode`: no trailing bytes. -/
def BlameEvidence.decode (b : Bytes) : Option (BlameEvidence F G) := (BlameEvidence.decodePrefix F G).exactly b

/-! ### What fits in a file -/

def IdentifiableAbort.Fits (a : IdentifiableAbort) : Prop :=
  a.blamed.length < 2 ^ 64 ∧ 8 + (utf8 a.detail).length < 2 ^ 64

def BlameEvidence.Fits : BlameEvidence F G → Prop
  | .core token => token.abort.Fits ∧ token.envelope.Fits F G DkgMessage.encode DkgMessage.Fits ∧ token.com.Fits
  | .dealtShare abort envelope com =>
    abort.Fits ∧ envelope.Fits F G NodePayload.encode NodePayload.Fits ∧ com.Fits
  | .signShare abort envelope message _ uCom zCom =>
    abort.Fits ∧ envelope.Fits F G NodePayload.encode NodePayload.Fits ∧ 8 + message.length < 2 ^ 64 ∧ uCom.Fits ∧
      zCom.Fits
  | .equivocation abort first second =>
    abort.Fits ∧ first.Fits F G NodePayload.encode NodePayload.Fits ∧ second.Fits F G NodePayload.encode NodePayload.Fits

end

/-! ## Lemmas: strings -/

theorem byteArray_toList_loop (a : ByteArray) (i : Nat) (r : List UInt8) :
    ByteArray.toList.loop a i r = r.reverse ++ a.data.toList.drop i := by
  fun_induction ByteArray.toList.loop a i r with
  | case1 i r hlt ih =>
    have hget : a.get! i = a.data.toList.get ⟨i, by simpa using hlt⟩ := by
      have hbang : a.get! i = a.data[i]! := by
        cases a
        rfl
      rw [hbang, getElem!_pos a.data i hlt]
      rfl
    rw [ih, List.reverse_cons, List.append_assoc, List.singleton_append, hget, List.get_eq_getElem,
      ← List.drop_eq_getElem_cons]
  | case2 i r hge =>
    rw [List.drop_eq_nil_of_le (by simpa using hge), List.append_nil]

theorem byteArray_toList (a : ByteArray) : a.toList = a.data.toList := byteArray_toList_loop a 0 []

/-- A string is read back from its own bytes only. -/
theorem fromUtf8_iff {b : Bytes} {s : String} : fromUtf8 b = some s ↔ b = utf8 s := by
  unfold fromUtf8 utf8 String.fromUTF8? String.toUTF8
  rw [byteArray_toList]
  constructor
  · intro h
    split at h
    · cases h
      rfl
    · cases h
  · rintro rfl
    rw [dif_pos s.isValidUTF8]
    rfl

theorem takeString_lawful : Lawful (fun s => putBytes (utf8 s)) takeString fun s => 8 + (utf8 s).length < 2 ^ 64 := by
  intro n
  refine ((takeBytes_lawful n).bind' fun b => Reads.ofOption (fromUtf8 b)).congr fun v w => ?_
  constructor
  · rintro ⟨b, _, _, ⟨hlen, rfl⟩, ⟨hb, rfl⟩, rfl⟩
    obtain rfl := fromUtf8_iff.mp hb
    exact ⟨hlen, List.append_nil _⟩
  · rintro ⟨hlen, rfl⟩
    exact ⟨utf8 v, _, [], ⟨hlen, rfl⟩, ⟨fromUtf8_iff.mpr rfl, rfl⟩, (List.append_nil _).symm⟩

/-! ## Lemmas: tokens -/

theorem takeAbort_lawful : Lawful IdentifiableAbort.encode takeAbort IdentifiableAbort.Fits := by
  intro n
  refine (Reads.takeByte.bind' fun code => (Reads.ofOption (phaseDecode code)).bind' fun phase =>
    (counted_reads takeUsize_reads).bind' fun blamed => (takeString_lawful n).bind' fun detail =>
    Reads.pure (⟨phase, blamed, detail⟩ : IdentifiableAbort)).congr fun v w => ?_
  constructor
  · rintro ⟨code, _, _, rfl, ⟨phase, _, _, ⟨hphase, rfl⟩, ⟨blamed, _, _, ⟨hblamed, rfl⟩, ⟨detail, _, _, ⟨hdetail, rfl⟩,
      ⟨rfl, rfl⟩, rfl⟩, rfl⟩, rfl⟩, rfl⟩
    obtain rfl := phaseDecode_iff.mp hphase
    exact ⟨⟨hblamed.1, hdetail⟩, by simp [IdentifiableAbort.encode]⟩
  · rintro ⟨hfits, rfl⟩
    exact ⟨phaseCode v.phase, [phaseCode v.phase], _, rfl, ⟨v.phase, [], _, ⟨phaseDecode_iff.mpr rfl, rfl⟩,
      ⟨v.blamed, _, _, ⟨⟨hfits.1, fun _ _ => trivial⟩, rfl⟩, ⟨v.detail, _, [], ⟨hfits.2, rfl⟩, ⟨rfl, rfl⟩, rfl⟩, rfl⟩,
      rfl⟩, by simp [IdentifiableAbort.encode]⟩

section

variable {F G : Type} [Field F] [DecidableEq F] [AddCommGroup G] [Module F G] [DecidableEq G] [K256 F G]
  [WireFormat F G]

/-- An abort, then two fields. -/
theorem abortThen_reads {α β γ : Type} {n : Nat} {d : Decoder α} {d' : Decoder β} {enc : α → List UInt8}
    {enc' : β → List UInt8} {Valid : α → Prop} {Valid' : β → Prop} (h : Reads n d fun v w => Valid v ∧ w = enc v)
    (h' : Reads n d' fun v w => Valid' v ∧ w = enc' v) (mk : IdentifiableAbort → α → β → γ) :
    Reads n (do
      let abort ← takeAbort
      let a ← d
      let b ← d'
      return mk abort a b) fun v w => ∃ abort a b, v = mk abort a b ∧ (abort.Fits ∧ Valid a ∧ Valid' b) ∧
        w = abort.encode ++ enc a ++ enc' b := by
  refine ((takeAbort_lawful n).bind' fun abort => h.bind' fun a => h'.bind' fun b =>
    Reads.pure (mk abort a b)).congr fun v w => ?_
  constructor
  · rintro ⟨abort, _, _, ⟨habort, rfl⟩, ⟨a, _, _, ⟨ha, rfl⟩, ⟨b, _, _, ⟨hb, rfl⟩, ⟨rfl, rfl⟩, rfl⟩, rfl⟩, rfl⟩
    exact ⟨abort, a, b, rfl, ⟨habort, ha, hb⟩, by simp⟩
  · rintro ⟨abort, a, b, rfl, ⟨habort, ha, hb⟩, rfl⟩
    exact ⟨abort, _, _, ⟨habort, rfl⟩, ⟨a, _, _, ⟨ha, rfl⟩, ⟨b, _, [], ⟨hb, rfl⟩, ⟨rfl, rfl⟩, rfl⟩, rfl⟩, by simp⟩

theorem BlameEvidence.encode_ne_nil (ev : BlameEvidence F G) : ev.encode ≠ [] := by
  cases ev <;> exact List.cons_ne_nil _ _

theorem signShareToken_reads (n : Nat) :
    Reads n (do
      let abort ← takeAbort
      let envelope ← SignedEnvelope.decode F G (NodePayload.decode F G)
      let message ← takeBytes
      let r ← takeScalar F G
      let uCom ← FeldmanCommitment.decode F G
      let zCom ← FeldmanCommitment.decode F G
      return (.signShare abort envelope message r uCom zCom : BlameEvidence F G))
      fun v w => BlameEvidence.Fits v ∧ 3 :: w = v.encode := by
  have henv := SignedEnvelope.decode_reads (F := F) (G := G) (n := n) fun m _ => NodePayload.decode_lawful (F := F) (G := G) m
  have hcom := FeldmanCommitment.decode_lawful (F := F) (G := G) n
  refine ((takeAbort_lawful n).bind' fun abort => henv.bind' fun envelope => (takeBytes_lawful n).bind' fun message =>
    (takeScalar_lawful n).bind' fun r => hcom.bind' fun uCom => hcom.bind' fun zCom =>
      Reads.pure (BlameEvidence.signShare abort envelope message r uCom zCom)).congr fun v w => ?_
  constructor
  · rintro ⟨abort, _, _, ⟨habort, rfl⟩, ⟨envelope, _, _, ⟨henv, rfl⟩, ⟨message, _, _, ⟨hmessage, rfl⟩, ⟨r, _, _,
      ⟨-, rfl⟩, ⟨uCom, _, _, ⟨hu, rfl⟩, ⟨zCom, _, _, ⟨hz, rfl⟩, ⟨rfl, rfl⟩, rfl⟩, rfl⟩, rfl⟩, rfl⟩, rfl⟩, rfl⟩
    exact ⟨⟨habort, henv, hmessage, hu, hz⟩, by simp [BlameEvidence.encode]⟩
  · rintro ⟨hfits, hw⟩
    cases v with
    | signShare abort envelope message r uCom zCom =>
      obtain ⟨habort, henv, hmessage, hu, hz⟩ := hfits
      refine ⟨abort, _, _, ⟨habort, rfl⟩, ⟨envelope, _, _, ⟨henv, rfl⟩, ⟨message, _, _, ⟨hmessage, rfl⟩, ⟨r, _, _,
        ⟨trivial, rfl⟩, ⟨uCom, _, _, ⟨hu, rfl⟩, ⟨zCom, _, [], ⟨hz, rfl⟩, ⟨rfl, rfl⟩, rfl⟩, rfl⟩, rfl⟩, rfl⟩, rfl⟩, ?_⟩
      rw [(List.cons.inj hw).2]
      simp
    | _ => simp [BlameEvidence.encode] at hw

/-- **A token file is read back**, and no other bytes are. -/
theorem BlameEvidence.decode_lawful :
    Lawful (BlameEvidence.encode : BlameEvidence F G → Bytes) (BlameEvidence.decodePrefix F G) BlameEvidence.Fits := by
  intro n
  have hdkg := SignedEnvelope.decode_reads (F := F) (G := G) (n := n) fun m _ => DkgMessage.decode_lawful (F := F) (G := G) m
  have hnode := SignedEnvelope.decode_reads (F := F) (G := G) (n := n) fun m _ => NodePayload.decode_lawful (F := F) (G := G) m
  have hcom := FeldmanCommitment.decode_lawful (F := F) (G := G) n
  refine tagged_reads BlameEvidence.encode_ne_nil fun tag => ?_
  split
  · rename_i htag
    obtain rfl : tag = 1 := UInt8.toNat_inj.mp htag
    refine (abortThen_reads hdkg hcom fun abort envelope com => BlameEvidence.core ⟨abort, envelope, com⟩).congr
      fun v w => ?_
    cases v with
    | core token =>
      cases token
      simp [BlameEvidence.encode, BlameEvidence.Fits]
    | _ => simp [BlameEvidence.encode]
  · rename_i htag
    obtain rfl : tag = 2 := UInt8.toNat_inj.mp htag
    refine (abortThen_reads hnode hcom BlameEvidence.dealtShare).congr fun v w => ?_
    cases v <;> simp [BlameEvidence.encode, BlameEvidence.Fits]
  · rename_i htag
    obtain rfl : tag = 3 := UInt8.toNat_inj.mp htag
    exact signShareToken_reads n
  · rename_i htag
    obtain rfl : tag = 4 := UInt8.toNat_inj.mp htag
    refine (abortThen_reads hnode hnode BlameEvidence.equivocation).congr fun v w => ?_
    cases v <;> simp [BlameEvidence.encode, BlameEvidence.Fits]
  · rename_i h1 h2 h3 h4
    refine Reads.fail.congr fun v w => iff_of_false not_false ?_
    rintro ⟨-, htag⟩
    cases v
    · exact h1 (congrArg UInt8.toNat (List.cons.inj htag).1)
    · exact h2 (congrArg UInt8.toNat (List.cons.inj htag).1)
    · exact h3 (congrArg UInt8.toNat (List.cons.inj htag).1)
    · exact h4 (congrArg UInt8.toNat (List.cons.inj htag).1)

theorem BlameEvidence.decode_encode {ev : BlameEvidence F G} (h : ev.Fits) : BlameEvidence.decode F G ev.encode = some ev :=
  (Reads.exactly (BlameEvidence.decode_lawful _) ev).mpr ⟨h, rfl⟩

end

end OhmEcdsa
