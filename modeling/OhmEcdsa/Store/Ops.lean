import OhmEcdsa.Store.Open
import OhmEcdsa.Store.Record

/-!
# The store's operations (`store/persist.rs`)

Each operation changes the files of one id, and then appends one entry that says so.  An
operation on a store that mirrors its directory leaves one that does, with one more entry:

    Goes C d (consume id) (d' mirrored, with the record consumed) (d unchanged)     (consume_goes)

The entry is the last step of each, so the argument about it is made once (`append_mirrors`).
-/

set_option linter.unusedSectionVars false

namespace OhmEcdsa

open Codec Decoder Hoare

/-! ## Lemmas: one id's files -/

/-- The files of an id are those of `d`. -/
structure Disk.SameAt (d d' : Disk) (id : U64) : Prop where
  consumed : d'.consumed[id]? = d.consumed[id]?
  expired : d'.expired[id]? = d.expired[id]?
  presig : d'.presig[id]? = d.presig[id]?

/-- Every tombstone of `d` is there. -/
structure Disk.Buries (d d' : Disk) : Prop where
  consumed : ∀ id : U64, (d.consumed[id]?).isSome → (d'.consumed[id]?).isSome
  expired : ∀ id : U64, (d.expired[id]?).isSome → (d'.expired[id]?).isSome

namespace Disk

/-! The directories that the operations pass through. -/

def staged (d : Disk) (id : U64) (b : Bytes) : Disk := { d with tmp := d.tmp.insert id b }

def inserted (d : Disk) (id : U64) (b : Bytes) : Disk :=
  { d with tmp := (d.tmp.insert id b).erase id, presig := d.presig.insert id b }

def consumedAt (d : Disk) (id : U64) (b : Bytes) : Disk :=
  { d with presig := d.presig.erase id, consumed := d.consumed.insert id b }

def expiredAt (d : Disk) (id : U64) : Disk :=
  { d with tmp := (d.tmp.insert id []).erase id, expired := d.expired.insert id [] }

def erased (d : Disk) (id : U64) : Disk := { d with presig := d.presig.erase id }

variable {cr : Crypto} {d d' : Disk} {id : U64}

namespace SameAt

theorem tombstone (h : d.SameAt d' id) : d'.tombstone cr id = d.tombstone cr id := by
  unfold Disk.tombstone
  rw [h.consumed, h.expired]

theorem state (h : d.SameAt d' id) : d'.state cr id = d.state cr id := by
  unfold Disk.state
  rw [h.tombstone, h.presig]

theorem createdAt {F G : Type} [Field F] [DecidableEq F] [AddCommGroup G] [Module F G] [DecidableEq G] [K256 F G]
    [WireFormat F G] {mtime : U64 → Nat} (h : d.SameAt d' id) :
    d'.createdAt F G cr mtime id = d.createdAt F G cr mtime id := by
  unfold Disk.createdAt
  rw [h.tombstone, h.presig]

end SameAt

namespace Buries

theorem refl (d : Disk) : d.Buries d := ⟨fun _ h => h, fun _ h => h⟩

theorem staged (d : Disk) (id : U64) (b : Bytes) : d.Buries (d.staged id b) := ⟨fun _ h => h, fun _ h => h⟩

theorem inserted (d : Disk) (id : U64) (b : Bytes) : d.Buries (d.inserted id b) := ⟨fun _ h => h, fun _ h => h⟩

theorem insert_isSome {m : U64Map Bytes} {b : Bytes} {i : U64} (h : (m[i]?).isSome) : ((m.insert id b)[i]?).isSome := by
  rw [getElem?_insert_word]
  split
  · rfl
  · exact h

theorem consumedAt (d : Disk) (id : U64) (b : Bytes) : d.Buries (d.consumedAt id b) :=
  ⟨fun _ h => insert_isSome h, fun _ h => h⟩

theorem expiredAt (d : Disk) (id : U64) : d.Buries (d.expiredAt id) := ⟨fun _ h => h, fun _ h => insert_isSome h⟩

theorem erased (h : d.Buries d') (id : U64) : d.Buries (d'.erased id) := ⟨h.consumed, h.expired⟩

end Buries

theorem tombstone_eq_none : d.tombstone cr id = none ↔ d.expired[id]? = none ∧ d.consumed[id]? = none := by
  unfold tombstone
  cases d.expired[id]? <;> cases d.consumed[id]? <;> simp

theorem state_eq_none : d.state cr id = none ↔ d.tombstone cr id = none ∧ d.presig[id]? = none := by
  unfold state
  cases d.tombstone cr id <;> cases d.presig[id]? <;> simp

theorem state_eq_expired (h : (d.expired[id]?).isSome) : d.state cr id = some .expired := by
  obtain ⟨b, hb⟩ := Option.isSome_iff_exists.mp h
  unfold state tombstone
  rw [hb]
  rfl

theorem state_eq_consumed {b : Bytes} (hexp : d.expired[id]? = none) (hb : d.consumed[id]? = some b) :
    d.state cr id = some (.consumed (payloadDigest cr b)) := by
  unfold state tombstone
  rw [hexp, hb]
  rfl

end Disk

/-! ## Lemmas: the entry of an operation -/

section Store

variable {F G : Type} [Field F] [DecidableEq F] [AddCommGroup G] [Module F G] [DecidableEq G] [K256 F G]
  [WireFormat F G] {cr : Crypto} {mtime : U64 → Nat} {d : Disk} {entries : List JournalEntry} {store : DiskPresigStore}
  {C : Disk → FsStep → Prop}

theorem createdAt_of_dead {s : DiskState} {id : U64} (hs : d.state cr id = some s) (hdead : ∀ h, s ≠ .live h) :
    d.createdAt F G cr mtime id = none := by
  unfold Disk.createdAt
  cases htomb : d.tombstone cr id with
  | some t => rfl
  | none =>
    cases hp : d.presig[id]? with
    | none => rfl
    | some b =>
      rw [Disk.state_eq_live htomb hp] at hs
      exact absurd (Option.some.inj hs).symm (hdead _)

/-- The record that a consume hands out. -/
def Disk.Holds (cr : Crypto) (d : Disk) (id : U64) (presig : Presignature F G) : Prop :=
  ∃ sealed plain time, d.presig[id]? = some sealed ∧ openSealed cr (recordPurpose id) sealed = .ok plain ∧
    takeRecord F G plain = some (presig, time)

/-- The files of the id are as the entry to come says, and the sets are those of the files. -/
structure Changed (F G : Type) [Field F] [DecidableEq F] [AddCommGroup G] [Module F G] [DecidableEq G] [K256 F G]
    [WireFormat F G] (cr : Crypto) (mtime : U64 → Nat) (d : Disk) (store : DiskPresigStore) (id : U64) (s : DiskState)
    (d' : Disk) (store' : DiskPresigStore) : Prop where
  same : ∀ i, i ≠ id → d.SameAt d' i
  state : d'.state cr id = some s
  live : ∀ i, i ∈ store'.live ↔ if i = id then s.isLive = true else i ∈ store.live
  consumed : ∀ i, i ∈ store'.consumed ↔ if i = id then ∃ h, s = .consumed h else i ∈ store.consumed
  expired : ∀ i, i ∈ store'.expired ↔ if i = id then s = .expired else i ∈ store.expired
  created : ∀ i : U64, store'.created[i]? = if i = id then d'.createdAt F G cr mtime id else store.created[i]?
  timed : s.isLive = true → ∃ time, d'.createdAt F G cr mtime id = some time

/-- An operation on an id that went through. -/
structure Mutated (F G : Type) [Field F] [DecidableEq F] [AddCommGroup G] [Module F G] [DecidableEq G] [K256 F G]
    [WireFormat F G] (cr : Crypto) (mtime : U64 → Nat) (d : Disk) (entries : List JournalEntry) (store : DiskPresigStore)
    (id : U64) (s : DiskState) (d' : Disk) (store' : DiskPresigStore) : Prop
    extends Changed F G cr mtime d store id s d' store' where
  mirrors : ∃ op payload, Mirrors F G cr mtime d' (entries ++ [nextEntry cr entries op id payload]) store'
  buries : d.Buries d'
  key : d'.key = d.key

/-- The directory of a call on an id, before its entry: the files of the id are as they were, or a call away from
what the journal says. -/
structure Midway (F G : Type) [Field F] [DecidableEq F] [AddCommGroup G] [Module F G] [DecidableEq G] [K256 F G]
    [WireFormat F G] (cr : Crypto) (mtime : U64 → Nat) (d : Disk) (entries : List JournalEntry) (id : U64) (s : Disk) :
    Prop where
  key : s.key = d.key
  journal : s.journal = d.journal
  buries : d.Buries s
  same : ∀ i, i ≠ id → d.SameAt s i
  own : d.SameAt s id ∨
    stateOf entries id = none ∧ s.tombstone cr id = none ∧
      (∃ b time, s.presig[id]? = some b ∧ recordTime F G cr mtime id b = .ok time) ∨
    (∀ j, stateOf entries id = some j → ∃ h, j = .live h) ∧ s.state cr id = some .expired ∨
    ∃ h, stateOf entries id = some (.live h) ∧ s.state cr id = some (.consumed h)

/-- The directory of a call on an id, at any point. -/
def Amid (F G : Type) [Field F] [DecidableEq F] [AddCommGroup G] [Module F G] [DecidableEq G] [K256 F G]
    [WireFormat F G] (cr : Crypto) (mtime : U64 → Nat) (d : Disk) (entries : List JournalEntry) (store : DiskPresigStore)
    (id : U64) (s : Disk) : Prop :=
  Midway F G cr mtime d entries id s ∨ ∃ st store', Mutated F G cr mtime d entries store id st s store'

theorem Midway.staged (d : Disk) (entries : List JournalEntry) (id : U64) (b : Bytes) :
    Midway F G cr mtime d entries id (d.staged id b) :=
  ⟨rfl, rfl, Disk.Buries.staged d id b, fun _ _ => ⟨rfl, rfl, rfl⟩, Or.inl ⟨rfl, rfl, rfl⟩⟩

theorem Midway.refl (d : Disk) (entries : List JournalEntry) (id : U64) : Midway F G cr mtime d entries id d :=
  ⟨rfl, rfl, Disk.Buries.refl d, fun _ _ => ⟨rfl, rfl, rfl⟩, Or.inl ⟨rfl, rfl, rfl⟩⟩

theorem Midway.expiredAt (d : Disk) {id : U64} (hj : ∀ j, stateOf entries id = some j → ∃ h, j = .live h) :
    Midway F G cr mtime d entries id (d.expiredAt id) := by
  refine ⟨rfl, rfl, Disk.Buries.expiredAt d id, fun i hi => ⟨rfl, (getElem?_insert_word _ _ _ _).trans (if_neg hi), rfl⟩,
    Or.inr (Or.inr (Or.inl ⟨hj, Disk.state_eq_expired ?_⟩))⟩
  rw [show (d.expiredAt id).expired[id]? = _ from getElem?_insert_word _ _ _ _, if_pos rfl]
  rfl

theorem Midway.expired_erased (d : Disk) {id : U64} (hj : ∀ j, stateOf entries id = some j → ∃ h, j = .live h) :
    Midway F G cr mtime d entries id ((d.expiredAt id).erased id) := by
  refine ⟨rfl, rfl, (Disk.Buries.expiredAt d id).erased id, fun i hi => ⟨rfl, (getElem?_insert_word _ _ _ _).trans (if_neg hi),
    (getElem?_erase_word _ _ _).trans (if_neg hi)⟩, Or.inr (Or.inr (Or.inl ⟨hj, Disk.state_eq_expired ?_⟩))⟩
  rw [show ((d.expiredAt id).erased id).expired[id]? = _ from getElem?_insert_word _ _ _ _, if_pos rfl]
  rfl

/-- The tombstone of an expiry, written and renamed. -/
theorem bury_goes {id : U64} (hj : ∀ j, stateOf entries id = some j → ∃ h, j = .live h) (hC : ∀ s t, FsStep.Within (Amid F G cr mtime d entries store id) s t → C s t) {α : Type}
    {f : Unit → FsM α} {P : α → Disk → Prop} {E : PersistError → Disk → Prop} (h : Goes C (d.expiredAt id) (f ()) P E) :
    Goes C d (fs (.writeTmp id []) >>= fun _ => fs (.renameToExpired id) >>= f) P E := by
  have hstart : Amid F G cr mtime d entries store id d := Or.inl (Midway.refl d entries id)
  have hstaged : Amid F G cr mtime d entries store id (d.staged id []) := Or.inl (Midway.staged d entries id [])
  refine (Goes.step (P := fun _ d' => d' = d.staged id []) rfl
    (hC d _ ⟨⟨hstart, _, rfl, hstaged⟩, fun _ h => (by cases h)⟩) rfl).bind fun _ d₁ hd₁ => ?_
  subst hd₁
  have htmp : (d.staged id []).tmp[id]? = some [] := (getElem?_insert_word _ _ _ _).trans (if_pos rfl)
  refine (Goes.step (P := fun _ d' => d' = d.expiredAt id) (FsStep.apply_renameToExpired htmp)
    (hC _ _ ⟨⟨hstaged, _, FsStep.apply_renameToExpired htmp, Or.inl (Midway.expiredAt d hj)⟩,
      fun _ h => (by cases h)⟩) rfl).bind fun _ d₂ hd₂ => ?_
  subst hd₂
  exact h

theorem append_mirrors {id : U64} {op : UInt8} {payload : Bytes} {d' : Disk} {store' : DiskPresigStore}
    {s : DiskState} {E : PersistError → Disk → Prop} (h : Mirrors F G cr mtime d entries store)
    (hroom : entries.length + 1 < 2 ^ 64) (hchanged : Changed F G cr mtime d store id s d' store')
    (hop : OpAllowed (lastEntry entries id) op) (hp : payload.length = 32)
    (hs : (entryState (nextEntry cr entries op id payload)).artifact = s)
    (hmid : Midway F G cr mtime d entries id d') (hC : ∀ s t, FsStep.Within (Amid F G cr mtime d entries store id) s t → C s t) :
    Goes C d' (store.journal.append cr op id payload)
      (fun journal d'' => Mutated F G cr mtime d entries store id s d'' { store' with journal := journal } ∧
        d''.presig = d'.presig) E := by
  subst hs
  obtain ⟨bytes, hj, hreplay⟩ := h.journal
  have hreplay' := nextEntry_replays hreplay hroom hop hp
  have hmut : Mutated F G cr mtime d entries store id (entryState (nextEntry cr entries op id payload)).artifact
      { d' with journal := some (bytes ++ frame (nextEntry cr entries op id payload).encode) }
      { store' with journal := writerOf (entries ++ [nextEntry cr entries op id payload]) } := by
    refine ⟨⟨fun i hi => ?_, hchanged.state, hchanged.live, hchanged.consumed, hchanged.expired, hchanged.created,
      hchanged.timed⟩, ⟨op, payload, ?_⟩, ⟨hmid.buries.consumed, hmid.buries.expired⟩, hmid.key⟩
    · exact ⟨(hchanged.same i hi).consumed, (hchanged.same i hi).expired, (hchanged.same i hi).presig⟩
    have hstate : ∀ i, i ≠ id → d'.state cr i = d.state cr i := fun i hi => (hchanged.same i hi).state
    have hsnoc : ∀ i, stateOf (entries ++ [nextEntry cr entries op id payload]) i =
        if i = id then some (entryState (nextEntry cr entries op id payload)) else stateOf entries i := fun i => stateOf_snoc _ _ i
    refine ⟨⟨_, rfl, hreplay'⟩, rfl, fun i j hs => ?_, fun i dg hs => ?_, fun i => ?_, fun i => ?_, fun i => ?_, fun i => ?_,
      fun i hi => ?_⟩
    · show d'.state cr i = _
      rw [hsnoc] at hs
      by_cases hi : i = id
      · rw [if_pos hi] at hs
        rw [hi, hchanged.state, ← Option.some.inj hs]
      · rw [if_neg hi] at hs
        rw [hstate i hi]
        exact h.settled i j hs
    · rw [hsnoc]
      by_cases hi : i = id
      · rw [if_pos hi]
        rfl
      · rw [if_neg hi]
        exact h.accounted i dg ((hstate i hi).symm.trans hs)
    · show i ∈ store'.live ↔ ∃ dg, d'.state cr i = _
      rw [hchanged.live]
      by_cases hi : i = id
      · rw [if_pos hi, hi, hchanged.state, DiskState.isLive_iff]
        simp only [Option.some.injEq]
      · rw [if_neg hi, hstate i hi]
        exact h.live i
    · show i ∈ store'.consumed ↔ ∃ dg, d'.state cr i = _
      rw [hchanged.consumed]
      by_cases hi : i = id
      · rw [if_pos hi, hi, hchanged.state]
        simp only [Option.some.injEq]
      · rw [if_neg hi, hstate i hi]
        exact h.consumed i
    · show i ∈ store'.expired ↔ d'.state cr i = _
      rw [hchanged.expired]
      by_cases hi : i = id
      · rw [if_pos hi, hi, hchanged.state, Option.some.injEq]
      · rw [if_neg hi, hstate i hi]
        exact h.expired i
    · show store'.created[i]? = d'.createdAt F G cr mtime i
      rw [hchanged.created]
      by_cases hi : i = id
      · rw [if_pos hi, hi]
      · rw [if_neg hi, (hchanged.same i hi).createdAt]
        exact h.created i
    · have hlive := (hchanged.live i).mp hi
      show ∃ time, store'.created[i]? = some time
      rw [hchanged.created]
      by_cases hid : i = id
      · rw [if_pos hid] at hlive ⊢
        exact hchanged.timed hlive
      · rw [if_neg hid] at hlive ⊢
        exact h.timed i hlive
  rw [h.writer]
  exact append_goes (hmid.journal.trans hj) hreplay hp hC (Or.inl hmid) (Or.inr ⟨_, _, hmut⟩) ⟨hmut, rfl⟩

theorem known_iff {id : U64} : store.known id = true ↔ id ∈ store.live ∨ id ∈ store.consumed ∨ id ∈ store.expired :=
  decide_eq_true_iff

namespace Mirrors

/-- A journal that a file holds has room for another entry. -/
theorem room (h : Mirrors F G cr mtime d entries store) (hd : d.Bounded) : 117 * entries.length < 2 ^ 63 := by
  obtain ⟨bytes, hj, hreplay⟩ := h.journal
  exact lt_of_le_of_lt (journalReplay_length hreplay) (hd.journal bytes hj)

theorem unknown (h : Mirrors F G cr mtime d entries store) {id : U64} (hid : store.known id = false) :
    d.state cr id = none ∧ stateOf entries id = none := by
  have hnone : d.state cr id = none := by
    unfold DiskPresigStore.known at hid
    rw [decide_eq_false_iff_not, not_or, not_or, h.live, h.consumed, h.expired] at hid
    obtain ⟨hl, hc, he⟩ := hid
    cases hs : d.state cr id with
    | none => rfl
    | some s =>
      cases s with
      | live dg => exact absurd ⟨dg, hs⟩ hl
      | consumed dg => exact absurd ⟨dg, hs⟩ hc
      | expired => exact absurd hs he
  refine ⟨hnone, ?_⟩
  cases hj : stateOf entries id with
  | none => rfl
  | some j =>
    have := h.settled id j hj
    rw [hnone] at this
    cases this

/-- A live id is journaled as live, and its record is there. -/
theorem liveRecord (h : Mirrors F G cr mtime d entries store) {id : U64} (hid : id ∈ store.live) :
    ∃ b, d.tombstone cr id = none ∧ d.presig[id]? = some b ∧ stateOf entries id = some (.live (payloadDigest cr b)) := by
  obtain ⟨dg, hs⟩ := (h.live id).mp hid
  obtain ⟨hnone, b, hb, rfl⟩ := Disk.state_presig hs
  refine ⟨b, hnone, hb, ?_⟩
  obtain ⟨j, hj⟩ := Option.isSome_iff_exists.mp (h.accounted id _ hs)
  have hart := h.settled id j hj
  rw [hs] at hart
  rw [hj]
  cases j with
  | live dg' => rw [show payloadDigest cr b = dg' from by cases hart; rfl]
  | consumed dg' => cases hart
  | expired => cases hart

/-- The record of a live id opens. -/
theorem holds (h : Mirrors F G cr mtime d entries store) {id : U64} (hid : id ∈ store.live) :
    ∃ presig : Presignature F G, d.Holds cr id presig := by
  obtain ⟨b, htomb, hb, -⟩ := h.liveRecord hid
  obtain ⟨time, ht⟩ := h.timed id hid
  rw [h.created] at ht
  unfold Disk.createdAt at ht
  rw [htomb, hb] at ht
  unfold recordTime at ht
  cases hopen : openSealed cr (recordPurpose id) b with
  | error e =>
    simp only [hopen, Option.bind_some] at ht
    split at ht <;> cases ht
  | ok plain =>
    cases htake : takeRecord F G plain with
    | none =>
      simp only [hopen, htake, Option.bind_some] at ht
      split at ht <;> cases ht
    | some record => exact ⟨record.1, b, plain, record.2, hb, hopen, htake⟩

theorem live_not_dead (h : Mirrors F G cr mtime d entries store) {id : U64} (hid : id ∈ store.live) :
    id ∉ store.consumed ∧ id ∉ store.expired := by
  obtain ⟨dg, hs⟩ := (h.live id).mp hid
  rw [h.consumed, h.expired, hs]
  exact ⟨fun ⟨_, hc⟩ => (by cases hc), fun he => (by cases he)⟩

end Mirrors

/-! ## Lemmas: sealed records -/

theorem isSealed_sealFile (purpose : Bytes) (nonce : Nonce) (plain : Bytes) :
    isSealed (sealFile cr purpose nonce plain) = true := by
  unfold isSealed sealFile
  rw [List.append_assoc, List.isPrefixOf_iff_prefix]
  exact List.prefix_append _ _

theorem openSealed_sealFile (purpose : Bytes) (nonce : Nonce) (plain : Bytes) :
    openSealed cr purpose (sealFile cr purpose nonce plain) = .ok plain := by
  have hdrop : (sealFile cr purpose nonce plain).drop sealMagic.length =
      nonce.val ++ cr.encrypt nonce.val (sealMagic ++ purpose) plain := by
    unfold sealFile
    rw [List.append_assoc, List.drop_left]
  have htake : (nonce.val ++ cr.encrypt nonce.val (sealMagic ++ purpose) plain).take 12 = nonce.val :=
    List.take_left' nonce.property
  have hrest : (nonce.val ++ cr.encrypt nonce.val (sealMagic ++ purpose) plain).drop 12 =
      cr.encrypt nonce.val (sealMagic ++ purpose) plain := List.drop_left' nonce.property
  have hlen : ¬ (nonce.val ++ cr.encrypt nonce.val (sealMagic ++ purpose) plain).length < 12 := by
    rw [List.length_append, nonce.property]
    omega
  unfold openSealed
  rw [isSealed_sealFile]
  simp only [hdrop, htake, hrest, cr.decrypt_encrypt]
  rw [if_neg hlen]
  rfl

theorem recordTime_sealFile (nonce : Nonce) {p : Presignature F G} {createdAt : Nat} (hp : p.Fits)
    (ht : createdAt < 2 ^ 64) :
    recordTime F G cr mtime p.id (sealFile cr (recordPurpose p.id) nonce (putRecord p createdAt)) = .ok createdAt := by
  unfold recordTime
  rw [isSealed_sealFile, openSealed_sealFile]
  simp only [takeRecord_stamped_iff.mpr ⟨⟨hp, ht⟩, rfl⟩]
  rfl

/-! ## Lemmas: the operations -/

variable (h : Mirrors F G cr mtime d entries store) (hroom : entries.length + 1 < 2 ^ 64)

include h hroom

theorem insertAt_goes (nonce : Nonce) {presig : Presignature F G} {createdAt : Nat} (hp : presig.Fits)
    (ht : createdAt < 2 ^ 64) (hC : ∀ s t, FsStep.Within (Amid F G cr mtime d entries store presig.id) s t → C s t) :
    Goes C d (store.insertAt cr nonce presig createdAt)
      (fun store' d' => store.known presig.id = false ∧ store'.created[presig.id]? = some createdAt ∧
        d'.presig[presig.id]? = some (sealFile cr (recordPurpose presig.id) nonce (putRecord presig createdAt)) ∧
        ∃ dg, Mutated F G cr mtime d entries store presig.id (.live dg) d' store')
      (fun e d' => d' = d ∧ store.known presig.id = true ∧ e = presigStore "duplicate presignature id") := by
  unfold DiskPresigStore.insertAt
  simp only
  cases hknown : store.known presig.id with
  | true => exact Goes.throw ⟨rfl, rfl, rfl⟩
  | false =>
    obtain ⟨hnone, hfresh⟩ := h.unknown hknown
    obtain ⟨htomb, -⟩ := Disk.state_eq_none.mp hnone
    rw [if_neg Bool.false_ne_true]
    generalize hb : sealFile cr (recordPurpose presig.id) nonce (putRecord presig createdAt) = b
    have hstart : Amid F G cr mtime d entries store presig.id d := Or.inl (Midway.refl d entries presig.id)
    have hstaged : Amid F G cr mtime d entries store presig.id (d.staged presig.id b) :=
      Or.inl (Midway.staged d entries presig.id b)
    have hmid : Midway F G cr mtime d entries presig.id (d.inserted presig.id b) := by
      refine ⟨rfl, rfl, Disk.Buries.inserted d presig.id b, fun i hi => ⟨rfl, rfl, ?_⟩,
        Or.inr (Or.inl ⟨hfresh, htomb, b, createdAt, ?_, ?_⟩)⟩
      · exact (getElem?_insert_word _ _ _ _).trans (if_neg hi)
      · exact (getElem?_insert_word _ _ _ _).trans (if_pos rfl)
      · rw [← hb]
        exact recordTime_sealFile nonce hp ht
    refine (Goes.step (P := fun _ d' => d' = d.staged presig.id b) rfl
      (hC d _ ⟨⟨hstart, _, rfl, hstaged⟩, fun _ h => (by cases h)⟩) rfl).bind fun _ d₁ hd₁ => ?_
    subst hd₁
    have htmp : (d.staged presig.id b).tmp[presig.id]? = some b := (getElem?_insert_word _ _ _ _).trans (if_pos rfl)
    refine (Goes.step (P := fun _ d' => d' = d.inserted presig.id b) (FsStep.apply_renameToPresig htmp)
      (hC _ _ ⟨⟨hstaged, _, FsStep.apply_renameToPresig htmp, Or.inl hmid⟩, fun _ h => (by cases h)⟩) rfl).bind
      fun _ d₂ hd₂ => ?_
    subst hd₂
    have hself : (d.inserted presig.id b).presig[presig.id]? = some b := (getElem?_insert_word _ _ _ _).trans (if_pos rfl)
    have hunknown : presig.id ∉ store.live ∧ presig.id ∉ store.consumed ∧ presig.id ∉ store.expired := by
      unfold DiskPresigStore.known at hknown
      rwa [decide_eq_false_iff_not, not_or, not_or] at hknown
    have htomb' : (d.inserted presig.id b).tombstone cr presig.id = none := htomb
    have htime : (d.inserted presig.id b).createdAt F G cr mtime presig.id = some createdAt := by
      unfold Disk.createdAt
      rw [htomb', hself]
      simp only [Option.bind_some]
      rw [← hb, recordTime_sealFile nonce hp ht]
      rfl
    have hchanged : Changed F G cr mtime d store presig.id (.live (payloadDigest cr b)) (d.inserted presig.id b)
        { store with
          live := insert presig.id store.live
          created := store.created.insert presig.id createdAt } := by
      refine ⟨fun i hi => ⟨rfl, rfl, ?_⟩, Disk.state_eq_live htomb' hself, fun i => ?_, fun i => ?_, fun i => ?_, fun i => ?_,
        fun _ => ⟨createdAt, htime⟩⟩
      · show (d.presig.insert presig.id b)[i]? = _
        rw [getElem?_insert_word, if_neg hi]
      · show i ∈ insert presig.id store.live ↔ _
        rw [Finset.mem_insert]
        by_cases hi : i = presig.id <;> simp [hi, DiskState.isLive]
      · show i ∈ store.consumed ↔ _
        by_cases hi : i = presig.id
        · simp [hi, hunknown.2.1]
        · simp [hi]
      · show i ∈ store.expired ↔ _
        by_cases hi : i = presig.id
        · simp [hi, hunknown.2.2]
        · simp [hi]
      · show (store.created.insert presig.id createdAt)[i]? = _
        rw [getElem?_insert_word, htime]
    refine (append_mirrors h hroom hchanged (opAllowed_fresh hfresh (Or.inl rfl)) (payloadDigest_length cr b) rfl hmid hC).bind
      fun journal d' hm => Goes.pure ⟨rfl, ?_, ?_, _, hm.1⟩
    · show (store.created.insert presig.id createdAt)[presig.id]? = _
      rw [getElem?_insert_word, if_pos rfl]
    · rw [hm.2, hself]

/-- **Consuming** hands out a live record once it is a tombstone; only a dead or unknown id is refused. -/
theorem consume_goes (id : U64) (hC : ∀ s t, FsStep.Within (Amid F G cr mtime d entries store id) s t → C s t) :
    Goes C d (store.consume F G cr id)
      (fun out d' => id ∈ store.live ∧ d.Holds cr id out.1 ∧ ∃ dg, d.state cr id = some (.live dg) ∧
        Mutated F G cr mtime d entries store id (.consumed dg) d' out.2)
      (fun e d' => d' = d ∧ id ∉ store.live ∧ e = presigStore "unknown or consumed presignature id") := by
  unfold DiskPresigStore.consume
  by_cases hid : id ∈ store.live
  · obtain ⟨b, htomb, hb, hstate⟩ := h.liveRecord hid
    obtain ⟨presig, b', plain, time, hb', hopen, htake⟩ := h.holds hid
    obtain rfl : b = b' := Option.some.inj (hb.symm.trans hb')
    obtain ⟨hexp, hcon⟩ := Disk.tombstone_eq_none.mp htomb
    rw [if_neg (not_not.mpr hid)]
    refine Goes.bind (P := fun now d' => now = d ∧ d' = d) (Goes.read ⟨rfl, rfl⟩) ?_
    rintro now d' ⟨hnow, hd'⟩
    rw [hnow, hd', hb]
    simp only [hopen, htake]
    have hself : (d.consumedAt id b).consumed[id]? = some b := (getElem?_insert_word _ _ _ _).trans (if_pos rfl)
    have hdead : (d.consumedAt id b).state cr id = some (.consumed (payloadDigest cr b)) :=
      Disk.state_eq_consumed hexp hself
    have hmid : Midway F G cr mtime d entries id (d.consumedAt id b) :=
      ⟨rfl, rfl, Disk.Buries.consumedAt d id b, fun i hi => ⟨(getElem?_insert_word _ _ _ _).trans (if_neg hi), rfl,
        (getElem?_erase_word _ _ _).trans (if_neg hi)⟩, Or.inr (Or.inr (Or.inr ⟨_, hstate, hdead⟩))⟩
    refine (Goes.step (P := fun _ d' => d' = d.consumedAt id b) (FsStep.apply_renameToConsumed hb)
      (hC d _ ⟨⟨Or.inl (Midway.refl d entries id), _, FsStep.apply_renameToConsumed hb, Or.inl hmid⟩,
        fun _ h => (by cases h)⟩) rfl).bind fun _ d₁ hd₁ => ?_
    subst hd₁
    have hchanged : Changed F G cr mtime d store id (.consumed (payloadDigest cr b)) (d.consumedAt id b)
        { store with
          live := store.live.erase id
          created := store.created.erase id
          consumed := insert id store.consumed } := by
      refine ⟨fun i hi => ⟨?_, rfl, ?_⟩, hdead, fun i => ?_, fun i => ?_, fun i => ?_, fun i => ?_,
        fun hl => (by cases hl)⟩
      · show (d.consumed.insert id b)[i]? = _
        rw [getElem?_insert_word, if_neg hi]
      · show (d.presig.erase id)[i]? = _
        rw [getElem?_erase_word, if_neg hi]
      · show i ∈ store.live.erase id ↔ _
        rw [Finset.mem_erase]
        by_cases hi : i = id <;> simp [hi, DiskState.isLive]
      · show i ∈ insert id store.consumed ↔ _
        rw [Finset.mem_insert]
        by_cases hi : i = id <;> simp [hi]
      · show i ∈ store.expired ↔ _
        by_cases hi : i = id
        · simp [hi, (h.live_not_dead hid).2]
        · simp [hi]
      · show (store.created.erase id)[i]? = _
        rw [getElem?_erase_word, createdAt_of_dead hdead fun h hl => by cases hl]
    exact (append_mirrors h hroom hchanged (opAllowed_live hstate (Or.inl rfl)) (payloadDigest_length cr b) rfl hmid
      hC).bind
      fun journal d' hm => Goes.pure ⟨hid, ⟨b, plain, time, hb, hopen, htake⟩, _, Disk.state_eq_live htomb hb, hm.1⟩
  · rw [if_pos hid]
    exact Goes.throw ⟨rfl, hid, rfl⟩

omit h hroom in
/-- An expiry tombstone in the directory and in the sets. -/
theorem expired_changed {id : U64} {d' : Disk} {live : Finset U64} {created : U64Map Nat}
    (hexp : d'.expired = d.expired.insert id []) (hcon : d'.consumed = d.consumed)
    (hpresig : ∀ i : U64, i ≠ id → d'.presig[i]? = d.presig[i]?) (hdead : id ∉ store.consumed)
    (hlive : ∀ i, i ∈ live ↔ i ≠ id ∧ i ∈ store.live)
    (hcreated : ∀ i : U64, created[i]? = if i = id then none else store.created[i]?) :
    Changed F G cr mtime d store id .expired d'
      { store with live := live, created := created, expired := insert id store.expired } := by
  have hself : (d'.expired[id]?).isSome := by
    rw [hexp, getElem?_insert_word, if_pos rfl]
    rfl
  have hstate : d'.state cr id = some .expired := Disk.state_eq_expired hself
  refine ⟨fun i hi => ⟨by rw [hcon], ?_, hpresig i hi⟩, hstate, fun i => ?_, fun i => ?_, fun i => ?_, fun i => ?_,
    fun hl => (by cases hl)⟩
  · rw [hexp, getElem?_insert_word, if_neg hi]
  · show i ∈ live ↔ _
    rw [hlive]
    by_cases hi : i = id <;> simp [hi, DiskState.isLive]
  · show i ∈ store.consumed ↔ _
    by_cases hi : i = id
    · simp [hi, hdead]
    · simp [hi]
  · show i ∈ insert id store.expired ↔ _
    rw [Finset.mem_insert]
    by_cases hi : i = id <;> simp [hi]
  · show created[i]? = _
    rw [hcreated, createdAt_of_dead hstate fun h hl => by cases hl]

/-- **Expiring** writes the tombstone, and then removes the record. -/
theorem expire_goes (id : U64) (hC : ∀ s t, FsStep.Within (Amid F G cr mtime d entries store id) s t → C s t) :
    Goes C d (store.expire cr id)
      (fun out d' => id ∉ store.live ∧ out = (false, store) ∧ d' = d ∨
        id ∈ store.live ∧ out.1 = true ∧ Mutated F G cr mtime d entries store id .expired d' out.2)
      (fun _ _ => False) := by
  unfold DiskPresigStore.expire
  by_cases hid : id ∈ store.live
  · obtain ⟨b, -, hb, hstate⟩ := h.liveRecord hid
    rw [if_neg (not_not.mpr hid)]
    have hj : ∀ j, stateOf entries id = some j → ∃ h, j = .live h := fun j hj => ⟨_, Option.some.inj (hj.symm.trans hstate)⟩
    refine bury_goes hj hC ?_
    refine (Goes.step (P := fun _ d' => d' = (d.expiredAt id).erased id) (FsStep.apply_removePresig (d := d.expiredAt id) hb)
      (hC _ _ (FsStep.Within.removePresig (s := d.expiredAt id) hb (Or.inl (Midway.expiredAt d hj))
        (Or.inl (Midway.expired_erased d hj)))) rfl).bind fun _ d₃ hd₃ => ?_
    subst hd₃
    have hchanged : Changed F G cr mtime d store id .expired ((d.expiredAt id).erased id)
        { store with
          live := store.live.erase id
          created := store.created.erase id
          expired := insert id store.expired } :=
      expired_changed rfl rfl (fun i hi => (getElem?_erase_word _ _ _).trans (if_neg hi)) (h.live_not_dead hid).1
        (fun i => Finset.mem_erase) fun i => getElem?_erase_word _ _ _
    have happend := append_mirrors (C := C) (E := fun _ _ => False) h hroom hchanged (opAllowed_live hstate (Or.inr rfl))
      (payloadDigest_length cr []) rfl (Midway.expired_erased d hj) hC
    exact happend.bind fun journal d' hm => Goes.pure (Or.inr ⟨hid, rfl, hm.1⟩)
  · rw [if_pos hid]
    exact Goes.pure (Or.inl ⟨hid, rfl, rfl⟩)

/-- **Burning** writes the tombstone of an id that was never inserted. -/
theorem burn_goes (id : U64) (hC : ∀ s t, FsStep.Within (Amid F G cr mtime d entries store id) s t → C s t) :
    Goes C d (store.burn cr id)
      (fun out d' => store.known id = true ∧ out = (false, store) ∧ d' = d ∨
        store.known id = false ∧ out.1 = true ∧ Mutated F G cr mtime d entries store id .expired d' out.2)
      (fun _ _ => False) := by
  unfold DiskPresigStore.burn
  cases hknown : store.known id with
  | true => exact Goes.pure (Or.inl ⟨rfl, rfl, rfl⟩)
  | false =>
    obtain ⟨hnone, hfresh⟩ := h.unknown hknown
    have hunknown : id ∉ store.live ∧ id ∉ store.consumed ∧ id ∉ store.expired := by
      unfold DiskPresigStore.known at hknown
      rwa [decide_eq_false_iff_not, not_or, not_or] at hknown
    rw [if_neg Bool.false_ne_true]
    have hj : ∀ j, stateOf entries id = some j → ∃ h, j = .live h := fun j hj => by rw [hfresh] at hj; cases hj
    refine bury_goes hj hC ?_
    have hcreated : store.created[id]? = none := by
      rw [h.created]
      unfold Disk.createdAt
      rw [(Disk.state_eq_none.mp hnone).1, (Disk.state_eq_none.mp hnone).2]
      rfl
    have hchanged : Changed F G cr mtime d store id .expired (d.expiredAt id)
        { store with expired := insert id store.expired } := by
      refine expired_changed rfl rfl (fun _ _ => rfl) hunknown.2.1
        (fun i => ⟨fun hi => ⟨fun heq => hunknown.1 (heq ▸ hi), hi⟩, fun hi => hi.2⟩) fun i => ?_
      by_cases hi : i = id
      · rw [if_pos hi, hi, hcreated]
      · rw [if_neg hi]
    have happend := append_mirrors (C := C) (E := fun _ _ => False) h hroom hchanged (opAllowed_fresh hfresh (Or.inr rfl))
      (payloadDigest_length cr []) rfl (Midway.expiredAt d hj) hC
    exact happend.bind fun journal d' hm => Goes.pure (Or.inr ⟨rfl, rfl, hm.1⟩)

end Store

end OhmEcdsa
