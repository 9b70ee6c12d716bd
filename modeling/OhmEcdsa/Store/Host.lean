import OhmEcdsa.Store.Machine

/-!
# A store on a host that fails (`store/persist.rs`)

A process may be killed inside any step of any call, `open` included; a step may fail with
a part of it done, or all of it, and the process go on with the sets it had.  None of it
makes the store hand out a record a second time, or after its id was buried:

    first spends id → later does not hand id out     (single_use)

This needs nothing of the journal: the tombstone is renamed in place before a call returns,
and the scan lets a tombstone win.
-/

set_option linter.unusedSectionVars false

namespace OhmEcdsa

open Codec Decoder Hoare Transition

/-! ## Algorithm -/

/-- What is left of an interrupted step: some of its bytes, or its effect. -/
inductive Residue
  | torn (written : Nat)
  | done

namespace FsStep

def interrupted (left : Residue) (t : FsStep) (d : Disk) : Disk :=
  match left with
  | .torn written => t.torn written d
  | .done => (t.apply d).getD d

/-- An append with some of its bytes written, and some not. -/
def tears : Residue → FsStep → Bool
  | .torn written, .append bytes => 0 < written && written < bytes.length
  | _, _ => false

end FsStep

section Host

variable (F G : Type) [Field F] [DecidableEq F] [AddCommGroup G] [Module F G] [DecidableEq G] [K256 F G]
  [WireFormat F G]

/-- What a call was asked, how far it came, and what it returned. -/
inductive Note
  | inserting (record : Record F G)
  | inserted (id : U64)
  | ending (id : U64)
  | logging (id : U64)
  | handed (id : U64) (presig : Presignature F G)
  | buried (id : U64)
  | torn
  deriving DecidableEq

/-- A directory, the store of the process that is up, and what has been asked and returned. -/
structure Host where
  disk : Disk
  store : Option DiskPresigStore
  log : List (Note F G)

inductive HostEvent
  | run (c : StoreCall F G)
  | kill (c : StoreCall F G) (step : Nat) (left : Residue)
  | fail (c : StoreCall F G) (step : Nat) (left : Residue)
  | stop

variable {F G}

namespace StoreCall

def begun : StoreCall F G → List (Note F G)
  | .insertAt _ presig _ => [.inserting presig]
  | .consume id => [.ending id]
  | .expire id => [.ending id]
  | .burn _ => []
  | .reopen _ => []

/-- The id whose end the call logs.  A burn that fails there leaves its id unknown to the process,
so only one that dies with it counts. -/
def ends (killed : Bool) : StoreCall F G → Option U64
  | .consume id => some id
  | .expire id => some id
  | .burn id => if killed then some id else none
  | _ => none

/-- The note of a log entry that has begun. -/
def logging (killed : Bool) (t : FsStep) (c : StoreCall F G) : List (Note F G) :=
  match t, c.ends killed with
  | .append _, some id => [.logging id]
  | _, _ => []

/-- The call as a program: the store it leaves in memory, and what it returned. -/
def program (cr : Crypto) (store : Option DiskPresigStore) : StoreCall F G → Option (FsM (DiskPresigStore × List (Note F G)))
  | .insertAt nonce presig createdAt => store.map fun store => do
    let store ← store.insertAt cr nonce presig.val createdAt.val
    return (store, [.inserted presig.val.id])
  | .consume id => store.map fun store => do
    let (presig, store) ← store.consume F G cr id
    return (store, [.handed id presig])
  | .expire id => store.map fun store => do
    let (done, store) ← store.expire cr id
    return (store, if done then [.buried id] else [])
  | .burn id => store.map fun store => do
    let (done, store) ← store.burn cr id
    return (store, if done then [.buried id] else [])
  | .reopen args => some do
    let store ← openMode F G cr args
    return (store, [])

/-- The store in memory after a call that failed. -/
def survivor (store : Option DiskPresigStore) : StoreCall F G → Option DiskPresigStore
  | .reopen _ => none
  | _ => store

end StoreCall

/-- The note of an interrupted step. -/
def FsStep.note (left : Residue) (t : FsStep) : List (Note F G) := if t.tears left then [.torn] else []

/-- The host after an event. -/
def Host.step (cr : Crypto) (h : Host F G) : HostEvent F G → Option (Host F G)
  | .run c => (c.program cr h.store).map fun m =>
    match outcome m h.disk with
    | (.ok (store, notes), d) => ⟨d, some store, h.log ++ c.begun ++ notes⟩
    | (.error _, d) => ⟨d, c.survivor h.store, h.log ++ c.begun⟩
  | .kill c step left => (c.program cr h.store).bind fun m => (cutAt m h.disk step).map fun (d, t) =>
    ⟨t.interrupted left d, none, h.log ++ c.begun ++ (c.logging true t ++ t.note left)⟩
  | .fail c step left => (c.program cr h.store).bind fun m => (cutAt m h.disk step).map fun (d, t) =>
    ⟨t.interrupted left d, c.survivor h.store, h.log ++ c.begun ++ (c.logging false t ++ t.note left)⟩
  | .stop => some { h with store := none }

/-! ## Specification -/

namespace Disk

/-- Every tombstone of `d` is there, and its records are those of `d` and new ones. -/
structure Retains (new : U64 → Bytes → Prop) (d d' : Disk) : Prop extends d.Buries d' where
  records : ∀ (id : U64) (b : Bytes), d'.presig[id]? = some b → d.presig[id]? = some b ∨ new id b

/-- An id with a tombstone. -/
def Dead (d : Disk) (id : U64) : Prop := (d.consumed[id]?).isSome ∨ (d.expired[id]?).isSome

end Disk

/-- An id is spent once the entry that logs its end has begun. -/
def Note.Spends (id : U64) : Note F G → Prop
  | .logging i => i = id
  | .handed i _ => i = id
  | .buried i => i = id
  | _ => False

def Note.Hands (id : U64) : Note F G → Prop
  | .handed i _ => i = id
  | _ => False

/-- The id can be handed out no more by the process, and it is known. -/
structure DiskPresigStore.Spent (store : DiskPresigStore) (d : Disk) (id : U64) : Prop where
  absent : id ∈ store.live → d.presig[id]? = none
  known : store.known id = true

/-! ## Lemmas: worlds -/

variable {cr : Crypto} {d d' : Disk} {store : DiskPresigStore} {new : U64 → Bytes → Prop}

namespace Disk.Retains

theorem refl (new : U64 → Bytes → Prop) (d : Disk) : d.Retains new d := ⟨Disk.Buries.refl d, fun _ _ h => Or.inl h⟩

/-- The other files do not matter. -/
theorem files (h : d.Retains new d') {d'' : Disk} (hconsumed : d''.consumed = d'.consumed)
    (hexpired : d''.expired = d'.expired) (hpresig : ∀ (id : U64) (b : Bytes), d''.presig[id]? = some b → d'.presig[id]? = some b) :
    d.Retains new d'' :=
  ⟨⟨fun id hid => by rw [hconsumed]; exact h.consumed id hid, fun id hid => by rw [hexpired]; exact h.expired id hid⟩,
    fun id b hb => h.records id b (hpresig id b hb)⟩

theorem dead (h : d.Retains new d') {id : U64} (hid : d.Dead id) : d'.Dead id :=
  hid.imp (h.consumed id) (h.expired id)

/-- **An interrupted step** leaves one of the two worlds it is between. -/
theorem interrupted {d₁ : Disk} {t : FsStep} (h : Passes FsStep.apply (d.Retains new) d₁ t) (left : Residue) :
    d.Retains new (t.interrupted left d₁) := by
  obtain ⟨hd₁, d₂, happly, hd₂⟩ := h
  cases left with
  | torn written => cases t <;> exact hd₁.files rfl rfl fun _ _ hb => hb
  | done =>
    show d.Retains new ((t.apply d₁).getD d₁)
    rw [happly]
    exact hd₂

end Disk.Retains

theorem getElem?_erase_some {m : U64Map Bytes} {id i : U64} {b : Bytes} (h : (m.erase id)[i]? = some b) :
    m[i]? = some b := by
  rw [getElem?_erase_word] at h
  split at h
  · cases h
  · exact h

/-! ## Lemmas: the calls, on any directory and with any sets -/

theorem append_retains {d₁ : Disk} (hd₁ : d.Retains new d₁) (j : Journal) (op : UInt8) (id : U64) (payload : Bytes) :
    Goes (Passes FsStep.apply (d.Retains new)) d₁ (j.append cr op id payload)
      (fun _ d' => ∃ bytes, d' = { d₁ with journal := some bytes }) (fun _ d' => d' = d₁) := by
  unfold Journal.append
  refine Goes.bind (Goes.step_passes (P := fun _ d' => ∃ bytes, d' = { d₁ with journal := some bytes }) hd₁ rfl
    fun s' happly => ?_) fun _ d' h => Goes.pure h
  obtain ⟨bytes, -, rfl⟩ := Option.map_eq_some_iff.mp happly
  exact ⟨hd₁.files rfl rfl fun _ _ h => h, _, rfl⟩

theorem insertAt_retains (nonce : Nonce) (presig : Presignature F G) (createdAt : Nat)
    (hnew : store.known presig.id = false →
      new presig.id (sealFile cr (recordPurpose presig.id) nonce (putRecord presig createdAt))) :
    Goes (Passes FsStep.apply (d.Retains new)) d (store.insertAt cr nonce presig createdAt)
      (fun store' d' => d.Retains new d' ∧ store.known presig.id = false ∧ store'.live = insert presig.id store.live ∧
        store'.consumed = store.consumed ∧ store'.expired = store.expired)
      (fun _ d' => d.Retains new d') := by
  have hd := Disk.Retains.refl new d
  unfold DiskPresigStore.insertAt
  simp only
  cases hknown : store.known presig.id with
  | true => exact Goes.throw hd
  | false =>
    rw [if_neg Bool.false_ne_true]
    replace hnew := hnew hknown
    generalize sealFile cr (recordPurpose presig.id) nonce (putRecord presig createdAt) = b at hnew ⊢
    refine Goes.bind (Goes.step_passes (P := fun _ d' => d' = d.staged presig.id b) hd hd fun s' happly => ?_)
      fun _ d₁ hd₁ => ?_
    · cases happly
      exact ⟨hd.files rfl rfl fun _ _ h => h, rfl⟩
    subst hd₁
    have hstaged : d.Retains new (d.staged presig.id b) := hd.files rfl rfl fun _ _ h => h
    have htmp : (d.staged presig.id b).tmp[presig.id]? = some b := (getElem?_insert_word _ _ _ _).trans (if_pos rfl)
    have hinserted : d.Retains new (d.inserted presig.id b) := by
      refine ⟨Disk.Buries.inserted d presig.id b, fun i c hc => ?_⟩
      rw [show (d.inserted presig.id b).presig[i]? = _ from getElem?_insert_word _ _ _ _] at hc
      split at hc
      · next hi =>
        cases hc
        exact Or.inr (hi ▸ hnew)
      · exact Or.inl hc
    refine Goes.bind (Goes.step_passes (P := fun _ d' => d' = d.inserted presig.id b) hstaged hstaged fun s' happly => ?_)
      fun _ d₂ hd₂ => ?_
    · rw [FsStep.apply_renameToPresig htmp] at happly
      cases happly
      exact ⟨hinserted, rfl⟩
    subst hd₂
    refine ((append_retains hinserted store.journal OP_INSERT presig.id _).conseq (fun _ _ h => h) (fun _ _ h => h) ?_).bind
      fun journal d' h => Goes.pure ?_
    · rintro e d' rfl
      exact hinserted
    · obtain ⟨bytes, rfl⟩ := h
      exact ⟨hinserted.files rfl rfl fun _ _ h => h, rfl, rfl, rfl, rfl⟩

theorem consume_retains (id : U64) :
    Goes (Passes FsStep.apply (d.Retains new)) d (store.consume F G cr id)
      (fun out d' => d.Retains new d' ∧ id ∈ store.live ∧ d.Holds cr id out.1 ∧ d'.Dead id ∧
        out.2.live = store.live.erase id ∧ out.2.consumed = insert id store.consumed ∧ out.2.expired = store.expired)
      (fun _ d' => d.Retains new d') := by
  have hd := Disk.Retains.refl new d
  unfold DiskPresigStore.consume
  by_cases hid : id ∈ store.live
  · rw [if_neg (not_not.mpr hid)]
    refine Goes.bind (P := fun now d' => now = d ∧ d' = d) (Goes.read ⟨rfl, rfl⟩) ?_
    rintro now d' ⟨hnow, hd'⟩
    rw [hnow, hd']
    cases hb : d.presig[id]? with
    | none => exact Goes.throw hd
    | some b =>
      simp only
      cases hopen : openSealed cr (recordPurpose id) b with
      | error e => exact Goes.throw hd
      | ok plain =>
        simp only
        cases htake : takeRecord F G plain with
        | none => exact Goes.throw hd
        | some record =>
          have hconsumed : d.Retains new (d.consumedAt id b) :=
            ⟨Disk.Buries.consumedAt d id b, fun i c hc => Or.inl (getElem?_erase_some hc)⟩
          have hdead : ((d.consumed.insert id b)[id]?).isSome := by
            rw [getElem?_insert_word, if_pos rfl]
            rfl
          refine Goes.bind (Goes.step_passes (P := fun _ d' => d' = d.consumedAt id b) hd hd fun s' happly => ?_)
            fun _ d₁ hd₁ => ?_
          · rw [FsStep.apply_renameToConsumed hb] at happly
            cases happly
            exact ⟨hconsumed, rfl⟩
          subst hd₁
          refine ((append_retains hconsumed store.journal OP_CONSUME id _).conseq (fun _ _ h => h) (fun _ _ h => h) ?_).bind
            fun journal d' h => Goes.pure ?_
          · rintro e d' rfl
            exact hconsumed
          · obtain ⟨bytes, rfl⟩ := h
            exact ⟨hconsumed.files rfl rfl fun _ _ h => h, hid, ⟨b, plain, record.2, hb, hopen, htake⟩, Or.inl hdead, rfl, rfl,
              rfl⟩
  · rw [if_pos hid]
    exact Goes.throw hd

/-- The tombstone of an expiry, written and renamed. -/
theorem bury_retains (hd : d.Retains new d) (id : U64) {α : Type} {f : Unit → FsM α} {P : α → Disk → Prop}
    {E : PersistError → Disk → Prop} (hE : ∀ e d', d.Retains new d' → E e d')
    (hrest : d.Retains new (d.expiredAt id) → (d.expiredAt id).Dead id →
      Goes (Passes FsStep.apply (d.Retains new)) (d.expiredAt id) (f ()) P E) :
    Goes (Passes FsStep.apply (d.Retains new)) d (fs (.writeTmp id []) >>= fun _ => fs (.renameToExpired id) >>= f) P E := by
  have hstaged : d.Retains new (d.staged id []) := hd.files rfl rfl fun _ _ h => h
  have hexpired : d.Retains new (d.expiredAt id) := ⟨Disk.Buries.expiredAt d id, fun _ _ h => Or.inl h⟩
  have htmp : (d.staged id []).tmp[id]? = some [] := (getElem?_insert_word _ _ _ _).trans (if_pos rfl)
  have hdead : ((d.expired.insert id [])[id]?).isSome := by
    rw [getElem?_insert_word, if_pos rfl]
    rfl
  refine Goes.bind (Goes.step_passes (P := fun _ d' => d' = d.staged id []) hd (hE _ _ hd) fun s' happly => ?_)
    fun _ d₁ hd₁ => ?_
  · cases happly
    exact ⟨hstaged, rfl⟩
  subst hd₁
  refine Goes.bind (Goes.step_passes (P := fun _ d' => d' = d.expiredAt id) hstaged (hE _ _ hstaged) fun s' happly => ?_)
    fun _ d₂ hd₂ => ?_
  · rw [FsStep.apply_renameToExpired htmp] at happly
    cases happly
    exact ⟨hexpired, rfl⟩
  subst hd₂
  exact hrest hexpired (Or.inr hdead)

theorem expire_retains (id : U64) :
    Goes (Passes FsStep.apply (d.Retains new)) d (store.expire cr id)
      (fun out d' => d.Retains new d' ∧ (out = (false, store) ∨ out.1 = true ∧ id ∈ store.live ∧ d'.Dead id ∧
        out.2.live = store.live.erase id ∧ out.2.consumed = store.consumed ∧ out.2.expired = insert id store.expired))
      (fun _ d' => d.Retains new d') := by
  have hd := Disk.Retains.refl new d
  unfold DiskPresigStore.expire
  by_cases hid : id ∈ store.live
  · rw [if_neg (not_not.mpr hid)]
    refine bury_retains hd id (fun _ _ h => h) fun hexpired hdead => ?_
    refine Goes.bind (Goes.step_passes (P := fun _ d' => d' = (d.expiredAt id).erased id) hexpired hexpired fun s' happly => ?_)
      fun _ d₁ hd₁ => ?_
    · obtain ⟨b, -, rfl⟩ := Option.map_eq_some_iff.mp happly
      exact ⟨hexpired.files rfl rfl fun _ _ h => getElem?_erase_some h, rfl⟩
    subst hd₁
    have herased : d.Retains new ((d.expiredAt id).erased id) := hexpired.files rfl rfl fun _ _ h => getElem?_erase_some h
    refine ((append_retains herased store.journal OP_EXPIRE id _).conseq (fun _ _ h => h) (fun _ _ h => h) ?_).bind
      fun journal d' h => Goes.pure ?_
    · rintro e d' rfl
      exact herased
    · obtain ⟨bytes, rfl⟩ := h
      exact ⟨herased.files rfl rfl fun _ _ h => h, Or.inr ⟨rfl, hid, hdead, rfl, rfl, rfl⟩⟩
  · rw [if_pos hid]
    exact Goes.pure ⟨hd, Or.inl rfl⟩

theorem burn_retains (id : U64) :
    Goes (Passes FsStep.apply (d.Retains new)) d (store.burn cr id)
      (fun out d' => d.Retains new d' ∧ (out = (false, store) ∨ out.1 = true ∧ store.known id = false ∧ d'.Dead id ∧
        out.2.live = store.live ∧ out.2.consumed = store.consumed ∧ out.2.expired = insert id store.expired))
      (fun _ d' => d.Retains new d') := by
  have hd := Disk.Retains.refl new d
  unfold DiskPresigStore.burn
  cases hknown : store.known id with
  | true => exact Goes.pure ⟨hd, Or.inl rfl⟩
  | false =>
    rw [if_neg Bool.false_ne_true]
    refine bury_retains hd id (fun _ _ h => h) fun hexpired hdead => ?_
    refine ((append_retains hexpired store.journal OP_BURN id _).conseq (fun _ _ h => h) (fun _ _ h => h) ?_).bind
      fun journal d' h => Goes.pure ?_
    · rintro e d' rfl
      exact hexpired
    · obtain ⟨bytes, rfl⟩ := h
      exact ⟨hexpired.files rfl rfl fun _ _ h => h, Or.inr ⟨rfl, rfl, hdead, rfl, rfl, rfl⟩⟩

/-! ## Lemmas: `open`, on any directory -/

section Open

variable {E : PersistError → Disk → Prop} (hE : ∀ e d', d.Retains new d' → E e d')

include hE

theorem append_keeps {d₁ : Disk} (hd₁ : d.Retains new d₁) (j : Journal) (op : UInt8) (id : U64) (payload : Bytes) :
    Goes (Passes FsStep.apply (d.Retains new)) d₁ (j.append cr op id payload) (fun _ d' => d.Retains new d') E := by
  refine (append_retains hd₁ j op id payload).conseq (fun _ _ h => h) ?_ ?_
  · rintro _ _ ⟨bytes, rfl⟩
    exact hd₁.files rfl rfl fun _ _ h => h
  · rintro e _ rfl
    exact hE e _ hd₁

theorem adopt_retains {d₁ : Disk} (hd₁ : d.Retains new d₁) (journal : Journal) (disk : U64Map DiskState) :
    Goes (Passes FsStep.apply (d.Retains new)) d₁ (adopt cr journal disk) (fun _ d' => d.Retains new d') E := by
  unfold adopt
  refine Goes.foldlM (J := fun _ _ d' => d.Retains new d') disk.toList hd₁ ?_
  rintro behind ⟨id, s⟩ rest journal d₂ - hd₂
  cases s with
  | live h => exact append_keeps hE hd₂ journal OP_INSERT id h
  | consumed h =>
    exact (append_keeps hE hd₂ journal OP_INSERT id h).bind fun journal d₃ hd₃ => append_keeps hE hd₃ journal OP_CONSUME id h
  | expired =>
    exact (append_keeps hE hd₂ journal OP_INSERT id zeroHash).bind fun journal d₃ hd₃ =>
      append_keeps hE hd₃ journal OP_EXPIRE id _

/-- Tombstones stay tombstones. -/
def StaysDead (disk truth : U64Map DiskState) : Prop :=
  ∀ (id : U64) (s : DiskState), disk[id]? = some s → s.isLive = false → ∃ s', truth[id]? = some s' ∧ s'.isLive = false

theorem heal_retains {d₁ : Disk} (hd₁ : d.Retains new d₁) (journal : Journal) (disk : U64Map DiskState) (heals : List HealOp) :
    Goes (Passes FsStep.apply (d.Retains new)) d₁ (heal cr heals journal disk)
      (fun out d' => d.Retains new d' ∧ StaysDead disk out.2) E := by
  unfold heal
  refine Goes.foldlM (J := fun _ (out : Journal × U64Map DiskState) d' => d.Retains new d' ∧ StaysDead disk out.2) heals
    ⟨hd₁, fun id s hs hdead => ⟨s, hs, hdead⟩⟩ ?_
  rintro behind h rest ⟨journal, truth⟩ d₂ - ⟨hd₂, hdead⟩
  refine (append_keeps hE hd₂ journal h.op h.id h.payload).bind fun journal d₃ hd₃ => Goes.pure ⟨hd₃, fun id s hs hlive => ?_⟩
  show ∃ s', (truth.insert h.id _)[id]? = some s' ∧ _
  rw [getElem?_insert_word]
  split
  · refine ⟨_, rfl, ?_⟩
    split <;> rfl
  · exact hdead id s hs hlive

theorem dropUnaccounted_retains {d₁ : Disk} (hd₁ : d.Retains new d₁) (journaled : U64Map JournalState)
    {disk truth : U64Map DiskState} (htruth : StaysDead disk truth) :
    Goes (Passes FsStep.apply (d.Retains new)) d₁ (dropUnaccounted journaled disk truth)
      (fun truth d' => d.Retains new d' ∧ StaysDead disk truth) E := by
  unfold dropUnaccounted
  refine Goes.foldlM (J := fun _ truth d' => d.Retains new d' ∧ StaysDead disk truth) disk.toList ⟨hd₁, htruth⟩ ?_
  rintro behind ⟨id, s⟩ rest truth d₂ hlist ⟨hd₂, hdead⟩
  obtain ⟨hget, -⟩ := entry_next hlist
  split
  · next hdrop =>
    refine Goes.bind (Goes.step_passes (P := fun _ d' => d.Retains new d') hd₂ (hE _ _ hd₂) fun s' happly => ?_)
      fun _ d₃ hd₃ => Goes.pure ⟨hd₃, fun i s' hs hlive => ?_⟩
    · obtain ⟨b, -, rfl⟩ := Option.map_eq_some_iff.mp happly
      exact and_self_iff.mpr (hd₂.files rfl rfl fun _ _ h => getElem?_erase_some h)
    · have hi : i ≠ id := by
        rintro rfl
        rw [hget] at hs
        cases hs
        exact Bool.false_ne_true (hlive.symm.trans hdrop.2)
      rw [getElem?_erase_word, if_neg hi]
      exact hdead i s' hs hlive
  · exact Goes.pure ⟨hd₂, hdead⟩

theorem verifyJournal_retains {d₁ : Disk} (hd₁ : d.Retains new d₁) (allowUnverified : Bool) (disk : U64Map DiskState) :
    Goes (Passes FsStep.apply (d.Retains new)) d₁ (verifyJournal cr allowUnverified disk)
      (fun out d' => d.Retains new d' ∧ StaysDead disk out.2) E := by
  have hsame : StaysDead disk disk := fun id s hs hdead => ⟨s, hs, hdead⟩
  unfold verifyJournal
  refine Goes.bind (P := fun _ d' => d.Retains new d') (Goes.read hd₁) fun now d₂ hd₂ => ?_
  refine Goes.bind (Goes.step_passes (P := fun _ d' => d.Retains new d') hd₂ (hE _ _ hd₂) fun s' happly => ?_) fun _ d₃ hd₃ => ?_
  · cases happly
    exact and_self_iff.mpr (hd₂.files rfl rfl fun _ _ h => h)
  cases now.journal with
  | none => exact (adopt_retains hE hd₃ _ disk).bind fun journal d₄ hd₄ => Goes.pure ⟨hd₄, hsame⟩
  | some bytes =>
    simp only
    cases journalReplay cr bytes with
    | error chainBreak =>
      simp only
      split
      · exact Goes.pure ⟨hd₃, hsame⟩
      · exact Goes.throw (hE _ _ hd₃)
    | ok entries =>
      simp only
      cases reconcileJournal cr (journalStates entries) disk with
      | error divergence =>
        simp only
        split
        · exact Goes.pure ⟨hd₃, hsame⟩
        · exact Goes.throw (hE _ _ hd₃)
      | ok heals =>
        refine (heal_retains hE hd₃ _ disk heals).bind fun out d₄ hd₄ => ?_
        exact (dropUnaccounted_retains hE hd₄.1 _ hd₄.2).bind fun truth d₅ hd₅ => Goes.pure hd₅

omit hE in
theorem Disk.Dead.state (cr : Crypto) {id : U64} (hid : d.Dead id) : ∃ s, d.state cr id = some s ∧ s.isLive = false := by
  unfold Disk.Dead at hid
  unfold Disk.state Disk.tombstone
  cases hexp : d.expired[id]? with
  | some b => exact ⟨_, rfl, rfl⟩
  | none =>
    cases hcon : d.consumed[id]? with
    | some b => exact ⟨_, rfl, rfl⟩
    | none =>
      rw [hexp, hcon] at hid
      simp at hid

omit hE in
/-- A tombstone of the directory is one of the scan's, and stays one. -/
theorem openFiles_retains {d₁ : Disk} (hd₁ : d.Retains new d₁) (args : OpenArgs) :
    Goes (Passes FsStep.apply (d.Retains new)) d₁ (openFiles F G cr args)
      (fun store d' => d.Retains new d' ∧ ∀ id, d₁.Dead id → id ∉ store.live ∧ store.known id = true)
      (fun _ d' => d.Retains new d') := by
  have hcleared : ∀ s, d₁.Cleared cr s → d.Retains new s := fun s hs =>
    hd₁.files hs.consumed hs.expired fun id b hb => by
      rcases hs.presig id with heq | ⟨hnone, -⟩
      · rwa [heq] at hb
      · rw [hnone] at hb
        cases hb
  have hscan : Goes (Passes FsStep.apply (d.Retains new)) d₁ (scan F G cr args.mtime)
      (fun out d' => d.Retains new d' ∧ ∀ id, out.1[id]? = d₁.state cr id) (fun _ d' => d.Retains new d') :=
    (scan_goes fun s t h => (h.mono hcleared).passes).conseq (fun _ _ h => h) (fun _ _ h => ⟨hcleared _ h.1, h.2.2.1⟩)
      fun _ _ h => hcleared _ h.2
  unfold openFiles
  refine hscan.bind ?_
  rintro ⟨disk, created⟩ d₂ ⟨hd₂, hstates⟩
  refine (verifyJournal_retains (fun _ _ h => h) hd₂ args.allowUnverified disk).bind ?_
  rintro ⟨journal, truth⟩ d₃ ⟨hd₃, hdead⟩
  refine Goes.bind (P := fun _ d' => d.Retains new d') (Goes.lift (fun _ _ => hd₃) fun _ _ => hd₃) fun _ d₄ hd₄ => ?_
  refine Goes.pure ⟨hd₄, fun id hid => ?_⟩
  obtain ⟨s, hs, hlive⟩ := Disk.Dead.state cr hid
  obtain ⟨s', hs', hlive'⟩ := hdead id s ((hstates id).trans hs) hlive
  refine ⟨fun h => ?_, ?_⟩
  · obtain ⟨t, ht, hl⟩ := mem_idsWhere.mp h
    rw [show truth[id]? = some s' from hs'] at ht
    cases ht
    exact Bool.false_ne_true (hlive'.symm.trans hl)
  · unfold DiskPresigStore.known
    refine decide_eq_true ?_
    cases s' with
    | live h => cases hlive'
    | consumed h => exact Or.inr (Or.inl (mem_idsWhere.mpr ⟨_, hs', rfl⟩))
    | expired => exact Or.inr (Or.inr (mem_idsWhere.mpr ⟨_, hs', rfl⟩))

omit hE in
/-- **Opening** never brings a tombstone's id back to life, whatever the journal and the flag. -/
theorem openMode_retains (args : OpenArgs) :
    Goes (Passes FsStep.apply (d.Retains new)) d (openMode F G cr args)
      (fun store d' => d.Retains new d' ∧ ∀ id, d.Dead id → id ∉ store.live ∧ store.known id = true)
      (fun _ d' => d.Retains new d') := by
  have hd := Disk.Retains.refl new d
  unfold openMode
  refine Goes.bind (P := fun now d' => now = d ∧ d' = d) (Goes.read ⟨rfl, rfl⟩) ?_
  rintro now d' ⟨hnow, hd'⟩
  rw [hnow, hd']
  cases d.key with
  | some bytes =>
    simp only
    by_cases hb : bytes = args.keyBytes
    · rw [if_neg (not_not.mpr hb)]
      exact openFiles_retains hd args
    · rw [if_pos hb]
      exact Goes.bind (P := fun _ _ => False) (Goes.throw hd) fun _ _ h => h.elim
  | none =>
    simp only
    refine Goes.bind (Goes.step_passes (P := fun _ d' => d' = { d with keyTmp := some args.keyBytes }) hd hd
      fun s' happly => ?_) fun _ d₁ hd₁ => ?_
    · cases happly
      exact ⟨hd.files rfl rfl fun _ _ h => h, rfl⟩
    subst hd₁
    have hwritten : d.Retains new { d with keyTmp := some args.keyBytes } := hd.files rfl rfl fun _ _ h => h
    refine Goes.bind (Goes.step_passes (P := fun _ d' => d' = { d with key := some args.keyBytes, keyTmp := none }) hwritten
      hwritten fun s' happly => ?_) fun _ d₂ hd₂ => ?_
    · cases happly
      exact ⟨hd.files rfl rfl fun _ _ h => h, rfl⟩
    subst hd₂
    have hkeyed : d.Retains new { d with key := some args.keyBytes, keyTmp := none } := hd.files rfl rfl fun _ _ h => h
    exact openFiles_retains hkeyed args

end Open

/-! ## Lemmas: one event -/

variable {prior : Option DiskPresigStore}

/-- The file that a call seals, of an id that the process does not know. -/
def StoreCall.Seals (cr : Crypto) (prior : Option DiskPresigStore) (c : StoreCall F G) (id : U64) (b : Bytes) : Prop :=
  ∃ nonce presig createdAt, c = .insertAt nonce presig createdAt ∧ presig.val.id = id ∧
    b = sealFile cr (recordPurpose id) nonce (putRecord presig.val createdAt.val) ∧
    ∀ s, prior = some s → s.known id = false

/-- No call makes a record of an id that is spent. -/
theorem DiskPresigStore.Spent.keep {c : StoreCall F G} {prior store : DiskPresigStore} {id : U64} (h : prior.Spent d id)
    (hd' : d.Retains (c.Seals cr (some prior)) d') (hknown : store.known id = true) (hlive : id ∈ store.live → id ∈ prior.live) :
    store.Spent d' id := by
  refine ⟨fun hid => Option.eq_none_iff_forall_ne_some.mpr fun b hb => ?_, hknown⟩
  rcases hd'.records id b hb with hb | ⟨-, -, -, -, -, -, hunknown⟩
  · rw [h.absent (hlive hid)] at hb
    cases hb
  · exact Bool.false_ne_true ((hunknown prior rfl).symm.trans h.known)

/-- What a call that returns does to the ids that are spent, and hands out. -/
structure Returned (cr : Crypto) (d : Disk) (prior : Option DiskPresigStore) (store : DiskPresigStore)
    (notes : List (Note F G)) (d' : Disk) : Prop where
  keeps : ∀ id, d.Dead id → (∀ s, prior = some s → s.Spent d id) → store.Spent d' id
  spends : ∀ n ∈ notes, ∀ id, n.Spends id → d'.Dead id ∧ store.Spent d' id
  hands : ∀ n ∈ notes, ∀ id, n.Hands id → (∃ s, prior = some s ∧ id ∈ s.live) ∧ d.presig[id]? ≠ none
  holds : ∀ id presig, .handed id presig ∈ notes → d.Holds cr id presig
  one : notes.length ≤ 1

/-- A call that spends no id. -/
theorem Returned.silent {c : StoreCall F G} {prior : DiskPresigStore} (hd' : d.Retains (c.Seals cr (some prior)) d') :
    Returned (F := F) (G := G) cr d (some prior) prior [] d' := by
  refine ⟨fun id _ h => ?_, fun n hn => absurd hn List.not_mem_nil, fun n hn => absurd hn List.not_mem_nil,
    fun id p hn => absurd hn List.not_mem_nil, Nat.zero_le _⟩
  have hid := h prior rfl
  exact hid.keep hd' hid.known fun h => h

/-- A record stored under an id that was not known. -/
theorem Returned.inserted {c : StoreCall F G} {prior store : DiskPresigStore} {id : U64}
    (hd' : d.Retains (c.Seals cr (some prior)) d') (hfresh : prior.known id = false)
    (hlive : store.live = insert id prior.live) (hconsumed : store.consumed = prior.consumed)
    (hexpired : store.expired = prior.expired) :
    Returned (F := F) (G := G) cr d (some prior) store [.inserted id] d' := by
  refine ⟨fun i _ h => ?_, fun n hn i hs => ?_, fun n hn i hh => ?_, fun i p hn => ?_, le_rfl⟩
  · have hk := (h prior rfl).known
    have hne : i ≠ id := by
      rintro rfl
      rw [hfresh] at hk
      cases hk
    refine (h prior rfl).keep hd' (known_iff.mpr ?_) fun hin => ?_
    · rw [hlive, hconsumed, hexpired]
      exact (known_iff.mp hk).imp_left Finset.mem_insert_of_mem
    · rw [hlive] at hin
      exact (Finset.mem_insert.mp hin).resolve_left hne
  · obtain rfl := List.mem_singleton.mp hn
    exact hs.elim
  · obtain rfl := List.mem_singleton.mp hn
    exact hh.elim
  · cases List.mem_singleton.mp hn

/-- A live record handed out, with its tombstone written and known. -/
theorem Returned.handed {c : StoreCall F G} {prior store : DiskPresigStore} {id : U64} {presig : Presignature F G}
    (hd' : d.Retains (c.Seals cr (some prior)) d') (hid : id ∈ prior.live) (hholds : d.Holds cr id presig)
    (hdead : d'.Dead id) (hlive : store.live = prior.live.erase id) (hconsumed : store.consumed = insert id prior.consumed)
    (hexpired : store.expired = prior.expired) :
    Returned cr d (some prior) store [.handed id presig] d' := by
  have hspent : store.Spent d' id := by
    refine ⟨fun h => ?_, known_iff.mpr (Or.inr (Or.inl ?_))⟩
    · rw [hlive] at h
      exact absurd h (Finset.notMem_erase id _)
    · rw [hconsumed]
      exact Finset.mem_insert_self id _
  refine ⟨fun i _ h => ?_, fun n hn i hs => ?_, fun n hn i hh => ?_, fun i p hn => ?_, le_rfl⟩
  · by_cases hi : i = id
    · rw [hi]
      exact hspent
    · refine (h prior rfl).keep hd' (known_iff.mpr ?_) fun hin => ?_
      · rw [hlive, hconsumed, hexpired]
        exact (known_iff.mp (h prior rfl).known).imp (fun hin => Finset.mem_erase.mpr ⟨hi, hin⟩)
          (Or.imp_left Finset.mem_insert_of_mem)
      · rw [hlive] at hin
        exact Finset.mem_of_mem_erase hin
  · obtain rfl := List.mem_singleton.mp hn
    obtain rfl : id = i := hs
    exact ⟨hdead, hspent⟩
  · obtain rfl := List.mem_singleton.mp hn
    obtain rfl : id = i := hh
    obtain ⟨b, -, -, hb, -⟩ := hholds
    exact ⟨⟨prior, rfl, hid⟩, fun hnone => by rw [hnone] at hb; cases hb⟩
  · cases List.mem_singleton.mp hn
    exact hholds

/-- A tombstone written and known. -/
theorem Returned.buried {c : StoreCall F G} {prior store : DiskPresigStore} {id : U64}
    (hd' : d.Retains (c.Seals cr (some prior)) d') (hdead : d'.Dead id)
    (hlive : ∀ i, i ∈ store.live ↔ i ≠ id ∧ i ∈ prior.live) (hconsumed : store.consumed = prior.consumed)
    (hexpired : store.expired = insert id prior.expired) :
    Returned (F := F) (G := G) cr d (some prior) store [.buried id] d' := by
  have hspent : store.Spent d' id := by
    refine ⟨fun h => absurd rfl ((hlive id).mp h).1, known_iff.mpr (Or.inr (Or.inr ?_))⟩
    rw [hexpired]
    exact Finset.mem_insert_self id _
  refine ⟨fun i _ h => ?_, fun n hn i hs => ?_, fun n hn i hh => ?_, fun i p hn => ?_, le_rfl⟩
  · by_cases hi : i = id
    · rw [hi]
      exact hspent
    · refine (h prior rfl).keep hd' (known_iff.mpr ?_) fun hin => ((hlive i).mp hin).2
      rw [hlive, hconsumed, hexpired]
      exact (known_iff.mp (h prior rfl).known).imp (fun hin => ⟨hi, hin⟩) (Or.imp_right Finset.mem_insert_of_mem)
  · obtain rfl := List.mem_singleton.mp hn
    obtain rfl : id = i := hs
    exact ⟨hdead, hspent⟩
  · obtain rfl := List.mem_singleton.mp hn
    exact hh.elim
  · cases List.mem_singleton.mp hn

/-- **A call**, on any directory and with any sets. -/
theorem StoreCall.program_goes {c : StoreCall F G} {m : FsM (DiskPresigStore × List (Note F G))}
    (hm : c.program cr prior = some m) :
    Goes (Passes FsStep.apply (d.Retains (c.Seals cr prior))) d m
      (fun out d' => d.Retains (c.Seals cr prior) d' ∧ Returned cr d prior out.1 out.2 d')
      (fun _ d' => d.Retains (c.Seals cr prior) d') := by
  cases c with
  | insertAt nonce presig createdAt =>
    obtain ⟨store, rfl, rfl⟩ := Option.map_eq_some_iff.mp hm
    refine (insertAt_retains nonce presig.val createdAt.val fun hunknown => ⟨nonce, presig, createdAt, rfl, rfl, rfl,
      fun s hs => Option.some.inj hs ▸ hunknown⟩).bind fun store' d' h => Goes.pure ⟨h.1, ?_⟩
    obtain ⟨hd', hfresh, hlive, hconsumed, hexpired⟩ := h
    exact Returned.inserted hd' hfresh hlive hconsumed hexpired
  | consume id =>
    obtain ⟨store, rfl, rfl⟩ := Option.map_eq_some_iff.mp hm
    refine (consume_retains id).bind fun out d' h => Goes.pure ⟨h.1, ?_⟩
    obtain ⟨hd', hid, hholds, hdead, hlive, hconsumed, hexpired⟩ := h
    exact Returned.handed hd' hid hholds hdead hlive hconsumed hexpired
  | expire id =>
    obtain ⟨store, rfl, rfl⟩ := Option.map_eq_some_iff.mp hm
    refine (expire_retains id).bind fun out d' h => Goes.pure ⟨h.1, ?_⟩
    obtain ⟨hd', rfl | ⟨hdone, -, hdead, hlive, hconsumed, hexpired⟩⟩ := h
    · exact Returned.silent hd'
    · rw [hdone]
      exact Returned.buried hd' hdead (fun i => by rw [hlive, Finset.mem_erase]) hconsumed hexpired
  | burn id =>
    obtain ⟨store, rfl, rfl⟩ := Option.map_eq_some_iff.mp hm
    refine (burn_retains id).bind fun out d' h => Goes.pure ⟨h.1, ?_⟩
    obtain ⟨hd', rfl | ⟨hdone, hfresh, hdead, hlive, hconsumed, hexpired⟩⟩ := h
    · exact Returned.silent hd'
    · rw [hdone]
      have hout : id ∉ store.live := fun h => by
        rw [known_iff.mpr (Or.inl h)] at hfresh
        cases hfresh
      refine Returned.buried hd' hdead (fun i => ?_) hconsumed hexpired
      rw [hlive]
      exact ⟨fun hi => ⟨fun heq => hout (heq ▸ hi), hi⟩, fun hi => hi.2⟩
  | reopen args =>
    obtain rfl := Option.some.inj hm
    refine (openMode_retains args).bind fun store d' h => Goes.pure ⟨h.1, fun id hid _ => ?_, ?_, ?_, ?_, Nat.zero_le _⟩
    · obtain ⟨hlive, hknown⟩ := h.2 id hid
      exact ⟨fun hin => absurd hin hlive, hknown⟩
    · exact fun n hn => absurd hn List.not_mem_nil
    · exact fun n hn => absurd hn List.not_mem_nil
    · exact fun id p hn => absurd hn List.not_mem_nil

/-! ## Lemmas: the entry that logs an end -/

/-- When the entry begins the tombstone is in place, and a record that was live is gone. -/
def StoreCall.Logs (prior : Option DiskPresigStore) (c : StoreCall F G) (d : Disk) : FsStep → Prop
  | .append _ => (∀ id, c.ends true = some id → d.Dead id) ∧
    ∀ id, c.ends false = some id → d.presig[id]? = none ∧ ∀ s, prior = some s → id ∈ s.live
  | _ => True

theorem append_logs {c : StoreCall F G} (j : Journal) (op : UInt8) (id : U64) (payload : Bytes)
    (h : ∀ bytes, c.Logs prior d (.append bytes)) :
    Goes (c.Logs prior) d (j.append cr op id payload) (fun _ _ => True) (fun _ _ => True) := by
  unfold Journal.append
  exact Goes.bind (Goes.step_or (P := fun _ _ => True) trivial fun _ _ => ⟨h _, trivial⟩) fun _ _ _ => Goes.pure trivial

/-- The entry comes after the tombstone, and after the record was removed. -/
theorem bury_logs {c : StoreCall F G} (id : U64) {α : Type} {f : Unit → FsM α}
    (hrest : Goes (c.Logs prior) (d.expiredAt id) (f ()) (fun _ _ => True) (fun _ _ => True)) :
    Goes (c.Logs prior) d (fs (.writeTmp id []) >>= fun _ => fs (.renameToExpired id) >>= f) (fun _ _ => True)
      (fun _ _ => True) := by
  have htmp : (d.staged id []).tmp[id]? = some [] := (getElem?_insert_word _ _ _ _).trans (if_pos rfl)
  refine Goes.bind (Goes.step (P := fun _ d' => d' = d.staged id []) rfl trivial rfl) fun _ d₁ hd₁ => ?_
  rw [hd₁]
  refine Goes.bind (Goes.step (P := fun _ d' => d' = d.expiredAt id) (FsStep.apply_renameToExpired htmp) trivial rfl)
    fun _ d₂ hd₂ => ?_
  rw [hd₂]
  exact hrest

theorem expiredAt_dead (d : Disk) (id : U64) : (d.expiredAt id).Dead id := by
  refine Or.inr ?_
  show ((d.expired.insert id [])[id]?).isSome
  rw [getElem?_insert_word, if_pos rfl]
  rfl

theorem StoreCall.program_logs {c : StoreCall F G} {m : FsM (DiskPresigStore × List (Note F G))}
    (hm : c.program cr prior = some m) : Goes (c.Logs prior) d m (fun _ _ => True) (fun _ _ => True) := by
  have hother : c.ends true = none → c.ends false = none → ∀ s t, c.Logs prior s t := by
    intro htrue hfalse s t
    cases t with
    | append bytes => exact ⟨fun id h => (by rw [htrue] at h; cases h), fun id h => (by rw [hfalse] at h; cases h)⟩
    | _ => trivial
  cases c with
  | insertAt nonce presig createdAt =>
    exact (StoreCall.program_goes hm).conseq (fun s t _ => hother rfl rfl s t) (fun _ _ _ => trivial) fun _ _ _ => trivial
  | reopen args =>
    exact (StoreCall.program_goes hm).conseq (fun s t _ => hother rfl rfl s t) (fun _ _ _ => trivial) fun _ _ _ => trivial
  | consume id =>
    obtain ⟨store, rfl, rfl⟩ := Option.map_eq_some_iff.mp hm
    refine Goes.bind (P := fun _ _ => True) ?_ fun _ _ _ => Goes.pure trivial
    unfold DiskPresigStore.consume
    by_cases hid : id ∈ store.live
    · rw [if_neg (not_not.mpr hid)]
      refine Goes.bind (P := fun now d' => now = d ∧ d' = d) (Goes.read ⟨rfl, rfl⟩) ?_
      rintro now d' ⟨hnow, hd'⟩
      rw [hnow, hd']
      cases hb : d.presig[id]? with
      | none => exact Goes.throw trivial
      | some b =>
        simp only
        cases openSealed cr (recordPurpose id) b with
        | error e => exact Goes.throw trivial
        | ok plain =>
          simp only
          cases takeRecord F G plain with
          | none => exact Goes.throw trivial
          | some record =>
            refine Goes.bind (Goes.step (P := fun _ d' => d' = d.consumedAt id b) (FsStep.apply_renameToConsumed hb) trivial rfl)
              fun _ d₁ hd₁ => ?_
            rw [hd₁]
            refine (append_logs _ _ _ _ fun bytes => ⟨fun i hi => ?_, fun i hi => ?_⟩).bind fun _ _ _ => Goes.pure trivial
            · obtain rfl := Option.some.inj hi
              refine Or.inl ?_
              show ((d.consumed.insert id b)[id]?).isSome
              rw [getElem?_insert_word, if_pos rfl]
              rfl
            · obtain rfl := Option.some.inj hi
              refine ⟨(getElem?_erase_word _ _ _).trans (if_pos rfl), fun s hs => ?_⟩
              rw [← Option.some.inj hs]
              exact hid
    · rw [if_pos hid]
      exact Goes.throw trivial
  | expire id =>
    obtain ⟨store, rfl, rfl⟩ := Option.map_eq_some_iff.mp hm
    refine Goes.bind (P := fun _ _ => True) ?_ fun _ _ _ => Goes.pure trivial
    unfold DiskPresigStore.expire
    by_cases hid : id ∈ store.live
    · rw [if_neg (not_not.mpr hid)]
      refine bury_logs id ?_
      refine Goes.bind (Goes.step_or (P := fun _ d' => d' = (d.expiredAt id).erased id) trivial fun s' happly => ?_)
        fun _ d₁ hd₁ => ?_
      · obtain ⟨b, -, rfl⟩ := Option.map_eq_some_iff.mp happly
        exact ⟨trivial, rfl⟩
      rw [hd₁]
      refine (append_logs _ _ _ _ fun bytes => ⟨fun i hi => ?_, fun i hi => ?_⟩).bind fun _ _ _ => Goes.pure trivial
      · obtain rfl := Option.some.inj hi
        exact expiredAt_dead d id
      · obtain rfl := Option.some.inj hi
        refine ⟨(getElem?_erase_word _ _ _).trans (if_pos rfl), fun s hs => ?_⟩
        rw [← Option.some.inj hs]
        exact hid
    · rw [if_pos hid]
      exact Goes.pure trivial
  | burn id =>
    obtain ⟨store, rfl, rfl⟩ := Option.map_eq_some_iff.mp hm
    refine Goes.bind (P := fun _ _ => True) ?_ fun _ _ _ => Goes.pure trivial
    unfold DiskPresigStore.burn
    split
    · exact Goes.pure trivial
    · refine bury_logs id ((append_logs _ _ _ _ fun bytes => ⟨fun i hi => ?_, fun i hi => ?_⟩).bind fun _ _ _ =>
        Goes.pure trivial)
      · obtain rfl := Option.some.inj hi
        exact expiredAt_dead d id
      · cases hi

/-! ## Lemmas: runs -/

/-- A record that was in the directory, or that an insert was asked to put there. -/
def Host.Genuine (cr : Crypto) (start : Disk) (log : List (Note F G)) (id : U64) (presig : Presignature F G) : Prop :=
  start.Holds cr id presig ∨ ∃ record : Record F G, .inserting record ∈ log ∧ record.val.id = id ∧ record.val = presig

/-- What a history keeps, however it goes. -/
structure Host.Sound (cr : Crypto) (start : Disk) (h : Host F G) : Prop where
  spent : ∀ n ∈ h.log, ∀ id, n.Spends id → h.disk.Dead id ∧ ∀ store, h.store = some store → store.Spent h.disk id
  once : h.log.Pairwise fun first later => ∀ id, first.Spends id → ¬ later.Hands id
  sealed : ∀ (id : U64) (b : Bytes), h.disk.presig[id]? = some b → start.presig[id]? = some b ∨
    ∃ (nonce : Nonce) (record : Record F G) (createdAt : U64), .inserting record ∈ h.log ∧ record.val.id = id ∧
      b = sealFile cr (recordPurpose id) nonce (putRecord record.val createdAt.val)
  handed : ∀ id presig, .handed id presig ∈ h.log → Host.Genuine cr start h.log id presig

theorem StoreCall.mem_begun {c : StoreCall F G} {n : Note F G} (hn : n ∈ c.begun) :
    (∀ id, ¬ n.Spends id) ∧ ∀ id, ¬ n.Hands id := by
  cases c with
  | insertAt nonce presig createdAt =>
    obtain rfl := List.mem_singleton.mp hn
    exact ⟨fun _ h => h, fun _ h => h⟩
  | consume id =>
    obtain rfl := List.mem_singleton.mp hn
    exact ⟨fun _ h => h, fun _ h => h⟩
  | expire id =>
    obtain rfl := List.mem_singleton.mp hn
    exact ⟨fun _ h => h, fun _ h => h⟩
  | burn id => cases hn
  | reopen args => cases hn

theorem FsStep.mem_note {left : Residue} {t : FsStep} {n : Note F G} (hn : n ∈ t.note left) : n = .torn := by
  unfold FsStep.note at hn
  split at hn
  · exact List.mem_singleton.mp hn
  · cases hn

theorem StoreCall.mem_logging {c : StoreCall F G} {killed : Bool} {t : FsStep} {n : Note F G} (hn : n ∈ c.logging killed t) :
    ∃ bytes id, t = .append bytes ∧ c.ends killed = some id ∧ n = .logging id := by
  unfold StoreCall.logging at hn
  split at hn
  · next bytes id hends => exact ⟨bytes, id, rfl, hends, List.mem_singleton.mp hn⟩
  · cases hn

theorem StoreCall.ends_of_ends {c : StoreCall F G} {killed : Bool} {id : U64} (h : c.ends killed = some id) :
    c.ends true = some id := by
  cases c with
  | burn i =>
    cases killed with
    | true => exact h
    | false => cases h
  | _ => exact h

/-- An append, interrupted, changes the journal only. -/
theorem FsStep.interrupted_append (left : Residue) (bytes : Bytes) (d : Disk) :
    ∃ journal, (FsStep.append bytes).interrupted left d = { d with journal := journal } := by
  cases left with
  | torn written => exact ⟨_, rfl⟩
  | done =>
    cases hj : d.journal with
    | none =>
      refine ⟨d.journal, ?_⟩
      show (d.journal.map fun j => { d with journal := some (j ++ bytes) }).getD d = d
      rw [hj]
      rfl
    | some j =>
      refine ⟨some (j ++ bytes), ?_⟩
      show (d.journal.map fun j => { d with journal := some (j ++ bytes) }).getD d = _
      rw [hj]
      rfl

/-- The id whose log entry is interrupted is dead in the directory. -/
theorem StoreCall.Logs.dead {c : StoreCall F G} {killed : Bool} {t : FsStep} (h : c.Logs prior d t) {id : U64}
    (hn : .logging id ∈ c.logging killed t) (left : Residue) : (t.interrupted left d).Dead id := by
  obtain ⟨bytes, i, rfl, hends, heq⟩ := StoreCall.mem_logging hn
  cases heq
  obtain ⟨journal, hdisk⟩ := FsStep.interrupted_append left bytes d
  rw [hdisk]
  exact h.1 id (StoreCall.ends_of_ends hends)

/-- And the process that goes on has no record of it. -/
theorem StoreCall.Logs.spent {c : StoreCall F G} {t : FsStep} {store : DiskPresigStore} (h : c.Logs (some store) d t) {id : U64}
    (hn : .logging id ∈ c.logging false t) (left : Residue) : store.Spent (t.interrupted left d) id := by
  obtain ⟨bytes, i, rfl, hends, heq⟩ := StoreCall.mem_logging hn
  cases heq
  obtain ⟨habsent, hlive⟩ := h.2 id hends
  obtain ⟨journal, hdisk⟩ := FsStep.interrupted_append left bytes d
  rw [hdisk]
  exact ⟨fun _ => habsent, known_iff.mpr (Or.inl (hlive store rfl))⟩

namespace Host.Sound

variable {start : Disk} {h : Host F G}

theorem genuine_of_holds (hs : h.Sound cr start) {id : U64} {presig : Presignature F G} (hp : h.disk.Holds cr id presig) :
    Host.Genuine cr start h.log id presig := by
  obtain ⟨b, plain, time, hb, hopen, htake⟩ := hp
  rcases hs.sealed id b hb with hb' | ⟨nonce, record, createdAt, hmem, hid, rfl⟩
  · exact Or.inl ⟨b, plain, time, hb', hopen, htake⟩
  · rw [openSealed_sealFile] at hopen
    obtain rfl := Except.ok.inj hopen
    rw [takeRecord_stamped_iff.mpr ⟨⟨record.property, createdAt.isLt⟩, rfl⟩] at htake
    cases htake
    exact Or.inr ⟨record, hmem, hid, rfl⟩

/-- The files that a call leaves, at its end or cut. -/
theorem retained (hs : h.Sound cr start) {c : StoreCall F G} {d' : Disk} (hd' : h.disk.Retains (c.Seals cr h.store) d')
    (notes : List (Note F G)) (id : U64) (b : Bytes) (hb : d'.presig[id]? = some b) : start.presig[id]? = some b ∨
    ∃ (nonce : Nonce) (record : Record F G) (createdAt : U64), .inserting record ∈ h.log ++ c.begun ++ notes ∧
      record.val.id = id ∧ b = sealFile cr (recordPurpose id) nonce (putRecord record.val createdAt.val) := by
  rcases hd'.records id b hb with hb | ⟨nonce, record, createdAt, rfl, hid, hb, -⟩
  · rcases hs.sealed id b hb with hb | ⟨nonce, record, createdAt, hmem, hrest⟩
    · exact Or.inl hb
    · exact Or.inr ⟨nonce, record, createdAt, List.mem_append_left _ (List.mem_append_left _ hmem), hrest⟩
  · exact Or.inr ⟨nonce, record, createdAt,
      List.mem_append_left _ (List.mem_append_right _ (List.mem_singleton_self _)), hid, hb⟩

theorem Genuine.grow {log more : List (Note F G)} {id : U64} {presig : Presignature F G}
    (hg : Host.Genuine cr start log id presig) : Host.Genuine cr start (log ++ more) id presig := by
  rcases hg with hg | ⟨record, hmem, hrest⟩
  · exact Or.inl hg
  · exact Or.inr ⟨record, List.mem_append_left _ hmem, hrest⟩

/-- A call that returns. -/
theorem returned (hs : h.Sound cr start) {c : StoreCall F G} {store : DiskPresigStore} {notes : List (Note F G)} {d' : Disk}
    (hd' : h.disk.Retains (c.Seals cr h.store) d') (hr : Returned cr h.disk h.store store notes d') :
    Host.Sound cr start ⟨d', some store, h.log ++ c.begun ++ notes⟩ := by
  refine ⟨fun n hn id hspends => ?_, ?_, hs.retained hd' notes, fun id presig hn => ?_⟩
  · rcases List.mem_append.mp hn with hn | hn
    · rcases List.mem_append.mp hn with hn | hn
      · obtain ⟨hdead, hspent⟩ := hs.spent n hn id hspends
        refine ⟨hd'.dead hdead, fun s hstore => ?_⟩
        cases hstore
        exact hr.keeps id hdead hspent
      · exact absurd hspends ((StoreCall.mem_begun hn).1 id)
    · obtain ⟨hdead, hspent⟩ := hr.spends n hn id hspends
      refine ⟨hdead, fun s hstore => ?_⟩
      cases hstore
      exact hspent
  · refine List.pairwise_append.mpr ⟨List.pairwise_append.mpr ⟨hs.once, ?_, ?_⟩, ?_, fun n hn n' hn' id hspends hhands => ?_⟩
    · cases c <;> simp [StoreCall.begun]
    · exact fun n _ n' hn' id _ hhands => (StoreCall.mem_begun hn').2 id hhands
    · have hone := hr.one
      cases notes with
      | nil => exact List.Pairwise.nil
      | cons n notes =>
        rw [List.length_cons] at hone
        rw [List.length_eq_zero_iff.mp (by omega : notes.length = 0)]
        exact List.pairwise_singleton _ _
    · rcases List.mem_append.mp hn with hn | hn
      · obtain ⟨⟨s, hstore, hlive⟩, hthere⟩ := hr.hands n' hn' id hhands
        exact hthere (((hs.spent n hn id hspends).2 s hstore).absent hlive)
      · exact (StoreCall.mem_begun hn).1 id hspends
  · rcases List.mem_append.mp hn with hn | hn
    · rcases List.mem_append.mp hn with hn | hn
      · exact Genuine.grow (Genuine.grow (hs.handed id presig hn))
      · exact absurd rfl ((StoreCall.mem_begun hn).2 id)
    · exact Genuine.grow (Genuine.grow (hs.genuine_of_holds (hr.holds id presig hn)))

/-- A call that does not, with what it had begun to log. -/
theorem cutShort (hs : h.Sound cr start) {c : StoreCall F G} {store : Option DiskPresigStore} {notes : List (Note F G)}
    {d' : Disk} (hd' : h.disk.Retains (c.Seals cr h.store) d') (hstore : store = h.store ∨ store = none)
    (hnotes : ∀ n ∈ notes, n = .torn ∨ ∃ id, n = .logging id ∧ d'.Dead id ∧ ∀ s, store = some s → s.Spent d' id) :
    Host.Sound cr start ⟨d', store, h.log ++ c.begun ++ notes⟩ := by
  have hquiet : ∀ n ∈ c.begun ++ notes, ∀ id, ¬ n.Hands id := by
    intro n hn
    rcases List.mem_append.mp hn with hn | hn
    · exact (StoreCall.mem_begun hn).2
    · rcases hnotes n hn with rfl | ⟨id, rfl, -⟩ <;> exact fun _ h => h
  refine ⟨fun n hn id hspends => ?_, ?_, hs.retained hd' notes, fun id presig hn => ?_⟩
  · rcases List.mem_append.mp hn with hn | hn
    · rcases List.mem_append.mp hn with hn | hn
      · obtain ⟨hdead, hspent⟩ := hs.spent n hn id hspends
        refine ⟨hd'.dead hdead, fun s heq => ?_⟩
        rcases hstore with rfl | rfl
        · have hid := hspent s heq
          rw [heq] at hd'
          exact hid.keep hd' hid.known fun h => h
        · cases heq
      · exact absurd hspends ((StoreCall.mem_begun hn).1 id)
    · rcases hnotes n hn with rfl | ⟨i, rfl, hdead, hspent⟩
      · exact hspends.elim
      · obtain rfl : i = id := hspends
        exact ⟨hdead, hspent⟩
  · show (h.log ++ c.begun ++ notes).Pairwise _
    rw [List.append_assoc]
    refine List.pairwise_append.mpr ⟨hs.once, ?_, fun n _ n' hn' id _ => hquiet n' hn' id⟩
    exact List.pairwise_of_forall_mem_list fun n _ n' hn' id _ => hquiet n' hn' id
  · show Host.Genuine cr start (h.log ++ c.begun ++ notes) id presig
    rw [List.append_assoc] at hn ⊢
    rcases List.mem_append.mp hn with hn | hn
    · exact Genuine.grow (hs.handed id presig hn)
    · exact absurd rfl (hquiet _ hn id)

theorem survivor_cases (c : StoreCall F G) (store : Option DiskPresigStore) :
    c.survivor store = store ∨ c.survivor store = none := by
  cases c with
  | reopen args => exact Or.inr rfl
  | insertAt nonce presig createdAt => exact Or.inl rfl
  | consume id => exact Or.inl rfl
  | expire id => exact Or.inl rfl
  | burn id => exact Or.inl rfl

/-- **Every event** keeps it. -/
theorem step {e : HostEvent F G} {h' : Host F G} (hs : h.Sound cr start) (hstep : h.step cr e = some h') :
    h'.Sound cr start := by
  cases e with
  | run c =>
    obtain ⟨m, hm, rfl⟩ := Option.map_eq_some_iff.mp hstep
    have hend := (StoreCall.program_goes (d := h.disk) hm).of_outcome
    rcases hout : outcome m h.disk with ⟨err | ⟨store, notes⟩, d'⟩ <;> rw [hout] at hend
    · have hcut := hs.cutShort hend (survivor_cases c h.store) fun n (hn : n ∈ ([] : List (Note F G))) =>
        absurd hn List.not_mem_nil
      rw [List.append_nil] at hcut
      exact hcut
    · exact hs.returned hend.1 hend.2
  | kill c k left =>
    obtain ⟨m, hm, hcut⟩ := Option.bind_eq_some_iff.mp hstep
    obtain ⟨⟨d₁, t⟩, hk, rfl⟩ := Option.map_eq_some_iff.mp hcut
    refine hs.cutShort (Disk.Retains.interrupted ((StoreCall.program_goes hm).cut hk) left) (Or.inr rfl) fun n hn => ?_
    rcases List.mem_append.mp hn with hn | hn
    · obtain ⟨bytes, id, ht, hends, rfl⟩ := StoreCall.mem_logging hn
      exact Or.inr ⟨id, rfl, ((StoreCall.program_logs hm).cut hk).dead hn left, fun s hs => by cases hs⟩
    · exact Or.inl (FsStep.mem_note hn)
  | fail c k left =>
    obtain ⟨m, hm, hcut⟩ := Option.bind_eq_some_iff.mp hstep
    obtain ⟨⟨d₁, t⟩, hk, rfl⟩ := Option.map_eq_some_iff.mp hcut
    refine hs.cutShort (Disk.Retains.interrupted ((StoreCall.program_goes hm).cut hk) left) (survivor_cases c h.store)
      fun n hn => ?_
    have hlogs := (StoreCall.program_logs hm).cut hk
    rcases List.mem_append.mp hn with hn | hn
    · obtain ⟨bytes, id, ht, hends, rfl⟩ := StoreCall.mem_logging hn
      refine Or.inr ⟨id, rfl, hlogs.dead hn left, fun s hstore => ?_⟩
      have hprior : h.store = some s := by
        rcases survivor_cases c h.store with hsame | hnone
        · exact hsame.symm.trans hstore
        · cases hnone.symm.trans hstore
      rw [hprior] at hlogs
      exact hlogs.spent hn left
    · exact Or.inl (FsStep.mem_note hn)
  | stop =>
    obtain rfl := Option.some.inj hstep
    exact ⟨fun n hn id hspends => ⟨(hs.spent n hn id hspends).1, fun s heq => by cases heq⟩, hs.once, hs.sealed, hs.handed⟩

end Host.Sound

/-! ## Theorem -/

/-- **A record is handed out once**, and never after the end of its id has begun to be logged, whatever
is killed and whatever fails; and it is one that was there, or that an insert was asked to store. -/
theorem single_use {d : Disk} {events : List (HostEvent F G)} {h : Host F G}
    (hrun : Run (Host.step cr) (fun _ _ => True) ⟨d, none, []⟩ events h) :
    (h.log.Pairwise fun first later => ∀ id, first.Spends id → ¬ later.Hands id) ∧
      ∀ id presig, .handed id presig ∈ h.log → Host.Genuine cr d h.log id presig := by
  have hstart : Host.Sound (F := F) (G := G) cr d ⟨d, none, []⟩ :=
    ⟨fun n hn => absurd hn List.not_mem_nil, List.Pairwise.nil, fun _ _ hb => Or.inl hb,
      fun id presig hn => absurd hn List.not_mem_nil⟩
  have hs := hrun.invariant (I := fun h => h.Sound cr d) (fun _ _ _ hs _ hstep => hs.step hstep) hstart
  exact ⟨hs.once, hs.handed⟩

end Host

section Fresh

open Secp256k1

/-- A consume; one that fails as it logs, and is tried again; a burn that dies as it logs. -/
def hostEvents : List (HostEvent Scalar Point) :=
  [.run (.reopen freshArgs), .run (recordInsert 1), .run (.consume 1), .run (recordInsert 2), .fail (.consume 2) 1 (.torn 0),
    .run (.consume 2), .kill (.burn 7) 2 .done, .run (.reopen freshArgs), .run (.consume 2), .run (recordInsert 7),
    .run (.consume 7)]

theorem single_use_logged : ∃ h : Host Scalar Point, Run (Host.step plainCrypto) (fun _ _ => True) ⟨freshDisk, none, []⟩ hostEvents h ∧
    .handed 1 (recordOf 1).val ∈ h.log ∧ .logging 2 ∈ h.log ∧ .logging 7 ∈ h.log ∧
    (h.log.Pairwise fun first later => ∀ id, first.Spends id → ¬ later.Hands id) ∧
    Host.Genuine plainCrypto freshDisk h.log 1 (recordOf 1).val := by
  have hfacts : (hostEvents.foldlM (Host.step plainCrypto) ⟨freshDisk, none, []⟩).any (fun h =>
      decide (.handed 1 (recordOf 1).val ∈ h.log ∧ .logging 2 ∈ h.log ∧ .logging 7 ∈ h.log)) = true := by decide +kernel
  obtain ⟨h, hfold, hnotes⟩ := (Option.any_eq_true _ _).mp hfacts
  obtain ⟨hhanded, hfailed, hkilled⟩ := of_decide_eq_true hnotes
  have hrun : Run (Host.step plainCrypto) (fun _ _ => True) ⟨freshDisk, none, []⟩ hostEvents h :=
    Run.of_foldlM (fun _ _ _ => trivial) hfold
  obtain ⟨honce, hgenuine⟩ := single_use hrun
  exact ⟨h, hrun, hhanded, hfailed, hkilled, honce, hgenuine 1 _ hhanded⟩

/-- A burn that fails as it logs leaves its id to be inserted, and handed out. -/
example : ([.run (.reopen freshArgs), .fail (.burn 1) 2 (.torn 0), .run (recordInsert 1), .run (.consume 1)].foldlM
    (Host.step plainCrypto) ⟨freshDisk, none, []⟩).any (fun h => decide (.handed 1 (recordOf 1).val ∈ h.log)) = true := by
  decide +kernel

end Fresh

end OhmEcdsa
