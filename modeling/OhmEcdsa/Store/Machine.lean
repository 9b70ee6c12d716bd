import OhmEcdsa.Store.Ops
import OhmEcdsa.Support.Run

/-!
# Runs of the store (`store/persist.rs`)

A process opens a directory, and calls the operations, one after the other; it may stop
after any call and open the directory again.  Every successful call keeps the store
`Faithful` to a journal that replays, so at the end of a run

    journalReplay bytes = ok entries,  and  id ∈ live ↔ the last entry on id is an insert     (journal_sound)

and the replay refuses every edit of the journal other than dropping its last entries.
-/

set_option linter.unusedSectionVars false

namespace OhmEcdsa

open Codec Decoder Hoare Transition

section Session

variable (F G : Type) [Field F] [DecidableEq F] [AddCommGroup G] [Module F G] [DecidableEq G] [K256 F G]
  [WireFormat F G]

/-! ## Algorithm -/

/-- A presignature in memory. -/
abbrev Record := { p : Presignature F G // p.Fits }

/-- A directory, and the process that has it open. -/
structure Session where
  disk : Disk
  store : DiskPresigStore

inductive StoreCall
  | insertAt (nonce : Nonce) (presig : Record F G) (createdAt : U64)
  | consume (id : U64)
  | expire (id : U64)
  | burn (id : U64)
  | reopen (args : OpenArgs)

def openSession (cr : Crypto) (args : OpenArgs) (d : Disk) : Option Session :=
  (completed (openMode F G cr args) d).map fun out => ⟨out.2, out.1⟩

variable {F G}

/-- The session after a call that succeeds. -/
def Session.call (cr : Crypto) (s : Session) : StoreCall F G → Option Session
  | .insertAt nonce presig createdAt =>
    (completed (s.store.insertAt cr nonce presig.val createdAt.val) s.disk).map fun out => ⟨out.2, out.1⟩
  | .consume id => (completed (s.store.consume F G cr id) s.disk).map fun out => ⟨out.2, out.1.2⟩
  | .expire id => (completed (s.store.expire cr id) s.disk).map fun out => ⟨out.2, out.1.2⟩
  | .burn id => (completed (s.store.burn cr id) s.disk).map fun out => ⟨out.2, out.1.2⟩
  | .reopen args => openSession F G cr args s.disk

/-! ## Specification -/

/-- The directory, the journal and the sets tell one story. -/
structure Faithful (F G : Type) [Field F] [DecidableEq F] [AddCommGroup G] [Module F G] [DecidableEq G] [K256 F G]
    [WireFormat F G] (cr : Crypto) (s : Session) (entries : List JournalEntry) : Prop where
  mirrors : ∃ mtime, Mirrors F G cr mtime s.disk entries s.store
  journaled : ∀ id, (s.disk.state cr id).isSome → (stateOf entries id).isSome

/-- The sets of the store are the last words of the journal. -/
structure Agrees (store : DiskPresigStore) (entries : List JournalEntry) : Prop where
  live : ∀ id, id ∈ store.live ↔ ∃ h, stateOf entries id = some (.live h)
  consumed : ∀ id, id ∈ store.consumed ↔ ∃ h, stateOf entries id = some (.consumed h)
  expired : ∀ id, id ∈ store.expired ↔ stateOf entries id = some .expired

/-! ## Lemmas -/

variable {cr : Crypto} {args : OpenArgs} {s s' : Session} {entries : List JournalEntry}

theorem Mirrors.reconciles {mtime : U64 → Nat} {d : Disk} {store : DiskPresigStore}
    (h : Mirrors F G cr mtime d entries store) : d.Reconciles cr := by
  intro bytes hj
  obtain ⟨bytes', hj', hreplay⟩ := h.journal
  obtain rfl : bytes' = bytes := Option.some.inj (hj'.symm.trans hj)
  refine ⟨entries, hreplay, fun id j hs => ⟨[], ?_⟩⟩
  rw [h.settled id j hs]
  exact reconcileOne_artifact cr id j

/-- A directory that an open store has left is as the store has it. -/
theorem Mirrors.truth {mtime : U64 → Nat} {d : Disk} {store : DiskPresigStore}
    (h : Mirrors F G cr mtime d entries store) (id : U64) : d.truth cr id = d.state cr id := by
  obtain ⟨bytes, hj, hreplay⟩ := h.journal
  unfold Disk.truth
  rw [hj]
  simp only [hreplay]
  cases hs : d.state cr id with
  | none => simp
  | some st =>
    cases st with
    | live dg =>
      obtain ⟨j, hj⟩ := Option.isSome_iff_exists.mp (h.accounted id dg hs)
      rw [hj]
      rfl
    | consumed dg => simp [DiskState.isLive]
    | expired => simp [DiskState.isLive]

theorem openSession_opened {d : Disk} (hd : d.Bounded) (hflag : args.allowUnverified = false ∨ d.Reconciles cr)
    (h : openSession F G cr args d = some s) : ∃ entries, Opened F G cr args d entries s.store s.disk := by
  obtain ⟨⟨store, d'⟩, hrun, rfl⟩ := Option.map_eq_some_iff.mp h
  exact (openMode_goes (C := fun _ _ => True) hd hflag fun _ _ _ => trivial).of_completed hrun

/-- An openable directory opens. -/
theorem openSession_openable {d : Disk} (hd : d.Bounded) (h : d.Openable F G cr args) :
    ∃ s, openSession F G cr args d = some s := by
  have hgoes : Goes (fun _ _ => True) d (openMode F G cr args) (fun store d' => ∃ entries, Opened F G cr args d entries store d')
      (fun _ d' => ¬ d.Openable F G cr args ∧ d.Opening cr args.keyBytes d') :=
    openMode_goes hd (Or.inr h.reconciles) fun _ _ _ => trivial
  obtain ⟨store, d', hrun, -⟩ := hgoes.completes fun _ _ hnot => hnot.1 h
  exact ⟨⟨d', store⟩, by rw [openSession, hrun]; rfl⟩

namespace Faithful

theorem agrees (h : Faithful F G cr s entries) : Agrees s.store entries := by
  obtain ⟨mtime, hm⟩ := h.mirrors
  have hstate : ∀ id, s.disk.state cr id = (stateOf entries id).map JournalState.artifact := by
    intro id
    cases hj : stateOf entries id with
    | some j => exact hm.settled id j hj
    | none =>
      have := h.journaled id
      rw [hj] at this
      exact Option.not_isSome_iff_eq_none.mp fun hs => by cases this hs
  have hcases : ∀ id, (∃ j, stateOf entries id = some j ∧ s.disk.state cr id = some j.artifact) ∨
      stateOf entries id = none ∧ s.disk.state cr id = none := by
    intro id
    rw [hstate]
    cases stateOf entries id with
    | some j => exact Or.inl ⟨j, rfl, rfl⟩
    | none => exact Or.inr ⟨rfl, rfl⟩
  refine ⟨fun id => ?_, fun id => ?_, fun id => ?_⟩
  · rw [hm.live]
    rcases hcases id with ⟨j, hj, hs⟩ | ⟨hj, hs⟩ <;> rw [hj, hs]
    · cases j <;> simp [JournalState.artifact]
    · simp
  · rw [hm.consumed]
    rcases hcases id with ⟨j, hj, hs⟩ | ⟨hj, hs⟩ <;> rw [hj, hs]
    · cases j <;> simp [JournalState.artifact]
    · simp
  · rw [hm.expired]
    rcases hcases id with ⟨j, hj, hs⟩ | ⟨hj, hs⟩ <;> rw [hj, hs]
    · cases j <;> simp [JournalState.artifact]
    · simp

theorem ofMutated {mtime : U64 → Nat} {id : U64} {st : DiskState} (h : Faithful F G cr s entries)
    (hm : Mutated F G cr mtime s.disk entries s.store id st s'.disk s'.store) : ∃ entries', Faithful F G cr s' entries' := by
  obtain ⟨op, payload, hmirrors⟩ := hm.mirrors
  refine ⟨_, ⟨mtime, hmirrors⟩, fun i hi => ?_⟩
  rw [stateOf_snoc, show (nextEntry cr entries op id payload).id = id from rfl]
  by_cases hid : i = id
  · rw [if_pos hid]
    rfl
  · rw [if_neg hid]
    exact h.journaled i (by rwa [(hm.same i hid).state] at hi)

/-- **Every successful call** keeps the session faithful. -/
theorem call {c : StoreCall F G} (h : Faithful F G cr s entries) (hd : s.disk.Bounded) (hcall : s.call cr c = some s') :
    ∃ entries', Faithful F G cr s' entries' := by
  obtain ⟨mtime, hm⟩ := h.mirrors
  have hroom : entries.length + 1 < 2 ^ 64 := by
    have := hm.room hd
    omega
  cases c with
  | insertAt nonce presig createdAt =>
    obtain ⟨⟨store, d'⟩, hrun, rfl⟩ := Option.map_eq_some_iff.mp hcall
    obtain ⟨-, -, -, dg, hmut⟩ := (insertAt_goes hm hroom (C := fun _ _ => True) nonce presig.property
      createdAt.isLt fun _ _ _ => trivial).of_completed hrun
    exact h.ofMutated hmut
  | consume id =>
    obtain ⟨⟨⟨presig, store⟩, d'⟩, hrun, rfl⟩ := Option.map_eq_some_iff.mp hcall
    obtain ⟨-, -, dg, -, hmut⟩ := (consume_goes hm hroom (C := fun _ _ => True) id fun _ _ _ => trivial).of_completed hrun
    exact h.ofMutated hmut
  | expire id =>
    obtain ⟨⟨⟨done, store⟩, d'⟩, hrun, rfl⟩ := Option.map_eq_some_iff.mp hcall
    rcases (expire_goes hm hroom (C := fun _ _ => True) id fun _ _ _ => trivial).of_completed hrun with
      ⟨-, hout, rfl⟩ | ⟨-, -, hmut⟩
    · cases hout
      exact ⟨entries, h⟩
    · exact h.ofMutated hmut
  | burn id =>
    obtain ⟨⟨⟨done, store⟩, d'⟩, hrun, rfl⟩ := Option.map_eq_some_iff.mp hcall
    rcases (burn_goes hm hroom (C := fun _ _ => True) id fun _ _ _ => trivial).of_completed hrun with
      ⟨-, hout, rfl⟩ | ⟨-, -, hmut⟩
    · cases hout
      exact ⟨entries, h⟩
    · exact h.ofMutated hmut
  | reopen args =>
    obtain ⟨entries', hopened⟩ := openSession_opened hd (Or.inr hm.reconciles) hcall
    obtain ⟨bytes, hj, hreplay⟩ := hm.journal
    obtain rfl : entries' = entries := hopened.kept bytes entries hj hreplay hm.settled
    refine ⟨entries', ⟨args.mtime, hopened.mirrors⟩, fun id hid => h.journaled id ?_⟩
    rwa [hopened.state, hm.truth] at hid

end Faithful

/-- A directory without a journal is adopted whole. -/
theorem openSession_faithful {d : Disk} (hd : d.Bounded) (hj : d.journal = none)
    (h : openSession F G cr args d = some s) : ∃ entries, Faithful F G cr s entries := by
  have hreconciles : d.Reconciles cr := fun bytes hb => by
    rw [hj] at hb
    cases hb
  obtain ⟨entries, hopened⟩ := openSession_opened hd (Or.inr hreconciles) h
  refine ⟨entries, ⟨args.mtime, hopened.mirrors⟩, fun id hid => hopened.adopted hj id ?_⟩
  rw [hopened.state] at hid
  unfold Disk.truth at hid
  rwa [hj] at hid

theorem run_faithful {calls : List (StoreCall F G)} (h : Faithful F G cr s entries)
    (hrun : Run (Session.call cr) (fun s _ => s.disk.Bounded) s calls s') : ∃ entries', Faithful F G cr s' entries' :=
  hrun.invariant (I := fun s => ∃ entries, Faithful F G cr s entries)
    (fun _ _ _ ⟨_, hs⟩ hd hcall => hs.call hd hcall) ⟨entries, h⟩

/-! ## Theorem -/

/-- **The journal of a run** replays to the sets of the store; an edit of it that is not an end
cut off is refused, or two links hash alike. -/
theorem journal_sound {d : Disk} {calls : List (StoreCall F G)} (hj : d.journal = none) (hd : d.Bounded)
    (hopen : openSession F G cr args d = some s)
    (hrun : Run (Session.call cr) (fun s _ => s.disk.Bounded) s calls s') :
    ∃ bytes entries, s'.disk.journal = some bytes ∧ bytes = journalBytes entries ∧
      journalReplay cr bytes = .ok entries ∧ Agrees s'.store entries ∧
      (∀ es, (∀ e ∈ es, e ∈ entries) → ¬ es <+: entries → ∃ msg, journalReplay cr (journalBytes es) = .error msg) ∧
      ∀ forged tail, tail ≠ [] → tail <:+ entries → forged ++ journalBytes tail ≠ bytes →
        (∃ msg, journalReplay cr (forged ++ journalBytes tail) = .error msg) ∨
        ∃ es, journalReplay cr (forged ++ journalBytes tail) = .ok es ∧
          ¬ Set.InjOn (JournalEntry.digest cr) {e | e ∈ entries ∨ e ∈ es} := by
  obtain ⟨first, hfirst⟩ := openSession_faithful hd hj hopen
  obtain ⟨entries, hfaithful⟩ := run_faithful hfirst hrun
  obtain ⟨mtime, hm⟩ := hfaithful.mirrors
  obtain ⟨bytes, hbytes, hreplay⟩ := hm.journal
  obtain ⟨hchain, heq⟩ := journalReplay_iff.mp hreplay
  refine ⟨bytes, entries, hbytes, heq, hreplay, hfaithful.agrees, fun es hsub hnot => ?_, fun forged tail htail hsuffix hne => ?_⟩
  · cases hes : journalReplay cr (journalBytes es) with
    | error msg => exact ⟨msg, rfl⟩
    | ok out =>
      obtain ⟨hout, hsame⟩ := journalReplay_iff.mp hes
      obtain rfl : es = out := journalBytes_injective (fun e he => hchain.fits e (hsub e he)) hout.fits hsame
      exact absurd (prefix_of_chained hchain hout hsub) hnot
  · cases hforged : journalReplay cr (forged ++ journalBytes tail) with
    | error msg => exact Or.inl ⟨msg, rfl⟩
    | ok es => exact Or.inr ⟨es, rfl, fun hinj => hne (forged_eq hreplay htail hsuffix hforged hinj)⟩

end Session

section Fresh

open Secp256k1

instance (d : Disk) : Decidable d.Bounded :=
  decidable_of_iff ((∀ bytes ∈ d.journal, bytes.length < 2 ^ 63) ∧ d.presig.size + d.consumed.size + d.expired.size < 2 ^ 63)
    ⟨fun h => ⟨h.1, h.2⟩, fun h => ⟨h.journal, h.files⟩⟩

/-- A digest that every byte enters, and no cipher. -/
def plainCrypto : Crypto where
  sha256 b := bigEndian 32 (b.foldl (fun acc byte => acc * 257 + byte.toNat + 1) 0)
  sha256_length _ := bigEndian_length 32 _
  encrypt _ _ msg := msg
  decrypt _ _ c := some c
  decrypt_encrypt _ _ _ := rfl

def freshDisk : Disk := ⟨none, none, ∅, ∅, ∅, ∅, none⟩

def freshArgs : OpenArgs := ⟨[2], false, none, "", fun _ => 0⟩

def zeroNonce : Nonce := ⟨List.replicate 12 0, rfl⟩

def freshSession : Session :=
  ⟨{ freshDisk with key := some [2], journal := some [] }, ⟨∅, ∅, ∅, ∅, ⟨1, zeroHash⟩⟩⟩

theorem freshDisk_bounded : freshDisk.Bounded := ⟨fun _ h => (by cases h), by decide⟩

theorem freshSession_bounded : freshSession.disk.Bounded := ⟨fun _ h => (by cases h; decide), by decide⟩

theorem freshSession_opened : openSession Scalar Point plainCrypto freshArgs freshDisk = some freshSession := rfl

def recordOf (id : U64) : Record Scalar Point := ⟨{ unitRecord with id := id }, unitRecord_fits⟩

def recordInsert (id : U64) : StoreCall Scalar Point := .insertAt zeroNonce (recordOf id) 5

/-- The operations a journal tells of. -/
def Session.ops (cr : Crypto) (s : Session) : Option (List UInt8) :=
  s.disk.journal.bind fun bytes => (journalReplay cr bytes).toOption.map fun entries => entries.map (·.op)

def reopenedCalls : List (StoreCall Scalar Point) := [recordInsert 1, .consume 1, .reopen freshArgs, .burn 7]

/-- A record is consumed, the process starts again, and an id is burned; the journal without
its first entry is refused. -/
theorem journal_sound_reopened : ∃ s bytes entries,
    Run (Session.call plainCrypto) (fun s _ => s.disk.Bounded) freshSession reopenedCalls s ∧ s.disk.journal = some bytes ∧
      journalReplay plainCrypto bytes = .ok entries ∧ Agrees s.store entries ∧
      entries.map (·.op) = [OP_INSERT, OP_CONSUME, OP_BURN] ∧ 1 ∈ s.store.consumed ∧ 7 ∈ s.store.expired ∧
      ∃ msg, journalReplay plainCrypto (journalBytes (entries.drop 1)) = .error msg := by
  have hfacts : (reopenedCalls.foldlM (guarded (Session.call plainCrypto) fun s _ => s.disk.Bounded) freshSession).map
      (fun s => (s.ops plainCrypto, decide (1 ∈ s.store.consumed), decide (7 ∈ s.store.expired))) =
      some (some [OP_INSERT, OP_CONSUME, OP_BURN], true, true) := by decide +kernel
  obtain ⟨s, hfold, hs⟩ := Option.map_eq_some_iff.mp hfacts
  simp only [Prod.mk.injEq, decide_eq_true_eq] at hs
  obtain ⟨hops, hconsumed, hexpired⟩ := hs
  have hrun := (Run.iff_foldlM freshSession s reopenedCalls).mpr hfold
  obtain ⟨bytes, entries, hj, -, hreplay, hagrees, hedits, -⟩ :=
    journal_sound rfl freshDisk_bounded freshSession_opened hrun
  unfold Session.ops at hops
  rw [hj, Option.bind_some, hreplay] at hops
  have hmap : entries.map (·.op) = [OP_INSERT, OP_CONSUME, OP_BURN] := Option.some.inj hops
  refine ⟨s, bytes, entries, hrun, hj, hreplay, hagrees, hmap, hconsumed, hexpired, ?_⟩
  refine hedits _ (fun e he => List.mem_of_mem_drop he) fun hprefix => ?_
  have hops := hprefix.map (·.op)
  rw [List.map_drop, hmap] at hops
  exact absurd hops (by decide)

end Fresh

end OhmEcdsa
