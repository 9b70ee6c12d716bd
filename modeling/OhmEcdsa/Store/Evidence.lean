import OhmEcdsa.Store.Archive
import OhmEcdsa.Store.Refines

/-!
# The store against its transcript (`store/persist.rs`)

A node appends each envelope it accepts to the transcript, the first of each slot, and `open`
takes the ids in the Sign-phase shares of the transcript for spent.

    open refuses ↔ the transcript is whole, and one of its shares names a live id     (cross_check_iff)

The share may be anyone's: a node takes what it accepts for what it signed.  And a transcript
that ends in a part of an entry is taken for no transcript at all.
-/

set_option linter.unusedSectionVars false

namespace OhmEcdsa

open Codec Decoder Hoare Transition

/-- `(sid, phase, round, from, to)`. -/
abbrev TranscriptSlot := Bytes × Phase × Nat × PartyId × Option PartyId

/-- The transcript's file, and the slots logged since the process started. -/
structure Archive where
  transcript : Bytes
  logged : List TranscriptSlot

/-! ## Algorithm -/

/-- `create`: an existing transcript is appended to. -/
def Archive.create (transcript : Option Bytes) : Archive := ⟨transcript.getD [], []⟩

section Evidence

variable {F G : Type} [Field F] [DecidableEq F] [AddCommGroup G] [Module F G] [DecidableEq G] [K256 F G]
  [WireFormat F G]

def transcriptSlot (se : SignedEnvelope (NodePayload F G)) : TranscriptSlot :=
  (se.envelope.sid, se.envelope.phase, se.envelope.round, se.envelope.sender, se.envelope.addressee)

/-- `log_accepted`; the slot of an envelope too large for its length is logged all the same. -/
def Archive.logAccepted (archive : Archive) (se : SignedEnvelope (NodePayload F G)) : Archive :=
  if transcriptSlot se ∈ archive.logged then archive
  else if (se.encode NodePayload.encode).length < 2 ^ 32 then
    ⟨archive.transcript ++ transcriptEntry se, transcriptSlot se :: archive.logged⟩
  else { archive with logged := transcriptSlot se :: archive.logged }

/-- A node's data directory and the process on it; what it has accepted, and the entries that the transcript has. -/
structure Vault (F G : Type) where
  session : Session
  archive : Archive
  accepted : List (SignedEnvelope (NodePayload F G))
  written : List (SignedEnvelope (NodePayload F G))

inductive VaultEvent (F G : Type)
  | call (c : StoreCall F G)
  | accept (se : SignedEnvelope (NodePayload F G))
  | restart (args : OpenArgs)

def Vault.step (cr : Crypto) (v : Vault F G) : VaultEvent F G → Option (Vault F G)
  | .call c => (v.session.call cr c).map fun session => { v with session := session }
  | .accept se => some { v with
      archive := v.archive.logAccepted se
      accepted := v.accepted ++ [se]
      written := if transcriptSlot se ∈ v.archive.logged then v.written else v.written ++ [se] }
  | .restart args =>
    (openSession F G cr { args with transcript := some v.archive.transcript } v.session.disk).map fun session =>
      { v with session := session, archive := .create (some v.archive.transcript) }

/-! ## Specification -/

/-- Files of a file system, and envelopes that came off the wire. -/
def Vault.Roomy (v : Vault F G) (e : VaultEvent F G) : Prop :=
  v.session.disk.Bounded ∧ ∀ se, e = .accept se →
    se.Fits F G NodePayload.encode NodePayload.Fits ∧ (se.encode NodePayload.encode).length < 2 ^ 32

/-- A share among them names an id of the set. -/
def Spending (entries : List (SignedEnvelope (NodePayload F G))) (live : Finset U64) : Prop :=
  ∃ se ∈ entries, ∃ id ∈ live, signEvidence se = some id

variable (F G) in
/-- The transcript is the entries, and an entry stands for every accepted slot. -/
structure Vault.Sound (cr : Crypto) (keyBytes : Bytes) (v : Vault F G) : Prop where
  keyed : v.session.Keyed F G cr keyBytes
  whole : TranscriptOf v.written v.archive.transcript
  slots : ∀ slot ∈ v.archive.logged, ∃ se ∈ v.written, transcriptSlot se = slot
  covered : ∀ se ∈ v.accepted, ∃ se' ∈ v.written, transcriptSlot se' = transcriptSlot se

/-! ## Lemmas -/

variable {cr : Crypto} {keyBytes : Bytes} {v v' : Vault F G}

theorem TranscriptOf.snoc {entries : List (SignedEnvelope (NodePayload F G))} {log : Bytes} (h : TranscriptOf entries log)
    {se : SignedEnvelope (NodePayload F G)} (hfits : se.Fits F G NodePayload.encode NodePayload.Fits)
    (hsmall : (se.encode NodePayload.encode).length < 2 ^ 32) : TranscriptOf (entries ++ [se]) (log ++ transcriptEntry se) := by
  refine ⟨fun env henv => ?_, fun env henv => ?_, ?_⟩
  · rcases List.mem_append.mp henv with henv | henv
    · exact h.fits env henv
    · rw [List.mem_singleton.mp henv]
      exact hfits
  · rcases List.mem_append.mp henv with henv | henv
    · exact h.small env henv
    · rw [List.mem_singleton.mp henv]
      exact hsmall
  · rw [h.log, List.flatMap_append, List.flatMap_singleton]

/-- **A torn end** hides the whole transcript. -/
theorem signEvidenceIds_torn {entries : List (SignedEnvelope (NodePayload F G))} {log : Bytes} (h : TranscriptOf entries log)
    {se : SignedEnvelope (NodePayload F G)} (hsmall : (se.encode NodePayload.encode).length < 2 ^ 32) {k : Nat} (hk : 0 < k)
    (hcut : k < (transcriptEntry se).length) : signEvidenceIds F G (some (log ++ (transcriptEntry se).take k)) = none := by
  have hbodies : ∀ body ∈ entries.map (SignedEnvelope.encode NodePayload.encode), body.length < 2 ^ 32 := by
    intro body hbody
    obtain ⟨env, henv, rfl⟩ := List.mem_map.mp hbody
    exact h.small env henv
  have hlog : log = (entries.map (SignedEnvelope.encode NodePayload.encode)).flatMap frame := by
    rw [h.log, List.flatMap_map]
    rfl
  have htorn : ∃ e, readTranscript F G (log ++ (transcriptEntry se).take k) = .error e := by
    rw [hlog]
    exact readLog_torn _ _ hbodies _ hsmall hk hcut
  obtain ⟨e, he⟩ := htorn
  unfold signEvidenceIds
  simp only [he]

/-- Whole, it shows what its shares name. -/
theorem TranscriptOf.unspent_iff {entries : List (SignedEnvelope (NodePayload F G))} {log : Bytes} (h : TranscriptOf entries log)
    {args : OpenArgs} (hargs : args.transcript = some log) (live : Finset U64) :
    args.Unspent F G live ↔ ¬ Spending entries live := by
  have hids : signEvidenceIds F G (some log) = some (entries.filterMap signEvidence) :=
    (signEvidenceIds_iff log _).mpr ⟨entries, h, rfl⟩
  unfold OpenArgs.Unspent
  rw [hargs, hids]
  constructor
  · rintro hunspent ⟨se, hse, id, hid, hnames⟩
    exact hunspent _ rfl id (List.mem_filterMap.mpr ⟨se, hse, hnames⟩) hid
  · rintro hnot ids hids id hid hlive
    obtain rfl := Option.some.inj hids
    obtain ⟨se, hse, hnames⟩ := List.mem_filterMap.mp hid
    exact hnot ⟨se, hse, id, hlive, hnames⟩

namespace Vault.Sound

theorem step {e : VaultEvent F G} (h : v.Sound F G cr keyBytes) (hroomy : v.Roomy e) (hstep : v.step cr e = some v') :
    v'.Sound F G cr keyBytes := by
  cases e with
  | call c =>
    obtain ⟨session, hcall, rfl⟩ := Option.map_eq_some_iff.mp hstep
    exact ⟨(h.keyed.call hroomy.1 hcall).1, h.whole, h.slots, h.covered⟩
  | accept se =>
    obtain ⟨hfits, hsmall⟩ := hroomy.2 se rfl
    cases hstep
    unfold Archive.logAccepted
    by_cases hlogged : transcriptSlot se ∈ v.archive.logged
    · rw [if_pos hlogged, if_pos hlogged]
      refine ⟨h.keyed, h.whole, h.slots, fun env henv => ?_⟩
      rcases List.mem_append.mp henv with henv | henv
      · exact h.covered env henv
      · rw [List.mem_singleton.mp henv]
        exact h.slots _ hlogged
    · rw [if_neg hlogged, if_neg hlogged, if_pos hsmall]
      have hself : ∃ env ∈ v.written ++ [se], transcriptSlot env = transcriptSlot se :=
        ⟨se, List.mem_append_right _ (List.mem_singleton_self se), rfl⟩
      have hkept : ∀ {slot : TranscriptSlot}, (∃ env ∈ v.written, transcriptSlot env = slot) →
          ∃ env ∈ v.written ++ [se], transcriptSlot env = slot := by
        rintro slot ⟨env, henv, hslot⟩
        exact ⟨env, List.mem_append_left _ henv, hslot⟩
      refine ⟨h.keyed, h.whole.snoc hfits hsmall, fun slot hslot => ?_, fun env henv => ?_⟩
      · rcases List.mem_cons.mp hslot with rfl | hslot
        · exact hself
        · exact hkept (h.slots slot hslot)
      · rcases List.mem_append.mp henv with henv | henv
        · exact hkept (h.covered env henv)
        · rw [List.mem_singleton.mp henv]
          exact hself
  | restart args =>
    obtain ⟨session, hopen, rfl⟩ := Option.map_eq_some_iff.mp hstep
    have hcall : v.session.call (F := F) (G := G) cr (.reopen { args with transcript := some v.archive.transcript }) = some session := hopen
    exact ⟨(h.keyed.call hroomy.1 hcall).1, h.whole, fun _ hslot => absurd hslot List.not_mem_nil, h.covered⟩

theorem run {events : List (VaultEvent F G)} (h : v.Sound F G cr keyBytes) (hrun : Run (Vault.step cr) Vault.Roomy v events v') :
    v'.Sound F G cr keyBytes :=
  hrun.invariant (I := fun v => v.Sound F G cr keyBytes) (fun _ _ _ h hroomy hstep => h.step hroomy hstep) h

end Vault.Sound

/-! ## Theorem -/

/-- **The cross-check**, of the store at any point of a run with the transcript at any later one: it
refuses a store with a live id that some entry's share names, whoever sent it, and nothing else;
an entry is there for every accepted slot; and a torn last entry hides them all. -/
theorem cross_check_iff {args args' : OpenArgs} {d : Disk} {s : Session} {first : List (SignedEnvelope (NodePayload F G))}
    {log : Bytes} {v₁ v₂ : Vault F G} {events events' : List (VaultEvent F G)} (hj : d.journal = none) (hd : d.Bounded)
    (hopen : openSession F G cr args d = some s) (hlog : TranscriptOf first log)
    (hrun : Run (Vault.step cr) Vault.Roomy ⟨s, .create (some log), [], first⟩ events v₁)
    (hrun' : Run (Vault.step cr) Vault.Roomy v₁ events' v₂) (hb : v₁.session.disk.Bounded)
    (hkey : args'.keyBytes = args.keyBytes) (hverified : args'.allowUnverified = false) :
    ((∃ s', openSession F G cr { args' with transcript := some v₂.archive.transcript } v₁.session.disk = some s') ↔
      ¬ Spending v₂.written v₁.session.store.live) ∧
    (∀ se : SignedEnvelope (NodePayload F G), (se.encode NodePayload.encode).length < 2 ^ 32 → ∀ k, 0 < k →
      k < (transcriptEntry se).length → ∃ s', openSession F G cr
        { args' with transcript := some (v₂.archive.transcript ++ (transcriptEntry se).take k) } v₁.session.disk = some s') ∧
    ∀ se ∈ v₂.accepted, ∃ se' ∈ v₂.written, transcriptSlot se' = transcriptSlot se := by
  have hstart : Vault.Sound F G cr args.keyBytes ⟨s, .create (some log), [], first⟩ :=
    ⟨openSession_keyed hd hj hopen, hlog, fun _ h => absurd h List.not_mem_nil, fun _ h => absurd h List.not_mem_nil⟩
  have h₁ := hstart.run hrun
  have h₂ := h₁.run hrun'
  obtain ⟨entries, mtime, hm⟩ := h₁.keyed.faithful.imp fun _ h => h.mirrors
  have hopens : ∀ a : OpenArgs, a.keyBytes = args.keyBytes → a.allowUnverified = false →
      ((∃ s', openSession F G cr a v₁.session.disk = some s') ↔ a.Unspent F G v₁.session.store.live) := by
    intro a hkey hverified
    rw [h₁.keyed.opens_iff rfl h₁.keyed.key hm.readable hb hkey hverified fun id => hm.lives_iff.symm]
    exact and_iff_right fun id => Progress.refl _
  refine ⟨?_, fun se hsmall k hk hcut => ?_, h₂.covered⟩
  · have hwhole := hopens { args' with transcript := some v₂.archive.transcript } hkey hverified
    exact hwhole.trans (h₂.whole.unspent_iff rfl _)
  · have htorn := hopens { args' with transcript := some (v₂.archive.transcript ++ (transcriptEntry se).take k) } hkey hverified
    refine htorn.mpr fun ids hids => ?_
    rw [signEvidenceIds_torn h₂.whole hsmall hk hcut] at hids
    cases hids

end Evidence

section Fresh

open Secp256k1

theorem blamedShare_fits : (blamedShare 2).Fits Scalar Point NodePayload.encode NodePayload.Fits :=
  (shareAbort_fits 2 1 _ rfl).2.1

theorem blamedShare_small : ((blamedShare 2).encode NodePayload.encode).length < 2 ^ 32 := by
  have hsid : (utf8 "s").length = 1 := by decide +kernel
  simp [blamedShare, SignedEnvelope.encode, Envelope.encode, Envelope.broadcast, NodePayload.encode, putBytes, u64Bytes,
    WireFormat.scalarBytes_length, hsid]

/-- Party 2 names a record that this node has not used: the node does not start again. -/
theorem cross_check_iff_foreign : ∃ v₁ v₂ : Vault Scalar Point,
    [VaultEvent.call (recordInsert 1)].foldlM (Vault.step plainCrypto) ⟨freshSession, .create (some []), [], []⟩ = some v₁ ∧
      v₁.step plainCrypto (.accept (blamedShare 2)) = some v₂ ∧
      ¬ ∃ s', openSession Scalar Point plainCrypto { freshArgs with transcript := some v₂.archive.transcript } v₁.session.disk =
        some s' := by
  obtain ⟨v₁, hv₁⟩ : ∃ v, Vault.step (F := Scalar) (G := Point) plainCrypto ⟨freshSession, .create (some []), [], []⟩
      (.call (recordInsert 1)) = some v := ⟨_, rfl⟩
  obtain ⟨v₂, hv₂⟩ : ∃ v, v₁.step plainCrypto (.accept (blamedShare 2)) = some v := ⟨_, rfl⟩
  have hlive : 1 ∈ v₁.session.store.live := by
    cases hv₁
    decide
  have hwritten : blamedShare 2 ∈ v₂.written := by
    cases hv₁
    cases hv₂
    exact List.mem_singleton_self _
  have hb : v₁.session.disk.Bounded := by
    cases hv₁
    decide +kernel
  have hrun : Run (Vault.step plainCrypto) Vault.Roomy ⟨freshSession, .create (some []), [], []⟩ [.call (recordInsert 1)] v₁ :=
    Run.cons ⟨freshSession_bounded, fun _ h => (by cases h)⟩ hv₁ (Run.nil v₁)
  have hroomy : v₁.Roomy (.accept (blamedShare 2)) := by
    refine ⟨hb, fun se h => ?_⟩
    cases h
    exact ⟨blamedShare_fits, blamedShare_small⟩
  have hempty : TranscriptOf ([] : List (SignedEnvelope (NodePayload Scalar Point))) [] :=
    ⟨fun _ h => absurd h List.not_mem_nil, fun _ h => absurd h List.not_mem_nil, rfl⟩
  have hchecked := cross_check_iff (d := freshDisk) rfl freshDisk_bounded
    freshSession_opened hempty hrun
    (Run.cons hroomy hv₂ (Run.nil v₂)) hb (show freshArgs.keyBytes = freshArgs.keyBytes from rfl) rfl
  refine ⟨v₁, v₂, by simp [hv₁], hv₂, fun hopens => hchecked.1.mp hopens ⟨blamedShare 2, hwritten, 1, hlive, rfl⟩⟩

end Fresh

end OhmEcdsa
