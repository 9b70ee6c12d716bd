import OhmEcdsa.Store.Crash

/-!
# Rollback (`store/persist.rs`)

A call moves the state of its id forward, and no state back:

    nothing known → live → consumed, expired

`open` compares the files with the journal, and accepts exactly files that are as the journal
says or further on.  So old files under a new journal are refused, new files under an old
journal lose what the journal does not know, and an old directory as a whole opens like any
other, unless the transcript shows that a record of it was spent     (rollback_iff)
-/

set_option linter.unusedSectionVars false

namespace OhmEcdsa

open Codec Decoder Hoare Transition

/-! ## Specification -/

/-- The states that an id goes through. -/
inductive Progress : Option DiskState → Option DiskState → Prop
  | refl (s : Option DiskState) : Progress s s
  | found (s : Option DiskState) : Progress none s
  | consumed (h : Bytes) : Progress (some (.live h)) (some (.consumed h))
  | expired (h : Bytes) : Progress (some (.live h)) (some .expired)

/-- No id has gone back, and a new journal means that one has gone on. -/
structure Disk.Advances (cr : Crypto) (d d' : Disk) : Prop where
  progress : ∀ id, Progress (d.state cr id) (d'.state cr id)
  strict : d'.journal = d.journal ∨ ∃ id, d'.state cr id ≠ d.state cr id

/-- The files of one directory under the journal of another. -/
def Disk.withJournal (d d' : Disk) : Disk := { d with journal := d'.journal }

section Unspent

variable (F G : Type) [Field F] [DecidableEq F] [AddCommGroup G] [Module F G] [DecidableEq G] [K256 F G]
  [WireFormat F G]

/-- The transcript shows none of the ids spent. -/
def OpenArgs.Unspent (args : OpenArgs) (live : Finset U64) : Prop :=
  ∀ ids, signEvidenceIds F G args.transcript = some ids → ∀ id ∈ ids, id ∉ live

end Unspent

/-! ## Lemmas: the order -/

namespace Progress

variable {a b c : Option DiskState}

theorem trans (h : Progress a b) (h' : Progress b c) : Progress a c := by
  cases h with
  | refl => exact h'
  | found => exact Progress.found c
  | consumed dg =>
    cases h' with
    | refl => exact Progress.consumed dg
  | expired dg =>
    cases h' with
    | refl => exact Progress.expired dg

theorem antisymm (h : Progress a b) (h' : Progress b a) : a = b := by
  cases h with
  | refl => rfl
  | found =>
    cases h' with
    | refl => rfl
    | found => rfl
  | consumed dg => cases h'
  | expired dg => cases h'

/-- Only a record that was there can be live. -/
theorem of_live {s : DiskState} {dg : Bytes} (h : Progress (some s) (some (.live dg))) : s = .live dg := by
  cases h
  rfl

theorem isSome {s : DiskState} (h : Progress (some s) a) : a.isSome := by
  cases h <;> rfl

theorem of_dead {s : DiskState} (hs : s.isLive = false) (h : Progress (some s) a) : a = some s := by
  cases h with
  | refl => rfl
  | consumed dg => cases hs
  | expired dg => cases hs

end Progress

/-- **The comparison with the journal** accepts exactly what is as journaled or further on. -/
theorem reconcileOne_ok_iff {cr : Crypto} {id : U64} {j : JournalState} {found : Option DiskState} :
    (∃ heals, reconcileOne cr id j found = .ok heals) ↔ Progress (some j.artifact) found := by
  constructor
  · rintro ⟨heals, hok⟩
    rcases reconcileOne_cases cr id j found with ⟨rfl, -⟩ | ⟨-, digest, heal, rfl, -, hcompletes, hheal⟩ | ⟨-, msg, hmsg⟩
    · exact Progress.refl _
    · rcases hcompletes with ⟨hop, hfound⟩ | ⟨hop, -, rfl⟩
      · subst hfound
        unfold reconcileOne at hheal
        by_cases hdigest : digest = heal.payload
        · rw [← hdigest]
          exact Progress.consumed digest
        · simp only [if_neg hdigest] at hheal
          cases hheal
      · exact Progress.expired digest
    · rw [hmsg] at hok
      cases hok
  · intro h
    rcases hj : j.artifact with dg | dg | _ <;> rw [hj] at h
    · obtain rfl : j = .live dg := by
        cases j <;> cases hj
        rfl
      cases h with
      | refl => exact ⟨[], reconcileOne_artifact cr id (.live dg)⟩
      | consumed => exact reconcileOne_completes cr id (Or.inl rfl)
      | expired => exact reconcileOne_completes cr id (Or.inr rfl)
    · rw [Progress.of_dead rfl h, ← hj]
      exact ⟨[], reconcileOne_artifact cr id j⟩
    · rw [Progress.of_dead rfl h, ← hj]
      exact ⟨[], reconcileOne_artifact cr id j⟩

namespace Disk.Advances

variable {cr : Crypto} {d d' d'' : Disk}

theorem refl (d : Disk) : d.Advances cr d := ⟨fun _ => Progress.refl _, Or.inl rfl⟩

theorem trans (h : d.Advances cr d') (h' : d'.Advances cr d'') : d.Advances cr d'' := by
  refine ⟨fun id => (h.progress id).trans (h'.progress id), ?_⟩
  rcases h.strict with heq | ⟨id, hid⟩
  · rcases h'.strict with heq' | ⟨id, hid⟩
    · exact Or.inl (heq'.trans heq)
    · refine Or.inr ⟨id, fun hback => hid ?_⟩
      have hreturn : Progress (d''.state cr id) (d'.state cr id) := by
        rw [hback]
        exact h.progress id
      exact hreturn.antisymm (h'.progress id)
  · refine Or.inr ⟨id, fun hback => hid ?_⟩
    have hreturn : Progress (d'.state cr id) (d.state cr id) := by
      rw [← hback]
      exact h'.progress id
    exact hreturn.antisymm (h.progress id)

/-- Whoever goes back must not have gone on. -/
theorem eq_of_back (h : d.Advances cr d') (hback : ∀ id, Progress (d'.state cr id) (d.state cr id)) :
    d'.journal = d.journal := by
  rcases h.strict with heq | ⟨id, hid⟩
  · exact heq
  · exact absurd ((hback id).antisymm (h.progress id)) hid

end Disk.Advances

section Rollback

variable {F G : Type} [Field F] [DecidableEq F] [AddCommGroup G] [Module F G] [DecidableEq G] [K256 F G]
  [WireFormat F G] {cr : Crypto} {args : OpenArgs} {s s₁ s₂ : Session} {entries : List JournalEntry}
  {keyBytes : Bytes}

/-! ## Lemmas: a call goes forward -/

theorem Mutated.advances {mtime : U64 → Nat} {id : U64} {st : DiskState}
    (hm : Mutated F G cr mtime s.disk entries s.store id st s₁.disk s₁.store)
    (hprogress : Progress (s.disk.state cr id) (some st)) (hnew : s.disk.state cr id ≠ some st) :
    s.disk.Advances cr s₁.disk := by
  refine ⟨fun i => ?_, Or.inr ⟨id, ?_⟩⟩
  · by_cases hi : i = id
    · rw [hi, hm.state]
      exact hprogress
    · rw [(hm.same i hi).state]
      exact Progress.refl _
  · rw [hm.state]
    exact hnew.symm

theorem Session.call_advances {c : StoreCall F G} (h : Faithful F G cr s entries) (hkey : s.disk.key = some keyBytes)
    (hd : s.disk.Bounded) (hcall : s.call cr c = some s₁) : s.disk.Advances cr s₁.disk ∧ s₁.disk.key = some keyBytes := by
  obtain ⟨mtime, hm⟩ := h.mirrors
  have hroom : entries.length + 1 < 2 ^ 64 := by
    have := hm.room hd
    omega
  have hburied : ∀ {id : U64}, id ∈ s.store.live →
      Progress (s.disk.state cr id) (some .expired) ∧ s.disk.state cr id ≠ some .expired := by
    intro id hid
    obtain ⟨dg, hs⟩ := (hm.live id).mp hid
    rw [hs]
    exact ⟨Progress.expired dg, fun h => by cases h⟩
  have hfresh : ∀ {id : U64} {st : DiskState}, s.store.known id = false →
      Progress (s.disk.state cr id) (some st) ∧ s.disk.state cr id ≠ some st := by
    intro id st hid
    rw [(hm.unknown hid).1]
    exact ⟨Progress.found _, fun h => by cases h⟩
  cases c with
  | insertAt nonce presig createdAt =>
    obtain ⟨⟨store, d'⟩, hrun, rfl⟩ := Option.map_eq_some_iff.mp hcall
    obtain ⟨hunknown, -, -, dg, hmut⟩ := (insertAt_goes hm hroom (C := fun _ _ => True) nonce presig.property
      createdAt.isLt fun _ _ _ => trivial).of_completed hrun
    exact ⟨Mutated.advances hmut (hfresh hunknown).1 (hfresh hunknown).2, hmut.key.trans hkey⟩
  | consume id =>
    obtain ⟨⟨⟨presig, store⟩, d'⟩, hrun, rfl⟩ := Option.map_eq_some_iff.mp hcall
    obtain ⟨-, -, dg, hs, hmut⟩ := (consume_goes hm hroom (C := fun _ _ => True) id fun _ _ _ => trivial).of_completed hrun
    refine ⟨Mutated.advances hmut ?_ ?_, hmut.key.trans hkey⟩ <;> rw [hs]
    · exact Progress.consumed dg
    · exact fun h => by cases h
  | expire id =>
    obtain ⟨⟨⟨done, store⟩, d'⟩, hrun, rfl⟩ := Option.map_eq_some_iff.mp hcall
    rcases (expire_goes hm hroom (C := fun _ _ => True) id fun _ _ _ => trivial).of_completed hrun with
      ⟨-, -, rfl⟩ | ⟨hid, -, hmut⟩
    · exact ⟨Disk.Advances.refl _, hkey⟩
    · exact ⟨Mutated.advances hmut (hburied hid).1 (hburied hid).2, hmut.key.trans hkey⟩
  | burn id =>
    obtain ⟨⟨⟨done, store⟩, d'⟩, hrun, rfl⟩ := Option.map_eq_some_iff.mp hcall
    rcases (burn_goes hm hroom (C := fun _ _ => True) id fun _ _ _ => trivial).of_completed hrun with
      ⟨-, -, rfl⟩ | ⟨hunknown, -, hmut⟩
    · exact ⟨Disk.Advances.refl _, hkey⟩
    · exact ⟨Mutated.advances hmut (hfresh hunknown).1 (hfresh hunknown).2, hmut.key.trans hkey⟩
  | reopen args =>
    obtain ⟨entries', hopened⟩ := openSession_opened hd (Or.inr hm.reconciles) hcall
    obtain ⟨bytes, hj, hreplay⟩ := hm.journal
    obtain rfl : entries' = entries := hopened.kept bytes entries hj hreplay hm.settled
    obtain ⟨bytes', hj', hreplay'⟩ := hopened.mirrors.journal
    refine ⟨⟨fun id => ?_, Or.inl ?_⟩, ?_⟩
    · rw [hopened.state, hm.truth]
      exact Progress.refl _
    · rw [hj, hj', (journalReplay_iff.mp hreplay).2, (journalReplay_iff.mp hreplay').2]
    · rw [hopened.key, hopened.openable.key keyBytes hkey]

/-- A session of the store, under its key. -/
structure Session.Keyed (F G : Type) [Field F] [DecidableEq F] [AddCommGroup G] [Module F G] [DecidableEq G] [K256 F G]
    [WireFormat F G] (cr : Crypto) (keyBytes : Bytes) (s : Session) : Prop where
  faithful : ∃ entries, Faithful F G cr s entries
  key : s.disk.key = some keyBytes

theorem Session.Keyed.call {c : StoreCall F G} (h : s.Keyed F G cr keyBytes) (hd : s.disk.Bounded)
    (hcall : s.call cr c = some s₁) : s₁.Keyed F G cr keyBytes ∧ s.disk.Advances cr s₁.disk := by
  obtain ⟨entries, hfaithful⟩ := h.faithful
  have hcalled := Session.call_advances hfaithful h.key hd hcall
  exact ⟨⟨hfaithful.call hd hcall, hcalled.2⟩, hcalled.1⟩

theorem Session.Keyed.run {calls : List (StoreCall F G)} (h : s.Keyed F G cr keyBytes)
    (hrun : Run (Session.call cr) (fun s _ => s.disk.Bounded) s calls s₁) :
    s₁.Keyed F G cr keyBytes ∧ s.disk.Advances cr s₁.disk := by
  refine hrun.invariant (I := fun s' => s'.Keyed F G cr keyBytes ∧ s.disk.Advances cr s'.disk) ?_
    ⟨h, Disk.Advances.refl _⟩
  rintro s' c s'' ⟨hkeyed, hadvances⟩ hd hcall
  obtain ⟨hkeyed', hnext⟩ := hkeyed.call hd hcall
  exact ⟨hkeyed', hadvances.trans hnext⟩

/-- A directory without a journal, opened. -/
theorem openSession_keyed {d : Disk} (hd : d.Bounded) (hj : d.journal = none) (hopen : openSession F G cr args d = some s) :
    s.Keyed F G cr args.keyBytes := by
  have hreconciles : d.Reconciles cr := fun bytes hb => by
    rw [hj] at hb
    cases hb
  obtain ⟨entries, hopened⟩ := openSession_opened hd (Or.inr hreconciles) hopen
  exact ⟨openSession_faithful hd hj hopen, hopened.key⟩

/-! ## Lemmas: files and journal -/

theorem Faithful.state (h : Faithful F G cr s entries) (id : U64) :
    s.disk.state cr id = (stateOf entries id).map JournalState.artifact := by
  obtain ⟨mtime, hm⟩ := h.mirrors
  cases hs : stateOf entries id with
  | some j => exact hm.settled id j hs
  | none =>
    have hjournaled := h.journaled id
    rw [hs] at hjournaled
    exact Option.not_isSome_iff_eq_none.mp fun hsome => by cases hjournaled hsome

namespace Session.Keyed

variable {d : Disk} (h : s.Keyed F G cr keyBytes) (hj : d.journal = s.disk.journal)

include h hj

/-- Files under the journal of the session are compared with those of the session. -/
theorem reconciles_iff : d.Reconciles cr ↔ ∀ id, Progress (s.disk.state cr id) (d.state cr id) := by
  obtain ⟨entries, hfaithful⟩ := h.faithful
  obtain ⟨mtime, hm⟩ := hfaithful.mirrors
  obtain ⟨bytes, hbytes, hreplay⟩ := hm.journal
  constructor
  · intro hreconciles id
    obtain ⟨entries', hreplay', hids⟩ := hreconciles bytes (hj.trans hbytes)
    obtain rfl : entries = entries' := Except.ok.inj (hreplay.symm.trans hreplay')
    rw [hfaithful.state]
    cases hs : stateOf entries id with
    | none => exact Progress.found _
    | some j => exact reconcileOne_ok_iff.mp (hids id j hs)
  · intro hprogress bytes' hbytes'
    obtain rfl : bytes = bytes' := Option.some.inj (hbytes.symm.trans (hj.symm.trans hbytes'))
    refine ⟨entries, hreplay, fun id j hs => reconcileOne_ok_iff.mpr ?_⟩
    have hid := hprogress id
    rwa [hfaithful.state, hs] at hid

theorem truth_iff {id : U64} {st : DiskState} : d.truth cr id = some st ↔
    d.state cr id = some st ∧ (st.isLive = true → (s.disk.state cr id).isSome) := by
  obtain ⟨entries, hfaithful⟩ := h.faithful
  obtain ⟨mtime, hm⟩ := hfaithful.mirrors
  obtain ⟨bytes, hbytes, hreplay⟩ := hm.journal
  rw [hfaithful.state, Option.isSome_map]
  unfold Disk.truth
  rw [hj, hbytes]
  simp only [hreplay]
  cases hs : d.state cr id with
  | none => simp
  | some st' =>
    cases hknown : stateOf entries id with
    | some j => simp
    | none =>
      cases hlive : st'.isLive with
      | true =>
        simp only [Option.isNone_none, Option.any_some, hlive, Bool.and_self, if_true, Option.isSome_none]
        refine ⟨fun h => (by cases h), ?_⟩
        rintro ⟨hst, himp⟩
        obtain rfl := Option.some.inj hst
        exact absurd (himp hlive) Bool.false_ne_true
      | false =>
        simp only [Option.any_some, hlive, Bool.and_false, Bool.false_eq_true, if_false, Option.some.injEq]
        refine ⟨?_, fun h => h.1⟩
        rintro rfl
        exact ⟨rfl, fun h => absurd (hlive.symm.trans h) Bool.false_ne_true⟩

/-- **What opens** under the journal of the session: files as it has them or further on. -/
theorem opens_iff (hkey : d.key = some keyBytes) (hread : ∀ mtime, d.Readable F G cr mtime) (hd : d.Bounded)
    (hargs : args.keyBytes = keyBytes) (hverified : args.allowUnverified = false) {live : Finset U64}
    (hlive : ∀ id, id ∈ live ↔ d.Lives cr id) :
    (∃ s', openSession F G cr args d = some s') ↔
      (∀ id, Progress (s.disk.state cr id) (d.state cr id)) ∧ args.Unspent F G live := by
  rw [← h.reconciles_iff hj]
  constructor
  · rintro ⟨s', hs'⟩
    obtain ⟨entries, hopened⟩ := openSession_opened hd (Or.inl hverified) hs'
    refine ⟨hopened.openable.reconciles, fun ids hids id hid hin => ?_⟩
    obtain ⟨dg, hdg⟩ := (hlive id).mp hin
    rcases hopened.openable.unspent with hallow | hunspent
    · rw [hverified] at hallow
      cases hallow
    · exact hunspent ids hids id hid dg hdg
  · rintro ⟨hreconciles, hunspent⟩
    refine openSession_openable hd ⟨fun bytes hbytes => ?_, hread _, hreconciles, Or.inr fun ids hids id hid dg hdg => ?_⟩
    · rw [hkey] at hbytes
      rw [hargs, Option.some.inj hbytes]
    · exact hunspent ids hids id hid ((hlive id).mpr ⟨dg, hdg⟩)

/-- The sets of a store that was opened under the journal of the session. -/
theorem opened_sets (hd : d.Bounded) (hverified : args.allowUnverified = false) {s' : Session}
    (hs' : openSession F G cr args d = some s') : (∀ id, id ∈ s'.store.live ↔ d.Lives cr id) ∧
      (∀ id, id ∈ s'.store.consumed ↔ ∃ dg, d.state cr id = some (.consumed dg)) ∧
      ∀ id, id ∈ s'.store.expired ↔ d.state cr id = some .expired := by
  obtain ⟨entries, hopened⟩ := openSession_opened hd (Or.inl hverified) hs'
  refine ⟨fun id => ?_, fun id => ?_, fun id => ?_⟩
  · rw [hopened.mirrors.live, hopened.state]
    rfl
  · rw [hopened.mirrors.consumed, hopened.state]
    refine exists_congr fun dg => ?_
    rw [h.truth_iff hj]
    exact and_iff_left fun hlive => by cases hlive
  · rw [hopened.mirrors.expired, hopened.state, h.truth_iff hj]
    exact and_iff_left fun hlive => by cases hlive

/-- Files further on than the session: what lives is what both have. -/
theorem lives_iff {id : U64} (hprogress : Progress (s.disk.state cr id) (d.state cr id)) :
    d.Lives cr id ↔ id ∈ s.store.live ∧ ∃ dg, d.state cr id = some (.live dg) := by
  obtain ⟨entries, hfaithful⟩ := h.faithful
  obtain ⟨mtime, hm⟩ := hfaithful.mirrors
  rw [hm.live]
  constructor
  · rintro ⟨dg, hdg⟩
    obtain ⟨hstate, hknown⟩ := (h.truth_iff hj).mp hdg
    obtain ⟨st, hst⟩ := Option.isSome_iff_exists.mp (hknown rfl)
    rw [hst, hstate] at hprogress
    refine ⟨⟨dg, ?_⟩, dg, hstate⟩
    rw [hst, hprogress.of_live]
  · rintro ⟨⟨dg', hdg'⟩, dg, hdg⟩
    refine ⟨dg, (h.truth_iff hj).mpr ⟨hdg, fun _ => ?_⟩⟩
    rw [hdg']
    rfl

end Session.Keyed

/-! ## Theorem -/

/-- **Rollback**, of a store from `s₂` to what it was at `s₁`.  Under the journal of `s₂` no files
at all bring a record back, and the old files are refused; the old journal under the new files
loses the new records; and the old directory opens, if the transcript does not tell. -/
theorem rollback_iff {args' : OpenArgs} {d : Disk} {calls calls' : List (StoreCall F G)} (hj : d.journal = none)
    (hd : d.Bounded) (hopen : openSession F G cr args d = some s)
    (hrun : Run (Session.call cr) (fun s _ => s.disk.Bounded) s calls s₁)
    (hrun' : Run (Session.call cr) (fun s _ => s.disk.Bounded) s₁ calls' s₂) (hb₁ : s₁.disk.Bounded) (hb₂ : s₂.disk.Bounded)
    (hkey : args'.keyBytes = args.keyBytes) (hverified : args'.allowUnverified = false) :
    (∀ d' s', d'.Bounded → d'.journal = s₂.disk.journal → openSession F G cr args' d' = some s' →
      s'.store.live ⊆ s₂.store.live ∧ s₂.store.consumed ⊆ s'.store.consumed ∧ s₂.store.expired ⊆ s'.store.expired) ∧
    ((∃ s', openSession F G cr args' (s₁.disk.withJournal s₂.disk) = some s') ↔
      s₂.disk.journal = s₁.disk.journal ∧ args'.Unspent F G s₁.store.live) ∧
    ((∃ s', openSession F G cr args' (s₂.disk.withJournal s₁.disk) = some s') ↔
      args'.Unspent F G (s₁.store.live ∩ s₂.store.live)) ∧
    (∀ s', openSession F G cr args' (s₂.disk.withJournal s₁.disk) = some s' →
      s'.store.live = s₁.store.live ∩ s₂.store.live ∧ s'.store.consumed = s₂.store.consumed ∧
        s'.store.expired = s₂.store.expired) ∧
    ((∃ s', openSession F G cr args' s₁.disk = some s') ↔ args'.Unspent F G s₁.store.live) := by
  have hstart := openSession_keyed hd hj hopen
  obtain ⟨hs₁, -⟩ := hstart.run hrun
  obtain ⟨hs₂, hadvances⟩ := hs₁.run hrun'
  obtain ⟨entries₁, mtime₁, hm₁⟩ := hs₁.faithful.imp fun _ h => h.mirrors
  obtain ⟨entries₂, mtime₂, hm₂⟩ := hs₂.faithful.imp fun _ h => h.mirrors
  have hj₁₂ : (s₁.disk.withJournal s₂.disk).journal = s₂.disk.journal := rfl
  have hj₂₁ : (s₂.disk.withJournal s₁.disk).journal = s₁.disk.journal := rfl
  have hlives₁ : ∀ id, id ∈ s₁.store.live ↔ s₁.disk.Lives cr id := fun id => hm₁.lives_iff.symm
  have hlives₁₂ : ∀ id, id ∈ s₁.store.live ↔ (s₁.disk.withJournal s₂.disk).Lives cr id := by
    intro id
    rw [hm₁.live]
    refine exists_congr fun dg => ((hs₂.truth_iff hj₁₂).trans (and_iff_left_of_imp fun hstate _ => ?_)).symm
    have hprogress := hadvances.progress id
    rw [show s₁.disk.state cr id = some (.live dg) from hstate] at hprogress
    exact hprogress.isSome
  have hlives₂₁ : ∀ id, id ∈ s₁.store.live ∩ s₂.store.live ↔ (s₂.disk.withJournal s₁.disk).Lives cr id := by
    intro id
    rw [hs₁.lives_iff hj₂₁ (hadvances.progress id), Finset.mem_inter, hm₂.live]
    rfl
  refine ⟨fun d' s' hd' hj' hs' => ?_, ?_, ?_, fun s' hs' => ?_, ?_⟩
  · obtain ⟨entries, hopened⟩ := openSession_opened hd' (Or.inl hverified) hs'
    have hprogress := (hs₂.reconciles_iff hj').mp hopened.openable.reconciles
    obtain ⟨hlive, hconsumed, hexpired⟩ := hs₂.opened_sets hj' hd' hverified hs'
    refine ⟨fun id hid => ?_, fun id hid => ?_, fun id hid => ?_⟩
    · exact ((hs₂.lives_iff hj' (hprogress id)).mp ((hlive id).mp hid)).1
    · obtain ⟨dg, hdg⟩ := (hm₂.consumed id).mp hid
      have hsame := hprogress id
      rw [hdg] at hsame
      exact (hconsumed id).mpr ⟨dg, hsame.of_dead rfl⟩
    · have hsame := hprogress id
      rw [(hm₂.expired id).mp hid] at hsame
      exact (hexpired id).mpr (hsame.of_dead rfl)
  · rw [hs₂.opens_iff hj₁₂ hs₁.key hm₁.readable ⟨hb₂.journal, hb₁.files⟩ hkey hverified hlives₁₂]
    refine and_congr_left fun _ => ⟨hadvances.eq_of_back, fun hjournal => ?_⟩
    have hreconciles : (s₁.disk.withJournal s₂.disk).Reconciles cr := by
      unfold Disk.withJournal
      rw [hjournal]
      exact hm₁.reconciles
    exact (hs₂.reconciles_iff hj₁₂).mp hreconciles
  · rw [hs₁.opens_iff hj₂₁ hs₂.key hm₂.readable ⟨hb₁.journal, hb₂.files⟩ hkey hverified hlives₂₁]
    exact and_iff_right hadvances.progress
  · obtain ⟨hlive, hconsumed, hexpired⟩ := hs₁.opened_sets hj₂₁ ⟨hb₁.journal, hb₂.files⟩ hverified hs'
    refine ⟨Finset.ext fun id => ?_, Finset.ext fun id => ?_, Finset.ext fun id => ?_⟩
    · rw [hlive, hlives₂₁]
    · rw [hconsumed, hm₂.consumed]
      rfl
    · rw [hexpired, hm₂.expired]
      rfl
  · rw [hs₁.opens_iff rfl hs₁.key hm₁.readable hb₁ hkey hverified hlives₁]
    exact and_iff_right fun id => Progress.refl _

end Rollback

section Fresh

open Secp256k1

/-- A record that was handed out: no files bring it back under the new journal, and the old ones
are refused; under the old journal the new files keep its tombstone; the old directory has it again. -/
theorem rollback_iff_consumed : ∃ s₁ s₂ : Session,
    Session.call plainCrypto freshSession (recordInsert 1) = some s₁ ∧
      Session.call (F := Scalar) (G := Point) plainCrypto s₁ (.consume 1) = some s₂ ∧ 1 ∈ s₁.store.live ∧
      (∀ d' s', d'.Bounded → d'.journal = s₂.disk.journal →
        openSession Scalar Point plainCrypto freshArgs d' = some s' → 1 ∉ s'.store.live) ∧
      (¬ ∃ s', openSession Scalar Point plainCrypto freshArgs (s₁.disk.withJournal s₂.disk) = some s') ∧
      (∃ s', openSession Scalar Point plainCrypto freshArgs (s₂.disk.withJournal s₁.disk) = some s' ∧
        1 ∈ s'.store.consumed) ∧
      ∃ s', openSession Scalar Point plainCrypto freshArgs s₁.disk = some s' := by
  have hfacts : ((Session.call plainCrypto freshSession (recordInsert 1)).bind fun s₁ =>
      (Session.call (F := Scalar) (G := Point) plainCrypto s₁ (.consume 1)).map fun s₂ => (s₁, s₂)).any (fun ss =>
        decide (ss.1.disk.Bounded ∧ ss.2.disk.Bounded ∧ ss.2.disk.journal ≠ ss.1.disk.journal ∧ 1 ∈ ss.1.store.live ∧
          1 ∉ ss.2.store.live ∧ 1 ∈ ss.2.store.consumed)) = true := by decide +kernel
  obtain ⟨⟨s₁, s₂⟩, hcalls, hs⟩ := (Option.any_eq_true _ _).mp hfacts
  obtain ⟨s, hinsert, hcalls⟩ := Option.bind_eq_some_iff.mp hcalls
  obtain ⟨s', hconsume, hpair⟩ := Option.map_eq_some_iff.mp hcalls
  obtain ⟨rfl, rfl⟩ := Prod.mk.inj hpair
  obtain ⟨hb₁, hb₂, hjournal, hlive, hgone, hconsumed⟩ := of_decide_eq_true hs
  have hunspent : ∀ live, freshArgs.Unspent Scalar Point live := fun _ ids h => by cases h
  obtain ⟨hnone, hfiles, hold, hsets, hwhole⟩ := rollback_iff rfl freshDisk_bounded freshSession_opened
    (Run.cons freshSession_bounded hinsert (Run.nil s)) (Run.cons hb₁ hconsume (Run.nil s')) hb₁ hb₂ rfl rfl
  obtain ⟨s₃, hs₃⟩ := hold.mpr (hunspent _)
  refine ⟨s, s', hinsert, hconsume, hlive, fun d' s'' hd' hj' hopen hin => ?_, fun hopens => ?_, ⟨s₃, hs₃, ?_⟩,
    hwhole.mpr (hunspent _)⟩
  · exact hgone ((hnone d' s'' hd' hj' hopen).1 hin)
  · exact hjournal (hfiles.mp hopens).1
  · rw [(hsets s₃ hs₃).2.1]
    exact hconsumed

end Fresh

end OhmEcdsa
