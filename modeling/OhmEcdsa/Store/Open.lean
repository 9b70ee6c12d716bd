import OhmEcdsa.Store.Recovery

/-!
# Opening the store (`store/persist.rs`)

`open` succeeds exactly on the directories that are `Openable`, and the store it returns
`Mirrors` the directory and the journal it leaves:

    Goes C d (openMode args) (d is Openable, and the store Mirrors the directory) (d is not)     (openMode_goes)
-/

set_option linter.unusedSectionVars false

namespace OhmEcdsa

open Codec Decoder Hoare

/-! ## Specification -/

/-- Ids whose tombstones are those of `d`. -/
structure Disk.SameTombs (d d' : Disk) : Prop where
  consumed : d'.consumed = d.consumed
  expired : d'.expired = d.expired

/-- A directory on its way through `open`. -/
structure Disk.Opening (cr : Crypto) (keyBytes : Bytes) (d s : Disk) : Prop where
  tombs : d.SameTombs s
  key : s.key = d.key ∨ d.key = none ∧ s.key = some keyBytes
  journal : s.journal = d.journal ∨ d.journal = none ∨ ∃ bytes known bytes' entries, d.journal = some bytes ∧
    journalReplay cr bytes = .ok known ∧ s.journal = some bytes' ∧ journalReplay cr bytes' = .ok entries ∧
    (∀ id j, stateOf entries id = some j → ∃ hs, reconcileOne cr id j (d.state cr id) = .ok hs) ∧
    ∀ id, (stateOf entries id).isSome ↔ (stateOf known id).isSome
  presig : ∀ id : U64, s.presig[id]? = d.presig[id]? ∨ s.presig[id]? = none ∧ ((d.tombstone cr id).isSome ∨
    ∃ bytes known, d.journal = some bytes ∧ journalReplay cr bytes = .ok known ∧ stateOf known id = none)

/-- The directory and the journal that `open` leaves, before it looks at the transcript. -/
structure Settled (cr : Crypto) (d : Disk) (entries : List JournalEntry) (out : Journal × U64Map DiskState) (d' : Disk) :
    Prop where
  reconciles : d.Reconciles cr
  journal : ∃ bytes, d'.journal = some bytes ∧ journalReplay cr bytes = .ok entries
  writer : out.1 = writerOf entries
  settled : ∀ id j, stateOf entries id = some j → d'.state cr id = some j.artifact
  accounted : ∀ id h, d'.state cr id = some (.live h) → (stateOf entries id).isSome
  map : ∀ id : U64, out.2[id]? = d'.state cr id
  truth : ∀ id, d'.state cr id = d.truth cr id
  key : d'.key = d.key
  tombs : d.SameTombs d'
  presig : ∀ id : U64, d'.presig[id]? = d.presig[id]? ∨ d'.presig[id]? = none
  kept : ∀ bytes known, d.journal = some bytes → journalReplay cr bytes = .ok known →
    (∀ id j, stateOf known id = some j → d.state cr id = some j.artifact) → entries = known
  adopted : d.journal = none → ∀ id, (d.state cr id).isSome → (stateOf entries id).isSome

section Mirrors

variable (F G : Type) [Field F] [DecidableEq F] [AddCommGroup G] [Module F G] [DecidableEq G] [K256 F G]
  [WireFormat F G] (cr : Crypto)

/-- A store in memory, and the directory it is about. -/
structure Mirrors (mtime : U64 → Nat) (d : Disk) (entries : List JournalEntry) (store : DiskPresigStore) : Prop where
  journal : ∃ bytes, d.journal = some bytes ∧ journalReplay cr bytes = .ok entries
  writer : store.journal = writerOf entries
  settled : ∀ id j, stateOf entries id = some j → d.state cr id = some j.artifact
  accounted : ∀ id h, d.state cr id = some (.live h) → (stateOf entries id).isSome
  live : ∀ id, id ∈ store.live ↔ ∃ h, d.state cr id = some (.live h)
  consumed : ∀ id, id ∈ store.consumed ↔ ∃ h, d.state cr id = some (.consumed h)
  expired : ∀ id, id ∈ store.expired ↔ d.state cr id = some .expired
  created : ∀ id, store.created[id]? = d.createdAt F G cr mtime id
  timed : ∀ id ∈ store.live, ∃ time, store.created[id]? = some time

/-- The directories that `open` accepts. -/
structure Disk.Openable (args : OpenArgs) (d : Disk) : Prop where
  key : ∀ bytes, d.key = some bytes → bytes = args.keyBytes
  readable : d.Readable F G cr args.mtime
  reconciles : d.Reconciles cr
  unspent : args.allowUnverified = true ∨ ∀ ids, signEvidenceIds F G args.transcript = some ids →
    ∀ id ∈ ids, ∀ h, d.truth cr id ≠ some (.live h)

end Mirrors

/-! ## Lemmas: states -/

theorem DiskState.artifact_adopted (s : DiskState) : s.adopted.artifact = s := by
  cases s <;> rfl

theorem DiskState.isLive_iff {s : DiskState} : s.isLive = true ↔ ∃ h, s = .live h := by
  cases s with
  | live h => exact ⟨fun _ => ⟨h, rfl⟩, fun _ => rfl⟩
  | consumed h => exact ⟨fun hl => (by cases hl), fun ⟨_, hl⟩ => (by cases hl)⟩
  | expired => exact ⟨fun hl => (by cases hl), fun ⟨_, hl⟩ => (by cases hl)⟩

namespace Disk

variable {cr : Crypto} {d d' : Disk}

theorem state_presig {id : U64} {h : Bytes} (hs : d.state cr id = some (.live h)) :
    d.tombstone cr id = none ∧ ∃ b, d.presig[id]? = some b ∧ h = payloadDigest cr b := by
  unfold state at hs
  cases htomb : d.tombstone cr id with
  | some s =>
    rw [htomb] at hs
    obtain rfl : s = .live h := Option.some.inj hs
    unfold tombstone at htomb
    cases hexp : d.expired[id]? <;> cases hcon : d.consumed[id]? <;> rw [hexp, hcon] at htomb <;> cases htomb
  | none =>
    rw [htomb] at hs
    cases hp : d.presig[id]? with
    | none =>
      rw [hp] at hs
      cases hs
    | some b =>
      rw [hp] at hs
      cases hs
      exact ⟨rfl, b, rfl, rfl⟩

theorem state_eq_live {id : U64} {b : Bytes} (htomb : d.tombstone cr id = none) (hp : d.presig[id]? = some b) :
    d.state cr id = some (.live (payloadDigest cr b)) := by
  unfold state
  rw [htomb, hp]
  rfl

theorem SameTombs.refl (d : Disk) : d.SameTombs d := ⟨rfl, rfl⟩

theorem SameTombs.trans {d'' : Disk} (h : d.SameTombs d') (h' : d'.SameTombs d'') : d.SameTombs d'' :=
  ⟨h'.consumed.trans h.consumed, h'.expired.trans h.expired⟩

theorem SameTombs.tombstone (h : d.SameTombs d') (id : U64) : d'.tombstone cr id = d.tombstone cr id := by
  unfold Disk.tombstone
  rw [h.consumed, h.expired]

theorem Cleared.sameTombs (h : d.Cleared cr d') : d.SameTombs d' := ⟨h.consumed, h.expired⟩

theorem Cleared.reconciles (h : d.Cleared cr d') : d'.Reconciles cr ↔ d.Reconciles cr := by
  unfold Reconciles
  simp only [h.journal, h.state]

theorem Cleared.truth (h : d.Cleared cr d') (id : U64) : d'.truth cr id = d.truth cr id := by
  unfold Disk.truth
  simp only [h.journal, h.state]

theorem Opening.refl (cr : Crypto) (keyBytes : Bytes) (d : Disk) : d.Opening cr keyBytes d :=
  ⟨SameTombs.refl d, Or.inl rfl, Or.inl rfl, fun _ => Or.inl rfl⟩

theorem Cleared.opening {keyBytes : Bytes} {s : Disk} (h : d.Cleared cr d') (hs : d'.Opening cr keyBytes s) :
    d.Opening cr keyBytes s := by
  refine ⟨h.sameTombs.trans hs.tombs, ?_, ?_, fun id => ?_⟩
  · have hkey := hs.key
    rwa [h.key] at hkey
  · have hjournal := hs.journal
    simp only [h.journal, h.state] at hjournal
    exact hjournal
  · have htomb := h.tombstone id
    have hfile := hs.presig id
    simp only [h.journal, htomb] at hfile
    rcases hfile with heq | ⟨hnone, hor⟩
    · rw [heq]
      rcases h.presig id with heq' | ⟨hnone, hsome⟩
      · exact Or.inl heq'
      · exact Or.inr ⟨hnone, Or.inl hsome⟩
    · exact Or.inr ⟨hnone, hor⟩

/-- The scan is a part of it. -/
theorem Cleared.scanning {keyBytes : Bytes} (h : d.Cleared cr d') : d.Opening cr keyBytes d' := h.opening (Opening.refl cr keyBytes d')

/-- What a directory shows is a digest. -/
theorem state_sized {disk : U64Map DiskState} (hdisk : ∀ id, disk[id]? = d.state cr id) : DigestSized disk := by
  intro id h hs
  rw [hdisk] at hs
  rcases hs with hs | hs
  · obtain ⟨-, b, -, rfl⟩ := state_presig hs
    exact payloadDigest_length cr b
  · unfold state Disk.tombstone at hs
    cases hexp : d.expired[id]? <;> cases hcon : d.consumed[id]? <;> cases hp : d.presig[id]? <;>
      rw [hexp, hcon, hp] at hs <;> cases hs <;> exact payloadDigest_length cr _

/-- No more ids than files. -/
theorem ids_le {disk : U64Map DiskState} (hdisk : ∀ id, disk[id]? = d.state cr id) :
    disk.toList.length ≤ d.presig.size + d.consumed.size + d.expired.size := by
  have hsub : disk.toList.map (·.1) ⊆
      d.presig.toList.map (·.1) ++ d.consumed.toList.map (·.1) ++ d.expired.toList.map (·.1) := by
    intro id hid
    obtain ⟨s, hs⟩ := mem_keys_toList.mp hid
    rw [hdisk] at hs
    simp only [List.mem_append, mem_keys_toList]
    unfold state Disk.tombstone at hs
    cases hexp : d.expired[id]? with
    | some b => exact Or.inr ⟨b, rfl⟩
    | none =>
      cases hcon : d.consumed[id]? with
      | some b => exact Or.inl (Or.inr ⟨b, rfl⟩)
      | none =>
        cases hp : d.presig[id]? with
        | some b => exact Or.inl (Or.inl ⟨b, rfl⟩)
        | none =>
          rw [hexp, hcon, hp] at hs
          cases hs
  have hle := (List.subperm_of_subset (nodup_keys_toList disk) hsub).length_le
  simp only [List.length_map, List.length_append, Std.ExtTreeMap.length_toList] at hle
  rw [Std.ExtTreeMap.length_toList]
  exact hle

end Disk

/-! ## Lemmas: the journal part of `open` -/

section Verify

variable {cr : Crypto} {d : Disk} {C : Disk → FsStep → Prop} {allowUnverified : Bool} {disk : U64Map DiskState}

/-- A directory without a journal: its states become one. -/
theorem adopted_settled (hj : d.journal = none) {journal : Journal} {d' : Disk} (hdisk : ∀ id, disk[id]? = d.state cr id)
    (h : Adopted cr { d with journal := some [] } disk disk.toList journal d') :
    ∃ entries, Settled cr d entries (journal, disk) d' := by
  obtain ⟨bytes, entries, rfl, hreplay, hwriter, -, hstates⟩ := h
  have hall : ∀ id, stateOf entries id = (d.state cr id).map DiskState.adopted := by
    intro id
    rw [hstates, ← hdisk]
    split
    · rfl
    · next hout =>
      rw [mem_keys_toList, ← Option.isSome_iff_exists] at hout
      rw [Option.not_isSome_iff_eq_none.mp hout]
      rfl
  refine ⟨entries, fun bytes h => ?_, ⟨bytes, rfl, hreplay⟩, hwriter, fun id j hs => ?_, fun id h hs => ?_, hdisk,
    fun id => ?_, rfl, ⟨rfl, rfl⟩, fun _ => Or.inl rfl, fun bytes known h => ?_, fun _ id hs => ?_⟩
  · rw [hj] at h
    cases h
  · rw [hall] at hs
    obtain ⟨s, hfound, rfl⟩ := Option.map_eq_some_iff.mp hs
    rw [s.artifact_adopted]
    exact hfound
  · rw [hall, show d.state cr id = some (.live h) from hs]
    rfl
  · unfold Disk.truth
    rw [hj]
    rfl
  · rw [hj] at h
    cases h
  · rw [hall]
    obtain ⟨s, hs⟩ := Option.isSome_iff_exists.mp hs
    rw [hs]
    rfl

/-- A journal that reconciles, healed, and the records that it does not know dropped. -/
theorem healed_settled {bytes : Bytes} {known : List JournalEntry} {heals : List HealOp} (hj : d.journal = some bytes)
    (hreplay : journalReplay cr bytes = .ok known) (hdisk : ∀ id, disk[id]? = d.state cr id)
    (hpending : Pending cr disk (journalStates known).toList heals)
    (hok : ∀ id j, stateOf known id = some j → ∃ hs, reconcileOne cr id j disk[id]? = .ok hs)
    {out : Journal × U64Map DiskState} {d₁ d' : Disk} {truth : U64Map DiskState}
    (hhealed : Healed cr d known disk heals out d₁) (hdropped : Dropped d₁ (journalStates known) disk disk.toList truth d') :
    ∃ entries, Settled cr d entries (out.1, truth) d' := by
  obtain ⟨bytes', entries, rfl, hreplay', hwriter, -, -, hsame, hstates⟩ := hhealed
  obtain ⟨presig, rfl, htruth, hpresig⟩ := hdropped
  have hin : ∀ id, unaccounted (stateOf known id) disk[id]? = true → id ∈ disk.toList.map (·.1) := by
    intro id hun
    rw [mem_keys_toList, ← Option.isSome_iff_exists]
    unfold unaccounted at hun
    cases hs : disk[id]? with
    | none =>
      rw [hs] at hun
      simp at hun
    | some s => rfl
  -- what an id is now: nothing, if its record was dropped
  have hstate : ∀ id, Disk.state cr { d with journal := some bytes', presig := presig } id =
      if unaccounted (stateOf known id) disk[id]? = true then none else d.state cr id := by
    intro id
    have htomb : Disk.tombstone cr { d with journal := some bytes', presig := presig } id = d.tombstone cr id := rfl
    have hfile := hpresig id
    rw [journalStates_getElem?] at hfile
    show (Disk.tombstone cr { d with journal := some bytes', presig := presig } id).or ((presig[id]?).map _) = _
    rw [htomb, hfile]
    by_cases hun : unaccounted (stateOf known id) disk[id]? = true
    · rw [if_pos hun, if_pos ⟨hin id hun, hun⟩]
      have hlive := hun
      unfold unaccounted at hlive
      rw [hdisk, Bool.and_eq_true, Option.any_eq_true] at hlive
      obtain ⟨s, hs, hl⟩ := hlive.2
      obtain ⟨h, rfl⟩ := DiskState.isLive_iff.mp hl
      rw [(Disk.state_presig hs).1]
      rfl
    · rw [if_neg hun, if_neg fun h => hun h.2]
      rfl
  have hknown : ∀ id j, stateOf entries id = some j → ∃ j', stateOf known id = some j' := by
    intro id j hs
    rw [hstates] at hs
    split at hs
    · next hmem =>
      obtain ⟨heal, hheal, rfl⟩ := List.mem_map.mp hmem
      obtain ⟨⟨digest, hlive⟩, -⟩ := hpending.completes heal hheal
      exact ⟨_, mem_journalStates.mp hlive⟩
    · exact ⟨j, hs⟩
  have hnotun : ∀ id j, stateOf known id = some j → ¬ unaccounted (stateOf known id) disk[id]? = true := by
    intro id j hs hun
    rw [hs] at hun
    cases hun
  refine ⟨entries, fun b hb => ?_, ⟨bytes', rfl, hreplay'⟩, hwriter, fun id j hs => ?_, fun id h hs => ?_, fun id => ?_,
    fun id => ?_, rfl, ⟨rfl, rfl⟩, fun id => ?_, fun b known' hb hk hall => ?_, fun hnone => ?_⟩
  · obtain rfl : bytes = b := Option.some.inj (hj.symm.trans hb)
    refine ⟨known, hreplay, fun id j hs => ?_⟩
    rw [← hdisk]
    exact hok id j hs
  · obtain ⟨j', hj'⟩ := hknown id j hs
    rw [hstate, if_neg (hnotun id j' hj'), ← hdisk]
    rw [hstates] at hs
    split at hs
    · obtain ⟨s, hfound, rfl⟩ := Option.map_eq_some_iff.mp hs
      rw [s.artifact_adopted]
      exact hfound
    · next hout => exact hpending.rest (id, j) (mem_journalStates.mpr hs) hout
  · rw [hstate] at hs
    split at hs
    · cases hs
    · next hun =>
      unfold unaccounted at hun
      rw [hdisk, hs, Bool.and_eq_true, not_and] at hun
      have hsome : (stateOf known id).isSome := by
        by_contra hnone
        exact hun (by rw [Option.not_isSome_iff_eq_none.mp hnone]; rfl) rfl
      obtain ⟨j, hj⟩ := Option.isSome_iff_exists.mp hsome
      rw [hstates]
      split
      · rw [hdisk, hs]
        rfl
      · rw [hj]
        rfl
  · have hmap := htruth id
    rw [journalStates_getElem?] at hmap
    rw [hstate, hmap, ← hdisk]
    by_cases hun : unaccounted (stateOf known id) disk[id]? = true
    · rw [if_pos hun, if_pos ⟨hin id hun, hun⟩]
    · rw [if_neg hun, if_neg fun h => hun h.2]
  · rw [hstate]
    unfold Disk.truth
    rw [hj]
    simp only [hreplay]
    rw [hdisk]
    rfl
  · show presig[id]? = _ ∨ presig[id]? = _
    rw [hpresig]
    split
    · exact Or.inr rfl
    · exact Or.inl rfl
  · obtain rfl : bytes = b := Option.some.inj (hj.symm.trans hb)
    obtain rfl : known = known' := Except.ok.inj (hreplay.symm.trans hk)
    refine hsame (hpending.nil fun id j hs => ?_)
    rw [hdisk]
    exact hall id j hs
  · rw [hj] at hnone
    cases hnone

/-- Adoption is a part of it. -/
theorem Journaling.opening {keyBytes : Bytes} {s : Disk} (hj : d.journal = none)
    (hs : Disk.Journaling { d with journal := some [] } s) : d.Opening cr keyBytes s := by
  obtain ⟨bytes, rfl⟩ := hs
  exact ⟨⟨rfl, rfl⟩, Or.inl rfl, Or.inr (Or.inl hj), fun _ => Or.inl rfl⟩

theorem Recovering.opening {keyBytes bytes : Bytes} {known : List JournalEntry} {s : Disk} (hj : d.journal = some bytes)
    (hreplay : journalReplay cr bytes = .ok known) (hs : Recovering cr d known s) : d.Opening cr keyBytes s := by
  obtain ⟨bytes', entries, rfl, hreplay', hok, hids⟩ := hs
  exact ⟨⟨rfl, rfl⟩, Or.inl rfl, Or.inr (Or.inr ⟨bytes, known, bytes', entries, hj, hreplay, rfl, hreplay', hok, hids⟩),
    fun _ => Or.inl rfl⟩

theorem Dropping.opening {keyBytes bytes : Bytes} {known : List JournalEntry} {d₁ s : Disk} (hj : d.journal = some bytes)
    (hreplay : journalReplay cr bytes = .ok known) (hd₁ : Recovering cr d known d₁)
    (hs : Dropping d₁ (journalStates known) disk s) : d.Opening cr keyBytes s := by
  obtain ⟨presig, rfl, hpresig⟩ := hs
  obtain ⟨bytes', entries, rfl, hreplay', hok, hids⟩ := hd₁
  refine ⟨⟨rfl, rfl⟩, Or.inl rfl, Or.inr (Or.inr ⟨bytes, known, bytes', entries, hj, hreplay, rfl, hreplay', hok, hids⟩),
    fun id => ?_⟩
  rcases hpresig id with heq | ⟨hnone, hun⟩
  · exact Or.inl heq
  · rw [journalStates_getElem?] at hun
    unfold unaccounted at hun
    rw [Bool.and_eq_true, Option.isNone_iff_eq_none] at hun
    exact Or.inr ⟨hnone, Or.inr ⟨bytes, known, hj, hreplay, hun.1⟩⟩

theorem verifyJournal_goes {keyBytes : Bytes} (hdisk : ∀ id, disk[id]? = d.state cr id) (hfew : disk.toList.length < 2 ^ 63)
    (hsmall : ∀ bytes, d.journal = some bytes → bytes.length < 2 ^ 63)
    (hflag : allowUnverified = false ∨ d.Reconciles cr) (hC : ∀ s t, FsStep.Within (d.Opening cr keyBytes) s t → C s t) :
    Goes C d (verifyJournal cr allowUnverified disk) (fun out d' => (∃ entries, Settled cr d entries out d') ∧
        d.Opening cr keyBytes d') (fun _ d' => ¬ d.Reconciles cr ∧ d.Opening cr keyBytes d') := by
  have hsized := Disk.state_sized hdisk
  unfold verifyJournal
  refine Goes.bind (P := fun now d' => now = d ∧ d' = d) (Goes.read ⟨rfl, rfl⟩) ?_
  rintro now d' ⟨hnow, hd'⟩
  rw [hnow, hd']
  have hcreated : d.Opening cr keyBytes { d with journal := some (d.journal.getD []) } := by
    refine ⟨⟨rfl, rfl⟩, Or.inl rfl, ?_, fun _ => Or.inl rfl⟩
    cases hj : d.journal with
    | none => exact Or.inr (Or.inl rfl)
    | some bytes => exact Or.inl rfl
  refine (Goes.step (P := fun _ d' => d' = { d with journal := some (d.journal.getD []) }) rfl
    (hC d _ ⟨⟨Disk.Opening.refl cr keyBytes d, _, rfl, hcreated⟩, fun _ h => (by cases h)⟩) rfl).bind fun _ d₁ hd₁ => ?_
  subst hd₁
  cases hj : d.journal with
  | none =>
    have hadopt : Goes C { d with journal := some [] } (adopt cr (writerOf []) disk)
        (Adopted cr { d with journal := some [] } disk disk.toList)
        (fun _ d' => ¬ d.Reconciles cr ∧ d.Opening cr keyBytes d') :=
      adopt_goes hdisk hsized (by omega) rfl fun s t h => hC s t (h.mono fun _ hs => Journaling.opening hj hs)
    refine hadopt.bind fun journal d' h => Goes.pure ⟨adopted_settled hj hdisk h, ?_⟩
    obtain ⟨bytes, entries, hd', -⟩ := h
    exact Journaling.opening hj ⟨bytes, hd'⟩
  | some bytes =>
    have hback : { d with journal := some ((some bytes).getD []) } = d := by
      rw [Option.getD_some, ← hj]
    rw [hback]
    simp only
    cases hreplay : journalReplay cr bytes with
    | error chainBreak =>
      have hnot : ¬ d.Reconciles cr := by
        intro h
        obtain ⟨entries, hok, -⟩ := h bytes hj
        rw [hreplay] at hok
        cases hok
      have hverified : allowUnverified = false := hflag.resolve_right hnot
      rw [hverified]
      exact Goes.throw ⟨hnot, Disk.Opening.refl cr keyBytes d⟩
    | ok known =>
      simp only
      rcases reconcileJournal_cases cr known disk with ⟨heals, hheals, hpending, hok⟩ | ⟨msg, id, j, herr, hstate, hbad⟩
      · rw [hheals]
        have hlen := journalReplay_length hreplay
        have hfits := hsmall bytes hj
        have hcount := hpending.length_le
        have hheal : Goes C d (heal cr heals (writerOf known) disk) (Healed cr d known disk heals)
            (fun _ d' => ¬ d.Reconciles cr ∧ d.Opening cr keyBytes d') :=
          heal_goes hj hreplay (by omega) hdisk hsized hpending hok fun s t h =>
          hC s t (h.mono fun _ hs => Recovering.opening hj hreplay hs)
        refine hheal.bind fun out d₁ hhealed => ?_
        have hrecovering := hhealed.recovering (List.Subset.refl heals) hdisk hpending hok
        have hstate : ∀ id, disk[id]? = d₁.state cr id := by
          obtain ⟨bytes', entries', rfl, -⟩ := hhealed
          exact hdisk
        have hsame : ∀ id : U64, out.2[id]? = disk[id]? := by
          obtain ⟨-, -, -, -, -, htruth, -⟩ := hhealed
          exact htruth
        have hdrop : Goes C d₁ (dropUnaccounted (journalStates known) disk out.2)
            (Dropped d₁ (journalStates known) disk disk.toList) (fun _ d' => ¬ d.Reconciles cr ∧ d.Opening cr keyBytes d') :=
          drop_goes hstate hsame fun s t h =>
          hC s t (h.mono fun _ hs => Dropping.opening hj hreplay hrecovering hs)
        refine hdrop.bind fun truth d' hdropped => Goes.pure ⟨?_, Dropping.opening hj hreplay hrecovering hdropped.dropping⟩
        exact healed_settled hj hreplay hdisk hpending hok hhealed hdropped
      · rw [herr]
        have hnot : ¬ d.Reconciles cr := by
          intro h
          obtain ⟨entries, hok, hall⟩ := h bytes hj
          obtain rfl : known = entries := Except.ok.inj (hreplay.symm.trans hok)
          obtain ⟨hs, hrun⟩ := hall id j hstate
          rw [← hdisk] at hrun
          exact hbad hs hrun
        have hverified : allowUnverified = false := hflag.resolve_right hnot
        rw [hverified]
        exact Goes.throw ⟨hnot, Disk.Opening.refl cr keyBytes d⟩

end Verify

/-! ## Lemmas: the store that `open` returns -/

theorem mem_idsWhere {truth : U64Map DiskState} {p : DiskState → Bool} {id : U64} :
    id ∈ idsWhere truth p ↔ ∃ s, truth[id]? = some s ∧ p s = true := by
  unfold idsWhere
  simp only [List.mem_toFinset, List.mem_map, List.mem_filter]
  constructor
  · rintro ⟨e, ⟨he, hp⟩, rfl⟩
    exact ⟨e.2, Std.ExtTreeMap.mem_toList_iff_getElem?_eq_some.mp he, hp⟩
  · rintro ⟨s, hs, hp⟩
    exact ⟨(id, s), ⟨Std.ExtTreeMap.mem_toList_iff_getElem?_eq_some.mpr hs, hp⟩, rfl⟩

section Open

variable {F G : Type} [Field F] [DecidableEq F] [AddCommGroup G] [Module F G] [DecidableEq G] [K256 F G]
  [WireFormat F G] {cr : Crypto} {args : OpenArgs} {d : Disk} {C : Disk → FsStep → Prop}

/-- **The cross-check** refuses exactly a spent id that is live. -/
theorem crossCheck_ok_iff {truth : U64Map DiskState} : crossCheck F G args truth = .ok () ↔
    args.allowUnverified = true ∨ ∀ ids, signEvidenceIds F G args.transcript = some ids →
      ∀ id ∈ ids, ∀ h, truth[id]? ≠ some (DiskState.live h) := by
  unfold crossCheck
  cases hids : signEvidenceIds F G args.transcript with
  | none => exact ⟨fun _ => Or.inr fun ids h => (by cases h), fun _ => rfl⟩
  | some ids =>
    have hlive : ∀ id : U64, (truth[id]?).any DiskState.isLive = true ↔ ∃ h, truth[id]? = some (.live h) := by
      intro id
      rw [Option.any_eq_true]
      constructor
      · rintro ⟨s, hs, hl⟩
        obtain ⟨h, rfl⟩ := DiskState.isLive_iff.mp hl
        exact ⟨h, hs⟩
      · rintro ⟨h, hs⟩
        exact ⟨_, hs, rfl⟩
    simp only
    cases hmin : (ids.filter fun id => (truth[id]?).any DiskState.isLive).min? with
    | none =>
      have hnone := List.filter_eq_nil_iff.mp (List.min?_eq_none_iff.mp hmin)
      refine ⟨fun _ => Or.inr ?_, fun _ => rfl⟩
      rintro ids' h id hid digest hd
      obtain rfl : ids = ids' := Option.some.inj h
      exact hnone id hid ((hlive id).mpr ⟨digest, hd⟩)
    | some id =>
      have hmem := List.mem_filter.mp (List.min?_mem hmin)
      obtain ⟨digest, hd⟩ := (hlive id).mp hmem.2
      by_cases hallow : args.allowUnverified = true
      · rw [hallow]
        exact ⟨fun _ => Or.inl rfl, fun _ => rfl⟩
      · rw [Bool.not_eq_true] at hallow
        simp only [hallow]
        refine ⟨fun h => (by cases h), fun h => ?_⟩
        rcases h with h | h
        · cases h
        · exact absurd hd (h ids rfl id hmem.1 digest)

/-- What a successful `open` leaves. -/
structure Opened (F G : Type) [Field F] [DecidableEq F] [AddCommGroup G] [Module F G] [DecidableEq G] [K256 F G]
    [WireFormat F G] (cr : Crypto) (args : OpenArgs) (d : Disk) (entries : List JournalEntry) (store : DiskPresigStore)
    (d' : Disk) : Prop where
  openable : d.Openable F G cr args
  mirrors : Mirrors F G cr args.mtime d' entries store
  key : d'.key = some args.keyBytes
  tombs : d.SameTombs d'
  state : ∀ id, d'.state cr id = d.truth cr id
  presig : ∀ id h, d'.state cr id = some (.live h) → d'.presig[id]? = d.presig[id]?
  kept : ∀ bytes known, d.journal = some bytes → journalReplay cr bytes = .ok known →
    (∀ id j, stateOf known id = some j → d.state cr id = some j.artifact) → entries = known
  adopted : d.journal = none → ∀ id, (d.state cr id).isSome → (stateOf entries id).isSome

/-- The store built from the final truth. -/
theorem Settled.mirrors {entries : List JournalEntry} {out : Journal × U64Map DiskState} {d₁ d₂ d' : Disk}
    {created : U64Map Nat} {mtime : U64 → Nat} (h : Settled cr d₂ entries out d') (hd₂ : d₁.Cleared cr d₂)
    (hread : d₁.Readable F G cr mtime) (hcreated : ∀ id, created[id]? = d₁.createdAt F G cr mtime id) :
    Mirrors F G cr mtime d' entries {
      live := idsWhere out.2 DiskState.isLive
      consumed := idsWhere out.2 fun s => s matches .consumed _
      expired := idsWhere out.2 fun s => s matches .expired
      created := created.filter fun id _ => id ∈ idsWhere out.2 DiskState.isLive
      journal := out.1 } := by
  have hlive : ∀ id, id ∈ idsWhere out.2 DiskState.isLive ↔ ∃ h, d'.state cr id = some (.live h) := by
    intro id
    rw [mem_idsWhere]
    constructor
    · rintro ⟨s, hs, hl⟩
      obtain ⟨digest, rfl⟩ := DiskState.isLive_iff.mp hl
      exact ⟨digest, (h.map id).symm.trans hs⟩
    · rintro ⟨digest, hs⟩
      exact ⟨_, (h.map id).trans hs, rfl⟩
  have htomb : ∀ id, d'.tombstone cr id = d₁.tombstone cr id := fun id =>
    (h.tombs.tombstone id).trans (hd₂.tombstone id)
  have hfile : ∀ id b, d'.tombstone cr id = none → d'.presig[id]? = some b → d₁.presig[id]? = some b := by
    intro id b hnone hb
    rw [← hd₂.presig_eq (by rw [← htomb]; exact hnone)]
    rcases h.presig id with heq | heq
    · rw [← heq]
      exact hb
    · rw [heq] at hb
      cases hb
  have htime : ∀ id, (created.filter fun id _ => id ∈ idsWhere out.2 DiskState.isLive)[id]? =
      d'.createdAt F G cr mtime id := by
    intro id
    rw [Std.ExtTreeMap.getElem?_filter']
    by_cases hid : ∃ digest, d'.state cr id = some (.live digest)
    · have hkeep : decide (id ∈ idsWhere out.2 DiskState.isLive) = true := decide_eq_true ((hlive id).mpr hid)
      obtain ⟨digest, hs⟩ := hid
      obtain ⟨hnone, b, hb, -⟩ := Disk.state_presig hs
      have heq : d'.createdAt F G cr mtime id = d₁.createdAt F G cr mtime id := by
        unfold Disk.createdAt
        rw [htomb, hb, hfile id b hnone hb]
      rw [heq, ← hcreated]
      cases hc : created[id]? with
      | none => rfl
      | some time => simp [hkeep]
    · have hdrop : decide (id ∈ idsWhere out.2 DiskState.isLive) = false := decide_eq_false fun h => hid ((hlive id).mp h)
      have hnone : d'.createdAt F G cr mtime id = none := by
        unfold Disk.createdAt
        cases hts : d'.tombstone cr id with
        | some s => rfl
        | none =>
          cases hp : d'.presig[id]? with
          | none => rfl
          | some b => exact absurd ⟨_, Disk.state_eq_live hts hp⟩ hid
      rw [hnone]
      cases hc : created[id]? with
      | none => rfl
      | some time => simp [hdrop]
  refine ⟨h.journal, h.writer, h.settled, h.accounted, hlive, fun id => ?_, fun id => ?_, htime, fun id hid => ?_⟩
  · rw [mem_idsWhere]
    constructor
    · rintro ⟨s, hs, hc⟩
      cases s with
      | consumed digest => exact ⟨digest, (h.map id).symm.trans hs⟩
      | live digest => cases hc
      | expired => cases hc
    · rintro ⟨digest, hs⟩
      exact ⟨_, (h.map id).trans hs, rfl⟩
  · rw [mem_idsWhere]
    constructor
    · rintro ⟨s, hs, hc⟩
      cases s with
      | expired => exact (h.map id).symm.trans hs
      | live digest => cases hc
      | consumed digest => cases hc
    · intro hs
      exact ⟨_, (h.map id).trans hs, rfl⟩
  · obtain ⟨digest, hs⟩ := (hlive id).mp hid
    obtain ⟨hnone, b, hb, -⟩ := Disk.state_presig hs
    obtain ⟨time, ht⟩ := hread id b (by rw [← htomb]; exact hnone) (hfile id b hnone hb)
    refine ⟨time, (htime id).trans ?_⟩
    unfold Disk.createdAt
    rw [hnone, hb]
    simp only [Option.bind_some, ht]
    rfl

variable (F G) in
/-- `open`, past the key file. -/
def openFiles (cr : Crypto) (args : OpenArgs) : FsM DiskPresigStore := do
  let (disk, created) ← scan F G cr args.mtime
  let (journal, truth) ← verifyJournal cr args.allowUnverified disk
  Hoare.lift (crossCheck F G args truth)
  let live := idsWhere truth DiskState.isLive
  return {
    live := live
    consumed := idsWhere truth fun s => s matches .consumed _
    expired := idsWhere truth fun s => s matches .expired
    created := created.filter fun id _ => id ∈ live
    journal := journal }

theorem openFiles_goes (hd : d.Bounded) (hflag : args.allowUnverified = false ∨ d.Reconciles cr)
    (hkey : d.key = some args.keyBytes) (hC : ∀ s t, FsStep.Within (d.Opening cr args.keyBytes) s t → C s t) :
    Goes C d (openFiles F G cr args) (fun store d' => ∃ entries, Opened F G cr args d entries store d')
      (fun _ d' => ¬ d.Openable F G cr args ∧ d.Opening cr args.keyBytes d') := by
  unfold openFiles
  have hscan : Goes C d (scan F G cr args.mtime) _
      (fun _ d' => ¬ d.Readable F G cr args.mtime ∧ d.Cleared cr d') :=
    scan_goes fun s t h => hC s t (h.mono fun _ h => h.scanning)
  refine Goes.bind (hscan.conseq (fun _ _ h => h) (fun _ _ h => h)
    fun _ _ h => ⟨fun ho => h.1 ho.readable, h.2.scanning⟩) ?_
  rintro ⟨disk, created⟩ d₁ ⟨hcleared, hread, hdisk, hcreated⟩
  have hverify : Goes C d₁ (verifyJournal cr args.allowUnverified disk) _
      (fun _ d' => ¬ d₁.Reconciles cr ∧ d₁.Opening cr args.keyBytes d') := verifyJournal_goes (fun id => (hdisk id).trans (hcleared.state id).symm) (lt_of_le_of_lt (Disk.ids_le hdisk) hd.files)
    (fun bytes h => hd.journal bytes (hcleared.journal.symm.trans h)) (by rw [hcleared.reconciles]; exact hflag)
    fun s t h => hC s t (h.mono fun _ h => hcleared.opening h)
  refine Goes.bind (hverify.conseq (fun _ _ h => h) (fun _ _ h => h)
    fun _ _ h => ⟨fun ho => h.1 (hcleared.reconciles.mpr ho.reconciles), hcleared.opening h.2⟩) ?_
  rintro ⟨journal, truth⟩ d' ⟨⟨entries, hsettled⟩, hopening⟩
  have htruth : ∀ id : U64, truth[id]? = d.truth cr id := fun id =>
    (hsettled.map id).trans ((hsettled.truth id).trans (hcleared.truth id))
  refine Goes.bind (P := fun _ d'' => d'' = d' ∧ crossCheck F G args truth = .ok ())
    (Goes.lift (fun _ h => ⟨rfl, h⟩) fun e herr => ⟨fun ho => ?_, hcleared.opening hopening⟩) ?_
  · have hok : crossCheck F G args truth = .ok () ↔ _ := crossCheck_ok_iff
    simp only [htruth] at hok
    rw [hok.mpr ho.unspent] at herr
    cases herr
  · rintro _ d'' ⟨rfl, hcheck⟩
    have hunspent := crossCheck_ok_iff.mp hcheck
    simp only [htruth] at hunspent
    have hopenable : d.Openable F G cr args := by
      refine ⟨fun bytes h => ?_, hread, hcleared.reconciles.mp hsettled.reconciles, hunspent⟩
      rw [hkey] at h
      exact (Option.some.inj h).symm
    refine Goes.pure ⟨entries, hopenable, hsettled.mirrors hcleared hread hcreated, ?_,
      hcleared.sameTombs.trans hsettled.tombs, fun id => ?_, fun id h hs => ?_, fun bytes known hj hk hall => ?_,
      fun hj id hs => ?_⟩
    · rw [hsettled.key, hcleared.key, hkey]
    · rw [hsettled.truth, hcleared.truth]
    · obtain ⟨hnone, b, hb, -⟩ := Disk.state_presig hs
      have htomb : d.tombstone cr id = none := by
        rw [← hcleared.tombstone, ← hsettled.tombs.tombstone]
        exact hnone
      rw [← hcleared.presig_eq htomb]
      rcases hsettled.presig id with heq | heq
      · exact heq
      · rw [heq] at hb
        cases hb
    · refine hsettled.kept bytes known (hcleared.journal.trans hj) hk fun id j hs => ?_
      rw [hcleared.state]
      exact hall id j hs
    · refine hsettled.adopted (hcleared.journal.trans hj) id ?_
      rw [hcleared.state]
      exact hs

/-- A directory is openable whatever its key file's temporary copy. -/
theorem Disk.Openable.withKey {bytes : Bytes} {keyTmp : Option Bytes} (h : d.Openable F G cr args)
    (hb : bytes = args.keyBytes) : Disk.Openable F G cr args { d with key := some bytes, keyTmp := keyTmp } :=
  ⟨fun _ h => (Option.some.inj h).symm.trans hb, h.readable, h.reconciles, h.unspent⟩

theorem Opened.ofKey {entries : List JournalEntry} {store : DiskPresigStore} {keyTmp : Option Bytes} {d' : Disk}
    (h : Opened F G cr args { d with key := some args.keyBytes, keyTmp := keyTmp } entries store d')
    (hkey : ∀ bytes, d.key = some bytes → bytes = args.keyBytes) : Opened F G cr args d entries store d' :=
  ⟨⟨hkey, h.openable.readable, h.openable.reconciles, h.openable.unspent⟩, h.mirrors, h.key,
    ⟨h.tombs.consumed, h.tombs.expired⟩, h.state, h.presig, h.kept, h.adopted⟩

theorem Disk.Opening.ofKey {keyBytes : Bytes} {keyTmp : Option Bytes} {s : Disk}
    (h : Disk.Opening cr keyBytes { d with key := some keyBytes, keyTmp := keyTmp } s)
    (hkey : ∀ bytes, d.key = some bytes → bytes = keyBytes) : d.Opening cr keyBytes s := by
  refine ⟨⟨h.tombs.consumed, h.tombs.expired⟩, ?_, h.journal, h.presig⟩
  have hs : s.key = some keyBytes := h.key.elim id fun h => (by cases h.1)
  cases hd : d.key with
  | none => exact Or.inr ⟨rfl, hs⟩
  | some bytes =>
    rw [hs, hkey bytes hd]
    exact Or.inl rfl

/-- **Opening** succeeds exactly on an openable directory, and the store mirrors it. -/
theorem openMode_goes (hd : d.Bounded) (hflag : args.allowUnverified = false ∨ d.Reconciles cr)
    (hC : ∀ s t, FsStep.Within (d.Opening cr args.keyBytes) s t → C s t) :
    Goes C d (openMode F G cr args) (fun store d' => ∃ entries, Opened F G cr args d entries store d')
      (fun _ d' => ¬ d.Openable F G cr args ∧ d.Opening cr args.keyBytes d') := by
  have hrest : ∀ keyTmp, (∀ bytes, d.key = some bytes → bytes = args.keyBytes) →
      Goes C { d with key := some args.keyBytes, keyTmp := keyTmp } (openFiles F G cr args)
        (fun store d' => ∃ entries, Opened F G cr args d entries store d')
        (fun _ d' => ¬ d.Openable F G cr args ∧ d.Opening cr args.keyBytes d') := by
    intro keyTmp hkey
    have hopening : ∀ s, Disk.Opening cr args.keyBytes { d with key := some args.keyBytes, keyTmp := keyTmp } s →
        d.Opening cr args.keyBytes s := fun s hs => hs.ofKey hkey
    have hfiles : Goes C { d with key := some args.keyBytes, keyTmp := keyTmp } (openFiles F G cr args) _
        (fun _ d' => ¬ Disk.Openable F G cr args { d with key := some args.keyBytes, keyTmp := keyTmp } ∧
          Disk.Opening cr args.keyBytes { d with key := some args.keyBytes, keyTmp := keyTmp } d') :=
      openFiles_goes ⟨hd.journal, hd.files⟩ hflag rfl fun s t h => hC s t (h.mono hopening)
    refine hfiles.conseq (fun _ _ h => h) ?_ fun _ _ h => ⟨fun ho => h.1 (ho.withKey rfl), hopening _ h.2⟩
    rintro store d' ⟨entries, h⟩
    exact ⟨entries, h.ofKey hkey⟩
  unfold openMode
  refine Goes.bind (P := fun now d' => now = d ∧ d' = d) (Goes.read ⟨rfl, rfl⟩) ?_
  rintro now d' ⟨hnow, hd'⟩
  rw [hnow, hd']
  cases hkey : d.key with
  | some bytes =>
    simp only
    by_cases hb : bytes = args.keyBytes
    · rw [if_neg (not_not.mpr hb)]
      have hsame : { d with key := some args.keyBytes, keyTmp := d.keyTmp } = d := by
        rw [← hb, ← hkey]
      have hgo := hrest d.keyTmp fun b h => (Option.some.inj (hkey.symm.trans h)).symm.trans hb
      rw [hsame] at hgo
      exact hgo
    · rw [if_pos hb]
      exact (Goes.throw (P := fun _ _ => False)
        ⟨fun h => hb (h.key bytes hkey), Disk.Opening.refl cr args.keyBytes d⟩).bind fun _ _ h => h.elim
  | none =>
    simp only
    have hwritten : d.Opening cr args.keyBytes { d with keyTmp := some args.keyBytes } :=
      ⟨⟨rfl, rfl⟩, Or.inl rfl, Or.inl rfl, fun _ => Or.inl rfl⟩
    have hbound : d.Opening cr args.keyBytes { d with key := some args.keyBytes, keyTmp := none } :=
      ⟨⟨rfl, rfl⟩, Or.inr ⟨hkey, rfl⟩, Or.inl rfl, fun _ => Or.inl rfl⟩
    refine (Goes.step (P := fun _ d' => d' = { d with keyTmp := some args.keyBytes }) rfl
      (hC d _ ⟨⟨Disk.Opening.refl cr args.keyBytes d, _, rfl, hwritten⟩, fun _ h => (by cases h)⟩) rfl).bind fun _ d₁ hd₁ => ?_
    subst hd₁
    refine (Goes.step (P := fun _ d' => d' = { d with key := some args.keyBytes, keyTmp := none }) rfl
      (hC { d with keyTmp := some args.keyBytes } _ ⟨⟨hwritten, _, rfl, hbound⟩, fun _ h => (by cases h)⟩) rfl).bind
      fun _ d₂ hd₂ => ?_
    subst hd₂
    refine hrest none fun b h => ?_
    rw [hkey] at h
    cases h

end Open

end OhmEcdsa
