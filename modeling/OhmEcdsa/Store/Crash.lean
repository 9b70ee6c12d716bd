import OhmEcdsa.Store.Host

/-!
# Crashes and reopening (`store/persist.rs`)

A process that is killed leaves a directory between two steps of a call, or with a part of
its last write.  The next `open` repairs it, with one exception: a journal whose last entry
is torn is refused for good.

    the directory opens ↔ no append was torn     (reopens_iff)

If it opens, every record is there whose insert returned, unless a consume or an expiry of
its id had begun.
-/

set_option linter.unusedSectionVars false

namespace OhmEcdsa

open Codec Decoder Hoare Transition

section Crash

variable {F G : Type} [Field F] [DecidableEq F] [AddCommGroup G] [Module F G] [DecidableEq G] [K256 F G]
  [WireFormat F G]

/-! ## Specification -/

variable (F G) in
/-- A directory that opens, whatever has not been finished in it. -/
structure Disk.Sane (cr : Crypto) (keyBytes : Bytes) (d : Disk) : Prop where
  key : d.key = some keyBytes
  journal : ∃ bytes, d.journal = some bytes
  readable : ∀ mtime, d.Readable F G cr mtime
  reconciles : d.Reconciles cr

/-- A record that `open` keeps. -/
def Disk.Lives (cr : Crypto) (d : Disk) (id : U64) : Prop := ∃ h, d.truth cr id = some (.live h)

/-- A journal that does not replay. -/
def Disk.Broken (cr : Crypto) (d : Disk) : Prop :=
  ∃ bytes, d.journal = some bytes ∧ ∀ entries, journalReplay cr bytes ≠ .ok entries

/-- The records that must be there: their inserts returned, and no end of theirs had begun. -/
def Kept (first : Finset U64) (log : List (Note F G)) (id : U64) : Prop :=
  (id ∈ first ∨ .inserted id ∈ log) ∧ .ending id ∉ log

/-- A directory that opens with every one of them. -/
structure Keeping (cr : Crypto) (keyBytes : Bytes) (first : Finset U64) (log : List (Note F G)) (d : Disk) : Prop where
  sane : d.Sane F G cr keyBytes
  lives : ∀ id, Kept first log id → d.Lives cr id

/-- Notes that tell of no insert do not matter. -/
theorem Keeping.logged {cr : Crypto} {keyBytes : Bytes} {first : Finset U64} {log notes : List (Note F G)} {d : Disk}
    (h : Keeping cr keyBytes first log d) (hnotes : ∀ id, .inserted id ∉ notes) : Keeping cr keyBytes first (log ++ notes) d := by
  refine ⟨h.sane, fun id hid => h.lives id ⟨hid.1.imp_right fun hin => ?_, fun hin => hid.2 (List.mem_append_left _ hin)⟩⟩
  exact (List.mem_append.mp hin).resolve_right (hnotes id)

/-- A call that checks the store, under one key. -/
def StoreCall.Verified (keyBytes : Bytes) : StoreCall F G → Prop
  | .reopen args => args.keyBytes = keyBytes ∧ args.allowUnverified = false
  | _ => True

/-- Verified calls and kills; no step fails without the process dying. -/
def HostEvent.Orderly (keyBytes : Bytes) : HostEvent F G → Prop
  | .run c => c.Verified keyBytes
  | .kill c _ _ => c.Verified keyBytes
  | .fail _ _ _ => False
  | .stop => True

/-! ## Lemmas: worlds -/

variable {cr : Crypto} {keyBytes : Bytes} {first : Finset U64} {log : List (Note F G)} {d s : Disk} {mtime : U64 → Nat}
  {entries : List JournalEntry} {store : DiskPresigStore}

theorem recordTime_isOk {mtime' : U64 → Nat} {id : U64} {b : Bytes} (h : ∃ time, recordTime F G cr mtime id b = .ok time) :
    ∃ time, recordTime F G cr mtime' id b = .ok time := by
  obtain ⟨time, h⟩ := h
  unfold recordTime at h ⊢
  split at h
  · cases h
  · next hsealed =>
    rw [if_neg hsealed]
    cases hopen : openSealed cr (recordPurpose id) b with
    | error e =>
      rw [hopen] at h
      cases h
    | ok plain =>
      rw [hopen] at h
      simp only at h ⊢
      cases htake : takeRecord F G plain with
      | none =>
        rw [htake] at h
        cases h
      | some record => exact ⟨_, rfl⟩

namespace Mirrors

variable (h : Mirrors F G cr mtime d entries store)

include h

theorem readable (mtime' : U64 → Nat) : d.Readable F G cr mtime' := by
  intro id b htomb hb
  obtain ⟨time, ht⟩ := h.timed id ((h.live id).mpr ⟨_, Disk.state_eq_live htomb hb⟩)
  rw [h.created] at ht
  unfold Disk.createdAt at ht
  rw [htomb, hb] at ht
  cases hr : recordTime F G cr mtime id b with
  | error e =>
    simp only [Option.bind_some, hr] at ht
    cases ht
  | ok time' => exact recordTime_isOk ⟨time', hr⟩

theorem sane (hkey : d.key = some keyBytes) : d.Sane F G cr keyBytes := by
  obtain ⟨bytes, hj, -⟩ := h.journal
  exact ⟨hkey, ⟨bytes, hj⟩, h.readable, h.reconciles⟩

theorem lives_iff {id : U64} : d.Lives cr id ↔ id ∈ store.live := by
  unfold Disk.Lives
  simp only [h.truth, h.live]

end Mirrors

/-- **In the middle of a call** the directory opens, and the other ids are as they were. -/
theorem Midway.keeping {id : U64} (hmid : Midway F G cr mtime d entries id s) (h : Mirrors F G cr mtime d entries store)
    (hkey : d.key = some keyBytes) (hlives : ∀ i, Kept first log i → d.Lives cr i) (hne : ∀ i, Kept first log i → i ≠ id) :
    Keeping cr keyBytes first log s := by
  obtain ⟨bytes, hj, hreplay⟩ := h.journal
  have hjournal : s.journal = some bytes := hmid.journal.trans hj
  refine ⟨⟨hmid.key.trans hkey, ⟨bytes, hjournal⟩, fun mtime' i b htomb hb => ?_, fun bytes' hbytes' => ?_⟩, fun i hi => ?_⟩
  · by_cases hi : i = id
    · subst hi
      rcases hmid.own with hsame | ⟨-, -, b', time, hb', htime⟩ | ⟨-, hdead⟩ | ⟨dg, -, hdead⟩
      · exact h.readable mtime' i b (hsame.tombstone.symm.trans htomb) (hsame.presig.symm.trans hb)
      · rw [hb] at hb'
        cases hb'
        exact recordTime_isOk ⟨time, htime⟩
      · rw [Disk.state_eq_live htomb hb] at hdead
        cases hdead
      · rw [Disk.state_eq_live htomb hb] at hdead
        cases hdead
    · have hsame := hmid.same i hi
      exact h.readable mtime' i b (hsame.tombstone.symm.trans htomb) (hsame.presig.symm.trans hb)
  · rw [hjournal] at hbytes'
    cases hbytes'
    refine ⟨entries, hreplay, fun i j hs => ?_⟩
    by_cases hi : i = id
    · subst hi
      rcases hmid.own with hsame | ⟨hnone, -⟩ | ⟨hlive, hdead⟩ | ⟨dg, hlive, hdead⟩
      · rw [hsame.state, h.settled i j hs]
        exact ⟨[], reconcileOne_artifact cr i j⟩
      · rw [hnone] at hs
        cases hs
      · obtain ⟨dg, rfl⟩ := hlive j hs
        rw [hdead]
        exact reconcileOne_completes cr i (Or.inr rfl)
      · rw [hlive] at hs
        cases hs
        rw [hdead]
        exact reconcileOne_completes cr i (Or.inl rfl)
    · rw [(hmid.same i hi).state, h.settled i j hs]
      exact ⟨[], reconcileOne_artifact cr i j⟩
  · obtain ⟨dg, hdg⟩ := hlives i hi
    refine ⟨dg, ?_⟩
    unfold Disk.truth at hdg ⊢
    rw [hj] at hdg
    rw [hjournal]
    simp only [hreplay] at hdg ⊢
    rw [(hmid.same i (hne i hi)).state]
    exact hdg

/-- After the entry of a call. -/
theorem Mutated.keeping {id : U64} {st : DiskState} {d' : Disk} {store' : DiskPresigStore}
    (hm : Mutated F G cr mtime d entries store id st d' store') (h : Mirrors F G cr mtime d entries store)
    (hkey : d.key = some keyBytes) (hlives : ∀ i, Kept first log i → i ≠ id → d.Lives cr i)
    (hnew : ∀ i, Kept first log i → i = id → st.isLive = true) : Keeping cr keyBytes first log d' := by
  obtain ⟨op, payload, hm'⟩ := hm.mirrors
  refine ⟨hm'.sane (hm.key.trans hkey), fun i hi => hm'.lives_iff.mpr ((hm.live i).mpr ?_)⟩
  by_cases hid : i = id
  · rw [if_pos hid]
    exact hnew i hi hid
  · rw [if_neg hid]
    exact h.lives_iff.mp (hlives i hi hid)

theorem Amid.keeping {id : U64} (ha : Amid F G cr mtime d entries store id s) (h : Mirrors F G cr mtime d entries store)
    (hkey : d.key = some keyBytes) (hlives : ∀ i, Kept first log i → d.Lives cr i) (hne : ∀ i, Kept first log i → i ≠ id) :
    Keeping cr keyBytes first log s := by
  rcases ha with hmid | ⟨st, store', hm⟩
  · exact hmid.keeping h hkey hlives hne
  · exact hm.keeping h hkey (fun i hi _ => hlives i hi) fun i hi heq => absurd heq (hne i hi)

namespace Disk.Opening

/-- **On its way through `open`** a directory still opens, with every record that it had. -/
theorem keeping (h : d.Opening cr keyBytes s) (hd : Keeping cr keyBytes first log d) : Keeping cr keyBytes first log s := by
  have hsane := hd.sane
  obtain ⟨bytes, hj⟩ := hsane.journal
  obtain ⟨known, hreplay, hok⟩ := hsane.reconciles bytes hj
  -- what the journal knows is as it was
  have hstate : ∀ id, (stateOf known id).isSome → s.state cr id = d.state cr id := by
    intro id hknown
    unfold Disk.state
    rw [h.tombs.tombstone]
    rcases h.presig id with heq | ⟨hnone, hsome | ⟨bytes', known', hj', hk', hun⟩⟩
    · rw [heq]
    · obtain ⟨t, ht⟩ := Option.isSome_iff_exists.mp hsome
      rw [ht]
      rfl
    · rw [hj] at hj'
      cases hj'
      rw [hreplay] at hk'
      cases hk'
      rw [hun] at hknown
      cases hknown
  obtain ⟨bytes', entries, hj', hreplay', hok', hids⟩ : ∃ bytes' entries, s.journal = some bytes' ∧
      journalReplay cr bytes' = .ok entries ∧
      (∀ id j, stateOf entries id = some j → ∃ hs, reconcileOne cr id j (d.state cr id) = .ok hs) ∧
      ∀ id, (stateOf entries id).isSome ↔ (stateOf known id).isSome := by
    rcases h.journal with heq | hnone | ⟨bytes₁, known₁, bytes', entries, hj₁, hk₁, hj', hreplay', hok', hids⟩
    · exact ⟨bytes, known, heq.trans hj, hreplay, hok, fun _ => Iff.rfl⟩
    · rw [hj] at hnone
      cases hnone
    · rw [hj] at hj₁
      cases hj₁
      rw [hreplay] at hk₁
      cases hk₁
      exact ⟨bytes', entries, hj', hreplay', hok', hids⟩
  refine ⟨⟨?_, ⟨bytes', hj'⟩, fun mtime id b htomb hb => ?_, fun b hb => ?_⟩, fun id hid => ?_⟩
  · rcases h.key with heq | ⟨hnone, -⟩
    · exact heq.trans hsane.key
    · rw [hsane.key] at hnone
      cases hnone
  · refine hsane.readable mtime id b (h.tombs.tombstone id ▸ htomb) ?_
    rcases h.presig id with heq | ⟨hnone, -⟩
    · exact heq.symm.trans hb
    · rw [hnone] at hb
      cases hb
  · rw [hj'] at hb
    cases hb
    refine ⟨entries, hreplay', fun id j hs => ?_⟩
    rw [hstate id ((hids id).mp (by rw [hs]; rfl))]
    exact hok' id j hs
  · obtain ⟨dg, hdg⟩ := hd.lives id hid
    unfold Disk.truth at hdg
    rw [hj] at hdg
    simp only [hreplay] at hdg
    split at hdg
    · cases hdg
    · next hun =>
      have hknown : (stateOf known id).isSome := by
        rw [hdg] at hun
        cases hk : stateOf known id with
        | some j => rfl
        | none =>
          rw [hk] at hun
          exact absurd rfl hun
      refine ⟨dg, ?_⟩
      unfold Disk.truth
      rw [hj']
      simp only [hreplay']
      rw [hstate id hknown]
      obtain ⟨j, hj⟩ := Option.isSome_iff_exists.mp ((hids id).mpr hknown)
      rw [hj]
      exact hdg

theorem journal_of_broken (h : d.Opening cr keyBytes s) (hd : d.Broken cr) : s.journal = d.journal := by
  obtain ⟨bytes, hj, hbad⟩ := hd
  rcases h.journal with heq | hnone | ⟨bytes', known, -, -, hj', hreplay, -⟩
  · exact heq
  · rw [hj] at hnone
    cases hnone
  · rw [hj] at hj'
    cases hj'
    exact absurd hreplay (hbad known)

end Disk.Opening

/-! ## Lemmas: interrupted steps -/

theorem FsStep.tears_iff {left : Residue} {t : FsStep} : t.tears left = true ↔
    ∃ bytes written, t = .append bytes ∧ left = .torn written ∧ 0 < written ∧ written < bytes.length := by
  constructor
  · intro h
    cases left with
    | done => cases t <;> cases h
    | torn written =>
      cases t with
      | append bytes =>
        unfold tears at h
        simp only [Bool.and_eq_true, decide_eq_true_eq] at h
        exact ⟨bytes, written, rfl, rfl, h⟩
      | _ => cases h
  · rintro ⟨bytes, written, rfl, rfl, hpos, hlt⟩
    unfold tears
    simp [hpos, hlt]

/-- **A step that is cut** leaves one of the worlds it is between, unless it tears an append. -/
theorem FsStep.Within.interrupted {W : Disk → Prop} {t : FsStep} (h : FsStep.Within W s t)
    (hW : ∀ s tmp keyTmp, W s → W { s with tmp := tmp, keyTmp := keyTmp }) {left : Residue} (hleft : t.tears left = false) :
    W (t.interrupted left s) := by
  obtain ⟨⟨hs, s', happly, hs'⟩, -⟩ := h
  cases left with
  | done =>
    show W ((t.apply s).getD s)
    rw [happly]
    exact hs'
  | torn written =>
    cases t with
    | writeKeyTmp bytes => exact hW s s.tmp (some (bytes.take written)) hs
    | writeTmp id bytes => exact hW s (s.tmp.insert id (bytes.take written)) s.keyTmp hs
    | append bytes =>
      obtain ⟨j, hj, rfl⟩ := Option.map_eq_some_iff.mp happly
      show W { s with journal := s.journal.map (· ++ bytes.take written) }
      unfold tears at hleft
      rw [Bool.and_eq_false_iff, decide_eq_false_iff_not, decide_eq_false_iff_not] at hleft
      rw [hj, Option.map_some]
      rcases hleft with hzero | hall
      · rw [show written = 0 by omega, List.take_zero, List.append_nil, ← hj]
        exact hs
      · rw [List.take_of_length_le (by omega)]
        exact hs'
    | _ => exact hs

/-- A torn entry: no journal has that length. -/
theorem FsStep.Within.torn {W : Disk → Prop} {t : FsStep} (h : FsStep.Within W s t) {left : Residue}
    (hleft : t.tears left = true) (hs : ∃ bytes entries, s.journal = some bytes ∧ journalReplay cr bytes = .ok entries) :
    (t.interrupted left s).Broken cr := by
  obtain ⟨bytes, written, rfl, rfl, hpos, hlt⟩ := FsStep.tears_iff.mp hleft
  obtain ⟨j, entries, hj, hreplay⟩ := hs
  have hentry := h.entry bytes rfl
  refine ⟨j ++ bytes.take written, ?_, fun entries' hreplay' => ?_⟩
  · show s.journal.map _ = _
    rw [hj]
    rfl
  · obtain ⟨hchain, rfl⟩ := journalReplay_iff.mp hreplay
    obtain ⟨hchain', hbytes⟩ := journalReplay_iff.mp hreplay'
    have hlength := congrArg List.length hbytes
    rw [List.length_append, List.length_take, journalBytes_length hchain.fits, journalBytes_length hchain'.fits] at hlength
    omega

theorem Keeping.withTmp (h : Keeping cr keyBytes first log s) (tmp : U64Map Bytes) (keyTmp : Option Bytes) :
    Keeping cr keyBytes first log { s with tmp := tmp, keyTmp := keyTmp } :=
  ⟨⟨h.sane.key, h.sane.journal, h.sane.readable, h.sane.reconciles⟩, h.lives⟩

theorem Disk.Sane.replays (h : d.Sane F G cr keyBytes) :
    ∃ bytes entries, d.journal = some bytes ∧ journalReplay cr bytes = .ok entries := by
  obtain ⟨bytes, hj⟩ := h.journal
  obtain ⟨entries, hreplay, -⟩ := h.reconciles bytes hj
  exact ⟨bytes, entries, hj, hreplay⟩

/-! ## Lemmas: calls -/

theorem Kept.of_append {more : List (Note F G)} {id : U64} (h : Kept first (log ++ more) id)
    (hmore : .inserted id ∉ more) : Kept first log id := by
  refine ⟨h.1.imp_right fun hin => (List.mem_append.mp hin).resolve_right hmore, fun hend => h.2 ?_⟩
  exact List.mem_append_left _ hend

theorem Kept.of_begun {c : StoreCall F G} {id : U64} (h : Kept first (log ++ c.begun) id) : Kept first log id := by
  refine h.of_append fun hin => ?_
  cases c with
  | insertAt nonce presig createdAt => cases List.mem_singleton.mp hin
  | consume i => cases List.mem_singleton.mp hin
  | expire i => cases List.mem_singleton.mp hin
  | burn i => cases hin
  | reopen args => cases hin

theorem Keeping.mono {log' : List (Note F G)} (h : Keeping cr keyBytes first log d)
    (hlog : ∀ id, Kept first log' id → Kept first log id) : Keeping cr keyBytes first log' d :=
  ⟨h.sane, fun id hid => h.lives id (hlog id hid)⟩

/-- The notes of a call that returns name no new record but the one it inserted. -/
theorem Keeping.withNotes {notes : List (Note F G)} (h : Keeping cr keyBytes first log d)
    (hnotes : ∀ id, .inserted id ∈ notes → d.Lives cr id) : Keeping cr keyBytes first (log ++ notes) d := by
  refine ⟨h.sane, fun id hid => ?_⟩
  by_cases hin : .inserted id ∈ notes
  · exact hnotes id hin
  · exact h.lives id (hid.of_append hin)

/-- A call that went through, with what it returned. -/
theorem Mutated.noted {id : U64} {st : DiskState} {d' : Disk} {store' : DiskPresigStore} {notes : List (Note F G)}
    (hm : Mutated F G cr mtime d entries store id st d' store') (h : Mirrors F G cr mtime d entries store)
    (hkey : d.key = some keyBytes) (hlives : ∀ i, Kept first log i → d.Lives cr i) (hne : ∀ i, Kept first log i → i ≠ id)
    (htorn : .torn ∉ notes) (hnotes : ∀ i, .inserted i ∈ notes → i = id ∧ st.isLive = true) :
    .torn ∉ notes ∧ Keeping cr keyBytes first (log ++ notes) d' ∧
      ∃ mtime entries, Mirrors F G cr mtime d' entries store' := by
  have hkept : Keeping cr keyBytes first log d' :=
    hm.keeping h hkey (fun i hi _ => hlives i hi) fun i hi heq => absurd heq (hne i hi)
  obtain ⟨op, payload, hm'⟩ := hm.mirrors
  refine ⟨htorn, hkept.withNotes fun i hi => ?_, _, _, hm'⟩
  obtain ⟨rfl, hlive⟩ := hnotes i hi
  exact hm'.lives_iff.mpr ((hm.live i).mpr (by rwa [if_pos rfl]))

variable {prior : Option DiskPresigStore}

/-- **A call** on a directory that opens, cut or not, leaves one that opens. -/
theorem StoreCall.program_keeping {c : StoreCall F G} {m : FsM (DiskPresigStore × List (Note F G))}
    (hd : d.Bounded) (hkeeping : Keeping cr keyBytes first log d) (hc : c.Verified keyBytes)
    (hup : ∀ store, prior = some store → ∃ mtime entries, Mirrors F G cr mtime d entries store)
    (hm : c.program cr prior = some m) :
    Goes (FsStep.Within (Keeping cr keyBytes first (log ++ c.begun))) d m
      (fun out d' => .torn ∉ out.2 ∧ Keeping cr keyBytes first (log ++ c.begun ++ out.2) d' ∧
        ∃ mtime entries, Mirrors F G cr mtime d' entries out.1)
      (fun _ d' => Keeping cr keyBytes first (log ++ c.begun) d' ∧ ∀ store, c.survivor prior = some store → d' = d) := by
  have hbegun : Keeping cr keyBytes first (log ++ c.begun) d := hkeeping.mono fun id hid => hid.of_begun
  have hkey := hkeeping.sane.key
  have hlives := hbegun.lives
  cases c with
  | insertAt nonce presig createdAt =>
    obtain ⟨store, rfl, rfl⟩ := Option.map_eq_some_iff.mp hm
    obtain ⟨mtime, entries, h⟩ := hup store rfl
    have hroom := h.room hd
    cases hknown : store.known presig.val.id with
    | true =>
      refine Goes.bind (P := fun _ _ => False) ?_ fun _ _ h => h.elim
      unfold DiskPresigStore.insertAt
      simp only [hknown, if_true]
      exact Goes.throw ⟨hbegun, fun _ _ => rfl⟩
    | false =>
      have hne : ∀ i, Kept first (log ++ StoreCall.begun (.insertAt nonce presig createdAt)) i → i ≠ presig.val.id := by
        rintro i hi rfl
        rw [known_iff.mpr (Or.inl (h.lives_iff.mp (hlives _ hi)))] at hknown
        cases hknown
      refine Goes.bind ((insertAt_goes h (by omega) nonce presig.property createdAt.isLt
        fun s t hs => hs.mono fun s ha => ha.keeping h hkey hlives hne).conseq (fun _ _ h => h) (fun _ _ h => h) ?_) ?_
      · rintro e d' ⟨rfl, -, -⟩
        exact ⟨hbegun, fun _ _ => rfl⟩
      · rintro store' d' ⟨-, -, -, dg, hmut⟩
        refine Goes.pure (hmut.noted h hkey hlives hne (by simp) fun i hi => ?_)
        cases List.mem_singleton.mp hi
        exact ⟨rfl, rfl⟩
  | consume id =>
    obtain ⟨store, rfl, rfl⟩ := Option.map_eq_some_iff.mp hm
    obtain ⟨mtime, entries, h⟩ := hup store rfl
    have hroom := h.room hd
    have hne : ∀ i, Kept first (log ++ StoreCall.begun (.consume id)) i → i ≠ id := by
      rintro i hi rfl
      exact hi.2 (List.mem_append_right _ (List.mem_singleton_self _))
    refine Goes.bind ((consume_goes h (by omega) id
      fun s t hs => hs.mono fun s ha => ha.keeping h hkey hlives hne).conseq (fun _ _ h => h) (fun _ _ h => h) ?_) ?_
    · rintro e d' ⟨rfl, -⟩
      exact ⟨hbegun, fun _ _ => rfl⟩
    · rintro out d' ⟨-, -, dg, -, hmut⟩
      exact Goes.pure (hmut.noted h hkey hlives hne (by simp) fun i hi => (by cases List.mem_singleton.mp hi))
  | expire id =>
    obtain ⟨store, rfl, rfl⟩ := Option.map_eq_some_iff.mp hm
    obtain ⟨mtime, entries, h⟩ := hup store rfl
    have hroom := h.room hd
    have hne : ∀ i, Kept first (log ++ StoreCall.begun (.expire id)) i → i ≠ id := by
      rintro i hi rfl
      exact hi.2 (List.mem_append_right _ (List.mem_singleton_self _))
    refine Goes.bind ((expire_goes h (by omega) id
      fun s t hs => hs.mono fun s ha => ha.keeping h hkey hlives hne).conseq (fun _ _ h => h) (fun _ _ h => h)
      fun _ _ h => h.elim) ?_
    rintro ⟨done, store'⟩ d' (⟨-, hout, rfl⟩ | ⟨-, hdone, hmut⟩)
    · cases hout
      exact Goes.pure ⟨fun hn => (by cases hn), hbegun.withNotes fun id hid => (by cases hid), _, _, h⟩
    · obtain rfl : done = true := hdone
      exact Goes.pure (hmut.noted h hkey hlives hne (by simp) fun i hi => (by cases List.mem_singleton.mp hi))
  | burn id =>
    obtain ⟨store, rfl, rfl⟩ := Option.map_eq_some_iff.mp hm
    obtain ⟨mtime, entries, h⟩ := hup store rfl
    have hroom := h.room hd
    cases hknown : store.known id with
    | true =>
      refine Goes.bind (P := fun out d' => out = (false, store) ∧ d' = d) ?_ ?_
      · unfold DiskPresigStore.burn
        rw [if_pos hknown]
        exact Goes.pure ⟨rfl, rfl⟩
      · rintro _ d' ⟨rfl, rfl⟩
        exact Goes.pure ⟨fun hn => (by cases hn), hbegun.withNotes fun id hid => (by cases hid), _, _, h⟩
    | false =>
      have hne : ∀ i, Kept first (log ++ StoreCall.begun (.burn id)) i → i ≠ id := by
        rintro i hi rfl
        rw [known_iff.mpr (Or.inl (h.lives_iff.mp (hlives _ hi)))] at hknown
        cases hknown
      refine Goes.bind ((burn_goes h (by omega) id
        fun s t hs => hs.mono fun s ha => ha.keeping h hkey hlives hne).conseq (fun _ _ h => h) (fun _ _ h => h)
        fun _ _ h => h.elim) ?_
      rintro ⟨done, store'⟩ d' (⟨hknown', -, -⟩ | ⟨-, hdone, hmut⟩)
      · rw [hknown] at hknown'
        cases hknown'
      · obtain rfl : done = true := hdone
        exact Goes.pure (hmut.noted h hkey hlives hne (by simp) fun i hi => (by cases List.mem_singleton.mp hi))
  | reopen args =>
    obtain rfl := Option.some.inj hm
    obtain ⟨rfl, hverified⟩ := hc
    refine Goes.bind ((openMode_goes hd (Or.inl hverified)
      fun s t hs => hs.mono fun s ho => ho.keeping hbegun).conseq (fun _ _ h => h) (fun _ _ h => h)
      fun _ _ h => ⟨h.2.keeping hbegun, fun _ hs => (by cases hs)⟩) ?_
    rintro store d' ⟨entries, hopened⟩
    have hm' := hopened.mirrors
    refine Goes.pure ⟨fun hn => (by cases hn), ⟨hm'.sane hopened.key, fun id hid => ?_⟩, _, _, hm'⟩
    rw [List.append_nil] at hid
    obtain ⟨dg, hdg⟩ := hlives id hid
    exact ⟨dg, by rw [hm'.truth, hopened.state, hdg]⟩

/-! ## Lemmas: runs -/

variable (F G) in
/-- No append was torn: the directory opens, and the store that is up mirrors it. -/
structure Host.Whole (cr : Crypto) (keyBytes : Bytes) (first : Finset U64) (h : Host F G) : Prop where
  untorn : .torn ∉ h.log
  keeping : Keeping cr keyBytes first h.log h.disk
  up : ∀ store, h.store = some store → ∃ mtime entries, Mirrors F G cr mtime h.disk entries store

/-- An append was torn: there is no store, and no journal that replays. -/
structure Host.Lost (cr : Crypto) (h : Host F G) : Prop where
  torn : .torn ∈ h.log
  down : h.store = none
  broken : h.disk.Broken cr

variable {h h' : Host F G} {e : HostEvent F G}

theorem Host.Whole.step (hw : h.Whole F G cr keyBytes first) (hd : h.disk.Bounded) (he : e.Orderly keyBytes)
    (hstep : h.step cr e = some h') : h'.Whole F G cr keyBytes first ∨ h'.Lost cr := by
  have hbegun : ∀ c : StoreCall F G, .torn ∉ h.log ++ c.begun := by
    intro c hn
    rcases List.mem_append.mp hn with hn | hn
    · exact hw.untorn hn
    · cases c with
      | insertAt nonce presig createdAt => cases List.mem_singleton.mp hn
      | consume i => cases List.mem_singleton.mp hn
      | expire i => cases List.mem_singleton.mp hn
      | burn i => cases hn
      | reopen args => cases hn
  cases e with
  | run c =>
    obtain ⟨m, hm, rfl⟩ := Option.map_eq_some_iff.mp hstep
    have hend := (StoreCall.program_keeping hd hw.keeping he hw.up hm).of_outcome
    left
    rcases hout : outcome m h.disk with ⟨err | ⟨store, notes⟩, d'⟩ <;> rw [hout] at hend
    · refine ⟨hbegun c, hend.1, fun store hstore => ?_⟩
      have hsame : d' = h.disk := hend.2 store hstore
      show ∃ mtime entries, Mirrors F G cr mtime d' entries store
      rw [hsame]
      rcases Host.Sound.survivor_cases c h.store with hprior | hnone
      · exact hw.up store (hprior.symm.trans hstore)
      · cases hnone.symm.trans hstore
    · refine ⟨fun hn => (List.mem_append.mp hn).elim (hbegun c) hend.1, hend.2.1, fun store' hstore => ?_⟩
      cases hstore
      exact hend.2.2
  | kill c k left =>
    obtain ⟨m, hm, hcut⟩ := Option.bind_eq_some_iff.mp hstep
    obtain ⟨⟨d₁, t⟩, hk, rfl⟩ := Option.map_eq_some_iff.mp hcut
    have hwithin := (StoreCall.program_keeping hd hw.keeping he hw.up hm).cut hk
    cases hleft : t.tears left with
    | false =>
      left
      have hnote : t.note left = ([] : List (Note F G)) := by
        unfold FsStep.note
        rw [hleft]
        rfl
      show Host.Whole F G cr keyBytes first
        ⟨t.interrupted left d₁, none, h.log ++ c.begun ++ (c.logging true t ++ t.note left)⟩
      rw [hnote, List.append_nil]
      refine ⟨fun hn => (List.mem_append.mp hn).elim (hbegun c) fun hn => ?_,
        (hwithin.interrupted (fun s tmp keyTmp hs => hs.withTmp tmp keyTmp) hleft).logged fun id hn => ?_,
        fun store hstore => by cases hstore⟩
      · obtain ⟨bytes, i, -, -, heq⟩ := StoreCall.mem_logging hn
        cases heq
      · obtain ⟨bytes, i, -, -, heq⟩ := StoreCall.mem_logging hn
        cases heq
    | true =>
      right
      refine ⟨List.mem_append_right _ (List.mem_append_right _ ?_), rfl, hwithin.torn hleft hwithin.passes.1.sane.replays⟩
      unfold FsStep.note
      rw [hleft]
      exact List.mem_singleton_self _
  | fail c k left => exact he.elim
  | stop =>
    obtain rfl := Option.some.inj hstep
    exact Or.inl ⟨hw.untorn, hw.keeping, fun store hstore => by cases hstore⟩

/-- **Nothing mends** a torn journal. -/
theorem Host.Lost.step (hl : h.Lost cr) (hd : h.disk.Bounded) (he : e.Orderly keyBytes)
    (hstep : h.step cr e = some h') : h'.Lost cr := by
  have hgoes : ∀ {c : StoreCall F G} {m : FsM (DiskPresigStore × List (Note F G))}, c.Verified keyBytes →
      c.program cr h.store = some m →
      Goes (FsStep.Within (h.disk.Opening cr keyBytes)) h.disk m (fun _ _ => False)
        (fun _ d' => h.disk.Opening cr keyBytes d' ∧ c.survivor h.store = none) := by
    intro c m hc hm
    rw [hl.down] at hm ⊢
    cases c with
    | insertAt nonce presig createdAt => cases hm
    | consume id => cases hm
    | expire id => cases hm
    | burn id => cases hm
    | reopen args =>
      obtain rfl := Option.some.inj hm
      obtain ⟨rfl, hverified⟩ := hc
      refine Goes.bind ((openMode_goes hd (Or.inl hverified) fun s t hs => hs).conseq (fun _ _ h => h) (fun _ _ h => h)
        fun _ _ h => ⟨h.2, rfl⟩) ?_
      rintro store d' ⟨entries, hopened⟩
      obtain ⟨bytes, hj, hbad⟩ := hl.broken
      obtain ⟨known, hreplay, -⟩ := hopened.openable.reconciles bytes hj
      exact absurd hreplay (hbad known)
  have hbroken : ∀ s : Disk, h.disk.Opening cr keyBytes s → s.Broken cr := by
    intro s hs
    obtain ⟨bytes, hj, hbad⟩ := hl.broken
    exact ⟨bytes, (hs.journal_of_broken hl.broken).trans hj, hbad⟩
  cases e with
  | run c =>
    obtain ⟨m, hm, rfl⟩ := Option.map_eq_some_iff.mp hstep
    have hend := (hgoes he hm).of_outcome
    rcases hout : outcome m h.disk with ⟨err | ⟨store, notes⟩, d'⟩ <;> rw [hout] at hend
    · exact ⟨List.mem_append_left _ hl.torn, hend.2, hbroken d' hend.1⟩
    · exact hend.elim
  | kill c k left =>
    obtain ⟨m, hm, hcut⟩ := Option.bind_eq_some_iff.mp hstep
    obtain ⟨⟨d₁, t⟩, hk, rfl⟩ := Option.map_eq_some_iff.mp hcut
    have hwithin := (hgoes he hm).cut hk
    refine ⟨List.mem_append_left _ (List.mem_append_left _ hl.torn), rfl, ?_⟩
    refine (hwithin.mono hbroken).interrupted (fun s tmp keyTmp hs => hs) ?_
    -- a refused `open` appends nothing
    cases hleft : t.tears left with
    | false => rfl
    | true =>
      obtain ⟨bytes, written, rfl, rfl, hpos, hlt⟩ := FsStep.tears_iff.mp hleft
      obtain ⟨⟨hs, s', happly, hs'⟩, -⟩ := hwithin
      obtain ⟨j, hj, rfl⟩ := Option.map_eq_some_iff.mp happly
      have hgrown : some (j ++ bytes) = some j :=
        (hs'.journal_of_broken hl.broken).trans ((hs.journal_of_broken hl.broken).symm.trans hj)
      have hlength := congrArg List.length (Option.some.inj hgrown)
      rw [List.length_append] at hlength
      omega
  | fail c k left => exact he.elim
  | stop =>
    obtain rfl := Option.some.inj hstep
    exact ⟨hl.torn, rfl, hl.broken⟩

/-- A store that was opened, and nothing since. -/
theorem Host.Whole.start {args : OpenArgs} {s : Session} (hd : d.Bounded) (hverified : args.allowUnverified = false)
    (hopen : openSession F G cr args d = some s) :
    Host.Whole F G cr args.keyBytes s.store.live ⟨s.disk, some s.store, []⟩ := by
  obtain ⟨entries, hopened⟩ := openSession_opened hd (Or.inl hverified) hopen
  have hm := hopened.mirrors
  refine ⟨List.not_mem_nil, ⟨hm.sane hopened.key, fun id hid => hm.lives_iff.mpr ?_⟩, fun store hstore => ?_⟩
  · exact hid.1.elim (fun hin => hin) fun hin => absurd hin List.not_mem_nil
  · cases hstore
    exact ⟨_, _, hm⟩

/-! ## Theorem -/

/-- **A directory opens again** exactly if no append to its journal was torn, wherever else
the process was killed, and the transcript tells of no record that it keeps; and then it has every
record whose insert returned, unless a consume or an expiry of it had begun. -/
theorem reopens_iff {args : OpenArgs} {s : Session} {events : List (HostEvent F G)} {h : Host F G} (hd : d.Bounded)
    (hverified : args.allowUnverified = false) (hopen : openSession F G cr args d = some s)
    (hrun : Run (Host.step cr) (fun h e => h.disk.Bounded ∧ e.Orderly args.keyBytes) ⟨s.disk, some s.store, []⟩ events h)
    (hbounded : h.disk.Bounded) {args' : OpenArgs} (hkey : args'.keyBytes = args.keyBytes)
    (hverified' : args'.allowUnverified = false) :
    ((∃ s', openSession F G cr args' h.disk = some s') ↔ .torn ∉ h.log ∧
      ∀ ids, signEvidenceIds F G args'.transcript = some ids → ∀ id ∈ ids, ¬ h.disk.Lives cr id) ∧
      ∀ s', openSession F G cr args' h.disk = some s' → ∀ id, Kept s.store.live h.log id → id ∈ s'.store.live := by
  have hinv : h.Whole F G cr args.keyBytes s.store.live ∨ h.Lost cr := by
    refine hrun.invariant (I := fun h => h.Whole F G cr args.keyBytes s.store.live ∨ h.Lost cr) ?_
      (Or.inl (Host.Whole.start hd hverified hopen))
    rintro h₁ e h₂ (hw | hl) ⟨hb, he⟩ hstep
    · exact hw.step hb he hstep
    · exact Or.inr (hl.step hb he hstep)
  rcases hinv with hw | hl
  · have hopened : ∀ s', openSession F G cr args' h.disk = some s' → ∃ entries,
        Opened F G cr args' h.disk entries s'.store s'.disk := fun s' hs' => openSession_opened hbounded (Or.inl hverified') hs'
    refine ⟨⟨?_, fun hlives => openSession_openable hbounded ?_⟩, fun s' hs' id hid => ?_⟩
    · rintro ⟨s', hs'⟩
      obtain ⟨entries, hopened⟩ := hopened s' hs'
      refine ⟨hw.untorn, fun ids hids id hid hlive => ?_⟩
      obtain ⟨dg, hdg⟩ := hlive
      rcases hopened.openable.unspent with hflag | hunspent
      · rw [hverified'] at hflag
        cases hflag
      · exact hunspent ids hids id hid dg hdg
    · refine ⟨fun bytes hb => ?_, hw.keeping.sane.readable _, hw.keeping.sane.reconciles, Or.inr fun ids hids id hid dg hdg => ?_⟩
      · rw [hw.keeping.sane.key, Option.some.injEq] at hb
        rw [hkey, hb]
      · exact hlives.2 ids hids id hid ⟨dg, hdg⟩
    obtain ⟨entries, hopened⟩ := hopened s' hs'
    obtain ⟨dg, hdg⟩ := hw.keeping.lives id hid
    exact (hopened.mirrors.live id).mpr ⟨dg, (hopened.state id).trans hdg⟩
  · have hnot : ∀ s', openSession F G cr args' h.disk ≠ some s' := by
      intro s' hs'
      obtain ⟨entries, hopened⟩ := openSession_opened hbounded (Or.inl hverified') hs'
      obtain ⟨bytes, hj, hbad⟩ := hl.broken
      obtain ⟨known, hreplay, -⟩ := hopened.openable.reconciles bytes hj
      exact hbad known hreplay
    refine ⟨⟨?_, fun hn => absurd hl.torn hn.1⟩, fun s' hs' => absurd hs' (hnot s')⟩
    rintro ⟨s', hs'⟩
    exact absurd hs' (hnot s')

end Crash

section Fresh

open Secp256k1

instance (keyBytes : Bytes) : (c : StoreCall Scalar Point) → Decidable (c.Verified keyBytes)
  | .reopen args => inferInstanceAs (Decidable (args.keyBytes = keyBytes ∧ args.allowUnverified = false))
  | .insertAt _ _ _ => isTrue trivial
  | .consume _ => isTrue trivial
  | .expire _ => isTrue trivial
  | .burn _ => isTrue trivial

instance (keyBytes : Bytes) : (e : HostEvent Scalar Point) → Decidable (e.Orderly keyBytes)
  | .run c => inferInstanceAs (Decidable (c.Verified keyBytes))
  | .kill c _ _ => inferInstanceAs (Decidable (c.Verified keyBytes))
  | .fail _ _ _ => isFalse fun h => h
  | .stop => isTrue trivial

/-- Two records, and a host that dies as it logs the consume of one. -/
def killedEvents (left : Residue) : List (HostEvent Scalar Point) :=
  [.run (recordInsert 1), .run (recordInsert 2), .kill (.consume 1) 1 left]

def freshHost : Host Scalar Point := ⟨freshSession.disk, some freshSession.store, []⟩

def orderlyStep : Host Scalar Point → HostEvent Scalar Point → Option (Host Scalar Point) :=
  guarded (Host.step plainCrypto) fun h e => h.disk.Bounded ∧ e.Orderly freshArgs.keyBytes

/-- Before the entry is written the other record is kept; with the entry half written nothing is. -/
theorem reopens_iff_killed : ∃ before torn : Host Scalar Point,
    (killedEvents (.torn 0)).foldlM orderlyStep freshHost = some before ∧
      (killedEvents (.torn 9)).foldlM orderlyStep freshHost = some torn ∧
      (∃ s', openSession Scalar Point plainCrypto freshArgs before.disk = some s' ∧ 2 ∈ s'.store.live) ∧
      ¬ ∃ s', openSession Scalar Point plainCrypto freshArgs torn.disk = some s' := by
  have hbefore : ((killedEvents (.torn 0)).foldlM orderlyStep freshHost).any (fun h =>
      decide (h.disk.Bounded ∧ .torn ∉ h.log ∧ .inserted 2 ∈ h.log ∧ .ending 2 ∉ h.log)) = true := by decide +kernel
  have htorn : ((killedEvents (.torn 9)).foldlM orderlyStep freshHost).any (fun h =>
      decide (h.disk.Bounded ∧ .torn ∈ h.log)) = true := by decide +kernel
  obtain ⟨before, hfold₁, hnotes₁⟩ := (Option.any_eq_true _ _).mp hbefore
  obtain ⟨torn, hfold₂, hnotes₂⟩ := (Option.any_eq_true _ _).mp htorn
  obtain ⟨hb₁, hwhole, hinserted, hending⟩ := of_decide_eq_true hnotes₁
  obtain ⟨hb₂, hlost⟩ := of_decide_eq_true hnotes₂
  have hreopens := reopens_iff freshDisk_bounded rfl freshSession_opened ((Run.iff_foldlM _ _ _).mpr hfold₁) hb₁
    (show freshArgs.keyBytes = freshArgs.keyBytes from rfl) (show freshArgs.allowUnverified = false from rfl)
  have hrefused := reopens_iff freshDisk_bounded rfl freshSession_opened ((Run.iff_foldlM _ _ _).mpr hfold₂) hb₂
    (show freshArgs.keyBytes = freshArgs.keyBytes from rfl) (show freshArgs.allowUnverified = false from rfl)
  obtain ⟨s', hs'⟩ := hreopens.1.mpr ⟨hwhole, fun ids hids => by cases hids⟩
  exact ⟨before, torn, hfold₁, hfold₂, ⟨s', hs', hreopens.2 s' hs' 2 ⟨Or.inr hinserted, hending⟩⟩,
    fun hopens => (hrefused.1.mp hopens).1 hlost⟩

end Fresh

end OhmEcdsa
