import OhmEcdsa.Store.Edits
import OhmEcdsa.Store.Scan

/-!
# Recovery: the journal against the directory (`store/persist.rs`)

The journal's last entry on an id names the artifact that the directory must hold.  `open`
appends the entries that a killed call did not get to, and drops the records that were
never acknowledged; both loops keep a journal that replays, and end with one that agrees
with the directory:

    Goes C d (heal heals) (the journal with every heal) E              (heal_goes)
    Goes C d (dropUnaccounted) (no record that it does not know) E     (drop_goes)
-/

set_option linter.unusedSectionVars false

namespace OhmEcdsa

open Codec Decoder Hoare

/-! ## Specification -/

/-- The journal's last word on an id. -/
def stateOf (entries : List JournalEntry) (id : U64) : Option JournalState := (lastEntry entries id).map entryState

/-- What the directory holds for it. -/
def JournalState.artifact : JournalState → DiskState
  | .live h => .live h
  | .consumed h => .consumed h
  | .expired => .expired

/-- The writer that continues a journal. -/
def writerOf (entries : List JournalEntry) : Journal := ⟨entries.length + 1, tipOf entries⟩

/-- The entry it writes next. -/
def nextEntry (cr : Crypto) (entries : List JournalEntry) (op : UInt8) (id : U64) (payload : Bytes) : JournalEntry :=
  .new cr (entries.length + 1) op id (tipOf entries) payload

namespace Disk

/-- What an id is: a record that the journal does not know was never acknowledged. -/
def truth (cr : Crypto) (d : Disk) (id : U64) : Option DiskState :=
  match d.journal with
  | none => d.state cr id
  | some bytes =>
    match journalReplay cr bytes with
    | .error _ => d.state cr id
    | .ok entries =>
      if (stateOf entries id).isNone && (d.state cr id).any DiskState.isLive then none else d.state cr id

/-- The journal replays, and each of its ids is as it says or a call away from it. -/
def Reconciles (cr : Crypto) (d : Disk) : Prop :=
  ∀ bytes, d.journal = some bytes → ∃ entries, journalReplay cr bytes = .ok entries ∧
    ∀ id j, stateOf entries id = some j → ∃ heals, reconcileOne cr id j (d.state cr id) = .ok heals

/-- Sizes of a file system: file lengths and file counts are signed words. -/
structure Bounded (d : Disk) : Prop where
  journal : ∀ bytes, d.journal = some bytes → bytes.length < 2 ^ 63
  files : d.presig.size + d.consumed.size + d.expired.size < 2 ^ 63

end Disk

/-! ## Lemmas: the journal -/

theorem stateOf_snoc (entries : List JournalEntry) (e : JournalEntry) (id : U64) :
    stateOf (entries ++ [e]) id = if id = e.id then some (entryState e) else stateOf entries id := by
  unfold stateOf
  rw [lastEntry_snoc]
  by_cases hid : id = e.id
  · rw [if_pos hid, if_pos hid.symm]
    rfl
  · rw [if_neg hid, if_neg (Ne.symm hid)]

theorem journalStates_getElem? (entries : List JournalEntry) (id : U64) :
    (journalStates entries)[id]? = stateOf entries id := by
  induction entries using List.reverseRecOn with
  | nil => exact Std.ExtTreeMap.getElem?_empty
  | append_singleton entries e ih =>
    unfold journalStates at ih ⊢
    rw [List.foldl_append, List.foldl_cons, List.foldl_nil, getElem?_insert_word, stateOf_snoc, ih]

theorem entryState_live {e : JournalEntry} {h : Bytes} (he : entryState e = .live h) : e.op = OP_INSERT := by
  unfold entryState at he
  split at he
  · assumption
  · split at he <;> cases he

theorem opAllowed_fresh {entries : List JournalEntry} {id : U64} (h : stateOf entries id = none) {op : UInt8}
    (hop : op = OP_INSERT ∨ op = OP_BURN) : OpAllowed (lastEntry entries id) op := by
  rw [Option.map_eq_none_iff.mp h]
  exact hop

theorem opAllowed_live {entries : List JournalEntry} {id : U64} {digest : Bytes}
    (h : stateOf entries id = some (.live digest)) {op : UInt8} (hop : op = OP_CONSUME ∨ op = OP_EXPIRE) :
    OpAllowed (lastEntry entries id) op := by
  obtain ⟨e, he, hlive⟩ := Option.map_eq_some_iff.mp h
  rw [he]
  exact ⟨entryState_live hlive, hop⟩

theorem payloadDigest_length (cr : Crypto) (b : Bytes) : (payloadDigest cr b).length = 32 := cr.sha256_length _

/-- Every entry takes a frame of its own. -/
theorem journalReplay_length {cr : Crypto} {bytes : Bytes} {entries : List JournalEntry}
    (h : journalReplay cr bytes = .ok entries) : 117 * entries.length ≤ bytes.length := by
  obtain ⟨hchain, rfl⟩ := journalReplay_iff.mp h
  exact (journalBytes_length hchain.fits).ge

section Append

variable {cr : Crypto} {bytes : Bytes} {entries : List JournalEntry} {op : UInt8} {id : U64} {payload : Bytes}

theorem nextEntry_replays (hreplay : journalReplay cr bytes = .ok entries) (hlen : entries.length + 1 < 2 ^ 64)
    (hop : OpAllowed (lastEntry entries id) op) (hpayload : payload.length = 32) :
    journalReplay cr (bytes ++ frame (nextEntry cr entries op id payload).encode) =
      .ok (entries ++ [nextEntry cr entries op id payload]) := by
  have hfits : (nextEntry cr entries op id payload).Fits :=
    ⟨hlen, (chained_of_replay hreplay).tip_length, hpayload, cr.sha256_length _⟩
  exact (journalReplay_snoc hreplay hfits).mp ⟨rfl, rfl, rfl, hop⟩

theorem writerOf_snoc : writerOf (entries ++ [nextEntry cr entries op id payload]) =
    ⟨entries.length + 1 + 1, (nextEntry cr entries op id payload).hash⟩ := by
  unfold writerOf
  rw [tipOf_snoc, List.length_append, List.length_singleton]

theorem nextEntry_frame_length (hreplay : journalReplay cr bytes = .ok entries) (hpayload : payload.length = 32) :
    (frame (nextEntry cr entries op id payload).encode).length = 117 := by
  have htip : (nextEntry cr entries op id payload).prev.length = 32 := (chained_of_replay hreplay).tip_length
  have hhash : (nextEntry cr entries op id payload).hash.length = 32 := cr.sha256_length _
  have hdigest : (nextEntry cr entries op id payload).payload.length = 32 := hpayload
  rw [frame_length]
  simp [JournalEntry.encode, u64Bytes, htip, hhash, hdigest]

theorem append_goes {d : Disk} {C : Disk → FsStep → Prop} {W : Disk → Prop} {E : PersistError → Disk → Prop}
    {P : Journal → Disk → Prop} (hj : d.journal = some bytes) (hreplay : journalReplay cr bytes = .ok entries)
    (hpayload : payload.length = 32) (hC : ∀ s t, FsStep.Within W s t → C s t) (hs : W d)
    (hs' : W { d with journal := some (bytes ++ frame (nextEntry cr entries op id payload).encode) })
    (hP : P (writerOf (entries ++ [nextEntry cr entries op id payload]))
      { d with journal := some (bytes ++ frame (nextEntry cr entries op id payload).encode) }) :
    Goes C d ((writerOf entries).append cr op id payload) P E := by
  have hwithin : FsStep.Within W d (.append (frame (nextEntry cr entries op id payload).encode)) := by
    refine ⟨⟨hs, _, FsStep.apply_append hj _, hs'⟩, fun b hb => ?_⟩
    obtain rfl := FsStep.append.inj hb
    exact nextEntry_frame_length hreplay hpayload
  unfold Journal.append
  refine (Goes.step (FsStep.apply_append hj _) (hC _ _ hwithin)
    (P := fun _ d' => d' = { d with journal := some (bytes ++ frame (nextEntry cr entries op id payload).encode) })
    rfl).bind fun _ d' hd' => ?_
  subst hd'
  rw [writerOf_snoc] at hP
  exact Goes.pure hP

end Append

/-! ## Lemmas: one journaled id -/

/-- A heal completes the call whose tombstone was found. -/
def HealOp.Completes (cr : Crypto) (heal : HealOp) (found : Option DiskState) : Prop :=
  heal.op = OP_CONSUME ∧ found = some (.consumed heal.payload) ∨
    heal.op = OP_EXPIRE ∧ heal.payload = payloadDigest cr [] ∧ found = some .expired

theorem reconcileOne_cases (cr : Crypto) (id : U64) (j : JournalState) (found : Option DiskState) :
    found = some j.artifact ∧ reconcileOne cr id j found = .ok [] ∨
    found ≠ some j.artifact ∧ (∃ digest heal, j = .live digest ∧ heal.id = id ∧ heal.Completes cr found ∧
      reconcileOne cr id j found = .ok [heal]) ∨
    found ≠ some j.artifact ∧ ∃ msg, reconcileOne cr id j found = .error msg := by
  unfold reconcileOne
  cases j with
  | live ph =>
    cases found with
    | none => exact Or.inr (Or.inr ⟨fun h => (by cases h), _, rfl⟩)
    | some s =>
      cases s with
      | live dh =>
        by_cases h : ph = dh
        · exact Or.inl ⟨by rw [h]; rfl, if_pos h⟩
        · refine Or.inr (Or.inr ⟨fun heq => h ?_, _, if_neg h⟩)
          cases heq
          rfl
      | consumed dh =>
        have hne : some (DiskState.consumed dh) ≠ some (JournalState.artifact (.live ph)) := fun h => (by cases h)
        by_cases h : ph = dh
        · exact Or.inr (Or.inl ⟨hne, ph, ⟨OP_CONSUME, id, dh⟩, rfl, rfl, Or.inl ⟨rfl, rfl⟩, if_pos h⟩)
        · exact Or.inr (Or.inr ⟨hne, _, if_neg h⟩)
      | expired =>
        exact Or.inr (Or.inl ⟨fun h => (by cases h), ph, ⟨OP_EXPIRE, id, payloadDigest cr []⟩, rfl, rfl,
          Or.inr ⟨rfl, rfl, rfl⟩, rfl⟩)
  | consumed ph =>
    by_cases h : found = some (.consumed ph)
    · exact Or.inl ⟨h, if_pos h⟩
    · exact Or.inr (Or.inr ⟨h, _, if_neg h⟩)
  | expired =>
    by_cases h : found = some .expired
    · exact Or.inl ⟨h, if_pos h⟩
    · exact Or.inr (Or.inr ⟨h, _, if_neg h⟩)

/-- The directory, with some journal. -/
def Disk.Journaling (d d' : Disk) : Prop := ∃ bytes, d' = { d with journal := some bytes }

/-- The directory, with a journal of the known ids that it is as, or a call away from. -/
def Recovering (cr : Crypto) (d : Disk) (known : List JournalEntry) (d' : Disk) : Prop :=
  ∃ bytes entries, d' = { d with journal := some bytes } ∧ journalReplay cr bytes = .ok entries ∧
    (∀ id j, stateOf entries id = some j → ∃ hs, reconcileOne cr id j (d.state cr id) = .ok hs) ∧
    ∀ id, (stateOf entries id).isSome ↔ (stateOf known id).isSome

theorem reconcileOne_artifact (cr : Crypto) (id : U64) (j : JournalState) :
    reconcileOne cr id j (some j.artifact) = .ok [] := by
  unfold reconcileOne JournalState.artifact
  cases j <;> simp

theorem reconcileOne_completes (cr : Crypto) (id : U64) {s : DiskState} {digest : Bytes}
    (h : s = .consumed digest ∨ s = .expired) : ∃ hs, reconcileOne cr id (.live digest) (some s) = .ok hs := by
  rcases h with rfl | rfl
  · exact ⟨_, if_pos rfl⟩
  · exact ⟨_, rfl⟩

/-! ## Lemmas: adoption -/

/-- What the journal says of an adopted id. -/
def DiskState.adopted : DiskState → JournalState
  | .live h => .live h
  | .consumed h => .consumed h
  | .expired => .expired

/-- The digests of a map of states are digests. -/
def DigestSized (disk : U64Map DiskState) : Prop :=
  ∀ (id : U64) (h : Bytes), disk[id]? = some (.live h) ∨ disk[id]? = some (.consumed h) → h.length = 32

section Adopt

variable {cr : Crypto} {d : Disk} {C : Disk → FsStep → Prop} {E : PersistError → Disk → Prop}

/-- The entries of a tombstone: the record it was, and its end. -/
theorem appendBoth_goes {bytes : Bytes} {entries : List JournalEntry} {id : U64} {op : UInt8}
    {payload payload' : Bytes} (hreplay : journalReplay cr bytes = .ok entries) (hlen : entries.length + 2 < 2 ^ 64)
    (hfresh : stateOf entries id = none) (hp : payload.length = 32) (hp' : payload'.length = 32)
    (hop : op = OP_CONSUME ∨ op = OP_EXPIRE)
    (hC : ∀ s t, FsStep.Within d.Journaling s t → C s t) :
    Goes C { d with journal := some bytes } (do
      let journal ← (writerOf entries).append cr OP_INSERT id payload
      journal.append cr op id payload')
      (fun journal d' => ∃ bytes' entries', d' = { d with journal := some bytes' } ∧
        journalReplay cr bytes' = .ok entries' ∧ journal = writerOf entries' ∧ entries'.length = entries.length + 2 ∧
        ∀ i, stateOf entries' i =
          if i = id then some (if op = OP_CONSUME then .consumed payload' else .expired) else stateOf entries i) E := by
  have hone := nextEntry_replays hreplay (by omega) (opAllowed_fresh hfresh (Or.inl rfl)) hp
  have hlive : stateOf (entries ++ [nextEntry cr entries OP_INSERT id payload]) id = some (.live payload) := by
    rw [stateOf_snoc, if_pos (show id = (nextEntry cr entries OP_INSERT id payload).id from rfl)]
    rfl
  have hroom : (entries ++ [nextEntry cr entries OP_INSERT id payload]).length + 1 < 2 ^ 64 := by
    rw [List.length_append, List.length_singleton]
    omega
  have htwo := nextEntry_replays hone hroom (opAllowed_live hlive hop) hp'
  refine Goes.bind (append_goes (P := fun journal d' =>
      journal = writerOf (entries ++ [nextEntry cr entries OP_INSERT id payload]) ∧
      d' = { d with journal := some (bytes ++ frame (nextEntry cr entries OP_INSERT id payload).encode) }) rfl
    hreplay hp hC ⟨_, rfl⟩ ⟨_, rfl⟩ ⟨rfl, rfl⟩) ?_
  rintro _ _ ⟨rfl, rfl⟩
  refine append_goes rfl hone hp' hC ⟨_, rfl⟩ ⟨_, rfl⟩ ⟨_, _, rfl, htwo, rfl, by simp, fun i => ?_⟩
  rw [stateOf_snoc, stateOf_snoc]
  show (if i = id then _ else if i = id then _ else _) = _
  by_cases hi : i = id
  · rw [if_pos hi, if_pos hi]
    rcases hop with rfl | rfl <;> rfl
  · rw [if_neg hi, if_neg hi, if_neg hi]

instance : LawfulBEq U64 := inferInstance

/-- The journal of the ids adopted so far. -/
def Adopted (cr : Crypto) (d : Disk) (disk : U64Map DiskState) (behind : List (U64 × DiskState)) (journal : Journal)
    (d' : Disk) : Prop :=
  ∃ bytes entries, d' = { d with journal := some bytes } ∧ journalReplay cr bytes = .ok entries ∧
    journal = writerOf entries ∧ entries.length ≤ 2 * behind.length ∧
    ∀ id, stateOf entries id = if id ∈ behind.map (·.1) then (disk[id]?).map DiskState.adopted else none

theorem adopt_goes {disk : U64Map DiskState} (hdisk : ∀ id, disk[id]? = d.state cr id) (hsized : DigestSized disk)
    (hfew : 2 * disk.toList.length < 2 ^ 64) (hj : d.journal = some [])
    (hC : ∀ s t, FsStep.Within d.Journaling s t → C s t) :
    Goes C d (adopt cr (writerOf []) disk) (Adopted cr d disk disk.toList) E := by
  have hstart : Adopted cr d disk [] (writerOf []) d := by
    refine ⟨[], [], ?_, rfl, rfl, Nat.zero_le _, fun id => rfl⟩
    rw [← hj]
  unfold adopt
  refine Goes.foldlM disk.toList hstart ?_
  rintro behind ⟨id, s⟩ rest journal d' hlist ⟨bytes, entries, rfl, hreplay, rfl, hlen, hstates⟩
  obtain ⟨hget, hnew⟩ := entry_next hlist
  have hroom : entries.length + 2 < 2 ^ 64 := by
    rw [hlist, List.length_append, List.length_cons] at hfew
    omega
  have hfresh : stateOf entries id = none := by rw [hstates, if_neg hnew]
  -- the states of the ids behind, with this one's
  have hnext : ∀ entries' : List JournalEntry,
      (∀ i, stateOf entries' i = if i = id then some s.adopted else stateOf entries i) →
      ∀ i, stateOf entries' i =
        if i ∈ (behind ++ [(id, s)]).map (·.1) then (disk[i]?).map DiskState.adopted else none := by
    intro entries' h i
    rw [h i]
    by_cases hi : i = id
    · rw [if_pos hi, if_pos (by simp [hi]), hi, hget]
      rfl
    · have hiff : i ∈ (behind ++ [(id, s)]).map (·.1) ↔ i ∈ behind.map (·.1) := by simp [hi]
      rw [if_neg hi, hstates]
      simp only [hiff]
  have hlength : (behind ++ [(id, s)]).length = behind.length + 1 := by simp
  cases s with
  | live h =>
    have hp := hsized id h (Or.inl hget)
    have hone := nextEntry_replays hreplay (by omega) (opAllowed_fresh hfresh (Or.inl rfl)) hp
    refine append_goes rfl hreplay hp hC ⟨_, rfl⟩ ⟨_, rfl⟩ ⟨_, _, rfl, hone, rfl, ?_, hnext _ fun i => ?_⟩
    · rw [List.length_append, List.length_singleton, hlength]
      omega
    · rw [stateOf_snoc]
      rfl
  | consumed h =>
    have hp := hsized id h (Or.inr hget)
    refine (appendBoth_goes hreplay hroom hfresh hp hp (Or.inl rfl) hC).conseq (fun _ _ h => h) ?_ fun _ _ h => h
    rintro journal d' ⟨bytes', entries', rfl, hreplay', rfl, hlen', hstates'⟩
    exact ⟨bytes', entries', rfl, hreplay', rfl, by omega, hnext _ hstates'⟩
  | expired =>
    have hp : (payloadDigest cr []).length = 32 := payloadDigest_length cr []
    refine (appendBoth_goes hreplay hroom hfresh (by decide) hp (Or.inr rfl) hC).conseq
      (fun _ _ h => h) ?_ fun _ _ h => h
    rintro journal d' ⟨bytes', entries', rfl, hreplay', rfl, hlen', hstates'⟩
    exact ⟨bytes', entries', rfl, hreplay', rfl, by omega, hnext _ hstates'⟩

end Adopt

/-! ## Lemmas: reconciliation -/

/-- The heals of some journaled ids. -/
structure Pending (cr : Crypto) (disk : U64Map DiskState) (journaled : List (U64 × JournalState))
    (heals : List HealOp) : Prop where
  nodup : (heals.map (·.id)).Nodup
  completes : ∀ heal ∈ heals, (∃ digest, (heal.id, JournalState.live digest) ∈ journaled) ∧
    heal.Completes cr disk[heal.id]?
  rest : ∀ e ∈ journaled, e.1 ∉ heals.map (·.id) → disk[e.1]? = some e.2.artifact

/-- One turn of `reconcile_journal`. -/
def reconcileStep (cr : Crypto) (disk : U64Map DiskState) (heals : List HealOp) (e : U64 × JournalState) :
    Except String (List HealOp) := do
  let new ← reconcileOne cr e.1 e.2 disk[e.1]?
  return heals ++ new

theorem reconcile_ok {cr : Crypto} {disk : U64Map DiskState} (l : List (U64 × JournalState))
    (hnodup : (l.map (·.1)).Nodup) (h : ∀ e ∈ l, ∃ hs, reconcileOne cr e.1 e.2 disk[e.1]? = .ok hs) :
    ∃ heals, l.foldlM (reconcileStep cr disk) [] = .ok heals ∧ Pending cr disk l heals := by
  induction l using List.reverseRecOn with
  | nil => exact ⟨[], rfl, List.nodup_nil, fun _ h => absurd h List.not_mem_nil, fun _ h => absurd h List.not_mem_nil⟩
  | append_singleton l e ih =>
    rw [List.map_append, List.nodup_append] at hnodup
    obtain ⟨hprev, -, hnew⟩ := hnodup
    obtain ⟨heals, hfold, hpending⟩ := ih hprev fun e he => h e (List.mem_append_left _ he)
    obtain ⟨hs, hone⟩ := h e (List.mem_append_right _ (List.mem_singleton_self e))
    have hrun : (l ++ [e]).foldlM (reconcileStep cr disk) [] = .ok (heals ++ hs) := by
      rw [List.foldlM_append, hfold]
      show (reconcileStep cr disk heals e >>= fun out => _) = _
      unfold reconcileStep
      rw [hone]
      rfl
    refine ⟨heals ++ hs, hrun, ?_⟩
    have hlater : ∀ heal ∈ heals, (∃ digest, (heal.id, JournalState.live digest) ∈ l ++ [e]) ∧
        heal.Completes cr disk[heal.id]? := by
      intro heal hheal
      obtain ⟨⟨digest, hmem⟩, hcompletes⟩ := hpending.completes heal hheal
      exact ⟨⟨digest, List.mem_append_left _ hmem⟩, hcompletes⟩
    rcases reconcileOne_cases cr e.1 e.2 disk[e.1]? with ⟨hfound, hok⟩ | ⟨-, digest, heal, hlive, hid, hcompletes, hok⟩ |
      ⟨-, msg, herr⟩
    · obtain rfl : [] = hs := Except.ok.inj (hok.symm.trans hone)
      rw [List.append_nil]
      refine ⟨hpending.nodup, hlater, fun e' he' hout => ?_⟩
      rcases List.mem_append.mp he' with he' | he'
      · exact hpending.rest e' he' hout
      · rw [List.mem_singleton.mp he']
        exact hfound
    · obtain rfl : [heal] = hs := Except.ok.inj (hok.symm.trans hone)
      refine ⟨?_, fun heal' hmem => ?_, fun e' he' hout => ?_⟩
      · rw [List.map_append, List.nodup_append]
        refine ⟨hpending.nodup, List.nodup_singleton _, fun i hi i' hi' heq => ?_⟩
        obtain ⟨heal', hheal', rfl⟩ := List.mem_map.mp hi
        obtain ⟨⟨digest', hmem⟩, -⟩ := hpending.completes heal' hheal'
        rw [List.map_singleton, List.mem_singleton] at hi'
        refine hnew heal'.id (List.mem_map.mpr ⟨_, hmem, rfl⟩) e.1 (by simp) ?_
        rw [heq, hi', hid]
      · rcases List.mem_append.mp hmem with hmem | hmem
        · exact hlater heal' hmem
        · rw [List.mem_singleton.mp hmem, hid]
          exact ⟨⟨digest, List.mem_append_right _ (by rw [← hlive]; exact List.mem_singleton_self e)⟩, hcompletes⟩
      · rw [List.map_append, List.mem_append, not_or] at hout
        rcases List.mem_append.mp he' with he' | he'
        · exact hpending.rest e' he' hout.1
        · refine absurd ?_ hout.2
          rw [List.mem_singleton.mp he', List.map_singleton, List.mem_singleton, hid]
    · rw [herr] at hone
      cases hone

theorem reconcile_error {cr : Crypto} {disk : U64Map DiskState} (l : List (U64 × JournalState)) (acc : List HealOp)
    {e : U64 × JournalState} (he : e ∈ l) (h : ∀ hs, reconcileOne cr e.1 e.2 disk[e.1]? ≠ .ok hs) :
    ∃ msg, l.foldlM (reconcileStep cr disk) acc = .error msg := by
  induction l generalizing acc with
  | nil => cases he
  | cons e' l ih =>
    rw [List.foldlM_cons]
    cases hstep : reconcileStep cr disk acc e' with
    | error msg => exact ⟨msg, rfl⟩
    | ok acc' =>
      rcases List.mem_cons.mp he with rfl | he
      · obtain ⟨hs, hone, -⟩ := ok_of_bind hstep
        exact absurd hone (h hs)
      · exact ih acc' he

/-- What the journal says of its ids. -/
theorem mem_journalStates {entries : List JournalEntry} {id : U64} {j : JournalState} :
    (id, j) ∈ (journalStates entries).toList ↔ stateOf entries id = some j := by
  rw [Std.ExtTreeMap.mem_toList_iff_getElem?_eq_some, journalStates_getElem?]

theorem Pending.nil {cr : Crypto} {entries : List JournalEntry} {disk : U64Map DiskState} {heals : List HealOp}
    (h : Pending cr disk (journalStates entries).toList heals)
    (hsettled : ∀ id j, stateOf entries id = some j → disk[id]? = some j.artifact) : heals = [] := by
  cases heals with
  | nil => rfl
  | cons heal heals =>
    obtain ⟨⟨digest, hlive⟩, hcompletes⟩ := h.completes heal List.mem_cons_self
    rw [hsettled _ _ (mem_journalStates.mp hlive)] at hcompletes
    rcases hcompletes with ⟨-, heq⟩ | ⟨-, -, heq⟩ <;> cases heq

theorem Pending.length_le {cr : Crypto} {entries : List JournalEntry} {disk : U64Map DiskState} {heals : List HealOp}
    (h : Pending cr disk (journalStates entries).toList heals) : heals.length ≤ entries.length := by
  have hsub : heals.map (·.id) ⊆ entries.map (·.id) := by
    intro id hid
    obtain ⟨heal, hheal, rfl⟩ := List.mem_map.mp hid
    obtain ⟨⟨digest, hlive⟩, -⟩ := h.completes heal hheal
    obtain ⟨e, he, -⟩ := Option.map_eq_some_iff.mp (mem_journalStates.mp hlive)
    obtain ⟨hmem, hid⟩ := mem_of_lastEntry he
    exact List.mem_map.mpr ⟨e, hmem, hid⟩
  have := (List.subperm_of_subset h.nodup hsub).length_le
  rwa [List.length_map, List.length_map] at this

/-- **Reconciliation** fails at an id that is neither as journaled nor a call away from it. -/
theorem reconcileJournal_cases (cr : Crypto) (entries : List JournalEntry) (disk : U64Map DiskState) :
    (∃ heals, reconcileJournal cr (journalStates entries) disk = .ok heals ∧
      Pending cr disk (journalStates entries).toList heals ∧
      ∀ id j, stateOf entries id = some j → ∃ hs, reconcileOne cr id j disk[id]? = .ok hs) ∨
    ∃ msg id j, reconcileJournal cr (journalStates entries) disk = .error msg ∧ stateOf entries id = some j ∧
      ∀ hs, reconcileOne cr id j disk[id]? ≠ .ok hs := by
  by_cases hall : ∀ e ∈ (journalStates entries).toList, ∃ hs, reconcileOne cr e.1 e.2 disk[e.1]? = .ok hs
  · obtain ⟨heals, hrun, hpending⟩ := reconcile_ok _ (nodup_keys_toList _) hall
    exact Or.inl ⟨heals, hrun, hpending, fun id j hj => hall (id, j) (mem_journalStates.mpr hj)⟩
  · push Not at hall
    obtain ⟨e, he, hbad⟩ := hall
    obtain ⟨msg, hrun⟩ := reconcile_error (journalStates entries).toList [] he hbad
    exact Or.inr ⟨msg, e.1, e.2, hrun, mem_journalStates.mp he, hbad⟩

section Heal

variable {cr : Crypto} {d : Disk} {C : Disk → FsStep → Prop} {E : PersistError → Disk → Prop}

/-- The journal with some of the heals. -/
def Healed (cr : Crypto) (d : Disk) (entries : List JournalEntry) (disk : U64Map DiskState) (behind : List HealOp)
    (out : Journal × U64Map DiskState) (d' : Disk) : Prop :=
  ∃ bytes' entries', d' = { d with journal := some bytes' } ∧ journalReplay cr bytes' = .ok entries' ∧
    out.1 = writerOf entries' ∧ (∀ id : U64, out.2[id]? = disk[id]?) ∧ entries'.length = entries.length + behind.length ∧
    (behind = [] → entries' = entries) ∧
    ∀ id, stateOf entries' id =
      if id ∈ behind.map (·.id) then (disk[id]?).map DiskState.adopted else stateOf entries id

/-- A journal with some of the heals recovers. -/
theorem Healed.recovering {entries : List JournalEntry} {disk : U64Map DiskState} {heals behind : List HealOp}
    {out : Journal × U64Map DiskState} {d' : Disk} (h : Healed cr d entries disk behind out d') (hsub : behind ⊆ heals)
    (hdisk : ∀ id, disk[id]? = d.state cr id) (hpending : Pending cr disk (journalStates entries).toList heals)
    (hok : ∀ id j, stateOf entries id = some j → ∃ hs, reconcileOne cr id j disk[id]? = .ok hs) :
    Recovering cr d entries d' := by
  obtain ⟨bytes', entries', rfl, hreplay', -, -, -, -, hstates⟩ := h
  refine ⟨bytes', entries', rfl, hreplay', fun id j hj => ?_, fun id => ?_⟩
  · rw [hstates] at hj
    rw [← hdisk]
    split at hj
    · obtain ⟨s, hs, rfl⟩ := Option.map_eq_some_iff.mp hj
      rw [hs]
      refine ⟨[], ?_⟩
      cases s <;> exact reconcileOne_artifact cr id _
    · exact hok id j hj
  · rw [hstates]
    split
    · next hin =>
      obtain ⟨heal, hheal, rfl⟩ := List.mem_map.mp hin
      obtain ⟨⟨digest, hlive⟩, hcompletes⟩ := hpending.completes heal (hsub hheal)
      rw [mem_journalStates.mp hlive]
      rcases hcompletes with ⟨-, hfound⟩ | ⟨-, -, hfound⟩ <;> rw [hfound] <;> simp
    · exact Iff.rfl

theorem heal_goes {bytes : Bytes} {entries : List JournalEntry} {disk : U64Map DiskState} {heals : List HealOp}
    (hj : d.journal = some bytes) (hreplay : journalReplay cr bytes = .ok entries)
    (hlen : entries.length + heals.length < 2 ^ 64) (hdisk : ∀ id, disk[id]? = d.state cr id)
    (hsized : DigestSized disk) (hpending : Pending cr disk (journalStates entries).toList heals)
    (hok : ∀ id j, stateOf entries id = some j → ∃ hs, reconcileOne cr id j disk[id]? = .ok hs)
    (hC : ∀ s t, FsStep.Within (Recovering cr d entries) s t → C s t) :
    Goes C d (heal cr heals (writerOf entries) disk) (Healed cr d entries disk heals) E := by
  have hstart : Healed cr d entries disk [] (writerOf entries, disk) d := by
    refine ⟨bytes, entries, ?_, hreplay, rfl, fun _ => rfl, rfl, fun _ => rfl, fun _ => rfl⟩
    rw [← hj]
  unfold heal
  refine Goes.foldlM heals hstart ?_
  rintro behind h rest ⟨journal, truth⟩ d' hlist hnow
  have hbehind := hnow
  obtain ⟨bytes', entries', rfl, hreplay', hjournal, htruth, hlen', -, hstates⟩ := hbehind
  obtain rfl : journal = writerOf entries' := hjournal
  have hmem : h ∈ heals := by
    rw [hlist]
    exact List.mem_append_right _ List.mem_cons_self
  obtain ⟨⟨digest, hlive⟩, hcompletes⟩ := hpending.completes h hmem
  have hnodup := hpending.nodup
  rw [hlist, List.map_append, List.map_cons] at hnodup
  have hnew : h.id ∉ behind.map (·.id) := fun hin =>
    (List.nodup_append.mp hnodup).2.2 _ hin _ List.mem_cons_self rfl
  have hstate : stateOf entries' h.id = some (.live digest) := by
    rw [hstates, if_neg hnew]
    exact mem_journalStates.mp hlive
  have hroom : entries'.length + 1 < 2 ^ 64 := by
    rw [hlist, List.length_append, List.length_cons] at hlen
    omega
  -- the healed state is the tombstone that was found
  obtain ⟨hop, hpayload, hfound⟩ : (h.op = OP_CONSUME ∨ h.op = OP_EXPIRE) ∧ h.payload.length = 32 ∧
      disk[h.id]? = some (if h.op = OP_CONSUME then DiskState.consumed h.payload else .expired) := by
    rcases hcompletes with ⟨hop, hfound⟩ | ⟨hop, hpayload, hfound⟩
    · exact ⟨Or.inl hop, hsized h.id h.payload (Or.inr hfound), by rw [hop]; exact hfound⟩
    · refine ⟨Or.inr hop, ?_, by rw [hop]; exact hfound⟩
      rw [hpayload]
      exact payloadDigest_length cr []
  have hone := nextEntry_replays hreplay' hroom (opAllowed_live hstate hop) hpayload
  have hnext : Healed cr d entries disk (behind ++ [h])
      (writerOf (entries' ++ [nextEntry cr entries' h.op h.id h.payload]),
        truth.insert h.id (if h.op = OP_CONSUME then DiskState.consumed h.payload else .expired))
      { d with journal := some (bytes' ++ frame (nextEntry cr entries' h.op h.id h.payload).encode) } := by
    refine ⟨_, _, rfl, hone, rfl, fun id => ?_, by simp; omega, fun hnil => absurd hnil (by simp), fun id => ?_⟩
    · show (truth.insert h.id _)[id]? = _
      rw [getElem?_insert_word]
      by_cases hid : id = h.id
      · rw [if_pos hid, hid, hfound]
      · rw [if_neg hid]
        exact htruth id
    · rw [stateOf_snoc]
      show (if id = h.id then _ else _) = _
      by_cases hid : id = h.id
      · rw [if_pos hid, if_pos (by simp [hid]), hid, hfound]
        rcases hop with hop | hop
        · simp [hop, entryState, DiskState.adopted, nextEntry, JournalEntry.new, OP_CONSUME, OP_INSERT]
        · simp [hop, entryState, DiskState.adopted, nextEntry, JournalEntry.new, OP_CONSUME, OP_INSERT, OP_EXPIRE]
      · have hiff : id ∈ (behind ++ [h]).map (·.id) ↔ id ∈ behind.map (·.id) := by simp [hid]
        rw [if_neg hid, hstates]
        simp only [hiff]
  have hsub : behind ++ [h] ⊆ heals := by
    rw [hlist]
    exact fun x hx => by simp at hx ⊢; tauto
  refine Goes.bind (append_goes (P := fun journal d' =>
      journal = writerOf (entries' ++ [nextEntry cr entries' h.op h.id h.payload]) ∧
      d' = { d with journal := some (bytes' ++ frame (nextEntry cr entries' h.op h.id h.payload).encode) }) rfl hreplay'
    hpayload hC (hnow.recovering (fun _ hx => hsub (List.mem_append_left _ hx)) hdisk hpending hok)
    (hnext.recovering hsub hdisk hpending hok) ⟨rfl, rfl⟩) ?_
  rintro _ _ ⟨rfl, rfl⟩
  exact Goes.pure hnext

end Heal

section Drop

variable {cr : Crypto} {d : Disk} {C : Disk → FsStep → Prop} {E : PersistError → Disk → Prop}

/-- A record that the journal does not know. -/
def unaccounted (journaled : Option JournalState) (found : Option DiskState) : Bool :=
  journaled.isNone && found.any DiskState.isLive

/-- Some of the unaccounted records dropped. -/
def Dropped (d : Disk) (journaled : U64Map JournalState) (disk : U64Map DiskState) (behind : List (U64 × DiskState))
    (truth : U64Map DiskState) (d' : Disk) : Prop :=
  ∃ presig, d' = { d with presig := presig } ∧
    (∀ id : U64, truth[id]? =
      if id ∈ behind.map (·.1) ∧ unaccounted journaled[id]? disk[id]? = true then none else disk[id]?) ∧
    ∀ id : U64, presig[id]? =
      if id ∈ behind.map (·.1) ∧ unaccounted journaled[id]? disk[id]? = true then none else d.presig[id]?

/-- The directory without some of its unaccounted records. -/
def Dropping (d : Disk) (journaled : U64Map JournalState) (disk : U64Map DiskState) (d' : Disk) : Prop :=
  ∃ presig, d' = { d with presig := presig } ∧
    ∀ id : U64, presig[id]? = d.presig[id]? ∨ presig[id]? = none ∧ unaccounted journaled[id]? disk[id]? = true

theorem Dropped.dropping {journaled : U64Map JournalState} {disk truth : U64Map DiskState} {behind : List (U64 × DiskState)}
    {d' : Disk} (h : Dropped d journaled disk behind truth d') : Dropping d journaled disk d' := by
  obtain ⟨presig, rfl, -, hpresig⟩ := h
  refine ⟨presig, rfl, fun id => ?_⟩
  rw [hpresig]
  split
  · next hin => exact Or.inr ⟨rfl, hin.2⟩
  · exact Or.inl rfl

theorem drop_goes {journaled : U64Map JournalState} {disk truth : U64Map DiskState}
    (hdisk : ∀ id, disk[id]? = d.state cr id) (htruth : ∀ id : U64, truth[id]? = disk[id]?)
    (hC : ∀ s t, FsStep.Within (Dropping d journaled disk) s t → C s t) :
    Goes C d (dropUnaccounted journaled disk truth) (Dropped d journaled disk disk.toList) E := by
  have hstart : Dropped d journaled disk [] truth d := by
    refine ⟨d.presig, rfl, fun id => ?_, fun id => ?_⟩
    · rw [htruth, if_neg (by simp)]
    · rw [if_neg (by simp)]
  unfold dropUnaccounted
  refine Goes.foldlM disk.toList hstart ?_
  rintro behind ⟨id, s⟩ rest truth' d' hlist hnow
  have hfiles := hnow
  obtain ⟨presig, rfl, htruth', hpresig⟩ := hfiles
  obtain ⟨hget, hnew⟩ := entry_next hlist
  have hin : ∀ i, i ∈ (behind ++ [(id, s)]).map (·.1) ↔ i ∈ behind.map (·.1) ∨ i = id := by simp
  have hcase : (!journaled.contains id) = true ∧ s.isLive = true ↔
      unaccounted journaled[id]? disk[id]? = true := by
    unfold unaccounted
    rw [hget, Std.ExtTreeMap.contains_eq_isSome_getElem?, Bool.and_eq_true]
    cases journaled[id]? <;> exact Iff.rfl
  by_cases hdrop : (!journaled.contains id) = true ∧ s.isLive = true
  · have hun := hcase.mp hdrop
    have hfile : ∃ b, presig[id]? = some b := by
      rw [hpresig, if_neg (fun h => hnew h.1)]
      have hstate := (hdisk id).symm.trans hget
      cases s with
      | live h =>
        unfold Disk.state Disk.tombstone at hstate
        cases hp : d.presig[id]? with
        | some b => exact ⟨b, rfl⟩
        | none =>
          rw [hp] at hstate
          cases hexp : d.expired[id]? <;> cases hcon : d.consumed[id]? <;> rw [hexp, hcon] at hstate <;> cases hstate
      | consumed h => cases hdrop.2
      | expired => cases hdrop.2
    obtain ⟨b, hb⟩ := hfile
    rw [if_pos hdrop]
    have hnext : Dropped d journaled disk (behind ++ [(id, s)]) (truth'.erase id) { d with presig := presig.erase id } := by
      refine ⟨_, rfl, fun i => ?_, fun i => ?_⟩
      · show (truth'.erase id)[i]? = _
        rw [getElem?_erase_word, htruth' i]
        by_cases hi : i = id
        · rw [if_pos hi, if_pos ⟨(hin i).mpr (Or.inr hi), by rw [hi]; exact hun⟩]
        · rw [if_neg hi]
          simp only [hin, hi, or_false]
      · rw [getElem?_erase_word, hpresig i]
        by_cases hi : i = id
        · rw [if_pos hi, if_pos ⟨(hin i).mpr (Or.inr hi), by rw [hi]; exact hun⟩]
        · rw [if_neg hi]
          simp only [hin, hi, or_false]
    refine (Goes.step (P := fun _ d'' => d'' = { d with presig := presig.erase id }) (FsStep.apply_removePresig
      (d := { d with presig := presig }) hb) (hC _ _ (FsStep.Within.removePresig hb hnow.dropping hnext.dropping)) rfl).bind
      fun _ d'' hd'' => ?_
    subst hd''
    exact Goes.pure hnext
  · have hun : ¬ unaccounted journaled[id]? disk[id]? = true := fun h => hdrop (hcase.mpr h)
    have hsame : ∀ i, i ∈ (behind ++ [(id, s)]).map (·.1) ∧ unaccounted journaled[i]? disk[i]? = true ↔
        i ∈ behind.map (·.1) ∧ unaccounted journaled[i]? disk[i]? = true := by
      intro i
      rw [hin]
      constructor
      · rintro ⟨hi | hi, hu⟩
        · exact ⟨hi, hu⟩
        · rw [hi] at hu
          exact absurd hu hun
      · rintro ⟨hi, hu⟩
        exact ⟨Or.inl hi, hu⟩
    rw [if_neg hdrop]
    refine Goes.pure ⟨presig, rfl, fun i => ?_, fun i => ?_⟩
    · rw [htruth' i]
      simp only [hsame i]
    · rw [hpresig i]
      simp only [hsame i]

end Drop

end OhmEcdsa
