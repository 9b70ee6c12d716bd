import OhmEcdsa.Core.Codec
import OhmEcdsa.Core.Presign
import OhmEcdsa.Support.Frames

/-!
# The store's journal (`store/persist.rs`)

Every mutation of the store is one framed entry, chained to the one before it by its
hash.  A journal that replays, replays with one more entry exactly when that entry is
the next link and its operation is one the id's last entry allows:

    journalReplay bytes = ok entries → (e.Follows entries ↔
      journalReplay (bytes ++ frame e.encode) = ok (entries ++ [e]))     (journalReplay_snoc)
-/

set_option linter.unusedSectionVars false

namespace OhmEcdsa

open Codec Decoder

/-- SHA-256 and, under the node's storage key, ChaCha20-Poly1305 (nonce, associated
data, message). -/
structure Crypto where
  sha256 : Bytes → Bytes
  sha256_length : ∀ b, (sha256 b).length = 32
  encrypt : Bytes → Bytes → Bytes → Bytes
  decrypt : Bytes → Bytes → Bytes → Option Bytes
  decrypt_encrypt : ∀ nonce aad msg, decrypt nonce aad (encrypt nonce aad msg) = some msg

/-! ## Algorithm -/

def journalTag : Bytes := utf8 "OHM-ECDSA-node/v0.1/store-journal"

def payloadTag : Bytes := utf8 "OHM-ECDSA-node/v0.1/store-payload"

def OP_INSERT : UInt8 := 1
def OP_CONSUME : UInt8 := 2
def OP_EXPIRE : UInt8 := 3
/-- A never-inserted id. -/
def OP_BURN : UInt8 := 4

def zeroHash : Bytes := List.replicate 32 0

/-- The digest of the artifact an entry accounts for. -/
def payloadDigest (cr : Crypto) (bytes : Bytes) : Bytes := cr.sha256 (payloadTag ++ bytes)

/-- One link of the chain. -/
def entryDigest (cr : Crypto) (seq : Nat) (op : UInt8) (id : U64) (prev payload : Bytes) : Bytes :=
  cr.sha256 (journalTag ++ u64Bytes seq ++ [op] ++ u64Bytes id.val ++ prev ++ payload)

structure JournalEntry where
  seq : Nat
  op : UInt8
  id : U64
  prev : Bytes
  payload : Bytes
  hash : Bytes
  deriving DecidableEq

namespace JournalEntry

def new (cr : Crypto) (seq : Nat) (op : UInt8) (id : U64) (prev payload : Bytes) : JournalEntry :=
  ⟨seq, op, id, prev, payload, entryDigest cr seq op id prev payload⟩

def encode (e : JournalEntry) : Bytes :=
  u64Bytes e.seq ++ [e.op] ++ u64Bytes e.id.val ++ e.prev ++ e.payload ++ e.hash

def decodePrefix : Decoder JournalEntry := do
  let seq ← takeU64
  let op ← takeByte
  let id ← takeU64 >>= fun v => ofOption (usizeOf v)
  let prev ← takeN 32
  let payload ← takeN 32
  let hash ← takeN 32
  return ⟨seq, op, id, prev, payload, hash⟩

/-- No trailing bytes. -/
def decode (b : Bytes) : Option JournalEntry := decodePrefix.exactly b

end JournalEntry

/-- `entries.iter().rev().find(|l| l.id == id)`. -/
def lastEntry (entries : List JournalEntry) (id : U64) : Option JournalEntry :=
  entries.reverse.find? (·.id == id)

/-- `entries.last().map(|l| l.hash).unwrap_or(ZERO_HASH)`. -/
def tipOf (entries : List JournalEntry) : Bytes := (entries.getLast?.map (·.hash)).getD zeroHash

/-- One turn of `journal_replay`. -/
def replayEntry (cr : Crypto) (entries : List JournalEntry) (body : Bytes) : Except String (List JournalEntry) :=
  let n := entries.length + 1
  let entry := "journal entry " ++ toString n
  match JournalEntry.decode body with
  | none => .error (entry ++ " is not canonical")
  | some e =>
    if e.seq ≠ n then
      .error ("journal entry seq " ++ toString e.seq ++ " out of order (expected " ++ toString n ++ ")")
    else if e.prev ≠ tipOf entries then .error (entry ++ " breaks the hash chain (prev_hash)")
    else if e.hash ≠ entryDigest cr e.seq e.op e.id e.prev e.payload then .error (entry ++ " has a wrong entry_hash")
    else
      let known := entries.any (·.id == e.id)
      let live := (lastEntry entries e.id).map (·.op) == some OP_INSERT
      if e.op = OP_INSERT ∧ !known ∨ (e.op = OP_CONSUME ∨ e.op = OP_EXPIRE) ∧ live ∨ e.op = OP_BURN ∧ !known then
        .ok (entries ++ [e])
      else if e.op = OP_INSERT then .error (entry ++ " re-inserts id " ++ toString e.id.val)
      else if e.op = OP_CONSUME ∨ e.op = OP_EXPIRE then .error (entry ++ " mutates non-live id " ++ toString e.id.val)
      else if e.op = OP_BURN then .error (entry ++ " re-burns id " ++ toString e.id.val)
      else .error (entry ++ " has unknown op " ++ toString e.op.toNat)

def journalCut (entries : List JournalEntry) : Cut → String
  | .header => "journal truncated before entry " ++ toString (entries.length + 1)
  | .body => "journal truncated inside entry " ++ toString (entries.length + 1)

/-- `journal_replay`. -/
def journalReplay (cr : Crypto) (bytes : Bytes) : Except String (List JournalEntry) :=
  readLog (replayEntry cr) journalCut [] bytes

/-! ## Specification -/

/-- The operation is one that the id's last entry allows. -/
def OpAllowed (last : Option JournalEntry) (op : UInt8) : Prop :=
  match last with
  | none => op = OP_INSERT ∨ op = OP_BURN
  | some l => l.op = OP_INSERT ∧ (op = OP_CONSUME ∨ op = OP_EXPIRE)

/-- `e` is the next link after `entries`. -/
structure JournalEntry.Follows (cr : Crypto) (entries : List JournalEntry) (e : JournalEntry) : Prop where
  seq : e.seq = entries.length + 1
  prev : e.prev = tipOf entries
  hash : e.hash = entryDigest cr e.seq e.op e.id e.prev e.payload
  op : OpAllowed (lastEntry entries e.id) e.op

/-- The sizes of an entry's fields. -/
structure JournalEntry.Fits (e : JournalEntry) : Prop where
  seq : e.seq < 2 ^ 64
  prev : e.prev.length = 32
  payload : e.payload.length = 32
  hash : e.hash.length = 32

/-! ## Lemmas -/

theorem JournalEntry.decode_lawful : Lawful JournalEntry.encode JournalEntry.decodePrefix JournalEntry.Fits := by
  intro n
  refine ((takeU64_reads n).bind' fun seq => Reads.takeByte.bind' fun op =>
    ((takeU64_reads n).bind' fun v => Reads.ofOption (usizeOf v)).bind' fun id =>
    (Reads.takeN 32).bind' fun prev => (Reads.takeN 32).bind' fun payload => (Reads.takeN 32).bind' fun hash =>
    Reads.pure (⟨seq, op, id, prev, payload, hash⟩ : JournalEntry)).congr fun v w => ?_
  constructor
  · rintro ⟨seq, _, _, ⟨hseq, rfl⟩, ⟨op, _, _, rfl, ⟨id, _, _, ⟨i, _, _, ⟨-, rfl⟩, ⟨hid, rfl⟩, rfl⟩, ⟨prev, _, _,
      ⟨rfl, hprev⟩, ⟨payload, _, _, ⟨rfl, hpayload⟩, ⟨hash, _, _, ⟨rfl, hhash⟩, ⟨rfl, rfl⟩, rfl⟩, rfl⟩, rfl⟩, rfl⟩,
      rfl⟩, rfl⟩
    obtain rfl := usizeOf_iff.mp hid
    exact ⟨⟨hseq, hprev, hpayload, hhash⟩, by simp [JournalEntry.encode]⟩
  · rintro ⟨hfits, rfl⟩
    exact ⟨v.seq, _, _, ⟨hfits.seq, rfl⟩, ⟨v.op, _, _, rfl, ⟨v.id, _, _, ⟨v.id.val, _, [], ⟨v.id.isLt, rfl⟩,
      ⟨usizeOf_val v.id, rfl⟩, rfl⟩, ⟨v.prev, _, _, ⟨rfl, hfits.prev⟩, ⟨v.payload, _, _, ⟨rfl, hfits.payload⟩,
      ⟨v.hash, _, [], ⟨rfl, hfits.hash⟩, ⟨rfl, rfl⟩, rfl⟩, rfl⟩, rfl⟩, rfl⟩, rfl⟩, by simp [JournalEntry.encode]⟩

theorem JournalEntry.decode_eq_some {b : Bytes} {e : JournalEntry} :
    JournalEntry.decode b = some e ↔ e.Fits ∧ b = e.encode := Reads.exactly (JournalEntry.decode_lawful _) e

theorem JournalEntry.Fits.encode_length {e : JournalEntry} (h : e.Fits) : e.encode.length < 2 ^ 32 := by
  simp [JournalEntry.encode, u64Bytes, h.prev, h.payload, h.hash]

theorem mem_of_lastEntry {entries : List JournalEntry} {id : U64} {e : JournalEntry} (h : lastEntry entries id = some e) :
    e ∈ entries ∧ e.id = id := by
  have hfound := List.find?_some h
  exact ⟨List.mem_reverse.mp (List.mem_of_find?_eq_some h), by simpa using hfound⟩

theorem lastEntry_eq_none {entries : List JournalEntry} {id : U64} :
    lastEntry entries id = none ↔ (entries.any (·.id == id)) = false := by
  unfold lastEntry
  rw [List.find?_eq_none, List.any_eq_false]
  simp

theorem lastEntry_snoc (entries : List JournalEntry) (e : JournalEntry) (id : U64) :
    lastEntry (entries ++ [e]) id = if e.id = id then some e else lastEntry entries id := by
  unfold lastEntry
  rw [List.reverse_append, List.reverse_singleton, List.singleton_append, List.find?_cons]
  by_cases hid : e.id = id
  · simp [hid]
  · rw [if_neg hid, beq_eq_false_iff_ne.mpr hid]

theorem tipOf_snoc (entries : List JournalEntry) (e : JournalEntry) : tipOf (entries ++ [e]) = e.hash := by
  unfold tipOf
  rw [List.getLast?_concat]
  rfl

/-- **One turn of the replay** accepts exactly the next link. -/
theorem replayEntry_ok_iff {cr : Crypto} {entries out : List JournalEntry} {body : Bytes} :
    replayEntry cr entries body = .ok out ↔
      ∃ e : JournalEntry, e.Fits ∧ e.Follows cr entries ∧ body = e.encode ∧ out = entries ++ [e] := by
  have hallowed : ∀ e : JournalEntry, (e.op = OP_INSERT ∧ (!entries.any (·.id == e.id)) = true ∨
      (e.op = OP_CONSUME ∨ e.op = OP_EXPIRE) ∧ ((lastEntry entries e.id).map (·.op) == some OP_INSERT) = true ∨
      e.op = OP_BURN ∧ (!entries.any (·.id == e.id)) = true) ↔ OpAllowed (lastEntry entries e.id) e.op := by
    intro e
    have hknown : lastEntry entries e.id = none ↔ (entries.any (·.id == e.id)) = false := lastEntry_eq_none
    cases hlast : lastEntry entries e.id with
    | none =>
      rw [hknown.mp hlast]
      simp [OpAllowed]
    | some l =>
      have hany : entries.any (·.id == e.id) = true := by
        by_contra hany
        rw [hknown.mpr (by simpa using hany)] at hlast
        cases hlast
      rw [hany]
      simp [OpAllowed, and_comm]
  unfold replayEntry
  constructor
  · intro h
    simp only at h
    split at h
    · cases h
    · next e hdecode =>
      obtain ⟨hfits, rfl⟩ := JournalEntry.decode_eq_some.mp hdecode
      split at h
      · cases h
      · next hseq =>
        split at h
        · cases h
        · next hprev =>
          split at h
          · cases h
          · next hhash =>
            rw [not_not] at hseq hprev hhash
            split at h
            · next hop => exact ⟨e, hfits, ⟨hseq, hprev, hhash, (hallowed e).mp hop⟩, rfl, (Except.ok.inj h).symm⟩
            · split at h
              · cases h
              · split at h
                · cases h
                · split at h <;> cases h
  · rintro ⟨e, hfits, hfollows, rfl, rfl⟩
    rw [JournalEntry.decode_eq_some.mpr ⟨hfits, rfl⟩]
    simp only
    rw [if_neg (not_not.mpr hfollows.seq), if_neg (not_not.mpr hfollows.prev), if_neg (not_not.mpr hfollows.hash),
      if_pos ((hallowed e).mpr hfollows.op)]

section Replay

variable {cr : Crypto} {bytes : Bytes} {entries : List JournalEntry}

theorem journalReplay_append (h : journalReplay cr bytes = .ok entries) (rest : Bytes) :
    journalReplay cr (bytes ++ rest) = readLog (replayEntry cr) journalCut entries rest := by
  obtain ⟨bodies, ⟨hbodies, rfl⟩, hfold⟩ := (readLog_ok_iff _ _).mp h
  unfold journalReplay
  rw [readLog_frames _ _ hbodies, hfold]
  rfl

/-- **One more entry** replays exactly when it is the next link. -/
theorem journalReplay_snoc (h : journalReplay cr bytes = .ok entries) {e : JournalEntry} (hfits : e.Fits) :
    e.Follows cr entries ↔ journalReplay cr (bytes ++ frame e.encode) = .ok (entries ++ [e]) := by
  have hframe := readLog_frame (replayEntry cr) journalCut hfits.encode_length entries []
  rw [List.append_nil] at hframe
  rw [journalReplay_append h, hframe]
  constructor
  · intro hfollows
    rw [replayEntry_ok_iff.mpr ⟨e, hfits, hfollows, rfl, rfl⟩]
    rfl
  · intro hok
    cases hstep : replayEntry cr entries e.encode with
    | error err =>
      rw [hstep] at hok
      cases hok
    | ok out =>
      obtain ⟨e', hfits', hfollows, hencode, -⟩ := replayEntry_ok_iff.mp hstep
      rw [JournalEntry.decode_lawful.injective hfits hfits' hencode]
      exact hfollows

/-- A replayed journal, link by link. -/
inductive Chained (cr : Crypto) : List JournalEntry → Prop
  | nil : Chained cr []
  | snoc {entries : List JournalEntry} {e : JournalEntry} (hprev : Chained cr entries) (hfits : e.Fits)
      (hfollows : e.Follows cr entries) : Chained cr (entries ++ [e])

theorem chained_of_replay (h : journalReplay cr bytes = .ok entries) : Chained cr entries := by
  obtain ⟨bodies, -, hfold⟩ := (readLog_ok_iff _ _).mp h
  clear h
  induction bodies using List.reverseRecOn generalizing entries with
  | nil =>
    cases hfold
    exact Chained.nil
  | append_singleton bodies body ih =>
    rw [List.foldlM_append] at hfold
    cases hprev : bodies.foldlM (replayEntry cr) [] with
    | error err =>
      rw [hprev] at hfold
      cases hfold
    | ok before =>
      rw [hprev] at hfold
      simp only [List.foldlM_cons, List.foldlM_nil, bind, Except.bind] at hfold
      cases hstep : replayEntry cr before body with
      | error err =>
        rw [hstep] at hfold
        cases hfold
      | ok out =>
        rw [hstep] at hfold
        cases hfold
        obtain ⟨e, hfits, hfollows, -, rfl⟩ := replayEntry_ok_iff.mp hstep
        exact Chained.snoc (ih hprev) hfits hfollows

theorem Chained.tip_length (h : Chained cr entries) : (tipOf entries).length = 32 := by
  cases h with
  | nil => rfl
  | snoc hprev hfits hfollows =>
    rw [tipOf_snoc]
    exact hfits.hash

/-- An id's last entry and the operations of a chain. -/
theorem Chained.op (h : Chained cr entries) {e : JournalEntry} (he : e ∈ entries) :
    e.op = OP_INSERT ∨ e.op = OP_CONSUME ∨ e.op = OP_EXPIRE ∨ e.op = OP_BURN := by
  induction h with
  | nil => cases he
  | @snoc entries e' hprev hfits hfollows ih =>
    rcases List.mem_append.mp he with he | he
    · exact ih he
    · rw [List.mem_singleton.mp he]
      have hop := hfollows.op
      unfold OpAllowed at hop
      split at hop
      · exact hop.imp id fun h => Or.inr (Or.inr h)
      · exact Or.inr (hop.2.imp id Or.inl)

end Replay

end OhmEcdsa
