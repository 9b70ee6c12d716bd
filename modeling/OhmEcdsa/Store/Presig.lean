import OhmEcdsa.Store.Journal
import OhmEcdsa.Store.Transcript
import OhmEcdsa.Support.Steps

/-!
# The durable presignature store (`store/persist.rs`, `store/seal.rs`)

Each operation is a sequence of file-system steps; a process that is killed leaves the
directory as it was before some step, or with a file that the step had written a part
of.  `open` reads the directory, compares it with the journal and the transcript, and
heals what a kill can leave behind.
-/

set_option linter.unusedSectionVars false

namespace OhmEcdsa

open Codec Decoder Hoare

abbrev U64Map (ν : Type) := Std.ExtTreeMap U64 ν compare

/-! ## Algorithm: the directory -/

/-- The files of the store; others are not looked at. -/
structure Disk where
  key : Option Bytes
  keyTmp : Option Bytes
  presig : U64Map Bytes
  consumed : U64Map Bytes
  expired : U64Map Bytes
  tmp : U64Map Bytes
  journal : Option Bytes

/-- A step of the file system, durable when it returns. -/
inductive FsStep
  | writeKeyTmp (bytes : Bytes)
  | renameKey
  | writeTmp (id : U64) (bytes : Bytes)
  | renameToPresig (id : U64)
  | renameToExpired (id : U64)
  | renameToConsumed (id : U64)
  | removePresig (id : U64)
  | removeTmp (id : U64)
  | createJournal
  | append (bytes : Bytes)

namespace FsStep

/-- The directory after the step, unless the file it takes is missing. -/
def apply : FsStep → Disk → Option Disk
  | .writeKeyTmp bytes, d => some { d with keyTmp := some bytes }
  | .renameKey, d => d.keyTmp.map fun b => { d with keyTmp := none, key := some b }
  | .writeTmp id bytes, d => some { d with tmp := d.tmp.insert id bytes }
  | .renameToPresig id, d => d.tmp[id]?.map fun b => { d with tmp := d.tmp.erase id, presig := d.presig.insert id b }
  | .renameToExpired id, d => d.tmp[id]?.map fun b => { d with tmp := d.tmp.erase id, expired := d.expired.insert id b }
  | .renameToConsumed id, d =>
    d.presig[id]?.map fun b => { d with presig := d.presig.erase id, consumed := d.consumed.insert id b }
  | .removePresig id, d => d.presig[id]?.map fun _ => { d with presig := d.presig.erase id }
  | .removeTmp id, d => d.tmp[id]?.map fun _ => { d with tmp := d.tmp.erase id }
  | .createJournal, d => some { d with journal := some (d.journal.getD []) }
  | .append bytes, d => d.journal.map fun j => { d with journal := some (j ++ bytes) }

/-- The directory when the process is killed with `k` bytes of the step written. -/
def torn (k : Nat) : FsStep → Disk → Disk
  | .writeKeyTmp bytes, d => { d with keyTmp := some (bytes.take k) }
  | .writeTmp id bytes, d => { d with tmp := d.tmp.insert id (bytes.take k) }
  | .append bytes, d => { d with journal := d.journal.map (· ++ bytes.take k) }
  | _, d => d

end FsStep

/-! ## Algorithm: sealing and records -/

inductive SealError
  | legacyCleartext
  | authFailed
  | malformed
  deriving DecidableEq

inductive PersistError
  | io
  | protocol (e : Error)
  | sealError (e : SealError)
  | integrity (msg : String)
  deriving DecidableEq

def sealMagic : Bytes := utf8 "OHMSEAL1"

abbrev Nonce := { b : Bytes // b.length = 12 }

/-- `StorageKey::seal`, with the nonce drawn. -/
def sealFile (cr : Crypto) (purpose : Bytes) (nonce : Nonce) (plaintext : Bytes) : Bytes :=
  sealMagic ++ nonce.val ++ cr.encrypt nonce.val (sealMagic ++ purpose) plaintext

def isSealed (bytes : Bytes) : Bool := sealMagic.isPrefixOf bytes

/-- `StorageKey::open`. -/
def openSealed (cr : Crypto) (purpose bytes : Bytes) : Except SealError Bytes :=
  if !isSealed bytes then .error .legacyCleartext
  else
    let rest := bytes.drop sealMagic.length
    if rest.length < 12 then .error .malformed
    else
      match cr.decrypt (rest.take 12) (sealMagic ++ purpose) (rest.drop 12) with
      | some plain => .ok plain
      | none => .error .authFailed

/-- `record_purpose`. -/
def recordPurpose (id : U64) : Bytes := utf8 "presig-record" ++ u64Bytes id.val

def RECORD_V2 : UInt8 := 2

section Records

variable {F G : Type} [Field F] [DecidableEq F] [AddCommGroup G] [Module F G] [DecidableEq G] [K256 F G]
  [WireFormat F G]

/-- `put_presig`. -/
def Presignature.encode (p : Presignature F G) : Bytes :=
  u64Bytes p.id.val ++ u64Bytes p.index.val ++ WireFormat.scalarBytes G p.r ++ K256.pointBytes F p.bigR ++
    WireFormat.scalarBytes G p.uShare ++ WireFormat.scalarBytes G p.zShare ++ p.uCom.encode F ++ p.zCom.encode F

/-- `put_record`. -/
def putRecord (p : Presignature F G) (createdAt : Nat) : Bytes := RECORD_V2 :: (u64Bytes createdAt ++ p.encode)

variable (F G) in
/-- `take_presig`. -/
def takePresig : Decoder (Presignature F G) := do
  let id ← takeU64 >>= fun v => ofOption (usizeOf v)
  let index ← takeU64 >>= fun v => ofOption (usizeOf v)
  let r ← takeScalar F G
  let bigR ← takePoint F G
  let uShare ← takeScalar F G
  let zShare ← takeScalar F G
  let uCom ← FeldmanCommitment.decode F G
  let zCom ← FeldmanCommitment.decode F G
  return ⟨id, index, r, bigR, uShare, zShare, uCom, zCom⟩

variable (F G) in
/-- `take_record`; a record of the first version carries no timestamp. -/
def takeRecord (b : Bytes) : Option (Presignature F G × Option Nat) :=
  if b.head? = some RECORD_V2 then
    (do
      let _ ← takeByte
      let createdAt ← takeU64
      let p ← takePresig F G
      return (p, some createdAt) : Decoder _).exactly b
  else ((takePresig F G).exactly b).map fun p => (p, none)

end Records

/-! ## Algorithm: steps -/

abbrev FsM (α : Type) := StepM PersistError Disk FsStep α

def readDisk : FsM Disk := readNow

def fs (step : FsStep) : FsM Unit := takeStep FsStep.apply .io step

def presigStore (msg : String) : PersistError := .protocol (.presigStore msg)

/-- The journal's writer. -/
structure Journal where
  nextSeq : Nat
  tip : Bytes

def Journal.append (cr : Crypto) (j : Journal) (op : UInt8) (id : U64) (payload : Bytes) : FsM Journal := do
  let e := JournalEntry.new cr j.nextSeq op id j.tip payload
  fs (.append (frame e.encode))
  return ⟨j.nextSeq + 1, e.hash⟩

/-! ## Algorithm: open -/

/-- What the directory says of an id; tombstones win over a record. -/
inductive DiskState
  | live (digest : Bytes)
  | consumed (digest : Bytes)
  | expired
  deriving DecidableEq

inductive JournalState
  | live (digest : Bytes)
  | consumed (digest : Bytes)
  | expired
  deriving DecidableEq

def DiskState.isLive : DiskState → Bool
  | .live _ => true
  | _ => false

def diskLabel : Option DiskState → String
  | none => "absent"
  | some (.live _) => "live record"
  | some (.consumed _) => "consume tombstone"
  | some .expired => "expiry tombstone"

/-- A journal append that completes a mutation cut short. -/
structure HealOp where
  op : UInt8
  id : U64
  payload : Bytes

/-- `reconcile_journal` for one journaled id. -/
def reconcileOne (cr : Crypto) (id : U64) (journaled : JournalState) (found : Option DiskState) :
    Except String (List HealOp) :=
  match journaled, found with
  | .live ph, some (.live dh) =>
    if ph = dh then .ok []
    else .error ("record <" ++ toString id.val ++ ".presig> is missing or does not match the journal (on disk: " ++
      diskLabel found ++ ")")
  | .live ph, some (.consumed dh) =>
    -- killed in a consume, after its tombstone
    if ph = dh then .ok [⟨OP_CONSUME, id, dh⟩]
    else .error ("record <" ++ toString id.val ++ ".presig> is missing or does not match the journal (on disk: " ++
      diskLabel found ++ ")")
  -- killed in an expiry, after its tombstone
  | .live _, some .expired => .ok [⟨OP_EXPIRE, id, payloadDigest cr []⟩]
  | .live _, none =>
    .error ("record <" ++ toString id.val ++ ".presig> is missing or does not match the journal (on disk: " ++
      diskLabel found ++ ")")
  | .consumed ph, found =>
    if found = some (.consumed ph) then .ok []
    else .error ("the tombstone for consumed id " ++ toString id.val ++
      " is missing or does not match the journal (on disk: " ++ diskLabel found ++ ")")
  | .expired, found =>
    if found = some .expired then .ok []
    else .error ("the expiry tombstone for id " ++ toString id.val ++ " is missing (on disk: " ++ diskLabel found ++ ")")

/-- `reconcile_journal`; ids the journal does not know are left to `open`. -/
def reconcileJournal (cr : Crypto) (journaled : U64Map JournalState) (disk : U64Map DiskState) :
    Except String (List HealOp) :=
  journaled.toList.foldlM (fun heals e => do
    let new ← reconcileOne cr e.1 e.2 disk[e.1]?
    return heals ++ new) []

def entryState (e : JournalEntry) : JournalState :=
  if e.op = OP_INSERT then .live e.payload
  else if e.op = OP_CONSUME then .consumed e.payload
  else .expired

/-- The journal's last word on each id. -/
def journalStates (entries : List JournalEntry) : U64Map JournalState :=
  entries.foldl (fun m e => m.insert e.id (entryState e)) ∅

structure DiskPresigStore where
  live : Finset U64
  consumed : Finset U64
  expired : Finset U64
  created : U64Map Nat
  journal : Journal

/-- What `open` takes besides the directory. -/
structure OpenArgs where
  keyBytes : Bytes
  allowUnverified : Bool
  transcript : Option Bytes
  transcriptPath : String
  mtime : U64 → Nat

/-- The scan's tombstones. -/
def tombstones (cr : Crypto) (d : Disk) : U64Map DiskState :=
  d.expired.toList.foldl (fun m e => m.insert e.1 .expired)
    (d.consumed.toList.foldl (fun m e => m.insert e.1 (.consumed (payloadDigest cr e.2))) ∅)

section Store

variable (F G : Type) [Field F] [DecidableEq F] [AddCommGroup G] [Module F G] [DecidableEq G] [K256 F G]
  [WireFormat F G]

/-- The created-at time of a sealed record. -/
def recordTime (cr : Crypto) (mtime : U64 → Nat) (id : U64) (bytes : Bytes) : Except PersistError Nat :=
  if !isSealed bytes then .error (.sealError .legacyCleartext)
  else
    match openSealed cr (recordPurpose id) bytes with
    | .error e => .error (.sealError e)
    | .ok plain =>
      match takeRecord F G plain with
      | none => .error (presigStore "corrupt presignature file")
      | some (_, stamped) => .ok (stamped.getD (mtime id))

/-- The scan of one record; one with a tombstone is deleted. -/
def scanRecord (cr : Crypto) (mtime : U64 → Nat) (acc : U64Map DiskState × U64Map Nat) (e : U64 × Bytes) :
    FsM (U64Map DiskState × U64Map Nat) :=
  if acc.1.contains e.1 then do
    fs (.removePresig e.1)
    return acc
  else do
    let createdAt ← Hoare.lift (recordTime F G cr mtime e.1 e.2)
    return (acc.1.insert e.1 (.live (payloadDigest cr e.2)), acc.2.insert e.1 createdAt)

/-- The directory scan: tombstones, then records, then temporary files. -/
def scan (cr : Crypto) (mtime : U64 → Nat) : FsM (U64Map DiskState × U64Map Nat) := do
  let d ← readDisk
  let out ← d.presig.toList.foldlM (scanRecord F G cr mtime) (tombstones cr d, ∅)
  d.tmp.toList.forM fun e => fs (.removeTmp e.1)
  return out

/-- A directory without a journal is adopted as it is. -/
def adopt (cr : Crypto) (journal : Journal) (disk : U64Map DiskState) : FsM Journal :=
  disk.toList.foldlM (fun journal e =>
    match e.2 with
    | .live h => journal.append cr OP_INSERT e.1 h
    | .consumed h => do
      let journal ← journal.append cr OP_INSERT e.1 h
      journal.append cr OP_CONSUME e.1 h
    | .expired => do
      let journal ← journal.append cr OP_INSERT e.1 zeroHash
      journal.append cr OP_EXPIRE e.1 (payloadDigest cr [])) journal

/-- The healing appends, and their effect on the truth. -/
def heal (cr : Crypto) (heals : List HealOp) (journal : Journal) (truth : U64Map DiskState) :
    FsM (Journal × U64Map DiskState) :=
  heals.foldlM (fun acc h => do
    let journal ← acc.1.append cr h.op h.id h.payload
    let healed := if h.op = OP_CONSUME then DiskState.consumed h.payload else .expired
    return (journal, acc.2.insert h.id healed)) (journal, truth)

/-- Records the journal does not know were never acknowledged. -/
def dropUnaccounted (journaled : U64Map JournalState) (disk truth : U64Map DiskState) : FsM (U64Map DiskState) :=
  disk.toList.foldlM (fun truth e =>
    if !journaled.contains e.1 ∧ e.2.isLive then do
      fs (.removePresig e.1)
      return truth.erase e.1
    else return truth) truth

/-- The journal part of `open`: the writer and the final truth of each id. -/
def verifyJournal (cr : Crypto) (allowUnverified : Bool) (disk : U64Map DiskState) : FsM (Journal × U64Map DiskState) := do
  let existing := (← readDisk).journal
  -- opened with `create`
  fs .createJournal
  let fresh : Journal := ⟨1, zeroHash⟩
  match existing with
  | none => do
    let journal ← adopt cr fresh disk
    return (journal, disk)
  | some bytes =>
    match journalReplay cr bytes with
    | .error chainBreak => if allowUnverified then return (fresh, disk) else throw (.integrity chainBreak)
    | .ok entries => do
      let journal : Journal := ⟨entries.length + 1, tipOf entries⟩
      let journaled := journalStates entries
      match reconcileJournal cr journaled disk with
      | .error divergence => if allowUnverified then return (journal, disk) else throw (.integrity divergence)
      | .ok heals => do
        let (journal, truth) ← heal cr heals journal disk
        let truth ← dropUnaccounted journaled disk truth
        return (journal, truth)

def rollbackDetected (path : String) (id : U64) : String :=
  "ROLLBACK DETECTED: presignature id " ++ toString id.val ++ " is evidenced as SPENT by the sign transcript " ++ path ++
    " but the store shows it LIVE — the store directory was restored from a stale backup; refusing to operate " ++
    "(§8.6/§13.3). Wipe the store or restore a consistent backup."

/-- The transcript cross-check: the least spent id that is live. -/
def crossCheck (args : OpenArgs) (truth : U64Map DiskState) : Except PersistError Unit :=
  match signEvidenceIds F G args.transcript with
  | none => .ok ()
  | some ids =>
    match (ids.filter fun id => (truth[id]?).any DiskState.isLive).min? with
    | none => .ok ()
    | some id => if args.allowUnverified then .ok () else .error (.integrity (rollbackDetected args.transcriptPath id))

/-- The ids of one kind. -/
def idsWhere (truth : U64Map DiskState) (p : DiskState → Bool) : Finset U64 :=
  ((truth.toList.filter fun e => p e.2).map (·.1)).toFinset

/-- `open_mode`. -/
def openMode (cr : Crypto) (args : OpenArgs) : FsM DiskPresigStore := do
  match (← readDisk).key with
  | some bytes => if bytes ≠ args.keyBytes then throw (presigStore "store bound to a different key")
  | none => do
    fs (.writeKeyTmp args.keyBytes)
    fs .renameKey
  let (disk, created) ← scan F G cr args.mtime
  let (journal, truth) ← verifyJournal cr args.allowUnverified disk
  Hoare.lift (crossCheck F G args truth)
  let live := idsWhere truth DiskState.isLive
  return {
    live := live
    consumed := idsWhere truth fun s => s matches .consumed _
    expired := idsWhere truth fun s => s matches .expired
    created := created.filter fun id _ => id ∈ live
    journal := journal }

/-! ## Algorithm: the operations -/

variable {F G}

namespace DiskPresigStore

/-- Some file of the id is known. -/
def known (store : DiskPresigStore) (id : U64) : Bool :=
  id ∈ store.live ∨ id ∈ store.consumed ∨ id ∈ store.expired

/-- `insert_at`, with the seal's nonce drawn. -/
def insertAt (cr : Crypto) (nonce : Nonce) (store : DiskPresigStore) (presig : Presignature F G) (createdAt : Nat) :
    FsM DiskPresigStore := do
  let id := presig.id
  if store.known id then throw (presigStore "duplicate presignature id")
  else do
    let sealed := sealFile cr (recordPurpose id) nonce (putRecord presig createdAt)
    fs (.writeTmp id sealed)
    fs (.renameToPresig id)
    let journal ← store.journal.append cr OP_INSERT id (payloadDigest cr sealed)
    return { store with
      live := insert id store.live
      created := store.created.insert id createdAt
      journal := journal }

variable (F G) in
def consume (cr : Crypto) (store : DiskPresigStore) (id : U64) : FsM (Presignature F G × DiskPresigStore) := do
  if id ∉ store.live then throw (presigStore "unknown or consumed presignature id")
  else
    match (← readDisk).presig[id]? with
    | none => throw .io
    | some sealed =>
      match openSealed cr (recordPurpose id) sealed with
      | .error e => throw (.sealError e)
      | .ok bytes =>
        match takeRecord F G bytes with
        | none => throw (presigStore "corrupt presignature file")
        | some (presig, _) => do
          fs (.renameToConsumed id)
          let journal ← store.journal.append cr OP_CONSUME id (payloadDigest cr sealed)
          return (presig, { store with
            live := store.live.erase id
            created := store.created.erase id
            consumed := insert id store.consumed
            journal := journal })

def expire (cr : Crypto) (store : DiskPresigStore) (id : U64) : FsM (Bool × DiskPresigStore) := do
  if id ∉ store.live then return (false, store)
  else do
    fs (.writeTmp id [])
    fs (.renameToExpired id)
    fs (.removePresig id)
    let journal ← store.journal.append cr OP_EXPIRE id (payloadDigest cr [])
    return (true, { store with
      live := store.live.erase id
      created := store.created.erase id
      expired := insert id store.expired
      journal := journal })

def burn (cr : Crypto) (store : DiskPresigStore) (id : U64) : FsM (Bool × DiskPresigStore) := do
  if store.known id then return (false, store)
  else do
    fs (.writeTmp id [])
    fs (.renameToExpired id)
    let journal ← store.journal.append cr OP_BURN id (payloadDigest cr [])
    return (true, { store with
      expired := insert id store.expired
      journal := journal })

/-- The largest id ever seen. -/
def maxSeenId (store : DiskPresigStore) : Nat :=
  (store.live ∪ store.consumed ∪ store.expired).sup fun id => id.val

/-- `expired_before`. -/
def expiredBefore (store : DiskPresigStore) (threshold : Nat) : List U64 :=
  (store.created.toList.filter fun e => e.2 ≤ threshold).map (·.1)

end DiskPresigStore

end Store

end OhmEcdsa
