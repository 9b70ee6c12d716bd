import OhmEcdsa.Store.Machine

/-!
# The pool manager (`party/pool.rs`)

A tick expires the records whose time is up, and then produces one if the pool is below its
target.  With a time to live, the threshold saturates at zero:

    id is removed ↔ its creation time is 0, or creation time + ttl ≤ now     (Ticked.removed)

The times and the tombstones survive a restart (`ttl_exact`).
-/

set_option linter.unusedSectionVars false

namespace OhmEcdsa

open Codec Decoder Hoare Transition

/-! ## Algorithm -/

structure PoolConfig where
  target : Nat
  ttlSecs : U64

structure PoolCounters where
  produced : Nat
  expired : Nat
  failed : Nat

structure PoolStats where
  target : Nat
  stored : Nat
  produced : Nat
  expired : Nat

/-- The manager; once it is there, so is the node's store. -/
structure PoolManager where
  store : DiskPresigStore
  cfg : PoolConfig
  nextId : U64
  counters : PoolCounters

section Pool

variable {F G : Type} [Field F] [DecidableEq F] [AddCommGroup G] [Module F G] [DecidableEq G] [K256 F G]
  [WireFormat F G]

namespace PoolManager

/-- Ids resume above the largest one seen. -/
def new (store : Option DiskPresigStore) (cfg : PoolConfig) : Except PersistError PoolManager :=
  match store with
  | none => .error (presigStore "no store configured")
  | some store => .ok ⟨store, cfg, Fin.ofNat _ (store.maxSeenId + 1), ⟨0, 0, 0⟩⟩

def stats (pm : PoolManager) : PoolStats :=
  ⟨pm.cfg.target, pm.store.live.card, pm.counters.produced, pm.counters.expired⟩

/-- The loop of `expire_aged`. -/
def expireEach (cr : Crypto) : List U64 → PoolManager → FsM (Except PersistError Unit × PoolManager)
  | [], pm => return (.ok (), pm)
  | id :: aged, pm => do
    match ← attempt (pm.store.expire cr id) with
    | .error e => return (.error e, pm)
    | .ok (done, store) =>
      let counters := if done then { pm.counters with expired := pm.counters.expired + 1 } else pm.counters
      expireEach cr aged { pm with store := store, counters := counters }

def expireAged (cr : Crypto) (now : U64) (pm : PoolManager) : FsM (Except PersistError Unit × PoolManager) :=
  if 0 < pm.cfg.ttlSecs.val then
    -- saturating_sub
    let threshold := now.val - pm.cfg.ttlSecs.val
    expireEach cr (pm.store.expiredBefore threshold) pm
  else return (.ok (), pm)

/-- A pass, up to what becomes of a production that fails. -/
def maintain (cr : Crypto) (onFailure : U64 → PersistError → PoolManager → FsM (Except PersistError Unit × PoolManager))
    (now : U64) (nonce : Nonce) (produce : U64 → Except PersistError (Record F G)) (pm : PoolManager) :
    FsM (Except PersistError PoolStats × PoolManager) := do
  match ← expireAged cr now pm with
  | (.error e, pm) => return (.error e, pm)
  | (.ok (), pm) =>
    if pm.store.live.card < pm.cfg.target then
      let id := pm.nextId
      let pm := { pm with nextId := pm.nextId + 1 }
      match produce id with
      | .ok record =>
        match ← attempt (pm.store.insertAt cr nonce record.val now.val) with
        | .ok store =>
          let pm := { pm with store := store, counters := { pm.counters with produced := pm.counters.produced + 1 } }
          return (.ok pm.stats, pm)
        -- a previous life produced it
        | .error (.protocol (.presigStore _)) => return (.ok pm.stats, pm)
        | .error e => return (.error e, pm)
      | .error e => do
        let (done, pm) ← onFailure id e pm
        return (done.map fun _ => pm.stats, pm)
    else return (.ok pm.stats, pm)

/-- A zero value is retried with the next id; any other failure stops the pool. -/
def tick (cr : Crypto) : U64 → Nonce → (U64 → Except PersistError (Record F G)) → PoolManager →
    FsM (Except PersistError PoolStats × PoolManager) :=
  maintain cr fun _ e pm =>
    match e with
    | .protocol (.zeroValue _) => return (.ok (), pm)
    | e => return (.error e, pm)

/-- The id of a production that failed is burned. -/
def tickTolerant (cr : Crypto) : U64 → Nonce → (U64 → Except PersistError (Record F G)) → PoolManager →
    FsM (Except PersistError PoolStats × PoolManager) :=
  maintain cr fun id _ pm => do
    match ← attempt (pm.store.burn cr id) with
    | .error e => return (.error e, pm)
    | .ok (_, store) =>
      return (.ok (), { pm with store := store, counters := { pm.counters with failed := pm.counters.failed + 1 } })

end PoolManager

/-! ## Algorithm: a node with a pool -/

/-- A node's directory, and its manager. -/
structure Pool where
  disk : Disk
  manager : PoolManager

variable (F G) in
/-- What a node does; `produce` is what its next production comes to. -/
inductive PoolAct
  | tick (now : U64) (nonce : Nonce) (produce : U64 → Except PersistError (Record F G))
  | tickTolerant (now : U64) (nonce : Nonce) (produce : U64 → Except PersistError (Record F G))
  | consume (id : U64)
  | restart (args : OpenArgs) (cfg : PoolConfig)

variable (F G) in
/-- A process started in a directory. -/
def startPool (cr : Crypto) (args : OpenArgs) (cfg : PoolConfig) (d : Disk) : Option Pool :=
  (openSession F G cr args d).bind fun s => (PoolManager.new (some s.store) cfg).toOption.map fun pm => ⟨s.disk, pm⟩

/-- The node after an act; a start that fails is none. -/
def Pool.act (cr : Crypto) (s : Pool) : PoolAct F G → Option Pool
  | .tick now nonce produce => (completed (s.manager.tick cr now nonce produce) s.disk).map fun out => ⟨out.2, out.1.2⟩
  | .tickTolerant now nonce produce =>
    (completed (s.manager.tickTolerant cr now nonce produce) s.disk).map fun out => ⟨out.2, out.1.2⟩
  | .consume id => (completed (attempt (s.manager.store.consume F G cr id)) s.disk).map fun out =>
    match out.1 with
    | .ok (_, store) => ⟨out.2, { s.manager with store := store }⟩
    | .error _ => ⟨out.2, s.manager⟩
  | .restart args cfg => startPool F G cr args cfg s.disk

/-! ## Specification -/

variable (F G) in
/-- The record of an id carries its creation time. -/
def Disk.Stamped (cr : Crypto) (d : Disk) (id : U64) (time : Nat) : Prop :=
  ∃ b plain p, d.presig[id]? = some b ∧ openSealed cr (recordPurpose id) b = .ok plain ∧
    takeRecord F G plain = some (p, some time)

/-- Some ids expired, and nothing else. -/
structure Aged (ids : List U64) (store store' : DiskPresigStore) : Prop where
  live : ∀ id, id ∈ store'.live ↔ id ∈ store.live ∧ id ∉ ids
  consumed : ∀ id, id ∈ store'.consumed ↔ id ∈ store.consumed
  expired : ∀ id, id ∈ store'.expired ↔ id ∈ store.expired ∨ id ∈ ids
  created : ∀ id : U64, id ∉ ids → store'.created[id]? = store.created[id]?

variable (F G) in
/-- At most one record produced, or an id burned. -/
structure Refilled (cr : Crypto) (now : Nat) (store store' : DiskPresigStore) (d' : Disk) : Prop where
  kept : ∀ id ∈ store.live, id ∈ store'.live ∧ store'.created[id]? = store.created[id]?
  produced : ∀ id ∈ store'.live, id ∉ store.live →
    store.known id = false ∧ store'.created[id]? = some now ∧ d'.Stamped F G cr id now
  one : ∀ id ∈ store'.live, ∀ id' ∈ store'.live, id ∉ store.live → id' ∉ store.live → id = id'
  consumed : ∀ id, id ∈ store'.consumed ↔ id ∈ store.consumed
  expired : ∀ id ∈ store.expired, id ∈ store'.expired

variable (F G) in
/-- A tick, as to the records: which go, which stay, and which is new. -/
structure Ticked (cr : Crypto) (ttl now : Nat) (store store' : DiskPresigStore) (d' : Disk) : Prop where
  removed : ∀ id ∈ store.live, id ∉ store'.live ↔
    ∃ time, store.created[id]? = some time ∧ (time = 0 ∨ time + ttl ≤ now)
  buried : ∀ id ∈ store.live, id ∉ store'.live → id ∈ store'.expired
  kept : ∀ id ∈ store.live, id ∈ store'.live → store'.created[id]? = store.created[id]?
  produced : ∀ id ∈ store'.live, id ∉ store.live →
    store.known id = false ∧ store'.created[id]? = some now ∧ d'.Stamped F G cr id now
  one : ∀ id ∈ store'.live, ∀ id' ∈ store'.live, id ∉ store.live → id' ∉ store.live → id = id'
  inTime : ∀ id ∈ store'.live, ∃ time, store'.created[id]? = some time ∧ now < time + ttl

/-- The sets of a restarted store. -/
structure Resumed (store store' : DiskPresigStore) : Prop where
  live : ∀ id, id ∈ store'.live ↔ id ∈ store.live
  consumed : ∀ id, id ∈ store'.consumed ↔ id ∈ store.consumed
  expired : ∀ id, id ∈ store'.expired ↔ id ∈ store.expired

/-! ## Lemmas: expiry -/

variable {cr : Crypto} {mtime : U64 → Nat} {d : Disk} {entries : List JournalEntry} {store : DiskPresigStore}

namespace Aged

theorem refl (store : DiskPresigStore) : Aged [] store store :=
  ⟨fun _ => by simp, fun _ => Iff.rfl, fun _ => by simp, fun _ _ => rfl⟩

theorem cons {id : U64} {ids : List U64} {store' store'' : DiskPresigStore} (h : Aged [id] store store')
    (h' : Aged ids store' store'') : Aged (id :: ids) store store'' := by
  refine ⟨fun i => ?_, fun i => ?_, fun i => ?_, fun i hi => ?_⟩
  · rw [h'.live, h.live, List.mem_singleton, List.mem_cons, not_or, and_assoc]
  · rw [h'.consumed, h.consumed]
  · rw [h'.expired, h.expired, List.mem_singleton, List.mem_cons, or_assoc]
  · rw [List.mem_cons, not_or] at hi
    rw [h'.created i hi.2, h.created i (by simpa using hi.1)]

theorem known {ids : List U64} {store' : DiskPresigStore} (h : Aged ids store store') (hlive : ∀ id ∈ ids, id ∈ store.live)
    (id : U64) : store'.known id = store.known id := by
  unfold DiskPresigStore.known
  rw [decide_eq_decide, h.live, h.consumed, h.expired]
  by_cases hid : id ∈ ids
  · simp [hid, hlive id hid]
  · simp [hid]

end Aged

theorem Mutated.aged {id : U64} {d' : Disk} {store' : DiskPresigStore}
    (h : Mutated F G cr mtime d entries store id .expired d' store') (hdead : id ∉ store.consumed) :
    Aged [id] store store' := by
  refine ⟨fun i => ?_, fun i => ?_, fun i => ?_, fun i hi => ?_⟩
  · rw [h.live, List.mem_singleton]
    by_cases hi : i = id <;> simp [hi, DiskState.isLive]
  · rw [h.consumed]
    by_cases hi : i = id
    · simp [hi, hdead]
    · simp [hi]
  · rw [h.expired, List.mem_singleton]
    by_cases hi : i = id <;> simp [hi]
  · rw [h.created, if_neg (by simpa using hi)]

theorem mem_expiredBefore {threshold : Nat} {id : U64} :
    id ∈ store.expiredBefore threshold ↔ ∃ time, store.created[id]? = some time ∧ time ≤ threshold := by
  unfold DiskPresigStore.expiredBefore
  simp only [List.mem_map, List.mem_filter, decide_eq_true_eq]
  constructor
  · rintro ⟨e, ⟨he, hle⟩, rfl⟩
    exact ⟨e.2, Std.ExtTreeMap.mem_toList_iff_getElem?_eq_some.mp he, hle⟩
  · rintro ⟨time, ht, hle⟩
    exact ⟨(id, time), ⟨Std.ExtTreeMap.mem_toList_iff_getElem?_eq_some.mpr ht, hle⟩, rfl⟩

theorem expiredBefore_nodup (store : DiskPresigStore) (threshold : Nat) : (store.expiredBefore threshold).Nodup := by
  have hkeys := nodup_keys_toList store.created
  unfold DiskPresigStore.expiredBefore
  exact hkeys.sublist (List.filter_sublist.map _)

namespace Mirrors

/-- Only live records have times. -/
theorem live_of_created (h : Mirrors F G cr mtime d entries store) {id : U64} {time : Nat}
    (ht : store.created[id]? = some time) : id ∈ store.live := by
  rw [h.created] at ht
  unfold Disk.createdAt at ht
  cases htomb : d.tombstone cr id with
  | some s =>
    rw [htomb] at ht
    cases ht
  | none =>
    cases hp : d.presig[id]? with
    | none =>
      rw [htomb, hp] at ht
      cases ht
    | some b => exact (h.live id).mpr ⟨_, Disk.state_eq_live htomb hp⟩

theorem live_of_aged (h : Mirrors F G cr mtime d entries store) (threshold : Nat) :
    ∀ id ∈ store.expiredBefore threshold, id ∈ store.live := by
  intro id hid
  obtain ⟨time, ht, -⟩ := mem_expiredBefore.mp hid
  exact h.live_of_created ht

/-- No more records than entries. -/
theorem aged_length (h : Mirrors F G cr mtime d entries store) (threshold : Nat) :
    (store.expiredBefore threshold).length ≤ entries.length := by
  have hsub : store.expiredBefore threshold ⊆ entries.map (·.id) := by
    intro id hid
    obtain ⟨b, -, -, hstate⟩ := h.liveRecord (h.live_of_aged threshold id hid)
    obtain ⟨e, he, -⟩ := Option.map_eq_some_iff.mp hstate
    obtain ⟨hmem, rfl⟩ := mem_of_lastEntry he
    exact List.mem_map.mpr ⟨e, hmem, rfl⟩
  have := (List.subperm_of_subset (expiredBefore_nodup store threshold) hsub).length_le
  rwa [List.length_map] at this

end Mirrors

/-- **The loop** expires the ids, one after the other. -/
theorem expireEach_goes (ids : List U64) {pm : PoolManager} (h : Mirrors F G cr mtime d entries pm.store)
    (hroom : entries.length + ids.length < 2 ^ 64) (hnodup : ids.Nodup) (hlive : ∀ id ∈ ids, id ∈ pm.store.live) :
    Goes (fun _ _ => True) d (PoolManager.expireEach cr ids pm)
      (fun out d' => ∃ store' entries' counters, out = (.ok (), { pm with store := store', counters := counters }) ∧
        Mirrors F G cr mtime d' entries' store' ∧ entries'.length ≤ entries.length + ids.length ∧
        Aged ids pm.store store')
      (fun _ _ => False) := by
  induction ids generalizing pm d entries with
  | nil => exact Goes.pure ⟨pm.store, entries, pm.counters, rfl, h, le_rfl, Aged.refl _⟩
  | cons id ids ih =>
    rw [List.length_cons] at hroom
    obtain ⟨hid, hnodup⟩ := List.nodup_cons.mp hnodup
    obtain ⟨hidlive, hlive⟩ := List.forall_mem_cons.mp hlive
    unfold PoolManager.expireEach
    refine Goes.bind (Goes.attempt (Q := fun r d' => ∃ store', r = .ok (true, store') ∧
      Mutated F G cr mtime d entries pm.store id .expired d' store')
      (expire_goes h (by omega) id fun _ _ _ => trivial) (fun out d' ho => ?_) fun _ _ he => he.elim) ?_
    · rcases ho with ⟨hnot, -, -⟩ | ⟨-, hdone, hm⟩
      · exact absurd hidlive hnot
      · exact ⟨out.2, by rw [← hdone], hm⟩
    · rintro _ d' ⟨store', rfl, hm⟩
      obtain ⟨op, payload, hmirrors⟩ := hm.mirrors
      have haged := hm.aged (h.live_not_dead hidlive).1
      have hrest := ih (show Mirrors F G cr mtime d' _ (PoolManager.store { pm with
        store := store', counters := { pm.counters with expired := pm.counters.expired + 1 } }) from hmirrors) (by
          rw [List.length_append, List.length_singleton]
          omega) hnodup (fun i hi => (haged.live i).mpr ⟨hlive i hi, fun heq => hid (by
          rw [← List.mem_singleton.mp heq]
          exact hi)⟩)
      refine hrest.conseq (fun _ _ h => h) ?_ fun _ _ h => h
      rintro out d'' ⟨store'', entries'', counters, rfl, hmirrors'', hlen, haged'⟩
      refine ⟨store'', entries'', counters, rfl, hmirrors'', ?_, haged.cons haged'⟩
      rw [List.length_append, List.length_singleton] at hlen
      rw [List.length_cons]
      omega

/-- The ids whose time is up. -/
def PoolManager.overdue (pm : PoolManager) (now : U64) : List U64 :=
  if 0 < pm.cfg.ttlSecs.val then pm.store.expiredBefore (now.val - pm.cfg.ttlSecs.val) else []

/-- Without the ids whose time is up, the records are below the target. -/
def PoolManager.short (pm : PoolManager) (now : U64) : Prop :=
  (pm.store.live.filter (· ∉ pm.overdue now)).card < pm.cfg.target

instance (pm : PoolManager) (now : U64) : Decidable (pm.short now) := Nat.decLt _ _

theorem Aged.short_iff {pm : PoolManager} {now : U64} {store' : DiskPresigStore} (h : Aged (pm.overdue now) pm.store store') :
    pm.short now ↔ store'.live.card < pm.cfg.target := by
  have hlive : store'.live = pm.store.live.filter (· ∉ pm.overdue now) := by
    ext id
    rw [Finset.mem_filter, h.live]
  rw [hlive]
  exact Iff.rfl

theorem mem_overdue {pm : PoolManager} {now : U64} (httl : 0 < pm.cfg.ttlSecs.val) {id : U64} :
    id ∈ pm.overdue now ↔
      ∃ time, pm.store.created[id]? = some time ∧ (time = 0 ∨ time + pm.cfg.ttlSecs.val ≤ now.val) := by
  unfold PoolManager.overdue
  rw [if_pos httl, mem_expiredBefore]
  refine exists_congr fun time => and_congr_right fun _ => ?_
  omega

theorem expireAged_goes {pm : PoolManager} (now : U64) (h : Mirrors F G cr mtime d entries pm.store)
    (hroom : 2 * entries.length < 2 ^ 64) :
    Goes (fun _ _ => True) d (PoolManager.expireAged cr now pm)
      (fun out d' => ∃ store' entries' counters, out = (.ok (), { pm with store := store', counters := counters }) ∧
        Mirrors F G cr mtime d' entries' store' ∧ entries'.length ≤ 2 * entries.length ∧
        Aged (pm.overdue now) pm.store store' ∧ ∀ id ∈ pm.overdue now, id ∈ pm.store.live)
      (fun _ _ => False) := by
  unfold PoolManager.expireAged PoolManager.overdue
  by_cases httl : 0 < pm.cfg.ttlSecs.val
  · rw [if_pos httl, if_pos httl]
    have hlen := h.aged_length (now.val - pm.cfg.ttlSecs.val)
    have hlive := h.live_of_aged (now.val - pm.cfg.ttlSecs.val)
    refine (expireEach_goes _ h (by omega) (expiredBefore_nodup _ _) hlive).conseq (fun _ _ h => h) ?_ fun _ _ h => h
    rintro out d' ⟨store', entries', counters, rfl, hmirrors, hlen', haged⟩
    exact ⟨store', entries', counters, rfl, hmirrors, by omega, haged, hlive⟩
  · rw [if_neg httl, if_neg httl]
    exact Goes.pure ⟨pm.store, entries, pm.counters, rfl, h, by omega, Aged.refl _, fun _ h => absurd h List.not_mem_nil⟩

/-! ## Lemmas: production -/

theorem refilled_refl (now : Nat) (store : DiskPresigStore) (d : Disk) : Refilled F G cr now store store d :=
  ⟨fun _ h => ⟨h, rfl⟩, fun _ h hnot => absurd h hnot, fun _ h _ _ hnot => absurd h hnot, fun _ => Iff.rfl, fun _ h => h⟩

theorem not_known {id : U64} (h : store.known id = false) :
    id ∉ store.live ∧ id ∉ store.consumed ∧ id ∉ store.expired := by
  unfold DiskPresigStore.known at h
  rwa [decide_eq_false_iff_not, not_or, not_or] at h

/-- A burned id was not known. -/
theorem Mutated.burned {now : Nat} {id : U64} {d' : Disk} {store' : DiskPresigStore}
    (h : Mutated F G cr mtime d entries store id .expired d' store') (hid : store.known id = false) :
    Refilled F G cr now store store' d' := by
  obtain ⟨hlive, hcon, hexp⟩ := not_known hid
  have hsame : ∀ i, i ∈ store'.live ↔ i ∈ store.live := by
    intro i
    rw [h.live]
    by_cases hi : i = id
    · simp [hi, hlive, DiskState.isLive]
    · simp [hi]
  have hne : ∀ i ∈ store.live, i ≠ id := fun i hi heq => hlive (heq ▸ hi)
  refine ⟨fun i hi => ⟨(hsame i).mpr hi, ?_⟩, fun i hi hnot => absurd ((hsame i).mp hi) hnot,
    fun i hi _ _ hnot => absurd ((hsame i).mp hi) hnot, fun i => ?_, fun i hi => ?_⟩
  · rw [h.created, if_neg (hne i hi)]
  · rw [h.consumed]
    by_cases hi : i = id
    · simp [hi, hcon]
    · simp [hi]
  · rw [h.expired]
    split
    · rfl
    · exact hi

/-- A produced record carries the time of the tick. -/
theorem Mutated.produced {now : Nat} {nonce : Nonce} {record : Record F G} {dg : Bytes} {d' : Disk}
    {store' : DiskPresigStore} (h : Mutated F G cr mtime d entries store record.val.id (.live dg) d' store')
    (hid : store.known record.val.id = false) (hnow : now < 2 ^ 64)
    (htime : store'.created[record.val.id]? = some now)
    (hfile : d'.presig[record.val.id]? =
      some (sealFile cr (recordPurpose record.val.id) nonce (putRecord record.val now))) :
    Refilled F G cr now store store' d' := by
  obtain ⟨hlive, hcon, hexp⟩ := not_known hid
  have hnew : ∀ i ∈ store'.live, i ∉ store.live → i = record.val.id := by
    intro i hi hnot
    by_contra hne
    exact hnot (by simpa [hne] using (h.live i).mp hi)
  have hne : ∀ i ∈ store.live, i ≠ record.val.id := fun i hi heq => hlive (heq ▸ hi)
  have hne' : ∀ i ∈ store.expired, i ≠ record.val.id := fun i hi heq => hexp (heq ▸ hi)
  refine ⟨fun i hi => ⟨?_, ?_⟩, fun i hi hnot => ?_, fun i hi j hj hnot hnot' => ?_, fun i => ?_, fun i hi => ?_⟩
  · rw [h.live, if_neg (hne i hi)]
    exact hi
  · rw [h.created, if_neg (hne i hi)]
  · obtain rfl := hnew i hi hnot
    exact ⟨hid, htime, _, _, record.val, hfile, openSealed_sealFile _ _ _,
      takeRecord_stamped_iff.mpr ⟨⟨record.property, hnow⟩, rfl⟩⟩
  · rw [hnew i hi hnot, hnew j hj hnot']
  · rw [h.consumed]
    by_cases hi : i = record.val.id
    · simp [hi, hcon]
    · simp [hi]
  · rw [h.expired, if_neg (hne' i hi)]
    exact hi

variable (F G) in
/-- What a tick leaves. -/
structure Passed (cr : Crypto) (mtime : U64 → Nat) (now : U64) (pm pm' : PoolManager) (d' : Disk) : Prop where
  mirrors : ∃ entries', Mirrors F G cr mtime d' entries' pm'.store
  stores : ∃ store, Aged (pm.overdue now) pm.store store ∧ Refilled F G cr now.val store pm'.store d'
  overdue : ∀ id ∈ pm.overdue now, id ∈ pm.store.live
  cfg : pm'.cfg = pm.cfg
  nextId : pm'.nextId = if pm.short now then pm.nextId + 1 else pm.nextId

variable (F G) in
/-- What becomes of a failed production takes no record away. -/
def Handles (cr : Crypto) (now : U64)
    (onFailure : U64 → PersistError → PoolManager → FsM (Except PersistError Unit × PoolManager)) : Prop :=
  ∀ id e (pm : PoolManager) mtime d entries, Mirrors F G cr mtime d entries pm.store → entries.length + 1 < 2 ^ 64 →
    Goes (fun _ _ => True) d (onFailure id e pm)
      (fun out d' => ∃ store' entries' counters, out.2 = { pm with store := store', counters := counters } ∧
        Mirrors F G cr mtime d' entries' store' ∧ Refilled F G cr now.val pm.store store' d')
      (fun _ _ => False)

theorem maintain_goes {onFailure : U64 → PersistError → PoolManager → FsM (Except PersistError Unit × PoolManager)}
    {now : U64} (honFailure : Handles F G cr now onFailure) (nonce : Nonce)
    (produce : U64 → Except PersistError (Record F G)) {pm : PoolManager} (h : Mirrors F G cr mtime d entries pm.store)
    (hroom : 2 * entries.length + 1 < 2 ^ 64) :
    Goes (fun _ _ => True) d (PoolManager.maintain cr onFailure now nonce produce pm)
      (fun out d' => Passed F G cr mtime now pm out.2 d') (fun _ _ => False) := by
  unfold PoolManager.maintain
  refine (expireAged_goes now h (by omega)).bind ?_
  rintro _ d₁ ⟨store₁, entries₁, counters, rfl, hm₁, hlen, haged, hoverdue⟩
  simp only
  by_cases hshort : store₁.live.card < pm.cfg.target
  · have hnext : pm.nextId + 1 = if pm.short now then pm.nextId + 1 else pm.nextId := (if_pos (haged.short_iff.mpr hshort)).symm
    rw [if_pos hshort]
    cases produce pm.nextId with
    | ok record =>
      simp only
      refine Goes.bind (Goes.attempt (Q := fun r d' => (∃ store', r = .ok store' ∧
          (∃ entries', Mirrors F G cr mtime d' entries' store') ∧ Refilled F G cr now.val store₁ store' d') ∨
          r = .error (presigStore "duplicate presignature id") ∧ d' = d₁)
        (insertAt_goes hm₁ (by omega) nonce record.property now.isLt fun _ _ _ => trivial) ?_ ?_) ?_
      · rintro store' d' ⟨hid, htime, hfile, dg, hmut⟩
        obtain ⟨op, payload, hmirrors⟩ := hmut.mirrors
        exact Or.inl ⟨store', rfl, ⟨_, hmirrors⟩, hmut.produced hid now.isLt htime hfile⟩
      · rintro e d' ⟨hd', -, rfl⟩
        exact Or.inr ⟨rfl, hd'⟩
      · rintro r d' (⟨store', rfl, hmirrors, hrefilled⟩ | ⟨rfl, rfl⟩)
        · exact Goes.pure ⟨hmirrors, ⟨store₁, haged, hrefilled⟩, hoverdue, rfl, hnext⟩
        · exact Goes.pure ⟨⟨entries₁, hm₁⟩, ⟨store₁, haged, refilled_refl _ _ _⟩, hoverdue, rfl, hnext⟩
    | error e =>
      simp only
      refine (honFailure pm.nextId e { pm with store := store₁, counters := counters, nextId := pm.nextId + 1 } mtime d₁
        entries₁ hm₁ (by omega)).bind ?_
      rintro ⟨done, pm'⟩ d' ⟨store', entries', counters', hpm, hmirrors, hrefilled⟩
      obtain rfl := hpm
      exact Goes.pure ⟨⟨entries', hmirrors⟩, ⟨store₁, haged, hrefilled⟩, hoverdue, rfl, hnext⟩
  · rw [if_neg hshort]
    exact Goes.pure ⟨⟨entries₁, hm₁⟩, ⟨store₁, haged, refilled_refl _ _ _⟩, hoverdue, rfl,
      (if_neg fun h => hshort (haged.short_iff.mp h)).symm⟩

theorem tick_goes (now : U64) (nonce : Nonce) (produce : U64 → Except PersistError (Record F G)) {pm : PoolManager}
    (h : Mirrors F G cr mtime d entries pm.store) (hroom : 2 * entries.length + 1 < 2 ^ 64) :
    Goes (fun _ _ => True) d (pm.tick cr now nonce produce) (fun out d' => Passed F G cr mtime now pm out.2 d')
      (fun _ _ => False) := by
  refine maintain_goes (fun id e pm mtime d entries hm _ => ?_) nonce produce h hroom
  have hsame : ∃ store' entries' counters, pm = { pm with store := store', counters := counters } ∧
      Mirrors F G cr mtime d entries' store' ∧ Refilled F G cr now.val pm.store store' d :=
    ⟨pm.store, entries, pm.counters, rfl, hm, refilled_refl _ _ _⟩
  split
  · exact Goes.pure hsame
  · exact Goes.pure hsame

theorem tickTolerant_goes (now : U64) (nonce : Nonce) (produce : U64 → Except PersistError (Record F G))
    {pm : PoolManager} (h : Mirrors F G cr mtime d entries pm.store) (hroom : 2 * entries.length + 1 < 2 ^ 64) :
    Goes (fun _ _ => True) d (pm.tickTolerant cr now nonce produce) (fun out d' => Passed F G cr mtime now pm out.2 d')
      (fun _ _ => False) := by
  refine maintain_goes (fun id e pm mtime d entries hm hroom => ?_) nonce produce h hroom
  refine Goes.bind (Goes.attempt (Q := fun r d' => ∃ done store', r = .ok (done, store') ∧
      (∃ entries', Mirrors F G cr mtime d' entries' store') ∧ Refilled F G cr now.val pm.store store' d')
    (burn_goes hm hroom id fun _ _ _ => trivial) (fun out d' ho => ?_) fun _ _ he => he.elim) ?_
  · rcases ho with ⟨-, rfl, rfl⟩ | ⟨hid, -, hmut⟩
    · exact ⟨false, pm.store, rfl, ⟨entries, hm⟩, refilled_refl _ _ _⟩
    · obtain ⟨op, payload, hmirrors⟩ := hmut.mirrors
      exact ⟨out.1, out.2, rfl, ⟨_, hmirrors⟩, hmut.burned hid⟩
  · rintro _ d' ⟨done, store', rfl, ⟨entries', hmirrors⟩, hrefilled⟩
    exact Goes.pure ⟨store', entries', _, rfl, hmirrors, hrefilled⟩

/-- **A tick** removes what is due, and produces a record of its own time. -/
theorem Passed.ticked {now : U64} {pm pm' : PoolManager} {d' : Disk} (httl : 0 < pm.cfg.ttlSecs.val)
    (h : Mirrors F G cr mtime d entries pm.store) (hpassed : Passed F G cr mtime now pm pm' d') :
    Ticked F G cr pm.cfg.ttlSecs.val now.val pm.store pm'.store d' := by
  obtain ⟨store₁, haged, hrefilled⟩ := hpassed.stores
  have hlive₁ : ∀ id ∈ pm.store.live, id ∈ store₁.live ↔ id ∉ pm.overdue now := fun id hid => by simp [haged.live, hid]
  -- an id that the tick expired is known, so it is not produced
  have hstays : ∀ id ∈ pm.store.live, id ∈ pm'.store.live ↔ id ∈ store₁.live := by
    intro id hid
    refine ⟨fun hl => ?_, fun hl => (hrefilled.kept id hl).1⟩
    by_contra hnot
    have hunknown := (hrefilled.produced id hl hnot).1
    rw [haged.known hpassed.overdue] at hunknown
    exact (not_known hunknown).1 hid
  have hremoved : ∀ id ∈ pm.store.live, id ∉ pm'.store.live ↔
      ∃ time, pm.store.created[id]? = some time ∧ (time = 0 ∨ time + pm.cfg.ttlSecs.val ≤ now.val) := by
    intro id hid
    rw [hstays id hid, hlive₁ id hid, not_not, mem_overdue httl]
  have hkept : ∀ id ∈ pm.store.live, id ∈ pm'.store.live → pm'.store.created[id]? = pm.store.created[id]? := by
    intro id hid hl
    have hl₁ := (hstays id hid).mp hl
    rw [(hrefilled.kept id hl₁).2, haged.created id ((hlive₁ id hid).mp hl₁)]
  have hproduced : ∀ id ∈ pm'.store.live, id ∉ pm.store.live →
      pm.store.known id = false ∧ pm'.store.created[id]? = some now.val ∧ d'.Stamped F G cr id now.val := by
    intro id hl hnot
    obtain ⟨hunknown, htime, hstamped⟩ := hrefilled.produced id hl fun hl₁ => hnot ((haged.live id).mp hl₁).1
    rw [haged.known hpassed.overdue] at hunknown
    exact ⟨hunknown, htime, hstamped⟩
  refine ⟨hremoved, fun id hid hnot => ?_, hkept, hproduced, fun id hl id' hl' hnot hnot' => ?_, fun id hl => ?_⟩
  · rw [hstays id hid, hlive₁ id hid, not_not] at hnot
    exact hrefilled.expired id ((haged.expired id).mpr (Or.inr hnot))
  · exact hrefilled.one id hl id' hl' (fun h => hnot ((haged.live id).mp h).1) fun h => hnot' ((haged.live id').mp h).1
  · by_cases hid : id ∈ pm.store.live
    · obtain ⟨time, ht⟩ := h.timed id hid
      refine ⟨time, (hkept id hid hl).trans ht, ?_⟩
      by_contra hdue
      exact (hremoved id hid).mpr ⟨time, ht, Or.inr (by omega)⟩ hl
    · exact ⟨now.val, (hproduced id hl hid).2.1, by omega⟩

theorem Passed.expired {now : U64} {pm pm' : PoolManager} {d' : Disk} (hpassed : Passed F G cr mtime now pm pm' d')
    {id : U64} (hid : id ∈ pm.store.expired) : id ∈ pm'.store.expired := by
  obtain ⟨store₁, haged, hrefilled⟩ := hpassed.stores
  exact hrefilled.expired id ((haged.expired id).mpr (Or.inl hid))

/-! ## Lemmas: restarts -/

theorem createdAt_of_stamped {id : U64} {time : Nat} (h : d.Stamped F G cr id time) (hnone : d.tombstone cr id = none) :
    d.createdAt F G cr mtime id = some time := by
  obtain ⟨b, plain, p, hb, hopen, hrecord⟩ := h
  have hsealed : isSealed b = true := by
    by_contra hnot
    unfold openSealed at hopen
    rw [Bool.not_eq_true] at hnot
    rw [hnot] at hopen
    cases hopen
  have htime : recordTime F G cr mtime id b = .ok time := by
    unfold recordTime
    rw [hsealed, hopen]
    simp only [hrecord]
    rfl
  unfold Disk.createdAt
  rw [hnone, hb]
  simp only [Option.bind_some, htime]
  rfl

/-- A store and its directory, opened again. -/
theorem Mirrors.reopened {args : OpenArgs} {s : Session} (h : Mirrors F G cr mtime d entries store) (hd : d.Bounded)
    (hopen : openSession F G cr args d = some s) :
    Mirrors F G cr args.mtime s.disk entries s.store ∧ Resumed store s.store ∧
      ∀ id ∈ store.live, ∀ time, d.Stamped F G cr id time →
        store.created[id]? = some time ∧ s.store.created[id]? = some time ∧ s.disk.Stamped F G cr id time := by
  obtain ⟨entries', hopened⟩ := openSession_opened hd (Or.inr h.reconciles) hopen
  obtain ⟨bytes, hj, hreplay⟩ := h.journal
  obtain rfl : entries' = entries := hopened.kept bytes entries hj hreplay h.settled
  have hstate : ∀ id, s.disk.state cr id = d.state cr id := fun id => (hopened.state id).trans (h.truth id)
  have hm := hopened.mirrors
  refine ⟨hm, ⟨fun id => ?_, fun id => ?_, fun id => ?_⟩, fun id hid time hstamped => ?_⟩
  · rw [hm.live, h.live, hstate]
  · rw [hm.consumed, h.consumed, hstate]
  · rw [hm.expired, h.expired, hstate]
  · obtain ⟨dg, hs⟩ := (h.live id).mp hid
    have hs' := (hstate id).trans hs
    have hstamped' : s.disk.Stamped F G cr id time := by
      obtain ⟨b, plain, p, hb, hrest⟩ := hstamped
      exact ⟨b, plain, p, (hopened.presig id dg hs').trans hb, hrest⟩
    refine ⟨?_, ?_, hstamped'⟩
    · rw [h.created, createdAt_of_stamped hstamped (Disk.state_presig hs).1]
    · rw [hm.created, createdAt_of_stamped hstamped' (Disk.state_presig hs').1]

/-! ## Lemmas: runs -/

variable (F G) in
/-- The manager's store mirrors the directory. -/
def Pool.Holds (cr : Crypto) (s : Pool) : Prop := ∃ mtime entries, Mirrors F G cr mtime s.disk entries s.manager.store

theorem startPool_session {args : OpenArgs} {cfg : PoolConfig} {s : Pool} (h : startPool F G cr args cfg d = some s) :
    ∃ session, openSession F G cr args d = some session ∧ s.disk = session.disk ∧
      s.manager = ⟨session.store, cfg, Fin.ofNat _ (session.store.maxSeenId + 1), ⟨0, 0, 0⟩⟩ := by
  obtain ⟨session, hopen, hnew⟩ := Option.bind_eq_some_iff.mp h
  obtain ⟨pm, hpm, rfl⟩ := Option.map_eq_some_iff.mp hnew
  cases hpm
  exact ⟨session, hopen, rfl, rfl⟩

/-- What a step does to the store: a tick, a consume or a restart. -/
theorem Pool.act_cases {s s' : Pool} {a : PoolAct F G} (h : Mirrors F G cr mtime s.disk entries s.manager.store)
    (hd : s.disk.Bounded) (hact : s.act cr a = some s') :
    (∃ now, ((∃ nonce produce, a = .tick now nonce produce) ∨ ∃ nonce produce, a = .tickTolerant now nonce produce) ∧
      Passed F G cr mtime now s.manager s'.manager s'.disk) ∨
    (∃ id, a = .consume id ∧ s'.manager = { s.manager with store := s'.manager.store } ∧
      (s'.manager.store = s.manager.store ∧ s'.disk = s.disk ∨
        id ∈ s.manager.store.live ∧ ∃ dg,
          Mutated F G cr mtime s.disk entries s.manager.store id (.consumed dg) s'.disk s'.manager.store)) ∨
    ∃ args cfg, a = .restart args cfg ∧ Mirrors F G cr args.mtime s'.disk entries s'.manager.store ∧
      Resumed s.manager.store s'.manager.store ∧
      s'.manager = ⟨s'.manager.store, cfg, Fin.ofNat _ (s'.manager.store.maxSeenId + 1), ⟨0, 0, 0⟩⟩ ∧
      ∀ id ∈ s.manager.store.live, ∀ time, s.disk.Stamped F G cr id time →
        s.manager.store.created[id]? = some time ∧ s'.manager.store.created[id]? = some time := by
  have hroom := h.room hd
  cases a with
  | tick now nonce produce =>
    obtain ⟨⟨⟨r, pm⟩, d'⟩, hrun, rfl⟩ := Option.map_eq_some_iff.mp hact
    exact Or.inl ⟨now, Or.inl ⟨nonce, produce, rfl⟩, (tick_goes now nonce produce h (by omega)).of_completed hrun⟩
  | tickTolerant now nonce produce =>
    obtain ⟨⟨⟨r, pm⟩, d'⟩, hrun, rfl⟩ := Option.map_eq_some_iff.mp hact
    exact Or.inl ⟨now, Or.inr ⟨nonce, produce, rfl⟩,
      (tickTolerant_goes now nonce produce h (by omega)).of_completed hrun⟩
  | consume id =>
    refine Or.inr (Or.inl ⟨id, rfl, ?_⟩)
    unfold Pool.act at hact
    obtain ⟨⟨r, d'⟩, hrun, hs'⟩ := Option.map_eq_some_iff.mp hact
    have hgoes := Goes.attempt (Q := fun r d' => (∃ out, r = .ok out ∧ id ∈ s.manager.store.live ∧
        ∃ dg, Mutated F G cr mtime s.disk entries s.manager.store id (.consumed dg) d' out.2) ∨
        (∃ e, r = .error e) ∧ d' = s.disk) (D := fun (_ : PersistError) _ => False)
      (consume_goes h (by omega) (C := fun _ _ => True) id fun _ _ _ => trivial)
      (fun out _ h => by
        obtain ⟨hid, -, dg, -, hmut⟩ := h
        exact Or.inl ⟨out, rfl, hid, dg, hmut⟩) fun e _ h => Or.inr ⟨⟨e, rfl⟩, h.1⟩
    rcases hgoes.of_completed hrun with ⟨out, rfl, hmut⟩ | ⟨⟨e, rfl⟩, rfl⟩
    · subst hs'
      exact ⟨rfl, Or.inr hmut⟩
    · subst hs'
      exact ⟨rfl, Or.inl ⟨rfl, rfl⟩⟩
  | restart args cfg =>
    obtain ⟨session, hopen, hdisk, hpm⟩ := startPool_session hact
    obtain ⟨hm, hresumed, hstamps⟩ := h.reopened hd hopen
    rw [hdisk, hpm]
    exact Or.inr (Or.inr ⟨args, cfg, rfl, hm, hresumed, rfl, fun id hid time ht =>
      ⟨(hstamps id hid time ht).1, (hstamps id hid time ht).2.1⟩⟩)

theorem Pool.holds_act {s s' : Pool} {a : PoolAct F G} (h : s.Holds F G cr) (hd : s.disk.Bounded)
    (hact : s.act cr a = some s') : s'.Holds F G cr := by
  obtain ⟨mtime, entries, hm⟩ := h
  rcases Pool.act_cases hm hd hact with ⟨now, -, hpassed⟩ | ⟨id, -, -, ⟨hstore, hdisk⟩ | ⟨-, dg, hmut⟩⟩ |
    ⟨args, cfg, -, hm', -⟩
  · obtain ⟨entries', hm'⟩ := hpassed.mirrors
    exact ⟨mtime, entries', hm'⟩
  · exact ⟨mtime, entries, by rw [hstore, hdisk]; exact hm⟩
  · obtain ⟨op, payload, hm'⟩ := hmut.mirrors
    exact ⟨mtime, _, hm'⟩
  · exact ⟨args.mtime, entries, hm'⟩

/-- An id that is expired stays so. -/
theorem Pool.expired_act {s s' : Pool} {a : PoolAct F G} (h : s.Holds F G cr) (hd : s.disk.Bounded)
    (hact : s.act cr a = some s') {id : U64} (hid : id ∈ s.manager.store.expired) : id ∈ s'.manager.store.expired := by
  obtain ⟨mtime, entries, hm⟩ := h
  rcases Pool.act_cases hm hd hact with ⟨now, -, hpassed⟩ | ⟨i, -, -, ⟨hstore, -⟩ | ⟨hlive, dg, hmut⟩⟩ |
    ⟨args, cfg, -, -, hresumed, -⟩
  · exact hpassed.expired hid
  · rwa [hstore]
  · rw [hmut.expired]
    have hne : id ≠ i := fun heq => (hm.live_not_dead hlive).2 (heq ▸ hid)
    rw [if_neg hne]
    exact hid
  · exact (hresumed.expired id).mpr hid

theorem startPool_holds {args : OpenArgs} {cfg : PoolConfig} {s : Pool} (hd : d.Bounded)
    (hflag : args.allowUnverified = false ∨ d.Reconciles cr) (h : startPool F G cr args cfg d = some s) :
    s.Holds F G cr := by
  obtain ⟨session, hopen, hdisk, hpm⟩ := startPool_session h
  obtain ⟨entries, hopened⟩ := openSession_opened hd hflag hopen
  refine ⟨args.mtime, entries, ?_⟩
  rw [hdisk, hpm]
  exact hopened.mirrors

theorem le_maxSeenId {id : U64} (h : store.known id = true) : id.val ≤ store.maxSeenId := by
  unfold DiskPresigStore.known at h
  rw [decide_eq_true_eq] at h
  refine Finset.le_sup (f := fun id : U64 => id.val) ?_
  rw [Finset.mem_union, Finset.mem_union, or_assoc]
  exact h

/-! ## Theorem -/

/-- **Time to live**, over every run: the creation times survive restarts; a tick removes the records
whose time is up and those of time zero, and no other; what it removes stays removed. -/
theorem ttl_exact {args : OpenArgs} {cfg : PoolConfig} {s₀ s : Pool} {acts : List (PoolAct F G)} (hd : d.Bounded)
    (hflag : args.allowUnverified = false ∨ d.Reconciles cr) (hstart : startPool F G cr args cfg d = some s₀)
    (hrun : Run (Pool.act cr) (fun s _ => s.disk.Bounded) s₀ acts s) (hs : s.disk.Bounded) :
    (∀ args cfg s', s.act cr (.restart args cfg : PoolAct F G) = some s' → ∀ id ∈ s.manager.store.live,
      ∀ time, s.disk.Stamped F G cr id time → s.manager.store.created[id]? = some time ∧
        id ∈ s'.manager.store.live ∧ s'.manager.store.created[id]? = some time) ∧
    (0 < s.manager.cfg.ttlSecs.val → ∀ now nonce produce (a : PoolAct F G),
      a = .tick now nonce produce ∨ a = .tickTolerant now nonce produce → ∃ s', s.act cr a = some s' ∧
        Ticked F G cr s.manager.cfg.ttlSecs.val now.val s.manager.store s'.manager.store s'.disk) ∧
    ∀ id ∈ s.manager.store.expired, ∀ (acts' : List (PoolAct F G)) s',
      Run (Pool.act cr) (fun s _ => s.disk.Bounded) s acts' s' → id ∉ s'.manager.store.live ∧
        id ∈ s'.manager.store.expired ∧ id.val ≤ s'.manager.store.maxSeenId := by
  have hinv : ∀ (s : Pool) (a : PoolAct F G) (s' : Pool), s.Holds F G cr → s.disk.Bounded → s.act cr a = some s' →
      s'.Holds F G cr := fun _ _ _ h hd hact => Pool.holds_act h hd hact
  have hholds := hrun.invariant hinv (startPool_holds hd hflag hstart)
  obtain ⟨mtime, entries, hm⟩ := hholds
  refine ⟨fun args' cfg' s' hact id hid time ht => ?_, fun httl now nonce produce a ha => ?_, fun id hid acts' s' hrun' => ?_⟩
  · rcases Pool.act_cases hm hs hact with ⟨now, hpassed⟩ | ⟨i, hi, -⟩ | ⟨args'', cfg'', -, -, hresumed, -, hstamps⟩
    · obtain ⟨session, hopen, hdisk, hpm⟩ := startPool_session hact
      obtain ⟨-, hresumed, hstamps⟩ := hm.reopened hs hopen
      rw [hpm]
      exact ⟨(hstamps id hid time ht).1, (hresumed.live id).mpr hid, (hstamps id hid time ht).2.1⟩
    · cases hi
    · exact ⟨(hstamps id hid time ht).1, (hresumed.live id).mpr hid, (hstamps id hid time ht).2⟩
  · have hroom := hm.room hs
    rcases ha with rfl | rfl
    · obtain ⟨out, d', hrun', hpassed⟩ := (tick_goes now nonce produce hm (by omega)).completes fun _ _ h => h
      exact ⟨⟨d', out.2⟩, by rw [Pool.act, hrun']; rfl, hpassed.ticked httl hm⟩
    · obtain ⟨out, d', hrun', hpassed⟩ := (tickTolerant_goes now nonce produce hm (by omega)).completes fun _ _ h => h
      exact ⟨⟨d', out.2⟩, by rw [Pool.act, hrun']; rfl, hpassed.ticked httl hm⟩
  · obtain ⟨⟨mtime', entries', hm'⟩, hid'⟩ := hrun'.invariant (I := fun s => s.Holds F G cr ∧ id ∈ s.manager.store.expired)
      (fun s a s' h hd hact => ⟨Pool.holds_act h.1 hd hact, Pool.expired_act h.1 hd hact h.2⟩) ⟨⟨mtime, entries, hm⟩, hid⟩
    refine ⟨fun hlive => (hm'.live_not_dead hlive).2 hid', hid', le_maxSeenId ?_⟩
    unfold DiskPresigStore.known
    exact decide_eq_true (Or.inr (Or.inr hid'))

end Pool

section Fresh

open Secp256k1

def produceOf (id : U64) : Except PersistError (Record Scalar Point) := .ok (recordOf id)

def smallPool : PoolConfig := ⟨1, 10⟩

def freshPool : Pool := ⟨freshSession.disk, ⟨freshSession.store, smallPool, 1, ⟨0, 0, 0⟩⟩⟩

theorem freshPool_started : startPool Scalar Point plainCrypto freshArgs smallPool freshDisk = some freshPool := rfl

def tickAt (now : U64) : PoolAct Scalar Point := .tick now zeroNonce produceOf

def restartFresh : PoolAct Scalar Point := .restart freshArgs smallPool

/-- A record of time 5, a restart, a tick at 16 that removes it and makes another, and a tick
at 20 that leaves that one. -/
theorem ttl_exact_aged : ∃ made resumed aged last : Pool,
    freshPool.act plainCrypto (tickAt 5) = some made ∧ made.act plainCrypto restartFresh = some resumed ∧
      resumed.act plainCrypto (tickAt 16) = some aged ∧ aged.act plainCrypto (tickAt 20) = some last ∧
      1 ∈ resumed.manager.store.live ∧ resumed.manager.store.created[(1 : U64)]? = some 5 ∧
      1 ∉ aged.manager.store.live ∧ 2 ∈ last.manager.store.live ∧ 1 ∉ last.manager.store.live := by
  have hfacts : ((freshPool.act plainCrypto (tickAt 5)).bind fun made => (made.act plainCrypto restartFresh).bind fun resumed =>
      (resumed.act plainCrypto (tickAt 16)).bind fun aged => (aged.act plainCrypto (tickAt 20)).map fun last =>
        (made, resumed, aged, last)).any (fun ss => decide (ss.1.disk.Bounded ∧ ss.2.1.disk.Bounded ∧ ss.2.2.1.disk.Bounded ∧
          ss.2.1.manager.cfg.ttlSecs = 10 ∧ ss.2.2.1.manager.cfg.ttlSecs = 10 ∧ 1 ∈ ss.1.manager.store.live ∧
          2 ∉ ss.2.1.manager.store.live ∧ 2 ∈ ss.2.2.1.manager.store.live)) = true := by decide +kernel
  obtain ⟨ss, hacts, hss⟩ := (Option.any_eq_true _ _).mp hfacts
  obtain ⟨made, hmade, hacts⟩ := Option.bind_eq_some_iff.mp hacts
  obtain ⟨resumed, hresumed, hacts⟩ := Option.bind_eq_some_iff.mp hacts
  obtain ⟨aged, haged, hacts⟩ := Option.bind_eq_some_iff.mp hacts
  obtain ⟨last, hlast, rfl⟩ := Option.map_eq_some_iff.mp hacts
  obtain ⟨hb₁, hb₂, hb₃, httl₂, httl₃, hin₁, hnot₂, hin₂⟩ := of_decide_eq_true hss
  have hrun₁ : Run (Pool.act plainCrypto) (fun s _ => s.disk.Bounded) freshPool [tickAt 5] made :=
    Run.cons freshSession_bounded hmade (Run.nil made)
  have hrun₂ := hrun₁.append (Run.cons hb₁ hresumed (Run.nil resumed))
  have hrun₃ := hrun₂.append (Run.cons hb₂ haged (Run.nil aged))
  -- the time of the record, before and after the restart
  have hfresh := ttl_exact freshDisk_bounded (Or.inl rfl) freshPool_started (Run.nil freshPool) freshSession_bounded
  obtain ⟨made', hmade', hticked⟩ := hfresh.2.1 (by decide) 5 zeroNonce produceOf _ (Or.inl rfl)
  obtain rfl : made' = made := Option.some.inj (hmade'.symm.trans hmade)
  have hstamped := (hticked.produced 1 hin₁ (by decide)).2.2
  obtain ⟨-, hlive, hcreated⟩ := (ttl_exact freshDisk_bounded (Or.inl rfl) freshPool_started hrun₁ hb₁).1 freshArgs smallPool
    resumed hresumed 1 hin₁ 5 hstamped
  -- it is due at 16, and a new one is made
  obtain ⟨aged', haged', hticked⟩ := (ttl_exact freshDisk_bounded (Or.inl rfl) freshPool_started hrun₂ hb₂).2.1
    (by rw [httl₂]; decide) 16 zeroNonce produceOf _ (Or.inl rfl)
  obtain rfl : aged' = aged := Option.some.inj (haged'.symm.trans haged)
  rw [httl₂] at hticked
  have hgone := (hticked.removed 1 hlive).mpr ⟨5, hcreated, Or.inr (by decide)⟩
  have hmade₂ := (hticked.produced 2 hin₂ hnot₂).2.1
  -- which is not due at 20, and the old one is gone for good
  have hend := ttl_exact freshDisk_bounded (Or.inl rfl) freshPool_started hrun₃ hb₃
  obtain ⟨last', hlast', hticked'⟩ := hend.2.1 (by rw [httl₃]; decide) 20 zeroNonce produceOf _ (Or.inl rfl)
  obtain rfl : last' = last := Option.some.inj (hlast'.symm.trans hlast)
  rw [httl₃] at hticked'
  refine ⟨made', resumed, aged', last', hmade, hresumed, haged, hlast, hlive, hcreated, hgone, ?_,
    (hend.2.2 1 (hticked.buried 1 hlive hgone) [tickAt 20] last' (Run.cons hb₃ hlast (Run.nil last'))).1⟩
  by_contra hnot
  obtain ⟨time, htime, hdue⟩ := (hticked'.removed 2 hin₂).mp hnot
  obtain rfl := Option.some.inj (htime.symm.trans hmade₂)
  exact absurd hdue (by decide)

/-- A record stamped at time zero goes at the next tick, though its time is not up. -/
theorem stamp_zero_removed : ∃ s s' : Pool, freshPool.act plainCrypto (.tick 0 zeroNonce produceOf) = some s ∧
    s.disk.Stamped Scalar Point plainCrypto 1 0 ∧ s.manager.cfg.ttlSecs = 10 ∧ 1 ∈ s.manager.store.live ∧
    s.manager.store.created[(1 : U64)]? = some 0 ∧ s.act plainCrypto (.tick 0 zeroNonce produceOf) = some s' ∧
    1 ∉ s'.manager.store.live ∧ ¬ 0 + 10 ≤ 0 := by
  obtain ⟨mtime, entries, hm⟩ := startPool_holds freshDisk_bounded (Or.inl rfl) freshPool_started
  have hroom := hm.room freshSession_bounded
  obtain ⟨out, d, hrun, hpassed⟩ := (tick_goes 0 zeroNonce produceOf hm (by omega)).completes fun _ _ h => h
  have hact : freshPool.act plainCrypto (.tick 0 zeroNonce produceOf) = some ⟨d, out.2⟩ := by
    rw [Pool.act, hrun]
    rfl
  have hcreated : (freshPool.act plainCrypto (.tick 0 zeroNonce produceOf)).map
      (fun s => s.manager.store.created[(1 : U64)]?) = some (some 0) := rfl
  have hlive : (freshPool.act plainCrypto (.tick 0 zeroNonce produceOf)).map
      (fun s => decide (1 ∈ s.manager.store.live)) = some true := rfl
  have hgone : ((freshPool.act plainCrypto (.tick 0 zeroNonce produceOf)).bind fun s =>
      (s.act plainCrypto (.tick 0 zeroNonce produceOf)).map fun s' => decide (1 ∈ s'.manager.store.live)) =
      some false := rfl
  rw [hact] at hcreated hlive hgone
  have hin : 1 ∈ out.2.store.live := of_decide_eq_true (Option.some.inj hlive)
  obtain ⟨s', hact', hout⟩ := Option.map_eq_some_iff.mp hgone
  have hstamped := ((hpassed.ticked (by decide) hm).produced 1 hin (by decide)).2.2
  exact ⟨⟨d, out.2⟩, s', hact, hstamped, congrArg PoolConfig.ttlSecs hpassed.cfg, hin, Option.some.inj hcreated, hact',
    of_decide_eq_false hout, by decide⟩

end Fresh

end OhmEcdsa
