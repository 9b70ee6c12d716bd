import OhmEcdsa.Core.Sign
import OhmEcdsa.Support.Run

/-!
# The in-memory stores (`src/runtime/store.rs`)

`insert` refuses an id that is present, and remembers nothing of the ids that
`consume` has handed out.  Over a whole run a record is single use as long as no
id comes back after it was handed out, and no longer than that:

    no handed-out id is inserted again  →  the ids handed out are distinct   (handed_out_once)
-/

namespace OhmEcdsa

open Transition

/-- `BTreeMap<u64, _>`, the records by id. -/
abbrev Records (R : Type) := Std.ExtTreeMap U64 R compare

/-! ## Algorithm -/

/-- Insert a record; rejects a duplicate id. -/
def insertRecord {R : Type} (records : Records R) (id : U64) (record : R) : Outcome (Records R) :=
  if records.contains id then .error (.error (.presigStore "duplicate presignature id"))
  else .ok (records.insert id record)

/-- Remove and return the record for `id`. -/
def removeRecord {R : Type} (records : Records R) (id : U64) : Outcome (R × Records R) :=
  match records[id]? with
  | some record => .ok (record, records.erase id)
  | none => .error (.error (.presigStore "unknown or consumed presignature id"))

/-- Per-party presignature store bound to one long-term key. -/
structure PresigStore (F G : Type) where
  publicKey : G
  records : Records (Presignature F G)

namespace PresigStore

variable {F G : Type}

def new (publicKey : G) : PresigStore F G := ⟨publicKey, ∅⟩

def insert (st : PresigStore F G) (presig : Presignature F G) : Outcome (PresigStore F G) := do
  let records ← insertRecord st.records presig.id presig
  return { st with records }

def consume (st : PresigStore F G) (id : U64) : Outcome (Presignature F G × PresigStore F G) := do
  let (presig, records) ← removeRecord st.records id
  return (presig, { st with records })

/-- An epoch change drops every outstanding record. -/
def clear (st : PresigStore F G) : PresigStore F G := { st with records := ∅ }

end PresigStore

/-- Key-free pool of key-independent records. -/
structure KiPool (F G : Type) where
  records : Records (KiPresignature F G)

namespace KiPool

variable {F G : Type}

def new : KiPool F G := ⟨∅⟩

def insert (pool : KiPool F G) (record : KiPresignature F G) : Outcome (KiPool F G) := do
  let records ← insertRecord pool.records record.id record
  return ⟨records⟩

def consume (pool : KiPool F G) (id : U64) : Outcome (KiPresignature F G × KiPool F G) := do
  let (record, records) ← removeRecord pool.records id
  return (record, ⟨records⟩)

end KiPool

/-! ## Runs -/

/-- A store in use, with the records `consume` has returned so far. -/
structure Use (S R : Type) where
  store : S
  handed : List R

/-- An insertion that fails leaves the store as it was. -/
def Use.put {S R : Type} (u : Use S R) : Outcome S → Use S R
  | .ok store => { u with store }
  | .error _ => u

def Use.hand {S R : Type} (u : Use S R) : Outcome (R × S) → Use S R
  | .ok (record, store) => ⟨store, u.handed ++ [record]⟩
  | .error _ => u

/-- The operations of `PresigStore`. -/
inductive StoreOp (F G : Type)
  | insert (presig : Presignature F G)
  | consume (id : U64)
  | clear

/-- The operations of `KiPool`. -/
inductive PoolOp (F G : Type)
  | insert (record : KiPresignature F G)
  | consume (id : U64)

section Step

variable {F G : Type}

def PresigStore.step (u : Use (PresigStore F G) (Presignature F G)) :
    StoreOp F G → Option (Use (PresigStore F G) (Presignature F G))
  | .insert presig => some (u.put (u.store.insert presig))
  | .consume id => some (u.hand (u.store.consume id))
  | .clear => some { u with store := u.store.clear }

def KiPool.step (u : Use (KiPool F G) (KiPresignature F G)) :
    PoolOp F G → Option (Use (KiPool F G) (KiPresignature F G))
  | .insert record => some (u.put (u.store.insert record))
  | .consume id => some (u.hand (u.store.consume id))

/-- No id comes back after it was handed out. -/
def PresigStore.Unused (u : Use (PresigStore F G) (Presignature F G)) : StoreOp F G → Prop
  | .insert presig => presig.id ∉ u.handed.map (·.id)
  | _ => True

def KiPool.Unused (u : Use (KiPool F G) (KiPresignature F G)) : PoolOp F G → Prop
  | .insert record => record.id ∉ u.handed.map (·.id)
  | _ => True

instance (u : Use (PresigStore F G) (Presignature F G)) (op : StoreOp F G) : Decidable (PresigStore.Unused u op) := by
  cases op <;> unfold PresigStore.Unused <;> infer_instance

instance (u : Use (KiPool F G) (KiPresignature F G)) (op : PoolOp F G) : Decidable (KiPool.Unused u op) := by
  cases op <;> unfold KiPool.Unused <;> infer_instance

end Step

/-! ## Lemmas -/

section Lemmas

variable {R : Type} {key : R → U64}

/-- Records stand under their own ids, none of them handed out, and no id was
handed out twice. -/
structure SingleUse (key : R → U64) (records : Records R) (handed : List R) : Prop where
  keyed : ∀ id record, records[id]? = some record → key record = id
  unused : ∀ id record, records[id]? = some record → id ∉ handed.map key
  nodup : (handed.map key).Nodup

theorem SingleUse.empty {handed : List R} (h : (handed.map key).Nodup) : SingleUse key (∅ : Records R) handed where
  keyed := fun _ _ hr => by simp at hr
  unused := fun _ _ hr => by simp at hr
  nodup := h

theorem SingleUse.insertRecord {records records' : Records R} {handed : List R} (h : SingleUse key records handed)
    {record : R} (hnew : key record ∉ handed.map key)
    (hins : insertRecord records (key record) record = .ok records') : SingleUse key records' handed := by
  unfold OhmEcdsa.insertRecord at hins
  split at hins
  · cases hins
  · cases hins
    refine ⟨?_, ?_, h.nodup⟩
    · intro id r hr
      rw [Std.ExtTreeMap.getElem?_insert] at hr
      split at hr
      · next heq =>
        cases hr
        exact Std.LawfulEqCmp.eq_of_compare heq
      · exact h.keyed id r hr
    · intro id r hr
      rw [Std.ExtTreeMap.getElem?_insert] at hr
      split at hr
      · next heq =>
        rw [← Std.LawfulEqCmp.eq_of_compare heq]
        exact hnew
      · exact h.unused id r hr

theorem removeRecord_ok {records records' : Records R} {id : U64} {record : R}
    (h : removeRecord records id = .ok (record, records')) :
    records[id]? = some record ∧ records' = records.erase id := by
  unfold removeRecord at h
  split at h
  · next r hr =>
    cases h
    exact ⟨hr, rfl⟩
  · cases h

theorem SingleUse.removeRecord {records records' : Records R} {handed : List R} (h : SingleUse key records handed)
    {id : U64} {record : R} (hrem : removeRecord records id = .ok (record, records')) :
    SingleUse key records' (handed ++ [record]) := by
  obtain ⟨hget, rfl⟩ := removeRecord_ok hrem
  have hkey := h.keyed id record hget
  refine ⟨?_, ?_, ?_⟩
  · intro i r hr
    rw [Std.ExtTreeMap.getElem?_erase] at hr
    split at hr
    · cases hr
    · exact h.keyed i r hr
  · intro i r hr
    rw [Std.ExtTreeMap.getElem?_erase] at hr
    split at hr
    · cases hr
    · next hne =>
      rw [List.map_append, List.mem_append, not_or]
      refine ⟨h.unused i r hr, ?_⟩
      rw [List.map_singleton, List.mem_singleton, hkey]
      rintro rfl
      exact hne Std.ReflCmp.compare_self
  · rw [List.map_append, List.nodup_append_comm, List.map_singleton, List.singleton_append, List.nodup_cons]
    exact ⟨hkey ▸ h.unused id record hget, h.nodup⟩

/-- What was inserted can be removed. -/
theorem removeRecord_insert (records : Records R) (id : U64) (record : R) :
    removeRecord (records.insert id record) id = .ok (record, (records.insert id record).erase id) := by
  unfold removeRecord
  rw [Std.ExtTreeMap.getElem?_insert_self]

/-- Only the ids present are refused. -/
theorem SingleUse.insertRecord_used {records : Records R} {handed : List R} (h : SingleUse key records handed)
    {record : R} (hused : key record ∈ handed.map key) :
    OhmEcdsa.insertRecord records (key record) record = .ok (records.insert (key record) record) := by
  unfold OhmEcdsa.insertRecord
  rw [if_neg]
  intro hc
  rw [Std.ExtTreeMap.contains_eq_isSome_getElem?, Option.isSome_iff_exists] at hc
  obtain ⟨r, hr⟩ := hc
  exact h.unused _ r hr hused

theorem not_nodup_append {handed : List R} {record : R} (hused : key record ∈ handed.map key) :
    ¬ ((handed ++ [record]).map key).Nodup := by
  rw [List.map_append, List.map_singleton, List.nodup_append]
  intro h
  exact h.2.2 _ hused _ (List.mem_singleton.mpr rfl) rfl

end Lemmas

section Run

variable {F G : Type}

theorem PresigStore.step_singleUse (u : Use (PresigStore F G) (Presignature F G)) (op : StoreOp F G)
    (u' : Use (PresigStore F G) (Presignature F G)) (h : SingleUse (·.id) u.store.records u.handed)
    (hok : PresigStore.Unused u op) (hstep : PresigStore.step u op = some u') :
    SingleUse (·.id) u'.store.records u'.handed := by
  cases op with
  | insert presig =>
    cases hstep
    unfold PresigStore.insert
    cases hins : insertRecord u.store.records presig.id presig with
    | error e => exact h
    | ok records => exact h.insertRecord hok hins
  | consume id =>
    cases hstep
    unfold PresigStore.consume
    cases hrem : removeRecord u.store.records id with
    | error e => exact h
    | ok out => exact h.removeRecord hrem
  | clear =>
    cases hstep
    exact SingleUse.empty h.nodup

theorem KiPool.step_singleUse (u : Use (KiPool F G) (KiPresignature F G)) (op : PoolOp F G)
    (u' : Use (KiPool F G) (KiPresignature F G)) (h : SingleUse (·.id) u.store.records u.handed)
    (hok : KiPool.Unused u op) (hstep : KiPool.step u op = some u') :
    SingleUse (·.id) u'.store.records u'.handed := by
  cases op with
  | insert record =>
    cases hstep
    unfold KiPool.insert
    cases hins : insertRecord u.store.records record.id record with
    | error e => exact h
    | ok records => exact h.insertRecord hok hins
  | consume id =>
    cases hstep
    unfold KiPool.consume
    cases hrem : removeRecord u.store.records id with
    | error e => exact h
    | ok out => exact h.removeRecord hrem

/-- An id that comes back is handed out again. -/
theorem PresigStore.reinserted_twice {u : Use (PresigStore F G) (Presignature F G)}
    (h : SingleUse (·.id) u.store.records u.handed) {presig : Presignature F G}
    (hused : ¬ PresigStore.Unused u (.insert presig)) :
    ∃ u', Run PresigStore.step (fun _ _ => True) u [.insert presig, .consume presig.id] u' ∧
      ¬ (u'.handed.map (·.id)).Nodup := by
  have hmem : presig.id ∈ u.handed.map (·.id) := not_not.mp hused
  refine ⟨_, Run.cons trivial rfl (Run.cons trivial rfl (Run.nil _)), ?_⟩
  have hins : u.store.insert presig = .ok ⟨u.store.publicKey, u.store.records.insert presig.id presig⟩ := by
    unfold PresigStore.insert
    rw [h.insertRecord_used hmem]
    rfl
  rw [hins]
  simp only [Use.put, PresigStore.consume, removeRecord_insert]
  exact not_nodup_append hmem

theorem KiPool.reinserted_twice {u : Use (KiPool F G) (KiPresignature F G)}
    (h : SingleUse (·.id) u.store.records u.handed) {record : KiPresignature F G}
    (hused : ¬ KiPool.Unused u (.insert record)) :
    ∃ u', Run KiPool.step (fun _ _ => True) u [.insert record, .consume record.id] u' ∧
      ¬ (u'.handed.map (·.id)).Nodup := by
  have hmem : record.id ∈ u.handed.map (·.id) := not_not.mp hused
  refine ⟨_, Run.cons trivial rfl (Run.cons trivial rfl (Run.nil _)), ?_⟩
  have hins : u.store.insert record = .ok ⟨u.store.records.insert record.id record⟩ := by
    unfold KiPool.insert
    rw [h.insertRecord_used hmem]
    rfl
  rw [hins]
  simp only [Use.put, KiPool.consume, removeRecord_insert]
  exact not_nodup_append hmem

/-! ## Top theorem -/

/-- **Single use in memory**: as long as a run inserts no id that it has handed
out, every id is handed out at most once, by either store; and from every state
of such a run, inserting a handed-out id and consuming it hands it out again. -/
theorem handed_out_once (publicKey : G) :
    (∀ ops u, Run PresigStore.step PresigStore.Unused (⟨.new publicKey, []⟩ : Use (PresigStore F G) _) ops u →
      (u.handed.map (·.id)).Nodup ∧
      ∀ presig, ¬ PresigStore.Unused u (.insert presig) →
        ∃ u', Run PresigStore.step (fun _ _ => True) u [.insert presig, .consume presig.id] u' ∧
          ¬ (u'.handed.map (·.id)).Nodup) ∧
    (∀ ops u, Run KiPool.step KiPool.Unused (⟨.new, []⟩ : Use (KiPool F G) _) ops u →
      (u.handed.map (·.id)).Nodup ∧
      ∀ record, ¬ KiPool.Unused u (.insert record) →
        ∃ u', Run KiPool.step (fun _ _ => True) u [.insert record, .consume record.id] u' ∧
          ¬ (u'.handed.map (·.id)).Nodup) := by
  constructor
  · intro ops u hrun
    have h : SingleUse (·.id) u.store.records u.handed :=
      hrun.invariant PresigStore.step_singleUse (SingleUse.empty List.nodup_nil)
    exact ⟨h.nodup, fun _ hused => PresigStore.reinserted_twice h hused⟩
  · intro ops u hrun
    have h : SingleUse (·.id) u.store.records u.handed :=
      hrun.invariant KiPool.step_singleUse (SingleUse.empty List.nodup_nil)
    exact ⟨h.nodup, fun _ hused => KiPool.reinserted_twice h hused⟩

end Run

section Solo

open Secp256k1

def soloPool : List (PoolOp Scalar Point) := [.insert ⟨0, 1, 1, 1, 1, ⟨[1]⟩⟩, .consume 0]

/-- Two records of a store, one after the other. -/
def storeOps : List (StoreOp Scalar Point) :=
  [.insert soloRecord, .consume 0, .insert { soloRecord with id := 1 }, .consume 1]

def poolOps : List (PoolOp Scalar Point) := soloPool ++ [.insert ⟨1, 1, 1, 1, 1, ⟨[1]⟩⟩, .consume 1]

/-- Either store hands both records out; the first one comes back when it is inserted again. -/
theorem handed_out_once_both :
    (∃ u, Run PresigStore.step PresigStore.Unused (⟨.new 1, []⟩ : Use (PresigStore Scalar Point) _) storeOps u ∧
      u.handed.length = 2 ∧ (u.handed.map (·.id)).Nodup ∧
      ∃ u', Run PresigStore.step (fun _ _ => True) u [.insert soloRecord, .consume 0] u' ∧ ¬ (u'.handed.map (·.id)).Nodup) ∧
    ∃ u, Run KiPool.step KiPool.Unused (⟨.new, []⟩ : Use (KiPool Scalar Point) _) poolOps u ∧
      u.handed.length = 2 ∧ (u.handed.map (·.id)).Nodup := by
  obtain ⟨hstore, hpool⟩ := handed_out_once (F := Scalar) (1 : Point)
  have hstored : ∃ u, Run PresigStore.step PresigStore.Unused (⟨.new 1, []⟩ : Use (PresigStore Scalar Point) _) storeOps u ∧
      u.handed.length = 2 ∧ ¬ PresigStore.Unused u (.insert soloRecord) :=
    ⟨_, Run.cons (by decide) rfl (Run.cons trivial rfl (Run.cons (by decide) rfl (Run.cons trivial rfl (Run.nil _)))), rfl,
      by decide⟩
  have hpooled : ∃ u, Run KiPool.step KiPool.Unused (⟨.new, []⟩ : Use (KiPool Scalar Point) _) poolOps u ∧
      u.handed.length = 2 :=
    ⟨_, Run.cons (by decide) rfl (Run.cons trivial rfl (Run.cons (by decide) rfl (Run.cons trivial rfl (Run.nil _)))), rfl⟩
  obtain ⟨u, hu, hlen, hused⟩ := hstored
  obtain ⟨v, hv, hlen'⟩ := hpooled
  obtain ⟨hnodup, hagain⟩ := hstore storeOps u hu
  exact ⟨⟨u, hu, hlen, hnodup, hagain soloRecord hused⟩, v, hv, hlen', (hpool poolOps v hv).1⟩

/-- The same id is accepted again after `consume`, by the pool and by the store,
and handed out twice. -/
theorem handed_out_twice :
    (∃ u, Run KiPool.step (fun _ _ => True) (⟨.new, []⟩ : Use (KiPool Scalar Point) _)
      (soloPool ++ soloPool) u ∧ ¬ (u.handed.map (·.id)).Nodup) ∧
    ∃ u, Run PresigStore.step (fun _ _ => True) (⟨.new 1, []⟩ : Use (PresigStore Scalar Point) _)
      [.insert soloRecord, .consume 0, .insert soloRecord, .consume 0] u ∧ ¬ (u.handed.map (·.id)).Nodup := by
  constructor
  · refine ⟨_, Run.cons trivial rfl (Run.cons trivial rfl (Run.cons trivial rfl (Run.cons trivial rfl (Run.nil _)))), ?_⟩
    decide +kernel
  · refine ⟨_, Run.cons trivial rfl (Run.cons trivial rfl (Run.cons trivial rfl (Run.cons trivial rfl (Run.nil _)))), ?_⟩
    decide +kernel

end Solo

end OhmEcdsa
