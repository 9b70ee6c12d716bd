import OhmEcdsa.Core.Store
import OhmEcdsa.Store.Rollback

/-!
# What the store is for (`store/persist.rs`)

On disk or in memory, a store takes records and hands each of them out.  The durable store
answers every call, refusals and their texts included, as the one in memory would that
never forgets an id it is done with; and an `open` in between changes no answer.

    the answers of a directory = the answers of the records in it and the ids spent     (answers_eq)
-/

set_option linter.unusedSectionVars false

namespace OhmEcdsa

open Codec Decoder Hoare Transition

/-! ## Specification -/

/-- The store in memory, and the ids that it is done with. -/
structure SpentStore (F G : Type) where
  store : PresigStore F G
  spent : Finset U64

/-- The answer to a call. -/
inductive StoreAnswer (F G : Type)
  | stored
  | record (presig : Presignature F G)
  | done (changed : Bool)
  | opened
  | refused (e : PersistError)
  | panicked (msg : String)
  deriving DecidableEq

section Refines

variable {F G : Type} [Field F] [DecidableEq F] [AddCommGroup G] [Module F G] [DecidableEq G] [K256 F G]
  [WireFormat F G]

def StoreAnswer.ofFault : Fault → StoreAnswer F G
  | .error e => .refused (.protocol e)
  | .panic msg => .panicked msg

/-- What a store in memory would answer. -/
def SpentStore.serve (a : SpentStore F G) : StoreCall F G → SpentStore F G × StoreAnswer F G
  | .insertAt _ presig _ =>
    if presig.val.id ∈ a.spent then (a, .refused (presigStore "duplicate presignature id"))
    else
      match a.store.insert presig.val with
      | .ok store => ({ a with store := store }, .stored)
      | .error e => (a, .ofFault e)
  | .consume id =>
    match a.store.consume id with
    | .ok (presig, store) => (⟨store, insert id a.spent⟩, .record presig)
    | .error e => (a, .ofFault e)
  | .expire id =>
    if a.store.records.contains id then
      (⟨{ a.store with records := a.store.records.erase id }, insert id a.spent⟩, .done true)
    else (a, .done false)
  | .burn id =>
    if a.store.records.contains id ∨ id ∈ a.spent then (a, .done false)
    else ({ a with spent := insert id a.spent }, .done true)
  | .reopen _ => (a, .opened)

/-- What the durable store answers; a call that fails leaves the process as it was, an `open`
that fails leaves none. -/
def Session.serve (cr : Crypto) (s : Session) : StoreCall F G → Option (Session × StoreAnswer F G)
  | .insertAt nonce presig createdAt =>
    match outcome (s.store.insertAt cr nonce presig.val createdAt.val) s.disk with
    | (.ok store, d) => some (⟨d, store⟩, .stored)
    | (.error e, d) => some (⟨d, s.store⟩, .refused e)
  | .consume id =>
    match outcome (s.store.consume F G cr id) s.disk with
    | (.ok (presig, store), d) => some (⟨d, store⟩, .record presig)
    | (.error e, d) => some (⟨d, s.store⟩, .refused e)
  | .expire id =>
    match outcome (s.store.expire cr id) s.disk with
    | (.ok (changed, store), d) => some (⟨d, store⟩, .done changed)
    | (.error e, d) => some (⟨d, s.store⟩, .refused e)
  | .burn id =>
    match outcome (s.store.burn cr id) s.disk with
    | (.ok (changed, store), d) => some (⟨d, store⟩, .done changed)
    | (.error e, d) => some (⟨d, s.store⟩, .refused e)
  | .reopen args =>
    match outcome (openMode F G cr args) s.disk with
    | (.ok store, d) => some (⟨d, store⟩, .opened)
    | (.error _, _) => none

/-- A store in use, with the answers so far. -/
structure Served (S F G : Type) where
  store : S
  answers : List (StoreAnswer F G)

def Served.durable (cr : Crypto) (u : Served Session F G) (c : StoreCall F G) : Option (Served Session F G) :=
  (u.store.serve cr c).map fun out => ⟨out.1, u.answers ++ [out.2]⟩

def Served.inMemory (u : Served (SpentStore F G) F G) (c : StoreCall F G) : Served (SpentStore F G) F G :=
  ⟨(u.store.serve c).1, u.answers ++ [(u.store.serve c).2]⟩

/-- The records are those that the directory holds for the live ids, and the spent ids are its tombstones. -/
structure Reflects (cr : Crypto) (s : Session) (a : SpentStore F G) : Prop where
  live : ∀ id, id ∈ s.store.live ↔ a.store.records.contains id = true
  record : ∀ id presig, a.store.records[id]? = some presig → s.disk.Holds cr id presig
  spent : ∀ id, id ∈ a.spent ↔ id ∈ s.store.consumed ∨ id ∈ s.store.expired

/-- An `open` with the right key, whose transcript shows no live record spent. -/
def StoreCall.Welcome (keyBytes : Bytes) (s : Session) : StoreCall F G → Prop
  | .reopen args => args.keyBytes = keyBytes ∧ (args.allowUnverified = true ∨ args.Unspent F G s.store.live)
  | _ => True

/-! ## Lemmas: the relation -/

variable {cr : Crypto} {keyBytes : Bytes} {s : Session} {a : SpentStore F G} {entries : List JournalEntry} {mtime : U64 → Nat}

theorem contains_iff {records : Records (Presignature F G)} {id : U64} :
    records.contains id = true ↔ ∃ presig, records[id]? = some presig := by
  rw [Std.ExtTreeMap.contains_eq_isSome_getElem?, Option.isSome_iff_exists]

theorem Disk.Holds.functional {d : Disk} {id : U64} {p q : Presignature F G} (hp : d.Holds cr id p) (hq : d.Holds cr id q) :
    p = q := by
  obtain ⟨b, plain, time, hb, hopen, htake⟩ := hp
  obtain ⟨b', plain', time', hb', hopen', htake'⟩ := hq
  obtain rfl := Option.some.inj (hb.symm.trans hb')
  obtain rfl := Except.ok.inj (hopen.symm.trans hopen')
  exact congrArg Prod.fst (Option.some.inj (htake.symm.trans htake'))

theorem Disk.SameAt.holds {d d' : Disk} {id : U64} {p : Presignature F G} (h : d.SameAt d' id) (hp : d.Holds cr id p) :
    d'.Holds cr id p := by
  obtain ⟨b, plain, time, hb, hopen, htake⟩ := hp
  exact ⟨b, plain, time, h.presig.trans hb, hopen, htake⟩

namespace Reflects

variable (h : Reflects cr s a)

include h

theorem known_iff {id : U64} : s.store.known id = true ↔ a.store.records.contains id = true ∨ id ∈ a.spent := by
  rw [OhmEcdsa.known_iff, h.live, h.spent]

/-- **A call on an id**, on both sides. -/
theorem mutated {id : U64} {st : DiskState} {s' : Session} {a' : SpentStore F G} {own : Option (Presignature F G)}
    (hm : Mutated F G cr mtime s.disk entries s.store id st s'.disk s'.store)
    (hrecords : ∀ i : U64, a'.store.records[i]? = if i = id then own else a.store.records[i]?)
    (hown : own.isSome = st.isLive) (hholds : ∀ p, own = some p → s'.disk.Holds cr id p)
    (hspent : ∀ i, i ∈ a'.spent ↔ if i = id then st.isLive = false else i ∈ a.spent) : Reflects cr s' a' := by
  refine ⟨fun i => ?_, fun i p hp => ?_, fun i => ?_⟩
  · rw [hm.live, Std.ExtTreeMap.contains_eq_isSome_getElem?, hrecords]
    by_cases hi : i = id
    · rw [if_pos hi, if_pos hi, hown]
    · rw [if_neg hi, if_neg hi, h.live, Std.ExtTreeMap.contains_eq_isSome_getElem?]
  · rw [hrecords] at hp
    by_cases hi : i = id
    · rw [if_pos hi] at hp
      rw [hi]
      exact hholds p hp
    · rw [if_neg hi] at hp
      exact (hm.same i hi).holds (h.record i p hp)
  · rw [hspent, hm.consumed, hm.expired]
    by_cases hi : i = id
    · rw [if_pos hi, if_pos hi, if_pos hi]
      cases st <;> simp [DiskState.isLive]
    · rw [if_neg hi, if_neg hi, if_neg hi, h.spent]

/-- A record that dies. -/
theorem buried {id : U64} {st : DiskState} {s' : Session} (hst : st.isLive = false)
    (hm : Mutated F G cr mtime s.disk entries s.store id st s'.disk s'.store) :
    Reflects cr s' ⟨{ a.store with records := a.store.records.erase id }, insert id a.spent⟩ := by
  refine h.mutated hm (fun i => getElem?_erase_word _ _ _) hst.symm (fun p hp => by cases hp) fun i => ?_
  by_cases hi : i = id
  · simp [hi, hst]
  · simp [hi]

end Reflects

/-! ## Lemmas: a call -/

/-- The two stores after calls that both have answered alike. -/
structure Matched (F G : Type) [Field F] [DecidableEq F] [AddCommGroup G] [Module F G] [DecidableEq G] [K256 F G]
    [WireFormat F G] (cr : Crypto) (keyBytes : Bytes) (s : Session) (a : SpentStore F G) : Prop where
  up : ∃ mtime entries, Mirrors F G cr mtime s.disk entries s.store
  key : s.disk.key = some keyBytes
  reflects : Reflects cr s a

theorem Matched.mutated {id : U64} {st : DiskState} {s' : Session} {a' : SpentStore F G} (h : Matched F G cr keyBytes s a)
    (hm : Mutated F G cr mtime s.disk entries s.store id st s'.disk s'.store) (hr : Reflects cr s' a') :
    Matched F G cr keyBytes s' a' := by
  obtain ⟨op, payload, hmirrors⟩ := hm.mirrors
  exact ⟨⟨mtime, _, hmirrors⟩, hm.key.trans h.key, hr⟩

section Calls

variable (h : Matched F G cr keyBytes s a) (hd : s.disk.Bounded)

include h hd

theorem insertAt_matched (nonce : Nonce) (presig : Record F G) (createdAt : U64) :
    ∃ s', s.serve cr (.insertAt nonce presig createdAt) = some (s', (a.serve (.insertAt nonce presig createdAt)).2) ∧
      Matched F G cr keyBytes s' (a.serve (.insertAt nonce presig createdAt)).1 := by
  obtain ⟨mtime, entries, hm⟩ := h.up
  have hroom : entries.length + 1 < 2 ^ 64 := by
    have := hm.room hd
    omega
  have hend := (insertAt_goes hm hroom (C := fun _ _ => True) nonce presig.property createdAt.isLt
    fun _ _ _ => trivial).of_outcome
  have hknown : s.store.known presig.val.id = true ↔ _ := h.reflects.known_iff
  unfold Session.serve SpentStore.serve PresigStore.insert insertRecord
  rcases hout : outcome (s.store.insertAt cr nonce presig.val createdAt.val) s.disk with ⟨e | store, d'⟩ <;> rw [hout] at hend
  · obtain ⟨rfl, hold, rfl⟩ := hend
    simp only [hout]
    by_cases hspent : presig.val.id ∈ a.spent
    · rw [if_pos hspent]
      exact ⟨s, rfl, h⟩
    · rw [if_neg hspent, if_pos ((hknown.mp hold).resolve_right hspent)]
      exact ⟨s, rfl, h⟩
  · obtain ⟨hnew, -, hfile, dg, hmut⟩ := hend
    have hfresh : ¬ (a.store.records.contains presig.val.id = true ∨ presig.val.id ∈ a.spent) := by
      rw [← hknown, hnew]
      exact Bool.false_ne_true
    rw [not_or] at hfresh
    simp only [hout]
    rw [if_neg hfresh.2, if_neg hfresh.1]
    refine ⟨⟨d', store⟩, rfl, h.mutated hmut ?_⟩
    refine h.reflects.mutated hmut (fun i => getElem?_insert_word _ _ _ _) rfl (fun p hp => ?_) fun i => ?_
    · obtain rfl := Option.some.inj hp
      exact ⟨_, _, _, hfile, openSealed_sealFile _ nonce _, takeRecord_stamped_iff.mpr ⟨⟨presig.property, createdAt.isLt⟩, rfl⟩⟩
    · by_cases hi : i = presig.val.id
      · rw [if_pos hi, hi]
        exact ⟨fun hin => absurd hin hfresh.2, fun hdead => by cases hdead⟩
      · rw [if_neg hi]
        exact Iff.rfl

theorem consume_matched (id : U64) : ∃ s', s.serve (F := F) (G := G) cr (.consume id) = some (s', (a.serve (.consume id)).2) ∧
    Matched F G cr keyBytes s' (a.serve (.consume id)).1 := by
  obtain ⟨mtime, entries, hm⟩ := h.up
  have hroom : entries.length + 1 < 2 ^ 64 := by
    have := hm.room hd
    omega
  have hend := (consume_goes hm hroom (C := fun _ _ => True) id fun _ _ _ => trivial).of_outcome
  have hlive := h.reflects.live id
  rw [contains_iff] at hlive
  unfold Session.serve SpentStore.serve PresigStore.consume removeRecord
  rcases hout : outcome (s.store.consume F G cr id) s.disk with ⟨e | out, d'⟩ <;> rw [hout] at hend
  · obtain ⟨rfl, hdead, rfl⟩ := hend
    have hnone : a.store.records[id]? = none := by
      cases hr : a.store.records[id]? with
      | none => rfl
      | some p => exact absurd (hlive.mpr ⟨p, hr⟩) hdead
    simp only [hout, hnone]
    exact ⟨s, rfl, h⟩
  · obtain ⟨hin, hholds, dg, -, hmut⟩ := hend
    obtain ⟨p, hp⟩ := hlive.mp hin
    obtain rfl : p = out.1 := (h.reflects.record id p hp).functional hholds
    simp only [hout, hp]
    exact ⟨⟨d', out.2⟩, rfl, h.mutated hmut (h.reflects.buried rfl hmut)⟩

theorem expire_matched (id : U64) : ∃ s', s.serve (F := F) (G := G) cr (.expire id) = some (s', (a.serve (.expire id)).2) ∧
    Matched F G cr keyBytes s' (a.serve (.expire id)).1 := by
  obtain ⟨mtime, entries, hm⟩ := h.up
  have hroom : entries.length + 1 < 2 ^ 64 := by
    have := hm.room hd
    omega
  have hend := (expire_goes hm hroom (C := fun _ _ => True) id fun _ _ _ => trivial).of_outcome
  have hlive := h.reflects.live id
  unfold Session.serve SpentStore.serve
  rcases hout : outcome (s.store.expire cr id) s.disk with ⟨e | ⟨changed, store⟩, d'⟩ <;> rw [hout] at hend
  · exact hend.elim
  · simp only [hout]
    rcases hend with ⟨hdead, hsame, rfl⟩ | ⟨hin, rfl, hmut⟩
    · cases hsame
      rw [if_neg fun hc => hdead (hlive.mpr hc)]
      exact ⟨s, rfl, h⟩
    · rw [if_pos (hlive.mp hin)]
      exact ⟨⟨d', store⟩, rfl, h.mutated hmut (h.reflects.buried rfl hmut)⟩

theorem burn_matched (id : U64) : ∃ s', s.serve (F := F) (G := G) cr (.burn id) = some (s', (a.serve (.burn id)).2) ∧
    Matched F G cr keyBytes s' (a.serve (.burn id)).1 := by
  obtain ⟨mtime, entries, hm⟩ := h.up
  have hroom : entries.length + 1 < 2 ^ 64 := by
    have := hm.room hd
    omega
  have hend := (burn_goes hm hroom (C := fun _ _ => True) id fun _ _ _ => trivial).of_outcome
  have hknown : s.store.known id = true ↔ _ := h.reflects.known_iff
  unfold Session.serve SpentStore.serve
  rcases hout : outcome (s.store.burn cr id) s.disk with ⟨e | ⟨changed, store⟩, d'⟩ <;> rw [hout] at hend
  · exact hend.elim
  · simp only [hout]
    rcases hend with ⟨hold, hsame, rfl⟩ | ⟨hnew, rfl, hmut⟩
    · cases hsame
      rw [if_pos (hknown.mp hold)]
      exact ⟨s, rfl, h⟩
    · have hfresh : ¬ (a.store.records.contains id = true ∨ id ∈ a.spent) := by
        rw [← hknown, hnew]
        exact Bool.false_ne_true
      rw [if_neg hfresh]
      rw [not_or, contains_iff] at hfresh
      have hrecords : ∀ i : U64, a.store.records[i]? = if i = id then none else a.store.records[i]? := by
        intro i
        by_cases hi : i = id
        · rw [if_pos hi, hi]
          cases hr : a.store.records[id]? with
          | none => rfl
          | some p => exact absurd ⟨p, hr⟩ hfresh.1
        · rw [if_neg hi]
      refine ⟨⟨d', store⟩, rfl, h.mutated hmut (h.reflects.mutated hmut hrecords rfl (fun p hp => by cases hp)
        fun i => ?_)⟩
      by_cases hi : i = id <;> simp [hi, DiskState.isLive]

theorem reopen_matched {args : OpenArgs} (hargs : args.keyBytes = keyBytes)
    (hwelcome : args.allowUnverified = true ∨ args.Unspent F G s.store.live) :
    ∃ s', s.serve (F := F) (G := G) cr (.reopen args) = some (s', .opened) ∧ Matched F G cr keyBytes s' a := by
  obtain ⟨mtime, entries, hm⟩ := h.up
  have hopenable : s.disk.Openable F G cr args := by
    refine ⟨fun bytes hb => ?_, hm.readable _, hm.reconciles, hwelcome.imp_right fun hunspent ids hids id hid dg hdg => ?_⟩
    · rw [h.key] at hb
      rw [hargs, Option.some.inj hb]
    · rw [hm.truth] at hdg
      exact hunspent ids hids id hid ((hm.live id).mpr ⟨dg, hdg⟩)
  obtain ⟨s', hs'⟩ := openSession_openable hd hopenable
  obtain ⟨⟨store, d'⟩, hrun, rfl⟩ := Option.map_eq_some_iff.mp hs'
  obtain ⟨entries', hopened⟩ := openSession_opened hd (Or.inr hm.reconciles) hs'
  have hstate : ∀ id, Disk.state cr d' id = s.disk.state cr id := fun id => (hopened.state id).trans (hm.truth id)
  refine ⟨⟨d', store⟩, ?_, ⟨_, _, hopened.mirrors⟩, hopened.key.trans (congrArg some hargs), fun id => ?_, fun id p hp => ?_,
    fun id => ?_⟩
  · simp only [Session.serve, Goes.outcome_of_completed hrun]
  · rw [← h.reflects.live, hm.live, hopened.mirrors.live, hstate]
  · have hlive : id ∈ s.store.live := (h.reflects.live id).mpr (contains_iff.mpr ⟨p, hp⟩)
    obtain ⟨dg, hdg⟩ := (hm.live id).mp hlive
    obtain ⟨b, plain, time, hb, hopen, htake⟩ := h.reflects.record id p hp
    exact ⟨b, plain, time, (hopened.presig id dg ((hstate id).trans hdg)).trans hb, hopen, htake⟩
  · rw [h.reflects.spent, hm.consumed, hm.expired, hopened.mirrors.consumed, hopened.mirrors.expired, hstate]

/-- **Every call** is answered alike. -/
theorem serve_matched (c : StoreCall F G) (hc : c.Welcome keyBytes s) : ∃ s', s.serve cr c = some (s', (a.serve c).2) ∧
    Matched F G cr keyBytes s' (a.serve c).1 := by
  cases c with
  | insertAt nonce presig createdAt => exact insertAt_matched h hd nonce presig createdAt
  | consume id => exact consume_matched h hd id
  | expire id => exact expire_matched h hd id
  | burn id => exact burn_matched h hd id
  | reopen args => exact reopen_matched h hd hc.1 hc.2

end Calls

/-! ## Lemmas: the first records -/

theorem exists_records {P : U64 → Presignature F G → Prop} (ids : Finset U64) (h : ∀ id ∈ ids, ∃ presig, P id presig) :
    ∃ records : Records (Presignature F G), (∀ id, id ∈ ids ↔ records.contains id = true) ∧
      ∀ id presig, records[id]? = some presig → P id presig := by
  induction ids using Finset.induction_on with
  | empty =>
    refine ⟨∅, fun id => ?_, fun id presig hp => ?_⟩
    · simp
    · simp at hp
  | insert i ids hi ih =>
    obtain ⟨records, hids, hrecords⟩ := ih fun id hid => h id (Finset.mem_insert_of_mem hid)
    obtain ⟨presig, hpresig⟩ := h i (Finset.mem_insert_self i ids)
    have hget : ∀ id : U64, (records.insert i presig)[id]? = if id = i then some presig else records[id]? :=
      fun id => getElem?_insert_word _ _ _ _
    refine ⟨records.insert i presig, fun id => ?_, fun id p hp => ?_⟩
    · rw [Std.ExtTreeMap.contains_eq_isSome_getElem?, hget, Finset.mem_insert, hids, Std.ExtTreeMap.contains_eq_isSome_getElem?]
      by_cases hid : id = i <;> simp [hid]
    · rw [hget] at hp
      by_cases hid : id = i
      · rw [if_pos hid] at hp
        rw [hid, ← Option.some.inj hp]
        exact hpresig
      · rw [if_neg hid] at hp
        exact hrecords id p hp

/-- What an open directory holds, in memory. -/
theorem Mirrors.reflected (h : Mirrors F G cr mtime s.disk entries s.store) (publicKey : G) :
    ∃ a : SpentStore F G, a.store.publicKey = publicKey ∧ Reflects cr s a := by
  obtain ⟨records, hids, hrecords⟩ := exists_records s.store.live fun id hid => h.holds hid
  refine ⟨⟨⟨publicKey, records⟩, s.store.consumed ∪ s.store.expired⟩, rfl, hids, hrecords, fun id => ?_⟩
  exact Finset.mem_union

/-! ## Theorem -/

/-- **The answers of a directory** are those of a store in memory that forgets no id. -/
theorem answers_eq {args : OpenArgs} {d : Disk} (hd : d.Bounded) (hflag : args.allowUnverified = false ∨ d.Reconciles cr)
    (hopen : openSession F G cr args d = some s) (publicKey : G) :
    ∃ first : SpentStore F G, first.store.publicKey = publicKey ∧ Reflects cr s first ∧
      ∀ (calls : List (StoreCall F G)) (last : Served Session F G),
        Run (Served.durable cr) (fun u c => u.store.disk.Bounded ∧ c.Welcome args.keyBytes u.store) ⟨s, []⟩ calls last →
        last.answers = (calls.foldl Served.inMemory ⟨first, []⟩).answers ∧
          Reflects cr last.store (calls.foldl Served.inMemory ⟨first, []⟩).store ∧
          ∀ c : StoreCall F G, last.store.disk.Bounded → c.Welcome args.keyBytes last.store →
            ∃ next, Served.durable cr last c = some next := by
  obtain ⟨entries, hopened⟩ := openSession_opened hd hflag hopen
  obtain ⟨first, hpublic, hfirst⟩ := hopened.mirrors.reflected publicKey
  have hmatched : Matched F G cr args.keyBytes s first := ⟨⟨_, _, hopened.mirrors⟩, hopened.key, hfirst⟩
  refine ⟨first, hpublic, hfirst, fun calls last hrun => ?_⟩
  have hrest : ∀ (u last : Served Session F G) (a : Served (SpentStore F G) F G),
      Run (Served.durable cr) (fun u c => u.store.disk.Bounded ∧ c.Welcome args.keyBytes u.store) u calls last →
      Matched F G cr args.keyBytes u.store a.store → u.answers = a.answers →
      last.answers = (calls.foldl Served.inMemory a).answers ∧
        Matched F G cr args.keyBytes last.store (calls.foldl Served.inMemory a).store := by
    clear hrun
    induction calls with
    | nil =>
      rintro u last a ⟨⟩ hm hsame
      exact ⟨hsame, hm⟩
    | cons c calls ih =>
      rintro u last a (_ | ⟨⟨hb, hc⟩, hstep, hrun⟩) hm hsame
      obtain ⟨s', hs', hm'⟩ := serve_matched hm hb c hc
      unfold Served.durable at hstep
      rw [hs'] at hstep
      obtain rfl := Option.some.inj hstep
      refine ih _ _ (a.inMemory c) hrun hm' ?_
      unfold Served.inMemory
      rw [hsame]
  obtain ⟨hanswers, hm⟩ := hrest _ _ ⟨first, []⟩ hrun hmatched rfl
  refine ⟨hanswers, hm.reflects, fun c hb hc => ?_⟩
  obtain ⟨s', hs', -⟩ := serve_matched hm hb c hc
  exact ⟨_, Option.map_eq_some_iff.mpr ⟨_, hs', rfl⟩⟩

end Refines

section Fresh

open Secp256k1

instance (s : Session) : (c : StoreCall Scalar Point) → Decidable (c.Welcome freshArgs.keyBytes s)
  | .reopen args => match hids : signEvidenceIds Scalar Point args.transcript with
    | none => decidable_of_iff (args.keyBytes = freshArgs.keyBytes)
      ⟨fun h => ⟨h, Or.inr fun ids h => by rw [hids] at h; cases h⟩, fun h => h.1⟩
    | some ids => decidable_of_iff (args.keyBytes = freshArgs.keyBytes ∧ (args.allowUnverified = true ∨ ∀ id ∈ ids, id ∉ s.store.live))
      (and_congr_right fun _ => or_congr_right ⟨fun h ids' h' => by rw [hids] at h'; cases h'; exact h, fun h => h ids hids⟩)
  | .insertAt _ _ _ => isTrue trivial
  | .consume _ => isTrue trivial
  | .expire _ => isTrue trivial
  | .burn _ => isTrue trivial

/-- A record stored, a second of its id refused, a process started again, the record handed out and refused. -/
def servedCalls : List (StoreCall Scalar Point) :=
  [recordInsert 1, recordInsert 1, .reopen freshArgs, .consume 1, .consume 1, .burn 7]

theorem answers_eq_stored : ∃ first : SpentStore Scalar Point, ∃ last : Served Session Scalar Point,
    Run (Served.durable plainCrypto) (fun u c => u.store.disk.Bounded ∧ c.Welcome freshArgs.keyBytes u.store) ⟨freshSession, []⟩
      servedCalls last ∧
    last.answers = (servedCalls.foldl Served.inMemory ⟨first, []⟩).answers ∧
    last.answers = [.stored, .refused (presigStore "duplicate presignature id"), .opened, .record (recordOf 1).val,
      .refused (presigStore "unknown or consumed presignature id"), .done true] := by
  have hfacts : (servedCalls.foldlM (guarded (Served.durable plainCrypto) fun u c =>
      u.store.disk.Bounded ∧ c.Welcome freshArgs.keyBytes u.store) ⟨freshSession, []⟩).map Served.answers =
      some [.stored, .refused (presigStore "duplicate presignature id"), .opened, .record (recordOf 1).val,
        .refused (presigStore "unknown or consumed presignature id"), .done true] := by decide +kernel
  obtain ⟨last, hfold, hanswers⟩ := Option.map_eq_some_iff.mp hfacts
  obtain ⟨first, -, -, hall⟩ := answers_eq (F := Scalar) (G := Point) freshDisk_bounded (Or.inl rfl) freshSession_opened 0
  have hrun := (Run.iff_foldlM _ _ _).mpr hfold
  exact ⟨first, last, hrun, (hall servedCalls last hrun).1, hanswers⟩

end Fresh

end OhmEcdsa
