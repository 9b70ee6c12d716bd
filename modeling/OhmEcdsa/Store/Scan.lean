import OhmEcdsa.Store.Presig

/-!
# The directory scan (`store/persist.rs`)

`Disk.state` is what the directory says of an id: a tombstone if there is one, else the
record.  The scan computes exactly that, and the records' times, when every record that no
tombstone covers opens; it deletes the records that one covers, which changes no id's state:

    Goes C d scan (out = the states and times of d, and the directory cleared) (¬ d.Readable)     (scan_goes)
-/

set_option linter.unusedSectionVars false

namespace OhmEcdsa

open Codec Decoder Hoare

/-! ## Lemmas: maps over words -/

section Maps

variable {ν μ : Type}

theorem getElem?_insert_word (m : U64Map ν) (k : U64) (v : ν) (id : U64) :
    (m.insert k v)[id]? = if id = k then some v else m[id]? := by
  rw [Std.ExtTreeMap.getElem?_insert]
  by_cases hid : id = k
  · rw [if_pos hid, if_pos (by simp [hid])]
  · rw [if_neg hid, if_neg (compare_ne_eq (Ne.symm hid))]

theorem getElem?_erase_word (m : U64Map ν) (k id : U64) : (m.erase k)[id]? = if id = k then none else m[id]? := by
  rw [Std.ExtTreeMap.getElem?_erase]
  by_cases hid : id = k
  · rw [if_pos hid, if_pos (by simp [hid])]
  · rw [if_neg hid, if_neg (compare_ne_eq (Ne.symm hid))]

theorem mem_keys_toList {m : U64Map ν} {id : U64} : id ∈ m.toList.map (·.1) ↔ ∃ v, m[id]? = some v := by
  constructor
  · intro h
    obtain ⟨e, he, rfl⟩ := List.mem_map.mp h
    exact ⟨e.2, Std.ExtTreeMap.mem_toList_iff_getElem?_eq_some.mp he⟩
  · rintro ⟨v, hv⟩
    exact List.mem_map.mpr ⟨(id, v), Std.ExtTreeMap.mem_toList_iff_getElem?_eq_some.mpr hv, rfl⟩

/-- The next of a map's entries: its key is not behind, and its value is the map's. -/
theorem entry_next {m : U64Map ν} {behind rest : List (U64 × ν)} {e : U64 × ν} (h : m.toList = behind ++ e :: rest) :
    m[e.1]? = some e.2 ∧ e.1 ∉ behind.map (·.1) := by
  have hmem : e ∈ m.toList := by
    rw [h]
    exact List.mem_append_right _ List.mem_cons_self
  have hnodup : (m.toList.map (·.1)).Nodup := nodup_keys_toList m
  rw [h, List.map_append, List.map_cons] at hnodup
  refine ⟨Std.ExtTreeMap.mem_toList_iff_getElem?_eq_some.mp hmem, fun hbehind => ?_⟩
  exact (List.nodup_append.mp hnodup).2.2 _ hbehind _ List.mem_cons_self rfl

/-- Every entry of one map put into another. -/
theorem foldl_insert_getElem? (t : U64Map ν) (f : U64 × ν → μ) (m : U64Map μ) (id : U64) :
    (t.toList.foldl (fun m e => m.insert e.1 (f e)) m)[id]? = ((t[id]?).map fun v => f (id, v)).or m[id]? := by
  have hlist : ∀ l : List (U64 × ν), (∀ e ∈ l, t[e.1]? = some e.2) →
      (l.foldl (fun m e => m.insert e.1 (f e)) m)[id]? =
        if id ∈ l.map (·.1) then (t[id]?).map fun v => f (id, v) else m[id]? := by
    intro l
    induction l using List.reverseRecOn with
    | nil =>
      intro _
      rw [if_neg (by simp)]
      rfl
    | append_singleton l e ih =>
      intro hl
      have hprev := ih fun e he => hl e (List.mem_append_left _ he)
      have hlast := hl e (List.mem_append_right _ (List.mem_singleton_self e))
      rw [List.foldl_append, List.foldl_cons, List.foldl_nil, getElem?_insert_word, hprev]
      by_cases hid : id = e.1
      · rw [if_pos hid, if_pos (by simp [hid]), hid, hlast]
        rfl
      · have hiff : id ∈ (l ++ [e]).map (·.1) ↔ id ∈ l.map (·.1) := by simp [hid]
        rw [if_neg hid]
        simp only [hiff]
  rw [hlist t.toList fun e he => Std.ExtTreeMap.mem_toList_iff_getElem?_eq_some.mp he]
  cases hv : t[id]? with
  | none =>
    have hkeys : id ∉ t.toList.map (·.1) := by
      rw [mem_keys_toList, hv]
      rintro ⟨v, hv⟩
      cases hv
    rw [if_neg hkeys]
    rfl
  | some v =>
    rw [if_pos (mem_keys_toList.mpr ⟨v, hv⟩)]
    rfl

end Maps

/-! ## Lemmas: the steps -/

namespace FsStep

variable {d : Disk} {id : U64} {b : Bytes}

theorem apply_renameToPresig (h : d.tmp[id]? = some b) : (FsStep.renameToPresig id).apply d =
    some { d with tmp := d.tmp.erase id, presig := d.presig.insert id b } := by
  show (d.tmp[id]?).map _ = _
  rw [h]
  rfl

theorem apply_renameToExpired (h : d.tmp[id]? = some b) : (FsStep.renameToExpired id).apply d =
    some { d with tmp := d.tmp.erase id, expired := d.expired.insert id b } := by
  show (d.tmp[id]?).map _ = _
  rw [h]
  rfl

theorem apply_renameToConsumed (h : d.presig[id]? = some b) : (FsStep.renameToConsumed id).apply d =
    some { d with presig := d.presig.erase id, consumed := d.consumed.insert id b } := by
  show (d.presig[id]?).map _ = _
  rw [h]
  rfl

theorem apply_removePresig (h : d.presig[id]? = some b) : (FsStep.removePresig id).apply d =
    some { d with presig := d.presig.erase id } := by
  show (d.presig[id]?).map _ = _
  rw [h]
  rfl

theorem apply_removeTmp (h : d.tmp[id]? = some b) : (FsStep.removeTmp id).apply d =
    some { d with tmp := d.tmp.erase id } := by
  show (d.tmp[id]?).map _ = _
  rw [h]
  rfl

theorem apply_append {j : Bytes} (h : d.journal = some j) (bytes : Bytes) : (FsStep.append bytes).apply d =
    some { d with journal := some (j ++ bytes) } := by
  show d.journal.map _ = _
  rw [h]
  rfl

end FsStep

/-! ## Specification -/

/-- A step between two worlds in `W`; one that appends, appends one entry. -/
structure FsStep.Within (W : Disk → Prop) (s : Disk) (t : FsStep) : Prop where
  passes : Passes FsStep.apply W s t
  entry : ∀ bytes, t = .append bytes → bytes.length = 117

namespace Disk

/-- The tombstone of an id; an expiry wins. -/
def tombstone (cr : Crypto) (d : Disk) (id : U64) : Option DiskState :=
  ((d.expired[id]?).map fun _ => DiskState.expired).or
    ((d.consumed[id]?).map fun b => DiskState.consumed (payloadDigest cr b))

/-- What the directory says of an id; a tombstone wins. -/
def state (cr : Crypto) (d : Disk) (id : U64) : Option DiskState :=
  (d.tombstone cr id).or ((d.presig[id]?).map fun b => DiskState.live (payloadDigest cr b))

/-- `d'` is `d` without some of the records that a tombstone covers, and with other
temporary files. -/
structure Cleared (cr : Crypto) (d d' : Disk) : Prop where
  key : d'.key = d.key
  consumed : d'.consumed = d.consumed
  expired : d'.expired = d.expired
  journal : d'.journal = d.journal
  presig : ∀ id, d'.presig[id]? = d.presig[id]? ∨ d'.presig[id]? = none ∧ (d.tombstone cr id).isSome

section Readable

variable (F G : Type) [Field F] [DecidableEq F] [AddCommGroup G] [Module F G] [DecidableEq G] [K256 F G]
  [WireFormat F G] (cr : Crypto) (mtime : U64 → Nat)

/-- Every record that no tombstone covers opens. -/
def Readable (d : Disk) : Prop :=
  ∀ id b, d.tombstone cr id = none → d.presig[id]? = some b → ∃ time, recordTime F G cr mtime id b = .ok time

/-- The created-at time of an id's record, unless a tombstone covers it. -/
def createdAt (d : Disk) (id : U64) : Option Nat :=
  match d.tombstone cr id with
  | some _ => none
  | none => (d.presig[id]?).bind fun b => (recordTime F G cr mtime id b).toOption

end Readable

end Disk

/-! ## Lemmas -/

theorem tombstones_getElem? (cr : Crypto) (d : Disk) (id : U64) : (tombstones cr d)[id]? = d.tombstone cr id := by
  unfold tombstones Disk.tombstone
  rw [foldl_insert_getElem? d.expired fun _ => DiskState.expired,
    foldl_insert_getElem? d.consumed fun e => DiskState.consumed (payloadDigest cr e.2), Std.ExtTreeMap.getElem?_empty,
    Option.or_none]

namespace Disk.Cleared

variable {cr : Crypto} {d d' d'' : Disk}

theorem refl (cr : Crypto) (d : Disk) : Cleared cr d d := ⟨rfl, rfl, rfl, rfl, fun _ => Or.inl rfl⟩

theorem tombstone (h : Cleared cr d d') (id : U64) : d'.tombstone cr id = d.tombstone cr id := by
  unfold Disk.tombstone
  rw [h.expired, h.consumed]

theorem state (h : Cleared cr d d') (id : U64) : d'.state cr id = d.state cr id := by
  unfold Disk.state
  rw [h.tombstone id]
  rcases h.presig id with heq | ⟨-, hsome⟩
  · rw [heq]
  · obtain ⟨s, hs⟩ := Option.isSome_iff_exists.mp hsome
    rw [hs]
    rfl

theorem presig_eq (h : Cleared cr d d') {id : U64} (hid : d.tombstone cr id = none) :
    d'.presig[id]? = d.presig[id]? := by
  rcases h.presig id with heq | ⟨-, hsome⟩
  · exact heq
  · rw [hid] at hsome
    cases hsome

theorem removePresig (h : Cleared cr d d') {id : U64} (hid : (d.tombstone cr id).isSome) :
    Cleared cr d { d' with presig := d'.presig.erase id } := by
  refine ⟨h.key, h.consumed, h.expired, h.journal, fun i => ?_⟩
  show (d'.presig.erase id)[i]? = _ ∨ (d'.presig.erase id)[i]? = _ ∧ _
  rw [getElem?_erase_word]
  by_cases hi : i = id
  · rw [if_pos hi, hi]
    exact Or.inr ⟨rfl, hid⟩
  · rw [if_neg hi]
    exact h.presig i

theorem withTmp (h : Cleared cr d d') (tmp : U64Map Bytes) : Cleared cr d { d' with tmp := tmp } :=
  ⟨h.key, h.consumed, h.expired, h.journal, h.presig⟩

end Disk.Cleared

namespace FsStep.Within

variable {W W' : Disk → Prop} {s s' : Disk} {t : FsStep}

theorem mono (h : Within W s t) (hW : ∀ s, W s → W' s) : Within W' s t := ⟨h.passes.mono hW, h.entry⟩

theorem removePresig {id : U64} {b : Bytes} (hb : s.presig[id]? = some b) (hs : W s)
    (hs' : W { s with presig := s.presig.erase id }) : Within W s (.removePresig id) :=
  ⟨⟨hs, _, FsStep.apply_removePresig hb, hs'⟩, fun _ h => (by cases h)⟩

theorem removeTmp {id : U64} {b : Bytes} (hb : s.tmp[id]? = some b) (hs : W s)
    (hs' : W { s with tmp := s.tmp.erase id }) : Within W s (.removeTmp id) :=
  ⟨⟨hs, _, FsStep.apply_removeTmp hb, hs'⟩, fun _ h => (by cases h)⟩

end FsStep.Within

section Scan

variable {F G : Type} [Field F] [DecidableEq F] [AddCommGroup G] [Module F G] [DecidableEq G] [K256 F G]
  [WireFormat F G] {cr : Crypto} {mtime : U64 → Nat} {d : Disk} {C : Disk → FsStep → Prop}

/-- What the scan has found, some of the records behind it. -/
structure Scanned (F G : Type) [Field F] [DecidableEq F] [AddCommGroup G] [Module F G] [DecidableEq G] [K256 F G]
    [WireFormat F G] (cr : Crypto) (mtime : U64 → Nat) (d : Disk) (behind : List (U64 × Bytes))
    (acc : U64Map DiskState × U64Map Nat) (d' : Disk) : Prop where
  cleared : d.Cleared cr d'
  tmp : d'.tmp = d.tmp
  ahead : ∀ id, id ∉ behind.map (·.1) → d'.presig[id]? = d.presig[id]?
  states : ∀ id, acc.1[id]? = if id ∈ behind.map (·.1) then d.state cr id else d.tombstone cr id
  times : ∀ id, acc.2[id]? = if id ∈ behind.map (·.1) then d.createdAt F G cr mtime id else none
  opens : ∀ e ∈ behind, d.tombstone cr e.1 = none → ∃ time, recordTime F G cr mtime e.1 e.2 = .ok time

theorem scanRecord_goes (hC : ∀ s t, FsStep.Within (d.Cleared cr) s t → C s t)
    {behind rest : List (U64 × Bytes)} {e : U64 × Bytes} {acc : U64Map DiskState × U64Map Nat} {d' : Disk}
    (hlist : d.presig.toList = behind ++ e :: rest) (h : Scanned F G cr mtime d behind acc d') :
    Goes C d' (scanRecord F G cr mtime acc e) (Scanned F G cr mtime d (behind ++ [e]))
      (fun _ d' => ¬ d.Readable F G cr mtime ∧ d.Cleared cr d') := by
  obtain ⟨hget, hnew⟩ := entry_next hlist
  have hin : ∀ id, id ∈ (behind ++ [e]).map (·.1) ↔ id ∈ behind.map (·.1) ∨ id = e.1 := by simp
  have hacc := h.states e.1
  rw [if_neg hnew] at hacc
  unfold scanRecord
  cases htomb : d.tombstone cr e.1 with
  | some s =>
    rw [htomb] at hacc
    have hcontains : acc.1.contains e.1 = true := by
      rw [Std.ExtTreeMap.contains_eq_isSome_getElem?, hacc]
      rfl
    have hstate : d.state cr e.1 = some s := by
      unfold Disk.state
      rw [htomb]
      rfl
    have htime : d.createdAt F G cr mtime e.1 = none := by
      unfold Disk.createdAt
      rw [htomb]
    rw [if_pos hcontains]
    have hfile : d'.presig[e.1]? = some e.2 := (h.ahead e.1 hnew).trans hget
    have hcleared : d.Cleared cr { d' with presig := d'.presig.erase e.1 } :=
      h.cleared.removePresig (by rw [htomb]; rfl)
    refine (Goes.step (FsStep.apply_removePresig hfile) (hC _ _ (FsStep.Within.removePresig hfile h.cleared hcleared))
      (P := fun _ d'' => d'' = { d' with presig := d'.presig.erase e.1 }) rfl).bind fun _ d'' hd'' => ?_
    subst hd''
    refine Goes.pure ⟨hcleared, h.tmp, fun id hid => ?_, fun id => ?_, fun id => ?_, ?_⟩
    · rw [hin, not_or] at hid
      show (d'.presig.erase e.1)[id]? = _
      rw [getElem?_erase_word, if_neg hid.2]
      exact h.ahead id hid.1
    · by_cases hid : id = e.1
      · rw [if_pos ((hin id).mpr (Or.inr hid)), hid, hacc, hstate]
      · simp only [hin, hid, or_false]
        exact h.states id
    · by_cases hid : id = e.1
      · rw [if_pos ((hin id).mpr (Or.inr hid)), hid, h.times, if_neg hnew, htime]
      · simp only [hin, hid, or_false]
        exact h.times id
    · intro e' he' hnone
      rcases List.mem_append.mp he' with he' | he'
      · exact h.opens e' he' hnone
      · rw [List.mem_singleton.mp he', htomb] at hnone
        cases hnone
  | none =>
    rw [htomb] at hacc
    have hcontains : ¬ acc.1.contains e.1 = true := by
      rw [Std.ExtTreeMap.contains_eq_isSome_getElem?, hacc]
      exact Bool.false_ne_true
    rw [if_neg hcontains]
    refine Goes.bind (P := fun time d'' => d'' = d' ∧ recordTime F G cr mtime e.1 e.2 = .ok time)
      (Goes.lift (fun time ht => ⟨rfl, ht⟩) fun err herr => ⟨fun hread => ?_, h.cleared⟩) ?_
    · obtain ⟨time, ht⟩ := hread e.1 e.2 htomb hget
      rw [herr] at ht
      cases ht
    · rintro time d'' ⟨rfl, ht⟩
      have hstate : d.state cr e.1 = some (.live (payloadDigest cr e.2)) := by
        unfold Disk.state
        rw [htomb, hget]
        rfl
      have htime : d.createdAt F G cr mtime e.1 = some time := by
        unfold Disk.createdAt
        rw [htomb, hget]
        simp only [Option.bind_some, ht]
        rfl
      refine Goes.pure ⟨h.cleared, h.tmp, fun id hid => ?_, fun id => ?_, fun id => ?_, ?_⟩
      · rw [hin, not_or] at hid
        exact h.ahead id hid.1
      · show (acc.1.insert e.1 _)[id]? = _
        rw [getElem?_insert_word]
        by_cases hid : id = e.1
        · rw [if_pos hid, if_pos ((hin id).mpr (Or.inr hid)), hid, hstate]
        · rw [if_neg hid]
          simp only [hin, hid, or_false]
          exact h.states id
      · show (acc.2.insert e.1 _)[id]? = _
        rw [getElem?_insert_word]
        by_cases hid : id = e.1
        · rw [if_pos hid, if_pos ((hin id).mpr (Or.inr hid)), hid, htime]
        · rw [if_neg hid]
          simp only [hin, hid, or_false]
          exact h.times id
      · intro e' he' hnone
        rcases List.mem_append.mp he' with he' | he'
        · exact h.opens e' he' hnone
        · rw [List.mem_singleton.mp he']
          exact ⟨time, ht⟩

theorem removeTmps_goes {E : PersistError → Disk → Prop} {d₁ : Disk} (hd₁ : d.Cleared cr d₁) (htmp : d₁.tmp = d.tmp)
    (hC : ∀ s t, FsStep.Within (d.Cleared cr) s t → C s t) :
    Goes C d₁ (d.tmp.toList.forM fun e => fs (.removeTmp e.1)) (fun _ d' => d.Cleared cr d') E := by
  have hstart : d.Cleared cr d₁ ∧ ∀ id, id ∉ ([] : List (U64 × Bytes)).map (·.1) → d₁.tmp[id]? = d.tmp[id]? :=
    ⟨hd₁, fun id _ => by rw [htmp]⟩
  refine (Goes.forM (J := fun behind d' => d.Cleared cr d' ∧
    ∀ id, id ∉ behind.map (·.1) → d'.tmp[id]? = d.tmp[id]?) _ hstart ?_).conseq (fun _ _ h => h) (fun _ _ h => h.1)
    fun _ _ h => h
  rintro behind e rest d' hlist ⟨hd', hahead⟩
  obtain ⟨hget, hnew⟩ := entry_next hlist
  have hfile := (hahead e.1 hnew).trans hget
  refine Goes.step (FsStep.apply_removeTmp hfile) (hC _ _ (FsStep.Within.removeTmp hfile hd' (hd'.withTmp _)))
    ⟨hd'.withTmp _, fun id hid => ?_⟩
  rw [List.map_append, List.mem_append, not_or] at hid
  show (d'.tmp.erase e.1)[id]? = _
  rw [getElem?_erase_word, if_neg (by simpa using hid.2)]
  exact hahead id hid.1

/-- **The scan** finds the directory's states. -/
theorem scan_goes (hC : ∀ s t, FsStep.Within (d.Cleared cr) s t → C s t) :
    Goes C d (scan F G cr mtime)
      (fun out d' => d.Cleared cr d' ∧ d.Readable F G cr mtime ∧ (∀ id, out.1[id]? = d.state cr id) ∧
        ∀ id, out.2[id]? = d.createdAt F G cr mtime id)
      (fun _ d' => ¬ d.Readable F G cr mtime ∧ d.Cleared cr d') := by
  have hstart : Scanned F G cr mtime d [] (tombstones cr d, ∅) d :=
    ⟨Disk.Cleared.refl cr d, rfl, fun _ _ => rfl, fun id => by rw [if_neg (by simp), tombstones_getElem?],
      fun id => by rw [if_neg (by simp)]; exact Std.ExtTreeMap.getElem?_empty, fun e he => absurd he List.not_mem_nil⟩
  unfold scan
  refine Goes.bind (P := fun now d' => now = d ∧ d' = d) (Goes.read ⟨rfl, rfl⟩) ?_
  rintro now d' ⟨hnow, hd'⟩
  rw [hnow, hd']
  refine (Goes.foldlM _ hstart fun behind e rest acc d' hlist h =>
    scanRecord_goes hC hlist h).bind fun out d₁ h => ?_
  have hloop := removeTmps_goes (E := fun (_ : PersistError) d' => ¬ d.Readable F G cr mtime ∧ d.Cleared cr d') h.cleared h.tmp hC
  refine hloop.bind fun _ d₂ hd₂ => Goes.pure ⟨hd₂, fun id b htomb hb => ?_, fun id => ?_, fun id => ?_⟩
  · exact h.opens (id, b) (Std.ExtTreeMap.mem_toList_iff_getElem?_eq_some.mpr hb) htomb
  · rw [h.states id]
    by_cases hid : id ∈ d.presig.toList.map (·.1)
    · rw [if_pos hid]
    · have hnone : d.presig[id]? = none := by
        rw [mem_keys_toList, ← Option.isSome_iff_exists] at hid
        exact Option.not_isSome_iff_eq_none.mp hid
      rw [if_neg hid]
      unfold Disk.state
      rw [hnone]
      exact (Option.or_none).symm
  · rw [h.times id]
    by_cases hid : id ∈ d.presig.toList.map (·.1)
    · rw [if_pos hid]
    · have hnone : d.presig[id]? = none := by
        rw [mem_keys_toList, ← Option.isSome_iff_exists] at hid
        exact Option.not_isSome_iff_eq_none.mp hid
      rw [if_neg hid]
      unfold Disk.createdAt
      cases d.tombstone cr id with
      | some s => rfl
      | none =>
        rw [hnone]
        rfl

end Scan

end OhmEcdsa
