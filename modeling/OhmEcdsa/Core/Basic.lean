import Mathlib

/-!
# Parameters, committees and errors (`src/lib.rs`, `src/error.rs`)

Machine words are `Usize = Fin (2 ^ 64)`, so the arithmetic of the source
(`2 * t - 1`) wraps exactly as a release build's does.  A `BTreeMap` is an
extensional tree map, iterated in key order.  A call that does not return is a
`Fault`: either one of the crate's `Error`s or a panic (an `expect`, an index
out of bounds).
-/

namespace OhmEcdsa

/-- A `usize` (64-bit target). -/
abbrev Usize := Fin (2 ^ 64)

-- the instances of words and of maps over them, found once
instance word_neZero : NeZero (2 ^ 64) := inferInstance
instance word_transOrd : Std.TransOrd Usize := inferInstance
instance word_isTrans : IsTrans Usize (· ≤ ·) := inferInstance
instance word_antisymm : Std.Antisymm (· ≤ · : Usize → Usize → Prop) := inferInstance
instance word_total : Std.Total (· ≤ · : Usize → Usize → Prop) := inferInstance

/-- Party identifier: parties are numbered `1..=n`. -/
abbrev PartyId := Usize

/-- A byte string: a session id, a tag, an encoding. -/
abbrev Bytes := List UInt8

/-- `BTreeMap<PartyId, ν>`. -/
abbrev PartyMap (ν : Type) := Std.ExtTreeMap PartyId ν compare

/-- Which protocol phase an abort occurred in. -/
inductive Phase
  | keyGen | triples | presign | sign | refresh
  deriving DecidableEq, Repr

/-- An abort with public attribution (SPEC §10). -/
structure IdentifiableAbort where
  phase : Phase
  blamed : List PartyId
  detail : String
  deriving DecidableEq, Repr

inductive Error
  | invalidParams (msg : String)
  | zeroValue (msg : String)
  | notEnoughShares (got need : Nat)
  | abort (abort : IdentifiableAbort)
  | presigStore (msg : String)
  | ecdsa
  deriving DecidableEq, Repr

/-- Why a call did not return a value. -/
inductive Fault
  | error (e : Error)
  | panic (msg : String)
  deriving DecidableEq, Repr

abbrev Outcome := Except Fault

/-- `Err(Error::Abort { .. })` blaming `blamed`. -/
def abort (phase : Phase) (blamed : List PartyId) (detail : String) : Fault :=
  .error (.abort ⟨phase, blamed, detail⟩)

/-- `2 * t - 1` is exact up to `2 ^ 63`, and wraps beyond. -/
theorem val_two_mul_sub_one {t : Usize} (hpos : 1 ≤ t.val) (ht : t.val ≤ 2 ^ 63) :
    (2 * t - 1).val = 2 * t.val - 1 := by
  have hmul : (2 * t : Usize).val = (2 * t.val) % 2 ^ 64 := by
    rw [Fin.val_mul]
    rfl
  have hsub : (2 * t - 1 : Usize).val = (2 ^ 64 - 1 + (2 * t : Usize).val) % 2 ^ 64 := Fin.sub_def ..▸ rfl
  rw [hsub, hmul]
  omega

/-- Threshold parameters: `t` of `n` parties sign. -/
structure Params where
  n : Usize
  t : Usize
  deriving DecidableEq, Repr

namespace Params

def new (n t : Usize) : Outcome Params :=
  if t < 1 then .error (.error (.invalidParams "threshold must be >= 1"))
  else if n < 2 * t - 1 then
    .error (.error (.invalidParams "honest majority requires n >= 2t - 1"))
  else .ok ⟨n, t⟩

/-- Party ids `1..=n`. -/
def parties (p : Params) : List PartyId :=
  (List.range p.n.val).map fun k => Fin.ofNat (2 ^ 64) (k + 1)

end Params

/-- An explicit party-id set for one protocol instance (SPEC §10.3): sorted
evaluation points, none of them 0, and a threshold. -/
structure Committee where
  ids : List PartyId
  t : Usize
  sorted : ids.Pairwise (· < ·)
  ids_pos : ∀ i ∈ ids, 0 < i
  ids_ne : ids ≠ []
  t_pos : 1 ≤ t.val

namespace Committee

/-- `v.windows(2).any(|w| w[0] == w[1])`. -/
def hasDup : List PartyId → Bool
  | a :: b :: l => a == b || hasDup (b :: l)
  | _ => false

theorem pairwise_lt_of_hasDup (l : List PartyId) (hs : l.Pairwise (· ≤ ·))
    (hd : hasDup l = false) : l.Pairwise (· < ·) := by
  induction l with
  | nil => exact List.Pairwise.nil
  | cons a l ih =>
    cases l with
    | nil => exact List.pairwise_singleton _ a
    | cons b l =>
      simp only [hasDup, Bool.or_eq_false_iff, beq_eq_false_iff_ne] at hd
      rw [List.pairwise_cons] at hs ⊢
      have htail := ih hs.2 hd.2
      have hab : a < b := lt_of_le_of_ne (hs.1 b List.mem_cons_self) hd.1
      refine ⟨fun c hc => ?_, htail⟩
      rcases List.mem_cons.mp hc with rfl | hc
      · exact hab
      · exact hab.trans ((List.pairwise_cons.mp htail).1 c hc)

theorem head_le_of_sorted {l : List PartyId} (hs : l.Pairwise (· ≤ ·)) {a : PartyId}
    (ha : l.head? = some a) (i : PartyId) (hi : i ∈ l) : a ≤ i := by
  cases l with
  | nil => simp at hi
  | cons b l =>
    simp only [List.head?_cons, Option.some.injEq] at ha
    subst ha
    rcases List.mem_cons.mp hi with rfl | hi
    · exact le_refl _
    · exact (List.pairwise_cons.mp hs).1 i hi

/-- Build a committee over explicit ids: the honest-majority bound, `id >= 1`,
uniqueness.  Ids are stored sorted. -/
def new (ids : List PartyId) (t : Usize) : Outcome Committee :=
  if ht : t < 1 then .error (.error (.invalidParams "threshold must be >= 1"))
  else if ids.length < (2 * t - 1).val then
    .error (.error (.invalidParams "honest majority requires n >= 2t - 1"))
  else
    let sorted := ids.insertionSort (· ≤ ·)
    match h0 : sorted.head? with
    | none => .error (.panic "index out of bounds")
    | some a =>
      if hz : a = 0 then
        .error (.error (.invalidParams "party ids start at 1; 0 is the secret"))
      else if hd : hasDup sorted then
        .error (.error (.invalidParams "duplicate party ids"))
      else .ok
        { ids := sorted
          t := t
          sorted := pairwise_lt_of_hasDup _ (List.pairwise_insertionSort _ _) (by simpa using hd)
          ids_pos := fun i hi => lt_of_lt_of_le (Fin.pos_iff_ne_zero.mpr hz)
            (head_le_of_sorted (List.pairwise_insertionSort _ _) h0 i hi)
          ids_ne := fun h => by simp only [sorted, h, List.head?_nil] at h0; cases h0
          t_pos := by
            have : ¬ t.val < 1 := ht
            omega }

/-- Committee size. -/
def n (c : Committee) : Nat := c.ids.length

/-- Position of party `j` in the id list. -/
def position (c : Committee) (j : PartyId) : Option Nat := c.ids.findIdx? (· == j)

theorem nodup (c : Committee) : c.ids.Nodup :=
  c.sorted.imp fun h => h.ne

theorem n_pos (c : Committee) : 0 < c.n := List.length_pos_iff.mpr c.ids_ne

theorem t_le_n (c : Committee) (h : 2 * c.t.val ≤ c.n + 1) : c.t.val ≤ c.n := by
  have := c.n_pos
  omega

theorem hasDup_of_pairwise_lt {l : List PartyId} (h : l.Pairwise (· < ·)) : hasDup l = false := by
  induction l with
  | nil => rfl
  | cons a l ih =>
    cases l with
    | nil => rfl
    | cons b l =>
      rw [List.pairwise_cons] at h
      have hne : a ≠ b := (h.1 b List.mem_cons_self).ne
      simp [hasDup, hne, ih h.2]

theorem length_lt (c : Committee) : c.ids.length < 2 ^ 64 := by
  have hnd : ((0 : PartyId) :: c.ids).Nodup :=
    List.nodup_cons.mpr ⟨fun h => (c.ids_pos 0 h).ne rfl, c.sorted.imp fun h => h.ne⟩
  have hle := hnd.length_le_card
  rw [Fintype.card_fin, List.length_cons] at hle
  omega

theorem new_self (c : Committee) (h : 2 * c.t.val ≤ c.ids.length + 1) : new c.ids c.t = .ok c := by
  have hlt := c.length_lt
  have hpos := c.t_pos
  have hbound : ((2 * c.t - 1 : Usize)).val ≤ c.ids.length := by
    rw [val_two_mul_sub_one hpos (by omega)]
    omega
  have hsort : c.ids.insertionSort (· ≤ ·) = c.ids :=
    List.Pairwise.insertionSort_eq (c.sorted.imp le_of_lt)
  have ht1 : ¬ c.t < 1 := by
    intro hlt1
    have : c.t.val < 1 := hlt1
    omega
  unfold new
  rw [dif_neg ht1, if_neg (by omega)]
  simp only [hsort]
  split
  · next h0 =>
    rw [hsort] at h0
    exact absurd (List.head?_eq_none_iff.mp h0) c.ids_ne
  · next a h0 =>
    rw [hsort] at h0
    have ha : a ∈ c.ids := List.mem_of_head? h0
    rw [dif_neg (Fin.pos_iff_ne_zero.mp (c.ids_pos a ha)), dif_neg (by simp [hasDup_of_pairwise_lt c.sorted])]

/-- What an accepted committee is made of. -/
theorem new_ok {ids : List PartyId} {t : Usize} {c : Committee} (h : new ids t = .ok c) :
    c.ids = ids.insertionSort (· ≤ ·) ∧ c.t = t ∧ (2 * t - 1).val ≤ ids.length := by
  unfold new at h
  split at h
  · cases h
  · split at h
    · cases h
    · next hlen =>
      simp only at h
      split at h
      · cases h
      · split at h
        · cases h
        · split at h
          · cases h
          · cases h
            exact ⟨rfl, rfl, Nat.not_lt.mp hlen⟩

/-- The bound `n ≥ 2t - 1` that `new` enforces, while `2 * t` does not overflow. -/
theorem majority_of_new {ids : List PartyId} {t : Usize} {c : Committee} (h : new ids t = .ok c)
    (ht : t.val < 2 ^ 63) : 2 * c.t.val ≤ c.n + 1 := by
  obtain ⟨hids, rfl, hlen⟩ := new_ok h
  have hn : c.n = ids.length := by rw [n, hids, List.length_insertionSort]
  have hpos := c.t_pos
  rw [val_two_mul_sub_one hpos ht.le] at hlen
  omega

end Committee

/-- The 2-of-3 committee. -/
def trio : Committee :=
  { ids := [1, 2, 3], t := 2, sorted := by decide, ids_pos := by simp, ids_ne := by decide, t_pos := by decide }

example : (Committee.new [3, 1, 2] 2).toOption.map (·.ids) = some [1, 2, 3] := by decide

/-! One of the three may be corrupt. -/

theorem trio_majority : 2 * trio.t.val ≤ trio.ids.length + 1 := by decide

theorem one_two_sub_trio : ([1, 2] : List PartyId) ⊆ trio.ids := by decide

theorem one_two_nodup : ([1, 2] : List PartyId).Nodup := by decide

theorem forall_one_two {P : PartyId → Prop} (h₁ : P 1) (h₂ : P 2) : ∀ h ∈ ([1, 2] : List PartyId), P h :=
  List.forall_mem_cons.mpr ⟨h₁, List.forall_mem_singleton.mpr h₂⟩

theorem trio_few_corrupt : trio.ids.length < ([1, 2] : List PartyId).length + trio.t.val := by decide

end OhmEcdsa
