import OhmEcdsa.Core.Sim

/-!
# The honest-majority bound in machine words (`lib.rs`, `policy.rs`)

The three checks compute `2 * t - 1` in `usize`.  It is exact up to `t = 2^63`;
beyond, a release build compares with `2t - 1 - 2^64`:

    accepted ⇒ n ≥ 2t - 1   ↔   t ≤ 2^63 ∨ n < 2t - 1 - 2^64    (accepted_majority_iff)
-/

namespace OhmEcdsa

/-- The bound every protocol relies on, in exact integers. -/
def Majority (size t : Nat) : Prop := 1 ≤ t ∧ 2 * t - 1 ≤ size

/-! ## Lemmas -/

/-- Past `2 ^ 63` the bound loses a whole word. -/
theorem val_two_mul_sub_one_wrap {t : Usize} (ht : 2 ^ 63 < t.val) :
    (2 * t - 1).val = 2 * t.val - 1 - 2 ^ 64 := by
  have hmul : (2 * t : Usize).val = (2 * t.val) % 2 ^ 64 := by
    rw [Fin.val_mul]
    rfl
  have hsub : (2 * t - 1 : Usize).val = (2 ^ 64 - 1 + (2 * t : Usize).val) % 2 ^ 64 := Fin.sub_def ..▸ rfl
  have hlt := t.isLt
  rw [hsub, hmul]
  omega

theorem pos_of_not_lt_one {t : Usize} (h : ¬ t < 1) : 1 ≤ t.val := by
  have : ¬ t.val < 1 := h
  omega

/-- Passing the machine check is the exact bound below the overflow, and misses
it above. -/
theorem majority_of_check_iff {size : Nat} {t : Usize} (hpos : 1 ≤ t.val) (hsize : size < 2 ^ 64) :
    ((2 * t - 1).val ≤ size → Majority size t.val) ↔ t.val ≤ 2 ^ 63 ∨ size + 2 ^ 64 < 2 * t.val - 1 := by
  unfold Majority
  by_cases ht : t.val ≤ 2 ^ 63
  · rw [val_two_mul_sub_one hpos ht]
    exact ⟨fun _ => Or.inl ht, fun _ h => ⟨hpos, h⟩⟩
  · rw [val_two_mul_sub_one_wrap (by omega)]
    constructor
    · intro h
      by_contra hcon
      have := (h (by omega)).2
      omega
    · intro h hle
      omega

theorem new_params_ok_iff {n t : Usize} {p : Params} :
    Params.new n t = .ok p ↔ 1 ≤ t.val ∧ (2 * t - 1).val ≤ n.val ∧ p = ⟨n, t⟩ := by
  unfold Params.new
  by_cases ht : t < 1
  · rw [if_pos ht]
    have : t.val < 1 := ht
    constructor
    · intro h
      cases h
    · intro h
      omega
  · rw [if_neg ht]
    have hpos := pos_of_not_lt_one ht
    by_cases hn : n < 2 * t - 1
    · rw [if_pos hn]
      have : n.val < (2 * t - 1).val := hn
      constructor
      · intro h
        cases h
      · intro h
        omega
    · rw [if_neg hn]
      have hle : ¬ n.val < (2 * t - 1).val := hn
      constructor
      · intro h
        cases h
        exact ⟨hpos, by omega, rfl⟩
      · rintro ⟨-, -, rfl⟩
        rfl

/-- Adjacent repetitions are the only ones a sorted list can have. -/
theorem hasDup_insertionSort {ids : List PartyId} (h : ids.Nodup) :
    Committee.hasDup (ids.insertionSort (· ≤ ·)) = false := by
  apply Committee.hasDup_of_pairwise_lt
  have hperm : (ids.insertionSort (· ≤ ·)).Perm ids := List.perm_insertionSort _ _
  have hnd : (ids.insertionSort (· ≤ ·)).Pairwise (· ≠ ·) := hperm.nodup_iff.mpr h
  exact (List.pairwise_insertionSort (· ≤ ·) ids).imp₂ (fun _ _ hle hne => lt_of_le_of_ne hle hne) hnd

/-- What `Committee::new` accepts. -/
theorem new_committee_ok_iff {ids : List PartyId} {t : Usize} :
    (∃ c, Committee.new ids t = .ok c) ↔
      1 ≤ t.val ∧ (2 * t - 1).val ≤ ids.length ∧ ids ≠ [] ∧ 0 ∉ ids ∧ ids.Nodup := by
  constructor
  · rintro ⟨c, hc⟩
    obtain ⟨hids, rfl, hlen⟩ := Committee.new_ok hc
    have hperm : c.ids.Perm ids := hids ▸ List.perm_insertionSort _ _
    refine ⟨c.t_pos, hlen, ?_, ?_, hperm.nodup_iff.mp c.nodup⟩
    · rintro rfl
      exact c.ids_ne hperm.eq_nil
    · intro h0
      exact (c.ids_pos 0 (hperm.mem_iff.mpr h0)).ne rfl
  · rintro ⟨hpos, hlen, hne, h0, hnd⟩
    have hperm : (ids.insertionSort (· ≤ ·)).Perm ids := List.perm_insertionSort _ _
    have ht : ¬ t < 1 := by
      intro h
      have : t.val < 1 := h
      omega
    unfold Committee.new
    rw [dif_neg ht, if_neg (by omega)]
    dsimp only
    split
    · next hnil =>
      rw [List.head?_eq_none_iff] at hnil
      rw [hnil] at hperm
      exact absurd hperm.symm.eq_nil hne
    · next a ha =>
      have hmem : a ∈ ids := hperm.mem_iff.mp (List.mem_of_head? ha)
      have hz : a ≠ 0 := by
        rintro rfl
        exact h0 hmem
      rw [dif_neg hz, dif_neg (by simp [hasDup_insertionSort hnd])]
      exact ⟨_, rfl⟩

theorem restartCommittee_ok_iff {current blamed next : List PartyId} {t : Usize} :
    restartCommittee current blamed t = .ok next ↔
      1 ≤ t.val ∧ (2 * t - 1).val ≤ (current.filter fun p => !blamed.contains p).length ∧
        next = (current.filter fun p => !blamed.contains p).insertionSort (· ≤ ·) := by
  unfold restartCommittee
  by_cases ht : t < 1
  · rw [if_pos ht]
    have : t.val < 1 := ht
    constructor
    · intro h
      cases h
    · intro h
      omega
  · rw [if_neg ht]
    have hpos := pos_of_not_lt_one ht
    simp only [List.length_insertionSort]
    split
    · constructor
      · intro h
        cases h
      · intro h
        omega
    · constructor
      · intro h
        cases h
        exact ⟨hpos, by omega, rfl⟩
      · rintro ⟨-, -, rfl⟩
        rfl

/-! ## Top theorem -/

/-- **When the accepted sizes keep the honest majority**: a parameter set, a
committee and a restart are accepted only with `n ≥ 2t - 1` exactly when `t` is
at most `2^63`, or the wrapped bound refuses the size as well (a committee: or
its ids are refused). -/
theorem accepted_majority_iff (n t : Usize) (ids blamed : List PartyId) (hvec : ids.length < 2 ^ 64) :
    ((∀ p, Params.new n t = .ok p → Majority p.n.val p.t.val) ↔
      t.val ≤ 2 ^ 63 ∨ n.val + 2 ^ 64 < 2 * t.val - 1) ∧
    ((∀ c, Committee.new ids t = .ok c → Majority c.n c.t.val) ↔
      t.val ≤ 2 ^ 63 ∨ ids.length + 2 ^ 64 < 2 * t.val - 1 ∨ 0 ∈ ids ∨ ¬ ids.Nodup) ∧
    ((∀ next, restartCommittee ids blamed t = .ok next → Majority next.length t.val) ↔
      t.val ≤ 2 ^ 63 ∨
        (ids.filter fun p => !blamed.contains p).length + 2 ^ 64 < 2 * t.val - 1) := by
  by_cases hpos : 1 ≤ t.val
  · refine ⟨?_, ?_, ?_⟩
    · rw [← majority_of_check_iff hpos n.isLt]
      constructor
      · intro h hle
        exact h ⟨n, t⟩ (new_params_ok_iff.mpr ⟨hpos, hle, rfl⟩)
      · intro h p hp
        obtain ⟨-, hle, rfl⟩ := new_params_ok_iff.mp hp
        exact h hle
    · rw [← or_assoc, ← majority_of_check_iff hpos hvec]
      constructor
      · intro h
        by_cases hids : 0 ∈ ids ∨ ¬ ids.Nodup
        · exact Or.inr hids
        · refine Or.inl fun hle => ?_
          rw [not_or, not_not] at hids
          have hne : ids ≠ [] := by
            rintro rfl
            by_cases ht : t.val ≤ 2 ^ 63
            · rw [val_two_mul_sub_one hpos ht, List.length_nil] at hle
              omega
            · rw [val_two_mul_sub_one_wrap (by omega), List.length_nil] at hle
              omega
          obtain ⟨c, hc⟩ := new_committee_ok_iff.mpr ⟨hpos, hle, hne, hids.1, hids.2⟩
          obtain ⟨hsorted, hct, -⟩ := Committee.new_ok hc
          have hmaj := h c hc
          rwa [Committee.n, hsorted, List.length_insertionSort, hct] at hmaj
      · rintro hcond c hc
        obtain ⟨-, hle, -, h0, hnd⟩ := new_committee_ok_iff.mp ⟨c, hc⟩
        obtain ⟨hsorted, hct, -⟩ := Committee.new_ok hc
        rw [Committee.n, hsorted, List.length_insertionSort, hct]
        rcases hcond with h | h | h
        · exact h hle
        · exact absurd h h0
        · exact absurd hnd h
    · have hfew : (ids.filter fun p => !blamed.contains p).length < 2 ^ 64 :=
        lt_of_le_of_lt List.filter_sublist.length_le hvec
      rw [← majority_of_check_iff hpos hfew]
      constructor
      · intro h hle
        have hmaj := h _ (restartCommittee_ok_iff.mpr ⟨hpos, hle, rfl⟩)
        rwa [List.length_insertionSort] at hmaj
      · intro h next hnext
        obtain ⟨-, hle, rfl⟩ := restartCommittee_ok_iff.mp hnext
        rw [List.length_insertionSort]
        exact h hle
  · -- `t = 0` is refused by all three
    have hsmall : t.val ≤ 2 ^ 63 := by omega
    refine ⟨⟨fun _ => Or.inl hsmall, fun _ p hp => ?_⟩, ⟨fun _ => Or.inl hsmall, fun _ c hc => ?_⟩,
      ⟨fun _ => Or.inl hsmall, fun _ next hnext => ?_⟩⟩
    · exact absurd (new_params_ok_iff.mp hp).1 hpos
    · exact absurd (new_committee_ok_iff.mp ⟨c, hc⟩).1 hpos
    · exact absurd (restartCommittee_ok_iff.mp hnext).1 hpos

/-- At `t = 2^63` the bound is still exact: a committee of one is refused. -/
theorem majority_at_last_exact : ([1] : List PartyId).length < 2 ^ 64 ∧
    ∀ c, Committee.new [1] (Fin.ofNat (2 ^ 64) (2 ^ 63)) = .ok c → Majority c.n c.t.val :=
  ⟨by decide, (accepted_majority_iff 1 (Fin.ofNat (2 ^ 64) (2 ^ 63)) [1] [] (by decide)).2.1.mpr
    (Or.inl (by decide +kernel))⟩

/-- One past it, one party is a committee with the threshold `2^63 + 1`. -/
theorem majority_wraps :
    ¬ ((∀ n t : Usize, ∀ p, Params.new n t = .ok p → Majority p.n.val p.t.val) ∨
      (∀ (ids : List PartyId) (t : Usize), ∀ c, Committee.new ids t = .ok c → Majority c.n c.t.val) ∨
      (∀ (ids blamed : List PartyId) (t : Usize), ∀ next, restartCommittee ids blamed t = .ok next →
        Majority next.length t.val)) := by
  have hone : ¬ Majority 1 (2 ^ 63 + 1) := by unfold Majority; omega
  have hval : (Fin.ofNat (2 ^ 64) (2 ^ 63 + 1) : Usize).val = 2 ^ 63 + 1 := by decide +kernel
  rintro (h | h | h)
  · have := h 1 (Fin.ofNat (2 ^ 64) (2 ^ 63 + 1)) ⟨1, Fin.ofNat (2 ^ 64) (2 ^ 63 + 1)⟩ (by decide +kernel)
    rw [hval] at this
    exact hone this
  · obtain ⟨c, hc⟩ := new_committee_ok_iff.mpr
      (show 1 ≤ (Fin.ofNat (2 ^ 64) (2 ^ 63 + 1) : Usize).val ∧
        (2 * Fin.ofNat (2 ^ 64) (2 ^ 63 + 1) - 1 : Usize).val ≤ ([1] : List PartyId).length ∧ [1] ≠ [] ∧
        (0 : PartyId) ∉ [1] ∧ ([1] : List PartyId).Nodup by decide +kernel)
    obtain ⟨hids, hct, -⟩ := Committee.new_ok hc
    have := h [1] _ c hc
    rw [Committee.n, hids, hct, hval] at this
    exact hone this
  · have := h [1] [] (Fin.ofNat (2 ^ 64) (2 ^ 63 + 1)) [1] (by decide +kernel)
    rw [hval] at this
    exact hone this

end OhmEcdsa
