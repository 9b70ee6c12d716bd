import OhmEcdsa.Core.Sign

/-!
# Openings and signature shares from any list (`open.rs`, `sign.rs`)

An opening reads a map, so its senders are distinct; a combine reads a list, and
interpolates over the first `quorum` valid senders as they come:

    openAt  = Ok v            → v = com.poly.eval point                        (opening_correct)
    combine = the claimed outcome ↔ the senders it interpolates over are distinct (combine_meets_iff)
-/

set_option linter.unusedSectionVars false

namespace OhmEcdsa

open Polynomial FeldmanCommitment

variable {F G : Type} [Field F] [DecidableEq F] [AddCommGroup G] [Module F G] [DecidableEq G] [K256 F G]

/-! ## Lemmas: interpolation over repeated ids -/

theorem mapM_error_some {ε α β : Type} {f : α → Except ε β} {e : ε} (l : List α)
    (h : ∀ a ∈ l, f a = .error e ∨ ∃ b, f a = .ok b) {a : α} (ha : a ∈ l) (hbad : f a = .error e) :
    l.mapM f = .error e := by
  induction l with
  | nil => cases ha
  | cons b l ih =>
    rw [List.mapM_cons]
    rcases h b List.mem_cons_self with hb | ⟨v, hb⟩
    · rw [hb]
      rfl
    · rcases List.mem_cons.mp ha with rfl | hmem
      · rw [hb] at hbad
        cases hbad
      · rw [hb, ih (fun c hc => h c (List.mem_cons_of_mem _ hc)) hmem]
        rfl

/-- A party that stands twice in the list has a vanishing denominator. -/
theorem lagrangeCoeffsAt_dup (x : F) {ids : List PartyId} (h : ¬ ids.Nodup) :
    lagrangeCoeffsAt x ids = .error (.panic "party indices must be distinct") := by
  obtain ⟨i, k, hne, p, hi, hk⟩ : ∃ i k, i ≠ k ∧ ∃ p, ids[i]? = some p ∧ ids[k]? = some p := by
    rw [List.nodup_iff_getElem?_ne_getElem?] at h
    push Not at h
    obtain ⟨i, k, hik, hk, heq⟩ := h
    exact ⟨i, k, hik.ne, ids[k], by rw [heq, List.getElem?_eq_getElem hk], List.getElem?_eq_getElem hk⟩
  have hden : (lagrangeNumDen x (scalarFrom p) i ids : F × F).2 = 0 := by
    unfold lagrangeNumDen
    rw [lagrangeNumDen_fold]
    dsimp only
    rw [one_mul]
    apply List.prod_eq_zero
    rw [List.mem_map]
    refine ⟨(p, k), ?_, sub_self _⟩
    rw [List.mem_filter]
    exact ⟨List.mem_zipIdx_iff_getElem?.mpr hk, by simpa using hne.symm⟩
  unfold lagrangeCoeffsAt
  refine mapM_error_some (a := (p, i)) _ (fun e _ => ?_) (List.mem_zipIdx_iff_getElem?.mpr hi) ?_
  · dsimp only
    split
    · exact Or.inl rfl
    · exact Or.inr ⟨_, rfl⟩
  · simp only [hden, invert, if_pos]

theorem interpolateFirst_dup (quorum : Usize) (point : F) {valid : List (PartyId × F)}
    (h : ¬ ((valid.map (·.1)).take quorum.val).Nodup) :
    interpolateFirst quorum point valid = .error (.panic "party indices must be distinct") := by
  unfold interpolateFirst interpolateAtZero interpolateAt
  simp only [lagrangeCoeffsAt_dup _ h, bind, Except.bind, ite_self]

theorem degree_lt_of_length {com : FeldmanCommitment G} {quorum : Nat} (hcom : com.points.length ≤ quorum) :
    (com.poly F).degree < quorum :=
  lt_of_lt_of_le (degree_poly_lt com) (by exact_mod_cast hcom)

/-! ## Openings -/

/-- Every sender whose share fails, in the order of the map. -/
def failing (com : FeldmanCommitment G) (shares : List (PartyId × F)) : List PartyId :=
  (shares.filter fun e => !com.verifyShare e.1 e.2).map (·.1)

theorem mem_failing {com : FeldmanCommitment G} {shares : PartyMap F} {i : PartyId} :
    i ∈ failing com shares.toList ↔ ∃ s, shares[i]? = some s ∧ com.verifyShare i s = false := by
  unfold failing
  simp only [List.mem_map, List.mem_filter, Bool.not_eq_true']
  constructor
  · rintro ⟨⟨j, s⟩, ⟨hmem, hbad⟩, rfl⟩
    exact ⟨s, Std.ExtTreeMap.mem_toList_iff_getElem?_eq_some.mp hmem, hbad⟩
  · rintro ⟨s, hs, hbad⟩
    exact ⟨(i, s), ⟨Std.ExtTreeMap.mem_toList_iff_getElem?_eq_some.mpr hs, hbad⟩, rfl⟩

theorem failing_eq_nil_iff {com : FeldmanCommitment G} {shares : List (PartyId × F)} :
    failing com shares = [] ↔ ∀ e ∈ shares, com.verifyShare e.1 e.2 = true := by
  unfold failing
  rw [List.map_eq_nil_iff, List.filter_eq_nil_iff]
  simp

/-- **The three outcomes of an opening.** -/
theorem openAt_eq (point : F) (t : Usize) (com : FeldmanCommitment G) (hcom : com.points.length ≤ t.val)
    (shares : PartyMap F) (phase : Phase) :
    openAt point t com shares phase =
      if failing com shares.toList ≠ [] then
        .error (abort phase (failing com shares.toList) "share failed commitment check during opening")
      else if shares.size < t.val then .error (.error (.notEnoughShares shares.size t.val))
      else .ok ((com.poly F).eval point) := by
  by_cases hbad : failing com shares.toList = []
  · have hv := failing_eq_nil_iff.mp hbad
    have hlen : shares.toList.length = shares.size := Std.ExtTreeMap.length_toList
    rw [if_neg (not_not.mpr hbad)]
    split
    · next hfew =>
      unfold openAt
      simp only [partitionShares_valid com _ hv, ne_eq, not_true_eq_false, if_false]
      rw [hlen, if_pos hfew]
    · next hmany =>
      exact openAt_ok point t com shares phase hv (by omega) (degree_lt_of_length hcom)
  · rw [if_pos hbad]
    unfold openAt
    simp only [partitionShares_eq]
    exact if_pos hbad

theorem openRobust_eq (t : Usize) (com : FeldmanCommitment G) (hcom : com.points.length ≤ t.val)
    (shares : PartyMap F) (phase : Phase) :
    openRobust t com shares phase =
      if (shares.toList.filter fun e => com.verifyShare e.1 e.2).length < t.val then
        .error (.error (.notEnoughShares (shares.toList.filter fun e => com.verifyShare e.1 e.2).length t.val))
      else .ok ((com.poly F).eval 0, failing com shares.toList) := by
  split
  · next hfew =>
    unfold openRobust
    simp only [partitionShares_eq]
    exact if_pos hfew
  · next hmany =>
    exact openRobust_ok t com shares phase (by omega) (degree_lt_of_length hcom)

/-- **Openings are correct**: over a commitment to at most `t` coefficients, an
opening that returns gives the committed value at its point; the robust one
gives it as soon as `t` shares are valid; and whoever is blamed, raised or
returned, is exactly who sent a share that fails. -/
theorem opening_correct (t : Usize) (com : FeldmanCommitment G) (hcom : com.points.length ≤ t.val)
    (shares : PartyMap F) (phase : Phase) :
    (∀ v, «open» t com shares phase = .ok v → v = (com.poly F).eval 0) ∧
    (∀ point v, openAt point t com shares phase = .ok v → v = (com.poly F).eval point) ∧
    (t.val ≤ (shares.toList.filter fun e => com.verifyShare e.1 e.2).length →
      ∃ blamed, openRobust t com shares phase = .ok ((com.poly F).eval 0, blamed)) ∧
    (∀ v blamed, openRobust t com shares phase = .ok (v, blamed) →
      v = (com.poly F).eval 0 ∧
      ∀ i, i ∈ blamed ↔ ∃ s, shares[i]? = some s ∧ com.verifyShare i s = false) ∧
    ∀ point, (∃ i s, shares[i]? = some s ∧ com.verifyShare i s = false) ↔
      ∃ blamed detail, openAt point t com shares phase = .error (abort phase blamed detail) ∧
        ∀ i, i ∈ blamed ↔ ∃ s, shares[i]? = some s ∧ com.verifyShare i s = false := by
  have hat : ∀ point v, openAt point t com shares phase = .ok v → v = (com.poly F).eval point := by
    intro point v h
    rw [openAt_eq point t com hcom] at h
    split at h
    · cases h
    · split at h
      · cases h
      · exact (Except.ok.inj h).symm
  refine ⟨fun v => hat 0 v, hat, fun hmany => ?_, fun v blamed h => ?_, fun point => ?_⟩
  · exact ⟨_, by rw [openRobust_eq t com hcom, if_neg (by omega)]⟩
  · rw [openRobust_eq t com hcom] at h
    split at h
    · cases h
    · cases h
      exact ⟨rfl, fun i => mem_failing⟩
  · rw [openAt_eq point t com hcom]
    constructor
    · rintro ⟨i, s, hs, hbad⟩
      have hne : failing com shares.toList ≠ [] := List.ne_nil_of_mem (mem_failing.mpr ⟨s, hs, hbad⟩)
      exact ⟨_, _, if_pos hne, fun i => mem_failing⟩
    · rintro ⟨blamed, detail, h, hiff⟩
      split at h
      · next hne =>
        obtain ⟨i, hi⟩ := List.exists_mem_of_ne_nil _ hne
        obtain ⟨s, hs⟩ := mem_failing.mp hi
        exact ⟨i, s, hs⟩
      · split at h <;> cases h

/-! ## Combines -/

/-- The shares as pairs. -/
def pairs (shares : List (SignShare F)) : List (PartyId × F) := shares.map fun sh => (sh.sender, sh.s)

/-- How many senders supplied a share. -/
def distinct (shares : List (PartyId × F)) : Nat := (shares.map (·.1)).dedup.length

theorem distinct_le (shares : List (PartyId × F)) : distinct shares ≤ shares.length := by
  have h := (List.dedup_sublist (shares.map (·.1))).length_le
  rwa [List.length_map] at h

/-- Over the first `quorum` senders, once each, `combine` interpolates; else it
panics. -/
theorem interpolateFirst_cases (quorum : Usize) (point : F) (com : FeldmanCommitment G)
    (hdeg : (com.poly F).degree < quorum.val) {valid : List (PartyId × F)}
    (hv : ∀ e ∈ valid, com.verifyShare e.1 e.2 = true) (hq : quorum.val ≤ valid.length) :
    interpolateFirst quorum point valid =
      if ((valid.map (·.1)).take quorum.val).Nodup then .ok ((com.poly F).eval point)
      else .error (.panic "party indices must be distinct") := by
  split
  · next hnd =>
    have hfirst : interpolateFirst quorum point valid = interpolateFirst quorum point (valid.take quorum.val) := by
      unfold interpolateFirst
      rw [List.map_take, List.map_take, List.take_take, List.take_take, min_self]
    rw [hfirst]
    apply interpolateFirst_ok
    · rw [List.map_take]
      exact hnd
    · exact fun e he => hv e (List.mem_of_mem_take he)
    · rw [List.length_take, min_eq_left hq]
    · exact hdeg
  · next hdup => exact interpolateFirst_dup quorum point hdup

/-- **What `combine_at` does with any list.** -/
theorem combineVerified_cases (quorum : Usize) (point r : F) (com : FeldmanCommitment G)
    (hdeg : (com.poly F).degree < quorum.val) (shares : List (SignShare F)) :
    combineVerified quorum point r com shares =
      if failing com (pairs shares) ≠ [] then
        .error (abort .sign (failing com (pairs shares)) "signature share failed commitment check")
      else if shares.length < quorum.val then .error (.error (.notEnoughShares shares.length quorum.val))
      else if ((shares.map (·.sender)).take quorum.val).Nodup then .ok (r, (com.poly F).eval point)
      else .error (.panic "party indices must be distinct") := by
  by_cases hbad : failing com (pairs shares) = []
  · have hv := failing_eq_nil_iff.mp hbad
    have hsenders : (pairs shares).map (·.1) = shares.map (·.sender) := by
      unfold pairs
      rw [List.map_map]
      rfl
    have hlen : (pairs shares).length = shares.length := List.length_map _
    have hpart : partitionShares com (shares.map fun sh => (sh.sender, sh.s)) = (pairs shares, []) :=
      partitionShares_valid com _ hv
    unfold combineVerified
    rw [if_neg (not_not.mpr hbad)]
    simp only [hpart, ne_eq, not_true_eq_false, if_false]
    split
    · next hfew =>
      rw [if_pos (by rwa [hlen] at hfew)]
      exact congrArg (fun k => Except.error (Fault.error (Error.notEnoughShares k quorum.val))) hlen
    · next hmany =>
      have hq : quorum.val ≤ (pairs shares).length := Nat.not_lt.mp hmany
      rw [if_neg (by omega)]
      have hint := interpolateFirst_cases quorum point com hdeg hv hq
      rw [hsenders] at hint
      change (do let s ← interpolateFirst quorum point (pairs shares); return (r, s)) = _
      rw [hint]
      split <;> rfl
  · rw [if_pos hbad]
    unfold combineVerified
    simp only [partitionShares_eq]
    exact if_pos hbad

/-- The shares that pass, as pairs. -/
def passing (com : FeldmanCommitment G) (shares : List (SignShare F)) : List (PartyId × F) :=
  (pairs shares).filter fun e => com.verifyShare e.1 e.2

theorem combineRobustVerified_cases (quorum : Usize) (r : F) (com : FeldmanCommitment G)
    (hdeg : (com.poly F).degree < quorum.val) (shares : List (SignShare F)) :
    combineRobustVerified quorum r com shares =
      if (passing com shares).length < quorum.val then
        .error (.error (.notEnoughShares (passing com shares).length quorum.val))
      else if (((passing com shares).map (·.1)).take quorum.val).Nodup then
        .ok ((r, (com.poly F).eval 0), failing com (pairs shares))
      else .error (.panic "party indices must be distinct") := by
  unfold combineRobustVerified
  simp only [partitionShares_eq]
  change (if (passing com shares).length < quorum.val then _ else
    (do let s ← interpolateFirst quorum 0 (passing com shares); return ((r, s), failing com (pairs shares)))) = _
  split
  · rfl
  · next hmany =>
    have hv : ∀ e ∈ passing com shares, com.verifyShare e.1 e.2 = true := fun e he => (List.mem_filter.mp he).2
    have hint := interpolateFirst_cases quorum 0 com hdeg hv (Nat.not_lt.mp hmany)
    rw [hint]
    split <;> rfl

theorem le_distinct {quorum : Nat} {shares : List (PartyId × F)} (hq : quorum ≤ shares.length)
    (hnd : ((shares.map (·.1)).take quorum).Nodup) : quorum ≤ distinct shares := by
  have hsub : (shares.map (·.1)).take quorum ⊆ (shares.map (·.1)).dedup :=
    fun i hi => List.mem_dedup.mpr (List.mem_of_mem_take hi)
  have hle := (hnd.subperm hsub).length_le
  rw [List.length_take, List.length_map, min_eq_left hq] at hle
  exact hle

section Meets

variable (params : Params) (point : F) (record : Presignature F G) (m : F) (shares : List (SignShare F))

/-- The commitment a record's shares of `m` are checked against. -/
abbrev comOf : FeldmanCommitment G := signCom record.uCom record.zCom m record.r

/-- The outcome promised of `combine_at`: no panic; a failing share aborts and
blames its sender; else too few senders are too few shares, and enough of them
give the committed value. -/
structure CombineMeets : Prop where
  returns : ∀ msg, combineAt params.t point record m shares ≠ .error (.panic msg)
  blames : failing (comOf record m) (pairs shares) ≠ [] → ∃ detail,
    combineAt params.t point record m shares = .error (abort .sign (failing (comOf record m) (pairs shares)) detail)
  enough : failing (comOf record m) (pairs shares) = [] →
    ((∃ got, combineAt params.t point record m shares = .error (.error (.notEnoughShares got params.t.val))) ↔
      distinct (pairs shares) < params.t.val)
  value : failing (comOf record m) (pairs shares) = [] → params.t.val ≤ distinct (pairs shares) →
    combineAt params.t point record m shares = .ok (record.r, ((comOf record m).poly F).eval point)

/-- The outcome promised of `combine_robust`. -/
def RobustMeets : Prop :=
  params.t.val ≤ distinct (passing (comOf record m) shares) →
    combineRobust params record m shares =
      .ok ((record.r, ((comOf record m).poly F).eval 0), failing (comOf record m) (pairs shares))

variable (hu : record.uCom.points.length ≤ params.t.val) (hz : record.zCom.points.length ≤ params.t.val)

include hu hz

theorem degree_comOf : ((comOf record m).poly F).degree < params.t.val := by
  apply degree_lt_of_length
  unfold comOf signCom
  rw [length_add, length_scale, length_scale]
  exact max_le hu hz

theorem combineMeets_iff : CombineMeets params point record m shares ↔
    failing (comOf record m) (pairs shares) ≠ [] ∨ shares.length < params.t.val ∨
      ((shares.map (·.sender)).take params.t.val).Nodup := by
  have hlen : (pairs shares).length = shares.length := List.length_map _
  have hsenders : (pairs shares).map (·.1) = shares.map (·.sender) := by
    unfold pairs
    rw [List.map_map]
    rfl
  have hdist := distinct_le (pairs shares)
  have hrun : combineAt params.t point record m shares = _ :=
    combineVerified_cases params.t point record.r (comOf record m) (degree_comOf params record m hu hz) shares
  constructor
  · intro h
    by_contra hcon
    push Not at hcon
    obtain ⟨hgood, hmany, hdup⟩ := hcon
    refine h.returns "party indices must be distinct" ?_
    rw [hrun, if_neg (not_not.mpr hgood), if_neg (by omega), if_neg hdup]
  · intro hcond
    by_cases hbad : failing (comOf record m) (pairs shares) = []
    · rw [if_neg (not_not.mpr hbad)] at hrun
      by_cases hfew : shares.length < params.t.val
      · rw [if_pos hfew] at hrun
        refine ⟨?_, fun h => absurd hbad h, fun _ => ⟨fun _ => by omega, fun _ => ⟨_, hrun⟩⟩, fun _ hq => by omega⟩
        intro msg h
        rw [hrun] at h
        cases h
      · have hnd : ((shares.map (·.sender)).take params.t.val).Nodup :=
          (hcond.resolve_left (not_not.mpr hbad)).resolve_left hfew
        have henough : params.t.val ≤ distinct (pairs shares) :=
          le_distinct (by omega) (by rw [hsenders]; exact hnd)
        rw [if_neg hfew, if_pos hnd] at hrun
        refine ⟨?_, fun h => absurd hbad h, fun _ => ⟨?_, fun h => by omega⟩, fun _ _ => hrun⟩
        · intro msg h
          rw [hrun] at h
          cases h
        · rintro ⟨got, h⟩
          rw [hrun] at h
          cases h
    · rw [if_pos hbad] at hrun
      refine ⟨?_, fun _ => ⟨_, hrun⟩, fun h => absurd h hbad, fun h => absurd h hbad⟩
      intro msg h
      rw [hrun] at h
      cases h

theorem robustMeets_iff : RobustMeets params record m shares ↔
    distinct (passing (comOf record m) shares) < params.t.val ∨
      (((passing (comOf record m) shares).map (·.1)).take params.t.val).Nodup := by
  have hdist := distinct_le (passing (comOf record m) shares)
  have hrun : combineRobust params record m shares = _ :=
    combineRobustVerified_cases params.t record.r (comOf record m) (degree_comOf params record m hu hz) shares
  unfold RobustMeets
  constructor
  · intro h
    by_contra hcon
    push Not at hcon
    obtain ⟨hmany, hdup⟩ := hcon
    have hok := h hmany
    rw [hrun, if_neg (by omega), if_neg hdup] at hok
    cases hok
  · rintro hcond hmany
    have hnd := hcond.resolve_left (by omega)
    rw [hrun, if_neg (by omega), if_pos hnd]

/-- Whatever list it is given, a combine that returns gives the committed value. -/
theorem combineRobust_value {r s : F} {blamed : List PartyId}
    (h : combineRobust params record m shares = .ok ((r, s), blamed)) :
    r = record.r ∧ s = ((comOf record m).poly F).eval 0 ∧ blamed = failing (comOf record m) (pairs shares) := by
  have hrun : combineRobust params record m shares = _ :=
    combineRobustVerified_cases params.t record.r (comOf record m) (degree_comOf params record m hu hz) shares
  rw [hrun] at h
  split at h
  · cases h
  · split at h
    · cases h
      exact ⟨rfl, rfl, rfl⟩
    · cases h

/-- **Combination over any share list**: `combine_at` keeps its promise exactly
when a share fails, too few were supplied, or the first `quorum` come from
distinct senders; `combine_robust`, when the first `quorum` valid ones do, or
fewer than `quorum` senders are valid; and any two lists on which it returns
give the same `(r, s)`. -/
theorem combine_meets_iff :
    (CombineMeets params point record m shares ↔
      failing (comOf record m) (pairs shares) ≠ [] ∨ shares.length < params.t.val ∨
        ((shares.map (·.sender)).take params.t.val).Nodup) ∧
    (RobustMeets params record m shares ↔
      distinct (passing (comOf record m) shares) < params.t.val ∨
        (((passing (comOf record m) shares).map (·.1)).take params.t.val).Nodup) ∧
    ∀ shares' rs rs' blamed blamed', combineRobust params record m shares = .ok (rs, blamed) →
      combineRobust params record m shares' = .ok (rs', blamed') → rs = rs' := by
  refine ⟨combineMeets_iff params point record m shares hu hz, robustMeets_iff params record m shares hu hz, ?_⟩
  rintro shares' ⟨r, s⟩ ⟨r', s'⟩ blamed blamed' h h'
  obtain ⟨rfl, rfl, -⟩ := combineRobust_value params record m shares hu hz h
  obtain ⟨rfl, rfl, -⟩ := combineRobust_value params record m shares' hu hz h'
  rfl

end Meets

section Solo

open Secp256k1

/-- A record of a sharing of degree 1 among any parties: `u(X) = z(X) = 1 + X`. -/
def lineRecord : Presignature Scalar Point := ⟨0, 1, 1, 1, 2, 2, ⟨[1, 1]⟩, ⟨[1, 1]⟩⟩

/-- The valid share of party `j` on the message scalar 0. -/
def lineShare (j : PartyId) : SignShare Scalar := ⟨j, 1 + scalarFrom j⟩

/-- Parties 1 and 2 combine to the committed value 1. -/
theorem combine_two : CombineMeets ⟨3, 2⟩ 0 lineRecord 0 [lineShare 1, lineShare 2] :=
  (combine_meets_iff ⟨3, 2⟩ 0 lineRecord 0 [lineShare 1, lineShare 2] (by decide) (by decide)).1.mpr
    (Or.inr (Or.inr (by decide)))

/-- A repeated sender among enough valid shares: both combines panic. -/
theorem combine_repeated :
    combineAt 2 0 lineRecord 0 [lineShare 1, lineShare 1, lineShare 2] =
      .error (.panic "party indices must be distinct") ∧
    combineRobust ⟨3, 2⟩ lineRecord 0 [lineShare 1, lineShare 1, lineShare 2] =
      .error (.panic "party indices must be distinct") ∧
    ¬ CombineMeets ⟨3, 2⟩ 0 lineRecord 0 [lineShare 1, lineShare 1, lineShare 2] ∧
    ¬ RobustMeets ⟨3, 2⟩ lineRecord 0 [lineShare 1, lineShare 1, lineShare 2] := by
  have hat : combineAt 2 0 lineRecord 0 [lineShare 1, lineShare 1, lineShare 2] =
      .error (.panic "party indices must be distinct") := by decide +kernel
  have hrobust : combineRobust ⟨3, 2⟩ lineRecord 0 [lineShare 1, lineShare 1, lineShare 2] =
      .error (.panic "party indices must be distinct") := by decide +kernel
  refine ⟨hat, hrobust, fun h => h.returns _ hat, fun h => ?_⟩
  have hok := h (by decide +kernel)
  rw [hrobust] at hok
  cases hok

/-- The two shares of that sharing open to its constant term 1. -/
theorem opening_line : ((⟨[1, 1]⟩ : FeldmanCommitment Point).poly Scalar).eval 0 = 1 :=
  ((opening_correct 2 (⟨[1, 1]⟩ : FeldmanCommitment Point) (by decide) (collect [(1, 2), (2, 3)]) .presign).1 1
    (by decide +kernel)).symm

end Solo

end OhmEcdsa
