import OhmEcdsa.Core.Secp256k1
import OhmEcdsa.Core.Dkg

/-!
# The DKG state machine among faulty dealers (`src/protocol/dkg.rs`, `finalize`)

An honest member finalizes over common broadcasts and its own shares and
defenses, whatever the other dealers sent.  The first dealer that fails a check
decides the blame; a finalized share is the value of the committed sum:

    finalize … = .ok out → out = ⟨me, (Σ revealed).poly.eval me, Σ revealed⟩      (finalize_sound)
-/

set_option linter.unusedSectionVars false

namespace OhmEcdsa

open Polynomial FeldmanCommitment Hoare

variable {F G : Type} [Field F] [DecidableEq F] [AddCommGroup G] [Module F G] [DecidableEq G] [K256 F G]

/-- A map keyed by exactly the committee. -/
def Keyed {ν : Type} (c : Committee) (m : PartyMap ν) : Prop := ∀ i, i ∈ m ↔ i ∈ c.ids

theorem Keyed.getElem? {ν : Type} {c : Committee} {m : PartyMap ν} (h : Keyed c m) {i : PartyId} (hi : i ∈ c.ids) :
    ∃ v, m[i]? = some v := by
  have hmem : i ∈ m := (h i).mpr hi
  exact ⟨m[i], Std.ExtTreeMap.getElem?_eq_some_getElem hmem⟩

theorem Keyed.size {ν : Type} {c : Committee} {m : PartyMap ν} (h : Keyed c m) : m.size = c.n := by
  have hkeys : ∀ i, i ∈ m.toList.map (·.1) ↔ i ∈ c.ids := by
    intro i
    rw [← h i, List.mem_map]
    constructor
    · rintro ⟨⟨j, v⟩, he, rfl⟩
      rw [Std.ExtTreeMap.mem_toList_iff_getElem?_eq_some] at he
      exact Std.ExtTreeMap.mem_iff_isSome_getElem?.mpr (by rw [he]; rfl)
    · intro hi
      refine ⟨(i, m[i]), ?_, rfl⟩
      rw [Std.ExtTreeMap.mem_toList_iff_getElem?_eq_some]
      exact Std.ExtTreeMap.getElem?_eq_some_getElem hi
  have hperm := (List.perm_ext_iff_of_nodup (nodup_keys_toList m) c.nodup).mpr hkeys
  have := hperm.length_eq
  rwa [List.length_map, Std.ExtTreeMap.length_toList] at this

namespace DkgInstance

/-! ## One dealer's checks -/

/-- Dealer `i`'s revealed vector has `t` points and matches its commitment. -/
def revealConsistent (F : Type) [Field F] [Module F G] [K256 F G] (t : Usize) (sid tag : Bytes)
    (r1 : PartyMap DkgBcast1) (r2 : PartyMap (DkgBcast2 G)) (i : PartyId) : Bool :=
  match r1[i]?, r2[i]? with
  | some b1, some b2 => b2.com.points.length = t.val ∧ hashCommitment F sid tag i b2.com = b1.hash
  | _, _ => false

/-- Dealer `i`'s entry of `values`, a share or a defense, verifies for `me`. -/
def entryVerifies (r2 : PartyMap (DkgBcast2 G)) (values : PartyMap F) (me i : PartyId) : Bool :=
  match r2[i]?, values[i]? with
  | some b2, some s => b2.com.verifyShare me s
  | _, _ => false

/-- The first dealer, in id order, that fails a check of `inst`. -/
def firstFailing (inst : DkgInstance F G) (r1 : PartyMap DkgBcast1) (r2 : PartyMap (DkgBcast2 G))
    (shares : PartyMap F) : Option PartyId :=
  inst.committee.ids.find? fun i =>
    !(revealConsistent F inst.committee.t inst.sid inst.tag r1 r2 i && entryVerifies r2 shares inst.me i)

/-- The vector dealer `i` revealed. -/
def revealed (r2 : PartyMap (DkgBcast2 G)) (i : PartyId) : FeldmanCommitment G :=
  match r2[i]? with
  | some b2 => b2.com
  | none => ⟨[]⟩

section Finalize

variable {c : Committee} {sid tag : Bytes} (inst : DkgInstance F G) (hinst : inst.Honest c sid tag) (phase : Phase)
  {r1 : PartyMap DkgBcast1} {r2 : PartyMap (DkgBcast2 G)} {shares defenses : PartyMap F}
  (h1 : Keyed c r1) (h2 : Keyed c r2) (hs : Keyed c shares) (hd : Keyed c defenses)

include hinst h1 h2 hs hd

/-- **One dealer**: an inconsistent reveal blames it, a failing share blames the
accuser if its defense verifies and it otherwise. -/
theorem checkDealer_cases {i : PartyId} (hi : i ∈ c.ids) :
    (revealConsistent F c.t sid tag r1 r2 i = false ∧
      ∃ detail, inst.checkDealer phase r1 r2 shares defenses i = .error (abort phase [i] detail)) ∨
    (revealConsistent F c.t sid tag r1 r2 i = true ∧ entryVerifies r2 shares inst.me i = false ∧
      ∃ detail, inst.checkDealer phase r1 r2 shares defenses i =
        .error (abort phase [if entryVerifies r2 defenses inst.me i then inst.me else i] detail)) ∨
    (revealConsistent F c.t sid tag r1 r2 i = true ∧ ∃ b2 s, r2[i]? = some b2 ∧ shares[i]? = some s ∧
      b2.com.points.length = c.t.val ∧ b2.com.verifyShare inst.me s = true ∧
      inst.checkDealer phase r1 r2 shares defenses i = .ok (s, b2.com)) := by
  obtain ⟨b1, hb1⟩ := h1.getElem? hi
  obtain ⟨b2, hb2⟩ := h2.getElem? hi
  obtain ⟨s, hsi⟩ := hs.getElem? hi
  obtain ⟨defense, hdi⟩ := hd.getElem? hi
  unfold checkDealer revealConsistent entryVerifies OhmEcdsa.index
  simp only [hb1, hb2, hsi, hdi, hinst.committee, hinst.sid, hinst.tag, bind, Except.bind]
  by_cases hlen : b2.com.points.length = c.t.val
  · by_cases hhash : hashCommitment F sid tag i b2.com = b1.hash
    · refine Or.inr ?_
      rw [if_neg (not_not.mpr hlen), if_neg (not_not.mpr hhash)]
      cases hver : b2.com.verifyShare inst.me s with
      | true => exact Or.inr ⟨by simp [hlen, hhash], b2, s, rfl, rfl, hlen, hver, by simp only [if_true]; rfl⟩
      | false =>
        refine Or.inl ⟨by simp [hlen, hhash], rfl, ?_⟩
        simp only [Bool.false_eq_true, if_false]
        unfold resolveComplaint
        cases hdef : b2.com.verifyShare inst.me defense with
        | true => exact ⟨_, rfl⟩
        | false => exact ⟨_, rfl⟩
    · refine Or.inl ⟨by simp [hhash], ?_⟩
      rw [if_neg (not_not.mpr hlen), if_pos hhash]
      exact ⟨_, rfl⟩
  · refine Or.inl ⟨by simp [hlen], ?_⟩
    rw [if_pos hlen]
    exact ⟨_, rfl⟩

/-- **How `finalize` ends**, whatever the dealers sent. -/
theorem finalize_cases :
    (∃ i, inst.firstFailing r1 r2 shares = some i ∧ ∃ detail,
      inst.finalize phase r1 r2 shares defenses = .error (abort phase
        [if revealConsistent F c.t sid tag r1 r2 i && entryVerifies r2 defenses inst.me i then inst.me else i]
        detail)) ∨
    (inst.firstFailing r1 r2 shares = none ∧ (∀ i ∈ c.ids, (revealed r2 i).points.length = c.t.val) ∧
      ∃ com, FeldmanCommitment.sum (c.ids.map (revealed r2)) = .ok com ∧
      inst.finalize phase r1 r2 shares defenses =
        .ok ⟨inst.me, (com.poly F).eval (scalarFrom inst.me), com⟩) := by
  have hcheck := fun i (hi : i ∈ c.ids) => inst.checkDealer_cases hinst phase h1 h2 hs hd hi
  have hfail : inst.firstFailing r1 r2 shares = c.ids.find? fun i =>
      !(revealConsistent F c.t sid tag r1 r2 i && entryVerifies r2 shares inst.me i) := by
    unfold firstFailing
    rw [hinst.committee, hinst.sid, hinst.tag]
  have hsize : ¬ (r1.size ≠ inst.committee.n ∨ r2.size ≠ inst.committee.n ∨ shares.size ≠ inst.committee.n ∨
      defenses.size ≠ inst.committee.n) := by
    rw [hinst.committee, h1.size, h2.size, hs.size, hd.size]
    simp
  unfold finalize
  rw [if_neg hsize, hfail, hinst.committee]
  have hloop := mapM_find (inst.checkDealer phase r1 r2 shares defenses)
    (fun i => !(revealConsistent F c.t sid tag r1 r2 i && entryVerifies r2 shares inst.me i)) c.ids
    (fun i hi hgood => by
      rcases hcheck i hi with ⟨hr, -⟩ | ⟨-, hv, -⟩ | ⟨-, b2, s, -, -, -, -, hok⟩
      · simp [hr] at hgood
      · simp [hv] at hgood
      · exact ⟨_, hok⟩)
    (fun i hi hbad => by
      rcases hcheck i hi with ⟨-, detail, he⟩ | ⟨-, -, detail, he⟩ | ⟨hr, b2, s, hb2, hsi, -, hv, -⟩
      · exact ⟨_, he⟩
      · exact ⟨_, he⟩
      · simp [hr, entryVerifies, hb2, hsi, hv] at hbad)
  rcases hloop with ⟨i, hi, hf, e, he, hl⟩ | ⟨hf, l', hl⟩
  · refine Or.inl ⟨i, hf, ?_⟩
    simp only [hl, bind, Except.bind]
    have hbad := List.find?_some hf
    rcases hcheck i hi with ⟨hr, detail, he'⟩ | ⟨hr, hv, detail, he'⟩ | ⟨-, b2, s, -, -, -, -, hok⟩
    · rw [he] at he'
      exact ⟨detail, by rw [hr, Except.error.inj he']; rfl⟩
    · rw [he] at he'
      exact ⟨detail, by rw [hr, Except.error.inj he', Bool.true_and]⟩
    · rw [he] at hok; cases hok
  · have hgood : ∀ i ∈ c.ids, (revealed r2 i).points.length = c.t.val ∧
        inst.checkDealer phase r1 r2 shares defenses i =
          .ok (((revealed r2 i).poly F).eval (scalarFrom inst.me), revealed r2 i) := by
      intro i hi
      have hpass := List.find?_eq_none.mp hf i hi
      rcases hcheck i hi with ⟨hr, -⟩ | ⟨-, hv, -⟩ | ⟨-, b2, s, hb2, -, hlen, hv, hok⟩
      · simp [hr] at hpass
      · simp [hv] at hpass
      · have hrev : revealed r2 i = b2.com := by unfold revealed; rw [hb2]
        rw [hrev, (verifyShare_iff _ _ _).mp hv]
        exact ⟨hlen, hok⟩
    have hne : c.ids.map (revealed r2) ≠ [] := by simpa using c.ids_ne
    obtain ⟨com, hcom, hpoly⟩ := sum_ok (F := F) _ hne
    refine Or.inr ⟨hf, fun i hi => (hgood i hi).1, com, hcom, ?_⟩
    rw [mapM_ok_of _ _ _ fun i hi => (hgood i hi).2]
    simp only [bind, Except.bind, List.map_map, Function.comp_def, foldl_shares, zero_add, hcom, hpoly,
      eval_listSum]
    rfl

end Finalize

/-! ## Top theorem -/

/-- Dealer `d` follows the protocol: its broadcasts, and its share and defense
for `me`, are its own instance's. -/
structure Followed (c : Committee) (sid tag : Bytes) (r1 : PartyMap DkgBcast1) (r2 : PartyMap (DkgBcast2 G))
    (shares defenses : PartyMap F) (me : PartyId) (d : DkgInstance F G) : Prop extends d.Honest c sid tag where
  commit : r1[d.me]? = some d.commitOf
  reveal : r2[d.me]? = some ⟨d.me, d.com⟩
  share : shares[d.me]? = some (d.shareFor me)
  defense : defenses[d.me]? = some (d.defend me)

/-- A dealer that follows the protocol passes every check. -/
theorem Followed.passes {c : Committee} {sid tag : Bytes} {r1 : PartyMap DkgBcast1} {r2 : PartyMap (DkgBcast2 G)}
    {shares defenses : PartyMap F} {me : PartyId} {d : DkgInstance F G}
    (h : Followed c sid tag r1 r2 shares defenses me d) :
    revealConsistent F c.t sid tag r1 r2 d.me = true ∧ entryVerifies r2 shares me d.me = true := by
  unfold revealConsistent entryVerifies
  rw [h.commit, h.reveal, h.share]
  constructor
  · simp only [DkgInstance.commitOf, h.sid, h.tag, h.length_com, and_self, decide_true]
  · simp only [verifyShare_iff, h.poly_com, h.shareFor]

/-- **Finalizing among faulty dealers.**  Honest members that finalize over the
same broadcasts hold values of one committed polynomial.  An abort blames no
member that follows the protocol, except the finalizing member itself exactly
when the first dealer that fails revealed consistently and its defense
verifies though its share does not. -/
theorem finalize_sound (c : Committee) (sid tag : Bytes) (phase : Phase) (r1 : PartyMap DkgBcast1)
    (r2 : PartyMap (DkgBcast2 G)) (h1 : Keyed c r1) (h2 : Keyed c r2) :
    ∃ com, FeldmanCommitment.sum (c.ids.map (revealed r2)) = .ok com ∧
      ∀ (inst : DkgInstance F G) (shares defenses : PartyMap F), inst.Honest c sid tag → Keyed c shares →
        Keyed c defenses →
        (∀ out, inst.finalize phase r1 r2 shares defenses = .ok out →
          (com.poly F).degree < c.t.val ∧ out = ⟨inst.me, (com.poly F).eval (scalarFrom inst.me), com⟩) ∧
        ∀ phase' blamed detail, inst.finalize phase r1 r2 shares defenses = .error (abort phase' blamed detail) →
          (∀ d, Followed c sid tag r1 r2 shares defenses inst.me d → d.me ∈ blamed → d.me = inst.me) ∧
          (Followed c sid tag r1 r2 shares defenses inst.me inst →
            (inst.me ∈ blamed ↔ ∃ i, inst.firstFailing r1 r2 shares = some i ∧
              revealConsistent F c.t sid tag r1 r2 i = true ∧ entryVerifies r2 defenses inst.me i = true)) ∧
          ((∀ i : PartyId, defenses[i]? = shares[i]?) →
            ∀ d, Followed c sid tag r1 r2 shares defenses inst.me d → d.me ∉ blamed) := by
  have hne : c.ids.map (revealed r2) ≠ [] := by simpa using c.ids_ne
  obtain ⟨com, hcom, -⟩ := sum_ok (F := F) _ hne
  refine ⟨com, hcom, fun inst shares defenses hinst hs hd => ?_⟩
  rcases inst.finalize_cases hinst phase h1 h2 hs hd with ⟨i, hf, detail₀, he⟩ | ⟨-, hlen, com', hcom', hok⟩
  · rw [he]
    refine ⟨fun out h => (by cases h), fun phase' blamed detail h => ?_⟩
    cases h
    have hbad := List.find?_some hf
    rw [hinst.committee, hinst.sid, hinst.tag] at hbad
    have hnot : ∀ d, Followed c sid tag r1 r2 shares defenses inst.me d → d.me ≠ i := by
      rintro d hfollow rfl
      simp [hfollow.passes.1, hfollow.passes.2] at hbad
    cases hc : (revealConsistent F c.t sid tag r1 r2 i && entryVerifies r2 defenses inst.me i) with
    | true =>
      rw [if_pos rfl]
      rw [Bool.and_eq_true] at hc
      refine ⟨fun d _ h => List.mem_singleton.mp h,
        fun _ => ⟨fun _ => ⟨i, hf, hc⟩, fun _ => List.mem_singleton_self _⟩, fun hsame d _ _ => ?_⟩
      have hver : entryVerifies r2 shares inst.me i = true := by
        have := hc.2
        unfold entryVerifies at this ⊢
        rwa [hsame i] at this
      simp [hc.1, hver] at hbad
    | false =>
      rw [if_neg Bool.false_ne_true]
      have hmem : ∀ d, Followed c sid tag r1 r2 shares defenses inst.me d → d.me ∉ [i] :=
        fun d hfollow h => hnot d hfollow (List.mem_singleton.mp h)
      refine ⟨fun d hfollow h => absurd h (hmem d hfollow), fun hfollow => ?_, fun _ d hfollow => hmem d hfollow⟩
      refine ⟨fun h => absurd h (hmem inst hfollow), ?_⟩
      rintro ⟨i', hf', hr, hv⟩
      rw [hf] at hf'
      cases hf'
      simp [hr, hv] at hc
  · rw [hcom] at hcom'
    cases hcom'
    rw [hok]
    refine ⟨fun out h => ?_, fun phase' blamed detail h => (by cases h)⟩
    cases h
    have hlength : com.points.length = c.t.val :=
      length_sum _ com c.t.val (fun v hv => by
        obtain ⟨i, hi, rfl⟩ := List.mem_map.mp hv
        exact hlen i hi) hcom
    refine ⟨?_, rfl⟩
    rw [← hlength]
    exact degree_poly_lt _

/-! ### Three members that all deal `1 + X` -/

section Trio

open Secp256k1

def trioDealer (me : PartyId) : DkgInstance Scalar Point :=
  ⟨trio, [], [], me, ⟨[1, 1]⟩, fromPoly (⟨[1, 1]⟩ : ShamirPoly Scalar), none, false⟩

theorem trioDealer_honest (me : PartyId) : (trioDealer me).Honest trio [] [] :=
  ⟨rfl, rfl, rfl, rfl, rfl, rfl, rfl⟩

def trioR1 : PartyMap DkgBcast1 := collect (trio.ids.map fun i => (i, (trioDealer i).commitOf))

def trioR2 : PartyMap (DkgBcast2 Point) := collect (trio.ids.map fun i => (i, ⟨i, (trioDealer i).com⟩))

/-- Member 1's shares or defenses, with `third` from dealer 3. -/
def trioShares (third : Scalar) : PartyMap Scalar := collect [(1, 2), (2, 2), (3, third)]

theorem keyed_trio {ν : Type} (f : PartyId → ν) : Keyed trio (collect (trio.ids.map fun i => (i, f i))) := by
  intro i
  unfold collect
  rw [Std.ExtTreeMap.mem_ofList, List.map_map]
  simp

/-- Honest dealings: member 1 gets the value at 1 of the sum. -/
theorem finalize_sound_trio : ∃ com, FeldmanCommitment.sum (trio.ids.map (revealed trioR2)) = .ok com ∧
    (com.poly Scalar).degree < 2 ∧ (trioDealer 1).finalize .keyGen trioR1 trioR2 (trioShares 2) (trioShares 2) =
      .ok ⟨1, (com.poly Scalar).eval (scalarFrom 1), com⟩ := by
  obtain ⟨com, hcom, hsound⟩ := finalize_sound (F := Scalar) trio [] [] .keyGen trioR1 trioR2 (keyed_trio _) (keyed_trio _)
  have hkeyed : Keyed trio (trioShares 2) := keyed_trio fun _ => 2
  have hrun : (trioDealer 1).finalize .keyGen trioR1 trioR2 (trioShares 2) (trioShares 2) =
      .ok ⟨1, 6, ⟨[3, 3]⟩⟩ := by decide +kernel
  obtain ⟨hdeg, hout⟩ := (hsound (trioDealer 1) _ _ (trioDealer_honest 1) hkeyed hkeyed).1 _ hrun
  exact ⟨com, hcom, hdeg, by rw [hrun, hout]; rfl⟩

/-- Dealer 3 sends member 1 the share 0 and defends with the right one, 2: member 1,
whose every message is its own, is blamed. -/
theorem finalize_frames_accuser :
    (trioDealer 1).finalize .keyGen trioR1 trioR2 (trioShares 0) (trioShares 2) = .error (abort .keyGen [1]
      "false accusation: dealer 3's defense share verifies against its commitment") ∧
    Followed trio [] [] trioR1 trioR2 (trioShares 0) (trioShares 2) 1 (trioDealer 1) := by
  refine ⟨by decide +kernel, { toHonest := trioDealer_honest 1, commit := ?_, reveal := ?_, share := ?_, defense := ?_ }⟩
  all_goals decide +kernel

end Trio

end DkgInstance

end OhmEcdsa
