import OhmEcdsa.Core.DkgTotal
import OhmEcdsa.Node.Vss

/-!
# Key generation over the wire: its verdicts and its key (`party.rs`)

The complaint round looks the defense of the first complaint's dealer up by its id,
so the one content of the accepted sets without a verdict is a first complaint that
names no member:

    Decisive ids complaintView (complaintRound …).1 ↔ …      (complaintRound_decisive_iff)

Neither implementation of the DKG checks the sum it hands out: the key is the identity
exactly when every check passes and the revealed constant terms cancel
(`keygen_key_iff`).
-/

set_option linter.unusedSectionVars false

namespace OhmEcdsa

open FeldmanCommitment Hoare

variable {F G : Type} [Field F] [DecidableEq F] [AddCommGroup G] [Module F G] [DecidableEq G] [K256 F G]

/-! ## Specification -/

/-- Every member broadcast an empty complaint list. -/
def NoComplaint (ids : List PartyId) (complaintView : AcceptedSet F G) : Prop :=
  ∀ i ∈ ids, complaintView[i]? = some (.complaints [])

/-- A verdict for the accepted complaints: none to blame without a complaint, and
else an abort that blames members. -/
structure Decisive (ids : List PartyId) (complaintView : AcceptedSet F G) (out : Outcome Unit) : Prop where
  returns : Returns out
  ok_iff : out = .ok () ↔ NoComplaint ids complaintView
  blames : out ≠ .ok () → ∃ a, out = .error (.error (.abort a)) ∧ a.blamed ≠ [] ∧ ∀ p ∈ a.blamed, p ∈ ids

/-- The constant terms of revealed vectors, summed up. -/
def constantTerm (coms : List (FeldmanCommitment G)) : G := (coms.map fun com => com.points.headD 0).sum

/-- The public key `points[0]` of a share. -/
def publicKey (share : KeyShare F G) : Outcome G := nth share.com.points 0

/-- Every check of `finalize` passes. -/
def DkgInstance.Finalizes (inst : DkgInstance F G) (r1 : PartyMap DkgBcast1) (r2 : PartyMap (DkgBcast2 G))
    (shares defenses : PartyMap F) : Prop :=
  ¬ (r1.size ≠ inst.committee.n ∨ r2.size ≠ inst.committee.n ∨ shares.size ≠ inst.committee.n ∨
    defenses.size ≠ inst.committee.n) ∧ inst.firstFailing r1 r2 shares = none

/-- Every check of `joint_vss_run` passes, and no one complains. -/
def VssView.Finalizes (t : Usize) (sid tag : Bytes) (me : PartyId) (ids : List PartyId) (view : VssView F G) : Prop :=
  view.Dealt ids ∧ vssFault t sid tag me ids view = none ∧ Complete ids view.complaints ∧
    Complete ids view.defenses ∧ NoComplaint ids view.complaints

/-! ## Lemmas: the complaint round -/

theorem firstComplaint_none_iff (lists : List (PartyId × List PartyId)) :
    firstComplaint lists = none ↔ ∀ e ∈ lists, e.2 = [] := by
  unfold firstComplaint
  rw [List.findSome?_eq_none_iff]
  constructor
  · intro h e he
    exact List.min?_eq_none_iff.mp (Option.map_eq_none_iff.mp (h e he))
  · intro h e he
    rw [h e he]
    rfl

/-- Well formed and empty lists, in the parser's terms. -/
theorem noComplaint_iff {ids : List PartyId} {complaintView : AcceptedSet F G} (hK : Complete ids complaintView) :
    NoComplaint ids complaintView ↔ firstMalformed asComplaints (acceptedOver ids complaintView) = none ∧
      firstComplaint (complaintLists ids complaintView) = none := by
  constructor
  · intro h
    constructor
    · by_contra hm
      obtain ⟨f, hf⟩ := Option.ne_none_iff_exists'.mp hm
      obtain ⟨hmem, p, hp, hnone⟩ := firstMalformed_some hf
      rw [h f hmem] at hp
      cases hp
      cases hnone
    · rw [firstComplaint_none_iff]
      rintro ⟨a, list⟩ he
      obtain ⟨ha, hp⟩ := mem_complaintLists.mp he
      rw [h a ha] at hp
      cases hp
      rfl
  · rintro ⟨hm, hf⟩ i hi
    obtain ⟨p, hp⟩ := hK.getElem? hi
    obtain ⟨list, hlist⟩ := firstMalformed_none hm hi hp
    cases p with
    | complaints dealers =>
      have hempty := (firstComplaint_none_iff _).mp hf (i, dealers) (mem_complaintLists.mpr ⟨hi, hp⟩)
      rw [hp, show dealers = [] from hempty]
    | _ => cases hlist

/-- **How the complaint round ends** over complete sets. -/
theorem complaintVerdict_cases (phase : Phase) {ids : List PartyId}
    {defenseVerifies : PartyId → PartyId → F → Outcome Bool}
    (hv : ∀ d ∈ ids, ∀ a ∈ ids, ∃ verifies : F → Bool, ∀ s, defenseVerifies d a s = .ok (verifies s))
    {complaintView defenseView : AcceptedSet F G} (hK : Complete ids complaintView) (hD : Complete ids defenseView) :
    (∃ f ∈ ids, firstMalformed asComplaints (acceptedOver ids complaintView) = some f ∧
      ∃ detail, complaintVerdict phase ids defenseVerifies complaintView defenseView = .error (abort phase [f] detail)) ∨
    (firstMalformed asComplaints (acceptedOver ids complaintView) = none ∧
      ((firstComplaint (complaintLists ids complaintView) = none ∧
        complaintVerdict phase ids defenseVerifies complaintView defenseView = .ok ()) ∨
      ∃ a d, a ∈ ids ∧ firstComplaint (complaintLists ids complaintView) = some (a, d) ∧
        ((d ∉ ids ∧ ∃ msg, complaintVerdict phase ids defenseVerifies complaintView defenseView = .error (.panic msg)) ∨
        (d ∈ ids ∧ ∃ p ∈ ids, ∃ detail, complaintVerdict phase ids defenseVerifies complaintView defenseView =
          .error (abort phase [p] detail))))) := by
  unfold complaintVerdict
  rw [if_neg (not_not.mpr hK)]
  cases hm : firstMalformed asComplaints (acceptedOver ids complaintView) with
  | some f => exact Or.inl ⟨f, (firstMalformed_some hm).1, rfl, _, rfl⟩
  | none =>
    refine Or.inr ⟨rfl, ?_⟩
    simp only [if_neg (not_not.mpr hD)]
    rcases hf : firstComplaint (complaintLists ids complaintView) with _ | ⟨a, d⟩
    · refine Or.inl ⟨rfl, ?_⟩
      unfold adjudicate
      rw [hf]
    · obtain ⟨list, hlist, -⟩ := mem_of_firstComplaint hf
      have ha := (mem_complaintLists.mp hlist).1
      refine Or.inr ⟨a, d, ha, rfl, ?_⟩
      by_cases hd : d ∈ ids
      · obtain ⟨p, hp⟩ := hD.getElem? hd
        have hp' : (acceptedOver ids defenseView)[d]? = some p := by rw [acceptedOver_getElem?, if_pos hd, hp]
        obtain ⟨verifies, hverifies⟩ := hv d hd a ha
        obtain ⟨detail, hadj⟩ := adjudicate_eq phase defenseVerifies hf ⟨p, hp'⟩ verifies hverifies
        refine Or.inr ⟨hd, _, ?_, detail, hadj⟩
        split
        · exact ha
        · exact hd
      · refine Or.inl ⟨hd, "no entry found for key", ?_⟩
        unfold adjudicate index
        rw [hf]
        simp only [acceptedOver_getElem?, if_neg hd]
        rfl

/-- The check `joint_vss_run` hands to the round. -/
theorem VssChecked.verifies {t : Usize} {me : PartyId} {ids : List PartyId} {view : VssView F G}
    {r2 : PartyMap (DkgBcast2 G)} {mine : PartyMap F} {complaints : List PartyId}
    (h : VssChecked t me ids view r2 mine complaints) : ∀ d ∈ ids, ∀ a ∈ ids, ∃ verifies : F → Bool,
      ∀ s, (do let b2 ← index r2 d; return b2.com.verifyShare a s : Outcome Bool) = .ok (verifies s) := by
  intro d hd a _
  refine ⟨(revealedCom view.reveals d).verifyShare a, fun s => ?_⟩
  rw [index_some (h.reveal d hd)]
  rfl

/-! ## Top theorem: the complaint round -/

section ComplaintRound

variable (me : PartyId) (sid : Bytes) (phase : Phase) (rounds : Nat × Nat) (ids complaints : List PartyId)
  (defenseFor : PartyId → F) (defenseVerifies : PartyId → PartyId → F → Outcome Bool)
  (complaintView defenseView : AcceptedSet F G)

/-- **The complaint round reaches a verdict** exactly when its first complaint, if the
lists are well formed, names a member.  A dealer's defense of members is a check that
returns. -/
theorem complaintRound_decisive_iff
    (hv : ∀ d ∈ ids, ∀ a ∈ ids, ∃ verifies : F → Bool, ∀ s, defenseVerifies d a s = .ok (verifies s))
    (hK : Complete ids complaintView) (hD : Complete ids defenseView) (s : Driver F G) :
    Decisive ids complaintView (complaintRound me sid phase rounds ids complaints defenseFor defenseVerifies
        complaintView defenseView s).1 ↔
      firstMalformed asComplaints (acceptedOver ids complaintView) ≠ none ∨
      ∀ a d, firstComplaint (complaintLists ids complaintView) = some (a, d) → d ∈ ids := by
  obtain ⟨sent, hrun, -⟩ := complaintRound_run me sid phase rounds ids complaints defenseFor defenseVerifies
    complaintView defenseView s
  rw [hrun]
  have hnone := noComplaint_iff hK
  rcases complaintVerdict_cases phase hv hK hD with ⟨f, hf, hm, detail, he⟩ | ⟨hm, hrest⟩
  · rw [he]
    refine iff_of_true ⟨Fails.error (noPanic_error _), ?_, fun _ => ⟨_, rfl, by simp, by simpa using hf⟩⟩
      (Or.inl (by rw [hm]; simp))
    rw [hnone, hm]
    simp
  rw [hm] at hnone
  rcases hrest with ⟨hf, hok⟩ | ⟨a, d, ha, hf, ⟨hd, msg, he⟩ | ⟨hd, p, hp, detail, he⟩⟩
  · rw [hok]
    refine iff_of_true ⟨Fails.ok _, iff_of_true rfl (hnone.mpr ⟨rfl, hf⟩), fun h => (h rfl).elim⟩ (Or.inr ?_)
    rw [hf]
    exact nofun
  · rw [he]
    refine iff_of_false (fun h => h.returns _ rfl _ rfl) ?_
    rintro (h | h)
    · exact h hm
    · exact hd (h a d hf)
  · rw [he]
    refine iff_of_true ⟨Fails.error (noPanic_error _), ?_, fun _ => ⟨_, rfl, by simp, by simpa using hp⟩⟩ (Or.inr ?_)
    · rw [hnone, hf]
      simp
    · intro a' d' h
      rw [hf] at h
      cases h
      exact hd

end ComplaintRound

/-! ## Lemmas: the key -/

theorem constantTerm_add (com rhs : FeldmanCommitment G) :
    (com.add rhs).points.headD 0 = com.points.headD 0 + rhs.points.headD 0 := by
  obtain ⟨ps⟩ := com
  obtain ⟨qs⟩ := rhs
  unfold FeldmanCommitment.add
  cases ps with
  | nil => cases qs <;> simp
  | cons p ps =>
    cases qs with
    | nil => simp
    | cons q qs =>
      dsimp only
      split <;> simp [add_comm]

theorem constantTerm_foldl (coms : List (FeldmanCommitment G)) (acc : FeldmanCommitment G) :
    (coms.foldl FeldmanCommitment.add acc).points.headD 0 = acc.points.headD 0 + constantTerm coms := by
  unfold constantTerm
  induction coms generalizing acc with
  | nil => simp
  | cons com coms ih => rw [List.foldl_cons, ih, constantTerm_add, List.map_cons, List.sum_cons, add_assoc]

/-- The key of summed vectors of `t` points is the sum of their constant terms. -/
theorem nth_sum {coms : List (FeldmanCommitment G)} {com : FeldmanCommitment G} {t : Nat}
    (h : ∀ c ∈ coms, c.points.length = t) (ht : 1 ≤ t) (hsum : FeldmanCommitment.sum coms = .ok com) :
    nth com.points 0 = .ok (constantTerm coms) := by
  have hlen := length_sum coms com t h hsum
  have hhead : com.points.headD 0 = constantTerm coms := by
    cases coms with
    | nil => cases hsum
    | cons c cs =>
      simp only [FeldmanCommitment.sum, Except.ok.injEq] at hsum
      rw [← hsum, constantTerm_foldl]
      rfl
  obtain ⟨ps⟩ := com
  cases ps with
  | nil =>
    rw [List.length_nil] at hlen
    omega
  | cons p ps => exact congrArg Except.ok hhead

/-- A finalized share is the sum of what was revealed. -/
theorem DkgInstance.finalize_ok (inst : DkgInstance F G) (phase : Phase) (r1 : PartyMap DkgBcast1)
    (r2 : PartyMap (DkgBcast2 G)) (shares defenses : PartyMap F) :
    (inst.Finalizes r1 r2 shares defenses ∧ ∃ share, inst.finalize phase r1 r2 shares defenses = .ok share ∧
      publicKey share = .ok (constantTerm (inst.committee.ids.map (revealed r2)))) ∨
    (¬ inst.Finalizes r1 r2 shares defenses ∧ ∃ e, inst.finalize phase r1 r2 shares defenses = .error e) := by
  unfold finalize Finalizes
  by_cases hsize : r1.size ≠ inst.committee.n ∨ r2.size ≠ inst.committee.n ∨ shares.size ≠ inst.committee.n ∨
      defenses.size ≠ inst.committee.n
  · simp only [if_pos hsize]
    exact Or.inr ⟨fun h => h.1 hsize, _, rfl⟩
  simp only [if_neg hsize]
  have hgood : ∀ i ∈ inst.committee.ids, (!(revealConsistent F inst.committee.t inst.sid inst.tag r1 r2 i &&
      entryVerifies r2 shares inst.me i)) = false → (revealed r2 i).points.length = inst.committee.t.val ∧
        ∃ s, inst.checkDealer phase r1 r2 shares defenses i = .ok (s, revealed r2 i) :=
    fun i _ h => inst.checkDealer_good phase r1 r2 shares defenses i ((Bool.not_eq_false' _).mp h)
  rcases mapM_returns inst.committee.ids
      (fun i hi h => by
        obtain ⟨-, s, hok⟩ := hgood i hi h
        exact ⟨_, hok⟩)
      (fun i _ h => inst.checkDealer_bad phase r1 r2 shares defenses i ((Bool.not_eq_true' _).mp h)) with
    ⟨i, hf, e, hl, -⟩ | ⟨hf, checked, hl⟩
  · refine Or.inr ⟨fun h => ?_, e, by rw [hl]; rfl⟩
    have hnone := h.2
    unfold firstFailing at hnone
    rw [hf] at hnone
    cases hnone
  · have hpass : ∀ i ∈ inst.committee.ids, (revealed r2 i).points.length = inst.committee.t.val ∧
        ∃ s, inst.checkDealer phase r1 r2 shares defenses i = .ok (s, revealed r2 i) := fun i hi =>
      hgood i hi (by simpa using List.find?_eq_none.mp hf i hi)
    have hcoms : checked.map (·.2) = inst.committee.ids.map (revealed r2) := by
      refine (forall₂_map_eq (((List.forall₂_and_left _ _).mpr ⟨hpass, forall₂_of_mapM_ok _ _ hl⟩).imp ?_)).symm
      rintro i e ⟨⟨-, s, hs⟩, hok⟩
      rw [hs] at hok
      cases hok
      rfl
    have hne : checked.map (·.2) ≠ [] := List.map_eq_nil_iff.not.mpr (ne_nil_of_members hl)
    obtain ⟨com, hcom, -⟩ := sum_ok (F := F) _ hne
    rw [hl]
    simp only [bind, Except.bind, hcom]
    refine Or.inl ⟨⟨hsize, hf⟩, _, rfl, ?_⟩
    rw [hcoms] at hcom
    refine nth_sum (fun v hv => ?_) inst.committee.t_pos hcom
    obtain ⟨i, hi, rfl⟩ := List.mem_map.mp hv
    exact (hpass i hi).1

/-- A node's share is the sum of what it accepted as revealed. -/
theorem vssEnd_ok (c : Committee) (sid tag : Bytes) (phase : Phase) (me : PartyId) (view : VssView F G) :
    (view.Finalizes c.t sid tag me c.ids ∧ ∃ share, vssEnd c.t sid tag phase me c.ids view = .ok share ∧
      publicKey share = .ok (constantTerm (c.ids.map (revealedCom view.reveals)))) ∨
    (¬ view.Finalizes c.t sid tag me c.ids ∧ ∃ e, vssEnd c.t sid tag phase me c.ids view = .error e) := by
  unfold vssEnd VssView.Finalizes
  rcases vssChecks_cases c.t sid tag phase me c.ids view with
    ⟨hd, he⟩ | ⟨-, f, detail, hf, he⟩ | ⟨hd, hf, r2, mine, complaints, hok, hchecked⟩
  · exact Or.inr ⟨fun h => hd h.1, _, by rw [he]; rfl⟩
  · refine Or.inr ⟨fun h => ?_, _, by rw [he]; rfl⟩
    rw [hf] at h
    cases h.2.1
  · rw [hok]
    simp only [bind, Except.bind]
    rcases vssVerdict_cases phase c.ids_ne view.reveals view.complaints view.defenses with
      ⟨hK, he⟩ | ⟨hK, f, hm, he⟩ | ⟨hK, hm, ⟨hD, he⟩ | ⟨hD, a, d, hfirst, hrest⟩ | ⟨hD, hfirst, com, hcom⟩⟩
    · exact Or.inr ⟨fun h => hK h.2.2.1, _, by rw [he]⟩
    · refine Or.inr ⟨fun h => ?_, _, by rw [he]⟩
      have hnone := ((noComplaint_iff hK).mp h.2.2.2.2).1
      rw [hm] at hnone
      cases hnone
    · exact Or.inr ⟨fun h => hD h.2.2.2.1, _, by rw [he]⟩
    · refine Or.inr ⟨fun h => ?_, ?_⟩
      · have hnone := ((noComplaint_iff hK).mp h.2.2.2.2).2
        rw [hfirst] at hnone
        cases hnone
      · rcases hrest with ⟨-, msg, he⟩ | ⟨-, detail', he⟩ <;> exact ⟨_, by rw [he]⟩
    · have hsum : FeldmanCommitment.sum (c.ids.map (revealedCom view.reveals)) = .ok com := by
        have hok := hcom
        unfold vssVerdict at hok
        cases hc : complaintVerdict phase c.ids (fun d a s => .ok (revealVerifies view.reveals d a s)) view.complaints
            view.defenses with
        | error e =>
          rw [hc] at hok
          cases hok
        | ok _ =>
          rw [hc] at hok
          exact hok
      rw [hcom]
      refine Or.inl ⟨⟨hd, hf, hK, hD, (noComplaint_iff hK).mpr ⟨hm, hfirst⟩⟩, _, rfl, ?_⟩
      refine nth_sum (fun v hv => ?_) c.t_pos hsum
      obtain ⟨i, hi, rfl⟩ := List.mem_map.mp hv
      exact hchecked.length i hi

/-! ## Top theorem: the key -/

/-- **When a key is no identity**: in both implementations exactly when the session
fails or the revealed constant terms do not cancel. -/
theorem keygen_key_iff :
    (∀ (inst : DkgInstance F G) (phase : Phase) (r1 : PartyMap DkgBcast1) (r2 : PartyMap (DkgBcast2 G))
      (shares defenses : PartyMap F),
      (∀ share, inst.finalize phase r1 r2 shares defenses = .ok share → publicKey share ≠ .ok 0) ↔
        ¬ (inst.Finalizes r1 r2 shares defenses ∧
          constantTerm (inst.committee.ids.map (DkgInstance.revealed r2)) = 0)) ∧
    ∀ c : Committee, 2 * c.t.val ≤ c.ids.length + 1 → ∀ (me : PartyId) (sid tag : Bytes) (view : VssView F G)
      (rng : Rngs F), Enough 1 rng →
      ((∀ share, (jointVssRun me c.t sid tag .keyGen c.ids view ⟨rng, []⟩).1 = .ok share → publicKey share ≠ .ok 0) ↔
        ¬ (view.Finalizes c.t sid tag me c.ids ∧ constantTerm (c.ids.map (revealedCom view.reveals)) = 0)) := by
  have key : ∀ {P : Prop} {x : Outcome (KeyShare F G)} {g : G},
      (P ∧ ∃ share, x = .ok share ∧ publicKey share = .ok g) ∨ (¬ P ∧ ∃ e, x = .error e) →
        ((∀ share, x = .ok share → publicKey share ≠ .ok 0) ↔ ¬ (P ∧ g = 0)) := by
    rintro P x g (⟨hP, share, rfl, hkey⟩ | ⟨hP, e, rfl⟩)
    · constructor
      · rintro h ⟨-, rfl⟩
        exact h share rfl hkey
      · rintro h _ ⟨⟩ hzero
        rw [hkey] at hzero
        cases hzero
        exact h ⟨hP, rfl⟩
    · exact iff_of_true nofun fun h => hP h.1
  refine ⟨fun inst phase r1 r2 shares defenses => key (inst.finalize_ok phase r1 r2 shares defenses),
    fun c hmaj me sid tag view rng hrng => ?_⟩
  obtain ⟨-, -, -, hend, -⟩ := jointVssRun_run c hmaj me sid tag .keyGen view rng hrng
  rw [hend]
  exact key (vssEnd_ok c sid tag .keyGen me view)

/-! ### The trio: dealers 1 and 2 deal `1 + X`, dealer 3 deals `-2 + X` -/

section Trio

open Secp256k1

def cancelCom (i : PartyId) : FeldmanCommitment Point := if i = 3 then ⟨[-2, 1]⟩ else ⟨[1, 1]⟩

def cancelShare (i : PartyId) : Scalar := if i = 3 then -1 else 2

def cancelCommit (i : PartyId) : DkgBcast1 := ⟨i, hashCommitment Scalar [] [] i (cancelCom i)⟩

/-- What member 1 accepts where dealer `i` deals it `share i` of `com i`. -/
def dealtView (com : PartyId → FeldmanCommitment Point) (share : PartyId → Scalar) : VssView Scalar Point where
  commits := collect (trio.ids.map fun i => (i, .dkg (.commit ⟨i, hashCommitment Scalar [] [] i (com i)⟩)))
  reveals := collect (trio.ids.map fun i => (i, .dkg (.reveal ⟨i, com i⟩)))
  shares := collect (trio.ids.map fun i => (i, .dkg (.share ⟨i, 1, share i⟩)))
  complaints := collect (trio.ids.map fun i => (i, .complaints []))
  defenses := collect (trio.ids.map fun i => (i, .defenses []))

def cancelView : VssView Scalar Point := dealtView cancelCom cancelShare

/-- All three dealers deal `1 + X`. -/
def sumView : VssView Scalar Point := dealtView (fun _ => ⟨[1, 1]⟩) fun _ => 2

/-- The key of 1, 2 and their one corrupt member is the identity, in both implementations. -/
theorem keygen_identity :
    ¬ (∀ share, (DkgInstance.trioDealer 1).finalize .keyGen (collect (trio.ids.map fun i => (i, cancelCommit i)))
        (collect (trio.ids.map fun i => (i, ⟨i, cancelCom i⟩))) (collect (trio.ids.map fun i => (i, cancelShare i)))
        (collect (trio.ids.map fun i => (i, cancelShare i))) = .ok share → publicKey share ≠ .ok 0) ∧
    ¬ ∀ share, (jointVssRun 1 trio.t [] [] .keyGen trio.ids cancelView ⟨⟨[⟨1, fun _ => 1, 0⟩], []⟩, []⟩).1 = .ok share →
      publicKey share ≠ .ok 0 := by
  constructor
  · intro h
    refine h ⟨1, 3, ⟨[0, 3]⟩⟩ ?_ ?_ <;> decide +kernel
  · intro h
    refine h ⟨1, 3, ⟨[0, 3]⟩⟩ ?_ ?_ <;> decide +kernel

/-- The vectors of `cancelView` cancel; those of `sumView` do not, and its key is `3`. -/
theorem keygen_key_trio :
    (¬ (cancelView.Finalizes trio.t [] [] 1 trio.ids ∧ constantTerm (trio.ids.map (revealedCom cancelView.reveals)) = 0) ↔
      ∀ share, (jointVssRun 1 trio.t [] [] .keyGen trio.ids cancelView ⟨⟨[⟨1, fun _ => 1, 0⟩], []⟩, []⟩).1 = .ok share →
        publicKey share ≠ .ok 0) ∧
    (∃ share, (jointVssRun 1 trio.t [] [] .keyGen trio.ids sumView ⟨⟨[⟨1, fun _ => 1, 0⟩], []⟩, []⟩).1 = .ok share ∧
      publicKey share = .ok 3) ∧
    ∀ share, (jointVssRun 1 trio.t [] [] .keyGen trio.ids sumView ⟨⟨[⟨1, fun _ => 1, 0⟩], []⟩, []⟩).1 = .ok share →
      publicKey share ≠ .ok 0 := by
  refine ⟨?_, ⟨⟨1, 6, ⟨[3, 3]⟩⟩, by decide +kernel, rfl⟩, ?_⟩
  · exact (keygen_key_iff.2 trio (by decide) 1 [] [] cancelView ⟨[⟨1, fun _ => 1, 0⟩], []⟩ (le_refl 1)).symm
  · have hsum : constantTerm (trio.ids.map (revealedCom sumView.reveals)) ≠ (0 : Point) := by decide +kernel
    exact (keygen_key_iff.2 trio (by decide) 1 [] [] sumView ⟨[⟨1, fun _ => 1, 0⟩], []⟩ (le_refl 1)).mpr fun h => hsum h.2

/-- Member 1 complains about `d`. -/
def trioAccuses (d : PartyId) : AcceptedSet Scalar Point :=
  collect [(1, .complaints [d]), (2, .complaints []), (3, .complaints [])]

def silentDefenses : AcceptedSet Scalar Point := collect (trio.ids.map fun i => (i, .defenses []))

/-- How the round ends for member 2. -/
def trioVerdict (d : PartyId) : Outcome Unit :=
  (complaintRound 2 [] .keyGen (VSS_ROUND_COMPLAIN, VSS_ROUND_DEFEND) trio.ids [] (fun _ => 0)
    (fun d a s => .ok ((cancelCom d).verifyShare a s)) (trioAccuses d) silentDefenses ⟨⟨[], []⟩, []⟩).1

/-- A complaint about party 7, which is no member. -/
theorem complaintRound_undecided : ¬ Decisive trio.ids (trioAccuses 7) (trioVerdict 7) := by
  intro h
  refine h.returns (.panic "no entry found for key") ?_ _ rfl
  decide +kernel

/-- A complaint about member 3, which does not answer. -/
theorem complaintRound_decisive_trio : Decisive trio.ids (trioAccuses 3) (trioVerdict 3) := by
  refine (complaintRound_decisive_iff 2 [] .keyGen (VSS_ROUND_COMPLAIN, VSS_ROUND_DEFEND) trio.ids [] (fun _ => 0)
    (fun d a s => .ok ((cancelCom d).verifyShare a s)) _ _ (fun d _ a _ => ⟨_, fun _ => rfl⟩) ?_ ?_ _).mpr (Or.inr ?_)
  · decide +kernel
  · decide +kernel
  · have hfirst : firstComplaint (complaintLists trio.ids (trioAccuses 3)) = some (1, 3) := by decide +kernel
    intro a d h
    rw [hfirst] at h
    cases h
    decide

end Trio

end OhmEcdsa
