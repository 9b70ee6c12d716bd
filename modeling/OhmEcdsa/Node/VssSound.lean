import OhmEcdsa.Node.Keygen
import OhmEcdsa.Node.Slots

/-!
# What a returned dealing is worth (`party.rs`: `joint_vss_run`)

The deals of a session are whatever their senders chose, and a node complains of those
that fail its checks.  A node broadcasts one list in the complaint slot, so one whose own
list was accepted as sent, and which returns nevertheless, had nothing to complain of:

    OneEach log → view.Own log me sid phase →
      Within Driver.sent log (jointVssRun me …) (JointShare t me ids view.reveals)     (jointVssRun_within)
-/

set_option linter.unusedSectionVars false

namespace OhmEcdsa

open Hoare FeldmanCommitment Polynomial Interpolation Acceptor

variable {F G : Type} [Field F] [DecidableEq F] [AddCommGroup G] [Module F G] [DecidableEq G] [K256 F G]

/-! ## Specification -/

/-- What is accepted of `me` in a round is what `log` has. -/
def OwnRound (log : List (Envelope (NodePayload F G))) (me : PartyId) (sid : Bytes) (phase : Phase) (round : Nat)
    (set : AcceptedSet F G) : Prop :=
  ∀ p, set[me]? = some p → Envelope.broadcast sid phase round me p ∈ log

/-- `me`'s share of the sum of the revealed vectors, all of `t` points. -/
structure JointShare (t : Usize) (me : PartyId) (ids : List PartyId) (reveals : AcceptedSet F G)
    (key : KeyShare F G) : Prop where
  index : key.index = me
  points : ∀ i ∈ ids, (revealedCom reveals i).points.length = t.val
  com : FeldmanCommitment.sum (ids.map (revealedCom reveals)) = .ok key.com
  share : key.share = (key.com.poly F).eval (scalarFrom me)

namespace JointShare

variable {t : Usize} {me : PartyId} {ids : List PartyId} {reveals : AcceptedSet F G} {key : KeyShare F G}

theorem length (h : JointShare t me ids reveals key) : key.com.points.length = t.val :=
  length_sum _ _ _ (fun com hcom => by
    obtain ⟨i, hi, rfl⟩ := List.mem_map.mp hcom
    exact h.points i hi) h.com

theorem degree (h : JointShare t me ids reveals key) : (key.com.poly F).degree < t.val := by
  rw [← h.length]
  exact degree_poly_lt _

/-- The sharing is everyone's. -/
theorem com_eq (h : JointShare t me ids reveals key) {me' : PartyId} {key' : KeyShare F G}
    (h' : JointShare t me' ids reveals key') : key.com = key'.com := by
  have hcom := h.com
  rw [h'.com] at hcom
  exact (Except.ok.inj hcom).symm

end JointShare

/-! ## Lemmas: what is sent -/

/-- The verdict lets a session go on only without a complaint. -/
theorem noComplaint_of_verdict (phase : Phase) {ids : List PartyId}
    {defenseVerifies : PartyId → PartyId → F → Outcome Bool}
    (hv : ∀ d ∈ ids, ∀ a ∈ ids, ∃ verifies : F → Bool, ∀ s, defenseVerifies d a s = .ok (verifies s))
    {complaintView defenseView : AcceptedSet F G} {u : Unit}
    (h : complaintVerdict phase ids defenseVerifies complaintView defenseView = .ok u) :
    NoComplaint ids complaintView := by
  by_cases hK : Complete ids complaintView
  swap
  · unfold complaintVerdict at h
    rw [if_pos hK] at h
    cases h
  by_cases hD : Complete ids defenseView
  swap
  · unfold complaintVerdict at h
    rw [if_neg (not_not.mpr hK)] at h
    split at h
    · cases h
    · rw [if_pos hD] at h
      cases h
  rw [noComplaint_iff hK]
  rcases complaintVerdict_cases phase hv hK hD with ⟨f, -, -, detail, he⟩ | ⟨hm, hrest⟩
  · rw [he] at h
    cases h
  rcases hrest with ⟨hf, -⟩ | ⟨a, d, -, -, ⟨-, msg, he⟩ | ⟨-, p, -, detail, he⟩⟩
  · exact ⟨hm, hf⟩
  · rw [he] at h
    cases h
  · rw [he] at h
    cases h

section Within

variable {log : List (Envelope (NodePayload F G))} {me : PartyId} {ids : List PartyId} {α : Type} {Q : α → Prop}

theorem send_within (env : Envelope (NodePayload F G)) :
    Within Driver.sent log (send env : NodeM F G Unit) fun _ => env ∈ log := fun _ hs =>
  ⟨List.Subset.trans (List.subset_append_left _ _) hs,
    fun _ _ => hs (List.mem_append_right _ (List.mem_singleton_self env))⟩

theorem send_skip (env : Envelope (NodePayload F G)) :
    Within Driver.sent log (send env : NodeM F G Unit) fun _ => True := (send_within env).mono fun _ _ => trivial

theorem draw_within (m : RngM F α) : Within Driver.sent log (draw m : NodeM F G α) fun _ => True :=
  Within.of_silent fun _ => rfl

/-- **A complaint round that returns**: no one complained, and neither had this node. -/
theorem complaintRound_within (hone : OneEach log) (hme : me ∈ ids) (sid : Bytes) (phase : Phase) (rounds : Nat × Nat)
    (complaints : List PartyId) (defenseFor : PartyId → F)
    {defenseVerifies : PartyId → PartyId → F → Outcome Bool}
    (hv : ∀ d ∈ ids, ∀ a ∈ ids, ∃ verifies : F → Bool, ∀ s, defenseVerifies d a s = .ok (verifies s))
    (complaintView defenseView : AcceptedSet F G) (hown : OwnRound log me sid phase rounds.1 complaintView) :
    Within Driver.sent log (complaintRound me sid phase rounds ids complaints defenseFor defenseVerifies complaintView
      defenseView) fun _ => complaints = [] ∧ NoComplaint ids complaintView := by
  have hsent : Within Driver.sent log (complaintRound me sid phase rounds ids complaints defenseFor defenseVerifies
      complaintView defenseView) fun _ => Envelope.broadcast sid phase rounds.1 me (.complaints complaints) ∈ log := by
    unfold complaintRound
    refine (send_within _).bind fun _ => Within.ite (fun _ => Within.throw _) fun _ => ?_
    refine Within.lift_bind fun lists _ => (send_skip _).skip fun _ => ?_
    exact Within.ite (fun _ => Within.throw _) fun _ => Within.lift fun _ _ henv => henv
  intro s hlog
  obtain ⟨hs, hrun⟩ := hsent s hlog
  refine ⟨hs, fun a ha => ?_⟩
  have henv := hrun a ha
  obtain ⟨sent, heq, -⟩ := complaintRound_run me sid phase rounds ids complaints defenseFor defenseVerifies
    complaintView defenseView s
  rw [heq] at ha
  have hno : NoComplaint ids complaintView := noComplaint_of_verdict phase hv ha
  exact ⟨NodePayload.complaints.inj (hone sid phase rounds.1 me _ _ henv (hown _ (hno me hme))), hno⟩

end Within

/-! ## Main result -/

/-- **A returned dealing is a share of one sharing**, of whatever was revealed. -/
theorem jointVssRun_within {log : List (Envelope (NodePayload F G))} (hone : OneEach log) {me : PartyId}
    {ids : List PartyId} (hme : me ∈ ids) (t : Usize) (sid tag : Bytes) (phase : Phase) {view : VssView F G}
    (hown : OwnRound log me sid phase VSS_ROUND_COMPLAIN view.complaints) :
    Within Driver.sent log (jointVssRun me t sid tag phase ids view) (JointShare t me ids view.reveals) := by
  unfold jointVssRun
  refine Within.lift_bind fun committee _ => (draw_within _).skip ?_
  rintro ⟨inst, b1⟩
  refine (send_skip _).skip fun _ => Within.lift_bind ?_
  rintro ⟨b2, shares⟩ -
  refine (send_skip _).skip fun _ => (Within.forM shares fun s _ => send_skip _).skip fun _ => Within.lift_bind ?_
  rintro ⟨r2, mine, complaints⟩ hchecks
  rcases vssChecks_cases t sid tag phase me ids view with
    ⟨-, he⟩ | ⟨-, f, detail, -, he⟩ | ⟨-, -, r2', mine', complaints', hok, hchecked⟩
  · rw [he] at hchecks
    cases hchecks
  · rw [he] at hchecks
    cases hchecks
  rw [hok] at hchecks
  cases hchecks
  refine (complaintRound_within hone hme sid phase (VSS_ROUND_COMPLAIN, VSS_ROUND_DEFEND) complaints inst.defend
    hchecked.verifies view.complaints view.defenses hown).bind fun _ => Within.lift fun key hkey => ?_
  rintro ⟨rfl, -⟩
  rw [vssOutput_eq hchecked] at hkey
  cases hsum : FeldmanCommitment.sum (ids.map (revealedCom view.reveals)) with
  | error e =>
    rw [hsum] at hkey
    cases hkey
  | ok com =>
    rw [hsum] at hkey
    obtain rfl := Except.ok.inj hkey
    refine ⟨rfl, hchecked.length, hsum, ?_⟩
    have hverify : ∀ i ∈ ids, (mine[i]?).getD 0 = ((revealedCom view.reveals i).poly F).eval (scalarFrom me) := by
      intro i hi
      obtain ⟨s, -, hs⟩ := hchecked.share i hi
      have hgood := List.filter_eq_nil_iff.mp hchecked.complaints_eq.symm i hi
      rw [hs, Option.any_some] at hgood
      rw [hs, Option.getD_some]
      exact ((verifyShare_iff _ _ _).mp (by simpa using hgood)).symm
    obtain ⟨com', hok', hpoly⟩ := sum_ok (F := F) (ids.map (revealedCom view.reveals))
      (by simpa using List.ne_nil_of_mem hme)
    rw [hsum] at hok'
    obtain rfl := Except.ok.inj hok'
    rw [List.map_congr_left hverify, hpoly, List.map_map, eval_listSum, List.map_map]
    rfl

end OhmEcdsa
