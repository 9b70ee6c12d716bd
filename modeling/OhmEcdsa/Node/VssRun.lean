import OhmEcdsa.Core.Secp256k1
import OhmEcdsa.Node.Vss

/-!
# Runs of the wire DKG among honest and corrupt members

The honest members run `joint_vss_run` over the same accepted broadcasts; what
they accept from one another is what was sent; everything else is arbitrary.
-/

set_option linter.unusedSectionVars false

namespace OhmEcdsa

open Hoare FeldmanCommitment

variable {F G : Type} [Field F] [DecidableEq F] [AddCommGroup G] [Module F G] [DecidableEq G] [K256 F G]

/-- One session: who is honest, and what is accepted in its rounds. -/
structure VssSession (F G : Type) where
  c : Committee
  sid : Bytes
  tag : Bytes
  phase : Phase
  honest : List PartyId
  rng : PartyId → Rngs F
  commits : AcceptedSet F G
  reveals : AcceptedSet F G
  shares : PartyId → AcceptedSet F G
  complaints : AcceptedSet F G
  defenses : AcceptedSet F G

namespace VssSession

variable (run : VssSession F G)

/-- What member `h` accepts: the common broadcasts and its own P2P shares. -/
def view (h : PartyId) : VssView F G :=
  ⟨run.commits, run.reveals, run.shares h, run.complaints, run.defenses⟩

def node (h : PartyId) : Except Fault (KeyShare F G) × Driver F G :=
  jointVssRun h run.c.t run.sid run.tag run.phase run.c.ids (run.view h) ⟨run.rng h, []⟩

def outcome (h : PartyId) : Outcome (KeyShare F G) := (run.node h).1

def sent (h : PartyId) : List (Envelope (NodePayload F G)) := (run.node h).2.sent

/-- A broadcast accepted from `h` in `round` is one that `h` sent. -/
def Authentic (h : PartyId) (round : Nat) (set : AcceptedSet F G) : Prop :=
  ∀ p, set[h]? = some p → Envelope.broadcast run.sid run.phase round h p ∈ run.sent h

end VssSession

/-- A session of at most `t - 1` corrupt members over authenticated channels. -/
structure VssRun (F G : Type) [Field F] [DecidableEq F] [AddCommGroup G] [Module F G] [DecidableEq G]
    [K256 F G] extends VssSession F G where
  majority : 2 * c.t.val ≤ c.ids.length + 1
  honest_sub : honest ⊆ c.ids
  honest_nodup : honest.Nodup
  few_corrupt : c.ids.length < honest.length + c.t.val
  rng_enough : ∀ h, Enough 1 (rng h)
  commits_sent : ∀ h ∈ honest, toVssSession.Authentic h VSS_ROUND_COMMIT commits
  reveals_sent : ∀ h ∈ honest, toVssSession.Authentic h VSS_ROUND_REVEAL reveals
  complaints_sent : ∀ h ∈ honest, toVssSession.Authentic h VSS_ROUND_COMPLAIN complaints
  defenses_sent : ∀ h ∈ honest, toVssSession.Authentic h VSS_ROUND_DEFEND defenses
  shares_sent : ∀ h ∈ honest, ∀ j ∈ honest, ∀ p, (shares j)[h]? = some p →
    Envelope.p2p sid phase VSS_ROUND_REVEAL h j p ∈ toVssSession.sent h

namespace VssRun

variable (run : VssRun F G)

/-! ## Lemmas: honest members -/

/-- What is accepted from an honest member `h`. -/
structure HonestMember (h : PartyId) (inst : DkgInstance F G) : Prop extends inst.Honest run.c run.sid run.tag where
  me_eq : inst.me = h
  outcome_eq : run.outcome h = vssEnd run.c.t run.sid run.tag run.phase h run.c.ids (run.view h)
  commit : ∀ p, run.commits[h]? = some p → p = .dkg (.commit inst.commitOf)
  reveal : ∀ p, run.reveals[h]? = some p → p = .dkg (.reveal ⟨h, inst.com⟩)
  share : ∀ j ∈ run.honest, ∀ p, (run.shares j)[h]? = some p → p = .dkg (.share ⟨h, j, inst.shareFor j⟩)
  complaint : ∀ p, run.complaints[h]? = some p → ∃ r2 mine complaints,
    vssChecks run.c.t run.sid run.tag run.phase h run.c.ids (run.view h) = .ok (r2, mine, complaints) ∧
      p = .complaints complaints
  defense : ∀ p, run.defenses[h]? = some p → p = .defenses (answers h run.c.ids inst.defend run.complaints)

theorem honest_member {h : PartyId} (hh : h ∈ run.honest) : ∃ inst, run.HonestMember h inst := by
  obtain ⟨inst, hinst, hme, hout, hsent⟩ := jointVssRun_run run.c run.majority h run.sid run.tag run.phase
    (run.view h) (run.rng h) (run.rng_enough h)
  subst hme
  have hcast : ∀ round p, Envelope.broadcast run.sid run.phase round inst.me p ∈ run.sent inst.me →
      (round = VSS_ROUND_COMMIT ∧ p = .dkg (.commit inst.commitOf)) ∨
      (round = VSS_ROUND_REVEAL ∧ p = .dkg (.reveal ⟨inst.me, inst.com⟩)) ∨
      (round = VSS_ROUND_COMPLAIN ∧ ∃ r2 mine complaints, vssChecks run.c.t run.sid run.tag run.phase inst.me
        run.c.ids (run.view inst.me) = .ok (r2, mine, complaints) ∧ p = .complaints complaints) ∨
      (round = VSS_ROUND_DEFEND ∧ p = .defenses (answers inst.me run.c.ids inst.defend run.complaints)) := by
    intro round p hp
    unfold DealtBy AnsweredBy at hsent
    rw [hinst.sid, hinst.tag] at hsent
    rcases hsent _ hp with (he | he | ⟨j, he⟩) | ⟨r2, mine, complaints, hok, he | ⟨-, -, he⟩⟩
    · exact Or.inl (Envelope.broadcast_eq.mp he)
    · exact Or.inr (Or.inl (Envelope.broadcast_eq.mp he))
    · exact absurd he Envelope.broadcast_ne_p2p
    · obtain ⟨hr, rfl⟩ := Envelope.broadcast_eq.mp he
      exact Or.inr (Or.inr (Or.inl ⟨hr, r2, mine, complaints, hok, rfl⟩))
    · exact Or.inr (Or.inr (Or.inr (Envelope.broadcast_eq.mp he)))
  refine ⟨inst, ⟨hinst, rfl, hout, ?_, ?_, ?_, ?_, ?_⟩⟩
  · intro p hp
    simpa [VSS_ROUND_COMMIT, VSS_ROUND_REVEAL, VSS_ROUND_COMPLAIN, VSS_ROUND_DEFEND] using
      hcast _ p (run.commits_sent _ hh p hp)
  · intro p hp
    simpa [VSS_ROUND_COMMIT, VSS_ROUND_REVEAL, VSS_ROUND_COMPLAIN, VSS_ROUND_DEFEND] using
      hcast _ p (run.reveals_sent _ hh p hp)
  · intro j hj p hp
    unfold DealtBy AnsweredBy at hsent
    rw [hinst.sid, hinst.tag] at hsent
    rcases hsent _ (run.shares_sent _ hh j hj p hp) with
      (he | he | ⟨j', he⟩) | ⟨r2, mine, complaints, hok, he | ⟨-, -, he⟩⟩
    · exact absurd he.symm Envelope.broadcast_ne_p2p
    · exact absurd he.symm Envelope.broadcast_ne_p2p
    · obtain ⟨-, rfl, rfl⟩ := Envelope.p2p_eq.mp he
      rfl
    · exact absurd he.symm Envelope.broadcast_ne_p2p
    · exact absurd he.symm Envelope.broadcast_ne_p2p
  · intro p hp
    simpa [VSS_ROUND_COMMIT, VSS_ROUND_REVEAL, VSS_ROUND_COMPLAIN, VSS_ROUND_DEFEND] using
      hcast _ p (run.complaints_sent _ hh p hp)
  · intro p hp
    simpa [VSS_ROUND_COMMIT, VSS_ROUND_REVEAL, VSS_ROUND_COMPLAIN, VSS_ROUND_DEFEND] using
      hcast _ p (run.defenses_sent _ hh p hp)

theorem HonestMember.revealedCom_eq {h : PartyId} {inst : DkgInstance F G} (hi : run.HonestMember h inst)
    {p : NodePayload F G} (hp : run.reveals[h]? = some p) : revealedCom run.reveals h = inst.com := by
  unfold revealedCom
  rw [hp, hi.reveal p hp]

/-- **No check of an honest member blames an honest member.** -/
theorem vssFault_corrupt {h f : PartyId} (hh : h ∈ run.honest) (hd : (run.view h).Dealt run.c.ids)
    (hf : vssFault run.c.t run.sid run.tag h run.c.ids (run.view h) = some f) : f ∉ run.honest := by
  intro hfh
  obtain ⟨inst, hi⟩ := run.honest_member hfh
  have hme := hi.me_eq
  unfold vssFault at hf
  rcases hc : firstMalformed asCommit (acceptedOver run.c.ids (run.view h).commits) with _ | g <;> rw [hc] at hf
  · rw [Option.none_or] at hf
    rcases hr : firstMalformed asReveal (acceptedOver run.c.ids (run.view h).reveals) with _ | g <;> rw [hr] at hf
    · rw [Option.none_or] at hf
      rcases hs : firstMalformed (asShare h) (acceptedOver run.c.ids (run.view h).shares) with _ | g <;> rw [hs] at hf
      · rw [Option.none_or] at hf
        obtain ⟨p, hp⟩ := hd.1.getElem? (run.honest_sub hfh)
        obtain ⟨q, hq⟩ := hd.2.1.getElem? (run.honest_sub hfh)
        have hcom : revealedCom (run.view h).reveals f = inst.com := hi.revealedCom_eq run hq
        have hbad := List.find?_some hf
        unfold badReveal at hbad
        rw [hp, hi.commit p hp, hcom] at hbad
        simp only [hi.length_com, DkgInstance.commitOf, hi.sid, hi.tag, hme, ne_eq, not_true_eq_false, or_self,
          decide_false, Bool.false_eq_true] at hbad
      · obtain rfl := Option.some.inj hf
        obtain ⟨-, p, hp, hnone⟩ := firstMalformed_some hs
        rw [hi.share h hh p hp] at hnone
        simp [asShare] at hnone
    · obtain rfl := Option.some.inj hf
      obtain ⟨-, p, hp, hnone⟩ := firstMalformed_some hr
      rw [hi.reveal p hp] at hnone
      simp [asReveal] at hnone
  · obtain rfl := Option.some.inj hf
    obtain ⟨-, p, hp, hnone⟩ := firstMalformed_some hc
    rw [hi.commit p hp] at hnone
    simp [asCommit, DkgInstance.commitOf, hme] at hnone

/-- An honest dealer's published defense against any accuser verifies. -/
theorem honest_defense {d a : PartyId} (hd : d ∈ run.honest) (hR : Complete run.c.ids run.reveals)
    (hD : Complete run.c.ids run.defenses) {list : List PartyId}
    (ha : (a, list) ∈ complaintLists run.c.ids run.complaints) (hmem : d ∈ list) :
    (defenseAgainst (acceptedOver run.c.ids run.defenses) d a).any (revealVerifies run.reveals d a) = true := by
  obtain ⟨inst, hi⟩ := run.honest_member hd
  obtain ⟨p, hp⟩ := hD.getElem? (run.honest_sub hd)
  obtain ⟨q, hq⟩ := hR.getElem? (run.honest_sub hd)
  unfold defenseAgainst revealVerifies
  rw [acceptedOver_getElem?, if_pos (run.honest_sub hd), hp, hi.defense p hp, hi.revealedCom_eq run hq]
  simp only
  have hentry : (a, inst.defend a) ∈ answers d run.c.ids inst.defend run.complaints :=
    List.mem_map.mpr ⟨(a, list), List.mem_filter.mpr ⟨ha, by simpa using hmem⟩, rfl⟩
  obtain ⟨e, he⟩ := Option.isSome_iff_exists.mp
    (List.find?_isSome.mpr ⟨_, hentry, by simp⟩ : ((answers d run.c.ids inst.defend run.complaints).find?
      (·.1 == a)).isSome)
  have hkey : e.1 = a := by simpa using List.find?_some he
  obtain ⟨x, -, rfl⟩ := List.mem_map.mp (List.mem_of_find?_eq_some he)
  simp only at hkey
  subst hkey
  rw [he]
  simp only [Option.map_some, Option.any_some]
  rw [verifyShare_iff, hi.poly_com]
  exact (hi.shareFor x.1).symm

/-- A member's run by its checks: without their values it fails closed, a fault
blames one party, and otherwise the run ends as the public part does. -/
theorem outcome_cases {h : PartyId} (hh : h ∈ run.honest) :
    (¬ (run.view h).Dealt run.c.ids ∧ run.outcome h = .error incomplete) ∨
    ((run.view h).Dealt run.c.ids ∧ ∃ f detail,
      vssFault run.c.t run.sid run.tag h run.c.ids (run.view h) = some f ∧
      run.outcome h = .error (abort run.phase [f] detail)) ∨
    ((run.view h).Dealt run.c.ids ∧ vssFault run.c.t run.sid run.tag h run.c.ids (run.view h) = none ∧
      ∃ share, run.outcome h = do
        let com ← vssVerdict run.phase run.c.ids run.reveals run.complaints run.defenses
        return ⟨h, share, com⟩) := by
  obtain ⟨inst, hi⟩ := run.honest_member hh
  rw [hi.outcome_eq]
  unfold vssEnd
  rcases vssChecks_cases run.c.t run.sid run.tag run.phase h run.c.ids (run.view h) with
    ⟨hd, he⟩ | ⟨hd, f, detail, hf, he⟩ | ⟨hd, hf, r2, mine, complaints, hok, -⟩
  · exact Or.inl ⟨hd, by rw [he]; rfl⟩
  · exact Or.inr (Or.inl ⟨hd, f, detail, hf, by rw [he]; rfl⟩)
  · exact Or.inr (Or.inr ⟨hd, hf, _, by rw [hok]; rfl⟩)

/-- A member whose complaint list was accepted has passed its checks. -/
theorem complained_checked {h : PartyId} (hh : h ∈ run.honest) {p : NodePayload F G}
    (hp : run.complaints[h]? = some p) : (run.view h).Dealt run.c.ids ∧
      vssFault run.c.t run.sid run.tag h run.c.ids (run.view h) = none ∧ ∃ list, p = .complaints list := by
  obtain ⟨inst, hi⟩ := run.honest_member hh
  obtain ⟨r2, mine, complaints, hok, rfl⟩ := hi.complaint p hp
  rcases vssChecks_cases run.c.t run.sid run.tag run.phase h run.c.ids (run.view h) with
    ⟨-, he⟩ | ⟨-, f, detail, -, he⟩ | ⟨hd, hf, -⟩
  · rw [he] at hok; cases hok
  · rw [he] at hok; cases hok
  · exact ⟨hd, hf, complaints, rfl⟩

/-! ## Top theorems: blame -/

/-- No honest member's run blames an honest member. -/
def NoFraming : Prop :=
  ∀ h ∈ run.honest, ∀ phase blamed detail, run.outcome h = .error (abort phase blamed detail) →
    ∀ b ∈ blamed, b ∉ run.honest

/-- The complaint and defense broadcasts are complete, the complaints well formed,
and the first complaint is an honest member's against a dealer whose defense
verifies against its reveal. -/
def AnsweredHonestComplaint : Prop :=
  Complete run.c.ids run.complaints ∧ firstMalformed asComplaints (acceptedOver run.c.ids run.complaints) = none ∧
  Complete run.c.ids run.defenses ∧ ∃ a ∈ run.honest, ∃ d,
    firstComplaint (complaintLists run.c.ids run.complaints) = some (a, d) ∧
    (defenseAgainst (acceptedOver run.c.ids run.defenses) d a).any (revealVerifies run.reveals d a) = true

/-- **Framing happens exactly through a verifying defense**: an honest member
that truthfully complains first is blamed if and only if the dealer publishes
a share that verifies. -/
theorem vss_no_framing_iff : run.NoFraming ↔ ¬ run.AnsweredHonestComplaint := by
  constructor
  · rintro hno ⟨hK, hm, hD, a, ha, d, hf, hany⟩
    obtain ⟨list, hlist, hd⟩ := mem_of_firstComplaint hf
    obtain ⟨-, hp⟩ := mem_complaintLists.mp hlist
    obtain ⟨hdealt, hnone, -⟩ := run.complained_checked ha hp
    have hdm : d ∈ run.c.ids := by
      by_contra hd
      unfold defenseAgainst at hany
      rw [acceptedOver_getElem?, if_neg hd] at hany
      cases hany
    rcases run.outcome_cases ha with ⟨hn, -⟩ | ⟨-, f, detail, hf', -⟩ | ⟨-, -, share, hout⟩
    · exact hn hdealt
    · rw [hnone] at hf'; cases hf'
    · rcases vssVerdict_cases (F := F) run.phase run.c.ids_ne run.reveals run.complaints run.defenses with
        ⟨h, -⟩ | ⟨-, f, hmf, -⟩ | ⟨-, -, ⟨h, -⟩ | ⟨-, a', d', hf', ⟨h, -⟩ | ⟨-, detail, hv⟩⟩ | ⟨-, hf', -⟩⟩
      · exact h hK
      · rw [hm] at hmf; cases hmf
      · exact h hD
      · rw [hf] at hf'; cases hf'; exact h hdm
      · rw [hf] at hf'; cases hf'
        rw [hv, if_pos hany] at hout
        exact hno a ha _ _ _ hout a List.mem_cons_self ha
      · rw [hf] at hf'; cases hf'
  · intro hno h hh phase blamed detail hout b hb hbh
    rcases run.outcome_cases hh with ⟨-, ho⟩ | ⟨hd, f, detail', hf, ho⟩ | ⟨hd, -, share, ho⟩
    · rw [ho] at hout; cases hout
    · rw [ho] at hout
      cases hout
      rw [List.mem_singleton.mp hb] at hbh
      exact run.vssFault_corrupt hh hd hf hbh
    · rcases vssVerdict_cases (F := F) run.phase run.c.ids_ne run.reveals run.complaints run.defenses with
        ⟨-, hv⟩ | ⟨-, f, hmf, hv⟩ | ⟨hK, hm, ⟨-, hv⟩ | ⟨hD, a, d, hf, ⟨-, msg, hv⟩ | ⟨-, detail', hv⟩⟩ | ⟨-, -, com, hv⟩⟩ <;>
        rw [ho, hv] at hout
      · cases hout
      · cases hout
        rw [List.mem_singleton.mp hb] at hbh
        obtain ⟨-, p, hp, hnone⟩ := firstMalformed_some hmf
        obtain ⟨-, -, list, rfl⟩ := run.complained_checked hbh hp
        cases hnone
      · cases hout
      · cases hout
      · cases hout
        obtain ⟨list, hlist, hdl⟩ := mem_of_firstComplaint hf
        rw [List.mem_singleton.mp hb] at hbh
        by_cases hany : (defenseAgainst (acceptedOver run.c.ids run.defenses) d a).any
            (revealVerifies run.reveals d a) = true
        · rw [if_pos hany] at hbh
          exact hno ⟨hK, hm, hD, a, hbh, d, hf, hany⟩
        · rw [if_neg hany] at hbh
          exact hany (run.honest_defense hbh hd.2.1 hD hlist hdl)
      · cases hout

/-! ## Top theorems: agreement -/

/-- Every honest member returns `Ok` with one commitment, or every one aborts with
one blamed set and, if it restarts, does so over one committee. -/
def SameVerdict : Prop :=
  (∃ com, ∀ h ∈ run.honest, ∃ share, run.outcome h = .ok ⟨h, share, com⟩) ∨
  ∃ blamed survivors, ∀ h ∈ run.honest, ∃ a : IdentifiableAbort,
    run.outcome h = .error (.error (.abort a)) ∧ a.blamed = blamed ∧
    ∀ blamedAll next, (restartStep h run.c.t run.c.ids blamedAll a).2 = .ok (some next) → next = survivors

/-- The complaint broadcasts are complete, and one is malformed or the defense
broadcasts are complete and no first complaint is against an outsider. -/
def Adjudicable : Prop :=
  Complete run.c.ids run.complaints ∧
  (firstMalformed asComplaints (acceptedOver run.c.ids run.complaints) ≠ none ∨
    Complete run.c.ids run.defenses ∧
    ∀ a d, firstComplaint (complaintLists run.c.ids run.complaints) = some (a, d) → d ∈ run.c.ids)

/-- Every honest member has a value of every member in the dealing rounds, and
either all their checks blame one and the same party, or none blames anyone
and the complaint rounds can be adjudicated. -/
def AgreeableViews : Prop :=
  (∀ h ∈ run.honest, (run.view h).Dealt run.c.ids) ∧
  ((∃ f, ∀ h ∈ run.honest, vssFault run.c.t run.sid run.tag h run.c.ids (run.view h) = some f) ∨
    (∀ h ∈ run.honest, vssFault run.c.t run.sid run.tag h run.c.ids (run.view h) = none) ∧ run.Adjudicable)

theorem adjudicable_iff : run.Adjudicable ↔
    (∃ com, vssVerdict (F := F) run.phase run.c.ids run.reveals run.complaints run.defenses = .ok com) ∨
    ∃ a, vssVerdict (F := F) run.phase run.c.ids run.reveals run.complaints run.defenses =
      .error (.error (.abort a)) := by
  unfold Adjudicable
  rcases vssVerdict_cases (F := F) run.phase run.c.ids_ne run.reveals run.complaints run.defenses with
    ⟨hK, hv⟩ | ⟨hK, f, hmf, hv⟩ | ⟨hK, hm, ⟨hD, hv⟩ | ⟨hD, a, d, hf, ⟨hd, msg, hv⟩ | ⟨hd, detail, hv⟩⟩ |
      ⟨hD, hf, com, hv⟩⟩ <;> rw [hv]
  · refine ⟨fun h => absurd h.1 hK, ?_⟩
    rintro (⟨com, h⟩ | ⟨a, h⟩) <;> cases h
  · exact ⟨fun _ => Or.inr ⟨_, rfl⟩, fun _ => ⟨hK, Or.inl (by rw [hmf]; exact Option.some_ne_none f)⟩⟩
  · refine ⟨fun h => absurd (h.2.resolve_left (not_not.mpr hm)).1 hD, ?_⟩
    rintro (⟨com, h⟩ | ⟨a, h⟩) <;> cases h
  · refine ⟨fun h => absurd ((h.2.resolve_left (not_not.mpr hm)).2 a d hf) hd, ?_⟩
    rintro (⟨com, h⟩ | ⟨a, h⟩) <;> cases h
  · refine ⟨fun _ => Or.inr ⟨_, rfl⟩, fun _ => ⟨hK, Or.inr ⟨hD, fun a' d' h => ?_⟩⟩⟩
    rw [hf] at h
    cases h
    exact hd
  · refine ⟨fun _ => Or.inl ⟨com, rfl⟩, fun _ => ⟨hK, Or.inr ⟨hD, fun a' d' h => ?_⟩⟩⟩
    rw [hf] at h
    cases h

/-- Aborts that blame alike are one verdict. -/
theorem sameVerdict_of_abort (blamed : List PartyId)
    (h : ∀ j ∈ run.honest, ∃ a, run.outcome j = .error (.error (.abort a)) ∧ a.blamed = blamed) :
    run.SameVerdict := by
  refine Or.inr ⟨blamed, ((restartCommittee run.c.ids blamed run.c.t).toOption).getD [], fun j hj => ?_⟩
  obtain ⟨a, hout, rfl⟩ := h j hj
  refine ⟨a, hout, rfl, fun blamedAll next hnext => ?_⟩
  rw [(restartStep_some hnext).1]
  rfl

theorem exists_honest : ∃ h, h ∈ run.honest := by
  have h₁ := run.majority
  have h₂ := run.few_corrupt
  have h₃ := run.c.t_pos
  exact List.exists_mem_of_length_pos (by omega)

/-- **The exact agreement of the wire DKG**, whatever is received privately. -/
theorem vss_same_verdict_iff : run.SameVerdict ↔ run.AgreeableViews := by
  obtain ⟨h₀, hh₀⟩ := run.exists_honest
  constructor
  · rintro (⟨com, hok⟩ | ⟨blamed, survivors, hab⟩)
    · have hall : ∀ h ∈ run.honest, (run.view h).Dealt run.c.ids ∧
          vssFault run.c.t run.sid run.tag h run.c.ids (run.view h) = none ∧ run.Adjudicable := by
        intro h hh
        obtain ⟨share, ho⟩ := hok h hh
        rcases run.outcome_cases hh with ⟨-, he⟩ | ⟨-, f, detail, -, he⟩ | ⟨hd, hf, share', he⟩
        · rw [ho] at he; cases he
        · rw [ho] at he; cases he
        · refine ⟨hd, hf, run.adjudicable_iff.mpr (Or.inl ?_)⟩
          rw [ho] at he
          cases hv : vssVerdict (F := F) run.phase run.c.ids run.reveals run.complaints run.defenses with
          | error e => rw [hv] at he; cases he
          | ok com => exact ⟨com, rfl⟩
      exact ⟨fun h hh => (hall h hh).1, Or.inr ⟨fun h hh => (hall h hh).2.1, (hall h₀ hh₀).2.2⟩⟩
    · -- a member whose checks pass aborts over complete complaints: then no member's checks failed
      have hall : ∀ h ∈ run.honest, (run.view h).Dealt run.c.ids ∧
          ((∃ f, vssFault run.c.t run.sid run.tag h run.c.ids (run.view h) = some f ∧ blamed = [f]) ∨
            vssFault run.c.t run.sid run.tag h run.c.ids (run.view h) = none ∧ run.Adjudicable) := by
        intro h hh
        obtain ⟨a, ho, rfl, -⟩ := hab h hh
        rcases run.outcome_cases hh with ⟨-, he⟩ | ⟨hd, f, detail, hf, he⟩ | ⟨hd, hf, share, he⟩
        · rw [ho] at he; cases he
        · rw [ho] at he
          cases he
          exact ⟨hd, Or.inl ⟨f, hf, rfl⟩⟩
        · refine ⟨hd, Or.inr ⟨hf, ?_⟩⟩
          rw [ho] at he
          cases hv : vssVerdict (F := F) run.phase run.c.ids run.reveals run.complaints run.defenses with
          | error e =>
            rw [hv] at he
            exact run.adjudicable_iff.mpr (Or.inr ⟨a, by rw [hv, ← Except.error.inj he]⟩)
          | ok com => rw [hv] at he; cases he
      refine ⟨fun h hh => (hall h hh).1, ?_⟩
      by_cases hadj : run.Adjudicable
      · refine Or.inr ⟨fun h hh => ?_, hadj⟩
        obtain ⟨p, hp⟩ := hadj.1.getElem? (run.honest_sub hh)
        exact (run.complained_checked hh hp).2.1
      · obtain ⟨f, -, rfl⟩ := (hall h₀ hh₀).2.resolve_right fun h => hadj h.2
        refine Or.inl ⟨f, fun h hh => ?_⟩
        obtain ⟨f', hf', heq⟩ := (hall h hh).2.resolve_right fun h => hadj h.2
        cases heq
        exact hf'
  · rintro ⟨hd, ⟨f, hf⟩ | ⟨hf, hadj⟩⟩
    · refine run.sameVerdict_of_abort [f] fun h hh => ?_
      rcases run.outcome_cases hh with ⟨hn, -⟩ | ⟨-, f', detail, hf', he⟩ | ⟨-, hn, -⟩
      · exact absurd (hd h hh) hn
      · rw [hf h hh] at hf'
        cases hf'
        exact ⟨_, he, rfl⟩
      · rw [hf h hh] at hn; cases hn
    · have hend : ∀ h ∈ run.honest, ∃ share, run.outcome h = do
          let com ← vssVerdict (F := F) run.phase run.c.ids run.reveals run.complaints run.defenses
          return ⟨h, share, com⟩ := by
        intro h hh
        rcases run.outcome_cases hh with ⟨hn, -⟩ | ⟨-, f', detail, hf', -⟩ | ⟨-, -, he⟩
        · exact absurd (hd h hh) hn
        · rw [hf h hh] at hf'; cases hf'
        · exact he
      rcases run.adjudicable_iff.mp hadj with ⟨com, hv⟩ | ⟨a, hv⟩
      · refine Or.inl ⟨com, fun h hh => ?_⟩
        obtain ⟨share, he⟩ := hend h hh
        exact ⟨share, by rw [he, hv]; rfl⟩
      · refine run.sameVerdict_of_abort a.blamed fun h hh => ?_
        obtain ⟨share, he⟩ := hend h hh
        exact ⟨a, by rw [he, hv]; rfl, rfl⟩

end VssRun

/-! ### Two honest members of three, every draw 1 -/

namespace VssSession

/-- Equality of the payloads this session's members send, for running it. -/
def samePayload : NodePayload F G → NodePayload F G → Bool
  | .dkg m, .dkg m' => m = m'
  | .complaints l, .complaints l' => l = l'
  | .defenses l, .defenses l' => l = l'
  | _, _ => false

theorem eq_of_samePayload {p q : NodePayload F G} (h : samePayload p q = true) : p = q := by
  cases p <;> cases q <;> simp_all [samePayload]

def wasSent (run : VssSession F G) (h : PartyId) (round : Nat) (addressee : Option PartyId)
    (p : Option (NodePayload F G)) : Bool :=
  match p with
  | none => true
  | some p => (run.sent h).any fun env => env.sid = run.sid ∧ env.phase = run.phase ∧ env.round = round ∧
      env.sender = h ∧ env.addressee = addressee ∧ samePayload env.payload p

theorem mem_sent_of_wasSent {run : VssSession F G} {h : PartyId} {round : Nat} {addressee : Option PartyId}
    {set : AcceptedSet F G} (hs : run.wasSent h round addressee set[h]? = true) {p : NodePayload F G}
    (hp : set[h]? = some p) : ⟨run.sid, run.phase, round, h, addressee, p⟩ ∈ run.sent h := by
  unfold wasSent at hs
  rw [hp] at hs
  obtain ⟨env, henv, heq⟩ := List.any_eq_true.mp hs
  obtain ⟨h₁, h₂, h₃, h₄, h₅, h₆⟩ := of_decide_eq_true heq
  have henv' : env = ⟨run.sid, run.phase, round, h, addressee, p⟩ := by
    rw [← h₁, ← h₂, ← h₃, ← h₄, ← h₅, ← eq_of_samePayload h₆]
  rwa [← henv']

/-- What the honest members accept from one another was sent. -/
def check (run : VssSession F G) : Bool := run.honest.all fun h =>
  run.wasSent h VSS_ROUND_COMMIT none run.commits[h]? &&
  (run.wasSent h VSS_ROUND_REVEAL none run.reveals[h]? &&
  (run.wasSent h VSS_ROUND_COMPLAIN none run.complaints[h]? &&
  (run.wasSent h VSS_ROUND_DEFEND none run.defenses[h]? &&
  run.honest.all fun j => run.wasSent h VSS_ROUND_REVEAL (some j) (run.shares j)[h]?)))

theorem check_member {run : VssSession F G} (hc : run.check = true) {h : PartyId} (hh : h ∈ run.honest) :
    run.wasSent h VSS_ROUND_COMMIT none run.commits[h]? = true ∧
    run.wasSent h VSS_ROUND_REVEAL none run.reveals[h]? = true ∧
    run.wasSent h VSS_ROUND_COMPLAIN none run.complaints[h]? = true ∧
    run.wasSent h VSS_ROUND_DEFEND none run.defenses[h]? = true ∧
    ∀ j ∈ run.honest, run.wasSent h VSS_ROUND_REVEAL (some j) (run.shares j)[h]? = true := by
  have := List.all_eq_true.mp hc h hh
  simpa only [Bool.and_eq_true, List.all_eq_true] using this

end VssSession

section Trio

open Secp256k1

/-- Members 1 and 2 are honest, all deal `1 + X`; member 3 sends `share` to
member 1, and everyone the broadcasts of the complaint rounds. -/
def trioSession (share : NodePayload Scalar Point) (complaints defenses : AcceptedSet Scalar Point) :
    VssSession Scalar Point where
  c := trio
  sid := []
  tag := []
  phase := .keyGen
  honest := [1, 2]
  rng h := ⟨[⟨h.val, fun _ => 1, 0⟩], []⟩
  commits := collect (trio.ids.map fun j => (j, .dkg (.commit ⟨j, hashCommitment Scalar [] [] j (⟨[1, 1]⟩ : FeldmanCommitment Point)⟩)))
  reveals := collect (trio.ids.map fun j => (j, .dkg (.reveal ⟨j, ⟨[1, 1]⟩⟩)))
  shares h := collect (trio.ids.map fun j =>
    (j, if j = 3 ∧ h = 1 then share else .dkg (.share ⟨j, h, 1 + scalarFrom h⟩)))
  complaints := complaints
  defenses := defenses

def trioRun (share : NodePayload Scalar Point) (complaints defenses : AcceptedSet Scalar Point)
    (h : (trioSession share complaints defenses).check = true) : VssRun Scalar Point where
  toVssSession := trioSession share complaints defenses
  majority := trio_majority
  honest_sub := one_two_sub_trio
  honest_nodup := one_two_nodup
  few_corrupt := trio_few_corrupt
  rng_enough _ := le_refl 1
  commits_sent _ hj _ hp := VssSession.mem_sent_of_wasSent (VssSession.check_member h hj).1 hp
  reveals_sent _ hj _ hp := VssSession.mem_sent_of_wasSent (VssSession.check_member h hj).2.1 hp
  complaints_sent _ hj _ hp := VssSession.mem_sent_of_wasSent (VssSession.check_member h hj).2.2.1 hp
  defenses_sent _ hj _ hp := VssSession.mem_sent_of_wasSent (VssSession.check_member h hj).2.2.2.1 hp
  shares_sent _ hj k hk _ hp := VssSession.mem_sent_of_wasSent ((VssSession.check_member h hj).2.2.2.2 k hk) hp

/-- Dealer 3 deals member 1 the share 0 and defends with the right one, 2. -/
def framingRun : VssRun Scalar Point :=
  trioRun (.dkg (.share ⟨3, 1, 0⟩))
    (collect [(1, .complaints [3]), (2, .complaints []), (3, .complaints [])])
    (collect [(1, .defenses []), (2, .defenses []), (3, .defenses [(1, 2)])]) (by decide +kernel)

theorem framingRun_outcome : framingRun.outcome 1 = .error (abort .keyGen [1]
    "false accusation: dealer 3's defense share verifies against its commitment") := by
  decide +kernel

/-- Member 1's complaint is true, and it is blamed. -/
theorem vss_frames_victim : (⟨[1, 1]⟩ : FeldmanCommitment Point).verifyShare 1 (0 : Scalar) = false ∧
    1 ∈ framingRun.honest ∧ ¬ framingRun.NoFraming := by
  have h1 : 1 ∈ framingRun.honest := List.mem_cons_self
  refine ⟨by decide +kernel, h1, fun h => ?_⟩
  exact h 1 h1 _ _ _ framingRun_outcome 1 List.mem_cons_self h1

/-- Dealer 3 deals member 1 the share 0 and stands by it. -/
def blamedRun : VssRun Scalar Point :=
  trioRun (.dkg (.share ⟨3, 1, 0⟩))
    (collect [(1, .complaints [3]), (2, .complaints []), (3, .complaints [])])
    (collect [(1, .defenses []), (2, .defenses []), (3, .defenses [(1, 0)])]) (by decide +kernel)

/-- The true complaint of member 1 blames the dealer, and no honest member. -/
theorem vss_no_framing_blamed :
    blamedRun.outcome 1 = .error (abort .keyGen [3] "dealer 3's defense share fails verification against its commitment") ∧
    blamedRun.NoFraming := by
  refine ⟨by decide +kernel, blamedRun.vss_no_framing_iff.mpr ?_⟩
  rintro ⟨-, -, -, a, -, d, hfirst, hverifies⟩
  have hone : firstComplaint (complaintLists blamedRun.c.ids blamedRun.complaints) = some (1, 3) := by decide +kernel
  rw [hone] at hfirst
  cases hfirst
  exact absurd hverifies (by decide +kernel)

/-- Member 3's P2P message to member 1 is no share; member 1's broadcasts end there. -/
def splitRun : VssRun Scalar Point :=
  trioRun (.complaints []) (collect [(2, .complaints []), (3, .complaints [])]) ∅ (by decide +kernel)

/-- Member 1 aborts blaming 3, member 2 fails closed blaming no one. -/
theorem splitRun_outcome :
    splitRun.outcome 1 = .error (abort .keyGen [3] "malformed share envelope") ∧
    splitRun.outcome 2 = .error incomplete := by
  decide +kernel

theorem vss_splits : 1 ∈ splitRun.honest ∧ 2 ∈ splitRun.honest ∧ ¬ splitRun.SameVerdict := by
  have h1 : 1 ∈ splitRun.honest := List.mem_cons_self
  have h2 : 2 ∈ splitRun.honest := List.mem_cons_of_mem _ List.mem_cons_self
  refine ⟨h1, h2, ?_⟩
  rintro (⟨com, h⟩ | ⟨blamed, survivors, h⟩)
  · obtain ⟨share, ho⟩ := h 1 h1
    rw [splitRun_outcome.1] at ho
    cases ho
  · obtain ⟨a, ho, -⟩ := h 2 h2
    rw [splitRun_outcome.2] at ho
    cases ho

/-- Dealer 3 deals as the others do. -/
def plainRun : VssRun Scalar Point :=
  trioRun (.dkg (.share ⟨3, 1, 2⟩)) (collect (trio.ids.map fun j => (j, .complaints [])))
    (collect (trio.ids.map fun j => (j, .defenses []))) (by decide +kernel)

theorem blamedRun_agreeable : blamedRun.AgreeableViews := by
  refine ⟨forall_one_two (by decide +kernel) (by decide +kernel),
    Or.inr ⟨forall_one_two (by decide +kernel) (by decide +kernel), by decide +kernel, Or.inr ⟨by decide +kernel, ?_⟩⟩⟩
  intro a d hfirst
  have hone : firstComplaint (complaintLists blamedRun.c.ids blamedRun.complaints) = some (1, 3) := by decide +kernel
  rw [hone] at hfirst
  cases hfirst
  decide

theorem plainRun_agreeable : plainRun.AgreeableViews := by
  refine ⟨forall_one_two (by decide +kernel) (by decide +kernel),
    Or.inr ⟨forall_one_two (by decide +kernel) (by decide +kernel), by decide +kernel, Or.inr ⟨by decide +kernel, ?_⟩⟩⟩
  intro a d hfirst
  have hnone : firstComplaint (complaintLists plainRun.c.ids plainRun.complaints) = none := by decide +kernel
  rw [hnone] at hfirst
  cases hfirst

/-- One verdict where a dealer is blamed, and one key where none is. -/
theorem vss_same_verdict_trio : blamedRun.SameVerdict ∧
    (plainRun.outcome 1 = .ok ⟨1, 6, ⟨[3, 3]⟩⟩ ∧ plainRun.outcome 2 = .ok ⟨2, 9, ⟨[3, 3]⟩⟩) ∧ plainRun.SameVerdict :=
  ⟨blamedRun.vss_same_verdict_iff.mpr blamedRun_agreeable, by decide +kernel,
    plainRun.vss_same_verdict_iff.mpr plainRun_agreeable⟩

end Trio

end OhmEcdsa
