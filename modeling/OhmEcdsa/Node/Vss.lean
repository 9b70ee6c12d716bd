import OhmEcdsa.Core.Secp256k1
import OhmEcdsa.Core.Sim
import OhmEcdsa.Node.Round

/-!
# The wire DKG (`party.rs`): `joint_vss_run` and `restart_step`

Commit, reveal and deal, complain, defend, adjudicate.
-/

set_option linter.unusedSectionVars false

namespace OhmEcdsa

open Hoare FeldmanCommitment

variable {F G : Type} [Field F] [DecidableEq F] [AddCommGroup G] [Module F G] [DecidableEq G] [K256 F G]

def VSS_ROUND_COMMIT : Nat := 1
def VSS_ROUND_REVEAL : Nat := 2
def VSS_ROUND_COMPLAIN : Nat := 3
def VSS_ROUND_DEFEND : Nat := 4

/-- The broadcasts a node accepted in the four rounds, and its P2P shares. -/
structure VssView (F G : Type) where
  commits : AcceptedSet F G
  reveals : AcceptedSet F G
  shares : AcceptedSet F G
  complaints : AcceptedSet F G
  defenses : AcceptedSet F G

/-! ## Algorithm -/

def asCommit (f : PartyId) : NodePayload F G → Option DkgBcast1
  | .dkg (.commit b) => if b.sender = f then some b else none
  | _ => none

def asReveal (f : PartyId) : NodePayload F G → Option (DkgBcast2 G)
  | .dkg (.reveal b) => if b.sender = f then some b else none
  | _ => none

def asShare (me f : PartyId) : NodePayload F G → Option F
  | .dkg (.share s) => if s.sender = f ∧ s.addressee = me then some s.share else none
  | _ => none

/-- The commit-reveal check of dealer `i`. -/
def checkReveal (t : Usize) (sid tag : Bytes) (phase : Phase) (r1 : PartyMap DkgBcast1)
    (r2 : PartyMap (DkgBcast2 G)) (i : PartyId) : Outcome Unit := do
  let b2 ← index r2 i
  if b2.com.points.length ≠ t.val then throw (abort phase [i] "malformed Feldman commitment vector")
  else do
    let b1 ← index r1 i
    if hashCommitment F sid tag i b2.com ≠ b1.hash then throw (abort phase [i] "commit-reveal hash mismatch")
    else return ()

/-- Every reveal must match its commitment; the dealers whose share fails. -/
def compareReveals (t : Usize) (sid tag : Bytes) (phase : Phase) (me : PartyId) (ids : List PartyId)
    (r1 : PartyMap DkgBcast1) (r2 : PartyMap (DkgBcast2 G)) (mine : PartyMap F) : Outcome (List PartyId) := do
  ids.forM (checkReveal (F := F) t sid tag phase r1 r2)
  let checked ← ids.mapM fun i => do
    let b2 ← index r2 i
    let s ← index mine i
    return (i, b2.com.verifyShare me s)
  return (checked.filter fun e => !e.2).map (·.1)

/-- Between dealing and complaining: the reveals, the shares for `me`, and this
node's complaints. -/
def vssChecks (t : Usize) (sid tag : Bytes) (phase : Phase) (me : PartyId) (ids : List PartyId)
    (view : VssView F G) : Outcome (PartyMap (DkgBcast2 G) × PartyMap F × List PartyId) :=
  let r1Envs := acceptedOver ids view.commits
  let r2Envs := acceptedOver ids view.reveals
  let shareEnvs := acceptedOver ids view.shares
  if r1Envs.size ≠ ids.length ∨ r2Envs.size ≠ ids.length ∨ shareEnvs.size ≠ ids.length then .error incomplete
  else do
    let r1 ← parseSet phase "malformed commit broadcast" asCommit r1Envs
    let r2 ← parseSet phase "malformed reveal broadcast" asReveal r2Envs
    let mine ← parseSet phase "malformed share envelope" (asShare me) shareEnvs
    let complaints ← compareReveals t sid tag phase me ids (collect r1) (collect r2) (collect mine)
    return (collect r2, collect mine, complaints)

/-- The output sums, in id order. -/
def vssOutput (me : PartyId) (ids : List PartyId) (r2 : PartyMap (DkgBcast2 G)) (mine : PartyMap F) :
    Outcome (KeyShare F G) := do
  let dealt ← ids.mapM fun i => do
    let s ← index mine i
    let b2 ← index r2 i
    return (s, b2.com)
  let com ← FeldmanCommitment.sum (dealt.map (·.2))
  return ⟨me, dealt.foldl (fun acc e => acc + e.1) 0, com⟩

def jointVssRun (me : PartyId) (t : Usize) (sid tag : Bytes) (phase : Phase) (ids : List PartyId)
    (view : VssView F G) : NodeM F G (KeyShare F G) := do
  let committee ← lift (Committee.new ids t)
  let (inst, b1) ← draw (DkgInstance.startCommittee (F := F) (G := G) committee sid tag me 0)
  send (Envelope.broadcast sid phase VSS_ROUND_COMMIT me (.dkg (.commit b1)))
  let (b2, shares) ← lift inst.reveal
  send (Envelope.broadcast sid phase VSS_ROUND_REVEAL me (.dkg (.reveal b2)))
  shares.forM fun s => send (Envelope.p2p sid phase VSS_ROUND_REVEAL me s.addressee (.dkg (.share s)))
  let (r2, mine, complaints) ← lift (vssChecks t sid tag phase me ids view)
  complaintRound me sid phase (VSS_ROUND_COMPLAIN, VSS_ROUND_DEFEND) ids complaints inst.defend
    (fun d a s => do let b2 ← index r2 d; return b2.com.verifyShare a s) view.complaints view.defenses
  lift (vssOutput me ids r2 mine)

/-- `restart_step`: accumulate the blame, and the surviving committee if this
node is in it. -/
def restartStep (me : PartyId) (t : Usize) (current blamedAll : List PartyId) (a : IdentifiableAbort) :
    List PartyId × Outcome (Option (List PartyId)) :=
  (accumulateBlame blamedAll a.blamed,
    match restartCommittee current a.blamed t with
    | .error (.error (.invalidParams msg)) =>
      .error (abort a.phase a.blamed (a.detail ++ "; expel-and-restart refused: invalid parameters: " ++ msg))
    | .error e => .error e
    | .ok survivors => .ok (if survivors.contains me then some survivors else none))

/-- A member that restarts does so over the policy's committee, which it is in. -/
theorem restartStep_some {me : PartyId} {t : Usize} {current blamedAll next : List PartyId} {a : IdentifiableAbort}
    (hr : (restartStep me t current blamedAll a).2 = .ok (some next)) :
    restartCommittee current a.blamed t = .ok next ∧ me ∈ next := by
  unfold restartStep at hr
  rcases hc : restartCommittee current a.blamed t with (e | _) | survivors
  · cases e <;> simp only [hc, reduceCtorEq] at hr
  · simp only [hc, reduceCtorEq] at hr
  · simp only [hc, Except.ok.injEq, Option.ite_none_right_eq_some] at hr
    obtain ⟨hme, hnext⟩ := hr
    obtain rfl := Option.some.inj hnext
    exact ⟨rfl, by simpa using hme⟩

/-! ## Lemmas: the checks -/

def revealedCom (reveals : AcceptedSet F G) (i : PartyId) : FeldmanCommitment G :=
  match reveals[i]? with
  | some (.dkg (.reveal b)) => b.com
  | _ => ⟨[]⟩

/-- Dealer `i`'s reveal is malformed or does not match its commitment. -/
def badReveal (t : Usize) (sid tag : Bytes) (commits reveals : AcceptedSet F G) (i : PartyId) : Bool :=
  match commits[i]? with
  | some (.dkg (.commit b1)) =>
    (revealedCom reveals i).points.length ≠ t.val ∨ hashCommitment F sid tag i (revealedCom reveals i) ≠ b1.hash
  | _ => false

/-- The party a node's checks blame: the least sender of a malformed payload in
the first round that has one, or else the least dealer whose reveal is bad. -/
def vssFault (t : Usize) (sid tag : Bytes) (me : PartyId) (ids : List PartyId) (view : VssView F G) :
    Option PartyId :=
  (firstMalformed asCommit (acceptedOver ids view.commits)).or <|
    (firstMalformed asReveal (acceptedOver ids view.reveals)).or <|
    (firstMalformed (asShare me) (acceptedOver ids view.shares)).or <|
    ids.find? (badReveal t sid tag view.commits view.reveals)

/-- The sets of the dealing rounds have a value of every member. -/
def VssView.Dealt (ids : List PartyId) (view : VssView F G) : Prop :=
  Complete ids view.commits ∧ Complete ids view.reveals ∧ Complete ids view.shares

instance (ids : List PartyId) (view : VssView F G) : Decidable (view.Dealt ids) :=
  inferInstanceAs (Decidable (_ ∧ _ ∧ _))

/-- What the checks hand on. -/
structure VssChecked (t : Usize) (me : PartyId) (ids : List PartyId) (view : VssView F G)
    (r2 : PartyMap (DkgBcast2 G)) (mine : PartyMap F) (complaints : List PartyId) : Prop where
  reveal : ∀ i ∈ ids, r2[i]? = some ⟨i, revealedCom view.reveals i⟩
  length : ∀ i ∈ ids, (revealedCom view.reveals i).points.length = t.val
  share : ∀ i ∈ ids, ∃ s, view.shares[i]? = some (.dkg (.share ⟨i, me, s⟩)) ∧ mine[i]? = some s
  complaints_eq : complaints = ids.filter fun i =>
    !(mine[i]?).any fun s => (revealedCom view.reveals i).verifyShare me s

theorem asCommit_some {f : PartyId} {p : NodePayload F G} {b : DkgBcast1} (h : asCommit f p = some b) :
    p = .dkg (.commit b) ∧ b.sender = f := by
  unfold asCommit at h
  split at h
  · split at h
    · next hb => cases h; exact ⟨rfl, hb⟩
    · cases h
  · cases h

theorem asReveal_some {f : PartyId} {p : NodePayload F G} {b : DkgBcast2 G} (h : asReveal f p = some b) :
    p = .dkg (.reveal b) ∧ b.sender = f := by
  unfold asReveal at h
  split at h
  · split at h
    · next hb => cases h; exact ⟨rfl, hb⟩
    · cases h
  · cases h

theorem asShare_some {me f : PartyId} {p : NodePayload F G} {s : F} (h : asShare me f p = some s) :
    p = .dkg (.share ⟨f, me, s⟩) := by
  unfold asShare at h
  split at h
  · split at h
    · next hb =>
      cases h
      rw [← hb.1, ← hb.2]
    · cases h
  · cases h

/-- A member's reveal in the parsed map. -/
theorem revealed_of {ids : List PartyId} {reveals : AcceptedSet F G} (hR : Complete ids reveals)
    (hr : firstMalformed asReveal (acceptedOver ids reveals) = none) {i : PartyId} (hi : i ∈ ids) :
    reveals[i]? = some (.dkg (.reveal ⟨i, revealedCom reveals i⟩)) ∧
    (collect ((acceptedOver ids reveals).toList.filterMap fun e =>
      (asReveal e.1 e.2).map fun a => (e.1, a)))[i]? = some ⟨i, revealedCom reveals i⟩ := by
  obtain ⟨p, hp⟩ := hR.getElem? hi
  obtain ⟨b, hb⟩ := firstMalformed_none hr hi hp
  obtain ⟨rfl, rfl⟩ := asReveal_some hb
  have hcom : revealedCom reveals b.sender = b.com := by unfold revealedCom; rw [hp]
  rw [hcom]
  exact ⟨hp, parsed_getElem? hi hp hb⟩

theorem checkReveal_eq (t : Usize) (sid tag : Bytes) (phase : Phase) {commits reveals : AcceptedSet F G}
    {r1 : PartyMap DkgBcast1} {r2 : PartyMap (DkgBcast2 G)} {i : PartyId} {b1 : DkgBcast1}
    (hc : commits[i]? = some (.dkg (.commit b1))) (h1 : r1[i]? = some b1)
    (h2 : r2[i]? = some ⟨i, revealedCom reveals i⟩) :
    (badReveal t sid tag commits reveals i = false →
      checkReveal (F := F) t sid tag phase r1 r2 i = .ok ()) ∧
    (badReveal t sid tag commits reveals i = true →
      ∃ detail, checkReveal (F := F) t sid tag phase r1 r2 i = .error (abort phase [i] detail)) := by
  unfold badReveal checkReveal index
  rw [hc, h1, h2]
  simp only [bind, Except.bind, decide_eq_false_iff_not, decide_eq_true_eq, not_or, not_not, ne_eq]
  refine ⟨fun ⟨hlen, hhash⟩ => ?_, fun h => ?_⟩
  · rw [if_neg (not_not.mpr hlen), if_neg (not_not.mpr hhash)]
    rfl
  · by_cases hlen : (revealedCom reveals i).points.length = t.val
    · rw [if_neg (not_not.mpr hlen), if_pos (h.resolve_left (not_not.mpr hlen))]
      exact ⟨_, rfl⟩
    · rw [if_pos hlen]
      exact ⟨_, rfl⟩

/-- **The node's local checks**: with every member's values at hand they blame
the least bad reveal, or give the list of failing shares. -/
theorem compareReveals_cases (t : Usize) (sid tag : Bytes) (phase : Phase) (me : PartyId) {ids : List PartyId}
    {commits reveals : AcceptedSet F G} {r1 : PartyMap DkgBcast1} {r2 : PartyMap (DkgBcast2 G)}
    {mine : PartyMap F}
    (hcommit : ∀ i ∈ ids, ∃ b1, commits[i]? = some (.dkg (.commit b1)) ∧ r1[i]? = some b1)
    (hreveal : ∀ i ∈ ids, r2[i]? = some ⟨i, revealedCom reveals i⟩)
    (hshare : ∀ i ∈ ids, ∃ s, mine[i]? = some s) :
    (∃ f detail, ids.find? (badReveal t sid tag commits reveals) = some f ∧
      compareReveals t sid tag phase me ids r1 r2 mine = .error (abort phase [f] detail)) ∨
    (ids.find? (badReveal t sid tag commits reveals) = none ∧
      (∀ i ∈ ids, (revealedCom reveals i).points.length = t.val) ∧
      compareReveals t sid tag phase me ids r1 r2 mine = .ok (ids.filter fun i =>
        !(mine[i]?).any fun s => (revealedCom reveals i).verifyShare me s)) := by
  have hcheck : ∀ i ∈ ids, _ := fun i hi =>
    let ⟨_, hc, h1⟩ := hcommit i hi
    checkReveal_eq t sid tag phase hc h1 (hreveal i hi)
  have hloop := forM_eq_find (checkReveal (F := F) t sid tag phase r1 r2)
    (badReveal t sid tag commits reveals) ids (fun i hi => (hcheck i hi).1)
    fun i hi hb => let ⟨_, hd⟩ := (hcheck i hi).2 hb; ⟨_, hd⟩
  unfold compareReveals
  rw [hloop]
  cases hf : ids.find? (badReveal t sid tag commits reveals) with
  | some f =>
    obtain ⟨detail, hd⟩ := (hcheck f (List.mem_of_find?_eq_some hf)).2 (List.find?_some hf)
    exact Or.inl ⟨f, detail, rfl, by simp only [hd]; rfl⟩
  | none =>
    refine Or.inr ⟨rfl, fun i hi => ?_, ?_⟩
    · obtain ⟨b1, hc, -⟩ := hcommit i hi
      have hgood : badReveal t sid tag commits reveals i = false := by
        simpa using List.find?_eq_none.mp hf i hi
      unfold badReveal at hgood
      rw [hc] at hgood
      simp only [decide_eq_false_iff_not, not_or, not_not, ne_eq] at hgood
      exact hgood.1
    · have hmap := mapM_ok_of (fun i => do
          let b2 ← index r2 i
          let s ← index mine i
          return (i, b2.com.verifyShare me s) : PartyId → Outcome (PartyId × Bool))
        (fun i => (i, (mine[i]?).any fun s => (revealedCom reveals i).verifyShare me s)) ids
        (fun i hi => by
          obtain ⟨s, hs⟩ := hshare i hi
          simp only [index, hreveal i hi, hs, bind, Except.bind, Option.any_some]
          rfl)
      simp only [bind, Except.bind] at hmap ⊢
      rw [hmap]
      simp only [pure, Except.pure, List.filter_map, List.map_map, Function.comp_def]
      rw [List.map_id']

theorem vssChecks_cases (t : Usize) (sid tag : Bytes) (phase : Phase) (me : PartyId) (ids : List PartyId)
    (view : VssView F G) :
    (¬ view.Dealt ids ∧ vssChecks t sid tag phase me ids view = .error incomplete) ∨
    (view.Dealt ids ∧ ∃ f detail, vssFault t sid tag me ids view = some f ∧
      vssChecks t sid tag phase me ids view = .error (abort phase [f] detail)) ∨
    (view.Dealt ids ∧ vssFault t sid tag me ids view = none ∧ ∃ r2 mine complaints,
      vssChecks t sid tag phase me ids view = .ok (r2, mine, complaints) ∧
      VssChecked t me ids view r2 mine complaints) := by
  unfold vssChecks vssFault
  by_cases hd : view.Dealt ids
  · obtain ⟨hC, hR, hS⟩ := hd
    refine Or.inr ?_
    rw [if_neg (by simp only [ne_eq, not_or, not_not]; exact ⟨hC, hR, hS⟩), parseSet_eq, parseSet_eq, parseSet_eq]
    cases hc : firstMalformed asCommit (acceptedOver ids view.commits) with
    | some f => exact Or.inl ⟨⟨hC, hR, hS⟩, f, _, rfl, rfl⟩
    | none =>
      cases hr : firstMalformed asReveal (acceptedOver ids view.reveals) with
      | some f => exact Or.inl ⟨⟨hC, hR, hS⟩, f, _, rfl, rfl⟩
      | none =>
        cases hs : firstMalformed (asShare me) (acceptedOver ids view.shares) with
        | some f => exact Or.inl ⟨⟨hC, hR, hS⟩, f, _, rfl, rfl⟩
        | none =>
          have hcommit : ∀ i ∈ ids, ∃ b1, view.commits[i]? = some (.dkg (.commit b1)) ∧
              (collect ((acceptedOver ids view.commits).toList.filterMap fun e =>
                (asCommit e.1 e.2).map fun a => (e.1, a)))[i]? = some b1 := by
            intro i hi
            obtain ⟨p, hp⟩ := hC.getElem? hi
            obtain ⟨b1, hb⟩ := firstMalformed_none hc hi hp
            exact ⟨b1, by rw [hp, (asCommit_some hb).1], parsed_getElem? hi hp hb⟩
          have hshare : ∀ i ∈ ids, ∃ s, view.shares[i]? = some (.dkg (.share ⟨i, me, s⟩)) ∧
              (collect ((acceptedOver ids view.shares).toList.filterMap fun e =>
                (asShare me e.1 e.2).map fun a => (e.1, a)))[i]? = some s := by
            intro i hi
            obtain ⟨p, hp⟩ := hS.getElem? hi
            obtain ⟨s, hs'⟩ := firstMalformed_none hs hi hp
            exact ⟨s, by rw [hp, asShare_some hs'], parsed_getElem? hi hp hs'⟩
          simp only [Option.none_or, bind, Except.bind]
          rcases compareReveals_cases t sid tag phase me hcommit
              (fun i hi => (revealed_of hR hr hi).2) (fun i hi => (hshare i hi).imp fun s hs => hs.2) with
            ⟨f, detail, hf, hcmp⟩ | ⟨hf, hlen, hcmp⟩
          · rw [hcmp]
            exact Or.inl ⟨⟨hC, hR, hS⟩, f, detail, hf, rfl⟩
          · rw [hcmp]
            exact Or.inr ⟨⟨hC, hR, hS⟩, hf, _, _, _, rfl,
              ⟨fun i hi => (revealed_of hR hr hi).2, hlen, hshare, rfl⟩⟩
  · refine Or.inl ⟨hd, ?_⟩
    rw [if_pos]
    unfold VssView.Dealt Complete at hd
    tauto

/-! ## Lemmas: one node's run -/

/-- What a dealer sends before it checks: its commit, its reveal, the shares. -/
def DealtBy (inst : DkgInstance F G) (phase : Phase) (env : Envelope (NodePayload F G)) : Prop :=
  env = Envelope.broadcast inst.sid phase VSS_ROUND_COMMIT inst.me (.dkg (.commit inst.commitOf)) ∨
  env = Envelope.broadcast inst.sid phase VSS_ROUND_REVEAL inst.me (.dkg (.reveal ⟨inst.me, inst.com⟩)) ∨
  ∃ j, env = Envelope.p2p inst.sid phase VSS_ROUND_REVEAL inst.me j (.dkg (.share ⟨inst.me, j, inst.shareFor j⟩))

def revealVerifies (reveals : AcceptedSet F G) (d a : PartyId) (s : F) : Bool :=
  (revealedCom reveals d).verifyShare a s

/-- How a run ends whose node's checks pass, up to the node's share. -/
def vssVerdict (phase : Phase) (ids : List PartyId) (reveals complaints defenses : AcceptedSet F G) :
    Outcome (FeldmanCommitment G) := do
  complaintVerdict phase ids (fun d a s => .ok (revealVerifies reveals d a s)) complaints defenses
  FeldmanCommitment.sum (ids.map (revealedCom reveals))

/-- **How the public part of a run can end.** -/
theorem vssVerdict_cases (phase : Phase) {ids : List PartyId} (hne : ids ≠ [])
    (reveals complaints defenses : AcceptedSet F G) :
    (¬ Complete ids complaints ∧ vssVerdict (F := F) phase ids reveals complaints defenses = .error incomplete) ∨
    (Complete ids complaints ∧ ∃ f, firstMalformed asComplaints (acceptedOver ids complaints) = some f ∧
      vssVerdict (F := F) phase ids reveals complaints defenses =
        .error (abort phase [f] "malformed complaint broadcast")) ∨
    (Complete ids complaints ∧ firstMalformed asComplaints (acceptedOver ids complaints) = none ∧
      ((¬ Complete ids defenses ∧ vssVerdict (F := F) phase ids reveals complaints defenses = .error incomplete) ∨
      (Complete ids defenses ∧ ∃ a d, firstComplaint (complaintLists ids complaints) = some (a, d) ∧
        ((d ∉ ids ∧ ∃ msg, vssVerdict (F := F) phase ids reveals complaints defenses = .error (.panic msg)) ∨
        (d ∈ ids ∧ ∃ detail, vssVerdict (F := F) phase ids reveals complaints defenses = .error (abort phase
          [if (defenseAgainst (acceptedOver ids defenses) d a).any (revealVerifies reveals d a) then a else d]
          detail)))) ∨
      (Complete ids defenses ∧ firstComplaint (complaintLists ids complaints) = none ∧
        ∃ com, vssVerdict (F := F) phase ids reveals complaints defenses = .ok com))) := by
  unfold vssVerdict complaintVerdict
  by_cases hK : Complete ids complaints
  · rw [if_neg (not_not.mpr hK)]
    cases hm : firstMalformed asComplaints (acceptedOver ids complaints) with
    | some f => exact Or.inr (Or.inl ⟨hK, f, rfl, rfl⟩)
    | none =>
      refine Or.inr (Or.inr ⟨hK, rfl, ?_⟩)
      by_cases hD : Complete ids defenses
      · simp only [if_neg (not_not.mpr hD)]
        rcases hf : firstComplaint (complaintLists ids complaints) with _ | ⟨a, d⟩
        · refine Or.inr (Or.inr ⟨hD, rfl, ?_⟩)
          obtain ⟨com, hcom, -⟩ := sum_ok (F := F) (ids.map (revealedCom reveals)) (by simpa using hne)
          refine ⟨com, ?_⟩
          unfold adjudicate
          rw [hf]
          exact hcom
        · refine Or.inr (Or.inl ⟨hD, a, d, rfl, ?_⟩)
          by_cases hd : d ∈ ids
          · obtain ⟨p, hp⟩ := hD.getElem? hd
            have hp' : (acceptedOver ids defenses)[d]? = some p := by rw [acceptedOver_getElem?, if_pos hd, hp]
            obtain ⟨detail, hadj⟩ := adjudicate_eq phase
              (fun d a s => .ok (revealVerifies reveals d a s)) hf ⟨p, hp'⟩ (revealVerifies reveals d a) fun _ => rfl
            exact Or.inr ⟨hd, detail, by rw [hadj]; rfl⟩
          · refine Or.inl ⟨hd, "no entry found for key", ?_⟩
            unfold adjudicate index
            rw [hf]
            simp only [acceptedOver_getElem?, if_neg hd]
            rfl
      · exact Or.inl ⟨hD, by simp only [if_pos hD]; rfl⟩
  · exact Or.inl ⟨hK, by rw [if_pos hK]; rfl⟩

theorem vssOutput_eq {t : Usize} {me : PartyId} {ids : List PartyId} {view : VssView F G}
    {r2 : PartyMap (DkgBcast2 G)} {mine : PartyMap F} {complaints : List PartyId}
    (h : VssChecked t me ids view r2 mine complaints) :
    vssOutput me ids r2 mine = (FeldmanCommitment.sum (ids.map (revealedCom view.reveals))).map
      fun com => ⟨me, (ids.map fun i => (mine[i]?).getD 0).sum, com⟩ := by
  have hmap := mapM_ok_of (fun i => do
      let s ← index mine i
      let b2 ← index r2 i
      return (s, b2.com) : PartyId → Outcome (F × FeldmanCommitment G))
    (fun i => ((mine[i]?).getD 0, revealedCom view.reveals i)) ids
    (fun i hi => by
      obtain ⟨s, -, hs⟩ := h.share i hi
      simp only [index, h.reveal i hi, hs, bind, Except.bind, Option.getD_some]
      rfl)
  unfold vssOutput
  rw [hmap]
  simp only [bind, Except.bind, foldl_shares, zero_add, List.map_map, Function.comp_def]
  rcases FeldmanCommitment.sum (ids.map (revealedCom view.reveals)) with _ | _ <;> rfl

theorem complaintVerdict_congr {phase : Phase} {ids : List PartyId}
    {v v' : PartyId → PartyId → F → Outcome Bool} (h : ∀ d ∈ ids, v d = v' d)
    (complaintView defenseView : AcceptedSet F G) :
    complaintVerdict phase ids v complaintView defenseView =
      complaintVerdict phase ids v' complaintView defenseView := by
  unfold complaintVerdict
  rw [adjudicate_congr h]

/-- What a node with honest dealing `inst` sends after its checks. -/
def AnsweredBy (inst : DkgInstance F G) (t : Usize) (phase : Phase) (ids : List PartyId) (view : VssView F G)
    (env : Envelope (NodePayload F G)) : Prop :=
  ∃ r2 mine complaints,
    vssChecks t inst.sid inst.tag phase inst.me ids view = .ok (r2, mine, complaints) ∧
    (env = Envelope.broadcast inst.sid phase VSS_ROUND_COMPLAIN inst.me (.complaints complaints) ∨
      Complete ids view.complaints ∧ firstMalformed asComplaints (acceptedOver ids view.complaints) = none ∧
      env = Envelope.broadcast inst.sid phase VSS_ROUND_DEFEND inst.me
        (.defenses (answers inst.me ids inst.defend view.complaints)))

/-- How a run ends. -/
def vssEnd (t : Usize) (sid tag : Bytes) (phase : Phase) (me : PartyId) (ids : List PartyId)
    (view : VssView F G) : Outcome (KeyShare F G) := do
  let checked ← vssChecks t sid tag phase me ids view
  let com ← vssVerdict phase ids view.reveals view.complaints view.defenses
  return ⟨me, (ids.map fun i => (checked.2.1[i]?).getD 0).sum, com⟩

theorem vssAfterDealing_run (inst : DkgInstance F G) (t : Usize) (phase : Phase) (ids : List PartyId)
    (view : VssView F G) (s : Driver F G) :
    ∃ sent, (do
        let (r2, mine, complaints) ← lift (vssChecks t inst.sid inst.tag phase inst.me ids view)
        complaintRound inst.me inst.sid phase (VSS_ROUND_COMPLAIN, VSS_ROUND_DEFEND) ids complaints inst.defend
          (fun d a s => do let b2 ← index r2 d; return b2.com.verifyShare a s) view.complaints view.defenses
        lift (vssOutput inst.me ids r2 mine) : NodeM F G (KeyShare F G)) s =
      (vssEnd t inst.sid inst.tag phase inst.me ids view, { s with sent := s.sent ++ sent }) ∧
      ∀ env ∈ sent, AnsweredBy inst t phase ids view env := by
  rw [lift_bind_run]
  unfold vssEnd
  rcases vssChecks_cases t inst.sid inst.tag phase inst.me ids view with
    ⟨-, he⟩ | ⟨-, f, detail, -, he⟩ | ⟨-, -, r2, mine, complaints, hok, hchecked⟩
  · exact ⟨[], by rw [he, List.append_nil]; rfl, fun env henv => absurd henv List.not_mem_nil⟩
  · exact ⟨[], by rw [he, List.append_nil]; rfl, fun env henv => absurd henv List.not_mem_nil⟩
  · have hv : ∀ d ∈ ids, (fun a s => do let b2 ← index r2 d; return b2.com.verifyShare a s : PartyId → F → Outcome Bool) =
        fun a s => .ok (revealVerifies view.reveals d a s) := by
      intro d hd
      simp only [index, hchecked.reveal d hd, bind, Except.bind, revealVerifies]
      rfl
    obtain ⟨sent, hrun, hsent⟩ := complaintRound_run inst.me inst.sid phase (VSS_ROUND_COMPLAIN, VSS_ROUND_DEFEND)
      ids complaints inst.defend (fun d a s => do let b2 ← index r2 d; return b2.com.verifyShare a s)
      view.complaints view.defenses s
    refine ⟨sent, ?_, fun env henv => ⟨r2, mine, complaints, hok, hsent env henv⟩⟩
    rw [hok]
    simp only
    rw [bind_run, hrun, complaintVerdict_congr hv]
    unfold vssVerdict
    cases complaintVerdict phase ids (fun d a s => .ok (revealVerifies view.reveals d a s)) view.complaints
        view.defenses with
    | error e => rfl
    | ok _ =>
      simp only [lift, vssOutput_eq hchecked, bind, Except.bind]
      rcases FeldmanCommitment.sum (ids.map (revealedCom view.reveals)) with _ | _ <;> rfl

/-- **One node's run** over a committee: it deals honestly, and ends as its checks
and the complaint round's accepted sets say. -/
theorem jointVssRun_run (c : Committee) (hmaj : 2 * c.t.val ≤ c.ids.length + 1) (me : PartyId)
    (sid tag : Bytes) (phase : Phase) (view : VssView F G) (rng : Rngs F) (hrng : Enough 1 rng) :
    ∃ inst : DkgInstance F G, inst.Honest c sid tag ∧ inst.me = me ∧
      (jointVssRun me c.t sid tag phase c.ids view ⟨rng, []⟩).1 = vssEnd c.t sid tag phase me c.ids view ∧
      ∀ env ∈ (jointVssRun me c.t sid tag phase c.ids view ⟨rng, []⟩).2.sent,
        DealtBy inst phase env ∨ AnsweredBy inst c.t phase c.ids view env := by
  have hdeal := (DkgInstance.startCommittee_triple (F := F) (G := G) Nat.zero_lt_one c sid tag me rng hrng).2
  unfold jointVssRun
  rw [Committee.new_self c hmaj, lift_bind_run]
  simp only
  rw [draw_bind_run]
  cases hstart : (DkgInstance.startCommittee (F := F) (G := G) c sid tag me 0 rng).1 with
  | error e => rw [hstart] at hdeal; exact hdeal.elim
  | ok started =>
    obtain ⟨inst, b1⟩ := started
    rw [hstart] at hdeal
    change inst.Honest c sid tag ∧ inst.me = me ∧ b1 = inst.commitOf at hdeal
    obtain ⟨hinst, rfl, rfl⟩ := hdeal
    simp only
    rw [send_bind_run, hinst.reveal, lift_bind_run]
    simp only
    rw [send_bind_run, bind_run, forM_send_run]
    simp only
    have htail := vssAfterDealing_run inst c.t phase c.ids view
    rw [hinst.sid, hinst.tag] at htail
    obtain ⟨sent, hrun, hsent⟩ := htail _
    rw [hrun]
    refine ⟨inst, hinst, rfl, rfl, fun env henv => ?_⟩
    unfold DealtBy
    rw [hinst.sid]
    simp only [List.nil_append, List.mem_append, List.mem_singleton, List.mem_map] at henv
    rcases henv with ((rfl | rfl) | ⟨m, ⟨j, -, rfl⟩, rfl⟩) | henv
    · exact Or.inl (Or.inl rfl)
    · exact Or.inl (Or.inr (Or.inl rfl))
    · exact Or.inl (Or.inr (Or.inr ⟨j, rfl⟩))
    · exact Or.inr (hsent env henv)

end OhmEcdsa
