import OhmEcdsa.Node.Payload

/-!
# Rounds on a node (`party.rs`): accepted sets and the complaint subprotocol

A driver hands envelopes to the mesh and reads, round by round, the sets its
acceptor accepted.  Its views are arguments here; what it sends is its state.

The complaint round ends as its accepted sets say, alike at every node with the
same sets, whatever the node itself complains about or answers:

    (complaintRound me … complaints defenseFor …).1 = complaintVerdict …    (complaintRound_outcome)
-/

set_option linter.unusedSectionVars false

namespace OhmEcdsa

open Hoare

variable {F G : Type} [Field F] [DecidableEq F] [AddCommGroup G] [Module F G] [DecidableEq G] [K256 F G]

/-- A driver's generator and what it handed to the mesh. -/
structure Driver (F G : Type) where
  rng : Rngs F
  sent : List (Envelope (NodePayload F G))

abbrev NodeM (F G α : Type) := ExceptT Fault (StateM (Driver F G)) α

/-! ## Algorithm -/

def send (env : Envelope (NodePayload F G)) : NodeM F G Unit :=
  modify fun d => { d with sent := d.sent ++ [env] }

def draw {α : Type} (m : RngM F α) : NodeM F G α := fun d =>
  ((m d.rng).1, { d with rng := (m d.rng).2 })

/-- The accepted set over the committee: values of other senders are left out. -/
def acceptedOver (ids : List PartyId) (set : AcceptedSet F G) : AcceptedSet F G :=
  set.filter fun f _ => ids.contains f

def incomplete : Fault := .error (.invalidParams "incomplete message sets")

/-- The loops over an accepted set: the first payload `pick` refuses ends the session. -/
def parseSet {α : Type} (phase : Phase) (detail : String) (pick : PartyId → NodePayload F G → Option α)
    (set : AcceptedSet F G) : Outcome (List (PartyId × α)) :=
  set.toList.mapM fun e =>
    match pick e.1 e.2 with
    | some a => .ok (e.1, a)
    | none => .error (abort phase [e.1] detail)

def asComplaints (_ : PartyId) : NodePayload F G → Option (List PartyId)
  | .complaints dealers => some dealers
  | _ => none

/-- The least accuser with a complaint, and its least dealer. -/
def firstComplaint (lists : List (PartyId × List PartyId)) : Option (PartyId × PartyId) :=
  lists.findSome? fun e => e.2.min?.map fun d => (e.1, d)

/-- A verifying defense blames the accuser, a missing or failing one the dealer. -/
def adjudicate (phase : Phase) (defenseVerifies : PartyId → PartyId → F → Outcome Bool)
    (lists : List (PartyId × List PartyId)) (defenseSets : AcceptedSet F G) : Outcome Unit :=
  match firstComplaint lists with
  | none => .ok ()
  | some (a, d) => do
    let payload ← index defenseSets d
    match payload with
    | .defenses defs =>
      match defs.find? (·.1 == a) with
      | none => .error (abort phase [d] ("dealer " ++ toString d ++ " broadcast no defense against " ++
          toString a ++ "'s complaint"))
      | some (_, share) =>
        if (← defenseVerifies d a share) then
          .error (abort phase [a] ("false accusation: dealer " ++ toString d ++
            "'s defense share verifies against its commitment"))
        else
          .error (abort phase [d] ("dealer " ++ toString d ++
            "'s defense share fails verification against its commitment"))
    | _ => .error (abort phase [d] "malformed defense broadcast")

/-- The complaint subprotocol: broadcast `complaints`, answer those naming `me`,
adjudicate the first. -/
def complaintRound (me : PartyId) (sid : Bytes) (phase : Phase) (rounds : Nat × Nat) (ids : List PartyId)
    (complaints : List PartyId) (defenseFor : PartyId → F)
    (defenseVerifies : PartyId → PartyId → F → Outcome Bool)
    (complaintView defenseView : AcceptedSet F G) : NodeM F G Unit := do
  send (Envelope.broadcast sid phase rounds.1 me (.complaints complaints))
  let complaintSets := acceptedOver ids complaintView
  if complaintSets.size ≠ ids.length then throw incomplete
  else do
    let lists ← lift (parseSet phase "malformed complaint broadcast" asComplaints complaintSets)
    let defenses := (lists.filter fun e => e.2.contains me).map fun e => (e.1, defenseFor e.1)
    send (Envelope.broadcast sid phase rounds.2 me (.defenses defenses))
    let defenseSets := acceptedOver ids defenseView
    if defenseSets.size ≠ ids.length then throw incomplete
    else lift (adjudicate phase defenseVerifies lists defenseSets)

/-! ## Lemmas: steps -/

theorem send_bind_run {α : Type} (env : Envelope (NodePayload F G)) (f : Unit → NodeM F G α) (s : Driver F G) :
    (send env >>= f) s = f () { s with sent := s.sent ++ [env] } := rfl

theorem forM_send_run {α : Type} (l : List α) (env : α → Envelope (NodePayload F G)) (s : Driver F G) :
    l.forM (fun a => send (env a)) s = (.ok (), { s with sent := s.sent ++ l.map env }) := by
  induction l generalizing s with
  | nil => simp [pure, ExceptT.pure, ExceptT.mk, StateT.pure]
  | cons a l ih =>
    show (send (env a) >>= fun _ => l.forM fun a => send (env a)) s = _
    rw [send_bind_run, ih, List.map_cons, List.append_assoc]
    rfl

theorem draw_bind_run {α β : Type} (m : RngM F α) (f : α → NodeM F G β) (s : Driver F G) :
    (draw m >>= f) s = match (m s.rng).1 with
      | .ok a => f a { s with rng := (m s.rng).2 }
      | .error e => (.error e, { s with rng := (m s.rng).2 }) := by
  rw [bind_run]
  unfold draw
  cases (m s.rng).1 <;> rfl

/-! ## Lemmas: what a node sends -/

/-- Everything the node sent has `P`. -/
def Driver.AllSent (P : Envelope (NodePayload F G) → Prop) (d : Driver F G) : Prop := ∀ env ∈ d.sent, P env

section AllSent

variable {P : Envelope (NodePayload F G) → Prop}

theorem send_allSent {env : Envelope (NodePayload F G)} (h : P env) :
    Triple (Driver.AllSent P) (send env) (fun _ => True) (fun _ => True) := by
  intro d hd
  refine ⟨fun e he => ?_, trivial⟩
  rcases List.mem_append.mp he with he | he
  · exact hd e he
  · rw [List.mem_singleton.mp he]
    exact h

theorem draw_allSent {α : Type} (m : RngM F α) :
    Triple (Driver.AllSent P) (draw m) (fun _ => True) (fun _ => True) := by
  intro d hd
  refine ⟨hd, ?_⟩
  split <;> trivial

theorem step_allSent {α : Type} (x : Outcome α) :
    Triple (Driver.AllSent P) (lift x) (fun _ => True) (fun _ => True) :=
  Triple.lift (fun _ _ => trivial) fun _ _ => trivial

theorem forM_allSent {α : Type} (l : List α) {env : α → Envelope (NodePayload F G)} (h : ∀ a ∈ l, P (env a)) :
    Triple (Driver.AllSent P) (l.forM fun a => send (env a)) (fun _ => True) (fun _ => True) := by
  intro d hd
  rw [forM_send_run]
  refine ⟨fun e he => ?_, trivial⟩
  rcases List.mem_append.mp he with he | he
  · exact hd e he
  · obtain ⟨a, ha, rfl⟩ := List.mem_map.mp he
    exact h a ha

end AllSent

/-! ## Lemmas: accepted sets -/

theorem acceptedOver_getElem? (ids : List PartyId) (set : AcceptedSet F G) (f : PartyId) :
    (acceptedOver ids set)[f]? = if f ∈ ids then set[f]? else none := by
  unfold acceptedOver
  rw [Std.ExtTreeMap.getElem?_filter']
  by_cases h : f ∈ ids <;> cases hs : set[f]? <;> simp [h]

theorem mem_acceptedOver {ids : List PartyId} {set : AcceptedSet F G} {e : PartyId × NodePayload F G} :
    e ∈ (acceptedOver ids set).toList ↔ e.1 ∈ ids ∧ set[e.1]? = some e.2 := by
  obtain ⟨f, p⟩ := e
  rw [Std.ExtTreeMap.mem_toList_iff_getElem?_eq_some, acceptedOver_getElem?]
  by_cases h : f ∈ ids <;> simp [h]

/-- The set has a value of every member. -/
def Complete (ids : List PartyId) (set : AcceptedSet F G) : Prop := (acceptedOver ids set).size = ids.length

instance (ids : List PartyId) (set : AcceptedSet F G) : Decidable (Complete ids set) :=
  inferInstanceAs (Decidable (_ = _))

theorem Complete.getElem? {ids : List PartyId} {set : AcceptedSet F G}
    (h : Complete ids set) {f : PartyId} (hf : f ∈ ids) : ∃ p, set[f]? = some p := by
  have hsub : (acceptedOver ids set).toList.map (·.1) ⊆ ids := by
    intro g hg
    obtain ⟨e, he, rfl⟩ := List.mem_map.mp hg
    exact (mem_acceptedOver.mp he).1
  have hperm : ((acceptedOver ids set).toList.map (·.1)).Perm ids := by
    refine (List.subperm_of_subset (nodup_keys_toList _) hsub).perm_of_length_le ?_
    rw [List.length_map, Std.ExtTreeMap.length_toList, h]
  obtain ⟨e, he, rfl⟩ := List.mem_map.mp (hperm.mem_iff.mpr hf)
  exact ⟨e.2, (mem_acceptedOver.mp he).2⟩

section ParseSet

variable {α : Type} {phase : Phase} {detail : String} {pick : PartyId → NodePayload F G → Option α}

/-- The least sender whose payload `pick` refuses. -/
def firstMalformed (pick : PartyId → NodePayload F G → Option α) (set : AcceptedSet F G) : Option PartyId :=
  (set.toList.find? fun e => (pick e.1 e.2).isNone).map (·.1)

theorem parseSet_eq (set : AcceptedSet F G) :
    parseSet phase detail pick set =
      match firstMalformed pick set with
      | some f => .error (abort phase [f] detail)
      | none => .ok (set.toList.filterMap fun e => (pick e.1 e.2).map fun a => (e.1, a)) := by
  unfold parseSet firstMalformed
  generalize set.toList = l
  induction l with
  | nil => rfl
  | cons e l ih =>
    rw [List.mapM_cons, List.find?_cons, List.filterMap_cons]
    cases hp : pick e.1 e.2 with
    | none => rfl
    | some a =>
      rw [ih]
      simp only [bind, Except.bind, Option.isNone_some, Option.map_some]
      cases l.find? fun e => (pick e.1 e.2).isNone <;> rfl

theorem firstMalformed_some {set : AcceptedSet F G} {ids : List PartyId} {f : PartyId}
    (h : firstMalformed pick (acceptedOver ids set) = some f) :
    f ∈ ids ∧ ∃ p, set[f]? = some p ∧ pick f p = none := by
  obtain ⟨e, he, rfl⟩ := Option.map_eq_some_iff.mp h
  obtain ⟨hmem, hp⟩ := mem_acceptedOver.mp (List.mem_of_find?_eq_some he)
  have := List.find?_some he
  exact ⟨hmem, e.2, hp, by simpa using this⟩

theorem firstMalformed_none {set : AcceptedSet F G} {ids : List PartyId}
    (h : firstMalformed pick (acceptedOver ids set) = none) {f : PartyId} (hf : f ∈ ids) {p : NodePayload F G}
    (hp : set[f]? = some p) : ∃ a, pick f p = some a := by
  have hnone := List.find?_eq_none.mp (Option.map_eq_none_iff.mp h) (f, p) (mem_acceptedOver.mpr ⟨hf, hp⟩)
  exact Option.ne_none_iff_exists'.mp (by simpa using hnone)

theorem parsed_keys_nodup (set : AcceptedSet F G) :
    ((set.toList.filterMap fun e => (pick e.1 e.2).map fun a => (e.1, a)).map (·.1)).Nodup := by
  have hsub : ∀ l : List (PartyId × NodePayload F G),
      ((l.filterMap fun e => (pick e.1 e.2).map fun a => (e.1, a)).map (·.1)).Sublist (l.map (·.1)) := by
    intro l
    induction l with
    | nil => exact List.Sublist.refl _
    | cons e l ih =>
      rw [List.filterMap_cons]
      cases pick e.1 e.2 with
      | none => exact ih.cons _
      | some a => exact ih.cons_cons _
  exact (nodup_keys_toList set).sublist (hsub _)

/-- The parsed map has what `pick` reads off each member's payload. -/
theorem parsed_getElem? {set : AcceptedSet F G} {ids : List PartyId} {f : PartyId} (hf : f ∈ ids)
    {p : NodePayload F G} (hp : set[f]? = some p) {a : α} (ha : pick f p = some a) :
    (collect ((acceptedOver ids set).toList.filterMap fun e => (pick e.1 e.2).map fun a => (e.1, a)))[f]? =
      some a := by
  refine collect_getElem? _ (parsed_keys_nodup _) (List.mem_filterMap.mpr ⟨(f, p), ?_, ?_⟩)
  · exact mem_acceptedOver.mpr ⟨hf, hp⟩
  · simp only [ha, Option.map_some]

end ParseSet

/-! ## Lemmas: the complaint round -/

/-- Every member's complaint list, when all were broadcast and well formed. -/
def complaintLists (ids : List PartyId) (complaintView : AcceptedSet F G) : List (PartyId × List PartyId) :=
  (acceptedOver ids complaintView).toList.filterMap fun e => (asComplaints e.1 e.2).map fun list => (e.1, list)

theorem mem_complaintLists {ids : List PartyId} {complaintView : AcceptedSet F G} {a : PartyId}
    {list : List PartyId} :
    (a, list) ∈ complaintLists ids complaintView ↔ a ∈ ids ∧ complaintView[a]? = some (.complaints list) := by
  unfold complaintLists
  rw [List.mem_filterMap]
  constructor
  · rintro ⟨⟨f, p⟩, he, hl⟩
    obtain ⟨hf, hp⟩ := mem_acceptedOver.mp he
    cases p with
    | complaints dealers =>
      simp only [asComplaints, Option.map_some, Option.some.injEq, Prod.mk.injEq] at hl
      obtain ⟨rfl, rfl⟩ := hl
      exact ⟨hf, hp⟩
    | _ => cases hl
  · rintro ⟨ha, hp⟩
    exact ⟨(a, .complaints list), mem_acceptedOver.mpr ⟨ha, hp⟩, rfl⟩

/-- How the complaint round ends, from its accepted sets. -/
def complaintVerdict (phase : Phase) (ids : List PartyId)
    (defenseVerifies : PartyId → PartyId → F → Outcome Bool) (complaintView defenseView : AcceptedSet F G) :
    Outcome Unit :=
  if ¬ Complete ids complaintView then .error incomplete
  else match firstMalformed asComplaints (acceptedOver ids complaintView) with
    | some f => .error (abort phase [f] "malformed complaint broadcast")
    | none =>
      if ¬ Complete ids defenseView then .error incomplete
      else adjudicate phase defenseVerifies (complaintLists ids complaintView) (acceptedOver ids defenseView)

section ComplaintRound

variable (me : PartyId) (sid : Bytes) (phase : Phase) (rounds : Nat × Nat) (ids complaints : List PartyId)
  (defenseFor : PartyId → F) (defenseVerifies : PartyId → PartyId → F → Outcome Bool)
  (complaintView defenseView : AcceptedSet F G)

/-- The defenses `me` broadcasts. -/
def answers : List (PartyId × F) :=
  ((complaintLists ids complaintView).filter fun e => e.2.contains me).map fun e => (e.1, defenseFor e.1)

/-- **The verdict is the accepted sets' alone**; the node's own lists only go out. -/
theorem complaintRound_run (s : Driver F G) :
    ∃ sent, complaintRound me sid phase rounds ids complaints defenseFor defenseVerifies complaintView
        defenseView s = (complaintVerdict phase ids defenseVerifies complaintView defenseView,
          { s with sent := s.sent ++ sent }) ∧
      ∀ env ∈ sent, env = Envelope.broadcast sid phase rounds.1 me (.complaints complaints) ∨
        Complete ids complaintView ∧ firstMalformed asComplaints (acceptedOver ids complaintView) = none ∧
          env = Envelope.broadcast sid phase rounds.2 me (.defenses (answers me ids defenseFor complaintView)) := by
  unfold complaintRound complaintVerdict
  rw [send_bind_run]
  by_cases hK : Complete ids complaintView
  · have hsize : ¬ (acceptedOver ids complaintView).size ≠ ids.length := not_not.mpr hK
    rw [if_neg hsize, if_neg (not_not.mpr hK), lift_bind_run, parseSet_eq]
    cases hm : firstMalformed asComplaints (acceptedOver ids complaintView) with
    | some f => exact ⟨[_], rfl, fun env henv => Or.inl (List.mem_singleton.mp henv)⟩
    | none =>
      simp only
      rw [send_bind_run]
      refine ⟨[Envelope.broadcast sid phase rounds.1 me (.complaints complaints),
        Envelope.broadcast sid phase rounds.2 me (.defenses (answers me ids defenseFor complaintView))],
        ?_, fun env henv => ?_⟩
      · by_cases hD : Complete ids defenseView
        · have hsize : ¬ (acceptedOver ids defenseView).size ≠ ids.length := not_not.mpr hD
          rw [if_neg hsize, if_neg (not_not.mpr hD), List.append_assoc]
          rfl
        · have hsize : (acceptedOver ids defenseView).size ≠ ids.length := hD
          rw [if_pos hsize, if_pos hD, List.append_assoc]
          rfl
      · rcases List.mem_pair.mp henv with rfl | rfl
        · exact Or.inl rfl
        · exact Or.inr ⟨hK, trivial, rfl⟩
  · have hsize : (acceptedOver ids complaintView).size ≠ ids.length := hK
    rw [if_pos hsize, if_pos hK]
    exact ⟨[_], rfl, fun env henv => Or.inl (List.mem_singleton.mp henv)⟩

end ComplaintRound

theorem mem_of_firstComplaint {lists : List (PartyId × List PartyId)} {a d : PartyId}
    (h : firstComplaint lists = some (a, d)) : ∃ list, (a, list) ∈ lists ∧ d ∈ list := by
  obtain ⟨⟨f, list⟩, hmem, hd⟩ := List.exists_of_findSome?_eq_some h
  obtain ⟨d', hmin, hpair⟩ := Option.map_eq_some_iff.mp hd
  cases hpair
  exact ⟨list, hmem, List.min?_mem hmin⟩

/-- The defense `d` published against `a`. -/
def defenseAgainst (defenseSets : AcceptedSet F G) (d a : PartyId) : Option F :=
  match defenseSets[d]? with
  | some (.defenses defs) => (defs.find? (·.1 == a)).map (·.2)
  | _ => none

/-- **A verdict** blames the accuser when the dealer's defense verifies, else the dealer. -/
theorem adjudicate_eq (phase : Phase) (defenseVerifies : PartyId → PartyId → F → Outcome Bool)
    {lists : List (PartyId × List PartyId)} {defenseSets : AcceptedSet F G} {a d : PartyId}
    (h : firstComplaint lists = some (a, d)) (hd : ∃ p, defenseSets[d]? = some p)
    (verifies : F → Bool) (hv : ∀ s, defenseVerifies d a s = .ok (verifies s)) :
    ∃ detail, adjudicate phase defenseVerifies lists defenseSets =
      .error (abort phase [if (defenseAgainst defenseSets d a).any verifies then a else d] detail) := by
  obtain ⟨p, hp⟩ := hd
  unfold adjudicate defenseAgainst index
  rw [h]
  simp only [hp, bind, Except.bind]
  cases p with
  | defenses defs =>
    simp only
    rcases Option.eq_none_or_eq_some (defs.find? (·.1 == a)) with hf | ⟨e, hf⟩
    · simp only [hf]
      exact ⟨_, rfl⟩
    · simp only [hf, hv, Option.map_some, Option.any_some]
      cases hver : verifies e.2 with
      | true => exact ⟨_, rfl⟩
      | false => exact ⟨_, rfl⟩
  | _ => exact ⟨_, rfl⟩

/-- Only what is said of members matters. -/
theorem adjudicate_congr {phase : Phase} {ids : List PartyId}
    {v v' : PartyId → PartyId → F → Outcome Bool} (h : ∀ d ∈ ids, v d = v' d)
    (lists : List (PartyId × List PartyId)) (defenseView : AcceptedSet F G) :
    adjudicate phase v lists (acceptedOver ids defenseView) =
      adjudicate phase v' lists (acceptedOver ids defenseView) := by
  unfold adjudicate index
  rcases firstComplaint lists with _ | ⟨a, d⟩
  · rfl
  · simp only [acceptedOver_getElem?]
    by_cases hd : d ∈ ids
    · rw [h d hd]
    · simp only [if_neg hd]
      rfl

end OhmEcdsa
