import OhmEcdsa.Node.TripleChecks

/-!
# Public reconstruction of bad re-shares (`party.rs`: `triple_robust_run`)

A request carries the dealer's signed re-share as evidence.  Its verdict reads the
registry under the dealer id the requester chose, and the supplies are interpolated as
values of a polynomial of degree below `t`, which the dealer's vector need not commit to:

    run.Settled ↔ run.Answered ∧ run.Interpolated      (reconstruction_settled_iff)
-/

set_option linter.unusedSectionVars false

namespace OhmEcdsa

open FeldmanCommitment Hoare Polynomial

variable {F G K : Type} [Field F] [DecidableEq F] [AddCommGroup G] [Module F G] [DecidableEq G] [K256 F G]

/-- `triple_robust_run` from its requests on. -/
def afterProofs (w : Wire F G K) (registry : PartyMap K) (me : PartyId) (t : Usize) (sid : Bytes)
    (ids : List PartyId) (alpha beta : KeyShare F G) (t2 : TripleT2 F G) (view : TripleView F G) :
    NodeM F G (TripleShare F × TriplePublic G × List PartyId) := do
  let bad ← lift (badReshares me ids t2)
  let requests ← lift (bad.mapM fun i => do
    let env ← index t2.reshEnvs i
    return (i, env))
  send (Envelope.broadcast sid .triples TR_ROUND_RECON_REQ me (.reshareRequests requests))
  let reqSets := acceptedOver ids view.requests
  if reqSets.size ≠ ids.length then throw incomplete
  else do
    let reconstruct ← lift (reqSets.toList.foldlM (checkRequests w registry sid t2.deals) ∅)
    let blamed := reconstruct.sort (· ≤ ·)
    let mine ← (if blamed = [] then pure t2.mine else supplyRound me t sid ids blamed t2 view.supplies :
      NodeM F G (PartyMap F))
    let (share, pub) ← lift (tripleCombine me ids alpha beta t2.deals mine)
    return (share, pub, blamed)

theorem tripleRobustRun_eq (w : Wire F G K) (registry : PartyMap K) (me : PartyId) (t : Usize) (sid : Bytes)
    (ids : List PartyId) (view : TripleView F G) :
    tripleRobustRun w registry me t sid ids view = (do
      let (alpha, beta, t2) ← tripleT1T2 me t sid ids view
      lift (tripleCheckProofs sid ids t2.deals alpha.com beta.com)
      afterProofs w registry me t sid ids alpha beta t2 view) := rfl

/-! ## The requests -/

section Requests

variable (w : Wire F G K) (registry : PartyMap K) (sid : Bytes) (deals : PartyMap (TripleDealMsg F G))

/-- The evidence claims to be dealer `d`'s re-share to `v` in this session. -/
def claimsReshare (sid : Bytes) (v d : PartyId) (env : Envelope (NodePayload F G)) : Option F :=
  if env.sender = d ∧ env.addressee = some v ∧ env.sid = sid ∧ env.phase = .triples ∧ env.round = TR_ROUND_DEAL then
    asReshare d env.payload
  else none

/-- It is signed under the dealer's registered key. -/
def signedReshare (d : PartyId) (evidence : SignedEnvelope (NodePayload F G)) : Bool :=
  (registry[d]?).any (evidence.verifySignature w w.node)

/-- **A genuine request** of `v`: dealer `r.1`'s signed re-share to `v` fails its commitment. -/
def genuine (v : PartyId) (r : PartyId × SignedEnvelope (NodePayload F G)) : Bool :=
  match claimsReshare sid v r.1 r.2.envelope, deals[r.1]? with
  | some s, some d => signedReshare w registry r.1 r.2 && !d.com.verifyShare v s
  | _, _ => false

/-- The entries the verdict on a request reads are there. -/
def answerable (v : PartyId) (r : PartyId × SignedEnvelope (NodePayload F G)) : Bool :=
  (claimsReshare sid v r.1 r.2.envelope).isNone ||
    registry.contains r.1 && (!signedReshare w registry r.1 r.2 || deals.contains r.1)

/-- A member's broadcast is no request list, or has a request that is not genuine. -/
def refused (e : PartyId × NodePayload F G) : Bool :=
  match asReshareRequests e.1 e.2 with
  | none => true
  | some requests => requests.any fun r => !genuine w registry sid deals e.1 r

/-- The first request of the list that is not genuine has an answer. -/
def answered (e : PartyId × NodePayload F G) : Bool :=
  match asReshareRequests e.1 e.2 with
  | none => true
  | some requests =>
    ((requests.find? fun r => !genuine w registry sid deals e.1 r).map (answerable w registry sid deals e.1)).getD true

/-- The dealers a member's requests name. -/
def namedBy (reconstruct : Finset PartyId) (e : PartyId × NodePayload F G) : Finset PartyId :=
  ((asReshareRequests e.1 e.2).getD []).foldl (fun reconstruct r => insert r.1 reconstruct) reconstruct

theorem genuineRequest_cases (v : PartyId) (r : PartyId × SignedEnvelope (NodePayload F G)) :
    (answerable w registry sid deals v r = true ∧
      genuineRequest w registry sid deals v r.1 r.2 = .ok (genuine w registry sid deals v r)) ∨
    (answerable w registry sid deals v r = false ∧ genuine w registry sid deals v r = false ∧
      genuineRequest w registry sid deals v r.1 r.2 = .error (.panic "no entry found for key")) := by
  obtain ⟨d, env⟩ := r
  unfold genuineRequest answerable genuine claimsReshare signedReshare
  dsimp only
  by_cases hm : env.envelope.sender = d ∧ env.envelope.addressee = some v ∧ env.envelope.sid = sid ∧
      env.envelope.phase = .triples ∧ env.envelope.round = TR_ROUND_DEAL
  swap
  · rw [if_neg hm, if_neg hm]
    exact Or.inl ⟨rfl, rfl⟩
  rw [if_pos hm, if_pos hm]
  cases hp : env.envelope.payload with
  | reshare s =>
    simp only [asReshare, Option.isNone_some, Bool.false_or]
    by_cases hr : d ∈ registry
    swap
    · have hcontains : registry.contains d = false := Bool.not_eq_true _ ▸ hr
      rw [index_none hr, hcontains, Std.ExtTreeMap.getElem?_eq_none hr]
      refine Or.inr ⟨rfl, ?_, rfl⟩
      cases deals[d]? <;> rfl
    obtain ⟨key, hkey⟩ := getElem?_of_mem hr
    have hcontains : registry.contains d = true := hr
    rw [index_some hkey, hcontains, hkey]
    simp only [bind, Except.bind, Option.any_some, Bool.true_and]
    cases hv : env.verifySignature w w.node key with
    | false =>
      refine Or.inl ⟨rfl, ?_⟩
      cases deals[d]? <;> rfl
    | true =>
      by_cases hd : d ∈ deals
      · obtain ⟨deal, hdeal⟩ := getElem?_of_mem hd
        have hcontains : deals.contains d = true := hd
        rw [index_some hdeal, hcontains, hdeal]
        exact Or.inl ⟨rfl, rfl⟩
      · have hcontains : deals.contains d = false := Bool.not_eq_true _ ▸ hd
        rw [index_none hd, hcontains, Std.ExtTreeMap.getElem?_eq_none hd]
        exact Or.inr ⟨rfl, rfl, rfl⟩
  | _ =>
    refine Or.inl ⟨rfl, ?_⟩
    simp only [asReshare]
    rfl

/-- One request of `v`. -/
def checkRequest (v : PartyId) (reconstruct : Finset PartyId) (r : PartyId × SignedEnvelope (NodePayload F G)) :
    Outcome (Finset PartyId) := do
  if (← genuineRequest w registry sid deals v r.1 r.2) then return insert r.1 reconstruct
  else throw (abort .triples [v] ("false accusation: " ++ toString v ++
    "'s reconstruction request against dealer " ++ toString r.1 ++ " does not hold up"))

theorem checkRequest_cases (v : PartyId) (r : PartyId × SignedEnvelope (NodePayload F G)) :
    (genuine w registry sid deals v r = true ∧
      ∀ reconstruct, checkRequest w registry sid deals v reconstruct r = .ok (insert r.1 reconstruct)) ∨
    (genuine w registry sid deals v r = false ∧
      ((answerable w registry sid deals v r = true ∧ ∃ detail,
        ∀ reconstruct, checkRequest w registry sid deals v reconstruct r = .error (abort .triples [v] detail)) ∨
      (answerable w registry sid deals v r = false ∧
        ∀ reconstruct, checkRequest w registry sid deals v reconstruct r =
          .error (.panic "no entry found for key")))) := by
  unfold checkRequest
  rcases genuineRequest_cases w registry sid deals v r with ⟨hans, hrun⟩ | ⟨hans, hgen, hrun⟩
  · rw [hrun, hans]
    cases hgen : genuine w registry sid deals v r with
    | true => exact Or.inl ⟨rfl, fun _ => rfl⟩
    | false => exact Or.inr ⟨rfl, Or.inl ⟨rfl, _, fun _ => rfl⟩⟩
  · rw [hrun, hans, hgen]
    exact Or.inr ⟨rfl, Or.inr ⟨rfl, fun _ => rfl⟩⟩

/-- **One member's requests.** -/
theorem checkRequests_cases (e : PartyId × NodePayload F G) :
    (refused w registry sid deals e = false ∧
      ∀ reconstruct, checkRequests w registry sid deals reconstruct e = .ok (namedBy reconstruct e)) ∨
    (refused w registry sid deals e = true ∧
      ((answered w registry sid deals e = true ∧ ∃ detail,
        ∀ reconstruct, checkRequests w registry sid deals reconstruct e = .error (abort .triples [e.1] detail)) ∨
      (answered w registry sid deals e = false ∧
        ∀ reconstruct, checkRequests w registry sid deals reconstruct e = .error (.panic "no entry found for key")))) := by
  unfold checkRequests refused answered namedBy
  cases hr : asReshareRequests e.1 e.2 with
  | none => exact Or.inr ⟨rfl, Or.inl ⟨rfl, _, fun _ => rfl⟩⟩
  | some requests =>
    simp only [Option.getD_some]
    rcases foldlM_find (checkRequest w registry sid deals e.1) (fun reconstruct r => insert r.1 reconstruct)
      (fun r => !genuine w registry sid deals e.1 r) requests
      (fun r _ hr => by
        rcases checkRequest_cases w registry sid deals e.1 r with ⟨-, hok⟩ | ⟨hgen, -⟩
        · exact hok
        · rw [hgen] at hr
          cases hr)
      (fun r _ hr => by
        rcases checkRequest_cases w registry sid deals e.1 r with ⟨hgen, -⟩ | ⟨-, ⟨-, detail, he⟩ | ⟨-, he⟩⟩
        · rw [hgen] at hr
          cases hr
        · exact ⟨_, he⟩
        · exact ⟨_, he⟩) with ⟨r, err, hfind, he, hrun⟩ | ⟨hfind, hrun⟩
    · have hbad := List.find?_some hfind
      refine Or.inr ⟨List.any_eq_true.mpr ⟨r, List.mem_of_find?_eq_some hfind, hbad⟩, ?_⟩
      rw [hfind]
      rcases checkRequest_cases w registry sid deals e.1 r with ⟨hgen, -⟩ | ⟨-, ⟨hans, detail, he'⟩ | ⟨hans, he'⟩⟩
      · rw [hgen] at hbad
        cases hbad
      all_goals
        obtain rfl : err = _ := Except.error.inj ((he ∅).symm.trans (he' ∅))
      · exact Or.inl ⟨hans, detail, hrun⟩
      · exact Or.inr ⟨hans, hrun⟩
    · refine Or.inl ⟨?_, hrun⟩
      rw [List.any_eq_false]
      exact List.find?_eq_none.mp hfind

/-- The verdict over the accepted requests. -/
def verdict (requests : AcceptedSet F G) : Outcome (Finset PartyId) :=
  requests.toList.foldlM (checkRequests w registry sid deals) ∅

/-- The dealers the accepted requests name. -/
def named (requests : AcceptedSet F G) : Finset PartyId := requests.toList.foldl namedBy ∅

theorem mem_namedBy {reconstruct : Finset PartyId} {e : PartyId × NodePayload F G} {d : PartyId} :
    d ∈ namedBy reconstruct e ↔ d ∈ reconstruct ∨ ∃ r ∈ (asReshareRequests e.1 e.2).getD [], r.1 = d := by
  unfold namedBy
  generalize (asReshareRequests e.1 e.2).getD [] = requests
  induction requests generalizing reconstruct with
  | nil => simp
  | cons r requests ih =>
    rw [List.foldl_cons, ih, Finset.mem_insert, eq_comm, List.exists_mem_cons_iff]
    tauto

theorem mem_named {requests : AcceptedSet F G} {d : PartyId} :
    d ∈ named requests ↔ ∃ e ∈ requests.toList, ∃ r ∈ (asReshareRequests e.1 e.2).getD [], r.1 = d := by
  unfold named
  suffices h : ∀ (l : List (PartyId × NodePayload F G)) (reconstruct : Finset PartyId),
      d ∈ l.foldl namedBy reconstruct ↔ d ∈ reconstruct ∨ ∃ e ∈ l, ∃ r ∈ (asReshareRequests e.1 e.2).getD [], r.1 = d by
    simpa using h requests.toList ∅
  intro l
  induction l with
  | nil => simp
  | cons e l ih =>
    intro reconstruct
    rw [List.foldl_cons, ih, mem_namedBy, List.exists_mem_cons_iff, or_assoc]

/-- **The verdict**: the first member that is refused decides. -/
theorem verdict_cases (requests : AcceptedSet F G) :
    (∃ e, requests.toList.find? (refused w registry sid deals) = some e ∧
      ((answered w registry sid deals e = true ∧ ∃ detail,
        verdict w registry sid deals requests = .error (abort .triples [e.1] detail)) ∨
      (answered w registry sid deals e = false ∧ ∃ msg, verdict w registry sid deals requests = .error (.panic msg)))) ∨
    (requests.toList.find? (refused w registry sid deals) = none ∧
      verdict w registry sid deals requests = .ok (named requests)) := by
  unfold verdict named
  rcases foldlM_find (checkRequests w registry sid deals) namedBy (refused w registry sid deals) requests.toList
    (fun e _ he => by
      rcases checkRequests_cases w registry sid deals e with ⟨-, hok⟩ | ⟨hbad, -⟩
      · exact hok
      · rw [hbad] at he
        cases he)
    (fun e _ he => by
      rcases checkRequests_cases w registry sid deals e with ⟨hgood, -⟩ | ⟨-, ⟨-, detail, hrun⟩ | ⟨-, hrun⟩⟩
      · rw [hgood] at he
        cases he
      · exact ⟨_, hrun⟩
      · exact ⟨_, hrun⟩) with ⟨e, err, hfind, he, hrun⟩ | ⟨hfind, hrun⟩
  · refine Or.inl ⟨e, hfind, ?_⟩
    have hbad := List.find?_some hfind
    rcases checkRequests_cases w registry sid deals e with ⟨hgood, -⟩ | ⟨-, ⟨hans, detail, he'⟩ | ⟨hans, he'⟩⟩
    · rw [hgood] at hbad
      cases hbad
    all_goals
      obtain rfl : err = _ := Except.error.inj ((he ∅).symm.trans (he' ∅))
    · exact Or.inl ⟨hans, detail, hrun ∅⟩
    · exact Or.inr ⟨hans, _, hrun ∅⟩
  · exact Or.inr ⟨hfind, hrun ∅⟩

/-- Every request of every member is genuine. -/
theorem verdict_ok {requests : AcceptedSet F G} {reconstruct : Finset PartyId}
    (h : verdict w registry sid deals requests = .ok reconstruct) : reconstruct = named requests ∧
      ∀ e ∈ requests.toList, ∃ list, asReshareRequests e.1 e.2 = some list ∧
        ∀ r ∈ list, genuine w registry sid deals e.1 r = true := by
  rcases verdict_cases w registry sid deals requests with
    ⟨e, -, ⟨-, detail, he⟩ | ⟨-, msg, he⟩⟩ | ⟨hfind, hok⟩
  · rw [he] at h; cases h
  · rw [he] at h; cases h
  · rw [hok] at h
    cases h
    refine ⟨rfl, fun e he => ?_⟩
    have hgood := List.find?_eq_none.mp hfind e he
    unfold refused at hgood
    cases hr : asReshareRequests e.1 e.2 with
    | none => rw [hr] at hgood; exact absurd rfl hgood
    | some list =>
      rw [hr] at hgood
      refine ⟨list, rfl, fun r hmem => ?_⟩
      by_contra hno
      exact hgood (List.any_eq_true.mpr ⟨r, hmem, by simpa using hno⟩)

/-- What a genuine request proves. -/
theorem of_genuine {v : PartyId} {r : PartyId × SignedEnvelope (NodePayload F G)}
    (h : genuine w registry sid deals v r = true) : ∃ s d, claimsReshare sid v r.1 r.2.envelope = some s ∧
      deals[r.1]? = some d ∧ signedReshare w registry r.1 r.2 = true ∧ d.com.verifyShare v s = false := by
  unfold genuine at h
  split at h
  · next s d hs hd =>
    rw [Bool.and_eq_true, Bool.not_eq_true'] at h
    exact ⟨s, d, hs, hd, h⟩
  · cases h

/-- A dealer that is reconstructed is named in a genuine request. -/
theorem genuine_of_verdict {requests : AcceptedSet F G} {reconstruct : Finset PartyId}
    (h : verdict w registry sid deals requests = .ok reconstruct) {d : PartyId} (hd : d ∈ reconstruct) :
    ∃ e ∈ requests.toList, ∃ list, asReshareRequests e.1 e.2 = some list ∧
      ∃ r ∈ list, r.1 = d ∧ genuine w registry sid deals e.1 r = true := by
  obtain ⟨rfl, hall⟩ := verdict_ok w registry sid deals h
  obtain ⟨e, he, r, hr, rfl⟩ := mem_named.mp hd
  obtain ⟨list, hlist, hgen⟩ := hall e he
  rw [hlist] at hr
  exact ⟨e, he, list, hlist, r, hr, rfl, hgen r hr⟩

end Requests

/-! ## The supplies -/

/-- Dealer `d`'s supplies that verify, by sender. -/
def validSupplies (deals : PartyMap (TripleDealMsg F G)) (supplies : PartyMap (PartyMap F)) (d : PartyId) :
    List (PartyId × F) :=
  match deals[d]?, supplies[d]? with
  | some deal, some shares => shares.toList.filter fun e => deal.com.verifyShare e.1 e.2
  | _, _ => []

/-- The senders whose supplies are interpolated. -/
def suppliers (t : Usize) (deals : PartyMap (TripleDealMsg F G)) (supplies : PartyMap (PartyMap F)) (d : PartyId) :
    List F :=
  ((validSupplies deals supplies d).map fun e => scalarFrom e.1).take t.val

theorem validSupplies_verify {deals : PartyMap (TripleDealMsg F G)} {supplies : PartyMap (PartyMap F)} {d : PartyId}
    {deal : TripleDealMsg F G} (hd : deals[d]? = some deal) {e : PartyId × F} (he : e ∈ validSupplies deals supplies d) :
    deal.com.verifyShare e.1 e.2 = true := by
  unfold validSupplies at he
  rw [hd] at he
  cases hs : supplies[d]? with
  | none => rw [hs] at he; cases he
  | some shares =>
    rw [hs] at he
    exact (List.mem_filter.mp he).2

theorem validSupplies_nodup (deals : PartyMap (TripleDealMsg F G)) (supplies : PartyMap (PartyMap F)) (d : PartyId) :
    ((validSupplies deals supplies d).map (·.1)).Nodup := by
  unfold validSupplies
  split
  · next shares _ _ => exact (nodup_keys_toList _).sublist (List.filter_sublist.map _)
  · exact List.nodup_nil

theorem suppliers_nodup (t : Usize) (deals : PartyMap (TripleDealMsg F G)) (supplies : PartyMap (PartyMap F))
    (d : PartyId) : (suppliers t deals supplies d).Nodup := by
  unfold suppliers
  refine List.Nodup.sublist (List.take_sublist _ _) ?_
  have h := map_scalarFrom_nodup F G (validSupplies_nodup deals supplies d)
  rwa [List.map_map] at h

/-- What member `me` takes for dealer `d`'s share. -/
noncomputable def reconstructed (me : PartyId) (t : Usize) (deals : PartyMap (TripleDealMsg F G))
    (supplies : PartyMap (PartyMap F)) (d : PartyId) : F :=
  match deals[d]? with
  | some deal => (Interpolation.remainder (suppliers t deals supplies d) (deal.com.poly F)).eval (scalarFrom me)
  | none => 0

/-- **One dealer**: too few valid supplies blame it, and else their interpolation replaces its share. -/
theorem reconstructShare_eq (me : PartyId) (t : Usize) {deals : PartyMap (TripleDealMsg F G)}
    {supplies : PartyMap (PartyMap F)} {d : PartyId} {deal : TripleDealMsg F G} (hd : deals[d]? = some deal)
    (hs : d ∈ supplies) (mine : PartyMap F) :
    reconstructShare me t deals supplies mine d =
      if (validSupplies deals supplies d).length < t.val then .error (abort .triples [d]
        "fewer than t valid re-shared shares; committed re-sharing polynomial unrecoverable")
      else .ok (mine.insert d (reconstructed me t deals supplies d)) := by
  obtain ⟨shares, hshares⟩ := getElem?_of_mem hs
  have hvalid : validSupplies deals supplies d = shares.toList.filter fun e => deal.com.verifyShare e.1 e.2 := by
    unfold validSupplies
    rw [hd, hshares]
  have hverify : ∀ e ∈ validSupplies deals supplies d, deal.com.verifyShare e.1 e.2 = true :=
    fun e => validSupplies_verify hd
  have hnodup := suppliers_nodup t deals supplies d
  have hkeys := validSupplies_nodup deals supplies d
  unfold reconstructShare reconstructed
  rw [index_some hshares, index_some hd]
  simp only [bind, Except.bind]
  rw [← hvalid]
  generalize hl : validSupplies deals supplies d = valid at *
  split
  · rfl
  · next ht =>
    have hparties : (((valid.map (·.1)).take t.val).map (scalarFrom : PartyId → F)).Nodup :=
      map_scalarFrom_nodup F G (hkeys.sublist (List.take_sublist _ _))
    have hnodes : suppliers t deals supplies d = ((valid.map (·.1)).take t.val).map scalarFrom := by
      unfold suppliers
      rw [hl, List.map_take, List.map_map]
      rfl
    have hvalues : (valid.map (·.2)).take t.val = ((valid.map (·.1)).take t.val).map fun j =>
        (Interpolation.remainder (suppliers t deals supplies d) (deal.com.poly F)).eval (scalarFrom j) := by
      rw [← List.map_take, ← List.map_take, List.map_map]
      refine List.map_congr_left fun e he => ?_
      have hnode : (scalarFrom e.1 : F) ∈ suppliers t deals supplies d := by
        rw [hnodes, ← List.map_take, List.map_map]
        exact List.mem_map_of_mem he
      rw [Function.comp_apply, Interpolation.eval_remainder _ _ hnode]
      exact ((verifyShare_iff deal.com e.1 e.2).mp (hverify e (List.mem_of_mem_take he))).symm
    have hdeg := Interpolation.degree_remainder_lt _ hnodup (deal.com.poly F)
    have hlen : (suppliers t deals supplies d).length = ((valid.map (·.1)).take t.val).length := by
      rw [hnodes, List.length_map]
    rw [hlen] at hdeg
    rw [hvalues, hd, interpolateAt_eval _ _ hparties _ hdeg]
    rfl

theorem mem_supplied {lists : List (PartyId × List (PartyId × F))} {d : PartyId} :
    d ∈ supplied lists ↔ ∃ e ∈ lists, ∃ s ∈ e.2, s.1 = d := by
  have hinner : ∀ (f : PartyId) (list : List (PartyId × F)) (out : PartyMap (PartyMap F)),
      d ∈ list.foldl (fun out s => out.alter s.1 fun m => some ((m.getD ∅).insert f s.2)) out ↔
        d ∈ out ∨ ∃ s ∈ list, s.1 = d := by
    intro f list
    induction list with
    | nil => simp
    | cons s list ih =>
      intro out
      rw [List.foldl_cons, ih, Std.ExtTreeMap.mem_alter, List.exists_mem_cons_iff]
      by_cases hsd : s.1 = d
      · simp [hsd]
      · rw [if_neg (compare_ne_eq hsd)]
        simp [hsd]
  unfold supplied
  suffices h : ∀ out : PartyMap (PartyMap F), d ∈ lists.foldl (fun out e => e.2.foldl (fun out s =>
      out.alter s.1 fun m => some ((m.getD ∅).insert e.1 s.2)) out) out ↔ d ∈ out ∨ ∃ e ∈ lists, ∃ s ∈ e.2, s.1 = d by
    simpa using h ∅
  induction lists with
  | nil => simp
  | cons e lists ih =>
    intro out
    rw [List.foldl_cons, ih, hinner, List.exists_mem_cons_iff, or_assoc]

/-- **All of them**: the first dealer with too few valid supplies ends the session. -/
theorem reconstructShares_cases (me : PartyId) (t : Usize) {deals : PartyMap (TripleDealMsg F G)}
    {supplies : PartyMap (PartyMap F)} (dealers : List PartyId) (hd : ∀ d ∈ dealers, ∃ deal, deals[d]? = some deal)
    (hs : ∀ d ∈ dealers, d ∈ supplies) (mine : PartyMap F) :
    (∃ d ∈ dealers, (validSupplies deals supplies d).length < t.val ∧ ∃ detail,
      dealers.foldlM (reconstructShare me t deals supplies) mine = .error (abort .triples [d] detail)) ∨
    ((∀ d ∈ dealers, t.val ≤ (validSupplies deals supplies d).length) ∧ ∃ mine',
      dealers.foldlM (reconstructShare me t deals supplies) mine = .ok mine' ∧
      ∀ d, mine'[d]? = if d ∈ dealers then some (reconstructed me t deals supplies d) else mine[d]?) := by
  have hstep : ∀ d ∈ dealers, ∀ mine, reconstructShare me t deals supplies mine d =
      if (validSupplies deals supplies d).length < t.val then .error (abort .triples [d]
        "fewer than t valid re-shared shares; committed re-sharing polynomial unrecoverable")
      else .ok (mine.insert d (reconstructed me t deals supplies d)) := by
    intro d hmem
    obtain ⟨deal, hdeal⟩ := hd d hmem
    exact reconstructShare_eq me t hdeal (hs d hmem)
  rcases foldlM_find (reconstructShare me t deals supplies) (fun mine d => mine.insert d (reconstructed me t deals supplies d))
    (fun d => decide ((validSupplies deals supplies d).length < t.val)) dealers
    (fun d hmem hok mine => by rw [hstep d hmem, if_neg (of_decide_eq_false hok)])
    (fun d hmem hbad => ⟨_, fun mine => by rw [hstep d hmem, if_pos (of_decide_eq_true hbad)]⟩) with
    ⟨d, e, hfind, he, hrun⟩ | ⟨hfind, hrun⟩
  · have hmem := List.mem_of_find?_eq_some hfind
    have hshort : (validSupplies deals supplies d).length < t.val := by
      simpa using List.find?_some hfind
    have hee := he ∅
    rw [hstep d hmem, if_pos hshort] at hee
    exact Or.inl ⟨d, hmem, hshort, _, by rw [hrun mine, ← Except.error.inj hee]⟩
  · refine Or.inr ⟨fun d hmem => ?_, _, hrun mine, ?_⟩
    · have := List.find?_eq_none.mp hfind d hmem
      simpa using this
    · clear hd hs hstep hfind hrun
      intro d
      induction dealers generalizing mine with
      | nil => simp
      | cons d' dealers ih =>
        rw [List.foldl_cons, ih, Std.ExtTreeMap.getElem?_insert]
        by_cases hmem : d ∈ dealers
        · rw [if_pos hmem, if_pos (List.mem_cons_of_mem _ hmem)]
        · rw [if_neg hmem]
          by_cases heq : d' = d
          · subst heq
            simp
          · rw [if_neg (compare_ne_eq heq), if_neg (by simp [hmem, Ne.symm heq])]

/-- The accepted supply lists. -/
def supplyLists (ids : List PartyId) (view : AcceptedSet F G) : List (PartyId × List (PartyId × F)) :=
  (acceptedOver ids view).toList.filterMap fun e => (asReshareSupply e.1 e.2).map fun list => (e.1, list)

/-- How the supply round ends. -/
def supplyEnd (me : PartyId) (t : Usize) (ids dealers : List PartyId) (t2 : TripleT2 F G) (view : AcceptedSet F G) :
    Outcome (PartyMap F) :=
  if ¬ Complete ids view then .error incomplete
  else do
    let lists ← parseSet .triples "malformed reconstruction supply broadcast" asReshareSupply (acceptedOver ids view)
    dealers.foldlM (reconstructShare me t t2.deals (supplied lists)) t2.mine

theorem supplyRound_run (me : PartyId) (t : Usize) (sid : Bytes) (ids dealers : List PartyId) (t2 : TripleT2 F G)
    (view : AcceptedSet F G) (hmine : ∀ d ∈ dealers, ∃ s, t2.mine[d]? = some s) (s : Driver F G) :
    ∃ list : List (PartyId × F), (∀ d ∈ dealers, ∃ e ∈ list, e.1 = d) ∧
      supplyRound me t sid ids dealers t2 view s = (supplyEnd me t ids dealers t2 view, { s with sent := s.sent ++
        [Envelope.broadcast sid .triples TR_ROUND_RECON_SUPPLY me (.reshareSupply list)] }) := by
  obtain ⟨list, hlist⟩ := mapM_exists_ok (fun d => do
      let s ← index t2.mine d
      return (d, s) : PartyId → Outcome (PartyId × F)) dealers fun d hd => by
    obtain ⟨x, hx⟩ := hmine d hd
    exact ⟨(d, x), by rw [index_some hx]; rfl⟩
  refine ⟨list, fun d hd => ?_, ?_⟩
  · obtain ⟨e, he, hde⟩ := forall₂_exists_left (forall₂_of_mapM_ok _ _ hlist).flip hd
    obtain ⟨x, hx⟩ := hmine d hd
    rw [index_some hx] at hde
    exact ⟨e, he, (congrArg Prod.fst (Except.ok.inj hde)).symm⟩
  · unfold supplyRound supplyEnd
    rw [lift_bind_run, hlist]
    simp only
    rw [send_bind_run]
    by_cases hS : Complete ids view
    · have hsize : ¬ (acceptedOver ids view).size ≠ ids.length := not_not.mpr hS
      rw [if_neg hsize, if_neg (not_not.mpr hS), lift_bind_run]
      cases parseSet .triples "malformed reconstruction supply broadcast" asReshareSupply (acceptedOver ids view) <;> rfl
    · have hsize : (acceptedOver ids view).size ≠ ids.length := hS
      rw [if_pos hsize, if_pos hS]
      rfl

/-- **The supply round**: it fails closed, blames one party, or replaces the dealers' shares. -/
theorem supplyEnd_cases (me : PartyId) (t : Usize) {ids dealers : List PartyId} {t2 : TripleT2 F G}
    (view : AcceptedSet F G) (hd : ∀ d ∈ dealers, ∃ deal, t2.deals[d]? = some deal)
    (hs : Complete ids view → firstMalformed asReshareSupply (acceptedOver ids view) = none →
      ∀ d ∈ dealers, d ∈ supplied (supplyLists ids view)) :
    (¬ Complete ids view ∧ supplyEnd me t ids dealers t2 view = .error incomplete) ∨
    (Complete ids view ∧
      ((∃ f, firstMalformed asReshareSupply (acceptedOver ids view) = some f ∧ ∃ detail,
        supplyEnd me t ids dealers t2 view = .error (abort .triples [f] detail)) ∨
      (firstMalformed asReshareSupply (acceptedOver ids view) = none ∧
        ((∃ d ∈ dealers, (validSupplies t2.deals (supplied (supplyLists ids view)) d).length < t.val ∧ ∃ detail,
          supplyEnd me t ids dealers t2 view = .error (abort .triples [d] detail)) ∨
        ((∀ d ∈ dealers, t.val ≤ (validSupplies t2.deals (supplied (supplyLists ids view)) d).length) ∧ ∃ mine,
          supplyEnd me t ids dealers t2 view = .ok mine ∧ ∀ d, mine[d]? =
            if d ∈ dealers then some (reconstructed me t t2.deals (supplied (supplyLists ids view)) d)
            else t2.mine[d]?))))) := by
  unfold supplyEnd
  by_cases hS : Complete ids view
  swap
  · exact Or.inl ⟨hS, by rw [if_pos hS]⟩
  refine Or.inr ⟨hS, ?_⟩
  rw [if_neg (not_not.mpr hS), parseSet_eq]
  cases hm : firstMalformed asReshareSupply (acceptedOver ids view) with
  | some f => exact Or.inl ⟨f, rfl, _, rfl⟩
  | none => exact Or.inr ⟨rfl, reconstructShares_cases me t dealers hd (hs hS hm) t2.mine⟩

end OhmEcdsa
