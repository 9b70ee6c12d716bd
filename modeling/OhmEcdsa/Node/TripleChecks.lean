import OhmEcdsa.Node.Keygen
import OhmEcdsa.Node.Triple

/-!
# The checks of a triple's deals (`party.rs`: T2 and T3)

The accepted deals are whatever their senders chose.  Collecting them, the check of
the re-shares and the combination end without a panic on all of them; the proof check
reads the first point of a vector it has not looked at:

    T3Total c me sid alpha beta sent view ↔
      no dealer the proof check reaches gave its right α-point and an empty vector     (tripleT3_total_iff)
-/

set_option linter.unusedSectionVars false

namespace OhmEcdsa

open FeldmanCommitment Hoare

variable {F G : Type} [Field F] [DecidableEq F] [AddCommGroup G] [Module F G] [DecidableEq G] [K256 F G]

/-! ## Specification -/

/-- Dealer `i`'s deal is malformed or proves something else than its product. -/
def dealFails (sid : Bytes) (ca cb : FeldmanCommitment G) (i : PartyId) (d : TripleDealMsg F G) : Bool :=
  !(d.x1 = ca.evalAt F i ∧ d.com.points.head? = some d.x2 ∧
    DleqProof.verify sid tags.tripleProduct (K256.generator F) d.x1 (cb.evalAt F i) d.x2 d.proof)

/-- The first dealer, in id order, whose deal fails. -/
def firstBadDeal (sid : Bytes) (ca cb : FeldmanCommitment G) (ids : List PartyId)
    (deals : PartyMap (TripleDealMsg F G)) : Option PartyId :=
  ids.find? fun i => (deals[i]?).any (dealFails sid ca cb i)

/-- The deals among accepted payloads. -/
def dealsOf (set : AcceptedSet F G) : PartyMap (TripleDealMsg F G) := set.filterMap asTripleDeal

/-- Member `f`'s message of the deal round is no deal, or its message for this node no re-share. -/
def MalformedDeal (view : TripleView F G) (f : PartyId) : Prop :=
  (∃ p, view.deals[f]? = some p ∧ asTripleDeal f p = none) ∨
    ∃ env, view.reshares[f]? = some env ∧ asReshare f env.envelope.payload = none

section T3

variable (c : Committee) (me : PartyId) (sid : Bytes) (alpha beta : KeyShare F G) (sent : PartyId → F)
  (view : TripleView F G)

/-- T3 on accepted sets: every step returns, and an abort blames a member whose message
is no deal or re-share, or whose deal fails. -/
structure T3Total : Prop where
  collects : (∃ t2, collectT2 c.ids sent view = .ok t2) ∨
    ∃ f ∈ c.ids, (∃ detail, collectT2 c.ids sent view = .error (abort .triples [f] detail)) ∧ MalformedDeal view f
  proofs : ∀ t2, collectT2 c.ids sent view = .ok t2 →
    tripleCheckProofs (F := F) sid c.ids t2.deals alpha.com beta.com = .ok () ∨
    ∃ i ∈ c.ids, (∃ detail, tripleCheckProofs (F := F) sid c.ids t2.deals alpha.com beta.com =
        .error (abort .triples [i] detail)) ∧
      ∃ d, t2.deals[i]? = some d ∧ dealFails sid alpha.com beta.com i d = true
  reshares : ∀ t2, collectT2 c.ids sent view = .ok t2 → ∃ bad, badReshares me c.ids t2 = .ok bad
  combines : ∀ t2, collectT2 c.ids sent view = .ok t2 → ∃ out, tripleCombine me c.ids alpha beta t2.deals t2.mine = .ok out

end T3

/-! ## Lemmas -/

theorem openEnvelopes_getElem? (envs : PartyMap (SignedEnvelope (NodePayload F G))) (f : PartyId) :
    (openEnvelopes envs)[f]? = (envs[f]?).map fun env => env.envelope.payload := by
  unfold openEnvelopes
  rw [Std.ExtTreeMap.getElem?_map]

/-- What a node collects in T2 of members' deals and re-shares. -/
structure TripleT2.Collected (ids : List PartyId) (view : TripleView F G) (t2 : TripleT2 F G) : Prop where
  deal : ∀ i ∈ ids, ∃ d, view.deals[i]? = some (.tripleDeal d) ∧ t2.deals[i]? = some d
  reshare : ∀ i ∈ ids, ∃ env s, view.reshares[i]? = some env ∧ env.envelope.payload = .reshare s ∧
    t2.mine[i]? = some s ∧ t2.reshEnvs[i]? = some env

theorem collectT2_cases {ids : List PartyId} (sent : PartyId → F) {view : TripleView F G}
    (hD : Complete ids view.deals) (hR : Complete ids (openEnvelopes view.reshares)) :
    (∃ f ∈ ids, (∃ detail, collectT2 ids sent view = .error (abort .triples [f] detail)) ∧ MalformedDeal view f) ∨
    ∃ t2, collectT2 ids sent view = .ok t2 ∧ t2.Collected ids view := by
  unfold collectT2
  rw [if_neg (by simp only [ne_eq, not_or, not_not]; exact ⟨hD, hR⟩), parseSet_eq, parseSet_eq]
  cases hm : firstMalformed asTripleDeal (acceptedOver ids view.deals) with
  | some f =>
    obtain ⟨hf, hp⟩ := firstMalformed_some hm
    exact Or.inl ⟨f, hf, ⟨_, rfl⟩, Or.inl hp⟩
  | none =>
    cases hm' : firstMalformed asReshare (acceptedOver ids (openEnvelopes view.reshares)) with
    | some f =>
      obtain ⟨hf, p, hp, hnone⟩ := firstMalformed_some hm'
      rw [openEnvelopes_getElem?] at hp
      obtain ⟨env, henv, rfl⟩ := Option.map_eq_some_iff.mp hp
      exact Or.inl ⟨f, hf, ⟨_, rfl⟩, Or.inr ⟨env, henv, hnone⟩⟩
    | none =>
      refine Or.inr ⟨_, rfl, fun i hi => ?_, fun i hi => ?_⟩
      · obtain ⟨p, hp⟩ := hD.getElem? hi
        obtain ⟨d, hd⟩ := firstMalformed_none hm hi hp
        refine ⟨d, ?_, parsed_getElem? hi hp hd⟩
        cases p <;> cases hd
        exact hp
      · obtain ⟨p, hp⟩ := hR.getElem? hi
        obtain ⟨s, hs⟩ := firstMalformed_none hm' hi hp
        have hmine := parsed_getElem? hi hp hs
        rw [openEnvelopes_getElem?] at hp
        obtain ⟨env, henv, rfl⟩ := Option.map_eq_some_iff.mp hp
        refine ⟨env, s, henv, ?_, hmine, ?_⟩
        · cases hpay : env.envelope.payload <;> rw [hpay] at hs <;> cases hs
          rfl
        · show (view.reshares.filter fun f _ => ids.contains f)[i]? = some env
          rw [Std.ExtTreeMap.getElem?_filter', henv]
          simp [hi]

theorem TripleT2.Collected.mine {ids : List PartyId} {view : TripleView F G} {t2 : TripleT2 F G}
    (h : t2.Collected ids view) {i : PartyId} (hi : i ∈ ids) : ∃ s, t2.mine[i]? = some s := by
  obtain ⟨env, s, -, -, hs, -⟩ := h.reshare i hi
  exact ⟨s, hs⟩

section Checks

variable (sid : Bytes) (ca cb : FeldmanCommitment G) {deals : PartyMap (TripleDealMsg F G)} {i : PartyId}
  {d : TripleDealMsg F G}

/-- **One dealer's proof**: a panic for a right α-point with an empty vector. -/
theorem tripleCheckProof_cases (hd : deals[i]? = some d) :
    (dealFails sid ca cb i d = false ∧ tripleCheckProof (F := F) sid deals ca cb i = .ok ()) ∨
    (dealFails sid ca cb i d = true ∧
      ((¬ (d.x1 = ca.evalAt F i ∧ d.com.points = []) ∧
        tripleCheckProof (F := F) sid deals ca cb i = .error (abort .triples [i] "invalid DLEQ product proof")) ∨
      (d.x1 = ca.evalAt F i ∧ d.com.points = []) ∧
        ∃ msg, tripleCheckProof (F := F) sid deals ca cb i = .error (.panic msg))) := by
  unfold tripleCheckProof tripleProofFails dealFails
  rw [index_some hd]
  simp only [bind, Except.bind]
  by_cases hx1 : d.x1 = ca.evalAt F i
  swap
  · rw [if_pos hx1]
    exact Or.inr ⟨by simp [hx1], Or.inl ⟨fun h => hx1 h.1, rfl⟩⟩
  rw [if_neg (not_not.mpr hx1)]
  cases hp : d.com.points with
  | nil => exact Or.inr ⟨by simp, Or.inr ⟨⟨hx1, rfl⟩, _, rfl⟩⟩
  | cons p ps =>
    simp only [nth, List.getElem?_cons_zero, List.head?_cons, Option.some.injEq]
    by_cases hx2 : d.x2 = p
    swap
    · rw [if_pos hx2]
      refine Or.inr ⟨?_, Or.inl ⟨by simp, rfl⟩⟩
      have : ¬ p = d.x2 := fun h => hx2 h.symm
      simp [this]
    rw [if_neg (not_not.mpr hx2)]
    cases hv : DleqProof.verify sid tags.tripleProduct (K256.generator F) d.x1 (cb.evalAt F i) d.x2 d.proof with
    | true => exact Or.inl ⟨by simp [hx1, hx2], rfl⟩
    | false => exact Or.inr ⟨by simp, Or.inl ⟨by simp, rfl⟩⟩

/-- All proofs, in id order: the first deal that fails decides. -/
theorem tripleCheckProofs_eq {ids : List PartyId} (hdeals : ∀ i ∈ ids, ∃ d, deals[i]? = some d) :
    tripleCheckProofs (F := F) sid ids deals ca cb = match firstBadDeal sid ca cb ids deals with
      | some i => tripleCheckProof (F := F) sid deals ca cb i
      | none => .ok () := by
  unfold tripleCheckProofs firstBadDeal
  refine (forM_eq_find (tripleCheckProof (F := F) sid deals ca cb) (fun i => (deals[i]?).any (dealFails sid ca cb i)) ids
    (fun i hi h => ?_) fun i hi h => ?_).trans (by cases ids.find? _ <;> rfl)
  all_goals
    obtain ⟨d, hd⟩ := hdeals i hi
    rw [hd, Option.any_some] at h
    rcases tripleCheckProof_cases sid ca cb hd with ⟨hg, hok⟩ | ⟨hb, ⟨-, he⟩ | ⟨-, msg, he⟩⟩
  · exact hok
  · rw [hb] at h; cases h
  · rw [hb] at h; cases h
  · rw [hg] at h; cases h
  · exact ⟨_, he⟩
  · exact ⟨_, he⟩

end Checks

/-- The re-share of dealer `i` verifies for `me`. -/
def TripleT2.verifies (t2 : TripleT2 F G) (me i : PartyId) : Bool :=
  match t2.deals[i]?, t2.mine[i]? with
  | some d, some s => d.com.verifyShare me s
  | _, _ => false

theorem dealsOf_getElem? (set : AcceptedSet F G) (i : PartyId) :
    (dealsOf set)[i]? = (set[i]?).bind (asTripleDeal i) := by
  unfold dealsOf
  rw [Std.ExtTreeMap.getElem?_filterMap']

/-- What was collected is well formed, and its deals are those accepted. -/
theorem TripleT2.Collected.dealsOf_eq {ids : List PartyId} {view : TripleView F G} {t2 : TripleT2 F G}
    (h : t2.Collected ids view) {i : PartyId} (hi : i ∈ ids) :
    ¬ MalformedDeal view i ∧ (dealsOf view.deals)[i]? = t2.deals[i]? := by
  obtain ⟨d, hp, hd⟩ := h.deal i hi
  obtain ⟨env, s, henv, hs, -⟩ := h.reshare i hi
  constructor
  · rintro (⟨p, hp', hnone⟩ | ⟨env', henv', hnone⟩)
    · rw [hp] at hp'
      cases hp'
      cases hnone
    · rw [henv] at henv'
      cases henv'
      rw [hs] at hnone
      cases hnone
  · rw [dealsOf_getElem?, hp, hd]
    rfl

theorem TripleT2.Collected.firstBadDeal_eq {ids : List PartyId} {view : TripleView F G} {t2 : TripleT2 F G}
    (h : t2.Collected ids view) (sid : Bytes) (ca cb : FeldmanCommitment G) :
    firstBadDeal sid ca cb ids (dealsOf view.deals) = firstBadDeal sid ca cb ids t2.deals := by
  unfold firstBadDeal
  refine List.find?_congr fun i hi => ?_
  rw [(h.dealsOf_eq hi).2]

theorem badReshares_eq {ids : List PartyId} {view : TripleView F G} {t2 : TripleT2 F G} (h : t2.Collected ids view)
    (me : PartyId) : badReshares me ids t2 = .ok (ids.filter fun i => !t2.verifies me i) := by
  unfold badReshares
  rw [mapM_ok_of _ (fun i => (i, t2.verifies me i)) ids fun i hi => ?_]
  · simp only [bind, Except.bind, List.filter_map, List.map_map, Function.comp_def]
    rw [List.map_id']
    rfl
  · obtain ⟨d, -, hd⟩ := h.deal i hi
    obtain ⟨env, s, -, -, hs, -⟩ := h.reshare i hi
    rw [index_some hd, index_some hs]
    unfold TripleT2.verifies
    rw [hd, hs]
    rfl

/-- The combination of deals and shares of all members. -/
theorem tripleCombine_ok (c : Committee) (me : PartyId) (alpha beta : KeyShare F G) {deals : PartyMap (TripleDealMsg F G)}
    {mine : PartyMap F} (hdeals : ∀ i ∈ c.ids, ∃ d, deals[i]? = some d) (hmine : ∀ i ∈ c.ids, ∃ s, mine[i]? = some s) :
    ∃ out, tripleCombine me c.ids alpha beta deals mine = .ok out := by
  have hlam := lagrangeCoeffsAt_eq (0 : F) c.ids (map_scalarFrom_nodup F G c.nodup)
  obtain ⟨lambdas, hlambdas⟩ : ∃ l, lagrangeCoeffs (F := F) c.ids = .ok l ∧ l.length = c.ids.length :=
    ⟨_, hlam, List.length_map _⟩
  have hmem : ∀ e ∈ c.ids.zip lambdas, e.1 ∈ c.ids := fun e he => (List.of_mem_zip he).1
  obtain ⟨scaled, hscaled⟩ := mapM_exists_ok (fun e : PartyId × F => do
      let d ← index deals e.1
      return d.com.scale e.2 : PartyId × F → Outcome (FeldmanCommitment G)) (c.ids.zip lambdas) fun e he => by
    obtain ⟨d, hd⟩ := hdeals e.1 (hmem e he)
    exact ⟨_, by rw [index_some hd]; rfl⟩
  obtain ⟨terms, hterms⟩ := mapM_exists_ok (fun e : PartyId × F => do
      let s ← index mine e.1
      return e.2 * s : PartyId × F → Outcome F) (c.ids.zip lambdas) fun e he => by
    obtain ⟨s, hs⟩ := hmine e.1 (hmem e he)
    exact ⟨_, by rw [index_some hs]; rfl⟩
  have hlen := (forall₂_of_mapM_ok _ _ hscaled).length_eq
  rw [List.length_zip, hlambdas.2, Nat.min_self] at hlen
  unfold tripleCombine
  rw [hlambdas.1]
  simp only [bind, Except.bind] at hscaled hterms ⊢
  rw [hscaled]
  simp only
  rw [hterms]
  cases scaled with
  | nil =>
    rw [List.length_nil, List.length_eq_zero_iff] at hlen
    exact absurd hlen c.ids_ne
  | cons first rest => exact ⟨_, rfl⟩

/-! ## Top theorem -/

/-- **T3 is total** exactly when, all messages being well formed, the first deal that
fails has a vector or a wrong α-point. -/
theorem tripleT3_total_iff (c : Committee) (me : PartyId) (sid : Bytes) (alpha beta : KeyShare F G)
    (sent : PartyId → F) (view : TripleView F G) (hD : Complete c.ids view.deals)
    (hR : Complete c.ids (openEnvelopes view.reshares)) :
    T3Total c me sid alpha beta sent view ↔
      ((∀ f ∈ c.ids, ¬ MalformedDeal view f) → ∀ i d,
        firstBadDeal sid alpha.com beta.com c.ids (dealsOf view.deals) = some i → (dealsOf view.deals)[i]? = some d →
        ¬ (d.x1 = alpha.com.evalAt F i ∧ d.com.points = [])) := by
  rcases collectT2_cases sent hD hR with ⟨f, hf, ⟨detail, he⟩, hbad⟩ | ⟨t2, hok, hcol⟩
  · exact iff_of_true ⟨Or.inr ⟨f, hf, ⟨detail, he⟩, hbad⟩, by rw [he]; exact nofun, by rw [he]; exact nofun,
      by rw [he]; exact nofun⟩ fun hgood => absurd hbad (hgood f hf)
  have hdeals : ∀ i ∈ c.ids, ∃ d, t2.deals[i]? = some d := fun i hi => (hcol.deal i hi).imp fun _ h => h.2
  have hrun := tripleCheckProofs_eq sid alpha.com beta.com hdeals
  rw [hcol.firstBadDeal_eq]
  constructor
  · rintro h - i d hfirst hd hempty
    rw [(hcol.dealsOf_eq (List.mem_of_find?_eq_some hfirst)).2] at hd
    rw [hfirst] at hrun
    obtain ⟨msg, hpanic⟩ : ∃ msg, tripleCheckProof (F := F) sid t2.deals alpha.com beta.com i = .error (.panic msg) := by
      rcases tripleCheckProof_cases sid alpha.com beta.com hd with ⟨hg, -⟩ | ⟨-, ⟨hne, -⟩ | ⟨-, hp⟩⟩
      · have hbad := List.find?_some hfirst
        rw [hd, Option.any_some, hg] at hbad
        cases hbad
      · exact absurd hempty hne
      · exact hp
    rcases h.proofs t2 hok with hgood | ⟨j, -, ⟨detail, he⟩, -⟩
    · rw [hrun] at hgood
      simp only [hpanic] at hgood
      cases hgood
    · rw [hrun] at he
      simp only [hpanic] at he
      cases he
  · intro h
    have h := h fun f hf => (hcol.dealsOf_eq hf).1
    refine ⟨Or.inl ⟨t2, hok⟩, fun t2' ht2' => ?_, fun t2' ht2' => ?_, fun t2' ht2' => ?_⟩
    all_goals
      rw [hok] at ht2'
      cases ht2'
    · rw [hrun]
      cases hfirst : firstBadDeal sid alpha.com beta.com c.ids t2.deals with
      | none => exact Or.inl rfl
      | some i =>
        have hi := List.mem_of_find?_eq_some hfirst
        obtain ⟨d, hd⟩ := hdeals i hi
        have hbad := List.find?_some hfirst
        rw [hd, Option.any_some] at hbad
        rcases tripleCheckProof_cases sid alpha.com beta.com hd with ⟨hg, -⟩ | ⟨-, ⟨-, he⟩ | ⟨hempty, -⟩⟩
        · rw [hg] at hbad
          cases hbad
        · exact Or.inr ⟨i, hi, ⟨_, he⟩, d, hd, hbad⟩
        · exact absurd hempty (h i d hfirst (by rw [(hcol.dealsOf_eq hi).2, hd]))
    · exact ⟨_, badReshares_eq hcol me⟩
    · exact tripleCombine_ok c me alpha beta hdeals fun i hi => (hcol.mine hi)

/-! ### The trio: α = 1 + X, β = 1 + X -/

section Trio

open Secp256k1

/-- Every dealer shares `(1 + i)²`, re-shared with slope 1, and dealer 1 has `points`. -/
def trioDeal (points : List Point) (i : PartyId) : TripleDealMsg Scalar Point :=
  let a : Scalar := 1 + scalarFrom i
  let x1 : Point := a • K256.generator Scalar
  let x2 : Point := (a * a) • K256.generator Scalar
  ⟨⟨if i = 1 then points else [x2, 1]⟩, x1, x2, (DleqProof.proveWith [] tags.tripleProduct a (K256.generator Scalar) x1 1).2.2⟩

def trioReshare (i : PartyId) : SignedEnvelope (NodePayload Scalar Point) :=
  ⟨.p2p [] .triples TR_ROUND_DEAL i 2 (.reshare ((1 + scalarFrom i) * (1 + scalarFrom i) + 2)), []⟩

def trioTripleView (points : List Point) : TripleView Scalar Point where
  alpha := ⟨∅, ∅, ∅, ∅, ∅⟩
  beta := ⟨∅, ∅, ∅, ∅, ∅⟩
  deals := collect (trio.ids.map fun i => (i, .tripleDeal (trioDeal points i)))
  reshares := collect (trio.ids.map fun i => (i, trioReshare i))
  complaints := ∅
  defenses := ∅
  requests := ∅
  supplies := ∅

/-- Member 2's shares of α and β. -/
def trioAlpha : KeyShare Scalar Point := ⟨2, 3, ⟨[1, 1]⟩⟩

/-- Dealer 1's vector is empty. -/
theorem tripleT3_panics : ¬ T3Total trio 2 [] trioAlpha trioAlpha (fun _ => 0) (trioTripleView []) := by
  intro h
  have hproofs : (do
      let t2 ← collectT2 trio.ids (fun _ => 0) (trioTripleView [])
      tripleCheckProofs (F := Scalar) [] trio.ids t2.deals trioAlpha.com trioAlpha.com) =
        .error (.panic "index out of bounds") := by decide +kernel
  rcases h.collects with ⟨t2, hok⟩ | ⟨f, -, ⟨detail, he⟩, -⟩
  · rw [hok] at hproofs
    simp only [bind, Except.bind] at hproofs
    rcases h.proofs t2 hok with hgood | ⟨i, -, ⟨detail, he⟩, -⟩
    · rw [hproofs] at hgood
      cases hgood
    · rw [hproofs] at he
      cases he
  · rw [he] at hproofs
    cases hproofs

theorem tripleT3_total_trio : T3Total trio 2 [] trioAlpha trioAlpha (fun _ => 0) (trioTripleView [4, 1]) := by
  refine (tripleT3_total_iff trio 2 [] trioAlpha trioAlpha (fun _ => 0) (trioTripleView [4, 1]) (by decide +kernel)
    (by decide +kernel)).mpr fun _ i d hfirst _ => ?_
  have hnone : firstBadDeal (F := Scalar) [] trioAlpha.com trioAlpha.com trio.ids
      (dealsOf (trioTripleView [4, 1]).deals) = none := by decide +kernel
  rw [hnone] at hfirst
  cases hfirst

end Trio

end OhmEcdsa
