import OhmEcdsa.Core.Combine

/-!
# Robust triples under any tampering (`triples.rs`)

A victim's contaminated share is recomputed from the valid shares of the same
dealer, so whatever is sent, as long as each dealer leaves `t` shares valid, the
combination is over the committed polynomials:

    t valid shares of each dealer →
      robust T3 on the tampered shares = (the honest records of the others, the tamperers)
                                                                    (generateRobust_delivers)
-/

set_option linter.unusedSectionVars false

namespace OhmEcdsa

open Polynomial FeldmanCommitment Hoare Interpolation

variable {F G : Type} [Field F] [DecidableEq F] [AddCommGroup G] [Module F G] [DecidableEq G] [K256 F G]

/-! ## Algorithm -/

/-- `generate_robust_with_committee`, with what arrives in T2 as a function of
what the dealers computed. -/
def generateRobustOver (committee : Committee) (sid : Bytes) (receive : List (Reshare F G) → List (Reshare F G)) :
    RngM F (List (TripleShare F × TriplePublic G) × List PartyId) := do
  let (ca, cb, lambdas, aShares, bShares, deals) ← dealTriple committee sid
  lift (do
    let repaired ← (committee.ids.zip (receive deals)).mapM
      (repairReshare committee sid ca cb)
    let deals := repaired.map (·.1)
    let blamed := repaired.flatMap (·.2)
    let cc ← combineCommitments lambdas deals
    let out ← (committee.ids.zipIdx.filter fun e => !blamed.contains e.1).mapM
      (tripleRecord lambdas aShares bShares deals ⟨ca, cb, cc⟩)
    return (out, blamed))

/-- The source's fault hooks are one way to tamper. -/
theorem generateRobustWithCommittee_eq (committee : Committee) (sid : Bytes) (tamper : Option TripleTamper) :
    (generateRobustWithCommittee committee sid tamper :
      RngM F (List (TripleShare F × TriplePublic G) × List PartyId)) =
    generateRobustOver committee sid (tamperReshares committee tamper) := rfl

/-- A matrix of re-shares: what receiver `i` gets from dealer `j`. -/
def withShares (c : Committee) (matrix : PartyId → PartyId → F) (deals : List (Reshare F G)) : List (Reshare F G) :=
  List.zipWith (fun j (d : Reshare F G) => { d with shares := c.ids.map (matrix j) }) c.ids deals

/-! ## Lemmas: one dealer -/

/-- What dealer `j` sent to `i` is off its commitment. -/
def badShare (com : FeldmanCommitment G) (row : PartyId → F) (i : PartyId) : Bool := !com.verifyShare i (row i)

theorem position_of_mem {c : Committee} {i : PartyId} (hi : i ∈ c.ids) :
    ∃ v, c.position i = some v ∧ c.ids[v]? = some i := by
  unfold Committee.position
  cases hf : c.ids.findIdx? (· == i) with
  | none =>
    rw [List.findIdx?_eq_none_iff] at hf
    exact absurd (hf i hi) (by simp)
  | some v =>
    obtain ⟨hlt, hv, -⟩ := List.findIdx?_eq_some_iff_getElem.mp hf
    refine ⟨v, rfl, ?_⟩
    rw [List.getElem?_eq_getElem hlt]
    exact congrArg some (by simpa using hv)

/-- Writing at a member's position changes that member's entry. -/
theorem set_map_update (c : Committee) (row : PartyId → F) {i : PartyId} {v : Nat} (hv : c.ids[v]? = some i) (s : F) :
    (c.ids.map row).set v s = c.ids.map (Function.update row i s) := by
  apply List.ext_getElem?
  intro k
  rw [List.getElem?_set, List.getElem?_map, List.getElem?_map]
  by_cases hk : v = k
  · subst hk
    have hlt : v < c.ids.length := (List.getElem?_eq_some_iff.mp hv).1
    rw [if_pos rfl, if_pos (by rw [List.length_map]; exact hlt), hv]
    simp
  · rw [if_neg hk]
    cases hki : c.ids[k]? with
    | none => rfl
    | some j =>
      have hne : j ≠ i := by
        rintro rfl
        obtain ⟨h1, h1'⟩ := List.getElem?_eq_some_iff.mp hv
        obtain ⟨h2, h2'⟩ := List.getElem?_eq_some_iff.mp hki
        exact hk ((List.Nodup.getElem_inj_iff c.nodup).mp (h1'.trans h2'.symm))
      rw [Option.map_some, Option.map_some, Function.update_of_ne hne]

/-- The repair loop writes the committed values at the victims. -/
theorem repair_loop (c : Committee) (honest : PartyId → F) (recompute : PartyId → Outcome F) (victims : List PartyId)
    (hmem : ∀ i ∈ victims, i ∈ c.ids) (hok : ∀ i ∈ victims, recompute i = .ok (honest i)) (row : PartyId → F) :
    victims.foldlM (fun shares i =>
        match c.position i with
        | none => .error (.panic "victim is a member")
        | some v => do
          let s ← recompute i
          return shares.set v s) (c.ids.map row) =
      (.ok (c.ids.map fun i => if i ∈ victims then honest i else row i) : Outcome (List F)) := by
  induction victims generalizing row with
  | nil =>
    simp only [List.not_mem_nil, if_false]
    rfl
  | cons i victims ih =>
    obtain ⟨v, hpos, hv⟩ := position_of_mem (hmem i List.mem_cons_self)
    rw [List.foldlM_cons, hpos, hok i List.mem_cons_self]
    show (victims.foldlM _ ((c.ids.map row).set v (honest i)) : Outcome (List F)) = _
    rw [set_map_update c row hv, ih (fun j hj => hmem j (List.mem_cons_of_mem _ hj))
      fun j hj => hok j (List.mem_cons_of_mem _ hj)]
    refine congrArg Except.ok (List.map_congr_left fun j _ => ?_)
    by_cases hj : j ∈ victims
    · rw [if_pos hj, if_pos (List.mem_cons_of_mem _ hj)]
    · rw [if_neg hj]
      by_cases hji : j = i
      · subst hji
        rw [Function.update_self, if_pos List.mem_cons_self]
      · rw [Function.update_of_ne hji, if_neg (by simp [hji, hj])]

theorem interpolateFirst_eq (quorum : Usize) (point : F) (valid : List (PartyId × F)) :
    interpolateFirst quorum point valid =
      interpolateAt point ((valid.map (·.1)).take quorum.val) ((valid.map (·.2)).take quorum.val) := by
  unfold interpolateFirst interpolateAtZero
  split
  · next h0 => rw [h0]
  · rfl

section Dealer

variable {c : Committee} {sid : Bytes} {ca cb : FeldmanCommitment G} {j : PartyId} {deal : Reshare F G}
  (h : HonestReshare c sid cb j ((ca.poly F).eval (scalarFrom j)) ((cb.poly F).eval (scalarFrom j)) deal)

include h

/-- **A dealer is repaired** to what it committed to, and blamed if anything it
sent was off. -/
theorem repairReshare_ok (row : PartyId → F)
    (hkeep : c.t.val ≤ (c.ids.filter fun i => deal.com.verifyShare i (row i)).length) :
    repairReshare c sid ca cb (j, { deal with shares := c.ids.map row }) =
      .ok (deal, if c.ids.any (badShare deal.com row) then [j] else []) := by
  have hproof : productProofValid sid ca cb j deal = .ok true := productProofValid_ok h
  have hvalid : productProofValid sid ca cb j { deal with shares := c.ids.map row } = .ok true := hproof
  have hzip : c.ids.zip (c.ids.map row) = c.ids.map fun i => (i, row i) := List.map_prod_left_eq_zip.symm
  have hgood : ((c.ids.map fun i => (i, row i)).filter fun e => deal.com.verifyShare e.1 e.2) =
      (c.ids.filter fun i => deal.com.verifyShare i (row i)).map fun i => (i, row i) := by
    rw [List.filter_map]
    rfl
  have hvictims : ((c.ids.map fun i => (i, row i)).filter fun e => !deal.com.verifyShare e.1 e.2).map (·.1) =
      c.ids.filter (badShare deal.com row) := by
    rw [List.filter_map, List.map_map]
    exact List.map_id _
  have hvalue : ∀ i, badShare deal.com row i = false → row i = (deal.com.poly F).eval (scalarFrom i) := by
    intro i hi
    exact ((verifyShare_iff _ _ _).mp (by simpa [badShare] using hi)).symm
  unfold repairReshare
  simp only [hvalid, bind, Except.bind, Bool.not_true, Bool.false_eq_true, if_false, partitionShares_eq, hzip, hgood,
    hvictims]
  by_cases hany : c.ids.any (badShare deal.com row) = true
  · have hne : c.ids.filter (badShare deal.com row) ≠ [] := by
      intro hnil
      obtain ⟨i, hi, hbad⟩ := List.any_eq_true.mp hany
      exact absurd hbad (List.filter_eq_nil_iff.mp hnil i hi)
    rw [if_neg hne, if_neg (by rw [List.length_map]; omega), if_pos hany]
    have hrecompute : ∀ i ∈ c.ids.filter (badShare deal.com row),
        interpolateAt (scalarFrom i : F)
          (((c.ids.filter fun i => deal.com.verifyShare i (row i)).map fun i => (i, row i)).map (·.1) |>.take c.t.val)
          (((c.ids.filter fun i => deal.com.verifyShare i (row i)).map fun i => (i, row i)).map (·.2) |>.take c.t.val) =
        .ok ((deal.com.poly F).eval (scalarFrom i)) := by
      intro i _
      rw [← interpolateFirst_eq]
      apply interpolateFirst_ok
      · rw [List.map_map]
        exact (List.map_id _).symm ▸ c.nodup.filter _
      · intro e he
        obtain ⟨k, hk, rfl⟩ := List.mem_map.mp he
        exact (List.mem_filter.mp hk).2
      · rw [List.length_map]
        exact hkeep
      · have hdeg := degree_poly_lt (F := F) deal.com
        rwa [h.length] at hdeg
    have hloop := repair_loop c (fun i => (deal.com.poly F).eval (scalarFrom i)) _ _
      (fun i hi => (List.mem_filter.mp hi).1) hrecompute row
    refine (congrArg (fun o : Outcome (List F) => o >>= fun shares =>
      (pure ({ deal with shares := shares }, [j]) : Outcome (Reshare F G × List PartyId))) hloop).trans ?_
    have hshares : (c.ids.map fun i => if i ∈ c.ids.filter (badShare deal.com row) then
        (deal.com.poly F).eval (scalarFrom i) else row i) = deal.shares := by
      rw [h.shares]
      refine List.map_congr_left fun i hi => ?_
      split
      · rfl
      · next hout =>
        refine hvalue i ?_
        rw [Bool.eq_false_iff]
        exact fun hbad => hout (List.mem_filter.mpr ⟨hi, hbad⟩)
    rw [hshares]
    rfl
  · have hall : ∀ i ∈ c.ids, badShare deal.com row i = false := by
      intro i hi
      rw [Bool.eq_false_iff]
      exact fun hbad => hany (List.any_eq_true.mpr ⟨i, hi, hbad⟩)
    have hnil : c.ids.filter (badShare deal.com row) = [] :=
      List.filter_eq_nil_iff.mpr fun i hi => by rw [hall i hi]; exact Bool.false_ne_true
    rw [if_pos hnil, if_neg hany]
    have hshares : c.ids.map row = deal.shares := by
      rw [h.shares]
      exact List.map_congr_left fun i hi => hvalue i (hall i hi)
    rw [hshares]
    rfl

end Dealer

/-! ## Lemmas: the run -/

/-- T1 and T2 among honest parties: two sharings, and of each local product a
re-sharing. -/
theorem dealTriple_triple (c : Committee) (sid : Bytes) :
    Triple (Enough c.n) (dealTriple (F := F) (G := G) c sid) (fun out =>
      ∃ (ca cb : FeldmanCommitment G) (deal : PartyId → Reshare F G), ca.points.length = c.t.val ∧
        cb.points.length = c.t.val ∧
        (∀ j ∈ c.ids, HonestReshare c sid cb j ((ca.poly F).eval (scalarFrom j)) ((cb.poly F).eval (scalarFrom j))
          (deal j)) ∧
        out = (ca, cb, c.ids.map fun j => weight 0 (c.ids.map scalarFrom) (scalarFrom j),
          c.ids.map fun j => (ca.poly F).eval (scalarFrom j), c.ids.map fun j => (cb.poly F).eval (scalarFrom j),
          c.ids.map deal)) Never := by
  unfold dealTriple
  refine (jointRandom_triple c _ _).bind ?_
  rintro _ ⟨ca, hca, rfl⟩
  refine (jointRandom_triple c _ _).bind ?_
  rintro _ ⟨cb, hcb, rfl⟩
  obtain ⟨i, -, hi⟩ := nth_zero_map c fun i =>
    (⟨i, (ca.poly F).eval (scalarFrom i), ca⟩ : DkgOutput F G)
  obtain ⟨i', -, hi'⟩ := nth_zero_map c fun i =>
    (⟨i, (cb.poly F).eval (scalarFrom i), cb⟩ : DkgOutput F G)
  have hlam := lagrangeCoeffsAt_eq (0 : F) c.ids (map_scalarFrom_nodup F G c.nodup)
  rw [hi, hi', lagrangeCoeffs, hlam]
  refine Triple.lift_bind rfl (Triple.lift_bind rfl (Triple.lift_bind rfl ?_))
  simp only [List.map_map, Function.comp_def]
  refine (Triple.mapM _ fun e he => reshare_triple c sid _ _ _ e he).bind fun deals hdeals => ?_
  have : Nonempty (Reshare F G) := ⟨⟨⟨[]⟩, (0, 0, ⟨0, 0, 0⟩), []⟩⟩
  obtain ⟨deal, rfl, hdeal⟩ := forall₂_exists_map c.nodup (forall₂_zipIdx
    (R := fun j => HonestReshare c sid cb j ((ca.poly F).eval (scalarFrom j))
      ((cb.poly F).eval (scalarFrom j))) hdeals)
  exact Triple.pure ⟨ca, cb, deal, hca, hcb, hdeal, rfl⟩

theorem flatMap_ite_singleton {α : Type} (p : α → Bool) (l : List α) :
    (l.flatMap fun a => if p a = true then [a] else []) = l.filter p := by
  induction l with
  | nil => rfl
  | cons a l ih =>
    rw [List.flatMap_cons, ih]
    by_cases ha : p a = true
    · rw [if_pos ha, List.filter_cons_of_pos ha]
      rfl
    · rw [if_neg ha, List.filter_cons_of_neg ha]
      rfl

theorem withShares_map (c : Committee) (matrix : PartyId → PartyId → F) (deal : PartyId → Reshare F G) :
    withShares c matrix (c.ids.map deal) =
      c.ids.map fun j => { deal j with shares := c.ids.map (matrix j) } := by
  unfold withShares
  rw [List.zipWith_map_right, List.zipWith_self]

/-- The dealers that sent something off their commitment. -/
def tamperers (c : Committee) (deal : PartyId → Reshare F G) (matrix : PartyId → PartyId → F) : List PartyId :=
  c.ids.filter fun j => c.ids.any (badShare (deal j).com (matrix j))

section Run

variable {c : Committee} {sid : Bytes} {ca cb : FeldmanCommitment G} {deal : PartyId → Reshare F G}
  (hdeal : ∀ j ∈ c.ids, HonestReshare c sid cb j ((ca.poly F).eval (scalarFrom j)) ((cb.poly F).eval (scalarFrom j))
    (deal j))

include hdeal

theorem repairs_ok (matrix : PartyId → PartyId → F)
    (hkeep : ∀ j ∈ c.ids, c.t.val ≤ (c.ids.filter fun i => (deal j).com.verifyShare i (matrix j i)).length) :
    (c.ids.zip (withShares c matrix (c.ids.map deal))).mapM (repairReshare c sid ca cb) =
      .ok (c.ids.map fun j => (deal j, if c.ids.any (badShare (deal j).com (matrix j)) then [j] else [])) := by
  rw [withShares_map, ← List.map_prod_left_eq_zip, List.mapM_map]
  exact mapM_ok_of _ _ _ fun j hj => repairReshare_ok (hdeal j hj) (matrix j) (hkeep j hj)

/-- The records of the parties that `keep` admits. -/
theorem records_ok (cc : FeldmanCommitment G) (hpoly : cc.poly F = (c.ids.map fun j =>
      C (weight 0 (c.ids.map scalarFrom) (scalarFrom j)) * (deal j).com.poly F).sum) (keep : PartyId → Bool) :
    (c.ids.zipIdx.filter fun e => keep e.1).mapM (tripleRecord
        (c.ids.map fun j => weight 0 (c.ids.map scalarFrom) (scalarFrom j))
        (c.ids.map fun j => (ca.poly F).eval (scalarFrom j)) (c.ids.map fun j => (cb.poly F).eval (scalarFrom j))
        (c.ids.map deal) ⟨ca, cb, cc⟩) =
      .ok ((c.ids.filter keep).map fun i => (⟨i, (ca.poly F).eval (scalarFrom i), (cb.poly F).eval (scalarFrom i),
        (cc.poly F).eval (scalarFrom i)⟩, ⟨ca, cb, cc⟩)) := by
  have hfst : (c.ids.zipIdx.filter fun e => keep e.1).map (·.1) = c.ids.filter keep := by
    have hids : c.ids.zipIdx.map (·.1) = c.ids := map_fst_zipIdx id c.ids ▸ by simp
    conv_rhs => rw [← hids, List.filter_map]
    rfl
  rw [← hfst, List.map_map]
  refine mapM_ok_of _ _ _ fun e he => ?_
  have he := (List.mem_filter.mp he).1
  unfold tripleRecord
  rw [nth_map_of_mem _ _ he, nth_map_of_mem _ _ he, combineShare_ok _ deal hdeal e he, hpoly]
  rfl

end Run

/-! ## Top theorem -/

/-- The records that the tamperers do not get. -/
def withoutBlamed (outs : List (TripleShare F × TriplePublic G)) (blamed : List PartyId) :
    List (TripleShare F × TriplePublic G) :=
  outs.filter fun o => !blamed.contains o.1.index

/-- **Robust triples survive any tampering** of the re-shares that leaves each
dealer `t` valid ones: the parties that are not blamed get the records of the
untampered run, a triple with `γ = αβ` on polynomials of degree below `t`, and the
blamed parties are exactly the dealers with an invalid re-share. -/
theorem generateRobust_delivers (c : Committee) (ht : 2 * c.t.val ≤ c.n + 1) (sid : Bytes) (rngs : Rngs F)
    (hrngs : c.n ≤ rngs.rngs.length) :
    ∃ (deal : PartyId → Reshare F G) (lambdas aShares bShares : List F) (outs : List (TripleShare F × TriplePublic G))
      (pub : TriplePublic G),
      (dealTriple c sid rngs).1 = .ok (pub.ca, pub.cb, lambdas, aShares, bShares, c.ids.map deal) ∧
      (generateRobustWithCommittee c sid none rngs).1 = .ok (outs, []) ∧ BeaverTriple c outs pub ∧
      ∀ matrix : PartyId → PartyId → F,
        (∀ j ∈ c.ids, c.t.val ≤ (c.ids.filter fun i => (deal j).com.verifyShare i (matrix j i)).length) →
        (generateRobustOver c sid (withShares c matrix) rngs).1 =
          .ok (withoutBlamed outs (tamperers c deal matrix), tamperers c deal matrix) := by
  obtain ⟨_, s, hrun, -, ca, cb, deal, hca, hcb, hdeal, rfl⟩ := (dealTriple_triple (F := F) (G := G) c sid).ok hrngs
  obtain ⟨cc, hcc, hpoly, hlen⟩ :=
    combineCommitments_ok (fun j => weight 0 (c.ids.map scalarFrom) (scalarFrom j)) deal hdeal
  -- T3 over the repaired dealers, whoever is blamed
  have hover : ∀ matrix : PartyId → PartyId → F,
      (∀ j ∈ c.ids, c.t.val ≤ (c.ids.filter fun i => (deal j).com.verifyShare i (matrix j i)).length) →
      (generateRobustOver c sid (withShares c matrix) rngs).1 =
        .ok ((c.ids.filter fun i => !(tamperers c deal matrix).contains i).map fun i =>
          (⟨i, (ca.poly F).eval (scalarFrom i), (cb.poly F).eval (scalarFrom i), (cc.poly F).eval (scalarFrom i)⟩,
            ⟨ca, cb, cc⟩), tamperers c deal matrix) := by
    intro matrix hkeep
    have hblamed : ((c.ids.map fun j => (deal j, if c.ids.any (badShare (deal j).com (matrix j)) then [j] else
        [])).flatMap (·.2)) = tamperers c deal matrix := by
      rw [List.flatMap_map]
      exact flatMap_ite_singleton _ _
    unfold generateRobustOver
    rw [bind_run, hrun]
    dsimp only
    rw [repairs_ok hdeal matrix hkeep]
    simp only [bind, Except.bind, List.map_map, Function.comp_def, hblamed, hcc]
    rw [records_ok hdeal cc hpoly fun i => !(tamperers c deal matrix).contains i]
    rfl
  have hhonest : ∀ i, ∀ j, (deal j).com.verifyShare i (((deal j).com.poly F).eval (scalarFrom i)) = true :=
    fun i j => (verifyShare_iff _ _ _).mpr rfl
  refine ⟨deal, _, _, _, c.ids.map fun i => (⟨i, (ca.poly F).eval (scalarFrom i), (cb.poly F).eval (scalarFrom i),
      (cc.poly F).eval (scalarFrom i)⟩, ⟨ca, cb, cc⟩), ⟨ca, cb, cc⟩, by rw [hrun], ?_, ?_, ?_⟩
  · -- nothing tampered with: the matrix of what was dealt
    have hall : ∀ j ∈ c.ids, c.t.val ≤ (c.ids.filter fun i =>
        (deal j).com.verifyShare i (((deal j).com.poly F).eval (scalarFrom i))).length := by
      intro j _
      rw [List.filter_eq_self.mpr fun i _ => hhonest i j]
      exact c.t_le_n ht
    have hnone : tamperers c deal (fun j i => ((deal j).com.poly F).eval (scalarFrom i)) = [] := by
      unfold tamperers
      rw [List.filter_eq_nil_iff]
      intro j _ hany
      obtain ⟨i, -, hbad⟩ := List.any_eq_true.mp hany
      rw [badShare, hhonest i j] at hbad
      cases hbad
    have hsame : withShares c (fun j i => ((deal j).com.poly F).eval (scalarFrom i)) (c.ids.map deal) =
        tamperReshares c none (c.ids.map deal) := by
      rw [withShares_map]
      refine List.map_congr_left fun j hj => ?_
      rw [← (hdeal j hj).shares]
    have hrobust := hover _ hall
    rw [hnone] at hrobust
    have hkept : (c.ids.filter fun i => !([] : List PartyId).contains i) = c.ids :=
      List.filter_eq_self.mpr fun _ _ => rfl
    rw [hkept] at hrobust
    rw [generateRobustWithCommittee_eq, ← hrobust]
    unfold generateRobustOver
    rw [bind_run, bind_run, hrun]
    dsimp only
    rw [hsame]
  · exact ⟨hca, hcb, hlen, rfl, by rw [hpoly]; exact combine_product deal hdeal ht hca hcb⟩
  · intro matrix hkeep
    rw [hover matrix hkeep]
    unfold withoutBlamed
    rw [List.filter_map]
    rfl

section Trio

open Secp256k1

def tripleDraws : Rngs Scalar := ⟨[⟨1, fun _ => 1, 0⟩, ⟨2, fun _ => 1, 0⟩, ⟨3, fun _ => 1, 0⟩], []⟩

/-- Dealer 2 sends party 1 a share off by one: it is blamed, and 1 and 3 get the
honest records. -/
theorem generateRobust_delivers_trio : ∃ (matrix : PartyId → PartyId → Scalar)
    (outs : List (TripleShare Scalar × TriplePublic Point)) (pub : TriplePublic Point),
    (generateRobustWithCommittee trio [] none tripleDraws).1 = .ok (outs, []) ∧ BeaverTriple trio outs pub ∧
    (generateRobustOver trio [] (withShares trio matrix) tripleDraws).1 = .ok (withoutBlamed outs [2], [2]) := by
  obtain ⟨deal, _, _, _, outs, pub, -, hrun, htriple, hany⟩ :=
    generateRobust_delivers (F := Scalar) (G := Point) trio (by decide) [] tripleDraws (by decide)
  let matrix : PartyId → PartyId → Scalar := fun j i =>
    ((deal j).com.poly Scalar).eval (scalarFrom i) + if j = 2 ∧ i = 1 then 1 else 0
  have hvalid : ∀ j i, (deal j).com.verifyShare i (matrix j i) = !decide (j = 2 ∧ i = 1) := by
    intro j i
    rw [Bool.eq_iff_iff, verifyShare_iff]
    by_cases h : j = 2 ∧ i = 1
    · simp [matrix, h]
    · simp [matrix, h]
  have htamperers : tamperers trio deal matrix = [2] := by
    unfold tamperers badShare
    simp only [hvalid]
    decide
  refine ⟨matrix, outs, pub, hrun, htriple, ?_⟩
  rw [hany matrix, htamperers]
  intro j hj
  simp only [hvalid]
  have hthree : j = 1 ∨ j = 2 ∨ j = 3 := by simpa [trio] using hj
  rcases hthree with rfl | rfl | rfl <;> decide

end Trio

end OhmEcdsa
