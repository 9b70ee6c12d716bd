import OhmEcdsa.Core.Sign

/-!
# Batched product proofs (`primitives/dleq.rs`, `protocol/triples.rs`)

One prover's `B` proofs are checked by two random linear combinations of their
equations, with a proof-by-proof fallback that attributes the blame:

    every proof valid → verifyBatch = true,  exactly one invalid → verifyBatch = false
    verifyBatch rejects each bad list → T3 of the batch = T3 with every proof checked alone
                                                                    (batch_proofs_checked)
-/

set_option linter.unusedSectionVars false

namespace OhmEcdsa

open FeldmanCommitment Hoare

def tags.dleqBatchRho : Bytes := utf8 "OHM-ECDSA/v0.1/dleq-batch-rho"

variable {F G : Type} [Field F] [DecidableEq F] [AddCommGroup G] [Module F G] [DecidableEq G] [K256 F G]

/-! ## Algorithm: dleq.rs -/

/-- `ProjectivePoint::lincomb_ext`. -/
def lincombExt (terms : List (G × F)) : G := (terms.map fun e => e.2 • e.1).sum

/-- The public `(g1, x1, g2, x2)` of a proof. -/
structure Statement (G : Type) where
  g1 : G
  x1 : G
  g2 : G
  x2 : G
  deriving DecidableEq

namespace DleqProof

/-- The bytes that bind the weights: the tag, the session, the prover and all
statements and proofs. -/
def rhoBase [WireFormat F G] (sid : Bytes) (prover : PartyId) (statements : List (Statement G))
    (proofs : List (DleqProof F G)) : Bytes :=
  tags.dleqBatchRho ++ sid ++ u64Bytes prover.val ++
    (statements.zip proofs).flatMap fun e =>
      [e.1.g1, e.1.x1, e.1.g2, e.1.x2, e.2.t1, e.2.t2].flatMap (K256.pointBytes F) ++
        WireFormat.scalarBytes G e.2.z

/-- `ρ_b`. -/
def rho [WireFormat F G] (sid : Bytes) (prover : PartyId) (statements : List (Statement G))
    (proofs : List (DleqProof F G)) (b : Nat) : F :=
  K256.scalarFromDigest G (K256.sha256 F G (rhoBase sid prover statements proofs ++ u64Bytes b))

/-- The check of `verify_batch` at the weights `rho`: the two sums
`Σ_b ρ_b·(z_b·g − t_b − c_b·x_b)` vanish. -/
def verifyWeighted (rho : Nat → F) (sid tag : Bytes) (statements : List (Statement G))
    (proofs : List (DleqProof F G)) : Bool :=
  if statements.length ≠ proofs.length then false
  else
    let items := (statements.zip proofs).zipIdx
    let eq1 := items.flatMap fun e =>
      let c : F := challenge sid tag e.1.1.g1 e.1.1.x1 e.1.1.g2 e.1.1.x2 e.1.2.t1 e.1.2.t2
      [(e.1.1.g1, rho e.2 * e.1.2.z), (e.1.2.t1, -rho e.2), (e.1.1.x1, -rho e.2 * c)]
    let eq2 := items.flatMap fun e =>
      let c : F := challenge sid tag e.1.1.g1 e.1.1.x1 e.1.1.g2 e.1.1.x2 e.1.2.t1 e.1.2.t2
      [(e.1.1.g2, rho e.2 * e.1.2.z), (e.1.2.t2, -rho e.2), (e.1.1.x2, -rho e.2 * c)]
    lincombExt eq1 == 0 && lincombExt eq2 == 0

/-- Verify one prover's proofs in aggregate. -/
def verifyBatch [WireFormat F G] (sid tag : Bytes) (prover : PartyId) (statements : List (Statement G))
    (proofs : List (DleqProof F G)) : Bool :=
  verifyWeighted (rho sid prover statements proofs) sid tag statements proofs

/-- `verify` on one statement and its proof. -/
def verifyItem (sid tag : Bytes) (e : Statement G × DleqProof F G) : Bool :=
  verify sid tag e.1.g1 e.1.x1 e.1.g2 e.1.x2 e.2

end DleqProof

/-! ## Algorithm: triples.rs, T3 of `generate_batch_with_committee` -/

/-- The item `b` of a dealer: the commitments to the item's factors and what the
dealer re-shared for it. -/
structure BatchItem (F G : Type) where
  ca : FeldmanCommitment G
  cb : FeldmanCommitment G
  deal : Reshare F G

/-- The statement that dealer `j` proves of an item. -/
def BatchItem.statement (j : PartyId) (item : BatchItem F G) : Statement G :=
  ⟨K256.generator F, item.deal.proof.1, item.cb.evalAt F j, item.deal.proof.2.1⟩

/-- One item of one dealer: the proof, unless the aggregate has passed, and then
the re-shared shares. -/
def checkBatchItem (committee : Committee) (sid : Bytes) (j : PartyId) (aggregateOk : Bool)
    (e : BatchItem F G × Nat) : Outcome Unit := do
  let (x1, x2, proof) := e.1.deal.proof
  let proofOk := aggregateOk ||
    DleqProof.verify sid tags.tripleProduct (K256.generator F) x1 (e.1.cb.evalAt F j) x2 proof
  let valid ← if x1 ≠ e.1.ca.evalAt F j then pure false else do
    let p0 ← nth e.1.deal.com.points 0
    pure (x2 == p0 && proofOk)
  if valid then
    (committee.ids.zip e.1.deal.shares).forM fun is =>
      if e.1.deal.com.verifyShare is.1 is.2 then .ok ()
      else .error (resolveComplaint .triples e.1.deal.com j is.1 is.2)
  else throw (abort .triples [j] ("invalid DLEQ product proof (batch index " ++ toString e.2 ++ ")"))

/-- The items of dealer `j`, in index order. -/
def checkBatchDealer [WireFormat F G] (committee : Committee) (sid : Bytes) (e : PartyId × List (BatchItem F G)) :
    Outcome Unit :=
  let aggregateOk := DleqProof.verifyBatch sid tags.tripleProduct e.1 (e.2.map (·.statement e.1))
    (e.2.map (·.deal.proof.2.2))
  e.2.zipIdx.forM (checkBatchItem committee sid e.1 aggregateOk)

/-- T3's verification of the re-sharings of all dealers. -/
def checkBatch [WireFormat F G] (committee : Committee) (sid : Bytes) (deals : List (List (BatchItem F G))) :
    Outcome Unit :=
  (committee.ids.zip deals).forM (checkBatchDealer committee sid)

/-- The same pass with every proof checked on its own. -/
def checkBatchIndividually (committee : Committee) (sid : Bytes) (deals : List (List (BatchItem F G))) :
    Outcome Unit :=
  (committee.ids.zip deals).forM fun e => e.2.zipIdx.forM (checkBatchItem committee sid e.1 false)

/-- T3: what the re-sharings of item `b` combine to, once `check` has passed. -/
def combineBatchItem (committee : Committee) (lambdas : List F) (aShares bShares : List (List F))
    (deals : List (List (BatchItem F G))) (b : Nat) : Outcome (List (TripleShare F × TriplePublic G)) := do
  let items ← deals.mapM fun d => nth d b
  let as ← aShares.mapM fun l => nth l b
  let bs ← bShares.mapM fun l => nth l b
  let first ← nth items 0
  let cc ← combineCommitments lambdas (items.map (·.deal))
  committee.ids.zipIdx.mapM (tripleRecord lambdas as bs (items.map (·.deal)) ⟨first.ca, first.cb, cc⟩)

/-- T3 of `generate_batch_with_committee` after the pass `check`; the records of
item `b` stand at position `b`. -/
def combineBatch (check : Outcome Unit) (committee : Committee) (count : Nat) (lambdas : List F)
    (aShares bShares : List (List F)) (deals : List (List (BatchItem F G))) :
    Outcome (List (List (TripleShare F × TriplePublic G))) := do
  check
  (List.range count).mapM (combineBatchItem committee lambdas aShares bShares deals)

/-! ## Lemmas: weighted sums -/

section Weighted

variable {M α : Type} [AddCommGroup M] [Module F M] [DecidableEq M]

theorem sum_weighted_zero (rho : Nat → F) (f : α → M) (l : List α) (k : Nat) (h : ∀ a ∈ l, f a = 0) :
    ((l.zipIdx k).map fun e => rho e.2 • f e.1).sum = 0 := by
  induction l generalizing k with
  | nil => rfl
  | cons a l ih =>
    rw [List.zipIdx_cons, List.map_cons, List.sum_cons, h a List.mem_cons_self, smul_zero, zero_add]
    exact ih (k + 1) fun b hb => h b (List.mem_cons_of_mem _ hb)

/-- A single term that does not vanish keeps its weight in the sum. -/
theorem sum_weighted_ne_zero (rho : Nat → F) (f : α → M) (l : List α) (k : Nat)
    (hrho : ∀ b < l.length, rho (k + b) ≠ 0) (h : (l.filter fun a => f a ≠ 0).length = 1) :
    ((l.zipIdx k).map fun e => rho e.2 • f e.1).sum ≠ 0 := by
  induction l generalizing k with
  | nil => simp at h
  | cons a l ih =>
    have htail : ∀ b < l.length, rho (k + 1 + b) ≠ 0 := by
      intro b hb
      rw [Nat.add_assoc, Nat.add_comm 1 b]
      exact hrho (b + 1) (Nat.succ_lt_succ hb)
    rw [List.zipIdx_cons, List.map_cons, List.sum_cons]
    by_cases ha : f a = 0
    · rw [List.filter_cons_of_neg (by simp [ha])] at h
      rw [ha, smul_zero, zero_add]
      exact ih (k + 1) htail h
    · rw [List.filter_cons_of_pos (by simp [ha]), List.length_cons, Nat.add_eq_right,
        List.length_eq_zero_iff, List.filter_eq_nil_iff] at h
      rw [sum_weighted_zero rho f l (k + 1) (fun b hb => by simpa using h b hb), add_zero]
      exact smul_ne_zero (hrho 0 (Nat.succ_pos _)) ha

end Weighted

/-! ## Lemmas: the aggregate check -/

namespace DleqProof

/-- What the two equations of a proof miss by. -/
def residual (sid tag : Bytes) (e : Statement G × DleqProof F G) : G × G :=
  let c : F := challenge sid tag e.1.g1 e.1.x1 e.1.g2 e.1.x2 e.2.t1 e.2.t2
  (e.2.z • e.1.g1 - e.2.t1 - c • e.1.x1, e.2.z • e.1.g2 - e.2.t2 - c • e.1.x2)

theorem verifyItem_iff (sid tag : Bytes) (e : Statement G × DleqProof F G) :
    verifyItem sid tag e = true ↔ residual sid tag e = 0 := by
  unfold verifyItem verify residual
  rw [Bool.and_eq_true, beq_iff_eq, beq_iff_eq, Prod.mk_eq_zero, sub_sub, sub_sub, sub_eq_zero, sub_eq_zero]

theorem lincombExt_flatMap {α : Type} (l : List α) (f : α → List (G × F)) :
    lincombExt (l.flatMap f) = (l.map fun a => lincombExt (f a)).sum := by
  unfold lincombExt
  induction l with
  | nil => rfl
  | cons a l ih =>
    rw [List.flatMap_cons, List.map_append, List.sum_append, ih, List.map_cons, List.sum_cons]

/-- One proof's three terms are its weighted residual. -/
theorem lincombExt_terms (g t x : G) (r z c : F) :
    lincombExt [(g, r * z), (t, -r), (x, -r * c)] = r • (z • g - t - c • x) := by
  unfold lincombExt
  simp only [List.map_cons, List.map_nil, List.sum_cons, List.sum_nil, add_zero, smul_sub, smul_smul, neg_smul,
    neg_mul]
  abel

/-- **The aggregate check is one weighted equation.** -/
theorem verifyWeighted_iff (rho : Nat → F) (sid tag : Bytes) {statements : List (Statement G)}
    {proofs : List (DleqProof F G)} (hlen : statements.length = proofs.length) :
    verifyWeighted rho sid tag statements proofs = true ↔
      (((statements.zip proofs).zipIdx).map fun e => rho e.2 • residual sid tag e.1).sum = 0 := by
  unfold verifyWeighted
  rw [if_neg (not_not.mpr hlen)]
  simp only [lincombExt_flatMap, lincombExt_terms, Bool.and_eq_true, beq_iff_eq]
  have hfst : ∀ l : List (G × G), l.sum.1 = (l.map (·.1)).sum := map_list_sum (AddMonoidHom.fst G G)
  have hsnd : ∀ l : List (G × G), l.sum.2 = (l.map (·.2)).sum := map_list_sum (AddMonoidHom.snd G G)
  rw [Prod.ext_iff, hfst, hsnd, List.map_map, List.map_map]
  rfl

/-- An aggregate over valid proofs passes, at any weights. -/
theorem verifyWeighted_valid (rho : Nat → F) (sid tag : Bytes) {statements : List (Statement G)}
    {proofs : List (DleqProof F G)} (hlen : statements.length = proofs.length)
    (h : ∀ e ∈ statements.zip proofs, verifyItem sid tag e = true) :
    verifyWeighted rho sid tag statements proofs = true := by
  rw [verifyWeighted_iff rho sid tag hlen]
  exact sum_weighted_zero rho _ _ 0 fun e he => (verifyItem_iff sid tag e).mp (h e he)

/-- One bad proof among valid ones fails it, at any non-zero weights. -/
theorem verifyWeighted_single (rho : Nat → F) (sid tag : Bytes) {statements : List (Statement G)}
    {proofs : List (DleqProof F G)} (hrho : ∀ b < proofs.length, rho b ≠ 0) (hlen : statements.length = proofs.length)
    (h : ((statements.zip proofs).filter fun e => !verifyItem sid tag e).length = 1) :
    verifyWeighted rho sid tag statements proofs = false := by
  rw [Bool.eq_false_iff, ne_eq, verifyWeighted_iff rho sid tag hlen]
  have hzip : (statements.zip proofs).length = proofs.length := by
    rw [List.length_zip, hlen, min_self]
  refine sum_weighted_ne_zero rho _ _ 0 (fun b hb => ?_) ?_
  · rw [Nat.zero_add]
    exact hrho b (hzip ▸ hb)
  rw [← h]
  congr 1
  apply List.filter_congr
  intro e _
  rw [Bool.eq_iff_iff, decide_eq_true_iff, ne_eq, ← verifyItem_iff, Bool.not_eq_true, Bool.not_eq_true']

end DleqProof

/-! ## Lemmas: T3 -/

/-- The individual check asks for nothing more when the proof is valid. -/
theorem checkBatchItem_valid (committee : Committee) (sid : Bytes) (j : PartyId) (e : BatchItem F G × Nat)
    (h : DleqProof.verifyItem sid tags.tripleProduct (e.1.statement j, e.1.deal.proof.2.2) = true) :
    checkBatchItem committee sid j true e = checkBatchItem committee sid j false e := by
  have hv : DleqProof.verify sid tags.tripleProduct (K256.generator F) e.1.deal.proof.1 (e.1.cb.evalAt F j)
      e.1.deal.proof.2.1 e.1.deal.proof.2.2 = true := h
  unfold checkBatchItem
  simp only [hv, Bool.or_true]

theorem forM_congr {α : Type} {f g : α → Outcome Unit} (l : List α) (h : ∀ a ∈ l, f a = g a) : l.forM f = l.forM g := by
  induction l with
  | nil => rfl
  | cons a l ih =>
    show (f a >>= fun _ => l.forM f) = (g a >>= fun _ => l.forM g)
    rw [h a List.mem_cons_self, ih fun b hb => h b (List.mem_cons_of_mem _ hb)]

/-- The pass over one dealer, with the aggregate and without. -/
theorem checkBatchDealer_individually [WireFormat F G] (committee : Committee) (sid : Bytes)
    (e : PartyId × List (BatchItem F G))
    (hreject : (∃ item ∈ e.2, DleqProof.verifyItem sid tags.tripleProduct
        (item.statement e.1, item.deal.proof.2.2) = false) →
      DleqProof.verifyBatch sid tags.tripleProduct e.1 (e.2.map (·.statement e.1))
        (e.2.map (·.deal.proof.2.2)) = false) :
    checkBatchDealer committee sid e = e.2.zipIdx.forM (checkBatchItem committee sid e.1 false) := by
  unfold checkBatchDealer
  dsimp only
  by_cases hbad : ∃ item ∈ e.2, DleqProof.verifyItem sid tags.tripleProduct
      (item.statement e.1, item.deal.proof.2.2) = false
  · rw [hreject hbad]
  · cases DleqProof.verifyBatch sid tags.tripleProduct e.1 (e.2.map (·.statement e.1))
      (e.2.map (·.deal.proof.2.2)) with
    | false => rfl
    | true =>
      push Not at hbad
      refine forM_congr _ fun item hitem => ?_
      have hmem : item.1 ∈ e.2 := List.mem_of_getElem? (List.mem_zipIdx_iff_getElem?.mp hitem)
      exact checkBatchItem_valid committee sid e.1 item (by simpa using hbad item.1 hmem)

theorem checkBatch_individually [WireFormat F G] (committee : Committee) (sid : Bytes)
    (deals : List (List (BatchItem F G)))
    (hreject : ∀ e ∈ committee.ids.zip deals, (∃ item ∈ e.2, DleqProof.verifyItem sid tags.tripleProduct
        (item.statement e.1, item.deal.proof.2.2) = false) →
      DleqProof.verifyBatch sid tags.tripleProduct e.1 (e.2.map (·.statement e.1))
        (e.2.map (·.deal.proof.2.2)) = false) :
    checkBatch committee sid deals = checkBatchIndividually committee sid deals :=
  forM_congr _ fun e he => checkBatchDealer_individually committee sid e (hreject e he)

/-! ## Top theorem -/

/-- **The aggregate proof check**: it accepts every list of valid proofs, and at non-zero
weights rejects one with a single invalid proof - whatever the weights are, and so at those of the
hash; and where it rejects every list with an invalid proof, T3 of the batch returns what it returns
with every proof checked alone, or fails with the same blame and batch index. -/
theorem batch_proofs_checked [WireFormat F G] :
    (∀ (rho : Nat → F) (sid tag : Bytes) (statements : List (Statement G)) (proofs : List (DleqProof F G)),
      statements.length = proofs.length →
      ((∀ e ∈ statements.zip proofs, DleqProof.verifyItem sid tag e = true) →
        DleqProof.verifyWeighted rho sid tag statements proofs = true) ∧
      ((∀ b < proofs.length, rho b ≠ 0) →
        ((statements.zip proofs).filter fun e => !DleqProof.verifyItem sid tag e).length = 1 →
        DleqProof.verifyWeighted rho sid tag statements proofs = false)) ∧
    (∀ (sid tag : Bytes) (prover : PartyId) (statements : List (Statement G)) (proofs : List (DleqProof F G)),
      statements.length = proofs.length →
      ((∀ e ∈ statements.zip proofs, DleqProof.verifyItem sid tag e = true) →
        DleqProof.verifyBatch sid tag prover statements proofs = true) ∧
      ((∀ b < proofs.length, DleqProof.rho sid prover statements proofs b ≠ 0) →
        ((statements.zip proofs).filter fun e => !DleqProof.verifyItem sid tag e).length = 1 →
        DleqProof.verifyBatch sid tag prover statements proofs = false)) ∧
    ∀ (committee : Committee) (sid : Bytes) (deals : List (List (BatchItem F G))),
      (∀ e ∈ committee.ids.zip deals, (∃ item ∈ e.2, DleqProof.verifyItem sid tags.tripleProduct
          (item.statement e.1, item.deal.proof.2.2) = false) →
        DleqProof.verifyBatch sid tags.tripleProduct e.1 (e.2.map (·.statement e.1))
          (e.2.map (·.deal.proof.2.2)) = false) →
      checkBatch committee sid deals = checkBatchIndividually committee sid deals ∧
      ∀ count lambdas aShares bShares,
        combineBatch (checkBatch committee sid deals) committee count lambdas aShares bShares deals =
          combineBatch (checkBatchIndividually committee sid deals) committee count lambdas aShares bShares deals := by
  have hweighted : ∀ (rho : Nat → F) (sid tag : Bytes) (statements : List (Statement G)) (proofs : List (DleqProof F G)),
      statements.length = proofs.length →
      ((∀ e ∈ statements.zip proofs, DleqProof.verifyItem sid tag e = true) →
        DleqProof.verifyWeighted rho sid tag statements proofs = true) ∧
      ((∀ b < proofs.length, rho b ≠ 0) →
        ((statements.zip proofs).filter fun e => !DleqProof.verifyItem sid tag e).length = 1 →
        DleqProof.verifyWeighted rho sid tag statements proofs = false) := by
    intro rho sid tag statements proofs hlen
    exact ⟨DleqProof.verifyWeighted_valid rho sid tag hlen,
      fun hrho => DleqProof.verifyWeighted_single rho sid tag hrho hlen⟩
  refine ⟨hweighted, fun sid tag prover statements proofs => ?_, fun committee sid deals hreject => ?_⟩
  · exact hweighted (DleqProof.rho sid prover statements proofs) sid tag statements proofs
  · have hcheck := checkBatch_individually committee sid deals hreject
    exact ⟨hcheck, fun count lambdas aShares bShares => by rw [hcheck]⟩

/-! ### Three dealers, two items each, the second proof of dealer 2 wrong -/

section Trio

open Secp256k1

/-- Dealer `j`'s item of the factors `1 + x` and `1 + x`; `err` is added to the response of its proof. -/
def trioItem (err : Scalar) (j : PartyId) : BatchItem Scalar Point :=
  let a : Scalar := 1 + scalarFrom j
  let product : ShamirPoly Scalar := ⟨[a * a, 1]⟩
  let (x1, x2, proof) := DleqProof.proveWith [] tags.tripleProduct a (1 : Point) a 1
  ⟨⟨[1, 1]⟩, ⟨[1, 1]⟩, ⟨fromPoly product, (x1, x2, { proof with z := proof.z + err }), trio.ids.map product.eval⟩⟩

def trioDeals : List (List (BatchItem Scalar Point)) :=
  [[trioItem 0 1, trioItem 0 1], [trioItem 0 2, trioItem 1 2], [trioItem 0 3, trioItem 0 3]]

/-- The aggregates of dealers 1 and 3 pass; that of dealer 2 fails, T3 goes on proof by proof and
blames it for the second. -/
theorem batch_proofs_trio :
    DleqProof.verifyBatch [] tags.tripleProduct 1 ([trioItem 0 1, trioItem 0 1].map (·.statement 1))
      ([trioItem 0 1, trioItem 0 1].map (·.deal.proof.2.2)) = true ∧
    DleqProof.verifyBatch [] tags.tripleProduct 2 ([trioItem 0 2, trioItem 1 2].map (·.statement 2))
      ([trioItem 0 2, trioItem 1 2].map (·.deal.proof.2.2)) = false ∧
    checkBatch trio [] trioDeals = .error (abort .triples [2] "invalid DLEQ product proof (batch index 1)") := by
  obtain ⟨-, hbatch, hcheck⟩ := batch_proofs_checked (F := Scalar) (G := Point)
  have hgood : DleqProof.verifyBatch [] tags.tripleProduct 1 ([trioItem 0 1, trioItem 0 1].map (·.statement 1))
      ([trioItem 0 1, trioItem 0 1].map (·.deal.proof.2.2)) = true :=
    (hbatch [] tags.tripleProduct 1 _ _ rfl).1 (by decide +kernel)
  have hbad : DleqProof.verifyBatch [] tags.tripleProduct 2 ([trioItem 0 2, trioItem 1 2].map (·.statement 2))
      ([trioItem 0 2, trioItem 1 2].map (·.deal.proof.2.2)) = false :=
    (hbatch [] tags.tripleProduct 2 _ _ rfl).2 (by decide +kernel) (by decide +kernel)
  refine ⟨hgood, hbad, ?_⟩
  rw [(hcheck trio [] trioDeals ?_).1]
  · decide +kernel
  · have hone : DleqProof.verifyItem [] tags.tripleProduct
        ((trioItem 0 1).statement 1, (trioItem 0 1).deal.proof.2.2) = true := by decide +kernel
    have hthree : DleqProof.verifyItem [] tags.tripleProduct
        ((trioItem 0 3).statement 3, (trioItem 0 3).deal.proof.2.2) = true := by decide +kernel
    intro e he hfails
    obtain ⟨item, hitem, hfails⟩ := hfails
    rcases List.mem_cons.mp he with rfl | he
    · obtain rfl : item = trioItem 0 1 := by simpa using hitem
      rw [hone] at hfails
      cases hfails
    rcases List.mem_cons.mp he with rfl | he
    · exact hbad
    · obtain rfl := List.mem_singleton.mp he
      obtain rfl : item = trioItem 0 3 := by simpa using hitem
      rw [hthree] at hfails
      cases hfails

end Trio

end OhmEcdsa
