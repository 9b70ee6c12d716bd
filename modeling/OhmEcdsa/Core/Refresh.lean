import OhmEcdsa.Core.Sim

/-!
# Committee maintenance (`src/protocol/refresh.rs`)

`refresh` adds a joint sharing of zero to the key; `reshare` has the old
committee deal its shares to a new one and recombines them with the Lagrange
weights of the old ids.  A run of the two from an honest key generation keeps
the key:

    Params.new n t = .ok params → t < 2^63 → … → ∃ x, Holds c keys x ∧ Holds c' keys' x       (key_lineage)

where `c', keys'` is where the run ends and every new threshold is below `2^63`.
Past that `Committee::new` accepts thresholds no committee can meet
(`lineage_overflow`).
-/

set_option linter.unusedSectionVars false

namespace OhmEcdsa

namespace Refresh

open Polynomial Interpolation FeldmanCommitment Hoare

variable {F G : Type} [Field F] [DecidableEq F] [AddCommGroup G] [Module F G] [DecidableEq G] [K256 F G]

/-! ## Algorithm -/

def checkInputs (committee : Committee) (keys : List (KeyShare F G)) (rngsLen : Nat) : Outcome Unit :=
  checkCommitteeInputs committee keys rngsLen

/-- `corrupt_share`: one share changed in transit. -/
def corruptInTransit (tamper : Option DkgTamper) (p2p : List (DkgP2P F)) : List (DkgP2P F) :=
  match tamper.bind (·.corruptShare) with
  | none => p2p
  | some (dealer, victim) => p2p.map fun m =>
      if m.sender = dealer ∧ m.addressee = victim then { m with share := m.share + 1 } else m

/-- Rounds 2 and 3 of the fixed-secret dealing, with the revealed vectors. -/
def deliverFixed (insts : List (DkgInstance F G)) (r1 : PartyMap DkgBcast1) (tamper : Option DkgTamper) :
    Outcome (List (KeyShare F G) × PartyMap (DkgBcast2 G)) := do
  let revealed ← insts.mapM DkgInstance.reveal
  let r2 := collect (revealed.map fun e => (e.1.sender, e.1))
  let p2p := corruptInTransit tamper (revealed.flatMap (·.2))
  let outs ← insts.mapM fun inst =>
    let mine := collect ((p2p.filter (·.addressee = inst.me)).map fun m => (m.sender, m.share))
    let defenses := collect (insts.map fun d => (d.me, d.defend inst.me))
    inst.finalize .refresh r1 r2 mine defenses
  return (outs, r2)

/-- A commit-reveal DKG in which every member deals a fixed secret. -/
def dealFixedSecrets (committee : Committee) (sid tag : Bytes) (secrets : List F) (tamper : Option DkgTamper) :
    RngM F (List (KeyShare F G) × PartyMap (DkgBcast2 G)) :=
  if secrets.length ≠ committee.n then
    throw (.error (.invalidParams "secrets must match the committee"))
  else do
    let started ← committee.ids.zipIdx.mapM fun e => do
      let secret ← lift (nth secrets e.2)
      let (inst, b1) ← DkgInstance.startWithSecret (G := G) committee sid tag e.1 secret e.2
      return (tamperDealer tamper inst, b1)
    let r1 := collect (started.map fun e => (e.2.sender, e.2))
    lift (deliverFixed (started.map (·.1)) r1 tamper)

/-- Every dealt sharing must commit to a zero constant term. -/
def checkZeroConstant (reveals : PartyMap (DkgBcast2 G)) (i : PartyId) : Outcome Unit := do
  let b2 ← index reveals i
  let p0 ← nth b2.com.points 0
  if p0 ≠ 0 then throw (abort .refresh [i] "refresh dealer committed to a non-zero constant term")

/-- `x'_j = x_j + Σ_i z_i(j)` and `A'[x] = A[x] + Σ_i A[z_i]`. -/
def refreshed (key z : KeyShare F G) : Outcome (KeyShare F G) := do
  let com := key.com.add z.com
  let p0 ← nth com.points 0
  let x0 ← nth key.com.points 0
  if p0 ≠ x0 then throw (.panic "refresh must preserve the public key X")
  else return ⟨key.index, key.share + z.share, com⟩

/-- Proactive refresh over the same committee. -/
def refresh (committee : Committee) (keys : List (KeyShare F G)) (sid : Bytes) (tamper : Option DkgTamper) :
    RngM F (List (KeyShare F G)) := do
  let s ← get
  lift (checkInputs committee keys s.rngs.length)
  let (zOuts, reveals) ← dealFixedSecrets committee sid tags.refreshCommit (List.replicate committee.n 0) tamper
  lift do
    committee.ids.forM (checkZeroConstant reveals)
    zOuts.zipIdx.mapM fun e => do
      let key ← nth keys e.2
      refreshed key e.1

structure ReshareTamper where
  badDeal : Option (PartyId × PartyId)
  badCommitment : Option PartyId

/-- One old-committee party's deal over the new committee. -/
structure ReshareDealer (F G : Type) where
  sender : PartyId
  poly : ShamirPoly F
  com : FeldmanCommitment G
  badDeal : Option PartyId

/-- The sub-share for `addressee`, also the dealer's defense against it. -/
def ReshareDealer.shareFor (d : ReshareDealer F G) (addressee : PartyId) : F :=
  let s := d.poly.eval addressee
  if d.badDeal = some addressee then s + 1 else s

/-- Round 1: a fresh polynomial of the new threshold with the old share at 0. -/
def startReshare (new : Committee) (oldKeys : List (KeyShare F G)) (tamper : Option ReshareTamper) (j : PartyId)
    (k : Nat) : RngM F (ReshareDealer F G) := do
  let key ← lift (nth oldKeys k)
  let poly ← ShamirPoly.random key.share new.t k
  let com ← lift (if tamper.bind (·.badCommitment) = some j then (fromPoly poly).addConst (1 : F)
    else .ok (fromPoly poly))
  let badDeal := match tamper.bind (·.badDeal) with
    | some (dealer, victim) => if dealer = j then some victim else none
    | none => none
  return ⟨j, poly, com, badDeal⟩

/-- Round 3 at new member `m`: the checks of old member `j`'s deal. -/
def checkDeal (new : Committee) (sid : Bytes) (xCom : FeldmanCommitment G) (commits : PartyMap DkgBcast1)
    (reveals : PartyMap (DkgBcast2 G)) (mine : PartyMap F) (dealers : List (ReshareDealer F G)) (m j : PartyId)
    (pos : Nat) : Outcome (F × FeldmanCommitment G) := do
  let b1 ← index commits j
  let b2 ← index reveals j
  if b2.com.points.length ≠ new.t.val then
    throw (abort .refresh [j] "malformed Feldman commitment vector")
  else if hashCommitment F sid tags.reshareCommit j b2.com ≠ b1.hash then
    throw (abort .refresh [j] "commit-reveal hash mismatch")
  else
    let p0 ← nth b2.com.points 0
    if p0 ≠ xCom.evalAt F j then
      throw (abort .refresh [j] "re-sharing commitment does not bind to the dealer's old share")
    else
      let s ← index mine j
      if b2.com.verifyShare m s then return (s, b2.com)
      else
        let dealer ← nth dealers pos
        throw (resolveComplaint .refresh b2.com j m (dealer.shareFor m))

/-- Round 3 at new member `m`: `x'_m = Σ_j λ_j·p_j(m)` and `A'[x] = Σ_j λ_j·C_j`. -/
def receive (old new : Committee) (sid : Bytes) (xCom : FeldmanCommitment G) (commits : PartyMap DkgBcast1)
    (reveals : PartyMap (DkgBcast2 G)) (p2p : List (DkgP2P F)) (dealers : List (ReshareDealer F G))
    (lambdas : List F) (m : PartyId) : Outcome (KeyShare F G) := do
  let mine := collect ((p2p.filter (·.addressee = m)).map fun p => (p.sender, p.share))
  let acc ← old.ids.zipIdx.foldlM (fun acc e => do
    let d ← checkDeal new sid xCom commits reveals mine dealers m e.1 e.2
    let lam ← nth lambdas e.2
    return (acc.1 + lam * d.1, acc.2.add (d.2.scale lam))) ((0 : F), (⟨List.replicate new.t.val 0⟩ : FeldmanCommitment G))
  let p0 ← nth acc.2.points 0
  let x0 ← nth xCom.points 0
  if p0 ≠ x0 then throw (.panic "re-sharing must preserve the public key X")
  else return ⟨m, acc.1, acc.2⟩

/-- Committee change: re-share the key of the `old` committee to the `new` one. -/
def reshare (old new : Committee) (oldKeys : List (KeyShare F G)) (sid : Bytes) (tamper : Option ReshareTamper) :
    RngM F (List (KeyShare F G)) := do
  let s ← get
  lift (checkInputs old oldKeys s.rngs.length)
  let first ← lift (nth oldKeys 0)
  let dealers ← old.ids.zipIdx.mapM fun e => startReshare new oldKeys tamper e.1 e.2
  let commits := collect (dealers.map fun d =>
    (d.sender, (⟨d.sender, hashCommitment F sid tags.reshareCommit d.sender d.com⟩ : DkgBcast1)))
  let reveals := collect (dealers.map fun d => (d.sender, (⟨d.sender, d.com⟩ : DkgBcast2 G)))
  let p2p := dealers.flatMap fun d => new.ids.map fun m => ⟨d.sender, m, d.shareFor m⟩
  let lambdas ← lift (lagrangeCoeffs old.ids)
  lift (new.ids.mapM (receive old new sid first.com commits reveals p2p dealers lambdas))

/-! ## Lemmas: the two operations keep the key -/

/-- `keys` are the shares of one committed polynomial with the value `x` at 0. -/
structure KeyOf (c : Committee) (keys : List (KeyShare F G)) (com : FeldmanCommitment G) (x : F) : Prop
    extends JointSharing c keys com where
  secret : (com.poly F).eval 0 = x

theorem nth_points_zero {com : FeldmanCommitment G} {t : Usize} (hlen : com.points.length = t.val)
    (ht : 1 ≤ t.val) : nth com.points 0 = .ok ((com.poly F).eval 0 • K256.generator F) := by
  obtain ⟨points⟩ := com
  cases points with
  | nil => simp only [List.length_nil] at hlen; omega
  | cons p ps =>
    unfold nth FeldmanCommitment.poly
    simp

theorem keySharing_of {c : Committee} {keys : List (KeyShare F G)} {com : FeldmanCommitment G}
    (h : JointSharing c keys com) : KeySharing c keys (com.poly F) := by
  obtain ⟨hlen, rfl⟩ := h
  refine ⟨?_, ?_, fun key hkey => ?_, fun key hkey => ?_⟩
  · rw [List.map_map]
    exact List.map_id _
  · have := degree_poly_lt (F := F) com
    rwa [hlen] at this
  · obtain ⟨i, -, rfl⟩ := List.mem_map.mp hkey
    rfl
  · obtain ⟨i, -, rfl⟩ := List.mem_map.mp hkey
    rfl

theorem poly_replicate_zero (t : Nat) : (⟨List.replicate t (0 : G)⟩ : FeldmanCommitment G).poly F = 0 := by
  have hlog : log F (0 : G) = 0 := by
    have := log_smul (F := F) 0 (0 : G)
    rwa [zero_smul, zero_mul] at this
  unfold FeldmanCommitment.poly
  rw [List.map_replicate, hlog]
  induction t with
  | zero => rfl
  | succ t ih => rw [List.replicate_succ, ofCoeffs_cons, ih, C_0, mul_zero, add_zero]

/-- Folding shares and commitments together. -/
theorem foldl_pair {α : Type} (s : α → F) (com : α → FeldmanCommitment G) (l : List α) (a : F)
    (b : FeldmanCommitment G) :
    l.foldl (fun acc e => (acc.1 + s e, acc.2.add (com e))) (a, b) = (a + (l.map s).sum, (l.map com).foldl add b) := by
  induction l generalizing a b with
  | nil => simp
  | cons e l ih => rw [List.foldl_cons, ih, List.map_cons, List.map_cons, List.sum_cons, List.foldl_cons, add_assoc]

theorem head_poly_eval {p : ShamirPoly F} {s : F} (h : p.coeffs.head? = some s) : p.poly.eval 0 = s := by
  obtain ⟨coeffs⟩ := p
  cases coeffs with
  | nil => cases h
  | cons a l =>
    obtain rfl : a = s := Option.some.inj h
    simp [ShamirPoly.poly]

/-- The dealers of one fixed-secret session of zeros. -/
theorem deliverFixed_honest {c : Committee} {sid tag : Bytes} (insts : List (DkgInstance F G))
    (hh : ∀ d ∈ insts, d.Honest c sid tag) (hme : insts.map (·.me) = c.ids) :
    ∃ outs com, deliverFixed insts (collect (insts.map fun d => (d.me, d.commitOf))) none =
        .ok (outs, collect (insts.map fun d => (d.me, ⟨d.me, d.com⟩))) ∧
      JointSharing c outs com ∧ com.poly F = (insts.map (·.poly.poly)).sum := by
  obtain ⟨outs, com, hok, hjs, hpoly⟩ := deliverAll_honest insts hh hme .refresh
  refine ⟨outs, com, ?_, hjs, hpoly⟩
  have hrev : insts.mapM DkgInstance.reveal = .ok (insts.map fun d => (⟨d.me, d.com⟩,
      c.ids.map fun j => ⟨d.me, j, d.shareFor j⟩)) := mapM_ok_of _ _ _ fun d hd => (hh d hd).reveal
  unfold deliverAll at hok
  unfold deliverFixed
  rw [hrev] at hok ⊢
  simp only [bind, Except.bind, corruptInTransit, Option.bind_none] at hok ⊢
  rw [hok]
  simp only [List.map_map, Function.comp_def]
  rfl

/-- **Honest parties share zero**, and every revealed vector shows it. -/
theorem dealZeros_triple (c : Committee) (sid tag : Bytes) :
    Triple (Enough c.n) (dealFixedSecrets c sid tag (List.replicate c.n (0 : F)) none)
      (fun r => (∃ com : FeldmanCommitment G, JointSharing c r.1 com ∧ (com.poly F).eval 0 = 0) ∧
        ∀ i ∈ c.ids, checkZeroConstant r.2 i = .ok ()) Never := by
  unfold dealFixedSecrets
  rw [if_neg (by rw [List.length_replicate]; exact fun h => h rfl)]
  have hstart : ∀ e ∈ c.ids.zipIdx, Triple (Enough c.n)
      (lift (nth (List.replicate c.n (0 : F)) e.2) >>= fun secret =>
        DkgInstance.startWithSecret (G := G) c sid tag e.1 secret e.2 >>= fun b =>
          pure (tamperDealer none b.1, b.2))
      (fun b => (b.1.Honest c sid tag ∧ b.1.me = e.1 ∧ b.2 = b.1.commitOf) ∧ b.1.poly.poly.eval 0 = 0) Never := by
    intro e he
    have hk := lt_n_of_mem_zipIdx he
    have hzero : nth (List.replicate c.n (0 : F)) e.2 = .ok 0 := by
      unfold nth
      rw [List.getElem?_replicate_of_lt hk]
    refine Triple.lift_bind hzero ?_
    refine (DkgInstance.startWithSecret_triple hk c sid tag e.1 0).bind fun b hb => ?_
    exact Triple.pure ⟨hb.1, head_poly_eval hb.2⟩
  refine (Triple.mapM _ hstart).bind fun started hs => ?_
  obtain ⟨hme, hh, hstarted⟩ := started_session (hs.imp fun _ _ h => h.1)
  have hzeros : ∀ d ∈ started.map (·.1), d.poly.poly.eval 0 = 0 := by
    intro d hd
    obtain ⟨b, hb, rfl⟩ := List.mem_map.mp hd
    obtain ⟨e, -, he⟩ := forall₂_exists_left hs hb
    exact he.2
  have hr1 : started.map (fun e => (e.2.sender, e.2)) =
      (started.map (·.1)).map fun d => (d.me, d.commitOf) := by
    conv_lhs => rw [hstarted, List.map_map]
    rfl
  obtain ⟨outs, com, hok, hjs, hpoly⟩ := deliverFixed_honest _ hh hme
  have hsum : (com.poly F).eval 0 = 0 := by
    rw [hpoly, eval_listSum, List.map_map]
    refine List.sum_eq_zero fun v hv => ?_
    obtain ⟨d, hd, rfl⟩ := List.mem_map.mp hv
    exact hzeros d hd
  simp only [hr1, hok]
  refine Triple.lift (fun r hr => ?_) (fun e he => by cases he)
  cases hr
  refine ⟨⟨com, hjs, hsum⟩, fun i hi => ?_⟩
  rw [← hme] at hi
  obtain ⟨d, hd, rfl⟩ := List.mem_map.mp hi
  have hhead := nth_points_zero (F := F) (hh d hd).length_com c.t_pos
  rw [(hh d hd).poly_com, hzeros d hd, zero_smul] at hhead
  unfold checkZeroConstant
  rw [(session_collect _ hh hme _).2 d hd]
  simp only [bind, Except.bind, hhead, ne_eq, not_true_eq_false, if_false]
  rfl

theorem nth_shares {c : Committee} {keys : List (KeyShare F G)} {com : FeldmanCommitment G}
    (h : JointSharing c keys com) {e : PartyId × Nat} (he : e ∈ c.ids.zipIdx) :
    nth keys e.2 = .ok ⟨e.1, (com.poly F).eval (scalarFrom e.1), com⟩ := by
  rw [h.outs_eq]
  exact nth_map_of_mem _ _ he

/-- **A refresh keeps the key.** -/
theorem refresh_triple {c : Committee} {keys : List (KeyShare F G)} {com : FeldmanCommitment G} {x : F}
    (h : KeyOf c keys com x) (sid : Bytes) :
    Triple (Enough c.n) (refresh c keys sid none) (fun keys' => ∃ com', KeyOf c keys' com' x) Never := by
  unfold refresh
  refine Triple.get_bind fun s hs => Triple.lift_bind (checkCommitteeInputs_ok (keySharing_of h.toJointSharing) hs) ?_
  refine (dealZeros_triple c sid _).bind ?_
  rintro ⟨zOuts, reveals⟩ ⟨⟨zCom, hz, hzero⟩, hcheck⟩
  have hz : JointSharing c zOuts zCom := hz
  have hlen : (com.add zCom).points.length = c.t.val := by
    rw [length_add, h.length, hz.length, max_self]
  have hpoly : ((com.add zCom).poly F).eval 0 = x := by
    rw [poly_add, eval_add, h.secret, hzero, add_zero]
  have hp0 : nth (com.add zCom).points 0 = .ok (x • K256.generator F) := by
    rw [nth_points_zero (F := F) hlen c.t_pos, hpoly]
  have hx0 : nth com.points 0 = .ok (x • K256.generator F) := by
    rw [nth_points_zero (F := F) h.length c.t_pos, h.secret]
  have hrefreshed : ∀ e ∈ c.ids.zipIdx, (do
      let key ← nth keys e.2
      refreshed key ⟨e.1, (zCom.poly F).eval (scalarFrom e.1), zCom⟩ : Outcome (KeyShare F G)) =
      .ok ⟨e.1, ((com.add zCom).poly F).eval (scalarFrom e.1), com.add zCom⟩ := by
    intro e he
    rw [nth_shares h.toJointSharing he]
    simp only [bind, Except.bind, refreshed, hp0, hx0, ne_eq, not_true_eq_false, if_false, poly_add, eval_add]
    rfl
  have hout : zOuts.zipIdx.mapM (fun e => do
      let key ← nth keys e.2
      refreshed key e.1 : KeyShare F G × Nat → Outcome (KeyShare F G)) =
      .ok (c.ids.map fun i => ⟨i, ((com.add zCom).poly F).eval (scalarFrom i), com.add zCom⟩) := by
    rw [hz.outs_eq, List.zipIdx_map, List.mapM_map]
    exact mapM_zipIdx_ok _ (fun i => (⟨i, ((com.add zCom).poly F).eval (scalarFrom i), com.add zCom⟩ : KeyShare F G)) _
      hrefreshed
  have hcheck : c.ids.forM (checkZeroConstant reveals) = .ok () := forM_ok_of _ _ hcheck
  dsimp only
  rw [hcheck, hout]
  exact Triple.lift (fun _ h => by cases h; exact ⟨com.add zCom, ⟨hlen, rfl⟩, hpoly⟩) (fun _ h => by cases h)

/-- What an honest dealer of its share `s` deals. -/
structure ReshareDealer.Honest (new : Committee) (j : PartyId) (s : F) (d : ReshareDealer F G) : Prop where
  sender : d.sender = j
  com : d.com = fromPoly d.poly
  length : d.poly.coeffs.length = new.t.val
  secret : d.poly.poly.eval 0 = s
  badDeal : d.badDeal = none

theorem ReshareDealer.Honest.shareFor {new : Committee} {j : PartyId} {s : F} {d : ReshareDealer F G}
    (h : d.Honest new j s) (m : PartyId) : d.shareFor m = d.poly.poly.eval (scalarFrom m) := by
  unfold ReshareDealer.shareFor
  rw [h.badDeal, ShamirPoly.eval_eq]
  rfl

theorem ReshareDealer.Honest.length_com {new : Committee} {j : PartyId} {s : F} {d : ReshareDealer F G}
    (h : d.Honest new j s) : d.com.points.length = new.t.val := by
  rw [h.com, fromPoly, List.length_map, h.length]

theorem ReshareDealer.Honest.poly_com {new : Committee} {j : PartyId} {s : F} {d : ReshareDealer F G}
    (h : d.Honest new j s) : d.com.poly F = d.poly.poly := by
  rw [h.com, poly_fromPoly]

theorem startReshare_run (new : Committee) {keys : List (KeyShare F G)} {key : KeyShare F G} {s : Rngs F}
    {r : StdRng F} {j : PartyId} {k : Nat} (hkey : nth keys k = .ok key) (h : s.rngs[k]? = some r) :
    ∃ s', startReshare new keys none j k s = (.ok ⟨j, ⟨key.share :: (List.range (new.t.val - 1)).map fun i =>
      r.stream (r.pos + i)⟩, fromPoly ⟨key.share :: (List.range (new.t.val - 1)).map fun i =>
      r.stream (r.pos + i)⟩, none⟩, s') := by
  obtain ⟨s', -, hrun⟩ := random_run key.share new.t h
  refine ⟨s', ?_⟩
  unfold startReshare
  rw [lift_bind_run, hkey]
  dsimp only
  rw [bind_run, hrun]
  rfl

theorem startReshare_triple {old : Committee} (new : Committee) {keys : List (KeyShare F G)}
    {com : FeldmanCommitment G} (h : JointSharing old keys com) {e : PartyId × Nat} (he : e ∈ old.ids.zipIdx) :
    Triple (Enough old.n) (startReshare new keys none e.1 e.2)
      (ReshareDealer.Honest new e.1 ((com.poly F).eval (scalarFrom e.1))) Never := by
  unfold startReshare
  refine Triple.lift_bind (nth_shares h he) ?_
  refine (random_triple (lt_n_of_mem_zipIdx he) _ new.t new.t_pos).bind fun p hp => ?_
  refine Triple.lift_bind (a := fromPoly p) rfl ?_
  exact Triple.pure ⟨rfl, rfl, hp.1, head_poly_eval hp.2, rfl⟩

/-- The Lagrange weight of a member at 0. -/
noncomputable def lam (F : Type) [Field F] [DecidableEq F] (c : Committee) (j : PartyId) : F :=
  weight 0 (c.ids.map scalarFrom) (scalarFrom j)

section Reshare

variable {old new : Committee} {com : FeldmanCommitment G} {sid : Bytes} (deal : PartyId → ReshareDealer F G)
  (hdeal : ∀ j ∈ old.ids, (deal j).Honest new j ((com.poly F).eval (scalarFrom j)))

/-- The commitments, reveals and shares of the dealers, as `reshare` builds them. -/
def commitsOf (sid : Bytes) (dealers : List (ReshareDealer F G)) : PartyMap DkgBcast1 :=
  collect (dealers.map fun d => (d.sender, ⟨d.sender, hashCommitment F sid tags.reshareCommit d.sender d.com⟩))

def revealsOf (dealers : List (ReshareDealer F G)) : PartyMap (DkgBcast2 G) :=
  collect (dealers.map fun d => (d.sender, ⟨d.sender, d.com⟩))

include hdeal

/-- **Honest deals pass every check.** -/
theorem checkDeal_honest (m : PartyId) {e : PartyId × Nat} (he : e ∈ old.ids.zipIdx) :
    checkDeal new sid com (commitsOf sid (old.ids.map deal)) (revealsOf (old.ids.map deal))
      (collect ((old.ids.map deal).map fun d => (d.sender, d.shareFor m))) (old.ids.map deal) m e.1 e.2 =
      .ok ((deal e.1).poly.poly.eval (scalarFrom m), (deal e.1).com) := by
  have hj : e.1 ∈ old.ids := List.mem_of_getElem? (List.mem_zipIdx_iff_getElem?.mp he)
  have h := hdeal e.1 hj
  have hat : ∀ {ν : Type} (g : ReshareDealer F G → ν),
      index (collect ((old.ids.map deal).map fun d => (d.sender, g d))) e.1 = .ok (g (deal e.1)) := by
    intro ν g
    refine index_collect _ ?_ ?_
    · have hid : ((old.ids.map deal).map fun d => (d.sender, g d)).map (·.1) = old.ids := by
        rw [List.map_map, List.map_map]
        conv_rhs => rw [← List.map_id old.ids]
        exact List.map_congr_left fun j hj => (hdeal j hj).sender
      rw [hid]
      exact old.nodup
    · rw [List.map_map]
      refine List.mem_map.mpr ⟨e.1, hj, ?_⟩
      simp only [Function.comp_apply, h.sender]
  have hp0 : nth (deal e.1).com.points 0 = .ok (com.evalAt F e.1) := by
    rw [nth_points_zero (F := F) h.length_com new.t_pos, h.poly_com, h.secret, evalAt_eq]
  have hver : (deal e.1).com.verifyShare m ((deal e.1).shareFor m) = true := by
    rw [verifyShare_iff, h.poly_com, h.shareFor]
  unfold checkDeal commitsOf revealsOf
  simp only [bind, Except.bind, hat, h.length_com, h.sender, hp0, hver, ne_eq, not_true_eq_false, if_false, if_true]
  rw [h.shareFor]
  rfl

/-- What the new members recombine. -/
theorem combine_reshares :
    ∃ com' : FeldmanCommitment G, com'.points.length = new.t.val ∧
      (com'.poly F).eval 0 = (old.ids.map fun j => lam F old j * (com.poly F).eval (scalarFrom j)).sum ∧
      (∀ m : PartyId, (com'.poly F).eval (scalarFrom m) =
        (old.ids.map fun j => lam F old j * (deal j).poly.poly.eval (scalarFrom m)).sum) ∧
      ∀ m, old.ids.zipIdx.foldl (fun acc e =>
          (acc.1 + lam F old e.1 * (deal e.1).poly.poly.eval (scalarFrom m),
            acc.2.add ((deal e.1).com.scale (lam F old e.1))))
          ((0 : F), (⟨List.replicate new.t.val 0⟩ : FeldmanCommitment G)) =
        ((com'.poly F).eval (scalarFrom m), com') := by
  have hpoly : ((old.ids.map fun j => (deal j).com.scale (lam F old j)).foldl add ⟨List.replicate new.t.val 0⟩).poly F =
      (old.ids.map fun j => C (lam F old j) * (deal j).poly.poly).sum := by
    rw [poly_foldl_add, poly_replicate_zero, zero_add, List.map_map]
    refine congrArg _ (List.map_congr_left fun j hj => ?_)
    rw [Function.comp_apply, poly_scale, (hdeal j hj).poly_com]
  have heval : ∀ v : F, (old.ids.map fun j => C (lam F old j) * (deal j).poly.poly).sum.eval v =
      (old.ids.map fun j => lam F old j * (deal j).poly.poly.eval v).sum := by
    intro v
    rw [eval_listSum, List.map_map]
    simp only [Function.comp_def, eval_mul, eval_C]
  refine ⟨(old.ids.map fun j => (deal j).com.scale (lam F old j)).foldl add ⟨List.replicate new.t.val 0⟩,
    ?_, ?_, fun m => by rw [hpoly, heval], fun m => ?_⟩
  · refine length_foldl_add _ _ _ (fun d hd => ?_) (List.length_replicate ..)
    obtain ⟨j, hj, rfl⟩ := List.mem_map.mp hd
    rw [length_scale, (hdeal j hj).length_com]
  · rw [hpoly, heval]
    refine congrArg _ (List.map_congr_left fun j hj => ?_)
    rw [(hdeal j hj).secret]
  · rw [hpoly, heval, foldl_pair (fun e : PartyId × Nat => lam F old e.1 * (deal e.1).poly.poly.eval (scalarFrom m))
      (fun e => (deal e.1).com.scale (lam F old e.1)), zero_add,
      map_fst_zipIdx (fun j => (deal j).com.scale (lam F old j)),
      map_fst_zipIdx (fun j => lam F old j * (deal j).poly.poly.eval (scalarFrom m))]

/-- A new member's share is the recombined polynomial's value at it, provided
that the polynomial keeps the public key. -/
theorem receive_honest (sid : Bytes) {x0 p0 : G} (hx0 : nth com.points 0 = .ok x0) {com' : FeldmanCommitment G}
    (hp0 : nth com'.points 0 = .ok p0) (m : PartyId) (hm : m ∈ new.ids)
    (hfold : old.ids.zipIdx.foldl (fun acc e =>
        (acc.1 + lam F old e.1 * (deal e.1).poly.poly.eval (scalarFrom m),
          acc.2.add ((deal e.1).com.scale (lam F old e.1))))
        ((0 : F), (⟨List.replicate new.t.val 0⟩ : FeldmanCommitment G)) = ((com'.poly F).eval (scalarFrom m), com')) :
    receive old new sid com (commitsOf sid (old.ids.map deal)) (revealsOf (old.ids.map deal))
      ((old.ids.map deal).flatMap fun d => new.ids.map fun m => ⟨d.sender, m, d.shareFor m⟩) (old.ids.map deal)
      (old.ids.map (lam F old)) m =
      if p0 ≠ x0 then .error (.panic "re-sharing must preserve the public key X")
      else .ok ⟨m, (com'.poly F).eval (scalarFrom m), com'⟩ := by
  unfold receive
  rw [addressed_shares new (old.ids.map deal) (·.sender) (fun d m => d.shareFor m) m hm]
  have hstep : ∀ e ∈ old.ids.zipIdx, ∀ acc : F × FeldmanCommitment G, ((do
      let d ← checkDeal new sid com (commitsOf sid (old.ids.map deal)) (revealsOf (old.ids.map deal))
        (collect ((old.ids.map deal).map fun d => (d.sender, d.shareFor m))) (old.ids.map deal) m e.1 e.2
      let w ← nth (old.ids.map (lam F old)) e.2
      return (acc.1 + w * d.1, acc.2.add (d.2.scale w))) : Outcome (F × FeldmanCommitment G)) =
      .ok (acc.1 + lam F old e.1 * (deal e.1).poly.poly.eval (scalarFrom m),
        acc.2.add ((deal e.1).com.scale (lam F old e.1))) := by
    intro e he acc
    rw [checkDeal_honest deal hdeal m he, nth_map_of_mem _ _ he]
    rfl
  dsimp only
  rw [foldlM_ok_of _ _ _ hstep, hfold]
  simp only [bind, Except.bind, hx0, hp0]
  rfl

/-- **A re-sharing by honest dealers** succeeds exactly when the old shares
interpolate to the key. -/
theorem reshare_run {keys : List (KeyShare F G)} {x : F} (h : KeyOf old keys com x) (sid : Bytes) {s s' : Rngs F}
    (hs : Enough old.n s)
    (hdeals : (old.ids.zipIdx.mapM fun e => startReshare new keys none e.1 e.2) s = (.ok (old.ids.map deal), s')) :
    ∃ com', com'.points.length = new.t.val ∧
      (com'.poly F).eval 0 = (old.ids.map fun j => lam F old j * (com.poly F).eval (scalarFrom j)).sum ∧
      (∀ m : PartyId, (com'.poly F).eval (scalarFrom m) =
        (old.ids.map fun j => lam F old j * (deal j).poly.poly.eval (scalarFrom m)).sum) ∧
      reshare old new keys sid none s =
        (if (com'.poly F).eval 0 = x then
            .ok (new.ids.map fun m => ⟨m, (com'.poly F).eval (scalarFrom m), com'⟩)
          else .error (.panic "re-sharing must preserve the public key X"), s') := by
  obtain ⟨com', hlen, hsecret, hat, hfold⟩ := combine_reshares deal hdeal
  refine ⟨com', hlen, hsecret, hat, ?_⟩
  have hx0 : nth com.points 0 = .ok (x • K256.generator F) := by
    rw [nth_points_zero (F := F) h.length old.t_pos, h.secret]
  have hp0 : nth com'.points 0 = .ok ((com'.poly F).eval 0 • K256.generator F) :=
    nth_points_zero (F := F) hlen new.t_pos
  obtain ⟨i, -, hi⟩ := nth_zero_map old fun i => (⟨i, (com.poly F).eval (scalarFrom i), com⟩ : KeyShare F G)
  rw [← h.outs_eq] at hi
  have hlam : lagrangeCoeffs old.ids = .ok (old.ids.map (lam F old)) :=
    lagrangeCoeffsAt_eq (0 : F) old.ids (map_scalarFrom_nodup F G old.nodup)
  have hreceive := fun m hm => receive_honest deal hdeal sid hx0 hp0 m hm (hfold m)
  have hout : new.ids.mapM (receive old new sid com (commitsOf sid (old.ids.map deal)) (revealsOf (old.ids.map deal))
      ((old.ids.map deal).flatMap fun d => new.ids.map fun m => ⟨d.sender, m, d.shareFor m⟩) (old.ids.map deal)
      (old.ids.map (lam F old))) =
      if (com'.poly F).eval 0 = x then
        .ok (new.ids.map fun m => ⟨m, (com'.poly F).eval (scalarFrom m), com'⟩)
      else .error (.panic "re-sharing must preserve the public key X") := by
    by_cases hx : (com'.poly F).eval 0 = x
    · rw [if_pos hx]
      refine mapM_ok_of _ _ _ fun m hm => ?_
      rw [hreceive m hm, hx, if_neg (by simp)]
    · rw [if_neg hx]
      have hne : (com'.poly F).eval 0 • (K256.generator F : G) ≠ x • K256.generator F :=
        fun heq => hx ((smul_generator_inj _ _).mp heq)
      refine mapM_error_of _ _ _ new.ids_ne fun m hm => ?_
      rw [hreceive m hm, if_pos hne]
  have hcheck := checkCommitteeInputs_ok (keySharing_of h.toJointSharing) hs
  unfold reshare
  rw [bind_run]
  show (lift (checkInputs old keys s.rngs.length) >>= fun _ => _ : RngM F _) s = _
  rw [lift_bind_run, checkInputs, hcheck]
  dsimp only
  rw [lift_bind_run, hi]
  dsimp only
  rw [bind_run, hdeals]
  dsimp only
  rw [lift_bind_run, hlam]
  dsimp only
  unfold commitsOf revealsOf at hout
  rw [hout]
  rfl

end Reshare

/-- Below the number of members the old shares do interpolate to the key. -/
theorem interpolate_old {c : Committee} {com : FeldmanCommitment G} (hdeg : (com.poly F).degree < c.n) :
    (c.ids.map fun j => lam F c j * (com.poly F).eval (scalarFrom j)).sum = (com.poly F).eval 0 := by
  have hnd : (c.ids.map (scalarFrom : PartyId → F)).Nodup := map_scalarFrom_nodup F G c.nodup
  have hint := sum_weight_mul_eval 0 _ hnd (com.poly F) (by rw [List.length_map]; exact hdeg)
  rwa [List.map_map] at hint

theorem KeyOf.degree_lt {c : Committee} {keys : List (KeyShare F G)} {com : FeldmanCommitment G} {x : F}
    (h : KeyOf c keys com x) (hn : c.t.val ≤ c.n) : (com.poly F).degree < c.n := by
  have := degree_poly_lt (F := F) com
  rw [h.length] at this
  exact this.trans_le (by exact_mod_cast hn)

/-- **A re-sharing keeps the key.** -/
theorem reshare_triple {old : Committee} (new : Committee) {keys : List (KeyShare F G)} {com : FeldmanCommitment G}
    {x : F} (h : KeyOf old keys com x) (hn : old.t.val ≤ old.n) (sid : Bytes) :
    Triple (Enough old.n) (reshare old new keys sid none) (fun keys' => ∃ com', KeyOf new keys' com' x) Never := by
  intro s hs
  have hdeals := Triple.mapM (E := Never) _ (fun e he => startReshare_triple new h.toJointSharing he) s hs
  rcases hm : (old.ids.zipIdx.mapM fun e => startReshare new keys none e.1 e.2) s with ⟨e | dealers, s'⟩
  · rw [hm] at hdeals
    exact hdeals.2.elim
  rw [hm] at hdeals
  obtain ⟨hs', hrel⟩ := hdeals
  have : Nonempty (ReshareDealer F G) := ⟨⟨0, ⟨[]⟩, ⟨[]⟩, none⟩⟩
  obtain ⟨deal, rfl, hdeal⟩ := forall₂_exists_map old.nodup (forall₂_zipIdx
    (R := fun j => ReshareDealer.Honest new j ((com.poly F).eval (scalarFrom j))) hrel)
  obtain ⟨com', hlen, hsecret, -, hrun⟩ := reshare_run deal hdeal h sid hs hm
  rw [interpolate_old (h.degree_lt hn), h.secret] at hsecret
  rw [hrun, if_pos hsecret]
  exact ⟨hs', com', ⟨hlen, rfl⟩, hsecret⟩

/-! ## Runs -/

/-- One maintenance operation: who runs it is the current committee, with the
generators it is given. -/
inductive Op (F : Type)
  | refresh (sid : Bytes) (rngs : Rngs F)
  | reshare (ids : List PartyId) (t : Usize) (sid : Bytes) (rngs : Rngs F)

/-- The current committee and its key shares. -/
abbrev Epoch (F G : Type) := Committee × List (KeyShare F G)

def Op.run (epoch : Epoch F G) : Op F → Outcome (Epoch F G)
  | .refresh sid rngs => do
    let keys ← (Refresh.refresh epoch.1 epoch.2 sid none rngs).1
    return (epoch.1, keys)
  | .reshare ids t sid rngs => do
    let new ← Committee.new ids t
    let keys ← (Refresh.reshare epoch.1 new epoch.2 sid none rngs).1
    return (new, keys)

/-- Honest inputs: a generator for every current member, and new committees
that `Committee::new` accepts. -/
def Fits : Committee → List (Op F) → Prop
  | _, [] => True
  | c, .refresh _ rngs :: ops => c.n ≤ rngs.rngs.length ∧ Fits c ops
  | c, .reshare ids t _ rngs :: ops =>
    c.n ≤ rngs.rngs.length ∧ ∃ new, Committee.new ids t = .ok new ∧ Fits new ops

/-- `2 * t` does not overflow a `usize` where `Committee::new` computes it. -/
def Op.Exact : Op F → Prop
  | .refresh _ _ => True
  | .reshare _ t _ _ => t.val < 2 ^ 63

/-- An epoch of the key `x`: shares on one committed polynomial, the public key
`x·G`, and every quorum of shares interpolating to `x`. -/
structure Holds (epoch : Epoch F G) (com : FeldmanCommitment G) (x : F) : Prop where
  index : epoch.2.map (·.index) = epoch.1.ids
  agreed : ∀ key ∈ epoch.2, key.com = com
  length : com.points.length = epoch.1.t.val
  publicKey : nth com.points 0 = .ok (x • K256.generator F)
  share : ∀ key ∈ epoch.2, com.verifyShare key.index key.share = true
  quorum : ∀ shares : List (KeyShare F G), (∀ key ∈ shares, key ∈ epoch.2) → (shares.map (·.index)).Nodup →
    shares.length = epoch.1.t.val →
    interpolateAtZero (shares.map (·.index)) (shares.map (·.share)) = .ok x

theorem KeyOf.holds {c : Committee} {keys : List (KeyShare F G)} {com : FeldmanCommitment G} {x : F}
    (h : KeyOf c keys com x) : Holds (c, keys) com x := by
  have hkeys := keySharing_of h.toJointSharing
  have hcom : ∀ key ∈ keys, key.com = com := by
    intro key hkey
    rw [h.outs_eq] at hkey
    obtain ⟨i, -, rfl⟩ := List.mem_map.mp hkey
    rfl
  refine ⟨hkeys.index, hcom, h.length, ?_, fun key hkey => ?_, fun shares hsub hnd hlen => ?_⟩
  · rw [nth_points_zero (F := F) h.length c.t_pos, h.secret]
  · rw [verifyShare_iff, hkeys.share key hkey]
  · have hshares : shares.map (·.share) = (shares.map (·.index)).map fun j => (com.poly F).eval (scalarFrom j) := by
      rw [List.map_map]
      exact List.map_congr_left fun key hkey => hkeys.share key (hsub key hkey)
    have hdeg : (com.poly F).degree < (shares.map (·.index)).length := by
      rw [List.length_map, hlen]
      exact hkeys.degree
    rw [hshares, interpolateAtZero, interpolateAt_eval 0 _ (map_scalarFrom_nodup F G hnd) _ hdeg, h.secret]

/-- **One operation keeps the key.** -/
theorem Op.run_keeps {c : Committee} (hc : c.t.val ≤ c.n) {keys : List (KeyShare F G)} {com : FeldmanCommitment G}
    {x : F} (h : KeyOf c keys com x) (op : Op F) (ops : List (Op F)) (hfit : Fits c (op :: ops)) (hex : op.Exact) :
    ∃ c' keys' com', op.run (c, keys) = .ok (c', keys') ∧ KeyOf c' keys' com' x ∧ c'.t.val ≤ c'.n ∧ Fits c' ops := by
  cases op with
  | refresh sid rngs =>
    obtain ⟨hlen, hfit⟩ := hfit
    obtain ⟨-, hr⟩ := refresh_triple h sid rngs hlen
    cases hrun : (Refresh.refresh c keys sid none rngs).1 with
    | error e =>
      rw [hrun] at hr
      exact hr.elim
    | ok keys' =>
      rw [hrun] at hr
      obtain ⟨com', h'⟩ := hr
      refine ⟨c, keys', com', ?_, h', hc, hfit⟩
      simp only [Op.run, hrun]
      rfl
  | reshare ids t sid rngs =>
    obtain ⟨hlen, new, hnew, hfit⟩ := hfit
    obtain ⟨-, hr⟩ := reshare_triple new h hc sid rngs hlen
    cases hrun : (Refresh.reshare c new keys sid none rngs).1 with
    | error e =>
      rw [hrun] at hr
      exact hr.elim
    | ok keys' =>
      rw [hrun] at hr
      obtain ⟨com', h'⟩ := hr
      refine ⟨new, keys', com', ?_, h', new.t_le_n (Committee.majority_of_new hnew hex), hfit⟩
      simp only [Op.run, hnew]
      show (do let keys ← (Refresh.reshare c new keys sid none rngs).1; return (new, keys) : Outcome (Epoch F G)) = _
      rw [hrun]
      rfl

/-- **A run keeps the key.** -/
theorem run_keeps (ops : List (Op F)) :
    ∀ (c : Committee) (keys : List (KeyShare F G)) (com : FeldmanCommitment G) (x : F), c.t.val ≤ c.n →
      KeyOf c keys com x → Fits c ops → (∀ op ∈ ops, op.Exact) →
      ∃ c' keys' com', ops.foldlM Op.run (c, keys) = .ok (c', keys') ∧ KeyOf c' keys' com' x := by
  induction ops with
  | nil =>
    intro c keys com x _ h _ _
    exact ⟨c, keys, com, rfl, h⟩
  | cons op ops ih =>
    intro c keys com x hc h hfit hex
    obtain ⟨c₁, keys₁, com₁, hrun, h₁, hc₁, hfit₁⟩ := Op.run_keeps hc h op ops hfit (hex op List.mem_cons_self)
    obtain ⟨c', keys', com', hfold, h'⟩ :=
      ih c₁ keys₁ com₁ x hc₁ h₁ hfit₁ fun o ho => hex o (List.mem_cons_of_mem _ ho)
    refine ⟨c', keys', com', ?_, h'⟩
    rw [List.foldlM_cons, hrun]
    exact hfold

/-- **Key lineage**: an honest key generation and any run of refreshes and
re-sharings from it. -/
theorem key_lineage (n t : Usize) (params : Params) (hp : Params.new n t = .ok params) (ht : t.val < 2 ^ 63)
    (sid : Bytes) (rngs : Rngs F) (hr : n.val ≤ rngs.rngs.length) :
    ∃ c keys com x, Committee.full params = .ok c ∧ (runKeygen (G := G) params sid rngs).1 = .ok keys ∧
      Holds (c, keys) com x ∧
      ∀ ops : List (Op F), Fits c ops → (∀ op ∈ ops, op.Exact) →
        ∃ epoch com', ops.foldlM Op.run (c, keys) = .ok epoch ∧ Holds epoch com' x := by
  obtain ⟨rfl, hpos, hmaj⟩ := params_new_ok hp ht.le
  obtain ⟨c, hc, hids, hct, hn⟩ := full_ok ⟨n, t⟩ hpos hmaj
  obtain ⟨-, hkeys⟩ := driveDkg_triple (F := F) (G := G) .keyGen hc hids sid tags.dkgCommit rngs (by
    unfold Enough
    rw [hn]
    exact hr)
  cases hrun : (driveDkg (F := F) (G := G) ⟨n, t⟩ sid tags.dkgCommit .keyGen none rngs).1 with
  | error e =>
    rw [hrun] at hkeys
    exact hkeys.elim
  | ok keys =>
    rw [hrun] at hkeys
    obtain ⟨com, hjs⟩ := hkeys
    have h : KeyOf c keys com ((com.poly F).eval 0) := ⟨hjs, rfl⟩
    refine ⟨c, keys, com, _, hc, hrun, h.holds, fun ops hfit hex => ?_⟩
    obtain ⟨c', keys', com', hfold, h'⟩ := run_keeps ops c keys com _ (by rw [hct, hn]; show t.val ≤ n.val; omega) h hfit hex
    exact ⟨(c', keys'), com', hfold, h'.holds⟩

/-! ### 2-of-3, refreshed and moved to other members -/

section Trio

open Secp256k1

def trioRngs : Rngs Scalar := ⟨[⟨1, fun i => i + 2, 0⟩, ⟨2, fun i => i + 5, 0⟩, ⟨3, fun i => i + 11, 0⟩], []⟩

def trioRun : List (Op Scalar) := [.refresh [1] trioRngs, .reshare [7, 2, 5] 2 [2] trioRngs, .refresh [3] trioRngs]

theorem key_lineage_trio : ∃ c keys com x epoch com', Committee.full ⟨3, 2⟩ = .ok c ∧
    (runKeygen (G := Point) ⟨3, 2⟩ [0] trioRngs).1 = .ok keys ∧ Holds (c, keys) com x ∧
    trioRun.foldlM Op.run (c, keys) = .ok epoch ∧ Holds epoch com' x := by
  obtain ⟨c, keys, com, x, hc, hkeys, hx, hrun⟩ :=
    key_lineage (G := Point) 3 2 ⟨3, 2⟩ (by decide) (by decide) [0] trioRngs (by decide)
  have htrio : Committee.full ⟨3, 2⟩ = .ok trio := by
    unfold Committee.full
    rw [show Committee.new (Params.parties ⟨3, 2⟩) 2 = .ok trio from Committee.new_self trio (by decide)]
  obtain rfl : trio = c := Except.ok.inj (htrio.symm.trans hc)
  let moved : Committee :=
    { ids := [2, 5, 7], t := 2, sorted := by decide, ids_pos := by simp, ids_ne := by decide, t_pos := by decide }
  have hmoved : Committee.new [7, 2, 5] 2 = .ok moved := by rfl
  obtain ⟨epoch, com', hfold, h'⟩ := hrun trioRun
    ⟨le_refl 3, le_refl 3, moved, hmoved, le_refl 3, trivial⟩ (by simp [trioRun, Op.Exact])
  exact ⟨trio, keys, com, x, epoch, com', hc, hkeys, hx, hfold, h'⟩

end Trio

/-! ### A threshold past the overflow -/

section Overflow

open Secp256k1

def wideT : Usize := 9223372036854775809

def overflowRun : List (Op Scalar) :=
  [.reshare [1] wideT [] ⟨[⟨1, fun i => if i = 0 then 1 else 0, 0⟩], []⟩, .reshare [1] 1 [] soloRngs]

theorem new_wide : ∃ new, Committee.new [1] wideT = .ok new ∧ new.ids = [1] ∧ new.t = wideT := by
  have hsome : (Committee.new [1] wideT).toOption.isSome = true := by decide +kernel
  cases h : Committee.new [1] wideT with
  | error e =>
    rw [h] at hsome
    cases hsome
  | ok new =>
    obtain ⟨hids, ht, -⟩ := Committee.new_ok h
    exact ⟨new, rfl, by rw [hids]; rfl, ht⟩

theorem eval_one_ofCoeffs (l : List Scalar) : (ofCoeffs l).eval 1 = l.sum := by
  induction l with
  | nil => simp
  | cons c cs ih => rw [ofCoeffs_cons, eval_add, eval_C, eval_mul, eval_X, ih, one_mul, List.sum_cons]

theorem sum_first (m : Nat) : ((List.range (m + 1)).map fun i => if 0 + i = 0 then (1 : Scalar) else 0).sum = 1 := by
  rw [List.range_succ_eq_map, List.map_cons, List.map_map, List.sum_cons]
  have hrest : ((List.range m).map ((fun i => if 0 + i = 0 then (1 : Scalar) else 0) ∘ Nat.succ)).sum = 0 := by
    refine List.sum_eq_zero fun v hv => ?_
    obtain ⟨i, -, rfl⟩ := List.mem_map.mp hv
    rw [Function.comp_apply, if_neg (by omega)]
  rw [hrest, if_pos (by omega), add_zero]

/-- In a one-member committee the recombination is the member's own dealing. -/
theorem lam_solo {c : Committee} (hids : c.ids = [1]) : lam Scalar c 1 = 1 := by
  unfold lam
  rw [hids, weight_eq_div]
  simp

/-- **A re-sharing from a one-member committee** hands its share on as the secret. -/
theorem reshare_solo {old new : Committee} (hids : old.ids = [1]) {keys : List (KeyShare Scalar Point)}
    {com : FeldmanCommitment Point} {x : Scalar} (h : KeyOf old keys com x) (hnew : new.ids = [1])
    (stream : Nat → Scalar) :
    ∃ com', com'.points.length = new.t.val ∧ (com'.poly Scalar).eval 0 = (com.poly Scalar).eval 1 ∧
      (com'.poly Scalar).eval 1 =
        (com.poly Scalar).eval 1 + ((List.range (new.t.val - 1)).map fun i => stream (0 + i)).sum ∧
      (reshare old new keys [] none ⟨[⟨1, stream, 0⟩], []⟩).1 =
        if (com'.poly Scalar).eval 0 = x then .ok [⟨1, (com'.poly Scalar).eval 1, com'⟩]
        else .error (.panic "re-sharing must preserve the public key X") := by
  have hone : (scalarFrom (1 : PartyId) : Scalar) = 1 := by decide +kernel
  have hz : old.ids.zipIdx = [((1 : PartyId), 0)] := by rw [hids]; rfl
  have hkey := nth_shares h.toJointSharing (e := (1, 0)) (by rw [hz]; exact List.mem_singleton.mpr rfl)
  obtain ⟨s', hstart⟩ := startReshare_run new (j := 1) hkey (s := ⟨[⟨1, stream, 0⟩], []⟩) rfl
  let p : ShamirPoly Scalar :=
    ⟨(com.poly Scalar).eval (scalarFrom 1) :: (List.range (new.t.val - 1)).map fun i => stream (0 + i)⟩
  let deal : PartyId → ReshareDealer Scalar Point := fun _ => ⟨1, p, fromPoly p, none⟩
  have hdeal : ∀ j ∈ old.ids, (deal j).Honest new j ((com.poly Scalar).eval (scalarFrom j)) := by
    intro j hj
    rw [hids, List.mem_singleton] at hj
    subst hj
    have hpos := new.t_pos
    refine ⟨rfl, rfl, ?_, head_poly_eval rfl, rfl⟩
    show (_ :: _).length = _
    rw [List.length_cons, List.length_map, List.length_range]
    omega
  have hdeals : (old.ids.zipIdx.mapM fun e => startReshare new keys none e.1 e.2) ⟨[⟨1, stream, 0⟩], []⟩ =
      (.ok (old.ids.map deal), s') := by
    rw [hz, hids, List.mapM_cons, bind_run, hstart]
    rfl
  obtain ⟨com', hlen, hzero, hat, hrun⟩ :=
    reshare_run deal hdeal h [] (by unfold Enough Committee.n; rw [hids]; exact le_refl 1) hdeals
  have hpoly : p.poly.eval 1 = (com.poly Scalar).eval 1 + ((List.range (new.t.val - 1)).map fun i => stream (0 + i)).sum := by
    unfold ShamirPoly.poly
    rw [eval_one_ofCoeffs, List.sum_cons, hone]
  have hat1 := hat 1
  rw [hids, List.map_singleton, List.sum_singleton, lam_solo hids, one_mul, hone] at hat1 hzero
  refine ⟨com', hlen, hzero, hat1.trans hpoly, ?_⟩
  rw [hrun, hnew, List.map_singleton, hone]

/-- **Past the overflow a run trips the assertion**: `2 * t` wraps at
`t = 2^63 + 1`, so `Committee::new` accepts one member, whose degree-`2^63`
share no longer determines the key. -/
theorem lineage_overflow :
    Committee.full ⟨1, 1⟩ = .ok solo ∧
      (runKeygen (F := Scalar) (G := Point) ⟨1, 1⟩ [] soloRngs).1 = .ok [soloKey] ∧
      Fits solo overflowRun ∧
      overflowRun.foldlM Op.run (solo, [soloKey]) =
        .error (.panic "re-sharing must preserve the public key X") := by
  obtain ⟨wide, hwide, hwids, hwt⟩ := new_wide
  have hsolo : Committee.new [1] 1 = .ok solo := Committee.new_self solo (by decide)
  refine ⟨?_, by decide +kernel, ⟨le_refl 1, wide, hwide, ?_, solo, hsolo, trivial⟩, ?_⟩
  · unfold Committee.full
    rw [show Committee.new (Params.parties ⟨1, 1⟩) 1 = .ok solo from hsolo]
  · unfold Committee.n
    rw [hwids]
    exact le_refl 1
  have hkey : KeyOf solo [soloKey] ⟨[1]⟩ 1 := by
    have hcom : (⟨[1]⟩ : FeldmanCommitment Point) = fromPoly (⟨[1]⟩ : ShamirPoly Scalar) := by decide +kernel
    refine ⟨⟨rfl, ?_⟩, ?_⟩
    · rw [hcom, poly_fromPoly]
      simp [ShamirPoly.poly, soloKey, solo, hcom]
    · rw [hcom, poly_fromPoly]
      simp [ShamirPoly.poly]
  obtain ⟨com₁, hlen₁, hzero₁, hone₁, hrun₁⟩ := reshare_solo (show solo.ids = [1] from rfl) hkey hwids fun i => if i = 0 then 1 else 0
  have hx : ((⟨[1]⟩ : FeldmanCommitment Point).poly Scalar).eval 0 = 1 := hkey.secret
  have hshare : ((⟨[1]⟩ : FeldmanCommitment Point).poly Scalar).eval 1 = 1 := by
    have hcom : (⟨[1]⟩ : FeldmanCommitment Point) = fromPoly (⟨[1]⟩ : ShamirPoly Scalar) := by decide +kernel
    rw [hcom, poly_fromPoly]
    simp [ShamirPoly.poly]
  obtain ⟨m, hm⟩ : ∃ m, wide.t.val - 1 = m + 1 := ⟨2 ^ 63 - 1, by rw [hwt]; decide +kernel⟩
  rw [hshare] at hzero₁ hone₁
  rw [hm, sum_first] at hone₁
  rw [if_pos hzero₁, hone₁] at hrun₁
  have hkey₁ : KeyOf (F := Scalar) wide [⟨1, 1 + 1, com₁⟩] com₁ 1 := by
    have hat : (com₁.poly Scalar).eval (scalarFrom 1) = 1 + 1 := by
      rw [← hone₁]
      congr 1
    refine ⟨⟨hlen₁, ?_⟩, hzero₁⟩
    rw [hwids, List.map_singleton, hat]
  obtain ⟨com₂, -, hzero₂, -, hrun₂⟩ := reshare_solo hwids hkey₁ (show solo.ids = [1] from rfl) fun _ => 1
  rw [hone₁] at hzero₂
  rw [if_neg (by rw [hzero₂]; decide +kernel)] at hrun₂
  have h₁ : Op.run (solo, [soloKey]) (.reshare [1] wideT [] ⟨[⟨1, fun i => if i = 0 then 1 else 0, 0⟩], []⟩) =
      .ok (wide, [⟨1, 1 + 1, com₁⟩]) := by
    simp only [Op.run, hwide]
    show (do let keys ← (Refresh.reshare solo wide [soloKey] [] none _).1; return (wide, keys) : Outcome _) = _
    rw [hrun₁]
    rfl
  have h₂ : Op.run (wide, [⟨1, 1 + 1, com₁⟩]) (.reshare [1] 1 [] soloRngs) =
      .error (.panic "re-sharing must preserve the public key X") := by
    simp only [Op.run, hsolo]
    show (do let keys ← (Refresh.reshare wide solo [⟨1, 1 + 1, com₁⟩] [] none soloRngs).1
             return (solo, keys) : Outcome _) = _
    rw [show soloRngs = ⟨[⟨1, fun _ => 1, 0⟩], []⟩ from rfl, hrun₂]
    rfl
  unfold overflowRun
  rw [List.foldlM_cons, h₁]
  show (List.foldlM Op.run (wide, [⟨1, 1 + 1, com₁⟩]) [.reshare [1] 1 [] soloRngs]) = _
  rw [List.foldlM_cons, h₂]
  rfl

end Overflow

end Refresh

end OhmEcdsa
