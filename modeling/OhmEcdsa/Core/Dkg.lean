import OhmEcdsa.Core.Opening

/-!
# Commit-then-reveal DKG (`src/protocol/dkg.rs`) and the joint sharing of `triples.rs`

Three rounds: hash commitments, reveals with private shares, and the local
check with its complaint rule.  Among honest dealers nothing fails, and the
outputs are the values of one committed polynomial at the members' ids:

    Triple (n ≤ rngs) (jointRandom c sid phase) (JointSharing c) False      (jointRandom_triple)
-/

set_option linter.unusedSectionVars false

namespace OhmEcdsa

open Polynomial FeldmanCommitment Hoare

/-- Round-1 broadcast: hash commitment to the dealer's Feldman vector. -/
structure DkgBcast1 where
  sender : PartyId
  hash : Bytes
  deriving DecidableEq

/-- Round-2 broadcast: the revealed vector. -/
structure DkgBcast2 (G : Type) where
  sender : PartyId
  com : FeldmanCommitment G
  deriving DecidableEq

/-- Round-2 private message: the share for party `addressee`. -/
structure DkgP2P (F : Type) where
  sender : PartyId
  addressee : PartyId
  share : F
  deriving DecidableEq

/-- Per-party state.  `badDeal` and `badReveal` are the fault hooks. -/
structure DkgInstance (F G : Type) where
  committee : Committee
  sid : Bytes
  tag : Bytes
  me : PartyId
  poly : ShamirPoly F
  com : FeldmanCommitment G
  badDeal : Option PartyId
  badReveal : Bool

structure DkgOutput (F G : Type) where
  index : PartyId
  share : F
  com : FeldmanCommitment G
  deriving DecidableEq

variable {F G : Type} [Field F] [DecidableEq F] [AddCommGroup G] [Module F G] [DecidableEq G] [K256 F G]

/-! ## Algorithm -/

/-- `lib.rs`: the transcript digest of a Feldman vector. -/
def hashCommitment (F : Type) {G : Type} [Field F] [AddCommGroup G] [Module F G] [K256 F G]
    (sid tag : Bytes) (party : PartyId) (com : FeldmanCommitment G) : Bytes :=
  K256.sha256 F G (tag ++ sid ++ u64Bytes party.val ++ com.points.flatMap (K256.pointBytes F))

/-- Who is to blame for a complaint, by the dealer's public defense share. -/
def resolveComplaint (phase : Phase) (com : FeldmanCommitment G) (dealer accuser : PartyId)
    (defense : F) : Fault :=
  if com.verifyShare accuser defense then
    abort phase [accuser] ("false accusation: dealer " ++ toString dealer ++
      "'s defense share verifies against its commitment")
  else
    abort phase [dealer] ("dealer " ++ toString dealer ++
      "'s defense share fails verification against its commitment")

namespace DkgInstance

/-- Deal a fixed `secret`. -/
def startWithSecret (committee : Committee) (sid tag : Bytes) (me : PartyId) (secret : F) (k : Nat) :
    RngM F (DkgInstance F G × DkgBcast1) := do
  let poly ← ShamirPoly.random secret committee.t k
  let com : FeldmanCommitment G := fromPoly poly
  let hash := hashCommitment F sid tag me com
  return (⟨committee, sid, tag, me, poly, com, none, false⟩, ⟨me, hash⟩)

def startCommittee (committee : Committee) (sid tag : Bytes) (me : PartyId) (k : Nat) :
    RngM F (DkgInstance F G × DkgBcast1) := do
  let secret ← randomScalar k
  startWithSecret committee sid tag me secret k

def shareFor (inst : DkgInstance F G) (j : PartyId) : F :=
  let s := inst.poly.eval j
  if inst.badDeal = some j then s + 1 else s

/-- The defense is the dealt value. -/
def defend (inst : DkgInstance F G) (j : PartyId) : F := inst.shareFor j

/-- Round 2: the revealed vector and the private shares. -/
def reveal (inst : DkgInstance F G) : Outcome (DkgBcast2 G × List (DkgP2P F)) := do
  let com ← if inst.badReveal then inst.com.addConst (1 : F) else .ok inst.com
  return (⟨inst.me, com⟩, inst.committee.ids.map fun j => ⟨inst.me, j, inst.shareFor j⟩)

/-- The checks of one dealer's reveal and share. -/
def checkDealer (inst : DkgInstance F G) (phase : Phase) (r1 : PartyMap DkgBcast1)
    (r2 : PartyMap (DkgBcast2 G)) (sharesForMe defenses : PartyMap F) (i : PartyId) :
    Outcome (F × FeldmanCommitment G) := do
  let b1 ← OhmEcdsa.index r1 i
  let b2 ← OhmEcdsa.index r2 i
  if b2.com.points.length ≠ inst.committee.t.val then
    throw (abort phase [i] "malformed Feldman commitment vector")
  else if hashCommitment F inst.sid inst.tag i b2.com ≠ b1.hash then
    throw (abort phase [i] "commit-reveal hash mismatch")
  else
    let s ← OhmEcdsa.index sharesForMe i
    if b2.com.verifyShare inst.me s then return (s, b2.com)
    else
      let defense ← OhmEcdsa.index defenses i
      throw (resolveComplaint phase b2.com i inst.me defense)

/-- Round 3: verify every dealer in id order and sum. -/
def finalize (inst : DkgInstance F G) (phase : Phase) (r1 : PartyMap DkgBcast1)
    (r2 : PartyMap (DkgBcast2 G)) (sharesForMe defenses : PartyMap F) : Outcome (DkgOutput F G) :=
  let n := inst.committee.n
  if r1.size ≠ n ∨ r2.size ≠ n ∨ sharesForMe.size ≠ n ∨ defenses.size ≠ n then
    .error (.error (.invalidParams "incomplete message sets"))
  else do
    let checked ← inst.committee.ids.mapM (inst.checkDealer phase r1 r2 sharesForMe defenses)
    let com ← FeldmanCommitment.sum (checked.map (·.2))
    return ⟨inst.me, checked.foldl (fun acc e => acc + e.1) 0, com⟩

end DkgInstance

/-- Deliver everyone's reveals, shares and defenses, and finalize every party. -/
def deliverAll (insts : List (DkgInstance F G)) (r1 : PartyMap DkgBcast1) (phase : Phase) :
    Outcome (List (DkgOutput F G)) := do
  let revealed ← insts.mapM DkgInstance.reveal
  let r2 := collect (revealed.map fun e => (e.1.sender, e.1))
  let p2p := revealed.flatMap (·.2)
  insts.mapM fun inst =>
    let mine := collect ((p2p.filter (·.addressee = inst.me)).map fun m => (m.sender, m.share))
    let defenses := collect (insts.map fun d => (d.me, d.defend inst.me))
    inst.finalize phase r1 r2 mine defenses

/-- `triples.rs`: joint random sharing; `rngs[k]` belongs to `ids[k]`. -/
def jointRandom (committee : Committee) (sid : Bytes) (phase : Phase) :
    RngM F (List (DkgOutput F G)) := do
  let started ← committee.ids.zipIdx.mapM fun e =>
    DkgInstance.startCommittee committee sid tags.dkgCommit e.1 e.2
  let r1 := collect (started.map fun e => (e.2.sender, e.2))
  lift (deliverAll (started.map (·.1)) r1 phase)

/-! ## Lemmas: randomness -/

/-- At least `n` generators are at hand. -/
def Enough (n : Nat) (s : Rngs F) : Prop := n ≤ s.rngs.length

/-- No failure. -/
def Never (_ : Fault) : Prop := False

theorem randomScalar_triple {n k : Nat} (hk : k < n) :
    Triple (Enough n) (randomScalar k : RngM F F) (fun _ => True) Never := by
  intro s hs
  have hlt : k < s.rngs.length := Nat.lt_of_lt_of_le hk hs
  rw [randomScalar_some (List.getElem?_eq_getElem hlt)]
  exact ⟨by unfold Enough; rw [List.length_set]; exact hs, trivial⟩

theorem random_triple {n k : Nat} (hk : k < n) (secret : F) (t : Usize) (ht : 1 ≤ t.val) :
    Triple (Enough n) (ShamirPoly.random secret t k)
      (fun p => p.coeffs.length = t.val ∧ p.coeffs.head? = some secret) Never := by
  unfold ShamirPoly.random
  refine (Triple.mapM (P := fun _ _ => True) _ fun _ _ => randomScalar_triple hk).bind fun tail htail => ?_
  refine Triple.pure ⟨?_, rfl⟩
  have := htail.length_eq
  simp only [List.length_range, List.length_cons] at this ⊢
  omega

/-- The draws of a loop are the next scalars of the generator's stream. -/
theorem mapM_draw {F α : Type} (l : List α) (k : Nat) :
    ∀ (s : Rngs F) (r : StdRng F), s.rngs[k]? = some r →
      ∃ s', s'.rngs = s.rngs.set k { r with pos := r.pos + l.length } ∧
        (l.mapM fun _ => (randomScalar k : RngM F F)) s =
          (.ok ((List.range l.length).map fun i => r.stream (r.pos + i)), s') := by
  induction l with
  | nil =>
    intro s r h
    refine ⟨s, ?_, rfl⟩
    obtain ⟨hk, hr⟩ := List.getElem?_eq_some_iff.mp h
    have : ({ r with pos := r.pos + 0 } : StdRng F) = s.rngs[k] := hr.symm
    rw [List.length_nil, this, List.set_getElem_self]
  | cons a l ih =>
    intro s r h
    obtain ⟨hk, hr⟩ := List.getElem?_eq_some_iff.mp h
    have hnext : (s.rngs.set k { r with pos := r.pos + 1 })[k]? = some { r with pos := r.pos + 1 } :=
      List.getElem?_set_self hk
    obtain ⟨s', hs', hrun⟩ := ih ⟨s.rngs.set k { r with pos := r.pos + 1 }, s.drawn ++ [(r.party, r.pos)]⟩ _ hnext
    refine ⟨s', ?_, ?_⟩
    · rw [hs', List.set_set, List.length_cons]
      congr 2
      dsimp only
      omega
    · rw [List.mapM_cons, bind_run, randomScalar_some h]
      dsimp only
      rw [bind_run, hrun]
      dsimp only
      rw [List.length_cons, List.range_succ_eq_map, List.map_cons, List.map_map]
      have hshift : ∀ i, r.stream (r.pos + 1 + i) = r.stream (r.pos + (i + 1)) := fun i => by
        congr 1
        omega
      simp only [Function.comp_def, hshift, Nat.succ_eq_add_one, Nat.add_zero]
      rfl

/-- What a dealer's polynomial is, given its generator. -/
theorem random_run {F : Type} (secret : F) (t : Usize) {k : Nat} {s : Rngs F} {r : StdRng F}
    (h : s.rngs[k]? = some r) :
    ∃ s', s'.rngs = s.rngs.set k { r with pos := r.pos + (t.val - 1) } ∧
      ShamirPoly.random secret t k s =
        (.ok ⟨secret :: (List.range (t.val - 1)).map fun i => r.stream (r.pos + i)⟩, s') := by
  obtain ⟨s', hs', hrun⟩ := mapM_draw (List.range (t.val - 1)) k s r h
  rw [List.length_range] at hs' hrun
  refine ⟨s', hs', ?_⟩
  unfold ShamirPoly.random
  rw [bind_run, hrun]
  rfl

/-! ## Lemmas: an honest session -/

theorem foldl_shares (l : List (F × FeldmanCommitment G)) (acc : F) :
    l.foldl (fun acc e => acc + e.1) acc = acc + (l.map (·.1)).sum := by
  induction l generalizing acc with
  | nil => simp
  | cons e l ih => rw [List.foldl_cons, ih, List.map_cons, List.sum_cons, add_assoc]

namespace DkgInstance

/-- A dealer that follows the protocol of session `(c, sid, tag)`. -/
structure Honest (c : Committee) (sid tag : Bytes) (inst : DkgInstance F G) : Prop where
  committee : inst.committee = c
  sid : inst.sid = sid
  tag : inst.tag = tag
  com : inst.com = fromPoly inst.poly
  length : inst.poly.coeffs.length = c.t.val
  badDeal : inst.badDeal = none
  badReveal : inst.badReveal = false

/-- Its round-1 broadcast. -/
def commitOf (inst : DkgInstance F G) : DkgBcast1 :=
  ⟨inst.me, hashCommitment F inst.sid inst.tag inst.me inst.com⟩

theorem startWithSecret_triple {n k : Nat} (hk : k < n) (c : Committee) (sid tag : Bytes) (me : PartyId)
    (secret : F) :
    Triple (Enough n) (startWithSecret (G := G) c sid tag me secret k)
      (fun e => (e.1.Honest c sid tag ∧ e.1.me = me ∧ e.2 = e.1.commitOf) ∧
        e.1.poly.coeffs.head? = some secret) Never := by
  unfold startWithSecret
  refine (random_triple hk secret c.t c.t_pos).bind fun p hp => ?_
  exact Triple.pure ⟨⟨⟨rfl, rfl, rfl, rfl, hp.1, rfl, rfl⟩, rfl, rfl⟩, hp.2⟩

theorem startCommittee_triple {n k : Nat} (hk : k < n) (c : Committee) (sid tag : Bytes) (me : PartyId) :
    Triple (Enough n) (startCommittee (F := F) (G := G) c sid tag me k)
      (fun e => e.1.Honest c sid tag ∧ e.1.me = me ∧ e.2 = e.1.commitOf) Never := by
  unfold startCommittee
  refine (randomScalar_triple hk).bind fun s _ => ?_
  exact (startWithSecret_triple hk c sid tag me s).conseq (fun _ he => he.1) fun _ he => he

variable {c : Committee} {sid tag : Bytes}

theorem Honest.shareFor {inst : DkgInstance F G} (h : inst.Honest c sid tag) (j : PartyId) :
    inst.shareFor j = inst.poly.poly.eval (scalarFrom j) := by
  unfold DkgInstance.shareFor
  rw [h.badDeal, ShamirPoly.eval_eq]
  rfl

theorem Honest.reveal {inst : DkgInstance F G} (h : inst.Honest c sid tag) :
    inst.reveal = .ok (⟨inst.me, inst.com⟩, c.ids.map fun j => ⟨inst.me, j, inst.shareFor j⟩) := by
  unfold DkgInstance.reveal
  rw [h.badReveal, h.committee]
  rfl

theorem Honest.poly_com {inst : DkgInstance F G} (h : inst.Honest c sid tag) :
    inst.com.poly F = inst.poly.poly := by
  rw [h.com, poly_fromPoly]

theorem Honest.length_com {inst : DkgInstance F G} (h : inst.Honest c sid tag) :
    inst.com.points.length = c.t.val := by
  rw [h.com, fromPoly, List.length_map, h.length]

end DkgInstance

/-- Of the shares dealt to every member, those addressed to `me`. -/
theorem addressed_shares {α : Type} (c : Committee) (dealers : List α) (key : α → PartyId)
    (share : α → PartyId → F) (me : PartyId) (hmem : me ∈ c.ids) :
    ((dealers.flatMap fun d => c.ids.map fun j => (⟨key d, j, share d j⟩ : DkgP2P F)).filter
      (·.addressee = me)).map (fun m => (m.sender, m.share)) = dealers.map fun d => (key d, share d me) := by
  have hone : ∀ d : α, (c.ids.map fun j => (⟨key d, j, share d j⟩ : DkgP2P F)).filter (·.addressee = me) =
      [⟨key d, me, share d me⟩] := by
    intro d
    have : c.ids.filter (fun j => decide (j = me)) = [me] := by
      rw [List.filter_eq, List.count_eq_one_of_mem c.nodup hmem]
      rfl
    rw [List.filter_map]
    simp only [Function.comp_def, this, List.map_cons, List.map_nil]
  rw [List.filter_flatMap, List.map_flatMap]
  simp only [hone, List.map_cons, List.map_nil]
  rw [← List.map_eq_flatMap]

section Session

variable {c : Committee} {sid tag : Bytes} (insts : List (DkgInstance F G))
  (hh : ∀ d ∈ insts, d.Honest c sid tag) (hme : insts.map (·.me) = c.ids)

include hh hme

theorem session_nodup : (insts.map (·.me)).Nodup := by rw [hme]; exact c.nodup

/-- The shares addressed to `me`, one from each dealer. -/
theorem session_mine (me : PartyId) (hmem : me ∈ c.ids) :
    (((insts.map fun d => ((⟨d.me, d.com⟩ : DkgBcast2 G),
        c.ids.map fun j => (⟨d.me, j, d.shareFor j⟩ : DkgP2P F))).flatMap (·.2)).filter
          (·.addressee = me)).map (fun m => (m.sender, m.share)) = insts.map fun d => (d.me, d.shareFor me) := by
  rw [List.flatMap_map]
  exact addressed_shares c insts (·.me) (fun d j => d.shareFor j) me hmem

/-- A map with one entry for each dealer. -/
theorem session_collect {ν : Type} (g : DkgInstance F G → ν) :
    (collect (insts.map fun d => (d.me, g d))).size = c.n ∧
      ∀ d ∈ insts, index (collect (insts.map fun d => (d.me, g d))) d.me = .ok (g d) := by
  have hkeys : ((insts.map fun d => (d.me, g d)).map (·.1)).Nodup := by
    rw [List.map_map]
    exact session_nodup insts hh hme
  refine ⟨?_, fun d hd => index_collect _ hkeys (List.mem_map_of_mem hd)⟩
  rw [size_collect _ hkeys, List.length_map, Committee.n, ← hme, List.length_map]

/-- **Honest dealings pass every check.** -/
theorem checkDealer_honest (phase : Phase) (inst : DkgInstance F G) (hinst : inst ∈ insts)
    (d : DkgInstance F G) (hd : d ∈ insts) :
    inst.checkDealer phase (collect (insts.map fun d => (d.me, d.commitOf)))
      (collect (insts.map fun d => (d.me, (⟨d.me, d.com⟩ : DkgBcast2 G))))
      (collect (insts.map fun d => (d.me, d.shareFor inst.me)))
      (collect (insts.map fun d => (d.me, d.defend inst.me))) d.me = .ok (d.shareFor inst.me, d.com) := by
  have hlen : d.com.points.length = inst.committee.t.val := by
    rw [(hh inst hinst).committee, (hh d hd).length_com]
  have hhash : hashCommitment F inst.sid inst.tag d.me d.com = d.commitOf.hash := by
    rw [(hh inst hinst).sid, (hh inst hinst).tag, DkgInstance.commitOf, (hh d hd).sid, (hh d hd).tag]
  have hver : d.com.verifyShare inst.me (d.shareFor inst.me) = true := by
    rw [verifyShare_iff, (hh d hd).poly_com, (hh d hd).shareFor]
  unfold DkgInstance.checkDealer
  rw [(session_collect insts hh hme _).2 d hd, (session_collect insts hh hme _).2 d hd,
    (session_collect insts hh hme _).2 d hd]
  simp only [bind, Except.bind, hlen, hhash, hver, ne_eq, not_true_eq_false, if_false, if_true]
  rfl

/-- The output of a session of honest dealers is the sum of their dealings. -/
theorem finalize_honest (phase : Phase) (com : FeldmanCommitment G)
    (hcom : FeldmanCommitment.sum (insts.map (·.com)) = .ok com) (inst : DkgInstance F G)
    (hinst : inst ∈ insts) :
    inst.finalize phase (collect (insts.map fun d => (d.me, d.commitOf)))
      (collect (insts.map fun d => (d.me, (⟨d.me, d.com⟩ : DkgBcast2 G))))
      (collect (insts.map fun d => (d.me, d.shareFor inst.me)))
      (collect (insts.map fun d => (d.me, d.defend inst.me))) =
    .ok ⟨inst.me, (insts.map fun d => d.poly.poly.eval (scalarFrom inst.me)).sum, com⟩ := by
  unfold DkgInstance.finalize
  simp only [(session_collect insts hh hme _).1, (hh inst hinst).committee, ne_eq, not_true_eq_false,
    or_self, if_false]
  rw [← hme, List.mapM_map, Function.comp_def,
    mapM_ok_of _ _ _ (checkDealer_honest insts hh hme phase inst hinst)]
  simp only [bind, Except.bind, List.map_map, Function.comp_def, hcom]
  rw [foldl_shares, zero_add, List.map_map]
  have hshares : insts.map (fun d => d.shareFor inst.me) =
      insts.map fun d => d.poly.poly.eval (scalarFrom inst.me) :=
    List.map_congr_left fun d hd => (hh d hd).shareFor inst.me
  simp only [Function.comp_def, hshares]
  rfl

end Session

/-- The outputs of a joint sharing: everyone holds the same commitment, to `t`
coefficients, and its value at its own id. -/
structure JointSharing (c : Committee) (outs : List (DkgOutput F G)) (com : FeldmanCommitment G) : Prop where
  length : com.points.length = c.t.val
  outs_eq : outs = c.ids.map fun i => ⟨i, (com.poly F).eval (scalarFrom i), com⟩

theorem deliverAll_honest {c : Committee} {sid tag : Bytes} (insts : List (DkgInstance F G))
    (hh : ∀ d ∈ insts, d.Honest c sid tag) (hme : insts.map (·.me) = c.ids) (phase : Phase) :
    ∃ outs com, deliverAll insts (collect (insts.map fun d => (d.me, d.commitOf))) phase = .ok outs ∧
      JointSharing c outs com ∧ com.poly F = (insts.map (·.poly.poly)).sum := by
  have hne : insts.map (·.com) ≠ [] := by
    intro h
    have : insts = [] := by simpa using h
    rw [this] at hme
    exact c.ids_ne hme.symm
  obtain ⟨com, hcom, hpoly⟩ := sum_ok (F := F) _ hne
  have hlen : com.points.length = c.t.val :=
    length_sum _ com c.t.val (fun d hd => by
      obtain ⟨inst, hinst, rfl⟩ := List.mem_map.mp hd
      exact (hh inst hinst).length_com) hcom
  have hsum : com.poly F = (insts.map (·.poly.poly)).sum := by
    rw [hpoly, List.map_map]
    exact congrArg _ (List.map_congr_left fun d hd => (hh d hd).poly_com)
  refine ⟨_, com, ?_, ⟨hlen, rfl⟩, hsum⟩
  unfold deliverAll
  rw [mapM_ok_of _ _ _ fun d hd => (hh d hd).reveal]
  simp only [bind, Except.bind, List.map_map, Function.comp_def]
  rw [← hme, List.map_map]
  refine mapM_ok_of _ _ _ fun inst hinst => ?_
  have hmem : inst.me ∈ c.ids := by rw [← hme]; exact List.mem_map_of_mem hinst
  rw [hme, session_mine insts hh hme inst.me hmem, finalize_honest insts hh hme phase com hcom inst hinst]
  have heval : (com.poly F).eval (scalarFrom inst.me) =
      (insts.map fun d => d.poly.poly.eval (scalarFrom inst.me)).sum := by
    rw [hsum, eval_listSum, List.map_map]
    rfl
  simp only [Function.comp_apply, heval]

/-- The dealers a session starts, in committee order. -/
theorem started_session {c : Committee} {sid tag : Bytes} {started : List (DkgInstance F G × DkgBcast1)}
    (hs : List.Forall₂ (fun e b => b.1.Honest c sid tag ∧ b.1.me = e.1 ∧ b.2 = b.1.commitOf) c.ids.zipIdx started) :
    (started.map (·.1)).map (·.me) = c.ids ∧ (∀ d ∈ started.map (·.1), d.Honest c sid tag) ∧
      started = (started.map (·.1)).map fun d => (d, d.commitOf) := by
  refine ⟨?_, fun d hd => ?_, ?_⟩
  · rw [List.map_map, ← List.zipIdx_map_fst 0 c.ids]
    exact (forall₂_map_eq (hs.imp fun _ _ h => h.2.1.symm)).symm
  · obtain ⟨b, hb, rfl⟩ := List.mem_map.mp hd
    obtain ⟨e, -, he⟩ := forall₂_exists_left hs hb
    exact he.1
  · rw [List.map_map]
    conv_lhs => rw [← List.map_id started]
    refine List.map_congr_left fun b hb => ?_
    obtain ⟨e, -, he⟩ := forall₂_exists_left hs hb
    simp only [id_eq, Function.comp_apply, ← he.2.2]

/-- The joint sharing is the sum of what the dealers started with. -/
theorem jointRandom_started {c : Committee} {sid : Bytes} (phase : Phase) {s s' : Rngs F}
    {started : List (DkgInstance F G × DkgBcast1)}
    (hrun : (c.ids.zipIdx.mapM fun e => DkgInstance.startCommittee (F := F) (G := G) c sid tags.dkgCommit e.1 e.2) s =
      (.ok started, s'))
    (hs : List.Forall₂ (fun e b => b.1.Honest c sid tags.dkgCommit ∧ b.1.me = e.1 ∧ b.2 = b.1.commitOf)
      c.ids.zipIdx started) :
    ∃ outs com, (jointRandom c sid phase : RngM F (List (DkgOutput F G))) s = (.ok outs, s') ∧ JointSharing c outs com ∧
      com.poly F = (started.map fun b => b.1.poly.poly).sum := by
  obtain ⟨hme, hh, hstarted⟩ := started_session hs
  obtain ⟨outs, com, hok, hjs, hpoly⟩ := deliverAll_honest _ hh hme phase
  have hr1 : started.map (fun e => (e.2.sender, e.2)) =
      (started.map (·.1)).map fun d => (d.me, d.commitOf) := by
    conv_lhs => rw [hstarted, List.map_map]
    rfl
  refine ⟨outs, com, ?_, hjs, by rw [hpoly, List.map_map]; rfl⟩
  unfold jointRandom
  rw [bind_run, hrun]
  simp only [hr1, hok]
  rfl

theorem startAll_triple (c : Committee) (sid tag : Bytes) :
    Triple (Enough c.n) (c.ids.zipIdx.mapM fun e => DkgInstance.startCommittee (F := F) (G := G) c sid tag e.1 e.2)
      (List.Forall₂ (fun e b => b.1.Honest c sid tag ∧ b.1.me = e.1 ∧ b.2 = b.1.commitOf) c.ids.zipIdx) Never := by
  refine Triple.mapM _ fun e he => ?_
  have hk : e.2 < c.n := by
    have := List.mem_zipIdx_iff_getElem?.mp he
    exact (List.getElem?_eq_some_iff.mp this).1
  exact DkgInstance.startCommittee_triple hk c sid _ e.1

/-- **The joint sharing of honest parties never fails**, whatever the randomness. -/
theorem jointRandom_triple (c : Committee) (sid : Bytes) (phase : Phase) :
    Triple (Enough c.n) (jointRandom c sid phase : RngM F (List (DkgOutput F G)))
      (fun outs => ∃ com, JointSharing c outs com) Never := by
  intro s hs
  obtain ⟨started, s', hrun, hs', hstarted⟩ := (startAll_triple (F := F) (G := G) c sid tags.dkgCommit).ok hs
  obtain ⟨outs, com, hjoint, hjs, -⟩ := jointRandom_started phase hrun hstarted
  rw [hjoint]
  exact ⟨hs', com, hjs⟩

/-! ## Lemmas: what is dealt from given generators -/

/-- The next `t` scalars. -/
def StdRng.next (r : StdRng F) (t : Nat) : List F := (List.range t).map fun i => r.stream (r.pos + i)

theorem startCommittee_run (c : Committee) (sid tag : Bytes) (me : PartyId) {k : Nat} {s : Rngs F} {r : StdRng F}
    (h : s.rngs[k]? = some r) :
    ∃ s', s'.rngs = s.rngs.set k { r with pos := r.pos + c.t.val } ∧ ∃ b : DkgInstance F G × DkgBcast1,
      DkgInstance.startCommittee c sid tag me k s = (.ok b, s') ∧ b.1.poly.coeffs = r.next c.t.val := by
  obtain ⟨hk, -⟩ := List.getElem?_eq_some_iff.mp h
  have hnext : (s.rngs.set k { r with pos := r.pos + 1 })[k]? = some { r with pos := r.pos + 1 } :=
    List.getElem?_set_self hk
  obtain ⟨s', hs', hrun⟩ := random_run (r.stream r.pos) c.t
    (s := ⟨s.rngs.set k { r with pos := r.pos + 1 }, s.drawn ++ [(r.party, r.pos)]⟩) hnext
  obtain ⟨t, ht⟩ : ∃ t, c.t.val = t + 1 := ⟨c.t.val - 1, by have := c.t_pos; omega⟩
  have hcoeffs : (r.stream r.pos :: (List.range (c.t.val - 1)).map fun i => r.stream (r.pos + 1 + i)) =
      r.next c.t.val := by
    unfold StdRng.next
    rw [ht, Nat.add_sub_cancel, List.range_succ_eq_map, List.map_cons, List.map_map, Nat.add_zero]
    refine congrArg _ (List.map_congr_left fun i _ => ?_)
    rw [Function.comp_apply, Nat.succ_eq_add_one, Nat.add_assoc, Nat.add_comm 1 i]
  refine ⟨s', ?_, ?_⟩
  · rw [hs', List.set_set]
    congr 2
    dsimp only
    omega
  · unfold DkgInstance.startCommittee DkgInstance.startWithSecret
    rw [bind_run, randomScalar_some h]
    dsimp only
    rw [bind_run, hrun]
    exact ⟨_, rfl, hcoeffs⟩

/-- Every dealer deals from its own generator. -/
theorem startAll_run (c : Committee) (sid tag : Bytes) (r : Nat → StdRng F) (l : List (PartyId × Nat)) :
    ∀ s : Rngs F, (l.map (·.2)).Nodup → (∀ e ∈ l, s.rngs[e.2]? = some (r e.2)) →
      ∃ started s', (l.mapM fun e => DkgInstance.startCommittee (F := F) (G := G) c sid tag e.1 e.2) s =
          (.ok started, s') ∧
        started.map (fun b => b.1.poly.coeffs) = l.map fun e => (r e.2).next c.t.val := by
  induction l with
  | nil =>
    intro s _ _
    exact ⟨[], s, rfl, rfl⟩
  | cons e l ih =>
    intro s hnd hr
    obtain ⟨hnot, hnd⟩ := List.nodup_cons.mp hnd
    obtain ⟨s₁, hs₁, b, hb, hcoeffs⟩ := startCommittee_run (G := G) c sid tag e.1 (hr e List.mem_cons_self)
    have hr₁ : ∀ e' ∈ l, s₁.rngs[e'.2]? = some (r e'.2) := by
      intro e' he'
      have hne : e.2 ≠ e'.2 := fun heq => hnot (List.mem_map.mpr ⟨e', he', heq.symm⟩)
      rw [hs₁, List.getElem?_set_ne hne]
      exact hr e' (List.mem_cons_of_mem _ he')
    obtain ⟨started, s', hrun, hpolys⟩ := ih s₁ hnd hr₁
    refine ⟨b :: started, s', ?_, by rw [List.map_cons, List.map_cons, hcoeffs, hpolys]⟩
    rw [List.mapM_cons, bind_run, hb]
    dsimp only
    rw [bind_run, hrun]
    rfl

/-- **What a joint sharing is, given the generators.** -/
theorem jointRandom_run (c : Committee) (sid : Bytes) (phase : Phase) (r : Nat → StdRng F) {s : Rngs F}
    (hr : ∀ k < c.n, s.rngs[k]? = some (r k)) :
    ∃ outs com s', (jointRandom c sid phase : RngM F (List (DkgOutput F G))) s = (.ok outs, s') ∧
      JointSharing c outs com ∧
      com.poly F = ((List.range c.n).map fun k => Interpolation.ofCoeffs ((r k).next c.t.val)).sum := by
  have hs : Enough c.n s := by
    have hpos := c.n_pos
    have := (List.getElem?_eq_some_iff.mp (hr (c.n - 1) (by omega))).1
    unfold Enough
    omega
  have hidx : c.ids.zipIdx.map (·.2) = List.range c.n := by
    rw [List.range_eq_range']
    exact List.zipIdx_map_snd ..
  obtain ⟨started, s', hrun, hpolys⟩ := startAll_run (G := G) c sid tags.dkgCommit r c.ids.zipIdx s
    (by rw [hidx]; exact List.nodup_range) fun e he => hr e.2 (by
      have := List.mem_map_of_mem (f := (·.2)) he
      rw [hidx] at this
      exact List.mem_range.mp this)
  obtain ⟨started', s'', hrun', -, hstarted⟩ := (startAll_triple (F := F) (G := G) c sid tags.dkgCommit).ok hs
  obtain ⟨rfl, rfl⟩ : started = started' ∧ s' = s'' := by
    rw [hrun] at hrun'
    cases hrun'
    exact ⟨rfl, rfl⟩
  obtain ⟨outs, com, hjoint, hjs, hpoly⟩ := jointRandom_started phase hrun hstarted
  refine ⟨outs, com, s', hjoint, hjs, ?_⟩
  have hmap : started.map (fun b => b.1.poly.poly) =
      (started.map fun b => b.1.poly.coeffs).map Interpolation.ofCoeffs := by
    rw [List.map_map]
    rfl
  rw [hpoly, hmap, hpolys, ← hidx, List.map_map, List.map_map]
  rfl

end OhmEcdsa
