import OhmEcdsa.Core.Triples

/-!
# The transport seam and the transport-driven DKG (`src/runtime/transport.rs`)

An `Envelope` is the per-message contract of the wire; `SimTransport` delivers
identical accepted sets to every party.  `driveDkg` is commit → reveal →
finalize over it, with the fault hooks of the dealing path.
-/

set_option linter.unusedSectionVars false

namespace OhmEcdsa

open Hoare

/-- A protocol message; `addressee = none` is a broadcast. -/
structure Envelope (M : Type) where
  sid : Bytes
  phase : Phase
  round : Nat
  sender : PartyId
  addressee : Option PartyId
  payload : M
  deriving DecidableEq

namespace Envelope

variable {M : Type}

def broadcast (sid : Bytes) (phase : Phase) (round : Nat) (sender : PartyId) (payload : M) : Envelope M :=
  ⟨sid, phase, round, sender, none, payload⟩

def p2p (sid : Bytes) (phase : Phase) (round : Nat) (sender addressee : PartyId) (payload : M) : Envelope M :=
  ⟨sid, phase, round, sender, some addressee, payload⟩

/-! Envelopes of one session agree in round, addressee and payload or differ. -/

theorem broadcast_eq {sid : Bytes} {phase : Phase} {round round' : Nat} {h : PartyId} {p p' : M} :
    broadcast sid phase round h p = broadcast sid phase round' h p' ↔ round = round' ∧ p = p' := by
  simp [broadcast]

theorem broadcast_ne_p2p {sid : Bytes} {phase : Phase} {round round' : Nat} {h j : PartyId} {m m' : M} :
    broadcast sid phase round h m ≠ p2p sid phase round' h j m' := by
  simp [broadcast, p2p]

theorem p2p_eq {sid : Bytes} {phase : Phase} {round round' : Nat} {h j j' : PartyId} {m m' : M} :
    p2p sid phase round h j m = p2p sid phase round' h j' m' ↔ round = round' ∧ j = j' ∧ m = m' := by
  simp [p2p]

end Envelope

/-- The in-process transport: a queue of broadcasts and one of P2P messages. -/
structure SimTransport (M : Type) where
  bcast : List (Envelope M)
  p2p : List (Envelope M)

namespace SimTransport

variable {M : Type}

def new : SimTransport M := ⟨[], []⟩

def broadcast (tr : SimTransport M) (env : Envelope M) : SimTransport M := { tr with bcast := tr.bcast ++ [env] }

def sendP2p (tr : SimTransport M) (env : Envelope M) : SimTransport M := { tr with p2p := tr.p2p ++ [env] }

def acceptedBroadcasts (tr : SimTransport M) (sid : Bytes) (phase : Phase) (round : Nat) :
    PartyMap (Envelope M) :=
  collect ((tr.bcast.filter fun e => e.sid == sid && e.phase == phase && e.round == round).map
    fun e => (e.sender, e))

def acceptedP2p (tr : SimTransport M) (sid : Bytes) (phase : Phase) (round : Nat) (j : PartyId) :
    PartyMap (Envelope M) :=
  collect ((tr.p2p.filter fun e => e.sid == sid && e.phase == phase && e.round == round &&
    e.addressee == some j).map fun e => (e.sender, e))

end SimTransport

/-- DKG payloads of one session. -/
inductive DkgMessage (F G : Type)
  | commit (b : DkgBcast1)
  | reveal (b : DkgBcast2 G)
  | share (s : DkgP2P F)
  deriving DecidableEq

def DKG_ROUND_COMMIT : Nat := 1
def DKG_ROUND_REVEAL : Nat := 2

/-- Fault hooks of the dealing path. -/
structure DkgTamper where
  corruptShare : Option (PartyId × PartyId)
  badDeal : Option (PartyId × PartyId)
  badReveal : Option PartyId

/-- `lib.rs`: the default `1..=n` committee. -/
def Committee.full (params : Params) : Outcome Committee :=
  match Committee.new params.parties params.t with
  | .ok c => .ok c
  | .error _ => .error (.panic "Params enforces n >= 2t - 1")

variable {F G : Type} [Field F] [DecidableEq F] [AddCommGroup G] [Module F G] [DecidableEq G] [K256 F G]

/-- The payloads of an accepted set, where `pick` reads the round's variant. -/
def payloadsOf {α : Type} (pick : DkgMessage F G → Option α) (text : String)
    (envs : PartyMap (Envelope (DkgMessage F G))) : Outcome (PartyMap α) := do
  let l ← envs.toList.mapM fun e =>
    match pick e.2.payload with
    | some b => .ok (e.1, b)
    | none => .error (.panic text)
  return collect l

def commitsOf (envs : PartyMap (Envelope (DkgMessage F G))) : Outcome (PartyMap DkgBcast1) :=
  payloadsOf (fun | .commit b => some b | _ => none) "round 1 carries only commits" envs

def revealsOf (envs : PartyMap (Envelope (DkgMessage F G))) : Outcome (PartyMap (DkgBcast2 G)) :=
  payloadsOf (fun | .reveal b => some b | _ => none) "round 2 carries only reveals" envs

/-- A cheating dealer: a wrong share and defense, or a reveal off its commit. -/
def tamperDealer (tamper : Option DkgTamper) (inst : DkgInstance F G) : DkgInstance F G :=
  let inst := match tamper.bind (·.badDeal) with
    | some (dealer, victim) => if dealer = inst.me then { inst with badDeal := some victim } else inst
    | none => inst
  if tamper.bind (·.badReveal) = some inst.me then { inst with badReveal := true } else inst

/-- `corrupt_share`: one accepted share changed in transit. -/
def tamperShares (tamper : Option DkgTamper) (me : PartyId) (envs : PartyMap (Envelope (DkgMessage F G))) :
    PartyMap (Envelope (DkgMessage F G)) :=
  match tamper.bind (·.corruptShare) with
  | none => envs
  | some (dealer, victim) =>
    if victim = me then
      match envs[dealer]? with
      | some env =>
        match env.payload with
        | .share s => envs.insert dealer { env with payload := .share { s with share := s.share + 1 } }
        | _ => envs
      | none => envs
    else envs

/-- Rounds 2 and 3 over the transport. -/
def deliverDkg (sid : Bytes) (phase : Phase) (tamper : Option DkgTamper)
    (insts : List (DkgInstance F G)) (transport : SimTransport (DkgMessage F G)) :
    Outcome (List (DkgOutput F G)) := do
  let transport ← insts.foldlM (fun tr inst => do
    let (b2, shares) ← inst.reveal
    let tr := tr.broadcast (Envelope.broadcast sid phase DKG_ROUND_REVEAL inst.me (.reveal b2))
    return shares.foldl (fun tr s =>
      tr.sendP2p (Envelope.p2p sid phase DKG_ROUND_REVEAL s.sender s.addressee (.share s))) tr) transport
  let r1 ← commitsOf (transport.acceptedBroadcasts sid phase DKG_ROUND_COMMIT)
  let r2 ← revealsOf (transport.acceptedBroadcasts sid phase DKG_ROUND_REVEAL)
  insts.mapM fun inst => do
    let shareEnvs := tamperShares tamper inst.me (transport.acceptedP2p sid phase DKG_ROUND_REVEAL inst.me)
    let mine ← payloadsOf (fun | .share s => some s.share | _ => none) "p2p carries only shares" shareEnvs
    let defenses := collect (insts.map fun d => (d.me, d.defend inst.me))
    inst.finalize phase r1 r2 mine defenses

/-- `rngs[k]` is the generator of the `k`-th party of `1..=n`. -/
def driveDkg (params : Params) (sid tag : Bytes) (phase : Phase) (tamper : Option DkgTamper) :
    RngM F (List (DkgOutput F G)) := do
  let started ← params.parties.zipIdx.mapM fun e => do
    let committee ← lift (Committee.full params)
    let (inst, b1) ← DkgInstance.startCommittee (F := F) (G := G) committee sid tag e.1 e.2
    return (tamperDealer tamper inst, b1)
  let transport := started.foldl (fun tr e =>
    tr.broadcast (Envelope.broadcast sid phase DKG_ROUND_COMMIT e.2.sender (.commit e.2))) SimTransport.new
  lift (deliverDkg sid phase tamper (started.map (·.1)) transport)

/-! ## Lemmas: the transport delivers what was sent -/

/-- Reading the payloads of an accepted set. -/
theorem payloadsOf_collect {α β : Type} (pick : DkgMessage F G → Option α) (text : String) (l : List β)
    (key : β → PartyId) (env : β → Envelope (DkgMessage F G)) (val : β → α) (hnd : (l.map key).Nodup)
    (h : ∀ b ∈ l, pick (env b).payload = some (val b)) :
    payloadsOf pick text (collect (l.map fun b => (key b, env b))) =
      .ok (collect (l.map fun b => (key b, val b))) := by
  have hkeys : ∀ {γ : Type} (g : β → γ), ((l.map fun b => (key b, g b)).map (·.1)).Nodup := by
    intro γ g
    rw [List.map_map]
    exact hnd
  have hmem := mem_toList_collect (l.map fun b => (key b, env b)) (hkeys env)
  unfold payloadsOf
  generalize hf : (fun e : PartyId × Envelope (DkgMessage F G) => (match pick e.2.payload with
    | some b => .ok (e.1, b)
    | none => .error (.panic text) : Outcome (PartyId × α))) = f
  have hstep : ∀ b ∈ l, f (key b, env b) = .ok (key b, val b) := by
    intro b hb
    rw [← hf]
    show (match pick (env b).payload with
      | some b' => .ok (key b, b')
      | none => .error (.panic text) : Outcome (PartyId × α)) = _
    rw [h b hb]
  obtain ⟨l', hl'⟩ : ∃ l', (collect (l.map fun b => (key b, env b))).toList.mapM f = .ok l' := by
    rcases mapM_find f (fun _ => false) (collect (l.map fun b => (key b, env b))).toList
      (fun e he _ => by
        obtain ⟨b, hb, rfl⟩ := List.mem_map.mp ((hmem e).mp he)
        exact ⟨_, hstep b hb⟩) (fun e _ hbad => by cases hbad) with ⟨_, _, hbad, _⟩ | ⟨-, hok⟩
    · cases List.find?_some hbad
    · exact hok
  have hrel := forall₂_of_mapM_ok f _ hl'
  rw [hl']
  show Except.ok _ = _
  congr 1
  have hfst : (collect (l.map fun b => (key b, env b))).toList.map (·.1) = l'.map (·.1) := by
    refine forall₂_map_eq (hrel.imp fun e p hp => ?_)
    rw [← hf] at hp
    change (match pick e.2.payload with
      | some b => .ok (e.1, b)
      | none => .error (.panic text) : Outcome (PartyId × α)) = _ at hp
    split at hp
    · cases hp; rfl
    · cases hp
  refine collect_ext (by rw [← hfst]; exact nodup_keys_toList _) (hkeys val) (fun p hp => ?_) fun p hp => ?_
  · obtain ⟨e, he, hep⟩ := forall₂_exists_left hrel hp
    obtain ⟨b, hb, rfl⟩ := List.mem_map.mp ((hmem e).mp he)
    rw [hstep b hb] at hep
    cases hep
    exact List.mem_map_of_mem hb
  · obtain ⟨b, hb, rfl⟩ := List.mem_map.mp hp
    rw [← hfst]
    exact List.mem_map.mpr ⟨_, (hmem _).mpr (List.mem_map_of_mem hb), rfl⟩

namespace SimTransport

variable {M : Type}

theorem foldl_broadcast {α : Type} (f : α → Envelope M) (l : List α) (tr : SimTransport M) :
    l.foldl (fun tr e => tr.broadcast (f e)) tr = { tr with bcast := tr.bcast ++ l.map f } := by
  induction l generalizing tr with
  | nil => simp
  | cons e l ih =>
    rw [List.foldl_cons, ih]
    simp [broadcast]

theorem foldl_sendP2p {α : Type} (f : α → Envelope M) (l : List α) (tr : SimTransport M) :
    l.foldl (fun tr e => tr.sendP2p (f e)) tr = { tr with p2p := tr.p2p ++ l.map f } := by
  induction l generalizing tr with
  | nil => simp
  | cons e l ih =>
    rw [List.foldl_cons, ih]
    simp [sendP2p]

end SimTransport

/-! What an honest dealer puts on the wire. -/

section Wire

variable (sid : Bytes) (phase : Phase) (d : DkgInstance F G)

def commitEnvelope : Envelope (DkgMessage F G) :=
  .broadcast sid phase DKG_ROUND_COMMIT d.me (.commit d.commitOf)

def revealEnvelope : Envelope (DkgMessage F G) :=
  .broadcast sid phase DKG_ROUND_REVEAL d.me (.reveal ⟨d.me, d.com⟩)

def shareEnvelope (j : PartyId) : Envelope (DkgMessage F G) :=
  .p2p sid phase DKG_ROUND_REVEAL d.me j (.share ⟨d.me, j, d.shareFor j⟩)

end Wire

/-- The loop that reveals and deals. -/
theorem reveal_loop {c : Committee} {sid tag : Bytes} (phase : Phase) (l : List (DkgInstance F G))
    (hl : ∀ d ∈ l, d.Honest c sid tag) (tr : SimTransport (DkgMessage F G)) :
    (l.foldlM (fun tr inst => do
      let (b2, shares) ← inst.reveal
      let tr := tr.broadcast (Envelope.broadcast sid phase DKG_ROUND_REVEAL inst.me (.reveal b2))
      return shares.foldl (fun tr s =>
        tr.sendP2p (Envelope.p2p sid phase DKG_ROUND_REVEAL s.sender s.addressee (.share s))) tr) tr :
      Outcome _) =
    .ok ⟨tr.bcast ++ l.map (revealEnvelope sid phase),
      tr.p2p ++ l.flatMap fun d => c.ids.map (shareEnvelope sid phase d)⟩ := by
  induction l generalizing tr with
  | nil => simp; rfl
  | cons d l ih =>
    rw [List.foldlM_cons, (hl d List.mem_cons_self).reveal]
    simp only [bind, Except.bind, pure, Except.pure] at ih ⊢
    rw [ih fun e he => hl e (List.mem_cons_of_mem _ he), SimTransport.foldl_sendP2p]
    simp [SimTransport.broadcast, Function.comp_def, revealEnvelope, shareEnvelope]

section Session

variable {c : Committee} {sid tag : Bytes} (insts : List (DkgInstance F G)) (phase : Phase)

theorem accepted_commits (p2p : List (Envelope (DkgMessage F G))) :
    (⟨insts.map (commitEnvelope sid phase) ++ insts.map (revealEnvelope sid phase), p2p⟩ :
        SimTransport (DkgMessage F G)).acceptedBroadcasts sid phase DKG_ROUND_COMMIT =
      collect (insts.map fun d => (d.me, commitEnvelope sid phase d)) := by
  unfold SimTransport.acceptedBroadcasts
  rw [List.filter_append, List.filter_eq_self.mpr, List.filter_eq_nil_iff.mpr, List.append_nil, List.map_map]
  · rfl
  · intro e he
    obtain ⟨d, -, rfl⟩ := List.mem_map.mp he
    simp [revealEnvelope, Envelope.broadcast, DKG_ROUND_COMMIT, DKG_ROUND_REVEAL]
  · intro e he
    obtain ⟨d, -, rfl⟩ := List.mem_map.mp he
    simp [commitEnvelope, Envelope.broadcast]

theorem accepted_reveals (p2p : List (Envelope (DkgMessage F G))) :
    (⟨insts.map (commitEnvelope sid phase) ++ insts.map (revealEnvelope sid phase), p2p⟩ :
        SimTransport (DkgMessage F G)).acceptedBroadcasts sid phase DKG_ROUND_REVEAL =
      collect (insts.map fun d => (d.me, revealEnvelope sid phase d)) := by
  unfold SimTransport.acceptedBroadcasts
  rw [List.filter_append, List.filter_eq_nil_iff.mpr, List.filter_eq_self.mpr, List.nil_append, List.map_map]
  · rfl
  · intro e he
    obtain ⟨d, -, rfl⟩ := List.mem_map.mp he
    simp [revealEnvelope, Envelope.broadcast]
  · intro e he
    obtain ⟨d, -, rfl⟩ := List.mem_map.mp he
    simp [commitEnvelope, Envelope.broadcast, DKG_ROUND_COMMIT, DKG_ROUND_REVEAL]

theorem accepted_shares (bcast : List (Envelope (DkgMessage F G))) (me : PartyId) (hmem : me ∈ c.ids) :
    (⟨bcast, insts.flatMap fun d => c.ids.map (shareEnvelope sid phase d)⟩ :
        SimTransport (DkgMessage F G)).acceptedP2p sid phase DKG_ROUND_REVEAL me =
      collect (insts.map fun d => (d.me, shareEnvelope sid phase d me)) := by
  have hone : ∀ d : DkgInstance F G, (c.ids.map (shareEnvelope sid phase d)).filter
      (fun e => e.sid == sid && e.phase == phase && e.round == DKG_ROUND_REVEAL && e.addressee == some me) =
      [shareEnvelope sid phase d me] := by
    intro d
    have : c.ids.filter (fun j => j == me) = [me] := by
      rw [List.filter_beq, List.count_eq_one_of_mem c.nodup hmem]
      rfl
    rw [List.filter_map]
    simp [Function.comp_def, shareEnvelope, Envelope.p2p, this]
  unfold SimTransport.acceptedP2p
  rw [List.filter_flatMap]
  simp only [hone]
  rw [← List.map_eq_flatMap, List.map_map]
  rfl

/-- **The transport is transparent**: without faults `deliverDkg` hands every
party what direct delivery does. -/
theorem deliverDkg_eq (hh : ∀ d ∈ insts, d.Honest c sid tag) (hme : insts.map (·.me) = c.ids) :
    deliverDkg sid phase none insts ⟨insts.map (commitEnvelope sid phase), []⟩ =
      deliverAll insts (collect (insts.map fun d => (d.me, d.commitOf))) phase := by
  have hnd := session_nodup insts hh hme
  have hcommits : commitsOf (collect (insts.map fun d => (d.me, commitEnvelope sid phase d))) =
      .ok (collect (insts.map fun d => (d.me, d.commitOf))) :=
    payloadsOf_collect _ _ insts (·.me) _ _ hnd fun d _ => rfl
  have hreveals : revealsOf (collect (insts.map fun d => (d.me, revealEnvelope sid phase d))) =
      .ok (collect (insts.map fun d => (d.me, ⟨d.me, d.com⟩))) :=
    payloadsOf_collect _ _ insts (·.me) _ _ hnd fun d _ => rfl
  unfold deliverDkg deliverAll
  rw [reveal_loop phase insts hh, mapM_ok_of _ _ _ fun d hd => (hh d hd).reveal]
  simp only [bind, Except.bind, List.nil_append, accepted_commits, accepted_reveals, hcommits, hreveals,
    List.map_map, Function.comp_def]
  refine mapM_congr _ fun inst hinst => ?_
  have hmem : inst.me ∈ c.ids := by rw [← hme]; exact List.mem_map_of_mem hinst
  rw [accepted_shares insts phase _ _ hmem, session_mine insts hh hme inst.me hmem]
  simp only [tamperShares, Option.bind_none]
  rw [payloadsOf_collect _ _ insts (·.me) _ (fun d => d.shareFor inst.me) hnd]
  exact fun d _ => rfl

/-- **Distributed key generation among honest parties never fails**, whatever the
randomness. -/
theorem driveDkg_triple {params : Params} (hc : Committee.full params = .ok c) (hids : c.ids = params.parties)
    (sid tag : Bytes) :
    Triple (Enough c.n) (driveDkg (F := F) (G := G) params sid tag phase none)
      (fun outs => ∃ com, JointSharing c outs com) Never := by
  unfold driveDkg
  have hstart : ∀ e ∈ c.ids.zipIdx, Triple (Enough c.n)
      (lift (Committee.full params) >>= fun committee =>
        DkgInstance.startCommittee (F := F) (G := G) committee sid tag e.1 e.2 >>= fun b =>
          pure (tamperDealer none b.1, b.2))
      (fun b => b.1.Honest c sid tag ∧ b.1.me = e.1 ∧ b.2 = b.1.commitOf) Never := by
    intro e he
    refine Triple.lift_bind hc ?_
    refine (DkgInstance.startCommittee_triple (lt_n_of_mem_zipIdx he) c sid tag e.1).bind fun b hb => ?_
    exact Triple.pure hb
  rw [← hids]
  refine (Triple.mapM _ hstart).bind fun started hs => ?_
  obtain ⟨hme, hh, hstarted⟩ := started_session hs
  obtain ⟨outs, com, hok, hjs, -⟩ := deliverAll_honest _ hh hme phase
  have hwire : started.map (fun e => (Envelope.broadcast sid phase DKG_ROUND_COMMIT e.2.sender (.commit e.2) :
      Envelope (DkgMessage F G))) = (started.map (·.1)).map (commitEnvelope sid phase) := by
    conv_lhs => rw [hstarted, List.map_map]
    rfl
  rw [SimTransport.foldl_broadcast, hwire]
  simp only [SimTransport.new, List.nil_append, deliverDkg_eq _ phase hh hme, hok]
  exact Triple.lift (fun a ha => by cases ha; exact ⟨com, hjs⟩) (fun e he => by cases he)

end Session

/-! ## Lemmas: the default committee -/

theorem parties_sorted (params : Params) : params.parties.Pairwise (· < ·) := by
  unfold Params.parties
  rw [List.pairwise_map]
  refine List.pairwise_lt_range.imp_of_mem fun {a b} ha hb hab => ?_
  have hn := params.n.isLt
  rw [List.mem_range] at ha hb
  rw [Fin.lt_def, Fin.val_ofNat, Fin.val_ofNat, Nat.mod_eq_of_lt (by omega), Nat.mod_eq_of_lt (by omega)]
  omega

/-- The honest majority that `Params::new` enforces, while `2 * t` does not overflow. -/
theorem params_new_ok {n t : Usize} {params : Params} (h : Params.new n t = .ok params) (ht : t.val ≤ 2 ^ 63) :
    params = ⟨n, t⟩ ∧ 1 ≤ t.val ∧ 2 * t.val ≤ n.val + 1 := by
  unfold Params.new at h
  split at h
  · cases h
  · next ht1 =>
    split at h
    · cases h
    · next hlen =>
      cases h
      have hpos : 1 ≤ t.val := Nat.not_lt.mp ht1
      have hlen : (2 * t - 1).val ≤ n.val := Nat.not_lt.mp hlen
      rw [val_two_mul_sub_one hpos ht] at hlen
      exact ⟨rfl, hpos, by omega⟩

/-- `1..=n` is a committee when `t` has an honest majority. -/
theorem full_ok (params : Params) (hpos : 1 ≤ params.t.val) (hmaj : 2 * params.t.val ≤ params.n.val + 1) :
    ∃ c, Committee.full params = .ok c ∧ c.ids = params.parties ∧ c.t = params.t ∧ c.n = params.n.val := by
  have hn : params.parties.length = params.n.val := by
    unfold Params.parties
    rw [List.length_map, List.length_range]
  have hpos_ids : ∀ i ∈ params.parties, 0 < i := by
    intro i hi
    obtain ⟨k, hk, rfl⟩ := List.mem_map.mp hi
    have hk := List.mem_range.mp hk
    have hnlt := params.n.isLt
    rw [Fin.lt_def, Fin.val_ofNat, Nat.mod_eq_of_lt (by omega)]
    exact Nat.succ_pos k
  have hne : params.parties ≠ [] := by
    intro h0
    rw [h0, List.length_nil] at hn
    omega
  let c : Committee := ⟨params.parties, params.t, parties_sorted _, hpos_ids, hne, hpos⟩
  have hcmaj : 2 * c.t.val ≤ c.ids.length + 1 := by
    rw [show c.ids.length = params.n.val from hn]
    exact hmaj
  refine ⟨c, ?_, rfl, rfl, hn⟩
  unfold Committee.full
  rw [show Committee.new params.parties params.t = .ok c from Committee.new_self c hcmaj]

end OhmEcdsa
