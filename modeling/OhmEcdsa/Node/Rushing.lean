import OhmEcdsa.Node.Acceptor
import OhmEcdsa.Node.Vss

/-!
# Commit before reveal (`joint_vss_run` over the mesh)

The driver hands its commitment, its reveal and its shares to the mesh one after the
other and reads its first accepted set after them.  Nothing it sends in the dealing
depends on what it accepts, so in every session there is a run in which a member
reveals before it accepted a single commitment (`reveals_early`).
-/

set_option linter.unusedSectionVars false

namespace OhmEcdsa

open Transition Hoare FeldmanCommitment Acceptor

variable {F G : Type} [Field F] [DecidableEq F] [AddCommGroup G] [Module F G] [DecidableEq G] [K256 F G]

/-! ## Specification -/

/-- What `me` handed to its mesh, in order. -/
def sentBy {M : Type} (me : PartyId) (acts : List (Action M)) : List (Envelope M) :=
  acts.filterMap fun
    | .send env => if env.envelope.sender = me then some env.envelope else none
    | _ => none

/-- Up to here `me` ran `joint_vss_run`, whatever it is to accept later. -/
def RunsVss (me : PartyId) (t : Usize) (sid tag : Bytes) (phase : Phase) (ids : List PartyId) (rng : Rngs F)
    (acts : List (Action (NodePayload F G))) : Prop :=
  ∀ view : VssView F G, sentBy me acts <+: (jointVssRun me t sid tag phase ids view ⟨rng, []⟩).2.sent

variable [DecidableEq (NodePayload F G)]

/-- When `me` sends its reveal or a share, its accepted set has a commitment of every member. -/
def CommitBeforeReveal (net : Net (NodePayload F G)) (me : PartyId) (sid : Bytes) (phase : Phase)
    (ids : List PartyId) (acts : List (Action (NodePayload F G))) : Prop :=
  ∀ before env after w, acts = before ++ .send env :: after →
    Run (step net) (fun _ _ => True) (World.init net.committee.t) before w →
    env.envelope.sender = me → env.envelope.sid = sid → env.envelope.phase = phase →
    env.envelope.round = VSS_ROUND_REVEAL →
    ∀ j ∈ ids, ∃ commit b, ((w.node me).acceptor.bcastSet sid phase VSS_ROUND_COMMIT ids)[j]? = some commit ∧
      asCommit j commit.envelope.payload = some b

/-! ## Lemmas -/

/-- The dealing goes out before anything is read. -/
theorem jointVssRun_dealing (c : Committee) (hmaj : 2 * c.t.val ≤ c.ids.length + 1) (me : PartyId)
    (sid tag : Bytes) (phase : Phase) (rng : Rngs F) (hrng : Enough 1 rng) :
    ∃ (b1 : DkgBcast1) (b2 : DkgBcast2 G), ∀ view : VssView F G,
      [Envelope.broadcast sid phase VSS_ROUND_COMMIT me (.dkg (.commit b1)),
        Envelope.broadcast sid phase VSS_ROUND_REVEAL me (.dkg (.reveal b2))] <+:
      (jointVssRun (G := G) me c.t sid tag phase c.ids view ⟨rng, []⟩).2.sent := by
  have hdeal := (DkgInstance.startCommittee_triple (F := F) (G := G) Nat.zero_lt_one c sid tag me rng hrng).2
  cases hstart : (DkgInstance.startCommittee (F := F) (G := G) c sid tag me 0 rng).1 with
  | error e => rw [hstart] at hdeal; exact hdeal.elim
  | ok started =>
    obtain ⟨inst, b1⟩ := started
    rw [hstart] at hdeal
    change inst.Honest c sid tag ∧ inst.me = me ∧ b1 = inst.commitOf at hdeal
    obtain ⟨hinst, rfl, rfl⟩ := hdeal
    refine ⟨inst.commitOf, ⟨inst.me, inst.com⟩, fun view => ?_⟩
    unfold jointVssRun
    rw [Committee.new_self c hmaj, lift_bind_run]
    simp only
    rw [draw_bind_run, hstart]
    simp only
    rw [send_bind_run, hinst.reveal, lift_bind_run]
    simp only
    rw [send_bind_run, bind_run, forM_send_run]
    simp only
    have htail := vssAfterDealing_run inst c.t phase c.ids view
    rw [hinst.sid, hinst.tag] at htail
    obtain ⟨sent, hrun, -⟩ := htail _
    rw [hrun]
    simp only [List.nil_append, List.append_assoc, List.singleton_append]
    exact ⟨_, rfl⟩

/-- Two messages of different rounds go out one after the other, and nothing is
accepted meanwhile. -/
theorem send_pair {M : Type} [DecidableEq M] (net : Net M) {me : PartyId} (hme : net.Honest me) (sid : Bytes)
    (phase : Phase) {round round' : Nat} (hround : round ≠ round') (p p' : M) (signature : Bytes)
    (hsig : signature.length = 64) :
    ∃ w w', Run (step net) (fun _ _ => True) (World.init net.committee.t)
        [.send ⟨.broadcast sid phase round me p, signature⟩] w ∧
      w.node = (World.init net.committee.t).node ∧
      Run (step net) (fun _ _ => True) w [.send ⟨.broadcast sid phase round' me p', signature⟩] w' := by
  obtain ⟨w, hw⟩ : ∃ w : World M, w = { World.init net.committee.t with
      sent := [.broadcast sid phase round me p] } := ⟨_, rfl⟩
  refine ⟨w, { w with sent := w.sent ++ [.broadcast sid phase round' me p'] }, ?_, by rw [hw], ?_⟩
  · refine Run.cons trivial ?_ (Run.nil _)
    have hsend : net.Sendable (World.init net.committee.t) ⟨.broadcast sid phase round me p, signature⟩ :=
      ⟨hme, hsig, nofun⟩
    simp only [step, if_pos hsend, hw]
    rfl
  · refine Run.cons trivial ?_ (Run.nil _)
    have hsend : net.Sendable w ⟨.broadcast sid phase round' me p', signature⟩ := by
      refine ⟨hme, hsig, fun e he _ _ hslot => ?_⟩
      rw [hw] at he
      obtain rfl := List.mem_singleton.mp he
      exact absurd (SlotKey.mk.inj hslot).2.2.1 hround
    simp only [step, if_pos hsend]
    rfl

theorem bcastSet_init {M : Type} [DecidableEq M] (t : Usize) (me : PartyId) (sid : Bytes) (phase : Phase)
    (round : Nat) (ids : List PartyId) (j : PartyId) :
    (((World.init t : World M).node me).acceptor.bcastSet sid phase round ids)[j]? = none := by
  rw [bcastSet_getElem?]
  by_cases hj : j ∈ ids
  · rw [if_pos hj]
    simp [accepted, World.init, MeshNode.new, Acceptor.new, poisoned]
  · rw [if_neg hj]

/-- **The rushed reveal**: a run in which `me` deals as the driver does, with its
accepted set empty. -/
theorem rushed_run (net : Net (NodePayload F G)) (c : Committee) (hmaj : 2 * c.t.val ≤ c.ids.length + 1)
    {me : PartyId} (hme : net.Honest me) (hmem : me ∈ c.ids) (sid tag : Bytes) (phase : Phase) (rng : Rngs F)
    (hrng : Enough 1 rng) :
    ∃ acts w, Run (step net) (fun _ _ => True) (World.init net.committee.t) acts w ∧
      RunsVss me c.t sid tag phase c.ids rng acts ∧ ¬ CommitBeforeReveal net me sid phase c.ids acts := by
  obtain ⟨b1, b2, hsent⟩ := jointVssRun_dealing (G := G) c hmaj me sid tag phase rng hrng
  have hround : VSS_ROUND_COMMIT ≠ VSS_ROUND_REVEAL := by decide
  obtain ⟨w, w', hcommit, hnode, hreveal⟩ := send_pair net hme sid phase hround (.dkg (.commit b1))
    (.dkg (.reveal b2)) (List.replicate 64 0) (by simp)
  refine ⟨_, w', hcommit.append hreveal, fun view => ?_, fun hprop => ?_⟩
  · have hpair := hsent view
    simpa [sentBy, Envelope.broadcast] using hpair
  · obtain ⟨commit, b, haccepted, -⟩ := hprop [_] _ [] w rfl hcommit rfl rfl rfl rfl me hmem
    rw [hnode, bcastSet_init] at haccepted
    cases haccepted

/-! ## Theorems -/

/-- **Reveals are not held back for the commitments**: whatever the committee, the
honest member, the session and the randomness, some run of the driver breaks it. -/
theorem reveals_early (net : Net (NodePayload F G)) (c : Committee) (hmaj : 2 * c.t.val ≤ c.ids.length + 1)
    {me : PartyId} (hme : net.Honest me) (hmem : me ∈ c.ids) (sid tag : Bytes) (phase : Phase) (rng : Rngs F)
    (hrng : Enough 1 rng) :
    ¬ ∀ acts w, Run (step net) (fun _ _ => True) (World.init net.committee.t) acts w →
      RunsVss me c.t sid tag phase c.ids rng acts → CommitBeforeReveal net me sid phase c.ids acts := by
  intro hall
  obtain ⟨acts, w, hrun, hvss, hearly⟩ := rushed_run net c hmaj hme hmem sid tag phase rng hrng
  exact hearly (hall acts w hrun hvss)

/-! The 2-of-3 committee, party 3 corrupt, party 1 deals `1 + X`. -/

open Secp256k1

/-- Party 3 is corrupt; the payloads' encoding plays no part. -/
def trioVssNet : Net (NodePayload Scalar Point) := ⟨trio, {3}, fun _ => []⟩

def oneDraws : Rngs Scalar := ⟨[⟨1, fun _ => 1, 0⟩], []⟩

open scoped Classical in
theorem reveals_early_trio :
    ¬ ∀ acts w, Run (step trioVssNet) (fun _ _ => True) (World.init trioVssNet.committee.t) acts w →
      RunsVss 1 trio.t [] tags.dkgCommit .keyGen trio.ids oneDraws acts →
        CommitBeforeReveal trioVssNet 1 [] .keyGen trio.ids acts :=
  reveals_early trioVssNet trio (by decide) ⟨by decide, by decide⟩ (by decide) [] tags.dkgCommit .keyGen oneDraws
    (le_refl 1)

open scoped Classical in
theorem trio_rushes : trioVssNet.corrupt.card ≤ trioVssNet.committee.t.val - 1 ∧
    ∃ acts w, Run (step trioVssNet) (fun _ _ => True) (World.init trioVssNet.committee.t) acts w ∧
      RunsVss 1 trio.t [] tags.dkgCommit .keyGen trio.ids oneDraws acts ∧
        ¬ CommitBeforeReveal trioVssNet 1 [] .keyGen trio.ids acts :=
  ⟨by decide, rushed_run trioVssNet trio (by decide) ⟨by decide, by decide⟩ (by decide) [] tags.dkgCommit .keyGen
    oneDraws (le_refl 1)⟩

end OhmEcdsa
