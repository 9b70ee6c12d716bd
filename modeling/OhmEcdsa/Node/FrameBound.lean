import OhmEcdsa.Core.Bounds
import OhmEcdsa.Node.Calls
import OhmEcdsa.Node.Framing
import OhmEcdsa.Node.Mesh

/-!
# Frame bounds and honest traffic (`party.rs`, `wire.rs`, `mesh.rs`)

The reader drops a frame above a bound for its variant, which grows with `n`, and
above one for all variants, which ends at `u32::MAX`.  In every run of a mesh node whose
drivers are honest and whose echoes are of frames its reader took, what it writes is
within the first bound, and within the second if it has a frame at all:

    Run (Mesh.step cfg) (HonestAction ..) init acts s → ∀ f ∈ s.written, Admitted n f.msg     (honest_frames_admitted)
-/

set_option linter.unusedSectionVars false

namespace OhmEcdsa

open FeldmanCommitment Hoare Secp256k1 Transition

variable {F G K : Type} [Field F] [DecidableEq F] [AddCommGroup G] [Module F G] [DecidableEq G] [K256 F G]
  [WireFormat F G]

/-! ## Algorithm: the bounds -/

def ORIGINAL_OVERHEAD : U64 := 128 + Fin.ofNat (2 ^ 64) maxSid

def ECHO_OVERHEAD : U64 := 200 + Fin.ofNat (2 ^ 64) maxSid

/-- `payload_variant_max`. -/
def NodePayload.payloadVariantMax (n : Usize) : NodePayload F G → U64
  | .dkg _ => 64 + 40 * n
  | .complaints _ => 16 + 8 * n
  | .defenses _ => 16 + 40 * n
  | .signShare _ _ => 64
  | .tripleDeal _ => 256 + 40 * n
  | .reshare _ => 48
  | .beaverOpen _ _ => 96
  | .openShare _ => 48
  | .noncePoint _ => 48
  | .reshareRequests _ => 16 + 400 * n
  | .reshareSupply _ => 16 + 48 * n

/-- `family_max`. -/
def familyMax (n : Usize) : U64 := 16 + 400 * n

/-- `max_frame`: the bound is a `u32`. -/
def maxFrame (n : Usize) : Nat :=
  let bound := (ECHO_OVERHEAD + familyMax n).val
  if bound < 2 ^ 32 then bound else 2 ^ 32 - 1

/-- `variant_max`. -/
def WireMessage.variantMax (n : Usize) : WireMessage (NodePayload F G) → U64
  | .original env => ORIGINAL_OVERHEAD + env.envelope.payload.payloadVariantMax n
  | .echo _ env _ => ECHO_OVERHEAD + env.envelope.payload.payloadVariantMax n

/-! ## Specification -/

def WireMessage.size (msg : WireMessage (NodePayload F G)) : Nat := (msg.encode NodePayload.encode).length

/-- Within the bounds, if the message has a frame: its length goes into four bytes. -/
def Admitted (n : Usize) (msg : WireMessage (NodePayload F G)) : Prop :=
  msg.size ≤ (msg.variantMax n).val ∧ (msg.size < 2 ^ 32 → msg.size ≤ maxFrame n)

variable (K) in
/-- A node `me` of a committee of `n` with threshold `t` hands over what its drivers send,
and echoes broadcasts its reader took. -/
def HonestAction (n t : Usize) (me : PartyId) : MeshAction (NodePayload F G) → Prop
  | .send env => ∃ (call : DriverCall F G K) (rng : Rngs F), call.t = t ∧ call.ids.length ≤ n.val ∧ call.Kept me ∧
      env.envelope ∈ (call.run me ⟨rng, []⟩).2.sent ∧ env.envelope.sid.length ≤ maxSid ∧ env.signature.length = 64
  | .receive env => (WireMessage.original env).size ≤ ((WireMessage.original env).variantMax n).val
  | _ => True

/-! ## Lemmas: the bounds -/

theorem linear_val {a b : Nat} {n : U64} (h : a + b * n.val < 2 ^ 64) (hn : 1 ≤ n.val) :
    (Fin.ofNat (2 ^ 64) a + Fin.ofNat (2 ^ 64) b * n).val = a + b * n.val := by
  have hb : b * 1 ≤ b * n.val := Nat.mul_le_mul_left b hn
  rw [Fin.val_add, Fin.val_mul, Nat.add_mod_mod, Fin.val_ofNat, Fin.val_ofNat, Nat.mod_eq_of_lt (a := a) (by omega),
    Nat.mod_eq_of_lt (a := b) (by omega), Nat.mod_eq_of_lt h]

theorem sum_val {a b : U64} (h : a.val + b.val < 2 ^ 64) : (a + b).val = a.val + b.val := by
  rw [Fin.val_add, Nat.mod_eq_of_lt h]

/-- The bounds without wrapping. -/
def NodePayload.bound (n : Nat) : NodePayload F G → Nat
  | .dkg _ => 64 + 40 * n
  | .complaints _ => 16 + 8 * n
  | .defenses _ => 16 + 40 * n
  | .signShare _ _ => 64
  | .tripleDeal _ => 256 + 40 * n
  | .reshare _ => 48
  | .beaverOpen _ _ => 96
  | .openShare _ => 48
  | .noncePoint _ => 48
  | .reshareRequests _ => 16 + 400 * n
  | .reshareSupply _ => 16 + 48 * n

theorem NodePayload.bound_le {n : Nat} (hn : 1 ≤ n) (p : NodePayload F G) : p.bound n ≤ 16 + 400 * n := by
  cases p <;> simp only [NodePayload.bound] <;> omega

section Wide

variable {n : Usize} (hn : 1 ≤ n.val) (hwide : 344 + 400 * n.val < 2 ^ 64)

include hn hwide

theorem payloadVariantMax_val (p : NodePayload F G) : (p.payloadVariantMax n).val = p.bound n.val := by
  cases p with
  | dkg => exact linear_val (a := 64) (b := 40) (by omega) hn
  | complaints => exact linear_val (a := 16) (b := 8) (by omega) hn
  | defenses => exact linear_val (a := 16) (b := 40) (by omega) hn
  | tripleDeal => exact linear_val (a := 256) (b := 40) (by omega) hn
  | reshareRequests => exact linear_val (a := 16) (b := 400) (by omega) hn
  | reshareSupply => exact linear_val (a := 16) (b := 48) (by omega) hn
  | _ => rfl

theorem familyMax_val : (ECHO_OVERHEAD + familyMax n).val = 344 + 400 * n.val := by
  have hfamily : (familyMax n).val = 16 + 400 * n.val := linear_val (a := 16) (b := 400) (by omega) hn
  have hecho : ECHO_OVERHEAD.val = 328 := by decide
  rw [sum_val (by omega), hfamily, hecho]
  omega

theorem original_val (env : SignedEnvelope (NodePayload F G)) :
    ((WireMessage.original env).variantMax n).val = 256 + env.envelope.payload.bound n.val := by
  have hpayload := payloadVariantMax_val hn hwide env.envelope.payload
  have hle := env.envelope.payload.bound_le hn
  have hover : ORIGINAL_OVERHEAD.val = 256 := by decide
  rw [WireMessage.variantMax, sum_val (by omega), hpayload, hover]

theorem echo_val (echoer : PartyId) (env : SignedEnvelope (NodePayload F G)) (signature : Bytes) :
    ((WireMessage.echo echoer env signature).variantMax n).val = 328 + env.envelope.payload.bound n.val := by
  have hpayload := payloadVariantMax_val hn hwide env.envelope.payload
  have hle := env.envelope.payload.bound_le hn
  have hover : ECHO_OVERHEAD.val = 328 := by decide
  rw [WireMessage.variantMax, sum_val (by omega), hpayload, hover]

/-- What its variant's bound admits is within the frame bound, if it has a frame. -/
theorem admitted_of_variant {msg : WireMessage (NodePayload F G)} (h : msg.size ≤ (msg.variantMax n).val) :
    Admitted n msg := by
  refine ⟨h, fun hframe => ?_⟩
  have hmax : (msg.variantMax n).val ≤ 344 + 400 * n.val := by
    cases msg with
    | original env =>
      have hle := env.envelope.payload.bound_le hn
      rw [original_val hn hwide]
      omega
    | echo echoer env signature =>
      have hle := env.envelope.payload.bound_le hn
      rw [echo_val hn hwide]
      omega
  unfold maxFrame
  dsimp only
  rw [familyMax_val hn hwide]
  split <;> omega

end Wide

/-! ## Lemmas: sizes -/

theorem length_flatMap_le {α : Type} {f : α → Bytes} {c : Nat} {l : List α} (h : ∀ a ∈ l, (f a).length ≤ c) :
    (l.flatMap f).length ≤ c * l.length := by
  induction l with
  | nil => exact Nat.zero_le _
  | cons a l ih =>
    have ha := h a List.mem_cons_self
    have hl := ih fun b hb => h b (List.mem_cons_of_mem _ hb)
    rw [List.flatMap_cons, List.length_append, List.length_cons, Nat.mul_succ]
    omega

theorem pointBytes_length_le (P : G) : (K256.pointBytes F P).length ≤ 33 := by
  by_cases hP : P = 0
  · rw [hP, WireFormat.pointBytes_zero]
    decide
  · exact (pointBytes_length hP).le

theorem commitment_length_le (com : FeldmanCommitment G) : (com.encode F).length ≤ 8 + 33 * com.points.length := by
  have hpoints := length_flatMap_le (c := 33) (l := com.points) fun P _ => pointBytes_length_le (F := F) P
  rw [FeldmanCommitment.encode, List.length_append, u64Bytes_length]
  omega

theorem counted_length_le {α : Type} {enc : α → Bytes} {c : Nat} {l : List α} (h : ∀ a ∈ l, (enc a).length ≤ c) :
    (countedBytes enc l).length ≤ 8 + c * l.length := by
  have hbody := length_flatMap_le h
  rw [countedBytes, List.length_append, u64Bytes_length]
  omega

theorem keyedScalar_length (e : PartyId × F) : (keyedBytes (WireFormat.scalarBytes G) e).length = 40 := by
  rw [keyedBytes, List.length_append, u64Bytes_length, WireFormat.scalarBytes_length]

theorem envelope_length_le {M : Type} (payloadBytes : M → Bytes) (env : Envelope M) :
    (env.encode payloadBytes).length ≤ 35 + env.sid.length + (payloadBytes env.payload).length := by
  unfold Envelope.encode putBytes
  cases env.addressee <;>
    simp only [List.length_append, u64Bytes_length, List.length_cons, List.length_nil] <;> omega

theorem signed_length {M : Type} (payloadBytes : M → Bytes) (env : SignedEnvelope M) :
    (env.encode payloadBytes).length = (env.envelope.encode payloadBytes).length + env.signature.length :=
  List.length_append

theorem original_size (env : SignedEnvelope (NodePayload F G)) :
    (WireMessage.original env).size = 1 + (env.encode NodePayload.encode).length := by
  rw [WireMessage.size, WireMessage.encode, List.length_cons, Nat.add_comm]

theorem echo_size (echoer : PartyId) (env : SignedEnvelope (NodePayload F G)) (signature : Bytes) :
    (WireMessage.echo echoer env signature).size = (WireMessage.original env).size + 8 + signature.length := by
  rw [original_size, WireMessage.size, WireMessage.encode, List.length_cons, List.length_append, List.length_append,
    u64Bytes_length]
  omega

/-- Evidence of a request: whose, then the dealer's signed re-share. -/
theorem evidence_length_le {sid : Bytes} (hsid : sid.length ≤ maxSid)
    {r : PartyId × SignedEnvelope (NodePayload F G)} (h : IsReshare sid r.2) :
    (keyedBytes (SignedEnvelope.encode NodePayload.encode) r).length ≤ 268 := by
  obtain ⟨rfl, hsig, s, hs⟩ := h
  have henv := envelope_length_le NodePayload.encode r.2.envelope
  rw [hs, NodePayload.encode, List.length_cons, WireFormat.scalarBytes_length] at henv
  rw [keyedBytes, List.length_append, u64Bytes_length, signed_length, hsig]
  have hmax : maxSid = 128 := rfl
  omega

section Payload

variable (hsha : ∀ b, (K256.sha256 F G b).length = 32)

include hsha

/-- **A payload's encoding** is within its variant's bound. -/
theorem payload_length_le {k n : Nat} {t : Usize} {sid : Bytes} {p : NodePayload F G} (h : p.Sized k t sid)
    (hk : k ≤ n) (ht : t.val ≤ n) (hsid : sid.length ≤ maxSid) : p.encode.length ≤ p.bound n := by
  cases p with
  | dkg m =>
    cases m with
    | commit b =>
      obtain ⟨bytes, hhash⟩ := h
      simp only [NodePayload.encode, NodePayload.bound, DkgMessage.encode, DkgBcast1.encode, putBytes, hhash, hsha,
        List.length_cons, List.length_append, u64Bytes_length]
      omega
    | reveal b =>
      have hcom := commitment_length_le (F := F) b.com
      rw [show b.com.points.length = t.val from h] at hcom
      simp only [NodePayload.encode, NodePayload.bound, DkgMessage.encode, DkgBcast2.encode, List.length_cons,
        List.length_append, u64Bytes_length]
      omega
    | share s =>
      simp only [NodePayload.encode, NodePayload.bound, DkgMessage.encode, DkgP2P.encode, List.length_cons,
        List.length_append, u64Bytes_length, WireFormat.scalarBytes_length]
      omega
  | complaints dealers =>
    have hlen : dealers.length ≤ k := h
    have hbody := counted_length_le (c := 8) (l := dealers) fun d _ => (u64Bytes_length d.val).le
    simp only [NodePayload.encode, NodePayload.bound, List.length_cons]
    omega
  | defenses defs =>
    have hlen : defs.length ≤ k := h
    have hbody := counted_length_le (c := 40) (l := defs) fun e _ => (keyedScalar_length (G := G) e).le
    simp only [NodePayload.encode, NodePayload.bound, List.length_cons]
    omega
  | tripleDeal d =>
    have hcom := commitment_length_le (F := F) d.com
    rw [show d.com.points.length = t.val from h] at hcom
    have hx1 := pointBytes_length_le (F := F) d.x1
    have hx2 := pointBytes_length_le (F := F) d.x2
    have ht1 := pointBytes_length_le (F := F) d.proof.t1
    have ht2 := pointBytes_length_le (F := F) d.proof.t2
    simp only [NodePayload.encode, NodePayload.bound, TripleDealMsg.encode, List.length_cons, List.length_append,
      WireFormat.scalarBytes_length]
    omega
  | reshareRequests requests =>
    obtain ⟨hlen, hevidence⟩ := h
    have hbody : (countedBytes (keyedBytes (SignedEnvelope.encode NodePayload.encode)) requests).length ≤
        8 + 268 * requests.length := counted_length_le fun r hr => evidence_length_le hsid (hevidence r hr)
    rw [encode_reshareRequests, List.length_cons]
    simp only [NodePayload.bound]
    omega
  | reshareSupply supplies =>
    have hlen : supplies.length ≤ k := h
    have hbody := counted_length_le (c := 40) (l := supplies) fun e _ => (keyedScalar_length (G := G) e).le
    simp only [NodePayload.encode, NodePayload.bound, List.length_cons]
    omega
  | noncePoint P =>
    have hP := pointBytes_length_le (F := F) P
    simp only [NodePayload.encode, NodePayload.bound, List.length_cons]
    omega
  | signShare | reshare | beaverOpen | openShare =>
    simp only [NodePayload.encode, NodePayload.bound, List.length_cons, List.length_append, u64Bytes_length,
      WireFormat.scalarBytes_length]
    omega

end Payload

/-! ## Lemmas: the mesh -/

section Carries

variable {M : Type}

/-- The messages a thread has still to write. -/
def Thread.msgs : Thread M → List (WireMessage M)
  | .send _ msg => [msg]
  | .write _ _ msg next => msg :: next.msgs
  | .kick _ _ next => next.msgs
  | .resend _ rest => rest
  | .rewrite _ _ msg rest => msg :: rest
  | _ => []

/-- Everything journaled, under way or written has `P`. -/
structure Mesh.Carries (P : WireMessage M → Prop) (s : Mesh M) : Prop where
  journal : ∀ sid, ∀ msg ∈ s.entry sid, P msg
  threads : ∀ th ∈ s.threads, ∀ msg ∈ th.msgs, P msg
  written : ∀ f ∈ s.written, P f.msg

namespace Mesh.Carries

variable {P : WireMessage M → Prop} {s : Mesh M}

theorem become (h : s.Carries P) (i : Nat) {th : Thread M} (hth : ∀ msg ∈ th.msgs, P msg) : (s.become i th).Carries P := by
  refine ⟨h.journal, fun th' hmem => ?_, h.written⟩
  rcases List.mem_or_eq_of_mem_set hmem with hmem | rfl
  · exact h.threads th' hmem
  · exact hth

theorem spawn (h : s.Carries P) {th : Thread M} (hth : ∀ msg ∈ th.msgs, P msg) : (s.spawn th).Carries P := by
  refine ⟨h.journal, fun th' hmem => ?_, h.written⟩
  rcases List.mem_append.mp hmem with hmem | hmem
  · exact h.threads th' hmem
  · rw [List.mem_singleton.mp hmem]
    exact hth

theorem putFrame (h : s.Carries P) (peer : PartyId) (conn : Nat) {msg : WireMessage M} (hmsg : P msg) :
    (s.putFrame peer conn msg).Carries P := by
  refine ⟨h.journal, h.threads, fun f hf => ?_⟩
  rcases List.mem_append.mp hf with hf | hf
  · exact h.written f hf
  · rw [List.mem_singleton.mp hf]
    exact hmsg

theorem recordFailure (h : s.Carries P) (peer : PartyId) (msg : WireMessage M) : (s.recordFailure peer msg).Carries P := by
  obtain ⟨failures, heq, -⟩ := recordFailure_eq s peer msg
  rw [heq]
  exact ⟨h.journal, h.threads, h.written⟩

theorem journalPush (h : s.Carries P) {msg : WireMessage M} (hmsg : P msg) : (s.journalPush msg).Carries P := by
  refine ⟨fun sid msg' hmem => ?_, h.threads, h.written⟩
  rw [entry_journalPush] at hmem
  split at hmem
  · rcases List.mem_append.mp hmem with hmem | hmem
    · exact h.journal sid msg' hmem
    · rw [List.mem_singleton.mp hmem]
      exact hmsg
  · exact h.journal sid msg' hmem

theorem retireSession (h : s.Carries P) (sid : Bytes) : (s.retireSession sid).Carries P := by
  refine ⟨fun sid' msg hmem => ?_, h.threads, h.written⟩
  rw [entry_retireSession] at hmem
  split at hmem
  · cases hmem
  · exact h.journal sid' msg hmem

theorem sendTo (h : s.Carries P) (peer : PartyId) {msg : WireMessage M} (hmsg : P msg) : (s.sendTo peer msg).Carries P :=
  (h.journalPush hmsg).spawn fun msg' hmem => by
    rw [List.mem_singleton.mp hmem]
    exact hmsg

theorem sendAll (h : s.Carries P) {msg : WireMessage M} (hmsg : P msg) : (s.sendAll msg).Carries P :=
  (h.journalPush hmsg).spawn fun msg' hmem => by
    rw [List.mem_singleton.mp hmem]
    exact hmsg

/-- A thread writes what it carries, and carries on with the rest. -/
theorem advance {cfg : MeshConfig M} {s' : Mesh M} {i : Nat} {ok : Bool} (h : s.Carries P)
    (hstep : s.advance cfg i ok = some s') : s'.Carries P := by
  obtain ⟨th, hth, hadvance⟩ := advance_inv hstep
  have hmsgs := h.threads th (List.mem_of_getElem? hth)
  have hidle : ∀ msg : WireMessage M, msg ∈ ([] : List (WireMessage M)) → P msg := nofun
  cases hadvance with
  | connected peer => exact (⟨h.journal, h.threads, h.written⟩ : (s.install peer).Carries P).become i hidle
  | unconnected peer => exact h.become i hidle
  | sent msg => exact h.become i hidle
  | skip peer rest msg hdown => exact h.become i hmsgs
  | unlinked peer rest msg hnone => exact (h.recordFailure peer msg).become i hmsgs
  | delayed peer rest msg conn hconn =>
    have hsend : (s.become i (.send rest msg)).Carries P := h.become i hmsgs
    exact hsend.spawn hmsgs
  | linked peer rest msg conn hconn =>
    refine h.become i fun msg' hmem => hmsgs msg' ?_
    rcases List.mem_cons.mp hmem with rfl | hmem
    · exact List.mem_cons_self
    · exact hmem
  | wrote peer conn msg next =>
    exact (h.putFrame peer conn (hmsgs msg List.mem_cons_self)).become i fun msg' hmem =>
      hmsgs msg' (List.mem_cons_of_mem _ hmem)
  | failed peer conn msg next =>
    exact ((h.putFrame peer conn (hmsgs msg List.mem_cons_self)).recordFailure peer msg).become i fun msg' hmem =>
      hmsgs msg' (List.mem_cons_of_mem _ hmem)
  | kicked peer failedAt next hrec =>
    have hnext : (s.become i next).Carries P := h.become i hmsgs
    exact (⟨hnext.journal, hnext.threads, hnext.written⟩ :
      ({ s.become i next with reconnecting := insert peer s.reconnecting } : Mesh M).Carries P).spawn hidle
  | swallowed peer failedAt next hwhy => exact h.become i hmsgs
  | givenUp peer attempt hwhy => exact h.become i hidle
  | dialled peer attempt => exact (⟨h.journal, h.threads, h.written⟩ : (s.install peer).Carries P).become i hidle
  | again peer attempt => exact h.become i hidle
  | copied peer conn =>
    refine h.become i fun msg hmem => ?_
    obtain ⟨sid, hentry⟩ := (Mesh.mem_journaled s msg).mp hmem
    exact h.journal sid msg hentry
  | resent job =>
    exact (⟨h.journal, h.threads, h.written⟩ : ({ s with resends := s.resends ++ [job] } : Mesh M).Carries P).become i hidle
  | resendUnlinked job msg rest => exact (h.recordFailure job.peer msg).become i hidle
  | resendLinked job msg rest conn hconn => exact h.become i hmsgs
  | rewrote job conn msg rest =>
    exact (h.putFrame job.peer conn (hmsgs msg List.mem_cons_self)).become i fun msg' hmem =>
      hmsgs msg' (List.mem_cons_of_mem _ hmem)
  | resendFailed job conn msg rest =>
    exact ((h.putFrame job.peer conn (hmsgs msg List.mem_cons_self)).recordFailure job.peer msg).become i hidle
  | finished peer =>
    exact (⟨h.journal, h.threads, h.written⟩ :
      ({ s with reconnecting := s.reconnecting.erase peer } : Mesh M).Carries P).become i hidle

theorem init (P : WireMessage M → Prop) : (Mesh.init : Mesh M).Carries P := by
  refine ⟨fun sid msg hmem => ?_, nofun, nofun⟩
  simp [Mesh.init, Mesh.entry] at hmem

/-- A step keeps what its action brings. -/
theorem step {cfg : MeshConfig M} {s' : Mesh M} {a : MeshAction M} (h : s.Carries P)
    (hsend : ∀ env, a = .send env → P (.original env))
    (hecho : ∀ env, a = .receive env → P (.echo cfg.me env (cfg.echoSignature env)))
    (hstep : s.step cfg a = some s') : s'.Carries P := by
  cases a with
  | connect peer =>
    unfold Mesh.step at hstep
    dsimp only at hstep
    split at hstep
    · obtain rfl := Option.some.inj hstep
      exact h
    · obtain rfl := Option.some.inj hstep
      have hpeers : ({ s with peers := if peer ∈ s.peers then s.peers else s.peers.orderedInsert (· ≤ ·) peer } :
          Mesh M).Carries P := ⟨h.journal, h.threads, h.written⟩
      exact hpeers.spawn nofun
  | send env =>
    have henv := hsend env rfl
    unfold Mesh.step at hstep
    dsimp only at hstep
    split at hstep
    · obtain rfl := Option.some.inj hstep
      exact h.sendAll henv
    · obtain rfl := Option.some.inj hstep
      split
      · exact h
      · exact h.sendTo _ henv
  | receive env =>
    have henv := hecho env rfl
    unfold Mesh.step at hstep
    dsimp only at hstep
    split at hstep
    · obtain rfl := Option.some.inj hstep
      exact h
    · split at hstep
      · obtain rfl := Option.some.inj hstep
        exact h
      · obtain rfl := Option.some.inj hstep
        exact (⟨h.journal, h.threads, h.written⟩ :
          ({ s with echoed := insert (Acceptor.slotOf env.envelope) s.echoed } : Mesh M).Carries P).sendAll henv
  | retire sid =>
    obtain rfl := Option.some.inj hstep
    exact h.retireSession sid
  | dropOutgoing peer =>
    obtain rfl := Option.some.inj hstep
    exact (⟨h.journal, h.threads, h.written⟩ : ({ s with out := s.out.erase peer } : Mesh M).Carries P).spawn nofun
  | shutdown =>
    obtain rfl := Option.some.inj hstep
    exact ⟨h.journal, h.threads, h.written⟩
  | advance i ok => exact h.advance hstep

end Mesh.Carries

end Carries

/-! ## Main theorem -/

/-- **Honest frames are within the bounds** their receivers enforce: in every run of an
honest node, every frame it writes to a peer, the first time and again, is within its
variant's bound, and within the frame bound unless it is too long for a frame. -/
theorem honest_frames_admitted (hsha : ∀ b, (K256.sha256 F G b).length = 32) (n t : Usize) (ht : 1 ≤ t.val)
    (hnt : 2 * t.val ≤ n.val + 1) (hwide : 344 + 400 * n.val < 2 ^ 64) (cfg : MeshConfig (NodePayload F G))
    (hecho : ∀ env, (cfg.echoSignature env).length = 64) {acts : List (MeshAction (NodePayload F G))}
    {s : Mesh (NodePayload F G)} (hrun : Run (Mesh.step cfg) (fun _ => HonestAction K n t cfg.me) Mesh.init acts s) :
    ∀ f ∈ s.written, Admitted n f.msg := by
  have hn : 1 ≤ n.val := by omega
  refine (hrun.invariant (I := Mesh.Carries (Admitted n)) (fun s a s' hs ha hstep => ?_) (.init _)).written
  refine hs.step (fun env hsend => ?_) (fun env hreceive => ?_) hstep
  · subst hsend
    obtain ⟨call, rng, hct, hids, hkept, hsent, hsid, hsig⟩ := ha
    have hsized := (call.run_sized cfg.me (hct ▸ ht) hkept ⟨rng, []⟩ nofun).1 env.envelope hsent
    have hpayload := payload_length_le hsha hsized hids (by rw [hct]; omega) hsid
    refine admitted_of_variant hn hwide ?_
    have henv := envelope_length_le NodePayload.encode env.envelope
    have hmax : maxSid = 128 := rfl
    rw [original_val hn hwide, original_size, signed_length, hsig]
    omega
  · -- the echo adds as much as its bound does
    subst hreceive
    refine admitted_of_variant hn hwide ?_
    have htaken : (WireMessage.original env).size ≤ ((WireMessage.original env).variantMax n).val := ha
    rw [original_val hn hwide] at htaken
    rw [echo_val hn hwide, echo_size, hecho]
    omega

/-! ### A share on its way -/

/-- The group of the tests with a digest of the right length. -/
def digest32 : K256 Scalar Point := withDigest fun b => (b ++ List.replicate 32 0).take 32

def digest32Wire : @WireFormat Scalar Point _ _ _ digest32 := wireWithDigest _

theorem digest32_length (b : Bytes) : (@K256.sha256 Scalar Point _ _ _ digest32 b).length = 32 := by
  show ((b ++ List.replicate 32 0).take 32).length = 32
  rw [List.length_take, List.length_append, List.length_replicate]
  omega

def trioShare : SignedEnvelope (NodePayload Scalar Point) :=
  ⟨Envelope.broadcast (utf8 "sign-1") .sign SIGN_ROUND_SHARE 1 (signShareMessage (trioRecord 1) 1), List.replicate 64 0⟩

def trioConfig : MeshConfig (NodePayload Scalar Point) := ⟨1, none, false, fun _ => List.replicate 64 0⟩

/-- Party 1 broadcasts its share over its connection to party 2. -/
def shareOut : List (MeshAction (NodePayload Scalar Point)) :=
  [.connect 2, .advance 0 true, .send trioShare, .advance 1 true, .advance 1 true]

theorem signScalarOver_sent (me : PartyId) (params : Params) (sid : Bytes) (presig : Presignature F G) (m : F)
    {ids : List PartyId} (hme : ids.contains me = true) (view : AcceptedSet F G) (s : Driver F G) :
    (signScalarOver me params sid presig m ids view s).2.sent =
      s.sent ++ [Envelope.broadcast sid .sign SIGN_ROUND_SHARE me (signShareMessage presig m)] := by
  unfold signScalarOver
  rw [if_neg (by rw [hme]; decide), send_bind_run]
  rfl

theorem trioShare_honest (a : MeshAction (NodePayload Scalar Point)) (ha : a ∈ shareOut) :
    @HonestAction Scalar Point Nat _ _ _ _ _ digest32 digest32Wire 3 2 1 a := by
  letI := digest32
  letI := digest32Wire
  have hcases : a = .connect 2 ∨ (∃ i ok, a = .advance i ok) ∨ a = .send trioShare := by
    rcases List.mem_cons.mp ha with rfl | ha
    · exact Or.inl rfl
    rcases List.mem_cons.mp ha with rfl | ha
    · exact Or.inr (Or.inl ⟨_, _, rfl⟩)
    rcases List.mem_cons.mp ha with rfl | ha
    · exact Or.inr (Or.inr rfl)
    rcases List.mem_cons.mp ha with rfl | ha
    · exact Or.inr (Or.inl ⟨_, _, rfl⟩)
    · rw [List.mem_singleton.mp ha]
      exact Or.inr (Or.inl ⟨_, _, rfl⟩)
  rcases hcases with rfl | ⟨i, ok, rfl⟩ | rfl
  · trivial
  · trivial
  · refine ⟨.sign ⟨3, 2⟩ (utf8 "sign-1") (trioRecord 1) 1 [1, 2, 3] ∅, ⟨[], []⟩, rfl, by decide, trivial, ?_,
      by decide +kernel, rfl⟩
    have hme : ([1, 2, 3] : List PartyId).contains 1 = true := by decide
    have hsent := signScalarOver_sent 1 ⟨3, 2⟩ (utf8 "sign-1") (trioRecord 1) 1 hme ∅ ⟨⟨[], []⟩, []⟩
    show trioShare.envelope ∈ ((do
      let _ ← signScalarOver 1 ⟨3, 2⟩ (utf8 "sign-1") (trioRecord 1) 1 [1, 2, 3] ∅ : NodeM Scalar Point Unit) ⟨⟨[], []⟩, []⟩).2.sent
    rw [bind_run]
    rcases hrun : signScalarOver 1 ⟨3, 2⟩ (utf8 "sign-1") (trioRecord 1) 1 [1, 2, 3] ∅
      (⟨⟨[], []⟩, []⟩ : Driver Scalar Point) with ⟨_ | _, s'⟩ <;> rw [hrun] at hsent
    · exact hsent ▸ List.mem_singleton_self _
    · exact hsent ▸ List.mem_singleton_self _

theorem honest_frames_admitted_share : ∃ s, @Run _ _ (Mesh.step trioConfig)
      (fun _ => @HonestAction Scalar Point Nat _ _ _ _ _ digest32 digest32Wire 3 2 1) Mesh.init shareOut s ∧
    s.written ≠ [] ∧ ∀ f ∈ s.written, @Admitted Scalar Point _ _ _ digest32 digest32Wire 3 f.msg := by
  have hsome : (shareOut.foldlM (Mesh.step trioConfig) Mesh.init).any (fun s => !s.written.isEmpty) = true := by
    decide +kernel
  obtain ⟨s, hs⟩ := Option.isSome_iff_exists.mp (Option.isSome_of_any hsome)
  rw [hs, Option.any_some, Bool.not_eq_true'] at hsome
  have hrun := Run.of_foldlM (fun a ha _ => trioShare_honest a ha) hs
  refine ⟨s, hrun, fun hnil => ?_, ?_⟩
  · rw [hnil] at hsome
    cases hsome
  · exact @honest_frames_admitted Scalar Point Nat _ _ _ _ _ digest32 digest32Wire digest32_length 3 2 (by decide)
      (by decide) (by decide) trioConfig (fun _ => rfl) _ _ hrun

/-! ### Committees past the bounds -/

/-- A party's dealing goes out, whatever comes back. -/
theorem jointVssRun_deals (c : Committee) (hmaj : 2 * c.t.val ≤ c.ids.length + 1) (me : PartyId) (sid tag : Bytes)
    (phase : Phase) (view : VssView F G) {rng : Rngs F} {r : StdRng F} (hr : rng.rngs[0]? = some r) :
    ∃ inst : DkgInstance F G, inst.me = me ∧ inst.com = fromPoly ⟨r.next c.t.val⟩ ∧
      Envelope.broadcast sid phase VSS_ROUND_COMMIT me (.dkg (.commit inst.commitOf)) ∈
        (jointVssRun me c.t sid tag phase c.ids view ⟨rng, []⟩).2.sent ∧
      Envelope.broadcast sid phase VSS_ROUND_REVEAL me (.dkg (.reveal ⟨me, inst.com⟩)) ∈
        (jointVssRun me c.t sid tag phase c.ids view ⟨rng, []⟩).2.sent := by
  have henough : Enough 1 rng := (List.getElem?_eq_some_iff.mp hr).1
  have hdeal := (DkgInstance.startCommittee_triple (F := F) (G := G) Nat.zero_lt_one c sid tag me rng henough).2
  obtain ⟨s', -, ⟨inst, b1⟩, hstart, hcoeffs⟩ := startCommittee_run (G := G) c sid tag me hr
  rw [hstart] at hdeal
  change inst.Honest c sid tag ∧ inst.me = me ∧ b1 = inst.commitOf at hdeal
  obtain ⟨hinst, rfl, rfl⟩ := hdeal
  have hcom : inst.com = fromPoly ⟨r.next c.t.val⟩ := by
    rw [hinst.com, ← hcoeffs]
  unfold jointVssRun
  rw [Committee.new_self c hmaj, lift_bind_run]
  simp only
  rw [draw_bind_run, hstart]
  simp only
  rw [send_bind_run, hinst.reveal, lift_bind_run]
  simp only
  rw [send_bind_run, bind_run, forM_send_run]
  simp only
  have htail := vssAfterDealing_run inst c.t phase c.ids view
  rw [hinst.sid, hinst.tag] at htail
  obtain ⟨sent, hrun, -⟩ := htail _
  rw [hrun]
  refine ⟨inst, rfl, hcom, ?_, ?_⟩
  · simp
  · simp

/-- There is a committee of any size with an honest majority. -/
theorem exists_committee {n t : Usize} (ht : 1 ≤ t.val) (hnt : 2 * t.val ≤ n.val + 1) :
    ∃ c : Committee, c.t = t ∧ c.ids.length = n.val := by
  have hlen : (⟨n, t⟩ : Params).parties.length = n.val := by
    unfold Params.parties
    rw [List.length_map, List.length_range]
  have h0 : (0 : PartyId) ∉ (⟨n, t⟩ : Params).parties := by
    intro hmem
    obtain ⟨k, hk, hzero⟩ := List.mem_map.mp hmem
    have hk := List.mem_range.mp hk
    have hval := congrArg Fin.val hzero
    have hlt := n.isLt
    rw [Fin.val_ofNat, Nat.mod_eq_of_lt (by simp only at hk; omega)] at hval
    cases hval
  have hle : (2 * t - 1).val ≤ (⟨n, t⟩ : Params).parties.length := by
    have hlt := n.isLt
    rw [hlen, val_two_mul_sub_one ht (by omega)]
    omega
  obtain ⟨c, hc⟩ := new_committee_ok_iff.mpr ⟨ht, hle, by
    intro hnil
    rw [hnil, List.length_nil] at hlen
    omega, h0, parties_nodup _⟩
  obtain ⟨hids, hct, -⟩ := Committee.new_ok hc
  exact ⟨c, hct, by rw [hids, List.length_insertionSort, hlen]⟩

theorem payload_le_size (env : SignedEnvelope (NodePayload F G)) :
    env.envelope.payload.encode.length ≤ (WireMessage.original env).size := by
  rw [original_size, signed_length]
  unfold Envelope.encode putBytes
  simp only [List.length_append]
  omega

/-- Party 1's generator. -/
def oneStream : StdRng Scalar := ⟨1, fun _ => 1, 0⟩

theorem ones_length (t : Nat) : ((fromPoly ⟨oneStream.next t⟩ : FeldmanCommitment Point).points.flatMap
    (K256.pointBytes Scalar)).length = 33 * t := by
  have hpoints : (fromPoly ⟨oneStream.next t⟩ : FeldmanCommitment Point).points = List.replicate t 1 := by
    rw [List.eq_replicate_iff]
    refine ⟨by rw [fromPoly_length, StdRng.next, List.length_map, List.length_range], fun P hP => ?_⟩
    obtain ⟨c, hc, rfl⟩ := List.mem_map.mp hP
    obtain ⟨i, -, rfl⟩ := List.mem_map.mp hc
    exact one_smul _ _
  rw [hpoints, length_flatMap_pointBytes, List.length_replicate]
  intro P hP
  rw [List.eq_of_mem_replicate hP]
  exact one_ne_zero

/-- An honest party's dealing over a committee of `n`. -/
theorem dealing_honest {n t : Usize} (ht : 1 ≤ t.val) (hnt : 2 * t.val ≤ n.val + 1) :
    ∃ commit reveal : SignedEnvelope (NodePayload Scalar Point),
      HonestAction Nat n t 1 (.send commit) ∧ HonestAction Nat n t 1 (.send reveal) ∧
      (∃ b, commit.envelope.payload = .dkg (.commit b)) ∧ 33 * t.val ≤ (WireMessage.original reveal).size := by
  obtain ⟨c, hct, hlen⟩ := exists_committee ht hnt
  subst hct
  obtain ⟨inst, -, hcom, hcommit, hreveal⟩ := jointVssRun_deals (F := Scalar) (G := Point) c (by omega) 1 [] tags.dkgCommit
    .keyGen ⟨∅, ∅, ∅, ∅, ∅⟩ (show (⟨[oneStream], []⟩ : Rngs Scalar).rngs[0]? = some oneStream from rfl)
  have hsent : ∀ env : Envelope (NodePayload Scalar Point),
      env ∈ (jointVssRun 1 c.t [] tags.dkgCommit .keyGen c.ids ⟨∅, ∅, ∅, ∅, ∅⟩ ⟨⟨[oneStream], []⟩, []⟩).2.sent →
      env.sid = [] → HonestAction Nat n c.t 1 (.send ⟨env, List.replicate 64 0⟩) := by
    intro env henv hsid
    refine ⟨.jointVss c.t [] tags.dkgCommit .keyGen c.ids ⟨∅, ∅, ∅, ∅, ∅⟩, ⟨[oneStream], []⟩, rfl, hlen.le, trivial, ?_,
      by rw [hsid]; exact Nat.zero_le _, rfl⟩
    show env ∈ ((do
      let _ ← jointVssRun 1 c.t [] tags.dkgCommit .keyGen c.ids ⟨∅, ∅, ∅, ∅, ∅⟩ : NodeM Scalar Point Unit)
        ⟨⟨[oneStream], []⟩, []⟩).2.sent
    rw [bind_run]
    rcases hrun : jointVssRun 1 c.t [] tags.dkgCommit .keyGen c.ids ⟨∅, ∅, ∅, ∅, ∅⟩
      (⟨⟨[oneStream], []⟩, []⟩ : Driver Scalar Point) with ⟨_ | _, s'⟩ <;> rw [hrun] at henv
    · exact henv
    · exact henv
  refine ⟨_, _, hsent _ hcommit rfl, hsent _ hreveal rfl, ⟨_, rfl⟩, le_trans ?_ (payload_le_size _)⟩
  have hones := ones_length c.t.val
  rw [← hcom] at hones
  show 33 * c.t.val ≤ ((NodePayload.dkg (.reveal ⟨1, inst.com⟩) : NodePayload Scalar Point).encode).length
  simp only [NodePayload.encode, DkgMessage.encode, DkgBcast2.encode, FeldmanCommitment.encode, List.length_cons,
    List.length_append, hones]
  omega

/-- An honest reveal above `u32::MAX`; and at a size where the bounds wrap, an honest
commitment above its variant's bound. -/
theorem honest_frame_oversized :
    (∃ (n t : Usize) (env : SignedEnvelope (NodePayload Scalar Point)), 1 ≤ t.val ∧ 2 * t.val ≤ n.val + 1 ∧
      HonestAction Nat n t 1 (.send env) ∧ maxFrame n < (WireMessage.original env).size) ∧
    ∃ (n t : Usize) (env : SignedEnvelope (NodePayload Scalar Point)), 1 ≤ t.val ∧ 2 * t.val ≤ n.val + 1 ∧
      HonestAction Nat n t 1 (.send env) ∧ ((WireMessage.original env).variantMax n).val < (WireMessage.original env).size := by
  constructor
  · obtain ⟨-, reveal, -, hreveal, -, hsize⟩ := dealing_honest (n := 299999999) (t := 150000000) (by decide) (by decide)
    refine ⟨299999999, 150000000, reveal, by decide, by decide, hreveal, lt_of_lt_of_le ?_ hsize⟩
    decide +kernel
  · obtain ⟨commit, -, hcommit, -, ⟨b, hb⟩, -⟩ := dealing_honest (n := 2305843009213693944) (t := 1) (by decide) (by decide)
    refine ⟨2305843009213693944, 1, commit, by decide, by decide, hcommit, ?_⟩
    rw [WireMessage.variantMax, hb, original_size]
    have hzero : (ORIGINAL_OVERHEAD + (NodePayload.dkg (.commit b) : NodePayload Scalar Point).payloadVariantMax
        2305843009213693944).val = 0 := by
      show (ORIGINAL_OVERHEAD + (64 + 40 * 2305843009213693944) : U64).val = 0
      decide +kernel
    omega

end OhmEcdsa
