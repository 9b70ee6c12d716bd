import OhmEcdsa.Node.Acceptance
import OhmEcdsa.Node.Journal

/-!
# Admission of sessions (`party.rs`, `mesh.rs`)

The acceptor admits a new session while it tracks fewer than `MAX_TRACKED_SIDS`, and
never forgets one: `retire_session` cuts the mesh's journal only.  So what is admitted
depends on the sessions of the node's whole life, not on those in progress:

    AdmitsAll payloadBytes t events ↔ (legalSids events).card ≤ maxTrackedSids     (admitsAll_iff)
-/

namespace OhmEcdsa

open Acceptor Codec

section Admission

variable {M : Type}

/-! ## Algorithm -/

/-- A party's mesh and acceptor. -/
structure PartyNode (M : Type) where
  mesh : Mesh M
  acceptor : Acceptor M

inductive NodeEvent (M : Type)
  /-- The collector hands the acceptor a verified message. -/
  | process (msg : Received M)
  /-- A driver has finished a session. -/
  | retire (sid : Bytes)

namespace PartyNode

def step (payloadBytes : M → Bytes) (node : PartyNode M) : NodeEvent M → PartyNode M
  | .process msg => { node with acceptor := node.acceptor.process payloadBytes msg }
  | .retire sid => { node with mesh := node.mesh.retireSession sid }

def run (payloadBytes : M → Bytes) (t : Usize) (events : List (NodeEvent M)) : PartyNode M :=
  events.foldl (step payloadBytes) ⟨Mesh.init, Acceptor.new t⟩

end PartyNode

/-! ## Specification -/

/-- Each message of a session id of legal length is admitted when it comes. -/
def AdmitsAll (payloadBytes : M → Bytes) (t : Usize) (events : List (NodeEvent M)) : Prop :=
  ∀ before msg, before ++ [.process msg] <+: events → msg.env.envelope.sid.length ≤ maxSid →
    ((PartyNode.run payloadBytes t before).acceptor.admitSid msg.env.envelope.sid).1 = true

/-- The sessions begun and not yet retired. -/
def inProgress (events : List (NodeEvent M)) : Finset Bytes :=
  events.foldl (fun live event => match event with
    | .process msg => insert msg.env.envelope.sid live
    | .retire p => live.filter fun sid => ¬ p <+: sid) ∅

/-- The session ids of legal length that ever came in. -/
def legalSids (events : List (NodeEvent M)) : Finset Bytes :=
  events.foldl (fun sids event => match event with
    | .process msg => if msg.env.envelope.sid.length ≤ maxSid then insert msg.env.envelope.sid sids else sids
    | .retire _ => sids) ∅

/-! ## Lemmas -/

variable {payloadBytes : M → Bytes} {t : Usize} {events : List (NodeEvent M)}

theorem insertCandidate_sids (a : Acceptor M) (key : SlotKey) (payload : Bytes) (env : SignedEnvelope M) :
    (a.insertCandidate key payload env).sids = a.sids := by
  unfold insertCandidate
  simp only
  split
  · rfl
  · split
    · split <;> rfl
    · rfl

/-- Only the admission changes the sessions tracked. -/
theorem process_sids (a : Acceptor M) (msg : Received M) :
    (a.process payloadBytes msg).sids = (a.admitSid msg.env.envelope.sid).2.sids := by
  rcases hopen : a.admitSid msg.env.envelope.sid with ⟨admitted, a1⟩
  cases msg with
  | original env =>
    have hopen : a.admitSid env.envelope.sid = (admitted, a1) := hopen
    cases admitted with
    | false => simp only [Acceptor.process, hopen]
    | true =>
      cases hto : env.envelope.addressee with
      | none =>
        simp only [Acceptor.process, hopen, hto]
        split
        · rfl
        · exact insertCandidate_sids _ _ _ _
      | some j => simp only [Acceptor.process, hopen, hto]
  | echo x env =>
    have hopen : a.admitSid env.envelope.sid = (admitted, a1) := hopen
    cases admitted with
    | false => simp only [Acceptor.process, hopen]
    | true =>
      simp only [Acceptor.process, hopen]
      split
      · rfl
      · split <;> exact insertCandidate_sids _ _ _ _

theorem run_append (before : List (NodeEvent M)) (event : NodeEvent M) :
    PartyNode.run payloadBytes t (before ++ [event]) = (PartyNode.run payloadBytes t before).step payloadBytes event := by
  simp only [PartyNode.run, List.foldl_append, List.foldl_cons, List.foldl_nil]

theorem legalSids_append (before : List (NodeEvent M)) (event : NodeEvent M) :
    legalSids (before ++ [event]) = match event with
      | .process msg => if msg.env.envelope.sid.length ≤ maxSid then insert msg.env.envelope.sid (legalSids before)
          else legalSids before
      | .retire _ => legalSids before := by
  simp only [legalSids, List.foldl_append, List.foldl_cons, List.foldl_nil]

/-- The sids after an admission. -/
theorem admitSid_sids (a : Acceptor M) (sid : Bytes) :
    (a.admitSid sid).2.sids = if (a.admitSid sid).1 then insert sid a.sids else a.sids := by
  unfold admitSid
  by_cases hmem : sid ∈ a.sids
  · rw [if_pos hmem, if_pos rfl, Finset.insert_eq_of_mem hmem]
  · rw [if_neg hmem]
    split <;> simp

theorem admitSid_legal (a : Acceptor M) (sid : Bytes) (h : (a.admitSid sid).1 = true) :
    sid ∈ a.sids ∨ sid.length ≤ maxSid ∧ (insert sid a.sids).card ≤ maxTrackedSids := by
  unfold admitSid at h
  by_cases hmem : sid ∈ a.sids
  · exact Or.inl hmem
  · rw [if_neg hmem] at h
    by_cases hcap : sid.length > maxSid ∨ a.sids.card ≥ maxTrackedSids
    · rw [if_pos hcap] at h
      cases h
    · rw [not_or] at hcap
      rw [Finset.card_insert_of_notMem hmem]
      exact Or.inr ⟨by omega, by omega⟩

variable (payloadBytes t) in
/-- The tracked sessions are legal, and at most as many as the cap. -/
theorem tracked_run (events : List (NodeEvent M)) :
    (PartyNode.run payloadBytes t events).acceptor.sids ⊆ legalSids events ∧
      (PartyNode.run payloadBytes t events).acceptor.sids.card ≤ maxTrackedSids := by
  induction events using List.reverseRecOn with
  | nil => exact ⟨Finset.empty_subset _, Nat.zero_le _⟩
  | append_singleton events event ih =>
    obtain ⟨hsub, hcard⟩ := ih
    rw [run_append, legalSids_append]
    cases event with
    | retire p => exact ⟨hsub, hcard⟩
    | process msg =>
      have hgrow : legalSids events ⊆ if msg.env.envelope.sid.length ≤ maxSid then
          insert msg.env.envelope.sid (legalSids events) else legalSids events := by
        split
        · exact Finset.subset_insert _ _
        · exact subset_rfl
      simp only [PartyNode.step, process_sids, admitSid_sids]
      by_cases hopen : ((PartyNode.run payloadBytes t events).acceptor.admitSid msg.env.envelope.sid).1 = true
      · rw [if_pos hopen]
        rcases admitSid_legal _ _ hopen with hmem | ⟨hlen, hins⟩
        · rw [Finset.insert_eq_of_mem hmem]
          exact ⟨hsub.trans hgrow, hcard⟩
        · rw [if_pos hlen]
          exact ⟨Finset.insert_subset_insert _ hsub, hins⟩
      · rw [if_neg hopen]
        exact ⟨hsub.trans hgrow, hcard⟩

/-- Where every session is admitted, all legal ones are tracked. -/
theorem tracked_of_admitsAll (h : AdmitsAll payloadBytes t events) {before : List (NodeEvent M)}
    (hbefore : before <+: events) : (PartyNode.run payloadBytes t before).acceptor.sids = legalSids before := by
  induction before using List.reverseRecOn with
  | nil => rfl
  | append_singleton before event ih =>
    have ih := ih ((List.prefix_append _ _).trans hbefore)
    rw [run_append, legalSids_append]
    cases event with
    | retire p => exact ih
    | process msg =>
      simp only [PartyNode.step, process_sids, admitSid_sids]
      by_cases hlen : msg.env.envelope.sid.length ≤ maxSid
      · rw [if_pos (h before msg hbefore hlen), if_pos hlen, ih]
      · rw [if_neg hlen, ← ih]
        split
        · rename_i hopen
          rcases admitSid_legal _ _ hopen with hmem | ⟨hlen', -⟩
          · exact Finset.insert_eq_of_mem hmem
          · exact absurd hlen' hlen
        · rfl

theorem legalSids_mono {before : List (NodeEvent M)} (h : before <+: events) : legalSids before ⊆ legalSids events := by
  obtain ⟨rest, rfl⟩ := h
  induction rest using List.reverseRecOn with
  | nil => rw [List.append_nil]
  | append_singleton rest event ih =>
    rw [← List.append_assoc, legalSids_append]
    cases event with
    | retire p => exact ih
    | process msg =>
      simp only
      split
      · exact ih.trans (Finset.subset_insert _ _)
      · exact ih

/-! ## Theorems -/

/-- **Admission over a node's life**: every message of a legal session id is admitted if
and only if no more than `MAX_TRACKED_SIDS` such ids ever come in. -/
theorem admitsAll_iff (payloadBytes : M → Bytes) (t : Usize) (events : List (NodeEvent M)) :
    AdmitsAll payloadBytes t events ↔ (legalSids events).card ≤ maxTrackedSids := by
  constructor
  · intro h
    rw [← tracked_of_admitsAll h List.prefix_rfl]
    exact (tracked_run _ _ events).2
  · intro hcard before msg hbefore hlen
    have hlegal := legalSids_mono hbefore
    rw [legalSids_append] at hlegal
    simp only [if_pos hlen] at hlegal
    have hins := Finset.insert_subset_insert msg.env.envelope.sid (tracked_run payloadBytes t before).1
    rw [admitSid_below hlen ((Finset.card_le_card (hins.trans hlegal)).trans hcard)]

/-! Sessions one after the other, each retired before the next begins. -/

/-- Session `k` is its one message. -/
def sessionMessage (k : Nat) : Received Bytes :=
  .original ⟨.broadcast (u64Bytes k) .sign 1 1 [1], List.replicate 64 0⟩

def oneByOne : Nat → List (NodeEvent Bytes)
  | 0 => []
  | k + 1 => oneByOne k ++ [.process (sessionMessage k)] ++ [.retire (u64Bytes k)]

theorem inProgress_append (before : List (NodeEvent M)) (event : NodeEvent M) :
    inProgress (before ++ [event]) = match event with
      | .process msg => insert msg.env.envelope.sid (inProgress before)
      | .retire p => (inProgress before).filter fun sid => ¬ p <+: sid := by
  simp only [inProgress, List.foldl_append, List.foldl_cons, List.foldl_nil]

theorem inProgress_oneByOne (k : Nat) : inProgress (oneByOne k) = ∅ := by
  induction k with
  | zero => rfl
  | succ k ih =>
    rw [oneByOne, inProgress_append, inProgress_append, ih]
    simp [sessionMessage, Received.env, Envelope.broadcast]

/-- At most one session is in progress. -/
theorem inProgress_card (k : Nat) (before : List (NodeEvent Bytes)) (h : before <+: oneByOne k) :
    (inProgress before).card ≤ 1 := by
  induction k with
  | zero =>
    rw [List.prefix_nil.mp h]
    exact Nat.zero_le _
  | succ k ih =>
    have hdone := inProgress_oneByOne (k + 1)
    rcases List.prefix_concat_iff.mp h with rfl | h
    · rw [show oneByOne k ++ [.process (sessionMessage k)] ++ [.retire (u64Bytes k)] = oneByOne (k + 1) from rfl, hdone]
      exact Nat.zero_le _
    · rcases List.prefix_concat_iff.mp h with rfl | h
      · rw [inProgress_append, inProgress_oneByOne]
        simp
      · exact ih h

theorem legalSids_oneByOne (k : Nat) : legalSids (oneByOne k) = (Finset.range k).image u64Bytes := by
  induction k with
  | zero => rfl
  | succ k ih =>
    have hlen : (u64Bytes k).length ≤ maxSid := by
      rw [show (u64Bytes k).length = 8 from bigEndian_length 8 k]
      decide
    rw [oneByOne, legalSids_append, legalSids_append, ih, Finset.range_add_one, Finset.image_insert]
    exact if_pos hlen

/-- The 4097th of these sessions is dropped. -/
theorem retired_sessions_exhaust :
    (∀ before, before <+: oneByOne (maxTrackedSids + 1) → (inProgress before).card < maxTrackedSids) ∧
      ¬ AdmitsAll id 2 (oneByOne (maxTrackedSids + 1)) := by
  refine ⟨fun before h => (inProgress_card _ before h).trans_lt (by decide), fun hall => ?_⟩
  rw [admitsAll_iff, legalSids_oneByOne, Finset.card_image_of_injOn, Finset.card_range] at hall
  · omega
  · intro v hv w hw heq
    have hlt : ∀ v ∈ Finset.range (maxTrackedSids + 1), ofBigEndian (u64Bytes v) = v := by
      intro v hv
      have hv : v < 256 ^ 8 := (Finset.mem_range.mp hv).trans (by decide)
      exact (ofBigEndian_bigEndian 8 v).trans (Nat.mod_eq_of_lt hv)
    rw [← hlt v hv, heq, hlt w hw]

end Admission

end OhmEcdsa
