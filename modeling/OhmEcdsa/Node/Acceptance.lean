import OhmEcdsa.Core.Secp256k1
import OhmEcdsa.Node.Acceptor
import OhmEcdsa.Node.Codec

/-!
# What the acceptor hands out (`party.rs`)

Below the caps on sessions, an acceptor's answers are a function of the set of the
messages it was fed, whatever their order and number:

    (bcastSet sid phase round ids)[i]? = some env  ↔  i ∈ ids, env was delivered in the slot,
      t - 1 parties other than i echoed it, and i did not equivocate in sid     (bcastSet_iff_delivered)
-/

set_option linter.unusedSectionVars false

namespace OhmEcdsa

open Acceptor Codec

section Acceptance

variable {M : Type}

/-- An acceptor that was fed `msgs`. -/
def Acceptor.run (payloadBytes : M → Bytes) (t : Usize) (msgs : List (Received M)) : Acceptor M :=
  msgs.foldl (process payloadBytes) (Acceptor.new t)

/-! ## Specification -/

def DeliveredIn (msgs : List (Received M)) (key : SlotKey) (env : SignedEnvelope M) : Prop :=
  slotOf env.envelope = key ∧ ∃ m ∈ msgs, m.env = env

/-- At least `t - 1` parties other than the sender echoed it. -/
def EchoQuorum (t : Usize) (msgs : List (Received M)) (env : SignedEnvelope M) : Prop :=
  ∃ quorum : Finset PartyId, t.val - 1 ≤ quorum.card ∧
    ∀ x ∈ quorum, x ≠ env.envelope.sender ∧ Received.echo x env ∈ msgs

/-- Two envelopes of the party were delivered in one slot of the session. -/
def Equivocated (msgs : List (Received M)) (sid : Bytes) (party : PartyId) : Prop :=
  ∃ key env env', key.sid = sid ∧ key.party = party ∧ env ≠ env' ∧ DeliveredIn msgs key env ∧ DeliveredIn msgs key env'

/-- The sessions of the messages. -/
def sidsOf (msgs : List (Received M)) : Finset Bytes := (msgs.map fun m => m.env.envelope.sid).toFinset

/-- Broadcasts and echoes of them, in at most as many sessions as the acceptor tracks. -/
structure Trackable (msgs : List (Received M)) : Prop where
  broadcast : ∀ m ∈ msgs, m.env.envelope.addressee = none
  sid_length : ∀ m ∈ msgs, m.env.envelope.sid.length ≤ maxSid
  sids : (sidsOf msgs).card ≤ maxTrackedSids

/-! ## Lemmas: one message -/

variable {payloadBytes : M → Bytes} {processed : List (Received M)} {a : Acceptor M}

/-- Candidates stay, and keep their echoes. -/
def Acceptor.Keeps (a a' : Acceptor M) : Prop :=
  ∀ (key : SlotKey) (payload : Bytes) (c : Candidate M), (a.bcast key)[payload]? = some c →
    ∃ c', (a'.bcast key)[payload]? = some c' ∧ c.echoers ⊆ c'.echoers

theorem Acceptor.Keeps.trans {a b c : Acceptor M} (h : a.Keeps b) (h' : b.Keeps c) : a.Keeps c := by
  intro key payload c1 hc1
  obtain ⟨c2, hc2, hsub⟩ := h key payload c1 hc1
  obtain ⟨c3, hc3, hsub'⟩ := h' key payload c2 hc2
  exact ⟨c3, hc3, hsub.trans hsub'⟩

theorem keeps_insertCandidate {key : SlotKey} (h : (a.bcast key).size ≤ 1) (payload : Bytes) (env : SignedEnvelope M) :
    a.Keeps (a.insertCandidate key payload env) ∧
      ∃ c, ((a.insertCandidate key payload env).bcast key)[payload]? = some c := by
  obtain ⟨equivocations, heq, -⟩ := insertCandidate_cases h payload env
  rw [heq]
  refine ⟨fun key' payload' c hc => ?_, ?_⟩
  · by_cases hkey : key' = key
    · subst hkey
      have hmem : payload' ∈ a.bcast key' := Std.ExtTreeMap.mem_iff_isSome_getElem?.mpr (by rw [hc]; rfl)
      simp only [Function.update_self, Std.ExtTreeMap.getElem?_insertIfNew]
      rw [if_neg]
      · exact ⟨c, hc, subset_rfl⟩
      · rintro ⟨hcmp, hnot⟩
        rw [Std.LawfulEqCmp.eq_of_compare hcmp] at hnot
        exact hnot hmem
    · simp only [Function.update_of_ne hkey]
      exact ⟨c, hc, subset_rfl⟩
  · simp only [Function.update_self]
    have hmem : payload ∈ (a.bcast key).insertIfNew payload ⟨env, ∅⟩ := by
      rw [Std.ExtTreeMap.mem_insertIfNew]
      exact Or.inl (by simp)
    exact Option.isSome_iff_exists.mp (Std.ExtTreeMap.mem_iff_isSome_getElem?.mp hmem)

theorem keeps_addEchoer (key : SlotKey) (payload : Bytes) (echoer : PartyId) :
    a.Keeps (a.addEchoer key payload echoer) ∧ ∀ c, (a.bcast key)[payload]? = some c →
      ∃ c', ((a.addEchoer key payload echoer).bcast key)[payload]? = some c' ∧ echoer ∈ c'.echoers := by
  refine ⟨fun key' payload' c hc => ?_, fun c hc => ?_⟩
  · by_cases hkey : key' = key
    · subst hkey
      simp only [addEchoer, Function.update_self, Std.ExtTreeMap.getElem?_modify]
      split
      · rename_i hcmp
        obtain rfl : payload = payload' := Std.LawfulEqCmp.eq_of_compare hcmp
        rw [hc]
        exact ⟨_, rfl, Finset.subset_insert _ _⟩
      · exact ⟨c, hc, subset_rfl⟩
    · simp only [addEchoer, Function.update_of_ne hkey]
      exact ⟨c, hc, subset_rfl⟩
  · simp only [addEchoer, Function.update_self, Std.ExtTreeMap.getElem?_modify, Std.ReflCmp.compare_self, if_pos, hc]
    exact ⟨_, rfl, Finset.mem_insert_self _ _⟩

/-- A broadcast of an admitted session. -/
theorem process_broadcast {msg : Received M} {a1 : Acceptor M} (hto : msg.env.envelope.addressee = none)
    (hopen : a.admitSid msg.env.envelope.sid = (true, a1)) :
    a.process payloadBytes msg = if a1.poisoned msg.env.envelope.sid msg.env.envelope.sender then a1
      else match msg with
        | .original env => a1.insertCandidate (slotOf env.envelope) (env.encode payloadBytes) env
        | .echo echoer env =>
          if echoer = env.envelope.sender then a1.insertCandidate (slotOf env.envelope) (env.encode payloadBytes) env
          else (a1.insertCandidate (slotOf env.envelope) (env.encode payloadBytes) env).addEchoer
            (slotOf env.envelope) (env.encode payloadBytes) echoer := by
  cases msg with
  | original env =>
    have hto : env.envelope.addressee = none := hto
    have hopen : a.admitSid env.envelope.sid = (true, a1) := hopen
    simp only [Acceptor.process, hopen, hto, slotAndPayload, slotOf]
    rfl
  | echo echoer env =>
    have hopen : a.admitSid env.envelope.sid = (true, a1) := hopen
    simp only [Acceptor.process, hopen, slotAndPayload, slotOf]
    rfl

/-- Where the sessions are below the caps, every message counts and only two
deliveries in one slot poison. -/
structure Exact (payloadBytes : M → Bytes) (processed : List (Received M)) (a : Acceptor M) : Prop
    extends Faithful payloadBytes processed a where
  sids : a.sids = sidsOf processed
  counted : ∀ m ∈ processed, a.poisoned m.env.envelope.sid m.env.envelope.sender = false →
    ∃ c, (a.bcast (slotOf m.env.envelope))[m.env.encode payloadBytes]? = some c ∧
      ∀ x, m = .echo x m.env → x ≠ m.env.envelope.sender → x ∈ c.echoers
  equivocated : ∀ sid party, a.poisoned sid party = true → Equivocated processed sid party

theorem Equivocated.mono {processed' : List (Received M)} (hsub : processed ⊆ processed') {sid : Bytes}
    {party : PartyId} (h : Equivocated processed sid party) : Equivocated processed' sid party := by
  obtain ⟨key, env, env', hsid, hparty, hne, ⟨hslot, m, hm, henv⟩, hslot', m', hm', henv'⟩ := h
  exact ⟨key, env, env', hsid, hparty, hne, ⟨hslot, m, hsub hm, henv⟩, hslot', m', hsub hm', henv'⟩

theorem sidsOf_append (msg : Received M) :
    sidsOf (processed ++ [msg]) = insert msg.env.envelope.sid (sidsOf processed) := by
  ext sid
  simp [sidsOf]

/-- A session below the caps is admitted. -/
theorem admitSid_below {sid : Bytes} (hlen : sid.length ≤ maxSid) (hcard : (insert sid a.sids).card ≤ maxTrackedSids) :
    a.admitSid sid = (true, { a with sids := insert sid a.sids }) := by
  unfold admitSid
  by_cases hmem : sid ∈ a.sids
  · rw [if_pos hmem, Finset.insert_eq_of_mem hmem]
  · rw [Finset.card_insert_of_notMem hmem] at hcard
    rw [if_neg hmem, if_neg (by omega)]

/-- A candidate that poisons its sender met another one in the slot. -/
theorem clash_of_two (h : Tidy payloadBytes processed a) {env : SignedEnvelope M}
    (hsize : (a.bcast (slotOf env.envelope)).size ≤ 1)
    (htwo : ((a.bcast (slotOf env.envelope)).insertIfNew (env.encode payloadBytes) ⟨env, ∅⟩).size = 2) :
    ∃ m ∈ processed, slotOf m.env.envelope = slotOf env.envelope ∧ m.env.envelope.addressee = none ∧ m.env ≠ env := by
  rw [Std.ExtTreeMap.size_insertIfNew] at htwo
  by_cases hin : env.encode payloadBytes ∈ a.bcast (slotOf env.envelope)
  · rw [if_pos hin] at htwo
    omega
  · rw [if_neg hin] at htwo
    have hone : (a.bcast (slotOf env.envelope)).toList.length = 1 := by
      rw [Std.ExtTreeMap.length_toList]
      omega
    obtain ⟨⟨payload, c⟩, hlist⟩ := List.length_eq_one_iff.mp hone
    have hc : (a.bcast (slotOf env.envelope))[payload]? = some c := by
      rw [← Std.ExtTreeMap.mem_toList_iff_getElem?_eq_some, hlist]
      exact List.mem_singleton.mpr rfl
    obtain ⟨-, hholds⟩ := h.holds _ payload c hc
    obtain ⟨m, hm, henv⟩ := hholds.source
    refine ⟨m, hm, by rw [henv, hholds.slot], by rw [henv, hholds.addressee], fun heq => hin ?_⟩
    have hpayload : env.encode payloadBytes = payload := by rw [← heq, henv, hholds.encode]
    rw [hpayload]
    exact Std.ExtTreeMap.mem_iff_isSome_getElem?.mpr (by rw [hc]; rfl)

theorem equivocated_of_two (h : Tidy payloadBytes processed a) {msg : Received M} (hmsg : msg ∈ processed)
    (hsize : (a.bcast (slotOf msg.env.envelope)).size ≤ 1)
    (htwo : ((a.bcast (slotOf msg.env.envelope)).insertIfNew (msg.env.encode payloadBytes) ⟨msg.env, ∅⟩).size = 2) :
    Equivocated processed msg.env.envelope.sid msg.env.envelope.sender := by
  obtain ⟨m, hm, hslot, -, hne⟩ := clash_of_two h hsize htwo
  exact ⟨slotOf msg.env.envelope, msg.env, m.env, rfl, rfl, hne.symm, ⟨rfl, msg, hmsg, rfl⟩, hslot, m, hm, rfl⟩

variable (payloadBytes) in
/-- What a message of an unpoisoned sender does: it is counted, and poisons only with
a second candidate. -/
theorem process_counts {msg : Received M} {a1 : Acceptor M} (hto : msg.env.envelope.addressee = none)
    (hopen : a.admitSid msg.env.envelope.sid = (true, a1))
    (hfree : a1.poisoned msg.env.envelope.sid msg.env.envelope.sender = false)
    (hsize : (a1.bcast (slotOf msg.env.envelope)).size ≤ 1) :
    (a.process payloadBytes msg).sids = a1.sids ∧ a1.Keeps (a.process payloadBytes msg) ∧
      (∃ c, ((a.process payloadBytes msg).bcast (slotOf msg.env.envelope))[msg.env.encode payloadBytes]? = some c ∧
        ∀ x, msg = .echo x msg.env → x ≠ msg.env.envelope.sender → x ∈ c.echoers) ∧
      ∀ sid party, (a.process payloadBytes msg).poisoned sid party = true → a1.poisoned sid party = true ∨
        (sid, party) = (msg.env.envelope.sid, msg.env.envelope.sender) ∧
          ((a1.bcast (slotOf msg.env.envelope)).insertIfNew (msg.env.encode payloadBytes) ⟨msg.env, ∅⟩).size = 2 := by
  rw [process_broadcast hto hopen, hfree, if_neg Bool.false_ne_true]
  obtain ⟨hkeeps, c, hc⟩ := keeps_insertCandidate hsize (msg.env.encode payloadBytes) msg.env
  obtain ⟨equivocations, heq, -, -, hpoison⟩ := insertCandidate_cases hsize (msg.env.encode payloadBytes) msg.env
  have hsids : (a1.insertCandidate (slotOf msg.env.envelope) (msg.env.encode payloadBytes) msg.env).sids = a1.sids := by
    rw [heq]
  have hpoisoned : ∀ sid party,
      (a1.insertCandidate (slotOf msg.env.envelope) (msg.env.encode payloadBytes) msg.env).poisoned sid party = true →
        a1.poisoned sid party = true ∨ (sid, party) = (msg.env.envelope.sid, msg.env.envelope.sender) ∧
          ((a1.bcast (slotOf msg.env.envelope)).insertIfNew (msg.env.encode payloadBytes) ⟨msg.env, ∅⟩).size = 2 := by
    intro sid party hp
    rw [heq] at hp
    exact hpoison (sid, party) hp
  cases msg with
  | original env => exact ⟨hsids, hkeeps, ⟨c, hc, fun x hx => by cases hx⟩, hpoisoned⟩
  | echo echoer env =>
    by_cases hself : echoer = env.envelope.sender
    · simp only [if_pos hself]
      refine ⟨hsids, hkeeps, ⟨c, hc, ?_⟩, hpoisoned⟩
      rintro x ⟨⟩ hne
      exact absurd hself hne
    · simp only [if_neg hself]
      obtain ⟨hkeeps', hadd⟩ := keeps_addEchoer (a := a1.insertCandidate (slotOf env.envelope)
        (env.encode payloadBytes) env) (slotOf env.envelope) (env.encode payloadBytes) echoer
      obtain ⟨c', hc', hmem⟩ := hadd c hc
      refine ⟨hsids, hkeeps.trans hkeeps', ⟨c', hc', ?_⟩, hpoisoned⟩
      rintro x ⟨⟩ -
      exact hmem

/-- **One message** below the caps. -/
theorem Exact.process (h : Exact payloadBytes processed a) {msg : Received M}
    (hto : msg.env.envelope.addressee = none) (hlen : msg.env.envelope.sid.length ≤ maxSid)
    (hcard : (sidsOf (processed ++ [msg])).card ≤ maxTrackedSids) :
    Exact payloadBytes (processed ++ [msg]) (a.process payloadBytes msg) := by
  have hsub : processed ⊆ processed ++ [msg] := List.subset_append_left _ _
  have hmsg : msg ∈ processed ++ [msg] := List.mem_append_right _ (List.mem_singleton.mpr rfl)
  obtain ⟨hfaithful, hgrow⟩ := h.toFaithful.process msg (by rintro x e rfl; exact hto)
  rw [sidsOf_append, ← h.sids] at hcard
  have hopen := admitSid_below hlen hcard
  cases hp : a.poisoned msg.env.envelope.sid msg.env.envelope.sender with
  | true =>
    have hrun : a.process payloadBytes msg = { a with sids := insert msg.env.envelope.sid a.sids } := by
      rw [process_broadcast hto hopen]
      exact if_pos hp
    rw [hrun] at hfaithful ⊢
    refine ⟨hfaithful, by rw [sidsOf_append, ← h.sids], fun m hm hfree => ?_, fun sid party hsp =>
      (h.equivocated sid party hsp).mono hsub⟩
    rcases List.mem_append.mp hm with hm | hm
    · exact h.counted m hm hfree
    · rw [List.mem_singleton.mp hm] at hfree
      rw [show a.poisoned msg.env.envelope.sid msg.env.envelope.sender = false from hfree] at hp
      cases hp
  | false =>
    have hsize := h.single (slotOf msg.env.envelope) hp
    obtain ⟨hsids, hkeeps, hnew, hpoison⟩ := process_counts payloadBytes hto hopen hp hsize
    refine ⟨hfaithful, by rw [hsids, sidsOf_append, ← h.sids], fun m hm hfree => ?_, fun sid party hsp => ?_⟩
    · rcases List.mem_append.mp hm with hm | hm
      · have hfree0 : a.poisoned m.env.envelope.sid m.env.envelope.sender = false := by
          by_contra hp
          rw [hgrow.poisoned _ _ ((Bool.not_eq_false _).mp hp)] at hfree
          cases hfree
        obtain ⟨c, hc, hechoers⟩ := h.counted m hm hfree0
        obtain ⟨c', hc', hsub⟩ := hkeeps _ _ c hc
        exact ⟨c', hc', fun x hx hne => hsub (hechoers x hx hne)⟩
      · rw [List.mem_singleton.mp hm]
        exact hnew
    · rcases hpoison sid party hsp with hold | ⟨hpair, htwo⟩
      · exact (h.equivocated sid party hold).mono hsub
      · cases hpair
        exact equivocated_of_two (h.toTidy.mono hsub) hmsg hsize htwo

variable (payloadBytes) in
/-- **A run** below the caps. -/
theorem exact_run (t : Usize) {msgs : List (Received M)} (h : Trackable msgs) :
    Exact payloadBytes msgs (Acceptor.run payloadBytes t msgs) ∧
      (Acceptor.run payloadBytes t msgs).echoQuorum = t.val - 1 := by
  induction msgs using List.reverseRecOn with
  | nil => exact ⟨⟨faithful_new t, rfl, fun m hm => (List.not_mem_nil hm).elim, fun _ _ hp => by cases hp⟩, rfl⟩
  | append_singleton msgs msg ih =>
    have hmsg : msg ∈ msgs ++ [msg] := List.mem_append_right _ (List.mem_singleton.mpr rfl)
    have hsids : sidsOf msgs ⊆ sidsOf (msgs ++ [msg]) := by
      rw [sidsOf_append]
      exact Finset.subset_insert _ _
    obtain ⟨hexact, hquorum⟩ := ih ⟨fun m hm => h.broadcast m (List.mem_append_left _ hm),
      fun m hm => h.sid_length m (List.mem_append_left _ hm), (Finset.card_le_card hsids).trans h.sids⟩
    have hrun : Acceptor.run payloadBytes t (msgs ++ [msg]) =
        (Acceptor.run payloadBytes t msgs).process payloadBytes msg := by
      simp only [Acceptor.run, List.foldl_append, List.foldl_cons, List.foldl_nil]
    rw [hrun]
    refine ⟨hexact.process (h.broadcast msg hmsg) (h.sid_length msg hmsg) h.sids, ?_⟩
    obtain ⟨-, hgrow⟩ := hexact.toFaithful.process msg (by rintro x e rfl; exact h.broadcast _ hmsg)
    exact hgrow.echoQuorum.trans hquorum

/-! ## Lemmas: a query -/

variable {msgs msgs' : List (Received M)}

/-- DeliveredIn envelopes with one encoding are one. -/
def Unambiguous (payloadBytes : M → Bytes) (msgs : List (Received M)) : Prop :=
  ∀ m ∈ msgs, ∀ m' ∈ msgs, m.env.encode payloadBytes = m'.env.encode payloadBytes → m.env = m'.env

theorem Exact.poisoned_iff (h : Exact payloadBytes msgs a) (hinj : Unambiguous payloadBytes msgs) (sid : Bytes)
    (party : PartyId) : a.poisoned sid party = true ↔ Equivocated msgs sid party := by
  constructor
  · exact h.equivocated sid party
  · rintro ⟨key, env, env', rfl, rfl, hne, ⟨hslot, m, hm, rfl⟩, hslot', m', hm', rfl⟩
    by_contra hfree
    have hfree : a.poisoned key.sid key.party = false := (Bool.not_eq_true _).mp hfree
    -- both would be candidates of the slot
    have hin : ∀ m ∈ msgs, slotOf m.env.envelope = key → m.env.encode payloadBytes ∈ a.bcast key := by
      rintro m hm rfl
      obtain ⟨c, hc, -⟩ := h.counted m hm hfree
      exact Std.ExtTreeMap.mem_iff_isSome_getElem?.mpr (by rw [hc]; rfl)
    exact hne (hinj m hm m' hm' (mem_unique (h.single key hfree) (hin m hm hslot) (hin m' hm' hslot')))

theorem Exact.accepted_iff (h : Exact payloadBytes msgs a) (hinj : Unambiguous payloadBytes msgs) {t : Usize}
    (hquorum : a.echoQuorum = t.val - 1) (key : SlotKey) (env : SignedEnvelope M) :
    a.accepted key = some env ↔
      DeliveredIn msgs key env ∧ EchoQuorum t msgs env ∧ ¬ Equivocated msgs key.sid key.party := by
  rw [← h.poisoned_iff hinj]
  constructor
  · intro haccepted
    obtain ⟨hfree, ⟨payload, c⟩, hc, hcard, rfl⟩ := accepted_some haccepted
    obtain ⟨-, hholds⟩ := h.holds key payload c (Std.ExtTreeMap.mem_toList_iff_getElem?_eq_some.mp hc)
    have hparty : c.env.envelope.sender = key.party := congrArg SlotKey.party hholds.slot
    refine ⟨⟨hholds.slot, hholds.source⟩, ⟨c.echoers, hquorum ▸ hcard, fun x hx => ?_⟩, by rw [hfree]; decide⟩
    obtain ⟨hne, e, he, hencode, -⟩ := hholds.echoers x hx
    obtain ⟨m, hm, henv⟩ := hholds.source
    refine ⟨by rw [hparty]; exact hne, ?_⟩
    have hsame : e = c.env := by
      rw [← henv]
      exact hinj (.echo x e) he m hm (by rw [henv, hholds.encode]; exact hencode)
    rw [← hsame]
    exact he
  · rintro ⟨⟨hslot, m, hm, rfl⟩, ⟨quorum, hcard, hechoed⟩, hfree⟩
    have hfree : a.poisoned key.sid key.party = false := (Bool.not_eq_true _).mp hfree
    have hsize := h.single key hfree
    subst hslot
    obtain ⟨c, hc, -⟩ := h.counted m hm hfree
    have hcmem : (m.env.encode payloadBytes, c) ∈ (a.bcast (slotOf m.env.envelope)).toList :=
      Std.ExtTreeMap.mem_toList_iff_getElem?_eq_some.mpr hc
    -- the only candidate of the slot holds the quorum's echoes
    have hsub : quorum ⊆ c.echoers := by
      intro x hx
      obtain ⟨hne, hmem⟩ := hechoed x hx
      obtain ⟨c', hc', hechoers⟩ := h.counted (.echo x m.env) hmem hfree
      obtain rfl : c = c' := Option.some.inj (hc.symm.trans hc')
      exact hechoers x rfl hne
    have hc2 : a.echoQuorum ≤ c.echoers.card := hquorum ▸ hcard.trans (Finset.card_le_card hsub)
    have hcenv : c.env = m.env := by
      obtain ⟨-, hholds⟩ := h.holds _ _ c hc
      obtain ⟨m', hm', henv'⟩ := hholds.source
      rw [← henv']
      exact hinj m' hm' m hm (by rw [henv', hholds.encode])
    unfold accepted
    rw [show a.poisoned (slotOf m.env.envelope).sid (slotOf m.env.envelope).party = false from hfree,
      if_neg Bool.false_ne_true, toList_eq_singleton hsize hcmem, List.find?_cons_of_pos (by simpa using hc2),
      Option.map_some, hcenv]

theorem Equivocated.congr (h : ∀ m, m ∈ msgs' ↔ m ∈ msgs) (sid : Bytes) (party : PartyId) :
    Equivocated msgs' sid party ↔ Equivocated msgs sid party :=
  ⟨Equivocated.mono fun m hm => (h m).mp hm, Equivocated.mono fun m hm => (h m).mpr hm⟩

theorem sidsOf_congr (h : ∀ m, m ∈ msgs' ↔ m ∈ msgs) : sidsOf msgs' = sidsOf msgs := by
  ext sid
  simp [sidsOf, h]

theorem Trackable.congr (h : ∀ m, m ∈ msgs' ↔ m ∈ msgs) (ht : Trackable msgs) : Trackable msgs' :=
  ⟨fun m hm => ht.broadcast m ((h m).mp hm), fun m hm => ht.sid_length m ((h m).mp hm), sidsOf_congr h ▸ ht.sids⟩

theorem bcastSet_iff (hinj : Unambiguous payloadBytes msgs) (ht : Trackable msgs) (t : Usize) (sid : Bytes)
    (phase : Phase) (round : Nat) (ids : List PartyId) (i : PartyId) (env : SignedEnvelope M) :
    ((Acceptor.run payloadBytes t msgs).bcastSet sid phase round ids)[i]? = some env ↔
      i ∈ ids ∧ DeliveredIn msgs ⟨sid, phase, round, i⟩ env ∧ EchoQuorum t msgs env ∧ ¬ Equivocated msgs sid i := by
  obtain ⟨hexact, hquorum⟩ := exact_run payloadBytes t ht
  rw [bcastSet_getElem?]
  by_cases hi : i ∈ ids
  · rw [if_pos hi, hexact.accepted_iff hinj hquorum]
    exact (and_iff_right hi).symm
  · rw [if_neg hi]
    exact iff_of_false nofun fun h => hi h.1

end Acceptance

/-! ## Theorems -/

section NodePayloads

variable {F G : Type} [Field F] [DecidableEq F] [AddCommGroup G] [Module F G] [DecidableEq G] [K256 F G] [WireFormat F G]

/-- Signed envelopes are told apart by their encodings. -/
theorem unambiguous_of_fits {msgs : List (Received (NodePayload F G))}
    (h : ∀ m ∈ msgs, m.env.Fits F G NodePayload.encode NodePayload.Fits) :
    Unambiguous NodePayload.encode msgs := by
  intro m hm m' hm' hencode
  have hlawful : Lawful (SignedEnvelope.encode NodePayload.encode)
      (SignedEnvelope.decode F G (NodePayload.decode F G))
      (SignedEnvelope.Fits F G NodePayload.encode NodePayload.Fits) :=
    fun n => SignedEnvelope.decode_reads fun k _ => NodePayload.decode_lawful k
  exact hlawful.injective (h m hm) (h m' hm') hencode

/-- **What the acceptor hands out** after any verified broadcasts and echoes, in any
order and any number of copies; other deliveries of the same messages give the same
answers and the same poisoned senders. -/
theorem bcastSet_iff_delivered (t : Usize) {msgs : List (Received (NodePayload F G))}
    (hverified : ∀ m ∈ msgs, m.env.Fits F G NodePayload.encode NodePayload.Fits) (htrack : Trackable msgs) :
    (∀ sid phase round ids i env,
      ((Acceptor.run NodePayload.encode t msgs).bcastSet sid phase round ids)[i]? = some env ↔
        i ∈ ids ∧ DeliveredIn msgs ⟨sid, phase, round, i⟩ env ∧ EchoQuorum t msgs env ∧ ¬ Equivocated msgs sid i) ∧
    (∀ sid i, (Acceptor.run NodePayload.encode t msgs).poisoned sid i = true ↔ Equivocated msgs sid i) ∧
    ∀ msgs' : List (Received (NodePayload F G)), (∀ m, m ∈ msgs' ↔ m ∈ msgs) →
      (∀ sid phase round ids, (Acceptor.run NodePayload.encode t msgs').bcastSet sid phase round ids =
        (Acceptor.run NodePayload.encode t msgs).bcastSet sid phase round ids) ∧
      ∀ sid i, (Acceptor.run NodePayload.encode t msgs').poisoned sid i =
        (Acceptor.run NodePayload.encode t msgs).poisoned sid i := by
  have hinj := unambiguous_of_fits hverified
  refine ⟨fun sid phase round ids i env => bcastSet_iff hinj htrack t sid phase round ids i env, fun sid i =>
    (exact_run _ t htrack).1.poisoned_iff hinj sid i, fun msgs' hsame => ?_⟩
  have htrack' := htrack.congr hsame
  have hinj' : Unambiguous NodePayload.encode msgs' :=
    unambiguous_of_fits fun m hm => hverified m ((hsame m).mp hm)
  refine ⟨fun sid phase round ids => ?_, fun sid i => ?_⟩
  · apply Std.ExtTreeMap.ext_getElem?
    intro i
    apply Option.ext
    intro env
    rw [bcastSet_iff hinj htrack, bcastSet_iff hinj' htrack', Equivocated.congr hsame]
    simp only [DeliveredIn, EchoQuorum, hsame]
  · rw [Bool.eq_iff_iff, (exact_run _ t htrack).1.poisoned_iff hinj, (exact_run _ t htrack').1.poisoned_iff hinj',
      Equivocated.congr hsame]

end NodePayloads

/-! Party 1's empty complaint list, received once and echoed by party 2. -/

section Example

open Secp256k1

def emptyComplaints : SignedEnvelope (NodePayload Scalar Point) :=
  ⟨.broadcast (utf8 "dkg") .keyGen 3 1 (.complaints []), bytes32 (1 : Scalar).val ++ bytes32 (1 : Scalar).val⟩

def complaintsReceived : List (Received (NodePayload Scalar Point)) :=
  [.original emptyComplaints, .echo 2 emptyComplaints]

theorem emptyComplaints_fits : emptyComplaints.Fits Scalar Point NodePayload.encode NodePayload.Fits := by
  refine ⟨⟨by decide +kernel, by decide, ?_, by decide +kernel⟩, rfl,
    signatureOk_append (F := Scalar) (G := Point) one_ne_zero one_ne_zero⟩
  simp [emptyComplaints, Envelope.broadcast, NodePayload.Fits]

theorem bcastSet_iff_delivered_complaints :
    ((Acceptor.run NodePayload.encode 2 complaintsReceived).bcastSet (utf8 "dkg") .keyGen 3 trio.ids)[(1 : PartyId)]? =
      some emptyComplaints := by
  have hall : ∀ m ∈ complaintsReceived, m.env = emptyComplaints := by
    intro m hm
    rcases List.mem_cons.mp hm with rfl | hm
    · rfl
    · rw [List.mem_singleton.mp hm]
      rfl
  have htrack : Trackable complaintsReceived := by
    refine ⟨fun m hm => by rw [hall m hm]; rfl, fun m hm => by rw [hall m hm]; decide +kernel, by decide +kernel⟩
  have hfits : ∀ m ∈ complaintsReceived, m.env.Fits Scalar Point NodePayload.encode NodePayload.Fits := by
    intro m hm
    rw [hall m hm]
    exact emptyComplaints_fits
  obtain ⟨hquery, -⟩ := bcastSet_iff_delivered 2 hfits htrack
  refine (hquery _ _ _ _ _ _).mpr ⟨by decide, ⟨rfl, _, List.mem_cons_self, rfl⟩, ⟨{2}, by decide, ?_⟩, ?_⟩
  · intro x hx
    rw [Finset.mem_singleton.mp hx]
    exact ⟨by decide, List.mem_cons_of_mem _ List.mem_cons_self⟩
  · rintro ⟨key, env, env', -, -, hne, ⟨-, m, hm, rfl⟩, -, m', hm', rfl⟩
    exact hne ((hall m hm).trans (hall m' hm').symm)

end Example

end OhmEcdsa
