import OhmEcdsa.Node.Mesh

/-!
# What the journal holds and re-sends (`mesh.rs`)

All peers share one journal, so a re-sync carries the P2P messages of others, and
`retire_session` cuts it by a prefix of the session ids.  Both promises hold in the runs
where neither shows:

    Run (step cfg) Undisclosed init acts s → Private s                      (private_of_undisclosed)
    Run (step cfg) (InFlight ss cfg) init acts s →
      JournalExact ss s ∧ each re-send is of the messages then in flight    (journal_exact_of_inFlight)
-/

set_option linter.unusedSectionVars false

namespace OhmEcdsa

open Transition Acceptor

variable {M : Type}

/-! ## Specification -/

/-- The one party a message is for. -/
def WireMessage.addressee : WireMessage M → Option PartyId
  | .original env => env.envelope.addressee
  | .echo _ _ _ => none

/-- No peer's connection carried another party's P2P message. -/
def Private (s : Mesh M) : Prop := ∀ f ∈ s.written, ∀ p, f.msg.addressee = some p → p = f.peer

/-- A thread about to copy the journal for a peer. -/
def Thread.Undisclosed (s : Mesh M) : Thread M → Prop
  | .resendJournal peer _ => ∀ msg ∈ s.journaled, ∀ p, msg.addressee = some p → p = peer
  | _ => True

/-- A re-send to a peer begins when no P2P message to another party is journaled. -/
def Undisclosed (s : Mesh M) : MeshAction M → Prop
  | .advance i _ => (s.threads[i]?.getD .done).Undisclosed s
  | _ => True

instance (s : Mesh M) : ∀ th : Thread M, Decidable (th.Undisclosed s)
  | .resendJournal peer _ => decidable_of_iff (∀ msg ∈ s.journaled, msg.addressee.all (· = peer) = true) (by
      simp only [Thread.Undisclosed, Option.all_eq_true, decide_eq_true_eq])
  | .kick _ _ _ | .connect _ | .send _ _ | .write _ _ _ _ | .dial _ _ | .resend _ _ | .rewrite _ _ _ _
  | .finish _ | .done => isTrue trivial

instance (s : Mesh M) : ∀ a, Decidable (Undisclosed s a)
  | .advance i _ => inferInstanceAs (Decidable ((s.threads[i]?.getD .done).Undisclosed s))
  | .connect _ | .send _ | .receive _ | .retire _ | .dropOutgoing _ | .shutdown => isTrue trivial

/-- The suffixes of the drivers' sub-sessions. -/
def subSessions : List Bytes := ["/alpha", "/beta", "/t1", "/t2", "/u", "/a", "/triple"].map utf8

/-- The ids that a session's drivers give its sub-sessions and restarts. -/
inductive Derived (sid : Bytes) : Bytes → Prop
  | self : Derived sid sid
  | sub {d suffix : Bytes} (h : Derived sid d) (hsuffix : suffix ∈ subSessions) : Derived sid (d ++ suffix)
  | retry {d : Bytes} (h : Derived sid d) (attempt : U64) : Derived sid (d ++ utf8 "/retry-" ++ u64Bytes attempt.val)

/-- Which sessions are a session's own.  They have derived ids, but not each session with a
derived id was opened by the session it could be derived from. -/
structure Sessions where
  own : Bytes → Bytes → Prop
  self : ∀ sid, own sid sid
  derived : ∀ {sid d : Bytes}, own sid d → Derived sid d

/-- The session, or the one whose own it is, has finished. -/
def Mesh.Finished (ss : Sessions) (s : Mesh M) (sid : Bytes) : Prop := ∃ p ∈ s.retired, ss.own p sid

/-- The journal holds the messages of the sessions in flight, and nothing else. -/
structure JournalExact (ss : Sessions) (s : Mesh M) : Prop where
  finished : ∀ sid, s.Finished ss sid → s.entry sid = []
  inFlight : ∀ sid, ¬ s.Finished ss sid → s.entry sid = s.pushed.filter (·.sid = sid)
  resent : ∀ msg, msg ∈ s.journaled ↔ msg ∈ s.pushed ∧ ¬ s.Finished ss msg.sid

/-- No journaled session but the retired one's own starts with its id, and nothing is
sent or echoed in a finished session. -/
def InFlight (ss : Sessions) (cfg : MeshConfig M) (s : Mesh M) : MeshAction M → Prop
  | .send env => env.envelope.addressee ≠ some cfg.me → ¬ s.Finished ss env.envelope.sid
  | .receive env => env.envelope.addressee = none → slotOf env.envelope ∉ s.echoed → ¬ s.Finished ss env.envelope.sid
  | .retire p => ∀ sid, s.entry sid ≠ [] → p <+: sid → ss.own p sid
  | _ => True

/-- The messages are those of the sessions in flight, each session's in the order they were sent. -/
structure Mesh.Copies (ss : Sessions) (s : Mesh M) (msgs : List (WireMessage M)) : Prop where
  finished : ∀ sid, s.Finished ss sid → msgs.filter (·.sid = sid) = []
  inFlight : ∀ sid, ¬ s.Finished ss sid → msgs.filter (·.sid = sid) = s.pushed.filter (·.sid = sid)

/-- A re-send with `rest` to go, in the state `s` that the actions led to: it copied what was in
flight in a state on the way, and has put the copy up to `rest` on its peer's connections. -/
structure Resend.Exact (ss : Sessions) (cfg : MeshConfig M) (acts : List (MeshAction M)) (s : Mesh M) (r : Resend M)
    (rest : List (WireMessage M)) : Prop where
  copied : ∃ before after s₀, acts = before ++ after ∧ Run (Mesh.step cfg) (InFlight ss cfg) Mesh.init before s₀ ∧
    s₀.Copies ss r.journal
  written : r.written.map (·.2) ++ rest = r.journal
  framed : (r.written.map fun w => (⟨r.peer, w.1, w.2⟩ : Frame M)).Sublist s.written

/-- The re-send that a thread is at, and what it has left. -/
def Thread.resending : Thread M → Option (Resend M × List (WireMessage M))
  | .write _ _ _ next => next.resending
  | .kick _ _ next => next.resending
  | .resend job rest => some (job, rest)
  | .rewrite job _ msg rest => some (job, msg :: rest)
  | _ => none

/-- A peer that is dialled again is re-sent the messages of the sessions in flight. -/
structure Resent (ss : Sessions) (cfg : MeshConfig M) (acts : List (MeshAction M)) (s : Mesh M) : Prop where
  complete : ∀ r ∈ s.resends, r.Exact ss cfg acts s []
  underWay : ∀ th ∈ s.threads, ∀ r rest, th.resending = some (r, rest) → r.Exact ss cfg acts s rest
  begins : ∀ (i : Nat) peer conn, s.threads[i]? = some (.resendJournal peer conn) → ∃ s' copy,
    s.step cfg (.advance i true) = some s' ∧ s'.threads[i]? = some (.resend ⟨peer, conn, copy, []⟩ copy) ∧ s.Copies ss copy
  reconnects : ∀ (i : Nat) peer attempt, s.threads[i]? = some (.dial peer attempt) → s.shutdown = false →
    (∀ max, cfg.maxAttempts = some max → attempt < max) → ∃ s', s.step cfg (.advance i true) = some s' ∧
      s'.out[peer]? = some s.installs ∧ s'.threads[i]? = some (.resendJournal peer s.installs)

/-! ## Lemmas: the journal -/

theorem Derived.isPrefix {sid d : Bytes} (h : Derived sid d) : sid <+: d := by
  induction h with
  | self => exact List.prefix_rfl
  | sub _ _ ih => exact ih.trans (List.prefix_append _ _)
  | retry _ _ ih => exact (ih.trans (List.prefix_append _ _)).trans (List.prefix_append _ _)

/-- The entries, as messages were pushed and sessions finished. -/
structure Journaled (ss : Sessions) (s : Mesh M) : Prop where
  finished : ∀ sid, s.Finished ss sid → s.entry sid = []
  inFlight : ∀ sid, ¬ s.Finished ss sid → s.entry sid = s.pushed.filter (·.sid = sid)

section Journaled

variable {ss : Sessions}

theorem Journaled.exact {s : Mesh M} (h : Journaled ss s) : JournalExact ss s := by
  refine ⟨h.finished, h.inFlight, fun msg => ?_⟩
  rw [s.mem_journaled]
  constructor
  · rintro ⟨sid, hmsg⟩
    by_cases hfin : s.Finished ss sid
    · rw [h.finished sid hfin] at hmsg
      cases hmsg
    · rw [h.inFlight sid hfin, List.mem_filter] at hmsg
      obtain ⟨hpushed, hsid⟩ := hmsg
      rw [of_decide_eq_true hsid]
      exact ⟨hpushed, hfin⟩
  · rintro ⟨hpushed, hfin⟩
    refine ⟨msg.sid, ?_⟩
    rw [h.inFlight _ hfin]
    exact List.mem_filter.mpr ⟨hpushed, decide_eq_true rfl⟩

theorem Journaled.congr {s s' : Mesh M} (h : Journaled ss s) (hjournal : s'.journal = s.journal)
    (hpushed : s'.pushed = s.pushed) (hretired : s'.retired = s.retired) : Journaled ss s' := by
  have hfin : ∀ sid, s'.Finished ss sid ↔ s.Finished ss sid := by
    intro sid
    unfold Mesh.Finished
    rw [hretired]
  refine ⟨fun sid hsid => ?_, fun sid hsid => ?_⟩
  · unfold Mesh.entry
    rw [hjournal]
    exact h.finished sid ((hfin sid).mp hsid)
  · unfold Mesh.entry
    rw [hjournal, hpushed]
    exact h.inFlight sid fun hs => hsid ((hfin sid).mpr hs)

theorem Journaled.journalPush {s : Mesh M} (h : Journaled ss s) {msg : WireMessage M} (hmsg : ¬ s.Finished ss msg.sid) :
    Journaled ss (s.journalPush msg) := by
  refine ⟨fun sid hsid => ?_, fun sid hsid => ?_⟩
  · have hne : msg.sid ≠ sid := by
      rintro rfl
      exact hmsg hsid
    rw [s.entry_journalPush, if_neg hne]
    exact h.finished sid hsid
  · rw [s.entry_journalPush, h.inFlight sid hsid]
    by_cases hmsg : msg.sid = sid <;> simp [Mesh.journalPush, hmsg, List.filter_append]

theorem Journaled.retireSession {s : Mesh M} (h : Journaled ss s) {p : Bytes}
    (hp : ∀ sid, s.entry sid ≠ [] → p <+: sid → ss.own p sid) : Journaled ss (s.retireSession p) := by
  have hfin : ∀ sid, (s.retireSession p).Finished ss sid ↔ s.Finished ss sid ∨ ss.own p sid := by
    intro sid
    simp [Mesh.Finished, Mesh.retireSession, or_and_right, exists_or]
  refine ⟨fun sid hsid => ?_, fun sid hsid => ?_⟩
  · rw [s.entry_retireSession]
    by_cases hpre : p <+: sid
    · exact if_pos hpre
    · rw [if_neg hpre]
      rcases (hfin sid).mp hsid with hs | hd
      · exact h.finished sid hs
      · exact absurd (ss.derived hd).isPrefix hpre
  · rw [hfin, not_or] at hsid
    rw [s.entry_retireSession]
    by_cases hpre : p <+: sid
    · -- a prefix of a session that is not its own: that session has nothing journaled
      have hempty : s.entry sid = [] := by
        by_contra hne
        exact hsid.2 (hp sid hne hpre)
      rw [if_pos hpre, ← hempty]
      exact h.inFlight sid hsid.1
    · rw [if_neg hpre]
      exact h.inFlight sid hsid.1

/-- **One step** in sessions in flight. -/
theorem Journaled.step {cfg : MeshConfig M} {s s' : Mesh M} (h : Journaled ss s) {a : MeshAction M}
    (ha : InFlight ss cfg s a) (hstep : s.step cfg a = some s') : Journaled ss s' := by
  cases a with
  | connect peer =>
    simp only [Mesh.step] at hstep
    split at hstep <;> obtain rfl := Option.some.inj hstep
    · exact h
    · exact h.congr rfl rfl rfl
  | send env =>
    simp only [Mesh.step] at hstep
    cases hto : env.envelope.addressee with
    | none =>
      rw [hto] at hstep
      obtain rfl := Option.some.inj hstep
      have hsid : ¬ s.Finished ss (WireMessage.original env).sid := ha (by rw [hto]; intro h; cases h)
      exact (h.journalPush hsid).congr rfl rfl rfl
    | some peer =>
      rw [hto] at hstep
      by_cases hme : peer = cfg.me
      · simp only [if_pos hme] at hstep
        obtain rfl := Option.some.inj hstep
        exact h
      · simp only [if_neg hme] at hstep
        obtain rfl := Option.some.inj hstep
        have hsid : ¬ s.Finished ss (WireMessage.original env).sid :=
          ha (by rw [hto]; exact fun heq => hme (Option.some.inj heq))
        exact (h.journalPush hsid).congr rfl rfl rfl
  | receive env =>
    simp only [Mesh.step] at hstep
    by_cases hto : env.envelope.addressee = none
    · rw [if_neg (not_not.mpr hto)] at hstep
      by_cases hslot : slotOf env.envelope ∈ s.echoed
      · rw [if_pos hslot] at hstep
        obtain rfl := Option.some.inj hstep
        exact h
      · rw [if_neg hslot] at hstep
        obtain rfl := Option.some.inj hstep
        have hmarked : Journaled ss { s with echoed := insert (slotOf env.envelope) s.echoed } := h.congr rfl rfl rfl
        have hsid : ¬ Mesh.Finished ss { s with echoed := insert (slotOf env.envelope) s.echoed }
            (WireMessage.echo cfg.me env (cfg.echoSignature env)).sid := ha hto hslot
        exact (hmarked.journalPush hsid).congr rfl rfl rfl
    · rw [if_pos hto] at hstep
      obtain rfl := Option.some.inj hstep
      exact h
  | retire p =>
    obtain rfl := Option.some.inj hstep
    exact h.retireSession ha
  | dropOutgoing peer =>
    obtain rfl := Option.some.inj hstep
    exact h.congr rfl rfl rfl
  | shutdown =>
    obtain rfl := Option.some.inj hstep
    exact h.congr rfl rfl rfl
  | advance i ok =>
    obtain ⟨hjournal, hpushed, hretired, -⟩ := advance_journal hstep
    exact h.congr hjournal hpushed hretired

end Journaled

/-! ## Lemmas: what is re-sent -/

theorem filter_flatMap_keyed {κ ν : Type} [DecidableEq κ] (key : ν → κ) (l : List (κ × List ν)) (hnd : (l.map (·.1)).Nodup)
    (hkey : ∀ e ∈ l, ∀ v ∈ e.2, key v = e.1) {k : κ} {vs : List ν} (hk : (k, vs) ∈ l ∨ k ∉ l.map (·.1) ∧ vs = []) :
    (l.flatMap (·.2)).filter (key · = k) = vs := by
  induction l generalizing vs with
  | nil =>
    rcases hk with hk | ⟨-, rfl⟩
    · cases hk
    · rfl
  | cons e l ih =>
    obtain ⟨hnew, hnd⟩ := List.nodup_cons.mp hnd
    have hrest : ∀ {vs : List ν}, (k, vs) ∈ l ∨ k ∉ l.map (·.1) ∧ vs = [] → (l.flatMap (·.2)).filter (key · = k) = vs :=
      ih hnd fun e' he' => hkey e' (List.mem_cons_of_mem _ he')
    have hhead := hkey e List.mem_cons_self
    rw [List.flatMap_cons, List.filter_append]
    by_cases hek : e.1 = k
    · have hall : e.2.filter (key · = k) = e.2 := List.filter_eq_self.mpr fun v hv => by simp [hhead v hv, hek]
      have hnone : k ∉ l.map (·.1) := hek ▸ hnew
      have hempty : (l.flatMap (·.2)).filter (key · = k) = [] := hrest (Or.inr ⟨hnone, rfl⟩)
      rw [hall, hempty, List.append_nil]
      rcases hk with hk | ⟨hk, -⟩
      · rcases List.mem_cons.mp hk with rfl | hk
        · rfl
        · exact absurd (List.mem_map_of_mem (f := (·.1)) hk) hnone
      · exact absurd (hek ▸ List.mem_cons_self) hk
    · have hall : e.2.filter (key · = k) = [] := List.filter_eq_nil_iff.mpr fun v hv => by simp [hhead v hv, hek]
      rw [hall, List.nil_append]
      refine hrest (hk.imp (fun hk => ?_) fun ⟨hk, hvs⟩ => ⟨fun h => hk (List.mem_cons_of_mem _ h), hvs⟩)
      rcases List.mem_cons.mp hk with rfl | hk
      · exact absurd rfl hek
      · exact hk

/-- A session's messages in the copied journal are its entry. -/
theorem Mesh.journaled_filter (s : Mesh M) (hkeyed : ∀ sid, ∀ msg ∈ s.entry sid, msg.sid = sid) (sid : Bytes) :
    s.journaled.filter (·.sid = sid) = s.entry sid := by
  have hnd : (s.journal.toList.map (·.1)).Nodup := by
    rw [List.Nodup, List.pairwise_map]
    exact (Std.ExtTreeMap.distinct_keys_toList (t := s.journal)).imp fun h hij => h (by simp [hij])
  refine filter_flatMap_keyed WireMessage.sid s.journal.toList hnd (fun e he msg hmsg => hkeyed e.1 msg ?_) ?_
  · unfold Mesh.entry
    rw [Std.ExtTreeMap.mem_toList_iff_getElem?_eq_some.mp he]
    exact hmsg
  · unfold Mesh.entry
    rcases hget : s.journal[sid]? with _ | msgs
    · refine Or.inr ⟨fun hmem => ?_, rfl⟩
      obtain ⟨e, he, rfl⟩ := List.mem_map.mp hmem
      rw [Std.ExtTreeMap.mem_toList_iff_getElem?_eq_some.mp he] at hget
      cases hget
    · exact Or.inl (Std.ExtTreeMap.mem_toList_iff_getElem?_eq_some.mpr hget)

section Resent

variable {ss : Sessions} {cfg : MeshConfig M} {acts : List (MeshAction M)} {s s' : Mesh M}

/-- The journal, copied, is what is in flight. -/
theorem Journaled.copies (h : Journaled ss s) : s.Copies ss s.journaled := by
  have hkeyed : ∀ sid, ∀ msg ∈ s.entry sid, msg.sid = sid := by
    intro sid msg hmsg
    by_cases hfin : s.Finished ss sid
    · rw [h.finished sid hfin] at hmsg
      cases hmsg
    · rw [h.inFlight sid hfin] at hmsg
      exact of_decide_eq_true (List.mem_filter.mp hmsg).2
  refine ⟨fun sid hsid => ?_, fun sid hsid => ?_⟩
  · rw [s.journaled_filter hkeyed, h.finished sid hsid]
  · rw [s.journaled_filter hkeyed, h.inFlight sid hsid]

theorem Resend.Exact.mono {r : Resend M} {rest : List (WireMessage M)} (h : r.Exact ss cfg acts s rest) (a : MeshAction M)
    (hwritten : s.written.Sublist s'.written) : r.Exact ss cfg (acts ++ [a]) s' rest := by
  obtain ⟨⟨before, after, s₀, rfl, hrun, hcopies⟩, hout, hframed⟩ := h
  exact ⟨⟨before, after ++ [a], s₀, by rw [List.append_assoc], hrun, hcopies⟩, hout, hframed.trans hwritten⟩

/-- What the re-sends done and under way have copied and written. -/
structure Resending (ss : Sessions) (cfg : MeshConfig M) (acts : List (MeshAction M)) (s : Mesh M) : Prop where
  complete : ∀ r ∈ s.resends, r.Exact ss cfg acts s []
  underWay : ∀ th ∈ s.threads, ∀ r rest, th.resending = some (r, rest) → r.Exact ss cfg acts s rest

/-- A thread moves on, and may start one that re-sends nothing yet. -/
theorem Resending.replace (h : Resending ss cfg acts s) (a : MeshAction M) {i : Nat} {next : Thread M}
    {spawned : List (Thread M)} (hthreads : s'.threads = s.threads.set i next ++ spawned)
    (hwritten : s.written.Sublist s'.written) (hresends : ∀ r ∈ s'.resends, r ∈ s.resends ∨ r.Exact ss cfg (acts ++ [a]) s' [])
    (hnext : ∀ r rest, next.resending = some (r, rest) → r.Exact ss cfg (acts ++ [a]) s' rest)
    (hspawned : ∀ th ∈ spawned, th.resending = none) : Resending ss cfg (acts ++ [a]) s' := by
  refine ⟨fun r hr => ?_, fun th hth r rest hr => ?_⟩
  · rcases hresends r hr with hold | hnew
    · exact (h.complete r hold).mono a hwritten
    · exact hnew
  · rw [hthreads] at hth
    rcases List.mem_append.mp hth with hth | hth
    · rcases List.mem_or_eq_of_mem_set hth with hth | rfl
      · exact (h.underWay th hth r rest hr).mono a hwritten
      · exact hnext r rest hr
    · rw [hspawned th hth] at hr
      cases hr

/-- A call starts a thread that re-sends nothing. -/
theorem Resending.call (h : Resending ss cfg acts s) (a : MeshAction M) {spawned : List (Thread M)}
    (hthreads : s'.threads = s.threads ++ spawned) (hwritten : s'.written = s.written) (hresends : s'.resends = s.resends)
    (hspawned : ∀ th ∈ spawned, th.resending = none) : Resending ss cfg (acts ++ [a]) s' := by
  have hsub : s.written.Sublist s'.written := hwritten ▸ List.Sublist.refl _
  refine ⟨fun r hr => (h.complete r (hresends ▸ hr)).mono a hsub, fun th hth r rest hr => ?_⟩
  rw [hthreads] at hth
  rcases List.mem_append.mp hth with hth | hth
  · exact (h.underWay th hth r rest hr).mono a hsub
  · rw [hspawned th hth] at hr
    cases hr

/-- **One step of a thread**: a re-send begins with what is in flight, and writes its copy in order. -/
theorem Resending.advance (h : Resending ss cfg acts s) (hrun : Run (Mesh.step cfg) (InFlight ss cfg) Mesh.init acts s)
    (hjournal : Journaled ss s) {i : Nat} {ok : Bool} (hstep : s.advance cfg i ok = some s') :
    Resending ss cfg (acts ++ [.advance i ok]) s' := by
  obtain ⟨th, hget, hadvance⟩ := advance_inv hstep
  have hth := h.underWay th (List.mem_of_getElem? hget)
  have hset : ∀ next, s.threads.set i next = s.threads.set i next ++ [] := fun next => (List.append_nil _).symm
  have hnone : ∀ th ∈ ([] : List (Thread M)), th.resending = none := fun _ hth => by cases hth
  have hsame : s.written.Sublist s.written := List.Sublist.refl _
  have hput : ∀ f : Frame M, s.written.Sublist (s.written ++ [f]) := fun f => List.sublist_append_left _ _
  have hidle : ∀ {next : Thread M} {s' : Mesh M} {a : MeshAction M}, next.resending = none →
      ∀ r rest, next.resending = some (r, rest) → r.Exact ss cfg (acts ++ [a]) s' rest := by
    intro next s' a hnext r rest hr
    rw [hnext] at hr
    cases hr
  cases hadvance with
  | connected | unconnected | sent | skip | linked | givenUp | dialled | again | finished =>
    exact h.replace _ (hset _) hsame (fun _ hr => Or.inl hr) (hidle rfl) hnone
  | unlinked peer rest msg =>
    obtain ⟨failures, heq, -⟩ := recordFailure_eq s peer msg
    rw [heq]
    exact h.replace _ (hset _) hsame (fun _ hr => Or.inl hr) (hidle rfl) hnone
  | delayed peer rest msg conn =>
    refine h.replace _ rfl hsame (fun _ hr => Or.inl hr) (hidle rfl) fun th hmem => ?_
    rw [List.mem_singleton.mp hmem]
    rfl
  | wrote peer conn msg next =>
    exact h.replace _ (hset _) (hput _) (fun _ hr => Or.inl hr) (fun r rest hr => (hth r rest hr).mono _ (hput _)) hnone
  | failed peer conn msg next =>
    obtain ⟨failures, heq, -⟩ := recordFailure_eq (s.putFrame peer conn msg) peer msg
    rw [heq]
    exact h.replace _ (hset _) (hput _) (fun _ hr => Or.inl hr) (fun r rest hr => (hth r rest hr).mono _ (hput _)) hnone
  | kicked peer failedAt next =>
    refine h.replace _ rfl hsame (fun _ hr => Or.inl hr) (fun r rest hr => (hth r rest hr).mono _ hsame) fun th hmem => ?_
    rw [List.mem_singleton.mp hmem]
    rfl
  | swallowed peer failedAt next =>
    exact h.replace _ (hset _) hsame (fun _ hr => Or.inl hr) (fun r rest hr => (hth r rest hr).mono _ hsame) hnone
  | copied peer conn =>
    refine h.replace _ (hset _) hsame (fun _ hr => Or.inl hr) (fun r rest hr => ?_) hnone
    obtain ⟨rfl, rfl⟩ := Prod.mk.inj (Option.some.inj hr)
    exact ⟨⟨acts, _, s, rfl, hrun, hjournal.copies⟩, rfl, List.nil_sublist _⟩
  | resent job =>
    refine h.replace _ (hset _) hsame (fun r hr => ?_) (hidle rfl) hnone
    rcases List.mem_append.mp hr with hr | hr
    · exact Or.inl hr
    · rw [List.mem_singleton.mp hr]
      exact Or.inr ((hth job [] rfl).mono _ hsame)
  | resendUnlinked job msg rest =>
    obtain ⟨failures, heq, -⟩ := recordFailure_eq s job.peer msg
    rw [heq]
    exact h.replace _ (hset _) hsame (fun _ hr => Or.inl hr) (hidle rfl) hnone
  | resendLinked job msg rest conn =>
    exact h.replace _ (hset _) hsame (fun _ hr => Or.inl hr) (fun r rest' hr => (hth r rest' hr).mono _ hsame) hnone
  | rewrote job conn msg rest =>
    refine h.replace _ (hset _) (hput _) (fun _ hr => Or.inl hr) (fun r rest' hr => ?_) hnone
    obtain ⟨rfl, rfl⟩ := Prod.mk.inj (Option.some.inj hr)
    obtain ⟨hcopied, hout, hframed⟩ := (hth job (msg :: rest) rfl).mono (.advance i ok) hsame
    refine ⟨hcopied, ?_, ?_⟩
    · rw [← hout, List.map_append, List.append_assoc]
      rfl
    · rw [List.map_append]
      exact hframed.append (List.Sublist.refl _)
  | resendFailed job conn msg rest =>
    obtain ⟨failures, heq, -⟩ := recordFailure_eq (s.putFrame job.peer conn msg) job.peer msg
    rw [heq]
    exact h.replace _ (hset _) (hput _) (fun _ hr => Or.inl hr) (hidle rfl) hnone

/-- **One step.** -/
theorem Resending.step (h : Resending ss cfg acts s) (hrun : Run (Mesh.step cfg) (InFlight ss cfg) Mesh.init acts s)
    (hjournal : Journaled ss s) {a : MeshAction M} (hstep : s.step cfg a = some s') :
    Resending ss cfg (acts ++ [a]) s' := by
  have hspawn : ∀ {th : Thread M}, th.resending = none → ∀ th' ∈ [th], th'.resending = none := by
    intro th hth th' hmem
    rw [List.mem_singleton.mp hmem]
    exact hth
  have hstay : Resending ss cfg (acts ++ [a]) s :=
    h.call a (List.append_nil _).symm rfl rfl fun _ hmem => by cases hmem
  cases a with
  | connect peer =>
    simp only [Mesh.step] at hstep
    split at hstep <;> obtain rfl := Option.some.inj hstep
    · exact hstay
    · exact h.call _ rfl rfl rfl (hspawn rfl)
  | send env =>
    simp only [Mesh.step] at hstep
    cases hto : env.envelope.addressee with
    | none =>
      rw [hto] at hstep
      obtain rfl := Option.some.inj hstep
      exact h.call _ rfl rfl rfl (hspawn rfl)
    | some peer =>
      rw [hto] at hstep
      obtain rfl := Option.some.inj hstep
      split
      · exact hstay
      · exact h.call _ rfl rfl rfl (hspawn rfl)
  | receive env =>
    simp only [Mesh.step] at hstep
    split at hstep
    · obtain rfl := Option.some.inj hstep
      exact hstay
    · split at hstep <;> obtain rfl := Option.some.inj hstep
      · exact hstay
      · exact h.call _ rfl rfl rfl (hspawn rfl)
  | retire p =>
    obtain rfl := Option.some.inj hstep
    exact h.call _ (List.append_nil _).symm rfl rfl fun _ hmem => by cases hmem
  | dropOutgoing peer =>
    obtain rfl := Option.some.inj hstep
    exact h.call _ rfl rfl rfl (hspawn rfl)
  | shutdown =>
    obtain rfl := Option.some.inj hstep
    exact h.call _ (List.append_nil _).symm rfl rfl fun _ hmem => by cases hmem
  | advance i ok => exact h.advance hrun hjournal hstep

/-- A dialled peer is due a re-send, and a re-send due begins with what is in flight. -/
theorem Resending.resent (h : Resending ss cfg acts s) (hjournal : Journaled ss s) : Resent ss cfg acts s := by
  have hset : ∀ {i : Nat} {th next : Thread M}, s.threads[i]? = some th → (s.threads.set i next)[i]? = some next := by
    intro i th next hget
    exact List.getElem?_set_self (List.getElem?_eq_some_iff.mp hget).1
  refine ⟨h.complete, h.underWay, fun i peer conn hget => ?_, fun i peer attempt hget hup hmax => ?_⟩
  · refine ⟨s.become i (.resend ⟨peer, conn, s.journaled, []⟩ s.journaled), s.journaled, ?_, hset hget, hjournal.copies⟩
    simp only [Mesh.step, Mesh.advance, hget, Option.getD_some]
  · have hleft : (s.shutdown || cfg.maxAttempts.any (· ≤ attempt)) = false := by
      rw [hup, Bool.false_or, Option.any_eq_false]
      intro max heq
      simpa using hmax max heq
    refine ⟨(s.install peer).become i (.resendJournal peer s.installs), ?_, ?_, hset hget⟩
    · simp [Mesh.step, Mesh.advance, hget, hleft]
    · exact Std.ExtTreeMap.getElem?_insert_self

end Resent

/-! ## Lemmas: what is written to whom -/

/-- The message may go to these peers. -/
def WireMessage.For (msg : WireMessage M) (peers : List PartyId) : Prop :=
  ∀ p, msg.addressee = some p → ∀ q ∈ peers, p = q

/-- What the thread is about to write is for its peer. -/
def Thread.Discreet : Thread M → Prop
  | .send tos msg => msg.For tos
  | .write peer _ msg next => msg.For [peer] ∧ next.Discreet
  | .kick _ _ next => next.Discreet
  | .resend job rest => ∀ msg ∈ rest, msg.For [job.peer]
  | .rewrite job _ msg rest => ∀ m ∈ msg :: rest, m.For [job.peer]
  | _ => True

structure Discreet (s : Mesh M) : Prop where
  written : Private s
  threads : ∀ th ∈ s.threads, th.Discreet

theorem WireMessage.For.head {msg : WireMessage M} {peer : PartyId} {rest : List PartyId}
    (h : msg.For (peer :: rest)) : msg.For [peer] ∧ msg.For rest := by
  refine ⟨fun p hp q hq => ?_, fun p hp q hq => h p hp q (List.mem_cons_of_mem _ hq)⟩
  rw [List.mem_singleton.mp hq]
  exact h p hp peer List.mem_cons_self

/-- A thread moves on, and may start another. -/
theorem Discreet.replace {s s' : Mesh M} (h : Discreet s) {i : Nat} {next : Thread M} {spawned : List (Thread M)}
    (hthreads : s'.threads = s.threads.set i next ++ spawned) (hnext : next.Discreet)
    (hspawned : ∀ th ∈ spawned, th.Discreet) (hwritten : Private s') : Discreet s' := by
  refine ⟨hwritten, fun th hth => ?_⟩
  rw [hthreads] at hth
  rcases List.mem_append.mp hth with hth | hth
  · rcases List.mem_or_eq_of_mem_set hth with hth | rfl
    · exact h.threads th hth
    · exact hnext
  · exact hspawned th hth

theorem Private.putFrame {s : Mesh M} (h : Private s) {peer : PartyId} {conn : Nat} {msg : WireMessage M}
    (hmsg : msg.For [peer]) : Private (s.putFrame peer conn msg) := by
  intro f hf p hp
  rcases List.mem_append.mp hf with hf | hf
  · exact h f hf p hp
  · rw [List.mem_singleton.mp hf] at hp ⊢
    exact hmsg p hp peer (List.mem_singleton.mpr rfl)

theorem Discreet.advance {cfg : MeshConfig M} {s s' : Mesh M} (h : Discreet s) {i : Nat} {ok : Bool}
    (ha : Undisclosed s (.advance i ok)) (hstep : s.advance cfg i ok = some s') : Discreet s' := by
  obtain ⟨th, hget, hadvance⟩ := advance_inv hstep
  have hth := h.threads th (List.mem_of_getElem? hget)
  have ha : th.Undisclosed s := by
    simpa only [Undisclosed, hget, Option.getD_some] using ha
  have hnone : ∀ th ∈ ([] : List (Thread M)), th.Discreet := fun _ hth => by cases hth
  have hset : ∀ next, s.threads.set i next = s.threads.set i next ++ [] := fun next => (List.append_nil _).symm
  cases hadvance with
  | connected | unconnected | sent | givenUp | dialled | again | resent | finished =>
    exact h.replace (hset _) trivial hnone h.written
  | skip peer rest msg => exact h.replace (hset _) hth.head.2 hnone h.written
  | unlinked peer rest msg =>
    obtain ⟨failures, heq, -⟩ := recordFailure_eq s peer msg
    rw [heq]
    exact h.replace (hset _) hth.head.2 hnone h.written
  | delayed peer rest msg conn =>
    refine h.replace rfl hth.head.2 (fun th hmem => ?_) h.written
    rw [List.mem_singleton.mp hmem]
    exact ⟨hth.head.1, trivial⟩
  | linked peer rest msg conn => exact h.replace (hset _) ⟨hth.head.1, hth.head.2⟩ hnone h.written
  | wrote peer conn msg next => exact h.replace (hset _) hth.2 hnone (h.written.putFrame hth.1)
  | failed peer conn msg next =>
    obtain ⟨failures, heq, -⟩ := recordFailure_eq (s.putFrame peer conn msg) peer msg
    rw [heq]
    exact h.replace (hset _) hth.2 hnone (h.written.putFrame hth.1)
  | kicked peer failedAt next =>
    refine h.replace rfl hth (fun th hmem => ?_) h.written
    rw [List.mem_singleton.mp hmem]
    trivial
  | swallowed peer failedAt next => exact h.replace (hset _) hth hnone h.written
  | copied peer conn =>
    refine h.replace (hset _) (fun msg hmsg p hp q hq => ?_) hnone h.written
    rw [List.mem_singleton.mp hq]
    exact ha msg hmsg p hp
  | resendUnlinked job msg rest =>
    obtain ⟨failures, heq, -⟩ := recordFailure_eq s job.peer msg
    rw [heq]
    exact h.replace (hset _) trivial hnone h.written
  | resendLinked job msg rest conn => exact h.replace (hset _) hth hnone h.written
  | rewrote job conn msg rest =>
    exact h.replace (hset _) (fun m hm => hth m (List.mem_cons_of_mem _ hm)) hnone
      (h.written.putFrame (hth msg List.mem_cons_self))
  | resendFailed job conn msg rest =>
    obtain ⟨failures, heq, -⟩ := recordFailure_eq (s.putFrame job.peer conn msg) job.peer msg
    rw [heq]
    exact h.replace (hset _) trivial hnone (h.written.putFrame (hth msg List.mem_cons_self))

/-- A call starts a thread. -/
theorem Discreet.spawn {s s' : Mesh M} (h : Discreet s) {th : Thread M} (hthreads : s'.threads = s.threads ++ [th])
    (hth : th.Discreet) (hwritten : s'.written = s.written) : Discreet s' := by
  refine ⟨fun f hf => h.written f (hwritten ▸ hf), fun th' hth' => ?_⟩
  rw [hthreads] at hth'
  rcases List.mem_append.mp hth' with hth' | hth'
  · exact h.threads th' hth'
  · rw [List.mem_singleton.mp hth']
    exact hth

/-- **One step** whose re-sends start undisclosed. -/
theorem Discreet.step {cfg : MeshConfig M} {s s' : Mesh M} (h : Discreet s) {a : MeshAction M}
    (ha : Undisclosed s a) (hstep : s.step cfg a = some s') : Discreet s' := by
  cases a with
  | connect peer =>
    simp only [Mesh.step] at hstep
    split at hstep <;> obtain rfl := Option.some.inj hstep
    · exact h
    · exact h.spawn rfl trivial rfl
  | send env =>
    simp only [Mesh.step] at hstep
    cases hto : env.envelope.addressee with
    | none =>
      rw [hto] at hstep
      obtain rfl := Option.some.inj hstep
      refine h.spawn rfl (fun p hp => ?_) rfl
      rw [show (WireMessage.original env).addressee = none from hto] at hp
      cases hp
    | some peer =>
      rw [hto] at hstep
      obtain rfl := Option.some.inj hstep
      split
      · exact h
      · refine h.spawn rfl (fun p hp q hq => ?_) rfl
        rw [show (WireMessage.original env).addressee = some peer from hto] at hp
        rw [List.mem_singleton.mp hq]
        exact (Option.some.inj hp).symm
  | receive env =>
    simp only [Mesh.step] at hstep
    split at hstep
    · obtain rfl := Option.some.inj hstep
      exact h
    · split at hstep <;> obtain rfl := Option.some.inj hstep
      · exact h
      · exact h.spawn rfl (fun p hp => by cases hp) rfl
  | retire p =>
    obtain rfl := Option.some.inj hstep
    exact ⟨h.written, h.threads⟩
  | dropOutgoing peer =>
    obtain rfl := Option.some.inj hstep
    exact h.spawn rfl trivial rfl
  | shutdown =>
    obtain rfl := Option.some.inj hstep
    exact ⟨h.written, h.threads⟩
  | advance i ok => exact h.advance ha hstep

/-! ## Theorems -/

/-- **P2P messages stay between two parties** in every run whose re-sends begin with no
P2P message to another party journaled. -/
theorem private_of_undisclosed (cfg : MeshConfig M) {acts : List (MeshAction M)} {s : Mesh M}
    (hrun : Run (Mesh.step cfg) Undisclosed Mesh.init acts s) : Private s := by
  have hinit : Discreet (Mesh.init : Mesh M) := ⟨fun _ hf => (List.not_mem_nil hf).elim, fun _ hth => (List.not_mem_nil hth).elim⟩
  exact (hrun.invariant (fun _ _ _ h ha hstep => h.step ha hstep) hinit).written

/-- **The journal holds exactly the sessions in flight**, and each re-send is of the messages in
flight when it begins and of nothing else, in every run that retires no prefix of another journaled
session and sends nothing in a finished one. -/
theorem journal_exact_of_inFlight (ss : Sessions) (cfg : MeshConfig M) {acts : List (MeshAction M)} {s : Mesh M}
    (hrun : Run (Mesh.step cfg) (InFlight ss cfg) Mesh.init acts s) : JournalExact ss s ∧ Resent ss cfg acts s := by
  have hinit : Journaled ss (Mesh.init : Mesh M) :=
    ⟨fun sid _ => (by simp [Mesh.init, Mesh.entry]), fun sid _ => (by simp [Mesh.init, Mesh.entry])⟩
  have hjournal : ∀ {acts : List (MeshAction M)} {s : Mesh M},
      Run (Mesh.step cfg) (InFlight ss cfg) Mesh.init acts s → Journaled ss s := fun hrun =>
    hrun.invariant (fun _ _ _ h ha hstep => h.step ha hstep) hinit
  have hnone : Resending ss cfg [] (Mesh.init : Mesh M) :=
    ⟨fun _ hr => (List.not_mem_nil hr).elim, fun _ hth => (List.not_mem_nil hth).elim⟩
  have hresending := hrun.history hnone fun as s₁ a s₂ hrun h _ hstep => h.step hrun (hjournal hrun) hstep
  exact ⟨(hjournal hrun).exact, hresending.resent (hjournal hrun)⟩

/-! Party 1, with links to parties 2 and 3. -/

def oneConfig : MeshConfig Bytes := ⟨1, none, false, fun _ => List.replicate 64 0⟩

/-- Party 1's P2P message of key generation to party 2. -/
def shareForTwo : SignedEnvelope Bytes := ⟨⟨utf8 "dkg", .keyGen, 2, 1, some 2, [7]⟩, List.replicate 64 0⟩

def linkUp : List (MeshAction Bytes) := [.connect 2, .advance 0 true, .connect 3, .advance 1 true]

/-- The share goes to party 2; then the link to `peer` drops, and is dialled and
re-synced again. -/
def dropAfterShare (peer : PartyId) : List (MeshAction Bytes) :=
  linkUp ++ [.send shareForTwo, .advance 2 true, .advance 2 true, .advance 2 true, .dropOutgoing peer,
    .advance 3 true, .advance 4 true, .advance 4 true, .advance 4 true, .advance 4 true, .advance 4 true, .advance 4 true]

/-- A P2P message on another party's connection. -/
def Mesh.discloses (s : Mesh M) : Bool := s.written.any fun f => f.msg.addressee.any (· != f.peer)

theorem not_private_of_discloses {s : Mesh M} (h : s.discloses = true) : ¬ Private s := by
  intro hprivate
  obtain ⟨f, hf, hany⟩ := List.any_eq_true.mp h
  obtain ⟨p, hp, hne⟩ := (Option.any_eq_true _ _).mp hany
  exact (bne_iff_ne.mp hne) (hprivate f hf p hp)

theorem private_of_undisclosed_share : ∃ s, Run (Mesh.step oneConfig) Undisclosed Mesh.init (dropAfterShare 2) s ∧
    Private s := by
  have hsome : ((dropAfterShare 2).foldlM (fun s a => if Undisclosed s a then Mesh.step oneConfig s a else none)
      Mesh.init).isSome = true := by
    decide +kernel
  obtain ⟨s, hs⟩ := Option.isSome_iff_exists.mp hsome
  have hrun := (Run.iff_foldlM _ _ _).mpr hs
  exact ⟨s, hrun, private_of_undisclosed oneConfig hrun⟩

/-- The re-sync of party 3 carries party 2's share. -/
theorem share_disclosed : ∃ s, Run (Mesh.step oneConfig) (fun _ _ => True) Mesh.init (dropAfterShare 3) s ∧
    ¬ Private s := by
  have hdiscloses : ((dropAfterShare 3).foldlM (fun s a => if True then Mesh.step oneConfig s a else none)
      Mesh.init).any Mesh.discloses = true := by
    decide +kernel
  obtain ⟨s, hs⟩ := Option.isSome_iff_exists.mp (Option.isSome_of_any hdiscloses)
  rw [hs, Option.any_some] at hdiscloses
  exact ⟨s, (Run.iff_foldlM _ _ _).mpr hs, not_private_of_discloses hdiscloses⟩

/-- What is derived from a session starts with its id and a slash. -/
theorem Derived.slash {sid d : Bytes} (h : Derived sid d) : d = sid ∨ sid ++ utf8 "/" <+: d := by
  have hstep : ∀ d rest : Bytes, (d = sid ∨ sid ++ utf8 "/" <+: d) → utf8 "/" <+: rest →
      sid ++ utf8 "/" <+: d ++ rest := by
    rintro d rest (rfl | hd) hrest
    · exact (List.prefix_append_right_inj d).mpr hrest
    · exact hd.trans (List.prefix_append _ _)
  induction h with
  | self => exact Or.inl rfl
  | @sub d suffix _ hsuffix ih =>
    have hslash : ∀ suffix ∈ subSessions, (utf8 "/").isPrefixOf suffix = true := by decide +kernel
    exact Or.inr (hstep d suffix ih (List.isPrefixOf_iff_prefix.mp (hslash suffix hsuffix)))
  | @retry d _ attempt ih =>
    rw [List.append_assoc]
    have hslash : (utf8 "/").isPrefixOf (utf8 "/retry-") = true := by decide +kernel
    exact Or.inr (hstep d _ ih ((List.isPrefixOf_iff_prefix.mp hslash).trans (List.prefix_append _ _)))

/-- Party 1's broadcast of a signing session. -/
def signMessage (sid : String) : SignedEnvelope Bytes := ⟨.broadcast (utf8 sid) .sign 1 1 [1], List.replicate 64 0⟩

/-- Each session with an id derived from another's is that one's own. -/
def byName : Sessions := ⟨Derived, fun _ => .self, id⟩

/-- No finished session's id begins the id that is sent in, and what is retired takes no more than
a session and its sub-sessions from the journal. -/
def Plain (s : Mesh M) : MeshAction M → Prop
  | .send env => ∀ p ∈ s.retired, p.isPrefixOf env.envelope.sid = false
  | .receive env => ∀ p ∈ s.retired, p.isPrefixOf env.envelope.sid = false
  | .retire p => ∀ e ∈ s.journal.toList, p.isPrefixOf e.1 = true → e.1 = p ∨ ∃ suffix ∈ subSessions, e.1 = p ++ suffix
  | _ => True

instance (s : Mesh M) : ∀ a, Decidable (Plain s a)
  | .send env => inferInstanceAs (Decidable (∀ p ∈ s.retired, p.isPrefixOf env.envelope.sid = false))
  | .receive env => inferInstanceAs (Decidable (∀ p ∈ s.retired, p.isPrefixOf env.envelope.sid = false))
  | .retire p => inferInstanceAs (Decidable (∀ e ∈ s.journal.toList, p.isPrefixOf e.1 = true →
      e.1 = p ∨ ∃ suffix ∈ subSessions, e.1 = p ++ suffix))
  | .connect _ | .dropOutgoing _ | .shutdown | .advance _ _ => isTrue trivial

theorem inFlight_of_plain (cfg : MeshConfig M) (s : Mesh M) (a : MeshAction M) (h : Plain s a) : InFlight byName cfg s a := by
  have hopen : ∀ {sid : Bytes}, (∀ p ∈ s.retired, p.isPrefixOf sid = false) → ¬ s.Finished byName sid := by
    rintro sid hno ⟨p, hp, hd⟩
    have hderived : Derived p sid := hd
    have hpre := List.isPrefixOf_iff_prefix.mpr hderived.isPrefix
    rw [hno p hp] at hpre
    cases hpre
  cases a with
  | send env => exact fun _ => hopen h
  | receive env => exact fun _ _ => hopen h
  | retire p =>
    intro sid hentry hpre
    have hmem : ∃ msgs, (sid, msgs) ∈ s.journal.toList := by
      rcases hget : s.journal[sid]? with _ | msgs
      · exact absurd (by simp [Mesh.entry, hget]) hentry
      · exact ⟨msgs, Std.ExtTreeMap.mem_toList_iff_getElem?_eq_some.mpr hget⟩
    obtain ⟨msgs, hmem⟩ := hmem
    rcases h _ hmem (List.isPrefixOf_iff_prefix.mpr hpre) with heq | ⟨suffix, hsuffix, heq⟩
    · rw [show sid = p from heq]
      exact Derived.self
    · rw [show sid = p ++ suffix from heq]
      exact Derived.self.sub hsuffix
  | connect peer | dropOutgoing peer | shutdown | advance i ok => trivial

/-- "sign-1" and its sub-session finish, "sign-2" begins, and the link to party 2 drops and is dialled again. -/
def resyncAfterRetire : List (MeshAction Bytes) :=
  [.connect 2, .advance 0 true, .send (signMessage "sign-1"), .send (signMessage "sign-1/t1"), .retire (utf8 "sign-1"),
    .send (signMessage "sign-2"), .dropOutgoing 2, .advance 4 true, .advance 5 true, .advance 5 true, .advance 5 true,
    .advance 5 true, .advance 5 true]

/-- Party 2 is re-sent the message of "sign-2", and no other. -/
theorem journal_exact_of_inFlight_sign : ∃ s,
    Run (Mesh.step oneConfig) (InFlight byName oneConfig) Mesh.init resyncAfterRetire s ∧
      s.resends.map (fun r => (r.peer, r.written.map (·.2.sid))) = [(2, [utf8 "sign-2"])] ∧
      JournalExact byName s ∧ Resent byName oneConfig resyncAfterRetire s := by
  have hresends : (resyncAfterRetire.foldlM (fun s a => if Plain s a then Mesh.step oneConfig s a else none) Mesh.init).map
      (fun s => s.resends.map fun r => (r.peer, r.written.map (·.2.sid))) = some [(2, [utf8 "sign-2"])] := by
    decide +kernel
  obtain ⟨s, hs, hresends⟩ := Option.map_eq_some_iff.mp hresends
  have hrun : Run (Mesh.step oneConfig) (InFlight byName oneConfig) Mesh.init resyncAfterRetire s :=
    ((Run.iff_foldlM _ _ _).mpr hs).mono (inFlight_of_plain oneConfig)
  exact ⟨s, hrun, hresends, journal_exact_of_inFlight byName oneConfig hrun⟩

/-- Retiring "sign-1" takes the messages of "sign-10", whichever sessions are whose own. -/
theorem journal_lost : ∃ s, Run (Mesh.step oneConfig) (fun _ _ => True) Mesh.init
    [.send (signMessage "sign-10"), .send (signMessage "sign-1"), .retire (utf8 "sign-1")] s ∧
      ∀ ss : Sessions, ¬ JournalExact ss s := by
  refine ⟨_, .cons trivial rfl (.cons trivial rfl (.cons trivial rfl (.nil _))), fun ss h => ?_⟩
  have hlive := h.inFlight (utf8 "sign-10") ?_
  · have hpre : utf8 "sign-1" <+: utf8 "sign-10" := List.isPrefixOf_iff_prefix.mp (by decide +kernel)
    rw [Mesh.entry_retireSession, if_pos hpre] at hlive
    have hmem : WireMessage.original (signMessage "sign-10") ∈ ([] : List (WireMessage Bytes)) := by
      rw [hlive]
      exact List.mem_filter.mpr ⟨List.mem_cons_self, decide_eq_true rfl⟩
    cases hmem
  · rintro ⟨p, hp, hd⟩
    obtain rfl := List.mem_singleton.mp hp
    rcases (ss.derived hd).slash with heq | hpre
    · exact absurd heq (by decide +kernel)
    · rw [← List.isPrefixOf_iff_prefix] at hpre
      exact absurd hpre (by decide +kernel)

end OhmEcdsa
