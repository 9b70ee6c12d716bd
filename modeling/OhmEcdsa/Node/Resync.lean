import OhmEcdsa.Node.Journal

/-!
# Re-sync after a link failure (`mesh.rs`)

A write that fails or finds no connection kicks the peer's reconnect task, which dials,
installs its connection and re-sends the journal.  The kick is swallowed while a task is
registered, also one whose own re-send is what failed (`resync_lost`).  Where that does
not happen no failure is left behind:

    Run (step cfg) Heeded init acts s → Resynced s     (resynced_of_heeded)

Each failure is watched by a kick under way, a task with a later connection to come, or
a complete re-send on one (`Sound`).
-/

set_option linter.unusedSectionVars false

namespace OhmEcdsa

open Transition Acceptor

variable {M : Type}

/-! ## Specification -/

/-- The whole journal went out, on connections no older than the task's own. -/
structure Resend.Complete (r : Resend M) : Prop where
  written : r.written.map (·.2) = r.journal
  conn : ∀ w ∈ r.written, r.installed ≤ w.1

/-- The session was retired. -/
def Mesh.Retired (s : Mesh M) (sid : Bytes) : Prop := ∃ p ∈ s.retired, p <+: sid

/-- Where no reconnect task is left, a failure was followed by a new connection and a
complete re-send on it, which has the message unless its session was retired. -/
def Resynced (s : Mesh M) : Prop :=
  ∀ f ∈ s.failures, f.peer ∉ s.reconnecting → (∀ failedAt next, Thread.kick f.peer failedAt next ∉ s.threads) →
    ∃ r ∈ s.resends, r.peer = f.peer ∧ f.failedAt ≤ r.installed ∧ r.Complete ∧
      (f.msg ∈ r.journal ∨ s.Retired f.msg.sid)

/-- A reconnect task that has yet to install its connection, or installed it since. -/
def Thread.Covers (peer : PartyId) (failedAt : Nat) : Thread M → Prop
  | .dial p _ => p = peer
  | .resendJournal p conn => p = peer ∧ failedAt ≤ conn
  | .resend job _ => job.peer = peer ∧ failedAt ≤ job.installed
  | .rewrite job _ _ _ => job.peer = peer ∧ failedAt ≤ job.installed
  | _ => False

def Mesh.Covered (s : Mesh M) (peer : PartyId) (failedAt : Nat) : Prop :=
  (∃ th ∈ s.threads, th.Covers peer failedAt) ∨ ∃ r ∈ s.resends, r.peer = peer ∧ failedAt ≤ r.installed

def Thread.Heeded (s : Mesh M) : Thread M → Prop
  | .kick peer (some failedAt) _ => peer ∈ s.reconnecting → s.Covered peer failedAt
  | _ => True

/-- A kick after a failed write is swallowed only by a task that installs its
connection after the failure. -/
def Heeded (s : Mesh M) : MeshAction M → Prop
  | .advance i _ => (s.threads[i]?.getD .done).Heeded s
  | _ => True

instance (peer : PartyId) (failedAt : Nat) : ∀ th : Thread M, Decidable (th.Covers peer failedAt)
  | .dial p _ => inferInstanceAs (Decidable (p = peer))
  | .resendJournal p conn => inferInstanceAs (Decidable (p = peer ∧ failedAt ≤ conn))
  | .resend job _ => inferInstanceAs (Decidable (job.peer = peer ∧ failedAt ≤ job.installed))
  | .rewrite job _ _ _ => inferInstanceAs (Decidable (job.peer = peer ∧ failedAt ≤ job.installed))
  | .connect _ | .send _ _ | .write _ _ _ _ | .kick _ _ _ | .finish _ | .done => isFalse not_false

instance (s : Mesh M) (peer : PartyId) (failedAt : Nat) : Decidable (s.Covered peer failedAt) :=
  inferInstanceAs (Decidable ((∃ th ∈ s.threads, th.Covers peer failedAt) ∨
    ∃ r ∈ s.resends, r.peer = peer ∧ failedAt ≤ r.installed))

instance (s : Mesh M) : ∀ th : Thread M, Decidable (th.Heeded s)
  | .kick peer (some failedAt) _ => inferInstanceAs (Decidable (peer ∈ s.reconnecting → s.Covered peer failedAt))
  | .kick _ none _ | .connect _ | .send _ _ | .write _ _ _ _ | .dial _ _ | .resendJournal _ _ | .resend _ _
  | .rewrite _ _ _ _ | .finish _ | .done => isTrue trivial

instance (s : Mesh M) : ∀ a, Decidable (Heeded s a)
  | .advance i _ => inferInstanceAs (Decidable ((s.threads[i]?.getD .done).Heeded s))
  | .connect _ | .send _ | .receive _ | .retire _ | .dropOutgoing _ | .shutdown => isTrue trivial

/-! ## Lemmas -/

/-- The peer whose reconnect task the thread is. -/
def Thread.task : Thread M → Option PartyId
  | .write _ _ _ next => next.task
  | .kick _ _ next => next.task
  | .dial peer _ => some peer
  | .resendJournal peer _ => some peer
  | .resend job _ => some job.peer
  | .rewrite job _ _ _ => some job.peer
  | .finish peer => some peer
  | _ => none

/-- One reconnect task a peer, while the peer is in `reconnecting`. -/
structure Tasks (threads : List (Thread M)) (reconnecting : Finset PartyId) : Prop where
  registered : ∀ (i : Nat) (th : Thread M) p, threads[i]? = some th → th.task = some p → p ∈ reconnecting
  single : ∀ (i j : Nat) (th th' : Thread M) p, threads[i]? = some th → threads[j]? = some th' → th.task = some p → th'.task = some p → i = j

theorem getElem?_set_cases {α : Type} {l : List α} {i j : Nat} {a b c : α} (hi : l[i]? = some c)
    (h : (l.set i a)[j]? = some b) : j = i ∧ b = a ∨ j ≠ i ∧ l[j]? = some b := by
  rw [List.getElem?_set] at h
  by_cases hij : i = j
  · subst hij
    have hlt : i < l.length := (List.getElem?_eq_some_iff.mp hi).1
    rw [if_pos rfl, if_pos hlt] at h
    exact Or.inl ⟨rfl, (Option.some.inj h).symm⟩
  · rw [if_neg hij] at h
    exact Or.inr ⟨fun hji => hij hji.symm, h⟩

theorem getElem?_append_cases {α : Type} {l : List α} {j : Nat} {a b : α} (h : (l ++ [a])[j]? = some b) :
    l[j]? = some b ∨ j = l.length ∧ b = a := by
  rw [List.getElem?_append] at h
  by_cases hj : j < l.length
  · rw [if_pos hj] at h
    exact Or.inl h
  · rw [if_neg hj] at h
    rw [List.getElem?_singleton] at h
    split at h
    · exact Or.inr ⟨by omega, (Option.some.inj h).symm⟩
    · cases h

theorem Tasks.set {threads : List (Thread M)} {reconnecting : Finset PartyId} (h : Tasks threads reconnecting)
    {i : Nat} {th next : Thread M} (hget : threads[i]? = some th) (htask : next.task = th.task) :
    Tasks (threads.set i next) reconnecting := by
  have hback : ∀ (j : Nat) (th' : Thread M) p, (threads.set i next)[j]? = some th' → th'.task = some p →
      ∃ th0 : Thread M, threads[j]? = some th0 ∧ th0.task = some p := by
    intro j th' p hj hp
    rcases getElem?_set_cases hget hj with ⟨rfl, rfl⟩ | ⟨-, hj⟩
    · exact ⟨th, hget, htask ▸ hp⟩
    · exact ⟨th', hj, hp⟩
  refine ⟨fun j th' p hj hp => ?_, fun j k th' th'' p hj hk hp hp' => ?_⟩
  · obtain ⟨th0, h0, hp0⟩ := hback j th' p hj hp
    exact h.registered j th0 p h0 hp0
  · obtain ⟨th0, h0, hp0⟩ := hback j th' p hj hp
    obtain ⟨th1, h1, hp1⟩ := hback k th'' p hk hp'
    exact h.single j k th0 th1 p h0 h1 hp0 hp1

theorem Tasks.append {threads : List (Thread M)} {reconnecting : Finset PartyId} (h : Tasks threads reconnecting)
    {th : Thread M} (htask : th.task = none) : Tasks (threads ++ [th]) reconnecting := by
  have hold : ∀ (j : Nat) (th' : Thread M) p, (threads ++ [th])[j]? = some th' → th'.task = some p → threads[j]? = some th' := by
    intro j th' p hj hp
    rcases getElem?_append_cases hj with hj | ⟨-, rfl⟩
    · exact hj
    · rw [htask] at hp
      cases hp
  exact ⟨fun j th' p hj hp => h.registered j th' p (hold j th' p hj hp) hp, fun j k th' th'' p hj hk hp hp' =>
    h.single j k th' th'' p (hold j th' p hj hp) (hold k th'' p hk hp') hp hp'⟩

/-- A kick that is heard starts a task. -/
theorem Tasks.start {threads : List (Thread M)} {reconnecting : Finset PartyId} (h : Tasks threads reconnecting)
    {peer : PartyId} (hpeer : peer ∉ reconnecting) (attempt : Nat) :
    Tasks (threads ++ [.dial peer attempt]) (insert peer reconnecting) := by
  have hcases : ∀ (j : Nat) (th' : Thread M) p, (threads ++ [.dial peer attempt])[j]? = some th' → th'.task = some p →
      threads[j]? = some th' ∧ p ≠ peer ∨ j = threads.length ∧ p = peer := by
    intro j th' p hj hp
    rcases getElem?_append_cases hj with hold | ⟨hlen, rfl⟩
    · refine Or.inl ⟨hold, ?_⟩
      rintro rfl
      exact hpeer (h.registered j th' _ hold hp)
    · exact Or.inr ⟨hlen, (Option.some.inj hp).symm⟩
  refine ⟨fun j th' p hj hp => ?_, fun j k th' th'' p hj hk hp hp' => ?_⟩
  · rcases hcases j th' p hj hp with ⟨hj, -⟩ | ⟨-, rfl⟩
    · exact Finset.mem_insert_of_mem (h.registered j th' p hj hp)
    · exact Finset.mem_insert_self _ _
  · rcases hcases j th' p hj hp with ⟨hj, hne⟩ | ⟨hj, heq⟩ <;> rcases hcases k th'' p hk hp' with ⟨hk, hne'⟩ | ⟨hk, heq'⟩
    · exact h.single j k th' th'' p hj hk hp hp'
    · exact absurd heq' hne
    · exact absurd heq hne'
    · rw [hj, hk]

theorem Tasks.finish {threads : List (Thread M)} {reconnecting : Finset PartyId} (h : Tasks threads reconnecting)
    {i : Nat} {peer : PartyId} (hget : threads[i]? = some (.finish peer)) :
    Tasks (threads.set i .done) (reconnecting.erase peer) := by
  have hback : ∀ (j : Nat) (th' : Thread M) p, (threads.set i .done)[j]? = some th' → th'.task = some p → threads[j]? = some th' ∧ j ≠ i := by
    intro j th' p hj hp
    rcases getElem?_set_cases hget hj with ⟨rfl, rfl⟩ | ⟨hne, hj⟩
    · cases hp
    · exact ⟨hj, hne⟩
  refine ⟨fun j th' p hj hp => ?_, fun j k th' th'' p hj hk hp hp' => ?_⟩
  · obtain ⟨hj, hne⟩ := hback j th' p hj hp
    refine Finset.mem_erase.mpr ⟨?_, h.registered j th' p hj hp⟩
    rintro rfl
    exact hne (h.single j i th' _ p hj hget hp rfl)
  · exact h.single j k th' th'' p (hback j th' p hj hp).1 (hback k th'' p hk hp').1 hp hp'

/-- The message is journaled, or its session was retired. -/
def Mesh.Kept (s : Mesh M) (msg : WireMessage M) : Prop := msg ∈ s.journaled ∨ s.Retired msg.sid

/-- The peer's connection is this one or a later one. -/
def Mesh.Fresh (s : Mesh M) (peer : PartyId) (conn : Nat) : Prop :=
  conn < s.installs ∧ ∀ c, s.out[peer]? = some c → conn ≤ c

/-- What is written and what is left is the copied journal. -/
structure Resend.OnTrack (r : Resend M) (rest : List (WireMessage M)) : Prop where
  conn : ∀ w ∈ r.written, r.installed ≤ w.1
  journal : r.written.map (·.2) ++ rest = r.journal

/-- The copy has the messages that had failed before the connection. -/
def Mesh.Copied (s : Mesh M) (job : Resend M) : Prop :=
  ∀ f ∈ s.failures, f.failedAt ≤ job.installed → f.msg ∈ job.journal ∨ s.Retired f.msg.sid

def Thread.Sound (s : Mesh M) : Thread M → Prop
  | .send _ msg => s.Kept msg
  | .write _ _ msg next => s.Kept msg ∧ next.Sound s
  | .kick _ _ next => next.Sound s
  | .resendJournal peer conn => s.Fresh peer conn
  | .resend job rest => s.Fresh job.peer job.installed ∧ job.OnTrack rest ∧ s.Copied job ∧ ∀ m ∈ job.journal, s.Kept m
  | .rewrite job conn msg rest => s.Fresh job.peer job.installed ∧ job.installed ≤ conn ∧
      job.OnTrack (msg :: rest) ∧ s.Copied job ∧ ∀ m ∈ job.journal, s.Kept m
  | _ => True

/-- The thread is about to kick for this failure or a later one. -/
def Thread.Kicks (peer : PartyId) (failedAt : Nat) (th : Thread M) : Prop :=
  ∃ later next, th = .kick peer (some later) next ∧ failedAt ≤ later

/-- A failure's kick is under way, or a re-send on a later connection is due or done. -/
def Mesh.Watched (s : Mesh M) (peer : PartyId) (failedAt : Nat) : Prop :=
  (∃ th ∈ s.threads, th.Kicks peer failedAt) ∨ s.Covered peer failedAt

structure Sound (s : Mesh M) : Prop where
  tasks : Tasks s.threads s.reconnecting
  keyed : ∀ sid, ∀ msg ∈ s.entry sid, msg.sid = sid
  threads : ∀ th ∈ s.threads, th.Sound s
  failures : ∀ f ∈ s.failures, f.peer ∈ s.peers ∧ f.failedAt ≤ s.installs ∧ s.Kept f.msg ∧ s.Watched f.peer f.failedAt
  resends : ∀ r ∈ s.resends, r.Complete ∧ r.installed < s.installs ∧ s.Copied r

/-- What later states keep. -/
structure Later (s s' : Mesh M) : Prop where
  peers : s.peers ⊆ s'.peers
  installs : s.installs ≤ s'.installs
  out : ∀ (p : PartyId) (c : Nat), s'.out[p]? = some c → s.out[p]? = some c ∨ s.installs ≤ c
  kept : ∀ msg, s.Kept msg → s'.Kept msg
  retired : s.retired ⊆ s'.retired
  failures : ∀ f ∈ s'.failures, f ∈ s.failures ∨ s.installs ≤ f.failedAt

section Later

variable {s s' : Mesh M}

theorem Later.fresh (h : Later s s') {peer : PartyId} {conn : Nat} (hf : s.Fresh peer conn) : s'.Fresh peer conn := by
  refine ⟨hf.1.trans_le h.installs, fun c hc => ?_⟩
  rcases h.out peer c hc with hc | hc
  · exact hf.2 c hc
  · exact hf.1.le.trans hc

theorem Later.isRetired (h : Later s s') {sid : Bytes} (hr : s.Retired sid) : s'.Retired sid := by
  obtain ⟨p, hp, hpre⟩ := hr
  exact ⟨p, h.retired hp, hpre⟩

theorem Later.copied (h : Later s s') {job : Resend M} (hnew : job.installed < s.installs) (hc : s.Copied job) :
    s'.Copied job := by
  intro f hf hle
  rcases h.failures f hf with hf | hge
  · exact (hc f hf hle).imp_right h.isRetired
  · omega

theorem Thread.Sound.later (h : Later s s') {th : Thread M} (hth : th.Sound s) : th.Sound s' := by
  induction th with
  | connect | dial | finish | done => trivial
  | send tos msg => exact h.kept msg hth
  | write peer conn msg next ih => exact ⟨h.kept msg hth.1, ih hth.2⟩
  | kick peer failedAt next ih => exact ih hth
  | resendJournal peer conn => exact h.fresh hth
  | resend job rest =>
    obtain ⟨hfresh, htrack, hcopied, hkept⟩ := hth
    exact ⟨h.fresh hfresh, htrack, h.copied hfresh.1 hcopied, fun m hm => h.kept m (hkept m hm)⟩
  | rewrite job conn msg rest =>
    obtain ⟨hfresh, hconn, htrack, hcopied, hkept⟩ := hth
    exact ⟨h.fresh hfresh, hconn, htrack, h.copied hfresh.1 hcopied, fun m hm => h.kept m (hkept m hm)⟩

/-- A thread's step leaves the journal. -/
theorem Later.of_journal_eq (hpeers : s'.peers = s.peers) (hinstalls : s.installs ≤ s'.installs)
    (hout : ∀ (p : PartyId) (c : Nat), s'.out[p]? = some c → s.out[p]? = some c ∨ s.installs ≤ c) (hjournal : s'.journal = s.journal)
    (hretired : s'.retired = s.retired) (hfailures : ∀ f ∈ s'.failures, f ∈ s.failures ∨ s.installs ≤ f.failedAt) :
    Later s s' := by
  refine ⟨hpeers ▸ List.Subset.refl _, hinstalls, hout, fun msg hmsg => ?_, hretired ▸ List.Subset.refl _, hfailures⟩
  unfold Mesh.Kept Mesh.Retired Mesh.journaled
  rw [hjournal, hretired]
  exact hmsg

/-- The other threads stay. -/
theorem mem_set_or {α : Type} {l : List α} {i : Nat} {a x : α} (h : x ∈ l) : x ∈ l.set i a ∨ l[i]? = some x := by
  obtain ⟨j, hj⟩ := List.mem_iff_getElem?.mp h
  by_cases hij : i = j
  · subst hij
    exact Or.inr hj
  · refine Or.inl (List.mem_iff_getElem?.mpr ⟨j, ?_⟩)
    rw [List.getElem?_set_ne hij]
    exact hj

theorem Mesh.Watched.replace {i : Nat} {th next : Thread M} {spawned : List (Thread M)}
    (hget : s.threads[i]? = some th) (hthreads : s'.threads = s.threads.set i next ++ spawned)
    (hresends : s.resends ⊆ s'.resends) {peer : PartyId} {failedAt : Nat}
    (hcover : th.Covers peer failedAt ∨ th.Kicks peer failedAt → s'.Watched peer failedAt)
    (h : s.Watched peer failedAt) : s'.Watched peer failedAt := by
  have hmem : ∀ th' ∈ s.threads, th' ∈ s'.threads ∨ th' = th := by
    intro th' hth'
    rcases mem_set_or (i := i) (a := next) hth' with hset | hi
    · rw [hthreads]
      exact Or.inl (List.mem_append_left _ hset)
    · exact Or.inr (Option.some.inj (hi.symm.trans hget))
  rcases h with ⟨th', hth', hkicks⟩ | ⟨th', hth', hcovers⟩ | ⟨r, hr, hpeer, hat⟩
  · rcases hmem _ hth' with hth' | rfl
    · exact Or.inl ⟨th', hth', hkicks⟩
    · exact hcover (Or.inr hkicks)
  · rcases hmem _ hth' with hth' | rfl
    · exact Or.inr (Or.inl ⟨th', hth', hcovers⟩)
    · exact hcover (Or.inl hcovers)
  · exact Or.inr (Or.inr ⟨r, hresends hr, hpeer, hat⟩)

/-- A thread moves on, may start another and may record a failure its kick follows. -/
theorem Sound.replace (h : Sound s) (hlater : Later s s') {i : Nat} {th next : Thread M} {spawned : List (Thread M)}
    (hget : s.threads[i]? = some th) (hthreads : s'.threads = s.threads.set i next ++ spawned)
    (htasks : Tasks s'.threads s'.reconnecting) (hkeyed : ∀ sid, ∀ msg ∈ s'.entry sid, msg.sid = sid)
    (hnext : next.Sound s') (hspawned : ∀ th ∈ spawned, th.Sound s')
    (hfailures : ∀ f ∈ s'.failures, f ∈ s.failures ∨ f.peer ∈ s'.peers ∧ f.failedAt ≤ s'.installs ∧ s'.Kept f.msg ∧
      s'.Watched f.peer f.failedAt)
    (hresends : s.resends ⊆ s'.resends)
    (hnew : ∀ r ∈ s'.resends, r ∈ s.resends ∨ r.Complete ∧ r.installed < s'.installs ∧ s'.Copied r)
    (hcover : ∀ f ∈ s.failures, th.Covers f.peer f.failedAt ∨ th.Kicks f.peer f.failedAt →
      s'.Watched f.peer f.failedAt) :
    Sound s' := by
  refine ⟨htasks, hkeyed, fun th' hth' => ?_, fun f hf => ?_, fun r hr => ?_⟩
  · rw [hthreads] at hth'
    rcases List.mem_append.mp hth' with hth' | hth'
    · rcases List.mem_or_eq_of_mem_set hth' with hth' | rfl
      · exact (h.threads th' hth').later hlater
      · exact hnext
    · exact hspawned th' hth'
  · rcases hfailures f hf with hold | hfnew
    · obtain ⟨hpeer, hat, hkept, hwatched⟩ := h.failures f hold
      exact ⟨hlater.peers hpeer, hat.trans hlater.installs, hlater.kept f.msg hkept,
        hwatched.replace hget hthreads hresends (hcover f hold)⟩
    · exact hfnew
  · rcases hnew r hr with hold | hrnew
    · obtain ⟨hcomplete, hinstalled, hcopied⟩ := h.resends r hold
      exact ⟨hcomplete, hinstalled.trans_le hlater.installs, hlater.copied hinstalled hcopied⟩
    · exact hrnew

/-- What a new failure needs: its kick is the thread's next step. -/
theorem failures_of_record {peer : PartyId} {msg : WireMessage M} {failures : List (Failure M)} {i : Nat}
    {next : Thread M} {th : Thread M} (hget : s.threads[i]? = some th)
    (hthreads : s'.threads = s.threads.set i (.kick peer (some s.installs) next))
    (hin : peer ∈ s.peers → failures = s.failures ++ [⟨peer, s.installs, msg⟩])
    (hout : peer ∉ s.peers → failures = s.failures) (hpeers : s'.peers = s.peers) (hinstalls : s'.installs = s.installs)
    (hkept : s'.Kept msg) {f : Failure M} (hf : f ∈ failures) :
    f ∈ s.failures ∨ f.peer ∈ s'.peers ∧ f.failedAt ≤ s'.installs ∧ s'.Kept f.msg ∧ s'.Watched f.peer f.failedAt := by
  by_cases hpeer : peer ∈ s.peers
  · rw [hin hpeer] at hf
    rcases List.mem_append.mp hf with hf | hf
    · exact Or.inl hf
    · obtain rfl := List.mem_singleton.mp hf
      refine Or.inr ⟨hpeers ▸ hpeer, hinstalls.ge, hkept, Or.inl ⟨_, ?_, s.installs, next, rfl, le_rfl⟩⟩
      rw [hthreads]
      exact List.mem_set (List.getElem?_eq_some_iff.mp hget).1 _
  · rw [hout hpeer] at hf
    exact Or.inl hf

theorem failures_later {peer : PartyId} {msg : WireMessage M} {failures : List (Failure M)}
    (hin : peer ∈ s.peers → failures = s.failures ++ [⟨peer, s.installs, msg⟩])
    (hout : peer ∉ s.peers → failures = s.failures) {f : Failure M} (hf : f ∈ failures) :
    f ∈ s.failures ∨ s.installs ≤ f.failedAt := by
  by_cases hpeer : peer ∈ s.peers
  · rw [hin hpeer] at hf
    rcases List.mem_append.mp hf with hf | hf
    · exact Or.inl hf
    · rw [List.mem_singleton.mp hf]
      exact Or.inr le_rfl
  · rw [hout hpeer] at hf
    exact Or.inl hf

/-- The thread a step leaves behind. -/
theorem mem_become {i : Nat} {th next : Thread M} {spawned : List (Thread M)} (hget : s.threads[i]? = some th)
    (hthreads : s'.threads = s.threads.set i next ++ spawned) : next ∈ s'.threads := by
  rw [hthreads]
  exact List.mem_append_left _ (List.mem_set (List.getElem?_eq_some_iff.mp hget).1 _)

theorem Later.install (s : Mesh M) (peer : PartyId) (i : Nat) (next : Thread M) :
    Later s ((s.install peer).become i next) := by
  refine Later.of_journal_eq rfl (Nat.le_succ _) (fun p c hc => ?_) rfl rfl fun f hf => Or.inl hf
  rw [show ((s.install peer).become i next).out = s.out.insert peer s.installs from rfl,
    Std.ExtTreeMap.getElem?_insert] at hc
  split at hc
  · exact Or.inr (Option.some.inj hc).le
  · exact Or.inl hc

theorem Later.become (s : Mesh M) (i : Nat) (next : Thread M) : Later s (s.become i next) :=
  Later.of_journal_eq rfl le_rfl (fun _ _ hc => Or.inl hc) rfl rfl fun _ hf => Or.inl hf

/-- Other threads have no part in a re-sync. -/
def Thread.reconnects : Thread M → Bool
  | .kick _ _ _ | .dial _ _ | .resendJournal _ _ | .resend _ _ | .rewrite _ _ _ _ => true
  | _ => false

theorem Thread.reconnects_of_watches {th : Thread M} {peer : PartyId} {failedAt : Nat}
    (h : th.Covers peer failedAt ∨ th.Kicks peer failedAt) : th.reconnects = true := by
  rcases h with h | ⟨later, next, rfl, -⟩
  · cases th <;> first | rfl | exact h.elim
  · rfl

theorem Thread.Covers.of_le {th : Thread M} {peer : PartyId} {failedAt later : Nat} (h : th.Covers peer later)
    (hle : failedAt ≤ later) : th.Covers peer failedAt := by
  cases th with
  | dial p attempt => exact h
  | resendJournal p conn => exact ⟨h.1, hle.trans h.2⟩
  | resend job rest => exact ⟨h.1, hle.trans h.2⟩
  | rewrite job conn msg rest => exact ⟨h.1, hle.trans h.2⟩
  | _ => exact h.elim

/-- A step within a thread. -/
theorem Sound.move (h : Sound s) {i : Nat} {th next : Thread M} {written : List (Frame M)}
    (hget : s.threads[i]? = some th) (htask : next.task = th.task) (hnext : next.Sound s)
    (hcover : ∀ f ∈ s.failures, th.Covers f.peer f.failedAt ∨ th.Kicks f.peer f.failedAt →
      next.Covers f.peer f.failedAt) : Sound ({ s with written := written }.become i next) := by
  have hlater : Later s ({ s with written := written }.become i next) :=
    Later.of_journal_eq rfl le_rfl (fun _ _ hc => Or.inl hc) rfl rfl fun _ hf => Or.inl hf
  have hthreads : ({ s with written := written }.become i next).threads = s.threads.set i next ++ [] :=
    (List.append_nil _).symm
  refine h.replace hlater hget hthreads (h.tasks.set hget htask) h.keyed (hnext.later hlater) (fun _ hth => by cases hth)
    (fun f hf => Or.inl hf) (List.Subset.refl _) (fun r hr => Or.inl hr) fun f hf hc => ?_
  exact Or.inr (Or.inl ⟨next, mem_become hget hthreads, hcover f hf hc⟩)

/-- A failed write, of which the thread's kick is next. -/
theorem Sound.fail (h : Sound s) {i : Nat} {th next : Thread M} {written : List (Frame M)} {peer : PartyId}
    {msg : WireMessage M} (hget : s.threads[i]? = some th) (htask : next.task = th.task) (hnext : next.Sound s)
    (hmsg : s.Kept msg) (hcover : ∀ f ∈ s.failures, th.Covers f.peer f.failedAt ∨ th.Kicks f.peer f.failedAt →
      f.peer = peer) :
    Sound (({ s with written := written }.recordFailure peer msg).become i (.kick peer (some s.installs) next)) := by
  obtain ⟨failures, heq, hin, hout⟩ := recordFailure_eq { s with written := written } peer msg
  rw [heq]
  have hlater : Later s ({ s with written := written, failures := failures }.become i
      (.kick peer (some s.installs) next)) :=
    Later.of_journal_eq rfl le_rfl (fun _ _ hc => Or.inl hc) rfl rfl fun _ hf => failures_later hin hout hf
  have hthreads : ({ s with written := written, failures := failures }.become i
      (.kick peer (some s.installs) next)).threads = s.threads.set i (.kick peer (some s.installs) next) ++ [] :=
    (List.append_nil _).symm
  have hkick : Thread.Sound s (.kick peer (some s.installs) next) := hnext
  have hnew : ∀ f ∈ failures, f ∈ s.failures ∨ f.peer ∈ s.peers ∧ f.failedAt ≤ s.installs ∧
      ({ s with written := written, failures := failures }.become i (.kick peer (some s.installs) next)).Kept f.msg ∧
      ({ s with written := written, failures := failures }.become i
        (.kick peer (some s.installs) next)).Watched f.peer f.failedAt := by
    have hset : ({ s with written := written, failures := failures }.become i
        (.kick peer (some s.installs) next)).threads = s.threads.set i (.kick peer (some s.installs) next) := rfl
    exact fun f hf => failures_of_record hget hset hin hout rfl rfl (hlater.kept msg hmsg) hf
  refine h.replace hlater hget hthreads (h.tasks.set hget htask) h.keyed (hkick.later hlater)
    (fun _ hth => by cases hth) hnew (List.Subset.refl _) (fun r hr => Or.inl hr) fun f hf hc => ?_
  rw [hcover f hf hc]
  exact Or.inl ⟨_, mem_become hget hthreads, s.installs, next, rfl, (h.failures f hf).2.1⟩

theorem Sound.advance {cfg : MeshConfig M} (hcfg : cfg.maxAttempts = none) (h : Sound s) (hup : s.shutdown = false)
    {i : Nat} {ok : Bool} (ha : Heeded s (.advance i ok)) (hstep : s.advance cfg i ok = some s') : Sound s' := by
  obtain ⟨th, hget, hadvance⟩ := advance_inv hstep
  have hth := h.threads th (List.mem_of_getElem? hget)
  have ha : th.Heeded s := by
    simpa only [Heeded, hget, Option.getD_some] using ha
  cases hadvance with
  | connected peer =>
    refine h.replace (Later.install s peer i _) hget (List.append_nil _).symm (h.tasks.set hget rfl) h.keyed trivial
      (fun _ hth => by cases hth) (fun f hf => Or.inl hf) (List.Subset.refl _) (fun r hr => Or.inl hr) ?_
    exact fun f _ hc => absurd (Thread.reconnects_of_watches hc) Bool.false_ne_true
  | unconnected peer =>
    refine h.move hget rfl trivial ?_
    exact fun f _ hc => absurd (Thread.reconnects_of_watches hc) Bool.false_ne_true
  | sent msg =>
    refine h.move hget rfl trivial ?_
    exact fun f _ hc => absurd (Thread.reconnects_of_watches hc) Bool.false_ne_true
  | skip peer rest msg hdown =>
    rw [hup] at hdown
    cases hdown
  | unlinked peer rest msg hconn =>
    refine h.fail hget rfl hth hth ?_
    exact fun f _ hc => absurd (Thread.reconnects_of_watches hc) Bool.false_ne_true
  | delayed peer rest msg conn hconn =>
    have hset : Tasks (s.threads.set i (.send rest msg)) s.reconnecting := h.tasks.set hget rfl
    have htasks : Tasks (s.threads.set i (.send rest msg) ++ [.write peer conn msg .done]) s.reconnecting :=
      hset.append rfl
    refine h.replace (Later.of_journal_eq rfl le_rfl (fun _ _ hc => Or.inl hc) rfl rfl fun _ hf => Or.inl hf) hget rfl
      htasks h.keyed hth ?_ (fun f hf => Or.inl hf) (List.Subset.refl _) (fun r hr => Or.inl hr) ?_
    · intro th' hth'
      rw [List.mem_singleton.mp hth']
      exact ⟨hth, trivial⟩
    · exact fun f _ hc => absurd (Thread.reconnects_of_watches hc) Bool.false_ne_true
  | linked peer rest msg conn hconn =>
    refine h.move hget rfl ⟨hth, hth⟩ ?_
    exact fun f _ hc => absurd (Thread.reconnects_of_watches hc) Bool.false_ne_true
  | wrote peer conn msg next =>
    refine h.move hget rfl hth.2 ?_
    exact fun f _ hc => absurd (Thread.reconnects_of_watches hc) Bool.false_ne_true
  | failed peer conn msg next =>
    refine h.fail hget rfl hth.2 hth.1 ?_
    exact fun f _ hc => absurd (Thread.reconnects_of_watches hc) Bool.false_ne_true
  | kicked peer failedAt next hrec =>
    have hset : Tasks (s.threads.set i next) s.reconnecting := h.tasks.set hget rfl
    have htasks : Tasks (s.threads.set i next ++ [.dial peer 0]) (insert peer s.reconnecting) := hset.start hrec 0
    have hlater : Later s ({ s.become i next with reconnecting := insert peer s.reconnecting }.spawn (.dial peer 0)) :=
      Later.of_journal_eq rfl le_rfl (fun _ _ hc => Or.inl hc) rfl rfl fun _ hf => Or.inl hf
    have hnext : next.Sound s := hth
    refine h.replace hlater hget rfl htasks h.keyed (hnext.later hlater) ?_
      (fun f hf => Or.inl hf) (List.Subset.refl _) (fun r hr => Or.inl hr) ?_
    · intro th' hth'
      rw [List.mem_singleton.mp hth']
      trivial
    · rintro f - (hc | ⟨later, next', hk, -⟩)
      · exact hc.elim
      · cases hk
        exact Or.inr (Or.inl ⟨.dial f.peer 0, List.mem_append_right _ (List.mem_singleton.mpr rfl), rfl⟩)
  | swallowed peer failedAt next hwhy =>
    have hlater := Later.become s i next
    have hnext : next.Sound s := hth
    refine h.replace hlater hget (List.append_nil _).symm (h.tasks.set hget rfl) h.keyed (hnext.later hlater)
      (fun _ hth => by cases hth) (fun f hf => Or.inl hf) (List.Subset.refl _) (fun r hr => Or.inl hr) ?_
    rintro f hf (hc | ⟨later, next', hk, hle⟩)
    · exact hc.elim
    · cases hk
      -- the task in the way covers the failure
      rcases hwhy with hdown | hpeer | hrec
      · rw [hup] at hdown
        cases hdown
      · exact absurd (h.failures f hf).1 hpeer
      · rcases ha hrec with ⟨th', hth', hc⟩ | ⟨r, hr, hpeer, hat⟩
        · rcases mem_set_or (i := i) (a := next) hth' with hset | hi
          · exact Or.inr (Or.inl ⟨th', hset, hc.of_le hle⟩)
          · rw [hget] at hi
            rw [← Option.some.inj hi] at hc
            exact hc.elim
        · exact Or.inr (Or.inr ⟨r, hr, hpeer, hle.trans hat⟩)
  | givenUp peer attempt hwhy =>
    rcases hwhy with hdown | ⟨max, hmax⟩
    · rw [hup] at hdown
      cases hdown
    · rw [hcfg] at hmax
      cases hmax
  | dialled peer attempt =>
    have hlater := Later.install s peer i (.resendJournal peer s.installs)
    refine h.replace hlater hget (List.append_nil _).symm (h.tasks.set hget rfl) h.keyed ⟨Nat.lt_succ_self _, fun c hc => ?_⟩
      (fun _ hth => by cases hth) (fun f hf => Or.inl hf) (List.Subset.refl _) (fun r hr => Or.inl hr) ?_
    · rw [show ((s.install peer).become i (.resendJournal peer s.installs)).out = s.out.insert peer s.installs from rfl,
        Std.ExtTreeMap.getElem?_insert_self] at hc
      exact (Option.some.inj hc).le
    · rintro f hf (rfl | ⟨later, next', hk, -⟩)
      · exact Or.inr (Or.inl ⟨_, mem_become hget (List.append_nil _).symm, rfl, (h.failures f hf).2.1⟩)
      · cases hk
  | again peer attempt =>
    refine h.move hget rfl trivial ?_
    rintro f - (hc | ⟨later, next, hk, -⟩)
    · exact hc
    · cases hk
  | copied peer conn =>
    refine h.move hget rfl ⟨hth, ⟨nofun, rfl⟩, fun f hf _ => (h.failures f hf).2.2.1, fun m hm => Or.inl hm⟩ ?_
    rintro f - (hc | ⟨later, next, hk, -⟩)
    · exact hc
    · cases hk
  | resent job =>
    obtain ⟨hfresh, htrack, hcopied, -⟩ := hth
    have hlater : Later s ({ s with resends := s.resends ++ [job] }.become i (.finish job.peer)) :=
      Later.of_journal_eq rfl le_rfl (fun _ _ hc => Or.inl hc) rfl rfl fun _ hf => Or.inl hf
    refine h.replace hlater hget (List.append_nil _).symm (h.tasks.set hget rfl) h.keyed trivial
      (fun _ hth => by cases hth) (fun f hf => Or.inl hf) (List.subset_append_left _ _) (fun r hr => ?_) ?_
    · rcases List.mem_append.mp hr with hr | hr
      · exact Or.inl hr
      · rw [List.mem_singleton.mp hr]
        refine Or.inr ⟨⟨?_, htrack.conn⟩, hfresh.1, hlater.copied hfresh.1 hcopied⟩
        rw [← htrack.journal, List.append_nil]
    · rintro f - (hc | ⟨later, next, hk, -⟩)
      · exact Or.inr (Or.inr ⟨job, List.mem_append_right _ (List.mem_singleton.mpr rfl), hc.1, hc.2⟩)
      · cases hk
  | resendUnlinked job msg rest =>
    obtain ⟨hfresh, htrack, hcopied, hkept⟩ := hth
    refine h.fail hget rfl trivial (hkept msg ?_) ?_
    · rw [← htrack.journal]
      exact List.mem_append_right _ List.mem_cons_self
    · rintro f - (hc | ⟨later, next, hk, -⟩)
      · exact hc.1.symm
      · cases hk
  | resendLinked job msg rest conn hconn =>
    obtain ⟨hfresh, htrack, hcopied, hkept⟩ := hth
    refine h.move hget rfl ⟨hfresh, hfresh.2 conn hconn, htrack, hcopied, hkept⟩ ?_
    rintro f - (hc | ⟨later, next, hk, -⟩)
    · exact hc
    · cases hk
  | rewrote job conn msg rest =>
    obtain ⟨hfresh, hconn, htrack, hcopied, hkept⟩ := hth
    refine h.move hget rfl ⟨hfresh, ⟨fun w hw => ?_, ?_⟩, hcopied, hkept⟩ ?_
    · rcases List.mem_append.mp hw with hw | hw
      · exact htrack.conn w hw
      · rw [List.mem_singleton.mp hw]
        exact hconn
    · rw [← htrack.journal]
      simp
    · rintro f - (hc | ⟨later, next, hk, -⟩)
      · exact hc
      · cases hk
  | resendFailed job conn msg rest =>
    obtain ⟨hfresh, hconn, htrack, hcopied, hkept⟩ := hth
    refine h.fail hget rfl trivial (hkept msg ?_) ?_
    · rw [← htrack.journal]
      exact List.mem_append_right _ List.mem_cons_self
    · rintro f - (hc | ⟨later, next, hk, -⟩)
      · exact hc.1.symm
      · cases hk
  | finished peer =>
    refine h.replace (Later.of_journal_eq rfl le_rfl (fun _ _ hc => Or.inl hc) rfl rfl fun _ hf => Or.inl hf) hget
      (List.append_nil _).symm (h.tasks.finish hget) h.keyed trivial (fun _ hth => by cases hth)
      (fun f hf => Or.inl hf) (List.Subset.refl _) (fun r hr => Or.inl hr) ?_
    exact fun f _ hc => absurd (Thread.reconnects_of_watches hc) Bool.false_ne_true

/-- A call starts a thread that is no reconnect task. -/
theorem Sound.call (h : Sound s) (hlater : Later s s') {th : Thread M} (hthreads : s'.threads = s.threads ++ [th])
    (htask : th.task = none) (hth : th.Sound s') (hreconnecting : s'.reconnecting = s.reconnecting)
    (hkeyed : ∀ sid, ∀ msg ∈ s'.entry sid, msg.sid = sid) (hfailures : s'.failures = s.failures)
    (hresends : s'.resends = s.resends) : Sound s' := by
  refine ⟨?_, hkeyed, fun th' hth' => ?_, fun f hf => ?_, fun r hr => ?_⟩
  · rw [hthreads, hreconnecting]
    exact h.tasks.append htask
  · rw [hthreads] at hth'
    rcases List.mem_append.mp hth' with hth' | hth'
    · exact (h.threads th' hth').later hlater
    · rw [List.mem_singleton.mp hth']
      exact hth
  · rw [hfailures] at hf
    obtain ⟨hpeer, hat, hkept, hwatched⟩ := h.failures f hf
    refine ⟨hlater.peers hpeer, hat.trans hlater.installs, hlater.kept _ hkept, ?_⟩
    have hsub : s.threads ⊆ s'.threads := hthreads ▸ List.subset_append_left _ _
    rcases hwatched with ⟨th', hth', hkicks⟩ | ⟨th', hth', hcovers⟩ | ⟨r, hr, hanswers⟩
    · exact Or.inl ⟨th', hsub hth', hkicks⟩
    · exact Or.inr (Or.inl ⟨th', hsub hth', hcovers⟩)
    · exact Or.inr (Or.inr ⟨r, hresends ▸ hr, hanswers⟩)
  · rw [hresends] at hr
    obtain ⟨hcomplete, hinstalled, hcopied⟩ := h.resends r hr
    exact ⟨hcomplete, hinstalled.trans_le hlater.installs, hlater.copied hinstalled hcopied⟩

theorem keyed_journalPush (h : ∀ sid, ∀ msg ∈ s.entry sid, msg.sid = sid) (msg : WireMessage M) :
    ∀ sid, ∀ m ∈ (s.journalPush msg).entry sid, m.sid = sid := by
  intro sid m hm
  rw [s.entry_journalPush] at hm
  split at hm
  · rename_i hsid
    rcases List.mem_append.mp hm with hm | hm
    · exact h sid m hm
    · rw [List.mem_singleton.mp hm]
      exact hsid
  · exact h sid m hm

theorem kept_journalPush (s : Mesh M) (msg : WireMessage M) :
    (∀ m, s.Kept m → (s.journalPush msg).Kept m) ∧ (s.journalPush msg).Kept msg := by
  refine ⟨fun m hm => hm.imp_left fun hin => ?_, Or.inl ?_⟩
  · rw [Mesh.mem_journaled] at hin ⊢
    obtain ⟨sid, hsid⟩ := hin
    refine ⟨sid, ?_⟩
    rw [s.entry_journalPush]
    split
    · exact List.mem_append_left _ hsid
    · exact hsid
  · rw [Mesh.mem_journaled]
    refine ⟨msg.sid, ?_⟩
    rw [s.entry_journalPush, if_pos rfl]
    exact List.mem_append_right _ (List.mem_singleton.mpr rfl)

/-- A message is journaled, then sent. -/
theorem Sound.push (h : Sound s) (msg : WireMessage M) (tos : List PartyId) (echoed : Finset SlotKey) :
    Sound ({ (s.journalPush msg) with echoed := echoed }.spawn (.send tos msg)) := by
  obtain ⟨hkept, hmsg⟩ := kept_journalPush s msg
  have hlater : Later s ({ (s.journalPush msg) with echoed := echoed }.spawn (.send tos msg)) :=
    ⟨List.Subset.refl _, le_rfl, fun _ _ hc => Or.inl hc, hkept, List.Subset.refl _, fun _ hf => Or.inl hf⟩
  exact h.call hlater rfl rfl hmsg rfl (keyed_journalPush h.keyed msg) rfl rfl

theorem Sound.retire (h : Sound s) (p : Bytes) : Sound (s.retireSession p) := by
  have hkept : ∀ m, s.Kept m → (s.retireSession p).Kept m := by
    rintro m (hm | ⟨q, hq, hpre⟩)
    · obtain ⟨sid, hsid⟩ := (s.mem_journaled m).mp hm
      by_cases hpre : p <+: sid
      · rw [← h.keyed sid m hsid] at hpre
        exact Or.inr ⟨p, List.mem_append_right _ (List.mem_singleton.mpr rfl), hpre⟩
      · refine Or.inl ((Mesh.mem_journaled _ m).mpr ⟨sid, ?_⟩)
        rw [s.entry_retireSession, if_neg hpre]
        exact hsid
    · exact Or.inr ⟨q, List.mem_append_left _ hq, hpre⟩
  have hlater : Later s (s.retireSession p) := ⟨List.Subset.refl _, le_rfl, fun _ _ hc => Or.inl hc, hkept,
    List.subset_append_left _ _, fun _ hf => Or.inl hf⟩
  refine ⟨h.tasks, fun sid m hm => ?_, fun th hth => (h.threads th hth).later hlater, fun f hf => ?_, fun r hr => ?_⟩
  · rw [s.entry_retireSession] at hm
    split at hm
    · cases hm
    · exact h.keyed sid m hm
  · obtain ⟨hpeer, hat, hk, hwatched⟩ := h.failures f hf
    exact ⟨hpeer, hat, hkept _ hk, hwatched⟩
  · obtain ⟨hcomplete, hinstalled, hcopied⟩ := h.resends r hr
    exact ⟨hcomplete, hinstalled, hlater.copied hinstalled hcopied⟩

/-- **One step** whose kicks are heeded. -/
theorem Sound.step {cfg : MeshConfig M} (hcfg : cfg.maxAttempts = none) (h : Sound s) (hup : s'.shutdown = false)
    (hup0 : s.shutdown = false) {a : MeshAction M} (ha : Heeded s a) (hstep : s.step cfg a = some s') : Sound s' := by
  cases a with
  | connect peer =>
    simp only [Mesh.step] at hstep
    split at hstep <;> obtain rfl := Option.some.inj hstep
    · exact h
    · have hpeers : s.peers ⊆ if peer ∈ s.peers then s.peers else s.peers.orderedInsert (· ≤ ·) peer := by
        split
        · exact List.Subset.refl _
        · exact fun p hp => (List.mem_orderedInsert (· ≤ ·)).mpr (Or.inr hp)
      exact h.call ⟨hpeers, le_rfl, fun _ _ hc => Or.inl hc, fun _ hm => hm, List.Subset.refl _, fun _ hf => Or.inl hf⟩
        rfl rfl trivial rfl h.keyed rfl rfl
  | send env =>
    simp only [Mesh.step] at hstep
    cases hto : env.envelope.addressee with
    | none =>
      rw [hto] at hstep
      obtain rfl := Option.some.inj hstep
      exact h.push _ _ s.echoed
    | some peer =>
      rw [hto] at hstep
      obtain rfl := Option.some.inj hstep
      split
      · exact h
      · exact h.push _ _ s.echoed
  | receive env =>
    simp only [Mesh.step] at hstep
    split at hstep
    · obtain rfl := Option.some.inj hstep
      exact h
    · split at hstep <;> obtain rfl := Option.some.inj hstep
      · exact h
      · exact h.push _ _ (insert (slotOf env.envelope) s.echoed)
  | retire p =>
    obtain rfl := Option.some.inj hstep
    exact h.retire p
  | dropOutgoing peer =>
    obtain rfl := Option.some.inj hstep
    refine h.call ⟨List.Subset.refl _, le_rfl, fun p c hc => Or.inl ?_, fun _ hm => hm, List.Subset.refl _,
      fun _ hf => Or.inl hf⟩ rfl rfl trivial rfl h.keyed rfl rfl
    have hout : (s.out.erase peer)[p]? = some c := hc
    rw [Std.ExtTreeMap.getElem?_erase] at hout
    split at hout
    · cases hout
    · exact hout
  | shutdown =>
    obtain rfl := Option.some.inj hstep
    cases hup
  | advance i ok => exact h.advance hcfg hup0 ha hstep

end Later

/-! ## Theorems -/

/-- **Failures are re-synced** in every run of a node that retries without limit and is
not shut down, where no kick after a failed write is swallowed by a task whose
connection was installed before the failure. -/
theorem resynced_of_heeded (cfg : MeshConfig M) (hcfg : cfg.maxAttempts = none) {acts : List (MeshAction M)}
    {s : Mesh M} (hrun : Run (Mesh.step cfg) Heeded Mesh.init acts s) (hup : s.shutdown = false) : Resynced s := by
  have hinit : Sound (Mesh.init : Mesh M) :=
    ⟨⟨fun _ _ _ h => (by simp [Mesh.init] at h), fun _ _ _ _ _ h => (by simp [Mesh.init] at h)⟩,
      fun sid msg hmsg => (by simp [Mesh.init, Mesh.entry] at hmsg), fun _ hth => (List.not_mem_nil hth).elim,
      fun _ hf => (List.not_mem_nil hf).elim, fun _ hr => (List.not_mem_nil hr).elim⟩
  have hsound := hrun.invariant (I := fun s => s.shutdown = false → Sound s)
    (fun s a s' h ha hstep hup' => (h (shutdown_of_step hstep hup')).step hcfg hup' (shutdown_of_step hstep hup') ha hstep)
    (fun _ => hinit) hup
  intro f hf hidle hkicked
  obtain ⟨-, -, -, hwatched⟩ := hsound.failures f hf
  -- no task of the peer is left, so a re-send is complete
  have hno : ∀ th ∈ s.threads, th.task ≠ some f.peer := by
    intro th hth htask
    obtain ⟨i, hi⟩ := List.mem_iff_getElem?.mp hth
    exact hidle (hsound.tasks.registered i th f.peer hi htask)
  rcases hwatched with ⟨th, hth, later, next, rfl, -⟩ | ⟨th, hth, hcovers⟩ | ⟨r, hr, hpeer, hat⟩
  · exact absurd hth (hkicked (some later) next)
  · refine absurd ?_ (hno th hth)
    cases th with
    | dial p attempt => exact congrArg some hcovers
    | resendJournal p conn => exact congrArg some hcovers.1
    | resend job rest => exact congrArg some hcovers.1
    | rewrite job conn msg rest => exact congrArg some hcovers.1
    | _ => exact hcovers.elim
  · obtain ⟨hcomplete, -, hcopied⟩ := hsound.resends r hr
    exact ⟨r, hr, hpeer, hat, hcomplete, hcopied f hf hat⟩

/-! A failed write to party 2, and the re-sync of it. -/

/-- A write to party 2 fails; its task dials, copies the journal and writes the share,
with this outcome. -/
def failAndResync (ok : Bool) : List (MeshAction Bytes) :=
  linkUp ++ [.send shareForTwo, .advance 2 true, .advance 2 false, .advance 2 true, .advance 3 true, .advance 3 true,
    .advance 3 true, .advance 3 ok, .advance 3 true, .advance 3 true]

/-- A failure that nothing will re-sync. -/
def Mesh.strands (s : Mesh M) : Bool :=
  !s.shutdown && s.resends.isEmpty && s.failures.any fun f => decide (f.peer ∉ s.reconnecting) &&
    s.threads.all fun th => match th with
      | .kick peer _ _ => peer != f.peer
      | _ => true

theorem not_resynced_of_strands {s : Mesh M} (h : s.strands = true) : s.shutdown = false ∧ ¬ Resynced s := by
  unfold Mesh.strands at h
  rw [Bool.and_eq_true, Bool.and_eq_true, Bool.not_eq_true', List.isEmpty_iff] at h
  obtain ⟨⟨hup, hnone⟩, hany⟩ := h
  refine ⟨hup, fun hresynced => ?_⟩
  obtain ⟨f, hf, hidle⟩ := List.any_eq_true.mp hany
  rw [Bool.and_eq_true, decide_eq_true_iff] at hidle
  obtain ⟨hidle, hthreads⟩ := hidle
  obtain ⟨r, hr, -⟩ := hresynced f hf hidle fun failedAt next hkick => by
    have := List.all_eq_true.mp hthreads _ hkick
    simp at this
  rw [hnone] at hr
  cases hr

theorem resynced_of_heeded_share : ∃ s, Run (Mesh.step oneConfig) Heeded Mesh.init (failAndResync true) s ∧
    s.failures ≠ [] ∧ Resynced s := by
  have hsome : ((failAndResync true).foldlM (fun s a => if Heeded s a then Mesh.step oneConfig s a else none)
      Mesh.init).any (fun s => !s.shutdown && !s.failures.isEmpty) = true := by
    decide +kernel
  obtain ⟨s, hs⟩ := Option.isSome_iff_exists.mp (Option.isSome_of_any hsome)
  rw [hs, Option.any_some, Bool.and_eq_true, Bool.not_eq_true', Bool.not_eq_true'] at hsome
  have hrun := (Run.iff_foldlM _ _ _).mpr hs
  refine ⟨s, hrun, fun hnil => ?_, resynced_of_heeded oneConfig rfl hrun hsome.1⟩
  rw [hnil] at hsome
  cases hsome.2

/-- The re-send fails, and its kick finds the failing task itself registered. -/
theorem resync_lost : oneConfig.maxAttempts = none ∧
    ∃ s, Run (Mesh.step oneConfig) (fun _ _ => True) Mesh.init (failAndResync false) s ∧ s.shutdown = false ∧
      ¬ Resynced s := by
  have hstrands : ((failAndResync false).foldlM (fun s a => if True then Mesh.step oneConfig s a else none)
      Mesh.init).any Mesh.strands = true := by
    decide +kernel
  obtain ⟨s, hs⟩ := Option.isSome_iff_exists.mp (Option.isSome_of_any hstrands)
  rw [hs, Option.any_some] at hstrands
  exact ⟨rfl, s, (Run.iff_foldlM _ _ _).mpr hs, not_resynced_of_strands hstrands⟩

end OhmEcdsa
