import OhmEcdsa.Node.Acceptor
import OhmEcdsa.Node.Codec

/-!
# A mesh node's links, journal and threads (`mesh.rs`)

Every message sent is journaled under its session id, then written to the peers'
connections.  A failed write starts at most one reconnect task for the peer, which
dials, installs the connection and re-sends the whole journal; `retire_session` drops
the journal entries whose session id starts with the finished one's.  The threads of a
node take turns between two locks.
-/

set_option linter.unusedSectionVars false

namespace OhmEcdsa

open Transition Acceptor

variable {M : Type}

/-! ## Algorithm: the node's state -/

/-- A complete pass of the journal to a peer, or one under way. -/
structure Resend (M : Type) where
  peer : PartyId
  /-- The connection its task installed. -/
  installed : Nat
  /-- The journal when the pass began. -/
  journal : List (WireMessage M)
  /-- What was written, on which connection. -/
  written : List (Nat × WireMessage M)

/-- What a thread does next. -/
inductive Thread (M : Type)
  /-- `Node::connect`: dial a peer at startup. -/
  | connect (peer : PartyId)
  /-- `send_raw` to each of these. -/
  | send (tos : List PartyId) (msg : WireMessage M)
  /-- `write_frame` on the connection it looked up. -/
  | write (peer : PartyId) (conn : Nat) (msg : WireMessage M) (next : Thread M)
  /-- `kick_reconnect`, and for the specification when the write failed. -/
  | kick (peer : PartyId) (failedAt : Option Nat) (next : Thread M)
  /-- `reconnect_loop` before the dial succeeds. -/
  | dial (peer : PartyId) (attempt : Nat)
  /-- `resend_journal` before it copies the journal. -/
  | resendJournal (peer : PartyId) (conn : Nat)
  | resend (job : Resend M) (rest : List (WireMessage M))
  | rewrite (job : Resend M) (conn : Nat) (msg : WireMessage M) (rest : List (WireMessage M))
  /-- A reconnect task about to leave `reconnecting`. -/
  | finish (peer : PartyId)
  | done
  deriving Inhabited

/-- A write to a peer of the dial set that failed or found no connection, and how many
connections had been installed by then. -/
structure Failure (M : Type) where
  peer : PartyId
  failedAt : Nat
  msg : WireMessage M

/-- A frame on a peer's connection. -/
structure Frame (M : Type) where
  peer : PartyId
  conn : Nat
  msg : WireMessage M

structure MeshConfig (M : Type) where
  me : PartyId
  maxAttempts : Option Nat
  /-- `send_delay` is not zero. -/
  delayed : Bool
  echoSignature : SignedEnvelope M → Bytes

/-- Connections are numbered in the order they are installed.  The last five fields
record for the specification what was journaled, retired, written, what failed and
which re-sends completed. -/
structure Mesh (M : Type) where
  peers : List PartyId
  out : PartyMap Nat
  installs : Nat
  reconnecting : Finset PartyId
  journal : Std.ExtTreeMap Bytes (List (WireMessage M))
  echoed : Finset SlotKey
  shutdown : Bool
  threads : List (Thread M)
  pushed : List (WireMessage M)
  retired : List Bytes
  written : List (Frame M)
  failures : List (Failure M)
  resends : List (Resend M)

def WireMessage.env : WireMessage M → SignedEnvelope M
  | .original env => env
  | .echo _ env _ => env

/-- The session a message is journaled under. -/
def WireMessage.sid (msg : WireMessage M) : Bytes := msg.env.envelope.sid

namespace Mesh

def init : Mesh M := ⟨[], ∅, 0, ∅, ∅, ∅, false, [], [], [], [], [], []⟩

def become (s : Mesh M) (i : Nat) (thread : Thread M) : Mesh M := { s with threads := s.threads.set i thread }

def spawn (s : Mesh M) (thread : Thread M) : Mesh M := { s with threads := s.threads ++ [thread] }

/-- A dialled connection goes into `out`. -/
def install (s : Mesh M) (peer : PartyId) : Mesh M :=
  { s with out := s.out.insert peer s.installs, installs := s.installs + 1 }

def entry (s : Mesh M) (sid : Bytes) : List (WireMessage M) := s.journal[sid]?.getD []

def journalPush (s : Mesh M) (msg : WireMessage M) : Mesh M :=
  { s with journal := s.journal.insert msg.sid (s.entry msg.sid ++ [msg]), pushed := s.pushed ++ [msg] }

/-- The journal as `resend_journal` copies it. -/
def journaled (s : Mesh M) : List (WireMessage M) := s.journal.toList.flatMap (·.2)

def retireSession (s : Mesh M) (sidPrefix : Bytes) : Mesh M :=
  { s with journal := s.journal.filter fun sid _ => !sidPrefix.isPrefixOf sid, retired := s.retired ++ [sidPrefix] }

def putFrame (s : Mesh M) (peer : PartyId) (conn : Nat) (msg : WireMessage M) : Mesh M :=
  { s with written := s.written ++ [⟨peer, conn, msg⟩] }

def recordFailure (s : Mesh M) (peer : PartyId) (msg : WireMessage M) : Mesh M :=
  if peer ∈ s.peers then { s with failures := s.failures ++ [⟨peer, s.installs, msg⟩] } else s

def kickReconnect (s : Mesh M) (peer : PartyId) : Mesh M :=
  if s.shutdown then s
  else if peer ∉ s.peers then s
  else if peer ∈ s.reconnecting then s
  else { s with reconnecting := insert peer s.reconnecting }.spawn (.dial peer 0)

def sendTo (s : Mesh M) (peer : PartyId) (msg : WireMessage M) : Mesh M := (s.journalPush msg).spawn (.send [peer] msg)

/-- To the connected peers and the dial set, each once. -/
def sendAll (s : Mesh M) (msg : WireMessage M) : Mesh M :=
  (s.journalPush msg).spawn (.send (s.out.keys ++ s.peers.filter (· ∉ s.out.keys)) msg)

/-! ## Algorithm: the threads' steps -/

/-- `ok` is the outcome of the write or the dial. -/
def advance (cfg : MeshConfig M) (s : Mesh M) (i : Nat) (ok : Bool) : Option (Mesh M) :=
  match s.threads[i]?.getD .done with
  | .connect peer => some ((if ok then s.install peer else s).become i .done)
  | .send [] _ => some (s.become i .done)
  | .send (peer :: rest) msg =>
    if s.shutdown then some (s.become i (.send rest msg))
    else
      match s.out[peer]? with
      | none => some ((s.recordFailure peer msg).become i (.kick peer (some s.installs) (.send rest msg)))
      | some conn =>
        if cfg.delayed then some ((s.become i (.send rest msg)).spawn (.write peer conn msg .done))
        else some (s.become i (.write peer conn msg (.send rest msg)))
  | .write peer conn msg next =>
    let s := s.putFrame peer conn msg
    if ok then some (s.become i next)
    else some ((s.recordFailure peer msg).become i (.kick peer (some s.installs) next))
  | .kick peer _ next => some ((s.become i next).kickReconnect peer)
  | .dial peer attempt =>
    if s.shutdown || cfg.maxAttempts.any (· ≤ attempt) then some (s.become i (.finish peer))
    else if ok then some ((s.install peer).become i (.resendJournal peer s.installs))
    else some (s.become i (.dial peer (attempt + 1)))
  | .resendJournal peer conn => some (s.become i (.resend ⟨peer, conn, s.journaled, []⟩ s.journaled))
  | .resend job [] => some ({ s with resends := s.resends ++ [job] }.become i (.finish job.peer))
  | .resend job (msg :: rest) =>
    match s.out[job.peer]? with
    | none => some ((s.recordFailure job.peer msg).become i (.kick job.peer (some s.installs) (.finish job.peer)))
    | some conn => some (s.become i (.rewrite job conn msg rest))
  | .rewrite job conn msg rest =>
    let s := s.putFrame job.peer conn msg
    if ok then some (s.become i (.resend { job with written := job.written ++ [(conn, msg)] } rest))
    else some ((s.recordFailure job.peer msg).become i (.kick job.peer (some s.installs) (.finish job.peer)))
  | .finish peer => some ({ s with reconnecting := s.reconnecting.erase peer }.become i .done)
  | .done => none

end Mesh

/-- The calls into the mesh, and one step of one of its threads. -/
inductive MeshAction (M : Type)
  | connect (peer : PartyId)
  /-- A driver's broadcast or P2P message. -/
  | send (env : SignedEnvelope M)
  /-- A verified broadcast of a peer, which the node echoes the first time. -/
  | receive (env : SignedEnvelope M)
  | retire (sid : Bytes)
  | dropOutgoing (peer : PartyId)
  | shutdown
  | advance (thread : Nat) (ok : Bool)

namespace Mesh

def step (cfg : MeshConfig M) (s : Mesh M) : MeshAction M → Option (Mesh M)
  | .connect peer =>
    if peer = cfg.me then some s
    else some ({ s with peers := if peer ∈ s.peers then s.peers else s.peers.orderedInsert (· ≤ ·) peer }.spawn
      (.connect peer))
  | .send env =>
    match env.envelope.addressee with
    | none => some (s.sendAll (.original env))
    -- a node's own copy never leaves it
    | some peer => some (if peer = cfg.me then s else s.sendTo peer (.original env))
  | .receive env =>
    if env.envelope.addressee ≠ none then some s
    else if slotOf env.envelope ∈ s.echoed then some s
    else some ({ s with echoed := insert (slotOf env.envelope) s.echoed }.sendAll
      (.echo cfg.me env (cfg.echoSignature env)))
  | .retire sid => some (s.retireSession sid)
  | .dropOutgoing peer => some ({ s with out := s.out.erase peer }.spawn (.kick peer none .done))
  | .shutdown => some { s with shutdown := true, out := ∅ }
  | .advance i ok => s.advance cfg i ok

end Mesh

/-! ## Lemmas -/

namespace Mesh

theorem entry_journalPush (s : Mesh M) (msg : WireMessage M) (sid : Bytes) :
    (s.journalPush msg).entry sid = if msg.sid = sid then s.entry sid ++ [msg] else s.entry sid := by
  unfold entry journalPush
  rw [Std.ExtTreeMap.getElem?_insert]
  by_cases h : msg.sid = sid
  · subst h
    simp [entry]
  · simp [h]

theorem entry_retireSession (s : Mesh M) (p sid : Bytes) :
    (s.retireSession p).entry sid = if p <+: sid then [] else s.entry sid := by
  unfold entry retireSession
  rw [Std.ExtTreeMap.getElem?_filter']
  have hb : p.isPrefixOf sid = decide (p <+: sid) := by
    rw [Bool.eq_iff_iff, List.isPrefixOf_iff_prefix, decide_eq_true_iff]
  rw [hb]
  by_cases h : p <+: sid <;> cases s.journal[sid]? <;> simp [h, Option.filter]

theorem mem_journaled (s : Mesh M) (msg : WireMessage M) : msg ∈ s.journaled ↔ ∃ sid, msg ∈ s.entry sid := by
  unfold journaled entry
  rw [List.mem_flatMap]
  constructor
  · rintro ⟨⟨sid, msgs⟩, he, hmsg⟩
    exact ⟨sid, by rw [Std.ExtTreeMap.mem_toList_iff_getElem?_eq_some.mp he]; exact hmsg⟩
  · rintro ⟨sid, hmsg⟩
    rcases hget : s.journal[sid]? with _ | msgs
    · rw [hget] at hmsg
      cases hmsg
    · rw [hget] at hmsg
      exact ⟨(sid, msgs), Std.ExtTreeMap.mem_toList_iff_getElem?_eq_some.mpr hget, hmsg⟩

end Mesh

/-- What one step of a thread can do. -/
inductive Advance (cfg : MeshConfig M) (s : Mesh M) (i : Nat) : Thread M → Mesh M → Prop
  | connected (peer : PartyId) : Advance cfg s i (.connect peer) ((s.install peer).become i .done)
  | unconnected (peer : PartyId) : Advance cfg s i (.connect peer) (s.become i .done)
  | sent (msg : WireMessage M) : Advance cfg s i (.send [] msg) (s.become i .done)
  | skip (peer : PartyId) (rest : List PartyId) (msg : WireMessage M) (hdown : s.shutdown = true) :
      Advance cfg s i (.send (peer :: rest) msg) (s.become i (.send rest msg))
  | unlinked (peer : PartyId) (rest : List PartyId) (msg : WireMessage M) (hnone : s.out[peer]? = none) :
      Advance cfg s i (.send (peer :: rest) msg)
        ((s.recordFailure peer msg).become i (.kick peer (some s.installs) (.send rest msg)))
  | delayed (peer : PartyId) (rest : List PartyId) (msg : WireMessage M) (conn : Nat)
      (hconn : s.out[peer]? = some conn) :
      Advance cfg s i (.send (peer :: rest) msg)
        ((s.become i (.send rest msg)).spawn (.write peer conn msg .done))
  | linked (peer : PartyId) (rest : List PartyId) (msg : WireMessage M) (conn : Nat)
      (hconn : s.out[peer]? = some conn) :
      Advance cfg s i (.send (peer :: rest) msg) (s.become i (.write peer conn msg (.send rest msg)))
  | wrote (peer : PartyId) (conn : Nat) (msg : WireMessage M) (next : Thread M) :
      Advance cfg s i (.write peer conn msg next) ((s.putFrame peer conn msg).become i next)
  | failed (peer : PartyId) (conn : Nat) (msg : WireMessage M) (next : Thread M) :
      Advance cfg s i (.write peer conn msg next) (((s.putFrame peer conn msg).recordFailure peer msg).become i
        (.kick peer (some s.installs) next))
  | kicked (peer : PartyId) (failedAt : Option Nat) (next : Thread M) (hrec : peer ∉ s.reconnecting) :
      Advance cfg s i (.kick peer failedAt next)
        ({ s.become i next with reconnecting := insert peer s.reconnecting }.spawn (.dial peer 0))
  | swallowed (peer : PartyId) (failedAt : Option Nat) (next : Thread M)
      (hwhy : s.shutdown = true ∨ peer ∉ s.peers ∨ peer ∈ s.reconnecting) :
      Advance cfg s i (.kick peer failedAt next) (s.become i next)
  | givenUp (peer : PartyId) (attempt : Nat) (hwhy : s.shutdown = true ∨ ∃ max, cfg.maxAttempts = some max) :
      Advance cfg s i (.dial peer attempt) (s.become i (.finish peer))
  | dialled (peer : PartyId) (attempt : Nat) :
      Advance cfg s i (.dial peer attempt) ((s.install peer).become i (.resendJournal peer s.installs))
  | again (peer : PartyId) (attempt : Nat) :
      Advance cfg s i (.dial peer attempt) (s.become i (.dial peer (attempt + 1)))
  | copied (peer : PartyId) (conn : Nat) :
      Advance cfg s i (.resendJournal peer conn) (s.become i (.resend ⟨peer, conn, s.journaled, []⟩ s.journaled))
  | resent (job : Resend M) :
      Advance cfg s i (.resend job []) ({ s with resends := s.resends ++ [job] }.become i (.finish job.peer))
  | resendUnlinked (job : Resend M) (msg : WireMessage M) (rest : List (WireMessage M)) :
      Advance cfg s i (.resend job (msg :: rest)) ((s.recordFailure job.peer msg).become i
        (.kick job.peer (some s.installs) (.finish job.peer)))
  | resendLinked (job : Resend M) (msg : WireMessage M) (rest : List (WireMessage M)) (conn : Nat)
      (hconn : s.out[job.peer]? = some conn) :
      Advance cfg s i (.resend job (msg :: rest)) (s.become i (.rewrite job conn msg rest))
  | rewrote (job : Resend M) (conn : Nat) (msg : WireMessage M) (rest : List (WireMessage M)) :
      Advance cfg s i (.rewrite job conn msg rest) ((s.putFrame job.peer conn msg).become i
        (.resend { job with written := job.written ++ [(conn, msg)] } rest))
  | resendFailed (job : Resend M) (conn : Nat) (msg : WireMessage M) (rest : List (WireMessage M)) :
      Advance cfg s i (.rewrite job conn msg rest) (((s.putFrame job.peer conn msg).recordFailure job.peer msg).become i
        (.kick job.peer (some s.installs) (.finish job.peer)))
  | finished (peer : PartyId) :
      Advance cfg s i (.finish peer) ({ s with reconnecting := s.reconnecting.erase peer }.become i .done)

theorem kickReconnect_cases (s : Mesh M) (peer : PartyId) :
    s.kickReconnect peer = s ∧ (s.shutdown = true ∨ peer ∉ s.peers ∨ peer ∈ s.reconnecting) ∨
      peer ∉ s.reconnecting ∧
        s.kickReconnect peer = { s with reconnecting := insert peer s.reconnecting }.spawn (.dial peer 0) := by
  unfold Mesh.kickReconnect
  by_cases hdown : s.shutdown = true
  · rw [if_pos hdown]
    exact Or.inl ⟨rfl, Or.inl hdown⟩
  · rw [if_neg hdown]
    by_cases hpeer : peer ∉ s.peers
    · rw [if_pos hpeer]
      exact Or.inl ⟨rfl, Or.inr (Or.inl hpeer)⟩
    · rw [if_neg hpeer]
      by_cases hrec : peer ∈ s.reconnecting
      · rw [if_pos hrec]
        exact Or.inl ⟨rfl, Or.inr (Or.inr hrec)⟩
      · rw [if_neg hrec]
        exact Or.inr ⟨hrec, rfl⟩

theorem advance_inv {cfg : MeshConfig M} {s s' : Mesh M} {i : Nat} {ok : Bool} (h : s.advance cfg i ok = some s') :
    ∃ th, s.threads[i]? = some th ∧ Advance cfg s i th s' := by
  rcases hget : s.threads[i]? with _ | th
  · simp [Mesh.advance, hget] at h
  · refine ⟨th, rfl, ?_⟩
    simp only [Mesh.advance, hget, Option.getD_some] at h
    cases th with
    | connect peer =>
      cases ok <;> obtain rfl := Option.some.inj h
      · exact .unconnected peer
      · exact .connected peer
    | send tos msg =>
      rcases tos with _ | ⟨peer, rest⟩
      · obtain rfl := Option.some.inj h
        exact .sent msg
      · by_cases hdown : s.shutdown = true
        · simp only [if_pos hdown] at h
          obtain rfl := Option.some.inj h
          exact .skip peer rest msg hdown
        · simp only [if_neg hdown] at h
          rcases hconn : s.out[peer]? with _ | conn
          · rw [hconn] at h
            obtain rfl := Option.some.inj h
            exact .unlinked peer rest msg hconn
          · rw [hconn] at h
            by_cases hdelayed : cfg.delayed = true
            · simp only [if_pos hdelayed] at h
              obtain rfl := Option.some.inj h
              exact .delayed peer rest msg conn hconn
            · simp only [if_neg hdelayed] at h
              obtain rfl := Option.some.inj h
              exact .linked peer rest msg conn hconn
    | write peer conn msg next =>
      cases ok <;> obtain rfl := Option.some.inj h
      · exact .failed peer conn msg next
      · exact .wrote peer conn msg next
    | kick peer failedAt next =>
      obtain rfl := Option.some.inj h
      rcases kickReconnect_cases (s.become i next) peer with ⟨heq, hwhy⟩ | ⟨hrec, heq⟩
      · rw [heq]
        exact .swallowed peer failedAt next hwhy
      · rw [heq]
        exact .kicked peer failedAt next hrec
    | dial peer attempt =>
      by_cases hup : (s.shutdown || cfg.maxAttempts.any (· ≤ attempt)) = true
      · simp only [if_pos hup] at h
        obtain rfl := Option.some.inj h
        refine .givenUp peer attempt ?_
        rw [Bool.or_eq_true, Option.any_eq_true] at hup
        exact hup.imp_right fun ⟨max, hmax, _⟩ => ⟨max, hmax⟩
      · simp only [if_neg hup] at h
        cases ok <;> obtain rfl := Option.some.inj h
        · exact .again peer attempt
        · exact .dialled peer attempt
    | resendJournal peer conn =>
      obtain rfl := Option.some.inj h
      exact .copied peer conn
    | resend job rest =>
      rcases rest with _ | ⟨msg, rest⟩
      · obtain rfl := Option.some.inj h
        exact .resent job
      · rcases hconn : s.out[job.peer]? with _ | conn
        · simp only [hconn] at h
          obtain rfl := Option.some.inj h
          exact .resendUnlinked job msg rest
        · simp only [hconn] at h
          obtain rfl := Option.some.inj h
          exact .resendLinked job msg rest conn hconn
    | rewrite job conn msg rest =>
      cases ok <;> obtain rfl := Option.some.inj h
      · exact .resendFailed job conn msg rest
      · exact .rewrote job conn msg rest
    | finish peer =>
      obtain rfl := Option.some.inj h
      exact .finished peer
    | done => cases h

theorem recordFailure_eq (s : Mesh M) (peer : PartyId) (msg : WireMessage M) :
    ∃ failures, s.recordFailure peer msg = { s with failures := failures } ∧
      (peer ∈ s.peers → failures = s.failures ++ [⟨peer, s.installs, msg⟩]) ∧
      (peer ∉ s.peers → failures = s.failures) := by
  unfold Mesh.recordFailure
  by_cases h : peer ∈ s.peers
  · rw [if_pos h]
    exact ⟨_, rfl, fun _ => rfl, fun hn => absurd h hn⟩
  · rw [if_neg h]
    exact ⟨s.failures, rfl, fun hp => absurd hp h, fun _ => rfl⟩

/-- What a thread does leaves the journal alone. -/
theorem advance_journal {cfg : MeshConfig M} {s s' : Mesh M} {i : Nat} {ok : Bool}
    (h : s.advance cfg i ok = some s') : s'.journal = s.journal ∧ s'.pushed = s.pushed ∧ s'.retired = s.retired ∧
      s'.shutdown = s.shutdown := by
  obtain ⟨th, -, hadvance⟩ := advance_inv h
  cases hadvance with
  | unlinked peer rest msg | resendUnlinked job msg rest | failed peer conn msg next | resendFailed job conn msg rest =>
    refine ⟨?_, ?_, ?_, ?_⟩ <;> (unfold Mesh.recordFailure; split <;> rfl)
  | _ => exact ⟨rfl, rfl, rfl, rfl⟩

theorem shutdown_of_step {cfg : MeshConfig M} {s s' : Mesh M} {a : MeshAction M} (hstep : s.step cfg a = some s')
    (hup : s'.shutdown = false) : s.shutdown = false := by
  cases a with
  | advance i ok =>
    rw [← (advance_journal hstep).2.2.2]
    exact hup
  | shutdown =>
    obtain rfl := Option.some.inj hstep
    cases hup
  | connect peer | send env | receive env | retire p | dropOutgoing peer =>
    simp only [Mesh.step] at hstep
    grind [Mesh.spawn, Mesh.journalPush, Mesh.sendAll, Mesh.sendTo, Mesh.retireSession]

end OhmEcdsa
