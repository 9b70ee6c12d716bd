import OhmEcdsa.Core.Secp256k1
import OhmEcdsa.Node.Acceptance

/-!
# Frames on a byte stream (`wire.rs`, `mesh.rs`)

A frame is its length in four bytes, then the message.  The reader loop polls with a
read timeout and starts the next frame afresh after one, so the bytes of a frame it had
begun are lost.  For the frames of an honest peer, however the stream is cut into reads:

    readerLoop .. stream = frames  ↔  no timeout falls inside a frame     (reader_lossless_iff)
-/

set_option linter.unusedSectionVars false

namespace OhmEcdsa

open Codec Decoder

/-! ## Algorithm: reads -/

/-- What the reader meets, in order: a byte, the end of what one `read` returns, a read
timeout (`WouldBlock`, `TimedOut`) or an interrupted call; after the last, end of file. -/
inductive ReadEvent
  | byte (x : UInt8)
  | cut
  | timeout
  | interrupted
  deriving DecidableEq

inductive ReadResult
  | ok (got : Bytes)
  | timeout
  | interrupted

/-- At most `n` bytes, up to the next event that is none. -/
def takeRun : Nat → List ReadEvent → Bytes × List ReadEvent
  | n + 1, .byte x :: s => (x :: (takeRun n s).1, (takeRun n s).2)
  | _, s => ([], s)

/-- `r.read(buf)` into `n` free bytes. -/
def read (n : Nat) : List ReadEvent → ReadResult × List ReadEvent
  | [] => (.ok [], [])
  | .cut :: s => read n s
  | .timeout :: s => (.timeout, s)
  | .interrupted :: s => (.interrupted, s)
  | .byte x :: s => (.ok (x :: (takeRun (n - 1) s).1), (takeRun (n - 1) s).2)

inductive Filled
  | full (buf : Bytes)
  /-- End of file after these bytes. -/
  | eof (done : Bytes)
  | timeout

theorem takeRun_length (n : Nat) (s : List ReadEvent) : (takeRun n s).2.length ≤ s.length := by
  induction n, s using takeRun.induct with
  | case1 n x s ih =>
    rw [takeRun]
    exact ih.trans (Nat.le_succ _)
  | case2 n s h =>
    rw [takeRun]
    exact h

/-- A read that does not find the end of file moves on. -/
theorem read_length (n : Nat) (s : List ReadEvent) (h : (read n s).1 ≠ .ok []) :
    (read n s).2.length < s.length := by
  induction s with
  | nil => exact absurd rfl h
  | cons e s ih =>
    cases e with
    | cut => exact (ih h).trans (Nat.lt_succ_self _)
    | timeout | interrupted => exact Nat.lt_succ_self _
    | byte x => exact Nat.lt_succ_of_le (takeRun_length (n - 1) s)

/-- The loop of `read_exact` and `read_exact_or_eof` on a buffer of `n` bytes. -/
def fill (n : Nat) (done : Bytes) (s : List ReadEvent) : Filled × List ReadEvent :=
  if done.length < n then
    match h : read (n - done.length) s with
    | (.ok [], s') => (.eof done, s')
    | (.ok (x :: got), s') =>
      have : s'.length < s.length := by
        have := read_length (n - done.length) s (by rw [h]; simp)
        rwa [h] at this
      fill n (done ++ x :: got) s'
    | (.interrupted, s') =>
      have : s'.length < s.length := by
        have := read_length (n - done.length) s (by rw [h]; simp)
        rwa [h] at this
      fill n done s'
    | (.timeout, s') => (.timeout, s')
  else (.full done, s)
termination_by s.length

/-! ## Algorithm: frames -/

section Frames

variable {M : Type}

inductive FrameResult (M : Type)
  | frame (msg : WireMessage M) (len : Nat)
  | closed
  | timeout
  | failed

def readFrame (decode : Decoder (WireMessage M)) (maxFrame : Nat) (s : List ReadEvent) :
    FrameResult M × List ReadEvent :=
  match fill 4 [] s with
  | (.eof done, s) => (if done = [] then .closed else .failed, s)
  | (.timeout, s) => (.timeout, s)
  | (.full hdr, s) =>
    if ofBigEndian hdr > maxFrame then (.failed, s)
    else
      match fill (ofBigEndian hdr) [] s with
      | (.eof _, s) => (.failed, s)
      | (.timeout, s) => (.timeout, s)
      | (.full buf, s) =>
        match decode.run buf with
        | none => (.failed, s)
        | some (msg, used) => if used ≠ buf.length then (.failed, s) else (.frame msg buf.length, s)

/-- The bounds the reader enforces; `limited k` says that the connection's `k`-th frame
finds its one-second window full. -/
structure ReaderConfig (M : Type) where
  maxFrame : Nat
  variantMax : WireMessage M → Nat
  limited : Nat → Bool

def frameBytes (payloadBytes : M → Bytes) (msg : WireMessage M) : Bytes :=
  bigEndian 4 (msg.encode payloadBytes).length ++ msg.encode payloadBytes

/-! ## Lemmas: one frame -/

def ReadEvent.bytes : ReadEvent → Bytes
  | .byte x => [x]
  | _ => []

/-- The bytes the peer wrote. -/
def bytesOf (s : List ReadEvent) : Bytes := s.flatMap ReadEvent.bytes

theorem bytesOf_append (s s' : List ReadEvent) : bytesOf (s ++ s') = bytesOf s ++ bytesOf s' := List.flatMap_append

theorem takeRun_spec (n : Nat) (s : List ReadEvent) :
    ∃ run, s = run ++ (takeRun n s).2 ∧ bytesOf run = (takeRun n s).1 ∧ .timeout ∉ run ∧ (takeRun n s).1.length ≤ n := by
  induction n, s using takeRun.induct with
  | case1 n x s ih =>
    obtain ⟨run, hs, hbytes, hnot, hlen⟩ := ih
    rw [takeRun]
    exact ⟨.byte x :: run, congrArg _ hs, congrArg (x :: ·) hbytes, by simp [hnot], Nat.succ_le_succ hlen⟩
  | case2 n s h =>
    rw [takeRun]
    · exact ⟨[], rfl, rfl, List.not_mem_nil, Nat.zero_le _⟩
    · exact h

/-- What a read took off the stream. -/
def ReadSpec (n : Nat) (s : List ReadEvent) : ReadResult × List ReadEvent → Prop
  | (.ok got, s') => (got = [] → s' = [] ∧ bytesOf s = [] ∧ .timeout ∉ s) ∧
      ∃ run, s = run ++ s' ∧ bytesOf run = got ∧ .timeout ∉ run ∧ got.length ≤ n
  | (.interrupted, s') => ∃ run, s = run ++ s' ∧ bytesOf run = [] ∧ .timeout ∉ run
  | (.timeout, s') => ∃ run, s = run ++ .timeout :: s' ∧ bytesOf run = [] ∧ .timeout ∉ run

theorem read_spec {n : Nat} (hn : 0 < n) (s : List ReadEvent) : ReadSpec n s (read n s) := by
  induction s with
  | nil => exact ⟨fun _ => ⟨rfl, rfl, List.not_mem_nil⟩, [], rfl, rfl, List.not_mem_nil, Nat.zero_le _⟩
  | cons e s ih =>
    cases e with
    | timeout => exact ⟨[], rfl, rfl, List.not_mem_nil⟩
    | interrupted => exact ⟨[.interrupted], rfl, rfl, by simp⟩
    | byte x =>
      obtain ⟨run, hs, hbytes, hnot, hlen⟩ := takeRun_spec (n - 1) s
      refine ⟨fun h => (by cases h), .byte x :: run, congrArg _ hs, congrArg (x :: ·) hbytes, by simp [hnot], ?_⟩
      rw [List.length_cons]
      omega
    | cut =>
      rw [read]
      rcases hread : read n s with ⟨got | _ | _, s'⟩ <;> rw [hread] at ih
      · obtain ⟨heof, run, hs, hbytes, hnot, hlen⟩ := ih
        refine ⟨fun h => ?_, .cut :: run, congrArg _ hs, hbytes, by simp [hnot], hlen⟩
        obtain ⟨h1, h2, h3⟩ := heof h
        exact ⟨h1, h2, by simp [h3]⟩
      · obtain ⟨run, hs, hbytes, hnot⟩ := ih
        exact ⟨.cut :: run, congrArg _ hs, hbytes, by simp [hnot]⟩
      · obtain ⟨run, hs, hbytes, hnot⟩ := ih
        exact ⟨.cut :: run, congrArg _ hs, hbytes, by simp [hnot]⟩

/-- What filling a buffer took off the stream. -/
def FillSpec (n : Nat) (done : Bytes) (s : List ReadEvent) : Filled × List ReadEvent → Prop
  | (.full buf, s') => ∃ run, s = run ++ s' ∧ done ++ bytesOf run = buf ∧ buf.length = n ∧ .timeout ∉ run
  | (.eof d, _) => d = done ++ bytesOf s ∧ d.length < n ∧ .timeout ∉ s
  | (.timeout, s') => ∃ run, s = run ++ .timeout :: s' ∧ (done ++ bytesOf run).length < n ∧ .timeout ∉ run

/-- A read's events, before what the rest of the loop took. -/
theorem FillSpec.prepend {n : Nat} {done got : Bytes} {run s' : List ReadEvent} (hbytes : bytesOf run = got)
    (hnot : .timeout ∉ run) : ∀ {r : Filled × List ReadEvent}, FillSpec n (done ++ got) s' r → FillSpec n done (run ++ s') r
  | (.full buf, s''), ⟨run', hs, hbuf, hlen, hnot'⟩ =>
    ⟨run ++ run', by rw [hs, List.append_assoc], by rw [bytesOf_append, hbytes, ← List.append_assoc, hbuf], hlen,
      by simp [hnot, hnot']⟩
  | (.eof d, s''), ⟨hd, hlen, hnot'⟩ =>
    ⟨by rw [bytesOf_append, hbytes, ← List.append_assoc, hd], hlen, by simp [hnot, hnot']⟩
  | (.timeout, s''), ⟨run', hs, hlen, hnot'⟩ =>
    ⟨run ++ run', by rw [hs, List.append_assoc], by rw [bytesOf_append, hbytes, ← List.append_assoc]; exact hlen,
      by simp [hnot, hnot']⟩

theorem fill_read {n : Nat} {done : Bytes} (h : done.length < n) (s : List ReadEvent) :
    fill n done s = match read (n - done.length) s with
      | (.ok [], s') => (.eof done, s')
      | (.ok (x :: got), s') => fill n (done ++ x :: got) s'
      | (.interrupted, s') => fill n done s'
      | (.timeout, s') => (.timeout, s') := by
  rw [fill, if_pos h]
  split <;> rename_i hread <;> simp only [hread]

theorem fill_spec (n : Nat) (done : Bytes) (s : List ReadEvent) (h : done.length ≤ n) :
    FillSpec n done s (fill n done s) := by
  induction hk : s.length using Nat.strong_induction_on generalizing done s with
  | _ k ih =>
  by_cases hlt : done.length < n
  · have hspec := read_spec (Nat.sub_pos_of_lt hlt) s
    have hmoves := read_length (n - done.length) s
    rw [fill_read hlt]
    rcases hread : read (n - done.length) s with ⟨(_ | ⟨x, got⟩) | _ | _, s'⟩ <;> rw [hread] at hspec hmoves
    · obtain ⟨-, hbytes, hnot⟩ := hspec.1 rfl
      exact ⟨by rw [hbytes, List.append_nil], hlt, hnot⟩
    · obtain ⟨-, run, rfl, hbytes, hnot, hlen⟩ := hspec
      have hfits : (done ++ x :: got).length ≤ n := by
        rw [List.length_append]
        omega
      exact (ih s'.length (hk ▸ hmoves (by simp)) _ s' hfits rfl).prepend hbytes hnot
    · obtain ⟨run, rfl, hbytes, hnot⟩ := hspec
      exact ⟨run, rfl, by rw [hbytes, List.append_nil]; exact hlt, hnot⟩
    · obtain ⟨run, rfl, hbytes, hnot⟩ := hspec
      have hrest := ih s'.length (hk ▸ hmoves (by simp)) done s' h rfl
      rw [← List.append_nil done] at hrest
      have hdone := FillSpec.prepend hbytes hnot hrest
      rw [List.append_nil] at hdone
      exact hdone
  · rw [fill, if_neg hlt]
    exact ⟨[], rfl, List.append_nil _, by omega, List.not_mem_nil⟩

/-- What reading a frame took off the stream. -/
def FrameSpec (payloadBytes : M → Bytes) (s : List ReadEvent) : FrameResult M × List ReadEvent → Prop
  | (.frame msg len, s') => ∃ run, s = run ++ s' ∧ .timeout ∉ run ∧ bytesOf run = frameBytes payloadBytes msg ∧
      len = (msg.encode payloadBytes).length
  | (.timeout, s') => ∃ run, s = run ++ .timeout :: s' ∧ .timeout ∉ run
  | _ => True

variable {payloadBytes : M → Bytes} {decode : Decoder (WireMessage M)} {FitsM : WireMessage M → Prop}

theorem readFrame_spec (hcodec : Lawful (WireMessage.encode payloadBytes) decode FitsM) (maxFrame : Nat)
    (s : List ReadEvent) : FrameSpec payloadBytes s (readFrame decode maxFrame s) := by
  unfold readFrame
  have hhdr := fill_spec 4 [] s (Nat.zero_le _)
  rcases hfill : fill 4 [] s with ⟨hdr | done | _, s1⟩ <;> rw [hfill] at hhdr
  · obtain ⟨run, rfl, hbytes, hlen, hnot⟩ := hhdr
    rw [List.nil_append] at hbytes
    simp only
    by_cases hmax : ofBigEndian hdr > maxFrame
    · rw [if_pos hmax]
      trivial
    · rw [if_neg hmax]
      have hbody := fill_spec (ofBigEndian hdr) [] s1 (Nat.zero_le _)
      rcases hfill' : fill (ofBigEndian hdr) [] s1 with ⟨buf | done | _, s2⟩ <;> rw [hfill'] at hbody
      · obtain ⟨run', rfl, hbytes', hlen', hnot'⟩ := hbody
        rw [List.nil_append] at hbytes'
        simp only
        rcases hdecode : decode.run buf with _ | ⟨msg, used⟩
        · trivial
        · by_cases hused : used ≠ buf.length
          · simp only [if_pos hused]
            trivial
          · simp only [if_neg hused]
            rw [not_not] at hused
            obtain ⟨-, -, hencode⟩ := (lawful_iff_canonical.mp hcodec).encode_decode buf msg used hdecode
            rw [hused, List.take_length] at hencode
            refine ⟨run ++ run', by rw [List.append_assoc], by simp [hnot, hnot'], ?_, by rw [hencode]⟩
            rw [bytesOf_append, hbytes, hbytes', frameBytes, hencode, hlen', ← hlen, bigEndian_ofBigEndian]
      · trivial
      · obtain ⟨run', rfl, -, hnot'⟩ := hbody
        exact ⟨run ++ run', by rw [List.append_assoc], by simp [hnot, hnot']⟩
  · simp only
    split <;> trivial
  · obtain ⟨run, rfl, -, hnot⟩ := hhdr
    exact ⟨run, rfl, hnot⟩

theorem frameBytes_length (msg : WireMessage M) :
    (frameBytes payloadBytes msg).length = 4 + (msg.encode payloadBytes).length := by
  rw [frameBytes, List.length_append, bigEndian_length]

/-- Unless the stream ends or is dropped, the reader moves on. -/
theorem readFrame_length (decode : Decoder (WireMessage M)) (maxFrame : Nat) (s : List ReadEvent)
    (h : (readFrame decode maxFrame s).1 ≠ .closed) (h' : (readFrame decode maxFrame s).1 ≠ .failed) :
    (readFrame decode maxFrame s).2.length < s.length := by
  unfold readFrame at h h' ⊢
  have hhdr := fill_spec 4 [] s (Nat.zero_le _)
  rcases hfill : fill 4 [] s with ⟨hdr | done | _, s1⟩ <;> rw [hfill] at hhdr <;> simp only [hfill] at h h' ⊢
  · obtain ⟨run, rfl, hbytes, hlen, -⟩ := hhdr
    have hrun : s1.length < (run ++ s1).length := by
      rcases run with _ | ⟨e, run⟩
      · rw [show hdr = [] from hbytes.symm] at hlen
        cases hlen
      · simp
    by_cases hmax : ofBigEndian hdr > maxFrame
    · simp only [if_pos hmax] at h'
      exact absurd rfl h'
    · simp only [if_neg hmax] at h h' ⊢
      have hbody := fill_spec (ofBigEndian hdr) [] s1 (Nat.zero_le _)
      rcases hfill' : fill (ofBigEndian hdr) [] s1 with ⟨buf | d | _, s2⟩ <;> rw [hfill'] at hbody <;>
        simp only [hfill'] at h h' ⊢
      · obtain ⟨run', rfl, -⟩ := hbody
        have hrest : s2.length ≤ (run' ++ s2).length := by simp
        split
        · exact hrest.trans_lt hrun
        · split <;> exact hrest.trans_lt hrun
      · exact absurd rfl h'
      · obtain ⟨run', rfl, -⟩ := hbody
        simp at hrun ⊢
        omega
  · by_cases hdone : done = []
    · exact absurd (if_pos hdone) h
    · exact absurd (if_neg hdone) h'
  · obtain ⟨run, rfl, -⟩ := hhdr
    simp
    omega

/-! ## Algorithm: the reader loop -/

/-- What the loop hands on; `k` frames were read before. -/
def readerLoop (cfg : ReaderConfig M) (decode : Decoder (WireMessage M)) (k : Nat) (s : List ReadEvent) :
    List (WireMessage M) :=
  match h : readFrame decode cfg.maxFrame s with
  | (.frame msg len, s') =>
    if cfg.limited k then []
    else if len > cfg.variantMax msg then []
    else
      have : s'.length < s.length := by
        have := readFrame_length decode cfg.maxFrame s (by rw [h]; simp) (by rw [h]; simp)
        rwa [h] at this
      msg :: readerLoop cfg decode (k + 1) s'
  | (.closed, _) => []
  -- `READ_POLL` tick
  | (.timeout, s') =>
    have : s'.length < s.length := by
      have := readFrame_length decode cfg.maxFrame s (by rw [h]; simp) (by rw [h]; simp)
      rwa [h] at this
    readerLoop cfg decode k s'
  | (.failed, _) => []
termination_by s.length

theorem readerLoop_eq (cfg : ReaderConfig M) (decode : Decoder (WireMessage M)) (k : Nat) (s : List ReadEvent) :
    readerLoop cfg decode k s = match readFrame decode cfg.maxFrame s with
      | (.frame msg len, s') =>
        if cfg.limited k then [] else if len > cfg.variantMax msg then [] else msg :: readerLoop cfg decode (k + 1) s'
      | (.closed, _) => []
      | (.timeout, s') => readerLoop cfg decode k s'
      | (.failed, _) => [] := by
  rw [readerLoop]
  split <;> rename_i h <;> simp only [h]

/-! ## Specification -/

/-- No read timeout falls inside a frame. -/
def Whole (payloadBytes : M → Bytes) (frames : List (WireMessage M)) (s : List ReadEvent) : Prop :=
  ∀ before after, s = before ++ .timeout :: after →
    ∃ k, bytesOf before = (frames.take k).flatMap (frameBytes payloadBytes)

/-- What an honest peer writes, within the reader's bounds. -/
structure HonestFrames (cfg : ReaderConfig M) (payloadBytes : M → Bytes) (FitsM : WireMessage M → Prop)
    (frames : List (WireMessage M)) : Prop where
  fits : ∀ msg ∈ frames, FitsM msg
  frame : ∀ msg ∈ frames, (msg.encode payloadBytes).length < 2 ^ 32
  maxFrame : ∀ msg ∈ frames, (msg.encode payloadBytes).length ≤ cfg.maxFrame
  variantMax : ∀ msg ∈ frames, (msg.encode payloadBytes).length ≤ cfg.variantMax msg
  limited : ∀ k, cfg.limited k = false

/-! ## Lemmas: runs of frames -/

/-- A timeout is not in the events before it. -/
theorem split_timeout {run s before after : List ReadEvent} (hnot : .timeout ∉ run)
    (h : run ++ s = before ++ .timeout :: after) : ∃ between, before = run ++ between ∧ s = between ++ .timeout :: after := by
  rcases List.append_eq_append_iff.mp h with ⟨between, hbefore, hs⟩ | ⟨_ | ⟨e, rest⟩, hrun, hs⟩
  · exact ⟨between, hbefore, hs⟩
  · rw [List.append_nil] at hrun
    exact ⟨[], by rw [hrun, List.append_nil], hs.symm⟩
  · obtain ⟨rfl, -⟩ := List.cons.inj hs
    rw [hrun] at hnot
    exact absurd (List.mem_append_right _ List.mem_cons_self) hnot

/-- The reader hands on no more bytes than came; where it hands on all of them, no
timeout fell inside a frame. -/
theorem readerLoop_bytes (hcodec : Lawful (WireMessage.encode payloadBytes) decode FitsM) (cfg : ReaderConfig M)
    (k : Nat) (s : List ReadEvent) :
    ((readerLoop cfg decode k s).flatMap (frameBytes payloadBytes)).length ≤ (bytesOf s).length ∧
      (((readerLoop cfg decode k s).flatMap (frameBytes payloadBytes)).length = (bytesOf s).length →
        Whole payloadBytes (readerLoop cfg decode k s) s) := by
  induction hk : s.length using Nat.strong_induction_on generalizing k s with
  | _ n ih =>
  -- nothing was handed on, and nothing came
  have hnil : bytesOf s = [] → Whole payloadBytes (M := M) [] s := by
    rintro hs before after rfl
    rw [bytesOf_append, List.append_eq_nil_iff] at hs
    exact ⟨0, hs.1⟩
  have hstop : ((([] : List (WireMessage M)).flatMap (frameBytes payloadBytes)).length ≤ (bytesOf s).length ∧
      (((([] : List (WireMessage M)).flatMap (frameBytes payloadBytes)).length = (bytesOf s).length) →
        Whole payloadBytes (M := M) [] s)) :=
    ⟨Nat.zero_le _, fun h => hnil (List.eq_nil_of_length_eq_zero h.symm)⟩
  have hspec := readFrame_spec hcodec cfg.maxFrame s
  have hmoves := readFrame_length decode cfg.maxFrame s
  rw [readerLoop_eq]
  rcases hread : readFrame decode cfg.maxFrame s with ⟨⟨msg, len⟩ | _ | _ | _, s'⟩ <;> rw [hread] at hspec hmoves
  · obtain ⟨run, rfl, hnot, hbytes, rfl⟩ := hspec
    simp only
    split
    · exact hstop
    · split
      · exact hstop
      · obtain ⟨hle, hwhole⟩ := ih s'.length (hk ▸ hmoves (by simp) (by simp)) (k + 1) s' rfl
        rw [bytesOf_append, hbytes, List.flatMap_cons, List.length_append, List.length_append]
        refine ⟨Nat.add_le_add_left hle _, fun heq before after hsplit => ?_⟩
        obtain ⟨between, rfl, hs'⟩ := split_timeout hnot hsplit
        obtain ⟨j, hj⟩ := hwhole (Nat.add_left_cancel heq) between after hs'
        exact ⟨j + 1, by rw [bytesOf_append, hbytes, hj, List.take_succ_cons, List.flatMap_cons]⟩
  · exact hstop
  · obtain ⟨run, rfl, hnot⟩ := hspec
    simp only
    obtain ⟨hle, hwhole⟩ := ih s'.length (hk ▸ hmoves (by simp) (by simp)) k s' rfl
    have hbytes : bytesOf (run ++ .timeout :: s') = bytesOf run ++ bytesOf s' := bytesOf_append _ _
    rw [hbytes, List.length_append]
    refine ⟨hle.trans (Nat.le_add_left _ _), fun heq before after hsplit => ?_⟩
    have hrun : bytesOf run = [] := List.eq_nil_of_length_eq_zero (by omega)
    obtain ⟨between, rfl, hrest⟩ := split_timeout hnot hsplit
    rcases between with _ | ⟨e, between⟩
    · exact ⟨0, by rw [List.append_nil]; exact hrun⟩
    · obtain ⟨rfl, hs'⟩ := List.cons.inj hrest
      obtain ⟨j, hj⟩ := hwhole (by omega) between after hs'
      exact ⟨j, by rw [bytesOf_append, hrun]; exact hj⟩
  · exact hstop

/-- A timeout before the first frame's end is before its first byte. -/
theorem Whole.before_frame {frames : List (WireMessage M)} {run rest : List ReadEvent}
    (h : Whole payloadBytes frames (run ++ .timeout :: rest))
    (hlt : ∀ msg ∈ frames.head?, (bytesOf run).length < (frameBytes payloadBytes msg).length) : bytesOf run = [] := by
  obtain ⟨k, hk⟩ := h run rest rfl
  rcases frames with _ | ⟨msg, frames⟩
  · simpa using hk
  · rcases k with _ | k
    · exact hk
    · have := hlt msg rfl
      rw [hk, List.take_succ_cons, List.flatMap_cons, List.length_append] at this
      omega

theorem Whole.skip {frames : List (WireMessage M)} {run s : List ReadEvent} (h : Whole payloadBytes frames (run ++ s))
    (hrun : bytesOf run = []) : Whole payloadBytes frames s := by
  rintro before after rfl
  obtain ⟨k, hk⟩ := h (run ++ before) after (by rw [List.append_assoc])
  exact ⟨k, by rw [← hk, bytesOf_append, hrun, List.nil_append]⟩

theorem Whole.tail {msg : WireMessage M} {frames : List (WireMessage M)} {run s : List ReadEvent}
    (h : Whole payloadBytes (msg :: frames) (run ++ s)) (hrun : bytesOf run = frameBytes payloadBytes msg) :
    Whole payloadBytes frames s := by
  rintro before after rfl
  obtain ⟨k, hk⟩ := h (run ++ before) after (by rw [List.append_assoc])
  rw [bytesOf_append, hrun] at hk
  rcases k with _ | k
  · have := congrArg List.length hk
    rw [List.length_append, frameBytes_length] at this
    simp at this
  · rw [List.take_succ_cons, List.flatMap_cons] at hk
    exact ⟨k, List.append_cancel_left hk⟩

/-- The reader at the start of a frame. -/
theorem readFrame_of_whole (hcodec : Lawful (WireMessage.encode payloadBytes) decode FitsM) {cfg : ReaderConfig M}
    {frames : List (WireMessage M)} (hhonest : HonestFrames cfg payloadBytes FitsM frames) (s : List ReadEvent)
    (hbytes : bytesOf s = frames.flatMap (frameBytes payloadBytes)) (hwhole : Whole payloadBytes frames s) :
    (frames = [] ∧ (readFrame decode cfg.maxFrame s).1 = .closed) ∨
    (∃ run s', s = run ++ .timeout :: s' ∧ bytesOf run = [] ∧ readFrame decode cfg.maxFrame s = (.timeout, s')) ∨
    ∃ msg rest run s', frames = msg :: rest ∧ s = run ++ s' ∧ bytesOf run = frameBytes payloadBytes msg ∧
      readFrame decode cfg.maxFrame s = (.frame msg (msg.encode payloadBytes).length, s') := by
  have hhdr := fill_spec 4 [] s (Nat.zero_le _)
  rcases hfill : fill 4 [] s with ⟨hdr | done | _, s1⟩ <;> rw [hfill] at hhdr
  · obtain ⟨run, rfl, hrun, hlen, hnot⟩ := hhdr
    rw [List.nil_append] at hrun
    rcases frames with _ | ⟨msg, rest⟩
    · -- four bytes of nothing
      rw [bytesOf_append, hrun, List.flatMap_nil, List.append_eq_nil_iff] at hbytes
      rw [hbytes.1] at hlen
      cases hlen
    have hmsg : msg ∈ msg :: rest := List.mem_cons_self
    rw [bytesOf_append, hrun, List.flatMap_cons, frameBytes, List.append_assoc] at hbytes
    obtain ⟨rfl, hbody⟩ := List.append_inj hbytes (hlen.trans (bigEndian_length 4 _).symm)
    have hval : ofBigEndian (bigEndian 4 (msg.encode payloadBytes).length) = (msg.encode payloadBytes).length :=
      (ofBigEndian_bigEndian 4 _).trans (Nat.mod_eq_of_lt (hhonest.frame msg hmsg))
    have hmax : ¬ (msg.encode payloadBytes).length > cfg.maxFrame := not_lt.mpr (hhonest.maxFrame msg hmsg)
    have hbodyspec := fill_spec (msg.encode payloadBytes).length [] s1 (Nat.zero_le _)
    rcases hfill' : fill (msg.encode payloadBytes).length [] s1 with ⟨buf | d | _, s2⟩ <;> rw [hfill'] at hbodyspec
    · obtain ⟨run', rfl, hrun', hlen', -⟩ := hbodyspec
      rw [List.nil_append] at hrun'
      rw [bytesOf_append, hrun'] at hbody
      obtain ⟨rfl, -⟩ := List.append_inj hbody hlen'
      have hdecode := (lawful_iff_canonical.mp hcodec).decode_encode msg (hhonest.fits msg hmsg) []
      rw [List.append_nil] at hdecode
      refine Or.inr (Or.inr ⟨msg, rest, run ++ run', s2, rfl, by rw [List.append_assoc], ?_, ?_⟩)
      · rw [bytesOf_append, hrun, hrun', frameBytes]
      · unfold readFrame
        simp only [hfill, hval, if_neg hmax, hfill', hdecode, ne_eq, not_true_eq_false, if_false]
    · obtain ⟨rfl, hshort, -⟩ := hbodyspec
      rw [List.nil_append, hbody, List.length_append] at hshort
      omega
    · obtain ⟨run', rfl, hshort, -⟩ := hbodyspec
      rw [List.nil_append] at hshort
      -- the timeout is inside the frame
      rw [← List.append_assoc] at hwhole
      have hnil := hwhole.before_frame (by
        rintro _ ⟨⟩
        rw [bytesOf_append, hrun, List.length_append, frameBytes_length, bigEndian_length]
        omega)
      rw [bytesOf_append, hrun, List.append_eq_nil_iff] at hnil
      have := congrArg List.length hnil.1
      rw [bigEndian_length] at this
      cases this
  · obtain ⟨rfl, hshort, -⟩ := hhdr
    rw [List.nil_append] at hshort
    rcases frames with _ | ⟨msg, rest⟩
    · refine Or.inl ⟨rfl, ?_⟩
      have hnil : [] ++ bytesOf s = [] := hbytes
      unfold readFrame
      simp only [hfill, if_pos hnil]
    · rw [hbytes, List.flatMap_cons, List.length_append, frameBytes_length] at hshort
      omega
  · obtain ⟨run, rfl, hshort, -⟩ := hhdr
    rw [List.nil_append] at hshort
    refine Or.inr (Or.inl ⟨run, s1, rfl, hwhole.before_frame fun msg _ => ?_, ?_⟩)
    · rw [frameBytes_length]
      omega
    · unfold readFrame
      simp only [hfill]

/-- Without a torn frame every frame is handed on. -/
theorem readerLoop_of_whole (hcodec : Lawful (WireMessage.encode payloadBytes) decode FitsM) {cfg : ReaderConfig M}
    {frames : List (WireMessage M)} (hhonest : HonestFrames cfg payloadBytes FitsM frames) (k : Nat) (s : List ReadEvent)
    (hbytes : bytesOf s = frames.flatMap (frameBytes payloadBytes)) (hwhole : Whole payloadBytes frames s) :
    readerLoop cfg decode k s = frames := by
  induction hk : s.length using Nat.strong_induction_on generalizing k s frames with
  | _ n ih =>
  rw [readerLoop_eq]
  rcases readFrame_of_whole hcodec hhonest s hbytes hwhole with
    ⟨rfl, hclosed⟩ | ⟨run, s', rfl, hrun, hread⟩ | ⟨msg, rest, run, s', rfl, rfl, hrun, hread⟩
  · rcases hread : readFrame decode cfg.maxFrame s with ⟨r, s'⟩
    rw [hread] at hclosed
    obtain rfl : r = .closed := hclosed
    rfl
  · rw [hread]
    have hskip : bytesOf (run ++ [.timeout]) = [] := by rw [bytesOf_append, hrun]; rfl
    rw [List.append_cons] at hwhole hbytes
    rw [bytesOf_append, hskip, List.nil_append] at hbytes
    exact ih s'.length (by rw [← hk]; simp; omega) hhonest k s' hbytes (hwhole.skip hskip) rfl
  · rw [hread]
    have hmsg : msg ∈ msg :: rest := List.mem_cons_self
    have hvariant : ¬ (msg.encode payloadBytes).length > cfg.variantMax msg := not_lt.mpr (hhonest.variantMax msg hmsg)
    simp only [hhonest.limited k, if_neg hvariant, Bool.false_eq_true, if_false]
    rw [bytesOf_append, hrun, List.flatMap_cons] at hbytes
    have hrest : HonestFrames cfg payloadBytes FitsM rest :=
      ⟨fun m hm => hhonest.fits m (List.mem_cons_of_mem _ hm), fun m hm => hhonest.frame m (List.mem_cons_of_mem _ hm),
        fun m hm => hhonest.maxFrame m (List.mem_cons_of_mem _ hm),
        fun m hm => hhonest.variantMax m (List.mem_cons_of_mem _ hm), hhonest.limited⟩
    have hshort : s'.length < n := by
      have hpos : 0 < run.length := by
        rw [List.length_pos_iff]
        rintro rfl
        have := congrArg List.length hrun
        rw [frameBytes_length] at this
        exact absurd this (by simp [bytesOf]; omega)
      rw [← hk, List.length_append]
      omega
    rw [ih s'.length hshort hrest (k + 1) s' (List.append_cancel_left hbytes) (hwhole.tail hrun) rfl]

end Frames

/-! ## Theorems -/

section NodeFrames

variable (F G : Type) [Field F] [DecidableEq F] [AddCommGroup G] [Module F G] [DecidableEq G] [K256 F G]
  [WireFormat F G]

/-- The reader of a node's connections. -/
def nodeReader (cfg : ReaderConfig (NodePayload F G)) (s : List ReadEvent) : List (WireMessage (NodePayload F G)) :=
  readerLoop cfg (WireMessage.decode F G (NodePayload.decode F G)) 0 s

/-- **Framing is lossless exactly where no timeout falls inside a frame**: of the bytes
of an honest peer's frames, however they are cut into reads, the reader loop hands on
those frames, in order. -/
theorem reader_lossless_iff (cfg : ReaderConfig (NodePayload F G)) (frames : List (WireMessage (NodePayload F G)))
    (s : List ReadEvent) (hbytes : bytesOf s = frames.flatMap (frameBytes NodePayload.encode))
    (hhonest : HonestFrames cfg NodePayload.encode (WireMessage.Fits F G NodePayload.encode NodePayload.Fits) frames) :
    nodeReader F G cfg s = frames ↔ Whole NodePayload.encode frames s := by
  have hcodec : Lawful (WireMessage.encode NodePayload.encode) (WireMessage.decode F G (NodePayload.decode F G))
      (WireMessage.Fits F G NodePayload.encode NodePayload.Fits) := WireMessage.decode_lawful NodePayload.decode_lawful
  constructor
  · intro hread
    obtain ⟨-, hwhole⟩ := readerLoop_bytes hcodec cfg 0 s
    have heq : readerLoop cfg (WireMessage.decode F G (NodePayload.decode F G)) 0 s = frames := hread
    rw [heq, hbytes] at hwhole
    exact hwhole rfl
  · exact readerLoop_of_whole hcodec hhonest 0 s hbytes

end NodeFrames

/-! Party 1's empty complaint list, as one frame. -/

section Example

open Secp256k1

def complaintFrame : WireMessage (NodePayload Scalar Point) := .original emptyComplaints

def openReader : ReaderConfig (NodePayload Scalar Point) := ⟨2 ^ 16, fun _ => 2 ^ 16, fun _ => false⟩

theorem complaintFrame_length : (complaintFrame.encode NodePayload.encode).length = 104 := by decide +kernel

theorem complaintFrame_honest : HonestFrames openReader NodePayload.encode
    (WireMessage.Fits Scalar Point NodePayload.encode NodePayload.Fits) [complaintFrame] := by
  have hall : ∀ msg ∈ [complaintFrame], msg = complaintFrame := fun msg hmsg => List.mem_singleton.mp hmsg
  refine ⟨fun msg hmsg => ?_, fun msg hmsg => ?_, fun msg hmsg => ?_, fun msg hmsg => ?_, fun _ => rfl⟩ <;>
    rw [hall msg hmsg]
  · exact emptyComplaints_fits
  all_goals
    rw [complaintFrame_length]
    decide

/-- The stream with each byte a read of its own, and a timeout at both ends. -/
def bytewise (b : Bytes) : List ReadEvent := .timeout :: (b.flatMap fun x => [.byte x, .cut]) ++ [.timeout]

theorem bytesOf_flatMap (b : Bytes) : bytesOf (b.flatMap fun x => [.byte x, .cut]) = b := by
  induction b with
  | nil => rfl
  | cons x b ih => exact congrArg (x :: ·) ih

theorem reader_lossless_bytewise : nodeReader Scalar Point openReader
    (bytewise (frameBytes NodePayload.encode complaintFrame)) = [complaintFrame] := by
  have hbytes : ∀ b : Bytes, bytesOf (bytewise b) = b := by
    intro b
    have h : bytesOf (bytewise b) = [] ++ bytesOf (b.flatMap fun x => [.byte x, .cut]) ++ [] := by
      rw [bytewise, bytesOf_append]
      rfl
    rw [h, bytesOf_flatMap, List.nil_append, List.append_nil]
  have hone : [complaintFrame].flatMap (frameBytes NodePayload.encode) =
      frameBytes NodePayload.encode complaintFrame := List.append_nil _
  refine (reader_lossless_iff Scalar Point openReader [complaintFrame] _ ((hbytes _).trans hone.symm)
    complaintFrame_honest).mpr fun before after hsplit => ?_
  have hnot : ReadEvent.timeout ∉ (frameBytes NodePayload.encode complaintFrame).flatMap fun x => [.byte x, .cut] := by
    simp
  rcases before with _ | ⟨e, before⟩
  · exact ⟨0, rfl⟩
  · have hcons : .timeout :: (((frameBytes NodePayload.encode complaintFrame).flatMap fun x => [.byte x, .cut]) ++
        [.timeout]) = e :: (before ++ .timeout :: after) := hsplit
    obtain ⟨rfl, hrest⟩ := List.cons.inj hcons
    obtain ⟨between, rfl, hend⟩ := split_timeout hnot hrest
    rcases between with _ | ⟨e, between⟩
    · refine ⟨1, ?_⟩
      rw [List.append_nil, List.take_one, List.head?_cons, Option.toList_some, hone]
      exact bytesOf_flatMap _
    · obtain ⟨-, hnil⟩ := List.cons.inj hend
      simp at hnil

/-- A timeout after the first byte loses the frame. -/
theorem torn_frame_lost : ∃ s, bytesOf s = [complaintFrame].flatMap (frameBytes NodePayload.encode) ∧
    HonestFrames openReader NodePayload.encode (WireMessage.Fits Scalar Point NodePayload.encode NodePayload.Fits)
      [complaintFrame] ∧ nodeReader Scalar Point openReader s ≠ [complaintFrame] := by
  obtain ⟨x, rest, hframe⟩ : ∃ x rest, frameBytes NodePayload.encode complaintFrame = x :: rest := ⟨_, _, rfl⟩
  have hone : [complaintFrame].flatMap (frameBytes NodePayload.encode) = x :: rest := (List.append_nil _).trans hframe
  have hmap : ∀ b : Bytes, bytesOf (b.map ReadEvent.byte) = b := by
    intro b
    induction b with
    | nil => rfl
    | cons x b ih => exact congrArg (x :: ·) ih
  have hbytes : bytesOf (.byte x :: .timeout :: rest.map ReadEvent.byte) =
      [complaintFrame].flatMap (frameBytes NodePayload.encode) := by
    rw [hone]
    exact congrArg (x :: ·) (hmap rest)
  refine ⟨_, hbytes, complaintFrame_honest, fun hread => ?_⟩
  have hwhole := (reader_lossless_iff Scalar Point openReader _ _ hbytes complaintFrame_honest).mp hread
  have hshort : (bytesOf [.byte x]).length < (frameBytes NodePayload.encode complaintFrame).length := by
    rw [frameBytes_length]
    exact Nat.lt_of_lt_of_le (show 1 < 4 by decide) (Nat.le_add_right 4 _)
  have hsplit : Whole NodePayload.encode [complaintFrame] ([.byte x] ++ .timeout :: rest.map .byte) := hwhole
  have hnil := hsplit.before_frame (by
    rintro _ ⟨⟩
    exact hshort)
  cases hnil

end Example

end OhmEcdsa
