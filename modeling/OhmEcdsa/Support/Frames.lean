import OhmEcdsa.Support.Codec

/-!
# Logs of framed records

A log is a sequence of frames, `u32 BE length ‖ body`; a reader folds over the bodies
and fails at the first one it refuses or at a torn end.  A log it reads is a sequence
of whole frames:

    readLog step cut s b = ok s' ↔
      ∃ bodies, b is their frames and foldlM step s bodies = ok s'     (readLog_ok_iff)

A log with something other than whole frames at its end is not read at all
(`readLog_torn`).
-/

namespace Codec

/-! ## Algorithm -/

def frame (body : List UInt8) : List UInt8 := bigEndian 4 body.length ++ body

/-- Where a log ends too early. -/
inductive Cut
  | header
  | body

/-- The first frame of a log, and what follows. -/
inductive Front
  | done
  | cut (place : Cut)
  | body (body rest : List UInt8)

def front (b : List UInt8) : Front :=
  if b = [] then .done
  else if b.length < 4 then .cut .header
  else if b.length < 4 + ofBigEndian (b.take 4) then .cut .body
  else .body ((b.drop 4).take (ofBigEndian (b.take 4))) (b.drop (4 + ofBigEndian (b.take 4)))

section Read

variable {σ ε : Type} (step : σ → List UInt8 → Except ε σ) (cut : σ → Cut → ε)

/-- `while !rest.is_empty()`; every turn takes at least the header off. -/
def readFrames : Nat → σ → List UInt8 → Except ε σ
  | 0, s, _ => .ok s
  | fuel + 1, s, b =>
    match front b with
    | .done => .ok s
    | .cut c => .error (cut s c)
    | .body body rest => do
      let s ← step s body
      readFrames fuel s rest

def readLog (s : σ) (b : List UInt8) : Except ε σ := readFrames step cut (b.length + 1) s b

end Read

/-- The frames of the bodies, each short enough for its header. -/
def IsLog (bodies : List (List UInt8)) (b : List UInt8) : Prop :=
  (∀ body ∈ bodies, body.length < 2 ^ 32) ∧ b = bodies.flatMap frame

/-! ## Lemmas -/

theorem frame_length (body : List UInt8) : (frame body).length = 4 + body.length := by
  unfold frame
  rw [List.length_append, bigEndian_length]

theorem ofBigEndian_header {body : List UInt8} (h : body.length < 2 ^ 32) (rest : List UInt8) :
    ofBigEndian ((frame body ++ rest).take 4) = body.length := by
  have htake : (frame body ++ rest).take 4 = bigEndian 4 body.length := by
    unfold frame
    rw [List.append_assoc, List.take_append_of_le_length (by simp), List.take_of_length_le (by simp)]
  rw [htake, ofBigEndian_bigEndian, Nat.mod_eq_of_lt (by omega)]

theorem front_frame {body : List UInt8} (h : body.length < 2 ^ 32) (rest : List UInt8) :
    front (frame body ++ rest) = .body body rest := by
  have hlen : (frame body ++ rest).length = 4 + body.length + rest.length := by
    rw [List.length_append, frame_length]
  have hne : frame body ++ rest ≠ [] := by
    rw [← List.length_pos_iff, hlen]
    omega
  unfold front
  rw [if_neg hne, if_neg (by omega), ofBigEndian_header h, if_neg (by omega)]
  congr 1
  · unfold frame
    rw [List.append_assoc, List.drop_append_of_le_length (by simp), List.drop_of_length_le (by simp), List.nil_append,
      List.take_append_of_le_length le_rfl, List.take_length]
  · rw [← frame_length, List.drop_append_of_le_length le_rfl, List.drop_length, List.nil_append]

/-- What `front` finds is at the front. -/
theorem of_front_body {b body rest : List UInt8} (h : front b = .body body rest) :
    b = frame body ++ rest ∧ body.length < 2 ^ 32 ∧ rest.length < b.length := by
  unfold front at h
  split at h
  · cases h
  · split at h
    · cases h
    · next hne hheader =>
      split at h
      · cases h
      · next hbody =>
        simp only [Front.body.injEq] at h
        obtain ⟨rfl, rfl⟩ := h
        have hheader4 : (b.take 4).length = 4 := by
          rw [List.length_take]
          omega
        have hlt := ofBigEndian_lt (b.take 4)
        rw [hheader4] at hlt
        have hlen : ((b.drop 4).take (ofBigEndian (b.take 4))).length = ofBigEndian (b.take 4) := by
          rw [List.length_take, List.length_drop]
          omega
        have hback := bigEndian_ofBigEndian (b.take 4)
        rw [hheader4] at hback
        refine ⟨?_, by omega, by rw [List.length_drop]; omega⟩
        unfold frame
        rw [hlen, hback, ← List.drop_drop, List.append_assoc, List.take_append_drop, List.take_append_drop]

section Read

variable {σ ε : Type} (step : σ → List UInt8 → Except ε σ) (cut : σ → Cut → ε)

/-- Fuel beyond the length changes nothing. -/
theorem readFrames_fuel (fuel fuel' : Nat) (s : σ) (b : List UInt8) (h : b.length < fuel) (h' : b.length < fuel') :
    readFrames step cut fuel s b = readFrames step cut fuel' s b := by
  induction fuel generalizing fuel' s b with
  | zero => omega
  | succ fuel ih =>
    cases fuel' with
    | zero => omega
    | succ fuel' =>
      unfold readFrames
      cases hfront : front b with
      | done => rfl
      | cut c => rfl
      | body body rest =>
        obtain ⟨-, -, hrest⟩ := of_front_body hfront
        simp only [bind, Except.bind]
        cases step s body with
        | error e => rfl
        | ok s' => exact ih fuel' s' rest (by omega) (by omega)

theorem readLog_frame {body : List UInt8} (h : body.length < 2 ^ 32) (s : σ) (rest : List UInt8) :
    readLog step cut s (frame body ++ rest) = (step s body).bind fun s => readLog step cut s rest := by
  have hlen : (frame body ++ rest).length = 4 + body.length + rest.length := by
    rw [List.length_append, frame_length]
  unfold readLog
  rw [readFrames, front_frame h]
  simp only [bind]
  cases step s body with
  | error e => rfl
  | ok s' => exact readFrames_fuel step cut _ _ s' rest (by omega) (by omega)

/-- **Whole frames are folded over**, whatever follows them. -/
theorem readLog_frames {bodies : List (List UInt8)} (h : ∀ body ∈ bodies, body.length < 2 ^ 32) (s : σ)
    (rest : List UInt8) : readLog step cut s (bodies.flatMap frame ++ rest) =
      (bodies.foldlM step s).bind fun s => readLog step cut s rest := by
  induction bodies generalizing s with
  | nil => rfl
  | cons body bodies ih =>
    rw [List.flatMap_cons, List.append_assoc, readLog_frame step cut (h body List.mem_cons_self), List.foldlM_cons]
    simp only [bind]
    cases step s body with
    | error e => rfl
    | ok s' => exact ih (fun b hb => h b (List.mem_cons_of_mem _ hb)) s'

theorem readFrames_ok {fuel : Nat} {s s' : σ} {b : List UInt8} (hfuel : b.length < fuel)
    (h : readFrames step cut fuel s b = .ok s') : ∃ bodies, IsLog bodies b ∧ bodies.foldlM step s = .ok s' := by
  induction fuel generalizing s b with
  | zero => omega
  | succ fuel ih =>
    unfold readFrames at h
    cases hfront : front b with
    | done =>
      rw [hfront] at h
      have hnil : b = [] := by
        unfold front at hfront
        split at hfront
        · assumption
        · split at hfront
          · cases hfront
          · split at hfront <;> cases hfront
      exact ⟨[], ⟨fun _ hb => (List.not_mem_nil hb).elim, by rw [hnil]; rfl⟩, h⟩
    | cut c =>
      rw [hfront] at h
      cases h
    | body body rest =>
      obtain ⟨rfl, hbody, hrest⟩ := of_front_body hfront
      rw [hfront] at h
      simp only [bind, Except.bind] at h
      cases hstep : step s body with
      | error e =>
        rw [hstep] at h
        cases h
      | ok s1 =>
        rw [hstep] at h
        obtain ⟨bodies, ⟨hbodies, rfl⟩, hfold⟩ := ih (by omega) h
        refine ⟨body :: bodies, ⟨List.forall_mem_cons.mpr ⟨hbody, hbodies⟩, rfl⟩, ?_⟩
        rw [List.foldlM_cons, hstep]
        exact hfold

/-- **What a log is read as**: whole frames, each accepted. -/
theorem readLog_ok_iff {s s' : σ} {b : List UInt8} :
    readLog step cut s b = .ok s' ↔ ∃ bodies, IsLog bodies b ∧ bodies.foldlM step s = .ok s' := by
  constructor
  · exact readFrames_ok step cut (Nat.lt_succ_self _)
  · rintro ⟨bodies, ⟨hbodies, rfl⟩, hfold⟩
    have hread := readLog_frames step cut hbodies s []
    rw [List.append_nil, hfold] at hread
    exact hread

/-- **A torn last frame** makes the reader fail. -/
theorem readLog_torn {bodies : List (List UInt8)} (h : ∀ body ∈ bodies, body.length < 2 ^ 32) (s : σ)
    {body : List UInt8} (hbody : body.length < 2 ^ 32) {k : Nat} (hk : 0 < k) (hcut : k < (frame body).length) :
    ∃ e, readLog step cut s (bodies.flatMap frame ++ (frame body).take k) = .error e := by
  rw [readLog_frames step cut h]
  cases bodies.foldlM step s with
  | error e => exact ⟨e, rfl⟩
  | ok s' =>
    have hlen : ((frame body).take k).length = k := by
      rw [List.length_take]
      omega
    have hfront : ∃ c, front ((frame body).take k) = .cut c := by
      have hne : (frame body).take k ≠ [] := by
        rw [← List.length_pos_iff, hlen]
        exact hk
      unfold front
      rw [if_neg hne, hlen]
      by_cases h4 : k < 4
      · exact ⟨.header, if_pos h4⟩
      · have hheader := ofBigEndian_header hbody []
        rw [List.append_nil] at hheader
        rw [frame_length] at hcut
        rw [if_neg h4, List.take_take, min_eq_left (by omega), hheader, if_pos hcut]
        exact ⟨.body, rfl⟩
    obtain ⟨c, hc⟩ := hfront
    refine ⟨cut s' c, ?_⟩
    show readLog step cut s' _ = _
    unfold readLog readFrames
    rw [hc]

end Read

end Codec
