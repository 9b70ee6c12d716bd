import OhmEcdsa.Node.Codec
import OhmEcdsa.Support.Frames

/-!
# The transcript of accepted envelopes (`store/persist.rs`)

The archive appends each accepted envelope as one frame.  The store's cross-check reads
the ids named by the Sign-phase shares of a log, and reads none of them unless the whole
log is intact:

    signEvidenceIds log = some ids ↔
      ∃ envs, TranscriptOf envs log ∧ ids = the ids the Sign shares of envs name     (signEvidenceIds_iff)
-/

set_option linter.unusedSectionVars false

namespace OhmEcdsa

open Codec

variable {F G : Type} [Field F] [DecidableEq F] [AddCommGroup G] [Module F G] [DecidableEq G] [K256 F G]
  [WireFormat F G]

/-! ## Algorithm -/

/-- Why a transcript does not read. -/
inductive TranscriptError
  | truncated
  | malformed
  deriving DecidableEq

/-- What `log_accepted` writes for one envelope. -/
def transcriptEntry (env : SignedEnvelope (NodePayload F G)) : Bytes := frame (env.encode NodePayload.encode)

variable (F G) in
def readTranscript (log : Bytes) : Except TranscriptError (List (SignedEnvelope (NodePayload F G))) :=
  readLog (fun out body =>
    match (SignedEnvelope.decode F G (NodePayload.decode F G)).exactly body with
    | some env => .ok (out ++ [env])
    | none => .error .malformed) (fun _ _ => .truncated) [] log

/-- The id a Sign-phase share names. -/
def signEvidence (env : SignedEnvelope (NodePayload F G)) : Option U64 :=
  match env.envelope.phase, env.envelope.payload with
  | .sign, .signShare id _ => some id
  | _, _ => none

variable (F G) in
/-- `sign_evidence_ids`: nothing when the log is missing or unreadable. -/
def signEvidenceIds (log : Option Bytes) : Option (List U64) :=
  match log with
  | none => none
  | some log =>
    match readTranscript F G log with
    | .ok entries => some (entries.filterMap signEvidence)
    | .error _ => none

/-! ## Specification -/

/-- The entries of the envelopes and nothing else: no torn end, no other bytes. -/
structure TranscriptOf (envs : List (SignedEnvelope (NodePayload F G))) (log : Bytes) : Prop where
  fits : ∀ env ∈ envs, env.Fits F G NodePayload.encode NodePayload.Fits
  small : ∀ env ∈ envs, (env.encode NodePayload.encode).length < 2 ^ 32
  log : log = envs.flatMap transcriptEntry

/-! ## Lemmas -/

theorem envelope_exactly (body : Bytes) (env : SignedEnvelope (NodePayload F G)) :
    (SignedEnvelope.decode F G (NodePayload.decode F G)).exactly body = some env ↔
      env.Fits F G NodePayload.encode NodePayload.Fits ∧ body = env.encode NodePayload.encode :=
  Reads.exactly (SignedEnvelope.decode_reads fun m _ => NodePayload.decode_lawful (F := F) (G := G) m) env

theorem foldlM_envelopes (bodies : List Bytes) (out envs : List (SignedEnvelope (NodePayload F G))) :
    bodies.foldlM (fun out body =>
      match (SignedEnvelope.decode F G (NodePayload.decode F G)).exactly body with
      | some env => .ok (out ++ [env])
      | none => .error .malformed :
        List (SignedEnvelope (NodePayload F G)) → Bytes → Except TranscriptError _) out = .ok envs ↔
      ∃ new, envs = out ++ new ∧ (∀ env ∈ new, env.Fits F G NodePayload.encode NodePayload.Fits) ∧
        bodies = new.map (SignedEnvelope.encode NodePayload.encode) := by
  induction bodies generalizing out with
  | nil =>
    constructor
    · rintro ⟨⟩
      exact ⟨[], (List.append_nil _).symm, fun _ h => (List.not_mem_nil h).elim, rfl⟩
    · rintro ⟨new, rfl, -, hnil⟩
      rw [List.map_eq_nil_iff.mp hnil.symm, List.append_nil]
      rfl
  | cons body bodies ih =>
    rw [List.foldlM_cons]
    constructor
    · intro h
      cases hdecode : (SignedEnvelope.decode F G (NodePayload.decode F G)).exactly body with
      | none =>
        rw [hdecode] at h
        cases h
      | some env =>
        rw [hdecode] at h
        obtain ⟨hfits, rfl⟩ := (envelope_exactly body env).mp hdecode
        obtain ⟨new, rfl, hnew, rfl⟩ := (ih _).mp h
        exact ⟨env :: new, by simp, List.forall_mem_cons.mpr ⟨hfits, hnew⟩, rfl⟩
    · rintro ⟨new, rfl, hnew, hbodies⟩
      obtain ⟨env, new', rfl, rfl, rfl⟩ := List.map_eq_cons_iff.mp hbodies.symm
      obtain ⟨hfits, hnew⟩ := List.forall_mem_cons.mp hnew
      rw [(envelope_exactly _ env).mpr ⟨hfits, rfl⟩]
      refine (ih _).mpr ⟨new', ?_, hnew, rfl⟩
      rw [List.append_assoc, List.singleton_append]

/-- **A transcript reads** exactly when it is whole entries. -/
theorem readTranscript_iff (log : Bytes) (envs : List (SignedEnvelope (NodePayload F G))) :
    readTranscript F G log = .ok envs ↔ TranscriptOf envs log := by
  unfold readTranscript
  rw [readLog_ok_iff]
  constructor
  · rintro ⟨bodies, ⟨hsmall, rfl⟩, hfold⟩
    obtain ⟨new, rfl, hfits, rfl⟩ := (foldlM_envelopes bodies [] envs).mp hfold
    refine ⟨hfits, fun env henv => hsmall _ (List.mem_map_of_mem henv), ?_⟩
    rw [List.flatMap_map]
    rfl
  · rintro ⟨hfits, hsmall, rfl⟩
    refine ⟨envs.map (SignedEnvelope.encode NodePayload.encode), ⟨fun body hbody => ?_, ?_⟩,
      (foldlM_envelopes _ [] envs).mpr ⟨envs, rfl, hfits, rfl⟩⟩
    · obtain ⟨env, henv, rfl⟩ := List.mem_map.mp hbody
      exact hsmall env henv
    · rw [List.flatMap_map]
      rfl

/-- **What the cross-check reads.** -/
theorem signEvidenceIds_iff (log : Bytes) (ids : List U64) : signEvidenceIds F G (some log) = some ids ↔
    ∃ envs : List (SignedEnvelope (NodePayload F G)), TranscriptOf envs log ∧ ids = envs.filterMap signEvidence := by
  unfold signEvidenceIds
  simp only
  cases hread : readTranscript F G log with
  | error e =>
    refine iff_of_false (by simp) ?_
    rintro ⟨envs, henvs, -⟩
    rw [(readTranscript_iff log envs).mpr henvs] at hread
    cases hread
  | ok envs =>
    have henvs := (readTranscript_iff log envs).mp hread
    constructor
    · rintro ⟨⟩
      exact ⟨envs, henvs, rfl⟩
    · rintro ⟨envs', henvs', rfl⟩
      rw [(readTranscript_iff log envs').mpr henvs'] at hread
      rw [Except.ok.inj hread]

end OhmEcdsa
