import OhmEcdsa.Node.Token

/-!
# The evidence archive (`store/persist.rs`)

An abort with evidence is a token file and a line of `aborts.log` that names it.  The name
is made of the phase and the blamed ids only, and the file is written over; a token stays
as its line says exactly as long as no later abort blames the same parties in the same
phase with other evidence:

    tokenName ev = tokenName ev' ↔ the phases and the blamed ids are equal     (tokenName_eq_iff)
-/

set_option linter.unusedSectionVars false

namespace OhmEcdsa

open Codec

variable {F G : Type} [Field F] [DecidableEq F] [AddCommGroup G] [Module F G] [DecidableEq G] [K256 F G]
  [WireFormat F G]

/-- The archive's directory: its files by name, and `aborts.log`. -/
structure ArchiveDir where
  files : String → Option Bytes
  aborts : String

/-! ## Algorithm -/

def Phase.name : Phase → String
  | .keyGen => "keygen"
  | .triples => "triples"
  | .presign => "presign"
  | .sign => "sign"
  | .refresh => "refresh"

/-- The ids in decimal, joined. -/
def joinIds (separator : String) (ids : List PartyId) : String :=
  separator.intercalate (ids.map fun id => Nat.repr id.val)

/-- The file name that `write_token` makes. -/
def tokenName (evidence : BlameEvidence F G) : String :=
  "blame-" ++ evidence.abort.phase.name ++ "-" ++ joinIds "-" evidence.abort.blamed ++ ".tok"

/-- `write_atomic`: a temporary file, then a rename over the name. -/
def writeAtomic (files : String → Option Bytes) (tmpName name : String) (bytes : Bytes) : String → Option Bytes :=
  Function.update (Function.update (Function.update files tmpName (some bytes)) name (some bytes)) tmpName none

def writeToken (files : String → Option Bytes) (evidence : BlameEvidence F G) : String → Option Bytes :=
  writeAtomic files (tokenName evidence ++ ".tmp") (tokenName evidence) evidence.encode

/-- A call of `record_abort`. -/
structure AbortCall (F G : Type) where
  abort : IdentifiableAbort
  evidence : Option (BlameEvidence F G)

/-- The line that a call appends. -/
def abortLine (call : AbortCall F G) : String :=
  let token := (call.evidence.map tokenName).getD "none"
  call.abort.phase.name ++ " blamed " ++ joinIds "," call.abort.blamed ++ " token: " ++ token ++ " (" ++
    call.abort.detail ++ ")\n"

def recordAbort (dir : ArchiveDir) (call : AbortCall F G) : ArchiveDir where
  files :=
    match call.evidence with
    | some evidence => writeToken dir.files evidence
    | none => dir.files
  aborts := dir.aborts ++ abortLine call

/-! ## Specification -/

variable (F G) in
/-- Each token is still what its line names. -/
def TokensKept (calls : List (AbortCall F G)) (dir : ArchiveDir) : Prop :=
  ∀ call ∈ calls, ∀ evidence, call.evidence = some evidence →
    (∃ before after, dir.aborts = before ++ abortLine call ++ after) ∧
      ∃ bytes, dir.files (tokenName evidence) = some bytes ∧ BlameEvidence.decode F G bytes = some evidence

/-- No two tokens of one name differ. -/
def NoClash (calls : List (AbortCall F G)) : Prop :=
  ∀ call ∈ calls, ∀ call' ∈ calls, ∀ ev ev', call.evidence = some ev → call'.evidence = some ev' →
    ev.abort.phase = ev'.abort.phase → ev.abort.blamed = ev'.abort.blamed → ev = ev'

/-! ## Lemmas: names -/

theorem repr_toList_ne (n : Nat) : (Nat.repr n).toList ≠ [] := by simp

theorem not_mem_repr {c : Char} (hc : c.isDigit = false) (n : Nat) : c ∉ (Nat.repr n).toList := by
  rw [Nat.toList_repr]
  intro h
  rw [Nat.isDigit_of_mem_toDigits (by decide) (by decide) h] at hc
  cases hc

theorem joinIds_injective {ids ids' : List PartyId} (h : joinIds "-" ids = joinIds "-" ids') : ids = ids' := by
  have hlist : ∀ ids : List PartyId, (joinIds "-" ids).toList =
      ['-'].intercalate (ids.map fun id => (Nat.repr id.val).toList) := by
    intro ids
    rw [joinIds, String.toList_intercalate, List.map_map]
    rfl
  have hempty : ∀ ids : List PartyId, ids ≠ [] → joinIds "-" ids ≠ joinIds "-" [] := by
    intro ids hne heq
    obtain ⟨id, rest, rfl⟩ := List.exists_cons_of_ne_nil hne
    have hl := congrArg String.toList heq
    rw [hlist, hlist] at hl
    cases rest with
    | nil =>
      rw [List.map_singleton, List.intercalate_singleton] at hl
      exact repr_toList_ne id.val hl
    | cons id' rest =>
      rw [List.map_cons, List.map_cons, List.intercalate_cons_cons] at hl
      simp at hl
  by_cases hids : ids = []
  · subst hids
    by_contra hne
    exact hempty ids' (Ne.symm hne) h.symm
  by_cases hids' : ids' = []
  · subst hids'
    exact absurd h (hempty ids hids)
  have hsplit : ∀ ids : List PartyId, ids ≠ [] →
      (joinIds "-" ids).toList.splitOn '-' = ids.map fun id => (Nat.repr id.val).toList := by
    intro ids hne
    rw [hlist]
    refine List.splitOn_intercalate '-' (fun l hl => ?_) (by simpa using hne)
    obtain ⟨id, -, rfl⟩ := List.mem_map.mp hl
    exact not_mem_repr (by decide) id.val
  have heq : (ids.map fun id => (Nat.repr id.val).toList) = ids'.map fun id => (Nat.repr id.val).toList := by
    rw [← hsplit ids hids, ← hsplit ids' hids', h]
  refine (List.map_injective_iff.mpr fun id id' hid => ?_) heq
  exact Fin.ext (Nat.repr_injective (String.toList_inj.mp hid))

theorem phaseName_append_inj {p p' : Phase} {s s' : String} (h : p.name ++ s = p'.name ++ s') : p = p' := by
  have hhead : ∀ p : Phase, p.name.toList.head? ≠ none := by
    intro p
    cases p <;> decide
  have hl := congrArg (fun s : String => s.toList.head?) h
  simp only [String.toList_append] at hl
  cases p <;> cases p' <;> first | rfl | (simp [Phase.name] at hl)

theorem tokenName_eq_iff (ev ev' : BlameEvidence F G) :
    tokenName ev = tokenName ev' ↔ ev.abort.phase = ev'.abort.phase ∧ ev.abort.blamed = ev'.abort.blamed := by
  unfold tokenName
  constructor
  · intro h
    have h1 := (String.append_left_inj ".tok").mp h
    rw [String.append_assoc, String.append_assoc, String.append_assoc, String.append_assoc] at h1
    have h2 := (String.append_right_inj "blame-").mp h1
    have hphase := phaseName_append_inj h2
    rw [hphase] at h2
    have h3 := (String.append_right_inj _).mp h2
    exact ⟨hphase, joinIds_injective ((String.append_right_inj _).mp h3)⟩
  · rintro ⟨h1, h2⟩
    rw [h1, h2]

theorem tokenName_ne_tmp (ev ev' : BlameEvidence F G) : tokenName ev ≠ tokenName ev' ++ ".tmp" := by
  intro h
  have htok : (tokenName ev).toList.getLast? = some 'k' := by
    rw [tokenName, String.toList_append]
    exact List.getLast?_append_of_ne_nil _ (by decide)
  have htmp : (tokenName ev' ++ ".tmp").toList.getLast? = some 'p' := by
    rw [String.toList_append]
    exact List.getLast?_append_of_ne_nil _ (by decide)
  rw [h, htmp] at htok
  cases htok

/-! ## Lemmas: calls -/

theorem recordAbort_none {call : AbortCall F G} (h : call.evidence = none) (dir : ArchiveDir) :
    (recordAbort dir call).files = dir.files := by
  simp [recordAbort, h]

theorem recordAbort_self {call : AbortCall F G} {ev : BlameEvidence F G} (h : call.evidence = some ev)
    (dir : ArchiveDir) : (recordAbort dir call).files (tokenName ev) = some ev.encode := by
  simp [recordAbort, h, writeToken, writeAtomic, Function.update_of_ne (tokenName_ne_tmp ev ev)]

/-- A token of another name is not touched. -/
theorem recordAbort_frame {call : AbortCall F G} {ev ev' : BlameEvidence F G} (h : call.evidence = some ev)
    (hne : tokenName ev' ≠ tokenName ev) (dir : ArchiveDir) :
    (recordAbort dir call).files (tokenName ev') = dir.files (tokenName ev') := by
  simp [recordAbort, h, writeToken, writeAtomic, Function.update_of_ne hne,
    Function.update_of_ne (tokenName_ne_tmp ev' ev)]

/-- The last token of a name is the one that stays. -/
theorem recordAborts_files (dir : ArchiveDir) (calls : List (AbortCall F G)) :
    ∀ call ∈ calls, ∀ ev, call.evidence = some ev → ∃ call' ∈ calls, ∃ ev', call'.evidence = some ev' ∧
      tokenName ev' = tokenName ev ∧ (calls.foldl recordAbort dir).files (tokenName ev) = some ev'.encode := by
  induction calls using List.reverseRecOn with
  | nil =>
    intro call hcall
    cases hcall
  | append_singleton calls last ih =>
    intro call hcall ev hev
    rw [List.foldl_append, List.foldl_cons, List.foldl_nil]
    by_cases hlast : ∃ ev', last.evidence = some ev' ∧ tokenName ev' = tokenName ev
    · obtain ⟨ev', hev', hname⟩ := hlast
      refine ⟨last, by simp, ev', hev', hname, ?_⟩
      rw [← hname]
      exact recordAbort_self hev' _
    -- another name: the token is an earlier call's, and the last call leaves it
    have hmem : call ∈ calls := by
      rcases List.mem_append.mp hcall with h | h
      · exact h
      · rw [List.mem_singleton.mp h] at hev
        exact absurd ⟨ev, hev, rfl⟩ hlast
    obtain ⟨call', hmem', ev', hev', hname, hfile⟩ := ih call hmem ev hev
    refine ⟨call', List.mem_append_left _ hmem', ev', hev', hname, ?_⟩
    rcases hlev : last.evidence with _ | lev
    · rw [recordAbort_none hlev]
      exact hfile
    · have hne : tokenName ev ≠ tokenName lev := by
        intro heq
        exact hlast ⟨lev, hlev, heq.symm⟩
      rw [recordAbort_frame hlev hne]
      exact hfile

/-- `aborts.log` only grows, and has a line for each call. -/
theorem recordAborts_lines (dir : ArchiveDir) (calls : List (AbortCall F G)) :
    ∀ call ∈ calls, ∃ before after, (calls.foldl recordAbort dir).aborts = before ++ abortLine call ++ after := by
  induction calls using List.reverseRecOn with
  | nil =>
    intro call hcall
    cases hcall
  | append_singleton calls last ih =>
    intro call hcall
    rw [List.foldl_append, List.foldl_cons, List.foldl_nil]
    rcases List.mem_append.mp hcall with h | h
    · obtain ⟨before, after, heq⟩ := ih call h
      exact ⟨before, after ++ abortLine last, by rw [recordAbort, heq, String.append_assoc]⟩
    · rw [List.mem_singleton.mp h]
      exact ⟨(calls.foldl recordAbort dir).aborts, "", by rw [recordAbort, String.append_empty]⟩

/-- Two tokens that both stay have different names. -/
theorem noClash_of_kept {calls : List (AbortCall F G)} {dir : ArchiveDir} (hkept : TokensKept F G calls dir) :
    NoClash calls := by
  intro call hcall call' hcall' ev ev' hev hev' hphase hblamed
  obtain ⟨-, bytes, hfile, hdecode⟩ := hkept call hcall ev hev
  obtain ⟨-, bytes', hfile', hdecode'⟩ := hkept call' hcall' ev' hev'
  rw [(tokenName_eq_iff ev ev').mpr ⟨hphase, hblamed⟩, hfile', Option.some.injEq] at hfile
  rw [← hfile, hdecode', Option.some.injEq] at hdecode
  exact hdecode.symm

/-! ## Correctness -/

/-- A run of calls loses a token exactly when two of its tokens have one phase and one list
of blamed ids and differ. -/
theorem tokens_kept_iff (dir : ArchiveDir) (calls : List (AbortCall F G))
    (hfits : ∀ call ∈ calls, ∀ ev, call.evidence = some ev → ev.Fits) :
    TokensKept F G calls (calls.foldl recordAbort dir) ↔ NoClash calls := by
  refine ⟨noClash_of_kept, fun hclash call hcall ev hev => ⟨recordAborts_lines dir calls call hcall, ?_⟩⟩
  obtain ⟨call', hcall', ev', hev', hname, hfile⟩ := recordAborts_files dir calls call hcall ev hev
  obtain ⟨hphase, hblamed⟩ := (tokenName_eq_iff ev' ev).mp hname
  have hsame : ev' = ev := hclash call' hcall' call hcall ev' ev hev' hev hphase hblamed
  rw [hsame] at hfile
  exact ⟨ev.encode, hfile, BlameEvidence.decode_encode (hfits call hcall ev hev)⟩

/-! Parties 2 and 3 send bad sign shares. -/

section Example

open Secp256k1

def blamedShare (sender : PartyId) : SignedEnvelope (NodePayload Scalar Point) :=
  ⟨Envelope.broadcast (utf8 "s") .sign 1 sender (.signShare 1 1), List.replicate 64 1⟩

def shareAbort (sender : PartyId) (message : Bytes) : AbortCall Scalar Point :=
  let abort : IdentifiableAbort := ⟨.sign, [sender], "bad share"⟩
  ⟨abort, some (.signShare abort (blamedShare sender) message 1 ⟨[1]⟩ ⟨[1]⟩)⟩

theorem shareAbort_fits (sender : PartyId) (x : UInt8) (ev : BlameEvidence Scalar Point)
    (h : (shareAbort sender [x]).evidence = some ev) : ev.Fits := by
  cases h
  have hpayload : 8 + (NodePayload.encode (blamedShare sender).envelope.payload).length < 2 ^ 64 := by
    simp [blamedShare, Envelope.broadcast, NodePayload.encode, WireFormat.scalarBytes_length, u64Bytes]
  have hsid : 8 + (utf8 "s").length < 2 ^ 64 := by decide +kernel
  have henvelope : (blamedShare sender).Fits Scalar Point NodePayload.encode NodePayload.Fits := by
    refine ⟨⟨hsid, show 1 < 256 by decide, ?_, hpayload⟩, rfl,
      show signatureOk Scalar Point (List.replicate 64 1) = true by decide +kernel⟩
    simp [blamedShare, Envelope.broadcast, NodePayload.Fits]
  have hdetail : 8 + (utf8 "bad share").length < 2 ^ 64 := by decide +kernel
  exact ⟨⟨show 1 < 2 ^ 64 by decide, hdetail⟩, henvelope, show 9 < 2 ^ 64 by decide, show 1 < 2 ^ 64 by decide,
    show 1 < 2 ^ 64 by decide⟩

/-- A share of each: both tokens are kept. -/
theorem bad_shares_kept :
    TokensKept Scalar Point [shareAbort 2 [1], shareAbort 3 [2]]
      ([shareAbort 2 [1], shareAbort 3 [2]].foldl recordAbort ⟨fun _ => none, ""⟩) := by
  refine (tokens_kept_iff ⟨fun _ => none, ""⟩ [shareAbort 2 [1], shareAbort 3 [2]] fun call hcall ev hev => ?_).mpr ?_
  · rcases List.mem_pair.mp hcall with rfl | rfl
    · exact shareAbort_fits 2 1 ev hev
    · exact shareAbort_fits 3 2 ev hev
  · intro call hcall call' hcall' ev ev' hev hev' _ hblamed
    rcases List.mem_pair.mp hcall with rfl | rfl <;> rcases List.mem_pair.mp hcall' with rfl | rfl <;> cases hev <;> cases hev'
    · rfl
    · exact absurd hblamed (by decide)
    · exact absurd hblamed (by decide)
    · rfl

/-- Two shares of party 2: the second token is written over the first. -/
theorem second_share_clashes :
    (∀ call ∈ [shareAbort 2 [1], shareAbort 2 [2]], ∀ ev, call.evidence = some ev → ev.Fits) ∧
      ¬ TokensKept Scalar Point [shareAbort 2 [1], shareAbort 2 [2]]
        ([shareAbort 2 [1], shareAbort 2 [2]].foldl recordAbort ⟨fun _ => none, ""⟩) := by
  refine ⟨fun call hcall ev hev => ?_, fun hkept => ?_⟩
  · rcases List.mem_pair.mp hcall with rfl | rfl
    · exact shareAbort_fits 2 1 ev hev
    · exact shareAbort_fits 2 2 ev hev
  · have h := noClash_of_kept hkept (shareAbort 2 [1]) (by simp) (shareAbort 2 [2]) (by simp) _ _ rfl rfl rfl rfl
    simp at h

end Example

end OhmEcdsa
