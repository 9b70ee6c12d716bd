import OhmEcdsa.Core.Batch
import OhmEcdsa.Core.DkgTotal
import OhmEcdsa.Core.Rerand

/-!
# What the hashes bind (`lib.rs`, `dleq.rs`, `sign.rs`)

`session_id` and `rerand_gamma` prefix the fields of variable length by their
lengths.  `hash_commitments` and `challenge` concatenate the session id and the
points as they are, and points are read off one by one, an identity in one byte:

    length-prefixed:  equal preimages → equal inputs                      (preimages_injective)
    concatenated:     the same up to the cuts between several vectors, over sids of one length,
                      or equally many points and no identity
-/

set_option linter.unusedSectionVars false

namespace OhmEcdsa

open Codec Decoder FeldmanCommitment

def tags.sessionId : Bytes := utf8 "OHM-ECDSA/v0.1/session-id"

variable {F G : Type} [Field F] [DecidableEq F] [AddCommGroup G] [Module F G] [DecidableEq G] [K256 F G]

/-! ## Algorithm -/

/-- The bytes hashed into a session id. -/
def sessionIdPreimage (genesis keyId : Bytes) (presigId : Option U64) (tag : Bytes) : Bytes :=
  tags.sessionId ++ u64Bytes genesis.length ++ genesis ++ u64Bytes keyId.length ++ keyId ++
    (match presigId with
      | some id => 1 :: u64Bytes id.val
      | none => [0]) ++
    u64Bytes tag.length ++ tag

/-- `sid = H(genesis ‖ key-id ‖ presig-id ‖ protocol-tag)`. -/
def sessionId (F G : Type) [Field F] [AddCommGroup G] [Module F G] [K256 F G] (genesis keyId : Bytes)
    (presigId : Option U64) (tag : Bytes) : Bytes :=
  K256.sha256 F G (sessionIdPreimage genesis keyId presigId tag)

/-- The bytes hashed by `hash_commitments`. -/
def commitmentsPreimage (F : Type) {G : Type} [Field F] [AddCommGroup G] [Module F G] [K256 F G]
    (sid tag : Bytes) (party : PartyId) (coms : List (FeldmanCommitment G)) : Bytes :=
  tag ++ sid ++ u64Bytes party.val ++ coms.flatMap fun com => com.points.flatMap (K256.pointBytes F)

/-- The six points of a DLEQ challenge: the statement and the proof's commitment. -/
structure ChallengePoints (G : Type) where
  statement : Statement G
  t1 : G
  t2 : G
  deriving DecidableEq

def ChallengePoints.toList (p : ChallengePoints G) : List G :=
  [p.statement.g1, p.statement.x1, p.statement.g2, p.statement.x2, p.t1, p.t2]

/-- The bytes hashed into a challenge. -/
def challengePreimage (F : Type) {G : Type} [Field F] [AddCommGroup G] [Module F G] [K256 F G]
    (sid tag : Bytes) (p : ChallengePoints G) : Bytes :=
  tag ++ sid ++ p.toList.flatMap (K256.pointBytes F)

theorem hashCommitments_eq (sid tag : Bytes) (party : PartyId) (coms : List (FeldmanCommitment G)) :
    hashCommitments F sid tag party coms = K256.sha256 F G (commitmentsPreimage F sid tag party coms) := rfl

theorem challenge_eq (sid tag : Bytes) (p : ChallengePoints G) :
    (DleqProof.challenge sid tag p.statement.g1 p.statement.x1 p.statement.g2 p.statement.x2 p.t1 p.t2 : F) =
      K256.scalarFromDigest G (K256.sha256 F G (challengePreimage F sid tag p)) := rfl

/-! ## Lemmas: fields -/

theorem u64_lawful : Lawful u64Bytes takeU64 (· < 2 ^ 64) := takeU64_reads

/-- A length prefix separates a field from what follows it. -/
theorem prefixed_inj {a b rest rest' : Bytes} (ha : a.length < 2 ^ 64) (hb : b.length < 2 ^ 64)
    (h : u64Bytes a.length ++ (a ++ rest) = u64Bytes b.length ++ (b ++ rest')) : a = b ∧ rest = rest' := by
  obtain ⟨hlen, h⟩ := u64_lawful.append_inj ha hb h
  exact List.append_inj h hlen

theorem prefixed_last {a b : Bytes} (ha : a.length < 2 ^ 64) (hb : b.length < 2 ^ 64)
    (h : u64Bytes a.length ++ a = u64Bytes b.length ++ b) : a = b :=
  (u64_lawful.append_inj ha hb h).2

section Points

variable [WireFormat F G]

theorem scalarBytes_inj {s s' : F} {rest rest' : Bytes}
    (h : WireFormat.scalarBytes G s ++ rest = WireFormat.scalarBytes G s' ++ rest') : s = s' ∧ rest = rest' :=
  takeScalar_lawful.append_inj trivial trivial h

theorem pointBytes_inj {P Q : G} {rest rest' : Bytes}
    (h : K256.pointBytes F P ++ rest = K256.pointBytes F Q ++ rest') : P = Q ∧ rest = rest' :=
  takePoint_lawful.append_inj trivial trivial h

/-- A run of points determines the points. -/
theorem flatMap_pointBytes_inj {l l' : List G} (h : l.flatMap (K256.pointBytes F) = l'.flatMap (K256.pointBytes F)) :
    l = l' := by
  have hne : ∀ (P : G) (l : List G), (P :: l).flatMap (K256.pointBytes F) ≠ [] := by
    intro P l hnil
    have hpos := pointBytes_length_pos (F := F) P
    rw [List.flatMap_cons] at hnil
    rw [(List.append_eq_nil_iff.mp hnil).1] at hpos
    exact absurd hpos (Nat.lt_irrefl 0)
  induction l generalizing l' with
  | nil =>
    cases l' with
    | nil => rfl
    | cons Q l' => exact absurd h.symm (hne Q l')
  | cons P l ih =>
    cases l' with
    | nil => exact absurd h (hne P l)
    | cons Q l' =>
      rw [List.flatMap_cons, List.flatMap_cons] at h
      obtain ⟨rfl, hrest⟩ := pointBytes_inj h
      rw [ih hrest]

/-- Two session ids followed by runs of points. -/
theorem sid_points_inj {sid sid' mid mid' : Bytes} (hmid : mid.length = mid'.length) {l l' : List G}
    (hsep : sid.length = sid'.length ∨ l.length = l'.length ∧ (∀ P ∈ l, P ≠ 0) ∧ ∀ P ∈ l', P ≠ 0)
    (h : sid ++ (mid ++ l.flatMap (K256.pointBytes F)) = sid' ++ (mid' ++ l'.flatMap (K256.pointBytes F))) :
    sid = sid' ∧ mid = mid' ∧ l = l' := by
  have hsid : sid.length = sid'.length := by
    rcases hsep with hsid | ⟨hlen, hl, hl'⟩
    · exact hsid
    · have htotal := congrArg List.length h
      simp only [List.length_append, length_flatMap_pointBytes hl, length_flatMap_pointBytes hl', hlen, hmid] at htotal
      omega
  obtain ⟨heq, hrest⟩ := List.append_inj h hsid
  obtain ⟨hmids, hpoints⟩ := List.append_inj hrest hmid
  exact ⟨heq, hmids, flatMap_pointBytes_inj hpoints⟩

end Points

/-! ## Lemmas: preimages -/

theorem sessionIdPreimage_inj {genesis genesis' keyId keyId' tag tag' : Bytes} {presigId presigId' : Option U64}
    (hg : genesis.length < 2 ^ 64) (hg' : genesis'.length < 2 ^ 64) (hk : keyId.length < 2 ^ 64)
    (hk' : keyId'.length < 2 ^ 64) (ht : tag.length < 2 ^ 64) (ht' : tag'.length < 2 ^ 64)
    (h : sessionIdPreimage genesis keyId presigId tag = sessionIdPreimage genesis' keyId' presigId' tag') :
    genesis = genesis' ∧ keyId = keyId' ∧ presigId = presigId' ∧ tag = tag' := by
  unfold sessionIdPreimage at h
  simp only [List.append_assoc] at h
  obtain ⟨rfl, h1⟩ := prefixed_inj hg hg' (List.append_cancel_left h)
  obtain ⟨rfl, h2⟩ := prefixed_inj hk hk' h1
  cases presigId with
  | none =>
    cases presigId' with
    | none => exact ⟨rfl, rfl, rfl, prefixed_last ht ht' (List.cons.inj h2).2⟩
    | some id' => exact absurd (List.cons.inj h2).1 (by decide)
  | some id =>
    cases presigId' with
    | none => exact absurd (List.cons.inj h2).1 (by decide)
    | some id' =>
      obtain ⟨hid, h3⟩ := u64_lawful.append_inj id.isLt id'.isLt (List.cons.inj h2).2
      exact ⟨rfl, rfl, congrArg some (Fin.ext hid), prefixed_last ht ht' h3⟩

theorem gammaPreimage_inj [WireFormat F G] {counter : UInt8} {sid sid' : Bytes} {id id' : U64} {m m' : F}
    {tweak tweak' : Option F} {X X' : G} (hs : sid.length < 2 ^ 64) (hs' : sid'.length < 2 ^ 64)
    (h : gammaPreimage counter sid id m tweak X = gammaPreimage counter sid' id' m' tweak' X') :
    sid = sid' ∧ id = id' ∧ m = m' ∧ tweak = tweak' ∧ X = X' := by
  unfold gammaPreimage at h
  simp only [List.append_assoc] at h
  obtain ⟨rfl, h1⟩ := prefixed_inj hs hs' (List.append_cancel_left (List.append_cancel_left h))
  obtain ⟨hid, h2⟩ := u64_lawful.append_inj id.isLt id'.isLt h1
  obtain ⟨rfl, h3⟩ := scalarBytes_inj h2
  have hpoint : ∀ {P Q : G}, K256.pointBytes F P = K256.pointBytes F Q → P = Q :=
    fun h => takePoint_lawful.injective trivial trivial h
  cases tweak with
  | none =>
    cases tweak' with
    | none => exact ⟨rfl, Fin.ext hid, rfl, rfl, hpoint (List.cons.inj h3).2⟩
    | some tau' => exact absurd (List.cons.inj h3).1 (by decide)
  | some tau =>
    cases tweak' with
    | none => exact absurd (List.cons.inj h3).1 (by decide)
    | some tau' =>
      obtain ⟨rfl, h4⟩ := scalarBytes_inj (List.cons.inj h3).2
      exact ⟨rfl, Fin.ext hid, rfl, rfl, hpoint h4⟩

/-- How many points each vector has. -/
def shape (coms : List (FeldmanCommitment G)) : List Nat := coms.map (·.points.length)

/-- No point is the identity. -/
def NoIdentity (points : List G) : Prop := ∀ P ∈ points, P ≠ 0

/-- Cutting a run of points by the shape gives the vectors back. -/
theorem eq_of_shape {coms coms' : List (FeldmanCommitment G)} (hshape : shape coms = shape coms')
    (h : coms.flatMap (·.points) = coms'.flatMap (·.points)) : coms = coms' := by
  induction coms generalizing coms' with
  | nil => exact (List.map_eq_nil_iff.mp hshape.symm).symm
  | cons com coms ih =>
    cases coms' with
    | nil => cases hshape
    | cons com' coms' =>
      obtain ⟨hlen, htail⟩ := List.cons.inj hshape
      rw [List.flatMap_cons, List.flatMap_cons] at h
      obtain ⟨hpoints, hrest⟩ := List.append_inj h hlen
      rw [ih htail hrest]
      obtain ⟨points⟩ := com
      obtain ⟨points'⟩ := com'
      exact congrArg (fun p => (⟨p⟩ : FeldmanCommitment G) :: coms') hpoints

/-- A list of one vector has no cuts. -/
theorem eq_of_singleton {coms coms' : List (FeldmanCommitment G)} (hlen : coms.length = 1) (hlen' : coms'.length = 1)
    (h : coms.flatMap (·.points) = coms'.flatMap (·.points)) : coms = coms' := by
  obtain ⟨com, rfl⟩ := List.length_eq_one_iff.mp hlen
  obtain ⟨com', rfl⟩ := List.length_eq_one_iff.mp hlen'
  refine eq_of_shape ?_ h
  simp only [List.flatMap_cons, List.flatMap_nil, List.append_nil] at h
  simp only [shape, List.map_cons, List.map_nil, h]

theorem commitmentsPreimage_inj [WireFormat F G] {tag sid sid' : Bytes} {party party' : PartyId}
    {coms coms' : List (FeldmanCommitment G)}
    (hsep : sid.length = sid'.length ∨ (coms.flatMap (·.points)).length = (coms'.flatMap (·.points)).length ∧
      NoIdentity (coms.flatMap (·.points)) ∧ NoIdentity (coms'.flatMap (·.points)))
    (h : commitmentsPreimage F sid tag party coms = commitmentsPreimage F sid' tag party' coms') :
    sid = sid' ∧ party = party' ∧ coms.flatMap (·.points) = coms'.flatMap (·.points) := by
  unfold commitmentsPreimage at h
  simp only [List.append_assoc, ← List.flatMap_assoc] at h
  obtain ⟨hsid, hparty, hpoints⟩ := sid_points_inj ((u64Bytes_length _).trans (u64Bytes_length _).symm)
    hsep (List.append_cancel_left h)
  exact ⟨hsid, Fin.ext (u64_lawful.injective party.isLt party'.isLt hparty), hpoints⟩

theorem ChallengePoints.toList_inj {p p' : ChallengePoints G} (h : p.toList = p'.toList) : p = p' := by
  obtain ⟨⟨g1, x1, g2, x2⟩, t1, t2⟩ := p
  obtain ⟨⟨g1', x1', g2', x2'⟩, t1', t2'⟩ := p'
  simp only [ChallengePoints.toList, List.cons.injEq, and_true] at h
  obtain ⟨rfl, rfl, rfl, rfl, rfl, rfl⟩ := h
  rfl

theorem challengePreimage_inj [WireFormat F G] {tag sid sid' : Bytes} {p p' : ChallengePoints G}
    (hsep : sid.length = sid'.length ∨ NoIdentity p.toList ∧ NoIdentity p'.toList)
    (h : challengePreimage F sid tag p = challengePreimage F sid' tag p') : sid = sid' ∧ p = p' := by
  unfold challengePreimage at h
  simp only [List.append_assoc] at h
  have hmid : ([] : Bytes).length = ([] : Bytes).length := rfl
  have hsix : p.toList.length = p'.toList.length := rfl
  have hrest : sid ++ (([] : Bytes) ++ p.toList.flatMap (K256.pointBytes F)) =
      sid' ++ (([] : Bytes) ++ p'.toList.flatMap (K256.pointBytes F)) := List.append_cancel_left h
  obtain ⟨hsid, -, hpoints⟩ := sid_points_inj hmid (hsep.imp_right fun hno => ⟨hsix, hno⟩) hrest
  exact ⟨hsid, ChallengePoints.toList_inj hpoints⟩

/-! ## Top theorem -/

/-- **Hash preimages are injective** where lengths are written, and where they
are not, over session ids of one length, or equally many points and no identity, up to
the cuts between several commitment vectors. -/
theorem preimages_injective [WireFormat F G] :
    (∀ (genesis genesis' keyId keyId' : Bytes) (presigId presigId' : Option U64) (tag tag' : Bytes),
      (∀ b ∈ [genesis, genesis', keyId, keyId', tag, tag'], b.length < 2 ^ 64) →
      sessionIdPreimage genesis keyId presigId tag = sessionIdPreimage genesis' keyId' presigId' tag' →
      genesis = genesis' ∧ keyId = keyId' ∧ presigId = presigId' ∧ tag = tag') ∧
    (∀ (counter : UInt8) (sid sid' : Bytes) (id id' : U64) (m m' : F) (tweak tweak' : Option F) (X X' : G),
      sid.length < 2 ^ 64 → sid'.length < 2 ^ 64 →
      gammaPreimage counter sid id m tweak X = gammaPreimage counter sid' id' m' tweak' X' →
      sid = sid' ∧ id = id' ∧ m = m' ∧ tweak = tweak' ∧ X = X') ∧
    (∀ (tag sid sid' : Bytes) (party party' : PartyId) (coms coms' : List (FeldmanCommitment G)),
      (sid.length = sid'.length ∨ (coms.flatMap (·.points)).length = (coms'.flatMap (·.points)).length ∧
        NoIdentity (coms.flatMap (·.points)) ∧ NoIdentity (coms'.flatMap (·.points))) →
      commitmentsPreimage F sid tag party coms = commitmentsPreimage F sid' tag party' coms' →
      (sid = sid' ∧ party = party' ∧ coms.flatMap (·.points) = coms'.flatMap (·.points)) ∧
        (shape coms = shape coms' ∨ coms.length = 1 ∧ coms'.length = 1 → coms = coms')) ∧
    ∀ (tag sid sid' : Bytes) (p p' : ChallengePoints G),
      (sid.length = sid'.length ∨ NoIdentity p.toList ∧ NoIdentity p'.toList) →
      challengePreimage F sid tag p = challengePreimage F sid' tag p' → sid = sid' ∧ p = p' := by
  refine ⟨?_, ?_, ?_, ?_⟩
  · intro genesis genesis' keyId keyId' presigId presigId' tag tag' hlen h
    simp only [List.forall_mem_cons] at hlen
    obtain ⟨hg, hg', hk, hk', ht, ht', -⟩ := hlen
    exact sessionIdPreimage_inj hg hg' hk hk' ht ht' h
  · intro counter sid sid' id id' m m' tweak tweak' X X' hs hs' h
    exact gammaPreimage_inj hs hs' h
  · intro tag sid sid' party party' coms coms' hsep h
    have heq := commitmentsPreimage_inj hsep h
    refine ⟨heq, fun hcuts => ?_⟩
    rcases hcuts with hshape | ⟨hone, hone'⟩
    · exact eq_of_shape hshape heq.2.2
    · exact eq_of_singleton hone hone' heq.2.2
  · intro tag sid sid' p p' hsep h
    exact challengePreimage_inj hsep h

section Solo

open Secp256k1

/-- Two session ids over the fields `ab`, `c` and `a`, `bc` differ, and so do commitments of one
point under ids of different lengths, and of one and two points under one id. -/
theorem preimages_distinct :
    sessionIdPreimage [97, 98] [99] none [] ≠ sessionIdPreimage [97] [98, 99] none [] ∧
    commitmentsPreimage Scalar [1] [] 1 [(⟨[1]⟩ : FeldmanCommitment Point)] ≠
      commitmentsPreimage Scalar [] [] 1 [(⟨[1]⟩ : FeldmanCommitment Point)] ∧
    commitmentsPreimage Scalar [] [] 1 [(⟨[1]⟩ : FeldmanCommitment Point)] ≠
      commitmentsPreimage Scalar [] [] 1 [(⟨[1, 1]⟩ : FeldmanCommitment Point)] := by
  obtain ⟨hsession, -, hcommit, -⟩ := preimages_injective (F := Scalar) (G := Point)
  refine ⟨?_, ?_, ?_⟩
  · intro h
    have hlen : ∀ b ∈ ([[97, 98], [97], [99], [98, 99], [], []] : List Bytes), b.length < 2 ^ 64 := by decide
    exact absurd (hsession _ _ _ _ _ _ _ _ hlen h).1 (by decide)
  · intro h
    have hpoint : NoIdentity ([(⟨[1]⟩ : FeldmanCommitment Point)].flatMap (·.points)) := by
      intro P hP
      rw [List.mem_singleton.mp hP]
      exact one_ne_zero
    exact absurd (hcommit [] [1] [] 1 1 _ _ (Or.inr ⟨rfl, hpoint, hpoint⟩) h).1.1 (by decide)
  · intro h
    exact absurd (congrArg List.length (hcommit [] [] [] 1 1 _ _ (Or.inl rfl) h).1.2.2) (by decide)

/-- A boundary moved between the session id and the party, points moved between
two vectors, and a session id that ends in the bytes of a point hash alike. -/
theorem preimages_collide :
    commitmentsPreimage Scalar [] [] 1 [(⟨[0]⟩ : FeldmanCommitment Point)] =
      commitmentsPreimage Scalar [0] [] 256 [(⟨[]⟩ : FeldmanCommitment Point)] ∧
    commitmentsPreimage Scalar [] [] 1 [(⟨[1, 1]⟩ : FeldmanCommitment Point)] =
      commitmentsPreimage Scalar [] [] 1 [(⟨[1]⟩ : FeldmanCommitment Point), ⟨[1]⟩] ∧
    ∃ sid : Bytes, sid ≠ [] ∧ challengePreimage Scalar sid [] (⟨⟨0, 0, 0, 0⟩, 0, 0⟩ : ChallengePoints Point) =
      challengePreimage Scalar [] [] (⟨⟨256, 0, 0, 0⟩, 0, 0⟩ : ChallengePoints Point) := by
  refine ⟨by decide +kernel, by decide +kernel, ?_⟩
  exact ⟨(K256.pointBytes Scalar (256 : Point)).take 32, by decide +kernel, by decide +kernel⟩

end Solo

end OhmEcdsa
