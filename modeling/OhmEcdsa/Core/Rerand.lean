import OhmEcdsa.Core.Combine

/-!
# Re-randomized and tweaked signing (`sign.rs`, `presign.rs`, `sim.rs`)

The factor `γ` scales the nonce to `γ·k`; the tweak `τ` moves the key to `x + τ`.
Shares and commitments are scaled by the same public factors:

    combineRerand = (r', (γ·k)⁻¹·(m + r'·(x + τ)))   with   r' = F(γ·R)     (rerand_sign)
-/

set_option linter.unusedSectionVars false

namespace OhmEcdsa

open Polynomial FeldmanCommitment Hoare

def tags.rerandGamma : Bytes := utf8 "OHM-ECDSA/v0.1/rerand-gamma"

variable {F G : Type} [Field F] [DecidableEq F] [AddCommGroup G] [Module F G] [DecidableEq G] [K256 F G]

/-! ## Algorithm: presign.rs -/

/-- Rebind a presignature to `x' = x + τ`. -/
def Presignature.applyTweak (p : Presignature F G) (tau : F) : Presignature F G :=
  { p with
    zShare := p.zShare + tau * p.uShare
    zCom := p.zCom.add (p.uCom.scale tau) }

/-! ## Algorithm: sign.rs -/

/-- The bytes hashed for `γ` at one value of the counter. -/
def gammaPreimage [WireFormat F G] (counter : UInt8) (sid : Bytes) (id : U64) (m : F) (tweak : Option F)
    (xPoint : G) : Bytes :=
  tags.rerandGamma ++ [counter] ++ u64Bytes sid.length ++ sid ++ u64Bytes id.val ++ WireFormat.scalarBytes G m ++
    (match tweak with
      | some tau => 1 :: WireFormat.scalarBytes G tau
      | none => [0]) ++
    K256.pointBytes F xPoint

/-- `γ`: the first counter byte whose digest is not zero.  The counter wraps, so
a search that misses all its 256 values does not end. -/
def rerandGamma [WireFormat F G] (sid : Bytes) (id : U64) (m : F) (tweak : Option F) (xPoint : G) : Option F :=
  ((List.range 256).map fun k => (K256.scalarFromDigest G (K256.sha256 F G
    (gammaPreimage (UInt8.ofNat k) sid id m tweak xPoint)) : F)).find? (· ≠ 0)

/-- `γ⁻¹` and `r' = F(γ·R)`. -/
def rerandFactors (bigR : G) (gamma : F) : Outcome (F × F) :=
  match invert gamma with
  | none => .error (.panic "rerand gamma must be nonzero (rerand_gamma guarantees this)")
  | some gammaInv =>
    match K256.xBytes F (gamma • bigR) with
    | none => .error (.panic "uncompressed point has x")
    | some x => .ok (gammaInv, K256.scalarFromDigest G x)

def signShareRerand (presig : Presignature F G) (m gamma : F) (tweak : Option F) : Outcome (SignShare F) := do
  let (gammaInv, rPrime) ← rerandFactors presig.bigR gamma
  let uPrime := gammaInv * presig.uShare
  let zPrime := match tweak with
    | some tau => gammaInv * (presig.zShare + tau * presig.uShare)
    | none => gammaInv * presig.zShare
  return ⟨presig.index, m * uPrime + rPrime * zPrime⟩

/-- `m·A[u'] + r'·A[z']`. -/
def rerandCom (record : Presignature F G) (m gammaInv rPrime : F) (tweak : Option F) : FeldmanCommitment G :=
  let uPrimeCom := record.uCom.scale gammaInv
  let zPrimeCom := match tweak with
    | some tau => (record.zCom.add (record.uCom.scale tau)).scale gammaInv
    | none => record.zCom.scale gammaInv
  (uPrimeCom.scale m).add (zPrimeCom.scale rPrime)

def combineRerand (params : Params) (record : Presignature F G) (m gamma : F) (tweak : Option F)
    (shares : List (SignShare F)) : Outcome (F × F) := do
  let (gammaInv, rPrime) ← rerandFactors record.bigR gamma
  combineVerified params.t 0 rPrime (rerandCom record m gammaInv rPrime tweak) shares

/-! ## Algorithm: sim.rs -/

/-- What `run_sign_rerand` does once `γ` is found. -/
def runSignRerandWith (params : Params) (presigs : List (Presignature F G)) (m gamma : F) (tweak : Option F)
    (tamper : Option (PartyId × F)) : Outcome (Signature F) := do
  let shares ← presigs.mapM fun p => signShareRerand p m gamma tweak
  let shares := match tamper with
    | none => shares
    | some (party, fake) => shares.map fun sh => if sh.sender = party then ⟨sh.sender, fake⟩ else sh
  let record ← nth presigs 0
  let (r, s) ← combineRerand params record m gamma tweak shares
  finishSignature G r s

def runSignRerand [WireFormat F G] (params : Params) (presigs : List (Presignature F G)) (msg : Bytes)
    (tweak : Option F) (sid : Bytes) (xPoint : G) (tamper : Option (PartyId × F)) : Option (Outcome (Signature F)) :=
  let m := messageScalar F G msg
  match presigs with
  | [] => some (.error (.panic "index out of bounds"))
  | record :: _ => (rerandGamma sid record.id m tweak xPoint).map fun gamma =>
      runSignRerandWith params presigs m gamma tweak tamper

/-! ## Lemmas -/

/-- The key a tweak signs under. -/
def tweaked (x : F) (tweak : Option F) : F := x + tweak.getD 0

/-- A tweak in the call is a tweak of the record. -/
theorem signShareRerand_applyTweak (p : Presignature F G) (m gamma tau : F) :
    signShareRerand p m gamma (some tau) = signShareRerand (p.applyTweak tau) m gamma none := rfl

theorem combineRerand_applyTweak (params : Params) (record : Presignature F G) (m gamma tau : F)
    (shares : List (SignShare F)) :
    combineRerand params record m gamma (some tau) shares =
      combineRerand params (record.applyTweak tau) m gamma none shares := rfl

theorem poly_rerandCom (record : Presignature F G) (m gammaInv rPrime : F) (tweak : Option F) :
    (rerandCom record m gammaInv rPrime tweak).poly F =
      C (m * gammaInv) * record.uCom.poly F +
        C (rPrime * gammaInv) * (record.zCom.poly F + C (tweak.getD 0) * record.uCom.poly F) := by
  unfold rerandCom
  cases tweak with
  | none => simp only [poly_add, poly_scale, Option.getD_none, C_mul, C_0, zero_mul, add_zero, mul_assoc]
  | some tau => simp only [poly_add, poly_scale, Option.getD_some, C_mul, mul_assoc]

section Presigned

variable {c : Committee} {x : F} {id : U64} {ps : List (Presignature F G)} {uCom zCom : FeldmanCommitment G}
  {k r : F} (h : Presigned c x id ps uCom zCom k r) {gamma : F} (hgamma : gamma ≠ 0)

include h hgamma

/-- The scaled nonce point is not the identity. -/
theorem rerandFactors_ok : ∃ rPrime, rerandFactors (k • K256.generator F : G) gamma = .ok (gamma⁻¹, rPrime) ∧
    (K256.xBytes F ((gamma * k) • K256.generator F : G)).map (K256.scalarFromDigest G) = some rPrime := by
  have hk : k ≠ 0 := right_ne_zero_of_mul_eq_one h.inverse
  have hne : gamma • (k • K256.generator F : G) ≠ 0 := by
    rw [smul_smul]
    intro h0
    exact mul_ne_zero hgamma hk (K256.generator_free _ h0)
  cases hx : K256.xBytes F (gamma • (k • K256.generator F : G)) with
  | none => exact absurd ((K256.xBytes_eq_none _).mp hx) hne
  | some bytes =>
    refine ⟨K256.scalarFromDigest G bytes, ?_, ?_⟩
    · unfold rerandFactors
      simp only [invert, if_neg hgamma, hx]
    · rw [mul_smul, hx]
      rfl

theorem degree_rerandCom {record : Presignature F G} (hrecord : record ∈ ps) (m rPrime : F) (tweak : Option F) :
    ((rerandCom record m gamma⁻¹ rPrime tweak).poly F).degree < c.t.val := by
  rw [h.ps_eq] at hrecord
  obtain ⟨i, -, rfl⟩ := List.mem_map.mp hrecord
  rw [poly_rerandCom]
  have hz := Interpolation.degree_add_lt h.degree_z (Interpolation.degree_C_mul_lt (tweak.getD 0) h.degree_u)
  exact Interpolation.degree_add_lt (Interpolation.degree_C_mul_lt _ h.degree_u)
    (Interpolation.degree_C_mul_lt _ hz)

/-- The re-randomized sharing is `(γ·k)⁻¹·(m + r'·(x + τ))`. -/
theorem eval_rerandCom {record : Presignature F G} (hrecord : record ∈ ps) (m rPrime : F) (tweak : Option F) :
    ((rerandCom record m gamma⁻¹ rPrime tweak).poly F).eval 0 =
      (gamma * k)⁻¹ * (m + rPrime * tweaked x tweak) := by
  have hu : (uCom.poly F).eval 0 = k⁻¹ := eq_inv_of_mul_eq_one_left h.inverse
  rw [h.ps_eq] at hrecord
  obtain ⟨i, -, rfl⟩ := List.mem_map.mp hrecord
  rw [poly_rerandCom]
  simp only [eval_add, eval_mul, eval_C, h.product, hu, mul_inv]
  unfold tweaked
  ring

/-- The signer's share is the value of the verifier's commitment. -/
theorem signShareRerand_ok {rPrime : F}
    (hf : rerandFactors (k • K256.generator F : G) gamma = .ok (gamma⁻¹, rPrime)) (m : F) (tweak : Option F)
    {p record : Presignature F G} (hp : p ∈ ps) (hrecord : record ∈ ps) :
    signShareRerand p m gamma tweak =
      .ok ⟨p.index, ((rerandCom record m gamma⁻¹ rPrime tweak).poly F).eval (scalarFrom p.index)⟩ := by
  rw [h.ps_eq] at hp hrecord
  obtain ⟨i, -, rfl⟩ := List.mem_map.mp hp
  obtain ⟨j, -, rfl⟩ := List.mem_map.mp hrecord
  unfold signShareRerand
  rw [poly_rerandCom]
  simp only [hf, bind, Except.bind, eval_add, eval_mul, eval_C]
  refine congrArg (fun s => Except.ok (⟨i, s⟩ : SignShare F)) ?_
  cases tweak with
  | none =>
    simp only [Option.getD_none, zero_mul, add_zero]
    ring
  | some tau =>
    simp only [Option.getD_some]
    ring

/-- Among members' shares, those that pass are the ones the protocol computes. -/
theorem verifyShare_rerand_iff {rPrime : F}
    (hf : rerandFactors (k • K256.generator F : G) gamma = .ok (gamma⁻¹, rPrime)) (m : F) (tweak : Option F)
    {record : Presignature F G} (hrecord : record ∈ ps) {sh : SignShare F} (hsender : sh.sender ∈ c.ids) :
    (rerandCom record m gamma⁻¹ rPrime tweak).verifyShare sh.sender sh.s = true ↔
      ∃ p ∈ ps, signShareRerand p m gamma tweak = .ok sh := by
  rw [verifyShare_iff]
  constructor
  · intro heval
    have hmem : (⟨id, sh.sender, r, k • K256.generator F, (uCom.poly F).eval (scalarFrom sh.sender),
        (zCom.poly F).eval (scalarFrom sh.sender), uCom, zCom⟩ : Presignature F G) ∈ ps := by
      rw [h.ps_eq]
      exact List.mem_map.mpr ⟨sh.sender, hsender, rfl⟩
    refine ⟨_, hmem, ?_⟩
    rw [signShareRerand_ok h hgamma hf m tweak hmem hrecord, heval]
  · rintro ⟨p, hp, hsign⟩
    rw [signShareRerand_ok h hgamma hf m tweak hp hrecord] at hsign
    cases hsign
    rfl

/-- The shares of any quorum combine. -/
theorem combineRerand_ok (params : Params) (hparams : params.t = c.t) {rPrime : F}
    (hf : rerandFactors (k • K256.generator F : G) gamma = .ok (gamma⁻¹, rPrime)) (m : F) (tweak : Option F)
    {sub : List (Presignature F G)} (hsub : sub ⊆ ps) (hnd : (sub.map (·.index)).Nodup)
    (hlen : c.t.val ≤ sub.length) {record : Presignature F G} (hrecord : record ∈ ps) :
    ∃ shares, sub.mapM (fun p => signShareRerand p m gamma tweak) = .ok shares ∧
      combineRerand params record m gamma tweak shares =
        .ok (rPrime, (gamma * k)⁻¹ * (m + rPrime * tweaked x tweak)) := by
  have hbig : record.bigR = k • K256.generator F := by
    have hmem := hrecord
    rw [h.ps_eq] at hmem
    obtain ⟨i, -, rfl⟩ := List.mem_map.mp hmem
    rfl
  refine ⟨_, mapM_ok_of _ _ sub fun p hp => signShareRerand_ok h hgamma hf m tweak (hsub hp) hrecord, ?_⟩
  unfold combineRerand
  rw [hbig, hf, ← eval_rerandCom h hgamma hrecord m rPrime tweak]
  apply combineVerified_ok
  · rw [List.map_map]
    exact hnd
  · intro sh hsh
    obtain ⟨p, -, rfl⟩ := List.mem_map.mp hsh
    exact (verifyShare_iff _ _ _).mpr rfl
  · rw [List.length_map, hparams]
    exact hlen
  · rw [hparams]
    exact degree_rerandCom h hgamma hrecord m rPrime tweak

/-- A member's share that the protocol does not compute aborts and is blamed;
without one there is no abort. -/
theorem combineRerand_blames (params : Params) (hparams : params.t = c.t) {rPrime : F}
    (hf : rerandFactors (k • K256.generator F : G) gamma = .ok (gamma⁻¹, rPrime)) (m : F) (tweak : Option F)
    {record : Presignature F G} (hrecord : record ∈ ps) {shares : List (SignShare F)}
    (hmembers : ∀ sh ∈ shares, sh.sender ∈ c.ids) :
    ((∃ sh ∈ shares, ¬ ∃ p ∈ ps, signShareRerand p m gamma tweak = .ok sh) ↔
      ∃ a, combineRerand params record m gamma tweak shares = .error (.error (.abort a))) ∧
    ∀ a, combineRerand params record m gamma tweak shares = .error (.error (.abort a)) →
      ∀ i, i ∈ a.blamed ↔
        ∃ sh ∈ shares, sh.sender = i ∧ ¬ ∃ p ∈ ps, signShareRerand p m gamma tweak = .ok sh := by
  have hbig : record.bigR = k • K256.generator F := by
    have hmem := hrecord
    rw [h.ps_eq] at hmem
    obtain ⟨i, -, rfl⟩ := List.mem_map.mp hmem
    rfl
  have hdeg : ((rerandCom record m gamma⁻¹ rPrime tweak).poly F).degree < params.t.val := by
    rw [hparams]
    exact degree_rerandCom h hgamma hrecord m rPrime tweak
  have hrun : combineRerand params record m gamma tweak shares =
      combineVerified params.t 0 rPrime (rerandCom record m gamma⁻¹ rPrime tweak) shares := by
    unfold combineRerand
    rw [hbig, hf]
    rfl
  rw [hrun, combineVerified_cases params.t 0 rPrime _ hdeg]
  have hmem : ∀ i, i ∈ failing (rerandCom record m gamma⁻¹ rPrime tweak) (pairs shares) ↔
      ∃ sh ∈ shares, sh.sender = i ∧ ¬ ∃ p ∈ ps, signShareRerand p m gamma tweak = .ok sh := by
    intro i
    unfold failing pairs
    simp only [List.mem_map, List.mem_filter, Bool.not_eq_true']
    constructor
    · rintro ⟨e, ⟨⟨sh, hsh, rfl⟩, hbad⟩, rfl⟩
      refine ⟨sh, hsh, rfl, fun hright => ?_⟩
      rw [(verifyShare_rerand_iff h hgamma hf m tweak hrecord (hmembers sh hsh)).mpr hright] at hbad
      cases hbad
    · rintro ⟨sh, hsh, rfl, hwrong⟩
      refine ⟨_, ⟨⟨sh, hsh, rfl⟩, ?_⟩, rfl⟩
      rw [Bool.eq_false_iff]
      exact fun hv => hwrong ((verifyShare_rerand_iff h hgamma hf m tweak hrecord (hmembers sh hsh)).mp hv)
  by_cases hbad : failing (rerandCom record m gamma⁻¹ rPrime tweak) (pairs shares) = []
  · have hnone : ¬ ∃ sh ∈ shares, ¬ ∃ p ∈ ps, signShareRerand p m gamma tweak = .ok sh := by
      rintro ⟨sh, hsh, hwrong⟩
      have hin := (hmem sh.sender).mpr ⟨sh, hsh, rfl, hwrong⟩
      rw [hbad] at hin
      cases hin
    rw [if_neg (not_not.mpr hbad)]
    have hno : ∀ a, (if shares.length < params.t.val then
          .error (.error (.notEnoughShares shares.length params.t.val))
        else if ((shares.map (·.sender)).take params.t.val).Nodup then
          .ok (rPrime, ((rerandCom record m gamma⁻¹ rPrime tweak).poly F).eval 0)
        else .error (.panic "party indices must be distinct") : Outcome (F × F)) ≠ .error (.error (.abort a)) := by
      intro a
      split
      · rintro ⟨⟩
      · split <;> rintro ⟨⟩
    refine ⟨⟨fun hwrong => absurd hwrong hnone, ?_⟩, fun a ha => absurd ha (hno a)⟩
    rintro ⟨a, ha⟩
    exact absurd ha (hno a)
  · rw [if_pos hbad]
    obtain ⟨i, hi⟩ := List.exists_mem_of_ne_nil _ hbad
    obtain ⟨sh, hsh, -, hwrong⟩ := (hmem i).mp hi
    refine ⟨⟨fun _ => ⟨_, rfl⟩, fun _ => ⟨sh, hsh, hwrong⟩⟩, ?_⟩
    intro a ha
    cases ha
    exact hmem

/-- The driver's run is the combined pair. -/
theorem runSignRerandWith_ok (params : Params) (hparams : params.t = c.t) {rPrime : F}
    (hf : rerandFactors (k • K256.generator F : G) gamma = .ok (gamma⁻¹, rPrime)) (m : F) (tweak : Option F)
    {sub : List (Presignature F G)} (hsub : sub ⊆ ps) (hnd : (sub.map (·.index)).Nodup)
    (hlen : c.t.val ≤ sub.length) :
    runSignRerandWith params sub m gamma tweak none =
      finishSignature G rPrime ((gamma * k)⁻¹ * (m + rPrime * tweaked x tweak)) := by
  obtain ⟨record, rest, rfl⟩ : ∃ record rest, sub = record :: rest := by
    refine List.exists_cons_of_ne_nil fun hnil => ?_
    have := c.t_pos
    rw [hnil, List.length_nil] at hlen
    omega
  obtain ⟨shares, hshares, hcombine⟩ :=
    combineRerand_ok h hgamma params hparams hf m tweak hsub hnd hlen (hsub List.mem_cons_self)
  have h0 : nth (record :: rest) 0 = .ok record := rfl
  unfold runSignRerandWith
  rw [hshares]
  simp only [h0, bind, Except.bind]
  rw [hcombine]

/-- The pair is a signature under `x + τ` unless one of its parts is zero. -/
theorem finishSignature_rerand {rPrime m : F} {tweak : Option F}
    (hnonce : (K256.xBytes F ((gamma * k) • K256.generator F : G)).map (K256.scalarFromDigest G) = some rPrime)
    (hr : rPrime ≠ 0) (hm : m + rPrime * tweaked x tweak ≠ 0) :
    ∃ sig, finishSignature G rPrime ((gamma * k)⁻¹ * (m + rPrime * tweaked x tweak)) = .ok sig ∧
      sig.Verifies (tweaked x tweak • K256.generator F : G) m ∧ sig.LowS G := by
  have hk : gamma * k ≠ 0 := mul_ne_zero hgamma (right_ne_zero_of_mul_eq_one h.inverse)
  generalize hs : (gamma * k)⁻¹ * (m + rPrime * tweaked x tweak) = s
  have hs0 : s ≠ 0 := hs ▸ mul_ne_zero (inv_ne_zero hk) hm
  refine ⟨(⟨rPrime, s⟩ : Signature F).normalizeS G, ?_, ?_, normalizeS_lowS _ hs0⟩
  · unfold finishSignature Signature.fromScalars
    rw [if_neg (by simp [hr, hs0])]
    rfl
  · apply normalizeS_verifies
    exact verifies_of_eq (tweaked x tweak) (gamma * k) _ m rPrime s (inv_mul_cancel₀ hk) hs.symm hs0 hr hnonce

end Presigned

/-! ## Top theorem -/

/-- **Re-randomized signing**: at every non-zero factor any quorum of shares
passes the check and combines to `r' = F(γ·R)` and `s = (γ·k)⁻¹·(m + r'·(x + τ))`,
which is a low-`s` signature on `m` under `(x + τ)·G` unless `r'` or `s` is zero;
tweaking the records gives the same shares and the same result; and among
members' shares exactly the ones the protocol does not compute are blamed. -/
theorem rerand_sign {c : Committee} {x : F} {id : U64} {ps : List (Presignature F G)}
    {uCom zCom : FeldmanCommitment G} {k r : F} (h : Presigned c x id ps uCom zCom k r) {gamma : F}
    (hgamma : gamma ≠ 0) (params : Params) (hparams : params.t = c.t) (m : F) (tweak : Option F) :
    ∃ rPrime,
      (K256.xBytes F (gamma • (k • K256.generator F) : G)).map (K256.scalarFromDigest G) = some rPrime ∧
      (∀ sub ⊆ ps, (sub.map (·.index)).Nodup → c.t.val ≤ sub.length →
        (∀ record ∈ ps, ∃ shares, sub.mapM (fun p => signShareRerand p m gamma tweak) = .ok shares ∧
          combineRerand params record m gamma tweak shares =
            .ok (rPrime, (gamma * k)⁻¹ * (m + rPrime * tweaked x tweak)) ∧
          ∀ tau, tweak = some tau →
            (sub.map (·.applyTweak tau)).mapM (fun p => signShareRerand p m gamma none) = .ok shares ∧
            combineRerand params (record.applyTweak tau) m gamma none shares =
              .ok (rPrime, (gamma * k)⁻¹ * (m + rPrime * tweaked x tweak))) ∧
        runSignRerandWith params sub m gamma tweak none =
          finishSignature G rPrime ((gamma * k)⁻¹ * (m + rPrime * tweaked x tweak))) ∧
      (rPrime ≠ 0 → m + rPrime * tweaked x tweak ≠ 0 → ∃ sig,
        finishSignature G rPrime ((gamma * k)⁻¹ * (m + rPrime * tweaked x tweak)) = .ok sig ∧
        sig.Verifies (tweaked x tweak • K256.generator F : G) m ∧ sig.LowS G) ∧
      ∀ record ∈ ps, ∀ shares : List (SignShare F), (∀ sh ∈ shares, sh.sender ∈ c.ids) →
        ((∃ sh ∈ shares, ¬ ∃ p ∈ ps, signShareRerand p m gamma tweak = .ok sh) ↔
          ∃ a, combineRerand params record m gamma tweak shares = .error (.error (.abort a))) ∧
        ∀ a, combineRerand params record m gamma tweak shares = .error (.error (.abort a)) →
          ∀ i, i ∈ a.blamed ↔
            ∃ sh ∈ shares, sh.sender = i ∧ ¬ ∃ p ∈ ps, signShareRerand p m gamma tweak = .ok sh := by
  obtain ⟨rPrime, hf, hnonce⟩ := rerandFactors_ok h hgamma
  refine ⟨rPrime, by rw [smul_smul]; exact hnonce, ?_, ?_, ?_⟩
  · intro sub hsub hnd hlen
    refine ⟨fun record hrecord => ?_, runSignRerandWith_ok h hgamma params hparams hf m tweak hsub hnd hlen⟩
    obtain ⟨shares, hshares, hcombine⟩ :=
      combineRerand_ok h hgamma params hparams hf m tweak hsub hnd hlen hrecord
    refine ⟨shares, hshares, hcombine, ?_⟩
    rintro tau rfl
    rw [List.mapM_map]
    exact ⟨hshares, hcombine⟩
  · intro hr hm
    exact finishSignature_rerand h hgamma hnonce hr hm
  · intro record hrecord shares hmembers
    exact combineRerand_blames h hgamma params hparams hf m tweak hrecord hmembers

section Trio

open Secp256k1

/-- Members 1 and 3 sign the message scalar 1 with the factor 2 and the tweak 1; a share of 7 is blamed. -/
theorem rerand_sign_trio : ∃ (rPrime : Scalar) (shares : List (SignShare Scalar)) (sig : Signature Scalar),
    [trioRecord 1, trioRecord 3].mapM (fun p => signShareRerand p 1 2 (some 1)) = .ok shares ∧
    combineRerand ⟨3, 2⟩ (trioRecord 2) 1 2 (some 1) shares = .ok (rPrime, (2 * 3⁻¹)⁻¹ * (1 + rPrime * (1 + 1))) ∧
    finishSignature Point rPrime ((2 * 3⁻¹)⁻¹ * (1 + rPrime * (1 + 1))) = .ok sig ∧
    sig.Verifies ((1 + 1 : Scalar) • K256.generator Scalar : Point) 1 ∧
    ∃ a, combineRerand ⟨3, 2⟩ (trioRecord 2) 1 2 (some 1) [⟨3, 7⟩] = .error (.error (.abort a)) := by
  obtain ⟨rPrime, hnonce, hquorum, hsig, hblame⟩ := rerand_sign trio_presigned (show (2 : Scalar) ≠ 0 by decide +kernel)
    ⟨3, 2⟩ rfl 1 (some 1)
  have hr : rPrime = 2 * 3⁻¹ := by
    have hx : (K256.xBytes Scalar ((2 : Scalar) • ((3⁻¹ : Scalar) • K256.generator Scalar) : Point)).map
        (K256.scalarFromDigest Point) = some (2 * 3⁻¹ : Scalar) := by decide +kernel
    rw [hx] at hnonce
    exact (Option.some.inj hnonce).symm
  obtain ⟨hcombine, -⟩ := hquorum [trioRecord 1, trioRecord 3] (by decide +kernel) (by decide) (by decide)
  obtain ⟨shares, hshares, hpair, -⟩ := hcombine (trioRecord 2) (by decide +kernel)
  obtain ⟨sig, hfin, hver, -⟩ := hsig (by rw [hr]; decide +kernel) (by rw [hr]; decide +kernel)
  refine ⟨rPrime, shares, sig, hshares, hpair, hfin, hver, ?_⟩
  have hmember : ∀ sh ∈ [(⟨3, 7⟩ : SignShare Scalar)], sh.sender ∈ trio.ids := by decide +kernel
  refine (hblame (trioRecord 2) (by decide +kernel) _ hmember).1.mp ⟨_, List.mem_singleton_self _, fun hown => ?_⟩
  obtain ⟨p, hp, hshare⟩ := hown
  have hwrong : ∀ p ∈ trio.ids.map trioRecord, signShareRerand p (1 : Scalar) 2 (some 1) ≠ .ok ⟨3, 7⟩ := by decide +kernel
  exact hwrong p hp hshare

end Trio

section Solo

open Secp256k1

theorem solo_presigned : Presigned (F := Scalar) (G := Point) solo 1 0 [soloRecord] ⟨[1]⟩ ⟨[1]⟩ 1 1 := by
  have hpoly : (⟨[1]⟩ : FeldmanCommitment Point).poly Scalar = 1 := by
    have hcom : (⟨[1]⟩ : FeldmanCommitment Point) = fromPoly (⟨[1]⟩ : ShamirPoly Scalar) := by decide +kernel
    rw [hcom, poly_fromPoly]
    simp [ShamirPoly.poly]
  have hdeg : ((1 : Scalar[X])).degree < (solo.t.val : Nat) := by
    rw [degree_one]
    exact_mod_cast solo.t_pos
  refine ⟨⟨by rw [hpoly]; exact hdeg, by rw [hpoly]; exact hdeg, ?_, ?_, by decide +kernel, one_ne_zero⟩, ?_⟩
  · rw [hpoly, eval_one, one_mul]
  · rw [hpoly, eval_one, one_mul]
  · rw [hpoly]
    simp only [eval_one]
    decide +kernel

/-- With the tweak `-2` the same record combines the message scalar 1 to
`s = 0`, which is no signature, and the driver fails. -/
theorem rerand_sign_zero :
    Presigned (F := Scalar) (G := Point) solo 1 0 [soloRecord] ⟨[1]⟩ ⟨[1]⟩ 1 1 ∧
    combineRerand ⟨1, 1⟩ soloRecord (1 : Scalar) 1 (some (-2)) [⟨1, 0⟩] = .ok (1, 0) ∧
    (∀ X : Point, ∀ m, ¬ (⟨1, 0⟩ : Signature Scalar).Verifies X m) ∧
    runSignRerandWith ⟨1, 1⟩ [soloRecord] (1 : Scalar) 1 (some (-2)) none = .error (.error .ecdsa) :=
  ⟨solo_presigned, by decide +kernel, fun _ _ h => h.2.1 rfl, by decide +kernel⟩

end Solo

end OhmEcdsa
