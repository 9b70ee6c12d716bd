import OhmEcdsa.Core.Presign
import OhmEcdsa.Core.Secp256k1

/-!
# Online signing (`src/protocol/sign.rs`, `runtime/sim.rs`)

`s_j = m·u_j + r·z_j` is checked against `m·A[u] + r·A[z]`, so any `t` shares
that pass interpolate to `s = u·(m + r·x)`:

    presign_with_committee c keys id = ZeroValue  ∨
      records of one presignature, any t of which sign every m with m + r·x ≠ 0
                                                                    (presign_sign)
-/

set_option linter.unusedSectionVars false

namespace OhmEcdsa

open Polynomial FeldmanCommitment Hoare

/-- A broadcast signature share. -/
structure SignShare (F : Type) where
  sender : PartyId
  s : F
  deriving DecidableEq

variable {F G : Type} [Field F] [DecidableEq F] [AddCommGroup G] [Module F G] [DecidableEq G] [K256 F G]

/-! ## Algorithm: sign.rs -/

def signShare (presig : Presignature F G) (m : F) : SignShare F :=
  ⟨presig.index, m * presig.uShare + presig.r * presig.zShare⟩

/-- `m·A[u] + r·A[z]`. -/
def signCom (uCom zCom : FeldmanCommitment G) (m r : F) : FeldmanCommitment G :=
  (uCom.scale m).add (zCom.scale r)

/-- Verify every share, blaming any failure, and interpolate `(r, s)`. -/
def combineVerified (quorum : Usize) (point r : F) (sCom : FeldmanCommitment G) (shares : List (SignShare F)) :
    Outcome (F × F) :=
  let (valid, blamed) := partitionShares sCom (shares.map fun sh => (sh.sender, sh.s))
  if blamed ≠ [] then .error (abort .sign blamed "signature share failed commitment check")
  else if valid.length < quorum.val then .error (.error (.notEnoughShares valid.length quorum.val))
  else do
    let s ← interpolateFirst quorum point valid
    return (r, s)

def combineAt (quorum : Usize) (point : F) (record : Presignature F G) (m : F) (shares : List (SignShare F)) :
    Outcome (F × F) :=
  combineVerified quorum point record.r (signCom record.uCom record.zCom m record.r) shares

/-- `record` is any party's: the commitments are identical. -/
def combine (params : Params) (record : Presignature F G) (m : F) (shares : List (SignShare F)) :
    Outcome (F × F) :=
  combineAt params.t 0 record m shares

/-- Filter the shares that fail, return their senders, and interpolate `(r, s)`
from the first `quorum` that pass. -/
def combineRobustVerified (quorum : Usize) (r : F) (sCom : FeldmanCommitment G) (shares : List (SignShare F)) :
    Outcome ((F × F) × List PartyId) :=
  let (valid, blamed) := partitionShares sCom (shares.map fun sh => (sh.sender, sh.s))
  if valid.length < quorum.val then .error (.error (.notEnoughShares valid.length quorum.val))
  else do
    let s ← interpolateFirst quorum 0 valid
    return ((r, s), blamed)

def combineRobust (params : Params) (record : Presignature F G) (m : F) (shares : List (SignShare F)) :
    Outcome ((F × F) × List PartyId) :=
  combineRobustVerified params.t record.r (signCom record.uCom record.zCom m record.r) shares

/-! ### Key-independent records -/

/-- A pool record `(id, R, r, [u])`, bound to no key. -/
structure KiPresignature (F G : Type) where
  id : U64
  index : PartyId
  r : F
  bigR : G
  uShare : F
  uCom : FeldmanCommitment G
  deriving DecidableEq

/-- The online `z`-share, by the formula of presign's P4. -/
def kiZShare (triple : TripleShare F) (delta eps : F) : F := beaverShare triple delta eps

def kiZCom (pub : TriplePublic G) (delta eps : F) : Outcome (FeldmanCommitment G) := beaverCom pub delta eps

def signShareKi (presig : KiPresignature F G) (zShare m : F) : SignShare F :=
  ⟨presig.index, m * presig.uShare + presig.r * zShare⟩

def combineKiRobust (params : Params) (record : KiPresignature F G) (zCom : FeldmanCommitment G) (m : F)
    (shares : List (SignShare F)) : Outcome ((F × F) × List PartyId) :=
  combineRobustVerified params.t record.r (signCom record.uCom zCom m record.r) shares

/-! ## Algorithm: sim.rs -/

/-- `m = H(M) mod q`. -/
def messageScalar (F G : Type) [Field F] [AddCommGroup G] [Module F G] [K256 F G] (msg : Bytes) : F :=
  K256.scalarFromDigest G (K256.sha256 F G msg)

/-- `Signature::from_scalars(r, s)` and the low-`s` form. -/
def finishSignature (G : Type) [AddCommGroup G] [Module F G] [K256 F G] (r s : F) : Outcome (Signature F) := do
  let sig ← Signature.fromScalars r s
  return sig.normalizeS G

/-- One share per record, verified combine, low-`s`; `tamper` replaces one
party's share. -/
def runSign (params : Params) (presigs : List (Presignature F G)) (msg : Bytes)
    (tamper : Option (PartyId × F)) : Outcome (Signature F) := do
  let m := messageScalar F G msg
  let shares := presigs.map fun p => signShare p m
  let shares := match tamper with
    | none => shares
    | some (party, fake) => shares.map fun sh => if sh.sender = party then ⟨sh.sender, fake⟩ else sh
  let record ← nth presigs 0
  let (r, s) ← combine params record m shares
  finishSignature G r s

/-! ## Lemmas -/

theorem poly_signCom (uCom zCom : FeldmanCommitment G) (m r : F) :
    (signCom uCom zCom m r).poly F = C m * uCom.poly F + C r * zCom.poly F := by
  unfold signCom
  rw [poly_add, poly_scale, poly_scale]

theorem combineVerified_ok (quorum : Usize) (r : F) (sCom : FeldmanCommitment G) (shares : List (SignShare F))
    (hnd : (shares.map (·.sender)).Nodup) (hv : ∀ sh ∈ shares, sCom.verifyShare sh.sender sh.s = true)
    (hq : quorum.val ≤ shares.length) (hdeg : (sCom.poly F).degree < quorum.val) :
    combineVerified quorum 0 r sCom shares = .ok (r, (sCom.poly F).eval 0) := by
  have hall : ∀ e ∈ shares.map fun sh => (sh.sender, sh.s), sCom.verifyShare e.1 e.2 = true := by
    intro e he
    obtain ⟨sh, hsh, rfl⟩ := List.mem_map.mp he
    exact hv sh hsh
  unfold combineVerified
  simp only [partitionShares_valid sCom _ hall, ne_eq, not_true_eq_false, if_false, List.length_map]
  rw [if_neg (by omega), interpolateFirst_ok quorum 0 sCom _ (by rw [List.map_map]; exact hnd) hall
    (by rw [List.length_map]; exact hq) hdeg]
  rfl

/-- **Robust combination succeeds exactly when `quorum` shares pass**, and blames
exactly the senders of the others. -/
theorem combineRobustVerified_eq (quorum : Usize) (r : F) (sCom : FeldmanCommitment G)
    (shares : List (SignShare F)) (hnd : (shares.map (·.sender)).Nodup)
    (hdeg : (sCom.poly F).degree < quorum.val) :
    combineRobustVerified quorum r sCom shares =
      if (shares.filter fun sh => sCom.verifyShare sh.sender sh.s).length < quorum.val then
        .error (.error (.notEnoughShares (shares.filter fun sh => sCom.verifyShare sh.sender sh.s).length
          quorum.val))
      else .ok ((r, (sCom.poly F).eval 0),
        (shares.filter fun sh => !sCom.verifyShare sh.sender sh.s).map (·.sender)) := by
  unfold combineRobustVerified
  simp only [partitionShares_eq, List.filter_map, Function.comp_def, List.length_map, List.map_map]
  split
  · rfl
  · next hlen =>
    rw [interpolateFirst_ok quorum 0 sCom _ _ _ (by rw [List.length_map]; omega) hdeg]
    · rfl
    · rw [List.map_map]
      exact hnd.sublist (List.filter_sublist.map _)
    · intro e he
      obtain ⟨sh, hsh, rfl⟩ := List.mem_map.mp he
      exact (List.mem_filter.mp hsh).2

section Basis

variable {t : Usize} {x : F} {uCom zCom : FeldmanCommitment G} {k r : F} (h : SignBasis t x uCom zCom k r)

include h

theorem degree_signCom (m : F) : ((signCom uCom zCom m r).poly F).degree < t.val := by
  rw [poly_signCom]
  exact Interpolation.degree_add_lt (Interpolation.degree_C_mul_lt _ h.degree_u)
    (Interpolation.degree_C_mul_lt _ h.degree_z)

/-- The signature sharing is `s = u·(m + r·x)`. -/
theorem eval_signCom (m : F) :
    ((signCom uCom zCom m r).poly F).eval 0 = (uCom.poly F).eval 0 * (m + r * x) := by
  rw [poly_signCom]
  simp only [eval_add, eval_mul, eval_C, h.product]
  rw [mul_add, mul_comm m, mul_left_comm]

/-- `from_scalars` refuses `s = 0` and nothing else here. -/
theorem finishSignature_verifies {m : F} (hm : m + r * x ≠ 0) :
    ∃ sig, finishSignature G r ((uCom.poly F).eval 0 * (m + r * x)) = .ok sig ∧
      sig.Verifies (x • K256.generator F : G) m ∧ sig.LowS G := by
  generalize hs : (uCom.poly F).eval 0 * (m + r * x) = s
  have hs0 : s ≠ 0 := hs ▸ mul_ne_zero (left_ne_zero_of_mul_eq_one h.inverse) hm
  refine ⟨(⟨r, s⟩ : Signature F).normalizeS G, ?_, ?_, normalizeS_lowS _ hs0⟩
  · unfold finishSignature Signature.fromScalars
    rw [if_neg (by simp [h.r_ne, hs0])]
    rfl
  · exact normalizeS_verifies _ _ _ (verifies_of_eq x k _ m r s h.inverse hs.symm hs0 h.r_ne h.nonce)

end Basis

/-- What a member broadcasts passes the check of every node. -/
theorem signShare_valid {c : Committee} {x : F} {id : U64} {ps : List (Presignature F G)}
    {uCom zCom : FeldmanCommitment G} {k r : F} (h : Presigned c x id ps uCom zCom k r) (m : F)
    {p : Presignature F G} (hp : p ∈ ps) :
    (signCom uCom zCom m r).verifyShare (signShare p m).sender (signShare p m).s = true := by
  rw [h.ps_eq] at hp
  obtain ⟨i, -, rfl⟩ := List.mem_map.mp hp
  rw [verifyShare_iff, poly_signCom]
  simp only [signShare, eval_add, eval_mul, eval_C]

theorem combine_ok {c : Committee} {x : F} {id : U64} {ps : List (Presignature F G)}
    {uCom zCom : FeldmanCommitment G} {k r : F} (h : Presigned c x id ps uCom zCom k r) (params : Params)
    (hparams : params.t = c.t) (m : F) (sub : List (Presignature F G)) (hsub : sub ⊆ ps)
    (hnd : (sub.map (·.index)).Nodup) (hlen : c.t.val ≤ sub.length) (record : Presignature F G)
    (hrecord : record ∈ ps) :
    combine params record m (sub.map fun p => signShare p m) =
      .ok (r, (uCom.poly F).eval 0 * (m + r * x)) := by
  have hfields : record.uCom = uCom ∧ record.zCom = zCom ∧ record.r = r := by
    rw [h.ps_eq] at hrecord
    obtain ⟨i, -, rfl⟩ := List.mem_map.mp hrecord
    exact ⟨rfl, rfl, rfl⟩
  obtain ⟨hu, hz, hr⟩ := hfields
  unfold combine combineAt
  rw [hu, hz, hr, hparams, combineVerified_ok, eval_signCom h.toSignBasis]
  · rw [List.map_map]
    exact hnd
  · intro sh hsh
    obtain ⟨p, hp, rfl⟩ := List.mem_map.mp hsh
    exact signShare_valid h m (hsub hp)
  · rw [List.length_map]
    exact hlen
  · exact degree_signCom h.toSignBasis m

/-- Signing with `sub`: the combined pair, and what `run_sign` returns. -/
theorem runSign_ok {c : Committee} {x : F} {id : U64} {ps : List (Presignature F G)}
    {uCom zCom : FeldmanCommitment G} {k r : F} (h : Presigned c x id ps uCom zCom k r) (params : Params)
    (hparams : params.t = c.t) (msg : Bytes) (sub : List (Presignature F G)) (hsub : sub ⊆ ps)
    (hnd : (sub.map (·.index)).Nodup) (hlen : c.t.val ≤ sub.length) :
    runSign params sub msg none =
      finishSignature G r ((uCom.poly F).eval 0 * (messageScalar F G msg + r * x)) := by
  obtain ⟨record, rest, rfl⟩ : ∃ record rest, sub = record :: rest := by
    refine List.exists_cons_of_ne_nil fun hnil => ?_
    have := c.t_pos
    rw [hnil, List.length_nil] at hlen
    omega
  have hcomb := combine_ok h params hparams (messageScalar F G msg) _ hsub hnd hlen record
    (hsub List.mem_cons_self)
  have h0 : nth (record :: rest) 0 = .ok record := rfl
  unfold runSign
  simp only [h0, bind, Except.bind]
  rw [hcomb]

/-! ## Top theorems -/

/-- **End to end**: presigning over honest parties restarts on a zero value or
gives every member a record of one presignature with `u·k = 1`, `z = u·x`,
`R = k·G`, `r = F(R)`; any `t` of the records combine to `s = u·(m + r·x)`, and
the signature on every `m` with `m + r·x ≠ 0` verifies under `X = x·G`. -/
theorem presign_sign (c : Committee) (ht : 2 * c.t.val ≤ c.n + 1) (keys : List (KeyShare F G)) (p : F[X])
    (hk : KeySharing c keys p) (id : U64) (rngs : Rngs F) (hrngs : c.n ≤ rngs.rngs.length) :
    (∃ msg, (presignWithCommittee c keys id none rngs).1 = .error (.error (.zeroValue msg))) ∨
    ∃ ps uCom zCom k r, (presignWithCommittee c keys id none rngs).1 = .ok ps ∧
      Presigned c (p.eval 0) id ps uCom zCom k r ∧
      ∀ params : Params, params.t = c.t → ∀ sub : List (Presignature F G), sub ⊆ ps →
        (sub.map (·.index)).Nodup → c.t.val ≤ sub.length →
        (∀ m : F, ∀ record ∈ ps,
          combine params record m (sub.map fun q => signShare q m) =
            .ok (r, (uCom.poly F).eval 0 * (m + r * p.eval 0)) ∧
          (m + r * p.eval 0 ≠ 0 → ∃ sig,
            finishSignature G r ((uCom.poly F).eval 0 * (m + r * p.eval 0)) = .ok sig ∧
            sig.Verifies (p.eval 0 • K256.generator F : G) m ∧ sig.LowS G)) ∧
        ∀ msg, runSign params sub msg none =
          finishSignature G r ((uCom.poly F).eval 0 * (messageScalar F G msg + r * p.eval 0)) := by
  obtain ⟨-, hres⟩ := presign_triple c ht hk id rngs hrngs
  cases hrun : (presignWithCommittee c keys id none rngs).1 with
  | error e =>
    rw [hrun] at hres
    obtain ⟨msg, rfl⟩ := hres
    exact Or.inl ⟨msg, rfl⟩
  | ok ps =>
    rw [hrun] at hres
    obtain ⟨uCom, zCom, k, r, hp⟩ := hres
    refine Or.inr ⟨ps, uCom, zCom, k, r, rfl, hp, fun params hparams sub hsub hnd hlen => ⟨?_, ?_⟩⟩
    · intro m record hrecord
      refine ⟨combine_ok hp params hparams m sub hsub hnd hlen record hrecord, fun hm => ?_⟩
      exact finishSignature_verifies hp.toSignBasis hm
    · intro msg
      exact runSign_ok hp params hparams msg sub hsub hnd hlen

/-! ### Two of three, every draw 1 -/

section Trio

open Secp256k1

def trioKey (j : PartyId) : KeyShare Scalar Point := ⟨j, 1 + scalarFrom j, ⟨[1, 1]⟩⟩

def trioKeys : List (KeyShare Scalar Point) := trio.ids.map trioKey

def trioRngs : Rngs Scalar := ⟨trio.ids.map fun j => ⟨j, fun _ => 1, 0⟩, []⟩

/-- Party `j`'s record: the nonce is `1/3`. -/
def trioRecord (j : PartyId) : Presignature Scalar Point :=
  ⟨0, j, -3⁻¹, 3⁻¹, 3 + 3 * scalarFrom j, 3 - 5 * scalarFrom j, ⟨[3, 3]⟩, ⟨[3, -5]⟩⟩

theorem presign_trio :
    (presignWithCommittee trio trioKeys 0 none trioRngs).1 = .ok (trio.ids.map trioRecord) := by
  decide +kernel

theorem trio_basis : SignBasis trio.t (1 : Scalar) (⟨[3, 3]⟩ : FeldmanCommitment Point) ⟨[3, -5]⟩ 3⁻¹ (-3⁻¹) := by
  have hu : (⟨[3, 3]⟩ : FeldmanCommitment Point) = fromPoly (⟨[3, 3]⟩ : ShamirPoly Scalar) := by decide +kernel
  have hz : (⟨[3, -5]⟩ : FeldmanCommitment Point) = fromPoly (⟨[3, -5]⟩ : ShamirPoly Scalar) := by decide +kernel
  refine ⟨degree_poly_lt _, degree_poly_lt _, ?_, ?_, by decide +kernel, by decide +kernel⟩
  · rw [hu, poly_fromPoly, ← ShamirPoly.evalAt_eq]
    decide +kernel
  · rw [hu, hz, poly_fromPoly, poly_fromPoly, ← ShamirPoly.evalAt_eq, ← ShamirPoly.evalAt_eq]
    decide +kernel

theorem trioKeys_sharing : KeySharing trio trioKeys (⟨[1, 1]⟩ : ShamirPoly Scalar).poly := by
  have hcom : (⟨[1, 1]⟩ : FeldmanCommitment Point) = fromPoly (⟨[1, 1]⟩ : ShamirPoly Scalar) := by decide +kernel
  have hdegree : ((⟨[1, 1]⟩ : FeldmanCommitment Point).poly Scalar).degree < (2 : Nat) := degree_poly_lt _
  refine ⟨rfl, by rwa [hcom, poly_fromPoly] at hdegree, fun key hkey => ?_, ?_⟩
  · obtain ⟨j, -, rfl⟩ := List.mem_map.mp hkey
    show (⟨[1, 1]⟩ : FeldmanCommitment Point).poly Scalar = _
    rw [hcom, poly_fromPoly]
  · simp only [← ShamirPoly.evalAt_eq]
    decide +kernel

theorem trioKey_eval : (⟨[1, 1]⟩ : ShamirPoly Scalar).poly.eval 0 = 1 := by
  rw [← ShamirPoly.evalAt_eq]
  decide +kernel

theorem trio_presigned : Presigned trio 1 0 (trio.ids.map trioRecord) ⟨[3, 3]⟩ ⟨[3, -5]⟩ 3⁻¹ (-3⁻¹) := by
  have hu : (⟨[3, 3]⟩ : FeldmanCommitment Point) = fromPoly (⟨[3, 3]⟩ : ShamirPoly Scalar) := by decide +kernel
  have hz : (⟨[3, -5]⟩ : FeldmanCommitment Point) = fromPoly (⟨[3, -5]⟩ : ShamirPoly Scalar) := by decide +kernel
  refine ⟨trio_basis, ?_⟩
  rw [hu, hz, poly_fromPoly, poly_fromPoly]
  simp only [← ShamirPoly.evalAt_eq]
  decide +kernel

/-- Members 1 and 3 sign the message scalar 1. -/
theorem presign_sign_trio : ∃ (uCom zCom : FeldmanCommitment Point) (k r s : Scalar),
    Presigned trio 1 0 (trio.ids.map trioRecord) uCom zCom k r ∧
    combine ⟨3, 2⟩ (trioRecord 2) 1 [signShare (trioRecord 1) 1, signShare (trioRecord 3) 1] = .ok (r, s) ∧
    ∃ sig, finishSignature Point r s = .ok sig ∧
      sig.Verifies ((1 : Scalar) • K256.generator Scalar : Point) 1 ∧ sig.LowS Point := by
  rcases presign_sign trio (by decide) trioKeys _ trioKeys_sharing 0 trioRngs (by decide) with
    ⟨msg, h⟩ | ⟨ps, uCom, zCom, k, r, hrun, hp, hsign⟩
  · rw [presign_trio] at h
    cases h
  · rw [presign_trio] at hrun
    obtain rfl := Except.ok.inj hrun
    rw [trioKey_eval] at hp hsign
    have hr : r = -3⁻¹ := by
      have hrecords := congrArg (fun l => l.map (·.r)) hp.ps_eq
      exact (List.cons.inj hrecords).1.symm
    obtain ⟨hcombine, -⟩ := hsign ⟨3, 2⟩ rfl [trioRecord 1, trioRecord 3] (by decide +kernel) (by decide) (by decide)
    obtain ⟨hpair, hsig⟩ := hcombine 1 (trioRecord 2) (by decide +kernel)
    have hm : (1 : Scalar) + r * 1 ≠ 0 := by
      rw [hr]
      decide +kernel
    exact ⟨uCom, zCom, k, r, _, hp, hpair, hsig hm⟩

end Trio

/-! ### One party, every draw 1 -/

section Solo

open Secp256k1

def solo : Committee :=
  { ids := [1], t := 1, sorted := by decide, ids_pos := by simp, ids_ne := by decide, t_pos := le_refl 1 }

def soloKey : KeyShare Scalar Point := ⟨1, 1, ⟨[1]⟩⟩

def soloRngs : Rngs Scalar := ⟨[⟨1, fun _ => 1, 0⟩], []⟩

def soloRecord : Presignature Scalar Point := ⟨0, 1, 1, 1, 1, 1, ⟨[1]⟩, ⟨[1]⟩⟩

theorem presign_solo : (presignWithCommittee solo [soloKey] 0 none soloRngs).1 = .ok [soloRecord] := by
  decide +kernel

/-- The presignature of `solo` has `r = x = 1`: on the message scalar `-1` the
valid shares combine to `s = 0`, which is no signature, and `run_sign` fails. -/
theorem presign_sign_zero :
    (presignWithCommittee solo [soloKey] 0 none soloRngs).1 = .ok [soloRecord] ∧
      combine ⟨1, 1⟩ soloRecord (-1) [signShare soloRecord (-1)] = .ok (1, 0) ∧
      (∀ X : Point, ∀ m, ¬ (⟨1, 0⟩ : Signature Scalar).Verifies X m) ∧
      runSign ⟨1, 1⟩ [soloRecord] (bytes32 (order - 1)) none = .error (.error .ecdsa) :=
  ⟨presign_solo, by decide +kernel, fun _ _ h => h.2.1 rfl, by decide +kernel⟩

end Solo

end OhmEcdsa
