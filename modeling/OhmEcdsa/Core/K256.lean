import OhmEcdsa.Core.Basic
import OhmEcdsa.Support.Hoare

/-!
# What the protocol code uses of `k256`, `sha2` and `rand`

`F` is the scalar field and `G` the group of points, written additively.  The
laws are the documented ones the code relies on: the generator has prime order
and generates, `Scalar::from` is injective on `u64`, only the identity has no
affine x-coordinate, negation keeps it, and exactly one of `s`, `-s` is high.

A `StdRng` is the stream of scalars its seed fixes together with a position:
`Scalar::random` reads the scalar at the position and advances by one.  The
state of the code that draws also records the draws themselves.
-/

namespace OhmEcdsa

class K256 (F G : Type) [Field F] [AddCommGroup G] [Module F G] where
  /-- `ProjectivePoint::GENERATOR`. -/
  generator : G
  generator_free : ∀ c : F, c • generator = 0 → c = 0
  generator_spans : ∀ P : G, ∃ c : F, c • generator = P
  scalar_injective : Function.Injective fun j : Usize => ((j.val : Nat) : F)
  /-- SEC1 compressed encoding: `p.to_affine().to_encoded_point(true)`. -/
  pointBytes : G → Bytes
  /-- `to_encoded_point(false).x()`: the identity has none. -/
  xBytes : G → Option Bytes
  xBytes_eq_none : ∀ P : G, xBytes P = none ↔ P = 0
  xBytes_neg : ∀ P : G, xBytes (-P) = xBytes P
  sha256 : Bytes → Bytes
  /-- `scalar_from_digest`: a 32-byte digest reduced mod `q`. -/
  scalarFromDigest : Bytes → F
  /-- `s > q / 2`. -/
  isHigh : F → Bool
  isHigh_neg : ∀ s : F, s ≠ 0 → isHigh (-s) = !isHigh s

/-- `u64::to_be_bytes`. -/
def u64Bytes (v : Nat) : Bytes :=
  (List.range 8).reverse.map fun i => UInt8.ofNat (v / 256 ^ i)

def utf8 (s : String) : Bytes := s.toUTF8.toList

namespace tags

def dkgCommit : Bytes := utf8 "OHM-ECDSA/v0.1/dkg-commit"
def refreshCommit : Bytes := utf8 "OHM-ECDSA/v0.1/refresh-commit"
def reshareCommit : Bytes := utf8 "OHM-ECDSA/v0.1/reshare-commit"
def tripleProduct : Bytes := utf8 "OHM-ECDSA/v0.1/triple-product"

end tags

variable {F G : Type} [Field F] [AddCommGroup G] [Module F G]

/-- `Scalar::from(j as u64)`. -/
def scalarFrom (j : PartyId) : F := ((j.val : Nat) : F)

/-- `Scalar::invert`. -/
def invert [DecidableEq F] (c : F) : Option F := if c = 0 then none else some c⁻¹

/-- `0` is the only party id whose scalar is zero. -/
theorem scalarFrom_injective (F G : Type) [Field F] [AddCommGroup G] [Module F G] [K256 F G] :
    Function.Injective (scalarFrom : PartyId → F) :=
  K256.scalar_injective (F := F) (G := G)

theorem map_scalarFrom_nodup (F G : Type) [Field F] [AddCommGroup G] [Module F G] [K256 F G]
    {ids : List PartyId} (h : ids.Nodup) : (ids.map (scalarFrom : PartyId → F)).Nodup :=
  h.map (scalarFrom_injective F G)

/-! ## Randomness -/

/-- A seeded generator, at the granularity of `Scalar::random`: the stream its
seed fixes and the position of the next draw.  `party` says whose it is. -/
structure StdRng (F : Type) where
  party : Nat
  stream : Nat → F
  pos : Nat

/-- The generators a call holds (`rngs: &mut [StdRng]`), and the history of
draws: the scalar at which position of whose stream. -/
structure Rngs (F : Type) where
  rngs : List (StdRng F)
  drawn : List (Nat × Nat)

/-- Code that draws from `rngs`; what it drew stays drawn when it fails. -/
abbrev RngM (F α : Type) := ExceptT Fault (StateM (Rngs F)) α

/-- `Scalar::random(&mut rngs[k])`. -/
def randomScalar {F : Type} (k : Nat) : RngM F F := do
  let s ← get
  match s.rngs[k]? with
  | none => throw (.panic "index out of bounds")
  | some r =>
    set (⟨s.rngs.set k { r with pos := r.pos + 1 }, s.drawn ++ [(r.party, r.pos)]⟩ : Rngs F)
    return r.stream r.pos

theorem randomScalar_some {F : Type} {k : Nat} {s : Rngs F} {r : StdRng F} (h : s.rngs[k]? = some r) :
    (randomScalar k : RngM F F) s = (.ok (r.stream r.pos),
      ⟨s.rngs.set k { r with pos := r.pos + 1 }, s.drawn ++ [(r.party, r.pos)]⟩) := by
  unfold randomScalar
  rw [Hoare.bind_run]
  show (match s.rngs[k]? with | none => _ | some r => _ : RngM F F) s = _
  rw [h]
  rfl

theorem randomScalar_none {F : Type} {k : Nat} {s : Rngs F} (h : s.rngs[k]? = none) :
    (randomScalar k : RngM F F) s = (.error (.panic "index out of bounds"), s) := by
  unfold randomScalar
  rw [Hoare.bind_run]
  show (match s.rngs[k]? with | none => _ | some r => _ : RngM F F) s = _
  rw [h]
  rfl

/-! ## ECDSA -/

structure Signature (F : Type) where
  r : F
  s : F
  deriving DecidableEq

/-- `Signature::from_scalars`: neither component may be zero. -/
def Signature.fromScalars [DecidableEq F] (r s : F) : Outcome (Signature F) :=
  if r = 0 ∨ s = 0 then .error (.error .ecdsa) else .ok ⟨r, s⟩

/-- `sig.normalize_s().unwrap_or(sig)`. -/
def Signature.normalizeS (G : Type) [AddCommGroup G] [Module F G] [K256 F G]
    (sig : Signature F) : Signature F :=
  if K256.isHigh G sig.s then ⟨sig.r, -sig.s⟩ else sig

/-- ECDSA verification of `sig` on the message scalar `m` under `X`. -/
def Signature.Verifies [K256 F G] (X : G) (m : F) (sig : Signature F) : Prop :=
  sig.r ≠ 0 ∧ sig.s ≠ 0 ∧
    (K256.xBytes F ((sig.s⁻¹ * m) • K256.generator F + (sig.s⁻¹ * sig.r) • X)).map
      (K256.scalarFromDigest G) = some sig.r

/-- The signature is in low-`s` form. -/
def Signature.LowS (G : Type) [AddCommGroup G] [Module F G] [K256 F G] (sig : Signature F) : Prop :=
  K256.isHigh G sig.s = false

theorem normalizeS_lowS [K256 F G] (sig : Signature F) (hs : sig.s ≠ 0) :
    (sig.normalizeS G).LowS G := by
  unfold Signature.normalizeS Signature.LowS
  split
  · next h => rw [K256.isHigh_neg _ hs, h]; rfl
  · next h => simpa using h

/-- Negating `s` negates the recovered nonce point, which keeps its x-coordinate. -/
theorem normalizeS_verifies [K256 F G] (X : G) (m : F) (sig : Signature F)
    (h : sig.Verifies X m) : (sig.normalizeS G).Verifies X m := by
  unfold Signature.normalizeS
  split
  · obtain ⟨hr, hs, hx⟩ := h
    refine ⟨hr, neg_ne_zero.mpr hs, ?_⟩
    have hneg : ((-sig.s)⁻¹ * m) • K256.generator F + ((-sig.s)⁻¹ * sig.r) • X
        = -((sig.s⁻¹ * m) • K256.generator F + (sig.s⁻¹ * sig.r) • X) := by
      simp only [inv_neg, neg_mul, neg_smul, neg_add]
    simp only [hneg, K256.xBytes_neg, hx]
  · exact h

/-- The ECDSA equation: with `R = k·G`, `u = k⁻¹` and `s = u·(m + r·x)` the
pair `(r, s)` verifies under `x·G`. -/
theorem verifies_of_eq [K256 F G] (x k u m r s : F) (huk : u * k = 1) (hs : s = u * (m + r * x))
    (hs0 : s ≠ 0) (hr0 : r ≠ 0)
    (hr : (K256.xBytes F (k • K256.generator F : G)).map (K256.scalarFromDigest G) = some r) :
    (⟨r, s⟩ : Signature F).Verifies (x • K256.generator F : G) m := by
  refine ⟨hr0, hs0, ?_⟩
  have hk : s⁻¹ * m + s⁻¹ * r * x = k := by
    have : s * k = m + r * x := by
      calc s * k = (u * k) * (m + r * x) := by rw [hs]; ring
        _ = m + r * x := by rw [huk, one_mul]
    field_simp
    rw [← this, mul_comm]
  rw [smul_smul, ← add_smul, hk]
  exact hr

end OhmEcdsa
