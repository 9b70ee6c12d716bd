import OhmEcdsa.Core.Codec
import OhmEcdsa.Support.Pratt

/-!
# The laws at the order of secp256k1

The scalar field is `ZMod order`; the points are the cyclic group of that order,
written by their logarithms, with generator 1.  The x-coordinate is a byte
string that determines a point up to sign, as an affine x-coordinate does, and the
tag of the compressed form picks the sign.
-/

namespace OhmEcdsa.Secp256k1

/-- The order of the secp256k1 group. -/
def order : Nat := 0xFFFFFFFFFFFFFFFFFFFFFFFFFFFFFFFEBAAEDCE6AF48A03BBFD25E8CD0364141

/-- The certificates of `order` and of the primes that its certificate rests on. -/
def certificates : List (Nat × Nat × List Nat) :=
  [(44706919, 6, [2, 3, 797, 9349]), (545358713, 5, [2, 2, 2, 41, 59, 28181]),
    (297159362677, 2, [2, 2, 3, 3, 11, 461, 1627771]),
    (29047611873442575647497758179, 2, [2, 293, 305873, 545358713, 297159362677]),
    (341948486974166000522343609283189, 2, [2, 2, 3, 3, 3, 109, 29047611873442575647497758179]),
    (174723607534414371449, 3, [2, 2, 2, 17, 59, 4051, 120233, 44706919]),
    (107361793816595537, 3, [2, 2, 2, 2, 16699, 85831, 4681609]),
    (order, 7, [2, 2, 2, 2, 2, 2, 3, 149, 631, 107361793816595537, 174723607534414371449,
      341948486974166000522343609283189])]

theorem certificates_check : (certificates.all fun e => Pratt.check e.1 e.2.1 e.2.2) = true := by decide +kernel

/-- A certified number whose factors are prime is prime. -/
theorem prime_of_certificate (p a : Nat) (fs : List Nat) (h : (p, a, fs) ∈ certificates) (hfs : ∀ f ∈ fs, f.Prime) :
    p.Prime :=
  Pratt.prime_of_check p a fs (List.all_eq_true.mp certificates_check (p, a, fs) h) hfs

theorem prime_44706919 : Nat.Prime 44706919 :=
  prime_of_certificate _ 6 [2, 3, 797, 9349] (by simp [certificates]) (by norm_num)

theorem prime_545358713 : Nat.Prime 545358713 :=
  prime_of_certificate _ 5 [2, 2, 2, 41, 59, 28181] (by simp [certificates]) (by norm_num)

theorem prime_297159362677 : Nat.Prime 297159362677 :=
  prime_of_certificate _ 2 [2, 2, 3, 3, 11, 461, 1627771] (by simp [certificates]) (by norm_num)

theorem prime_29047611873442575647497758179 : Nat.Prime 29047611873442575647497758179 := by
  refine prime_of_certificate _ 2 [2, 293, 305873, 545358713, 297159362677] (by simp [certificates]) ?_
  simp only [List.forall_mem_cons, prime_545358713, prime_297159362677]
  norm_num

theorem prime_341948486974166000522343609283189 : Nat.Prime 341948486974166000522343609283189 := by
  refine prime_of_certificate _ 2 [2, 2, 3, 3, 3, 109, 29047611873442575647497758179] (by simp [certificates]) ?_
  simp only [List.forall_mem_cons, prime_29047611873442575647497758179]
  norm_num

theorem prime_174723607534414371449 : Nat.Prime 174723607534414371449 := by
  refine prime_of_certificate _ 3 [2, 2, 2, 17, 59, 4051, 120233, 44706919] (by simp [certificates]) ?_
  simp only [List.forall_mem_cons, prime_44706919]
  norm_num

theorem prime_107361793816595537 : Nat.Prime 107361793816595537 :=
  prime_of_certificate _ 3 [2, 2, 2, 2, 16699, 85831, 4681609] (by simp [certificates]) (by norm_num)

theorem order_prime : order.Prime := by
  refine prime_of_certificate _ 7 [2, 2, 2, 2, 2, 2, 3, 149, 631, 107361793816595537, 174723607534414371449,
    341948486974166000522343609283189] (by simp [certificates]) ?_
  simp only [List.forall_mem_cons, prime_107361793816595537, prime_174723607534414371449, prime_341948486974166000522343609283189]
  norm_num

instance : Fact order.Prime := ⟨order_prime⟩

abbrev Scalar := ZMod order

abbrev Point := ZMod order

/-- A 32-byte big-endian string. -/
def bytes32 (v : Nat) : Bytes := (List.range 32).reverse.map fun i => UInt8.ofNat (v / 256 ^ i)

def xCoordinate (P : Point) : Option Bytes :=
  if P = 0 then none else some (bytes32 (min P.val (order - P.val)))

/-- Of `P` and `-P`, the one with the smaller logarithm has the even `y`. -/
def compressed (P : Point) : Bytes :=
  if P = 0 then [0]
  else (if P.val ≤ order - P.val then 2 else 3) :: bytes32 (min P.val (order - P.val))

theorem neg_val (a : ZMod order) (h : a ≠ 0) : (-a).val = order - a.val := by
  rw [ZMod.neg_val, if_neg h]

theorem xCoordinate_neg (P : Point) : xCoordinate (-P) = xCoordinate P := by
  unfold xCoordinate
  by_cases h : P = 0
  · simp [h]
  · have hlt : P.val < order := ZMod.val_lt P
    have hsub : order - (order - P.val) = P.val := by omega
    rw [if_neg h, if_neg (neg_ne_zero.mpr h), neg_val P h, hsub, min_comm]

theorem isHigh_neg (s : Scalar) (h : s ≠ 0) :
    decide (order / 2 < (-s).val) = !decide (order / 2 < s.val) := by
  have hodd : order % 2 = 1 := by decide +kernel
  have hlt : s.val < order := ZMod.val_lt s
  rw [neg_val s h, Bool.eq_iff_iff, Bool.not_eq_true', decide_eq_true_iff, decide_eq_false_iff_not]
  omega

-- the numerals of the examples
instance two_atLeastTwo : Nat.AtLeastTwo 2 := inferInstance
instance three_atLeastTwo : Nat.AtLeastTwo 3 := inferInstance
instance five_atLeastTwo : Nat.AtLeastTwo 5 := inferInstance
instance seven_atLeastTwo : Nat.AtLeastTwo 7 := inferInstance
instance eleven_atLeastTwo : Nat.AtLeastTwo 11 := inferInstance

instance : K256 Scalar Point where
  generator := 1
  generator_free c h := by simpa using h
  generator_spans P := ⟨P, by simp⟩
  scalar_injective i j h := by
    have hlt : 2 ^ 64 < order := by decide +kernel
    have hi := i.isLt
    have hj := j.isLt
    have := (ZMod.natCast_eq_natCast_iff _ _ _).mp h
    rw [Nat.ModEq, Nat.mod_eq_of_lt (by omega), Nat.mod_eq_of_lt (by omega)] at this
    exact Fin.ext this
  pointBytes := compressed
  xBytes := xCoordinate
  xBytes_eq_none P := by unfold xCoordinate; split <;> simp_all
  xBytes_neg := xCoordinate_neg
  sha256 b := b
  scalarFromDigest b := ((b.foldl (fun acc d => acc * 256 + d.toNat) 0 : Nat) : ZMod order)
  isHigh s := decide (order / 2 < s.val)
  isHigh_neg := isHigh_neg

/-! ## The wire format -/

open Codec

theorem bytes32_eq (v : Nat) : bytes32 v = bigEndian 32 v := rfl

theorem order_lt : order < 256 ^ 32 := by decide +kernel

theorem order_odd : order % 2 = 1 := by decide +kernel

def scalarFromRepr (b : Bytes) : Option Scalar := if ofBigEndian b < order then some (ofBigEndian b : Scalar) else none

def pointFromCompressed : Bytes → Option Point
  | [] => none
  | tag :: x =>
    let v := ofBigEndian x
    if 0 < v ∧ v ≤ order - v then some (if tag = 2 then (v : Point) else -(v : Point)) else none

theorem ofBigEndian_bytes32 {v : Nat} (hv : v < order) : ofBigEndian (bytes32 v) = v := by
  rw [bytes32_eq, ofBigEndian_bigEndian]
  exact Nat.mod_eq_of_lt (hv.trans order_lt)

theorem bytes32_ofBigEndian {b : Bytes} (hb : b.length = 32) : bytes32 (ofBigEndian b) = b := by
  have := bigEndian_ofBigEndian b
  rw [hb] at this
  exact this

theorem scalarFromRepr_iff (b : Bytes) (s : Scalar) (hb : b.length = 32) :
    scalarFromRepr b = some s ↔ b = bytes32 s.val := by
  unfold scalarFromRepr
  constructor
  · intro h
    by_cases hlt : ofBigEndian b < order
    · rw [if_pos hlt] at h
      rw [← Option.some.inj h, ZMod.val_natCast, Nat.mod_eq_of_lt hlt, bytes32_ofBigEndian hb]
    · rw [if_neg hlt] at h
      cases h
  · rintro rfl
    rw [ofBigEndian_bytes32 (ZMod.val_lt s), if_pos (ZMod.val_lt s), ZMod.natCast_zmod_val]

theorem val_pos {P : Point} (hP : P ≠ 0) : 0 < P.val := Nat.pos_of_ne_zero ((ZMod.val_ne_zero P).mpr hP)

theorem pointFromCompressed_iff (tag : UInt8) (x : Bytes) (P : Point) (htag : tag = 2 ∨ tag = 3) (hx : x.length = 32) :
    pointFromCompressed (tag :: x) = some P ↔ tag :: x = compressed P := by
  unfold pointFromCompressed
  have hodd := order_odd
  constructor
  · intro h
    by_cases hv : 0 < ofBigEndian x ∧ ofBigEndian x ≤ order - ofBigEndian x
    · simp only [if_pos hv] at h
      have hlt : ofBigEndian x < order := by omega
      have hval : ((ofBigEndian x : Nat) : Point).val = ofBigEndian x := by
        rw [ZMod.val_natCast, Nat.mod_eq_of_lt hlt]
      have hne : ((ofBigEndian x : Nat) : Point) ≠ 0 := by
        intro h0
        rw [h0, ZMod.val_zero] at hval
        omega
      have hP := Option.some.inj h
      rcases htag with rfl | rfl
      · rw [if_pos rfl] at hP
        rw [← hP]
        unfold compressed
        rw [if_neg hne, hval, if_pos hv.2, min_eq_left hv.2, bytes32_ofBigEndian hx]
      · have hneg : (-((ofBigEndian x : Nat) : Point)).val = order - ofBigEndian x := by
          rw [neg_val _ hne, hval]
        have hsub : order - (order - ofBigEndian x) = ofBigEndian x := by omega
        have hle : ¬ order - ofBigEndian x ≤ ofBigEndian x := by omega
        rw [if_neg (by decide)] at hP
        rw [← hP]
        unfold compressed
        rw [if_neg (neg_ne_zero.mpr hne), hneg, hsub, if_neg hle, min_eq_right hv.2,
          bytes32_ofBigEndian hx]
    · simp only [if_neg hv] at h
      cases h
  · intro h
    unfold compressed at h
    by_cases hP : P = 0
    · rw [if_pos hP] at h
      rw [(List.cons.inj h).1] at htag
      exact absurd htag (by decide)
    · have hpos := val_pos hP
      have hlt : P.val < order := ZMod.val_lt P
      rw [if_neg hP] at h
      obtain ⟨ht, hxs⟩ := List.cons.inj h
      have hmin : min P.val (order - P.val) < order := by omega
      rw [hxs]
      simp only [ofBigEndian_bytes32 hmin]
      have hv : 0 < min P.val (order - P.val) ∧
          min P.val (order - P.val) ≤ order - min P.val (order - P.val) := by omega
      rw [if_pos hv]
      by_cases hle : P.val ≤ order - P.val
      · rw [if_pos hle] at ht
        rw [if_pos ht, min_eq_left hle, ZMod.natCast_zmod_val]
      · rw [if_neg hle] at ht
        have hsum : ((order - P.val : Nat) : Point) + P = 0 := by
          calc ((order - P.val : Nat) : Point) + P = ((order - P.val + P.val : Nat) : Point) := by
                rw [Nat.cast_add, ZMod.natCast_zmod_val]
            _ = 0 := by rw [Nat.sub_add_cancel hlt.le, ZMod.natCast_self]
        rw [if_neg (by rw [ht]; decide), min_eq_right (by omega), neg_eq_of_add_eq_zero_right hsum]

instance : WireFormat Scalar Point where
  scalarBytes s := bytes32 s.val
  scalarFromRepr := scalarFromRepr
  scalarBytes_length s := bigEndian_length 32 s.val
  scalarFromRepr_iff b s hb := scalarFromRepr_iff b s hb
  pointBytes_zero := rfl
  pointBytes_compressed P hP := by
    refine ⟨if P.val ≤ order - P.val then 2 else 3, bytes32 (min P.val (order - P.val)), ?_,
      bigEndian_length 32 _, if_neg hP⟩
    by_cases hle : P.val ≤ order - P.val
    · exact Or.inl (if_pos hle)
    · exact Or.inr (if_neg hle)
  pointFromCompressed := pointFromCompressed
  pointFromCompressed_iff tag x P htag hx := pointFromCompressed_iff tag x P htag hx

/-- The curve with another digest. -/
def withDigest (digest : Bytes → Bytes) : K256 Scalar Point :=
  { (inferInstance : K256 Scalar Point) with sha256 := digest }

def wireWithDigest (digest : Bytes → Bytes) : @WireFormat Scalar Point _ _ _ (withDigest digest) :=
  let wire : WireFormat Scalar Point := inferInstance
  letI := withDigest digest
  { scalarBytes := wire.scalarBytes
    scalarFromRepr := wire.scalarFromRepr
    scalarBytes_length := wire.scalarBytes_length
    scalarFromRepr_iff := wire.scalarFromRepr_iff
    pointBytes_zero := wire.pointBytes_zero
    pointBytes_compressed := wire.pointBytes_compressed
    pointFromCompressed := wire.pointFromCompressed
    pointFromCompressed_iff := wire.pointFromCompressed_iff }

theorem wire_codec_secp256k1 :
    Canonical (SignedEnvelope.encode DkgMessage.encode)
      (SignedEnvelope.decode Scalar Point (DkgMessage.decode Scalar Point))
      (SignedEnvelope.Fits Scalar Point DkgMessage.encode DkgMessage.Fits) :=
  have h := wire_codec_canonical Scalar Point
  (h.2.2.2.2 DkgMessage.encode (DkgMessage.decode Scalar Point) DkgMessage.Fits h.2.2.2.1).2.1

end OhmEcdsa.Secp256k1
