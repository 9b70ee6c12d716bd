import Mathlib

/-!
# Primality by Pratt certificates

A witness `a` of order `p - 1` modulo `p`, given by the prime factors of `p - 1`,
checked by square and multiply:

    check p a fs = true → (∀ f ∈ fs, f.Prime) → p.Prime              (prime_of_check)
-/

namespace Pratt

/-- `acc · a ^ k mod m` by square and multiply, for `k < 2 ^ fuel`. -/
def powMod (m : Nat) : Nat → Nat → Nat → Nat → Nat
  | 0, _, _, acc => acc % m
  | fuel + 1, a, k, acc => powMod m fuel (a * a % m) (k / 2) (if k % 2 = 1 then acc * a % m else acc)

theorem powMod_eq (m fuel a k acc : Nat) (h : k < 2 ^ fuel) : powMod m fuel a k acc = acc * a ^ k % m := by
  induction fuel generalizing a k acc with
  | zero =>
    obtain rfl : k = 0 := by simpa using h
    simp [powMod]
  | succ fuel ih =>
    have hk : k = k % 2 + 2 * (k / 2) := (Nat.mod_add_div k 2).symm
    rw [powMod, ih _ _ _ (by omega)]
    rw [Nat.mul_mod, ← Nat.pow_mod, ← Nat.mul_mod, ← pow_two, ← pow_mul]
    split
    · next hodd =>
      rw [Nat.mul_mod, Nat.mod_mod, ← Nat.mul_mod]
      conv_rhs => rw [hk, hodd, pow_add, pow_one, ← mul_assoc]
    · next heven =>
      have h0 : k % 2 = 0 := by omega
      conv_rhs => rw [hk, h0, zero_add]

/-- The certificate: `a` has order `p - 1 = fs.prod` modulo `p`. -/
def check (p a : Nat) (fs : List Nat) : Bool :=
  1 < p && p - 1 < 2 ^ (p.log2 + 1) && p - 1 == fs.prod && powMod p (p.log2 + 1) a (p - 1) 1 == 1 &&
    fs.all fun f => powMod p (p.log2 + 1) a ((p - 1) / f) 1 != 1

theorem cast_pow_eq_one_iff {p a k : Nat} (hp : 1 < p) : (a : ZMod p) ^ k = 1 ↔ a ^ k % p = 1 := by
  rw [← Nat.cast_pow, ← Nat.cast_one, ZMod.natCast_eq_natCast_iff, Nat.ModEq, Nat.mod_eq_of_lt hp]

theorem prime_of_check (p a : Nat) (fs : List Nat) (hc : check p a fs = true)
    (hfs : ∀ f ∈ fs, f.Prime) : p.Prime := by
  simp only [check, Bool.and_eq_true, decide_eq_true_eq, beq_iff_eq, List.all_eq_true, bne_iff_ne] at hc
  obtain ⟨⟨⟨⟨hp, hsize⟩, hprod⟩, h1⟩, hd⟩ := hc
  rw [powMod_eq _ _ _ _ _ hsize, one_mul] at h1
  refine lucas_primality p a ((cast_pow_eq_one_iff hp).mpr h1) fun q hq hdvd hone => ?_
  obtain ⟨f, hf, hqf⟩ := (hq.prime.dvd_prod_iff).mp (hprod ▸ hdvd)
  obtain rfl : q = f := (Nat.prime_dvd_prime_iff_eq hq (hfs f hf)).mp hqf
  refine hd q hf ?_
  rw [powMod_eq _ _ _ _ _ (lt_of_le_of_lt (Nat.div_le_self _ _) hsize), one_mul]
  exact (cast_pow_eq_one_iff hp).mp hone

end Pratt
