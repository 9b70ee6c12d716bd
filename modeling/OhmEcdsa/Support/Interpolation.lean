import Mathlib

/-!
# Polynomials from coefficient lists and exact interpolation over a field

`ofCoeffs cs` is the polynomial with coefficients `cs`, constant term first.
`weight x xs a` is the Lagrange weight of the node `a` among the nodes `xs` for
interpolation at `x`; for distinct nodes and a polynomial of degree below their
number the weighted sum of its values is its value at `x`:

    xs.Nodup → p.degree < xs.length →
      (xs.map fun a => weight x xs a * p.eval a).sum = p.eval x       (sum_weight_mul_eval)
-/

namespace Interpolation

open Polynomial

variable {F : Type} [Field F]

/-- The polynomial `Σ cs[i]·X^i`. -/
noncomputable def ofCoeffs : List F → F[X]
  | [] => 0
  | c :: cs => C c + X * ofCoeffs cs

@[simp] theorem ofCoeffs_nil : ofCoeffs ([] : List F) = 0 := rfl

@[simp] theorem ofCoeffs_cons (c : F) (cs : List F) : ofCoeffs (c :: cs) = C c + X * ofCoeffs cs := rfl

theorem coeff_ofCoeffs (cs : List F) (i : Nat) : (ofCoeffs cs).coeff i = cs.getD i 0 := by
  induction cs generalizing i with
  | nil => simp
  | cons c cs ih =>
    cases i with
    | zero => simp
    | succ i => simp [coeff_X_mul, coeff_C_succ, ih]

theorem degree_ofCoeffs_lt (cs : List F) : (ofCoeffs cs).degree < cs.length := by
  rw [degree_lt_iff_coeff_zero]
  intro m hm
  rw [coeff_ofCoeffs, List.getD_eq_default _ _ (by exact_mod_cast hm)]

theorem eval_zero_ofCoeffs (c : F) (cs : List F) : (ofCoeffs (c :: cs)).eval 0 = c := by
  simp

theorem ofCoeffs_map_mul (c : F) (as : List F) : ofCoeffs (as.map fun a => c * a) = C c * ofCoeffs as := by
  induction as with
  | nil => simp
  | cons a as ih => simp only [List.map_cons, ofCoeffs_cons, ih, C_mul]; ring

theorem degree_add_lt {n : Nat} {p q : F[X]} (hp : p.degree < n) (hq : q.degree < n) : (p + q).degree < n :=
  lt_of_le_of_lt (degree_add_le p q) (max_lt hp hq)

theorem degree_C_mul_lt {n : Nat} (c : F) {p : F[X]} (hp : p.degree < n) : (C c * p).degree < n := by
  rw [← smul_eq_C_mul]
  exact lt_of_le_of_lt (degree_smul_le c p) hp

theorem degree_C_lt {n : Nat} (c : F) (hn : 1 ≤ n) : (C c : F[X]).degree < n :=
  lt_of_le_of_lt degree_C_le (by exact_mod_cast hn)

theorem degree_sum_lt {n : Nat} (l : List F[X]) (h : ∀ p ∈ l, p.degree < n) : l.sum.degree < n := by
  induction l with
  | nil => simp
  | cons p l ih =>
    rw [List.sum_cons]
    exact degree_add_lt (h p List.mem_cons_self) (ih fun q hq => h q (List.mem_cons_of_mem _ hq))

/-- The product of two polynomials of degree below `t` has degree below `2t - 1`. -/
theorem degree_mul_lt {t n : Nat} (p q : F[X]) (hp : p.degree < t) (hq : q.degree < t)
    (ht : 1 ≤ t) (hn : 2 * t ≤ n + 1) : (p * q).degree < n := by
  have bound : ∀ r : F[X], r.degree < t → r.natDegree < t := by
    intro r hr
    by_cases h0 : r = 0
    · subst h0; simpa using Nat.pos_of_ne_zero (by omega)
    · exact (natDegree_lt_iff_degree_lt h0).mpr hr
  have hmul := natDegree_mul_le (p := p) (q := q)
  have hp' := bound p hp
  have hq' := bound q hq
  refine lt_of_le_of_lt degree_le_natDegree ?_
  have : (p * q).natDegree < n := by omega
  exact_mod_cast this

/-! ## Interpolation -/

variable [DecidableEq F]

/-- The Lagrange weight of node `a` among `xs`, at the point `x`. -/
noncomputable def weight (x : F) (xs : List F) (a : F) : F :=
  (Lagrange.basis xs.toFinset id a).eval x

theorem weight_eq_div (x : F) (xs : List F) (a : F) :
    weight x xs a = (∏ b ∈ xs.toFinset.erase a, (x - b)) * (∏ b ∈ xs.toFinset.erase a, (a - b))⁻¹ := by
  unfold weight Lagrange.basis
  rw [eval_prod, ← Finset.prod_inv_distrib, ← Finset.prod_mul_distrib]
  refine Finset.prod_congr rfl fun b _ => ?_
  simp only [Lagrange.basisDivisor, id_eq, eval_mul, eval_C, eval_sub, eval_X]
  ring

theorem sum_weight_mul_eval (x : F) (xs : List F) (hnd : xs.Nodup) (p : F[X])
    (hdeg : p.degree < xs.length) : (xs.map fun a => weight x xs a * p.eval a).sum = p.eval x := by
  have hcard : xs.toFinset.card = xs.length := List.toFinset_card_of_nodup hnd
  have hp := Lagrange.eq_interpolate (s := xs.toFinset) (v := id) (f := p)
    (Set.injOn_id _) (by rw [hcard]; exact hdeg)
  calc (xs.map fun a => weight x xs a * p.eval a).sum
      = ∑ a ∈ xs.toFinset, weight x xs a * p.eval a := (List.sum_toFinset _ hnd).symm
    _ = (Lagrange.interpolate xs.toFinset id fun i => p.eval (id i)).eval x := by
        rw [Lagrange.interpolate_apply, eval_finsetSum]
        refine Finset.sum_congr rfl fun a _ => ?_
        rw [eval_mul, eval_C, mul_comm]
        rfl
    _ = p.eval x := by rw [← hp]

/-! ## Interpolation of values of higher degree -/

/-- What the values of `p` at the nodes `xs` interpolate to. -/
noncomputable def remainder (xs : List F) (p : F[X]) : F[X] := p %ₘ Lagrange.nodal xs.toFinset id

/-- The rest of `p`, divided by `∏ (X - a)` over the nodes. -/
noncomputable def quotient (xs : List F) (p : F[X]) : F[X] := p /ₘ Lagrange.nodal xs.toFinset id

theorem degree_remainder_lt (xs : List F) (hnd : xs.Nodup) (p : F[X]) : (remainder xs p).degree < xs.length := by
  have h := degree_modByMonic_lt p (Lagrange.nodal_monic (s := xs.toFinset) (v := id))
  rwa [Lagrange.degree_nodal, List.toFinset_card_of_nodup hnd] at h

/-- Euclid's equation at a point. -/
theorem eval_eq_remainder_add (xs : List F) (p : F[X]) (x : F) :
    p.eval x = (remainder xs p).eval x + (∏ a ∈ xs.toFinset, (x - a)) * (quotient xs p).eval x := by
  have h := congrArg (eval x) (modByMonic_add_div p (Lagrange.nodal xs.toFinset id))
  rw [eval_add, eval_mul, Lagrange.eval_nodal] at h
  exact h.symm

theorem eval_remainder (xs : List F) (p : F[X]) {a : F} (ha : a ∈ xs) : (remainder xs p).eval a = p.eval a := by
  have hzero : ∏ b ∈ xs.toFinset, (a - b) = 0 := Finset.prod_eq_zero (List.mem_toFinset.mpr ha) (sub_self a)
  rw [eval_eq_remainder_add xs p a, hzero, zero_mul, add_zero]

/-- The values interpolate to `p` itself at the nodes and at the roots of the quotient. -/
theorem eval_remainder_iff (xs : List F) (p : F[X]) (x : F) :
    (remainder xs p).eval x = p.eval x ↔ x ∈ xs ∨ (quotient xs p).eval x = 0 := by
  rw [eval_eq_remainder_add xs p x, left_eq_add, mul_eq_zero, Finset.prod_eq_zero_iff]
  simp only [sub_eq_zero, exists_eq_right', List.mem_toFinset]

/-- A polynomial of degree below the number of nodes has no quotient. -/
theorem quotient_eq_zero (xs : List F) (hnd : xs.Nodup) {p : F[X]} (hdeg : p.degree < xs.length) : quotient xs p = 0 := by
  refine (divByMonic_eq_zero_iff Lagrange.nodal_monic).mpr ?_
  rwa [Lagrange.degree_nodal, List.toFinset_card_of_nodup hnd]

end Interpolation
