import OhmEcdsa.Core.Secp256k1

/-!
# Packed sharings, and what interpolation and commitments compute (`shamir.rs`, `vss.rs`)

A packed sharing of a constant is `value + V·r`, where `V` vanishes on the slots `0, -1, …`.
The code multiplies coefficient by coefficient into a vector; `Adds f q Fits` says that `f`
adds the polynomial `q` to any vector long enough, and returns on no other:

    Adds f q Fits → Adds g q' Fits' → Adds (f >=> g) (q + q') (Fits ∧ Fits')     (Adds.andThen)
-/

set_option linter.unusedSectionVars false

namespace OhmEcdsa

open Polynomial Interpolation Hoare Secp256k1

variable {F G : Type} [Field F] [DecidableEq F] [AddCommGroup G] [Module F G] [DecidableEq G]

/-! ## Algorithm -/

/-- `v[i] += x`. -/
def addAt (v : List F) (i : Nat) (x : F) : Outcome (List F) :=
  match v[i]? with
  | some y => .ok (v.set i (y + x))
  | none => .error (.panic "index out of bounds")

/-- `V(X)·(X + i)`. -/
def timesLinear (v : List F) (i : Nat) : Outcome (List F) :=
  v.zipIdx.foldlM (fun nv e => do
    let nv ← addAt nv e.2 (e.1 * (i : F))
    addAt nv (e.2 + 1) e.1) (List.replicate (v.length + 1) 0)

/-- `V(X) = ∏ (X + i)`. -/
def vanishing (F : Type) [Field F] (b : Usize) : Outcome (List F) := (List.range b.val).foldlM timesLinear [1]

/-- `coeffs[i + l] += v_i·r_l`. -/
def addProduct (v r coeffs : List F) : Outcome (List F) :=
  v.zipIdx.foldlM (fun coeffs e => r.zipIdx.foldlM (fun coeffs f => addAt coeffs (e.2 + f.2) (e.1 * f.1)) coeffs) coeffs

/-- `coeffs[0] = value`. -/
def setConst (coeffs : List F) (value : F) : Outcome (List F) :=
  match coeffs with
  | [] => .error (.panic "index out of bounds")
  | _ :: cs => .ok (value :: cs)

/-- `random_packed_const`: a packed sharing of `(value, …, value)`. -/
def ShamirPoly.randomPackedConst (value : F) (b t : Usize) (k : Nat) : RngM F (ShamirPoly F) := do
  let d := t + b - 2
  let v ← Hoare.lift (vanishing F b)
  let r ← (List.range (t.val - 1)).mapM fun _ => randomScalar k
  let coeffs ← Hoare.lift (setConst (List.replicate (d + 1).val 0) value)
  let coeffs ← Hoare.lift (addProduct v r coeffs)
  return ⟨coeffs⟩

/-- Slot point `-(b)` of a packed sharing. -/
def slotPoint (F : Type) [Field F] (b : Usize) : F := 0 - ((b.val : Nat) : F)

/-! ## Lemmas: adding into a coefficient vector -/

/-- `f` adds `q` to the vectors that fit, and returns on no other. -/
def Adds (f : List F → Outcome (List F)) (q : F[X]) (Fits : Nat → Prop) : Prop :=
  ∀ v, (Fits v.length → ∃ out, f v = .ok out) ∧
    ∀ out, f v = .ok out → Fits v.length ∧ out.length = v.length ∧ ofCoeffs out = ofCoeffs v + q

theorem ofCoeffs_set (v : List F) {i : Nat} {y : F} (hy : v[i]? = some y) (x : F) :
    ofCoeffs (v.set i (y + x)) = ofCoeffs v + C x * X ^ i := by
  ext m
  rw [coeff_add, coeff_ofCoeffs, coeff_ofCoeffs, coeff_C_mul_X_pow, List.getD_eq_getElem?_getD,
    List.getD_eq_getElem?_getD, List.getElem?_set]
  obtain ⟨hi, hget⟩ := List.getElem?_eq_some_iff.mp hy
  by_cases hm : i = m
  · subst hm
    rw [if_pos rfl, if_pos hi, if_pos rfl, hy]
    rfl
  · rw [if_neg hm, if_neg (Ne.symm hm), add_zero]

theorem addAt_adds (i : Nat) (x : F) : Adds (fun v => addAt v i x) (C x * X ^ i) fun n => i < n := by
  intro v
  show (i < v.length → ∃ out, addAt v i x = .ok out) ∧ ∀ out, addAt v i x = .ok out → _
  unfold addAt
  cases hy : v[i]? with
  | none =>
    have hlen := List.getElem?_eq_none_iff.mp hy
    exact ⟨fun hi => absurd hi (by omega), fun out h => (by cases h)⟩
  | some y =>
    obtain ⟨hi, -⟩ := List.getElem?_eq_some_iff.mp hy
    refine ⟨fun _ => ⟨_, rfl⟩, fun out h => ?_⟩
    obtain rfl := Except.ok.inj h
    exact ⟨hi, List.length_set, ofCoeffs_set v hy x⟩

theorem Adds.pure : Adds (fun v : List F => .ok v) 0 fun _ => True := by
  refine fun v => ⟨fun _ => ⟨v, rfl⟩, fun out h => ?_⟩
  obtain rfl := Except.ok.inj h
  exact ⟨trivial, rfl, (add_zero _).symm⟩

/-- One after the other: both add, and both must fit. -/
theorem Adds.andThen {f g : List F → Outcome (List F)} {q q' : F[X]} {Fits Fits' : Nat → Prop}
    (hf : Adds f q Fits) (hg : Adds g q' Fits') : Adds (fun v => f v >>= g) (q + q') fun n => Fits n ∧ Fits' n := by
  refine fun v => ⟨fun hfits => ?_, fun out h => ?_⟩
  · obtain ⟨w, hw⟩ := (hf v).1 hfits.1
    obtain ⟨-, hlen, -⟩ := (hf v).2 w hw
    obtain ⟨out, hout⟩ := (hg w).1 (by rw [hlen]; exact hfits.2)
    refine ⟨out, ?_⟩
    show (f v >>= g) = _
    rw [hw]
    exact hout
  · obtain ⟨w, hw, hout⟩ := ok_of_bind h
    obtain ⟨hfits, hlen, hpoly⟩ := (hf v).2 w hw
    obtain ⟨hfits', hlen', hpoly'⟩ := (hg w).2 out hout
    rw [hlen] at hfits' hlen'
    exact ⟨⟨hfits, hfits'⟩, hlen', by rw [hpoly', hpoly, add_assoc]⟩

theorem Adds.foldlM {α : Type} {f : List F → α → Outcome (List F)} {q : α → F[X]} {Fits : α → Nat → Prop}
    (h : ∀ a, Adds (fun v => f v a) (q a) (Fits a)) (l : List α) :
    Adds (fun v => l.foldlM f v) (l.map q).sum fun n => ∀ a ∈ l, Fits a n := by
  induction l with
  | nil => exact fun v => ⟨fun _ => ⟨v, rfl⟩, fun out hout => by
      obtain ⟨-, hlen, hpoly⟩ := (Adds.pure v).2 out hout
      exact ⟨fun a ha => absurd ha List.not_mem_nil, hlen, hpoly⟩⟩
  | cons a l ih =>
    intro v
    obtain ⟨hret, hspec⟩ := ((h a).andThen ih) v
    simp only [List.foldlM_cons, List.forall_mem_cons, List.map_cons, List.sum_cons]
    exact ⟨hret, hspec⟩

/-! ## Lemmas: the two products -/

theorem sum_zipIdx (l : List F) (k : Nat) : ((l.zipIdx k).map fun e => C e.1 * X ^ e.2).sum = X ^ k * ofCoeffs l := by
  induction l generalizing k with
  | nil => simp
  | cons c l ih =>
    rw [List.zipIdx_cons, List.map_cons, List.sum_cons, ih, ofCoeffs_cons, pow_succ]
    ring

theorem ofCoeffs_replicate_zero (n : Nat) : ofCoeffs (List.replicate n (0 : F)) = 0 := by
  ext m
  rw [coeff_ofCoeffs, coeff_zero, List.getD_eq_getElem?_getD, List.getElem?_replicate]
  split <;> rfl

theorem timesLinear_spec (v : List F) (i : Nat) :
    ∃ out, timesLinear v i = .ok out ∧ out.length = v.length + 1 ∧ ofCoeffs out = ofCoeffs v * (X + C (i : F)) := by
  have hturn := fun e : F × Nat => (addAt_adds e.2 (e.1 * (i : F))).andThen (addAt_adds (e.2 + 1) e.1)
  obtain ⟨hret, hspec⟩ := Adds.foldlM (f := fun nv e => addAt nv e.2 (e.1 * (i : F)) >>= fun nv => addAt nv (e.2 + 1) e.1)
    hturn v.zipIdx (List.replicate (v.length + 1) 0)
  obtain ⟨out, hout⟩ := hret fun e he => by
    have := List.snd_lt_of_mem_zipIdx he
    rw [List.length_replicate]
    omega
  obtain ⟨-, hlen, hpoly⟩ := hspec out hout
  refine ⟨out, hout, by rw [hlen, List.length_replicate], ?_⟩
  have hsum := sum_zipIdx v 0
  rw [hpoly, ofCoeffs_replicate_zero, zero_add, mul_add, ← one_mul (ofCoeffs v), ← pow_zero X, ← hsum, ← List.sum_map_mul_right,
    ← List.sum_map_mul_right, ← List.sum_map_add]
  refine congrArg List.sum (List.map_congr_left fun e _ => ?_)
  rw [C_mul, pow_succ]
  ring

theorem vanishing_spec (b : Usize) : ∃ out, vanishing F b = .ok out ∧ out.length = b.val + 1 ∧
    ofCoeffs out = ((List.range b.val).map fun i : Nat => (X + C ((i : Nat) : F) : F[X])).prod := by
  unfold vanishing
  induction b.val with
  | zero => exact ⟨[1], rfl, rfl, by simp⟩
  | succ n ih =>
    obtain ⟨v, hv, hlen, hpoly⟩ := ih
    obtain ⟨out, hout, hlen', hpoly'⟩ := timesLinear_spec v n
    refine ⟨out, ?_, by omega, ?_⟩
    · rw [List.range_succ, List.foldlM_append, hv]
      show timesLinear v n >>= pure = _
      rw [bind_pure, hout]
    · rw [hpoly', hpoly, List.range_succ, List.map_append, List.prod_append, List.map_singleton, List.prod_singleton]

theorem addProduct_adds (v r : List F) : Adds (addProduct v r) (ofCoeffs v * ofCoeffs r)
    fun n => ∀ e ∈ v.zipIdx, ∀ f ∈ r.zipIdx, e.2 + f.2 < n := by
  have hadds := Adds.foldlM (f := fun coeffs e => r.zipIdx.foldlM (fun coeffs f => addAt coeffs (e.2 + f.2) (e.1 * f.1)) coeffs)
    (fun e : F × Nat => Adds.foldlM (f := fun coeffs f => addAt coeffs (e.2 + f.2) (e.1 * f.1))
      (fun f : F × Nat => addAt_adds (e.2 + f.2) (e.1 * f.1)) r.zipIdx) v.zipIdx
  have hv := sum_zipIdx v 0
  have hr := sum_zipIdx r 0
  rw [pow_zero, one_mul] at hv hr
  have hpoly : (v.zipIdx.map fun e => (r.zipIdx.map fun f => C (e.1 * f.1) * X ^ (e.2 + f.2)).sum).sum =
      ofCoeffs v * ofCoeffs r := by
    rw [← hv, ← List.sum_map_mul_right]
    refine congrArg List.sum (List.map_congr_left fun e _ => ?_)
    rw [← hr, ← List.sum_map_mul_left]
    refine congrArg List.sum (List.map_congr_left fun f _ => ?_)
    rw [C_mul, pow_add]
    ring
  rw [hpoly] at hadds
  exact hadds

/-! ## Packed constants -/

theorem natDegree_vanishing (n : Nat) :
    ((List.range n).map fun i : Nat => (X + C ((i : Nat) : F) : F[X])).prod.natDegree ≤ n := by
  refine (natDegree_list_prod_le _).trans ?_
  rw [List.map_map]
  have hone : ∀ i ∈ List.range n, (natDegree ∘ fun i : Nat => (X + C ((i : Nat) : F) : F[X])) i ≤ 1 :=
    fun i _ => (natDegree_X_add_C _).le
  have hsum := List.sum_le_card_nsmul ((List.range n).map (natDegree ∘ fun i : Nat => (X + C ((i : Nat) : F) : F[X]))) 1
    fun d hd => by
      obtain ⟨i, hi, rfl⟩ := List.mem_map.mp hd
      exact hone i hi
  simpa using hsum

theorem natDegree_ofCoeffs_le (r : List F) : (ofCoeffs r).natDegree ≤ r.length - 1 := by
  by_cases h0 : ofCoeffs r = 0
  · rw [h0, natDegree_zero]
    exact Nat.zero_le _
  · have := (natDegree_lt_iff_degree_lt h0).mpr (degree_ofCoeffs_lt r)
    omega

/-- The wrapped length of the coefficient vector. -/
theorem packed_length {b t : Usize} (hb : 1 ≤ b.val) (ht : 1 ≤ t.val) :
    (t + b - 2 + 1 : Usize).val = (t.val + b.val - 1) % 2 ^ 64 := by
  have hadd : (t + b : Usize).val = (t.val + b.val) % 2 ^ 64 := Fin.val_add t b
  have hsub : (t + b - 2 : Usize).val = (2 ^ 64 - 2 + (t + b : Usize).val) % 2 ^ 64 := Fin.sub_def ..▸ rfl
  have hone : (t + b - 2 + 1 : Usize).val = ((t + b - 2 : Usize).val + 1) % 2 ^ 64 := Fin.val_add _ _
  rw [hone, hsub, hadd]
  omega

/-- **What is returned**, unless the length of the vector overflows. -/
theorem randomPackedConst_run (value : F) {b t : Usize} (hb : 1 ≤ b.val) (ht : 1 ≤ t.val) {k : Nat} {s : Rngs F}
    {r : StdRng F} (hr : s.rngs[k]? = some r) :
    (t.val + b.val ≤ 2 ^ 64 ∧ ∃ p s' tail, ShamirPoly.randomPackedConst value b t k s = (.ok p, s') ∧
      tail.length = t.val - 1 ∧ p.poly = C value +
        ((List.range b.val).map fun i : Nat => (X + C ((i : Nat) : F) : F[X])).prod * ofCoeffs tail) ∨
    (2 ^ 64 < t.val + b.val ∧ ∃ e s', ShamirPoly.randomPackedConst value b t k s = (.error e, s')) := by
  obtain ⟨v, hv, hvlen, hvpoly⟩ := vanishing_spec (F := F) b
  obtain ⟨s', -, hdraw⟩ := mapM_draw (List.range (t.val - 1)) k s r hr
  rw [List.length_range] at hdraw
  have htail : ∃ tail : List F, (List.range (t.val - 1)).map (fun i => r.stream (r.pos + i)) = tail ∧
      tail.length = t.val - 1 := ⟨_, rfl, by rw [List.length_map, List.length_range]⟩
  obtain ⟨tail, heq, htlen⟩ := htail
  rw [heq] at hdraw
  have hrun : ShamirPoly.randomPackedConst value b t k s =
      (do
        let coeffs ← Hoare.lift (setConst (List.replicate ((t.val + b.val - 1) % 2 ^ 64) 0) value)
        let coeffs ← Hoare.lift (addProduct v tail coeffs)
        return ⟨coeffs⟩ : RngM F (ShamirPoly F)) s' := by
    unfold ShamirPoly.randomPackedConst
    rw [bind_run, hv]
    show ((List.range (t.val - 1)).mapM (fun _ => randomScalar k) >>= _ : RngM F (ShamirPoly F)) s = _
    rw [bind_run, hdraw, packed_length hb ht]
  rw [hrun]
  have hsmall := b.isLt
  have hsmall' := t.isLt
  by_cases hroom : t.val + b.val ≤ 2 ^ 64
  · have hlen : (t.val + b.val - 1) % 2 ^ 64 = t.val + b.val - 2 + 1 := by omega
    rw [hlen, List.replicate_succ]
    obtain ⟨hret, hspec⟩ := addProduct_adds v tail (value :: List.replicate (t.val + b.val - 2) 0)
    obtain ⟨out, hout⟩ := hret fun e he f hf => by
      have := List.snd_lt_of_mem_zipIdx he
      have := List.snd_lt_of_mem_zipIdx hf
      rw [List.length_cons, List.length_replicate]
      omega
    obtain ⟨-, -, hpoly⟩ := hspec out hout
    have hconst : ofCoeffs (value :: List.replicate (t.val + b.val - 2) 0) = C value := by
      rw [ofCoeffs_cons, ofCoeffs_replicate_zero, mul_zero, add_zero]
    refine Or.inl ⟨hroom, ⟨out⟩, s', tail, ?_, htlen, ?_⟩
    · show (Hoare.lift (addProduct v tail (value :: List.replicate (t.val + b.val - 2) 0)) >>= _ : RngM F _) s' = _
      rw [bind_run, hout]
      rfl
    · show ofCoeffs out = _
      rw [hpoly, hconst, hvpoly]
  · -- the product does not fit the wrapped vector
    refine Or.inr ⟨by omega, ?_⟩
    rw [bind_run]
    cases hset : setConst (List.replicate ((t.val + b.val - 1) % 2 ^ 64) (0 : F)) value with
    | error e => exact ⟨e, s', rfl⟩
    | ok coeffs =>
      have hshort : coeffs.length = (t.val + b.val - 1) % 2 ^ 64 := by
        unfold setConst at hset
        split at hset
        · cases hset
        · next c cs hcs =>
          obtain rfl := Except.ok.inj hset
          rw [← List.length_replicate (n := (t.val + b.val - 1) % 2 ^ 64) (a := (0 : F)), hcs]
          rfl
      show ∃ e s'', (Hoare.lift (addProduct v tail coeffs) >>= _ : RngM F _) s' = (.error e, s'')
      rw [bind_run]
      cases hadd : addProduct v tail coeffs with
      | error e => exact ⟨e, s', rfl⟩
      | ok out =>
        obtain ⟨hfits, -, -⟩ := (addProduct_adds v tail coeffs).2 out hadd
        obtain ⟨c, hc⟩ : ∃ c, v[b.val]? = some c := ⟨_, List.getElem?_eq_getElem (by omega)⟩
        obtain ⟨x, hx⟩ : ∃ x, tail[t.val - 2]? = some x := ⟨_, List.getElem?_eq_getElem (by omega)⟩
        have := hfits (c, b.val) (List.mem_zipIdx_iff_getElem?.mpr hc) (x, t.val - 2) (List.mem_zipIdx_iff_getElem?.mpr hx)
        omega

theorem two_words_lt_order : 2 ^ 65 < order := by decide +kernel

theorem slotPoint_eq_iff (b b' : Usize) : slotPoint Scalar b = slotPoint Scalar b' ↔ b = b' := by
  unfold slotPoint
  rw [sub_right_inj]
  exact ⟨fun h => K256.scalar_injective (F := Scalar) (G := Point) h, fun h => by rw [h]⟩

theorem slotPoint_ne_party (b : Usize) {j : PartyId} (hj : 1 ≤ j.val) : slotPoint Scalar b ≠ scalarFrom j := by
  intro h
  unfold slotPoint scalarFrom at h
  have hsum : ((b.val + j.val : Nat) : Scalar) = 0 := by
    rw [Nat.cast_add, ← h]
    ring
  have hdvd := (ZMod.natCast_eq_zero_iff _ _).mp hsum
  have hle := Nat.le_of_dvd (by omega) hdvd
  have := two_words_lt_order
  have := b.isLt
  have := j.isLt
  omega

/-- **Packed constants**: the sharing of a value, at every slot and of the degree meant, and no slot
is a party's point or another slot's. -/
theorem packed_const_exact (value : Scalar) (b t : Usize) (hb : 1 ≤ b.val) (ht : 1 ≤ t.val) (k : Nat) (s : Rngs Scalar)
    (hk : k < s.rngs.length) :
    ((∃ p s', ShamirPoly.randomPackedConst value b t k s = (.ok p, s')) ↔ t.val + b.val ≤ 2 ^ 64) ∧
      (∀ p s', ShamirPoly.randomPackedConst value b t k s = (.ok p, s') →
        p.poly.natDegree ≤ t.val + b.val - 2 ∧ ∀ i : Usize, i.val < b.val → p.evalAt (slotPoint Scalar i) = value) ∧
      (∀ (i : Usize) (j : PartyId), 1 ≤ j.val → slotPoint Scalar i ≠ scalarFrom j) ∧
      ∀ i i' : Usize, slotPoint Scalar i = slotPoint Scalar i' ↔ i = i' := by
  refine ⟨?_, ?_, fun i j hj => slotPoint_ne_party i hj, slotPoint_eq_iff⟩
  · rcases randomPackedConst_run value hb ht (List.getElem?_eq_getElem hk) with ⟨hroom, p, s', -, hrun, -⟩ |
      ⟨hover, e, s', hrun⟩
    · exact ⟨fun _ => hroom, fun _ => ⟨p, s', hrun⟩⟩
    · refine ⟨?_, fun h => absurd h (by omega)⟩
      rintro ⟨p, s'', h⟩
      rw [hrun] at h
      cases h
  · intro p s' hp
    rcases randomPackedConst_run value hb ht (List.getElem?_eq_getElem hk) with
      ⟨-, p', s'', tail, hrun, htlen, hpoly⟩ | ⟨-, e, s'', hrun⟩
    · rw [hrun] at hp
      obtain ⟨hok, -⟩ := Prod.mk.inj hp
      obtain rfl := Except.ok.inj hok
      refine ⟨?_, fun i hi => ?_⟩
      · rw [hpoly]
        refine (natDegree_C_add).le.trans ?_
        rcases Nat.lt_or_ge t.val 2 with ht2 | ht2
        · -- a threshold of one draws no mask
          obtain rfl : tail = [] := List.length_eq_zero_iff.mp (by omega)
          rw [ofCoeffs_nil, mul_zero, natDegree_zero]
          exact Nat.zero_le _
        · have hmul := natDegree_mul_le (p := ((List.range b.val).map fun i : Nat => (X + C ((i : Nat) : Scalar))).prod)
            (q := ofCoeffs tail)
          have hV := natDegree_vanishing (F := Scalar) b.val
          have hR := natDegree_ofCoeffs_le tail
          omega
      · rw [ShamirPoly.evalAt_eq, hpoly, eval_add, eval_C, eval_mul]
        have hzero : (((List.range b.val).map fun i : Nat => (X + C ((i : Nat) : Scalar))).prod).eval (slotPoint Scalar i) = 0 := by
          rw [eval_list_prod, List.map_map, List.prod_eq_zero_iff]
          refine List.mem_map.mpr ⟨i.val, List.mem_range.mpr hi, ?_⟩
          simp [slotPoint]
        rw [hzero, zero_mul, add_zero]
    · rw [hrun] at hp
      cases hp

def oneRng : Rngs Scalar := ⟨[⟨1, fun _ => 1, 0⟩], []⟩

theorem packed_const_two_slots :
    (2 : Usize).val + (2 : Usize).val ≤ 2 ^ 64 ∧
      ∃ p s', ShamirPoly.randomPackedConst (7 : Scalar) 2 2 0 oneRng = (.ok p, s') :=
  ⟨by decide, (packed_const_exact 7 2 2 (by decide) (by decide) 0 oneRng (by decide)).1.mpr (by decide)⟩

/-! ## Interpolation -/

/-- **Interpolation is exact**, with the coefficients that were computed, and nothing is divided by zero. -/
theorem interpolation_exact [K256 F G] (ids : List PartyId) (hids : ids.Nodup) (p : ShamirPoly F)
    (hdeg : p.poly.degree < ids.length) (x : F) :
    (∃ lambdas, lagrangeCoeffsAt x ids = .ok lambdas ∧ lambdas.length = ids.length ∧
      ((lambdas.zip (ids.map p.eval)).map fun e => e.1 * e.2).sum = p.evalAt x) ∧
      interpolateAt x ids (ids.map p.eval) = .ok (p.evalAt x) ∧
      ∀ e ∈ ids.zipIdx, (lagrangeNumDen x (scalarFrom e.1) e.2 ids).2 ≠ 0 := by
  have hnd := map_scalarFrom_nodup F G hids
  have hshares : ids.map p.eval = ids.map fun j => p.poly.eval (scalarFrom j) :=
    List.map_congr_left fun j _ => p.eval_eq j
  have hexact := interpolateAt_eval x ids hnd p.poly hdeg
  rw [← hshares, ← ShamirPoly.evalAt_eq] at hexact
  refine ⟨⟨_, lagrangeCoeffsAt_eq x ids hnd, List.length_map _, ?_⟩, hexact, fun e he => ?_⟩
  · unfold interpolateAt at hexact
    rw [lagrangeCoeffsAt_eq x ids hnd] at hexact
    have := Except.ok.inj hexact
    rwa [foldl_add_eq_sum, zero_add] at this
  · rw [lagrangeNumDen_eq x ids hnd e.1 e.2 (List.mem_zipIdx_iff_getElem?.mp he)]
    show ∏ b ∈ (ids.map scalarFrom).toFinset.erase (scalarFrom e.1), (scalarFrom e.1 - b) ≠ 0
    exact Finset.prod_ne_zero_iff.mpr fun b hb => sub_ne_zero.mpr (Finset.ne_of_mem_erase hb).symm

theorem line_degree : (⟨[5, 3]⟩ : ShamirPoly Scalar).poly.degree < ([2, 3] : List PartyId).length :=
  degree_ofCoeffs_lt [5, 3]

theorem interpolation_two_shares : ([2, 3] : List PartyId).Nodup ∧
    interpolateAt (0 : Scalar) [2, 3] (([2, 3] : List PartyId).map (⟨[5, 3]⟩ : ShamirPoly Scalar).eval) =
      .ok ((⟨[5, 3]⟩ : ShamirPoly Scalar).evalAt 0) :=
  ⟨by decide, (interpolation_exact (G := Point) [2, 3] (by decide) ⟨[5, 3]⟩ line_degree 0).2.1⟩

/-! ## Commitments -/

namespace FeldmanCommitment

variable [K256 F G]

/-- The points are the coefficients times the generator, and none beyond the vector. -/
def Commits (com : FeldmanCommitment G) (p : F[X]) : Prop :=
  ∀ i, com.points.getD i 0 = p.coeff i • K256.generator F

theorem commits_iff (com : FeldmanCommitment G) (p : F[X]) : com.Commits p ↔ com.poly F = p := by
  have hlog : ∀ i, com.points.getD i 0 = (com.poly F).coeff i • K256.generator F := by
    intro i
    unfold poly
    rw [coeff_ofCoeffs, List.getD_eq_getElem?_getD, List.getD_eq_getElem?_getD, List.getElem?_map]
    cases com.points[i]? with
    | none => exact (zero_smul _ _).symm
    | some P => exact (log_smul_generator P).symm
  constructor
  · intro h
    ext i
    exact (smul_generator_inj (G := G) _ _).mp ((hlog i).symm.trans (h i))
  · rintro rfl
    exact hlog

theorem commits_fromPoly (p : ShamirPoly F) : (fromPoly p : FeldmanCommitment G).Commits p.poly :=
  (commits_iff _ _).mpr (poly_fromPoly p)

theorem sum_commits {coms : List (FeldmanCommitment G)} {ps : List F[X]} (h : List.Forall₂ Commits coms ps) :
    coms.map (poly F) = ps := by
  induction h with
  | nil => rfl
  | cons h _ ih => rw [List.map_cons, ih, (commits_iff _ _).mp h]

/-- **Commitments are homomorphic**, whatever their lengths: the constant needs a constant term to go to,
and the sum a first summand. -/
theorem homomorphic {com rhs : FeldmanCommitment G} {p q : F[X]} (hcom : com.Commits p) (hrhs : rhs.Commits q) (c : F) :
    (com.add rhs).Commits (p + q) ∧ (com.add rhs).points.length = max com.points.length rhs.points.length ∧
      (com.scale c).Commits (C c * p) ∧ (com.scale c).points.length = com.points.length ∧
      (∀ j : PartyId, com.evalAt F j = p.eval (scalarFrom j) • K256.generator F) ∧
      (if com.points = [] then com.addConst c = .error (.panic "index out of bounds")
        else ∃ out, com.addConst c = .ok out ∧ out.Commits (p + C c) ∧ out.points.length = com.points.length) ∧
      ∀ (coms : List (FeldmanCommitment G)) (ps : List F[X]), List.Forall₂ Commits coms ps →
        if coms = [] then sum coms = .error (.panic "at least one commitment")
        else ∃ out, sum coms = .ok out ∧ out.Commits ps.sum := by
  obtain rfl := (commits_iff _ _).mp hcom
  obtain rfl := (commits_iff _ _).mp hrhs
  refine ⟨(commits_iff _ _).mpr (poly_add com rhs), length_add com rhs, (commits_iff _ _).mpr (poly_scale com c),
    length_scale com c, com.evalAt_eq, ?_, ?_⟩
  · split
    · next hnil =>
      unfold addConst
      rw [hnil]
    · next hne =>
      obtain ⟨out, hout, hpoly, hlen⟩ := com.addConst_ok c hne
      exact ⟨out, hout, (commits_iff _ _).mpr hpoly, hlen⟩
  · intro coms ps hps
    split
    · next hnil =>
      rw [hnil]
      rfl
    · next hne =>
      obtain ⟨out, hout, hpoly⟩ := sum_ok (F := F) coms hne
      exact ⟨out, hout, (commits_iff _ _).mpr (by rw [hpoly, sum_commits hps])⟩

theorem addConst_empty : (⟨[]⟩ : FeldmanCommitment Point).Commits (0 : Scalar[X]) ∧
    ¬ ∃ out, (⟨[]⟩ : FeldmanCommitment Point).addConst (1 : Scalar) = .ok out := by
  refine ⟨fun i => ?_, ?_⟩
  · rw [coeff_zero, zero_smul]
    rfl
  · rintro ⟨out, h⟩
    cases h

def lineCom : FeldmanCommitment Point := fromPoly (⟨[5, 3]⟩ : ShamirPoly Scalar)

def constCom : FeldmanCommitment Point := fromPoly (⟨[2]⟩ : ShamirPoly Scalar)

theorem homomorphic_mixed : lineCom.Commits (⟨[5, 3]⟩ : ShamirPoly Scalar).poly ∧
    (lineCom.add constCom).Commits ((⟨[5, 3]⟩ : ShamirPoly Scalar).poly + (⟨[2]⟩ : ShamirPoly Scalar).poly) :=
  ⟨commits_fromPoly _, (homomorphic (commits_fromPoly ⟨[5, 3]⟩) (commits_fromPoly ⟨[2]⟩) (1 : Scalar)).1⟩

end FeldmanCommitment

end OhmEcdsa
