import OhmEcdsa.Core.K256
import OhmEcdsa.Support.Interpolation

/-!
# Shamir sharings and Feldman commitments (`src/primitives/shamir.rs`, `vss.rs`)

Every commitment vector commits to exactly one polynomial, `com.poly`, since the
generator generates.  The lemmas move the code's loops to that polynomial:

    com.verifyShare j s ↔ com.poly.eval j = s                        (verifyShare_iff)
    interpolateAt x ids (shares of p) = .ok (p.eval x)               (interpolateAt_eval)
-/

set_option linter.unusedSectionVars false

namespace OhmEcdsa

open Polynomial Interpolation Hoare

/-- A polynomial `c_0 + c_1·X + …`; `c_0` is the secret. -/
structure ShamirPoly (F : Type) where
  coeffs : List F

/-- Commitment to a sharing polynomial: `points[ℓ] = a_ℓ·G`. -/
structure FeldmanCommitment (G : Type) where
  points : List G
  deriving DecidableEq

variable {F G : Type} [Field F] [DecidableEq F] [AddCommGroup G] [Module F G] [DecidableEq G]

/-! ## Algorithm: shamir.rs -/

namespace ShamirPoly

/-- A degree-`(t-1)` polynomial with `p(0) = secret`, drawn from `rngs[k]`. -/
def random (secret : F) (t : Usize) (k : Nat) : RngM F (ShamirPoly F) := do
  let tail ← (List.range (t.val - 1)).mapM fun _ => randomScalar k
  return ⟨secret :: tail⟩

/-- Horner evaluation, highest coefficient first. -/
def evalAt (p : ShamirPoly F) (x : F) : F :=
  p.coeffs.reverse.foldl (fun acc c => acc * x + c) 0

def eval (p : ShamirPoly F) (j : PartyId) : F := p.evalAt (scalarFrom j)

end ShamirPoly

/-- Numerator and denominator of the Lagrange coefficient at position `i`. -/
def lagrangeNumDen (x xi : F) (i : Nat) (parties : List PartyId) : F × F :=
  parties.zipIdx.foldl
    (fun acc e => if e.2 = i then acc
      else (acc.1 * (x - scalarFrom e.1), acc.2 * (xi - scalarFrom e.1))) (1, 1)

/-- Lagrange coefficients for interpolation at `x` over `parties`. -/
def lagrangeCoeffsAt (x : F) (parties : List PartyId) : Outcome (List F) :=
  parties.zipIdx.mapM fun e =>
    let nd := lagrangeNumDen x (scalarFrom e.1) e.2 parties
    match invert nd.2 with
    | none => .error (.panic "party indices must be distinct")
    | some denInv => .ok (nd.1 * denInv)

def lagrangeCoeffs (parties : List PartyId) : Outcome (List F) := lagrangeCoeffsAt 0 parties

/-- Interpolate `p(x)` from `shares` held at `parties` (same order). -/
def interpolateAt (x : F) (parties : List PartyId) (shares : List F) : Outcome F := do
  let lambdas ← lagrangeCoeffsAt x parties
  return (lambdas.zip shares).foldl (fun acc e => acc + e.1 * e.2) 0

def interpolateAtZero (parties : List PartyId) (shares : List F) : Outcome F :=
  interpolateAt 0 parties shares

/-! ## Algorithm: vss.rs -/

namespace FeldmanCommitment

variable [K256 F G]

def fromPoly (p : ShamirPoly F) : FeldmanCommitment G :=
  ⟨p.coeffs.map fun c => c • K256.generator F⟩

/-- `Σ x^ℓ·A_ℓ`, with the running power of `x`. -/
def evalAtPoint (com : FeldmanCommitment G) (x : F) : G :=
  (com.points.foldl (fun acc a => (acc.1 + acc.2 • a, acc.2 * x)) ((0 : G), (1 : F))).1

/-- Public commitment to the share of party `j`. -/
def evalAt (F : Type) [Field F] [Module F G] (com : FeldmanCommitment G) (j : PartyId) : G :=
  com.evalAtPoint (scalarFrom j : F)

def verifyShare (com : FeldmanCommitment G) (j : PartyId) (share : F) : Bool :=
  share • K256.generator F == com.evalAt F j

/-- Commitment to the sum of two sharings; the shorter vector is zero-padded. -/
def add (com rhs : FeldmanCommitment G) : FeldmanCommitment G :=
  if com.points.length ≥ rhs.points.length then
    ⟨List.zipWith (· + ·) com.points rhs.points ++ com.points.drop rhs.points.length⟩
  else ⟨List.zipWith (· + ·) rhs.points com.points ++ rhs.points.drop com.points.length⟩

def scale (com : FeldmanCommitment G) (c : F) : FeldmanCommitment G :=
  ⟨com.points.map fun a => c • a⟩

/-- Commitment to a sharing whose constant term is shifted by `c`. -/
def addConst (com : FeldmanCommitment G) (c : F) : Outcome (FeldmanCommitment G) :=
  match com.points with
  | [] => .error (.panic "index out of bounds")
  | p :: ps => .ok ⟨(p + c • K256.generator F) :: ps⟩

/-- Componentwise sum of many commitments. -/
def sum (coms : List (FeldmanCommitment G)) : Outcome (FeldmanCommitment G) :=
  match coms with
  | [] => .error (.panic "at least one commitment")
  | first :: rest => .ok (rest.foldl add first)

end FeldmanCommitment

/-! ## Lemmas: shamir.rs -/

/-- The polynomial behind a `ShamirPoly`. -/
noncomputable def ShamirPoly.poly (p : ShamirPoly F) : F[X] := ofCoeffs p.coeffs

theorem ShamirPoly.evalAt_eq (p : ShamirPoly F) (x : F) : p.evalAt x = p.poly.eval x := by
  unfold ShamirPoly.evalAt ShamirPoly.poly
  rw [List.foldl_reverse]
  induction p.coeffs with
  | nil => simp
  | cons c cs ih =>
    simp only [List.foldr_cons, ofCoeffs_cons, eval_add, eval_C, eval_mul, eval_X] at ih ⊢
    rw [ih]
    ring

theorem ShamirPoly.eval_eq (p : ShamirPoly F) (j : PartyId) :
    p.eval j = p.poly.eval (scalarFrom j) := p.evalAt_eq _

theorem lagrangeNumDen_fold (x xi : F) (i : Nat) (l : List (PartyId × Nat)) (acc : F × F) :
    l.foldl (fun acc e => if e.2 = i then acc
      else (acc.1 * (x - scalarFrom e.1), acc.2 * (xi - scalarFrom e.1))) acc =
    (acc.1 * ((l.filter (·.2 ≠ i)).map fun e => x - scalarFrom e.1).prod,
      acc.2 * ((l.filter (·.2 ≠ i)).map fun e => xi - scalarFrom e.1).prod) := by
  induction l generalizing acc with
  | nil => simp
  | cons e l ih =>
    by_cases he : e.2 = i
    · simp [he, ih]
    · simp [he, ih, mul_assoc]

/-- Skipping the position of a node is skipping the node: the ids are distinct. -/
theorem prod_filter_zipIdx (f : F → F) (ids : List PartyId)
    (hnd : (ids.map (scalarFrom : PartyId → F)).Nodup) (p : PartyId) (i : Nat) (hp : ids[i]? = some p) :
    ((ids.zipIdx.filter (·.2 ≠ i)).map fun e => f (scalarFrom e.1)).prod =
      ∏ b ∈ (ids.map scalarFrom).toFinset.erase (scalarFrom p), f b := by
  have hids : ids.Nodup := hnd.of_map _
  have hfst : ((ids.zipIdx.filter (·.2 ≠ i)).map fun e => (scalarFrom e.1 : F)).Nodup := by
    have : (ids.zipIdx.map fun e => (scalarFrom e.1 : F)).Nodup := by
      rw [map_fst_zipIdx]; exact hnd
    exact this.sublist (List.filter_sublist.map _)
  have hset : ((ids.zipIdx.filter (·.2 ≠ i)).map fun e => (scalarFrom e.1 : F)).toFinset =
      (ids.map scalarFrom).toFinset.erase (scalarFrom p) := by
    ext b
    simp only [List.mem_toFinset, List.mem_map, List.mem_filter, Finset.mem_erase, decide_eq_true_eq,
      Prod.exists, List.mem_zipIdx_iff_getElem?]
    constructor
    · rintro ⟨a, k, ⟨hk, hne⟩, rfl⟩
      refine ⟨fun he => hne ?_, a, List.mem_of_getElem? hk, rfl⟩
      have hap : a = p := List.inj_on_of_nodup_map hnd (List.mem_of_getElem? hk)
        (List.mem_of_getElem? hp) he
      obtain ⟨hk1, hk2⟩ := List.getElem?_eq_some_iff.mp hk
      obtain ⟨hi1, hi2⟩ := List.getElem?_eq_some_iff.mp hp
      exact (List.Nodup.getElem_inj_iff hids).mp (by rw [hk2, hi2, hap])
    · rintro ⟨hne, a, ha, rfl⟩
      obtain ⟨k, hk⟩ := List.mem_iff_getElem?.mp ha
      refine ⟨a, k, ⟨hk, fun hki => hne ?_⟩, rfl⟩
      subst hki
      rw [hp] at hk
      cases hk
      rfl
  rw [← hset, List.prod_toFinset _ hfst, List.map_map]
  rfl

theorem lagrangeNumDen_eq (x : F) (ids : List PartyId)
    (hnd : (ids.map (scalarFrom : PartyId → F)).Nodup) (p : PartyId) (i : Nat) (hp : ids[i]? = some p) :
    lagrangeNumDen x (scalarFrom p) i ids =
      (∏ b ∈ (ids.map scalarFrom).toFinset.erase (scalarFrom p), (x - b),
        ∏ b ∈ (ids.map scalarFrom).toFinset.erase (scalarFrom p), (scalarFrom p - b)) := by
  unfold lagrangeNumDen
  rw [lagrangeNumDen_fold, one_mul, one_mul, prod_filter_zipIdx (x - ·) ids hnd p i hp,
    prod_filter_zipIdx (scalarFrom p - ·) ids hnd p i hp]

/-- **No denominator vanishes over distinct ids**, and the coefficients are the
Lagrange weights. -/
theorem lagrangeCoeffsAt_eq (x : F) (ids : List PartyId)
    (hnd : (ids.map (scalarFrom : PartyId → F)).Nodup) :
    lagrangeCoeffsAt x ids = .ok (ids.map fun p => weight x (ids.map scalarFrom) (scalarFrom p)) := by
  unfold lagrangeCoeffsAt
  refine mapM_zipIdx_ok _ _ _ fun e he => ?_
  have hp : ids[e.2]? = some e.1 := List.mem_zipIdx_iff_getElem?.mp he
  have hden : (∏ b ∈ (ids.map scalarFrom).toFinset.erase (scalarFrom e.1), (scalarFrom e.1 - b) : F) ≠ 0 :=
    Finset.prod_ne_zero_iff.mpr fun b hb => sub_ne_zero.mpr (Finset.ne_of_mem_erase hb).symm
  simp only [lagrangeNumDen_eq x ids hnd e.1 e.2 hp, invert, if_neg hden]
  rw [weight_eq_div]

theorem foldl_add_eq_sum (l : List (F × F)) (acc : F) :
    l.foldl (fun acc e => acc + e.1 * e.2) acc = acc + (l.map fun e => e.1 * e.2).sum := by
  induction l generalizing acc with
  | nil => simp
  | cons e l ih => simp [ih, add_assoc]

/-- **Interpolation is exact**: the shares of a polynomial of degree below the
number of distinct parties give its value at `x`. -/
theorem interpolateAt_eval (x : F) (ids : List PartyId)
    (hnd : (ids.map (scalarFrom : PartyId → F)).Nodup) (p : F[X]) (hdeg : p.degree < ids.length) :
    interpolateAt x ids (ids.map fun j => p.eval (scalarFrom j)) = .ok (p.eval x) := by
  unfold interpolateAt
  rw [lagrangeCoeffsAt_eq x ids hnd]
  show Except.ok _ = _
  rw [foldl_add_eq_sum, zero_add, List.zip_map', List.map_map]
  have := sum_weight_mul_eval x (ids.map scalarFrom) hnd p (by rwa [List.length_map])
  rw [List.map_map] at this
  exact congrArg _ this

/-! ## Lemmas: vss.rs -/

namespace FeldmanCommitment

variable [K256 F G]

/-- The discrete logarithm of a point. -/
noncomputable def log (F : Type) [Field F] [Module F G] [K256 F G] (P : G) : F :=
  (K256.generator_spans (F := F) P).choose

@[simp] theorem log_smul_generator (P : G) : log F P • K256.generator F = P :=
  (K256.generator_spans (F := F) P).choose_spec

theorem smul_generator_inj (c d : F) : c • (K256.generator F : G) = d • K256.generator F ↔ c = d := by
  constructor
  · intro h
    have : (c - d) • (K256.generator F : G) = 0 := by rw [sub_smul, h, sub_self]
    exact sub_eq_zero.mp (K256.generator_free _ this)
  · rintro rfl; rfl

@[simp] theorem log_generator_smul (c : F) : log F (c • (K256.generator F : G)) = c :=
  (smul_generator_inj (G := G) _ _).mp (log_smul_generator _)

theorem log_add (P Q : G) : log F (P + Q) = log F P + log F Q := by
  rw [← smul_generator_inj (G := G), add_smul]
  simp

theorem log_smul (c : F) (P : G) : log F (c • P) = c * log F P := by
  rw [← smul_generator_inj (G := G), mul_smul]
  simp

/-- **The committed polynomial.** -/
noncomputable def poly (F : Type) [Field F] [Module F G] [K256 F G] (com : FeldmanCommitment G) : F[X] :=
  ofCoeffs (com.points.map (log F))

theorem degree_poly_lt (com : FeldmanCommitment G) : (com.poly F).degree < com.points.length := by
  have := degree_ofCoeffs_lt (com.points.map (log F))
  rwa [List.length_map] at this

theorem evalAtPoint_fold (x : F) (points : List G) (acc : G) (pow : F) :
    (points.foldl (fun acc a => (acc.1 + acc.2 • a, acc.2 * x)) (acc, pow)).1 =
      acc + (pow * (ofCoeffs (points.map (log F))).eval x) • K256.generator F := by
  induction points generalizing acc pow with
  | nil => simp
  | cons a as ih =>
    simp only [List.foldl_cons, List.map_cons, ofCoeffs_cons, ih, eval_add, eval_C, eval_mul, eval_X]
    rw [mul_add, add_smul, mul_smul pow, log_smul_generator, add_assoc, mul_assoc]

theorem evalAtPoint_eq (com : FeldmanCommitment G) (x : F) :
    com.evalAtPoint x = (com.poly F).eval x • K256.generator F := by
  unfold evalAtPoint
  rw [evalAtPoint_fold]
  simp [poly]

theorem evalAt_eq (com : FeldmanCommitment G) (j : PartyId) :
    com.evalAt F j = (com.poly F).eval (scalarFrom j) • K256.generator F := com.evalAtPoint_eq _

/-- Exactly one scalar passes the share check at `j`. -/
theorem verifyShare_iff (com : FeldmanCommitment G) (j : PartyId) (share : F) :
    com.verifyShare j share = true ↔ (com.poly F).eval (scalarFrom j) = share := by
  unfold verifyShare
  rw [beq_iff_eq, evalAt_eq, smul_generator_inj]
  exact eq_comm

@[simp] theorem poly_fromPoly (p : ShamirPoly F) : (fromPoly p : FeldmanCommitment G).poly F = p.poly := by
  unfold poly fromPoly ShamirPoly.poly
  rw [List.map_map]
  congr 1
  simp [Function.comp_def]

theorem ofCoeffs_zipWith_append (as bs : List F) (h : bs.length ≤ as.length) :
    ofCoeffs (List.zipWith (· + ·) as bs ++ as.drop bs.length) = ofCoeffs as + ofCoeffs bs := by
  induction as generalizing bs with
  | nil =>
    obtain rfl : bs = [] := List.length_eq_zero_iff.mp (by simpa using h)
    simp
  | cons a as ih =>
    cases bs with
    | nil => simp
    | cons b bs =>
      simp only [List.zipWith_cons_cons, List.length_cons, List.drop_succ_cons, List.cons_append,
        ofCoeffs_cons, ih bs (by simpa using h), C_add]
      ring

theorem map_log_padded (as bs : List G) :
    (List.zipWith (· + ·) as bs ++ as.drop bs.length).map (log F) =
      List.zipWith (· + ·) (as.map (log F)) (bs.map (log F)) ++ (as.map (log F)).drop (bs.map (log F)).length := by
  rw [List.map_append, List.map_zipWith, List.zipWith_map, List.map_drop, List.length_map]
  simp only [log_add]

@[simp] theorem poly_add (com rhs : FeldmanCommitment G) :
    (com.add rhs).poly F = com.poly F + rhs.poly F := by
  unfold add poly
  split
  · next h => rw [map_log_padded, ofCoeffs_zipWith_append _ _ (by simpa using h)]
  · next h =>
    rw [map_log_padded, ofCoeffs_zipWith_append _ _ (by simp; omega), add_comm]

@[simp] theorem poly_scale (com : FeldmanCommitment G) (c : F) :
    (com.scale c).poly F = C c * com.poly F := by
  unfold scale poly
  rw [← ofCoeffs_map_mul, List.map_map, List.map_map]
  simp [Function.comp_def, log_smul]

theorem addConst_ok (com : FeldmanCommitment G) (c : F) (h : com.points ≠ []) :
    ∃ out, com.addConst c = .ok out ∧ out.poly F = com.poly F + C c ∧
      out.points.length = com.points.length := by
  obtain ⟨points⟩ := com
  cases points with
  | nil => exact absurd rfl h
  | cons p ps =>
    refine ⟨⟨(p + c • K256.generator F) :: ps⟩, rfl, ?_, rfl⟩
    simp only [poly, List.map_cons, ofCoeffs_cons, log_add, log_generator_smul, C_add]
    ring

@[simp] theorem length_scale (com : FeldmanCommitment G) (c : F) :
    (com.scale c).points.length = com.points.length := List.length_map _

theorem length_add (com rhs : FeldmanCommitment G) :
    (com.add rhs).points.length = max com.points.length rhs.points.length := by
  unfold add
  split <;> simp <;> omega

theorem poly_foldl_add (coms : List (FeldmanCommitment G)) (acc : FeldmanCommitment G) :
    (coms.foldl add acc).poly F = acc.poly F + (coms.map (poly F)).sum := by
  induction coms generalizing acc with
  | nil => simp
  | cons c cs ih => simp [ih, add_assoc]

/-- The summed commitment commits to the sum of the polynomials. -/
theorem sum_ok (coms : List (FeldmanCommitment G)) (h : coms ≠ []) :
    ∃ out, sum coms = .ok out ∧ out.poly F = (coms.map (poly F)).sum := by
  cases coms with
  | nil => exact absurd rfl h
  | cons c cs => exact ⟨cs.foldl add c, rfl, by rw [poly_foldl_add, List.map_cons, List.sum_cons]⟩

theorem length_foldl_add (coms : List (FeldmanCommitment G)) (acc : FeldmanCommitment G) (t : Nat)
    (h : ∀ c ∈ coms, c.points.length = t) (hacc : acc.points.length = t) :
    (coms.foldl add acc).points.length = t := by
  induction coms generalizing acc with
  | nil => exact hacc
  | cons c cs ih =>
    refine ih _ (fun d hd => h d (List.mem_cons_of_mem _ hd)) ?_
    rw [length_add, hacc, h c List.mem_cons_self, max_self]

theorem length_sum (coms : List (FeldmanCommitment G)) (out : FeldmanCommitment G) (t : Nat)
    (h : ∀ c ∈ coms, c.points.length = t) (hs : sum coms = .ok out) : out.points.length = t := by
  cases coms with
  | nil => simp [sum] at hs
  | cons c cs =>
    simp only [sum, Except.ok.injEq] at hs
    rw [← hs]
    exact length_foldl_add cs c t (fun d hd => h d (List.mem_cons_of_mem _ hd)) (h c List.mem_cons_self)

end FeldmanCommitment

end OhmEcdsa
