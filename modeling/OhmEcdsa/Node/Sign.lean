import OhmEcdsa.Core.PresignRobust
import OhmEcdsa.Core.Secp256k1
import OhmEcdsa.Node.Payload

/-!
# Robust online signing on a node (`party.rs`, `sign_run_scalar` and R2 of `sign_ki_robust_run`)

Both drivers read the round's accepted set, drop shares of another id, combine
robustly and normalise.  With `t` valid shares in the set they deliver a valid
low-`s` signature and blame exactly the wrong shares' senders if and only if no
accepted payload is of another variant and `m + r·x ≠ 0`:

    Delivered … (signRunScalar …) ↔ AllSignShares set ∧ m + r·x ≠ 0    (robust_sign_iff)
-/

set_option linter.unusedSectionVars false

namespace OhmEcdsa

open Polynomial FeldmanCommitment Hoare

variable {F G : Type} [Field F] [DecidableEq F] [AddCommGroup G] [Module F G] [DecidableEq G] [K256 F G]

/-! ## Algorithm -/

/-- What the node broadcasts for its own record. -/
def signShareMessage (presig : Presignature F G) (m : F) : NodePayload F G :=
  .signShare presig.id (signShare presig m).s

/-- The loop over the accepted set: shares of `id` are kept, shares of another id
dropped, and any other payload ends the session. -/
def collectSignShares (id : U64) (set : AcceptedSet F G) : Outcome (List (SignShare F)) :=
  set.toList.foldlM (fun shares e =>
    match e.2 with
    | .signShare pid s => if pid = id then .ok (shares ++ [⟨e.1, s⟩]) else .ok shares
    | _ => .error (abort .sign [e.1] "malformed sign broadcast")) []

/-- `sign_run_scalar` after its broadcast. -/
def signRunScalar (params : Params) (presig : Presignature F G) (m : F) (set : AcceptedSet F G) :
    Outcome (Signature F × List PartyId) := do
  let shares ← collectSignShares presig.id set
  let ((r, s), blamed) ← combineRobust params presig m shares
  let sig ← finishSignature G r s
  return (sig, blamed)

/-- `expel` of `party.rs`: as the core's, and the blame list is sorted. -/
def expelSorted (blamed active new : List PartyId) : List PartyId × List PartyId :=
  let (blamed, active) := expel blamed active new
  (blamed.insertionSort (· ≤ ·), active)

/-- R2 of `sign_ki_robust_run`, given R1's blame, active set and `A[z]`. -/
def signKiRobustR2 (params : Params) (presig : KiPresignature F G) (zCom : FeldmanCommitment G) (m : F)
    (blamed active : List PartyId) (set : AcceptedSet F G) : Outcome (Signature F × List PartyId) := do
  let shares ← collectSignShares presig.id set
  let ((r, s), b2) ← combineKiRobust params presig zCom m shares
  let (blamed, _active) := expelSorted blamed active b2
  let sig ← finishSignature G r s
  return (sig, blamed)

/-! ## Lemmas -/

def isSignShare : NodePayload F G → Bool
  | .signShare .. => true
  | _ => false

/-- No accepted payload is of another variant. -/
def AllSignShares (set : AcceptedSet F G) : Prop := ∀ e ∈ set.toList, isSignShare e.2 = true

/-- The share an accepted payload contributes. -/
def pickShare (id : U64) (e : PartyId × NodePayload F G) : Option (SignShare F) :=
  match e.2 with
  | .signShare pid s => if pid = id then some ⟨e.1, s⟩ else none
  | _ => none

theorem collect_fold (id : U64) (l : List (PartyId × NodePayload F G)) (acc : List (SignShare F)) :
    let out := l.foldlM (fun shares e =>
      match e.2 with
      | .signShare pid s => if pid = id then .ok (shares ++ [⟨e.1, s⟩]) else .ok shares
      | _ => .error (abort .sign [e.1] "malformed sign broadcast") : List (SignShare F) → _ → Outcome _) acc
    ((∀ e ∈ l, isSignShare e.2 = true) → out = .ok (acc ++ l.filterMap (pickShare id))) ∧
      ((∃ e ∈ l, isSignShare e.2 = false) → ∃ f, out = .error (abort .sign [f] "malformed sign broadcast")) := by
  induction l generalizing acc with
  | nil => exact ⟨fun _ => by simp [pure, Except.pure], fun ⟨e, he, _⟩ => by cases he⟩
  | cons e l ih =>
    obtain ⟨f, payload⟩ := e
    simp only [List.foldlM_cons, List.forall_mem_cons, List.exists_mem_cons_iff]
    cases payload with
    | signShare pid s =>
      simp only [isSignShare, true_and, Bool.true_eq_false, false_or]
      by_cases hp : pid = id
      · obtain ⟨h₁, h₂⟩ := ih (acc ++ [⟨f, s⟩])
        simp only [hp, if_true, bind, Except.bind]
        refine ⟨fun h => ?_, h₂⟩
        rw [h₁ h]
        simp [pickShare]
      · obtain ⟨h₁, h₂⟩ := ih acc
        simp only [hp, if_false, bind, Except.bind]
        refine ⟨fun h => ?_, h₂⟩
        rw [h₁ h]
        simp [pickShare, hp]
    | _ => exact ⟨fun h => by simp [isSignShare] at h, fun _ => ⟨f, rfl⟩⟩

theorem collectSignShares_ok {id : U64} {set : AcceptedSet F G} (h : AllSignShares set) :
    collectSignShares id set = .ok (set.toList.filterMap (pickShare id)) := by
  have := (collect_fold id set.toList ([] : List (SignShare F))).1 h
  rwa [List.nil_append] at this

theorem collectSignShares_malformed (id : U64) {set : AcceptedSet F G} (h : ¬ AllSignShares set) :
    ∃ f, collectSignShares id set = .error (abort .sign [f] "malformed sign broadcast") := by
  refine (collect_fold id set.toList ([] : List (SignShare F))).2 ?_
  unfold AllSignShares at h
  push Not at h
  obtain ⟨e, he, hne⟩ := h
  exact ⟨e, he, by simpa using hne⟩

theorem mem_collected {id : U64} {set : AcceptedSet F G} {sh : SignShare F} :
    sh ∈ set.toList.filterMap (pickShare id) ↔ set[sh.sender]? = some (.signShare id sh.s) := by
  rw [List.mem_filterMap]
  constructor
  · rintro ⟨⟨f, payload⟩, he, hpick⟩
    cases payload with
    | signShare pid s =>
      simp only [pickShare] at hpick
      split at hpick
      · next hp =>
        obtain rfl := Option.some.inj hpick
        rw [← hp]
        exact Std.ExtTreeMap.mem_toList_iff_getElem?_eq_some.mp he
      · cases hpick
    | _ => cases hpick
  · intro h
    exact ⟨(sh.sender, .signShare id sh.s), Std.ExtTreeMap.mem_toList_iff_getElem?_eq_some.mpr h,
      by simp [pickShare]⟩

/-- One share per sender. -/
theorem collected_nodup (id : U64) (set : AcceptedSet F G) :
    ((set.toList.filterMap (pickShare id)).map (·.sender)).Nodup := by
  have hsub : ∀ l : List (PartyId × NodePayload F G),
      ((l.filterMap (pickShare id)).map (·.sender)).Sublist (l.map (·.1)) := by
    intro l
    induction l with
    | nil => exact List.Sublist.refl _
    | cons e l ih =>
      rw [List.filterMap_cons, List.map_cons]
      cases hp : pickShare id e with
      | none => exact ih.cons _
      | some sh =>
        have hsender : sh.sender = e.1 := by
          obtain ⟨f, payload⟩ := e
          cases payload with
          | signShare pid s =>
            simp only [pickShare] at hp
            split at hp
            · rw [← Option.some.inj hp]
            · cases hp
          | _ => cases hp
        simp only [List.map_cons, hsender]
        exact ih.cons_cons _
  exact (nodup_keys_toList set).sublist (hsub _)

/-- `f`'s accepted share of `id` fails the check against `sCom`. -/
def WrongShare (id : U64) (sCom : FeldmanCommitment G) (set : AcceptedSet F G) (f : PartyId) : Prop :=
  ∃ s, set[f]? = some (.signShare id s) ∧ sCom.verifyShare f s = false

/-- **The robust combine over an accepted set** with `t` valid shares. -/
theorem combine_collected {t : Usize} {id : U64} {r : F} {sCom : FeldmanCommitment G} {set : AcceptedSet F G}
    (hdeg : (sCom.poly F).degree < t.val) {honest : List PartyId} (hnd : honest.Nodup)
    (hlen : t.val ≤ honest.length)
    (hh : ∀ j ∈ honest, ∃ s, set[j]? = some (.signShare id s) ∧ sCom.verifyShare j s = true) :
    ∃ blamed, combineRobustVerified t r sCom (set.toList.filterMap (pickShare id)) =
        .ok ((r, (sCom.poly F).eval 0), blamed) ∧ ∀ f, f ∈ blamed ↔ WrongShare id sCom set f := by
  have hvalid : honest ⊆ ((set.toList.filterMap (pickShare id)).filter fun sh =>
      sCom.verifyShare sh.sender sh.s).map (·.sender) := by
    intro j hj
    obtain ⟨s, hs, hv⟩ := hh j hj
    exact List.mem_map.mpr ⟨⟨j, s⟩, List.mem_filter.mpr ⟨mem_collected.mpr hs, hv⟩, rfl⟩
  have hcount := (List.subperm_of_subset hnd hvalid).length_le
  rw [List.length_map] at hcount
  rw [combineRobustVerified_eq t r sCom _ (collected_nodup id set) hdeg, if_neg (by omega)]
  refine ⟨_, rfl, fun f => ?_⟩
  rw [List.mem_map]
  constructor
  · rintro ⟨sh, hsh, rfl⟩
    obtain ⟨hmem, hbad⟩ := List.mem_filter.mp hsh
    exact ⟨sh.s, mem_collected.mp hmem, by simpa using hbad⟩
  · rintro ⟨s, hs, hbad⟩
    exact ⟨⟨f, s⟩, List.mem_filter.mpr ⟨mem_collected.mpr hs, by simpa using hbad⟩, rfl⟩

theorem mem_expelSorted (blamed active new : List PartyId) (f : PartyId) :
    f ∈ (expelSorted blamed active new).1 ↔ f ∈ blamed ∨ f ∈ new := by
  unfold expelSorted
  rw [List.mem_insertionSort, mem_expel_blamed]

/-! ## Top theorems -/

/-- A valid low-`s` signature on `m` under `x·G`, blaming exactly the senders of
wrong shares besides those blamed `before`. -/
def Delivered (x m : F) (id : U64) (sCom : FeldmanCommitment G) (set : AcceptedSet F G)
    (before : List PartyId) (out : Outcome (Signature F × List PartyId)) : Prop :=
  ∃ sig blamed, out = .ok (sig, blamed) ∧ sig.Verifies (x • K256.generator F : G) m ∧ sig.LowS G ∧
    ∀ f, f ∈ blamed ↔ f ∈ before ∨ WrongShare id sCom set f

/-- The tail both drivers share: `blame` combines the round's blame with earlier. -/
def robustSign (quorum : Usize) (id : U64) (r : F) (sCom : FeldmanCommitment G) (set : AcceptedSet F G)
    (blame : List PartyId → List PartyId) : Outcome (Signature F × List PartyId) := do
  let shares ← collectSignShares id set
  let ((r, s), b) ← combineRobustVerified quorum r sCom shares
  let sig ← finishSignature G r s
  return (sig, blame b)

theorem robustSign_iff {t : Usize} {x m : F} {uCom zCom : FeldmanCommitment G} {k r : F}
    (basis : SignBasis t x uCom zCom k r) {id : U64} {set : AcceptedSet F G} {honest : List PartyId}
    (hnd : honest.Nodup) (hlen : t.val ≤ honest.length)
    (hh : ∀ j ∈ honest, ∃ s, set[j]? = some (.signShare id s) ∧
      (signCom uCom zCom m r).verifyShare j s = true)
    {blame : List PartyId → List PartyId} {before : List PartyId}
    (hblame : ∀ b f, f ∈ blame b ↔ f ∈ before ∨ f ∈ b) :
    Delivered x m id (signCom uCom zCom m r) set before
        (robustSign t id r (signCom uCom zCom m r) set blame) ↔
      AllSignShares set ∧ m + r * x ≠ 0 := by
  obtain ⟨b, hcomb, hb⟩ := combine_collected (r := r) (degree_signCom basis m) hnd hlen hh
  rw [eval_signCom basis] at hcomb
  unfold robustSign Delivered
  constructor
  · rintro ⟨sig, blamed, hout, -⟩
    by_cases hall : AllSignShares set
    · refine ⟨hall, fun hm => ?_⟩
      rw [collectSignShares_ok hall] at hout
      simp only [bind, Except.bind, hcomb, hm, mul_zero, finishSignature, Signature.fromScalars, or_true,
        if_true] at hout
      cases hout
    · obtain ⟨f, hf⟩ := collectSignShares_malformed id hall
      rw [hf] at hout
      cases hout
  · rintro ⟨hall, hm⟩
    obtain ⟨sig, hfin, hver, hlow⟩ := finishSignature_verifies basis hm
    refine ⟨sig, blame b, ?_, hver, hlow, fun f => by rw [hblame, hb f]⟩
    rw [collectSignShares_ok hall]
    simp only [bind, Except.bind, hcomb, hfin]
    rfl

/-- **Robust signing delivers exactly when** every accepted payload is a signature
share and `m + r·x ≠ 0`, whatever the shares of the others are: for
`sign_run_scalar` and for R2 of `sign_ki_robust_run`. -/
theorem robust_sign_iff (params : Params) (x m : F) (uCom zCom : FeldmanCommitment G) (k r : F)
    (basis : SignBasis params.t x uCom zCom k r) (id : U64) (set : AcceptedSet F G) (honest : List PartyId)
    (hnd : honest.Nodup) (hlen : params.t.val ≤ honest.length)
    (hh : ∀ j ∈ honest, ∃ s, set[j]? = some (.signShare id s) ∧
      (signCom uCom zCom m r).verifyShare j s = true) :
    (∀ presig : Presignature F G, presig.id = id → presig.r = r → presig.uCom = uCom → presig.zCom = zCom →
      (Delivered x m id (signCom uCom zCom m r) set [] (signRunScalar params presig m set) ↔
        AllSignShares set ∧ m + r * x ≠ 0)) ∧
    ∀ (presig : KiPresignature F G) (blamed active : List PartyId),
      presig.id = id → presig.r = r → presig.uCom = uCom →
      (Delivered x m id (signCom uCom zCom m r) set blamed
          (signKiRobustR2 params presig zCom m blamed active set) ↔
        AllSignShares set ∧ m + r * x ≠ 0) := by
  constructor
  · rintro presig rfl rfl rfl rfl
    have heq : signRunScalar params presig m set =
        robustSign params.t presig.id presig.r (signCom presig.uCom presig.zCom m presig.r) set fun b => b := rfl
    rw [heq]
    exact robustSign_iff basis hnd hlen hh fun b f => by simp
  · rintro presig blamed active rfl rfl rfl
    have heq : signKiRobustR2 params presig zCom m blamed active set =
        robustSign params.t presig.id presig.r (signCom presig.uCom zCom m presig.r) set
          fun b => (expelSorted blamed active b).1 := rfl
    rw [heq]
    exact robustSign_iff basis hnd hlen hh fun b f => mem_expelSorted blamed active b f

/-! ### Two of three, every draw 1 -/

section Trio

open Secp256k1

def trioSignCom : FeldmanCommitment Point := signCom ⟨[3, 3]⟩ ⟨[3, -5]⟩ (1 : Scalar) (-3⁻¹)

/-- Parties 1 and 2 broadcast their shares of message scalar 1, party 3 `payload`. -/
def trioSet (payload : NodePayload Scalar Point) : AcceptedSet Scalar Point :=
  collect [(1, signShareMessage (trioRecord 1) 1), (2, signShareMessage (trioRecord 2) 1), (3, payload)]

theorem trioSet_honest (payload : NodePayload Scalar Point) : ∀ j ∈ ([1, 2] : List PartyId),
    ∃ s, (trioSet payload)[j]? = some (.signShare 0 s) ∧ trioSignCom.verifyShare j s = true := by
  intro j hj
  rcases List.mem_pair.mp hj with rfl | rfl
  · exact ⟨(signShare (trioRecord 1) 1).s, rfl, by decide +kernel⟩
  · exact ⟨(signShare (trioRecord 2) 1).s, rfl, by decide +kernel⟩

/-- Party 3 broadcasts a wrong share: the signature is delivered. -/
theorem robust_sign_trio : Delivered (1 : Scalar) 1 0 trioSignCom (trioSet (.signShare 0 7)) []
    (signRunScalar ⟨3, 2⟩ (trioRecord 1) 1 (trioSet (.signShare 0 7))) := by
  have hall : AllSignShares (trioSet (.signShare 0 7)) := by
    intro e he
    rcases List.mem_cons.mp ((mem_toList_collect _ (by simp) e).mp he) with rfl | h
    · rfl
    rcases List.mem_pair.mp h with rfl | rfl <;> rfl
  exact ((robust_sign_iff (G := Point) ⟨3, 2⟩ 1 1 _ _ _ _ trio_basis 0 (trioSet (.signShare 0 7)) [1, 2]
    (by decide) (by decide) (trioSet_honest _)).1 (trioRecord 1) rfl rfl rfl rfl).mpr ⟨hall, by decide +kernel⟩

/-- Parties 1 and 2 broadcast valid shares of a presignature of the protocol;
party 3's broadcast of another variant leaves the node without a signature. -/
theorem robust_sign_malformed :
    (presignWithCommittee trio trioKeys 0 none trioRngs).1 = .ok (trio.ids.map trioRecord) ∧
      (∀ j ∈ ([1, 2] : List PartyId), (trioSet (.complaints []))[j]? = some (signShareMessage (trioRecord j) 1)) ∧
      ∀ sig, signRunScalar ⟨3, 2⟩ (trioRecord 1) 1 (trioSet (.complaints [])) ≠ .ok sig := by
  refine ⟨presign_trio, fun j hj => ?_, fun sig h => ?_⟩
  · rcases List.mem_pair.mp hj with rfl | rfl <;> rfl
  · cases h

end Trio

end OhmEcdsa
