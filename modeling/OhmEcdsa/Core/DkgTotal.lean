import OhmEcdsa.Core.DkgFaults
import OhmEcdsa.Support.Plan

/-!
# The batch DKG, and both finalizers on arbitrary maps (`src/protocol/dkg.rs`)

`finalize` counts the entries of its maps before it reads them by member id, so a
map of the right size with another key stops it by a panic, and in the batch
variant so does a defense vector that is too short.  Exactly then:

    Returns (inst.finalize phase r1 r2 shares defenses) ↔
      a size is wrong, or what the first failing dealer's checks read is there    (finalize_returns_iff)
-/

set_option linter.unusedSectionVars false

namespace OhmEcdsa

open FeldmanCommitment Hoare

variable {F G : Type} [Field F] [DecidableEq F] [AddCommGroup G] [Module F G] [DecidableEq G] [K256 F G]

/-! ## Algorithm: the batch variant -/

/-- Round-2 broadcast of a batch deal: all revealed vectors. -/
structure DkgBatchBcast2 (G : Type) where
  sender : PartyId
  coms : List (FeldmanCommitment G)

/-- Per-party state: polynomials of `polyLen` coefficients, dealt in one session. -/
structure DkgBatchInstance (F G : Type) where
  committee : Committee
  sid : Bytes
  tag : Bytes
  me : PartyId
  polys : List (ShamirPoly F)
  coms : List (FeldmanCommitment G)
  polyLen : Nat

/-- `lib.rs`: the transcript digest of several vectors. -/
def hashCommitments (F : Type) {G : Type} [Field F] [AddCommGroup G] [Module F G] [K256 F G]
    (sid tag : Bytes) (party : PartyId) (coms : List (FeldmanCommitment G)) : Bytes :=
  K256.sha256 F G (tag ++ sid ++ u64Bytes party.val ++ coms.flatMap fun com => com.points.flatMap (K256.pointBytes F))

/-- A complaint's verdict, with the index it is about. -/
def atIndex (b : Nat) : Fault → Fault
  | .error (.abort a) => .error (.abort { a with detail := a.detail ++ " (batch index " ++ toString b ++ ")" })
  | e => e

namespace DkgBatchInstance

/-- Deal explicit polynomials. -/
def startWithPolys (committee : Committee) (sid tag : Bytes) (me : PartyId) (polys : List (ShamirPoly F)) :
    Outcome (DkgBatchInstance F G × DkgBcast1) := do
  let first ← nth polys 0
  let coms := polys.map fromPoly
  return (⟨committee, sid, tag, me, polys, coms, first.coeffs.length⟩, ⟨me, hashCommitments F sid tag me coms⟩)

/-- Batch size. -/
def count (inst : DkgBatchInstance F G) : Nat := inst.polys.length

/-- The defense for every index. -/
def defend (inst : DkgBatchInstance F G) (j : PartyId) : List F := inst.polys.map fun p => p.eval j

/-- One index of a dealer's batch. -/
def checkShare (inst : DkgBatchInstance F G) (phase : Phase) (i : PartyId) (shares defense : List F)
    (e : FeldmanCommitment G × Nat) : Outcome F := do
  let s ← nth shares e.2
  if e.1.verifyShare inst.me s then return s
  else
    let d ← nth defense e.2
    throw (atIndex e.2 (resolveComplaint phase e.1 i inst.me d))

/-- The checks of one dealer's reveals and shares. -/
def checkDealer (inst : DkgBatchInstance F G) (phase : Phase) (r1 : PartyMap DkgBcast1)
    (r2 : PartyMap (DkgBatchBcast2 G)) (sharesForMe defenses : PartyMap (List F)) (i : PartyId) :
    Outcome (List F × List (FeldmanCommitment G)) := do
  let b1 ← OhmEcdsa.index r1 i
  let b2 ← OhmEcdsa.index r2 i
  let shares ← OhmEcdsa.index sharesForMe i
  let defense ← OhmEcdsa.index defenses i
  if b2.coms.length ≠ inst.count ∨ (∃ c ∈ b2.coms, c.points.length ≠ inst.polyLen) ∨ shares.length ≠ inst.count then
    throw (abort phase [i] "malformed batch Feldman commitment vectors")
  else if hashCommitments F inst.sid inst.tag i b2.coms ≠ b1.hash then
    throw (abort phase [i] "commit-reveal hash mismatch")
  else
    let good ← b2.coms.zipIdx.mapM (inst.checkShare phase i shares defense)
    return (good, b2.coms)

/-- Round 3: verify every dealer and index, and sum index by index. -/
def finalize (inst : DkgBatchInstance F G) (phase : Phase) (r1 : PartyMap DkgBcast1)
    (r2 : PartyMap (DkgBatchBcast2 G)) (sharesForMe defenses : PartyMap (List F)) :
    Outcome (List (DkgOutput F G)) :=
  let n := inst.committee.n
  if r1.size ≠ n ∨ r2.size ≠ n ∨ sharesForMe.size ≠ n ∨ defenses.size ≠ n then
    .error (.error (.invalidParams "incomplete message sets"))
  else do
    let checked ← inst.committee.ids.mapM (inst.checkDealer phase r1 r2 sharesForMe defenses)
    let shareSums := checked.foldl (fun acc e => List.zipWith (· + ·) acc e.1) (List.replicate inst.count 0)
    let comsPerIndex := checked.foldl (fun acc e => List.zipWith (fun l c => l ++ [c]) acc e.2)
      (List.replicate inst.count [])
    (shareSums.zip comsPerIndex).mapM fun e => do
      let com ← FeldmanCommitment.sum e.2
      return ⟨inst.me, e.1, com⟩

end DkgBatchInstance

/-! ## Specification -/

def NoPanic (e : Fault) : Prop := ∀ msg, e ≠ .panic msg

/-- A value or an error, no panic. -/
def Returns {α : Type} (x : Outcome α) : Prop := Fails NoPanic x

/-- What the checks of dealer `i` read is there. -/
def DkgInstance.Covered (inst : DkgInstance F G) (r1 : PartyMap DkgBcast1) (r2 : PartyMap (DkgBcast2 G))
    (shares defenses : PartyMap F) (i : PartyId) : Prop :=
  i ∈ r1 ∧ i ∈ r2 ∧ (DkgInstance.revealConsistent F inst.committee.t inst.sid inst.tag r1 r2 i = true →
    i ∈ shares ∧ i ∈ defenses)

namespace DkgBatchInstance

variable (inst : DkgBatchInstance F G) (r1 : PartyMap DkgBcast1) (r2 : PartyMap (DkgBatchBcast2 G))
  (shares defenses : PartyMap (List F))

/-- Dealer `i`'s vectors and shares have the session's shape and match its commitment. -/
def revealConsistent (i : PartyId) : Bool :=
  match r1[i]?, r2[i]?, shares[i]? with
  | some b1, some b2, some s => b2.coms.length = inst.count ∧ (∀ c ∈ b2.coms, c.points.length = inst.polyLen) ∧
      s.length = inst.count ∧ hashCommitments F inst.sid inst.tag i b2.coms = b1.hash
  | _, _, _ => false

/-- The first index at which dealer `i`'s share fails. -/
def failingIndex (i : PartyId) : Option Nat :=
  match r2[i]?, shares[i]? with
  | some b2, some s => (b2.coms.zipIdx.find? fun e => !s[e.2]?.any (e.1.verifyShare inst.me)).map (·.2)
  | _, _ => none

def passes (i : PartyId) : Bool :=
  inst.revealConsistent r1 r2 shares i && defenses.contains i && (inst.failingIndex r2 shares i).isNone

/-- The first dealer, in id order, that fails a check of `inst`. -/
def firstFailing : Option PartyId := inst.committee.ids.find? fun i => !inst.passes r1 r2 shares defenses i

/-- What the checks of dealer `i` read is there. -/
def Covered (i : PartyId) : Prop :=
  i ∈ r1 ∧ i ∈ r2 ∧ i ∈ shares ∧ ∃ defense, defenses[i]? = some defense ∧
    (inst.revealConsistent r1 r2 shares i = true → ∀ b, inst.failingIndex r2 shares i = some b → b < defense.length)

end DkgBatchInstance

/-! ## Lemmas: one dealer -/

theorem noPanic_error (e : Error) : NoPanic (.error e) := nofun

theorem not_noPanic_panic (msg : String) : ¬ NoPanic (.panic msg) := fun h => h msg rfl

theorem resolveComplaint_noPanic (phase : Phase) (com : FeldmanCommitment G) (i me : PartyId) (s : F) :
    NoPanic (resolveComplaint phase com i me s) := by
  unfold resolveComplaint
  split <;> exact noPanic_error _

theorem atIndex_noPanic (b : Nat) {e : Fault} (h : NoPanic e) : NoPanic (atIndex b e) := by
  unfold atIndex
  split
  · exact noPanic_error _
  · exact h

/-- The first failing element of a loop of checks decides whether the loop panics. -/
theorem mapM_returns {α β : Type} {f : α → Outcome β} {bad : α → Bool} {safe : α → Prop} (l : List α)
    (hok : ∀ a ∈ l, bad a = false → ∃ b, f a = .ok b)
    (hbad : ∀ a ∈ l, bad a = true → ∃ e, f a = .error e ∧ (NoPanic e ↔ safe a)) :
    (∃ a, l.find? bad = some a ∧ ∃ e, l.mapM f = .error e ∧ (NoPanic e ↔ safe a)) ∨
      (l.find? bad = none ∧ ∃ l', l.mapM f = .ok l') := by
  rcases mapM_find f bad l hok fun a ha h => (hbad a ha h).imp fun _ he => he.1 with ⟨a, ha, hf, e, he, hl⟩ | hall
  · obtain ⟨e', he', hsafe⟩ := hbad a ha (List.find?_some hf)
    rw [he] at he'
    cases he'
    exact Or.inl ⟨a, hf, e, hl, hsafe⟩
  · exact Or.inr hall

theorem mapM_bind_returns {α β γ : Type} {f : α → Outcome β} {bad : α → Bool} {safe : α → Prop} {g : List β → Outcome γ}
    (l : List α) (hok : ∀ a ∈ l, bad a = false → ∃ b, f a = .ok b)
    (hbad : ∀ a ∈ l, bad a = true → ∃ e, f a = .error e ∧ (NoPanic e ↔ safe a))
    (hg : ∀ l', l.mapM f = .ok l' → Returns (g l')) :
    Returns (l.mapM f >>= g) ↔ ∀ a, l.find? bad = some a → safe a := by
  rcases mapM_returns l hok hbad with ⟨a, hf, e, hl, hsafe⟩ | ⟨hf, l', hl⟩
  · rw [hl, hf]
    constructor
    · rintro h _ ⟨⟩
      exact hsafe.mp (h e rfl)
    · exact fun h => Fails.error (hsafe.mpr (h a rfl))
  · rw [hf]
    refine iff_of_true ?_ nofun
    rw [hl]
    exact hg l' hl

theorem ne_nil_of_members {β : Type} {c : Committee} {f : PartyId → Outcome β} {l : List β}
    (h : c.ids.mapM f = .ok l) : l ≠ [] := by
  have hlen := (forall₂_of_mapM_ok _ _ h).length_eq
  have hpos := c.n_pos
  rintro rfl
  unfold Committee.n at hpos
  rw [hlen] at hpos
  cases hpos

namespace DkgInstance

variable (inst : DkgInstance F G) (phase : Phase) (r1 : PartyMap DkgBcast1) (r2 : PartyMap (DkgBcast2 G))
  (shares defenses : PartyMap F) (i : PartyId)

theorem checkDealer_good
    (h : (revealConsistent F inst.committee.t inst.sid inst.tag r1 r2 i && entryVerifies r2 shares inst.me i) = true) :
    (revealed r2 i).points.length = inst.committee.t.val ∧
      ∃ s, inst.checkDealer phase r1 r2 shares defenses i = .ok (s, revealed r2 i) := by
  unfold revealConsistent entryVerifies at h
  cases h1 : r1[i]? with
  | none => simp [h1] at h
  | some b1 =>
    cases h2 : r2[i]? with
    | none => simp [h1, h2] at h
    | some b2 =>
      cases hs : shares[i]? with
      | none => simp [h2, hs] at h
      | some s =>
        simp only [h1, h2, hs, Bool.and_eq_true, decide_eq_true_eq] at h
        obtain ⟨⟨hlen, hhash⟩, hver⟩ := h
        have hrev : revealed r2 i = b2.com := by
          unfold revealed
          rw [h2]
        refine ⟨by rw [hrev, hlen], s, ?_⟩
        unfold checkDealer
        rw [index_some h1, index_some h2, index_some hs, hrev]
        simp only [bind, Except.bind, hlen, hhash, hver, ne_eq, not_true_eq_false, if_false, if_true]
        rfl

/-- **A failing dealer**: a panic exactly when an entry its checks read is missing. -/
theorem checkDealer_bad
    (h : (revealConsistent F inst.committee.t inst.sid inst.tag r1 r2 i && entryVerifies r2 shares inst.me i) = false) :
    ∃ e, inst.checkDealer phase r1 r2 shares defenses i = .error e ∧ (NoPanic e ↔ inst.Covered r1 r2 shares defenses i) := by
  unfold checkDealer Covered
  by_cases h1 : i ∈ r1
  swap
  · rw [index_none h1]
    exact ⟨_, rfl, iff_of_false (not_noPanic_panic _) fun hc => h1 hc.1⟩
  by_cases h2 : i ∈ r2
  swap
  · obtain ⟨b1, hb1⟩ := getElem?_of_mem h1
    rw [index_some hb1, index_none h2]
    exact ⟨_, rfl, iff_of_false (not_noPanic_panic _) fun hc => h2 hc.2.1⟩
  obtain ⟨b1, hb1⟩ := getElem?_of_mem h1
  obtain ⟨b2, hb2⟩ := getElem?_of_mem h2
  rw [index_some hb1, index_some hb2]
  unfold revealConsistent entryVerifies at *
  simp only [hb1, hb2, bind, Except.bind] at h ⊢
  by_cases hlen : b2.com.points.length = inst.committee.t.val
  swap
  · rw [if_pos hlen]
    exact ⟨_, rfl, iff_of_true (noPanic_error _) ⟨h1, h2, fun hc => by simp [hlen] at hc⟩⟩
  by_cases hhash : hashCommitment F inst.sid inst.tag i b2.com = b1.hash
  swap
  · rw [if_neg (not_not.mpr hlen), if_pos hhash]
    exact ⟨_, rfl, iff_of_true (noPanic_error _) ⟨h1, h2, fun hc => by simp [hhash] at hc⟩⟩
  rw [if_neg (not_not.mpr hlen), if_neg (not_not.mpr hhash)]
  by_cases hs : i ∈ shares
  swap
  · rw [index_none hs]
    exact ⟨_, rfl, iff_of_false (not_noPanic_panic _) fun hc => hs (hc.2.2 (by simp [hlen, hhash])).1⟩
  obtain ⟨s, hsi⟩ := getElem?_of_mem hs
  rw [index_some hsi]
  rw [hsi] at h
  simp only [hlen, hhash, and_self, decide_true, Bool.true_and] at h
  simp only [h, Bool.false_eq_true, if_false]
  by_cases hd : i ∈ defenses
  · obtain ⟨d, hdi⟩ := getElem?_of_mem hd
    rw [index_some hdi]
    exact ⟨_, rfl, iff_of_true (resolveComplaint_noPanic _ _ _ _ _) ⟨h1, h2, fun _ => ⟨hs, hd⟩⟩⟩
  · rw [index_none hd]
    exact ⟨_, rfl, iff_of_false (not_noPanic_panic _) fun hc => hd (hc.2.2 (by simp [hlen, hhash])).2⟩

/-- **`finalize` does not panic** exactly when a size is wrong or the first failing
dealer is covered. -/
theorem finalize_covered_iff :
    Returns (inst.finalize phase r1 r2 shares defenses) ↔
      (r1.size ≠ inst.committee.n ∨ r2.size ≠ inst.committee.n ∨ shares.size ≠ inst.committee.n ∨
        defenses.size ≠ inst.committee.n) ∨
      ∀ i, inst.firstFailing r1 r2 shares = some i → inst.Covered r1 r2 shares defenses i := by
  unfold finalize
  by_cases hsize : r1.size ≠ inst.committee.n ∨ r2.size ≠ inst.committee.n ∨ shares.size ≠ inst.committee.n ∨
      defenses.size ≠ inst.committee.n
  · simp only [if_pos hsize]
    exact iff_of_true (Fails.error (noPanic_error _)) (Or.inl hsize)
  simp only [if_neg hsize]
  rw [or_iff_right hsize]
  refine mapM_bind_returns inst.committee.ids
    (fun i _ h => by
      obtain ⟨-, s, hok⟩ := inst.checkDealer_good phase r1 r2 shares defenses i ((Bool.not_eq_false' _).mp h)
      exact ⟨_, hok⟩)
    (fun i _ h => inst.checkDealer_bad phase r1 r2 shares defenses i ((Bool.not_eq_true' _).mp h))
    fun checked hchecked => ?_
  have hne : checked.map (·.2) ≠ [] := List.map_eq_nil_iff.not.mpr (ne_nil_of_members hchecked)
  obtain ⟨com, hcom, -⟩ := sum_ok (F := F) _ hne
  rw [hcom]
  exact Fails.ok _

end DkgInstance

/-! ## Lemmas: the batch variant -/

namespace DkgBatchInstance

variable (inst : DkgBatchInstance F G) (phase : Phase) (r1 : PartyMap DkgBcast1) (r2 : PartyMap (DkgBatchBcast2 G))
  (shares defenses : PartyMap (List F)) (i : PartyId)

theorem checkShare_cases (s defense : List F) {e : FeldmanCommitment G × Nat} (he : e.2 < s.length) :
    (s[e.2]?.any (e.1.verifyShare inst.me) = true ∧ ∃ v, inst.checkShare phase i s defense e = .ok v) ∨
    (s[e.2]?.any (e.1.verifyShare inst.me) = false ∧ ∃ f, inst.checkShare phase i s defense e = .error f ∧
      (NoPanic f ↔ e.2 < defense.length)) := by
  have hget : s[e.2]? = some s[e.2] := List.getElem?_eq_getElem he
  unfold checkShare nth
  simp only [hget, bind, Except.bind, Option.any_some]
  cases hver : e.1.verifyShare inst.me s[e.2] with
  | true => exact Or.inl ⟨rfl, _, rfl⟩
  | false =>
    refine Or.inr ⟨rfl, ?_⟩
    simp only [Bool.false_eq_true, if_false]
    by_cases hd : e.2 < defense.length
    · rw [List.getElem?_eq_getElem hd]
      exact ⟨_, rfl, iff_of_true (atIndex_noPanic _ (resolveComplaint_noPanic _ _ _ _ _)) hd⟩
    · rw [List.getElem?_eq_none (Nat.not_lt.mp hd)]
      exact ⟨_, rfl, iff_of_false (not_noPanic_panic _) hd⟩

/-- All indices of a dealer whose vectors and shares have one length. -/
theorem checkShares_cases (coms : List (FeldmanCommitment G)) (s defense : List F) (hlen : coms.length = s.length) :
    (∃ e, (coms.zipIdx.find? fun e => !s[e.2]?.any (e.1.verifyShare inst.me)) = some e ∧
      ∃ f, coms.zipIdx.mapM (inst.checkShare phase i s defense) = .error f ∧ (NoPanic f ↔ e.2 < defense.length)) ∨
    ((coms.zipIdx.find? fun e => !s[e.2]?.any (e.1.verifyShare inst.me)) = none ∧
      ∃ l, coms.zipIdx.mapM (inst.checkShare phase i s defense) = .ok l) := by
  have hlt : ∀ e ∈ coms.zipIdx, e.2 < s.length := by
    intro e he
    have := (List.getElem?_eq_some_iff.mp (List.mem_zipIdx_iff_getElem?.mp he)).1
    omega
  exact mapM_returns coms.zipIdx
    (fun e he h => by
      rcases inst.checkShare_cases phase i s defense (hlt e he) with ⟨-, hok⟩ | ⟨hbad, -⟩
      · exact hok
      · simp [hbad] at h)
    (fun e he h => by
      rcases inst.checkShare_cases phase i s defense (hlt e he) with ⟨hgood, -⟩ | ⟨-, hbad⟩
      · simp [hgood] at h
      · exact hbad)

/-- **One dealer**: it passes, or fails with a panic exactly when an entry its checks
read is missing. -/
theorem checkDealer_cases :
    (inst.passes r1 r2 shares defenses i = true ∧
      ∃ out, inst.checkDealer phase r1 r2 shares defenses i = .ok out) ∨
    (inst.passes r1 r2 shares defenses i = false ∧ ∃ e, inst.checkDealer phase r1 r2 shares defenses i = .error e ∧
      (NoPanic e ↔ inst.Covered r1 r2 shares defenses i)) := by
  by_cases hall : i ∈ r1 ∧ i ∈ r2 ∧ i ∈ shares ∧ i ∈ defenses
  swap
  · refine Or.inr ⟨?_, .panic "no entry found for key", ?_, iff_of_false (not_noPanic_panic _) ?_⟩
    · by_contra hp
      rw [Bool.not_eq_false] at hp
      unfold passes revealConsistent at hp
      cases h1 : r1[i]? <;> cases h2 : r2[i]? <;> cases hs : shares[i]? <;> simp [h1, h2, hs] at hp
      exact hall ⟨mem_of_getElem? h1, mem_of_getElem? h2, mem_of_getElem? hs, hp.1.2⟩
    · unfold checkDealer
      by_cases h1 : i ∈ r1
      · obtain ⟨b1, hb1⟩ := getElem?_of_mem h1
        rw [index_some hb1]
        by_cases h2 : i ∈ r2
        · obtain ⟨b2, hb2⟩ := getElem?_of_mem h2
          rw [index_some hb2]
          by_cases hs : i ∈ shares
          · obtain ⟨s, hsi⟩ := getElem?_of_mem hs
            rw [index_some hsi, index_none fun hd => hall ⟨h1, h2, hs, hd⟩]
            rfl
          · rw [index_none hs]
            rfl
        · rw [index_none h2]
          rfl
      · rw [index_none h1]
        rfl
    · rintro ⟨h1, h2, hs, d, hd, -⟩
      exact hall ⟨h1, h2, hs, mem_of_getElem? hd⟩
  obtain ⟨h1, h2, hs, hd⟩ := hall
  obtain ⟨b1, hb1⟩ := getElem?_of_mem h1
  obtain ⟨b2, hb2⟩ := getElem?_of_mem h2
  obtain ⟨s, hsi⟩ := getElem?_of_mem hs
  obtain ⟨d, hdi⟩ := getElem?_of_mem hd
  have hcov : inst.Covered r1 r2 shares defenses i ↔ (inst.revealConsistent r1 r2 shares i = true →
      ∀ b, inst.failingIndex r2 shares i = some b → b < d.length) := by
    constructor
    · rintro ⟨-, -, -, d', hd', h⟩
      rw [hdi] at hd'
      cases hd'
      exact h
    · exact fun h => ⟨h1, h2, hs, d, hdi, h⟩
  have hcontains : defenses.contains i = true := hd
  rw [hcov]
  unfold checkDealer passes
  rw [index_some hb1, index_some hb2, index_some hsi, index_some hdi, hcontains, Bool.and_true]
  unfold revealConsistent failingIndex
  simp only [hb1, hb2, hsi, bind, Except.bind]
  by_cases hshape : b2.coms.length ≠ inst.count ∨ (∃ c ∈ b2.coms, c.points.length ≠ inst.polyLen) ∨
      s.length ≠ inst.count
  · have hbad : ¬ (b2.coms.length = inst.count ∧ (∀ c ∈ b2.coms, c.points.length = inst.polyLen) ∧
        s.length = inst.count ∧ hashCommitments F inst.sid inst.tag i b2.coms = b1.hash) := by
      rintro ⟨hc, hp, hn, -⟩
      rcases hshape with h | ⟨c, hc', h⟩ | h
      · exact h hc
      · exact h (hp c hc')
      · exact h hn
    rw [if_pos hshape]
    refine Or.inr ⟨by rw [decide_eq_false hbad, Bool.false_and], _, rfl, iff_of_true (noPanic_error _) fun hc => ?_⟩
    exact absurd (of_decide_eq_true hc) hbad
  rw [if_neg hshape]
  have hok : b2.coms.length = inst.count ∧ (∀ c ∈ b2.coms, c.points.length = inst.polyLen) ∧
      s.length = inst.count := by
    simp only [not_or, not_not, not_exists, not_and] at hshape
    exact hshape
  by_cases hhash : hashCommitments F inst.sid inst.tag i b2.coms = b1.hash
  swap
  · rw [if_pos hhash]
    have hbad : ¬ (b2.coms.length = inst.count ∧ (∀ c ∈ b2.coms, c.points.length = inst.polyLen) ∧
        s.length = inst.count ∧ hashCommitments F inst.sid inst.tag i b2.coms = b1.hash) := fun h => hhash h.2.2.2
    refine Or.inr ⟨by rw [decide_eq_false hbad, Bool.false_and], _, rfl, iff_of_true (noPanic_error _) fun hc => ?_⟩
    exact absurd (of_decide_eq_true hc) hbad
  rw [if_neg (not_not.mpr hhash), decide_eq_true ⟨hok.1, hok.2.1, hok.2.2, hhash⟩, Bool.true_and]
  rcases inst.checkShares_cases phase i b2.coms s d (hok.1.trans hok.2.2.symm) with ⟨e, hf, f, hl, hsafe⟩ | ⟨hf, l, hl⟩
  · rw [hl, hf]
    refine Or.inr ⟨rfl, f, rfl, hsafe.trans ⟨?_, fun h => h rfl e.2 rfl⟩⟩
    rintro h - _ ⟨⟩
    exact h
  · rw [hl, hf]
    exact Or.inl ⟨rfl, _, rfl⟩

theorem comsPerIndex_ne_nil (checked : List (List F × List (FeldmanCommitment G))) (hne : checked ≠ [])
    (acc : List (List (FeldmanCommitment G))) :
    ∀ l ∈ checked.foldl (fun acc e => List.zipWith (fun l c => l ++ [c]) acc e.2) acc, l ≠ [] := by
  obtain ⟨init, last, rfl⟩ := List.eq_nil_or_concat checked |>.resolve_left hne
  rw [List.concat_eq_append, List.foldl_append]
  intro l hl
  rw [List.foldl_cons, List.foldl_nil] at hl
  obtain ⟨k, hk, rfl⟩ := List.getElem_of_mem hl
  rw [List.getElem_zipWith]
  exact List.append_ne_nil_of_right_ne_nil _ (List.cons_ne_nil _ _)

theorem finalize_covered_iff :
    Returns (inst.finalize phase r1 r2 shares defenses) ↔
      (r1.size ≠ inst.committee.n ∨ r2.size ≠ inst.committee.n ∨ shares.size ≠ inst.committee.n ∨
        defenses.size ≠ inst.committee.n) ∨
      ∀ i, inst.firstFailing r1 r2 shares defenses = some i → inst.Covered r1 r2 shares defenses i := by
  unfold finalize
  by_cases hsize : r1.size ≠ inst.committee.n ∨ r2.size ≠ inst.committee.n ∨ shares.size ≠ inst.committee.n ∨
      defenses.size ≠ inst.committee.n
  · simp only [if_pos hsize]
    exact iff_of_true (Fails.error (noPanic_error _)) (Or.inl hsize)
  simp only [if_neg hsize]
  rw [or_iff_right hsize]
  refine mapM_bind_returns inst.committee.ids
    (fun i _ h => by
      rcases inst.checkDealer_cases phase r1 r2 shares defenses i with ⟨-, hok⟩ | ⟨hbad, -⟩
      · exact hok
      · simp [hbad] at h)
    (fun i _ h => by
      rcases inst.checkDealer_cases phase r1 r2 shares defenses i with ⟨hgood, -⟩ | ⟨-, hbad⟩
      · simp [hgood] at h
      · exact hbad)
    fun checked hchecked => Fails.mapM _ fun e he => ?_
  have hne := comsPerIndex_ne_nil checked (ne_nil_of_members hchecked) (List.replicate inst.count [])
  obtain ⟨com, hcom, -⟩ := sum_ok (F := F) e.2 (hne e.2 (List.of_mem_zip he).2)
  rw [hcom]
  exact Fails.ok _

end DkgBatchInstance

/-! ## Top theorem -/

/-- **When the finalizers return**: a size is wrong, or all that the checks of the
first failing dealer read is there. -/
theorem finalize_returns_iff :
    (∀ (inst : DkgInstance F G) (phase : Phase) (r1 : PartyMap DkgBcast1) (r2 : PartyMap (DkgBcast2 G))
      (shares defenses : PartyMap F), Returns (inst.finalize phase r1 r2 shares defenses) ↔
        (r1.size ≠ inst.committee.n ∨ r2.size ≠ inst.committee.n ∨ shares.size ≠ inst.committee.n ∨
          defenses.size ≠ inst.committee.n) ∨
        ∀ i, inst.firstFailing r1 r2 shares = some i → inst.Covered r1 r2 shares defenses i) ∧
    ∀ (inst : DkgBatchInstance F G) (phase : Phase) (r1 : PartyMap DkgBcast1) (r2 : PartyMap (DkgBatchBcast2 G))
      (shares defenses : PartyMap (List F)), Returns (inst.finalize phase r1 r2 shares defenses) ↔
        (r1.size ≠ inst.committee.n ∨ r2.size ≠ inst.committee.n ∨ shares.size ≠ inst.committee.n ∨
          defenses.size ≠ inst.committee.n) ∨
        ∀ i, inst.firstFailing r1 r2 shares defenses = some i → inst.Covered r1 r2 shares defenses i :=
  ⟨DkgInstance.finalize_covered_iff, DkgBatchInstance.finalize_covered_iff⟩

/-! ### The trio: a foreign key, and a defense vector that is too short -/

section Trio

open Secp256k1

def trioBatchDealer (me : PartyId) : DkgBatchInstance Scalar Point :=
  ⟨trio, [], [], me, [⟨[1, 1]⟩], [⟨[1, 1]⟩], 2⟩

def trioBatchR1 : PartyMap DkgBcast1 :=
  collect (trio.ids.map fun i => (i, ⟨i, hashCommitments Scalar [] [] i (trioBatchDealer i).coms⟩))

def trioBatchR2 : PartyMap (DkgBatchBcast2 Point) :=
  collect (trio.ids.map fun i => (i, ⟨i, (trioBatchDealer i).coms⟩))

/-- The first maps have three entries, but party 4's in the place of member 3's; in
the second session dealer 1 sends member 1 a wrong share and no defense. -/
theorem finalize_panics :
    ¬ Returns ((DkgInstance.trioDealer 1).finalize .keyGen
      (collect ([1, 2, 4].map fun i => (i, (DkgInstance.trioDealer i).commitOf)))
      DkgInstance.trioR2 (DkgInstance.trioShares 2) (DkgInstance.trioShares 2)) ∧
    ¬ Returns ((trioBatchDealer 1).finalize .triples trioBatchR1 trioBatchR2
      (collect [(1, [0]), (2, [2]), (3, [2])]) (collect [(1, []), (2, [2]), (3, [2])])) := by
  have h1 : (DkgInstance.trioDealer 1).finalize .keyGen
      (collect ([1, 2, 4].map fun i => (i, (DkgInstance.trioDealer i).commitOf)))
      DkgInstance.trioR2 (DkgInstance.trioShares 2) (DkgInstance.trioShares 2) =
        .error (.panic "no entry found for key") := by decide +kernel
  have h2 : (trioBatchDealer 1).finalize .triples trioBatchR1 trioBatchR2
      (collect [(1, [0]), (2, [2]), (3, [2])]) (collect [(1, []), (2, [2]), (3, [2])]) =
        .error (.panic "index out of bounds") := by decide +kernel
  exact ⟨fun h => h _ h1 _ rfl, fun h => h _ h2 _ rfl⟩

end Trio

end OhmEcdsa
