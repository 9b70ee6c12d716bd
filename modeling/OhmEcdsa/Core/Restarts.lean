import OhmEcdsa.Core.PresignRobust
import OhmEcdsa.Core.Sim
import OhmEcdsa.Support.Codec

/-!
# The expel-and-restart policy ends (`src/runtime/sim.rs`, `policy.rs`)

A `*_with_restart` wrapper over any driver at all: attempt `k` runs over the
parties no earlier attempt blamed, the wrapper stops before they are fewer than
`2t - 1`, and what it reports are the blamed, under their original ids:

    tried[k]? = some a → a.start.current.Perm (ids.filter (· ∉ (tried.take k).flatMap w.blames))
                                                                                (restart_policy)
-/

set_option linter.unusedSectionVars false

namespace OhmEcdsa

open Hoare Codec

variable {F G : Type} [Field F] [DecidableEq F] [AddCommGroup G] [Module F G] [DecidableEq G] [K256 F G]

/-- A driver over a slice of generators: as many after it as before. -/
structure Attempt (F α : Type) where
  run : RngM F α
  keeps : ∀ s, (run s).2.rngs.length = s.rngs.length

/-- One attempt of a restart loop: the state it starts from and how it ends. -/
structure Try (F κ β : Type) where
  start : Restart F κ
  outcome : Outcome β

/-- What a `*_with_restart` wrapper hands to `restartLoop`. -/
structure Wrapper (F κ α β : Type) where
  t : Usize
  run : Restart F κ → RngM F β
  finish : Restart F κ → β → Outcome α
  original : Restart F κ → List PartyId → Outcome (List PartyId)
  survive : List Nat → κ → Outcome κ

/-! ## Algorithm -/

namespace Wrapper

variable {κ α β : Type}

def loop (w : Wrapper F κ α β) (fuel : Nat) (st : Restart F κ) : RngM F (Option α) :=
  restartLoop w.t w.run w.finish w.original w.survive fuel st

/-- The attempts of `loop`, in order. -/
def tried (w : Wrapper F κ α β) : Nat → Restart F κ → List (Nat × Nat) → List (Try F κ β)
  | 0, _, _ => []
  | fuel + 1, st, drawn =>
    let (result, s) := w.run st ⟨st.rngs, drawn⟩
    ⟨st, result⟩ :: match result with
      | .error (.error (.abort abort)) =>
        match w.original st abort.blamed with
        | .error _ => []
        | .ok blamed =>
          match afterAbort w.t w.survive st s.rngs abort blamed with
          | .error _ => []
          | .ok st' => w.tried fuel st' s.drawn
      | _ => []

/-- The parties an aborted attempt blames, under their original ids. -/
def blames (w : Wrapper F κ α β) (a : Try F κ β) : List PartyId :=
  match a.outcome with
  | .error (.error (.abort abort)) => (w.original a.start abort.blamed).toOption.getD []
  | _ => []

end Wrapper

/-! ### The wrappers over any driver -/

/-- Where a wrapper over `1..=n` starts. -/
def Params.restart (params : Params) (rngs : List (StdRng F)) : Restart F Unit := ⟨params.parties, (), rngs, [], 0⟩

def keygenWrapper (driver : Params → Bytes → Option DkgTamper → Attempt F (List (KeyShare F G)))
    (params : Params) (sid : Bytes) (tamper : Option DkgTamper) :
    Wrapper F Unit (List (KeyShare F G) × List PartyId) (List (KeyShare F G)) where
  t := params.t
  run st := do
    let attemptParams ← lift (attemptParams params.t st)
    (driver attemptParams (poisonSid sid st.attempt) (firstOnly st tamper)).run
  finish st keys := .ok (keys, st.blamedAll)
  original := renumbered
  survive _ _ := .ok ()

def triplesWrapper (driver : Committee → Bytes → Option TripleTamper →
      Attempt F (List (TripleShare F × TriplePublic G) × List PartyId))
    (params : Params) (sid : Bytes) (tamper : Option TripleTamper) :
    Wrapper F Unit (List (TripleShare F × TriplePublic G) × List PartyId)
      (List (TripleShare F × TriplePublic G) × List PartyId) where
  t := params.t
  run st := do
    let attemptParams ← lift (attemptParams params.t st)
    let committee ← lift (Committee.full attemptParams)
    (driver committee (poisonSid sid st.attempt) (firstOnly st tamper)).run
  finish st out := do
    let blamed ← renumbered st out.2
    return (out.1, accumulateBlame st.blamedAll blamed)
  original := renumbered
  survive _ _ := .ok ()

def presignWrapper (driver : Committee → List (KeyShare F G) → U64 → Option PresignTamper →
      Attempt F (List (Presignature F G) × List PartyId))
    (params : Params) (firstId : U64) (tamper : Option PresignTamper) :
    Wrapper F (List (KeyShare F G)) (List (Presignature F G) × List PartyId × U64)
      (List (Presignature F G) × List PartyId) where
  t := params.t
  run st := do
    let committee ← lift (Committee.new st.current params.t)
    (driver committee st.keys (firstId + st.attempt) (firstOnly st tamper)).run
  finish st out := .ok (out.1, accumulateBlame st.blamedAll out.2, firstId + st.attempt)
  original _ blamed := .ok blamed
  survive positions keys := positions.mapM (nth keys)

/-! ### The drivers of the crate -/

theorem keeps_draws : Draws fun s s' : Rngs F => s'.rngs.length = s.rngs.length where
  refl _ := rfl
  trans _ _ _ h h' := h'.trans h
  draw k s := by
    cases hk : s.rngs[k]? with
    | none => rw [randomScalar_none hk]
    | some r =>
      rw [randomScalar_some hk]
      exact List.length_set

def keygenAttempt (params : Params) (sid : Bytes) (tamper : Option DkgTamper) : Attempt F (List (KeyShare F G)) :=
  ⟨runKeygenWithTamper params sid tamper, driveDkg_respects keeps_draws _ _ _ _ _⟩

def triplesAttempt (committee : Committee) (sid : Bytes) (tamper : Option TripleTamper) :
    Attempt F (List (TripleShare F × TriplePublic G) × List PartyId) :=
  ⟨generateRobustWithCommittee committee sid tamper, generateRobust_respects keeps_draws _ _ _⟩

def presignAttempt (committee : Committee) (keys : List (KeyShare F G)) (id : U64) (tamper : Option PresignTamper) :
    Attempt F (List (Presignature F G) × List PartyId) :=
  ⟨presignRobustWithCommittee committee keys id tamper, presignRobust_respects keeps_draws _ _ _ _⟩

theorem runKeygenWithRestart_eq (params : Params) (sid : Bytes) (tamper : Option DkgTamper) (fuel : Nat) (s : Rngs F) :
    runKeygenWithRestart (G := G) params sid tamper fuel s =
      (keygenWrapper keygenAttempt params sid tamper).loop fuel (params.restart s.rngs) s := rfl

theorem runTriplesWithRestart_eq (params : Params) (sid : Bytes) (tamper : Option TripleTamper) (fuel : Nat)
    (s : Rngs F) : runTriplesWithRestart (G := G) params sid tamper fuel s =
      (triplesWrapper triplesAttempt params sid tamper).loop fuel (params.restart s.rngs) s := rfl

theorem runPresignWithRestart_eq (params : Params) (keys : List (KeyShare F G)) (firstId : U64)
    (tamper : Option PresignTamper) (fuel : Nat) (s : Rngs F) :
    runPresignWithRestart params keys firstId tamper fuel s =
      (presignWrapper presignAttempt params firstId tamper).loop fuel
        ⟨keys.map (·.index), keys, s.rngs, [], 0⟩ s := rfl

/-! ## Lemmas: one step -/

/-- The members the names in `blamed` leave, in id order. -/
def survivors (current blamed : List PartyId) : List PartyId :=
  (current.filter fun p => !blamed.contains p).insertionSort (· ≤ ·)

theorem mem_survivors {current blamed : List PartyId} {p : PartyId} :
    p ∈ survivors current blamed ↔ p ∈ current ∧ p ∉ blamed := by
  simp [survivors, List.mem_insertionSort]

theorem survivors_perm (current blamed : List PartyId) :
    (survivors current blamed).Perm (current.filter fun p => !blamed.contains p) := List.perm_insertionSort _ _

theorem survivors_length {current blamed : List PartyId} {p : PartyId} (hp : p ∈ blamed) (hmem : p ∈ current) :
    (survivors current blamed).length < current.length := by
  rw [(survivors_perm current blamed).length_eq]
  exact List.length_filter_lt_length_iff_exists.mpr ⟨p, hmem, by simpa using hp⟩

/-- The policy refuses exactly below `2t - 1`. -/
theorem restartCommittee_cases (current blamed : List PartyId) {t : Usize} (hpos : 1 ≤ t.val) (ht : t.val ≤ 2 ^ 63) :
    ((survivors current blamed).length < 2 * t.val - 1 ∧ ∃ e, restartCommittee current blamed t = .error e) ∨
      (2 * t.val - 1 ≤ (survivors current blamed).length ∧
        restartCommittee current blamed t = .ok (survivors current blamed)) := by
  have hnot : ¬ t < 1 := fun h => by
    have : t.val < 1 := h
    omega
  unfold restartCommittee
  rw [if_neg hnot, val_two_mul_sub_one hpos ht]
  dsimp only
  by_cases hfew : (survivors current blamed).length < 2 * t.val - 1
  · exact Or.inl ⟨hfew, _, if_pos hfew⟩
  · exact Or.inr ⟨Nat.not_lt.mp hfew, if_neg hfew⟩

/-- Appending what is not there yet. -/
theorem mem_foldl_append {l new : List PartyId} {p : PartyId} :
    p ∈ new.foldl (fun acc b => if acc.contains b then acc else acc ++ [b]) l ↔ p ∈ l ∨ p ∈ new := by
  induction new generalizing l with
  | nil => simp
  | cons b new ih =>
    rw [List.foldl_cons, ih, List.mem_cons]
    split
    · next hb =>
      have hb : b ∈ l := by simpa using hb
      constructor
      · rintro (h | h)
        · exact Or.inl h
        · exact Or.inr (Or.inr h)
      · rintro (h | rfl | h)
        · exact Or.inl h
        · exact Or.inl hb
        · exact Or.inr h
    · rw [List.mem_append, List.mem_singleton, or_assoc]

theorem mem_accumulateBlame {blamedAll blamed : List PartyId} {p : PartyId} :
    p ∈ accumulateBlame blamedAll blamed ↔ p ∈ blamedAll ∨ p ∈ blamed := by
  unfold accumulateBlame
  rw [List.mem_insertionSort, mem_foldl_append]

/-- Members have positions. -/
theorem survivorPositions_ok {current kept : List PartyId} (h : ∀ p ∈ kept, p ∈ current) :
    ∃ positions, survivorPositions current kept = .ok positions := by
  refine ⟨kept.map fun p => (current.findIdx? (· == p)).getD 0, mapM_ok_of _ _ _ fun p hp => ?_⟩
  cases hf : current.findIdx? (· == p) with
  | none => exact absurd (List.findIdx?_eq_none_iff.mp hf p (h p hp)) (by simp)
  | some k => rfl

/-- Picking by the positions of `kept` in a list as long as `ids`. -/
theorem mapM_nth_ok {γ : Type} {ids kept : List PartyId} {positions : List Nat} (l : List γ)
    (hlen : ids.length ≤ l.length) (h : List.Forall₂ (fun s p => ids[p]? = some s) kept positions) :
    ∃ l', positions.mapM (nth l) = .ok l' ∧ List.Forall₂ (fun p a => l[p]? = some a) positions l' := by
  induction h with
  | nil => exact ⟨[], rfl, List.Forall₂.nil⟩
  | @cons s p kept positions hp _ ih =>
    obtain ⟨hlt, -⟩ := List.getElem?_eq_some_iff.mp hp
    obtain ⟨l', hrun, hall⟩ := ih
    have hget : l[p]? = some l[p] := List.getElem?_eq_getElem (by omega)
    refine ⟨l[p] :: l', ?_, List.Forall₂.cons hget hall⟩
    have hnth : nth l p = .ok l[p] := by
      unfold nth
      rw [hget]
    rw [List.mapM_cons, hnth, hrun]
    rfl

section Loop

variable {κ α β : Type}

namespace Wrapper

/-- `J` relates the members to what the wrapper keeps by position. -/
structure Sound (w : Wrapper F κ α β) (J : List PartyId → κ → Prop) : Prop where
  pos : 1 ≤ w.t.val
  bound : w.t.val ≤ 2 ^ 63
  keeps : ∀ st s, (w.run st s).2.rngs.length = s.rngs.length
  survive : ∀ {ids kept : List PartyId} {positions : List Nat} {keys : κ}, J ids keys →
    List.Forall₂ (fun s p => ids[p]? = some s) kept positions →
    ∃ keys', w.survive positions keys = .ok keys' ∧ J kept keys'

/-- A state an attempt may start from. -/
structure Ready (w : Wrapper F κ α β) (J : List PartyId → κ → Prop) (st : Restart F κ) : Prop where
  majority : 2 * w.t.val - 1 ≤ st.current.length
  nodup : st.current.Nodup
  rngs : st.current.length ≤ st.rngs.length
  keys : J st.current st.keys

/-- The attempt after one that blamed `names`. -/
structure Next (w : Wrapper F κ α β) (st : Restart F κ) (names : List PartyId) (st' : Restart F κ) : Prop where
  current : st'.current = survivors st.current names
  majority : 2 * w.t.val - 1 ≤ st'.current.length
  keys : ∃ positions, List.Forall₂ (fun s p => st.current[p]? = some s) st'.current positions ∧
    w.survive positions st.keys = .ok st'.keys
  blamedAll : st'.blamedAll = accumulateBlame st.blamedAll names
  attempt : st'.attempt = st.attempt + 1

/-- **One abort**: the policy refuses and the abort stands, or the survivors go on. -/
theorem afterAbort_cases {w : Wrapper F κ α β} {J : List PartyId → κ → Prop} (hw : w.Sound J) {st : Restart F κ}
    (hst : w.Ready J st) {rngs : List (StdRng F)} (hrngs : st.current.length ≤ rngs.length)
    (abort : IdentifiableAbort) (names : List PartyId) :
    ((survivors st.current names).length < 2 * w.t.val - 1 ∧
        afterAbort w.t w.survive st rngs abort names = .error (.error (.abort abort))) ∨
      ∃ st', afterAbort w.t w.survive st rngs abort names = .ok st' ∧ w.Next st names st' ∧ w.Ready J st' := by
  unfold afterAbort
  rcases restartCommittee_cases st.current names hw.pos hw.bound with ⟨hfew, e, he⟩ | ⟨hmany, hok⟩
  · left
    rw [he]
    exact ⟨hfew, rfl⟩
  · right
    have hsub : ∀ p ∈ survivors st.current names, p ∈ st.current := fun p hp => (mem_survivors.mp hp).1
    obtain ⟨positions, hpos⟩ := survivorPositions_ok hsub
    have hat := survivorPositions_at hpos
    obtain ⟨keys, hkeys, hJ⟩ := hw.survive hst.keys hat
    obtain ⟨kept, hkept, hpicked⟩ := mapM_nth_ok rngs hrngs hat
    refine ⟨⟨survivors st.current names, keys, kept, accumulateBlame st.blamedAll names, st.attempt + 1⟩, ?_,
      ⟨rfl, hmany, ⟨positions, hat, hkeys⟩, rfl, rfl⟩, hmany, ?_, ?_, hJ⟩
    · rw [hok]
      simp only [bind, Except.bind, hpos, hkeys, hkept]
      rfl
    · exact (survivors_perm _ _).nodup_iff.mpr (hst.nodup.filter _)
    · exact (hat.length_eq.trans hpicked.length_eq).le

/-! ## Lemmas: a whole run -/

/-- An abort maps back to original ids, one of them a current member's. -/
def Costly (w : Wrapper F κ α β) (a : Try F κ β) : Prop :=
  ∀ abort, a.outcome = .error (.error (.abort abort)) →
    ∃ names, w.original a.start abort.blamed = .ok names ∧ ∃ p ∈ names, p ∈ a.start.current

/-- The wrapper can return what a successful attempt returns. -/
def Returns (w : Wrapper F κ α β) (a : Try F κ β) : Prop := ∀ b, a.outcome = .ok b → ∃ out, w.finish a.start b = .ok out

/-- How a restart loop runs: its attempts from `st` on, and its result. -/
inductive Ran (w : Wrapper F κ α β) : Restart F κ → List (Try F κ β) → Outcome (Option α) → Prop
  | finished {st : Restart F κ} {b : β} {out : α} (h : w.finish st b = .ok out) :
    Ran w st [⟨st, .ok b⟩] (.ok (some out))
  | failed {st : Restart F κ} {e : Fault} (h : ∀ abort, e ≠ .error (.abort abort)) :
    Ran w st [⟨st, .error e⟩] (.error e)
  | refused {st : Restart F κ} {abort : IdentifiableAbort} {names : List PartyId}
      (h : w.original st abort.blamed = .ok names) (hfew : (survivors st.current names).length < 2 * w.t.val - 1) :
    Ran w st [⟨st, .error (.error (.abort abort))⟩] (.error (.error (.abort abort)))
  | restarted {st st' : Restart F κ} {abort : IdentifiableAbort} {names : List PartyId} {tried : List (Try F κ β)}
      {result : Outcome (Option α)} (h : w.original st abort.blamed = .ok names)
      (hsome : ∃ p ∈ names, p ∈ st.current) (hnext : w.Next st names st') (hrest : Ran w st' tried result) :
    Ran w st (⟨st, .error (.error (.abort abort))⟩ :: tried) result

theorem Next.length_lt {w : Wrapper F κ α β} {st st' : Restart F κ} {names : List PartyId} (h : w.Next st names st')
    (hsome : ∃ p ∈ names, p ∈ st.current) : st'.current.length < st.current.length := by
  obtain ⟨p, hp, hmem⟩ := hsome
  rw [h.current]
  exact survivors_length hp hmem

/-- **The loop ends**: every restart costs a member, so as many attempts as there are
members to spare, and one more, are enough. -/
theorem loop_ran {w : Wrapper F κ α β} {J : List PartyId → κ → Prop} (hw : w.Sound J) (fuel : Nat) :
    ∀ (st : Restart F κ) (s : Rngs F), w.Ready J st → st.current.length - (2 * w.t.val - 1) < fuel →
      (∀ a ∈ w.tried fuel st s.drawn, w.Costly a ∧ w.Returns a) →
      Ran w st (w.tried fuel st s.drawn) (w.loop fuel st s).1 := by
  induction fuel with
  | zero =>
    intro st s _ hfuel _
    omega
  | succ fuel ih =>
    intro st s hst hfuel hall
    have hkeeps := hw.keeps st ⟨st.rngs, s.drawn⟩
    unfold loop restartLoop
    unfold tried at hall ⊢
    rw [bind_run, onClones_run]
    dsimp only at hkeeps hall ⊢
    generalize w.run st ⟨st.rngs, s.drawn⟩ = run at hkeeps hall ⊢
    obtain ⟨result, s₁⟩ := run
    obtain ⟨hcostly, hreturns⟩ := hall _ List.mem_cons_self
    rcases result with (e | msg) | b
    · cases e with
      | abort a =>
        obtain ⟨names, hnames, hsome⟩ := hcostly a rfl
        dsimp only at hnames hsome hkeeps hall ⊢
        rw [hnames] at hall
        simp only [lift_bind_run, hnames] at hall ⊢
        rcases afterAbort_cases hw hst (hkeeps ▸ hst.rngs) a names with ⟨hfew, hstop⟩ | ⟨st', hgo, hnext, hst'⟩
        · rw [hstop]
          exact .refused hnames hfew
        · rw [hgo] at hall ⊢
          have hshort := hnext.length_lt hsome
          have hmany := hnext.majority
          refine .restarted hnames hsome hnext (ih st' ⟨s.rngs, s₁.drawn⟩ hst' (by omega) fun a ha => ?_)
          exact hall a (List.mem_cons_of_mem _ ha)
      | _ => exact .failed fun abort h => by cases h
    · exact .failed fun abort h => by cases h
    · obtain ⟨out, hout⟩ := hreturns b rfl
      dsimp only at hout ⊢
      rw [lift_bind_run, hout]
      exact .finished hout

/-- What an attempt ends with is what its driver returned. -/
theorem tried_run (w : Wrapper F κ α β) (fuel : Nat) :
    ∀ (st : Restart F κ) (drawn : List (Nat × Nat)), ∀ a ∈ w.tried fuel st drawn,
      ∃ s, s.rngs = a.start.rngs ∧ a.outcome = (w.run a.start s).1 := by
  induction fuel with
  | zero =>
    intro st drawn a ha
    cases ha
  | succ fuel ih =>
    intro st drawn a ha
    unfold tried at ha
    rcases List.mem_cons.mp ha with rfl | ha
    · exact ⟨⟨st.rngs, drawn⟩, rfl, rfl⟩
    · split at ha
      · split at ha
        · cases ha
        · split at ha
          · cases ha
          · exact ih _ _ a ha
      · cases ha

/-! ### What a run has tried -/

variable {w : Wrapper F κ α β} {st : Restart F κ} {tried : List (Try F κ β)} {result : Outcome (Option α)}

theorem Ran.majority (h : w.Ran st tried result) (hst : 2 * w.t.val - 1 ≤ st.current.length) :
    ∀ a ∈ tried, 2 * w.t.val - 1 ≤ a.start.current.length := by
  induction h with
  | finished | failed | refused =>
    intro a ha
    rw [List.mem_singleton.mp ha]
    exact hst
  | restarted _ _ hnext _ ih =>
    intro a ha
    rcases List.mem_cons.mp ha with rfl | ha
    · exact hst
    · exact ih hnext.majority a ha

theorem Ran.keys {J : List PartyId → κ → Prop} (hw : w.Sound J) (h : w.Ran st tried result)
    (hst : J st.current st.keys) : ∀ a ∈ tried, J a.start.current a.start.keys := by
  induction h with
  | finished | failed | refused =>
    intro a ha
    rw [List.mem_singleton.mp ha]
    exact hst
  | restarted _ _ hnext _ ih =>
    intro a ha
    rcases List.mem_cons.mp ha with rfl | ha
    · exact hst
    · obtain ⟨positions, hat, hsurvive⟩ := hnext.keys
      obtain ⟨keys, hkeys, hJ⟩ := hw.survive hst hat
      rw [hsurvive] at hkeys
      cases hkeys
      exact ih hJ a ha

theorem Ran.length_le (h : w.Ran st tried result) : tried.length ≤ st.current.length - (2 * w.t.val - 1) + 1 := by
  induction h with
  | finished | failed | refused => exact Nat.succ_le_succ (Nat.zero_le _)
  | restarted _ hsome hnext _ ih =>
    have hshort := hnext.length_lt hsome
    have hmany := hnext.majority
    rw [List.length_cons]
    omega

theorem singleton_getElem? {γ : Type} {a b : γ} {k : Nat} (h : [a][k]? = some b) : k = 0 ∧ a = b := by
  rw [List.getElem?_singleton] at h
  split at h
  · next hk => exact ⟨hk, Option.some.inj h⟩
  · cases h

theorem Ran.attempt (h : w.Ran st tried result) {k : Nat} {a : Try F κ β} (ha : tried[k]? = some a) :
    a.start.attempt = st.attempt + Fin.ofNat (2 ^ 64) k := by
  induction h generalizing k with
  | finished | failed | refused =>
    obtain ⟨rfl, rfl⟩ := singleton_getElem? ha
    exact (add_zero _).symm
  | restarted _ _ hnext _ ih =>
    cases k with
    | zero =>
      obtain rfl := Option.some.inj ha
      exact (add_zero _).symm
    | succ k =>
      rw [ih ha, hnext.attempt, add_assoc]
      congr 1
      apply Fin.ext
      show (1 % 2 ^ 64 + k % 2 ^ 64) % 2 ^ 64 = (k + 1) % 2 ^ 64
      omega

theorem blames_aborted {abort : IdentifiableAbort} {names : List PartyId} (h : w.original st abort.blamed = .ok names) :
    w.blames ⟨st, .error (.error (.abort abort))⟩ = names := by
  unfold blames
  dsimp only
  rw [h]
  rfl

/-- Attempt `k` runs over the parties no earlier attempt blamed. -/
theorem Ran.current (h : w.Ran st tried result) {k : Nat} {a : Try F κ β} (ha : tried[k]? = some a) :
    a.start.current.Perm (st.current.filter fun p => !((tried.take k).flatMap w.blames).contains p) := by
  have hzero : ∀ l : List PartyId, l.Perm (l.filter fun p => !([] : List PartyId).contains p) := fun l => by simp
  induction h generalizing k with
  | finished | failed | refused =>
    obtain ⟨rfl, rfl⟩ := singleton_getElem? ha
    exact hzero _
  | @restarted st st' abort names tried result hnames _ hnext _ ih =>
    cases k with
    | zero =>
      obtain rfl := Option.some.inj ha
      exact hzero _
    | succ k =>
      have hrest := ih ha
      rw [hnext.current] at hrest
      refine (hrest.trans ((survivors_perm _ _).filter _)).trans (List.Perm.of_eq ?_)
      rw [List.filter_filter, List.take_succ_cons, List.flatMap_cons, blames_aborted hnames]
      refine List.filter_congr fun p _ => ?_
      simp [Bool.and_comm]

/-- A run that returns has its last attempt's output, and knows whom the others blamed. -/
theorem Ran.returned (h : w.Ran st tried result) {out : Option α} (hr : result = .ok out) :
    ∃ a b o, out = some o ∧ tried.getLast? = some a ∧ a.outcome = .ok b ∧ w.finish a.start b = .ok o ∧
      ∀ p, p ∈ a.start.blamedAll ↔ p ∈ st.blamedAll ∨ p ∈ tried.flatMap w.blames := by
  induction h with
  | @finished st b o hfin =>
    obtain rfl := Except.ok.inj hr
    exact ⟨⟨st, .ok b⟩, b, o, rfl, rfl, rfl, hfin, fun p => by simp [blames]⟩
  | failed | refused => cases hr
  | @restarted st st' abort names tried result hnames _ hnext hrest ih =>
    obtain ⟨a, b, o, hout, hlast, hok, hfin, hblamed⟩ := ih hr
    refine ⟨a, b, o, hout, ?_, hok, hfin, fun p => ?_⟩
    · rw [List.getLast?_cons, hlast]
      rfl
    · rw [hblamed, hnext.blamedAll, mem_accumulateBlame, List.flatMap_cons, blames_aborted hnames, List.mem_append,
        or_assoc]

/-- A run that fails does so as its last attempt, an abort only when too few would be left. -/
theorem Ran.stopped (h : w.Ran st tried result) {e : Fault} (hr : result = .error e) :
    ∃ a, tried.getLast? = some a ∧ a.outcome = .error e ∧ ∀ abort, e = .error (.abort abort) →
      (survivors a.start.current (w.blames a)).length < 2 * w.t.val - 1 := by
  induction h with
  | finished => cases hr
  | @failed st e' hne =>
    obtain rfl := Except.error.inj hr
    exact ⟨⟨st, .error e'⟩, rfl, rfl, fun abort h => absurd h (hne abort)⟩
  | @refused st abort names hnames hfew =>
    obtain rfl := Except.error.inj hr
    refine ⟨⟨st, .error (.error (.abort abort))⟩, rfl, rfl, fun _ _ => ?_⟩
    rw [blames_aborted hnames]
    exact hfew
  | restarted _ _ _ _ ih =>
    obtain ⟨a, hlast, hout, hfew⟩ := ih hr
    refine ⟨a, ?_, hout, hfew⟩
    rw [List.getLast?_cons, hlast]
    rfl

end Wrapper

end Loop

/-! ## Lemmas: whose outputs the drivers return -/

theorem driveDkg_outputs (params : Params) (sid tag : Bytes) (phase : Phase) (tamper : Option DkgTamper) :
    Triple (fun _ => True) (driveDkg (F := F) (G := G) params sid tag phase tamper)
      (fun outs => outs.map (·.index) = params.parties) fun _ => True := by
  have hstart : ∀ e ∈ params.parties.zipIdx, Triple (fun _ => True)
      (lift (Committee.full params) >>= fun committee =>
        DkgInstance.startCommittee (F := F) (G := G) committee sid tag e.1 e.2 >>= fun b =>
          pure (tamperDealer tamper b.1, b.2)) (fun b => e.1 = b.1.me) fun _ => True := by
    intro e _
    refine Triple.top.bind fun c _ => Triple.bind (P := fun b => b.1.me = e.1) ?_ fun b hb => ?_
    · exact Triple.top.bind fun secret _ => Triple.top.bind fun poly _ => Triple.pure rfl
    · refine Triple.pure ?_
      rw [← hb]
      unfold tamperDealer
      dsimp only
      split <;> split <;> (try split) <;> rfl
  unfold driveDkg
  refine (Triple.mapM _ hstart).bind fun started hs => Triple.lift (fun outs hok => ?_) fun _ _ => trivial
  have hme : params.parties = started.map (·.1.me) :=
    (List.map_id _).symm.trans (forall₂_map_eq (f := id) (forall₂_zipIdx hs))
  unfold deliverDkg at hok
  obtain ⟨transport, -, hok⟩ := ok_of_bind hok
  obtain ⟨r1, -, hok⟩ := ok_of_bind hok
  obtain ⟨r2, -, hok⟩ := ok_of_bind hok
  rw [hme, show started.map (·.1.me) = (started.map (·.1)).map DkgInstance.me by rw [List.map_map]; rfl]
  refine (forall₂_map_eq ((forall₂_of_mapM_ok _ _ hok).imp fun inst out hout => ?_)).symm
  obtain ⟨mine, -, hout⟩ := ok_of_bind hout
  unfold DkgInstance.finalize at hout
  dsimp only at hout
  split at hout
  · cases hout
  · obtain ⟨checked, -, hout⟩ := ok_of_bind hout
    obtain ⟨com, -, hout⟩ := ok_of_bind hout
    cases hout
    rfl

theorem generateRobust_outputs (c : Committee) (sid : Bytes) (tamper : Option TripleTamper) :
    Triple (fun _ => True) (generateRobustWithCommittee (F := F) (G := G) c sid tamper)
      (fun out => out.1.map (·.1.index) = c.ids.filter fun p => !out.2.contains p) fun _ => True := by
  unfold generateRobustWithCommittee
  refine Triple.top.bind fun dealt _ => Triple.lift (fun out hok => ?_) fun _ _ => trivial
  obtain ⟨repaired, -, hok⟩ := ok_of_bind hok
  obtain ⟨cc, -, hok⟩ := ok_of_bind hok
  obtain ⟨records, hrecords, hok⟩ := ok_of_bind hok
  cases hok
  have hindex : ((c.ids.zipIdx.filter fun e => !(repaired.flatMap (·.2)).contains e.1).map (·.1)) =
      records.map (·.1.index) := by
    refine forall₂_map_eq ((forall₂_of_mapM_ok _ _ hrecords).imp fun e r hr => ?_)
    obtain ⟨a, -, hr⟩ := ok_of_bind hr
    obtain ⟨b, -, hr⟩ := ok_of_bind hr
    obtain ⟨c, -, hr⟩ := ok_of_bind hr
    cases hr
    rfl
  rw [← hindex]
  conv_rhs => rw [← List.zipIdx_map_fst 0 c.ids, List.filter_map]
  rfl

/-- The parties still active are those not blamed. -/
def Active (c : Committee) (s : List PartyId × List PartyId) : Prop := s.2 = c.ids.filter fun p => !s.1.contains p

theorem mem_expel {blamed active new : List PartyId} {p : PartyId} :
    p ∈ (expel blamed active new).1 ↔ p ∈ blamed ∨ p ∈ new := by
  rw [← mem_foldl_append]
  unfold expel
  induction new generalizing blamed active with
  | nil => rfl
  | cons b new ih =>
    rw [List.foldl_cons, List.foldl_cons]
    exact ih

theorem contains_insertionSort (l : List PartyId) (p : PartyId) :
    (l.insertionSort (· ≤ ·)).contains p = l.contains p := by
  rw [Bool.eq_iff_iff]
  simp [List.mem_insertionSort]

theorem Active.expel {c : Committee} {s : List PartyId × List PartyId} (h : Active c s) (new : List PartyId) :
    Active c (expel s.1 s.2 new) := by
  have hmem : ∀ p, (OhmEcdsa.expel s.1 s.2 new).1.contains p = (s.1.contains p || new.contains p) := by
    intro p
    rw [Bool.eq_iff_iff]
    simp [mem_expel]
  unfold Active at h ⊢
  simp only [hmem]
  rw [expel_active, h, List.filter_filter]
  refine List.filter_congr fun p _ => ?_
  rw [Bool.not_or, Bool.and_comm]

theorem presignRobust_outputs (c : Committee) (keys : List (KeyShare F G)) (id : U64)
    (tamper : Option PresignTamper) :
    Triple (fun _ => True) (presignRobustWithCommittee c keys id tamper)
      (fun out => out.1.map (·.index) = c.ids.filter fun p => !out.2.contains p) fun _ => True := by
  unfold presignRobustWithCommittee
  refine Triple.top.bind fun s _ => Triple.top.bind fun _ _ => Triple.top.bind fun dealt _ =>
    Triple.lift (fun out hok => ?_) fun _ _ => trivial
  obtain ⟨t1, t2, uOut, aOut⟩ := dealt
  unfold presignRobustFrom at hok
  obtain ⟨pub1, -, hok⟩ := ok_of_bind hok
  obtain ⟨pub2, -, hok⟩ := ok_of_bind hok
  obtain ⟨u0, -, hok⟩ := ok_of_bind hok
  obtain ⟨a0, -, hok⟩ := ok_of_bind hok
  obtain ⟨deltas, -, hok⟩ := ok_of_bind hok
  obtain ⟨epsilons, -, hok⟩ := ok_of_bind hok
  obtain ⟨⟨delta, bD⟩, -, hok⟩ := ok_of_bind hok
  obtain ⟨⟨eps, bE⟩, -, hok⟩ := ok_of_bind hok
  obtain ⟨vCom, -, hok⟩ := ok_of_bind hok
  obtain ⟨vShares, -, hok⟩ := ok_of_bind hok
  obtain ⟨⟨v, bV⟩, -, hok⟩ := ok_of_bind hok
  have hactive : Active c ([], c.ids) := by simp [Active]
  replace hactive := ((hactive.expel bD).expel bE).expel bV
  dsimp only at hok
  cases hv : invert v with
  | none =>
    rw [hv] at hok
    cases hok
  | some vInv =>
    rw [hv] at hok
    obtain ⟨points, -, hok⟩ := ok_of_bind hok
    replace hactive := hactive.expel ((points.filter fun e => !(e.2 == (a0.com.scale vInv).evalAt F e.1)).map (·.1))
    split at hok
    · cases hok
    · obtain ⟨lambdas, -, hok⟩ := ok_of_bind hok
      obtain ⟨r, -, hok⟩ := ok_of_bind hok
      obtain ⟨key0, -, hok⟩ := ok_of_bind hok
      obtain ⟨d2, -, hok⟩ := ok_of_bind hok
      obtain ⟨e2, -, hok⟩ := ok_of_bind hok
      obtain ⟨⟨d2v, bD2⟩, -, hok⟩ := ok_of_bind hok
      obtain ⟨⟨e2v, bE2⟩, -, hok⟩ := ok_of_bind hok
      obtain ⟨zCom, -, hok⟩ := ok_of_bind hok
      obtain ⟨presigs, hpresigs, hok⟩ := ok_of_bind hok
      replace hactive := (hactive.expel bD2).expel bE2
      cases hok
      have hindex := forall₂_map_eq (f := fun j => j) (g := (·.index)) ((forall₂_of_mapM_ok _ _ hpresigs).imp fun j p hp => by
        obtain ⟨k, -, hp⟩ := ok_of_bind hp
        obtain ⟨triple, -, hp⟩ := ok_of_bind hp
        obtain ⟨u, -, hp⟩ := ok_of_bind hp
        cases hp
        rfl)
      rw [List.map_id'] at hindex
      exact (hindex.symm.trans hactive).trans
        (List.filter_congr fun p _ => congrArg (!·) (contains_insertionSort _ p).symm)

/-! ## Specification -/

/-- What the policy promises of the attempts over `ids`, whatever the driver does. -/
structure Wrapper.Policed {κ α β : Type} (w : Wrapper F κ α β) (ids : List PartyId) (tried : List (Try F κ β))
    (result : Outcome (Option α)) : Prop where
  bounded : tried.length ≤ ids.length - (2 * w.t.val - 1) + 1
  majority : ∀ a ∈ tried, 2 * w.t.val - 1 ≤ a.start.current.length
  current : ∀ k (a : Try F κ β), tried[k]? = some a →
    a.start.current.Perm (ids.filter fun p => !((tried.take k).flatMap w.blames).contains p)
  attempt : ∀ k (a : Try F κ β), tried[k]? = some a → a.start.attempt.val = k
  failed : ∀ e, result = .error e → (∀ abort, e ≠ .error (.abort abort)) →
    ∃ a, tried.getLast? = some a ∧ a.outcome = .error e
  /-- An abort is returned for the last attempt's, and too few would be left; whom it names is not said. -/
  refused : ∀ abort, result = .error (.error (.abort abort)) → ∃ a own, tried.getLast? = some a ∧
    a.outcome = .error (.error (.abort own)) ∧ abort.phase = own.phase ∧ abort.detail = own.detail ∧
    (survivors a.start.current (w.blames a)).length < 2 * w.t.val - 1

structure KeygenRestarts (driver : Params → Bytes → Option DkgTamper → Attempt F (List (KeyShare F G)))
    (params : Params) (sid : Bytes) (tamper : Option DkgTamper) (tried : List (Try F Unit (List (KeyShare F G))))
    (result : Outcome (Option (List (KeyShare F G) × List PartyId))) : Prop extends
    Wrapper.Policed (keygenWrapper driver params sid tamper) params.parties tried result where
  ran : ∀ a ∈ tried, ∃ s, a.outcome = ((driver ⟨Fin.ofNat (2 ^ 64) a.start.current.length, params.t⟩
    (poisonSid sid a.start.attempt) (firstOnly a.start tamper)).run s).1
  fresh : (tried.map fun a => poisonSid sid a.start.attempt).Nodup
  members : ∀ a ∈ tried, ∀ p ∈ (keygenWrapper driver params sid tamper).blames a, p ∈ a.start.current
  returned : ∀ out, result = .ok out → ∃ keys reported, out = some (keys, reported) ∧
    (∃ a, tried.getLast? = some a ∧ a.outcome = .ok keys) ∧
    ∀ p, p ∈ reported ↔ p ∈ tried.flatMap (keygenWrapper driver params sid tamper).blames

structure TriplesRestarts (driver : Committee → Bytes → Option TripleTamper →
      Attempt F (List (TripleShare F × TriplePublic G) × List PartyId))
    (params : Params) (sid : Bytes) (tamper : Option TripleTamper)
    (tried : List (Try F Unit (List (TripleShare F × TriplePublic G) × List PartyId)))
    (result : Outcome (Option (List (TripleShare F × TriplePublic G) × List PartyId))) : Prop extends
    Wrapper.Policed (triplesWrapper driver params sid tamper) params.parties tried result where
  ran : ∀ a ∈ tried, ∃ c s, c.ids = Params.parties ⟨Fin.ofNat (2 ^ 64) a.start.current.length, params.t⟩ ∧
    c.t = params.t ∧ a.outcome = ((driver c (poisonSid sid a.start.attempt) (firstOnly a.start tamper)).run s).1
  fresh : (tried.map fun a => poisonSid sid a.start.attempt).Nodup
  members : ∀ a ∈ tried, ∀ p ∈ (triplesWrapper driver params sid tamper).blames a, p ∈ a.start.current
  returned : ∀ out, result = .ok out → ∃ triples reported, out = some (triples, reported) ∧
    ∃ a inAttempt names, tried.getLast? = some a ∧ a.outcome = .ok (triples, inAttempt) ∧
      renumbered a.start inAttempt = .ok names ∧
      ∀ p, p ∈ reported ↔ p ∈ tried.flatMap (triplesWrapper driver params sid tamper).blames ∨ p ∈ names

structure PresignRestarts (driver : Committee → List (KeyShare F G) → U64 → Option PresignTamper →
      Attempt F (List (Presignature F G) × List PartyId))
    (params : Params) (keys : List (KeyShare F G)) (firstId : U64) (tamper : Option PresignTamper)
    (tried : List (Try F (List (KeyShare F G)) (List (Presignature F G) × List PartyId)))
    (result : Outcome (Option (List (Presignature F G) × List PartyId × U64))) : Prop extends
    Wrapper.Policed (presignWrapper driver params firstId tamper) (keys.map (·.index)) tried result where
  ran : ∀ a ∈ tried, ∃ c s, c.ids.Perm a.start.current ∧ c.t = params.t ∧ a.start.keys.map (·.index) = a.start.current ∧
    a.outcome = ((driver c a.start.keys (firstId + a.start.attempt) (firstOnly a.start tamper)).run s).1
  unchanged : ∀ e, result = .error e → ∃ a, tried.getLast? = some a ∧ a.outcome = .error e
  returned : ∀ out, result = .ok out → ∃ presigs reported id, out = some (presigs, reported, id) ∧
    ∃ a inAttempt, tried.getLast? = some a ∧ a.outcome = .ok (presigs, inAttempt) ∧ id = firstId + a.start.attempt ∧
      ∀ p, p ∈ reported ↔ p ∈ tried.flatMap (presignWrapper driver params firstId tamper).blames ∨ p ∈ inAttempt

/-- `blamed` names members of the attempt from `st`, by their numbers in `1..=n'`. -/
def Numbers {κ : Type} (st : Restart F κ) (blamed : List PartyId) : Prop :=
  ∀ b ∈ blamed, 1 ≤ b.val ∧ b.val ≤ st.current.length

instance {κ : Type} (st : Restart F κ) (blamed : List PartyId) : Decidable (Numbers st blamed) :=
  decidable_of_iff ((blamed.all fun b => decide (1 ≤ b.val) && decide (b.val ≤ st.current.length)) = true) (by
    simp [Numbers])

/-- Enough members, generators and attempts. -/
structure Startable (n : Nat) (t : Usize) (s : Rngs F) (fuel : Nat) : Prop where
  pos : 1 ≤ t.val
  majority : 2 * t.val - 1 ≤ n
  rngs : n ≤ s.rngs.length
  fuel : n - (2 * t.val - 1) + 1 ≤ fuel

/-! ## Lemmas: the three wrappers -/

theorem renumbered_ok {κ : Type} {st : Restart F κ} {blamed : List PartyId} (h : Numbers st blamed) :
    ∃ names, renumbered st blamed = .ok names ∧ names.length = blamed.length ∧ ∀ p ∈ names, p ∈ st.current := by
  have hall : ∀ b ∈ blamed, ∃ p, nth st.current (b - 1).val = .ok p ∧ p ∈ st.current := by
    intro b hb
    obtain ⟨hpos, hle⟩ := h b hb
    have hval : (b - 1).val = b.val - 1 := by
      show (2 ^ 64 - 1 + b.val) % 2 ^ 64 = b.val - 1
      omega
    have hlt : (b - 1).val < st.current.length := by omega
    refine ⟨st.current[(b - 1).val], ?_, List.getElem_mem hlt⟩
    unfold nth
    rw [List.getElem?_eq_getElem hlt]
  unfold renumbered
  induction blamed with
  | nil => exact ⟨[], rfl, rfl, nofun⟩
  | cons b blamed ih =>
    obtain ⟨p, hp, hmem⟩ := hall b List.mem_cons_self
    obtain ⟨names, hrun, hlen, hnames⟩ := ih (fun c hc => h c (List.mem_cons_of_mem _ hc))
      fun c hc => hall c (List.mem_cons_of_mem _ hc)
    refine ⟨p :: names, ?_, by rw [List.length_cons, List.length_cons, hlen], fun q hq => ?_⟩
    · rw [List.mapM_cons, hp, hrun]
      rfl
    · rcases List.mem_cons.mp hq with rfl | hq
      · exact hmem
      · exact hnames q hq

theorem u64Bytes_injective : Function.Injective fun v : U64 => u64Bytes v.val := by
  intro a b h
  have hval : ∀ v : U64, ofBigEndian (u64Bytes v.val) = v.val := fun v =>
    (ofBigEndian_bigEndian 8 v.val).trans (Nat.mod_eq_of_lt v.isLt)
  exact Fin.ext ((hval a).symm.trans ((congrArg ofBigEndian h).trans (hval b)))

/-- Two attempts have no sid in common, nor any that is derived without a retry. -/
theorem poisonSid_cancel {sid s s' : Bytes} {a b : U64} (hs : ¬ utf8 "/retry-" <+: s) (hs' : ¬ utf8 "/retry-" <+: s')
    (h : poisonSid sid a ++ s = poisonSid sid b ++ s') : a = b := by
  unfold poisonSid at h
  by_cases ha : a = 0 <;> by_cases hb : b = 0
  · rw [ha, hb]
  · rw [if_pos ha, if_neg hb] at h
    simp only [List.append_assoc, List.append_cancel_left_eq] at h
    exact absurd ⟨_, h.symm⟩ hs
  · rw [if_neg ha, if_pos hb] at h
    simp only [List.append_assoc, List.append_cancel_left_eq] at h
    exact absurd ⟨_, h⟩ hs'
  · rw [if_neg ha, if_neg hb] at h
    simp only [List.append_assoc, List.append_cancel_left_eq] at h
    have hlen : ∀ v : U64, (u64Bytes v.val).length = 8 := fun v => bigEndian_length 8 v.val
    exact u64Bytes_injective (List.append_inj_left h ((hlen a).trans (hlen b).symm))

theorem poisonSid_injective (sid : Bytes) : Function.Injective (poisonSid sid) := by
  intro a b h
  have hnil : ¬ utf8 "/retry-" <+: [] := by
    rw [List.prefix_nil]
    decide +kernel
  exact poisonSid_cancel hnil hnil (congrArg (· ++ []) h)

section Start

variable {κ α β : Type} {w : Wrapper F κ α β} {st : Restart F κ} {tried : List (Try F κ β)}
  {result : Outcome (Option α)}

theorem Wrapper.Ran.policed (h : w.Ran st tried result) (hpos : 1 ≤ w.t.val)
    (hmaj : 2 * w.t.val - 1 ≤ st.current.length) (hnd : st.current.Nodup) (hzero : st.attempt = 0) :
    w.Policed st.current tried result where
  bounded := h.length_le
  majority := h.majority hmaj
  current k a ha := h.current ha
  attempt k a ha := by
    have hcard := hnd.length_le_card
    rw [Fintype.card_fin] at hcard
    have hk := (List.getElem?_eq_some_iff.mp ha).1
    have hlen := h.length_le
    rw [h.attempt ha, hzero, zero_add, Fin.val_ofNat, Nat.mod_eq_of_lt (by omega)]
  failed e he _ := by
    obtain ⟨a, hlast, hout, -⟩ := h.stopped he
    exact ⟨a, hlast, hout⟩
  refused abort he := by
    obtain ⟨a, hlast, hout, hfew⟩ := h.stopped he
    exact ⟨a, abort, hlast, hout, rfl, rfl, hfew abort rfl⟩

/-- No session id comes twice. -/
theorem Wrapper.Policed.fresh {ids : List PartyId} (h : w.Policed ids tried result) (sid : Bytes) :
    (tried.map fun a => poisonSid sid a.start.attempt).Nodup := by
  rw [show (tried.map fun a => poisonSid sid a.start.attempt) =
    (tried.map fun a => a.start.attempt).map (poisonSid sid) by rw [List.map_map]; rfl]
  refine List.Nodup.map (poisonSid_injective sid) ?_
  refine List.Nodup.of_map (fun a : U64 => a.val) ?_
  have hrange : (tried.map fun a => a.start.attempt).map (fun a : U64 => a.val) = List.range tried.length := by
    refine List.ext_getElem? fun k => ?_
    rw [List.getElem?_map, List.getElem?_map]
    cases ha : tried[k]? with
    | none => rw [List.getElem?_eq_none (by simpa using ha)]; rfl
    | some a =>
      rw [List.getElem?_range (List.getElem?_eq_some_iff.mp ha).1]
      exact congrArg some (h.attempt k a ha)
  rw [hrange]
  exact List.nodup_range

/-- The members of an attempt are fewer than `2 ^ 64`. -/
theorem Wrapper.Policed.length_le {ids : List PartyId} (h : w.Policed ids tried result) {a : Try F κ β}
    (ha : a ∈ tried) : a.start.current.length ≤ ids.length := by
  obtain ⟨k, hk⟩ := List.mem_iff_getElem?.mp ha
  rw [(h.current k a hk).length_eq]
  exact List.length_filter_le _ _

/-- Who is blamed by numbers is a member. -/
theorem blames_members (horig : w.original = renumbered)
    (hblames : ∀ a ∈ tried, ∀ abort, a.outcome = .error (.error (.abort abort)) →
      abort.blamed ≠ [] ∧ Numbers a.start abort.blamed) {a : Try F κ β} (ha : a ∈ tried) :
    w.Costly a ∧ ∀ p ∈ w.blames a, p ∈ a.start.current := by
  have hnames : ∀ abort, a.outcome = .error (.error (.abort abort)) →
      ∃ names, w.original a.start abort.blamed = .ok names ∧ names ≠ [] ∧ ∀ p ∈ names, p ∈ a.start.current := by
    intro abort hout
    obtain ⟨hne, hnum⟩ := hblames a ha abort hout
    obtain ⟨names, hrun, hlen, hmem⟩ := renumbered_ok hnum
    refine ⟨names, by rw [horig]; exact hrun, fun hnil => hne ?_, hmem⟩
    rw [hnil] at hlen
    exact List.length_eq_zero_iff.mp hlen.symm
  constructor
  · intro abort hout
    obtain ⟨names, hrun, hne, hmem⟩ := hnames abort hout
    obtain ⟨p, hp⟩ := List.exists_mem_of_ne_nil _ hne
    exact ⟨names, hrun, p, hp, hmem p hp⟩
  · intro p hp
    unfold Wrapper.blames at hp
    split at hp
    · next abort hout =>
      obtain ⟨names, hrun, -, hmem⟩ := hnames abort hout
      rw [hrun] at hp
      exact hmem p hp
    · cases hp

end Start

theorem parties_length (params : Params) : params.parties.length = params.n.val := by
  unfold Params.parties
  rw [List.length_map, List.length_range]

/-- The parameters of an attempt: as many parties as are left, and the same `t`. -/
theorem attemptParams_ok {κ : Type} {t : Usize} {st : Restart F κ} (hpos : 1 ≤ t.val)
    (hmaj : 2 * t.val - 1 ≤ st.current.length) (hlt : st.current.length < 2 ^ 64) :
    attemptParams t st = .ok ⟨Fin.ofNat (2 ^ 64) st.current.length, t⟩ := by
  have hone : ¬ t < 1 := fun h => by
    have : t.val < 1 := h
    omega
  have hval : (Fin.ofNat (2 ^ 64) st.current.length).val = st.current.length := Nat.mod_eq_of_lt hlt
  have hmany : ¬ Fin.ofNat (2 ^ 64) st.current.length < 2 * t - 1 := fun h => by
    have h : (Fin.ofNat (2 ^ 64) st.current.length).val < (2 * t - 1).val := h
    rw [val_two_mul_sub_one hpos (by omega), hval] at h
    omega
  unfold attemptParams Params.new
  rw [if_neg hone, if_neg hmany]

/-- A wrapper over `1..=n` whose sessions are renumbered. -/
theorem numbered_ran {α β : Type} {w : Wrapper F Unit α β} {params : Params} {s : Rngs F} {fuel : Nat}
    (ht : w.t = params.t) (hstart : Startable params.n.val params.t s fuel) (horig : w.original = renumbered)
    (hsurvive : ∀ l k, w.survive l k = .ok ()) (hkeeps : ∀ st s, (w.run st s).2.rngs.length = s.rngs.length)
    (hblames : ∀ a ∈ w.tried fuel (params.restart s.rngs) s.drawn, ∀ abort,
      a.outcome = .error (.error (.abort abort)) → abort.blamed ≠ [] ∧ Numbers a.start abort.blamed)
    (hreturns : ∀ a ∈ w.tried fuel (params.restart s.rngs) s.drawn, w.Returns a) :
    w.Ran (params.restart s.rngs) (w.tried fuel (params.restart s.rngs) s.drawn)
        (w.loop fuel (params.restart s.rngs) s).1 ∧
      w.Policed params.parties (w.tried fuel (params.restart s.rngs) s.drawn)
        (w.loop fuel (params.restart s.rngs) s).1 := by
  have hn := params.n.isLt
  have hlen := parties_length params
  have hmaj := hstart.majority
  have hw : w.Sound fun _ _ => True :=
    ⟨ht ▸ hstart.pos, by rw [ht]; omega, hkeeps, fun _ _ => ⟨(), hsurvive _ _, trivial⟩⟩
  have hready : w.Ready (fun _ _ => True) (params.restart s.rngs) :=
    ⟨by rw [ht]; exact hmaj.trans hlen.ge, parties_nodup params, hlen.le.trans hstart.rngs, trivial⟩
  have hran := Wrapper.loop_ran hw fuel (params.restart s.rngs) s hready
    (by
      have := hstart.fuel
      rw [ht, show (params.restart s.rngs).current.length = params.n.val from hlen]
      omega)
    fun a ha => ⟨(blames_members horig hblames ha).1, hreturns a ha⟩
  exact ⟨hran, hran.policed hw.pos hready.majority hready.nodup rfl⟩

theorem lift_bind_keeps {α β : Type} (x : Outcome α) {f : α → RngM F β}
    (hf : ∀ a s, (f a s).2.rngs.length = s.rngs.length) (s : Rngs F) :
    ((lift x >>= f : RngM F β) s).2.rngs.length = s.rngs.length := by
  rw [lift_bind_run]
  cases x with
  | error e => rfl
  | ok a => exact hf a s

theorem keygen_restarts (driver : Params → Bytes → Option DkgTamper → Attempt F (List (KeyShare F G)))
    (params : Params) (sid : Bytes) (tamper : Option DkgTamper) (fuel : Nat) (s : Rngs F)
    (hstart : Startable params.n.val params.t s fuel)
    (hblames : ∀ a ∈ (keygenWrapper driver params sid tamper).tried fuel (params.restart s.rngs) s.drawn, ∀ abort,
      a.outcome = .error (.error (.abort abort)) → abort.blamed ≠ [] ∧ Numbers a.start abort.blamed) :
    KeygenRestarts driver params sid tamper
      ((keygenWrapper driver params sid tamper).tried fuel (params.restart s.rngs) s.drawn)
      ((keygenWrapper driver params sid tamper).loop fuel (params.restart s.rngs) s).1 := by
  obtain ⟨hran, hpol⟩ := numbered_ran (w := keygenWrapper driver params sid tamper) rfl hstart rfl (fun _ _ => rfl)
    (fun st s => lift_bind_keeps _ (fun p => (driver p _ _).keeps) s) hblames fun a _ b _ => ⟨_, rfl⟩
  refine ⟨hpol, fun a ha => ?_, hpol.fresh sid, fun a ha => (blames_members rfl hblames ha).2, fun out hout => ?_⟩
  · obtain ⟨s', -, hrun⟩ := (keygenWrapper driver params sid tamper).tried_run fuel _ _ a ha
    have hlt := (hpol.length_le ha).trans_lt ((parties_length params).trans_lt params.n.isLt)
    refine ⟨s', hrun.trans ?_⟩
    show ((lift (attemptParams params.t a.start) >>= _ : RngM F _) s').1 = _
    rw [attemptParams_ok hstart.pos (hpol.majority a ha) hlt, lift_bind_run]
  · obtain ⟨a, keys, o, rfl, hlast, hok, hfin, hblamed⟩ := hran.returned hout
    cases hfin
    exact ⟨keys, a.start.blamedAll, rfl, ⟨a, hlast, hok⟩, fun p => (hblamed p).trans (by simp [Params.restart])⟩

theorem triples_restarts (driver : Committee → Bytes → Option TripleTamper →
      Attempt F (List (TripleShare F × TriplePublic G) × List PartyId))
    (params : Params) (sid : Bytes) (tamper : Option TripleTamper) (fuel : Nat) (s : Rngs F)
    (hstart : Startable params.n.val params.t s fuel)
    (hblames : ∀ a ∈ (triplesWrapper driver params sid tamper).tried fuel (params.restart s.rngs) s.drawn, ∀ abort,
      a.outcome = .error (.error (.abort abort)) → abort.blamed ≠ [] ∧ Numbers a.start abort.blamed)
    (hinAttempt : ∀ a ∈ (triplesWrapper driver params sid tamper).tried fuel (params.restart s.rngs) s.drawn, ∀ out,
      a.outcome = .ok out → Numbers a.start out.2) :
    TriplesRestarts driver params sid tamper
      ((triplesWrapper driver params sid tamper).tried fuel (params.restart s.rngs) s.drawn)
      ((triplesWrapper driver params sid tamper).loop fuel (params.restart s.rngs) s).1 := by
  have hreturns : ∀ a ∈ (triplesWrapper driver params sid tamper).tried fuel (params.restart s.rngs) s.drawn,
      (triplesWrapper driver params sid tamper).Returns a := by
    intro a ha out hout
    obtain ⟨names, hrun, -⟩ := renumbered_ok (hinAttempt a ha out hout)
    refine ⟨(out.1, accumulateBlame a.start.blamedAll names), ?_⟩
    simp only [triplesWrapper, hrun]
    rfl
  obtain ⟨hran, hpol⟩ := numbered_ran (w := triplesWrapper driver params sid tamper) rfl hstart rfl (fun _ _ => rfl)
    (fun st s => lift_bind_keeps _ (fun p s => lift_bind_keeps _ (fun c => (driver c _ _).keeps) s) s) hblames hreturns
  refine ⟨hpol, fun a ha => ?_, hpol.fresh sid, fun a ha => (blames_members rfl hblames ha).2, fun out hout => ?_⟩
  · obtain ⟨s', -, hrun⟩ := (triplesWrapper driver params sid tamper).tried_run fuel _ _ a ha
    have hlt := (hpol.length_le ha).trans_lt ((parties_length params).trans_lt params.n.isLt)
    have hmaj := hpol.majority a ha
    have hval : (Fin.ofNat (2 ^ 64) a.start.current.length).val = a.start.current.length := Nat.mod_eq_of_lt hlt
    obtain ⟨c, hc, hids, hct, -⟩ := full_ok ⟨Fin.ofNat (2 ^ 64) a.start.current.length, params.t⟩ hstart.pos (by
      have hpos := hstart.pos
      have hmaj : 2 * params.t.val - 1 ≤ a.start.current.length := hmaj
      show 2 * params.t.val ≤ (Fin.ofNat (2 ^ 64) a.start.current.length).val + 1
      omega)
    refine ⟨c, s', hids, hct, hrun.trans ?_⟩
    show ((lift (attemptParams params.t a.start) >>= _ : RngM F _) s').1 = _
    rw [attemptParams_ok hstart.pos hmaj hlt, lift_bind_run]
    dsimp only
    rw [hc, lift_bind_run]
  · obtain ⟨a, out, o, rfl, hlast, hok, hfin, hblamed⟩ := hran.returned hout
    obtain ⟨names, hnames, hfin⟩ := ok_of_bind hfin
    cases hfin
    refine ⟨out.1, _, rfl, a, out.2, names, hlast, hok, hnames, fun p => ?_⟩
    rw [mem_accumulateBlame, hblamed]
    simp [Params.restart]

/-- The keys at the positions of `kept` are theirs. -/
theorem keys_survive {ids kept : List PartyId} {positions : List Nat} {keys : List (KeyShare F G)}
    (hkeys : keys.map (·.index) = ids) (hat : List.Forall₂ (fun s p => ids[p]? = some s) kept positions) :
    ∃ keys', positions.mapM (nth keys) = .ok keys' ∧ keys'.map (·.index) = kept := by
  have hlen : ids.length ≤ keys.length := by rw [← hkeys, List.length_map]
  obtain ⟨keys', hrun, hpicked⟩ := mapM_nth_ok keys hlen hat
  refine ⟨keys', hrun, ?_⟩
  clear hrun
  induction hat generalizing keys' with
  | nil =>
    cases hpicked
    rfl
  | @cons s p kept positions hp _ ih =>
    obtain ⟨key, rest, hkey, hrest, rfl⟩ := List.forall₂_cons_left_iff.mp hpicked
    rw [← hkeys, List.getElem?_map, hkey] at hp
    obtain rfl := Option.some.inj hp
    rw [List.map_cons, ih rest hrest]

/-- Fewer members make a committee, while they are enough. -/
theorem committee_of_survivors {ids current : List PartyId} {t : Usize} {c : Committee}
    (hc : Committee.new ids t = .ok c) (hsub : ∀ p ∈ current, p ∈ ids) (hnd : current.Nodup)
    (hmaj : 2 * t.val - 1 ≤ current.length) :
    ∃ c', Committee.new current t = .ok c' ∧ c'.ids.Perm current ∧ c'.t = t := by
  obtain ⟨hids, rfl, -⟩ := Committee.new_ok hc
  have hpos := c.t_pos
  have hperm := List.perm_insertionSort (· ≤ ·) current
  have hsorted : (current.insertionSort (· ≤ ·)).Pairwise (· < ·) :=
    List.Pairwise.imp₂ (fun _ _ hle hne => lt_of_le_of_ne hle hne) (List.pairwise_insertionSort (· ≤ ·) current)
      (hperm.nodup_iff.mpr hnd)
  have hids_pos : ∀ p ∈ current.insertionSort (· ≤ ·), 0 < p := by
    intro p hp
    apply c.ids_pos p
    rw [hids, List.mem_insertionSort]
    exact hsub p ((List.mem_insertionSort _).mp hp)
  have hlt : current.length < 2 ^ 64 := by
    have hcons : ((0 : PartyId) :: current).Nodup :=
      List.nodup_cons.mpr ⟨fun h => (hids_pos 0 ((List.mem_insertionSort _).mpr h)).ne rfl, hnd⟩
    have hle := hcons.length_le_card
    rw [Fintype.card_fin, List.length_cons] at hle
    omega
  have hone : ¬ c.t < 1 := fun h => by
    have : c.t.val < 1 := h
    omega
  have hmany : ¬ current.length < (2 * c.t - 1).val := by
    rw [val_two_mul_sub_one hpos (by omega)]
    omega
  have hlen := hperm.length_eq
  unfold Committee.new
  rw [dif_neg hone, if_neg hmany]
  dsimp only
  split
  · next h0 =>
    rw [List.head?_eq_none_iff.mp h0, List.length_nil] at hlen
    omega
  · next p h0 =>
    rw [dif_neg (Fin.pos_iff_ne_zero.mp (hids_pos p (List.mem_of_head? h0))),
      dif_neg (by simp [Committee.hasDup_of_pairwise_lt hsorted])]
    exact ⟨_, rfl, hperm, rfl⟩

theorem presign_restarts (driver : Committee → List (KeyShare F G) → U64 → Option PresignTamper →
      Attempt F (List (Presignature F G) × List PartyId))
    (params : Params) (keys : List (KeyShare F G)) (firstId : U64) (tamper : Option PresignTamper) (fuel : Nat)
    (s : Rngs F) {c : Committee} (hc : Committee.new (keys.map (·.index)) params.t = .ok c)
    (hstart : Startable keys.length params.t s fuel)
    (hblames : ∀ a ∈ (presignWrapper driver params firstId tamper).tried fuel
        ⟨keys.map (·.index), keys, s.rngs, [], 0⟩ s.drawn, ∀ abort,
      a.outcome = .error (.error (.abort abort)) → ∃ p ∈ abort.blamed, p ∈ a.start.current) :
    PresignRestarts driver params keys firstId tamper
      ((presignWrapper driver params firstId tamper).tried fuel ⟨keys.map (·.index), keys, s.rngs, [], 0⟩ s.drawn)
      ((presignWrapper driver params firstId tamper).loop fuel ⟨keys.map (·.index), keys, s.rngs, [], 0⟩ s).1 := by
  have hlen : (keys.map (·.index)).length = keys.length := List.length_map _
  have hnd : (keys.map (·.index)).Nodup := by
    rcases committee_new_cases (keys.map (·.index)) params.t with ⟨e, he, -⟩ | hnd
    · rw [he] at hc
      cases hc
    · exact hnd
  have hcard := hnd.length_le_card
  rw [Fintype.card_fin] at hcard
  have hmaj := hstart.majority
  have hw : (presignWrapper driver params firstId tamper).Sound fun ids keys => keys.map (·.index) = ids :=
    ⟨hstart.pos, by show params.t.val ≤ 2 ^ 63; omega,
      fun st s => lift_bind_keeps _ (fun c => (driver c _ _ _).keeps) s, keys_survive⟩
  have hready : (presignWrapper driver params firstId tamper).Ready (fun ids keys => keys.map (·.index) = ids)
      ⟨keys.map (·.index), keys, s.rngs, [], 0⟩ := ⟨hlen ▸ hmaj, hnd, hlen ▸ hstart.rngs, rfl⟩
  have hran := Wrapper.loop_ran hw fuel ⟨keys.map (·.index), keys, s.rngs, [], 0⟩ s hready
    (by
      have := hstart.fuel
      show (keys.map (·.index)).length - (2 * params.t.val - 1) < fuel
      omega)
    fun a ha => ⟨fun abort hout => ⟨_, rfl, hblames a ha abort hout⟩, fun b _ => ⟨_, rfl⟩⟩
  have hpol := hran.policed hw.pos hready.majority hready.nodup rfl
  refine ⟨hpol, fun a ha => ?_, fun e he => ?_, fun out hout => ?_⟩
  · obtain ⟨s', -, hrun⟩ := (presignWrapper driver params firstId tamper).tried_run fuel _ _ a ha
    obtain ⟨k, hk⟩ := List.mem_iff_getElem?.mp ha
    have hperm := hpol.current k a hk
    obtain ⟨c', hc', hids, hct⟩ := committee_of_survivors hc
      (fun p hp => List.mem_of_mem_filter (hperm.mem_iff.mp hp)) (hperm.nodup_iff.mpr (hnd.filter _))
      (hpol.majority a ha)
    refine ⟨c', s', hids, hct, ?_, hrun.trans ?_⟩
    · exact hran.keys hw hready.keys a ha
    · show ((lift (Committee.new a.start.current params.t) >>= _ : RngM F _) s').1 = _
      rw [hc', lift_bind_run]
  · obtain ⟨a, hlast, hown, -⟩ := hran.stopped he
    exact ⟨a, hlast, hown⟩
  · obtain ⟨a, out, o, rfl, hlast, hok, hfin, hblamed⟩ := hran.returned hout
    cases hfin
    refine ⟨out.1, _, _, rfl, a, out.2, hlast, hok, rfl, fun p => ?_⟩
    rw [mem_accumulateBlame, hblamed]
    simp

/-! ## Top theorems -/

/-- **The restart policy**, over any driver whose aborts blame a current member: a
wrapper ends after at most `n - (2t - 1) + 1` attempts with a value, with its last
attempt's own error, or with an abort when too few would be left; every attempt is over the parties not blamed before, at
least `2t - 1` of them and with the same `t`, under a session id of its own; and the
parties reported are the blamed ones, under their original ids.  The drivers of the
crate return one record for each party of the attempt, but for those it blames. -/
theorem restart_policy :
    (∀ (driver : Params → Bytes → Option DkgTamper → Attempt F (List (KeyShare F G))) (params : Params) (sid : Bytes)
      (tamper : Option DkgTamper) (fuel : Nat) (s : Rngs F), Startable params.n.val params.t s fuel →
      (∀ a ∈ (keygenWrapper driver params sid tamper).tried fuel (params.restart s.rngs) s.drawn, ∀ abort,
        a.outcome = .error (.error (.abort abort)) → abort.blamed ≠ [] ∧ Numbers a.start abort.blamed) →
      KeygenRestarts driver params sid tamper
        ((keygenWrapper driver params sid tamper).tried fuel (params.restart s.rngs) s.drawn)
        ((keygenWrapper driver params sid tamper).loop fuel (params.restart s.rngs) s).1) ∧
    (∀ (driver : Committee → Bytes → Option TripleTamper →
        Attempt F (List (TripleShare F × TriplePublic G) × List PartyId)) (params : Params) (sid : Bytes)
      (tamper : Option TripleTamper) (fuel : Nat) (s : Rngs F), Startable params.n.val params.t s fuel →
      (∀ a ∈ (triplesWrapper driver params sid tamper).tried fuel (params.restart s.rngs) s.drawn, ∀ abort,
        a.outcome = .error (.error (.abort abort)) → abort.blamed ≠ [] ∧ Numbers a.start abort.blamed) →
      (∀ a ∈ (triplesWrapper driver params sid tamper).tried fuel (params.restart s.rngs) s.drawn, ∀ out,
        a.outcome = .ok out → Numbers a.start out.2) →
      TriplesRestarts driver params sid tamper
        ((triplesWrapper driver params sid tamper).tried fuel (params.restart s.rngs) s.drawn)
        ((triplesWrapper driver params sid tamper).loop fuel (params.restart s.rngs) s).1) ∧
    (∀ (driver : Committee → List (KeyShare F G) → U64 → Option PresignTamper →
        Attempt F (List (Presignature F G) × List PartyId)) (params : Params) (keys : List (KeyShare F G))
      (firstId : U64) (tamper : Option PresignTamper) (fuel : Nat) (s : Rngs F) (c : Committee),
      Committee.new (keys.map (·.index)) params.t = .ok c → Startable keys.length params.t s fuel →
      (∀ a ∈ (presignWrapper driver params firstId tamper).tried fuel ⟨keys.map (·.index), keys, s.rngs, [], 0⟩ s.drawn,
        ∀ abort, a.outcome = .error (.error (.abort abort)) → ∃ p ∈ abort.blamed, p ∈ a.start.current) →
      PresignRestarts driver params keys firstId tamper
        ((presignWrapper driver params firstId tamper).tried fuel ⟨keys.map (·.index), keys, s.rngs, [], 0⟩ s.drawn)
        ((presignWrapper driver params firstId tamper).loop fuel ⟨keys.map (·.index), keys, s.rngs, [], 0⟩ s).1) ∧
    (∀ (params : Params) (sid : Bytes) (tamper : Option DkgTamper) (s : Rngs F) (keys : List (KeyShare F G)),
      ((keygenAttempt params sid tamper).run s).1 = .ok keys → keys.map (·.index) = params.parties) ∧
    (∀ (c : Committee) (sid : Bytes) (tamper : Option TripleTamper) (s : Rngs F)
      (out : List (TripleShare F × TriplePublic G) × List PartyId), ((triplesAttempt c sid tamper).run s).1 = .ok out →
      out.1.map (·.1.index) = c.ids.filter fun p => !out.2.contains p) ∧
    ∀ (c : Committee) (keys : List (KeyShare F G)) (id : U64) (tamper : Option PresignTamper) (s : Rngs F)
      (out : List (Presignature F G) × List PartyId), ((presignAttempt c keys id tamper).run s).1 = .ok out →
      out.1.map (·.index) = c.ids.filter fun p => !out.2.contains p := by
  refine ⟨keygen_restarts, triples_restarts, fun driver params keys firstId tamper fuel s c hc =>
    presign_restarts driver params keys firstId tamper fuel s hc, fun params sid tamper s keys h => ?_,
    fun c sid tamper s out h => ?_, fun c keys id tamper s out h => ?_⟩
  · have hout := (driveDkg_outputs (F := F) (G := G) params sid tags.dkgCommit .keyGen tamper s trivial).2
    rw [show (driveDkg params sid tags.dkgCommit .keyGen tamper s).1 = .ok keys from h] at hout
    exact hout
  · have hout := (generateRobust_outputs (F := F) (G := G) c sid tamper s trivial).2
    rw [show (generateRobustWithCommittee c sid tamper s).1 = .ok out from h] at hout
    exact hout
  · have hout := (presignRobust_outputs c keys id tamper s trivial).2
    rw [show (presignRobustWithCommittee c keys id tamper s).1 = .ok out from h] at hout
    exact hout

/-! ### Five and six parties -/

section Concrete

open Secp256k1

def attemptFails {α : Type} (phase : Phase) (blamed : List PartyId) : Attempt Scalar α :=
  ⟨throw (abort phase blamed "bad dealer"), fun _ => rfl⟩

def attemptReturns {α : Type} (a : α) : Attempt Scalar α := ⟨pure a, fun _ => rfl⟩

def sixRngs : Rngs Scalar := ⟨(List.range 6).map fun k => ⟨k + 1, fun i => (i : Scalar) + 1, 0⟩, []⟩

/-- Party 2 cheats, and 5 after it. -/
def keygenDriver (params : Params) (_ : Bytes) (_ : Option DkgTamper) : Attempt Scalar (List (KeyShare Scalar Point)) :=
  if params.n = 5 then attemptFails .keyGen [2]
  else if params.n = 4 then attemptFails .keyGen [4]
  else attemptReturns (params.parties.map fun i => ⟨i, 7, ⟨[7]⟩⟩)

/-- Party 2 cheats, then 5 is blamed in the attempt. -/
def triplesDriver (c : Committee) (_ : Bytes) (_ : Option TripleTamper) :
    Attempt Scalar (List (TripleShare Scalar × TriplePublic Point) × List PartyId) :=
  if c.n = 5 then attemptFails .triples [2] else attemptReturns ([], [4])

/-- Party 2 cheats, and a stranger is blamed with it; then 5 is blamed in the attempt. -/
def presignDriver (c : Committee) (_ : List (KeyShare Scalar Point)) (_ : U64) (_ : Option PresignTamper) :
    Attempt Scalar (List (Presignature Scalar Point) × List PartyId) :=
  if c.n = 5 then attemptFails .presign [2, 9] else attemptReturns ([], [5])

def fiveKeys : List (KeyShare Scalar Point) := [1, 2, 3, 4, 5].map fun i => ⟨i, 7, ⟨[7]⟩⟩

/-- What every abort blames, by running through the attempts. -/
theorem of_all_blamed {κ β : Type} {P : Restart Scalar κ → List PartyId → Prop} [∀ st l, Decidable (P st l)]
    {tried : List (Try Scalar κ β)}
    (h : (tried.all fun a => match a.outcome with
      | .error (.error (.abort abort)) => decide (P a.start abort.blamed)
      | _ => true) = true) :
    ∀ a ∈ tried, ∀ abort, a.outcome = .error (.error (.abort abort)) → P a.start abort.blamed := by
  intro a ha abort hout
  have hall := List.all_eq_true.mp h a ha
  rw [hout] at hall
  exact of_decide_eq_true hall

/-- The five parties 1 to 5, two of which sign. -/
theorem restart_policy_five :
    KeygenRestarts keygenDriver ⟨5, 2⟩ [1] none
      ((keygenWrapper keygenDriver ⟨5, 2⟩ [1] none).tried 3 (Params.restart ⟨5, 2⟩ sixRngs.rngs) [])
      (.ok (some ([1, 2, 3].map fun i => ⟨i, 7, ⟨[7]⟩⟩, [2, 5]))) ∧
    TriplesRestarts triplesDriver ⟨5, 2⟩ [1] none
      ((triplesWrapper triplesDriver ⟨5, 2⟩ [1] none).tried 3 (Params.restart ⟨5, 2⟩ sixRngs.rngs) [])
      (.ok (some ([], [2, 5]))) ∧
    PresignRestarts presignDriver ⟨5, 2⟩ fiveKeys 7 none
      ((presignWrapper presignDriver ⟨5, 2⟩ 7 none).tried 3 ⟨[1, 2, 3, 4, 5], fiveKeys, sixRngs.rngs, [], 0⟩ [])
      (.ok (some ([], [2, 5, 9], 8))) := by
  have hstart : Startable 5 2 sixRngs 3 := ⟨by decide, by decide, by decide, by decide⟩
  obtain ⟨hkeygen, htriples, hpresign, -⟩ := restart_policy (F := Scalar) (G := Point)
  refine ⟨?_, ?_, ?_⟩
  · have h := hkeygen keygenDriver ⟨5, 2⟩ [1] none 3 sixRngs hstart
      (of_all_blamed (P := fun st l => l ≠ [] ∧ Numbers st l) (by decide +kernel))
    have hrun : ((keygenWrapper keygenDriver ⟨5, 2⟩ [1] none).loop 3 (Params.restart ⟨5, 2⟩ sixRngs.rngs) sixRngs).1 =
      .ok (some ([1, 2, 3].map fun i => ⟨i, 7, ⟨[7]⟩⟩, [2, 5])) := by decide +kernel
    rwa [hrun] at h
  · have h := htriples triplesDriver ⟨5, 2⟩ [1] none 3 sixRngs hstart
      (of_all_blamed (P := fun st l => l ≠ [] ∧ Numbers st l) (by decide +kernel)) (fun a ha out hout => ?_)
    · have hrun : ((triplesWrapper triplesDriver ⟨5, 2⟩ [1] none).loop 3 (Params.restart ⟨5, 2⟩ sixRngs.rngs) sixRngs).1 =
        .ok (some ([], [2, 5])) := by decide +kernel
      rwa [hrun] at h
    · have hall : (((triplesWrapper triplesDriver ⟨5, 2⟩ [1] none).tried 3 (Params.restart ⟨5, 2⟩ sixRngs.rngs) []).all
          fun a => match a.outcome with
            | .ok out => decide (Numbers a.start out.2)
            | _ => true) = true := by decide +kernel
      have hnum := List.all_eq_true.mp hall a ha
      rw [hout] at hnum
      exact of_decide_eq_true hnum
  · obtain ⟨c, hc⟩ : ∃ c, Committee.new (fiveKeys.map (·.index)) 2 = .ok c := ⟨_, rfl⟩
    have h := hpresign presignDriver ⟨5, 2⟩ fiveKeys 7 none 3 sixRngs c hc hstart
      (fun a ha abort hout => by
        have hany := of_all_blamed (P := fun st l => (l.any fun p => st.current.contains p) = true) (by decide +kernel)
          a ha abort hout
        simpa using hany)
    have hrun : ((presignWrapper presignDriver ⟨5, 2⟩ 7 none).loop 3
      ⟨fiveKeys.map (·.index), fiveKeys, sixRngs.rngs, [], 0⟩ sixRngs).1 = .ok (some ([], [2, 5, 9], 8)) := by
      decide +kernel
    rwa [hrun] at h

/-- Party 2 cheats, and 5 after it, when none is left to spare. -/
def sixDriver (c : Committee) (_ : List (KeyShare Scalar Point)) (_ : U64) (_ : Option PresignTamper) :
    Attempt Scalar (List (Presignature Scalar Point) × List PartyId) :=
  if c.n = 6 then attemptFails .presign [2] else attemptFails .presign [5]

def sixKeys : List (KeyShare Scalar Point) := [1, 2, 3, 4, 5, 6].map fun i => ⟨i, 7, ⟨[7]⟩⟩

def sixStart : Restart Scalar (List (KeyShare Scalar Point)) := ⟨[1, 2, 3, 4, 5, 6], sixKeys, sixRngs.rngs, [], 0⟩

/-- A wrapper that gives up does not report party 2, which it has expelled; one whose
attempt blames a stranger too panics. -/
theorem restart_forgets :
    ((presignWrapper sixDriver ⟨6, 3⟩ 7 none).loop 2 sixStart sixRngs).1 = .error (abort .presign [5] "bad dealer") ∧
      ((presignWrapper sixDriver ⟨6, 3⟩ 7 none).tried 2 sixStart []).flatMap
        (presignWrapper sixDriver ⟨6, 3⟩ 7 none).blames = [2, 5] ∧
      (((keygenWrapper (fun _ _ _ => attemptFails .keyGen [1, 9]) ⟨6, 3⟩ [1] none).loop 2
        (Params.restart ⟨6, 3⟩ sixRngs.rngs) : RngM Scalar (Option (List (KeyShare Scalar Point) × _))) sixRngs).1 =
        .error (.panic "index out of bounds") :=
  ⟨by decide +kernel, by decide +kernel, by decide +kernel⟩

end Concrete

end OhmEcdsa
