import OhmEcdsa.Core.Sign
import OhmEcdsa.Core.Transport

/-!
# The orchestrator and the expel-and-restart policy (`src/runtime/sim.rs`, `policy.rs`)

A plain driver draws from the caller's generators and advances them; a
`*_with_restart` wrapper clones them for its attempts and leaves them where they
were.  Over any sequence of calls, the draws of one call are distinct and those
of a plain driver's are never drawn again:

    (segments fuel s calls).Pairwise (plain → disjoint)  ∧  every segment distinct
                                                                    (calls_draws)
-/

set_option linter.unusedSectionVars false

namespace OhmEcdsa

open Hoare

variable {F G : Type} [Field F] [DecidableEq F] [AddCommGroup G] [Module F G] [DecidableEq G] [K256 F G]

/-! ## Algorithm -/

def runKeygenWithTamper (params : Params) (sid : Bytes) (tamper : Option DkgTamper) :
    RngM F (List (KeyShare F G)) :=
  driveDkg params sid tags.dkgCommit .keyGen tamper

def runKeygen (params : Params) (sid : Bytes) : RngM F (List (KeyShare F G)) :=
  runKeygenWithTamper params sid none

def runPresign (params : Params) (keys : List (KeyShare F G)) (id : U64) (tamper : Option PresignTamper) :
    RngM F (List (Presignature F G)) := do
  let committee ← lift (Committee.full params)
  presignWithCommittee committee keys id tamper

def runPresignRobust (params : Params) (keys : List (KeyShare F G)) (id : U64) (tamper : Option PresignTamper) :
    RngM F (List (Presignature F G) × List PartyId) := do
  let committee ← lift (Committee.full params)
  presignRobustWithCommittee committee keys id tamper

/-! ### Restarts -/

/-- `policy.rs`: the survivors, while `n' ≥ 2t - 1`. -/
def restartCommittee (current blamed : List PartyId) (t : Usize) : Outcome (List PartyId) :=
  if t < 1 then .error (.error (.invalidParams "threshold must be >= 1"))
  else
    let survivors := (current.filter fun p => !blamed.contains p).insertionSort (· ≤ ·)
    if survivors.length < (2 * t - 1).val then
      .error (.error (.invalidParams
        "expulsion leaves n' < 2t-1: committee re-sharing required (SPEC 13.4, see refresh::reshare)"))
    else .ok survivors

/-- The sid of a failed attempt is never reused. -/
def poisonSid (sid : Bytes) (attempt : U64) : Bytes :=
  if attempt = 0 then sid else sid ++ utf8 "/retry-" ++ u64Bytes attempt.val

def survivorPositions (current survivors : List PartyId) : Outcome (List Nat) :=
  survivors.mapM fun s =>
    match current.findIdx? (· == s) with
    | some p => .ok p
    | none => .error (.panic "survivors ⊆ current")

/-- `blamed_all`: append the new ones and sort. -/
def accumulateBlame (blamedAll blamed : List PartyId) : List PartyId :=
  (blamed.foldl (fun acc b => if acc.contains b then acc else acc ++ [b]) blamedAll).insertionSort (· ≤ ·)

/-- The state of a restart loop; `keys` is what the wrapper keeps by position
besides the generators. -/
structure Restart (F κ : Type) where
  current : List PartyId
  keys : κ
  rngs : List (StdRng F)
  blamedAll : List PartyId
  attempt : U64

/-- Run `m` on the clones `rngs`; the caller's generators stay as they are. -/
def onClones {α : Type} (rngs : List (StdRng F)) (m : RngM F α) :
    RngM F (Except Fault α × List (StdRng F)) :=
  fun s =>
    let (r, s') := m ⟨rngs, s.drawn⟩
    (.ok (r, s'.rngs), ⟨s.rngs, s'.drawn⟩)

/-- The next attempt after an abort: the survivors with their generators, or the
abort itself when the policy refuses. -/
def afterAbort {κ : Type} (t : Usize) (survive : List Nat → κ → Outcome κ) (st : Restart F κ)
    (rngs : List (StdRng F)) (abort : IdentifiableAbort) (blamed : List PartyId) : Outcome (Restart F κ) :=
  match restartCommittee st.current blamed t with
  | .error _ => .error (.error (.abort abort))
  | .ok survivors => do
    let positions ← survivorPositions st.current survivors
    let keys ← survive positions st.keys
    let rngs ← positions.mapM (nth rngs)
    return ⟨survivors, keys, rngs, accumulateBlame st.blamedAll blamed, st.attempt + 1⟩

/-- The loop of the `*_with_restart` wrappers: `run` one attempt, `finish` when it
succeeds, map its blame to original ids and go on when it aborts.  `none` when
`fuel` attempts were not enough. -/
def restartLoop {κ α β : Type} (t : Usize) (run : Restart F κ → RngM F β)
    (finish : Restart F κ → β → Outcome α) (original : Restart F κ → List PartyId → Outcome (List PartyId))
    (survive : List Nat → κ → Outcome κ) : Nat → Restart F κ → RngM F (Option α)
  | 0, _ => return none
  | fuel + 1, st => do
    let (result, rngs) ← onClones st.rngs (run st)
    match result with
    | .ok b => do
      let out ← lift (finish st b)
      return some out
    | .error (.error (.abort abort)) => do
      let blamed ← lift (original st abort.blamed)
      let st' ← lift (afterAbort t survive st rngs abort blamed)
      restartLoop t run finish original survive fuel st'
    | .error e => throw e

/-- `current[b - 1]`: attempts over `1..=n'` blame renumbered ids. -/
def renumbered {κ : Type} (st : Restart F κ) (blamed : List PartyId) : Outcome (List PartyId) :=
  blamed.mapM fun b => nth st.current (b - 1).val

def firstOnly {κ τ : Type} (st : Restart F κ) (tamper : Option τ) : Option τ :=
  if st.attempt = 0 then tamper else none

/-- `Params::new(current.len(), t)?`. -/
def attemptParams {κ : Type} (t : Usize) (st : Restart F κ) : Outcome Params :=
  Params.new (Fin.ofNat (2 ^ 64) st.current.length) t

def runKeygenWithRestart (params : Params) (sid : Bytes) (tamper : Option DkgTamper) (fuel : Nat) :
    RngM F (Option (List (KeyShare F G) × List PartyId)) := do
  let s ← get
  restartLoop params.t
    (fun st => do
      let attempt ← lift (attemptParams params.t st)
      runKeygenWithTamper attempt (poisonSid sid st.attempt) (firstOnly st tamper))
    (fun st keys => .ok (keys, st.blamedAll)) renumbered (fun _ _ => .ok ())
    fuel ⟨params.parties, (), s.rngs, [], 0⟩

def runTriplesWithRestart (params : Params) (sid : Bytes) (tamper : Option TripleTamper) (fuel : Nat) :
    RngM F (Option (List (TripleShare F × TriplePublic G) × List PartyId)) := do
  let s ← get
  restartLoop params.t
    (fun st => do
      let attempt ← lift (attemptParams params.t st)
      let committee ← lift (Committee.full attempt)
      generateRobustWithCommittee committee (poisonSid sid st.attempt) (firstOnly st tamper))
    (fun st out => do
      let blamed ← renumbered st out.2
      return (out.1, accumulateBlame st.blamedAll blamed))
    renumbered (fun _ _ => .ok ()) fuel ⟨params.parties, (), s.rngs, [], 0⟩

/-- Presign keeps the original ids; attempt `k` uses the id `first_id + k`. -/
def runPresignWithRestart (params : Params) (keys : List (KeyShare F G)) (firstId : U64)
    (tamper : Option PresignTamper) (fuel : Nat) :
    RngM F (Option (List (Presignature F G) × List PartyId × U64)) := do
  let s ← get
  restartLoop params.t
    (fun st => do
      let committee ← lift (Committee.new st.current params.t)
      presignRobustWithCommittee committee st.keys (firstId + st.attempt) (firstOnly st tamper))
    (fun st out => .ok (out.1, accumulateBlame st.blamedAll out.2, firstId + st.attempt))
    (fun _ blamed => .ok blamed) (fun positions keys => positions.mapM (nth keys))
    fuel ⟨keys.map (·.index), keys, s.rngs, [], 0⟩

/-! ### Sequences of calls -/

/-- A call of one of the drivers. -/
inductive Call (F G : Type)
  | keygen (params : Params) (sid : Bytes)
  | presign (params : Params) (keys : List (KeyShare F G)) (id : U64) (tamper : Option PresignTamper)
  | presignRobust (params : Params) (keys : List (KeyShare F G)) (id : U64) (tamper : Option PresignTamper)
  | keygenWithRestart (params : Params) (sid : Bytes) (tamper : Option DkgTamper)
  | triplesWithRestart (params : Params) (sid : Bytes) (tamper : Option TripleTamper)
  | presignWithRestart (params : Params) (keys : List (KeyShare F G)) (firstId : U64)
      (tamper : Option PresignTamper)

namespace Call

/-- The drivers that advance the caller's generators. -/
def plain : Call F G → Bool
  | keygen .. | presign .. | presignRobust .. => true
  | _ => false

/-- The state of the generators after the call; its result is the caller's. -/
def run (fuel : Nat) : Call F G → Rngs F → Rngs F
  | keygen params sid, s => ((runKeygen params sid : RngM F (List (KeyShare F G))) s).2
  | presign params keys id tamper, s => (runPresign params keys id tamper s).2
  | presignRobust params keys id tamper, s => (runPresignRobust params keys id tamper s).2
  | keygenWithRestart params sid tamper, s =>
    ((runKeygenWithRestart params sid tamper fuel : RngM F (Option (List (KeyShare F G) × _))) s).2
  | triplesWithRestart params sid tamper, s =>
    ((runTriplesWithRestart params sid tamper fuel :
      RngM F (Option (List (TripleShare F × TriplePublic G) × _))) s).2
  | presignWithRestart params keys firstId tamper, s => (runPresignWithRestart params keys firstId tamper fuel s).2

end Call

/-- The draws of each call of a sequence, in order. -/
def segments (fuel : Nat) : Rngs F → List (Call F G) → List (Call F G × List (Nat × Nat))
  | _, [] => []
  | s, call :: calls =>
    (call, (call.run fuel s).drawn.drop s.drawn.length) :: segments fuel (call.run fuel s) calls

/-! ## Lemmas -/

/-- Every party owns one of the generators. -/
def Owned (rngs : List (StdRng F)) : Prop := (rngs.map (·.party)).Nodup

/-- `draws` are made between `rngs` and `rngs'`: no position twice, each at or
after where its stream stood and before where it stands. -/
structure DrawnBetween (rngs rngs' : List (StdRng F)) (draws : List (Nat × Nat)) : Prop where
  nodup : draws.Nodup
  owned : Owned rngs'
  mono : ∀ r' ∈ rngs', ∃ r ∈ rngs, r.party = r'.party ∧ r.pos ≤ r'.pos
  after : ∀ d ∈ draws, ∃ r ∈ rngs, r.party = d.1 ∧ r.pos ≤ d.2
  before : ∀ d ∈ draws, ∀ r' ∈ rngs', r'.party = d.1 → d.2 < r'.pos

/-- What running code does to the generators it holds. -/
def Drew (s s' : Rngs F) : Prop :=
  Owned s.rngs → ∃ draws, s'.drawn = s.drawn ++ draws ∧ DrawnBetween s.rngs s'.rngs draws

theorem drawnBetween_refl {rngs : List (StdRng F)} (h : Owned rngs) : DrawnBetween rngs rngs [] where
  nodup := List.nodup_nil
  owned := h
  mono r hr := ⟨r, hr, rfl, le_refl _⟩
  after _ hd := by cases hd
  before _ hd := by cases hd

theorem DrawnBetween.disjoint {rngs rngs' rngs'' : List (StdRng F)} {d₁ d₂ : List (Nat × Nat)}
    (h₁ : DrawnBetween rngs rngs' d₁) (h₂ : DrawnBetween rngs' rngs'' d₂) : d₁.Disjoint d₂ := by
  intro d hd₁ hd₂
  obtain ⟨r, hr, hparty, hpos⟩ := h₂.after d hd₂
  have := h₁.before d hd₁ r hr hparty
  omega

theorem DrawnBetween.trans {rngs rngs' rngs'' : List (StdRng F)} {d₁ d₂ : List (Nat × Nat)}
    (h₁ : DrawnBetween rngs rngs' d₁) (h₂ : DrawnBetween rngs' rngs'' d₂) :
    DrawnBetween rngs rngs'' (d₁ ++ d₂) where
  nodup := List.nodup_append'.mpr ⟨h₁.nodup, h₂.nodup, h₁.disjoint h₂⟩
  owned := h₂.owned
  mono r'' hr'' := by
    obtain ⟨r', hr', hp', hle'⟩ := h₂.mono r'' hr''
    obtain ⟨r, hr, hp, hle⟩ := h₁.mono r' hr'
    exact ⟨r, hr, hp.trans hp', hle.trans hle'⟩
  after d hd := by
    rcases List.mem_append.mp hd with hd | hd
    · exact h₁.after d hd
    · obtain ⟨r', hr', hp', hle'⟩ := h₂.after d hd
      obtain ⟨r, hr, hp, hle⟩ := h₁.mono r' hr'
      exact ⟨r, hr, hp.trans hp', hle.trans hle'⟩
  before d hd r'' hr'' hparty := by
    rcases List.mem_append.mp hd with hd | hd
    · obtain ⟨r', hr', hp', hle'⟩ := h₂.mono r'' hr''
      exact lt_of_lt_of_le (h₁.before d hd r' hr' (hp'.trans hparty)) hle'
    · exact h₂.before d hd r'' hr'' hparty

theorem drew_refl (s : Rngs F) : Drew s s := fun h => ⟨[], by rw [List.append_nil], drawnBetween_refl h⟩

theorem drew_trans (s₁ s₂ s₃ : Rngs F) (h₁ : Drew s₁ s₂) (h₂ : Drew s₂ s₃) : Drew s₁ s₃ := by
  intro h
  obtain ⟨d₁, he₁, hb₁⟩ := h₁ h
  obtain ⟨d₂, he₂, hb₂⟩ := h₂ hb₁.owned
  exact ⟨d₁ ++ d₂, by rw [he₂, he₁, List.append_assoc], hb₁.trans hb₂⟩

/-- The one step that reads a stream. -/
theorem randomScalar_drew (k : Nat) : Respects Drew (randomScalar k : RngM F F) := by
  intro s hown
  cases hk : s.rngs[k]? with
  | none =>
    rw [randomScalar_none hk]
    exact drew_refl s hown
  | some r =>
    obtain ⟨hlt, hget⟩ := List.getElem?_eq_some_iff.mp hk
    have hmem : r ∈ s.rngs := hget ▸ List.getElem_mem hlt
    have hparty : (s.rngs.set k { r with pos := r.pos + 1 }).map (·.party) = s.rngs.map (·.party) := by
      rw [List.map_set]
      refine List.ext_getElem? fun i => ?_
      rw [List.getElem?_set]
      split
      · next hi =>
        subst hi
        simp [hlt, hget]
      · rfl
    have hown' : Owned (s.rngs.set k { r with pos := r.pos + 1 }) := by
      unfold Owned
      rw [hparty]
      exact hown
    have hold : ∀ r' ∈ s.rngs.set k { r with pos := r.pos + 1 },
        r' = { r with pos := r.pos + 1 } ∨ r' ∈ s.rngs := by
      intro r' hr'
      rcases List.mem_or_eq_of_mem_set hr' with h | h
      · exact Or.inr h
      · exact Or.inl h
    rw [randomScalar_some hk]
    refine ⟨[(r.party, r.pos)], rfl, List.nodup_singleton _, hown', fun r' hr' => ?_, fun d hd => ?_,
      fun d hd r' hr' hp => ?_⟩
    · rcases hold r' hr' with rfl | h
      · exact ⟨r, hmem, rfl, Nat.le_succ _⟩
      · exact ⟨r', h, rfl, le_refl _⟩
    · rw [List.mem_singleton.mp hd]
      exact ⟨r, hmem, rfl, le_refl _⟩
    · rw [List.mem_singleton.mp hd] at hp ⊢
      have hnew : ({ r with pos := r.pos + 1 } : StdRng F) ∈ s.rngs.set k { r with pos := r.pos + 1 } :=
        List.mem_set hlt _
      have := List.inj_on_of_nodup_map hown' hr' hnew hp
      rw [this]
      exact Nat.lt_succ_self _

/-! ### Everything built from it -/

/-- A preorder that holds of every draw. -/
structure Draws (R : Rngs F → Rngs F → Prop) : Prop where
  refl : ∀ s, R s s
  trans : ∀ s₁ s₂ s₃, R s₁ s₂ → R s₂ s₃ → R s₁ s₃
  draw : ∀ k, Respects R (randomScalar k : RngM F F)

theorem drew_draws : Draws (Drew (F := F)) := ⟨drew_refl, drew_trans, randomScalar_drew⟩

section Preorder

variable {R : Rngs F → Rngs F → Prop} (h : Draws R)

include h

theorem Draws.bind {α β : Type} {m : RngM F α} {f : α → RngM F β} (hm : Respects R m)
    (hf : ∀ a, Respects R (f a)) : Respects R (m >>= f) := Respects.bind h.trans hm hf

theorem Draws.pure {α : Type} (a : α) : Respects R (pure a : RngM F α) := Respects.pure h.refl a

theorem Draws.lift {α : Type} (x : Outcome α) : Respects R (lift x : RngM F α) := Respects.lift h.refl x

theorem Draws.get : Respects R (get : RngM F (Rngs F)) := Respects.get h.refl

theorem Draws.mapM {α β : Type} {f : α → RngM F β} (l : List α) (hf : ∀ a, Respects R (f a)) :
    Respects R (l.mapM f) := Respects.mapM h.refl h.trans l hf

theorem random_respects (secret : F) (t : Usize) (k : Nat) : Respects R (ShamirPoly.random secret t k) :=
  h.bind (h.mapM _ fun _ => h.draw k) fun _ => h.pure _

theorem startCommittee_respects (c : Committee) (sid tag : Bytes) (me : PartyId) (k : Nat) :
    Respects R (DkgInstance.startCommittee (F := F) (G := G) c sid tag me k) :=
  h.bind (h.draw k) fun s => h.bind (random_respects h s c.t k) fun _ => h.pure _

theorem jointRandom_respects (c : Committee) (sid : Bytes) (phase : Phase) :
    Respects R (jointRandom c sid phase : RngM F (List (DkgOutput F G))) :=
  h.bind (h.mapM _ fun _ => startCommittee_respects h _ _ _ _ _) fun _ => h.lift _

theorem reshare_respects (c : Committee) (sid : Bytes) (cb : FeldmanCommitment G) (as bs : List F)
    (j : PartyId) (k : Nat) : Respects R (reshare c sid cb as bs j k) :=
  h.bind (h.lift _) fun _ => h.bind (h.lift _) fun _ => h.bind (random_respects h _ _ _) fun _ =>
    h.bind (h.bind (h.draw k) fun _ => h.pure _) fun _ => h.pure _

theorem dealTriple_respects (c : Committee) (sid : Bytes) :
    Respects R (dealTriple (F := F) (G := G) c sid) :=
  h.bind (jointRandom_respects h _ _ _) fun _ => h.bind (jointRandom_respects h _ _ _) fun _ =>
    h.bind (h.lift _) fun _ => h.bind (h.lift _) fun _ => h.bind (h.lift _) fun _ =>
      h.bind (h.mapM _ fun _ => reshare_respects h _ _ _ _ _ _ _) fun _ => h.pure _

theorem generate_respects (c : Committee) (sid : Bytes) (tamper : Option TripleTamper) :
    Respects R (generateWithCommittee (F := F) (G := G) c sid tamper) :=
  h.bind (dealTriple_respects h c sid) fun _ => h.lift _

theorem generateRobust_respects (c : Committee) (sid : Bytes) (tamper : Option TripleTamper) :
    Respects R (generateRobustWithCommittee (F := F) (G := G) c sid tamper) :=
  h.bind (dealTriple_respects h c sid) fun _ => h.lift _

theorem dealPresign_respects (c : Committee) (id : U64) (tamper : Option PresignTamper) :
    Respects R (dealPresign (F := F) (G := G) c id tamper) :=
  h.bind (generate_respects h _ _ _) fun _ => h.bind (generate_respects h _ _ _) fun _ =>
    h.bind (jointRandom_respects h _ _ _) fun _ => h.bind (jointRandom_respects h _ _ _) fun _ => h.pure _

theorem presign_respects (c : Committee) (keys : List (KeyShare F G)) (id : U64) (tamper : Option PresignTamper) :
    Respects R (presignWithCommittee c keys id tamper) :=
  h.bind h.get fun _ => h.bind (h.lift _) fun _ => h.bind (dealPresign_respects h c id tamper) fun _ => h.lift _

theorem presignRobust_respects (c : Committee) (keys : List (KeyShare F G)) (id : U64)
    (tamper : Option PresignTamper) : Respects R (presignRobustWithCommittee c keys id tamper) :=
  h.bind h.get fun _ => h.bind (h.lift _) fun _ => h.bind (dealPresign_respects h c id tamper) fun _ => h.lift _

theorem driveDkg_respects (params : Params) (sid tag : Bytes) (phase : Phase) (tamper : Option DkgTamper) :
    Respects R (driveDkg (F := F) (G := G) params sid tag phase tamper) :=
  h.bind (h.mapM _ fun _ => h.bind (h.lift _) fun _ =>
    h.bind (startCommittee_respects h _ _ _ _ _) fun _ => h.pure _) fun _ => h.lift _

end Preorder

/-! ### Restarts -/

/-- What a `*_with_restart` wrapper does: its draws are distinct and start where
the caller's generators stand, which stay there. -/
def DrewOnClones (rngs : List (StdRng F)) (s s' : Rngs F) : Prop :=
  s'.rngs = s.rngs ∧ ∃ rngs' draws, s'.drawn = s.drawn ++ draws ∧ DrawnBetween rngs rngs' draws

theorem DrewOnClones.prepend {rngs rngs' : List (StdRng F)} {s s₂ : Rngs F} (s₁ : Rngs F) {d : List (Nat × Nat)}
    (hr : s₁.rngs = s.rngs) (hd : s₁.drawn = s.drawn ++ d) (hb : DrawnBetween rngs rngs' d)
    (h : DrewOnClones rngs' s₁ s₂) : DrewOnClones rngs s s₂ := by
  obtain ⟨hrngs, rngs'', d', hd', hb'⟩ := h
  exact ⟨hrngs.trans hr, rngs'', d ++ d', by rw [hd', hd, List.append_assoc], hb.trans hb'⟩

theorem drewOnClones_refl {rngs : List (StdRng F)} (h : Owned rngs) (s : Rngs F) : DrewOnClones rngs s s :=
  ⟨rfl, rngs, [], by rw [List.append_nil], drawnBetween_refl h⟩

/-- Keeping the generators of distinct survivors. -/
theorem survivors_between {rngs kept : List (StdRng F)} (hown : Owned kept) (hsub : ∀ r ∈ kept, r ∈ rngs) :
    DrawnBetween rngs kept [] where
  nodup := List.nodup_nil
  owned := hown
  mono r hr := ⟨r, hsub r hr, rfl, le_refl _⟩
  after _ hd := by cases hd
  before _ hd := by cases hd

theorem nth_eq_ok {α : Type} {v : List α} {k : Nat} {a : α} (h : nth v k = .ok a) : v[k]? = some a := by
  unfold nth at h
  cases hk : v[k]? with
  | none => rw [hk] at h; cases h
  | some b => rw [hk] at h; cases h; rfl

theorem survivorPositions_at {current survivors : List PartyId} {positions : List Nat}
    (h : survivorPositions current survivors = .ok positions) :
    List.Forall₂ (fun s p => current[p]? = some s) survivors positions := by
  refine (forall₂_of_mapM_ok _ _ h).imp fun s p hp => ?_
  cases hf : current.findIdx? (· == s) with
  | none => rw [hf] at hp; cases hp
  | some q =>
    rw [hf] at hp
    obtain rfl : q = p := Except.ok.inj hp
    obtain ⟨hlt, heq, -⟩ := List.findIdx?_eq_some_iff_getElem.mp hf
    rw [List.getElem?_eq_getElem hlt, beq_iff_eq.mp heq]

/-- Distinct survivors sit at distinct positions. -/
theorem survivorPositions_nodup {current survivors : List PartyId} {positions : List Nat}
    (h : survivorPositions current survivors = .ok positions) (hnd : survivors.Nodup) : positions.Nodup := by
  have hpos := survivorPositions_at h
  clear h
  induction hpos with
  | nil => exact List.nodup_nil
  | @cons s p survivors positions hsp hrest ih =>
    obtain ⟨hnot, hnd⟩ := List.nodup_cons.mp hnd
    refine List.nodup_cons.mpr ⟨fun hmem => hnot ?_, ih hnd⟩
    obtain ⟨s', hs', hp'⟩ := forall₂_exists_left hrest hmem
    rw [hsp] at hp'
    exact Option.some.inj hp' ▸ hs'

theorem kept_owned {rngs kept : List (StdRng F)} {positions : List Nat} (hown : Owned rngs)
    (hnd : positions.Nodup) (h : positions.mapM (nth rngs) = .ok kept) :
    Owned kept ∧ ∀ r ∈ kept, r ∈ rngs := by
  have hpos : List.Forall₂ (fun p r => rngs[p]? = some r) positions kept :=
    (forall₂_of_mapM_ok _ _ h).imp fun p r hp => nth_eq_ok hp
  refine ⟨?_, fun r hr => ?_⟩
  · clear h
    unfold Owned
    induction hpos with
    | nil => exact List.nodup_nil
    | @cons p r positions kept hpr hrest ih =>
      obtain ⟨hnot, hnd⟩ := List.nodup_cons.mp hnd
      rw [List.map_cons, List.nodup_cons]
      refine ⟨fun hmem => hnot ?_, ih hnd⟩
      obtain ⟨r', hr', hparty⟩ := List.mem_map.mp hmem
      obtain ⟨p', hp', hpr'⟩ := forall₂_exists_left hrest hr'
      obtain ⟨hlt, hget⟩ := List.getElem?_eq_some_iff.mp hpr
      obtain ⟨hlt', hget'⟩ := List.getElem?_eq_some_iff.mp hpr'
      have hp : p < (rngs.map (·.party)).length := by simpa using hlt
      have hp'' : p' < (rngs.map (·.party)).length := by simpa using hlt'
      have hsame : (rngs.map (·.party))[p] = (rngs.map (·.party))[p'] := by
        simp only [List.getElem_map, hget, hget', hparty]
      have : p = p' := (List.Nodup.getElem_inj_iff hown).mp hsame
      exact this ▸ hp'
  · obtain ⟨p, -, hpr⟩ := forall₂_exists_left hpos hr
    exact List.mem_of_getElem? hpr

theorem afterAbort_ok {κ : Type} {t : Usize} {survive : List Nat → κ → Outcome κ} {st st' : Restart F κ}
    {rngs : List (StdRng F)} {abort : IdentifiableAbort} {blamed : List PartyId} (hown : Owned rngs)
    (hcur : st.current.Nodup) (h : afterAbort t survive st rngs abort blamed = .ok st') :
    DrawnBetween rngs st'.rngs [] ∧ st'.current.Nodup := by
  unfold afterAbort at h
  cases hr : restartCommittee st.current blamed t with
  | error e => rw [hr] at h; cases h
  | ok survivors =>
    have hnd : survivors.Nodup := by
      unfold restartCommittee at hr
      split at hr
      · cases hr
      · simp only at hr
        split at hr
        · cases hr
        · cases hr
          exact (List.perm_insertionSort _ _).nodup_iff.mpr (hcur.filter _)
    rw [hr] at h
    cases hp : survivorPositions st.current survivors with
    | error e => simp only [bind, Except.bind, hp] at h; cases h
    | ok positions =>
      cases hk : survive positions st.keys with
      | error e => simp only [bind, Except.bind, hp, hk] at h; cases h
      | ok keys =>
        cases hg : positions.mapM (nth rngs) with
        | error e => simp only [bind, Except.bind, hp, hk, hg] at h; cases h
        | ok kept =>
          simp only [bind, Except.bind, hp, hk, hg] at h
          cases h
          obtain ⟨hown', hsub⟩ := kept_owned hown (survivorPositions_nodup hp hnd) hg
          exact ⟨survivors_between hown' hsub, hnd⟩

theorem onClones_run {α : Type} (rngs : List (StdRng F)) (m : RngM F α) (s : Rngs F) :
    onClones rngs m s = (.ok ((m ⟨rngs, s.drawn⟩).1, (m ⟨rngs, s.drawn⟩).2.rngs),
      ⟨s.rngs, (m ⟨rngs, s.drawn⟩).2.drawn⟩) := rfl

/-- **A restart loop** draws every position once over all its attempts, and
leaves the caller's generators alone. -/
theorem restartLoop_drew {κ α β : Type} (t : Usize) (run : Restart F κ → RngM F β)
    (finish : Restart F κ → β → Outcome α) (original : Restart F κ → List PartyId → Outcome (List PartyId))
    (survive : List Nat → κ → Outcome κ) (hrun : ∀ st, Respects Drew (run st)) (fuel : Nat) :
    ∀ (st : Restart F κ) (s : Rngs F), Owned st.rngs →
      (st.current.Nodup ∨ ∀ s a, (run st s).1 ≠ .error (.error (.abort a))) →
      DrewOnClones st.rngs s (restartLoop t run finish original survive fuel st s).2 := by
  induction fuel with
  | zero => intro st s hown _; exact drewOnClones_refl hown s
  | succ fuel ih =>
    intro st s hown hcur
    obtain ⟨d, hd, hb⟩ := hrun st ⟨st.rngs, s.drawn⟩ hown
    refine DrewOnClones.prepend ⟨s.rngs, (run st ⟨st.rngs, s.drawn⟩).2.drawn⟩ rfl hd hb ?_
    unfold restartLoop
    rw [bind_run, onClones_run]
    generalize (run st ⟨st.rngs, s.drawn⟩).2.rngs = rngs at hb
    generalize (⟨s.rngs, (run st ⟨st.rngs, s.drawn⟩).2.drawn⟩ : Rngs F) = s₁
    rcases hres : (run st ⟨st.rngs, s.drawn⟩).1 with (e | msg) | b
    · cases e with
      | abort a =>
        have hcur := hcur.resolve_right fun h => h _ _ hres
        simp only [lift_bind_run]
        cases original st a.blamed with
        | error e => exact drewOnClones_refl hb.owned s₁
        | ok blamed =>
          dsimp only
          cases hst : afterAbort t survive st rngs a blamed with
          | error e => exact drewOnClones_refl hb.owned s₁
          | ok st' =>
            obtain ⟨hkept, hcur'⟩ := afterAbort_ok hb.owned hcur hst
            exact DrewOnClones.prepend s₁ rfl (by rw [List.append_nil]) hkept (ih st' s₁ hkept.owned (Or.inl hcur'))
      | _ => exact drewOnClones_refl hb.owned s₁
    · exact drewOnClones_refl hb.owned s₁
    · simp only [lift_bind_run]
      cases finish st b with
      | error e => exact drewOnClones_refl hb.owned s₁
      | ok out => exact drewOnClones_refl hb.owned s₁

theorem parties_nodup (params : Params) : params.parties.Nodup := by
  unfold Params.parties
  refine List.Nodup.map_on (fun i hi j hj h => ?_) List.nodup_range
  have hi' := List.mem_range.mp hi
  have hj' := List.mem_range.mp hj
  have hn := params.n.isLt
  have := congrArg Fin.val h
  simp only [Fin.val_ofNat] at this
  rw [Nat.mod_eq_of_lt (by omega), Nat.mod_eq_of_lt (by omega)] at this
  omega

/-- `Committee::new` refuses duplicates, and never aborts. -/
theorem committee_new_cases (ids : List PartyId) (t : Usize) :
    (∃ e, Committee.new ids t = .error e ∧ ∀ a, e ≠ .error (.abort a)) ∨ ids.Nodup := by
  unfold Committee.new
  split
  · exact Or.inl ⟨_, rfl, fun a h => by cases h⟩
  · split
    · exact Or.inl ⟨_, rfl, fun a h => by cases h⟩
    · simp only
      split
      · exact Or.inl ⟨_, rfl, fun a h => by cases h⟩
      · split
        · exact Or.inl ⟨_, rfl, fun a h => by cases h⟩
        · split
          · exact Or.inl ⟨_, rfl, fun a h => by cases h⟩
          · next hd =>
            have hlt := Committee.pairwise_lt_of_hasDup _ (List.pairwise_insertionSort (· ≤ ·) ids) (by simpa using hd)
            exact Or.inr ((List.perm_insertionSort _ _).nodup_iff.mp (hlt.imp fun h => h.ne))

/-! ### Calls -/

theorem plain_drew (fuel : Nat) (call : Call F G) (h : call.plain = true) (s : Rngs F) : Drew s (call.run fuel s) := by
  cases call with
  | keygen params sid => exact driveDkg_respects drew_draws params sid _ _ none s
  | presign params keys id tamper =>
    exact drew_draws.bind (drew_draws.lift _) (fun c => presign_respects drew_draws c keys id tamper) s
  | presignRobust params keys id tamper =>
    exact drew_draws.bind (drew_draws.lift _) (fun c => presignRobust_respects drew_draws c keys id tamper) s
  | keygenWithRestart | triplesWithRestart | presignWithRestart => cases h

theorem restart_drew (fuel : Nat) (call : Call F G) (h : call.plain = false) (s : Rngs F) (hown : Owned s.rngs) :
    DrewOnClones s.rngs s (call.run fuel s) := by
  cases call with
  | keygen | presign | presignRobust => cases h
  | keygenWithRestart params sid tamper =>
    exact restartLoop_drew _ _ _ _ _ (fun st => drew_draws.bind (drew_draws.lift _) fun p =>
      driveDkg_respects drew_draws p _ _ _ _)
      fuel _ s hown (Or.inl (parties_nodup params))
  | triplesWithRestart params sid tamper =>
    exact restartLoop_drew _ _ _ _ _ (fun st => drew_draws.bind (drew_draws.lift _) fun p =>
      drew_draws.bind (drew_draws.lift _) fun c => generateRobust_respects drew_draws c _ _)
      fuel _ s hown (Or.inl (parties_nodup params))
  | presignWithRestart params keys firstId tamper =>
    refine restartLoop_drew _ _ _ _ _ (fun st => drew_draws.bind (drew_draws.lift _) fun c =>
      presignRobust_respects drew_draws c _ _ _)
      fuel _ s hown ?_
    rcases committee_new_cases (keys.map (·.index)) params.t with ⟨e, he, hne⟩ | hnd
    · refine Or.inr fun s a habort => ?_
      simp only [lift_bind_run, he] at habort
      exact hne a (Except.error.inj habort)
    · exact Or.inl hnd

/-- The draws of a call, however it treats the caller's generators. -/
theorem call_draws (fuel : Nat) (call : Call F G) (s : Rngs F) (hown : Owned s.rngs) :
    ∃ draws rngs', (call.run fuel s).drawn = s.drawn ++ draws ∧ DrawnBetween s.rngs rngs' draws ∧
      ((call.plain = true ∧ (call.run fuel s).rngs = rngs') ∨ (call.run fuel s).rngs = s.rngs) := by
  cases h : call.plain with
  | true =>
    obtain ⟨draws, hd, hb⟩ := plain_drew fuel call h s hown
    exact ⟨draws, _, hd, hb, Or.inl ⟨rfl, rfl⟩⟩
  | false =>
    obtain ⟨hr, rngs', draws, hd, hb⟩ := restart_drew fuel call h s hown
    exact ⟨draws, rngs', hd, hb, Or.inr hr⟩

/-- Whatever is drawn from here on is drawn at or after where the streams stand. -/
theorem segments_after (fuel : Nat) (calls : List (Call F G)) :
    ∀ s : Rngs F, Owned s.rngs → ∀ a ∈ segments fuel s calls, a.2.Nodup ∧
      ∀ d ∈ a.2, ∃ r ∈ s.rngs, r.party = d.1 ∧ r.pos ≤ d.2 := by
  induction calls with
  | nil => intro s _ a ha; cases ha
  | cons call calls ih =>
    intro s hown a ha
    obtain ⟨draws, rngs', hd, hb, hrngs⟩ := call_draws fuel call s hown
    rcases List.mem_cons.mp ha with rfl | ha
    · simp only [hd, List.drop_left]
      exact ⟨hb.nodup, hb.after⟩
    · rcases hrngs with ⟨-, h⟩ | h
      · obtain ⟨hnd, hafter⟩ := ih _ (h ▸ hb.owned) a ha
        refine ⟨hnd, fun d hmem => ?_⟩
        obtain ⟨r', hr', hp', hle'⟩ := hafter d hmem
        obtain ⟨r, hr, hp, hle⟩ := hb.mono r' (h ▸ hr')
        exact ⟨r, hr, hp.trans hp', hle.trans hle'⟩
      · obtain ⟨hnd, hafter⟩ := ih _ (h ▸ hown) a ha
        exact ⟨hnd, by rw [h] at hafter; exact hafter⟩

/-! ## Top theorems -/

/-- **No stream position is drawn twice** by one call, whatever its attempts, nor
by a plain driver and any later call; a `*_with_restart` call leaves the
caller's generators where they were, so the next call starts from there. -/
theorem calls_draws (fuel : Nat) (s : Rngs F) (hown : Owned s.rngs) (calls : List (Call F G)) :
    (segments fuel s calls).Pairwise (fun a b => a.1.plain = true → a.2.Disjoint b.2) ∧
      (∀ a ∈ segments fuel s calls, a.2.Nodup) ∧
      ∀ call : Call F G, call.plain = false → (call.run fuel s).rngs = s.rngs := by
  refine ⟨?_, fun a ha => (segments_after fuel calls s hown a ha).1,
    fun call h => (restart_drew fuel call h s hown).1⟩
  induction calls generalizing s with
  | nil => exact List.Pairwise.nil
  | cons call calls ih =>
    obtain ⟨draws, rngs', hd, hb, hrngs⟩ := call_draws fuel call s hown
    have hown' : Owned (call.run fuel s).rngs := by
      rcases hrngs with ⟨-, h⟩ | h
      · exact h ▸ hb.owned
      · exact h ▸ hown
    refine List.Pairwise.cons (fun b hbmem hplain => ?_) (ih _ hown')
    obtain ⟨draws', hd', hb'⟩ := plain_drew fuel call hplain s hown
    rw [hd', List.drop_left]
    intro d hmem hmem'
    obtain ⟨r, hr, hp, hle⟩ := (segments_after fuel calls _ hown' b hbmem).2 d hmem'
    have := hb'.before d hmem r hr hp
    omega

/-! ### Two restart calls on one generator -/

section Reuse

open Secp256k1

def countingRngs : Rngs Scalar := ⟨[⟨1, fun i => (i : Scalar) + 1, 0⟩], []⟩

def fourRngs : Rngs Scalar := ⟨[1, 2, 3, 4].map fun k => ⟨k, fun i => (i : Scalar) + k, 0⟩, []⟩

/-- A key generation, one that expels party 3 and starts again, and another. -/
def fourCalls : List (Call Scalar Point) :=
  [.keygen ⟨4, 2⟩ [1], .keygenWithRestart ⟨4, 2⟩ [2] (some ⟨none, none, some 3⟩), .keygen ⟨4, 2⟩ [3]]

/-- The restart draws on, without party 3; the last call draws again what it drew first. -/
theorem calls_draws_four :
    (segments 2 fourRngs fourCalls).map (·.2) =
      [[(1, 0), (1, 1), (2, 0), (2, 1), (3, 0), (3, 1), (4, 0), (4, 1)],
        [(1, 2), (1, 3), (2, 2), (2, 3), (3, 2), (3, 3), (4, 2), (4, 3), (1, 4), (1, 5), (2, 4), (2, 5), (4, 4), (4, 5)],
        [(1, 2), (1, 3), (2, 2), (2, 3), (3, 2), (3, 3), (4, 2), (4, 3)]] ∧
      (segments 2 fourRngs fourCalls).Pairwise (fun a b => a.1.plain = true → a.2.Disjoint b.2) ∧
      (∀ a ∈ segments 2 fourRngs fourCalls, a.2.Nodup) ∧
      ∀ call ∈ fourCalls, call.plain = false → (call.run 2 fourRngs).rngs = fourRngs.rngs := by
  obtain ⟨hdisjoint, hnodup, hclones⟩ := calls_draws 2 fourRngs (show (fourRngs.rngs.map (·.party)).Nodup by decide) fourCalls
  exact ⟨by decide +kernel, hdisjoint, hnodup, fun call _ hplain => hclones call hplain⟩

/-- The record both calls return, but for its id. -/
def reusedRecord (id : U64) : Presignature Scalar Point := ⟨id, 1, 7⁻¹, 7⁻¹, 7, 7, ⟨[7]⟩, ⟨[7]⟩⟩

/-- Two `run_presign_with_restart` calls with the ids 0 and 1 on the same
generators return records of the same `u`, `R` and `r`. -/
theorem restart_reuses_nonce :
    (runPresignWithRestart ⟨1, 1⟩ [soloKey] 0 none 1 countingRngs).1 = .ok (some ([reusedRecord 0], [], 0)) ∧
      (runPresignWithRestart ⟨1, 1⟩ [soloKey] 1 none 1
        (runPresignWithRestart ⟨1, 1⟩ [soloKey] 0 none 1 countingRngs).2).1 =
          .ok (some ([reusedRecord 1], [], 1)) ∧
      ((segments 1 countingRngs ([.presignWithRestart ⟨1, 1⟩ [soloKey] 0 none,
        .presignWithRestart ⟨1, 1⟩ [soloKey] 1 none] : List (Call Scalar Point))).map (·.2)) =
          [(List.range 8).map fun i => (1, i), (List.range 8).map fun i => (1, i)] :=
  ⟨by decide +kernel, by decide +kernel, by decide +kernel⟩

end Reuse

end OhmEcdsa
