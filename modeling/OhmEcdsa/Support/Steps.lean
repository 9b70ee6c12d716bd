import OhmEcdsa.Support.Hoare

/-!
# Programs that take durable steps

A program changes its world by steps, each durable when it returns.  The log keeps every
step with the world it was taken in, so that a run can be cut short at any of them.

`Goes C s m P E`: from the world `s`, `m` takes only steps that satisfy `C`, and ends with
a value and a world in `P`, or a fault and a world in `E`:

    Goes C s m P E → (∀ a s', P a s' → Goes C s' (f a) Q E) → Goes C s (m >>= f) Q E     (Goes.bind)

A loop is done by an invariant over the elements behind it (`Goes.foldlM`), and a step that
a run is cut at satisfies `C` (`Goes.cut`).
-/

namespace Hoare

variable {ε σ τ α β γ : Type}

/-- The world now, and each step taken so far with the world before it. -/
structure Trace (σ τ : Type) where
  now : σ
  past : List (σ × τ)

abbrev StepM (ε σ τ α : Type) := ExceptT ε (StateM (Trace σ τ)) α

def readNow : StepM ε σ τ σ := fun s => (.ok s.now, s)

def takeStep (apply : τ → σ → Option σ) (fault : ε) (t : τ) : StepM ε σ τ Unit := fun s =>
  match apply t s.now with
  | some s' => (.ok (), ⟨s', s.past ++ [(s.now, t)]⟩)
  | none => (.error fault, s)

/-- The result of `m` as a value. -/
def attempt (m : StepM ε σ τ α) : StepM ε σ τ (Except ε α) := fun s => (.ok (m s).1, (m s).2)

/-- The `k`-th step of `m`, and the world it is taken in. -/
def cutAt (m : StepM ε σ τ α) (s : σ) (k : Nat) : Option (σ × τ) := (m ⟨s, []⟩).2.past[k]?

/-- What `m` comes to, and the world it leaves. -/
def outcome (m : StepM ε σ τ α) (s : σ) : Except ε α × σ := ((m ⟨s, []⟩).1, (m ⟨s, []⟩).2.now)

/-- What `m` returns, and the world it leaves, unless it faults. -/
def completed (m : StepM ε σ τ α) (s : σ) : Option (α × σ) :=
  match m ⟨s, []⟩ with
  | (.ok a, s') => some (a, s'.now)
  | (.error _, _) => none

/-- A step between two worlds in `W`. -/
def Passes (apply : τ → σ → Option σ) (W : σ → Prop) (s : σ) (t : τ) : Prop := W s ∧ ∃ s', apply t s = some s' ∧ W s'

theorem Passes.mono {apply : τ → σ → Option σ} {W W' : σ → Prop} {s : σ} {t : τ} (h : Passes apply W s t)
    (hW : ∀ s, W s → W' s) : Passes apply W' s t := by
  obtain ⟨hs, s', happly, hs'⟩ := h
  exact ⟨hW s hs, s', happly, hW s' hs'⟩

def Goes (C : σ → τ → Prop) (s : σ) (m : StepM ε σ τ α) (P : α → σ → Prop) (E : ε → σ → Prop) : Prop :=
  ∀ past, ∃ steps, (m ⟨s, past⟩).2.past = past ++ steps ∧ (∀ e ∈ steps, C e.1 e.2) ∧
    match (m ⟨s, past⟩).1 with
    | .ok a => P a (m ⟨s, past⟩).2.now
    | .error e => E e (m ⟨s, past⟩).2.now

namespace Goes

variable {C : σ → τ → Prop} {s : σ} {m : StepM ε σ τ α} {P : α → σ → Prop} {E : ε → σ → Prop}

theorem pure {a : α} (h : P a s) : Goes C s (Pure.pure a : StepM ε σ τ α) P E :=
  fun past => ⟨[], (List.append_nil past).symm, by simp, h⟩

theorem throw {e : ε} (h : E e s) : Goes C s (throw e : StepM ε σ τ α) P E :=
  fun past => ⟨[], (List.append_nil past).symm, by simp, h⟩

theorem lift {x : Except ε α} (hok : ∀ a, x = .ok a → P a s) (herr : ∀ e, x = .error e → E e s) :
    Goes C s (Hoare.lift x : StepM ε σ τ α) P E := by
  intro past
  refine ⟨[], (List.append_nil past).symm, by simp, ?_⟩
  cases x with
  | ok a => exact hok a rfl
  | error e => exact herr e rfl

theorem read {P : σ → σ → Prop} (h : P s s) : Goes C s (readNow : StepM ε σ τ σ) P E :=
  fun past => ⟨[], (List.append_nil past).symm, by simp, h⟩

theorem step {apply : τ → σ → Option σ} {fault : ε} {t : τ} {s' : σ} {P : Unit → σ → Prop}
    (happly : apply t s = some s') (hC : C s t) (h : P () s') : Goes C s (takeStep apply fault t) P E := by
  intro past
  unfold takeStep
  simp only [happly]
  refine ⟨[(s, t)], rfl, fun e he => ?_, h⟩
  rw [List.mem_singleton.mp he]
  exact hC

/-- A step that may be refused. -/
theorem step_or {apply : τ → σ → Option σ} {fault : ε} {t : τ} {P : Unit → σ → Prop} (hE : E fault s)
    (h : ∀ s', apply t s = some s' → C s t ∧ P () s') : Goes C s (takeStep apply fault t) P E := by
  cases happly : apply t s with
  | some s' =>
    obtain ⟨hC, hP⟩ := h s' happly
    exact step happly hC hP
  | none =>
    intro past
    unfold takeStep
    simp only [happly]
    exact ⟨[], (List.append_nil past).symm, by simp, hE⟩

/-- A step that may be refused, between worlds in `W`. -/
theorem step_passes {apply : τ → σ → Option σ} {W : σ → Prop} {fault : ε} {t : τ} {P : Unit → σ → Prop} (hs : W s)
    (hE : E fault s) (h : ∀ s', apply t s = some s' → W s' ∧ P () s') :
    Goes (Passes apply W) s (takeStep apply fault t) P E :=
  step_or hE fun s' happly => ⟨⟨hs, s', happly, (h s' happly).1⟩, (h s' happly).2⟩

theorem bind {f : α → StepM ε σ τ β} {Q : β → σ → Prop} (h : Goes C s m P E)
    (hf : ∀ a s', P a s' → Goes C s' (f a) Q E) : Goes C s (m >>= f) Q E := by
  intro past
  obtain ⟨first, hpast, hfirst, hr⟩ := h past
  rw [bind_run]
  rcases hm : m ⟨s, past⟩ with ⟨e | a, ⟨s', past'⟩⟩ <;> rw [hm] at hpast hr
  · exact ⟨first, hpast, hfirst, hr⟩
  · obtain ⟨second, hpast', hsecond, hr'⟩ := hf a s' hr past'
    refine ⟨first ++ second, ?_, fun e he => ?_, hr'⟩
    · rw [hpast', show past' = past ++ first from hpast, List.append_assoc]
    · rcases List.mem_append.mp he with he | he
      · exact hfirst e he
      · exact hsecond e he

theorem conseq {C' : σ → τ → Prop} {P' : α → σ → Prop} {E' : ε → σ → Prop} (h : Goes C s m P E)
    (hC : ∀ s t, C s t → C' s t) (hP : ∀ a s, P a s → P' a s) (hE : ∀ e s, E e s → E' e s) :
    Goes C' s m P' E' := by
  intro past
  obtain ⟨steps, hpast, hsteps, hr⟩ := h past
  refine ⟨steps, hpast, fun e he => hC _ _ (hsteps e he), ?_⟩
  cases hm : (m ⟨s, past⟩).1 with
  | ok a =>
    rw [hm] at hr
    exact hP _ _ hr
  | error e =>
    rw [hm] at hr
    exact hE _ _ hr

theorem attempt {Q : Except ε α → σ → Prop} {D : ε → σ → Prop} (h : Goes C s m P E) (hok : ∀ a s, P a s → Q (.ok a) s)
    (herr : ∀ e s, E e s → Q (.error e) s) : Goes C s (Hoare.attempt m) Q D := by
  intro past
  obtain ⟨steps, hpast, hsteps, hr⟩ := h past
  refine ⟨steps, hpast, hsteps, ?_⟩
  show Q (m ⟨s, past⟩).1 (m ⟨s, past⟩).2.now
  cases hm : (m ⟨s, past⟩).1 with
  | ok a =>
    rw [hm] at hr
    exact hok _ _ hr
  | error e =>
    rw [hm] at hr
    exact herr _ _ hr

/-- A loop keeps an invariant over the elements behind it. -/
theorem foldlM {J : List β → γ → σ → Prop} {f : γ → β → StepM ε σ τ γ} (l : List β) {c : γ} (hs : J [] c s)
    (h : ∀ behind x rest c s, l = behind ++ x :: rest → J behind c s → Goes C s (f c x) (J (behind ++ [x])) E) :
    Goes C s (l.foldlM f c) (J l) E := by
  have hrest : ∀ (rest behind : List β) (c : γ) (s : σ), l = behind ++ rest → J behind c s →
      Goes C s (rest.foldlM f c) (J l) E := by
    intro rest
    induction rest with
    | nil =>
      intro behind c s hl hs
      rw [List.append_nil] at hl
      subst hl
      exact pure hs
    | cons x rest ih =>
      intro behind c s hl hs
      rw [List.foldlM_cons]
      refine (h behind x rest c s hl hs).bind fun c' s' hs' => ?_
      refine ih (behind ++ [x]) c' s' ?_ hs'
      rw [hl, List.append_assoc, List.singleton_append]
  exact hrest l [] c s rfl hs

theorem forM {J : List β → σ → Prop} {f : β → StepM ε σ τ PUnit} (l : List β) (hs : J [] s)
    (h : ∀ behind x rest s, l = behind ++ x :: rest → J behind s → Goes C s (f x) (fun _ => J (behind ++ [x])) E) :
    Goes C s (l.forM f) (fun _ => J l) E := by
  have hrest : ∀ (rest behind : List β) (s : σ), l = behind ++ rest → J behind s →
      Goes C s (rest.forM f) (fun _ => J l) E := by
    intro rest
    induction rest with
    | nil =>
      intro behind s hl hs
      rw [List.append_nil] at hl
      subst hl
      exact pure hs
    | cons x rest ih =>
      intro behind s hl hs
      show Goes C s (f x >>= fun _ => rest.forM f) _ E
      refine (h behind x rest s hl hs).bind fun _ s' hs' => ?_
      refine ih (behind ++ [x]) s' ?_ hs'
      rw [hl, List.append_assoc, List.singleton_append]
  exact hrest l [] s rfl hs

/-- How a run from `s` ends. -/
theorem ends (h : Goes C s m P E) : match m ⟨s, []⟩ with
    | (.ok a, s') => P a s'.now
    | (.error e, s') => E e s'.now := by
  obtain ⟨-, -, -, hr⟩ := h []
  rcases hm : m ⟨s, []⟩ with ⟨e | a, s'⟩ <;> rw [hm] at hr <;> exact hr

theorem of_completed (h : Goes C s m P E) {a : α} {s' : σ} (hm : completed m s = some (a, s')) : P a s' := by
  have hr := h.ends
  unfold completed at hm
  rcases hrun : m ⟨s, []⟩ with ⟨e | a', s''⟩ <;> rw [hrun] at hr hm <;> cases hm
  exact hr

theorem of_outcome (h : Goes C s m P E) : match outcome m s with
    | (.ok a, s') => P a s'
    | (.error e, s') => E e s' := by
  have hr := h.ends
  unfold outcome
  rcases hrun : m ⟨s, []⟩ with ⟨e | a, s'⟩ <;> rw [hrun] at hr <;> exact hr

theorem outcome_of_completed {a : α} {s' : σ} (h : completed m s = some (a, s')) : outcome m s = (.ok a, s') := by
  unfold completed at h
  unfold outcome
  rcases hrun : m ⟨s, []⟩ with ⟨e | a', s''⟩ <;> rw [hrun] at h <;> cases h
  rfl

/-- A run that cannot end in a fault returns. -/
theorem completes (h : Goes C s m P E) (hE : ∀ e s', ¬ E e s') : ∃ a s', completed m s = some (a, s') ∧ P a s' := by
  have hr := h.ends
  unfold completed
  rcases hrun : m ⟨s, []⟩ with ⟨e | a, s'⟩ <;> rw [hrun] at hr
  · exact absurd hr (hE e _)
  · exact ⟨a, s'.now, rfl, hr⟩

/-- **Where a run is cut**, `C` holds. -/
theorem cut (h : Goes C s m P E) {k : Nat} {s' : σ} {t : τ} (hk : cutAt m s k = some (s', t)) : C s' t := by
  obtain ⟨steps, hpast, hsteps, -⟩ := h []
  unfold cutAt at hk
  rw [hpast, List.nil_append] at hk
  exact hsteps _ (List.mem_of_getElem? hk)

end Goes

end Hoare
