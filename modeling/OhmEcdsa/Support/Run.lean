import Mathlib

/-!
# Runs of a step function

`Run step ok s as s'`: `step` takes `s` to `s'` along the actions `as`, and `ok`
holds of each action in the state it is taken in.  A predicate every such step
keeps holds at the end:

    (∀ s a s', I s → ok s a → step s a = some s' → I s') → I s → I s'     (Run.invariant)
-/

namespace Transition

variable {σ α : Type*} {step : σ → α → Option σ} {ok : σ → α → Prop}

/-- The step, of the actions that are allowed. -/
def guarded (step : σ → α → Option σ) (ok : σ → α → Prop) [∀ s a, Decidable (ok s a)] (s : σ) (a : α) : Option σ :=
  if ok s a then step s a else none

inductive Run (step : σ → α → Option σ) (ok : σ → α → Prop) : σ → List α → σ → Prop
  | nil (s : σ) : Run step ok s [] s
  | cons {s s' s'' : σ} {a : α} {as : List α} (hok : ok s a) (hstep : step s a = some s')
      (hrun : Run step ok s' as s'') : Run step ok s (a :: as) s''

namespace Run

theorem invariant {I : σ → Prop} (hI : ∀ s a s', I s → ok s a → step s a = some s' → I s') {s s' : σ}
    {as : List α} (hrun : Run step ok s as s') (hs : I s) : I s' := by
  induction hrun with
  | nil s => exact hs
  | cons hok hstep _ ih => exact ih (hI _ _ _ hs hok hstep)

theorem append {s s' s'' : σ} {as bs : List α} (h : Run step ok s as s') (h' : Run step ok s' bs s'') :
    Run step ok s (as ++ bs) s'' := by
  induction h with
  | nil s => exact h'
  | cons hok hstep _ ih => exact Run.cons hok hstep (ih h')

/-- A property of the actions so far and the state they led to. -/
theorem history {s : σ} {J : List α → σ → Prop} (hnil : J [] s)
    (hJ : ∀ as s₁ a s₂, Run step ok s as s₁ → J as s₁ → ok s₁ a → step s₁ a = some s₂ → J (as ++ [a]) s₂)
    {s' : σ} {as : List α} (hrun : Run step ok s as s') : J as s' := by
  have hfrom : ∀ {s₁ s₂ : σ} {pre bs : List α}, Run step ok s pre s₁ → J pre s₁ → Run step ok s₁ bs s₂ →
      J (pre ++ bs) s₂ := by
    intro s₁ s₂ pre bs hpre hj hrest
    induction hrest generalizing pre with
    | nil => rwa [List.append_nil]
    | @cons s₁ s₂ _ a bs hok hstep _ ih =>
      have hone : Run step ok s (pre ++ [a]) s₂ := hpre.append (Run.cons hok hstep (Run.nil s₂))
      have hnext := ih hone (hJ pre s₁ a s₂ hpre hj hok hstep)
      rwa [List.append_assoc] at hnext
  exact hfrom (Run.nil s) hnil hrun

theorem mono {ok' : σ → α → Prop} (h : ∀ s a, ok s a → ok' s a) {s s' : σ} {as : List α}
    (hrun : Run step ok s as s') : Run step ok' s as s' := by
  induction hrun with
  | nil s => exact Run.nil s
  | cons hok hstep _ ih => exact Run.cons (h _ _ hok) hstep ih

/-- What holds of the actions may be asked of each step. -/
theorem among {p : α → Prop} {s s' : σ} {as : List α} (hrun : Run step ok s as s') (hp : ∀ a ∈ as, p a) :
    Run step (fun s a => ok s a ∧ p a) s as s' := by
  induction hrun with
  | nil s => exact Run.nil s
  | cons hok hstep _ ih =>
    obtain ⟨ha, has⟩ := List.forall_mem_cons.mp hp
    exact Run.cons ⟨hok, ha⟩ hstep (ih has)

/-- A run is the fold of the allowed steps. -/
theorem iff_foldlM [∀ s a, Decidable (ok s a)] (s s' : σ) (as : List α) :
    Run step ok s as s' ↔ as.foldlM (guarded step ok) s = some s' := by
  induction as generalizing s with
  | nil =>
    rw [List.foldlM_nil]
    constructor
    · rintro ⟨⟩
      rfl
    · rintro ⟨⟩
      exact Run.nil _
  | cons a as ih =>
    rw [List.foldlM_cons, Option.bind_eq_bind, Option.bind_eq_some_iff]
    constructor
    · rintro (_ | ⟨hok, hstep, hrun⟩)
      exact ⟨_, by rw [guarded, if_pos hok, hstep], (ih _).mp hrun⟩
    · rintro ⟨s1, hs1, hfold⟩
      unfold guarded at hs1
      by_cases hok : ok s a
      · rw [if_pos hok] at hs1
        exact Run.cons hok hs1 ((ih _).mpr hfold)
      · rw [if_neg hok] at hs1
        cases hs1

/-- A fold of steps whose actions are all allowed. -/
theorem of_foldlM {s s' : σ} {as : List α} (hok : ∀ a ∈ as, ∀ s, ok s a) (h : as.foldlM step s = some s') :
    Run step ok s as s' := by
  induction as generalizing s with
  | nil =>
    obtain rfl := Option.some.inj h
    exact Run.nil _
  | cons a as ih =>
    rw [List.foldlM_cons, Option.bind_eq_bind, Option.bind_eq_some_iff] at h
    obtain ⟨s1, hs1, hfold⟩ := h
    exact Run.cons (hok a List.mem_cons_self s) hs1 (ih (fun b hb => hok b (List.mem_cons_of_mem _ hb)) hfold)

end Run

end Transition
