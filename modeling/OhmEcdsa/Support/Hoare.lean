import Mathlib

/-!
# Hoare triples for `ExceptT ε (StateM σ)`

`Triple I m P E`: from a state satisfying the invariant `I`, the computation `m`
ends in a state satisfying `I`, with a value satisfying `P` or an error
satisfying `E`.  One rule for each construct; the loop rule is `mapM`:

    (∀ a ∈ l, Triple I (f a) (P a) E) → Triple I (l.mapM f) (List.Forall₂ P l) E     (Triple.mapM)

`Respects R m`: the state `m` leaves, with a value or an error, is `R`-related
to the state it found, for a reflexive and transitive `R`.
-/

namespace Hoare

variable {ε σ α β : Type}

def Triple (I : σ → Prop) (m : ExceptT ε (StateM σ) α) (P : α → Prop) (E : ε → Prop) : Prop :=
  ∀ s, I s → I (m s).2 ∧
    match (m s).1 with
    | .ok a => P a
    | .error e => E e

variable {I : σ → Prop} {E : ε → Prop}

theorem Triple.pure {P : α → Prop} {a : α} (h : P a) :
    Triple I (Pure.pure a : ExceptT ε (StateM σ) α) P E :=
  fun _ hs => ⟨hs, h⟩

/-- Every computation, of nothing. -/
theorem Triple.top {m : ExceptT ε (StateM σ) α} : Triple (fun _ => True) m (fun _ => True) fun _ => True := by
  intro s _
  refine ⟨trivial, ?_⟩
  split <;> trivial

theorem Triple.throw {P : α → Prop} {e : ε} (h : E e) :
    Triple I (throw e : ExceptT ε (StateM σ) α) P E :=
  fun _ hs => ⟨hs, h⟩

theorem Triple.conseq {m : ExceptT ε (StateM σ) α} {P P' : α → Prop} {E' : ε → Prop}
    (h : Triple I m P E) (hP : ∀ a, P a → P' a) (hE : ∀ e, E e → E' e) : Triple I m P' E' := by
  intro s hs
  obtain ⟨hI, hr⟩ := h s hs
  refine ⟨hI, ?_⟩
  cases hm : (m s).1 with
  | ok a => rw [hm] at hr; exact hP a hr
  | error e => rw [hm] at hr; exact hE e hr

theorem bind_run (m : ExceptT ε (StateM σ) α) (f : α → ExceptT ε (StateM σ) β) (s : σ) :
    (m >>= f) s = match m s with
      | (.ok a, s') => f a s'
      | (.error e, s') => (.error e, s') := by
  show (ExceptT.bindCont f (m s).1) (m s).2 = _
  rcases m s with ⟨_ | _, _⟩ <;> rfl

theorem Triple.bind {m : ExceptT ε (StateM σ) α} {f : α → ExceptT ε (StateM σ) β} {P : α → Prop}
    {Q : β → Prop} (h : Triple I m P E) (hf : ∀ a, P a → Triple I (f a) Q E) :
    Triple I (m >>= f) Q E := by
  intro s hs
  obtain ⟨hI, hr⟩ := h s hs
  rw [bind_run]
  rcases hm : m s with ⟨a | a, s'⟩ <;> rw [hm] at hI hr
  · exact ⟨hI, hr⟩
  · exact hf a hr s' hI

/-- A computation that touches no state. -/
def lift (x : Except ε α) : ExceptT ε (StateM σ) α := fun s => (x, s)

theorem adapt_run {δ : Type} (f : ε → δ) (m : ExceptT ε (StateM σ) α) (s : σ) :
    (ExceptT.adapt f m : ExceptT δ (StateM σ) α) s = ((m s).1.mapError f, (m s).2) := by
  show (Except.mapError f <$> m : StateM σ _) s = _
  rfl

theorem lift_bind_run (x : Except ε α) (f : α → ExceptT ε (StateM σ) β) (s : σ) :
    (lift x >>= f) s = match x with
      | .ok a => f a s
      | .error e => (.error e, s) := by
  rw [bind_run]
  cases x <;> rfl

theorem Triple.lift {x : Except ε α} {P : α → Prop} (hok : ∀ a, x = .ok a → P a)
    (herr : ∀ e, x = .error e → E e) : Triple I (lift x : ExceptT ε (StateM σ) α) P E := by
  intro s hs
  refine ⟨hs, ?_⟩
  cases x with
  | ok a => exact hok a rfl
  | error e => exact herr e rfl

theorem Triple.get_bind {f : σ → ExceptT ε (StateM σ) α} {P : α → Prop}
    (h : ∀ s, I s → Triple I (f s) P E) : Triple I (get >>= f) P E :=
  fun s hs => h s hs s hs

/-- A step known to return `a`. -/
theorem Triple.lift_bind {x : Except ε α} {a : α} {f : α → ExceptT ε (StateM σ) β} {P : β → Prop}
    (hx : x = .ok a) (h : Triple I (f a) P E) : Triple I (Hoare.lift x >>= f) P E := by
  refine (Triple.lift (P := fun b => b = a) (fun b hb => ?_) (fun e he => ?_)).bind fun b hb => hb ▸ h
  · rw [hx] at hb
    exact (Except.ok.inj hb).symm
  · rw [hx] at he
    cases he

/-- A computation that cannot fail returns. -/
theorem Triple.ok {m : ExceptT ε (StateM σ) α} {P : α → Prop} (h : Triple I m P fun _ => False) {s : σ} (hs : I s) :
    ∃ a s', m s = (.ok a, s') ∧ I s' ∧ P a := by
  obtain ⟨hI, hr⟩ := h s hs
  rcases hm : m s with ⟨e | a, s'⟩ <;> rw [hm] at hI hr
  · exact hr.elim
  · exact ⟨a, s', rfl, hI, hr⟩

/-- Past a step whose result is known. -/
theorem Triple.bind_ok {m : ExceptT ε (StateM σ) α} {f : α → ExceptT ε (StateM σ) β} {P : β → Prop} {s s₁ : σ}
    {a : α} (hm : m s = (.ok a, s₁)) (hs : I s₁) (hf : Triple I (f a) P fun _ => False) :
    ∃ b s', (m >>= f) s = (.ok b, s') ∧ I s' ∧ P b := by
  obtain ⟨b, s', hrun, hrest⟩ := hf.ok hs
  refine ⟨b, s', ?_, hrest⟩
  rw [bind_run, hm]
  exact hrun

theorem Triple.mapM {f : α → ExceptT ε (StateM σ) β} {P : α → β → Prop} (l : List α)
    (h : ∀ a ∈ l, Triple I (f a) (P a) E) : Triple I (l.mapM f) (List.Forall₂ P l) E := by
  induction l with
  | nil => exact Triple.pure List.Forall₂.nil
  | cons a l ih =>
    rw [List.mapM_cons]
    refine (h a List.mem_cons_self).bind fun b hb => ?_
    refine (ih fun c hc => h c (List.mem_cons_of_mem _ hc)).bind fun bs hbs => ?_
    exact Triple.pure (List.Forall₂.cons hb hbs)

/-! ## Effects within a preorder -/

def Respects (R : σ → σ → Prop) (m : ExceptT ε (StateM σ) α) : Prop := ∀ s, R s (m s).2

section Preorder

variable {R : σ → σ → Prop} (hrefl : ∀ s, R s s) (htrans : ∀ s₁ s₂ s₃, R s₁ s₂ → R s₂ s₃ → R s₁ s₃)

include hrefl

theorem Respects.pure (a : α) : Respects R (Pure.pure a : ExceptT ε (StateM σ) α) := fun s => hrefl s

theorem Respects.lift (x : Except ε α) : Respects R (lift x : ExceptT ε (StateM σ) α) := fun s => hrefl s

theorem Respects.get : Respects R (get : ExceptT ε (StateM σ) σ) := fun s => hrefl s

omit hrefl
include htrans

theorem Respects.bind {m : ExceptT ε (StateM σ) α} {f : α → ExceptT ε (StateM σ) β}
    (hm : Respects R m) (hf : ∀ a, Respects R (f a)) : Respects R (m >>= f) := by
  intro s
  have h := hm s
  rw [bind_run]
  rcases hr : m s with ⟨a | a, s'⟩ <;> rw [hr] at h
  · exact h
  · exact htrans _ _ _ h (hf a s')

include hrefl

theorem Respects.mapM {f : α → ExceptT ε (StateM σ) β} (l : List α) (hf : ∀ a, Respects R (f a)) :
    Respects R (l.mapM f) := by
  induction l with
  | nil => exact Respects.pure hrefl _
  | cons a l ih =>
    rw [List.mapM_cons]
    refine Respects.bind htrans (hf a) fun b => ?_
    exact Respects.bind htrans ih fun bs => Respects.pure hrefl _

end Preorder

/-! ## Loops in `Except` -/

theorem ok_of_bind {x : Except ε α} {f : α → Except ε β} {b : β} (h : (x >>= f) = .ok b) :
    ∃ a, x = .ok a ∧ f a = .ok b := by
  cases x with
  | error e => cases h
  | ok a => exact ⟨a, rfl, h⟩

theorem map_fst_zipIdx (f : α → β) (l : List α) (k : Nat := 0) :
    ((l.zipIdx k).map fun e => f e.1) = l.map f := by
  induction l generalizing k with
  | nil => rfl
  | cons a l ih => simp [ih]

theorem mapM_ok_of (f : α → Except ε β) (g : α → β) (l : List α)
    (h : ∀ a ∈ l, f a = .ok (g a)) : l.mapM f = .ok (l.map g) := by
  induction l with
  | nil => rfl
  | cons a l ih =>
    rw [List.mapM_cons, h a List.mem_cons_self, ih fun b hb => h b (List.mem_cons_of_mem _ hb)]
    rfl

theorem mapM_zipIdx_ok (f : α × Nat → Except ε β) (g : α → β) (l : List α)
    (h : ∀ e ∈ l.zipIdx, f e = .ok (g e.1)) : l.zipIdx.mapM f = .ok (l.map g) := by
  rw [← map_fst_zipIdx g l]
  exact mapM_ok_of f _ _ h

theorem mapM_error_of (f : α → Except ε β) (e : ε) (l : List α) (hne : l ≠ []) (h : ∀ a ∈ l, f a = .error e) :
    l.mapM f = .error e := by
  obtain ⟨a, l, rfl⟩ := List.exists_cons_of_ne_nil hne
  rw [List.mapM_cons, h a List.mem_cons_self]
  rfl

theorem mapM_congr {f g : α → Except ε β} (l : List α) (h : ∀ a ∈ l, f a = g a) : l.mapM f = l.mapM g := by
  induction l with
  | nil => rfl
  | cons a l ih =>
    rw [List.mapM_cons, List.mapM_cons, h a List.mem_cons_self, ih fun b hb => h b (List.mem_cons_of_mem _ hb)]

theorem foldlM_ok_of {γ : Type} (f : γ → α → Except ε γ) (g : γ → α → γ) (l : List α)
    (h : ∀ a ∈ l, ∀ c, f c a = .ok (g c a)) (c : γ) : l.foldlM f c = .ok (l.foldl g c) := by
  induction l generalizing c with
  | nil => rfl
  | cons a l ih =>
    rw [List.foldlM_cons, h a List.mem_cons_self]
    exact ih (fun b hb => h b (List.mem_cons_of_mem _ hb)) _

/-- A loop whose body keeps an invariant and does not fail. -/
theorem foldlM_inv {γ : Type} {J : γ → Prop} {f : γ → α → Except ε γ} (l : List α)
    (h : ∀ a ∈ l, ∀ c, J c → ∃ c', f c a = .ok c' ∧ J c') (c : γ) (hc : J c) : ∃ c', l.foldlM f c = .ok c' ∧ J c' := by
  induction l generalizing c with
  | nil => exact ⟨c, rfl, hc⟩
  | cons a l ih =>
    obtain ⟨c₁, hrun, hc₁⟩ := h a List.mem_cons_self c hc
    rw [List.foldlM_cons, hrun]
    exact ih (fun b hb => h b (List.mem_cons_of_mem _ hb)) c₁ hc₁

theorem forM_ok_of (f : α → Except ε Unit) (l : List α) (h : ∀ a ∈ l, f a = .ok ()) :
    l.forM f = .ok () := by
  induction l with
  | nil => rfl
  | cons a l ih =>
    show (f a >>= fun _ => l.forM f) = _
    rw [h a List.mem_cons_self]
    exact ih fun b hb => h b (List.mem_cons_of_mem _ hb)

/-- A loop that fails does so at one of its elements. -/
theorem mapM_error_mem (f : α → Except ε β) (l : List α) {e : ε} (h : l.mapM f = .error e) : ∃ a ∈ l, f a = .error e := by
  induction l with
  | nil => cases h
  | cons a l ih =>
    rw [List.mapM_cons] at h
    cases ha : f a with
    | error e' =>
      rw [ha] at h
      exact ⟨a, List.mem_cons_self, by rw [ha, Except.error.inj h]⟩
    | ok b =>
      rw [ha] at h
      cases hl : l.mapM f with
      | error e' =>
        simp only [bind, Except.bind, hl] at h
        obtain rfl := Except.error.inj h
        obtain ⟨a', ha', hrun⟩ := ih hl
        exact ⟨a', List.mem_cons_of_mem _ ha', hrun⟩
      | ok bs =>
        simp only [bind, Except.bind, hl] at h
        cases h

/-- A loop returns when no element fails, and else stops at the first that does. -/
theorem mapM_find (f : α → Except ε β) (bad : α → Bool) (l : List α)
    (hok : ∀ a ∈ l, bad a = false → ∃ b, f a = .ok b) (hbad : ∀ a ∈ l, bad a = true → ∃ e, f a = .error e) :
    (∃ a ∈ l, l.find? bad = some a ∧ ∃ e, f a = .error e ∧ l.mapM f = .error e) ∨
      (l.find? bad = none ∧ ∃ l', l.mapM f = .ok l') := by
  induction l with
  | nil => exact Or.inr ⟨rfl, [], rfl⟩
  | cons a l ih =>
    have ih := ih (fun b hb => hok b (List.mem_cons_of_mem _ hb)) fun b hb => hbad b (List.mem_cons_of_mem _ hb)
    rw [List.find?_cons, List.mapM_cons]
    cases hb : bad a with
    | true =>
      obtain ⟨e, he⟩ := hbad a List.mem_cons_self hb
      refine Or.inl ⟨a, List.mem_cons_self, rfl, e, he, ?_⟩
      rw [he]
      rfl
    | false =>
      obtain ⟨b, hb⟩ := hok a List.mem_cons_self hb
      rw [hb]
      rcases ih with ⟨a', ha', hf, e, he, hl⟩ | ⟨hf, l', hl⟩
      · refine Or.inl ⟨a', List.mem_cons_of_mem _ ha', hf, e, he, ?_⟩
        simp only [bind, Except.bind, hl]
      · refine Or.inr ⟨hf, b :: l', ?_⟩
        simp only [bind, Except.bind, hl]
        rfl

/-- A loop of checks stops at the first element that fails. -/
theorem forM_eq_find (f : α → Except ε Unit) (bad : α → Bool) (l : List α)
    (hok : ∀ a ∈ l, bad a = false → f a = .ok ()) (hbad : ∀ a ∈ l, bad a = true → ∃ e, f a = .error e) :
    l.forM f = match l.find? bad with
      | some a => f a
      | none => .ok () := by
  induction l with
  | nil => rfl
  | cons a l ih =>
    have ih := ih (fun b hb => hok b (List.mem_cons_of_mem _ hb)) fun b hb => hbad b (List.mem_cons_of_mem _ hb)
    show (f a >>= fun _ => l.forM f) = _
    rw [List.find?_cons]
    cases hb : bad a with
    | true =>
      obtain ⟨e, he⟩ := hbad a List.mem_cons_self hb
      simp only [he]
      rfl
    | false =>
      rw [hok a List.mem_cons_self hb]
      exact ih

theorem forall₂_of_mapM_ok (f : α → Except ε β) (l : List α) {l' : List β} (h : l.mapM f = .ok l') :
    List.Forall₂ (fun a b => f a = .ok b) l l' := by
  induction l generalizing l' with
  | nil => cases h; exact List.Forall₂.nil
  | cons a l ih =>
    rw [List.mapM_cons] at h
    cases ha : f a with
    | error e => rw [ha] at h; cases h
    | ok b =>
      rw [ha] at h
      cases hl : l.mapM f with
      | error e => simp only [bind, Except.bind, hl] at h; cases h
      | ok bs =>
        simp only [bind, Except.bind, hl] at h
        cases h
        exact List.Forall₂.cons ha (ih hl)

/-! ## What `Forall₂` says of the results of a loop -/

theorem forall₂_exists_left {R : α → β → Prop} {l : List α} {l' : List β} (h : List.Forall₂ R l l')
    {b : β} (hb : b ∈ l') : ∃ a ∈ l, R a b := by
  induction h with
  | nil => cases hb
  | cons hab _ ih =>
    rcases List.mem_cons.mp hb with rfl | hb
    · exact ⟨_, List.mem_cons_self, hab⟩
    · obtain ⟨a, ha, hr⟩ := ih hb
      exact ⟨a, List.mem_cons_of_mem _ ha, hr⟩

theorem forall₂_map_eq {γ : Type} {f : α → γ} {g : β → γ} {l : List α} {l' : List β}
    (h : List.Forall₂ (fun a b => f a = g b) l l') : l.map f = l'.map g := by
  induction h with
  | nil => rfl
  | cons hab _ ih => rw [List.map_cons, List.map_cons, hab, ih]

/-- Over distinct keys the results are a function of the key. -/
theorem forall₂_exists_map [DecidableEq α] [Nonempty β] {R : α → β → Prop} {l : List α} {l' : List β}
    (hnd : l.Nodup) (h : List.Forall₂ R l l') : ∃ f : α → β, l' = l.map f ∧ ∀ a ∈ l, R a (f a) := by
  induction h with
  | nil => exact ⟨fun _ => Classical.arbitrary β, rfl, fun a ha => by cases ha⟩
  | @cons a b l l' hab _ ih =>
    obtain ⟨hnot, hnd⟩ := List.nodup_cons.mp hnd
    obtain ⟨f, hf, hR⟩ := ih hnd
    have hne : ∀ c ∈ l, c ≠ a := fun c hc hca => hnot (hca ▸ hc)
    refine ⟨Function.update f a b, ?_, ?_⟩
    · rw [List.map_cons, Function.update_self, hf]
      congr 1
      exact List.map_congr_left fun c hc => (Function.update_of_ne (hne c hc) _ _).symm
    · intro c hc
      rcases List.mem_cons.mp hc with rfl | hc
      · rwa [Function.update_self]
      · rw [Function.update_of_ne (hne c hc)]
        exact hR c hc

theorem forall₂_zipIdx {R : α → β → Prop} {l : List α} {l' : List β}
    (h : List.Forall₂ (fun e b => R e.1 b) l.zipIdx l') : List.Forall₂ R l l' := by
  rw [← List.zipIdx_map_fst 0 l, List.forall₂_map_left_iff]
  exact h

end Hoare
