import OhmEcdsa.Support.Hoare

/-!
# What a computation logs, and how it fails

`Follows out plan m`: what `m` appends to the log `out` of the state are entries of
`plan`, in order, some of them left out.  Plans are put together as programs are:

    Follows out plan m → (∀ a, Follows out rest (f a)) → Follows out (plan ++ rest) (m >>= f)     (Follows.bind)

`Fails E x`: a failure of `x` satisfies `E`.

`Within out log m P`: a run of `m` whose whole log is in `log` returns in `P`, so that
what is known of a finished log can be used where it is written:

    Within out log m P → (∀ a, Within out log (f a) (P a → Q ·)) → Within out log (m >>= f) Q     (Within.bind)
-/

namespace Hoare

variable {ε σ α β κ : Type}

def Follows (out : σ → List κ) (plan : List κ) (m : ExceptT ε (StateM σ) α) : Prop :=
  ∀ s, ∃ entries, out (m s).2 = out s ++ entries ∧ entries.Sublist plan

namespace Follows

variable {out : σ → List κ} {plan rest : List κ} {m : ExceptT ε (StateM σ) α}

theorem of_silent (h : ∀ s, out (m s).2 = out s) : Follows out [] m :=
  fun s => ⟨[], by rw [h, List.append_nil], List.Sublist.refl _⟩

theorem pure (a : α) : Follows out [] (Pure.pure a : ExceptT ε (StateM σ) α) := of_silent fun _ => rfl

theorem throw (e : ε) : Follows out [] (throw e : ExceptT ε (StateM σ) α) := of_silent fun _ => rfl

theorem lift (x : Except ε α) : Follows out [] (Hoare.lift x : ExceptT ε (StateM σ) α) := of_silent fun _ => rfl

theorem mono (h : Follows out plan m) (hsub : plan.Sublist rest) : Follows out rest m := by
  intro s
  obtain ⟨entries, hout, hentries⟩ := h s
  exact ⟨entries, hout, hentries.trans hsub⟩

/-- The rest of the program may rest on what the step ends with. -/
theorem bind_of {f : α → ExceptT ε (StateM σ) β} {P : α → Prop} {E : ε → Prop} (hm : Follows out plan m)
    (hP : Triple (fun _ => True) m P E) (hf : ∀ a, P a → Follows out rest (f a)) :
    Follows out (plan ++ rest) (m >>= f) := by
  intro s
  obtain ⟨first, hfirst, hsub⟩ := hm s
  obtain ⟨-, hpost⟩ := hP s trivial
  rw [bind_run]
  rcases hrun : m s with ⟨e | a, s'⟩ <;> rw [hrun] at hfirst hpost
  · exact ⟨first, hfirst, hsub.trans (List.sublist_append_left _ _)⟩
  · obtain ⟨second, hsecond, hsub'⟩ := hf a hpost s'
    refine ⟨first ++ second, ?_, hsub.append hsub'⟩
    rw [hsecond, hfirst, List.append_assoc]

theorem bind {f : α → ExceptT ε (StateM σ) β} (hm : Follows out plan m) (hf : ∀ a, Follows out rest (f a)) :
    Follows out (plan ++ rest) (m >>= f) := by
  refine hm.bind_of (P := fun _ => True) (E := fun _ => True) (fun s _ => ⟨trivial, ?_⟩) fun a _ => hf a
  split <;> trivial

/-- A step that logs nothing. -/
theorem bind_silent {f : α → ExceptT ε (StateM σ) β} (hm : Follows out [] m) (hf : ∀ a, Follows out plan (f a)) :
    Follows out plan (m >>= f) := hm.bind hf

/-- A last step that logs nothing. -/
theorem bind_last {f : α → ExceptT ε (StateM σ) β} (hm : Follows out plan m) (hf : ∀ a, Follows out [] (f a)) :
    Follows out plan (m >>= f) := by
  have h := hm.bind hf
  rwa [List.append_nil] at h

/-- A plan need not be used. -/
theorem idle (h : Follows out [] m) : Follows out plan m := h.mono (List.nil_sublist _)

theorem ite {c : Prop} [Decidable c] {m' : ExceptT ε (StateM σ) α} (h : Follows out plan m) (h' : Follows out plan m') :
    Follows out plan (if c then m else m') := by
  split
  · exact h
  · exact h'

theorem forM_silent {f : β → ExceptT ε (StateM σ) PUnit} (l : List β) (h : ∀ b ∈ l, Follows out [] (f b)) :
    Follows out [] (l.forM f) := by
  induction l with
  | nil => exact Follows.pure ()
  | cons b l ih => exact (h b List.mem_cons_self).bind_silent fun _ => ih fun c hc => h c (List.mem_cons_of_mem _ hc)

end Follows

/-- A loop none of whose elements fails returns. -/
theorem mapM_exists_ok (f : α → Except ε β) (l : List α) (h : ∀ a ∈ l, ∃ b, f a = .ok b) :
    ∃ l', l.mapM f = .ok l' := by
  rcases mapM_find f (fun _ => false) l (fun a ha _ => h a ha) (fun _ _ hbad => Bool.noConfusion hbad) with
    ⟨a, -, hf, -⟩ | ⟨-, hok⟩
  · exact Bool.noConfusion (List.find?_some hf)
  · exact hok

/-- A fold that fails at no element folds, and else stops at the first that fails. -/
theorem foldlM_find {γ : Type} (f : γ → α → Except ε γ) (g : γ → α → γ) (bad : α → Bool) (l : List α)
    (hok : ∀ a ∈ l, bad a = false → ∀ c, f c a = .ok (g c a))
    (hbad : ∀ a ∈ l, bad a = true → ∃ e, ∀ c, f c a = .error e) :
    (∃ a e, l.find? bad = some a ∧ (∀ c, f c a = .error e) ∧ ∀ c, l.foldlM f c = .error e) ∨
      (l.find? bad = none ∧ ∀ c, l.foldlM f c = .ok (l.foldl g c)) := by
  induction l with
  | nil => exact Or.inr ⟨rfl, fun _ => rfl⟩
  | cons a l ih =>
    have ih := ih (fun b hb => hok b (List.mem_cons_of_mem _ hb)) fun b hb => hbad b (List.mem_cons_of_mem _ hb)
    rw [List.find?_cons]
    cases hb : bad a with
    | true =>
      obtain ⟨e, he⟩ := hbad a List.mem_cons_self hb
      refine Or.inl ⟨a, e, rfl, he, fun c => ?_⟩
      rw [List.foldlM_cons, he c]
      rfl
    | false =>
      have hstep : ∀ c, (a :: l).foldlM f c = l.foldlM f (g c a) := fun c => by
        rw [List.foldlM_cons, hok a List.mem_cons_self hb c]
        rfl
      rcases ih with ⟨a', e, hfind, he, hrun⟩ | ⟨hfind, hrun⟩
      · exact Or.inl ⟨a', e, hfind, he, fun c => by rw [hstep, hrun]⟩
      · exact Or.inr ⟨hfind, fun c => by rw [hstep, hrun, List.foldl_cons]⟩

def Fails (E : ε → Prop) (x : Except ε α) : Prop := ∀ e, x = .error e → E e

namespace Fails

variable {E : ε → Prop} {x : Except ε α}

theorem ok (a : α) : Fails E (.ok a : Except ε α) := nofun

theorem error {e : ε} (h : E e) : Fails E (.error e : Except ε α) := by
  rintro _ ⟨⟩
  exact h

theorem mono {E' : ε → Prop} (h : Fails E x) (hE : ∀ e, E e → E' e) : Fails E' x := fun e he => hE e (h e he)

theorem bind {f : α → Except ε β} (hx : Fails E x) (hf : ∀ a, x = .ok a → Fails E (f a)) : Fails E (x >>= f) := by
  cases x with
  | error e => exact error (hx e rfl)
  | ok a => exact hf a rfl

theorem ite {c : Prop} [Decidable c] {y : Except ε α} (hx : c → Fails E x) (hy : ¬ c → Fails E y) :
    Fails E (if c then x else y) := by
  split
  · next h => exact hx h
  · next h => exact hy h

theorem mapM {f : β → Except ε α} (l : List β) (h : ∀ b ∈ l, Fails E (f b)) : Fails E (l.mapM f) := by
  intro e he
  obtain ⟨b, hb, hbe⟩ := mapM_error_mem f l he
  exact h b hb e hbe

theorem forM {f : β → Except ε PUnit} (l : List β) (h : ∀ b ∈ l, Fails E (f b)) : Fails E (l.forM f) := by
  induction l with
  | nil => exact ok ()
  | cons b l ih => exact bind (h b List.mem_cons_self) fun _ _ => ih fun c hc => h c (List.mem_cons_of_mem _ hc)

theorem foldlM {f : α → β → Except ε α} (l : List β) (h : ∀ b ∈ l, ∀ a, Fails E (f a b)) (a : α) :
    Fails E (l.foldlM f a) := by
  induction l generalizing a with
  | nil => exact ok a
  | cons b l ih =>
    rw [List.foldlM_cons]
    exact bind (h b List.mem_cons_self a) fun a' _ => ih (fun c hc => h c (List.mem_cons_of_mem _ hc)) a'

/-- A step that touches no state. -/
theorem lift {I : σ → Prop} {P : α → Prop} (hx : Fails E x) (hP : ∀ a, x = .ok a → P a) :
    Triple I (Hoare.lift x : ExceptT ε (StateM σ) α) P E := Triple.lift hP hx

theorem step {I : σ → Prop} (hx : Fails E x) :
    Triple I (Hoare.lift x : ExceptT ε (StateM σ) α) (fun _ => True) E := hx.lift fun _ _ => trivial

end Fails

/-! ## Runs within a finished log -/

/-- A run of `m` that ends within `log` began within it, and returns in `P`. -/
def Within (out : σ → List κ) (log : List κ) (m : ExceptT ε (StateM σ) α) (P : α → Prop) : Prop :=
  ∀ s, out (m s).2 ⊆ log → out s ⊆ log ∧ ∀ a, (m s).1 = .ok a → P a

namespace Within

variable {out : σ → List κ} {log : List κ} {m : ExceptT ε (StateM σ) α} {P : α → Prop} {Q : β → Prop}
  {f : α → ExceptT ε (StateM σ) β}

/-- What a finished run returned. -/
theorem result {s : σ} (h : Within out (out (m s).2) m P) {a : α} (ha : (m s).1 = .ok a) : P a :=
  (h s (List.Subset.refl _)).2 a ha

theorem of_silent (h : ∀ s, out (m s).2 = out s) : Within out log m fun _ => True :=
  fun s hs => ⟨h s ▸ hs, fun _ _ => trivial⟩

theorem pure {a : α} (h : P a) : Within out log (Pure.pure a : ExceptT ε (StateM σ) α) P := by
  refine fun s hs => ⟨hs, ?_⟩
  rintro _ ⟨⟩
  exact h

theorem throw (e : ε) : Within out log (throw e : ExceptT ε (StateM σ) α) P := by
  refine fun s hs => ⟨hs, ?_⟩
  rintro _ ⟨⟩

theorem lift {x : Except ε α} (h : ∀ a, x = .ok a → P a) :
    Within out log (Hoare.lift x : ExceptT ε (StateM σ) α) P := fun _ hs => ⟨hs, fun a ha => h a ha⟩

theorem mono {P' : α → Prop} (h : Within out log m P) (hP : ∀ a, P a → P' a) : Within out log m P' :=
  fun s hs => ⟨(h s hs).1, fun a ha => hP a ((h s hs).2 a ha)⟩

/-- What a step gives is an assumption of the rest, whose log is known to be the step's only at the end. -/
theorem bind (hm : Within out log m P) (hf : ∀ a, Within out log (f a) fun b => P a → Q b) :
    Within out log (m >>= f) Q := by
  intro s hlog
  have hpost := hm s
  rw [bind_run] at hlog ⊢
  rcases hrun : m s with ⟨e | a, s'⟩ <;> rw [hrun] at hlog hpost <;> simp only at hlog hpost ⊢
  · exact ⟨(hpost hlog).1, nofun⟩
  · obtain ⟨hstart, hend⟩ := hf a s' hlog
    obtain ⟨hs, hP⟩ := hpost hstart
    exact ⟨hs, fun b hb => hend b hb (hP a rfl)⟩

/-- A step of which nothing is used. -/
theorem skip (hm : Within out log m fun _ => True) (hf : ∀ a, Within out log (f a) Q) :
    Within out log (m >>= f) Q := hm.bind fun a => (hf a).mono fun _ hb _ => hb

theorem lift_bind {x : Except ε α} (hf : ∀ a, x = .ok a → Within out log (f a) Q) :
    Within out log (Hoare.lift x >>= f) Q := by
  intro s hlog
  rw [lift_bind_run] at hlog ⊢
  cases hx : x with
  | error e =>
    rw [hx] at hlog
    exact ⟨hlog, nofun⟩
  | ok a =>
    rw [hx] at hlog
    exact hf a hx s hlog

theorem ite {c : Prop} [Decidable c] {m' : ExceptT ε (StateM σ) α} (h : c → Within out log m P)
    (h' : ¬ c → Within out log m' P) : Within out log (if c then m else m') P := by
  split
  · next hc => exact h hc
  · next hc => exact h' hc

theorem forM {g : β → ExceptT ε (StateM σ) PUnit} (l : List β) (h : ∀ b ∈ l, Within out log (g b) fun _ => True) :
    Within out log (l.forM g) fun _ => True := by
  induction l with
  | nil => exact Within.pure trivial
  | cons b l ih => exact (h b List.mem_cons_self).skip fun _ => ih fun c hc => h c (List.mem_cons_of_mem _ hc)

end Within

end Hoare
