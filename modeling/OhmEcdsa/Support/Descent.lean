import Mathlib

/-!
# Recursive descent

A parser moves over a byte string and stops with an error of its own, with a panic, or out
of fuel.  `Parses Pre p E Follow`: on an input that begins as `Pre` says, `p` reads a word
`w` with `E a w` and no other; it reads every such word where what comes after it is in
`Follow`, and it never panics or runs out of fuel.  There is a rule for each construct.
-/

namespace Descent

variable {ε α β : Type}

/-- A position, and the bytes from there on. -/
structure Cursor where
  pos : Nat
  rest : List UInt8

inductive Stop (ε : Type)
  | error (e : ε)
  | panic
  | outOfFuel

def Parser (ε α : Type) := Cursor → Except (Stop ε) (α × Cursor)

namespace Parser

def run (p : Parser ε α) (c : Cursor) : Except (Stop ε) (α × Cursor) := p c

instance : Monad (Parser ε) where
  pure a := fun c => .ok (a, c)
  bind p f := fun c =>
    match p c with
    | .error s => .error s
    | .ok (a, c') => f a c'

def stop (s : Stop ε) : Parser ε α := fun _ => .error s

def fail (e : ε) : Parser ε α := stop (.error e)

def position : Parser ε Nat := fun c => .ok (c.pos, c)

def peek : Parser ε (Option UInt8) := fun c => .ok (c.rest.head?, c)

/-- How many bytes are left. -/
def remaining : Parser ε Nat := fun c => .ok (c.rest.length, c)

/-- `ok_or(e)?`. -/
def okOr (o : Option α) (e : ε) : Parser ε α :=
  match o with
  | some a => pure a
  | none => fail e

/-- `pos += k`. -/
def advance (k : Nat) : Parser ε Unit := fun c => .ok ((), ⟨c.pos + k, c.rest.drop k⟩)

/-- The next byte, if there is one. -/
def bump : Parser ε (Option UInt8) := fun c =>
  match c.rest with
  | [] => .ok (none, c)
  | b :: rest => .ok (some b, ⟨c.pos + 1, rest⟩)

/-- `while peek is in the class { pos += 1 }`. -/
def skipWhile (inClass : UInt8 → Bool) : Parser ε Unit := fun c =>
  .ok ((), ⟨c.pos + (c.rest.takeWhile inClass).length, c.rest.dropWhile inClass⟩)

/-- A fixed word, or an error. -/
def word (w : List UInt8) (e : Nat → ε) : Parser ε Unit := fun c =>
  if w.length ≤ c.rest.length ∧ c.rest.take w.length = w then .ok ((), ⟨c.pos + w.length, c.rest.drop w.length⟩)
  else .error (.error (e c.pos))

/-- The next `k` bytes, or an error. -/
def takeN (k : Nat) (e : ε) : Parser ε (List UInt8) := fun c =>
  if c.rest.length < k then .error (.error e) else .ok (c.rest.take k, ⟨c.pos + k, c.rest.drop k⟩)

/-- The bytes that a parser moved over. -/
def capture (p : Parser ε α) : Parser ε (α × List UInt8) := fun c =>
  match p c with
  | .error s => .error s
  | .ok (a, c') => .ok ((a, c.rest.take (c'.pos - c.pos)), c')

end Parser

open Parser

/-! ## What a parser reads -/

structure Parses (Pre : List UInt8 → Prop) (p : Parser ε α) (E : α → List UInt8 → Prop)
    (Follow : List UInt8 → Prop) : Prop where
  sound : ∀ c a c', Pre c.rest → p c = .ok (a, c') →
    ∃ w, E a w ∧ c.rest = w ++ c'.rest ∧ c'.pos = c.pos + w.length
  complete : ∀ pos w rest a, Pre (w ++ rest) → E a w → Follow rest →
    p ⟨pos, w ++ rest⟩ = .ok (a, ⟨pos + w.length, rest⟩)
  total : ∀ c s, Pre c.rest → p c = .error s → ∃ e, s = .error e

theorem bind_run (p : Parser ε α) (f : α → Parser ε β) (c : Cursor) : (p >>= f) c =
    match p c with
    | .error s => .error s
    | .ok (a, c') => f a c' := rfl

theorem bind_ok {p : Parser ε α} {f : α → Parser ε β} {c : Cursor} {r : β × Cursor} :
    (p >>= f) c = .ok r ↔ ∃ a c', p c = .ok (a, c') ∧ f a c' = .ok r := by
  rw [bind_run]
  rcases p c with s | ⟨a, c'⟩
  · simp
  · simp

theorem bind_of_ok {p : Parser ε α} {f : α → Parser ε β} {c c' : Cursor} {a : α} (h : p c = .ok (a, c')) :
    (p >>= f) c = f a c' := by
  rw [bind_run, h]

namespace Parses

variable {Pre Pre' : List UInt8 → Prop} {E : α → List UInt8 → Prop} {Follow : List UInt8 → Prop}

theorem congr {p : Parser ε α} {T : α → List UInt8 → Prop} (h : Parses Pre p E Follow)
    (hE : ∀ a w rest, Pre (w ++ rest) → (T a w ↔ E a w)) : Parses Pre p T Follow where
  sound c a c' hpre hc := by
    obtain ⟨w, hw, hrest, hpos⟩ := h.sound c a c' hpre hc
    exact ⟨w, (hE a w c'.rest (hrest ▸ hpre)).mpr hw, hrest, hpos⟩
  complete pos w rest a hpre hw hfollow := h.complete pos w rest a hpre ((hE a w rest hpre).mp hw) hfollow
  total := h.total

/-- Both directions, the second one where what follows is known. -/
theorem conv {p : Parser ε α} {T : α → List UInt8 → Prop} (h : Parses Pre p E Follow)
    (hs : ∀ a w rest, Pre (w ++ rest) → E a w → T a w)
    (hc : ∀ a w rest, Pre (w ++ rest) → T a w → Follow rest → E a w) : Parses Pre p T Follow where
  sound c a c' hpre hrun := by
    obtain ⟨w, hw, hrest, hpos⟩ := h.sound c a c' hpre hrun
    exact ⟨w, hs a w c'.rest (hrest ▸ hpre) hw, hrest, hpos⟩
  complete pos w rest a hpre hw hfollow := h.complete pos w rest a hpre (hc a w rest hpre hw hfollow) hfollow
  total := h.total

theorem weaken {p : Parser ε α} {Follow' : List UInt8 → Prop} (h : Parses Pre' p E Follow')
    (hpre : ∀ r, Pre r → Pre' r) (hfollow : ∀ r, Follow r → Follow' r) : Parses Pre p E Follow where
  sound c a c' hc := h.sound c a c' (hpre _ hc)
  complete pos w rest a hc hw hf := h.complete pos w rest a (hpre _ hc) hw (hfollow _ hf)
  total c s hc := h.total c s (hpre _ hc)

theorem pure (a : α) : Parses Pre (Pure.pure a : Parser ε α) (fun v w => v = a ∧ w = []) Follow where
  sound c v c' _ hc := by
    cases hc
    exact ⟨[], ⟨rfl, rfl⟩, rfl, rfl⟩
  complete pos w rest v _ hw _ := by
    obtain ⟨rfl, rfl⟩ := hw
    rfl
  total c s _ hc := by cases hc

theorem fail {e : ε} (h : ∀ a w rest, Pre (w ++ rest) → E a w → Follow rest → False) :
    Parses Pre (Parser.fail e : Parser ε α) E Follow where
  sound c a c' _ hc := by cases hc
  complete pos w rest a hpre hw hf := (h a w rest hpre hw hf).elim
  total c s _ hc := by
    cases hc
    exact ⟨e, rfl⟩

/-- A branch that no input reaches. -/
theorem unreachable {p : Parser ε α} (h : ∀ r, ¬ Pre r) : Parses Pre p E Follow where
  sound c a c' hpre _ := (h _ hpre).elim
  complete pos w rest a hpre _ _ := (h _ hpre).elim
  total c s hpre _ := (h _ hpre).elim

theorem bind {p : Parser ε α} {f : α → Parser ε β} {T : α → β → List UInt8 → Prop}
    {R : List UInt8 → Prop} {Q : α → List UInt8 → Prop} (hp : Parses Pre p E R)
    (hf : ∀ a, Parses (Q a) (f a) (T a) Follow)
    (hpre : ∀ a w rest, Pre (w ++ rest) → E a w → Q a rest)
    (hfollow : ∀ a w b w' rest, E a w → T a b w' → Follow rest → R (w' ++ rest)) :
    Parses Pre (p >>= f) (fun b w => ∃ a w1 w2, E a w1 ∧ T a b w2 ∧ w = w1 ++ w2) Follow where
  sound c b c' hc hrun := by
    obtain ⟨a, c1, hrun1, hrun2⟩ := bind_ok.mp hrun
    obtain ⟨w1, hw1, hrest1, hpos1⟩ := hp.sound c a c1 hc hrun1
    rw [hrest1] at hc
    obtain ⟨w2, hw2, hrest2, hpos2⟩ := (hf a).sound c1 b c' (hpre a w1 c1.rest hc hw1) hrun2
    exact ⟨w1 ++ w2, ⟨a, w1, w2, hw1, hw2, rfl⟩, by rw [hrest1, hrest2, List.append_assoc], by
      rw [hpos2, hpos1, List.length_append, Nat.add_assoc]⟩
  complete pos w rest b hc hw hfol := by
    obtain ⟨a, w1, w2, hw1, hw2, rfl⟩ := hw
    rw [List.append_assoc] at hc ⊢
    have hrun1 := hp.complete pos w1 (w2 ++ rest) a hc hw1 (hfollow a w1 b w2 rest hw1 hw2 hfol)
    have hrun2 := (hf a).complete (pos + w1.length) w2 rest b (hpre a w1 _ hc hw1) hw2 hfol
    rw [bind_of_ok hrun1, hrun2, List.length_append, Nat.add_assoc]
  total c s hc hrun := by
    rw [bind_run] at hrun
    rcases hrun1 : p c with s' | ⟨a, c1⟩
    · rw [hrun1] at hrun
      cases hrun
      exact hp.total c s hc hrun1
    · rw [hrun1] at hrun
      obtain ⟨w1, hw1, hrest1, -⟩ := hp.sound c a c1 hc hrun1
      rw [hrest1] at hc
      exact (hf a).total c1 s (hpre a w1 c1.rest hc hw1) hrun

/-- A look at the next byte. -/
theorem peek {f : Option UInt8 → Parser ε α} (hf : ∀ o, Parses (fun r => Pre r ∧ r.head? = o) (f o) E Follow) :
    Parses Pre (Parser.peek >>= f) E Follow where
  sound c a c' hc hrun := (hf c.rest.head?).sound c a c' ⟨hc, rfl⟩ hrun
  complete pos w rest a hc hw hfol := (hf _).complete pos w rest a ⟨hc, rfl⟩ hw hfol
  total c s hc hrun := (hf c.rest.head?).total c s ⟨hc, rfl⟩ hrun

theorem position {f : Nat → Parser ε α} (hf : ∀ n, Parses Pre (f n) E Follow) :
    Parses Pre (Parser.position >>= f) E Follow where
  sound c a c' hc hrun := (hf c.pos).sound c a c' hc hrun
  complete pos w rest a hc hw hfol := (hf pos).complete pos w rest a hc hw hfol
  total c s hc hrun := (hf c.pos).total c s hc hrun

theorem remaining {f : Nat → Parser ε α} (hf : ∀ n, Parses (fun r => Pre r ∧ r.length = n) (f n) E Follow) :
    Parses Pre (Parser.remaining >>= f) E Follow where
  sound c a c' hc hrun := (hf c.rest.length).sound c a c' ⟨hc, rfl⟩ hrun
  complete pos w rest a hc hw hfol := (hf _).complete pos w rest a ⟨hc, rfl⟩ hw hfol
  total c s hc hrun := (hf c.rest.length).total c s ⟨hc, rfl⟩ hrun

theorem okOr (o : Option α) (e : ε) : Parses Pre (Parser.okOr o e) (fun v w => o = some v ∧ w = []) Follow := by
  cases o with
  | none =>
    refine fail fun a w rest _ hw _ => ?_
    cases hw.1
  | some a => exact (pure a).congr fun v w rest _ => by simp [eq_comm]

/-- One byte, known to be there. -/
theorem advance {b : UInt8} (h : ∀ r, Pre r → r.head? = some b) :
    Parses Pre (Parser.advance 1 : Parser ε Unit) (fun _ w => w = [b]) Follow where
  sound c a c' hc hrun := by
    cases hrun
    obtain ⟨t, ht⟩ := List.head?_eq_some_iff.mp (h c.rest hc)
    exact ⟨[b], rfl, by rw [ht]; rfl, rfl⟩
  complete pos w rest a _ hw _ := by
    subst hw
    rfl
  total c s _ hrun := by cases hrun

/-- The next byte, where the end is an error. -/
theorem bump {f : Option UInt8 → Parser ε α} {T : UInt8 → α → List UInt8 → Prop}
    (hnone : Parses (fun r => Pre r ∧ r = []) (f none) (fun _ _ => False) Follow)
    (hsome : ∀ b, Parses (fun r => Pre (b :: r)) (f (some b)) (T b) Follow) :
    Parses Pre (Parser.bump >>= f) (fun a w => ∃ b w', w = b :: w' ∧ T b a w') Follow where
  sound c a c' hc hrun := by
    obtain ⟨pos, rest⟩ := c
    cases rest with
    | nil =>
      obtain ⟨w, hw, -⟩ := hnone.sound ⟨pos, []⟩ a c' ⟨hc, rfl⟩ hrun
      exact hw.elim
    | cons b rest =>
      obtain ⟨w, hw, hrest, hpos⟩ := (hsome b).sound ⟨pos + 1, rest⟩ a c' hc hrun
      refine ⟨b :: w, ⟨b, w, rfl, hw⟩, by rw [List.cons_append, ← hrest], ?_⟩
      rw [hpos, List.length_cons]
      show pos + 1 + w.length = pos + (w.length + 1)
      omega
  complete pos w rest a hc hw hfol := by
    obtain ⟨b, w', rfl, hw'⟩ := hw
    have hrun := (hsome b).complete (pos + 1) w' rest a hc hw' hfol
    rw [List.length_cons, show pos + (w'.length + 1) = pos + 1 + w'.length by omega, ← hrun]
    rfl
  total c s hc hrun := by
    obtain ⟨pos, rest⟩ := c
    cases rest with
    | nil => exact hnone.total ⟨pos, []⟩ s ⟨hc, rfl⟩ hrun
    | cons b rest => exact (hsome b).total ⟨pos + 1, rest⟩ s hc hrun

theorem skipWhile (inClass : UInt8 → Bool) : Parses Pre (Parser.skipWhile inClass : Parser ε Unit)
    (fun _ w => ∀ b ∈ w, inClass b = true) (fun rest => ∀ b, rest.head? = some b → inClass b = false) where
  sound c a c' _ hrun := by
    cases hrun
    refine ⟨c.rest.takeWhile inClass, fun b hb => ?_, List.takeWhile_append_dropWhile.symm, rfl⟩
    have hall := List.all_takeWhile (p := inClass) (l := c.rest)
    exact List.all_eq_true.mp hall b hb
  complete pos w rest a _ hw hfol := by
    have hstop : rest.takeWhile inClass = [] ∧ rest.dropWhile inClass = rest := by
      cases rest with
      | nil => exact ⟨rfl, rfl⟩
      | cons b rest =>
        have hb : ¬ inClass b = true := by simpa using hfol b rfl
        exact ⟨List.takeWhile_cons_of_neg hb, List.dropWhile_cons_of_neg hb⟩
    show Except.ok ((), (⟨pos + ((w ++ rest).takeWhile inClass).length, (w ++ rest).dropWhile inClass⟩ : Cursor)) = _
    rw [List.takeWhile_append_of_pos hw, List.dropWhile_append_of_pos hw, hstop.1, hstop.2, List.append_nil]
  total c s _ hrun := by cases hrun

/-- A byte of the class is there, so that at least one is read. -/
theorem skipWhile1 {inClass : UInt8 → Bool} (h : ∀ r, Pre r → ∃ b t, r = b :: t ∧ inClass b = true) :
    Parses Pre (Parser.skipWhile inClass : Parser ε Unit) (fun _ w => w ≠ [] ∧ ∀ b ∈ w, inClass b = true)
      (fun rest => ∀ b, rest.head? = some b → inClass b = false) where
  sound c a c' hc hrun := by
    have hall : Parses Pre (Parser.skipWhile inClass : Parser ε Unit) _ _ := skipWhile inClass
    obtain ⟨w, hw, hrest, hpos⟩ := hall.sound c a c' hc hrun
    refine ⟨w, ⟨?_, hw⟩, hrest, hpos⟩
    rintro rfl
    obtain ⟨b, t, ht, hb⟩ := h c.rest hc
    cases hrun
    have hlen := congrArg List.length hrest
    have hle := List.length_dropWhile_le inClass t
    have hrest' : ([] ++ c.rest.dropWhile inClass).length = (t.dropWhile inClass).length := by
      rw [ht, List.nil_append, List.dropWhile_cons_of_pos hb]
    rw [hrest', ht, List.length_cons] at hlen
    omega
  complete pos w rest a hc hw hfol := (skipWhile inClass).complete pos w rest a hc hw.2 hfol
  total c s hc hrun := (skipWhile inClass).total c s hc hrun

theorem word (w : List UInt8) (e : Nat → ε) : Parses Pre (Parser.word w e) (fun _ w' => w' = w) Follow where
  sound c a c' _ hrun := by
    unfold Parser.word at hrun
    split at hrun
    · rename_i h
      cases hrun
      refine ⟨w, rfl, ?_, rfl⟩
      calc c.rest = c.rest.take w.length ++ c.rest.drop w.length := (List.take_append_drop _ _).symm
        _ = w ++ c.rest.drop w.length := by rw [h.2]
    · cases hrun
  complete pos w' rest a _ hw _ := by
    subst hw
    unfold Parser.word
    rw [if_pos ⟨by simp, List.take_left⟩, List.drop_left]
  total c s _ hrun := by
    unfold Parser.word at hrun
    split at hrun
    · cases hrun
    · cases hrun
      exact ⟨_, rfl⟩

theorem takeN (k : Nat) (e : ε) : Parses Pre (Parser.takeN k e) (fun v w => v = w ∧ w.length = k) Follow where
  sound c a c' _ hrun := by
    unfold Parser.takeN at hrun
    split at hrun
    · cases hrun
    · rename_i h
      have hlen : (c.rest.take k).length = k := List.length_take_of_le (by omega)
      cases hrun
      exact ⟨c.rest.take k, ⟨rfl, hlen⟩, (List.take_append_drop _ _).symm, by rw [hlen]⟩
  complete pos w rest a _ hw _ := by
    obtain ⟨rfl, rfl⟩ := hw
    unfold Parser.takeN
    rw [if_neg (by simp), List.take_left, List.drop_left]
  total c s _ hrun := by
    unfold Parser.takeN at hrun
    split at hrun
    · cases hrun
      exact ⟨e, rfl⟩
    · cases hrun

theorem capture {p : Parser ε α} (h : Parses Pre p E Follow) :
    Parses Pre (Parser.capture p) (fun v w => E v.1 w ∧ v.2 = w) Follow where
  sound c v c' hc hrun := by
    unfold Parser.capture at hrun
    rcases hrun' : p c with s | ⟨a, c1⟩
    · rw [hrun'] at hrun
      cases hrun
    · rw [hrun'] at hrun
      cases hrun
      obtain ⟨w, hw, hrest, hpos⟩ := h.sound c a c' hc hrun'
      refine ⟨w, ⟨hw, ?_⟩, hrest, hpos⟩
      show c.rest.take (c'.pos - c.pos) = w
      rw [hpos, Nat.add_sub_cancel_left, hrest, List.take_left]
  complete pos w rest v hc hw hfol := by
    obtain ⟨a, t⟩ := v
    obtain ⟨hw, rfl⟩ := hw
    unfold Parser.capture
    rw [h.complete pos t rest a hc hw hfol]
    simp
  total c s hc hrun := by
    unfold Parser.capture at hrun
    rcases hrun' : p c with s' | ⟨a, c1⟩
    · rw [hrun'] at hrun
      cases hrun
      exact h.total c s hc hrun'
    · rw [hrun'] at hrun
      cases hrun

theorem ite {c : Prop} [Decidable c] {p q : Parser ε α} (hp : c → Parses Pre p E Follow)
    (hq : ¬ c → Parses Pre q E Follow) : Parses Pre (if c then p else q) E Follow := by
  by_cases h : c
  · rw [if_pos h]
    exact hp h
  · rw [if_neg h]
    exact hq h

/-- A function of what was read. -/
theorem map {p : Parser ε α} (h : Parses Pre p E Follow) (f : α → β) :
    Parses Pre (do
      let a ← p
      return f a) (fun b w => ∃ a, E a w ∧ b = f a) Follow :=
  (h.bind (Q := fun _ _ => True) (fun a => pure (f a)) (fun _ _ _ _ _ => trivial) fun a w b w' rest _ hw' hfol => by
    rw [hw'.2]
    exact hfol).congr fun b w rest _ => by
      constructor
      · rintro ⟨a, ha, rfl⟩
        exact ⟨a, w, [], ha, ⟨rfl, rfl⟩, (List.append_nil w).symm⟩
      · rintro ⟨a, w1, w2, ha, ⟨rfl, rfl⟩, rfl⟩
        exact ⟨a, by rwa [List.append_nil], rfl⟩

/-- A word whose value is nothing, before a parser. -/
theorem andThen {p : Parser ε α} {q : Parser ε β} {T : β → List UInt8 → Prop} {R Q : List UInt8 → Prop}
    (hp : Parses Pre p E R) (hq : Parses Q q T Follow)
    (hpre : ∀ a w rest, Pre (w ++ rest) → E a w → Q rest)
    (hfollow : ∀ b w' rest, T b w' → Follow rest → R (w' ++ rest)) :
    Parses Pre (p >>= fun _ => q) (fun b w => ∃ w1 w2, (∃ a, E a w1) ∧ T b w2 ∧ w = w1 ++ w2) Follow :=
  (hp.bind (fun _ => hq) hpre fun _ _ b w' rest _ hw' hfol => hfollow b w' rest hw' hfol).congr fun b w rest _ => by
    constructor
    · rintro ⟨w1, w2, ⟨a, h1⟩, h2, rfl⟩
      exact ⟨a, w1, w2, h1, h2, rfl⟩
    · rintro ⟨a, w1, w2, h1, h2, rfl⟩
      exact ⟨w1, w2, ⟨a, h1⟩, h2, rfl⟩

/-- A value that was read and may be refused. -/
theorem check {f : α → Parser ε β} {T : α → β → List UInt8 → Prop} (o : Option α) (e : ε)
    (hf : ∀ a, Parses Pre (f a) (T a) Follow) :
    Parses Pre (Parser.okOr o e >>= f) (fun b w => ∃ a, o = some a ∧ T a b w) Follow := by
  cases o with
  | none =>
    refine Parses.conv (fail (E := fun _ _ => False) (e := e) fun _ _ _ _ h _ => h) (fun _ _ _ _ h => h.elim)
      fun b w rest _ hw _ => ?_
    obtain ⟨a, ha, -⟩ := hw
    cases ha
  | some a => exact (hf a).congr fun b w rest _ => by simp

theorem head_dropWhile {inClass : UInt8 → Bool} {l : List UInt8} {x : UInt8} (hx : (l.dropWhile inClass).head? = some x) :
    inClass x = false := by
  have hne : l.dropWhile inClass ≠ [] := by
    rintro hnil
    rw [hnil] at hx
    cases hx
  have hnot := List.head_dropWhile_not inClass hne
  rw [List.head?_eq_some_head hne, Option.some.injEq] at hx
  rw [← hx]
  simpa using hnot

/-- A class skipped as far as it goes, before a parser that knows so. -/
theorem skipThen {inClass : UInt8 → Bool} {q : Parser ε β} {T : β → List UInt8 → Prop}
    (hq : Parses (fun r => ∀ b, r.head? = some b → inClass b = false) q T Follow)
    (hfollow : ∀ b w rest, T b w → Follow rest → ∀ x, (w ++ rest).head? = some x → inClass x = false) :
    Parses Pre (Parser.skipWhile inClass >>= fun _ => q)
      (fun b w => ∃ w1 w2, (∀ x ∈ w1, inClass x = true) ∧ T b w2 ∧ w = w1 ++ w2) Follow where
  sound c b c' _ hrun := by
    have hstop : ∀ x, (c.rest.dropWhile inClass).head? = some x → inClass x = false := fun x => head_dropWhile
    obtain ⟨w, hw, hrest, hpos⟩ := hq.sound ⟨c.pos + (c.rest.takeWhile inClass).length, _⟩ b c' hstop hrun
    refine ⟨c.rest.takeWhile inClass ++ w, ⟨_, w, fun x hx => ?_, hw, rfl⟩, ?_, ?_⟩
    · exact List.all_eq_true.mp List.all_takeWhile x hx
    · rw [List.append_assoc, ← hrest, List.takeWhile_append_dropWhile]
    · rw [hpos, List.length_append, Nat.add_assoc]
  complete pos w rest b hc hw hfol := by
    obtain ⟨w1, w2, hw1, hw2, rfl⟩ := hw
    have hends := hfollow b w2 rest hw2 hfol
    have hskip : Parses (fun _ => True) (Parser.skipWhile inClass : Parser ε Unit) _ _ := skipWhile inClass
    have hrun := hskip.complete pos w1 (w2 ++ rest) () trivial hw1 hends
    rw [List.append_assoc, bind_of_ok hrun, hq.complete _ w2 rest b hends hw2 hfol, List.length_append, Nat.add_assoc]
  total c s _ hrun := by
    have hstop : ∀ x, (c.rest.dropWhile inClass).head? = some x → inClass x = false := fun x => head_dropWhile
    exact hq.total ⟨c.pos + (c.rest.takeWhile inClass).length, _⟩ s hstop hrun

end Parses

end Descent
