import Mathlib

/-!
# Byte decoders

A decoder reads a value off the front of a byte string and says how many bytes it
used.  `Reads n d E`: on inputs of at most `n` bytes, `d` reads exactly the strings
`w` with `E v w`, whatever follows them.  There is a rule for each construct, and the
rule for a whole format is one statement in both directions:

    Lawful enc d Valid →
      d (enc v ++ rest) = some (v, (enc v).length)                     (Lawful.decode_encode)
      d b = some (v, used) → used ≤ b.length ∧ enc v = b.take used     (Lawful.encode_decode)
-/

namespace Codec

variable {α β : Type}

/-! ## Decoders -/

def Decoder (α : Type) := List UInt8 → Option (α × Nat)

namespace Decoder

def run (d : Decoder α) (b : List UInt8) : Option (α × Nat) := d b

/-- `bytes.get(used..)`. -/
def getFrom (b : List UInt8) (used : Nat) : Option (List UInt8) :=
  if used ≤ b.length then some (b.drop used) else none

instance : Monad Decoder where
  pure a := fun _ => some (a, 0)
  bind d f := fun b =>
    match d b with
    | none => none
    | some (a, used) =>
      match getFrom b used with
      | none => none
      | some rest =>
        match f a rest with
        | none => none
        | some (r, more) => some (r, used + more)

theorem bind_run (d : Decoder α) (f : α → Decoder β) (b : List UInt8) : (d >>= f).run b =
    match d.run b with
    | none => none
    | some (a, used) =>
      match getFrom b used with
      | none => none
      | some rest =>
        match (f a).run rest with
        | none => none
        | some (r, more) => some (r, used + more) := rfl

def fail : Decoder α := fun _ => none

/-- A value checked after it was read. -/
def ofOption : Option α → Decoder α
  | some a => pure a
  | none => fail

def takeByte : Decoder UInt8
  | [] => none
  | x :: _ => some (x, 1)

/-- `bytes.get(..k)`. -/
def takeN (k : Nat) : Decoder (List UInt8) := fun b => if k ≤ b.length then some (b.take k, k) else none

/-- `for _ in 0..n { .. }`. -/
def times (d : Decoder α) : Nat → Decoder (List α)
  | 0 => pure []
  | n + 1 => do
    let a ← d
    let l ← times d n
    return a :: l

/-- At least `n` bytes are left. -/
def require (n : Nat) : Decoder Unit := fun b => if n ≤ b.length then some ((), 0) else none

/-- The whole of a byte string, as one value. -/
def exactly (d : Decoder α) (b : List UInt8) : Option α :=
  match d b with
  | some (v, used) => if used = b.length then some v else none
  | none => none

/-- The value at the front of a byte string, whatever follows. -/
def front (d : Decoder α) (b : List UInt8) : Option α := (d.run b).map (·.1)

end Decoder

open Decoder

/-! ## What a decoder reads -/

def Reads (n : Nat) (d : Decoder α) (E : α → List UInt8 → Prop) : Prop :=
  ∀ b, b.length ≤ n → ∀ v used, d.run b = some (v, used) ↔ ∃ w, E v w ∧ w <+: b ∧ used = w.length

namespace Reads

variable {n : Nat}

theorem congr {d : Decoder α} {E E' : α → List UInt8 → Prop} (h : Reads n d E) (hE : ∀ v w, E v w ↔ E' v w) :
    Reads n d E' := by
  intro b hb v used
  rw [h b hb]
  exact exists_congr fun w => and_congr_left' (hE v w)

theorem mono {m : Nat} {d : Decoder α} {E : α → List UInt8 → Prop} (h : Reads n d E) (hm : m ≤ n) : Reads m d E :=
  fun b hb => h b (hb.trans hm)

theorem pure (a : α) : Reads n (Pure.pure a : Decoder α) fun v w => v = a ∧ w = [] := by
  intro b _ v used
  show some (a, 0) = some (v, used) ↔ _
  constructor
  · rintro ⟨⟩
    exact ⟨[], ⟨rfl, rfl⟩, List.nil_prefix, rfl⟩
  · rintro ⟨w, ⟨rfl, rfl⟩, -, rfl⟩
    rfl

theorem fail : Reads n (Decoder.fail : Decoder α) fun _ _ => False := by
  intro b _ v used
  show none = some (v, used) ↔ _
  simp

theorem ofOption (o : Option α) : Reads n (Decoder.ofOption o) fun v w => o = some v ∧ w = [] := by
  cases o with
  | none => exact fail.congr fun v w => by simp
  | some a => exact (pure a).congr fun v w => by simp [eq_comm]

theorem guard {c : Prop} [Decidable c] {d : Decoder α} {E : α → List UInt8 → Prop} (h : Reads n d E) :
    Reads n (if c then d else Decoder.fail) fun v w => c ∧ E v w := by
  by_cases hc : c
  · rw [if_pos hc]
    exact h.congr fun v w => (and_iff_right hc).symm
  · rw [if_neg hc]
    exact fail.congr fun v w => (iff_of_false not_false fun hE => hc hE.1)

theorem takeByte : Reads n Decoder.takeByte fun v w => w = [v] := by
  intro b _ v used
  rcases b with _ | ⟨x, b⟩
  · show none = some (v, used) ↔ _
    simp
  · show some (x, 1) = some (v, used) ↔ _
    constructor
    · rintro ⟨⟩
      exact ⟨[v], rfl, ⟨b, rfl⟩, rfl⟩
    · rintro ⟨w, rfl, ⟨t, ht⟩, rfl⟩
      cases ht
      rfl

theorem takeN (k : Nat) : Reads n (Decoder.takeN k) fun v w => w = v ∧ v.length = k := by
  intro b _ v used
  show (if k ≤ b.length then some (b.take k, k) else none) = some (v, used) ↔ _
  by_cases hk : k ≤ b.length
  · rw [if_pos hk]
    have hlen : (b.take k).length = k := by
      rw [List.length_take]
      omega
    constructor
    · rintro ⟨⟩
      exact ⟨_, ⟨rfl, hlen⟩, List.take_prefix _ _, hlen.symm⟩
    · rintro ⟨w, ⟨rfl, rfl⟩, hw, rfl⟩
      rw [← List.prefix_iff_eq_take.mp hw]
  · rw [if_neg hk]
    constructor
    · rintro ⟨⟩
    · rintro ⟨w, ⟨rfl, rfl⟩, hw, rfl⟩
      exact absurd hw.length_le hk

/-- One after the other: the second reads what the first left. -/
theorem bind {d : Decoder α} {f : α → Decoder β} {E : α → List UInt8 → Prop} {E' : α → β → List UInt8 → Prop}
    (h : Reads n d E) (hf : ∀ a w, E a w → w.length ≤ n → Reads (n - w.length) (f a) (E' a)) :
    Reads n (d >>= f) fun r w => ∃ a w1 w2, E a w1 ∧ E' a r w2 ∧ w = w1 ++ w2 := by
  intro b hb r used
  rw [bind_run]
  constructor
  · intro hsome
    rcases hd : d.run b with _ | ⟨a, u⟩
    · rw [hd] at hsome
      cases hsome
    · obtain ⟨w1, hE, ⟨t, rfl⟩, rfl⟩ := (h b hb a u).mp hd
      have hget : getFrom (w1 ++ t) w1.length = some t := by
        simp [getFrom]
      rw [hd] at hsome
      simp only [hget] at hsome
      rcases hfa : (f a).run t with _ | ⟨r', more⟩
      · rw [hfa] at hsome
        cases hsome
      · rw [hfa] at hsome
        obtain ⟨rfl, rfl⟩ := Prod.mk.inj (Option.some.inj hsome)
        rw [List.length_append] at hb
        obtain ⟨w2, hE', ⟨s, rfl⟩, rfl⟩ := (hf a w1 hE (by omega) t (by omega) _ more).mp hfa
        exact ⟨w1 ++ w2, ⟨a, w1, w2, hE, hE', rfl⟩, ⟨s, by rw [List.append_assoc]⟩, by rw [List.length_append]⟩
  · rintro ⟨w, ⟨a, w1, w2, hE, hE', rfl⟩, ⟨s, rfl⟩, rfl⟩
    have hd := (h _ hb a w1.length).mpr ⟨w1, hE, ⟨w2 ++ s, by rw [List.append_assoc]⟩, rfl⟩
    rw [List.length_append, List.length_append] at hb
    have hfa := (hf a w1 hE (by omega) (w2 ++ s) (by rw [List.length_append]; omega) r w2.length).mpr
      ⟨w2, hE', ⟨s, rfl⟩, rfl⟩
    have hget : getFrom (w1 ++ w2 ++ s) w1.length = some (w2 ++ s) := by
      rw [List.append_assoc]
      simp [getFrom]
    simp only [hd, hget, hfa, List.length_append]

/-- The next part reads strings of any length left. -/
theorem bind' {d : Decoder α} {f : α → Decoder β} {E : α → List UInt8 → Prop} {E' : α → β → List UInt8 → Prop}
    (h : Reads n d E) (hf : ∀ a, Reads n (f a) (E' a)) :
    Reads n (d >>= f) fun r w => ∃ a w1 w2, E a w1 ∧ E' a r w2 ∧ w = w1 ++ w2 :=
  h.bind fun a _ _ _ => (hf a).mono (Nat.sub_le _ _)

/-- An item after the other, a text each. -/
theorem times_texts {d : Decoder α} {E : α → List UInt8 → Prop} (h : Reads n d E) (k : Nat) :
    Reads n (d.times k) fun l w => l.length = k ∧ ∃ texts, List.Forall₂ E l texts ∧ w = texts.flatten := by
  induction k with
  | zero =>
    refine (pure []).congr fun l w => ?_
    constructor
    · rintro ⟨rfl, rfl⟩
      exact ⟨rfl, [], .nil, rfl⟩
    · rintro ⟨hl, texts, htexts, rfl⟩
      obtain rfl := List.length_eq_zero_iff.mp hl
      cases htexts
      exact ⟨rfl, rfl⟩
  | succ k ih =>
    refine (h.bind' fun a => ih.bind' fun l => pure (a :: l)).congr fun r w => ?_
    constructor
    · rintro ⟨a, w1, w2, ha, ⟨l, w3, w4, ⟨hl, texts, htexts, rfl⟩, ⟨rfl, rfl⟩, rfl⟩, rfl⟩
      exact ⟨by rw [List.length_cons, hl], w1 :: texts, .cons ha htexts, by simp⟩
    · rintro ⟨hlen, texts, htexts, rfl⟩
      cases htexts with
      | nil => cases hlen
      | cons ha htexts =>
        exact ⟨_, _, _, ha, ⟨_, _, [], ⟨Nat.succ.inj hlen, _, htexts, rfl⟩, ⟨rfl, rfl⟩, rfl⟩, by simp⟩

theorem times {d : Decoder α} {enc : α → List UInt8} {Valid : α → Prop}
    (h : Reads n d fun v w => Valid v ∧ w = enc v) (k : Nat) :
    Reads n (d.times k) fun l w => l.length = k ∧ (∀ v ∈ l, Valid v) ∧ w = l.flatMap enc := by
  refine (h.times_texts k).congr fun l w => and_congr_right' ?_
  have hmap : ∀ texts, List.Forall₂ (fun v w => w = enc v) l texts ↔ l.map enc = texts := by
    intro texts
    calc List.Forall₂ (fun v w => w = enc v) l texts
      _ ↔ List.Forall₂ (fun v w => enc v = w) l texts := by simp only [eq_comm]
      _ ↔ List.Forall₂ Eq (l.map enc) texts := List.forall₂_map_left_iff.symm
      _ ↔ l.map enc = texts := by rw [List.forall₂_eq_eq_eq]
  simp only [List.forall₂_and_left, hmap, and_assoc, exists_and_left, exists_eq_left', List.flatMap_def]

/-- The value at the front: one of whose texts the string begins with. -/
theorem front {d : Decoder α} {E : α → List UInt8 → Prop} {b : List UInt8} (h : Reads b.length d E) (v : α) :
    d.front b = some v ↔ ∃ w rest, E v w ∧ b = w ++ rest := by
  unfold Decoder.front
  rw [Option.map_eq_some_iff]
  constructor
  · rintro ⟨⟨v', used⟩, hd, rfl⟩
    obtain ⟨w, hw, ⟨rest, rfl⟩, -⟩ := (h b le_rfl v' used).mp hd
    exact ⟨w, rest, hw, rfl⟩
  · rintro ⟨w, rest, hw, rfl⟩
    exact ⟨(v, w.length), (h _ le_rfl v _).mpr ⟨w, hw, List.prefix_append _ _, rfl⟩, rfl⟩

/-- A string that is the encoding of its value, which is as `Q` says, for a decoder that takes other texts of
the same length and does not look behind them. -/
theorem front_canonical_iff {d : Decoder α} {enc : α → List UInt8} {E : α → List UInt8 → Prop} {Q : α → Prop}
    {b : List UInt8} (h : Reads b.length d E) (hlen : ∀ v w, E v w → w.length = (enc v).length) :
    (∀ v, d.front b = some v → b = enc v ∧ Q v) ↔
      ¬ ∃ v w rest, E v w ∧ b = w ++ rest ∧ (rest ≠ [] ∨ w ≠ enc v ∨ ¬ Q v) := by
  constructor
  · rintro hall ⟨v, w, rest, hw, hb, hbad⟩
    obtain ⟨heq, hq⟩ := hall v ((h.front v).mpr ⟨w, rest, hw, hb⟩)
    have hsplit : w ++ rest = enc v ++ [] := by rw [← hb, heq, List.append_nil]
    obtain ⟨hwenc, hrest⟩ := List.append_inj hsplit (hlen v w hw)
    rcases hbad with hbad | hbad | hbad
    · exact hbad hrest
    · exact hbad hwenc
    · exact hbad hq
  · intro hnone v hv
    obtain ⟨w, rest, hw, hb⟩ := (h.front v).mp hv
    have hgood : ¬ (rest ≠ [] ∨ w ≠ enc v ∨ ¬ Q v) := fun hbad => hnone ⟨v, w, rest, hw, hb, hbad⟩
    simp only [not_or, ne_eq, not_not] at hgood
    obtain ⟨rfl, rfl, hq⟩ := hgood
    exact ⟨by rw [hb, List.append_nil], hq⟩

/-- A count checked against what is left changes nothing when every item takes a byte. -/
theorem require_bind {d : Decoder α} {E : α → List UInt8 → Prop} (h : Reads n d E) {k : Nat}
    (hk : ∀ v w, E v w → k ≤ w.length) : Reads n (Decoder.require k >>= fun _ => d) E := by
  intro b hb v used
  rw [← h b hb]
  have hrequire : (Decoder.require k).run b = if k ≤ b.length then some ((), 0) else none := rfl
  rw [bind_run, hrequire]
  by_cases hreq : k ≤ b.length
  · have hget : getFrom b 0 = some b := by simp [getFrom]
    rw [if_pos hreq]
    simp only [hget]
    rcases d.run b with _ | ⟨r, more⟩
    · rfl
    · simp
  · rw [if_neg hreq]
    constructor
    · rintro ⟨⟩
    · intro hd
      obtain ⟨w, hE, hw, -⟩ := (h b hb v used).mp hd
      exact absurd ((hk v w hE).trans hw.length_le) hreq

/-- The whole string, where the decoder reads all strings of its length. -/
theorem exactly {d : Decoder α} {E : α → List UInt8 → Prop} {b : List UInt8} (h : Reads b.length d E) (v : α) :
    d.exactly b = some v ↔ E v b := by
  have hrun : d.exactly b = match d.run b with
    | some (v, used) => if used = b.length then some v else none
    | none => none := rfl
  rw [hrun]
  constructor
  · intro hsome
    rcases hd : d.run b with _ | ⟨v', used⟩
    · rw [hd] at hsome
      cases hsome
    · obtain ⟨w, hE, hw, rfl⟩ := (h b le_rfl v' used).mp hd
      rw [hd] at hsome
      by_cases hlen : w.length = b.length
      · simp only [if_pos hlen, Option.some.injEq] at hsome
        rw [← hsome, ← hw.eq_of_length hlen]
        exact hE
      · simp only [if_neg hlen] at hsome
        cases hsome
  · intro hE
    rw [(h b le_rfl v b.length).mpr ⟨b, hE, List.prefix_refl b, rfl⟩]
    simp

end Reads

/-! ## Formats -/

/-- `d` reads exactly the encodings of the valid values. -/
def Lawful (enc : α → List UInt8) (d : Decoder α) (Valid : α → Prop) : Prop :=
  ∀ n, Reads n d fun v w => Valid v ∧ w = enc v

namespace Lawful

variable {enc : α → List UInt8} {d : Decoder α} {Valid : α → Prop}

theorem decode_encode (h : Lawful enc d Valid) {v : α} (hv : Valid v) (rest : List UInt8) :
    d.run (enc v ++ rest) = some (v, (enc v).length) :=
  (h _ _ le_rfl v _).mpr ⟨enc v, ⟨hv, rfl⟩, List.prefix_append _ _, rfl⟩

theorem encode_decode (h : Lawful enc d Valid) {b : List UInt8} {v : α} {used : Nat}
    (hd : d.run b = some (v, used)) : Valid v ∧ used ≤ b.length ∧ enc v = b.take used := by
  obtain ⟨w, ⟨hv, rfl⟩, hw, rfl⟩ := (h _ b le_rfl v used).mp hd
  exact ⟨hv, hw.length_le, List.prefix_iff_eq_take.mp hw⟩

/-- No encoding is the beginning of another. -/
theorem append_inj (h : Lawful enc d Valid) {v v' : α} (hv : Valid v) (hv' : Valid v') {rest rest' : List UInt8}
    (heq : enc v ++ rest = enc v' ++ rest') : v = v' ∧ rest = rest' := by
  have hrun := h.decode_encode hv rest
  rw [heq, h.decode_encode hv' rest'] at hrun
  obtain ⟨rfl, -⟩ := Prod.mk.inj (Option.some.inj hrun)
  exact ⟨rfl, List.append_cancel_left heq⟩

theorem injective (h : Lawful enc d Valid) {v v' : α} (hv : Valid v) (hv' : Valid v') (heq : enc v = enc v') :
    v = v' :=
  (h.append_inj hv hv' (congrArg (· ++ []) heq)).1

theorem front_iff (h : Lawful enc d Valid) {b : List UInt8} {v : α} : d.front b = some v ↔ Valid v ∧ enc v <+: b := by
  rw [(h b.length).front v]
  constructor
  · rintro ⟨w, rest, ⟨hv, rfl⟩, rfl⟩
    exact ⟨hv, List.prefix_append _ _⟩
  · rintro ⟨hv, rest, rfl⟩
    exact ⟨enc v, rest, ⟨hv, rfl⟩, rfl⟩

/-- A string with nothing behind its value, for a decoder that does not look there. -/
theorem front_canonical_iff (h : Lawful enc d Valid) (b : List UInt8) :
    (∀ v, d.front b = some v → b = enc v) ↔ ¬ ∃ v rest, Valid v ∧ rest ≠ [] ∧ b = enc v ++ rest := by
  constructor
  · rintro hall ⟨v, rest, hv, hrest, rfl⟩
    have heq := hall v (h.front_iff.mpr ⟨hv, List.prefix_append _ _⟩)
    exact hrest (List.append_right_eq_self.mp heq)
  · intro hnone v hv
    obtain ⟨hvalid, rest, rfl⟩ := h.front_iff.mp hv
    by_contra hne
    refine hnone ⟨v, rest, hvalid, fun hrest => hne ?_, rfl⟩
    rw [hrest, List.append_nil]

/-- What is read as a whole is an encoding, and no part or continuation of another. -/
theorem exactly_comparable (h : Lawful enc d Valid) {v v' : α} (hv : Valid v) {w : List UInt8}
    (hw : w <+: enc v ∨ enc v <+: w) (hd : d.exactly w = some v') : v' = v ∧ w = enc v := by
  obtain ⟨hv', rfl⟩ := (Reads.exactly (h _) v').mp hd
  rcases hw with ⟨rest, hrest⟩ | ⟨rest, hrest⟩
  · obtain ⟨rfl, rfl⟩ := h.append_inj hv' hv (hrest.trans (List.append_nil _).symm)
    exact ⟨rfl, rfl⟩
  · obtain ⟨rfl, rfl⟩ := h.append_inj hv hv' (hrest.trans (List.append_nil _).symm)
    exact ⟨rfl, rfl⟩

end Lawful

/-- A bijection between the valid values and their encodings, stated on inputs. -/
structure Canonical (enc : α → List UInt8) (d : Decoder α) (Valid : α → Prop) : Prop where
  decode_encode : ∀ v, Valid v → ∀ rest, d.run (enc v ++ rest) = some (v, (enc v).length)
  encode_decode : ∀ b v used, d.run b = some (v, used) → Valid v ∧ used ≤ b.length ∧ enc v = b.take used

theorem lawful_iff_canonical {enc : α → List UInt8} {d : Decoder α} {Valid : α → Prop} :
    Lawful enc d Valid ↔ Canonical enc d Valid := by
  constructor
  · intro h
    exact ⟨fun v hv rest => h.decode_encode hv rest, fun b v used hd => h.encode_decode hd⟩
  · intro h n b _ v used
    constructor
    · intro hd
      obtain ⟨hv, hused, htake⟩ := h.encode_decode b v used hd
      exact ⟨enc v, ⟨hv, rfl⟩, htake ▸ List.take_prefix _ _, by rw [htake, List.length_take]; omega⟩
    · rintro ⟨w, ⟨hv, rfl⟩, ⟨rest, rfl⟩, rfl⟩
      exact h.decode_encode v hv rest

/-- No two byte strings are the same value. -/
theorem Canonical.unique {enc : α → List UInt8} {d : Decoder α} {Valid : α → Prop} (h : Canonical enc d Valid)
    {b b' : List UInt8} {v : α} (hb : d.run b = some (v, b.length)) (hb' : d.run b' = some (v, b'.length)) : b = b' := by
  have hv := (h.encode_decode b v _ hb).2.2
  have hv' := (h.encode_decode b' v _ hb').2.2
  rw [List.take_length] at hv hv'
  rw [← hv, hv']

/-! ## Big-endian numbers -/

/-- The low `k` bytes of `v`, most significant first. -/
def bigEndian (k v : Nat) : List UInt8 := (List.range k).reverse.map fun i => UInt8.ofNat (v / 256 ^ i)

def ofBigEndian (b : List UInt8) : Nat := b.foldl (fun acc x => acc * 256 + x.toNat) 0

@[simp] theorem bigEndian_length (k v : Nat) : (bigEndian k v).length = k := by simp [bigEndian]

theorem bigEndian_succ (k v : Nat) : bigEndian (k + 1) v = UInt8.ofNat (v / 256 ^ k) :: bigEndian k v := by
  simp [bigEndian, List.range_succ]

theorem foldl_bigEndian (b : List UInt8) (acc : Nat) :
    b.foldl (fun acc x => acc * 256 + x.toNat) acc = acc * 256 ^ b.length + ofBigEndian b := by
  induction b generalizing acc with
  | nil => simp [ofBigEndian]
  | cons x b ih =>
    show List.foldl _ (acc * 256 + x.toNat) b = _ + List.foldl _ (0 * 256 + x.toNat) b
    rw [ih, ih (0 * 256 + x.toNat), List.length_cons, pow_succ]
    ring

theorem ofBigEndian_cons (x : UInt8) (b : List UInt8) :
    ofBigEndian (x :: b) = x.toNat * 256 ^ b.length + ofBigEndian b := by
  show List.foldl _ (0 * 256 + x.toNat) b = _
  rw [foldl_bigEndian, Nat.zero_mul, Nat.zero_add]

theorem ofBigEndian_lt (b : List UInt8) : ofBigEndian b < 256 ^ b.length := by
  induction b with
  | nil => simp [ofBigEndian]
  | cons x b ih =>
    have hx : x.toNat ≤ 255 := Nat.le_of_lt_succ x.toNat_lt
    rw [ofBigEndian_cons, List.length_cons, pow_succ]
    calc x.toNat * 256 ^ b.length + ofBigEndian b
        ≤ 255 * 256 ^ b.length + ofBigEndian b := by gcongr
      _ < 256 ^ b.length * 256 := by omega

theorem ofBigEndian_bigEndian (k v : Nat) : ofBigEndian (bigEndian k v) = v % 256 ^ k := by
  induction k with
  | zero => simp [bigEndian, ofBigEndian, Nat.mod_one]
  | succ k ih =>
    have hx : (UInt8.ofNat (v / 256 ^ k)).toNat = v / 256 ^ k % 256 := UInt8.toNat_ofNat'
    rw [bigEndian_succ, ofBigEndian_cons, ih, bigEndian_length, hx, pow_succ, Nat.mod_mul]
    ring

theorem bigEndian_ofBigEndian (b : List UInt8) : bigEndian b.length (ofBigEndian b) = b := by
  induction b with
  | nil => rfl
  | cons x b ih =>
    have hlow := ofBigEndian_lt b
    have hpos : 0 < 256 ^ b.length := by positivity
    have hhigh : (x.toNat * 256 ^ b.length + ofBigEndian b) / 256 ^ b.length = x.toNat := by
      rw [Nat.mul_comm, Nat.mul_add_div hpos, Nat.div_eq_of_lt hlow, Nat.add_zero]
    rw [List.length_cons, bigEndian_succ, ofBigEndian_cons, hhigh, UInt8.ofNat_toNat]
    congr 1
    calc bigEndian b.length (x.toNat * 256 ^ b.length + ofBigEndian b)
        = bigEndian b.length (ofBigEndian b) := by
          unfold bigEndian
          refine List.map_congr_left fun i hi => ?_
          have hi : i < b.length := List.mem_range.mp (List.mem_reverse.mp hi)
          obtain ⟨j, hj⟩ : ∃ j, b.length = i + 1 + j := ⟨b.length - (i + 1), by omega⟩
          apply UInt8.toNat_inj.mp
          rw [UInt8.toNat_ofNat', UInt8.toNat_ofNat', hj, pow_add, pow_succ]
          have hsplit : x.toNat * (256 ^ i * 256 * 256 ^ j) + ofBigEndian b =
              256 ^ i * (256 * (x.toNat * 256 ^ j)) + ofBigEndian b := by ring
          rw [hsplit, Nat.mul_add_div (by positivity)]
          omega
      _ = b := ih

end Codec
