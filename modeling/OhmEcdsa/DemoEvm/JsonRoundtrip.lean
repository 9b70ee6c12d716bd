import OhmEcdsa.DemoEvm.JsonGrammar

/-!
# What the writer writes, the parser reads

The writer's output is a text of the grammar, so a parser with debug assertions reads it
back.  Without them a lone quote is the whole literal: the output then holds two quotes for
each string of the value, and a text of that build one, so that it is read back only where
there is no string.

    parse build (toString v) = .ok v ↔ build = .debug ∨ v has no string        (reads_back_iff)
-/

set_option linter.unusedSectionVars false

namespace OhmEcdsa

variable {Φ : Type} [F64 Φ]

/-! ## Specification -/

/-- Nested at most that many levels, every value in it as `P` says. -/
def Json.Within (P : Json Φ → Prop) : Nat → Json Φ → Prop
  | 0, .array _ => False
  | 0, .object _ => False
  | levels + 1, .array items => P (.array items) ∧ ∀ item ∈ items, Json.Within P levels item
  | levels + 1, .object pairs => P (.object pairs) ∧ ∀ p ∈ pairs, Json.Within P levels p.2
  | _, v => P v

def NotFloat (v : Json Φ) : Prop := ∀ f, v ≠ .float f

/-- Neither a string nor an object with a key. -/
def NoString (v : Json Φ) : Prop := (∀ s, v ≠ .str s) ∧ ∀ pairs, v = .object pairs → pairs = []

/-! ## Lemmas: characters -/

/-- The bytes of a text. -/
def encodeChars (cs : List Char) : Bytes := cs.flatMap String.utf8EncodeChar

@[simp] theorem encodeChars_nil : encodeChars [] = [] := rfl

@[simp] theorem encodeChars_append (cs ds : List Char) : encodeChars (cs ++ ds) = encodeChars cs ++ encodeChars ds :=
  List.flatMap_append

theorem encodeChars_cons (c : Char) (cs : List Char) : encodeChars (c :: cs) = String.utf8EncodeChar c ++ encodeChars cs :=
  List.flatMap_cons

/-- A control character in four digits. -/
theorem hex4Lower_text {n : Nat} (hn : n < 0x20) : HexText n (encodeChars (hex4Lower n)) := by
  have hall : ∀ n < 0x20, (encodeChars (hex4Lower n)).map hexDigit = [0, 0, n / 16, n % 16].map some := by decide
  refine ⟨[0, 0, n / 16, n % 16], hall n hn, rfl, ?_⟩
  show n = (((0 * 16 + 0) * 16 + 0) * 16 + n / 16) * 16 + n % 16
  omega

/-- The mandatory escapes. -/
theorem writeChar_text (c : Char) : CharText c (encodeChars (writeChar c)) := by
  have hsimple : ∀ b d : Char, (b.toUInt8, d) ∈ escapeTable → b.toNat < 0x80 →
      CharText d (encodeChars ['\\', b]) := by
    intro b d hmem hb
    rw [encodeChars_cons, encodeChars_cons, encodeChar_ascii hb, encodeChars_nil, List.append_nil]
    exact CharText.escaped (EscapeText.simple hmem)
  unfold writeChar
  split_ifs with h1 h2 h3 h4 h5 h6
  · exact h1 ▸ hsimple '"' '"' (by decide) (by decide)
  · exact h2 ▸ hsimple '\\' '\\' (by decide) (by decide)
  · exact h3 ▸ hsimple 'n' '\n' (by decide) (by decide)
  · exact h4 ▸ hsimple 'r' '\r' (by decide) (by decide)
  · exact h5 ▸ hsimple 't' '\t' (by decide) (by decide)
  · have htext := CharText.escaped (EscapeText.unicode (hex4Lower_text h6) (Or.inl (by omega)))
    rw [Char.ofNat_toNat] at htext
    exact htext
  · rw [encodeChars_cons, encodeChars_nil, List.append_nil]
    exact CharText.unescaped (by omega) h1 h2

theorem writeStr_text (s : String) : StringText s (encodeChars (writeStr s)) := by
  have hchars : ∀ cs : List Char, Chars cs (encodeChars (cs.flatMap writeChar)) := by
    intro cs
    induction cs with
    | nil => exact Chars.nil
    | cons c cs ih =>
      rw [List.flatMap_cons, encodeChars_append]
      exact Chars.cons (writeChar_text c) ih
  refine ⟨_, hchars s.toList, ?_⟩
  rw [writeStr, encodeChars_append, encodeChars_append]
  rfl

/-! ## Lemmas: integers -/

theorem digitChar_byte {d : Nat} (hd : d < 10) : String.utf8EncodeChar d.digitChar = [UInt8.ofNat (48 + d)] ∧
    isDigit (UInt8.ofNat (48 + d)) = true ∧ (UInt8.ofNat (48 + d)).toNat - '0'.toNat = d ∧
    (UInt8.ofNat (48 + d) = '0'.toUInt8 ↔ d = 0) := by
  have hall : ∀ d < 10, String.utf8EncodeChar d.digitChar = [UInt8.ofNat (48 + d)] ∧
      isDigit (UInt8.ofNat (48 + d)) = true ∧ (UInt8.ofNat (48 + d)).toNat - '0'.toNat = d ∧
      (UInt8.ofNat (48 + d) = '0'.toUInt8 ↔ d = 0) := by decide
  exact hall d hd

/-- The decimal digits of a number, with its value. -/
theorem toDigits_text (n : Nat) : ∃ b t, encodeChars (Nat.toDigits 10 n) = b :: t ∧ isDigit b = true ∧ Digits t ∧
    (b = '0'.toUInt8 → n = 0) ∧ (b :: t).foldl (fun acc d => acc * 10 + (d.toNat - '0'.toNat)) 0 = n := by
  induction n using Nat.strongRecOn with
  | ind n ih =>
    rw [Nat.toDigits_eq_if (by decide)]
    split
    · rename_i hn
      obtain ⟨hchar, hdigit, hval, hzero⟩ := digitChar_byte hn
      refine ⟨_, [], by rw [encodeChars_cons, hchar, encodeChars_nil, List.append_nil], hdigit, fun b h => ?_, hzero.mp, ?_⟩
      · cases h
      · rw [List.foldl_cons, List.foldl_nil, hval]
        omega
    · rename_i hn
      obtain ⟨b, t, heq, hb, ht, hzero, hval⟩ := ih (n / 10) (by omega)
      obtain ⟨hchar, hdigit, hlast, -⟩ := digitChar_byte (Nat.mod_lt n (by decide : 0 < 10))
      refine ⟨b, t ++ [UInt8.ofNat (48 + n % 10)], ?_, hb, ?_, fun h => ?_, ?_⟩
      · rw [encodeChars_append, heq, encodeChars_cons, hchar, encodeChars_nil, List.append_nil, List.cons_append]
      · intro x hx
        rcases List.mem_append.mp hx with hx | hx
        · exact ht x hx
        · rw [List.mem_singleton.mp hx]
          exact hdigit
      · have := hzero h
        omega
      · rw [← List.cons_append, List.foldl_append, hval, List.foldl_cons, List.foldl_nil, hlast]
        omega

theorem repr_text (n : Nat) : IntPart (encodeChars (Nat.repr n).toList) ∧
    (encodeChars (Nat.repr n).toList).foldl (fun acc d => acc * 10 + (d.toNat - '0'.toNat)) 0 = n ∧
    (encodeChars (Nat.repr n).toList).head? ≠ some '-'.toUInt8 := by
  obtain ⟨b, t, heq, hb, ht, hzero, hval⟩ := toDigits_text n
  rw [Nat.toList_repr, heq]
  refine ⟨?_, hval, fun h => ?_⟩
  · by_cases hb0 : b = '0'.toUInt8
    · have hn := hzero hb0
      rw [hn, Nat.toDigits_zero] at heq
      exact Or.inl (heq.symm.trans rfl)
    · exact Or.inr ⟨b, t, rfl, hb, hb0, ht⟩
  · exact (beq_eq_false_iff_ne.mp (not_sign_of_digit hb).2.1) (Option.some.inj h)

theorem int_text (i : I128) : NumberOf (.int i : Json Φ) (encodeChars (toString i.val).toList) := by
  have htext : ∀ minus w : Bytes, (minus = [] ∨ minus = ['-'.toUInt8]) → IntPart w → NumberText false (minus ++ w) := by
    intro minus w hminus hw
    exact ⟨minus, w, [], [], hminus, hw, Or.inl rfl, Or.inl rfl, by simp, by simp⟩
  refine Or.inl ?_
  rcases hi : i.val with n | n
  · obtain ⟨hint, hval, hhead⟩ := repr_text n
    have hstring : toString (Int.ofNat n) = Nat.repr n := rfl
    rw [hstring]
    refine ⟨htext [] _ (Or.inl rfl) hint, i, ?_, rfl⟩
    rw [hi, intValue]
    dsimp only
    rw [if_neg hhead, hval]
    rfl
  · obtain ⟨hint, hval, -⟩ := repr_text (n + 1)
    have hstring : (toString (Int.negSucc n)).toList = '-' :: (Nat.repr (n + 1)).toList := by
      show ("-" ++ Nat.repr (n + 1)).toList = _
      rw [String.toList_append]
      rfl
    have hminus : String.utf8EncodeChar '-' = ['-'.toUInt8] := rfl
    rw [hstring, encodeChars_cons, hminus]
    refine ⟨htext ['-'.toUInt8] _ (Or.inr rfl) hint, i, ?_, rfl⟩
    rw [hi, intValue]
    dsimp only
    rw [List.singleton_append, List.head?_cons, if_pos rfl, List.tail_cons, hval]
    rfl

/-! ## Lemmas: the writer's output -/

/-- The commas between items. -/
theorem writeItems_text {Item : Json Φ → Bytes → Prop} {items : List (Json Φ)}
    (h : ∀ item ∈ items, Item item (encodeChars item.write)) (hne : items ≠ []) :
    CommaText Item items (encodeChars (writeItems true items)) := by
  induction items with
  | nil => exact absurd rfl hne
  | cons item items ih =>
    have hitem := h item (by simp)
    cases items with
    | nil =>
      have hone := CommaText.one Ws.nil hitem Ws.nil
      simpa [writeItems] using hone
    | cons next items =>
      have hcons := CommaText.cons Ws.nil hitem Ws.nil (ih (fun x hx => h x (by simp [hx])) (by simp))
      have hcomma : String.utf8EncodeChar ',' = [','.toUInt8] := rfl
      simpa [writeItems, encodeChars_cons, hcomma] using hcons

theorem writePairs_text {lit : String → Bytes → Prop} {Item : Json Φ → Bytes → Prop} {pairs : List (String × Json Φ)}
    (hlit : ∀ s, lit s (encodeChars (writeStr s))) (h : ∀ p ∈ pairs, Item p.2 (encodeChars p.2.write)) (hne : pairs ≠ []) :
    CommaText (PairText lit Item) pairs (encodeChars (writePairs true pairs)) := by
  induction pairs with
  | nil => exact absurd rfl hne
  | cons p pairs ih =>
    obtain ⟨k, v⟩ := p
    have hv := h (k, v) (by simp)
    have hcolon : String.utf8EncodeChar ':' = [':'.toUInt8] := rfl
    have hpair : PairText lit Item (k, v) (encodeChars (writeStr k ++ [':'] ++ v.write)) := by
      refine ⟨_, [], [], _, hlit k, Ws.nil, Ws.nil, hv, ?_⟩
      simp [encodeChars_cons, hcolon]
    cases pairs with
    | nil =>
      have hone := CommaText.one Ws.nil hpair Ws.nil
      simpa [writePairs] using hone
    | cons next pairs =>
      have hcons := CommaText.cons Ws.nil hpair Ws.nil (ih (fun x hx => h x (by simp [hx])) (by simp))
      have hcomma : String.utf8EncodeChar ',' = [','.toUInt8] := rfl
      obtain ⟨k', v'⟩ := next
      simpa [writePairs, encodeChars_cons, hcomma] using hcons

theorem Json.Within.and {P Q : Json Φ → Prop} {levels : Nat} {v : Json Φ} (hp : v.Within P levels) (hq : v.Within Q levels) :
    v.Within (fun u => P u ∧ Q u) levels := by
  induction levels generalizing v with
  | zero =>
    cases v with
    | array => exact hp
    | object => exact hp
    | _ => exact ⟨hp, hq⟩
  | succ levels ih =>
    cases v with
    | array items => exact ⟨⟨hp.1, hq.1⟩, fun item hitem => ih (hp.2 item hitem) (hq.2 item hitem)⟩
    | object pairs => exact ⟨⟨hp.1, hq.1⟩, fun p hpair => ih (hp.2 p hpair) (hq.2 p hpair)⟩
    | _ => exact ⟨hp, hq⟩

theorem Json.Within.mono {P Q : Json Φ → Prop} (h : ∀ v, P v → Q v) {levels : Nat} {v : Json Φ} (hv : v.Within P levels) :
    v.Within Q levels := by
  induction levels generalizing v with
  | zero =>
    cases v with
    | array => exact hv
    | object => exact hv
    | _ => exact h _ hv
  | succ levels ih =>
    cases v with
    | array items => exact ⟨h _ hv.1, fun item hitem => ih (hv.2 item hitem)⟩
    | object pairs => exact ⟨h _ hv.1, fun p hpair => ih (hv.2 p hpair)⟩
    | _ => exact h _ hv

/-- A value that a build's literals can say: no string, where they are not what is written. -/
def Sayable (lit : String → Bytes → Prop) (v : Json Φ) : Prop :=
  NotFloat v ∧ ((∀ s, lit s (encodeChars (writeStr s))) ∨ NoString v)

theorem scalar_text {lit : String → Bytes → Prop} {v : Json Φ} (h : Sayable lit v) (harray : ∀ items, v ≠ .array items)
    (hobject : ∀ pairs, v ≠ .object pairs) : ScalarText lit v (encodeChars v.write) := by
  cases v with
  | null =>
    have hnull : encodeChars "null".toList = ascii "null" := by decide
    exact scalarText_iff.1.mpr hnull
  | bool b =>
    have hbool : encodeChars (if b then "true" else "false").toList = if b then ascii "true" else ascii "false" := by
      cases b <;> decide
    exact (scalarText_iff.2.1 b).mpr hbool
  | int i => exact (scalarText_iff.2.2.2.1 i).mpr (int_text i)
  | float f => exact absurd rfl (h.1 f)
  | str s =>
    refine (scalarText_iff.2.2.1 s).mpr ?_
    rcases h.2 with hlit | hnone
    · exact hlit s
    · exact absurd rfl (hnone.1 s)
  | array items => exact absurd rfl (harray items)
  | object pairs => exact absurd rfl (hobject pairs)

theorem valueText_of_scalar {lit : String → Bytes → Prop} {levels : Nat} {v : Json Φ} {w : Bytes}
    (h : ScalarText lit v w) : ValueText lit levels v w := by
  cases levels with
  | zero => exact h
  | succ levels => exact Or.inl h

/-- **The writer writes texts of the grammar.** -/
theorem write_text {lit : String → Bytes → Prop} {levels : Nat} {v : Json Φ} (h : v.Within (Sayable lit) levels) :
    ValueText lit levels v (encodeChars v.write) := by
  have hopen : ∀ c : Char, c.toNat < 0x80 → ∀ cs : List Char, encodeChars (c :: cs) = c.toUInt8 :: encodeChars cs := by
    intro c hc cs
    rw [encodeChars_cons, encodeChar_ascii hc]
    rfl
  induction levels generalizing v with
  | zero =>
    cases v with
    | array => exact h.elim
    | object => exact h.elim
    | _ => exact scalar_text h (by simp) (by simp)
  | succ levels ih =>
    cases v with
    | array items =>
      refine Or.inr (Or.inl ⟨items, encodeChars (writeItems true items ++ [']']), rfl, ?_, ?_⟩)
      · refine ⟨encodeChars (writeItems true items), ?_, by rw [encodeChars_append, hopen ']' (by decide)]; rfl⟩
        by_cases hne : items = []
        · subst hne
          exact Or.inl ⟨rfl, Ws.nil⟩
        · exact Or.inr (writeItems_text (fun item hitem => ih (h.2 item hitem)) hne)
      · show encodeChars (['['] ++ writeItems true items ++ [']']) = _
        rw [List.append_assoc, List.singleton_append, hopen '[' (by decide)]
    | object pairs =>
      refine Or.inr (Or.inr ⟨pairs, encodeChars (writePairs true pairs ++ ['}']), rfl, ?_, ?_⟩)
      · refine ⟨encodeChars (writePairs true pairs), ?_, by rw [encodeChars_append, hopen '}' (by decide)]; rfl⟩
        by_cases hne : pairs = []
        · subst hne
          exact Or.inl ⟨rfl, Ws.nil⟩
        · have hlit := h.1.2.resolve_right fun hnone => hne (hnone.2 pairs rfl)
          exact Or.inr (writePairs_text hlit (fun p hp => ih (h.2 p hp)) hne)
      · show encodeChars (['{'] ++ writePairs true pairs ++ ['}']) = _
        rw [List.append_assoc, List.singleton_append, hopen '{' (by decide)]
    | _ => exact valueText_of_scalar (scalar_text h (by simp) (by simp))

/-! ## Lemmas: quotes -/

/-- How many quotes a text holds. -/
def quotes (w : Bytes) : Nat := w.count '"'.toUInt8

@[simp] theorem quotes_nil : quotes [] = 0 := rfl

@[simp] theorem quotes_append (w1 w2 : Bytes) : quotes (w1 ++ w2) = quotes w1 + quotes w2 := List.count_append

theorem quotes_cons {b : UInt8} (hb : b ≠ '"'.toUInt8) (w : Bytes) : quotes (b :: w) = quotes w :=
  List.count_cons_of_ne hb

theorem Ws.quotes {w : Bytes} (h : Ws w) : quotes w = 0 := by
  refine List.count_eq_zero.mpr fun hmem => ?_
  have := h _ hmem
  revert this
  decide

theorem NumberText.quotes {float : Bool} {w : Bytes} (h : NumberText float w) : quotes w = 0 := by
  refine List.count_eq_zero.mpr fun hmem => ?_
  have := h.mem _ hmem
  revert this
  decide

section Quotes

variable {lit lit' : String → Bytes → Prop}

theorem commaText_quotes {α : Type} {I J : α → Bytes → Prop} {l : List α} {w w' : Bytes}
    (hitem : ∀ a ∈ l, ∀ x y, I a x → J a y → 2 * quotes x ≤ quotes y) (h : CommaText I l w) (h' : CommaText J l w') :
    2 * quotes w ≤ quotes w' := by
  have hcomma : ','.toUInt8 ≠ '"'.toUInt8 := by decide
  induction h generalizing w' with
  | one h1 ha h2 =>
    cases h' with
    | one h1' ha' h2' =>
      have := hitem _ (by simp) _ _ ha ha'
      simp only [quotes_append, h1.quotes, h2.quotes, h1'.quotes, h2'.quotes]
      omega
    | cons _ _ _ hrest' => cases hrest'
  | cons h1 ha h2 hrest ih =>
    cases h' with
    | one => cases hrest
    | cons h1' ha' h2' hrest' =>
      have hhead := hitem _ (by simp) _ _ ha ha'
      have htail := ih (fun a h => hitem a (by simp [h])) hrest'
      simp only [quotes_append, quotes_cons hcomma, h1.quotes, h2.quotes, h1'.quotes, h2'.quotes]
      omega

theorem listText_quotes {α : Type} {I J : α → Bytes → Prop} {close : UInt8} {l : List α} {w w' : Bytes}
    (hitem : ∀ a ∈ l, ∀ x y, I a x → J a y → 2 * quotes x ≤ quotes y) (hclose : close ≠ '"'.toUInt8)
    (h : ListText I close l w) (h' : ListText J close l w') : 2 * quotes w ≤ quotes w' := by
  obtain ⟨body, hbody, rfl⟩ := h
  obtain ⟨body', hbody', rfl⟩ := h'
  simp only [quotes_append, quotes_cons hclose, quotes_nil]
  rcases hbody with ⟨rfl, hws⟩ | hbody
  · rw [hws.quotes]
    omega
  · rcases hbody' with ⟨rfl, -⟩ | hbody'
    · cases hbody
    · have := commaText_quotes hitem hbody hbody'
      omega

theorem scalarText_quotes (hlit : ∀ s x y, lit s x → lit' s y → 2 * quotes x ≤ quotes y) {v : Json Φ} {w w' : Bytes}
    (h : ScalarText lit v w) (h' : ScalarText lit' v w') : 2 * quotes w ≤ quotes w' := by
  rcases h with ⟨rfl, rfl⟩ | ⟨rfl, rfl⟩ | ⟨rfl, rfl⟩ | (⟨hw, -⟩ | ⟨hw, -⟩) | ⟨s, rfl, hs⟩
  · exact Nat.zero_le _
  · exact Nat.zero_le _
  · exact Nat.zero_le _
  · rw [hw.quotes]
    exact Nat.zero_le _
  · rw [hw.quotes]
    exact Nat.zero_le _
  · exact hlit s w w' hs ((scalarText_iff.2.2.1 s).mp h')

/-- The texts of one value, where the literals of the one kind have at most half the quotes. -/
theorem valueText_quotes (hlit : ∀ s x y, lit s x → lit' s y → 2 * quotes x ≤ quotes y) {levels : Nat} {v : Json Φ}
    {w w' : Bytes} (h : ValueText lit levels v w) (h' : ValueText lit' levels v w') : 2 * quotes w ≤ quotes w' := by
  induction levels generalizing v w w' with
  | zero => exact scalarText_quotes hlit h h'
  | succ levels ih =>
    have hne : '['.toUInt8 ≠ '"'.toUInt8 ∧ '{'.toUInt8 ≠ '"'.toUInt8 ∧ ']'.toUInt8 ≠ '"'.toUInt8 ∧
        '}'.toUInt8 ≠ '"'.toUInt8 ∧ ':'.toUInt8 ≠ '"'.toUInt8 := by decide
    rcases h with h | ⟨items, body, rfl, hbody, rfl⟩ | ⟨pairs, body, rfl, hbody, rfl⟩
    · rcases h' with h' | ⟨items, -, rfl, -⟩ | ⟨pairs, -, rfl, -⟩
      · exact scalarText_quotes hlit h h'
      · exact absurd h (scalarText_iff.2.2.2.2.2.1 items)
      · exact absurd h (scalarText_iff.2.2.2.2.2.2 pairs)
    · rcases h' with h' | ⟨items', body', hv, hbody', rfl⟩ | ⟨pairs, -, hv, -⟩
      · exact absurd h' (scalarText_iff.2.2.2.2.2.1 items)
      · cases hv
        rw [quotes_cons hne.1, quotes_cons hne.1]
        have hitem : ∀ u ∈ items, ∀ x y, ValueText lit levels u x → ValueText lit' levels u y → 2 * quotes x ≤ quotes y :=
          fun u _ x y hx hy => ih hx hy
        exact listText_quotes hitem hne.2.2.1 hbody hbody'
      · cases hv
    · rcases h' with h' | ⟨items, -, hv, -⟩ | ⟨pairs', body', hv, hbody', rfl⟩
      · exact absurd h' (scalarText_iff.2.2.2.2.2.2 pairs)
      · cases hv
      · cases hv
        rw [quotes_cons hne.2.1, quotes_cons hne.2.1]
        refine listText_quotes (fun p _ x y hx hy => ?_) hne.2.2.2.1 hbody hbody'
        obtain ⟨k, w1, w2, u, hk, h1, h2, hu, rfl⟩ := hx
        obtain ⟨k', w1', w2', u', hk', h1', h2', hu', rfl⟩ := hy
        have hkey := hlit p.1 k k' hk hk'
        have hvalue := ih hu hu'
        simp only [quotes_append, quotes_cons hne.2.2.2.2, h1.quotes, h2.quotes, h1'.quotes, h2'.quotes]
        omega

theorem commaText_mem {α : Type} {I : α → Bytes → Prop} {l : List α} {w : Bytes} (h : CommaText I l w) :
    ∀ a ∈ l, ∃ x, I a x ∧ quotes x ≤ quotes w := by
  induction h with
  | one h1 ha h2 =>
    intro a hmem
    rw [List.mem_singleton.mp hmem]
    refine ⟨_, ha, ?_⟩
    simp only [quotes_append]
    omega
  | cons h1 ha h2 hrest ih =>
    intro a hmem
    have hcomma : ','.toUInt8 ≠ '"'.toUInt8 := by decide
    simp only [quotes_append, quotes_cons hcomma]
    rcases List.mem_cons.mp hmem with rfl | hmem
    · refine ⟨_, ha, ?_⟩
      omega
    · obtain ⟨x, hx, hle⟩ := ih a hmem
      refine ⟨x, hx, ?_⟩
      omega

/-- Each item of a list is in it. -/
theorem listText_mem {α : Type} {I : α → Bytes → Prop} {close : UInt8} {l : List α} {w : Bytes} (h : ListText I close l w) :
    ∀ a ∈ l, ∃ x, I a x ∧ quotes x ≤ quotes w := by
  obtain ⟨body, ⟨rfl, -⟩ | hbody, rfl⟩ := h
  · intro a ha
    cases ha
  · intro a ha
    obtain ⟨x, hx, hle⟩ := commaText_mem hbody a ha
    refine ⟨x, hx, ?_⟩
    rw [quotes_append]
    omega

theorem scalar_noString (hlit : ∀ s x, lit s x → 0 < quotes x) {levels : Nat} {v : Json Φ} {w : Bytes}
    (h : ScalarText lit v w) (hw : quotes w = 0) : v.Within NoString levels := by
  rcases h with ⟨rfl, -⟩ | ⟨rfl, -⟩ | ⟨rfl, -⟩ | (⟨-, i, -, rfl⟩ | ⟨-, text, f, -, -, rfl⟩) | ⟨s, rfl, hs⟩
  · cases levels <;> simp [Json.Within, NoString]
  · cases levels <;> simp [Json.Within, NoString]
  · cases levels <;> simp [Json.Within, NoString]
  · cases levels <;> simp [Json.Within, NoString]
  · cases levels <;> simp [Json.Within, NoString]
  · have := hlit s w hs
    omega

/-- A text without a quote is of a value without a string. -/
theorem noString_of_quotes (hlit : ∀ s x, lit s x → 0 < quotes x) {levels : Nat} {v : Json Φ} {w : Bytes}
    (h : ValueText lit levels v w) (hw : quotes w = 0) : v.Within NoString levels := by
  induction levels generalizing v w with
  | zero => exact scalar_noString hlit h hw
  | succ levels ih =>
    rcases h with h | ⟨items, body, rfl, hbody, rfl⟩ | ⟨pairs, body, rfl, hbody, rfl⟩
    · exact scalar_noString hlit h hw
    · rw [quotes_cons (by decide)] at hw
      refine ⟨⟨by simp, by simp⟩, fun item hitem => ?_⟩
      obtain ⟨x, hx, hle⟩ := listText_mem hbody item hitem
      exact ih hx (by omega)
    · rw [quotes_cons (by decide)] at hw
      have hempty : pairs = [] := by
        by_contra hne
        obtain ⟨p, rest, rfl⟩ := List.exists_cons_of_ne_nil hne
        obtain ⟨x, ⟨k, w1, w2, u, hk, -, -, -, rfl⟩, hle⟩ := listText_mem hbody p (by simp)
        have hpos := hlit p.1 k hk
        rw [quotes_append] at hle
        omega
      subst hempty
      refine ⟨⟨by simp, fun _ hv => ?_⟩, fun p hp => ?_⟩
      · cases hv
        rfl
      · cases hp

end Quotes

/-! ## Correctness -/

theorem utf8_toString (v : Json Φ) : utf8 v.toString = encodeChars v.write := utf8_ofList v.write

theorem doc_write {lit : String → Bytes → Prop} {v : Json Φ} (h : v.Within (Sayable lit) MAX_DEPTH) :
    Doc lit v (utf8 v.toString) :=
  ⟨[], _, [], Ws.nil, write_text h, Ws.nil, by rw [utf8_toString]; simp⟩

/-- A written value with a string is not a text of lone quotes. -/
theorem noString_of_oneQuote {v : Json Φ} (h : v.Within NotFloat MAX_DEPTH) (hdoc : Doc OneQuote v (utf8 v.toString)) :
    v.Within NoString MAX_DEPTH := by
  obtain ⟨w1, body, w2, h1, hbody, h2, heq⟩ := hdoc
  have hwritten : ValueText StringText MAX_DEPTH v (encodeChars v.write) :=
    write_text (Json.Within.mono (fun _ hu => ⟨hu, Or.inl writeStr_text⟩) h)
  have hlit : ∀ s x y, OneQuote s x → StringText s y → 2 * quotes x ≤ quotes y := by
    rintro s x y ⟨-, rfl⟩ ⟨body, -, rfl⟩
    rw [show '"'.toUInt8 :: (body ++ ['"'.toUInt8]) = ['"'.toUInt8] ++ (body ++ ['"'.toUInt8]) from rfl, quotes_append,
      quotes_append]
    omega
  have hle := valueText_quotes hlit hbody hwritten
  rw [← utf8_toString, heq, quotes_append, quotes_append, h1.quotes, h2.quotes] at hle
  refine noString_of_quotes (fun s x hx => ?_) hbody (by omega)
  rw [hx.2]
  decide

/-- **A written value is read back** by a build with debug assertions; by one without them, if
it holds no string. -/
theorem reads_back_iff (build : Build) {v : Json Φ} (hv : v.Within NotFloat MAX_DEPTH) :
    parse build v.toString = .ok v ↔ build = .debug ∨ v.Within NoString MAX_DEPTH := by
  rw [parse_ok_iff]
  cases build with
  | debug =>
    refine iff_of_true (doc_write ?_) (Or.inl rfl)
    exact Json.Within.mono (fun _ hu => ⟨hu, Or.inl writeStr_text⟩) hv
  | release =>
    constructor
    · intro h
      exact Or.inr (noString_of_oneQuote hv h)
    · intro h
      have hnone : v.Within NoString MAX_DEPTH := h.resolve_left (by decide)
      refine doc_write (Json.Within.mono (fun u hu => ?_) (hv.and hnone))
      exact ⟨hu.1, Or.inr hu.2⟩

/-- Numbers with a fraction or an exponent, as their text. -/
instance textFloat : F64 String where
  parse := some
  display := id
  parse_number _ _ := rfl

def flags : Json String := .array [.bool true, .int ⟨-7, by decide⟩]

def account : Json String := .object [("name", .str "é\""), ("flags", flags)]

/-- The object is read back with debug assertions only, the list in both builds. -/
theorem reads_back_iff_account : parse .debug account.toString = .ok account ∧
    parse .release account.toString ≠ .ok account ∧ parse .release flags.toString = .ok flags := by
  have haccount : account.Within NotFloat MAX_DEPTH := by simp [account, flags, Json.Within, NotFloat, MAX_DEPTH]
  have hflags : flags.Within NotFloat MAX_DEPTH := by simp [flags, Json.Within, NotFloat, MAX_DEPTH]
  have hstring : ¬ account.Within NoString MAX_DEPTH := by simp [account, Json.Within, NoString, MAX_DEPTH]
  refine ⟨(reads_back_iff .debug haccount).mpr (Or.inl rfl), fun h => ?_, (reads_back_iff .release hflags).mpr (Or.inr ?_)⟩
  · exact ((reads_back_iff .release haccount).mp h).elim (by decide) hstring
  · simp [flags, Json.Within, NoString, MAX_DEPTH]

end OhmEcdsa
