import OhmEcdsa.DemoEvm.Json

/-!
# The grammar of RFC 8259, and what the parser reads

The grammar over the bytes of a text, with the value that each text stands for and the
parser's limits: at most `MAX_DEPTH` levels, integers of 128 bits.  It is parametrised by
what a string literal is.  The parser reads exactly the texts of the grammar of its build:

    parse build input = .ok v ↔ Doc (literalOf build) v (utf8 input)        (parse_ok_iff)

and it never panics.  In a build without debug assertions the only string literal is a lone
quote, which stands for the empty string.
-/

set_option linter.unusedSectionVars false

namespace OhmEcdsa

open Descent

variable {Φ : Type} [F64 Φ]

/-! ## Specification: strings -/

/-- `%x22 / %x5C / %x2F / %x62 / %x66 / %x6E / %x72 / %x74` -/
def escapeTable : List (UInt8 × Char) :=
  [('"'.toUInt8, '"'), ('\\'.toUInt8, '\\'), ('/'.toUInt8, '/'), ('b'.toUInt8, Char.ofNat 8),
    ('f'.toUInt8, Char.ofNat 12), ('n'.toUInt8, '\n'), ('r'.toUInt8, '\r'), ('t'.toUInt8, '\t')]

/-- `4HEXDIG` -/
def HexText (v : Nat) (h : Bytes) : Prop :=
  ∃ ds : List Nat, h.map hexDigit = ds.map some ∧ ds.length = 4 ∧ v = ds.foldl (fun acc d => acc * 16 + d) 0

/-- What follows a backslash, with the character it stands for: a surrogate is one of a pair. -/
inductive EscapeText : Char → Bytes → Prop
  | simple {b : UInt8} {c : Char} : (b, c) ∈ escapeTable → EscapeText c [b]
  | unicode {v : Nat} {h : Bytes} : HexText v h → v.isValidChar → EscapeText (Char.ofNat v) ('u'.toUInt8 :: h)
  | pair {hi lo : Nat} {h h' : Bytes} : HexText hi h → HexText lo h' → 0xd800 ≤ hi → hi < 0xdc00 → 0xdc00 ≤ lo →
      lo < 0xe000 → EscapeText (Char.ofNat (0x10000 + (hi - 0xd800) * 1024 + (lo - 0xdc00)))
        ('u'.toUInt8 :: h ++ ('\\'.toUInt8 :: 'u'.toUInt8 :: h'))

/-- `char`, with the character it stands for; `unescaped = %x20-21 / %x23-5B / %x5D-10FFFF`. -/
inductive CharText : Char → Bytes → Prop
  | unescaped {c : Char} : 0x20 ≤ c.toNat → c ≠ '"' → c ≠ '\\' → CharText c (String.utf8EncodeChar c)
  | escaped {c : Char} {w : Bytes} : EscapeText c w → CharText c ('\\'.toUInt8 :: w)

/-- `*char` -/
inductive Chars : List Char → Bytes → Prop
  | nil : Chars [] []
  | cons {c : Char} {cs : List Char} {w rest : Bytes} : CharText c w → Chars cs rest → Chars (c :: cs) (w ++ rest)

/-- `string = quotation-mark *char quotation-mark`, with the string it stands for. -/
def StringText (s : String) (w : Bytes) : Prop :=
  ∃ body, Chars s.toList body ∧ w = '"'.toUInt8 :: (body ++ ['"'.toUInt8])

/-- A quote that is not moved over closes the string. -/
def OneQuote (s : String) (w : Bytes) : Prop := s = "" ∧ w = ['"'.toUInt8]

def literalOf : Build → String → Bytes → Prop
  | .debug => StringText
  | .release => OneQuote

/-! ## Specification: values -/

def Ws (w : Bytes) : Prop := ∀ b ∈ w, isWs b = true

/-- `item *( value-separator item )`, with white space around the items. -/
inductive CommaText {α : Type} (Item : α → Bytes → Prop) : List α → Bytes → Prop
  | one {a : α} {w1 w w2 : Bytes} : Ws w1 → Item a w → Ws w2 → CommaText Item [a] (w1 ++ w ++ w2)
  | cons {a : α} {l : List α} {w1 w w2 rest : Bytes} : Ws w1 → Item a w → Ws w2 → CommaText Item l rest →
      CommaText Item (a :: l) (w1 ++ w ++ w2 ++ ','.toUInt8 :: rest)

/-- A list up to its closing byte. -/
def ListText {α : Type} (Item : α → Bytes → Prop) (close : UInt8) (l : List α) (w : Bytes) : Prop :=
  ∃ body, (l = [] ∧ Ws body ∨ CommaText Item l body) ∧ w = body ++ [close]

/-- `member = string name-separator value` -/
def PairText (lit : String → Bytes → Prop) (Item : Json Φ → Bytes → Prop) (p : String × Json Φ) (w : Bytes) : Prop :=
  ∃ k w1 w2 v, lit p.1 k ∧ Ws w1 ∧ Ws w2 ∧ Item p.2 v ∧ w = k ++ (w1 ++ ':'.toUInt8 :: (w2 ++ v))

def intValue (w : Bytes) : Int :=
  let magnitude (ds : Bytes) : Nat := ds.foldl (fun acc d => acc * 10 + (d.toNat - '0'.toNat)) 0
  if w.head? = some '-'.toUInt8 then -(magnitude w.tail : Int) else magnitude w

def NumberOf (v : Json Φ) (w : Bytes) : Prop :=
  (NumberText false w ∧ ∃ i : I128, i.val = intValue w ∧ v = .int i) ∨
    (NumberText true w ∧ ∃ text f, w = utf8 text ∧ F64.parse text = some f ∧ v = .float f)

/-- A value that is not an array or an object. -/
def ScalarText (lit : String → Bytes → Prop) (v : Json Φ) (w : Bytes) : Prop :=
  (v = .null ∧ w = ascii "null") ∨ (v = .bool true ∧ w = ascii "true") ∨ (v = .bool false ∧ w = ascii "false") ∨
    NumberOf v w ∨ ∃ s, v = .str s ∧ lit s w

/-- An array or an object of values. -/
def NestedText (lit : String → Bytes → Prop) (Item : Json Φ → Bytes → Prop) (v : Json Φ) (w : Bytes) : Prop :=
  (∃ items body, v = .array items ∧ ListText Item ']'.toUInt8 items body ∧ w = '['.toUInt8 :: body) ∨
    ∃ pairs body, v = .object pairs ∧ ListText (PairText lit Item) '}'.toUInt8 pairs body ∧ w = '{'.toUInt8 :: body

/-- A value nested at most that many levels. -/
def ValueText (lit : String → Bytes → Prop) : Nat → Json Φ → Bytes → Prop
  | 0, v, w => ScalarText lit v w
  | levels + 1, v, w => ScalarText lit v w ∨ NestedText lit (ValueText lit levels) v w

/-- `JSON-text = ws value ws` -/
def Doc (lit : String → Bytes → Prop) (v : Json Φ) (w : Bytes) : Prop :=
  ∃ w1 body w2, Ws w1 ∧ ValueText lit MAX_DEPTH v body ∧ Ws w2 ∧ w = w1 ++ (body ++ w2)

/-! ## Lemmas: bytes -/

/-- No byte, or one outside a class. -/
def Ends (inClass : UInt8 → Bool) (rest : Bytes) : Prop := ∀ b, rest.head? = some b → inClass b = false

theorem ends_nil (inClass : UInt8 → Bool) : Ends inClass [] := by
  intro b h
  cases h

theorem ends_cons {inClass : UInt8 → Bool} {b : UInt8} {rest : Bytes} : Ends inClass (b :: rest) ↔ inClass b = false := by
  constructor
  · intro h
    exact h b rfl
  · intro hb b' h
    cases h
    exact hb

theorem utf8_ofList (cs : List Char) : utf8 (String.ofList cs) = cs.flatMap String.utf8EncodeChar := by
  have hbytes : (String.ofList cs).toUTF8 = cs.utf8Encode := String.toByteArray_ofList
  rw [utf8, hbytes, byteArray_toList, List.utf8Encode, List.data_toByteArray]

theorem utf8_eq_flatMap (s : String) : utf8 s = s.toList.flatMap String.utf8EncodeChar := by
  rw [← utf8_ofList, String.ofList_toList]

theorem encodeChar_ascii {c : Char} (h : c.toNat < 0x80) : String.utf8EncodeChar c = [UInt8.ofNat c.toNat] := by
  have hle : c.val.toNat ≤ 0x7f := Nat.le_of_lt_succ h
  unfold String.utf8EncodeChar
  exact if_pos hle

theorem utf8Len_eq {n : Nat} (h : n < 256) : utf8Len (UInt8.ofNat n) =
    if 0xc0 ≤ n ∧ n ≤ 0xdf then 2 else if 0xe0 ≤ n ∧ n ≤ 0xef then 3 else 4 := by
  have hn : (UInt8.ofNat n).toNat = n := UInt8.toNat_ofNat_of_lt' h
  unfold utf8Len
  simp only [UInt8.le_iff_toNat_le, hn]
  rfl

/-- The first byte of a longer sequence says its length. -/
theorem encodeChar_long {c : Char} (h : 0x80 ≤ c.toNat) :
    ∃ b t, String.utf8EncodeChar c = b :: t ∧ 0x80 ≤ b.toNat ∧ utf8Len b = t.length + 1 := by
  have hval : c.val.toNat = c.toNat := rfl
  unfold String.utf8EncodeChar
  rw [hval]
  dsimp only
  rw [if_neg (by omega)]
  split
  · have hbyte : c.toNat / 64 % 0x20 + 0xc0 < 256 := by omega
    refine ⟨_, _, rfl, ?_, ?_⟩
    · rw [UInt8.toNat_ofNat_of_lt' hbyte]
      omega
    · rw [utf8Len_eq hbyte, if_pos (by omega)]
      rfl
  split
  · have hbyte : c.toNat / 4096 % 0x10 + 0xe0 < 256 := by omega
    refine ⟨_, _, rfl, ?_, ?_⟩
    · rw [UInt8.toNat_ofNat_of_lt' hbyte]
      omega
    · rw [utf8Len_eq hbyte, if_neg (by omega), if_pos (by omega)]
      rfl
  · have hbyte : c.toNat / 262144 % 0x08 + 0xf0 < 256 := by omega
    refine ⟨_, _, rfl, ?_, ?_⟩
    · rw [UInt8.toNat_ofNat_of_lt' hbyte]
      omega
    · rw [utf8Len_eq hbyte, if_neg (by omega), if_neg (by omega)]
      rfl

/-! ## Lemmas: white space and numbers -/

theorem Ws.nil : Ws [] := by
  intro b h
  cases h

theorem Ws.append {w1 w2 : Bytes} (h1 : Ws w1) (h2 : Ws w2) : Ws (w1 ++ w2) := by
  intro b hb
  rcases List.mem_append.mp hb with h | h
  · exact h1 b h
  · exact h2 b h

theorem ws_parses {Pre : Bytes → Prop} : Parses Pre ws (fun _ w => Ws w) (Ends isWs) := Parses.skipWhile isWs

/-- What may not follow a number. -/
def isNumberByte (b : UInt8) : Bool := isDigit b || b == '.'.toUInt8 || b == 'e'.toUInt8 || b == 'E'.toUInt8

theorem isDigitAt_iff {r : Bytes} : isDigitAt r.head? = true ↔ ∃ b t, r = b :: t ∧ isDigit b = true := by
  cases r <;> simp [isDigitAt]

theorem digits1_parses (start : Nat) {Pre : Bytes → Prop} :
    Parses Pre (digits1 start) (fun _ w => w ≠ [] ∧ Digits w) (Ends isDigit) := by
  refine Parses.peek fun o => Parses.ite (fun ho => Parses.skipWhile1 fun r hpre => ?_) fun ho =>
    Parses.fail fun _ w rest hpre hw _ => ho ?_
  · obtain ⟨-, rfl⟩ := hpre
    exact isDigitAt_iff.mp ho
  · obtain ⟨-, rfl⟩ := hpre
    obtain ⟨b, t, rfl⟩ := List.exists_cons_of_ne_nil hw.1
    exact isDigitAt_iff.mpr ⟨b, t ++ rest, rfl, hw.2 b (by simp)⟩

/-- A byte that may be there. -/
theorem optional_parses {Pre : Bytes → Prop} {x : UInt8} :
    Parses Pre (do if (← Parser.peek) = some x then Parser.advance 1 else return () : JsonParser Unit)
      (fun _ w => w = [] ∨ w = [x]) (Ends (· == x)) := by
  refine Parses.peek fun o => Parses.ite (fun ho => ?_) fun ho => ?_
  · subst ho
    refine (Parses.advance (b := x) fun r hpre => hpre.2).conv (fun _ w rest _ hw => Or.inr hw) fun _ w rest hpre hw hfol => ?_
    rcases hw with rfl | rfl
    · have := hfol x hpre.2
      simp at this
    · rfl
  · refine (Parses.pure ()).conv (fun _ w rest _ hw => Or.inl hw.2) fun _ w rest hpre hw _ => ?_
    rcases hw with rfl | rfl
    · exact ⟨rfl, rfl⟩
    · exact absurd hpre.2.symm ho

theorem minusSign_parses {Pre : Bytes → Prop} :
    Parses Pre minusSign (fun _ w => w = [] ∨ w = ['-'.toUInt8]) (Ends (· == '-'.toUInt8)) := optional_parses

theorem integerPart_parses (start : Nat) {Pre : Bytes → Prop} :
    Parses Pre (integerPart start) (fun _ w => IntPart w) (Ends isDigit) := by
  refine Parses.peek fun o => ?_
  rcases o with _ | b
  · refine Parses.fail fun _ w rest hpre hw _ => ?_
    rcases hw with rfl | ⟨b, t, rfl, -⟩
    · cases hpre.2
    · cases hpre.2
  refine Parses.ite (fun hb => ?_) fun hb => Parses.ite (fun hdigit => ?_) fun hdigit => ?_
  · subst hb
    have hzero : Parses (ε := JsonError) (fun _ => True) (do
        if isDigitAt (← Parser.peek) then Parser.fail (.badNumber start) else return ()) (fun _ w => w = [])
        (Ends isDigit) := by
      refine Parses.peek fun o => Parses.ite (fun ho => Parses.fail fun _ w rest hpre hw hfol => ?_) fun _ => ?_
      · obtain ⟨-, rfl⟩ := hpre
        subst hw
        obtain ⟨b, t, rfl, hb⟩ := isDigitAt_iff.mp ho
        rw [ends_cons.mp hfol] at hb
        cases hb
      · exact (Parses.pure ()).congr fun _ w rest _ => by simp
    refine ((Parses.advance (b := '0'.toUInt8) fun r hpre => hpre.2).andThen hzero (R := fun _ => True)
      (fun _ _ _ _ _ => trivial) fun _ _ _ _ _ => trivial).congr fun _ w rest hpre => ?_
    constructor
    · rintro (rfl | ⟨b, t, rfl, -, hb, -⟩)
      · exact ⟨_, [], ⟨(), rfl⟩, rfl, rfl⟩
      · exact absurd (Option.some.inj hpre.2) hb
    · rintro ⟨w1, w2, ⟨-, rfl⟩, rfl, rfl⟩
      exact Or.inl rfl
  · refine (Parses.skipWhile1 fun r hpre => ?_).congr fun _ w rest hpre => ?_
    · obtain ⟨t, ht⟩ := List.head?_eq_some_iff.mp hpre.2
      exact ⟨b, t, ht, hdigit⟩
    · constructor
      · rintro (rfl | ⟨b', t, rfl, hb', -, ht⟩)
        · exact absurd (Option.some.inj hpre.2).symm hb
        · exact ⟨List.cons_ne_nil _ _, List.forall_mem_cons.mpr ⟨hb', ht⟩⟩
      · rintro ⟨hne, hall⟩
        obtain ⟨b', t, rfl⟩ := List.exists_cons_of_ne_nil hne
        obtain rfl := Option.some.inj hpre.2
        exact Or.inr ⟨b', t, rfl, hdigit, hb, (List.forall_mem_cons.mp hall).2⟩
  · refine Parses.fail fun _ w rest hpre hw _ => ?_
    rcases hw with rfl | ⟨b', t, rfl, hb', -⟩
    · exact hb (Option.some.inj hpre.2).symm
    · rw [Option.some.inj hpre.2] at hb'
      exact hdigit hb'

/-- One digit or more, in a part that is there. -/
theorem digitsTrue_parses (start : Nat) {Pre : Bytes → Prop} :
    Parses Pre (do
      digits1 start
      return true : JsonParser Bool) (fun v w => v = true ∧ w ≠ [] ∧ Digits w) (Ends isDigit) :=
  ((digits1_parses start).map fun _ => true).congr fun v w rest _ =>
    ⟨fun h => ⟨(), h.2, h.1⟩, fun h => by
      obtain ⟨-, hw, hv⟩ := h
      exact ⟨hv, hw⟩⟩

/-- A byte that says a part is there, then the part. -/
theorem marked_parses {Pre : Bytes → Prop} {x : UInt8} {p : JsonParser Bool} {E Follow : Bytes → Prop}
    (hp : Parses (fun _ => True) p (fun v w => v = true ∧ E w) Follow) :
    Parses (fun r => Pre r ∧ r.head? = some x) (do
      Parser.advance 1
      p) (fun v w => v = true ∧ ∃ t, E t ∧ w = x :: t) Follow := by
  refine ((Parses.advance (b := x) fun r hpre => hpre.2).andThen (Q := fun _ => True) (R := fun _ => True)
    hp (fun _ _ _ _ _ => trivial) fun _ _ _ _ _ => trivial).congr fun v w rest _ => ?_
  constructor
  · rintro ⟨rfl, t, ht, rfl⟩
    exact ⟨[x], t, ⟨(), rfl⟩, ⟨rfl, ht⟩, rfl⟩
  · rintro ⟨w1, w2, ⟨-, rfl⟩, ⟨rfl, h2⟩, rfl⟩
    exact ⟨rfl, w2, h2, rfl⟩

theorem fraction_parses (start : Nat) {Pre : Bytes → Prop} :
    Parses Pre (fraction start) (fun v w => v = false ∧ w = [] ∨ v = true ∧ FracPart w)
      (fun rest => Ends isDigit rest ∧ Ends (· == '.'.toUInt8) rest) := by
  refine Parses.peek fun o => Parses.ite (fun ho => ?_) fun ho => ?_
  · subst ho
    refine ((marked_parses (digitsTrue_parses start)).weaken (fun _ h => h) fun r (h : Ends isDigit r ∧ _) => h.1).conv
      (fun v w rest _ hw => ?_) fun v w rest hpre hw hfol => ?_
    · obtain ⟨rfl, t, ht, rfl⟩ := hw
      exact Or.inr ⟨rfl, t, rfl, ht.1, ht.2⟩
    · rcases hw with ⟨rfl, rfl⟩ | ⟨rfl, t, rfl, hne, ht⟩
      · have := hfol.2 _ hpre.2
        simp at this
      · exact ⟨rfl, t, ⟨hne, ht⟩, rfl⟩
  · refine (Parses.pure false).conv (fun v w rest _ hw => Or.inl hw) fun v w rest hpre hw _ => ?_
    rcases hw with hw | ⟨rfl, t, rfl, -⟩
    · exact hw
    · exact absurd hpre.2.symm ho

theorem expSign_parses {Pre : Bytes → Prop} :
    Parses Pre expSign (fun _ w => w = [] ∨ w = ['+'.toUInt8] ∨ w = ['-'.toUInt8])
      (fun rest => Ends (· == '+'.toUInt8) rest ∧ Ends (· == '-'.toUInt8) rest) := by
  refine Parses.peek fun o => Parses.ite (fun ho => ?_) fun ho => ?_
  · obtain ⟨x, rfl, hx⟩ : ∃ x, o = some x ∧ (x = '+'.toUInt8 ∨ x = '-'.toUInt8) := by
      rcases ho with rfl | rfl
      · exact ⟨_, rfl, Or.inl rfl⟩
      · exact ⟨_, rfl, Or.inr rfl⟩
    refine (Parses.advance (b := x) fun r hpre => hpre.2).conv (fun _ w rest _ hw => ?_) fun _ w rest hpre hw hfol => ?_
    · rcases hx with rfl | rfl
      · exact Or.inr (Or.inl hw)
      · exact Or.inr (Or.inr hw)
    · rcases hw with rfl | rfl | rfl
      · rcases hx with rfl | rfl
        · have := hfol.1 _ hpre.2
          simp at this
        · have := hfol.2 _ hpre.2
          simp at this
      · rw [Option.some.inj hpre.2]
      · rw [Option.some.inj hpre.2]
  · refine (Parses.pure ()).conv (fun _ w rest _ hw => Or.inl hw.2) fun _ w rest hpre hw _ => ?_
    rcases hw with rfl | rfl | rfl
    · exact ⟨rfl, rfl⟩
    · exact absurd (Or.inl hpre.2.symm) ho
    · exact absurd (Or.inr hpre.2.symm) ho

theorem not_sign_of_digit {b : UInt8} (h : isDigit b = true) :
    (b == '+'.toUInt8) = false ∧ (b == '-'.toUInt8) = false ∧ (b == '.'.toUInt8) = false ∧ (b == 'e'.toUInt8) = false ∧
      (b == 'E'.toUInt8) = false := by
  refine ⟨?_, ?_, ?_, ?_, ?_⟩ <;>
    · rw [beq_eq_false_iff_ne]
      rintro rfl
      revert h
      decide

theorem exponent_parses (start : Nat) {Pre : Bytes → Prop} :
    Parses Pre (exponent start) (fun v w => v = false ∧ w = [] ∨ v = true ∧ ExpPart w)
      (fun rest => Ends isDigit rest ∧ Ends (· == 'e'.toUInt8) rest ∧ Ends (· == 'E'.toUInt8) rest) := by
  refine Parses.peek fun o => Parses.ite (fun ho => ?_) fun ho => ?_
  · obtain ⟨x, rfl, hx⟩ : ∃ x, o = some x ∧ (x = 'e'.toUInt8 ∨ x = 'E'.toUInt8) := by
      rcases ho with rfl | rfl
      · exact ⟨_, rfl, Or.inl rfl⟩
      · exact ⟨_, rfl, Or.inr rfl⟩
    have htail : Parses (fun _ => True) (do
        expSign
        digits1 start
        return true : JsonParser Bool) (fun v w => v = true ∧ ∃ sign ds, w = sign ++ ds ∧
          (sign = [] ∨ sign = ['+'.toUInt8] ∨ sign = ['-'.toUInt8]) ∧ ds ≠ [] ∧ Digits ds) (Ends isDigit) := by
      refine (expSign_parses.andThen (digitsTrue_parses start) (Q := fun _ => True) (fun _ _ _ _ _ => trivial)
        fun _ w rest hw _ => ?_).congr fun v w rest _ => ?_
      · obtain ⟨b, t, rfl⟩ := List.exists_cons_of_ne_nil hw.2.1
        have hb := not_sign_of_digit (hw.2.2 b (by simp))
        exact ⟨ends_cons.mpr hb.1, ends_cons.mpr hb.2.1⟩
      · constructor
        · rintro ⟨rfl, sign, ds, rfl, hsign, hds⟩
          exact ⟨sign, ds, ⟨(), hsign⟩, ⟨rfl, hds⟩, rfl⟩
        · rintro ⟨sign, ds, ⟨-, hsign⟩, ⟨rfl, hds⟩, rfl⟩
          exact ⟨rfl, sign, ds, rfl, hsign, hds⟩
    refine ((marked_parses htail).weaken (fun _ h => h) fun r (h : Ends isDigit r ∧ _) => h.1).conv
      (fun v w rest _ hw => ?_) fun v w rest hpre hw hfol => ?_
    · obtain ⟨rfl, t, ⟨sign, ds, rfl, hsign, hne, hds⟩, rfl⟩ := hw
      exact Or.inr ⟨rfl, x, sign, ds, rfl, hx, hsign, hne, hds⟩
    · rcases hw with ⟨rfl, rfl⟩ | ⟨rfl, e, sign, ds, rfl, -, hsign, hne, hds⟩
      · rcases hx with rfl | rfl
        · have := hfol.2.1 _ hpre.2
          simp at this
        · have := hfol.2.2 _ hpre.2
          simp at this
      · obtain rfl := Option.some.inj hpre.2
        exact ⟨rfl, sign ++ ds, ⟨sign, ds, rfl, hsign, hne, hds⟩, rfl⟩
  · refine (Parses.pure false).conv (fun v w rest _ hw => Or.inl hw) fun v w rest hpre hw _ => ?_
    rcases hw with hw | ⟨rfl, e, sign, ds, rfl, he, -⟩
    · exact hw
    · refine absurd ?_ ho
      rcases he with rfl | rfl
      · exact Or.inl hpre.2.symm
      · exact Or.inr hpre.2.symm

theorem IntPart.head {w : Bytes} (h : IntPart w) : ∃ b t, w = b :: t ∧ isDigit b = true := by
  rcases h with rfl | ⟨b, t, rfl, hb, -⟩
  · exact ⟨_, [], rfl, rfl⟩
  · exact ⟨b, t, rfl, hb⟩

theorem Ends.mono {p q : UInt8 → Bool} (h : ∀ b, q b = true → p b = true) {rest : Bytes} (hends : Ends p rest) :
    Ends q rest := by
  intro b hb
  have hp := hends b hb
  by_contra hq
  rw [h b (by simpa using hq)] at hp
  cases hp

/-- What comes after the integer part is not a digit. -/
theorem ends_frac {frac exp rest : Bytes} (hfrac : frac = [] ∨ FracPart frac) (hexp : exp = [] ∨ ExpPart exp)
    (hrest : Ends isNumberByte rest) : Ends isDigit (frac ++ (exp ++ rest)) := by
  rcases hfrac with rfl | ⟨ds, rfl, -⟩
  · rcases hexp with rfl | ⟨e, sign, ds, rfl, rfl | rfl, -⟩
    · exact hrest.mono fun b hb => by simp [isNumberByte, hb]
    · exact ends_cons.mpr (by decide)
    · exact ends_cons.mpr (by decide)
  · exact ends_cons.mpr (by decide)

/-- What comes after the fraction does not begin with a digit or a point. -/
theorem ends_exp {exp rest : Bytes} (hexp : exp = [] ∨ ExpPart exp) (hrest : Ends isNumberByte rest) :
    Ends isDigit (exp ++ rest) ∧ Ends (· == '.'.toUInt8) (exp ++ rest) := by
  rcases hexp with rfl | ⟨e, sign, ds, rfl, rfl | rfl, -⟩
  · exact ⟨hrest.mono fun b hb => by simp [isNumberByte, hb], hrest.mono fun b hb => by simp_all [isNumberByte]⟩
  · exact ⟨ends_cons.mpr (by decide), ends_cons.mpr (by decide)⟩
  · exact ⟨ends_cons.mpr (by decide), ends_cons.mpr (by decide)⟩

/-- The two optional parts, and whether either is there. -/
theorem fracExp_parses (start : Nat) {Pre : Bytes → Prop} :
    Parses Pre (do
      let frac ← fraction start
      let exp ← exponent start
      return frac || exp : JsonParser Bool)
      (fun float w => ∃ frac exp, (frac = [] ∨ FracPart frac) ∧ (exp = [] ∨ ExpPart exp) ∧ w = frac ++ exp ∧
        (float = true ↔ frac ≠ [] ∨ exp ≠ [])) (Ends isNumberByte) := by
  have hne : ∀ w, FracPart w ∨ ExpPart w → w ≠ [] := by
    rintro w (⟨ds, rfl, -⟩ | ⟨e, sign, ds, rfl, -⟩)
    · exact List.cons_ne_nil _ _
    · exact List.cons_ne_nil _ _
  refine ((fraction_parses start).bind (Q := fun _ _ => True) (fun frac =>
    ((exponent_parses start).map fun exp => frac || exp).weaken (fun _ h => h) fun r (hr : Ends isNumberByte r) => ?_)
    (fun _ _ _ _ _ => trivial) fun frac w b w' rest hw hw' hfol => ?_).congr fun float w rest _ => ?_
  · exact ⟨hr.mono fun b hb => by simp [isNumberByte, hb], hr.mono fun b hb => by simp_all [isNumberByte],
      hr.mono fun b hb => by simp_all [isNumberByte]⟩
  · obtain ⟨exp, hexp, -⟩ := hw'
    exact ends_exp (hexp.imp And.right And.right) hfol
  · constructor
    · rintro ⟨frac, exp, hfrac, hexp, rfl, hfloat⟩
      refine ⟨decide (frac ≠ []), frac, exp, ?_, ⟨decide (exp ≠ []), ?_, ?_⟩, rfl⟩
      · rcases hfrac with rfl | hfrac
        · exact Or.inl ⟨rfl, rfl⟩
        · exact Or.inr ⟨decide_eq_true (hne frac (Or.inl hfrac)), hfrac⟩
      · rcases hexp with rfl | hexp
        · exact Or.inl ⟨rfl, rfl⟩
        · exact Or.inr ⟨decide_eq_true (hne exp (Or.inr hexp)), hexp⟩
      · rw [Bool.eq_iff_iff, hfloat, Bool.or_eq_true, decide_eq_true_iff, decide_eq_true_iff]
    · rintro ⟨f, frac, exp, hfrac, ⟨x, hexp, rfl⟩, rfl⟩
      refine ⟨frac, exp, hfrac.imp And.right And.right, hexp.imp And.right And.right, rfl, ?_⟩
      rcases hfrac with ⟨rfl, rfl⟩ | ⟨rfl, hfrac⟩
      · rcases hexp with ⟨rfl, rfl⟩ | ⟨rfl, hexp⟩
        · simp
        · simp [hne exp (Or.inr hexp)]
      · simp [hne frac (Or.inl hfrac)]

theorem scanNumber_parses (start : Nat) {Pre : Bytes → Prop} :
    Parses Pre (scanNumber start) NumberText (Ends isNumberByte) := by
  refine (minusSign_parses.andThen (Q := fun _ => True) ((integerPart_parses start).andThen (Q := fun _ => True)
    (fracExp_parses start) (fun _ _ _ _ _ => trivial) fun float w rest hw hfol => ?_) (fun _ _ _ _ _ => trivial)
    fun float w rest hw hfol => ?_).congr fun float w rest _ => ?_
  · obtain ⟨frac, exp, hfrac, hexp, rfl, -⟩ := hw
    rw [List.append_assoc]
    exact ends_frac hfrac hexp hfol
  · obtain ⟨w1, w2, ⟨-, hint⟩, -, rfl⟩ := hw
    obtain ⟨b, t, rfl, hb⟩ := hint.head
    exact ends_cons.mpr (not_sign_of_digit hb).2.1
  · constructor
    · rintro ⟨minus, int, frac, exp, hminus, hint, hfrac, hexp, rfl, hfloat⟩
      exact ⟨minus, _, ⟨(), hminus⟩, ⟨int, _, ⟨(), hint⟩, ⟨frac, exp, hfrac, hexp, rfl, hfloat⟩, rfl⟩, rfl⟩
    · rintro ⟨minus, _, ⟨-, hminus⟩, ⟨int, _, ⟨-, hint⟩, ⟨frac, exp, hfrac, hexp, rfl, hfloat⟩, rfl⟩, rfl⟩
      exact ⟨minus, int, frac, exp, hminus, hint, hfrac, hexp, rfl, hfloat⟩

theorem digit_lt {b : UInt8} (h : isDigit b = true) : b.toNat < 0x80 := by
  have hle : b ≤ '9'.toUInt8 := by
    rw [isDigit, Bool.and_eq_true, decide_eq_true_iff, decide_eq_true_iff] at h
    exact h.2
  exact (UInt8.le_iff_toNat_le.mp hle).trans_lt (by decide)

/-- The bytes of a number. -/
theorem NumberText.mem {float : Bool} {w : Bytes} (h : NumberText float w) :
    ∀ b ∈ w, isDigit b = true ∨ b ∈ ['-'.toUInt8, '+'.toUInt8, '.'.toUInt8, 'e'.toUInt8, 'E'.toUInt8] := by
  obtain ⟨minus, int, frac, exp, hminus, hint, hfrac, hexp, rfl, -⟩ := h
  intro b hb
  rw [List.mem_append, List.mem_append, List.mem_append] at hb
  rcases hb with hb | hb | hb | hb
  · rcases hminus with rfl | rfl
    · cases hb
    · rw [List.mem_singleton.mp hb]
      exact Or.inr (by decide)
  · rcases hint with rfl | ⟨d, t, rfl, hd, -, ht⟩
    · rw [List.mem_singleton.mp hb]
      exact Or.inl rfl
    · rcases List.mem_cons.mp hb with rfl | hb
      · exact Or.inl hd
      · exact Or.inl (ht b hb)
  · rcases hfrac with rfl | ⟨ds, rfl, -, hds⟩
    · cases hb
    · rcases List.mem_cons.mp hb with rfl | hb
      · exact Or.inr (by decide)
      · exact Or.inl (hds b hb)
  · rcases hexp with rfl | ⟨e, sign, ds, rfl, he, hsign, -, hds⟩
    · cases hb
    · rcases List.mem_cons.mp hb with rfl | hb
      · rcases he with rfl | rfl <;> exact Or.inr (by decide)
      rcases List.mem_append.mp hb with hb | hb
      · rcases hsign with rfl | rfl | rfl
        · cases hb
        · rw [List.mem_singleton.mp hb]
          exact Or.inr (by decide)
        · rw [List.mem_singleton.mp hb]
          exact Or.inr (by decide)
      · exact Or.inl (hds b hb)

theorem NumberText.ascii {float : Bool} {w : Bytes} (h : NumberText float w) : ∀ b ∈ w, b.toNat < 0x80 := by
  intro b hb
  rcases h.mem b hb with hdigit | hmem
  · exact digit_lt hdigit
  · simp only [List.mem_cons, List.not_mem_nil, or_false] at hmem
    rcases hmem with rfl | rfl | rfl | rfl | rfl <;> decide

theorem toNat_charOfNat {n : Nat} (h : n.isValidChar) : (Char.ofNat n).toNat = n := by
  unfold Char.ofNat
  rw [dif_pos h]
  rfl

/-- ASCII bytes are a text. -/
theorem exists_text {w : Bytes} (h : ∀ b ∈ w, b.toNat < 0x80) : ∃ text, w = utf8 text := by
  refine ⟨String.ofList (w.map fun b => Char.ofNat b.toNat), ?_⟩
  rw [utf8_ofList]
  induction w with
  | nil => rfl
  | cons b w ih =>
    have hb := h b (by simp)
    have hchar : (Char.ofNat b.toNat).toNat = b.toNat := toNat_charOfNat (Or.inl (by omega))
    rw [List.map_cons, List.flatMap_cons, encodeChar_ascii (by omega), hchar, UInt8.ofNat_toNat, List.singleton_append,
      ← ih fun b' hb' => h b' (by simp [hb'])]

theorem IntPart.digits {w : Bytes} (h : IntPart w) : Digits w := by
  rcases h with rfl | ⟨b, t, rfl, hb, -, ht⟩
  · exact fun b hb => by
      rw [List.mem_singleton.mp hb]
      rfl
  · exact List.forall_mem_cons.mpr ⟨hb, ht⟩

/-- The value of an integer of 128 bits. -/
theorem i128_iff {m : Int} {i : I128} :
    (if h : -2 ^ 127 ≤ m ∧ m < 2 ^ 127 then some (⟨m, h⟩ : I128) else none) = some i ↔ i.val = m := by
  constructor
  · intro h
    split at h
    · rw [← Option.some.inj h]
    · cases h
  · rintro rfl
    rw [dif_pos i.property]

/-- `from_str` on the text of an integer. -/
theorem parseI128_iff {text : String} (h : NumberText false (utf8 text)) {i : I128} :
    parseI128 text = some i ↔ i.val = intValue (utf8 text) := by
  obtain ⟨minus, int, frac, exp, hminus, hint, -, -, htext, hfloat⟩ := h
  have hparts : frac = [] ∧ exp = [] := by
    by_contra hne
    have := hfloat.mpr (not_and_or.mp hne)
    cases this
  rw [hparts.1, hparts.2, List.append_nil, List.append_nil] at htext
  have hall : ∀ ds : Bytes, Digits ds → ds.all isDigit = true := fun ds hds => List.all_eq_true.mpr hds
  obtain ⟨b, t, rfl, hb⟩ := hint.head
  have hdigits := hall _ hint.digits
  unfold parseI128 intValue
  rcases hminus with rfl | rfl
  · rw [List.nil_append] at htext
    have hsign := not_sign_of_digit hb
    rw [beq_eq_false_iff_ne, beq_eq_false_iff_ne] at hsign
    rw [htext]
    dsimp only
    rw [if_neg hsign.2.1, if_neg hsign.1, if_neg (by simp [hdigits]), List.head?_cons,
      if_neg fun h => hsign.2.1 (Option.some.inj h)]
    exact i128_iff
  · rw [List.singleton_append] at htext
    rw [htext]
    dsimp only
    rw [if_pos rfl, if_neg (by simp [hdigits]), List.head?_cons, if_pos rfl, List.tail_cons]
    exact i128_iff

theorem number_parses {Pre : Bytes → Prop} :
    Parses Pre (number : JsonParser (Json Φ)) NumberOf (Ends isNumberByte) := by
  refine Parses.position fun start => ?_
  have hread : ∀ v : Bool × Bytes, Parses (ε := JsonError) (fun _ => True) (do
      let text ← Parser.okOr (fromUtf8 v.2) (.badNumber start)
      if v.1 then do
        let f ← Parser.okOr (F64.parse text) (.badNumber start)
        return .float f
      else do
        let i ← Parser.okOr (parseI128 text) (.badNumber start)
        return .int i)
      (fun (u : Json Φ) w => w = [] ∧ ∃ text, v.2 = utf8 text ∧
        (v.1 = false ∧ (∃ i, parseI128 text = some i ∧ u = .int i) ∨
          v.1 = true ∧ ∃ f, F64.parse text = some f ∧ u = .float f)) (Ends isNumberByte) := by
    rintro ⟨float, bytes⟩
    refine (Parses.check _ _ fun text => Parses.ite (E := fun (u : Json Φ) w => w = [] ∧
      (float = false ∧ (∃ i, parseI128 text = some i ∧ u = .int i) ∨
        float = true ∧ ∃ f, F64.parse text = some f ∧ u = .float f)) (fun hfloat => ?_) fun hfloat => ?_).congr
      fun u w rest _ => ?_
    · refine (Parses.check _ _ fun f => Parses.pure (Json.float f)).congr fun u w rest _ => ?_
      obtain rfl : float = true := hfloat
      constructor
      · rintro ⟨hw, ⟨hfalse, -⟩ | ⟨-, f, hf, hu⟩⟩
        · cases hfalse
        · exact ⟨f, hf, hu, hw⟩
      · rintro ⟨f, hf, hu, hw⟩
        exact ⟨hw, Or.inr ⟨rfl, f, hf, hu⟩⟩
    · refine (Parses.check _ _ fun i => Parses.pure (Json.int i)).congr fun u w rest _ => ?_
      obtain rfl : float = false := by simpa using hfloat
      constructor
      · rintro ⟨hw, ⟨-, i, hi, hu⟩ | ⟨htrue, -⟩⟩
        · exact ⟨i, hi, hu, hw⟩
        · cases htrue
      · rintro ⟨i, hi, hu, hw⟩
        exact ⟨hw, Or.inl ⟨rfl, i, hi, hu⟩⟩
    · simp only [fromUtf8_iff]
      constructor
      · rintro ⟨hw, text, htext, hu⟩
        exact ⟨text, htext, hw, hu⟩
      · rintro ⟨text, htext, hw, hu⟩
        exact ⟨hw, text, htext, hu⟩
  refine ((Parses.capture (scanNumber_parses start)).bind (Q := fun _ _ => True) hread (fun _ _ _ _ _ => trivial)
    fun v w u w' rest _ hw' hfol => ?_).congr fun u w rest _ => ?_
  · rw [hw'.1]
    exact hfol
  · constructor
    · rintro (⟨hnumber, i, hi, rfl⟩ | ⟨hnumber, text, f, rfl, hf, rfl⟩)
      · obtain ⟨text, rfl⟩ := exists_text hnumber.ascii
        exact ⟨(false, utf8 text), utf8 text, [], ⟨hnumber, rfl⟩, ⟨rfl, text, rfl, Or.inl ⟨rfl, i,
          (parseI128_iff hnumber).mpr hi, rfl⟩⟩, (List.append_nil _).symm⟩
      · exact ⟨(true, utf8 text), utf8 text, [], ⟨hnumber, rfl⟩, ⟨rfl, text, rfl, Or.inr ⟨rfl, f, hf, rfl⟩⟩,
          (List.append_nil _).symm⟩
    · rintro ⟨⟨float, bytes⟩, w1, w2, ⟨hnumber, hbytes⟩, ⟨rfl, text, htext, hu⟩, rfl⟩
      dsimp only at hnumber hbytes htext hu
      subst hbytes htext
      rw [List.append_nil]
      rcases hu with ⟨rfl, i, hi, rfl⟩ | ⟨rfl, f, hf, rfl⟩
      · exact Or.inl ⟨hnumber, i, (parseI128_iff hnumber).mp hi, rfl⟩
      · exact Or.inr ⟨hnumber, text, f, rfl, hf, rfl⟩

/-! ## Lemmas: strings -/

theorem hexDigit_lt {b : UInt8} {d : Nat} (h : hexDigit b = some d) : d < 16 := by
  unfold hexDigit at h
  simp only [UInt8.le_iff_toNat_le] at h
  have h0 : '0'.toNat = 48 := rfl
  have h9 : '9'.toUInt8.toNat = 57 := rfl
  have ha : 'a'.toNat = 97 := rfl
  have hf : 'f'.toUInt8.toNat = 102 := rfl
  have hA : 'A'.toNat = 65 := rfl
  have hF : 'F'.toUInt8.toNat = 70 := rfl
  split_ifs at h <;> · have := Option.some.inj h; omega

/-- The digits of a loop, over what was read before. -/
def HexDigits (k v : Nat) (u : Nat) (w : Bytes) : Prop :=
  ∃ ds : List Nat, w.map hexDigit = ds.map some ∧ ds.length = k ∧ u = ds.foldl (fun acc d => acc * 16 + d) v

theorem hexDigits_length {k v u : Nat} {w : Bytes} (h : HexDigits k v u w) : w.length = k := by
  obtain ⟨ds, hmap, hlen, -⟩ := h
  have := congrArg List.length hmap
  rw [List.length_map, List.length_map] at this
  omega

theorem hexLoop_parses (pos k v : Nat) {Pre Follow : Bytes → Prop} :
    Parses Pre (hexLoop pos k v) (HexDigits k v) Follow := by
  induction k generalizing v Pre with
  | zero =>
    refine (Parses.pure v).congr fun u w rest _ => ?_
    constructor
    · rintro ⟨ds, hmap, hlen, rfl⟩
      obtain rfl := List.length_eq_zero_iff.mp hlen
      exact ⟨rfl, List.map_eq_nil_iff.mp hmap⟩
    · rintro ⟨rfl, rfl⟩
      exact ⟨[], rfl, rfl, rfl⟩
  | succ k ih =>
    refine (Parses.bump (T := fun b u w => ∃ d, hexDigit b = some d ∧ HexDigits k ((v <<< 4) ||| d) u w)
      ?_ fun b => ?_).congr fun u w rest _ => ?_
    · exact Parses.fail fun _ _ _ _ h _ => h
    · exact Parses.check (hexDigit b) _ fun d => ih ((v <<< 4) ||| d)
    have hstep : ∀ d, d < 16 → (v <<< 4) ||| d = v * 16 + d := by
      intro d hd
      rw [← Nat.shiftLeft_add_eq_or_of_lt (by omega), Nat.shiftLeft_eq]
    constructor
    · rintro ⟨ds, hmap, hlen, rfl⟩
      obtain ⟨d, ds, rfl⟩ := List.exists_cons_of_length_eq_add_one hlen
      obtain ⟨b, w', rfl, hb, hw'⟩ := List.map_eq_cons_iff.mp hmap
      refine ⟨b, w', rfl, d, hb, ds, hw', by simpa using hlen, ?_⟩
      rw [hstep d (hexDigit_lt hb), List.foldl_cons]
    · rintro ⟨b, w', rfl, d, hb, ds, hw', hlen, rfl⟩
      refine ⟨d :: ds, by rw [List.map_cons, List.map_cons, hb, hw'], by rw [List.length_cons, hlen], ?_⟩
      rw [hstep d (hexDigit_lt hb), List.foldl_cons]

theorem hexText_length {v : Nat} {h : Bytes} (hh : HexText v h) : h.length = 4 := hexDigits_length (v := 0) hh

theorem hex4_parses (pos : Nat) {Pre Follow : Bytes → Prop} : Parses Pre (hex4 pos) HexText Follow := by
  refine Parses.remaining fun n => Parses.ite (fun hn => Parses.fail fun v w rest hpre hw _ => ?_) fun _ =>
    hexLoop_parses pos 4 0
  have hlen := hexText_length hw
  have := hpre.2
  rw [List.length_append] at this
  omega

/-- The next byte must be `x`. -/
theorem expect_parses {α : Type} {p : Option UInt8 → JsonParser α} {q : JsonParser α} {x : UInt8} {E : α → Bytes → Prop}
    {Pre Follow : Bytes → Prop} (hp : ∀ o, Parses (fun _ => True) (p o) (fun _ _ => False) Follow)
    (hq : Parses (fun _ => True) q E Follow) :
    Parses Pre (Parser.bump >>= fun o => if o ≠ some x then p o else q) (fun a w => ∃ t, E a t ∧ w = x :: t) Follow := by
  refine (Parses.bump (T := fun b a w => b = x ∧ E a w) ?_ fun b => ?_).congr fun a w rest _ => ?_
  · rw [if_pos (by simp)]
    exact (hp none).weaken (fun _ _ => trivial) fun _ h => h
  · refine Parses.ite (fun hb => ?_) fun hb => ?_
    · refine ((hp (some b)).weaken (fun _ _ => trivial) fun _ h => h).congr fun a w rest _ => iff_of_false ?_ not_false
      rintro ⟨rfl, -⟩
      exact hb rfl
    · obtain rfl : b = x := Option.some.inj (not_not.mp hb)
      exact (hq.weaken (fun _ _ => trivial) fun _ h => h).congr fun a w rest _ => and_iff_right rfl
  · constructor
    · rintro ⟨t, ht, rfl⟩
      exact ⟨x, t, rfl, rfl, ht⟩
    · rintro ⟨b, t, rfl, rfl, ht⟩
      exact ⟨t, ht, rfl⟩

theorem charFromU32_of_valid {n : Nat} (h : n.isValidChar) : charFromU32 n = some (Char.ofNat n) := if_pos h

theorem lowSurrogate_parses (pos : Nat) {hi : Nat} (h1 : 0xd800 ≤ hi) (h2 : hi < 0xdc00) {Pre Follow : Bytes → Prop} :
    Parses Pre (lowSurrogate pos hi) (fun c w => ∃ lo h', HexText lo h' ∧ 0xdc00 ≤ lo ∧ lo < 0xe000 ∧
      c = Char.ofNat (0x10000 + (hi - 0xd800) * 1024 + (lo - 0xdc00)) ∧ w = '\\'.toUInt8 :: 'u'.toUInt8 :: h')
      Follow := by
  have hlow : Parses (fun _ => True) (do
      let lo ← hex4 pos
      if ¬ (0xdc00 ≤ lo ∧ lo < 0xe000) then Parser.fail (.unpairedSurrogate pos)
      else Parser.okOr (charFromU32 (0x10000 + ((hi - 0xd800) <<< 10) + (lo - 0xdc00))) (.unpairedSurrogate pos))
      (fun c w => ∃ lo, HexText lo w ∧ 0xdc00 ≤ lo ∧ lo < 0xe000 ∧
        c = Char.ofNat (0x10000 + (hi - 0xd800) * 1024 + (lo - 0xdc00))) Follow := by
    refine ((hex4_parses pos).bind (R := fun _ => True) (Q := fun _ _ => True) (T := fun lo c w => w = [] ∧
      0xdc00 ≤ lo ∧ lo < 0xe000 ∧ c = Char.ofNat (0x10000 + (hi - 0xd800) * 1024 + (lo - 0xdc00)))
      (fun lo => Parses.ite (fun hlo => ?_) fun hlo => ?_) (fun _ _ _ _ _ => trivial)
      fun _ _ _ _ _ _ _ _ => trivial).congr fun c w rest _ => ?_
    · exact Parses.fail fun c w rest _ hw _ => hlo ⟨hw.2.1, hw.2.2.1⟩
    · have hrange := not_not.mp hlo
      have hvalid : (0x10000 + (hi - 0xd800) * 1024 + (lo - 0xdc00)).isValidChar := Or.inr (by omega)
      have hshift : (hi - 0xd800) <<< 10 = (hi - 0xd800) * 1024 := Nat.shiftLeft_eq _ _
      rw [hshift, charFromU32_of_valid hvalid]
      refine (Parses.okOr _ _).congr fun c w rest _ => ?_
      rw [Option.some.injEq]
      constructor
      · rintro ⟨hw, -, -, hc⟩
        exact ⟨hc.symm, hw⟩
      · rintro ⟨hc, hw⟩
        exact ⟨hw, hrange.1, hrange.2, hc.symm⟩
    · constructor
      · rintro ⟨lo, hlo, hrange⟩
        exact ⟨lo, w, [], hlo, ⟨rfl, hrange⟩, (List.append_nil w).symm⟩
      · rintro ⟨lo, w1, w2, hlo, ⟨rfl, hrange⟩, rfl⟩
        exact ⟨lo, by rwa [List.append_nil], hrange⟩
  refine (expect_parses (fun _ => Parses.fail fun _ _ _ _ h _ => h)
    (expect_parses (fun _ => Parses.fail fun _ _ _ _ h _ => h) hlow)).congr fun c w rest _ => ?_
  constructor
  · rintro ⟨lo, h', hlo, hge, hlt, hc, rfl⟩
    exact ⟨_, ⟨h', ⟨lo, hlo, hge, hlt, hc⟩, rfl⟩, rfl⟩
  · rintro ⟨_, ⟨h', ⟨lo, hlo, hge, hlt, hc⟩, rfl⟩, rfl⟩
    exact ⟨lo, h', hlo, hge, hlt, hc, rfl⟩

theorem simpleEscape_iff {b : UInt8} {c : Char} : simpleEscape b = some c ↔ (b, c) ∈ escapeTable := by
  constructor
  · intro h
    unfold simpleEscape at h
    split_ifs at h with h1 h2 h3 h4 h5 h6 h7 h8
    all_goals
      subst b
      obtain rfl := Option.some.inj h
      decide
  · intro h
    have hall : ∀ p ∈ escapeTable, simpleEscape p.1 = some p.2 := by decide
    exact hall (b, c) h

theorem foldl_hex_lt {ds : List Nat} (h : ∀ d ∈ ds, d < 16) (v : Nat) :
    ds.foldl (fun acc d => acc * 16 + d) v < (v + 1) * 16 ^ ds.length := by
  induction ds generalizing v with
  | nil => simp
  | cons d ds ih =>
    have hd := h d (by simp)
    calc (d :: ds).foldl (fun acc d => acc * 16 + d) v
        = ds.foldl (fun acc d => acc * 16 + d) (v * 16 + d) := rfl
      _ < (v * 16 + d + 1) * 16 ^ ds.length := ih (fun d' hd' => h d' (by simp [hd'])) _
      _ ≤ ((v + 1) * 16) * 16 ^ ds.length := by gcongr; omega
      _ = (v + 1) * 16 ^ (d :: ds).length := by rw [List.length_cons, pow_succ]; ring

theorem hexText_lt {v : Nat} {h : Bytes} (hv : HexText v h) : v < 0x10000 := by
  obtain ⟨ds, hmap, hlen, rfl⟩ := hv
  have hds : ∀ d ∈ ds, d < 16 := by
    intro d hd
    have hmem : some d ∈ h.map hexDigit := hmap ▸ List.mem_map_of_mem hd
    obtain ⟨b, -, hb⟩ := List.mem_map.mp hmem
    exact hexDigit_lt hb
  have hlt := foldl_hex_lt hds 0
  rw [hlen] at hlt
  exact hlt

/-- A value that is not half of a pair is a character. -/
theorem hexText_valid {v : Nat} {h : Bytes} (hv : HexText v h) : v.isValidChar ↔ ¬ (0xd800 ≤ v ∧ v < 0xe000) := by
  have hlt := hexText_lt hv
  unfold Nat.isValidChar
  omega

/-- What follows the first four digits. -/
def UnicodeTail (hi : Nat) (c : Char) (w : Bytes) : Prop :=
  (hi.isValidChar ∧ c = Char.ofNat hi ∧ w = []) ∨
    0xd800 ≤ hi ∧ hi < 0xdc00 ∧ ∃ lo h', HexText lo h' ∧ 0xdc00 ≤ lo ∧ lo < 0xe000 ∧
      c = Char.ofNat (0x10000 + (hi - 0xd800) * 1024 + (lo - 0xdc00)) ∧ w = '\\'.toUInt8 :: 'u'.toUInt8 :: h'

theorem escapeText_unicode {c : Char} {w : Bytes} : EscapeText c ('u'.toUInt8 :: w) ↔
    ∃ hi h tail, HexText hi h ∧ UnicodeTail hi c tail ∧ w = h ++ tail := by
  constructor
  · intro h
    cases h with
    | simple hmem =>
      have hall : ∀ p ∈ escapeTable, p.1 ≠ 'u'.toUInt8 := by decide
      exact absurd rfl (hall _ hmem)
    | unicode hv hvalid => exact ⟨_, _, [], hv, Or.inl ⟨hvalid, rfl, rfl⟩, (List.append_nil _).symm⟩
    | pair hhi hlo h1 h2 h3 h4 => exact ⟨_, _, _, hhi, Or.inr ⟨h1, h2, _, _, hlo, h3, h4, rfl, rfl⟩, rfl⟩
  · rintro ⟨hi, h, tail, hhi, ⟨hvalid, rfl, rfl⟩ | ⟨h1, h2, lo, h', hlo, h3, h4, hc, rfl⟩, rfl⟩
    · rw [List.append_nil]
      exact EscapeText.unicode hhi hvalid
    · rw [hc]
      exact EscapeText.pair hhi hlo h1 h2 h3 h4

/-- The character after a backslash and `u`. -/
theorem unicodeEscape_parses (pos : Nat) {Pre Follow : Bytes → Prop} :
    Parses Pre (unicodeEscape pos) (fun c w => EscapeText c ('u'.toUInt8 :: w)) Follow := by
  refine ((hex4_parses pos).bind (R := fun _ => True) (Q := fun hi _ => hi < 0x10000) (T := UnicodeTail)
    (fun hi => Parses.ite (fun hhigh => ?_) fun hhigh => Parses.ite (fun hlow => ?_) fun hlow => ?_)
    (fun hi w rest _ hw => hexText_lt hw) fun _ _ _ _ _ _ _ _ => trivial).congr fun c w rest _ => escapeText_unicode
  · refine (lowSurrogate_parses pos hhigh.1 hhigh.2).congr fun c w rest _ => ?_
    constructor
    · rintro (⟨hvalid, -⟩ | ⟨-, -, h⟩)
      · unfold Nat.isValidChar at hvalid
        omega
      · exact h
    · exact fun h => Or.inr ⟨hhigh.1, hhigh.2, h⟩
  · refine Parses.fail fun c w rest _ hw _ => ?_
    rcases hw with ⟨hvalid, -⟩ | ⟨h1, h2, -⟩
    · unfold Nat.isValidChar at hvalid
      omega
    · exact hhigh ⟨h1, h2⟩
  · refine (Parses.okOr _ _).congr fun c w rest hpre => ?_
    have hvalid : hi.isValidChar := by
      unfold Nat.isValidChar
      omega
    rw [charFromU32_of_valid hvalid, Option.some.injEq]
    constructor
    · rintro (⟨-, hc, hw⟩ | ⟨h1, h2, -⟩)
      · exact ⟨hc.symm, hw⟩
      · exact absurd ⟨h1, h2⟩ hhigh
    · rintro ⟨hc, hw⟩
      exact Or.inl ⟨hvalid, hc.symm, hw⟩

theorem escape_parses {Pre Follow : Bytes → Prop} : Parses Pre escape EscapeText Follow := by
  refine Parses.position fun pos => ?_
  refine (Parses.bump (T := fun b c w => EscapeText c (b :: w)) ?_ fun b => ?_).congr fun c w rest _ => ?_
  · exact Parses.fail fun _ _ _ _ h _ => h
  · refine Parses.ite (fun hb => ?_) fun hb => ?_
    · subst hb
      exact unicodeEscape_parses pos
    · refine (Parses.okOr _ _).congr fun c w rest _ => ?_
      rw [simpleEscape_iff]
      constructor
      · intro h
        cases h with
        | simple hmem => exact ⟨hmem, rfl⟩
        | unicode => exact absurd rfl hb
        | pair => exact absurd rfl hb
      · rintro ⟨hmem, rfl⟩
        exact EscapeText.simple hmem
  · constructor
    · intro h
      cases h with
      | simple hmem => exact ⟨_, [], rfl, EscapeText.simple hmem⟩
      | unicode hv hvalid => exact ⟨_, _, rfl, EscapeText.unicode hv hvalid⟩
      | pair hhi hlo h1 h2 h3 h4 => exact ⟨_, _, rfl, EscapeText.pair hhi hlo h1 h2 h3 h4⟩
    · rintro ⟨b, w', rfl, h⟩
      exact h

theorem utf8_eq_cons {b : UInt8} {w : Bytes} (hb : 0x80 ≤ b.toNat) (hlen : w.length = utf8Len b - 1) {s : String} :
    b :: w = utf8 s ↔ ∃ c, 0x80 ≤ c.toNat ∧ s = String.singleton c ∧ String.utf8EncodeChar c = b :: w := by
  constructor
  · intro h
    rw [utf8_eq_flatMap] at h
    rcases hs : s.toList with _ | ⟨c, cs⟩
    · rw [hs] at h
      cases h
    rw [hs, List.flatMap_cons] at h
    have hlong : 0x80 ≤ c.toNat := by
      by_contra hshort
      rw [encodeChar_ascii (by omega)] at h
      have hbyte := (List.cons.inj h).1
      rw [hbyte, UInt8.toNat_ofNat_of_lt' (by omega : c.toNat < 256)] at hb
      omega
    obtain ⟨b', t, hc, -, hutf8⟩ := encodeChar_long hlong
    rw [hc, List.cons_append] at h
    obtain ⟨rfl, rfl⟩ := List.cons.inj h
    have hcs : cs = [] := by
      rw [List.length_append] at hlen
      cases cs with
      | nil => rfl
      | cons c' cs =>
        have hpos := List.length_pos_of_ne_nil (String.utf8EncodeChar_ne_nil (c := c'))
        rw [List.flatMap_cons, List.length_append] at hlen
        omega
    subst hcs
    refine ⟨c, hlong, ?_, by rw [hc, List.flatMap_nil, List.append_nil]⟩
    rw [← String.toList_inj, hs, String.toList_singleton]
  · rintro ⟨c, -, rfl, hc⟩
    rw [utf8_eq_flatMap, String.toList_singleton, List.flatMap_singleton, hc]

theorem multiByte_parses {b : UInt8} (hb : 0x80 ≤ b.toNat) {Pre Follow : Bytes → Prop} :
    Parses Pre (multiByte b) (fun s w => ∃ c, 0x80 ≤ c.toNat ∧ s = String.singleton c ∧ String.utf8EncodeChar c = b :: w)
      Follow := by
  refine Parses.position fun pos => ((Parses.takeN (utf8Len b - 1) _).bind (R := fun _ => True) (Q := fun _ _ => True)
    (fun tail => Parses.okOr (fromUtf8 (b :: tail)) _) (fun _ _ _ _ _ => trivial)
    fun _ _ _ _ _ _ _ _ => trivial).congr fun s w rest _ => ?_
  constructor
  · rintro ⟨c, hc, rfl, henc⟩
    have hlen : w.length = utf8Len b - 1 := by
      obtain ⟨b', t, hc', -, hutf8⟩ := encodeChar_long hc
      obtain ⟨rfl, rfl⟩ := List.cons.inj (henc.symm.trans hc')
      omega
    exact ⟨w, w, [], ⟨rfl, hlen⟩, ⟨fromUtf8_iff.mpr ((utf8_eq_cons hb hlen).mpr ⟨c, hc, rfl, henc⟩), rfl⟩,
      (List.append_nil w).symm⟩
  · rintro ⟨tail, w1, w2, ⟨rfl, hlen⟩, ⟨hs, rfl⟩, rfl⟩
    rw [List.append_nil]
    exact (utf8_eq_cons hb hlen).mp (fromUtf8_iff.mp hs)

/-- The three kinds of characters, by their first byte. -/
theorem charText_cons {c : Char} {b : UInt8} {t : Bytes} : CharText c (b :: t) ↔
    (b = '\\'.toUInt8 ∧ EscapeText c t) ∨
      (0x20 ≤ b.toNat ∧ b.toNat < 0x80 ∧ b ≠ '"'.toUInt8 ∧ b ≠ '\\'.toUInt8 ∧ c = Char.ofNat b.toNat ∧ t = []) ∨
      (0x80 ≤ b.toNat ∧ 0x80 ≤ c.toNat ∧ String.utf8EncodeChar c = b :: t) := by
  have hquote : '"'.toUInt8.toNat = 34 ∧ '"'.toNat = 34 := ⟨rfl, rfl⟩
  have hslash : '\\'.toUInt8.toNat = 92 ∧ '\\'.toNat = 92 := ⟨rfl, rfl⟩
  constructor
  · intro h
    generalize hw : b :: t = w at h
    cases h with
    | escaped htail =>
      obtain ⟨rfl, rfl⟩ := List.cons.inj hw
      exact Or.inl ⟨rfl, htail⟩
    | unescaped h1 h2 h3 =>
      by_cases hshort : c.toNat < 0x80
      · rw [encodeChar_ascii hshort] at hw
        obtain ⟨rfl, rfl⟩ := List.cons.inj hw
        have hbyte : (UInt8.ofNat c.toNat).toNat = c.toNat := UInt8.toNat_ofNat_of_lt' (by omega : c.toNat < 256)
        refine Or.inr (Or.inl ⟨by omega, by omega, fun hb => h2 ?_, fun hb => h3 ?_, ?_, rfl⟩)
        · apply Char.toNat_inj.mp
          rw [← hbyte, hb, hquote.1, hquote.2]
        · apply Char.toNat_inj.mp
          rw [← hbyte, hb, hslash.1, hslash.2]
        · rw [hbyte, Char.ofNat_toNat]
      · obtain ⟨b', t', hc, hb', -⟩ := encodeChar_long (c := c) (by omega)
        obtain ⟨rfl, rfl⟩ := List.cons.inj (hw.trans hc)
        exact Or.inr (Or.inr ⟨hb', by omega, rfl⟩)
  · rintro (⟨rfl, htail⟩ | ⟨h1, h2, hquote', hslash', rfl, rfl⟩ | ⟨-, hc, henc⟩)
    · exact CharText.escaped htail
    · have hchar : (Char.ofNat b.toNat).toNat = b.toNat := toNat_charOfNat (Or.inl (by omega))
      have hunescaped : CharText (Char.ofNat b.toNat) (String.utf8EncodeChar (Char.ofNat b.toNat)) := by
        refine CharText.unescaped (by omega) (fun heq => hquote' ?_) fun heq => hslash' ?_
        · apply UInt8.toNat_inj.mp
          rw [← hchar, heq, hquote.1, hquote.2]
        · apply UInt8.toNat_inj.mp
          rw [← hchar, heq, hslash.1, hslash.2]
      rw [encodeChar_ascii (by omega), hchar, UInt8.ofNat_toNat] at hunescaped
      exact hunescaped
    · rw [← henc]
      refine CharText.unescaped (by omega) (fun heq => ?_) fun heq => ?_
      · rw [heq, hquote.2] at hc
        omega
      · rw [heq, hslash.2] at hc
        omega

/-- What a loop still reads. -/
def LoopText (out s : String) (w : Bytes) : Prop :=
  ∃ cs body, Chars cs body ∧ w = body ++ ['"'.toUInt8] ∧ s = out ++ String.ofList cs

theorem loopText_iff {out s : String} {w : Bytes} : LoopText out s w ↔ (w = ['"'.toUInt8] ∧ s = out) ∨
    ∃ c w1 w2, CharText c w1 ∧ LoopText (out.push c) s w2 ∧ w = w1 ++ w2 := by
  have hpush : ∀ (c : Char) (cs : List Char), out.push c ++ String.ofList cs = out ++ String.ofList (c :: cs) := by
    intro c cs
    rw [← String.toList_inj]
    simp
  constructor
  · rintro ⟨cs, body, hchars, rfl, rfl⟩
    cases hchars with
    | nil =>
      refine Or.inl ⟨rfl, ?_⟩
      rw [← String.toList_inj]
      simp
    | cons hc hcs => exact Or.inr ⟨_, _, _, hc, ⟨_, _, hcs, rfl, (hpush _ _).symm⟩, List.append_assoc _ _ _⟩
  · rintro (⟨rfl, rfl⟩ | ⟨c, w1, _, hc, ⟨cs, body, hcs, rfl, rfl⟩, rfl⟩)
    · refine ⟨[], [], Chars.nil, rfl, ?_⟩
      rw [← String.toList_inj]
      simp
    · exact ⟨c :: cs, w1 ++ body, Chars.cons hc hcs, (List.append_assoc _ _ _).symm, hpush c cs⟩

theorem CharText.ne_nil {c : Char} {w : Bytes} (h : CharText c w) : w ≠ [] := by
  cases h with
  | unescaped => exact String.utf8EncodeChar_ne_nil
  | escaped => exact List.cons_ne_nil _ _

/-- A text that goes on with a byte. -/
theorem loopText_cons {out s : String} {b : UInt8} {t : Bytes} : LoopText out s (b :: t) ↔
    (b = '"'.toUInt8 ∧ s = out ∧ t = []) ∨
    (b = '\\'.toUInt8 ∧ ∃ c w1 w2, EscapeText c w1 ∧ LoopText (out.push c) s w2 ∧ t = w1 ++ w2) ∨
    (0x20 ≤ b.toNat ∧ b.toNat < 0x80 ∧ b ≠ '"'.toUInt8 ∧ b ≠ '\\'.toUInt8 ∧ LoopText (out.push (Char.ofNat b.toNat)) s t) ∨
    (0x80 ≤ b.toNat ∧ ∃ c w1 w2, (0x80 ≤ c.toNat ∧ String.utf8EncodeChar c = b :: w1) ∧ LoopText (out.push c) s w2 ∧
      t = w1 ++ w2) := by
  rw [loopText_iff]
  constructor
  · rintro (⟨h, rfl⟩ | ⟨c, w1, w2, hc, hloop, h⟩)
    · obtain ⟨rfl, rfl⟩ := List.cons.inj h
      exact Or.inl ⟨rfl, rfl, rfl⟩
    · obtain ⟨b', t', rfl⟩ := List.exists_cons_of_ne_nil hc.ne_nil
      obtain ⟨rfl, rfl⟩ := List.cons.inj h
      rcases charText_cons.mp hc with ⟨rfl, hesc⟩ | ⟨h1, h2, h3, h4, rfl, rfl⟩ | ⟨h1, h2, henc⟩
      · exact Or.inr (Or.inl ⟨rfl, c, t', w2, hesc, hloop, rfl⟩)
      · exact Or.inr (Or.inr (Or.inl ⟨h1, h2, h3, h4, hloop⟩))
      · exact Or.inr (Or.inr (Or.inr ⟨h1, c, t', w2, ⟨h2, henc⟩, hloop, rfl⟩))
  · rintro (⟨rfl, rfl, rfl⟩ | ⟨rfl, c, w1, w2, hesc, hloop, rfl⟩ | ⟨h1, h2, h3, h4, hloop⟩ |
      ⟨h1, c, w1, w2, ⟨h2, henc⟩, hloop, rfl⟩)
    · exact Or.inl ⟨rfl, rfl⟩
    · exact Or.inr ⟨c, _, w2, CharText.escaped hesc, hloop, rfl⟩
    · exact Or.inr ⟨_, [b], t, charText_cons.mpr (Or.inr (Or.inl ⟨h1, h2, h3, h4, rfl, rfl⟩)), hloop, rfl⟩
    · exact Or.inr ⟨c, b :: w1, w2, charText_cons.mpr (Or.inr (Or.inr ⟨h1, h2, henc⟩)), hloop, rfl⟩

theorem loopText_quote {out s : String} {t : Bytes} : LoopText out s ('"'.toUInt8 :: t) ↔ s = out ∧ t = [] := by
  have h1 : '"'.toUInt8 ≠ '\\'.toUInt8 := by decide
  have h2 : ¬ 0x80 ≤ '"'.toUInt8.toNat := by decide
  rw [loopText_cons]
  simp only [h1, h2, ne_eq, not_true_eq_false, false_and, and_false, or_false, true_and]

theorem loopText_slash {out s : String} {t : Bytes} : LoopText out s ('\\'.toUInt8 :: t) ↔
    ∃ c w1 w2, EscapeText c w1 ∧ LoopText (out.push c) s w2 ∧ t = w1 ++ w2 := by
  have h1 : '\\'.toUInt8 ≠ '"'.toUInt8 := by decide
  have h2 : ¬ 0x80 ≤ '\\'.toUInt8.toNat := by decide
  rw [loopText_cons]
  simp only [h1, h2, ne_eq, not_true_eq_false, false_and, and_false, or_false, true_and, false_or]

theorem loopText_ascii {out s : String} {b : UInt8} {t : Bytes} (h1 : b ≠ '"'.toUInt8) (h2 : b ≠ '\\'.toUInt8)
    (h3 : b.toNat < 0x80) :
    LoopText out s (b :: t) ↔ 0x20 ≤ b.toNat ∧ LoopText (out.push (Char.ofNat b.toNat)) s t := by
  rw [loopText_cons]
  simp only [h1, h2, h3, Nat.not_le.mpr h3, ne_eq, not_false_eq_true, false_and, or_false, true_and, false_or]

theorem loopText_long {out s : String} {b : UInt8} {t : Bytes} (h : 0x80 ≤ b.toNat) : LoopText out s (b :: t) ↔
    ∃ c w1 w2, (0x80 ≤ c.toNat ∧ String.utf8EncodeChar c = b :: w1) ∧ LoopText (out.push c) s w2 ∧ t = w1 ++ w2 := by
  have h1 : b ≠ '"'.toUInt8 := by
    rintro rfl
    revert h
    decide
  have h2 : b ≠ '\\'.toUInt8 := by
    rintro rfl
    revert h
    decide
  rw [loopText_cons]
  simp only [h, h1, h2, Nat.not_lt.mpr h, false_and, and_false, true_and, false_or]

theorem stringLoop_parses (fuel : Nat) (out : String) {Follow : Bytes → Prop} :
    Parses (fun r => r.length < fuel) (stringLoop fuel out) (LoopText out) Follow := by
  induction fuel generalizing out with
  | zero => exact Parses.unreachable fun r h => Nat.not_lt_zero _ h
  | succ fuel ih =>
    refine (Parses.bump (T := fun b s w => LoopText out s (b :: w)) ?_ fun b => ?_).congr fun s w rest _ => ?_
    · exact Parses.fail fun _ _ _ _ h _ => h
    · have hfuel : ∀ r : Bytes, (b :: r).length < fuel + 1 → r.length < fuel := by
        intro r hr
        rw [List.length_cons] at hr
        omega
      have htail : ∀ (w rest : Bytes), (b :: (w ++ rest)).length < fuel + 1 → rest.length < fuel := by
        intro w rest hr
        rw [List.length_cons, List.length_append] at hr
        omega
      refine Parses.ite (fun hquote => ?_) fun hquote => Parses.ite (fun hslash => ?_) fun hslash => Parses.ite
        (fun hraw => ?_) fun hraw => Parses.ite (fun hascii => ?_) fun hascii => ?_
      · subst hquote
        exact (Parses.pure out).congr fun s w rest _ => loopText_quote
      · subst hslash
        exact (escape_parses.bind (R := fun _ => True) (fun c => ih (out.push c)) (fun c w rest hr _ => htail w rest hr)
          fun _ _ _ _ _ _ _ _ => trivial).congr fun s w rest _ => loopText_slash
      · refine Parses.position fun pos => Parses.fail fun s w rest _ hw _ => ?_
        have hlt : b.toNat < 0x20 := UInt8.lt_iff_toNat_lt.mp hraw
        have := ((loopText_ascii hquote hslash (by omega)).mp hw).1
        omega
      · have hlt : b.toNat < 0x80 := UInt8.lt_iff_toNat_lt.mp hascii
        have hge : 0x20 ≤ b.toNat := Nat.le_of_not_lt fun h => hraw (UInt8.lt_iff_toNat_lt.mpr h)
        exact ((ih _).weaken hfuel fun _ h => h).congr fun s w rest _ =>
          (loopText_ascii hquote hslash hlt).trans (and_iff_right hge)
      · have hge : 0x80 ≤ b.toNat := Nat.le_of_not_lt fun h => hascii (UInt8.lt_iff_toNat_lt.mpr h)
        refine ((multiByte_parses hge).bind (R := fun _ => True) (fun t => ih (out ++ t))
          (fun c w rest hr _ => htail w rest hr) fun _ _ _ _ _ _ _ _ => trivial).congr fun s w rest _ => ?_
        rw [loopText_long hge]
        have hpush : ∀ c : Char, out ++ String.singleton c = out.push c := by
          intro c
          rw [← String.toList_inj]
          simp
        constructor
        · rintro ⟨c, w1, w2, ⟨hc, henc⟩, hloop, rfl⟩
          exact ⟨_, w1, w2, ⟨c, hc, rfl, henc⟩, by rwa [hpush], rfl⟩
        · rintro ⟨_, w1, w2, ⟨c, hc, rfl, henc⟩, hloop, rfl⟩
          rw [hpush] at hloop
          exact ⟨c, w1, w2, ⟨hc, henc⟩, hloop, rfl⟩
    · constructor
      · intro h
        cases w with
        | nil =>
          obtain ⟨cs, body, -, hw, -⟩ := h
          simp at hw
        | cons b w => exact ⟨b, w, rfl, h⟩
      · rintro ⟨b, w', rfl, h⟩
        exact h

theorem openingQuote_parses {Follow : Bytes → Prop} :
    Parses (fun r => r.head? = some '"'.toUInt8) (openingQuote .debug) (fun _ w => w = ['"'.toUInt8]) Follow := by
  refine (Parses.bump (T := fun b _ w => b = '"'.toUInt8 ∧ w = []) ?_ fun b => ?_).congr fun _ w rest _ => ?_
  · refine Parses.unreachable fun r h => ?_
    rw [h.2] at h
    cases h.1
  · refine Parses.ite (fun hb => (Parses.pure ()).congr fun _ w rest _ => ?_) fun hb => Parses.unreachable fun r hr => ?_
    · simpa using fun _ => Option.some.inj hb
    · exact hb hr
  · constructor
    · rintro rfl
      exact ⟨_, [], rfl, rfl, rfl⟩
    · rintro ⟨b, w', rfl, rfl, rfl⟩
      rfl

theorem stringRest_parses {Pre Follow : Bytes → Prop} :
    Parses Pre (Parser.remaining >>= fun left => stringLoop (left + 1) "") (LoopText "") Follow :=
  Parses.remaining fun n => (stringLoop_parses (n + 1) "").weaken (fun _ hr => Nat.lt_succ_of_le hr.2.le) fun _ h => h

/-- **A string literal of the build**, where the next byte is a quote. -/
theorem string_parses (build : Build) {Follow : Bytes → Prop} :
    Parses (fun r => r.head? = some '"'.toUInt8) (string build) (literalOf build) Follow := by
  have hloop : ∀ (s : String) (w : Bytes), LoopText "" s w ↔ ∃ body, Chars s.toList body ∧ w = body ++ ['"'.toUInt8] := by
    intro s w
    constructor
    · rintro ⟨cs, body, hcs, rfl, rfl⟩
      exact ⟨body, by simpa using hcs, rfl⟩
    · rintro ⟨body, hcs, rfl⟩
      exact ⟨s.toList, body, hcs, rfl, by simp⟩
  cases build with
  | debug =>
    refine (openingQuote_parses.andThen (Q := fun _ => True) (R := fun _ => True) stringRest_parses
      (fun _ _ _ _ _ => trivial) fun _ _ _ _ _ => trivial).congr fun s w rest _ => ?_
    constructor
    · rintro ⟨body, hcs, rfl⟩
      exact ⟨_, _, ⟨(), rfl⟩, (hloop s _).mpr ⟨body, hcs, rfl⟩, rfl⟩
    · rintro ⟨_, w2, ⟨-, rfl⟩, hw2, rfl⟩
      obtain ⟨body, hcs, rfl⟩ := (hloop s w2).mp hw2
      exact ⟨body, hcs, rfl⟩
  | release =>
    -- the loop meets the quote that was not moved over
    refine Parses.congr (E := LoopText "") ?_ fun s w rest hpre => ?_
    · exact stringRest_parses
    · cases w with
      | nil =>
        refine iff_of_false (fun h => ?_) fun h => ?_
        · cases h.2
        · obtain ⟨body, -, hw⟩ := (hloop s []).mp h
          simp at hw
      | cons b t =>
        obtain rfl : b = '"'.toUInt8 := Option.some.inj hpre
        rw [loopText_quote, literalOf, OneQuote, List.cons.injEq]
        simp

/-! ## Lemmas: lists -/

section Lists

variable {α : Type} {Item : α → Bytes → Prop}

/-- Each item begins with a byte that is neither white space nor `close`. -/
def Begins (Item : α → Bytes → Prop) (close : UInt8) : Prop :=
  ∀ a w, Item a w → ∃ b t, w = b :: t ∧ isWs b = false ∧ b ≠ close

theorem CommaText.append_left {l : List α} {ws body : Bytes} (hws : Ws ws) (h : CommaText Item l body) :
    CommaText Item l (ws ++ body) := by
  cases h with
  | one h1 ha h2 =>
    rw [← List.append_assoc, ← List.append_assoc]
    exact CommaText.one (hws.append h1) ha h2
  | cons h1 ha h2 hrest =>
    rw [← List.append_assoc, ← List.append_assoc, ← List.append_assoc]
    exact CommaText.cons (hws.append h1) ha h2 hrest

/-- The white space before the first item. -/
theorem CommaText.skip {l : List α} {body : Bytes} (h : CommaText Item l body) :
    ∃ ws body', body = ws ++ body' ∧ Ws ws ∧ CommaText Item l body' ∧ ∃ a w t, Item a w ∧ body' = w ++ t := by
  cases h with
  | one h1 ha h2 => exact ⟨_, _, List.append_assoc _ _ _, h1, CommaText.one Ws.nil ha h2, _, _, _, ha, rfl⟩
  | @cons a l w1 w w2 rest h1 ha h2 hrest =>
    refine ⟨w1, w ++ w2 ++ ','.toUInt8 :: rest, by simp, h1, ?_, a, w, w2 ++ ','.toUInt8 :: rest, ha, by simp⟩
    exact CommaText.cons Ws.nil ha h2 hrest

/-- What a loop reads, over the items it has. -/
def CommaRest (Item : α → Bytes → Prop) (close : UInt8) (items l : List α) (w : Bytes) : Prop :=
  ∃ l' body, CommaText Item l' body ∧ w = body ++ [close] ∧ l = items ++ l'

theorem ws_not_number {b : UInt8} (h : isWs b = true) : isNumberByte b = false := by
  have hcases : b = ' '.toUInt8 ∨ b = '\t'.toUInt8 ∨ b = '\n'.toUInt8 ∨ b = '\r'.toUInt8 := by
    simpa [isWs, or_assoc] using h
  rcases hcases with rfl | rfl | rfl | rfl <;> rfl

/-- White space, or what comes after it, does not go on with a number. -/
theorem ends_number_of_ws {ws rest : Bytes} (hws : Ws ws) (hrest : Ends isNumberByte rest) :
    Ends isNumberByte (ws ++ rest) := by
  cases ws with
  | nil => exact hrest
  | cons b ws => exact ends_cons.mpr (ws_not_number (hws b (by simp)))

theorem Begins.ends {close : UInt8} (h : Begins Item close) {a : α} {w rest : Bytes} (ha : Item a w) :
    Ends isWs (w ++ rest) := by
  obtain ⟨b, t, rfl, hb, -⟩ := h a w ha
  exact ends_cons.mpr hb

/-- What comes after an item: a comma and the rest, or the end. -/
def AfterItem (Item : α → Bytes → Prop) (close : UInt8) (items l : List α) (b : UInt8) (t : Bytes) : Prop :=
  (b = ','.toUInt8 ∧ CommaRest Item close items l t) ∨ (b = close ∧ l = items ∧ t = [])

theorem commaRest_iff {close : UInt8} {items l : List α} {w : Bytes} : CommaRest Item close items l w ↔
    ∃ w1 v wi w2 b t, Ws w1 ∧ Item v wi ∧ Ws w2 ∧ AfterItem Item close (items ++ [v]) l b t ∧
      w = w1 ++ (wi ++ (w2 ++ b :: t)) := by
  constructor
  · rintro ⟨l', body, hbody, rfl, rfl⟩
    cases hbody with
    | one h1 ha h2 => exact ⟨_, _, _, _, close, [], h1, ha, h2, Or.inr ⟨rfl, rfl, rfl⟩, by simp⟩
    | cons h1 ha h2 hrest =>
      exact ⟨_, _, _, _, _, _, h1, ha, h2, Or.inl ⟨rfl, _, _, hrest, rfl, by simp⟩, by simp⟩
  · rintro ⟨w1, v, wi, w2, b, t, h1, ha, h2, ⟨rfl, l', body, hrest, rfl, rfl⟩ | ⟨rfl, rfl, rfl⟩, rfl⟩
    · exact ⟨v :: l', _, CommaText.cons h1 ha h2 hrest, by simp, by simp⟩
    · exact ⟨[v], _, CommaText.one h1 ha h2, by simp, rfl⟩

theorem commaLoop_parses {item : JsonParser α} {close : UInt8} {expected : String} (hclose : isNumberByte close = false)
    (hne : close ≠ ','.toUInt8) (hws : isWs close = false)
    (hitem : Parses (fun _ => True) item Item (Ends isNumberByte)) (hbegin : Begins Item close) (fuel : Nat)
    (items : List α) {Follow : Bytes → Prop} :
    Parses (fun r => r.length < fuel) (commaLoop item close expected fuel items) (CommaRest Item close items) Follow := by
  induction fuel generalizing items with
  | zero => exact Parses.unreachable fun r h => Nat.not_lt_zero _ h
  | succ fuel ih =>
    have hafter : ∀ v, Parses (fun r => r.length < fuel + 1) (commaNext item close expected fuel (items ++ [v]))
        (fun l w => ∃ b t, w = b :: t ∧ AfterItem Item close (items ++ [v]) l b t) Follow := by
      intro v
      refine Parses.bump ?_ fun b => ?_
      · exact Parses.fail fun _ _ _ _ h _ => h
      · refine Parses.ite (fun hcomma => ?_) fun hcomma => Parses.ite (fun hend => ?_) fun hend => ?_
        · refine ((ih (items ++ [v])).weaken (fun r hr => Nat.lt_of_succ_lt_succ hr) fun _ h => h).congr
            fun l w rest _ => ?_
          subst hcomma
          simp [AfterItem, hne.symm]
        · refine (Parses.pure _).congr fun l w rest _ => ?_
          subst hend
          simp [AfterItem, hne]
        · refine Parses.position fun pos => Parses.fail fun l w rest _ hw _ => ?_
          rcases hw with ⟨h, -⟩ | ⟨h, -⟩
          · exact hcomma h
          · exact hend h
    have hends : ∀ v l b t, AfterItem Item close (items ++ [v]) l b t → isWs b = false ∧ isNumberByte b = false := by
      rintro v l b t (⟨rfl, -⟩ | ⟨rfl, -⟩)
      · exact ⟨rfl, rfl⟩
      · exact ⟨hws, hclose⟩
    have hlength : ∀ w rest : Bytes, (w ++ rest).length < fuel + 1 → rest.length < fuel + 1 := by
      intro w rest h
      rw [List.length_append] at h
      omega
    have hskip : Parses (fun r => r.length < fuel + 1) ws (fun _ w => Ws w) (Ends isWs) := ws_parses
    have hitem' : Parses (fun r => r.length < fuel + 1) item Item (Ends isNumberByte) :=
      hitem.weaken (fun _ _ => trivial) fun _ h => h
    have htail := fun v => (hskip.andThen (hafter v) (fun _ w rest h _ => hlength w rest h)
      fun l w rest hw _ => by
        obtain ⟨b, t, rfl, h⟩ := hw
        exact ends_cons.mpr (hends v l b t h).1)
    have hbody := hitem'.bind htail
      (fun v w rest h _ => hlength w rest h) fun v w l w' rest hw hw' _ => by
        obtain ⟨w2, _, ⟨-, h2⟩, ⟨b, t, rfl, h⟩, rfl⟩ := hw'
        rw [List.append_assoc]
        exact ends_number_of_ws h2 (ends_cons.mpr (hends v l b t h).2)
    refine (hskip.andThen hbody (fun _ w rest h _ => hlength w rest h) fun l w rest hw _ => ?_).congr
      fun l w rest _ => ?_
    · obtain ⟨v, wi, wt, ha, -, rfl⟩ := hw
      rw [List.append_assoc]
      exact hbegin.ends ha
    · rw [commaRest_iff]
      constructor
      · rintro ⟨w1, v, wi, w2, b, t, h1, ha, h2, hafter', rfl⟩
        exact ⟨w1, _, ⟨(), h1⟩, ⟨v, wi, _, ha, ⟨w2, _, ⟨(), h2⟩, ⟨b, t, rfl, hafter'⟩, rfl⟩, rfl⟩, rfl⟩
      · rintro ⟨w1, _, ⟨-, h1⟩, ⟨v, wi, _, ha, ⟨w2, _, ⟨-, h2⟩, ⟨b, t, rfl, hafter'⟩, rfl⟩, rfl⟩, rfl⟩
        exact ⟨w1, v, wi, w2, b, t, h1, ha, h2, hafter', rfl⟩

theorem commaList_parses {item : JsonParser α} {close : UInt8} {expected : String} (hclose : isNumberByte close = false)
    (hne : close ≠ ','.toUInt8) (hws : isWs close = false)
    (hitem : Parses (fun _ => True) item Item (Ends isNumberByte)) (hbegin : Begins Item close) {Pre Follow : Bytes → Prop} :
    Parses Pre (commaList item close expected) (ListText Item close) Follow := by
  have hrest : Parses (Ends isWs) (do
      if (← Parser.peek) = some close then do
        Parser.advance 1
        return []
      else do
        let left ← Parser.remaining
        commaLoop item close expected (left + 1) [])
      (fun l w => (l = [] ∧ w = [close]) ∨ CommaRest Item close [] l w ∧
        ∃ b t, w = b :: t ∧ isWs b = false ∧ b ≠ close) Follow := by
    refine Parses.peek fun o => Parses.ite (fun ho => ?_) fun ho => ?_
    · subst ho
      refine ((Parses.advance (b := close) fun r hr => hr.2).andThen (Q := fun _ => True) (R := fun _ => True)
        (Parses.pure []) (fun _ _ _ _ _ => trivial) fun _ _ _ _ _ => trivial).congr fun l w rest hpre => ?_
      constructor
      · rintro (⟨rfl, rfl⟩ | ⟨-, b, t, rfl, -, hb⟩)
        · exact ⟨[close], [], ⟨(), rfl⟩, ⟨rfl, rfl⟩, rfl⟩
        · exact absurd (Option.some.inj hpre.2) hb
      · rintro ⟨_, _, ⟨-, rfl⟩, ⟨rfl, rfl⟩, rfl⟩
        exact Or.inl ⟨rfl, rfl⟩
    · refine (Parses.remaining fun n => (commaLoop_parses hclose hne hws hitem hbegin (n + 1) []).weaken
        (fun r hr => Nat.lt_succ_of_le hr.2.le) fun _ h => h).congr fun l w rest hpre => ?_
      constructor
      · rintro (⟨rfl, rfl⟩ | ⟨h, -⟩)
        · exact absurd hpre.2.symm ho
        · exact h
      · intro h
        obtain ⟨l', body, -, rfl, -⟩ := id h
        obtain ⟨b, t, hbt⟩ := List.exists_cons_of_ne_nil (show body ++ [close] ≠ [] by simp)
        rw [hbt] at hpre h ⊢
        refine Or.inr ⟨h, b, t, rfl, hpre.1 b rfl, ?_⟩
        rintro rfl
        exact ho hpre.2.symm
  refine (Parses.skipThen hrest fun l w rest hw _ => ?_).congr fun l w rest _ => ?_
  · rcases hw with ⟨rfl, rfl⟩ | ⟨-, b, t, rfl, hb, -⟩
    · exact ends_cons.mpr hws
    · exact ends_cons.mpr hb
  · constructor
    · rintro ⟨body, ⟨rfl, hbody⟩ | hbody, rfl⟩
      · exact ⟨body, [close], hbody, Or.inl ⟨rfl, rfl⟩, rfl⟩
      · obtain ⟨ws, body', rfl, hws', hbody', a, wi, t, ha, rfl⟩ := hbody.skip
        obtain ⟨b, t', rfl, hb, hb'⟩ := hbegin a wi ha
        exact ⟨ws, _, hws', Or.inr ⟨⟨l, _, hbody', rfl, rfl⟩, b, _, rfl, hb, hb'⟩, List.append_assoc _ _ _⟩
    · rintro ⟨ws, _, hws', ⟨rfl, rfl⟩ | ⟨⟨l', body, hbody, rfl, rfl⟩, -⟩, rfl⟩
      · exact ⟨ws, Or.inl ⟨rfl, hws'⟩, rfl⟩
      · exact ⟨ws ++ body, Or.inr (hbody.append_left hws'), (List.append_assoc _ _ _).symm⟩

end Lists

/-! ## Lemmas: values -/

theorem literal_head {build : Build} {s : String} {w : Bytes} (h : literalOf build s w) : ∃ t, w = '"'.toUInt8 :: t := by
  cases build with
  | debug =>
    obtain ⟨body, -, rfl⟩ := h
    exact ⟨_, rfl⟩
  | release => exact ⟨[], h.2⟩

theorem pair_parses {build : Build} {value : JsonParser (Json Φ)} {Item : Json Φ → Bytes → Prop} {close : UInt8}
    (hvalue : Parses (fun _ => True) value Item (Ends isNumberByte)) (hbegin : Begins Item close) :
    Parses (fun _ => True) (pair build value) (PairText (literalOf build) Item) (Ends isNumberByte) := by
  have hvalueOf : ∀ key : String, Parses (fun _ => True) (do
      ws
      let v ← value
      return (key, v)) (fun p w => p.1 = key ∧ ∃ w2 v, Ws w2 ∧ Item p.2 v ∧ w = w2 ++ v) (Ends isNumberByte) := by
    intro key
    refine (ws_parses.andThen (hvalue.map fun v => (key, v)) (Q := fun _ => True) (fun _ _ _ _ _ => trivial)
      fun p w rest hw _ => ?_).congr fun p w rest _ => ?_
    · obtain ⟨v, hv, -⟩ := hw
      exact hbegin.ends hv
    · constructor
      · rintro ⟨hkey, w2, v, h2, hv, rfl⟩
        exact ⟨w2, v, ⟨(), h2⟩, ⟨p.2, hv, Prod.ext hkey rfl⟩, rfl⟩
      · rintro ⟨w2, v, ⟨-, h2⟩, ⟨u, hv, rfl⟩, rfl⟩
        exact ⟨rfl, w2, v, h2, hv, rfl⟩
  refine Parses.peek fun o => ?_
  rcases o with _ | b
  · refine Parses.fail fun p w rest hpre hw _ => ?_
    obtain ⟨k, w1, w2, v, hk, -, -, -, rfl⟩ := hw
    obtain ⟨t, rfl⟩ := literal_head hk
    cases hpre.2
  refine Parses.ite (fun hb => Parses.position fun pos => Parses.fail fun p w rest hpre hw _ => ?_) fun hb => ?_
  · obtain ⟨k, w1, w2, v, hk, -, -, -, rfl⟩ := hw
    obtain ⟨t, rfl⟩ := literal_head hk
    exact hb (Option.some.inj hpre.2).symm
  · obtain rfl := not_not.mp hb
    have hskip : Parses (fun _ => True) ws (fun _ w => Ws w) (Ends isWs) := ws_parses
    have hcolon := fun key => hskip.andThen (Q := fun _ => True) (expect_parses (x := ':'.toUInt8)
      (p := fun _ => noColon)
      (fun _ => Parses.peek fun o => by
        rcases o with _ | b
        · exact Parses.fail fun _ _ _ _ h _ => h
        · exact Parses.position fun pos => Parses.fail fun _ _ _ _ h _ => h) (hvalueOf key))
      (fun _ _ _ _ _ => trivial) fun p w rest hw _ => by
        obtain ⟨t, -, rfl⟩ := hw
        exact ends_cons.mpr rfl
    refine (((string_parses build).weaken (fun r (hr : True ∧ r.head? = some '"'.toUInt8) => hr.2) fun _ h => h).bind
      (Q := fun _ _ => True) (R := fun _ => True) hcolon (fun _ _ _ _ _ => trivial)
      fun _ _ _ _ _ _ _ _ => trivial).congr fun p w rest _ => ?_
    constructor
    · rintro ⟨k, w1, w2, v, hk, h1, h2, hv, rfl⟩
      exact ⟨p.1, k, _, hk, ⟨w1, _, ⟨(), h1⟩, ⟨_, ⟨rfl, w2, v, h2, hv, rfl⟩, rfl⟩, rfl⟩, rfl⟩
    · rintro ⟨key, k, _, hk, ⟨w1, _, ⟨-, h1⟩, ⟨_, ⟨rfl, w2, v, h2, hv, rfl⟩, rfl⟩, rfl⟩, rfl⟩
      exact ⟨k, w1, w2, v, hk, h1, h2, hv, rfl⟩

/-- The first byte of a value says which kind it is. -/
def HeadOf : Json Φ → UInt8 → Prop
  | .null, b => b = 'n'.toUInt8
  | .bool true, b => b = 't'.toUInt8
  | .bool false, b => b = 'f'.toUInt8
  | .int _, b => b = '-'.toUInt8 ∨ isDigit b = true
  | .float _, b => b = '-'.toUInt8 ∨ isDigit b = true
  | .str _, b => b = '"'.toUInt8
  | .array _, b => b = '['.toUInt8
  | .object _, b => b = '{'.toUInt8

theorem NumberText.head {float : Bool} {w : Bytes} (h : NumberText float w) :
    ∃ b t, w = b :: t ∧ (b = '-'.toUInt8 ∨ isDigit b = true) := by
  obtain ⟨minus, int, frac, exp, hminus, hint, -, -, rfl, -⟩ := h
  obtain ⟨b, t, rfl, hb⟩ := hint.head
  rcases hminus with rfl | rfl
  · exact ⟨b, _, rfl, Or.inr hb⟩
  · exact ⟨_, _, rfl, Or.inl rfl⟩

theorem value_head {build : Build} {D I : Json Φ → Bytes → Prop} {v : Json Φ} {w : Bytes}
    (hdeep : ∀ v w, D v w → NestedText (literalOf build) I v w) (h : ScalarText (literalOf build) v w ∨ D v w) :
    ∃ b t, w = b :: t ∧ HeadOf v b := by
  rcases h with (⟨rfl, rfl⟩ | ⟨rfl, rfl⟩ | ⟨rfl, rfl⟩ | (⟨hw, i, -, rfl⟩ | ⟨hw, text, f, -, -, rfl⟩) | ⟨s, rfl, hs⟩) | h
  · exact ⟨_, _, rfl, rfl⟩
  · exact ⟨_, _, rfl, rfl⟩
  · exact ⟨_, _, rfl, rfl⟩
  · exact hw.head
  · exact hw.head
  · obtain ⟨t, rfl⟩ := literal_head hs
    exact ⟨_, t, rfl, rfl⟩
  · rcases hdeep v w h with ⟨items, body, rfl, -, rfl⟩ | ⟨pairs, body, rfl, -, rfl⟩
    · exact ⟨_, body, rfl, rfl⟩
    · exact ⟨_, body, rfl, rfl⟩


/-- What the values of one head are. -/
theorem scalarText_iff {lit : String → Bytes → Prop} {w : Bytes} :
    (ScalarText lit (.null : Json Φ) w ↔ w = ascii "null") ∧ (∀ b, ScalarText lit (.bool b : Json Φ) w ↔
      w = if b then ascii "true" else ascii "false") ∧ (∀ s, ScalarText lit (.str s : Json Φ) w ↔ lit s w) ∧
      (∀ i, ScalarText lit (.int i : Json Φ) w ↔ NumberOf (.int i : Json Φ) w) ∧
      (∀ f, ScalarText lit (.float f : Json Φ) w ↔ NumberOf (.float f : Json Φ) w) ∧
      (∀ items, ¬ ScalarText lit (.array items : Json Φ) w) ∧ ∀ pairs, ¬ ScalarText lit (.object pairs : Json Φ) w := by
  refine ⟨?_, ?_, ?_, ?_, ?_, ?_, ?_⟩
  · simp [ScalarText, NumberOf]
  · intro b
    cases b <;> simp [ScalarText, NumberOf]
  · simp [ScalarText, NumberOf]
  · simp [ScalarText]
  · simp [ScalarText]
  · simp [ScalarText, NumberOf]
  · simp [ScalarText, NumberOf]

theorem headOf_cases {v : Json Φ} {b : UInt8} (h : HeadOf v b) :
    (b = 'n'.toUInt8 ∧ v = .null) ∨ (b = 't'.toUInt8 ∧ v = .bool true) ∨ (b = 'f'.toUInt8 ∧ v = .bool false) ∨
      ((b = '-'.toUInt8 ∨ isDigit b = true) ∧ ((∃ i, v = .int i) ∨ ∃ f, v = .float f)) ∨
      (b = '"'.toUInt8 ∧ ∃ s, v = .str s) ∨ (b = '['.toUInt8 ∧ ∃ items, v = .array items) ∨
      (b = '{'.toUInt8 ∧ ∃ pairs, v = .object pairs) := by
  cases v with
  | null => exact Or.inl ⟨h, rfl⟩
  | bool x =>
    cases x with
    | true => exact Or.inr (Or.inl ⟨h, rfl⟩)
    | false => exact Or.inr (Or.inr (Or.inl ⟨h, rfl⟩))
  | int i => exact Or.inr (Or.inr (Or.inr (Or.inl ⟨h, Or.inl ⟨i, rfl⟩⟩)))
  | float f => exact Or.inr (Or.inr (Or.inr (Or.inl ⟨h, Or.inr ⟨f, rfl⟩⟩)))
  | str s => exact Or.inr (Or.inr (Or.inr (Or.inr (Or.inl ⟨h, s, rfl⟩))))
  | array items => exact Or.inr (Or.inr (Or.inr (Or.inr (Or.inr (Or.inl ⟨h, items, rfl⟩)))))
  | object pairs => exact Or.inr (Or.inr (Or.inr (Or.inr (Or.inr (Or.inr ⟨h, pairs, rfl⟩)))))

/-- The kind of a value, for each byte it may begin with. -/
theorem headOf_eq {v : Json Φ} :
    (HeadOf v 'n'.toUInt8 → v = .null) ∧ (HeadOf v 't'.toUInt8 → v = .bool true) ∧
      (HeadOf v 'f'.toUInt8 → v = .bool false) ∧ (HeadOf v '"'.toUInt8 → ∃ s, v = .str s) ∧
      (HeadOf v '['.toUInt8 → ∃ items, v = .array items) ∧ (HeadOf v '{'.toUInt8 → ∃ pairs, v = .object pairs) := by
  refine ⟨fun h => ?_, fun h => ?_, fun h => ?_, fun h => ?_, fun h => ?_, fun h => ?_⟩
  all_goals
    rcases headOf_cases h with ⟨hb, hv⟩ | ⟨hb, hv⟩ | ⟨hb, hv⟩ | ⟨hb, hv⟩ | ⟨hb, hv⟩ | ⟨hb, hv⟩ | ⟨hb, hv⟩
    all_goals first
      | exact hv
      | exact absurd hb (by decide)

theorem headOf_number {v : Json Φ} {b : UInt8} (hb : b = '-'.toUInt8 ∨ isDigit b = true) (h : HeadOf v b) :
    (∃ i, v = .int i) ∨ ∃ f, v = .float f := by
  rcases headOf_cases h with ⟨rfl, -⟩ | ⟨rfl, -⟩ | ⟨rfl, -⟩ | ⟨-, hv⟩ | ⟨rfl, -⟩ | ⟨rfl, -⟩ | ⟨rfl, -⟩
  all_goals first
    | exact hv
    | exact absurd hb (by decide)

theorem literal_parses (lit : Bytes) (u : Json Φ) {Pre Follow : Bytes → Prop} :
    Parses Pre (literal lit u) (fun v w => v = u ∧ w = lit) Follow :=
  ((Parses.word lit JsonError.badLiteral).map fun _ => u).congr fun v w rest _ =>
    ⟨fun h => ⟨(), h.2, h.1⟩, fun h => by
      obtain ⟨-, hw, hv⟩ := h
      exact ⟨hv, hw⟩⟩

/-- A list after its opening byte, as a value. -/
theorem opened_parses {α : Type} {list : JsonParser (List α)} {E : List α → Bytes → Prop} {mk : List α → Json Φ}
    {x : UInt8} (hlist : Parses (fun _ => True) list E (Ends isNumberByte)) :
    Parses (fun r => True ∧ r.head? = some x) (do
      Parser.advance 1
      let items ← list
      return mk items) (fun v w => ∃ items body, v = mk items ∧ E items body ∧ w = x :: body) (Ends isNumberByte) := by
  refine ((Parses.advance (b := x) fun r hr => hr.2).andThen (Q := fun _ => True) (R := fun _ => True)
    (hlist.map mk) (fun _ _ _ _ _ => trivial) fun _ _ _ _ _ => trivial).congr fun v w rest _ => ?_
  constructor
  · rintro ⟨items, body, rfl, hbody, rfl⟩
    exact ⟨[x], body, ⟨(), rfl⟩, ⟨items, hbody, rfl⟩, rfl⟩
  · rintro ⟨_, body, ⟨-, rfl⟩, ⟨items, hbody, rfl⟩, rfl⟩
    exact ⟨items, body, rfl, hbody, rfl⟩

theorem pair_begins {build : Build} {Item : Json Φ → Bytes → Prop} :
    Begins (PairText (literalOf build) Item) '}'.toUInt8 := by
  rintro p w ⟨k, w1, w2, v, hk, -, -, -, rfl⟩
  obtain ⟨t, rfl⟩ := literal_head hk
  exact ⟨_, _, rfl, rfl, by decide⟩

theorem valueWith_parses {build : Build} {deeper : Option (JsonParser (Json Φ))} {D I : Json Φ → Bytes → Prop}
    (hbegin : ∀ close, close = ']'.toUInt8 ∨ close = '}'.toUInt8 → Begins I close)
    (hsome : ∀ value, deeper = some value → Parses (fun _ => True) value I (Ends isNumberByte) ∧
      ∀ v w, D v w ↔ NestedText (literalOf build) I v w)
    (hnone : deeper = none → ∀ v w, ¬ D v w) :
    Parses (fun _ => True) (valueWith build deeper) (fun v w => ScalarText (literalOf build) v w ∨ D v w)
      (Ends isNumberByte) := by
  have hdeep : ∀ v w, D v w → NestedText (literalOf build) I v w := by
    intro v w h
    rcases hd : deeper with _ | value
    · exact absurd h (hnone hd v w)
    · exact ((hsome value hd).2 v w).mp h
  have hhead : ∀ {v w rest b}, True ∧ (w ++ rest).head? = some b → (ScalarText (literalOf build) v w ∨ D v w) →
      HeadOf v b := by
    intro v w rest b hpre h
    obtain ⟨b', t, rfl, hb⟩ := value_head hdeep h
    rwa [← Option.some.inj hpre.2]
  have hscalar : ∀ {v w}, (∀ items, v ≠ .array items) → (∀ pairs, v ≠ .object pairs) →
      ((ScalarText (literalOf build) v w ∨ D v w) ↔ ScalarText (literalOf build) v w) := by
    intro v w harray hobject
    refine ⟨fun h => h.resolve_right fun hd => ?_, Or.inl⟩
    rcases hdeep v w hd with ⟨items, -, hv, -⟩ | ⟨pairs, -, hv, -⟩
    · exact harray items hv
    · exact hobject pairs hv
  refine Parses.position fun pos => Parses.peek fun o => ?_
  rcases o with _ | b
  · refine Parses.fail fun v w rest hpre hw _ => ?_
    obtain ⟨b, t, rfl, -⟩ := value_head hdeep hw
    cases hpre.2
  refine Parses.ite (fun hb => ?_) fun hn => Parses.ite (fun hb => ?_) fun ht => Parses.ite (fun hb => ?_) fun hf =>
    Parses.ite (fun hb => ?_) fun hq => Parses.ite (fun hb => ?_) fun hnum => Parses.ite (fun hb => ?_) fun ha =>
    Parses.ite (fun hb => ?_) fun ho => ?_
  · subst hb
    refine (literal_parses (ascii "null") .null).congr fun v w rest hpre => ?_
    constructor
    · intro h
      obtain rfl := headOf_eq.1 (hhead hpre h)
      exact ⟨rfl, scalarText_iff.1.mp ((hscalar (by simp) (by simp)).mp h)⟩
    · rintro ⟨rfl, hw⟩
      exact Or.inl (scalarText_iff.1.mpr hw)
  · subst hb
    refine (literal_parses (ascii "true") (.bool true)).congr fun v w rest hpre => ?_
    constructor
    · intro h
      obtain rfl := headOf_eq.2.1 (hhead hpre h)
      exact ⟨rfl, (scalarText_iff.2.1 true).mp ((hscalar (by simp) (by simp)).mp h)⟩
    · rintro ⟨rfl, hw⟩
      exact Or.inl ((scalarText_iff.2.1 true).mpr hw)
  · subst hb
    refine (literal_parses (ascii "false") (.bool false)).congr fun v w rest hpre => ?_
    constructor
    · intro h
      obtain rfl := headOf_eq.2.2.1 (hhead hpre h)
      exact ⟨rfl, (scalarText_iff.2.1 false).mp ((hscalar (by simp) (by simp)).mp h)⟩
    · rintro ⟨rfl, hw⟩
      exact Or.inl ((scalarText_iff.2.1 false).mpr hw)
  · subst hb
    refine (((string_parses build).weaken (fun r (hr : True ∧ r.head? = some '"'.toUInt8) => hr.2) fun _ h => h).map
      Json.str).congr fun v w rest hpre => ?_
    constructor
    · intro h
      obtain ⟨s, rfl⟩ := headOf_eq.2.2.2.1 (hhead hpre h)
      exact ⟨s, (scalarText_iff.2.2.1 s).mp ((hscalar (by simp) (by simp)).mp h), rfl⟩
    · rintro ⟨s, hw, rfl⟩
      exact Or.inl ((scalarText_iff.2.2.1 s).mpr hw)
  · refine number_parses.congr fun v w rest hpre => ?_
    constructor
    · intro h
      rcases headOf_number hb (hhead hpre h) with ⟨i, rfl⟩ | ⟨f, rfl⟩
      · exact (scalarText_iff.2.2.2.1 i).mp ((hscalar (by simp) (by simp)).mp h)
      · exact (scalarText_iff.2.2.2.2.1 f).mp ((hscalar (by simp) (by simp)).mp h)
    · intro h
      exact Or.inl (Or.inr (Or.inr (Or.inr (Or.inl h))))
  · subst hb
    rcases hd : deeper with _ | value
    · refine Parses.fail fun v w rest hpre hw _ => ?_
      obtain ⟨items, rfl⟩ := headOf_eq.2.2.2.2.1 (hhead hpre hw)
      rcases hw with h | h
      · exact scalarText_iff.2.2.2.2.2.1 items h
      · exact hnone hd _ _ h
    · obtain ⟨hvalue, hiff⟩ := hsome value hd
      refine (opened_parses (commaList_parses rfl (by decide) rfl hvalue (hbegin _ (Or.inl rfl)))).congr fun v w rest hpre => ?_
      constructor
      · intro h
        obtain ⟨items, rfl⟩ := headOf_eq.2.2.2.2.1 (hhead hpre h)
        rcases h with h | h
        · exact absurd h (scalarText_iff.2.2.2.2.2.1 items)
        · rcases (hiff _ _).mp h with h | ⟨pairs, body, hv, -⟩
          · exact h
          · cases hv
      · exact fun h => Or.inr ((hiff _ _).mpr (Or.inl h))
  · subst hb
    rcases hd : deeper with _ | value
    · refine Parses.fail fun v w rest hpre hw _ => ?_
      obtain ⟨pairs, rfl⟩ := headOf_eq.2.2.2.2.2 (hhead hpre hw)
      rcases hw with h | h
      · exact scalarText_iff.2.2.2.2.2.2 pairs h
      · exact hnone hd _ _ h
    · obtain ⟨hvalue, hiff⟩ := hsome value hd
      refine (opened_parses (commaList_parses rfl (by decide) rfl (pair_parses hvalue (hbegin '}'.toUInt8 (Or.inr rfl)))
        pair_begins)).congr fun v w rest hpre => ?_
      constructor
      · intro h
        obtain ⟨pairs, rfl⟩ := headOf_eq.2.2.2.2.2 (hhead hpre h)
        rcases h with h | h
        · exact absurd h (scalarText_iff.2.2.2.2.2.2 pairs)
        · rcases (hiff _ _).mp h with ⟨items, body, hv, -⟩ | h
          · cases hv
          · exact h
      · exact fun h => Or.inr ((hiff _ _).mpr (Or.inr h))
  · refine Parses.fail fun v w rest hpre hw _ => ?_
    have hv := headOf_cases (hhead hpre hw)
    simp only [hn, ht, hf, hq, ha, ho, hnum, false_and, or_self] at hv

theorem headOf_begins {v : Json Φ} {b close : UInt8} (hclose : close = ']'.toUInt8 ∨ close = '}'.toUInt8)
    (h : HeadOf v b) : isWs b = false ∧ b ≠ close := by
  have hdigit : ∀ b, isDigit b = true → isWs b = false ∧ b ≠ close := by
    intro b hb
    constructor
    · by_contra hws
      have hnum := ws_not_number (by simpa using hws)
      rw [isNumberByte, hb] at hnum
      cases hnum
    · rintro rfl
      rcases hclose with rfl | rfl
      · revert hb
        decide
      · revert hb
        decide
  rcases headOf_cases h with ⟨rfl, -⟩ | ⟨rfl, -⟩ | ⟨rfl, -⟩ | ⟨rfl | hb, -⟩ | ⟨rfl, -⟩ | ⟨rfl, -⟩ | ⟨rfl, -⟩
  all_goals first
    | exact hdigit b hb
    | exact ⟨rfl, by rcases hclose with rfl | rfl <;> decide⟩

theorem value_begins {build : Build} {levels : Nat} {close : UInt8} (hclose : close = ']'.toUInt8 ∨ close = '}'.toUInt8) :
    Begins (ValueText (literalOf build) levels : Json Φ → Bytes → Prop) close := by
  intro v w h
  obtain ⟨b, t, rfl, hb⟩ : ∃ b t, w = b :: t ∧ HeadOf v b := by
    cases levels with
    | zero => exact value_head (D := fun _ _ => False) (I := fun _ _ => False) (fun _ _ h => h.elim) (Or.inl h)
    | succ levels => exact value_head (fun _ _ h => h) h
  exact ⟨b, t, rfl, headOf_begins hclose hb⟩

/-- **The parser reads the values of its grammar, and nothing else.** -/
theorem value_parses (build : Build) (levels : Nat) :
    Parses (fun _ => True) (value build levels : JsonParser (Json Φ)) (ValueText (literalOf build) levels)
      (Ends isNumberByte) := by
  induction levels with
  | zero =>
    refine (valueWith_parses (D := fun _ _ => False) (I := fun _ _ => False) ?_ ?_ ?_).congr fun v w rest _ => ?_
    · exact fun close _ a w h => h.elim
    · intro value h
      cases h
    · exact fun _ _ _ h => h
    · exact (or_iff_left not_false).symm
  | succ levels ih =>
    refine valueWith_parses (D := NestedText (literalOf build) (ValueText (literalOf build) levels))
      (I := ValueText (literalOf build) levels) ?_ ?_ ?_
    · exact fun close h => value_begins h
    · intro value h
      cases h
      exact ⟨ih, fun _ _ => Iff.rfl⟩
    · intro h
      cases h

/-! ## Correctness -/

theorem document_parses (build : Build) : Parses (fun _ => True) (do
    ws
    let v ← value build MAX_DEPTH
    ws
    return v : JsonParser (Json Φ)) (Doc (literalOf build)) (fun rest => rest = []) := by
  have hskip : Parses (fun _ => True) ws (fun _ w => Ws w) (Ends isWs) := ws_parses
  have hend : ∀ v : Json Φ, Parses (fun _ => True) (do
      ws
      return v : JsonParser (Json Φ)) (fun u w => u = v ∧ Ws w) (fun rest => rest = []) := by
    intro v
    refine ((hskip.map fun _ => v).weaken (fun _ h => h) fun rest (h : rest = []) => ?_).congr fun u w rest _ => ?_
    · rw [h]
      exact ends_nil isWs
    · constructor
      · rintro ⟨hu, hw⟩
        exact ⟨(), hw, hu⟩
      · rintro ⟨-, hw, hu⟩
        exact ⟨hu, hw⟩
  refine (hskip.andThen (Q := fun _ => True) ((value_parses build MAX_DEPTH).bind (Q := fun _ _ => True) hend
    (fun _ _ _ _ _ => trivial) fun v w u w' rest _ hw' hrest => ?_) (fun _ _ _ _ _ => trivial)
    fun v w rest hw _ => ?_).congr fun v w rest _ => ?_
  · rw [hrest]
    exact ends_number_of_ws hw'.2 (ends_nil _)
  · obtain ⟨u, w1, w2, hu, -, rfl⟩ := hw
    rw [List.append_assoc]
    exact (value_begins (Or.inl rfl)).ends hu
  · constructor
    · rintro ⟨w1, body, w2, h1, hbody, h2, rfl⟩
      exact ⟨w1, _, ⟨(), h1⟩, ⟨v, body, w2, hbody, ⟨rfl, h2⟩, rfl⟩, rfl⟩
    · rintro ⟨w1, _, ⟨-, h1⟩, ⟨_, body, w2, hbody, ⟨rfl, h2⟩, rfl⟩, rfl⟩
      exact ⟨w1, body, w2, h1, hbody, h2, rfl⟩

/-- **The parser accepts the documents of its build's grammar**, each with its value. -/
theorem parse_ok_iff {build : Build} {input : String} {v : Json Φ} :
    parse build input = .ok v ↔ Doc (literalOf build) v (utf8 input) := by
  have hdoc := document_parses (Φ := Φ) build
  unfold parse
  dsimp only
  constructor
  · intro h
    split at h
    · cases h
    · rename_i u c hrun
      split at h
      · cases h
      · rename_i hrest
        cases h
        obtain ⟨w, hw, hinput, -⟩ := hdoc.sound _ _ _ trivial hrun
        rw [not_not.mp hrest, List.append_nil] at hinput
        rw [show utf8 input = w from hinput]
        exact hw
  · intro h
    have hrun := hdoc.complete 0 (utf8 input) [] v trivial h rfl
    rw [List.append_nil] at hrun
    rw [hrun]
    rfl

/-- **Every input is read or refused**: no panic, and no loop without an end. -/
theorem parse_total {build : Build} {input : String} {s : Descent.Stop JsonError}
    (h : parse build input = (.error s : Except _ (Json Φ))) : ∃ e, s = .error e := by
  have hdoc := document_parses (Φ := Φ) build
  unfold parse at h
  dsimp only at h
  split at h
  · rename_i s' hrun
    cases h
    exact hdoc.total _ _ trivial hrun
  · split at h
    · cases h
      exact ⟨_, rfl⟩
    · cases h

end OhmEcdsa
