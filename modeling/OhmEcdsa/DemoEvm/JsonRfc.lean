import OhmEcdsa.DemoEvm.JsonRoundtrip

/-!
# The documents of RFC 8259, and those the parser accepts

The grammar of a literal has no rule for surrogates: each `\uXXXX` is a code unit by itself.
The parser turns literals into strings, so it takes the documents in which the surrogates
come in pairs:

    (∃ v, parse .debug input = .ok v) ↔ RfcDoc (RfcString Paired) (utf8 input)        (json_agrees)

A build without debug assertions does so on the inputs without a quote.
-/

set_option linter.unusedSectionVars false

namespace OhmEcdsa

open Descent

variable {Φ : Type} [F64 Φ]

/-! ## Specification -/

/-- A `char`: a character, as it is or behind a backslash, or a code unit. -/
inductive StringItem
  | char (c : Char)
  | unit (v : Nat)

/-- `char = unescaped / escape ( %x22 / %x5C / %x2F / %x62 / %x66 / %x6E / %x72 / %x74 / %x75 4HEXDIG )` -/
inductive ItemText : StringItem → Bytes → Prop
  | unescaped {c : Char} : 0x20 ≤ c.toNat → c ≠ '"' → c ≠ '\\' → ItemText (.char c) (String.utf8EncodeChar c)
  | simple {b : UInt8} {c : Char} : (b, c) ∈ escapeTable → ItemText (.char c) ['\\'.toUInt8, b]
  | unicode {v : Nat} {h : Bytes} : HexText v h → ItemText (.unit v) ('\\'.toUInt8 :: 'u'.toUInt8 :: h)

/-- `*char` -/
inductive ItemsText : List StringItem → Bytes → Prop
  | nil : ItemsText [] []
  | cons {item : StringItem} {items : List StringItem} {w rest : Bytes} : ItemText item w → ItemsText items rest →
      ItemsText (item :: items) (w ++ rest)

def IsHigh (v : Nat) : Prop := 0xd800 ≤ v ∧ v < 0xdc00

def IsLow (v : Nat) : Prop := 0xdc00 ≤ v ∧ v < 0xe000

/-- Each surrogate is one of a high and a low one, in this order. -/
inductive Paired : List StringItem → Prop
  | nil : Paired []
  | char {c : Char} {items : List StringItem} : Paired items → Paired (.char c :: items)
  | unit {v : Nat} {items : List StringItem} : ¬ IsHigh v → ¬ IsLow v → Paired items → Paired (.unit v :: items)
  | pair {hi lo : Nat} {items : List StringItem} : IsHigh hi → IsLow lo → Paired items →
      Paired (.unit hi :: .unit lo :: items)

/-- `string = quotation-mark *char quotation-mark`, of items as `P` says. -/
def RfcString (P : List StringItem → Prop) (w : Bytes) : Prop :=
  ∃ items body, ItemsText items body ∧ P items ∧ w = '"'.toUInt8 :: (body ++ ['"'.toUInt8])

/-- `number`, where an integer has 128 bits. -/
def RfcNumber (w : Bytes) : Prop :=
  NumberText true w ∨ NumberText false w ∧ -2 ^ 127 ≤ intValue w ∧ intValue w < 2 ^ 127

section Values

variable (S : Bytes → Prop)

/-- `false / null / true / number / string`, with the strings `S`. -/
def RfcScalar (w : Bytes) : Prop := w = ascii "null" ∨ w = ascii "true" ∨ w = ascii "false" ∨ RfcNumber w ∨ S w

/-- `[ item *( value-separator item ) ]` and the closing byte. -/
def RfcList (Item : Bytes → Prop) (close : UInt8) (w : Bytes) : Prop :=
  ∃ l : List Unit, ListText (fun _ => Item) close l w

/-- `member = string name-separator value` -/
def RfcMember (Item : Bytes → Prop) (w : Bytes) : Prop :=
  ∃ k w1 w2 v, S k ∧ Ws w1 ∧ Ws w2 ∧ Item v ∧ w = k ++ (w1 ++ ':'.toUInt8 :: (w2 ++ v))

/-- `value`, nested at most that many levels. -/
def RfcValue : Nat → Bytes → Prop
  | 0, w => RfcScalar S w
  | levels + 1, w => RfcScalar S w ∨ (∃ body, RfcList (RfcValue levels) ']'.toUInt8 body ∧ w = '['.toUInt8 :: body) ∨
      ∃ body, RfcList (RfcMember S (RfcValue levels)) '}'.toUInt8 body ∧ w = '{'.toUInt8 :: body

/-- `JSON-text = ws value ws`, of at most `MAX_DEPTH` levels. -/
def RfcDoc (w : Bytes) : Prop := ∃ w1 body w2, Ws w1 ∧ RfcValue S MAX_DEPTH body ∧ Ws w2 ∧ w = w1 ++ (body ++ w2)

end Values

/-! ## Lemmas: literals -/

theorem not_surrogate_iff {v : Nat} : ¬ IsHigh v ∧ ¬ IsLow v ↔ ¬ (0xd800 ≤ v ∧ v < 0xe000) := by
  unfold IsHigh IsLow
  omega

/-- The items of one character. -/
theorem CharText.items {c : Char} {w rest : Bytes} (h : CharText c w) {items : List StringItem} (hitems : ItemsText items rest)
    (hpaired : Paired items) : ∃ items', ItemsText items' (w ++ rest) ∧ Paired items' := by
  cases h with
  | unescaped hc hquote hback => exact ⟨_, .cons (.unescaped hc hquote hback) hitems, .char hpaired⟩
  | escaped he =>
    cases he with
    | simple hmem => exact ⟨_, .cons (.simple hmem) hitems, .char hpaired⟩
    | unicode hv hvalid =>
      obtain ⟨hhigh, hlow⟩ := not_surrogate_iff.mpr ((hexText_valid hv).mp hvalid)
      exact ⟨_, .cons (.unicode hv) hitems, .unit hhigh hlow hpaired⟩
    | pair hhi hlo h₁ h₂ h₃ h₄ =>
      have hboth := ItemsText.cons (.unicode hhi) (.cons (.unicode hlo) hitems)
      refine ⟨_, ?_, .pair ⟨h₁, h₂⟩ ⟨h₃, h₄⟩ hpaired⟩
      simpa using hboth

/-- **A literal stands for a string** exactly if its surrogates are paired. -/
theorem chars_iff {w : Bytes} : (∃ cs, Chars cs w) ↔ ∃ items, ItemsText items w ∧ Paired items := by
  constructor
  · rintro ⟨cs, h⟩
    induction h with
    | nil => exact ⟨[], .nil, .nil⟩
    | cons hc _ ih =>
      obtain ⟨items, hitems, hpaired⟩ := ih
      exact hc.items hitems hpaired
  · rintro ⟨items, hitems, hpaired⟩
    induction hpaired generalizing w with
    | nil =>
      cases hitems
      exact ⟨[], .nil⟩
    | char _ ih =>
      obtain _ | ⟨hitem, hrest⟩ := hitems
      obtain ⟨cs, hcs⟩ := ih hrest
      cases hitem with
      | unescaped hc hquote hback => exact ⟨_, .cons (.unescaped hc hquote hback) hcs⟩
      | simple hmem => exact ⟨_, .cons (.escaped (.simple hmem)) hcs⟩
    | unit hhigh hlow _ ih =>
      obtain _ | ⟨⟨⟩ | ⟨⟩ | hv, hrest⟩ := hitems
      obtain ⟨cs, hcs⟩ := ih hrest
      exact ⟨_, .cons (.escaped (.unicode hv ((hexText_valid hv).mpr (not_surrogate_iff.mp ⟨hhigh, hlow⟩)))) hcs⟩
    | pair hhigh hlow _ ih =>
      obtain _ | ⟨⟨⟩ | ⟨⟩ | hhi, _ | ⟨⟨⟩ | ⟨⟩ | hlo, hrest⟩⟩ := hitems
      obtain ⟨cs, hcs⟩ := ih hrest
      have hchars := Chars.cons (.escaped (.pair hhi hlo hhigh.1 hhigh.2 hlow.1 hlow.2)) hcs
      exact ⟨_, by simpa using hchars⟩

theorem stringText_iff {w : Bytes} : (∃ s, StringText s w) ↔ RfcString Paired w := by
  constructor
  · rintro ⟨s, body, hbody, rfl⟩
    obtain ⟨items, hitems, hpaired⟩ := chars_iff.mp ⟨s.toList, hbody⟩
    exact ⟨items, body, hitems, hpaired, rfl⟩
  · rintro ⟨items, body, hitems, hpaired, rfl⟩
    obtain ⟨cs, hcs⟩ := chars_iff.mpr ⟨items, hitems, hpaired⟩
    exact ⟨String.ofList cs, body, by rwa [String.toList_ofList], rfl⟩

/-! ## Lemmas: documents and their values -/

theorem CommaText.exists {α β : Type} {I : α → Bytes → Prop} {J : β → Bytes → Prop} (hitem : ∀ a x, I a x → ∃ b, J b x)
    {l : List α} {w : Bytes} (h : CommaText I l w) : ∃ l', CommaText J l' w := by
  induction h with
  | one h1 ha h2 =>
    obtain ⟨b, hb⟩ := hitem _ _ ha
    exact ⟨[b], .one h1 hb h2⟩
  | cons h1 ha h2 _ ih =>
    obtain ⟨b, hb⟩ := hitem _ _ ha
    obtain ⟨l', hl'⟩ := ih
    exact ⟨b :: l', .cons h1 hb h2 hl'⟩

theorem ListText.exists {α β : Type} {I : α → Bytes → Prop} {J : β → Bytes → Prop} (hitem : ∀ a x, I a x → ∃ b, J b x)
    {close : UInt8} {l : List α} {w : Bytes} (h : ListText I close l w) : ∃ l', ListText J close l' w := by
  obtain ⟨body, ⟨-, hws⟩ | hbody, rfl⟩ := h
  · exact ⟨[], body, Or.inl ⟨rfl, hws⟩, rfl⟩
  · obtain ⟨l', hl'⟩ := hbody.exists hitem
    exact ⟨l', body, Or.inr hl', rfl⟩

theorem list_exists_iff {α : Type} {I : α → Bytes → Prop} {J : Bytes → Prop} (hitem : ∀ x, (∃ a, I a x) ↔ J x)
    {close : UInt8} {w : Bytes} : (∃ l, ListText I close l w) ↔ RfcList J close w :=
  ⟨fun ⟨_, h⟩ => h.exists fun a x ha => ⟨(), (hitem x).mp ⟨a, ha⟩⟩, fun ⟨_, h⟩ => h.exists fun _ x hx => (hitem x).mpr hx⟩

/-- Every number of the grammar has a value. -/
theorem number_exists_iff {w : Bytes} : (∃ v : Json Φ, NumberOf v w) ↔ RfcNumber w := by
  constructor
  · rintro ⟨v, ⟨hint, i, hi, -⟩ | ⟨hfloat, -⟩⟩
    · exact Or.inr ⟨hint, hi ▸ i.property⟩
    · exact Or.inl hfloat
  · rintro (hfloat | ⟨hint, hrange⟩)
    · obtain ⟨text, rfl⟩ := exists_text hfloat.ascii
      obtain ⟨f, hf⟩ := Option.isSome_iff_exists.mp (F64.parse_number (Φ := Φ) text hfloat)
      exact ⟨.float f, Or.inr ⟨hfloat, text, f, rfl, hf, rfl⟩⟩
    · exact ⟨.int ⟨_, hrange⟩, Or.inl ⟨hint, ⟨_, hrange⟩, rfl, rfl⟩⟩

section Literals

variable {lit : String → Bytes → Prop} {S : Bytes → Prop} (hlit : ∀ x, (∃ s, lit s x) ↔ S x)

include hlit

theorem scalar_exists_iff {w : Bytes} : (∃ v : Json Φ, ScalarText lit v w) ↔ RfcScalar S w := by
  unfold ScalarText RfcScalar
  simp only [exists_or, exists_eq_left, number_exists_iff, ← hlit, exists_comm (α := Json Φ)]

theorem value_exists_iff {levels : Nat} {w : Bytes} : (∃ v : Json Φ, ValueText lit levels v w) ↔ RfcValue S levels w := by
  induction levels generalizing w with
  | zero => exact scalar_exists_iff hlit
  | succ levels ih =>
    have hpair : ∀ x, (∃ p, PairText lit (ValueText lit levels) (p : String × Json Φ) x) ↔ RfcMember S (RfcValue S levels) x := by
      intro x
      constructor
      · rintro ⟨p, k, w1, w2, v, hk, h1, h2, hv, rfl⟩
        exact ⟨k, w1, w2, v, (hlit k).mp ⟨_, hk⟩, h1, h2, ih.mp ⟨_, hv⟩, rfl⟩
      · rintro ⟨k, w1, w2, v, hk, h1, h2, hv, rfl⟩
        obtain ⟨key, hkey⟩ := (hlit k).mpr hk
        obtain ⟨item, hitem⟩ := ih.mpr hv
        exact ⟨(key, item), k, w1, w2, v, hkey, h1, h2, hitem, rfl⟩
    constructor
    · rintro ⟨v, h | ⟨items, body, -, hbody, rfl⟩ | ⟨pairs, body, -, hbody, rfl⟩⟩
      · exact Or.inl ((scalar_exists_iff hlit).mp ⟨v, h⟩)
      · exact Or.inr (Or.inl ⟨body, (list_exists_iff fun x => ih).mp ⟨items, hbody⟩, rfl⟩)
      · exact Or.inr (Or.inr ⟨body, (list_exists_iff hpair).mp ⟨pairs, hbody⟩, rfl⟩)
    · rintro (h | ⟨body, hbody, rfl⟩ | ⟨body, hbody, rfl⟩)
      · obtain ⟨v, hv⟩ := (scalar_exists_iff (Φ := Φ) hlit).mpr h
        exact ⟨v, Or.inl hv⟩
      · obtain ⟨items, hitems⟩ := (list_exists_iff fun x => ih).mpr hbody
        exact ⟨_, Or.inr (Or.inl ⟨items, body, rfl, hitems, rfl⟩)⟩
      · obtain ⟨pairs, hpairs⟩ := (list_exists_iff hpair).mpr hbody
        exact ⟨_, Or.inr (Or.inr ⟨pairs, body, rfl, hpairs, rfl⟩)⟩

/-- **The texts that have a value** are the documents. -/
theorem doc_exists_iff {w : Bytes} : (∃ v : Json Φ, Doc lit v w) ↔ RfcDoc S w := by
  constructor
  · rintro ⟨v, w1, body, w2, h1, hbody, h2, rfl⟩
    exact ⟨w1, body, w2, h1, (value_exists_iff hlit).mp ⟨v, hbody⟩, h2, rfl⟩
  · rintro ⟨w1, body, w2, h1, hbody, h2, rfl⟩
    obtain ⟨v, hv⟩ := (value_exists_iff (Φ := Φ) hlit).mpr hbody
    exact ⟨v, w1, body, w2, h1, hv, h2, rfl⟩

end Literals

/-! ## Lemmas: documents without a quote -/

section Quoteless

variable {S S' : Bytes → Prop} (hS : ∀ x, S x → 0 < quotes x)

theorem CommaText.quoteless {α : Type} {I J : α → Bytes → Prop} (hitem : ∀ a x, I a x → quotes x = 0 → J a x) {l : List α}
    {w : Bytes} (h : CommaText I l w) (hw : quotes w = 0) : CommaText J l w := by
  induction h with
  | one h1 ha h2 =>
    simp only [quotes_append] at hw
    exact .one h1 (hitem _ _ ha (by omega)) h2
  | cons h1 ha h2 _ ih =>
    have hcomma : ','.toUInt8 ≠ '"'.toUInt8 := by decide
    simp only [quotes_append, quotes_cons hcomma] at hw
    exact .cons h1 (hitem _ _ ha (by omega)) h2 (ih (by omega))

theorem RfcList.quoteless {I J : Bytes → Prop} (hitem : ∀ x, I x → quotes x = 0 → J x) {close : UInt8} {w : Bytes}
    (h : RfcList I close w) (hw : quotes w = 0) : RfcList J close w := by
  obtain ⟨l, body, hbody, rfl⟩ := h
  rw [quotes_append] at hw
  exact ⟨l, body, hbody.imp_right fun h => h.quoteless (fun _ => hitem) (by omega), rfl⟩

include hS

/-- A text without a quote holds no literal. -/
theorem RfcValue.quoteless {levels : Nat} {w : Bytes} (h : RfcValue S levels w) (hw : quotes w = 0) :
    RfcValue S' levels w := by
  have hscalar : ∀ {w}, RfcScalar S w → quotes w = 0 → RfcScalar S' w := fun h hw =>
    h.imp_right (Or.imp_right (Or.imp_right (Or.imp_right fun hs => absurd hw (Nat.ne_of_gt (hS _ hs)))))
  induction levels generalizing w with
  | zero => exact hscalar h hw
  | succ levels ih =>
    rcases h with h | ⟨body, hbody, rfl⟩ | ⟨body, hbody, rfl⟩
    · exact Or.inl (hscalar h hw)
    · rw [quotes_cons (by decide)] at hw
      exact Or.inr (Or.inl ⟨body, hbody.quoteless (fun _ => ih) hw, rfl⟩)
    · rw [quotes_cons (by decide)] at hw
      refine Or.inr (Or.inr ⟨body, hbody.quoteless (fun x hx hzero => ?_) hw, rfl⟩)
      obtain ⟨k, w1, w2, v, hk, -, -, -, rfl⟩ := hx
      have hpos := hS _ hk
      simp only [quotes_append] at hzero
      omega

theorem RfcDoc.quoteless {w : Bytes} (h : RfcDoc S w) (hw : quotes w = 0) : RfcDoc S' w := by
  obtain ⟨w1, body, w2, h1, hbody, h2, rfl⟩ := h
  simp only [quotes_append] at hw
  exact ⟨w1, body, w2, h1, hbody.quoteless hS (by omega), h2, rfl⟩

end Quoteless

theorem rfcString_quotes {P : List StringItem → Prop} {w : Bytes} (h : RfcString P w) : 0 < quotes w := by
  obtain ⟨-, -, -, -, rfl⟩ := h
  exact List.count_pos_iff.mpr List.mem_cons_self

theorem oneQuote_quotes {s : String} {w : Bytes} (h : OneQuote s w) : 0 < quotes w := by
  rw [h.2]
  decide

/-! ## Correctness -/

/-- **Writer and parser agree**: with debug assertions every value is read back, and the documents
accepted are those of the RFC whose surrogates are paired; without them, this is so of the values
without a string and the inputs without a quote.  No build panics. -/
theorem json_agrees :
    (∀ v : Json Φ, v.Within NotFloat MAX_DEPTH → parse .debug v.toString = .ok v ∧
      (v.Within NoString MAX_DEPTH → parse .release v.toString = .ok v)) ∧
    (∀ (build : Build) (input : String) (s : Stop JsonError),
      parse build input = (.error s : Except _ (Json Φ)) → ∃ e, s = .error e) ∧
    (∀ input : String, (∃ v : Json Φ, parse .debug input = .ok v) ↔ RfcDoc (RfcString Paired) (utf8 input)) ∧
    ∀ input : String, '"'.toUInt8 ∉ utf8 input →
      ((∃ v : Json Φ, parse .release input = .ok v) ↔ RfcDoc (RfcString fun _ => True) (utf8 input)) := by
  refine ⟨fun v hv => ⟨?_, fun hnone => ?_⟩, fun build input s => parse_total, fun input => ?_, fun input hquote => ?_⟩
  · exact (reads_back_iff .debug hv).mpr (Or.inl rfl)
  · exact (reads_back_iff .release hv).mpr (Or.inr hnone)
  · simp only [parse_ok_iff]
    exact doc_exists_iff fun x => stringText_iff
  · have hzero : quotes (utf8 input) = 0 := List.count_eq_zero.mpr hquote
    simp only [parse_ok_iff, doc_exists_iff fun x => Iff.rfl]
    exact ⟨fun h => h.quoteless (fun x ⟨s, hx⟩ => oneQuote_quotes hx) hzero,
      fun h => h.quoteless (fun x hx => rfcString_quotes hx) hzero⟩

/-- A pair of surrogates is accepted, a missing item refused; an object comes back, and in each build a list. -/
theorem json_agrees_account :
    (∀ build, parse build flags.toString = .ok flags) ∧ parse .debug account.toString = .ok account ∧
    RfcDoc (RfcString Paired) (utf8 "\"\\uD83D\\uDE00\"") ∧ ¬ RfcDoc (RfcString fun _ => True) (utf8 "[1,]") := by
  obtain ⟨hread, -, hdebug, hrelease⟩ := @json_agrees String _
  refine ⟨fun build => ?_, ?_, (hdebug _).mp ?_, fun h => ?_⟩
  · have hv := hread flags (by simp [flags, Json.Within, NotFloat, MAX_DEPTH])
    cases build with
    | debug => exact hv.1
    | release => exact hv.2 (by simp [flags, Json.Within, NoString, MAX_DEPTH])
  · exact (hread account (by simp [account, flags, Json.Within, NotFloat, MAX_DEPTH])).1
  · have haccepted : (parse .debug "\"\\uD83D\\uDE00\"" : Except _ (Json String)).isOk = true := by decide +kernel
    cases h : (parse .debug "\"\\uD83D\\uDE00\"" : Except _ (Json String)) with
    | error s => rw [h] at haccepted; contradiction
    | ok v => exact ⟨v, rfl⟩
  · obtain ⟨v, hv⟩ := (hrelease "[1,]" (by decide +kernel)).mpr h
    have hrefused : (parse .release "[1,]" : Except _ (Json String)).isOk = false := by decide +kernel
    rw [hv] at hrefused
    contradiction

/-- A lone surrogate is a literal of the RFC and no string: the parser refuses it. -/
theorem surrogate_refused : RfcDoc (RfcString fun _ => True) (utf8 "\"\\uDEAD\"") ∧
    ¬ ∃ v : Json String, parse .debug "\"\\uDEAD\"" = .ok v := by
  have hbytes : utf8 "\"\\uDEAD\"" = '"'.toUInt8 :: ('\\'.toUInt8 :: 'u'.toUInt8 :: ascii "DEAD" ++ ['"'.toUInt8]) := by
    decide +kernel
  have hhex : HexText 0xdead (ascii "DEAD") := ⟨[0xd, 0xe, 0xa, 0xd], by decide, rfl, rfl⟩
  constructor
  · have hlit : RfcString (fun _ => True) (utf8 "\"\\uDEAD\"") :=
      ⟨_, _, .cons (.unicode hhex) .nil, trivial, by rw [hbytes, List.append_nil]⟩
    exact ⟨[], _, [], Ws.nil, Or.inl (Or.inr (Or.inr (Or.inr (Or.inr hlit)))), Ws.nil, (List.append_nil _).symm⟩
  · rintro ⟨v, hv⟩
    have hrefused : (parse .debug "\"\\uDEAD\"" : Except _ (Json String)).isOk = false := by decide +kernel
    rw [hv] at hrefused
    contradiction

end OhmEcdsa
