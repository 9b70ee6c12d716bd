import OhmEcdsa.Node.Token
import OhmEcdsa.Support.Descent

/-!
# JSON of the demo (`json.rs`)

The writer, the recursive-descent parser over the bytes of a string, and the grammar of
RFC 8259 that it is held to.  The one thing in which builds differ is the opening quote of a
string, which `debug_assert_eq!(self.bump(), Some(b'"'))` moves over only where debug
assertions are compiled in.
-/

namespace OhmEcdsa

open Descent Descent.Parser

/-! ## Algorithm: values -/

def MAX_DEPTH : Nat := 64

abbrev I128 := {i : Int // -2 ^ 127 ≤ i ∧ i < 2 ^ 127}

inductive Json (Φ : Type)
  | null
  | bool (b : Bool)
  | int (i : I128)
  | float (f : Φ)
  | str (s : String)
  | array (items : List (Json Φ))
  | object (pairs : List (String × Json Φ))

inductive JsonError
  | unexpected (pos : Nat) (what : String)
  | badEscape (pos : Nat)
  | badUnicodeEscape (pos : Nat)
  | unpairedSurrogate (pos : Nat)
  | badNumber (pos : Nat)
  | badLiteral (pos : Nat)
  | depthLimit (pos : Nat)
  | truncated
  | trailing (pos : Nat)
  deriving DecidableEq

/-- Whether `debug_assert_eq!` is compiled in. -/
inductive Build
  | debug
  | release
  deriving DecidableEq

/-! ## Specification: numbers -/

def ascii (s : String) : Bytes := s.toList.map Char.toUInt8

def isDigit (b : UInt8) : Bool := '0'.toUInt8 ≤ b && b ≤ '9'.toUInt8

def Digits (w : Bytes) : Prop := ∀ b ∈ w, isDigit b = true

/-- `int = zero / ( digit1-9 *DIGIT )` -/
def IntPart (w : Bytes) : Prop :=
  w = ['0'.toUInt8] ∨ ∃ b t, w = b :: t ∧ isDigit b = true ∧ b ≠ '0'.toUInt8 ∧ Digits t

/-- `frac = decimal-point 1*DIGIT` -/
def FracPart (w : Bytes) : Prop := ∃ ds, w = '.'.toUInt8 :: ds ∧ ds ≠ [] ∧ Digits ds

/-- `exp = e [ minus / plus ] 1*DIGIT` -/
def ExpPart (w : Bytes) : Prop :=
  ∃ e sign ds, w = e :: (sign ++ ds) ∧ (e = 'e'.toUInt8 ∨ e = 'E'.toUInt8) ∧
    (sign = [] ∨ sign = ['+'.toUInt8] ∨ sign = ['-'.toUInt8]) ∧ ds ≠ [] ∧ Digits ds

/-- `number = [ minus ] int [ frac ] [ exp ]`, and whether it has one of the last two. -/
def NumberText (float : Bool) (w : Bytes) : Prop :=
  ∃ minus int frac exp, (minus = [] ∨ minus = ['-'.toUInt8]) ∧ IntPart int ∧ (frac = [] ∨ FracPart frac) ∧
    (exp = [] ∨ ExpPart exp) ∧ w = minus ++ (int ++ (frac ++ exp)) ∧ (float = true ↔ frac ≠ [] ∨ exp ≠ [])

/-- `f64` of the standard library: the text of a number with a fraction or an exponent
always parses. -/
class F64 (Φ : Type) where
  parse : String → Option Φ
  display : Φ → String
  parse_number : ∀ text, NumberText true (utf8 text) → (parse text).isSome = true

variable {Φ : Type} [F64 Φ]

/-! ## Algorithm: the writer -/

/-- `{:04x}`. -/
def hex4Lower (n : Nat) : List Char := [n / 4096, n / 256, n / 16, n].map fun d => Nat.digitChar (d % 16)

def writeChar (c : Char) : List Char :=
  if c = '"' then ['\\', '"']
  else if c = '\\' then ['\\', '\\']
  else if c = '\n' then ['\\', 'n']
  else if c = '\r' then ['\\', 'r']
  else if c = '\t' then ['\\', 't']
  else if c.toNat < 0x20 then ['\\', 'u'] ++ hex4Lower c.toNat
  else [c]

def writeStr (s : String) : List Char := ['"'] ++ s.toList.flatMap writeChar ++ ['"']

mutual

def Json.write : Json Φ → List Char
  | .null => "null".toList
  | .bool b => (if b then "true" else "false").toList
  | .int i => (toString i.val).toList
  | .float f => (F64.display f).toList
  | .str s => writeStr s
  | .array items => ['['] ++ writeItems true items ++ [']']
  | .object pairs => ['{'] ++ writePairs true pairs ++ ['}']

/-- `first` is `i == 0`. -/
def writeItems : Bool → List (Json Φ) → List Char
  | _, [] => []
  | first, item :: items => (if first then [] else [',']) ++ item.write ++ writeItems false items

def writePairs : Bool → List (String × Json Φ) → List Char
  | _, [] => []
  | first, (k, v) :: pairs => (if first then [] else [',']) ++ writeStr k ++ [':'] ++ v.write ++ writePairs false pairs

end

def Json.toString (v : Json Φ) : String := String.ofList v.write

/-! ## Algorithm: the parser -/

abbrev JsonParser (α : Type) := Parser JsonError α

def isWs (b : UInt8) : Bool := b == ' '.toUInt8 || b == '\t'.toUInt8 || b == '\n'.toUInt8 || b == '\r'.toUInt8

def ws : JsonParser Unit := skipWhile isWs

def literal (lit : Bytes) (value : Json Φ) : JsonParser (Json Φ) := do
  word lit .badLiteral
  return value

/-- `i128::from_str`. -/
def parseI128 (text : String) : Option I128 :=
  let digits (negative : Bool) (ds : Bytes) : Option I128 :=
    if ds = [] ∨ ds.all isDigit = false then none
    else
      let magnitude : Int := (ds.foldl (fun acc d => acc * 10 + (d.toNat - '0'.toNat)) 0 : Nat)
      let i := if negative then -magnitude else magnitude
      if h : -2 ^ 127 ≤ i ∧ i < 2 ^ 127 then some ⟨i, h⟩ else none
  match utf8 text with
  | [] => none
  | b :: ds => if b = '-'.toUInt8 then digits true ds else if b = '+'.toUInt8 then digits false ds else digits false (b :: ds)

def isDigitAt (o : Option UInt8) : Bool := o.any isDigit

/-- `[ minus ] int`, without the digits of a number after a zero. -/
def integerPart (start : Nat) : JsonParser Unit := do
  match ← peek with
  | none => fail (.badNumber start)
  | some b =>
    if b = '0'.toUInt8 then do
      advance 1
      if isDigitAt (← peek) then fail (.badNumber start) else return ()
    else if isDigit b then skipWhile isDigit
    else fail (.badNumber start)

def minusSign : JsonParser Unit := do
  if (← peek) = some '-'.toUInt8 then advance 1 else return ()

/-- One digit or more. -/
def digits1 (start : Nat) : JsonParser Unit := do
  if isDigitAt (← peek) then skipWhile isDigit else fail (.badNumber start)

def fraction (start : Nat) : JsonParser Bool := do
  if (← peek) = some '.'.toUInt8 then do
    advance 1
    digits1 start
    return true
  else return false

def expSign : JsonParser Unit := do
  let o ← peek
  if o = some '+'.toUInt8 ∨ o = some '-'.toUInt8 then advance 1 else return ()

def exponent (start : Nat) : JsonParser Bool := do
  let o ← peek
  if o = some 'e'.toUInt8 ∨ o = some 'E'.toUInt8 then do
    advance 1
    expSign
    digits1 start
    return true
  else return false

def scanNumber (start : Nat) : JsonParser Bool := do
  minusSign
  integerPart start
  let frac ← fraction start
  let exp ← exponent start
  return frac || exp

def number : JsonParser (Json Φ) := do
  let start ← position
  let (float, bytes) ← capture (scanNumber start)
  let text ← okOr (fromUtf8 bytes) (.badNumber start)
  if float then do
    let f ← okOr (F64.parse text) (.badNumber start)
    return .float f
  else do
    let i ← okOr (parseI128 text) (.badNumber start)
    return .int i

def hexDigit (b : UInt8) : Option Nat :=
  if '0'.toUInt8 ≤ b ∧ b ≤ '9'.toUInt8 then some (b.toNat - '0'.toNat)
  else if 'a'.toUInt8 ≤ b ∧ b ≤ 'f'.toUInt8 then some (b.toNat - 'a'.toNat + 10)
  else if 'A'.toUInt8 ≤ b ∧ b ≤ 'F'.toUInt8 then some (b.toNat - 'A'.toNat + 10)
  else none

/-- The loop of `hex4`. -/
def hexLoop (pos : Nat) : Nat → Nat → JsonParser Nat
  | 0, v => return v
  | k + 1, v => do
    match ← bump with
    | none => fail .truncated
    | some b => do
      let d ← okOr (hexDigit b) (.badUnicodeEscape pos)
      hexLoop pos k ((v <<< 4) ||| d)

def hex4 (pos : Nat) : JsonParser Nat := do
  let left ← remaining
  if left < 4 then fail .truncated else hexLoop pos 4 0

/-- `char::from_u32`. -/
def charFromU32 (v : Nat) : Option Char := if v.isValidChar then some (Char.ofNat v) else none

/-- The low surrogate that a high one needs. -/
def lowSurrogate (pos hi : Nat) : JsonParser Char := do
  if (← bump) ≠ some '\\'.toUInt8 then fail (.unpairedSurrogate pos)
  else if (← bump) ≠ some 'u'.toUInt8 then fail (.unpairedSurrogate pos)
  else do
    let lo ← hex4 pos
    if ¬ (0xdc00 ≤ lo ∧ lo < 0xe000) then fail (.unpairedSurrogate pos)
    else okOr (charFromU32 (0x10000 + ((hi - 0xd800) <<< 10) + (lo - 0xdc00))) (.unpairedSurrogate pos)

def unicodeEscape (pos : Nat) : JsonParser Char := do
  let hi ← hex4 pos
  if 0xd800 ≤ hi ∧ hi < 0xdc00 then lowSurrogate pos hi
  else if 0xdc00 ≤ hi ∧ hi < 0xe000 then fail (.unpairedSurrogate pos)
  else okOr (charFromU32 hi) (.badUnicodeEscape pos)

/-- The escapes of one letter. -/
def simpleEscape (b : UInt8) : Option Char :=
  if b = '"'.toUInt8 then some '"'
  else if b = '\\'.toUInt8 then some '\\'
  else if b = '/'.toUInt8 then some '/'
  else if b = 'b'.toUInt8 then some (Char.ofNat 8)
  else if b = 'f'.toUInt8 then some (Char.ofNat 12)
  else if b = 'n'.toUInt8 then some '\n'
  else if b = 'r'.toUInt8 then some '\r'
  else if b = 't'.toUInt8 then some '\t'
  else none

def escape : JsonParser Char := do
  let pos ← position
  match ← bump with
  | none => fail .truncated
  | some b => if b = 'u'.toUInt8 then unicodeEscape pos else okOr (simpleEscape b) (.badEscape pos)

/-- Length of a UTF-8 sequence from its first byte. -/
def utf8Len (first : UInt8) : Nat :=
  if 0xc0 ≤ first ∧ first ≤ 0xdf then 2 else if 0xe0 ≤ first ∧ first ≤ 0xef then 3 else 4

/-- The rest of a multi-byte sequence, after its first byte. -/
def multiByte (b : UInt8) : JsonParser String := do
  let from' ← position
  let tail ← takeN (utf8Len b - 1) .truncated
  okOr (fromUtf8 (b :: tail)) (.unexpected (from' - 1) "bad utf-8")

def stringLoop : Nat → String → JsonParser String
  | 0, _ => stop .outOfFuel
  | fuel + 1, out => do
    match ← bump with
    | none => fail .truncated
    | some b =>
      if b = '"'.toUInt8 then return out
      else if b = '\\'.toUInt8 then do
        let c ← escape
        stringLoop fuel (out.push c)
      else if b < 0x20 then do
        let pos ← position
        fail (.unexpected (pos - 1) "raw control char")
      else if b < 0x80 then stringLoop fuel (out.push (Char.ofNat b.toNat))
      else do
        let s ← multiByte b
        stringLoop fuel (out ++ s)

/-- `debug_assert_eq!(self.bump(), Some(b'"'))`: without debug assertions, not even the
`bump` is there. -/
def openingQuote : Build → JsonParser Unit
  | .debug => do if (← bump) = some '"'.toUInt8 then return () else stop .panic
  | .release => return ()

def string (build : Build) : JsonParser String := do
  openingQuote build
  let left ← remaining
  stringLoop (left + 1) ""

section

variable {α : Type}

/-- The loop of `seq` and `object_pairs`, which differ in the item, the closing byte and a text. -/
def commaLoop (item : JsonParser α) (close : UInt8) (expected : String) : Nat → List α → JsonParser (List α)
  | 0, _ => stop .outOfFuel
  | fuel + 1, items => do
    ws
    let v ← item
    ws
    match ← bump with
    | none => fail .truncated
    | some b =>
      if b = ','.toUInt8 then commaLoop item close expected fuel (items ++ [v])
      else if b = close then return items ++ [v]
      else do
        let pos ← position
        fail (.unexpected (pos - 1) expected)

/-- What `commaLoop` does after an item. -/
def commaNext (item : JsonParser α) (close : UInt8) (expected : String) (fuel : Nat) (items : List α) :
    JsonParser (List α) := do
  match ← bump with
  | none => fail .truncated
  | some b =>
    if b = ','.toUInt8 then commaLoop item close expected fuel items
    else if b = close then return items
    else do
      let pos ← position
      fail (.unexpected (pos - 1) expected)

def commaList (item : JsonParser α) (close : UInt8) (expected : String) : JsonParser (List α) := do
  ws
  if (← peek) = some close then do
    advance 1
    return []
  else do
    let left ← remaining
    commaLoop item close expected (left + 1) []

end

def seq (value : JsonParser (Json Φ)) (close : UInt8) : JsonParser (List (Json Φ)) :=
  commaList value close "expected , or close"

/-- A key and its value. -/
def pair (build : Build) (value : JsonParser (Json Φ)) : JsonParser (String × Json Φ) := do
  match ← peek with
  | none => fail .truncated
  | some b =>
    if b ≠ '"'.toUInt8 then do
      let pos ← position
      fail (.unexpected pos "object key must be a string")
    else do
      let key ← string build
      ws
      if (← bump) ≠ some ':'.toUInt8 then do
        match ← peek with
        | some _ => do
          let pos ← position
          fail (.unexpected (pos - 1) "expected :")
        | none => fail .truncated
      else do
        ws
        let v ← value
        return (key, v)

/-- What `pair` does without its colon. -/
def noColon : JsonParser (String × Json Φ) := do
  match ← peek with
  | some _ => do
    let pos ← position
    fail (.unexpected (pos - 1) "expected :")
  | none => fail .truncated

def objectPairs (build : Build) (value : JsonParser (Json Φ)) : JsonParser (List (String × Json Φ)) :=
  commaList (pair build value) '}'.toUInt8 "expected , or \x7d"

/-- `value`, over what it calls one level deeper, if there is one: none is
`self.depth >= MAX_DEPTH`. -/
def valueWith (build : Build) (deeper : Option (JsonParser (Json Φ))) : JsonParser (Json Φ) := do
  let pos ← position
  match ← peek with
  | none => fail .truncated
  | some b =>
    if b = 'n'.toUInt8 then literal (ascii "null") .null
    else if b = 't'.toUInt8 then literal (ascii "true") (.bool true)
    else if b = 'f'.toUInt8 then literal (ascii "false") (.bool false)
    else if b = '"'.toUInt8 then do
      let s ← string build
      return .str s
    else if b = '-'.toUInt8 ∨ isDigit b then number
    else if b = '['.toUInt8 then
      match deeper with
      | none => fail (.depthLimit pos)
      | some value => do
        advance 1
        let items ← seq value ']'.toUInt8
        return .array items
    else if b = '{'.toUInt8 then
      match deeper with
      | none => fail (.depthLimit pos)
      | some value => do
        advance 1
        let pairs ← objectPairs build value
        return .object pairs
    else fail (.unexpected pos "not a value")

/-- `value` where `levels` is `MAX_DEPTH - self.depth`. -/
def value (build : Build) : Nat → JsonParser (Json Φ)
  | 0 => valueWith build none
  | levels + 1 => valueWith build (some (value build levels))

def parse (build : Build) (input : String) : Except (Stop JsonError) (Json Φ) :=
  let document : JsonParser (Json Φ) := do
    ws
    let v ← value build MAX_DEPTH
    ws
    return v
  match document ⟨0, utf8 input⟩ with
  | .error s => .error s
  | .ok (v, c) => if c.rest ≠ [] then .error (.error (.trailing c.pos)) else .ok v

end OhmEcdsa
