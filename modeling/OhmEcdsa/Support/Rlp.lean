import OhmEcdsa.Support.Codec

/-!
# Recursive length prefix

Byte strings and lists of items, each under a header with its length.  Every item has one
encoding, and the decoder takes that one only:

    items fuel b = some l ↔ b = encodeItems l        for b.length ≤ fuel, b.length < 2 ^ 64    (items_iff)

A number is a byte string without leading zeros, most significant byte first; there is one
for each value.                                                                       (minimal_unique)
-/

namespace Rlp

open Codec

inductive Item
  | bytes (data : List UInt8)
  | list (items : List Item)

/-! ## Encoding -/

/-- The bytes from the first nonzero one. -/
def trim (b : List UInt8) : List UInt8 := b.dropWhile (· == 0)

/-- The length of a payload, where one byte does not hold it. -/
def digits (len : Nat) : List UInt8 := if len ≤ 55 then [] else trim (bigEndian 8 len)

/-- What the first byte adds to the base of its kind. -/
def code (len : Nat) : Nat := if len ≤ 55 then len else 55 + (digits len).length

def header (base : UInt8) (len : Nat) : List UInt8 := (base + UInt8.ofNat (code len)) :: digits len

/-- A byte that is its own encoding. -/
def Single (data : List UInt8) : Prop := ∃ x, data = [x] ∧ x < 0x80

instance (data : List UInt8) : Decidable (Single data) :=
  decidable_of_iff (data.length = 1 ∧ data.all (· < 0x80)) <| by
    constructor
    · rintro ⟨hlen, hall⟩
      obtain ⟨x, rfl⟩ := List.length_eq_one_iff.mp hlen
      exact ⟨x, rfl, by simpa using hall⟩
    · rintro ⟨x, rfl, hx⟩
      exact ⟨rfl, by simpa using hx⟩

def encodeString (data : List UInt8) : List UInt8 :=
  if Single data then data else header 0x80 data.length ++ data

def encodeList (payload : List UInt8) : List UInt8 := header 0xc0 payload.length ++ payload

mutual

def Item.encode : Item → List UInt8
  | .bytes data => encodeString data
  | .list items => encodeList (encodeItems items)

def encodeItems : List Item → List UInt8
  | [] => []
  | item :: items => item.encode ++ encodeItems items

end

/-! ## Decoding -/

/-- A length off the front: never in more bytes than it takes. -/
def readLength (c : Nat) (b : List UInt8) : Option (Nat × List UInt8) :=
  if c ≤ 55 then some (c, b)
  else if b.length < c - 55 then none
  else if (b.take (c - 55)).head? = some 0 then none
  else if ofBigEndian (b.take (c - 55)) ≤ 55 then none
  else some (ofBigEndian (b.take (c - 55)), b.drop (c - 55))

/-- The payload of the first item, whether it is a list, and what follows. -/
def split (x : UInt8) (b : List UInt8) : Option (Bool × List UInt8 × List UInt8) :=
  if x < 0x80 then some (false, [x], b)
  else
    let isList : Bool := 0xc0 ≤ x
    match readLength (x.toNat - if isList then 0xc0 else 0x80) b with
    | none => none
    | some (len, rest) =>
      if rest.length < len then none
      else if !isList && Single (rest.take len) then none
      else some (isList, rest.take len, rest.drop len)

/-- All of a byte string, as items. -/
def items : Nat → List UInt8 → Option (List Item)
  | _, [] => some []
  | 0, _ :: _ => none
  | fuel + 1, x :: b =>
    match split x b with
    | none => none
    | some (false, payload, rest) => (items fuel rest).map (Item.bytes payload :: ·)
    | some (true, payload, rest) =>
      match items fuel payload with
      | none => none
      | some inner => (items fuel rest).map (Item.list inner :: ·)

/-- All of a byte string, as one item. -/
def decode (b : List UInt8) : Option Item :=
  match items b.length b with
  | some [item] => some item
  | _ => none

/-! ## Numbers -/

/-- No leading zero. -/
def Minimal (b : List UInt8) : Prop := b.head? ≠ some 0

instance (b : List UInt8) : Decidable (Minimal b) := inferInstanceAs (Decidable (_ ≠ _))

theorem trim_minimal (b : List UInt8) : Minimal (trim b) := by
  intro h
  have hne : trim b ≠ [] := by
    intro hnil
    rw [hnil] at h
    cases h
  have hhead := List.head_dropWhile_not (fun x : UInt8 => x == 0) hne
  rw [List.head?_eq_some_head hne, Option.some.injEq] at h
  have hzero : (trim b).head hne = 0 := h
  rw [show (b.dropWhile fun x => x == 0).head hne = (trim b).head hne from rfl, hzero] at hhead
  cases hhead

theorem trim_length_le (b : List UInt8) : (trim b).length ≤ b.length := List.length_dropWhile_le _ _

@[simp] theorem ofBigEndian_trim (b : List UInt8) : ofBigEndian (trim b) = ofBigEndian b := by
  induction b with
  | nil => rfl
  | cons x b ih =>
    by_cases hx : x = 0
    · subst hx
      rw [show trim (0 :: b) = trim b from List.dropWhile_cons_of_pos rfl, ih, ofBigEndian_cons]
      simp
    · rw [trim, List.dropWhile_cons_of_neg (by simpa using hx)]

theorem le_of_minimal {x : UInt8} {b : List UInt8} (h : Minimal (x :: b)) : 256 ^ b.length ≤ ofBigEndian (x :: b) := by
  have hx : 0 < x.toNat := by
    apply Nat.pos_of_ne_zero
    intro hx
    exact h (by rw [show x = 0 from UInt8.toNat_inj.mp hx]; rfl)
  rw [ofBigEndian_cons]
  calc 256 ^ b.length = 1 * 256 ^ b.length := (one_mul _).symm
    _ ≤ x.toNat * 256 ^ b.length := by gcongr; exact hx
    _ ≤ _ := Nat.le_add_right _ _

theorem length_le_of_minimal {b b' : List UInt8} (h : Minimal b) (hv : ofBigEndian b = ofBigEndian b') :
    b.length ≤ b'.length := by
  cases b with
  | nil => exact Nat.zero_le _
  | cons x b =>
    have hle := le_of_minimal h
    have hlt := ofBigEndian_lt b'
    rw [hv] at hle
    exact (Nat.pow_lt_pow_iff_right (by decide : 1 < 256)).mp (hle.trans_lt hlt)

/-- A value is written in one way only. -/
theorem minimal_unique {b b' : List UInt8} (h : Minimal b) (h' : Minimal b') (hv : ofBigEndian b = ofBigEndian b') :
    b = b' := by
  have hlen : b.length = b'.length := Nat.le_antisymm (length_le_of_minimal h hv) (length_le_of_minimal h' hv.symm)
  rw [← bigEndian_ofBigEndian b, ← bigEndian_ofBigEndian b', hlen, hv]

/-- The minimal bytes of a value of at most `k` bytes. -/
theorem trim_bigEndian_iff {k v : Nat} (hv : v < 256 ^ k) {b : List UInt8} :
    b = trim (bigEndian k v) ↔ Minimal b ∧ ofBigEndian b = v := by
  have hval : ofBigEndian (trim (bigEndian k v)) = v := by
    rw [ofBigEndian_trim, ofBigEndian_bigEndian, Nat.mod_eq_of_lt hv]
  constructor
  · rintro rfl
    exact ⟨trim_minimal _, hval⟩
  · rintro ⟨hmin, hb⟩
    exact minimal_unique hmin (trim_minimal _) (hb.trans hval.symm)

/-- The number that an item stands for. -/
def Item.uint : Item → Option Nat
  | .bytes data => if Minimal data then some (ofBigEndian data) else none
  | .list _ => none

theorem uint_bytes_iff {data : List UInt8} : (Item.bytes data).uint = some (ofBigEndian data) ↔ Minimal data := by
  unfold Item.uint
  split <;> simp_all

theorem uint_trim {k v : Nat} (hv : v < 256 ^ k) : (Item.bytes (trim (bigEndian k v))).uint = some v := by
  obtain ⟨hmin, hval⟩ := (trim_bigEndian_iff hv).mp rfl
  exact (uint_bytes_iff.mpr hmin).trans (congrArg some hval)

/-! ## Headers -/

theorem digits_length_le (len : Nat) : (digits len).length ≤ 8 := by
  unfold digits
  split
  · exact Nat.zero_le 8
  · exact (trim_length_le _).trans (bigEndian_length 8 len).le

theorem digits_length_pos {len : Nat} (hlen : len < 2 ^ 64) (h : 55 < len) : 0 < (digits len).length := by
  rw [digits, if_neg (by omega)]
  apply List.length_pos_of_ne_nil
  intro hnil
  have hval := ((trim_bigEndian_iff (k := 8) hlen).mp rfl).2
  rw [hnil] at hval
  have hzero : len = 0 := hval.symm
  omega

theorem code_le (len : Nat) : code len ≤ 63 := by
  have := digits_length_le len
  unfold code
  split <;> omega

theorem readLength_iff {c : Nat} (hc : c ≤ 63) {b rest : List UInt8} {len : Nat} :
    readLength c b = some (len, rest) ↔ len < 2 ^ 64 ∧ c = code len ∧ b = digits len ++ rest := by
  unfold readLength
  by_cases hshort : c ≤ 55
  · rw [if_pos hshort]
    constructor
    · rintro ⟨⟩
      exact ⟨by omega, by rw [code, if_pos hshort], by rw [digits, if_pos hshort, List.nil_append]⟩
    · rintro ⟨hlen, hcode, hb⟩
      have hle : len ≤ 55 := by
        by_contra hlong
        have := digits_length_pos hlen (by omega)
        rw [code, if_neg hlong] at hcode
        omega
      rw [code, if_pos hle] at hcode
      rw [digits, if_pos hle, List.nil_append] at hb
      rw [hcode, hb]
  rw [if_neg hshort]
  constructor
  · intro h
    split_ifs at h with hb hmin hlong
    cases h
    have htake : (b.take (c - 55)).length = c - 55 := List.length_take_of_le (by omega)
    have hlt : ofBigEndian (b.take (c - 55)) < 256 ^ 8 := by
      refine (ofBigEndian_lt _).trans_le (Nat.pow_le_pow_right (by decide) ?_)
      omega
    have hdigits : digits (ofBigEndian (b.take (c - 55))) = b.take (c - 55) := by
      rw [digits, if_neg hlong]
      exact ((trim_bigEndian_iff hlt).mpr ⟨hmin, rfl⟩).symm
    refine ⟨hlt, ?_, ?_⟩
    · rw [code, if_neg hlong, hdigits]
      omega
    · rw [hdigits, List.take_append_drop]
  · rintro ⟨hlen, hcode, rfl⟩
    have hlong : ¬ len ≤ 55 := by
      intro hle
      rw [code, if_pos hle] at hcode
      omega
    have hdigits : digits len = trim (bigEndian 8 len) := by rw [digits, if_neg hlong]
    obtain ⟨hmin, hval⟩ := (trim_bigEndian_iff (k := 8) hlen).mp hdigits
    have hlength : c - 55 = (digits len).length := by
      rw [code, if_neg hlong] at hcode
      omega
    rw [hlength, List.take_left, List.drop_left, if_neg (by simp), if_neg hmin, hval, if_neg hlong]

theorem header_byte {base : UInt8} {len : Nat} {x : UInt8} (hbase : base = 0x80 ∨ base = 0xc0) :
    x = base + UInt8.ofNat (code len) ↔ x.toNat = base.toNat + code len := by
  have hcode := code_le len
  have hval : (base + UInt8.ofNat (code len)).toNat = base.toNat + code len := by
    rw [UInt8.toNat_add, UInt8.toNat_ofNat']
    rcases hbase with rfl | rfl
    · show (128 + code len % 256) % 256 = 128 + code len
      omega
    · show (192 + code len % 256) % 256 = 192 + code len
      omega
  rw [← hval, UInt8.toNat_inj]

/-- The encoding of an item with that payload. -/
def frame (isList : Bool) (payload : List UInt8) : List UInt8 :=
  if isList then encodeList payload else encodeString payload

theorem frame_of_header {isList : Bool} {payload : List UInt8} (h : isList = true ∨ ¬ Single payload) :
    frame isList payload = header (if isList then 0xc0 else 0x80) payload.length ++ payload := by
  cases isList with
  | true => rfl
  | false =>
    have hsingle : ¬ Single payload := h.resolve_left (by simp)
    exact if_neg hsingle

theorem frame_single {x : UInt8} (hx : x < 0x80) : frame false [x] = [x] := by
  have hsingle : Single [x] := ⟨x, rfl, hx⟩
  exact if_pos hsingle

/-- The first byte of a framed payload, and the rest. -/
theorem frame_cons_iff {x : UInt8} (hx : ¬ x < 0x80) {b payload rest : List UInt8} {isList : Bool} :
    x :: b = frame isList payload ++ rest ↔ isList = decide (0xc0 ≤ x) ∧ (isList = true ∨ ¬ Single payload) ∧
      x.toNat - (if isList then 0xc0 else 0x80) = code payload.length ∧
        b = digits payload.length ++ (payload ++ rest) := by
  have hx' : 0x80 ≤ x.toNat := Nat.le_of_not_lt fun hlt => hx (UInt8.lt_iff_toNat_lt.mpr hlt)
  have hcode := code_le payload.length
  by_cases hform : isList = true ∨ ¬ Single payload
  · rw [frame_of_header hform, header, List.append_assoc, List.cons_append, List.cons.injEq]
    have hlist : decide (0xc0 ≤ x) = decide (0xc0 ≤ x.toNat) := decide_eq_decide.mpr UInt8.le_iff_toNat_le
    rw [hlist]
    cases isList with
    | true =>
      rw [if_pos rfl, if_pos rfl, header_byte (Or.inr rfl)]
      have hbase : (0xc0 : UInt8).toNat = 0xc0 := rfl
      constructor
      · rintro ⟨hbyte, rfl⟩
        exact ⟨(decide_eq_true (by omega)).symm, Or.inl rfl, by omega, rfl⟩
      · rintro ⟨hlarge, -, hbyte, rfl⟩
        have := of_decide_eq_true hlarge.symm
        exact ⟨by omega, rfl⟩
    | false =>
      rw [if_neg (by simp), if_neg (by simp), header_byte (Or.inl rfl)]
      have hbase : (0x80 : UInt8).toNat = 0x80 := rfl
      constructor
      · rintro ⟨hbyte, rfl⟩
        exact ⟨(decide_eq_false (by omega)).symm, hform, by omega, rfl⟩
      · rintro ⟨-, -, hbyte, rfl⟩
        exact ⟨by omega, rfl⟩
  · -- a byte that is its own encoding is below 0x80
    refine iff_of_false (fun h => ?_) fun h => hform h.2.1
    obtain ⟨hlist, y, rfl, hy⟩ : isList = false ∧ Single payload := by
      simpa using hform
    subst hlist
    rw [frame_single hy] at h
    exact hx ((List.cons.inj h).1 ▸ hy)

theorem split_iff {x : UInt8} {b payload rest : List UInt8} {isList : Bool} (hb : b.length < 2 ^ 64) :
    split x b = some (isList, payload, rest) ↔ x :: b = frame isList payload ++ rest := by
  unfold split
  by_cases hx : x < 0x80
  · rw [if_pos hx]
    constructor
    · rintro ⟨⟩
      rw [frame_single hx]
      rfl
    · intro h
      by_cases hform : isList = true ∨ ¬ Single payload
      · -- a header byte is 0x80 or more
        rw [frame_of_header hform, header, List.append_assoc, List.cons_append] at h
        have hbyte := (header_byte (by cases isList <;> simp)).mp (List.cons.inj h).1
        have hlt : x.toNat < 0x80 := UInt8.lt_iff_toNat_lt.mp hx
        have hbase : 0x80 ≤ (if isList then (0xc0 : UInt8) else 0x80).toNat := by cases isList <;> decide
        omega
      · obtain ⟨rfl, y, rfl, hy⟩ : isList = false ∧ Single payload := by simpa using hform
        rw [frame_single hy] at h
        obtain ⟨rfl, rfl⟩ := List.cons.inj h
        rfl
  rw [if_neg hx, frame_cons_iff hx]
  have hc : x.toNat - (if decide (0xc0 ≤ x) = true then 0xc0 else 0x80) ≤ 63 := by
    have hlt := x.toNat_lt
    by_cases hlarge : 0xc0 ≤ x
    · rw [if_pos (decide_eq_true hlarge)]
      omega
    · have hsmall : x.toNat < 0xc0 := Nat.lt_of_not_le fun hle => hlarge (UInt8.le_iff_toNat_le.mpr hle)
      rw [if_neg (by simpa using hlarge)]
      omega
  dsimp only
  constructor
  · intro h
    split at h
    · cases h
    · rename_i len rest' hread
      obtain ⟨-, hcode, rfl⟩ := (readLength_iff hc).mp hread
      split_ifs at h with hlen hsingle
      cases h
      have htake : (rest'.take len).length = len := List.length_take_of_le (by omega)
      rw [htake]
      refine ⟨rfl, ?_, hcode, by rw [List.take_append_drop]⟩
      simpa [or_iff_not_imp_left] using hsingle
  · rintro ⟨rfl, hform, hcode, rfl⟩
    have hpayload : payload.length < 2 ^ 64 := by
      rw [List.length_append, List.length_append] at hb
      omega
    rw [(readLength_iff hc).mpr ⟨hpayload, hcode, rfl⟩]
    have hsingle : ¬ ((!decide (0xc0 ≤ x) && decide (Single payload)) = true) := by
      rcases hform with h | h <;> simp [h]
    dsimp only
    rw [List.take_left, List.drop_left, if_neg (by simp), if_neg hsingle]

/-! ## Items -/

theorem frame_length_pos (isList : Bool) (payload : List UInt8) : 0 < (frame isList payload).length := by
  by_cases hform : isList = true ∨ ¬ Single payload
  · rw [frame_of_header hform]
    simp [header]
  · obtain ⟨rfl, y, rfl, hy⟩ : isList = false ∧ Single payload := by simpa using hform
    rw [frame_single hy]
    exact Nat.one_pos

/-- A list is longer than its payload. -/
theorem length_lt_list (payload : List UInt8) : payload.length < (frame true payload).length := by
  rw [frame_of_header (Or.inl rfl)]
  simp [header]

theorem encodeItems_bytes (data : List UInt8) (l : List Item) :
    encodeItems (.bytes data :: l) = frame false data ++ encodeItems l := rfl

theorem encodeItems_list (inner l : List Item) :
    encodeItems (.list inner :: l) = frame true (encodeItems inner) ++ encodeItems l := rfl

theorem encodeItems_eq (l : List Item) : encodeItems l = (l.map Item.encode).flatten := by
  induction l with
  | nil => rfl
  | cons item l ih => rw [encodeItems, ih, List.map_cons, List.flatten_cons]

theorem encodeString_length_le (data : List UInt8) : (encodeString data).length ≤ data.length + 9 := by
  unfold encodeString
  split
  · exact Nat.le_add_right _ _
  · have := digits_length_le data.length
    rw [header, List.length_append, List.length_cons]
    omega

theorem encodeList_length_le (payload : List UInt8) : (encodeList payload).length ≤ payload.length + 9 := by
  have := digits_length_le payload.length
  rw [encodeList, header, List.length_append, List.length_cons]
  omega

theorem encodeItems_eq_nil {l : List Item} : encodeItems l = [] ↔ l = [] := by
  refine ⟨fun h => ?_, fun h => h ▸ rfl⟩
  cases l with
  | nil => rfl
  | cons item l =>
    have hpos : 0 < (encodeItems (item :: l)).length := by
      cases item with
      | bytes data =>
        rw [encodeItems_bytes, List.length_append]
        exact Nat.add_pos_left (frame_length_pos _ _) _
      | list inner =>
        rw [encodeItems_list, List.length_append]
        exact Nat.add_pos_left (frame_length_pos _ _) _
    rw [h] at hpos
    cases hpos

theorem items_nil (fuel : Nat) : items fuel [] = some [] := by cases fuel <;> rfl

/-- **The decoder takes the encoding of each list of items, and nothing else.** -/
theorem items_iff {fuel : Nat} {b : List UInt8} (hfuel : b.length ≤ fuel) (hb : b.length < 2 ^ 64) {l : List Item} :
    items fuel b = some l ↔ b = encodeItems l := by
  induction fuel generalizing b l with
  | zero =>
    obtain rfl : b = [] := List.length_eq_zero_iff.mp (Nat.le_zero.mp hfuel)
    rw [items_nil, Option.some.injEq, eq_comm, ← encodeItems_eq_nil, eq_comm]
  | succ fuel ih =>
    cases b with
    | nil => rw [items_nil, Option.some.injEq, eq_comm, ← encodeItems_eq_nil, eq_comm]
    | cons x b =>
      rw [List.length_cons] at hfuel hb
      constructor
      · intro h
        rw [items] at h
        rcases hsplit : split x b with _ | ⟨isList, payload, rest⟩
        · rw [hsplit] at h
          cases h
        rw [hsplit] at h
        have hframe := (split_iff (by omega)).mp hsplit
        have hlen := congrArg List.length hframe
        rw [List.length_cons, List.length_append] at hlen
        have hpos := frame_length_pos isList payload
        cases isList with
        | false =>
          obtain ⟨l', hrest, rfl⟩ := Option.map_eq_some_iff.mp h
          rw [encodeItems_bytes, ← (ih (by omega) (by omega)).mp hrest]
          exact hframe
        | true =>
          have hlt := length_lt_list payload
          rcases hinner : items fuel payload with _ | inner
          · simp only [hinner] at h
            cases h
          simp only [hinner] at h
          obtain ⟨l', hrest, rfl⟩ := Option.map_eq_some_iff.mp h
          rw [encodeItems_list, ← (ih (by omega) (by omega)).mp hrest, ← (ih (by omega) (by omega)).mp hinner]
          exact hframe
      · intro h
        cases l with
        | nil => cases h
        | cons item l =>
          have hlen := congrArg List.length h
          cases item with
          | bytes data =>
            rw [encodeItems_bytes, List.length_cons, List.length_append] at hlen
            have hpos := frame_length_pos false data
            rw [encodeItems_bytes] at h
            rw [items, (split_iff (by omega)).mpr h]
            exact Option.map_eq_some_iff.mpr ⟨l, (ih (by omega) (by omega)).mpr rfl, rfl⟩
          | list inner =>
            rw [encodeItems_list, List.length_cons, List.length_append] at hlen
            have hlt := length_lt_list (encodeItems inner)
            rw [encodeItems_list] at h
            rw [items, (split_iff (by omega)).mpr h]
            simp only [(ih (b := encodeItems inner) (by omega) (by omega)).mpr rfl]
            exact Option.map_eq_some_iff.mpr ⟨l, (ih (by omega) (by omega)).mpr rfl, rfl⟩

/-- One item is read back from its encoding only. -/
theorem decode_iff {b : List UInt8} (hb : b.length < 2 ^ 64) {item : Item} : decode b = some item ↔ b = item.encode := by
  have hitems := items_iff (le_refl b.length) hb (l := [item])
  rw [encodeItems, encodeItems, List.append_nil] at hitems
  rw [← hitems]
  unfold decode
  constructor
  · intro h
    split at h
    · rename_i only heq
      rw [heq, Option.some.inj h]
    · cases h
  · intro h
    rw [h]

end Rlp
