import OhmEcdsa.Core.Presign
import OhmEcdsa.Support.Rlp

/-!
# Signed transactions of the demo (`rlp.rs`, `tx.rs`)

The encoder writes each field as the RLP of a byte string, and integers without leading
zeros.  The signature scalars it writes as the 32 bytes they come in, so that the output is
a list of twelve fields which a strict reader takes

    ↔ neither r nor s begins with a zero byte                       (signed_tx_canonical_iff)

What `sighash` hashes determines the transaction.
-/

namespace OhmEcdsa

open Codec

abbrev U128 := Fin (2 ^ 128)

/-! ## Algorithm: encoding -/

/-- `debug_assert!(v > 0)`: the callers pass a length above 55. -/
def minimalBe (v : Nat) : Bytes :=
  let bytes := bigEndian 8 v
  bytes.drop (bytes.findIdx (· != 0))

def encodeBytes (data : Bytes) : Bytes :=
  if data.length = 1 ∧ data.headD 0 ≤ 0x7f then [data.headD 0]
  else if data.length ≤ 55 then (0x80 + UInt8.ofNat data.length) :: data
  else
    let len := minimalBe data.length
    (0xb7 + UInt8.ofNat len.length) :: len ++ data

def encodeUint (v : U128) : Bytes :=
  if v = 0 then encodeBytes []
  else
    let bytes := bigEndian 16 v.val
    encodeBytes (bytes.drop (bytes.findIdx (· != 0)))

/-- The items come encoded. -/
def encodeList (items : List Bytes) : Bytes :=
  let payloadLen := (items.map List.length).sum
  if payloadLen ≤ 55 then (0xc0 + UInt8.ofNat payloadLen) :: items.flatten
  else
    let len := minimalBe payloadLen
    (0xf7 + UInt8.ofNat len.length) :: len ++ items.flatten

/-! ## Algorithm: transactions -/

def TX_TYPE : UInt8 := 0x02

/-- A vector holds fewer than `2 ^ 63` bytes. -/
structure Eip1559Tx where
  chainId : U64
  nonce : U64
  maxPriorityFeePerGas : U128
  maxFeePerGas : U128
  gasLimit : U64
  recipient : Vector UInt8 20
  value : U128
  data : Bytes
  data_length : data.length < 2 ^ 63

/-- `v as u128`. -/
def widen (v : U64) : U128 := Fin.castLE (by decide) v

namespace Eip1559Tx

def unsignedFields (tx : Eip1559Tx) : List Bytes :=
  [encodeUint (widen tx.chainId), encodeUint (widen tx.nonce), encodeUint tx.maxPriorityFeePerGas,
    encodeUint tx.maxFeePerGas, encodeUint (widen tx.gasLimit), encodeBytes tx.recipient.toList, encodeUint tx.value,
    encodeBytes tx.data, encodeList []]

/-- What `sighash` hashes. -/
def preimage (tx : Eip1559Tx) : Bytes := TX_TYPE :: encodeList tx.unsignedFields

def sighash (keccak256 : Bytes → Vector UInt8 32) (tx : Eip1559Tx) : Vector UInt8 32 := keccak256 tx.preimage

def signedTx (tx : Eip1559Tx) (yParity : Bool) (r s : Vector UInt8 32) : Bytes :=
  TX_TYPE :: encodeList (tx.unsignedFields ++
    [encodeUint (if yParity then 1 else 0), encodeBytes r.toList, encodeBytes s.toList])

end Eip1559Tx

/-! ## Specification -/

/-- The twelve fields with the values of a signed transaction, each number minimal. -/
def SignedFields (tx : Eip1559Tx) (yParity : Bool) (r s : Vector UInt8 32) : List Rlp.Item → Prop
  | [chainId, nonce, maxPriorityFeePerGas, maxFeePerGas, gasLimit, recipient, value, data, accessList, parity, rField,
      sField] =>
    chainId.uint = some tx.chainId.val ∧ nonce.uint = some tx.nonce.val ∧
      maxPriorityFeePerGas.uint = some tx.maxPriorityFeePerGas.val ∧ maxFeePerGas.uint = some tx.maxFeePerGas.val ∧
      gasLimit.uint = some tx.gasLimit.val ∧ recipient = .bytes tx.recipient.toList ∧ value.uint = some tx.value.val ∧
      data = .bytes tx.data ∧ accessList = .list [] ∧ parity.uint = some yParity.toNat ∧
      rField.uint = some (ofBigEndian r.toList) ∧ sField.uint = some (ofBigEndian s.toList)
  | _ => False

/-- The type byte, then an encoding that a strict decoder takes as those fields. -/
def CanonicalTx (tx : Eip1559Tx) (yParity : Bool) (r s : Vector UInt8 32) (b : Bytes) : Prop :=
  ∃ body items, b = TX_TYPE :: body ∧ Rlp.decode body = some (.list items) ∧ SignedFields tx yParity r s items

/-! ## Lemmas: the encoder -/

theorem drop_findIdx_trim (b : Bytes) : b.drop (b.findIdx (· != 0)) = Rlp.trim b := by
  induction b with
  | nil => rfl
  | cons x b ih =>
    by_cases hx : x = 0
    · subst hx
      rw [List.findIdx_cons]
      exact ih
    · have hne : (x != 0) = true := by simpa using hx
      rw [List.findIdx_cons, hne, Rlp.trim, List.dropWhile_cons_of_neg (by simpa using hx)]
      rfl

theorem minimalBe_eq {v : Nat} (h : ¬ v ≤ 55) : minimalBe v = Rlp.digits v := by
  rw [minimalBe, drop_findIdx_trim, Rlp.digits, if_neg h]

/-- The two forms of a header: `0x80 + len`, and `0xb7 + len(len)`. -/
theorem header_eq (base : UInt8) (len : Nat) : Rlp.header base len =
    if len ≤ 55 then [base + UInt8.ofNat len]
    else (base + 0x37 + UInt8.ofNat (minimalBe len).length) :: minimalBe len := by
  rw [Rlp.header, Rlp.code]
  split
  · rename_i h
    rw [Rlp.digits, if_pos h]
  · rename_i h
    rw [minimalBe_eq h, UInt8.ofNat_add, UInt8.add_assoc]
    rfl

theorem encodeBytes_eq (data : Bytes) : encodeBytes data = Rlp.encodeString data := by
  have hsingle : (data.length = 1 ∧ data.headD 0 ≤ 0x7f) ↔ Rlp.Single data := by
    constructor
    · rintro ⟨hlen, hle⟩
      obtain ⟨x, rfl⟩ := List.length_eq_one_iff.mp hlen
      exact ⟨x, rfl, UInt8.lt_iff_toNat_lt.mpr (Nat.lt_succ_of_le (UInt8.le_iff_toNat_le.mp hle))⟩
    · rintro ⟨x, rfl, hx⟩
      exact ⟨rfl, UInt8.le_iff_toNat_le.mpr (Nat.le_of_lt_succ (UInt8.lt_iff_toNat_lt.mp hx))⟩
  unfold encodeBytes Rlp.encodeString
  by_cases h : Rlp.Single data
  · obtain ⟨x, rfl, hx⟩ := h
    rw [if_pos (hsingle.mpr ⟨x, rfl, hx⟩), if_pos ⟨x, rfl, hx⟩]
    rfl
  · rw [if_neg fun hs => h (hsingle.mp hs), if_neg h, header_eq]
    split <;> rfl

theorem encodeUint_eq (v : U128) : encodeUint v = Rlp.encodeString (Rlp.trim (bigEndian 16 v.val)) := by
  unfold encodeUint
  split
  · rename_i h
    subst h
    rw [encodeBytes_eq]
    rfl
  · rw [encodeBytes_eq, drop_findIdx_trim]

theorem encodeList_eq (items : List Bytes) : encodeList items = Rlp.encodeList items.flatten := by
  unfold encodeList Rlp.encodeList
  rw [← List.length_flatten, header_eq]
  dsimp only
  split <;> rfl

/-! ## Lemmas: fields -/

def uintItem (v : Nat) : Rlp.Item := .bytes (Rlp.trim (bigEndian 16 v))

/-- The unsigned fields, as items. -/
def Eip1559Tx.items (tx : Eip1559Tx) : List Rlp.Item :=
  [uintItem tx.chainId.val, uintItem tx.nonce.val, uintItem tx.maxPriorityFeePerGas.val, uintItem tx.maxFeePerGas.val,
    uintItem tx.gasLimit.val, .bytes tx.recipient.toList, uintItem tx.value.val, .bytes tx.data, .list []]

/-- The fields that the signature adds. -/
def signatureItems (yParity : Bool) (r s : Vector UInt8 32) : List Rlp.Item :=
  [uintItem yParity.toNat, .bytes r.toList, .bytes s.toList]

theorem uintItem_uint {v : Nat} (hv : v < 2 ^ 128) : (uintItem v).uint = some v := Rlp.uint_trim (k := 16) hv

theorem uintItem_inj {v w : Nat} (hv : v < 2 ^ 128) (hw : w < 2 ^ 128) (h : uintItem v = uintItem w) : v = w := by
  have huint := uintItem_uint hw
  rw [← h, uintItem_uint hv] at huint
  exact Option.some.inj huint

theorem encodeUint_item (v : U128) : encodeUint v = (uintItem v.val).encode := encodeUint_eq v

theorem encodeBytes_item (data : Bytes) : encodeBytes data = (Rlp.Item.bytes data).encode := encodeBytes_eq data

theorem unsignedFields_eq (tx : Eip1559Tx) : tx.unsignedFields = tx.items.map Rlp.Item.encode := by
  simp only [Eip1559Tx.unsignedFields, encodeUint_item, encodeBytes_item]
  rfl

theorem signatureFields_eq (yParity : Bool) (r s : Vector UInt8 32) :
    [encodeUint (if yParity then 1 else 0), encodeBytes r.toList, encodeBytes s.toList] =
      (signatureItems yParity r s).map Rlp.Item.encode := by
  simp only [encodeUint_item, encodeBytes_item]
  cases yParity <;> rfl

theorem encodeList_items (l : List Rlp.Item) : encodeList (l.map Rlp.Item.encode) = (Rlp.Item.list l).encode := by
  rw [encodeList_eq, ← Rlp.encodeItems_eq]
  rfl

theorem uintItem_length_le (v : Nat) : (uintItem v).encode.length ≤ 25 := by
  have hstring := Rlp.encodeString_length_le (Rlp.trim (bigEndian 16 v))
  have htrim := (Rlp.trim_length_le (bigEndian 16 v)).trans (bigEndian_length 16 v).le
  rw [uintItem, Rlp.Item.encode]
  omega

theorem bytesItem_length_le (data : Bytes) : (Rlp.Item.bytes data).encode.length ≤ data.length + 9 :=
  Rlp.encodeString_length_le data

/-- A transaction is shorter than the lengths that a header holds. -/
theorem items_length_lt (tx : Eip1559Tx) (l : List Rlp.Item) (hl : (Rlp.encodeItems l).length ≤ 200) :
    (Rlp.Item.list (tx.items ++ l)).encode.length < 2 ^ 64 := by
  have hpayload : (Rlp.encodeItems (tx.items ++ l)).length ≤ 2 ^ 63 + 500 := by
    have h1 := uintItem_length_le tx.chainId.val
    have h2 := uintItem_length_le tx.nonce.val
    have h3 := uintItem_length_le tx.maxPriorityFeePerGas.val
    have h4 := uintItem_length_le tx.maxFeePerGas.val
    have h5 := uintItem_length_le tx.gasLimit.val
    have h6 := bytesItem_length_le tx.recipient.toList
    have h7 := uintItem_length_le tx.value.val
    have h8 := bytesItem_length_le tx.data
    have h9 : (Rlp.Item.list []).encode.length = 1 := rfl
    have hdata := tx.data_length
    rw [Vector.length_toList] at h6
    rw [Rlp.encodeItems_eq, List.map_append, List.flatten_append, List.length_append, ← Rlp.encodeItems_eq l]
    simp only [Eip1559Tx.items, List.map_cons, List.map_nil, List.flatten_cons, List.flatten_nil, List.length_append,
      List.length_nil]
    omega
  have hlist := Rlp.encodeList_length_le (Rlp.encodeItems (tx.items ++ l))
  rw [Rlp.Item.encode]
  omega

theorem signatureItems_length_le (yParity : Bool) (r s : Vector UInt8 32) :
    (Rlp.encodeItems (signatureItems yParity r s)).length ≤ 200 := by
  have h1 := uintItem_length_le yParity.toNat
  have h2 := bytesItem_length_le r.toList
  have h3 := bytesItem_length_le s.toList
  rw [Vector.length_toList] at h2 h3
  rw [Rlp.encodeItems_eq]
  simp only [signatureItems, List.map_cons, List.map_nil, List.flatten_cons, List.flatten_nil, List.length_append,
    List.length_nil]
  omega

/-- The output is read back as the twelve fields, the scalars as their 32 bytes. -/
theorem signedTx_decode (tx : Eip1559Tx) (yParity : Bool) (r s : Vector UInt8 32) :
    ∃ body, tx.signedTx yParity r s = TX_TYPE :: body ∧
      ∀ items, Rlp.decode body = some (.list items) ↔ items = tx.items ++ signatureItems yParity r s := by
  refine ⟨_, rfl, fun items => ?_⟩
  rw [unsignedFields_eq, signatureFields_eq, ← List.map_append, encodeList_items]
  have hread := (Rlp.decode_iff (items_length_lt tx _ (signatureItems_length_le yParity r s))).mpr rfl
  rw [hread, Option.some.injEq, Rlp.Item.list.injEq, eq_comm]

theorem signedFields_iff (tx : Eip1559Tx) (yParity : Bool) (r s : Vector UInt8 32) :
    SignedFields tx yParity r s (tx.items ++ signatureItems yParity r s) ↔
      Rlp.Minimal r.toList ∧ Rlp.Minimal s.toList := by
  have hsmall : ∀ v : U64, v.val < 2 ^ 128 := fun v => v.isLt.trans (by decide)
  have hparity : yParity.toNat < 2 ^ 128 := (Bool.toNat_lt yParity).trans (by decide)
  simp only [SignedFields, Eip1559Tx.items, signatureItems, List.cons_append, List.nil_append, Rlp.uint_bytes_iff,
    uintItem_uint (hsmall _), uintItem_uint (Fin.isLt _), uintItem_uint hparity, true_and]

theorem items_injective {tx tx' : Eip1559Tx} (h : tx.items = tx'.items) : tx = tx' := by
  have hsmall : ∀ v : U64, v.val < 2 ^ 128 := fun v => v.isLt.trans (by decide)
  simp only [Eip1559Tx.items, List.cons.injEq, Rlp.Item.bytes.injEq, and_true] at h
  obtain ⟨h1, h2, h3, h4, h5, h6, h7, h8⟩ := h
  cases tx
  cases tx'
  simp only [Eip1559Tx.mk.injEq]
  exact ⟨Fin.ext (uintItem_inj (hsmall _) (hsmall _) h1), Fin.ext (uintItem_inj (hsmall _) (hsmall _) h2),
    Fin.ext (uintItem_inj (Fin.isLt _) (Fin.isLt _) h3), Fin.ext (uintItem_inj (Fin.isLt _) (Fin.isLt _) h4),
    Fin.ext (uintItem_inj (hsmall _) (hsmall _) h5), Vector.toList_inj.mp h6,
    Fin.ext (uintItem_inj (Fin.isLt _) (Fin.isLt _) h7), h8⟩

theorem preimage_injective {tx tx' : Eip1559Tx} (h : tx.preimage = tx'.preimage) : tx = tx' := by
  rw [Eip1559Tx.preimage, Eip1559Tx.preimage, unsignedFields_eq, unsignedFields_eq, encodeList_items,
    encodeList_items] at h
  have hlen : (Rlp.Item.list tx.items).encode.length < 2 ^ 64 := by
    have := items_length_lt tx [] (by decide)
    rwa [List.append_nil] at this
  have hread : Rlp.decode (Rlp.Item.list tx.items).encode = some (.list tx'.items) :=
    (Rlp.decode_iff hlen).mpr (List.cons.inj h).2
  rw [(Rlp.decode_iff hlen).mpr rfl, Option.some.injEq, Rlp.Item.list.injEq] at hread
  exact items_injective hread

/-! ## Correctness -/

/-- The output is canonical exactly where neither scalar begins with a zero byte, and what
`sighash` hashes is injective. -/
theorem signed_tx_canonical_iff (tx : Eip1559Tx) (yParity : Bool) (r s : Vector UInt8 32) :
    (CanonicalTx tx yParity r s (tx.signedTx yParity r s) ↔
      r.toList.head? ≠ some 0 ∧ s.toList.head? ≠ some 0) ∧
    ∀ tx' : Eip1559Tx, tx.preimage = tx'.preimage → tx = tx' := by
  refine ⟨?_, fun tx' => preimage_injective⟩
  obtain ⟨body, hbody, hdecode⟩ := signedTx_decode tx yParity r s
  rw [← Rlp.Minimal, ← Rlp.Minimal, ← signedFields_iff tx yParity]
  constructor
  · rintro ⟨body', items, hbody', hitems, hfields⟩
    rw [hbody] at hbody'
    obtain rfl := (List.cons.inj hbody').2
    rw [(hdecode items).mp hitems] at hfields
    exact hfields
  · intro hfields
    exact ⟨body, _, hbody, (hdecode _).mpr rfl, hfields⟩

/-- A scalar below `2 ^ 248`. -/
def shortScalar : Vector UInt8 32 := Vector.replicate 32 0 |>.set 31 1

def plainTx : Eip1559Tx := ⟨1, 0, 0, 0, 21000, Vector.replicate 20 1, 0, [], by decide⟩

theorem short_scalar_not_canonical :
    ¬ CanonicalTx plainTx true shortScalar shortScalar (plainTx.signedTx true shortScalar shortScalar) := by
  rintro ⟨body', items, hbody', hitems, hfields⟩
  obtain ⟨body, hbody, hdecode⟩ := signedTx_decode plainTx true shortScalar shortScalar
  rw [hbody] at hbody'
  obtain rfl := (List.cons.inj hbody').2
  rw [(hdecode items).mp hitems, signedFields_iff] at hfields
  exact hfields.1 rfl

end OhmEcdsa
