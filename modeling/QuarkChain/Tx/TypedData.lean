/-
# Typed data of a transaction

`src/core/types/solidity_abi_utils.go`: a transaction of version `1` is signed as typed data.  The fields
are written as texts, each beside its type, and `solidityPack` turns the texts back into bytes of the width that
the type names, without anything between them.  What is signed is the hash of two hashes: that of the schema,
which all transactions share, and that of the packed fields.

| field | text | bytes |
| --- | --- | ---: |
| nonce, gas price, gas limit, value, network id | digits | 32 |
| recipient | forty digits, or none | 20 |
| data | digits | any |
| shard keys | digits | 4 |
| token ids | digits | 8 |

Only the data has no fixed width, so the fields can be told apart.  But a recipient that is missing and the
zero address are filled up to the same twenty bytes, and of a number the sign is not written.
-/
import QuarkChain.Lib.Hex
import QuarkChain.Types.CrossShard

namespace QuarkChain.Tx

open Bytes QuarkChain.Types

/-- `txdata`: the fields of a transaction. -/
structure TxData where
  accountNonce : UInt64
  price : ℤ
  gasLimit : UInt64
  recipient : Option Recipient
  amount : ℤ
  payload : List UInt8
  networkId : UInt32
  fromFullShardKey : UInt32
  toFullShardKey : UInt32
  gasTokenID : UInt64
  transferTokenID : UInt64
  version : UInt32
  v : ℤ
  r : ℤ
  s : ℤ
deriving DecidableEq

/-- A Go string, as its characters. -/
abbrev Text := List Char

/-- `hexutil.Encode`. -/
def encode (b : List UInt8) : Text := '0' :: 'x' :: hexEncode b

/-- `bigIntToHex`: `Bytes` is the absolute value without leading zeros. -/
def bigIntToHex (data : ℤ) : Text := encode (minBE data.natAbs)

def uint64ToHex (data : UInt64) : Text := encode (minBE data.toNat)

def uint32ToHex (data : UInt32) : Text := encode (minBE data.toNat)

/-- A missing recipient is the empty string `0x`. -/
def receiptToHex : Option Recipient → Text
  | none => ['0', 'x']
  | some data => encode (toBE 20 data.toNat)

/-- The bytes are filled up from the left. -/
def strRJust (initStr : List UInt8) (fill : UInt8) (width : ℕ) : List UInt8 :=
  List.replicate (width - initStr.length) fill ++ initStr

/-- An entry of the typed data: type, name and value as strings. -/
structure TypedField where
  type : Text
  name : Text
  value : Text

/-- The fields that are signed, and a constant domain; version and signature are not among them. -/
def evmTxToTypedData (tx : TxData) : List TypedField :=
  [⟨"uint256".toList, "nonce".toList, uint64ToHex tx.accountNonce⟩,
   ⟨"uint256".toList, "gasPrice".toList, bigIntToHex tx.price⟩,
   ⟨"uint256".toList, "gasLimit".toList, uint64ToHex tx.gasLimit⟩,
   ⟨"uint160".toList, "to".toList, receiptToHex tx.recipient⟩,
   ⟨"uint256".toList, "value".toList, bigIntToHex tx.amount⟩,
   ⟨"bytes".toList, "data".toList, '0' :: 'x' :: hexEncode tx.payload⟩,
   ⟨"uint256".toList, "networkId".toList, uint32ToHex tx.networkId⟩,
   ⟨"uint32".toList, "fromFullShardKey".toList, uint32ToHex tx.fromFullShardKey⟩,
   ⟨"uint32".toList, "toFullShardKey".toList, uint32ToHex tx.toFullShardKey⟩,
   ⟨"uint64".toList, "gasTokenId".toList, uint64ToHex tx.gasTokenID⟩,
   ⟨"uint64".toList, "transferTokenId".toList, uint64ToHex tx.transferTokenID⟩,
   ⟨"string".toList, "qkcDomain".toList, "bottom-quark".toList⟩]

/-- The errors of `solidityPack`. -/
inductive PackError
  | size
  | lengths
  | unsupportedByteSize
  | unsupportedIntSize
  | notHex
  | dataTooLarge
  | boolOrAddress
  | unsupportedType
deriving DecidableEq

/-- The matches of the regular expression `\d+`: all runs of digits. -/
def digitRuns : Text → List Text
  | [] => []
  | c :: rest =>
      if c.isDigit then
        match rest with
        | [] => [[c]]
        | d :: _ =>
            if d.isDigit then
              match digitRuns rest with
              | [] => [[c]]
              | run :: runs => (c :: run) :: runs
            else [c] :: digitRuns rest
      else digitRuns rest

/-- The size in a type such as `uint256`; there must be just one. -/
def calSize (str : Text) : Except PackError ℕ :=
  match digitRuns str with
  | [run] => .ok (run.foldl (fun n c => n * 10 + (c.toNat - 48)) 0)
  | _ => .error .size

/-- `common.FromHex`: an odd digit is filled up, and bad digits give nothing. -/
def fromHex (s : Text) : List UInt8 :=
  let s := if ['0', 'x'].isPrefixOf s || ['0', 'X'].isPrefixOf s then s.drop 2 else s
  let s := if s.length % 2 = 1 then '0' :: s else s
  (hexDecode s).getD []

def textBytes (value : Text) : List UInt8 := value.map fun c => UInt8.ofNat c.toNat

def startsWith (t start : Text) : Bool := start.isPrefixOf t

/-- One value, packed by its type. -/
def packValue (t value : Text) : Except PackError (List UInt8) :=
  if t = "bytes".toList then .ok (if value = ['0', 'x'] then [] else fromHex value)
  else if t = "string".toList then .ok (textBytes value)
  else if t = "bool".toList ∨ t = "address".toList then .error .boolOrAddress
  else if startsWith t "bytes".toList then do
    let size ← calSize t
    if size < 1 ∨ 32 < size then .error .unsupportedByteSize
    else
      let v := (hexDecode (value.drop 2)).getD []
      if size < v.length then .error .dataTooLarge else .ok (strRJust v 0 size)
  else if startsWith t "int".toList ∨ startsWith t "uint".toList then do
    let size ← calSize t
    if size % 8 ≠ 0 ∨ size < 8 ∨ 256 < size then .error .unsupportedIntSize
    else
      match hexDecode (value.drop 2) with
      | none => .error .notHex
      | some v => if size / 8 < v.length then .error .dataTooLarge else .ok (strRJust v 0 (size / 8))
  else .error .unsupportedType

/-- The loop of `solidityPack`. -/
def packValues : List Text → List Text → Except PackError (List UInt8)
  | t :: types, value :: values => do
      let b ← packValue t value
      let rest ← packValues types values
      .ok (b ++ rest)
  | _, _ => .ok []

/-- Types and values are packed in pairs, without padding between them. -/
def solidityPack (types values : List Text) : Except PackError (List UInt8) :=
  if types.length ≠ values.length then .error .lengths else packValues types values

/-- `type name` of every field. -/
def schema (tx : List TypedField) : List Text := tx.map fun v => v.type ++ ' ' :: v.name

def types (tx : List TypedField) : List Text := tx.map TypedField.type

/-- `data`: the entry `"types"` that the source looks for is in no field, so every value is kept whole. -/
def data (tx : List TypedField) : List Text := tx.map TypedField.value

variable (sha3_256 : List UInt8 → Hash)

def hashString (h : Hash) : Text := encode (toBE 32 h.toNat)

/-- The hash of the packed values, as a string. -/
def soliditySha3 (types value : List Text) : Except PackError Text := do
  let packData ← solidityPack types value
  .ok (hashString (sha3_256 packData))

/-- What is hashed last: the hash of the schema and that of the values. -/
def signedBytes (tx : List TypedField) : Except PackError (List UInt8) := do
  let s1 ← soliditySha3 sha3_256 (tx.map fun _ => "string".toList) (schema tx)
  let s2 ← soliditySha3 sha3_256 (types tx) (data tx)
  solidityPack ["bytes32".toList, "bytes32".toList] [s1, s2]

/-- The hash of both, as a string. -/
def typedSignatureHash (tx : List TypedField) : Except PackError Text := do
  let b ← signedBytes sha3_256 tx
  .ok (hashString (sha3_256 b))

/-- The hash that is signed for version `1`. -/
def TxData.typedHash (tx : TxData) : Except PackError Hash := do
  let sigHash ← typedSignatureHash sha3_256 (evmTxToTypedData tx)
  .ok (BitVec.ofNat 256 (ofBE (fromHex sigHash)))

variable {tx' tx : TxData} {b : List UInt8} {size n k : ℕ} {t : Text}

theorem strRJust_minBE {w : ℕ} (h : width n ≤ w) : strRJust (minBE n) 0 w = toBE w n := by
  have hlen : (strRJust (minBE n) 0 w).length = w := by
    simp only [strRJust, minBE, List.length_append, List.length_replicate, length_toBE]
    omega
  have hval : ofBE (strRJust (minBE n) 0 w) = n := by rw [strRJust, ofBE_zeros_append, ofBE_minBE]
  rw [← toBE_ofBE (strRJust (minBE n) 0 w), hlen, hval]

/-- A type of unsigned integers, as its text is read. -/
structure UintType (t : Text) (size : ℕ) : Prop where
  cal : calSize t = .ok (8 * size)
  pos : 1 ≤ size
  le : size ≤ 32
  int : startsWith t "int".toList ∨ startsWith t "uint".toList
  other : t ≠ "bytes".toList ∧ t ≠ "string".toList ∧ ¬ (t = "bool".toList ∨ t = "address".toList) ∧
    ¬ startsWith t "bytes".toList = true

theorem uintType_uint256 : UintType "uint256".toList 32 :=
  ⟨by decide, by decide, by decide, by decide, by decide⟩

theorem uintType_uint160 : UintType "uint160".toList 20 :=
  ⟨by decide, by decide, by decide, by decide, by decide⟩

theorem uintType_uint64 : UintType "uint64".toList 8 :=
  ⟨by decide, by decide, by decide, by decide, by decide⟩

theorem uintType_uint32 : UintType "uint32".toList 4 :=
  ⟨by decide, by decide, by decide, by decide, by decide⟩

theorem packValue_uint (ht : UintType t size) (v : List UInt8) : packValue t (encode v) =
      if size < v.length then .error .dataTooLarge else .ok (strRJust v 0 size) := by
  obtain ⟨h1, h2, h3, h4⟩ := ht.other
  have hpos := ht.pos
  have hle := ht.le
  unfold packValue
  rw [if_neg h1, if_neg h2, if_neg h3, if_neg h4, if_pos ht.int, ht.cal]
  simp only [bind, Except.bind]
  rw [if_neg (by omega)]
  simp only [encode, List.drop_succ_cons, List.drop_zero, hexDecode_hexEncode]
  rw [Nat.mul_div_cancel_left size (by omega)]

theorem packValue_minBE (ht : UintType t size) (n : ℕ) :
    packValue t (encode (minBE n)) = if size < width n then .error .dataTooLarge else .ok (toBE size n) := by
  rw [packValue_uint ht, minBE, length_toBE]
  by_cases h : size < width n
  · rw [if_pos h, if_pos h]
  · rw [if_neg h, if_neg h, ← minBE, strRJust_minBE (by omega)]

theorem width_le_iff : width n ≤ k ↔ n < 256 ^ k := by
  constructor
  · intro h
    exact lt_of_lt_of_le (lt_pow_width n) (Nat.pow_le_pow_right (by decide) h)
  · intro h
    refine width_le ?_
    rwa [show (256 : ℕ) = 2 ^ 8 from rfl, ← pow_mul] at h

theorem packValue_recipient (r : Option Recipient) :
    packValue "uint160".toList (receiptToHex r) = .ok (toBE 20 (r.elim 0 BitVec.toNat)) := by
  rcases r with _ | a
  · decide
  rw [receiptToHex, packValue_uint uintType_uint160, length_toBE, if_neg (by decide), strRJust, length_toBE]
  simp only [Nat.sub_self, List.replicate_zero, List.nil_append, Option.elim]

theorem fromHex_encode (b : List UInt8) : fromHex (encode b) = b := by
  have heven : ¬ (hexEncode b).length % 2 = 1 := by
    rw [length_hexEncode]
    omega
  have hstart : (['0', 'x'].isPrefixOf (encode b) || ['0', 'X'].isPrefixOf (encode b)) = true := by
    simp [encode, List.isPrefixOf]
  unfold fromHex
  simp only [hstart, if_true]
  simp only [encode, List.drop_succ_cons, List.drop_zero, if_neg heven, hexDecode_hexEncode, Option.getD_some]

theorem packValue_payload (payload : List UInt8) :
    packValue "bytes".toList ('0' :: 'x' :: hexEncode payload) = .ok payload := by
  unfold packValue
  rw [if_pos rfl]
  rcases payload with _ | ⟨b, payload⟩
  · rfl
  rw [if_neg (by simp [hexEncode])]
  exact congrArg Except.ok (fromHex_encode (b :: payload))

theorem packValue_string (value : Text) : packValue "string".toList value = .ok (textBytes value) := by
  unfold packValue
  rw [if_neg (by decide), if_pos rfl]

theorem packValue_hashString (h : Hash) :
    packValue "bytes32".toList (hashString h) = .ok (toBE 32 h.toNat) := by
  unfold packValue
  rw [if_neg (by decide), if_neg (by decide), if_neg (by decide), if_pos (by decide),
    show calSize "bytes32".toList = .ok 32 by decide]
  simp only [bind, Except.bind, hashString, encode, List.drop_succ_cons, List.drop_zero, hexDecode_hexEncode,
    Option.getD_some, length_toBE]
  rw [if_neg (by decide), if_neg (by decide), strRJust, length_toBE]
  simp only [Nat.sub_self, List.replicate_zero, List.nil_append]

theorem packValues_strings (texts : List Text) :
    packValues (texts.map fun _ => "string".toList) texts = .ok (texts.flatMap textBytes) := by
  induction texts with
  | nil => rfl
  | cons text texts ih =>
    simp only [List.map_cons, packValues, packValue_string, ih, List.flatMap_cons]
    rfl

/-! ### What is signed -/

/-- The packed values, written out as bytes. -/
def TxData.packed (tx : TxData) : List UInt8 :=
  toBE 32 tx.accountNonce.toNat ++ (toBE 32 tx.price.natAbs ++ (toBE 32 tx.gasLimit.toNat ++
    (toBE 20 (tx.recipient.elim 0 BitVec.toNat) ++ (toBE 32 tx.amount.natAbs ++ (tx.payload ++
      (toBE 32 tx.networkId.toNat ++ (toBE 4 tx.fromFullShardKey.toNat ++ (toBE 4 tx.toFullShardKey.toNat ++
        (toBE 8 tx.gasTokenID.toNat ++ (toBE 8 tx.transferTokenID.toNat ++
          textBytes "bottom-quark".toList))))))))))

/-- Price and amount have at most 32 bytes. -/
def TxData.Fits (tx : TxData) : Prop := tx.price.natAbs < 256 ^ 32 ∧ tx.amount.natAbs < 256 ^ 32

instance (tx : TxData) : Decidable tx.Fits := inferInstanceAs (Decidable (_ ∧ _))

theorem packValue_uint256 (n : ℕ) (h : n < 256 ^ 32) :
    packValue "uint256".toList (encode (minBE n)) = .ok (toBE 32 n) := by
  rw [packValue_minBE uintType_uint256, if_neg (by rw [Nat.not_lt]; exact width_le_iff.mpr h)]

theorem packValue_uint64 (n : UInt64) : packValue "uint64".toList (uint64ToHex n) = .ok (toBE 8 n.toNat) := by
  have h : width n.toNat ≤ 8 := width_le n.toNat_lt
  rw [uint64ToHex, packValue_minBE uintType_uint64, if_neg (by omega)]

theorem packValue_uint32 (n : UInt32) : packValue "uint32".toList (uint32ToHex n) = .ok (toBE 4 n.toNat) := by
  have h : width n.toNat ≤ 4 := width_le n.toNat_lt
  rw [uint32ToHex, packValue_minBE uintType_uint32, if_neg (by omega)]

theorem packValue_uint256_large (n : ℕ) (h : ¬ n < 256 ^ 32) :
    packValue "uint256".toList (encode (minBE n)) = .error .dataTooLarge := by
  rw [packValue_minBE uintType_uint256, if_pos]
  by_contra hle
  exact h (width_le_iff.mp (by omega))

theorem toNat_lt_word (n : UInt64) : n.toNat < 256 ^ 32 := lt_trans n.toNat_lt (by decide)

theorem toNat_lt_word32 (n : UInt32) : n.toNat < 256 ^ 32 := lt_trans n.toNat_lt (by decide)

theorem solidityPack_fields (tx : TxData) (h : tx.Fits) :
    solidityPack (types (evmTxToTypedData tx)) (data (evmTxToTypedData tx)) = .ok tx.packed := by
  unfold solidityPack
  rw [if_neg (by simp [types, data])]
  simp only [types, data, evmTxToTypedData, List.map_cons, List.map_nil, packValues, bigIntToHex,
    packValue_uint256 _ h.1, packValue_uint256 _ h.2, packValue_recipient, packValue_payload,
    packValue_uint64, packValue_uint32, packValue_string]
  rw [uint64ToHex, uint64ToHex, uint32ToHex, packValue_uint256 _ (toNat_lt_word _),
    packValue_uint256 _ (toNat_lt_word _), packValue_uint256 _ (toNat_lt_word32 _)]
  simp only [bind, Except.bind, List.append_nil]
  rfl

theorem solidityPack_large (tx : TxData) (h : ¬ tx.Fits) :
    solidityPack (types (evmTxToTypedData tx)) (data (evmTxToTypedData tx)) = .error .dataTooLarge := by
  unfold solidityPack
  rw [if_neg (by simp [types, data])]
  simp only [types, data, evmTxToTypedData, List.map_cons, List.map_nil, packValues, bigIntToHex,
    packValue_recipient, packValue_payload, packValue_uint64, packValue_uint32, packValue_string]
  rw [uint64ToHex, uint64ToHex, uint32ToHex, packValue_uint256 _ (toNat_lt_word _),
    packValue_uint256 _ (toNat_lt_word _), packValue_uint256 _ (toNat_lt_word32 _)]
  by_cases hp : tx.price.natAbs < 256 ^ 32
  · have ha : ¬ tx.amount.natAbs < 256 ^ 32 := fun ha => h ⟨hp, ha⟩
    rw [packValue_uint256 _ hp, packValue_uint256_large _ ha]
    rfl
  · rw [packValue_uint256_large _ hp]
    rfl

/-- The packed schema, the same for every transaction. -/
def schemaBytes : List UInt8 :=
  (schema (evmTxToTypedData ⟨0, 0, 0, none, 0, [], 0, 0, 0, 0, 0, 1, 0, 0, 0⟩)).flatMap textBytes

theorem soliditySha3_schema (tx : TxData) :
    soliditySha3 sha3_256 ((evmTxToTypedData tx).map fun _ => "string".toList) (schema (evmTxToTypedData tx)) =
      .ok (hashString (sha3_256 schemaBytes)) := by
  have hpack := packValues_strings (schema (evmTxToTypedData tx))
  rw [schema, List.map_map, Function.comp_def] at hpack
  unfold soliditySha3 solidityPack
  rw [if_neg (by simp [schema]), schema, hpack]
  rfl

theorem signedBytes_eq (tx : TxData) (h : tx.Fits) : signedBytes sha3_256 (evmTxToTypedData tx) =
      .ok (toBE 32 (sha3_256 schemaBytes).toNat ++ toBE 32 (sha3_256 tx.packed).toNat) := by
  unfold signedBytes
  rw [soliditySha3_schema, soliditySha3, solidityPack_fields tx h]
  simp only [bind, Except.bind, solidityPack, packValues, packValue_hashString, List.append_nil]
  rfl

theorem signedBytes_large (tx : TxData) (h : ¬ tx.Fits) :
    signedBytes sha3_256 (evmTxToTypedData tx) = .error .dataTooLarge := by
  unfold signedBytes
  rw [soliditySha3_schema, soliditySha3, solidityPack_large tx h]
  rfl

/-- The transaction without what the typed hash leaves out. -/
def TxData.signedFields (tx : TxData) : TxData := { tx with version := 1, v := 0, r := 0, s := 0 }

/-- What the packed fields say of a transaction: a missing recipient reads as the zero address, and a number
as its absolute value. -/
def TxData.view (tx : TxData) : TxData :=
  { tx.signedFields with
    recipient := some (tx.recipient.getD 0)
    price := (tx.price.natAbs : ℤ)
    amount := (tx.amount.natAbs : ℤ) }

theorem toNat_getD (r : Option Recipient) : (r.getD 0).toNat = r.elim 0 BitVec.toNat := by
  cases r with
  | none => rfl
  | some a => rfl

theorem packed_view (tx : TxData) : tx.view.packed = tx.packed := by
  simp only [TxData.packed, TxData.view, TxData.signedFields, Option.elim, Int.natAbs_natCast, toNat_getD]

theorem packed_congr (h : tx.view = tx'.view) : tx.packed = tx'.packed := by
  rw [← packed_view tx, h, packed_view]

theorem fits_congr (h : tx.view = tx'.view) : tx.Fits → tx'.Fits := by
  have hp : (tx.price.natAbs : ℤ) = tx'.price.natAbs := congrArg TxData.price h
  have ha : (tx.amount.natAbs : ℤ) = tx'.amount.natAbs := congrArg TxData.amount h
  unfold TxData.Fits
  omega

theorem toBE_append_inj {m : ℕ} {c : List UInt8} (h : toBE k m ++ b = toBE k n ++ c) (hm : m < 256 ^ k)
    (hn : n < 256 ^ k) : m = n ∧ b = c := by
  obtain ⟨hd, ht⟩ := List.append_inj h (by simp only [length_toBE])
  exact ⟨toBE_inj hm hn hd, ht⟩

/-- **Packing loses only the sign and the missing recipient.** -/
theorem packed_inj (h : tx.packed = tx'.packed) (hf : tx.Fits) (hf' : tx'.Fits) :
    tx.view = tx'.view := by
  unfold TxData.packed at h
  obtain ⟨hnonce, h⟩ := toBE_append_inj h (toNat_lt_word _) (toNat_lt_word _)
  obtain ⟨hprice, h⟩ := toBE_append_inj h hf.1 hf'.1
  obtain ⟨hgas, h⟩ := toBE_append_inj h (toNat_lt_word _) (toNat_lt_word _)
  have hto : ∀ r : Option Recipient, r.elim 0 BitVec.toNat < 256 ^ 20 := by
    intro r
    rw [← toNat_getD]
    exact (r.getD 0).isLt
  obtain ⟨hrec, h⟩ := toBE_append_inj h (hto _) (hto _)
  obtain ⟨hamount, h⟩ := toBE_append_inj h hf.2 hf'.2
  -- everything behind the data has a fixed width, so the data end at the same place
  obtain ⟨hdata, h⟩ := List.append_inj' h (by simp only [List.length_append, length_toBE])
  obtain ⟨hnet, h⟩ := toBE_append_inj h (toNat_lt_word32 _) (toNat_lt_word32 _)
  obtain ⟨hfrom, h⟩ := toBE_append_inj h (UInt32.toNat_lt _) (UInt32.toNat_lt _)
  obtain ⟨htoKey, h⟩ := toBE_append_inj h (UInt32.toNat_lt _) (UInt32.toNat_lt _)
  obtain ⟨hgasToken, h⟩ := toBE_append_inj h (UInt64.toNat_lt _) (UInt64.toNat_lt _)
  obtain ⟨htransfer, -⟩ := toBE_append_inj h (UInt64.toNat_lt _) (UInt64.toNat_lt _)
  rw [← toNat_getD, ← toNat_getD] at hrec
  simp only [TxData.view, TxData.signedFields, TxData.mk.injEq, Option.some.injEq]
  exact ⟨UInt64.toNat_inj.mp hnonce, by rw [hprice], UInt64.toNat_inj.mp hgas, BitVec.eq_of_toNat_eq hrec,
    by rw [hamount], hdata, UInt32.toNat_inj.mp hnet, UInt32.toNat_inj.mp hfrom, UInt32.toNat_inj.mp htoKey,
    UInt64.toNat_inj.mp hgasToken, UInt64.toNat_inj.mp htransfer, trivial, trivial, trivial, trivial⟩

theorem signedBytes_inj (hcf : sha3_256 tx.packed = sha3_256 tx'.packed → tx.packed = tx'.packed)
    (h : signedBytes sha3_256 (evmTxToTypedData tx) = .ok b)
    (h' : signedBytes sha3_256 (evmTxToTypedData tx') = .ok b) : tx.Fits ∧ tx.view = tx'.view := by
  by_cases hf : tx.Fits
  · by_cases hf' : tx'.Fits
    · rw [signedBytes_eq sha3_256 tx hf] at h
      rw [signedBytes_eq sha3_256 tx' hf', ← h, Except.ok.injEq] at h'
      have hhash : (sha3_256 tx'.packed).toNat = (sha3_256 tx.packed).toNat :=
        toBE_inj (sha3_256 tx'.packed).isLt (sha3_256 tx.packed).isLt (List.append_cancel_left h')
      exact ⟨hf, packed_inj (hcf (BitVec.eq_of_toNat_eq hhash.symm)) hf hf'⟩
    · rw [signedBytes_large sha3_256 tx' hf'] at h'
      cases h'
  · rw [signedBytes_large sha3_256 tx hf] at h
    cases h

/-- **What the signature of typed data binds.**  Different fields give different bytes to sign exactly when it is not
the case that they are packed and read the same: one creating a contract and the other calling the zero address,
or numbers that differ in their sign. -/
theorem signedBytes_binds_iff (tx tx' : TxData)
    (hcf : sha3_256 tx.packed = sha3_256 tx'.packed → tx.packed = tx'.packed) :
    (tx.signedFields ≠ tx'.signedFields → ∀ b, signedBytes sha3_256 (evmTxToTypedData tx) = .ok b →
        signedBytes sha3_256 (evmTxToTypedData tx') ≠ .ok b) ↔
      (tx.Fits → tx.view = tx'.view → tx.signedFields = tx'.signedFields) := by
  constructor
  · intro hbinds hf hview
    by_contra hne
    have hf' := fits_congr hview hf
    refine hbinds hne _ (signedBytes_eq sha3_256 tx hf) ?_
    rw [signedBytes_eq sha3_256 tx' hf', packed_congr hview]
  · intro hcond hne b h h'
    obtain ⟨hf, hview⟩ := signedBytes_inj sha3_256 hcf h h'
    exact hne (hcond hf hview)

/-- A transaction by its recipient. -/
def sampleTx (recipient : Option Recipient) : TxData :=
  ⟨1, 1, 21000, recipient, 7, [0x60], 3, 0, 0, 0x8bb0, 0x8bb0, 1, 0, 0, 0⟩

/-- A hash that keeps the thirty-two bytes up to the recipient. -/
def sampleSha3 (b : List UInt8) : Hash := BitVec.ofNat 256 (ofBE (b.take 116))

theorem signedBytes_binds_calls : (sampleTx (some 1)).Fits ∧
    signedBytes sampleSha3 (evmTxToTypedData (sampleTx (some 1))) ≠
      signedBytes sampleSha3 (evmTxToTypedData (sampleTx (some 2))) := by
  have hf : (sampleTx (some 1)).Fits := ⟨by decide, by decide⟩
  have hok := signedBytes_eq sampleSha3 _ hf
  refine ⟨hf, fun heq => ?_⟩
  exact (signedBytes_binds_iff sampleSha3 (sampleTx (some 1)) (sampleTx (some 2)) (by decide +kernel)).mpr
    (fun _ => by decide +kernel) (by decide +kernel) _ hok (heq ▸ hok)

/-- Whoever signs the creation of a contract signs a call to the zero address as well. -/
theorem creation_signed_as_call :
    (sampleTx none).signedFields ≠ (sampleTx (some 0)).signedFields ∧
      ∀ sha3_256 : List UInt8 → Hash, ∃ b, signedBytes sha3_256 (evmTxToTypedData (sampleTx none)) = .ok b ∧
        signedBytes sha3_256 (evmTxToTypedData (sampleTx (some 0))) = .ok b := by
  have hf : (sampleTx none).Fits := ⟨by decide, by decide⟩
  have hview : (sampleTx none).view = (sampleTx (some 0)).view := by decide
  refine ⟨by decide, fun sha3_256 => ⟨_, signedBytes_eq sha3_256 _ hf, ?_⟩⟩
  rw [signedBytes_eq sha3_256 _ (fits_congr hview hf), packed_congr hview]

end QuarkChain.Tx
