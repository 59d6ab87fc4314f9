/-
# The bytes of a list of deposits

`CrossShardTransactionDepositList` of `src/core/types/cross_shard_transaction.go`.  The list is written with
four bytes for its length, of which the first is overwritten by the version.  In version `0` deposits have no
refund rate and are read with the rate `100`.
-/
import QuarkChain.P2p.HeaderBytes

namespace QuarkChain.P2p

open Bytes Outcome Serialize
open QuarkChain.Types (CrossShardTransactionDeposit)

def serializeBool (b : Bool) : Serialized := .ok [if b then 1 else 0]

theorem serialize_bool (ts : Tags) (b : Bool) : Ty.bool.serialize ts b = serializeBool b := rfl

def deserializeBool : Deserializer Bool := do
  let b ← getBytes 1
  if b = [0] then pure false
  else if b = [1] then pure true
  else throw (.error (.invalidBool (b.headD 0)))

/-- `serializeList`, with four bytes for the length. -/
def serializeList {α : Type} (elem : α → Serialized) (l : List α) : Serialized := do
  let len ← writeListLen l.length 4
  let bytes ← joined (l.map elem)
  .ok (len ++ bytes)

/-- The elements of a list are joined, as those of a slice are by reflection. -/
theorem joined_map {α : Type} (elem : α → Serialized) (l : List α) :
    joined (l.map elem) = serializeElems elem l := by
  induction l with
  | nil => rfl
  | cons a l ih => rw [List.map_cons, joined, ih, serializeElems]

/-- The serializer of `CrossShardTransactionDepositV0`, which a deposit embeds. -/
def serializeDepositV0 (d : CrossShardTransactionDeposit) : Serialized :=
  joined
    [serializeHash d.txHash,
      serializeAddress d.from,
      serializeAddress d.to,
      serializeFixSizeBigUint 32 d.value,
      serializeFixSizeBigUint 32 d.gasPrice,
      serializeUInt 8 d.gasTokenID,
      serializeUInt 8 d.transferTokenID,
      serializeBool d.isFromRootChain,
      serializeFixSizeBigUint 32 d.gasRemained,
      serializeByteSlice 4 d.messageData,
      serializeBool d.createContract]

def serializeDeposit (d : CrossShardTransactionDeposit) : Serialized :=
  joined [serializeDepositV0 d, serializeUInt 1 d.refundRate]

/-- `CrossShardTransactionDepositList.Serialize`. -/
def serializeDepositList (txList : List CrossShardTransactionDeposit) : Serialized := do
  let bytes ← serializeList serializeDeposit txList
  .ok (bytes.set 0 1)

def fieldV0 {α : Type} (name : String) (d : Deserializer α) : Deserializer α :=
  field "types.CrossShardTransactionDepositV0" name d

def deserializeDepositV0 : Deserializer CrossShardTransactionDeposit := do
  let txHash ← fieldV0 "TxHash" deserializeHash
  let «from» ← fieldV0 "From" deserializeAddress
  let «to» ← fieldV0 "To" deserializeAddress
  let value ← fieldV0 "Value" (deserializeFixSizeBigUint 32)
  let gasPrice ← fieldV0 "GasPrice" (deserializeFixSizeBigUint 32)
  let gasTokenID ← fieldV0 "GasTokenID" (getUInt 8)
  let transferTokenID ← fieldV0 "TransferTokenID" (getUInt 8)
  let isFromRootChain ← fieldV0 "IsFromRootChain" deserializeBool
  let gasRemained ← fieldV0 "GasRemained" (deserializeFixSizeBigUint 32)
  let messageData ← fieldV0 "MessageData" (getVarBytes 4)
  let createContract ← fieldV0 "CreateContract" deserializeBool
  pure { txHash, «from», «to», value, gasPrice, gasTokenID, transferTokenID, isFromRootChain, gasRemained,
         messageData, createContract, refundRate := 0 }

def deserializeDeposit : Deserializer CrossShardTransactionDeposit := do
  let d ← field "types.CrossShardTransactionDeposit" "CrossShardTransactionDepositV0" deserializeDepositV0
  let refundRate ← field "types.CrossShardTransactionDeposit" "RefundRate" (getUInt 1)
  pure { d with refundRate }

/-- The loops of `Deserialize`, by version. -/
def deserializeDeposits (size : ℕ) : ℕ → Deserializer (List CrossShardTransactionDeposit)
  | 0 => deserializeElems ((fun d => { d with refundRate := 100 }) <$> deserializeDepositV0) size
  | 1 => deserializeElems deserializeDeposit size
  | version => throw (.error (.unsupportedVersion version))

/-- The deposits, unless there are fewer bytes left than the list should have entries. -/
def deserializeGuarded (size version : ℕ) : Deserializer (List CrossShardTransactionDeposit) := do
  let remaining ← remaining
  if size > remaining then throw (.error (.depositListExceeds size remaining))
  else deserializeDeposits size version

/-- `CrossShardTransactionDepositList.Deserialize`. -/
def deserializeDepositList : Deserializer (List CrossShardTransactionDeposit) := do
  let size ← getUInt 4
  deserializeGuarded (size % 2 ^ 24) (size / 2 ^ 24)

/-- The version that the first bytes of a list tell. -/
def depositListVersion (b : List UInt8) : Except DeserStop ℕ :=
  deserializeFromBytes ((· / 2 ^ 24) <$> getUInt 4) b

/-! ### One deposit -/

/-- The numbers of a deposit are of the types of their fields. -/
structure InRange (d : CrossShardTransactionDeposit) : Prop where
  «from» : d.from.fullShardKey < 2 ^ 32
  «to» : d.to.fullShardKey < 2 ^ 32
  gasTokenID : d.gasTokenID < 2 ^ 64
  transferTokenID : d.transferTokenID < 2 ^ 64
  refundRate : d.refundRate < 2 ^ 8

variable {d : CrossShardTransactionDeposit} {b : List UInt8}

theorem sends_bool (v : Bool) : Sends (serializeBool v) deserializeBool v := by
  refine ⟨_, rfl, fun before rest => ?_⟩
  have hread := getBytes_append before [if v then 1 else 0] rest
  change (getBytes 1 _ >>= fun p => _) = _
  rw [show (1 : ℕ) = [if v then (1 : UInt8) else 0].length from rfl, hread]
  cases v <;> rfl

theorem joined_ok {ss : List Serialized} (h : joined ss = .ok b) : ∀ s ∈ ss, ∃ b', s = .ok b' := by
  induction ss generalizing b with
  | nil => exact nofun
  | cons s ss ih =>
    obtain ⟨b₁, hs, h⟩ := bind_eq_ok.mp h
    obtain ⟨b₂, hss, -⟩ := bind_eq_ok.mp h
    exact List.forall_mem_cons.mpr ⟨⟨b₁, hs⟩, ih hss⟩

theorem lt_of_serializeFixSizeBigUint {size n : ℕ} (h : serializeFixSizeBigUint size n = .ok b) :
    n < 256 ^ size := by
  unfold serializeFixSizeBigUint width at h
  split_ifs at h with hw
  rw [show (256 : ℕ) = 2 ^ 8 from rfl, ← pow_mul]
  exact Nat.size_le.mp (by omega)

theorem lt_of_serializeByteSlice {k : ℕ} {bytes : List UInt8} (h : serializeByteSlice k bytes = .ok b) :
    bytes.length < 256 ^ k := by
  obtain ⟨_, hlen, -⟩ := bind_eq_ok.mp h
  unfold writeListLen at hlen
  split_ifs at hlen with _ hlt
  simpa using hlt

theorem sends_depositV0 (ht : InRange d) (h : serializeDepositV0 d = .ok b) :
    Sends (serializeDepositV0 d) deserializeDepositV0 { d with refundRate := 0 } := by
  have hall := joined_ok h
  simp only [List.forall_mem_cons] at hall
  obtain ⟨-, -, -, ⟨_, hvalue⟩, ⟨_, hprice⟩, -, -, -, ⟨_, hremained⟩, ⟨_, hdata⟩, -⟩ := hall
  refine ((sends_byteArray 32 d.txHash).field _ _).bind ?_
  refine ((sends_address ht.from).field _ _).bind ?_
  refine ((sends_address ht.to).field _ _).bind ?_
  refine ((sends_fixSizeBigUint 32 (lt_of_serializeFixSizeBigUint hvalue)).field _ _).bind ?_
  refine ((sends_fixSizeBigUint 32 (lt_of_serializeFixSizeBigUint hprice)).field _ _).bind ?_
  refine ((sends_uint (k := 8) ht.gasTokenID).field _ _).bind ?_
  refine ((sends_uint (k := 8) ht.transferTokenID).field _ _).bind ?_
  refine ((sends_bool d.isFromRootChain).field _ _).bind ?_
  refine ((sends_fixSizeBigUint 32 (lt_of_serializeFixSizeBigUint hremained)).field _ _).bind ?_
  refine ((sends_byteSlice (k := 4) (by decide) (lt_of_serializeByteSlice hdata)).field _ _).bind ?_
  exact ((sends_bool d.createContract).field _ _).bind sends_pure

theorem sends_deposit (ht : InRange d) (h : serializeDeposit d = .ok b) :
    Sends (serializeDeposit d) deserializeDeposit d := by
  obtain ⟨_, h, -⟩ := bind_eq_ok.mp h
  exact ((sends_depositV0 ht h).field _ _).bind (((sends_uint (k := 1) ht.refundRate).field _ _).bind sends_pure)

section Lists

variable {α β : Type} {ser : α → Serialized} {l : List α}

theorem sends_elems {elem : Deserializer β} {g : α → β} (h : ∀ a ∈ l, Sends (ser a) elem (g a)) :
    Sends (joined (l.map ser)) (deserializeElems elem l.length) (l.map g) := by
  induction l with
  | nil => exact sends_pure
  | cons a l ih =>
    rw [List.forall_mem_cons] at h
    exact h.1.bind ((ih h.2).map (g a :: ·))

theorem length_le_joined (hser : ∀ a b, ser a = .ok b → 0 < b.length) (h : joined (l.map ser) = .ok b) :
    l.length ≤ b.length := by
  induction l generalizing b with
  | nil => exact Nat.zero_le _
  | cons a l ih =>
    obtain ⟨b₁, hs, h⟩ := bind_eq_ok.mp h
    obtain ⟨b₂, hss, hb⟩ := bind_eq_ok.mp h
    cases hb
    have hpos := hser a b₁ hs
    have := ih hss
    rw [List.length_cons, List.length_append]
    omega

end Lists

/-- The version takes the place of the highest byte of the length. -/
theorem set_toBE {n : ℕ} (hn : n < 2 ^ 24) (bytes : List UInt8) :
    (toBE 4 n ++ bytes).set 0 1 = toBE 4 (1 * 2 ^ 24 + n) ++ bytes := by
  have h₃ : (1 * 2 ^ 24 + n) / 256 / 256 / 256 % 256 = 1 := by omega
  have h₂ : (1 * 2 ^ 24 + n) / 256 / 256 % 256 = n / 256 / 256 % 256 := by omega
  have h₁ : (1 * 2 ^ 24 + n) / 256 % 256 = n / 256 % 256 := by omega
  have h₀ : (1 * 2 ^ 24 + n) % 256 = n % 256 := by omega
  simp only [toBE, h₃, h₂, h₁, h₀]
  rfl

theorem Sends.guarded {s : Serialized} {n version : ℕ} {txList : List CrossShardTransactionDeposit}
    (h : Sends s (deserializeDeposits n version) txList) (hle : ∀ b, s = .ok b → n ≤ b.length) :
    Sends s (deserializeGuarded n version) txList := by
  obtain ⟨b, rfl, hb⟩ := h
  refine ⟨b, rfl, fun before rest => ?_⟩
  have hle := hle b rfl
  change (if n > (before ++ (b ++ rest)).length - before.length then throw _ else
    deserializeDeposits n version : Deserializer _) _ = _
  rw [if_neg (by simp only [List.length_append]; omega)]
  exact hb before rest

/-- A deposit takes at least the bytes of its hash. -/
theorem length_pos_of_serializeDepositV0 (h : serializeDepositV0 d = .ok b) : 0 < b.length := by
  obtain ⟨b₁, hhash, h⟩ := bind_eq_ok.mp h
  obtain ⟨b₂, -, hb⟩ := bind_eq_ok.mp h
  cases hb
  rw [List.length_append, ← Except.ok.inj (show .ok (toBE 32 d.txHash.toNat) = Except.ok b₁ from hhash),
    length_toBE]
  omega

theorem length_pos_of_serializeDeposit (h : serializeDeposit d = .ok b) : 0 < b.length := by
  obtain ⟨b₁, hfirst, h⟩ := bind_eq_ok.mp h
  obtain ⟨b₂, -, hb⟩ := bind_eq_ok.mp h
  cases hb
  rw [List.length_append]
  exact Nat.add_pos_left (length_pos_of_serializeDepositV0 hfirst) _

section

variable {ser : CrossShardTransactionDeposit → Serialized}
  {elem : Deserializer CrossShardTransactionDeposit}
  {g : CrossShardTransactionDeposit → CrossShardTransactionDeposit}
  {txList : List CrossShardTransactionDeposit}

/-- A list is read by the version that stands over its length. -/
theorem deposits_read (version : ℕ) (hlen : txList.length < 2 ^ 24) (hversion : version < 2 ^ 8)
    (hser : ∀ d b, ser d = .ok b → 0 < b.length)
    (helem : deserializeDeposits txList.length version = deserializeElems elem txList.length)
    (hsends : ∀ d ∈ txList, ∀ b, ser d = .ok b → Sends (ser d) elem (g d))
    (h : joined (txList.map ser) = .ok b) :
    deserializeFromBytes deserializeDepositList (toBE 4 (version * 2 ^ 24 + txList.length) ++ b) =
        .ok (txList.map g) ∧
      depositListVersion (toBE 4 (version * 2 ^ 24 + txList.length) ++ b) = .ok version := by
  have hall := List.forall_mem_map.mp (joined_ok h)
  have helems := sends_elems fun d hd => (hall d hd).elim (hsends d hd)
  rw [← helem] at helems
  have hguarded := helems.guarded fun b => length_le_joined hser
  generalize hsize : version * 2 ^ 24 + txList.length = size
  have hlt : size < 256 ^ 4 := by omega
  obtain ⟨hmod, hdiv⟩ : size % 2 ^ 24 = txList.length ∧ size / 2 ^ 24 = version := by omega
  constructor
  · rw [← hmod, ← hdiv] at hguarded
    obtain ⟨b', hb', hread⟩ := (Sends.bind (sends_uint hlt)
      (f := fun size => deserializeGuarded (size % 2 ^ 24) (size / 2 ^ 24)) hguarded).deserializeFromBytes
    rw [joined, h] at hb'
    cases hb'
    exact hread
  · obtain ⟨_, hb, hread⟩ := (sends_uint hlt).map (· / 2 ^ 24)
    cases hb
    have hread := hread [] b
    rw [List.nil_append, hdiv] at hread
    exact congrArg (Except.map Prod.fst) hread

theorem serializeList_ok (hlen : txList.length < 2 ^ 24) (h : serializeList ser txList = .ok b) :
    ∃ bytes, joined (txList.map ser) = .ok bytes ∧ toBE 4 txList.length ++ bytes = b := by
  have hwrite : writeListLen txList.length 4 = .ok (toBE 4 txList.length) :=
    writeListLen_ok (by decide) (hlen.trans (by decide))
  obtain ⟨len, hlen, h⟩ := bind_eq_ok.mp h
  obtain ⟨bytes, hbytes, hb⟩ := bind_eq_ok.mp h
  cases hwrite.symm.trans hlen
  exact ⟨bytes, hbytes, Except.ok.inj hb⟩

end

/-- **Lists of deposits.**  What is written of a list is read back, with the refund rates; what the format of
version `0` has of it is read with the rate `100`; and each is read as the version it was written in. -/
theorem depositList_roundTrip {txList : List CrossShardTransactionDeposit} (hlen : txList.length < 2 ^ 24)
    (ht : ∀ d ∈ txList, InRange d) :
    (∀ b, serializeDepositList txList = .ok b →
      deserializeFromBytes deserializeDepositList b = .ok txList ∧ depositListVersion b = .ok 1) ∧
    ∀ b, serializeList serializeDepositV0 txList = .ok b →
      deserializeFromBytes deserializeDepositList b =
          .ok (txList.map fun d => { d with refundRate := 100 }) ∧ depositListVersion b = .ok 0 := by
  constructor
  · intro b h
    obtain ⟨_, h, hb⟩ := bind_eq_ok.mp h
    obtain ⟨bytes, hbytes, rfl⟩ := serializeList_ok hlen h
    cases hb
    have hread := deposits_read (g := id) 1 hlen (by decide) (fun _ _ => length_pos_of_serializeDeposit) rfl
      (fun d hd _ => sends_deposit (ht d hd)) hbytes
    rwa [← set_toBE hlen, List.map_id] at hread
  · intro b h
    obtain ⟨bytes, hbytes, rfl⟩ := serializeList_ok hlen h
    have hread := deposits_read 0 hlen (by decide) (fun _ _ => length_pos_of_serializeDepositV0) rfl
      (fun d hd _ hd' => (sends_depositV0 (ht d hd) hd').map fun d => { d with refundRate := 100 }) hbytes
    rwa [Nat.zero_mul, Nat.zero_add] at hread

def sampleDeposit : CrossShardTransactionDeposit :=
  ⟨7, ⟨1, 2⟩, ⟨3, 4⟩, 5, 1, 3, 3, false, 0, [1], true, 40⟩

theorem sampleDeposit_roundTrip : ∃ b, serializeDepositList [sampleDeposit] = .ok b ∧
    deserializeFromBytes deserializeDepositList b = .ok [sampleDeposit] := by
  have hranges : ∀ d ∈ [sampleDeposit], InRange d := by
    simp only [List.mem_singleton, forall_eq]
    constructor <;> decide
  exact ⟨_, rfl, ((depositList_roundTrip (by decide) hranges).1 _ rfl).1⟩

end QuarkChain.P2p
