/-
# What a transaction signs

`src/core/types/transaction_signing.go`, the signing hashes of `transaction.go` and the typed data of
`solidity_abi_utils.go`.  A transaction has a version, and each version signs other fields:

| version | what is hashed | network | shard keys |
| --- | --- | --- | --- |
| `0` | RLP list of eleven fields | signed | signed |
| `1` | tightly packed typed data | signed | signed |
| `2` | RLP list of nine fields (EIP-155) | signed as the chain id | not signed |

An RLP list of strings is represented by the strings.  The hashes and the recovery of an address from a
signature are parameters (`Crypto`); the checks around them are those of the source.  The source caches
the sender in the transaction; the cache is not modelled.
-/
import QuarkChain.Core.Types
import QuarkChain.Lib.Bytes

namespace QuarkChain.Core

open Account Config QuarkChain.Types State Bytes

/-- What is hashed for a signature. -/
inductive SignedMessage
  | rlp (strings : List (List UInt8))
  | typed (packed : List UInt8)
deriving DecidableEq

/-- The cryptographic functions: the hash of a message (`rlpHash`, `typedSignatureHash`), and
`crypto.Ecrecover` with the address of the public key it gives. -/
structure Crypto where
  hash : SignedMessage → Hash
  ecrecover : (sighash : Hash) → (v r s : ℕ) → Option Recipient

def recipientString : Option Recipient → List UInt8
  | none => []
  | some a => toBE 20 a.toNat

def signedFields (tx : EvmTransaction) : List (List UInt8) :=
  [minBE tx.nonce, minBE tx.gasPrice, minBE tx.gas.toNat, recipientString tx.to, minBE tx.value, tx.data]

/-- `getUnsignedHash`: the fields of `txdataUnsigned`.  A `Uint32` is four bytes long. -/
def unsignedFields (tx : EvmTransaction) : List (List UInt8) :=
  signedFields tx ++
    [minBE tx.networkId, toBE 4 tx.fromFullShardKey, toBE 4 tx.toFullShardKey, minBE tx.gasTokenID,
      minBE tx.transferTokenID]

def eip155Fields (tx : EvmTransaction) (chainId : ℕ) : List (List UInt8) :=
  signedFields tx ++ [minBE chainId, minBE 0, minBE 0]

def packUint (size n : ℕ) : Option (List UInt8) :=
  if size < (minBE n).length then none else some (toBE size n)

def typedHead (tx : EvmTransaction) : Option (List UInt8) := do
  let nonce ← packUint 32 tx.nonce
  let gasPrice ← packUint 32 tx.gasPrice
  let gasLimit ← packUint 32 tx.gas.toNat
  let value ← packUint 32 tx.value
  some (nonce ++ gasPrice ++ gasLimit ++ toBE 20 (tx.to.elim 0 BitVec.toNat) ++ value)

def qkcDomain : List UInt8 := [98, 111, 116, 116, 111, 109, 45, 113, 117, 97, 114, 107]

def typedTail (tx : EvmTransaction) : Option (List UInt8) := do
  let networkId ← packUint 32 tx.networkId
  let fromFullShardKey ← packUint 4 tx.fromFullShardKey
  let toFullShardKey ← packUint 4 tx.toFullShardKey
  let gasTokenId ← packUint 8 tx.gasTokenID
  let transferTokenId ← packUint 8 tx.transferTokenID
  some (networkId ++ (fromFullShardKey ++ (toFullShardKey ++ (gasTokenId ++ (transferTokenId ++
    qkcDomain)))))

/-- `solidityPack` of `evmTxToTypedData`; the schema is the same for all transactions. -/
def typedData (tx : EvmTransaction) : Option (List UInt8) := do
  let head ← typedHead tx
  let tail ← typedTail tx
  some (head ++ tx.data ++ tail)

def secp256k1N : ℕ := 0xfffffffffffffffffffffffffffffffebaaedce6af48a03bbfd25e8cd0364141

def validateSignatureValues (v r s : ℕ) : Bool :=
  1 ≤ r && 1 ≤ s && s ≤ secp256k1N / 2 && r < secp256k1N && s < secp256k1N && (v == 0 || v == 1)

def recoverPlain (crypto : Crypto) (sighash : Hash) (r s : ℕ) (vb : ℤ) : Option Recipient :=
  if 8 < Nat.size vb.natAbs then none
  else
    let v := (vb.natAbs + 2 ^ 64 - 27) % 2 ^ 8
    if !validateSignatureValues v r s then none else crypto.ecrecover sighash v r s

def EvmTransaction.recover (crypto : Crypto) (tx : EvmTransaction) (r s networkId : ℕ) : Option Recipient :=
  if tx.version ≠ 2 ∧ tx.networkId ≠ networkId then none
  else if tx.version = 0 then
    recoverPlain crypto (crypto.hash (.rlp (unsignedFields tx))) r s tx.v
  else if tx.version = 1 then
    match typedData tx with
    | none => none
    | some packed => recoverPlain crypto (crypto.hash (.typed packed)) r s tx.v
  else if tx.version = 2 then
    recoverPlain crypto (crypto.hash (.rlp (eip155Fields tx tx.networkId))) r s
      (tx.v - tx.networkId * 2 - 8)
  else none

variable {crypto : Crypto} {l : List UInt8} {a : Recipient} {r s : ℕ}

theorem EvmTransaction.recover_version0 {tx : EvmTransaction}
    (h : tx.version = 0) : tx.recover crypto r s tx.networkId =
      recoverPlain crypto (crypto.hash (.rlp (unsignedFields tx))) r s tx.v := by
  simp [recover, h]

theorem EvmTransaction.recover_version2 {crypto : Crypto} {tx : EvmTransaction} {r s networkId : ℕ}
    (h : tx.version = 2) : tx.recover crypto r s networkId =
      recoverPlain crypto (crypto.hash (.rlp (eip155Fields tx tx.networkId))) r s
        (tx.v - tx.networkId * 2 - 8) := by
  simp [recover, h]

def EvmTransaction.message (tx : EvmTransaction) : Option SignedMessage :=
  if tx.version = 0 then some (.rlp (unsignedFields tx))
  else if tx.version = 1 then (typedData tx).map .typed
  else if tx.version = 2 then some (.rlp (eip155Fields tx tx.networkId))
  else none

def EvmTransaction.plainV (tx : EvmTransaction) : ℤ :=
  if tx.version = 2 then tx.v - tx.networkId * 2 - 8 else tx.v

theorem EvmTransaction.recover_eq_some {tx : EvmTransaction} {networkId : ℕ}
    (h : tx.recover crypto r s networkId = some a) :
    ∃ m, tx.message = some m ∧ recoverPlain crypto (crypto.hash m) r s tx.plainV = some a := by
  unfold recover at h
  unfold message plainV
  split_ifs at h ⊢ with hnet h0 h1 h2 h0' h1'
  all_goals first | omega | skip
  · exact ⟨_, rfl, h⟩
  · cases hp : typedData tx with
    | none =>
      rw [hp] at h
      cases h
    | some packed =>
      rw [hp] at h
      exact ⟨_, rfl, h⟩
  · exact ⟨_, rfl, h⟩

theorem recoverPlain_eq_some {sighash : Hash} {vb : ℤ}
    (h : recoverPlain crypto sighash r s vb = some a) :
    (vb.natAbs = 27 ∨ vb.natAbs = 28) ∧ crypto.ecrecover sighash (vb.natAbs - 27) r s = some a := by
  unfold recoverPlain at h
  split at h
  · cases h
  next hsize =>
    have hlt : vb.natAbs < 2 ^ 8 := Nat.size_le.mp (Nat.not_lt.mp hsize)
    simp only [Bool.not_eq_true'] at h
    split at h
    · cases h
    next hinvalid =>
      simp only [validateSignatureValues, Bool.not_eq_false, Bool.and_eq_true, Bool.or_eq_true,
        beq_iff_eq] at hinvalid
      have hv := hinvalid.2
      have hsub : (vb.natAbs + 2 ^ 64 - 27) % 2 ^ 8 = vb.natAbs - 27 := by omega
      rw [hsub] at h
      exact ⟨by omega, h⟩

/-! ### What a message determines -/

theorem packUint_eq_some {size n : ℕ} (h : packUint size n = some l) :
    l = toBE size n ∧ n < 256 ^ size := by
  unfold packUint at h
  split_ifs at h with hsize
  refine ⟨(Option.some.inj h).symm, ?_⟩
  have hwidth : width n ≤ size := by
    have hlen : (minBE n).length = width n := length_toBE _ _
    omega
  exact Nat.lt_of_lt_of_le (lt_pow_width n) (Nat.pow_le_pow_right (by decide) hwidth)

theorem typedTail_eq_some {tx : EvmTransaction} (h : typedTail tx = some l) :
    tx.fromFullShardKey < 256 ^ 4 ∧ ∃ rest : List UInt8, rest.length = 32 ∧
        l = toBE 32 tx.networkId ++ (toBE 4 tx.fromFullShardKey ++ rest) := by
  unfold typedTail at h
  simp only [Option.bind_eq_bind, Option.bind_eq_some_iff, Option.some.injEq] at h
  obtain ⟨network, hnetwork, fromKey, hfrom, toKey, hto, gasToken, hgas, transferToken, htransfer,
    rfl⟩ := h
  obtain ⟨hfrom, hlt⟩ := packUint_eq_some hfrom
  rw [(packUint_eq_some hnetwork).1, hfrom]
  refine ⟨hlt, _, ?_, rfl⟩
  rw [(packUint_eq_some hto).1, (packUint_eq_some hgas).1, (packUint_eq_some htransfer).1]
  simp only [List.length_append, length_toBE, qkcDomain, List.length_cons, List.length_nil]

variable {tx tx' : EvmTransaction}

/-- Typed data determine the source shard key: all that comes after the payload has a fixed length. -/
theorem fromFullShardKey_of_typedData {packed : List UInt8}
    (h : typedData tx = some packed) (h' : typedData tx' = some packed) :
    tx.fromFullShardKey = tx'.fromFullShardKey := by
  simp only [typedData, Option.bind_eq_bind, Option.bind_eq_some_iff, Option.some.injEq] at h h'
  obtain ⟨head, -, tail, htail, hpacked⟩ := h
  obtain ⟨head', -, tail', htail', hpacked'⟩ := h'
  obtain ⟨hlt, rest, hlen, hbytes⟩ := typedTail_eq_some htail
  obtain ⟨hlt', rest', hlen', hbytes'⟩ := typedTail_eq_some htail'
  have hlens : tail.length = tail'.length := by
    simp only [hbytes, hbytes', List.length_append, length_toBE, hlen, hlen']
  have htails := (List.append_inj' (hpacked.trans hpacked'.symm) hlens).2
  rw [hbytes, hbytes'] at htails
  have hkeys := (List.append_inj htails (by simp only [length_toBE])).2
  exact toBE_inj hlt hlt' (List.append_inj hkeys (by simp only [length_toBE])).1

theorem fromFullShardKey_of_unsignedFields
    (h : unsignedFields tx = unsignedFields tx') (hkey : tx.fromFullShardKey < 2 ^ 32)
    (hkey' : tx'.fromFullShardKey < 2 ^ 32) : tx.fromFullShardKey = tx'.fromFullShardKey := by
  have hfields := (List.append_inj h rfl).2
  simp only [List.cons.injEq] at hfields
  exact toBE_inj hkey hkey' hfields.2.1

theorem chainId_of_eip155Fields {chainId chainId' : ℕ}
    (h : eip155Fields tx chainId = eip155Fields tx' chainId') : chainId = chainId' := by
  have hfields := (List.append_inj h rfl).2
  simp only [List.cons.injEq] at hfields
  exact minBE_inj hfields.1

theorem unsignedFields_ne_eip155Fields (tx tx' : EvmTransaction) (chainId : ℕ) :
    unsignedFields tx ≠ eip155Fields tx' chainId := by
  intro h
  have hlen := congrArg List.length h
  simp [unsignedFields, eip155Fields, signedFields] at hlen

/-- **What the message determines.**  Of two transactions that sign the same message both or none are
of version 2; if none is, they have the same source shard key, and if both are, the same network id. -/
theorem message_determines {m : SignedMessage} (h : tx.message = some m)
    (h' : tx'.message = some m) (hkey : tx.fromFullShardKey < 2 ^ 32)
    (hkey' : tx'.fromFullShardKey < 2 ^ 32) :
    (tx.version ≠ 2 ∧ tx'.version ≠ 2 ∧ tx.fromFullShardKey = tx'.fromFullShardKey) ∨
      (tx.version = 2 ∧ tx'.version = 2 ∧ tx.networkId = tx'.networkId) := by
  have hm := h.trans h'.symm
  unfold EvmTransaction.message at hm h h'
  split_ifs at hm h h' with h0 h0' h1' h2' h1 h0' h1' h2' h2 h0' h1' h2'
  · have hfields := SignedMessage.rlp.inj (Option.some.inj hm)
    exact .inl ⟨by omega, by omega, fromFullShardKey_of_unsignedFields hfields hkey hkey'⟩
  · cases hp : typedData tx' <;> simp [hp] at hm
  · exact absurd (SignedMessage.rlp.inj (Option.some.inj hm)) (unsignedFields_ne_eip155Fields _ _ _)
  · cases hp : typedData tx <;> simp [hp] at hm
  · rw [Option.map_eq_some_iff] at h h'
    obtain ⟨packed, hp, rfl⟩ := h
    obtain ⟨packed', hp', htyped⟩ := h'
    rw [SignedMessage.typed.inj htyped] at hp'
    exact .inl ⟨by omega, by omega, fromFullShardKey_of_typedData hp hp'⟩
  · cases hp : typedData tx <;> simp [hp] at hm
  · exact absurd (SignedMessage.rlp.inj (Option.some.inj hm.symm))
      (unsignedFields_ne_eip155Fields _ _ _)
  · cases hp : typedData tx' <;> simp [hp] at hm
  · exact .inr ⟨h2, h2', chainId_of_eip155Fields (SignedMessage.rlp.inj (Option.some.inj hm))⟩

end QuarkChain.Core
