/-
# The caches of a transaction

`src/core/types/transaction.go` and `transaction_signing.go`: an `EvmTransaction` keeps its hash and its
sender once they have been asked for.  `Hash` returns the kept hash unless the flag `updated` is set; `Sender`
returns the kept sender if it was derived for the same signer, and does not look at the flag.

| setter | sets `updated` | the kept hash | the kept sender |
| --- | --- | --- | --- |
| `SetGas`, `SetNonce`, `SetVRS` | yes | not used again | stays |
| `SetFromFullShardKey` | no | stays | stays |
| `SetSender` | no | stays | replaced |

RLP lists are represented by their strings; a negative number has no RLP, and then nothing is hashed.  The
hashes and the recovery of a public key are parameters.
-/
import QuarkChain.Core.Signing
import QuarkChain.Tx.TypedData

namespace QuarkChain.Tx

open Account Bytes QuarkChain.Types

/-- The cryptographic functions: `rlpHash` of what was written, `sha3_256`, and `crypto.Ecrecover` with the
address of the key that it gives. -/
structure Crypto where
  rlpHash : Option (List (List UInt8)) → Hash
  sha3_256 : List UInt8 → Hash
  ecrecover : (sighash : Hash) → (v r s : ℕ) → Option Recipient

def bigString (n : ℤ) : Option (List UInt8) := if n < 0 then none else some (minBE n.toNat)

def TxData.callStrings (tx : TxData) : Option (List (List UInt8)) := do
  let price ← bigString tx.price
  let amount ← bigString tx.amount
  some [minBE tx.accountNonce.toNat, price, minBE tx.gasLimit.toNat, Core.recipientString tx.recipient, amount,
    tx.payload]

/-- The fields of `txdataUnsigned` (`getUnsignedHash`).  A `Uint32` is four bytes long. -/
def TxData.unsignedStrings (tx : TxData) : Option (List (List UInt8)) := do
  let call ← tx.callStrings
  some (call ++ [minBE tx.networkId.toNat, toBE 4 tx.fromFullShardKey.toNat, toBE 4 tx.toFullShardKey.toNat,
    minBE tx.gasTokenID.toNat, minBE tx.transferTokenID.toNat])

def TxData.eip155Strings (tx : TxData) (chainId : UInt32) : Option (List (List UInt8)) := do
  let call ← tx.callStrings
  some (call ++ [minBE chainId.toNat, minBE 0, minBE 0])

def TxData.strings (tx : TxData) : Option (List (List UInt8)) := do
  let unsigned ← tx.unsignedStrings
  let v ← bigString tx.v
  let r ← bigString tx.r
  let s ← bigString tx.s
  some (unsigned ++ [minBE tx.version.toNat, v, r, s])

inductive SenderError
  | invalidNetworkId
  | invalidSig
  | invalidPublicKey
  | pack (e : PackError)
  | version (v : UInt32)
deriving DecidableEq

structure EIP155Signer where
  networkId : UInt32
deriving DecidableEq

structure SigCache where
  signer : EIP155Signer
  sender : Recipient
deriving DecidableEq

/-- `EvmTransaction`, without the cached size. -/
structure EvmTransaction where
  data : TxData
  updated : Bool
  hashCache : Option Hash
  fromCache : Option SigCache
  fromShardsize : UInt32
  toShardsize : UInt32

def newEvmTransaction (data : TxData) : EvmTransaction := ⟨data, false, none, none, 0, 0⟩

namespace EvmTransaction

def setGas (e : EvmTransaction) (data : UInt64) : EvmTransaction :=
  { e with data := { e.data with gasLimit := data }, updated := true }

/-- `SetFromFullShardKey`, which does not set `updated`. -/
def setFromFullShardKey (e : EvmTransaction) (data : UInt32) : EvmTransaction :=
  { e with data := { e.data with fromFullShardKey := data } }

def setNonce (e : EvmTransaction) (data : UInt64) : EvmTransaction :=
  { e with data := { e.data with accountNonce := data }, updated := true }

def setVRS (e : EvmTransaction) (v r s : ℤ) : EvmTransaction :=
  { e with data := { e.data with v := v, r := r, s := s }, updated := true }

def setSender (e : EvmTransaction) (addr : Recipient) : EvmTransaction :=
  { e with fromCache := some ⟨⟨e.data.networkId⟩, addr⟩ }

def usable (shardSize : UInt32) : Bool := isP2 shardSize.toNat && shardSize != 0

/-- `SetFromShardSize`; an unusable size is an error and leaves the transaction as it is. -/
def setFromShardSize (e : EvmTransaction) (shardSize : UInt32) : EvmTransaction :=
  if usable shardSize then { e with fromShardsize := shardSize } else e

def setToShardSize (e : EvmTransaction) (shardSize : UInt32) : EvmTransaction :=
  if usable shardSize then { e with toShardsize := shardSize } else e

end EvmTransaction

variable (crypto : Crypto)

def EvmTransaction.hash (tx : EvmTransaction) : Hash × EvmTransaction :=
  match tx.hashCache, tx.updated with
  | some hash, false => (hash, tx)
  | _, _ =>
      let v := crypto.rlpHash tx.data.strings
      (v, { tx with hashCache := some v })

def recoverPlain (sighash : Hash) (r s vb : ℤ) : Except SenderError Recipient :=
  if 8 < Nat.size vb.natAbs then .error .invalidSig
  else
    let v := (vb.natAbs + 2 ^ 64 - 27) % 2 ^ 8
    if !Core.validateSignatureValues v r.toNat s.toNat then .error .invalidSig
    else
      match crypto.ecrecover sighash v r.toNat s.toNat with
      | none => .error .invalidPublicKey
      | some addr => .ok addr

def EIP155Signer.sender (s : EIP155Signer) (tx : TxData) : Except SenderError Recipient :=
  if tx.version ≠ 2 ∧ tx.networkId ≠ s.networkId then .error .invalidNetworkId
  else if tx.version = 0 then recoverPlain crypto (crypto.rlpHash tx.unsignedStrings) tx.r tx.s tx.v
  else if tx.version = 1 then
    match tx.typedHash crypto.sha3_256 with
    | .error e => .error (.pack e)
    | .ok hashTyped => recoverPlain crypto hashTyped tx.r tx.s tx.v
  else if tx.version = 2 then
    recoverPlain crypto (crypto.rlpHash (tx.eip155Strings tx.networkId)) tx.r tx.s
      (tx.v - tx.networkId.toNat * 2 - 8)
  else .error (.version tx.version)

/-! ### The sender without caches

`Core.Signing` has the same functions over the transactions that a block executes, whose numbers are natural and
whose typed data are packed at once. -/

/-- The hashes of messages as `Core.Signing` asks for them. -/
def Crypto.core : Core.Crypto where
  hash
    | .rlp strings => crypto.rlpHash (some strings)
    | .typed packed => crypto.sha3_256
        (toBE 32 (crypto.sha3_256 schemaBytes).toNat ++ toBE 32 (crypto.sha3_256 packed).toNat)
  ecrecover := crypto.ecrecover

/-- The fields of a transaction are those of an executed one. -/
structure Represents (tx : TxData) (c : Core.EvmTransaction) : Prop where
  nonce : c.nonce = tx.accountNonce.toNat
  price : (c.gasPrice : ℤ) = tx.price
  gas : c.gas = tx.gasLimit
  recipient : c.to = tx.recipient
  amount : (c.value : ℤ) = tx.amount
  payload : c.data = tx.payload
  networkId : c.networkId = tx.networkId.toNat
  fromFullShardKey : c.fromFullShardKey = tx.fromFullShardKey.toNat
  toFullShardKey : c.toFullShardKey = tx.toFullShardKey.toNat
  gasTokenID : c.gasTokenID = tx.gasTokenID.toNat
  transferTokenID : c.transferTokenID = tx.transferTokenID.toNat
  version : c.version = tx.version.toNat
  v : c.v = tx.v

section Represents

variable {crypto} {tx : TxData} {c : Core.EvmTransaction}

theorem bigString_natCast (n : ℕ) : bigString n = some (minBE n) := by
  rw [bigString, if_neg (by omega), Int.toNat_natCast]

theorem recoverPlain_toOption (sighash : Hash) (r s vb : ℤ) :
    (recoverPlain crypto sighash r s vb).toOption =
      Core.recoverPlain crypto.core sighash r.toNat s.toNat vb := by
  unfold recoverPlain Core.recoverPlain
  split_ifs
  · rfl
  dsimp only
  split_ifs
  · rfl
  · change _ = crypto.ecrecover _ _ _ _
    split <;> rename_i hrec <;> rw [hrec] <;> rfl

theorem packUint_eq (size n : ℕ) :
    Core.packUint size n = if n < 256 ^ size then some (toBE size n) else none := by
  have hlen : (minBE n).length = width n := length_toBE _ _
  rw [Core.packUint, hlen]
  by_cases hn : n < 256 ^ size
  · rw [if_neg (Nat.not_lt.mpr (width_le_iff.mpr hn)), if_pos hn]
  · rw [if_pos (Nat.lt_of_not_le fun hle => hn (width_le_iff.mp hle)), if_neg hn]

theorem typedHash_eq (sha3_256 : List UInt8 → Hash) (tx : TxData) :
    tx.typedHash sha3_256 = if tx.Fits then
      .ok (sha3_256 (toBE 32 (sha3_256 schemaBytes).toNat ++ toBE 32 (sha3_256 tx.packed).toNat))
    else .error .dataTooLarge := by
  rw [TxData.typedHash, typedSignatureHash]
  split_ifs with hf
  · rw [signedBytes_eq sha3_256 tx hf]
    change Except.ok (BitVec.ofNat 256 (ofBE (fromHex (encode _)))) = _
    rw [fromHex_encode, ofBE_toBE, show 256 ^ 32 = 2 ^ 256 by decide, Nat.mod_eq_of_lt (BitVec.isLt _), BitVec.ofNat_toNat, BitVec.setWidth_eq]
  · rw [signedBytes_large sha3_256 tx hf]
    rfl

namespace Represents

variable (h : Represents tx c)
include h

theorem callStrings : tx.callStrings = some (Core.signedFields c) := by
  rw [TxData.callStrings, ← h.price, ← h.amount, bigString_natCast, bigString_natCast, ← h.nonce, ← h.gas,
    ← h.recipient, ← h.payload]
  rfl

theorem unsignedStrings : tx.unsignedStrings = some (Core.unsignedFields c) := by
  rw [TxData.unsignedStrings, h.callStrings, ← h.networkId, ← h.fromFullShardKey, ← h.toFullShardKey,
    ← h.gasTokenID, ← h.transferTokenID]
  rfl

theorem eip155Strings : tx.eip155Strings tx.networkId = some (Core.eip155Fields c c.networkId) := by
  rw [TxData.eip155Strings, h.callStrings, h.networkId]
  rfl

theorem typedData : Core.typedData c = if tx.Fits then some tx.packed else none := by
  have hnat : tx.price.natAbs = c.gasPrice ∧ tx.amount.natAbs = c.value := by
    rw [← h.price, ← h.amount]
    exact ⟨Int.natAbs_natCast _, Int.natAbs_natCast _⟩
  have hfits : tx.Fits ↔ c.gasPrice < 256 ^ 32 ∧ c.value < 256 ^ 32 := by rw [TxData.Fits, hnat.1, hnat.2]
  have hword : ∀ n : UInt64, Core.packUint 32 n.toNat = some (toBE 32 n.toNat) :=
    fun n => (packUint_eq 32 _).trans (if_pos (toNat_lt_word n))
  have hlong : ∀ n : UInt64, Core.packUint 8 n.toNat = some (toBE 8 n.toNat) :=
    fun n => (packUint_eq 8 _).trans (if_pos n.toNat_lt)
  have hkey : ∀ n : UInt32, Core.packUint 4 n.toNat = some (toBE 4 n.toNat) :=
    fun n => (packUint_eq 4 _).trans (if_pos n.toNat_lt)
  have htail : Core.typedTail c = some (toBE 32 tx.networkId.toNat ++ (toBE 4 tx.fromFullShardKey.toNat ++
      (toBE 4 tx.toFullShardKey.toNat ++ (toBE 8 tx.gasTokenID.toNat ++ (toBE 8 tx.transferTokenID.toNat ++
        textBytes "bottom-quark".toList))))) := by
    rw [Core.typedTail, h.networkId, (packUint_eq 32 _).trans (if_pos (toNat_lt_word32 _)), h.fromFullShardKey,
      h.toFullShardKey, hkey, hkey, h.gasTokenID, h.transferTokenID, hlong, hlong]
    rfl
  rw [Core.typedData, htail, Core.typedHead, h.nonce, h.gas, hword, hword, packUint_eq, packUint_eq]
  by_cases hp : c.gasPrice < 256 ^ 32
  · by_cases hv : c.value < 256 ^ 32
    · rw [if_pos hp, if_pos hv, if_pos (hfits.mpr ⟨hp, hv⟩), TxData.packed, hnat.1, hnat.2, ← h.recipient,
        ← h.payload]
      simp only [bind, Option.bind, List.append_assoc]
    · rw [if_pos hp, if_neg hv, if_neg fun hf => hv (hfits.mp hf).2]
      rfl
  · rw [if_neg hp, if_neg fun hf => hp (hfits.mp hf).1]
    rfl

/-- **The two models of the sender agree.** -/
theorem recover (signer : EIP155Signer) :
    c.recover crypto.core tx.r.toNat tx.s.toNat signer.networkId.toNat =
      (signer.sender crypto tx).toOption := by
  have hversion : ∀ k : UInt32, c.version = k.toNat ↔ tx.version = k := by
    intro k
    rw [h.version, UInt32.toNat_inj]
  have h0 : c.version = 0 ↔ tx.version = 0 := hversion 0
  have h1 : c.version = 1 ↔ tx.version = 1 := hversion 1
  have h2 : c.version = 2 ↔ tx.version = 2 := hversion 2
  have hnetwork : c.networkId = signer.networkId.toNat ↔ tx.networkId = signer.networkId := by
    rw [h.networkId, UInt32.toNat_inj]
  unfold Core.EvmTransaction.recover EIP155Signer.sender
  simp only [h0, h1, Ne, h2, hnetwork]
  split_ifs
  · rfl
  · rw [recoverPlain_toOption, h.unsignedStrings, h.v]
    rfl
  · rw [h.typedData, typedHash_eq]
    split_ifs
    · exact (recoverPlain_toOption _ _ _ _).symm ▸ h.v ▸ rfl
    · rfl
  · rw [recoverPlain_toOption, h.eip155Strings, h.v, h.networkId]
    rfl
  · rfl

end Represents

end Represents

/-- The end of `Sender`, where the kept sender does not serve. -/
def deriveSender (signer : EIP155Signer) (tx : EvmTransaction) :
    Except SenderError Recipient × EvmTransaction :=
  match signer.sender crypto tx.data with
  | .error e => (.error e, tx)
  | .ok addr => (.ok addr, { tx with fromCache := some ⟨signer, addr⟩ })

def sender (signer : EIP155Signer) (tx : EvmTransaction) : Except SenderError Recipient × EvmTransaction :=
  match tx.fromCache with
  | some sigCache => if sigCache.signer = signer then (.ok sigCache.sender, tx) else deriveSender crypto signer tx
  | none => deriveSender crypto signer tx

inductive Setter
  | gas (data : UInt64)
  | fromFullShardKey (data : UInt32)
  | nonce (data : UInt64)
  | vrs (v r s : ℤ)
  | sender (addr : Recipient)
  | fromShardSize (shardSize : UInt32)
  | toShardSize (shardSize : UInt32)

def Setter.apply (e : EvmTransaction) : Setter → EvmTransaction
  | .gas data => e.setGas data
  | .fromFullShardKey data => e.setFromFullShardKey data
  | .nonce data => e.setNonce data
  | .vrs v r s => e.setVRS v r s
  | .sender addr => e.setSender addr
  | .fromShardSize shardSize => e.setFromShardSize shardSize
  | .toShardSize shardSize => e.setToShardSize shardSize

inductive Call
  | set (c : Setter)
  | hash
  | sender (signer : EIP155Signer)

/-- A transaction, and beside it the sender that was set last (which no function reads). -/
structure Session where
  tx : EvmTransaction
  explicit : Option Recipient

/-- The sender set by a call, or else the one set before. -/
def Setter.explicit (before : Option Recipient) : Setter → Option Recipient
  | .sender addr => some addr
  | _ => before

def Session.call (s : Session) : Call → Session
  | .set c => ⟨c.apply s.tx, c.explicit s.explicit⟩
  | .hash => { s with tx := (s.tx.hash crypto).2 }
  | .sender signer => { s with tx := (sender crypto signer s.tx).2 }

def Session.calls (s : Session) (cs : List Call) : Session := cs.foldl (Session.call crypto) s

def Session.new (data : TxData) : Session := ⟨newEvmTransaction data, none⟩

/-- Whatever is asked now is answered from the current fields: the hash of the fields, and for every signer
the address recovered from them or the sender that was set. -/
def Session.AnswersRight (s : Session) : Prop :=
  (s.tx.hash crypto).1 = crypto.rlpHash s.tx.data.strings ∧
    ∀ signer, (Tx.sender crypto signer s.tx).1 = signer.sender crypto s.tx.data ∨
      ∃ addr, s.explicit = some addr ∧ (Tx.sender crypto signer s.tx).1 = .ok addr

/-! ### What the caches hold -/

def HashKept (e : EvmTransaction) (data : TxData) : Prop :=
  e.updated = false → ∀ hash, e.hashCache = some hash → hash = crypto.rlpHash data.strings

/-- The kept sender was set, or is the one recovered from the fields `data`. -/
def SenderKept (s : Session) (data : TxData) : Prop :=
  ∀ c, s.tx.fromCache = some c → s.explicit = some c.sender ∨ c.signer.sender crypto data = .ok c.sender

theorem hash_eq_iff (e : EvmTransaction) :
    (e.hash crypto).1 = crypto.rlpHash e.data.strings ↔ HashKept crypto e e.data := by
  unfold EvmTransaction.hash HashKept
  rcases hc : e.hashCache with _ | hash
  · simp
  · cases hu : e.updated with
    | false => simp
    | true => simp

theorem deriveSender_fst (signer : EIP155Signer) (e : EvmTransaction) :
    (deriveSender crypto signer e).1 = signer.sender crypto e.data := by
  unfold deriveSender
  rcases signer.sender crypto e.data with err | addr
  · rfl
  · rfl

theorem sender_right_iff (s : Session) :
    (∀ signer, (Tx.sender crypto signer s.tx).1 = signer.sender crypto s.tx.data ∨
      ∃ addr, s.explicit = some addr ∧ (Tx.sender crypto signer s.tx).1 = .ok addr) ↔
      SenderKept crypto s s.tx.data := by
  unfold Tx.sender SenderKept
  rcases hc : s.tx.fromCache with _ | c
  · simp [deriveSender_fst]
  constructor
  · intro h c' hc'
    cases hc'
    have hown := h c.signer
    simp only [if_true] at hown
    rcases hown with hrec | ⟨addr, hexp, haddr⟩
    · exact .inr hrec.symm
    · rw [Except.ok.injEq] at haddr
      rw [haddr]
      exact .inl hexp
  · intro h signer
    by_cases hs : c.signer = signer
    · subst hs
      simp only [if_true]
      rcases h c rfl with hexp | hrec
      · exact .inr ⟨c.sender, hexp, rfl⟩
      · exact .inl hrec.symm
    · simp only [if_neg hs]
      exact .inl (deriveSender_fst crypto signer s.tx)

theorem answersRight_kept_iff (s : Session) :
    s.AnswersRight crypto ↔ HashKept crypto s.tx s.tx.data ∧ SenderKept crypto s s.tx.data := by
  unfold Session.AnswersRight
  rw [hash_eq_iff, sender_right_iff]

/-! ### One call -/

def Setter.marks : Setter → Bool
  | .gas _ | .nonce _ | .vrs _ _ _ => true
  | _ => false

def Setter.resets : Setter → Bool
  | .sender _ => true
  | _ => false

/-- A call keeps the answers right if it is a question, or a setter after which a kept hash that is still
used is the hash of the fields, and a kept sender that was not set is recovered from them. -/
def Session.Keeps (s : Session) : Call → Prop
  | .set c =>
      (c.marks = false → HashKept crypto s.tx (c.apply s.tx).data) ∧
        (c.resets = false → SenderKept crypto s (c.apply s.tx).data)
  | _ => True

theorem Setter.apply_caches (c : Setter) (e : EvmTransaction) :
    (c.apply e).hashCache = e.hashCache ∧ (c.apply e).updated = (c.marks || e.updated) ∧
      (c.resets = false → (c.apply e).fromCache = e.fromCache ∧ ∀ b, c.explicit b = b) := by
  cases c with
  | fromShardSize shardSize =>
    by_cases h : EvmTransaction.usable shardSize
    · simp [apply, EvmTransaction.setFromShardSize, h, marks, Setter.explicit]
    · simp [apply, EvmTransaction.setFromShardSize, h, marks, Setter.explicit]
  | toShardSize shardSize =>
    by_cases h : EvmTransaction.usable shardSize
    · simp [apply, EvmTransaction.setToShardSize, h, marks, Setter.explicit]
    · simp [apply, EvmTransaction.setToShardSize, h, marks, Setter.explicit]
  | sender addr => exact ⟨rfl, rfl, fun h => by cases h⟩
  | gas data => exact ⟨rfl, rfl, fun _ => ⟨rfl, fun _ => rfl⟩⟩
  | fromFullShardKey data => exact ⟨rfl, rfl, fun _ => ⟨rfl, fun _ => rfl⟩⟩
  | nonce data => exact ⟨rfl, rfl, fun _ => ⟨rfl, fun _ => rfl⟩⟩
  | vrs v r s => exact ⟨rfl, rfl, fun _ => ⟨rfl, fun _ => rfl⟩⟩

theorem hashKept_set (c : Setter) (e : EvmTransaction) :
    HashKept crypto (c.apply e) (c.apply e).data ↔ (c.marks = false → HashKept crypto e (c.apply e).data) := by
  obtain ⟨hhash, hupdated, -⟩ := c.apply_caches e
  unfold HashKept
  rw [hhash, hupdated]
  cases c.marks with
  | false => simp
  | true => simp

theorem senderKept_set (c : Setter) (s : Session) :
    SenderKept crypto (s.call crypto (.set c)) (c.apply s.tx).data ↔
      (c.resets = false → SenderKept crypto s (c.apply s.tx).data) := by
  obtain ⟨-, -, hfrom⟩ := c.apply_caches s.tx
  cases hr : c.resets with
  | false =>
    obtain ⟨hcache, hexp⟩ := hfrom hr
    simp only [forall_const]
    unfold SenderKept Session.call
    simp only [hcache, hexp]
  | true =>
    cases c with
    | sender addr =>
      refine iff_of_true (fun c' hc' => .inl ?_) (fun h => by cases h)
      cases hc'
      rfl
    | gas data => cases hr
    | fromFullShardKey data => cases hr
    | nonce data => cases hr
    | vrs v r s => cases hr
    | fromShardSize shardSize => cases hr
    | toShardSize shardSize => cases hr

variable {s : Session}

theorem answersRight_hash (h : s.AnswersRight crypto) :
    (s.call crypto .hash).AnswersRight crypto := by
  rw [answersRight_kept_iff] at h ⊢
  unfold Session.call EvmTransaction.hash
  rcases hc : s.tx.hashCache with _ | hash
  · exact ⟨fun _ hash' hh => (Option.some.inj hh).symm, h.2⟩
  · cases hu : s.tx.updated with
    | false => exact h
    | true => exact ⟨fun _ hash' hh => (Option.some.inj hh).symm, h.2⟩

theorem answersRight_sender (signer : EIP155Signer) (h : s.AnswersRight crypto) :
    (s.call crypto (.sender signer)).AnswersRight crypto := by
  rw [answersRight_kept_iff] at h ⊢
  have hderive : HashKept crypto (deriveSender crypto signer s.tx).2 (deriveSender crypto signer s.tx).2.data ∧
      SenderKept crypto { s with tx := (deriveSender crypto signer s.tx).2 }
        (deriveSender crypto signer s.tx).2.data := by
    unfold deriveSender
    rcases hrec : signer.sender crypto s.tx.data with err | addr
    · exact h
    · refine ⟨h.1, fun c hc => .inr ?_⟩
      cases hc
      exact hrec
  unfold Session.call Tx.sender
  rcases hc : s.tx.fromCache with _ | c
  · exact hderive
  by_cases hs : c.signer = signer
  · simp only [if_pos hs]
    exact h
  · simp only [if_neg hs]
    exact hderive

/-- **One call.**  From right answers a call leads to right answers exactly when it keeps them. -/
theorem answersRight_call_iff (h : s.AnswersRight crypto) (c : Call) :
    (s.call crypto c).AnswersRight crypto ↔ s.Keeps crypto c := by
  cases c with
  | set c =>
    rw [answersRight_kept_iff]
    exact and_congr (hashKept_set crypto c s.tx) (senderKept_set crypto c s)
  | hash => exact iff_of_true (answersRight_hash crypto h) trivial
  | sender signer => exact iff_of_true (answersRight_sender crypto signer h) trivial

def Session.AllKeep (s : Session) : List Call → Prop
  | [] => True
  | c :: cs => s.Keeps crypto c ∧ (s.call crypto c).AllKeep cs

theorem answersRight_calls_iff (cs : List Call) (s : Session) (h : s.AnswersRight crypto) :
    (∀ pre post, cs = pre ++ post → (s.calls crypto pre).AnswersRight crypto) ↔ s.AllKeep crypto cs := by
  induction cs generalizing s with
  | nil =>
    refine iff_of_true (fun pre post hsplit => ?_) trivial
    rw [(List.append_eq_nil_iff.mp hsplit.symm).1]
    exact h
  | cons c cs ih =>
    constructor
    · intro hall
      have hstep : (s.call crypto c).AnswersRight crypto := hall [c] cs rfl
      refine ⟨(answersRight_call_iff crypto h c).mp hstep, (ih _ hstep).mp fun pre post hsplit => ?_⟩
      exact hall (c :: pre) post (by rw [hsplit, List.cons_append])
    · rintro ⟨hkeeps, hrest⟩ pre post hsplit
      have hstep := (answersRight_call_iff crypto h c).mpr hkeeps
      rcases pre with _ | ⟨c', pre⟩
      · exact h
      · rw [List.cons_append, List.cons.injEq] at hsplit
        obtain ⟨rfl, hsplit⟩ := hsplit
        exact (ih _ hstep).mpr hrest pre post hsplit

theorem answersRight_new (data : TxData) : (Session.new data).AnswersRight crypto := by
  rw [answersRight_kept_iff]
  exact ⟨fun _ hash h => (by cases h), fun c h => (by cases h)⟩

/-- **When the answers follow the fields.**  For every new transaction and every sequence of calls, all questions
are answered from the current fields (or by the sender that was set) exactly when each setter call leaves alone
what is kept and still used. -/
theorem answersRight_iff (data : TxData) (cs : List Call) :
    (∀ pre post, cs = pre ++ post → ((Session.new data).calls crypto pre).AnswersRight crypto) ↔
      (Session.new data).AllKeep crypto cs :=
  answersRight_calls_iff crypto cs (Session.new data) (answersRight_new crypto data)

def sampleCrypto : Crypto where
  rlpHash strings := BitVec.ofNat 256 ((strings.getD []).flatten.map UInt8.toNat).sum
  sha3_256 b := BitVec.ofNat 256 (b.map UInt8.toNat).sum
  ecrecover sighash _ _ _ := some (sighash.setWidth 160)

def sampleSigned : TxData := { sampleTx (some 1) with version := 0, v := 27, r := 1, s := 1 }

/-- The hash is asked for before and after the shard key changes, and the sender around a change of the nonce. -/
theorem stale_hash_and_sender :
    (let s := (Session.new sampleSigned).calls sampleCrypto [.hash, .set (.fromFullShardKey 5)]
     (s.tx.hash sampleCrypto).1 ≠ sampleCrypto.rlpHash s.tx.data.strings) ∧
    (let s := (Session.new sampleSigned).calls sampleCrypto [.sender ⟨3⟩, .set (.nonce 2)]
     (Tx.sender sampleCrypto ⟨3⟩ s.tx).1 ≠ EIP155Signer.sender sampleCrypto ⟨3⟩ s.tx.data ∧
       s.explicit = none) := by
  decide +kernel

end QuarkChain.Tx
