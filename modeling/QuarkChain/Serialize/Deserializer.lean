/-
# Reading serialized values

`src/serialize/bytebuffer.go` and `src/serialize/deserializer.go`.  A `ByteBuffer` is a byte slice and
a position; `getBytes` is the only function that moves the position.  Where the source finds the deserializer of
a type by reflection, the deserializers below are put together by hand, one combinator for each kind of type.

The slice expression of Go exits the program when its bounds are wrong, so `getBytes` can stop with an error or
with `sliceBounds`.  `InBounds` is what every deserializer keeps: it does not touch the bytes, moves the
position forward, not past the end, and never stops with `sliceBounds`.  It is a class, so that it is found for a
struct along the fields of the struct.
-/
import Mathlib.Data.Finmap
import QuarkChain.Lib.Outcome
import QuarkChain.Types.CrossShard

namespace QuarkChain.Serialize

open Outcome QuarkChain.Types

structure ByteBuffer where
  data : List UInt8
  position : ℕ := 0
deriving DecidableEq

/-- Why there is no serializer for a type (`src/serialize/typecache.go`). -/
inductive TypeError
  | notSerializable
  | unknownStructTag (tag field : String)
  | invalidSize (size : String)
deriving DecidableEq

/-- The errors of the package, and the two of lists of deposits; `inField` is the path that
`deserializeStruct` appends. -/
inductive DeserError
  | bufferShort
  | byteSizeTooSmall
  | byteSizeTooLarge (byteSize : ℕ)
  | lengthExceeds (size remaining : ℕ)
  | invalidBool (b : UInt8)
  | depositListExceeds (size remaining : ℕ)
  | unsupportedVersion (version : ℕ)
  | typ (e : TypeError)
  | inField (typ field : String) (e : DeserError)
deriving DecidableEq

inductive DeserStop
  | error (e : DeserError)
  | sliceBounds
deriving DecidableEq

abbrev Deserializer (α : Type) := StateT ByteBuffer (Except DeserStop) α

def slice (l : List UInt8) (lo hi : ℕ) : Except DeserStop (List UInt8) :=
  if lo ≤ hi ∧ hi ≤ l.length then .ok ((l.drop lo).take (hi - lo)) else .error .sliceBounds

/-- `ByteBuffer.getBytes`; the difference of the lengths is a Go `int`. -/
def getBytes (size : ℕ) : Deserializer (List UInt8) := fun bb =>
  if (size : ℤ) > bb.data.length - bb.position then .error (.error .bufferShort)
  else do
    let bytes ← slice bb.data bb.position (bb.position + size)
    pure (bytes, { bb with position := bb.position + size })

def bigEndian (bytes : List UInt8) : ℕ := bytes.foldl (fun n b => n * 256 + b.toNat) 0

/-- `GetUInt8` to `GetUInt64`, and `deserializeUint`, by the number of bytes. -/
def getUInt (bytes : ℕ) : Deserializer ℕ := bigEndian <$> getBytes bytes

def remaining : Deserializer ℕ := fun bb => .ok (bb.data.length - bb.position, bb)

def getLen (byteSize : ℕ) : Deserializer ℕ :=
  if byteSize < 1 then throw (.error .byteSizeTooSmall)
  else if byteSize > 4 then throw (.error (.byteSizeTooLarge byteSize))
  else do
    let size ← getUInt byteSize
    let remaining ← remaining
    if size > remaining then throw (.error (.lengthExceeds size remaining)) else pure size

def getVarBytes (byteSizeOfSliceLen : ℕ) : Deserializer (List UInt8) := do
  let size ← getLen byteSizeOfSliceLen
  getBytes size

def deserializeBigInt : Deserializer ℕ := bigEndian <$> getVarBytes 1

def deserializeFixSizeBigUint (size : ℕ) : Deserializer ℕ := bigEndian <$> getBytes size

def deserializeByteArray (n : ℕ) : Deserializer (BitVec (8 * n)) :=
  (fun bytes => BitVec.ofNat (8 * n) (bigEndian bytes)) <$> getBytes n

def deserializeElems {α : Type} (elem : Deserializer α) : ℕ → Deserializer (List α)
  | 0 => pure []
  | n + 1 => do
      let a ← elem
      let rest ← deserializeElems elem n
      pure (a :: rest)

/-- `deserializeList`, of a slice whose length takes `byteSizeOfSliceLen` bytes. -/
def deserializeList {α : Type} (byteSizeOfSliceLen : ℕ) (elem : Deserializer α) :
    Deserializer (List α) := do
  let vlen ← getLen byteSizeOfSliceLen
  deserializeElems elem vlen

def field {α : Type} (typ name : String) (d : Deserializer α) : Deserializer α := fun bb =>
  (d bb).mapError fun
    | .error e => .error (.inField typ name e)
    | .sliceBounds => .sliceBounds

def deserializeFromBytes {α : Type} (d : Deserializer α) (b : List UInt8) : Except DeserStop α :=
  (d { data := b }).map Prod.fst

/-- The loop of `TokenBalances.Deserialize`: a later entry replaces an earlier one, and zeros are
skipped. -/
def deserializeTokens : ℕ → TokenMap → Deserializer TokenMap
  | 0, m => pure m
  | n + 1, m => do
      let k ← deserializeBigInt
      let v ← deserializeBigInt
      deserializeTokens n (if v = 0 then m else m.insert (k % 2 ^ 64) v)

def deserializeTokenBalances : Deserializer TokenMap := do
  let num ← getUInt 4
  deserializeTokens num ∅

/-- The deserializer leaves the bytes alone, moves forward but not past the end, and does not panic.
Instances follow how a deserializer is put together. -/
class InBounds {α : Type} (d : Deserializer α) : Prop where
  post : ∀ bb, Post (d bb)
    (fun r => r.2.data = bb.data ∧ bb.position ≤ r.2.position ∧
      (bb.position ≤ bb.data.length → r.2.position ≤ bb.data.length))
    fun e => e ≠ .sliceBounds

section InBounds

variable {α β : Type} {d : Deserializer α} {f : α → Deserializer β}

instance (a : α) : InBounds (pure a : Deserializer α) := ⟨fun _ => ⟨rfl, le_rfl, id⟩⟩

instance (e : DeserError) : InBounds (throw (.error e) : Deserializer α) := by
  refine ⟨fun bb h => ?_⟩
  cases h

instance InBounds.bind [hd : InBounds d] [hf : ∀ a, InBounds (f a)] : InBounds (d >>= f) := by
  refine ⟨fun bb => (hd.post bb).bind fun r hr => ?_⟩
  refine ((hf r.1).post r.2).mono (fun r' hr' => ?_) fun _ => id
  obtain ⟨hdata, hle, hend⟩ := hr
  obtain ⟨hdata', hle', hend'⟩ := hr'
  exact ⟨hdata'.trans hdata, hle.trans hle', fun h => hdata ▸ hend' (hdata ▸ hend h)⟩

instance [InBounds d] (g : α → β) : InBounds (g <$> d) := by
  rw [map_eq_pure_bind]
  infer_instance

instance {p : Prop} [Decidable p] {d' : Deserializer α} [InBounds d] [InBounds d'] :
    InBounds (if p then d else d') := by
  split_ifs <;> infer_instance

instance [hd : InBounds d] (typ name : String) : InBounds (field typ name d) := by
  refine ⟨fun bb => ((hd.post bb).mono (fun _ => id) fun e he => ?_).mapError⟩
  cases e with
  | error e => simp
  | sliceBounds => exact absurd rfl he

instance (size : ℕ) : InBounds (getBytes size) := by
  refine ⟨fun bb => ?_⟩
  rw [getBytes]
  split_ifs with hshort
  · simp
  · rw [slice, if_pos (by omega)]
    exact ⟨rfl, Nat.le_add_right .., fun _ => by simp only; omega⟩

instance : InBounds remaining := ⟨fun _ => ⟨rfl, le_rfl, id⟩⟩

instance (bytes : ℕ) : InBounds (getUInt bytes) := by
  unfold getUInt
  infer_instance

instance (byteSize : ℕ) : InBounds (getLen byteSize) := by
  unfold getLen
  infer_instance

instance (byteSizeOfSliceLen : ℕ) : InBounds (getVarBytes byteSizeOfSliceLen) := by
  unfold getVarBytes
  infer_instance

instance : InBounds deserializeBigInt := by
  unfold deserializeBigInt
  infer_instance

instance (size : ℕ) : InBounds (deserializeFixSizeBigUint size) := by
  unfold deserializeFixSizeBigUint
  infer_instance

instance (n : ℕ) : InBounds (deserializeByteArray n) := by
  unfold deserializeByteArray
  infer_instance

instance [InBounds d] (n : ℕ) : InBounds (deserializeElems d n) := by
  induction n with
  | zero =>
    rw [deserializeElems]
    infer_instance
  | succ n ih =>
    rw [deserializeElems]
    infer_instance

instance [InBounds d] (byteSizeOfSliceLen : ℕ) : InBounds (deserializeList byteSizeOfSliceLen d) := by
  unfold deserializeList
  infer_instance

instance (n : ℕ) (m : TokenMap) : InBounds (deserializeTokens n m) := by
  induction n generalizing m with
  | zero =>
    rw [deserializeTokens]
    infer_instance
  | succ n ih =>
    rw [deserializeTokens]
    infer_instance

instance : InBounds deserializeTokenBalances := by
  unfold deserializeTokenBalances
  infer_instance

/-- **Decoding a message does not panic.** -/
theorem deserializeFromBytes_ne_sliceBounds (d : Deserializer α) [hd : InBounds d] (b : List UInt8) :
    deserializeFromBytes d b ≠ .error .sliceBounds := by
  intro h
  rw [deserializeFromBytes] at h
  cases hr : d { data := b } with
  | ok r => simp [hr, Except.map] at h
  | error e =>
    simp only [hr, Except.map, Except.error.injEq] at h
    exact (hd.post { data := b }).of_error hr h

end InBounds

end QuarkChain.Serialize
