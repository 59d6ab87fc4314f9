/-
# Serializing by the type of a value

`makeSerializer` of `src/serialize/serializer.go` and `makeDeserializer` of `src/serialize/deserializer.go`
find out by reflection how a value is written and read; `src/serialize/typecache.go` finds the fields of a
struct and their tags.  Here a Go type is a value of `Ty`, and the two functions are interpreters of it:
`Ty.serialize` and `Ty.deserialize`.

Types with a `Serialize` method of their own are left out, as are `uintptr`, which the serializer refuses, and
recursive types.  Of the name of a type only what the code can see is kept: whether an eight-bit unsigned
integer is the type `byte` or a type of its own.  `other` stands for the types that are not serializable (`int`,
maps, interfaces …), which a field that is left out may have.

A deserializer writes into a value that is there already, the target: the fields it leaves out keep what
they had.
-/
import QuarkChain.Lib.Bytes
import QuarkChain.Serialize.Deserializer

namespace QuarkChain.Serialize

open Bytes

structure Tags where
  nilOK : Bool := false
  ignored : Bool := false
  byteSizeOfSliceLen : ℤ := 1
deriving DecidableEq

def elemTags : Tags := { byteSizeOfSliceLen := 1 }

/-- What reflection tells of a field of a struct, apart from its type. -/
structure StructField where
  name : String
  /-- `PkgPath == ""`. -/
  exported : Bool := true
  ser : String := ""
  bytesizeofslicelen : String := ""

/-- The unsigned integers of a fixed width above one byte. -/
inductive UintKind
  | uint16
  | uint32
  | uint64

def UintKind.bytes : UintKind → ℕ
  | uint16 => 2
  | uint32 => 4
  | uint64 => 8

mutual
inductive Ty
  | uint8 (named : Bool)
  | uintN (kind : UintKind)
  | uint
  | bool
  | bigInt
  | string
  | slice (elem : Ty)
  | array (len : ℕ) (elem : Ty)
  | struct (name : String) (fields : Fields)
  | ptr (elem : Ty)
  | other
inductive Fields
  | nil
  | cons (f : StructField) (t : Ty) (rest : Fields)
end

mutual
/-- The values of a type.  A string is a sequence of bytes; a pointer is what it points to, if anything. -/
def Ty.Val : Ty → Type
  | .uint8 _ => UInt8
  | .uintN kind => BitVec (8 * kind.bytes)
  | .uint => UInt64
  | .bool => Bool
  | .bigInt => ℤ
  | .string => List UInt8
  | .slice t => List t.Val
  | .array n t => { l : List t.Val // l.length = n }
  | .struct _ fs => fs.Val
  | .ptr t => Option t.Val
  | .other => Unit
def Fields.Val : Fields → Type
  | .nil => Unit
  | .cons _ t rest => t.Val × rest.Val
end

mutual
def Ty.zero : (t : Ty) → t.Val
  | .uint8 _ => (0 : UInt8)
  | .uintN kind => (0 : BitVec (8 * kind.bytes))
  | .uint => (0 : UInt64)
  | .bool => false
  | .bigInt => (0 : ℤ)
  | .string => ([] : List UInt8)
  | .slice t => ([] : List t.Val)
  | .array n t => ⟨List.replicate n t.zero, List.length_replicate⟩
  | .struct _ fs => fs.zero
  | .ptr t => (none : Option t.Val)
  | .other => ()
def Fields.zero : (fs : Fields) → fs.Val
  | .nil => ()
  | .cons _ t rest => (t.zero, rest.zero)
end

/-- `cachedTypeInfo`: whether there is a serializer; it does not look into the type. -/
def Ty.typeInfo : Ty → Except TypeError Unit
  | .other => .error .notSerializable
  | _ => .ok ()

def Ty.isSlice : Ty → Bool
  | .slice _ => true
  | _ => false

/-- `unicode.IsSpace`. -/
def isSpace (c : Char) : Bool :=
  (9 ≤ c.toNat && c.toNat ≤ 13) || (0x2000 ≤ c.toNat && c.toNat ≤ 0x200a) ||
    [0x20, 0x85, 0xa0, 0x1680, 0x2028, 0x2029, 0x202f, 0x205f, 0x3000].contains c.toNat

/-- `strings.TrimSpace`. -/
def trimSpace (s : List Char) : List Char :=
  ((s.dropWhile isSpace).reverse.dropWhile isSpace).reverse

/-- `strconv.Atoi`: an optional sign and decimal digits, of a number of 64 bits. -/
def atoi (s : List Char) : Option ℤ :=
  let digits := if s.head? = some '+' ∨ s.head? = some '-' then s.tail else s
  let n := digits.foldl (fun n c => n * 10 + (c.toNat - '0'.toNat)) 0
  let num : ℤ := if s.head? = some '-' then -n else n
  if digits ≠ [] ∧ digits.all Char.isDigit ∧ -2 ^ 63 ≤ num ∧ num < 2 ^ 63 then some num else none

/-- The parts of a tag between commas. -/
def tagParts (tag : String) : List String :=
  (tag.toList.splitOn ',').map fun part => String.ofList (trimSpace part)

/-- The loop of `parseStructTag` over the tag `ser`. -/
def parseSer (field : String) : List String → Tags → Except TypeError Tags
  | [], ts => .ok ts
  | t :: rest, ts =>
    if t = "" then parseSer field rest ts
    else if t = "-" then parseSer field rest { ts with ignored := true }
    else if t = "nil" then parseSer field rest { ts with nilOK := true }
    else .error (.unknownStructTag t field)

/-- The loop of `parseStructTag` over the tag `bytesizeofslicelen`. -/
def parseByteSize : List String → Tags → Except TypeError Tags
  | [], ts => .ok ts
  | t :: rest, ts =>
    if t = "" then parseByteSize rest ts
    else
      match atoi t.toList with
      | none => .error (.invalidSize t)
      | some num => parseByteSize rest { ts with byteSizeOfSliceLen := num }

def parseStructTag (f : StructField) (t : Ty) : Except TypeError Tags := do
  let ts ← parseSer f.name (tagParts f.ser) {}
  if t.isSlice then parseByteSize (tagParts f.bytesizeofslicelen) ts else .ok ts

def Fields.structFields : Fields → Except TypeError (List (String × Tags))
  | .nil => .ok []
  | .cons f t rest =>
    if !f.exported then rest.structFields
    else do
      let tags ← parseStructTag f t
      if tags.ignored then rest.structFields
      else do
        t.typeInfo
        let fields ← rest.structFields
        .ok ((f.name, tags) :: fields)

def StructField.tags? (f : StructField) (t : Ty) : Option Tags :=
  if !f.exported then none
  else
    match parseStructTag f t with
    | .error _ => none
    | .ok tags => if tags.ignored then none else some tags

inductive SerError
  | typ (e : TypeError)
  | negativeBigInt
  | lenTooLarge
  /-- `make` with a negative size, a panic. -/
  | makeSlice
deriving DecidableEq

/-- What a value is written as. -/
abbrev Serialized := Except SerError (List UInt8)

def writeListLen (len : ℕ) (byteSizeOfSliceLen : ℤ) : Serialized :=
  if byteSizeOfSliceLen < 0 then .error .makeSlice
  else if 0 < len / 256 ^ byteSizeOfSliceLen.toNat then .error .lenTooLarge
  else .ok (toBE byteSizeOfSliceLen.toNat len)

def serializeBigInt (i : ℤ) : Serialized :=
  if i < 0 then .error .negativeBigInt
  else
    let bytes := if 0 < i then minBE i.natAbs else []
    .ok (UInt8.ofNat bytes.length :: bytes)

def serializeString (s : List UInt8) : Serialized := .ok (toBE 4 s.length ++ s)

def serializeElems {α : Type} (elem : α → Serialized) : List α → Serialized
  | [] => .ok []
  | v :: vs => do
      let b ← elem v
      let rest ← serializeElems elem vs
      .ok (b ++ rest)

/-- The serializers of slices: `serializeByteSlice` for bytes, `serializeList` otherwise. -/
def serializeSlice : (t : Ty) → (t.Val → Serialized) → Tags → List t.Val → Serialized
  | .uint8 _, _, ts, (bytes : List UInt8) => do
      let len ← writeListLen bytes.length ts.byteSizeOfSliceLen
      .ok (len ++ bytes)
  | t, elem, ts, vs => do
      t.typeInfo.mapError .typ
      let len ← writeListLen vs.length ts.byteSizeOfSliceLen
      let rest ← serializeElems elem vs
      .ok (len ++ rest)

/-- The serializers of arrays: `serializeByteArray` for bytes, `serializeList` otherwise. -/
def serializeArray : (t : Ty) → (t.Val → Serialized) → List t.Val → Serialized
  | .uint8 _, _, bytes => .ok (bytes : List UInt8)
  | t, elem, vs => do
      t.typeInfo.mapError .typ
      serializeElems elem vs

mutual
def Ty.serialize : (t : Ty) → Tags → t.Val → Serialized
  | .uint8 _, _, v => .ok [(v : UInt8)]
  | .uintN kind, _, v => .ok (toBE kind.bytes (BitVec.toNat (w := 8 * kind.bytes) v))
  | .uint, _, v => serializeBigInt (UInt64.toNat v)
  | .bool, _, (v : Bool) => .ok [if v then 1 else 0]
  | .bigInt, _, v => serializeBigInt v
  | .string, _, v => serializeString v
  | .slice t, ts, v => serializeSlice t (t.serialize elemTags) ts v
  | .array _ t, _, v => serializeArray t (t.serialize elemTags) v.1
  | .struct _ fs, _, v => do
      let _ ← fs.structFields.mapError .typ
      fs.serialize v
  | .ptr t, ts, v => do
      t.typeInfo.mapError .typ
      match v with
      | none => if ts.nilOK then .ok [0] else t.serialize ts t.zero
      | some x => do
          let b ← t.serialize ts x
          .ok (if ts.nilOK then 1 :: b else b)
  | .other, _, _ => .error (.typ .notSerializable)
def Fields.serialize : (fs : Fields) → fs.Val → Serialized
  | .nil, _ => .ok []
  | .cons f t rest, v =>
    match f.tags? t with
    | none => rest.serialize v.2
    | some tags => do
        let b ← t.serialize tags v.1
        let bs ← rest.serialize v.2
        .ok (b ++ bs)
end

/-- How reading by type stops: as the buffer does, or with the panic of `reflect.Copy` between slices of
different element types. -/
inductive ReadStop
  | deser (s : DeserStop)
  | reflectCopy

abbrev Reader (α : Type) := StateT ByteBuffer (Except ReadStop) α

def Reader.buffer {α : Type} (d : Deserializer α) : Reader α := fun bb => (d bb).mapError .deser

def Reader.fail {α : Type} (e : DeserError) : Reader α := throw (.deser (.error e))

/-- `cachedTypeInfo` and `structFields` in a deserializer. -/
def Reader.ofTypeInfo {α : Type} : Except TypeError α → Reader α
  | .error e => Reader.fail (.typ e)
  | .ok a => pure a

def Reader.field {α : Type} (typ name : String) (d : Reader α) : Reader α := fun bb =>
  (d bb).mapError fun
    | .deser (.error e) => .deser (.error (.inField typ name e))
    | s => s

def deserializeBool : Reader Bool := do
  let b ← Reader.buffer (getBytes 1)
  if b = [0] then pure false
  else if b = [1] then pure true
  else Reader.fail (.invalidBool (b.headD 0))

/-- The loop of `deserializeList`, over the elements that are there before. -/
def deserializeInto {α : Type} (elem : α → Reader α) : List α → Reader (List α)
  | [] => pure []
  | target :: targets => do
      let a ← elem target
      let rest ← deserializeInto elem targets
      pure (a :: rest)

/-- `MakeSlice` and `Copy`: a slice of the new length with the elements of the old one. -/
def newSlice {α : Type} (zero : α) (vlen : ℕ) (old : List α) : List α :=
  old.take vlen ++ List.replicate (vlen - old.length) zero

/-- The deserializers of slices: `deserializeByteSlice` for bytes, `deserializeList` otherwise. -/
def deserializeSlice : (t : Ty) → (t.Val → Reader t.Val) → Tags → List t.Val → Reader (List t.Val)
  | .uint8 _, _, ts, _ =>
      (Reader.buffer (getVarBytes ts.byteSizeOfSliceLen.toNat) : Reader (List UInt8))
  | t, elem, ts, target => do
      Reader.ofTypeInfo t.typeInfo
      let vlen ← Reader.buffer (getLen ts.byteSizeOfSliceLen.toNat)
      deserializeInto elem (newSlice t.zero vlen target)

/-- `deserializeByteArray`: `reflect.Copy` from the bytes wants elements of the type `byte`. -/
def deserializeBytes (named : Bool) (n : ℕ) : Reader (List UInt8) := do
  let bytes ← Reader.buffer (getBytes n)
  if named then throw .reflectCopy else pure bytes

/-- The deserializers of arrays: `deserializeByteArray` for bytes, `deserializeList` otherwise. -/
def deserializeArray : (t : Ty) → (t.Val → Reader t.Val) → List t.Val → Reader (List t.Val)
  | .uint8 named, _, target => (deserializeBytes named target.length : Reader (List UInt8))
  | t, elem, target => do
      Reader.ofTypeInfo t.typeInfo
      deserializeInto elem target

def asArray {α : Type} {n : ℕ} (old : { l : List α // l.length = n }) (l : List α) :
    { l : List α // l.length = n } :=
  if h : l.length = n then ⟨l, h⟩ else old

mutual
def Ty.deserialize : (t : Ty) → Tags → t.Val → Reader t.Val
  | .uint8 _, _, _ => (UInt8.ofNat <$> Reader.buffer (getUInt 1) : Reader UInt8)
  | .uintN kind, _, _ =>
      (BitVec.ofNat (8 * kind.bytes) <$> Reader.buffer (getUInt kind.bytes) :
        Reader (BitVec (8 * kind.bytes)))
  | .uint, _, _ =>
      ((fun bytes => UInt64.ofNat (bigEndian bytes)) <$> Reader.buffer (getVarBytes 1) : Reader UInt64)
  | .bool, _, _ => (deserializeBool : Reader Bool)
  | .bigInt, _, _ => (Int.ofNat <$> Reader.buffer deserializeBigInt : Reader ℤ)
  | .string, _, _ => (Reader.buffer (getVarBytes 4) : Reader (List UInt8))
  | .slice t, ts, target => deserializeSlice t (t.deserialize elemTags) ts target
  | .array _ t, _, target => asArray target <$> deserializeArray t (t.deserialize elemTags) target.1
  | .struct name fs, _, target => do
      let _ ← Reader.ofTypeInfo fs.structFields
      fs.deserialize name target
  | .ptr t, ts, target => do
      Reader.ofTypeInfo t.typeInfo
      let isNil ← if ts.nilOK then (· == 0) <$> Reader.buffer (getUInt 1) else pure false
      if isNil then pure none
      else some <$> t.deserialize ts (target.getD t.zero)
  | .other, _, _ => Reader.fail (.typ .notSerializable)
def Fields.deserialize : (fs : Fields) → String → fs.Val → Reader fs.Val
  | .nil, _, _ => pure ()
  | .cons f t rest, name, target =>
    match f.tags? t with
    | none => (fun vs => (target.1, vs)) <$> rest.deserialize name target.2
    | some tags => do
        let v ← Reader.field name f.name (t.deserialize tags target.1)
        let vs ← rest.deserialize name target.2
        pure (v, vs)
end

end QuarkChain.Serialize
