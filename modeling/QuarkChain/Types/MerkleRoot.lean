/-
# The merkle root of a list

`CalculateMerkleRoot` of `src/core/types/derive_sha.go`: the hash that a block header carries for its
transactions or minor headers.  The items are serialized and hashed, the digests are reduced level by
level, and the last digest is hashed together with the number of items.

An item may hash to any word, a padding word included, and a list filled up with a padding word may then have
the same levels as a longer one; it is the length in the last hash that tells them apart, and for two lists of
one length the levels can be undone.
-/
import QuarkChain.Lib.Bytes
import QuarkChain.Lib.Merkle
import QuarkChain.Types.CrossShard

namespace QuarkChain.Types

open Bytes Merkle

/-- A slice: its length is an `int`. -/
structure Slice (α : Type*) where
  items : List α
  length_lt : items.length < 2 ^ 63

/-- `common.Hash{}`: the first padding, and the only digest of the empty list. -/
def zeroWord : Hash := 0

def hashBytes (h : Hash) : List UInt8 := toBE 32 h.toNat

variable (sha3_256 : List UInt8 → Hash) {α α' : Type*} (serialize : α → List UInt8)
  (serialize' : α' → List UInt8)

/-- The first level: the hashes of the serialized items, or one zero word for the empty list. -/
def hashList (list : Slice α) : List Hash :=
  if list.items.length = 0 then [zeroWord] else list.items.map fun item => sha3_256 (serialize item)

/-- `CalculateMerkleRoot`.  The levels shrink, so the fuel is enough for every list. -/
def calculateMerkleRoot (list : Slice α) : Option Hash := do
  let top ← reduce sha3_256 hashBytes (list.items.length + 1) zeroWord (hashList sha3_256 serialize list)
  some (sha3_256 (hashBytes top ++ toBE 8 list.items.length))

def merkleInputs (list : Slice α) : List (List UInt8) :=
  list.items.map serialize ++
    inputs sha3_256 hashBytes (list.items.length + 1) zeroWord (hashList sha3_256 serialize list) ++
    (reduce sha3_256 hashBytes (list.items.length + 1) zeroWord (hashList sha3_256 serialize list)).toList.map
      fun top => hashBytes top ++ toBE 8 list.items.length

theorem length_hashBytes (h : Hash) : (hashBytes h).length = 32 := length_toBE 32 h.toNat

theorem hashBytes_injective : Function.Injective hashBytes := by
  intro a b h
  have ha : a.toNat < 256 ^ 32 := by norm_num; exact a.isLt
  have hb : b.toNat < 256 ^ 32 := by norm_num; exact b.isLt
  exact BitVec.eq_of_toNat_eq (toBE_inj ha hb h)

theorem length_hashList (list : Slice α) :
    (hashList sha3_256 serialize list).length = max 1 list.items.length := by
  unfold hashList
  split_ifs with h
  · simp [h]
  · simp only [List.length_map]
    omega

theorem calculateMerkleRoot_eq (list : Slice α) : ∃ top,
    reduce sha3_256 hashBytes (list.items.length + 1) zeroWord (hashList sha3_256 serialize list) = some top ∧
      calculateMerkleRoot sha3_256 serialize list =
        some (sha3_256 (hashBytes top ++ toBE 8 list.items.length)) := by
  have hlen := length_hashList sha3_256 serialize list
  obtain ⟨top, htop⟩ : ∃ top, reduce sha3_256 hashBytes (list.items.length + 1) zeroWord
      (hashList sha3_256 serialize list) = some top :=
    reduce_isSome sha3_256 hashBytes (by omega) (by omega)
  exact ⟨top, htop, by simp [calculateMerkleRoot, htop]⟩

/-- **The merkle root binds its list.**  Two lists with different serialized items have different roots when the
hash does not collide on the strings that the two computations hash. -/
theorem calculateMerkleRoot_binds (xs : Slice α) (ys : Slice α')
    (hash_injOn : Set.InjOn sha3_256
      {b | b ∈ merkleInputs sha3_256 serialize xs ∨ b ∈ merkleInputs sha3_256 serialize' ys})
    (hne : xs.items.map serialize ≠ ys.items.map serialize') :
    ∃ r r', calculateMerkleRoot sha3_256 serialize xs = some r ∧
      calculateMerkleRoot sha3_256 serialize' ys = some r' ∧ r ≠ r' := by
  obtain ⟨top, htop, hroot⟩ := calculateMerkleRoot_eq sha3_256 serialize xs
  obtain ⟨top', htop', hroot'⟩ := calculateMerkleRoot_eq sha3_256 serialize' ys
  refine ⟨_, _, hroot, hroot', fun heq => hne ?_⟩
  -- the last hash gives the last digest and the length
  have hlast := hash_injOn (.inl (by simp [merkleInputs, htop])) (.inr (by simp [merkleInputs, htop'])) heq
  obtain ⟨hbytes, hcount⟩ := List.append_inj hlast
    ((length_hashBytes top).trans (length_hashBytes top').symm)
  have hlen : xs.items.length = ys.items.length := by
    have hx := xs.length_lt
    have hy := ys.length_lt
    exact toBE_inj (by omega) (by omega) hcount
  -- the levels give the first one
  rw [← hashBytes_injective hbytes, ← hlen] at htop'
  have hfirst : hashList sha3_256 serialize xs = hashList sha3_256 serialize' ys := by
    refine reduce_inj length_hashBytes hashBytes_injective hash_injOn (fun b hb => .inl ?_)
      (fun b hb => .inr ?_) (by rw [length_hashList, length_hashList, hlen]) htop htop'
    · simp [merkleInputs, hb]
    · rw [hlen] at hb
      simp [merkleInputs, hb]
  by_cases h0 : xs.items.length = 0
  · rw [List.length_eq_zero_iff.mp h0, List.length_eq_zero_iff.mp (hlen.symm.trans h0)]
    rfl
  rw [hashList, hashList, if_neg h0, if_neg (hlen ▸ h0)] at hfirst
  refine map_injOn hash_injOn (fun b hb => .inl ?_) (fun b hb => .inr ?_) 
    (by rw [List.map_map, List.map_map]; exact hfirst)
  · simp only [merkleInputs, List.append_assoc, List.mem_append]
    exact .inl hb
  · simp only [merkleInputs, List.append_assoc, List.mem_append]
    exact .inl hb

def sampleHash (b : List UInt8) : Hash := BitVec.ofNat 256 (b.foldl (fun n c => n * 257 + c.toNat + 1) 0)

/-- The empty item hashes to the padding word, so the two lists have the same levels: only the length tells
them apart. -/
theorem calculateMerkleRoot_binds_padded :
    ∃ r r', calculateMerkleRoot sampleHash id ⟨[[1], [2], []], by decide⟩ = some r ∧
      calculateMerkleRoot sampleHash id ⟨[[1], [2], [], []], by decide⟩ = some r' ∧ r ≠ r' := by
  refine calculateMerkleRoot_binds sampleHash id id ⟨[[1], [2], []], by decide⟩
    ⟨[[1], [2], [], []], by decide⟩ ?_ (by decide)
  have h : ∀ a ∈ merkleInputs sampleHash id ⟨[[1], [2], []], by decide⟩ ++
      merkleInputs sampleHash id ⟨[[1], [2], [], []], by decide⟩, ∀ b ∈
      merkleInputs sampleHash id ⟨[[1], [2], []], by decide⟩ ++
      merkleInputs sampleHash id ⟨[[1], [2], [], []], by decide⟩, sampleHash a = sampleHash b → a = b := by
    decide +kernel
  intro a ha b hb
  exact h a (List.mem_append.mpr ha) b (List.mem_append.mpr hb)

end QuarkChain.Types
