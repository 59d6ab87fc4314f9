/-
# Branches and the neighbour test

A *full shard id* is the chain id in the upper sixteen bits, and in the lower sixteen the shard size (a power of
two) with the shard id below it (`src/account/branch.go`).  Shards are *neighbours*
(`src/account/neighbor.go`) while at most `32` are initialised, and afterwards when one of the two coordinates
agrees and the other differs by zero or a power of two.

`uint32` values are natural numbers; where the source relies on wrap-around the operation says so (`predU32`).
-/
import Mathlib.Algebra.GroupWithZero.Nat
import Mathlib.Data.Nat.Size

namespace QuarkChain.Account

/-- `x - 1` of a `uint32`. -/
def predU32 (x : ℕ) : ℕ := (x + (2 ^ 32 - 1)) % 2 ^ 32

/-- `common.IsP2`: the mask test for powers of two; zero passes it as well. -/
def isP2 (x : ℕ) : Bool := x &&& predU32 x == 0

def intLeftMostBit (v : ℕ) : ℕ := if v = 0 then 0 else Nat.log2 v + 1

def absUint32 (a b : ℕ) : ℕ := if a > b then a - b else b - a

/-- `account.Branch`: a full shard id. -/
structure Branch where
  value : ℕ
deriving DecidableEq, Inhabited

namespace Branch

/-- The upper sixteen bits. -/
def getChainID (b : Branch) : ℕ := b.value >>> 16

/-- `Branch.GetShardSize`.  For a value whose lower half is zero the source shifts `1` by
`2^32 - 1` places, which gives zero. -/
def getShardSize (b : Branch) : ℕ :=
  let branchValue := b.value &&& (2 ^ 16 - 1)
  if branchValue = 0 then 0 else 1 <<< (intLeftMostBit branchValue - 1)

def getShardID (b : Branch) : ℕ := (b.value &&& (2 ^ 16 - 1)) ^^^ b.getShardSize

def isInBranch (b : Branch) (fullShardKey : ℕ) : Bool :=
  fullShardKey >>> 16 == b.getChainID &&
    fullShardKey &&& predU32 b.getShardSize == b.getShardID

end Branch

/-- The part of `IsNeighbor` that looks at the two branches and not at the number of shards. -/
def isGeometricNeighbor (b₁ b₂ : Branch) : Bool :=
  if b₁.getChainID = b₂.getChainID then isP2 (absUint32 b₁.getShardID b₂.getShardID)
  else if b₁.getShardID = b₂.getShardID then isP2 (absUint32 b₁.getChainID b₂.getChainID)
  else false

/-- `IsNeighbor`; with few shards all of them are. -/
def isNeighbor (b₁ b₂ : Branch) (shardSize : ℕ) : Bool :=
  if shardSize ≤ 32 then true else isGeometricNeighbor b₁ b₂

theorem predU32_of_pos {x : ℕ} (h : 0 < x) (h' : x ≤ 2 ^ 32) : predU32 x = x - 1 := by
  unfold predU32
  omega

theorem and_predU32_two_pow {j : ℕ} (hj : j ≤ 32) (x : ℕ) : x &&& predU32 (2 ^ j) = x % 2 ^ j := by
  rw [predU32_of_pos (Nat.two_pow_pos j) (Nat.pow_le_pow_right (by decide) hj),
    Nat.and_two_pow_sub_one_eq_mod]

theorem two_pow_or {j shardID : ℕ} (hid : shardID < 2 ^ j) : 2 ^ j ||| shardID = 2 ^ j + shardID := by
  simpa using (Nat.two_pow_add_eq_or_of_lt hid 1).symm

section

variable {chainID j shardID : ℕ} (hj : j ≤ 15) (hid : shardID < 2 ^ j)
include hj hid

theorem size_add_lt : 2 ^ j + shardID < 2 ^ 16 := by
  have hpow : 2 ^ j ≤ 2 ^ 15 := Nat.pow_le_pow_right (by decide) hj
  omega

theorem fullShardId_eq : chainID <<< 16 ||| 2 ^ j ||| shardID = 2 ^ 16 * chainID + (2 ^ j + shardID) := by
  rw [Nat.or_assoc, two_pow_or hid, Nat.shiftLeft_eq, Nat.mul_comm,
    Nat.two_pow_add_eq_or_of_lt (size_add_lt hj hid)]

theorem getChainID_fullShardId : (Branch.mk (chainID <<< 16 ||| 2 ^ j ||| shardID)).getChainID = chainID := by
  have hlt := size_add_lt hj hid
  rw [Branch.getChainID, fullShardId_eq hj hid, Nat.shiftRight_eq_div_pow]
  show (2 ^ 16 * chainID + (2 ^ j + shardID)) / 2 ^ 16 = chainID
  omega

theorem low_fullShardId : (chainID <<< 16 ||| 2 ^ j ||| shardID) &&& (2 ^ 16 - 1) = 2 ^ j + shardID := by
  have hlt := size_add_lt hj hid
  rw [fullShardId_eq hj hid, Nat.and_two_pow_sub_one_eq_mod]
  omega

theorem getShardSize_fullShardId :
    (Branch.mk (chainID <<< 16 ||| 2 ^ j ||| shardID)).getShardSize = 2 ^ j := by
  have hpos := Nat.two_pow_pos j
  have hlog : Nat.log2 (2 ^ j + shardID) = j := by
    rw [Nat.log2_eq_iff (by omega)]
    constructor
    · omega
    · rw [Nat.pow_succ]
      omega
  rw [Branch.getShardSize]
  simp only [low_fullShardId hj hid]
  rw [if_neg (by omega), intLeftMostBit, if_neg (by omega), hlog, Nat.add_sub_cancel,
    Nat.one_shiftLeft]

theorem getShardID_fullShardId : (Branch.mk (chainID <<< 16 ||| 2 ^ j ||| shardID)).getShardID = shardID := by
  rw [Branch.getShardID, getShardSize_fullShardId hj hid]
  simp only [low_fullShardId hj hid]
  rw [← two_pow_or hid]
  refine Nat.eq_of_testBit_eq fun i => ?_
  rw [Nat.testBit_xor, Nat.testBit_or, Nat.testBit_two_pow]
  by_cases hi : j = i
  · subst hi
    simp [Nat.testBit_lt_two_pow hid]
  · simp [hi]

/-- **The key of a shard.**  A key is in the branch of a shard when its upper half is the chain and its
lower bits are the shard id. -/
theorem isInBranch_fullShardId (fullShardKey : ℕ) :
    (Branch.mk (chainID <<< 16 ||| 2 ^ j ||| shardID)).isInBranch fullShardKey = true ↔
      fullShardKey / 2 ^ 16 = chainID ∧ fullShardKey % 2 ^ j = shardID := by
  rw [Branch.isInBranch, getChainID_fullShardId hj hid, getShardID_fullShardId hj hid,
    getShardSize_fullShardId hj hid, and_predU32_two_pow (by omega), Nat.shiftRight_eq_div_pow]
  simp

end
end QuarkChain.Account
