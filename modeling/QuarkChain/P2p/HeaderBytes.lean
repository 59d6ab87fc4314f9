/-
# The bytes of a block header

The serializers that reflection finds for `types.RootBlockHeader` and `types.MinorBlockHeader`
(`src/core/types/rootblock.go`, `src/core/types/minorblock.go`), with `TokenBalances.Serialize` of
`src/core/types/token.go` for the coinbase amounts.  The hash of a header is the digest of these bytes (`serHash`).
The headers themselves are no types of `Serialize.Ty`, since the amounts have a serializer of their own; their
other fields are, and are written as there (`serialize_uintN` and the theorems after it).

`TokenBalances.Serialize` writes every entry of the map, and `TokenBalances.Deserialize` skips the entries
whose amount is zero: a header arrives with its hash just when its map has no such entry, and its amounts
and their number fit in what is written before them.
-/
import QuarkChain.P2p.Messages
import QuarkChain.Serialize.RoundTrip
import Mathlib.Data.Finset.Sort

namespace QuarkChain.P2p

open Bytes Outcome Serialize Account
open QuarkChain.Types (Hash Address TokenMap)

def joined : List Serialized → Serialized
  | [] => .ok []
  | x :: xs => do
      let b ← x
      let bs ← joined xs
      .ok (b ++ bs)

def serializeUInt (bytes n : ℕ) : Serialized := .ok (toBE bytes n)

def serializeFixSizeBigUint (size n : ℕ) : Serialized :=
  if size < width n then .error .lenTooLarge else .ok (toBE size n)

def serializeByteArray (n : ℕ) (bytes : BitVec (8 * n)) : Serialized := .ok (toBE n bytes.toNat)

def serializeByteSlice (byteSizeOfSliceLen : ℤ) (bytes : List UInt8) : Serialized := do
  let len ← writeListLen bytes.length byteSizeOfSliceLen
  .ok (len ++ bytes)

def sortedTokens (m : TokenMap) : List ℕ := m.keys.sort (· ≤ ·)

def serializeTokenBalances (m : TokenMap) : Serialized :=
  joined (serializeUInt 4 (sortedTokens m).length ::
    (sortedTokens m).flatMap fun k : ℕ => [serializeBigInt k, serializeBigInt (m.amount k)])

def serializeAddress (a : Address) : Serialized :=
  joined [serializeByteArray 20 a.recipient, serializeUInt 4 a.fullShardKey]

def serializeBranch (b : Branch) : Serialized := joined [serializeUInt 4 b.value]

def serializeHash (h : Hash) : Serialized := serializeByteArray 32 h

def serializeRootBlockHeader (h : RootBlockHeader) : Serialized :=
  joined
    [serializeUInt 4 h.version,
      serializeUInt 4 h.number,
      serializeHash h.parentHash,
      serializeHash h.minorHeaderHash,
      serializeHash h.root,
      serializeAddress h.coinbase,
      serializeTokenBalances h.coinbaseAmount,
      serializeUInt 8 h.time,
      serializeBigInt h.difficulty,
      serializeBigInt h.totalDifficulty,
      serializeUInt 8 h.nonce,
      serializeByteSlice 2 h.extra,
      serializeHash h.mixDigest,
      serializeByteArray 65 h.signature]

def serializeMinorBlockHeader (h : MinorBlockHeader) : Serialized :=
  joined
    [serializeUInt 4 h.version,
      serializeBranch h.branch,
      serializeUInt 8 h.number,
      serializeAddress h.coinbase,
      serializeTokenBalances h.coinbaseAmount,
      serializeHash h.parentHash,
      serializeHash h.prevRootBlockHash,
      serializeFixSizeBigUint 32 h.gasLimit,
      serializeHash h.metaHash,
      serializeUInt 8 h.time,
      serializeBigInt h.difficulty,
      serializeUInt 8 h.nonce,
      serializeByteArray 256 h.bloom,
      serializeByteSlice 2 h.extra,
      serializeHash h.mixDigest]

/-! ### What reflection finds for the fields -/

theorem serialize_uintN (kind : UintKind) (ts : Tags) (n : BitVec (8 * kind.bytes)) :
    (Ty.uintN kind).serialize ts n = serializeUInt kind.bytes n.toNat := rfl

theorem serialize_bytes (ts : Tags) (bytes : List UInt8) :
    (Ty.slice (.uint8 false)).serialize ts bytes = serializeByteSlice ts.byteSizeOfSliceLen bytes := rfl

theorem serialize_byteArray {n : ℕ} (ts : Tags) (bytes : BitVec (8 * n)) :
    (Ty.array n (.uint8 false)).serialize ts ⟨toBE n bytes.toNat, length_toBE n _⟩ =
      serializeByteArray n bytes := rfl

/-- The fields of a struct are joined, as those of an address, a branch and a header are here. -/
theorem serialize_fields {f : StructField} {t : Ty} {rest : Fields} {tags : Tags} (h : f.tags? t = some tags)
    (v : (Fields.cons f t rest).Val) :
    (Fields.cons f t rest).serialize v = joined [t.serialize tags v.1, rest.serialize v.2] := by
  simp only [Fields.serialize, h, joined]
  rcases t.serialize tags v.1 with e | b
  · rfl
  rcases rest.serialize v.2 with e | bs
  · rfl
  exact congrArg (fun l => Except.ok (b ++ l)) (List.append_nil bs).symm

def serHash (keccak : List UInt8 → Hash) (s : Serialized) : Option Hash := s.toOption.map keccak

def compareCoinbaseAmountMap (a b : TokenMap) : Bool :=
  a.keys.card == b.keys.card && decide (∀ k ∈ a.keys, b.lookup k = some (a.amount k))

/-- What transmission is to keep of a header: it has a serialization, from which a header with the same
hash and the same coinbase amounts is read. -/
def Survives {α : Type} (keccak : List UInt8 → Hash) (ser : α → Serialized) (de : Deserializer α)
    (amounts : α → TokenMap) (h : α) : Prop :=
  ∃ b h', ser h = .ok b ∧ deserializeFromBytes de b = .ok h' ∧
    serHash keccak (ser h') = serHash keccak (ser h) ∧
      compareCoinbaseAmountMap (amounts h) (amounts h') = true

/-! ### What is sent and what arrives -/

/-- From the serialization the deserializer reads `a`, whatever stands around it. -/
def Sends {α : Type} (s : Serialized) (d : Deserializer α) (a : α) : Prop :=
  ∃ b, s = .ok b ∧ ∀ before rest,
    d { data := before ++ (b ++ rest), position := before.length } =
      .ok (a, { data := before ++ (b ++ rest), position := before.length + b.length })

section Sends

variable {α β : Type} {s : Serialized} {d : Deserializer α} {f : α → Deserializer β} {a : α} {c : β}
  {ss : List Serialized}

theorem sends_pure : Sends (joined []) (pure a : Deserializer α) a := ⟨[], rfl, fun _ _ => rfl⟩

variable (h : Sends s d a)
include h

/-- **Fields one after the other.** -/
theorem Sends.bind (h' : Sends (joined ss) (f a) c) : Sends (joined (s :: ss)) (d >>= f) c := by
  obtain ⟨b, rfl, hb⟩ := h
  obtain ⟨bs, hs, hbs⟩ := h'
  refine ⟨b ++ bs, by rw [joined, hs]; rfl, fun before rest => ?_⟩
  have hfirst := hb before (bs ++ rest)
  have hthen := hbs (before ++ b) rest
  change (d _ >>= fun p => f p.1 p.2) = _
  simp only [List.append_assoc, List.length_append, ← Nat.add_assoc] at hfirst hthen ⊢
  rw [hfirst]
  exact hthen

theorem Sends.field (typ name : String) : Sends s (field typ name d) a := by
  obtain ⟨b, rfl, hb⟩ := h
  refine ⟨b, rfl, fun before rest => ?_⟩
  rw [Serialize.field, hb]
  rfl

theorem Sends.map (g : α → β) : Sends s (g <$> d) (g a) := by
  obtain ⟨b, rfl, hb⟩ := h
  refine ⟨b, rfl, fun before rest => ?_⟩
  change (d _ >>= fun p => pure (g p.1, p.2)) = _
  rw [hb]
  rfl

theorem Sends.deserializeFromBytes : ∃ b, s = .ok b ∧ deserializeFromBytes d b = .ok a := by
  obtain ⟨b, rfl, hb⟩ := h
  have hall := hb [] []
  simp only [List.nil_append, List.append_nil, List.length_nil, Nat.zero_add] at hall
  refine ⟨b, rfl, ?_⟩
  rw [Serialize.deserializeFromBytes, hall]
  rfl

end Sends

theorem sends_getBytes (b : List UInt8) : Sends (.ok b) (getBytes b.length) b :=
  ⟨b, rfl, fun before rest => getBytes_append before b rest⟩

variable {b : List UInt8} {k n : ℕ}

theorem sends_uint (h : n < 256 ^ k) : Sends (serializeUInt k n) (getUInt k) n := by
  refine ⟨toBE k n, rfl, fun before rest => ?_⟩
  rw [getUInt_append h, length_toBE]

theorem sends_fixSizeBigUint (size : ℕ) (h : n < 256 ^ size) :
    Sends (serializeFixSizeBigUint size n) (deserializeFixSizeBigUint size) n := by
  have hwidth : width n ≤ size := by
    refine width_le ?_
    rwa [show (256 : ℕ) = 2 ^ 8 from rfl, ← pow_mul] at h
  rw [serializeFixSizeBigUint, if_neg (by omega)]
  exact sends_uint h

theorem sends_byteArray (n : ℕ) (bytes : BitVec (8 * n)) :
    Sends (serializeByteArray n bytes) (deserializeByteArray n) bytes := by
  have hlt : bytes.toNat < 256 ^ n := by
    rw [show (256 : ℕ) = 2 ^ 8 from rfl, ← pow_mul]
    exact bytes.isLt
  have hread : BitVec.ofNat (8 * n) (bigEndian (toBE n bytes.toNat)) = bytes := by
    have hval : bigEndian (toBE n bytes.toNat) = bytes.toNat :=
      (ofBE_toBE n bytes.toNat).trans (Nat.mod_eq_of_lt hlt)
    rw [hval, BitVec.ofNat_toNat, BitVec.setWidth_eq]
  have hbytes := (sends_getBytes (toBE n bytes.toNat)).map fun b => BitVec.ofNat (8 * n) (bigEndian b)
  rwa [length_toBE, hread] at hbytes

theorem sends_getVarBytes (hk : 1 ≤ k ∧ k ≤ 4) (hb : b.length < 256 ^ k) :
    Sends (.ok (toBE k b.length ++ b)) (getVarBytes k) b := by
  refine ⟨_, rfl, fun before rest => ?_⟩
  have hbytes := getBytes_append (before ++ toBE k b.length) b rest
  simp only [List.append_assoc, List.length_append, length_toBE, ← Nat.add_assoc] at hbytes ⊢
  change (getLen k _ >>= fun p => getBytes p.1 p.2) = _
  rw [getLen_append hk hb before (b ++ rest) (by rw [List.length_append]; omega)]
  exact hbytes

theorem sends_byteSlice (hk : 1 ≤ k ∧ k ≤ 4) (hb : b.length < 256 ^ k) :
    Sends (serializeByteSlice k b) (getVarBytes k) b := by
  have hlen : serializeByteSlice k b = .ok (toBE k b.length ++ b) :=
    bind_eq_ok.mpr ⟨_, writeListLen_ok (by omega) (by simpa using hb), rfl⟩
  rw [hlen]
  exact sends_getVarBytes hk hb

theorem sends_bigInt (h : n < 2 ^ 2040) : Sends (serializeBigInt n) deserializeBigInt n := by
  obtain ⟨hlen, hser⟩ := serializeBigInt_natCast h
  have hsent := (sends_getVarBytes (by decide) hlen).map bigEndian
  rw [hser]
  rwa [show bigEndian (minBE n) = n from ofBE_minBE n] at hsent

theorem sends_address {a : Address} (h : a.fullShardKey < 2 ^ 32) :
    Sends (serializeAddress a) deserializeAddress a :=
  ((sends_byteArray 20 a.recipient).field _ _).bind
    (((sends_uint (k := 4) h).field _ _).bind sends_pure)

theorem sends_branch {b : Branch} (h : b.value < 2 ^ 32) : Sends (serializeBranch b) deserializeBranch b :=
  ((sends_uint (k := 4) h).field _ _).bind sends_pure

/-- The amounts of a map that arrive as they were sent: none is zero, each fits in `255` bytes, and their
number in four. -/
structure Transmissible (m : TokenMap) : Prop where
  card : m.keys.card < 2 ^ 32
  amount : ∀ k v, m.lookup k = some v → 0 < v ∧ v < 2 ^ 2040

section Tokens

variable {m : TokenMap} {ks : List ℕ}

/-- The map that the loop of `TokenBalances.Deserialize` builds from nonzero amounts. -/
def collect (m : TokenMap) (ks : List ℕ) (acc : TokenMap) : TokenMap :=
  ks.foldl (fun acc k => acc.insert k (m.amount k)) acc

theorem lookup_collect (acc : TokenMap) (t : ℕ) :
    (collect m ks acc).lookup t = if t ∈ ks then some (m.amount t) else acc.lookup t := by
  induction ks generalizing acc with
  | nil => rfl
  | cons k ks ih =>
    rw [collect, List.foldl_cons]
    refine (ih _).trans ?_
    by_cases ht : t = k
    · subst ht
      simp
    · rw [Finmap.lookup_insert_of_ne _ ht]
      simp only [List.mem_cons, ht, false_or]

theorem amount_of_mem (h : k ∈ m.keys) : m.lookup k = some (m.amount k) := by
  obtain ⟨v, hv⟩ := Finmap.mem_iff.mp (Finmap.mem_keys.mp h)
  unfold TokenMap.amount
  rw [hv]
  rfl

theorem mem_sortedTokens {t : ℕ} : t ∈ sortedTokens m ↔ t ∈ m.keys := Finset.mem_sort _

theorem collect_sortedTokens : collect m (sortedTokens m) ∅ = m := by
  refine Finmap.ext_lookup fun t => ?_
  rw [lookup_collect]
  by_cases ht : t ∈ m.keys
  · rw [if_pos (mem_sortedTokens.mpr ht)]
    exact (amount_of_mem ht).symm
  · rw [if_neg (mt mem_sortedTokens.mp ht), Finmap.lookup_empty]
    exact (Finmap.lookup_eq_none.mpr (mt Finmap.mem_keys.mpr ht)).symm

theorem sends_tokens (h : ∀ k ∈ ks, k < 2 ^ 64 ∧ 0 < m.amount k ∧ m.amount k < 2 ^ 2040)
    (acc : TokenMap) :
    Sends (joined (ks.flatMap fun k : ℕ => [serializeBigInt k, serializeBigInt (m.amount k)]))
      (deserializeTokens ks.length acc) (collect m ks acc) := by
  induction ks generalizing acc with
  | nil => exact sends_pure
  | cons k ks ih =>
    obtain ⟨⟨hkey, hpos, hlt⟩, hks⟩ := List.forall_mem_cons.mp h
    have hpow : (2 : ℕ) ^ 64 ≤ 2 ^ 2040 := by gcongr <;> decide
    refine (sends_bigInt (hkey.trans_le hpow)).bind ((sends_bigInt hlt).bind ?_)
    rw [if_neg (by omega), Nat.mod_eq_of_lt hkey]
    exact ih hks _

/-- **Coinbase amounts that are transmissible are received as they are.** -/
theorem sends_tokenBalances (h : Transmissible m) (hkeys : ∀ k ∈ m.keys, k < 2 ^ 64) :
    Sends (serializeTokenBalances m) deserializeTokenBalances m := by
  have hlen : (sortedTokens m).length < 256 ^ 4 := by
    rw [sortedTokens, Finset.length_sort]
    exact h.card
  have hall : ∀ k ∈ sortedTokens m, k < 2 ^ 64 ∧ 0 < m.amount k ∧ m.amount k < 2 ^ 2040 := by
    intro k hk
    have hmem := mem_sortedTokens.mp hk
    exact ⟨hkeys k hmem, h.amount k _ (amount_of_mem hmem)⟩
  have htokens := sends_tokens hall ∅
  rw [collect_sortedTokens] at htokens
  exact (sends_uint hlen).bind htokens

end Tokens

/-! ### What can arrive at all -/

/-- Every value that the deserializer returns satisfies `P`. -/
def Yields {α : Type} (d : Deserializer α) (P : α → Prop) : Prop :=
  ∀ bb, Post (d bb) (fun r => P r.1) fun _ => True

section Yields

variable {α β : Type} {d : Deserializer α} {f : α → Deserializer β} {P : α → Prop} {Q : β → Prop}
  {m : TokenMap}

theorem yields_any (d : Deserializer α) : Yields d fun _ => True := by
  intro bb
  cases d bb <;> trivial

theorem yields_pure {a : α} (h : P a) : Yields (pure a : Deserializer α) P := fun _ => h

theorem Yields.bind (h : Yields d P) (hf : ∀ a, P a → Yields (f a) Q) : Yields (d >>= f) Q :=
  fun bb => (h bb).bind fun r hr => hf r.1 hr r.2

theorem Yields.after (hf : ∀ a, Yields (f a) Q) : Yields (d >>= f) Q :=
  (yields_any d).bind fun a _ => hf a

theorem Yields.map (h : Yields d P) {g : α → β} (hg : ∀ a, P a → Q (g a)) : Yields (g <$> d) Q := by
  rw [map_eq_pure_bind]
  exact h.bind fun a ha => yields_pure (hg a ha)

theorem Yields.field (h : Yields d P) (typ name : String) : Yields (field typ name d) P :=
  fun bb => ((h bb).mono (fun _ => id) fun _ _ => trivial).mapError

theorem yields_getBytes (size : ℕ) : Yields (getBytes size) fun b => b.length = size := by
  intro bb
  rw [getBytes]
  split_ifs with hshort
  · trivial
  rw [slice]
  split_ifs with hbound
  · show ((bb.data.drop bb.position).take (bb.position + size - bb.position)).length = size
    rw [List.length_take, List.length_drop]
    omega
  · trivial

theorem yields_getUInt (k : ℕ) : Yields (getUInt k) fun n => n < 256 ^ k :=
  (yields_getBytes k).map fun b hb => by
    have hlt := ofBE_lt b
    rwa [hb] at hlt

theorem yields_getVarBytes : Yields (getVarBytes 1) fun b => b.length ≤ 255 := by
  have hlen : Yields (getLen 1) fun n => n ≤ 255 := by
    rw [getLen, if_neg (by decide), if_neg (by decide)]
    refine (yields_getUInt 1).bind fun size hsize => .after fun remaining => ?_
    split_ifs
    · exact fun _ => trivial
    · exact yields_pure (Nat.le_of_lt_succ hsize)
  exact hlen.bind fun n hn bb => (yields_getBytes n bb).imp fun r hr => hr.le.trans hn

theorem yields_bigInt : Yields deserializeBigInt fun n => n < 2 ^ 2040 :=
  yields_getVarBytes.map fun b hb => by
    calc bigEndian b < 256 ^ b.length := ofBE_lt b
      _ ≤ 256 ^ 255 := Nat.pow_le_pow_right (by decide) hb
      _ = 2 ^ 2040 := by rw [show (256 : ℕ) = 2 ^ 8 from rfl, ← pow_mul]

def Bounded (n : ℕ) (m : TokenMap) : Prop :=
  m.keys.card ≤ n ∧ ∀ k v, m.lookup k = some v → 0 < v ∧ v < 2 ^ 2040

theorem keys_insert (m : TokenMap) (k v : ℕ) : (m.insert k v).keys = insert k m.keys := by
  ext t
  simp [Finmap.mem_keys, Finmap.mem_insert]

theorem Bounded.insert {v : ℕ} (h : Bounded n m) (hv : v ≠ 0)
    (hlt : v < 2 ^ 2040) : Bounded (n + 1) (m.insert k v) := by
  refine ⟨?_, fun k' v' hk' => ?_⟩
  · rw [keys_insert]
    exact (Finset.card_insert_le _ _).trans (Nat.succ_le_succ h.1)
  · by_cases hk : k' = k
    · subst hk
      rw [Finmap.lookup_insert, Option.some.injEq] at hk'
      omega
    · rw [Finmap.lookup_insert_of_ne _ hk] at hk'
      exact h.2 k' v' hk'

theorem yields_tokens {j : ℕ} (h : Bounded j m) :
    Yields (deserializeTokens n m) (Bounded (j + n)) := by
  induction n generalizing j m with
  | zero => exact yields_pure h
  | succ n ih =>
    refine .after fun k => yields_bigInt.bind fun v hv => ?_
    split_ifs with hzero
    · have hwider : Bounded (j + 1) m := ⟨h.1.trans (Nat.le_succ j), h.2⟩
      rw [show j + (n + 1) = j + 1 + n by omega]
      exact ih hwider
    · rw [show j + (n + 1) = j + 1 + n by omega]
      exact ih (h.insert hzero hv)

/-- **Only transmissible amounts ever arrive.** -/
theorem yields_tokenBalances : Yields deserializeTokenBalances Transmissible := by
  refine (yields_getUInt 4).bind fun num hnum bb => ?_
  have hempty : Bounded 0 (∅ : TokenMap) := by
    refine ⟨le_of_eq (by simp), fun k v hk => ?_⟩
    rw [Finmap.lookup_empty] at hk
    cases hk
  refine (yields_tokens hempty bb).imp fun r hr => ⟨?_, hr.2⟩
  exact lt_of_le_of_lt hr.1 (by rw [Nat.zero_add]; exact hnum)

end Yields

theorem compareCoinbaseAmountMap_iff {a b : TokenMap} : compareCoinbaseAmountMap a b = true ↔ a = b := by
  unfold compareCoinbaseAmountMap
  rw [Bool.and_eq_true, beq_iff_eq, decide_eq_true_iff]
  constructor
  · rintro ⟨hcard, hall⟩
    have hsub : a.keys ⊆ b.keys := fun k hk =>
      Finmap.mem_keys.mpr (Finmap.mem_of_lookup_eq_some (hall k hk))
    have hkeys : a.keys = b.keys := Finset.eq_of_subset_of_card_le hsub hcard.ge
    refine Finmap.ext_lookup fun k => ?_
    by_cases hk : k ∈ a.keys
    · rw [hall k hk, amount_of_mem hk]
    · have hb : k ∉ b.keys := hkeys ▸ hk
      rw [Finmap.lookup_eq_none.mpr (mt Finmap.mem_keys.mpr hk),
        Finmap.lookup_eq_none.mpr (mt Finmap.mem_keys.mpr hb)]
  · rintro rfl
    exact ⟨rfl, fun k hk => amount_of_mem hk⟩

variable {keccak : List UInt8 → Hash}

theorem survives_iff {α : Type} {ser : α → Serialized} {de : Deserializer α}
    {amounts : α → TokenMap} {h : α} (hsend : Transmissible (amounts h) → Sends (ser h) de h)
    (hyield : Yields de fun h' => Transmissible (amounts h')) :
    Survives keccak ser de amounts h ↔ Transmissible (amounts h) := by
  constructor
  · rintro ⟨b, h', -, hde, -, hcompare⟩
    rw [compareCoinbaseAmountMap_iff] at hcompare
    rw [deserializeFromBytes, map_eq_ok] at hde
    obtain ⟨r, hr, rfl⟩ := hde
    rw [hcompare]
    exact (hyield _).of_ok hr
  · intro ht
    obtain ⟨b, hser, hde⟩ := (hsend ht).deserializeFromBytes
    exact ⟨b, h, hser, hde, rfl, compareCoinbaseAmountMap_iff.mpr rfl⟩

/-- The fields of a minor header are in range, and the difficulty fits in `255` bytes. -/
structure MinorBlockHeader.Fits (h : MinorBlockHeader) : Prop where
  version : h.version < 2 ^ 32
  branch : h.branch.value < 2 ^ 32
  number : h.number < 2 ^ 64
  coinbase : h.coinbase.fullShardKey < 2 ^ 32
  tokens : ∀ k ∈ h.coinbaseAmount.keys, k < 2 ^ 64
  gasLimit : h.gasLimit < 2 ^ 256
  time : h.time < 2 ^ 64
  difficulty : h.difficulty < 2 ^ 2040
  nonce : h.nonce < 2 ^ 64
  extra : h.extra.length < 2 ^ 16

/-- The fields of a root header are in range, and the difficulties fit in `255` bytes. -/
structure RootBlockHeader.Fits (h : RootBlockHeader) : Prop where
  version : h.version < 2 ^ 32
  number : h.number < 2 ^ 32
  coinbase : h.coinbase.fullShardKey < 2 ^ 32
  tokens : ∀ k ∈ h.coinbaseAmount.keys, k < 2 ^ 64
  time : h.time < 2 ^ 64
  difficulty : h.difficulty < 2 ^ 2040
  totalDifficulty : h.totalDifficulty < 2 ^ 2040
  nonce : h.nonce < 2 ^ 64
  extra : h.extra.length < 2 ^ 16

theorem sends_minorBlockHeader {h : MinorBlockHeader} (hf : h.Fits)
    (ht : Transmissible h.coinbaseAmount) :
    Sends (serializeMinorBlockHeader h) deserializeMinorBlockHeader h := by
  refine ((sends_uint (k := 4) hf.version).field _ _).bind ?_
  refine ((sends_branch hf.branch).field _ _).bind ?_
  refine ((sends_uint (k := 8) hf.number).field _ _).bind ?_
  refine ((sends_address hf.coinbase).field _ _).bind ?_
  refine ((sends_tokenBalances ht hf.tokens).field _ _).bind ?_
  refine ((sends_byteArray 32 h.parentHash).field _ _).bind ?_
  refine ((sends_byteArray 32 h.prevRootBlockHash).field _ _).bind ?_
  refine ((sends_fixSizeBigUint 32 hf.gasLimit).field _ _).bind ?_
  refine ((sends_byteArray 32 h.metaHash).field _ _).bind ?_
  refine ((sends_uint (k := 8) hf.time).field _ _).bind ?_
  refine ((sends_bigInt hf.difficulty).field _ _).bind ?_
  refine ((sends_uint (k := 8) hf.nonce).field _ _).bind ?_
  refine ((sends_byteArray 256 h.bloom).field _ _).bind ?_
  refine ((sends_byteSlice (k := 2) (by decide) hf.extra).field _ _).bind ?_
  exact ((sends_byteArray 32 h.mixDigest).field _ _).bind sends_pure

theorem sends_rootBlockHeader {h : RootBlockHeader} (hf : h.Fits)
    (ht : Transmissible h.coinbaseAmount) :
    Sends (serializeRootBlockHeader h) deserializeRootBlockHeader h := by
  refine ((sends_uint (k := 4) hf.version).field _ _).bind ?_
  refine ((sends_uint (k := 4) hf.number).field _ _).bind ?_
  refine ((sends_byteArray 32 h.parentHash).field _ _).bind ?_
  refine ((sends_byteArray 32 h.minorHeaderHash).field _ _).bind ?_
  refine ((sends_byteArray 32 h.root).field _ _).bind ?_
  refine ((sends_address hf.coinbase).field _ _).bind ?_
  refine ((sends_tokenBalances ht hf.tokens).field _ _).bind ?_
  refine ((sends_uint (k := 8) hf.time).field _ _).bind ?_
  refine ((sends_bigInt hf.difficulty).field _ _).bind ?_
  refine ((sends_bigInt hf.totalDifficulty).field _ _).bind ?_
  refine ((sends_uint (k := 8) hf.nonce).field _ _).bind ?_
  refine ((sends_byteSlice (k := 2) (by decide) hf.extra).field _ _).bind ?_
  refine ((sends_byteArray 32 h.mixDigest).field _ _).bind ?_
  exact ((sends_byteArray 65 h.signature).field _ _).bind sends_pure

theorem yields_minorBlockHeader :
    Yields deserializeMinorBlockHeader fun h => Transmissible h.coinbaseAmount := by
  refine .after fun _ => .after fun _ => .after fun _ => .after fun _ => ?_
  refine (yields_tokenBalances.field _ _).bind fun amounts ht => ?_
  refine .after fun _ => .after fun _ => .after fun _ => .after fun _ => .after fun _ => ?_
  exact .after fun _ => .after fun _ => .after fun _ => .after fun _ => .after fun _ => yields_pure ht

theorem yields_rootBlockHeader :
    Yields deserializeRootBlockHeader fun h => Transmissible h.coinbaseAmount := by
  refine .after fun _ => .after fun _ => .after fun _ => .after fun _ => .after fun _ => .after fun _ => ?_
  refine (yields_tokenBalances.field _ _).bind fun amounts ht => ?_
  refine .after fun _ => .after fun _ => .after fun _ => .after fun _ => ?_
  exact .after fun _ => .after fun _ => .after fun _ => yields_pure ht

/-- **A minor header survives transmission** just when its coinbase amounts do. -/
theorem minorBlockHeader_survives_iff {h : MinorBlockHeader} (hf : h.Fits) :
    Survives keccak serializeMinorBlockHeader deserializeMinorBlockHeader
      MinorBlockHeader.coinbaseAmount h ↔ Transmissible h.coinbaseAmount :=
  survives_iff (sends_minorBlockHeader hf) yields_minorBlockHeader

/-- **A root header survives transmission** just when its coinbase amounts do. -/
theorem rootBlockHeader_survives_iff {h : RootBlockHeader} (hf : h.Fits) :
    Survives keccak serializeRootBlockHeader deserializeRootBlockHeader
      RootBlockHeader.coinbaseAmount h ↔ Transmissible h.coinbaseAmount :=
  survives_iff (sends_rootBlockHeader hf) yields_rootBlockHeader

end QuarkChain.P2p
