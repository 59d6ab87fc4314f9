/-
# The seal, checked lightly and in full

`ValidateSeal` of `src/core/minorblock_validator.go` and `src/core/rootblock_validator.go`.  The full check, when
a block is inserted, uses the difficulty that proof of staked work leaves it.  While headers are synchronised
neither stakes nor the window are there, and the light check divides the difficulty as if every miner had the
stake.

`VerifySeal` of `src/consensus/consensus.go` remembers the last difficulty that each header was verified
with.  A header stands for its hash there, and what the hash algorithm and the signature schemes give for a
header are fields of it.
-/
import QuarkChain.Lib.Outcome
import QuarkChain.Posw.Stake

namespace QuarkChain.Posw

open QuarkChain.Types

inductive SealError
  | invalidDifficulty
  | invalidMixDigest
  | invalidPoW
  | posw (e : PoswError)
  | panicDivision
deriving DecidableEq

/-- A header with its seal. -/
structure SealedHeader extends IHeader where
  /-- The result of the hash algorithm, if the header has its digest. -/
  result : Option ℕ
  /-- `VerifySignature` with the guardian's key. -/
  guardianSigned : Bool
  /-- `sigToAddr`. -/
  recovered : Option Recipient
deriving DecidableEq

/-- `verifySeal` of an engine; a difficulty of zero counts as one. -/
def SealedHeader.verify (header : SealedHeader) (adjustedDiff : ℤ) : Except SealError Unit :=
  if header.difficulty ≤ 0 then .error .invalidDifficulty
  else
    match header.result with
    | none => .error .invalidMixDigest
    | some result =>
        let target : ℤ := 2 ^ 256 / if adjustedDiff = 0 then 1 else adjustedDiff
        if target < result then .error .invalidPoW else .ok ()

/-- `sealVerifiedCache`. -/
abbrev SealCache := SealedHeader → Option ℤ

def verifySeal (cache : SealCache) (header : SealedHeader) (adjustedDiff : ℤ) :
    Except SealError Unit × SealCache :=
  if cache header = some adjustedDiff then (.ok (), cache)
  else
    match header.verify adjustedDiff with
    | .error e => (.error e, cache)
    | .ok () => (.ok (), Function.update cache header (some adjustedDiff))

/-- The caches that calls and evictions lead to. -/
inductive Verified : SealCache → Prop
  | empty : Verified fun _ => none
  | call {cache : SealCache} (h : Verified cache) (header : SealedHeader) (d : ℤ) :
      Verified (verifySeal cache header d).2
  | evict {cache : SealCache} (h : Verified cache) (kept : SealedHeader → Bool) :
      Verified fun header => if kept header then cache header else none

variable {cache cache' : SealCache} {header : SealedHeader} {d d' : ℤ}

theorem Verified.verify (h : Verified cache) (hd : cache header = some d) : header.verify d = .ok () := by
  induction h generalizing header d with
  | empty => cases hd
  | call h header₀ d₀ ih =>
    unfold verifySeal at hd
    split_ifs at hd
    · exact ih hd
    split at hd
    · exact ih hd
    · rename_i hok
      dsimp only at hd
      rcases eq_or_ne header header₀ with rfl | hne
      · rw [Function.update_self] at hd
        cases hd
        exact hok
      · exact ih (by rwa [Function.update_of_ne hne] at hd)
  | evict _ _ ih =>
    dsimp only at hd
    split_ifs at hd
    exact ih hd

theorem Verified.verifySeal (h : Verified cache) : (verifySeal cache header d).1 = header.verify d := by
  unfold Posw.verifySeal
  split_ifs with hd
  · exact (h.verify hd).symm
  · split <;> rename_i hv <;> exact hv.symm

theorem SealedHeader.verify_ok_iff : header.verify d = .ok () ↔ 0 < header.difficulty ∧
    ∃ result, header.result = some result ∧ (result : ℤ) ≤ 2 ^ 256 / if d = 0 then 1 else d := by
  rw [verify]
  generalize (2 ^ 256 / if d = 0 then 1 else d : ℤ) = target
  rcases header.result with _ | result
  · split_ifs <;> simp
  · split_ifs <;> simp <;> omega

theorem SealedHeader.verify_anti (h : header.verify d = .ok ()) (h0 : 0 ≤ d') (hle : d' ≤ d) :
    header.verify d' = .ok () := by
  rw [verify_ok_iff] at h ⊢
  obtain ⟨hdiff, result, hr, hresult⟩ := h
  refine ⟨hdiff, result, hr, ?_⟩
  have hpos : 0 < (if d' = 0 then 1 else d') := by
    split_ifs <;> omega
  have hmono : (if d' = 0 then 1 else d') ≤ if d = 0 then 1 else d := by
    split_ifs <;> omega
  rw [Int.le_ediv_iff_mul_le (hpos.trans_le hmono)] at hresult
  rw [Int.le_ediv_iff_mul_le hpos]
  exact (Int.mul_le_mul_of_nonneg_left hmono (Int.natCast_nonneg result)).trans hresult

def divUint64 (x : ℤ) (y : UInt64) : Except SealError ℤ :=
  if y = 0 then .error .panicDivision else .ok (x / y.toNat)

/-- The difficulty of the light checks: divided whenever proof of staked work is on. -/
def POSWConfig.lightDifficulty (c : POSWConfig) (header : SealedHeader) : Except SealError ℤ :=
  if c.enabled then
    match c.getDiffDivider header.time with
    | .error e => .error (.posw e)
    | .ok divider => divUint64 header.difficulty divider
  else .ok header.difficulty

/-- What both validators do with the difficulty they find; the seal of a genesis block is not checked. -/
def validateSealWith (cache : SealCache) (header : SealedHeader) (adjustedDiff : Except SealError ℤ) :
    Except SealError Unit :=
  if header.number = 0 then .ok () else adjustedDiff.bind fun d => (verifySeal cache header d).1

def StakeConfig.validateSeal (m : StakeConfig) (r : HeadReader)
    (getBalance : Recipient → Hash → Except PoswError ℕ) (posw : Cache) (cache : SealCache)
    (header : SealedHeader) (usePowsDiff : Bool) : Except SealError Unit :=
  validateSealWith cache header <|
    if usePowsDiff then (m.getAdjustedDifficulty r getBalance posw header.toIHeader).1.mapError .posw
    else m.posw.lightDifficulty header

/-- What the root chain reads for the stakes of a coinbase: the last confirmed block of the first shard, and
the stakes and their signer there. -/
structure RootStakes where
  posw : POSWConfig
  getLastConfirmedMinorBlockHeader : Hash → Option Hash
  getStakes : Recipient → Hash → Option (Option ℕ × Option Recipient)

namespace RootStakes

variable (b : RootStakes) (r : HeadReader) (posw : Cache) (header : SealedHeader)

/-- `getSignedPoSWStakes`; `none` for its errors. -/
def getSignedPoSWStakes : Option (Option ℕ) :=
  match b.getLastConfirmedMinorBlockHeader header.parentHash with
  | none => none
  | some hash =>
      match b.getStakes header.coinbase hash with
      | none => none
      | some (stakes, signer) =>
          if signer = none ∨ signer = some 0 then none
          else if header.recovered = signer then some stakes
          else none

/-- `GetAdjustedDifficulty` of the root chain, with `getPoSWAdjustedDiff`; errors are only logged. -/
def getAdjustedDifficulty : Except SealError (ℤ × UInt64) :=
  if header.guardianSigned then .ok (header.difficulty / 1000, 1)
  else if b.posw.isPoSWEnabled header.time header.number then
    match b.getSignedPoSWStakes header with
    | none => .ok (header.difficulty, 1)
    | some none => .ok (header.difficulty, 1)
    | some (some stakes) =>
        match (poSWDiffAdjust r b.posw posw header.toIHeader stakes b.posw.totalStakePerBlock).1 with
        | .error (.blockNotFound _) => .ok (header.difficulty, 1)
        | .error e => .error (.posw e)
        | .ok poswAdjusted =>
            if poswAdjusted < header.difficulty then
              match b.posw.getDiffDivider header.time with
              | .error e => .error (.posw e)
              | .ok divider => .ok (header.difficulty, divider)
            else .ok (header.difficulty, 1)
  else .ok (header.difficulty, 1)

def validateSeal (cache : SealCache) (usePosw : Bool) : Except SealError Unit :=
  validateSealWith cache header <|
    if usePosw then (b.getAdjustedDifficulty r posw header).bind fun x => divUint64 x.1 x.2
    else if header.guardianSigned then .ok (header.difficulty / 1000)
    else b.posw.lightDifficulty header

end RootStakes

/-- The divider at a time can be divided by, and is an `int64`. -/
def POSWConfig.Divides (c : POSWConfig) (time : UInt64) : Prop :=
  ∃ v, c.getDiffDivider time = .ok v ∧ v ≠ 0 ∧ v.toNat < 2 ^ 63

/-- The light difficulty is that of the header, or what staked work divides it to. -/
theorem lightDifficulty_spec {c : POSWConfig} (hv : c.Divides header.time) (hpos : 0 < header.difficulty) :
    ∃ d', c.lightDifficulty header = .ok d' ∧ 0 ≤ d' ∧ d' ≤ header.difficulty ∧
      (c.enabled = true → ∀ v, c.getDiffDivider header.time = .ok v →
        wrapInt v.toNat = v.toNat ∧ v ≠ 0 ∧ d' = header.difficulty / v.toNat) := by
  obtain ⟨v, hdiv, hne, hlt⟩ := hv
  unfold POSWConfig.lightDifficulty
  split_ifs with hon
  · rw [hdiv]
    refine ⟨header.difficulty / v.toNat, if_neg hne, Int.ediv_nonneg hpos.le (Int.natCast_nonneg _),
      Int.ediv_le_self _ hpos.le, fun _ v' hv' => ?_⟩
    cases hv'
    exact ⟨wrapInt_of_lt (by omega) (by omega), hne, rfl⟩
  · exact ⟨_, rfl, hpos.le, le_rfl, fun h => absurd h hon⟩

/-- The validators accept with the lower of two difficulties what they accept with the higher. -/
theorem validateSealWith_anti (hc : Verified cache) (hc' : Verified cache')
    {full light : Except SealError ℤ} (h : validateSealWith cache header full = .ok ())
    (hle : 0 < header.difficulty → ∀ d, full = .ok d → ∃ d', light = .ok d' ∧ 0 ≤ d' ∧ d' ≤ d) :
    validateSealWith cache' header light = .ok () := by
  unfold validateSealWith at h ⊢
  split_ifs at h ⊢
  · rfl
  obtain ⟨d, hfull, hd⟩ := Outcome.bind_eq_ok.mp h
  rw [hc.verifySeal] at hd
  obtain ⟨d', hlight, h0, hd'⟩ := hle (SealedHeader.verify_ok_iff.mp hd).1 d hfull
  rw [hlight]
  exact hc'.verifySeal.trans (SealedHeader.verify_anti hd h0 hd')

/-- The root chain gives the difficulty of the header, undivided or with the divider of staked work. -/
theorem RootStakes.getAdjustedDifficulty_ok {b : RootStakes} {r : HeadReader} {posw : Cache} {x : ℤ × UInt64}
    (h : b.getAdjustedDifficulty r posw header = .ok x) (hg : header.guardianSigned = false) :
    x.1 = header.difficulty ∧
      (x.2 = 1 ∨ b.posw.enabled = true ∧ b.posw.getDiffDivider header.time = .ok x.2) := by
  unfold getAdjustedDifficulty at h
  rw [hg, if_neg Bool.false_ne_true] at h
  split_ifs at h with hon
  · repeat' split at h
    all_goals cases h
    all_goals first
      | exact ⟨rfl, .inl rfl⟩
      | exact ⟨rfl, .inr ⟨(POSWConfig.of_isPoSWEnabled hon).1, ‹_›⟩⟩
  · cases h
    exact ⟨rfl, .inl rfl⟩

/-- **The light check of a seal** takes every header that the full check takes, whatever the two of them
find in the caches. -/
theorem light_seal_of_full_seal (hc : Verified cache) (hc' : Verified cache') (header : SealedHeader) :
    (∀ (m : StakeConfig) r getBalance posw, m.posw.Divides header.time →
      m.validateSeal r getBalance posw cache header true = .ok () →
      m.validateSeal r getBalance posw cache' header false = .ok ()) ∧
    ∀ (b : RootStakes) r posw, b.posw.Divides header.time →
      b.validateSeal r posw header cache true = .ok () →
      b.validateSeal r posw header cache' false = .ok () := by
  constructor
  · intro m r getBalance posw hv h
    refine validateSealWith_anti hc hc' h fun hpos d hd => ?_
    obtain ⟨d', hlight, h0, hle, hdivided⟩ := lightDifficulty_spec hv hpos
    refine ⟨d', hlight, h0, ?_⟩
    have hd : (m.getAdjustedDifficulty r getBalance posw header.toIHeader).1 = .ok d :=
      Outcome.mapError_eq_ok.mp hd
    rcases getAdjustedDifficulty_ok (Prod.ext hd rfl) with rfl | ⟨-, hon, _, _, -, -, hadjust⟩
    · exact hle
    rcases poSWDiffAdjust_ok hadjust with rfl | ⟨-, ⟨v, hv, -, rfl⟩, -⟩
    · exact hle
    · obtain ⟨hwrap, -, rfl⟩ := hdivided ((POSWConfig.of_isPoSWEnabled hon).1) v hv
      rw [hwrap]
  · intro b r posw hv h
    refine validateSealWith_anti hc hc' h fun hpos d hd => ?_
    obtain ⟨x, hx, hdiv⟩ := Outcome.bind_eq_ok.mp hd
    cases hg : header.guardianSigned with
    | true =>
      rw [RootStakes.getAdjustedDifficulty, if_pos hg] at hx
      cases hx
      cases hdiv
      exact ⟨_, rfl, Int.ediv_nonneg hpos.le (by omega), (Int.ediv_one _).ge⟩
    | false =>
      obtain ⟨d', hlight, h0, hle, hdivided⟩ := lightDifficulty_spec hv hpos
      refine ⟨d', hlight, h0, ?_⟩
      obtain ⟨hdiff, hone | ⟨hon, hdivider⟩⟩ := RootStakes.getAdjustedDifficulty_ok hx hg
      · rw [hdiff, hone] at hdiv
        cases hdiv
        exact hle.trans (Int.ediv_one _).ge
      · obtain ⟨-, hne, rfl⟩ := hdivided hon x.2 hdivider
        rw [divUint64, if_neg hne, hdiff] at hdiv
        cases hdiv
        exact le_rfl

/-- A block of difficulty `40` that is sealed against less, as the stake of its miner allows. -/
theorem light_seal_sample :
    decayingStake.validateSeal sampleReader (fun _ _ => .ok 50) (fun _ => none) (fun _ => none)
      ⟨⟨1, 10, 1, 7, 40⟩, some (2 ^ 254), false, none⟩ false = .ok () :=
  (light_seal_of_full_seal .empty .empty _).1 decayingStake sampleReader (fun _ _ => .ok 50) (fun _ => none)
    ⟨20, by decide, by decide, by decide⟩ (by decide +kernel)

end QuarkChain.Posw
