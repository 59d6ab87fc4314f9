/-
# The transaction indexes follow the canonical chain

When is there an entry for exactly the transactions and deposits of the canonical chain?  A block's
entries can be told from those of any other block of its chain: a hash occurs once on a chain, and a
history key holds the height.  So `remove` and `put` act on the set of blocks that the indexes are about
(`Covers`), and a reorganisation exchanges the old branch for the new one.  `SetHead` removes nothing,
and the indexes still follow the chain only where it deletes blocks that have no entries.
-/
import QuarkChain.Minor.Insert
import QuarkChain.Minor.Resubmit
import QuarkChain.Lib.Run

namespace QuarkChain.Minor

open Account BlockTree Config QuarkChain.Types Bytes
open QuarkChain.Core (encodeAddressTxKey encodeAllTxKey addressTxKey allTxKey recipientBytes decodeTxKey
  decodeTxKey_append)

variable {n : IndexSetup} {content : Hash → Option MinorBlock} {t t' : IndexedChain}
  {b c p new : MinorBlock} {x : TxIndex} {S S' : MinorBlock → Prop} {l : List MinorBlock}

def KeyAt (height : ℕ) (key : List UInt8) : Prop :=
  ∃ index crossShard, key = encodeAllTxKey height index crossShard ∨
    ∃ a, key = encodeAddressTxKey a height index crossShard

theorem decode_all (height index : ℕ) (crossShard : Bool) :
    decodeTxKey (encodeAllTxKey height index crossShard) 4 0 =
      .ok (height % 2 ^ 32, crossShard, index % 2 ^ 32) :=
  decodeTxKey_append rfl height index crossShard

theorem decode_address (a : Recipient) (height index : ℕ) (crossShard : Bool) :
    decodeTxKey (encodeAddressTxKey a height index crossShard) 5 20 =
      .ok (height % 2 ^ 32, crossShard, index % 2 ^ 32) :=
  decodeTxKey_append (by rw [List.length_append, recipientBytes, length_toBE]; rfl) height index
    crossShard

theorem encodeAllTxKey_ne (a : Recipient) (height index height' index' : ℕ)
    (crossShard crossShard' : Bool) :
    encodeAllTxKey height index crossShard ≠ encodeAddressTxKey a height' index' crossShard' := by
  intro h
  have hlen := congrArg (fun key => key[2]?) h
  simp [encodeAllTxKey, encodeAddressTxKey, addressTxKey, allTxKey] at hlen

variable {res : Except ChainError Unit} {rBlock : RootBlock} {key : List UInt8}

theorem KeyAt.height_eq {height height' : ℕ} (hk : KeyAt height key)
    (hk' : KeyAt height' key) (hlt : height < 2 ^ 32) (hlt' : height' < 2 ^ 32) :
    height = height' := by
  have hmod : height % 2 ^ 32 = height' % 2 ^ 32 := by
    obtain ⟨i, f, rfl | ⟨a, rfl⟩⟩ := hk
    · obtain ⟨i', f', heq | ⟨a', heq⟩⟩ := hk'
      · have := congrArg (fun key => decodeTxKey key 4 0) heq
        simp only [decode_all] at this
        exact (Prod.mk.inj (Except.ok.inj this)).1
      · exact (encodeAllTxKey_ne _ _ _ _ _ _ _ heq).elim
    · obtain ⟨i', f', heq | ⟨a', heq⟩⟩ := hk'
      · exact (encodeAllTxKey_ne _ _ _ _ _ _ _ heq.symm).elim
      · have := congrArg (fun key => decodeTxKey key 5 20) heq
        simp only [decode_address] at this
        exact (Prod.mk.inj (Except.ok.inj this)).1
  rwa [Nat.mod_eq_of_lt hlt, Nat.mod_eq_of_lt hlt'] at hmod

theorem keyAt_of_mem (hk : key ∈ n.historyKeys b) : KeyAt b.number key := by
  rw [IndexSetup.historyKeys, List.mem_append] at hk
  rcases hk with hk | hk
  · obtain ⟨⟨tx, index⟩, -, hk⟩ := List.mem_flatMap.mp hk
    simp only at hk
    rcases hsender : tx.sender n.networkID with _ | sender
    · simp [hsender] at hk
    rw [hsender, Option.elim_some, IndexSetup.txKeys, List.mem_append] at hk
    rcases hk with hk | hk
    · rcases List.mem_pair.mp hk with rfl | rfl
      · exact ⟨_, _, .inl rfl⟩
      · exact ⟨_, _, .inr ⟨_, rfl⟩⟩
    · split at hk
      · split_ifs at hk
        · obtain rfl := List.mem_singleton.mp hk
          exact ⟨_, _, .inr ⟨_, rfl⟩⟩
        · cases hk
      · cases hk
  · obtain ⟨⟨tx, index⟩, -, hk⟩ := List.mem_flatMap.mp hk
    simp only at hk
    split_ifs at hk
    · cases hk
    · obtain rfl := List.mem_singleton.mp hk
      exact ⟨_, _, .inr ⟨_, rfl⟩⟩
    · rcases List.mem_pair.mp hk with rfl | rfl
      · exact ⟨_, _, .inr ⟨_, rfl⟩⟩
      · exact ⟨_, _, .inl rfl⟩

/-- The entries of the indexes are those of the blocks in a set, and name block and position. -/
structure Covers (n : IndexSetup) (S : MinorBlock → Prop) (x : TxIndex) : Prop where
  lookup : ∀ h e, x.lookup h = some e ↔
    ∃ b, S b ∧ e.blockHash = b.hash ∧ (n.contents b)[e.index]? = some h
  history : ∀ key, x.history key = true ↔ ∃ b, S b ∧ key ∈ n.historyKeys b

/-- Two blocks whose entries cannot be confused. -/
structure Apart (n : IndexSetup) (b c : MinorBlock) : Prop where
  contents : ∀ h, h ∈ n.contents b → h ∈ n.contents c → b = c
  keys : ∀ key, key ∈ n.historyKeys b → key ∈ n.historyKeys c → b = c

namespace Covers

variable (hx : Covers n S x)
include hx

theorem congr (hS : ∀ b, S' b ↔ S b) : Covers n S' x where
  lookup h e := by simp only [hx.lookup, hS]
  history key := by simp only [hx.history, hS]

theorem put (hnd : (n.contents b).Nodup)
    (hlen : (n.contents b).length ≤ 2 ^ 32) (ha : ∀ c, S c → Apart n b c) :
    Covers n (fun c => c = b ∨ S c) (n.put b x) where
  lookup h e := by
    rw [IndexSetup.put, writeLookups_eq_some hnd (by omega)]
    constructor
    · rintro (⟨j, hj, rfl⟩ | ⟨-, hold⟩)
      · exact ⟨b, .inl rfl, rfl, by rwa [Nat.zero_add]⟩
      · obtain ⟨c, hc, hhash, hat⟩ := (hx.lookup h e).mp hold
        exact ⟨c, .inr hc, hhash, hat⟩
    · rintro ⟨c, hc, hhash, hat⟩
      by_cases hmem : h ∈ n.contents b
      · -- an entry of the set for a hash of the block is the block's own
        have hcb : c = b := by
          rcases hc with rfl | hc
          · rfl
          · exact ((ha c hc).contents h hmem (List.mem_of_getElem? hat)).symm
        subst hcb
        refine .inl ⟨e.index, hat, ?_⟩
        rw [Nat.zero_add, ← hhash]
      · rcases hc with rfl | hc
        · exact absurd (List.mem_of_getElem? hat) hmem
        · exact .inr ⟨hmem, (hx.lookup h e).mpr ⟨c, hc, hhash, hat⟩⟩
  history key := by
    simp only [IndexSetup.put, setAll_apply]
    split_ifs with hmem
    · exact ⟨fun _ => ⟨b, .inl rfl, hmem⟩, fun _ => rfl⟩
    rw [hx.history]
    constructor
    · rintro ⟨c, hc, hk⟩
      exact ⟨c, .inr hc, hk⟩
    · rintro ⟨c, rfl | hc, hk⟩
      · exact absurd hk hmem
      · exact ⟨c, hc, hk⟩

theorem remove (ha : ∀ c, S c → Apart n b c) :
    Covers n (fun c => S c ∧ c ≠ b) (n.remove b x) where
  lookup h e := by
    simp only [IndexSetup.remove, setAll_apply]
    split_ifs with hmem
    · constructor
      · intro hnone
        cases hnone
      · rintro ⟨c, ⟨hc, hne⟩, -, hat⟩
        exact absurd ((ha c hc).contents h hmem (List.mem_of_getElem? hat)).symm hne
    · rw [hx.lookup]
      constructor
      · rintro ⟨c, hc, hhash, hat⟩
        refine ⟨c, ⟨hc, ?_⟩, hhash, hat⟩
        rintro rfl
        exact hmem (List.mem_of_getElem? hat)
      · rintro ⟨c, ⟨hc, -⟩, hhash, hat⟩
        exact ⟨c, hc, hhash, hat⟩
  history key := by
    simp only [IndexSetup.remove, setAll_apply]
    split_ifs with hmem
    · constructor
      · intro hfalse
        cases hfalse
      · rintro ⟨c, ⟨hc, hne⟩, hk⟩
        exact absurd ((ha c hc).keys key hmem hk).symm hne
    · rw [hx.history]
      constructor
      · rintro ⟨c, hc, hk⟩
        refine ⟨c, ⟨hc, ?_⟩, hk⟩
        rintro rfl
        exact hmem hk
      · rintro ⟨c, ⟨hc, -⟩, hk⟩
        exact ⟨c, hc, hk⟩

theorem removeAll (ha : ∀ b ∈ l, ∀ c, S c → Apart n b c) :
    Covers n (fun c => S c ∧ c ∉ l) (l.foldr n.remove x) := by
  induction l with
  | nil => exact hx.congr fun c => by simp
  | cons b l ih =>
    obtain ⟨hb, hl⟩ := List.forall_mem_cons.mp ha
    have hx' := (ih hl).remove fun c hc => hb c hc.1
    refine hx'.congr fun c => ?_
    rw [List.mem_cons, not_or]
    tauto

theorem putAll (hnd : ∀ b ∈ l, (n.contents b).Nodup)
    (hlen : ∀ b ∈ l, (n.contents b).length ≤ 2 ^ 32)
    (ha : ∀ b ∈ l, ∀ c, c ∈ l ∨ S c → Apart n b c) :
    Covers n (fun c => c ∈ l ∨ S c) (l.foldr n.put x) := by
  induction l with
  | nil => exact hx.congr fun c => by simp
  | cons b l ih =>
    obtain ⟨hndb, hndl⟩ := List.forall_mem_cons.mp hnd
    obtain ⟨hlenb, hlenl⟩ := List.forall_mem_cons.mp hlen
    have hx' := ih hndl hlenl fun b hb c hc =>
      ha b (List.mem_cons_of_mem _ hb) c (hc.imp_left (List.mem_cons_of_mem _))
    have hx'' := hx'.put hndb hlenb fun c hc =>
      ha b List.mem_cons_self c (hc.imp_left (List.mem_cons_of_mem _))
    refine hx''.congr fun c => ?_
    rw [List.mem_cons, or_assoc]

end Covers

/-! ### The chain that the indexes follow -/

/-- Blocks as execution accepts them: every transaction has a sender, heights and positions have 32
bits, and no hash of a transaction or deposit occurs twice on a chain. -/
structure Proper (n : IndexSetup) (content : Hash → Option MinorBlock) : Prop where
  sender : ∀ {k b}, content k = some b → ∀ tx ∈ b.transactions, (tx.sender n.networkID).isSome = true
  height : ∀ {k b}, content k = some b → b.number < 2 ^ 32
  length : ∀ {k b}, content k = some b → (n.contents b).length ≤ 2 ^ 32
  nodup : ∀ {k b}, content k = some b → (n.contents b).Nodup
  distinct : ∀ {k b}, content k = some b → ∀ c d, Descends content c b → Descends content d b →
    ∀ h, h ∈ n.contents c → h ∈ n.contents d → c = d

/-- **The property of the indexes**: the entries are those of the blocks of the canonical chain. -/
def Exact (n : IndexSetup) (t : IndexedChain) : Prop :=
  Covers n (fun b => Descends t.chain.getMinorBlock b t.chain.currentBlock) t.index

/-- The invariant: besides the property, the deposits of executed blocks are recorded. -/
structure Tracked (n : IndexSetup) (content : Hash → Option MinorBlock) (t : IndexedChain) : Prop where
  wf : Wf content t.chain
  recorded : ∀ {k b}, content k = some b → (t.chain.totalTxCount k).isSome = true →
    t.confirmed k = some (n.received b)
  exact : Exact n t

theorem Proper.apart (hp : Proper n content) {get : Hash → Option MinorBlock}
    (hw : Within content get) (hn : get new.hash = some new) (hb : Descends get b new)
    (hc : Descends get c new) : Apart n b c where
  contents h := hp.distinct (hw.genuine hn) b c (hb.mono fun _ _ => hw.genuine)
    (hc.mono fun _ _ => hw.genuine) h
  keys key hkb hkc := by
    have hsb := hw.consistent.stored_of_descends hn hb
    have hsc := hw.consistent.stored_of_descends hn hc
    have hnum : b.number = c.number :=
      (keyAt_of_mem hkb).height_eq (keyAt_of_mem hkc) (hp.height (hw.genuine hsb))
        (hp.height (hw.genuine hsc))
    -- a chain has one block at a height
    have hat := hw.consistent.atHeight_of_descends hn hb
    have hat' := hw.consistent.atHeight_of_descends hn hc
    rw [chained_number] at hat hat'
    rw [hnum, hat'] at hat
    exact (Option.some.inj hat).symm

namespace Tracked

theorem ready (ht : Tracked n content t) (hp : Proper n content)
    (hn : t.chain.getMinorBlock new.hash = some new)
    (hc : (t.chain.totalTxCount new.hash).isSome = true)
    (hb : Descends t.chain.getMinorBlock b new) : n.Ready t.confirmed b where
  sender := hp.sender (ht.wf.within.genuine (ht.wf.consistent.stored_of_descends hn hb))
  recorded := ht.recorded (ht.wf.within.genuine (ht.wf.consistent.stored_of_descends hn hb))
    (ht.wf.counted_descends hn hc hb)

theorem put_covers (ht : Tracked n content t) (hp : Proper n content)
    (hn : t.chain.getMinorBlock new.hash = some new)
    (hS : ∀ c, S c → Descends t.chain.getMinorBlock c new) (hx : Covers n S x)
    (hb : Descends t.chain.getMinorBlock b new) :
    Covers n (fun c => c = b ∨ S c) (n.put b x) :=
  have hgenuine := ht.wf.within.genuine (ht.wf.consistent.stored_of_descends hn hb)
  hx.put (hp.nodup hgenuine) (hp.length hgenuine) fun c hc => hp.apart ht.wf.within hn hb (hS c hc)

theorem exact_grow (he : Exact n t) (hw : Wf content t.chain) (hw' : Wf content t'.chain)
    (hmono : ∀ k c, t.chain.getMinorBlock k = some c → t'.chain.getMinorBlock k = some c)
    (hcur : t'.chain.currentBlock = t.chain.currentBlock) (hx : t'.index = t.index) : Exact n t' := by
  rw [Exact, hx, hcur]
  exact Covers.congr he fun b =>
    hw.rooted.descends_iff_of_mono hw'.consistent hmono (hmono _ _ hw.current)

variable (ht : Tracked n content t)
include ht

/-- **A reorganisation exchanges the entries of the two branches**, whatever block is the head when it
starts: `AddRootBlock` has moved it by then. -/
theorem reorg (hp : Proper n content) (hn : t.chain.getMinorBlock new.hash = some new)
    (hc : (t.chain.totalTxCount new.hash).isSome = true) (tip : MinorBlock) :
    let s := { t.chain with currentBlock := tip }
    (∃ e, branches t.chain.getMinorBlock t.chain.currentBlock new = .error e ∧
      n.reorg { t with chain := s } t.chain.currentBlock new =
        (.error (.chain (.reorg e)), { t with chain := s }) ∧
      s.reorg t.chain.currentBlock new = (.error (.reorg e), s)) ∨
    ∃ canon x, let s' := { t.chain with canonicalHash := canon, currentBlock := new }
      s.reorg t.chain.currentBlock new = (.ok (), s') ∧
      n.reorg { t with chain := s } t.chain.currentBlock new = (.ok (), { t with chain := s', index := x }) ∧
      Tracked n content { t with chain := s', index := x } := by
  intro s
  cases hb : branches t.chain.getMinorBlock t.chain.currentBlock new with
  | error e =>
    refine .inl ⟨e, rfl, ?_, ?_⟩
    · rw [IndexSetup.reorg, show branches s.getMinorBlock _ new = _ from hb]
    · rw [MinorBlockChain.reorg, show branches s.getMinorBlock _ new = _ from hb]
  | ok r =>
    obtain ⟨lo, ln, last⟩ := r
    right
    obtain ⟨canon, hre, hi⟩ : ∃ canon, s.reorg t.chain.currentBlock new =
        (.ok (), { t.chain with canonicalHash := canon, currentBlock := new }) ∧
        Wf content { t.chain with canonicalHash := canon, currentBlock := new } := by
      rcases reorg_cases (s := s) ht.wf.consistent ht.wf.current hn with
        ⟨e, herr, -⟩ | ⟨canon, lo, ln, hbr, hall, hre, hi⟩ | ⟨-, d, hd, hnone⟩
      · rw [show branches s.getMinorBlock _ new = _ from hb] at herr
        cases herr
      · exact ⟨canon, hre, ht.wf.reorg hn hbr hall hi⟩
      · have := ht.wf.counted_descends hn hc hd
        rw [hnone] at this
        cases this
    obtain ⟨hbr, -⟩ := branches_spec ht.wf.consistent ht.wf.current hn hb
    simp only at hbr
    obtain ⟨Base, hold, hnew, hbase⟩ := hbr.exists_base ht.wf.consistent ht.wf.current hn
    -- the entries of both branches are made without an error
    have hremove : n.removeBranch t.confirmed lo t.index = (.ok (), lo.foldr n.remove t.index) :=
      IndexSetup.removeBranch_eq fun b hb =>
        ht.ready hp ht.wf.current ht.wf.currentCounted ((hold b).mpr (.inl hb))
    have hdesc : ∀ b ∈ ln, Descends t.chain.getMinorBlock b new := fun b hb => (hnew b).mpr (.inl hb)
    have hreorg : n.reorg { t with chain := s } t.chain.currentBlock new = (.ok (), { t with
        chain := { t.chain with canonicalHash := canon, currentBlock := new }
        index := ln.foldr n.put (lo.foldr n.remove t.index) }) := by
      rw [MinorBlockChain.reorg, show branches s.getMinorBlock _ new = _ from hb] at hre
      simp only at hre
      rw [IndexSetup.reorg, show branches s.getMinorBlock _ new = _ from hb]
      simp only [hremove]
      rw [IndexSetup.insertBranch_eq, hre]
      · exact fun b hb => ht.ready hp hn hc (hdesc b hb)
      · intro b hb
        have := ht.wf.counted_descends hn hc (hdesc b hb)
        simp only
        split_ifs <;> exact this
    refine ⟨canon, _, hre, hreorg, hi, ht.recorded, ?_⟩
    have hcovers : Covers n Base (lo.foldr n.remove t.index) := by
      refine (Covers.removeAll ht.exact fun b hb c hc => ?_).congr fun c => ?_
      · exact hp.apart ht.wf.within ht.wf.current ((hold b).mpr (.inl hb)) hc
      · rw [hold]
        have := hbase c
        tauto
    refine (hcovers.putAll ?_ ?_ ?_).congr fun c => hnew c
    · intro b hb
      exact hp.nodup (ht.wf.within.genuine (ht.wf.consistent.stored_of_descends hn (hdesc b hb)))
    · intro b hb
      exact hp.length (ht.wf.within.genuine (ht.wf.consistent.stored_of_descends hn (hdesc b hb)))
    · intro b hb c hc
      exact hp.apart ht.wf.within hn (hdesc b hb) ((hnew c).mpr hc)

theorem record (hb : content b.hash = some b)
    (hp : t.chain.getMinorBlock b.parentHash = some p) (hn : b.number = p.number + 1) {k : ℕ}
    (hk : 1 < b.number → (t.chain.totalTxCount b.parentHash).isSome = true) :
    Tracked n content { t with
      chain := { t.chain.writeMinorBlock b with
        totalTxCount := Function.update t.chain.totalTxCount b.hash (some k)
        hasState := Function.update t.chain.hasState b.root true }
      confirmed := Function.update t.confirmed b.hash (some (n.received b)) } := by
  have hw : Wf content { t.chain.writeMinorBlock b with
      totalTxCount := Function.update t.chain.totalTxCount b.hash (some k)
      hasState := Function.update t.chain.hasState b.root true } :=
    (ht.wf.record hb hp hn (c := k) hk).congr rfl rfl rfl rfl rfl rfl
  refine ⟨hw, ?_, exact_grow ht.exact ht.wf hw (ht.wf.within.store_mono hb) rfl rfl⟩
  intro h c hc hcount
  by_cases hh : h = b.hash
  · subst hh
    rw [hb] at hc
    cases hc
    exact Function.update_self ..
  · simp only [Function.update_of_ne hh] at hcount ⊢
    exact ht.recorded hc hcount

theorem writeHead (hprop : Proper n content) (hb : t.chain.getMinorBlock b.hash = some b)
    (hc : (t.chain.totalTxCount b.hash).isSome = true) :
    Tracked n content (n.writeHead t b).2 ∧
      (n.writeHead t b).2.chain =
        if b.parentHash = t.chain.currentBlock.hash then t.chain.insert b
        else match t.chain.reorg t.chain.currentBlock b with
          | (.error _, s₃) => s₃
          | (.ok _, s₃) => s₃.insert b := by
  rw [IndexSetup.writeHead]
  split_ifs with hparent
  · have hready : n.Ready t.confirmed b := ht.ready hprop hb hc .refl
    simp only [IndexSetup.putTxIndexFromBlock_eq hready, and_true]
    have hlink : t.chain.getMinorBlock b.parentHash = some t.chain.currentBlock := by
      rw [hparent]
      exact ht.wf.current
    have hseg : Segment t.chain.getMinorBlock b [b] t.chain.currentBlock :=
      .cons hlink (ht.wf.consistent.linked hb hlink) (.nil _)
    have hbr : Branches t.chain.getMinorBlock t.chain.currentBlock b [] [b] := .common (.nil _) hseg
    refine ⟨ht.wf.reorg hb hbr (by simpa using hc) fun hi => hi.exchange hbr, ht.recorded, ?_⟩
    refine (ht.put_covers hprop hb (fun c => .step hlink) ht.exact .refl).congr fun c => ?_
    rw [MinorBlockChain.insert, hseg.descends_iff, List.mem_singleton]
  · rcases ht.reorg hprop hb hc t.chain.currentBlock with
      ⟨e, -, hre, hchain⟩ | ⟨canon, x, hchain, hre, ht₁⟩
    · simp only [hre, hchain, and_true]
      exact ht
    have hready : n.Ready t.confirmed b := ht.ready hprop hb hc .refl
    simp only [hre, hchain, IndexSetup.putTxIndexFromBlock_eq hready, and_true]
    have hinsert := ht₁.wf.insert_current
    simp only at hinsert
    rw [hinsert]
    -- the block was entered by the reorganisation, and is entered once more
    refine ⟨ht₁.wf, ht₁.recorded, ?_⟩
    refine (ht₁.put_covers hprop hb (fun c => id) ht₁.exact .refl).congr fun c => ?_
    constructor
    · exact .inr
    · rintro (rfl | hd)
      · exact .refl
      · exact hd

/-- **Writing an executed block keeps the invariant.** -/
theorem writeBlockWithState (hprop : Proper n content)
    (hb : content b.hash = some b) (hp : t.chain.getMinorBlock b.parentHash = some p)
    (hn : b.number = p.number + 1) (up : Bool) :
    Tracked n content (n.writeBlockWithState t b up).2 ∧
      (n.writeBlockWithState t b up).2.chain = (t.chain.writeBlockWithState b up).2 := by
  simp only [IndexSetup.writeBlockWithState, MinorBlockChain.writeBlockWithState]
  rcases putMinorBlock_cases (ht.wf.same hb) with ⟨hput, -⟩ | ⟨k, hput, hcount⟩
  · simp only [hput]
    have hw := ht.wf.writeMinorBlock hb hp hn
    exact ⟨⟨hw, ht.recorded, exact_grow ht.exact ht.wf hw (ht.wf.within.store_mono hb) rfl rfl⟩,
      trivial⟩
  simp only [hput]
  have ht₁ : Tracked n content { t with
      chain := { t.chain.writeMinorBlock b with
        totalTxCount := Function.update t.chain.totalTxCount b.hash (some k)
        hasState := Function.update t.chain.hasState b.root true }
      confirmed := Function.update t.confirmed b.hash (some (n.received b)) } :=
    ht.record hb hp hn hcount
  rcases up with _ | _
  · exact ⟨ht₁, rfl⟩
  simp only [if_true]
  obtain ⟨ht₂, hchain⟩ := ht₁.writeHead hprop (b := b) (Function.update_self ..)
    (by simp)
  refine ⟨ht₂, hchain.trans ?_⟩
  simp only [MinorBlockChain.writeMinorBlock]
  by_cases hparent : b.parentHash = t.chain.currentBlock.hash
  · rw [if_pos hparent]
    exact if_pos hparent
  · rw [if_neg hparent]
    refine (if_neg hparent).trans ?_
    generalize MinorBlockChain.reorg _ _ _ = moved
    rcases moved with ⟨_ | _, _⟩ <;> rfl

/-- **Importing an executed block keeps the invariant**, and moves the chain as it does without indexes. -/
theorem importBlock (hprop : Proper n content)
    (hb : content b.hash = some b) (hp : t.chain.getMinorBlock b.parentHash = some p)
    (hn : b.number = p.number + 1) {res : Except IndexError Unit}
    (hs : n.importBlock t b = .ok (res, t')) :
    Tracked n content t' ∧ ∃ r, t.chain.importBlock b = .ok (r, t'.chain) := by
  rw [IndexSetup.importBlock] at hs
  rw [MinorBlockChain.importBlock]
  rcases htip : t.chain.updateTip b with f | _ | _ | _
  · simp only [htip] at hs
    cases hs
  · simp only [htip] at hs ⊢
    cases hs
    exact ⟨ht, _, rfl⟩
  · simp only [htip] at hs ⊢
    obtain ⟨ht', hchain⟩ := ht.writeBlockWithState hprop hb hp hn false
    rw [Except.ok.inj hs] at ht' hchain
    exact ⟨ht', _, congrArg Except.ok (Prod.ext rfl hchain.symm)⟩
  · simp only [htip] at hs ⊢
    have ht₁ : Tracked n content { t with chain := { t.chain with currentEvmState := b.root } } :=
      ⟨ht.wf.congr rfl rfl rfl rfl rfl rfl, ht.recorded, ht.exact⟩
    obtain ⟨ht', hchain⟩ := ht₁.writeBlockWithState hprop hb hp hn true
    rw [Except.ok.inj hs] at ht' hchain
    exact ⟨ht', _, congrArg Except.ok (Prod.ext rfl hchain.symm)⟩

theorem writeMinorBlock (hb : content b.hash = some b)
    (hp : t.chain.getMinorBlock b.parentHash = some p) (hn : b.number = p.number + 1) :
    Tracked n content (t.writeMinorBlock b) :=
  have hw := ht.wf.writeMinorBlock hb hp hn
  ⟨hw, ht.recorded, exact_grow ht.exact ht.wf hw (ht.wf.within.store_mono hb) rfl rfl⟩

theorem moveHead (hprop : Proper n content)
    (hb : t.chain.getMinorBlock new.hash = some new)
    (hc : (t.chain.totalTxCount new.hash).isSome = true)
    (hmove : ¬ t.chain.CannotMove t.chain.currentBlock new) :
    Tracked n content (n.moveHead t new).2 := by
  obtain ⟨hstate, hbranches⟩ := not_or.mp hmove
  rw [IndexSetup.moveHead, IndexSetup.reWriteBlockIndexTo, if_pos (Bool.not_eq_false _ ▸ hstate)]
  rcases ht.reorg hprop hb hc new with ⟨e, herr, -⟩ | ⟨canon, x, -, hre, ht₁⟩
  · exact absurd (.inl ⟨e, herr⟩) hbranches
  · rw [hre]
    exact ⟨ht₁.wf.congr rfl rfl rfl rfl rfl rfl, ht₁.recorded, ht₁.exact⟩

end Tracked

theorem historyKeys_of_contents_nil (hb : n.contents b = []) : n.historyKeys b = [] := by
  obtain ⟨htxs, hreceived⟩ := List.append_eq_nil_iff.mp hb
  rw [IndexSetup.historyKeys, List.map_eq_nil_iff.mp htxs, List.map_eq_nil_iff.mp hreceived]
  rfl

theorem Covers.without (hx : Covers n S x) (hS : ∀ b, S' b → S b)
    (hempty : ∀ b, S b → ¬ S' b → n.contents b = []) : Covers n S' x where
  lookup h e := by
    rw [hx.lookup]
    constructor
    · rintro ⟨b, hb, hhash, hat⟩
      refine ⟨b, ?_, hhash, hat⟩
      by_contra hout
      rw [hempty b hb hout] at hat
      cases hat
    · rintro ⟨b, hb, hhash, hat⟩
      exact ⟨b, hS b hb, hhash, hat⟩
  history key := by
    rw [hx.history]
    constructor
    · rintro ⟨b, hb, hk⟩
      refine ⟨b, ?_, hk⟩
      by_contra hout
      rw [historyKeys_of_contents_nil (hempty b hb hout)] at hk
      cases hk
    · rintro ⟨b, hb, hk⟩
      exact ⟨b, hS b hb, hk⟩

/-- When a `SetHead` to a height keeps the property: the state of the block it rewinds to is there, and
the blocks above have neither transactions nor deposits. -/
structure Rewindable (n : IndexSetup) (t : IndexedChain) (head : ℕ) : Prop where
  state : ∀ c, atHeight t.chain.getMinorBlock t.chain.currentBlock
    (min head t.chain.currentBlock.number) = some c → t.chain.hasState c.root = true
  empty : ∀ b, Descends t.chain.getMinorBlock b t.chain.currentBlock → head < b.number →
    n.contents b = []

theorem Tracked.setHead (ht : Tracked n content t) {nested head : ℕ} (hr : Rewindable n t head)
    (hs : t.setHead nested head = .ok (res, t')) :
    Tracked n content t' := by
  rw [IndexedChain.setHead, ht.wf.setHead_eq hr.state] at hs
  cases hs
  have hw := ht.wf.rewindTo hr.state
  refine ⟨hw, ?_, ?_⟩
  · exact ht.recorded
  · obtain ⟨l, c, hseg, hnum, hrew⟩ := ht.wf.rewindTo_spec hr.state
    have hsub : ∀ k d, (t.chain.rewindTo head).getMinorBlock k = some d →
        t.chain.getMinorBlock k = some d := by
      intro k d hd
      rw [hrew] at hd
      simp only at hd
      split_ifs at hd
      exact hd
    have hcur : (t.chain.rewindTo head).currentBlock = c := by rw [hrew]
    have hiff : ∀ b, Descends (t.chain.rewindTo head).getMinorBlock b c ↔
        Descends t.chain.getMinorBlock b c := by
      intro b
      rw [← hcur]
      exact (hw.rooted.descends_iff_of_mono ht.wf.consistent hsub (hsub _ _ hw.current)).symm
    have hx : Covers n (fun b => Descends t.chain.getMinorBlock b c) t.index := by
      refine Covers.without ht.exact (fun b hb => hb.trans hseg.descends) fun b hb hout => ?_
      -- the block is in the branch above the new head
      have hmem : b ∈ l := (hseg.descends_iff.mp hb).resolve_right hout
      have hlow : c.number < b.number := hseg.mem_number hmem
      have hhigh : b.number ≤ t.chain.currentBlock.number := ht.wf.consistent.number_le ht.wf.current hb
      exact hr.empty b hb (by omega)
    rw [Exact]
    simp only [hcur]
    exact hx.congr hiff

/-- The calls that change the chain: a block is imported after validation and execution, or stored
without execution; the head is moved to a stored block, as `AddRootBlock` does; the chain is rewound. -/
inductive TxEvent
  | importBlock (block : MinorBlock)
  | writeMinorBlock (block : MinorBlock)
  | moveHead (block : MinorBlock)
  | setHead (nested head : ℕ)

/-- A step of the chain with its indexes, whether the call succeeds or returns an error. -/
inductive TxStep (n : IndexSetup) : IndexedChain → TxEvent → IndexedChain → Prop
  | importBlock {t t' : IndexedChain} {b : MinorBlock} {res : Except IndexError Unit}
      (hs : n.importBlock t b = .ok (res, t')) : TxStep n t (.importBlock b) t'
  | writeMinorBlock {t : IndexedChain} {b : MinorBlock} :
      TxStep n t (.writeMinorBlock b) (t.writeMinorBlock b)
  | moveHead {t : IndexedChain} {b : MinorBlock} : TxStep n t (.moveHead b) (n.moveHead t b).2
  | setHead {t t' : IndexedChain} {nested head : ℕ} {res : Except ChainError Unit}
      (hs : t.setHead nested head = .ok (res, t')) : TxStep n t (.setHead nested head) t'

/-- The condition on a step: the head is only moved where it can follow, and a rewind deletes blocks
without entries only. -/
def TxGuard (n : IndexSetup) (content : Hash → Option MinorBlock) (t : IndexedChain) : TxEvent → Prop
  | .importBlock b | .writeMinorBlock b => content b.hash = some b ∧
      ∃ p, t.chain.getMinorBlock b.parentHash = some p ∧ b.number = p.number + 1
  | .moveHead b => t.chain.getMinorBlock b.hash = some b ∧
      (t.chain.totalTxCount b.hash).isSome = true ∧ ¬ t.chain.CannotMove t.chain.currentBlock b
  | .setHead _ head => Rewindable n t head

/-- **One step keeps the invariant.** -/
theorem Tracked.step (hprop : Proper n content) {e : TxEvent} (ht : Tracked n content t)
    (hg : TxGuard n content t e) (hs : TxStep n t e t') : Tracked n content t' := by
  cases hs with
  | importBlock hs =>
    obtain ⟨hb, p, hp, hn⟩ := hg
    exact (ht.importBlock hprop hb hp hn hs).1
  | writeMinorBlock =>
    obtain ⟨hb, p, hp, hn⟩ := hg
    exact ht.writeMinorBlock hb hp hn
  | moveHead => exact ht.moveHead hprop hg.1 hg.2.1 hg.2.2
  | setHead hs => exact ht.setHead hg hs

theorem Tracked.initial (hg : Genesis content (n.createMinorBlock rBlock))
    (hempty : n.contents (n.createMinorBlock rBlock) = []) :
    Tracked n content (n.initial rBlock) := by
  have hw : Wf content (MinorBlockChain.initial n.toShardSetup rBlock) := .initial hg
  refine ⟨hw, ?_, ?_⟩
  · intro k b hb hk
    have hkey : k = (n.createMinorBlock rBlock).hash := by
      by_contra hne
      simp [IndexSetup.initial, MinorBlockChain.initial, Function.update_of_ne hne] at hk
    subst hkey
    rw [hg.genuine] at hb
    cases hb
    obtain ⟨-, hreceived⟩ := List.append_eq_nil_iff.mp hempty
    rw [List.map_eq_nil_iff.mp hreceived]
    simp only [IndexSetup.initial, Function.update_self]
  · have honly : ∀ b, Descends (n.initial rBlock).chain.getMinorBlock b
        (n.initial rBlock).chain.currentBlock → n.contents b = [] := by
      intro b hd
      cases hd with
      | refl => exact hempty
      | step hp _ =>
        have hparent := hw.within.genuine hp
        rw [show parentHash (n.initial rBlock).chain.currentBlock =
          (n.createMinorBlock rBlock).parentHash from rfl, hg.noParent] at hparent
        cases hparent
    refine ⟨fun h e => ?_, fun key => ?_⟩
    · constructor
      · rintro ⟨⟩
      · rintro ⟨b, hd, -, hat⟩
        rw [honly b hd] at hat
        cases hat
    · constructor
      · rintro ⟨⟩
      · rintro ⟨b, hd, hk⟩
        rw [historyKeys_of_contents_nil (honly b hd)] at hk
        cases hk

theorem Tracked.of_reaches (hprop : Proper n content)
    (hg : Genesis content (n.createMinorBlock rBlock))
    (hempty : n.contents (n.createMinorBlock rBlock) = [])
    (hr : Run.Reaches (TxStep n) (TxGuard n content) (n.initial rBlock) t) : Tracked n content t :=
  hr.induct_inv (Tracked n content) (.initial hg hempty) fun _ _ _ ht hguard hs =>
    ht.step hprop hguard hs

/-- The invariant is kept by both elementary steps of an insertion. -/
theorem Tracked.kept (m : Setup) (hprop : Proper n content) :
    Kept m n false (Tracked n content) fun b => content b.hash = some b where
  imported := by
    intro now force t block executed res t' _ ht hb hv _ _ hs
    obtain ⟨p, hp, hn⟩ := validateBlock_parent hv (by simp)
    exact (ht.importBlock hprop hb hp hn hs).1
  side := by
    intro now force t block ht hb hv _
    obtain ⟨p, hp, hn⟩ := validateBlock_parent hv (by simp)
    exact ht.writeMinorBlock hb hp hn
  stored := by
    intro t k block ht hb
    have hkey : block.hash = k := ht.wf.within.keyed hb
    rw [hkey]
    exact ht.wf.within.genuine hb

/-- A call of `InsertChainForDeposits` that returns, with an error or without. -/
def Inserts (m : Setup) (n : IndexSetup) (t : IndexedChain) (chain : List MinorBlock) (t' : IndexedChain) :
    Prop :=
  ∃ env force nested res, m.insertChainForDeposits n env force nested chain t = (.ok res, t')

/-- **Insertions keep the indexes.**  Whatever lists of blocks are inserted, on whatever forks, and also when a call
stops with an error: the hashes by height are those of the head's ancestors, and the transaction indexes hold the
entries of exactly these blocks. -/
theorem insertions_indexed (m : Setup) (hprop : Proper n content)
    (hg : Genesis content (n.createMinorBlock rBlock))
    (hempty : n.contents (n.createMinorBlock rBlock) = [])
    (hr : Run.Reaches (Inserts m n) (fun _ chain => ∀ b ∈ chain, content b.hash = some b)
      (n.initial rBlock) t) :
    Rooted t.chain.getMinorBlock t.chain.currentBlock ∧
      Indexes t.chain.getMinorBlock t.chain.canonicalHash t.chain.currentBlock ∧ Exact n t := by
  have ht : Tracked n content t :=
    hr.induct_inv (Tracked n content) (.initial hg hempty) <| by
      rintro t chain t' ht hchain ⟨env, force, nested, res, heq⟩
      have hkept : Tracked n content (m.insertChainForDeposits n env force nested chain t).2 :=
        (Tracked.kept m hprop).insertChainForDeposits ht hchain
      rwa [heq] at hkept
  exact ⟨ht.wf.rooted, ht.wf.indexes, ht.exact⟩

/-- **The transaction indexes follow the canonical chain** along every run in which `SetHead` deletes no
block that has transactions or deposits. -/
theorem exact_of_reaches {rBlock : RootBlock} (hprop : Proper n content)
    (hg : Genesis content (n.createMinorBlock rBlock))
    (hempty : n.contents (n.createMinorBlock rBlock) = [])
    (hr : Run.Reaches (TxStep n) (TxGuard n content) (n.initial rBlock) t) : Exact n t :=
  (Tracked.of_reaches hprop hg hempty hr).exact

/-! ### A rewind leaves entries behind -/

def transfersBlock : MinorBlock := { Core.historyBlock with time := 101, gasLimit := 1 }

def transfersGenesis : MinorBlock :=
  { Core.historyBlock with hash := 8, parentHash := 7, number := 0, transactions := [] }

def transfersContent (h : Hash) : Option MinorBlock :=
  if h = 8 then some transfersGenesis else if h = 9 then some transfersBlock else none

def transfersSetup : IndexSetup where
  config := ⟨[], 0, 0, by simp⟩
  branch := ⟨1⟩
  createMinorBlock _ := transfersGenesis
  networkID := 1
  received _ := []

def transfersRoot : RootBlock := ⟨0, 0, 0, 0, ⟨0, 0⟩, ∅, [], 0, 0, 0, 0, 0, [], []⟩

theorem transfersContent_cases {k : Hash} {b : MinorBlock} (hb : transfersContent k = some b) :
    b = transfersGenesis ∨ b = transfersBlock := by
  rw [transfersContent] at hb
  split_ifs at hb
  · exact .inl (Option.some.inj hb).symm
  · exact .inr (Option.some.inj hb).symm

theorem transfers_proper : Proper transfersSetup transfersContent := by
  have hcontents : transfersSetup.contents transfersGenesis = [] := rfl
  refine ⟨?_, ?_, ?_, ?_, ?_⟩
  · intro k b hb tx htx
    rcases transfersContent_cases hb with rfl | rfl
    · cases htx
    · rcases List.mem_pair.mp htx with rfl | rfl <;> rfl
  · intro k b hb
    rcases transfersContent_cases hb with rfl | rfl <;> decide
  · intro k b hb
    rcases transfersContent_cases hb with rfl | rfl <;> decide
  · intro k b hb
    rcases transfersContent_cases hb with rfl | rfl <;> decide
  · intro k b hb c d hc hd h hhc hhd
    have hmem : ∀ {x}, Descends transfersContent x b → x = transfersGenesis ∨ x = transfersBlock := by
      intro x hx
      obtain ⟨_, hstored⟩ := hx.stored hb
      exact transfersContent_cases hstored
    rcases hmem hc with rfl | rfl
    · rw [hcontents] at hhc
      cases hhc
    rcases hmem hd with rfl | rfl
    · rw [hcontents] at hhd
      cases hhd
    · rfl

theorem transfers_genesis : Genesis transfersContent transfersGenesis := by
  refine ⟨rfl, rfl, rfl⟩

def transfersChain : IndexedChain :=
  (transfersSetup.writeBlockWithState
    { transfersSetup.initial transfersRoot with
      chain := { (transfersSetup.initial transfersRoot).chain with
        currentEvmState := transfersBlock.root } }
    transfersBlock true).2

theorem transfersChain_reaches : Run.Reaches (TxStep transfersSetup)
    (TxGuard transfersSetup transfersContent) (transfersSetup.initial transfersRoot)
    transfersChain := by
  have hs : transfersSetup.importBlock (transfersSetup.initial transfersRoot) transfersBlock =
      .ok (.ok (), transfersChain) := rfl
  exact .step (a := .importBlock transfersBlock) .start ⟨rfl, transfersGenesis, rfl, rfl⟩
    (.importBlock hs)

/-- The conditions can be met: after the block the indexes are exact, and hold its transfers. -/
theorem exact_transfers : Exact transfersSetup transfersChain ∧
    transfersChain.index.lookup 10 = some ⟨9, 0⟩ :=
  ⟨exact_of_reaches transfers_proper transfers_genesis rfl transfersChain_reaches, rfl⟩

/-- **A rewind leaves entries behind**: the transfers of the deleted block are still found. -/
theorem rewind_leaves_entries : ∃ t,
    Run.Reaches (TxStep transfersSetup) (TxGuard transfersSetup transfersContent)
      (transfersSetup.initial transfersRoot) transfersChain ∧
    transfersChain.setHead 1 0 = .ok (.ok (), t) ∧
    t.chain.currentBlock = transfersGenesis ∧
    t.chain.getMinorBlock transfersBlock.hash = none ∧
    t.index.lookup 10 = some ⟨transfersBlock.hash, 0⟩ ∧
    t.index.history (encodeAllTxKey 1 0 false) = true ∧
    ¬ Exact transfersSetup t := by
  have ht := Tracked.of_reaches transfers_proper transfers_genesis rfl transfersChain_reaches
  have hstate : ∀ c, atHeight transfersChain.chain.getMinorBlock transfersChain.chain.currentBlock
      (min 0 transfersChain.chain.currentBlock.number) = some c →
      transfersChain.chain.hasState c.root = true := by
    intro c hc
    obtain rfl : transfersGenesis = c := Option.some.inj hc
    rfl
  refine ⟨{ transfersChain with chain := transfersChain.chain.rewindTo 0 }, transfersChain_reaches,
    ?_, rfl, rfl, rfl, rfl, ?_⟩
  · rw [IndexedChain.setHead, ht.wf.setHead_eq hstate]
  · intro he
    have hlookup : transfersChain.index.lookup 10 = some ⟨9, 0⟩ := rfl
    obtain ⟨b, hd, hhash, -⟩ := (he.lookup 10 ⟨9, 0⟩).mp hlookup
    cases hd with
    | refl => exact absurd hhash (by decide)
    | step hp _ => cases hp

/-! ### A block is inserted -/

def insertionSetup : Setup :=
  ⟨transfersSetup.toShardSetup, 0, true, true, 1, fun _ _ => none, fun _ _ => true, fun _ _ => true, fun _ => 0,
    fun _ => 0, fun _ block => some ⟨block.root, []⟩⟩

/-- The block with two transfers becomes the head, and both are found. -/
theorem inserted_indexed : ∃ t : IndexedChain, t.chain.currentBlock.hash = transfersBlock.hash ∧
    t.index.lookup 11 = some ⟨transfersBlock.hash, 1⟩ ∧ Exact transfersSetup t := by
  let r := insertionSetup.insertChainForDeposits transfersSetup
    ⟨fun _ => 100, fun _ _ => false, fun _ => false⟩ false 0 [transfersBlock]
    (transfersSetup.initial transfersRoot)
  have hr : r = (.ok (.ok [[]]), r.2) := rfl
  exact ⟨r.2, rfl, rfl, (insertions_indexed insertionSetup transfers_proper transfers_genesis rfl
    (.step (a := [transfersBlock]) .start (by simp; rfl) ⟨_, _, _, _, hr⟩)).2.2⟩

end QuarkChain.Minor
