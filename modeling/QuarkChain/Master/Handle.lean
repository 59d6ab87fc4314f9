/-
# The master's message loop

`ProtocolManager.handleMsg` and the handlers it calls (`src/cluster/master/handle.go`), for one peer
(`src/cluster/master/peer.go`).  Handling a message ends with a return, whose error is recorded, or stops in a
panic, or waits for room in the channel of a request.  Tasks for the synchronizer, replies to the peer and
goroutines that pass a message on to the slaves are listed as actions; results of calls that leave the process
are parameters.

`handleMsg_safe_iff`: the one message that gets through the frame and panics is one whose operation
code has no entry in the table of operations, or is `NewRootBlockMsg`.
-/
import QuarkChain.P2p.Messages
import QuarkChain.Sync.HeaderServer
import QuarkChain.Sync.Tasks

namespace QuarkChain.Master

open P2p Serialize Outcome
open QuarkChain.Types (Hash)
open Root (RootBlockChain Wf)
open Sync (rootBlockHeaderListLimit rootSource)

inductive HandleError
  | bodyShort
  | unexpectedHello
  | deserialize (e : DeserError)
  | minorListNotEmpty
  | totalDifficultyDecreasing
  | headerChanged
  | minorListLength
  | branchMismatch
  | minorNumberDecreasing
  | invalidBranch
  | slave
  | hashNotExist
  | headers (e : Sync.ServerError)
  | tooManyHashes
  | write
  | unknownMsgCode (op : P2PCommandOp)
deriving DecidableEq

inductive Panic
  | nilTypeName (code : UInt8)
  | notImplemented
  | sliceBounds
  | missingHeader (hash : Hash)
  | indexOutOfRange
deriving DecidableEq

inductive Stop
  | panic (p : Panic)
  | waits
deriving DecidableEq

inductive Response
  | rootBlockHeaderList (r : GetRootBlockHeaderListResponse)
  | rootBlockList (l : List P2p.RootBlock)
  | data (d : List UInt8)

inductive Reply
  | rootBlockHeaderList (rootTip : Types.RootBlock) (blockHeaderList : List Types.RootBlock)
  | rootBlockList (l : List Types.RootBlock)

/-- `Peer`: the heads it announced, and the channels of open requests with their one place. -/
structure Peer where
  rootHead : Option P2p.RootBlockHeader
  minorHead : ℕ → Option Tip
  chans : ℕ → Option (Option Response)

structure Node where
  chain : RootBlockChain
  peer : Peer

/-- What the master starts: a sync task, an answer, or a goroutine for the slaves. -/
inductive Action
  | task (header : P2p.RootBlockHeader)
  | response (op : P2PCommandOp) (branch rpcID : ℕ) (reply : Reply)
  | goroutine (op : P2PCommandOp) (branch rpcID : ℕ) (data : List UInt8)

structure Handled where
  err : Option HandleError := none
  node : Node
  actions : List Action := []

/-- What lies outside: the hash of a header, the number of slaves of a branch, whether they all take
a new tip, and whether an answer can be written. -/
structure Env where
  headerHash : P2p.RootBlockHeader → Hash
  slaveConns : ℕ → ℕ
  handleNewTip : ℕ → Tip → Bool
  writeMsg : Node → Action → Bool

def decode {α : Type} (n : Node) (d : Deserializer α) (data : List UInt8)
    (k : α → Except Stop Handled) : Except Stop Handled :=
  match deserializeFromBytes d data with
  | .ok a => k a
  | .error (.error e) => .ok { err := some (.deserialize e), node := n }
  | .error .sliceBounds => .error (.panic .sliceBounds)

def handleNewRootTip (env : Env) (n : Node) (tip : Tip) : Handled :=
  let header := tip.rootBlockHeader
  if tip.minorBlockHeaderList ≠ [] then { err := some .minorListNotEmpty, node := n }
  else if n.peer.rootHead.any fun head => header.totalDifficulty < head.totalDifficulty then
    { err := some .totalDifficultyDecreasing, node := n }
  else if n.peer.rootHead.any fun head => header.totalDifficulty = head.totalDifficulty ∧
      env.headerHash header ≠ env.headerHash head then
    { err := some .headerChanged, node := n }
  else
    { node := { n with peer := { n.peer with rootHead := some header } }
      actions := if header.number > n.chain.currentBlock.number then [.task header] else [] }

def checkMinorTip (env : Env) (minorHead : Option Tip) (tip : Tip) (header : P2p.MinorBlockHeader) :
    Except Stop (Option HandleError) :=
  match minorHead with
  | none => .ok none
  | some minorTip =>
      let old := minorTip.rootBlockHeader
      let new := tip.rootBlockHeader
      if old.totalDifficulty > new.totalDifficulty then .ok (some .totalDifficultyDecreasing)
      else if old.totalDifficulty = new.totalDifficulty ∧
          env.headerHash old ≠ env.headerHash new then
        .ok (some .headerChanged)
      else if old.totalDifficulty = new.totalDifficulty then
        match minorTip.minorBlockHeaderList with
        | [] => .error (.panic .indexOutOfRange)
        | h :: _ => .ok (if h.number > header.number then some .minorNumberDecreasing else none)
      else .ok none

def Node.setMinorHead (n : Node) (branch : ℕ) (tip : Tip) : Node :=
  { n with peer := { n.peer with minorHead := Function.update n.peer.minorHead branch (some tip) } }

/-- `HandleNewMinorTip` after the comparison: the tip is kept even if no slave has the branch. -/
def announceMinorTip (env : Env) (n : Node) (branch : ℕ) (tip : Tip) : Handled :=
  { err :=
      if env.slaveConns branch = 0 then some .invalidBranch
      else if env.handleNewTip branch tip then none
      else some .slave
    node := n.setMinorHead branch tip }

def handleNewMinorTip (env : Env) (n : Node) (branch : ℕ) (tip : Tip) : Except Stop Handled :=
  match tip.minorBlockHeaderList with
  | [header] =>
      if branch ≠ header.branch.value then .ok { err := some .branchMismatch, node := n }
      else
        match checkMinorTip env (n.peer.minorHead branch) tip header with
        | .error e => .error e
        | .ok (some err) => .ok { err := some err, node := n }
        | .ok none => .ok (announceMinorTip env n branch tip)
  | _ => .ok { err := some .minorListLength, node := n }

/-- The walk of `HandleGetRootBlockHeaderListRequest` towards the genesis block. -/
def walkToGenesis (s : RootBlockChain) : ℕ → Hash → Except Stop (List Types.RootBlock)
  | 0, _ => .ok []
  | limit + 1, hash =>
      match s.getBlock hash with
      | none => .error (.panic (.missingHeader hash))
      | some header =>
          if header.number = 0 then .ok [header]
          else (walkToGenesis s limit header.parentHash).map (header :: ·)

/-- `HandleGetRootBlockHeaderListRequest`. -/
def handleGetRootBlockHeaderListRequest (s : RootBlockChain) (req : GetRootBlockHeaderListRequest) :
    Except Stop (Except HandleError Reply) :=
  if s.hasBlock req.blockHash = false then .ok (.error .hashNotExist)
  else if req.limit = 0 ∨ req.limit > 2 * rootBlockHeaderListLimit then
    .ok (.error (.headers .badLimit))
  else if req.direction ≠ Sync.directionToGenesis then .ok (.error (.headers .badDirection))
  else (walkToGenesis s req.limit req.blockHash).map fun l =>
    .ok (.rootBlockHeaderList s.currentBlock l)

def rootBlockBatchSize : ℕ := 100

def handleGetRootBlockListRequest (s : RootBlockChain) (rootBlockHashList : List Hash) :
    Except HandleError Reply :=
  if rootBlockHashList.length > 2 * rootBlockBatchSize then .error .tooManyHashes
  else .ok (.rootBlockList (rootBlockHashList.filterMap s.getBlock))

/-- `HandleGetRootBlockHeaderListWithSkipRequest`: the header server, over the root chain. -/
def handleGetRootBlockHeaderListWithSkipRequest (s : RootBlockChain)
    (req : GetRootBlockHeaderListWithSkipRequest) : Except HandleError Reply :=
  match (rootSource s).handleGetRootBlockHeaderListWithSkipRequest req with
  | .error e => .error (.headers e)
  | .ok r => .ok (.rootBlockHeaderList r.rootTip r.blockHeaderList)

def respond (env : Env) (n : Node) (op : P2PCommandOp) (branch rpcID : ℕ) :
    Except HandleError Reply → Handled
  | .error e => { err := some e, node := n }
  | .ok reply =>
      let action := Action.response op branch rpcID reply
      { err := if env.writeMsg n action then none else some .write
        node := n
        actions := [action] }

/-- The send to the channel of a request; an unknown request is only logged. -/
def deliver (n : Node) (rpcID : ℕ) (r : Response) : Except Stop Handled :=
  match n.peer.chans rpcID with
  | none => .ok { node := n }
  | some none => .ok
      { node := { n with peer :=
          { n.peer with chans := Function.update n.peer.chans rpcID (some (some r)) } } }
  | some (some _) => .error .waits

def dispatch (env : Env) (n : Node) (msg : QKCMsg) (op : P2PCommandOp) : Except Stop Handled :=
  match op with
  | .hello => .ok { err := some .unexpectedHello, node := n }
  | .newTipMsg =>
      decode n deserializeTip msg.data fun tip =>
        if msg.branch = 0 then .ok (handleNewRootTip env n tip)
        else handleNewMinorTip env n msg.branch tip
  | .newTransactionListMsg | .newBlockMinorMsg | .getMinorBlockHeaderListRequestMsg
  | .getMinorBlockListRequestMsg | .getMinorBlockHeaderListWithSkipRequestMsg =>
      .ok { node := n, actions := [.goroutine op msg.branch msg.rpcID msg.data] }
  | .getRootBlockHeaderListRequestMsg =>
      decode n deserializeGetRootBlockHeaderListRequest msg.data fun req => do
        let r ← handleGetRootBlockHeaderListRequest n.chain req
        pure (respond env n .getRootBlockHeaderListResponseMsg 0 msg.rpcID r)
  | .getRootBlockHeaderListResponseMsg | .getRootBlockHeaderListWithSkipResponseMsg =>
      decode n deserializeGetRootBlockHeaderListResponse msg.data fun r =>
        deliver n msg.rpcID (.rootBlockHeaderList r)
  | .getRootBlockListRequestMsg =>
      decode n deserializeGetRootBlockListRequest msg.data fun req =>
        .ok (respond env n .getRootBlockListResponseMsg 0 msg.rpcID
          (handleGetRootBlockListRequest n.chain req))
  | .getRootBlockListResponseMsg =>
      decode n deserializeGetRootBlockListResponse msg.data fun l =>
        deliver n msg.rpcID (.rootBlockList l)
  | .getRootBlockHeaderListWithSkipRequestMsg =>
      decode n deserializeGetRootBlockHeaderListWithSkipRequest msg.data fun req =>
        .ok (respond env n .getRootBlockHeaderListWithSkipResponseMsg msg.branch msg.rpcID
          (handleGetRootBlockHeaderListWithSkipRequest n.chain req))
  | .getMinorBlockHeaderListResponseMsg | .getMinorBlockListResponseMsg
  | .getMinorBlockHeaderListWithSkipResponseMsg => deliver n msg.rpcID (.data msg.data)
  | .newRootBlockMsg => .error (.panic .notImplemented)
  | .getPeerListRequestMsg | .getPeerListResponseMsg | .ping | .pong =>
      .ok { err := some (.unknownMsgCode op), node := n }

/-- `handleMsg`, of the payload that was read.  The name of the operation is asked for to be logged,
before the `switch`. -/
def handleMsg (env : Env) (n : Node) (payload : List UInt8) : Except Stop Handled :=
  match decodeQKCMsg payload with
  | none => .ok { err := some .bodyShort, node := n }
  | some msg =>
      match lookupOp msg.op with
      | none => .error (.panic (.nilTypeName msg.op))
      | some (op, _) => dispatch env n msg op

/-! ### What a connection keeps -/

/-- The root chain is a tree over its genesis block, and every minor tip kept of the peer has a
header. -/
structure Sound (g : Types.RootBlock) (n : Node) : Prop where
  wf : Wf g n.chain
  tips : ∀ branch tip, n.peer.minorHead branch = some tip → tip.minorBlockHeaderList ≠ []

/-- What handling a message may do: return, with a sound node, or wait at a channel that is full. -/
def Safe (g : Types.RootBlock) (n : Node) (rpcID : ℕ) (r : Except Stop Handled) : Prop :=
  Post r (fun h => Sound g h.node) fun e => e = .waits ∧ ∃ x, n.peer.chans rpcID = some (some x)

variable {payload : List UInt8} {s : RootBlockChain}

section Safe

variable {g : Types.RootBlock} {env : Env} {n : Node} {rpcID : ℕ}

theorem safe_decode {α : Type} (hn : Sound g n) (d : Deserializer α) [InBounds d] (data : List UInt8)
    {k : α → Except Stop Handled} (hk : ∀ a, Safe g n rpcID (k a)) :
    Safe g n rpcID (decode n d data k) := by
  rw [decode]
  split
  · exact hk _
  · exact hn
  · rename_i h
    exact absurd h (deserializeFromBytes_ne_sliceBounds d data)

theorem sound_handleNewRootTip (hn : Sound g n) (tip : Tip) : Sound g (handleNewRootTip env n tip).node := by
  rw [handleNewRootTip]
  split_ifs
  all_goals exact ⟨hn.wf, hn.tips⟩

theorem checkMinorTip_ok {minorHead : Option Tip}
    (hne : ∀ t, minorHead = some t → t.minorBlockHeaderList ≠ []) (tip : Tip)
    (header : P2p.MinorBlockHeader) : ∃ err, checkMinorTip env minorHead tip header = .ok err := by
  rcases minorHead with _ | minorTip
  · exact ⟨none, rfl⟩
  simp only [checkMinorTip]
  split_ifs
  · exact ⟨_, rfl⟩
  · exact ⟨_, rfl⟩
  · split
    · rename_i hnil
      exact absurd hnil (hne minorTip rfl)
    · exact ⟨_, rfl⟩
  · exact ⟨_, rfl⟩

theorem sound_setMinorHead (hn : Sound g n) {tip : Tip} (hne : tip.minorBlockHeaderList ≠ [])
    (branch : ℕ) : Sound g (n.setMinorHead branch tip) := by
  refine ⟨hn.wf, fun b t ht => ?_⟩
  simp only [Node.setMinorHead, Function.update_apply] at ht
  split_ifs at ht
  · cases ht
    exact hne
  · exact hn.tips b t ht

theorem safe_handleNewMinorTip (hn : Sound g n) (branch : ℕ) (tip : Tip) :
    Safe g n rpcID (handleNewMinorTip env n branch tip) := by
  rw [handleNewMinorTip]
  split
  · rename_i header hlist
    split_ifs
    · exact hn
    obtain ⟨err, herr⟩ := checkMinorTip_ok (hn.tips branch) tip header
    rw [herr]
    cases err with
    | none => exact sound_setMinorHead hn (by simp [hlist]) branch
    | some e => exact hn
  · exact hn

/-- **The walk towards the genesis block finds every parent.** -/
theorem walkToGenesis_ok (hs : Wf g s) (limit : ℕ) {hash : Hash}
    (hhash : (s.getBlock hash).isSome) : ∃ l, walkToGenesis s limit hash = .ok l := by
  induction limit generalizing hash with
  | zero => exact ⟨[], rfl⟩
  | succ limit ih =>
    obtain ⟨header, hheader⟩ := Option.isSome_iff_exists.mp hhash
    rw [walkToGenesis, hheader]
    simp only
    split_ifs with hzero
    · exact ⟨_, rfl⟩
    rcases hs.parent_stored hheader with rfl | ⟨p, hp⟩
    · exact absurd hs.genesis_number hzero
    · obtain ⟨l, hl⟩ := ih (Option.isSome_iff_exists.mpr ⟨p, hp⟩)
      rw [show walkToGenesis s limit header.parentHash = .ok l from hl]
      exact ⟨header :: l, rfl⟩

theorem handleGetRootBlockHeaderListRequest_ok (hs : Wf g s) (req : GetRootBlockHeaderListRequest) :
    ∃ r, handleGetRootBlockHeaderListRequest s req = .ok r := by
  rw [handleGetRootBlockHeaderListRequest]
  split_ifs with hhas
  · exact ⟨_, rfl⟩
  · exact ⟨_, rfl⟩
  · exact ⟨_, rfl⟩
  · obtain ⟨l, hl⟩ := walkToGenesis_ok hs req.limit ((Bool.not_eq_false _).mp hhas)
    exact ⟨_, by rw [hl]; rfl⟩

theorem sound_respond (hn : Sound g n) (op : P2PCommandOp) (branch : ℕ)
    (r : Except HandleError Reply) : Sound g (respond env n op branch rpcID r).node := by
  cases r with
  | error e => exact hn
  | ok reply => exact hn

theorem safe_deliver (hn : Sound g n) (r : Response) : Safe g n rpcID (deliver n rpcID r) := by
  rw [deliver]
  split
  · exact hn
  · exact ⟨hn.wf, hn.tips⟩
  · rename_i x hx
    exact ⟨rfl, x, hx⟩

/-- **Every operation but `NewRootBlockMsg` is handled.** -/
theorem safe_dispatch (hn : Sound g n) {msg : QKCMsg} {op : P2PCommandOp}
    (hop : op ≠ .newRootBlockMsg) : Safe g n msg.rpcID (dispatch env n msg op) := by
  cases op with
  | hello => exact hn
  | newTipMsg =>
    refine safe_decode hn deserializeTip _ fun tip => ?_
    split_ifs
    · exact sound_handleNewRootTip hn tip
    · exact safe_handleNewMinorTip hn msg.branch tip
  | newTransactionListMsg => exact hn
  | newBlockMinorMsg => exact hn
  | getMinorBlockHeaderListRequestMsg => exact hn
  | getMinorBlockListRequestMsg => exact hn
  | getMinorBlockHeaderListWithSkipRequestMsg => exact hn
  | getRootBlockHeaderListRequestMsg =>
    refine safe_decode hn deserializeGetRootBlockHeaderListRequest _ fun req => ?_
    obtain ⟨r, hr⟩ := handleGetRootBlockHeaderListRequest_ok hn.wf req
    rw [hr]
    exact sound_respond hn _ _ r
  | getRootBlockHeaderListResponseMsg =>
    exact safe_decode hn deserializeGetRootBlockHeaderListResponse _ fun _ => safe_deliver hn _
  | getRootBlockHeaderListWithSkipResponseMsg =>
    exact safe_decode hn deserializeGetRootBlockHeaderListResponse _ fun _ => safe_deliver hn _
  | getRootBlockListRequestMsg =>
    exact safe_decode hn deserializeGetRootBlockListRequest _ fun _ => sound_respond hn _ _ _
  | getRootBlockListResponseMsg =>
    exact safe_decode hn deserializeGetRootBlockListResponse _ fun _ => safe_deliver hn _
  | getRootBlockHeaderListWithSkipRequestMsg =>
    exact safe_decode hn deserializeGetRootBlockHeaderListWithSkipRequest _ fun _ =>
      sound_respond hn _ _ _
  | getMinorBlockHeaderListResponseMsg => exact safe_deliver hn _
  | getMinorBlockListResponseMsg => exact safe_deliver hn _
  | getMinorBlockHeaderListWithSkipResponseMsg => exact safe_deliver hn _
  | newRootBlockMsg => exact absurd rfl hop
  | getPeerListRequestMsg => exact hn
  | getPeerListResponseMsg => exact hn
  | ping => exact hn
  | pong => exact hn

end Safe

/-- The message is too short for a frame, or its operation has an entry in the table and is not
`NewRootBlockMsg`. -/
def Harmless (payload : List UInt8) : Prop :=
  ∀ msg, decodeQKCMsg payload = some msg →
    ∃ op name, lookupOp msg.op = some (op, name) ∧ op ≠ .newRootBlockMsg

/-- What happens to a connection: a message is handled, the root chain moves on, and requests are
made, read the answer, and end. -/
inductive Event
  | message (payload : List UInt8)
  | chain (s : RootBlockChain)
  | requested (rpcID : ℕ)
  | read (rpcID : ℕ)
  | ended (rpcID : ℕ)

def Node.setChan (n : Node) (rpcID : ℕ) (c : Option (Option Response)) : Node :=
  { n with peer := { n.peer with chans := Function.update n.peer.chans rpcID c } }

def Step (env : Env) (n : Node) (e : Event) (n' : Node) : Prop :=
  match e with
  | .message payload => ∃ h, handleMsg env n payload = .ok h ∧ n' = h.node
  | .chain s => n' = { n with chain := s }
  | .requested rpcID => n' = n.setChan rpcID (some none)
  | .read rpcID => n' = n.setChan rpcID (some none)
  | .ended rpcID => n' = n.setChan rpcID none

/-- The root chain moves to trees over its genesis block. -/
def Guard (g : Types.RootBlock) (_ : Node) : Event → Prop
  | .chain s => Wf g s
  | _ => True

section Run

variable {g : Types.RootBlock} {env : Env} {n n' n₀ : Node} {e : Event}

theorem safe_handleMsg (env : Env) (hn : Sound g n) (hp : Harmless payload) :
    (∃ msg, decodeQKCMsg payload = some msg ∧ Safe g n msg.rpcID (handleMsg env n payload)) ∨
      ∃ h, handleMsg env n payload = .ok h ∧ h.node = n := by
  rw [handleMsg]
  rcases hmsg : decodeQKCMsg payload with _ | msg
  · exact .inr ⟨_, rfl, rfl⟩
  obtain ⟨op, name, hop, hne⟩ := hp msg hmsg
  refine .inl ⟨msg, rfl, ?_⟩
  simp only [hop]
  exact safe_dispatch hn hne

theorem handleMsg_panic (env : Env) (n : Node) (hp : ¬ Harmless payload) :
    ∃ p, handleMsg env n payload = .error (.panic p) := by
  simp only [Harmless, not_forall, not_exists, not_and, not_not] at hp
  obtain ⟨msg, hmsg, hop⟩ := hp
  rw [handleMsg, hmsg]
  simp only
  rcases hlook : lookupOp msg.op with _ | x
  · exact ⟨_, rfl⟩
  obtain ⟨op, name⟩ := x
  obtain rfl := hop op name hlook
  exact ⟨.notImplemented, rfl⟩

theorem sound_step (hn : Sound g n) (hg : Guard g n e) (hs : Step env n e n') : Sound g n' := by
  cases e with
  | message payload =>
    obtain ⟨h, hh, rfl⟩ := hs
    by_cases hp : Harmless payload
    · rcases safe_handleMsg env hn hp with ⟨msg, -, hsafe⟩ | ⟨h', hh', hnode⟩
      · exact hsafe.of_ok hh
      · cases hh.symm.trans hh'
        exact hnode ▸ hn
    · obtain ⟨p, hpanic⟩ := handleMsg_panic env n hp
      cases hh.symm.trans hpanic
  | chain s =>
    cases hs
    exact ⟨hg, hn.tips⟩
  | requested rpcID =>
    cases hs
    exact ⟨hn.wf, hn.tips⟩
  | read rpcID =>
    cases hs
    exact ⟨hn.wf, hn.tips⟩
  | ended rpcID =>
    cases hs
    exact ⟨hn.wf, hn.tips⟩

/-- **Every state of a connection is sound.** -/
theorem sound_reaches (hr : Run.Reaches (Step env) (Guard g) n₀ n) (h₀ : Sound g n₀) : Sound g n :=
  hr.induct_inv (Sound g) h₀ fun _ _ _ hn hg hs => sound_step hn hg hs

/-- **When a message is handled without a panic.**  In every state of a connection that started with no
minor tip, just the harmless messages are, and then handling returns unless the channel of the
request it answers is full. -/
theorem handleMsg_safe_iff (env : Env) (hwf : Wf g n₀.chain) (htips : ∀ branch, n₀.peer.minorHead branch = none)
    (hr : Run.Reaches (Step env) (Guard g) n₀ n) (payload : List UInt8) :
    ((∀ p, handleMsg env n payload ≠ .error (.panic p)) ↔ Harmless payload) ∧
    (Harmless payload →
      (∀ msg x, decodeQKCMsg payload = some msg → n.peer.chans msg.rpcID ≠ some (some x)) →
      ∃ h, handleMsg env n payload = .ok h) := by
  have hn : Sound g n := sound_reaches hr ⟨hwf, fun branch tip h => by simp [htips] at h⟩
  refine ⟨⟨fun hsafe => ?_, fun hp p hpanic => ?_⟩, fun hp hroom => ?_⟩
  · by_contra hp
    obtain ⟨p, hpanic⟩ := handleMsg_panic env n hp
    exact hsafe p hpanic
  · rcases safe_handleMsg env hn hp with ⟨msg, -, hsafe⟩ | ⟨h, hh, -⟩
    · obtain ⟨hwaits, -⟩ := hsafe.of_error hpanic
      cases hwaits
    · cases hh.symm.trans hpanic
  · rcases safe_handleMsg env hn hp with ⟨msg, hmsg, hsafe⟩ | ⟨h, hh, -⟩
    · cases hh : handleMsg env n payload with
      | ok h => exact ⟨h, rfl⟩
      | error e =>
        obtain ⟨-, x, hx⟩ := hsafe.of_error hh
        exact absurd hx (hroom msg x hmsg)
    · exact ⟨h, hh⟩

end Run

def sampleNode : Node where
  chain := .genesis Root.sampleGenesis fun _ => none
  peer := { rootHead := none, minorHead := fun _ => none, chans := fun _ => none }

def sampleEnv : Env where
  headerHash _ := 0
  slaveConns _ := 0
  handleNewTip _ _ := true
  writeMsg _ _ := true

def sampleFrame (code : UInt8) : List UInt8 := [0, 0, 0, 0, code, 0, 0, 0, 0, 0, 0, 0, 1]

/-- A request for one root header, from height zero towards the tip. -/
def sampleRequest : List UInt8 :=
  sampleFrame 16 ++ 1 :: List.replicate 32 0 ++ [0, 0, 0, 1] ++ [0, 0, 0, 0] ++ [1]

def Action.sends : Action → List Types.RootBlock
  | .response _ _ _ (.rootBlockHeaderList _ l) => l
  | _ => []

/-- The request is answered with the genesis header. -/
theorem sampleFrame_handled : Harmless sampleRequest ∧
    ∃ h, handleMsg sampleEnv sampleNode sampleRequest = .ok h ∧ h.err = none ∧
      h.actions.flatMap Action.sends = [Root.sampleGenesis] := by
  have hp : Harmless sampleRequest := by
    intro msg hmsg
    have hop : (decodeQKCMsg sampleRequest).map QKCMsg.op = some 16 := by decide
    rw [hmsg, Option.map_some, Option.some.injEq] at hop
    exact ⟨.getRootBlockHeaderListWithSkipRequestMsg, _, by rw [hop]; rfl, by decide⟩
  have hwf : Wf Root.sampleGenesis sampleNode.chain := Wf.start (by decide) (by decide) (by decide) _
  obtain ⟨h, hh⟩ := (handleMsg_safe_iff sampleEnv hwf (fun _ => rfl) .start sampleRequest).2 hp
    (by simp [sampleNode])
  have hanswer : passes (handleMsg sampleEnv sampleNode sampleRequest) fun h =>
      h.err = none ∧ h.actions.flatMap Action.sends = [Root.sampleGenesis] := by decide +kernel
  rw [hh] at hanswer
  exact ⟨hp, h, hh, of_decide_eq_true hanswer⟩

/-- **Two frames of thirteen bytes that stop the master**: the first operation code without an entry in
the table, and the reserved operation for new root blocks. -/
theorem sampleFrame_panics :
    handleMsg sampleEnv sampleNode (sampleFrame 21) = .error (.panic (.nilTypeName 21)) ∧
      handleMsg sampleEnv sampleNode (sampleFrame 18) = .error (.panic .notImplemented) :=
  ⟨rfl, rfl⟩

end QuarkChain.Master
