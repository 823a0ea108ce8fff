import TomChain.Server.State

/-!
# The threads of a server

The packing thread (on the last server only), the three relay timers and the merging timer of
`TcServer::schedule`, cut into atomic steps: one push or pop of a queue, one map operation, one
call. `remove_dead_blocks` is modelled block by block, as its loop takes and releases the
accessor of each block.
-/

namespace TomChain

open Std (ExtTreeMap ExtTreeSet)
open Flexbuffers (Flex toBytes voteToBytes)

variable {G : Type}

inductive ServerAction where
  | packCheck
  | packGenerate (txs : List Transaction)
  | packBegin (now : ℕ) (order : List ℕ)
  | packEnd
  | packPush
  | packInsert
  | sendStart (ch : Chan)
  | sendPop (ch : Chan)
  | sendGo (ch : Chan)
  | syncPop
  | syncSend
  | syncLabel
  | mergePop
  | mergeCommit (now : ℕ)
  | mergePush
  | reap (blockId now : ℕ)

namespace Server

/-! ## Packing -/

/-- A transaction that `generate_tx` can draw: all fields but the value are account numbers. -/
def drawn (cfg : Config) (tx : Transaction) : Bool :=
  [tx.id, tx.sender, tx.receiver, tx.fee].all (fun n => 1 ≤ n && n ≤ cfg.accountCount) &&
    tx.value = 0

def generateTx (srv : Server G) (txs : List Transaction) : Server G :=
  { srv with pendingTxs := txs.foldl (fun m tx => m.insertIfNew tx.id tx) srv.pendingTxs }

/-- The inner loop of `pack_block`: take an element, count it, stop at `numTx`. -/
def extractTx (numTx : ℕ) : ℕ → List ℕ → List ℕ
  | _, [] => []
  | txCount, id :: ids => if txCount + 1 ≥ numTx then [id] else id :: extractTx numTx (txCount + 1) ids

/-- `fetch_add` on the block counter and the construction of the new block. `order` is the order
in which the pool is iterated. -/
def newBlock (cfg : Config) (srv : Server G) (now : ℕ) (order : List ℕ) : Block G :=
  { Block.make srv.blkSeqGenerator 0xDEADBEEF now with
    txVec := (extractTx cfg.txPerBlock 0 order).filterMap (srv.pendingTxs[·]?) }

def packBegin (cfg : Config) (srv : Server G) (i now : ℕ) (order : List ℕ) : Server G :=
  let block := srv.newBlock cfg now order
  { srv.alloc block with
    blkSeqGenerator := (srv.blkSeqGenerator + 1) % 2 ^ 64
    pack := .push i srv.heap.length block.header.id srv.relayBlocks.keys
      (extractTx cfg.txPerBlock 0 order)
    packed := srv.packed ++ [block] }

/-! ## Relaying -/

/-- The next target of a relay loop; after the last one `send_relay_blocks` goes on to the
sync signals. -/
def nextTarget (ch : Chan) : List ℕ → SendPc G
  | [] => if ch = .block then .sync else .idle
  | t :: rest => .drain t [] [] rest

def setSend (srv : Server G) (ch : Chan) (pc : SendPc G) : Server G :=
  { srv with send := Function.update srv.send ch pc }

/-- `try_pop` on the queue of `target`, and the serialised element with its block id. -/
def popQueue (srv : Server G) (ch : Chan) (target : ℕ) : Option (Server G × Flex G × List ℕ) :=
  match ch with
  | .vote =>
    match srv.relayVotes[target]? with
    | some (vote :: q) =>
      some ({ srv with relayVotes := srv.relayVotes.insert target q }, voteToBytes vote, [])
    | _ => none
  | .block =>
    match srv.relayBlocks[target]? with
    | some (p :: q) =>
      (srv.heap[p]?).map fun b =>
        ({ srv with relayBlocks := srv.relayBlocks.insert target q }, toBytes b, [b.header.id])
    | _ => none
  | .commit =>
    match srv.bcastCommitBlocks[target]? with
    | some (p :: q) =>
      (srv.heap[p]?).map fun b =>
        ({ srv with bcastCommitBlocks := srv.bcastCommitBlocks.insert target q }, toBytes b, [])
    | _ => none

def queueEmpty (srv : Server G) (ch : Chan) (target : ℕ) : Bool :=
  match ch with
  | .vote => (srv.relayVotes[target]?).any List.isEmpty
  | .block => (srv.relayBlocks[target]?).any List.isEmpty
  | .commit => (srv.bcastCommitBlocks[target]?).any List.isEmpty

def request (ch : Chan) (items : List (Flex G)) : Rpc G :=
  match ch with
  | .vote => .relayVote items
  | .block => .relayBlock items
  | .commit => .spBcastCommit items

/-- The caller goes on after its call ended, with whatever status. `RelayBlock` queues the sync
signals of the blocks it sent. -/
def resumeSend (srv : Server G) (ch : Chan) : Option (Server G) :=
  match srv.send ch with
  | .wait _ ids rest =>
    let queue := if ch = .block then srv.pbSyncQueue ++ ids else srv.pbSyncQueue
    some ({ srv with pbSyncQueue := queue }.setSend ch (nextTarget ch rest))
  | .syncWait blockId _ rest => some (srv.setSend ch (.syncSend blockId rest))
  | _ => none

/-! ## Merging and reaping -/

/-- The merged block `b` at address `p` is stamped, committed and stored; it is still to be
pushed to the broadcast queues. -/
def committedState (srv : Server G) (p now : ℕ) (b : Block G) : Server G :=
  { srv.modifyBlock p fun _ => b.stampCommit now with
    committedBlks := srv.committedBlks.insert b.header.id p
    db := srv.db.insert (blockName b.header.id) (toBytes (b.stampCommit now))
    merge := .push p srv.bcastCommitBlocks.keys
    commits := srv.commits ++ [b.header.id]
    merged := srv.merged ++ [b.header.id] }

/-- The iteration of `merge_votes` on a popped block, up to the broadcast. `none` when
`Block::merge_votes` throws: nothing catches it. -/
def mergeCommit (cfg : Config) (merge : List (BLSSigShare G) → BLSSignature G) (srv : Server G)
    (p now : ℕ) (b : Block G) : Option (Server G) :=
  match b.mergeVotes merge cfg.clientCount with
  | .error _ => none
  | .ok b' => some (srv.committedState p now b')

/-- A difference of two `uint64_t` time stamps, which wraps. -/
def age (now ts : ℕ) : ℕ := (now + 2 ^ 64 - ts) % 2 ^ 64

/-- `remove_dead_blocks` on one id of its list. Blocks older than 100000 ms are left alone. -/
def reap (cfg : Config) (srv : Server G) (blockId now : ℕ) : Server G :=
  match srv.pendingBlks[blockId]? with
  | none => srv
  | some p =>
    match srv.heap[p]? with
    | none => srv
    | some b =>
      if age now b.header.proposalTs > 100000 then srv
      else if age now b.header.proposalTs > cfg.blockDieThreshold then
        { srv with
          deadBlock := srv.deadBlock.insert blockId
          pendingBlks := srv.pendingBlks.erase blockId }
      else srv

/-! ## One step of a thread -/

/-- The state after the step and the call it makes, with its target. -/
def act (cfg : Config) (merge : List (BLSSigShare G) → BLSSignature G) (serverId : ℕ)
    (srv : Server G) : ServerAction → Option (Server G × Option (ℕ × Rpc G))
  | .packCheck =>
    if srv.pack = .check ∧ serverId = cfg.serverCount then
      some ({ srv with pack := if srv.pendingBlks.size < cfg.pbPoolLimit then .generate else .pack 0 },
        none)
    else none
  | .packGenerate txs =>
    if srv.pack = .generate ∧ txs.length = cfg.generateTxRate ∧ txs.all (drawn cfg) then
      some ({ srv.generateTx txs with pack := .pack 0 }, none)
    else none
  | .packBegin now order =>
    match srv.pack with
    | .pack i =>
      if i < Decimal.intMax ∧ srv.pendingTxs.size ≥ cfg.txPerBlock ∧
          order.isPerm srv.pendingTxs.keys then
        some (srv.packBegin cfg i now order, none)
      else none
    | _ => none
  | .packEnd =>
    match srv.pack with
    | .pack i =>
      if i < Decimal.intMax ∧ srv.pendingTxs.size ≥ cfg.txPerBlock then none
      else some ({ srv with pack := .check }, none)
    | _ => none
  | .packPush =>
    match srv.pack with
    | .push i p blockId (t :: peers) ids =>
      some ({ srv with
        relayBlocks := srv.relayBlocks.modify t (· ++ [p])
        pack := .push i p blockId peers ids }, none)
    | _ => none
  | .packInsert =>
    match srv.pack with
    | .push i p blockId [] ids =>
      some ({ srv.storePending blockId p with
        pendingTxs := ids.foldl (fun m id => m.erase id) srv.pendingTxs
        pack := .pack (i + 1) }, none)
    | _ => none
  | .sendStart ch =>
    match srv.send ch with
    | .idle => some (srv.setSend ch (nextTarget ch (peerIds cfg.serverCount serverId)), none)
    | _ => none
  | .sendPop ch =>
    match srv.send ch with
    | .drain target request ids rest =>
      (srv.popQueue ch target).map fun r =>
        (r.1.setSend ch (.drain target (request ++ [r.2.1]) (ids ++ r.2.2) rest), none)
    | _ => none
  | .sendGo ch =>
    match srv.send ch with
    | .drain target items ids rest =>
      if srv.queueEmpty ch target then
        if items.isEmpty then some (srv.setSend ch (nextTarget ch rest), none)
        else some (srv.setSend ch (.wait target ids rest), some (target, request ch items))
      else none
    | _ => none
  | .syncPop =>
    match srv.send .block, srv.pbSyncQueue with
    | .sync, [] => some (srv.setSend .block .idle, none)
    | .sync, blockId :: q =>
      some ({ srv with pbSyncQueue := q }.setSend .block
        (.syncSend blockId (peerIds cfg.serverCount serverId)), none)
    | _, _ => none
  | .syncSend =>
    match srv.send .block with
    | .syncSend blockId (t :: rest) =>
      some (srv.setSend .block (.syncWait blockId t rest), some (t, .relayBlockSync blockId false))
    | _ => none
  | .syncLabel =>
    match srv.send .block with
    | .syncSend blockId [] =>
      some ({ srv with pbSyncLabels := srv.pbSyncLabels.insert blockId }.setSend .block .sync, none)
    | _ => none
  | .mergePop =>
    match srv.merge, srv.pbMergeQueue with
    | .idle, p :: q => some ({ srv with pbMergeQueue := q, merge := .popped p }, none)
    | _, _ => none
  | .mergeCommit now =>
    match srv.merge with
    | .popped p =>
      match srv.heap[p]? with
      | none => none
      | some b => (srv.mergeCommit cfg merge p now b).map fun srv' => (srv', none)
    | _ => none
  | .mergePush =>
    match srv.merge with
    | .push p (t :: peers) =>
      some ({ srv with
        bcastCommitBlocks := srv.bcastCommitBlocks.modify t (· ++ [p])
        merge := .push p peers }, none)
    | .push _ [] => some ({ srv with merge := .idle }, none)
    | _ => none
  | .reap blockId now => some (srv.reap cfg blockId now, none)

/-! ## What a step of a thread can do -/

inductive Pops (srv : Server G) (target : ℕ) : Chan → Server G → Flex G → List ℕ → Prop
  | vote (vote : BlockVote G) (q : List (BlockVote G)) : srv.relayVotes[target]? = some (vote :: q) →
      Pops srv target .vote { srv with relayVotes := srv.relayVotes.insert target q }
        (voteToBytes vote) []
  | block (p : ℕ) (q : List ℕ) (b : Block G) : srv.relayBlocks[target]? = some (p :: q) →
      srv.heap[p]? = some b →
      Pops srv target .block { srv with relayBlocks := srv.relayBlocks.insert target q }
        (toBytes b) [b.header.id]
  | commit (p : ℕ) (q : List ℕ) (b : Block G) : srv.bcastCommitBlocks[target]? = some (p :: q) →
      srv.heap[p]? = some b →
      Pops srv target .commit { srv with bcastCommitBlocks := srv.bcastCommitBlocks.insert target q }
        (toBytes b) []

theorem pops_of_popQueue {srv srv' : Server G} {ch : Chan} {target : ℕ} {item : Flex G}
    {ids : List ℕ} (h : srv.popQueue ch target = some (srv', item, ids)) :
    Pops srv target ch srv' item ids := by
  unfold popQueue at h
  split at h
  · split at h
    · rename_i hq; cases h; exact .vote _ _ hq
    · cases h
  · split at h
    · rename_i hq
      obtain ⟨b, hb, he⟩ := Option.map_eq_some_iff.mp h
      cases he; exact .block _ _ _ hq hb
    · cases h
  · split at h
    · rename_i hq
      obtain ⟨b, hb, he⟩ := Option.map_eq_some_iff.mp h
      cases he; exact .commit _ _ _ hq hb
    · cases h

/-- The cases of `act`, one constructor for each way through a thread's code. -/
inductive Acts (cfg : Config) (merge : List (BLSSigShare G) → BLSSignature G) (serverId : ℕ)
    (srv : Server G) : ServerAction → Server G → Option (ℕ × Rpc G) → Prop
  | packCheck (pc : PackPc) : srv.pack = .check → serverId = cfg.serverCount →
      pc = .generate ∨ pc = .pack 0 →
      Acts cfg merge serverId srv .packCheck { srv with pack := pc } none
  | packGenerate (txs : List Transaction) : srv.pack = .generate →
      Acts cfg merge serverId srv (.packGenerate txs) { srv.generateTx txs with pack := .pack 0 } none
  | packBegin (i now : ℕ) (order : List ℕ) : srv.pack = .pack i →
      Acts cfg merge serverId srv (.packBegin now order) (srv.packBegin cfg i now order) none
  | packEnd (i : ℕ) : srv.pack = .pack i →
      Acts cfg merge serverId srv .packEnd { srv with pack := .check } none
  | packPush (i p blockId t : ℕ) (peers ids : List ℕ) : srv.pack = .push i p blockId (t :: peers) ids →
      Acts cfg merge serverId srv .packPush { srv with
        relayBlocks := srv.relayBlocks.modify t (· ++ [p])
        pack := .push i p blockId peers ids } none
  | packInsert (i p blockId : ℕ) (ids : List ℕ) : srv.pack = .push i p blockId [] ids →
      Acts cfg merge serverId srv .packInsert { srv.storePending blockId p with
        pendingTxs := ids.foldl (fun m id => m.erase id) srv.pendingTxs
        pack := .pack (i + 1) } none
  | sendStart (ch : Chan) : srv.send ch = .idle →
      Acts cfg merge serverId srv (.sendStart ch)
        (srv.setSend ch (nextTarget ch (peerIds cfg.serverCount serverId))) none
  | sendPop (ch : Chan) (target : ℕ) (items : List (Flex G)) (ids rest : List ℕ) (srv' : Server G)
      (item : Flex G) (ids' : List ℕ) : srv.send ch = .drain target items ids rest →
      Pops srv target ch srv' item ids' →
      Acts cfg merge serverId srv (.sendPop ch)
        (srv'.setSend ch (.drain target (items ++ [item]) (ids ++ ids') rest)) none
  | sendSkip (ch : Chan) (target : ℕ) (ids rest : List ℕ) : srv.send ch = .drain target [] ids rest →
      Acts cfg merge serverId srv (.sendGo ch) (srv.setSend ch (nextTarget ch rest)) none
  | sendGo (ch : Chan) (target : ℕ) (items : List (Flex G)) (ids rest : List ℕ) :
      srv.send ch = .drain target items ids rest → items ≠ [] →
      Acts cfg merge serverId srv (.sendGo ch) (srv.setSend ch (.wait target ids rest))
        (some (target, request ch items))
  | syncIdle : srv.send .block = .sync → srv.pbSyncQueue = [] →
      Acts cfg merge serverId srv .syncPop (srv.setSend .block .idle) none
  | syncPop (blockId : ℕ) (q : List ℕ) : srv.send .block = .sync → srv.pbSyncQueue = blockId :: q →
      Acts cfg merge serverId srv .syncPop ({ srv with pbSyncQueue := q }.setSend .block
        (.syncSend blockId (peerIds cfg.serverCount serverId))) none
  | syncSend (blockId t : ℕ) (rest : List ℕ) : srv.send .block = .syncSend blockId (t :: rest) →
      Acts cfg merge serverId srv .syncSend (srv.setSend .block (.syncWait blockId t rest))
        (some (t, .relayBlockSync blockId false))
  | syncLabel (blockId : ℕ) : srv.send .block = .syncSend blockId [] →
      Acts cfg merge serverId srv .syncLabel
        ({ srv with pbSyncLabels := srv.pbSyncLabels.insert blockId }.setSend .block .sync) none
  | mergePop (p : ℕ) (q : List ℕ) : srv.merge = .idle → srv.pbMergeQueue = p :: q →
      Acts cfg merge serverId srv .mergePop { srv with pbMergeQueue := q, merge := .popped p } none
  | mergeCommit (p now : ℕ) (b b' : Block G) : srv.merge = .popped p → srv.heap[p]? = some b →
      b.mergeVotes merge cfg.clientCount = .ok b' →
      Acts cfg merge serverId srv (.mergeCommit now) (srv.committedState p now b') none
  | mergePush (p t : ℕ) (peers : List ℕ) : srv.merge = .push p (t :: peers) →
      Acts cfg merge serverId srv .mergePush { srv with
        bcastCommitBlocks := srv.bcastCommitBlocks.modify t (· ++ [p])
        merge := .push p peers } none
  | mergeDone (p : ℕ) : srv.merge = .push p [] →
      Acts cfg merge serverId srv .mergePush { srv with merge := .idle } none
  | reap (blockId now : ℕ) : Acts cfg merge serverId srv (.reap blockId now) (srv.reap cfg blockId now) none

theorem acts_of_act {cfg : Config} {merge : List (BLSSigShare G) → BLSSignature G} {serverId : ℕ}
    {srv srv' : Server G} {a : ServerAction} {out : Option (ℕ × Rpc G)}
    (h : srv.act cfg merge serverId a = some (srv', out)) : Acts cfg merge serverId srv a srv' out := by
  unfold act at h
  split at h
  · split at h
    · rename_i hc; cases h; exact .packCheck _ hc.1 hc.2 (by split <;> simp)
    · cases h
  · split at h
    · rename_i hc; cases h; exact .packGenerate _ hc.1
    · cases h
  · split at h
    · rename_i hpc
      split at h
      · cases h; exact .packBegin _ _ _ hpc
      · cases h
    · cases h
  · split at h
    · rename_i hpc
      split at h
      · cases h
      · cases h; exact .packEnd _ hpc
    · cases h
  · split at h
    · rename_i hpc; cases h; exact .packPush _ _ _ _ _ _ hpc
    · cases h
  · split at h
    · rename_i hpc; cases h; exact .packInsert _ _ _ _ hpc
    · cases h
  · split at h
    · rename_i hpc; cases h; exact .sendStart _ hpc
    · cases h
  · split at h
    · rename_i hpc
      obtain ⟨⟨srv₁, item, ids'⟩, hq, he⟩ := Option.map_eq_some_iff.mp h
      cases he
      exact .sendPop _ _ _ _ _ _ _ _ hpc (pops_of_popQueue hq)
    · cases h
  · split at h
    · rename_i hpc
      split at h
      · split at h
        · rename_i he
          cases h
          rw [List.isEmpty_iff.mp he] at hpc
          exact .sendSkip _ _ _ _ hpc
        · rename_i he
          cases h
          exact .sendGo _ _ _ _ _ hpc (by simpa using he)
      · cases h
    · cases h
  · split at h
    · rename_i hpc hq; cases h; exact .syncIdle hpc hq
    · rename_i hpc hq; cases h; exact .syncPop _ _ hpc hq
    · cases h
  · split at h
    · rename_i hpc; cases h; exact .syncSend _ _ _ hpc
    · cases h
  · split at h
    · rename_i hpc; cases h; exact .syncLabel _ hpc
    · cases h
  · split at h
    · rename_i hpc hq; cases h; exact .mergePop _ _ hpc hq
    · cases h
  · split at h
    · rename_i hpc
      split at h
      · cases h
      · rename_i b hb
        obtain ⟨srv₁, hc, he⟩ := Option.map_eq_some_iff.mp h
        cases he
        unfold mergeCommit at hc
        split at hc
        · cases hc
        · rename_i b' hm; cases hc; exact .mergeCommit _ _ _ _ hpc hb hm
    · cases h
  · split at h
    · rename_i hpc; cases h; exact .mergePush _ _ _ hpc
    · rename_i hpc; cases h; exact .mergeDone _ hpc
    · cases h
  · cases h; exact .reap _ _

end Server

end TomChain
