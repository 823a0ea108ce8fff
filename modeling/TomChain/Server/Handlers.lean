import TomChain.Server.State

/-!
# The gRPC handlers

The bodies of `TcConsensusImpl` and `TcPeerConsensusImpl`, cut at the points where another
thread can come in: one step handles one element of the request. Within an element, the
section under the `pending_blks` accessor is one step; `VoteBlocks` queues the vote for the
other target servers in a step of its own before that.
-/

namespace TomChain

open Std (ExtTreeMap ExtTreeSet)
open Flexbuffers (Flex toBytes fromBytes headerToBytes headerFromBytes voteFromBytes)

variable {G : Type}

namespace Server

/-- The section both vote handlers run under the accessor of a pending block: record the vote
under `voter` and, when the votes are enough, hand the block to the merging thread. -/
def recordVote (cfg : Config) (srv : Server G) (blockId voter : ℕ) (vote : BlockVote G) :
    Server G :=
  match srv.pendingBlks[blockId]? with
  | none => srv
  | some p =>
    match srv.heap[p]? with
    | none => srv
    | some b =>
      let srv' := srv.modifyBlock p fun b => b.insertVote voter vote
      if (b.insertVote voter vote).isVoteEnough cfg.clientCount then
        { srv' with
          pbMergeQueue := srv.pbMergeQueue ++ [p]
          pendingBlks := srv.pendingBlks.erase blockId }
      else srv'

/-- One vote of a `RelayVote` request. It is recorded under its own `voter_id_` in the block
its own `block_id_` names. -/
def relayVoteItem (cfg : Config) (srv : Server G) (vote : BlockVote G) : Server G :=
  if vote.blockId ∈ srv.deadBlock then srv
  else srv.recordVote cfg vote.blockId vote.voterId vote

def relayBlockItem (srv : Server G) (block : Block G) : Server G :=
  (srv.alloc block).storePending block.header.id srv.heap.length

def spBcastCommitItem (cfg : Config) (srv : Server G) (now : ℕ) (block : Block G) : Server G :=
  let block := block.stampRecv now
  if block.header.id ∈ srv.pendingBlks then
    { srv.alloc block with
      committedBlks := srv.committedBlks.insert block.header.id srv.heap.length
      db := if cfg.useRocksdb then srv.db.insert (blockName block.header.id) (toBytes block)
        else srv.db
      pendingBlks := srv.pendingBlks.erase block.header.id
      commits := srv.commits ++ [block.header.id] }
  else srv

/-- Queue a vote for every server of `targets`; `none` when a queue does not exist. -/
def pushVotes (srv : Server G) (vote : BlockVote G) : List ℕ → Option (Server G)
  | [] => some srv
  | t :: targets =>
    match srv.relayVotes[t]? with
    | none => none
    | some q => ({ srv with relayVotes := srv.relayVotes.insert t (q ++ [vote]) }).pushVotes vote targets

/-- The first half of a `VoteBlocks` element: take the vote stored under the request's id and
queue it for every target server but this one. The result says what is left to be recorded
here, if anything. -/
def voteBlocksItem (cfg : Config) (serverId : ℕ) (srv : Server G) (id : ℕ) (block : Block G) :
    Option (Server G × Option (ℕ × BlockVote G)) :=
  match block.votes[id]? with
  | none => some (srv, none)
  | some vote =>
    if block.header.id ∈ srv.deadBlock then some (srv, none)
    else
      let targets := block.getServerId cfg.serverCount
      match srv.pushVotes vote (targets.toList.filter (· ≠ serverId)) with
      | none => none
      | some srv' =>
        some (srv', if serverId ∈ targets then some (block.header.id, vote) else none)

/-- One element of the snapshot that `PullPendingBlocks` walks through. The header is written
to the response before the distribution time is stamped into the block. -/
def pullItem (srv : Server G) (clientId now : ℕ) (id p : ℕ) (b : Block G) :
    Option (Server G × List (Flex G)) :=
  if id ∈ srv.pbSyncLabels then
    match srv.clients[clientId]? with
    | none => none
    | some seen =>
      if b.header.id ∈ seen then some (srv, [])
      else
        some ({ srv.modifyBlock p (·.stampDist now) with
                clients := srv.clients.insert clientId (seen.insertIfNew b.header.id b.header) },
          [headerToBytes b.header])
  else some (srv, [])

/-- One requested header of `GetBlocks`: the pending block with that id, if there is one. -/
def getItem (srv : Server G) (id : ℕ) : List (Flex G) :=
  match srv.pendingBlks[id]? with
  | none => []
  | some p => (srv.heap[p]?).toList.map toBytes

/-- One step of a handler. `now` is the clock and `order` the order in which the hash map is
copied. -/
def handle (cfg : Config) (serverId now : ℕ) (order : List (ℕ × ℕ)) (srv : Server G) :
    Rpc G → Option (Server G × Rpc G)
  | .relayVote (item :: rest) =>
    match voteFromBytes item with
    | none => some (srv, .failed)
    | some vote => some (srv.relayVoteItem cfg vote, .relayVote rest)
  | .relayBlock (item :: rest) =>
    match fromBytes item with
    | none => some (srv, .failed)
    | some block => some (srv.relayBlockItem block, .relayBlock rest)
  | .spBcastCommit (item :: rest) =>
    match fromBytes item with
    | none => some (srv, .failed)
    | some block => some (srv.spBcastCommitItem cfg now block, .spBcastCommit rest)
  | .relayBlockSync blockId false =>
    some ({ srv with pbSyncLabels := srv.pbSyncLabels.insert blockId }, .relayBlockSync blockId true)
  | .pullPendingBlocks id none pbHdrs =>
    if order.isPerm srv.pendingBlks.toList then some (srv, .pullPendingBlocks id (some order) pbHdrs)
    else none
  | .pullPendingBlocks id (some ((blockId, p) :: todo)) pbHdrs =>
    match srv.heap[p]? with
    | none => none
    | some b =>
      match srv.pullItem id now blockId p b with
      | none => some (srv, .undefined)
      | some (srv', hdrs) => some (srv', .pullPendingBlocks id (some todo) (pbHdrs ++ hdrs))
  | .getBlocks (hdr :: rest) pb =>
    some (srv, .getBlocks rest (pb ++ srv.getItem (headerFromBytes hdr).id))
  | .voteBlocks id votedBlocks (some (blockId, vote)) =>
    some (srv.recordVote cfg blockId id vote, .voteBlocks id votedBlocks none)
  | .voteBlocks id (item :: rest) none =>
    match fromBytes item with
    | none => some (srv, .failed)
    | some block =>
      match srv.voteBlocksItem cfg serverId id block with
      | none => some (srv, .undefined)
      | some (srv', current) => some (srv', .voteBlocks id rest current)
  | _ => none

/-! ## What a step of a handler can do -/

inductive Records (cfg : Config) (srv : Server G) (blockId voter : ℕ) (vote : BlockVote G) :
    Server G → Prop
  | absent : srv.pendingBlks[blockId]? = none → Records cfg srv blockId voter vote srv
  | dangling (p : ℕ) : srv.pendingBlks[blockId]? = some p → srv.heap[p]? = none →
      Records cfg srv blockId voter vote srv
  | fewer (p : ℕ) (b : Block G) : srv.pendingBlks[blockId]? = some p → srv.heap[p]? = some b →
      Records cfg srv blockId voter vote (srv.modifyBlock p fun b => b.insertVote voter vote)
  | enough (p : ℕ) (b : Block G) : srv.pendingBlks[blockId]? = some p → srv.heap[p]? = some b →
      (b.insertVote voter vote).isVoteEnough cfg.clientCount = true →
      Records cfg srv blockId voter vote
        { srv.modifyBlock p fun b => b.insertVote voter vote with
          pbMergeQueue := srv.pbMergeQueue ++ [p]
          pendingBlks := srv.pendingBlks.erase blockId }

theorem records_recordVote (cfg : Config) (srv : Server G) (blockId voter : ℕ)
    (vote : BlockVote G) :
    Records cfg srv blockId voter vote (srv.recordVote cfg blockId voter vote) := by
  unfold recordVote
  split
  · rename_i hp; exact .absent hp
  · rename_i hp
    split
    · rename_i hb; exact .dangling _ hp hb
    · rename_i hb
      dsimp only
      split
      · rename_i he; exact .enough _ _ hp hb he
      · exact .fewer _ _ hp hb

/-- The cases of one element of `SPBcastCommit`. -/
theorem spBcastCommitItem_eq (cfg : Config) (srv : Server G) (now : ℕ) (block : Block G) :
    (block.header.id ∉ srv.pendingBlks ∧ srv.spBcastCommitItem cfg now block = srv) ∨
      block.header.id ∈ srv.pendingBlks ∧ ∃ db, srv.spBcastCommitItem cfg now block =
        { srv.alloc (block.stampRecv now) with
          committedBlks := srv.committedBlks.insert block.header.id srv.heap.length
          db := db
          pendingBlks := srv.pendingBlks.erase block.header.id
          commits := srv.commits ++ [block.header.id] } := by
  unfold spBcastCommitItem
  dsimp only
  split
  · rename_i hp; exact .inr ⟨hp, _, rfl⟩
  · rename_i hp; exact .inl ⟨hp, rfl⟩

/-- The cases of `handle`, one constructor for each way through a handler. -/
inductive Handles (cfg : Config) (serverId now : ℕ) (srv : Server G) :
    Rpc G → Server G → Rpc G → Prop
  | relayVoteFailed (item : Flex G) (rest : List (Flex G)) :
      voteFromBytes item = none → Handles cfg serverId now srv (.relayVote (item :: rest)) srv .failed
  | relayVote (item : Flex G) (rest : List (Flex G)) (vote : BlockVote G) :
      voteFromBytes item = some vote →
      Handles cfg serverId now srv (.relayVote (item :: rest)) (srv.relayVoteItem cfg vote)
        (.relayVote rest)
  | relayBlockFailed (item : Flex G) (rest : List (Flex G)) :
      fromBytes item = none → Handles cfg serverId now srv (.relayBlock (item :: rest)) srv .failed
  | relayBlock (item : Flex G) (rest : List (Flex G)) (block : Block G) :
      fromBytes item = some block →
      Handles cfg serverId now srv (.relayBlock (item :: rest)) (srv.relayBlockItem block)
        (.relayBlock rest)
  | spBcastCommitFailed (item : Flex G) (rest : List (Flex G)) :
      fromBytes item = none → Handles cfg serverId now srv (.spBcastCommit (item :: rest)) srv .failed
  | spBcastCommit (item : Flex G) (rest : List (Flex G)) (block : Block G) :
      fromBytes item = some block →
      Handles cfg serverId now srv (.spBcastCommit (item :: rest))
        (srv.spBcastCommitItem cfg now block) (.spBcastCommit rest)
  | relayBlockSync (blockId : ℕ) :
      Handles cfg serverId now srv (.relayBlockSync blockId false)
        { srv with pbSyncLabels := srv.pbSyncLabels.insert blockId } (.relayBlockSync blockId true)
  | pullBegin (id : ℕ) (order : List (ℕ × ℕ)) (pbHdrs : List (Flex G)) :
      order.Perm srv.pendingBlks.toList →
      Handles cfg serverId now srv (.pullPendingBlocks id none pbHdrs) srv
        (.pullPendingBlocks id (some order) pbHdrs)
  | pullUndefined (id blockId p : ℕ) (todo : List (ℕ × ℕ)) (pbHdrs : List (Flex G)) (b : Block G) :
      srv.heap[p]? = some b → srv.pullItem id now blockId p b = none →
      Handles cfg serverId now srv (.pullPendingBlocks id (some ((blockId, p) :: todo)) pbHdrs) srv
        .undefined
  | pullItem (id blockId p : ℕ) (todo : List (ℕ × ℕ)) (pbHdrs : List (Flex G)) (b : Block G)
      (srv' : Server G) (hdrs : List (Flex G)) :
      srv.heap[p]? = some b → srv.pullItem id now blockId p b = some (srv', hdrs) →
      Handles cfg serverId now srv (.pullPendingBlocks id (some ((blockId, p) :: todo)) pbHdrs) srv'
        (.pullPendingBlocks id (some todo) (pbHdrs ++ hdrs))
  | getItem (hdr : Flex G) (rest pb : List (Flex G)) :
      Handles cfg serverId now srv (.getBlocks (hdr :: rest) pb) srv
        (.getBlocks rest (pb ++ srv.getItem (headerFromBytes hdr).id))
  | record (id : ℕ) (votedBlocks : List (Flex G)) (blockId : ℕ) (vote : BlockVote G) :
      Handles cfg serverId now srv (.voteBlocks id votedBlocks (some (blockId, vote)))
        (srv.recordVote cfg blockId id vote) (.voteBlocks id votedBlocks none)
  | voteBlocksFailed (id : ℕ) (item : Flex G) (rest : List (Flex G)) :
      fromBytes item = none →
      Handles cfg serverId now srv (.voteBlocks id (item :: rest) none) srv .failed
  | voteBlocksUndefined (id : ℕ) (item : Flex G) (rest : List (Flex G)) (block : Block G) :
      fromBytes item = some block → srv.voteBlocksItem cfg serverId id block = none →
      Handles cfg serverId now srv (.voteBlocks id (item :: rest) none) srv .undefined
  | voteBlocks (id : ℕ) (item : Flex G) (rest : List (Flex G)) (block : Block G) (srv' : Server G)
      (current : Option (ℕ × BlockVote G)) :
      fromBytes item = some block → srv.voteBlocksItem cfg serverId id block = some (srv', current) →
      Handles cfg serverId now srv (.voteBlocks id (item :: rest) none) srv'
        (.voteBlocks id rest current)

theorem handles_of_handle {cfg : Config} {serverId now : ℕ} {order : List (ℕ × ℕ)}
    {srv srv' : Server G} {rpc rpc' : Rpc G}
    (h : srv.handle cfg serverId now order rpc = some (srv', rpc')) :
    Handles cfg serverId now srv rpc srv' rpc' := by
  unfold handle at h
  split at h
  · split at h
    · rename_i hd; cases h; exact .relayVoteFailed _ _ hd
    · rename_i hd; cases h; exact .relayVote _ _ _ hd
  · split at h
    · rename_i hd; cases h; exact .relayBlockFailed _ _ hd
    · rename_i hd; cases h; exact .relayBlock _ _ _ hd
  · split at h
    · rename_i hd; cases h; exact .spBcastCommitFailed _ _ hd
    · rename_i hd; cases h; exact .spBcastCommit _ _ _ hd
  · cases h; exact .relayBlockSync _
  · split at h
    · rename_i hp; cases h; exact .pullBegin _ _ _ (List.isPerm_iff.mp hp)
    · cases h
  · split at h
    · cases h
    · rename_i hb
      split at h
      · rename_i hi; cases h; exact .pullUndefined _ _ _ _ _ _ hb hi
      · rename_i hi; cases h; exact .pullItem _ _ _ _ _ _ _ _ hb hi
  · cases h; exact .getItem _ _ _
  · cases h; exact .record _ _ _ _
  · split at h
    · rename_i hd; cases h; exact .voteBlocksFailed _ _ _ hd
    · rename_i hd
      split at h
      · rename_i hi; cases h; exact .voteBlocksUndefined _ _ _ _ hd hi
      · rename_i hi; cases h; exact .voteBlocks _ _ _ _ _ _ hd hi
  · cases h

end Server

end TomChain
