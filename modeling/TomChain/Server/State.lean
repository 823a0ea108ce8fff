import TomChain.Entity.Flexbuffers
import TomChain.Entity.Msgpack

/-!
# The state of a server

`TcServer` with its containers, the program counters of its threads and the calls it
answers. A block object behind a `std::shared_ptr` lives in `heap` and is named by its
address, since the same object is reached from the pending map, the relay queues and a
snapshot at once: a vote that is recorded in the pending block is seen by the thread that
serialises the block for a peer later.

Server and client ids arrive as `uint32`, so sums of a few of them do not wrap and are
plain numbers; the block counter is an `std::atomic<uint64_t>` and wraps.
-/

namespace TomChain

open Std (ExtTreeMap ExtTreeSet)
open Decimal (Text)
open Flexbuffers (Flex)

/-- The entries of the configuration file that the modelled code reads. -/
structure Config where
  serverCount : ℕ
  clientCount : ℕ
  txPerBlock : ℕ
  generateTxRate : ℕ
  pbPoolLimit : ℕ
  accountCount : ℕ
  blockDieThreshold : ℕ
  useRocksdb : Bool

/-- The three families of outgoing queues and the timer threads that drain them. -/
inductive Chan where
  | vote
  | block
  | commit
  deriving DecidableEq, Repr

/-- A call as the server that answers it sees it: what is left of the request and the
response so far. -/
inductive Rpc (G : Type) where
  | relayVote (votes : List (Flex G))
  | relayBlock (blocks : List (Flex G))
  | spBcastCommit (blocks : List (Flex G))
  | relayBlockSync (blockId : ℕ) (handled : Bool)
  | pullPendingBlocks (id : ℕ) (shadowPb : Option (List (ℕ × ℕ))) (pbHdrs : List (Flex G))
  | getBlocks (pbHdrs : List (Flex G)) (pb : List (Flex G))
  | voteBlocks (id : ℕ) (votedBlocks : List (Flex G)) (current : Option (ℕ × BlockVote G))
  /-- an exception left the handler -/
  | failed
  /-- the handler used the result of a lookup that found nothing -/
  | undefined

def Rpc.finished {G : Type} : Rpc G → Bool
  | .relayVote votes => votes.isEmpty
  | .relayBlock blocks => blocks.isEmpty
  | .spBcastCommit blocks => blocks.isEmpty
  | .relayBlockSync _ handled => handled
  | .pullPendingBlocks _ (some todo) _ => todo.isEmpty
  | .pullPendingBlocks _ none _ => false
  | .getBlocks pbHdrs _ => pbHdrs.isEmpty
  | .voteBlocks _ votedBlocks current => votedBlocks.isEmpty && current.isNone
  | .failed => false
  | .undefined => false

def Rpc.snapshot {G : Type} : Rpc G → List (ℕ × ℕ)
  | .pullPendingBlocks _ (some todo) _ => todo
  | _ => []

/-- Where the packing thread stands. `push` holds the new block (address and id), the peers to
whose relay queue it still has to be pushed, and the ids of the extracted transactions. -/
inductive PackPc where
  | check
  | generate
  | pack (i : ℕ)
  | push (i p blockId : ℕ) (peers : List ℕ) (extractedTx : List ℕ)
  deriving DecidableEq

/-- Where a relay thread stands: draining the queue of `target` into a request, or waiting for
the call. `ids` is the `tmp_sync_vec` of `RelayBlock`. The `sync` states are the second half of
`send_relay_blocks`. -/
inductive SendPc (G : Type) where
  | idle
  | drain (target : ℕ) (request : List (Flex G)) (ids : List ℕ) (rest : List ℕ)
  | wait (target : ℕ) (ids : List ℕ) (rest : List ℕ)
  | sync
  | syncSend (blockId : ℕ) (targets : List ℕ)
  | syncWait (blockId : ℕ) (target : ℕ) (rest : List ℕ)

/-- Where the merging thread stands: a block is popped, or committed and still to be pushed
to the broadcast queues of `peers`. -/
inductive MergePc where
  | idle
  | popped (p : ℕ)
  | push (p : ℕ) (peers : List ℕ)
  deriving DecidableEq

def MergePc.Holds (pc : MergePc) (p : ℕ) : Prop := pc = .popped p ∨ ∃ peers, pc = .push p peers

structure Server (G : Type) where
  heap : List (Block G)
  /-- per client id, the `seen_blocks` of its profile -/
  clients : ExtTreeMap ℕ (ExtTreeMap ℕ BlockHeader)
  pendingBlks : ExtTreeMap ℕ ℕ
  pbSyncQueue : List ℕ
  pbSyncLabels : ExtTreeSet ℕ
  pbMergeQueue : List ℕ
  committedBlks : ExtTreeMap ℕ ℕ
  pendingTxs : ExtTreeMap ℕ Transaction
  blkSeqGenerator : ℕ
  relayVotes : ExtTreeMap ℕ (List (BlockVote G))
  relayBlocks : ExtTreeMap ℕ (List ℕ)
  bcastCommitBlocks : ExtTreeMap ℕ (List ℕ)
  deadBlock : ExtTreeSet ℕ
  db : ExtTreeMap Text (Flex G)
  pack : PackPc
  send : Chan → SendPc G
  merge : MergePc
  -- History, not in the code: the blocks `pack_block` created, the ids that were stored in
  -- `pending_blks`, those that were inserted into `committed_blks`, and among these the ones
  -- this server merged itself.
  packed : List (Block G)
  stored : List ℕ
  commits : List ℕ
  merged : List ℕ

variable {G : Type}

/-- The loop over the servers `1 .. server-count` that leaves out the server itself. -/
def peerIds (serverCount serverId : ℕ) : List ℕ :=
  (List.range serverCount).filterMap fun i => if i + 1 = serverId then none else some (i + 1)

/-- One of the three loops of `init_peer_stubs`: an empty queue per peer. -/
def initQueues {α : Type} (serverCount serverId : ℕ) : ExtTreeMap ℕ (List α) :=
  (peerIds serverCount serverId).foldl (fun m t => m.insertIfNew t []) ∅

/-- `init_client_profile`, without the keys: clients `1 .. client-count`. -/
def initClients (clientCount : ℕ) : ExtTreeMap ℕ (ExtTreeMap ℕ BlockHeader) :=
  (List.range clientCount).foldl (fun m i => m.insertIfNew (i + 1) ∅) ∅

/-- A server after `start`: `init_server`, `init_client_profile`, `init_peer_stubs`. -/
def Server.init (cfg : Config) (serverId : ℕ) : Server G where
  heap := []
  clients := initClients cfg.clientCount
  pendingBlks := ∅
  pbSyncQueue := []
  pbSyncLabels := ∅
  pbMergeQueue := []
  committedBlks := ∅
  pendingTxs := ∅
  blkSeqGenerator := serverId * 1000000 % 2 ^ 64
  relayVotes := initQueues cfg.serverCount serverId
  relayBlocks := initQueues cfg.serverCount serverId
  bcastCommitBlocks := initQueues cfg.serverCount serverId
  deadBlock := ∅
  db := ∅
  pack := .check
  send := fun _ => .idle
  merge := .idle
  packed := []
  stored := []
  commits := []
  merged := []

theorem mem_peerIds {serverCount serverId t : ℕ} :
    t ∈ peerIds serverCount serverId ↔ 1 ≤ t ∧ t ≤ serverCount ∧ t ≠ serverId := by
  simp only [peerIds, List.mem_filterMap, List.mem_range, Option.ite_none_left_eq_some]
  constructor
  · rintro ⟨i, hi, hne, he⟩
    cases he
    exact ⟨by omega, by omega, hne⟩
  · rintro ⟨h1, h2, h3⟩
    exact ⟨t - 1, by omega, by omega, by simp; omega⟩

theorem mem_foldl_insertIfNew {V : Type} (l : List ℕ) (f : ℕ → ℕ) (v : V) (m : ExtTreeMap ℕ V)
    (t : ℕ) (w : V) (h : (l.foldl (fun m i => m.insertIfNew (f i) v) m)[t]? = some w) :
    w = v ∨ m[t]? = some w := by
  induction l generalizing m with
  | nil => exact .inr h
  | cons i l ih =>
    rcases ih _ h with h | h
    · exact .inl h
    · rw [ExtTreeMap.getElem?_insertIfNew] at h
      split at h
      · cases h; exact .inl rfl
      · exact .inr h

theorem initQueues_eq_nil {α : Type} {serverCount serverId t : ℕ} {q : List α}
    (h : (initQueues serverCount serverId : ExtTreeMap ℕ (List α))[t]? = some q) : q = [] := by
  rcases mem_foldl_insertIfNew _ (fun i => i) _ _ _ _ h with h | h
  · exact h
  · simp at h

theorem mem_initQueues {α : Type} {serverCount serverId t : ℕ} :
    t ∈ (initQueues serverCount serverId : ExtTreeMap ℕ (List α)) ↔
      t ∈ peerIds serverCount serverId := by
  have h : ∀ (l : List ℕ) (m : ExtTreeMap ℕ (List α)),
      t ∈ l.foldl (fun m t => m.insertIfNew t []) m ↔ t ∈ m ∨ t ∈ l := by
    intro l
    induction l with
    | nil => simp
    | cons t' l ih =>
      intro m
      rw [List.foldl_cons, ih, ExtTreeMap.mem_insertIfNew, Nat.compare_eq_eq, List.mem_cons,
        eq_comm (a := t'), or_comm (a := t = t'), or_assoc]
  rw [initQueues, h]
  simp

theorem mem_initClients {clientCount c : ℕ} :
    c ∈ initClients clientCount ↔ 1 ≤ c ∧ c ≤ clientCount := by
  rw [initClients]
  induction clientCount with
  | zero =>
    simp only [List.range_zero, List.foldl_nil, ExtTreeMap.not_mem_empty, false_iff]
    omega
  | succ n ih =>
    rw [List.range_succ, List.foldl_append, List.foldl_cons, List.foldl_nil,
      ExtTreeMap.mem_insertIfNew, ih, Nat.compare_eq_eq]
    omega

theorem initClients_eq_empty {clientCount c : ℕ} (h : 1 ≤ c ∧ c ≤ clientCount) :
    (initClients clientCount)[c]? = some ∅ := by
  obtain ⟨seen, hseen⟩ := Option.isSome_iff_exists.mp
    (ExtTreeMap.mem_iff_isSome_getElem?.mp (mem_initClients.mpr h))
  rcases mem_foldl_insertIfNew _ (fun i => i + 1) _ _ _ _ hseen with rfl | hempty
  · exact hseen
  · simp at hempty

namespace Server

def modifyBlock (srv : Server G) (p : ℕ) (f : Block G → Block G) : Server G :=
  { srv with heap := srv.heap.modify p f }

/-- `std::make_shared<Block>`: the new object is at address `heap.length`. -/
def alloc (srv : Server G) (b : Block G) : Server G :=
  { srv with heap := srv.heap ++ [b] }

/-- Insert the key and assign the value, as `pack_block` and `RelayBlock` do it under one
accessor: an entry that is already there is replaced. -/
def storePending (srv : Server G) (id p : ℕ) : Server G :=
  { srv with pendingBlks := srv.pendingBlks.insert id p, stored := srv.stored ++ [id] }

def blockName (id : ℕ) : Text := "block-".toList ++ Decimal.toText id

end Server

end TomChain
