import Mathlib.Tactic.Simps.Basic
import TomChain.Server.Heap

/-!
# What handing out headers leaves alone

`PullPendingBlocks` marks headers as seen by a client and stamps the time of their distribution.
No step of a server depends on these: a step and the removal of the marks and the stamps (`core`)
commute, up to another removal.
-/

namespace TomChain

open Std (ExtTreeMap)
open Flexbuffers (Flex toBytes fromBytes)

variable {G : Type} {cfg : Config} {merge : List (BLSSigShare G) → BLSSignature G} {s : ℕ}

/-! ## Without distribution times -/

def BlockHeader.undist (bh : BlockHeader) : BlockHeader := { bh with distTs := 0 }

def Block.undist (b : Block G) : Block G := { b with header := b.header.undist }

@[simp] theorem Block.undist_id (b : Block G) : b.undist.header.id = b.header.id := rfl

@[simp] theorem Block.undist_votes (b : Block G) : b.undist.votes = b.votes := rfl

@[simp] theorem Block.undist_proposalTs (b : Block G) :
    b.undist.header.proposalTs = b.header.proposalTs := rfl

@[simp] theorem Block.undist_undist (b : Block G) : b.undist.undist = b.undist := rfl

@[simp] theorem Block.stampDist_undist (b : Block G) (now : ℕ) :
    (b.stampDist now).undist = b.undist := by
  unfold stampDist
  split <;> rfl

theorem Block.mergeVotes_undist (merge : List (BLSSigShare G) → BLSSignature G) (n : ℕ)
    (b : Block G) : b.undist.mergeVotes merge n = (b.mergeVotes merge n).map Block.undist := by
  unfold mergeVotes
  rw [undist_votes]
  split
  · rfl
  · split <;> rfl

/-- The request that a relay thread collects holds copies of blocks with their times; only its
length counts. -/
def SendPc.plain : SendPc G → SendPc G
  | .drain target request ids rest => .drain target (request.map fun _ => .null) ids rest
  | pc => pc

@[simp] theorem SendPc.plain_plain (pc : SendPc G) : pc.plain.plain = pc.plain := by
  cases pc <;> simp [plain]

namespace Server

/-- The state without the marks, the stamps and the copies of stamps. -/
@[simps]
def core (srv : Server G) : Server G :=
  { srv with
    heap := srv.heap.map Block.undist
    clients := ∅
    db := ∅
    send := fun ch => (srv.send ch).plain }

@[simp] theorem core_core (srv : Server G) : srv.core.core = srv.core := by
  simp [core, Function.comp_def]

theorem core_setSend (srv : Server G) (ch : Chan) (pc : SendPc G) :
    (srv.setSend ch pc).core = srv.core.setSend ch pc.plain := by
  have h : (fun ch' => (Function.update srv.send ch pc ch').plain) =
      Function.update (fun ch' => (srv.send ch').plain) ch pc.plain := by
    funext ch'
    by_cases he : ch' = ch
    · subst he; simp
    · simp [he]
  simp only [core, setSend, h]

theorem core_setSend_congr {srv srv' : Server G} (h : srv.core = srv'.core) (ch : Chan)
    (pc : SendPc G) : (srv.setSend ch pc).core = (srv'.setSend ch pc).core := by
  rw [core_setSend, core_setSend, h]

@[simp] theorem plain_nextTarget (ch : Chan) (rest : List ℕ) :
    (nextTarget ch rest : SendPc G).plain = nextTarget ch rest := by
  cases rest with
  | nil => cases ch <;> rfl
  | cons t rest => rfl

/-- Writing through a pointer, when the blocks written are the same without their times. -/
theorem map_undist_modify (heap : List (Block G)) (p : ℕ) (f g : Block G → Block G)
    (h : ∀ b, (f b.undist).undist = (g b).undist) :
    ((heap.map Block.undist).modify p f).map Block.undist = (heap.modify p g).map Block.undist := by
  apply List.ext_getElem?
  intro q
  simp only [List.getElem?_map, List.getElem?_modify]
  cases heap[q]? with
  | none => simp
  | some b =>
    by_cases hq : p = q
    · simp [hq, h b]
    · simp [hq]

theorem popQueue_core (srv : Server G) (ch : Chan) (target : ℕ) :
    (srv.core.popQueue ch target).map (fun r => (r.1.core, r.2.2)) =
      (srv.popQueue ch target).map (fun r => (r.1.core, r.2.2)) := by
  cases ch with
  | vote =>
    simp only [popQueue, core_relayVotes]
    split <;> simp [core, Function.comp_def]
  | block =>
    simp only [popQueue, core_relayBlocks, core_heap, List.getElem?_map]
    split
    · rename_i p q hq
      cases srv.heap[p]? <;> simp [core, Function.comp_def]
    · rfl
  | commit =>
    simp only [popQueue, core_bcastCommitBlocks, core_heap, List.getElem?_map]
    split
    · rename_i p q hq
      cases srv.heap[p]? <;> simp [core, Function.comp_def]
    · rfl

theorem queueEmpty_core (srv : Server G) (ch : Chan) (target : ℕ) :
    srv.core.queueEmpty ch target = srv.queueEmpty ch target := by
  cases ch <;> rfl

theorem act_core (srv : Server G) (a : ServerAction) :
    (srv.core.act cfg merge s a).map (fun r => r.1.core) =
      (srv.act cfg merge s a).map (fun r => r.1.core) := by
  cases a with
  | packCheck =>
    simp only [act, core_pack, core_pendingBlks]
    split <;> simp [core, Function.comp_def]
  | packGenerate txs =>
    simp only [act, core_pack]
    split <;> simp [core, generateTx, Function.comp_def]
  | packBegin now order =>
    simp only [act, core_pack, core_pendingTxs]
    split
    · split
      · simp [core, packBegin, newBlock, alloc, Function.comp_def]
      · rfl
    · rfl
  | packEnd =>
    simp only [act, core_pack, core_pendingTxs]
    split
    · split <;> simp [core, Function.comp_def]
    · rfl
  | packPush =>
    simp only [act, core_pack, core_relayBlocks]
    split <;> simp [core, Function.comp_def]
  | packInsert =>
    simp only [act, core_pack, core_pendingTxs]
    split <;> simp [core, storePending, Function.comp_def]
  | sendStart ch =>
    simp only [act, core_send]
    cases srv.send ch <;> simp [SendPc.plain, core_setSend]
  | sendPop ch =>
    simp only [act, core_send]
    cases srv.send ch with
    | drain target request ids rest =>
      -- what is sent later depends on the item that is popped; the core does not
      have h := congrArg (Option.map fun x : Server G × List ℕ =>
        x.1.setSend ch (.drain target ((request.map fun _ => .null) ++ [.null]) (ids ++ x.2) rest))
        (popQueue_core srv ch target)
      simpa [SendPc.plain, core_setSend, Function.comp_def] using h
    | _ => simp [SendPc.plain]
  | sendGo ch =>
    simp only [act, core_send]
    cases srv.send ch with
    | drain target request ids rest =>
      simp only [SendPc.plain, queueEmpty_core]
      split
      · cases request <;> simp [SendPc.plain, core_setSend]
      · rfl
    | _ => simp [SendPc.plain]
  | syncPop =>
    simp only [act, core_send, core_pbSyncQueue]
    cases srv.send .block with
    | sync =>
      cases srv.pbSyncQueue with
      | nil => simp [SendPc.plain, core_setSend]
      | cons id q => exact congrArg some (core_setSend_congr (by simp [core, Function.comp_def]) _ _)
    | _ => simp [SendPc.plain]
  | syncSend =>
    simp only [act, core_send]
    cases srv.send .block with
    | syncSend id targets => cases targets <;> simp [SendPc.plain, core_setSend]
    | _ => simp [SendPc.plain]
  | syncLabel =>
    simp only [act, core_send, core_pbSyncLabels]
    cases srv.send .block with
    | syncSend id targets =>
      cases targets with
      | nil => exact congrArg some (core_setSend_congr (by simp [core, Function.comp_def]) _ _)
      | cons t rest => simp [SendPc.plain]
    | _ => simp [SendPc.plain]
  | mergePop =>
    simp only [act, core_merge, core_pbMergeQueue]
    split <;> simp [core, Function.comp_def]
  | mergeCommit now =>
    simp only [act, core_merge, core_heap, List.getElem?_map]
    split
    · rename_i p hpc
      cases hb : srv.heap[p]? with
      | none => rfl
      | some b =>
        simp only [Option.map_some, mergeCommit, Block.mergeVotes_undist]
        cases hm : b.mergeVotes merge cfg.clientCount with
        | error e => rfl
        | ok b' =>
          have hheap := map_undist_modify srv.heap p (fun _ => b'.undist.stampCommit now)
            (fun _ => b'.stampCommit now) fun _ => rfl
          simp only [Except.map, Option.map_some, Option.some.injEq]
          simp only [core, committedState, modifyBlock, Block.undist_id, hheap]
          simp
    · rfl
  | mergePush =>
    simp only [act, core_merge, core_bcastCommitBlocks]
    split <;> simp [core, Function.comp_def]
  | reap id now =>
    simp only [act, Option.map_some, reap, core_pendingBlks, core_heap, List.getElem?_map]
    cases hp : srv.pendingBlks[id]? with
    | none => simp
    | some p =>
      cases hb : srv.heap[p]? with
      | none => simp [hb]
      | some b =>
        simp only [hb, Option.map_some, Block.undist_proposalTs, core_deadBlock]
        split
        · simp
        · split <;> simp [core, Function.comp_def]

theorem resumeSend_core (srv : Server G) (ch : Chan) :
    (srv.core.resumeSend ch).map core = (srv.resumeSend ch).map core := by
  simp only [resumeSend, core_send, core_pbSyncQueue]
  cases srv.send ch with
  | wait target ids rest => exact congrArg some (core_setSend_congr (by simp [core, Function.comp_def]) _ _)
  | syncWait id target rest => simp [SendPc.plain, core_setSend]
  | _ => simp [SendPc.plain]

theorem recordVote_core (srv : Server G) (id k : ℕ) (v : BlockVote G) :
    (srv.core.recordVote cfg id k v).core = (srv.recordVote cfg id k v).core := by
  simp only [recordVote, core_pendingBlks, core_heap, List.getElem?_map]
  cases hp : srv.pendingBlks[id]? with
  | none => simp
  | some p =>
    cases hb : srv.heap[p]? with
    | none => simp [hb]
    | some b =>
      have hheap := map_undist_modify srv.heap p (fun b => b.insertVote k v)
        (fun b => b.insertVote k v) fun _ => rfl
      have henough : (b.undist.insertVote k v).isVoteEnough cfg.clientCount =
          (b.insertVote k v).isVoteEnough cfg.clientCount := rfl
      simp only [hb, Option.map_some, henough]
      split
      · simp only [core, modifyBlock, hheap]
        simp
      · simp only [core, modifyBlock, hheap]
        simp

theorem relayVoteItem_core (srv : Server G) (v : BlockVote G) :
    (srv.core.relayVoteItem cfg v).core = (srv.relayVoteItem cfg v).core := by
  simp only [relayVoteItem, core_deadBlock]
  split
  · rw [core_core]
  · exact recordVote_core srv v.blockId v.voterId v

theorem spBcastCommitItem_core (srv : Server G) (now : ℕ) (block : Block G) :
    (srv.core.spBcastCommitItem cfg now block).core = (srv.spBcastCommitItem cfg now block).core := by
  simp only [spBcastCommitItem, core_pendingBlks]
  split
  · simp [core, alloc, Function.comp_def]
  · rw [core_core]

theorem pushVotes_core (vote : BlockVote G) (targets : List ℕ) (srv : Server G) :
    (srv.core.pushVotes vote targets).map core = (srv.pushVotes vote targets).map core := by
  induction targets generalizing srv with
  | nil => simp [pushVotes]
  | cons t targets ih =>
    simp only [pushVotes, core_relayVotes]
    split
    · rfl
    · rename_i q hq
      exact ih { srv with relayVotes := srv.relayVotes.insert t (q ++ [vote]) }

theorem voteBlocksItem_core (srv : Server G) (id : ℕ) (block : Block G) :
    (srv.core.voteBlocksItem cfg s id block).map (fun r => r.1.core) =
      (srv.voteBlocksItem cfg s id block).map (fun r => r.1.core) := by
  simp only [voteBlocksItem, core_deadBlock]
  split
  · simp
  · rename_i vote hv
    split
    · simp
    · have h := pushVotes_core vote
        ((block.getServerId cfg.serverCount).toList.filter (· ≠ s)) srv
      revert h
      cases srv.core.pushVotes vote ((block.getServerId cfg.serverCount).toList.filter (· ≠ s)) <;>
        cases srv.pushVotes vote ((block.getServerId cfg.serverCount).toList.filter (· ≠ s)) <;> simp

theorem core_pullItem {srv srv' : Server G} {c now id p : ℕ} {b : Block G} {hdrs : List (Flex G)}
    (h : srv.pullItem c now id p b = some (srv', hdrs)) : srv'.core = srv.core := by
  rcases pullItem_eq h with ⟨rfl, -⟩ | ⟨-, -, clients, rfl⟩
  · rfl
  · have hheap : (srv.heap.modify p (·.stampDist now)).map Block.undist = srv.heap.map Block.undist := by
      apply List.ext_getElem?
      intro q
      simp only [List.getElem?_map, List.getElem?_modify]
      cases srv.heap[q]? with
      | none => rfl
      | some b => by_cases hq : p = q <;> simp [hq]
    simp only [core, modifyBlock, hheap]

/-- Nor does it matter to the core whether there is a header to be handed out. -/
theorem handle_pullItem (srv : Server G) (now : ℕ) (order : List (ℕ × ℕ)) (id : ℕ) (x : ℕ × ℕ)
    (todo : List (ℕ × ℕ)) (pbHdrs : List (Flex G)) :
    (srv.handle cfg s now order (.pullPendingBlocks id (some (x :: todo)) pbHdrs)).map
      (fun r => r.1.core) = (srv.heap[x.2]?).map fun _ => srv.core := by
  obtain ⟨blockId, p⟩ := x
  simp only [handle]
  cases srv.heap[p]? with
  | none => rfl
  | some b =>
    dsimp only
    split
    · rfl
    · rename_i hi
      simp [core_pullItem hi]

/-- A step of `PullPendingBlocks` leaves the core alone. -/
theorem core_handle_pull {srv : Server G} {now id : ℕ} {order : List (ℕ × ℕ)}
    {shadowPb : Option (List (ℕ × ℕ))} {pbHdrs : List (Flex G)} {r : Server G × Rpc G}
    (h : srv.handle cfg s now order (.pullPendingBlocks id shadowPb pbHdrs) = some r) :
    r.1.core = srv.core := by
  obtain ⟨srv', rpc'⟩ := r
  cases handles_of_handle h with
  | pullBegin | pullUndefined => rfl
  | pullItem _ _ _ _ _ _ _ _ _ hi => exact core_pullItem hi

theorem handle_core (srv : Server G) (now : ℕ) (order : List (ℕ × ℕ)) (rpc : Rpc G) :
    (srv.core.handle cfg s now order rpc).map (fun r => r.1.core) =
      (srv.handle cfg s now order rpc).map (fun r => r.1.core) := by
  cases rpc with
  | relayVote votes =>
    cases votes with
    | nil => rfl
    | cons item rest =>
      simp only [handle]
      split
      · simp
      · simp [relayVoteItem_core]
  | relayBlock blocks =>
    cases blocks with
    | nil => rfl
    | cons item rest =>
      simp only [handle]
      split
      · simp
      · simp [core, relayBlockItem, alloc, storePending, Function.comp_def]
  | spBcastCommit blocks =>
    cases blocks with
    | nil => rfl
    | cons item rest =>
      simp only [handle]
      split
      · simp
      · simp [spBcastCommitItem_core]
  | relayBlockSync id handled =>
    cases handled with
    | false => simp [handle, core, Function.comp_def]
    | true => rfl
  | pullPendingBlocks id shadowPb pbHdrs =>
    cases shadowPb with
    | none =>
      simp only [handle, core_pendingBlks]
      split <;> simp
    | some todo =>
      cases todo with
      | nil => rfl
      | cons x todo =>
        rw [handle_pullItem, handle_pullItem, core_heap, List.getElem?_map, Option.map_map, core_core]
        rfl
  | getBlocks pbHdrs pb => cases pbHdrs <;> simp [handle]
  | voteBlocks id votedBlocks current =>
    cases current with
    | some r => simp [handle, recordVote_core]
    | none =>
      cases votedBlocks with
      | nil => rfl
      | cons item rest =>
        simp only [handle]
        split
        · simp
        · rename_i block _
          have h : (srv.core.voteBlocksItem cfg s id block).map (fun r => r.1.core) =
              (srv.voteBlocksItem cfg s id block).map (fun r => r.1.core) :=
            voteBlocksItem_core srv id block
          revert h
          cases srv.core.voteBlocksItem cfg s id block <;> cases srv.voteBlocksItem cfg s id block <;> simp
  | failed | undefined => rfl

end Server

end TomChain
