import Mathlib.Algebra.Order.BigOperators.Group.Finset
import Mathlib.Order.Interval.Finset.Nat
import TomChain.System.Lifecycle
import TomChain.System.Transit
import TomChain.System.Votes

/-!
# Who aggregates a block

Votes for a block go to its target servers only, so only these collect a quorum and merge it; a
relayed vote or a broadcast commit is not passed on. How often a block is handed to the merging
thread, or queued for a broadcast, is counted over the whole run, from what each step appends to
the queues.
-/

namespace TomChain

open Std (ExtTreeMap ExtTreeSet)
open Runs Server
open Flexbuffers (Flex toBytes fromBytes voteFromBytes)

variable {G D : Type} {cfg : Config} {crypto : Crypto G D} {σ σ' : State G} {a : Action G}
  {ok : State G → Action G → Bool}

/-! ## Target servers -/

/-- `t` is in the target set of the blocks with this id. -/
def IsTarget (cfg : Config) (id t : ℕ) : Prop :=
  t ∈ (Block.make id 0 0 : Block Unit).getServerId cfg.serverCount

/-- The target set depends on the id only. -/
theorem isTarget_iff (b : Block G) (t : ℕ) :
    IsTarget cfg b.header.id t ↔ t ∈ b.getServerId cfg.serverCount := by
  rw [IsTarget, Block.mem_getServerId, Block.mem_getServerId]
  rfl

/-- The primary server and its shadow: two servers at most. -/
theorem isTarget_cases {id t : ℕ} (h : IsTarget cfg id t) :
    t = id % cfg.serverCount + 1 ∨
      t = if id % cfg.serverCount + 1 + 1 > cfg.serverCount then 1
        else id % cfg.serverCount + 1 + 1 := by
  rw [IsTarget, Block.mem_getServerId] at h
  exact h

/-- The id of the block that the next step of a vote handler records a vote for. -/
def Rpc.recordsFor : Rpc G → Option ℕ
  | .relayVote (item :: _) => (voteFromBytes item).map BlockVote.blockId
  | .voteBlocks _ _ (some (blockId, _)) => some blockId
  | _ => none

/-! ## What one move appends -/

/-- What was pushed to a queue that grew from `q` to `q'`; a queue from which something was taken
was not pushed to. -/
def appended {α : Type} (q q' : List α) : List α := q'.drop q.length

@[simp] theorem appended_self {α : Type} (q : List α) : appended q q = [] := by simp [appended]

@[simp] theorem appended_append {α : Type} (q l : List α) : appended q (q ++ l) = l := by
  simp [appended]

@[simp] theorem appended_tail {α : Type} (x : α) (q : List α) : appended (x :: q) q = [] := by
  simp [appended]

namespace Server

variable {merge : List (BLSSigShare G) → BLSSignature G} {s : ℕ} {srv srv' : Server G}

/-- The ids of the blocks that a move pushed to `pb_merge_queue`. -/
def newMerges (srv srv' : Server G) : List ℕ :=
  (appended srv.pbMergeQueue srv'.pbMergeQueue).filterMap srv'.idAt

/-- The ids of the blocks that a move pushed to `bcast_commit_blocks` for `t`. -/
def newCommits (t : ℕ) (srv srv' : Server G) : List ℕ :=
  (appended ((srv.bcastCommitBlocks[t]?).getD []) ((srv'.bcastCommitBlocks[t]?).getD [])).filterMap
    srv'.idAt

def handedOver (srv : Server G) : List ℕ := srv.merged ++ srv.mergingIds

theorem newMerges_same (h : srv'.pbMergeQueue = srv.pbMergeQueue) : newMerges srv srv' = [] := by
  rw [newMerges, h, appended_self]
  rfl

theorem handedOver_same (hwf : srv.WF) (hg : HeapGrows srv.heap srv'.heap)
    (hqueue : srv'.pbMergeQueue = srv.pbMergeQueue) (hmerge : srv'.merge = srv.merge)
    (hmerged : srv'.merged = srv.merged) :
    srv'.handedOver = srv.handedOver ++ newMerges srv srv' := by
  have hm : srv'.merging = srv.merging := by rw [Server.merging, Server.merging, hqueue, hmerge]
  rw [newMerges_same hqueue, handedOver, handedOver, hmerged, mergingIds_eq hwf hg hm,
    List.append_nil]

/-- Recording a vote hands over the block of the vote, or nothing. -/
theorem Records.newMerges (hwf : srv.WF) {id k : ℕ} {v : BlockVote G}
    (h : srv.Records cfg id k v srv') :
    srv'.handedOver = srv.handedOver ++ newMerges srv srv' ∧ ∀ id' ∈ newMerges srv srv', id' = id := by
  have hg := h.heapGrows
  cases h with
  | absent | dangling =>
    exact ⟨handedOver_same hwf hg rfl rfl rfl, by simp [Server.newMerges]⟩
  | fewer p b hp _ =>
    have hnew : Server.newMerges srv (srv.modifyBlock p fun b => b.insertVote k v) = [] :=
      newMerges_same rfl
    refine ⟨handedOver_same hwf hg rfl rfl rfl, ?_⟩
    rw [hnew]
    intro id' h
    cases h
  | enough p b hp hb _ =>
    have hid := idAt_grows hg (hwf.pending id p hp)
    have hids := mergingIds_append hwf hg hid (by simp [Server.merging, modifyBlock])
    have hnew : Server.newMerges srv { srv.modifyBlock p fun b => b.insertVote k v with
        pbMergeQueue := srv.pbMergeQueue ++ [p]
        pendingBlks := srv.pendingBlks.erase id } = [id] := by
      simp only [Server.newMerges, appended_append, List.filterMap_cons, hid, List.filterMap_nil]
    refine ⟨?_, ?_⟩
    · rw [hnew, handedOver, hids, handedOver, List.append_assoc]
      rfl
    · rw [hnew]
      exact fun id' h => List.mem_singleton.mp h

theorem Acts.newMerges (hwf : srv.WF) {a : ServerAction} {out : Option (ℕ × Rpc G)}
    (h : srv.Acts cfg merge s a srv' out) :
    srv'.handedOver = srv.handedOver ++ newMerges srv srv' ∧ newMerges srv srv' = [] := by
  have hg := h.heapGrows
  have hsame : srv'.pbMergeQueue = srv.pbMergeQueue → srv'.merge = srv.merge →
      srv'.merged = srv.merged →
      srv'.handedOver = srv.handedOver ++ Server.newMerges srv srv' ∧ Server.newMerges srv srv' = [] :=
    fun h1 h2 h3 => ⟨handedOver_same hwf hg h1 h2 h3, newMerges_same h1⟩
  have hmerging : Server.newMerges srv srv' = [] → srv'.merging = srv.merging →
      srv'.merged = srv.merged →
      srv'.handedOver = srv.handedOver ++ Server.newMerges srv srv' ∧
        Server.newMerges srv srv' = [] := by
    intro h1 h2 h3
    refine ⟨?_, h1⟩
    rw [h1, List.append_nil, handedOver, handedOver, h3, mergingIds_eq hwf hg h2]
  cases h with
  | sendPop ch t items ids rest srv'' item ids' _ hq => cases hq <;> exact hsame rfl rfl rfl
  | mergePop p q hpc hq =>
    refine hmerging ?_ ((merging_idle hpc).trans hq).symm rfl
    simp only [Server.newMerges, hq, appended_tail, List.filterMap_nil]
  | mergeCommit p now b b' hpc hb hm =>
    have hid : srv.idAt p = some b.header.id := idAt_eq_some.mpr ⟨b, hb, rfl⟩
    have hold : srv.mergingIds = b.header.id :: srv.pbMergeQueue.filterMap srv.idAt :=
      mergingIds_popped hpc hid
    have hids : (srv.committedState p now b').mergingIds = srv.pbMergeQueue.filterMap srv.idAt := by
      rw [← filterMap_idAt_eq hwf.queue hg]
      rfl
    have hnew : Server.newMerges srv (srv.committedState p now b') = [] := newMerges_same rfl
    refine ⟨?_, hnew⟩
    obtain ⟨sig, rfl⟩ := Block.mergeVotes_eq hm
    rw [hnew, List.append_nil, handedOver, hids, handedOver, hold]
    simp [committedState]
  | mergePush p t peers hpc =>
    exact hmerging (newMerges_same rfl) (merging_push hpc).symm rfl
  | mergeDone p hpc =>
    exact hmerging (newMerges_same rfl) (merging_push hpc).symm rfl
  | reap id now =>
    rcases reap_eq cfg srv id now with h | ⟨-, h⟩
    · rw [h] at hsame ⊢; exact hsame rfl rfl rfl
    · rw [h] at hsame ⊢; exact hsame rfl rfl rfl
  | _ => exact hsame rfl rfl rfl


theorem Handles.newMerges (hwf : srv.WF) {now : ℕ} {rpc rpc' : Rpc G}
    (h : srv.Handles cfg s now rpc srv' rpc') :
    srv'.handedOver = srv.handedOver ++ newMerges srv srv' ∧
      ∀ id ∈ newMerges srv srv', rpc.recordsFor = some id := by
  have hg := h.heapGrows
  have hs := h.sameThreads
  have hsame : srv'.pbMergeQueue = srv.pbMergeQueue →
      srv'.handedOver = srv.handedOver ++ Server.newMerges srv srv' ∧
        ∀ id ∈ Server.newMerges srv srv', rpc.recordsFor = some id := by
    intro h1
    refine ⟨handedOver_same hwf hg h1 hs.merge hs.merged, ?_⟩
    rw [newMerges_same h1]
    intro id h
    cases h
  cases h with
  | relayVote item rest vote hd =>
    by_cases hdead : vote.blockId ∈ srv.deadBlock
    · rw [relayVoteItem, if_pos hdead] at hsame ⊢
      exact hsame rfl
    · rw [relayVoteItem, if_neg hdead]
      obtain ⟨h1, h2⟩ := (records_recordVote cfg srv vote.blockId vote.voterId vote).newMerges hwf
      exact ⟨h1, fun id hid => by rw [h2 id hid, Rpc.recordsFor, hd]; rfl⟩
  | record id votedBlocks blockId vote =>
    obtain ⟨h1, h2⟩ := (records_recordVote cfg srv blockId id vote).newMerges hwf
    exact ⟨h1, fun id' hid => by rw [h2 id' hid]; rfl⟩
  | spBcastCommit item rest block _ =>
    rcases spBcastCommitItem_eq cfg srv now block with ⟨-, h⟩ | ⟨-, db, h⟩
    · rw [h] at hsame ⊢; exact hsame rfl
    · rw [h] at hsame ⊢; exact hsame rfl
  | pullItem id blockId p todo pbHdrs b _ hdrs hb hi =>
    rcases pullItem_eq hi with ⟨rfl, -⟩ | ⟨-, -, clients, rfl⟩ <;> exact hsame rfl
  | voteBlocks id item rest block _ current _ hi =>
    obtain ⟨queues, rfl⟩ := voteBlocksItem_eq hi
    exact hsame rfl
  | _ => exact hsame rfl

/-- Everything that a move hands to the merging thread is one block, pushed to `pb_merge_queue`. -/
theorem Moves.handedOver (hwf : srv.WF) (h : srv.Moves cfg merge s srv') :
    srv'.handedOver = srv.handedOver ++ newMerges srv srv' := by
  cases h with
  | act a out h => exact (h.newMerges hwf).1
  | handle now rpc rpc' h => exact (h.newMerges hwf).1
  | resume ch h =>
    rcases resumeSend_eq h with ⟨_, _, _, -, rfl⟩ | ⟨_, _, _, -, rfl⟩ <;>
      exact handedOver_same hwf (.refl _) rfl rfl rfl

theorem Moves.merged_sublist (hP : srv.merged.Sublist srv.commits)
    (h : srv.Moves cfg merge s srv') : srv'.merged.Sublist srv'.commits := by
  cases h with
  | act a out h =>
    cases h with
    | sendPop ch t items ids rest srv'' item ids' _ hq => cases hq <;> exact hP
    | mergeCommit => exact hP.append (List.Sublist.refl _)
    | reap id now => rcases reap_eq cfg srv id now with h | ⟨-, h⟩ <;> rw [h] <;> exact hP
    | _ => exact hP
  | handle now rpc rpc' h =>
    rw [h.sameThreads.merged]
    exact hP.trans h.later.commits.sublist
  | resume ch h =>
    rcases resumeSend_eq h with ⟨_, _, _, -, rfl⟩ | ⟨_, _, _, -, rfl⟩ <;> exact hP

/-! ## Broadcasts -/

def pushing (srv : Server G) (t id : ℕ) : ℕ :=
  match srv.merge with
  | .push p peers => if srv.idAt p = some id then peers.count t else 0
  | _ => 0

theorem newCommits_same {t : ℕ} (h : srv'.bcastCommitBlocks = srv.bcastCommitBlocks) :
    newCommits t srv srv' = [] := by
  rw [newCommits, h, appended_self]
  rfl

theorem pushing_eq (hwf : srv.WF) (hg : HeapGrows srv.heap srv'.heap) (h : srv'.merge = srv.merge)
    (t id : ℕ) : srv'.pushing t id = srv.pushing t id := by
  unfold pushing
  rw [h]
  split
  · rename_i p peers hpc
    obtain ⟨id', hid⟩ := hwf.merge p (.inr ⟨peers, hpc⟩)
    rw [hid, idAt_grows hg hid]
  · rfl

theorem newCommits_pop {t t' p : ℕ} {q : List ℕ} (hqueue : srv.bcastCommitBlocks[t']? = some (p :: q))
    (h : srv'.bcastCommitBlocks = srv.bcastCommitBlocks.insert t' q) :
    newCommits t srv srv' = [] := by
  rw [newCommits, h, ExtTreeMap.getElem?_insert]
  by_cases he : t' = t
  · subst he
    simp [hqueue]
  · simp [he]

theorem newCommits_push {t t' p id : ℕ} (hmem : t' ∈ srv.bcastCommitBlocks)
    (hid : srv'.idAt p = some id)
    (h : srv'.bcastCommitBlocks = srv.bcastCommitBlocks.modify t' (· ++ [p])) :
    newCommits t srv srv' = if t' = t then [id] else [] := by
  obtain ⟨q, hqueue⟩ := Option.isSome_iff_exists.mp (ExtTreeMap.mem_iff_isSome_getElem?.mp hmem)
  rw [newCommits, h, ExtTreeMap.getElem?_modify]
  by_cases he : t' = t
  · subst he
    simp [hqueue, hid]
  · simp [he]

theorem pushing_committedState_le {p now : ℕ} {b b' : Block G} (hb : srv.heap[p]? = some b)
    (t id : ℕ) : (srv.committedState p now b').pushing t id ≤ [b'.header.id].count id := by
  have hid : (srv.committedState p now b').idAt p = some b'.header.id :=
    idAt_eq_some.mpr ⟨b'.stampCommit now, by simp [committedState, modifyBlock, hb], rfl⟩
  have hpush : (srv.committedState p now b').pushing t id =
      if (srv.committedState p now b').idAt p = some id then srv.bcastCommitBlocks.keys.count t
      else 0 := rfl
  rw [hpush, hid, List.count_singleton]
  split
  · rename_i he
    rw [if_pos (by simpa using he)]
    exact List.nodup_iff_count_le_one.mp ExtTreeMap.nodup_keys t
  · exact Nat.zero_le _

/-- Every push for a broadcast is one that the merging thread had to make. -/
theorem Acts.newCommits (hwf : srv.WF) (hq : srv.QueuesOk cfg s) {a : ServerAction}
    {out : Option (ℕ × Rpc G)} (h : srv.Acts cfg merge s a srv' out) (t id : ℕ) :
    (newCommits t srv srv').count id + srv'.pushing t id + srv.merged.count id ≤
      srv.pushing t id + srv'.merged.count id := by
  have hg := h.heapGrows
  have hnone : srv'.bcastCommitBlocks = srv.bcastCommitBlocks →
      srv'.pushing t id + srv.merged.count id ≤ srv.pushing t id + srv'.merged.count id →
      (Server.newCommits t srv srv').count id + srv'.pushing t id + srv.merged.count id ≤
        srv.pushing t id + srv'.merged.count id := by
    intro h1 h2
    rw [newCommits_same h1, List.count_nil]
    omega
  have hsame : srv'.bcastCommitBlocks = srv.bcastCommitBlocks → srv'.merge = srv.merge →
      srv'.merged = srv.merged →
      (Server.newCommits t srv srv').count id + srv'.pushing t id + srv.merged.count id ≤
        srv.pushing t id + srv'.merged.count id := by
    intro h1 h2 h3
    refine hnone h1 ?_
    rw [pushing_eq hwf hg h2, h3]
  cases h with
  | sendPop ch t' items ids rest srv'' item ids' _ hpop =>
    cases hpop with
    | vote | block => exact hsame rfl rfl rfl
    | commit p q b hqueue hb =>
      rw [newCommits_pop hqueue rfl, List.count_nil, pushing_eq hwf hg rfl]
      exact Nat.le_of_eq (by rw [Nat.zero_add]; rfl)
  | mergePop p q hpc =>
    have h1 : srv.pushing t id = 0 := by simp [pushing, hpc]
    have h2 : ({ srv with pbMergeQueue := q, merge := .popped p } : Server G).pushing t id = 0 := rfl
    refine hnone rfl ?_
    rw [h1, h2]
  | mergeCommit p now b b' hpc hb hm =>
    have h1 : srv.pushing t id = 0 := by simp [pushing, hpc]
    have h2 : (srv.committedState p now b').pushing t id ≤ [b'.header.id].count id :=
      pushing_committedState_le hb t id
    have h3 : (srv.committedState p now b').merged = srv.merged ++ [b'.header.id] := rfl
    refine hnone rfl ?_
    rw [h1, h3, List.count_append]
    omega
  | mergePush p t' peers hpc =>
    obtain ⟨id', hid⟩ := hwf.merge p (.inr ⟨_, hpc⟩)
    have ht' : t' ∈ srv.bcastCommitBlocks :=
      (hq.commits t').mpr (hq.merge p _ hpc t' (List.mem_cons_self ..))
    have hnew : Server.newCommits t srv { srv with
        bcastCommitBlocks := srv.bcastCommitBlocks.modify t' (· ++ [p])
        merge := .push p peers } = if t' = t then [id'] else [] :=
      newCommits_push ht' hid rfl
    have h1 : srv.pushing t id = if id' = id then (t' :: peers).count t else 0 := by
      simp [pushing, hpc, hid]
    have h2 : ({ srv with
        bcastCommitBlocks := srv.bcastCommitBlocks.modify t' (· ++ [p])
        merge := .push p peers } : Server G).pushing t id = if id' = id then peers.count t else 0 := by
      show (if srv.idAt p = some id then peers.count t else 0) = _
      simp only [hid, Option.some.injEq]
    rw [hnew, h1, h2, List.count_cons]
    by_cases hi : id' = id <;> by_cases he : t' = t <;> simp [hi, he]
    omega
  | mergeDone p hpc =>
    have h1 : srv.pushing t id = 0 := by simp [pushing, hpc]
    have h2 : ({ srv with merge := .idle } : Server G).pushing t id = 0 := rfl
    refine hnone rfl ?_
    rw [h1, h2]
  | reap id now =>
    rcases reap_eq cfg srv id now with h | ⟨-, h⟩
    · rw [h] at hsame ⊢; exact hsame rfl rfl rfl
    · rw [h] at hsame ⊢; exact hsame rfl rfl rfl
  | _ => exact hsame rfl rfl rfl

theorem Moves.newCommits (hwf : srv.WF) (hq : srv.QueuesOk cfg s) (h : srv.Moves cfg merge s srv')
    (t id : ℕ) : (newCommits t srv srv').count id + srv'.pushing t id + srv.merged.count id ≤
      srv.pushing t id + srv'.merged.count id := by
  cases h with
  | act a out h => exact h.newCommits hwf hq t id
  | handle now rpc rpc' h =>
    have hs := h.sameThreads
    rw [newCommits_same hs.bcastCommitBlocks, pushing_eq hwf h.heapGrows hs.merge, hs.merged,
      List.count_nil]
    omega
  | resume ch h =>
    have hsame : srv'.bcastCommitBlocks = srv.bcastCommitBlocks ∧ srv'.heap = srv.heap ∧
        srv'.merge = srv.merge ∧ srv'.merged = srv.merged := by
      rcases resumeSend_eq h with ⟨_, _, _, -, rfl⟩ | ⟨_, _, _, -, rfl⟩ <;>
        exact ⟨rfl, rfl, rfl, rfl⟩
    obtain ⟨h1, h2, h3, h4⟩ := hsame
    rw [newCommits_same h1, pushing_eq hwf (by rw [h2]; exact .refl _) h3, h4, List.count_nil]
    omega

/-! ## Votes on their way to target servers -/

/-- A vote enters a queue in `VoteBlocks` only, and only the queue of a target server. -/
theorem queued_of_pushVotes {vote : BlockVote G} {targets : List ℕ} {t : ℕ} {k : ℕ × ℕ}
    (h : srv.pushVotes vote targets = some srv') (hk : k ∈ srv'.queued .vote t) :
    k ∈ srv.queued .vote t ∨ t ∈ targets ∧ k = (vote.blockId, vote.voterId) := by
  induction targets generalizing srv with
  | nil => cases h; exact .inl hk
  | cons t' targets ih =>
    simp only [pushVotes] at h
    split at h
    · cases h
    · rename_i q hq
      rcases ih h with hold | ⟨ht, rfl⟩
      · by_cases he : t' = t
        · subst he
          simp only [queued, hq, Option.getD_some, ExtTreeMap.getElem?_insert_self, List.map_append,
            List.mem_append, List.map_cons, List.map_nil, List.mem_singleton] at hold ⊢
          exact hold.imp_right fun hk => ⟨List.mem_cons_self .., hk⟩
        · left
          simpa [queued, ExtTreeMap.getElem?_insert, he] using hold
      · exact .inr ⟨List.mem_cons_of_mem _ ht, rfl⟩

theorem newMail_vote (srv : Server G) (a : ServerAction) (t : ℕ) : srv.newMail a .vote t = [] := by
  cases a <;> rfl

theorem Records.relayVotes {id k : ℕ} {v : BlockVote G} (h : srv.Records cfg id k v srv') :
    srv'.relayVotes = srv.relayVotes := by
  cases h <;> rfl

/-- A handler leaves the vote queues alone, except for an element of `VoteBlocks`. -/
theorem Handles.relayVotes {now : ℕ} {rpc rpc' : Rpc G} (h : srv.Handles cfg s now rpc srv' rpc') :
    srv'.relayVotes = srv.relayVotes ∨ ∃ id item rest block vote current,
      rpc = .voteBlocks id (item :: rest) none ∧ rpc' = .voteBlocks id rest current ∧
      fromBytes item = some block ∧ block.votes[id]? = some vote ∧
      srv.pushVotes vote ((block.getServerId cfg.serverCount).toList.filter (· ≠ s)) = some srv' := by
  cases h with
  | relayVote item rest vote _ =>
    unfold relayVoteItem
    split
    · exact .inl rfl
    · exact .inl (records_recordVote ..).relayVotes
  | record => exact .inl (records_recordVote ..).relayVotes
  | spBcastCommit item rest block _ =>
    rcases spBcastCommitItem_eq cfg srv now block with ⟨-, h⟩ | ⟨-, db, h⟩ <;> rw [h] <;>
      exact .inl rfl
  | pullItem id blockId p todo pbHdrs b _ hdrs hb hi =>
    rcases pullItem_eq hi with ⟨rfl, -⟩ | ⟨-, -, clients, rfl⟩ <;> exact .inl rfl
  | voteBlocks id item rest block _ current hd hi =>
    rcases voteBlocksItem_cases hi with ⟨rfl, -⟩ | ⟨vote, hv, -, hpush, -⟩
    · exact .inl rfl
    · exact .inr ⟨id, item, rest, block, vote, current, rfl, rfl, hd, hv, hpush⟩
  | _ => exact .inl rfl

end Server

/-- Votes wait, travel and are recorded only where their block has a target server. -/
structure OnTarget (cfg : Config) (σ : State G) : Prop where
  backlog : ∀ s t, ∀ k ∈ (σ.server s).backlog .vote t, IsTarget cfg k.1 t
  mail : ∀ t, ∀ k ∈ mail σ .vote t, IsTarget cfg k.1 t
  current : ∀ call ∈ σ.calls, ∀ id items blockId vote,
    call.rpc = .voteBlocks id items (some (blockId, vote)) → IsTarget cfg blockId call.target

theorem OnTarget.recordsFor (h : OnTarget cfg σ) {call : Call G} (hm : call ∈ σ.calls) {id : ℕ}
    (hid : call.rpc.recordsFor = some id) : IsTarget cfg id call.target := by
  unfold Rpc.recordsFor at hid
  split at hid
  · rename_i item rest hrpc
    obtain ⟨vote, hd, rfl⟩ := Option.map_eq_some_iff.mp hid
    refine h.mail call.target (vote.blockId, vote.voterId) (mem_mail.mpr ⟨call, hm, rfl, ?_⟩)
    rw [hrpc, ← wireKey_of_voteFromBytes hd]
    exact List.mem_cons_self ..
  · rename_i hrpc
    cases hid
    exact h.current call hm _ _ _ _ hrpc
  · cases hid

theorem onTarget_init (cfg : Config) : OnTarget cfg (State.init cfg : State G) where
  backlog s t k hk := by
    have : (Server.init cfg s : Server G).backlog .vote t = [] := by
      have hq : ((Server.init cfg s : Server G).relayVotes[t]?).getD [] = [] := by
        cases hg : (Server.init cfg s : Server G).relayVotes[t]? with
        | none => rfl
        | some q => exact initQueues_eq_nil hg
      simp only [Server.backlog, queued, hq]
      rfl
    rw [show (State.init cfg : State G).server s = Server.init cfg s from rfl, this] at hk
    cases hk
  mail t k hk := by cases hk
  current call hm := by cases hm

/-- The votes that an honest `VoteBlocks` element sends on name the block they are sent for. -/
theorem OnTarget.handle (hr : Reachable cfg crypto honest σ) (h : OnTarget cfg σ) {call : Call G}
    (hm : call ∈ σ.calls) {now : ℕ} {srv' : Server G} {rpc' : Rpc G}
    (hh : (σ.server call.target).Handles cfg call.target now call.rpc srv' rpc') :
    (∀ t, ∀ k ∈ srv'.backlog .vote t, IsTarget cfg k.1 t) ∧
      (∀ k ∈ rpc'.carried .vote, k ∈ call.rpc.carried .vote) ∧
      ∀ id items blockId vote, rpc' = .voteBlocks id items (some (blockId, vote)) →
        IsTarget cfg blockId call.target := by
  refine ⟨fun t k hk => ?_, ?_, ?_⟩
  · rw [Server.backlog, hh.sameThreads.send] at hk
    rcases List.mem_append.mp hk with hk | hk
    · exact h.backlog _ t k (List.mem_append_left _ hk)
    · rcases hh.relayVotes with he | ⟨id, item, rest, block, vote, current, hrpc, -, hd, hv, hpush⟩
      · have hq : srv'.queued .vote t = (σ.server call.target).queued .vote t := by
          simp only [queued, he]
        rw [hq] at hk
        exact h.backlog call.target t k (List.mem_append_right _ hk)
      · rcases queued_of_pushVotes hpush hk with hk | ⟨ht, rfl⟩
        · exact h.backlog _ t k (List.mem_append_right _ hk)
        · have hF := (honestFlow_clean (fun _ _ h => h) hr).calls call hm
          rw [hrpc] at hF
          obtain ⟨b, hid, rfl⟩ := (honest_item (hF.1 _ (List.mem_cons_self ..)) hd).2 vote hv
          show IsTarget cfg b.header.id t
          rw [hid, isTarget_iff]
          exact ExtTreeSet.mem_toList.mp (List.mem_filter.mp ht).1
  · generalize call.rpc = rpc at hh
    cases hh with
    | relayVote item rest vote _ => exact fun k hk => List.mem_cons_of_mem _ hk
    | _ => exact fun k hk => by cases hk
  · intro id items blockId vote he
    generalize call.rpc = rpc at hh
    cases hh with
    | voteBlocks id' item rest block _ current hd hi =>
      cases he
      obtain ⟨rfl, hs⟩ := voteBlocksItem_current hi
      exact (isTarget_iff block _).mpr hs
    | _ => cases he

theorem OnTarget.resumes {σ₁ : State G} {response : Option (Rpc G)} {θ : Thread}
    (hwf : ∀ s, (σ.server s).WF) (h : OnTarget cfg σ) (hserver : σ₁.server = σ.server)
    (hcalls : ∀ call ∈ σ₁.calls, ∃ call₀ ∈ σ.calls, call₀.target = call.target ∧
      call₀.rpc = call.rpc) (hres : Resumes σ₁ response θ σ') : OnTarget cfg σ' := by
  have hcalls' : ∀ call ∈ σ'.calls, ∃ call₀ ∈ σ.calls, call₀.target = call.target ∧
      call₀.rpc = call.rpc := by
    cases hres <;> exact hcalls
  refine ⟨fun s t k hk => ?_, fun t k hk => ?_, fun call hm id items blockId vote hrpc => ?_⟩
  · refine h.backlog s t k ?_
    cases hres with
    | send s' ch srv' hr =>
      rw [State.setServer_server] at hk
      split at hk
      · rename_i hs
        subst hs
        rw [hserver] at hr
        rw [← backlog_resumeSend (hwf s) hr]
        exact hk
      · rw [hserver] at hk
        exact hk
    | pull | vote =>
      rw [State.setClient_server, hserver] at hk
      exact hk
  · obtain ⟨call, hm, rfl, hcarried⟩ := mem_mail.mp hk
    obtain ⟨call₀, hm₀, ht, hrpc⟩ := hcalls' call hm
    refine h.mail call.target k (mem_mail.mpr ⟨call₀, hm₀, ht, ?_⟩)
    rw [hrpc]
    exact hcarried
  · obtain ⟨call₀, hm₀, ht, hrpc₀⟩ := hcalls' call hm
    rw [← ht]
    exact h.current call₀ hm₀ _ _ _ _ (hrpc₀.trans hrpc)

theorem OnTarget.step (hr : Reachable cfg crypto honest σ) (h : OnTarget cfg σ)
    (hok : honest σ a = true) (hs : Steps cfg crypto σ a σ') : OnTarget cfg σ' := by
  cases hs with
  | server s sa srv' out h1 h2 hact =>
    have hback : ∀ t k, k ∈ outMail out .vote t ++ srv'.backlog .vote t → IsTarget cfg k.1 t := by
      intro t k hk
      rw [hact.backlog (hr.wf s) (hr.relayOk s).1, newMail_vote, List.append_nil] at hk
      exact h.backlog s t k hk
    refine ⟨fun s' t k hk => ?_, fun t k hk => ?_, fun call hm id items blockId vote hrpc => ?_⟩
    · rw [State.addCall_server, State.setServer_server] at hk
      split at hk
      · exact hback t k (List.mem_append_right _ hk)
      · exact h.backlog s' t k hk
    · rw [mail_addCall] at hk
      rcases List.mem_append.mp hk with hk | hk
      · exact h.mail t k hk
      · exact hback t k (List.mem_append_left _ hk)
    · rcases State.mem_addCall hm with hm | ⟨r, rfl, rfl⟩
      · exact h.current call hm _ _ _ _ hrpc
      · cases hact with
        | sendGo ch => cases ch <;> cases hrpc
        | syncSend => cases hrpc
  | client c ca cl' out h1 h2 hact =>
    refine ⟨fun s' t k hk => ?_, fun t k hk => ?_, fun call hm id items blockId vote hrpc => ?_⟩
    · rw [State.addCall_server, State.setClient_server] at hk
      exact h.backlog s' t k hk
    · rw [mail_addCall] at hk
      have hout : outMail out .vote t = [] := by cases hact <;> simp [outMail, Rpc.carried]
      rw [hout, List.append_nil] at hk
      exact h.mail t k hk
    · rcases State.mem_addCall hm with hm | ⟨r, rfl, rfl⟩
      · exact h.current call hm _ _ _ _ hrpc
      · cases hact <;> cases hrpc
  | handle i now order call srv' rpc' hi hh =>
    have hm := List.mem_of_getElem? hi
    obtain ⟨hback, hcarried, hcurrent⟩ := h.handle hr hm hh
    refine ⟨fun s' t k hk => ?_, fun t k hk => ?_, fun call' hm' id items blockId vote hrpc => ?_⟩
    · change k ∈ ((σ.setServer call.target srv').server s').backlog .vote t at hk
      rw [State.setServer_server] at hk
      split at hk
      · exact hback t k hk
      · exact h.backlog s' t k hk
    · obtain ⟨call', hm', rfl, hk'⟩ := mem_mail.mp hk
      rcases List.mem_or_eq_of_mem_set hm' with hm' | rfl
      · exact h.mail _ k (mem_mail.mpr ⟨call', hm', rfl, hk'⟩)
      · exact h.mail _ k (mem_mail.mpr ⟨call, hm, rfl, hcarried k hk'⟩)
    · rcases List.mem_or_eq_of_mem_set hm' with hm' | rfl
      · exact h.current call' hm' _ _ _ _ hrpc
      · exact hcurrent _ _ _ _ hrpc
  | retOrphan i call _ _ _ | failOrphan i call _ _ =>
    refine ⟨h.backlog, fun t k hk => ?_, fun call hm => h.current call (List.mem_of_mem_eraseIdx hm)⟩
    obtain ⟨call, hm, rfl, hk'⟩ := mem_mail.mp hk
    exact h.mail _ k (mem_mail.mpr ⟨call, List.mem_of_mem_eraseIdx hm, rfl, hk'⟩)
  | ret i call θ _ _ _ _ hres =>
    refine h.resumes hr.wf (by rfl) (fun call hm => ?_) hres
    exact ⟨call, List.mem_of_mem_eraseIdx hm, rfl, rfl⟩
  | fail i call θ _ hi _ hres =>
    refine h.resumes hr.wf (by rfl) (fun call' hm => ?_) hres
    rcases List.mem_or_eq_of_mem_set hm with hm | rfl
    · exact ⟨call', hm, rfl, rfl⟩
    · exact ⟨call, List.mem_of_getElem? hi, rfl, rfl⟩
  | foreign => cases hok

theorem Reachable.onTarget (h : Reachable cfg crypto honest σ) : OnTarget cfg σ :=
  h.invariant (fun σ => OnTarget cfg σ) (onTarget_init cfg) fun _ _ _ hr hok hP hs =>
    hP.step hr hok (steps_of_step hs)

/-! ## Over the whole run -/

/-- Only a target server hands a block to its merging thread. -/
theorem Steps.newMerges (hr : Reachable cfg crypto honest σ) (hs : Steps cfg crypto σ a σ') (s : ℕ) :
    ∀ id ∈ newMerges (σ.server s) (σ'.server s), IsTarget cfg id s := by
  intro id hid
  have hsame : σ'.server s = σ.server s → IsTarget cfg id s := by
    intro he
    rw [he, newMerges_same rfl] at hid
    cases hid
  have hresume : ∀ {σ₁ : State G} {response : Option (Rpc G)} {θ : Thread},
      σ₁.server = σ.server → Resumes σ₁ response θ σ' → IsTarget cfg id s := by
    intro σ₁ response θ hserver hres
    have hqueue : (σ'.server s).pbMergeQueue = (σ.server s).pbMergeQueue := by
      cases hres with
      | send s' ch srv' h =>
        rw [State.setServer_server]
        split
        · rename_i hs
          subst hs
          rw [hserver] at h
          rcases resumeSend_eq h with ⟨_, _, _, -, rfl⟩ | ⟨_, _, _, -, rfl⟩ <;> rfl
        · rw [hserver]
      | pull | vote => rw [State.setClient_server, hserver]
    rw [newMerges_same hqueue] at hid
    cases hid
  cases hs with
  | server s' sa srv' out _ _ hact =>
    by_cases hss : s = s'
    · subst hss
      rw [State.addCall_server, State.setServer_server, if_pos rfl,
        (hact.newMerges (hr.wf s)).2] at hid
      cases hid
    · exact hsame (by simp [hss])
  | client => exact hsame (by simp)
  | handle i now order call srv' rpc' hi hh =>
    by_cases hss : s = call.target
    · subst hss
      change id ∈ Server.newMerges _ ((σ.setServer call.target srv').server call.target) at hid
      rw [State.setServer_server, if_pos rfl] at hid
      exact hr.onTarget.recordsFor (List.mem_of_getElem? hi) ((hh.newMerges (hr.wf _)).2 id hid)
    · exact hsame (by simp [hss])
  | retOrphan | failOrphan => exact hsame rfl
  | ret i call θ _ _ _ _ hres | fail i call θ _ _ _ hres => exact hresume (by rfl) hres
  | foreign => exact hsame (by simp)

def mergePushes (s : ℕ) : List (State G) → List ℕ :=
  events fun σ σ' => newMerges (σ.server s) (σ'.server s)

def commitPushes (s t : ℕ) : List (State G) → List ℕ :=
  events fun σ σ' => newCommits t (σ.server s) (σ'.server s)

variable {l : List (State G)}

abbrev HonestTrace (cfg : Config) (crypto : Crypto G D) (l : List (State G)) : Prop :=
  Trace (step cfg crypto) (fun σ a => honest σ a = true) (State.init cfg) l

theorem mergePushes_eq (h : HonestTrace cfg crypto (σ :: l)) (s : ℕ) :
    mergePushes s (σ :: l) = (σ.server s).handedOver := by
  refine h.events_invariant (fun es σ => es = (σ.server s).handedOver) ?_ ?_
  · simp [State.init, Server.init, handedOver, mergingIds, Server.merging, poppedBy]
  · intro es σ a σ' hr _ hs he
    rw [he]
    rcases (steps_of_step hs).moves s with hsame | hm
    · rw [hsame, newMerges_same rfl, List.append_nil]
    · exact (hm.handedOver (Reachable.wf hr s)).symm

theorem mergePushes_target (h : HonestTrace cfg crypto (σ :: l)) (s : ℕ) :
    ∀ id ∈ mergePushes s (σ :: l), IsTarget cfg id s := by
  refine h.events_invariant (fun es _ => ∀ id ∈ es, IsTarget cfg id s) (fun id hid => by cases hid) ?_
  intro es σ a σ' hr _ hs he id hid
  rcases List.mem_append.mp hid with hid | hid
  · exact he id hid
  · exact (steps_of_step hs).newMerges hr s id hid

/-- What a server merged it committed, so it counts among what was stored. -/
theorem handedOver_count_le (hr : Reachable cfg crypto honest σ) {s : ℕ} (h1 : 1 ≤ s)
    (h2 : s ≤ cfg.serverCount) (id : ℕ) :
    (σ.server s).handedOver.count id ≤ packedCount cfg σ id := by
  have hmerged : (σ.server s).merged.Sublist (σ.server s).commits :=
    hr.server_invariant (fun _ srv => srv.merged.Sublist srv.commits)
      (fun _ => List.Sublist.refl _) (fun _ _ _ hP hm => hm.merged_sublist hP) s
  have hle := pipe_le hr h1 h2 id
  have hocc := ((hr.life s) id).1
  have hfin : (σ.server s).life.finished = (σ.server s).commits := rfl
  have hwork : (σ.server s).life.working = (σ.server s).mergingIds := rfl
  have hent : (σ.server s).life.entered = (σ.server s).stored := rfl
  have hsub := hmerged.count_le id
  unfold pipe at hle
  rw [Stations.occ, hfin, hwork, hent] at hocc
  rw [handedOver, List.count_append]
  omega

theorem commitPushes_le (h : HonestTrace cfg crypto (σ :: l)) (s t id : ℕ) :
    (commitPushes s t (σ :: l)).count id + (σ.server s).pushing t id ≤ (σ.server s).merged.count id := by
  refine h.events_invariant
    (fun es σ => es.count id + (σ.server s).pushing t id ≤ (σ.server s).merged.count id)
    (by simp [State.init, Server.init, pushing]) ?_
  intro es σ a σ' hr _ hs he
  rw [List.count_append]
  rcases (steps_of_step hs).moves s with hsame | hm
  · rw [hsame, newCommits_same rfl, List.count_nil]
    omega
  · have := hm.newCommits (Reachable.wf hr s) (Reachable.relayOk hr s).1 t id
    omega

/-- There is no broadcast queue for the server itself. -/
theorem commitPushes_eq_nil (h : HonestTrace cfg crypto (σ :: l)) {s t : ℕ}
    (ht : t ∉ peerIds cfg.serverCount s) : commitPushes s t (σ :: l) = [] := by
  have hnone : ∀ {σ : State G}, Reachable cfg crypto honest σ →
      (σ.server s).bcastCommitBlocks[t]? = none := by
    intro σ hr
    exact ExtTreeMap.getElem?_eq_none fun hm => ht (((hr.relayOk s).1.commits t).mp hm)
  refine h.events_invariant (fun es _ => es = []) rfl ?_
  intro es σ a σ' hr hok hs he
  rw [he, newCommits, hnone hr, hnone (hr.next a hok hs)]
  rfl

theorem commitPushes_count_le (h : HonestTrace cfg crypto (σ :: l)) {s : ℕ} (h1 : 1 ≤ s)
    (h2 : s ≤ cfg.serverCount) (t id : ℕ) :
    (commitPushes s t (σ :: l)).count id ≤ packedCount cfg σ id := by
  have hle := commitPushes_le h s t id
  have hhanded := handedOver_count_le h.run h1 h2 id
  rw [handedOver, List.count_append] at hhanded
  omega

/-- A server that is not a target of a block broadcasts no commit of it. -/
theorem commitPushes_count_eq_zero (h : HonestTrace cfg crypto (σ :: l)) {s id : ℕ}
    (hs : ¬IsTarget cfg id s) (t : ℕ) : (commitPushes s t (σ :: l)).count id = 0 := by
  have hmerged : (σ.server s).merged.count id = 0 := by
    refine List.count_eq_zero.mpr fun hm => hs (mergePushes_target h s id ?_)
    rw [mergePushes_eq h]
    exact List.mem_append_left _ hm
  have hle := commitPushes_le h s t id
  omega

open Finset in
/-- All broadcasts of a block: from two servers at most, to their peers. -/
theorem commitPushes_sum_le (h : HonestTrace cfg crypto (σ :: l)) (id : ℕ) :
    ∑ s ∈ Icc 1 cfg.serverCount, ∑ t ∈ Icc 1 cfg.serverCount, (commitPushes s t (σ :: l)).count id ≤
      2 * (cfg.serverCount - 1) * packedCount cfg σ id := by
  classical
  let targets := (Icc 1 cfg.serverCount).filter (IsTarget cfg id)
  have hone : ∀ s ∈ targets, ∑ t ∈ Icc 1 cfg.serverCount, (commitPushes s t (σ :: l)).count id ≤
      (cfg.serverCount - 1) * packedCount cfg σ id := by
    intro s hs
    have hrange := mem_Icc.mp (mem_filter.mp hs).1
    have hself : (commitPushes s s (σ :: l)).count id = 0 := by
      rw [commitPushes_eq_nil h (fun hm => (mem_peerIds.mp hm).2.2 rfl)]
      rfl
    rw [← sum_erase_add _ _ (mem_Icc.mpr hrange), hself, Nat.add_zero]
    calc ∑ t ∈ (Icc 1 cfg.serverCount).erase s, (commitPushes s t (σ :: l)).count id
        ≤ ∑ _t ∈ (Icc 1 cfg.serverCount).erase s, packedCount cfg σ id :=
          sum_le_sum fun t _ => commitPushes_count_le h hrange.1 hrange.2 t id
      _ = (cfg.serverCount - 1) * packedCount cfg σ id := by
          rw [sum_const_nat fun _ _ => rfl, card_erase_of_mem (mem_Icc.mpr hrange), Nat.card_Icc,
            Nat.add_sub_cancel]
  have hcard : targets.card ≤ 2 := by
    refine le_trans (card_le_card (t := {id % cfg.serverCount + 1,
      if id % cfg.serverCount + 1 + 1 > cfg.serverCount then 1
        else id % cfg.serverCount + 1 + 1}) fun s hs => ?_) card_le_two
    have hcases := isTarget_cases (mem_filter.mp hs).2
    rw [mem_insert, mem_singleton]
    exact hcases
  calc ∑ s ∈ Icc 1 cfg.serverCount, ∑ t ∈ Icc 1 cfg.serverCount, (commitPushes s t (σ :: l)).count id
      = ∑ s ∈ targets, ∑ t ∈ Icc 1 cfg.serverCount, (commitPushes s t (σ :: l)).count id := by
        refine (sum_filter_of_ne fun s _ hne => ?_).symm
        by_contra hs
        exact hne (sum_eq_zero fun t _ => commitPushes_count_eq_zero h hs t)
    _ ≤ ∑ _s ∈ targets, (cfg.serverCount - 1) * packedCount cfg σ id := sum_le_sum hone
    _ = targets.card * ((cfg.serverCount - 1) * packedCount cfg σ id) := sum_const_nat fun _ _ => rfl
    _ ≤ 2 * (cfg.serverCount - 1) * packedCount cfg σ id := by
        rw [mul_assoc]
        exact Nat.mul_le_mul_right _ hcard

/-- Handling a relayed vote or a broadcast commit queues nothing for other servers. -/
theorem no_relay_again {i now : ℕ} {order : List (ℕ × ℕ)} {call : Call G}
    (hi : σ.calls[i]? = some call) (hs : step cfg crypto σ (.handle i now order) = some σ') (s : ℕ) :
    ((∃ votes, call.rpc = .relayVote votes) → (σ'.server s).relayVotes = (σ.server s).relayVotes) ∧
      (σ'.server s).bcastCommitBlocks = (σ.server s).bcastCommitBlocks := by
  cases steps_of_step hs with
  | handle _ _ _ call' srv' rpc' hi' hh =>
    rw [hi] at hi'
    cases hi'
    have hserver : ∀ {α : Type} (f : Server G → α), f srv' = f (σ.server call.target) →
        f ((σ.setServer call.target srv').server s) = f (σ.server s) := by
      intro α f hf
      rw [State.setServer_server]
      split
      · rename_i he
        rw [hf, he]
      · rfl
    refine ⟨?_, hserver _ hh.sameThreads.bcastCommitBlocks⟩
    rintro ⟨votes, hrpc⟩
    refine hserver (fun srv => srv.relayVotes) (hh.relayVotes.resolve_right ?_)
    rintro ⟨id, item, rest, block, vote, current, he, -⟩
    rw [hrpc] at he
    cases he

/-- Over a whole run, only the target servers of a block get its votes and merge it, each once;
it is broadcast by these only, once to each peer. Block ids repeat after `2 ^ 64` blocks, so an id
stands for `packedCount` blocks. -/
theorem aggregation_bounded (cfg : Config) (crypto : Crypto G D) (σ : State G) (l : List (State G))
    (h : HonestTrace cfg crypto (σ :: l)) (id : ℕ) :
    (∀ call ∈ σ.calls, ∀ votes item vote, call.rpc = .relayVote votes → item ∈ votes →
      voteFromBytes item = some vote → IsTarget cfg vote.blockId call.target) ∧
    (∀ s, id ∈ mergePushes s (σ :: l) → IsTarget cfg id s) ∧
    (∀ i now order σ' call s, σ.calls[i]? = some call →
      step cfg crypto σ (.handle i now order) = some σ' →
      ((∃ votes, call.rpc = .relayVote votes) → (σ'.server s).relayVotes = (σ.server s).relayVotes) ∧
      (σ'.server s).bcastCommitBlocks = (σ.server s).bcastCommitBlocks) ∧
    (∀ s, 1 ≤ s → s ≤ cfg.serverCount →
      (mergePushes s (σ :: l)).count id ≤ packedCount cfg σ id ∧
      ∀ t, (commitPushes s t (σ :: l)).count id ≤ packedCount cfg σ id) ∧
    (∑ s ∈ Finset.Icc 1 cfg.serverCount, ∑ t ∈ Finset.Icc 1 cfg.serverCount,
      (commitPushes s t (σ :: l)).count id ≤ 2 * (cfg.serverCount - 1) * packedCount cfg σ id) ∧
    ((σ.server cfg.serverCount).packed.length ≤ 2 ^ 64 → packedCount cfg σ id ≤ 1) := by
  refine ⟨?_, fun s hid => mergePushes_target h s id hid,
    fun i now order σ' call s hi hs => no_relay_again hi hs s, fun s h1 h2 => ⟨?_, fun t => ?_⟩,
    commitPushes_sum_le h id, fun hlt => ?_⟩
  · intro call hm votes item vote hrpc hitem hd
    refine Reachable.onTarget h.run |>.mail call.target (vote.blockId, vote.voterId)
      (mem_mail.mpr ⟨call, hm, rfl, ?_⟩)
    rw [hrpc, ← wireKey_of_voteFromBytes hd]
    exact List.mem_map_of_mem hitem
  · rw [mergePushes_eq h]
    exact handedOver_count_le h.run h1 h2 id
  · exact commitPushes_count_le h h1 h2 t id
  · exact List.nodup_iff_count_le_one.mp ((Reachable.packOk h.run _).nodup hlt) id

/-- In the round, server 1 merges the block, as one of its targets, and broadcasts it to its only
peer at most. -/
theorem aggregation_bounded_round :
    ∃ (σ : State Point) (l : List (State Point)), HonestTrace sampleConfig Crypto.symbolic (σ :: l) ∧
      2000000 ∈ mergePushes 1 (σ :: l) ∧ IsTarget sampleConfig 2000000 1 ∧
      ∑ s ∈ Finset.Icc 1 2, ∑ t ∈ Finset.Icc 1 2, (commitPushes s t (σ :: l)).count 2000000 ≤ 2 := by
  obtain ⟨σ, hr, hσ⟩ := exists_reachable sampleConfig Crypto.symbolic honest Script.round
    (fun σ => (σ.server 1).merged.contains 2000000 && (σ.server 2).packed.length == 1)
    (by decide +kernel)
  rw [Bool.and_eq_true, beq_iff_eq, List.contains_iff_mem] at hσ
  obtain ⟨l, hl⟩ := Run.exists_trace hr
  obtain ⟨-, htarget, -, -, hsum, hone⟩ := aggregation_bounded _ _ σ l hl 2000000
  have hmem : 2000000 ∈ mergePushes 1 (σ :: l) := by
    rw [mergePushes_eq hl]
    exact List.mem_append_left _ hσ.1
  have hlen : (σ.server sampleConfig.serverCount).packed.length ≤ 2 ^ 64 := by
    rw [show sampleConfig.serverCount = 2 from rfl, hσ.2]
    decide
  refine ⟨σ, l, hl, hmem, htarget 1 hmem, le_trans hsum ?_⟩
  exact Nat.mul_le_mul_left 2 (hone hlen)

end TomChain
