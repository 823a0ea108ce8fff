import Mathlib.Data.List.Perm.Basic
import TomChain.Server.Handlers
import TomChain.Server.Threads

/-!
# Blocks in memory

What a step of a server can do to the block objects it shares between its containers: it
allocates a block, records a vote, writes a time stamp or a signature. The identity of an
object, its transactions and its recorded votes stay (`Block.Grows`), so a pointer keeps naming
the same block (`Server.WF`).
-/

namespace TomChain

open Std (ExtTreeMap ExtTreeSet)
open Flexbuffers (Flex toBytes fromBytes)

variable {G : Type}

/-! ## How a block can change -/

namespace Block

theorem SameContent.refl (b : Block G) : b.SameContent b := ⟨rfl, rfl, rfl, rfl⟩

theorem SameContent.symm {b b' : Block G} (h : b.SameContent b') : b'.SameContent b :=
  ⟨h.1.symm, h.2.1.symm, h.2.2.1.symm, h.2.2.2.symm⟩

theorem SameContent.trans {b b' b'' : Block G} (h : b.SameContent b') (h' : b'.SameContent b'') :
    b.SameContent b'' :=
  ⟨h.1.trans h'.1, h.2.1.trans h'.2.1, h.2.2.1.trans h'.2.2.1, h.2.2.2.trans h'.2.2.2⟩

/-- The content stays and a recorded vote stays as it is. -/
def Grows (b b' : Block G) : Prop :=
  b.SameContent b' ∧ ∀ (k : ℕ) v, b.votes[k]? = some v → b'.votes[k]? = some v

theorem Grows.refl (b : Block G) : b.Grows b := ⟨.refl b, fun _ _ h => h⟩

theorem Grows.trans {b b' b'' : Block G} (h : b.Grows b') (h' : b'.Grows b'') : b.Grows b'' :=
  ⟨h.1.trans h'.1, fun k v hv => h'.2 k v (h.2 k v hv)⟩

theorem Grows.id_eq {b b' : Block G} (h : b.Grows b') : b'.header.id = b.header.id := h.1.1.symm

theorem Grows.mem {b b' : Block G} (h : b.Grows b') {k : ℕ} (hk : k ∈ b.votes) : k ∈ b'.votes := by
  obtain ⟨v, hv⟩ := Option.isSome_iff_exists.mp (ExtTreeMap.mem_iff_isSome_getElem?.mp hk)
  rw [ExtTreeMap.mem_iff_isSome_getElem?, h.2 k v hv]
  rfl

theorem grows_insertVote (b : Block G) (k : ℕ) (v : BlockVote G) : b.Grows (b.insertVote k v) := by
  refine ⟨.refl b, fun k' v' hv => ?_⟩
  rw [insertVote_votes]
  split
  · rename_i h
    obtain ⟨rfl, hk⟩ := h
    rw [ExtTreeMap.mem_iff_isSome_getElem?, hv] at hk
    exact absurd rfl hk
  · exact hv

theorem grows_stampDist (b : Block G) (now : ℕ) : b.Grows (b.stampDist now) := by
  unfold stampDist
  split
  · exact ⟨⟨rfl, rfl, rfl, rfl⟩, fun _ _ h => h⟩
  · exact .refl b

theorem grows_stampCommit (b : Block G) (now : ℕ) : b.Grows (b.stampCommit now) :=
  ⟨⟨rfl, rfl, rfl, rfl⟩, fun _ _ h => h⟩

theorem grows_stampRecv (b : Block G) (now : ℕ) : b.Grows (b.stampRecv now) :=
  ⟨⟨rfl, rfl, rfl, rfl⟩, fun _ _ h => h⟩

/-- `merge_votes` writes nothing but the signature. -/
theorem mergeVotes_eq {merge : List (BLSSigShare G) → BLSSignature G} {n : ℕ} {b b' : Block G}
    (h : b.mergeVotes merge n = .ok b') : ∃ sig, b' = { b with tssSig := sig } := by
  unfold mergeVotes at h
  split at h
  · cases h
  · split at h
    · cases h; exact ⟨_, rfl⟩
    · cases h; exact ⟨b.tssSig, rfl⟩

theorem grows_mergeVotes {merge : List (BLSSigShare G) → BLSSignature G} {n : ℕ} {b b' : Block G}
    (h : b.mergeVotes merge n = .ok b') : b.Grows b' := by
  obtain ⟨sig, rfl⟩ := mergeVotes_eq h
  exact ⟨⟨rfl, rfl, rfl, rfl⟩, fun _ _ h => h⟩

theorem Grows.size_le {b b' : Block G} (h : b.Grows b') : b.votes.size ≤ b'.votes.size := by
  have hsub : b.votes.keys ⊆ b'.votes.keys := by
    intro k hk
    exact ExtTreeMap.mem_keys.mpr (h.mem (ExtTreeMap.mem_keys.mp hk))
  have := (List.subperm_of_subset ExtTreeMap.nodup_keys hsub).length_le
  simpa using this

end Block

/-- A buffer that a peer decodes gives back the encoded block without its signature. -/
theorem Flexbuffers.fromBytes_toBytes_some {b b' : Block G} (h : fromBytes (toBytes b) = some b') :
    b' = { b with tssSig := none } ∧ ∀ k ∈ b.votes, k ≤ Decimal.intMax := by
  have hle : ∀ k ∈ b.votes, k ≤ Decimal.intMax := by
    intro k hk
    by_contra hbig
    rw [fromBytes_toBytes_none b hk (by omega)] at h
    cases h
  rw [fromBytes_toBytes b hle] at h
  cases h
  exact ⟨rfl, hle⟩

namespace Server

/-! ## How the heap can change -/

def HeapGrows (heap heap' : List (Block G)) : Prop :=
  ∀ (p : ℕ) b, heap[p]? = some b → ∃ b', heap'[p]? = some b' ∧ b.Grows b'

theorem HeapGrows.refl (heap : List (Block G)) : HeapGrows heap heap :=
  fun _ b h => ⟨b, h, .refl b⟩

theorem HeapGrows.append (heap heap' : List (Block G)) : HeapGrows heap (heap ++ heap') := by
  intro p b h
  have hp : p < heap.length := (List.getElem?_eq_some_iff.mp h).1
  exact ⟨b, by rw [List.getElem?_append_left hp, h], .refl b⟩

theorem HeapGrows.modify (heap : List (Block G)) (p : ℕ) (f : Block G → Block G)
    (hf : ∀ b, heap[p]? = some b → b.Grows (f b)) : HeapGrows heap (heap.modify p f) := by
  intro q b h
  rw [List.getElem?_modify]
  by_cases hq : p = q
  · subst hq
    exact ⟨f b, by simp [h], hf b h⟩
  · exact ⟨b, by simp [h, hq], .refl b⟩

theorem Records.heapGrows {cfg : Config} {srv srv' : Server G} {id k : ℕ} {v : BlockVote G}
    (h : srv.Records cfg id k v srv') : HeapGrows srv.heap srv'.heap := by
  cases h with
  | absent | dangling => exact .refl _
  | fewer | enough => exact .modify _ _ _ fun b _ => b.grows_insertVote k v

@[simp] theorem setSend_heap (srv : Server G) (ch : Chan) (pc : SendPc G) :
    (srv.setSend ch pc).heap = srv.heap := rfl

theorem pushVotes_eq {vote : BlockVote G} :
    ∀ {targets : List ℕ} {srv srv' : Server G}, srv.pushVotes vote targets = some srv' →
      ∃ queues, srv' = { srv with relayVotes := queues } := by
  intro targets
  induction targets with
  | nil => intro srv srv' h; cases h; exact ⟨srv.relayVotes, rfl⟩
  | cons t targets ih =>
    intro srv srv' h
    simp only [pushVotes] at h
    split at h
    · cases h
    · obtain ⟨queues, rfl⟩ := ih h
      exact ⟨queues, rfl⟩

theorem pushVotes_isSome {srv : Server G} {vote : BlockVote G} {targets : List ℕ} :
    (srv.pushVotes vote targets).isSome ↔ ∀ t ∈ targets, t ∈ srv.relayVotes := by
  induction targets generalizing srv with
  | nil => simp [pushVotes]
  | cons t targets ih =>
    simp only [pushVotes, List.forall_mem_cons]
    split
    · rename_i hq
      have hnot : t ∉ srv.relayVotes := by
        rw [ExtTreeMap.mem_iff_isSome_getElem?, hq]
        exact Bool.false_ne_true
      simp [hnot]
    · rename_i q hq
      have hmem : t ∈ srv.relayVotes := by
        rw [ExtTreeMap.mem_iff_isSome_getElem?, hq]
        rfl
      rw [ih]
      refine ⟨fun h => ⟨hmem, fun t' ht' => ?_⟩, fun h t' ht' => ?_⟩
      · rcases ExtTreeMap.mem_insert.mp (h t' ht') with he | hm
        · rw [← Nat.compare_eq_eq.mp he]; exact hmem
        · exact hm
      · exact ExtTreeMap.mem_insert.mpr (.inr (h.2 t' ht'))

theorem pushVotes_keys {vote : BlockVote G} {targets : List ℕ} {srv srv' : Server G}
    (h : srv.pushVotes vote targets = some srv') (t : ℕ) :
    t ∈ srv'.relayVotes ↔ t ∈ srv.relayVotes := by
  induction targets generalizing srv with
  | nil => cases h; rfl
  | cons t' targets ih =>
    simp only [pushVotes] at h
    split at h
    · cases h
    · rename_i q hq
      have hmem : t' ∈ srv.relayVotes := by
        rw [ExtTreeMap.mem_iff_isSome_getElem?, hq]
        rfl
      rw [ih h, ExtTreeMap.mem_insert, Nat.compare_eq_eq]
      constructor
      · rintro (rfl | h)
        · exact hmem
        · exact h
      · exact .inr

/-- The ways through the first half of a `VoteBlocks` element: there is nothing to do, or the vote
goes to every target server. -/
theorem voteBlocksItem_cases {cfg : Config} {s id : ℕ} {srv srv' : Server G} {block : Block G}
    {current : Option (ℕ × BlockVote G)}
    (h : srv.voteBlocksItem cfg s id block = some (srv', current)) :
    (srv' = srv ∧ (block.votes[id]? = none ∨ block.header.id ∈ srv.deadBlock)) ∨
      ∃ vote, block.votes[id]? = some vote ∧ block.header.id ∉ srv.deadBlock ∧
        srv.pushVotes vote ((block.getServerId cfg.serverCount).toList.filter (· ≠ s)) = some srv' ∧
        current = if s ∈ block.getServerId cfg.serverCount then some (block.header.id, vote) else none := by
  unfold voteBlocksItem at h
  split at h
  · rename_i hv; cases h; exact .inl ⟨rfl, .inl hv⟩
  · rename_i vote hv
    split at h
    · rename_i hd; cases h; exact .inl ⟨rfl, .inr hd⟩
    · rename_i hd
      dsimp only at h
      split at h
      · cases h
      · rename_i hp
        cases h
        exact .inr ⟨vote, hv, hd, hp, rfl⟩

/-- What is left to be recorded here is a vote for a block that this server is a target of. -/
theorem voteBlocksItem_current {cfg : Config} {s id : ℕ} {srv srv' : Server G} {block : Block G}
    {blockId : ℕ} {vote : BlockVote G}
    (h : srv.voteBlocksItem cfg s id block = some (srv', some (blockId, vote))) :
    blockId = block.header.id ∧ s ∈ block.getServerId cfg.serverCount := by
  unfold voteBlocksItem at h
  split at h
  · cases h
  · split at h
    · cases h
    · dsimp only at h
      split at h
      · cases h
      · rw [Option.some.injEq, Prod.mk.injEq] at h
        obtain ⟨-, hcurrent⟩ := h
        split at hcurrent
        · rename_i hs; cases hcurrent; exact ⟨rfl, hs⟩
        · cases hcurrent

/-- The first half of a `VoteBlocks` element touches nothing but the vote queues. -/
theorem voteBlocksItem_eq {cfg : Config} {s id : ℕ} {srv srv' : Server G} {block : Block G}
    {current : Option (ℕ × BlockVote G)}
    (h : srv.voteBlocksItem cfg s id block = some (srv', current)) :
    ∃ queues, srv' = { srv with relayVotes := queues } := by
  rcases voteBlocksItem_cases h with ⟨rfl, -⟩ | ⟨vote, -, -, hpush, -⟩
  · exact ⟨srv'.relayVotes, rfl⟩
  · exact pushVotes_eq hpush

theorem pullItem_eq {srv srv' : Server G} {c now id p : ℕ} {b : Block G} {hdrs : List (Flex G)}
    (h : srv.pullItem c now id p b = some (srv', hdrs)) :
    (srv' = srv ∧ hdrs = []) ∨
      id ∈ srv.pbSyncLabels ∧ hdrs = [Flexbuffers.headerToBytes b.header] ∧
        ∃ clients, srv' = { srv.modifyBlock p (·.stampDist now) with clients := clients } := by
  unfold pullItem at h
  split at h
  · rename_i hl
    split at h
    · cases h
    · split at h
      · cases h; exact .inl ⟨rfl, rfl⟩
      · cases h; exact .inr ⟨hl, rfl, _, rfl⟩
  · cases h; exact .inl ⟨rfl, rfl⟩

theorem resumeSend_eq {srv srv' : Server G} {ch : Chan} (h : srv.resumeSend ch = some srv') :
    (∃ t ids rest, srv.send ch = .wait t ids rest ∧
      srv' = { srv with
        pbSyncQueue := if ch = Chan.block then srv.pbSyncQueue ++ ids else srv.pbSyncQueue }.setSend ch
          (nextTarget ch rest)) ∨
    (∃ id t rest, srv.send ch = .syncWait id t rest ∧ srv' = srv.setSend ch (.syncSend id rest)) := by
  unfold resumeSend at h
  split at h
  · rename_i hs; cases h; exact .inl ⟨_, _, _, hs, rfl⟩
  · rename_i hs; cases h; exact .inr ⟨_, _, _, hs, rfl⟩
  · cases h

theorem reap_eq (cfg : Config) (srv : Server G) (id now : ℕ) :
    srv.reap cfg id now = srv ∨ id ∈ srv.pendingBlks ∧ srv.reap cfg id now = { srv with
      deadBlock := srv.deadBlock.insert id
      pendingBlks := srv.pendingBlks.erase id } := by
  unfold reap
  split
  · exact .inl rfl
  · rename_i hp
    split
    · exact .inl rfl
    · split
      · exact .inl rfl
      · split
        · refine .inr ⟨?_, rfl⟩
          rw [ExtTreeMap.mem_iff_isSome_getElem?, hp]
          rfl
        · exact .inl rfl

/-- One step that changes a server: of a thread, of a handler, or the return of a call. -/
inductive Moves (cfg : Config) (merge : List (BLSSigShare G) → BLSSignature G) (serverId : ℕ)
    (srv srv' : Server G) : Prop
  | act (a : ServerAction) (out : Option (ℕ × Rpc G)) : srv.Acts cfg merge serverId a srv' out →
      Moves cfg merge serverId srv srv'
  | handle (now : ℕ) (rpc rpc' : Rpc G) : srv.Handles cfg serverId now rpc srv' rpc' →
      Moves cfg merge serverId srv srv'
  | resume (ch : Chan) : srv.resumeSend ch = some srv' → Moves cfg merge serverId srv srv'

section

variable {cfg : Config} {merge : List (BLSSigShare G) → BLSSignature G} {s : ℕ} {srv srv' : Server G}

theorem Acts.heapGrows {a : ServerAction} {out : Option (ℕ × Rpc G)}
    (h : srv.Acts cfg merge s a srv' out) : HeapGrows srv.heap srv'.heap := by
  cases h with
  | packBegin => exact .append _ _
  | sendPop ch t items ids rest srv'' item ids' _ hq =>
    cases hq <;> exact .refl _
  | mergeCommit p now b b' _ hb hm =>
    refine .modify _ _ _ fun b₀ hb₀ => ?_
    rw [hb] at hb₀
    cases hb₀
    exact (Block.grows_mergeVotes hm).trans (b'.grows_stampCommit now)
  | reap id now =>
    rcases reap_eq cfg srv id now with h | ⟨-, h⟩
    · rw [h]; exact .refl _
    · rw [h]; exact .refl _
  | _ => exact .refl _

theorem Handles.heapGrows {now : ℕ} {rpc rpc' : Rpc G} (h : srv.Handles cfg s now rpc srv' rpc') :
    HeapGrows srv.heap srv'.heap := by
  cases h with
  | relayVote item rest vote _ =>
    unfold relayVoteItem
    split
    · exact .refl _
    · exact (records_recordVote ..).heapGrows
  | relayBlock => exact .append _ _
  | spBcastCommit item rest block _ =>
    rcases spBcastCommitItem_eq cfg srv now block with ⟨-, h⟩ | ⟨-, db, h⟩
    · rw [h]; exact .refl _
    · rw [h]; exact .append _ _
  | pullItem id blockId p todo pbHdrs b _ hdrs hb hi =>
    rcases pullItem_eq hi with ⟨rfl, -⟩ | ⟨-, -, clients, rfl⟩
    · exact .refl _
    · exact .modify _ _ _ fun b _ => b.grows_stampDist now
  | record => exact (records_recordVote ..).heapGrows
  | voteBlocks id item rest block _ current _ hi =>
    obtain ⟨queues, rfl⟩ := voteBlocksItem_eq hi
    exact .refl _
  | _ => exact .refl _

end

/-! ## What a handler leaves alone -/

/-- The data of the packing, relaying and merging threads. -/
structure SameThreads (srv srv' : Server G) : Prop where
  pack : srv'.pack = srv.pack
  send : srv'.send = srv.send
  merge : srv'.merge = srv.merge
  relayBlocks : srv'.relayBlocks = srv.relayBlocks
  bcastCommitBlocks : srv'.bcastCommitBlocks = srv.bcastCommitBlocks
  pbSyncQueue : srv'.pbSyncQueue = srv.pbSyncQueue
  blkSeqGenerator : srv'.blkSeqGenerator = srv.blkSeqGenerator
  packed : srv'.packed = srv.packed
  merged : srv'.merged = srv.merged

theorem SameThreads.refl (srv : Server G) : srv.SameThreads srv :=
  ⟨rfl, rfl, rfl, rfl, rfl, rfl, rfl, rfl, rfl⟩

theorem Records.sameThreads {cfg : Config} {id k : ℕ} {v : BlockVote G} {srv srv' : Server G}
    (h : srv.Records cfg id k v srv') : srv.SameThreads srv' := by
  cases h <;> exact { SameThreads.refl srv with }

theorem Handles.sameThreads {cfg : Config} {s now : ℕ} {srv srv' : Server G} {rpc rpc' : Rpc G}
    (h : srv.Handles cfg s now rpc srv' rpc') : srv.SameThreads srv' := by
  cases h with
  | relayVote item rest vote _ =>
    unfold relayVoteItem
    split
    · exact .refl _
    · exact (records_recordVote ..).sameThreads
  | spBcastCommit item rest block _ =>
    rcases spBcastCommitItem_eq cfg srv now block with ⟨-, h⟩ | ⟨-, db, h⟩
    · rw [h]; exact .refl _
    · rw [h]; exact { SameThreads.refl srv with }
  | pullItem id blockId p todo pbHdrs b _ hdrs hb hi =>
    rcases pullItem_eq hi with ⟨rfl, -⟩ | ⟨-, -, clients, rfl⟩
    · exact .refl _
    · exact { SameThreads.refl srv with }
  | record => exact (records_recordVote ..).sameThreads
  | voteBlocks id item rest block _ current _ hi =>
    obtain ⟨queues, rfl⟩ := voteBlocksItem_eq hi
    exact { SameThreads.refl srv with }
  | _ => exact { SameThreads.refl srv with }

/-! ## What only grows -/

/-- The parts of a server's state that are only ever extended. -/
structure Later (srv srv' : Server G) : Prop where
  heap : HeapGrows srv.heap srv'.heap
  packed : srv.packed <+: srv'.packed
  stored : srv.stored <+: srv'.stored
  commits : srv.commits <+: srv'.commits
  merged : srv.merged <+: srv'.merged

theorem HeapGrows.trans {h₁ h₂ h₃ : List (Block G)} (h : HeapGrows h₁ h₂) (h' : HeapGrows h₂ h₃) :
    HeapGrows h₁ h₃ := by
  intro p b hb
  obtain ⟨b', hb', hg⟩ := h p b hb
  obtain ⟨b'', hb'', hg'⟩ := h' p b' hb'
  exact ⟨b'', hb'', hg.trans hg'⟩

theorem Later.refl (srv : Server G) : srv.Later srv :=
  ⟨.refl _, List.prefix_rfl, List.prefix_rfl, List.prefix_rfl, List.prefix_rfl⟩

theorem Later.trans {srv srv' srv'' : Server G} (h : srv.Later srv') (h' : srv'.Later srv'') :
    srv.Later srv'' :=
  ⟨h.heap.trans h'.heap, h.packed.trans h'.packed, h.stored.trans h'.stored,
    h.commits.trans h'.commits, h.merged.trans h'.merged⟩

section

variable {cfg : Config} {merge : List (BLSSigShare G) → BLSSignature G} {s : ℕ} {srv srv' : Server G}

theorem Records.later {id k : ℕ} {v : BlockVote G} (h : srv.Records cfg id k v srv') :
    srv.Later srv' := by
  have hg := h.heapGrows
  cases h <;> exact { Later.refl srv with heap := hg }

theorem Acts.later {a : ServerAction} {out : Option (ℕ × Rpc G)}
    (h : srv.Acts cfg merge s a srv' out) : srv.Later srv' := by
  have hg := h.heapGrows
  cases h with
  | packBegin => exact { Later.refl srv with heap := hg, packed := List.prefix_append _ _ }
  | packInsert => exact { Later.refl srv with stored := List.prefix_append _ _ }
  | sendPop ch t items ids rest srv'' item ids' _ hq =>
    cases hq <;> exact { Later.refl srv with }
  | mergeCommit =>
    exact { Later.refl srv with
      heap := hg
      commits := List.prefix_append _ _
      merged := List.prefix_append _ _ }
  | reap id now =>
    rcases reap_eq cfg srv id now with h | ⟨-, h⟩
    · rw [h]; exact .refl _
    · rw [h]; exact { Later.refl srv with }
  | _ => exact { Later.refl srv with }

theorem Handles.later {now : ℕ} {rpc rpc' : Rpc G} (h : srv.Handles cfg s now rpc srv' rpc') :
    srv.Later srv' := by
  have hg := h.heapGrows
  cases h with
  | relayVote item rest vote _ =>
    unfold relayVoteItem
    split
    · exact .refl _
    · exact (records_recordVote ..).later
  | relayBlock => exact { Later.refl srv with heap := hg, stored := List.prefix_append _ _ }
  | spBcastCommit item rest block _ =>
    rcases spBcastCommitItem_eq cfg srv now block with ⟨-, h⟩ | ⟨-, db, h⟩
    · rw [h]; exact .refl _
    · rw [h] at hg ⊢
      exact { Later.refl srv with heap := hg, commits := List.prefix_append _ _ }
  | pullItem id blockId p todo pbHdrs b _ hdrs hb hi =>
    rcases pullItem_eq hi with ⟨rfl, -⟩ | ⟨-, -, clients, rfl⟩
    · exact .refl _
    · exact { Later.refl srv with heap := hg }
  | record => exact (records_recordVote ..).later
  | voteBlocks id item rest block _ current _ hi =>
    obtain ⟨queues, rfl⟩ := voteBlocksItem_eq hi
    exact { Later.refl srv with }
  | relayBlockSync => exact { Later.refl srv with }
  | _ => exact .refl _

theorem Moves.later (h : srv.Moves cfg merge s srv') : srv.Later srv' := by
  cases h with
  | act a out h => exact h.later
  | handle now rpc rpc' h => exact h.later
  | resume ch h =>
    rcases resumeSend_eq h with ⟨_, _, _, -, rfl⟩ | ⟨_, _, _, -, rfl⟩
    · exact { Later.refl srv with }
    · exact { Later.refl srv with }

theorem Acts.labels {a : ServerAction} {out : Option (ℕ × Rpc G)}
    (h : srv.Acts cfg merge s a srv' out) : ∀ id ∈ srv.pbSyncLabels, id ∈ srv'.pbSyncLabels := by
  intro id hid
  cases h with
  | sendPop ch t items ids rest srv'' item ids' _ hpop => cases hpop <;> exact hid
  | syncLabel blockId => exact ExtTreeSet.mem_insert.mpr (.inr hid)
  | reap id now =>
    rcases reap_eq cfg srv id now with h | ⟨-, h⟩ <;> rw [h] <;> exact hid
  | _ => exact hid

theorem Records.labels {id k : ℕ} {v : BlockVote G} (h : srv.Records cfg id k v srv') :
    srv'.pbSyncLabels = srv.pbSyncLabels := by
  cases h <;> rfl

theorem Handles.labels {now : ℕ} {rpc rpc' : Rpc G} (h : srv.Handles cfg s now rpc srv' rpc') :
    ∀ id ∈ srv.pbSyncLabels, id ∈ srv'.pbSyncLabels := by
  intro id hid
  cases h with
  | relayVote item rest vote _ =>
    unfold relayVoteItem
    split
    · exact hid
    · rw [(records_recordVote ..).labels]
      exact hid
  | spBcastCommit item rest block _ =>
    rcases spBcastCommitItem_eq cfg srv now block with ⟨-, h⟩ | ⟨-, db, h⟩ <;> rw [h] <;> exact hid
  | relayBlockSync blockId => exact ExtTreeSet.mem_insert.mpr (.inr hid)
  | pullItem _ _ _ _ _ _ _ _ _ hi =>
    rcases pullItem_eq hi with ⟨rfl, -⟩ | ⟨-, -, clients, rfl⟩ <;> exact hid
  | record =>
    rw [(records_recordVote ..).labels]
    exact hid
  | voteBlocks _ _ _ _ _ _ _ hi =>
    obtain ⟨queues, rfl⟩ := voteBlocksItem_eq hi
    exact hid
  | _ => exact hid

theorem Moves.labels (h : srv.Moves cfg merge s srv') :
    ∀ id ∈ srv.pbSyncLabels, id ∈ srv'.pbSyncLabels := by
  intro id hid
  cases h with
  | act a out h => exact h.labels id hid
  | handle now rpc rpc' h => exact h.labels id hid
  | resume ch h =>
    rcases resumeSend_eq h with ⟨_, _, _, -, rfl⟩ | ⟨_, _, _, -, rfl⟩ <;> exact hid

end

/-! ## Pointers keep naming the same block -/

def idAt (srv : Server G) (p : ℕ) : Option ℕ := (srv.heap[p]?).map fun b => b.header.id

theorem idAt_eq_some {srv : Server G} {p id : ℕ} :
    srv.idAt p = some id ↔ ∃ b, srv.heap[p]? = some b ∧ b.header.id = id := by
  simp [idAt]

theorem idAt_grows {srv srv' : Server G} (h : HeapGrows srv.heap srv'.heap) {p id : ℕ}
    (hp : srv.idAt p = some id) : srv'.idAt p = some id := by
  obtain ⟨b, hb, rfl⟩ := idAt_eq_some.mp hp
  obtain ⟨b', hb', hg⟩ := h p b hb
  exact idAt_eq_some.mpr ⟨b', hb', hg.id_eq⟩

/-- The containers of `srv` name blocks by their ids and hold no dangling pointer, when
`idAt` says which block is at an address. -/
structure WFOn (idAt : ℕ → Option ℕ) (srv : Server G) : Prop where
  pending : ∀ (id p : ℕ), srv.pendingBlks[id]? = some p → idAt p = some id
  committed : ∀ (id p : ℕ), srv.committedBlks[id]? = some p → idAt p = some id
  queue : ∀ p ∈ srv.pbMergeQueue, ∃ id, idAt p = some id
  merge : ∀ p, srv.merge.Holds p → ∃ id, idAt p = some id
  relay : ∀ (t : ℕ) q, srv.relayBlocks[t]? = some q → ∀ p ∈ q, ∃ id, idAt p = some id
  bcast : ∀ (t : ℕ) q, srv.bcastCommitBlocks[t]? = some q → ∀ p ∈ q, ∃ id, idAt p = some id
  pack : ∀ i p id peers ids, srv.pack = .push i p id peers ids → idAt p = some id

def WF (srv : Server G) : Prop := WFOn srv.idAt srv

theorem WFOn.mono {f g : ℕ → Option ℕ} {srv : Server G} (h : WFOn f srv)
    (hfg : ∀ p id, f p = some id → g p = some id) : WFOn g srv where
  pending id p hp := hfg _ _ (h.pending id p hp)
  committed id p hp := hfg _ _ (h.committed id p hp)
  queue p hp := (h.queue p hp).imp fun id => hfg p id
  merge p hp := (h.merge p hp).imp fun id => hfg p id
  relay t q hq p hp := (h.relay t q hq p hp).imp fun id => hfg p id
  bcast t q hq p hp := (h.bcast t q hq p hp).imp fun id => hfg p id
  pack i p id peers ids hp := hfg _ _ (h.pack i p id peers ids hp)

theorem idAt_alloc {srv srv' : Server G} {b : Block G} (h : srv'.heap = srv.heap ++ [b]) :
    srv'.idAt srv.heap.length = some b.header.id := by
  simp [idAt, h]

section

variable {α : Type} {m : ExtTreeMap ℕ (List α)} {P : α → Prop}

theorem forall_mem_modify (h : ∀ (t : ℕ) q, m[t]? = some q → ∀ a ∈ q, P a) (t : ℕ) {a : α}
    (ha : P a) : ∀ (t' : ℕ) q, (m.modify t (· ++ [a]))[t']? = some q → ∀ a ∈ q, P a := by
  intro t' q hq a' ha'
  rw [ExtTreeMap.getElem?_modify] at hq
  split at hq
  · obtain ⟨q', hq', rfl⟩ := Option.map_eq_some_iff.mp hq
    rcases List.mem_append.mp ha' with hm | hm
    · exact h _ _ hq' a' hm
    · rw [List.mem_singleton.mp hm]
      exact ha
  · exact h _ _ hq a' ha'

theorem forall_mem_insert (h : ∀ (t : ℕ) q, m[t]? = some q → ∀ a ∈ q, P a) (t : ℕ) {q : List α}
    (hq : ∀ a ∈ q, P a) : ∀ (t' : ℕ) q', (m.insert t q)[t']? = some q' → ∀ a ∈ q', P a := by
  intro t' q' hq' a ha
  rw [ExtTreeMap.getElem?_insert] at hq'
  split at hq'
  · cases hq'
    exact hq a ha
  · exact h _ _ hq' a ha

end

theorem wf_init (cfg : Config) (s : ℕ) : (Server.init cfg s : Server G).WF where
  pending id p h := by simp [Server.init] at h
  committed id p h := by simp [Server.init] at h
  queue p h := by simp [Server.init] at h
  merge p h := by simp [Server.init, MergePc.Holds] at h
  relay t q h p hp := by
    have : q = [] := initQueues_eq_nil h
    simp [this] at hp
  bcast t q h p hp := by
    have : q = [] := initQueues_eq_nil h
    simp [this] at hp
  pack i p id peers ids h := by simp [Server.init] at h

section

variable {cfg : Config} {merge : List (BLSSigShare G) → BLSSignature G} {s : ℕ} {srv srv' : Server G}

theorem forall_erase {m : ExtTreeMap ℕ ℕ} {P : ℕ → ℕ → Prop}
    (h : ∀ (id p : ℕ), m[id]? = some p → P id p) (id' : ℕ) :
    ∀ (id p : ℕ), (m.erase id')[id]? = some p → P id p := by
  intro id p hp
  rw [ExtTreeMap.getElem?_erase] at hp
  split at hp
  · cases hp
  · exact h id p hp

theorem forall_insert {m : ExtTreeMap ℕ ℕ} {P : ℕ → ℕ → Prop}
    (h : ∀ (id p : ℕ), m[id]? = some p → P id p) {id' p' : ℕ} (hP : P id' p') :
    ∀ (id p : ℕ), (m.insert id' p')[id]? = some p → P id p := by
  intro id p hp
  rw [ExtTreeMap.getElem?_insert] at hp
  split at hp
  · rename_i he
    cases hp
    rw [← Nat.compare_eq_eq.mp he]
    exact hP
  · exact h id p hp

theorem Records.wf {id k : ℕ} {v : BlockVote G} (hwf : srv.WF) (h : srv.Records cfg id k v srv') :
    srv'.WF := by
  have hw : WFOn srv'.idAt srv := hwf.mono fun p id => idAt_grows h.heapGrows
  cases h with
  | absent | dangling => exact hwf
  | fewer p b hp hb => exact { hw with }
  | enough p b hp hb _ =>
    refine { hw with pending := forall_erase hw.pending id, queue := fun p' hm => ?_ }
    rcases List.mem_append.mp hm with hm | hm
    · exact hw.queue p' hm
    · rw [List.mem_singleton.mp hm]
      exact ⟨id, hw.pending id p hp⟩

theorem Acts.wf {a : ServerAction} {out : Option (ℕ × Rpc G)} (hwf : srv.WF)
    (h : srv.Acts cfg merge s a srv' out) : srv'.WF := by
  have hw : WFOn srv'.idAt srv := hwf.mono fun p id => idAt_grows h.heapGrows
  cases h with
  | packCheck pc _ _ hpc =>
    refine { hw with pack := fun i p id peers ids hp => ?_ }
    rcases hpc with rfl | rfl <;> cases hp
  | packGenerate | packEnd => exact { hw with pack := fun i p id peers ids hp => by cases hp }
  | packBegin i now order _ =>
    refine { hw with pack := fun i p id peers ids hp => ?_ }
    cases hp
    exact idAt_alloc rfl
  | packPush i p id t peers ids hpc =>
    have hp := hw.pack _ _ _ _ _ hpc
    refine { hw with
      relay := forall_mem_modify hw.relay t ⟨id, hp⟩
      pack := fun i p id peers ids hp' => ?_ }
    cases hp'
    exact hp
  | packInsert i p id ids hpc =>
    exact { hw with
      pending := forall_insert hw.pending (hw.pack _ _ _ _ _ hpc)
      pack := fun i p id peers ids hp' => by cases hp' }
  | sendPop ch t items ids rest srv'' item ids' _ hq =>
    cases hq with
    | vote => exact { hw with }
    | block p q b hq _ =>
      exact { hw with
        relay := forall_mem_insert hw.relay t fun p' hp' =>
          hw.relay _ _ hq p' (List.mem_cons_of_mem _ hp') }
    | commit p q b hq _ =>
      exact { hw with
        bcast := forall_mem_insert hw.bcast t fun p' hp' =>
          hw.bcast _ _ hq p' (List.mem_cons_of_mem _ hp') }
  | mergePop p q hpc hq =>
    refine { hw with
      queue := fun p' hp' => hw.queue p' (by rw [hq]; exact List.mem_cons_of_mem _ hp')
      merge := fun p' hp' => ?_ }
    rcases hp' with h | ⟨_, h⟩ <;> cases h
    exact hw.queue p (by rw [hq]; exact List.mem_cons_self ..)
  | mergeCommit p now b b' hpc hb hm =>
    have hp := hw.merge p (.inl hpc)
    have hid : (srv.committedState p now b').idAt p = some b'.header.id :=
      idAt_eq_some.mpr ⟨b'.stampCommit now, by simp [committedState, modifyBlock, hb], rfl⟩
    refine { hw with
      committed := forall_insert hw.committed hid
      merge := fun p' hp' => ?_ }
    rcases hp' with h | ⟨_, h⟩ <;> cases h
    exact hp
  | mergePush p t peers hpc =>
    have hp := hw.merge p (.inr ⟨_, hpc⟩)
    refine { hw with
      bcast := forall_mem_modify hw.bcast t hp
      merge := fun p' hp' => ?_ }
    rcases hp' with h | ⟨_, h⟩ <;> cases h
    exact hp
  | mergeDone p _ =>
    refine { hw with merge := fun p' hp' => ?_ }
    rcases hp' with h | ⟨_, h⟩ <;> cases h
  | reap id now =>
    rcases reap_eq cfg srv id now with h | ⟨-, h⟩
    · rw [h]; exact hwf
    · rw [h] at hw ⊢
      exact { hw with pending := forall_erase hw.pending id }
  | _ => exact { hw with }

theorem Handles.wf {now : ℕ} {rpc rpc' : Rpc G} (hwf : srv.WF)
    (h : srv.Handles cfg s now rpc srv' rpc') : srv'.WF := by
  have hw : WFOn srv'.idAt srv := hwf.mono fun p id => idAt_grows h.heapGrows
  cases h with
  | relayVote item rest vote _ =>
    unfold relayVoteItem
    split
    · exact hwf
    · exact (records_recordVote ..).wf hwf
  | relayBlock item rest block _ =>
    exact { hw with pending := forall_insert hw.pending (idAt_alloc rfl) }
  | spBcastCommit item rest block _ =>
    rcases spBcastCommitItem_eq cfg srv now block with ⟨-, h⟩ | ⟨-, db, h⟩
    · rw [h]; exact hwf
    · rw [h] at hw ⊢
      exact { hw with
        pending := forall_erase hw.pending _
        committed := forall_insert hw.committed (idAt_alloc (b := block.stampRecv now) rfl) }
  | pullItem id blockId p todo pbHdrs b _ hdrs hb hi =>
    rcases pullItem_eq hi with ⟨rfl, -⟩ | ⟨-, -, clients, rfl⟩
    · exact hwf
    · exact { hw with }
  | record => exact (records_recordVote ..).wf hwf
  | voteBlocks id item rest block _ current _ hi =>
    obtain ⟨queues, rfl⟩ := voteBlocksItem_eq hi
    exact { hw with }
  | relayBlockSync => exact { hw with }
  | _ => exact hwf

theorem Moves.wf (hwf : srv.WF) (h : srv.Moves cfg merge s srv') : srv'.WF := by
  cases h with
  | act a out h => exact h.wf hwf
  | handle now rpc rpc' h => exact h.wf hwf
  | resume ch h =>
    rcases resumeSend_eq h with ⟨_, _, _, -, rfl⟩ | ⟨_, _, _, -, rfl⟩
    · exact { hwf with }
    · exact { hwf with }

end

/-! ## Pending blocks -/

def PendsAs (srv : Server G) (id : ℕ) (block : Block G) : Prop :=
  ∃ p : ℕ, srv.pendingBlks[id]? = some p ∧ srv.heap[p]? = some block

theorem PendsAs.unique {srv : Server G} {id : ℕ} {b b' : Block G} (h : srv.PendsAs id b) (h' : srv.PendsAs id b') :
    b = b' := by
  obtain ⟨p, hp, hb⟩ := h
  obtain ⟨p', hp', hb'⟩ := h'
  rw [hp] at hp'
  cases hp'
  rw [hb] at hb'
  exact Option.some.inj hb'

theorem PendsAs.mem {srv : Server G} {id : ℕ} {b : Block G} (h : srv.PendsAs id b) : id ∈ srv.pendingBlks := by
  obtain ⟨p, hp, -⟩ := h
  rw [ExtTreeMap.mem_iff_isSome_getElem?, hp]
  rfl

end Server

end TomChain
