import TomChain.Lib.Stations
import TomChain.Server.Heap

/-!
# The places of a block on a server

A server is an instance of `Stations`: block ids wait in `pending_blks`, are worked on in
`pb_merge_queue` and by the merging thread, are finished in `committed_blks` and dropped into
`dead_block`. Every move of a server is a step of the stations or leaves them as they are.
-/

namespace TomChain.Server

open Std (ExtTreeMap ExtTreeSet)

variable {G : Type} {cfg : Config} {merge : List (BLSSigShare G) → BLSSignature G} {s : ℕ}
  {srv srv' : Server G}

def poppedBy : MergePc → List ℕ
  | .popped p => [p]
  | _ => []

/-- The blocks on their way from the quorum to the commit, first in first. -/
def merging (srv : Server G) : List ℕ := poppedBy srv.merge ++ srv.pbMergeQueue

def mergingIds (srv : Server G) : List ℕ := srv.merging.filterMap srv.idAt

def life (srv : Server G) : Stations ℕ where
  waiting := {id | id ∈ srv.pendingBlks}
  working := srv.mergingIds
  finished := srv.commits
  dropped := {id | id ∈ srv.deadBlock}
  entered := srv.stored

theorem merging_idle (h : srv.merge = .idle) : srv.merging = srv.pbMergeQueue := by
  rw [merging, h]
  rfl

theorem merging_popped {p : ℕ} (h : srv.merge = .popped p) :
    srv.merging = p :: srv.pbMergeQueue := by
  rw [merging, h]
  rfl

theorem merging_push {p : ℕ} {peers : List ℕ} (h : srv.merge = .push p peers) :
    srv.merging = srv.pbMergeQueue := by
  rw [merging, h]
  rfl

theorem mergingIds_popped {p id : ℕ} (h : srv.merge = .popped p) (hid : srv.idAt p = some id) :
    srv.mergingIds = id :: srv.pbMergeQueue.filterMap srv.idAt := by
  rw [mergingIds, merging_popped h, List.filterMap_cons_some hid]

theorem setOf_mem_insert (m : ExtTreeMap ℕ ℕ) (id p : ℕ) :
    {x | x ∈ m.insert id p} = insert id {x | x ∈ m} := by
  ext x
  simp [ExtTreeMap.mem_insert, eq_comm (a := x)]

theorem setOf_mem_erase (m : ExtTreeMap ℕ ℕ) (id : ℕ) :
    {x | x ∈ m.erase id} = {x | x ∈ m} \ {id} := by
  ext x
  simp [ExtTreeMap.mem_erase, eq_comm (a := x), and_comm]

theorem setOf_mem_insert_set (m : ExtTreeSet ℕ) (id : ℕ) :
    {x | x ∈ m.insert id} = insert id {x | x ∈ m} := by
  ext x
  simp [ExtTreeSet.mem_insert, eq_comm (a := x)]

theorem WF.merging (hwf : srv.WF) : ∀ p ∈ srv.merging, ∃ id, srv.idAt p = some id := by
  intro p hp
  rcases List.mem_append.mp hp with hp | hp
  · refine hwf.merge p (.inl ?_)
    revert hp
    cases srv.merge <;> simp [poppedBy, eq_comm]
  · exact hwf.queue p hp

theorem filterMap_idAt_eq {l : List ℕ} (hl : ∀ p ∈ l, ∃ id, srv.idAt p = some id)
    (hg : HeapGrows srv.heap srv'.heap) : l.filterMap srv'.idAt = l.filterMap srv.idAt := by
  refine List.filterMap_congr fun p hp => ?_
  obtain ⟨id, hid⟩ := hl p hp
  rw [hid, idAt_grows hg hid]

theorem mergingIds_eq (hwf : srv.WF) (hg : HeapGrows srv.heap srv'.heap)
    (h : srv'.merging = srv.merging) : srv'.mergingIds = srv.mergingIds := by
  rw [mergingIds, h, filterMap_idAt_eq hwf.merging hg]
  rfl

theorem life_eq (hwf : srv.WF) (hg : HeapGrows srv.heap srv'.heap)
    (hpending : srv'.pendingBlks = srv.pendingBlks) (hmerging : srv'.merging = srv.merging)
    (hcommits : srv'.commits = srv.commits) (hdead : srv'.deadBlock = srv.deadBlock)
    (hstored : srv'.stored = srv.stored) : srv'.life = srv.life := by
  simp only [life, hpending, hcommits, hdead, hstored, mergingIds_eq hwf hg hmerging]

theorem step_enter (hwf : srv.WF) (hg : HeapGrows srv.heap srv'.heap) {id p : ℕ}
    (hpending : srv'.pendingBlks = srv.pendingBlks.insert id p)
    (hmerging : srv'.merging = srv.merging) (hcommits : srv'.commits = srv.commits)
    (hdead : srv'.deadBlock = srv.deadBlock) (hstored : srv'.stored = srv.stored ++ [id]) :
    srv.life.Step srv'.life := by
  have h : srv'.life = { srv.life with
      waiting := insert id srv.life.waiting, entered := srv.life.entered ++ [id] } := by
    simp only [life, hpending, hcommits, hdead, hstored, mergingIds_eq hwf hg hmerging,
      setOf_mem_insert]
  rw [h]
  exact .enter id

theorem mergingIds_append (hwf : srv.WF) (hg : HeapGrows srv.heap srv'.heap) {id p : ℕ}
    (hid : srv'.idAt p = some id) (h : srv'.merging = srv.merging ++ [p]) :
    srv'.mergingIds = srv.mergingIds ++ [id] := by
  rw [mergingIds, h, List.filterMap_append, filterMap_idAt_eq hwf.merging hg]
  simp [mergingIds, hid]

theorem Records.life (hwf : srv.WF) {id k : ℕ} {v : BlockVote G} (h : srv.Records cfg id k v srv') :
    srv'.life = srv.life ∨ srv.life.Step srv'.life := by
  have hg := h.heapGrows
  cases h with
  | absent | dangling => exact .inl rfl
  | fewer p b hp hb => exact .inl (life_eq hwf hg rfl rfl rfl rfl rfl)
  | enough p b hp hb _ =>
    have hmem : id ∈ srv.pendingBlks := by
      rw [ExtTreeMap.mem_iff_isSome_getElem?, hp]
      rfl
    have hids := mergingIds_append hwf hg (idAt_grows hg (hwf.pending id p hp))
      (by simp [merging, modifyBlock])
    right
    convert Stations.Step.take (S := srv.life) id hmem using 1
    simp only [Server.life, hids, setOf_mem_erase]
    rfl

theorem Acts.life {a : ServerAction} {out : Option (ℕ × Rpc G)} (hwf : srv.WF)
    (h : srv.Acts cfg merge s a srv' out) : srv'.life = srv.life ∨ srv.life.Step srv'.life := by
  have hg := h.heapGrows
  cases h with
  | packInsert i p id ids hpc => exact .inr (step_enter hwf hg rfl rfl rfl rfl rfl)
  | sendPop ch t items ids rest srv'' item ids' _ hq =>
    cases hq <;> exact .inl (life_eq hwf hg rfl rfl rfl rfl rfl)
  | mergePop p q hpc hq =>
    exact .inl (life_eq hwf hg rfl ((merging_idle hpc).trans hq).symm rfl rfl rfl)
  | mergeCommit p now b b' hpc hb hm =>
    have hworking : srv.life.working = b.header.id :: srv.pbMergeQueue.filterMap srv.idAt := by
      exact mergingIds_popped hpc (idAt_eq_some.mpr ⟨b, hb, rfl⟩)
    have hids : (srv.committedState p now b').mergingIds = srv.pbMergeQueue.filterMap srv.idAt := by
      rw [← filterMap_idAt_eq hwf.queue hg]
      rfl
    right
    convert Stations.Step.finish (S := srv.life) _ _ hworking using 1
    obtain ⟨sig, rfl⟩ := Block.mergeVotes_eq hm
    simp only [Server.life, hids]
    rfl
  | mergePush p t peers hpc =>
    exact .inl (life_eq hwf hg rfl (merging_push hpc).symm rfl rfl rfl)
  | mergeDone p hpc =>
    exact .inl (life_eq hwf hg rfl (merging_push hpc).symm rfl rfl rfl)
  | reap id now =>
    rcases reap_eq cfg srv id now with h | ⟨hmem, h⟩
    · rw [h]; exact .inl rfl
    · rw [h]
      right
      convert Stations.Step.drop (S := srv.life) id hmem using 1
      simp only [Server.life, setOf_mem_erase, setOf_mem_insert_set]
      rfl
  | _ => exact .inl (life_eq hwf hg rfl rfl rfl rfl rfl)

theorem Handles.life {now : ℕ} {rpc rpc' : Rpc G} (hwf : srv.WF)
    (h : srv.Handles cfg s now rpc srv' rpc') : srv'.life = srv.life ∨ srv.life.Step srv'.life := by
  have hg := h.heapGrows
  cases h with
  | relayVote item rest vote _ =>
    unfold relayVoteItem
    split
    · exact .inl rfl
    · exact (records_recordVote ..).life hwf
  | relayBlock item rest block _ => exact .inr (step_enter hwf hg rfl rfl rfl rfl rfl)
  | spBcastCommit item rest block _ =>
    rcases spBcastCommitItem_eq cfg srv now block with ⟨-, h⟩ | ⟨hmem, db, h⟩
    · rw [h]; exact .inl rfl
    · rw [h] at hg ⊢
      right
      have hids := mergingIds_eq hwf hg rfl
      convert Stations.Step.adopt (S := srv.life) _ hmem using 1
      simp only [Server.life, hids, setOf_mem_erase]
      rfl
  | pullItem id blockId p todo pbHdrs b _ hdrs hb hi =>
    rcases pullItem_eq hi with ⟨rfl, -⟩ | ⟨-, -, clients, rfl⟩
    · exact .inl rfl
    · exact .inl (life_eq hwf hg rfl rfl rfl rfl rfl)
  | record => exact (records_recordVote ..).life hwf
  | voteBlocks id item rest block _ current _ hi =>
    obtain ⟨queues, rfl⟩ := voteBlocksItem_eq hi
    exact .inl (life_eq hwf hg rfl rfl rfl rfl rfl)
  | _ => exact .inl (life_eq hwf hg rfl rfl rfl rfl rfl)

/-- Every move of a server is a step of its stations, or none. -/
theorem Moves.life (hwf : srv.WF) (h : srv.Moves cfg merge s srv') :
    srv'.life = srv.life ∨ srv.life.Step srv'.life := by
  cases h with
  | act a out h => exact h.life hwf
  | handle now rpc rpc' h => exact h.life hwf
  | resume ch h =>
    rcases resumeSend_eq h with ⟨_, _, _, -, rfl⟩ | ⟨_, _, _, -, rfl⟩
    · exact .inl rfl
    · exact .inl rfl

/-! ## Committed blocks -/

theorem Records.committed {id k : ℕ} {v : BlockVote G} (h : srv.Records cfg id k v srv') :
    srv'.committedBlks = srv.committedBlks ∧ srv'.commits = srv.commits := by
  cases h <;> exact ⟨rfl, rfl⟩

/-- A move commits nothing, or one block. -/
theorem Moves.commit_cases (h : srv.Moves cfg merge s srv') :
    (srv'.committedBlks = srv.committedBlks ∧ srv'.commits = srv.commits) ∨
      ∃ id p, srv'.committedBlks = srv.committedBlks.insert id p ∧
        srv'.commits = srv.commits ++ [id] := by
  cases h with
  | act a out h =>
    cases h with
    | sendPop ch t items ids rest srv'' item ids' _ hq => cases hq <;> exact .inl ⟨rfl, rfl⟩
    | mergeCommit => exact .inr ⟨_, _, rfl, rfl⟩
    | reap id now =>
      rcases reap_eq cfg srv id now with h | ⟨-, h⟩
      · rw [h]; exact .inl ⟨rfl, rfl⟩
      · rw [h]; exact .inl ⟨rfl, rfl⟩
    | _ => exact .inl ⟨rfl, rfl⟩
  | handle now rpc rpc' h =>
    cases h with
    | relayVote item rest vote _ =>
      unfold relayVoteItem
      split
      · exact .inl ⟨rfl, rfl⟩
      · exact .inl (records_recordVote ..).committed
    | spBcastCommit item rest block _ =>
      rcases spBcastCommitItem_eq cfg srv now block with ⟨-, h⟩ | ⟨-, db, h⟩
      · rw [h]; exact .inl ⟨rfl, rfl⟩
      · rw [h]; exact .inr ⟨_, _, rfl, rfl⟩
    | pullItem id blockId p todo pbHdrs b _ hdrs hb hi =>
      rcases pullItem_eq hi with ⟨rfl, -⟩ | ⟨-, -, clients, rfl⟩ <;> exact .inl ⟨rfl, rfl⟩
    | record => exact .inl (records_recordVote ..).committed
    | voteBlocks id item rest block _ current _ hi =>
      obtain ⟨queues, rfl⟩ := voteBlocksItem_eq hi
      exact .inl ⟨rfl, rfl⟩
    | _ => exact .inl ⟨rfl, rfl⟩
  | resume ch h =>
    rcases resumeSend_eq h with ⟨_, _, _, -, rfl⟩ | ⟨_, _, _, -, rfl⟩ <;> exact .inl ⟨rfl, rfl⟩

/-- A committed block stays committed, at the same address, unless its id is committed again. -/
theorem Moves.committed (h : srv.Moves cfg merge s srv') {id p : ℕ}
    (hp : srv.committedBlks[id]? = some p) :
    srv'.committedBlks[id]? = some p ∨ srv'.commits.count id = srv.commits.count id + 1 := by
  rcases h.commit_cases with ⟨hb, -⟩ | ⟨id', p', hb, hc⟩
  · rw [hb]; exact .inl hp
  · by_cases he : id' = id
    · right
      simp [hc, he]
    · left
      rw [hb, ExtTreeMap.getElem?_insert, if_neg (by simpa using he)]
      exact hp

/-- The history of commits and `committed_blks` have the same ids. -/
def CommitsOk (srv : Server G) : Prop := ∀ id, id ∈ srv.committedBlks ↔ id ∈ srv.commits

theorem CommitsOk.moves (hc : srv.CommitsOk) (h : srv.Moves cfg merge s srv') : srv'.CommitsOk := by
  intro id
  rcases h.commit_cases with ⟨hb, hl⟩ | ⟨id', p', hb, hl⟩
  · rw [hb, hl]; exact hc id
  · rw [hb, hl, ExtTreeMap.mem_insert, List.mem_append, List.mem_singleton, Nat.compare_eq_eq,
      hc id, or_comm, eq_comm (a := id)]

end TomChain.Server
