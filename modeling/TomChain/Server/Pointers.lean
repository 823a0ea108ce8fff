import TomChain.Server.Life

/-!
# One owner for every block object

A block object is shared, but at each moment it has one role on a server: it is being packed, it
is pending, it waits for the merge, or it is committed (`Apart`). So what the vote handlers and
the merging thread write goes to blocks that are not committed yet, and a committed block changes
in its distribution time at most (`Moves.heap_at`).
-/

namespace TomChain

open Std (ExtTreeMap)
open Flexbuffers (Flex toBytes fromBytes)

variable {G : Type}

namespace Server

def PendingAt (srv : Server G) (p : ℕ) : Prop := ∃ id : ℕ, srv.pendingBlks[id]? = some p

def CommittedAt (srv : Server G) (p : ℕ) : Prop := ∃ id : ℕ, srv.committedBlks[id]? = some p

/-- The block that the packing thread has created and not inserted yet. -/
def PackingAt (srv : Server G) (p : ℕ) : Prop := ∃ i id peers ids, srv.pack = .push i p id peers ids

/-- No pointer has two roles, or is merged twice. -/
structure Apart (srv : Server G) : Prop where
  nodup : srv.merging.Nodup
  merging : ∀ p ∈ srv.merging, ¬srv.PendingAt p ∧ ¬srv.CommittedAt p ∧ ¬srv.PackingAt p
  pending : ∀ p, srv.PendingAt p → ¬srv.CommittedAt p ∧ ¬srv.PackingAt p
  committed : ∀ p, srv.CommittedAt p → ¬srv.PackingAt p

section

variable {cfg : Config} {merge : List (BLSSigShare G) → BLSSignature G} {s : ℕ} {srv srv' : Server G}

theorem apart_init (cfg : Config) (s : ℕ) : (Server.init cfg s : Server G).Apart where
  nodup := by simp [Server.init, Server.merging, poppedBy]
  merging p hp := by simp [Server.init, Server.merging, poppedBy] at hp
  pending p hp := by simp [Server.init, PendingAt] at hp
  committed p hp := by simp [Server.init, CommittedAt] at hp

/-- The new address is in no container. -/
theorem WF.fresh (hwf : srv.WF) : srv.heap.length ∉ srv.merging ∧ ¬srv.PendingAt srv.heap.length ∧
    ¬srv.CommittedAt srv.heap.length ∧ ¬srv.PackingAt srv.heap.length := by
  have hnone : ∀ id, srv.idAt srv.heap.length ≠ some id := by
    intro id
    simp [idAt]
  refine ⟨fun h => ?_, ?_, ?_, ?_⟩
  · obtain ⟨id, hid⟩ := hwf.merging _ h
    exact hnone id hid
  · rintro ⟨id, h⟩
    exact hnone id (hwf.pending _ _ h)
  · rintro ⟨id, h⟩
    exact hnone id (hwf.committed _ _ h)
  · rintro ⟨i, id, peers, ids, h⟩
    exact hnone id (hwf.pack _ _ _ _ _ h)

theorem pendingAt_of_insert {m : ExtTreeMap ℕ ℕ} {id p q : ℕ}
    (h : ∃ id' : ℕ, (m.insert id p)[id']? = some q) : q = p ∨ ∃ id' : ℕ, m[id']? = some q := by
  obtain ⟨id', h⟩ := h
  rw [ExtTreeMap.getElem?_insert] at h
  split at h
  · cases h; exact .inl rfl
  · exact .inr ⟨id', h⟩

theorem pendingAt_of_erase {m : ExtTreeMap ℕ ℕ} {id q : ℕ}
    (h : ∃ id' : ℕ, (m.erase id)[id']? = some q) : ∃ id' : ℕ, id' ≠ id ∧ m[id']? = some q := by
  obtain ⟨id', h⟩ := h
  rw [ExtTreeMap.getElem?_erase] at h
  split at h
  · cases h
  · rename_i hne
    exact ⟨id', fun he => hne (by rw [he]; exact Nat.compare_eq_eq.mpr rfl), h⟩

/-- The roles of a server do not change, or fewer pointers have them. -/
theorem Apart.of_subset (h : srv.Apart) (hmerging : srv'.merging = srv.merging)
    (hpending : ∀ p, srv'.PendingAt p → srv.PendingAt p)
    (hcommitted : ∀ p, srv'.CommittedAt p → srv.CommittedAt p)
    (hpack : ∀ p, srv'.PackingAt p → srv.PackingAt p) : srv'.Apart where
  nodup := by rw [hmerging]; exact h.nodup
  merging p hp := by
    rw [hmerging] at hp
    obtain ⟨h1, h2, h3⟩ := h.merging p hp
    exact ⟨fun hx => h1 (hpending p hx), fun hx => h2 (hcommitted p hx), fun hx => h3 (hpack p hx)⟩
  pending p hp := by
    obtain ⟨h1, h2⟩ := h.pending p (hpending p hp)
    exact ⟨fun hx => h1 (hcommitted p hx), fun hx => h2 (hpack p hx)⟩
  committed p hp hx := h.committed p (hcommitted p hp) (hpack p hx)

theorem Records.apart (hwf : srv.WF) {id k : ℕ} {v : BlockVote G} (hap : srv.Apart)
    (h : srv.Records cfg id k v srv') : srv'.Apart := by
  cases h with
  | absent | dangling => exact hap
  | fewer => exact hap.of_subset rfl (fun _ h => h) (fun _ h => h) (fun _ h => h)
  | enough p b hp hb _ =>
    have hpend : srv.PendingAt p := ⟨id, hp⟩
    have hm : ({ srv.modifyBlock p fun b => b.insertVote k v with
        pbMergeQueue := srv.pbMergeQueue ++ [p]
        pendingBlks := srv.pendingBlks.erase id } : Server G).merging = srv.merging ++ [p] := by
      simp [Server.merging, modifyBlock]
    have hold : ∀ q, (∃ id' : ℕ, (srv.pendingBlks.erase id)[id']? = some q) →
        q ≠ p ∧ srv.PendingAt q := by
      intro q hq
      obtain ⟨id', hne, hq'⟩ := pendingAt_of_erase hq
      refine ⟨?_, id', hq'⟩
      rintro rfl
      have h1 := hwf.pending _ _ hq'
      rw [hwf.pending _ _ hp] at h1
      exact hne (Option.some.inj h1).symm
    have hnot : p ∉ srv.merging := fun hx => (hap.merging p hx).1 hpend
    refine ⟨?_, fun q hq => ?_, fun q hq => ?_, hap.committed⟩
    · rw [hm]
      exact List.nodup_append.mpr ⟨hap.nodup, List.nodup_singleton p, by
        rintro a ha b hb rfl
        exact hnot ((List.mem_singleton.mp hb) ▸ ha)⟩
    · rw [hm] at hq
      rcases List.mem_append.mp hq with hq | hq
      · obtain ⟨h1, h2, h3⟩ := hap.merging q hq
        exact ⟨fun hx => h1 (hold q hx).2, h2, h3⟩
      · rw [List.mem_singleton.mp hq]
        obtain ⟨h2, h3⟩ := hap.pending p hpend
        exact ⟨fun hx => (hold p hx).1 rfl, h2, h3⟩
    · exact hap.pending q (hold q hq).2

theorem Acts.apart {a : ServerAction} {out : Option (ℕ × Rpc G)} (hwf : srv.WF) (hap : srv.Apart)
    (h : srv.Acts cfg merge s a srv' out) : srv'.Apart := by
  cases h with
  | packCheck pc _ _ hpc =>
    refine hap.of_subset rfl (fun _ h => h) (fun _ h => h) ?_
    rintro p ⟨i, id, peers, ids, h⟩
    rcases hpc with rfl | rfl <;> cases h
  | packGenerate | packEnd =>
    refine hap.of_subset rfl (fun _ h => h) (fun _ h => h) ?_
    rintro p ⟨i, id, peers, ids, h⟩
    cases h
  | packBegin i now order _ =>
    obtain ⟨h1, h2, h3, -⟩ := hwf.fresh
    have hpack : ∀ p, (srv.packBegin cfg i now order).PackingAt p → p = srv.heap.length := by
      rintro p ⟨i, id, peers, ids, h⟩
      cases h
      rfl
    refine ⟨hap.nodup, fun p hp => ?_, fun p hp => ?_, fun p hp hx => ?_⟩
    · obtain ⟨g1, g2, -⟩ := hap.merging p hp
      exact ⟨g1, g2, fun hx => h1 (hpack p hx ▸ hp)⟩
    · exact ⟨(hap.pending p hp).1, fun hx => h2 (hpack p hx ▸ hp)⟩
    · exact h3 (hpack p hx ▸ hp)
  | packPush i p id t peers ids hpc =>
    refine hap.of_subset rfl (fun _ h => h) (fun _ h => h) ?_
    rintro p' ⟨i', id', peers', ids', h⟩
    cases h
    exact ⟨i, id, t :: peers, ids, hpc⟩
  | packInsert i p id ids hpc =>
    have hp : srv.PackingAt p := ⟨i, id, [], ids, hpc⟩
    have hpack : ∀ q, ¬({ srv.storePending id p with
        pendingTxs := ids.foldl (fun m id => m.erase id) srv.pendingTxs
        pack := .pack (i + 1) } : Server G).PackingAt q := by
      rintro q ⟨i, id, peers, ids, h⟩
      cases h
    refine ⟨hap.nodup, fun q hq => ?_, fun q hq => ?_, fun q _ => hpack q⟩
    · obtain ⟨h1, h2, h3⟩ := hap.merging q hq
      refine ⟨fun hx => ?_, h2, hpack q⟩
      rcases pendingAt_of_insert hx with rfl | hx
      · exact h3 hp
      · exact h1 hx
    · refine ⟨fun hx => ?_, hpack q⟩
      rcases pendingAt_of_insert hq with rfl | hq
      · exact hap.committed q hx hp
      · exact (hap.pending q hq).1 hx
  | sendPop ch t items ids rest srv'' item ids' _ hq =>
    cases hq <;> exact hap.of_subset rfl (fun _ h => h) (fun _ h => h) (fun _ h => h)
  | mergePop p q hpc hq =>
    exact hap.of_subset ((merging_idle hpc).trans hq).symm (fun _ h => h) (fun _ h => h)
      (fun _ h => h)
  | mergeCommit p now b b' hpc hb hm =>
    have hmerging : srv.merging = p :: srv.pbMergeQueue := merging_popped hpc
    have hmerging' : (srv.committedState p now b').merging = srv.pbMergeQueue := rfl
    have hnd := hap.nodup
    rw [hmerging, List.nodup_cons] at hnd
    obtain ⟨hp1, hp2, hp3⟩ := hap.merging p (by rw [hmerging]; exact List.mem_cons_self ..)
    refine ⟨by rw [hmerging']; exact hnd.2, fun q hq => ?_, fun q hq => ?_, fun q hq => ?_⟩
    · rw [hmerging'] at hq
      obtain ⟨h1, h2, h3⟩ := hap.merging q (by rw [hmerging]; exact List.mem_cons_of_mem _ hq)
      refine ⟨h1, fun hx => ?_, h3⟩
      rcases pendingAt_of_insert hx with rfl | hx
      · exact hnd.1 hq
      · exact h2 hx
    · refine ⟨fun hx => ?_, (hap.pending q hq).2⟩
      rcases pendingAt_of_insert hx with rfl | hx
      · exact hp1 hq
      · exact (hap.pending q hq).1 hx
    · rcases pendingAt_of_insert hq with rfl | hq
      · exact hp3
      · exact hap.committed q hq
  | mergePush p t peers hpc =>
    exact hap.of_subset (merging_push hpc).symm (fun _ h => h) (fun _ h => h)
      (fun _ h => h)
  | mergeDone p hpc =>
    exact hap.of_subset (merging_push hpc).symm (fun _ h => h) (fun _ h => h)
      (fun _ h => h)
  | reap id now =>
    rcases reap_eq cfg srv id now with h | ⟨-, h⟩
    · rw [h]; exact hap
    · rw [h]
      refine hap.of_subset rfl (fun p hp => ?_) (fun _ h => h) (fun _ h => h)
      obtain ⟨id', -, h'⟩ := pendingAt_of_erase hp
      exact ⟨id', h'⟩
  | _ => exact hap.of_subset rfl (fun _ h => h) (fun _ h => h) (fun _ h => h)

theorem Handles.apart {now : ℕ} {rpc rpc' : Rpc G} (hwf : srv.WF) (hap : srv.Apart)
    (h : srv.Handles cfg s now rpc srv' rpc') : srv'.Apart := by
  obtain ⟨hf1, hf2, hf3, hf4⟩ := hwf.fresh
  cases h with
  | relayVote item rest vote _ =>
    unfold relayVoteItem
    split
    · exact hap
    · exact (records_recordVote ..).apart hwf hap
  | relayBlock item rest block _ =>
    refine ⟨hap.nodup, fun p hp => ?_, fun p hp => ?_, hap.committed⟩
    · obtain ⟨h1, h2, h3⟩ := hap.merging p hp
      refine ⟨fun hx => ?_, h2, h3⟩
      rcases pendingAt_of_insert hx with rfl | hx
      · exact hf1 hp
      · exact h1 hx
    · rcases pendingAt_of_insert hp with rfl | hp
      · exact ⟨hf3, hf4⟩
      · exact hap.pending p hp
  | spBcastCommit item rest block _ =>
    rcases spBcastCommitItem_eq cfg srv now block with ⟨-, h⟩ | ⟨-, db, h⟩
    · rw [h]; exact hap
    · rw [h]
      have hold : ∀ q, (∃ id' : ℕ, (srv.pendingBlks.erase block.header.id)[id']? = some q) →
          srv.PendingAt q := by
        intro q hq
        obtain ⟨id', -, h'⟩ := pendingAt_of_erase hq
        exact ⟨id', h'⟩
      refine ⟨hap.nodup, fun p hp => ?_, fun p hp => ?_, fun p hp => ?_⟩
      · obtain ⟨h1, h2, h3⟩ := hap.merging p hp
        refine ⟨fun hx => h1 (hold p hx), fun hx => ?_, h3⟩
        rcases pendingAt_of_insert hx with rfl | hx
        · exact hf1 hp
        · exact h2 hx
      · obtain ⟨h1, h2⟩ := hap.pending p (hold p hp)
        refine ⟨fun hx => ?_, h2⟩
        rcases pendingAt_of_insert hx with rfl | hx
        · exact hf2 (hold _ hp)
        · exact h1 hx
      · rcases pendingAt_of_insert hp with rfl | hp
        · exact hf4
        · exact hap.committed p hp
  | pullItem id blockId p todo pbHdrs b _ hdrs hb hi =>
    rcases pullItem_eq hi with ⟨rfl, -⟩ | ⟨-, -, clients, rfl⟩
    · exact hap
    · exact hap.of_subset rfl (fun _ h => h) (fun _ h => h) (fun _ h => h)
  | record => exact (records_recordVote ..).apart hwf hap
  | voteBlocks id item rest block _ current _ hi =>
    obtain ⟨queues, rfl⟩ := voteBlocksItem_eq hi
    exact hap.of_subset rfl (fun _ h => h) (fun _ h => h) (fun _ h => h)
  | relayBlockSync => exact hap.of_subset rfl (fun _ h => h) (fun _ h => h) (fun _ h => h)
  | _ => exact hap

theorem Moves.apart (hwf : srv.WF) (hap : srv.Apart) (h : srv.Moves cfg merge s srv') :
    srv'.Apart := by
  cases h with
  | act a out h => exact h.apart hwf hap
  | handle now rpc rpc' h => exact h.apart hwf hap
  | resume ch h =>
    rcases resumeSend_eq h with ⟨_, _, _, -, rfl⟩ | ⟨_, _, _, -, rfl⟩
    · exact hap.of_subset rfl (fun _ h => h) (fun _ h => h) (fun _ h => h)
    · exact hap.of_subset rfl (fun _ h => h) (fun _ h => h) (fun _ h => h)

/-! ## What is written where -/

theorem Records.heap_at {id k : ℕ} {v : BlockVote G} (h : srv.Records cfg id k v srv') {p : ℕ} :
    srv'.heap[p]? = srv.heap[p]? ∨ srv.PendingAt p := by
  cases h with
  | absent | dangling => exact .inl rfl
  | fewer q b hq _ | enough q b hq _ _ =>
    by_cases hp : q = p
    · subst hp
      exact .inr ⟨id, hq⟩
    · exact .inl (by simp [modifyBlock, hp])

theorem heap_append_at {heap : List (Block G)} {p : ℕ} {b : Block G} (hb : heap[p]? = some b)
    (l : List (Block G)) : (heap ++ l)[p]? = some b := by
  rw [List.getElem?_append_left (List.getElem?_eq_some_iff.mp hb).1, hb]

theorem Acts.heap_at {a : ServerAction} {out : Option (ℕ × Rpc G)}
    (h : srv.Acts cfg merge s a srv' out) {p : ℕ} {b : Block G} (hb : srv.heap[p]? = some b) :
    srv'.heap[p]? = some b ∨ srv.merge = .popped p := by
  cases h with
  | packBegin => exact .inl (heap_append_at hb _)
  | sendPop ch t items ids rest srv'' item ids' _ hq =>
    cases hq <;> exact .inl hb
  | mergeCommit q now b₀ b' hpc _ _ =>
    by_cases hp : q = p
    · subst hp
      exact .inr hpc
    · exact .inl (by simp [committedState, modifyBlock, hp, hb])
  | reap id now =>
    rcases reap_eq cfg srv id now with h | ⟨-, h⟩
    · rw [h]; exact .inl hb
    · rw [h]; exact .inl hb
  | _ => exact .inl hb

/-- A block that is not pending and not being merged changes in its distribution time only. -/
theorem Moves.heap_at (h : srv.Moves cfg merge s srv') {p : ℕ} {b : Block G}
    (hb : srv.heap[p]? = some b) :
    (∃ d, srv'.heap[p]? = some { b with header := { b.header with distTs := d } }) ∨
      srv.PendingAt p ∨ srv.merge = .popped p := by
  have hsame : srv'.heap[p]? = some b →
      ∃ d, srv'.heap[p]? = some { b with header := { b.header with distTs := d } } := fun h => ⟨_, h⟩
  cases h with
  | act a out h => exact (h.heap_at hb).imp hsame .inr
  | handle now rpc rpc' h =>
    cases h with
    | relayVote item rest vote _ =>
      by_cases hd : vote.blockId ∈ srv.deadBlock
      · rw [relayVoteItem, if_pos hd] at hsame ⊢
        exact .inl (hsame hb)
      · rw [relayVoteItem, if_neg hd] at hsame ⊢
        rcases (records_recordVote cfg srv vote.blockId vote.voterId vote).heap_at (p := p) with he | hp
        · exact .inl (hsame (he.trans hb))
        · exact .inr (.inl hp)
    | record id votedBlocks blockId vote =>
      rcases (records_recordVote cfg srv blockId id vote).heap_at (p := p) with he | hp
      · exact .inl (hsame (he.trans hb))
      · exact .inr (.inl hp)
    | relayBlock => exact .inl (hsame (heap_append_at hb _))
    | spBcastCommit item rest block _ =>
      rcases spBcastCommitItem_eq cfg srv now block with ⟨-, h⟩ | ⟨-, db, h⟩
      · rw [h] at hsame ⊢; exact .inl (hsame hb)
      · rw [h] at hsame ⊢; exact .inl (hsame (heap_append_at hb _))
    | pullItem id blockId q todo pbHdrs b₀ _ hdrs _ hi =>
      rcases pullItem_eq hi with ⟨rfl, -⟩ | ⟨-, -, clients, rfl⟩
      · exact .inl (hsame hb)
      · by_cases hp : q = p
        · subst hp
          left
          simp only [modifyBlock, List.getElem?_modify, hb, Option.map_eq_map, Option.map_some,
            if_true, Block.stampDist]
          split
          · exact ⟨now, rfl⟩
          · exact ⟨_, rfl⟩
        · exact .inl (hsame (by simp [modifyBlock, hp, hb]))
    | voteBlocks id item rest block _ current _ hi =>
      obtain ⟨queues, rfl⟩ := voteBlocksItem_eq hi
      exact .inl (hsame hb)
    | _ => exact .inl (hsame hb)
  | resume ch h =>
    rcases resumeSend_eq h with ⟨_, _, _, -, rfl⟩ | ⟨_, _, _, -, rfl⟩ <;> exact .inl (hsame hb)

end

end Server

end TomChain
