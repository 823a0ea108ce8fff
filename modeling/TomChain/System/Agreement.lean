import TomChain.System.Delivery

/-!
# Agreement on commits

A server that merges a block broadcasts the commit, and a receiver ignores it when the block is not
pending there. On a block that every server has stored, that does no harm: the block has left
`pending_blks` before. So when everything is delivered, a block that one server committed is
committed everywhere.
-/

namespace TomChain

open Std (ExtTreeMap ExtTreeSet)
open Runs Server
open Flexbuffers (Flex toBytes fromBytes)

variable {G D : Type} {cfg : Config} {crypto : Crypto G D} {σ σ' : State G} {a : Action G}
  {ok : State G → Action G → Bool}

/-! ## A merge -/

/-- What a server does when it merges a block: it goes on to the broadcast. -/
theorem Server.Acts.merged_cases {s : ℕ} {srv srv' : Server G} {sa : ServerAction}
    {out : Option (ℕ × Rpc G)} (h : srv.Acts cfg crypto.merge s sa srv' out) :
    srv'.merged = srv.merged ∨ ∃ p b, srv.merge = .popped p ∧ srv.heap[p]? = some b ∧
      srv'.merged = srv.merged ++ [b.header.id] ∧ srv'.merge = .push p srv.bcastCommitBlocks.keys ∧
      srv'.pendingBlks = srv.pendingBlks := by
  cases h with
  | sendPop ch t items ids rest srv'' item ids' _ hq => cases hq <;> exact .inl rfl
  | mergeCommit p now b b' hpc hb hm =>
    refine .inr ⟨p, b, hpc, hb, ?_, rfl, rfl⟩
    rw [← (Block.grows_mergeVotes hm).id_eq]
    rfl
  | reap id now => rcases reap_eq cfg srv id now with h | ⟨-, h⟩ <;> rw [h] <;> exact .inl rfl
  | _ => exact .inl rfl

theorem Steps.merged_cases (hs : Steps cfg crypto σ a σ') {u id : ℕ}
    (hid : id ∈ (σ'.server u).merged) :
    id ∈ (σ.server u).merged ∨ ∃ p b, (σ.server u).merge = .popped p ∧
      (σ.server u).heap[p]? = some b ∧ b.header.id = id ∧
      (σ'.server u).merge = .push p (σ.server u).bcastCommitBlocks.keys ∧
      (σ'.server u).pendingBlks = (σ.server u).pendingBlks := by
  rcases hs.moves u with he | hm
  · rw [he] at hid; exact .inl hid
  · generalize σ'.server u = srv' at hm hid ⊢
    cases hm with
    | act sa out h =>
      rcases h.merged_cases with he | ⟨p, b, hpc, hb, he, hpush, hpend⟩
      · rw [he] at hid; exact .inl hid
      · rw [he] at hid
        rcases List.mem_append.mp hid with hid | hid
        · exact .inl hid
        · exact .inr ⟨p, b, hpc, hb, (List.mem_singleton.mp hid).symm, hpush, hpend⟩
    | handle now rpc rpc' h => rw [h.sameThreads.merged] at hid; exact .inl hid
    | resume ch h =>
      rcases resumeSend_eq h with ⟨_, _, _, -, rfl⟩ | ⟨_, _, _, -, rfl⟩ <;> exact .inl hid

/-- A block that is being merged is no longer pending. -/
theorem not_pending_of_popped (hr : Reachable cfg crypto ok σ) {u p id : ℕ}
    (hone : (σ.server u).stored.count id ≤ 1) (hpc : (σ.server u).merge = .popped p)
    (hid : (σ.server u).idAt p = some id) : id ∉ (σ.server u).pendingBlks := by
  intro hmem
  have hocc := ((hr.life u) id).1.trans hone
  have hw : Stations.at1 (σ.server u).life.waiting id = 1 := Stations.at1_mem hmem
  have hworking : 0 < (σ.server u).life.working.count id := by
    refine List.count_pos_iff.mpr ?_
    show id ∈ (σ.server u).mergingIds
    rw [mergingIds_popped hpc hid]
    exact List.mem_cons_self ..
  unfold Stations.occ at hocc
  omega

/-! ## The way of a commit -/

/-- The commit of block `id` by server `u` has arrived at `t` or is on its way there: with the
merging thread, or in the broadcast. -/
def CommitReaches (cfg : Config) (σ : State G) (u id t : ℕ) : Prop :=
  (σ.server t).Settled (fun _ => False) id ∨
    (∃ p peers, (σ.server u).merge = .push p peers ∧ t ∈ peers ∧ (σ.server u).idAt p = some id) ∨
    InTransit cfg σ .commit (id, 0) t

/-- While the merging thread pushes a block, nothing else happens to it. -/
theorem Server.Acts.push_next {s : ℕ} {srv srv' : Server G} {sa : ServerAction}
    {out : Option (ℕ × Rpc G)} (h : srv.Acts cfg crypto.merge s sa srv' out) {p : ℕ} {peers : List ℕ}
    (hpc : srv.merge = .push p peers) :
    srv'.merge = .push p peers ∨ peers = [] ∨
      ∃ t rest, peers = t :: rest ∧ sa = .mergePush ∧ srv'.merge = .push p rest := by
  cases h with
  | sendPop ch t items ids rest srv'' item ids' _ hq => cases hq <;> exact .inl hpc
  | mergePop p' q hpc' | mergeCommit p' now b b' hpc' =>
    rw [hpc] at hpc'
    cases hpc'
  | mergePush p' t rest hpc' =>
    rw [hpc] at hpc'
    cases hpc'
    exact .inr (.inr ⟨t, rest, rfl, rfl, rfl⟩)
  | mergeDone p' hpc' =>
    rw [hpc] at hpc'
    cases hpc'
    exact .inr (.inl rfl)
  | reap id now => rcases reap_eq cfg srv id now with h | ⟨-, h⟩ <;> rw [h] <;> exact .inl hpc
  | _ => exact .inl hpc

theorem commitReaches_of_pushing (hr : Reachable cfg crypto ok σ) (hs : Steps cfg crypto σ a σ')
    {u id t p : ℕ} {peers : List ℕ} (h1 : 1 ≤ u) (h2 : u ≤ cfg.serverCount)
    (hpc : (σ.server u).merge = .push p peers) (ht : t ∈ peers)
    (hid : (σ.server u).idAt p = some id) : CommitReaches cfg σ' u id t := by
  have hid' : (σ'.server u).idAt p = some id := idAt_grows (hs.later u).heap hid
  have hsame : (σ'.server u).merge = (σ.server u).merge → CommitReaches cfg σ' u id t := by
    intro he
    exact .inr (.inl ⟨p, peers, he.trans hpc, ht, hid'⟩)
  have hresume : ∀ {σ₁ : State G} {response : Option (Rpc G)} {θ : Thread},
      σ₁.server = σ.server → Resumes σ₁ response θ σ' →
      (σ'.server u).merge = (σ.server u).merge := by
    intro σ₁ response θ he hres
    cases hres with
    | send s ch srv' h =>
      rw [State.setServer_server]
      split
      · rename_i hus
        subst hus
        rw [he] at h
        rcases resumeSend_eq h with ⟨_, _, _, -, rfl⟩ | ⟨_, _, _, -, rfl⟩ <;> rfl
      · rw [he]
    | pull | vote => rw [State.setClient_server, he]
  cases hs with
  | server s sa srv' out _ _ hact =>
    by_cases hus : u = s
    · subst hus
      have hsrv : (((σ.setServer u srv').addCall (some (.send u sa.chan)) out).server u) = srv' := by
        simp
      rcases hact.push_next hpc with he | rfl | ⟨t', rest, rfl, rfl, he⟩
      · exact hsame (by rw [hsrv, he, hpc])
      · cases ht
      · rcases List.mem_cons.mp ht with rfl | ht
        · refine .inr (.inr (.inl ⟨u, h1, h2, ?_⟩))
          have hb := hact.backlog (hr.wf u) (hr.relayOk u).1 .commit t
          have hnew : (σ.server u).newMail .mergePush .commit t = [(id, 0)] := by
            simp [newMail, hpc, pointerKeys, hid]
          have hout : outMail out .commit t = [] := by cases hact <;> rfl
          rw [hnew, hout, List.nil_append] at hb
          rw [hsrv, hb]
          exact List.mem_append_right _ (List.mem_singleton_self _)
        · exact .inr (.inl ⟨p, rest, by rw [hsrv, he], ht, hid'⟩)
    · exact hsame (by simp [hus])
  | client => exact hsame (by simp)
  | handle i now order call srv' rpc' _ hh =>
    by_cases hus : u = call.target
    · subst hus
      exact hsame (by simpa using hh.sameThreads.merge)
    · exact hsame (by simp [hus])
  | retOrphan | failOrphan => exact hsame rfl
  | ret i call θ _ _ _ _ hres => exact hsame (hresume (by rfl) hres)
  | fail i call θ _ _ _ hres => exact hsame (hresume (by rfl) hres)
  | foreign => exact hsame (by simp)

theorem CommitReaches.step (hr : Reachable cfg crypto ok σ) (hs : Steps cfg crypto σ a σ')
    (hfail : ∀ i, a ≠ .fail i) (hbroken : ∀ call ∈ σ'.calls, call.rpc.broken = false) {u id t : ℕ}
    (h1 : 1 ≤ u) (h2 : u ≤ cfg.serverCount) (hst : id ∈ (σ.server t).stored)
    (hone : (σ'.server t).stored.count id ≤ 1) (h : CommitReaches cfg σ u id t) :
    CommitReaches cfg σ' u id t := by
  rcases h with hset | ⟨p, peers, hpc, ht, hid⟩ | htr
  · exact .inl (hs.settled (fun _ _ _ h => h) hone hset)
  · exact commitReaches_of_pushing hr hs h1 h2 hpc ht hid
  · rcases htr.step hr hs hfail hbroken with htr | ⟨now, item, rest, hkey, -, hh⟩
    · exact .inr (.inr htr)
    · left
      refine ⟨(hs.later t).stored.subset hst, fun p hp => ?_⟩
      have hgone : id ∉ (σ'.server t).pendingBlks := by
        generalize σ'.server t = srv' at hh
        cases hh with
        | spBcastCommit _ _ block hd =>
          rw [wireKey_of_fromBytes (by simp) hd] at hkey
          have hid : block.header.id = id := congrArg Prod.fst hkey
          rcases spBcastCommitItem_eq cfg (σ.server t) now block with ⟨hn, he⟩ | ⟨-, db, he⟩
          · rw [he, ← hid]; exact hn
          · rw [he, ← hid]; simp
      rw [ExtTreeMap.mem_iff_isSome_getElem?, hp] at hgone
      exact absurd rfl hgone

/-- Every server gets to know of every merge, and has stored the block before. -/
theorem commitReaches_of_reachable (hok : ∀ σ a, ok σ a → delivering cfg σ a)
    (hN : 1 ≤ cfg.clientCount) (h : Reachable cfg crypto ok σ)
    (hlt : (σ.server cfg.serverCount).packed.length < 2 ^ 64) {u id t : ℕ} (hu1 : 1 ≤ u)
    (hu2 : u ≤ cfg.serverCount) (ht1 : 1 ≤ t) (ht2 : t ≤ cfg.serverCount)
    (hid : id ∈ (σ.server u).merged) : id ∈ (σ.server t).stored ∧ CommitReaches cfg σ u id t := by
  revert hlt hid
  refine h.invariant (fun σ => (σ.server cfg.serverCount).packed.length < 2 ^ 64 →
    id ∈ (σ.server u).merged → id ∈ (σ.server t).stored ∧ CommitReaches cfg σ u id t)
    (fun _ hid => by cases hid) fun σ a σ' hr ha ih hs hlt hid => ?_
  have hr' : Reachable cfg crypto ok σ' := .next a hr ha hs
  have hst := steps_of_step hs
  have hlt₀ := lt_of_le_of_lt (hst.later cfg.serverCount).packed.length_le hlt
  rcases hst.merged_cases hid with hid | ⟨p, b, hpc, hb, rfl, hpush, hpend⟩
  · obtain ⟨hstored, hreach⟩ := ih hlt₀ hid
    exact ⟨(hst.later t).stored.subset hstored, hreach.step hr hst
      (ne_fail_of_reliable (reliable_of_delivering (hok σ a ha)))
      (hr'.not_broken fun σ a ha => succeeds_of_reliable (reliable_of_delivering (hok σ a ha)))
      hu1 hu2 hstored
      (stored_count_le_one hr' hlt ht1 ht2 id)⟩
  · -- the merged block has a vote, so it is on a block that is everywhere
    have hF := (arrivalFlow_clean hok hr).server u
    obtain ⟨b₀, hb₀, hn⟩ := hF.held.merge p (.inl hpc)
    rw [hb] at hb₀
    cases hb₀
    have hvote : ∃ k, k ∈ b.votes := by
      by_contra hne
      push Not at hne
      have hempty : b.votes.size = 0 := by
        rw [← ExtTreeMap.length_keys, List.eq_nil_iff_forall_not_mem.mpr fun k hk =>
          hne k (ExtTreeMap.mem_keys.mp hk)]
        rfl
      omega
    have hstored := hF.heap b (List.mem_of_getElem? hb) hvote t ht1 ht2
    have hidAt : (σ.server u).idAt p = some b.header.id := by simp [idAt, hb]
    have hstored' := (hst.later t).stored.subset hstored
    refine ⟨hstored', ?_⟩
    by_cases htu : t = u
    · subst htu
      refine .inl ⟨hstored', fun p' hp' => ?_⟩
      have hgone := not_pending_of_popped hr (stored_count_le_one hr hlt₀ ht1 ht2 _) hpc hidAt
      rw [hpend] at hp'
      rw [ExtTreeMap.mem_iff_isSome_getElem?, hp'] at hgone
      exact absurd rfl hgone
    · refine .inr (.inl ⟨p, _, hpush, ?_, idAt_grows (hst.later u).heap hidAt⟩)
      rw [ExtTreeMap.mem_keys, (Reachable.relayOk hr u).1.commits]
      exact mem_peerIds.mpr ⟨ht1, ht2, htu⟩

/-! ## At rest -/

/-- All queues are empty, no call is in progress, and the relay and merging threads are between two
blocks. -/
def atRest (cfg : Config) (σ : State G) : Bool :=
  ((List.range' 1 cfg.serverCount).all fun s =>
    [Chan.vote, .block, .commit].all (σ.server s).drainedOut && (σ.server s).pbSyncQueue.isEmpty &&
      (σ.server s).pbMergeQueue.isEmpty && (σ.server s).merge = .idle) &&
    σ.calls.isEmpty

/-- A block that one server committed is committed on every server and pending on none. -/
def CommitAgreement (cfg : Config) (σ : State G) : Prop :=
  ∀ s id, 1 ≤ s → s ≤ cfg.serverCount → id ∈ (σ.server s).committedBlks →
    ∀ t, 1 ≤ t → t ≤ cfg.serverCount →
      id ∈ (σ.server t).committedBlks ∧ id ∉ (σ.server t).pendingBlks

/-- In runs that meet the condition the servers agree at rest. -/
theorem commitAgreement_of_delivering (cfg : Config) (crypto : Crypto G D) (σ : State G)
    (hN : 1 ≤ cfg.clientCount) (h : Reachable cfg crypto (delivering cfg) σ)
    (hlt : (σ.server cfg.serverCount).packed.length < 2 ^ 64) (hrest : atRest cfg σ = true) :
    CommitAgreement cfg σ := by
  simp only [atRest, Bool.and_eq_true, List.all_eq_true, List.mem_range'_1, List.isEmpty_iff,
    decide_eq_true_eq] at hrest
  obtain ⟨hservers, hcalls⟩ := hrest
  have htransit : ∀ k t, ¬ InTransit cfg σ .commit k t := by
    refine not_inTransit_of_drainedOut (fun s h1 h2 => ?_) (by simp [hcalls])
    exact (hservers s ⟨h1, by omega⟩).1.1.1 .commit (by simp)
  intro s id _ _ hid t ht1 ht2
  obtain ⟨u, hu1, hu2, hu⟩ := ((arrivalFlow_clean (fun _ _ h => h) h).server s).committed id hid
  obtain ⟨hstored, hreach⟩ :=
    commitReaches_of_reachable (fun _ _ h => h) hN h hlt hu1 hu2 ht1 ht2 hu
  have hgone : id ∉ (σ.server t).pendingBlks := by
    rcases hreach with hset | ⟨p, peers, hpc, -, -⟩ | htr
    · intro hmem
      obtain ⟨p, hp⟩ := Option.isSome_iff_exists.mp (ExtTreeMap.mem_iff_isSome_getElem?.mp hmem)
      obtain ⟨-, -, hfalse⟩ := hset.2 p hp
      exact hfalse
    · rw [(hservers u ⟨hu1, by omega⟩).2] at hpc
      cases hpc
    · exact absurd htr (htransit _ _)
  refine ⟨?_, hgone⟩
  rcases h.place_of_stored (fun _ _ => reliable_of_delivering) hstored with hp | hm | hc
  · exact absurd hp hgone
  · obtain ⟨⟨-, hqueue⟩, hidle⟩ := hservers t ⟨ht1, by omega⟩
    rw [mergingIds, merging_idle hidle, hqueue] at hm
    cases hm
  · exact hc

/-- At the end of the round both servers have committed the block. -/
theorem commitAgreement_round :
    ∃ σ, Reachable sampleConfig Crypto.symbolic (delivering sampleConfig) σ ∧
      atRest sampleConfig σ = true ∧ 2000000 ∈ (σ.server 1).committedBlks ∧
      CommitAgreement sampleConfig σ := by
  obtain ⟨σ, hr, hσ⟩ := exists_reachable sampleConfig Crypto.symbolic (delivering sampleConfig)
    Script.round (fun σ => atRest sampleConfig σ && (σ.server 2).packed.length == 1 &&
      (σ.server 1).committedBlks.contains 2000000) (by decide +kernel)
  simp only [Bool.and_eq_true, beq_iff_eq, ExtTreeMap.contains_iff_mem] at hσ
  obtain ⟨⟨hrest, hlen⟩, hc⟩ := hσ
  refine ⟨σ, hr, hrest, hc, commitAgreement_of_delivering _ _ σ (by decide) hr ?_ hrest⟩
  simp [sampleConfig, hlen]

/-- Server 2 commits the block while server 1 has not received it; the broadcast is ignored there
and the block stays pending. -/
theorem exists_disagreement :
    ¬ ∀ σ, Reachable Script.lateConfig Crypto.symbolic (reliable Script.lateConfig) σ →
      atRest Script.lateConfig σ = true → CommitAgreement Script.lateConfig σ := by
  intro h
  obtain ⟨σ, hr, hσ⟩ := exists_reachable Script.lateConfig Crypto.symbolic
    (reliable Script.lateConfig) Script.late
    (fun σ => atRest Script.lateConfig σ && (σ.server 2).committedBlks.contains 3000000 &&
      (σ.server 1).pendingBlks.contains 3000000) (by decide +kernel)
  simp only [Bool.and_eq_true, ExtTreeMap.contains_iff_mem] at hσ
  obtain ⟨⟨hrest, hc⟩, hp⟩ := hσ
  exact (h σ hr hrest 2 3000000 (by decide) (by decide) hc 1 (by decide) (by decide)).2 hp

end TomChain
