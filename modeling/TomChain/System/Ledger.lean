import TomChain.Lib.Ledger
import TomChain.System.Ballots
import TomChain.System.Lifecycle
import TomChain.System.Votes

/-!
# The chain is a ledger

What the servers and clients do together, seen from afar: the packing server proposes, a `VoteBlocks`
request that a server takes up is a ballot, and the committed blocks of the servers are the commits.
Every run of honest clients, with whatever calls fail and whatever blocks are reaped, is a run of the
`Ledger` with the clients as voters.
-/

namespace TomChain

open Std (ExtTreeMap)
open Runs Server
open Flexbuffers (Flex toBytes fromBytes)

variable {G D : Type} {cfg : Config} {crypto : Crypto G D} {σ σ' : State G} {a : Action G}
  {ok : State G → Action G → Bool}

/-- What the servers have to agree on for an id. -/
structure Content where
  baseId : ℕ
  proposalTs : ℕ
  txVec : List Transaction

def Block.content (b : Block G) : Content := ⟨b.header.baseId, b.header.proposalTs, b.txVec⟩

theorem Block.SameContent.content_eq {b b' : Block G} (h : b.SameContent b') :
    b.content = b'.content := by
  obtain ⟨-, hbase, hts, htx⟩ := h
  rw [content, content, hbase, hts, htx]

def electorate (cfg : Config) : Set ℕ := {k | 1 ≤ k ∧ k ≤ cfg.clientCount}

/-- The ledger that a state of the system stands for. -/
def ledgerOf (cfg : Config) (σ : State G) : Ledger ℕ ℕ ℕ Content where
  proposals := {x | ∃ pb ∈ (σ.server cfg.serverCount).packed, x = (pb.header.id, pb.content)}
  ballots := {x | Received σ x.1 x.2}
  commits := {x | 1 ≤ x.1 ∧ x.1 ≤ cfg.serverCount ∧ ∃ p b,
    (σ.server x.1).committedBlks[x.2.1]? = some p ∧ (σ.server x.1).heap[p]? = some b ∧
      x.2.2 = b.content}

theorem ledgerOf_init (cfg : Config) : ledgerOf cfg (State.init cfg : State G) = .empty := by
  simp [ledgerOf, Ledger.empty, State.init, Server.init, Received]

/-! ## Proposals -/

/-- A step proposes nothing, or the block that it packs. -/
theorem Steps.packed_cases (hs : Steps cfg crypto σ a σ') :
    (σ'.server cfg.serverCount).packed = (σ.server cfg.serverCount).packed ∨
      ∃ b, (σ'.server cfg.serverCount).packed = (σ.server cfg.serverCount).packed ++ [b] := by
  rcases hs.moves cfg.serverCount with he | hm
  · exact .inl (by rw [he])
  · generalize σ'.server cfg.serverCount = srv' at hm
    cases hm with
    | act sa out h =>
      cases h with
      | packBegin => exact .inr ⟨_, rfl⟩
      | sendPop ch t items ids rest srv'' item ids' _ hq => cases hq <;> exact .inl rfl
      | reap id now =>
        rcases reap_eq cfg (σ.server cfg.serverCount) id now with h | ⟨-, h⟩ <;> rw [h] <;>
          exact .inl rfl
      | _ => exact .inl rfl
    | handle now rpc rpc' h => exact .inl h.sameThreads.packed
    | resume ch h => rcases resumeSend_eq h with ⟨_, _, _, -, rfl⟩ | ⟨_, _, _, -, rfl⟩ <;> exact .inl rfl

theorem proposals_step (hs : Steps cfg crypto σ a σ') (hr' : Reachable cfg crypto ok σ')
    (hlt : (σ'.server cfg.serverCount).packed.length < 2 ^ 64) :
    (ledgerOf cfg σ').proposals = (ledgerOf cfg σ).proposals ∨
      ∃ id c, (ledgerOf cfg σ').proposals = insert (id, c) (ledgerOf cfg σ).proposals ∧
        ∀ c', (id, c') ∉ (ledgerOf cfg σ).proposals := by
  rcases hs.packed_cases with he | ⟨b, he⟩
  · left
    simp only [ledgerOf, he]
  · right
    refine ⟨b.header.id, b.content, ?_, ?_⟩
    · ext x
      simp [ledgerOf, he, or_and_right, exists_or, or_comm]
    · rintro c' ⟨pb, hpb, hx⟩
      obtain ⟨hid, -⟩ := Prod.mk.inj hx
      have hnd := (hr'.packOk cfg.serverCount).nodup hlt.le
      rw [he, List.map_append] at hnd
      exact (List.nodup_append.mp hnd).2.2 pb.header.id (List.mem_map_of_mem hpb) b.header.id
        (by simp) hid.symm

theorem proposed_of_packed {b : Block G} (h : Packed cfg σ b) :
    (b.header.id, b.content) ∈ (ledgerOf cfg σ).proposals := by
  obtain ⟨pb, hpb, hs⟩ := h
  exact ⟨pb, hpb, by rw [hs.1, hs.content_eq]⟩

/-! ## The data of the ledger in the system -/

/-- Votes were received, the copies of clients have a packed content, and a commit that is
broadcast was made by a server. -/
def ledgerFlow (cfg : Config) (crypto : Crypto G D) (σ : State G) : Flow G :=
  { (Flow.top : Flow G) with
    block := fun b => Packed cfg σ b ∧ ∀ k ∈ b.votes, Received σ k b.header.id
    ballot := fun k id _ => Received σ k id
    served := Packed cfg σ
    item := fun c item => (1 ≤ c ∧ c ≤ cfg.clientCount) ∧
      ∃ b, Packed cfg σ b ∧ item = toBytes (votedBlock crypto cfg.clientCount c b)
    final := fun id => ∃ m, 1 ≤ m ∧ m ≤ cfg.serverCount ∧ id ∈ (σ.server m).committedBlks }

theorem ledgerFlow_laws (σ : State G) : (ledgerFlow cfg crypto σ).Laws cfg crypto := by
  have hrec : (receivedFlow σ).Laws cfg crypto := receivedFlow_laws σ
  exact {
    dist := fun b now h => ⟨h.1.grows (b.grows_stampDist now), hrec.dist b now h.2⟩
    insert := fun b k v h hv => ⟨h.1.grows (b.grows_insertVote k v), hrec.insert b k v h.2 hv⟩
    sign := fun _ _ h => ⟨h.1.grows ⟨⟨rfl, rfl, rfl, rfl⟩, fun _ _ h => h⟩, h.2⟩
    commit := fun b now h _ => ⟨h.1.grows (b.grows_stampCommit now), h.2⟩
    recv := fun b now h _ => ⟨h.1.grows (b.grows_stampRecv now), h.2⟩
    offered := fun _ _ => trivial
    served := fun _ h => h.grows ⟨⟨rfl, rfl, rfl, rfl⟩, fun _ _ h => h⟩
    item := fun b _ h _ h1 h2 => ⟨⟨h1, h2⟩, b, h, rfl⟩ }

theorem Steps.committed_mem (hs : Steps cfg crypto σ a σ') {s id : ℕ}
    (h : id ∈ (σ.server s).committedBlks) : id ∈ (σ'.server s).committedBlks := by
  rcases hs.moves s with he | hm
  · rw [he]; exact h
  · rcases hm.commit_cases with ⟨hb, -⟩ | ⟨id', p, hb, -⟩
    · rw [hb]; exact h
    · rw [hb]; exact ExtTreeMap.mem_insert.mpr (.inr h)

theorem ledgerFlow_clean (h : Reachable cfg crypto honest σ) :
    (ledgerFlow cfg crypto σ).Clean cfg σ := by
  refine Flow.clean_of_reachable (ledgerFlow cfg crypto) ledgerFlow_laws ?_ ?_ h
  · intro σ a σ' _ hs
    exact { Flow.Le.refl _ with
      block := fun b hb => ⟨hb.1.steps hs, fun k hk => (hb.2 k hk).steps hs⟩
      ballot := fun k id v hv => hv.steps hs
      served := fun b hb => hb.steps hs
      item := fun c item hi => ⟨hi.1, hi.2.imp fun b hb => ⟨hb.1.steps hs, hb.2⟩⟩
      final := fun id hm => hm.imp fun m hm => ⟨hm.1, hm.2.1, hs.committed_mem hm.2.2⟩ }
  · intro σ a σ' hr hok hc hs
    exact {
      pack := fun s now order he => by
        subst he
        obtain ⟨rfl, hp⟩ := packed_newBlock hr hs
        exact ⟨⟨_, by rw [hp]; simp, .refl _⟩, fun k hk => by
          simp [Server.newBlock, Block.make] at hk⟩
      sync := fun _ _ _ _ _ _ => trivial
      merge := fun s now p b he hpop hb => by
        subst he
        cases hs with
        | server _ _ srv' out h1 h2 ha =>
          cases ha with
          | mergeCommit p' _ b₀ b' hpop' hb' hm =>
            rw [hpop] at hpop'
            cases hpop'
            rw [hb] at hb'
            cases hb'
            refine ⟨s, h1, h2, ?_⟩
            simp [Server.committedState, (Block.grows_mergeVotes hm).id_eq]
      vote := fun i now order call id item rest block v he hi hrpc _ hd hv => by
        subst he
        have hrec := received_of_handle hs hi hrpc hd
        refine ⟨hrec, fun _ _ => ?_⟩
        have hcall := (honestFlow_clean (fun _ _ h => h) hr).calls call (List.mem_of_getElem? hi)
        rw [hrpc] at hcall
        obtain ⟨b, hid, rfl⟩ := (honest_item (hcall.1 item (List.mem_cons_self ..)) hd).2 v hv
        rw [← hid] at hrec
        exact hrec
      get := fun i now order call hdr rest pb p b _ _ _ _ _ _ hb => hb.1
      foreign := fun target rpc he _ => by
        subst he
        exact absurd hok (by simp [honest]) }

/-! ## Ballots -/

theorem takenItem_cases (rpc : Rpc G) : rpc.takenItem = [] ∨ ∃ id item rest,
    rpc = .voteBlocks id (item :: rest) none ∧ rpc.takenItem = [(id, item)] := by
  unfold Rpc.takenItem
  split
  · exact .inr ⟨_, _, _, rfl, rfl⟩
  · exact .inl rfl

/-- A step takes up nothing, or one element of a request. -/
theorem Steps.received_cases (hs : Steps cfg crypto σ a σ') : σ'.received = σ.received ∨
    ∃ call ∈ σ.calls, ∃ id item rest, call.rpc = .voteBlocks id (item :: rest) none ∧
      σ'.received = σ.received ++ [(id, item)] := by
  cases hs with
  | handle i now order call srv' rpc' hi hh =>
    rcases takenItem_cases call.rpc with he | ⟨id, item, rest, hrpc, he⟩
    · exact .inl (by simp [he])
    · exact .inr ⟨call, List.mem_of_getElem? hi, id, item, rest, hrpc, by simp [he]⟩
  | ret i call θ _ _ _ _ hr | fail i call θ _ _ _ hr => cases hr <;> exact .inl rfl
  | server | client | foreign => exact .inl (by simp)
  | retOrphan | failOrphan => exact .inl rfl

theorem ballots_step (hr : Reachable cfg crypto honest σ) (hs : Steps cfg crypto σ a σ') :
    (ledgerOf cfg σ').ballots = (ledgerOf cfg σ).ballots ∨
      ∃ k id, (ledgerOf cfg σ').ballots = insert (k, id) (ledgerOf cfg σ).ballots ∧
        k ∈ electorate cfg ∧ ∃ c, (id, c) ∈ (ledgerOf cfg σ).proposals := by
  rcases hs.received_cases with he | ⟨call, hm, k, item, rest, hrpc, he⟩
  · left
    simp only [ledgerOf, Received, he]
  · have hitem := (ledgerFlow_clean hr).calls call hm
    rw [hrpc] at hitem
    obtain ⟨hk, b, hb, rfl⟩ := hitem.1 item (List.mem_cons_self ..)
    cases hd : fromBytes (toBytes (votedBlock crypto cfg.clientCount k b)) with
    | none =>
      left
      ext x
      simp only [ledgerOf, Received, he, Set.mem_ofPred_eq, List.mem_append, List.mem_singleton]
      constructor
      · rintro ⟨item, block, hx | hx, hd', hid⟩
        · exact ⟨item, block, hx, hd', hid⟩
        · cases hx
          rw [hd] at hd'
          cases hd'
      · rintro ⟨item, block, hx, h⟩
        exact ⟨item, block, .inl hx, h⟩
    | some block =>
      right
      obtain ⟨rfl, -⟩ := Flexbuffers.fromBytes_toBytes_some hd
      refine ⟨k, b.header.id, ?_, hk, _, proposed_of_packed hb⟩
      ext x
      simp only [ledgerOf, Received, he, Set.mem_ofPred_eq, List.mem_append, List.mem_singleton,
        Set.mem_insert_iff]
      constructor
      · rintro ⟨item, block, hx | hx, hd', hid⟩
        · exact .inr ⟨item, block, hx, hd', hid⟩
        · left
          obtain ⟨hx1, rfl⟩ := Prod.mk.inj hx
          rw [hd] at hd'
          cases hd'
          exact Prod.ext hx1 hid.symm
      · rintro (rfl | ⟨item, block, hx, h⟩)
        · exact ⟨_, _, .inr rfl, hd, rfl⟩
        · exact ⟨item, block, .inl hx, h⟩

/-! ## Commits -/

theorem proposals_unique (hr : Reachable cfg crypto ok σ)
    (hlt : (σ.server cfg.serverCount).packed.length < 2 ^ 64) {id : ℕ} {c c' : Content}
    (h : (id, c) ∈ (ledgerOf cfg σ).proposals) (h' : (id, c') ∈ (ledgerOf cfg σ).proposals) :
    c = c' := by
  obtain ⟨pb, hpb, he⟩ := h
  obtain ⟨pb', hpb', he'⟩ := h'
  obtain ⟨hid, rfl⟩ := Prod.mk.inj he
  obtain ⟨hid', rfl⟩ := Prod.mk.inj he'
  rw [packed_unique (hr.packOk _) hlt.le hpb hpb' (hid.symm.trans hid')]

/-- A committed block has the proposed content. -/
theorem mem_commits_iff (hr : Reachable cfg crypto ok σ)
    (hlt : (σ.server cfg.serverCount).packed.length < 2 ^ 64) {s id : ℕ} {c : Content} :
    (s, id, c) ∈ (ledgerOf cfg σ).commits ↔ 1 ≤ s ∧ s ≤ cfg.serverCount ∧
      id ∈ (σ.server s).committedBlks ∧ (id, c) ∈ (ledgerOf cfg σ).proposals := by
  have hcommitted : ∀ p, (σ.server s).committedBlks[id]? = some p →
      ∃ b, (σ.server s).heap[p]? = some b ∧ (id, b.content) ∈ (ledgerOf cfg σ).proposals := by
    intro p hp
    obtain ⟨b, hb, rfl⟩ := idAt_eq_some.mp ((hr.wf s).committed id p hp)
    exact ⟨b, hb, proposed_of_packed
      (((contentFlow_clean hr).server s).heap b (List.mem_of_getElem? hb))⟩
  constructor
  · rintro ⟨h1, h2, p, b, hp, hb, hc⟩
    dsimp only at h1 h2 hp hb hc
    obtain ⟨b', hb', hprop⟩ := hcommitted p hp
    rw [hb] at hb'
    cases hb'
    rw [hc]
    exact ⟨h1, h2, ExtTreeMap.mem_iff_isSome_getElem?.mpr (by rw [hp]; rfl), hprop⟩
  · rintro ⟨h1, h2, hm, hprop⟩
    obtain ⟨p, hp⟩ := Option.isSome_iff_exists.mp (ExtTreeMap.mem_iff_isSome_getElem?.mp hm)
    obtain ⟨b, hb, hprop'⟩ := hcommitted p hp
    exact ⟨h1, h2, p, b, hp, hb, proposals_unique hr hlt hprop hprop'⟩

/-- What a block is committed with was proposed before. -/
theorem proposed_of_committed (hr : Reachable cfg crypto ok σ) {s id : ℕ}
    (h : id ∈ (σ.server s).committedBlks) : ∃ c, (id, c) ∈ (ledgerOf cfg σ).proposals := by
  obtain ⟨p, hp⟩ := Option.isSome_iff_exists.mp (ExtTreeMap.mem_iff_isSome_getElem?.mp h)
  obtain ⟨b, hb, rfl⟩ := idAt_eq_some.mp ((hr.wf s).committed id p hp)
  exact ⟨_, proposed_of_packed (((contentFlow_clean hr).server s).heap b (List.mem_of_getElem? hb))⟩

theorem Reachable.places_le_one (hr : Reachable cfg crypto ok σ)
    (hlt : (σ.server cfg.serverCount).packed.length < 2 ^ 64) {s : ℕ} (h1 : 1 ≤ s)
    (h2 : s ≤ cfg.serverCount) (id : ℕ) : (σ.server s).places id ≤ 1 :=
  ((places_le_occ (hr.commitsOk s) id).trans ((hr.life s) id).1).trans
    (stored_count_le_one hr hlt h1 h2 id)

theorem not_committed_of_pending (hr : Reachable cfg crypto ok σ)
    (hlt : (σ.server cfg.serverCount).packed.length < 2 ^ 64) {s id : ℕ} (h1 : 1 ≤ s)
    (h2 : s ≤ cfg.serverCount)
    (h : id ∈ (σ.server s).pendingBlks ∨ id ∈ (σ.server s).mergingIds) :
    id ∉ (σ.server s).committedBlks := by
  intro hc
  have hle := hr.places_le_one hlt h1 h2 id
  unfold Server.places at hle
  rw [if_pos hc] at hle
  rcases h with h | h
  · rw [if_pos h] at hle
    omega
  · have := List.count_pos_iff.mpr h
    omega

/-- A thread commits nothing, or the block that it has popped. -/
theorem Server.Acts.committed_cases {s : ℕ} {srv srv' : Server G} {sa : ServerAction}
    {out : Option (ℕ × Rpc G)} (h : srv.Acts cfg crypto.merge s sa srv' out) :
    srv'.committedBlks = srv.committedBlks ∨ ∃ p b, srv.merge = .popped p ∧ srv.heap[p]? = some b ∧
      srv'.committedBlks = srv.committedBlks.insert b.header.id p := by
  cases h with
  | sendPop ch t items ids rest srv'' item ids' _ hq => cases hq <;> exact .inl rfl
  | mergeCommit p now b b' hpc hb hm =>
    refine .inr ⟨p, b, hpc, hb, ?_⟩
    rw [← (Block.grows_mergeVotes hm).id_eq]
    rfl
  | reap id now => rcases reap_eq cfg srv id now with h | ⟨-, h⟩ <;> rw [h] <;> exact .inl rfl
  | _ => exact .inl rfl

/-- A handler commits nothing, or a pending block of a commit that it receives. -/
theorem Server.Handles.committed_cases {s now : ℕ} {srv srv' : Server G} {rpc rpc' : Rpc G}
    (h : srv.Handles cfg s now rpc srv' rpc') :
    srv'.committedBlks = srv.committedBlks ∨ ∃ item rest block,
      rpc = .spBcastCommit (item :: rest) ∧ fromBytes item = some block ∧
      block.header.id ∈ srv.pendingBlks ∧
      srv'.committedBlks = srv.committedBlks.insert block.header.id srv.heap.length ∧
      srv'.heap = srv.heap ++ [block.stampRecv now] := by
  cases h with
  | relayVote item rest vote _ =>
    unfold relayVoteItem
    split
    · exact .inl rfl
    · exact .inl (records_recordVote ..).committed.1
  | spBcastCommit item rest block hd =>
    rcases spBcastCommitItem_eq cfg srv now block with ⟨-, h⟩ | ⟨hm, db, h⟩
    · rw [h]; exact .inl rfl
    · rw [h]; exact .inr ⟨item, rest, block, rfl, hd, hm, rfl, rfl⟩
  | pullItem id blockId p todo pbHdrs b _ hdrs hb hi =>
    rcases pullItem_eq hi with ⟨rfl, -⟩ | ⟨-, -, clients, rfl⟩ <;> exact .inl rfl
  | record => exact .inl (records_recordVote ..).committed.1
  | voteBlocks id item rest block _ current _ hi =>
    obtain ⟨queues, rfl⟩ := voteBlocksItem_eq hi
    exact .inl rfl
  | _ => exact .inl rfl

/-- What makes server `s` commit `id` in a state: it has merged the block, or a peer commits it. -/
def CommitCause (σ : State G) (s id : ℕ) : Prop :=
  (∃ p b, (σ.server s).merge = .popped p ∧ (σ.server s).heap[p]? = some b ∧ b.header.id = id) ∨
    id ∈ (σ.server s).pendingBlks ∧ ∃ call ∈ σ.calls, ∃ item rest block,
      call.rpc = .spBcastCommit (item :: rest) ∧ fromBytes item = some block ∧ block.header.id = id

theorem Resumes.committed {response : Option (Rpc G)} {θ : Thread} (h : Resumes σ response θ σ')
    (s : ℕ) : (σ'.server s).committedBlks = (σ.server s).committedBlks := by
  cases h with
  | send s' ch srv' h =>
    by_cases hs : s = s'
    · subst hs
      rcases resumeSend_eq h with ⟨_, _, _, -, rfl⟩ | ⟨_, _, _, -, rfl⟩ <;> simp [Server.setSend]
    · simp [hs]
  | pull | vote => rfl

theorem Steps.committed_cases (hs : Steps cfg crypto σ a σ') :
    (∀ s, (σ'.server s).committedBlks = (σ.server s).committedBlks) ∨ ∃ s id p,
      (∀ t, (σ'.server t).committedBlks =
        if t = s then (σ.server s).committedBlks.insert id p else (σ.server t).committedBlks) ∧
      CommitCause σ s id := by
  cases hs with
  | server s sa srv' out _ _ ha =>
    rcases ha.committed_cases with he | ⟨p, b, hpop, hb, he⟩
    · left
      intro t
      by_cases ht : t = s
      · subst ht; simp [he]
      · simp [ht]
    · refine .inr ⟨s, b.header.id, p, fun t => ?_, .inl ⟨p, b, hpop, hb, rfl⟩⟩
      by_cases ht : t = s
      · subst ht; simp [he]
      · simp [ht]
  | handle i now order call srv' rpc' hi hh =>
    rcases hh.committed_cases with he | ⟨item, rest, block, hrpc, hd, hm, he, -⟩
    · left
      intro t
      by_cases ht : t = call.target
      · subst ht; simp [he]
      · simp [ht]
    · refine .inr ⟨call.target, block.header.id, (σ.server call.target).heap.length, fun t => ?_,
        .inr ⟨hm, call, List.mem_of_getElem? hi, item, rest, block, hrpc, hd, rfl⟩⟩
      by_cases ht : t = call.target
      · subst ht; simp [he]
      · simp [ht]
  | ret i call θ _ _ _ _ hr | fail i call θ _ _ _ hr => exact .inl fun s => hr.committed s
  | client | foreign => exact .inl fun s => by simp
  | retOrphan | failOrphan => exact .inl fun s => rfl

/-- All voters have cast a ballot on a block that a server is about to commit, or a server has
committed it. -/
theorem CommitCause.ballots (hr : Reachable cfg crypto honest σ) {s id : ℕ}
    (h : CommitCause σ s id) : (∀ k ∈ electorate cfg, (k, id) ∈ (ledgerOf cfg σ).ballots) ∨
      ∃ m, 1 ≤ m ∧ m ≤ cfg.serverCount ∧ id ∈ (σ.server m).committedBlks := by
  rcases h with ⟨p, b, hpop, hb, rfl⟩ | ⟨-, call, hm, item, rest, block, hrpc, hd, rfl⟩
  · left
    intro k hk
    obtain ⟨b', hb', hv, hn⟩ := merging_votes hr (.inr hpop)
    rw [hb] at hb'
    cases hb'
    have hkeys := Tally.mem_iff_of_size_le (fun k' hk' => by
      obtain ⟨v, hkv⟩ := Option.isSome_iff_exists.mp (ExtTreeMap.mem_iff_isSome_getElem?.mp hk')
      exact ⟨(hv k' v hkv).1, (hv k' v hkv).2.1⟩) hn k
    exact (((ledgerFlow_clean hr).server s).heap b (List.mem_of_getElem? hb)).2 k (hkeys.mpr hk)
  · right
    have hwire := (ledgerFlow_clean hr).calls call hm
    rw [hrpc] at hwire
    obtain ⟨b, -, -, hfinal, rfl⟩ := hwire item (List.mem_cons_self ..)
    obtain ⟨rfl, -⟩ := Flexbuffers.fromBytes_toBytes_some hd
    exact hfinal

theorem commits_step (hr : Reachable cfg crypto honest σ) (hs : Steps cfg crypto σ a σ')
    (hr' : Reachable cfg crypto honest σ')
    (hlt : (σ'.server cfg.serverCount).packed.length < 2 ^ 64) :
    (ledgerOf cfg σ').commits = (ledgerOf cfg σ).commits ∨
      ∃ s id c, (ledgerOf cfg σ').commits = insert (s, id, c) (ledgerOf cfg σ).commits ∧
        (∀ c', (s, id, c') ∉ (ledgerOf cfg σ).commits) ∧
        ((id, c) ∈ (ledgerOf cfg σ').proposals ∧
            (∀ k ∈ electorate cfg, (k, id) ∈ (ledgerOf cfg σ').ballots) ∨
          ∃ m, (m, id, c) ∈ (ledgerOf cfg σ).commits) := by
  have hlt₀ : (σ.server cfg.serverCount).packed.length < 2 ^ 64 :=
    ((hs.later cfg.serverCount).packed.length_le).trans_lt hlt
  have hprop : ∀ t id c, id ∈ (σ.server t).committedBlks →
      ((id, c) ∈ (ledgerOf cfg σ').proposals ↔ (id, c) ∈ (ledgerOf cfg σ).proposals) := by
    intro t id c hm
    have hsub : (ledgerOf cfg σ).proposals ⊆ (ledgerOf cfg σ').proposals :=
      fun x ⟨pb, hpb, he⟩ => ⟨pb, (hs.later cfg.serverCount).packed.subset hpb, he⟩
    refine ⟨fun h => ?_, fun h => hsub h⟩
    obtain ⟨c₀, hc₀⟩ := proposed_of_committed hr hm
    rw [proposals_unique hr' hlt h (hsub hc₀)]
    exact hc₀
  rcases hs.committed_cases with he | ⟨s, id, p, he, hcause⟩
  · left
    ext ⟨t, j, c⟩
    rw [mem_commits_iff hr' hlt, mem_commits_iff hr hlt₀, he t]
    exact and_congr_right fun _ => and_congr_right fun _ => and_congr_right fun hm => hprop t j c hm
  · have hmem : id ∈ (σ'.server s).committedBlks := by
      rw [he s, if_pos rfl]
      exact ExtTreeMap.mem_insert_self
    obtain ⟨c, hc⟩ := proposed_of_committed hr' hmem
    have hcommit : ∀ t j, j ∈ (σ'.server t).committedBlks ↔
        t = s ∧ j = id ∨ j ∈ (σ.server t).committedBlks := by
      intro t j
      rw [he t]
      by_cases ht : t = s
      · subst ht
        rw [if_pos rfl, ExtTreeMap.mem_insert, Nat.compare_eq_eq]
        simp [eq_comm (a := j)]
      · simp [ht]
    by_cases hrange : 1 ≤ s ∧ s ≤ cfg.serverCount
    · obtain ⟨h1, h2⟩ := hrange
      have hnew : id ∉ (σ.server s).committedBlks := by
        refine not_committed_of_pending hr hlt₀ h1 h2 ?_
        rcases hcause with ⟨q, b, hpop, hb, rfl⟩ | ⟨hpend, -⟩
        · right
          rw [mergingIds_popped hpop (idAt_eq_some.mpr ⟨b, hb, rfl⟩)]
          exact List.mem_cons_self ..
        · exact .inl hpend
      refine .inr ⟨s, id, c, ?_, fun c' h => hnew ((mem_commits_iff hr hlt₀).mp h).2.2.1, ?_⟩
      · ext ⟨t, j, d⟩
        rw [mem_commits_iff hr' hlt, Set.mem_insert_iff, mem_commits_iff hr hlt₀, hcommit t j]
        constructor
        · rintro ⟨ht1, ht2, ⟨rfl, rfl⟩ | hm, hd⟩
          · rw [proposals_unique hr' hlt hd hc]
            exact .inl rfl
          · exact .inr ⟨ht1, ht2, hm, (hprop t j d hm).mp hd⟩
        · rintro (he | ⟨ht1, ht2, hm, hd⟩)
          · obtain ⟨rfl, hjd⟩ := Prod.mk.inj he
            obtain ⟨rfl, rfl⟩ := Prod.mk.inj hjd
            exact ⟨h1, h2, .inl ⟨rfl, rfl⟩, hc⟩
          · exact ⟨ht1, ht2, .inr hm, (hprop t j d hm).mpr hd⟩
      · rcases hcause.ballots hr with hall | ⟨m, hm1, hm2, hm⟩
        · exact .inl ⟨hc, fun k hk => Received.steps hs (hall k hk)⟩
        · exact .inr ⟨m, (mem_commits_iff hr hlt₀).mpr ⟨hm1, hm2, hm, (hprop m id c hm).mp hc⟩⟩
    · left
      ext ⟨t, j, d⟩
      rw [mem_commits_iff hr' hlt, mem_commits_iff hr hlt₀, hcommit t j]
      refine and_congr_right fun ht1 => and_congr_right fun ht2 => ⟨?_, fun h => ⟨.inr h.1, (hprop t j d h.1).mpr h.2⟩⟩
      rintro ⟨⟨rfl, -⟩ | hm, hd⟩
      · exact absurd ⟨ht1, ht2⟩ hrange
      · exact ⟨hm, (hprop t j d hm).mp hd⟩

/-! ## The refinement -/

theorem ledger_step (hr : Reachable cfg crypto honest σ) (hs : Steps cfg crypto σ a σ')
    (hr' : Reachable cfg crypto honest σ')
    (hlt : (σ'.server cfg.serverCount).packed.length < 2 ^ 64) :
    (ledgerOf cfg σ).Reaches (electorate cfg) (ledgerOf cfg σ') := by
  have hpropose : (ledgerOf cfg σ).Reaches (electorate cfg)
      { ledgerOf cfg σ with proposals := (ledgerOf cfg σ').proposals } :=
    Ledger.reaches_propose (proposals_step hs hr' hlt)
  have hvote : Ledger.Reaches (electorate cfg)
      { ledgerOf cfg σ with proposals := (ledgerOf cfg σ').proposals }
      { ledgerOf cfg σ' with commits := (ledgerOf cfg σ).commits } := by
    refine Ledger.reaches_vote ((ballots_step hr hs).imp_right ?_)
    rintro ⟨k, id, he, hk, c, hc⟩
    exact ⟨k, id, he, hk, c, hpropose.grows.1 hc⟩
  have hcommit : Ledger.Reaches (electorate cfg)
      { ledgerOf cfg σ' with commits := (ledgerOf cfg σ).commits } (ledgerOf cfg σ') :=
    Ledger.reaches_commit (commits_step hr hs hr' hlt)
  exact (hpropose.trans hvote).trans hcommit

theorem Reaches.ledger (hr : Reachable cfg crypto honest σ) (h : Reaches cfg crypto honest σ σ')
    (hlt : (σ'.server cfg.serverCount).packed.length < 2 ^ 64) :
    (ledgerOf cfg σ).Reaches (electorate cfg) (ledgerOf cfg σ') := by
  induction h with
  | refl => exact .refl
  | @next σ₁ σ₂ a h₁ hok hs ih =>
    have hst := steps_of_step hs
    have hr₁ : Reachable cfg crypto honest σ₁ := Run.trans hr h₁
    have hle := (hst.later cfg.serverCount).packed.length_le
    exact (ih (by omega)).trans (ledger_step hr₁ hst (.next a hr₁ hok hs) hlt)

/-- A run of the system is a run of the ledger, as long as the ids of packed blocks are distinct. -/
theorem ledger_refinement (cfg : Config) (crypto : Crypto G D) (σ σ' : State G)
    (hr : Reachable cfg crypto honest σ) (h : Reaches cfg crypto honest σ σ')
    (hlt : (σ'.server cfg.serverCount).packed.length < 2 ^ 64) :
    ledgerOf cfg (State.init cfg : State G) = .empty ∧
      (ledgerOf cfg σ).Reaches (electorate cfg) (ledgerOf cfg σ') :=
  ⟨ledgerOf_init cfg, h.ledger hr hlt⟩

/-- The second half of a round: a block that is pending on the packing server, and that the ledger
has as a proposal only, is committed by both servers. -/
theorem ledger_refinement_round : ∃ σ σ' : State Point, ∃ c,
    (2000000, c) ∈ (ledgerOf sampleConfig σ).proposals ∧
    (2, 2000000, c) ∉ (ledgerOf sampleConfig σ).commits ∧
    (1, 2000000, c) ∈ (ledgerOf sampleConfig σ').commits ∧
    (2, 2000000, c) ∈ (ledgerOf sampleConfig σ').commits ∧
    (ledgerOf sampleConfig σ).Reaches (electorate sampleConfig) (ledgerOf sampleConfig σ') := by
  obtain ⟨σ, hr, hσ⟩ := exists_reachable sampleConfig Crypto.symbolic honest (Script.round.take 5)
    (fun σ => !(σ.server 2).committedBlks.contains 2000000 &&
      (σ.server 2).packed.length == 1 &&
      (exec (step sampleConfig Crypto.symbolic) honest σ (Script.round.drop 5)).any fun σ' =>
        (σ'.server 2).packed.length == 1 && (σ'.server 1).committedBlks.contains 2000000 &&
          (σ'.server 2).committedBlks.contains 2000000) (by decide +kernel)
  simp only [Bool.and_eq_true, beq_iff_eq, Bool.not_eq_true', ← Bool.not_eq_true,
    ExtTreeMap.contains_iff_mem] at hσ
  obtain ⟨⟨hno, hlen⟩, hex⟩ := hσ
  obtain ⟨σ', h, hσ'⟩ := Run.exists_of_exec (fun _ _ h => h) hex
  simp only [Bool.and_eq_true, beq_iff_eq, ExtTreeMap.contains_iff_mem] at hσ'
  obtain ⟨⟨hlen', h1⟩, h2⟩ := hσ'
  have hr' : Reachable sampleConfig Crypto.symbolic honest σ' := Run.trans hr h
  have hlt' : (σ'.server sampleConfig.serverCount).packed.length < 2 ^ 64 := by
    simp [sampleConfig, hlen']
  have hlt : (σ.server sampleConfig.serverCount).packed.length < 2 ^ 64 := by
    simp [sampleConfig, hlen]
  obtain ⟨c, hc⟩ := proposed_of_committed hr' h1
  have hrun := (ledger_refinement sampleConfig Crypto.symbolic σ σ' hr h hlt').2
  have hsame : (σ.server 2).packed = (σ'.server 2).packed :=
    (Reaches.later h 2).packed.eq_of_length (by rw [hlen, hlen'])
  refine ⟨σ, σ', c, ?_, fun hm => hno ((mem_commits_iff hr hlt).mp hm).2.2.1,
    (mem_commits_iff hr' hlt').mpr ⟨by decide, by decide, h1, hc⟩,
    (mem_commits_iff hr' hlt').mpr ⟨by decide, by decide, h2, hc⟩, hrun⟩
  obtain ⟨pb, hpb, he⟩ := hc
  exact ⟨pb, hsame ▸ hpb, he⟩

/-- What any two servers have committed under an id has the same content, and every client has
voted for it, also where the commit was only received. -/
theorem commits_unanimous (cfg : Config) (crypto : Crypto G D) (σ : State G)
    (h : Reachable cfg crypto honest σ)
    (hlt : (σ.server cfg.serverCount).packed.length < 2 ^ 64) (s t id p q : ℕ) (b b' : Block G)
    (hs₁ : 1 ≤ s) (hs₂ : s ≤ cfg.serverCount) (ht₁ : 1 ≤ t) (ht₂ : t ≤ cfg.serverCount)
    (hp : (σ.server s).committedBlks[id]? = some p) (hb : (σ.server s).heap[p]? = some b)
    (hq : (σ.server t).committedBlks[id]? = some q) (hb' : (σ.server t).heap[q]? = some b') :
    b.content = b'.content ∧ (∃ pb ∈ (σ.server cfg.serverCount).packed,
      pb.header.id = id ∧ pb.content = b.content) ∧
      ∀ k, 1 ≤ k → k ≤ cfg.clientCount → Received σ k id := by
  have hrun := Reaches.ledger .refl h hlt
  rw [ledgerOf_init] at hrun
  have hok := hrun.ok Ledger.ok_empty
  have hs : (s, id, b.content) ∈ (ledgerOf cfg σ).commits := ⟨hs₁, hs₂, p, b, hp, hb, rfl⟩
  have ht : (t, id, b'.content) ∈ (ledgerOf cfg σ).commits := ⟨ht₁, ht₂, q, b', hq, hb', rfl⟩
  obtain ⟨pb, hpb, he⟩ := hok.backed s id _ hs
  obtain ⟨hid, hc⟩ := Prod.mk.inj he
  exact ⟨hok.agreement hs ht, ⟨pb, hpb, hid.symm, hc.symm⟩,
    fun k h1 h2 => hok.unanimous s id _ hs k ⟨h1, h2⟩⟩

theorem commits_unanimous_round : ∃ (σ : State Point) (p q : ℕ) (b b' : Block Point),
    (σ.server 1).committedBlks[2000000]? = some p ∧ (σ.server 1).heap[p]? = some b ∧
    (σ.server 2).committedBlks[2000000]? = some q ∧ (σ.server 2).heap[q]? = some b' ∧
    b.content = b'.content ∧ Received σ 1 2000000 ∧ Received σ 2 2000000 := by
  obtain ⟨σ, hr, hσ⟩ := exists_reachable sampleConfig Crypto.symbolic honest Script.round
    (fun σ => (σ.server 2).packed.length == 1 &&
      ((σ.server 1).committedBlks[2000000]?).any (fun p => ((σ.server 1).heap[p]?).isSome) &&
      ((σ.server 2).committedBlks[2000000]?).any (fun q => ((σ.server 2).heap[q]?).isSome))
    (by decide +kernel)
  simp only [Bool.and_eq_true, beq_iff_eq, Option.any_eq_true, Option.isSome_iff_exists] at hσ
  obtain ⟨⟨hlen, p, hp, b, hb⟩, q, hq, b', hb'⟩ := hσ
  obtain ⟨hc, -, hall⟩ := commits_unanimous sampleConfig Crypto.symbolic σ hr
    (by simp [sampleConfig, hlen]) 1 2 2000000 p q b b' (by decide) (by decide) (by decide)
    (by decide) hp hb hq hb'
  exact ⟨σ, p, q, b, b', hp, hb, hq, hb', hc, hall 1 (by decide) (by decide),
    hall 2 (by decide) (by decide)⟩

end TomChain
