import TomChain.Server.Serve
import TomChain.System.Reach
import TomChain.System.Store

/-!
# Repeated and late requests

Two handlers store blocks that peers send. `RelayBlock` puts a block into `pending_blks` whatever is
known of its id: a copy that comes again replaces the pending block with its votes, one that comes
late brings a finished block back. `SPBcastCommit` looks at what is pending: only the first commit
of a block does anything.
-/

namespace TomChain

open Std (ExtTreeMap ExtTreeSet)
open Server
open Flexbuffers (Flex toBytes fromBytes)

variable {G D : Type} {cfg : Config} {s : ℕ} {srv srv' : Server G}

structure Batch (G : Type) where
  items : List (Flex G)
  blocks : List (Block G)
  decodes : items.map fromBytes = blocks.map some

namespace Server

/-! ## Relayed blocks -/

def lastOf (blocks : List (Block G)) (id : ℕ) : Option (Block G) :=
  blocks.reverse.find? fun b => b.header.id = id

theorem lastOf_concat (blocks : List (Block G)) (b : Block G) (id : ℕ) :
    lastOf (blocks ++ [b]) id = if b.header.id = id then some b else lastOf blocks id := by
  by_cases h : b.header.id = id <;> simp [lastOf, h]

theorem exists_lastOf {blocks : List (Block G)} {b : Block G} (h : b ∈ blocks) :
    ∃ last, lastOf blocks b.header.id = some last := by
  cases hl : lastOf blocks b.header.id with
  | some last => exact ⟨last, rfl⟩
  | none =>
    rw [lastOf, List.find?_eq_none] at hl
    exact absurd (decide_eq_true rfl) (hl b (List.mem_reverse.mpr h))

theorem mem_of_lastOf {blocks : List (Block G)} {b : Block G} {id : ℕ}
    (h : lastOf blocks id = some b) : b ∈ blocks ∧ b.header.id = id := by
  refine ⟨List.mem_reverse.mp (List.mem_of_find?_eq_some h), ?_⟩
  simpa using List.find?_some h

/-- After a batch of relayed blocks, its last block with an id is the pending one. -/
theorem pendsAs_relayed (srv : Server G) (blocks : List (Block G)) {id : ℕ} {last : Block G}
    (h : lastOf blocks id = some last) : (blocks.foldl relayBlockItem srv).PendsAs id last := by
  induction blocks using List.reverseRecOn with
  | nil => cases h
  | append_singleton blocks b ih =>
    rw [lastOf_concat] at h
    rw [List.foldl_concat]
    split at h
    · rename_i hid
      cases h
      refine ⟨(blocks.foldl relayBlockItem srv).heap.length, ?_, ?_⟩
      · simp [relayBlockItem, storePending, alloc, hid]
      · simp [relayBlockItem, storePending, alloc]
    · rename_i hid
      obtain ⟨p, hp, hb⟩ := ih h
      have hlt : p < (blocks.foldl relayBlockItem srv).heap.length :=
        (List.getElem?_eq_some_iff.mp hb).1
      refine ⟨p, ?_, ?_⟩
      · simp only [relayBlockItem, storePending, alloc, ExtTreeMap.getElem?_insert,
          Nat.compare_eq_eq, if_neg hid, hp]
      · simp only [relayBlockItem, storePending, alloc]
        rw [List.getElem?_append_left hlt, hb]

/-- The server has had the block and is done with it, or has it with the merging thread. -/
def Passed (srv : Server G) (id : ℕ) : Prop :=
  (∃ p ∈ srv.pbMergeQueue, srv.idAt p = some id) ∨ id ∈ srv.committedBlks ∨ id ∈ srv.deadBlock

/-- What `RelayBlock` must not do to the blocks the server knows. -/
structure Harmless (srv : Server G) (blocks : List (Block G)) (srv' : Server G) : Prop where
  votes : ∀ block ∈ blocks, ∀ b, srv.PendsAs block.header.id b →
    ∃ b', srv'.PendsAs block.header.id b' ∧ ∀ (k : ℕ) v, b.votes[k]? = some v → b'.votes[k]? = some v
  passed : ∀ block ∈ blocks, srv.Passed block.header.id → block.header.id ∈ srv'.pendingBlks →
    block.header.id ∈ srv.pendingBlks

/-- A `RelayBlock` request is harmless exactly if, for each block that is pending, the last copy in
the request has all its votes, and no block is in the request that has left `pending_blks`. -/
theorem relayBlock_harmless_iff (batch : Batch G) (hs : Serves cfg s srv (.relayBlock batch.items) srv') :
    srv.Harmless batch.blocks srv' ↔
      (∀ id b last, srv.PendsAs id b → lastOf batch.blocks id = some last →
        ∀ (k : ℕ) v, b.votes[k]? = some v → last.votes[k]? = some v) ∧
      ∀ block ∈ batch.blocks, srv.Passed block.header.id → block.header.id ∈ srv.pendingBlks := by
  obtain rfl := (serves_relayBlock batch.decodes).mp hs
  constructor
  · rintro ⟨hvotes, hpassed⟩
    constructor
    · intro id b last hb hl k v hv
      obtain ⟨hm, rfl⟩ := mem_of_lastOf hl
      obtain ⟨b', hb', hkeep⟩ := hvotes last hm b hb
      rw [(pendsAs_relayed srv batch.blocks hl).unique hb']
      exact hkeep k v hv
    · intro block hm hp
      obtain ⟨last, hl⟩ := exists_lastOf hm
      exact hpassed block hm hp (pendsAs_relayed srv batch.blocks hl).mem
  · rintro ⟨hvotes, hpassed⟩
    constructor
    · intro block hm b hb
      obtain ⟨last, hl⟩ := exists_lastOf hm
      exact ⟨last, pendsAs_relayed srv batch.blocks hl, hvotes _ b last hb hl⟩
    · intro block hm hp _
      exact hpassed block hm hp

/-- A request with a block without its votes and then with all of them. -/
def relayedTwice (b : Block G) (hid : ∀ k ∈ b.votes, k ≤ Decimal.intMax) : Batch G where
  items := [toBytes { b with votes := ∅ }, toBytes b]
  blocks := [{ b with votes := ∅, tssSig := none }, { b with tssSig := none }]
  decodes := by
    rw [List.map_cons, List.map_singleton, Flexbuffers.fromBytes_toBytes b hid,
      Flexbuffers.fromBytes_toBytes _ (by simp)]
    rfl

/-- After the round, server 2 packs a second block, and client 1 votes on it. -/
def secondBlock : List (Action Point) :=
  ([.server 2 .packEnd, .server 2 .packCheck, .server 2 (.packGenerate [⟨2, 2, 3, 0, 4⟩]),
    .server 2 (.packBegin 50 [2]), .server 2 .packPush, .server 2 .packInsert] :
      List (Action Point)) ++
    Script.relay 2 .block 1 ++ Script.sync ++
    ([.client 1 (.pull []), .handle 0 100 [(2000001, 1)], .handle 0 100 [], .ret 0,
      .client 1 (.pull []), .handle 0 100 [(2000001, 1)], .handle 0 100 [], .ret 0,
      .client 1 (.pull [2000001]), .handle 0 100 [], .ret 0, .client 1 (.pull []), .ret 0] :
      List (Action Point)) ++ Script.vote 1

/-- Server 1 has committed a block, and a second one is pending there with a vote. A request that
repeats the second block is harmless, since the last copy has the vote. -/
theorem relayBlock_harmless_again :
    ∃ σ b, ∃ batch : Batch Point, ∃ srv', Reachable sampleConfig Crypto.symbolic honest σ ∧
      2000000 ∈ (σ.server 1).committedBlks ∧ (σ.server 1).PendsAs 2000001 b ∧ 1 ∈ b.votes ∧
      batch.blocks.map (fun block => block.header.id) = [2000001, 2000001] ∧
      Serves sampleConfig 1 (σ.server 1) (.relayBlock batch.items) srv' ∧
      (σ.server 1).Harmless batch.blocks srv' := by
  obtain ⟨σ, hr, hσ⟩ := exists_reachable sampleConfig Crypto.symbolic honest
    (Script.round ++ secondBlock)
    (fun σ => decide (2000000 ∈ (σ.server 1).committedBlks) &&
      (σ.server 1).pendingBlks[2000001]? = some 1 &&
      ((σ.server 1).heap[1]?).any fun b => b.header.id == 2000001 && b.votes.keys == [1])
    (by decide +kernel)
  simp only [Bool.and_eq_true, decide_eq_true_iff, Option.any_eq_true, beq_iff_eq] at hσ
  obtain ⟨⟨hc, hp⟩, b, hb, hid, hkeys⟩ := hσ
  have hmem : ∀ k, k ∈ b.votes ↔ k = 1 := fun k => by
    rw [← ExtTreeMap.mem_keys, hkeys, List.mem_singleton]
  have hpends : (σ.server 1).PendsAs 2000001 b := ⟨1, hp, hb⟩
  have hmax : ∀ k ∈ b.votes, k ≤ Decimal.intMax := fun k hk => by
    rw [(hmem k).mp hk]
    decide
  have hs : Serves sampleConfig 1 (σ.server 1) (.relayBlock (relayedTwice b hmax).items) _ :=
    (serves_relayBlock (relayedTwice b hmax).decodes).mpr rfl
  have hids : ∀ block ∈ (relayedTwice b hmax).blocks, block.header.id = 2000001 := by
    simp [relayedTwice, hid]
  refine ⟨σ, b, _, _, hr, hc, hpends, (hmem 1).mpr rfl, by simp [relayedTwice, hid], hs,
    (relayBlock_harmless_iff _ hs).mpr ⟨?_, ?_⟩⟩
  · intro id b' last hb' hl k v hv
    obtain ⟨hm, hlast⟩ := mem_of_lastOf hl
    obtain rfl : id = 2000001 := hlast.symm.trans (hids last hm)
    rw [← hpends.unique hb'] at hv
    simp only [lastOf, relayedTwice, List.reverse_cons, List.reverse_nil, List.nil_append,
      List.cons_append, List.find?_cons, hid, decide_true] at hl
    cases hl
    exact hv
  · intro block hm _
    rw [hids block hm]
    exact hpends.mem

/-- The block with id 2000000 as the packing thread made it, in a request of its own. -/
def relayedAgain : Batch Point where
  items := [toBytes (Block.make 2000000 0xDEADBEEF 50)]
  blocks := [Block.make 2000000 0xDEADBEEF 50]
  decodes := by
    rw [List.map_singleton, Flexbuffers.fromBytes_toBytes _ (by simp [Block.make])]
    rfl

/-- A pending block loses its vote when it is relayed again, and a committed block is pending
again. -/
theorem exists_harmful_relayBlock :
    (∃ σ b srv', Reachable sampleConfig Crypto.symbolic unguarded σ ∧
      Serves sampleConfig 1 (σ.server 1) (.relayBlock relayedAgain.items) srv' ∧
      (σ.server 1).PendsAs 2000000 b ∧ 1 ∈ b.votes ∧
      srv'.PendsAs 2000000 (Block.make 2000000 0xDEADBEEF 50) ∧
      ¬ (σ.server 1).Harmless relayedAgain.blocks srv') ∧
    ∃ σ srv', Reachable sampleConfig Crypto.symbolic unguarded σ ∧
      Serves sampleConfig 1 (σ.server 1) (.relayBlock relayedAgain.items) srv' ∧
      2000000 ∈ (σ.server 1).committedBlks ∧ 2000000 ∉ (σ.server 1).pendingBlks ∧
      2000000 ∈ srv'.pendingBlks ∧ ¬ (σ.server 1).Harmless relayedAgain.blocks srv' := by
  have hafter : ∀ srv : Server Point, (relayedAgain.blocks.foldl relayBlockItem srv).PendsAs 2000000
      (Block.make 2000000 0xDEADBEEF 50) := fun srv => pendsAs_relayed srv _ rfl
  constructor
  · obtain ⟨σ, hr, hσ⟩ := exists_reachable sampleConfig Crypto.symbolic unguarded
      (List.flatten [Script.packBlock, [.server 2 .packInsert], Script.relay 2 .block 1, Script.sync,
        Script.pull 1 100, Script.vote 1])
      (fun σ => (σ.server 1).pendingBlks[2000000]? = some 0 &&
        ((σ.server 1).heap[0]?).any fun b => b.votes.contains 1) (by decide +kernel)
    simp only [Bool.and_eq_true, decide_eq_true_iff, Option.any_eq_true] at hσ
    obtain ⟨hp, b, hb, hv⟩ := hσ
    have hpends : (σ.server 1).PendsAs 2000000 b := ⟨0, hp, hb⟩
    refine ⟨σ, b, _, hr, (serves_relayBlock relayedAgain.decodes).mpr rfl, hpends, hv, hafter _, ?_⟩
    intro h
    obtain ⟨v, hv⟩ := Option.isSome_iff_exists.mp (ExtTreeMap.mem_iff_isSome_getElem?.mp hv)
    obtain ⟨b', hb', hkeep⟩ := h.votes _ (List.mem_singleton_self _) b hpends
    have hlost := hkeep 1 v hv
    rw [hb'.unique (hafter _)] at hlost
    simp [Block.make] at hlost
  · obtain ⟨σ, hr, hσ⟩ := exists_reachable sampleConfig Crypto.symbolic unguarded Script.round
      (fun σ => decide (2000000 ∈ (σ.server 1).committedBlks) &&
        decide (2000000 ∉ (σ.server 1).pendingBlks)) (by decide +kernel)
    simp only [Bool.and_eq_true, decide_eq_true_iff] at hσ
    obtain ⟨hc, hp⟩ := hσ
    refine ⟨σ, _, hr, (serves_relayBlock relayedAgain.decodes).mpr rfl, hc, hp, (hafter _).mem, ?_⟩
    intro h
    exact hp (h.passed _ (List.mem_singleton_self _) (.inr (.inl hc)) (hafter _).mem)

/-! ## Broadcast commits -/

def commitAll (cfg : Config) (srv : Server G) (xs : List (ℕ × Block G)) : Server G :=
  xs.foldl (fun srv x => srv.spBcastCommitItem cfg x.1 x.2) srv

def commitIds (xs : List (ℕ × Block G)) : List ℕ := xs.map fun x => x.2.header.id

theorem commitAll_append (xs ys : List (ℕ × Block G)) :
    commitAll cfg srv (xs ++ ys) = commitAll cfg (commitAll cfg srv xs) ys :=
  List.foldl_append

/-- `srv'` is `srv` with the pending blocks of `ids` committed. -/
structure Committed (cfg : Config) (srv : Server G) (ids : List ℕ) (srv' : Server G) : Prop where
  pending : ∀ id : ℕ, srv'.pendingBlks[id]? = if id ∈ ids then none else srv.pendingBlks[id]?
  committed : ∀ id : ℕ, id ∈ srv'.committedBlks ↔
    id ∈ srv.committedBlks ∨ id ∈ srv.pendingBlks ∧ id ∈ ids
  db : ∀ key : Decimal.Text, key ∈ srv'.db ↔
    key ∈ srv.db ∨ cfg.useRocksdb = true ∧ ∃ id ∈ srv.pendingBlks, id ∈ ids ∧ key = blockName id
  sameCommitted : ∀ id : ℕ, ¬ (id ∈ srv.pendingBlks ∧ id ∈ ids) →
    srv'.committedBlks[id]? = srv.committedBlks[id]?
  sameDb : ∀ key : Decimal.Text, (∀ id ∈ srv.pendingBlks, id ∈ ids → key ≠ blockName id) →
    srv'.db[key]? = srv.db[key]?
  heap : srv.heap <+: srv'.heap

theorem Committed.mem_pending {ids : List ℕ} (h : Committed cfg srv ids srv') (id : ℕ) :
    id ∈ srv'.pendingBlks ↔ id ∈ srv.pendingBlks ∧ id ∉ ids := by
  rw [ExtTreeMap.mem_iff_isSome_getElem?, h.pending, ExtTreeMap.mem_iff_isSome_getElem?]
  by_cases hm : id ∈ ids <;> simp [hm]

theorem Committed.refl (srv : Server G) : Committed cfg srv [] srv where
  pending _ := by simp
  committed _ := by simp
  db _ := by simp
  sameCommitted _ _ := rfl
  sameDb _ _ := rfl
  heap := List.prefix_rfl

/-- Only a commit of a pending block does anything. -/
theorem spBcastCommitItem_of_not_mem {now : ℕ} {block : Block G}
    (h : block.header.id ∉ srv.pendingBlks) : srv.spBcastCommitItem cfg now block = srv := by
  rcases spBcastCommitItem_eq cfg srv now block with ⟨-, he⟩ | ⟨hm, -⟩
  · exact he
  · exact absurd hm h

theorem Committed.skip {ids : List ℕ} (h : Committed cfg srv ids srv') {id : ℕ}
    (hm : id ∉ srv'.pendingBlks) : Committed cfg srv (ids ++ [id]) srv' := by
  have hold : ∀ j, j ∈ srv.pendingBlks ∧ j ∈ ids ++ [id] ↔ j ∈ srv.pendingBlks ∧ j ∈ ids := by
    intro j
    rw [List.mem_append, List.mem_singleton]
    constructor
    · rintro ⟨hp, hj | rfl⟩
      · exact ⟨hp, hj⟩
      · exact ⟨hp, Classical.not_not.mp fun hne => hm ((h.mem_pending j).mpr ⟨hp, hne⟩)⟩
    · exact fun ⟨hp, hj⟩ => ⟨hp, .inl hj⟩
  exact {
    pending := fun j => by
      rw [h.pending]
      by_cases hj : j ∈ ids
      · simp [hj]
      · by_cases he : j = id
        · subst he
          have hno : j ∉ srv.pendingBlks := fun hp => hm ((h.mem_pending j).mpr ⟨hp, hj⟩)
          simp [hj, ExtTreeMap.getElem?_eq_none hno]
        · simp [hj, he]
    committed := fun j => by rw [h.committed, hold]
    db := fun key => by
      rw [h.db]
      simp only [← and_assoc, hold]
    sameCommitted := fun j hj => h.sameCommitted j (by rwa [hold] at hj)
    sameDb := fun key hk => h.sameDb key fun j hp hj => hk j hp (List.mem_append_left _ hj)
    heap := h.heap }

theorem Committed.commit {ids : List ℕ} (h : Committed cfg srv ids srv') (now : ℕ) (block : Block G) :
    Committed cfg srv (ids ++ [block.header.id]) (srv'.spBcastCommitItem cfg now block) := by
  by_cases hm : block.header.id ∈ srv'.pendingBlks
  · obtain ⟨hp, hnew⟩ := (h.mem_pending _).mp hm
    have he : srv'.spBcastCommitItem cfg now block = { srv'.alloc (block.stampRecv now) with
        committedBlks := srv'.committedBlks.insert block.header.id srv'.heap.length
        db := if cfg.useRocksdb then
            srv'.db.insert (blockName block.header.id) (toBytes (block.stampRecv now))
          else srv'.db
        pendingBlks := srv'.pendingBlks.erase block.header.id
        commits := srv'.commits ++ [block.header.id] } := by
      have hm' : (block.stampRecv now).header.id ∈ srv'.pendingBlks := hm
      simp only [spBcastCommitItem, if_pos hm']
      rfl
    rw [he]
    exact {
      pending := fun j => by
        rw [ExtTreeMap.getElem?_erase, h.pending]
        simp only [Nat.compare_eq_eq, List.mem_append, List.mem_singleton]
        by_cases hj : block.header.id = j
        · simp [hj]
        · simp [hj, Ne.symm hj]
      committed := fun j => by
        rw [ExtTreeMap.mem_insert, h.committed]
        simp only [Nat.compare_eq_eq, List.mem_append, List.mem_singleton]
        grind
      db := fun key => by
        split
        · rename_i hrocks
          rw [ExtTreeMap.mem_insert, h.db]
          simp only [Std.LawfulEqCmp.compare_eq_iff_eq, hrocks, true_and, List.mem_append,
            List.mem_singleton]
          grind
        · rename_i hrocks
          rw [h.db]
          simp [hrocks]
      sameCommitted := fun j hj => by
        have hne : block.header.id ≠ j := by
          rintro rfl
          exact hj ⟨hp, by simp⟩
        rw [ExtTreeMap.getElem?_insert, if_neg (by simpa using hne)]
        exact h.sameCommitted j fun hold => hj ⟨hold.1, List.mem_append_left _ hold.2⟩
      sameDb := fun key hk => by
        have hne : blockName block.header.id ≠ key := fun he => hk _ hp (by simp) he.symm
        have hold := h.sameDb key fun j hp hj => hk j hp (List.mem_append_left _ hj)
        split
        · rw [ExtTreeMap.getElem?_insert, if_neg (by simpa using hne), hold]
        · exact hold
      heap := h.heap.trans (List.prefix_append _ _) }
  · rw [spBcastCommitItem_of_not_mem hm]
    exact h.skip hm

theorem committed_commitAll (cfg : Config) (srv : Server G) (xs : List (ℕ × Block G)) :
    Committed cfg srv (commitIds xs) (commitAll cfg srv xs) := by
  induction xs using List.reverseRecOn with
  | nil => exact .refl srv
  | append_singleton xs x ih =>
    rw [commitIds, List.map_append, List.map_singleton, commitAll, List.foldl_concat]
    exact ih.commit x.1 x.2

theorem commitAll_eq_self {xs : List (ℕ × Block G)}
    (h : ∀ id ∈ commitIds xs, id ∉ srv.pendingBlks) : commitAll cfg srv xs = srv := by
  induction xs with
  | nil => rfl
  | cons x xs ih =>
    rw [commitAll, List.foldl_cons, spBcastCommitItem_of_not_mem (h _ (List.mem_cons_self ..))]
    exact ih fun id hid => h id (List.mem_cons_of_mem _ hid)

def namedIds (batches : List (Batch G)) : List ℕ :=
  batches.flatMap fun batch => batch.blocks.map fun b => b.header.id

theorem serves_commitAll {batch : Batch G} (h : Serves cfg s srv (.spBcastCommit batch.items) srv') :
    ∃ xs, commitIds xs = batch.blocks.map (fun b => b.header.id) ∧ srv' = commitAll cfg srv xs := by
  obtain ⟨nows, hl, rfl⟩ := (serves_spBcastCommit batch.decodes).mp h
  refine ⟨nows.zip batch.blocks, ?_, rfl⟩
  have hsnd : (nows.zip batch.blocks).map Prod.snd = batch.blocks := List.map_snd_zip (by omega)
  calc commitIds (nows.zip batch.blocks)
      = ((nows.zip batch.blocks).map Prod.snd).map fun b => b.header.id := by
        rw [List.map_map]; rfl
    _ = batch.blocks.map fun b => b.header.id := by rw [hsnd]

theorem servesAll_commitAll {batches : List (Batch G)}
    (h : ServesAll cfg s srv (batches.map fun batch => .spBcastCommit batch.items) srv') :
    ∃ xs, commitIds xs = namedIds batches ∧ srv' = commitAll cfg srv xs := by
  induction batches generalizing srv with
  | nil => cases h; exact ⟨[], rfl, rfl⟩
  | cons batch batches ih =>
    cases h with
    | cons h₁ h₂ =>
      obtain ⟨xs, hxs, rfl⟩ := serves_commitAll h₁
      obtain ⟨ys, hys, rfl⟩ := ih h₂
      refine ⟨xs ++ ys, ?_, (commitAll_append xs ys).symm⟩
      rw [commitIds, List.map_append, ← commitIds, ← commitIds, hxs, hys]
      rfl

theorem exists_servesAll (cfg : Config) (s : ℕ) (batches : List (Batch G)) (srv : Server G) :
    ∃ srv', ServesAll cfg s srv (batches.map fun batch => .spBcastCommit batch.items) srv' := by
  induction batches generalizing srv with
  | nil => exact ⟨srv, .nil srv⟩
  | cons batch batches ih =>
    have hs : Serves cfg s srv (.spBcastCommit batch.items) _ :=
      (serves_spBcastCommit batch.decodes).mpr ⟨List.replicate batch.blocks.length 0, by simp, rfl⟩
    obtain ⟨srv', h⟩ := ih _
    exact ⟨srv', .cons hs h⟩

/-- Commit broadcasts are idempotent and order independent. A batch that was handled changes nothing
when it comes again, at once or after other batches. Two sequences that name the same blocks leave
the same keys: the pending blocks that were named are committed and stored, and nothing else has
changed. -/
theorem spBcastCommit_idempotent_comm (batches batches' : List (Batch G)) {srv₁ srv₂ : Server G}
    (h₁ : ServesAll cfg s srv (batches.map fun batch => .spBcastCommit batch.items) srv₁)
    (h₂ : ServesAll cfg s srv (batches'.map fun batch => .spBcastCommit batch.items) srv₂) :
    (∀ batch ∈ batches, ∀ srv₃, Serves cfg s srv₁ (.spBcastCommit batch.items) srv₃ → srv₃ = srv₁) ∧
    Committed cfg srv (namedIds batches) srv₁ ∧
    ((∀ id, id ∈ namedIds batches ↔ id ∈ namedIds batches') →
      (∀ id, id ∈ srv₁.pendingBlks ↔ id ∈ srv₂.pendingBlks) ∧
      (∀ id, id ∈ srv₁.committedBlks ↔ id ∈ srv₂.committedBlks) ∧
      ∀ key, key ∈ srv₁.db ↔ key ∈ srv₂.db) := by
  obtain ⟨xs, hxs, rfl⟩ := servesAll_commitAll h₁
  obtain ⟨ys, hys, rfl⟩ := servesAll_commitAll h₂
  have hx := committed_commitAll cfg srv xs
  have hy := committed_commitAll cfg srv ys
  refine ⟨?_, by rwa [← hxs], fun hsame => ?_⟩
  · intro batch hbatch srv₃ h₃
    obtain ⟨zs, hzs, rfl⟩ := serves_commitAll h₃
    refine commitAll_eq_self fun id hid => ?_
    rw [hx.mem_pending, hxs]
    rintro ⟨-, hnot⟩
    rw [hzs] at hid
    exact hnot (List.mem_flatMap.mpr ⟨batch, hbatch, hid⟩)
  · have hsame' : ∀ id, id ∈ commitIds xs ↔ id ∈ commitIds ys := by
      intro id
      rw [hxs, hys, hsame]
    refine ⟨fun id => ?_, fun id => ?_, fun key => ?_⟩
    · rw [hx.mem_pending, hy.mem_pending, hsame']
    · rw [hx.committed, hy.committed, hsame']
    · rw [hx.db, hy.db]
      simp only [hsame']

/-- The same commit from one and from both of its target servers. -/
theorem spBcastCommit_both :
    ∃ srv₁ srv₂, 2000000 ∈ srv₁.committedBlks ∧
      ((∀ id, id ∈ srv₁.pendingBlks ↔ id ∈ srv₂.pendingBlks) ∧
        (∀ id, id ∈ srv₁.committedBlks ↔ id ∈ srv₂.committedBlks) ∧
        ∀ key, key ∈ srv₁.db ↔ key ∈ srv₂.db) ∧
      ServesAll sampleConfig 1
        ((Server.init sampleConfig 1).relayBlockItem (Block.make 2000000 0xDEADBEEF 50))
        [.spBcastCommit relayedAgain.items] srv₁ ∧
      ServesAll sampleConfig 1
        ((Server.init sampleConfig 1).relayBlockItem (Block.make 2000000 0xDEADBEEF 50))
        [.spBcastCommit relayedAgain.items, .spBcastCommit relayedAgain.items] srv₂ := by
  obtain ⟨srv₁, h₁⟩ := exists_servesAll sampleConfig 1 [relayedAgain]
    ((Server.init sampleConfig 1).relayBlockItem (Block.make 2000000 0xDEADBEEF 50))
  obtain ⟨srv₂, h₂⟩ := exists_servesAll sampleConfig 1 [relayedAgain, relayedAgain]
    ((Server.init sampleConfig 1).relayBlockItem (Block.make 2000000 0xDEADBEEF 50))
  obtain ⟨-, hcommitted, hkeys⟩ := spBcastCommit_idempotent_comm [relayedAgain]
    [relayedAgain, relayedAgain] h₁ h₂
  refine ⟨srv₁, srv₂, ?_, hkeys fun id => by simp [namedIds], h₁, h₂⟩
  rw [hcommitted.committed]
  exact .inr ⟨by simp [relayBlockItem, storePending, alloc, Block.make, BlockHeader.make],
    by simp [namedIds, relayedAgain, Block.make, BlockHeader.make]⟩

end Server

end TomChain
