import TomChain.Lib.Pool
import TomChain.Lib.Runs
import TomChain.Server.Heap

/-!
# `pack_block`

The whole function, as the packing thread runs it from the state `pack 0` to the next `check`. The
clock and the order in which the pool is iterated are read anew in each iteration. The pool is cut
into blocks of `num_tx` transactions; what is left is less than a block, or the limit on the number
of blocks was reached.
-/

namespace TomChain.Server

open Std (ExtTreeMap)
open Runs
open Flexbuffers (Flex)

variable {G : Type} {cfg : Config} {s : ℕ} {srv srv' : Server G}

/-- One iteration of `pack_block`, when the pool has enough transactions. -/
def packOne (numTx : ℕ) (srv : Server G) (now : ℕ) (order : List ℕ) : Server G :=
  let extractedTx := extractTx numTx 0 order
  let newBlock : Block G :=
    { Block.make srv.blkSeqGenerator 0xDEADBEEF now with
      txVec := extractedTx.filterMap (srv.pendingTxs[·]?) }
  let p := srv.heap.length
  let srv' : Server G := { srv.alloc newBlock with
    blkSeqGenerator := (srv.blkSeqGenerator + 1) % 2 ^ 64
    relayBlocks := srv.relayBlocks.keys.foldl (fun m t => m.modify t (· ++ [p])) srv.relayBlocks
    packed := srv.packed ++ [newBlock] }
  { srv'.storePending newBlock.header.id p with
    pendingTxs := extractedTx.foldl (fun m id => m.erase id) srv.pendingTxs }

/-- `pack_block(num_tx, num_block)` from iteration `i` on, with `numBlock` iterations left. -/
def packBlock (numTx : ℕ) (now : ℕ → ℕ) (order : ℕ → List ℕ → List ℕ) :
    ℕ → ℕ → Server G → Server G
  | _, 0, srv => srv
  | i, numBlock + 1, srv =>
    if srv.pendingTxs.size ≥ numTx then
      packBlock numTx now order (i + 1) numBlock
        (srv.packOne numTx (now i) (order i srv.pendingTxs.keys))
    else srv

/-! ## The packing thread -/

def threadStep (cfg : Config) (merge : List (BLSSigShare G) → BLSSignature G) (s : ℕ)
    (srv : Server G) (a : ServerAction) : Option (Server G) :=
  (srv.act cfg merge s a).map Prod.fst

section

variable {merge : List (BLSSigShare G) → BLSSignature G}

theorem run_packPush (i p id : ℕ) (ids peers : List ℕ) :
    ∀ srv : Server G, srv.pack = .push i p id peers ids →
      Run (threadStep cfg merge s) (fun _ _ => True) srv { srv with
        relayBlocks := peers.foldl (fun m t => m.modify t (· ++ [p])) srv.relayBlocks
        pack := .push i p id [] ids } := by
  induction peers with
  | nil =>
    intro srv hpc
    have he : { srv with relayBlocks := srv.relayBlocks, pack := .push i p id [] ids } = srv := by
      rw [← hpc]
    rw [List.foldl_nil, he]
    exact .refl
  | cons t peers ih =>
    intro srv hpc
    refine Run.trans (.next .packPush .refl trivial ?_) (ih { srv with
      relayBlocks := srv.relayBlocks.modify t (· ++ [p])
      pack := .push i p id peers ids } rfl)
    simp only [threadStep, act, hpc, Option.map_some]

theorem run_packOne {i : ℕ} (now : ℕ) {order : List ℕ} (hpc : srv.pack = .pack i) (hi : i < Decimal.intMax)
    (hsize : srv.pendingTxs.size ≥ cfg.txPerBlock) (horder : order.Perm srv.pendingTxs.keys) :
    Run (threadStep cfg merge s) (fun _ _ => True) srv
      { srv.packOne cfg.txPerBlock now order with pack := .pack (i + 1) } := by
  have hbegin : threadStep cfg merge s srv (.packBegin now order) =
      some (srv.packBegin cfg i now order) := by
    simp only [threadStep, act, hpc]
    rw [if_pos ⟨hi, hsize, List.isPerm_iff.mpr horder⟩]
    rfl
  refine Run.trans (.next _ .refl trivial hbegin) ?_
  refine Run.trans (run_packPush i _ _ _ _ (srv.packBegin cfg i now order) rfl) ?_
  refine .next .packInsert .refl trivial ?_
  simp only [threadStep, act, Option.map_some]
  rfl

theorem packBlock_withPack (numTx : ℕ) (now : ℕ → ℕ) (order : ℕ → List ℕ → List ℕ) (pc : PackPc)
    (n : ℕ) : ∀ (i : ℕ) (srv : Server G), packBlock numTx now order i n { srv with pack := pc } =
      { packBlock numTx now order i n srv with pack := pc } := by
  induction n with
  | zero => intro i srv; rfl
  | succ n ih =>
    intro i srv
    simp only [packBlock]
    split
    · exact ih (i + 1) (srv.packOne numTx (now i) (order i srv.pendingTxs.keys))
    · rfl

theorem run_packBlock (now : ℕ → ℕ) {order : ℕ → List ℕ → List ℕ}
    (horder : ∀ i keys, (order i keys).Perm keys) (n : ℕ) :
    ∀ (i : ℕ) (srv : Server G), srv.pack = .pack i → i + n = Decimal.intMax →
      Run (threadStep cfg merge s) (fun _ _ => True) srv
        { packBlock cfg.txPerBlock now order i n srv with pack := .check } := by
  have hend : ∀ (i : ℕ) (srv : Server G), srv.pack = .pack i →
      ¬ (i < Decimal.intMax ∧ srv.pendingTxs.size ≥ cfg.txPerBlock) →
      Run (threadStep cfg merge s) (fun _ _ => True) srv { srv with pack := .check } := by
    intro i srv hpc hno
    refine .next .packEnd .refl trivial ?_
    simp only [threadStep, act, hpc, if_neg hno, Option.map_some]
  induction n with
  | zero =>
    intro i srv hpc hi
    exact hend i srv hpc fun h => by omega
  | succ n ih =>
    intro i srv hpc hi
    rw [packBlock]
    split
    · rename_i hsize
      refine Run.trans (run_packOne (now i) hpc (by omega) hsize (horder i _)) ?_
      have hrest := ih (i + 1) { srv.packOne cfg.txPerBlock (now i) (order i srv.pendingTxs.keys) with
        pack := .pack (i + 1) } rfl (by omega)
      rw [packBlock_withPack] at hrest
      exact hrest
    · rename_i hsize
      exact hend i srv hpc fun h => hsize h.2

end

/-! ## The pool -/

theorem extractTx_eq_take {numTx : ℕ} (ids : List ℕ) :
    ∀ txCount, txCount < numTx → extractTx numTx txCount ids = ids.take (numTx - txCount) := by
  induction ids with
  | nil => intro txCount _; simp [extractTx]
  | cons id ids ih =>
    intro txCount h
    simp only [extractTx]
    split
    · have : numTx - txCount = 1 := by omega
      simp [this]
    · obtain ⟨k, hk⟩ : ∃ k, numTx - txCount = k + 1 := ⟨numTx - txCount - 1, by omega⟩
      rw [ih (txCount + 1) (by omega), hk, List.take_succ_cons]
      congr 2
      omega

/-- What an iteration takes out of the pool: `num_tx` different keys of it. -/
theorem extractTx_spec {numTx : ℕ} (h1 : 1 ≤ numTx) {pool : ExtTreeMap ℕ Transaction}
    {order : List ℕ} (horder : order.Perm pool.keys) (hsize : numTx ≤ pool.size) :
    (extractTx numTx 0 order).Nodup ∧ (∀ k ∈ extractTx numTx 0 order, k ∈ pool) ∧
      (extractTx numTx 0 order).length = numTx := by
  rw [extractTx_eq_take order 0 (by omega), Nat.sub_zero]
  refine ⟨(horder.nodup_iff.mpr ExtTreeMap.nodup_keys).sublist (List.take_sublist _ _), ?_, ?_⟩
  · intro k hk
    exact ExtTreeMap.mem_keys.mp (horder.mem_iff.mp (List.mem_of_mem_take hk))
  · rw [List.length_take, horder.length_eq, ExtTreeMap.length_keys]
    omega

theorem getElem?_foldl_modify {keys : List ℕ} (hnd : keys.Nodup) (p : ℕ) :
    ∀ (m : ExtTreeMap ℕ (List ℕ)) (t : ℕ),
      (keys.foldl (fun m t => m.modify t (· ++ [p])) m)[t]? =
        if t ∈ keys then (m[t]?).map (· ++ [p]) else m[t]? := by
  induction keys with
  | nil => intro m t; simp
  | cons j keys ih =>
    intro m t
    rw [List.foldl_cons, ih (List.nodup_cons.mp hnd).2, ExtTreeMap.getElem?_modify]
    simp only [Nat.compare_eq_eq, List.mem_cons]
    by_cases hj : j = t
    · subst hj
      simp [(List.nodup_cons.mp hnd).1]
    · simp [hj, Ne.symm hj]

theorem getElem?_push_all (m : ExtTreeMap ℕ (List ℕ)) (p t : ℕ) :
    (m.keys.foldl (fun m t => m.modify t (· ++ [p])) m)[t]? = (m[t]?).map (· ++ [p]) := by
  rw [getElem?_foldl_modify ExtTreeMap.nodup_keys]
  split
  · rfl
  · rename_i hno
    rw [ExtTreeMap.getElem?_eq_none (fun h => hno (ExtTreeMap.mem_keys.mpr h))]
    rfl

/-! ## The partition -/

def txsOf (pool : ExtTreeMap ℕ Transaction) : List Transaction := pool.toList.map Prod.snd

/-- `srv'` is `srv` after the blocks `blocks` of `numTx` transactions were packed. The new objects
have the next addresses, and the ids count on from the generator. -/
structure Packs (numTx : ℕ) (srv : Server G) (blocks : List (Block G)) (srv' : Server G) : Prop where
  ids : blocks.map (fun b => b.header.id) = List.range' srv.blkSeqGenerator blocks.length
  full : ∀ b ∈ blocks, b.txVec.length = numTx
  txs : (blocks.flatMap (fun b => b.txVec) ++ txsOf srv'.pendingTxs).Perm (txsOf srv.pendingTxs)
  heap : srv'.heap = srv.heap ++ blocks
  pending : ∀ id : ℕ, srv'.pendingBlks[id]? =
    if srv.blkSeqGenerator ≤ id ∧ id < srv.blkSeqGenerator + blocks.length then
      some (srv.heap.length + (id - srv.blkSeqGenerator))
    else srv.pendingBlks[id]?
  relay : ∀ t : ℕ, srv'.relayBlocks[t]? =
    (srv.relayBlocks[t]?).map (· ++ List.range' srv.heap.length blocks.length)

theorem Packs.refl (numTx : ℕ) (srv : Server G) : Packs numTx srv [] srv where
  ids := rfl
  full b h := by cases h
  txs := .refl _
  heap := by simp
  pending id := by rw [if_neg (by simp)]
  relay t := by simp

theorem Packs.cons {numTx : ℕ} (h1 : 1 ≤ numTx) {now : ℕ} {order : List ℕ}
    (horder : order.Perm srv.pendingTxs.keys) (hsize : numTx ≤ srv.pendingTxs.size)
    (hseq : srv.blkSeqGenerator + 1 < 2 ^ 64) {blocks : List (Block G)}
    (h : Packs numTx (srv.packOne numTx now order) blocks srv') :
    ∃ b, Packs numTx srv (b :: blocks) srv' := by
  obtain ⟨hnd, hsub, hlen⟩ := extractTx_spec h1 horder hsize
  have hnext : (srv.packOne numTx now order).blkSeqGenerator = srv.blkSeqGenerator + 1 :=
    Nat.mod_eq_of_lt hseq
  have hheap := h.heap
  have hids := h.ids
  have htxs := h.txs
  rw [hnext] at hids
  refine ⟨{ Block.make srv.blkSeqGenerator 0xDEADBEEF now with
    txVec := Pool.collect srv.pendingTxs (extractTx numTx 0 order) }, ?_⟩
  exact {
    ids := by
      rw [List.map_cons, hids, List.length_cons, List.range'_succ]
      rfl
    full := by
      intro b hb
      rcases List.mem_cons.mp hb with rfl | hb
      · rw [Pool.length_collect hsub, hlen]
      · exact h.full b hb
    txs := by
      rw [List.flatMap_cons, List.append_assoc]
      exact (htxs.append_left _).trans (Pool.collect_perm srv.pendingTxs hnd)
    heap := by
      rw [hheap]
      simp [packOne, storePending, alloc, Pool.collect]
    pending := fun id => by
      have hlen' : (srv.packOne numTx now order).heap.length = srv.heap.length + 1 := by
        simp [packOne, storePending, alloc]
      have hold : (srv.packOne numTx now order).pendingBlks[id]? =
          if srv.blkSeqGenerator = id then some srv.heap.length else srv.pendingBlks[id]? := by
        simp [packOne, storePending, alloc, ExtTreeMap.getElem?_insert, Block.make, BlockHeader.make]
      rw [h.pending, hnext, hlen', hold, List.length_cons]
      split
      · rename_i hin
        rw [if_pos (by omega)]
        congr 1
        omega
      · rename_i hout
        by_cases he : srv.blkSeqGenerator = id
        · rw [if_pos he, if_pos (by omega)]
          congr 1
          omega
        · rw [if_neg he, if_neg (by omega)]
    relay := fun t => by
      have hlen' : (srv.packOne numTx now order).heap.length = srv.heap.length + 1 := by
        simp [packOne, storePending, alloc]
      have hold : (srv.packOne numTx now order).relayBlocks[t]? =
          (srv.relayBlocks[t]?).map (· ++ [srv.heap.length]) := getElem?_push_all _ _ _
      rw [h.relay, hlen', hold, List.length_cons, List.range'_succ, Option.map_map]
      congr 1
      funext q
      simp }

/-- `pack_block` cuts the pool into blocks, as many as are asked for and there are transactions. -/
theorem packs_packBlock {numTx : ℕ} (h1 : 1 ≤ numTx) (now : ℕ → ℕ) {order : ℕ → List ℕ → List ℕ}
    (horder : ∀ i keys, (order i keys).Perm keys) (numBlock : ℕ) :
    ∀ (i : ℕ) (srv : Server G),
      srv.blkSeqGenerator + min numBlock (srv.pendingTxs.size / numTx) < 2 ^ 64 →
      ∃ blocks, blocks.length = min numBlock (srv.pendingTxs.size / numTx) ∧
        Packs numTx srv blocks (packBlock numTx now order i numBlock srv) := by
  induction numBlock with
  | zero =>
    intro i srv _
    exact ⟨[], by simp, .refl numTx srv⟩
  | succ numBlock ih =>
    intro i srv hseq
    rw [packBlock]
    split
    · rename_i hsize
      obtain ⟨q, hq⟩ : ∃ q, (srv.pendingTxs.size - numTx) / numTx = q := ⟨_, rfl⟩
      have hdiv : srv.pendingTxs.size / numTx = q + 1 := by
        rw [Nat.div_eq_sub_div h1 hsize, hq]
      rw [hdiv] at hseq ⊢
      obtain ⟨hnd, hsub, hlen⟩ := extractTx_spec h1 (horder i srv.pendingTxs.keys) hsize
      have hleft := Pool.size_eraseAll hnd hsub
      have hone : (srv.packOne numTx (now i) (order i srv.pendingTxs.keys)).pendingTxs.size =
          srv.pendingTxs.size - numTx := by
        have : (srv.packOne numTx (now i) (order i srv.pendingTxs.keys)).pendingTxs =
            Pool.eraseAll srv.pendingTxs (extractTx numTx 0 (order i srv.pendingTxs.keys)) := rfl
        rw [this]
        omega
      have hgen : (srv.packOne numTx (now i) (order i srv.pendingTxs.keys)).blkSeqGenerator =
          srv.blkSeqGenerator + 1 := Nat.mod_eq_of_lt (by omega)
      obtain ⟨blocks, hlength, hpacks⟩ := ih (i + 1)
        (srv.packOne numTx (now i) (order i srv.pendingTxs.keys)) (by rw [hone, hgen, hq]; omega)
      obtain ⟨b, hb⟩ := hpacks.cons h1 (horder i _) hsize (by omega)
      refine ⟨b :: blocks, ?_, hb⟩
      rw [List.length_cons, hlength, hone, hq]
      omega
    · rename_i hsize
      have hdiv : srv.pendingTxs.size / numTx = 0 := Nat.div_eq_of_lt (by omega)
      exact ⟨[], by simp [hdiv], .refl numTx srv⟩

theorem nodup_peerIds (serverCount serverId : ℕ) : (peerIds serverCount serverId).Nodup := by
  refine List.Nodup.filterMap (fun i j t hi hj => ?_) List.nodup_range
  rw [Option.mem_def, Option.ite_none_left_eq_some] at hi hj
  have := Option.some.inj (hi.2.trans hj.2.symm)
  omega

theorem length_peerIds {serverCount serverId : ℕ} (h1 : 1 ≤ serverId) (h2 : serverId ≤ serverCount) :
    (peerIds serverCount serverId).length = serverCount - 1 := by
  have hperm : (peerIds serverCount serverId).Perm ((List.range' 1 serverCount).erase serverId) := by
    rw [List.perm_ext_iff_of_nodup (nodup_peerIds _ _) (List.Nodup.erase _ List.nodup_range')]
    intro t
    rw [mem_peerIds, List.Nodup.mem_erase_iff List.nodup_range', List.mem_range'_1]
    omega
  rw [hperm.length_eq, List.length_erase_of_mem (by rw [List.mem_range'_1]; omega),
    List.length_range']

/-- `pack_block` partitions the pool: with the queues of `init_peer_stubs` and no overflow of the
block counter it creates `min(num_block, |pool| / num_tx)` blocks of `num_tx` transactions with
consecutive ids. Their transactions and the remaining pool are the old pool; each block is pending
under its id and at the end of each of the queues, in the order of creation; the rest of
`pending_blks` and all earlier objects are as they were. -/
theorem packBlock_partitions {numTx : ℕ} (h1 : 1 ≤ numTx) (numBlock : ℕ) (now : ℕ → ℕ)
    (order : ℕ → List ℕ → List ℕ) (horder : ∀ i keys, (order i keys).Perm keys)
    {serverCount : ℕ} (hs : 1 ≤ s ∧ s ≤ serverCount)
    (hqueues : ∀ t, t ∈ srv.relayBlocks ↔ t ∈ peerIds serverCount s)
    (hseq : srv.blkSeqGenerator + min numBlock (srv.pendingTxs.size / numTx) < 2 ^ 64)
    (hfresh : ∀ id ∈ srv.pendingBlks, id < srv.blkSeqGenerator) :
    ∃ (blocks : List (Block G)) (ptrs : List ℕ),
      let srv' := packBlock numTx now order 0 numBlock srv
      blocks.length = min numBlock (srv.pendingTxs.size / numTx) ∧
      blocks.map (fun b => b.header.id) = List.range' srv.blkSeqGenerator blocks.length ∧
      (∀ b ∈ blocks, b.txVec.length = numTx) ∧
      (blocks.flatMap (fun b => b.txVec) ++ txsOf srv'.pendingTxs).Perm (txsOf srv.pendingTxs) ∧
      ptrs.map (srv'.heap[·]?) = blocks.map some ∧
      (∀ b ∈ blocks, b.header.id ∉ srv.pendingBlks ∧
        ∃ p ∈ ptrs, srv'.pendingBlks[b.header.id]? = some p ∧ srv'.heap[p]? = some b) ∧
      (∀ id : ℕ, id ∉ blocks.map (fun b => b.header.id) → srv'.pendingBlks[id]? = srv.pendingBlks[id]?) ∧
      srv.heap <+: srv'.heap ∧
      (∀ t : ℕ, srv'.relayBlocks[t]? = (srv.relayBlocks[t]?).map (· ++ ptrs)) ∧
      srv'.relayBlocks.size = serverCount - 1 := by
  obtain ⟨blocks, hlength, h⟩ := packs_packBlock h1 now horder numBlock 0 srv hseq
  have hnth : ∀ j b, blocks[j]? = some b → b.header.id = srv.blkSeqGenerator + j ∧
      j < blocks.length := by
    intro j b hb
    have hlt : j < blocks.length := (List.getElem?_eq_some_iff.mp hb).1
    have := congrArg (·[j]?) h.ids
    simp only [List.getElem?_map, hb, Option.map_some] at this
    rw [List.getElem?_range' hlt] at this
    exact ⟨by simpa using this, hlt⟩
  refine ⟨blocks, List.range' srv.heap.length blocks.length, hlength, h.ids, h.full, h.txs, ?_, ?_, ?_,
    by rw [h.heap]; exact List.prefix_append _ _, h.relay, ?_⟩
  · apply List.ext_getElem?
    intro j
    rw [List.getElem?_map, List.getElem?_map, h.heap]
    by_cases hj : j < blocks.length
    · rw [List.getElem?_range' hj]
      simp [hj]
    · rw [List.getElem?_eq_none (by simpa using hj), List.getElem?_eq_none (by simpa using hj)]
      rfl
  · intro b hb
    obtain ⟨j, hj⟩ := List.mem_iff_getElem?.mp hb
    obtain ⟨hid, hlt⟩ := hnth j b hj
    refine ⟨fun hm => ?_, srv.heap.length + j, ?_, ?_, ?_⟩
    · have := hfresh _ hm
      omega
    · rw [List.mem_range'_1]
      omega
    · rw [h.pending, if_pos (by omega), hid]
      congr 1
      omega
    · rw [h.heap, List.getElem?_append_right (by omega), Nat.add_sub_cancel_left, hj]
  · intro id hid
    rw [h.pending, if_neg]
    rw [h.ids, List.mem_range'_1] at hid
    omega
  · rw [← ExtTreeMap.length_keys, ← length_peerIds hs.1 hs.2]
    apply List.Perm.length_eq
    rw [List.perm_ext_iff_of_nodup ExtTreeMap.nodup_keys (nodup_peerIds _ _)]
    intro t
    rw [ExtTreeMap.mem_keys, ← hqueues, ExtTreeMap.mem_iff_isSome_getElem?, h.relay,
      ExtTreeMap.mem_iff_isSome_getElem?, Option.isSome_map]

/-- Server 2 of two, with three transactions in its pool. -/
def poolServer : Server ℕ :=
  (Server.init ⟨2, 2, 2, 3, 5, 10, 100000, true⟩ 2).generateTx
    [⟨1, 2, 3, 0, 4⟩, ⟨2, 2, 3, 0, 4⟩, ⟨3, 2, 3, 0, 4⟩]

/-- One block of two, and one transaction is left. -/
theorem packBlock_pool :
    ∃ blocks : List (Block ℕ), blocks.length = 1 ∧
      blocks.map (fun b => b.header.id) = [2000000] ∧ (∀ b ∈ blocks, b.txVec.length = 2) ∧
      (blocks.flatMap (fun b => b.txVec) ++
        txsOf (packBlock 2 (fun _ => 50) (fun _ keys => keys) 0 5 poolServer).pendingTxs).Perm
        (txsOf poolServer.pendingTxs) := by
  have hsize : poolServer.pendingTxs.size = 3 := by decide
  have hqueues : ∀ t, t ∈ poolServer.relayBlocks ↔ t ∈ peerIds 2 2 := fun t => mem_initQueues
  obtain ⟨blocks, ptrs, hlength, hids, hfull, htxs, -⟩ :=
    packBlock_partitions (by decide : 1 ≤ 2) 5 (fun _ => 50) (fun _ keys => keys) (fun _ _ => .refl _)
      (by decide) hqueues (by rw [hsize]; decide)
      (fun id hid => by simp [poolServer, generateTx, Server.init] at hid)
  rw [hsize] at hlength
  refine ⟨blocks, hlength, ?_, hfull, htxs⟩
  rw [hids, hlength]
  rfl

end TomChain.Server
