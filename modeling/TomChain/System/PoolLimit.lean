import TomChain.Server.PackBlock
import TomChain.System.Pipeline

/-!
# The size of the packer's pools

The packing thread generates transactions only while fewer than `pb-pool-limit` blocks are pending,
and packs until less than a block is left. What is pending and what the transactions in the pool will
make is bounded together (`PoolOk`), as long as others only take pending blocks away (`Packer`). In the
system they do, since no `RelayBlock` call goes to the packing server.
-/

namespace TomChain

open Std (ExtTreeMap ExtTreeSet)
open Runs Server
open Flexbuffers (Flex)

variable {G D : Type} {cfg : Config} {crypto : Crypto G D} {σ σ' : State G} {a : Action G}
  {ok : State G → Action G → Bool}

/-! ## Nobody relays blocks to the packer -/

/-- The packing server has no backlog for itself, and no call brings it blocks. -/
structure NotRelayed (cfg : Config) (σ : State G) : Prop where
  backlog : (σ.server cfg.serverCount).backlog .block cfg.serverCount = []
  calls : ∀ call ∈ σ.calls, call.target = cfg.serverCount → call.rpc.carried .block = []

theorem Client.Acts.carried {c target : ℕ} {cl cl' : Client G} {ca : ClientAction} {rpc : Rpc G}
    (h : cl.Acts cfg crypto c ca cl' (some (target, rpc))) (ch : Chan) : rpc.carried ch = [] := by
  cases h <;> cases ch <;> rfl

theorem carried_of_isClientRequest {rpc : Rpc G} (h : rpc.isClientRequest = true) (ch : Chan) :
    rpc.carried ch = [] := by
  cases rpc <;> first | (cases ch <;> rfl) | simp [Rpc.isClientRequest] at h

theorem Server.Handles.carried {s now : ℕ} {srv srv' : Server G} {rpc rpc' : Rpc G}
    (h : srv.Handles cfg s now rpc srv' rpc') (hrpc : rpc.carried .block = []) :
    rpc'.carried .block = [] := by
  rcases h.stored with ⟨item, rest, block, rfl, -, rfl, -⟩ | ⟨-, ⟨item, rest, rfl, -, rfl⟩ | h⟩
  · cases hrpc
  · cases hrpc
  · exact h.1

/-- The packing server pushes to its peers only. -/
theorem Server.Acts.backlog_self (hwf : (σ.server cfg.serverCount).WF)
    (hq : (σ.server cfg.serverCount).QueuesOk cfg cfg.serverCount) {sa : ServerAction}
    {srv' : Server G} {out : Option (ℕ × Rpc G)}
    (h : (σ.server cfg.serverCount).Acts cfg crypto.merge cfg.serverCount sa srv' out)
    (hb : (σ.server cfg.serverCount).backlog .block cfg.serverCount = []) :
    outMail out .block cfg.serverCount = [] ∧ srv'.backlog .block cfg.serverCount = [] := by
  have hnew : (σ.server cfg.serverCount).newMail sa .block cfg.serverCount = [] := by
    unfold newMail
    split
    · split
      · rename_i hpc
        rw [if_neg]
        exact (mem_peerIds.mp ((hq.pack _ _ _ _ _ hpc).2 _ (List.mem_cons_self ..))).2.2
      · rfl
    · rename_i hch; cases hch
    · rfl
  have := h.backlog hwf hq .block cfg.serverCount
  rw [hb, hnew, List.append_nil] at this
  exact List.append_eq_nil_iff.mp this

theorem Reachable.notRelayed (h : Reachable cfg crypto ok σ) : NotRelayed cfg σ := by
  refine h.invariant (NotRelayed cfg) ⟨?_, fun _ hm => by cases hm⟩ fun σ a σ' hr _ hn hs => ?_
  · have ht := (traced_init cfg cfg.serverCount : (Server.init cfg cfg.serverCount : Server G).Traced)
    refine List.eq_nil_iff_forall_not_mem.mpr fun k hk => ?_
    have := ht.backlog _ k hk
    simp [Server.packedIds, Server.init] at this
  · have hst := steps_of_step hs
    have hwf := Reachable.wf hr cfg.serverCount
    have hq := (Reachable.relayOk hr cfg.serverCount).1
    constructor
    · rcases hst.moves cfg.serverCount with he | hm
      · rw [he]; exact hn.backlog
      · cases hm with
        | act sa out ha => exact (ha.backlog_self hwf hq hn.backlog).2
        | handle now rpc rpc' hh => rw [hh.backlog hwf (by simp)]; exact hn.backlog
        | resume ch hrs => rw [backlog_resumeSend hwf hrs]; exact hn.backlog
    · intro call hm ht
      rcases hst.call_cases hm with ⟨call₀, hm₀, ht₀, hrpc⟩ | ⟨s, sa, srv', _, _, rfl, ha⟩ |
        ⟨_, _, _, _, _, _, ha⟩ | ⟨i, now, order, rpc, _, hi, hh⟩ | ⟨_, hc⟩
      · rw [← hrpc]
        exact hn.calls call₀ hm₀ (ht₀.trans ht)
      · have hmail : outMail (some (call.target, call.rpc)) .block cfg.serverCount = [] := by
          by_cases he : s = cfg.serverCount
          · subst he
            exact (ha.backlog_self hwf hq hn.backlog).1
          · exact (ha.idle (Reachable.wf hr s) (Reachable.relayOk hr s).1 (Reachable.relayOk hr s).2
              (Reachable.packOk hr s) he _).1
        simpa [outMail, ht] using hmail
      · exact ha.carried .block
      · exact hh.carried (hn.calls _ (List.mem_of_getElem? hi) ht)
      · exact carried_of_isClientRequest hc .block

/-! ## The two pools -/

namespace Server

variable {merge : List (BLSSigShare G) → BLSSignature G} {s : ℕ} {srv srv' : Server G}

/-- The most blocks that one iteration of the packing thread can make. -/
def roundBlocks (cfg : Config) : ℕ := (cfg.txPerBlock - 1 + cfg.generateTxRate) / cfg.txPerBlock

def load (cfg : Config) (srv : Server G) : ℕ :=
  srv.pendingBlks.size + srv.pendingTxs.size / cfg.txPerBlock

/-- The loop invariant of the packing thread. -/
def PoolOk (cfg : Config) (srv : Server G) : Prop :=
  match srv.pack with
  | .check => srv.load cfg ≤ cfg.pbPoolLimit - 1 + roundBlocks cfg ∧ srv.pendingTxs.size < cfg.txPerBlock
  | .generate => srv.load cfg ≤ cfg.pbPoolLimit - 1 ∧ srv.pendingTxs.size < cfg.txPerBlock
  | .pack i => srv.load cfg ≤ cfg.pbPoolLimit - 1 + roundBlocks cfg ∧
      i + srv.pendingTxs.size / cfg.txPerBlock ≤ roundBlocks cfg
  | .push i _ _ _ ids => srv.load cfg ≤ cfg.pbPoolLimit - 1 + roundBlocks cfg ∧
      i + srv.pendingTxs.size / cfg.txPerBlock ≤ roundBlocks cfg ∧
      ids.Nodup ∧ (∀ id ∈ ids, id ∈ srv.pendingTxs) ∧ ids.length = cfg.txPerBlock

/-- A step that leaves the packing thread and its pool alone and adds no pending block. -/
structure Quiet (srv srv' : Server G) : Prop where
  pack : srv'.pack = srv.pack
  txs : srv'.pendingTxs = srv.pendingTxs
  pending : srv'.pendingBlks.size ≤ srv.pendingBlks.size

theorem Quiet.refl (srv : Server G) : srv.Quiet srv := ⟨rfl, rfl, le_rfl⟩

theorem PoolOk.quiet (h : srv.PoolOk cfg) (hq : srv.Quiet srv') : srv'.PoolOk cfg := by
  have hload : srv'.load cfg ≤ srv.load cfg := by
    have := hq.pending
    rw [load, load, hq.txs]
    omega
  unfold PoolOk at h ⊢
  rw [hq.pack, hq.txs]
  split at h <;> exact ⟨hload.trans h.1, h.2⟩

theorem Records.quiet {id k : ℕ} {v : BlockVote G} (h : srv.Records cfg id k v srv') :
    srv.Quiet srv' := by
  cases h with
  | absent | dangling => exact .refl _
  | fewer => exact { Quiet.refl srv with }
  | enough => exact { Quiet.refl srv with pending := ExtTreeMap.size_erase_le }

/-- Handlers other than `RelayBlock` add no pending block. -/
theorem Handles.quiet {now : ℕ} {rpc rpc' : Rpc G} (h : srv.Handles cfg s now rpc srv' rpc')
    (hrpc : rpc.carried .block = []) : srv.Quiet srv' := by
  cases h with
  | relayVote item rest vote _ =>
    unfold relayVoteItem
    split
    · exact .refl _
    · exact (records_recordVote ..).quiet
  | relayBlock => cases hrpc
  | spBcastCommit item rest block _ =>
    rcases spBcastCommitItem_eq cfg srv now block with ⟨-, h⟩ | ⟨-, db, h⟩
    · rw [h]; exact .refl _
    · rw [h]; exact { Quiet.refl srv with pending := ExtTreeMap.size_erase_le }
  | pullItem id blockId p todo pbHdrs b _ hdrs hb hi =>
    rcases pullItem_eq hi with ⟨rfl, -⟩ | ⟨-, -, clients, rfl⟩
    · exact .refl _
    · exact { Quiet.refl srv with }
  | record => exact (records_recordVote ..).quiet
  | voteBlocks id item rest block _ current _ hi =>
    obtain ⟨queues, rfl⟩ := voteBlocksItem_eq hi
    exact { Quiet.refl srv with }
  | _ => exact { Quiet.refl srv with }

theorem Quiet.resume {ch : Chan} (h : srv.resumeSend ch = some srv') : srv.Quiet srv' := by
  rcases resumeSend_eq h with ⟨_, _, _, -, rfl⟩ | ⟨_, _, _, -, rfl⟩ <;> exact { Quiet.refl srv with }

def packs : ServerAction → Bool
  | .packCheck | .packGenerate _ | .packBegin _ _ | .packEnd | .packPush | .packInsert => true
  | _ => false

/-- The other threads add no pending block. -/
theorem Acts.quiet {sa : ServerAction} {out : Option (ℕ × Rpc G)}
    (h : srv.Acts cfg merge s sa srv' out) (hsa : packs sa = false) : srv.Quiet srv' := by
  cases h with
  | packCheck | packGenerate | packBegin | packEnd | packPush | packInsert => cases hsa
  | sendPop ch t items ids rest srv'' item ids' _ hpop => cases hpop <;> exact { Quiet.refl srv with }
  | reap id now =>
    rcases reap_eq cfg srv id now with h | ⟨-, h⟩
    · rw [h]; exact .refl _
    · rw [h]; exact { Quiet.refl srv with pending := ExtTreeMap.size_erase_le }
  | _ => exact { Quiet.refl srv with }

theorem size_foldl_insertIfNew_le (txs : List Transaction) (pool : ExtTreeMap ℕ Transaction) :
    (txs.foldl (fun m tx => m.insertIfNew tx.id tx) pool).size ≤ pool.size + txs.length := by
  induction txs generalizing pool with
  | nil => simp
  | cons tx txs ih =>
    have hone : (pool.insertIfNew tx.id tx).size ≤ pool.size + 1 := ExtTreeMap.size_insertIfNew_le
    have hrest := ih (pool.insertIfNew tx.id tx)
    rw [List.foldl_cons, List.length_cons]
    omega

/-- Transactions are made only while there is room for blocks. -/
theorem PoolOk.check (hL : 1 ≤ cfg.pbPoolLimit) (h : srv.PoolOk cfg) (hpc : srv.pack = .check) :
    PoolOk cfg { srv with
      pack := if srv.pendingBlks.size < cfg.pbPoolLimit then .generate else .pack 0 } := by
  rw [PoolOk, hpc] at h
  obtain ⟨hload, hfew⟩ := h
  have hdiv : srv.pendingTxs.size / cfg.txPerBlock = 0 := Nat.div_eq_of_lt hfew
  by_cases hlimit : srv.pendingBlks.size < cfg.pbPoolLimit
  · have hload' : srv.load cfg ≤ cfg.pbPoolLimit - 1 := by
      rw [load, hdiv]
      omega
    simp only [PoolOk, if_pos hlimit]
    exact ⟨hload', hfew⟩
  · simp only [PoolOk, if_neg hlimit, hdiv]
    exact ⟨hload, Nat.zero_le _⟩

/-- The new transactions make `roundBlocks` blocks at most. -/
theorem PoolOk.generate (h : srv.PoolOk cfg) (hpc : srv.pack = .generate) {txs : List Transaction}
    (hlen : txs.length = cfg.generateTxRate) :
    PoolOk cfg { srv.generateTx txs with pack := .pack 0 } := by
  rw [PoolOk, hpc] at h
  obtain ⟨hload, hfew⟩ := h
  have hsize : (srv.generateTx txs).pendingTxs.size ≤ cfg.txPerBlock - 1 + cfg.generateTxRate := by
    have := size_foldl_insertIfNew_le txs srv.pendingTxs
    rw [hlen] at this
    exact this.trans (by omega)
  have hdiv : (srv.generateTx txs).pendingTxs.size / cfg.txPerBlock ≤ roundBlocks cfg :=
    Nat.div_le_div_right hsize
  have hload' : (srv.generateTx txs).load cfg ≤ cfg.pbPoolLimit - 1 + roundBlocks cfg := by
    have hpend : srv.pendingBlks.size ≤ srv.load cfg := Nat.le_add_right _ _
    have hsame : (srv.generateTx txs).pendingBlks = srv.pendingBlks := rfl
    rw [load, hsame]
    omega
  have hi : 0 + (srv.generateTx txs).pendingTxs.size / cfg.txPerBlock ≤ roundBlocks cfg := by
    rw [Nat.zero_add]
    exact hdiv
  exact ⟨hload', hi⟩

/-- `pack_block` stops with less than a block left: else the limit on its blocks would be reached. -/
theorem PoolOk.finish (hk : 1 ≤ cfg.txPerBlock) (hmax : roundBlocks cfg ≤ Decimal.intMax)
    (h : srv.PoolOk cfg) {i : ℕ} (hpc : srv.pack = .pack i)
    (hstop : ¬ (i < Decimal.intMax ∧ srv.pendingTxs.size ≥ cfg.txPerBlock)) :
    PoolOk cfg { srv with pack := .check } := by
  rw [PoolOk, hpc] at h
  obtain ⟨hload, hi⟩ := h
  refine ⟨hload, ?_⟩
  by_contra hmany
  have hpos : 0 < srv.pendingTxs.size / cfg.txPerBlock := Nat.div_pos (by simpa using hmany) hk
  exact hstop ⟨by omega, by simpa using hmany⟩

/-- A new pending block takes its transactions out of the pool. -/
theorem PoolOk.insert (hk : 1 ≤ cfg.txPerBlock) (h : srv.PoolOk cfg) {i p blockId : ℕ} {ids : List ℕ}
    (hpc : srv.pack = .push i p blockId [] ids) :
    PoolOk cfg { srv.storePending blockId p with
      pendingTxs := Pool.eraseAll srv.pendingTxs ids
      pack := .pack (i + 1) } := by
  rw [PoolOk, hpc] at h
  obtain ⟨hload, hi, hnd, hsub, hlen⟩ := h
  have hleft : (Pool.eraseAll srv.pendingTxs ids).size + cfg.txPerBlock = srv.pendingTxs.size := by
    rw [← hlen]
    exact Pool.size_eraseAll hnd hsub
  have hdiv : srv.pendingTxs.size / cfg.txPerBlock =
      (Pool.eraseAll srv.pendingTxs ids).size / cfg.txPerBlock + 1 := by
    rw [← hleft, Nat.add_div_right _ hk]
  have hpend : (srv.pendingBlks.insert blockId p).size ≤ srv.pendingBlks.size + 1 :=
    ExtTreeMap.size_insert_le
  have hload' : (srv.pendingBlks.insert blockId p).size +
      (Pool.eraseAll srv.pendingTxs ids).size / cfg.txPerBlock ≤
        cfg.pbPoolLimit - 1 + roundBlocks cfg := by
    rw [load] at hload
    omega
  have hi' : i + 1 + (Pool.eraseAll srv.pendingTxs ids).size / cfg.txPerBlock ≤ roundBlocks cfg := by
    omega
  exact ⟨hload', hi'⟩

theorem PoolOk.act (hk : 1 ≤ cfg.txPerBlock) (hL : 1 ≤ cfg.pbPoolLimit)
    (hmax : roundBlocks cfg ≤ Decimal.intMax) (h : srv.PoolOk cfg) {sa : ServerAction}
    (hsa : packs sa = true) {out : Option (ℕ × Rpc G)}
    (ha : srv.act cfg merge s sa = some (srv', out)) : srv'.PoolOk cfg := by
  cases sa with
  | packCheck =>
    simp only [Server.act] at ha
    split at ha
    · rename_i hpc
      cases ha
      exact h.check hL hpc.1
    · cases ha
  | packGenerate txs =>
    simp only [Server.act] at ha
    split at ha
    · rename_i hpc
      cases ha
      exact h.generate hpc.1 hpc.2.1
    · cases ha
  | packBegin now order =>
    simp only [Server.act] at ha
    split at ha
    · rename_i i hpc
      rw [PoolOk, hpc] at h
      split at ha
      · rename_i hcond
        cases ha
        obtain ⟨hnd, hsub, hlen⟩ := extractTx_spec hk (List.isPerm_iff.mp hcond.2.2) hcond.2.1
        exact ⟨h.1, h.2, hnd, hsub, hlen⟩
      · cases ha
    · cases ha
  | packEnd =>
    simp only [Server.act] at ha
    split at ha
    · rename_i i hpc
      split at ha
      · cases ha
      · rename_i hstop
        cases ha
        exact h.finish hk hmax hpc hstop
    · cases ha
  | packPush =>
    simp only [Server.act] at ha
    split at ha
    · rename_i hpc
      rw [PoolOk, hpc] at h
      cases ha
      exact h
    · cases ha
  | packInsert =>
    simp only [Server.act] at ha
    split at ha
    · rename_i i p blockId ids hpc
      cases ha
      exact h.insert hk hpc
    · cases ha
  | _ => cases hsa

/-! ## Runs of the packing thread -/

/-- A step of the packing thread, or a step that takes pending blocks away at most. -/
inductive Packer (cfg : Config) (merge : List (BLSSigShare G) → BLSSignature G) (s : ℕ)
    (srv : Server G) : Server G → Prop
  | thread (sa : ServerAction) (srv' : Server G) (out : Option (ℕ × Rpc G)) : packs sa = true →
      srv.act cfg merge s sa = some (srv', out) → Packer cfg merge s srv srv'
  | other (srv' : Server G) : srv.Quiet srv' → Packer cfg merge s srv srv'

theorem PoolOk.packer (hk : 1 ≤ cfg.txPerBlock) (hL : 1 ≤ cfg.pbPoolLimit)
    (hmax : roundBlocks cfg ≤ Decimal.intMax) (h : srv.PoolOk cfg)
    (hstep : srv.Packer cfg merge s srv') : srv'.PoolOk cfg := by
  cases hstep with
  | thread sa srv' out hsa ha => exact h.act hk hL hmax hsa ha
  | other srv' hq => exact h.quiet hq

theorem poolOk_of_empty (hk : 1 ≤ cfg.txPerBlock) (hpack : srv.pack = .check)
    (hblks : srv.pendingBlks.size = 0) (htxs : srv.pendingTxs.size = 0) : srv.PoolOk cfg := by
  have hload : srv.load cfg = 0 := by
    rw [load, hblks, htxs, Nat.zero_div]
  rw [PoolOk, hpack]
  refine ⟨?_, ?_⟩
  · rw [hload]
    exact Nat.zero_le _
  · rw [htxs]
    exact hk

theorem PoolOk.size_pendingBlks_le (h : srv.PoolOk cfg) :
    srv.pendingBlks.size ≤ cfg.pbPoolLimit - 1 + roundBlocks cfg := by
  have hload : srv.load cfg ≤ cfg.pbPoolLimit - 1 + roundBlocks cfg := by
    unfold PoolOk at h
    split at h
    · exact h.1
    · exact h.1.trans (Nat.le_add_right _ _)
    · exact h.1
    · exact h.1
  exact (Nat.le_add_right _ _).trans hload

/-- At most `pb-pool-limit - 1` blocks and those that one iteration can make are pending, and an
iteration starts with less than a block in the pool of transactions. -/
theorem packer_bounded {srv₀ : Server G} (hL : 1 ≤ cfg.pbPoolLimit) (hk : 1 ≤ cfg.txPerBlock)
    (hmax : (cfg.txPerBlock - 1 + cfg.generateTxRate) / cfg.txPerBlock ≤ Decimal.intMax)
    (hpack : srv₀.pack = .check) (hblks : srv₀.pendingBlks.size = 0)
    (htxs : srv₀.pendingTxs.size = 0)
    (hrun : Relation.ReflTransGen (Packer cfg merge s) srv₀ srv) :
    srv.pendingBlks.size ≤
        cfg.pbPoolLimit - 1 + (cfg.txPerBlock - 1 + cfg.generateTxRate) / cfg.txPerBlock ∧
      (srv.pack = .check → srv.pendingTxs.size < cfg.txPerBlock) := by
  have hok : srv.PoolOk cfg := by
    induction hrun with
    | refl => exact poolOk_of_empty hk hpack hblks htxs
    | tail _ hstep ih => exact ih.packer hk hL hmax hstep
  refine ⟨hok.size_pendingBlks_le, ?_⟩
  intro hcheck
  rw [PoolOk, hcheck] at hok
  exact hok.2

end Server

theorem Resumes.quiet {response : Option (Rpc G)} {θ : Thread} (h : Resumes σ response θ σ') {s : ℕ} :
    (σ.server s).Quiet (σ'.server s) := by
  cases h with
  | send s' ch srv' hs =>
    by_cases he : s = s'
    · subst he
      simpa using Quiet.resume hs
    · simpa [he] using Quiet.refl _
  | pull | vote => exact .refl _

theorem Steps.packer (h : Steps cfg crypto σ a σ') (hn : NotRelayed cfg σ)
    (hs : step cfg crypto σ a = some σ') :
    (σ.server cfg.serverCount).Packer cfg crypto.merge cfg.serverCount
      (σ'.server cfg.serverCount) := by
  cases h with
  | server s sa srv' out h1 h2 ha =>
    by_cases he : s = cfg.serverCount
    · subst he
      cases hsa : packs sa with
      | true =>
        simp only [step, if_pos (And.intro h1 h2)] at hs
        obtain ⟨⟨srv₁, out₁⟩, hact, hσ⟩ := Option.map_eq_some_iff.mp hs
        have hsrv : srv₁ = srv' := by
          have := congrArg (fun σ => σ.server cfg.serverCount) hσ
          simpa using this
        subst hsrv
        simpa using Packer.thread sa srv₁ out₁ hsa hact
      | false => simpa using Packer.other _ (ha.quiet hsa)
    · simpa [Ne.symm he] using Packer.other _ (.refl _)
  | client => simpa using Packer.other _ (.refl _)
  | handle i now order call srv' rpc' hi hh =>
    by_cases he : call.target = cfg.serverCount
    · have hblock := hn.calls call (List.mem_of_getElem? hi) he
      rw [he] at hh
      simpa [he] using Packer.other _ (hh.quiet hblock)
    · simpa [Ne.symm he] using Packer.other _ (.refl _)
  | retOrphan | failOrphan => exact .other _ (.refl _)
  | ret i call θ _ _ _ _ hr => exact .other _ hr.quiet
  | fail i call θ _ _ _ hr => exact .other _ hr.quiet
  | foreign => simpa using Packer.other _ (.refl _)

/-- In the system the packing server makes such a run. -/
theorem Reachable.packer (h : Reachable cfg crypto ok σ) :
    Relation.ReflTransGen (Packer cfg crypto.merge cfg.serverCount)
      (Server.init cfg cfg.serverCount) (σ.server cfg.serverCount) := by
  refine h.invariant (fun σ => Relation.ReflTransGen (Packer cfg crypto.merge cfg.serverCount)
    (Server.init cfg cfg.serverCount) (σ.server cfg.serverCount)) .refl fun σ a σ' hr _ hp hs => ?_
  exact hp.tail ((steps_of_step hs).packer (Reachable.notRelayed hr) hs)

theorem packer_bounded_sample :
    ∃ σ : State Point, Reachable sampleConfig Crypto.symbolic unguarded σ ∧
      (σ.server 2).pendingBlks.size = 1 ∧ (σ.server 2).pendingBlks.size ≤ 5 - 1 + (1 - 1 + 1) / 1 ∧
      ((σ.server 2).pack = .check → (σ.server 2).pendingTxs.size < 1) := by
  obtain ⟨σ, hr, hσ⟩ := exists_reachable sampleConfig Crypto.symbolic unguarded
    (Script.packBlock ++ [.server 2 .packInsert])
    (fun σ => (σ.server 2).pendingBlks.size = 1) (by decide +kernel)
  exact ⟨σ, hr, of_decide_eq_true hσ,
    packer_bounded (by decide) (by decide) (by decide) rfl rfl rfl hr.packer⟩

end TomChain
