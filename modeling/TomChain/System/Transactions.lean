import Mathlib.Data.List.Flatten
import TomChain.Lib.Pool
import TomChain.System.Content
import TomChain.System.Lifecycle

/-!
# Where the transactions go

`generate_tx` puts transactions into the pool, `pack_block` takes them out into blocks, and the
blocks are committed on every server. No transaction is lost or doubled on the way: the pool and
the packed blocks hold what was put in, each as often as it was put in, and the committed blocks of
a server hold nothing else.
-/

namespace TomChain

open Std (ExtTreeMap)
open Runs Server
open Flexbuffers (Flex)

variable {G D : Type} {cfg : Config} {crypto : Crypto G D} {σ σ' : State G} {a : Action G}
  {ok : State G → Action G → Bool}

/-- The ids of the transactions that are in the new block and still in the pool. -/
def PackPc.extracted : PackPc → List ℕ
  | .push _ _ _ _ ids => ids
  | _ => []

namespace Server

variable {merge : List (BLSSigShare G) → BLSSignature G} {s : ℕ} {srv srv' : Server G}

def unpacked (srv : Server G) : List Transaction :=
  (Pool.eraseAll srv.pendingTxs srv.pack.extracted).toList.map Prod.snd

/-- All transactions that a server has ever had: in no block yet, or in a block it packed. -/
def holdings (srv : Server G) : List Transaction := srv.unpacked ++ srv.packed.flatMap Block.txVec

def submitted (srv : Server G) : ServerAction → List Transaction
  | .packGenerate txs => Pool.admitted Transaction.id srv.pendingTxs txs
  | _ => []

def committedTxs (srv : Server G) : List Transaction :=
  srv.committedBlks.toList.flatMap fun e => (srv.heap[e.2]?).toList.flatMap Block.txVec

theorem extractTx_initial (numTx : ℕ) (ids : List ℕ) :
    ∀ txCount, extractTx numTx txCount ids <+: ids := by
  induction ids with
  | nil => exact fun _ => List.prefix_rfl
  | cons id ids ih =>
    intro txCount
    rw [extractTx]
    split
    · exact List.prefix_append [id] ids
    · exact List.cons_prefix_cons.mpr ⟨rfl, ih _⟩

/-! ## One step -/

theorem holdings_same (hpack : srv'.pack.extracted = srv.pack.extracted)
    (htxs : srv'.pendingTxs = srv.pendingTxs) (hpacked : srv'.packed = srv.packed) :
    srv'.holdings = srv.holdings := by
  rw [holdings, holdings, unpacked, unpacked, hpack, htxs, hpacked]

theorem holdings_generate {txs : List Transaction} (hpc : srv.pack = .generate) :
    ({ srv.generateTx txs with pack := .pack 0 } : Server G).holdings.Perm
      (srv.holdings ++ srv.submitted (.packGenerate txs)) := by
  have hpool := Pool.insertAll_perm Transaction.id txs srv.pendingTxs
  have hbefore : srv.unpacked = srv.pendingTxs.toList.map Prod.snd := by
    rw [unpacked, hpc]
    rfl
  have hafter : ({ srv.generateTx txs with pack := .pack 0 } : Server G).unpacked =
      (Pool.insertAll Transaction.id srv.pendingTxs txs).toList.map Prod.snd := rfl
  rw [holdings, holdings, hafter, hbefore, submitted]
  refine (hpool.append_right _).trans ?_
  rw [List.append_assoc, List.append_assoc]
  exact List.perm_append_comm.append_left _

theorem holdings_packBegin {i now : ℕ} {order : List ℕ} (hpc : srv.pack = .pack i)
    (horder : order.Perm srv.pendingTxs.keys) :
    (srv.packBegin cfg i now order).holdings.Perm srv.holdings := by
  have hnd : (extractTx cfg.txPerBlock 0 order).Nodup :=
    (horder.nodup_iff.mpr ExtTreeMap.nodup_keys).sublist (extractTx_initial _ _ _).sublist
  have hpool := Pool.collect_perm srv.pendingTxs hnd
  have hbefore : srv.unpacked = srv.pendingTxs.toList.map Prod.snd := by
    rw [unpacked, hpc]
    rfl
  have hafter : (srv.packBegin cfg i now order).unpacked =
      (Pool.eraseAll srv.pendingTxs (extractTx cfg.txPerBlock 0 order)).toList.map Prod.snd := rfl
  have hpacked : (srv.packBegin cfg i now order).packed.flatMap Block.txVec =
      srv.packed.flatMap Block.txVec ++
        Pool.collect srv.pendingTxs (extractTx cfg.txPerBlock 0 order) := by
    rw [packBegin, List.flatMap_append]
    simp [newBlock, Pool.collect]
  rw [holdings, holdings, hafter, hbefore, hpacked]
  refine List.Perm.trans ?_ (hpool.append_right _)
  rw [← List.append_assoc, List.append_assoc (Pool.collect ..)]
  exact List.perm_append_comm

theorem holdings_act {sa : ServerAction} {out : Option (ℕ × Rpc G)}
    (h : srv.act cfg merge s sa = some (srv', out)) :
    srv'.holdings.Perm (srv.holdings ++ srv.submitted sa) := by
  have hsame : srv'.pack.extracted = srv.pack.extracted → srv'.pendingTxs = srv.pendingTxs →
      srv'.packed = srv.packed → srv.submitted sa = [] →
      srv'.holdings.Perm (srv.holdings ++ srv.submitted sa) := by
    intro h1 h2 h3 h4
    rw [holdings_same h1 h2 h3, h4, List.append_nil]
  cases acts_of_act h with
  | packCheck pc hpc _ hpc' =>
    refine hsame ?_ rfl rfl rfl
    rcases hpc' with rfl | rfl <;> simp [PackPc.extracted, hpc]
  | packGenerate txs hpc => exact holdings_generate hpc
  | packBegin i now order hpc =>
    simp only [act, hpc] at h
    split at h
    · rename_i hcond
      rw [show srv.submitted (.packBegin now order) = [] from rfl, List.append_nil]
      exact holdings_packBegin hpc (List.isPerm_iff.mp hcond.2.2)
    · cases h
  | packEnd i hpc => exact hsame (by simp [PackPc.extracted, hpc]) rfl rfl rfl
  | packPush i p blockId t peers ids hpc =>
    exact hsame (by simp [PackPc.extracted, hpc]) rfl rfl rfl
  | packInsert i p blockId ids hpc =>
    have hbefore : srv.unpacked = (Pool.eraseAll srv.pendingTxs ids).toList.map Prod.snd := by
      rw [unpacked, hpc]
      rfl
    rw [show srv.submitted .packInsert = [] from rfl, List.append_nil, holdings, holdings, hbefore]
    exact .refl _
  | sendPop ch t items ids rest srv'' item ids' _ hq => cases hq <;> exact hsame rfl rfl rfl rfl
  | reap id now =>
    rcases reap_eq cfg srv id now with he | ⟨-, he⟩ <;> rw [he] at hsame ⊢ <;>
      exact hsame rfl rfl rfl rfl
  | _ => exact hsame rfl rfl rfl rfl

theorem Records.pendingTxs {id k : ℕ} {v : BlockVote G} (h : srv.Records cfg id k v srv') :
    srv'.pendingTxs = srv.pendingTxs := by
  cases h <;> rfl

theorem Handles.pendingTxs {now : ℕ} {rpc rpc' : Rpc G} (h : srv.Handles cfg s now rpc srv' rpc') :
    srv'.pendingTxs = srv.pendingTxs := by
  cases h with
  | relayVote item rest vote _ =>
    unfold relayVoteItem
    split
    · rfl
    · exact (records_recordVote ..).pendingTxs
  | spBcastCommit item rest block _ =>
    rcases spBcastCommitItem_eq cfg srv now block with ⟨-, h⟩ | ⟨-, db, h⟩
    · rw [h]
    · rw [h]; rfl
  | pullItem id blockId p todo pbHdrs b _ hdrs hb hi =>
    rcases pullItem_eq hi with ⟨rfl, -⟩ | ⟨-, -, clients, rfl⟩ <;> rfl
  | record => exact (records_recordVote ..).pendingTxs
  | voteBlocks id item rest block _ current _ hi =>
    obtain ⟨queues, rfl⟩ := voteBlocksItem_eq hi
    rfl
  | _ => rfl

end Server

/-! ## Runs -/

/-- The transactions that a step of the system puts into the pool of the packing server. -/
def submittedTxs (σ : State G) : Action G → List Transaction
  | .server s sa => (σ.server s).submitted sa
  | _ => []

theorem Resumes.holdings {response : Option (Rpc G)} {θ : Thread} (h : Resumes σ response θ σ')
    (s : ℕ) : (σ'.server s).holdings = (σ.server s).holdings := by
  cases h with
  | send s' ch srv' h =>
    by_cases hs : s = s'
    · subst hs
      rcases resumeSend_eq h with ⟨_, _, _, -, rfl⟩ | ⟨_, _, _, -, rfl⟩ <;>
        simp [Server.setSend, Server.holdings, Server.unpacked]
    · simp [hs]
  | pull | vote => rfl

theorem holdings_step (hr : Reachable cfg crypto ok σ) (h : step cfg crypto σ a = some σ') :
    (σ'.server cfg.serverCount).holdings.Perm
      ((σ.server cfg.serverCount).holdings ++ submittedTxs σ a) := by
  have hsame : ∀ srv : Server G, srv.holdings = (σ.server cfg.serverCount).holdings →
      srv.holdings.Perm ((σ.server cfg.serverCount).holdings ++ []) := by
    intro srv he
    rw [he, List.append_nil]
  cases a with
  | server s sa =>
    simp only [step] at h
    split at h
    · obtain ⟨⟨srv', out⟩, ha, rfl⟩ := Option.map_eq_some_iff.mp h
      by_cases hs : cfg.serverCount = s
      · subst hs
        simpa [submittedTxs] using Server.holdings_act ha
      · have hnone : submittedTxs σ (.server s sa) = [] := by
          cases sa with
          | packGenerate txs =>
            cases Server.acts_of_act ha with
            | packGenerate _ hpc =>
              have := (hr.packOk s).packer (Ne.symm hs)
              rw [hpc] at this
              exact absurd this.1 (by simp)
          | _ => rfl
        rw [hnone]
        exact hsame _ (by simp [hs])
    · cases h
  | handle i now order =>
    refine hsame _ ?_
    cases steps_of_step h with
    | handle _ _ _ call srv' rpc' hi hh =>
      by_cases hs : cfg.serverCount = call.target
      · have ht := hh.sameThreads
        simp only [State.setServer_server, ← hs, if_true]
        rw [← hs] at hh ht
        exact Server.holdings_same (by rw [ht.pack]) hh.pendingTxs ht.packed
      · simp [hs]
  | client | foreign => cases steps_of_step h; exact hsame _ (by simp)
  | ret i =>
    cases steps_of_step h with
    | retOrphan => exact hsame _ rfl
    | ret _ call θ _ _ _ _ hr => exact hsame _ (hr.holdings _)
  | fail i =>
    cases steps_of_step h with
    | failOrphan => exact hsame _ rfl
    | fail _ call θ _ _ _ hr => exact hsame _ (hr.holdings _)

theorem holdings_init (cfg : Config) (s : ℕ) : (Server.init cfg s : Server G).holdings = [] := by
  simp [Server.holdings, Server.unpacked, Server.init, PackPc.extracted, Pool.eraseAll]

theorem holdings_of_logged {log : List Transaction}
    (h : Logged (step cfg crypto) (fun σ a => ok σ a) submittedTxs (State.init cfg) σ log) :
    (σ.server cfg.serverCount).holdings.Perm log := by
  induction h with
  | refl => rw [show (State.init cfg : State G).server = Server.init cfg from rfl, holdings_init]
  | next a hl _ hs ih => exact (holdings_step hl.run hs).trans (ih.append_right _)

/-! ## Committed transactions -/

/-- Blocks at other addresses with the contents of packed blocks, one for each id. -/
theorem exists_packed_blocks (hr : Reachable cfg crypto ok σ) (s : ℕ) (entries : List (ℕ × ℕ))
    (h : ∀ e ∈ entries, (σ.server s).committedBlks[e.1]? = some e.2) :
    ∃ blocks : List (Block G), blocks ⊆ (σ.server cfg.serverCount).packed ∧
      blocks.map (·.header.id) = entries.map Prod.fst ∧
      blocks.flatMap Block.txVec =
        entries.flatMap fun e => ((σ.server s).heap[e.2]?).toList.flatMap Block.txVec := by
  induction entries with
  | nil => exact ⟨[], by simp, rfl, rfl⟩
  | cons e entries ih =>
    obtain ⟨blocks, hsub, hids, htxs⟩ := ih fun e' he' => h e' (List.mem_cons_of_mem _ he')
    obtain ⟨b, hb, hid⟩ := idAt_eq_some.mp
      ((hr.wf s).committed e.1 e.2 (h e (List.mem_cons_self ..)))
    obtain ⟨pb, hpb, hs⟩ := ((contentFlow_clean hr).server s).heap b (List.mem_of_getElem? hb)
    refine ⟨pb :: blocks, List.cons_subset.mpr ⟨hpb, hsub⟩, ?_, ?_⟩
    · rw [List.map_cons, List.map_cons, hids, ← hs.1, hid]
    · rw [List.flatMap_cons, List.flatMap_cons, htxs, hb, ← hs.2.2.2]
      simp

theorem committedTxs_subperm (hr : Reachable cfg crypto ok σ) (s : ℕ) :
    (σ.server s).committedTxs.Subperm ((σ.server cfg.serverCount).packed.flatMap Block.txVec) := by
  obtain ⟨blocks, hsub, hids, htxs⟩ := exists_packed_blocks hr s (σ.server s).committedBlks.toList
    fun e he => ExtTreeMap.mem_toList_iff_getElem?_eq_some.mp he
  have hnd : blocks.Nodup := by
    refine List.Nodup.of_map (·.header.id) ?_
    rw [hids, ExtTreeMap.map_fst_toList_eq_keys]
    exact ExtTreeMap.nodup_keys
  obtain ⟨blocks', hperm, hsublist⟩ := List.subperm_of_subset hnd hsub
  rw [Server.committedTxs, ← htxs]
  exact ⟨_, hperm.flatMap_right _, hsublist.flatMap _⟩

/-- Whatever clients request and whichever calls fail, the transactions that were ever put into the
pool are those in no block yet and those of the packed blocks, each as often as it was put in; and
a server has committed each at most as often. -/
theorem transactions_conserved (cfg : Config) (crypto : Crypto G D) (σ : State G)
    (log : List Transaction)
    (h : Logged (step cfg crypto) (fun σ a => unguarded σ a) submittedTxs (State.init cfg) σ log) :
    ((σ.server cfg.serverCount).unpacked ++
        (σ.server cfg.serverCount).packed.flatMap Block.txVec).Perm log ∧
      ∀ s, (σ.server s).committedTxs.Subperm log := by
  have hall := holdings_of_logged h
  refine ⟨hall, fun s => (committedTxs_subperm h.run s).trans ?_⟩
  refine (List.Sublist.subperm ?_).trans hall.subperm
  exact List.sublist_append_right _ _

/-- In a round one transaction is put in, packed and committed by both servers. -/
theorem transactions_conserved_round : ∃ (σ : State Point) (log : List Transaction),
    Logged (step sampleConfig Crypto.symbolic) (fun σ a => unguarded σ a) submittedTxs
      (State.init sampleConfig) σ log ∧
    (σ.server 1).committedTxs = [⟨1, 2, 3, 0, 4⟩] ∧ (σ.server 2).committedTxs = [⟨1, 2, 3, 0, 4⟩] ∧
    ⟨1, 2, 3, 0, 4⟩ ∈ log ∧
    ((σ.server 2).unpacked ++ (σ.server 2).packed.flatMap Block.txVec).Perm log := by
  obtain ⟨σ, hr, hσ⟩ := exists_reachable sampleConfig Crypto.symbolic unguarded Script.round
    (fun σ => (σ.server 1).committedTxs == [⟨1, 2, 3, 0, 4⟩] &&
      (σ.server 2).committedTxs == [⟨1, 2, 3, 0, 4⟩]) (by decide +kernel)
  simp only [Bool.and_eq_true, beq_iff_eq] at hσ
  obtain ⟨log, hlog⟩ := Run.exists_logged submittedTxs hr
  obtain ⟨hall, hcommitted⟩ := transactions_conserved sampleConfig Crypto.symbolic σ log hlog
  refine ⟨σ, log, hlog, hσ.1, hσ.2, (hcommitted 1).subset ?_, hall⟩
  rw [hσ.1]
  exact List.mem_singleton_self _

end TomChain
