import TomChain.Server.Backlog
import TomChain.System.Packing

/-!
# The way of a packed block to every server

A block that was packed is, for every server `t`, at exactly one point of its way to `t`: in the
hands of the packing thread, in the backlog of the packing server for `t`, in a `RelayBlock` call to
`t`, or stored at `t`; unless the call that carried it was lost or rejected. `pipe` counts these
points and `pipe_step` is the balance of one step.
-/

namespace TomChain

open Std (ExtTreeMap)
open Runs Server
open Flexbuffers (Flex fromBytes)

variable {G D : Type} {cfg : Config} {crypto : Crypto G D} {σ σ' : State G} {a : Action G}
  {ok : State G → Action G → Bool}

/-! ## Counting in lists of calls -/

section Count

variable {α β : Type} [BEq β] (f : α → List β)

theorem count_flatMap_set {l : List α} {i : ℕ} {x : α} (h : l[i]? = some x) (y : α) (b : β) :
    ((l.set i y).flatMap f).count b + (f x).count b = (l.flatMap f).count b + (f y).count b := by
  induction l generalizing i with
  | nil => simp at h
  | cons z l ih =>
    cases i with
    | zero =>
      cases h
      simp only [List.set_cons_zero, List.flatMap_cons, List.count_append]
      omega
    | succ i =>
      have := ih h
      simp only [List.set_cons_succ, List.flatMap_cons, List.count_append]
      omega

theorem count_flatMap_eraseIdx {l : List α} {i : ℕ} {x : α} (h : l[i]? = some x) (b : β) :
    ((l.eraseIdx i).flatMap f).count b + (f x).count b = (l.flatMap f).count b := by
  induction l generalizing i with
  | nil => simp at h
  | cons z l ih =>
    cases i with
    | zero =>
      cases h
      simp only [List.eraseIdx_cons_zero, List.flatMap_cons, List.count_append]
      omega
    | succ i =>
      have := ih h
      simp only [List.eraseIdx_cons_succ, List.flatMap_cons, List.count_append]
      omega

end Count

/-! ## What a server contributes -/

/-- Blocks in the hands of the packing thread of server `s` that are still to go to `t`. -/
def PackPc.held (s t id : ℕ) : PackPc → ℕ
  | .push _ _ id' peers _ => if id' = id then if t = s then 1 else peers.count t else 0
  | _ => 0

theorem PackPc.held_push_cons {s t' : ℕ} (hne : t' ≠ s) (t id i p id' : ℕ) (peers ids : List ℕ) :
    (PackPc.push i p id' (t' :: peers) ids).held s t id =
      (PackPc.push i p id' peers ids).held s t id +
        (if t' = t then [(id', 0)] else []).count (id, 0) := by
  simp only [PackPc.held]
  by_cases hid : id' = id
  · subst hid
    by_cases htt : t' = t
    · subst htt
      simp [hne]
    · simp [htt]
  · by_cases htt : t' = t <;> simp [htt, hid]

namespace Server

variable {merge : List (BLSSigShare G) → BLSSignature G} {s : ℕ} {srv srv' : Server G}

/-- The copies of block `id` that server `s` still has to deliver to `t`. -/
def source (srv : Server G) (s t id : ℕ) : ℕ :=
  srv.pack.held s t id + (srv.backlog .block t).count (id, 0)

theorem source_congr (hwf : srv.WF) {now t id : ℕ} {rpc rpc' : Rpc G}
    (h : srv.Handles cfg s now rpc srv' rpc') : srv'.source s t id = srv.source s t id := by
  rw [source, source, h.sameThreads.pack, h.backlog hwf (by simp)]

theorem source_resumeSend (hwf : srv.WF) {ch : Chan} (h : srv.resumeSend ch = some srv') (t id : ℕ) :
    srv'.source s t id = srv.source s t id := by
  rw [source, source, backlog_resumeSend hwf h]
  rcases resumeSend_eq h with ⟨_, _, _, -, rfl⟩ | ⟨_, _, _, -, rfl⟩ <;> rfl

theorem resumeSend_history {ch : Chan} (h : srv.resumeSend ch = some srv') :
    srv'.stored = srv.stored ∧ srv'.packedIds = srv.packedIds := by
  rcases resumeSend_eq h with ⟨_, _, _, -, rfl⟩ | ⟨_, _, _, -, rfl⟩ <;> exact ⟨rfl, rfl⟩

theorem Handles.packedIds {now : ℕ} {rpc rpc' : Rpc G} (h : srv.Handles cfg s now rpc srv' rpc') :
    srv'.packedIds = srv.packedIds := by
  rw [Server.packedIds, h.sameThreads.packed, Server.packedIds]

/-- The balance of a thread's step: a new block has one way to every peer and one to the packing
server's own map. -/
theorem Acts.balance (hwf : srv.WF) (hq : srv.QueuesOk cfg s) {sa : ServerAction}
    {out : Option (ℕ × Rpc G)} (h : srv.Acts cfg merge s sa srv' out) {t : ℕ}
    (ht : t = s ∨ t ∈ peerIds cfg.serverCount s) (id : ℕ) :
    srv'.source s t id + (outMail out .block t).count (id, 0) +
        (if t = s then srv'.stored.count id else 0) + srv.packedIds.count id =
      srv.source s t id + (if t = s then srv.stored.count id else 0) + srv'.packedIds.count id := by
  have hb := congrArg (List.count (id, 0)) (h.backlog hwf hq .block t)
  simp only [List.count_append] at hb
  have hquiet : srv'.pack.held s t id = srv.pack.held s t id →
      (srv.newMail sa .block t).count (id, 0) = 0 → srv'.stored = srv.stored →
      srv'.packed = srv.packed → srv'.source s t id + (outMail out .block t).count (id, 0) +
        (if t = s then srv'.stored.count id else 0) + srv.packedIds.count id =
      srv.source s t id + (if t = s then srv.stored.count id else 0) + srv'.packedIds.count id := by
    intro h1 h2 h3 h4
    rw [source, source, h1, h3, Server.packedIds, Server.packedIds, h4]
    omega
  cases h with
  | packCheck pc hpc _ hpc' =>
    refine hquiet ?_ rfl rfl rfl
    rw [hpc]
    rcases hpc' with rfl | rfl <;> rfl
  | packGenerate txs hpc => exact hquiet (by rw [hpc]; rfl) rfl rfl rfl
  | packEnd i hpc => exact hquiet (by rw [hpc]; rfl) rfl rfl rfl
  | packBegin i now order hpc =>
    have hheld : (srv.packBegin cfg i now order).pack.held s t id =
        [(srv.newBlock cfg now order).header.id].count id := by
      simp only [Server.packBegin, PackPc.held, List.count_singleton, beq_iff_eq]
      rcases ht with rfl | ht
      · simp
      · have hne : t ≠ s := (mem_peerIds.mp ht).2.2
        have hmem : t ∈ srv.relayBlocks.keys := ExtTreeMap.mem_keys.mpr ((hq.blocks t).mpr ht)
        rw [if_neg hne, List.count_eq_one_of_mem ExtTreeMap.nodup_keys hmem]
    have hids : (srv.packBegin cfg i now order).packedIds =
        srv.packedIds ++ [(srv.newBlock cfg now order).header.id] := by
      simp [Server.packedIds, Server.packBegin]
    have hheld₀ : srv.pack.held s t id = 0 := by rw [hpc]; rfl
    have hstored : (srv.packBegin cfg i now order).stored = srv.stored := rfl
    simp only [source, hheld, hheld₀, hids, hstored, List.count_append]
    simp only [newMail, List.count_nil] at hb
    omega
  | packPush i p id' t' peers ids hpc =>
    have ht' := (hq.pack _ _ _ _ _ hpc).2 t' (List.mem_cons_self ..)
    have hne' : t' ≠ s := (mem_peerIds.mp ht').2.2
    have hheld := PackPc.held_push_cons hne' t id i p id' peers ids
    simp only [newMail, hpc] at hb
    simp only [source, hpc, hheld]
    have hids : ({ srv with
        relayBlocks := srv.relayBlocks.modify t' (· ++ [p])
        pack := .push i p id' peers ids } : Server G).packedIds = srv.packedIds := rfl
    rw [hids]
    omega
  | packInsert i p id' ids hpc =>
    simp only [newMail, List.count_nil] at hb
    simp only [source, hpc, PackPc.held, storePending, List.count_append, List.count_singleton,
      beq_iff_eq, List.count_nil]
    have hids : ({ srv.storePending id' p with
        pendingTxs := ids.foldl (fun m id => m.erase id) srv.pendingTxs
        pack := .pack (i + 1) } : Server G).packedIds = srv.packedIds := rfl
    simp only [storePending] at hids hb
    rw [hids]
    by_cases hts : t = s
    · simp only [if_pos hts]
      omega
    · simp only [if_neg hts, ite_self]
      omega
  | sendPop ch t' items ids rest srv'' item ids' _ hpop =>
    cases hpop <;> exact hquiet rfl rfl rfl rfl
  | reap id' now =>
    rcases reap_eq cfg srv id' now with h | ⟨-, h⟩
    · rw [h] at hquiet ⊢
      exact hquiet rfl rfl rfl rfl
    · rw [h] at hquiet ⊢
      exact hquiet rfl rfl rfl rfl
  | _ => exact hquiet rfl rfl rfl rfl

theorem Records.stored {id k : ℕ} {v : BlockVote G} (h : srv.Records cfg id k v srv') :
    srv'.stored = srv.stored := by
  cases h <;> rfl

/-- Handlers store blocks only in `RelayBlock`. -/
theorem Handles.stored {now : ℕ} {rpc rpc' : Rpc G} (h : srv.Handles cfg s now rpc srv' rpc') :
    (∃ item rest block, rpc = .relayBlock (item :: rest) ∧ fromBytes item = some block ∧
      rpc' = .relayBlock rest ∧ srv' = srv.relayBlockItem block) ∨
    (srv'.stored = srv.stored ∧ ((∃ item rest, rpc = .relayBlock (item :: rest) ∧
      fromBytes item = none ∧ rpc' = .failed) ∨ rpc'.carried .block = [] ∧ rpc.carried .block = [])) := by
  cases h with
  | relayBlock item rest block hd => exact .inl ⟨item, rest, block, rfl, hd, rfl, rfl⟩
  | relayBlockFailed item rest hd => exact .inr ⟨rfl, .inl ⟨item, rest, rfl, hd, rfl⟩⟩
  | relayVote item rest vote _ =>
    refine .inr ⟨?_, .inr ⟨rfl, rfl⟩⟩
    unfold relayVoteItem
    split
    · rfl
    · exact (records_recordVote ..).stored
  | spBcastCommit item rest block _ =>
    refine .inr ⟨?_, .inr ⟨rfl, rfl⟩⟩
    rcases spBcastCommitItem_eq cfg srv now block with ⟨-, h⟩ | ⟨-, db, h⟩ <;> rw [h]
    rfl
  | pullItem id blockId p todo pbHdrs b _ hdrs hb hi =>
    refine .inr ⟨?_, .inr ⟨rfl, rfl⟩⟩
    rcases pullItem_eq hi with ⟨rfl, -⟩ | ⟨-, -, clients, rfl⟩ <;> rfl
  | record => exact .inr ⟨(records_recordVote ..).stored, .inr ⟨rfl, rfl⟩⟩
  | voteBlocks id item rest block _ current _ hi =>
    obtain ⟨queues, rfl⟩ := voteBlocksItem_eq hi
    exact .inr ⟨rfl, .inr ⟨rfl, rfl⟩⟩
  | _ => exact .inr ⟨rfl, .inr ⟨rfl, rfl⟩⟩

/-- Threads store blocks only at the end of `pack_block`. -/
theorem Acts.stored {sa : ServerAction} {out : Option (ℕ × Rpc G)}
    (h : srv.Acts cfg merge s sa srv' out) :
    srv'.stored = srv.stored ∨ ∃ i p id ids, srv.pack = .push i p id [] ids ∧
      srv'.stored = srv.stored ++ [id] ∧ id ∈ srv'.pendingBlks := by
  cases h with
  | packInsert i p id ids hpc =>
    refine .inr ⟨i, p, id, ids, hpc, rfl, ?_⟩
    simp [storePending]
  | sendPop ch t' items ids rest srv'' item ids' _ hpop => cases hpop <;> exact .inl rfl
  | reap id' now => rcases reap_eq cfg srv id' now with h | ⟨-, h⟩ <;> rw [h] <;> exact .inl rfl
  | _ => exact .inl rfl

end Server

theorem Reachable.relayOk (h : Reachable cfg crypto ok σ) (s : ℕ) :
    (σ.server s).QueuesOk cfg s ∧ (σ.server s).Traced := by
  have := h.server_invariant (fun s srv => srv.WF ∧ srv.QueuesOk cfg s ∧ srv.Traced)
    (fun s => ⟨wf_init cfg s, queuesOk_init cfg s, traced_init cfg s⟩)
    (fun s srv srv' hP hm => ⟨hm.wf hP.1, hP.2.1.moves hm, hP.2.2.moves hP.1 hP.2.1 hm⟩) s
  exact this.2

theorem finished_carried {rpc : Rpc G} (h : rpc.finished = true) (ch : Chan) : rpc.carried ch = [] := by
  cases rpc with
  | relayVote items | relayBlock items | spBcastCommit items =>
    have hnil : items = [] := List.isEmpty_iff.mp h
    subst hnil
    cases ch <;> rfl
  | _ => cases ch <;> rfl

/-! ## The balance of a step -/

def Call.mail (ch : Chan) (t : ℕ) (call : Call G) : List (ℕ × ℕ) :=
  if call.target = t then call.rpc.carried ch else []

def mail (σ : State G) (ch : Chan) (t : ℕ) : List (ℕ × ℕ) := σ.calls.flatMap (Call.mail ch t)

/-- What a `RelayBlock` handler leaves undone when an element does not decode. -/
def Rpc.rejected : Rpc G → List (ℕ × ℕ)
  | .relayBlock (item :: rest) =>
    if (fromBytes item).isNone then (item :: rest).map (wireKey .block) else []
  | _ => []

/-- The blocks on the way to `t` that a step loses: a rejected request, or one that fails for good
before it is handled. -/
def lostMail (σ : State G) (t : ℕ) : Action G → List (ℕ × ℕ)
  | .handle i _ _ =>
    match σ.calls[i]? with
    | some call => if call.target = t then call.rpc.rejected else []
    | none => []
  | .fail i =>
    match σ.calls[i]? with
    | some call => if call.caller.isNone then call.mail .block t else []
    | none => []
  | _ => []

/-- The points of its way to `t` at which block `id` is. -/
def pipe (cfg : Config) (σ : State G) (t id : ℕ) : ℕ :=
  (σ.server cfg.serverCount).source cfg.serverCount t id + (mail σ .block t).count (id, 0) +
    (σ.server t).stored.count id

def packedCount (cfg : Config) (σ : State G) (id : ℕ) : ℕ :=
  (σ.server cfg.serverCount).packedIds.count id

theorem mail_addCall (σ : State G) (caller : Option Thread) (out : Option (ℕ × Rpc G)) (ch : Chan)
    (t : ℕ) : mail (σ.addCall caller out) ch t = mail σ ch t ++ outMail out ch t := by
  rw [mail, State.addCall_calls, List.flatMap_append]
  cases out with
  | none => simp [madeCall, outMail, mail]
  | some r => simp [madeCall, outMail, mail, Call.mail]

theorem Resumes.mail {response : Option (Rpc G)} {θ : Thread} (h : Resumes σ response θ σ') :
    mail σ' = mail σ := by
  cases h <;> rfl

theorem Resumes.pipe (cfg : Config) {response : Option (Rpc G)} {θ : Thread}
    (h : Resumes σ response θ σ') (hwf : ∀ s, (σ.server s).WF) (t id : ℕ) :
    pipe cfg σ' t id = pipe cfg σ t id ∧ packedCount cfg σ' id = packedCount cfg σ id := by
  cases h with
  | send s ch srv' hr =>
    have hsrc : ((σ.setServer s srv').server cfg.serverCount).source cfg.serverCount t id =
        (σ.server cfg.serverCount).source cfg.serverCount t id := by
      rw [State.setServer_server]
      split
      · rename_i he
        subst he
        exact source_resumeSend (hwf _) hr t id
      · rfl
    have hstored : ∀ t, ((σ.setServer s srv').server t).stored = (σ.server t).stored := by
      intro t
      rw [State.setServer_server]
      split
      · rename_i he
        subst he
        exact (resumeSend_history hr).1
      · rfl
    refine ⟨?_, ?_⟩
    · rw [TomChain.pipe, TomChain.pipe, hsrc, hstored]
      rfl
    · rw [packedCount, packedCount, State.setServer_server]
      split
      · rename_i he
        subst he
        rw [(resumeSend_history hr).2]
      · rfl
  | pull | vote => exact ⟨rfl, rfl⟩

/-- A server that does not pack relays no blocks and stores none by itself. -/
theorem Server.Acts.idle {s : ℕ} {srv srv' : Server G} {sa : ServerAction} {out : Option (ℕ × Rpc G)}
    (hwf : srv.WF) (hq : srv.QueuesOk cfg s) (ht : srv.Traced) (hp : srv.PackOk cfg s)
    (hs : s ≠ cfg.serverCount) (h : srv.Acts cfg crypto.merge s sa srv' out) (t : ℕ) :
    outMail out .block t = [] ∧ srv'.stored = srv.stored := by
  obtain ⟨hpack, hpacked⟩ := hp.packer hs
  refine ⟨?_, ?_⟩
  · have hback : srv.backlog .block t = [] := by
      refine List.eq_nil_iff_forall_not_mem.mpr fun k hk => ?_
      have := ht.backlog t k hk
      rw [Server.packedIds, hpacked] at this
      cases this
    have hnew : srv.newMail sa .block t = [] := by
      unfold newMail
      split
      · simp [hpack]
      · rename_i hch; cases hch
      · rfl
    have := h.backlog hwf hq .block t
    rw [hback, hnew, List.append_nil] at this
    exact (List.append_eq_nil_iff.mp this).1
  · rcases h.stored with h | ⟨i, p, id, ids, hpc, -, -⟩
    · exact h
    · rw [hpack] at hpc
      cases hpc

theorem pipe_server (hr : Reachable cfg crypto ok σ) {s : ℕ} {sa : ServerAction} {srv' : Server G}
    {out : Option (ℕ × Rpc G)} (ha : (σ.server s).Acts cfg crypto.merge s sa srv' out)
    (caller : Option Thread) {t : ℕ} (h1 : 1 ≤ t)
    (h2 : t ≤ cfg.serverCount) (id : ℕ) :
    pipe cfg ((σ.setServer s srv').addCall caller out) t id + packedCount cfg σ id =
      pipe cfg σ t id + packedCount cfg ((σ.setServer s srv').addCall caller out) id := by
  obtain ⟨hq, htr⟩ := hr.relayOk s
  have hmail : mail (σ.setServer s srv') = mail σ := rfl
  simp only [pipe, packedCount, mail_addCall, hmail, State.addCall_server, List.count_append]
  by_cases hs : s = cfg.serverCount
  · subst hs
    have ht : t = cfg.serverCount ∨ t ∈ peerIds cfg.serverCount cfg.serverCount := by
      by_cases he : t = cfg.serverCount
      · exact .inl he
      · exact .inr (mem_peerIds.mpr ⟨h1, h2, he⟩)
    have hbal := ha.balance (hr.wf _) hq ht id
    by_cases he : t = cfg.serverCount
    · subst he
      simp only [State.setServer_server, if_true] at hbal ⊢
      omega
    · simp only [if_neg he, State.setServer_server, if_true] at hbal ⊢
      omega
  · obtain ⟨hout, hstored⟩ := ha.idle (hr.wf s) hq htr (hr.packOk s) hs t
    have hne : cfg.serverCount ≠ s := fun h => hs h.symm
    have hst : ((σ.setServer s srv').server t).stored = (σ.server t).stored := by
      rw [State.setServer_server]
      split
      · rename_i he
        subst he
        exact hstored
      · rfl
    rw [hst, hout]
    simp only [State.setServer_server, if_neg hne, List.count_nil]
    omega

/-- What a handler takes from its call is stored or lost. -/
theorem Server.Handles.delivery {s now : ℕ} {srv srv' : Server G} {rpc rpc' : Rpc G}
    (h : srv.Handles cfg s now rpc srv' rpc') (id : ℕ) :
    (rpc'.carried .block).count (id, 0) + srv'.stored.count id + rpc.rejected.count (id, 0) =
      (rpc.carried .block).count (id, 0) + srv.stored.count id := by
  rcases h.stored with ⟨item, rest, block, rfl, hd, rfl, rfl⟩ |
    ⟨hst, ⟨item, rest, rfl, hd, rfl⟩ | ⟨hc', hc⟩⟩
  · have hk : wireKey .block item = (block.header.id, 0) := wireKey_of_fromBytes (by simp) hd
    simp only [Rpc.carried, Rpc.rejected, hd, Option.isNone_some, Bool.false_eq_true, if_false,
      List.map_cons, hk, relayBlockItem, storePending, Server.alloc, List.count_append,
      List.count_cons, List.count_nil, beq_iff_eq, Prod.mk.injEq, and_true]
    omega
  · simp only [hst, Rpc.carried, Rpc.rejected, hd, Option.isNone_none, if_true, List.count_nil]
    omega
  · have hrej : rpc.rejected = [] := by
      unfold Rpc.rejected
      split
      · simp [Rpc.carried] at hc
      · rfl
    simp [hst, hc', hc, hrej]

theorem pipe_handle (hr : Reachable cfg crypto ok σ) {i now : ℕ} {call : Call G} {srv' : Server G}
    {rpc' : Rpc G} (hi : σ.calls[i]? = some call)
    (hh : (σ.server call.target).Handles cfg call.target now call.rpc srv' rpc')
    (order : List (ℕ × ℕ)) (hσ : σ' = { σ.setServer call.target srv' with
      calls := σ.calls.set i { call with rpc := rpc' }
      received := σ.received ++ call.rpc.takenItem }) (t id : ℕ) :
    pipe cfg σ' t id + (lostMail σ t (.handle i now order)).count (id, 0) = pipe cfg σ t id ∧
      packedCount cfg σ' id = packedCount cfg σ id := by
  subst hσ
  have hset := count_flatMap_set (Call.mail Chan.block t) hi { call with rpc := rpc' } (id, 0)
  have hdel := hh.delivery id
  have hsrc : ((σ.setServer call.target srv').server cfg.serverCount).source cfg.serverCount t id =
      (σ.server cfg.serverCount).source cfg.serverCount t id := by
    rw [State.setServer_server]
    split
    · rename_i he
      rw [he]
      exact source_congr (hr.wf _) hh
    · rfl
  refine ⟨?_, ?_⟩
  · simp only [pipe, mail, hsrc, lostMail, hi]
    simp only [Call.mail] at hset ⊢
    by_cases ht : call.target = t
    · subst ht
      simp only [if_true, State.setServer_server] at hset ⊢
      omega
    · have ht' : t ≠ call.target := fun h => ht h.symm
      simp only [if_neg ht, if_neg ht', State.setServer_server, List.count_nil] at hset ⊢
      omega
  · simp only [packedCount, State.setServer_server]
    split
    · rename_i he
      rw [he, hh.packedIds]
    · rfl

/-- The balance of one step. -/
theorem pipe_step (hr : Reachable cfg crypto ok σ) (hs : Steps cfg crypto σ a σ') {t : ℕ}
    (h1 : 1 ≤ t) (h2 : t ≤ cfg.serverCount) (id : ℕ) :
    pipe cfg σ' t id + (lostMail σ t a).count (id, 0) + packedCount cfg σ id =
      pipe cfg σ t id + packedCount cfg σ' id := by
  cases hs with
  | server s sa srv' out _ _ ha =>
    have := pipe_server hr ha (some (.send s sa.chan)) h1 h2 id
    simp only [lostMail, List.count_nil]
    omega
  | client c ca cl' out _ _ ha =>
    have hout : outMail out .block t = [] := by
      cases ha <;> simp [outMail, Rpc.carried]
    have hmail : mail (σ.setClient c cl') = mail σ := rfl
    simp only [lostMail, List.count_nil, pipe, packedCount, mail_addCall, hmail, hout,
      List.append_nil, State.addCall_server, State.setClient_server]
    omega
  | handle i now order call srv' rpc' hi hh =>
    obtain ⟨hp, hc⟩ := pipe_handle hr hi hh order rfl t id
    omega
  | retOrphan i call hi hf _ =>
    have he := count_flatMap_eraseIdx (Call.mail Chan.block t) hi (id, 0)
    have hm : call.mail .block t = [] := by simp [Call.mail, finished_carried hf]
    simp only [hm, List.count_nil] at he
    simp only [lostMail, List.count_nil, pipe, packedCount, mail]
    omega
  | ret i call θ _ hi hf _ hres =>
    have he := count_flatMap_eraseIdx (Call.mail Chan.block t) hi (id, 0)
    have hm : call.mail .block t = [] := by simp [Call.mail, finished_carried hf]
    simp only [hm, List.count_nil] at he
    obtain ⟨hp, hc⟩ := hres.pipe cfg (fun s => hr.wf s) t id
    rw [hp, hc]
    simp only [lostMail, List.count_nil, pipe, packedCount, mail]
    omega
  | failOrphan i call hi hc =>
    have he := count_flatMap_eraseIdx (Call.mail Chan.block t) hi (id, 0)
    simp only [lostMail, hi, hc, Option.isNone_none, if_true, pipe, packedCount, mail]
    omega
  | fail i call θ _ hi hc hres =>
    have he := count_flatMap_set (Call.mail Chan.block t) hi { call with caller := none } (id, 0)
    have hm : Call.mail Chan.block t { call with caller := none } = call.mail .block t := rfl
    rw [hm] at he
    obtain ⟨hp, hcnt⟩ := hres.pipe cfg (fun s => hr.wf s) t id
    rw [hp, hcnt]
    simp only [lostMail, hi, hc, Option.isNone_some, Bool.false_eq_true, if_false, List.count_nil,
      pipe, packedCount, mail]
    omega
  | foreign target rpc _ _ hc =>
    have hout : outMail (some (target, rpc)) .block t = [] := by
      cases rpc <;> simp [Rpc.isClientRequest] at hc <;> simp [outMail, Rpc.carried]
    simp only [lostMail, List.count_nil, pipe, packedCount, mail_addCall, hout, List.append_nil,
      State.addCall_server]
    omega

/-! ## Along a run -/

theorem pipe_init (cfg : Config) (t id : ℕ) : pipe cfg (State.init cfg : State G) t id = 0 := by
  have hb : (Server.init cfg cfg.serverCount : Server G).backlog .block t = [] := by
    refine List.eq_nil_iff_forall_not_mem.mpr fun k hk => ?_
    have := (traced_init cfg cfg.serverCount).backlog t k hk
    simp [Server.packedIds, Server.init] at this
  have hsrc : (Server.init cfg cfg.serverCount : Server G).source cfg.serverCount t id = 0 := by
    rw [Server.source, hb]
    rfl
  have hstored : (Server.init cfg t : Server G).stored = [] := rfl
  simp [pipe, State.init, mail, hsrc, hstored]

/-- A block is on its way to a server, or has arrived there, at most as often as it was packed. -/
theorem pipe_le (h : Reachable cfg crypto ok σ) {t : ℕ} (h1 : 1 ≤ t) (h2 : t ≤ cfg.serverCount)
    (id : ℕ) : pipe cfg σ t id ≤ packedCount cfg σ id := by
  refine h.invariant (fun σ => pipe cfg σ t id ≤ packedCount cfg σ id)
    (by rw [pipe_init]; exact Nat.zero_le _) fun σ a σ' hr _ hle hs => ?_
  have := pipe_step hr (steps_of_step hs) h1 h2 id
  omega

/-- If nothing is lost, it is exactly that often. -/
theorem pipe_eq (hlost : ∀ σ a t, ok σ a → lostMail σ t a = []) (h : Reachable cfg crypto ok σ)
    {t : ℕ} (h1 : 1 ≤ t) (h2 : t ≤ cfg.serverCount) (id : ℕ) :
    pipe cfg σ t id = packedCount cfg σ id := by
  refine h.invariant (fun σ => pipe cfg σ t id = packedCount cfg σ id)
    (by rw [pipe_init]; simp [packedCount, State.init, Server.init, Server.packedIds])
    fun σ a σ' hr hok heq hs => ?_
  have := pipe_step hr (steps_of_step hs) h1 h2 id
  rw [hlost σ a t hok, List.count_nil] at this
  omega

/-- With fewer than `2 ^ 64` blocks, no server stores an id twice. -/
theorem stored_count_le_one (h : Reachable cfg crypto ok σ)
    (hlt : (σ.server cfg.serverCount).packed.length < 2 ^ 64) {t : ℕ} (h1 : 1 ≤ t)
    (h2 : t ≤ cfg.serverCount) (id : ℕ) : (σ.server t).stored.count id ≤ 1 := by
  have hle := pipe_le h h1 h2 id
  have hnd : (σ.server cfg.serverCount).packedIds.Nodup := (h.packOk _).nodup (by omega)
  have hone : packedCount cfg σ id ≤ 1 := List.nodup_iff_count_le_one.mp hnd id
  unfold pipe at hle
  omega

end TomChain
