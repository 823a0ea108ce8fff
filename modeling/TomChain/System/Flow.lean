import TomChain.System.Reach

/-!
# Where data flows

Blocks, votes and labels travel from server to server, to the clients and back, through maps,
queues, serialised requests and responses. A `Flow` gives one predicate for each kind of data;
`Flow.Clean` says that it holds at every place where such data can be. If the predicates are
closed under what the code does to the data (`Flow.Laws`) and hold where the data enters
(`Flow.Sources`), a step keeps the system clean (`Flow.Clean.step`).

Beside the predicates, `Clean` carries the one fact about quorums that every flow needs: a block
on its way to a commit has at least `client-count` votes.
-/

namespace TomChain

open Std (ExtTreeMap ExtTreeSet)
open Server
open Flexbuffers (Flex toBytes fromBytes headerToBytes headerFromBytes voteToBytes voteFromBytes)

variable {G D : Type}

structure Flow (G : Type) where
  /-- blocks that servers hold or send to each other -/
  block : Block G → Prop
  /-- a vote, the key it is recorded under and the id of its block -/
  ballot : ℕ → ℕ → BlockVote G → Prop
  /-- ids on which the sync signal is given -/
  label : ℕ → Prop
  /-- ids that clients are told about -/
  offered : ℕ → Prop
  /-- blocks that `GetBlocks` returns -/
  served : Block G → Prop
  /-- elements of `VoteBlocks` requests, with the id of the request -/
  item : ℕ → Flex G → Prop
  /-- ids of blocks that some server merged -/
  final : ℕ → Prop

namespace Flow

def top : Flow G where
  block _ := True
  ballot _ _ _ := True
  label _ := True
  offered _ := True
  served _ := True
  item _ _ := True
  final _ := True

def onLabels (P : ℕ → Prop) : Flow G := { (Flow.top : Flow G) with label := P }

variable (F : Flow G) (cfg : Config) (crypto : Crypto G D)

/-! ## The predicates at every place -/

def Quorum (cfg : Config) (heap : List (Block G)) (p : ℕ) : Prop :=
  ∃ b, heap[p]? = some b ∧ cfg.clientCount ≤ b.votes.size

def Final (heap : List (Block G)) (p : ℕ) : Prop := ∃ b, heap[p]? = some b ∧ F.final b.header.id

/-- A serialised element of one of the three relay requests. -/
def Wire : Chan → Flex G → Prop
  | .vote, item => ∃ v, F.ballot v.voterId v.blockId v ∧ item = voteToBytes v
  | .block, item => ∃ b, F.block b ∧ item = toBytes b
  | .commit, item =>
    ∃ b, F.block b ∧ cfg.clientCount ≤ b.votes.size ∧ F.final b.header.id ∧ item = toBytes b

def SendOk (ch : Chan) : SendPc G → Prop
  | .drain _ items _ _ => ∀ item ∈ items, F.Wire cfg ch item
  | .syncSend id _ => F.label id
  | .syncWait id _ _ => F.label id
  | _ => True

def RpcOk : Rpc G → Prop
  | .relayVote items => ∀ item ∈ items, F.Wire cfg .vote item
  | .relayBlock items => ∀ item ∈ items, F.Wire cfg .block item
  | .spBcastCommit items => ∀ item ∈ items, F.Wire cfg .commit item
  | .relayBlockSync id _ => F.label id
  | .pullPendingBlocks _ _ pbHdrs => ∀ h ∈ pbHdrs, F.offered (headerFromBytes h).id
  | .getBlocks pbHdrs pb =>
    (∀ h ∈ pbHdrs, F.offered (headerFromBytes h).id) ∧ ∀ item ∈ pb, ∃ b, F.served b ∧ item = toBytes b
  | .voteBlocks id items current =>
    (∀ item ∈ items, F.item id item) ∧ ∀ blockId v, current = some (blockId, v) → F.ballot id blockId v
  | .failed => True
  | .undefined => True

/-- The containers of `srv` that hold pointers into `heap`. -/
structure HeldOk (heap : List (Block G)) (srv : Server G) : Prop where
  queue : ∀ p ∈ srv.pbMergeQueue, Quorum cfg heap p
  merge : ∀ p, srv.merge.Holds p → Quorum cfg heap p
  push : ∀ p peers, srv.merge = .push p peers → F.Final heap p
  bcast : ∀ (t : ℕ) q, srv.bcastCommitBlocks[t]? = some q → ∀ p ∈ q,
    Quorum cfg heap p ∧ F.Final heap p

structure ServerOk (srv : Server G) : Prop where
  heap : ∀ b ∈ srv.heap, F.block b
  held : F.HeldOk cfg srv.heap srv
  committed : ∀ id ∈ srv.committedBlks, F.final id
  ballots : ∀ (t : ℕ) q, srv.relayVotes[t]? = some q → ∀ v ∈ q, F.ballot v.voterId v.blockId v
  labels : ∀ id ∈ srv.pbSyncLabels, F.label id
  send : ∀ ch, F.SendOk cfg ch (srv.send ch)

def VoteOk (c : ℕ) : VotePc G → Prop
  | .idle => True
  | .send request _ => F.item c request
  | .wait request _ => F.item c request

structure ClientOk (c : ℕ) (cl : Client G) : Prop where
  hdrs : ∀ (id : ℕ) h, cl.pendingBlkhdr[id]? = some h → F.offered h.id
  blks : ∀ b ∈ cl.pendingBlks, F.served b ∧ b.tssSig = none
  vote : F.VoteOk c cl.vote

structure Clean (σ : State G) : Prop where
  server : ∀ s, F.ServerOk cfg (σ.server s)
  client : ∀ c, F.ClientOk c (σ.client c)
  calls : ∀ call ∈ σ.calls, F.RpcOk cfg call.rpc

/-! ## What a flow has to satisfy -/

/-- The predicates are closed under what the code does with blocks. -/
structure Laws : Prop where
  dist : ∀ b now, F.block b → F.block (b.stampDist now)
  insert : ∀ b k v, F.block b → F.ballot k b.header.id v → F.block (b.insertVote k v)
  sign : ∀ (b : Block G) sig, F.block b → F.block { b with tssSig := sig }
  commit : ∀ b now, F.block b → cfg.clientCount ≤ b.votes.size → F.block (b.stampCommit now)
  recv : ∀ b now, F.block b → cfg.clientCount ≤ b.votes.size → F.block (b.stampRecv now)
  offered : ∀ id, F.label id → F.offered id
  served : ∀ b : Block G, F.served b → F.served { b with tssSig := none }
  item : ∀ b c, F.served b → b.tssSig = none → 1 ≤ c → c ≤ cfg.clientCount →
    F.item c (toBytes (votedBlock crypto cfg.clientCount c b))

/-- The predicates hold of the data that the action `a` brings in. -/
structure Sources (σ : State G) (a : Action G) : Prop where
  pack : ∀ s now order, a = .server s (.packBegin now order) →
    F.block ((σ.server s).newBlock cfg now order)
  sync : ∀ s id q, a = .server s .syncPop → (σ.server s).send .block = .sync →
    (σ.server s).pbSyncQueue = id :: q → F.label id
  merge : ∀ s now p b, a = .server s (.mergeCommit now) → (σ.server s).merge = .popped p →
    (σ.server s).heap[p]? = some b → F.final b.header.id
  vote : ∀ i now order call id item rest block v, a = .handle i now order →
    σ.calls[i]? = some call → call.rpc = .voteBlocks id (item :: rest) none → F.item id item →
    fromBytes item = some block → block.votes[id]? = some v →
    F.ballot id block.header.id v ∧
      (block.header.id ∉ (σ.server call.target).deadBlock →
        (∃ t ∈ block.getServerId cfg.serverCount, t ≠ call.target) →
        F.ballot v.voterId v.blockId v)
  get : ∀ i now order call hdr rest pb p b, a = .handle i now order →
    σ.calls[i]? = some call → call.rpc = .getBlocks (hdr :: rest) pb →
    F.offered (headerFromBytes hdr).id →
    (σ.server call.target).pendingBlks[(headerFromBytes hdr).id]? = some p →
    (σ.server call.target).heap[p]? = some b → F.block b → F.served b
  foreign : ∀ target rpc, a = .foreign target rpc → rpc.isClientRequest = true → F.RpcOk cfg rpc

/-! ## A step of a server -/

variable {F cfg crypto}

theorem Quorum.mono {heap heap' : List (Block G)} (hg : HeapGrows heap heap') {p : ℕ}
    (h : Quorum cfg heap p) : Quorum cfg heap' p := by
  obtain ⟨b, hb, hn⟩ := h
  obtain ⟨b', hb', hbb⟩ := hg p b hb
  exact ⟨b', hb', hn.trans hbb.size_le⟩

theorem Final.mono {heap heap' : List (Block G)} (hg : HeapGrows heap heap') {p : ℕ}
    (h : F.Final heap p) : F.Final heap' p := by
  obtain ⟨b, hb, hf⟩ := h
  obtain ⟨b', hb', hbb⟩ := hg p b hb
  exact ⟨b', hb', hbb.id_eq ▸ hf⟩

theorem HeldOk.mono {heap heap' : List (Block G)} {srv : Server G} (hg : HeapGrows heap heap')
    (h : F.HeldOk cfg heap srv) : F.HeldOk cfg heap' srv where
  queue p hp := (h.queue p hp).mono hg
  merge p hp := (h.merge p hp).mono hg
  push p peers hp := (h.push p peers hp).mono hg
  bcast t q hq p hp := ⟨(h.bcast t q hq p hp).1.mono hg, (h.bcast t q hq p hp).2.mono hg⟩

theorem sendOk_setSend {send : Chan → SendPc G} {ch : Chan} {pc : SendPc G}
    (h : ∀ ch, F.SendOk cfg ch (send ch)) (hpc : F.SendOk cfg ch pc) :
    ∀ ch', F.SendOk cfg ch' (Function.update send ch pc ch') := by
  intro ch'
  by_cases he : ch' = ch
  · subst he
    simpa using hpc
  · simpa [he] using h ch'

theorem sendOk_nextTarget (ch : Chan) (rest : List ℕ) : F.SendOk cfg ch (nextTarget ch rest) := by
  cases rest with
  | nil =>
    simp only [nextTarget]
    split <;> trivial
  | cons t rest => simp [nextTarget, SendOk]

theorem rpcOk_request {ch : Chan} {items : List (Flex G)} (h : ∀ item ∈ items, F.Wire cfg ch item) :
    F.RpcOk cfg (request ch items) := by
  cases ch <;> exact h

theorem forall_mem_heap_modify {heap : List (Block G)} {P : Block G → Prop} (h : ∀ b ∈ heap, P b)
    {p : ℕ} {f : Block G → Block G} (hf : ∀ b, heap[p]? = some b → P b → P (f b)) :
    ∀ b ∈ heap.modify p f, P b := by
  intro b hb
  obtain ⟨q, hq⟩ := List.mem_iff_getElem?.mp hb
  rw [List.getElem?_modify] at hq
  obtain ⟨b₀, hb₀, rfl⟩ := Option.map_eq_some_iff.mp hq
  have hP := h b₀ (List.mem_of_getElem? hb₀)
  split
  · rename_i he
    subst he
    exact hf b₀ hb₀ hP
  · exact hP

theorem forall_mem_heap_append {heap : List (Block G)} {P : Block G → Prop} (h : ∀ b ∈ heap, P b)
    {b : Block G} (hb : P b) : ∀ b' ∈ heap ++ [b], P b' := by
  intro b' hm
  rcases List.mem_append.mp hm with hm | hm
  · exact h b' hm
  · rw [List.mem_singleton.mp hm]
    exact hb

theorem forall_mem_insert_key {m : ExtTreeMap ℕ ℕ} {P : ℕ → Prop} (h : ∀ id ∈ m, P id) {id p : ℕ}
    (hid : P id) : ∀ id' ∈ m.insert id p, P id' := by
  intro id' hm
  rcases ExtTreeMap.mem_insert.mp hm with he | hm
  · rw [← Nat.compare_eq_eq.mp he]
    exact hid
  · exact h id' hm

theorem ServerOk.setSend {srv : Server G} {ch : Chan} {pc : SendPc G} (hF : F.ServerOk cfg srv)
    (hpc : F.SendOk cfg ch pc) : F.ServerOk cfg (srv.setSend ch pc) :=
  { hF with held := { hF.held with }, send := sendOk_setSend hF.send hpc }

theorem ServerOk.pops {srv srv' : Server G} {t : ℕ} {ch : Chan} {item : Flex G} {ids : List ℕ}
    (hF : F.ServerOk cfg srv) (h : Pops srv t ch srv' item ids) :
    F.ServerOk cfg srv' ∧ F.Wire cfg ch item := by
  cases h with
  | vote v q hq =>
    have hv := hF.ballots _ _ hq
    exact ⟨{ hF with
      held := { hF.held with }
      ballots := forall_mem_insert hF.ballots t fun v' hv' => hv v' (List.mem_cons_of_mem _ hv') },
      v, hv v (List.mem_cons_self ..), rfl⟩
  | block p q b hq hb =>
    exact ⟨{ hF with held := { hF.held with } }, b, hF.heap b (List.mem_of_getElem? hb), rfl⟩
  | commit p q b hq hb =>
    have hp := hF.held.bcast _ _ hq
    obtain ⟨⟨b₁, hb₁, hn⟩, b₂, hb₂, hf⟩ := hp p (List.mem_cons_self ..)
    rw [hb] at hb₁ hb₂
    cases hb₁
    cases hb₂
    exact ⟨{ hF with held := { hF.held with
      bcast := forall_mem_insert hF.held.bcast t fun p' hp' => hp p' (List.mem_cons_of_mem _ hp') } },
      b, hF.heap b (List.mem_of_getElem? hb), hn, hf, rfl⟩

/-- The merged block is final, and its address is what the thread goes on with. -/
theorem ServerOk.committedState {srv : Server G} {p now : ℕ} {b b' : Block G}
    (laws : F.Laws cfg crypto) (hF : F.ServerOk cfg srv)
    (hh : F.HeldOk cfg (srv.committedState p now b').heap srv) (hpc : srv.merge = .popped p)
    (hb : srv.heap[p]? = some b) (hm : b.mergeVotes crypto.merge cfg.clientCount = .ok b')
    (hfin : F.final b.header.id) : F.ServerOk cfg (srv.committedState p now b') := by
  have hbF := hF.heap b (List.mem_of_getElem? hb)
  obtain ⟨b₀, hb₀, hn⟩ := hF.held.merge p (.inl hpc)
  rw [hb] at hb₀
  cases hb₀
  have hp := hh.merge p (.inl hpc)
  obtain ⟨sig, rfl⟩ := Block.mergeVotes_eq hm
  have hfinal : F.Final (srv.committedState p now { b with tssSig := sig }).heap p :=
    ⟨Block.stampCommit { b with tssSig := sig } now,
      by simp [Server.committedState, modifyBlock, hb], hfin⟩
  refine { hF with
    heap := forall_mem_heap_modify hF.heap fun b₀ _ _ =>
      laws.commit _ now (laws.sign b sig hbF) hn
    held := { hh with
      merge := fun p' hp' => ?_
      push := fun p' peers hp' => ?_ }
    committed := forall_mem_insert_key hF.committed hfin }
  · rcases hp' with h | ⟨_, h⟩ <;> cases h
    exact hp
  · cases hp'
    exact hfinal

theorem ServerOk.acts {s : ℕ} {srv srv' : Server G} {a : ServerAction} {out : Option (ℕ × Rpc G)}
    (laws : F.Laws cfg crypto) (hF : F.ServerOk cfg srv) (h : srv.Acts cfg crypto.merge s a srv' out)
    (hpack : ∀ now order, a = .packBegin now order → F.block (srv.newBlock cfg now order))
    (hsync : ∀ id q, a = .syncPop → srv.send .block = .sync → srv.pbSyncQueue = id :: q → F.label id)
    (hmerge : ∀ now p b, a = .mergeCommit now → srv.merge = .popped p → srv.heap[p]? = some b →
      F.final b.header.id) :
    F.ServerOk cfg srv' ∧ ∀ target rpc, out = some (target, rpc) → F.RpcOk cfg rpc := by
  have hh : F.HeldOk cfg srv'.heap srv := hF.held.mono h.heapGrows
  have hnone : ∀ target rpc, (none : Option (ℕ × Rpc G)) = some (target, rpc) → F.RpcOk cfg rpc := by
    intro target rpc h; cases h
  cases h with
  | packCheck | packGenerate | packEnd | packPush | packInsert =>
    exact ⟨{ hF with held := { hh with } }, hnone⟩
  | packBegin i now order _ =>
    exact ⟨{ hF with
      heap := forall_mem_heap_append hF.heap (hpack now order rfl)
      held := { hh with } }, hnone⟩
  | sendStart ch _ => exact ⟨hF.setSend (sendOk_nextTarget ch _), hnone⟩
  | sendPop ch t items ids rest srv'' item ids' hpc hq =>
    have hsend := hF.send ch
    rw [hpc] at hsend
    obtain ⟨hF', hwire⟩ := hF.pops hq
    refine ⟨hF'.setSend fun it hit => ?_, hnone⟩
    rcases List.mem_append.mp hit with hit | hit
    · exact hsend it hit
    · rw [List.mem_singleton.mp hit]
      exact hwire
  | sendSkip ch t ids rest _ => exact ⟨hF.setSend (sendOk_nextTarget ch _), hnone⟩
  | sendGo ch t items ids rest hpc _ =>
    have hsend := hF.send ch
    rw [hpc] at hsend
    refine ⟨hF.setSend trivial, ?_⟩
    intro target rpc h
    cases h
    exact rpcOk_request hsend
  | syncIdle => exact ⟨hF.setSend trivial, hnone⟩
  | syncPop id q hpc hq =>
    have hpop : F.ServerOk cfg { srv with pbSyncQueue := q } :=
      { hF with held := { hF.held with } }
    exact ⟨hpop.setSend (hsync id q rfl hpc hq), hnone⟩
  | syncSend id t rest hpc =>
    have hsend := hF.send .block
    rw [hpc] at hsend
    refine ⟨hF.setSend hsend, ?_⟩
    intro target rpc h
    cases h
    exact hsend
  | syncLabel id hpc =>
    have hsend := hF.send .block
    rw [hpc] at hsend
    refine ⟨{ hF with
      held := { hh with }
      labels := fun id' hm => ?_
      send := sendOk_setSend hF.send trivial }, hnone⟩
    rcases ExtTreeSet.mem_insert.mp hm with he | hm
    · rw [← Nat.compare_eq_eq.mp he]; exact hsend
    · exact hF.labels id' hm
  | mergePop p q hpc hq =>
    refine ⟨{ hF with held := { hh with
      queue := fun p' hp' => hh.queue p' (by rw [hq]; exact List.mem_cons_of_mem _ hp')
      merge := fun p' hp' => ?_
      push := fun p' peers hp' => by cases hp' } }, hnone⟩
    rcases hp' with h | ⟨_, h⟩ <;> cases h
    exact hh.queue p (by rw [hq]; exact List.mem_cons_self ..)
  | mergeCommit p now b b' hpc hb hm =>
    exact ⟨hF.committedState laws hh hpc hb hm (hmerge now p b rfl hpc hb), hnone⟩
  | mergePush p t peers hpc =>
    have hp := hh.merge p (.inr ⟨_, hpc⟩)
    have hf := hh.push p _ hpc
    refine ⟨{ hF with held := { hh with
      bcast := forall_mem_modify hh.bcast t ⟨hp, hf⟩
      merge := fun p' hp' => ?_
      push := fun p' peers hp' => ?_ } }, hnone⟩
    · rcases hp' with h | ⟨_, h⟩ <;> cases h
      exact hp
    · cases hp'
      exact hf
  | mergeDone p _ =>
    refine ⟨{ hF with held := { hh with
      merge := fun p' hp' => ?_
      push := fun p' peers hp' => by cases hp' } }, hnone⟩
    rcases hp' with h | ⟨_, h⟩ <;> cases h
  | reap id now =>
    rcases reap_eq cfg srv id now with h | ⟨-, h⟩
    · rw [h]; exact ⟨hF, hnone⟩
    · rw [h] at hh ⊢
      exact ⟨{ hF with held := { hh with } }, hnone⟩

theorem ServerOk.records {id k : ℕ} {v : BlockVote G} {srv srv' : Server G} (laws : F.Laws cfg crypto)
    (hwf : srv.WF) (hF : F.ServerOk cfg srv) (hv : F.ballot k id v)
    (h : srv.Records cfg id k v srv') : F.ServerOk cfg srv' := by
  have hh : F.HeldOk cfg srv'.heap srv := hF.held.mono h.heapGrows
  have hblock : ∀ p b, srv.pendingBlks[id]? = some p → srv.heap[p]? = some b → F.block b →
      F.block (b.insertVote k v) := by
    intro p b hp hb hbF
    obtain ⟨b₀, hb₀, hid⟩ := idAt_eq_some.mp (hwf.pending id p hp)
    rw [hb] at hb₀
    cases hb₀
    exact laws.insert b k v hbF (hid ▸ hv)
  cases h with
  | absent | dangling => exact hF
  | fewer p b hp _ =>
    exact { hF with
      heap := forall_mem_heap_modify hF.heap fun b hb hbF => hblock p b hp hb hbF
      held := { hh with } }
  | enough p b hp hb he =>
    refine { hF with
      heap := forall_mem_heap_modify hF.heap fun b hb hbF => hblock p b hp hb hbF
      held := { hh with queue := fun p' hm => ?_ } }
    rcases List.mem_append.mp hm with hm | hm
    · exact hh.queue p' hm
    · rw [List.mem_singleton.mp hm]
      exact ⟨b.insertVote k v, by simp [modifyBlock, hb], by simpa [Block.isVoteEnough] using he⟩

theorem forall_mem_pushVotes {v : BlockVote G} {P : BlockVote G → Prop} :
    ∀ {targets : List ℕ} {srv srv' : Server G}, srv.pushVotes v targets = some srv' →
      (targets ≠ [] → P v) → (∀ (t : ℕ) q, srv.relayVotes[t]? = some q → ∀ v ∈ q, P v) →
      ∀ (t : ℕ) q, srv'.relayVotes[t]? = some q → ∀ v ∈ q, P v := by
  intro targets
  induction targets with
  | nil => intro srv srv' h _ hq; cases h; exact hq
  | cons t targets ih =>
    intro srv srv' h hv hq
    have hv := hv (by simp)
    simp only [pushVotes] at h
    split at h
    · cases h
    · rename_i q hqt
      refine ih h (fun _ => hv) (forall_mem_insert hq t fun v' hv' => ?_)
      rcases List.mem_append.mp hv' with hv' | hv'
      · exact hq t q hqt v' hv'
      · rw [List.mem_singleton.mp hv']; exact hv

theorem ServerOk.voteBlocksItem {s id : ℕ} {srv srv' : Server G} {block : Block G}
    {current : Option (ℕ × BlockVote G)} (hF : F.ServerOk cfg srv)
    (h : srv.voteBlocksItem cfg s id block = some (srv', current))
    (hvote : ∀ v, block.votes[id]? = some v → F.ballot id block.header.id v ∧
      (block.header.id ∉ srv.deadBlock → (∃ t ∈ block.getServerId cfg.serverCount, t ≠ s) →
        F.ballot v.voterId v.blockId v)) :
    F.ServerOk cfg srv' ∧ ∀ blockId v, current = some (blockId, v) → F.ballot id blockId v := by
  unfold Server.voteBlocksItem at h
  split at h
  · cases h; exact ⟨hF, by simp⟩
  · rename_i v hv
    obtain ⟨hcur, hrel⟩ := hvote v hv
    split at h
    · cases h; exact ⟨hF, by simp⟩
    · rename_i hd
      dsimp only at h
      split at h
      · cases h
      · rename_i hp
        cases h
        have hb := forall_mem_pushVotes hp (fun hne => ?_) hF.ballots
        · obtain ⟨queues, rfl⟩ := pushVotes_eq hp
          refine ⟨{ hF with held := { hF.held with }, ballots := hb }, fun blockId v' hc => ?_⟩
          split at hc
          · cases hc; exact hcur
          · cases hc
        · obtain ⟨t, ht⟩ := List.exists_mem_of_ne_nil _ hne
          simp only [List.mem_filter, ExtTreeSet.mem_toList, decide_eq_true_eq] at ht
          exact hrel hd ⟨t, ht⟩

theorem ServerOk.handles {s now : ℕ} {srv srv' : Server G} {rpc rpc' : Rpc G}
    (laws : F.Laws cfg crypto) (hwf : srv.WF)
    (hsnap : ∀ x ∈ rpc.snapshot, srv.idAt x.2 = some x.1) (hF : F.ServerOk cfg srv)
    (hR : F.RpcOk cfg rpc) (h : srv.Handles cfg s now rpc srv' rpc')
    (hvote : ∀ id item rest block v, rpc = .voteBlocks id (item :: rest) none → F.item id item →
      fromBytes item = some block → block.votes[id]? = some v → F.ballot id block.header.id v ∧
      (block.header.id ∉ srv.deadBlock → (∃ t ∈ block.getServerId cfg.serverCount, t ≠ s) →
        F.ballot v.voterId v.blockId v))
    (hget : ∀ hdr rest pb p b, rpc = .getBlocks (hdr :: rest) pb →
      F.offered (headerFromBytes hdr).id → srv.pendingBlks[(headerFromBytes hdr).id]? = some p →
      srv.heap[p]? = some b → F.block b → F.served b) :
    F.ServerOk cfg srv' ∧ F.RpcOk cfg rpc' := by
  have hh : F.HeldOk cfg srv'.heap srv := hF.held.mono h.heapGrows
  have htail : ∀ {ch : Chan} {item : Flex G} {rest : List (Flex G)},
      (∀ it ∈ item :: rest, F.Wire cfg ch it) → ∀ it ∈ rest, F.Wire cfg ch it :=
    fun h it hit => h it (List.mem_cons_of_mem _ hit)
  cases h with
  | relayVoteFailed | relayBlockFailed | spBcastCommitFailed | voteBlocksFailed |
    voteBlocksUndefined | pullUndefined => exact ⟨hF, trivial⟩
  | relayVote item rest vote hd =>
    obtain ⟨v, hv, rfl⟩ := hR _ (List.mem_cons_self ..)
    rw [Flexbuffers.voteFromBytes_toBytes] at hd
    cases hd
    refine ⟨?_, htail hR⟩
    unfold relayVoteItem
    split
    · exact hF
    · exact hF.records laws hwf hv (records_recordVote ..)
  | relayBlock item rest block hd =>
    obtain ⟨b, hb, rfl⟩ := hR _ (List.mem_cons_self ..)
    obtain ⟨rfl, -⟩ := Flexbuffers.fromBytes_toBytes_some hd
    exact ⟨{ hF with
      heap := forall_mem_heap_append hF.heap (laws.sign b none hb)
      held := { hh with } }, htail hR⟩
  | spBcastCommit item rest block hd =>
    obtain ⟨b, hb, hn, hf, rfl⟩ := hR _ (List.mem_cons_self ..)
    obtain ⟨rfl, -⟩ := Flexbuffers.fromBytes_toBytes_some hd
    refine ⟨?_, htail hR⟩
    rcases spBcastCommitItem_eq cfg srv now { b with tssSig := none } with ⟨-, h⟩ | ⟨-, db, h⟩
    · rw [h]; exact hF
    · rw [h] at hh ⊢
      exact { hF with
        heap := forall_mem_heap_append hF.heap (laws.recv _ now (laws.sign b none hb) hn)
        held := { hh with }
        committed := forall_mem_insert_key hF.committed hf }
  | relayBlockSync id =>
    refine ⟨{ hF with held := { hh with }, labels := fun id' hm => ?_ }, hR⟩
    rcases ExtTreeSet.mem_insert.mp hm with he | hm
    · rw [← Nat.compare_eq_eq.mp he]; exact hR
    · exact hF.labels id' hm
  | pullBegin => exact ⟨hF, hR⟩
  | pullItem id blockId p todo pbHdrs b _ hdrs hb hi =>
    rcases pullItem_eq hi with ⟨rfl, rfl⟩ | ⟨hl, rfl, clients, rfl⟩
    · exact ⟨hF, by simpa [RpcOk] using hR⟩
    · obtain ⟨b₀, hb₀, hid⟩ := idAt_eq_some.mp (hsnap _ (List.mem_cons_self ..))
      rw [hb] at hb₀
      cases hb₀
      refine ⟨{ hF with
        heap := forall_mem_heap_modify hF.heap fun b _ hbF => laws.dist b now hbF
        held := { hh with } }, fun hdr hm => ?_⟩
      rcases List.mem_append.mp hm with hm | hm
      · exact hR hdr hm
      · rw [List.mem_singleton.mp hm, Flexbuffers.headerFromBytes_toBytes, hid]
        exact laws.offered _ (hF.labels _ hl)
  | getItem hdr rest pb =>
    refine ⟨hF, fun h hm => hR.1 h (List.mem_cons_of_mem _ hm), fun item hm => ?_⟩
    rcases List.mem_append.mp hm with hm | hm
    · exact hR.2 item hm
    · simp only [Server.getItem] at hm
      split at hm
      · cases hm
      · rename_i p hp
        obtain ⟨b, hb, rfl⟩ := List.mem_map.mp hm
        rw [Option.mem_toList] at hb
        exact ⟨b, hget _ _ _ p b rfl (hR.1 hdr (List.mem_cons_self ..)) hp hb
          (hF.heap b (List.mem_of_getElem? hb)), rfl⟩
  | record id votedBlocks blockId vote =>
    exact ⟨hF.records laws hwf (hR.2 _ _ rfl) (records_recordVote ..), hR.1, by simp⟩
  | voteBlocks id item rest block _ current hd hi =>
    have hF' := hF.voteBlocksItem hi fun v hv =>
      hvote _ _ _ block v rfl (hR.1 item (List.mem_cons_self ..)) hd hv
    exact ⟨hF'.1, fun it hm => hR.1 it (List.mem_cons_of_mem _ hm), hF'.2⟩

/-! ## A step of a client -/

theorem ClientOk.acts {c : ℕ} {cl cl' : Client G} {a : ClientAction} {out : Option (ℕ × Rpc G)}
    (laws : F.Laws cfg crypto) (h1 : 1 ≤ c) (h2 : c ≤ cfg.clientCount) (hF : F.ClientOk c cl)
    (h : cl.Acts cfg crypto c a cl' out) :
    F.ClientOk c cl' ∧ ∀ target rpc, out = some (target, rpc) → F.RpcOk cfg rpc := by
  cases h with
  | pull order stage _ =>
    refine ⟨{ hF with }, fun target rpc h => ?_⟩
    cases h
    simp [RpcOk]
  | get order stage _ =>
    refine ⟨{ hF with }, fun target rpc h => ?_⟩
    cases h
    refine ⟨fun hdr hm => ?_, by simp⟩
    obtain ⟨bh, hbh, rfl⟩ := List.mem_map.mp hm
    obtain ⟨id, _, hid⟩ := List.mem_filterMap.mp hbh
    rw [Flexbuffers.headerFromBytes_toBytes]
    exact hF.hdrs id bh hid
  | votePop block q _ hq =>
    have hb := hF.blks block (by rw [hq]; exact List.mem_cons_self ..)
    exact ⟨{ hF with
      blks := fun b hm => hF.blks b (by rw [hq]; exact List.mem_cons_of_mem _ hm)
      vote := laws.item block c hb.1 hb.2 h1 h2 }, fun _ _ h => by cases h⟩
  | voteSend request stub stubs hpc =>
    have hv := hF.vote
    rw [hpc] at hv
    refine ⟨{ hF with vote := hv }, fun target rpc h => ?_⟩
    cases h
    refine ⟨fun item hm => ?_, by simp⟩
    rw [List.mem_singleton.mp hm]
    exact hv

theorem ClientOk.receiveHeaders {c : ℕ} {pbHdrs : List (Flex G)} :
    ∀ {cl : Client G}, F.ClientOk c cl → (∀ h ∈ pbHdrs, F.offered (headerFromBytes h).id) →
      F.ClientOk c (cl.receiveHeaders pbHdrs) := by
  induction pbHdrs with
  | nil => intro cl hF _; exact hF
  | cons hdr rest ih =>
    intro cl hF hoff
    have hhdrs : ∀ (id : ℕ) h, (cl.pendingBlkhdr.insertIfNew (headerFromBytes hdr).id
        (headerFromBytes hdr))[id]? = some h → F.offered h.id := by
      intro id bh hid
      rw [ExtTreeMap.getElem?_insertIfNew] at hid
      split at hid
      · cases hid
        exact hoff hdr (List.mem_cons_self ..)
      · exact hF.hdrs id bh hid
    have hF' : F.ClientOk c { cl with pendingBlkhdr := _ } := { hF with hdrs := hhdrs }
    exact ih hF' fun h hm => hoff h (List.mem_cons_of_mem _ hm)

theorem ClientOk.receiveBlocks {c : ℕ} {pb : List (Flex G)} (laws : F.Laws cfg crypto) :
    ∀ {cl cl' : Client G}, F.ClientOk c cl →
      (∀ item ∈ pb, ∃ b, F.served b ∧ item = toBytes b) → cl.receiveBlocks pb = some cl' →
      F.ClientOk c cl' := by
  induction pb with
  | nil => intro cl cl' hF _ h; cases h; exact hF
  | cons item rest ih =>
    intro cl cl' hF hpb h
    simp only [Client.receiveBlocks] at h
    split at h
    · cases h
    · rename_i block hd
      obtain ⟨b, hb, rfl⟩ := hpb item (List.mem_cons_self ..)
      obtain ⟨rfl, -⟩ := Flexbuffers.fromBytes_toBytes_some hd
      refine ih ?_ (fun it hm => hpb it (List.mem_cons_of_mem _ hm)) h
      refine { hF with hdrs := fun id bh hid => ?_, blks := fun b' hm => ?_ }
      · rw [ExtTreeMap.getElem?_erase] at hid
        split at hid
        · cases hid
        · exact hF.hdrs id bh hid
      · rcases List.mem_append.mp hm with hm | hm
        · exact hF.blks b' hm
        · rw [List.mem_singleton.mp hm]
          exact ⟨laws.served b hb, rfl⟩

theorem ClientOk.resumePull {c : ℕ} {cl cl' : Client G} {response : Option (Rpc G)}
    (laws : F.Laws cfg crypto) (hF : F.ClientOk c cl)
    (hR : ∀ rpc, response = some rpc → F.RpcOk cfg rpc)
    (h : cl.resumePull response = some cl') : F.ClientOk c cl' := by
  unfold Client.resumePull at h
  split at h
  · have hF' : ∀ stage, F.ClientOk c { cl with pull := .ready stage } := fun _ => { hF with }
    dsimp only at h
    split at h
    · cases h
      exact (hF' _).receiveHeaders (hR _ rfl)
    · exact (hF' _).receiveBlocks laws (hR _ rfl).2 h
    · cases h
      exact hF' _
  · cases h

theorem ClientOk.resumeVote {c : ℕ} {cl cl' : Client G} (hF : F.ClientOk c cl)
    (h : cl.resumeVote = some cl') : F.ClientOk c cl' := by
  unfold Client.resumeVote at h
  split at h
  · cases h; exact { hF with vote := trivial }
  · rename_i request stubs _ hpc
    cases h
    have hv := hF.vote
    rw [hpc] at hv
    exact { hF with vote := hv }
  · cases h

theorem ServerOk.resumeSend {srv srv' : Server G} {ch : Chan} (hF : F.ServerOk cfg srv)
    (h : srv.resumeSend ch = some srv') : F.ServerOk cfg srv' := by
  rcases resumeSend_eq h with ⟨t, ids, rest, hpc, rfl⟩ | ⟨id, t, rest, hpc, rfl⟩
  · exact setSend { hF with held := { hF.held with } } (sendOk_nextTarget ch rest)
  · have hsend := hF.send ch
    rw [hpc] at hsend
    exact hF.setSend hsend

/-! ## A step of the system -/

theorem clean_init (F : Flow G) (cfg : Config) : F.Clean cfg (State.init cfg) where
  server s :=
    { heap := by simp [State.init, Server.init]
      held :=
        { queue := by simp [State.init, Server.init]
          merge := by simp [State.init, Server.init, MergePc.Holds]
          push := by simp [State.init, Server.init]
          bcast := fun t q hq p hp => by rw [initQueues_eq_nil hq] at hp; cases hp }
      committed := by simp [State.init, Server.init]
      ballots := fun t q hq v hv => by rw [initQueues_eq_nil hq] at hv; cases hv
      labels := by simp [State.init, Server.init]
      send := fun ch => trivial }
  client c := ⟨by simp [State.init, Client.init], by simp [State.init, Client.init], trivial⟩
  calls := by simp [State.init]

theorem Clean.setServer {σ : State G} {s : ℕ} {srv : Server G} (h : F.Clean cfg σ)
    (hs : F.ServerOk cfg srv) : F.Clean cfg (σ.setServer s srv) where
  server s' := by
    rw [State.setServer_server]
    split
    · exact hs
    · exact h.server s'
  client := h.client
  calls := h.calls

theorem Clean.setClient {σ : State G} {c : ℕ} {cl : Client G} (h : F.Clean cfg σ)
    (hc : F.ClientOk c cl) : F.Clean cfg (σ.setClient c cl) where
  server := h.server
  client c' := by
    rw [State.setClient_client]
    split
    · rename_i he
      subst he
      exact hc
    · exact h.client c'
  calls := h.calls

theorem Clean.addCall {σ : State G} {caller : Option Thread} {out : Option (ℕ × Rpc G)}
    (h : F.Clean cfg σ) (hout : ∀ target rpc, out = some (target, rpc) → F.RpcOk cfg rpc) :
    F.Clean cfg (σ.addCall caller out) where
  server s := by rw [State.addCall_server]; exact h.server s
  client c := by rw [State.addCall_client]; exact h.client c
  calls call hm := by
    rcases State.mem_addCall hm with hm | ⟨r, hr, rfl⟩
    · exact h.calls call hm
    · exact hout r.1 r.2 hr

theorem Clean.withCalls {σ : State G} {calls : List (Call G)} (h : F.Clean cfg σ)
    (hcalls : ∀ call ∈ calls, F.RpcOk cfg call.rpc) : F.Clean cfg { σ with calls := calls } :=
  ⟨h.server, h.client, hcalls⟩

theorem Clean.resumes {σ σ' : State G} {response : Option (Rpc G)} {θ : Thread}
    (laws : F.Laws cfg crypto) (h : F.Clean cfg σ)
    (hR : ∀ rpc, response = some rpc → F.RpcOk cfg rpc) (hr : Resumes σ response θ σ') :
    F.Clean cfg σ' := by
  cases hr with
  | send s ch srv' hr => exact h.setServer ((h.server s).resumeSend hr)
  | pull c cl' hr => exact h.setClient ((h.client c).resumePull laws hR hr)
  | vote c cl' hr => exact h.setClient ((h.client c).resumeVote hr)

/-- A step keeps a clean system clean. -/
theorem Clean.step {σ σ' : State G} {a : Action G} (laws : F.Laws cfg crypto)
    (hwf : ∀ s, (σ.server s).WF) (hsnap : SnapshotsOk σ) (hsrc : F.Sources cfg σ a)
    (h : F.Clean cfg σ) (hs : Steps cfg crypto σ a σ') : F.Clean cfg σ' := by
  cases hs with
  | server s sa srv' out _ _ ha =>
    have hok := (h.server s).acts laws ha (fun now order he => hsrc.pack s now order (by rw [he]))
      (fun id q he => hsrc.sync s id q (by rw [he])) (fun now p b he => hsrc.merge s now p b (by rw [he]))
    exact (h.setServer hok.1).addCall hok.2
  | client c ca cl' out h1 h2 ha =>
    have hok := (h.client c).acts laws h1 h2 ha
    exact (h.setClient hok.1).addCall hok.2
  | handle i now order call srv' rpc' hi hh =>
    have hm := List.mem_of_getElem? hi
    have hok := (h.server call.target).handles laws (hwf _) (hsnap call hm) (h.calls call hm) hh
      (fun id item rest block v => hsrc.vote i now order call id item rest block v rfl hi)
      (fun hdr rest pb p b => hsrc.get i now order call hdr rest pb p b rfl hi)
    refine ⟨(h.setServer hok.1).server, h.client, fun call' hm' => ?_⟩
    rcases List.mem_or_eq_of_mem_set hm' with hm' | rfl
    · exact h.calls call' hm'
    · exact hok.2
  | retOrphan i | failOrphan i =>
    exact h.withCalls fun call hm => h.calls call (List.mem_of_mem_eraseIdx hm)
  | ret i call θ _ hi _ _ hr =>
    refine (h.withCalls fun call' hm => h.calls call' (List.mem_of_mem_eraseIdx hm)).resumes laws
      (fun rpc he => ?_) hr
    cases he
    exact h.calls call (List.mem_of_getElem? hi)
  | fail i call θ _ hi _ hr =>
    refine (h.withCalls fun call' hm => ?_).resumes laws (fun rpc he => by cases he) hr
    rcases List.mem_or_eq_of_mem_set hm with hm | rfl
    · exact h.calls call' hm
    · exact h.calls call (List.mem_of_getElem? hi)
  | foreign target rpc _ _ hc =>
    refine h.addCall fun target' rpc' he => ?_
    cases he
    exact hsrc.foreign target rpc rfl hc

/-! ## Along a run -/

/-- The predicates of a flow that depends on the history only get weaker. -/
structure Le (F F' : Flow G) : Prop where
  block : ∀ b, F.block b → F'.block b
  ballot : ∀ k id v, F.ballot k id v → F'.ballot k id v
  label : ∀ id, F.label id → F'.label id
  offered : ∀ id, F.offered id → F'.offered id
  served : ∀ b, F.served b → F'.served b
  item : ∀ id item, F.item id item → F'.item id item
  final : ∀ id, F.final id → F'.final id

theorem Le.refl (F : Flow G) : F.Le F :=
  ⟨fun _ => id, fun _ _ _ => id, fun _ => id, fun _ => id, fun _ => id, fun _ _ => id, fun _ => id⟩

theorem Wire.mono {F' : Flow G} (hle : F.Le F') {ch : Chan} {item : Flex G} (h : F.Wire cfg ch item) :
    F'.Wire cfg ch item := by
  cases ch with
  | vote => obtain ⟨v, hv, rfl⟩ := h; exact ⟨v, hle.ballot _ _ _ hv, rfl⟩
  | block => obtain ⟨b, hb, rfl⟩ := h; exact ⟨b, hle.block _ hb, rfl⟩
  | commit => obtain ⟨b, hb, hn, hf, rfl⟩ := h; exact ⟨b, hle.block _ hb, hn, hle.final _ hf, rfl⟩

theorem RpcOk.mono {F' : Flow G} (hle : F.Le F') {rpc : Rpc G} (h : F.RpcOk cfg rpc) :
    F'.RpcOk cfg rpc := by
  cases rpc with
  | relayVote | relayBlock | spBcastCommit => exact fun item hm => (h item hm).mono hle
  | relayBlockSync id => exact hle.label id h
  | pullPendingBlocks => exact fun hdr hm => hle.offered _ (h hdr hm)
  | getBlocks =>
    exact ⟨fun hdr hm => hle.offered _ (h.1 hdr hm),
      fun item hm => (h.2 item hm).imp fun b hb => ⟨hle.served b hb.1, hb.2⟩⟩
  | voteBlocks =>
    exact ⟨fun item hm => hle.item _ _ (h.1 item hm), fun id v hc => hle.ballot _ _ _ (h.2 id v hc)⟩
  | failed | undefined => trivial

theorem Clean.mono {F' : Flow G} (hle : F.Le F') {σ : State G} (h : F.Clean cfg σ) :
    F'.Clean cfg σ where
  server s :=
    { heap := fun b hb => hle.block b ((h.server s).heap b hb)
      held :=
        { queue := (h.server s).held.queue
          merge := (h.server s).held.merge
          push := fun p peers hp =>
            ((h.server s).held.push p peers hp).imp fun b hb => ⟨hb.1, hle.final _ hb.2⟩
          bcast := fun t q hq p hp => ((h.server s).held.bcast t q hq p hp).imp_right
            fun hf => hf.imp fun b hb => ⟨hb.1, hle.final _ hb.2⟩ }
      committed := fun id hm => hle.final id ((h.server s).committed id hm)
      ballots := fun t q hq v hv => hle.ballot _ _ _ ((h.server s).ballots t q hq v hv)
      labels := fun id hm => hle.label id ((h.server s).labels id hm)
      send := fun ch => by
        have hsend := (h.server s).send ch
        revert hsend
        cases (σ.server s).send ch with
        | drain => exact fun hw item hm => (hw item hm).mono hle
        | syncSend | syncWait => exact hle.label _
        | _ => exact id }
  client c :=
    { hdrs := fun id hdr hm => hle.offered _ ((h.client c).hdrs id hdr hm)
      blks := fun b hb => ((h.client c).blks b hb).imp_left (hle.served b)
      vote := by
        have hvote := (h.client c).vote
        revert hvote
        cases (σ.client c).vote with
        | idle => exact id
        | send | wait => exact hle.item _ _ }
  calls call hm := (h.calls call hm).mono hle

theorem onLabels_laws (P : ℕ → Prop) : (onLabels P : Flow G).Laws cfg crypto where
  dist _ _ _ := trivial
  insert _ _ _ _ _ := trivial
  sign _ _ _ := trivial
  commit _ _ _ _ := trivial
  recv _ _ _ _ := trivial
  offered _ _ := trivial
  served _ _ := trivial
  item _ _ _ _ _ _ := trivial

/-- The rule for a flow that may depend on the history. -/
theorem clean_of_reachable {ok : State G → Action G → Bool} (F : State G → Flow G)
    (laws : ∀ σ, (F σ).Laws cfg crypto)
    (hmono : ∀ σ a σ', ok σ a → Steps cfg crypto σ a σ' → (F σ).Le (F σ'))
    (hsrc : ∀ σ a σ', Reachable cfg crypto ok σ → ok σ a → (F σ).Clean cfg σ →
      Steps cfg crypto σ a σ' → (F σ').Sources cfg σ a)
    {σ : State G} (h : Reachable cfg crypto ok σ) : (F σ).Clean cfg σ := by
  refine h.invariant (fun σ => (F σ).Clean cfg σ) (clean_init _ cfg) fun σ a σ' hr hok hc hs => ?_
  have hst := steps_of_step hs
  exact (hc.mono (hmono σ a σ' hok hst)).step (laws σ') (Reachable.wf hr) (Reachable.snapshots hr)
    (hsrc σ a σ' hr hok hc hst) hst

end Flow

end TomChain
