import TomChain.Server.Heap

/-!
# The relay queues of a server

What is on its way from a server to a peer on one of the three channels, and not yet sent: the
request that is being filled, then the queue. An element is known by its key: block id and voter
for a vote, the block id for a block or a commit. A relay thread moves keys from the queue into
the request and from there into a call, and never changes their order.
-/

namespace TomChain

open Std (ExtTreeMap)
open Flexbuffers (Flex toBytes fromBytes voteToBytes voteFromBytes headerFromBytes)

variable {G : Type}

def wireKey (ch : Chan) (item : Flex G) : ℕ × ℕ :=
  match ch with
  | .vote => ((item.get "block_id".toList).asUInt64, (item.get "voter_id".toList).asUInt64)
  | _ => ((headerFromBytes (item.get "header".toList).asBlob).id, 0)

theorem wireKey_of_voteFromBytes {item : Flex G} {v : BlockVote G} (h : voteFromBytes item = some v) :
    wireKey .vote item = (v.blockId, v.voterId) := by
  unfold voteFromBytes at h
  dsimp only at h
  split at h
  · cases h; rfl
  · obtain ⟨share, -, he⟩ := Option.map_eq_some_iff.mp h
    cases he; rfl

@[simp] theorem wireKey_voteToBytes (v : BlockVote G) :
    wireKey .vote (voteToBytes v) = (v.blockId, v.voterId) :=
  wireKey_of_voteFromBytes (Flexbuffers.voteFromBytes_toBytes v)

theorem wireKey_of_fromBytes {ch : Chan} (hch : ch ≠ .vote) {item : Flex G} {b : Block G}
    (h : fromBytes item = some b) : wireKey ch item = (b.header.id, 0) := by
  obtain ⟨votes, -, rfl⟩ := Option.map_eq_some_iff.mp h
  cases ch with
  | vote => exact absurd rfl hch
  | block | commit => rfl

theorem wireKey_toBytes {ch : Chan} (hch : ch ≠ .vote) (b : Block G) :
    wireKey ch (toBytes b) = (b.header.id, 0) := by
  cases ch with
  | vote => exact absurd rfl hch
  | block | commit => simp only [wireKey, Flexbuffers.header_toBytes]

/-- The keys in a request that is being filled for `t`. -/
def SendPc.drained (ch : Chan) (t : ℕ) : SendPc G → List (ℕ × ℕ)
  | .drain t' items _ _ => if t' = t then items.map (wireKey ch) else []
  | _ => []

/-- The ids whose sync signal follows the current request. -/
def SendPc.ids : SendPc G → List ℕ
  | .drain _ _ ids _ => ids
  | .wait _ ids _ => ids
  | _ => []

def Rpc.carried (ch : Chan) (rpc : Rpc G) : List (ℕ × ℕ) :=
  match ch, rpc with
  | .vote, .relayVote items => items.map (wireKey .vote)
  | .block, .relayBlock items => items.map (wireKey .block)
  | .commit, .spBcastCommit items => items.map (wireKey .commit)
  | _, _ => []

@[simp] theorem carried_request (ch : Chan) (items : List (Flex G)) :
    (Server.request ch items).carried ch = items.map (wireKey ch) := by
  cases ch <;> rfl

theorem carried_request_ne {ch ch' : Chan} (h : ch' ≠ ch) (items : List (Flex G)) :
    (Server.request ch items).carried ch' = [] := by
  cases ch <;> cases ch' <;> first | rfl | exact absurd rfl h

namespace Server

variable {cfg : Config} {merge : List (BLSSigShare G) → BLSSignature G} {s : ℕ} {srv srv' : Server G}

def pointerKeys (srv : Server G) (q : List ℕ) : List (ℕ × ℕ) :=
  (q.filterMap srv.idAt).map fun id => (id, 0)

def queued (srv : Server G) (ch : Chan) (t : ℕ) : List (ℕ × ℕ) :=
  match ch with
  | .vote => ((srv.relayVotes[t]?).getD []).map fun v => (v.blockId, v.voterId)
  | .block => srv.pointerKeys ((srv.relayBlocks[t]?).getD [])
  | .commit => srv.pointerKeys ((srv.bcastCommitBlocks[t]?).getD [])

def backlog (srv : Server G) (ch : Chan) (t : ℕ) : List (ℕ × ℕ) :=
  (srv.send ch).drained ch t ++ srv.queued ch t

/-! ## The queues exist -/

/-- There is a queue for every peer, and the packing and merging threads push to these. -/
structure QueuesOk (cfg : Config) (s : ℕ) (srv : Server G) : Prop where
  blocks : ∀ t, t ∈ srv.relayBlocks ↔ t ∈ peerIds cfg.serverCount s
  commits : ∀ t, t ∈ srv.bcastCommitBlocks ↔ t ∈ peerIds cfg.serverCount s
  pack : ∀ i p id peers ids, srv.pack = .push i p id peers ids →
    peers.Nodup ∧ ∀ t ∈ peers, t ∈ peerIds cfg.serverCount s
  merge : ∀ p peers, srv.merge = .push p peers → ∀ t ∈ peers, t ∈ peerIds cfg.serverCount s

theorem queuesOk_init (cfg : Config) (s : ℕ) : (Server.init cfg s : Server G).QueuesOk cfg s where
  blocks _ := mem_initQueues
  commits _ := mem_initQueues
  pack i p id peers ids h := by simp [Server.init] at h
  merge p peers h := by simp [Server.init] at h

theorem QueuesOk.acts {a : ServerAction} {out : Option (ℕ × Rpc G)} (hq : srv.QueuesOk cfg s)
    (h : srv.Acts cfg merge s a srv' out) : srv'.QueuesOk cfg s := by
  cases h with
  | packCheck pc _ _ hpc =>
    refine { hq with pack := fun i p id peers ids hp => ?_ }
    rcases hpc with rfl | rfl <;> cases hp
  | packGenerate | packEnd => exact { hq with pack := fun i p id peers ids hp => by cases hp }
  | packInsert => exact { hq with pack := fun i p id peers ids hp => by cases hp }
  | packBegin i now order _ =>
    refine { hq with pack := fun i p id peers ids hp => ?_ }
    cases hp
    exact ⟨ExtTreeMap.nodup_keys, fun t ht => (hq.blocks t).mp (ExtTreeMap.mem_keys.mp ht)⟩
  | packPush i p id t peers ids hpc =>
    obtain ⟨hnd, hsub⟩ := hq.pack _ _ _ _ _ hpc
    refine { hq with
      blocks := fun t' => by rw [ExtTreeMap.mem_modify]; exact hq.blocks t'
      pack := fun i p id peers ids hp => ?_ }
    cases hp
    exact ⟨(List.nodup_cons.mp hnd).2, fun t' ht' => hsub t' (List.mem_cons_of_mem _ ht')⟩
  | sendPop ch t items ids rest srv'' item ids' _ hpop =>
    have hins : ∀ {α : Type} {m : ExtTreeMap ℕ (List α)} {q q' : List α} {t t' : ℕ},
        m[t]? = some q → (t' ∈ m.insert t q' ↔ t' ∈ m) := by
      intro α m q q' t t' hm
      rw [ExtTreeMap.mem_insert, Nat.compare_eq_eq, or_iff_right_iff_imp]
      rintro rfl
      rw [ExtTreeMap.mem_iff_isSome_getElem?, hm]
      rfl
    cases hpop with
    | vote => exact { hq with }
    | block p q b hm _ => exact { hq with blocks := fun t' => (hins hm).trans (hq.blocks t') }
    | commit p q b hm _ => exact { hq with commits := fun t' => (hins hm).trans (hq.commits t') }
  | mergePop p q _ _ => exact { hq with merge := fun p peers hp => by cases hp }
  | mergeCommit p now b b' _ _ _ =>
    refine { hq with merge := fun p peers hp => ?_ }
    cases hp
    exact fun t ht => (hq.commits t).mp (ExtTreeMap.mem_keys.mp ht)
  | mergePush p t peers hpc =>
    have hsub := hq.merge _ _ hpc
    refine { hq with
      commits := fun t' => by rw [ExtTreeMap.mem_modify]; exact hq.commits t'
      merge := fun p peers hp => ?_ }
    cases hp
    exact fun t' ht' => hsub t' (List.mem_cons_of_mem _ ht')
  | mergeDone => exact { hq with merge := fun p peers hp => by cases hp }
  | reap id now =>
    rcases reap_eq cfg srv id now with h | ⟨-, h⟩
    · rw [h]; exact hq
    · rw [h]; exact { hq with }
  | _ => exact { hq with }

theorem QueuesOk.moves (hq : srv.QueuesOk cfg s) (h : srv.Moves cfg merge s srv') :
    srv'.QueuesOk cfg s := by
  cases h with
  | act a out h => exact hq.acts h
  | handle now rpc rpc' h =>
    have hs := h.sameThreads
    exact ⟨by rw [hs.relayBlocks]; exact hq.blocks, by rw [hs.bcastCommitBlocks]; exact hq.commits,
      by rw [hs.pack]; exact hq.pack, by rw [hs.merge]; exact hq.merge⟩
  | resume ch h =>
    rcases resumeSend_eq h with ⟨_, _, _, -, rfl⟩ | ⟨_, _, _, -, rfl⟩ <;> exact { hq with }

/-! ## What a step does to the backlog -/

theorem pointerKeys_eq {q : List ℕ} (hq : ∀ p ∈ q, ∃ id, srv.idAt p = some id)
    (hg : HeapGrows srv.heap srv'.heap) : srv'.pointerKeys q = srv.pointerKeys q := by
  have : q.filterMap srv'.idAt = q.filterMap srv.idAt := by
    refine List.filterMap_congr fun p hp => ?_
    obtain ⟨id, hid⟩ := hq p hp
    rw [hid, idAt_grows hg hid]
  rw [pointerKeys, this, pointerKeys]

theorem queued_eq (hwf : srv.WF) (hg : HeapGrows srv.heap srv'.heap) {ch : Chan}
    (hv : ch = .vote → srv'.relayVotes = srv.relayVotes) (hb : srv'.relayBlocks = srv.relayBlocks)
    (hc : srv'.bcastCommitBlocks = srv.bcastCommitBlocks) (t : ℕ) :
    srv'.queued ch t = srv.queued ch t := by
  have hgetD : ∀ {m : ExtTreeMap ℕ (List ℕ)},
      (∀ (t : ℕ) q, m[t]? = some q → ∀ p ∈ q, ∃ id, srv.idAt p = some id) →
      ∀ p ∈ (m[t]?).getD [], ∃ id, srv.idAt p = some id := by
    intro m hm p hp
    cases hq : m[t]? with
    | none => simp [hq] at hp
    | some q => exact hm t q hq p (by simpa [hq] using hp)
  cases ch with
  | vote => simp only [queued, hv rfl]
  | block => simp only [queued, hb, pointerKeys_eq (hgetD hwf.relay) hg]
  | commit => simp only [queued, hc, pointerKeys_eq (hgetD hwf.bcast) hg]

theorem backlog_eq (hwf : srv.WF) (hg : HeapGrows srv.heap srv'.heap)
    (hv : srv'.relayVotes = srv.relayVotes) (hb : srv'.relayBlocks = srv.relayBlocks)
    (hc : srv'.bcastCommitBlocks = srv.bcastCommitBlocks) (hs : srv'.send = srv.send) (ch : Chan)
    (t : ℕ) : srv'.backlog ch t = srv.backlog ch t := by
  rw [backlog, backlog, hs, queued_eq hwf hg (fun _ => hv) hb hc]

theorem backlog_setSend {ch ch' : Chan} {t : ℕ} {pc : SendPc G}
    (h : ch = ch' → pc.drained ch t = (srv.send ch).drained ch t) :
    (srv.setSend ch' pc).backlog ch t = srv.backlog ch t := by
  have hq : (srv.setSend ch' pc).queued ch t = srv.queued ch t := by cases ch <;> rfl
  have hd : ((srv.setSend ch' pc).send ch).drained ch t = (srv.send ch).drained ch t := by
    by_cases he : ch = ch'
    · subst he
      simpa [setSend] using h rfl
    · simp [setSend, he]
  rw [backlog, backlog, hq, hd]

@[simp] theorem drained_nextTarget (ch ch' : Chan) (rest : List ℕ) (t : ℕ) :
    (nextTarget ch' rest : SendPc G).drained ch t = [] := by
  cases rest with
  | nil =>
    simp only [nextTarget]
    split <;> rfl
  | cons t' rest => simp [nextTarget, SendPc.drained]

/-- The keys that a thread's step pushes to the queue of `t`. -/
def newMail (srv : Server G) (a : ServerAction) (ch : Chan) (t : ℕ) : List (ℕ × ℕ) :=
  match a, ch with
  | .packPush, .block =>
    match srv.pack with
    | .push _ _ id (t' :: _) _ => if t' = t then [(id, 0)] else []
    | _ => []
  | .mergePush, .commit =>
    match srv.merge with
    | .push p (t' :: _) => if t' = t then srv.pointerKeys [p] else []
    | _ => []
  | _, _ => []

def outMail (out : Option (ℕ × Rpc G)) (ch : Chan) (t : ℕ) : List (ℕ × ℕ) :=
  match out with
  | some (target, rpc) => if target = t then rpc.carried ch else []
  | none => []

/-- Push to one queue: what it does to all of them. -/
theorem pointerKeys_modify {m : ExtTreeMap ℕ (List ℕ)} {t' p : ℕ} (ht : t' ∈ m) (t : ℕ) :
    srv.pointerKeys (((m.modify t' (· ++ [p]))[t]?).getD []) =
      srv.pointerKeys ((m[t]?).getD []) ++ if t' = t then srv.pointerKeys [p] else [] := by
  rw [ExtTreeMap.getElem?_modify]
  by_cases he : t' = t
  · subst he
    obtain ⟨q, hq⟩ := Option.isSome_iff_exists.mp (ExtTreeMap.mem_iff_isSome_getElem?.mp ht)
    simp [hq, pointerKeys]
  · simp [he]

/-- What a relay thread does: it takes the first key of a queue to the end of its request. -/
theorem Pops.backlog {ch : Chan} {t t' : ℕ} {items : List (Flex G)} {ids ids' rest : List ℕ}
    {item : Flex G} (hpc : srv.send ch = .drain t items ids rest) (h : srv.Pops t ch srv' item ids')
    (ch' : Chan) :
    (srv'.setSend ch (.drain t (items ++ [item]) (ids ++ ids') rest)).backlog ch' t' =
      srv.backlog ch' t' := by
  by_cases hch : ch' = ch
  · subst hch
    simp only [Server.backlog, hpc, SendPc.drained, setSend, Function.update_self]
    by_cases ht : t = t'
    · subst ht
      simp only [if_true, List.map_append, List.map_cons, List.map_nil, List.append_assoc]
      congr 1
      cases h with
      | vote v q hq => simp [queued, hq]
      | block p q b hq hb =>
        simp [queued, hq, pointerKeys, idAt, hb, wireKey_toBytes]
        rfl
      | commit p q b hq hb =>
        simp [queued, hq, pointerKeys, idAt, hb, wireKey_toBytes]
        rfl
    · simp only [if_neg ht, List.nil_append]
      cases h with
      | vote | block | commit => simp [queued, ExtTreeMap.getElem?_insert, ht]; try rfl
  · rw [backlog_setSend fun he => absurd he hch]
    cases h with
    | vote | block | commit => cases ch' <;> first | rfl | exact absurd rfl hch

/-- The keys that were there and the new ones are the keys that are sent and those that stay. -/
theorem Acts.backlog (hwf : srv.WF) (hq : srv.QueuesOk cfg s) {a : ServerAction}
    {out : Option (ℕ × Rpc G)} (h : srv.Acts cfg merge s a srv' out) (ch : Chan) (t : ℕ) :
    outMail out ch t ++ srv'.backlog ch t = srv.backlog ch t ++ srv.newMail a ch t := by
  have hg := h.heapGrows
  cases h with
  | packPush i p id t' peers ids hpc =>
    have ht : t' ∈ srv.relayBlocks :=
      (hq.blocks t').mpr ((hq.pack _ _ _ _ _ hpc).2 t' (List.mem_cons_self ..))
    have hid := hwf.pack _ _ _ _ _ hpc
    cases ch with
    | vote | commit => exact (List.append_nil _).symm
    | block =>
      have hk : srv.pointerKeys [p] = [(id, 0)] := by simp [pointerKeys, hid]
      simp only [outMail, newMail, hpc, List.nil_append]
      rw [← hk, Server.backlog, Server.backlog, List.append_assoc]
      exact congrArg _ (pointerKeys_modify ht t)
  | sendStart ch' hpc =>
    rw [backlog_setSend fun he => by rw [drained_nextTarget, he, hpc]; rfl]
    simp [outMail, newMail]
  | sendPop ch' t' items ids rest srv'' item ids' hpc hpop =>
    rw [hpop.backlog hpc]
    simp [outMail, newMail]
  | sendSkip ch' t' ids rest hpc =>
    rw [backlog_setSend fun he => by
      rw [drained_nextTarget, he, hpc]; simp [SendPc.drained]]
    simp [outMail, newMail]
  | sendGo ch' t' items ids rest hpc _ =>
    simp only [newMail, List.append_nil, outMail]
    by_cases hch : ch = ch'
    · subst hch
      have hqueued : (srv.setSend ch (.wait t' ids rest)).queued ch t = srv.queued ch t := by
        cases ch <;> rfl
      rw [Server.backlog, Server.backlog, hqueued, hpc]
      simp [setSend, SendPc.drained]
    · rw [backlog_setSend fun he => absurd he hch, carried_request_ne hch]
      simp
  | syncIdle hpc _ =>
    rw [backlog_setSend fun he => by subst he; rw [hpc]; rfl]
    simp [outMail, newMail]
  | syncPop id q hpc _ | syncLabel id hpc =>
    rw [backlog_setSend fun he => by subst he; rw [hpc]; rfl]
    simp only [newMail, outMail, List.append_nil, List.nil_append]
    exact backlog_eq hwf (.refl _) rfl rfl rfl rfl ch t
  | syncSend id t' rest hpc =>
    rw [backlog_setSend fun he => by subst he; rw [hpc]; rfl]
    have hcarried : (Rpc.relayBlockSync id false : Rpc G).carried ch = [] := by cases ch <;> rfl
    simp [outMail, hcarried, newMail]
  | mergePush p t' peers hpc =>
    have ht : t' ∈ srv.bcastCommitBlocks :=
      (hq.commits t').mpr (hq.merge _ _ hpc t' (List.mem_cons_self ..))
    cases ch with
    | vote | block => exact (List.append_nil _).symm
    | commit =>
      simp only [outMail, newMail, hpc, List.nil_append]
      rw [Server.backlog, Server.backlog, List.append_assoc]
      exact congrArg _ (pointerKeys_modify ht t)
  | mergeDone p hpc =>
    have : srv.newMail .mergePush ch t = [] := by cases ch <;> simp [newMail, hpc]
    rw [this, List.append_nil]
    exact backlog_eq hwf hg rfl rfl rfl rfl ch t
  | reap id now =>
    simp only [newMail, outMail, List.append_nil, List.nil_append]
    rcases reap_eq cfg srv id now with h | ⟨-, h⟩
    · rw [h]
    · rw [h]; exact backlog_eq hwf (.refl _) rfl rfl rfl rfl ch t
  | _ =>
    simp only [newMail, outMail, List.append_nil, List.nil_append]
    exact backlog_eq hwf hg rfl rfl rfl rfl ch t

/-- Handlers leave the backlog of blocks and commits alone. -/
theorem Handles.backlog (hwf : srv.WF) {now : ℕ} {rpc rpc' : Rpc G}
    (h : srv.Handles cfg s now rpc srv' rpc') {ch : Chan} (hch : ch ≠ .vote) (t : ℕ) :
    srv'.backlog ch t = srv.backlog ch t := by
  have hs := h.sameThreads
  rw [Server.backlog, Server.backlog, hs.send, queued_eq hwf h.heapGrows (fun he => absurd he hch)
    hs.relayBlocks hs.bcastCommitBlocks]

/-- What `pushVotes` does to the queues: no vote is taken out, and the new one is in every queue it
was meant for. -/
theorem queued_pushVotes {vote : BlockVote G} {targets : List ℕ} (t : ℕ)
    (h : srv.pushVotes vote targets = some srv') :
    (srv.queued .vote t).Sublist (srv'.queued .vote t) ∧
      (t ∈ targets → (vote.blockId, vote.voterId) ∈ srv'.queued .vote t) := by
  induction targets generalizing srv with
  | nil =>
    cases h
    exact ⟨.refl _, fun ht => by cases ht⟩
  | cons t' targets ih =>
    simp only [pushVotes] at h
    split at h
    · cases h
    · rename_i q hq
      obtain ⟨hsub, hmem⟩ := ih h
      have hold : (srv.queued .vote t).Sublist
          (({ srv with relayVotes := srv.relayVotes.insert t' (q ++ [vote]) } : Server G).queued
            .vote t) := by
        by_cases he : t' = t
        · subst he
          simp only [queued, hq, Option.getD_some, ExtTreeMap.getElem?_insert_self, List.map_append]
          exact List.sublist_append_left _ _
        · simp [queued, ExtTreeMap.getElem?_insert, he]
      refine ⟨hold.trans hsub, fun ht => ?_⟩
      rcases List.mem_cons.mp ht with rfl | ht
      · exact hsub.subset (by simp [queued])
      · exact hmem ht

theorem Records.queued {id k : ℕ} {v : BlockVote G} (h : srv.Records cfg id k v srv') (t : ℕ) :
    srv'.queued .vote t = srv.queued .vote t := by
  cases h <;> rfl

/-- Handlers only add to the backlog. -/
theorem Handles.backlog_sublist (hwf : srv.WF) {now : ℕ} {rpc rpc' : Rpc G}
    (h : srv.Handles cfg s now rpc srv' rpc') (ch : Chan) (t : ℕ) :
    (srv.backlog ch t).Sublist (srv'.backlog ch t) := by
  by_cases hch : ch = .vote
  · subst hch
    have hqueued : (srv.queued .vote t).Sublist (srv'.queued .vote t) := by
      cases h with
      | relayVote item rest vote _ =>
        unfold relayVoteItem
        split
        · exact .refl _
        · rw [(records_recordVote ..).queued]
      | spBcastCommit item rest block _ =>
        rcases spBcastCommitItem_eq cfg srv now block with ⟨-, h⟩ | ⟨-, db, h⟩
        · rw [h]
        · rw [h]; rfl
      | pullItem id blockId p todo pbHdrs b _ hdrs hb hi =>
        rcases pullItem_eq hi with ⟨rfl, -⟩ | ⟨-, -, clients, rfl⟩ <;> exact .refl _
      | record => rw [(records_recordVote ..).queued]
      | voteBlocks id item rest block _ current _ hi =>
        rcases voteBlocksItem_cases hi with ⟨rfl, -⟩ | ⟨vote, -, -, hpush, -⟩
        · exact .refl _
        · exact (queued_pushVotes t hpush).1
      | _ => exact .refl _
    rw [Server.backlog, Server.backlog, h.sameThreads.send]
    exact hqueued.append_left _
  · rw [h.backlog hwf hch]

theorem backlog_resumeSend (hwf : srv.WF) {ch' : Chan} (h : srv.resumeSend ch' = some srv') (ch : Chan)
    (t : ℕ) : srv'.backlog ch t = srv.backlog ch t := by
  rcases resumeSend_eq h with ⟨_, ids, rest, hpc, rfl⟩ | ⟨id, _, rest, hpc, rfl⟩
  · rw [backlog_setSend fun he => by rw [drained_nextTarget, he, hpc]; rfl]
    exact backlog_eq hwf (.refl _) rfl rfl rfl rfl ch t
  · exact backlog_setSend fun he => by rw [he, hpc]; rfl

/-! ## Blocks are relayed by the server that packed them -/

def packedIds (srv : Server G) : List ℕ := srv.packed.map fun b => b.header.id

/-- Every block id in the relay of blocks is the id of a block that was packed here. -/
structure Traced (srv : Server G) : Prop where
  pack : ∀ i p id peers ids, srv.pack = .push i p id peers ids → id ∈ srv.packedIds
  backlog : ∀ t, ∀ k ∈ srv.backlog .block t, k.1 ∈ srv.packedIds
  ids : ∀ id ∈ (srv.send .block).ids, id ∈ srv.packedIds
  sync : ∀ id ∈ srv.pbSyncQueue, id ∈ srv.packedIds

theorem traced_init (cfg : Config) (s : ℕ) : (Server.init cfg s : Server G).Traced where
  pack i p id peers ids h := by simp [Server.init] at h
  backlog t k h := by
    simp only [Server.backlog, Server.init, SendPc.drained, queued, List.nil_append] at h
    cases hq : (initQueues cfg.serverCount s : ExtTreeMap ℕ (List ℕ))[t]? with
    | none => simp [hq, pointerKeys] at h
    | some q => simp [hq, initQueues_eq_nil hq, pointerKeys] at h
  ids id h := by simp [Server.init, SendPc.ids] at h
  sync id h := by simp [Server.init] at h

@[simp] theorem ids_nextTarget (ch : Chan) (rest : List ℕ) :
    (nextTarget ch rest : SendPc G).ids = [] := by
  cases rest with
  | nil =>
    simp only [nextTarget]
    split <;> rfl
  | cons => rfl

theorem ids_setSend {P : ℕ → Prop} (h : ∀ id ∈ (srv.send .block).ids, P id) {ch : Chan}
    {pc : SendPc G} (hpc : ch = .block → ∀ id ∈ pc.ids, P id) :
    ∀ id ∈ ((srv.setSend ch pc).send .block).ids, P id := by
  by_cases he : ch = .block
  · subst he
    simpa [setSend] using hpc rfl
  · have hne : Chan.block ≠ ch := fun h => he h.symm
    simpa [setSend, hne] using h

theorem Traced.acts (ht : srv.Traced) (hwf : srv.WF) (hq : srv.QueuesOk cfg s) {a : ServerAction}
    {out : Option (ℕ × Rpc G)} (h : srv.Acts cfg merge s a srv' out) : srv'.Traced := by
  have hsub : srv.packedIds ⊆ srv'.packedIds := by
    intro id hid
    obtain ⟨b, hb, he⟩ := List.mem_map.mp hid
    exact List.mem_map.mpr ⟨b, h.later.packed.subset hb, he⟩
  have hnew : ∀ t, ∀ k ∈ srv.newMail a .block t, k.1 ∈ srv.packedIds := by
    intro t k hk
    unfold newMail at hk
    split at hk
    · split at hk
      · rename_i hpc
        split at hk
        · rw [List.mem_singleton.mp hk]
          exact ht.pack _ _ _ _ _ hpc
        · cases hk
      · cases hk
    · rename_i hch; cases hch
    · cases hk
  have hb : ∀ t, ∀ k ∈ srv'.backlog .block t, k.1 ∈ srv'.packedIds := by
    intro t k hk
    have hm : k ∈ outMail out .block t ++ srv'.backlog .block t := List.mem_append_right _ hk
    rw [h.backlog hwf hq, List.mem_append] at hm
    rcases hm with hm | hm
    · exact hsub (ht.backlog t k hm)
    · exact hsub (hnew t k hm)
  cases h with
  | packCheck pc _ _ hpc =>
    refine { ht with backlog := hb, pack := fun i p id peers ids hp => ?_ }
    rcases hpc with rfl | rfl <;> cases hp
  | packGenerate | packEnd | packInsert =>
    exact { ht with backlog := hb, pack := fun i p id peers ids hp => by cases hp }
  | packBegin i now order _ =>
    refine ⟨fun i p id peers ids hp => ?_, hb, fun id hid => hsub (ht.ids id hid),
      fun id hid => hsub (ht.sync id hid)⟩
    cases hp
    simp [packedIds, packBegin]
  | packPush i p id t peers ids hpc =>
    refine { ht with backlog := hb, pack := fun i p id peers ids hp => ?_ }
    cases hp
    exact ht.pack _ _ _ _ _ hpc
  | sendPop ch t items ids rest srv'' item ids' hpc hpop =>
    have hids : ch = .block → ∀ id ∈ ids ++ ids', id ∈ srv.packedIds := by
      intro hch id hid
      subst hch
      rcases List.mem_append.mp hid with hid | hid
      · exact ht.ids id (by rw [hpc]; exact hid)
      · cases hpop with
        | block p q b hq' hb' =>
          rw [List.mem_singleton.mp hid]
          refine ht.backlog t (b.header.id, 0) (List.mem_append_right _ ?_)
          simp [queued, hq', pointerKeys, idAt, hb']
    cases hpop with
    | vote | block | commit =>
      exact { ht with backlog := hb, ids := ids_setSend ht.ids fun he => hids he }
  | sendStart ch _ | sendSkip ch _ _ _ _ =>
    exact { ht with backlog := hb, ids := ids_setSend ht.ids fun _ => by simp }
  | sendGo ch t items ids rest hpc _ =>
    refine { ht with backlog := hb, ids := ids_setSend ht.ids fun he id hid => ?_ }
    subst he
    exact ht.ids id (by rw [hpc]; exact hid)
  | syncIdle | syncSend =>
    exact { ht with backlog := hb, ids := ids_setSend ht.ids fun _ => by simp [SendPc.ids] }
  | syncPop id q _ hq' =>
    exact { ht with
      backlog := hb
      ids := ids_setSend ht.ids fun _ => by simp [SendPc.ids]
      sync := fun id' hid' => ht.sync id' (by rw [hq']; exact List.mem_cons_of_mem _ hid') }
  | syncLabel =>
    exact { ht with backlog := hb, ids := ids_setSend ht.ids fun _ => by simp [SendPc.ids] }
  | reap id now =>
    rcases reap_eq cfg srv id now with h | ⟨-, h⟩
    · rw [h]; exact ht
    · rw [h] at hb ⊢
      exact { ht with backlog := hb }
  | _ => exact { ht with backlog := hb }

theorem Traced.moves (ht : srv.Traced) (hwf : srv.WF) (hq : srv.QueuesOk cfg s)
    (h : srv.Moves cfg merge s srv') : srv'.Traced := by
  cases h with
  | act a out h => exact ht.acts hwf hq h
  | handle now rpc rpc' h =>
    have hs := h.sameThreads
    have hp : srv'.packedIds = srv.packedIds := by rw [packedIds, hs.packed, packedIds]
    exact ⟨by rw [hs.pack, hp]; exact ht.pack,
      fun t => by rw [h.backlog hwf (by simp), hp]; exact ht.backlog t,
      by rw [hs.send, hp]; exact ht.ids, by rw [hs.pbSyncQueue, hp]; exact ht.sync⟩
  | resume ch h =>
    have hb := backlog_resumeSend hwf h .block
    rcases resumeSend_eq h with ⟨t, ids, rest, hpc, rfl⟩ | ⟨id, t, rest, hpc, rfl⟩
    · refine { ht with
        backlog := fun t => by rw [hb]; exact ht.backlog t
        ids := ids_setSend (fun id hid => ht.ids id hid) fun _ => by simp
        sync := fun id hid => ?_ }
      have hid' : id ∈ (if ch = Chan.block then srv.pbSyncQueue ++ ids else srv.pbSyncQueue) := hid
      split at hid'
      · rename_i he
        subst he
        rcases List.mem_append.mp hid' with hid' | hid'
        · exact ht.sync id hid'
        · exact ht.ids id (by rw [hpc]; exact hid')
      · exact ht.sync id hid'
    · exact { ht with
        backlog := fun t => by rw [hb]; exact ht.backlog t
        ids := ids_setSend ht.ids fun _ => by simp [SendPc.ids] }

end Server

end TomChain
