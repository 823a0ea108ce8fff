import TomChain.System.Delivery
import TomChain.System.Store

/-!
# Blocks with a quorum

The two vote handlers hand a block to the merging thread with the vote that completes it. Votes
also reach a server inside a block: a relay queue holds the packer's live block, which is
serialised with the votes it has when it is sent. As long as such a block has fewer votes than
clients, a quorum is never in `pending_blks`.
-/

namespace TomChain

open Std (ExtTreeMap)
open Runs Server
open Flexbuffers (Flex toBytes fromBytes)

variable {G D : Type} {cfg : Config} {crypto : Crypto G D} {σ σ' : State G} {a : Action G}
  {ok : State G → Action G → Bool}

/-! ## Relayed blocks -/

def Light (n : ℕ) (item : Flex G) : Prop :=
  ∀ b : Block G, fromBytes item = some b → b.votes.size < n

theorem light_toBytes {n : ℕ} {b : Block G} (h : b.votes.size < n) : Light n (toBytes b) := by
  intro b' hd
  obtain ⟨rfl, -⟩ := Flexbuffers.fromBytes_toBytes_some hd
  exact h

def SendPc.relayed : SendPc G → List (Flex G)
  | .drain _ items _ _ => items
  | _ => []

def Rpc.relayed : Rpc G → List (Flex G)
  | .relayBlock items => items
  | _ => []

theorem relayed_nextTarget (ch : Chan) (rest : List ℕ) :
    (nextTarget ch rest : SendPc G).relayed = [] := by
  cases rest with
  | nil =>
    simp only [nextTarget]
    split <;> rfl
  | cons => rfl

/-! ## A server -/

namespace Server

variable {merge : List (BLSSigShare G) → BLSSignature G} {s n : ℕ} {srv srv' : Server G}

/-- A block with `n` votes is on its way to the commit or committed, and has no other role. -/
def QuorumMoves (n : ℕ) (srv : Server G) : Prop :=
  ∀ p b, srv.heap[p]? = some b → n ≤ b.votes.size → p ∈ srv.merging ∨
    ¬srv.PendingAt p ∧ ¬srv.PackingAt p ∧ b.header.id ∈ srv.committedBlks

/-- The blocks in the request that the relay thread is filling have fewer than `n` votes. -/
def RelaysLight (n : ℕ) (srv : Server G) : Prop :=
  ∀ item ∈ (srv.send .block).relayed, Light n item

theorem QuorumMoves.of_same (h : srv.QuorumMoves n)
    (hheap : ∀ (p : ℕ) (b' : Block G), srv'.heap[p]? = some b' → n ≤ b'.votes.size →
      ∃ b : Block G, srv.heap[p]? = some b ∧ b.votes = b'.votes ∧ b.header.id = b'.header.id)
    (hmerging : ∀ p ∈ srv.merging, p ∈ srv'.merging)
    (hpending : ∀ p, srv'.PendingAt p → srv.PendingAt p ∨ srv.PackingAt p ∨ srv.heap[p]? = none)
    (hpacking : ∀ p, srv'.PackingAt p → srv.PackingAt p ∨ srv.heap[p]? = none)
    (hcommitted : ∀ id ∈ srv.committedBlks, id ∈ srv'.committedBlks) : srv'.QuorumMoves n := by
  intro p b' hb' hn
  obtain ⟨b, hb, hvotes, hid⟩ := hheap p b' hb' hn
  rcases h p b hb (by rw [hvotes]; exact hn) with hm | ⟨h1, h2, h3⟩
  · exact .inl (hmerging p hm)
  · refine .inr ⟨fun hx => ?_, fun hx => ?_, hid ▸ hcommitted _ h3⟩
    · rcases hpending p hx with hx | hx | hx
      · exact h1 hx
      · exact h2 hx
      · rw [hb] at hx; cases hx
    · rcases hpacking p hx with hx | hx
      · exact h2 hx
      · rw [hb] at hx; cases hx

theorem QuorumMoves.pending (h : srv.QuorumMoves n) (hap : srv.Apart) {id p : ℕ} {b : Block G}
    (hp : srv.pendingBlks[id]? = some p) (hb : srv.heap[p]? = some b) : b.votes.size < n := by
  by_contra hn
  rcases h p b hb (by omega) with hm | ⟨hx, -⟩
  · exact (hap.merging p hm).1 ⟨id, hp⟩
  · exact hx ⟨id, hp⟩

theorem QuorumMoves.recordVote (h : srv.QuorumMoves cfg.clientCount) (id k : ℕ) (v : BlockVote G) :
    (srv.recordVote cfg id k v).QuorumMoves cfg.clientCount := by
  unfold Server.recordVote
  split
  · exact h
  · rename_i p hp
    split
    · exact h
    · rename_i b hb
      dsimp only
      have hold : ∀ q b', (srv.modifyBlock p fun b => b.insertVote k v).heap[q]? = some b' →
          q = p ∧ b' = b.insertVote k v ∨ q ≠ p ∧ srv.heap[q]? = some b' := by
        intro q b' hb'
        by_cases hq : p = q
        · subst hq
          left
          simpa [modifyBlock, hb, eq_comm] using hb'
        · exact .inr ⟨fun he => hq he.symm, by simpa [modifyBlock, hq] using hb'⟩
      split
      · intro q b' hb' hn
        rcases hold q b' hb' with ⟨rfl, -⟩ | ⟨-, hb'⟩
        · left
          simp [Server.merging, modifyBlock]
        · rcases h q b' hb' hn with hm | ⟨h1, h2, h3⟩
          · left
            have : q ∈ srv.merging ++ [p] := List.mem_append_left _ hm
            simpa [Server.merging, modifyBlock] using this
          · refine .inr ⟨?_, h2, h3⟩
            intro hx
            obtain ⟨id', -, hx⟩ := pendingAt_of_erase hx
            exact h1 ⟨id', hx⟩
      · rename_i hfew
        have hlt : (b.insertVote k v).votes.size < cfg.clientCount := by
          simpa [Block.isVoteEnough] using hfew
        intro q b' hb' hn
        rcases hold q b' hb' with ⟨-, rfl⟩ | ⟨-, hb'⟩
        · omega
        · exact h q b' hb' hn

theorem heap_append_light {srv srv' : Server G} {b₀ : Block G} (h : srv'.heap = srv.heap ++ [b₀])
    (hlt : b₀.votes.size < n) (p : ℕ) (b' : Block G) (hb' : srv'.heap[p]? = some b')
    (hn : n ≤ b'.votes.size) :
    ∃ b : Block G, srv.heap[p]? = some b ∧ b.votes = b'.votes ∧ b.header.id = b'.header.id := by
  rw [h, List.getElem?_append] at hb'
  split at hb'
  · exact ⟨b', hb', rfl, rfl⟩
  · rw [List.mem_singleton.mp (List.mem_of_getElem? hb')] at hn
    omega

theorem QuorumMoves.acts {a : ServerAction} {out : Option (ℕ × Rpc G)} (hap : srv.Apart)
    (hn : 1 ≤ n) (hq : srv.QuorumMoves n) (h : srv.Acts cfg merge s a srv' out) :
    srv'.QuorumMoves n := by
  have hkeep : ∀ {srv' : Server G}, srv'.heap = srv.heap →
      ∀ (p : ℕ) (b' : Block G), srv'.heap[p]? = some b' → n ≤ b'.votes.size →
        ∃ b : Block G, srv.heap[p]? = some b ∧ b.votes = b'.votes ∧ b.header.id = b'.header.id := by
    intro srv' he p b' hb' _
    exact ⟨b', by rw [← he]; exact hb', rfl, rfl⟩
  cases h with
  | packCheck pc _ _ hpc =>
    refine hq.of_same (hkeep rfl) (fun _ h => h) (fun _ h => .inl h) ?_ (fun _ h => h)
    rintro p ⟨i, id, peers, ids, h⟩
    rcases hpc with rfl | rfl <;> cases h
  | packGenerate | packEnd =>
    refine hq.of_same (hkeep rfl) (fun _ h => h) (fun _ h => .inl h) ?_ (fun _ h => h)
    rintro p ⟨i, id, peers, ids, h⟩
    cases h
  | packBegin i now order _ =>
    refine hq.of_same (heap_append_light rfl ?_) (fun _ h => h) (fun _ h => .inl h) ?_
      (fun _ h => h)
    · have hpos : 0 < n := hn
      simpa [Server.newBlock, Block.make] using hpos
    · rintro p ⟨i', id', peers', ids', h⟩
      cases h
      exact .inr (by simp)
  | packPush i p id t peers ids hpc =>
    refine hq.of_same (hkeep rfl) (fun _ h => h) (fun _ h => .inl h) ?_ (fun _ h => h)
    rintro p' ⟨i', id', peers', ids', h⟩
    cases h
    exact .inl ⟨i, id, t :: peers, ids, hpc⟩
  | packInsert i p id ids hpc =>
    refine hq.of_same (hkeep rfl) (fun _ h => h) (fun q hx => ?_) ?_ (fun _ h => h)
    · rcases pendingAt_of_insert hx with rfl | hx
      · exact .inr (.inl ⟨i, id, [], ids, hpc⟩)
      · exact .inl hx
    · rintro p' ⟨i', id', peers', ids', h⟩
      cases h
  | sendPop ch t items ids rest srv'' item ids' _ hpop =>
    cases hpop <;>
      exact hq.of_same (hkeep rfl) (fun _ h => h) (fun _ h => .inl h) (fun _ h => .inl h)
        (fun _ h => h)
  | mergePop p q hpc hmq =>
    have hm : ({ srv with pbMergeQueue := q, merge := .popped p } : Server G).merging =
        srv.merging := ((merging_idle hpc).trans hmq).symm
    exact hq.of_same (hkeep rfl) (fun _ h => by rw [hm]; exact h) (fun _ h => .inl h)
      (fun _ h => .inl h) (fun _ h => h)
  | mergeCommit p now b b' hpc hb hm =>
    have hmerging : srv.merging = p :: srv.pbMergeQueue := merging_popped hpc
    obtain ⟨hp1, -, hp3⟩ := hap.merging p (by rw [hmerging]; exact List.mem_cons_self ..)
    have hmem : ∀ id ∈ srv.committedBlks, id ∈ srv.committedBlks.insert b'.header.id p := by
      intro id hid
      exact ExtTreeMap.mem_insert.mpr (.inr hid)
    intro q b₁ hb₁ hn₁
    by_cases he : p = q
    · subst he
      have hb₁' : b'.stampCommit now = b₁ := by
        simpa [committedState, modifyBlock, hb] using hb₁
      subst hb₁'
      exact .inr ⟨hp1, hp3, ExtTreeMap.mem_insert_self⟩
    · have hb₁' : srv.heap[q]? = some b₁ := by
        simpa [committedState, modifyBlock, he] using hb₁
      rcases hq q b₁ hb₁' hn₁ with hm₁ | ⟨h1, h2, h3⟩
      · rw [hmerging] at hm₁
        rcases List.mem_cons.mp hm₁ with hm₁ | hm₁
        · exact absurd hm₁.symm he
        · exact .inl hm₁
      · exact .inr ⟨h1, h2, hmem _ h3⟩
  | mergePush p t peers hpc =>
    exact hq.of_same (hkeep rfl) (fun _ h => by rwa [merging_push hpc] at h)
      (fun _ h => .inl h) (fun _ h => .inl h) (fun _ h => h)
  | mergeDone p hpc =>
    exact hq.of_same (hkeep rfl) (fun _ h => by rwa [merging_push hpc] at h)
      (fun _ h => .inl h) (fun _ h => .inl h) (fun _ h => h)
  | reap id now =>
    rcases reap_eq cfg srv id now with h | ⟨-, h⟩
    · rw [h]; exact hq
    · rw [h]
      refine hq.of_same (hkeep rfl) (fun _ h => h) (fun p hx => ?_) (fun _ h => .inl h)
        (fun _ h => h)
      obtain ⟨id', -, hx⟩ := pendingAt_of_erase hx
      exact .inl ⟨id', hx⟩
  | _ =>
    exact hq.of_same (hkeep rfl) (fun _ h => h) (fun _ h => .inl h) (fun _ h => .inl h)
      (fun _ h => h)

theorem QuorumMoves.handles {now : ℕ} {rpc rpc' : Rpc G} (hwf : srv.WF)
    (hq : srv.QuorumMoves cfg.clientCount) (hlight : ∀ item ∈ rpc.relayed, Light cfg.clientCount item)
    (h : srv.Handles cfg s now rpc srv' rpc') : srv'.QuorumMoves cfg.clientCount := by
  cases h with
  | relayVote item rest vote _ =>
    unfold relayVoteItem
    split
    · exact hq
    · exact hq.recordVote _ _ _
  | record => exact hq.recordVote _ _ _
  | relayBlock item rest block hd =>
    refine hq.of_same (heap_append_light rfl (hlight item (List.mem_cons_self ..) block hd))
      (fun _ h => h) (fun q hx => ?_) (fun _ h => .inl h) (fun _ h => h)
    rcases pendingAt_of_insert hx with rfl | hx
    · exact .inr (.inr (by simp))
    · exact .inl hx
  | spBcastCommit item rest block _ =>
    rcases spBcastCommitItem_eq cfg srv now block with ⟨-, h⟩ | ⟨-, db, h⟩
    · rw [h]; exact hq
    · rw [h]
      obtain ⟨-, hf2, -, hf4⟩ := hwf.fresh
      have hold : ∀ q, (∃ id' : ℕ, (srv.pendingBlks.erase block.header.id)[id']? = some q) →
          srv.PendingAt q := by
        intro q hx
        obtain ⟨id', -, hx⟩ := pendingAt_of_erase hx
        exact ⟨id', hx⟩
      intro q b' hb' hn
      have hb'' : (srv.heap ++ [block.stampRecv now])[q]? = some b' := hb'
      rw [List.getElem?_append] at hb''
      split at hb''
      · rcases hq q b' hb'' hn with hm | ⟨h1, h2, h3⟩
        · exact .inl hm
        · exact .inr ⟨fun hx => h1 (hold q hx), h2, ExtTreeMap.mem_insert.mpr (.inr h3)⟩
      · have hlen : q = srv.heap.length := by
          have := (List.getElem?_eq_some_iff.mp hb').1
          simp [alloc] at this
          omega
        rw [List.mem_singleton.mp (List.mem_of_getElem? hb''), hlen]
        exact .inr ⟨fun hx => hf2 (hold _ hx), hf4, ExtTreeMap.mem_insert_self⟩
  | pullItem id blockId p todo pbHdrs b _ hdrs hb hi =>
    rcases pullItem_eq hi with ⟨rfl, -⟩ | ⟨-, -, clients, rfl⟩
    · exact hq
    · refine hq.of_same (fun q b' hb' _ => ?_) (fun _ h => h) (fun _ h => .inl h)
        (fun _ h => .inl h) (fun _ h => h)
      have hb'' : (srv.heap.modify p (·.stampDist now))[q]? = some b' := hb'
      rw [List.getElem?_modify] at hb''
      obtain ⟨b₀, hb₀, rfl⟩ := Option.map_eq_some_iff.mp hb''
      refine ⟨b₀, hb₀, ?_⟩
      split
      · exact ⟨(Block.stampDist_votes b₀ now).symm, (Block.stampDist_id b₀ now).symm⟩
      · exact ⟨rfl, rfl⟩
  | voteBlocks id item rest block _ current _ hi =>
    obtain ⟨queues, rfl⟩ := voteBlocksItem_eq hi
    exact hq
  | relayBlockSync => exact hq
  | _ => exact hq

theorem RelaysLight.out {a : ServerAction} {target : ℕ} {rpc : Rpc G} (hl : srv.RelaysLight n)
    (h : srv.Acts cfg merge s a srv' (some (target, rpc))) : ∀ item ∈ rpc.relayed, Light n item := by
  cases h with
  | sendGo ch _ items ids rest hpc _ =>
    cases ch with
    | block =>
      rw [RelaysLight, hpc] at hl
      exact hl
    | vote | commit => exact fun item hm => by cases hm
  | syncSend => exact fun item hm => by cases hm

theorem RelaysLight.setSend (hl : srv.RelaysLight n) {ch : Chan} {pc : SendPc G}
    (h : ch = .block → ∀ item ∈ pc.relayed, Light n item) : (srv.setSend ch pc).RelaysLight n := by
  intro item hm
  by_cases he : ch = .block
  · subst he
    exact h rfl item (by simpa [Server.setSend] using hm)
  · have hne : Chan.block ≠ ch := fun h => he h.symm
    exact hl item (by simpa [Server.setSend, hne] using hm)

/-- The block that the relay thread of blocks takes next from the queue of its target has fewer
than `n` votes. -/
def popsLight (n : ℕ) (srv : Server G) : Bool :=
  match srv.send .block with
  | .drain t _ _ _ => ((srv.relayBlocks[t]?).bind List.head?).all fun p =>
      (srv.heap[p]?).all fun b => b.votes.size < n
  | _ => true

theorem RelaysLight.acts {a : ServerAction} {out : Option (ℕ × Rpc G)} (hl : srv.RelaysLight n)
    (hpop : a = .sendPop .block → srv.popsLight n = true) (h : srv.Acts cfg merge s a srv' out) :
    srv'.RelaysLight n := by
  cases h with
  | sendStart ch hpc => exact hl.setSend fun _ item hm => by rw [relayed_nextTarget] at hm; cases hm
  | sendPop ch t items ids rest srv'' item ids' hpc hpops =>
    have hl' : srv''.RelaysLight n := by cases hpops <;> exact hl
    refine hl'.setSend fun hch item' hm => ?_
    subst hch
    have hmem : item' ∈ items ++ [item] := hm
    rcases List.mem_append.mp hmem with hold | hnew
    · rw [RelaysLight, hpc] at hl
      exact hl item' hold
    · have hguard := hpop rfl
      cases hpops with
      | block p q b hq hb =>
        rw [List.mem_singleton.mp hnew]
        refine light_toBytes ?_
        simpa [popsLight, hpc, hq, hb] using hguard
  | sendSkip ch t ids rest hpc =>
    exact hl.setSend fun _ item hm => by rw [relayed_nextTarget] at hm; cases hm
  | sendGo ch t items ids rest hpc _ => exact hl.setSend fun _ item hm => by cases hm
  | syncIdle | syncSend => exact hl.setSend fun _ item hm => by cases hm
  | syncPop id q | syncLabel id =>
    refine RelaysLight.setSend ?_ fun _ item hm => by cases hm
    exact hl
  | reap id now =>
    rcases reap_eq cfg srv id now with h | ⟨-, h⟩ <;> rw [h] <;> exact hl
  | _ => exact hl

theorem RelaysLight.handles {now : ℕ} {rpc rpc' : Rpc G} (hl : srv.RelaysLight n)
    (h : srv.Handles cfg s now rpc srv' rpc') : srv'.RelaysLight n := by
  rw [RelaysLight, h.sameThreads.send]
  exact hl

theorem Handles.relayed {now : ℕ} {rpc rpc' : Rpc G} (h : srv.Handles cfg s now rpc srv' rpc') :
    ∀ item ∈ rpc'.relayed, item ∈ rpc.relayed := by
  cases h with
  | relayBlock => exact fun item hm => List.mem_cons_of_mem _ hm
  | _ => exact fun item hm => by cases hm

theorem RelaysLight.resumeSend {ch : Chan} (hl : srv.RelaysLight n)
    (h : srv.resumeSend ch = some srv') : srv'.RelaysLight n := by
  rcases resumeSend_eq h with ⟨_, _, _, -, rfl⟩ | ⟨_, _, _, -, rfl⟩
  · refine RelaysLight.setSend ?_ fun _ item hm => by rw [relayed_nextTarget] at hm; cases hm
    exact hl
  · exact hl.setSend fun _ item hm => by cases hm

theorem QuorumMoves.resumeSend {ch : Chan} (hq : srv.QuorumMoves n)
    (h : srv.resumeSend ch = some srv') : srv'.QuorumMoves n := by
  rcases resumeSend_eq h with ⟨_, _, _, -, rfl⟩ | ⟨_, _, _, -, rfl⟩ <;> exact hq

end Server

theorem Client.Acts.relayed {c target : ℕ} {cl cl' : Client G} {ca : ClientAction} {rpc : Rpc G}
    (h : cl.Acts cfg crypto c ca cl' (some (target, rpc))) : rpc.relayed = [] := by
  cases h <;> rfl

/-! ## Every run -/

/-- A block that is taken from a relay queue to be sent has fewer votes than there are clients. -/
def relaysLight (cfg : Config) (σ : State G) : Action G → Bool
  | .server s (.sendPop .block) => (σ.server s).popsLight cfg.clientCount
  | _ => true

structure QuorumOk (cfg : Config) (σ : State G) : Prop where
  moves : ∀ s, (σ.server s).QuorumMoves cfg.clientCount
  relays : ∀ s, (σ.server s).RelaysLight cfg.clientCount
  calls : ∀ call ∈ σ.calls, ∀ item ∈ call.rpc.relayed, Light cfg.clientCount item

theorem quorumOk_init (cfg : Config) : QuorumOk cfg (State.init cfg : State G) where
  moves s p b hb := by simp [State.init, Server.init] at hb
  relays s item hm := by cases hm
  calls call hm := by cases hm

theorem QuorumOk.step (hN : 1 ≤ cfg.clientCount) (hr : Reachable cfg crypto ok σ)
    (ha : relaysLight cfg σ a = true) (h : QuorumOk cfg σ) (hs : Steps cfg crypto σ a σ') :
    QuorumOk cfg σ' := by
  have hcalls : ∀ call ∈ σ'.calls, ∀ item ∈ call.rpc.relayed, Light cfg.clientCount item := by
    intro call hm
    rcases hs.call_cases hm with ⟨call₀, hm₀, -, hrpc⟩ | ⟨s, sa, srv', -, -, -, hact⟩ |
      ⟨c, ca, cl', -, -, -, hact⟩ | ⟨i, now, order, rpc, -, hi, hh⟩ | ⟨-, hreq⟩
    · rw [← hrpc]
      exact h.calls call₀ hm₀
    · exact (h.relays s).out hact
    · rw [hact.relayed]
      exact fun item hm => by cases hm
    · exact fun item hm' => h.calls _ (List.mem_of_getElem? hi) item (hh.relayed item hm')
    · revert hreq
      cases call.rpc with
      | relayBlock => simp [Rpc.isClientRequest]
      | _ => exact fun _ item hm => by cases hm
  have hserver : ∀ s, (σ'.server s).QuorumMoves cfg.clientCount ∧
      (σ'.server s).RelaysLight cfg.clientCount := by
    intro s
    have hresume : ∀ {σ₁ : State G} {response : Option (Rpc G)} {θ : Thread},
        σ₁.server = σ.server → Resumes σ₁ response θ σ' →
        (σ'.server s).QuorumMoves cfg.clientCount ∧ (σ'.server s).RelaysLight cfg.clientCount := by
      intro σ₁ response θ he hres
      cases hres with
      | send s' ch srv' hr =>
        rw [he] at hr
        rw [State.setServer_server]
        split
        · exact ⟨(h.moves _).resumeSend hr, (h.relays _).resumeSend hr⟩
        · rw [he]; exact ⟨h.moves s, h.relays s⟩
      | pull | vote =>
        rw [State.setClient_server, he]
        exact ⟨h.moves s, h.relays s⟩
    cases hs with
    | server s' sa srv' out _ _ hact =>
      rw [State.addCall_server, State.setServer_server]
      split
      · exact ⟨(h.moves s').acts (hr.apart s') hN hact,
          (h.relays s').acts (fun he => by subst he; exact ha) hact⟩
      · exact ⟨h.moves s, h.relays s⟩
    | handle i now order call srv' rpc' hi hh =>
      show ((σ.setServer call.target srv').server s).QuorumMoves cfg.clientCount ∧
        ((σ.setServer call.target srv').server s).RelaysLight cfg.clientCount
      rw [State.setServer_server]
      split
      · exact ⟨(h.moves _).handles (hr.wf _) (h.calls call (List.mem_of_getElem? hi)) hh,
          (h.relays _).handles hh⟩
      · exact ⟨h.moves s, h.relays s⟩
    | client | foreign =>
      simp only [State.addCall_server, State.setClient_server]
      exact ⟨h.moves s, h.relays s⟩
    | retOrphan | failOrphan => exact ⟨h.moves s, h.relays s⟩
    | ret i call θ _ _ _ _ hres => exact hresume (by rfl) hres
    | fail i call θ _ _ _ hres => exact hresume (by rfl) hres
  exact ⟨fun s => (hserver s).1, fun s => (hserver s).2, hcalls⟩

/-- On every server, what is pending has fewer votes than there are clients, and a block that has
all its votes is on its way to the commit or committed. -/
def QuorumHandedOver (cfg : Config) (σ : State G) : Prop :=
  ∀ s, (∀ (id p : ℕ) (b : Block G), (σ.server s).pendingBlks[id]? = some p →
      (σ.server s).heap[p]? = some b → b.votes.size < cfg.clientCount) ∧
    ∀ (p : ℕ) (b : Block G), (σ.server s).heap[p]? = some b → cfg.clientCount ≤ b.votes.size →
      b.header.id ∈ (σ.server s).mergingIds ∨ b.header.id ∈ (σ.server s).committedBlks

theorem quorumHandedOver_of_relaysLight (cfg : Config) (crypto : Crypto G D) (σ : State G)
    (hN : 1 ≤ cfg.clientCount) (h : Reachable cfg crypto (relaysLight cfg) σ) :
    QuorumHandedOver cfg σ := by
  have hok : QuorumOk cfg σ := h.invariant (QuorumOk cfg) (quorumOk_init cfg)
    fun σ a σ' hr ha hok hs => hok.step hN hr ha (steps_of_step hs)
  intro s
  refine ⟨fun id p b hp hb => (hok.moves s).pending (h.apart s) hp hb, fun p b hb hn => ?_⟩
  rcases hok.moves s p b hb hn with hm | ⟨-, -, hc⟩
  · exact .inl (List.mem_filterMap.mpr ⟨p, hm, by simp [idAt, hb]⟩)
  · exact .inr hc

/-- In the round both servers end with the block committed and all its votes in it. -/
theorem quorumHandedOver_round :
    ∃ σ : State Point, Reachable sampleConfig Crypto.symbolic (relaysLight sampleConfig) σ ∧
      (∃ b, (σ.server 1).heap[0]? = some b ∧ sampleConfig.clientCount ≤ b.votes.size) ∧
      QuorumHandedOver sampleConfig σ := by
  obtain ⟨σ, hr, hσ⟩ := exists_reachable sampleConfig Crypto.symbolic (relaysLight sampleConfig)
    Script.round (fun σ => ((σ.server 1).heap[0]?).any fun b => 2 ≤ b.votes.size)
    (by decide +kernel)
  obtain ⟨b, hb, hn⟩ := (Option.any_eq_true _ _).mp hσ
  exact ⟨σ, hr, ⟨b, hb, of_decide_eq_true hn⟩,
    quorumHandedOver_of_relaysLight _ _ σ (by decide) hr⟩

/-- A relayed block that has all its votes is pending with them, whatever the target has seen. -/
theorem pending_of_relayBlock {s now : ℕ} {srv srv' : Server G} {item : Flex G}
    {rest : List (Flex G)} {rpc' : Rpc G} {b : Block G} (hd : fromBytes item = some b)
    (h : srv.Handles cfg s now (.relayBlock (item :: rest)) srv' rpc') :
    ∃ p, srv'.pendingBlks[b.header.id]? = some p ∧ srv'.heap[p]? = some b := by
  cases h with
  | relayBlockFailed _ _ hd' => rw [hd] at hd'; cases hd'
  | relayBlock _ _ block hd' =>
    rw [hd] at hd'
    cases hd'
    exact ⟨srv.heap.length, ExtTreeMap.getElem?_insert_self,
      by simp [relayBlockItem, alloc, storePending]⟩

namespace Script

/-- The calls of client 1 on the two blocks of `overtaken`. -/
def voteOvertaken : List (Action Point) :=
  List.flatten [
    [.client 1 (.pull []), .handle 0 100 [(3000000, 0)], .handle 0 100 [], .ret 0,
      .client 1 (.pull []), .handle 0 100 [(3000000, 0), (3000001, 1)], .handle 0 100 [],
      .handle 0 100 [], .ret 0, .client 1 (.pull [3000000, 3000001]), .handle 0 100 [],
      .handle 0 100 [], .ret 0, .client 1 (.pull [3000001]), .handle 0 100 [], .ret 0],
    vote 1,
    [.client 1 .votePop, .client 1 .voteSend, .handle 0 200 [], .ret 0, .client 1 .voteSend,
      .handle 0 200 [], .handle 0 200 [], .ret 0]]

/-- Block 3000001 is packed while the relay has passed server 1. Server 2 gets it, client 1 votes,
and its vote reaches server 3, a target, before the block is sent to server 1. -/
def overtaken : List (Action Point) :=
  List.flatten [
    packLate, [.server 3 .packEnd, .server 3 (.sendStart .block)], send 3 .block, packLate,
    [.server 3 (.sendPop .block), .server 3 (.sendPop .block), .server 3 (.sendGo .block),
      .handle 0 100 [], .handle 0 100 [], .ret 0],
    syncBoth.take 8, syncBoth.take 8, syncBoth, voteOvertaken,
    [.server 2 (.sendStart .vote)], send 2 .vote, send 2 .vote,
    [.server 3 (.sendStart .block)], send 3 .block]

end Script

/-- Server 1 holds block 3000001 in `pending_blks` with the vote of the only client. -/
theorem exists_pending_quorum :
    ¬ ∀ σ, Reachable Script.lateConfig Crypto.symbolic (reliable Script.lateConfig) σ →
      QuorumHandedOver Script.lateConfig σ := by
  intro h
  obtain ⟨σ, hr, hσ⟩ := exists_reachable Script.lateConfig Crypto.symbolic
    (reliable Script.lateConfig) Script.overtaken
    (fun σ => (σ.server 1).pendingBlks[3000001]? == some 1 &&
      ((σ.server 1).heap[1]?).any fun b => 1 ≤ b.votes.size) (by decide +kernel)
  simp only [Bool.and_eq_true, beq_iff_eq, Option.any_eq_true, decide_eq_true_eq] at hσ
  obtain ⟨hp, b, hb, hn⟩ := hσ
  have hlt := (h σ hr 1).1 3000001 1 b hp hb
  have hcount : Script.lateConfig.clientCount = 1 := rfl
  omega

end TomChain
