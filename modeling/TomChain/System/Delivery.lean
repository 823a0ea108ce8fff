import TomChain.System.Barrier
import TomChain.System.Transit
import TomChain.System.Votes

/-!
# Delivery of votes

A vote reaches a target server directly or through the relay of the other one, and both handlers
drop it when the block is not pending there. When the sync signal of a block waits for the block
itself, every vote is on a block that every server has stored, so it is recorded wherever it
arrives, and what was sent arrives.
-/

namespace TomChain

open Std (ExtTreeMap ExtTreeSet)
open Runs Server
open Flexbuffers (Flex toBytes fromBytes voteFromBytes headerFromBytes)

variable {G D : Type} {cfg : Config} {crypto : Crypto G D} {σ σ' : State G} {a : Action G}
  {ok : State G → Action G → Bool}

/-- No call fails, and the sync signal of a block starts when the block is relayed and stored. -/
def delivering (cfg : Config) (σ : State G) (a : Action G) : Bool :=
  reliable cfg σ a && syncsDelivered σ a

theorem reliable_of_delivering (h : delivering cfg σ a) : reliable cfg σ a := by
  simp only [delivering, Bool.and_eq_true] at h
  exact h.1

theorem syncsDelivered_of_delivering (h : delivering cfg σ a) : syncsDelivered σ a := by
  simp only [delivering, Bool.and_eq_true] at h
  exact h.2

/-! ## Votes are on blocks that are everywhere -/

def arrivalFlow (cfg : Config) (crypto : Crypto G D) (σ : State G) : Flow G where
  block b := (∃ k, k ∈ b.votes) → AllStored cfg σ b.header.id
  ballot _ id _ := AllStored cfg σ id
  label := AllStored cfg σ
  offered := AllStored cfg σ
  served b := AllStored cfg σ b.header.id
  item c item := ∃ b, AllStored cfg σ b.header.id ∧
    item = toBytes (votedBlock crypto cfg.clientCount c b)
  final id := ∃ u, 1 ≤ u ∧ u ≤ cfg.serverCount ∧ id ∈ (σ.server u).merged

theorem arrivalFlow_laws (σ : State G) : (arrivalFlow cfg crypto σ).Laws cfg crypto where
  dist b now h hk := by
    rw [Block.stampDist_votes] at hk
    rw [Block.stampDist_id]
    exact h hk
  insert _ _ _ _ hv _ := hv
  sign _ _ h := h
  commit _ _ h _ := h
  recv _ _ h _ := h
  offered _ h := h
  served _ h := h
  item b _ h _ _ _ := ⟨b, h, rfl⟩

theorem arrivalFlow_le (hs : Steps cfg crypto σ a σ') :
    (arrivalFlow cfg crypto σ).Le (arrivalFlow cfg crypto σ') where
  block _ h hk := (h hk).steps hs
  ballot _ _ _ h := h.steps hs
  label _ h := h.steps hs
  offered _ h := h.steps hs
  served _ h := h.steps hs
  item _ _ h := h.imp fun _ hb => ⟨hb.1.steps hs, hb.2⟩
  final _ h := h.imp fun u hu => ⟨hu.1, hu.2.1, (hs.later u).merged.subset hu.2.2⟩

theorem arrivalFlow_clean (hok : ∀ σ a, ok σ a → delivering cfg σ a)
    (h : Reachable cfg crypto ok σ) : (arrivalFlow cfg crypto σ).Clean cfg σ := by
  refine Flow.clean_of_reachable (arrivalFlow cfg crypto) arrivalFlow_laws
    (fun _ _ _ _ hs => arrivalFlow_le hs) ?_ h
  intro σ a σ' hr ha hclean hs
  have hhonest := honestFlow_clean
    (fun σ a ha => honest_of_reliable (reliable_of_delivering (hok σ a ha))) hr
  exact {
    pack := fun s now order _ ⟨k, hk⟩ => by simp [Server.newBlock, Block.make] at hk
    sync := fun s id q he hpc hq => by
      subst he
      exact (allStored_of_syncPop (fun σ a ha => syncsDelivered_of_delivering (hok σ a ha)) hr ha
        hpc hq).steps hs
    merge := fun s now p b he hpc hb => by
      subst he
      cases hs with
      | server _ _ srv' out h1 h2 hact =>
        cases hact with
        | mergeCommit p' _ b₀ b' hpc' hb₀ hm =>
          rw [hpc] at hpc'
          cases hpc'
          rw [hb] at hb₀
          cases hb₀
          refine ⟨s, h1, h2, ?_⟩
          rw [← (Block.grows_mergeVotes hm).id_eq]
          simp [committedState]
    vote := fun i now order call id item rest block v _ hi hrpc hF hd hv => by
      have hm := List.mem_of_getElem? hi
      have hitem := hhonest.calls call hm
      rw [hrpc] at hitem
      obtain ⟨b, hb, rfl⟩ := hF
      obtain ⟨rfl, -⟩ := Flexbuffers.fromBytes_toBytes_some hd
      obtain ⟨b', hid, rfl⟩ :=
        (honest_item (hitem.1 _ (List.mem_cons_self ..)) hd).2 v hv
      refine ⟨hb, fun _ _ => ?_⟩
      have hid' : (castVote crypto cfg.clientCount id b').blockId = b.header.id := hid
      show AllStored cfg σ' (castVote crypto cfg.clientCount id b').blockId
      rw [hid']
      exact hb
    get := fun i now order call hdr rest pb p b _ _ _ hoff hp hb _ => by
      obtain ⟨b₀, hb₀, hid⟩ := idAt_eq_some.mp ((hr.wf _).pending _ _ hp)
      rw [hb] at hb₀
      cases hb₀
      show AllStored cfg σ' b.header.id
      rw [hid]
      exact hoff
    foreign := fun target rpc he _ => by
      subst he
      exact absurd (reliable_of_delivering (hok _ _ ha)) (by simp [reliable]) }

/-! ## The way of a vote -/

/-- A vote that is recorded on a server that has had the block stays there. -/
theorem Server.Records.settled {srv srv' : Server G} {id k : ℕ} {v : BlockVote G} (hwf : srv.WF)
    (hst : id ∈ srv.stored) (h : srv.Records cfg id k v srv') :
    srv'.Settled (fun b => k ∈ b.votes) id := by
  cases h with
  | absent hp => exact ⟨hst, fun p hp' => by rw [hp] at hp'; cases hp'⟩
  | dangling p hp hb =>
    obtain ⟨b, hb', -⟩ := idAt_eq_some.mp (hwf.pending id p hp)
    rw [hb] at hb'
    cases hb'
  | fewer p b hp hb =>
    refine ⟨hst, fun p' hp' => ?_⟩
    have hpp : p' = p := by
      have hp'' : srv.pendingBlks[id]? = some p' := hp'
      rw [hp] at hp''
      exact (Option.some.inj hp'').symm
    subst hpp
    exact ⟨b.insertVote k v, by simp [modifyBlock, hb], Block.mem_insertVote.mpr (.inl rfl)⟩
  | enough p b hp hb _ =>
    refine ⟨hst, fun p' hp' => ?_⟩
    simp at hp'

/-- The vote of client `c` on block `id`, sent in the element `item`, has arrived at `t` or is on
its way there: relayed, or in a `VoteBlocks` call. -/
def VoteReaches (cfg : Config) (σ : State G) (c id : ℕ) (item : Flex G) (t : ℕ) : Prop :=
  (σ.server t).Settled (fun b => c ∈ b.votes) id ∨ InTransit cfg σ .vote (id, c) t ∨
    ∃ call ∈ σ.calls, 1 ≤ call.target ∧ call.target ≤ cfg.serverCount ∧
      ∃ items current, call.rpc = .voteBlocks c items current ∧
        (item ∈ items ∨ call.target = t ∧ ∃ v, current = some (id, v))

/-- One step of a `VoteBlocks` handler: the vote is recorded, goes to the record step, or is queued
for the other target server. -/
theorem voteReaches_handle (hr : Reachable cfg crypto ok σ)
    (hok : ∀ σ a, ok σ a → delivering cfg σ a) {call : Call G} (hm : call ∈ σ.calls)
    {c : ℕ} {items : List (Flex G)} {current : Option (ℕ × BlockVote G)} {b : Block G} {t now : ℕ}
    {rpc' : Rpc G} (hrpc : call.rpc = .voteBlocks c items current) (h1 : 1 ≤ call.target)
    (h2 : call.target ≤ cfg.serverCount) (ht : t ∈ b.getServerId cfg.serverCount)
    (hcase : toBytes (votedBlock crypto cfg.clientCount c b) ∈ items ∨
      call.target = t ∧ ∃ v, current = some (b.header.id, v))
    (hm' : { call with rpc := rpc' } ∈ σ'.calls) (hbroken : rpc'.broken = false)
    (hh : (σ.server call.target).Handles cfg call.target now call.rpc (σ'.server call.target) rpc') :
    VoteReaches cfg σ' c b.header.id (toBytes (votedBlock crypto cfg.clientCount c b)) t := by
  have hwf := hr.wf call.target
  have hF := (arrivalFlow_clean hok hr).calls call hm
  have hH := (honestFlow_clean
    (fun σ a ha => honest_of_reliable (reliable_of_delivering (hok σ a ha))) hr).calls call hm
  have hdead := hr.deadBlock (fun σ a ha => reliable_of_delivering (hok σ a ha)) call.target
  rw [hrpc] at hh hF hH
  generalize hsrv : σ'.server call.target = srv' at hh
  cases hh with
  | record _ _ id v =>
    rcases hcase with hin | ⟨rfl, v', he⟩
    · exact .inr (.inr ⟨_, hm', h1, h2, items, none, rfl, .inl hin⟩)
    · cases he
      left
      rw [hsrv]
      exact (records_recordVote ..).settled hwf (hF.2 _ _ rfl _ h1 h2)
  | voteBlocksFailed | voteBlocksUndefined => cases hbroken
  | voteBlocks _ item rest block _ current' hd hi =>
    rcases hcase with hin | ⟨-, v', he⟩
    · rcases List.mem_cons.mp hin with rfl | hin
      · have hitem := hH.1 _ (List.mem_cons_self ..)
        obtain ⟨hvote, hcast⟩ := honest_item hitem hd
        obtain ⟨rfl, -⟩ := Flexbuffers.fromBytes_toBytes_some hd
        rcases voteBlocksItem_cases hi with ⟨-, hnone | hdd⟩ | ⟨v, hv, -, hpush, rfl⟩
        · rw [ExtTreeMap.mem_iff_isSome_getElem?, hnone] at hvote
          cases hvote
        · rw [hdead] at hdd
          exact absurd hdd ExtTreeSet.not_mem_empty
        · by_cases htt : t = call.target
          · subst htt
            exact .inr (.inr ⟨_, hm', h1, h2, rest, _, rfl, .inr ⟨rfl, v, if_pos ht⟩⟩)
          · refine .inr (.inl (.inl ⟨call.target, h1, h2, ?_⟩))
            obtain ⟨b', hid, rfl⟩ := hcast v hv
            have hq := (queued_pushVotes t hpush).2 (by
              simp only [List.mem_filter, ExtTreeSet.mem_toList, decide_eq_true_eq]
              exact ⟨ht, htt⟩)
            have hkey : ((castVote crypto cfg.clientCount c b').blockId,
                (castVote crypto cfg.clientCount c b').voterId) = (b.header.id, c) :=
              Prod.ext hid rfl
            rw [hkey] at hq
            rw [hsrv]
            exact List.mem_append_right _ hq
      · exact .inr (.inr ⟨_, hm', h1, h2, rest, _, rfl, .inl hin⟩)
    · cases he

/-- A vote that has arrived stays, and one that is on its way gets on. -/
theorem VoteReaches.step (hr : Reachable cfg crypto ok σ) (hok : ∀ σ a, ok σ a → delivering cfg σ a)
    (hs : Steps cfg crypto σ a σ') (hfail : ∀ i, a ≠ .fail i)
    (hbroken : ∀ call ∈ σ'.calls, call.rpc.broken = false) {c t : ℕ} {b : Block G}
    (ht : t ∈ b.getServerId cfg.serverCount) (h1 : 1 ≤ t) (h2 : t ≤ cfg.serverCount)
    (hone : (σ'.server t).stored.count b.header.id ≤ 1)
    (h : VoteReaches cfg σ c b.header.id (toBytes (votedBlock crypto cfg.clientCount c b)) t) :
    VoteReaches cfg σ' c b.header.id (toBytes (votedBlock crypto cfg.clientCount c b)) t := by
  rcases h with hset | htr | ⟨call, hm, h3, h4, items, current, hrpc, hcase⟩
  · exact .inl (hs.settled (fun _ _ hg hk => hg.mem hk) hone hset)
  · rcases htr.step hr hs hfail hbroken with htr | ⟨now, item, rest, hkey, ⟨call, hm, hrpc⟩, hh⟩
    · exact .inr (.inl htr)
    · left
      have hF := (arrivalFlow_clean hok hr).calls call hm
      rw [hrpc] at hF
      obtain ⟨v, hv, rfl⟩ := hF item (List.mem_cons_self ..)
      rw [wireKey_voteToBytes] at hkey
      have hid : v.blockId = b.header.id := congrArg Prod.fst hkey
      have hc : v.voterId = c := congrArg Prod.snd hkey
      have hst : b.header.id ∈ (σ.server t).stored := hid ▸ hv t h1 h2
      generalize σ'.server t = srv' at hh
      cases hh with
      | relayVote _ _ v' hd =>
        rw [Flexbuffers.voteFromBytes_toBytes] at hd
        cases hd
        have hdead := hr.deadBlock (fun σ a ha => reliable_of_delivering (hok σ a ha)) t
        rw [relayVoteItem, hdead, if_neg ExtTreeSet.not_mem_empty, hid, hc]
        exact (records_recordVote ..).settled (hr.wf t) hst
  · rcases hs.call_next hfail hm with hm' | hf | ⟨now, rpc', hm', hh⟩
    · exact .inr (.inr ⟨call, hm', h3, h4, items, current, hrpc, hcase⟩)
    · rw [hrpc] at hf
      simp only [Rpc.finished, Bool.and_eq_true, List.isEmpty_iff, Option.isNone_iff_eq_none] at hf
      obtain ⟨rfl, rfl⟩ := hf
      rcases hcase with hin | ⟨-, v, he⟩
      · cases hin
      · cases he
    · exact voteReaches_handle hr hok hm hrpc h3 h4 ht hcase hm' (hbroken _ hm') hh

/-! ## What was sent -/

theorem Server.Acts.votedItems {s : ℕ} {srv srv' : Server G} {sa : ServerAction} {r : ℕ × Rpc G}
    (h : srv.Acts cfg crypto.merge s sa srv' (some r)) : r.2.votedItems = [] := by
  cases h with
  | sendGo ch => cases ch <;> rfl
  | syncSend => rfl

/-- A step sends an element by the `VoteBlocks` call of a client, or with a foreign request. -/
theorem Steps.sent_cases (hs : Steps cfg crypto σ a σ') {c : ℕ} {item : Flex G}
    (hm : (c, item) ∈ σ'.sent) :
    (c, item) ∈ σ.sent ∨ (∃ target rpc, a = .foreign target rpc) ∨
      (1 ≤ c ∧ c ≤ cfg.clientCount ∧ ∃ stub stubs, (σ.client c).vote = .send item (stub :: stubs) ∧
        ⟨stubServer cfg.serverCount c stub, some (.vote c), .voteBlocks c [item] none⟩ ∈ σ'.calls) := by
  cases hs with
  | server s sa srv' out _ _ hact =>
    cases out with
    | none => exact .inl hm
    | some r =>
      rw [State.addCall_sent, Option.toList_some, List.flatMap_singleton, hact.votedItems,
        List.append_nil] at hm
      exact .inl hm
  | client c' ca cl' out h1 h2 hact =>
    rw [State.addCall_sent] at hm
    rcases List.mem_append.mp hm with hold | hnew
    · exact .inl hold
    · cases hact with
      | pull | get | votePop => simp [Rpc.votedItems] at hnew
      | voteSend request stub stubs hpc =>
        simp only [Option.toList_some, List.flatMap_singleton, Rpc.votedItems, List.map_cons,
          List.map_nil, List.mem_singleton, Prod.mk.injEq] at hnew
        obtain ⟨rfl, rfl⟩ := hnew
        exact .inr (.inr ⟨h1, h2, stub, stubs, hpc, by simp [madeCall, ClientAction.thread]⟩)
  | handle | retOrphan | failOrphan => exact .inl hm
  | ret i call θ _ _ _ _ hr => cases hr <;> exact .inl hm
  | fail i call θ _ _ _ hr => cases hr <;> exact .inl hm
  | foreign target rpc => exact .inr (.inl ⟨target, rpc, rfl⟩)

/-- Every vote that was sent has arrived at its target servers or is on its way. -/
theorem voteReaches_of_reachable (hok : ∀ σ a, ok σ a → delivering cfg σ a)
    (hS : 1 ≤ cfg.serverCount) (h : Reachable cfg crypto ok σ)
    (hlt : (σ.server cfg.serverCount).packed.length < 2 ^ 64) {c : ℕ} {item : Flex G}
    (hm : (c, item) ∈ σ.sent) :
    ∃ b, item = toBytes (votedBlock crypto cfg.clientCount c b) ∧
      ∀ t ∈ b.getServerId cfg.serverCount, VoteReaches cfg σ c b.header.id item t := by
  revert hlt c item
  refine h.invariant (fun σ => (σ.server cfg.serverCount).packed.length < 2 ^ 64 →
    ∀ {c : ℕ} {item : Flex G}, (c, item) ∈ σ.sent →
      ∃ b, item = toBytes (votedBlock crypto cfg.clientCount c b) ∧
        ∀ t ∈ b.getServerId cfg.serverCount, VoteReaches cfg σ c b.header.id item t)
    (fun _ _ _ hm => by cases hm) fun σ a σ' hr ha ih hs hlt c item hm => ?_
  have hr' : Reachable cfg crypto ok σ' := .next a hr ha hs
  have hguard := reliable_of_delivering (hok σ a ha)
  have hst := steps_of_step hs
  have hlt₀ := lt_of_le_of_lt (hst.later cfg.serverCount).packed.length_le hlt
  rcases hst.sent_cases hm with hm | ⟨target, rpc, rfl⟩ | ⟨h1, h2, stub, stubs, hpc, hcall⟩
  · obtain ⟨b, rfl, hb⟩ := ih hlt₀ hm
    refine ⟨b, rfl, fun t ht => ?_⟩
    obtain ⟨ht1, ht2⟩ := Block.getServerId_range hS ht
    exact (hb t ht).step hr hok hst (ne_fail_of_reliable hguard)
      (hr'.not_broken fun σ a ha => succeeds_of_reliable (reliable_of_delivering (hok σ a ha)))
      ht ht1 ht2
      (stored_count_le_one hr' hlt ht1 ht2 _)
  · cases hguard
  · have hvote := ((arrivalFlow_clean hok hr).client c).vote
    rw [hpc] at hvote
    obtain ⟨b, -, rfl⟩ := hvote
    obtain ⟨hs1, hs2⟩ := stubServer_range hS c stub
    exact ⟨b, rfl, fun t _ => .inr (.inr ⟨_, hcall, hs1, hs2, _, none, rfl,
      .inl (List.mem_singleton_self _)⟩)⟩

/-! ## At rest -/

def Rpc.carriesVotes : Rpc G → Bool
  | .voteBlocks _ _ _ => true
  | .relayVote _ => true
  | _ => false

/-- Nothing is queued on a channel of the server, and its relay thread has no request. -/
def Server.drainedOut (srv : Server G) (ch : Chan) : Bool :=
  (match ch with
    | .vote => srv.relayVotes.toList.all fun tq => tq.2.isEmpty
    | .block => srv.relayBlocks.toList.all fun tq => tq.2.isEmpty
    | .commit => srv.bcastCommitBlocks.toList.all fun tq => tq.2.isEmpty) &&
  match srv.send ch with
  | .drain _ items _ _ => items.isEmpty
  | _ => true

/-- All `relay_votes` queues are empty and no `VoteBlocks` or `RelayVote` call is in progress. -/
def votesAtRest (cfg : Config) (σ : State G) : Bool :=
  ((List.range' 1 cfg.serverCount).all fun s => (σ.server s).drainedOut .vote) &&
    σ.calls.all fun call => !call.rpc.carriesVotes

theorem getD_eq_nil_of_all {α : Type} {m : ExtTreeMap ℕ (List α)}
    (h : (m.toList.all fun tq => tq.2.isEmpty) = true) (t : ℕ) : (m[t]?).getD [] = [] := by
  cases hq : m[t]? with
  | none => rfl
  | some q =>
    rw [List.all_eq_true] at h
    exact List.isEmpty_iff.mp (h (t, q) (ExtTreeMap.mem_toList_iff_getElem?_eq_some.mpr hq))

theorem backlog_eq_nil_of_drainedOut {srv : Server G} {ch : Chan} (h : srv.drainedOut ch = true)
    (t : ℕ) : srv.backlog ch t = [] := by
  simp only [Server.drainedOut, Bool.and_eq_true] at h
  obtain ⟨hq, hpc⟩ := h
  have hqueued : srv.queued ch t = [] := by
    cases ch with
    | vote | block | commit => simp [queued, getD_eq_nil_of_all hq t, pointerKeys]
  have hdrained : (srv.send ch).drained ch t = [] := by
    revert hpc
    cases srv.send ch with
    | drain t' items ids rest =>
      intro hitems
      simp [SendPc.drained, List.isEmpty_iff.mp hitems]
    | _ => exact fun _ => rfl
  rw [backlog, hqueued, hdrained, List.append_nil]

theorem not_inTransit_of_drainedOut {ch : Chan}
    (hq : ∀ s, 1 ≤ s → s ≤ cfg.serverCount → (σ.server s).drainedOut ch = true)
    (hc : ∀ call ∈ σ.calls, call.rpc.carried ch = []) (k : ℕ × ℕ) (t : ℕ) :
    ¬ InTransit cfg σ ch k t := by
  rintro (⟨s, h1, h2, hk⟩ | hk)
  · rw [backlog_eq_nil_of_drainedOut (hq s h1 h2) t] at hk
    cases hk
  · obtain ⟨call, hm, -, hk⟩ := mem_mail.mp hk
    rw [hc call hm] at hk
    cases hk

/-- Every vote that a client sent for a block is recorded in the block on each target server, or
that server has moved the block on. -/
def VotesRecorded (cfg : Config) (crypto : Crypto G D) (σ : State G) : Prop :=
  ∀ c item, (c, item) ∈ σ.sent →
    ∃ b, item = toBytes (votedBlock crypto cfg.clientCount c b) ∧
      ∀ t ∈ b.getServerId cfg.serverCount,
        (∃ p b' v, (σ.server t).pendingBlks[b.header.id]? = some p ∧
          (σ.server t).heap[p]? = some b' ∧ b'.votes[c]? = some v ∧
          CastBy crypto cfg.clientCount c b.header.id v) ∨
        b.header.id ∈ (σ.server t).mergingIds ∨ b.header.id ∈ (σ.server t).committedBlks

/-- No vote is lost in runs that meet the condition. -/
theorem votesRecorded_of_delivering (cfg : Config) (crypto : Crypto G D) (σ : State G)
    (hS : 1 ≤ cfg.serverCount) (h : Reachable cfg crypto (delivering cfg) σ)
    (hlt : (σ.server cfg.serverCount).packed.length < 2 ^ 64) (hrest : votesAtRest cfg σ = true) :
    VotesRecorded cfg crypto σ := by
  have hreliable : ∀ (σ : State G) a, delivering cfg σ a → reliable cfg σ a :=
    fun _ _ => reliable_of_delivering
  simp only [votesAtRest, Bool.and_eq_true, List.all_eq_true, List.mem_range'_1,
    Bool.not_eq_true'] at hrest
  obtain ⟨hq, hc⟩ := hrest
  have hcarried : ∀ call ∈ σ.calls, call.rpc.carried .vote = [] := by
    intro call hm
    have := hc call hm
    revert this
    cases call.rpc <;> simp [Rpc.carriesVotes, Rpc.carried]
  have htransit : ∀ k t, ¬ InTransit cfg σ .vote k t :=
    not_inTransit_of_drainedOut (fun s h1 h2 => hq s ⟨h1, by omega⟩) hcarried
  intro c item hm
  obtain ⟨b, rfl, hb⟩ := voteReaches_of_reachable (fun _ _ h => h) hS h hlt hm
  refine ⟨b, rfl, fun t ht => ?_⟩
  have hset : (σ.server t).Settled (fun b => c ∈ b.votes) b.header.id := by
    rcases hb t ht with hset | htr | ⟨call, hcall, _, _, items, current, hrpc, -⟩
    · exact hset
    · exact absurd htr (htransit _ _)
    · have := hc call hcall
      rw [hrpc] at this
      cases this
  rcases h.place_of_stored hreliable hset.1 with hp | hmoved
  · left
    obtain ⟨p, hp⟩ := Option.isSome_iff_exists.mp (ExtTreeMap.mem_iff_isSome_getElem?.mp hp)
    obtain ⟨b', hb', hk⟩ := hset.2 p hp
    obtain ⟨v, hv⟩ := Option.isSome_iff_exists.mp (ExtTreeMap.mem_iff_isSome_getElem?.mp hk)
    obtain ⟨b₀, hb₀, hid⟩ := idAt_eq_some.mp ((h.wf t).pending _ _ hp)
    rw [hb'] at hb₀
    cases hb₀
    have hvotes := ((honestFlow_clean (fun _ _ h => honest_of_reliable (reliable_of_delivering h))
      h).server t).heap b' (List.mem_of_getElem? hb')
    rw [← hid]
    exact ⟨p, b', v, by rw [hid]; exact hp, hb', hv, (hvotes c v hv).2.2⟩
  · exact .inr hmoved

/-- Client 1 votes in the round and both of its servers relay the vote. -/
theorem votesRecorded_round :
    ∃ σ, Reachable sampleConfig Crypto.symbolic (delivering sampleConfig) σ ∧
      votesAtRest sampleConfig σ = true ∧ σ.sent.length = 2 ∧
      2000000 ∈ (σ.server 1).pendingBlks ∧ 2000000 ∈ (σ.server 2).pendingBlks ∧
      VotesRecorded sampleConfig Crypto.symbolic σ := by
  obtain ⟨σ, hr, hσ⟩ := exists_reachable sampleConfig Crypto.symbolic (delivering sampleConfig)
    (Script.packBlock ++ [.server 2 .packInsert] ++ Script.relay 2 .block 1 ++ Script.sync ++
      Script.pull 1 100 ++ Script.vote 1 ++ Script.relay 1 .vote 1 ++ Script.relay 2 .vote 1)
    (fun σ => votesAtRest sampleConfig σ && σ.sent.length == 2 && (σ.server 2).packed.length == 1 &&
      (σ.server 1).pendingBlks.contains 2000000 && (σ.server 2).pendingBlks.contains 2000000)
    (by decide +kernel)
  simp only [Bool.and_eq_true, beq_iff_eq, ExtTreeMap.contains_iff_mem] at hσ
  obtain ⟨⟨⟨⟨hrest, hsent⟩, hlen⟩, h1⟩, h2⟩ := hσ
  refine ⟨σ, hr, hrest, hsent, h1, h2, votesRecorded_of_delivering _ _ σ (by decide) hr ?_ hrest⟩
  simp [sampleConfig, hlen]

/-! ## A sync signal that overtakes a block -/

namespace Script

/-- Client 1 finds the block on server 2 only, and votes. -/
def voteLate : List (Action Point) :=
  ([.client 1 (.pull []), .handle 0 100 [], .ret 0, .client 1 (.pull []),
    .handle 0 100 [(3000000, 0)], .handle 0 100 [], .ret 0, .client 1 (.pull [3000000]),
    .handle 0 100 [], .ret 0, .client 1 (.pull [3000000]), .handle 0 100 [], .ret 0] :
      List (Action Point)) ++ vote 1

/-- The block is packed while `send_relay_blocks` has passed server 1 and not reached server 2, so
its sync signal is given after the call to server 2. Both targets get the vote before server 1 gets
the block. -/
def late : List (Action Point) :=
  ([.server 3 (.sendStart .block), .server 3 (.sendGo .block)] : List (Action Point)) ++
    packLate ++ send 3 .block ++ syncBoth ++ voteLate ++
    ([.server 1 (.sendStart .vote)] : List (Action Point)) ++ send 1 .vote ++
    ([.server 1 (.sendGo .vote)] : List (Action Point)) ++
    ([.server 2 (.sendStart .vote)] : List (Action Point)) ++ send 2 .vote ++
    ([.server 2 (.sendGo .vote)] : List (Action Point)) ++
    ([.server 2 .mergePop, .server 2 (.mergeCommit 300), .server 2 .mergePush, .server 2 .mergePush,
      .server 2 .mergePush] : List (Action Point)) ++
    ([.server 2 (.sendStart .commit)] : List (Action Point)) ++ send 2 .commit ++ send 2 .commit ++
    ([.server 3 (.sendStart .block)] : List (Action Point)) ++ send 3 .block ++
    ([.server 3 (.sendGo .block)] : List (Action Point)) ++ syncBoth

end Script

/-- Server 1 gets the vote before the block, drops it, and holds the block without a vote. -/
theorem exists_lost_vote :
    ¬ ∀ σ, Reachable Script.lateConfig Crypto.symbolic (reliable Script.lateConfig) σ →
      votesAtRest Script.lateConfig σ = true → VotesRecorded Script.lateConfig Crypto.symbolic σ := by
  intro h
  obtain ⟨σ, hr, hσ⟩ := exists_reachable Script.lateConfig Crypto.symbolic
    (reliable Script.lateConfig) Script.late
    (fun σ => votesAtRest Script.lateConfig σ &&
      σ.sent.any (fun x => x.1 == 1 && wireKey .block x.2 == (3000000, 0)) &&
      (σ.server 1).pendingBlks[3000000]? == some 0 &&
      ((σ.server 1).heap[0]?).all (fun b => !b.votes.contains 1) &&
      !(σ.server 1).mergingIds.contains 3000000 && !(σ.server 1).committedBlks.contains 3000000)
    (by decide +kernel)
  simp only [Bool.and_eq_true, beq_iff_eq, List.any_eq_true, Bool.not_eq_true'] at hσ
  obtain ⟨⟨⟨⟨⟨hrest, ⟨c, item⟩, hm, hc, hkey⟩, hp⟩, hvotes⟩, hmerging⟩, hcommitted⟩ := hσ
  obtain ⟨b, rfl, hb⟩ := h σ hr hrest c item hm
  rw [wireKey_toBytes (by simp)] at hkey
  have hid : b.header.id = 3000000 := congrArg Prod.fst hkey
  have ht : 1 ∈ b.getServerId Script.lateConfig.serverCount := by
    rw [Block.mem_getServerId, hid]
    exact .inl (by decide)
  rcases hb 1 ht with ⟨p, b', v, hp', hb', hv, -⟩ | hin | hin
  · rw [hid, hp] at hp'
    cases hp'
    have hc' : c = 1 := hc
    rw [hb', Option.all_some, Bool.not_eq_true', ← Bool.not_eq_true, ExtTreeMap.contains_iff_mem,
      ExtTreeMap.mem_iff_isSome_getElem?, ← hc', hv] at hvotes
    exact hvotes rfl
  · rw [hid, ← List.contains_iff_mem, hmerging] at hin
    cases hin
  · rw [hid, ← ExtTreeMap.contains_iff_mem, hcommitted] at hin
    cases hin

end TomChain
