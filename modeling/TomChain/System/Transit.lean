import TomChain.System.Lifecycle

/-!
# Runs without failures

When no call fails, what a server has queued for a peer arrives: a key of the backlog moves into a
call, and a key in a call is handled (`InTransit.step`). What arrives is not undone, because no
server stores a block a second time (`Server.Settled.moves`).
-/

namespace TomChain

open Std (ExtTreeMap ExtTreeSet)
open Runs Server
open Flexbuffers (Flex fromBytes voteFromBytes)

variable {G D : Type} {cfg : Config} {crypto : Crypto G D} {σ σ' : State G} {a : Action G}
  {ok : State G → Action G → Bool}

/-- The handler has left the call with an exception, or its behaviour is undefined. -/
def Rpc.broken : Rpc G → Bool
  | .failed => true
  | .undefined => true
  | _ => false

/-- No call fails: none is lost, and no handler throws. -/
def succeeds (cfg : Config) (σ : State G) : Action G → Bool
  | .fail _ => false
  | .handle i now order =>
    (σ.calls[i]?).all fun call =>
      ((σ.server call.target).handle cfg call.target now order call.rpc).all fun r => !r.2.broken
  | _ => true

/-- No call fails, clients run `TcClient`, and `remove_dead_blocks` is not scheduled. -/
def reliable (cfg : Config) (σ : State G) : Action G → Bool
  | .foreign _ _ => false
  | .fail _ => false
  | .server _ (.reap _ _) => false
  | .handle i now order =>
    (σ.calls[i]?).all fun call =>
      ((σ.server call.target).handle cfg call.target now order call.rpc).all fun r => !r.2.broken
  | _ => true

theorem succeeds_of_reliable (h : reliable cfg σ a) : succeeds cfg σ a := by
  cases a with
  | fail => cases h
  | handle => exact h
  | _ => rfl

theorem honest_of_reliable (h : reliable cfg σ a) : honest σ a := by
  cases a with
  | foreign => cases h
  | _ => rfl

theorem ne_fail_of_reliable (h : reliable cfg σ a) (i : ℕ) : a ≠ .fail i := by
  rintro rfl
  cases h

/-! ## No call is broken -/

theorem Server.Acts.not_broken {s : ℕ} {srv srv' : Server G} {sa : ServerAction} {r : ℕ × Rpc G}
    (h : srv.Acts cfg crypto.merge s sa srv' (some r)) : r.2.broken = false := by
  cases h with
  | sendGo ch => cases ch <;> rfl
  | syncSend => rfl

theorem Client.Acts.not_broken {c : ℕ} {cl cl' : Client G} {ca : ClientAction} {r : ℕ × Rpc G}
    (h : cl.Acts cfg crypto c ca cl' (some r)) : r.2.broken = false := by
  cases h <;> rfl

theorem not_broken_of_isClientRequest {rpc : Rpc G} (h : rpc.isClientRequest = true) :
    rpc.broken = false := by
  cases rpc with
  | failed | undefined => cases h
  | _ => rfl

theorem Reachable.not_broken (hok : ∀ σ a, ok σ a → succeeds cfg σ a)
    (h : Reachable cfg crypto ok σ) : ∀ call ∈ σ.calls, call.rpc.broken = false := by
  refine h.invariant (fun σ => ∀ call ∈ σ.calls, call.rpc.broken = false) (by simp [State.init])
    fun σ a σ' _ ha hcalls hs => ?_
  intro call hm
  have hguard := hok σ a ha
  rcases (steps_of_step hs).call_cases hm with ⟨call₀, hm₀, -, hrpc⟩ | ⟨_, _, _, _, _, _, hact⟩ |
    ⟨_, _, _, _, _, _, hact⟩ | ⟨i, now, order, rpc, rfl, hi, -⟩ | ⟨-, hreq⟩
  · rw [← hrpc]
    exact hcalls call₀ hm₀
  · exact hact.not_broken
  · exact hact.not_broken
  · -- the guard speaks of the handler's result, so the step is taken apart once more
    simp only [step, hi] at hs
    obtain ⟨⟨srv', rpc'⟩, hh, rfl⟩ := Option.map_eq_some_iff.mp hs
    simp only [succeeds, hi, Option.all_some, hh, Bool.not_eq_true'] at hguard
    rcases List.mem_or_eq_of_mem_set hm with hm | he
    · exact hcalls call hm
    · rw [he]; exact hguard
  · exact not_broken_of_isClientRequest hreq

/-! ## Nothing is dead -/

theorem Server.Acts.deadBlock {s : ℕ} {srv srv' : Server G} {sa : ServerAction}
    {out : Option (ℕ × Rpc G)} (h : srv.Acts cfg crypto.merge s sa srv' out)
    (hsa : ∀ id now, sa ≠ .reap id now) : srv'.deadBlock = srv.deadBlock := by
  cases h with
  | sendPop ch t items ids rest srv'' item ids' _ hq => cases hq <;> rfl
  | reap id now => exact absurd rfl (hsa id now)
  | _ => rfl

theorem Server.Records.deadBlock {srv srv' : Server G} {id k : ℕ} {v : BlockVote G}
    (h : srv.Records cfg id k v srv') : srv'.deadBlock = srv.deadBlock := by
  cases h <;> rfl

theorem Server.Handles.deadBlock {s now : ℕ} {srv srv' : Server G} {rpc rpc' : Rpc G}
    (h : srv.Handles cfg s now rpc srv' rpc') : srv'.deadBlock = srv.deadBlock := by
  cases h with
  | relayVote item rest vote _ =>
    unfold relayVoteItem
    split
    · rfl
    · exact (records_recordVote ..).deadBlock
  | spBcastCommit item rest block _ =>
    rcases spBcastCommitItem_eq cfg srv now block with ⟨-, h⟩ | ⟨-, db, h⟩ <;> rw [h]
    rfl
  | pullItem id blockId p todo pbHdrs b _ hdrs hb hi =>
    rcases pullItem_eq hi with ⟨rfl, -⟩ | ⟨-, -, clients, rfl⟩ <;> rfl
  | record => exact (records_recordVote ..).deadBlock
  | voteBlocks id item rest block _ current _ hi =>
    obtain ⟨queues, rfl⟩ := voteBlocksItem_eq hi
    rfl
  | _ => rfl

theorem Resumes.deadBlock {response : Option (Rpc G)} {θ : Thread} (h : Resumes σ response θ σ')
    (s : ℕ) : (σ'.server s).deadBlock = (σ.server s).deadBlock := by
  cases h with
  | send s' ch srv' hr =>
    rw [State.setServer_server]
    split
    · rename_i he
      subst he
      rcases resumeSend_eq hr with ⟨_, _, _, -, rfl⟩ | ⟨_, _, _, -, rfl⟩ <;> rfl
    · rfl
  | pull | vote => rfl

theorem Reachable.deadBlock (hok : ∀ σ a, ok σ a → reliable cfg σ a)
    (h : Reachable cfg crypto ok σ) (s : ℕ) : (σ.server s).deadBlock = ∅ := by
  refine h.invariant (fun σ => (σ.server s).deadBlock = ∅) rfl fun σ a σ' _ ha hdead hs => ?_
  have hguard := hok σ a ha
  have hs := steps_of_step hs
  rw [← hdead]
  cases hs with
  | server s' sa srv' out _ _ hact =>
    rw [State.addCall_server, State.setServer_server]
    split
    · rename_i he
      subst he
      refine hact.deadBlock fun id now he => ?_
      subst he
      cases hguard
    · rfl
  | client => simp
  | handle i now order call srv' rpc' _ hh =>
    have : ((σ.setServer call.target srv').server s).deadBlock = (σ.server s).deadBlock := by
      rw [State.setServer_server]
      split
      · rename_i he
        subst he
        exact hh.deadBlock
      · rfl
    exact this
  | retOrphan | failOrphan => rfl
  | ret i call θ _ _ _ _ hr => exact hr.deadBlock s
  | fail i call θ _ _ _ hr => exact hr.deadBlock s
  | foreign => simp

/-- A block that was stored is pending, on its way to a commit, or committed. -/
theorem Reachable.place_of_stored (hok : ∀ σ a, ok σ a → reliable cfg σ a)
    (h : Reachable cfg crypto ok σ) {s id : ℕ} (hid : id ∈ (σ.server s).stored) :
    id ∈ (σ.server s).pendingBlks ∨ id ∈ (σ.server s).mergingIds ∨ id ∈ (σ.server s).committedBlks := by
  have hpos := ((h.life s) id).2 hid
  by_contra hne
  push Not at hne
  obtain ⟨h1, h2, h3⟩ := hne
  have hp : Stations.at1 (σ.server s).life.waiting id = 0 := Stations.at1_not_mem h1
  have hw : (σ.server s).life.working.count id = 0 := List.count_eq_zero.mpr h2
  have hf : (σ.server s).life.finished.count id = 0 :=
    List.count_eq_zero.mpr fun hc => h3 ((h.commitsOk s id).mpr hc)
  have hd : Stations.at1 (σ.server s).life.dropped id = 0 := by
    refine Stations.at1_not_mem fun hd => ?_
    have hd' : id ∈ (σ.server s).deadBlock := hd
    rw [h.deadBlock hok s] at hd'
    exact ExtTreeSet.not_mem_empty hd'
  unfold Stations.occ at hpos
  omega

/-! ## From a queue to the handler -/

/-- What becomes of a call in a step that fails no call: it stays, it has returned, or it is
handled. -/
theorem Steps.call_next (hs : Steps cfg crypto σ a σ') (hfail : ∀ i, a ≠ .fail i) {call : Call G}
    (hm : call ∈ σ.calls) :
    call ∈ σ'.calls ∨ call.rpc.finished = true ∨
      ∃ now rpc', { call with rpc := rpc' } ∈ σ'.calls ∧
        (σ.server call.target).Handles cfg call.target now call.rpc (σ'.server call.target) rpc' := by
  obtain ⟨j, hj⟩ := List.mem_iff_getElem?.mp hm
  have herase : ∀ {i : ℕ} {call' : Call G}, σ.calls[i]? = some call' → call'.rpc.finished = true →
      call ∈ σ.calls.eraseIdx i ∨ call.rpc.finished = true := by
    intro i call' hi hf
    by_cases he : j = i
    · subst he
      rw [hi] at hj
      cases hj
      exact .inr hf
    · exact .inl (List.mem_eraseIdx_iff_getElem?.mpr ⟨j, he, hj⟩)
  cases hs with
  | server | client | foreign => exact .inl (by simp [hm])
  | handle i now order call' srv' rpc' hi hh =>
    by_cases he : i = j
    · subst he
      rw [hi] at hj
      cases hj
      have hlt := (List.getElem?_eq_some_iff.mp hi).1
      refine .inr (.inr ⟨now, rpc', List.mem_of_getElem? (List.getElem?_set_self hlt), ?_⟩)
      simpa using hh
    · refine .inl (List.mem_of_getElem? (i := j) ?_)
      rw [List.getElem?_set_ne he, hj]
  | retOrphan i call' hi hf _ => exact (herase hi hf).imp_right .inl
  | ret i call' θ _ hi hf _ hr =>
    have hcalls : σ'.calls = σ.calls.eraseIdx i := by cases hr <;> rfl
    rw [hcalls]
    exact (herase hi hf).imp_right .inl
  | failOrphan i => exact absurd rfl (hfail i)
  | fail i => exact absurd rfl (hfail i)

/-- The key `k` is on its way to server `t`: in the backlog of a server or in a call. -/
def InTransit (cfg : Config) (σ : State G) (ch : Chan) (k : ℕ × ℕ) (t : ℕ) : Prop :=
  (∃ s, 1 ≤ s ∧ s ≤ cfg.serverCount ∧ k ∈ (σ.server s).backlog ch t) ∨ k ∈ mail σ ch t

theorem mem_mail {ch : Chan} {k : ℕ × ℕ} {t : ℕ} :
    k ∈ mail σ ch t ↔ ∃ call ∈ σ.calls, call.target = t ∧ k ∈ call.rpc.carried ch := by
  simp only [mail, List.mem_flatMap, Call.mail]
  refine exists_congr fun call => and_congr_right fun _ => ?_
  split <;> simp [*]

theorem Steps.backlog_next (hr : Reachable cfg crypto ok σ) (hs : Steps cfg crypto σ a σ') {s : ℕ}
    (h1 : 1 ≤ s) (h2 : s ≤ cfg.serverCount) {ch : Chan} {k : ℕ × ℕ} {t : ℕ}
    (hk : k ∈ (σ.server s).backlog ch t) : InTransit cfg σ' ch k t := by
  have hframe : ∀ σ' : State G, σ'.server s = σ.server s → InTransit cfg σ' ch k t := by
    intro σ' he
    exact .inl ⟨s, h1, h2, by rw [he]; exact hk⟩
  have hresume : ∀ {σ₁ : State G} {response : Option (Rpc G)} {θ : Thread},
      σ₁.server = σ.server → Resumes σ₁ response θ σ' → InTransit cfg σ' ch k t := by
    intro σ₁ response θ he hres
    cases hres with
    | send s' ch' srv' h =>
      by_cases hss : s = s'
      · subst hss
        rw [he] at h
        refine .inl ⟨s, h1, h2, ?_⟩
        rw [State.setServer_server, if_pos rfl, backlog_resumeSend (hr.wf s) h]
        exact hk
      · exact hframe _ (by simp [hss, he])
    | pull | vote => exact hframe _ (by simp [he])
  cases hs with
  | server s' sa srv' out _ _ hact =>
    by_cases hss : s = s'
    · subst hss
      have hmem : k ∈ outMail out ch t ++ srv'.backlog ch t := by
        rw [hact.backlog (hr.wf s) (hr.relayOk s).1]
        exact List.mem_append_left _ hk
      rcases List.mem_append.mp hmem with hout | hback
      · right
        rw [mail_addCall]
        exact List.mem_append_right _ hout
      · exact .inl ⟨s, h1, h2, by simpa using hback⟩
    · exact hframe _ (by simp [hss])
  | client => exact hframe _ (by simp)
  | handle i now order call srv' rpc' _ hh =>
    by_cases hss : s = call.target
    · subst hss
      exact .inl ⟨call.target, h1, h2, by simpa using (hh.backlog_sublist (hr.wf _) ch t).subset hk⟩
    · exact hframe _ (by simp [hss])
  | retOrphan | failOrphan => exact hframe _ rfl
  | ret i call θ _ _ _ _ hres => exact hresume (by rfl) hres
  | fail i call θ _ _ _ hres => exact hresume (by rfl) hres
  | foreign => exact hframe _ (by simp)

theorem exists_request_of_carried {ch : Chan} {rpc : Rpc G} {k : ℕ × ℕ} (h : k ∈ rpc.carried ch) :
    ∃ items, rpc = request ch items ∧ k ∈ items.map (wireKey ch) := by
  cases ch <;> cases rpc <;> first | exact absurd h List.not_mem_nil | exact ⟨_, rfl, h⟩

/-- A handler of a relay request that does not break goes on to the rest of the request. -/
theorem Server.Handles.request_next {s now : ℕ} {srv srv' : Server G} {ch : Chan}
    {items : List (Flex G)} {rpc' : Rpc G} (h : srv.Handles cfg s now (request ch items) srv' rpc')
    (hb : rpc'.broken = false) : ∃ item rest, items = item :: rest ∧ rpc' = request ch rest := by
  cases ch with
  | vote =>
    cases h with
    | relayVoteFailed => cases hb
    | relayVote item rest => exact ⟨item, rest, rfl, rfl⟩
  | block =>
    cases h with
    | relayBlockFailed => cases hb
    | relayBlock item rest => exact ⟨item, rest, rfl, rfl⟩
  | commit =>
    cases h with
    | spBcastCommitFailed => cases hb
    | spBcastCommit item rest => exact ⟨item, rest, rfl, rfl⟩

/-- What is on its way to `t` stays on its way, or the step hands it to `t`. -/
theorem InTransit.step (hr : Reachable cfg crypto ok σ) (hs : Steps cfg crypto σ a σ')
    (hfail : ∀ i, a ≠ .fail i) (hbroken : ∀ call ∈ σ'.calls, call.rpc.broken = false) {ch : Chan}
    {k : ℕ × ℕ} {t : ℕ} (h : InTransit cfg σ ch k t) :
    InTransit cfg σ' ch k t ∨ ∃ now item rest, wireKey ch item = k ∧
      (∃ call ∈ σ.calls, call.rpc = request ch (item :: rest)) ∧
      (σ.server t).Handles cfg t now (request ch (item :: rest)) (σ'.server t) (request ch rest) := by
  rcases h with ⟨s, h1, h2, hback⟩ | hmail
  · exact .inl (hs.backlog_next hr h1 h2 hback)
  · obtain ⟨call, hm, rfl, hk⟩ := mem_mail.mp hmail
    rcases hs.call_next hfail hm with hm' | hf | ⟨now, rpc', hm', hh⟩
    · exact .inl (.inr (mem_mail.mpr ⟨call, hm', rfl, hk⟩))
    · rw [finished_carried hf] at hk
      cases hk
    · obtain ⟨items, hrpc, hk'⟩ := exists_request_of_carried hk
      rw [hrpc] at hh
      obtain ⟨item, rest, rfl, rfl⟩ := hh.request_next (hbroken _ hm')
      rw [List.map_cons, List.mem_cons] at hk'
      rcases hk' with rfl | hk'
      · exact .inr ⟨now, item, rest, rfl, ⟨call, hm, hrpc⟩, hh⟩
      · refine .inl (.inr (mem_mail.mpr ⟨_, hm', rfl, ?_⟩))
        rw [carried_request]
        exact hk'

/-! ## What has arrived -/

namespace Server

variable {s : ℕ} {srv srv' : Server G} {P : Block G → Prop} {id : ℕ}

/-- Block `id` was stored, and as long as it is pending it satisfies `P`. -/
def Settled (srv : Server G) (P : Block G → Prop) (id : ℕ) : Prop :=
  id ∈ srv.stored ∧ ∀ p, srv.pendingBlks[id]? = some p → ∃ b, srv.heap[p]? = some b ∧ P b

theorem Records.pending {k id' p : ℕ} {v : BlockVote G} (h : srv.Records cfg id' k v srv')
    (hp : srv'.pendingBlks[id]? = some p) : srv.pendingBlks[id]? = some p := by
  cases h with
  | absent | dangling | fewer => exact hp
  | enough =>
    rw [ExtTreeMap.getElem?_erase] at hp
    split at hp
    · cases hp
    · exact hp

/-- A move brings an entry into `pending_blks` only by storing it. -/
theorem Moves.pending (h : srv.Moves cfg crypto.merge s srv') {p : ℕ}
    (hp : srv'.pendingBlks[id]? = some p) :
    srv.pendingBlks[id]? = some p ∨ srv'.stored = srv.stored ++ [id] := by
  have hstore : ∀ {id' p' : ℕ}, (srv.pendingBlks.insert id' p')[id]? = some p →
      srv.pendingBlks[id]? = some p ∨ srv.stored ++ [id'] = srv.stored ++ [id] := by
    intro id' p' hp
    rw [ExtTreeMap.getElem?_insert] at hp
    split at hp
    · rename_i he
      rw [Nat.compare_eq_eq.mp he]
      exact .inr rfl
    · exact .inl hp
  have herase : ∀ {id' : ℕ}, (srv.pendingBlks.erase id')[id]? = some p →
      srv.pendingBlks[id]? = some p := by
    intro id' hp
    rw [ExtTreeMap.getElem?_erase] at hp
    split at hp
    · cases hp
    · exact hp
  cases h with
  | act a out h =>
    cases h with
    | packInsert i p' id' ids _ => exact hstore hp
    | sendPop ch t items ids rest srv'' item ids' _ hq => cases hq <;> exact .inl hp
    | reap id' now =>
      rcases reap_eq cfg srv id' now with h | ⟨-, h⟩
      · rw [h] at hp; exact .inl hp
      · rw [h] at hp; exact .inl (herase hp)
    | _ => exact .inl hp
  | handle now rpc rpc' h =>
    cases h with
    | relayVote item rest vote _ =>
      unfold relayVoteItem at hp
      split at hp
      · exact .inl hp
      · exact .inl ((records_recordVote ..).pending hp)
    | relayBlock item rest block _ => exact hstore hp
    | spBcastCommit item rest block _ =>
      rcases spBcastCommitItem_eq cfg srv now block with ⟨-, h⟩ | ⟨-, db, h⟩
      · rw [h] at hp; exact .inl hp
      · rw [h] at hp; exact .inl (herase hp)
    | pullItem id' blockId p' todo pbHdrs b _ hdrs hb hi =>
      rcases pullItem_eq hi with ⟨rfl, -⟩ | ⟨-, -, clients, rfl⟩ <;> exact .inl hp
    | record => exact .inl ((records_recordVote ..).pending hp)
    | voteBlocks id' item rest block _ current _ hi =>
      obtain ⟨queues, rfl⟩ := voteBlocksItem_eq hi
      exact .inl hp
    | _ => exact .inl hp
  | resume ch h =>
    rcases resumeSend_eq h with ⟨_, _, _, -, rfl⟩ | ⟨_, _, _, -, rfl⟩ <;> exact .inl hp

/-- What has arrived stays, as long as the block is not stored again. -/
theorem Settled.moves (hP : ∀ b b', b.Grows b' → P b → P b') (h : srv.Settled P id)
    (hm : srv.Moves cfg crypto.merge s srv') (hone : srv'.stored.count id ≤ 1) : srv'.Settled P id := by
  refine ⟨hm.later.stored.subset h.1, fun p hp => ?_⟩
  rcases hm.pending hp with hp | hst
  · obtain ⟨b, hb, hPb⟩ := h.2 p hp
    obtain ⟨b', hb', hg⟩ := hm.later.heap p b hb
    exact ⟨b', hb', hP b b' hg hPb⟩
  · have hpos := List.count_pos_iff.mpr h.1
    rw [hst, List.count_append, List.count_singleton_self] at hone
    omega

end Server

theorem Steps.settled {P : Block G → Prop} (hP : ∀ b b', b.Grows b' → P b → P b')
    (hs : Steps cfg crypto σ a σ') {t id : ℕ} (hone : (σ'.server t).stored.count id ≤ 1)
    (h : (σ.server t).Settled P id) : (σ'.server t).Settled P id := by
  rcases hs.moves t with he | hm
  · rw [he]; exact h
  · exact h.moves hP hm hone

end TomChain
