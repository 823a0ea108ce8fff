import TomChain.System.Ledger
import TomChain.System.Pulls
import TomChain.System.Quorum
import TomChain.System.Winding

/-!
# All or nothing

When the system rests and nothing was lost on the way, no block is in between: a packed block is
committed on every server, or it is pending on every server. Which of the two it is depends on the
clients alone, namely on whether all of them have sent their vote.
-/

namespace TomChain

open Std (ExtTreeMap)
open Runs Server
open Flexbuffers (Flex toBytes fromBytes)

variable {G D : Type} {cfg : Config} {crypto : Crypto G D} {σ σ' : State G} {a : Action G}
  {ok : State G → Action G → Bool}

/-! ## Votes that were sent -/

def VoteSent (σ : State G) (c id : ℕ) : Prop := ∃ item, (c, item) ∈ σ.sent ∧ blockId item = id

theorem Steps.sent (hs : Steps cfg crypto σ a σ') : σ.sent <+: σ'.sent := by
  cases hs with
  | ret i call θ _ _ _ _ hr | fail i call θ _ _ _ hr => cases hr <;> exact List.prefix_rfl
  | server | client | foreign => simp
  | handle | retOrphan | failOrphan => exact List.prefix_rfl

theorem VoteSent.steps {c id : ℕ} (hs : Steps cfg crypto σ a σ') (h : VoteSent σ c id) :
    VoteSent σ' c id := by
  obtain ⟨item, hm, hid⟩ := h
  exact ⟨item, hs.sent.subset hm, hid⟩

theorem Server.Handles.votedItems {s now : ℕ} {srv srv' : Server G} {rpc rpc' : Rpc G}
    (h : srv.Handles cfg s now rpc srv' rpc') : ∀ x ∈ rpc'.votedItems, x ∈ rpc.votedItems := by
  cases h with
  | voteBlocks => exact fun x hx => List.mem_cons_of_mem _ hx
  | record => exact fun x hx => hx
  | _ => exact fun x hx => by cases hx

/-- What the requests hold was sent, and so was what the servers took up. -/
structure SentOk (σ : State G) : Prop where
  calls : ∀ call ∈ σ.calls, ∀ x ∈ call.rpc.votedItems, x ∈ σ.sent
  received : ∀ x ∈ σ.received, x ∈ σ.sent

theorem SentOk.step (h : SentOk σ) (hs : Steps cfg crypto σ a σ') : SentOk σ' := by
  have hold : ∀ x ∈ σ.sent, x ∈ σ'.sent := fun x hx => hs.sent.subset hx
  constructor
  · have hmade : ∀ {σ₁ : State G} {caller : Option Thread} {out : Option (ℕ × Rpc G)},
        σ₁.calls = σ.calls → σ₁.sent = σ.sent → ∀ call ∈ (σ₁.addCall caller out).calls,
          ∀ x ∈ call.rpc.votedItems, x ∈ (σ₁.addCall caller out).sent := by
      intro σ₁ caller out hcalls hsent call hm x hx
      rw [State.addCall_sent, hsent]
      rcases State.mem_addCall hm with hm | ⟨r, rfl, rfl⟩
      · rw [hcalls] at hm
        exact List.mem_append_left _ (h.calls call hm x hx)
      · exact List.mem_append_right _ (List.mem_flatMap.mpr ⟨r, List.mem_singleton_self r, hx⟩)
    intro call hm x hx
    cases hs with
    | server | client | foreign => exact hmade (by rfl) (by rfl) call hm x hx
    | handle i now order call₀ srv' rpc' hi hh =>
      rcases List.mem_or_eq_of_mem_set hm with hm | rfl
      · exact h.calls call hm x hx
      · exact h.calls call₀ (List.mem_of_getElem? hi) x (hh.votedItems x hx)
    | retOrphan i | failOrphan i => exact h.calls call (List.mem_of_mem_eraseIdx hm) x hx
    | ret i call₀ θ _ _ _ _ hr =>
      rw [hr.calls] at hm
      exact hold x (h.calls call (List.mem_of_mem_eraseIdx hm) x hx)
    | fail i call₀ θ _ hi _ hr =>
      rw [hr.calls] at hm
      rcases List.mem_or_eq_of_mem_set hm with hm | rfl
      · exact hold x (h.calls call hm x hx)
      · exact hold x (h.calls call₀ (List.mem_of_getElem? hi) x hx)
  · intro x hx
    rcases hs.received_cases with he | ⟨call, hm, id, item, rest, hrpc, he⟩
    · rw [he] at hx
      exact hold x (h.received x hx)
    · rw [he] at hx
      rcases List.mem_append.mp hx with hx | hx
      · exact hold x (h.received x hx)
      · rw [List.mem_singleton.mp hx]
        refine hold _ (h.calls call hm _ ?_)
        rw [hrpc]
        exact List.mem_cons_self ..

theorem Reachable.sentOk (h : Reachable cfg crypto ok σ) : SentOk σ :=
  h.invariant SentOk ⟨fun call hm => (by cases hm), fun x hx => (by cases hx)⟩
    fun _ _ _ _ _ hok hs => hok.step (steps_of_step hs)

theorem voteSent_of_received (h : Reachable cfg crypto ok σ) {c id : ℕ} (hr : Received σ c id) :
    VoteSent σ c id := by
  obtain ⟨item, block, hm, hd, rfl⟩ := hr
  exact ⟨item, h.sentOk.received _ hm, by rw [blockId, wireKey_of_fromBytes (by simp) hd]⟩

/-- A committed block has the votes of all clients. -/
theorem voteSent_of_committed (h : Reachable cfg crypto honest σ)
    (hlt : (σ.server cfg.serverCount).packed.length < 2 ^ 64) {t id : ℕ} (h1 : 1 ≤ t)
    (h2 : t ≤ cfg.serverCount) (hid : id ∈ (σ.server t).committedBlks) {c : ℕ} (hc1 : 1 ≤ c)
    (hc2 : c ≤ cfg.clientCount) : VoteSent σ c id := by
  have hrun := Reaches.ledger .refl h hlt
  rw [ledgerOf_init] at hrun
  obtain ⟨p, hp⟩ := Option.isSome_iff_exists.mp (ExtTreeMap.mem_iff_isSome_getElem?.mp hid)
  obtain ⟨b, hb, -⟩ := idAt_eq_some.mp ((h.wf t).committed id p hp)
  have hm : (t, id, b.content) ∈ (ledgerOf cfg σ).commits := ⟨h1, h2, p, b, hp, hb, rfl⟩
  exact voteSent_of_received h ((hrun.ok Ledger.ok_empty).unanimous t id _ hm c ⟨hc1, hc2⟩)

/-! ## What is at rest has arrived -/

/-- A packed block has arrived everywhere. -/
theorem allStored_of_resting (h : Reachable cfg crypto (delivering cfg) σ) (hrest : Resting cfg σ)
    (hS : 1 ≤ cfg.serverCount) {id : ℕ} (hid : id ∈ (σ.server cfg.serverCount).packedIds) :
    AllStored cfg σ id := by
  intro t h1 h2
  have hq := hrest.servers cfg.serverCount hS le_rfl
  have hpipe : pipe cfg σ t id = packedCount cfg σ id := by
    refine pipe_eq (fun σ a t ha => lostMail_eq_nil ?_ t) h h1 h2 id
    have := syncsDelivered_of_delivering ha
    simp only [syncsDelivered, Bool.and_eq_true, Bool.not_eq_true'] at this
    exact this.1
  have hheld : (σ.server cfg.serverCount).pack.held cfg.serverCount t id = 0 := by
    cases hpc : (σ.server cfg.serverCount).pack with
    | push i p id' peers ids => exact absurd hpc (hq.pack _ _ _ _ _)
    | _ => rfl
  have hmail : mail σ .block t = [] := by rw [mail, hrest.calls, List.flatMap_nil]
  have hpos : 0 < packedCount cfg σ id := List.count_pos_iff.mpr hid
  rw [pipe, Server.source, hheld, backlog_eq_nil_of_drainedOut (hq.queues .block), hmail] at hpipe
  simp only [List.count_nil] at hpipe
  exact List.count_pos_iff.mp (by omega)

/-- A block that is still to be sent to a peer has no votes: votes are on blocks that are stored
everywhere, and no block is stored twice. -/
theorem relaysLight_of_delivering (h : Reachable cfg crypto (delivering cfg) σ)
    (hlt : (σ.server cfg.serverCount).packed.length < 2 ^ 64) (hN : 1 ≤ cfg.clientCount)
    (a : Action G) : relaysLight cfg σ a = true := by
  unfold relaysLight
  split
  swap
  · rfl
  rename_i s
  unfold popsLight
  split
  swap
  · rfl
  rename_i t items ids rest hpc
  cases hq : (σ.server s).relayBlocks[t]? with
  | none => rfl
  | some q =>
    cases q with
    | nil => rfl
    | cons p q =>
      cases hb : (σ.server s).heap[p]? with
      | none => simp [hb]
      | some b =>
        simp only [Option.bind_some, List.head?_cons, Option.all_some, hb, decide_eq_true_eq]
        by_contra hn
        obtain ⟨hqueues, htraced⟩ := h.relayOk s
        have hkey : (b.header.id, 0) ∈ (σ.server s).backlog .block t := by
          refine List.mem_append_right _ ?_
          simp [queued, pointerKeys, hq, idAt, hb]
        have hid := htraced.backlog t _ hkey
        have hs : s = cfg.serverCount := h.packer_of_packed hid
        subst hs
        obtain ⟨ht1, ht2, -⟩ := mem_peerIds.mp ((hqueues.blocks t).mp
          (ExtTreeMap.mem_iff_isSome_getElem?.mpr (by rw [hq]; rfl)))
        have hvote : ∃ k, k ∈ b.votes := by
          by_contra hne
          push Not at hne
          have hempty : b.votes.size = 0 := by
            rw [← ExtTreeMap.length_keys, List.eq_nil_iff_forall_not_mem.mpr fun k hk =>
              hne k (ExtTreeMap.mem_keys.mp hk)]
            rfl
          omega
        have hstored := ((arrivalFlow_clean (fun _ _ h => h) h).server _).heap b
          (List.mem_of_getElem? hb) hvote t ht1 ht2
        have hle := pipe_le h ht1 ht2 b.header.id
        have hone : packedCount cfg σ b.header.id ≤ 1 :=
          List.nodup_iff_count_le_one.mp ((h.packOk _).nodup (by omega)) _
        have h1 := List.count_pos_iff.mpr hkey
        have h2 := List.count_pos_iff.mpr hstored
        rw [pipe, Server.source] at hle
        omega

theorem quorumOk_of_delivering (h : Reachable cfg crypto (delivering cfg) σ)
    (hlt : (σ.server cfg.serverCount).packed.length < 2 ^ 64) (hN : 1 ≤ cfg.clientCount) :
    QuorumOk cfg σ := by
  revert hlt
  refine h.invariant (fun σ => (σ.server cfg.serverCount).packed.length < 2 ^ 64 → QuorumOk cfg σ)
    (fun _ => quorumOk_init cfg) fun σ a σ' hr _ ih hs hlt => ?_
  have hst := steps_of_step hs
  have hlt₀ := lt_of_le_of_lt (hst.later cfg.serverCount).packed.length_le hlt
  exact (ih hlt₀).step hN hr (relaysLight_of_delivering hr hlt₀ hN a) hst

/-- At rest, a vote that was sent is recorded on every target server that holds the block. -/
theorem voted_of_resting (h : Reachable cfg crypto (delivering cfg) σ)
    (hlt : (σ.server cfg.serverCount).packed.length < 2 ^ 64) (hrest : Resting cfg σ)
    (hS : 1 ≤ cfg.serverCount) {c id t p : ℕ} {b : Block G} (hsent : VoteSent σ c id)
    (ht : t = id % cfg.serverCount + 1) (hp : (σ.server t).pendingBlks[id]? = some p)
    (hb : (σ.server t).heap[p]? = some b) : c ∈ b.votes := by
  obtain ⟨item, hm, hid⟩ := hsent
  obtain ⟨b₀, rfl, hreach⟩ := voteReaches_of_reachable (fun _ _ h => h) hS h hlt hm
  rw [blockId, wireKey_toBytes (by simp)] at hid
  have hid' : b₀.header.id = id := hid
  have htarget : t ∈ b₀.getServerId cfg.serverCount := by
    rw [Block.mem_getServerId, hid']
    exact .inl ht
  have hsettled : (σ.server t).Settled (fun b => c ∈ b.votes) b₀.header.id := by
    rcases hreach t htarget with hset | htr | ⟨call, hcall, -⟩
    · exact hset
    · refine absurd htr (not_inTransit_of_drainedOut (fun s h1 h2 => ?_) ?_ _ _)
      · exact (hrest.servers s h1 h2).queues .vote
      · simp [hrest.calls]
    · rw [hrest.calls] at hcall
      cases hcall
  rw [hid'] at hsettled
  obtain ⟨b', hb', hc⟩ := hsettled.2 p hp
  rw [hb] at hb'
  cases hb'
  exact hc

/-! ## Commits at rest -/

/-- What one server has committed, every server has committed. -/
theorem committed_everywhere (h : Reachable cfg crypto (delivering cfg) σ)
    (hlt : (σ.server cfg.serverCount).packed.length < 2 ^ 64) (hN : 1 ≤ cfg.clientCount)
    (hrest : Resting cfg σ) {s id : ℕ} (hid : id ∈ (σ.server s).committedBlks) {t : ℕ} (h1 : 1 ≤ t)
    (h2 : t ≤ cfg.serverCount) : id ∈ (σ.server t).committedBlks := by
  obtain ⟨u, hu1, hu2, hu⟩ := ((arrivalFlow_clean (fun _ _ h => h) h).server s).committed id hid
  obtain ⟨hstored, hreach⟩ := commitReaches_of_reachable (fun _ _ h => h) hN h hlt hu1 hu2 h1 h2 hu
  rcases h.place_of_stored (fun _ _ => reliable_of_delivering) hstored with hp | hm | hc
  · obtain ⟨p, hp⟩ := Option.isSome_iff_exists.mp (ExtTreeMap.mem_iff_isSome_getElem?.mp hp)
    rcases hreach with hset | ⟨p, peers, hpc, -⟩ | htr
    · obtain ⟨-, -, hfalse⟩ := hset.2 p hp
      cases hfalse
    · rw [(hrest.servers u hu1 hu2).merge] at hpc
      cases hpc
    · refine absurd htr (not_inTransit_of_drainedOut (fun s h1 h2 => ?_) ?_ _ _)
      · exact (hrest.servers s h1 h2).queues .commit
      · simp [hrest.calls]
  · have hq := hrest.servers t h1 h2
    rw [mergingIds, merging_idle hq.merge, hq.mergeQueue] at hm
    cases hm
  · exact hc

/-- A stored block that a server at rest does not hold as pending is committed. -/
theorem committed_of_not_pending (h : Reachable cfg crypto (delivering cfg) σ)
    (hrest : Resting cfg σ) {t id : ℕ} (h1 : 1 ≤ t) (h2 : t ≤ cfg.serverCount)
    (hst : id ∈ (σ.server t).stored) (hp : id ∉ (σ.server t).pendingBlks) :
    id ∈ (σ.server t).committedBlks := by
  rcases h.place_of_stored (fun _ _ => reliable_of_delivering) hst with hp' | hm | hc
  · exact absurd hp' hp
  · have hq := hrest.servers t h1 h2
    rw [mergingIds, merging_idle hq.merge, hq.mergeQueue] at hm
    cases hm
  · exact hc

/-- A block that all clients have voted on has left `pending_blks` on its first target server. -/
theorem not_pending_of_voted (h : Reachable cfg crypto (delivering cfg) σ)
    (hlt : (σ.server cfg.serverCount).packed.length < 2 ^ 64) (hN : 1 ≤ cfg.clientCount)
    (hS : 1 ≤ cfg.serverCount) (hrest : Resting cfg σ) {id : ℕ}
    (hall : ∀ c, 1 ≤ c → c ≤ cfg.clientCount → VoteSent σ c id) :
    id ∉ (σ.server (id % cfg.serverCount + 1)).pendingBlks := by
  intro hmem
  obtain ⟨p, hp⟩ := Option.isSome_iff_exists.mp (ExtTreeMap.mem_iff_isSome_getElem?.mp hmem)
  obtain ⟨b, hb, -⟩ := idAt_eq_some.mp ((h.wf _).pending id p hp)
  have hfew := ((quorumOk_of_delivering h hlt hN).moves _).pending (h.apart _) hp hb
  have hsub : List.range' 1 cfg.clientCount ⊆ b.votes.keys := by
    intro c hc
    rw [List.mem_range'_1] at hc
    exact ExtTreeMap.mem_keys.mpr
      (voted_of_resting h hlt hrest hS (hall c hc.1 (by omega)) rfl hp hb)
  have hle := (List.Nodup.subperm (List.nodup_range' 1) hsub).length_le
  rw [List.length_range', ExtTreeMap.length_keys] at hle
  omega

/-- At rest a packed block is committed on every server if all clients have voted on it, and pending on
every server otherwise. -/
theorem all_or_nothing (cfg : Config) (crypto : Crypto G D) (σ : State G) (hS : 1 ≤ cfg.serverCount)
    (hN : 1 ≤ cfg.clientCount) (h : Reachable cfg crypto (delivering cfg) σ)
    (hlt : (σ.server cfg.serverCount).packed.length < 2 ^ 64) (hrest : Resting cfg σ) (id : ℕ)
    (hid : id ∈ (σ.server cfg.serverCount).packedIds) :
    ((∀ c, 1 ≤ c → c ≤ cfg.clientCount → VoteSent σ c id) ∧
      ∀ t, 1 ≤ t → t ≤ cfg.serverCount →
        id ∈ (σ.server t).committedBlks ∧ id ∉ (σ.server t).pendingBlks) ∨
    ((∃ c, 1 ≤ c ∧ c ≤ cfg.clientCount ∧ ¬VoteSent σ c id) ∧
      ∀ t, 1 ≤ t → t ≤ cfg.serverCount →
        id ∈ (σ.server t).pendingBlks ∧ id ∉ (σ.server t).committedBlks) := by
  have hstored := allStored_of_resting h hrest hS hid
  by_cases hall : ∀ c, 1 ≤ c → c ≤ cfg.clientCount → VoteSent σ c id
  · left
    have hmod := Nat.mod_lt id hS
    have hfirst : id ∈ (σ.server (id % cfg.serverCount + 1)).committedBlks :=
      committed_of_not_pending h hrest (by omega) (by omega) (hstored _ (by omega) (by omega))
        (not_pending_of_voted h hlt hN hS hrest hall)
    refine ⟨hall, fun t h1 h2 => ?_⟩
    have hc := committed_everywhere h hlt hN hrest hfirst h1 h2
    exact ⟨hc, fun hp => not_committed_of_pending h hlt h1 h2 (.inl hp) hc⟩
  · right
    push Not at hall
    obtain ⟨c, h1, h2, hno⟩ := hall
    refine ⟨⟨c, h1, h2, hno⟩, fun t ht1 ht2 => ?_⟩
    have hc : id ∉ (σ.server t).committedBlks :=
      fun hc => hno (voteSent_of_committed h.toHonest hlt ht1 ht2 hc h1 h2)
    refine ⟨?_, hc⟩
    by_contra hp
    exact hc (committed_of_not_pending h hrest ht1 ht2 (hstored t ht1 ht2) hp)

/-- After the round the system winds up; all clients have voted on the block by then. -/
theorem all_or_nothing_round :
    ∃ σ, Reachable sampleConfig Crypto.symbolic (delivering sampleConfig) σ ∧ Resting sampleConfig σ ∧
      VoteSent σ 1 2000000 ∧ VoteSent σ 2 2000000 ∧ 2000000 ∈ (σ.server 1).committedBlks ∧
      2000000 ∈ (σ.server 2).committedBlks := by
  obtain ⟨σ₀, hr₀, hσ₀⟩ := exists_reachable sampleConfig Crypto.symbolic (delivering sampleConfig)
    Script.round (fun σ => (σ.server 2).packedIds == [2000000] && (σ.server 2).packed.length == 1 &&
      (σ.server 1).commits == [2000000] && ((σ.server 2).send .block).work 2 .block == 0)
    (by decide +kernel)
  simp only [Bool.and_eq_true, beq_iff_eq] at hσ₀
  obtain ⟨⟨⟨hids, hlen⟩, hcommits⟩, hwork⟩ := hσ₀
  obtain ⟨σ, -, hw, hrest⟩ := exists_wound (by decide) (by decide) (by decide) hr₀
    (.of_idle (SendPc.eq_idle_of_work hwork))
  have hr := hr₀.trans hw.reaches
  have hc : 2000000 ∈ (σ.server 1).committedBlks := by
    refine (Reachable.commitsOk hr 1 _).mpr ((hw.reaches.later 1).commits.subset ?_)
    rw [hcommits]
    exact List.mem_singleton_self _
  have hid : 2000000 ∈ (σ.server 2).packedIds := by
    rw [show (σ.server 2).packedIds = (σ₀.server 2).packedIds from hw.packedIds, hids]
    exact List.mem_singleton_self _
  have hlt : (σ.server 2).packed.length < 2 ^ 64 := hw.packed_lt (by simp [sampleConfig, hlen])
  rcases all_or_nothing sampleConfig Crypto.symbolic σ (by decide) (by decide) hr hlt hrest 2000000 hid
    with ⟨hv, hall⟩ | ⟨-, hnone⟩
  · exact ⟨σ, hr, hrest, hv 1 (by decide) (by decide), hv 2 (by decide) (by decide), hc,
      (hall 2 (by decide) (by decide)).1⟩
  · exact absurd hc (hnone 1 (by decide) (by decide)).2

end TomChain
