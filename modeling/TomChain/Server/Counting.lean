import TomChain.Lib.Tally
import TomChain.Server.Heap
import TomChain.Server.Serve

/-!
# Counting votes

`RelayVote` and `VoteBlocks` are two ways to the same count. A vote that is delivered is entered
into the tally of its block, and the block leaves for the merging thread when the tally is full.
What a sequence of deliveries does is a function of the set of votes in it (`Counted`).
-/

namespace TomChain

open Std (ExtTreeMap)
open Tally
open Flexbuffers (Flex fromBytes voteFromBytes)

variable {G : Type}

/-- A vote that arrives: an element of a `RelayVote` batch, or an element of a `VoteBlocks` request
with the id of the request. -/
inductive Delivery (G : Type) where
  | relayVote (vote : BlockVote G)
  | voteBlocks (id : ℕ) (block : Block G)

namespace Delivery

def pair : Delivery G → ℕ × ℕ
  | relayVote vote => (vote.blockId, vote.voterId)
  | voteBlocks id block => (block.header.id, id)

/-- The delivery at server `s` carries the vote of one of the clients, with that client's share for
the block. -/
def Fair (cfg : Config) (s : ℕ) (share : ℕ → ℕ → Option (BLSSigShare G)) (d : Delivery G) : Prop :=
  (1 ≤ d.pair.2 ∧ d.pair.2 ≤ cfg.clientCount) ∧
  match d with
  | relayVote vote => vote.sigShare = share vote.blockId vote.voterId
  | voteBlocks id block =>
    block.votes[id]? = some ⟨block.header.id, id, share block.header.id id⟩ ∧
      s ∈ block.getServerId cfg.serverCount

end Delivery

namespace Server

/-- A `VoteBlocks` element from the lookup of its vote to the recording. -/
def voteBlock (cfg : Config) (s : ℕ) (srv : Server G) (id : ℕ) (block : Block G) :
    Option (Server G) :=
  (srv.voteBlocksItem cfg s id block).map fun r =>
    match r.2 with
    | none => r.1
    | some (blockId, vote) => r.1.recordVote cfg blockId id vote

def deliver (cfg : Config) (s : ℕ) (srv : Server G) : Delivery G → Option (Server G)
  | .relayVote vote => some (srv.relayVoteItem cfg vote)
  | .voteBlocks id block => srv.voteBlock cfg s id block

def deliverAll (cfg : Config) (s : ℕ) (srv : Server G) : List (Delivery G) → Option (Server G)
  | [] => some srv
  | d :: ds => (srv.deliver cfg s d).bind fun srv' => srv'.deliverAll cfg s ds

variable {cfg : Config} {s : ℕ} {srv srv' : Server G}

/-! ## The requests -/

theorem deliverAll_relayVote (votes : List (BlockVote G)) (srv : Server G) :
    srv.deliverAll cfg s (votes.map .relayVote) = some (votes.foldl (relayVoteItem cfg) srv) := by
  induction votes generalizing srv with
  | nil => rfl
  | cons vote votes ih => exact ih _

/-- A `RelayVote` request delivers its votes. -/
theorem serves_relayVote_iff {items : List (Flex G)} {votes : List (BlockVote G)}
    (hdec : items.map voteFromBytes = votes.map some) :
    Serves cfg s srv (.relayVote items) srv' ↔
      srv.deliverAll cfg s (votes.map .relayVote) = some srv' := by
  rw [serves_relayVote hdec, deliverAll_relayVote, Option.some.injEq, eq_comm]

/-- A `VoteBlocks` request delivers its elements. -/
theorem serves_voteBlocks_iff {id : ℕ} {items : List (Flex G)} {blocks : List (Block G)}
    (hdec : items.map fromBytes = blocks.map some) :
    Serves cfg s srv (.voteBlocks id items none) srv' ↔
      srv.deliverAll cfg s (blocks.map (.voteBlocks id)) = some srv' := by
  induction items generalizing srv blocks with
  | nil =>
    cases blocks with
    | nil =>
      rw [serves_nil rfl fun _ _ => rfl, List.map_nil, deliverAll, Option.some.injEq, eq_comm]
    | cons block blocks => cases hdec
  | cons item items ih =>
    cases blocks with
    | nil => cases hdec
    | cons block blocks =>
      rw [List.map_cons, List.map_cons, List.cons.injEq] at hdec
      rw [List.map_cons, deliverAll, deliver, voteBlock]
      cases hv : srv.voteBlocksItem cfg s id block with
      | none =>
        have hstep : ∀ now order, srv.handle cfg s now order (.voteBlocks id (item :: items) none) =
            some (srv, .undefined) := fun now order => by simp only [handle, hdec.1, hv]
        rw [serves_step rfl hstep]
        simp [not_serves_undefined]
      | some r =>
        obtain ⟨srv₁, current⟩ := r
        have hstep : ∀ now order, srv.handle cfg s now order (.voteBlocks id (item :: items) none) =
            some (srv₁, .voteBlocks id items current) :=
          fun now order => by simp only [handle, hdec.1, hv]
        rw [serves_step rfl hstep]
        cases current with
        | none => exact ih hdec.2
        | some v =>
          rw [serves_step (by simp [Rpc.finished]) fun now order => rfl]
          exact ih hdec.2

/-! ## The count as a function of the votes -/

def votersOf (pairs : List (ℕ × ℕ)) (id : ℕ) : List ℕ :=
  (pairs.filter fun x => x.1 = id).map Prod.snd

theorem mem_votersOf {pairs : List (ℕ × ℕ)} {id k : ℕ} : k ∈ votersOf pairs id ↔ (id, k) ∈ pairs := by
  simp [votersOf]

theorem votersOf_concat (pairs : List (ℕ × ℕ)) (id k : ℕ) :
    votersOf (pairs ++ [(id, k)]) id = votersOf pairs id ++ [k] := by
  simp [votersOf]

theorem votersOf_concat_ne (pairs : List (ℕ × ℕ)) {id id' : ℕ} (h : id ≠ id') (k : ℕ) :
    votersOf (pairs ++ [(id, k)]) id' = votersOf pairs id' := by
  simp [votersOf, h]

variable {share : ℕ → ℕ → Option (BLSSigShare G)} {pairs pairs' : List (ℕ × ℕ)}

def counted (share : ℕ → ℕ → Option (BLSSigShare G)) (pairs : List (ℕ × ℕ)) (b : Block G) :
    Block G :=
  { b with
    votes := tally (fun k => ⟨b.header.id, k, share b.header.id k⟩) (votersOf pairs b.header.id)
      b.votes }

theorem mem_counted {b : Block G} {k : ℕ} :
    k ∈ (counted share pairs b).votes ↔ (b.header.id, k) ∈ pairs ∨ k ∈ b.votes := by
  rw [counted, mem_tally, mem_votersOf]

theorem counted_congr (h : ∀ x, x ∈ pairs ↔ x ∈ pairs') (b : Block G) :
    counted share pairs b = counted share pairs' b := by
  have hvoters : ∀ k, k ∈ votersOf pairs b.header.id ↔ k ∈ votersOf pairs' b.header.id := by
    intro k
    rw [mem_votersOf, mem_votersOf, h]
  simp only [counted, tally_congr hvoters]

theorem counted_concat (b : Block G) (k : ℕ) :
    counted share (pairs ++ [(b.header.id, k)]) b =
      (counted share pairs b).insertVote k ⟨b.header.id, k, share b.header.id k⟩ := by
  simp only [counted, Block.insertVote, votersOf_concat, tally_concat]

theorem counted_concat_ne {b : Block G} {id : ℕ} (h : id ≠ b.header.id) (k : ℕ) :
    counted share (pairs ++ [(id, k)]) b = counted share pairs b := by
  simp only [counted, votersOf_concat_ne pairs h]

theorem counted_concat_of_mem {b : Block G} {id k : ℕ}
    (h : id = b.header.id → k ∈ (counted share pairs b).votes) :
    counted share (pairs ++ [(id, k)]) b = counted share pairs b := by
  by_cases he : id = b.header.id
  · subst he
    simp only [counted, votersOf_concat]
    rw [tally_concat_of_mem (h rfl)]
  · exact counted_concat_ne he k

def Named (srv : Server G) : Prop :=
  ∀ (id p : ℕ), srv.pendingBlks[id]? = some p → srv.idAt p = some id

theorem WF.named (h : srv.WF) : srv.Named := h.pending

/-- The pending blocks whose votes are counted: all but the dead ones. -/
structure Open (srv : Server G) (id p : ℕ) (b : Block G) : Prop where
  pending : srv.pendingBlks[id]? = some p
  heap : srv.heap[p]? = some b
  alive : id ∉ srv.deadBlock

/-- With the votes of `pairs`, every client has voted on the block `id` at address `p`. -/
def Elected (n : ℕ) (srv : Server G) (pairs : List (ℕ × ℕ)) (id p : ℕ) : Prop :=
  ∃ b, srv.Open id p b ∧ ∀ k, 1 ≤ k → k ≤ n → k ∈ b.votes ∨ (id, k) ∈ pairs

/-- `srv'` is `srv` after the votes of `pairs` were counted. -/
structure Counted (n : ℕ) (share : ℕ → ℕ → Option (BLSSigShare G)) (srv : Server G)
    (pairs : List (ℕ × ℕ)) (srv' : Server G) : Prop where
  dead : srv'.deadBlock = srv.deadBlock
  relay : ∀ t, t ∈ srv'.relayVotes ↔ t ∈ srv.relayVotes
  heap : ∀ id p b, srv.Open id p b → srv'.heap[p]? = some (counted share pairs b)
  frame : ∀ p, (∀ id b, ¬ srv.Open id p b) → srv'.heap[p]? = srv.heap[p]?
  pending : ∀ id p, srv'.pendingBlks[id]? = some p ↔
    srv.pendingBlks[id]? = some p ∧ ¬ srv.Elected n pairs id p
  merge : ∃ q, srv'.pbMergeQueue = srv.pbMergeQueue ++ q ∧ q.Nodup ∧
    ∀ p, p ∈ q ↔ ∃ id, srv.Elected n pairs id p

/-- Every pending block waits for a vote, and only clients have voted on it. -/
def Waiting (n : ℕ) (srv : Server G) : Prop :=
  ∀ (id p : ℕ) (b : Block G), srv.pendingBlks[id]? = some p → srv.heap[p]? = some b →
    b.votes.size < n ∧ ∀ k ∈ b.votes, 1 ≤ k ∧ k ≤ n

theorem Open.id_eq (hnamed : srv.Named) {id p : ℕ} {b : Block G} (h : srv.Open id p b) :
    b.header.id = id := by
  obtain ⟨b', hb', hid⟩ := idAt_eq_some.mp (hnamed id p h.pending)
  rw [h.heap] at hb'
  cases hb'
  exact hid

theorem Open.eq_of_ptr (hnamed : srv.Named) {id id' p : ℕ} {b b' : Block G} (h : srv.Open id p b)
    (h' : srv.Open id' p b') : id = id' := by
  have hb := h'.heap
  rw [h.heap] at hb
  cases hb
  rw [← h.id_eq hnamed, ← h'.id_eq hnamed]

variable {n : ℕ}

theorem elected_iff {id p : ℕ} {b : Block G} (hnamed : srv.Named) (h : srv.Open id p b) :
    srv.Elected n pairs id p ↔ Full n (counted share pairs b).votes := by
  constructor
  · rintro ⟨b', h', hall⟩ k h1 h2
    have hb := h'.heap
    rw [h.heap] at hb
    cases hb
    rw [mem_counted, h.id_eq hnamed, or_comm]
    exact hall k h1 h2
  · intro hfull
    refine ⟨b, h, fun k h1 h2 => ?_⟩
    have := hfull k h1 h2
    rwa [mem_counted, h.id_eq hnamed, or_comm] at this

theorem Elected.mono {id p : ℕ} (h : srv.Elected n pairs id p) (hsub : pairs ⊆ pairs') :
    srv.Elected n pairs' id p := by
  obtain ⟨b, hb, hall⟩ := h
  exact ⟨b, hb, fun k h1 h2 => (hall k h1 h2).imp_right fun hm => hsub hm⟩

theorem elected_concat_ne {id id' p k : ℕ} (h : id ≠ id') :
    srv.Elected n (pairs ++ [(id, k)]) id' p ↔ srv.Elected n pairs id' p := by
  simp [Elected, Ne.symm h]

theorem not_elected_nil (hwait : srv.Waiting n) (id p : ℕ) : ¬ srv.Elected n [] id p := by
  rintro ⟨b, hb, hall⟩
  have hfull : Full n b.votes := fun k h1 h2 => by simpa using hall k h1 h2
  have hlt := (hwait id p b hb.pending hb.heap).1
  have hle := hfull.size_le
  omega

theorem Counted.refl (hwait : srv.Waiting n) : Counted n share srv [] srv where
  dead := rfl
  relay _ := .rfl
  heap id p b h := by simpa [counted, votersOf, tally] using h.heap
  frame _ _ := rfl
  pending id p := ⟨fun hp => ⟨hp, not_elected_nil hwait id p⟩, And.left⟩
  merge := by
    refine ⟨[], by simp, List.nodup_nil, fun p => ?_⟩
    simp only [List.not_mem_nil, false_iff]
    rintro ⟨id, he⟩
    exact not_elected_nil hwait id p he

/-- A vote that is already counted, or for a block that is not pending or dead. -/
theorem Counted.skip (hnamed : srv.Named) (h : Counted n share srv pairs srv') {id k : ℕ}
    (hk : ∀ p b, srv.Open id p b → k ∈ (counted share pairs b).votes) :
    Counted n share srv (pairs ++ [(id, k)]) srv' := by
  have helected : ∀ id' p, srv.Elected n (pairs ++ [(id, k)]) id' p ↔ srv.Elected n pairs id' p := by
    intro id' p
    by_cases he : id = id'
    · subst he
      constructor
      · rintro ⟨b, hb, hall⟩
        refine ⟨b, hb, fun j h1 h2 => ?_⟩
        rcases hall j h1 h2 with hm | hm
        · exact .inl hm
        · rcases List.mem_append.mp hm with hm | hm
          · exact .inr hm
          · cases List.mem_singleton.mp hm
            have := hk p b hb
            rwa [mem_counted, hb.id_eq hnamed, or_comm] at this
      · intro he
        exact he.mono (List.subset_append_left _ _)
    · exact elected_concat_ne he
  exact {
    dead := h.dead
    relay := h.relay
    heap := fun id' p b hb => by
      rw [h.heap id' p b hb, counted_concat_of_mem]
      rintro rfl
      refine hk p b ?_
      rwa [hb.id_eq hnamed]
    frame := h.frame
    pending := fun id' p => by rw [h.pending, helected]
    merge := by simpa only [helected] using h.merge }

theorem Open.exists_of_pending (hnamed : srv.Named) {id p : ℕ} (hp : srv.pendingBlks[id]? = some p)
    (hd : id ∉ srv.deadBlock) : ∃ b, srv.Open id p b := by
  obtain ⟨b, hb, -⟩ := idAt_eq_some.mp (hnamed id p hp)
  exact ⟨b, hp, hb, hd⟩

theorem Counted.modifyBlock (hnamed : srv.Named) (h : Counted n share srv pairs srv') {id p k : ℕ}
    {b : Block G} (hb : srv.Open id p b) :
    (∀ id' q b', srv.Open id' q b' →
      (srv'.modifyBlock p fun b => b.insertVote k ⟨id, k, share id k⟩).heap[q]? =
        some (counted share (pairs ++ [(id, k)]) b')) ∧
    (∀ q, (∀ id' b', ¬ srv.Open id' q b') →
      (srv'.modifyBlock p fun b => b.insertVote k ⟨id, k, share id k⟩).heap[q]? = srv.heap[q]?) := by
  constructor
  · intro id' q b' hb'
    rw [Server.modifyBlock, List.getElem?_modify, h.heap id' q b' hb']
    by_cases hq : p = q
    · subst hq
      obtain rfl := hb.eq_of_ptr hnamed hb'
      obtain rfl := hb'.id_eq hnamed
      simp [counted_concat]
    · simp only [hq, if_false, Option.map_eq_map, Option.map_id_fun', id_eq]
      rw [counted_concat_ne]
      · rintro rfl
        obtain rfl := hb'.id_eq hnamed
        have hpend := hb'.pending
        rw [hb.pending] at hpend
        cases hpend
        exact hq rfl
  · intro q hq
    have hne : p ≠ q := by
      rintro rfl
      exact hq _ _ hb
    simp [Server.modifyBlock, hne, h.frame q hq]

/-- With its last vote the block moves to the merge queue. -/
theorem Counted.enough (hnamed : srv.Named) (h : Counted n share srv pairs srv') {id p k : ℕ}
    {b : Block G} (hb : srv.Open id p b) (hne : ¬ srv.Elected n pairs id p)
    (hfull : srv.Elected n (pairs ++ [(id, k)]) id p) :
    Counted n share srv (pairs ++ [(id, k)])
      { srv'.modifyBlock p fun b => b.insertVote k ⟨id, k, share id k⟩ with
        pbMergeQueue := srv'.pbMergeQueue ++ [p]
        pendingBlks := srv'.pendingBlks.erase id } := by
  obtain ⟨hheap, hframe⟩ := h.modifyBlock (k := k) hnamed hb
  have hsame : ∀ q, srv.pendingBlks[id]? = some q → q = p := fun q hq => by
    rw [hb.pending] at hq; cases hq; rfl
  obtain ⟨queue, hqueue, hnd, hmem⟩ := h.merge
  exact {
    dead := h.dead
    relay := h.relay
    heap := hheap
    frame := hframe
    pending := fun id' q => by
      simp only [ExtTreeMap.getElem?_erase, Nat.compare_eq_eq]
      by_cases he : id = id'
      · subst he
        simp only [if_true, reduceCtorEq, false_iff]
        rintro ⟨hq, hnot⟩
        rw [hsame q hq] at hnot
        exact hnot hfull
      · rw [if_neg he, h.pending, elected_concat_ne he]
    merge := by
      refine ⟨queue ++ [p], by simp [hqueue], ?_, fun q => ?_⟩
      · refine List.nodup_append.mpr ⟨hnd, List.nodup_singleton p, ?_⟩
        intro q hq q' hq' heq
        rw [List.mem_singleton.mp hq'] at heq
        subst heq
        obtain ⟨id', b', hb', hall⟩ := (hmem q).mp hq
        obtain rfl := hb'.eq_of_ptr hnamed hb
        exact hne ⟨b', hb', hall⟩
      · rw [List.mem_append, List.mem_singleton, hmem]
        constructor
        · rintro (⟨id', he⟩ | rfl)
          · exact ⟨id', he.mono (List.subset_append_left _ _)⟩
          · exact ⟨id, hfull⟩
        · rintro ⟨id', he⟩
          by_cases hid : id = id'
          · subst hid
            exact .inr (hsame q he.choose_spec.1.pending)
          · exact .inl ⟨id', (elected_concat_ne hid).mp he⟩ }

/-- A block that has not all votes yet stays pending. -/
theorem Counted.fewer (hnamed : srv.Named) (h : Counted n share srv pairs srv') {id p k : ℕ}
    {b : Block G} (hb : srv.Open id p b) (hfew : ¬ srv.Elected n (pairs ++ [(id, k)]) id p) :
    Counted n share srv (pairs ++ [(id, k)])
      (srv'.modifyBlock p fun b => b.insertVote k ⟨id, k, share id k⟩) := by
  obtain ⟨hheap, hframe⟩ := h.modifyBlock (k := k) hnamed hb
  have hsame : ∀ id' q, srv.Elected n (pairs ++ [(id, k)]) id' q ↔ srv.Elected n pairs id' q := by
    intro id' q
    by_cases he : id = id'
    · subst he
      constructor
      · intro hq
        have hpend := hq.choose_spec.1.pending
        rw [hb.pending] at hpend
        cases hpend
        exact absurd hq hfew
      · exact fun hq => hq.mono (List.subset_append_left _ _)
    · exact elected_concat_ne he
  obtain ⟨queue, hqueue, hnd, hmem⟩ := h.merge
  exact {
    dead := h.dead
    relay := h.relay
    heap := hheap
    frame := hframe
    pending := fun id' q => by rw [hsame]; exact h.pending id' q
    merge := ⟨queue, hqueue, hnd, fun q => by simp only [hmem, hsame]⟩ }

theorem Counted.recordVote (hnamed : srv.Named) (hwait : srv.Waiting cfg.clientCount)
    (h : Counted cfg.clientCount share srv pairs srv')
    (hpairs : ∀ x ∈ pairs, 1 ≤ x.2 ∧ x.2 ≤ cfg.clientCount) {id k : ℕ}
    (hk : 1 ≤ k ∧ k ≤ cfg.clientCount) (hd : id ∉ srv.deadBlock) :
    Counted cfg.clientCount share srv (pairs ++ [(id, k)])
      (srv'.recordVote cfg id k ⟨id, k, share id k⟩) := by
  cases hp' : srv'.pendingBlks[id]? with
  | none =>
    have he : srv'.recordVote cfg id k ⟨id, k, share id k⟩ = srv' := by
      simp only [Server.recordVote, hp']
    rw [he]
    refine h.skip hnamed fun p b hb => ?_
    have hel : srv.Elected cfg.clientCount pairs id p := by
      by_contra hne
      rw [(h.pending id p).mpr ⟨hb.pending, hne⟩] at hp'
      cases hp'
    exact (elected_iff hnamed hb).mp hel k hk.1 hk.2
  | some p =>
    obtain ⟨hp, hne⟩ := (h.pending id p).mp hp'
    obtain ⟨b, hb⟩ := Open.exists_of_pending hnamed hp hd
    have hin : ∀ j ∈ (counted share (pairs ++ [(id, k)]) b).votes,
        1 ≤ j ∧ j ≤ cfg.clientCount := by
      intro j hj
      rcases mem_counted.mp hj with hj | hj
      · rcases List.mem_append.mp hj with hj | hj
        · exact hpairs _ hj
        · cases List.mem_singleton.mp hj
          exact hk
      · exact (hwait _ p b hp hb.heap).2 j hj
    have henough : ((counted share pairs b).insertVote k ⟨id, k, share id k⟩).isVoteEnough
          cfg.clientCount = true ↔
        srv.Elected cfg.clientCount (pairs ++ [(id, k)]) id p := by
      rw [elected_iff hnamed hb, ← size_le_iff_full hin, Block.isVoteEnough, decide_eq_true_iff]
      obtain rfl := hb.id_eq hnamed
      rw [counted_concat]
    simp only [Server.recordVote, hp', h.heap _ _ b hb]
    split
    · rename_i hfull
      exact h.enough hnamed hb hne (henough.mp hfull)
    · rename_i hfew
      exact h.fewer hnamed hb fun he => hfew (henough.mpr he)

/-! ## Deliveries -/

/-- The vote queues that `init_peer_stubs` creates, one for each other server. -/
def HasPeers (cfg : Config) (s : ℕ) (srv : Server G) : Prop :=
  ∀ t, 1 ≤ t → t ≤ cfg.serverCount → t ≠ s → t ∈ srv.relayVotes

theorem Counted.withQueues (h : Counted n share srv pairs srv')
    {queues : ExtTreeMap ℕ (List (BlockVote G))}
    (hkeys : ∀ t, t ∈ queues ↔ t ∈ srv'.relayVotes) :
    Counted n share srv pairs { srv' with relayVotes := queues } :=
  { h with relay := fun t => (hkeys t).trans (h.relay t) }

theorem Counted.dead_skip (hnamed : srv.Named) (h : Counted n share srv pairs srv') {id k : ℕ}
    (hd : id ∈ srv.deadBlock) : Counted n share srv (pairs ++ [(id, k)]) srv' :=
  h.skip hnamed fun _ _ hb => absurd hd hb.alive

theorem Counted.deliver (hS : 1 ≤ cfg.serverCount) (hnamed : srv.Named)
    (hwait : srv.Waiting cfg.clientCount) (hpeers : srv.HasPeers cfg s)
    (h : Counted cfg.clientCount share srv pairs srv')
    (hpairs : ∀ x ∈ pairs, 1 ≤ x.2 ∧ x.2 ≤ cfg.clientCount) {d : Delivery G}
    (hd : d.Fair cfg s share) :
    ∃ srv'', srv'.deliver cfg s d = some srv'' ∧
      Counted cfg.clientCount share srv (pairs ++ [d.pair]) srv'' := by
  obtain ⟨hk, hcast⟩ := hd
  cases d with
  | relayVote vote =>
    refine ⟨_, rfl, ?_⟩
    have hvoter : 1 ≤ vote.voterId ∧ vote.voterId ≤ cfg.clientCount := hk
    have hvote : vote = ⟨vote.blockId, vote.voterId, share vote.blockId vote.voterId⟩ := by
      rw [← hcast]
    unfold relayVoteItem
    split
    · rename_i hdead
      rw [h.dead] at hdead
      exact h.dead_skip hnamed hdead
    · rename_i halive
      rw [h.dead] at halive
      have hrec := h.recordVote hnamed hwait hpairs hvoter halive
      rwa [← hvote] at hrec
  | voteBlocks id block =>
    obtain ⟨hvote, htarget⟩ := hcast
    by_cases hdead : block.header.id ∈ srv.deadBlock
    · refine ⟨srv', ?_, h.dead_skip hnamed hdead⟩
      rw [← h.dead] at hdead
      simp [Server.deliver, voteBlock, voteBlocksItem, hvote, hdead]
    · have hqueues : ∀ t ∈ (block.getServerId cfg.serverCount).toList.filter (· ≠ s),
          t ∈ srv'.relayVotes := by
        intro t ht
        obtain ⟨hm, hne⟩ := List.mem_filter.mp ht
        have ht' := Block.getServerId_range hS (Std.ExtTreeSet.mem_toList.mp hm)
        rw [h.relay]
        exact hpeers t ht'.1 ht'.2 (by simpa using hne)
      have hsome : (srv'.pushVotes ⟨block.header.id, id, share block.header.id id⟩
          ((block.getServerId cfg.serverCount).toList.filter (· ≠ s))).isSome :=
        pushVotes_isSome.mpr hqueues
      obtain ⟨srv₁, hpush⟩ := Option.isSome_iff_exists.mp hsome
      obtain ⟨queues, rfl⟩ := pushVotes_eq hpush
      refine ⟨_, ?_, (h.withQueues (pushVotes_keys hpush)).recordVote hnamed hwait hpairs hk hdead⟩
      rw [← h.dead] at hdead
      simp only [Server.deliver, voteBlock, voteBlocksItem, hvote, hdead, hpush, htarget, if_true,
        if_false, Option.map_some]

theorem Counted.deliverAll (hS : 1 ≤ cfg.serverCount) (hnamed : srv.Named)
    (hwait : srv.Waiting cfg.clientCount) (hpeers : srv.HasPeers cfg s) (ds : List (Delivery G)) :
    ∀ {pairs : List (ℕ × ℕ)} {srv' : Server G}, Counted cfg.clientCount share srv pairs srv' →
      (∀ x ∈ pairs, 1 ≤ x.2 ∧ x.2 ≤ cfg.clientCount) → (∀ d ∈ ds, d.Fair cfg s share) →
      ∃ srv'', srv'.deliverAll cfg s ds = some srv'' ∧
        Counted cfg.clientCount share srv (pairs ++ ds.map Delivery.pair) srv'' := by
  induction ds with
  | nil =>
    intro pairs srv' h _ _
    exact ⟨srv', rfl, by simpa using h⟩
  | cons d ds ih =>
    intro pairs srv' h hpairs hfair
    have hd := hfair d (List.mem_cons_self ..)
    obtain ⟨srv₁, hs, h₁⟩ := h.deliver hS hnamed hwait hpeers hpairs hd
    have hpairs₁ : ∀ x ∈ pairs ++ [d.pair], 1 ≤ x.2 ∧ x.2 ≤ cfg.clientCount := by
      intro x hx
      rcases List.mem_append.mp hx with hx | hx
      · exact hpairs x hx
      · rw [List.mem_singleton.mp hx]
        exact hd.1
    obtain ⟨srv₂, hr, h₂⟩ := ih h₁ hpairs₁ fun d' hd' => hfair d' (List.mem_cons_of_mem _ hd')
    refine ⟨srv₂, by simp only [Server.deliverAll, hs, Option.bind_some, hr], ?_⟩
    simpa using h₂

/-- What a set of votes leaves behind does not depend on how the votes came. -/
theorem Counted.unique (h : Counted n share srv pairs srv') {srv'' : Server G}
    (h' : Counted n share srv pairs' srv'') (hsame : ∀ x, x ∈ pairs ↔ x ∈ pairs') :
    srv'.pendingBlks = srv''.pendingBlks ∧ srv'.heap = srv''.heap := by
  have helected : ∀ id p, srv.Elected n pairs id p ↔ srv.Elected n pairs' id p := by
    intro id p
    simp only [Elected, hsame]
  constructor
  · apply ExtTreeMap.ext_getElem?
    intro id
    apply Option.ext
    intro p
    rw [h.pending, h'.pending, helected]
  · apply List.ext_getElem?
    intro p
    by_cases hb : ∃ id b, srv.Open id p b
    · obtain ⟨id, b, hb⟩ := hb
      rw [h.heap id p b hb, h'.heap id p b hb, counted_congr hsame]
    · have hno : ∀ id b, ¬ srv.Open id p b := fun id b hb' => hb ⟨id, b, hb'⟩
      rw [h.frame p hno, h'.frame p hno]

/-- Vote counting depends only on the set of votes: deliveries of the same votes by any path, in any
order and with any repetitions leave the same pending blocks and hand the same blocks to the merging
thread, each once, namely those that every client has now voted on. -/
theorem deliverAll_eq_of_same_votes (hS : 1 ≤ cfg.serverCount) (hnamed : srv.Named)
    (hwait : srv.Waiting cfg.clientCount) (hpeers : srv.HasPeers cfg s)
    (share : ℕ → ℕ → Option (BLSSigShare G)) (ds ds' : List (Delivery G))
    (hds : ∀ d ∈ ds, d.Fair cfg s share) (hds' : ∀ d ∈ ds', d.Fair cfg s share)
    (hsame : ∀ x, x ∈ ds.map Delivery.pair ↔ x ∈ ds'.map Delivery.pair) :
    ∃ srv₁ srv₂ q₁ q₂, srv.deliverAll cfg s ds = some srv₁ ∧ srv.deliverAll cfg s ds' = some srv₂ ∧
      srv₁.pendingBlks = srv₂.pendingBlks ∧ srv₁.heap = srv₂.heap ∧
      srv₁.pbMergeQueue = srv.pbMergeQueue ++ q₁ ∧ srv₂.pbMergeQueue = srv.pbMergeQueue ++ q₂ ∧
      q₁.Nodup ∧ q₁.Perm q₂ ∧
      ∀ p, p ∈ q₁ ↔ ∃ id b, srv.pendingBlks[id]? = some p ∧ srv.heap[p]? = some b ∧
        id ∉ srv.deadBlock ∧
        ∀ k, 1 ≤ k → k ≤ cfg.clientCount → k ∈ b.votes ∨ (id, k) ∈ ds.map Delivery.pair := by
  obtain ⟨srv₁, hrun₁, h₁⟩ := (Counted.refl hwait).deliverAll hS hnamed hwait hpeers ds
    (fun x hx => by cases hx) hds
  obtain ⟨srv₂, hrun₂, h₂⟩ := (Counted.refl hwait).deliverAll hS hnamed hwait hpeers ds'
    (fun x hx => by cases hx) hds'
  rw [List.nil_append] at h₁ h₂
  obtain ⟨hpending, hheap⟩ := h₁.unique h₂ hsame
  obtain ⟨q₁, hq₁, hnd₁, hmem₁⟩ := h₁.merge
  obtain ⟨q₂, hq₂, hnd₂, hmem₂⟩ := h₂.merge
  refine ⟨srv₁, srv₂, q₁, q₂, hrun₁, hrun₂, hpending, hheap, hq₁, hq₂, hnd₁, ?_, fun p => ?_⟩
  · rw [List.perm_ext_iff_of_nodup hnd₁ hnd₂]
    intro p
    simp only [hmem₁, hmem₂, Elected, hsame]
  · rw [hmem₁]
    constructor
    · rintro ⟨id, b, hb, hall⟩
      exact ⟨id, b, hb.pending, hb.heap, hb.alive, hall⟩
    · rintro ⟨id, b, hp, hb, hd, hall⟩
      exact ⟨id, b, ⟨hp, hb, hd⟩, hall⟩

/-- Two servers and two clients. The block with id 2 is pending on server 1 and has no votes. -/
def pollConfig : Config := ⟨2, 2, 1, 1, 5, 10, 100000, true⟩

def pollServer : Server ℕ := (Server.init pollConfig 1).relayBlockItem (Block.make 2 0 0)

/-- The votes of both clients: relayed, or sent by client 2 directly and twice. -/
theorem deliverAll_poll :
    ∃ srv₁ srv₂ q₁ q₂,
      pollServer.deliverAll pollConfig 1 [.relayVote ⟨2, 1, none⟩, .relayVote ⟨2, 2, none⟩] =
        some srv₁ ∧
      pollServer.deliverAll pollConfig 1
          [.voteBlocks 2 ((Block.make 2 0 0).insertVote 2 ⟨2, 2, none⟩), .relayVote ⟨2, 2, none⟩,
            .relayVote ⟨2, 1, none⟩] = some srv₂ ∧
      srv₁.pendingBlks = srv₂.pendingBlks ∧ srv₁.heap = srv₂.heap ∧
      srv₁.pbMergeQueue = pollServer.pbMergeQueue ++ q₁ ∧
      srv₂.pbMergeQueue = pollServer.pbMergeQueue ++ q₂ ∧ q₁.Nodup ∧ q₁.Perm q₂ ∧
      ∀ p, p ∈ q₁ ↔ ∃ id b, pollServer.pendingBlks[id]? = some p ∧ pollServer.heap[p]? = some b ∧
        id ∉ pollServer.deadBlock ∧
        ∀ k, 1 ≤ k → k ≤ 2 → k ∈ b.votes ∨ (id, k) ∈ [(2, 1), (2, 2)] := by
  have hentry : ∀ (id p : ℕ), pollServer.pendingBlks[id]? = some p → id = 2 ∧ p = 0 := by
    intro id p hp
    simp only [pollServer, relayBlockItem, storePending, alloc, Server.init,
      ExtTreeMap.getElem?_insert, Nat.compare_eq_eq, ExtTreeMap.getElem?_empty] at hp
    split at hp
    · rename_i he
      cases hp
      exact ⟨he.symm, rfl⟩
    · cases hp
  refine deliverAll_eq_of_same_votes (by decide) ?_ ?_ ?_ (fun _ _ => none) _ _ ?_ ?_ ?_
  · intro id p hp
    obtain ⟨rfl, rfl⟩ := hentry id p hp
    rfl
  · intro id p b hp hb
    obtain ⟨rfl, rfl⟩ := hentry id p hp
    cases hb
    exact ⟨by decide, by simp [Block.make]⟩
  · intro t h1 h2 hne
    have h2' : t ≤ 2 := h2
    obtain rfl : t = 2 := by omega
    decide
  · intro d hd
    simp only [List.mem_cons, List.not_mem_nil, or_false] at hd
    rcases hd with rfl | rfl <;> exact ⟨by decide, rfl⟩
  · intro d hd
    simp only [List.mem_cons, List.not_mem_nil, or_false] at hd
    rcases hd with rfl | rfl | rfl
    · exact ⟨by decide, by decide, by decide⟩
    · exact ⟨by decide, rfl⟩
    · exact ⟨by decide, rfl⟩
  · intro x
    simp only [List.map_cons, List.map_nil, Delivery.pair, Block.insertVote_header, Block.make,
      BlockHeader.make, List.mem_cons, List.not_mem_nil, or_false]
    grind

end Server

end TomChain
