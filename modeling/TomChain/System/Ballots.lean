import TomChain.System.Content

/-!
# Votes from arbitrary requests

`VoteBlocks` records a vote under the id of the request, in the block that the element names. The
copies for the other target servers are recorded by `RelayVote` under the vote's own `voter_id_`
in the block of its own `block_id_`. What is recorded is under control exactly as far as the two
agree for the votes that are relayed.
-/

namespace TomChain

open Std (ExtTreeMap ExtTreeSet)
open Runs Server
open Flexbuffers (Flex toBytes fromBytes)

variable {G D : Type} {cfg : Config} {crypto : Crypto G D} {σ σ' : State G} {a : Action G}
  {ok : State G → Action G → Bool}

/-- The vote that a step of `VoteBlocks` queues for other servers, with the id of its request and
the block it came with. -/
def relayedVote (cfg : Config) (σ : State G) : Action G → Option (ℕ × Block G × BlockVote G)
  | .handle i _ _ =>
    match σ.calls[i]? with
    | none => none
    | some call =>
      match call.rpc with
      | .voteBlocks id (item :: _) none =>
        match fromBytes item with
        | none => none
        | some block =>
          match block.votes[id]? with
          | none => none
          | some vote =>
            if block.header.id ∈ (σ.server call.target).deadBlock ∨
                (block.getServerId cfg.serverCount).toList.all (· = call.target) then none
            else some (id, block, vote)
      | _ => none
  | _ => none

theorem relayedVote_eq {i now id : ℕ} {order : List (ℕ × ℕ)} {call : Call G} {item : Flex G}
    {rest : List (Flex G)} {block : Block G} {vote : BlockVote G} (hi : σ.calls[i]? = some call)
    (hrpc : call.rpc = .voteBlocks id (item :: rest) none) (hd : fromBytes item = some block)
    (hv : block.votes[id]? = some vote)
    (hdead : block.header.id ∉ (σ.server call.target).deadBlock)
    (ht : ∃ t ∈ block.getServerId cfg.serverCount, t ≠ call.target) :
    relayedVote cfg σ (.handle i now order) = some (id, block, vote) := by
  have hall : ¬ (block.getServerId cfg.serverCount).toList.all (· = call.target) = true := by
    intro hall
    obtain ⟨t, ht, hne⟩ := ht
    rw [List.all_eq_true] at hall
    exact hne (of_decide_eq_true (hall t (ExtTreeSet.mem_toList.mpr ht)))
  simp only [relayedVote, hi, hrpc, hd, hv]
  rw [if_neg (not_or.mpr ⟨hdead, hall⟩)]

def Server.Keeps (srv : Server G) (p : ℕ) : Prop :=
  (∃ id : ℕ, srv.pendingBlks[id]? = some p) ∨ p ∈ srv.pbMergeQueue ∨ srv.merge = .popped p ∨
    ∃ id : ℕ, srv.committedBlks[id]? = some p

/-! ## Forged votes -/

/-- A request with id `k` that contained a block with id `id` was taken up by a server. -/
def Received (σ : State G) (k id : ℕ) : Prop :=
  ∃ item block, (k, item) ∈ σ.received ∧ fromBytes item = some block ∧ block.header.id = id

/-- Every recorded vote goes back to a request of its voter for its block. -/
def NoForgedVotes (σ : State G) : Prop :=
  ∀ s p b, (σ.server s).Keeps p → (σ.server s).heap[p]? = some b →
    ∀ k ∈ b.votes, Received σ k b.header.id

/-- A vote that is relayed names the client that sent it and the block it came with. -/
def relaysOwnVotes (cfg : Config) (σ : State G) (a : Action G) : Bool :=
  (relayedVote cfg σ a).all fun r => r.2.2.voterId = r.1 && r.2.2.blockId = r.2.1.header.id

def receivedFlow (σ : State G) : Flow G :=
  { Flow.top with
    block := fun b => ∀ k ∈ b.votes, Received σ k b.header.id
    ballot := fun k id _ => Received σ k id }

theorem Received.steps {k id : ℕ} (hs : Steps cfg crypto σ a σ') (h : Received σ k id) :
    Received σ' k id := by
  obtain ⟨item, block, hm, h⟩ := h
  exact ⟨item, block, hs.received.subset hm, h⟩

theorem receivedFlow_laws (σ : State G) : (receivedFlow σ).Laws cfg crypto where
  dist b now h k hk := by
    rw [Block.stampDist_votes] at hk
    rw [Block.stampDist_id]
    exact h k hk
  insert b k v h hv k' hk' := by
    rcases Block.mem_insertVote.mp hk' with rfl | hk'
    · exact hv
    · exact h k' hk'
  sign _ _ h := h
  commit _ _ h _ := h
  recv _ _ h _ := h
  offered _ _ := trivial
  served _ _ := trivial
  item _ _ _ _ _ _ := trivial

theorem received_of_handle {i now id : ℕ} {order : List (ℕ × ℕ)} {call : Call G} {item : Flex G}
    {rest : List (Flex G)} {block : Block G} (hs : Steps cfg crypto σ (.handle i now order) σ')
    (hi : σ.calls[i]? = some call) (hrpc : call.rpc = .voteBlocks id (item :: rest) none)
    (hd : fromBytes item = some block) : Received σ' id block.header.id := by
  cases hs with
  | handle _ _ _ call' srv' rpc' hi' _ =>
    rw [hi] at hi'
    cases hi'
    exact ⟨item, block, by simp [hrpc, Rpc.takenItem], hd, rfl⟩

theorem receivedFlow_clean (h : Reachable cfg crypto (relaysOwnVotes cfg) σ) :
    (receivedFlow σ).Clean cfg σ := by
  refine Flow.clean_of_reachable receivedFlow receivedFlow_laws ?_ ?_ h
  · intro σ a σ' _ hs
    exact { Flow.Le.refl _ with
      block := fun b hb k hk => (hb k hk).steps hs
      ballot := fun k id v hv => hv.steps hs }
  · intro σ a σ' hr hok _ hs
    exact {
      pack := fun s now order _ k hk => by
        simp [Server.newBlock, Block.make] at hk
      sync := fun _ _ _ _ _ _ => trivial
      merge := fun _ _ _ _ _ _ _ => trivial
      vote := fun i now order call id item rest block v he hi hrpc _ hd hv => by
        subst he
        have hrec := received_of_handle hs hi hrpc hd
        refine ⟨hrec, fun hdead ht => ?_⟩
        rw [relaysOwnVotes, relayedVote_eq hi hrpc hd hv hdead ht] at hok
        simp only [Option.all_some, Bool.and_eq_true, decide_eq_true_eq] at hok
        rw [hok.1, hok.2]
        exact hrec
      get := fun _ _ _ _ _ _ _ _ _ _ _ _ _ _ _ _ => trivial
      foreign := fun _ _ _ => rpcOk_of_isClientRequest (fun _ => trivial) (fun _ _ _ => trivial) }

/-- As long as the relayed votes name their own sender and block, no vote is forged. -/
theorem noForgedVotes_of_relaysOwnVotes (cfg : Config) (crypto : Crypto G D) (σ : State G)
    (h : Reachable cfg crypto (relaysOwnVotes cfg) σ) : NoForgedVotes σ := by
  intro s p b _ hb
  exact ((receivedFlow_clean h).server s).heap b (List.mem_of_getElem? hb)

/-- A complete round meets the condition; both copies of the block keep the votes of clients 1
and 2, and nothing else. -/
theorem noForgedVotes_round :
    ∃ σ, Reachable sampleConfig Crypto.symbolic (relaysOwnVotes sampleConfig) σ ∧
      (∃ p b, (σ.server 2).Keeps p ∧ (σ.server 2).heap[p]? = some b ∧ b.votes.keys = [1, 2]) ∧
      NoForgedVotes σ := by
  obtain ⟨σ, hr, hσ⟩ := exists_reachable sampleConfig Crypto.symbolic (relaysOwnVotes sampleConfig)
    Script.round (fun σ => ((σ.server 2).committedBlks[2000000]? == some 0) &&
      ((σ.server 2).heap[0]?).any fun b => b.votes.keys == [1, 2]) (by decide +kernel)
  simp only [Bool.and_eq_true, beq_iff_eq, Option.any_eq_true] at hσ
  obtain ⟨hp, b, hb, hk⟩ := hσ
  exact ⟨σ, hr, ⟨0, b, .inr (.inr (.inr ⟨_, hp⟩)), hb, hk⟩,
    noForgedVotes_of_relaysOwnVotes _ _ σ hr⟩

/-- A request of client 1 for the packed block, with a vote that names `voter`. -/
def forgedRequest (voter : ℕ) : Rpc Point :=
  .voteBlocks 1 [toBytes { Block.make 2000000 0 0 with
    votes := ExtTreeMap.empty.insert 1 ⟨2000000, voter, none⟩ }] none

/-- Server 1 takes up the forged request and relays the vote to the packing server. -/
def Script.forgery (voter : ℕ) : List (Action Point) :=
  packBlock ++ ([.server 2 .packInsert, .foreign 1 (forgedRequest voter), .handle 0 0 [],
    .handle 0 0 [], .ret 0] : List (Action Point)) ++ relay 1 .vote 1

/-- A request of client 1 makes server 2 record a vote of client 2, who never sent one. -/
theorem exists_forged_vote :
    ¬ ∀ σ, Reachable sampleConfig Crypto.symbolic unguarded σ → NoForgedVotes σ := by
  intro h
  obtain ⟨σ, hr, hσ⟩ := exists_reachable sampleConfig Crypto.symbolic unguarded (Script.forgery 2)
    (fun σ => ((σ.server 2).pendingBlks[2000000]? == some 0) &&
      ((σ.server 2).heap[0]?).any (fun b => b.votes.contains 2) &&
      σ.received.all fun r => r.1 != 2) (by decide +kernel)
  simp only [Bool.and_eq_true, beq_iff_eq, Option.any_eq_true, ExtTreeMap.contains_iff_mem,
    List.all_eq_true, bne_iff_ne] at hσ
  obtain ⟨⟨hp, b, hb, hk⟩, hrec⟩ := hσ
  obtain ⟨item, block, hm, -⟩ := h σ hr 2 0 b (.inl ⟨_, hp⟩) hb 2 hk
  exact hrec _ hm rfl

/-! ## Votes that cannot be decoded again -/

def Decodable (σ : State G) : Prop :=
  ∀ s p b, (σ.server s).Keeps p → (σ.server s).heap[p]? = some b → (fromBytes (toBytes b)).isSome

/-- The voter that a relayed vote names fits the `int` that keys are parsed to. -/
def relaysIntVotes (cfg : Config) (σ : State G) (a : Action G) : Bool :=
  (relayedVote cfg σ a).all fun r => r.2.2.voterId ≤ Decimal.intMax

def intFlow : Flow G :=
  { Flow.top with
    block := fun b => ∀ k ∈ b.votes, k ≤ Decimal.intMax
    ballot := fun k _ _ => k ≤ Decimal.intMax
    item := fun id item => ∀ block, fromBytes item = some block → id ∈ block.votes →
      id ≤ Decimal.intMax }

theorem intFlow_laws : (intFlow : Flow G).Laws cfg crypto where
  dist b now h k hk := h k (by rwa [Block.stampDist_votes] at hk)
  insert b k v h hv k' hk' := by
    rcases Block.mem_insertVote.mp hk' with rfl | hk'
    · exact hv
    · exact h k' hk'
  sign _ _ h := h
  commit _ _ h _ := h
  recv _ _ h _ := h
  offered _ _ := trivial
  served _ _ := trivial
  item b c _ _ _ _ block hd hc := by
    obtain ⟨rfl, hle⟩ := Flexbuffers.fromBytes_toBytes_some hd
    exact hle c hc

theorem intFlow_clean (h : Reachable cfg crypto (relaysIntVotes cfg) σ) :
    (intFlow : Flow G).Clean cfg σ := by
  refine Flow.clean_of_reachable (fun _ => intFlow) (fun _ => intFlow_laws)
    (fun _ _ _ _ _ => .refl _) ?_ h
  intro σ a σ' hr hok _ hs
  exact {
    pack := fun s now order _ k hk => by simp [Server.newBlock, Block.make] at hk
    sync := fun _ _ _ _ _ _ => trivial
    merge := fun _ _ _ _ _ _ _ => trivial
    vote := fun i now order call id item rest block v he hi hrpc hF hd hv => by
      subst he
      have hm : id ∈ block.votes := by
        rw [ExtTreeMap.mem_iff_isSome_getElem?, hv]
        rfl
      refine ⟨hF block hd hm, fun hdead ht => ?_⟩
      rw [relaysIntVotes, relayedVote_eq hi hrpc hd hv hdead ht] at hok
      have hle : v.voterId ≤ Decimal.intMax := by simpa using hok
      exact hle
    get := fun _ _ _ _ _ _ _ _ _ _ _ _ _ _ _ _ => trivial
    foreign := fun _ _ _ => rpcOk_of_isClientRequest (fun _ => trivial)
      fun id item hid block hd hm => Flexbuffers.fromBytes_mem hd hm hid }

/-- As long as the relayed votes name voters that fit an `int`, every block stays decodable. -/
theorem decodable_of_relaysIntVotes (cfg : Config) (crypto : Crypto G D) (σ : State G)
    (h : Reachable cfg crypto (relaysIntVotes cfg) σ) : Decodable σ := by
  intro s p b _ hb
  have hle := ((intFlow_clean h).server s).heap b (List.mem_of_getElem? hb)
  rw [Flexbuffers.fromBytes_toBytes b hle]
  rfl

theorem decodable_round :
    ∃ σ, Reachable sampleConfig Crypto.symbolic (relaysIntVotes sampleConfig) σ ∧
      (∃ p b, (σ.server 2).Keeps p ∧ (σ.server 2).heap[p]? = some b ∧ b.votes.keys = [1, 2]) ∧
      Decodable σ := by
  obtain ⟨σ, hr, hσ⟩ := exists_reachable sampleConfig Crypto.symbolic (relaysIntVotes sampleConfig)
    Script.round (fun σ => ((σ.server 2).committedBlks[2000000]? == some 0) &&
      ((σ.server 2).heap[0]?).any fun b => b.votes.keys == [1, 2]) (by decide +kernel)
  simp only [Bool.and_eq_true, beq_iff_eq, Option.any_eq_true] at hσ
  obtain ⟨hp, b, hb, hk⟩ := hσ
  exact ⟨σ, hr, ⟨0, b, .inr (.inr (.inr ⟨_, hp⟩)), hb, hk⟩,
    decodable_of_relaysIntVotes _ _ σ hr⟩

/-- One request of client 1 leaves the packing server with a block that nobody can decode. -/
theorem exists_undecodable :
    ¬ ∀ σ, Reachable sampleConfig Crypto.symbolic unguarded σ → Decodable σ := by
  intro h
  obtain ⟨σ, hr, hσ⟩ := exists_reachable sampleConfig Crypto.symbolic unguarded
    (Script.forgery (2 ^ 40)) (fun σ => ((σ.server 2).pendingBlks[2000000]? == some 0) &&
      ((σ.server 2).heap[0]?).any fun b => b.votes.contains (2 ^ 40)) (by decide +kernel)
  simp only [Bool.and_eq_true, beq_iff_eq, Option.any_eq_true, ExtTreeMap.contains_iff_mem] at hσ
  obtain ⟨hp, b, hb, hk⟩ := hσ
  have := h σ hr 2 0 b (.inl ⟨_, hp⟩) hb
  rw [Flexbuffers.fromBytes_toBytes_none b hk (by decide)] at this
  cases this

end TomChain
