import TomChain.System.Votes

/-!
# What the clients sign

`Block::get_sha256` hashes a block with everything in it: the votes recorded so far and the time
at which the serving server first handed it out. Clients sign the same bytes if `GetBlocks` serves
copies without votes and with the same distribution time; a single client has nothing to disagree
with.
-/

namespace TomChain

open Std (ExtTreeMap)
open Runs Server
open Flexbuffers (Flex toBytes fromBytes headerFromBytes)

variable {G D : Type} {cfg : Config} {crypto : Crypto G D} {σ σ' : State G} {a : Action G}

def servedBlock (σ : State G) : Action G → Option (Block G)
  | .handle i _ _ =>
    match σ.calls[i]? with
    | none => none
    | some call =>
      match call.rpc with
      | .getBlocks (hdr :: _) _ =>
        match (σ.server call.target).pendingBlks[(headerFromBytes hdr).id]? with
        | none => none
        | some p => (σ.server call.target).heap[p]?
      | _ => none
  | _ => none

/-- With more than one client, `GetBlocks` serves only copies without votes and with the
distribution time `distTs` gives for the block. -/
def servesFresh (cfg : Config) (distTs : ℕ → ℕ) (σ : State G) (a : Action G) : Bool :=
  honest σ a && (cfg.clientCount ≤ 1 || (servedBlock σ a).all fun b =>
    b.votes.isEmpty && b.header.distTs = distTs b.header.id)

/-- All votes of a block that waits for the merge were computed from the same digest. -/
def SameDigest (cfg : Config) (crypto : Crypto G D) (σ : State G) : Prop :=
  ∀ s p b, p ∈ (σ.server s).pbMergeQueue → (σ.server s).heap[p]? = some b →
    ∃ d, ∀ (k : ℕ) v, b.votes[k]? = some v → ∃ block : Block G,
      v = castVote crypto cfg.clientCount k block ∧ block.getSha256 crypto = d

/-- The copy of a packed block that is served when it has no votes yet. -/
def freshCopy (distTs : ℕ → ℕ) (pb : Block G) : Block G :=
  { header := { pb.header with distTs := distTs pb.header.id, commitTs := 0, recvTs := 0 }
    txVec := pb.txVec
    votes := ∅
    tssSig := none }

def FreshVote (cfg : Config) (crypto : Crypto G D) (distTs : ℕ → ℕ) (σ : State G) (k id : ℕ)
    (v : BlockVote G) : Prop :=
  ∃ pb ∈ (σ.server cfg.serverCount).packed, pb.header.id = id ∧
    v = castVote crypto cfg.clientCount k (freshCopy distTs pb)

def digestFlow (cfg : Config) (crypto : Crypto G D) (distTs : ℕ → ℕ) (σ : State G) : Flow G :=
  { (Flow.top : Flow G) with
    block := fun b => Packed cfg σ b ∧
      (b.votes.size = 0 → b.header.commitTs = 0 ∧ b.header.recvTs = 0) ∧
      ∀ (k : ℕ) v, b.votes[k]? = some v → FreshVote cfg crypto distTs σ k b.header.id v
    ballot := FreshVote cfg crypto distTs σ
    served := fun b => ∃ pb ∈ (σ.server cfg.serverCount).packed,
      { b with tssSig := none } = freshCopy distTs pb
    item := fun c item => ∃ pb ∈ (σ.server cfg.serverCount).packed,
      item = toBytes (votedBlock crypto cfg.clientCount c (freshCopy distTs pb)) }

theorem digestFlow_laws (hN : 1 ≤ cfg.clientCount) (distTs : ℕ → ℕ) (σ : State G) :
    (digestFlow cfg crypto distTs σ).Laws cfg crypto where
  dist b now h := by
    refine ⟨h.1.grows (b.grows_stampDist now), ?_, ?_⟩
    · rw [Block.stampDist_votes]
      unfold Block.stampDist
      split <;> exact h.2.1
    · rw [Block.stampDist_votes, Block.stampDist_id]
      exact h.2.2
  insert b k v h hv := by
    refine ⟨h.1.grows (b.grows_insertVote k v), fun hz => ?_, fun k' v' hv' => ?_⟩
    · exact h.2.1 (Nat.le_zero.mp (hz ▸ (b.grows_insertVote k v).size_le))
    · rw [Block.insertVote_votes] at hv'
      split at hv'
      · rename_i hk
        cases hv'
        rw [← hk.1]
        exact hv
      · exact h.2.2 k' v' hv'
  sign b sig h := ⟨h.1.grows ⟨⟨rfl, rfl, rfl, rfl⟩, fun _ _ h => h⟩, h.2⟩
  commit b now h hn :=
    ⟨h.1.grows (b.grows_stampCommit now), fun hz => absurd hn (by
      have : b.votes.size = 0 := hz
      omega), h.2.2⟩
  recv b now h hn :=
    ⟨h.1.grows (b.grows_stampRecv now), fun hz => absurd hn (by
      have : b.votes.size = 0 := hz
      omega), h.2.2⟩
  offered _ _ := trivial
  served _ h := h
  item b c h hsig _ _ := by
    obtain ⟨pb, hpb, he⟩ := h
    have hb : b = freshCopy distTs pb := by rw [← he, ← hsig]
    exact ⟨pb, hpb, by rw [hb]⟩

/-- A copy without votes is the fresh copy of the packed block. -/
theorem eq_freshCopy {distTs : ℕ → ℕ} {b pb : Block G} (hs : b.SameContent pb)
    (hv : b.votes.size = 0) (hd : b.header.distTs = distTs b.header.id)
    (ht : b.header.commitTs = 0 ∧ b.header.recvTs = 0) :
    { b with tssSig := none } = freshCopy distTs pb := by
  obtain ⟨⟨id, baseId, proposalTs, dist, commit, recv⟩, txs, votes, sig⟩ := b
  obtain ⟨h1, h2, h3, h4⟩ := hs
  obtain ⟨h5, h6⟩ := ht
  simp only at h1 h2 h3 h4 h5 h6 hd hv
  have hempty : votes = ∅ := ExtTreeMap.eq_empty_iff_size_eq_zero.mpr hv
  simp only [freshCopy, hempty, h4, h5, h6, ← h1, ← h2, ← h3, hd]

theorem digestFlow_clean (hN : 2 ≤ cfg.clientCount) (distTs : ℕ → ℕ)
    (h : Reachable cfg crypto (servesFresh cfg distTs) σ) :
    (digestFlow cfg crypto distTs σ).Clean cfg σ := by
  refine Flow.clean_of_reachable (digestFlow cfg crypto distTs)
    (digestFlow_laws (by omega) distTs) ?_ ?_ h
  · intro σ a σ' _ hs
    have hsub := (hs.later cfg.serverCount).packed.subset
    have hvote : ∀ k id v, FreshVote cfg crypto distTs σ k id v →
        FreshVote cfg crypto distTs σ' k id v :=
      fun k id v ⟨pb, hpb, hv⟩ => ⟨pb, hsub hpb, hv⟩
    exact { Flow.Le.refl _ with
      block := fun b hb => ⟨hb.1.steps hs, hb.2.1, fun k v hv => hvote _ _ _ (hb.2.2 k v hv)⟩
      ballot := hvote
      served := fun b ⟨pb, hpb, he⟩ => ⟨pb, hsub hpb, he⟩
      item := fun c item ⟨pb, hpb, he⟩ => ⟨pb, hsub hpb, he⟩ }
  · intro σ a σ' hr hok hc hs
    have hsub := (hs.later cfg.serverCount).packed.subset
    simp only [servesFresh, Bool.and_eq_true, Bool.or_eq_true, decide_eq_true_eq] at hok
    exact {
      pack := fun s now order he => by
        subst he
        obtain ⟨rfl, hp⟩ := packed_newBlock hr hs
        exact ⟨⟨_, by rw [hp]; simp, .refl _⟩, fun _ => ⟨rfl, rfl⟩, fun k v hv => by
          simp [Server.newBlock, Block.make] at hv⟩
      sync := fun _ _ _ _ _ _ => trivial
      merge := fun _ _ _ _ _ _ _ => trivial
      vote := fun i now order call id item rest block v _ hi hrpc hF hd hv => by
        obtain ⟨pb, hpb, rfl⟩ := hF
        obtain ⟨rfl, -⟩ := Flexbuffers.fromBytes_toBytes_some hd
        have hcast : v = castVote crypto cfg.clientCount id (freshCopy distTs pb) := by
          rcases votedBlock_votes hv with hv | hv
          · simp [freshCopy] at hv
          · exact hv
        refine ⟨⟨pb, hpb, rfl, hcast⟩, fun _ _ => ⟨pb, hpb, ?_, ?_⟩⟩
        · rw [hcast]; rfl
        · rw [hcast]; rfl
      get := fun i now order call hdr rest pb p b he hi hrpc _ hp hb hF => by
        subst he
        have hserved : servedBlock σ (.handle i now order) = some b := by
          simp [servedBlock, hi, hrpc, hp, hb]
        rw [hserved] at hok
        rcases hok.2 with hle | hfresh
        · omega
        · simp only [Option.all_some, Bool.and_eq_true, decide_eq_true_eq] at hfresh
          obtain ⟨⟨pb, hpb, hsame⟩, ht, -⟩ := hF
          have hz : b.votes.size = 0 :=
            ExtTreeMap.eq_empty_iff_size_eq_zero.mp (ExtTreeMap.isEmpty_iff.mp hfresh.1)
          exact ⟨pb, hpb, eq_freshCopy hsame hz hfresh.2 (ht hz)⟩
      foreign := fun target rpc he _ => by
        subst he
        exact absurd hok.1 (by simp [honest]) }

/-- Under the condition on what is served, all clients sign the same digest. -/
theorem sameDigest_of_servesFresh (cfg : Config) (crypto : Crypto G D) (distTs : ℕ → ℕ)
    (σ : State G) (h : Reachable cfg crypto (servesFresh cfg distTs) σ)
    (hlt : (σ.server cfg.serverCount).packed.length < 2 ^ 64) : SameDigest cfg crypto σ := by
  intro s p b hp hb
  have hm := List.mem_of_getElem? hb
  rcases Nat.lt_or_ge 1 cfg.clientCount with hN | hN
  · obtain ⟨⟨pb, hpb, hsame⟩, -, hv⟩ := ((digestFlow_clean hN distTs h).server s).heap b hm
    refine ⟨(freshCopy distTs pb).getSha256 crypto, fun k v hkv => ?_⟩
    obtain ⟨pb', hpb', hid, rfl⟩ := hv k v hkv
    have he : pb' = pb := packed_unique (h.packOk _) (by omega) hpb' hpb (by rw [hid, hsame.1])
    exact ⟨freshCopy distTs pb, by rw [he], rfl⟩
  · have hhonest : ∀ (σ : State G) a, servesFresh cfg distTs σ a → honest σ a := by
      intro σ a hok
      simp only [servesFresh, Bool.and_eq_true] at hok
      exact hok.1
    have hv := ((honestFlow_clean hhonest h).server s).heap b hm
    cases h1 : b.votes[1]? with
    | none =>
      refine ⟨crypto.sha256 .nil, fun k v hkv => ?_⟩
      have hk := hv k v hkv
      have : k = 1 := by omega
      rw [this, h1] at hkv
      cases hkv
    | some v₁ =>
      obtain ⟨-, -, block, -, rfl⟩ := hv 1 v₁ h1
      refine ⟨block.getSha256 crypto, fun k v hkv => ?_⟩
      have hk := hv k v hkv
      have : k = 1 := by omega
      subst this
      rw [h1] at hkv
      cases hkv
      exact ⟨block, rfl, rfl⟩

/-- In the round both clients fetch the block before either of them votes, from servers that
stamped it with the same time. -/
theorem sameDigest_round :
    ∃ σ, Reachable sampleConfig Crypto.symbolic (servesFresh sampleConfig fun _ => 100) σ ∧
      (∃ b, (σ.server 1).heap[0]? = some b ∧ 0 ∈ (σ.server 1).pbMergeQueue ∧ b.votes.keys = [1, 2]) ∧
      SameDigest sampleConfig Crypto.symbolic σ := by
  obtain ⟨σ, hr, hσ⟩ := exists_reachable sampleConfig Crypto.symbolic
    (servesFresh sampleConfig fun _ => 100) (Script.round.take 60)
    (fun σ => (σ.server 2).packed.length == 1 && ((σ.server 1).pbMergeQueue == [0]) &&
      ((σ.server 1).heap[0]?).any fun b => b.votes.keys == [1, 2]) (by decide +kernel)
  simp only [Bool.and_eq_true, beq_iff_eq, Option.any_eq_true] at hσ
  obtain ⟨⟨hlen, hq⟩, b, hb, hk⟩ := hσ
  exact ⟨σ, hr, ⟨b, hb, by simp [hq], hk⟩,
    sameDigest_of_servesFresh _ _ _ σ hr (by simp [sampleConfig, hlen])⟩

/-- The message that a symbolic vote signs. -/
def signedMessage (v : BlockVote Point) : Option (Msgpack Point) :=
  match v.sigShare with
  | some ⟨.share _ message, _, _, _, _⟩ => some message
  | _ => none

def packedVotes : Msgpack Point → Option ℕ
  | .map [_, _, (_, .map votes), _] => some votes.length
  | _ => none

theorem signedMessage_castVote (n k : ℕ) (b : Block Point) :
    signedMessage (castVote Crypto.symbolic n k b) = some (b.getSha256 Crypto.symbolic) := rfl

/-- Client 2 fetches the block after client 1 has voted. -/
def Script.lateFetch : List (Action Point) :=
  packBlock ++ [.server 2 .packInsert] ++ relay 2 .block 1 ++ sync ++ pull 1 100 ++ vote 1 ++
    pull 2 100 ++ vote 2

/-- Client 1 signs the block without votes, client 2 the block with the vote of client 1. -/
theorem exists_different_digests :
    ¬ ∀ σ, Reachable sampleConfig Crypto.symbolic honest σ →
      SameDigest sampleConfig Crypto.symbolic σ := by
  intro h
  obtain ⟨σ, hr, hσ⟩ := exists_reachable sampleConfig Crypto.symbolic honest Script.lateFetch
    (fun σ => ((σ.server 2).pbMergeQueue == [0]) && ((σ.server 2).heap[0]?).any fun b =>
      (b.votes[1]?).any (fun v => (signedMessage v).bind packedVotes == some 0) &&
      (b.votes[2]?).any (fun v => (signedMessage v).bind packedVotes == some 1)) (by decide +kernel)
  simp only [Bool.and_eq_true, beq_iff_eq, Option.any_eq_true] at hσ
  obtain ⟨hq, b, hb, ⟨v₁, hv₁, hs₁⟩, v₂, hv₂, hs₂⟩ := hσ
  obtain ⟨d, hd⟩ := h σ hr 2 0 b (by simp [hq]) hb
  obtain ⟨b₁, rfl, hd₁⟩ := hd 1 v₁ hv₁
  obtain ⟨b₂, rfl, hd₂⟩ := hd 2 v₂ hv₂
  rw [signedMessage_castVote, hd₁] at hs₁
  rw [signedMessage_castVote, hd₂, hs₁] at hs₂
  cases hs₂

end TomChain
