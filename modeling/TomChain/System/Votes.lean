import TomChain.Lib.Tally
import TomChain.System.Content

/-!
# Votes of honest clients

When all clients run `TcClient`, the three keys of a vote agree: the key it is recorded under, the
voter it names and the index of its share. A block in the merge queue has the votes of all clients
and its shares merge.
-/

namespace TomChain

open Std (ExtTreeMap)
open Runs Server
open Flexbuffers (Flex toBytes fromBytes)

variable {G D : Type} {cfg : Config} {crypto : Crypto G D} {σ σ' : State G} {a : Action G}

def CastBy (crypto : Crypto G D) (clientCount k id : ℕ) (v : BlockVote G) : Prop :=
  ∃ block : Block G, block.header.id = id ∧ v = castVote crypto clientCount k block

def HonestVotes (cfg : Config) (crypto : Crypto G D) (b : Block G) : Prop :=
  ∀ (k : ℕ) v, b.votes[k]? = some v →
    1 ≤ k ∧ k ≤ cfg.clientCount ∧ CastBy crypto cfg.clientCount k b.header.id v

def honestFlow (cfg : Config) (crypto : Crypto G D) : Flow G :=
  { (Flow.top : Flow G) with
    block := HonestVotes cfg crypto
    ballot := fun k id v => 1 ≤ k ∧ k ≤ cfg.clientCount ∧ CastBy crypto cfg.clientCount k id v
    served := HonestVotes cfg crypto
    item := fun c item => 1 ≤ c ∧ c ≤ cfg.clientCount ∧
      ∃ b, HonestVotes cfg crypto b ∧ item = toBytes (votedBlock crypto cfg.clientCount c b) }

/-- The vote of its sender in a block that a client sends back: the one it was received with, or
the new one. -/
theorem votedBlock_votes {n c : ℕ} {b : Block G} {v : BlockVote G}
    (h : (votedBlock crypto n c b).votes[c]? = some v) :
    b.votes[c]? = some v ∨ v = castVote crypto n c b := by
  rw [votedBlock, Block.insertVote_votes] at h
  split at h
  · cases h; exact .inr rfl
  · exact .inl h

/-- A block that a client sends back has a vote of this client, cast for this block. -/
theorem honest_item {c : ℕ} {item : Flex G} {block : Block G}
    (hF : (honestFlow cfg crypto).item c item) (hd : fromBytes item = some block) :
    c ∈ block.votes ∧
      ∀ v, block.votes[c]? = some v → CastBy crypto cfg.clientCount c block.header.id v := by
  obtain ⟨-, -, b, hb, rfl⟩ := hF
  obtain ⟨rfl, -⟩ := Flexbuffers.fromBytes_toBytes_some hd
  refine ⟨Block.mem_insertVote.mpr (.inl rfl), fun v hv => ?_⟩
  rcases votedBlock_votes hv with hv | hv
  · exact (hb c v hv).2.2
  · exact ⟨b, rfl, hv⟩

theorem honestFlow_laws : (honestFlow cfg crypto).Laws cfg crypto where
  dist b now h k v hv := by
    rw [Block.stampDist_votes] at hv
    rw [Block.stampDist_id]
    exact h k v hv
  insert b k v h hv k' v' hv' := by
    rw [Block.insertVote_votes] at hv'
    split at hv'
    · rename_i hk
      cases hv'
      rw [← hk.1]
      exact hv
    · exact h k' v' hv'
  sign _ _ h := h
  commit _ _ h _ := h
  recv _ _ h _ := h
  offered _ _ := trivial
  served _ h := h
  item b c h _ h1 h2 := ⟨h1, h2, b, h, rfl⟩

theorem honestFlow_clean {ok : State G → Action G → Bool} (hhonest : ∀ σ a, ok σ a → honest σ a)
    (h : Reachable cfg crypto ok σ) : (honestFlow cfg crypto).Clean cfg σ := by
  refine Flow.clean_of_reachable (fun _ => honestFlow cfg crypto) (fun _ => honestFlow_laws)
    (fun _ _ _ _ _ => .refl _) ?_ h
  intro σ a σ' hr hok _ hs
  exact {
    pack := fun s now order _ k v hv => by simp [Server.newBlock, Block.make] at hv
    sync := fun _ _ _ _ _ _ => trivial
    merge := fun _ _ _ _ _ _ _ => trivial
    vote := fun i now order call id item rest block v _ hi hrpc hF hd hv => by
      obtain ⟨b, hid, rfl⟩ := (honest_item hF hd).2 v hv
      exact ⟨⟨hF.1, hF.2.1, b, hid, rfl⟩, fun _ _ => ⟨hF.1, hF.2.1, b, rfl, rfl⟩⟩
    get := fun _ _ _ _ _ _ _ _ _ _ _ _ _ _ _ hb => hb
    foreign := fun target rpc he _ => by
      subst he
      exact absurd (hhonest _ _ hok) (by simp [honest]) }

/-- Shares under distinct indices merge when there are enough of them. -/
theorem mergeVotes_of_honest {b : Block G} (hv : HonestVotes cfg crypto b)
    (hsize : cfg.clientCount ≤ b.votes.size) :
    ∃ sig, b.mergeVotes crypto.merge cfg.clientCount = .ok { b with tssSig := some sig } := by
  have hshare : ∀ kv ∈ b.votes.toList, ∃ share, kv.2.sigShare = some share ∧
      share.signerIndex = kv.1 := by
    intro kv hm
    obtain ⟨-, -, block, -, hc⟩ := hv kv.1 kv.2 (ExtTreeMap.mem_toList_iff_getElem?_eq_some.mp hm)
    exact ⟨_, by rw [hc]; rfl, rfl⟩
  obtain ⟨shares, hok, hmap⟩ := addSigShares_ok b.votes.toList [] hshare
    (by simpa using Flexbuffers.toList_fst_nodup b.votes)
  have hlen : shares.length = b.votes.size := by
    have := congrArg List.length hmap
    simpa using this
  refine ⟨crypto.merge shares, ?_⟩
  simp only [Block.mergeVotes, hok, List.nil_append]
  rw [if_pos (by omega)]

/-- A block that waits for the merge, or is being merged, has exactly the votes of the clients,
each cast by the client of its key for this block. -/
theorem merging_votes (h : Reachable cfg crypto honest σ) {s p : ℕ}
    (hp : p ∈ (σ.server s).pbMergeQueue ∨ (σ.server s).merge = .popped p) :
    ∃ b, (σ.server s).heap[p]? = some b ∧ HonestVotes cfg crypto b ∧
      cfg.clientCount ≤ b.votes.size := by
  have hF := (honestFlow_clean (fun _ _ h => h) h).server s
  have hq : Flow.Quorum cfg (σ.server s).heap p := by
    rcases hp with hp | hp
    · exact hF.held.queue p hp
    · exact hF.held.merge p (.inl hp)
  obtain ⟨b, hb, hn⟩ := hq
  exact ⟨b, hb, hF.heap b (List.mem_of_getElem? hb), hn⟩

/-- A local commit means that every client voted and the merge succeeded. -/
theorem local_commit_signed (cfg : Config) (crypto : Crypto G D) (σ : State G)
    (h : Reachable cfg crypto honest σ) (s p : ℕ)
    (hp : p ∈ (σ.server s).pbMergeQueue ∨ (σ.server s).merge = .popped p) :
    (∃ b, (σ.server s).heap[p]? = some b ∧
      (∀ k, k ∈ b.votes ↔ 1 ≤ k ∧ k ≤ cfg.clientCount) ∧
      (∀ (k : ℕ) v, b.votes[k]? = some v → v.voterId = k ∧ v.blockId = b.header.id ∧
        (∃ share, v.sigShare = some share ∧ share.signerIndex = k) ∧
        CastBy crypto cfg.clientCount k b.header.id v) ∧
      ∃ sig, b.mergeVotes crypto.merge cfg.clientCount = .ok { b with tssSig := some sig }) ∧
    ((σ.server s).merge = .popped p → 1 ≤ s → s ≤ cfg.serverCount → ∀ now,
      ∃ σ' b', step cfg crypto σ (.server s (.mergeCommit now)) = some σ' ∧
        (σ'.server s).committedBlks[b'.header.id]? = some p ∧
        (σ'.server s).heap[p]? = some b' ∧ b'.tssSig.isSome) := by
  obtain ⟨b, hb, hv, hn⟩ := merging_votes h hp
  obtain ⟨sig, hm⟩ := mergeVotes_of_honest hv hn
  refine ⟨⟨b, hb, ?_, ?_, sig, hm⟩, fun hpop h1 h2 now => ?_⟩
  · refine Tally.mem_iff_of_size_le (fun k hk => ?_) hn
    obtain ⟨v, hkv⟩ := Option.isSome_iff_exists.mp (ExtTreeMap.mem_iff_isSome_getElem?.mp hk)
    exact ⟨(hv k v hkv).1, (hv k v hkv).2.1⟩
  · intro k v hkv
    obtain ⟨-, -, block, hid, rfl⟩ := hv k v hkv
    exact ⟨rfl, hid, ⟨_, rfl, rfl⟩, block, hid, rfl⟩
  · refine ⟨σ.setServer s ((σ.server s).committedState p now { b with tssSig := some sig }),
      Block.stampCommit { b with tssSig := some sig } now, ?_, ?_, ?_, rfl⟩
    · simp [step, h1, h2, Server.act, hpop, hb, Server.mergeCommit, hm, State.addCall]
    · simp [Server.committedState, Block.stampCommit]
    · simp [Server.committedState, Server.modifyBlock, hb]

/-- In the round, server 1 has the block in its merge queue once both clients have voted. -/
theorem local_commit_signed_round :
    ∃ σ p, Reachable sampleConfig Crypto.symbolic honest σ ∧ p ∈ (σ.server 1).pbMergeQueue ∧
      ∃ b, (σ.server 1).heap[p]? = some b ∧ (∀ k, k ∈ b.votes ↔ 1 ≤ k ∧ k ≤ 2) ∧
        ∃ sig, b.mergeVotes Crypto.symbolic.merge 2 = .ok { b with tssSig := some sig } := by
  obtain ⟨σ, hr, hσ⟩ := exists_reachable sampleConfig Crypto.symbolic honest
    (Script.round.take 60) (fun σ => (σ.server 1).pbMergeQueue == [0]) (by decide +kernel)
  rw [beq_iff_eq] at hσ
  have hp : 0 ∈ (σ.server 1).pbMergeQueue := by rw [hσ]; exact List.mem_singleton_self 0
  obtain ⟨⟨b, hb, hk, -, hm⟩, -⟩ := local_commit_signed _ _ σ hr 1 0 (.inl hp)
  exact ⟨σ, 0, hr, hp, b, hb, hk, hm⟩

end TomChain
