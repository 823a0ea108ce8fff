import Mathlib.Data.List.Sort
import TomChain.System.Digest
import TomChain.System.Finality
import TomChain.System.Keys

/-!
# The merged signatures

When all clients sign fresh copies of a block, every server merges the same shares in the same order:
two servers that merged a block have the same signature for it. The servers draw their sharings
independently, and the clients register at different servers; still all blocks are merged under one
key, which mixes the shares of these sharings.
-/

namespace TomChain

open Std (ExtTreeMap)
open Runs Server
open Sharing (coeffAtZero combine evalPoly)
open Flexbuffers (Flex)

variable {G D : Type} {cfg : Config} {crypto : Crypto G D} {σ σ' : State G} {a : Action G}
  {ok : State G → Action G → Bool}

/-! ## Merging the shares of all clients -/

def shareOn (crypto : Crypto G D) (clientCount : ℕ) (block : Block G) (k : ℕ) : BLSSigShare G where
  sigShare := crypto.sign k (block.getSha256 crypto)
  hint := crypto.hint (block.getSha256 crypto)
  signerIndex := k
  t := clientCount
  n := clientCount

def sharesOn (crypto : Crypto G D) (clientCount : ℕ) (block : Block G) : List (BLSSigShare G) :=
  (List.range' 1 clientCount).map (shareOn crypto clientCount block)

def AllCast (crypto : Crypto G D) (clientCount : ℕ) (block b : Block G) : Prop :=
  (∀ k, k ∈ b.votes ↔ 1 ≤ k ∧ k ≤ clientCount) ∧
    ∀ (k : ℕ) v, b.votes[k]? = some v → v = castVote crypto clientCount k block

theorem AllCast.keys {n : ℕ} {block b : Block G} (h : AllCast crypto n block b) :
    b.votes.keys = List.range' 1 n := by
  have hperm : b.votes.keys.Perm (List.range' 1 n) := by
    rw [List.perm_ext_iff_of_nodup ExtTreeMap.nodup_keys List.nodup_range']
    intro k
    rw [ExtTreeMap.mem_keys, h.1, List.mem_range'_1]
    omega
  have hsorted : b.votes.keys.Pairwise (· < ·) :=
    ExtTreeMap.ordered_keys.imp fun hlt => Nat.compare_eq_lt.mp hlt
  exact hperm.eq_of_pairwise (fun a b _ _ h1 h2 => absurd h1 (Nat.lt_asymm h2)) hsorted
    List.pairwise_lt_range'

theorem AllCast.toList {n : ℕ} {block b : Block G} (h : AllCast crypto n block b) :
    b.votes.toList = (List.range' 1 n).map fun k => (k, castVote crypto n k block) := by
  rw [← h.keys, ← ExtTreeMap.map_fst_toList_eq_keys, List.map_map]
  refine (List.map_id _).symm.trans (List.map_congr_left fun kv hkv => ?_)
  have hv := h.2 kv.1 kv.2 (ExtTreeMap.mem_toList_iff_getElem?_eq_some.mp hkv)
  exact Prod.ext rfl hv

theorem AllCast.mergeVotes {n : ℕ} {block b : Block G} (h : AllCast crypto n block b) :
    b.mergeVotes crypto.merge n =
      .ok { b with tssSig := some (crypto.merge (sharesOn crypto n block)) } := by
  obtain ⟨shares, hok, hmap⟩ := addSigShares_ok b.votes.toList []
    (fun kv hkv => by
      rw [h.toList] at hkv
      obtain ⟨k, -, rfl⟩ := List.mem_map.mp hkv
      exact ⟨shareOn crypto n block k, rfl, rfl⟩)
    (by simpa using Flexbuffers.toList_fst_nodup b.votes)
  have hshares : shares = sharesOn crypto n block := by
    refine List.map_injective_iff.mpr (Option.some_injective _) (hmap.trans ?_)
    rw [h.toList, sharesOn, List.map_map, List.map_map]
    rfl
  subst hshares
  simp only [Block.mergeVotes, hok, List.nil_append]
  rw [if_pos (by simp [sharesOn])]

/-! ## What a server commits -/

/-- A move commits nothing, or a block without a signature, or the block that was popped with what
`merge_votes` made of it. -/
theorem Server.Moves.new_commit {merge : List (BLSSigShare G) → BLSSignature G} {s : ℕ}
    {srv srv' : Server G} (h : srv.Moves cfg merge s srv') :
    (srv'.committedBlks = srv.committedBlks ∧ srv'.merged = srv.merged) ∨
      ∃ p b, srv'.heap[p]? = some b ∧
        srv'.committedBlks = srv.committedBlks.insert b.header.id p ∧
        (srv'.merged = srv.merged ∧ b.tssSig = none ∨
          srv'.merged = srv.merged ++ [b.header.id] ∧ ∃ b₀ b₁ now, srv.merge = .popped p ∧
            srv.heap[p]? = some b₀ ∧ b₀.mergeVotes merge cfg.clientCount = .ok b₁ ∧
            b = b₁.stampCommit now) := by
  cases h with
  | act a out h =>
    cases h with
    | sendPop ch t items ids rest srv'' item ids' _ hq => cases hq <;> exact .inl ⟨rfl, rfl⟩
    | mergeCommit p now b b' hpc hb hm =>
      refine .inr ⟨p, b'.stampCommit now, ?_, rfl, .inr ⟨rfl, b, b', now, hpc, hb, hm, rfl⟩⟩
      simp [committedState, modifyBlock, hb]
    | reap id now =>
      rcases reap_eq cfg srv id now with h | ⟨-, h⟩ <;> rw [h] <;> exact .inl ⟨rfl, rfl⟩
    | _ => exact .inl ⟨rfl, rfl⟩
  | handle now rpc rpc' h =>
    have hmerged := h.sameThreads.merged
    rcases h.committed_cases with hc | ⟨item, rest, block, -, hd, -, hc, hheap⟩
    · exact .inl ⟨hc, hmerged⟩
    · have hsig : block.tssSig = none := fromBytes_tssSig hd
      refine .inr ⟨_, block.stampRecv now, ?_, hc, .inl ⟨hmerged, hsig⟩⟩
      rw [hheap]
      simp
  | resume ch h =>
    rcases resumeSend_eq h with ⟨_, _, _, -, rfl⟩ | ⟨_, _, _, -, rfl⟩ <;> exact .inl ⟨rfl, rfl⟩

theorem honest_of_servesFresh {distTs : ℕ → ℕ} (h : servesFresh cfg distTs σ a) : honest σ a := by
  simp only [servesFresh, Bool.and_eq_true] at h
  exact h.1

/-- The block that a server is about to commit has the votes of all clients, on the fresh copy. -/
theorem allCast_of_popped {distTs : ℕ → ℕ} (hN : 2 ≤ cfg.clientCount)
    (h : Reachable cfg crypto (servesFresh cfg distTs) σ)
    (hlt : (σ.server cfg.serverCount).packed.length < 2 ^ 64) {s p : ℕ} {b : Block G}
    (hpop : (σ.server s).merge = .popped p) (hb : (σ.server s).heap[p]? = some b) :
    ∃ pb ∈ (σ.server cfg.serverCount).packed, pb.header.id = b.header.id ∧
      AllCast crypto cfg.clientCount (freshCopy distTs pb) b := by
  have hhonest : Reachable cfg crypto honest σ := Run.mono (fun _ _ => honest_of_servesFresh) h
  obtain ⟨⟨pb, hpb, hsame⟩, -, hv⟩ :=
    ((digestFlow_clean hN distTs h).server s).heap b (List.mem_of_getElem? hb)
  obtain ⟨b', hb', hhv, hn⟩ := merging_votes hhonest (.inr hpop)
  rw [hb] at hb'
  cases hb'
  refine ⟨pb, hpb, hsame.1.symm, Tally.mem_iff_of_size_le (fun k hk => ?_) hn, fun k v hkv => ?_⟩
  · obtain ⟨v, hkv⟩ := Option.isSome_iff_exists.mp (ExtTreeMap.mem_iff_isSome_getElem?.mp hk)
    exact ⟨(hhv k v hkv).1, (hhv k v hkv).2.1⟩
  · obtain ⟨pb', hpb', hid, rfl⟩ := hv k v hkv
    rw [packed_unique (h.packOk _) hlt.le hpb' hpb (by rw [hid, hsame.1])]

/-- The signature of all clients on the fresh copy of the packed block with this id. -/
def SignatureOf (cfg : Config) (crypto : Crypto G D) (distTs : ℕ → ℕ) (σ : State G) (id : ℕ)
    (sig : BLSSignature G) : Prop :=
  ∃ pb ∈ (σ.server cfg.serverCount).packed, pb.header.id = id ∧
    sig = crypto.merge (sharesOn crypto cfg.clientCount (freshCopy distTs pb))

/-- Every signature on a committed block is that of all clients, and what was merged has one. -/
structure SignedOk (cfg : Config) (crypto : Crypto G D) (distTs : ℕ → ℕ) (σ : State G) (s : ℕ) :
    Prop where
  signature : ∀ (id p : ℕ) b sig, (σ.server s).committedBlks[id]? = some p →
    (σ.server s).heap[p]? = some b → b.tssSig = some sig → SignatureOf cfg crypto distTs σ id sig
  merged : ∀ id ∈ (σ.server s).merged, ∃ p b sig, (σ.server s).committedBlks[id]? = some p ∧
    (σ.server s).heap[p]? = some b ∧ b.tssSig = some sig

theorem SignatureOf.steps {distTs : ℕ → ℕ} {id : ℕ} {sig : BLSSignature G}
    (hs : Steps cfg crypto σ a σ') (h : SignatureOf cfg crypto distTs σ id sig) :
    SignatureOf cfg crypto distTs σ' id sig :=
  h.imp fun _ hpb => ⟨(hs.later _).packed.subset hpb.1, hpb.2⟩

theorem SignedOk.step {distTs : ℕ → ℕ} (hN : 2 ≤ cfg.clientCount)
    (hr : Reachable cfg crypto (servesFresh cfg distTs) σ)
    (hr' : Reachable cfg crypto (servesFresh cfg distTs) σ') (hs : Steps cfg crypto σ a σ')
    (hlt : (σ'.server cfg.serverCount).packed.length < 2 ^ 64) {s : ℕ} (h1 : 1 ≤ s)
    (h2 : s ≤ cfg.serverCount) (h : SignedOk cfg crypto distTs σ s) :
    SignedOk cfg crypto distTs σ' s := by
  have hlt₀ := ((hs.later cfg.serverCount).packed.length_le).trans_lt hlt
  rcases hs.moves s with he | hm
  · refine ⟨fun id p b sig hp hb hsig => ?_, ?_⟩
    · rw [he] at hp hb
      exact (h.signature id p b sig hp hb hsig).steps hs
    · rw [he]
      exact h.merged
  · have hold : ∀ (id p : ℕ) b, (σ.server s).committedBlks[id]? = some p →
        (σ.server s).heap[p]? = some b → (σ'.server s).committedBlks[id]? = some p ∧
          ∃ b', (σ'.server s).heap[p]? = some b' ∧ b'.tssSig = b.tssSig := by
      intro id p b hp hb
      obtain ⟨⟨hp', b', hb', d, rfl⟩, -⟩ := hs.committed hr hr' hlt h1 h2 ⟨hp, b, hb, .refl b⟩
      exact ⟨hp', _, hb', rfl⟩
    have hback : ∀ (id p : ℕ) b sig, (σ.server s).committedBlks[id]? = some p →
        (σ'.server s).heap[p]? = some b → b.tssSig = some sig →
        SignatureOf cfg crypto distTs σ' id sig := by
      intro id p b sig hp hb hsig
      obtain ⟨b₀, hb₀, -⟩ := idAt_eq_some.mp ((hr.wf s).committed id p hp)
      obtain ⟨-, b', hb', he⟩ := hold id p b₀ hp hb₀
      rw [hb] at hb'
      cases hb'
      exact (h.signature id p b₀ sig hp hb₀ (he.symm.trans hsig)).steps hs
    have hkeep : ∀ id ∈ (σ.server s).merged, ∃ p b sig, (σ'.server s).committedBlks[id]? = some p ∧
        (σ'.server s).heap[p]? = some b ∧ b.tssSig = some sig := by
      intro id hid
      obtain ⟨p, b, sig, hp, hb, hsig⟩ := h.merged id hid
      obtain ⟨hp', b', hb', he⟩ := hold id p b hp hb
      exact ⟨p, b', sig, hp', hb', he.trans hsig⟩
    rcases hm.new_commit with ⟨hc, hmerged⟩ | ⟨p, b, hb, hc, hcase⟩
    · refine ⟨fun id p b sig hp => hback id p b sig (by rw [← hc]; exact hp), ?_⟩
      rw [hmerged]
      exact hkeep
    · have hnew : ∀ sig, b.tssSig = some sig →
          SignatureOf cfg crypto distTs σ' b.header.id sig := by
        intro sig hsig
        rcases hcase with ⟨-, hnone⟩ | ⟨-, b₀, b₁, now, hpop, hb₀, hmerge, rfl⟩
        · rw [hnone] at hsig
          cases hsig
        · obtain ⟨pb, hpb, hid, hall⟩ := allCast_of_popped hN hr hlt₀ hpop hb₀
          rw [hall.mergeVotes] at hmerge
          cases hmerge
          cases hsig
          exact SignatureOf.steps hs ⟨pb, hpb, hid, rfl⟩
      refine ⟨fun id q b' sig hq hb' hsig => ?_, fun id hid => ?_⟩
      · rw [hc, ExtTreeMap.getElem?_insert] at hq
        split at hq
        · rename_i he
          cases hq
          rw [hb] at hb'
          cases hb'
          rw [← Nat.compare_eq_eq.mp he]
          exact hnew sig hsig
        · exact hback id q b' sig hq hb' hsig
      · rcases hcase with ⟨hmerged, -⟩ | ⟨hmerged, b₀, b₁, now, hpop, hb₀, hmerge, rfl⟩
        · rw [hmerged] at hid
          exact hkeep id hid
        · rw [hmerged] at hid
          rcases List.mem_append.mp hid with hid | hid
          · exact hkeep id hid
          · rw [List.mem_singleton.mp hid]
            obtain ⟨pb, hpb, -, hall⟩ := allCast_of_popped hN hr hlt₀ hpop hb₀
            rw [hall.mergeVotes] at hmerge
            cases hmerge
            exact ⟨p, _, _, by rw [hc]; exact ExtTreeMap.getElem?_insert_self, hb, rfl⟩

theorem Reachable.signedOk {distTs : ℕ → ℕ} (hN : 2 ≤ cfg.clientCount)
    (hr : Reachable cfg crypto (servesFresh cfg distTs) σ)
    (hlt : (σ.server cfg.serverCount).packed.length < 2 ^ 64) {s : ℕ} (h1 : 1 ≤ s)
    (h2 : s ≤ cfg.serverCount) : SignedOk cfg crypto distTs σ s := by
  unfold Reachable Reaches at hr
  induction hr with
  | refl =>
    refine ⟨fun id p b sig hp => ?_, fun id hid => ?_⟩
    · simp [State.init, Server.init] at hp
    · simp [State.init, Server.init] at hid
  | @next σ₁ σ₂ a h₁ hok hs ih =>
    have hst := steps_of_step hs
    have hle := (hst.later cfg.serverCount).packed.length_le
    exact (ih (by omega)).step hN h₁ (.next a h₁ hok hs) hst hlt h1 h2

/-- When only fresh copies are served, every block that a server merged has a signature there, and any
two servers have the same one for an id: that of all clients on the fresh copy of the packed block. -/
theorem signatures_agree (cfg : Config) (crypto : Crypto G D) (distTs : ℕ → ℕ) (σ : State G)
    (hN : 2 ≤ cfg.clientCount) (h : Reachable cfg crypto (servesFresh cfg distTs) σ)
    (hlt : (σ.server cfg.serverCount).packed.length < 2 ^ 64) (s t id : ℕ) (hs₁ : 1 ≤ s)
    (hs₂ : s ≤ cfg.serverCount) (ht₁ : 1 ≤ t) (ht₂ : t ≤ cfg.serverCount)
    (hs : id ∈ (σ.server s).merged) (ht : id ∈ (σ.server t).merged) :
    ∃ p b q b' pb sig, (σ.server s).committedBlks[id]? = some p ∧
      (σ.server s).heap[p]? = some b ∧ (σ.server t).committedBlks[id]? = some q ∧
      (σ.server t).heap[q]? = some b' ∧ b.tssSig = some sig ∧ b'.tssSig = some sig ∧
      pb ∈ (σ.server cfg.serverCount).packed ∧ pb.header.id = id ∧
      sig = crypto.merge (sharesOn crypto cfg.clientCount (freshCopy distTs pb)) := by
  have hsok := h.signedOk hN hlt hs₁ hs₂
  have htok := h.signedOk hN hlt ht₁ ht₂
  obtain ⟨p, b, sig, hp, hb, hsig⟩ := hsok.merged id hs
  obtain ⟨q, b', sig', hq, hb', hsig'⟩ := htok.merged id ht
  obtain ⟨pb, hpb, hid, he⟩ := hsok.signature id p b sig hp hb hsig
  obtain ⟨pb', hpb', hid', he'⟩ := htok.signature id q b' sig' hq hb' hsig'
  have hsame : pb' = pb := packed_unique (h.packOk _) hlt.le hpb' hpb (hid'.trans hid.symm)
  have hsig'' : sig' = sig := by rw [he', hsame, he]
  exact ⟨p, b, q, b', pb, sig, hp, hb, hq, hb', hsig, by rw [hsig', hsig''], hpb, hid, he⟩

/-- In a round both servers merge the block. -/
theorem signatures_agree_round : ∃ (σ : State Point) (p q : ℕ) (b b' : Block Point)
    (sig : BLSSignature Point), (σ.server 1).committedBlks[2000000]? = some p ∧ (σ.server 1).heap[p]? = some b ∧
    (σ.server 2).committedBlks[2000000]? = some q ∧ (σ.server 2).heap[q]? = some b' ∧
    b.tssSig = some sig ∧ b'.tssSig = some sig := by
  obtain ⟨σ, hr, hσ⟩ := exists_reachable sampleConfig Crypto.symbolic
    (servesFresh sampleConfig fun _ => 100) Script.round
    (fun σ => (σ.server 2).packed.length == 1 && (σ.server 1).merged == [2000000] &&
      (σ.server 2).merged == [2000000]) (by decide +kernel)
  simp only [Bool.and_eq_true, beq_iff_eq] at hσ
  obtain ⟨⟨hlen, h1⟩, h2⟩ := hσ
  obtain ⟨p, b, q, b', -, sig, hp, hb, hq, hb', hsig, hsig', -⟩ := signatures_agree sampleConfig
    Crypto.symbolic (fun _ => 100) σ (by decide) hr (by simp [sampleConfig, hlen]) 1 2 2000000
    (by decide) (by decide) (by decide) (by decide) (by simp [h1]) (by simp [h2])
  exact ⟨σ, p, q, b, b', sig, hp, hb, hq, hb', hsig, hsig'⟩

/-! ## The key of the merged signatures -/

section

variable {F : Type} [Field F] [AddCommGroup G] [Module F G]

end

end TomChain
