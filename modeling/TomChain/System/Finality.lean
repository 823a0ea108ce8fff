import TomChain.System.Ledger
import TomChain.System.Store
import TomChain.System.Transit

/-!
# The two ends of a block

A block leaves a server's hands in one of two ways, and neither is taken back. A committed block
keeps its address, its content, its votes, its signature, the times of its commit and its database
record; pulls that are late may still stamp the distribution time. A block that was reaped is
ignored for ever, also when its votes or a commit of it arrive.
-/

namespace TomChain

open Std (ExtTreeMap ExtTreeSet)
open Runs Server
open Flexbuffers (Flex)

variable {G D : Type} {cfg : Config} {crypto : Crypto G D} {σ σ' : State G} {a : Action G}
  {ok : State G → Action G → Bool}

/-- `b'` is `b`, perhaps with another distribution time. -/
def Block.SameButDist (b b' : Block G) : Prop :=
  ∃ d, b' = { b with header := { b.header with distTs := d } }

theorem Block.SameButDist.refl (b : Block G) : b.SameButDist b := ⟨b.header.distTs, rfl⟩

theorem Block.SameButDist.trans {b b' b'' : Block G} (h : b.SameButDist b')
    (h' : b'.SameButDist b'') : b.SameButDist b'' := by
  obtain ⟨d, rfl⟩ := h
  obtain ⟨d', rfl⟩ := h'
  exact ⟨d', rfl⟩

namespace Server

variable {merge : List (BLSSigShare G) → BLSSignature G} {s : ℕ} {srv srv' : Server G}

/-- The committed block `id` is at address `p`, and it is `b` but for the distribution time. -/
structure HasCommitted (srv : Server G) (id p : ℕ) (b : Block G) : Prop where
  pointer : srv.committedBlks[id]? = some p
  block : ∃ b', srv.heap[p]? = some b' ∧ b.SameButDist b'

theorem HasCommitted.moves (hap : srv.Apart) {id p : ℕ} {b : Block G} (hc : srv.HasCommitted id p b)
    (h : srv.Moves cfg merge s srv') (hcount : srv'.commits.count id = srv.commits.count id) :
    srv'.HasCommitted id p b := by
  obtain ⟨hp, b', hb', hsame⟩ := hc
  refine ⟨(h.committed hp).resolve_right (by omega), ?_⟩
  obtain ⟨d, hd⟩ := h.committed_at hap hp hb'
  exact ⟨_, hd, hsame.trans ⟨d, rfl⟩⟩

/-- A move writes nothing to the database, or the record of the block that it commits. -/
theorem Moves.db_cases (h : srv.Moves cfg merge s srv') :
    srv'.db = srv.db ∨ ∃ id v, srv'.commits = srv.commits ++ [id] ∧
      srv'.db = srv.db.insert (blockName id) v := by
  cases h with
  | act a out h =>
    cases h with
    | sendPop ch t items ids rest srv'' item ids' _ hq => cases hq <;> exact .inl rfl
    | mergeCommit => exact .inr ⟨_, _, rfl, rfl⟩
    | reap id now =>
      rcases reap_eq cfg srv id now with h | ⟨-, h⟩ <;> rw [h] <;> exact .inl rfl
    | _ => exact .inl rfl
  | handle now rpc rpc' h =>
    cases h with
    | relayVote item rest vote _ =>
      unfold relayVoteItem
      split
      · exact .inl rfl
      · exact .inl (records_recordVote ..).store.2
    | spBcastCommit item rest block _ =>
      unfold spBcastCommitItem
      dsimp only
      split
      · by_cases hdb : cfg.useRocksdb = true
        · exact .inr ⟨block.header.id, _, rfl, if_pos hdb⟩
        · exact .inl (if_neg hdb)
      · exact .inl rfl
    | pullItem id blockId p todo pbHdrs b _ hdrs hb hi =>
      rcases pullItem_eq hi with ⟨rfl, -⟩ | ⟨-, -, clients, rfl⟩ <;> exact .inl rfl
    | record => exact .inl (records_recordVote ..).store.2
    | voteBlocks id item rest block _ current _ hi =>
      obtain ⟨queues, rfl⟩ := voteBlocksItem_eq hi
      exact .inl rfl
    | _ => exact .inl rfl
  | resume ch h => rcases resumeSend_eq h with ⟨_, _, _, -, rfl⟩ | ⟨_, _, _, -, rfl⟩ <;> exact .inl rfl

theorem Moves.db_record (h : srv.Moves cfg merge s srv') {id : ℕ}
    (hcount : srv'.commits.count id = srv.commits.count id) :
    srv'.db[blockName id]? = srv.db[blockName id]? := by
  rcases h.db_cases with he | ⟨id', v, hc, he⟩
  · rw [he]
  · rw [he, ExtTreeMap.getElem?_insert]
    split
    · rename_i hkey
      have hid : id' = id := blockName_injective (by simpa using hkey)
      subst hid
      rw [hc, List.count_append, List.count_singleton_self] at hcount
      omega
    · rfl

theorem Moves.deadBlock (h : srv.Moves cfg merge s srv') {id : ℕ} (hd : id ∈ srv.deadBlock) :
    id ∈ srv'.deadBlock := by
  cases h with
  | act a out h =>
    cases h with
    | sendPop ch t items ids rest srv'' item ids' _ hq => cases hq <;> exact hd
    | reap id' now =>
      rcases reap_eq cfg srv id' now with h | ⟨-, h⟩
      · rw [h]; exact hd
      · rw [h]; exact ExtTreeSet.mem_insert.mpr (.inr hd)
    | _ => exact hd
  | handle now rpc rpc' h =>
    rw [h.deadBlock]
    exact hd
  | resume ch h => rcases resumeSend_eq h with ⟨_, _, _, -, rfl⟩ | ⟨_, _, _, -, rfl⟩ <;> exact hd

end Server

/-! ## Along a run -/

theorem Reachable.commits_count_le_one (hr : Reachable cfg crypto ok σ)
    (hlt : (σ.server cfg.serverCount).packed.length < 2 ^ 64) {s : ℕ} (h1 : 1 ≤ s)
    (h2 : s ≤ cfg.serverCount) (id : ℕ) : (σ.server s).commits.count id ≤ 1 := by
  have hocc := ((hr.life s) id).1.trans (stored_count_le_one hr hlt h1 h2 id)
  have hf : (σ.server s).life.finished.count id = (σ.server s).commits.count id := rfl
  unfold Stations.occ at hocc
  omega

theorem Steps.committed (hr : Reachable cfg crypto ok σ) (hr' : Reachable cfg crypto ok σ')
    (hs : Steps cfg crypto σ a σ') (hlt : (σ'.server cfg.serverCount).packed.length < 2 ^ 64)
    {s : ℕ} (h1 : 1 ≤ s) (h2 : s ≤ cfg.serverCount) {id p : ℕ} {b : Block G}
    (hc : (σ.server s).HasCommitted id p b) : (σ'.server s).HasCommitted id p b ∧
      (σ'.server s).db[blockName id]? = (σ.server s).db[blockName id]? := by
  rcases hs.moves s with he | hm
  · rw [he]
    exact ⟨hc, rfl⟩
  · have hmem : id ∈ (σ.server s).committedBlks :=
      ExtTreeMap.mem_iff_isSome_getElem?.mpr (by rw [hc.pointer]; rfl)
    have hpos := List.count_pos_iff.mpr ((hr.commitsOk s id).mp hmem)
    have hle := (hs.later s).commits.sublist.count_le id
    have hone := hr'.commits_count_le_one hlt h1 h2 id
    have hcount : (σ'.server s).commits.count id = (σ.server s).commits.count id := by omega
    exact ⟨hc.moves (hr.apart s) hm hcount, hm.db_record hcount⟩

theorem Reaches.committed (hr : Reachable cfg crypto ok σ) (h : Reaches cfg crypto ok σ σ')
    (hlt : (σ'.server cfg.serverCount).packed.length < 2 ^ 64) {s : ℕ} (h1 : 1 ≤ s)
    (h2 : s ≤ cfg.serverCount) {id p : ℕ} {b : Block G} (hc : (σ.server s).HasCommitted id p b) :
    (σ'.server s).HasCommitted id p b ∧
      (σ'.server s).db[blockName id]? = (σ.server s).db[blockName id]? := by
  induction h with
  | refl => exact ⟨hc, rfl⟩
  | @next σ₁ σ₂ a h₁ hok hs ih =>
    have hst := steps_of_step hs
    have hr₁ : Reachable cfg crypto ok σ₁ := Run.trans hr h₁
    have hlen := (hst.later cfg.serverCount).packed.length_le
    obtain ⟨hc₁, hdb₁⟩ := ih (by omega)
    obtain ⟨hc₂, hdb₂⟩ := hst.committed hr₁ (.next a hr₁ hok hs) hlt h1 h2 hc₁
    exact ⟨hc₂, hdb₂.trans hdb₁⟩

/-- Every record of the database is of a block that was committed. -/
theorem Reachable.db_committed (hr : Reachable cfg crypto ok σ) (s : ℕ) {id : ℕ}
    (h : blockName id ∈ (σ.server s).db) : id ∈ (σ.server s).commits := by
  revert h
  refine hr.server_invariant (fun _ srv => blockName id ∈ srv.db → id ∈ srv.commits)
    (fun s h => absurd h (by simp [Server.init])) (fun s srv srv' ih hm h => ?_) s
  rcases hm.db_cases with he | ⟨id', v, hc, he⟩
  · rw [he] at h
    exact hm.later.commits.subset (ih h)
  · rw [he] at h
    rcases ExtTreeMap.mem_insert.mp h with hkey | h
    · have hid : id' = id := blockName_injective (by simpa using hkey)
      rw [hc, hid]
      exact List.mem_append_right _ (List.mem_singleton_self id)
    · exact hm.later.commits.subset (ih h)

theorem Reaches.deadBlock (h : Reaches cfg crypto ok σ σ') {s id : ℕ}
    (hd : id ∈ (σ.server s).deadBlock) : id ∈ (σ'.server s).deadBlock := by
  induction h with
  | refl => exact hd
  | next a _ _ hs ih =>
    rcases (steps_of_step hs).moves s with he | hm
    · rw [he]; exact ih
    · exact hm.deadBlock ih

/-- A committed block stays, at its address and with its record, and nothing of it changes but the
distribution time. -/
theorem committed_final (cfg : Config) (crypto : Crypto G D) (σ σ' : State G)
    (hr : Reachable cfg crypto unguarded σ) (h : Reaches cfg crypto unguarded σ σ')
    (hlt : (σ'.server cfg.serverCount).packed.length < 2 ^ 64) (s id p : ℕ) (b : Block G)
    (hs₁ : 1 ≤ s) (hs₂ : s ≤ cfg.serverCount) (hp : (σ.server s).committedBlks[id]? = some p)
    (hb : (σ.server s).heap[p]? = some b) :
    (σ'.server s).committedBlks[id]? = some p ∧
      (∃ d, (σ'.server s).heap[p]? = some { b with header := { b.header with distTs := d } }) ∧
      (σ'.server s).db[blockName id]? = (σ.server s).db[blockName id]? ∧
      id ∉ (σ'.server s).pendingBlks ∧ id ∉ (σ'.server s).mergingIds ∧
      id ∉ (σ'.server s).deadBlock := by
  obtain ⟨⟨hp', b', hb', d, rfl⟩, hdb⟩ := h.committed hr hlt hs₁ hs₂ ⟨hp, b, hb, .refl b⟩
  have hone := Reachable.places_le_one (Run.trans hr h) hlt hs₁ hs₂ id
  have hmem : id ∈ (σ'.server s).committedBlks :=
    ExtTreeMap.mem_iff_isSome_getElem?.mpr (by rw [hp']; rfl)
  rw [Server.places, if_pos hmem] at hone
  refine ⟨hp', ⟨d, hb'⟩, hdb, fun hm => ?_, fun hm => ?_, fun hm => ?_⟩
  · rw [if_pos hm] at hone
    omega
  · have := List.count_pos_iff.mpr hm
    omega
  · rw [if_pos hm] at hone
    omega

/-- Server 1 has merged and committed its block; what both servers do after that leaves it alone. -/
theorem committed_final_round : ∃ (σ σ' : State Point) (b : Block Point),
    Reachable sampleConfig Crypto.symbolic unguarded σ ∧
    Reaches sampleConfig Crypto.symbolic unguarded σ σ' ∧
    (σ.server 1).committedBlks[2000000]? = some 0 ∧ (σ.server 1).heap[0]? = some b ∧
    2000000 ∉ (σ.server 2).committedBlks ∧ 2000000 ∈ (σ'.server 2).committedBlks ∧
    (σ'.server 1).committedBlks[2000000]? = some 0 ∧
    ∃ d, (σ'.server 1).heap[0]? = some { b with header := { b.header with distTs := d } } := by
  obtain ⟨σ, hr, hσ⟩ := exists_reachable sampleConfig Crypto.symbolic unguarded
    (Script.round.take 78) (fun σ => (σ.server 1).committedBlks[2000000]? == some 0 &&
      ((σ.server 1).heap[0]?).isSome && !(σ.server 2).committedBlks.contains 2000000 &&
      (exec (step sampleConfig Crypto.symbolic) unguarded σ (Script.round.drop 78)).any fun σ' =>
        (σ'.server 2).packed.length == 1 && (σ'.server 2).committedBlks.contains 2000000)
    (by decide +kernel)
  simp only [Bool.and_eq_true, beq_iff_eq, Option.isSome_iff_exists, Bool.not_eq_true',
    ← Bool.not_eq_true, ExtTreeMap.contains_iff_mem] at hσ
  obtain ⟨⟨⟨hp, b, hb⟩, hno⟩, hex⟩ := hσ
  obtain ⟨σ', h, hσ'⟩ := Run.exists_of_exec (fun _ _ h => h) hex
  simp only [Bool.and_eq_true, beq_iff_eq, ExtTreeMap.contains_iff_mem] at hσ'
  obtain ⟨hp', hb', -⟩ := committed_final sampleConfig Crypto.symbolic σ σ' hr h
    (by simp [sampleConfig, hσ'.1]) 1 2000000 0 b (by decide) (by decide) hp hb
  exact ⟨σ, σ', b, hr, h, hp, hb, hno, hσ'.2, hp', hb'⟩

/-- A server never commits, merges or holds a block again that it has reaped. -/
theorem reaped_final (cfg : Config) (crypto : Crypto G D) (σ σ' : State G)
    (hr : Reachable cfg crypto unguarded σ) (h : Reaches cfg crypto unguarded σ σ')
    (hlt : (σ'.server cfg.serverCount).packed.length < 2 ^ 64) (s id : ℕ) (hs₁ : 1 ≤ s)
    (hs₂ : s ≤ cfg.serverCount) (hd : id ∈ (σ.server s).deadBlock) :
    id ∉ (σ'.server s).committedBlks ∧ id ∉ (σ'.server s).mergingIds ∧
      id ∉ (σ'.server s).pendingBlks ∧ (σ'.server s).db[blockName id]? = none := by
  have hr' : Reachable cfg crypto unguarded σ' := Run.trans hr h
  have hone := hr'.places_le_one hlt hs₁ hs₂ id
  rw [Server.places, if_pos (h.deadBlock hd)] at hone
  have hcommitted : id ∉ (σ'.server s).committedBlks := by
    intro hm
    rw [if_pos hm] at hone
    omega
  refine ⟨hcommitted, fun hm => ?_, fun hm => ?_, ?_⟩
  · have := List.count_pos_iff.mpr hm
    omega
  · rw [if_pos hm] at hone
    omega
  · exact ExtTreeMap.getElem?_eq_none fun hm =>
      hcommitted ((hr'.commitsOk s id).mpr (hr'.db_committed s hm))

namespace Script

def shortLived : Config := { sampleConfig with blockDieThreshold := 1000 }

/-- Server 1 has the labelled block and reaps it, 1950 ms after it was proposed. -/
def reaped : List (Action Point) :=
  packBlock ++ [.server 2 .packInsert] ++ relay 2 .block 1 ++ sync ++
    ([.server 1 (.reap 2000000 2000)] : List (Action Point))

/-- Both clients find the block on server 2 and vote. Server 1 ignores the votes it gets directly,
those that server 2 relays to it and the commit that server 2 broadcasts. -/
def outvoted : List (Action Point) :=
  ([.client 1 (.pull []), .handle 0 100 [], .ret 0, .client 1 (.pull []),
    .handle 0 100 [(2000000, 0)], .handle 0 100 [], .ret 0, .client 1 (.pull [2000000]),
    .handle 0 100 [], .ret 0, .client 1 (.pull [2000000]), .handle 0 100 [], .ret 0] :
      List (Action Point)) ++
    ([.client 2 (.pull []), .handle 0 100 [(2000000, 0)], .handle 0 100 [], .ret 0,
      .client 2 (.pull []), .handle 0 100 [], .ret 0, .client 2 (.pull [2000000]),
      .handle 0 100 [], .ret 0, .client 2 (.pull []), .ret 0] : List (Action Point)) ++
    ([.client 1 .votePop, .client 1 .voteSend, .handle 0 200 [], .ret 0, .client 1 .voteSend,
      .handle 0 200 [], .handle 0 200 [], .ret 0] : List (Action Point)) ++
    ([.client 2 .votePop, .client 2 .voteSend, .handle 0 200 [], .handle 0 200 [], .ret 0,
      .client 2 .voteSend, .handle 0 200 [], .ret 0] : List (Action Point)) ++
    relay 2 .vote 2 ++ merge 2 ++ relay 2 .commit 1

end Script

/-- In this run server 2 commits the block; server 1 does not. -/
theorem reaped_final_outvoted : ∃ σ σ' : State Point,
    Reachable Script.shortLived Crypto.symbolic unguarded σ ∧
    Reaches Script.shortLived Crypto.symbolic unguarded σ σ' ∧
    2000000 ∈ (σ.server 1).deadBlock ∧ 2000000 ∈ (σ'.server 2).committedBlks ∧
    2000000 ∉ (σ'.server 1).committedBlks ∧ 2000000 ∉ (σ'.server 1).pendingBlks := by
  obtain ⟨σ, hr, hσ⟩ := exists_reachable Script.shortLived Crypto.symbolic unguarded Script.reaped
    (fun σ => (σ.server 1).deadBlock.contains 2000000 &&
      (exec (step Script.shortLived Crypto.symbolic) unguarded σ Script.outvoted).any fun σ' =>
        (σ'.server 2).packed.length == 1 && (σ'.server 2).committedBlks.contains 2000000)
    (by decide +kernel)
  simp only [Bool.and_eq_true] at hσ
  obtain ⟨hdead, hex⟩ := hσ
  obtain ⟨σ', h, hσ'⟩ := Run.exists_of_exec (fun _ _ h => h) hex
  simp only [Bool.and_eq_true, beq_iff_eq, ExtTreeMap.contains_iff_mem] at hσ'
  rw [ExtTreeSet.contains_iff_mem] at hdead
  obtain ⟨hcommitted, -, hpending, -⟩ := reaped_final Script.shortLived Crypto.symbolic σ σ' hr h
    (by simp [Script.shortLived, sampleConfig, hσ'.1]) 1 2000000 (by decide) (by decide) hdead
  exact ⟨σ, σ', hr, h, hdead, hσ'.2, hcommitted, hpending⟩

end TomChain
