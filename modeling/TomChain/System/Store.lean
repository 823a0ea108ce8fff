import TomChain.Server.Pointers
import TomChain.System.Votes

/-!
# The database

With `use-rocksdb`, both ways to commit a block write it to RocksDB under the decimal text of its
id. The value stays what it was written as, and so does the committed block, except for the time
of its distribution: `PullPendingBlocks` may still walk through a snapshot that has it. The
threshold signature is never written.
-/

namespace TomChain

open Std (ExtTreeMap)
open Runs Server
open Flexbuffers (Flex toBytes fromBytes)

variable {G D : Type} {cfg : Config} {crypto : Crypto G D} {σ σ' : State G} {a : Action G}
  {ok : State G → Action G → Bool}

namespace Server

theorem blockName_injective : Function.Injective blockName := by
  intro id id' h
  exact Decimal.toText_injective (List.append_cancel_left h)

/-- All that the database has to say about a committed block. -/
def SameStored (b b' : Block G) : Prop :=
  b.header.id = b'.header.id ∧ b.header.baseId = b'.header.baseId ∧
    b.header.proposalTs = b'.header.proposalTs ∧ b.header.commitTs = b'.header.commitTs ∧
    b.header.recvTs = b'.header.recvTs ∧ b.txVec = b'.txVec ∧ b.votes = b'.votes

/-- The database has the committed blocks and nothing else. -/
structure Mirrors (srv : Server G) : Prop where
  keys : ∀ key, key ∈ srv.db → ∃ id, id ∈ srv.committedBlks ∧ key = blockName id
  values : ∀ id p : ℕ, srv.committedBlks[id]? = some p → ∃ b b₀, srv.heap[p]? = some b ∧
    srv.db[blockName id]? = some (toBytes b₀) ∧ SameStored b₀ b

section

variable {merge : List (BLSSigShare G) → BLSSignature G} {s : ℕ} {srv srv' : Server G}

/-- The ways a block comes to be committed: it was merged here, or received without a signature. -/
def Commits (cfg : Config) (srv srv' : Server G) : Prop :=
  ∃ p b, srv'.heap[p]? = some b ∧ srv'.committedBlks = srv.committedBlks.insert b.header.id p ∧
    (b.header.id ∈ srv'.merged ∨ b.tssSig = none) ∧
    (cfg.useRocksdb = true → srv'.db = srv.db.insert (blockName b.header.id) (toBytes b))

theorem Acts.store_cases {a : ServerAction} {out : Option (ℕ × Rpc G)}
    (h : srv.Acts cfg merge s a srv' out) :
    (srv'.committedBlks = srv.committedBlks ∧ srv'.db = srv.db) ∨ Commits cfg srv srv' := by
  cases h with
  | sendPop ch t items ids rest srv'' item ids' _ hq => cases hq <;> exact .inl ⟨rfl, rfl⟩
  | mergeCommit p now b b' hpc hb hm =>
    refine .inr ⟨p, b'.stampCommit now, ?_, rfl, .inl ?_, fun _ => rfl⟩
    · simp [committedState, modifyBlock, hb]
    · exact List.mem_append_right _ (List.mem_singleton_self _)
  | reap id now =>
    rcases reap_eq cfg srv id now with h | ⟨-, h⟩
    · rw [h]; exact .inl ⟨rfl, rfl⟩
    · rw [h]; exact .inl ⟨rfl, rfl⟩
  | _ => exact .inl ⟨rfl, rfl⟩

theorem Records.store {id k : ℕ} {v : BlockVote G} (h : srv.Records cfg id k v srv') :
    srv'.committedBlks = srv.committedBlks ∧ srv'.db = srv.db := by
  cases h <;> exact ⟨rfl, rfl⟩

/-- The decoder leaves the signature null. -/
theorem fromBytes_tssSig {item : Flex G} {b : Block G} (h : fromBytes item = some b) :
    b.tssSig = none := by
  obtain ⟨votes, -, rfl⟩ := Option.map_eq_some_iff.mp h
  rfl

theorem Handles.store_cases {now : ℕ} {rpc rpc' : Rpc G} (h : srv.Handles cfg s now rpc srv' rpc') :
    (srv'.committedBlks = srv.committedBlks ∧ srv'.db = srv.db) ∨ Commits cfg srv srv' := by
  cases h with
  | relayVote item rest vote _ =>
    unfold relayVoteItem
    split
    · exact .inl ⟨rfl, rfl⟩
    · exact .inl (records_recordVote ..).store
  | spBcastCommit item rest block hd =>
    by_cases hp : (block.stampRecv now).header.id ∈ srv.pendingBlks
    · right
      have hsig : block.tssSig = none := fromBytes_tssSig hd
      refine ⟨srv.heap.length, block.stampRecv now, ?_, ?_, .inr hsig, fun hdb => ?_⟩
      · simp only [spBcastCommitItem, if_pos hp]
        simp [alloc]
      · simp only [spBcastCommitItem, if_pos hp]
      · simp only [spBcastCommitItem, if_pos hp, if_pos hdb]
    · have he : srv.spBcastCommitItem cfg now block = srv := if_neg hp
      rw [he]
      exact .inl ⟨rfl, rfl⟩
  | pullItem id blockId p todo pbHdrs b _ hdrs hb hi =>
    rcases pullItem_eq hi with ⟨rfl, -⟩ | ⟨-, -, clients, rfl⟩ <;> exact .inl ⟨rfl, rfl⟩
  | record => exact .inl (records_recordVote ..).store
  | voteBlocks id item rest block _ current _ hi =>
    obtain ⟨queues, rfl⟩ := voteBlocksItem_eq hi
    exact .inl ⟨rfl, rfl⟩
  | _ => exact .inl ⟨rfl, rfl⟩

/-- A move stores nothing, or it commits a block and stores it as it is. -/
theorem Moves.store_cases (h : srv.Moves cfg merge s srv') :
    (srv'.committedBlks = srv.committedBlks ∧ srv'.db = srv.db) ∨ Commits cfg srv srv' := by
  cases h with
  | act a out h => exact h.store_cases
  | handle now rpc rpc' h => exact h.store_cases
  | resume ch h =>
    rcases resumeSend_eq h with ⟨_, _, _, -, rfl⟩ | ⟨_, _, _, -, rfl⟩ <;> exact .inl ⟨rfl, rfl⟩

/-- A block that is committed already only changes in its distribution time. -/
theorem Moves.committed_at (hap : srv.Apart) (h : srv.Moves cfg merge s srv') {id p : ℕ}
    (hp : srv.committedBlks[id]? = some p) {b : Block G} (hb : srv.heap[p]? = some b) :
    ∃ d, srv'.heap[p]? = some { b with header := { b.header with distTs := d } } := by
  rcases h.heap_at hb with hb' | hpend | hpop
  · exact hb'
  · exact absurd ⟨id, hp⟩ (hap.pending p hpend).1
  · have hmem : p ∈ srv.merging := by
      rw [merging_popped hpop]
      exact List.mem_cons_self ..
    exact absurd ⟨id, hp⟩ (hap.merging p hmem).2.1

theorem mirrors_init (cfg : Config) (s : ℕ) : (Server.init cfg s : Server G).Mirrors where
  keys key h := by simp [Server.init] at h
  values id p h := by simp [Server.init] at h

theorem SameStored.refl (b : Block G) : SameStored b b := ⟨rfl, rfl, rfl, rfl, rfl, rfl, rfl⟩

theorem Mirrors.moves (hdb : cfg.useRocksdb = true) (hap : srv.Apart) (hm : srv.Mirrors)
    (h : srv.Moves cfg merge s srv') : srv'.Mirrors := by
  have hold : ∀ id p : ℕ, srv.committedBlks[id]? = some p → ∃ b b₀, srv'.heap[p]? = some b ∧
      srv.db[blockName id]? = some (toBytes b₀) ∧ SameStored b₀ b := by
    intro id p hp
    obtain ⟨b, b₀, hb, hv, hs⟩ := hm.values id p hp
    obtain ⟨d, hb'⟩ := h.committed_at hap hp hb
    exact ⟨_, b₀, hb', hv, hs⟩
  rcases h.store_cases with ⟨hc, hd⟩ | ⟨p, b, hb, hc, -, hd⟩
  · constructor
    · rw [hc, hd]; exact hm.keys
    · rw [hc, hd]; exact hold
  · specialize hd hdb
    constructor
    · intro key hkey
      rw [hd, ExtTreeMap.mem_insert] at hkey
      rcases hkey with hkey | hkey
      · refine ⟨b.header.id, ?_, (Std.LawfulEqCmp.eq_of_compare hkey).symm⟩
        rw [hc]
        exact ExtTreeMap.mem_insert_self
      · obtain ⟨id, hid, rfl⟩ := hm.keys key hkey
        refine ⟨id, ?_, rfl⟩
        rw [hc]
        exact ExtTreeMap.mem_insert.mpr (.inr hid)
    · intro id q hq
      rw [hc, ExtTreeMap.getElem?_insert] at hq
      split at hq
      · rename_i he
        cases hq
        rw [← Nat.compare_eq_eq.mp he]
        exact ⟨b, b, hb, by rw [hd]; exact ExtTreeMap.getElem?_insert_self, .refl b⟩
      · rename_i hne
        obtain ⟨b', b₀, hb', hv, hs⟩ := hold id q hq
        refine ⟨b', b₀, hb', ?_, hs⟩
        rw [hd, ExtTreeMap.getElem?_insert, if_neg]
        · exact hv
        · intro he
          rw [blockName_injective (Std.LawfulEqCmp.eq_of_compare he)] at hne
          exact hne (Nat.compare_eq_eq.mpr rfl)

end

end Server

theorem Reachable.apart (h : Reachable cfg crypto ok σ) (s : ℕ) : (σ.server s).Apart :=
  (h.server_invariant (fun _ srv => srv.WF ∧ srv.Apart)
    (fun s => ⟨wf_init cfg s, apart_init cfg s⟩)
    (fun _ _ _ hP hm => ⟨hm.wf hP.1, hm.apart hP.1 hP.2⟩) s).2

theorem Reachable.mirrors (hdb : cfg.useRocksdb = true) (h : Reachable cfg crypto ok σ) (s : ℕ) :
    (σ.server s).Mirrors :=
  (h.server_invariant (fun _ srv => srv.WF ∧ srv.Apart ∧ srv.Mirrors)
    (fun s => ⟨wf_init cfg s, apart_init cfg s, mirrors_init cfg s⟩)
    (fun _ _ _ hP hm => ⟨hm.wf hP.1, hm.apart hP.1 hP.2.1, hP.2.2.moves hdb hP.2.1 hm⟩) s).2.2

/-- In every state the database of a server is its `committed_blks`, written under distinct keys. -/
theorem database_mirrors (cfg : Config) (crypto : Crypto G D) (σ : State G)
    (h : Reachable cfg crypto honest σ) (hdb : cfg.useRocksdb = true)
    (hn : cfg.clientCount < 2 ^ 31) (s : ℕ) :
    (∀ id, blockName id ∈ (σ.server s).db ↔ id ∈ (σ.server s).committedBlks) ∧
    (∀ id id', id ∈ (σ.server s).committedBlks → id' ∈ (σ.server s).committedBlks → id ≠ id' →
      blockName id ≠ blockName id') ∧
    ∀ id p : ℕ, (σ.server s).committedBlks[id]? = some p →
      ∃ b bytes b', (σ.server s).heap[p]? = some b ∧ (σ.server s).db[blockName id]? = some bytes ∧
        fromBytes bytes = some b' ∧ SameStored b' b := by
  have hm := h.mirrors hdb s
  have hvalues : ∀ id p : ℕ, (σ.server s).committedBlks[id]? = some p →
      ∃ b bytes b', (σ.server s).heap[p]? = some b ∧ (σ.server s).db[blockName id]? = some bytes ∧
        fromBytes bytes = some b' ∧ SameStored b' b := by
    intro id p hp
    obtain ⟨b, b₀, hb, hv, hs⟩ := hm.values id p hp
    have hhonest := ((honestFlow_clean (fun _ _ h => h) h).server s).heap b (List.mem_of_getElem? hb)
    have hle : ∀ k ∈ b₀.votes, k ≤ Decimal.intMax := by
      intro k hk
      have hvotes := hs.2.2.2.2.2.2
      rw [hvotes] at hk
      obtain ⟨v, hkv⟩ := Option.isSome_iff_exists.mp (ExtTreeMap.mem_iff_isSome_getElem?.mp hk)
      have := (hhonest k v hkv).2.1
      unfold Decimal.intMax
      omega
    exact ⟨b, _, _, hb, hv, Flexbuffers.fromBytes_toBytes b₀ hle, hs⟩
  refine ⟨fun id => ⟨fun hk => ?_, fun hc => ?_⟩, fun id id' _ _ hne he => ?_, hvalues⟩
  · obtain ⟨id', hid', he⟩ := hm.keys _ hk
    rw [blockName_injective he]
    exact hid'
  · obtain ⟨p, hp⟩ := Option.isSome_iff_exists.mp (ExtTreeMap.mem_iff_isSome_getElem?.mp hc)
    obtain ⟨b, bytes, b', -, hv, -⟩ := hvalues id p hp
    rw [ExtTreeMap.mem_iff_isSome_getElem?, hv]
    rfl
  · exact hne (blockName_injective he)

/-- After the round, both servers have the block in the database: server 1 merged it itself and
so did server 2. -/
theorem database_mirrors_round :
    ∃ σ, Reachable sampleConfig Crypto.symbolic honest σ ∧
      2000000 ∈ (σ.server 1).committedBlks ∧ blockName 2000000 ∈ (σ.server 1).db ∧
      ∀ p : ℕ, (σ.server 1).committedBlks[2000000]? = some p → ∃ b bytes b',
        (σ.server 1).heap[p]? = some b ∧ (σ.server 1).db[blockName 2000000]? = some bytes ∧
          fromBytes bytes = some b' ∧ SameStored b' b := by
  obtain ⟨σ, hr, hσ⟩ := exists_reachable sampleConfig Crypto.symbolic honest Script.round
    (fun σ => (σ.server 1).committedBlks.contains 2000000) (by decide +kernel)
  have hc : 2000000 ∈ (σ.server 1).committedBlks := ExtTreeMap.contains_iff_mem.mp hσ
  obtain ⟨hkeys, -, hvalues⟩ := database_mirrors _ _ σ hr rfl (by decide) 1
  exact ⟨σ, hr, hc, (hkeys _).mpr hc, hvalues _⟩

/-! ## The threshold signature -/

/-- What was not merged here was committed without a signature. -/
def Server.Unsigned (srv : Server G) : Prop :=
  ∀ (id p : ℕ) b, srv.committedBlks[id]? = some p → id ∉ srv.merged → srv.heap[p]? = some b →
    b.tssSig = none

theorem Server.Unsigned.moves {merge : List (BLSSigShare G) → BLSSignature G} {s : ℕ}
    {srv srv' : Server G} (hwf : srv.WF) (hap : srv.Apart) (hu : srv.Unsigned)
    (h : srv.Moves cfg merge s srv') : srv'.Unsigned := by
  have hold : ∀ (id p : ℕ) b, srv.committedBlks[id]? = some p → id ∉ srv'.merged →
      srv'.heap[p]? = some b → b.tssSig = none := by
    intro id p b hp hn hb
    obtain ⟨b₀, hb₀, -⟩ := idAt_eq_some.mp (hwf.committed id p hp)
    obtain ⟨d, hb'⟩ := h.committed_at hap hp hb₀
    rw [hb] at hb'
    cases hb'
    exact hu id p b₀ hp (fun hm => hn (h.later.merged.subset hm)) hb₀
  intro id p b hp hn hb
  rcases h.store_cases with ⟨hc, -⟩ | ⟨q, b', hb', hc, hsig, -⟩
  · rw [hc] at hp
    exact hold id p b hp hn hb
  · rw [hc, ExtTreeMap.getElem?_insert] at hp
    split at hp
    · rename_i he
      cases hp
      rw [hb] at hb'
      cases hb'
      refine hsig.resolve_left fun hm => hn ?_
      rw [← Nat.compare_eq_eq.mp he]
      exact hm
    · exact hold id p b hp hn hb

theorem Reachable.unsigned (h : Reachable cfg crypto ok σ) (s : ℕ) : (σ.server s).Unsigned :=
  (h.server_invariant (fun _ srv => srv.WF ∧ srv.Apart ∧ srv.Unsigned)
    (fun s => ⟨wf_init cfg s, apart_init cfg s, fun id p b hp => by simp [Server.init] at hp⟩)
    (fun _ _ _ hP hm => ⟨hm.wf hP.1, hm.apart hP.1 hP.2.1, hP.2.2.moves hP.1 hP.2.1 hm⟩) s).2.2

/-- A block that a server merged has its signature there in the database, and on every server that
took it over from a broadcast both in memory and in the database. -/
def SignatureSurvives (cfg : Config) (σ : State G) : Prop :=
  ∀ s, 1 ≤ s → s ≤ cfg.serverCount → ∀ id ∈ (σ.server s).merged, ∃ sig,
    (∃ p b, (σ.server s).committedBlks[id]? = some p ∧ (σ.server s).heap[p]? = some b ∧
      b.tssSig = some sig) ∧
    (∃ bytes b, (σ.server s).db[blockName id]? = some bytes ∧ fromBytes bytes = some b ∧
      b.tssSig = some sig) ∧
    ∀ t, 1 ≤ t → t ≤ cfg.serverCount → ∀ p : ℕ, (σ.server t).committedBlks[id]? = some p →
      id ∉ (σ.server t).merged →
      (∃ b, (σ.server t).heap[p]? = some b ∧ b.tssSig = some sig) ∧
      ∀ bytes, (σ.server t).db[blockName id]? = some bytes →
        ∃ b, fromBytes bytes = some b ∧ b.tssSig = some sig

/-- No merged block keeps its signature: the value in the database decodes without one, and so
does the block that a peer receives. -/
theorem signatureSurvives_iff (cfg : Config) (crypto : Crypto G D) (σ : State G)
    (h : Reachable cfg crypto honest σ) :
    (SignatureSurvives cfg σ ↔ ∀ s, 1 ≤ s → s ≤ cfg.serverCount → (σ.server s).merged = []) ∧
    ∀ s id : ℕ,
      (∀ bytes b, (σ.server s).db[blockName id]? = some bytes → fromBytes bytes = some b →
        b.tssSig = none) ∧
      ∀ (p : ℕ) b, (σ.server s).committedBlks[id]? = some p → id ∉ (σ.server s).merged →
        (σ.server s).heap[p]? = some b → b.tssSig = none := by
  refine ⟨⟨fun hs s h1 h2 => ?_, fun hnone s h1 h2 id hid => ?_⟩, fun s id => ⟨?_, ?_⟩⟩
  · rw [List.eq_nil_iff_forall_not_mem]
    intro id hid
    obtain ⟨sig, -, ⟨bytes, b, -, hd, hsig⟩, -⟩ := hs s h1 h2 id hid
    rw [fromBytes_tssSig hd] at hsig
    cases hsig
  · rw [hnone s h1 h2] at hid
    cases hid
  · exact fun bytes b _ hd => fromBytes_tssSig hd
  · exact h.unsigned s id

/-- In the round, both servers merge the block. -/
theorem signatureSurvives_iff_round :
    ∃ σ, Reachable sampleConfig Crypto.symbolic honest σ ∧ (σ.server 1).merged ≠ [] ∧
      ¬SignatureSurvives sampleConfig σ := by
  obtain ⟨σ, hr, hσ⟩ := exists_reachable sampleConfig Crypto.symbolic honest Script.round
    (fun σ => !(σ.server 1).merged.isEmpty) (by decide +kernel)
  have hne : (σ.server 1).merged ≠ [] := by simpa using hσ
  exact ⟨σ, hr, hne, fun hs =>
    hne ((signatureSurvives_iff _ _ σ hr).1.mp hs 1 (by decide) (by decide))⟩

/-- Server 1 has a signature for the block it merged, and the database has the block without it. -/
theorem exists_lost_signature :
    ∃ σ, Reachable sampleConfig Crypto.symbolic honest σ ∧ ¬SignatureSurvives sampleConfig σ ∧
      ∃ p b bytes b', (σ.server 1).committedBlks[2000000]? = some p ∧
        (σ.server 1).heap[p]? = some b ∧ b.tssSig.isSome ∧
        (σ.server 1).db[blockName 2000000]? = some bytes ∧ fromBytes bytes = some b' ∧
        b'.tssSig = none := by
  obtain ⟨σ, hr, hσ⟩ := exists_reachable sampleConfig Crypto.symbolic honest Script.round
    (fun σ => (σ.server 1).merged == [2000000] &&
      (((σ.server 1).committedBlks[2000000]?.bind ((σ.server 1).heap[·]?)).any (·.tssSig.isSome) &&
        ((σ.server 1).db[blockName 2000000]?.bind fromBytes).any (·.tssSig.isNone)))
    (by decide +kernel)
  rw [Bool.and_eq_true, Bool.and_eq_true, beq_iff_eq, Option.any_eq_true, Option.any_eq_true] at hσ
  obtain ⟨hmerged, ⟨b, hb, hsome⟩, b', hb', hnone⟩ := hσ
  obtain ⟨p, hp, hb⟩ := Option.bind_eq_some_iff.mp hb
  obtain ⟨bytes, hv, hd⟩ := Option.bind_eq_some_iff.mp hb'
  refine ⟨σ, hr, fun hs => ?_, p, b, bytes, b', hp, hb, hsome, hv, hd,
    Option.isNone_iff_eq_none.mp hnone⟩
  obtain ⟨sig, -, ⟨bytes', b'', hv', hd', hsig⟩, -⟩ := hs 1 (by decide) (by decide) 2000000
    (by rw [hmerged]; exact List.mem_singleton_self _)
  rw [fromBytes_tssSig hd'] at hsig
  cases hsig

end TomChain
