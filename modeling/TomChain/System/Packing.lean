import Mathlib.Data.List.Range
import TomChain.System.Reach

/-!
# The packing server

Only the last server packs. Its blocks have consecutive ids, counted in a `uint64_t`: the ids are
distinct as long as at most `2 ^ 64` blocks are packed.
-/

namespace TomChain

open Runs Server

variable {G D : Type} {cfg : Config} {crypto : Crypto G D} {σ σ' : State G} {a : Action G}
  {ok : State G → Action G → Bool}

def blockSeq (s i : ℕ) : ℕ := (s * 1000000 + i) % 2 ^ 64

namespace Server

structure PackOk (cfg : Config) (s : ℕ) (srv : Server G) : Prop where
  packer : s ≠ cfg.serverCount → srv.pack = .check ∧ srv.packed = []
  next : srv.blkSeqGenerator = blockSeq s srv.packed.length
  ids : srv.packed.map (·.header.id) = (List.range srv.packed.length).map (blockSeq s)

theorem packOk_init (cfg : Config) (s : ℕ) : (Server.init cfg s : Server G).PackOk cfg s :=
  ⟨fun _ => ⟨rfl, rfl⟩, by simp [Server.init, blockSeq], by simp [Server.init]⟩

theorem PackOk.acts {s : ℕ} {srv srv' : Server G} {merge : List (BLSSigShare G) → BLSSignature G}
    {sa : ServerAction} {out : Option (ℕ × Rpc G)} (hp : srv.PackOk cfg s)
    (h : srv.Acts cfg merge s sa srv' out) : srv'.PackOk cfg s := by
  have hbusy : srv.pack ≠ .check → s = cfg.serverCount := by
    intro hne
    by_contra hs
    exact hne (hp.packer hs).1
  cases h with
  | packCheck pc _ hs _ => exact { hp with packer := fun hne => absurd hs hne }
  | packGenerate txs hpc | packEnd i hpc | packPush i p id t peers ids hpc | packInsert i p id ids hpc =>
    exact { hp with packer := fun hne => absurd (hbusy (by rw [hpc]; simp)) hne }
  | packBegin i now order hpc =>
    refine ⟨fun hne => absurd (hbusy (by rw [hpc]; simp)) hne, ?_, ?_⟩
    · simp only [packBegin, List.length_append, List.length_singleton]
      rw [hp.next, blockSeq, blockSeq]
      omega
    · simp only [packBegin, List.map_append, List.length_append, List.length_singleton, hp.ids,
        List.range_succ]
      simp [newBlock, Block.make, BlockHeader.make, hp.next]
  | sendPop ch t items ids rest srv'' item ids' _ hq => cases hq <;> exact { hp with }
  | reap id now =>
    rcases reap_eq cfg srv id now with h | ⟨-, h⟩
    · rw [h]; exact hp
    · rw [h]; exact { hp with }
  | _ => exact { hp with }

theorem PackOk.congr {s : ℕ} {srv srv' : Server G} (hp : srv.PackOk cfg s)
    (h : srv.SameThreads srv') : srv'.PackOk cfg s := by
  obtain ⟨h1, h2, h3⟩ := hp
  exact ⟨by rw [h.pack, h.packed]; exact h1, by rw [h.blkSeqGenerator, h.packed]; exact h2,
    by rw [h.packed]; exact h3⟩

theorem PackOk.moves {s : ℕ} {srv srv' : Server G} {merge : List (BLSSigShare G) → BLSSignature G}
    (hp : srv.PackOk cfg s) (h : srv.Moves cfg merge s srv') : srv'.PackOk cfg s := by
  cases h with
  | act a out h => exact hp.acts h
  | handle now rpc rpc' h => exact hp.congr h.sameThreads
  | resume ch h =>
    rcases resumeSend_eq h with ⟨_, _, _, -, rfl⟩ | ⟨_, _, _, -, rfl⟩
    · exact { hp with }
    · exact { hp with }

theorem PackOk.nodup {s : ℕ} {srv : Server G} (hp : srv.PackOk cfg s)
    (hlt : srv.packed.length ≤ 2 ^ 64) : (srv.packed.map (·.header.id)).Nodup := by
  rw [hp.ids]
  refine List.Nodup.map_on (fun i hi j hj h => ?_) List.nodup_range
  rw [List.mem_range] at hi hj
  unfold blockSeq at h
  omega

end Server

theorem Reachable.packOk (h : Reachable cfg crypto ok σ) (s : ℕ) : (σ.server s).PackOk cfg s :=
  h.server_invariant (fun s srv => srv.PackOk cfg s) (packOk_init cfg)
    (fun _ _ _ hp hm => hp.moves hm) s

/-- Two packed blocks with one id are the same block. -/
theorem packed_unique {s : ℕ} {srv : Server G} (hp : srv.PackOk cfg s)
    (hlt : srv.packed.length ≤ 2 ^ 64) {b b' : Block G} (hb : b ∈ srv.packed) (hb' : b' ∈ srv.packed)
    (he : b.header.id = b'.header.id) : b = b' :=
  List.inj_on_of_nodup_map (hp.nodup hlt) hb hb' he

end TomChain
