import TomChain.System.Flow
import TomChain.System.Packing

/-!
# The content of committed blocks

Every copy of a block on every server goes back to the block that `pack_block` created under its
id, whatever clients send and whichever calls are lost.
-/

namespace TomChain

open Runs Server
open Flexbuffers (Flex)

variable {G D : Type} {cfg : Config} {crypto : Crypto G D} {σ σ' : State G} {a : Action G}
  {ok : State G → Action G → Bool}

def Packed (cfg : Config) (σ : State G) (b : Block G) : Prop :=
  ∃ pb ∈ (σ.server cfg.serverCount).packed, b.SameContent pb

def contentFlow (cfg : Config) (σ : State G) : Flow G := { Flow.top with block := Packed cfg σ }

theorem Packed.grows {b b' : Block G} (h : Packed cfg σ b) (hg : b.Grows b') : Packed cfg σ b' := by
  obtain ⟨pb, hpb, hs⟩ := h
  exact ⟨pb, hpb, hg.1.symm.trans hs⟩

theorem Packed.steps {b : Block G} (hs : Steps cfg crypto σ a σ') (h : Packed cfg σ b) :
    Packed cfg σ' b := by
  obtain ⟨pb, hpb, hsame⟩ := h
  exact ⟨pb, (hs.later _).packed.subset hpb, hsame⟩

theorem packed_newBlock (hr : Reachable cfg crypto ok σ) {s now : ℕ} {order : List ℕ}
    (hs : Steps cfg crypto σ (.server s (.packBegin now order)) σ') :
    s = cfg.serverCount ∧ (σ'.server s).packed =
      (σ.server s).packed ++ [(σ.server s).newBlock cfg now order] := by
  cases hs with
  | server _ _ srv' out _ _ ha =>
    cases ha with
    | packBegin i _ _ hpc =>
      refine ⟨?_, by simp [Server.packBegin]⟩
      by_contra hne
      have := (hr.packOk s).packer hne
      rw [hpc] at this
      simp at this

theorem contentFlow_laws (σ : State G) : (contentFlow cfg σ).Laws cfg crypto where
  dist b now h := h.grows (b.grows_stampDist now)
  insert b k v h _ := h.grows (b.grows_insertVote k v)
  sign _ _ h := h.grows ⟨⟨rfl, rfl, rfl, rfl⟩, fun _ _ h => h⟩
  commit b now h _ := h.grows (b.grows_stampCommit now)
  recv b now h _ := h.grows (b.grows_stampRecv now)
  offered _ _ := trivial
  served _ _ := trivial
  item _ _ _ _ _ _ := trivial

/-- The requests of clients bring in nothing that these flows speak about. -/
theorem rpcOk_of_isClientRequest {F : Flow G} (hoff : ∀ id, F.offered id)
    (hitem : ∀ id item, id < 2 ^ 32 → F.item id item) {rpc : Rpc G}
    (h : rpc.isClientRequest = true) : F.RpcOk cfg rpc := by
  cases rpc with
  | pullPendingBlocks id todo hdrs => exact fun h _ => hoff _
  | getBlocks hdrs pb =>
    cases pb with
    | nil => exact ⟨fun h _ => hoff _, by simp⟩
    | cons => simp [Rpc.isClientRequest] at h
  | voteBlocks id items current =>
    cases current with
    | none => exact ⟨fun item _ => hitem _ _ (by simpa [Rpc.isClientRequest] using h), by simp⟩
    | some => simp [Rpc.isClientRequest] at h
  | _ => simp [Rpc.isClientRequest] at h

theorem contentFlow_clean (h : Reachable cfg crypto ok σ) : (contentFlow cfg σ).Clean cfg σ := by
  refine Flow.clean_of_reachable (contentFlow cfg) contentFlow_laws ?_ ?_ h
  · intro σ a σ' _ hs
    exact { Flow.Le.refl _ with block := fun b => Packed.steps hs }
  · intro σ a σ' hr _ _ hs
    exact {
      pack := fun s now order he => by
        subst he
        obtain ⟨rfl, hp⟩ := packed_newBlock hr hs
        exact ⟨_, by rw [hp]; simp, .refl _⟩
      sync := fun _ _ _ _ _ _ => trivial
      merge := fun _ _ _ _ _ _ _ => trivial
      vote := fun _ _ _ _ _ _ _ _ _ _ _ _ _ _ _ => ⟨trivial, fun _ _ => trivial⟩
      get := fun _ _ _ _ _ _ _ _ _ _ _ _ _ _ _ _ => trivial
      foreign := fun _ _ _ => rpcOk_of_isClientRequest (fun _ => trivial) (fun _ _ _ => trivial) }

/-- A committed block has the id it is committed under and the content of the block that was
packed with this id; packed ids are unique among the first `2 ^ 64` blocks, and so two servers
that committed an id committed the same content. -/
theorem committed_content (cfg : Config) (crypto : Crypto G D) (σ : State G)
    (h : Reachable cfg crypto unguarded σ) :
    (∀ s id p, (σ.server s).committedBlks[id]? = some p →
      ∃ b, (σ.server s).heap[p]? = some b ∧ b.header.id = id ∧
        ∃ pb ∈ (σ.server cfg.serverCount).packed, pb.header.id = id ∧ b.SameContent pb) ∧
    ((σ.server cfg.serverCount).packed.length ≤ 2 ^ 64 →
      ∀ (s t id p q : ℕ) (b b' : Block G), (σ.server s).committedBlks[id]? = some p →
        (σ.server t).committedBlks[id]? = some q → (σ.server s).heap[p]? = some b →
        (σ.server t).heap[q]? = some b' → b.SameContent b') := by
  have hcontent : ∀ s id p, (σ.server s).committedBlks[id]? = some p →
      ∃ b, (σ.server s).heap[p]? = some b ∧ b.header.id = id ∧
        ∃ pb ∈ (σ.server cfg.serverCount).packed, pb.header.id = id ∧ b.SameContent pb := by
    intro s id p hp
    obtain ⟨b, hb, hid⟩ := idAt_eq_some.mp ((h.wf s).committed id p hp)
    obtain ⟨pb, hpb, hs⟩ := ((contentFlow_clean h).server s).heap b (List.mem_of_getElem? hb)
    exact ⟨b, hb, hid, pb, hpb, by rw [← hs.1, hid], hs⟩
  refine ⟨hcontent, fun hlt s t id p q b b' hp hq hb hb' => ?_⟩
  obtain ⟨b₁, hb₁, -, pb₁, hpb₁, hid₁, hs₁⟩ := hcontent s id p hp
  obtain ⟨b₂, hb₂, -, pb₂, hpb₂, hid₂, hs₂⟩ := hcontent t id q hq
  rw [hb] at hb₁
  rw [hb'] at hb₂
  cases hb₁
  cases hb₂
  rw [packed_unique (h.packOk _) hlt hpb₁ hpb₂ (hid₁.trans hid₂.symm)] at hs₁
  exact hs₁.trans hs₂.symm

/-- In a complete round both servers commit the block, with the content that was packed. -/
theorem committed_content_round :
    ∃ σ, Reachable sampleConfig Crypto.symbolic unguarded σ ∧
      ∃ p q b b', (σ.server 1).committedBlks[2000000]? = some p ∧ (σ.server 1).heap[p]? = some b ∧
        (σ.server 2).committedBlks[2000000]? = some q ∧ (σ.server 2).heap[q]? = some b' ∧
        (∃ pb ∈ (σ.server 2).packed, b.SameContent pb) ∧ b.SameContent b' := by
  obtain ⟨σ, hr, hσ⟩ := exists_reachable sampleConfig Crypto.symbolic unguarded Script.round
    (fun σ => (σ.server 2).packed.length == 1 && ((σ.server 1).committedBlks[2000000]?).isSome &&
      ((σ.server 2).committedBlks[2000000]?).isSome) (by decide +kernel)
  simp only [Bool.and_eq_true, beq_iff_eq, Option.isSome_iff_exists] at hσ
  obtain ⟨⟨hlen, p, hp⟩, q, hq⟩ := hσ
  obtain ⟨hc, ha⟩ := committed_content _ _ σ hr
  obtain ⟨b, hb, -, pb, hpb, -, hs⟩ := hc 1 2000000 p hp
  obtain ⟨b', hb', -⟩ := hc 2 2000000 q hq
  exact ⟨σ, hr, p, q, b, b', hp, hb, hq, hb', ⟨pb, hpb, hs⟩,
    ha (by simp [sampleConfig, hlen]) 1 2 2000000 p q b b' hp hq hb hb'⟩

end TomChain
