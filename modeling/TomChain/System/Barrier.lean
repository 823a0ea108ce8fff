import TomChain.System.Content
import TomChain.System.Lifecycle

/-!
# The sync signal

`send_relay_blocks` queues the sync signal of a block as soon as one `RelayBlock` call with it has
returned, with whatever status. The signal is a barrier as far as, at the moment it is taken from
`pb_sync_queue`, the block has left the packing thread, the relay queues and the calls, and no call
lost it on the way.
-/

namespace TomChain

open Std (ExtTreeMap ExtTreeSet)
open Runs Server
open Flexbuffers (Flex fromBytes)

variable {G D : Type} {cfg : Config} {crypto : Crypto G D} {σ σ' : State G} {a : Action G}
  {ok : State G → Action G → Bool}

def AllStored (cfg : Config) (σ : State G) (id : ℕ) : Prop :=
  ∀ t, 1 ≤ t → t ≤ cfg.serverCount → id ∈ (σ.server t).stored

theorem AllStored.steps {id : ℕ} (hs : Steps cfg crypto σ a σ') (h : AllStored cfg σ id) :
    AllStored cfg σ' id :=
  fun t h1 h2 => (hs.later t).stored.subset (h t h1 h2)

/-! ## The condition -/

/-- The step rejects a `RelayBlock` request, or drops one that is not handled yet. -/
def losesBlocks (σ : State G) : Action G → Bool
  | .handle i _ _ => (σ.calls[i]?).any fun call => !call.rpc.rejected.isEmpty
  | .fail i => (σ.calls[i]?).any fun call => call.caller.isNone && !(call.rpc.carried .block).isEmpty
  | _ => false

def Server.relaying (srv : Server G) (id : ℕ) : Bool :=
  (match srv.pack with
    | .push _ _ id' _ _ => id' == id
    | _ => false) ||
  srv.relayBlocks.toList.any fun tq => (srv.pointerKeys tq.2).contains (id, 0)

/-- No block is lost in a `RelayBlock` call, and the sync signal of a block starts when the block
is relayed and stored. -/
def syncsDelivered (σ : State G) (a : Action G) : Bool :=
  !losesBlocks σ a &&
  match a with
  | .server s .syncPop =>
    ((σ.server s).pbSyncQueue.head?).all fun id => !(σ.server s).relaying id &&
      !σ.calls.any fun call => (call.rpc.carried .block).contains (id, 0)
  | _ => true

theorem lostMail_eq_nil (h : losesBlocks σ a = false) (t : ℕ) : lostMail σ t a = [] := by
  cases a with
  | handle i now order =>
    simp only [losesBlocks, lostMail] at h ⊢
    cases hi : σ.calls[i]? with
    | none => rfl
    | some call =>
      simp only [hi, Option.any_some, Bool.not_eq_false', List.isEmpty_iff] at h ⊢
      rw [h, ite_self]
  | fail i =>
    simp only [losesBlocks, lostMail] at h ⊢
    cases hi : σ.calls[i]? with
    | none => rfl
    | some call =>
      simp only [hi, Option.any_some, Bool.and_eq_false_iff, Bool.not_eq_false',
        List.isEmpty_iff] at h ⊢
      split
      · rename_i hc
        rcases h with h | h
        · rw [hc] at h; cases h
        · rw [Call.mail, h, ite_self]
      · rfl
  | _ => rfl

/-- What has left the relay of the packing server is stored everywhere. -/
theorem allStored_of_syncPop (hok : ∀ σ a, ok σ a → syncsDelivered σ a)
    (hr : Reachable cfg crypto ok σ) {s id : ℕ} {q : List ℕ}
    (ha : ok σ (.server s .syncPop)) (hpc : (σ.server s).send .block = .sync)
    (hq : (σ.server s).pbSyncQueue = id :: q) : AllStored cfg σ id := by
  have hid : id ∈ (σ.server s).packedIds :=
    (hr.relayOk s).2.sync id (by rw [hq]; exact List.mem_cons_self ..)
  have hs : s = cfg.serverCount := by
    by_contra hs
    rw [Server.packedIds, ((hr.packOk s).packer hs).2] at hid
    cases hid
  subst hs
  intro t h1 h2
  have hguard := hok _ _ ha
  simp only [syncsDelivered, hq, List.head?_cons, Option.all_some, Bool.and_eq_true,
    Bool.not_eq_true', Server.relaying, Bool.or_eq_false_iff] at hguard
  obtain ⟨-, ⟨hpack, hqueues⟩, hcalls⟩ := hguard
  have hpipe : pipe cfg σ t id = packedCount cfg σ id := by
    refine pipe_eq (fun σ a t ha => lostMail_eq_nil ?_ t) hr h1 h2 id
    have := hok σ a ha
    simp only [syncsDelivered, Bool.and_eq_true, Bool.not_eq_true'] at this
    exact this.1
  have hheld : (σ.server cfg.serverCount).pack.held cfg.serverCount t id = 0 := by
    revert hpack
    cases (σ.server cfg.serverCount).pack with
    | push i p id' peers ids =>
      intro hne
      simp only [beq_eq_false_iff_ne] at hne
      simp [PackPc.held, hne]
    | _ => exact fun _ => rfl
  have hback : ((σ.server cfg.serverCount).backlog .block t).count (id, 0) = 0 := by
    have hdrained : (SendPc.sync : SendPc G).drained .block t = [] := rfl
    rw [backlog, hpc, hdrained, List.nil_append, List.count_eq_zero]
    intro hm
    rw [List.any_eq_false] at hqueues
    cases hqt : (σ.server cfg.serverCount).relayBlocks[t]? with
    | none => simp [queued, hqt, pointerKeys] at hm
    | some qt =>
      refine hqueues (t, qt) (ExtTreeMap.mem_toList_iff_getElem?_eq_some.mpr hqt) ?_
      rw [List.contains_iff_mem]
      simpa [queued, hqt] using hm
  have hmail : (mail σ .block t).count (id, 0) = 0 := by
    rw [List.count_eq_zero]
    intro hm
    obtain ⟨call, hcall, hk⟩ := List.mem_flatMap.mp hm
    rw [List.any_eq_false] at hcalls
    refine hcalls call hcall (List.contains_iff_mem.mpr ?_)
    unfold Call.mail at hk
    split at hk
    · exact hk
    · cases hk
  have hpos : 0 < packedCount cfg σ id := List.count_pos_iff.mpr hid
  rw [pipe, Server.source, hheld, hback, hmail] at hpipe
  exact List.count_pos_iff.mp (by omega)

/-! ## Labels -/

def labelFlow (cfg : Config) (σ : State G) : Flow G :=
  { (Flow.top : Flow G) with label := AllStored cfg σ }

theorem labelFlow_laws (σ : State G) : (labelFlow cfg σ).Laws cfg crypto :=
  Flow.onLabels_laws (AllStored cfg σ)

theorem labelFlow_clean (hok : ∀ σ a, ok σ a → syncsDelivered σ a) (h : Reachable cfg crypto ok σ) :
    (labelFlow cfg σ).Clean cfg σ := by
  refine Flow.clean_of_reachable (labelFlow cfg) labelFlow_laws ?_ ?_ h
  · intro σ a σ' _ hs
    exact { Flow.Le.refl _ with label := fun id => AllStored.steps hs }
  · intro σ a σ' hr ha _ hs
    exact {
      pack := fun _ _ _ _ => trivial
      sync := fun s id q he hpc hq => by
        subst he
        exact (allStored_of_syncPop hok hr ha hpc hq).steps hs
      merge := fun _ _ _ _ _ _ _ => trivial
      vote := fun _ _ _ _ _ _ _ _ _ _ _ _ _ _ _ => ⟨trivial, fun _ _ => trivial⟩
      get := fun _ _ _ _ _ _ _ _ _ _ _ _ _ _ _ _ => trivial
      foreign := fun _ _ _ => rpcOk_of_isClientRequest (fun _ => trivial) (fun _ _ _ => trivial) }

/-! ## The barrier -/

/-- In the last state of the trace, every label is on a block that every server has had in its
`pending_blks` before. -/
def SyncBarrier (cfg : Config) : List (State G) → Prop
  | [] => True
  | σ :: l => ∀ s id, id ∈ (σ.server s).pbSyncLabels → ∀ t, 1 ≤ t → t ≤ cfg.serverCount →
      ∃ σ' ∈ σ :: l, id ∈ (σ'.server t).pendingBlks

theorem Server.Moves.stored_mem {s : ℕ} {srv srv' : Server G} (h : srv.Moves cfg crypto.merge s srv')
    {id : ℕ} (hid : id ∈ srv'.stored) : id ∈ srv.stored ∨ id ∈ srv'.pendingBlks := by
  cases h with
  | act a out h =>
    rcases h.stored with he | ⟨i, p, id', ids, -, he, hm⟩
    · rw [he] at hid; exact .inl hid
    · rw [he] at hid
      rcases List.mem_append.mp hid with hid | hid
      · exact .inl hid
      · rw [List.mem_singleton.mp hid]; exact .inr hm
  | handle now rpc rpc' h =>
    rcases h.stored with ⟨item, rest, block, -, -, -, rfl⟩ | ⟨he, -⟩
    · rcases List.mem_append.mp hid with hid | hid
      · exact .inl hid
      · rw [List.mem_singleton.mp hid]
        exact .inr (by simp [relayBlockItem, storePending])
    · rw [he] at hid; exact .inl hid
  | resume ch h => rw [(resumeSend_history h).1] at hid; exact .inl hid

theorem exists_pending_of_stored {ok : State G → Action G → Prop} {l : List (State G)}
    (h : Trace (step cfg crypto) ok (State.init cfg) (σ :: l)) {t id : ℕ}
    (hid : id ∈ (σ.server t).stored) : ∃ σ' ∈ σ :: l, id ∈ (σ'.server t).pendingBlks := by
  generalize hm : σ :: l = m at h
  induction h generalizing σ l with
  | start =>
    cases hm
    simp [State.init, Server.init] at hid
  | @next σ₁ σ₂ l' a _ _ hs ih =>
    cases hm
    have hstored : id ∈ (σ₁.server t).stored → ∃ σ' ∈ σ₂ :: σ₁ :: l', id ∈ (σ'.server t).pendingBlks := by
      intro hold
      obtain ⟨σ', hm', hp⟩ := ih hold rfl
      exact ⟨σ', List.mem_cons_of_mem _ hm', hp⟩
    rcases (steps_of_step hs).moves t with he | hmv
    · rw [he] at hid; exact hstored hid
    · rcases hmv.stored_mem hid with hold | hp
      · exact hstored hold
      · exact ⟨σ₂, List.mem_cons_self .., hp⟩

/-- In runs that meet the condition the sync signal is a barrier. -/
theorem syncBarrier_of_syncsDelivered (cfg : Config) (crypto : Crypto G D) (trace : List (State G))
    (h : Trace (step cfg crypto) (fun σ a => syncsDelivered σ a) (State.init cfg) trace) :
    SyncBarrier cfg trace := by
  cases trace with
  | nil => trivial
  | cons σ l =>
    intro s id hl t h1 h2
    have hr : Reachable cfg crypto syncsDelivered σ := h.run
    have hc := labelFlow_clean (fun _ _ h => h) hr
    exact exists_pending_of_stored h ((hc.server s).labels id hl t h1 h2)

/-- The round meets the condition: the block is labelled on both servers. -/
theorem syncBarrier_round :
    ∃ σ l, Trace (step sampleConfig Crypto.symbolic) (fun σ a => syncsDelivered σ a)
        (State.init sampleConfig) (σ :: l) ∧
      2000000 ∈ (σ.server 1).pbSyncLabels ∧ 2000000 ∈ (σ.server 2).pbSyncLabels ∧
      SyncBarrier sampleConfig (σ :: l) := by
  obtain ⟨σ, hr, hσ⟩ := exists_reachable sampleConfig Crypto.symbolic syncsDelivered Script.round
    (fun σ => (σ.server 1).pbSyncLabels.contains 2000000 &&
      (σ.server 2).pbSyncLabels.contains 2000000) (by decide +kernel)
  simp only [Bool.and_eq_true, ExtTreeSet.contains_iff_mem] at hσ
  obtain ⟨l, hl⟩ := Run.exists_trace hr
  exact ⟨σ, l, hl, hσ.1, hσ.2, syncBarrier_of_syncsDelivered _ _ _ hl⟩

/-- The relay and sync threads overtake the packing thread: both servers label a block that the
packing server has not inserted into its own map. -/
theorem exists_early_label :
    ¬ ∀ trace, Trace (step sampleConfig Crypto.symbolic) (fun σ a => unguarded σ a)
      (State.init sampleConfig) trace → SyncBarrier sampleConfig trace := by
  intro h
  obtain ⟨σ, hr, hσ⟩ := exists_reachable sampleConfig Crypto.symbolic unguarded
    (Script.packBlock ++ Script.relay 2 .block 1 ++ Script.sync)
    (fun σ => (σ.server 1).pbSyncLabels.contains 2000000 && (σ.server 2).stored.isEmpty)
    (by decide +kernel)
  simp only [Bool.and_eq_true, ExtTreeSet.contains_iff_mem, List.isEmpty_iff] at hσ
  obtain ⟨l, hl⟩ := Run.exists_trace hr
  obtain ⟨σ', hm, hp⟩ := h _ hl 1 2000000 hσ.1 2 (by decide) (by decide)
  obtain ⟨hr₁, hr₂⟩ := hl.split hm
  have hst := (Reaches.later hr₂ 2).stored.subset (Reachable.stored_of_pending hr₁ hp)
  rw [hσ.2] at hst
  cases hst

end TomChain
