import TomChain.Server.Signals
import TomChain.System.Content
import TomChain.System.Pipeline

/-!
# Sync labels

Every packed block is labelled in the end, on the packing server after it has called `RelayBlockSync`
on every peer, on a peer when that call succeeds; and only packed blocks are labelled. The history of
a run records these calls.
-/

namespace TomChain

open Runs Server

variable {G D : Type} {cfg : Config} {crypto : Crypto G D} {σ σ' : State G} {a : Action G}

inductive SyncEvent where
  | called (server target blockId : ℕ)
  | answered (server target blockId : ℕ)
  deriving DecidableEq

/-- The `RelayBlockSync` calls that a step makes, and those whose caller goes on with an answer. -/
def syncEvents (cfg : Config) (crypto : Crypto G D) (σ : State G) : Action G → List SyncEvent
  | .server s a =>
    match (σ.server s).act cfg crypto.merge s a with
    | some (_, some (t, .relayBlockSync blockId _)) => [.called s t blockId]
    | _ => []
  | .ret i =>
    match σ.calls[i]? with
    | some ⟨t, some (.send s .block), .relayBlockSync blockId true⟩ => [.answered s t blockId]
    | _ => []
  | _ => []

/-! ## Only packed blocks -/

def packedFlow (cfg : Config) (σ : State G) : Flow G :=
  .onLabels fun id => id ∈ (σ.server cfg.serverCount).packedIds

theorem Steps.packedIds (h : Steps cfg crypto σ a σ') {s id : ℕ} (hid : id ∈ (σ.server s).packedIds) :
    id ∈ (σ'.server s).packedIds := by
  obtain ⟨b, hb, rfl⟩ := List.mem_map.mp hid
  exact List.mem_map.mpr ⟨b, (h.later s).packed.subset hb, rfl⟩

/-- Sync signals are for blocks that the packing server packed. -/
theorem packed_of_sync {ok : State G → Action G → Bool} (h : Reachable cfg crypto ok σ) {s id : ℕ}
    (hid : id ∈ (σ.server s).pbSyncQueue) : id ∈ (σ.server cfg.serverCount).packedIds := by
  have hpacked := (h.relayOk s).2.sync id hid
  by_cases hs : s = cfg.serverCount
  · rw [← hs]
    exact hpacked
  · rw [Server.packedIds, ((h.packOk s).packer hs).2] at hpacked
    cases hpacked

theorem packedFlow_clean {ok : State G → Action G → Bool} (h : Reachable cfg crypto ok σ) :
    (packedFlow cfg σ).Clean cfg σ := by
  refine Flow.clean_of_reachable (packedFlow cfg) (fun σ => Flow.onLabels_laws _) ?_ ?_ h
  · intro σ a σ' _ hs
    exact { Flow.Le.refl _ with label := fun id hid => hs.packedIds hid }
  · intro σ a σ' hr _ _ hs
    exact {
      pack := fun _ _ _ _ => trivial
      sync := fun s id q _ _ hq =>
        hs.packedIds (packed_of_sync hr (by rw [hq]; exact List.mem_cons_self ..))
      merge := fun _ _ _ _ _ _ _ => trivial
      vote := fun _ _ _ _ _ _ _ _ _ _ _ _ _ _ _ => ⟨trivial, fun _ _ => trivial⟩
      get := fun _ _ _ _ _ _ _ _ _ _ _ _ _ _ _ _ => trivial
      foreign := fun _ _ _ => rpcOk_of_isClientRequest (fun _ => trivial) (fun _ _ _ => trivial) }

/-! ## The calls and what they leave -/

theorem Steps.labels (h : Steps cfg crypto σ a σ') {s id : ℕ} (hid : id ∈ (σ.server s).pbSyncLabels) :
    id ∈ (σ'.server s).pbSyncLabels := by
  rcases h.moves s with he | hm
  · rw [he]
    exact hid
  · exact hm.labels id hid

/-- The invariant: the packing server calls before it labels, a handled call has labelled. -/
structure Synced (cfg : Config) (x : State G × List SyncEvent) : Prop where
  signalled : (x.1.server cfg.serverCount).Signalled cfg cfg.serverCount
    fun t id => .called cfg.serverCount t id ∈ x.2
  calls : ∀ call ∈ x.1.calls, ∀ id, call.rpc = .relayBlockSync id true →
    id ∈ (x.1.server call.target).pbSyncLabels
  answered : ∀ s t id, .answered s t id ∈ x.2 → id ∈ (x.1.server t).pbSyncLabels

/-- A `RelayBlockSync` call begins unhandled. -/
theorem Server.Acts.unhandled {s : ℕ} {sa : ServerAction} {srv srv' : Server G} {t id : ℕ}
    {out : Option (ℕ × Rpc G)} {handled : Bool} (h : srv.Acts cfg crypto.merge s sa srv' out)
    (hout : out = some (t, .relayBlockSync id handled)) : handled = false := by
  cases h with
  | sendGo ch => cases ch <;> cases hout
  | syncSend =>
    cases hout
    rfl
  | _ => cases hout

theorem act_of_step {s : ℕ} {sa : ServerAction} (h : step cfg crypto σ (.server s sa) = some σ') :
    ∃ srv' out, (σ.server s).act cfg crypto.merge s sa = some (srv', out) ∧
      (σ.setServer s srv').addCall (some (.send s sa.chan)) out = σ' := by
  simp only [step] at h
  split at h
  · obtain ⟨⟨srv', out⟩, hact, he⟩ := Option.map_eq_some_iff.mp h
    exact ⟨srv', out, hact, he⟩
  · cases h

theorem Synced.signalled_step (hr : Reachable cfg crypto unguarded σ) (hS : 2 ≤ cfg.serverCount)
    {log : List SyncEvent} (h : Synced cfg (σ, log)) (hs : step cfg crypto σ a = some σ') :
    (σ'.server cfg.serverCount).Signalled cfg cfg.serverCount
      fun t id => .called cfg.serverCount t id ∈ log ++ syncEvents cfg crypto σ a := by
  have hold : (σ.server cfg.serverCount).Signalled cfg cfg.serverCount
      fun t id => .called cfg.serverCount t id ∈ log ++ syncEvents cfg crypto σ a :=
    h.signalled.mono fun _ _ hc => List.mem_append_left _ hc
  have hresume : ∀ {σ₁ : State G} {response θ}, Resumes σ₁ response θ σ' → σ₁.server = σ.server →
      (σ'.server cfg.serverCount).Signalled cfg cfg.serverCount
        fun t id => .called cfg.serverCount t id ∈ log ++ syncEvents cfg crypto σ a := by
    intro σ₁ response θ hres hsame
    cases hres with
    | send s ch srv' hrs =>
      rw [hsame] at hrs
      by_cases he : cfg.serverCount = s
      · subst he
        simpa using hold.resume hrs
      · simpa [he, hsame] using hold
    | pull | vote => simpa [hsame] using hold
  cases steps_of_step hs with
  | server s sa _ _ h1 h2 _ =>
    obtain ⟨srv', out, hact, he⟩ := act_of_step hs
    rw [← he]
    by_cases he : cfg.serverCount = s
    · subst he
      have := hold.acts (Reachable.wf hr _) (Reachable.relayOk hr _).1 hS (acts_of_act hact)
        fun t id hout => List.mem_append_right _ (by simp [syncEvents, hact, hout])
      simpa using this
    · simpa [he] using hold
  | client => simpa using hold
  | handle i now order call srv' rpc' hi hh =>
    by_cases he : cfg.serverCount = call.target
    · rw [← he] at hh
      simpa [he] using hold.handles hh
    · simpa [he] using hold
  | retOrphan | failOrphan => exact hold
  | ret i call θ _ _ _ _ hres | fail i call θ _ _ _ hres => exact hresume hres rfl
  | foreign => simpa using hold

/-- A call that is handled has labelled the block at its target. -/
theorem Synced.calls_step {log : List SyncEvent} (h : Synced cfg (σ, log))
    (hs : Steps cfg crypto σ a σ') {call : Call G} (hm : call ∈ σ'.calls) {id : ℕ}
    (hrpc : call.rpc = .relayBlockSync id true) :
    id ∈ (σ'.server call.target).pbSyncLabels := by
  rcases hs.call_cases hm with ⟨call₀, hm₀, ht, hrpc₀⟩ | ⟨s, sa, srv', _, _, rfl, ha⟩ |
    ⟨c, ca, cl', _, _, rfl, ha⟩ | ⟨i, now, order, rpc, rfl, hi, hh⟩ | ⟨rfl, hc⟩
  · rw [← ht]
    exact hs.labels (h.calls call₀ hm₀ id (hrpc₀.trans hrpc))
  · cases ha.unhandled (by rw [hrpc])
  · rw [hrpc] at ha
    generalize call.target = t at ha
    cases ha
  · rw [hrpc] at hh
    generalize σ'.server call.target = srv' at hh ⊢
    cases hh with
    | relayBlockSync => simp
  · rw [hrpc] at hc
    cases hc

theorem Synced.answered_step {log : List SyncEvent} (h : Synced cfg (σ, log))
    (hs : Steps cfg crypto σ a σ') {s t id : ℕ}
    (he : .answered s t id ∈ log ++ syncEvents cfg crypto σ a) : id ∈ (σ'.server t).pbSyncLabels := by
  rcases List.mem_append.mp he with he | he
  · exact hs.labels (h.answered s t id he)
  · unfold syncEvents at he
    split at he
    · split at he
      · cases List.mem_singleton.mp he
      · cases he
    · split at he
      · rename_i hi
        cases List.mem_singleton.mp he
        exact hs.labels (h.calls _ (List.mem_of_getElem? hi) id rfl)
      · cases he
    · cases he

theorem synced_of_run (hS : 2 ≤ cfg.serverCount) {x : State G × List SyncEvent}
    (hr : Run (record (step cfg crypto) (syncEvents cfg crypto)) (fun _ _ => True)
      (State.init cfg, []) x) :
    Synced cfg x := by
  have hinit : Synced cfg ((State.init cfg : State G), []) :=
    ⟨signalled_init cfg _ _, fun _ hm => (by cases hm), fun _ _ _ he => (by cases he)⟩
  refine hr.invariant (Synced cfg) hinit fun x a y hr _ h hs => ?_
  obtain ⟨σ, log⟩ := x
  obtain ⟨σ', hσ', rfl⟩ := Option.map_eq_some_iff.mp hs
  have hreach : Reachable cfg crypto unguarded σ := hr.of_record fun _ _ _ => rfl
  have hst := steps_of_step hσ'
  exact ⟨h.signalled_step hreach hS hσ', fun call hm id hrpc => h.calls_step hst hm hrpc,
    fun s t id he => h.answered_step hst he⟩

/-- When the relay of the packing server is at rest, every block that it packed is labelled there and
was signalled to every peer, which has labelled it if that call succeeded. No other block is labelled
anywhere. -/
theorem packed_labelled (hS : 2 ≤ cfg.serverCount) {σ : State G} {log : List SyncEvent}
    (hr : Run (record (step cfg crypto) (syncEvents cfg crypto)) (fun _ _ => True)
      (State.init cfg, []) (σ, log)) :
    ((∀ (t : ℕ) q, (σ.server cfg.serverCount).relayBlocks[t]? = some q → q = []) →
      (σ.server cfg.serverCount).pbSyncQueue = [] →
      (σ.server cfg.serverCount).pack = .check ∨ (σ.server cfg.serverCount).pack = .generate →
      (σ.server cfg.serverCount).send .block = .idle →
      ∀ id ∈ (σ.server cfg.serverCount).packedIds, id ∈ (σ.server cfg.serverCount).pbSyncLabels ∧
        ∀ t, 1 ≤ t → t ≤ cfg.serverCount → t ≠ cfg.serverCount →
          .called cfg.serverCount t id ∈ log ∧
          (.answered cfg.serverCount t id ∈ log → id ∈ (σ.server t).pbSyncLabels)) ∧
      ∀ s, ∀ id ∈ (σ.server s).pbSyncLabels, id ∈ (σ.server cfg.serverCount).packedIds := by
  have h := synced_of_run hS hr
  have hreach : Reachable cfg crypto unguarded σ := hr.of_record fun _ _ _ => rfl
  refine ⟨fun hqueues hsync hpack hsend id hid => ?_, fun s id hid => ?_⟩
  · obtain ⟨hl, hc⟩ := h.signalled.rest hpack hsend hqueues hsync hid
    exact ⟨hl, fun t h1 h2 hne => ⟨hc t (mem_peerIds.mpr ⟨h1, h2, hne⟩), h.answered _ t id⟩⟩
  · exact ((packedFlow_clean hreach).server s).labels id hid

/-- The packing and relaying threads of the server have nothing to do. -/
def Server.relayAtRest (srv : Server G) : Bool :=
  srv.relayBlocks.toList.all (fun tq => tq.2.isEmpty) && srv.pbSyncQueue.isEmpty &&
    decide (srv.pack = .check) &&
    match srv.send .block with
    | .idle => true
    | _ => false

/-- Server 3 relays the block to both peers and gives the signal after each of the two calls. All calls
succeed, and the relay comes to rest. -/
theorem packed_labelled_both :
    ∃ σ log, Run (record (step Script.lateConfig Crypto.symbolic)
        (syncEvents Script.lateConfig Crypto.symbolic)) (fun _ _ => True)
        (State.init Script.lateConfig, []) (σ, log) ∧
      3000000 ∈ (σ.server 3).packedIds ∧ 3000000 ∈ (σ.server 3).pbSyncLabels ∧
      ∀ t ∈ [1, 2], .called 3 t 3000000 ∈ log ∧ 3000000 ∈ (σ.server t).pbSyncLabels := by
  obtain ⟨⟨σ, log⟩, hr, hx⟩ := Run.exists_of_exec (fun _ _ _ => trivial)
    (show (exec (record (step Script.lateConfig Crypto.symbolic)
        (syncEvents Script.lateConfig Crypto.symbolic)) (fun _ _ => true)
      (State.init Script.lateConfig, [])
        (Script.packLate ++ [.server 3 .packEnd, .server 3 (.sendStart .block)] ++
          Script.send 3 .block ++ Script.send 3 .block ++ Script.syncBoth.dropLast ++
          Script.syncBoth)).any
      (fun x => (x.1.server 3).relayAtRest && ((x.1.server 3).packedIds == [3000000]) &&
        [1, 2].all fun t => x.2.contains (.answered 3 t 3000000)) = true
      by decide +kernel)
  simp only [Bool.and_eq_true, beq_iff_eq, List.all_eq_true, List.contains_iff_mem] at hx
  obtain ⟨⟨hrest, hpacked⟩, hanswered⟩ := hx
  simp only [Server.relayAtRest, Bool.and_eq_true, decide_eq_true_iff, List.all_eq_true,
    List.isEmpty_iff] at hrest
  obtain ⟨⟨⟨hqueues, hsync⟩, hpack⟩, hsend⟩ := hrest
  have hidle : (σ.server 3).send .block = .idle := by
    revert hsend
    cases (σ.server 3).send .block <;> simp
  have hid : 3000000 ∈ (σ.server 3).packedIds := by
    rw [hpacked]
    exact List.mem_singleton_self _
  obtain ⟨hlabel, hpeers⟩ := (packed_labelled (by decide) hr).1
    (fun t q hq => hqueues (t, q) (Std.ExtTreeMap.mem_toList_iff_getElem?_eq_some.mpr hq)) hsync
    (.inl hpack) hidle 3000000 hid
  refine ⟨σ, log, hr, hid, hlabel, fun t ht => ?_⟩
  have hpeer : t = 1 ∨ t = 2 := by simpa using ht
  have hle : t ≤ Script.lateConfig.serverCount := show t ≤ 3 by omega
  have hne : t ≠ Script.lateConfig.serverCount := show t ≠ 3 by omega
  obtain ⟨hcalled, hlabelled⟩ := hpeers t (by omega) hle hne
  exact ⟨hcalled, hlabelled (hanswered t ht)⟩

end TomChain
