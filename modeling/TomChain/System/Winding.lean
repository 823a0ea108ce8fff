import TomChain.System.Settling

/-!
# Winding up

A server relays a block to all its peers before it gives the sync signal, if `send_relay_blocks` begins
no loop while `pack_block` still pushes a block to the queues. So from a state in which the thread is
between two loops the system can come to rest without loss: no signal overtakes its block.
-/

namespace TomChain

open Std (ExtTreeMap)
open Runs Server
open Flexbuffers (Flex fromBytes toBytes)

variable {G D : Type} {cfg : Config} {crypto : Crypto G D} {σ σ' : State G} {a : Action G}

theorem Reachable.toHonest (h : Reachable cfg crypto (delivering cfg) σ) :
    Reachable cfg crypto honest σ :=
  h.mono fun _ _ ha => honest_of_reliable (reliable_of_delivering ha)

/-! ## The order of the relay -/

def PackPc.pushing : PackPc → Bool
  | .push _ _ _ _ _ => true
  | _ => false

/-- The relay thread of the blocks is not in a loop while blocks are pushed to its queues, and it has
left only empty queues behind. -/
structure Server.Orderly (srv : Server G) : Prop where
  pack : srv.pack.pushing = true → srv.send .block = .idle
  behind : srv.send .block ≠ .idle → ∀ t, t ∉ (srv.send .block).ahead → srv.queueLength .block t = 0

/-- The system settles, and no loop of `send_relay_blocks` begins while a block is pushed. -/
def winding (σ : State G) (a : Action G) : Bool :=
  settling σ a &&
  match a with
  | .server s (.sendStart .block) => !(σ.server s).pack.pushing
  | _ => true

theorem settling_of_winding (h : winding σ a) : settling σ a := by
  simp only [winding, Bool.and_eq_true] at h
  exact h.1

namespace Server

variable {s : ℕ} {srv srv' : Server G} {merge : List (BLSSigShare G) → BLSSignature G}

theorem Orderly.of_idle (h : srv.send .block = .idle) : srv.Orderly :=
  ⟨fun _ => h, fun hne => absurd h hne⟩

theorem Orderly.same (h : srv.Orderly) (hpack : srv'.pack.pushing = true → srv.pack.pushing = true)
    (hsend : srv'.send .block = srv.send .block)
    (hlen : ∀ t, srv'.queueLength .block t = srv.queueLength .block t) : srv'.Orderly where
  pack hp := by
    rw [hsend]
    exact h.pack (hpack hp)
  behind := by
    rw [hsend]
    intro hne t ht
    rw [hlen]
    exact h.behind hne t ht

theorem Orderly.advance {pc : SendPc G} (hpack : srv.pack.pushing = false)
    (hbehind : ∀ t, t ∉ pc.ahead → srv.queueLength .block t = 0) : (srv.setSend .block pc).Orderly where
  pack hp := by
    rw [setSend_pack, hpack] at hp
    cases hp
  behind _ t ht := by
    rw [setSend_send] at ht
    exact hbehind t ht

theorem Orderly.other (h : srv.Orderly) {ch : Chan} (hch : ch ≠ .block) (pc : SendPc G) :
    (srv.setSend ch pc).Orderly :=
  h.same id (setSend_send_ne srv hch pc) fun _ => rfl

theorem Orderly.not_pushing (h : srv.Orderly) (hne : srv.send .block ≠ .idle) :
    srv.pack.pushing = false := by
  by_contra hp
  exact hne (h.pack (by simpa using hp))

theorem queueLength_of_not_mem (hq : srv.QueuesOk cfg s) {t : ℕ} (ht : t ∉ peerIds cfg.serverCount s) :
    srv.queueLength .block t = 0 := by
  rw [← hq.blocks, ExtTreeMap.mem_iff_isSome_getElem?, Option.not_isSome_iff_eq_none] at ht
  simp [queueLength, queueLen, ht]

theorem Orderly.pop (h : srv.Orderly) {ch : Chan} {t : ℕ} {items items' : List (Flex G)}
    {ids ids' ids'' rest : List ℕ} {srv₁ : Server G} {item : Flex G}
    (hpc : srv.send ch = .drain t items ids rest) (hpop : srv.Pops t ch srv₁ item ids') :
    (srv₁.setSend ch (.drain t items' ids'' rest)).Orderly := by
  cases hpop with
  | vote | commit =>
    refine Orderly.other ?_ (by simp) _
    exact h.same id rfl fun _ => rfl
  | block p q b hqt hb =>
    have hne : srv.send .block ≠ .idle := by simp [hpc]
    refine .advance (h.not_pushing hne) fun t' ht' => ?_
    have htt : t' ≠ t := fun he => ht' (by rw [he]; exact List.mem_cons_self ..)
    have hlen : queueLen (srv.relayBlocks.insert t q) t' = queueLen srv.relayBlocks t' := by
      rw [queueLen_insert, if_neg htt]
    exact hlen.trans (h.behind hne t' (by rw [hpc]; exact ht'))

theorem Orderly.go (h : srv.Orderly) {ch : Chan} {out : Option (ℕ × Rpc G)}
    (hact : srv.act cfg merge s (.sendGo ch) = some (srv', out)) : srv'.Orderly := by
  obtain ⟨t, items, ids, rest, hpc, hempty, hgo⟩ := act_sendGo hact
  by_cases hch : ch = .block
  · subst hch
    have hne : srv.send .block ≠ .idle := by simp [hpc]
    have hbehind : ∀ t', t' ∉ rest → srv.queueLength .block t' = 0 := by
      intro t' ht'
      by_cases htt : t' = t
      · rw [htt]
        exact hempty
      · refine h.behind hne t' ?_
        rw [hpc]
        exact fun hm => (List.mem_cons.mp hm).elim htt ht'
    rcases hgo with ⟨-, hsrv, -⟩ | ⟨hsrv, -⟩
    · rw [hsrv]
      exact .advance (h.not_pushing hne) fun t' ht' => hbehind t' (by rwa [ahead_nextTarget] at ht')
    · rw [hsrv]
      exact .advance (h.not_pushing hne) fun t' ht' => hbehind t' ht'
  · rcases hgo with ⟨-, hsrv, -⟩ | ⟨hsrv, -⟩
    · rw [hsrv]
      exact h.other hch _
    · rw [hsrv]
      exact h.other hch _

theorem Orderly.act (h : srv.Orderly) (hq : srv.QueuesOk cfg s) {sa : ServerAction}
    {out : Option (ℕ × Rpc G)} (hset : srv.settling sa = true)
    (hstart : sa = .sendStart .block → srv.pack.pushing = false)
    (hact : srv.act cfg merge s sa = some (srv', out)) : srv'.Orderly := by
  cases acts_of_act hact with
  | packCheck | packGenerate | packBegin | packEnd | reap => cases hset
  | packPush i p id t peers ids hpc =>
    have hidle : srv.send .block = .idle := h.pack (by rw [hpc]; rfl)
    exact .of_idle hidle
  | packInsert => exact h.same (fun hp => by cases hp) rfl fun _ => rfl
  | sendStart ch hpc =>
    by_cases hch : ch = .block
    · subst hch
      refine .advance (hstart rfl) fun t ht => ?_
      rw [ahead_nextTarget] at ht
      exact queueLength_of_not_mem hq ht
    · exact h.other hch _
  | sendPop ch t items ids rest srv₁ item ids' hpc hpop => exact h.pop hpc hpop
  | sendSkip | sendGo => exact h.go hact
  | syncIdle => exact .of_idle (setSend_send ..)
  | syncPop id q hpc =>
    have hne : srv.send .block ≠ .idle := by simp [hpc]
    exact .advance (h.not_pushing hne) fun t ht => h.behind hne t (by rw [hpc]; exact ht)
  | syncSend id t rest hpc =>
    have hne : srv.send .block ≠ .idle := by simp [hpc]
    exact .advance (h.not_pushing hne) fun t ht => h.behind hne t (by rw [hpc]; exact ht)
  | syncLabel id hpc =>
    have hne : srv.send .block ≠ .idle := by simp [hpc]
    exact .advance (h.not_pushing hne) fun t ht => h.behind hne t (by rw [hpc]; exact ht)
  | mergePop | mergeCommit | mergePush | mergeDone => exact h.same id rfl fun _ => rfl

theorem Orderly.resume (h : srv.Orderly) {ch : Chan} (hr : srv.resumeSend ch = some srv') :
    srv'.Orderly := by
  rcases resumeSend_eq hr with ⟨t, ids, rest, hpc, rfl⟩ | ⟨id, t, rest, hpc, rfl⟩
  · by_cases hch : ch = .block
    · subst hch
      have hne : srv.send .block ≠ .idle := by simp [hpc]
      refine .advance (h.not_pushing hne) fun t' ht' => h.behind hne t' ?_
      rw [ahead_nextTarget] at ht'
      rw [hpc]
      exact ht'
    · refine Orderly.other ?_ hch _
      exact h.same id rfl fun _ => rfl
  · by_cases hch : ch = .block
    · subst hch
      have hne : srv.send .block ≠ .idle := by simp [hpc]
      exact .advance (h.not_pushing hne) fun t' ht' => h.behind hne t' (by rw [hpc]; exact ht')
    · exact h.other hch _

theorem Orderly.handles (h : srv.Orderly) {now : ℕ} {rpc rpc' : Rpc G}
    (hh : srv.Handles cfg s now rpc srv' rpc') : srv'.Orderly := by
  refine h.same (fun hp => by rwa [hh.sameThreads.pack] at hp) (by rw [hh.sameThreads.send]) fun t => ?_
  rw [queueLength, queueLength, hh.sameThreads.relayBlocks]

end Server

theorem orderly_step {ok : State G → Action G → Bool} (hr : Reachable cfg crypto ok σ) {s : ℕ}
    (h : (σ.server s).Orderly) (ha : winding σ a) (hs : step cfg crypto σ a = some σ') :
    (σ'.server s).Orderly := by
  have hset := settling_of_winding ha
  have hkeep : ∀ {s' : ℕ} {srv' : Server G}, (s = s' → srv'.Orderly) →
      ((σ.setServer s' srv').server s).Orderly := by
    intro s' srv' hsrv
    rw [State.setServer_server]
    split
    · rename_i he
      exact hsrv he
    · exact h
  cases steps_of_step hs with
  | server s' sa srv' out h1 h2 _ =>
    -- the queue that a relay thread leaves is empty by the guard in the function
    simp only [step, if_pos (And.intro h1 h2), Option.map_eq_some_iff, Prod.exists] at hs
    obtain ⟨srv₁, out₁, hact, he⟩ := hs
    rw [← he, State.addCall_server]
    refine hkeep fun hss => ?_
    subst hss
    refine h.act (hr.relayOk s).1 hset (fun hsa => ?_) hact
    subst hsa
    simpa [winding, hset] using ha
  | client => rw [State.addCall_server]; exact h
  | handle i now order call srv' rpc' hi hh =>
    refine hkeep fun hss => ?_
    subst hss
    exact h.handles hh
  | retOrphan => exact h
  | ret i call θ _ _ _ _ hres =>
    cases hres with
    | send s' ch srv' hrs =>
      refine hkeep fun hss => ?_
      subst hss
      exact h.resume hrs
    | pull | vote => exact h
  | failOrphan | fail | foreign => cases hset

/-! ## Who made a call -/

/-- Where the calls after a step come from when no call fails and clients run `TcClient`. -/
theorem Steps.calls_of_reliable (ha : reliable cfg σ a) (hs : Steps cfg crypto σ a σ') {call : Call G}
    (hm : call ∈ σ'.calls) :
    call ∈ σ.calls ∨
    (∃ s sa srv', 1 ≤ s ∧ s ≤ cfg.serverCount ∧ call.caller = some (.send s sa.chan) ∧
      (σ.server s).Acts cfg crypto.merge s sa srv' (some (call.target, call.rpc))) ∨
    (∃ c ca cl', call.caller = some (ca.thread c) ∧
      (σ.client c).Acts cfg crypto c ca cl' (some (call.target, call.rpc))) ∨
    (∃ now, ∃ call₀ ∈ σ.calls, call₀.target = call.target ∧ call₀.caller = call.caller ∧
      (σ.server call.target).Handles cfg call.target now call₀.rpc (σ'.server call.target)
        call.rpc) := by
  cases hs with
  | server s sa srv' out h1 h2 hact =>
    rcases State.mem_addCall hm with hm | ⟨r, rfl, rfl⟩
    · exact .inl hm
    · exact .inr (.inl ⟨s, sa, srv', h1, h2, rfl, hact⟩)
  | client c ca cl' out _ _ hact =>
    rcases State.mem_addCall hm with hm | ⟨r, rfl, rfl⟩
    · exact .inl hm
    · exact .inr (.inr (.inl ⟨c, ca, cl', rfl, hact⟩))
  | handle i now order call₀ srv' rpc' hi hh =>
    rcases List.mem_or_eq_of_mem_set hm with hm | rfl
    · exact .inl hm
    · exact .inr (.inr (.inr ⟨now, call₀, List.mem_of_getElem? hi, rfl, rfl, by simpa using hh⟩))
  | retOrphan => exact .inl (List.mem_of_mem_eraseIdx hm)
  | ret i call₀ θ _ _ _ _ hres =>
    rw [hres.calls] at hm
    exact .inl (List.mem_of_mem_eraseIdx hm)
  | failOrphan | fail | foreign => cases ha

/-- The thread that makes calls of this kind; only the packing server relays blocks. -/
def Rpc.MadeBy (cfg : Config) (θ : Thread) : Rpc G → Prop
  | .relayBlock _ => θ = .send cfg.serverCount .block
  | .pullPendingBlocks c _ _ => θ = .pull c
  | .getBlocks _ _ => ∃ c, θ = .pull c
  | _ => True

theorem Reachable.packer_of_packed {ok : State G → Action G → Bool} (hr : Reachable cfg crypto ok σ)
    {s id : ℕ} (hid : id ∈ (σ.server s).packedIds) : s = cfg.serverCount := by
  by_contra hne
  rw [Server.packedIds, ((hr.packOk s).packer hne).2] at hid
  cases hid

/-- No call fails, so every call has the caller that made it. -/
theorem Reachable.madeBy {ok : State G → Action G → Bool} (hok : ∀ σ a, ok σ a → reliable cfg σ a)
    (hr : Reachable cfg crypto ok σ) :
    ∀ call ∈ σ.calls, ∃ θ, call.caller = some θ ∧ call.rpc.MadeBy cfg θ := by
  refine hr.invariant (fun σ => ∀ call ∈ σ.calls, ∃ θ, call.caller = some θ ∧ call.rpc.MadeBy cfg θ)
    (by simp [State.init]) fun σ a σ' hr ha hmade hs call hm => ?_
  rcases (steps_of_step hs).calls_of_reliable (hok σ a ha) hm with hm |
    ⟨s, sa, srv', _, _, hcaller, hact⟩ | ⟨c, ca, cl', hcaller, hact⟩ | ⟨now, call₀, hm₀, -, hcaller, hh⟩
  · exact hmade call hm
  · refine ⟨_, hcaller, ?_⟩
    generalize call.target = t, call.rpc = rpc at hact
    cases hact with
    | sendGo ch t items ids rest hpc hne =>
      cases ch with
      | vote | commit => trivial
      | block =>
        obtain ⟨item, items, rfl⟩ := List.exists_cons_of_ne_nil hne
        have hkey : wireKey .block item ∈ (σ.server s).backlog .block t := by
          refine List.mem_append_left _ ?_
          simp [hpc, SendPc.drained]
        have hs := Reachable.packer_of_packed hr ((Reachable.relayOk hr s).2.backlog t _ hkey)
        have hthread : Thread.send s .block = .send cfg.serverCount .block := by rw [hs]
        exact hthread
    | syncSend => trivial
  · refine ⟨_, hcaller, ?_⟩
    generalize call.target = t, call.rpc = rpc at hact
    cases hact with
    | pull => rfl
    | get => exact ⟨c, rfl⟩
    | voteSend => trivial
  · obtain ⟨θ, hθ, hk⟩ := hmade call₀ hm₀
    refine ⟨θ, hcaller.symm.trans hθ, ?_⟩
    generalize call₀.rpc = rpc, call.rpc = rpc', σ'.server call.target = srv' at hk hh
    cases hh with
    | relayBlock | pullBegin | pullItem | getItem => exact hk
    | _ => trivial

/-! ## Winding steps lose nothing -/

/-- No handler rejects an element or throws. -/
theorem delivering_of_handle (hS : 1 ≤ cfg.serverCount) (hC : cfg.clientCount ≤ Decimal.intMax)
    (hr : Reachable cfg crypto (delivering cfg) σ) {i now : ℕ} {order : List (ℕ × ℕ)}
    (hs : step cfg crypto σ (.handle i now order) = some σ') :
    delivering cfg σ (.handle i now order) := by
  have hreg := Reachable.registered hS hC (Run.next _ hr.toHonest rfl hs)
  simp only [step] at hs
  cases hi : σ.calls[i]? with
  | none => simp [hi] at hs
  | some call =>
    simp only [hi] at hs
    obtain ⟨⟨srv', rpc'⟩, hh, rfl⟩ := Option.map_eq_some_iff.mp hs
    have hlt := (List.getElem?_eq_some_iff.mp hi).1
    have hbroken : rpc'.broken = false :=
      (hreg { call with rpc := rpc' } (List.mem_of_getElem? (List.getElem?_set_self hlt))).not_broken
    have hrejected : call.rpc.rejected = [] := by
      have hF := (honestFlow_clean (fun _ _ h => h) hr.toHonest).calls call (List.mem_of_getElem? hi)
      unfold Rpc.rejected
      split
      · rename_i item rest hrpc
        rw [hrpc] at hF
        obtain ⟨b, hb, rfl⟩ := hF item (List.mem_cons_self ..)
        rw [if_neg]
        rw [Option.isNone_iff_eq_none, ← Option.not_isSome_iff_eq_none, not_not]
        exact fromBytes_honest hC hb
      · rfl
    simp [delivering, reliable, syncsDelivered, losesBlocks, hi, hh, hbroken, hrejected]

/-- When the relay thread comes to the sync signals, every block has left its queues and the calls. -/
theorem delivering_of_syncPop (hr : Reachable cfg crypto (delivering cfg) σ)
    (ho : (σ.server cfg.serverCount).Orderly) {s : ℕ}
    (hs : step cfg crypto σ (.server s .syncPop) = some σ') :
    delivering cfg σ (.server s .syncPop) := by
  have hsync : (σ.server s).send .block = .sync := by
    cases steps_of_step hs with
    | server _ _ srv' out _ _ hact => cases hact <;> assumption
  simp only [delivering, reliable, syncsDelivered, losesBlocks, Bool.true_and, Bool.not_false,
    Option.all_eq_true, Bool.and_eq_true, Bool.not_eq_true']
  intro id hid
  have hss : s = cfg.serverCount :=
    hr.packer_of_packed ((hr.relayOk s).2.sync id (List.mem_of_mem_head? hid))
  subst hss
  have hne : (σ.server cfg.serverCount).send .block ≠ .idle := by simp [hsync]
  refine ⟨?_, ?_⟩
  · rw [Server.relaying, Bool.or_eq_false_iff]
    constructor
    · have hpack := ho.not_pushing hne
      revert hpack
      cases (σ.server cfg.serverCount).pack with
      | push => exact fun h => by cases h
      | _ => exact fun _ => rfl
    · rw [List.any_eq_false]
      rintro ⟨t, q⟩ hm hk
      have hq := ExtTreeMap.mem_toList_iff_getElem?_eq_some.mp hm
      have hlen := ho.behind hne t (by rw [hsync]; exact List.not_mem_nil)
      rw [Server.queueLength, queueLen_of_getElem? hq, List.length_eq_zero_iff] at hlen
      subst hlen
      simp [pointerKeys] at hk
  · rw [List.any_eq_false]
    intro call hm hk
    obtain ⟨items, hrpc, -⟩ := exists_request_of_carried (List.contains_iff_mem.mp hk)
    obtain ⟨θ, hcaller, hmade⟩ := hr.madeBy (fun _ _ => reliable_of_delivering) call hm
    rw [hrpc] at hmade
    have hθ : θ = .send cfg.serverCount .block := hmade
    have hwaits := hr.waits_of_mem hm hcaller
    rw [hθ, State.waits, hsync] at hwaits
    cases hwaits

/-- A winding step loses nothing. -/
theorem delivering_of_winding (hS : 1 ≤ cfg.serverCount) (hC : cfg.clientCount ≤ Decimal.intMax)
    (hr : Reachable cfg crypto (delivering cfg) σ) (ho : (σ.server cfg.serverCount).Orderly)
    (ha : winding σ a) (hs : step cfg crypto σ a = some σ') : delivering cfg σ a := by
  have hset := settling_of_winding ha
  cases a with
  | server s sa =>
    by_cases hsa : sa = .syncPop
    · subst hsa
      exact delivering_of_syncPop hr ho hs
    · cases sa with
      | reap => cases hset
      | syncPop => exact absurd rfl hsa
      | _ => rfl
  | client => rfl
  | handle i now order => exact delivering_of_handle hS hC hr hs
  | ret => rfl
  | fail | foreign => cases hset

/-! ## To rest -/

/-- The runs from `σ` in which nothing is lost and nothing new is packed. -/
structure Wound (cfg : Config) (crypto : Crypto G D) (σ₀ σ : State G) : Prop where
  reaches : Reaches cfg crypto (delivering cfg) σ₀ σ
  orderly : (σ.server cfg.serverCount).Orderly
  packed : (σ.server cfg.serverCount).packed = (σ₀.server cfg.serverCount).packed

theorem Wound.packed_lt {σ₀ : State G} (hw : Wound cfg crypto σ₀ σ) {n : ℕ}
    (hlt : (σ₀.server cfg.serverCount).packed.length < n) :
    (σ.server cfg.serverCount).packed.length < n := by
  rw [hw.packed]
  exact hlt

theorem Wound.packedIds {σ₀ : State G} (hw : Wound cfg crypto σ₀ σ) :
    (σ.server cfg.serverCount).packedIds = (σ₀.server cfg.serverCount).packedIds := by
  rw [Server.packedIds, hw.packed, Server.packedIds]

theorem lowers_winding (hS : 1 ≤ cfg.serverCount) (hC : cfg.clientCount ≤ Decimal.intMax)
    {σ₀ : State G} (h₀ : Reachable cfg crypto (delivering cfg) σ₀) :
    Lowers (step cfg crypto) (fun σ a => winding σ a) (Wound cfg crypto σ₀) (work cfg) := by
  intro σ a σ' hw ha hs
  have hr : Reachable cfg crypto (delivering cfg) σ := h₀.trans hw.reaches
  have hset := settling_of_winding ha
  refine ⟨⟨?_, orderly_step hr hw.orderly ha hs, ?_⟩, work_lt_of_step hr hset hs⟩
  · exact .next a hw.reaches (delivering_of_winding hS hC hr hw.orderly ha hs) hs
  · rw [(steps_of_step hs).packed_of_settling hset, hw.packed]

/-- Where no winding step is possible, no settling step is: a block that is pushed can be pushed on. -/
theorem stuck_settling (hstuck : Stuck (step cfg crypto) (fun σ a => winding σ a) σ) :
    Stuck (step cfg crypto) (fun σ a => settling σ a) σ := by
  intro a σ' hset hs
  have hnot : winding σ a ≠ true := fun ha => hstuck a σ' ha hs
  simp only [winding, hset, Bool.true_and] at hnot
  split at hnot
  swap
  · exact hnot rfl
  rename_i s
  have hpushing : (σ.server s).pack.pushing = true := by simpa using hnot
  have hgo : ∀ sa, sa = .packPush ∨ sa = .packInsert → ∀ r,
      (σ.server s).act cfg crypto.merge s sa ≠ some r := by
    intro sa hsa r hact
    have hrange : 1 ≤ s ∧ s ≤ cfg.serverCount := by
      by_contra hne
      simp [step, hne] at hs
    refine hstuck (.server s sa) _ ?_ (by simp only [step, if_pos hrange, hact, Option.map_some]; rfl)
    rcases hsa with rfl | rfl <;> rfl
  cases hpc : (σ.server s).pack with
  | push i p id peers ids =>
    cases peers with
    | nil => exact hgo .packInsert (.inr rfl) _ (by simp only [Server.act, hpc]; rfl)
    | cons t peers => exact hgo .packPush (.inl rfl) _ (by simp only [Server.act, hpc]; rfl)
  | check | generate | pack =>
    rw [hpc] at hpushing
    cases hpushing

/-- A relay thread that has no work left is between two loops. -/
theorem SendPc.eq_idle_of_work {S : ℕ} {ch : Chan} {pc : SendPc G} (h : pc.work S ch = 0) :
    pc = .idle := by
  cases pc with
  | idle => rfl
  | drain | wait | sync | syncSend | syncWait => simp [SendPc.work] at h

/-- The system can be wound up: nothing is lost until it rests, and no block is packed. -/
theorem exists_wound (hS : 1 ≤ cfg.serverCount) (hC : cfg.clientCount ≤ Decimal.intMax)
    (htx : cfg.txPerBlock ≤ Client.strvecSize) (h : Reachable cfg crypto (delivering cfg) σ)
    (ho : (σ.server cfg.serverCount).Orderly) :
    ∃ σ', Run (step cfg crypto) (fun σ a => winding σ a) σ σ' ∧ Wound cfg crypto σ σ' ∧
      Resting cfg σ' := by
  obtain ⟨σ', hr, hstuck⟩ := Run.exists_stuck (lowers_winding hS hC h) ⟨.refl, ho, rfl⟩
  have hw := (lowers_winding hS hC h).inv ⟨.refl, ho, rfl⟩ hr
  have hhonest := Reachable.toHonest (h.trans hw.reaches)
  exact ⟨σ', hr, hw, resting_of_stuck hS hC htx hhonest (stuck_settling hstuck)⟩

end TomChain
