import TomChain.Server.Backlog

/-!
# From packing to the sync label

The id of a packed block goes through a relay queue, the `tmp_sync_vec` of a `RelayBlock` call and
`pb_sync_queue` to `send_relay_block_sync`, which calls every peer before it labels the block here.
No step loses an id on the way, with whatever status the calls end (`Signalled`).
-/

namespace TomChain.Server

open Std (ExtTreeMap ExtTreeSet)

variable {G : Type} {cfg : Config} {merge : List (BLSSigShare G) → BLSSignature G} {s : ℕ}
  {srv srv' : Server G} {called called' : ℕ → ℕ → Prop} {id : ℕ}

/-- The places on the way to the label. While the packing thread still has a queue to push to, the
block is on its way even if a relay thread has taken it from all queues before. -/
inductive Underway (srv : Server G) (id : ℕ) : Prop
  | pack (i p t : ℕ) (peers ids : List ℕ) : srv.pack = .push i p id (t :: peers) ids → Underway srv id
  | queue (t : ℕ) (q : List ℕ) (p : ℕ) : srv.relayBlocks[t]? = some q → p ∈ q → srv.idAt p = some id →
      Underway srv id
  | request : id ∈ (srv.send .block).ids → Underway srv id
  | sync : id ∈ srv.pbSyncQueue → Underway srv id
  | signal (targets : List ℕ) : srv.send .block = .syncSend id targets → Underway srv id
  | wait (t : ℕ) (rest : List ℕ) : srv.send .block = .syncWait id t rest → Underway srv id

/-- How far `send_relay_block_sync` is: `called t id` says that the call to `t` was made. -/
def SignalsTo (cfg : Config) (s : ℕ) (called : ℕ → ℕ → Prop) (id : ℕ) (rest : List ℕ) : Prop :=
  ∀ t ∈ peerIds cfg.serverCount s, t ∉ rest → called t id

/-- Every packed id is on its way, or every peer was called and the id is labelled. -/
structure Signalled (cfg : Config) (s : ℕ) (called : ℕ → ℕ → Prop) (srv : Server G) : Prop where
  filled : ∀ t items ids rest, srv.send .block = .drain t items ids rest → items.length = ids.length
  signal : ∀ id rest, srv.send .block = .syncSend id rest → SignalsTo cfg s called id rest
  wait : ∀ id t rest, srv.send .block = .syncWait id t rest → SignalsTo cfg s called id rest
  packed : ∀ id ∈ srv.packedIds, srv.Underway id ∨
    (id ∈ srv.pbSyncLabels ∧ ∀ t ∈ peerIds cfg.serverCount s, called t id)

theorem signalled_init (cfg : Config) (s : ℕ) (called : ℕ → ℕ → Prop) :
    (Server.init cfg s : Server G).Signalled cfg s called where
  filled t items ids rest h := by cases h
  signal id rest h := by cases h
  wait id t rest h := by cases h
  packed id h := by cases h

theorem Signalled.mono (h : srv.Signalled cfg s called) (hc : ∀ t id, called t id → called' t id) :
    srv.Signalled cfg s called' where
  filled := h.filled
  signal id rest hp t ht hn := hc t id (h.signal id rest hp t ht hn)
  wait id t rest hp t' ht hn := hc t' id (h.wait id t rest hp t' ht hn)
  packed id hid := (h.packed id hid).imp_right fun hl => ⟨hl.1, fun t ht => hc t id (hl.2 t ht)⟩

/-- A step that leaves the relay thread of the blocks alone and moves pushes to the queues at most. -/
theorem Signalled.frame (h : srv.Signalled cfg s called) (hg : HeapGrows srv.heap srv'.heap)
    (hp : ∀ id ∈ srv'.packedIds, id ∈ srv.packedIds ∨ srv'.Underway id)
    (hsend : srv'.send .block = srv.send .block) (hsync : srv'.pbSyncQueue = srv.pbSyncQueue)
    (hlabels : ∀ id ∈ srv.pbSyncLabels, id ∈ srv'.pbSyncLabels)
    (hqueue : ∀ (t : ℕ) q, srv.relayBlocks[t]? = some q →
      ∃ q', srv'.relayBlocks[t]? = some q' ∧ ∀ p ∈ q, p ∈ q')
    (hpack : ∀ i p id t peers ids, srv.pack = .push i p id (t :: peers) ids → srv'.Underway id) :
    srv'.Signalled cfg s called where
  filled := by rw [hsend]; exact h.filled
  signal := by rw [hsend]; exact h.signal
  wait := by rw [hsend]; exact h.wait
  packed := by
    intro id hid
    rcases hp id hid with hid | hu
    swap
    · exact .inl hu
    rcases h.packed id hid with hu | ⟨hl, hc⟩
    · refine .inl ?_
      cases hu with
      | pack i p t peers ids hpc => exact hpack i p id t peers ids hpc
      | queue t q p hq hm hid =>
        obtain ⟨q', hq', hsub⟩ := hqueue t q hq
        exact .queue t q' p hq' (hsub p hm) (idAt_grows hg hid)
      | request hm => exact .request (by rw [hsend]; exact hm)
      | sync hm => exact .sync (by rw [hsync]; exact hm)
      | signal targets hpc => exact .signal targets (by rw [hsend]; exact hpc)
      | wait t rest hpc => exact .wait t rest (by rw [hsend]; exact hpc)
    · exact .inr ⟨hlabels id hl, hc⟩

theorem Signalled.same (h : srv.Signalled cfg s called) (hg : HeapGrows srv.heap srv'.heap)
    (hpack : srv'.pack = srv.pack) (hp : srv'.packedIds = srv.packedIds)
    (hsend : srv'.send .block = srv.send .block) (hsync : srv'.pbSyncQueue = srv.pbSyncQueue)
    (hlabels : ∀ id ∈ srv.pbSyncLabels, id ∈ srv'.pbSyncLabels)
    (hqueue : srv'.relayBlocks = srv.relayBlocks) : srv'.Signalled cfg s called := by
  refine h.frame hg (fun id hid => .inl (by rw [← hp]; exact hid)) hsend hsync hlabels
    (fun t q hq => ⟨q, by rw [hqueue]; exact hq, fun _ hp => hp⟩) ?_
  intro i p id t peers ids hpc
  exact .pack i p t peers ids (by rw [hpack]; exact hpc)

theorem Signalled.idle (h : srv.Signalled cfg s called) (hg : HeapGrows srv.heap srv'.heap)
    (hpack : ∀ i p id t peers ids, srv.pack ≠ .push i p id (t :: peers) ids)
    (hp : ∀ id ∈ srv'.packedIds, id ∈ srv.packedIds ∨ srv'.Underway id)
    (hsend : srv'.send .block = srv.send .block) (hsync : srv'.pbSyncQueue = srv.pbSyncQueue)
    (hlabels : srv'.pbSyncLabels = srv.pbSyncLabels) (hqueue : srv'.relayBlocks = srv.relayBlocks) :
    srv'.Signalled cfg s called := by
  refine h.frame hg hp hsend hsync (fun id hid => by rw [hlabels]; exact hid)
    (fun t q hq => ⟨q, by rw [hqueue]; exact hq, fun _ hp => hp⟩) ?_
  intro i p id t peers ids hpc
  exact absurd hpc (hpack i p id t peers ids)

/-- A step of the relay thread of the blocks, which goes on to `pc`. -/
theorem Signalled.relay (h : srv.Signalled cfg s called) {pc : SendPc G}
    (hpc : srv'.send .block = pc) (hpack : srv'.pack = srv.pack) (hp : srv'.packedIds = srv.packedIds)
    (hlabels : ∀ id ∈ srv.pbSyncLabels, id ∈ srv'.pbSyncLabels)
    (hfilled : ∀ t items ids rest, pc = .drain t items ids rest → items.length = ids.length)
    (hsignal : ∀ id rest, pc = .syncSend id rest → SignalsTo cfg s called id rest)
    (hwait : ∀ id t rest, pc = .syncWait id t rest → SignalsTo cfg s called id rest)
    (hqueue : ∀ (t : ℕ) q p, srv.relayBlocks[t]? = some q → p ∈ q → ∀ id, srv.idAt p = some id →
      srv'.Underway id)
    (hrest : ∀ id, id ∈ (srv.send .block).ids ∨ id ∈ srv.pbSyncQueue ∨
      (∃ targets, srv.send .block = .syncSend id targets) ∨
      (∃ t rest, srv.send .block = .syncWait id t rest) →
        srv'.Underway id ∨ (id ∈ srv'.pbSyncLabels ∧ ∀ t ∈ peerIds cfg.serverCount s, called t id)) :
    srv'.Signalled cfg s called where
  filled := by rw [hpc]; exact hfilled
  signal := by rw [hpc]; exact hsignal
  wait := by rw [hpc]; exact hwait
  packed := by
    intro id hid
    rw [hp] at hid
    rcases h.packed id hid with hu | ⟨hl, hc⟩
    · cases hu with
      | pack i p t peers ids hpc => exact .inl (.pack i p t peers ids (by rw [hpack]; exact hpc))
      | queue t q p hq hm hid => exact .inl (hqueue t q p hq hm id hid)
      | request hm => exact hrest id (.inl hm)
      | sync hm => exact hrest id (.inr (.inl hm))
      | signal targets hpc => exact hrest id (.inr (.inr (.inl ⟨targets, hpc⟩)))
      | wait t rest hpc => exact hrest id (.inr (.inr (.inr ⟨t, rest, hpc⟩)))
    · exact .inr ⟨hlabels id hl, hc⟩

theorem setSend_send_ne (srv : Server G) {ch : Chan} (hne : ch ≠ .block) (pc : SendPc G) :
    (srv.setSend ch pc).send .block = srv.send .block := by
  simp [setSend, Function.update_of_ne hne.symm]

theorem setSend_send (srv : Server G) (ch : Chan) (pc : SendPc G) : (srv.setSend ch pc).send ch = pc := by
  simp [setSend]

theorem Signalled.other (h : srv.Signalled cfg s called) {ch : Chan} (hne : ch ≠ .block)
    (pc : SendPc G) : (srv.setSend ch pc).Signalled cfg s called :=
  h.same (.refl _) rfl rfl (setSend_send_ne srv hne pc) rfl (fun _ hl => hl) rfl

theorem Signalled.goto (h : srv.Signalled cfg s called) {pc : SendPc G}
    (hfilled : ∀ t items ids rest, pc = .drain t items ids rest → items.length = ids.length)
    (hsignal : ∀ id rest, pc = .syncSend id rest → SignalsTo cfg s called id rest)
    (hwait : ∀ id t rest, pc = .syncWait id t rest → SignalsTo cfg s called id rest)
    (hids : ∀ id ∈ (srv.send .block).ids, id ∈ pc.ids)
    (hcurrent : ∀ id, (∃ targets, srv.send .block = .syncSend id targets) ∨
      (∃ t rest, srv.send .block = .syncWait id t rest) →
        (∃ targets, pc = .syncSend id targets) ∨ ∃ t rest, pc = .syncWait id t rest) :
    (srv.setSend .block pc).Signalled cfg s called := by
  have hpc : (srv.setSend .block pc).send .block = pc := setSend_send srv .block pc
  refine h.relay hpc rfl rfl (fun _ hl => hl) hfilled hsignal hwait
    (fun t q p hq hp id hid => .queue t q p hq hp hid) fun id hid => .inl ?_
  rcases hid with hid | hid | hid
  · exact .request (by rw [hpc]; exact hids id hid)
  · exact .sync hid
  · rcases hcurrent id hid with ⟨targets, he⟩ | ⟨t, rest, he⟩
    · exact .signal targets (hpc.trans he)
    · exact .wait t rest (hpc.trans he)

theorem Signalled.next (h : srv.Signalled cfg s called) (rest : List ℕ)
    (hpc : srv.send .block = .idle ∨ ∃ t rest, srv.send .block = .drain t [] [] rest) :
    (srv.setSend .block (nextTarget .block rest)).Signalled cfg s called := by
  refine h.goto (fun t items ids rest' he => ?_) (fun id rest' he => ?_) (fun id t rest' he => ?_)
    (fun id hid => ?_) fun id hid => ?_
  · cases rest <;> cases he
    rfl
  · cases rest <;> cases he
  · cases rest <;> cases he
  · rcases hpc with hpc | ⟨t, rest, hpc⟩ <;> rw [hpc] at hid <;> cases hid
  · rcases hpc with hpc | ⟨t, rest, hpc⟩ <;> rw [hpc] at hid <;>
      rcases hid with ⟨_, hid⟩ | ⟨_, _, hid⟩ <;> cases hid

/-! ### The packing thread -/

theorem Signalled.packBegin (h : srv.Signalled cfg s called) (hq : srv.QueuesOk cfg s)
    (hS : 2 ≤ cfg.serverCount) {i now : ℕ} {order : List ℕ} (hpc : srv.pack = .pack i) :
    (srv.packBegin cfg i now order).Signalled cfg s called := by
  refine h.idle (.append _ _) (by simp [hpc]) (fun id hid => ?_) rfl rfl rfl rfl
  rw [packedIds, Server.packBegin, List.map_append, List.mem_append] at hid
  rcases hid with hid | hid
  · exact .inl hid
  · rw [List.mem_singleton.mp hid]
    obtain ⟨t, ht⟩ : ∃ t, t ∈ peerIds cfg.serverCount s := by
      by_cases hs : s = 1
      · exact ⟨2, mem_peerIds.mpr ⟨by omega, hS, by omega⟩⟩
      · exact ⟨1, mem_peerIds.mpr ⟨le_rfl, by omega, by omega⟩⟩
    have hkeys : t ∈ srv.relayBlocks.keys := ExtTreeMap.mem_keys.mpr ((hq.blocks t).mpr ht)
    obtain ⟨t', peers, hpeers⟩ := List.exists_cons_of_ne_nil (List.ne_nil_of_mem hkeys)
    refine .inr (.pack i srv.heap.length t' peers (extractTx cfg.txPerBlock 0 order) ?_)
    rw [← hpeers]
    rfl

/-- The new block is in the queue before the packing thread leaves it. -/
theorem Signalled.packPush (h : srv.Signalled cfg s called) (hwf : srv.WF) (hq : srv.QueuesOk cfg s)
    {i p id t : ℕ} {peers ids : List ℕ} (hpc : srv.pack = .push i p id (t :: peers) ids) :
    Signalled cfg s called { srv with
      relayBlocks := srv.relayBlocks.modify t (· ++ [p])
      pack := .push i p id peers ids } := by
  have hmodify : ∀ (t' : ℕ) q, srv.relayBlocks[t']? = some q →
      ∃ q', (srv.relayBlocks.modify t (· ++ [p]))[t']? = some q' ∧ ∀ p ∈ q, p ∈ q' := by
    intro t' q hq'
    rw [ExtTreeMap.getElem?_modify, hq']
    split
    · rename_i he
      rw [Nat.compare_eq_eq.mp he, hq']
      exact ⟨q ++ [p], rfl, fun _ hp => List.mem_append_left _ hp⟩
    · exact ⟨q, rfl, fun _ hp => hp⟩
  refine h.frame (.refl _) (fun _ hid => .inl hid) rfl rfl (fun _ hl => hl) hmodify ?_
  intro i' p' id' t' peers' ids' hpush
  rw [hpc] at hpush
  cases hpush
  have ht : t ∈ srv.relayBlocks :=
    (hq.blocks t).mpr ((hq.pack _ _ _ _ _ hpc).2 t (List.mem_cons_self ..))
  obtain ⟨q, hq'⟩ := Option.isSome_iff_exists.mp (ExtTreeMap.mem_iff_isSome_getElem?.mp ht)
  refine .queue t (q ++ [p]) p ?_ (List.mem_append_right _ (List.mem_singleton_self p))
    (hwf.pack _ _ _ _ _ hpc)
  rw [ExtTreeMap.getElem?_modify]
  simp [hq']

/-! ### The relay thread -/

/-- A block moves from its queue to the request. -/
theorem Signalled.pop (h : srv.Signalled cfg s called) {t p : ℕ} {items : List (Flexbuffers.Flex G)}
    {item : Flexbuffers.Flex G} {ids rest q : List ℕ} {b : Block G}
    (hpc : srv.send .block = .drain t items ids rest) (hq : srv.relayBlocks[t]? = some (p :: q))
    (hb : srv.heap[p]? = some b) :
    (Server.setSend { srv with relayBlocks := srv.relayBlocks.insert t q } .block
      (.drain t (items ++ [item]) (ids ++ [b.header.id]) rest)).Signalled cfg s called := by
  have hfill := h.filled _ _ _ _ hpc
  refine h.relay (setSend_send _ _ _) rfl rfl (fun _ hl => hl) (fun t' items' ids' rest' he => ?_)
    (fun _ _ he => by cases he) (fun _ _ _ he => by cases he)
    (fun t' q' p' hq' hp' id hid => ?_) fun id hid => .inl ?_
  · cases he
    rw [List.length_append, List.length_append, hfill]
    rfl
  · by_cases hpop : t' = t ∧ p' = p
    · obtain ⟨rfl, rfl⟩ := hpop
      refine .request ?_
      rw [idAt, hb] at hid
      cases hid
      rw [setSend_send]
      exact List.mem_append_right _ (List.mem_singleton_self _)
    · by_cases ht : t' = t
      · subst ht
        rw [hq] at hq'
        cases hq'
        have hp : p' ≠ p := fun he => hpop ⟨rfl, he⟩
        exact .queue t' q p' ExtTreeMap.getElem?_insert_self
          ((List.mem_cons.mp hp').resolve_left hp) hid
      · refine .queue t' q' p' ?_ hp' hid
        have hne : (srv.relayBlocks.insert t q)[t']? = srv.relayBlocks[t']? := by
          rw [ExtTreeMap.getElem?_insert, if_neg (by simpa using Ne.symm ht)]
        exact hne.trans hq'
  · rw [hpc] at hid
    rcases hid with hid | hid | ⟨_, hid⟩ | ⟨_, _, hid⟩
    · exact .request (by rw [setSend_send]; exact List.mem_append_left _ hid)
    · exact .sync hid
    · cases hid
    · cases hid

/-- The sync signal for the first id of `pb_sync_queue` begins. -/
theorem Signalled.syncPop (h : srv.Signalled cfg s called) {q : List ℕ}
    (hpc : srv.send .block = .sync) (hq : srv.pbSyncQueue = id :: q) :
    (Server.setSend { srv with pbSyncQueue := q } .block
      (.syncSend id (peerIds cfg.serverCount s))).Signalled cfg s called := by
  refine h.relay (setSend_send _ _ _) rfl rfl (fun _ hl => hl) (fun _ _ _ _ he => by cases he)
    (fun id' rest' he => ?_) (fun _ _ _ he => by cases he)
    (fun t q p hq hp id hid => .queue t q p hq hp hid) fun id' hid => .inl ?_
  · cases he
    exact fun t ht hn => absurd ht hn
  · rw [hpc, hq] at hid
    rcases hid with hid | hid | ⟨_, hid⟩ | ⟨_, _, hid⟩
    · cases hid
    · rcases List.mem_cons.mp hid with rfl | hid
      · exact .signal _ (setSend_send _ _ _)
      · exact .sync hid
    · cases hid
    · cases hid

/-- When no peer is left to be called, the block is labelled. -/
theorem Signalled.syncLabel (h : srv.Signalled cfg s called) (hpc : srv.send .block = .syncSend id []) :
    (Server.setSend { srv with pbSyncLabels := srv.pbSyncLabels.insert id } .block .sync).Signalled
      cfg s called := by
  refine h.relay (setSend_send _ _ _) rfl rfl (fun id' hl => ExtTreeSet.mem_insert.mpr (.inr hl))
    (fun _ _ _ _ he => by cases he) (fun _ _ he => by cases he) (fun _ _ _ he => by cases he)
    (fun t q p hq hp id hid => .queue t q p hq hp hid) fun id' hid => ?_
  rw [hpc] at hid
  rcases hid with hid | hid | ⟨_, hid⟩ | ⟨_, _, hid⟩
  · cases hid
  · exact .inl (.sync hid)
  · cases hid
    exact .inr ⟨ExtTreeSet.mem_insert.mpr (.inl (Nat.compare_eq_eq.mpr rfl)),
      fun t ht => h.signal id [] hpc t ht (List.not_mem_nil)⟩
  · cases hid

/-- Whatever the status of the call, the ids of the request are queued for the sync signal. -/
theorem Signalled.returned (h : srv.Signalled cfg s called) {t : ℕ} {ids rest : List ℕ}
    (hpc : srv.send .block = .wait t ids rest) :
    (Server.setSend { srv with pbSyncQueue := srv.pbSyncQueue ++ ids } .block
      (nextTarget .block rest)).Signalled cfg s called := by
  refine h.relay (setSend_send _ _ _) rfl rfl (fun _ hl => hl) (fun t' items ids' rest' he => ?_)
    (fun _ _ he => ?_) (fun _ _ _ he => ?_)
    (fun t q p hq hp id hid => .queue t q p hq hp hid) fun id hid => .inl ?_
  · cases rest <;> cases he
    rfl
  · cases rest <;> cases he
  · cases rest <;> cases he
  · rw [hpc] at hid
    rcases hid with hid | hid | ⟨_, hid⟩ | ⟨_, _, hid⟩
    · exact .sync (List.mem_append_right _ hid)
    · exact .sync (List.mem_append_left _ hid)
    · cases hid
    · cases hid

/-! ### Every move -/

theorem Signalled.acts (h : srv.Signalled cfg s called) (hwf : srv.WF) (hq : srv.QueuesOk cfg s)
    (hS : 2 ≤ cfg.serverCount) {a : ServerAction} {out : Option (ℕ × Rpc G)}
    (ha : srv.Acts cfg merge s a srv' out)
    (hout : ∀ t id, out = some (t, .relayBlockSync id false) → called t id) :
    srv'.Signalled cfg s called := by
  have hg := ha.heapGrows
  cases ha with
  | packCheck pc hpc _ hpc' =>
    exact h.idle (.refl _) (by simp [hpc]) (fun _ hid => .inl hid) rfl rfl rfl rfl
  | packGenerate txs hpc =>
    exact h.idle (.refl _) (by simp [hpc]) (fun _ hid => .inl hid) rfl rfl rfl rfl
  | packBegin i now order hpc => exact h.packBegin hq hS hpc
  | packEnd i hpc =>
    exact h.idle (.refl _) (by simp [hpc]) (fun _ hid => .inl hid) rfl rfl rfl rfl
  | packPush i p id t peers ids hpc => exact h.packPush hwf hq hpc
  | packInsert i p id ids hpc =>
    exact h.idle (.refl _) (by simp [hpc]) (fun _ hid => .inl hid) rfl rfl rfl rfl
  | sendStart ch hpc =>
    by_cases hch : ch = .block
    · subst hch
      exact h.next _ (.inl hpc)
    · exact h.other hch _
  | sendPop ch t items ids rest srv'' item ids' hpc hpop =>
    cases hpop with
    | vote v q hq' =>
      exact (h.other (by decide) _).same (.refl _) rfl rfl rfl rfl (fun _ hl => hl) rfl
    | commit p q b hq' hb =>
      exact (h.other (by decide) _).same (.refl _) rfl rfl rfl rfl (fun _ hl => hl) rfl
    | block p q b hq' hb => exact h.pop hpc hq' hb
  | sendSkip ch t ids rest hpc =>
    by_cases hch : ch = .block
    · subst hch
      have hlen : ids = [] := List.eq_nil_of_length_eq_zero (h.filled _ _ _ _ hpc).symm
      rw [hlen] at hpc
      exact h.next _ (.inr ⟨t, rest, hpc⟩)
    · exact h.other hch _
  | sendGo ch t items ids rest hpc _ =>
    by_cases hch : ch = .block
    · subst hch
      refine h.goto (fun _ _ _ _ he => by cases he) (fun _ _ he => by cases he)
        (fun _ _ _ he => by cases he) (fun id hid => ?_) fun id hid => ?_
      · rw [hpc] at hid
        exact hid
      · rw [hpc] at hid
        rcases hid with ⟨_, hid⟩ | ⟨_, _, hid⟩ <;> cases hid
    · exact h.other hch _
  | syncIdle hpc hq' =>
    refine h.goto (fun _ _ _ _ he => by cases he) (fun _ _ he => by cases he)
      (fun _ _ _ he => by cases he) (fun id hid => ?_) fun id hid => ?_
    · rw [hpc] at hid
      cases hid
    · rw [hpc] at hid
      rcases hid with ⟨_, hid⟩ | ⟨_, _, hid⟩ <;> cases hid
  | syncPop id q hpc hq' => exact h.syncPop hpc hq'
  | syncSend id t rest hpc =>
    refine h.goto (fun _ _ _ _ he => by cases he) (fun _ _ he => by cases he)
      (fun id' t' rest' he => ?_) (fun id' hid => ?_) fun id' hid => ?_
    · cases he
      intro t' ht' hn
      by_cases he : t' = t
      · subst he
        exact hout t' id rfl
      · exact h.signal id (t :: rest) hpc t' ht' (by simp [he, hn])
    · rw [hpc] at hid
      cases hid
    · rw [hpc] at hid
      rcases hid with ⟨_, hid⟩ | ⟨_, _, hid⟩ <;> cases hid
      exact .inr ⟨t, rest, rfl⟩
  | syncLabel id hpc => exact h.syncLabel hpc
  | mergePop | mergePush | mergeDone =>
    exact h.same (.refl _) rfl rfl rfl rfl (fun _ hl => hl) rfl
  | mergeCommit p now b b' hpc hb hm => exact h.same hg rfl rfl rfl rfl (fun _ hl => hl) rfl
  | reap id now =>
    rcases reap_eq cfg srv id now with he | ⟨-, he⟩
    · rw [he]; exact h
    · rw [he]
      exact h.same (.refl _) rfl rfl rfl rfl (fun _ hl => hl) rfl

theorem Signalled.resume (h : srv.Signalled cfg s called) {ch : Chan}
    (hr : srv.resumeSend ch = some srv') : srv'.Signalled cfg s called := by
  rcases resumeSend_eq hr with ⟨t, ids, rest, hpc, rfl⟩ | ⟨id, t, rest, hpc, rfl⟩
  · by_cases hch : ch = .block
    · subst hch
      rw [if_pos rfl]
      exact h.returned hpc
    · rw [if_neg hch]
      exact h.other hch _
  · by_cases hch : ch = .block
    · subst hch
      refine h.goto (fun _ _ _ _ he => by cases he) (fun id' rest' he => ?_)
        (fun _ _ _ he => by cases he) (fun id' hid => ?_) fun id' hid => ?_
      · cases he
        exact h.wait id t rest hpc
      · rw [hpc] at hid
        cases hid
      · rw [hpc] at hid
        rcases hid with ⟨_, hid⟩ | ⟨_, _, hid⟩ <;> cases hid
        exact .inl ⟨rest, rfl⟩
    · exact h.other hch _

theorem Signalled.handles (h : srv.Signalled cfg s called) {now : ℕ} {rpc rpc' : Rpc G}
    (hh : srv.Handles cfg s now rpc srv' rpc') : srv'.Signalled cfg s called := by
  have hs := hh.sameThreads
  have hp : srv'.packedIds = srv.packedIds := by rw [packedIds, hs.packed, packedIds]
  exact h.same hh.heapGrows hs.pack hp (by rw [hs.send]) hs.pbSyncQueue hh.labels hs.relayBlocks

/-- When the queues and the threads are at rest, every packed id is labelled and all peers were
called. -/
theorem Signalled.rest (h : srv.Signalled cfg s called)
    (hpack : srv.pack = .check ∨ srv.pack = .generate) (hsend : srv.send .block = .idle)
    (hqueues : ∀ (t : ℕ) q, srv.relayBlocks[t]? = some q → q = []) (hsync : srv.pbSyncQueue = [])
    (hid : id ∈ srv.packedIds) :
    id ∈ srv.pbSyncLabels ∧ ∀ t ∈ peerIds cfg.serverCount s, called t id := by
  rcases h.packed id hid with hu | hl
  · cases hu with
    | pack i p t peers ids hpc => rcases hpack with he | he <;> rw [he] at hpc <;> cases hpc
    | queue t q p hq hp =>
      rw [hqueues t q hq] at hp
      cases hp
    | request hm =>
      rw [hsend] at hm
      cases hm
    | sync hm =>
      rw [hsync] at hm
      cases hm
    | signal targets hpc =>
      rw [hsend] at hpc
      cases hpc
    | wait t rest hpc =>
      rw [hsend] at hpc
      cases hpc
  · exact hl

end TomChain.Server
