import TomChain.System.Custody

/-!
# Every packed block can be committed

From any state between two loops of `send_relay_blocks` that was reached without loss and in which the
sync signals waited for their blocks, the system can wind up, every client can pull and vote, and then
every packed block is committed on every server. The steps have no locks here.
-/

namespace TomChain

open Std (ExtTreeMap)
open Runs Server
open Flexbuffers (Flex toBytes fromBytes headerToBytes headerFromBytes)

variable {G D : Type} {cfg : Config} {crypto : Crypto G D} {σ σ' : State G} {a : Action G}
  {ok : State G → Action G → Bool} {c id : ℕ}

/-! ## Labels at rest -/

/-- Server `t` has labelled block `id`, or the call that tells it to is in progress. -/
def Heard (σ : State G) (t id : ℕ) : Prop :=
  id ∈ (σ.server t).pbSyncLabels ∨
    ∃ call ∈ σ.calls, call.target = t ∧ call.rpc = .relayBlockSync id false

theorem Heard.step (ha : reliable cfg σ a) (hs : Steps cfg crypto σ a σ') {t : ℕ} (h : Heard σ t id) :
    Heard σ' t id := by
  rcases h with h | ⟨call, hm, rfl, hrpc⟩
  · exact .inl (hs.labels h)
  · rcases hs.call_next (ne_fail_of_reliable ha) hm with hm | hf | ⟨now, rpc', -, hh⟩
    · exact .inr ⟨call, hm, rfl, hrpc⟩
    · rw [hrpc] at hf
      cases hf
    · rw [hrpc] at hh
      generalize hsrv : σ'.server call.target = srv' at hh
      cases hh
      exact .inl (by rw [hsrv]; simp)

theorem Reachable.signalled (hok : ∀ σ a, ok σ a → reliable cfg σ a) (hS : 2 ≤ cfg.serverCount)
    (hr : Reachable cfg crypto ok σ) :
    (σ.server cfg.serverCount).Signalled cfg cfg.serverCount (Heard σ) := by
  refine hr.invariant (fun σ => (σ.server cfg.serverCount).Signalled cfg cfg.serverCount (Heard σ))
    (signalled_init cfg _ _) fun σ a σ' hr ha h hs => ?_
  have hst := steps_of_step hs
  have hrel := hok σ a ha
  have hold : (σ.server cfg.serverCount).Signalled cfg cfg.serverCount (Heard σ') :=
    h.mono fun _ _ => Heard.step hrel hst
  cases hst with
  | server s sa srv' out _ _ hact =>
    by_cases he : cfg.serverCount = s
    · subst he
      have := hold.acts (Reachable.wf hr _) (Reachable.relayOk hr _).1 hS hact fun t id hout =>
        .inr ⟨_, by rw [hout]; exact List.mem_append_right _ (List.mem_singleton_self _), rfl, rfl⟩
      simpa using this
    · simpa [he] using hold
  | client => simpa using hold
  | handle i now order call srv' rpc' hi hh =>
    by_cases he : cfg.serverCount = call.target
    · rw [← he] at hh
      simpa [he] using hold.handles hh
    · simpa [he] using hold
  | retOrphan => exact hold
  | ret i call θ _ _ _ _ hres =>
    cases hres with
    | send s ch srv' hrs =>
      by_cases he : cfg.serverCount = s
      · subst he
        simpa using hold.resume hrs
      · simpa [he] using hold
    | pull | vote => simpa using hold
  | failOrphan | fail | foreign => cases hrel

/-- At rest every packed block is labelled everywhere. -/
theorem labelled_of_resting (hS : 2 ≤ cfg.serverCount) (h : Reachable cfg crypto (delivering cfg) σ)
    (hrest : Resting cfg σ) (hid : id ∈ (σ.server cfg.serverCount).packedIds) {t : ℕ} (h1 : 1 ≤ t)
    (h2 : t ≤ cfg.serverCount) : id ∈ (σ.server t).pbSyncLabels := by
  have hq := hrest.servers cfg.serverCount (by omega) le_rfl
  have hsig := h.signalled (fun _ _ => reliable_of_delivering) hS
  rcases hsig.packed id hid with hu | ⟨hl, hc⟩
  · have hidle := hq.send .block
    cases hu with
    | pack i p t peers ids hpc => exact absurd hpc (hq.pack _ _ _ _ _)
    | queue t q p hqt hp =>
      have hlen := queueLength_of_drainedOut (hq.queues .block) t
      rw [Server.queueLength, queueLen_of_getElem? hqt, List.length_eq_zero_iff] at hlen
      rw [hlen] at hp
      cases hp
    | request hm => rw [hidle] at hm; cases hm
    | sync hm => rw [hq.sync] at hm; cases hm
    | signal targets hpc => rw [hidle] at hpc; cases hpc
    | wait t rest hpc => rw [hidle] at hpc; cases hpc
  · by_cases ht : t = cfg.serverCount
    · rw [ht]
      exact hl
    · rcases hc t (mem_peerIds.mpr ⟨h1, h2, ht⟩) with hl | ⟨call, hm, -⟩
      · exact hl
      · rw [hrest.calls] at hm
        cases hm

/-! ## A pull -/

/-- Each of the blocks `ids` that is pending has been offered to the client, or the handler of its pull
will come to it. -/
def Offering (c : ℕ) (ids : List ℕ) (srv : Server G) (todo : Option (List (ℕ × ℕ))) : Prop :=
  ∀ id ∈ ids, id ∈ srv.pbSyncLabels ∧
    (id ∈ srv.pendingBlks → srv.Offered c id ∨ ∀ l, todo = some l → id ∈ l.map Prod.fst)

/-- Each of the blocks `ids` that is pending is in the response, or the handler will be asked for it. -/
def Serving (ids : List ℕ) (srv : Server G) (hdrs pb : List (Flex G)) : Prop :=
  ∀ id ∈ ids, id ∈ srv.pendingBlks → id ∈ hdrs.map headerId ∨ id ∈ pb.map blockId

theorem Offering.begin {ids : List ℕ} {srv : Server G} {order : List (ℕ × ℕ)}
    (h : Offering c ids srv none) (hp : order.Perm srv.pendingBlks.toList) :
    Offering c ids srv (some order) := by
  refine fun id hid => ⟨(h id hid).1, fun hm => .inr fun l hl => ?_⟩
  cases hl
  obtain ⟨p, hget⟩ := Option.isSome_iff_exists.mp (ExtTreeMap.mem_iff_isSome_getElem?.mp hm)
  have hmem := ExtTreeMap.mem_toList_iff_getElem?_eq_some.mpr hget
  exact List.mem_map.mpr ⟨(id, p), hp.symm.subset hmem, rfl⟩

/-- The handler passes over a labelled block only if the client has seen it. -/
theorem Offering.item {ids : List ℕ} {now : ℕ} {srv srv' : Server G} {id₀ p : ℕ} {b : Block G}
    {todo : List (ℕ × ℕ)} {hdrs : List (Flex G)} (h : Offering c ids srv (some ((id₀, p) :: todo)))
    (hcl : c ∈ srv.clients) (hb : b.header.id = id₀)
    (hi : srv.pullItem c now id₀ p b = some (srv', hdrs)) : Offering c ids srv' (some todo) := by
  obtain ⟨seen, hseen⟩ := Option.isSome_iff_exists.mp (ExtTreeMap.mem_iff_isSome_getElem?.mp hcl)
  have hrest : ∀ id ∈ ids, id ∈ srv.pendingBlks →
      id ∈ seen ∨ id = id₀ ∨ ∀ l, some todo = some l → id ∈ l.map Prod.fst := by
    intro id hid hm
    rcases (h id hid).2 hm with ⟨seen', hseen', ho⟩ | hl
    · rw [hseen] at hseen'
      cases hseen'
      exact .inl ho
    · rcases List.mem_cons.mp (hl _ rfl) with he | hm
      · exact .inr (.inl he)
      · exact .inr (.inr fun l hl => by cases hl; exact hm)
  rcases pullItem_cases hseen hi with ⟨rfl, -, hold⟩ | ⟨-, -, -, rfl⟩
  · refine fun id hid => ⟨(h id hid).1, fun hm => ?_⟩
    rcases hrest id hid hm with ho | rfl | hl
    · exact .inl ⟨seen, hseen, ho⟩
    · have hs := hold.resolve_left (not_not_intro (h id hid).1)
      exact .inl ⟨seen, hseen, by rw [← hb]; exact hs⟩
    · exact .inr hl
  · refine fun id hid => ⟨(h id hid).1, fun hm => ?_⟩
    rw [or_iff_not_imp_right]
    intro hl
    refine ⟨_, ExtTreeMap.getElem?_insert_self, ?_⟩
    rw [ExtTreeMap.mem_insertIfNew, Nat.compare_eq_eq, hb]
    rcases hrest id hid hm with ho | he | hl'
    · exact .inr ho
    · exact .inl he.symm
    · exact absurd hl' hl

theorem Server.WF.mem_getItem {srv : Server G} (hwf : srv.WF) (hm : id ∈ srv.pendingBlks) :
    id ∈ (srv.getItem id).map blockId := by
  obtain ⟨p, hget⟩ := Option.isSome_iff_exists.mp (ExtTreeMap.mem_iff_isSome_getElem?.mp hm)
  obtain ⟨b, hb, hid⟩ := idAt_eq_some.mp (hwf.pending id p hget)
  simp [Server.getItem, hget, hb, blockId, wireKey_toBytes, hid]

theorem Serving.item {ids : List ℕ} {srv : Server G} {hdr : Flex G} {rest pb : List (Flex G)}
    (h : Serving ids srv (hdr :: rest) pb) (hwf : srv.WF) :
    Serving ids srv rest (pb ++ srv.getItem (headerFromBytes hdr).id) := by
  intro id hid hm
  rw [List.map_append, List.mem_append]
  rcases h id hid hm with hr | hpb
  · rcases List.mem_cons.mp hr with rfl | hr
    · exact .inr (.inr (hwf.mem_getItem hm))
    · exact .inl hr
  · exact .inr (.inl hpb)

/-- A property of a call to server `t` and of the server, which the handler keeps when it does not
break. -/
def Kept (cfg : Config) (c t : ℕ) (Q : Server G → Rpc G → Prop) : Prop :=
  ∀ ⦃srv : Server G⦄ ⦃now : ℕ⦄ ⦃rpc : Rpc G⦄ ⦃srv' : Server G⦄ ⦃rpc' : Rpc G⦄,
    srv.Handles cfg t now rpc srv' rpc' → srv.WF → c ∈ srv.clients →
      (∀ x ∈ rpc.snapshot, srv.idAt x.2 = some x.1) → rpc'.broken = false → Q srv rpc → Q srv' rpc'

theorem kept_offering (t : ℕ) (ids : List ℕ) : Kept cfg c t fun (srv : Server G) rpc =>
    ∃ todo hdrs, rpc = .pullPendingBlocks c todo hdrs ∧ Offering c ids srv todo := by
  rintro srv now rpc srv' rpc' hh - hcl hsnap hb ⟨todo, hdrs, rfl, ho⟩
  cases hh with
  | pullBegin _ order _ hp => exact ⟨_, _, rfl, ho.begin hp⟩
  | pullItem _ id₀ p todo _ b _ hdrs hpb hi =>
    obtain ⟨b', hb', hbid⟩ := idAt_eq_some.mp (hsnap _ (List.mem_cons_self ..))
    rw [hpb] at hb'
    cases hb'
    exact ⟨_, _, rfl, ho.item hcl hbid hi⟩
  | pullUndefined => cases hb

theorem kept_serving (t : ℕ) (ids : List ℕ) : Kept cfg c t fun (srv : Server G) rpc =>
    ∃ hdrs pb, rpc = .getBlocks hdrs pb ∧ Serving ids srv hdrs pb := by
  rintro srv now rpc srv' rpc' hh hwf - - - ⟨hdrs, pb, rfl, hserving⟩
  cases hh with
  | getItem hdr rest pb => exact ⟨_, _, rfl, hserving.item hwf⟩

/-! ## The call of a pull, alone -/

theorem Wound.step (hS : 1 ≤ cfg.serverCount) (hC : cfg.clientCount ≤ Decimal.intMax) {σ₀ : State G}
    (h₀ : Reachable cfg crypto (delivering cfg) σ₀) (hw : Wound cfg crypto σ₀ σ) (ha : winding σ a)
    (hs : step cfg crypto σ a = some σ') : Wound cfg crypto σ₀ σ' :=
  (lowers_winding hS hC h₀ σ a σ' hw ha hs).1

theorem exists_answered (hS : 1 ≤ cfg.serverCount) (hC : cfg.clientCount ≤ Decimal.intMax)
    {σ₀ : State G} (h₀ : Reachable cfg crypto (delivering cfg) σ₀) (hw : Wound cfg crypto σ₀ σ)
    {call : Call G} (hcalls : σ.calls = [call]) (hc1 : 1 ≤ c) (hc2 : c ≤ cfg.clientCount)
    {Q : Server G → Rpc G → Prop} (hQ : Kept cfg c call.target Q)
    (hq : Q (σ.server call.target) call.rpc) :
    ∃ σ' rpc', Wound cfg crypto σ₀ σ' ∧ HandledAlone σ 0 call σ' ∧
      σ'.calls = [{ call with rpc := rpc' }] ∧ rpc'.finished = true ∧
      Q (σ'.server call.target) rpc' := by
  have hi : σ.calls[0]? = some call := by rw [hcalls]; rfl
  have hlow : Lowers (step cfg crypto) (fun σ a => handling 0 σ a) (HandledAlone σ 0 call)
      (fun σ => σ.left 0) := lowers_handling hi
  obtain ⟨σ', hr, hstuck⟩ := Run.exists_stuck hlow (HandledAlone.refl hi)
  have hinv : Wound cfg crypto σ₀ σ' ∧ HandledAlone σ 0 call σ' ∧
      ∃ rpc', σ'.calls = [{ call with rpc := rpc' }] ∧ Q (σ'.server call.target) rpc' := by
    refine hr.invariant (fun τ => Wound cfg crypto σ₀ τ ∧ HandledAlone σ 0 call τ ∧
      ∃ rpc', τ.calls = [{ call with rpc := rpc' }] ∧ Q (τ.server call.target) rpc')
      ⟨hw, .refl hi, call.rpc, hcalls, hq⟩ ?_
    rintro τ a τ' - hact ⟨hwτ, halone, rpc, hτ, hqτ⟩ hs
    have hwind : winding τ a = true := by
      cases a with
      | handle => rfl
      | _ => cases hact
    have hw' := hwτ.step hS hC h₀ hwind hs
    refine ⟨hw', (hlow τ a τ' halone hact hs).1, ?_⟩
    have hreach : Reachable cfg crypto (delivering cfg) τ := h₀.trans hwτ.reaches
    cases steps_of_step hs with
    | handle j now order call' srv' rpc' hj hh =>
      have hj0 : j = 0 := by simpa [handling] using hact
      subst hj0
      rw [hτ] at hj
      cases hj
      have hm : { call with rpc := rpc } ∈ τ.calls := by rw [hτ]; exact List.mem_singleton_self _
      refine ⟨rpc', by rw [hτ]; rfl, ?_⟩
      have hbroken : rpc'.broken = false :=
        Reachable.not_broken (fun _ _ ha => succeeds_of_reliable (reliable_of_delivering ha))
          (h₀.trans hw'.reaches) { call with rpc := rpc' }
          (by simp [hτ])
      have hq' := hQ hh (hreach.wf _) (((hreach.lookupsOk _).clients c).mpr ⟨hc1, hc2⟩)
        (hreach.snapshots _ hm) hbroken hqτ
      simpa using hq'
    | _ => cases hact
  obtain ⟨hw', halone, rpc', hcalls', hq'⟩ := hinv
  refine ⟨σ', rpc', hw', halone, hcalls', ?_, hq'⟩
  by_contra hf
  have hhonest := Reachable.toHonest (h₀.trans hw'.reaches)
  have hi' : σ'.calls[0]? = some { call with rpc := rpc' } := by rw [hcalls']; rfl
  obtain ⟨order, σ'', hs⟩ := hhonest.handle_isSome hS hC hi' (by simpa using hf) 0
  exact hstuck _ _ (by simp [handling]) hs

/-! ## From one state at rest to the next -/

/-- The block was stored and is not pending any more. -/
def Server.Left (srv : Server G) (id : ℕ) : Prop := srv.Settled (fun _ => False) id

theorem Server.Left.not_mem {srv : Server G} (h : srv.Left id) : id ∉ srv.pendingBlks := by
  intro hm
  obtain ⟨p, hp⟩ := Option.isSome_iff_exists.mp (ExtTreeMap.mem_iff_isSome_getElem?.mp hm)
  obtain ⟨-, -, hfalse⟩ := h.2 p hp
  exact hfalse

theorem Server.left_of_not_mem {srv : Server G} (hst : id ∈ srv.stored) (h : id ∉ srv.pendingBlks) :
    srv.Left id :=
  ⟨hst, fun p hp => absurd (ExtTreeMap.mem_iff_isSome_getElem?.mpr (by rw [hp]; rfl)) h⟩

theorem Server.Left.reaches (hr : Reachable cfg crypto ok σ) (hs : Reaches cfg crypto ok σ σ')
    (hlt : (σ'.server cfg.serverCount).packed.length < 2 ^ 64) {t : ℕ} (h1 : 1 ≤ t)
    (h2 : t ≤ cfg.serverCount) (h : (σ.server t).Left id) : (σ'.server t).Left id := by
  induction hs with
  | refl => exact h
  | next a hrs ha hstep ih =>
    have hst := steps_of_step hstep
    have hle := (hst.later cfg.serverCount).packed.length_le
    have hr' : Reachable cfg crypto ok _ := .next a (hr.trans hrs) ha hstep
    exact hst.settled (fun _ _ _ hf => hf) (stored_count_le_one hr' hlt h1 h2 id) (ih (by omega))

theorem Client.resumePull_stage {cl cl' : Client G} {response : Option (Rpc G)} {stage : PullStage}
    (h : cl.resumePull response = some cl') (hpc : cl.pull = .wait stage) :
    cl'.pull = .ready stage.next := by
  simp only [Client.resumePull, hpc] at h
  split at h
  · cases h
    rfl
  · rw [(Client.receiveBlocks_eq h).2.1]
  · cases h
    rfl

theorem Steps.headers_of_settling (ha : settling σ a) (hs : Steps cfg crypto σ a σ') {stage : PullStage}
    (hpc : (σ.client c).pull = .ready stage) : (σ'.client c).pull = .ready stage ∧
      (σ'.client c).pendingBlkhdr = (σ.client c).pendingBlkhdr := by
  cases hs with
  | server => simpa using hpc
  | client c' ca cl' out _ _ hact =>
    rw [State.addCall_client, State.setClient_client]
    split
    · rename_i he
      subst he
      cases hact with
      | pull | get => cases ha
      | votePop | voteSend => exact ⟨hpc, rfl⟩
    · exact ⟨hpc, rfl⟩
  | handle | retOrphan => exact ⟨hpc, rfl⟩
  | ret i call θ _ _ _ _ hres =>
    by_cases hθ : θ = .pull c
    · subst hθ
      cases hres with
      | pull _ cl' hr =>
        have hpc' : (σ.client c).pull = .ready stage := hpc
        simp [Client.resumePull, hpc'] at hr
    · obtain ⟨hhdr, -, hpull, -⟩ := hres.frame_pull hθ
      exact ⟨hpull.trans hpc, hhdr⟩
  | failOrphan | fail | foreign => cases ha

theorem headers_of_winding (hr : Run (step cfg crypto) (fun σ a => winding σ a) σ σ')
    {stage : PullStage} (hpc : (σ.client c).pull = .ready stage) : (σ'.client c).pull = .ready stage ∧
      (σ'.client c).pendingBlkhdr = (σ.client c).pendingBlkhdr := by
  refine hr.invariant (fun τ => (τ.client c).pull = .ready stage ∧
    (τ.client c).pendingBlkhdr = (σ.client c).pendingBlkhdr) ⟨hpc, rfl⟩ fun τ a τ' _ ha h hs => ?_
  obtain ⟨hpull, hhdr⟩ := (steps_of_step hs).headers_of_settling (settling_of_winding ha) h.1
  exact ⟨hpull, hhdr.trans h.2⟩

/-- Blocks go to a peer first, clients have an `int` as id, and a block fits the buffers of a client. -/
structure Fits (cfg : Config) : Prop where
  servers : 2 ≤ cfg.serverCount
  clients : cfg.clientCount ≤ Decimal.intMax
  txs : cfg.txPerBlock ≤ Client.strvecSize

theorem Wound.trans {σ₀ : State G} (h : Wound cfg crypto σ₀ σ) (h' : Wound cfg crypto σ σ') :
    Wound cfg crypto σ₀ σ' :=
  ⟨h.reaches.trans h'.reaches, h'.orderly, h'.packed.trans h.packed⟩

theorem exists_asked (hS : 1 ≤ cfg.serverCount) (hrest : Resting cfg σ) (hc1 : 1 ≤ c)
    (hc2 : c ≤ cfg.clientCount) {order : List ℕ} {cl : Client G} {t : ℕ} {rpc : Rpc G}
    (hact : (σ.client c).act cfg crypto c (.pull order) = some (cl, some (t, rpc))) :
    ∃ σ', Wound cfg crypto σ σ' ∧ σ'.server = σ.server ∧ σ'.client c = cl ∧
      σ'.calls = [⟨t, some (.pull c), rpc⟩] := by
  have hs : step cfg crypto σ (.client c (.pull order)) =
      some ((σ.setClient c cl).addCall (some (.pull c)) (some (t, rpc))) := by
    simp only [step, if_pos (And.intro hc1 hc2), hact, Option.map_some]
    rfl
  refine ⟨_, ⟨.next _ .refl rfl hs, .of_idle ?_, rfl⟩, rfl, by simp, ?_⟩
  · exact (hrest.servers _ hS le_rfl).send .block
  · rw [State.addCall_calls, State.setClient_calls, hrest.calls]
    rfl

theorem exists_resumed (hS : 1 ≤ cfg.serverCount) (hC : cfg.clientCount ≤ Decimal.intMax)
    (h : Reachable cfg crypto (delivering cfg) σ) (ho : (σ.server cfg.serverCount).Orderly) {t : ℕ}
    {rpc : Rpc G} (hcalls : σ.calls = [⟨t, some (.pull c), rpc⟩]) (hf : rpc.finished = true) :
    ∃ σ', Wound cfg crypto σ σ' ∧ (σ.client c).resumePull (some rpc) = some (σ'.client c) := by
  have hi : σ.calls[0]? = some ⟨t, some (.pull c), rpc⟩ := by rw [hcalls]; rfl
  obtain ⟨σ', hs⟩ := h.toHonest.ret_isSome hC hi hf
  refine ⟨σ', Wound.step hS hC h ⟨.refl, ho, rfl⟩ rfl hs, ?_⟩
  cases steps_of_step hs with
  | retOrphan _ call hi' _ hc =>
    rw [hi] at hi'
    cases hi'
    cases hc
  | ret _ call θ _ hi' _ hc hres =>
    rw [hi] at hi'
    cases hi'
    cases hc
    cases hres with
    | pull _ cl hr => simpa using hr

/-- What a pull from a state at rest leads to: the response, what the client makes of it, and the next
state at rest. -/
structure Pulled (cfg : Config) (crypto : Crypto G D) (c : ℕ) (stage : PullStage)
    (Q : Server G → Rpc G → Prop) (σ σ₁ σ' : State G) (rpc : Rpc G) (cl : Client G) : Prop where
  answered : Wound cfg crypto σ σ₁
  finished : rpc.finished = true
  answers : Q (σ₁.server (stubServer cfg.serverCount c stage.stub)) rpc
  resumed : ({ σ.client c with pull := .wait stage } : Client G).resumePull (some rpc) = some cl
  wound : Wound cfg crypto σ₁ σ'
  resting : Resting cfg σ'
  ready : (σ'.client c).pull = .ready stage.next
  headers : (σ'.client c).pendingBlkhdr = cl.pendingBlkhdr

theorem exists_pulled (hcfg : Fits cfg) (h : Reachable cfg crypto (delivering cfg) σ)
    (hrest : Resting cfg σ) (hc1 : 1 ≤ c) (hc2 : c ≤ cfg.clientCount) {stage : PullStage}
    {order : List ℕ} {rpc : Rpc G} {Q : Server G → Rpc G → Prop}
    (hact : (σ.client c).act cfg crypto c (.pull order) = some ({ σ.client c with pull := .wait stage },
      some (stubServer cfg.serverCount c stage.stub, rpc)))
    (hQ : Kept cfg c (stubServer cfg.serverCount c stage.stub) Q)
    (hq : Q (σ.server (stubServer cfg.serverCount c stage.stub)) rpc) :
    ∃ σ₁ σ' rpc' cl, Pulled cfg crypto c stage Q σ σ₁ σ' rpc' cl := by
  have hS : 1 ≤ cfg.serverCount := Nat.le_of_succ_le hcfg.servers
  obtain ⟨σ₀, hw₀, hserver, hclient, hcalls₀⟩ := exists_asked hS hrest hc1 hc2 hact
  rw [← hserver] at hq
  obtain ⟨σ₁, rpc', hw₁, halone, hcalls₁, hf, hq₁⟩ :=
    exists_answered hS hcfg.clients h hw₀ hcalls₀ hc1 hc2 hQ hq
  have h₁ := h.trans hw₁.reaches
  obtain ⟨σ₂, hw₂, hres⟩ := exists_resumed hS hcfg.clients h₁ hw₁.orderly hcalls₁ hf
  rw [halone.client, hclient] at hres
  obtain ⟨σ', hrun, hw', hrest'⟩ :=
    exists_wound hS hcfg.clients hcfg.txs (h₁.trans hw₂.reaches) hw₂.orderly
  obtain ⟨hready, hhdr⟩ := headers_of_winding hrun (Client.resumePull_stage hres rfl)
  exact ⟨σ₁, σ', rpc', σ₂.client c, hw₁, hf, hq₁, hres, hw₂.trans hw', hrest', hready, hhdr⟩

/-- `PullPendingBlocks` leaves the client with every packed block that is pending at the server. -/
theorem exists_headers (hcfg : Fits cfg) (h : Reachable cfg crypto (delivering cfg) σ)
    (hlt : (σ.server cfg.serverCount).packed.length < 2 ^ 64) (hrest : Resting cfg σ) (hc1 : 1 ≤ c)
    (hc2 : c ≤ cfg.clientCount) {stage : PullStage} (hstage : stage = .pull0 ∨ stage = .pull1)
    (hpc : (σ.client c).pull = .ready stage) :
    ∃ σ', Wound cfg crypto σ σ' ∧ Resting cfg σ' ∧ (σ'.client c).pull = .ready stage.next ∧
      ∀ id ∈ (σ.server cfg.serverCount).packedIds,
        (σ'.server (stubServer cfg.serverCount c stage.stub)).Left id ∨ Holds σ' c id := by
  have hS : 1 ≤ cfg.serverCount := Nat.le_of_succ_le hcfg.servers
  have ht := stubServer_range hS c stage.stub
  have hact : (σ.client c).act cfg crypto c (.pull []) = some ({ σ.client c with pull := .wait stage },
      some (stubServer cfg.serverCount c stage.stub, .pullPendingBlocks c none [])) := by
    rcases hstage with rfl | rfl <;> simp only [Client.act, hpc]
  have hask : Offering c (σ.server cfg.serverCount).packedIds
      (σ.server (stubServer cfg.serverCount c stage.stub)) none :=
    fun id hid => ⟨labelled_of_resting hcfg.servers h hrest hid ht.1 ht.2,
      fun _ => .inr fun l hl => by cases hl⟩
  obtain ⟨σ₁, σ', rpc, cl, hp⟩ :=
    exists_pulled hcfg h hrest hc1 hc2 hact (kept_offering _ _) ⟨_, _, rfl, hask⟩
  refine ⟨σ', hp.answered.trans hp.wound, hp.resting, hp.ready, fun id hid => ?_⟩
  have h₁ := h.trans hp.answered.reaches
  by_cases hm : id ∈ (σ₁.server (stubServer cfg.serverCount c stage.stub)).pendingBlks
  · right
    have hoffered : (σ₁.server (stubServer cfg.serverCount c stage.stub)).Offered c id := by
      obtain ⟨todo, hdrs, rfl, ho⟩ := hp.answers
      refine ((ho id hid).2 hm).resolve_right fun hl => ?_
      have hf := hp.finished
      cases todo with
      | none => cases hf
      | some l =>
        rw [List.isEmpty_iff.mp hf] at hl
        cases hl _ rfl
    have hholds : Holds σ₁ c id :=
      Reachable.holds_of_offered (fun _ _ => reliable_of_delivering) h₁ hoffered
    exact hholds.reaches (fun _ _ => reliable_of_delivering) h₁ hp.wound.reaches
  · left
    have hst := (hp.answered.reaches.later _).stored.subset
      (allStored_of_resting h hrest hS hid _ ht.1 ht.2)
    exact (Server.left_of_not_mem hst hm).reaches h₁ hp.wound.reaches
      ((hp.answered.trans hp.wound).packed_lt hlt) ht.1 ht.2

/-- `GetBlocks` leaves the client with headers of blocks only that are not pending at the server. -/
theorem exists_fetched (hcfg : Fits cfg) (h : Reachable cfg crypto (delivering cfg) σ)
    (hlt : (σ.server cfg.serverCount).packed.length < 2 ^ 64) (hrest : Resting cfg σ) (hc1 : 1 ≤ c)
    (hc2 : c ≤ cfg.clientCount) {stage : PullStage} (hstage : stage = .get0 ∨ stage = .get1)
    (hpc : (σ.client c).pull = .ready stage) :
    ∃ σ', Wound cfg crypto σ σ' ∧ Resting cfg σ' ∧ (σ'.client c).pull = .ready stage.next ∧
      ∀ id ∈ (σ'.client c).pendingBlkhdr,
        (σ'.server (stubServer cfg.serverCount c stage.stub)).Left id := by
  have hS : 1 ≤ cfg.serverCount := Nat.le_of_succ_le hcfg.servers
  have ht := stubServer_range hS c stage.stub
  obtain ⟨keys, hkeys⟩ : ∃ keys, keys = (σ.client c).pendingBlkhdr.keys := ⟨_, rfl⟩
  have hact : (σ.client c).act cfg crypto c (.pull keys) =
      some ({ σ.client c with pull := .wait stage }, some (stubServer cfg.serverCount c stage.stub,
        .getBlocks ((keys.filterMap ((σ.client c).pendingBlkhdr[·]?)).map headerToBytes) [])) := by
    have hperm : keys.isPerm (σ.client c).pendingBlkhdr.keys = true := by
      rw [hkeys, List.isPerm_iff]
    rcases hstage with rfl | rfl <;> simp only [Client.act, hpc, hperm, if_true]
  have hask : Serving keys (σ.server (stubServer cfg.serverCount c stage.stub))
      ((keys.filterMap ((σ.client c).pendingBlkhdr[·]?)).map headerToBytes) [] := by
    intro id hid _
    rw [headerIds_request (h.pullOk c).keys (by rw [hkeys])]
    exact .inl hid
  obtain ⟨σ₁, σ', rpc, cl, hp⟩ :=
    exists_pulled hcfg h hrest hc1 hc2 hact (kept_serving _ _) ⟨_, _, rfl, hask⟩
  refine ⟨σ', hp.answered.trans hp.wound, hp.resting, hp.ready, fun id hid => ?_⟩
  have h₁ := h.trans hp.answered.reaches
  obtain ⟨hdrs, pb, rfl, hserving⟩ := hp.answers
  have hnil : hdrs = [] := List.isEmpty_iff.mp hp.finished
  -- the header has stayed, so the block is not in the response
  rw [hp.headers, Client.mem_receiveBlocks hp.resumed] at hid
  obtain ⟨hkey, hnot⟩ := hid
  have hleft : id ∉ (σ₁.server (stubServer cfg.serverCount c stage.stub)).pendingBlks := by
    intro hm
    rcases hserving id (by rw [hkeys]; exact ExtTreeMap.mem_keys.mpr hkey) hm with hh | hpb
    · rw [hnil] at hh
      cases hh
    · exact hnot hpb
  have hst : id ∈ (σ₁.server (stubServer cfg.serverCount c stage.stub)).stored := by
    obtain ⟨hdr, hget⟩ := Option.isSome_iff_exists.mp (ExtTreeMap.mem_iff_isSome_getElem?.mp hkey)
    have hall := ((arrivalFlow_clean (fun _ _ h => h) h).client c).hdrs id hdr hget
    rw [(h.pullOk c).keys id hdr hget] at hall
    exact (hp.answered.reaches.later _).stored.subset (hall _ ht.1 ht.2)
  exact (Server.left_of_not_mem hst hleft).reaches h₁ hp.wound.reaches
    ((hp.answered.trans hp.wound).packed_lt hlt) ht.1 ht.2

/-! ## A round of a client -/

theorem Resting.ready (h : Reachable cfg crypto ok σ) (hrest : Resting cfg σ) (c : ℕ) :
    ∃ stage, (σ.client c).pull = .ready stage := by
  have hwaits := h.callsBy_eq (.pull c)
  rw [hrest.calls] at hwaits
  cases hpc : (σ.client c).pull with
  | ready stage => exact ⟨stage, rfl⟩
  | wait stage =>
    simp only [State.waits, hpc] at hwaits
    cases hwaits

theorem exists_round_start (hcfg : Fits cfg) (h : Reachable cfg crypto (delivering cfg) σ)
    (hlt : (σ.server cfg.serverCount).packed.length < 2 ^ 64) (hrest : Resting cfg σ) (hc1 : 1 ≤ c)
    (hc2 : c ≤ cfg.clientCount) :
    ∃ σ', Wound cfg crypto σ σ' ∧ Resting cfg σ' ∧ (σ'.client c).pull = .ready .pull0 := by
  have hnext : ∀ {τ stage}, Wound cfg crypto σ τ → Resting cfg τ → (τ.client c).pull = .ready stage →
      ∃ τ', Wound cfg crypto σ τ' ∧ Resting cfg τ' ∧ (τ'.client c).pull = .ready stage.next := by
    intro τ stage hw hτ hpc
    have hreach := h.trans hw.reaches
    have hltτ := hw.packed_lt hlt
    by_cases hstage : stage = .pull0 ∨ stage = .pull1
    · obtain ⟨τ', hw', hτ', hpc', -⟩ := exists_headers hcfg hreach hltτ hτ hc1 hc2 hstage hpc
      exact ⟨τ', hw.trans hw', hτ', hpc'⟩
    · have hget : stage = .get0 ∨ stage = .get1 := by cases stage <;> simp_all
      obtain ⟨τ', hw', hτ', hpc', -⟩ := exists_fetched hcfg hreach hltτ hτ hc1 hc2 hget hpc
      exact ⟨τ', hw.trans hw', hτ', hpc'⟩
  have hstart : Wound cfg crypto σ σ :=
    ⟨.refl, .of_idle ((hrest.servers _ (Nat.le_of_succ_le hcfg.servers) le_rfl).send .block), rfl⟩
  obtain ⟨stage, hpc⟩ := hrest.ready h c
  cases stage with
  | pull0 => exact ⟨σ, hstart, hrest, hpc⟩
  | pull1 =>
    obtain ⟨τ₁, hw₁, hτ₁, hpc₁⟩ := hnext hstart hrest hpc
    obtain ⟨τ₂, hw₂, hτ₂, hpc₂⟩ := hnext hw₁ hτ₁ hpc₁
    exact hnext hw₂ hτ₂ hpc₂
  | get0 =>
    obtain ⟨τ₁, hw₁, hτ₁, hpc₁⟩ := hnext hstart hrest hpc
    exact hnext hw₁ hτ₁ hpc₁
  | get1 => exact hnext hstart hrest hpc

/-- After the round the client has sent a vote on every packed block. -/
theorem exists_voted (hcfg : Fits cfg) (h : Reachable cfg crypto (delivering cfg) σ)
    (hlt : (σ.server cfg.serverCount).packed.length < 2 ^ 64) (hrest : Resting cfg σ) (hc1 : 1 ≤ c)
    (hc2 : c ≤ cfg.clientCount) :
    ∃ σ', Wound cfg crypto σ σ' ∧ Resting cfg σ' ∧
      ∀ id ∈ (σ.server cfg.serverCount).packedIds, VoteSent σ' c id := by
  have hS : 1 ≤ cfg.serverCount := Nat.le_of_succ_le hcfg.servers
  have ht := stubServer_range hS c 0
  obtain ⟨σ₀, hw₀, hrest₀, hpc₀⟩ := exists_round_start hcfg h hlt hrest hc1 hc2
  have h₀ := h.trans hw₀.reaches
  have hlt₀ := hw₀.packed_lt hlt
  obtain ⟨σ₁, hw₁, hrest₁, hpc₁, hheaders⟩ :=
    exists_headers hcfg h₀ hlt₀ hrest₀ hc1 hc2 (.inl rfl) hpc₀
  have h₁ := h₀.trans hw₁.reaches
  have hlt₁ := hw₁.packed_lt hlt₀
  obtain ⟨σ₂, hw₂, hrest₂, hpc₂, -⟩ := exists_headers hcfg h₁ hlt₁ hrest₁ hc1 hc2 (.inr rfl) hpc₁
  have h₂ := h₁.trans hw₂.reaches
  have hlt₂ := hw₂.packed_lt hlt₁
  obtain ⟨σ₃, hw₃, hrest₃, -, hfetched⟩ := exists_fetched hcfg h₂ hlt₂ hrest₂ hc1 hc2 (.inl rfl) hpc₂
  have h₃ := h₂.trans hw₃.reaches
  have hlt₃ := hw₃.packed_lt hlt₂
  have hw₁₃ := hw₂.trans hw₃
  refine ⟨σ₃, (hw₀.trans hw₁).trans hw₁₃, hrest₃, fun id hid => ?_⟩
  have hid₀ : id ∈ (σ₀.server cfg.serverCount).packedIds := by
    rw [hw₀.packedIds]
    exact hid
  have hcases : (σ₃.server (stubServer cfg.serverCount c 0)).Left id ∨ VoteSent σ₃ c id := by
    rcases hheaders id hid₀ with hleft | hholds
    · exact .inl (hleft.reaches h₁ hw₁₃.reaches hlt₃ ht.1 ht.2)
    · have hholds₃ := hholds.reaches (fun _ _ => reliable_of_delivering) h₁ hw₁₃.reaches
      rcases hholds₃.of_resting hrest₃ hc1 hc2 with hhdr | hsent
      · exact .inl (hfetched id hhdr)
      · exact .inr hsent
  rcases hcases with hleft | hsent
  · have hc := committed_of_not_pending h₃ hrest₃ ht.1 ht.2 hleft.1 hleft.not_mem
    exact voteSent_of_committed (Reachable.toHonest h₃) hlt₃ ht.1 ht.2 hc hc1 hc2
  · exact hsent

/-! ## All clients, one after the other -/

/-- Every packed block can still be committed: from any state that was reached without loss, with
`send_relay_blocks` between two loops, the system can go on to a state at rest in which all servers have
committed all blocks, and no further block is packed meanwhile. -/
theorem packed_can_commit (cfg : Config) (crypto : Crypto G D) (hS : 2 ≤ cfg.serverCount)
    (hN : 1 ≤ cfg.clientCount) (hC : cfg.clientCount ≤ Decimal.intMax)
    (htx : cfg.txPerBlock ≤ Client.strvecSize) (σ : State G)
    (h : Reachable cfg crypto (delivering cfg) σ)
    (hlt : (σ.server cfg.serverCount).packed.length < 2 ^ 64)
    (hidle : (σ.server cfg.serverCount).send .block = .idle) :
    ∃ σ', Reaches cfg crypto (delivering cfg) σ σ' ∧ Resting cfg σ' ∧
      (σ'.server cfg.serverCount).packed = (σ.server cfg.serverCount).packed ∧
      ∀ id ∈ (σ.server cfg.serverCount).packedIds, ∀ t, 1 ≤ t → t ≤ cfg.serverCount →
        id ∈ (σ'.server t).committedBlks ∧ id ∉ (σ'.server t).pendingBlks := by
  have hcfg : Fits cfg := ⟨hS, hC, htx⟩
  have hS1 : 1 ≤ cfg.serverCount := Nat.le_of_succ_le hS
  obtain ⟨σ₀, -, hw₀, hrest₀⟩ := exists_wound hS1 hC htx h (.of_idle hidle)
  have hall : ∃ σ', Reaches cfg crypto (delivering cfg) σ₀ σ' ∧
      (Wound cfg crypto σ σ' ∧ Resting cfg σ') ∧ ∀ c ∈ List.range' 1 cfg.clientCount,
        ∀ id ∈ (σ.server cfg.serverCount).packedIds, VoteSent σ' c id := by
    refine Run.exists_forall (fun c τ τ' hdone hr id hid => ?_) (fun c hc τ hτ => ?_) ⟨hw₀, hrest₀⟩
    · exact hr.invariant (fun τ => VoteSent τ c id) (hdone id hid)
        fun _ _ _ _ _ hv hs => hv.steps (steps_of_step hs)
    · obtain ⟨hw, hrest⟩ := hτ
      rw [List.mem_range'_1] at hc
      obtain ⟨τ', hw', hrest', hvoted⟩ := exists_voted hcfg (h.trans hw.reaches)
        (hw.packed_lt hlt) hrest hc.1 (by omega)
      rw [hw.packedIds] at hvoted
      exact ⟨τ', hw'.reaches, ⟨hw.trans hw', hrest'⟩, hvoted⟩
  obtain ⟨σ', -, ⟨hw, hrest⟩, hvoted⟩ := hall
  refine ⟨σ', hw.reaches, hrest, hw.packed, fun id hid t h1 h2 => ?_⟩
  have h' := h.trans hw.reaches
  have hlt' := hw.packed_lt hlt
  have hid' : id ∈ (σ'.server cfg.serverCount).packedIds := by
    rw [hw.packedIds]
    exact hid
  have hstored := allStored_of_resting h' hrest hS1 hid'
  have hmod := Nat.mod_lt id hS1
  have hgone : id ∉ (σ'.server (id % cfg.serverCount + 1)).pendingBlks := by
    refine not_pending_of_voted h' hlt' hN hS1 hrest fun c hc1 hc2 => hvoted c ?_ id hid
    rw [List.mem_range'_1]
    omega
  have hfirst : id ∈ (σ'.server (id % cfg.serverCount + 1)).committedBlks :=
    committed_of_not_pending h' hrest (by omega) (by omega) (hstored _ (by omega) (by omega)) hgone
  have hc := committed_everywhere h' hlt' hN hrest hfirst h1 h2
  exact ⟨hc, fun hp => not_committed_of_pending h' hlt' h1 h2 (.inl hp) hc⟩

/-- The packing server has just packed a block, and no other server knows of it. -/
theorem packed_can_commit_packBlock :
    ∃ σ σ', Reachable sampleConfig Crypto.symbolic (delivering sampleConfig) σ ∧
      (σ.server 2).packedIds = [2000000] ∧ (σ.server 1).stored = [] ∧
      Reaches sampleConfig Crypto.symbolic (delivering sampleConfig) σ σ' ∧ Resting sampleConfig σ' ∧
      2000000 ∈ (σ'.server 1).committedBlks ∧ 2000000 ∈ (σ'.server 2).committedBlks := by
  obtain ⟨σ, hr, hσ⟩ := exists_reachable sampleConfig Crypto.symbolic (delivering sampleConfig)
    Script.packBlock (fun σ => (σ.server 2).packedIds == [2000000] && (σ.server 1).stored == [] &&
      ((σ.server 2).send .block).work 2 .block == 0 && (σ.server 2).packed.length == 1)
    (by decide +kernel)
  simp only [Bool.and_eq_true, beq_iff_eq] at hσ
  obtain ⟨⟨⟨hids, hst⟩, hwork⟩, hlen⟩ := hσ
  obtain ⟨σ', hrun, hrest, -, hall⟩ := packed_can_commit sampleConfig Crypto.symbolic (by decide)
    (by decide) (by decide) (by decide) σ hr (by simp [sampleConfig, hlen])
    (SendPc.eq_idle_of_work hwork)
  have hid : 2000000 ∈ (σ.server 2).packedIds := by
    rw [hids]
    exact List.mem_singleton_self _
  exact ⟨σ, σ', hr, hids, hst, hrun, hrest, (hall _ hid 1 (by decide) (by decide)).1,
    (hall _ hid 2 (by decide) (by decide)).1⟩

end TomChain
