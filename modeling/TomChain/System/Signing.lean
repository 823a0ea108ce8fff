import TomChain.System.Digest
import TomChain.System.Pulls
import TomChain.System.Transit

/-!
# What one client signs

A client drops the header of a block when the block arrives and keeps no other record of it. Each
of its two servers offers it a header once, but one server may do so after the other one has served
the block; then the client asks for the block again and signs it a second time, with the votes it
has by then. A run's history lists what the client pushed onto `pending_blks` and what it signed.
-/

namespace TomChain

open Std (ExtTreeMap)
open Runs Server
open Flexbuffers (Flex toBytes fromBytes headerToBytes headerFromBytes)

variable {G D : Type} {cfg : Config} {crypto : Crypto G D} {σ σ' : State G} {a : Action G}
  {ok : State G → Action G → Bool} {c : ℕ}

/-! ## The history of a client -/

inductive ClientEvent (D : Type) where
  | pushed (id : ℕ)
  | signed (id : ℕ) (digest : D)

/-- What client `c` does in a step: `GetBlocks` pushes the blocks of its response, and the vote
thread signs the block it takes. -/
def clientEvents (crypto : Crypto G D) (c : ℕ) (σ : State G) : Action G → List (ClientEvent D)
  | .ret i =>
    match σ.calls[i]? with
    | some ⟨_, some (.pull c'), .getBlocks _ pb⟩ =>
      if c' = c then (pb.filterMap fromBytes).map fun b => .pushed b.header.id else []
    | _ => []
  | .client c' .votePop =>
    if c' = c then
      match (σ.client c).pendingBlks with
      | b :: _ => [.signed b.header.id (b.getSha256 crypto)]
      | [] => []
    else []
  | _ => []

def pushedIds (es : List (ClientEvent D)) : List ℕ :=
  es.filterMap fun
    | .pushed id => some id
    | .signed _ _ => none

def signedIds (es : List (ClientEvent D)) : List ℕ :=
  es.filterMap fun
    | .pushed _ => none
    | .signed id _ => some id

/-- Both servers of the client have had the block in `pending_blks` and have it no more. -/
def servedOut (cfg : Config) (c : ℕ) (σ : State G) (id : ℕ) : Bool :=
  [0, 1].all fun stub =>
    (σ.server (stubServer cfg.serverCount c stub)).stored.contains id &&
      !(σ.server (stubServer cfg.serverCount c stub)).pendingBlks.contains id

/-- A response of `PullPendingBlocks` brings client `c` no header of a block that it has pushed
before and could get again. -/
def newHeaders (cfg : Config) (c : ℕ) (x : State G × List (ClientEvent D)) : Action G → Bool
  | .ret i =>
    match x.1.calls[i]? with
    | some ⟨_, some (.pull c'), .pullPendingBlocks _ _ pbHdrs⟩ =>
      c' ≠ c || pbHdrs.all fun h => !(pushedIds x.2).contains (headerFromBytes h).id ||
        servedOut cfg c x.1 (headerFromBytes h).id
    | _ => true
  | _ => true

@[simp] theorem pushedIds_append (es es' : List (ClientEvent D)) :
    pushedIds (es ++ es') = pushedIds es ++ pushedIds es' := List.filterMap_append

@[simp] theorem signedIds_append (es es' : List (ClientEvent D)) :
    signedIds (es ++ es') = signedIds es ++ signedIds es' := List.filterMap_append

@[simp] theorem pushedIds_map (ids : List ℕ) :
    pushedIds (ids.map (ClientEvent.pushed (D := D))) = ids := by
  simp [pushedIds, List.filterMap_map]

@[simp] theorem signedIds_map (ids : List ℕ) :
    signedIds (ids.map (ClientEvent.pushed (D := D))) = [] := by
  simp [signedIds, List.filterMap_map]

/-! ## Blocks that cannot be served again -/

theorem servedOut_iff {id : ℕ} : servedOut cfg c σ id = true ↔
    ∀ stub ∈ [0, 1], id ∈ (σ.server (stubServer cfg.serverCount c stub)).stored ∧
      id ∉ (σ.server (stubServer cfg.serverCount c stub)).pendingBlks := by
  simp [servedOut, ← ExtTreeMap.contains_iff_mem]

theorem servedOut_step {id : ℕ} (hs : Steps cfg crypto σ a σ')
    (hone : ∀ stub, (σ'.server (stubServer cfg.serverCount c stub)).stored.count id ≤ 1)
    (h : servedOut cfg c σ id = true) : servedOut cfg c σ' id = true := by
  rw [servedOut_iff] at h ⊢
  intro stub hm
  obtain ⟨hst, hp⟩ := h stub hm
  refine ⟨(hs.later _).stored.subset hst, fun hp' => ?_⟩
  rcases hs.moves (stubServer cfg.serverCount c stub) with he | hmove
  · rw [he] at hp'
    exact hp hp'
  · obtain ⟨p, hp''⟩ := Option.isSome_iff_exists.mp (ExtTreeMap.mem_iff_isSome_getElem?.mp hp')
    rcases hmove.pending hp'' with hold | hstored
    · rw [ExtTreeMap.mem_iff_isSome_getElem?, hold] at hp
      exact hp rfl
    · -- the block would have been stored twice
      have := hone stub
      have hpos := List.count_pos_iff.mpr hst
      rw [hstored, List.count_append, List.count_singleton_self] at this
      omega

/-! ## The history and the client -/

/-- What a `GetBlocks` call of client `c` asks for and has got so far: blocks whose headers the
client has, each one once, and those that it has got were not pushed before. -/
structure Asked (cfg : Config) (c : ℕ) (cl : Client G) (pushed : List ℕ) (call : Call G) : Prop where
  target : ∃ stub ∈ [0, 1], call.target = stubServer cfg.serverCount c stub
  nodup : ∀ hdrs pb, call.rpc = .getBlocks hdrs pb → (hdrs.map headerId ++ pb.map blockId).Nodup
  hdrs : ∀ hdrs pb, call.rpc = .getBlocks hdrs pb → ∀ id ∈ hdrs.map headerId, id ∈ cl.pendingBlkhdr
  pb : ∀ hdrs pb, call.rpc = .getBlocks hdrs pb →
    ∀ id ∈ pb.map blockId, id ∈ cl.pendingBlkhdr ∧ id ∉ pushed

structure History (cfg : Config) (c : ℕ) (x : State G × List (ClientEvent D)) : Prop where
  nodup : (pushedIds x.2).Nodup
  queue : pushedIds x.2 = signedIds x.2 ++ (x.1.client c).pendingBlks.map fun b => b.header.id
  hdrs : ∀ (id : ℕ) h, (x.1.client c).pendingBlkhdr[id]? = some h →
    h.id = id ∧ (id ∈ pushedIds x.2 → servedOut cfg c x.1 id = true)
  waits : pullCalls c x.1 ≤ (x.1.client c).pull.waits
  asked : ∀ call ∈ x.1.calls, call.caller = some (.pull c) →
    Asked cfg c (x.1.client c) (pushedIds x.2) call

theorem history_init (cfg : Config) (c : ℕ) :
    History cfg c ((State.init cfg, []) : State G × List (ClientEvent D)) where
  nodup := by simp [pushedIds]
  queue := by simp [pushedIds, signedIds, State.init, Client.init]
  hdrs id h hid := by simp [State.init, Client.init] at hid
  waits := by simp [pullCalls, State.init]
  asked call hm := by cases hm

theorem History.frame {es : List (ClientEvent D)} (h : History cfg c (σ, es))
    (hhdr : (σ'.client c).pendingBlkhdr = (σ.client c).pendingBlkhdr)
    (hblks : (σ'.client c).pendingBlks = (σ.client c).pendingBlks) (hok : PullOk c σ')
    (hcalls : ∀ call ∈ σ'.calls, call.caller = some (.pull c) →
      Asked cfg c (σ.client c) (pushedIds es) call)
    (hout : ∀ id, servedOut cfg c σ id = true → servedOut cfg c σ' id = true) :
    History cfg c (σ', es) where
  nodup := h.nodup
  queue := by rw [h.queue]; simp only [hblks]
  hdrs id hdr hid := by
    have hid' : (σ.client c).pendingBlkhdr[id]? = some hdr := by rw [← hhdr]; exact hid
    exact ⟨(h.hdrs id hdr hid').1, fun hp => hout id ((h.hdrs id hdr hid').2 hp)⟩
  waits := hok.waits
  asked call hm hc := by
    obtain ⟨h1, h2, h3, h4⟩ := hcalls call hm hc
    exact ⟨h1, h2, by simpa only [hhdr] using h3, by simpa only [hhdr] using h4⟩

theorem History.other {es : List (ClientEvent D)} (h : History cfg c (σ, es))
    (hhdr : (σ'.client c).pendingBlkhdr = (σ.client c).pendingBlkhdr)
    (hblks : (σ'.client c).pendingBlks = (σ.client c).pendingBlks) (hok : PullOk c σ')
    (hcalls : ∀ call ∈ σ'.calls, call.caller = some (.pull c) → call ∈ σ.calls)
    (hout : ∀ id, servedOut cfg c σ id = true → servedOut cfg c σ' id = true) :
    History cfg c (σ', es) :=
  h.frame hhdr hblks hok (fun call hm hc => h.asked call (hcalls call hm hc) hc) hout

theorem History.call {es : List (ClientEvent D)} (h : History cfg c (σ, es)) {stage : PullStage}
    {rpc : Rpc G} (hpc : (σ.client c).pull = .ready stage)
    (hasked : Asked cfg c (σ.client c) (pushedIds es)
      ⟨stubServer cfg.serverCount c stage.stub, some (.pull c), rpc⟩)
    (hcalls : σ'.calls = σ.calls ++ [⟨stubServer cfg.serverCount c stage.stub, some (.pull c), rpc⟩])
    (hclient : σ'.client c = { σ.client c with pull := .wait stage }) (hok : PullOk c σ')
    (hout : ∀ id, servedOut cfg c σ id = true → servedOut cfg c σ' id = true) :
    History cfg c (σ', es) := by
  have hzero : pullCalls c σ = 0 := by
    have := h.waits
    simp only [hpc, PullPc.waits] at this
    omega
  refine ⟨h.nodup, ?_, fun id hdr hid => ?_, hok.waits, fun call hm hc => ?_⟩
  · simp only [hclient]
    exact h.queue
  · have hid' : (σ.client c).pendingBlkhdr[id]? = some hdr := by simpa [hclient] using hid
    exact ⟨(h.hdrs id hdr hid').1, fun hp => hout id ((h.hdrs id hdr hid').2 hp)⟩
  · simp only [hclient]
    rw [hcalls] at hm
    rcases List.mem_append.mp hm with hm | hm
    · exact absurd hc (not_mem_of_pullCalls hzero call hm)
    · rw [List.mem_singleton.mp hm]
      exact ⟨hasked.target, hasked.nodup, hasked.hdrs, hasked.pb⟩

theorem History.client {es : List (ClientEvent D)} (h : History cfg c (σ, es)) {ca : ClientAction}
    {cl' : Client G} {out : Option (ℕ × Rpc G)}
    (ha : (σ.client c).act cfg crypto c ca = some (cl', out))
    (hok : PullOk c ((σ.setClient c cl').addCall (some (ca.thread c)) out))
    (hout : ∀ id, servedOut cfg c σ id = true →
      servedOut cfg c ((σ.setClient c cl').addCall (some (ca.thread c)) out) id = true) :
    History cfg c ((σ.setClient c cl').addCall (some (ca.thread c)) out,
      es ++ clientEvents crypto c σ (.client c ca)) := by
  have hthread : ∀ ca' : ClientAction, ca'.thread c = .vote c →
      some (ca'.thread c) ≠ some (.pull c) := by
    intro ca' he
    rw [he]
    simp
  cases Client.acts_of_act ha with
  | pull order stage hpc =>
    rw [show clientEvents crypto c σ (.client c (.pull order)) = [] from rfl, List.append_nil]
    refine h.call hpc ⟨⟨stage.stub, stage.stub_mem, rfl⟩, ?_, ?_, ?_⟩ rfl (by simp) hok hout <;>
      (intro hdrs pb he; cases he)
  | get order stage hpc =>
    have hkeys : ∀ (id : ℕ) hdr, (σ.client c).pendingBlkhdr[id]? = some hdr → hdr.id = id :=
      fun id hdr hid => (h.hdrs id hdr hid).1
    have hperm := Client.act_get ha
    rw [show clientEvents crypto c σ (.client c (.pull order)) = [] from rfl, List.append_nil]
    refine h.call hpc ⟨⟨stage.stub, stage.stub_mem, rfl⟩, ?_, ?_, ?_⟩ rfl (by simp) hok hout
    · intro hdrs pb he
      cases he
      rw [headerIds_request hkeys hperm, List.map_nil, List.append_nil]
      exact hperm.nodup_iff.mpr ExtTreeMap.nodup_keys
    · intro hdrs pb he id hid
      cases he
      rw [headerIds_request hkeys hperm] at hid
      exact ExtTreeMap.mem_keys.mp (hperm.subset hid)
    · intro hdrs pb he id hid
      cases he
      cases hid
  | votePop block q hpc hq =>
    have hne := hthread .votePop rfl
    have hevents : clientEvents crypto c σ (.client c .votePop) =
        [.signed block.header.id (block.getSha256 crypto)] := by
      simp [clientEvents, hq]
    have hpushed : pushedIds (es ++ [ClientEvent.signed block.header.id (block.getSha256 crypto)]) =
        pushedIds es := by
      simp [pushedIds]
    have hqueue := h.queue
    simp only [hq, List.map_cons] at hqueue
    rw [hevents]
    refine ⟨by rw [hpushed]; exact h.nodup, ?_, fun id hdr hid => ?_, hok.waits, ?_⟩
    · rw [hpushed, hqueue, signedIds_append]
      simp [signedIds]
    · have hid' : (σ.client c).pendingBlkhdr[id]? = some hdr := by simpa using hid
      rw [hpushed]
      exact ⟨(h.hdrs id hdr hid').1, fun hp => hout id ((h.hdrs id hdr hid').2 hp)⟩
    · rw [hpushed]
      intro call hm hc
      have hm' : call ∈ (σ.setClient c _).calls := mem_of_mem_addCall hne hm hc
      obtain ⟨h1, h2, h3, h4⟩ := h.asked call hm' hc
      exact ⟨h1, h2, by simpa using h3, by simpa using h4⟩
  | voteSend request stub stubs hpc =>
    have hne := hthread .voteSend rfl
    rw [show clientEvents crypto c σ (.client c .voteSend) = [] from rfl, List.append_nil]
    exact h.other (by simp) (by simp) hok (fun _ => mem_of_mem_addCall hne) hout

/-- A block that is served to the client was not pushed before: else no server has it any more. -/
theorem Asked.handles {cl : Client G} {pushed : List ℕ} {call : Call G} {now : ℕ} {srv' : Server G}
    {rpc' : Rpc G} (hwf : (σ.server call.target).WF) (h : Asked cfg c cl pushed call)
    (hnew : ∀ id ∈ cl.pendingBlkhdr, id ∈ pushed → servedOut cfg c σ id = true)
    (hh : (σ.server call.target).Handles cfg call.target now call.rpc srv' rpc') :
    Asked cfg c cl pushed { call with rpc := rpc' } := by
  refine ⟨h.target, ?_, ?_, ?_⟩
  · rintro hdrs pb' rfl
    obtain ⟨hdr, pb, hrpc, rfl⟩ := hh.getBlocks
    have hnd := h.nodup _ _ hrpc
    rcases hwf.getItem (headerFromBytes hdr).id with hnil | ⟨-, hids⟩
    · rw [hnil, List.append_nil]
      exact (List.nodup_cons.mp hnd).2
    · rw [List.map_append, hids, ← List.append_assoc]
      exact (List.perm_append_singleton _ _).nodup_iff.mpr hnd
  · rintro hdrs pb' rfl id hid
    obtain ⟨hdr, pb, hrpc, rfl⟩ := hh.getBlocks
    exact h.hdrs _ _ hrpc id (List.mem_cons_of_mem _ hid)
  · rintro hdrs pb' rfl id hid
    obtain ⟨hdr, pb, hrpc, rfl⟩ := hh.getBlocks
    rw [List.map_append] at hid
    rcases List.mem_append.mp hid with hold | hserved
    · exact h.pb _ _ hrpc id hold
    · rcases hwf.getItem (headerFromBytes hdr).id with hnil | ⟨hpend, hids⟩
      · rw [hnil] at hserved; cases hserved
      · rw [hids, List.mem_singleton] at hserved
        subst hserved
        have hhdr := h.hdrs _ _ hrpc (headerFromBytes hdr).id (List.mem_cons_self ..)
        refine ⟨hhdr, fun hp => ?_⟩
        obtain ⟨stub, hstub, htarget⟩ := h.target
        have := (servedOut_iff.mp (hnew _ hhdr hp) stub hstub).2
        rw [← htarget] at this
        exact this hpend

theorem History.hdrs_mem {es : List (ClientEvent D)} (h : History cfg c (σ, es)) :
    ∀ id ∈ (σ.client c).pendingBlkhdr, id ∈ pushedIds es → servedOut cfg c σ id = true := by
  intro id hid hp
  rw [ExtTreeMap.mem_iff_isSome_getElem?] at hid
  obtain ⟨hdr, hid⟩ := Option.isSome_iff_exists.mp hid
  exact (h.hdrs id hdr hid).2 hp

/-- The pull thread goes on; `blocks` are those that it pushes. -/
theorem History.ready {es : List (ClientEvent D)} (h : History cfg c (σ, es))
    {calls : List (Call G)} {cl' : Client G} (blocks : List (Block G)) {stage : PullStage}
    (hok : PullOk c (State.setClient { σ with calls := calls } c cl')) (hpull : cl'.pull = .ready stage)
    (hblks : cl'.pendingBlks = (σ.client c).pendingBlks ++ blocks)
    (hnd : (pushedIds es ++ blocks.map fun b => b.header.id).Nodup)
    (hhdrs : ∀ (id : ℕ) hdr, cl'.pendingBlkhdr[id]? = some hdr → hdr.id = id ∧
      (id ∈ pushedIds es ++ (blocks.map fun b => b.header.id) → servedOut cfg c σ id = true)) :
    History cfg c ((State.setClient { σ with calls := calls } c cl'),
      es ++ blocks.map fun b => .pushed b.header.id) := by
  have hmap : (blocks.map fun b => ClientEvent.pushed (D := D) b.header.id) =
      (blocks.map fun b => b.header.id).map .pushed := by
    rw [List.map_map]
    rfl
  have hpushed : pushedIds (es ++ blocks.map fun b => ClientEvent.pushed (D := D) b.header.id) =
      pushedIds es ++ blocks.map fun b => b.header.id := by
    rw [pushedIds_append, hmap, pushedIds_map]
  have hzero : pullCalls c (State.setClient { σ with calls := calls } c cl') = 0 :=
    hok.pullCalls_of_ready (by simpa using hpull)
  refine ⟨by rw [hpushed]; exact hnd, ?_, fun id hdr hid => ?_, hok.waits, fun call hm hc => ?_⟩
  · have hqueue := h.queue
    simp only at hqueue
    rw [hpushed, signedIds_append, hmap, signedIds_map, hqueue]
    simp [hblks]
  · rw [hpushed]
    exact hhdrs id hdr (by simpa using hid)
  · exact absurd hc (not_mem_of_pullCalls hzero call hm)

theorem History.ret {es : List (ClientEvent D)} (h : History cfg c (σ, es)) {i : ℕ} {call : Call G}
    {cl' : Client G} (hi : σ.calls[i]? = some call) (hf : call.rpc.finished = true)
    (hc : call.caller = some (.pull c)) (hguard : newHeaders cfg c (σ, es) (.ret i) = true)
    (hr : (σ.client c).resumePull (some call.rpc) = some cl')
    (hok : PullOk c (State.setClient { σ with calls := σ.calls.eraseIdx i } c cl')) :
    History cfg c (State.setClient { σ with calls := σ.calls.eraseIdx i } c cl',
      es ++ clientEvents crypto c σ (.ret i)) := by
  have hasked := h.asked call (List.mem_of_getElem? hi) hc
  obtain ⟨target, caller, rpc⟩ := call
  cases hc
  unfold Client.resumePull at hr
  split at hr
  · rename_i stage hpc
    have hquiet : ∀ {cl' : Client G},
        PullOk c (State.setClient { σ with calls := σ.calls.eraseIdx i } c cl') →
        clientEvents crypto c σ (.ret i) = [] → cl'.pull = .ready stage.next →
        cl'.pendingBlks = (σ.client c).pendingBlks →
        (∀ (id : ℕ) hdr, cl'.pendingBlkhdr[id]? = some hdr → hdr.id = id ∧
          (id ∈ pushedIds es → servedOut cfg c σ id = true)) →
        History cfg c (State.setClient { σ with calls := σ.calls.eraseIdx i } c cl',
          es ++ clientEvents crypto c σ (.ret i)) := by
      intro cl' hok he hpull hblks hhdrs
      rw [he]
      exact h.ready [] hok hpull (by simpa using hblks) (by simpa using h.nodup) (by simpa using hhdrs)
    dsimp only at hr
    split at hr
    · rename_i _ _ _ pbHdrs he
      cases he
      cases hr
      refine hquiet hok (by simp [clientEvents, hi]) rfl rfl fun id hdr hid => ?_
      rcases Client.receiveHeaders_getElem? hid with hold | ⟨item, hm, rfl, rfl⟩
      · exact h.hdrs id hdr hold
      · refine ⟨rfl, fun hp => ?_⟩
        simp only [newHeaders, hi, ne_eq, not_true_eq_false, decide_false, Bool.false_or,
          List.all_eq_true] at hguard
        have := hguard item hm
        simpa [hp] using this
    · rename_i _ hdrs pb he
      cases he
      obtain ⟨hblks, hpull, hids, hhdrs⟩ := Client.receiveBlocks_eq hr
      have hnil : hdrs = [] := List.isEmpty_iff.mp hf
      subst hnil
      have hev : clientEvents crypto c σ (.ret i) =
          (pb.filterMap fromBytes).map fun b => .pushed b.header.id := by
        simp [clientEvents, hi]
      rw [hev]
      refine h.ready _ hok hpull hblks ?_ fun id hdr hid => ?_
      · rw [hids]
        refine List.nodup_append.mpr ⟨h.nodup, hasked.nodup _ _ rfl, ?_⟩
        rintro id hold _ hnew rfl
        exact (hasked.pb _ _ rfl id hnew).2 hold
      · obtain ⟨hid', hnot⟩ := hhdrs id hdr hid
        rw [hids]
        refine ⟨(h.hdrs id hdr hid').1, fun hp => ?_⟩
        rcases List.mem_append.mp hp with hp | hp
        · exact (h.hdrs id hdr hid').2 hp
        · exact absurd hp hnot
    · rename_i _ _ hget
      cases hr
      refine hquiet hok ?_ rfl rfl h.hdrs
      have hne : ∀ hdrs pb, rpc ≠ .getBlocks hdrs pb := fun hdrs pb he => hget hdrs pb (by rw [he])
      simp only [clientEvents, hi]
      cases rpc with
      | getBlocks hdrs pb => exact absurd rfl (hne hdrs pb)
      | _ => rfl
  · cases hr

/-- A call of the pull thread fails: the thread goes on with nothing. -/
theorem History.fail {es : List (ClientEvent D)} (h : History cfg c (σ, es)) {i : ℕ} {call : Call G}
    {cl' : Client G} (hr : (σ.client c).resumePull none = some cl') (hok : PullOk c
      (State.setClient { σ with calls := σ.calls.set i { call with caller := none } } c cl')) :
    History cfg c
      (State.setClient { σ with calls := σ.calls.set i { call with caller := none } } c cl', es) := by
  unfold Client.resumePull at hr
  split at hr
  · rename_i stage hpc
    cases hr
    rw [show es = es ++ ([] : List (Block G)).map fun b => .pushed b.header.id by simp]
    exact h.ready [] hok rfl (by simp) (by simpa using h.nodup) (by simpa using h.hdrs)
  · cases hr

theorem History.step {es : List (ClientEvent D)} (h : History cfg c (σ, es))
    (hs : step cfg crypto σ a = some σ') (hwf : ∀ s, (σ.server s).WF) (hok : PullOk c σ')
    (hguard : newHeaders cfg c (σ, es) a = true)
    (hout : ∀ id, servedOut cfg c σ id = true → servedOut cfg c σ' id = true) :
    History cfg c (σ', es ++ clientEvents crypto c σ a) := by
  have hst := steps_of_step hs
  cases hst with
  | server s sa srv' out _ _ _ =>
    have hne : some (Thread.send s sa.chan) ≠ some (.pull c) := by simp
    rw [show clientEvents crypto c σ (.server s sa) = [] from rfl, List.append_nil]
    exact h.other (by simp) (by simp) hok (fun _ => mem_of_mem_addCall hne) hout
  | client c' ca cl' out h1 h2 hacts =>
    by_cases hc : c' = c
    · subst hc
      simp only [TomChain.step, if_pos (And.intro h1 h2), Option.map_eq_some_iff, Prod.exists] at hs
      obtain ⟨cl'', out', ha, he⟩ := hs
      rw [← he] at hok hout ⊢
      exact h.client ha hok hout
    · have hne : some (ca.thread c') ≠ some (.pull c) := by
        cases ca <;> simp [ClientAction.thread, hc]
      have hev : clientEvents crypto c σ (.client c' ca) = [] := by
        cases ca <;> simp [clientEvents, hc]
      have hcl : ((σ.setClient c' cl').addCall (some (ca.thread c')) out).client c = σ.client c := by
        simp [Ne.symm hc]
      rw [hev, List.append_nil]
      exact h.other (by rw [hcl]) (by rw [hcl]) hok (fun _ => mem_of_mem_addCall hne) hout
  | handle i now order call srv' rpc' hi hh =>
    rw [show clientEvents crypto c σ (.handle i now order) = [] from rfl, List.append_nil]
    refine h.frame rfl rfl hok (fun call' hm hc => ?_) hout
    rcases List.mem_or_eq_of_mem_set hm with hm | rfl
    · exact h.asked call' hm hc
    · exact (h.asked call (List.mem_of_getElem? hi) hc).handles (hwf _) h.hdrs_mem hh
  | retOrphan i call hi _ hc =>
    have hev : clientEvents crypto c σ (.ret i) = [] := by
      obtain ⟨target, caller, rpc⟩ := call
      cases hc
      simp [clientEvents, hi]
    rw [hev, List.append_nil]
    exact h.other rfl rfl hok (fun _ hm _ => List.mem_of_mem_eraseIdx hm) hout
  | failOrphan i call hi _ =>
    rw [show clientEvents crypto c σ (.fail i) = [] from rfl, List.append_nil]
    exact h.other rfl rfl hok (fun _ hm _ => List.mem_of_mem_eraseIdx hm) hout
  | foreign target rpc _ _ _ =>
    have hne : (none : Option Thread) ≠ some (.pull c) := by simp
    rw [show clientEvents crypto c σ (.foreign target rpc) = [] from rfl, List.append_nil]
    exact h.other (by simp) (by simp) hok (fun _ => mem_of_mem_addCall hne) hout
  | ret i call θ σ' hi hf hc hr =>
    have hev : call.caller ≠ some (.pull c) → clientEvents crypto c σ (.ret i) = [] := by
      intro hne
      obtain ⟨target, caller, rpc⟩ := call
      simp only [clientEvents, hi]
      split
      · rename_i he
        cases he
        exact if_neg fun he => hne (by rw [he])
      · rfl
    by_cases hθ : θ = .pull c
    · subst hθ
      cases hr with
      | pull _ cl' hr => exact h.ret hi hf hc hguard hr hok
    · obtain ⟨hhdr, hblks, -, hcalls⟩ := hr.frame_pull hθ
      rw [hev (by simp [hc, hθ]), List.append_nil]
      refine h.other hhdr hblks hok (fun call' hm _ => ?_) hout
      rw [hcalls] at hm
      exact List.mem_of_mem_eraseIdx hm
  | fail i call θ σ' hi hc hr =>
    rw [show clientEvents crypto c σ (.fail i) = [] from rfl, List.append_nil]
    by_cases hθ : θ = .pull c
    · subst hθ
      cases hr with
      | pull _ cl' hr => exact h.fail hr hok
    · obtain ⟨hhdr, hblks, -, hcalls⟩ := hr.frame_pull hθ
      exact h.other hhdr hblks hok (fun _ hm hc' => mem_of_mem_set_none hcalls hm hc') hout

/-! ## Whole runs -/

theorem history_of_run (hS : 1 ≤ cfg.serverCount) {x : State G × List (ClientEvent D)}
    (hr : Run (record (step cfg crypto) (clientEvents crypto c))
      (fun x a => newHeaders cfg c x a = true) (State.init cfg, []) x)
    (hlt : (x.1.server cfg.serverCount).packed.length < 2 ^ 64) : History cfg c x := by
  revert hlt
  refine hr.invariant (fun x => (x.1.server cfg.serverCount).packed.length < 2 ^ 64 → History cfg c x)
    (fun _ => history_init cfg c) fun x a y hr hok ih hs hlt => ?_
  obtain ⟨σ, es⟩ := x
  obtain ⟨σ', hσ', rfl⟩ := Option.map_eq_some_iff.mp hs
  have hreach : Reachable cfg crypto unguarded σ := hr.of_record fun _ _ _ => rfl
  have hreach' : Reachable cfg crypto unguarded σ' := .next a hreach rfl hσ'
  have hst := steps_of_step hσ'
  have hlt₀ := lt_of_le_of_lt (hst.later cfg.serverCount).packed.length_le hlt
  refine (ih hlt₀).step hσ' hreach.wf (hreach'.pullOk c) hok fun id hout =>
    servedOut_step hst (fun stub => ?_) hout
  obtain ⟨h1, h2⟩ := stubServer_range hS c stub
  exact stored_count_le_one hreach' hlt h1 h2 id

/-- While no response brings a client the header of a block that it has pushed and could get again,
it pushes every block at most once and signs it at most once. -/
theorem signs_once (cfg : Config) (crypto : Crypto G D) (c : ℕ) (hS : 1 ≤ cfg.serverCount)
    (x : State G × List (ClientEvent D))
    (hr : Run (record (step cfg crypto) (clientEvents crypto c))
      (fun x a => newHeaders cfg c x a = true) (State.init cfg, []) x)
    (hlt : (x.1.server cfg.serverCount).packed.length < 2 ^ 64) :
    (pushedIds x.2).Nodup ∧ (signedIds x.2).Nodup := by
  have h := history_of_run hS hr hlt
  refine ⟨h.nodup, ?_⟩
  have hnd := h.nodup
  rw [h.queue] at hnd
  exact (List.nodup_append.mp hnd).1

/-- In the round the servers offer the block to client 1 before it has it. -/
theorem signs_once_round : ∃ x, Run (record (step sampleConfig Crypto.symbolic)
      (clientEvents Crypto.symbolic 1)) (fun x a => newHeaders sampleConfig 1 x a = true)
      (State.init sampleConfig, []) x ∧
    2000000 ∈ pushedIds x.2 ∧ (pushedIds x.2).Nodup ∧ (signedIds x.2).Nodup := by
  obtain ⟨x, hr, hx⟩ := Run.exists_of_exec (fun _ _ h => h)
    (show (exec (record (step sampleConfig Crypto.symbolic) (clientEvents Crypto.symbolic 1))
      (newHeaders sampleConfig 1) (State.init sampleConfig, []) Script.round).any
      (fun x => (pushedIds x.2 == [2000000]) && (x.1.server 2).packed.length == 1) = true
      by decide +kernel)
  simp only [Bool.and_eq_true, beq_iff_eq] at hx
  exact ⟨x, hr, by simp [hx.1], signs_once sampleConfig Crypto.symbolic 1 (by decide) x hr
    (by simp [sampleConfig, hx.2])⟩

namespace Script

/-- Server 1 offers the block to client 1 before server 2 has labelled it, and server 2 offers it
when the client has voted on it. -/
def offeredTwice : List (Action Point) :=
  List.flatten [
    packBlock, [.server 2 .packInsert], relay 2 .block 1,
    [.server 2 .syncPop, .server 2 .syncSend, .handle 0 100 [], .ret 0],
    pullFrom 1 100 [(2000000, 0)] [(2000000, 0)] [2000000], vote 1, [.server 2 .syncLabel],
    pullFrom 1 100 [(2000000, 0)] [(2000000, 0)] [2000000], vote 1]

end Script

/-- No call fails, and client 1 signs the block twice: without votes, then with its own vote. -/
theorem exists_signed_twice : ∃ x, Run (record (step sampleConfig Crypto.symbolic)
      (clientEvents Crypto.symbolic 1)) (fun x a => reliable sampleConfig x.1 a = true)
      (State.init sampleConfig, []) x ∧
    pushedIds x.2 = [2000000, 2000000] ∧ ∃ d d' : Msgpack Point, d ≠ d' ∧
      .signed 2000000 d ∈ x.2 ∧ .signed 2000000 d' ∈ x.2 := by
  obtain ⟨x, hr, hx⟩ := Run.exists_of_exec (fun _ _ h => h)
    (show (exec (record (step sampleConfig Crypto.symbolic) (clientEvents Crypto.symbolic 1))
      (fun x a => reliable sampleConfig x.1 a) (State.init sampleConfig, []) Script.offeredTwice).any
      (fun x => (pushedIds x.2 == [2000000, 2000000]) &&
        x.2.any (fun | .signed id d => id == 2000000 && packedVotes d == some 0 | _ => false) &&
        x.2.any (fun | .signed id d => id == 2000000 && packedVotes d == some 1 | _ => false)) = true
      by decide +kernel)
  simp only [Bool.and_eq_true, beq_iff_eq, List.any_eq_true] at hx
  obtain ⟨⟨hpushed, ⟨e₀, hm₀, he₀⟩⟩, e₁, hm₁, he₁⟩ := hx
  refine ⟨x, hr, hpushed, ?_⟩
  cases e₀ with
  | pushed => cases he₀
  | signed id₀ d₀ =>
    cases e₁ with
    | pushed => cases he₁
    | signed id₁ d₁ =>
      simp only [Bool.and_eq_true, beq_iff_eq] at he₀ he₁
      obtain ⟨rfl, hv₀⟩ := he₀
      obtain ⟨rfl, hv₁⟩ := he₁
      refine ⟨d₀, d₁, fun he => ?_, hm₀, hm₁⟩
      rw [he, hv₁] at hv₀
      cases hv₀

end TomChain
