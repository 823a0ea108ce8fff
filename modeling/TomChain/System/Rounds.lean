import TomChain.System.Pulls
import TomChain.System.Transit

/-!
# Rounds of a client

A client asks each of its servers for headers and then for the blocks of all the headers that it
has. A header goes when its block arrives; the client does not look at what it asked for in vain. So
a header whose block no server has pending any more stays in every later request. What a round
leaves was pending in it exactly if what it began with was.
-/

namespace TomChain

open Std (ExtTreeMap)
open Runs Server
open Flexbuffers (Flex toBytes fromBytes headerToBytes headerFromBytes)

variable {G D : Type} {cfg : Config} {crypto : Crypto G D} {σ σ' : State G} {a : Action G}
  {ok : State G → Action G → Bool} {c : ℕ}

/-! ## What a handler offers -/

/-- A response gets ids of blocks that are pending now or were when the snapshot was taken. -/
theorem Server.Handles.brings {s now : ℕ} {srv srv' : Server G} {rpc rpc' : Rpc G} (hwf : srv.WF)
    (h : srv.Handles cfg s now rpc srv' rpc') (hsnap : ∀ x ∈ rpc.snapshot, srv.idAt x.2 = some x.1)
    {P : ℕ → Prop} (hpend : ∀ id ∈ srv.pendingBlks, P id) (hx : ∀ x ∈ rpc.snapshot, P x.1)
    (hb : ∀ id ∈ rpc.brings, P id) :
    (∀ x ∈ rpc'.snapshot, P x.1) ∧ ∀ id ∈ rpc'.brings, P id := by
  cases h with
  | pullBegin id order pbHdrs hp =>
    refine ⟨fun x hm => hpend _ ?_, hb⟩
    have hm' : x ∈ srv.pendingBlks.toList := hp.mem_iff.mp hm
    rw [ExtTreeMap.mem_iff_isSome_getElem?, ExtTreeMap.mem_toList_iff_getElem?_eq_some.mp hm']
    rfl
  | pullItem id blockId p todo pbHdrs b _ hdrs hb' hi =>
    refine ⟨fun x hm => hx x (List.mem_cons_of_mem _ hm), fun id hm => ?_⟩
    rw [Rpc.brings, List.map_append] at hm
    rcases List.mem_append.mp hm with hm | hm
    · exact hb id hm
    · rcases pullItem_eq hi with ⟨-, rfl⟩ | ⟨-, rfl, -⟩
      · cases hm
      · obtain ⟨b', hb'', hid⟩ := idAt_eq_some.mp (hsnap _ (List.mem_cons_self ..))
        rw [hb'] at hb''
        cases hb''
        rw [List.map_singleton, List.mem_singleton, headerId, Flexbuffers.headerFromBytes_toBytes,
          hid] at hm
        rw [hm]
        exact hx _ (List.mem_cons_self ..)
  | getItem hdr rest pb =>
    refine ⟨fun x hm => (by cases hm), fun id hm => ?_⟩
    rw [Rpc.brings, List.map_append] at hm
    rcases List.mem_append.mp hm with hm | hm
    · exact hb id hm
    · rcases hwf.getItem (headerFromBytes hdr).id with hnil | ⟨hp, hids⟩
      · rw [hnil] at hm
        cases hm
      · rw [hids, List.mem_singleton] at hm
        rw [hm]
        exact hpend _ hp
  | _ => exact ⟨fun x hm => (by cases hm), fun id hm => (by cases hm)⟩

/-! ## One round -/

/-- One of the two servers of the client had the block in `pending_blks` in one of these states. -/
def PendingIn (cfg : Config) (c : ℕ) (l : List (State G)) (id : ℕ) : Prop :=
  ∃ τ ∈ l, ∃ stub ∈ [0, 1], id ∈ (τ.server (stubServer cfg.serverCount c stub)).pendingBlks

/-- Every header that the client has in `σ` is of such a block. -/
def HoldsPending (cfg : Config) (c : ℕ) (l : List (State G)) (σ : State G) : Prop :=
  ∀ id ∈ (σ.client c).pendingBlkhdr, PendingIn cfg c l id

/-- The requests of `GetBlocks` in these states: no block is asked for twice, and every one is in
`P`. -/
def AsksWithin (c : ℕ) (P : ℕ → Prop) (l : List (State G)) : Prop :=
  ∀ τ ∈ l, ∀ call ∈ τ.calls, call.caller = some (.pull c) →
    ∀ hdrs pb, call.rpc = .getBlocks hdrs pb → (hdrs.map headerId).Nodup ∧ ∀ id ∈ hdrs.map headerId, P id

/-- A round of client `c` from `σ₀` to `σ'`, in which the client's four calls return or fail. `l` are
the states of the round, newest first. -/
structure Round (cfg : Config) (crypto : Crypto G D) (ok : State G → Action G → Bool) (c : ℕ)
    (σ₀ : State G) (l : List (State G)) (σ' : State G) : Prop where
  start : (σ₀.client c).pull = .ready .pull0
  states : ∃ order σ₁ m, ok σ₀ (.client c (.pull order)) ∧
    step cfg crypto σ₀ (.client c (.pull order)) = some σ₁ ∧
    Trace (step cfg crypto) (fun σ a => (σ.client c).pull ≠ .ready .pull0 ∧ ok σ a) σ₁ (σ' :: m) ∧
    l = σ' :: m ++ [σ₀]
  stop : (σ'.client c).pull = .ready .pull0

theorem Round.start_mem {σ₀ : State G} {l : List (State G)} (h : Round cfg crypto ok c σ₀ l σ') :
    σ₀ ∈ l := by
  obtain ⟨-, ⟨_, _, _, -, -, -, rfl⟩, -⟩ := h
  exact List.mem_append_right _ (List.mem_singleton_self _)

theorem Round.reachable {σ₀ τ : State G} {l : List (State G)} (h : Round cfg crypto ok c σ₀ l σ')
    (hr : Reachable cfg crypto ok σ₀) (hτ : τ ∈ l) : Reachable cfg crypto ok τ := by
  obtain ⟨-, ⟨order, σ₁, m, hok, hs, htr, rfl⟩, -⟩ := h
  rcases List.mem_append.mp hτ with hτ | hτ
  · have hrun := (htr.split hτ).1
    exact Run.trans (.next _ hr hok hs) (hrun.mono fun _ _ h => h.2)
  · rw [List.mem_singleton.mp hτ]
    exact hr

theorem PendingIn.mono {l l' : List (State G)} {id : ℕ} (hl : l ⊆ l') (h : PendingIn cfg c l id) :
    PendingIn cfg c l' id := by
  obtain ⟨τ, hm, h⟩ := h
  exact ⟨τ, hl hm, h⟩

/-- The client had the header when the round began, or the block has been pending since. -/
def Named (cfg : Config) (c : ℕ) (σ₀ : State G) (l : List (State G)) (id : ℕ) : Prop :=
  id ∈ (σ₀.client c).pendingBlkhdr ∨ PendingIn cfg c l id

theorem Named.mono {σ₀ : State G} {l l' : List (State G)} {id : ℕ} (hl : l ⊆ l')
    (h : Named cfg c σ₀ l id) : Named cfg c σ₀ l' id :=
  h.imp_right fun hp => hp.mono hl

structure Within (cfg : Config) (c : ℕ) (σ₀ : State G) (l : List (State G)) (call : Call G) : Prop where
  target : ∃ stub ∈ [0, 1], call.target = stubServer cfg.serverCount c stub
  snapshot : ∀ x ∈ call.rpc.snapshot, PendingIn cfg c l x.1
  brings : ∀ id ∈ call.rpc.brings, PendingIn cfg c l id
  asks : ∀ hdrs pb, call.rpc = .getBlocks hdrs pb →
    (hdrs.map headerId).Nodup ∧ ∀ id ∈ hdrs.map headerId, Named cfg c σ₀ l id

theorem Within.mono {σ₀ : State G} {l l' : List (State G)} {call : Call G} (hl : l ⊆ l')
    (h : Within cfg c σ₀ l call) : Within cfg c σ₀ l' call where
  target := h.target
  snapshot x hx := (h.snapshot x hx).mono hl
  brings id hid := (h.brings id hid).mono hl
  asks hdrs pb he := ⟨(h.asks hdrs pb he).1, fun id hid => ((h.asks hdrs pb he).2 id hid).mono hl⟩

structure InRound (cfg : Config) (c : ℕ) (σ₀ : State G) (l : List (State G)) (σ : State G) : Prop where
  headers : ∀ id, ¬ PendingIn cfg c l id →
    (id ∈ (σ.client c).pendingBlkhdr ↔ id ∈ (σ₀.client c).pendingBlkhdr)
  calls : ∀ call ∈ σ.calls, call.caller = some (.pull c) → Within cfg c σ₀ l call
  asked : AsksWithin c (Named cfg c σ₀ l) l

theorem InRound.named {σ₀ : State G} {l : List (State G)} (h : InRound cfg c σ₀ l σ) {id : ℕ}
    (hid : id ∈ (σ.client c).pendingBlkhdr) : Named cfg c σ₀ l id := by
  by_cases hp : PendingIn cfg c l id
  · exact .inr hp
  · exact .inl ((h.headers id hp).mp hid)

theorem within_asks {σ₀ : State G} {l : List (State G)} (hkeys : HeaderKeys (σ.client c))
    (h : InRound cfg c σ₀ l σ) {stage : PullStage} {rpc : Rpc G} (ha : (σ.client c).Asks c rpc) :
    Within cfg c σ₀ l ⟨stubServer cfg.serverCount c stage.stub, some (.pull c), rpc⟩ := by
  have htarget : ∃ stub ∈ [0, 1], stubServer cfg.serverCount c stage.stub =
      stubServer cfg.serverCount c stub := ⟨stage.stub, stage.stub_mem, rfl⟩
  cases ha with
  | headers =>
    exact ⟨htarget, fun x hx => (by cases hx), fun id hid => (by cases hid), fun _ _ he => (by cases he)⟩
  | blocks order hp =>
    refine ⟨htarget, fun x hx => (by cases hx), fun id hid => (by cases hid), ?_⟩
    intro hdrs pb he
    cases he
    rw [headerIds_request hkeys hp]
    refine ⟨hp.nodup_iff.mpr ExtTreeMap.nodup_keys, fun id hid => h.named ?_⟩
    exact ExtTreeMap.mem_keys.mp (hp.subset hid)

theorem Within.handle {σ₀ : State G} {l : List (State G)} {call : Call G} {now : ℕ} {srv' : Server G}
    {rpc' : Rpc G} (hwf : (σ.server call.target).WF)
    (hsnap : ∀ x ∈ call.rpc.snapshot, (σ.server call.target).idAt x.2 = some x.1)
    (hh : (σ.server call.target).Handles cfg call.target now call.rpc srv' rpc') (hσ : σ ∈ l)
    (h : Within cfg c σ₀ l call) : Within cfg c σ₀ l { call with rpc := rpc' } := by
  have hpend : ∀ id ∈ (σ.server call.target).pendingBlks, PendingIn cfg c l id := by
    intro id hid
    obtain ⟨stub, hstub, htarget⟩ := h.target
    exact ⟨σ, hσ, stub, hstub, by rwa [← htarget]⟩
  obtain ⟨hsnapshot, hbrings⟩ := hh.brings hwf hsnap hpend h.snapshot h.brings
  refine ⟨h.target, hsnapshot, hbrings, ?_⟩
  rintro hdrs pb' rfl
  obtain ⟨hdr, pb, hrpc, -⟩ := hh.getBlocks
  obtain ⟨hnd, hnamed⟩ := h.asks _ _ hrpc
  exact ⟨(List.nodup_cons.mp hnd).2, fun id hid => hnamed id (List.mem_cons_of_mem _ hid)⟩

theorem InRound.step {σ₀ : State G} {l : List (State G)} (hr : Reachable cfg crypto ok σ)
    (hs : step cfg crypto σ a = some σ') (h : InRound cfg c σ₀ (σ :: l) σ) :
    InRound cfg c σ₀ (σ' :: σ :: l) σ' := by
  have hsub : σ :: l ⊆ σ' :: σ :: l := List.subset_cons_self _ _
  have hwithin : ∀ call ∈ σ'.calls, call.caller = some (.pull c) →
      Within cfg c σ₀ (σ' :: σ :: l) call := by
    intro call hm hc
    cases pullSteps_of_step (c := c) hs with
    | idle _ _ hcalls => exact (h.calls call ((hcalls call hc).mp hm) hc).mono hsub
    | ask stage rpc _ ha hcalls =>
      rw [hcalls] at hm
      rcases List.mem_append.mp hm with hm | hm
      · exact (h.calls call hm hc).mono hsub
      · rw [List.mem_singleton.mp hm]
        exact (within_asks (hr.pullOk c).keys h ha).mono hsub
    | handle i now order call₀ srv' rpc' _ hi hc₀ hh hcalls =>
      rw [hcalls] at hm
      rcases List.mem_or_eq_of_mem_set hm with hm | rfl
      · exact (h.calls call hm hc).mono hsub
      · have hm₀ := List.mem_of_getElem? hi
        exact ((h.calls call₀ hm₀ hc₀).handle (hr.wf _) (hr.snapshots call₀ hm₀) hh
          (List.mem_cons_self ..)).mono hsub
    | ret i call₀ _ _ _ hcalls =>
      rw [hcalls] at hm
      exact (h.calls call (List.mem_of_mem_eraseIdx hm) hc).mono hsub
    | fail i call₀ _ _ _ _ hcalls => exact (h.calls call (mem_of_mem_set_none hcalls hm hc) hc).mono hsub
  refine ⟨fun id hno => ?_, hwithin, fun τ hτ call hm hc hdrs pb he => ?_⟩
  · have hold := h.headers id fun hp => hno (hp.mono hsub)
    rw [← hold]
    cases pullSteps_of_step (c := c) hs with
    | idle _ hhdr => rw [hhdr]
    | ask stage rpc _ _ _ hclient => rw [hclient]
    | handle i now order call srv' rpc' _ _ _ _ _ _ _ hclient => rw [hclient]
    | ret i call hi hc hr' =>
      refine Client.resumePull_headers hr' ?_
      rintro rpc he hid
      cases he
      exact hno (((h.calls call (List.mem_of_getElem? hi) hc).brings id hid).mono hsub)
    | fail i call _ _ _ hr' => exact Client.resumePull_headers hr' fun rpc he => by cases he
  · rcases List.mem_cons.mp hτ with rfl | hτ
    · exact (hwithin call hm hc).asks hdrs pb he
    · obtain ⟨hnd, hnamed⟩ := h.asked τ hτ call hm hc hdrs pb he
      exact ⟨hnd, fun id hid => (hnamed id hid).mono hsub⟩

theorem inRound_start {σ₀ : State G} (hok : PullOk c σ₀) (hpc : (σ₀.client c).pull = .ready .pull0) :
    InRound cfg c σ₀ [σ₀] σ₀ := by
  have hzero := hok.pullCalls_of_ready hpc
  refine ⟨fun id _ => Iff.rfl, fun call hm hc => ?_, fun τ hτ call hm hc => ?_⟩
  · exact absurd hc (not_mem_of_pullCalls hzero call hm)
  · rw [List.mem_singleton.mp hτ] at hm
    exact absurd hc (not_mem_of_pullCalls hzero call hm)

theorem Round.inRound {σ₀ : State G} {l : List (State G)} (h : Round cfg crypto ok c σ₀ l σ')
    (hr : Reachable cfg crypto ok σ₀) : InRound cfg c σ₀ l σ' := by
  obtain ⟨hpc, ⟨order, σ₁, m, hok, hs, htr, rfl⟩, -⟩ := h
  have hr₁ : Reachable cfg crypto ok σ₁ := .next _ hr hok hs
  refine htr.invariant (fun l σ => InRound cfg c σ₀ (l ++ [σ₀]) σ)
    ((inRound_start (hr.pullOk c) hpc).step hr hs) fun l σ a τ htr _ hs ih => ?_
  exact ih.step (hr₁.trans (htr.run.mono fun _ _ h => h.2)) hs

/-- What a client has left or asks for in a round was pending in the round exactly if what it had in
the beginning was. -/
theorem Round.holdsPending_iff {σ₀ : State G} {l : List (State G)}
    (h : Round cfg crypto ok c σ₀ l σ') (hr : Reachable cfg crypto ok σ₀) :
    (HoldsPending cfg c l σ' ∧ AsksWithin c (PendingIn cfg c l) l) ↔ HoldsPending cfg c l σ₀ := by
  have hin := h.inRound hr
  constructor
  · rintro ⟨hleft, -⟩ id hid
    by_contra hno
    exact hno (hleft id ((hin.headers id hno).mpr hid))
  · intro hbegin
    have hpending : ∀ id, Named cfg c σ₀ l id → PendingIn cfg c l id := by
      rintro id (hid | hp)
      · exact hbegin id hid
      · exact hp
    refine ⟨fun id hid => hpending id (hin.named hid), fun τ hτ call hm hc hdrs pb he => ?_⟩
    obtain ⟨hnd, hnamed⟩ := hin.asked τ hτ call hm hc hdrs pb he
    exact ⟨hnd, fun id hid => hpending id (hnamed id hid)⟩

namespace Script

/-- Client 1 gets and signs the block from server 1 before server 2 has labelled it; client 2 has it
and has yet to sign it. -/
def labelledLate : List (Action Point) :=
  List.flatten [
    packBlock, [.server 2 .packInsert], relay 2 .block 1,
    [.server 2 .syncPop, .server 2 .syncSend, .handle 0 100 [], .ret 0],
    pullFrom 1 100 [(2000000, 0)] [(2000000, 0)] [2000000], vote 1,
    pullFrom 2 100 [(2000000, 0)] [(2000000, 0)] [2000000], [.server 2 .syncLabel]]

/-- The rest of a round after the first call. Both servers have the block at address 0, and server 2
offers its header again; when client 1 asks for it, both have all votes. -/
def finishedMeanwhile : List (Action Point) :=
  List.flatten [
    [.handle 0 100 [(2000000, 0)], .handle 0 100 [], .ret 0,
      .client 1 (.pull []), .handle 0 100 [(2000000, 0)], .handle 0 100 [], .ret 0], vote 2,
    [.client 1 (.pull [2000000]), .handle 0 100 [], .ret 0,
      .client 1 (.pull [2000000]), .handle 0 100 [], .ret 0]]

/-- The rest of a round in which nothing is pending and client 1 asks for the block. -/
def askedInVain : List (Action Point) :=
  [.handle 0 100 [], .ret 0, .client 1 (.pull []), .handle 0 100 [], .ret 0,
    .client 1 (.pull [2000000]), .handle 0 100 [], .ret 0,
    .client 1 (.pull [2000000]), .handle 0 100 [], .ret 0]

end Script

/-- The state after a round from `σ₀`, if it is one; `quiet` holds of its states. -/
def execRound (cfg : Config) (crypto : Crypto G D) (ok : State G → Action G → Bool) (c : ℕ)
    (quiet : State G → Bool) (rest : List (Action G)) (σ₀ : State G) : Option (State G) :=
  if (σ₀.client c).pull = .ready .pull0 ∧ ok σ₀ (.client c (.pull [])) ∧ quiet σ₀ then
    (step cfg crypto σ₀ (.client c (.pull []))).bind fun σ₁ =>
      (exec (step cfg crypto) (fun σ a => (σ.client c).pull ≠ .ready .pull0 && ok σ a && quiet σ)
        σ₁ rest).filter fun σ' => (σ'.client c).pull = .ready .pull0 && quiet σ'
  else none

theorem round_of_execRound {quiet : State G → Bool} {rest : List (Action G)} {σ₀ : State G}
    (h : execRound cfg crypto ok c quiet rest σ₀ = some σ') :
    ∃ l, Round cfg crypto ok c σ₀ l σ' ∧ ∀ τ ∈ l, quiet τ = true := by
  unfold execRound at h
  split at h
  · rename_i hstart
    obtain ⟨hpc, hok, hq₀⟩ := hstart
    obtain ⟨σ₁, hs, h⟩ := Option.bind_eq_some_iff.mp h
    obtain ⟨hexec, hstop⟩ := Option.filter_eq_some_iff.mp h
    simp only [Bool.and_eq_true, decide_eq_true_eq] at hstop
    have hrun : Run (step cfg crypto)
        (fun σ a => ((σ.client c).pull ≠ .ready .pull0 ∧ ok σ a) ∧ quiet σ) σ₁ σ' :=
      Run.of_exec (by simp) rest σ₁ σ' hexec
    obtain ⟨m, htr⟩ := hrun.exists_trace
    refine ⟨σ' :: m ++ [σ₀],
      ⟨hpc, ⟨[], σ₁, m, hok, hs, htr.mono fun _ _ h => h.1, rfl⟩, hstop.1⟩, fun τ hτ => ?_⟩
    rcases List.mem_append.mp hτ with hτ | hτ
    · rcases List.mem_cons.mp hτ with rfl | hτ
      · exact hstop.2
      · exact htr.guarded (fun _ _ h => h.2) τ hτ
    · rw [List.mem_singleton.mp hτ]
      exact hq₀
  · cases h

/-- In the next round no server has the block, and the client still holds its header. All calls
succeed. -/
theorem exists_header_left : ∃ σ₀ l σ',
    Reachable sampleConfig Crypto.symbolic (reliable sampleConfig) σ₀ ∧
    Round sampleConfig Crypto.symbolic (reliable sampleConfig) 1 σ₀ l σ' ∧
    2000000 ∈ (σ'.client 1).pendingBlkhdr ∧ ¬ PendingIn sampleConfig 1 l 2000000 := by
  obtain ⟨σ₀, hr, hσ₀⟩ := exists_reachable sampleConfig Crypto.symbolic (reliable sampleConfig)
    (List.flatten [Script.labelledLate, [.client 1 (.pull [])], Script.finishedMeanwhile])
    (fun σ₀ => (execRound sampleConfig Crypto.symbolic (reliable sampleConfig) 1
      (fun σ => [0, 1].all fun stub => !(σ.server (stubServer 2 1 stub)).pendingBlks.contains 2000000)
      Script.askedInVain σ₀).any fun σ' : State Point =>
        decide (2000000 ∈ (σ'.client 1).pendingBlkhdr))
    (by decide +kernel)
  obtain ⟨σ', hexec, hheld⟩ := (Option.any_eq_true _ _).mp hσ₀
  obtain ⟨l, hround, hquiet⟩ := round_of_execRound hexec
  refine ⟨σ₀, l, σ', hr, hround, of_decide_eq_true hheld, ?_⟩
  rintro ⟨τ, hτ, stub, hstub, hp⟩
  have hnot := List.all_eq_true.mp (hquiet τ hτ) stub hstub
  rw [Bool.not_eq_true', ← Bool.not_eq_true, ExtTreeMap.contains_iff_mem] at hnot
  exact hnot hp

end TomChain
