import TomChain.System.Pipeline

/-!
# The pull thread of a client

The thread makes a call, waits for it and goes on with what the response brings. `PullSteps` lists
what a step of the system can mean for it; the thread waits for one call at most (`PullOk`).
-/

namespace TomChain

open Std (ExtTreeMap)
open Runs Server
open Flexbuffers (Flex toBytes fromBytes headerToBytes headerFromBytes)

variable {G D : Type} {cfg : Config} {crypto : Crypto G D} {σ σ' : State G} {a : Action G}
  {ok : State G → Action G → Bool} {c : ℕ}

/-! ## The calls of the pull thread -/

def headerId (hdr : Flex G) : ℕ := (headerFromBytes hdr).id

def blockId (item : Flex G) : ℕ := (wireKey .block item).1

def pullCalls (c : ℕ) (σ : State G) : ℕ :=
  (σ.calls.flatMap fun call => if call.caller = some (.pull c) then [()] else []).count ()

def PullPc.waits : PullPc → ℕ
  | .ready _ => 0
  | .wait _ => 1

theorem not_mem_of_pullCalls (h : pullCalls c σ = 0) :
    ∀ call ∈ σ.calls, call.caller ≠ some (.pull c) := by
  intro call hm hc
  rw [pullCalls, List.count_eq_zero] at h
  exact h (List.mem_flatMap.mpr ⟨call, hm, by simp [hc]⟩)

theorem pullCalls_addCall {σ : State G} {caller : Option Thread} {out : Option (ℕ × Rpc G)}
    (hc : caller ≠ some (.pull c)) : pullCalls c (σ.addCall caller out) = pullCalls c σ := by
  rw [pullCalls, State.addCall_calls, List.flatMap_append, List.count_append, pullCalls]
  cases out <;> simp [madeCall, hc]

theorem mem_of_mem_addCall {caller : Option Thread} {out : Option (ℕ × Rpc G)}
    (hc : caller ≠ some (.pull c)) {call : Call G} (hm : call ∈ (σ.addCall caller out).calls)
    (hcall : call.caller = some (.pull c)) : call ∈ σ.calls := by
  rcases State.mem_addCall hm with hm | ⟨r, -, rfl⟩
  · exact hm
  · exact absurd hcall hc

theorem pullCalls_set {i : ℕ} {call : Call G} (hi : σ.calls[i]? = some call) (call' : Call G) :
    pullCalls c { σ with calls := σ.calls.set i call' } +
        (if call.caller = some (.pull c) then 1 else 0) =
      pullCalls c σ + if call'.caller = some (.pull c) then 1 else 0 := by
  have hone : ∀ call : Call G, (if call.caller = some (.pull c) then [()] else []).count () =
      if call.caller = some (.pull c) then 1 else 0 := by
    intro call
    split <;> rfl
  have hset := count_flatMap_set
    (fun call : Call G => if call.caller = some (.pull c) then [()] else []) hi call' ()
  simp only [hone] at hset
  exact hset

theorem pullCalls_eraseIdx {i : ℕ} {call : Call G} (hi : σ.calls[i]? = some call) :
    pullCalls c { σ with calls := σ.calls.eraseIdx i } +
      (if call.caller = some (.pull c) then 1 else 0) = pullCalls c σ := by
  have herase := count_flatMap_eraseIdx
    (fun call : Call G => if call.caller = some (.pull c) then [()] else []) hi ()
  rw [pullCalls, pullCalls, ← herase]
  split <;> simp [*]

/-! ## Requests and responses -/

theorem Client.act_get {cl cl' : Client G} {order : List ℕ} {target : ℕ} {hdrs pb : List (Flex G)}
    (h : cl.act cfg crypto c (.pull order) = some (cl', some (target, .getBlocks hdrs pb))) :
    order.Perm cl.pendingBlkhdr.keys := by
  simp only [Client.act] at h
  split at h
  · split at h
    · cases h
    · cases h
    · split at h
      · rename_i hp; exact List.isPerm_iff.mp hp
      · cases h
    · split at h
      · rename_i hp; exact List.isPerm_iff.mp hp
      · cases h
  · cases h

/-- The ids of the headers that a `GetBlocks` request asks for. -/
theorem headerIds_request {m : ExtTreeMap ℕ BlockHeader}
    (hm : ∀ (id : ℕ) (h : BlockHeader), m[id]? = some h → h.id = id) {order : List ℕ}
    (hp : order.Perm m.keys) :
    ((order.filterMap (m[·]?)).map headerToBytes).map (headerId (G := G)) = order := by
  have hall : ∀ id ∈ order, ∃ h, m[id]? = some h := by
    intro id hid
    have hmem := ExtTreeMap.mem_keys.mp (hp.subset hid)
    rw [ExtTreeMap.mem_iff_isSome_getElem?] at hmem
    exact Option.isSome_iff_exists.mp hmem
  clear hp
  induction order with
  | nil => rfl
  | cons id order ih =>
    obtain ⟨h, hid⟩ := hall id (List.mem_cons_self ..)
    rw [List.filterMap_cons_some hid, List.map_cons, List.map_cons,
      ih fun id' hm' => hall id' (List.mem_cons_of_mem _ hm')]
    rw [headerId, Flexbuffers.headerFromBytes_toBytes, hm id h hid]

theorem PullStage.stub_mem (stage : PullStage) : stage.stub ∈ [0, 1] := by
  cases stage <;> decide

theorem Server.Handles.getBlocks {s now : ℕ} {srv srv' : Server G} {rpc : Rpc G}
    {hdrs pb' : List (Flex G)} (h : srv.Handles cfg s now rpc srv' (.getBlocks hdrs pb')) :
    ∃ hdr pb, rpc = .getBlocks (hdr :: hdrs) pb ∧
      pb' = pb ++ srv.getItem (headerFromBytes hdr).id := by
  cases h
  exact ⟨_, _, rfl, rfl⟩

/-- `GetBlocks` serves the block with the requested id, if it is pending. -/
theorem Server.WF.getItem {srv : Server G} (hwf : srv.WF) (id : ℕ) :
    srv.getItem id = [] ∨ id ∈ srv.pendingBlks ∧ (srv.getItem id).map blockId = [id] := by
  unfold Server.getItem
  cases hp : srv.pendingBlks[id]? with
  | none => exact .inl rfl
  | some p =>
    obtain ⟨b, hb, hid⟩ := idAt_eq_some.mp (hwf.pending id p hp)
    right
    refine ⟨by rw [ExtTreeMap.mem_iff_isSome_getElem?, hp]; rfl, ?_⟩
    simp [hb, blockId, wireKey_toBytes, hid]

theorem Client.receiveHeaders_getElem? {pbHdrs : List (Flex G)} {cl : Client G} {id : ℕ}
    {h : BlockHeader} (hid : (cl.receiveHeaders pbHdrs).pendingBlkhdr[id]? = some h) :
    cl.pendingBlkhdr[id]? = some h ∨ ∃ hdr ∈ pbHdrs, h = headerFromBytes hdr ∧ h.id = id := by
  induction pbHdrs generalizing cl with
  | nil => exact .inl hid
  | cons hdr rest ih =>
    rcases @ih { cl with pendingBlkhdr :=
      cl.pendingBlkhdr.insertIfNew (headerFromBytes hdr).id (headerFromBytes hdr) } hid with hold | hnew
    · rw [ExtTreeMap.getElem?_insertIfNew] at hold
      split at hold
      · rename_i he
        cases hold
        exact .inr ⟨hdr, List.mem_cons_self .., rfl, Nat.compare_eq_eq.mp he.1⟩
      · exact .inl hold
    · obtain ⟨hdr', hm, he⟩ := hnew
      exact .inr ⟨hdr', List.mem_cons_of_mem _ hm, he⟩

/-- `GetBlocks` pushes the blocks of the response and drops their headers. -/
theorem Client.receiveBlocks_eq {pb : List (Flex G)} {cl cl' : Client G}
    (h : cl.receiveBlocks pb = some cl') :
    cl'.pendingBlks = cl.pendingBlks ++ pb.filterMap fromBytes ∧ cl'.pull = cl.pull ∧
      (pb.filterMap fromBytes).map (fun b => b.header.id) = pb.map blockId ∧
      ∀ (id : ℕ) hdr, cl'.pendingBlkhdr[id]? = some hdr →
        cl.pendingBlkhdr[id]? = some hdr ∧ id ∉ pb.map blockId := by
  induction pb generalizing cl with
  | nil => cases h; simp
  | cons item rest ih =>
    simp only [Client.receiveBlocks] at h
    split at h
    · cases h
    · rename_i block hd
      obtain ⟨h1, h2, h3, h4⟩ := ih h
      have hkey : blockId item = block.header.id := by
        rw [blockId, wireKey_of_fromBytes (by simp) hd]
      refine ⟨by simp [h1, hd], h2, by simp [hd, h3, hkey], fun id hdr hid => ?_⟩
      obtain ⟨hid', hnot⟩ := h4 id hdr hid
      rw [ExtTreeMap.getElem?_erase] at hid'
      split at hid'
      · cases hid'
      · rename_i hne
        refine ⟨hid', fun hm => ?_⟩
        rcases List.mem_cons.mp hm with he | hm
        · exact hne (Nat.compare_eq_eq.mpr (by rw [he, hkey]))
        · exact hnot hm

def Rpc.brings : Rpc G → List ℕ
  | .pullPendingBlocks _ _ pbHdrs => pbHdrs.map headerId
  | .getBlocks _ pb => pb.map blockId
  | _ => []

theorem Client.mem_receiveHeaders {pbHdrs : List (Flex G)} {cl : Client G} {id : ℕ} :
    id ∈ (cl.receiveHeaders pbHdrs).pendingBlkhdr ↔
      id ∈ cl.pendingBlkhdr ∨ id ∈ pbHdrs.map headerId := by
  induction pbHdrs generalizing cl with
  | nil => simp [Client.receiveHeaders]
  | cons hdr rest ih =>
    have hcons : cl.receiveHeaders (hdr :: rest) = ({ cl with
        pendingBlkhdr := cl.pendingBlkhdr.insertIfNew (headerFromBytes hdr).id (headerFromBytes hdr) }
        : Client G).receiveHeaders rest := rfl
    rw [hcons, ih]
    simp only [ExtTreeMap.mem_insertIfNew, Nat.compare_eq_eq, List.map_cons, List.mem_cons, headerId]
    grind

theorem Client.mem_receiveBlocks {pb : List (Flex G)} {cl cl' : Client G}
    (h : cl.receiveBlocks pb = some cl') {id : ℕ} :
    id ∈ cl'.pendingBlkhdr ↔ id ∈ cl.pendingBlkhdr ∧ id ∉ pb.map blockId := by
  induction pb generalizing cl with
  | nil => cases h; simp
  | cons item rest ih =>
    simp only [Client.receiveBlocks] at h
    split at h
    · cases h
    · rename_i block hd
      have hkey : blockId item = block.header.id := by
        rw [blockId, wireKey_of_fromBytes (by simp) hd]
      rw [ih h]
      simp only [ExtTreeMap.mem_erase, List.map_cons, List.mem_cons, hkey]
      grind

/-- The headers of a client change by what a response brings. -/
theorem Client.resumePull_headers {cl cl' : Client G} {response : Option (Rpc G)}
    (h : cl.resumePull response = some cl') {id : ℕ}
    (hno : ∀ rpc, response = some rpc → id ∉ rpc.brings) :
    id ∈ cl'.pendingBlkhdr ↔ id ∈ cl.pendingBlkhdr := by
  unfold Client.resumePull at h
  split at h
  · dsimp only at h
    split at h
    · cases h
      rw [Client.mem_receiveHeaders]
      exact or_iff_left (hno _ rfl)
    · rw [Client.mem_receiveBlocks h]
      exact and_iff_left (hno _ rfl)
    · cases h
      rfl
  · cases h

/-- A thread that is not the pull thread of the client leaves what the client pulls alone. -/
theorem Resumes.frame_pull {response : Option (Rpc G)} {θ : Thread} (h : Resumes σ response θ σ')
    (hne : θ ≠ .pull c) : (σ'.client c).pendingBlkhdr = (σ.client c).pendingBlkhdr ∧
      (σ'.client c).pendingBlks = (σ.client c).pendingBlks ∧
      (σ'.client c).pull = (σ.client c).pull ∧ σ'.calls = σ.calls := by
  cases h with
  | send => exact ⟨rfl, rfl, rfl, rfl⟩
  | pull c' cl' hr =>
    have hc : c ≠ c' := fun he => hne (by rw [he])
    simp [hc]
  | vote c' cl' hr =>
    by_cases hc : c = c'
    · subst hc
      unfold Client.resumeVote at hr
      split at hr <;> cases hr <;> simp
    · simp [hc]

/-! ## A step, as the pull thread sees it -/

/-- What the pull thread asks a server for. -/
inductive Client.Asks (c : ℕ) (cl : Client G) : Rpc G → Prop
  | headers : Asks c cl (.pullPendingBlocks c none [])
  | blocks (order : List ℕ) : order.Perm cl.pendingBlkhdr.keys →
      Asks c cl (.getBlocks ((order.filterMap (cl.pendingBlkhdr[·]?)).map headerToBytes) [])

inductive PullSteps (cfg : Config) (c : ℕ) (σ : State G) (a : Action G) (σ' : State G) : Prop
  | idle : (σ'.client c).pull = (σ.client c).pull →
      (σ'.client c).pendingBlkhdr = (σ.client c).pendingBlkhdr →
      (∀ call, call.caller = some (.pull c) → (call ∈ σ'.calls ↔ call ∈ σ.calls)) →
      pullCalls c σ' ≤ pullCalls c σ → PullSteps cfg c σ a σ'
  | ask (stage : PullStage) (rpc : Rpc G) : (σ.client c).pull = .ready stage →
      (σ.client c).Asks c rpc →
      σ'.calls = σ.calls ++ [⟨stubServer cfg.serverCount c stage.stub, some (.pull c), rpc⟩] →
      σ'.client c = { σ.client c with pull := .wait stage } → PullSteps cfg c σ a σ'
  | handle (i now : ℕ) (order : List (ℕ × ℕ)) (call : Call G) (srv' : Server G) (rpc' : Rpc G) :
      a = .handle i now order → σ.calls[i]? = some call → call.caller = some (.pull c) →
      (σ.server call.target).Handles cfg call.target now call.rpc srv' rpc' →
      σ'.calls = σ.calls.set i { call with rpc := rpc' } →
      σ'.server = (σ.setServer call.target srv').server →
      pullCalls c σ' ≤ pullCalls c σ → σ'.client = σ.client → PullSteps cfg c σ a σ'
  | ret (i : ℕ) (call : Call G) : σ.calls[i]? = some call → call.caller = some (.pull c) →
      (σ.client c).resumePull (some call.rpc) = some (σ'.client c) →
      σ'.calls = σ.calls.eraseIdx i → pullCalls c σ' + 1 = pullCalls c σ → PullSteps cfg c σ a σ'
  | fail (i : ℕ) (call : Call G) : a = .fail i → σ.calls[i]? = some call →
      call.caller = some (.pull c) → (σ.client c).resumePull none = some (σ'.client c) →
      σ'.calls = σ.calls.set i { call with caller := none } → σ'.server = σ.server →
      pullCalls c σ' + 1 = pullCalls c σ → PullSteps cfg c σ a σ'

theorem PullSteps.other {σ₁ : State G} {caller : Option Thread} {out : Option (ℕ × Rpc G)}
    (hc : caller ≠ some (.pull c)) (hpull : (σ₁.client c).pull = (σ.client c).pull)
    (hhdr : (σ₁.client c).pendingBlkhdr = (σ.client c).pendingBlkhdr) (hcalls : σ₁.calls = σ.calls) :
    PullSteps cfg c σ a (σ₁.addCall caller out) := by
  refine .idle (by simpa using hpull) (by simpa using hhdr) (fun call hcall => ?_) ?_
  · rw [← hcalls]
    exact ⟨fun hm => mem_of_mem_addCall hc hm hcall, fun hm => by simp [hm]⟩
  · rw [pullCalls_addCall hc, pullCalls, pullCalls, hcalls]

theorem PullSteps.drop {i : ℕ} {call : Call G} (hi : σ.calls[i]? = some call)
    (hc : call.caller ≠ some (.pull c)) (hcalls : σ'.calls = σ.calls.eraseIdx i)
    (hpull : (σ'.client c).pull = (σ.client c).pull)
    (hhdr : (σ'.client c).pendingBlkhdr = (σ.client c).pendingBlkhdr) : PullSteps cfg c σ a σ' := by
  refine .idle hpull hhdr (fun call' hcall => ?_) ?_
  · rw [hcalls]
    refine ⟨List.mem_of_mem_eraseIdx, fun hm => ?_⟩
    obtain ⟨j, hj⟩ := List.mem_iff_getElem?.mp hm
    refine List.mem_eraseIdx_iff_getElem?.mpr ⟨j, ?_, hj⟩
    rintro rfl
    rw [hi] at hj
    cases hj
    exact hc hcall
  · rw [pullCalls, hcalls]
    exact (Nat.le_add_right _ _).trans (pullCalls_eraseIdx hi).le

theorem PullSteps.swap {i : ℕ} {call : Call G} (call' : Call G) (hi : σ.calls[i]? = some call)
    (hc : call.caller ≠ some (.pull c)) (hc' : call'.caller ≠ some (.pull c))
    (hcalls : σ'.calls = σ.calls.set i call') (hpull : (σ'.client c).pull = (σ.client c).pull)
    (hhdr : (σ'.client c).pendingBlkhdr = (σ.client c).pendingBlkhdr) : PullSteps cfg c σ a σ' := by
  refine .idle hpull hhdr (fun call₀ hcall => ?_) ?_
  · rw [hcalls]
    constructor
    · intro hm
      rcases List.mem_or_eq_of_mem_set hm with hm | rfl
      · exact hm
      · exact absurd hcall hc'
    · intro hm
      obtain ⟨j, hj⟩ := List.mem_iff_getElem?.mp hm
      refine List.mem_of_getElem? (i := j) ?_
      rw [List.getElem?_set_ne, hj]
      rintro rfl
      rw [hi] at hj
      cases hj
      exact hc hcall
  · have hset := pullCalls_set (c := c) hi call'
    rw [if_neg hc, if_neg hc'] at hset
    rw [pullCalls, hcalls]
    exact hset.le

theorem mem_of_mem_set_none {i : ℕ} {call call' : Call G}
    (hcalls : σ'.calls = σ.calls.set i { call with caller := none })
    (hm : call' ∈ σ'.calls) (hc : call'.caller = some (.pull c)) : call' ∈ σ.calls := by
  rw [hcalls] at hm
  rcases List.mem_or_eq_of_mem_set hm with hm | rfl
  · exact hm
  · cases hc

theorem pullSteps_of_step (h : step cfg crypto σ a = some σ') : PullSteps cfg c σ a σ' := by
  cases steps_of_step h with
  | server s sa srv' out _ _ _ => exact .other (by simp) rfl rfl rfl
  | client c' ca cl' out h1 h2 hacts =>
    by_cases hc : c' = c
    · subst hc
      -- the order of the headers is in the function, not in its cases
      simp only [step, if_pos (And.intro h1 h2), Option.map_eq_some_iff, Prod.exists] at h
      obtain ⟨cl'', out', ha, he⟩ := h
      rw [← he]
      cases Client.acts_of_act ha with
      | pull order stage hpc => exact .ask stage _ hpc .headers (by simp [madeCall]; rfl) (by simp)
      | get order stage hpc =>
        exact .ask stage _ hpc (.blocks order (Client.act_get ha)) (by simp [madeCall]; rfl) (by simp)
      | votePop | voteSend =>
        exact .other (by simp [ClientAction.thread]) (by simp) (by simp) rfl
    · have hne : some (ca.thread c') ≠ some (.pull c) := by
        cases ca <;> simp [ClientAction.thread, hc]
      exact .other hne (by simp [Ne.symm hc]) (by simp [Ne.symm hc]) rfl
  | handle i now order call srv' rpc' hi hh =>
    by_cases hc : call.caller = some (.pull c)
    · have hset := pullCalls_set (c := c) hi { call with rpc := rpc' }
      exact .handle i now order call srv' rpc' rfl hi hc hh rfl rfl
        (Nat.add_right_cancel hset).le rfl
    · exact .swap { call with rpc := rpc' } hi hc hc rfl rfl rfl
  | retOrphan i call hi _ hc => exact .drop hi (by simp [hc]) rfl rfl rfl
  | failOrphan i call hi hc => exact .drop hi (by simp [hc]) rfl rfl rfl
  | foreign target rpc _ _ _ => exact .other (by simp) rfl rfl rfl
  | ret i call θ σ' hi hf hc hr =>
    by_cases hθ : θ = .pull c
    · subst hθ
      have hcount := pullCalls_eraseIdx (c := c) hi
      rw [if_pos hc] at hcount
      cases hr with
      | pull _ cl' hr => exact .ret i call hi hc (by simpa using hr) rfl hcount
    · obtain ⟨hhdr, -, hpull, hcalls⟩ := hr.frame_pull hθ
      exact .drop hi (by simp [hc, hθ]) hcalls hpull hhdr
  | fail i call θ σ' hi hc hr =>
    by_cases hθ : θ = .pull c
    · subst hθ
      have hset := pullCalls_set (c := c) hi { call with caller := none }
      simp only [if_pos hc, reduceCtorEq, if_false, Nat.add_zero] at hset
      cases hr with
      | pull _ cl' hr => exact .fail i call rfl hi hc (by simpa using hr) rfl rfl hset
    · obtain ⟨hhdr, -, hpull, hcalls⟩ := hr.frame_pull hθ
      exact .swap { call with caller := none } hi (by simp [hc, hθ]) (by simp) hcalls
        hpull hhdr

/-! ## What the pull thread has at any time -/

def HeaderKeys (cl : Client G) : Prop :=
  ∀ (id : ℕ) hdr, cl.pendingBlkhdr[id]? = some hdr → hdr.id = id

theorem HeaderKeys.resumePull {cl cl' : Client G} {response : Option (Rpc G)} (hk : HeaderKeys cl)
    (h : cl.resumePull response = some cl') : HeaderKeys cl' := by
  intro id hdr hid
  unfold Client.resumePull at h
  split at h
  · dsimp only at h
    split at h
    · cases h
      rcases Client.receiveHeaders_getElem? hid with hold | ⟨item, -, -, he⟩
      · exact hk id hdr hold
      · exact he
    · exact hk id hdr ((Client.receiveBlocks_eq h).2.2.2 id hdr hid).1
    · cases h
      exact hk id hdr hid
  · cases h

/-- The pull thread waits for one call at most, and its headers are in their places. -/
structure PullOk (c : ℕ) (σ : State G) : Prop where
  waits : pullCalls c σ ≤ (σ.client c).pull.waits
  keys : HeaderKeys (σ.client c)

theorem PullPc.waits_le_one (pc : PullPc) : pc.waits ≤ 1 := by
  cases pc <;> simp [PullPc.waits]

theorem PullOk.pullCalls_of_ready (h : PullOk c σ) {stage : PullStage}
    (hpc : (σ.client c).pull = .ready stage) : pullCalls c σ = 0 := by
  have hwaits := h.waits
  rw [hpc] at hwaits
  exact Nat.le_zero.mp hwaits

theorem PullSteps.pullOk (hs : PullSteps cfg c σ a σ') (h : PullOk c σ) : PullOk c σ' := by
  obtain ⟨hwaits, hkeys⟩ := h
  have hle := (σ.client c).pull.waits_le_one
  cases hs with
  | idle hpull hhdr _ hcount =>
    refine ⟨?_, fun id hdr hid => hkeys id hdr (by rwa [hhdr] at hid)⟩
    rw [hpull]
    exact hcount.trans hwaits
  | ask stage rpc hpc _ hcalls hclient =>
    rw [hpc] at hwaits
    refine ⟨?_, fun id hdr hid => hkeys id hdr (by simpa [hclient] using hid)⟩
    have hold : (σ.calls.flatMap fun call =>
        if call.caller = some (.pull c) then [()] else []).count () = 0 := Nat.le_zero.mp hwaits
    simp [pullCalls, hcalls, hclient, PullPc.waits, List.count_append, hold]
  | handle i now order call srv' rpc' _ _ _ _ _ _ hcount hclient =>
    exact ⟨by rw [hclient]; exact hcount.trans hwaits, by rw [hclient]; exact hkeys⟩
  | ret i call _ _ hr _ hcount => exact ⟨by omega, hkeys.resumePull hr⟩
  | fail i call _ _ _ hr _ _ hcount => exact ⟨by omega, hkeys.resumePull hr⟩

theorem Reachable.pullOk (h : Reachable cfg crypto ok σ) (c : ℕ) : PullOk c σ := by
  refine h.invariant (PullOk c) ⟨by simp [pullCalls, State.init], ?_⟩
    fun σ a σ' _ _ hok hs => (pullSteps_of_step hs).pullOk hok
  intro id hdr hid
  simp [State.init, Client.init] at hid

namespace Script

/-- A pull round in which the servers walk through `hdrs0` and `hdrs1`; what they offer is fetched
from the first of them. -/
def pullFrom (c now : ℕ) (hdrs0 hdrs1 : List (ℕ × ℕ)) (get0 : List ℕ) : List (Action Point) :=
  List.flatten [
    [.client c (.pull []), .handle 0 now hdrs0], hdrs0.map fun _ => .handle 0 now [], [.ret 0],
    [.client c (.pull []), .handle 0 now hdrs1], hdrs1.map fun _ => .handle 0 now [], [.ret 0],
    [.client c (.pull get0)], get0.map fun _ => .handle 0 now [], [.ret 0],
    [.client c (.pull []), .ret 0]]

end Script

end TomChain
