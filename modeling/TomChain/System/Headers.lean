import Mathlib.Data.List.Perm.Subperm
import TomChain.System.Rounds

/-!
# The headers of a client

A header stays with a client until `GetBlocks` brings its block, and a server brings only what it has
pending. So a client is rid of all finished blocks if no block is finished behind its back
(`keepsOffered`): then every header that it has is of a block that one of its servers has pending, or
that is on its way to it.
-/

namespace TomChain

open Std (ExtTreeMap)
open Runs Server
open Flexbuffers (Flex headerFromBytes)

variable {G D : Type} {cfg : Config} {crypto : Crypto G D} {σ σ' : State G} {a : Action G}
  {ok : State G → Action G → Bool} {c id : ℕ}

/-- One of the two servers of the client has the block in `pending_blks`. -/
def pendingAt (cfg : Config) (c : ℕ) (σ : State G) (id : ℕ) : Bool :=
  [0, 1].any fun stub => (σ.server (stubServer cfg.serverCount c stub)).pendingBlks.contains id

def Rpc.bringsHeaders : Rpc G → List ℕ
  | .pullPendingBlocks _ _ pbHdrs => pbHdrs.map headerId
  | _ => []

def Rpc.bringsBlocks : Rpc G → List ℕ
  | .getBlocks _ pb => pb.map blockId
  | _ => []

/-- What `f` finds in the response that the pull thread of the client waits for. -/
def awaited (f : Rpc G → List ℕ) (c : ℕ) (σ : State G) : List ℕ :=
  σ.calls.flatMap fun call => if call.caller = some (.pull c) then f call.rpc else []

def heldHeaders (c : ℕ) (σ : State G) : List ℕ :=
  (σ.client c).pendingBlkhdr.keys ++ awaited Rpc.bringsHeaders c σ

def fetchedBlocks (c : ℕ) (σ : State G) : List ℕ := awaited Rpc.bringsBlocks c σ

/-- The step takes the block out of the last of the two pools that had it. -/
def finishes (cfg : Config) (crypto : Crypto G D) (c : ℕ) (σ : State G) (a : Action G) (id : ℕ) :
    Bool :=
  pendingAt cfg c σ id && (step cfg crypto σ a).any fun σ' => !pendingAt cfg c σ' id

/-- The block whose header the next step of a `PullPendingBlocks` handler adds to the response. -/
def Server.nextOffer (srv : Server G) : Rpc G → Option ℕ
  | .pullPendingBlocks id (some ((blockId, _) :: _)) _ =>
    if blockId ∈ srv.pbSyncLabels ∧ (srv.clients[id]?).any (fun seen => !seen.contains blockId) then
      some blockId
    else none
  | _ => none

/-- No block is finished behind the client's back: not while the client holds its header, unless the
block is on its way to it; not before its header is offered from the copy of the pool; and not when a
response that brings it is lost. -/
def keepsOffered (cfg : Config) (crypto : Crypto G D) (c : ℕ) (σ : State G) (a : Action G) : Bool :=
  ((heldHeaders c σ).all fun id =>
      !finishes cfg crypto c σ a id || (fetchedBlocks c σ).contains id) &&
    match a with
    | .handle i _ _ => (σ.calls[i]?).all fun call => call.caller ≠ some (.pull c) ||
        ((σ.server call.target).nextOffer call.rpc).all (pendingAt cfg c σ)
    | .fail i => (σ.calls[i]?).all fun call => call.caller ≠ some (.pull c) ||
        (fetchedBlocks c σ).all (pendingAt cfg c σ)
    | _ => true

/-! ## What the client waits for -/

theorem mem_awaited {f : Rpc G → List ℕ} :
    id ∈ awaited f c σ ↔ ∃ call ∈ σ.calls, call.caller = some (.pull c) ∧ id ∈ f call.rpc := by
  simp only [awaited, List.mem_flatMap]
  refine exists_congr fun call => and_congr_right fun _ => ?_
  split <;> simp [*]

theorem mem_heldHeaders : id ∈ heldHeaders c σ ↔
    id ∈ (σ.client c).pendingBlkhdr ∨ id ∈ awaited Rpc.bringsHeaders c σ := by
  rw [heldHeaders, List.mem_append, ExtTreeMap.mem_keys]

theorem awaited_eq_nil (f : Rpc G → List ℕ) (h : pullCalls c σ = 0) : awaited f c σ = [] := by
  rw [awaited, List.flatMap_eq_nil_iff]
  intro call hm
  rw [if_neg (not_mem_of_pullCalls h call hm)]

theorem awaited_congr (f : Rpc G → List ℕ)
    (h : ∀ call, call.caller = some (.pull c) → (call ∈ σ'.calls ↔ call ∈ σ.calls)) :
    id ∈ awaited f c σ' ↔ id ∈ awaited f c σ := by
  rw [mem_awaited, mem_awaited]
  exact exists_congr fun call => ⟨fun ⟨hm, hc, hid⟩ => ⟨(h call hc).mp hm, hc, hid⟩,
    fun ⟨hm, hc, hid⟩ => ⟨(h call hc).mpr hm, hc, hid⟩⟩

/-- One call of the pull thread is put in the place of another. -/
theorem mem_awaited_of_set {f : Rpc G → List ℕ} {i : ℕ} {call : Call G} (call' : Call G)
    (hc : call'.caller = some (.pull c)) (hi : σ.calls[i]? = some call)
    (hcalls : σ'.calls = σ.calls.set i call') (hsub : f call.rpc ⊆ f call'.rpc)
    (hid : id ∈ awaited f c σ) : id ∈ awaited f c σ' := by
  rw [mem_awaited] at hid ⊢
  obtain ⟨call₁, hm, hc₁, hf⟩ := hid
  obtain ⟨j, hj⟩ := List.mem_iff_getElem?.mp hm
  by_cases hij : i = j
  · subst hij
    rw [hi] at hj
    cases hj
    refine ⟨call', ?_, hc, hsub hf⟩
    rw [hcalls]
    exact List.mem_of_getElem? (List.getElem?_set_self (List.getElem?_eq_some_iff.mp hi).1)
  · refine ⟨call₁, ?_, hc₁, hf⟩
    rw [hcalls]
    exact List.mem_of_getElem? (i := j) (by rw [List.getElem?_set_ne hij, hj])

theorem awaited_of_mem_set {f : Rpc G → List ℕ} {i : ℕ} {call' : Call G}
    (hcalls : σ'.calls = σ.calls.set i call') (hid : id ∈ awaited f c σ') :
    id ∈ awaited f c σ ∨ call'.caller = some (.pull c) ∧ id ∈ f call'.rpc := by
  obtain ⟨call₁, hm, hc, hf⟩ := mem_awaited.mp hid
  rw [hcalls] at hm
  rcases List.mem_or_eq_of_mem_set hm with hm | rfl
  · exact .inl (mem_awaited.mpr ⟨call₁, hm, hc, hf⟩)
  · exact .inr ⟨hc, hf⟩

/-- The call that leaves the list was the only one of the pull thread. -/
theorem mem_of_awaited_eraseIdx {f : Rpc G → List ℕ} {i : ℕ} {call : Call G}
    (hi : σ.calls[i]? = some call) (hcalls : σ'.calls = σ.calls.eraseIdx i)
    (hnone : pullCalls c σ' = 0) (hid : id ∈ awaited f c σ) : id ∈ f call.rpc := by
  obtain ⟨call₁, hm, hc, hf⟩ := mem_awaited.mp hid
  obtain ⟨j, hj⟩ := List.mem_iff_getElem?.mp hm
  by_cases hij : j = i
  · subst hij
    rw [hi] at hj
    cases hj
    exact hf
  · have hm' : call₁ ∈ σ'.calls := by
      rw [hcalls]
      exact List.mem_eraseIdx_iff_getElem?.mpr ⟨j, hij, hj⟩
    exact absurd hc (not_mem_of_pullCalls hnone call₁ hm')

theorem Client.Asks.brings {cl : Client G} {rpc : Rpc G} (h : cl.Asks c rpc) :
    rpc.bringsHeaders = [] ∧ rpc.bringsBlocks = [] := by
  cases h <;> exact ⟨rfl, rfl⟩

/-- The thread goes on with a response: it keeps the headers that it brings, and drops those of the
blocks that it brings. -/
theorem Client.mem_of_resumePull {cl cl' : Client G} {response : Option (Rpc G)}
    (h : cl.resumePull response = some cl') (hid : id ∈ cl'.pendingBlkhdr) :
    (id ∈ cl.pendingBlkhdr ∨ ∃ rpc, response = some rpc ∧ id ∈ rpc.bringsHeaders) ∧
      ∀ rpc, response = some rpc → id ∉ rpc.bringsBlocks := by
  unfold Client.resumePull at h
  split at h
  · dsimp only at h
    split at h
    · cases h
      refine ⟨?_, fun rpc he hb => by cases he; cases hb⟩
      rcases Client.mem_receiveHeaders.mp hid with hold | hnew
      · exact .inl hold
      · exact .inr ⟨_, rfl, hnew⟩
    · obtain ⟨hold, hno⟩ := (Client.mem_receiveBlocks h).mp hid
      exact ⟨.inl hold, fun rpc he hb => by cases he; exact hno hb⟩
    · rename_i hother
      cases h
      refine ⟨.inl hid, fun rpc he hb => ?_⟩
      cases rpc with
      | getBlocks hdrs pb => exact hother _ _ he
      | _ => cases hb
  · cases h

/-! ## A step of a handler -/

section

variable {s now : ℕ} {srv srv' : Server G} {rpc rpc' : Rpc G}

theorem Server.Handles.bringsBlocks (h : srv.Handles cfg s now rpc srv' rpc') :
    rpc.bringsBlocks ⊆ rpc'.bringsBlocks := by
  cases h with
  | getItem hdr rest pb =>
    rw [Rpc.bringsBlocks, Rpc.bringsBlocks, List.map_append]
    exact List.subset_append_left _ _
  | _ => exact List.nil_subset _

/-- A header that comes into a response is the next offer, and the pool stays as it is. -/
theorem Server.Handles.bringsHeaders (hsnap : ∀ x ∈ rpc.snapshot, srv.idAt x.2 = some x.1)
    (h : srv.Handles cfg s now rpc srv' rpc') (hid : id ∈ rpc'.bringsHeaders) :
    id ∈ rpc.bringsHeaders ∨ srv.nextOffer rpc = some id ∧ srv'.pendingBlks = srv.pendingBlks := by
  cases h with
  | pullBegin => exact .inl hid
  | pullItem c blockId p todo pbHdrs b _ hdrs hb hi =>
    rw [Rpc.bringsHeaders, List.map_append] at hid
    rcases List.mem_append.mp hid with hid | hid
    · exact .inl hid
    · obtain ⟨b', hb', hbid⟩ := idAt_eq_some.mp (hsnap _ (List.mem_cons_self ..))
      rw [hb] at hb'
      cases hb'
      unfold Server.pullItem at hi
      split at hi
      · rename_i hlabel
        split at hi
        · cases hi
        · rename_i seen hseen
          split at hi
          · cases hi
            cases hid
          · rename_i hnew
            cases hi
            rw [List.map_singleton, List.mem_singleton, headerId,
              Flexbuffers.headerFromBytes_toBytes, hbid] at hid
            subst hid
            refine .inr ⟨?_, rfl⟩
            rw [hbid] at hnew
            simp [Server.nextOffer, hlabel, hseen, hnew]
      · cases hi
        cases hid
  | _ => cases hid

end

/-! ## The invariant -/

/-- Every header that the client has or will get is of a block that is pending at one of its servers
or on its way to it. -/
def HeadersLive (cfg : Config) (c : ℕ) (σ : State G) : Prop :=
  ∀ id ∈ heldHeaders c σ, pendingAt cfg c σ id = true ∨ id ∈ fetchedBlocks c σ

/-- A block whose header is held does not leave the pools in a guarded step, unless it is fetched. -/
theorem HeadersLive.kept (ha : keepsOffered cfg crypto c σ a = true)
    (hs : step cfg crypto σ a = some σ') (h : HeadersLive cfg c σ) (hid : id ∈ heldHeaders c σ) :
    pendingAt cfg c σ' id = true ∨ id ∈ fetchedBlocks c σ := by
  have hk := List.all_eq_true.mp (Bool.and_eq_true_iff.mp ha).1 id hid
  rw [finishes, hs, Option.any_some, Bool.or_eq_true, List.contains_iff_mem] at hk
  rcases h id hid with hp | hf
  · rcases hk with hk | hf
    · left
      simpa [hp] using hk
    · exact .inr hf
  · exact .inr hf

theorem pendingAt_of_nextOffer {i now : ℕ} {order : List (ℕ × ℕ)} {call : Call G} {srv' : Server G}
    (ha : keepsOffered cfg crypto c σ (.handle i now order) = true) (hi : σ.calls[i]? = some call)
    (hc : call.caller = some (.pull c))
    (hoffer : (σ.server call.target).nextOffer call.rpc = some id)
    (hpool : srv'.pendingBlks = (σ.server call.target).pendingBlks)
    (hserver : σ'.server = (σ.setServer call.target srv').server) : pendingAt cfg c σ' id = true := by
  have hp : pendingAt cfg c σ id = true := by
    simpa [hi, hc, hoffer] using (Bool.and_eq_true_iff.mp ha).2
  have hpools : ∀ t, (σ'.server t).pendingBlks = (σ.server t).pendingBlks := by
    intro t
    rw [hserver, State.setServer_server]
    split
    · rename_i ht
      rw [hpool, ht]
    · rfl
  rw [← hp]
  simp only [pendingAt, hpools]

theorem pendingAt_of_fail {i : ℕ} {call : Call G} (ha : keepsOffered cfg crypto c σ (.fail i) = true)
    (hi : σ.calls[i]? = some call) (hc : call.caller = some (.pull c)) (hserver : σ'.server = σ.server)
    (hf : id ∈ fetchedBlocks c σ) : pendingAt cfg c σ' id = true := by
  have hall : (fetchedBlocks c σ).all (pendingAt cfg c σ) = true := by
    simpa [hi, hc] using (Bool.and_eq_true_iff.mp ha).2
  rw [pendingAt, hserver]
  exact List.all_eq_true.mp hall id hf

theorem HeadersLive.step (hr : Reachable cfg crypto ok σ) (ha : keepsOffered cfg crypto c σ a = true)
    (hs : step cfg crypto σ a = some σ') (h : HeadersLive cfg c σ) : HeadersLive cfg c σ' := by
  intro id hid
  have hkept : id ∈ heldHeaders c σ → pendingAt cfg c σ' id = true ∨ id ∈ fetchedBlocks c σ :=
    fun hheld => h.kept ha hs hheld
  rw [mem_heldHeaders] at hid
  cases pullSteps_of_step (c := c) hs with
  | idle _ hhdr hcalls =>
    rw [hhdr, awaited_congr _ hcalls, ← mem_heldHeaders] at hid
    exact (hkept hid).imp_right (awaited_congr _ hcalls).mpr
  | ask stage rpc _ hasks hcalls hclient =>
    have hsame : ∀ f : Rpc G → List ℕ, f rpc = [] → awaited f c σ' = awaited f c σ := by
      intro f hf
      simp [awaited, hcalls, hf]
    obtain ⟨hhdrs, hblks⟩ := hasks.brings
    rw [hsame _ hhdrs, hclient] at hid
    rw [fetchedBlocks, hsame _ hblks]
    exact hkept (mem_heldHeaders.mpr hid)
  | handle i now order call srv' rpc' hact hi hc hh hcalls hserver _ hclient =>
    have hm := List.mem_of_getElem? hi
    have hnext : id ∈ heldHeaders c σ ∨
        (σ.server call.target).nextOffer call.rpc = some id ∧
          srv'.pendingBlks = (σ.server call.target).pendingBlks := by
      rw [mem_heldHeaders, ← hclient]
      rcases hid with hid | hid
      · exact .inl (.inl hid)
      · rcases awaited_of_mem_set hcalls hid with hid | ⟨-, hnew⟩
        · exact .inl (.inr hid)
        · exact (hh.bringsHeaders (hr.snapshots call hm) hnew).imp_left fun hold =>
            .inr (mem_awaited.mpr ⟨call, hm, hc, hold⟩)
    rcases hnext with hheld | ⟨hoffer, hpool⟩
    · exact (hkept hheld).imp_right
        (mem_awaited_of_set { call with rpc := rpc' } hc hi hcalls hh.bringsBlocks)
    · subst hact
      exact .inl (pendingAt_of_nextOffer ha hi hc hoffer hpool hserver)
  | ret i call hi hc hresume hcalls hcount =>
    have hnone : pullCalls c σ' = 0 := by
      have hle := (σ.client c).pull.waits_le_one
      have hwaits := (hr.pullOk c).waits
      omega
    rw [awaited_eq_nil _ hnone] at hid
    obtain ⟨hfrom, hnot⟩ := Client.mem_of_resumePull hresume (hid.resolve_right List.not_mem_nil)
    have hheld : id ∈ heldHeaders c σ := by
      refine mem_heldHeaders.mpr (hfrom.imp_right ?_)
      rintro ⟨rpc, he, hb⟩
      cases he
      exact mem_awaited.mpr ⟨call, List.mem_of_getElem? hi, hc, hb⟩
    refine (hkept hheld).imp_right fun hf => ?_
    exact absurd (mem_of_awaited_eraseIdx hi hcalls hnone hf) (hnot _ rfl)
  | fail i call hact hi hc hresume hcalls hserver hcount =>
    have hheld : id ∈ heldHeaders c σ := by
      rw [mem_heldHeaders]
      rcases hid with hid | hid
      · refine .inl ((Client.mem_of_resumePull hresume hid).1.resolve_right ?_)
        rintro ⟨rpc, he, -⟩
        cases he
      · refine .inr ((awaited_of_mem_set hcalls hid).resolve_right ?_)
        rintro ⟨hnone, -⟩
        cases hnone
    subst hact
    exact .inl ((hkept hheld).elim (fun hp => hp) (pendingAt_of_fail ha hi hc hserver))

theorem Reachable.headersLive (hr : Reachable cfg crypto (keepsOffered cfg crypto c) σ) :
    HeadersLive cfg c σ := by
  refine hr.invariant (HeadersLive cfg c) ?_ fun σ a σ' hr ha h hs => h.step hr ha hs
  intro id hid
  rcases mem_heldHeaders.mp hid with hid | hid
  · exact absurd hid ExtTreeMap.not_mem_empty
  · cases hid

/-! ## Between two calls -/

/-- Between two calls a client has headers of pending blocks only. -/
theorem HeadersLive.pendingAt_of_ready (h : HeadersLive cfg c σ) (hok : PullOk c σ) {stage : PullStage}
    (hpc : (σ.client c).pull = .ready stage) (hid : id ∈ (σ.client c).pendingBlkhdr) :
    pendingAt cfg c σ id = true := by
  refine (h id (mem_heldHeaders.mpr (.inl hid))).resolve_right ?_
  rw [fetchedBlocks, awaited_eq_nil _ (hok.pullCalls_of_ready hpc)]
  exact List.not_mem_nil

theorem HeadersLive.size_le (h : HeadersLive cfg c σ) (hok : PullOk c σ) {stage : PullStage}
    (hpc : (σ.client c).pull = .ready stage) : (σ.client c).pendingBlkhdr.size ≤
      (σ.server (stubServer cfg.serverCount c 0)).pendingBlks.size +
        (σ.server (stubServer cfg.serverCount c 1)).pendingBlks.size := by
  have hsub : (σ.client c).pendingBlkhdr.keys ⊆
      (σ.server (stubServer cfg.serverCount c 0)).pendingBlks.keys ++
        (σ.server (stubServer cfg.serverCount c 1)).pendingBlks.keys := by
    intro id hid
    have hp := h.pendingAt_of_ready hok hpc (ExtTreeMap.mem_keys.mp hid)
    simpa [pendingAt] using hp
  have hle := (List.Nodup.subperm ExtTreeMap.nodup_keys hsub).length_le
  simpa using hle

/-- A client does not keep asking for finished blocks, as long as none is finished behind its back: at
the end of every round every header that it has left, and in the round every header that it asks for,
is of a block that one of its servers had pending in the round; and its next `GetBlocks` never asks for
more than the servers have pending. -/
theorem round_holdsPending (cfg : Config) (crypto : Crypto G D) (c : ℕ) (σ₀ σ' : State G)
    (l : List (State G)) (hr : Reachable cfg crypto (keepsOffered cfg crypto c) σ₀)
    (h : Round cfg crypto (keepsOffered cfg crypto c) c σ₀ l σ') :
    HoldsPending cfg c l σ' ∧ AsksWithin c (PendingIn cfg c l) l ∧
      ∀ τ ∈ l, ∀ stage, (τ.client c).pull = .ready stage → (τ.client c).pendingBlkhdr.size ≤
        (τ.server (stubServer cfg.serverCount c 0)).pendingBlks.size +
          (τ.server (stubServer cfg.serverCount c 1)).pendingBlks.size := by
  have hbegin : HoldsPending cfg c l σ₀ := by
    intro id hid
    have hp := hr.headersLive.pendingAt_of_ready (hr.pullOk c) h.start hid
    obtain ⟨stub, hstub, hp⟩ := List.any_eq_true.mp hp
    exact ⟨σ₀, h.start_mem, stub, hstub, ExtTreeMap.contains_iff_mem.mp hp⟩
  obtain ⟨hleft, hasks⟩ := (h.holdsPending_iff hr).mpr hbegin
  refine ⟨hleft, hasks, fun τ hτ stage hpc => ?_⟩
  have hr' := h.reachable hr hτ
  exact hr'.headersLive.size_le (hr'.pullOk c) hpc

namespace Script

/-- The rest of a round after the first call. Both servers offer the header, and both requests for the
block are lost. -/
def getsLost : List (Action Point) :=
  [.handle 0 100 [(2000000, 0)], .handle 0 100 [], .ret 0,
    .client 1 (.pull []), .handle 0 100 [(2000000, 0)], .handle 0 100 [], .ret 0,
    .client 1 (.pull [2000000]), .fail 0, .client 1 (.pull [2000000]), .fail 1]

end Script

/-- The client asks both servers in vain and is left with the header of a block that is pending. -/
theorem round_holdsPending_getsLost : ∃ σ₀ l σ',
    Round sampleConfig Crypto.symbolic (keepsOffered sampleConfig Crypto.symbolic 1) 1 σ₀ l σ' ∧
    2000000 ∈ (σ'.client 1).pendingBlkhdr ∧ PendingIn sampleConfig 1 l 2000000 ∧
    ∃ τ ∈ l, (τ.client 1).pendingBlkhdr.size ≤
      (τ.server 1).pendingBlks.size + (τ.server 2).pendingBlks.size := by
  obtain ⟨σ₀, hr, hσ₀⟩ := exists_reachable sampleConfig Crypto.symbolic
    (keepsOffered sampleConfig Crypto.symbolic 1)
    (List.flatten [Script.packBlock, [.server 2 .packInsert], Script.relay 2 .block 1, Script.sync])
    (fun σ₀ => (execRound sampleConfig Crypto.symbolic (keepsOffered sampleConfig Crypto.symbolic 1) 1
      (fun _ => true) Script.getsLost σ₀).any fun σ' : State Point =>
        decide (2000000 ∈ (σ'.client 1).pendingBlkhdr))
    (by decide +kernel)
  obtain ⟨σ', hexec, hheld⟩ := (Option.any_eq_true _ _).mp hσ₀
  have hheld := of_decide_eq_true hheld
  obtain ⟨l, hround, -⟩ := round_of_execRound hexec
  obtain ⟨hleft, -, hsize⟩ := round_holdsPending sampleConfig Crypto.symbolic 1 σ₀ σ' l hr hround
  exact ⟨σ₀, l, σ', hround, hheld, hleft _ hheld, σ₀, hround.start_mem, hsize _ hround.start_mem _
    hround.start⟩

end TomChain
