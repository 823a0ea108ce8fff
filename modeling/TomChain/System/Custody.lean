import TomChain.System.Atomicity
import TomChain.System.Labels

/-!
# A block in the hands of a client

A server offers a block to a client once (`offered_once`), so the client must not lose it. While no call
fails it does not: the block stays in a response, in the headers or blocks of the client or in its vote
request, until the client has sent its vote (`Holds.step`).
-/

namespace TomChain

open Std (ExtTreeMap)
open Runs Server
open Flexbuffers (Flex toBytes fromBytes headerToBytes headerFromBytes)

variable {G D : Type} {cfg : Config} {crypto : Crypto G D} {σ σ' : State G} {a : Action G}
  {ok : State G → Action G → Bool} {c id : ℕ}

/-! ## From the response to the vote -/

/-- The client has the header of block `id`, the block, or its vote on the block. -/
def Client.Has (cl : Client G) (id : ℕ) : Prop :=
  id ∈ cl.pendingBlkhdr ∨ (∃ b ∈ cl.pendingBlks, b.header.id = id) ∨
    ∃ request stubs, cl.vote = .send request stubs ∧ blockId request = id

/-- Client `c` has block `id` or is about to get it, or has sent its vote on it. -/
inductive Holds (σ : State G) (c id : ℕ) : Prop
  | response (call : Call G) : call ∈ σ.calls → call.caller = some (.pull c) → id ∈ call.rpc.brings →
      Holds σ c id
  | client : (σ.client c).Has id → Holds σ c id
  | sent : VoteSent σ c id → Holds σ c id

/-- A handler that does not break adds to its response. -/
theorem Server.Handles.brings_mono {s now : ℕ} {srv srv' : Server G} {rpc rpc' : Rpc G}
    (h : srv.Handles cfg s now rpc srv' rpc') (hb : rpc'.broken = false) :
    ∀ x ∈ rpc.brings, x ∈ rpc'.brings := by
  cases h with
  | pullItem | getItem =>
    intro x hx
    simp only [Rpc.brings, List.map_append]
    exact List.mem_append_left _ hx
  | pullUndefined => cases hb
  | pullBegin => exact fun x hx => hx
  | _ => exact fun x hx => by cases hx

/-- The client goes on with a response and keeps what it brings. -/
theorem Client.Has.resumePull {cl cl' : Client G} {rpc : Rpc G}
    (h : cl.resumePull (some rpc) = some cl') (hid : id ∈ rpc.brings ∨ cl.Has id) : cl'.Has id := by
  have hvote := (Client.resumePull_waits h).2.2
  unfold Client.resumePull at h
  split at h
  swap
  · cases h
  cases rpc with
  | pullPendingBlocks c todo pbHdrs =>
    cases h
    rcases hid with hid | hid | hid
    · exact .inl (Client.mem_receiveHeaders.mpr (.inr hid))
    · exact .inl (Client.mem_receiveHeaders.mpr (.inl hid))
    · exact .inr hid
  | getBlocks pbHdrs pb =>
    obtain ⟨hblks, -, hids, -⟩ := Client.receiveBlocks_eq h
    by_cases hm : id ∈ pb.map blockId
    · rw [← hids] at hm
      obtain ⟨b, hb, hbid⟩ := List.mem_map.mp hm
      exact .inr (.inl ⟨b, by rw [hblks]; exact List.mem_append_right _ hb, hbid⟩)
    · rcases hid with hid | hid | ⟨b, hb, hid⟩ | hid
      · exact absurd hid hm
      · exact .inl ((Client.mem_receiveBlocks h).mpr ⟨hid, hm⟩)
      · exact .inr (.inl ⟨b, by rw [hblks]; exact List.mem_append_left _ hb, hid⟩)
      · exact .inr (.inr (by rw [hvote]; exact hid))
  | _ =>
    cases h
    exact hid.resolve_left fun hb => by cases hb

theorem Client.Has.resumeVote {cl cl' : Client G} (h : cl.resumeVote = some cl') (hid : cl.Has id) :
    cl'.Has id := by
  unfold Client.resumeVote at h
  split at h
  · rename_i hpc
    cases h
    rcases hid with hid | hid | ⟨request, stubs, hv, -⟩
    · exact .inl hid
    · exact .inr (.inl hid)
    · rw [hpc] at hv; cases hv
  · rename_i hpc
    cases h
    rcases hid with hid | hid | ⟨request, stubs, hv, -⟩
    · exact .inl hid
    · exact .inr (.inl hid)
    · rw [hpc] at hv; cases hv
  · cases h

/-- What the client has stays, or goes into its vote request and from there to the server. -/
theorem Client.Has.acts {cl cl' : Client G} {ca : ClientAction} {out : Option (ℕ × Rpc G)}
    (h : cl.Acts cfg crypto c ca cl' out) (hid : cl.Has id) :
    cl'.Has id ∨ ∃ r item, out = some r ∧ (c, item) ∈ r.2.votedItems ∧ blockId item = id := by
  cases h with
  | pull | get => exact .inl hid
  | votePop block q hpc hq =>
    left
    rcases hid with hid | ⟨b, hb, hid⟩ | ⟨request, stubs, hv, -⟩
    · exact .inl hid
    · rw [hq] at hb
      rcases List.mem_cons.mp hb with rfl | hb
      · refine .inr (.inr ⟨_, _, rfl, ?_⟩)
        rw [blockId, wireKey_toBytes (by simp)]
        exact hid
      · exact .inr (.inl ⟨b, hb, hid⟩)
    · rw [hpc] at hv; cases hv
  | voteSend request stub stubs hpc =>
    rcases hid with hid | hid | ⟨request', stubs', hv, hid⟩
    · exact .inl (.inl hid)
    · exact .inl (.inr (.inl hid))
    · rw [hpc] at hv
      cases hv
      exact .inr ⟨_, request, rfl, List.mem_cons_self .., hid⟩

theorem Resumes.has {rpc : Rpc G} {θ : Thread} (h : Resumes σ (some rpc) θ σ')
    (hid : θ = .pull c ∧ id ∈ rpc.brings ∨ (σ.client c).Has id) : (σ'.client c).Has id := by
  cases h with
  | send => exact hid.resolve_left fun hb => by cases hb.1
  | pull c' cl' hr =>
    rw [State.setClient_client]
    split
    · rename_i he
      subst he
      exact .resumePull hr (hid.imp_left And.right)
    · rename_i hne
      refine hid.resolve_left fun hb => hne ?_
      cases hb.1
      rfl
  | vote c' cl' hr =>
    have hhas : (σ.client c).Has id := hid.resolve_left fun hb => by cases hb.1
    rw [State.setClient_client]
    split
    · rename_i he
      subst he
      exact .resumeVote hr hhas
    · exact hhas

/-- A call of the client stays in progress, is handled, or returns to the client. -/
theorem Steps.pull_call (hs : Steps cfg crypto σ a σ') (ha : reliable cfg σ a) {call : Call G}
    (hm : call ∈ σ.calls) (hc : call.caller = some (.pull c)) :
    call ∈ σ'.calls ∨
      (∃ now rpc', { call with rpc := rpc' } ∈ σ'.calls ∧
        (σ.server call.target).Handles cfg call.target now call.rpc (σ'.server call.target) rpc') ∨
      ∃ calls, Resumes { σ with calls := calls } (some call.rpc) (.pull c) σ' := by
  obtain ⟨j, hj⟩ := List.mem_iff_getElem?.mp hm
  have herase : ∀ {i : ℕ} {call' : Call G}, σ.calls[i]? = some call' → call' ≠ call →
      call ∈ σ.calls.eraseIdx i := by
    intro i call' hi hne
    refine List.mem_eraseIdx_iff_getElem?.mpr ⟨j, fun he => hne ?_, hj⟩
    rw [he, hi] at hj
    exact Option.some_inj.mp hj
  cases hs with
  | server | client => exact .inl (by simp [hm])
  | handle i now order call' srv' rpc' hi hh =>
    by_cases he : i = j
    · subst he
      rw [hi] at hj
      cases hj
      have hlt := (List.getElem?_eq_some_iff.mp hi).1
      refine .inr (.inl ⟨now, rpc', List.mem_of_getElem? (List.getElem?_set_self hlt), ?_⟩)
      simpa using hh
    · refine .inl (List.mem_of_getElem? (i := j) ?_)
      rw [List.getElem?_set_ne he, hj]
  | retOrphan i call' hi _ hc' =>
    exact .inl (herase hi fun he => by rw [he, hc] at hc'; cases hc')
  | ret i call' θ _ hi _ hc' hres =>
    by_cases he : call' = call
    · subst he
      rw [hc] at hc'
      cases hc'
      exact .inr (.inr ⟨_, hres⟩)
    · rw [hres.calls]
      exact .inl (herase hi he)
  | failOrphan | fail | foreign => cases ha

/-- The client loses no block. -/
theorem Holds.step (hok : ∀ σ a, ok σ a → reliable cfg σ a) (hr : Reachable cfg crypto ok σ)
    (ha : ok σ a) (hs : step cfg crypto σ a = some σ') (h : Holds σ c id) : Holds σ' c id := by
  have hst := steps_of_step hs
  have hrel := hok σ a ha
  cases h with
  | sent h => exact .sent (h.steps hst)
  | response call hm hc hid =>
    rcases hst.pull_call hrel hm hc with hm | ⟨now, rpc', hm, hh⟩ | ⟨calls, hres⟩
    · exact .response call hm hc hid
    · have hbroken := Reachable.not_broken (fun σ a ha => succeeds_of_reliable (hok σ a ha))
        (Run.next a hr ha hs) _ hm
      exact .response _ hm hc (hh.brings_mono hbroken id hid)
    · exact .client (hres.has (.inl ⟨rfl, hid⟩))
  | client h =>
    cases hst with
    | server => exact .client (by simpa using h)
    | client c' ca cl' out _ _ hact =>
      by_cases he : c = c'
      · subst he
        rcases h.acts hact with h | ⟨r, item, rfl, hm, hid⟩
        · exact .client (by simpa using h)
        · refine .sent ⟨item, ?_, hid⟩
          rw [State.addCall_sent]
          exact List.mem_append_right _ (List.mem_flatMap.mpr ⟨r, List.mem_singleton_self r, hm⟩)
      · exact .client (by simpa [he] using h)
    | handle => exact .client h
    | retOrphan => exact .client h
    | ret i call θ _ _ _ _ hres => exact .client (hres.has (.inr h))
    | failOrphan | fail | foreign => cases hrel

theorem Holds.reaches (hok : ∀ σ a, ok σ a → reliable cfg σ a) (hr : Reachable cfg crypto ok σ)
    (hs : Reaches cfg crypto ok σ σ') (h : Holds σ c id) : Holds σ' c id :=
  hs.invariant (fun σ => Holds σ c id) h fun _ _ _ hrs ha h hs => h.step hok (hr.trans hrs) ha hs

/-- At rest the client has the header of the block only, or has sent its vote. -/
theorem Holds.of_resting (h : Holds σ c id) (hrest : Resting cfg σ) (hc1 : 1 ≤ c)
    (hc2 : c ≤ cfg.clientCount) : id ∈ (σ.client c).pendingBlkhdr ∨ VoteSent σ c id := by
  obtain ⟨hvote, hblks⟩ := hrest.votes c hc1 hc2
  cases h with
  | response call hm =>
    rw [hrest.calls] at hm
    cases hm
  | sent h => exact .inr h
  | client h =>
    rcases h with h | ⟨b, hb, -⟩ | ⟨request, stubs, hv, -⟩
    · exact .inl h
    · rw [hblks] at hb
      cases hb
    · rw [hvote] at hv
      cases hv

/-! ## What was offered is held -/

def Server.Offered (srv : Server G) (c id : ℕ) : Prop :=
  ∃ seen, srv.clients[c]? = some seen ∧ id ∈ seen

/-- A handler that offers a block puts its header into the response. -/
theorem Server.Handles.offered {s now : ℕ} {srv srv' : Server G} {rpc rpc' : Rpc G}
    (h : srv.Handles cfg s now rpc srv' rpc') (ho : srv'.Offered c id) :
    srv.Offered c id ∨ rpc.isPullOf c = true ∧ id ∈ rpc'.brings := by
  cases hrpc : rpc.isPullOf c with
  | false =>
    left
    obtain ⟨seen, hseen, hid⟩ := ho
    rw [h.clients hrpc] at hseen
    exact ⟨seen, hseen, hid⟩
  | true =>
    cases h with
    | pullBegin => exact .inl ho
    | pullUndefined => exact .inl ho
    | pullItem c' blockId p todo pbHdrs b _ hdrs hb hi =>
      have hc : c' = c := by simpa [Rpc.isPullOf] using hrpc
      subst hc
      obtain ⟨seen', hseen', hid⟩ := ho
      cases hseen : srv.clients[c']? with
      | none =>
        unfold Server.pullItem at hi
        rw [hseen] at hi
        split at hi
        · cases hi
        · cases hi
          rw [hseen] at hseen'
          cases hseen'
      | some seen =>
        rcases pullItem_cases hseen hi with ⟨rfl, -, -⟩ | ⟨-, -, rfl, rfl⟩
        · exact .inl ⟨seen', hseen', hid⟩
        · simp only [ExtTreeMap.getElem?_insert_self, Option.some_inj] at hseen'
          rw [← hseen', ExtTreeMap.mem_insertIfNew, Nat.compare_eq_eq] at hid
          rcases hid with rfl | hid
          · refine .inr ⟨rfl, ?_⟩
            simp [Rpc.brings, headerId, Flexbuffers.headerFromBytes_toBytes]
          · exact .inl ⟨seen, hseen, hid⟩
    | _ => cases hrpc

theorem Steps.offered (hs : Steps cfg crypto σ a σ') {t : ℕ} (h : (σ'.server t).Offered c id) :
    (σ.server t).Offered c id ∨
      ∃ call ∈ σ'.calls, ∃ call₀ ∈ σ.calls, call₀.caller = call.caller ∧
        call₀.rpc.isPullOf c = true ∧ id ∈ call.rpc.brings := by
  have hset : ∀ {s' : ℕ} {srv' : Server G}, srv'.clients = (σ.server s').clients →
      ((σ.setServer s' srv').server t).Offered c id → (σ.server t).Offered c id := by
    intro s' srv' hcl ho
    rw [State.setServer_server] at ho
    split at ho
    · rename_i he
      subst he
      obtain ⟨seen, hseen, hid⟩ := ho
      exact ⟨seen, by rw [← hcl]; exact hseen, hid⟩
    · exact ho
  have hres : ∀ {calls : List (Call G)} {response : Option (Rpc G)} {θ : Thread},
      Resumes { σ with calls := calls } response θ σ' → (σ.server t).Offered c id := by
    intro calls response θ hr
    cases hr with
    | send s' ch srv' hr => exact hset (clients_resumeSend hr) h
    | pull | vote => exact h
  cases hs with
  | server s sa srv' out _ _ hact =>
    rw [State.addCall_server] at h
    exact .inl (hset hact.clients h)
  | client => exact .inl (by simpa using h)
  | handle i now order call srv' rpc' hi hh =>
    by_cases ht : t = call.target
    · subst ht
      have ho : srv'.Offered c id := by simpa using h
      rcases hh.offered ho with ho | ⟨hpull, hid⟩
      · exact .inl ho
      · have hlt := (List.getElem?_eq_some_iff.mp hi).1
        exact .inr ⟨_, List.mem_of_getElem? (List.getElem?_set_self hlt), call,
          List.mem_of_getElem? hi, rfl, hpull, hid⟩
    · exact .inl (by simpa [ht] using h)
  | retOrphan | failOrphan => exact .inl h
  | ret i call θ _ _ _ _ hr => exact .inl (hres hr)
  | fail i call θ _ _ _ hr => exact .inl (hres hr)
  | foreign => exact .inl (by simpa using h)

/-- While no call fails, a client has everything that any server has offered to it, or has sent its
vote. -/
theorem Reachable.holds_of_offered (hok : ∀ σ a, ok σ a → reliable cfg σ a)
    (hr : Reachable cfg crypto ok σ) {t : ℕ} (h : (σ.server t).Offered c id) : Holds σ c id := by
  revert t
  refine hr.invariant (fun σ => ∀ {t : ℕ}, (σ.server t).Offered c id → Holds σ c id) ?_
    fun σ a σ' hr ha ih hs t h => ?_
  · rintro t ⟨seen, hseen, hid⟩
    have hempty : seen = ∅ := by
      rcases mem_foldl_insertIfNew _ (fun i => i + 1) _ _ _ _ hseen with h | h
      · exact h
      · simp at h
    rw [hempty] at hid
    exact absurd hid ExtTreeMap.not_mem_empty
  · rcases (steps_of_step hs).offered h with h | ⟨call, hm, call₀, hm₀, hcaller, hpull, hid⟩
    · exact (ih h).step hok hr ha hs
    · obtain ⟨θ, hθ, hmade⟩ := Reachable.madeBy hok hr call₀ hm₀
      refine .response call hm ?_ hid
      rw [← hcaller, hθ]
      cases hrpc : call₀.rpc with
      | pullPendingBlocks c' todo hdrs =>
        rw [hrpc] at hmade hpull
        have hc : c' = c := by simpa [Rpc.isPullOf] using hpull
        rw [← hc]
        exact congrArg some hmade
      | _ =>
        rw [hrpc] at hpull
        cases hpull

end TomChain
