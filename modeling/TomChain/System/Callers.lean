import TomChain.Lib.Halting
import TomChain.Server.Signals
import TomChain.System.Failures
import TomChain.System.Pulls

/-!
# Who waits for which call

A thread that makes a call waits until the call returns or fails. So the calls that have a caller and
the threads that wait are in one-to-one correspondence: no thread waits for an answer that nobody
works on, and none goes on twice.
-/

namespace TomChain

open Runs Server

variable {G D : Type} {cfg : Config} {crypto : Crypto G D} {σ σ' : State G} {a : Action G}
  {ok : State G → Action G → Bool}

def SendPc.waits : SendPc G → ℕ
  | .wait _ _ _ => 1
  | .syncWait _ _ _ => 1
  | _ => 0

def VotePc.waits : VotePc G → ℕ
  | .wait _ _ => 1
  | _ => 0

def State.waits (σ : State G) : Thread → ℕ
  | .send s ch => ((σ.server s).send ch).waits
  | .pull c => (σ.client c).pull.waits
  | .vote c => (σ.client c).vote.waits

def callsBy (θ : Thread) (calls : List (Call G)) : ℕ :=
  calls.countP fun call => call.caller = some θ

section

variable {θ θ' : Thread} {calls : List (Call G)} {i : ℕ} {call : Call G}

theorem callsBy_madeCall (out : Option (ℕ × Rpc G)) :
    callsBy θ (madeCall (some θ') out) = if θ' = θ then out.toList.length else 0 := by
  cases out with
  | none => simp [callsBy, madeCall]
  | some r =>
    by_cases h : θ' = θ <;> simp [callsBy, madeCall, h]

theorem callsBy_pos : 0 < callsBy θ calls ↔ ∃ call ∈ calls, call.caller = some θ := by
  simp [callsBy]

theorem callsBy_eraseIdx (hi : calls[i]? = some call) :
    callsBy θ (calls.eraseIdx i) + (if call.caller = some θ then 1 else 0) = callsBy θ calls := by
  obtain ⟨hlt, rfl⟩ := List.getElem?_eq_some_iff.mp hi
  have hperm := (List.getElem_cons_eraseIdx_perm hlt).countP_eq
    (fun call : Call G => decide (call.caller = some θ))
  rw [List.countP_cons] at hperm
  simpa [callsBy] using hperm

theorem callsBy_set (hi : calls[i]? = some call) (call' : Call G) :
    callsBy θ (calls.set i call') + (if call.caller = some θ then 1 else 0) =
      callsBy θ calls + if call'.caller = some θ then 1 else 0 := by
  obtain ⟨hlt, -⟩ := List.getElem?_eq_some_iff.mp hi
  have hperm := (List.set_perm_cons_eraseIdx hlt call').countP_eq
    (fun call : Call G => decide (call.caller = some θ))
  rw [List.countP_cons] at hperm
  have herase := callsBy_eraseIdx (θ := θ) hi
  simp only [callsBy, decide_eq_true_eq] at hperm herase ⊢
  omega

end

/-! ## What a step does to the waiting threads -/

@[simp] theorem waits_nextTarget (ch : Chan) (rest : List ℕ) :
    (nextTarget ch rest : SendPc G).waits = 0 := by
  cases rest with
  | nil =>
    simp only [nextTarget]
    split <;> rfl
  | cons t rest => rfl

theorem waits_setSend {srv : Server G} {ch : Chan} {pc : SendPc G} {n : ℕ}
    (h : pc.waits = (srv.send ch).waits + n) (ch' : Chan) :
    ((srv.setSend ch pc).send ch').waits = (srv.send ch').waits + if ch = ch' then n else 0 := by
  by_cases he : ch = ch'
  · subst he
    rw [setSend_send, h, if_pos rfl]
  · simp [setSend, Ne.symm he, he]

theorem Server.Acts.waits {s : ℕ} {srv srv' : Server G} {sa : ServerAction}
    {out : Option (ℕ × Rpc G)} (h : srv.Acts cfg crypto.merge s sa srv' out) (ch : Chan) :
    (srv'.send ch).waits = (srv.send ch).waits + if sa.chan = ch then out.toList.length else 0 := by
  cases h with
  | sendStart ch' hpc =>
    rw [waits_setSend (n := 0) (by rw [hpc, waits_nextTarget]; rfl)]
    simp
  | sendPop ch' t items ids rest srv'' item ids' hpc hq =>
    have hsend : srv''.send = srv.send := by cases hq <;> rfl
    rw [waits_setSend (n := 0) (by rw [hsend, hpc]; rfl), hsend]
    simp
  | sendSkip ch' t ids rest hpc =>
    rw [waits_setSend (n := 0) (by rw [hpc, waits_nextTarget]; rfl)]
    simp
  | sendGo ch' t items ids rest hpc _ =>
    rw [waits_setSend (n := 1) (by rw [hpc]; rfl)]
    rfl
  | syncIdle hpc _ =>
    rw [waits_setSend (n := 0) (by rw [hpc]; rfl)]
    simp
  | syncPop id q hpc _ =>
    have hsend : ({ srv with pbSyncQueue := q } : Server G).send = srv.send := rfl
    rw [waits_setSend (n := 0) (by rw [hsend, hpc]; rfl), hsend]
    simp
  | syncSend id t rest hpc =>
    rw [waits_setSend (n := 1) (by rw [hpc]; rfl)]
    rfl
  | syncLabel id hpc =>
    have hsend : ({ srv with pbSyncLabels := srv.pbSyncLabels.insert id } : Server G).send =
        srv.send := rfl
    rw [waits_setSend (n := 0) (by rw [hsend, hpc]; rfl), hsend]
    simp
  | reap id now =>
    rcases reap_eq cfg srv id now with h | ⟨-, h⟩ <;> rw [h] <;> simp
  | _ => simp [committedState, modifyBlock, Server.packBegin, alloc, generateTx, storePending]

theorem Client.Acts.waits {c : ℕ} {cl cl' : Client G} {ca : ClientAction} {out : Option (ℕ × Rpc G)}
    (h : cl.Acts cfg crypto c ca cl' out) :
    cl'.pull.waits = cl.pull.waits + (if ca.thread c = .pull c then out.toList.length else 0) ∧
      cl'.vote.waits = cl.vote.waits + if ca.thread c = .vote c then out.toList.length else 0 := by
  cases h with
  | pull order stage hpc | get order stage hpc =>
    simp [hpc, PullPc.waits, ClientAction.thread]
  | votePop block q hpc hq => simp [hpc, VotePc.waits]
  | voteSend request stub stubs hpc => simp [hpc, VotePc.waits, ClientAction.thread]

theorem Client.resumePull_waits {cl cl' : Client G} {response : Option (Rpc G)}
    (h : cl.resumePull response = some cl') :
    cl.pull.waits = 1 ∧ cl'.pull.waits = 0 ∧ cl'.vote = cl.vote := by
  refine and_assoc.mp ⟨?_, (Client.resumePull_backlog h).1⟩
  unfold Client.resumePull at h
  split at h
  · rename_i stage hpc
    refine ⟨by rw [hpc]; rfl, ?_⟩
    dsimp only at h
    split at h
    · cases h
      rfl
    · rw [(Client.receiveBlocks_eq h).2.1]
      rfl
    · cases h
      rfl
  · cases h

theorem Client.resumeVote_waits {cl cl' : Client G} (h : cl.resumeVote = some cl') :
    cl.vote.waits = 1 ∧ cl'.vote.waits = 0 ∧ cl'.pull = cl.pull := by
  unfold Client.resumeVote at h
  split at h
  · rename_i hpc; cases h; simp [hpc, VotePc.waits]
  · rename_i hpc; cases h; simp [hpc, VotePc.waits]
  · cases h

/-- A caller that goes on was waiting; the other threads stay where they are. -/
theorem Resumes.waits {response : Option (Rpc G)} {θ : Thread} (h : Resumes σ response θ σ')
    (θ' : Thread) : σ'.waits θ' + (if θ' = θ then 1 else 0) = σ.waits θ' := by
  cases h with
  | send s ch srv' hr =>
    obtain ⟨pc, hpc, hsend, hsrv⟩ : ∃ pc : SendPc G, pc.waits = 0 ∧ ((σ.server s).send ch).waits = 1 ∧
        srv'.send = Function.update (σ.server s).send ch pc := by
      rcases resumeSend_eq hr with ⟨t, ids, rest, hpc, rfl⟩ | ⟨id, t, rest, hpc, rfl⟩
      · exact ⟨_, waits_nextTarget ch rest, by rw [hpc]; rfl, rfl⟩
      · exact ⟨.syncSend id rest, rfl, by rw [hpc]; rfl, rfl⟩
    cases θ' with
    | send s' ch' =>
      by_cases hs : s' = s
      · subst hs
        by_cases hch : ch' = ch
        · subst hch
          simp [State.waits, hsrv, hpc, hsend]
        · simp [State.waits, hsrv, hch]
      · simp [State.waits, hs]
    | pull | vote => simp [State.waits]
  | pull c cl' hr =>
    obtain ⟨hwait, hready, hvote⟩ := Client.resumePull_waits hr
    cases θ' with
    | send => simp [State.waits]
    | pull c' =>
      by_cases he : c' = c
      · subst he
        simp [State.waits, hwait, hready]
      · simp [State.waits, he]
    | vote c' =>
      by_cases he : c' = c
      · subst he
        simp [State.waits, hvote]
      · simp [State.waits, he]
  | vote c cl' hr =>
    obtain ⟨hwait, hready, hpull⟩ := Client.resumeVote_waits hr
    cases θ' with
    | send => simp [State.waits]
    | vote c' =>
      by_cases he : c' = c
      · subst he
        simp [State.waits, hwait, hready]
      · simp [State.waits, he]
    | pull c' =>
      by_cases he : c' = c
      · subst he
        simp [State.waits, hpull]
      · simp [State.waits, he]

theorem Resumes.calls {response : Option (Rpc G)} {θ : Thread} (h : Resumes σ response θ σ') :
    σ'.calls = σ.calls := by
  cases h <;> rfl

theorem State.waits_addCall (σ : State G) (caller : Option Thread) (out : Option (ℕ × Rpc G))
    (θ : Thread) : (σ.addCall caller out).waits θ = σ.waits θ := by
  cases θ <;> simp [State.waits]

/-- Each thread waits for the one call that it made. -/
theorem Steps.callsBy_eq (hs : Steps cfg crypto σ a σ') {θ : Thread}
    (h : callsBy θ σ.calls = σ.waits θ) : callsBy θ σ'.calls = σ'.waits θ := by
  cases hs with
  | server s sa srv' out _ _ hact =>
    rw [State.addCall_calls, State.setServer_calls, callsBy, List.countP_append]
    show callsBy θ σ.calls + callsBy θ (madeCall _ out) = _
    rw [callsBy_madeCall, h, State.waits_addCall]
    cases θ with
    | send s' ch =>
      by_cases he : s' = s
      · subst he
        have := hact.waits ch
        simp [State.waits, this]
      · simp [State.waits, he, Ne.symm he]
    | pull | vote => simp [State.waits]
  | client c ca cl' out _ _ hact =>
    rw [State.addCall_calls, State.setClient_calls, callsBy, List.countP_append]
    show callsBy θ σ.calls + callsBy θ (madeCall _ out) = _
    rw [callsBy_madeCall, h, State.waits_addCall]
    obtain ⟨hpull, hvote⟩ := hact.waits
    cases θ with
    | send => cases ca <;> simp [State.waits, ClientAction.thread]
    | pull c' =>
      by_cases he : c' = c
      · subst he
        simp [State.waits, hpull]
      · cases ca <;> simp [State.waits, ClientAction.thread, he, Ne.symm he]
    | vote c' =>
      by_cases he : c' = c
      · subst he
        simp [State.waits, hvote]
      · cases ca <;> simp [State.waits, ClientAction.thread, he, Ne.symm he]
  | handle i now order call srv' rpc' hi hh =>
    have hset := callsBy_set (θ := θ) hi { call with rpc := rpc' }
    have hwaits : (σ.setServer call.target srv').waits θ = σ.waits θ := by
      cases θ with
      | send s ch =>
        by_cases he : s = call.target
        · subst he
          simp [State.waits, hh.sameThreads.send]
        · simp [State.waits, he]
      | pull | vote => rfl
    show callsBy θ (σ.calls.set i { call with rpc := rpc' }) =
      (σ.setServer call.target srv').waits θ
    rw [hwaits]
    simp only [Nat.add_right_cancel_iff] at hset
    omega
  | retOrphan i call hi hf hc | failOrphan i call hi hc =>
    have herase := callsBy_eraseIdx (θ := θ) hi
    rw [hc, if_neg (by simp)] at herase
    exact herase.trans h
  | ret i call θ' _ hi hf hc hr =>
    have herase := callsBy_eraseIdx (θ := θ) hi
    have hwaits := hr.waits θ
    rw [hr.calls]
    show callsBy θ (σ.calls.eraseIdx i) = _
    have hsame : ({ σ with calls := σ.calls.eraseIdx i } : State G).waits θ = σ.waits θ := by
      cases θ <;> rfl
    rw [hc] at herase
    simp only [Option.some.injEq, eq_comm (a := θ')] at herase
    omega
  | fail i call θ' _ hi hc hr =>
    have hset := callsBy_set (θ := θ) hi { call with caller := none }
    have hwaits := hr.waits θ
    rw [hr.calls]
    show callsBy θ (σ.calls.set i { call with caller := none }) = _
    have hsame : ({ σ with calls := σ.calls.set i { call with caller := none } } : State G).waits θ =
        σ.waits θ := by
      cases θ <;> rfl
    rw [hc] at hset
    simp only [Option.some.injEq, reduceCtorEq, if_false, eq_comm (a := θ')] at hset
    omega
  | foreign target rpc =>
    rw [State.waits_addCall, State.addCall_calls, callsBy, List.countP_append]
    simpa [madeCall, callsBy] using h

/-- A thread that waits has one call in progress, and the others have none. -/
theorem Reachable.callsBy_eq (h : Reachable cfg crypto ok σ) (θ : Thread) :
    callsBy θ σ.calls = σ.waits θ := by
  refine h.invariant (fun σ => callsBy θ σ.calls = σ.waits θ) ?_
    fun σ a σ' _ _ hcalls hs => (steps_of_step hs).callsBy_eq hcalls
  cases θ <;> rfl

theorem State.waits_le_one (σ : State G) (θ : Thread) : σ.waits θ ≤ 1 := by
  cases θ with
  | send s ch => cases hpc : (σ.server s).send ch <;> simp [State.waits, hpc, SendPc.waits]
  | pull c => cases hpc : (σ.client c).pull <;> simp [State.waits, hpc, PullPc.waits]
  | vote c => cases hpc : (σ.client c).vote <;> simp [State.waits, hpc, VotePc.waits]

theorem Reachable.waits_of_mem (h : Reachable cfg crypto ok σ) {call : Call G} {θ : Thread}
    (hm : call ∈ σ.calls) (hc : call.caller = some θ) : σ.waits θ = 1 := by
  have hpos := callsBy_pos.mpr ⟨call, hm, hc⟩
  rw [h.callsBy_eq] at hpos
  exact le_antisymm (σ.waits_le_one θ) hpos

end TomChain
