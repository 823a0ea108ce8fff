import Mathlib.Algebra.BigOperators.Group.Finset.Piecewise
import Mathlib.Algebra.Order.BigOperators.Group.Finset
import Mathlib.Order.Interval.Finset.Nat
import TomChain.System.Transit

/-!
# Runs with failures

The senders drain a queue before they know the outcome of their call, and go on after it whatever
its status is: a send is attempted once. `transit` counts the copies of an item that are still to
be handled by a server; a step lowers it by what a handler has done and by what is dropped with a
failed call, and by nothing else (`transit_le_of_step`).
-/

namespace TomChain

open Runs Server
open Flexbuffers (Flex fromBytes toBytes)

variable {G D : Type} {cfg : Config} {crypto : Crypto G D} {σ σ' : State G} {a : Action G}
  {ok : State G → Action G → Bool}

/-! ## Items on their way -/

/-- The senders that drain a queue: the relay threads of the servers on a channel, and the vote
thread of a client. -/
inductive Route where
  | server (ch : Chan)
  | client (c : ℕ)

/-- The keys that a call still has to hand to its target. The vote that `VoteBlocks` has queued for
the other servers and still has to record here is one of them. -/
def Rpc.load : Route → Rpc G → List (ℕ × ℕ)
  | .server ch, rpc => rpc.carried ch
  | .client c, .voteBlocks id items current =>
    if id = c then (current.toList.map fun r => (r.1, 0)) ++ items.map (wireKey .block) else []
  | .client _, _ => []

def stubKeys (cfg : Config) (c t : ℕ) (stubs : List ℕ) (k : ℕ × ℕ) : List (ℕ × ℕ) :=
  (stubs.filter fun stub => stubServer cfg.serverCount c stub = t).map fun _ => k

def VotePc.unsent (cfg : Config) (c t : ℕ) : VotePc G → List (ℕ × ℕ)
  | .idle => []
  | .send request stubs => stubKeys cfg c t stubs (wireKey .block request)
  | .wait request stubs => stubKeys cfg c t stubs (wireKey .block request)

def Client.backlog (cfg : Config) (c t : ℕ) (cl : Client G) : List (ℕ × ℕ) :=
  cl.vote.unsent cfg c t ++ cl.pendingBlks.flatMap fun b => stubKeys cfg c t [0, 1] (b.header.id, 0)

def waiting (cfg : Config) (σ : State G) (t : ℕ) (k : ℕ × ℕ) : Route → ℕ
  | .server ch => ∑ s ∈ Finset.Icc 1 cfg.serverCount, ((σ.server s).backlog ch t).count k
  | .client c => ((σ.client c).backlog cfg c t).count k

def Call.load (r : Route) (t : ℕ) (call : Call G) : List (ℕ × ℕ) :=
  if call.target = t then call.rpc.load r else []

def loads (σ : State G) (r : Route) (t : ℕ) : List (ℕ × ℕ) := σ.calls.flatMap (Call.load r t)

/-- The copies of `k` on their way to `t`. -/
def transit (cfg : Config) (σ : State G) (r : Route) (t : ℕ) (k : ℕ × ℕ) : ℕ :=
  waiting cfg σ t k r + (loads σ r t).count k

/-! ## What becomes of them -/

inductive Fate where
  | handled
  | dropped
  deriving DecidableEq

/-- What the end of a handler's step does to the keys of the call: all are dropped when it breaks,
else those that left the request are handled. -/
def Rpc.fates (r : Route) (rpc rpc' : Rpc G) : List (Fate × (ℕ × ℕ)) :=
  if rpc'.broken then (rpc.load r).map (.dropped, ·)
  else ((rpc.load r).take ((rpc.load r).length - (rpc'.load r).length)).map (.handled, ·)

/-- The fates of items for `t` that are decided in a step. A call that failed for its caller may
still be handled; it is dropped with the step that removes it. -/
def fates (cfg : Config) (r : Route) (t : ℕ) (σ : State G) : Action G → List (Fate × (ℕ × ℕ))
  | .handle i now order =>
    match σ.calls[i]? with
    | some call =>
      if call.target = t then
        match (σ.server call.target).handle cfg call.target now order call.rpc with
        | some (_, rpc') => call.rpc.fates r rpc'
        | none => []
      else []
    | none => []
  | .fail i =>
    match σ.calls[i]? with
    | some call => if call.caller.isNone then (call.load r t).map (.dropped, ·) else []
    | none => []
  | _ => []

theorem count_map_fate (f f' : Fate) (l : List (ℕ × ℕ)) (k : ℕ × ℕ) :
    (l.map fun x => (f, x)).count (f', k) = if f = f' then l.count k else 0 := by
  induction l with
  | nil => simp
  | cons x l ih =>
    rw [List.map_cons, List.count_cons, ih, List.count_cons]
    by_cases hf : f = f'
    · simp [hf]
    · simp [hf]

/-- A step of a handler that does not break takes keys from the front of the request. -/
theorem Server.Handles.load {s now : ℕ} {srv srv' : Server G} {rpc rpc' : Rpc G}
    (h : srv.Handles cfg s now rpc srv' rpc') (hb : rpc'.broken = false) (r : Route) :
    rpc'.load r <:+ rpc.load r := by
  cases r with
  | server ch =>
    cases h with
    | relayVote | relayBlock | spBcastCommit =>
      cases ch <;> first | exact List.suffix_cons _ _ | exact List.suffix_rfl
    | relayVoteFailed | relayBlockFailed | spBcastCommitFailed | voteBlocksFailed
    | voteBlocksUndefined | pullUndefined => cases hb
    | _ => cases ch <;> exact List.suffix_rfl
  | client c =>
    cases h with
    | relayVoteFailed | relayBlockFailed | spBcastCommitFailed | voteBlocksFailed
    | voteBlocksUndefined | pullUndefined => cases hb
    | record id items blockId vote =>
      simp only [Rpc.load]
      split
      · exact List.suffix_cons _ _
      · exact List.suffix_rfl
    | voteBlocks id item rest block _ current hd hi =>
      simp only [Rpc.load]
      split
      · have hkey : wireKey .block item = (block.header.id, 0) :=
          wireKey_of_fromBytes (by simp) hd
        cases current with
        | none => exact List.suffix_cons _ _
        | some r =>
          rw [List.map_cons, hkey, ← (voteBlocksItem_current hi).1]
          exact List.suffix_rfl
      · exact List.suffix_rfl
    | _ => exact List.suffix_rfl

theorem Rpc.count_fates {r : Route} {rpc rpc' : Rpc G} (k : ℕ × ℕ)
    (h : rpc'.broken = false → rpc'.load r <:+ rpc.load r) :
    (rpc.load r).count k ≤ (rpc'.load r).count k + (rpc.fates r rpc').count (.handled, k) +
      (rpc.fates r rpc').count (.dropped, k) := by
  unfold Rpc.fates
  split
  · rw [count_map_fate, count_map_fate]
    simp
  · rename_i hb
    obtain ⟨l, hl⟩ := h (by simpa using hb)
    have hlen : (rpc.load r).length - (rpc'.load r).length = l.length := by
      rw [← hl, List.length_append, Nat.add_sub_cancel]
    rw [hlen, ← hl, List.take_left, count_map_fate, count_map_fate, List.count_append]
    simp
    omega

/-! ## The conservation of items -/

theorem loads_addCall (σ : State G) (caller : Option Thread) (out : Option (ℕ × Rpc G)) (r : Route)
    (t : ℕ) : loads (σ.addCall caller out) r t = loads σ r t ++
      out.toList.flatMap fun q => if q.1 = t then q.2.load r else [] := by
  rw [loads, State.addCall_calls, List.flatMap_append]
  cases out with
  | none => simp [madeCall, loads]
  | some q => simp [madeCall, loads, Call.load]

theorem Resumes.loads {response : Option (Rpc G)} {θ : Thread} (h : Resumes σ response θ σ') :
    loads σ' = loads σ := by
  cases h <;> rfl

theorem finished_load {rpc : Rpc G} (h : rpc.finished = true) (r : Route) : rpc.load r = [] := by
  cases r with
  | server ch => exact finished_carried h ch
  | client c =>
    cases rpc with
    | voteBlocks id items current =>
      simp only [Rpc.finished, Bool.and_eq_true, List.isEmpty_iff, Option.isNone_iff_eq_none] at h
      simp [Rpc.load, h.1, h.2]
    | _ => rfl

theorem sum_le_sum_add {f g : ℕ → ℕ} {n s d : ℕ} (h : f s ≤ g s + d)
    (hne : ∀ s', s' ≠ s → f s' = g s') :
    ∑ s ∈ Finset.Icc 1 n, f s ≤ ∑ s ∈ Finset.Icc 1 n, g s + d := by
  have hle : ∀ s' ∈ Finset.Icc 1 n, f s' ≤ g s' + if s' = s then d else 0 := by
    intro s' _
    split
    · rename_i he; rw [he]; exact h
    · rename_i he; rw [hne s' he]; exact Nat.le_add_right _ _
  refine (Finset.sum_le_sum hle).trans ?_
  rw [Finset.sum_add_distrib, Finset.sum_ite_eq']
  split
  · exact le_rfl
  · omega

theorem Client.Acts.backlog {c : ℕ} {cl cl' : Client G} {ca : ClientAction}
    {out : Option (ℕ × Rpc G)} (h : cl.Acts cfg crypto c ca cl' out) (t : ℕ) (k : ℕ × ℕ) :
    (cl.backlog cfg c t).count k ≤ (cl'.backlog cfg c t).count k +
      (out.toList.flatMap fun q => if q.1 = t then q.2.load (.client c) else []).count k := by
  cases h with
  | pull | get => simp [Client.backlog]
  | votePop block q hpc hq =>
    have hkey : wireKey .block (toBytes (votedBlock crypto cfg.clientCount c block)) =
        (block.header.id, 0) := wireKey_toBytes (by simp) _
    simp only [Client.backlog, hpc, hq, VotePc.unsent, hkey]
    simp
  | voteSend request stub stubs hpc =>
    simp only [Client.backlog, hpc, VotePc.unsent, stubKeys, Rpc.load]
    by_cases ht : stubServer cfg.serverCount c stub = t
    · simp [ht, List.count_cons]
    · simp [ht]

theorem Client.receiveBlocks_backlog {pb : List (Flex G)} {cl cl' : Client G}
    (h : cl.receiveBlocks pb = some cl') :
    cl'.vote = cl.vote ∧ cl.pendingBlks <+: cl'.pendingBlks := by
  induction pb generalizing cl with
  | nil => cases h; exact ⟨rfl, List.prefix_rfl⟩
  | cons item rest ih =>
    simp only [Client.receiveBlocks] at h
    split at h
    · cases h
    · obtain ⟨hv, hp⟩ := ih h
      exact ⟨hv, (List.prefix_append _ _).trans hp⟩

/-- The pull thread adds blocks to `pending_blks` and takes none out. -/
theorem Client.resumePull_backlog {cl cl' : Client G} {response : Option (Rpc G)}
    (h : cl.resumePull response = some cl') :
    cl'.vote = cl.vote ∧ cl.pendingBlks <+: cl'.pendingBlks := by
  unfold Client.resumePull at h
  split at h
  · dsimp only at h
    split at h
    · cases h; exact ⟨rfl, List.prefix_rfl⟩
    · have := Client.receiveBlocks_backlog h
      exact this
    · cases h; exact ⟨rfl, List.prefix_rfl⟩
  · cases h

theorem Client.resumeVote_backlog {c t : ℕ} {cl cl' : Client G} (h : cl.resumeVote = some cl') :
    cl'.backlog cfg c t = cl.backlog cfg c t ∧ cl'.pendingBlks = cl.pendingBlks := by
  unfold Client.resumeVote at h
  split at h
  · rename_i hpc; cases h; simp [Client.backlog, hpc, VotePc.unsent, stubKeys]
  · rename_i hpc; cases h; simp [Client.backlog, hpc, VotePc.unsent]
  · cases h

def outLoad (out : Option (ℕ × Rpc G)) (r : Route) (t : ℕ) : List (ℕ × ℕ) :=
  out.toList.flatMap fun q => if q.1 = t then q.2.load r else []

theorem waiting_setServer_le {s : ℕ} {srv' : Server G} {r : Route} {t d : ℕ} {k : ℕ × ℕ}
    (h : ∀ ch, r = .server ch →
      ((σ.server s).backlog ch t).count k ≤ (srv'.backlog ch t).count k + d) :
    waiting cfg σ t k r ≤ waiting cfg (σ.setServer s srv') t k r + d := by
  cases r with
  | server ch =>
    refine sum_le_sum_add (s := s) ?_ fun s' hne => ?_
    · simpa using h ch rfl
    · simp [hne]
  | client c => simp [waiting]

theorem waiting_setClient_le {c : ℕ} {cl' : Client G} {r : Route} {t d : ℕ} {k : ℕ × ℕ}
    (h : r = .client c →
      ((σ.client c).backlog cfg c t).count k ≤ (cl'.backlog cfg c t).count k + d) :
    waiting cfg σ t k r ≤ waiting cfg (σ.setClient c cl') t k r + d := by
  cases r with
  | server ch => simp [waiting]
  | client c' =>
    simp only [waiting, State.setClient_client]
    split
    · rename_i he
      subst he
      exact h rfl
    · exact Nat.le_add_right _ _

theorem waiting_addCall (σ : State G) (caller : Option Thread) (out : Option (ℕ × Rpc G)) (t : ℕ)
    (k : ℕ × ℕ) (r : Route) : waiting cfg (σ.addCall caller out) t k r = waiting cfg σ t k r := by
  cases r <;> simp [waiting]

/-- A caller that goes on, with whatever status, takes nothing from its queue and puts nothing
back. -/
theorem Resumes.waiting_le {response : Option (Rpc G)} {θ : Thread} (h : Resumes σ response θ σ')
    (hwf : ∀ s, (σ.server s).WF) (r : Route) (t : ℕ) (k : ℕ × ℕ) :
    waiting cfg σ t k r ≤ waiting cfg σ' t k r := by
  cases h with
  | send s ch' srv' hr =>
    refine waiting_setServer_le (d := 0) fun ch _ => ?_
    rw [backlog_resumeSend (hwf _) hr]
    exact le_rfl
  | pull c cl' hr =>
    refine waiting_setClient_le (d := 0) fun _ => ?_
    obtain ⟨hv, l, hl⟩ := Client.resumePull_backlog hr
    rw [Client.backlog, Client.backlog, hv, ← hl, List.flatMap_append, List.count_append,
      List.count_append, List.count_append]
    omega
  | vote c cl' hr =>
    refine waiting_setClient_le (d := 0) fun _ => ?_
    rw [(Client.resumeVote_backlog hr).1]
    exact le_rfl

theorem transit_le_of_handle (hr : Reachable cfg crypto ok σ) {i now : ℕ} {order : List (ℕ × ℕ)}
    (h : step cfg crypto σ (.handle i now order) = some σ') (r : Route) (t : ℕ) (k : ℕ × ℕ) :
    transit cfg σ r t k ≤ transit cfg σ' r t k +
      (fates cfg r t σ (.handle i now order)).count (.handled, k) +
      (fates cfg r t σ (.handle i now order)).count (.dropped, k) := by
  simp only [step] at h
  split at h
  · cases h
  · rename_i call hi
    obtain ⟨⟨srv', rpc'⟩, hhandle, rfl⟩ := Option.map_eq_some_iff.mp h
    have hh := handles_of_handle hhandle
    have hw : waiting cfg σ t k r ≤ waiting cfg (σ.setServer call.target srv') t k r + 0 :=
      waiting_setServer_le fun ch _ => (hh.backlog_sublist (hr.wf _) ch t).count_le k
    have hset := count_flatMap_set (Call.load r t) hi { call with rpc := rpc' } k
    have hfate : (call.load r t).count k ≤ (Call.load r t { call with rpc := rpc' }).count k +
        (fates cfg r t σ (.handle i now order)).count (.handled, k) +
        (fates cfg r t σ (.handle i now order)).count (.dropped, k) := by
      simp only [fates, hi, hhandle, Call.load]
      split
      · exact Rpc.count_fates k fun hb => hh.load hb r
      · exact Nat.zero_le _
    rw [transit, transit]
    show _ + (σ.calls.flatMap (Call.load r t)).count k ≤
      waiting cfg (σ.setServer call.target srv') t k r +
        ((σ.calls.set i { call with rpc := rpc' }).flatMap (Call.load r t)).count k + _ + _
    omega

/-- Nothing is lost in a step but by `fates`. -/
theorem transit_le_of_step (hr : Reachable cfg crypto ok σ) (h : step cfg crypto σ a = some σ')
    (r : Route) (t : ℕ) (k : ℕ × ℕ) :
    transit cfg σ r t k ≤ transit cfg σ' r t k + (fates cfg r t σ a).count (.handled, k) +
      (fates cfg r t σ a).count (.dropped, k) := by
  have hfinished : ∀ {i : ℕ} {call : Call G}, σ.calls[i]? = some call →
      call.rpc.finished = true → ((σ.calls.eraseIdx i).flatMap (Call.load r t)).count k =
        (σ.calls.flatMap (Call.load r t)).count k := by
    intro i call hi hf
    have hempty : call.load r t = [] := by
      rw [Call.load, finished_load hf]
      exact ite_self _
    have herase := count_flatMap_eraseIdx (Call.load r t) hi k
    rw [hempty] at herase
    exact herase
  have hresume : ∀ {calls : List (Call G)} {response : Option (Rpc G)} {θ : Thread},
      Resumes { σ with calls := calls } response θ σ' →
      (calls.flatMap (Call.load r t)).count k = (σ.calls.flatMap (Call.load r t)).count k →
      transit cfg σ r t k ≤ transit cfg σ' r t k := by
    intro calls response θ hres hcount
    have hw : waiting cfg { σ with calls := calls } t k r ≤ waiting cfg σ' t k r :=
      hres.waiting_le (fun s => hr.wf s) r t k
    have hw₁ : waiting cfg { σ with calls := calls } t k r = waiting cfg σ t k r := by
      cases r <;> rfl
    rw [transit, transit, hres.loads]
    show _ + (σ.calls.flatMap (Call.load r t)).count k ≤
      _ + (calls.flatMap (Call.load r t)).count k
    omega
  have hs := steps_of_step h
  cases hs with
  | server s sa srv' out _ _ hact =>
    have hw : waiting cfg σ t k r ≤
        waiting cfg (σ.setServer s srv') t k r + (outLoad out r t).count k := by
      refine waiting_setServer_le fun ch hch => ?_
      subst hch
      have hout : outLoad out (.server ch) t = outMail out ch t := by
        cases out <;> simp [outLoad, outMail, Rpc.load]
      have hb := congrArg (List.count k) (hact.backlog (hr.wf s) (hr.relayOk s).1 ch t)
      rw [List.count_append, List.count_append] at hb
      rw [hout]
      omega
    rw [transit, transit, waiting_addCall, loads_addCall, List.count_append]
    show _ ≤ _ + ((loads σ r t).count k + (outLoad out r t).count k) + _ + _
    omega
  | client c ca cl' out _ _ hact =>
    have hw : waiting cfg σ t k r ≤
        waiting cfg (σ.setClient c cl') t k r + (outLoad out r t).count k := by
      refine waiting_setClient_le fun hc => ?_
      subst hc
      exact hact.backlog t k
    rw [transit, transit, waiting_addCall, loads_addCall, List.count_append]
    show _ ≤ _ + ((loads σ r t).count k + (outLoad out r t).count k) + _ + _
    omega
  | handle => exact transit_le_of_handle hr h r t k
  | retOrphan i call hi hf _ =>
    have := hfinished hi hf
    have hw : waiting cfg { σ with calls := σ.calls.eraseIdx i } t k r = waiting cfg σ t k r := by
      cases r <;> rfl
    rw [transit, transit, hw]
    show _ + (σ.calls.flatMap (Call.load r t)).count k ≤
      _ + ((σ.calls.eraseIdx i).flatMap (Call.load r t)).count k + _ + _
    omega
  | ret i call θ _ hi hf _ hres =>
    exact (hresume hres (hfinished hi hf)).trans (by omega)
  | failOrphan i call hi hc =>
    have herase := count_flatMap_eraseIdx (Call.load r t) hi k
    have hw : waiting cfg { σ with calls := σ.calls.eraseIdx i } t k r = waiting cfg σ t k r := by
      cases r <;> rfl
    have hdropped : (fates cfg r t σ (.fail i)).count (.dropped, k) = (call.load r t).count k := by
      simp only [fates, hi, hc, Option.isNone_none, if_true]
      rw [count_map_fate, if_pos rfl]
    rw [transit, transit, hw, hdropped]
    show _ + (σ.calls.flatMap (Call.load r t)).count k ≤
      _ + ((σ.calls.eraseIdx i).flatMap (Call.load r t)).count k + _ + _
    omega
  | fail i call θ _ hi _ hres =>
    have hset := count_flatMap_set (Call.load r t) hi { call with caller := none } k
    have hsame : Call.load r t { call with caller := none } = call.load r t := rfl
    rw [hsame] at hset
    exact (hresume hres (by omega)).trans (by omega)
  | foreign target rpc =>
    rw [transit, transit, waiting_addCall, loads_addCall, List.count_append]
    omega

/-- An item that was on its way is still on its way, was handled, or was dropped with a failed
call. -/
theorem transit_le_of_logged {r : Route} {t : ℕ} {es : List (Fate × (ℕ × ℕ))}
    (hr : Reachable cfg crypto ok σ)
    (h : Logged (step cfg crypto) (fun σ a => ok σ a) (fates cfg r t) σ σ' es) (k : ℕ × ℕ) :
    transit cfg σ r t k ≤
      transit cfg σ' r t k + es.count (.handled, k) + es.count (.dropped, k) := by
  induction h with
  | refl => simp
  | next a hlog ha hs ih =>
    have hstep := transit_le_of_step (Run.trans hr hlog.run) hs r t k
    rw [List.count_append, List.count_append]
    omega

theorem dropped_eq_zero_of_succeeds (h : succeeds cfg σ a) (r : Route) (t : ℕ) (k : ℕ × ℕ) :
    (fates cfg r t σ a).count (.dropped, k) = 0 := by
  cases a with
  | fail => cases h
  | handle i now order =>
    simp only [fates]
    split
    · rename_i call hi
      split
      · split
        · rename_i rpc' hh
          simp only [succeeds, hi, hh, Option.all_some, Bool.not_eq_true'] at h
          rw [Rpc.fates, if_neg (by simp [h]), count_map_fate]
          simp
        · rfl
      · rfl
    · rfl
  | _ => rfl

/-- In a run in which no call fails nothing is dropped. -/
theorem dropped_eq_zero_of_logged {r : Route} {t : ℕ} {es : List (Fate × (ℕ × ℕ))}
    (hok : ∀ σ a, ok σ a → succeeds cfg σ a)
    (h : Logged (step cfg crypto) (fun σ a => ok σ a) (fates cfg r t) σ σ' es) (k : ℕ × ℕ) :
    es.count (.dropped, k) = 0 := by
  induction h with
  | refl => rfl
  | next a _ ha _ ih =>
    rw [List.count_append, ih, dropped_eq_zero_of_succeeds (hok _ _ ha)]

/-! ## A failed send -/

/-- The relay thread goes on after a failed call without touching its queues. -/
theorem queued_of_fail {i s : ℕ} {ch : Chan} {call : Call G} (hi : σ.calls[i]? = some call)
    (hc : call.caller = some (.send s ch)) (h : step cfg crypto σ (.fail i) = some σ') (ch' : Chan)
    (t : ℕ) : (σ'.server s).queued ch' t = (σ.server s).queued ch' t := by
  simp only [step, hi, hc, State.resume] at h
  obtain ⟨srv', hr, rfl⟩ := Option.map_eq_some_iff.mp h
  rw [State.setServer_server, if_pos rfl]
  rcases resumeSend_eq hr with ⟨_, _, _, -, rfl⟩ | ⟨_, _, _, -, rfl⟩ <;> cases ch' <;> rfl

/-- The vote thread goes on after a failed call without touching `pending_blks`. -/
theorem pendingBlks_of_fail {i c : ℕ} {call : Call G} (hi : σ.calls[i]? = some call)
    (hc : call.caller = some (.vote c)) (h : step cfg crypto σ (.fail i) = some σ') :
    (σ'.client c).pendingBlks = (σ.client c).pendingBlks := by
  simp only [step, hi, hc, State.resume] at h
  obtain ⟨cl', hr, rfl⟩ := Option.map_eq_some_iff.mp h
  rw [State.setClient_client, if_pos rfl]
  have hback : cl'.backlog cfg c 0 = (σ.client c).backlog cfg c 0 ∧
      cl'.pendingBlks = (σ.client c).pendingBlks := Client.resumeVote_backlog hr
  exact hback.2

/-- A send is attempted once. A call that ends without success leaves the queues as they are; what
it carried is handled all the same, or dropped with the call; nothing else is dropped. -/
theorem sends_once (cfg : Config) (crypto : Crypto G D) (ok : State G → Action G → Bool) :
    (∀ (σ σ' : State G) (i s : ℕ) (ch : Chan) (call : Call G), σ.calls[i]? = some call →
      call.caller = some (.send s ch) → step cfg crypto σ (.fail i) = some σ' →
      ∀ ch' t, (σ'.server s).queued ch' t = (σ.server s).queued ch' t) ∧
    (∀ (σ σ' : State G) (i c : ℕ) (call : Call G), σ.calls[i]? = some call →
      call.caller = some (.vote c) → step cfg crypto σ (.fail i) = some σ' →
      (σ'.client c).pendingBlks = (σ.client c).pendingBlks) ∧
    ∀ (σ σ' : State G) (r : Route) (t : ℕ) (es : List (Fate × (ℕ × ℕ))) (k : ℕ × ℕ),
      Reachable cfg crypto ok σ →
      Logged (step cfg crypto) (fun σ a => ok σ a) (fates cfg r t) σ σ' es →
      transit cfg σ r t k ≤
        transit cfg σ' r t k + es.count (.handled, k) + es.count (.dropped, k) ∧
      ((∀ σ a, ok σ a → succeeds cfg σ a) → es.count (.dropped, k) = 0) :=
  ⟨fun _ _ _ _ _ _ hi hc h ch' t => queued_of_fail hi hc h ch' t,
    fun _ _ _ _ _ hi hc h => pendingBlks_of_fail hi hc h,
    fun _ _ _ _ _ k hr h =>
      ⟨transit_le_of_logged hr h k, fun hok => dropped_eq_zero_of_logged hok h k⟩⟩

/-- Server 2 sends the block to server 1, and the call fails before it is handled. -/
def Script.failedRelay : List (Action Point) :=
  List.flatten [packBlock, [.server 2 .packInsert, .server 2 (.sendStart .block),
    .server 2 (.sendPop .block), .server 2 (.sendGo .block)]]

/-- The state after the next two steps, if the call fails and is then dropped for good. -/
def afterFailure (σ : State Point) : Option (State Point × State Point) :=
  (step sampleConfig Crypto.symbolic σ (.fail 0)).bind fun σ' =>
    (step sampleConfig Crypto.symbolic σ' (.fail 0)).map fun σ'' => (σ', σ'')

/-- The block that `RelayBlock` took from the queue is not queued again. When the call is dropped
the block is on no way to its target any more, and it was not handled there. -/
theorem exists_lost_block :
    ∃ (σ σ' σ'' : State Point) (call : Call Point) (es : List (Fate × (ℕ × ℕ))),
      Reachable sampleConfig Crypto.symbolic honest σ ∧ σ.calls[0]? = some call ∧
      call.caller = some (.send 2 .block) ∧ call.target = 1 ∧
      (2000000, 0) ∈ call.rpc.carried .block ∧
      step sampleConfig Crypto.symbolic σ (.fail 0) = some σ' ∧
      (2000000, 0) ∉ (σ'.server 2).queued .block 1 ∧
      Logged (step sampleConfig Crypto.symbolic) (fun σ a => honest σ a)
        (fates sampleConfig (.server .block) 1) σ σ'' es ∧
      transit sampleConfig σ (.server .block) 1 (2000000, 0) = 1 ∧
      transit sampleConfig σ'' (.server .block) 1 (2000000, 0) = 0 ∧
      es.count (.handled, (2000000, 0)) = 0 := by
  obtain ⟨σ, hr, hσ⟩ := exists_reachable sampleConfig Crypto.symbolic honest Script.failedRelay
    (fun σ => (σ.calls[0]?).any (fun call => call.caller = some (.send 2 .block) &&
        call.target = 1 && (call.rpc.carried .block).contains (2000000, 0)) &&
      (transit sampleConfig σ (.server .block) 1 (2000000, 0) == 1) &&
      (afterFailure σ).any fun r =>
        !((r.1.server 2).queued .block 1).contains (2000000, 0) &&
        (transit sampleConfig r.2 (.server .block) 1 (2000000, 0) == 0) &&
        ((fates sampleConfig (.server .block) 1 σ (.fail 0) ++
          fates sampleConfig (.server .block) 1 r.1 (.fail 0)).count (.handled, (2000000, 0)) == 0))
    (by decide +kernel)
  simp only [Bool.and_eq_true, beq_iff_eq, Option.any_eq_true, decide_eq_true_eq,
    List.contains_iff_mem, Bool.not_eq_true'] at hσ
  obtain ⟨⟨⟨call, hi, ⟨hcaller, htarget⟩, hcarried⟩, hbefore⟩, ⟨σ', σ''⟩, hfail,
    ⟨hqueued, hafter⟩, hhandled⟩ := hσ
  obtain ⟨_, hstep, hfail⟩ := Option.bind_eq_some_iff.mp hfail
  obtain ⟨_, hdrop, he⟩ := Option.map_eq_some_iff.mp hfail
  cases he
  have hlog : Logged (step sampleConfig Crypto.symbolic) (fun σ a => honest σ a)
      (fates sampleConfig (.server .block) 1) σ σ'' _ :=
    .next (.fail 0) (.next (.fail 0) .refl rfl hstep) rfl hdrop
  refine ⟨σ, σ', σ'', call, _, hr, hi, hcaller, htarget, hcarried, hstep, ?_, hlog, hbefore, hafter,
    ?_⟩
  · simpa using hqueued
  · rw [List.nil_append]
    exact hhandled

/-- In the same run the first part of `sends_once` applies to the failed call, and the last one to
the two steps after it. -/
theorem sends_once_failedRelay :
    ∃ (σ σ' σ'' : State Point) (es : List (Fate × (ℕ × ℕ))),
      Reachable sampleConfig Crypto.symbolic honest σ ∧
      (∀ ch t, (σ'.server 2).queued ch t = (σ.server 2).queued ch t) ∧
      transit sampleConfig σ (.server .block) 1 (2000000, 0) = 1 ∧
      1 ≤ transit sampleConfig σ'' (.server .block) 1 (2000000, 0) +
        es.count (.handled, (2000000, 0)) + es.count (.dropped, (2000000, 0)) := by
  obtain ⟨σ, hr, hσ⟩ := exists_reachable sampleConfig Crypto.symbolic honest Script.failedRelay
    (fun σ => (σ.calls[0]?).any (fun call => call.caller = some (.send 2 .block)) &&
      (transit sampleConfig σ (.server .block) 1 (2000000, 0) == 1) && (afterFailure σ).isSome)
    (by decide +kernel)
  simp only [Bool.and_eq_true, beq_iff_eq, Option.any_eq_true, decide_eq_true_eq,
    Option.isSome_iff_exists] at hσ
  obtain ⟨⟨⟨call, hi, hcaller⟩, hbefore⟩, ⟨σ', σ''⟩, hfail⟩ := hσ
  obtain ⟨_, hstep, hfail⟩ := Option.bind_eq_some_iff.mp hfail
  obtain ⟨_, hdrop, he⟩ := Option.map_eq_some_iff.mp hfail
  cases he
  obtain ⟨hqueue, -, hrun⟩ := sends_once sampleConfig Crypto.symbolic honest
  have hlog : Logged (step sampleConfig Crypto.symbolic) (fun σ a => honest σ a)
      (fates sampleConfig (.server .block) 1) σ σ'' _ :=
    .next (.fail 0) (.next (.fail 0) .refl rfl hstep) rfl hdrop
  have hle := (hrun _ _ _ _ _ (2000000, 0) hr hlog).1
  rw [hbefore] at hle
  exact ⟨σ, σ', σ'', _, hr, hqueue _ _ _ _ _ _ hi hcaller hstep, hbefore, hle⟩

end TomChain
