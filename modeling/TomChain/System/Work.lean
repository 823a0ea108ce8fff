import Mathlib.Algebra.BigOperators.Group.Finset.Piecewise
import Mathlib.Algebra.Order.BigOperators.Group.Finset
import Mathlib.Order.Interval.Finset.Nat
import TomChain.Lib.Halting
import TomChain.Server.Loops
import TomChain.System.Delivery
import TomChain.System.Progress

/-!
# The work that is left

What is queued, being sent, handled or merged has a price: the number of steps that it can still
cause. The prices are such that every step pays for itself and for what it leaves behind. A block that
a client has is the dearest: it causes votes, a merge, a broadcast and a loop of a relay thread for each
of the messages.
-/

namespace TomChain

open Std (ExtTreeMap ExtTreeSet)
open Runs Server
open Flexbuffers (Flex fromBytes)

variable {G D : Type} {cfg : Config} {crypto : Crypto G D}

/-! ## Prices -/

namespace Price

variable (serverCount : ℕ)

def loop : ℕ := 3 * serverCount + 2

def sync : ℕ := 4 * serverCount + 2

/-- A block in the merge queue: it is merged and broadcast. -/
def merge : ℕ := serverCount * (loop serverCount + 3) + 3

def item : Chan → ℕ
  | .vote => merge serverCount + 1
  | .block => 1
  | .commit => 1

/-- An element of a relay queue, without the loop. -/
def queued : Chan → ℕ
  | .vote => merge serverCount + 2
  | .block => sync serverCount + 2
  | .commit => 2

/-- An element of a `VoteBlocks` request: two votes are queued, and one is recorded. -/
def voted : ℕ := 2 * (queued serverCount .vote + loop serverCount) + merge serverCount + 2

/-- A block that a client votes on: it goes to two servers. -/
def block : ℕ := 2 * (voted serverCount + 3) + 1

end Price

/-! ## The work in each place -/

def queueLen {α : Type} (m : ExtTreeMap ℕ (List α)) (t : ℕ) : ℕ := ((m[t]?).getD []).length

def SendPc.work (S : ℕ) (ch : Chan) : SendPc G → ℕ
  | .idle => 0
  | .drain _ items ids rest =>
    items.length * Price.item S ch + ids.length * Price.sync S + 3 * rest.length + 4
  | .wait _ ids rest => ids.length * Price.sync S + 3 * rest.length + 2
  | .sync => 1
  | .syncSend _ targets => 4 * targets.length + 2
  | .syncWait _ _ rest => 4 * rest.length + 3

def PackPc.work (S : ℕ) : PackPc → ℕ
  | .push _ _ _ peers _ => peers.length * (Price.queued S .block + Price.loop S + 1) + 1
  | _ => 0

def MergePc.work (S : ℕ) : MergePc → ℕ
  | .idle => 0
  | .popped _ => S * (Price.loop S + 3) + 2
  | .push _ peers => peers.length * (Price.loop S + 3) + 1

namespace Server

def queueLength (srv : Server G) : Chan → ℕ → ℕ
  | .vote => queueLen srv.relayVotes
  | .block => queueLen srv.relayBlocks
  | .commit => queueLen srv.bcastCommitBlocks

/-- The queues of a channel. An element pays for a loop, unless the loop that goes on reaches it. -/
def queueWork (S : ℕ) (srv : Server G) (ch : Chan) : ℕ :=
  ∑ t ∈ Finset.Icc 1 S, srv.queueLength ch t *
    (Price.queued S ch + if t ∈ (srv.send ch).ahead then 0 else Price.loop S)

def relayWork (S : ℕ) (srv : Server G) (ch : Chan) : ℕ :=
  (srv.send ch).work S ch + srv.queueWork S ch

def work (S : ℕ) (srv : Server G) : ℕ :=
  srv.pack.work S + srv.relayWork S .vote + srv.relayWork S .block + srv.relayWork S .commit +
    srv.pbSyncQueue.length * Price.sync S + srv.pbMergeQueue.length * Price.merge S +
    srv.merge.work S

end Server

/-- The steps of the handler, what they cause, and the return. A snapshot has at most `n` blocks. -/
def Rpc.work (S n : ℕ) : Rpc G → ℕ
  | .relayVote votes => votes.length * Price.item S .vote + 1
  | .relayBlock blocks => blocks.length * Price.item S .block + 1
  | .spBcastCommit blocks => blocks.length * Price.item S .commit + 1
  | .relayBlockSync _ handled => if handled then 1 else 2
  | .pullPendingBlocks _ none _ => n + 2
  | .pullPendingBlocks _ (some todo) _ => todo.length + 1
  | .getBlocks pbHdrs pb => pbHdrs.length * (Price.block S + 1) + pb.length * Price.block S + 1
  | .voteBlocks _ votedBlocks current =>
    votedBlocks.length * Price.voted S + current.toList.length * (Price.merge S + 1) + 1
  | .failed | .undefined => 1

def VotePc.work (S : ℕ) : VotePc G → ℕ
  | .idle => 0
  | .send _ stubs => stubs.length * (Price.voted S + 3)
  | .wait _ stubs => stubs.length * (Price.voted S + 3) + 1

def Client.work (S : ℕ) (cl : Client G) : ℕ :=
  cl.vote.work S + cl.pendingBlks.length * Price.block S

def threadWork (cfg : Config) (σ : State G) : ℕ :=
  ∑ s ∈ Finset.Icc 1 cfg.serverCount, (σ.server s).work cfg.serverCount +
    ∑ c ∈ Finset.Icc 1 cfg.clientCount, (σ.client c).work cfg.serverCount

def callWork (S n : ℕ) (calls : List (Call G)) : ℕ := (calls.map fun call => call.rpc.work S n).sum

/-- The work that is left; no more blocks can be pending than were packed. -/
def work (cfg : Config) (σ : State G) : ℕ :=
  threadWork cfg σ + callWork cfg.serverCount (σ.server cfg.serverCount).packed.length σ.calls

/-! ## Sums of which one term changes -/

section Sums

variable {s : Finset ℕ} {f g : ℕ → ℕ} {x d : ℕ}

theorem sum_le_of_one (h : f x ≤ g x + d) (hne : ∀ y ∈ s, y ≠ x → f y ≤ g y) :
    ∑ y ∈ s, f y ≤ ∑ y ∈ s, g y + d := by
  have hle : ∀ y ∈ s, f y ≤ g y + if y = x then d else 0 := by
    intro y hy
    split
    · rename_i he; rw [he]; exact h
    · rename_i he; exact hne y hy he
  refine (Finset.sum_le_sum hle).trans ?_
  rw [Finset.sum_add_distrib, Finset.sum_ite_eq']
  split
  · exact le_rfl
  · omega

theorem sum_add_le_of_one (hx : x ∈ s) (h : f x + d ≤ g x) (hne : ∀ y ∈ s, y ≠ x → f y ≤ g y) :
    ∑ y ∈ s, f y + d ≤ ∑ y ∈ s, g y := by
  have hle : ∀ y ∈ s, (f y + if y = x then d else 0) ≤ g y := by
    intro y hy
    split
    · rename_i he; rw [he]; exact h
    · rename_i he; exact hne y hy he
  refine le_trans ?_ (Finset.sum_le_sum hle)
  rw [Finset.sum_add_distrib, Finset.sum_ite_eq', if_pos hx]

end Sums

/-! ## Queues -/

section Queues

variable {α : Type} {m : ExtTreeMap ℕ (List α)} {t : ℕ} {x : α} {q : List α}

theorem queueLen_insert (q : List α) (t' : ℕ) :
    queueLen (m.insert t q) t' = if t' = t then q.length else queueLen m t' := by
  rw [queueLen, ExtTreeMap.getElem?_insert]
  by_cases h : t' = t
  · simp [h]
  · simp [queueLen, h, Ne.symm h]

theorem queueLen_of_getElem? (h : m[t]? = some q) : queueLen m t = q.length := by
  simp [queueLen, h]

theorem queueLen_push (t' : ℕ) :
    queueLen (m.modify t (· ++ [x])) t' ≤ queueLen m t' + if t' = t then 1 else 0 := by
  simp only [queueLen, ExtTreeMap.getElem?_modify, Nat.compare_eq_eq]
  by_cases h : t' = t
  · subst h
    cases m[t']? <;> simp
  · simp [h, Ne.symm h]

end Queues

namespace Server

variable {S : ℕ} {srv srv' : Server G} {ch : Chan} {t : ℕ}

theorem queueWork_push (t : ℕ) (hsend : srv'.send ch = srv.send ch)
    (hlen : ∀ t', srv'.queueLength ch t' ≤ srv.queueLength ch t' + if t' = t then 1 else 0) :
    srv'.queueWork S ch ≤ srv.queueWork S ch + (Price.queued S ch + Price.loop S) := by
  refine sum_le_of_one (x := t) ?_ fun y _ hy => ?_
  · have hle := hlen t
    rw [if_pos rfl] at hle
    rw [hsend]
    refine (Nat.mul_le_mul_right _ hle).trans ?_
    rw [Nat.add_mul, Nat.one_mul]
    split <;> omega
  · have hle := hlen y
    rw [if_neg hy, Nat.add_zero] at hle
    rw [hsend]
    exact Nat.mul_le_mul_right _ hle

theorem queueWork_pop (ht : t ∈ Finset.Icc 1 S) (hmem : t ∈ (srv.send ch).ahead)
    (hsend : (srv'.send ch).ahead = (srv.send ch).ahead)
    (hpop : srv'.queueLength ch t + 1 = srv.queueLength ch t)
    (hne : ∀ t', t' ≠ t → srv'.queueLength ch t' = srv.queueLength ch t') :
    srv'.queueWork S ch + Price.queued S ch ≤ srv.queueWork S ch := by
  refine sum_add_le_of_one ht ?_ fun y _ hy => ?_
  · rw [hsend, if_pos hmem, Nat.add_zero, ← hpop, Nat.add_mul, Nat.one_mul]
  · rw [hsend, hne y hy]

theorem queueWork_next (hlen : srv'.queueLength ch = srv.queueLength ch)
    (hleft : ∀ t ∈ (srv.send ch).ahead, t ∉ (srv'.send ch).ahead → srv.queueLength ch t = 0) :
    srv'.queueWork S ch ≤ srv.queueWork S ch := by
  refine Finset.sum_le_sum fun t _ => ?_
  rw [hlen]
  by_cases hmem : t ∈ (srv.send ch).ahead
  · by_cases hmem' : t ∈ (srv'.send ch).ahead
    · rw [if_pos hmem, if_pos hmem']
    · rw [hleft t hmem hmem']
      simp
  · rw [if_neg hmem]
    refine Nat.mul_le_mul_left _ ?_
    split <;> omega

theorem queueWork_start (ht : t ∈ Finset.Icc 1 S) (hlen : srv'.queueLength ch = srv.queueLength ch)
    (hahead : (srv.send ch).ahead = []) (hmem : t ∈ (srv'.send ch).ahead)
    (hq : 0 < srv.queueLength ch t) :
    srv'.queueWork S ch + Price.loop S ≤ srv.queueWork S ch := by
  refine sum_add_le_of_one ht ?_ fun y _ hy => ?_
  · rw [hlen, hahead, if_pos hmem, if_neg List.not_mem_nil, Nat.add_zero, Nat.mul_add]
    refine Nat.add_le_add_left ?_ _
    exact Nat.le_mul_of_pos_left _ hq
  · rw [hlen, hahead, if_neg List.not_mem_nil]
    refine Nat.mul_le_mul_left _ ?_
    split <;> omega

/-! ## The steps of a server's threads -/

theorem relayWork_congr (hsend : srv'.send ch = srv.send ch)
    (hlen : srv'.queueLength ch = srv.queueLength ch) : srv'.relayWork S ch = srv.relayWork S ch := by
  rw [relayWork, relayWork, queueWork, queueWork, hsend, hlen]

theorem relayWork_setSend_ne {ch' : Chan} (hne : ch' ≠ ch) (pc : SendPc G) :
    (srv.setSend ch pc).relayWork S ch' = srv.relayWork S ch' := by
  refine relayWork_congr (send_setSend_ne hne pc) ?_
  cases ch' <;> rfl

theorem work_balance {d e : ℕ} (ch : Chan)
    (hne : ∀ ch', ch' ≠ ch → srv'.relayWork S ch' = srv.relayWork S ch')
    (h : srv'.pack.work S + srv'.relayWork S ch + srv'.pbSyncQueue.length * Price.sync S +
        srv'.pbMergeQueue.length * Price.merge S + srv'.merge.work S + d ≤
      srv.pack.work S + srv.relayWork S ch + srv.pbSyncQueue.length * Price.sync S +
        srv.pbMergeQueue.length * Price.merge S + srv.merge.work S + e) :
    srv'.work S + d ≤ srv.work S + e := by
  unfold work
  cases ch with
  | vote =>
    have h1 := hne .block (by simp)
    have h2 := hne .commit (by simp)
    omega
  | block =>
    have h1 := hne .vote (by simp)
    have h2 := hne .commit (by simp)
    omega
  | commit =>
    have h1 := hne .vote (by simp)
    have h2 := hne .block (by simp)
    omega

theorem work_add_le {d : ℕ} (ch : Chan)
    (hne : ∀ ch', ch' ≠ ch → srv'.relayWork S ch' = srv.relayWork S ch')
    (h : srv'.pack.work S + srv'.relayWork S ch + srv'.pbSyncQueue.length * Price.sync S +
        srv'.pbMergeQueue.length * Price.merge S + srv'.merge.work S + d ≤
      srv.pack.work S + srv.relayWork S ch + srv.pbSyncQueue.length * Price.sync S +
        srv.pbMergeQueue.length * Price.merge S + srv.merge.work S) :
    srv'.work S + d ≤ srv.work S := by
  rw [← Nat.add_zero (srv.work S)]
  exact work_balance ch hne h

theorem work_le_add {e : ℕ} (ch : Chan)
    (hne : ∀ ch', ch' ≠ ch → srv'.relayWork S ch' = srv.relayWork S ch')
    (h : srv'.pack.work S + srv'.relayWork S ch + srv'.pbSyncQueue.length * Price.sync S +
        srv'.pbMergeQueue.length * Price.merge S + srv'.merge.work S ≤
      srv.pack.work S + srv.relayWork S ch + srv.pbSyncQueue.length * Price.sync S +
        srv.pbMergeQueue.length * Price.merge S + srv.merge.work S + e) :
    srv'.work S ≤ srv.work S + e := by
  rw [← Nat.add_zero (srv'.work S)]
  exact work_balance ch hne h

@[simp] theorem setSend_pack (pc : SendPc G) : (srv.setSend ch pc).pack = srv.pack := rfl

@[simp] theorem setSend_pbSyncQueue (pc : SendPc G) :
    (srv.setSend ch pc).pbSyncQueue = srv.pbSyncQueue := rfl

@[simp] theorem setSend_pbMergeQueue (pc : SendPc G) :
    (srv.setSend ch pc).pbMergeQueue = srv.pbMergeQueue := rfl

@[simp] theorem setSend_merge (pc : SendPc G) : (srv.setSend ch pc).merge = srv.merge := rfl

theorem work_still {d : ℕ} (hsend : srv'.send = srv.send)
    (hlen : ∀ ch, srv'.queueLength ch = srv.queueLength ch)
    (h : srv'.pack.work S + srv'.pbSyncQueue.length * Price.sync S +
        srv'.pbMergeQueue.length * Price.merge S + srv'.merge.work S + d ≤
      srv.pack.work S + srv.pbSyncQueue.length * Price.sync S +
        srv.pbMergeQueue.length * Price.merge S + srv.merge.work S) :
    srv'.work S + d ≤ srv.work S := by
  have hrelay : ∀ ch, srv'.relayWork S ch = srv.relayWork S ch :=
    fun ch => relayWork_congr (by rw [hsend]) (hlen ch)
  refine work_add_le .block (fun ch _ => hrelay ch) ?_
  rw [hrelay .block]
  omega

theorem work_still_add {e : ℕ} (hsend : srv'.send = srv.send)
    (hlen : ∀ ch, srv'.queueLength ch = srv.queueLength ch)
    (h : srv'.pack.work S + srv'.pbSyncQueue.length * Price.sync S +
        srv'.pbMergeQueue.length * Price.merge S + srv'.merge.work S ≤
      srv.pack.work S + srv.pbSyncQueue.length * Price.sync S +
        srv.pbMergeQueue.length * Price.merge S + srv.merge.work S + e) :
    srv'.work S ≤ srv.work S + e := by
  have hrelay : ∀ ch, srv'.relayWork S ch = srv.relayWork S ch :=
    fun ch => relayWork_congr (by rw [hsend]) (hlen ch)
  refine work_le_add .block (fun ch _ => hrelay ch) ?_
  rw [hrelay .block]
  omega

theorem work_setSend {pc : SendPc G} {d : ℕ}
    (hq : (srv.setSend ch pc).queueWork S ch ≤ srv.queueWork S ch)
    (h : pc.work S ch + d ≤ (srv.send ch).work S ch) :
    (srv.setSend ch pc).work S + d ≤ srv.work S := by
  refine work_add_le ch (fun ch' hne => relayWork_setSend_ne hne pc) ?_
  rw [relayWork, relayWork, setSend_send, setSend_pack, setSend_pbSyncQueue, setSend_pbMergeQueue,
    setSend_merge]
  omega

theorem length_peerIds_le (S s : ℕ) : (peerIds S s).length ≤ S := by
  refine (List.length_filterMap_le _ _).trans ?_
  rw [List.length_range]

theorem work_nextTarget (ch : Chan) (rest : List ℕ) :
    (nextTarget ch rest : SendPc G).work S ch ≤ 3 * rest.length + 1 := by
  cases rest with
  | nil =>
    simp only [nextTarget]
    split <;> simp [SendPc.work]
  | cons t rest =>
    simp only [nextTarget, SendPc.work, List.length_cons, List.length_nil]
    omega

theorem work_request (n : ℕ) (ch : Chan) (items : List (Flex G)) :
    (request ch items).work S n = items.length * Price.item S ch + 1 := by
  cases ch <;> rfl

/-- What an element of a queue costs in the request, and the sync signal of a block. -/
theorem price_queued (S : ℕ) (ch : Chan) :
    Price.queued S ch = Price.item S ch + (if ch = .block then Price.sync S else 0) + 1 := by
  cases ch <;> simp [Price.queued, Price.item]
  omega

theorem Pops.queueLength {item : Flex G} {ids : List ℕ} (h : srv.Pops t ch srv' item ids) :
    srv'.queueLength ch t + 1 = srv.queueLength ch t ∧
      (∀ t', t' ≠ t → srv'.queueLength ch t' = srv.queueLength ch t') ∧
      (∀ ch', ch' ≠ ch → srv'.queueLength ch' = srv.queueLength ch') ∧
      ids.length = if ch = .block then 1 else 0 := by
  cases h with
  | vote v q hq =>
    refine ⟨?_, fun t' ht => ?_, fun ch' hne => ?_, rfl⟩
    · simp [Server.queueLength, queueLen_insert, queueLen_of_getElem? hq]
    · simp [Server.queueLength, queueLen_insert, ht]
    · cases ch' <;> first | rfl | exact absurd rfl hne
  | block p q b hq hb =>
    refine ⟨?_, fun t' ht => ?_, fun ch' hne => ?_, rfl⟩
    · simp [Server.queueLength, queueLen_insert, queueLen_of_getElem? hq]
    · simp [Server.queueLength, queueLen_insert, ht]
    · cases ch' <;> first | rfl | exact absurd rfl hne
  | commit p q b hq hb =>
    refine ⟨?_, fun t' ht => ?_, fun ch' hne => ?_, rfl⟩
    · simp [Server.queueLength, queueLen_insert, queueLen_of_getElem? hq]
    · simp [Server.queueLength, queueLen_insert, ht]
    · cases ch' <;> first | rfl | exact absurd rfl hne

theorem queueLength_of_queueEmpty (h : srv.queueEmpty ch t = true) : srv.queueLength ch t = 0 := by
  cases ch with
  | vote | block | commit =>
    obtain ⟨q, hq, he⟩ := Option.any_eq_true _ _ |>.mp h
    rw [List.isEmpty_iff] at he
    rw [Server.queueLength, queueLen_of_getElem? hq, he]
    rfl

variable {s : ℕ} {merge : List (BLSSigShare G) → BLSSignature G}

theorem work_sendPop {items : List (Flex G)} {ids ids' rest : List ℕ} {item : Flex G}
    (ht : t ∈ Finset.Icc 1 S) (hpc : srv.send ch = .drain t items ids rest)
    (hpop : srv.Pops t ch srv' item ids') :
    (srv'.setSend ch (.drain t (items ++ [item]) (ids ++ ids') rest)).work S + 1 ≤ srv.work S := by
  obtain ⟨hlen, hne, hother, hids⟩ := hpop.queueLength
  have hfix : srv'.pack = srv.pack ∧ srv'.send = srv.send ∧ srv'.pbSyncQueue = srv.pbSyncQueue ∧
      srv'.pbMergeQueue = srv.pbMergeQueue ∧ srv'.merge = srv.merge := by
    cases hpop <;> exact ⟨rfl, rfl, rfl, rfl, rfl⟩
  obtain ⟨hpack, hsend, hsync, hmq, hmerge⟩ := hfix
  have hpc' := setSend_send srv' ch (.drain t (items ++ [item]) (ids ++ ids') rest)
  refine work_add_le ch (fun ch' hch => ?_) ?_
  · rw [relayWork_setSend_ne hch]
    exact relayWork_congr (by rw [hsend]) (hother ch' hch)
  · have hq : (srv'.setSend ch (.drain t (items ++ [item]) (ids ++ ids') rest)).queueWork S ch +
        Price.queued S ch ≤ srv.queueWork S ch := by
      refine queueWork_pop ht ?_ ?_ ?_ ?_
      · rw [hpc]
        exact List.mem_cons_self ..
      · rw [hpc', hpc]
        rfl
      · cases ch <;> exact hlen
      · cases ch <;> exact hne
    rw [price_queued] at hq
    rw [relayWork, relayWork, hpc', hpc]
    rw [setSend_pack, setSend_pbSyncQueue, setSend_pbMergeQueue, setSend_merge, hpack, hsync, hmq,
      hmerge]
    simp only [SendPc.work, List.length_append, List.length_singleton, hids, Nat.add_mul,
      Nat.one_mul, ite_mul, Nat.zero_mul]
    omega

/-- The queue of the target is empty when a relay thread leaves it. -/
theorem act_sendGo {out : Option (ℕ × Rpc G)}
    (h : srv.act cfg merge s (.sendGo ch) = some (srv', out)) :
    ∃ t items ids rest, srv.send ch = .drain t items ids rest ∧ srv.queueLength ch t = 0 ∧
      (items = [] ∧ srv' = srv.setSend ch (nextTarget ch rest) ∧ out = none ∨
        srv' = srv.setSend ch (.wait t ids rest) ∧ out = some (t, request ch items)) := by
  simp only [act] at h
  split at h
  · rename_i t items ids rest hpc
    split at h
    · rename_i he
      refine ⟨t, items, ids, rest, hpc, queueLength_of_queueEmpty he, ?_⟩
      split at h
      · rename_i hitems
        cases h
        exact .inl ⟨List.isEmpty_iff.mp hitems, rfl, rfl⟩
      · cases h
        exact .inr ⟨rfl, rfl⟩
    · cases h
  · cases h

def outWork (S n : ℕ) (out : Option (ℕ × Rpc G)) : ℕ := (out.toList.map fun r => r.2.work S n).sum

@[simp] theorem outWork_none (S n : ℕ) : outWork S n (none : Option (ℕ × Rpc G)) = 0 := rfl

@[simp] theorem outWork_some (S n : ℕ) (r : ℕ × Rpc G) : outWork S n (some r) = r.2.work S n := by
  simp [outWork]

theorem work_sendGo (n : ℕ) {out : Option (ℕ × Rpc G)}
    (h : srv.act cfg merge s (.sendGo ch) = some (srv', out)) :
    srv'.work S + outWork S n out + 1 ≤ srv.work S := by
  obtain ⟨t, items, ids, rest, hpc, hempty, ⟨rfl, rfl, rfl⟩ | ⟨rfl, rfl⟩⟩ := act_sendGo h
  · rw [outWork_none, Nat.add_zero]
    refine work_setSend (queueWork_next ?_ fun t' hm hn => ?_) ?_
    · cases ch <;> rfl
    · rw [setSend_send, ahead_nextTarget] at hn
      rw [hpc] at hm
      rcases List.mem_cons.mp hm with rfl | hm
      · exact hempty
      · exact absurd hm hn
    · refine (Nat.add_le_add_right (work_nextTarget ch rest) 1).trans ?_
      simp only [hpc, SendPc.work]
      omega
  · rw [outWork_some, work_request, Nat.add_assoc]
    refine work_setSend (queueWork_next ?_ fun t' hm hn => ?_) ?_
    · cases ch <;> rfl
    · rw [setSend_send] at hn
      rw [hpc] at hm
      rcases List.mem_cons.mp hm with rfl | hm
      · exact hempty
      · exact absurd hm hn
    · simp only [hpc, SendPc.work]
      omega

/-- The queues are those for the peers, so a thread at rest that has something left to relay has it for
a peer. -/
theorem exists_queued (hq : srv.QueuesOk cfg s) (hl : srv.LookupsOk cfg s) (hpc : srv.send ch = .idle)
    (h : srv.drainedOut ch = false) : ∃ t ∈ peerIds cfg.serverCount s, 0 < srv.queueLength ch t := by
  have hmem : ∀ {α : Type} {m : ExtTreeMap ℕ (List α)},
      (m.toList.all fun tq => tq.2.isEmpty) = false → ∃ t ∈ m, 0 < queueLen m t := by
    intro α m hall
    rw [List.all_eq_false] at hall
    obtain ⟨⟨t, q⟩, hm, hne⟩ := hall
    have hget := ExtTreeMap.mem_toList_iff_getElem?_eq_some.mp hm
    refine ⟨t, by rw [ExtTreeMap.mem_iff_isSome_getElem?, hget]; rfl, ?_⟩
    rw [queueLen_of_getElem? hget, List.length_pos_iff]
    simpa using hne
  simp only [drainedOut, hpc, Bool.and_true] at h
  cases ch with
  | vote =>
    obtain ⟨t, ht, hlen⟩ := hmem h
    exact ⟨t, (hl.relayVotes t).mp ht, hlen⟩
  | block =>
    obtain ⟨t, ht, hlen⟩ := hmem h
    exact ⟨t, (hq.blocks t).mp ht, hlen⟩
  | commit =>
    obtain ⟨t, ht, hlen⟩ := hmem h
    exact ⟨t, (hq.commits t).mp ht, hlen⟩

/-- The steps of the threads of a server that go on with what has been begun: no new block is packed,
none is given up, and a relay timer finds something to relay. -/
def settling (srv : Server G) : ServerAction → Bool
  | .sendStart ch => !srv.drainedOut ch
  | .packPush | .packInsert | .sendPop _ | .sendGo _ | .syncPop | .syncSend | .syncLabel | .mergePop
  | .mergeCommit _ | .mergePush => true
  | .packCheck | .packGenerate _ | .packBegin _ _ | .packEnd | .reap _ _ => false

theorem mem_Icc_of_mem_peerIds {S : ℕ} (h : t ∈ peerIds S s) : t ∈ Finset.Icc 1 S :=
  Finset.mem_Icc.mpr ⟨(mem_peerIds.mp h).1, (mem_peerIds.mp h).2.1⟩

theorem work_sendStart (hq : srv.QueuesOk cfg s) (hl : srv.LookupsOk cfg s)
    (hpc : srv.send ch = .idle) (hset : srv.settling (.sendStart ch) = true) :
    (srv.setSend ch (nextTarget ch (peerIds cfg.serverCount s))).work cfg.serverCount + 1 ≤
      srv.work cfg.serverCount := by
  obtain ⟨t, ht, hlen⟩ := exists_queued hq hl hpc (by simpa [settling] using hset)
  have hstart : (srv.setSend ch (nextTarget ch (peerIds cfg.serverCount s))).queueWork
      cfg.serverCount ch + Price.loop cfg.serverCount ≤ srv.queueWork cfg.serverCount ch := by
    refine queueWork_start (mem_Icc_of_mem_peerIds ht) ?_ (by rw [hpc]; rfl) ?_ hlen
    · cases ch <;> rfl
    · rw [setSend_send, ahead_nextTarget]
      exact ht
  refine work_add_le ch (fun ch' hne => relayWork_setSend_ne hne _) ?_
  rw [relayWork, relayWork, setSend_send, setSend_pack, setSend_pbSyncQueue, setSend_pbMergeQueue,
    setSend_merge]
  have hnext := work_nextTarget (G := G) (S := cfg.serverCount) ch (peerIds cfg.serverCount s)
  have hpeers := length_peerIds_le cfg.serverCount s
  simp only [Price.loop] at hstart
  omega

theorem length_keys_le (hq : srv.QueuesOk cfg s) :
    srv.bcastCommitBlocks.keys.length ≤ cfg.serverCount := by
  have hsub : srv.bcastCommitBlocks.keys ⊆ peerIds cfg.serverCount s :=
    fun t ht => (hq.commits t).mp (ExtTreeMap.mem_keys.mp ht)
  exact (ExtTreeMap.nodup_keys.subperm hsub).length_le.trans (length_peerIds_le _ _)

/-- Every settling step of a server pays for the call that it makes, and for itself. -/
theorem act_work (n : ℕ) {sa : ServerAction} {out : Option (ℕ × Rpc G)} (hq : srv.QueuesOk cfg s)
    (hl : srv.LookupsOk cfg s) (hc : srv.OnCourse cfg s) (hset : srv.settling sa = true)
    (h : srv.act cfg merge s sa = some (srv', out)) :
    srv'.work cfg.serverCount + outWork cfg.serverCount n out + 1 ≤ srv.work cfg.serverCount := by
  cases acts_of_act h with
  | packCheck | packGenerate | packBegin | packEnd | reap => cases hset
  | packPush i p id t peers ids hpc =>
    rw [outWork_none, Nat.add_zero]
    refine work_add_le .block (fun ch' hne => relayWork_congr rfl ?_) ?_
    · cases ch' <;> first | rfl | exact absurd rfl hne
    · have hpush : ({ srv with
          relayBlocks := srv.relayBlocks.modify t (· ++ [p])
          pack := .push i p id peers ids } : Server G).queueWork cfg.serverCount .block ≤
          srv.queueWork cfg.serverCount .block +
            (Price.queued cfg.serverCount .block + Price.loop cfg.serverCount) :=
        queueWork_push t rfl fun t' => queueLen_push t'
      simp only [relayWork, hpc, PackPc.work, List.length_cons, Nat.add_mul, Nat.one_mul]
      omega
  | packInsert i p id ids hpc =>
    rw [outWork_none, Nat.add_zero]
    refine work_still rfl (fun ch => by cases ch <;> rfl) ?_
    simp only [storePending, hpc, PackPc.work, List.length_nil]
    omega
  | sendStart ch hpc =>
    rw [outWork_none, Nat.add_zero]
    exact work_sendStart hq hl hpc hset
  | sendPop ch t items ids rest srv₁ item ids' hpc hpop =>
    rw [outWork_none, Nat.add_zero]
    refine work_sendPop (mem_Icc_of_mem_peerIds (hc.ahead ch t ?_)) hpc hpop
    rw [hpc]
    exact List.mem_cons_self ..
  | sendSkip | sendGo => exact work_sendGo n h
  | syncIdle hpc hq =>
    rw [outWork_none, Nat.add_zero]
    refine work_setSend (queueWork_next rfl fun t ht => ?_) (by rw [hpc]; rfl)
    rw [hpc] at ht
    cases ht
  | syncPop id q hpc hq =>
    rw [outWork_none, Nat.add_zero]
    refine work_add_le .block (fun ch' hne => ?_) ?_
    · rw [relayWork_setSend_ne hne]
      exact relayWork_congr rfl (by cases ch' <;> rfl)
    · have hnext : (Server.setSend { srv with pbSyncQueue := q } .block
          (.syncSend id (peerIds cfg.serverCount s))).queueWork cfg.serverCount .block ≤
          srv.queueWork cfg.serverCount .block := by
        refine queueWork_next rfl fun t ht => ?_
        rw [hpc] at ht
        cases ht
      have hpeers := length_peerIds_le cfg.serverCount s
      rw [relayWork, relayWork, setSend_send, setSend_pack, setSend_pbSyncQueue,
        setSend_pbMergeQueue, setSend_merge, hpc, hq]
      simp only [SendPc.work, List.length_cons, Nat.add_mul, Nat.one_mul]
      have hprice : Price.sync cfg.serverCount = 4 * cfg.serverCount + 2 := rfl
      omega
  | syncSend id t rest hpc =>
    rw [outWork_some, Nat.add_assoc]
    refine work_setSend (queueWork_next rfl fun t ht => ?_) ?_
    · rw [hpc] at ht
      cases ht
    · simp only [hpc, SendPc.work, Rpc.work, List.length_cons]
      simp
      omega
  | syncLabel id hpc =>
    rw [outWork_none, Nat.add_zero]
    have hlabel : (Server.setSend { srv with pbSyncLabels := srv.pbSyncLabels.insert id } .block
        .sync).work cfg.serverCount + 1 ≤
        ({ srv with pbSyncLabels := srv.pbSyncLabels.insert id } : Server G).work cfg.serverCount := by
      refine work_setSend (queueWork_next rfl fun t ht => ?_) ?_
      · change t ∈ (srv.send .block).ahead at ht
        rw [hpc] at ht
        cases ht
      · show _ ≤ (srv.send .block).work _ _
        rw [hpc]
        simp [SendPc.work]
    exact hlabel
  | mergePop p q hpc hq =>
    rw [outWork_none, Nat.add_zero]
    refine work_still rfl (fun ch => by cases ch <;> rfl) ?_
    simp only [hpc, hq, MergePc.work, List.length_cons, Nat.add_mul, Nat.one_mul, Price.merge]
    omega
  | mergeCommit p now b b' hpc hb hm =>
    rw [outWork_none, Nat.add_zero]
    refine work_still rfl (fun ch => by cases ch <;> rfl) ?_
    have hkeys := Nat.mul_le_mul_right (Price.loop cfg.serverCount + 3) (length_keys_le hq)
    simp only [committedState, modifyBlock, hpc, MergePc.work]
    omega
  | mergePush p t peers hpc =>
    rw [outWork_none, Nat.add_zero]
    refine work_add_le .commit (fun ch' hne => relayWork_congr rfl ?_) ?_
    · cases ch' <;> first | rfl | exact absurd rfl hne
    · have hpush : ({ srv with
          bcastCommitBlocks := srv.bcastCommitBlocks.modify t (· ++ [p])
          merge := .push p peers } : Server G).queueWork cfg.serverCount .commit ≤
          srv.queueWork cfg.serverCount .commit + (2 + Price.loop cfg.serverCount) :=
        queueWork_push t rfl fun t' => queueLen_push t'
      simp only [relayWork, hpc, MergePc.work, List.length_cons, Nat.add_mul, Nat.one_mul]
      omega
  | mergeDone p hpc =>
    rw [outWork_none, Nat.add_zero]
    refine work_still rfl (fun ch => by cases ch <;> rfl) ?_
    simp only [hpc, MergePc.work, List.length_nil]
    omega

/-! ## The steps of a handler and of a caller -/

theorem Records.work {id voter : ℕ} {vote : BlockVote G} (h : srv.Records cfg id voter vote srv') :
    srv'.work S ≤ srv.work S + Price.merge S := by
  cases h with
  | absent | dangling => exact Nat.le_add_right _ _
  | fewer =>
    refine work_still_add rfl (fun ch => by cases ch <;> rfl) ?_
    exact Nat.le_add_right _ _
  | enough p b hp hb he =>
    refine work_still_add rfl (fun ch => by cases ch <;> rfl) ?_
    simp only [modifyBlock, List.length_append, List.length_singleton, Nat.add_mul, Nat.one_mul]
    omega

theorem work_pushVotes {vote : BlockVote G} {targets : List ℕ}
    (h : srv.pushVotes vote targets = some srv') :
    srv'.work S ≤ srv.work S + targets.length * (Price.queued S .vote + Price.loop S) := by
  induction targets generalizing srv with
  | nil =>
    cases h
    exact Nat.le_add_right _ _
  | cons t targets ih =>
    simp only [pushVotes] at h
    split at h
    · cases h
    · rename_i q hq
      refine (ih h).trans ?_
      have hpush :
          ({ srv with relayVotes := srv.relayVotes.insert t (q ++ [vote]) } : Server G).work S ≤
          srv.work S + (Price.queued S .vote + Price.loop S) := by
        refine work_le_add .vote (fun ch' hne => relayWork_congr rfl ?_) ?_
        · cases ch' <;> first | rfl | exact absurd rfl hne
        · have hqueue : ({ srv with relayVotes := srv.relayVotes.insert t (q ++ [vote]) } :
              Server G).queueWork S .vote ≤
              srv.queueWork S .vote + (Price.queued S .vote + Price.loop S) := by
            refine queueWork_push t rfl fun t' => ?_
            show queueLen _ t' ≤ queueLen _ t' + _
            rw [queueLen_insert]
            split
            · rename_i he
              rw [he, queueLen_of_getElem? hq, List.length_append]
              rfl
            · exact Nat.le_add_right _ _
          simp only [relayWork]
          omega
      rw [List.length_cons, Nat.add_mul, Nat.one_mul]
      omega

theorem length_targets_le (serverCount s : ℕ) (b : Block G) :
    ((b.getServerId serverCount).toList.filter (· ≠ s)).length ≤ 2 := by
  refine (List.length_filter_le _ _).trans ?_
  rw [ExtTreeSet.length_toList]
  unfold Block.getServerId
  refine (ExtTreeSet.size_insert_le ..).trans ?_
  have := ExtTreeSet.size_insert_le (t := (∅ : ExtTreeSet ℕ)) (k := b.header.id % serverCount + 1)
  simpa using this

theorem VoteBlocksItem.work {id : ℕ} {block : Block G} {current : Option (ℕ × BlockVote G)}
    (h : srv.voteBlocksItem cfg s id block = some (srv', current)) :
    srv'.work S ≤ srv.work S + 2 * (Price.queued S .vote + Price.loop S) := by
  rcases voteBlocksItem_cases h with ⟨rfl, -⟩ | ⟨vote, -, -, hpush, -⟩
  · exact Nat.le_add_right _ _
  · refine (work_pushVotes hpush).trans (Nat.add_le_add_left ?_ _)
    exact Nat.mul_le_mul_right _ (length_targets_le _ _ _)

theorem length_getItem_le (srv : Server G) (id : ℕ) : (srv.getItem id).length ≤ 1 := by
  unfold getItem
  split
  · exact Nat.zero_le _
  · rename_i p _
    rw [List.length_map]
    cases srv.heap[p]? <;> simp

/-- Every step of a handler pays for what it causes, and for itself. -/
theorem Handles.work {n now : ℕ} {rpc rpc' : Rpc G} (hn : srv.pendingBlks.size ≤ n)
    (h : srv.Handles cfg s now rpc srv' rpc') :
    rpc'.work S n < rpc.work S n ∧
      srv'.work S + rpc'.work S n + 1 ≤ srv.work S + rpc.work S n := by
  cases h with
  | relayVoteFailed | relayBlockFailed | spBcastCommitFailed =>
    simp only [Rpc.work, Price.item, List.length_cons, Nat.add_mul]
    constructor <;> omega
  | relayVote item rest vote _ =>
    have hwork : (srv.relayVoteItem cfg vote).work S ≤ srv.work S + Price.merge S := by
      unfold relayVoteItem
      split
      · exact Nat.le_add_right _ _
      · exact (records_recordVote ..).work
    simp only [Rpc.work, Price.item, List.length_cons, Nat.add_mul]
    constructor <;> omega
  | relayBlock item rest block _ =>
    have hwork : (srv.relayBlockItem block).work S ≤ srv.work S + 0 :=
      work_still_add rfl (fun ch => by cases ch <;> rfl) le_rfl
    simp only [Rpc.work, Price.item, List.length_cons]
    constructor <;> omega
  | spBcastCommit item rest block _ =>
    have hwork : (srv.spBcastCommitItem cfg now block).work S ≤ srv.work S + 0 := by
      rcases spBcastCommitItem_eq cfg srv now block with ⟨-, h⟩ | ⟨-, db, h⟩
      · rw [h, Nat.add_zero]
      · rw [h]
        exact work_still_add rfl (fun ch => by cases ch <;> rfl) le_rfl
    simp only [Rpc.work, Price.item, List.length_cons]
    constructor <;> omega
  | relayBlockSync id =>
    have hwork : ({ srv with pbSyncLabels := srv.pbSyncLabels.insert id } : Server G).work S ≤
        srv.work S + 0 := work_still_add rfl (fun ch => by cases ch <;> rfl) le_rfl
    simp only [Rpc.work, if_true, Bool.false_eq_true, if_false]
    constructor <;> omega
  | pullBegin id order pbHdrs hp =>
    have hlen : order.length = srv.pendingBlks.size := by
      rw [hp.length_eq, ExtTreeMap.length_toList]
    simp only [Rpc.work, hlen]
    constructor <;> omega
  | pullUndefined =>
    simp only [Rpc.work, List.length_cons]
    constructor <;> omega
  | pullItem id blockId p todo pbHdrs b _ hdrs hb hi =>
    have hwork : srv'.work S ≤ srv.work S + 0 := by
      rcases pullItem_eq hi with ⟨rfl, -⟩ | ⟨-, -, clients, rfl⟩
      · exact Nat.le_refl _
      · exact work_still_add rfl (fun ch => by cases ch <;> rfl) le_rfl
    simp only [Rpc.work, List.length_cons]
    constructor <;> omega
  | getItem hdr rest pb =>
    have hlen := Nat.mul_le_mul_right (Price.block S)
      (srv.length_getItem_le (Flexbuffers.headerFromBytes hdr).id)
    simp only [Rpc.work, List.length_cons, List.length_append, Nat.add_mul]
    constructor <;> omega
  | record id items blockId vote =>
    have hwork := (records_recordVote cfg srv blockId id vote).work (S := S)
    simp only [Rpc.work, Option.toList, List.length_cons, List.length_nil]
    constructor <;> omega
  | voteBlocksFailed | voteBlocksUndefined =>
    simp only [Rpc.work, Price.voted, List.length_cons, Nat.add_mul]
    constructor <;> omega
  | voteBlocks id item rest block _ current hd hi =>
    have hwork := VoteBlocksItem.work (S := S) hi
    have hcurrent : current.toList.length * (Price.merge S + 1) ≤ Price.merge S + 1 := by
      cases current <;> simp
    have hprice : Price.voted S =
        2 * (Price.queued S .vote + Price.loop S) + Price.merge S + 2 := rfl
    simp only [Rpc.work, List.length_cons, Nat.add_mul rest.length,
      Nat.one_mul, Option.toList_none, List.length_nil]
    constructor <;> omega

theorem work_resumeSend (h : srv.resumeSend ch = some srv') : srv'.work S ≤ srv.work S := by
  rw [← Nat.add_zero (srv'.work S)]
  rcases resumeSend_eq h with ⟨t, ids, rest, hpc, rfl⟩ | ⟨id, t, rest, hpc, rfl⟩
  · refine work_add_le ch (fun ch' hne => ?_) ?_
    · rw [relayWork_setSend_ne hne]
      exact relayWork_congr rfl (by cases ch' <;> rfl)
    · have hnext : (Server.setSend { srv with pbSyncQueue :=
          if ch = .block then srv.pbSyncQueue ++ ids else srv.pbSyncQueue } ch
            (nextTarget ch rest)).queueWork S ch ≤ srv.queueWork S ch := by
        refine queueWork_next (by cases ch <;> rfl) fun t' hm hn => ?_
        rw [setSend_send, ahead_nextTarget] at hn
        rw [hpc] at hm
        exact absurd hm hn
      have hpc' := work_nextTarget (G := G) (S := S) ch rest
      have hwait : (SendPc.wait t ids rest : SendPc G).work S ch =
          ids.length * Price.sync S + 3 * rest.length + 2 := rfl
      have hids : (if ch = .block then srv.pbSyncQueue ++ ids else srv.pbSyncQueue).length *
          Price.sync S ≤ srv.pbSyncQueue.length * Price.sync S + ids.length * Price.sync S := by
        split
        · rw [List.length_append, Nat.add_mul]
        · exact Nat.le_add_right _ _
      rw [relayWork, relayWork, setSend_send, setSend_pack, setSend_pbSyncQueue,
        setSend_pbMergeQueue, setSend_merge, hpc, hwait]
      dsimp only
      omega
  · refine work_setSend (queueWork_next (by cases ch <;> rfl) fun t' hm hn => ?_) ?_
    · rw [hpc] at hm
      cases hm
    · rw [hpc]
      simp only [SendPc.work]
      omega

end Server

/-- The return of a call is always still to come. -/
theorem Rpc.work_pos (S n : ℕ) (rpc : Rpc G) : 0 < rpc.work S n := by
  cases rpc with
  | relayBlockSync id handled => cases handled <;> simp [Rpc.work]
  | pullPendingBlocks id todo hdrs => cases todo <;> simp [Rpc.work]
  | _ => simp [Rpc.work]

/-! ## The steps of a client -/

namespace Client

variable {S c : ℕ} {cl cl' : Client G}

def settling : ClientAction → Bool
  | .pull _ => false
  | .votePop | .voteSend => true

theorem acts_work (n : ℕ) {ca : ClientAction} {out : Option (ℕ × Rpc G)}
    (hset : settling ca = true) (h : cl.Acts cfg crypto c ca cl' out) :
    cl'.work S + outWork S n out + 1 ≤ cl.work S := by
  cases h with
  | pull | get => cases hset
  | votePop block q hpc hq =>
    have hprice : Price.block S = 2 * (Price.voted S + 3) + 1 := rfl
    simp only [Client.work, hpc, hq, VotePc.work, Server.outWork_none, List.length_cons,
      List.length_nil, Nat.add_mul q.length, Nat.one_mul]
    omega
  | voteSend request stub stubs hpc =>
    simp only [Client.work, hpc, VotePc.work, Server.outWork_some, Rpc.work, List.length_cons,
      List.length_nil, Nat.add_mul, Nat.one_mul, Option.toList_none]
    omega

/-- The blocks of a response are paid for by the call. -/
theorem work_resumePull {n : ℕ} {rpc : Rpc G} (h : cl.resumePull (some rpc) = some cl') :
    cl'.work S + 1 ≤ cl.work S + rpc.work S n := by
  obtain ⟨hvote, -⟩ := Client.resumePull_backlog h
  have hpos := rpc.work_pos S n
  unfold Client.resumePull at h
  split at h
  · dsimp only at h
    split at h
    · cases h
      exact Nat.add_le_add_left hpos _
    · rename_i hdrs pb hrpc
      cases hrpc
      obtain ⟨hblks, -⟩ := Client.receiveBlocks_eq h
      have hlen := Nat.mul_le_mul_right (Price.block S) (List.length_filterMap_le fromBytes pb)
      rw [Client.work, Client.work, hvote, hblks, List.length_append]
      simp only [Rpc.work, Nat.add_mul cl.pendingBlks.length]
      omega
    · cases h
      exact Nat.add_le_add_left hpos _
  · cases h

theorem work_resumeVote (h : cl.resumeVote = some cl') : cl'.work S ≤ cl.work S := by
  unfold Client.resumeVote at h
  split at h
  · rename_i hpc
    cases h
    simp only [Client.work, hpc, VotePc.work]
    omega
  · rename_i hpc
    cases h
    simp only [Client.work, hpc, VotePc.work]
    omega
  · cases h

end Client

/-! ## The steps of the system -/

variable {σ σ' : State G} {a : Action G} {ok : State G → Action G → Bool}

/-- The system goes on with what has been begun: no new block is packed, no client begins a pull, and no
call fails. -/
def settling (σ : State G) : Action G → Bool
  | .server s sa => (σ.server s).settling sa
  | .client _ ca => Client.settling ca
  | .handle _ _ _ => true
  | .ret _ => true
  | .fail _ => false
  | .foreign _ _ => false

theorem Reachable.onCourse (h : Reachable cfg crypto ok σ) (s : ℕ) : (σ.server s).OnCourse cfg s :=
  h.server_invariant (fun s srv => srv.OnCourse cfg s) (onCourse_init cfg)
    (fun _ _ _ hc hm => hc.moves hm) s

theorem Reachable.pending_le (h : Reachable cfg crypto ok σ) (s : ℕ) :
    (σ.server s).pendingBlks.size ≤ (σ.server cfg.serverCount).packed.length := by
  have hsub : (σ.server s).pendingBlks.keys ⊆ (σ.server cfg.serverCount).packedIds := by
    intro id hid
    obtain ⟨p, hp⟩ := Option.isSome_iff_exists.mp
      (ExtTreeMap.mem_iff_isSome_getElem?.mp (ExtTreeMap.mem_keys.mp hid))
    obtain ⟨b, hb, rfl⟩ := idAt_eq_some.mp ((h.wf s).pending id p hp)
    obtain ⟨pb, hpb, hsame⟩ := ((contentFlow_clean h).server s).heap b (List.mem_of_getElem? hb)
    rw [hsame.1]
    exact List.mem_map_of_mem hpb
  have hle := (ExtTreeMap.nodup_keys.subperm hsub).length_le
  rwa [ExtTreeMap.length_keys, packedIds, List.length_map] at hle

theorem Server.act_packed {s : ℕ} {srv srv' : Server G} {sa : ServerAction}
    {out : Option (ℕ × Rpc G)} (hset : srv.settling sa = true)
    (h : srv.Acts cfg crypto.merge s sa srv' out) : srv'.packed = srv.packed := by
  cases h with
  | packBegin => cases hset
  | sendPop ch t items ids rest srv'' item ids' _ hpop => cases hpop <;> rfl
  | reap => cases hset
  | _ => rfl

theorem Steps.packed_of_settling (ha : settling σ a) (hs : Steps cfg crypto σ a σ') (s : ℕ) :
    (σ'.server s).packed = (σ.server s).packed := by
  have hset : ∀ {s' : ℕ} {srv' : Server G}, srv'.packed = (σ.server s').packed →
      ((σ.setServer s' srv').server s).packed = (σ.server s).packed := by
    intro s' srv' hp
    rw [State.setServer_server]
    split
    · rename_i he
      rw [hp, he]
    · rfl
  have hres : ∀ {calls : List (Call G)} {response : Option (Rpc G)} {θ : Thread},
      Resumes { σ with calls := calls } response θ σ' → (σ'.server s).packed = (σ.server s).packed := by
    intro calls response θ hr
    cases hr with
    | send s' ch srv' hr =>
      rcases resumeSend_eq hr with ⟨_, _, _, -, rfl⟩ | ⟨_, _, _, -, rfl⟩ <;> exact hset rfl
    | pull | vote => rfl
  cases hs with
  | server s' sa srv' out _ _ hact =>
    rw [State.addCall_server]
    exact hset (act_packed ha hact)
  | client => rw [State.addCall_server, State.setClient_server]
  | handle i now order call srv' rpc' hi hh => exact hset hh.sameThreads.packed
  | ret i call θ _ _ _ _ hr => exact hres hr
  | retOrphan | failOrphan => rfl
  | fail | foreign => cases ha

theorem threadWork_setServer_le {s d : ℕ} {srv' : Server G}
    (h : srv'.work cfg.serverCount ≤ (σ.server s).work cfg.serverCount + d) :
    threadWork cfg (σ.setServer s srv') ≤ threadWork cfg σ + d := by
  have hsum : ∑ u ∈ Finset.Icc 1 cfg.serverCount, ((σ.setServer s srv').server u).work cfg.serverCount ≤
      ∑ u ∈ Finset.Icc 1 cfg.serverCount, (σ.server u).work cfg.serverCount + d := by
    refine sum_le_of_one (x := s) ?_ fun u _ hu => ?_
    · simpa using h
    · simp [hu]
  simp only [threadWork, State.setServer_client]
  omega

theorem threadWork_setServer_lt {s d : ℕ} {srv' : Server G} (h1 : 1 ≤ s) (h2 : s ≤ cfg.serverCount)
    (h : srv'.work cfg.serverCount + d ≤ (σ.server s).work cfg.serverCount) :
    threadWork cfg (σ.setServer s srv') + d ≤ threadWork cfg σ := by
  have hsum : ∑ u ∈ Finset.Icc 1 cfg.serverCount,
      ((σ.setServer s srv').server u).work cfg.serverCount + d ≤
      ∑ u ∈ Finset.Icc 1 cfg.serverCount, (σ.server u).work cfg.serverCount := by
    refine sum_add_le_of_one (Finset.mem_Icc.mpr ⟨h1, h2⟩) ?_ fun u _ hu => ?_
    · simpa using h
    · simp [hu]
  simp only [threadWork, State.setServer_client]
  omega

theorem threadWork_setClient_le {c d : ℕ} {cl' : Client G}
    (h : cl'.work cfg.serverCount ≤ (σ.client c).work cfg.serverCount + d) :
    threadWork cfg (σ.setClient c cl') ≤ threadWork cfg σ + d := by
  have hsum : ∑ u ∈ Finset.Icc 1 cfg.clientCount, ((σ.setClient c cl').client u).work cfg.serverCount ≤
      ∑ u ∈ Finset.Icc 1 cfg.clientCount, (σ.client u).work cfg.serverCount + d := by
    refine sum_le_of_one (x := c) ?_ fun u _ hu => ?_
    · simpa using h
    · simp [hu]
  simp only [threadWork, State.setClient_server]
  omega

theorem threadWork_setClient_lt {c d : ℕ} {cl' : Client G} (h1 : 1 ≤ c) (h2 : c ≤ cfg.clientCount)
    (h : cl'.work cfg.serverCount + d ≤ (σ.client c).work cfg.serverCount) :
    threadWork cfg (σ.setClient c cl') + d ≤ threadWork cfg σ := by
  have hsum : ∑ u ∈ Finset.Icc 1 cfg.clientCount,
      ((σ.setClient c cl').client u).work cfg.serverCount + d ≤
      ∑ u ∈ Finset.Icc 1 cfg.clientCount, (σ.client u).work cfg.serverCount := by
    refine sum_add_le_of_one (Finset.mem_Icc.mpr ⟨h1, h2⟩) ?_ fun u _ hu => ?_
    · simpa using h
    · simp [hu]
  simp only [threadWork, State.setClient_server]
  omega

theorem threadWork_addCall (caller : Option Thread) (out : Option (ℕ × Rpc G)) :
    threadWork cfg (σ.addCall caller out) = threadWork cfg σ := by
  simp [threadWork]

theorem callWork_addCall (S n : ℕ) (caller : Option Thread) (out : Option (ℕ × Rpc G)) :
    callWork S n (σ.addCall caller out).calls = callWork S n σ.calls + outWork S n out := by
  rw [State.addCall_calls, callWork, List.map_append, List.sum_append]
  cases out <;> simp [callWork, madeCall, outWork]

theorem Resumes.threadWork {rpc : Rpc G} {θ : Thread} (n : ℕ) (h : Resumes σ (some rpc) θ σ') :
    threadWork cfg σ' + 1 ≤ threadWork cfg σ + rpc.work cfg.serverCount n := by
  have hpos := rpc.work_pos cfg.serverCount n
  cases h with
  | send s ch srv' hr =>
    have hle : TomChain.threadWork cfg (σ.setServer s srv') ≤ TomChain.threadWork cfg σ + 0 :=
      threadWork_setServer_le ((work_resumeSend hr).trans (Nat.le_add_right _ _))
    omega
  | pull c cl' hr =>
    have hwork := Client.work_resumePull (S := cfg.serverCount) (n := n) hr
    have hle : TomChain.threadWork cfg (σ.setClient c cl') ≤
        TomChain.threadWork cfg σ + (rpc.work cfg.serverCount n - 1) :=
      threadWork_setClient_le (by omega)
    omega
  | vote c cl' hr =>
    have hle : TomChain.threadWork cfg (σ.setClient c cl') ≤ TomChain.threadWork cfg σ + 0 :=
      threadWork_setClient_le ((Client.work_resumeVote hr).trans (Nat.le_add_right _ _))
    omega

/-- Every settling step leaves less work. -/
theorem work_lt_of_step (hr : Reachable cfg crypto ok σ) (ha : settling σ a)
    (hs : step cfg crypto σ a = some σ') : work cfg σ' < work cfg σ := by
  have hst := steps_of_step hs
  rw [work, work, hst.packed_of_settling ha]
  generalize hn : (σ.server cfg.serverCount).packed.length = n
  have hret : ∀ {i : ℕ} {call : Call G} {θ : Thread}, σ.calls[i]? = some call →
      Resumes { σ with calls := σ.calls.eraseIdx i } (some call.rpc) θ σ' →
      threadWork cfg σ' + callWork cfg.serverCount n σ'.calls <
        threadWork cfg σ + callWork cfg.serverCount n σ.calls := by
    intro i call θ hi hres
    have hthread : threadWork cfg σ' + 1 ≤
        threadWork cfg { σ with calls := σ.calls.eraseIdx i } + call.rpc.work cfg.serverCount n :=
      hres.threadWork n
    have herase := sum_map_eraseIdx (fun call : Call G => call.rpc.work cfg.serverCount n) hi
    have hsame : threadWork cfg ({ σ with calls := σ.calls.eraseIdx i } : State G) = threadWork cfg σ :=
      rfl
    rw [hres.calls]
    simp only [callWork]
    omega
  cases hst with
  | server s sa srv' out h1 h2 _ =>
    -- the guard of the relay threads is in the function, not in its cases
    simp only [step, if_pos (And.intro h1 h2), Option.map_eq_some_iff, Prod.exists] at hs
    obtain ⟨srv₁, out₁, hact, he⟩ := hs
    have hwork := act_work n (hr.relayOk s).1 (hr.lookupsOk s) (hr.onCourse s) ha hact
    rw [← he, threadWork_addCall, callWork_addCall]
    rw [Nat.add_assoc] at hwork
    have hlt := threadWork_setServer_lt h1 h2 hwork
    have hcalls : (σ.setServer s srv₁).calls = σ.calls := rfl
    rw [hcalls]
    omega
  | client c ca cl' out h1 h2 hact =>
    have hwork := Client.acts_work (S := cfg.serverCount) n ha hact
    rw [threadWork_addCall, callWork_addCall]
    rw [Nat.add_assoc] at hwork
    have hlt := threadWork_setClient_lt h1 h2 hwork
    have hcalls : (σ.setClient c cl').calls = σ.calls := rfl
    rw [hcalls]
    omega
  | handle i now order call srv' rpc' hi hh =>
    obtain ⟨hlt, hwork⟩ := hh.work (S := cfg.serverCount) (n := n) (by rw [← hn]; exact hr.pending_le _)
    have hset := sum_map_set (fun call : Call G => call.rpc.work cfg.serverCount n) hi
      { call with rpc := rpc' }
    have hthread : threadWork cfg (σ.setServer call.target srv') ≤
        threadWork cfg σ + (call.rpc.work cfg.serverCount n - rpc'.work cfg.serverCount n - 1) :=
      threadWork_setServer_le (by omega)
    show threadWork cfg (σ.setServer call.target srv') +
      callWork cfg.serverCount n (σ.calls.set i { call with rpc := rpc' }) < _
    simp only [callWork]
    dsimp only at hset
    omega
  | retOrphan i call hi hf hc =>
    have herase := sum_map_eraseIdx (fun call : Call G => call.rpc.work cfg.serverCount n) hi
    have hpos := call.rpc.work_pos cfg.serverCount n
    show threadWork cfg σ + callWork cfg.serverCount n (σ.calls.eraseIdx i) < _
    simp only [callWork]
    omega
  | ret i call θ _ hi hf hc hres => exact hret hi hres
  | failOrphan | fail | foreign => cases ha

end TomChain
