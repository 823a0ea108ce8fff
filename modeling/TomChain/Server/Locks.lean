import Mathlib.Data.Set.Insert
import TomChain.Lib.Locks

/-!
# The locks of a server

`pb_sm_1` is shared for a find, an insert or an erase in `pending_blks`, and taken exclusively by the
timer that counts the blocks and for a copy of the map. An accessor holds the lock of an element of
`pending_blks` or `committed_blks`; a find or an insert waits for a busy element with `pb_sm_1` still
locked. Branches on votes and on dead blocks are left open. A handler that throws releases what it
holds, as at the end of a shorter request. The copy that `PullPendingBlocks` walks through is its own.

Where a waiting writer blocks new readers, three threads can wait for each other: one that shares
`pb_sm_1` and waits for an element, one that has the element and wants to share `pb_sm_1` again, and
a writer between them. This is the only way (`not_deadlocked_iff`).
-/

namespace TomChain.ServerLocks

open Locks Runs

inductive Mutex where
  | pbSm1
  | dbMutex
  deriving DecidableEq

/-- The elements of `pending_blks` and of `committed_blks`. -/
inductive Elem where
  | pending (id : ℕ)
  | committed (id : ℕ)
  deriving DecidableEq

abbrev ServerProg := Prog Mutex Elem

abbrev ServerAccess := Access Mutex Elem

/-- Whether a waiting writer of `pb_sm_1` blocks new readers; the standard leaves it open. -/
inductive Policy where
  | readersFirst
  | writersFirst
  deriving DecidableEq

def Policy.prio : Policy → Mutex → Bool
  | .writersFirst, .pbSm1 => true
  | _, _ => false

def findPending (id : ℕ) (m : Mode) (found missing : ServerProg) : ServerProg :=
  .lock .pbSm1 .shared (.find (.pending id) m (.unlock (.mutex .pbSm1) found)
    (.unlock (.mutex .pbSm1) missing))

def insertPending (id : ℕ) (next : ServerProg) : ServerProg :=
  .lock .pbSm1 .shared (.insert (.pending id) (.unlock (.mutex .pbSm1) next))

def erasePending (id : ℕ) (next : ServerProg) : ServerProg :=
  .lock .pbSm1 .shared (.erase (.pending id) (.unlock (.mutex .pbSm1) next))

/-- What `VoteBlocks` and `RelayVote` do for one vote; the first branch is `is_vote_enough`. -/
def recordVote (id : ℕ) (next : ServerProg) : ServerProg :=
  findPending id .exclusive
    (.choose (erasePending id next) (.unlock (.elem (.pending id)) next)) next

/-- For the blocks of a request. The first branch: no vote, a dead block, or not a target server. -/
def voteBlocks : List ℕ → ServerProg
  | [] => .done
  | id :: ids => .choose (voteBlocks ids) (recordVote id (voteBlocks ids))

/-- The first branch: a dead block. -/
def relayVote : List ℕ → ServerProg
  | [] => .done
  | id :: ids => .choose (relayVote ids) (recordVote id (relayVote ids))

def relayBlock : List ℕ → ServerProg
  | [] => .done
  | id :: ids => insertPending id (.unlock (.elem (.pending id)) (relayBlock ids))

def putBlock (next : ServerProg) : ServerProg :=
  .lock .dbMutex .exclusive (.unlock (.mutex .dbMutex) next)

def spBcastCommit (useRocksdb : Bool) : List ℕ → ServerProg
  | [] => .done
  | id :: ids =>
    let erase := erasePending id (.unlock (.elem (.committed id)) (spBcastCommit useRocksdb ids))
    findPending id .exclusive
      (.insert (.committed id) (if useRocksdb then putBlock erase else erase))
      (spBcastCommit useRocksdb ids)

def releaseAccessor : Option ℕ → ServerProg → ServerProg
  | none, next => next
  | some id, next => .unlock (.elem (.pending id)) next

/-- The accessor is declared before the loop: it holds the last block that was found, and a find
releases it after `pb_sm_1` is locked. -/
def getBlocks : Option ℕ → List ℕ → ServerProg
  | accessor, [] => releaseAccessor accessor .done
  | accessor, id :: ids =>
    .lock .pbSm1 .shared (releaseAccessor accessor
      (.find (.pending id) .shared (.unlock (.mutex .pbSm1) (getBlocks (some id) ids))
        (.unlock (.mutex .pbSm1) (getBlocks none ids))))

def pullPendingBlocks : ServerProg := .lock .pbSm1 .exclusive (.unlock (.mutex .pbSm1) .done)

def packBlock : List ℕ → ServerProg
  | [] => .done
  | id :: ids => insertPending id (.unlock (.elem (.pending id)) (packBlock ids))

/-- `pack_thread`: the size of `pending_blks`, then `pack_block`. -/
def packThread (ids : List ℕ) : ServerProg :=
  .lock .pbSm1 .shared (.unlock (.mutex .pbSm1) (packBlock ids))

def mergeVotes : List ℕ → ServerProg
  | [] => .done
  | id :: ids =>
    .insert (.committed id) (putBlock (.unlock (.elem (.committed id)) (mergeVotes ids)))

def countBlocks : ServerProg := .lock .pbSm1 .exclusive (.unlock (.mutex .pbSm1) .done)

inductive Task where
  | voteBlocks (ids : List ℕ)
  | relayVote (ids : List ℕ)
  | relayBlock (ids : List ℕ)
  | spBcastCommit (ids : List ℕ)
  | getBlocks (ids : List ℕ)
  | pullPendingBlocks
  | packThread (ids : List ℕ)
  | mergeVotes (ids : List ℕ)
  | countBlocks

def Task.code (useRocksdb : Bool) : Task → ServerProg
  | .voteBlocks ids => ServerLocks.voteBlocks ids
  | .relayVote ids => ServerLocks.relayVote ids
  | .relayBlock ids => ServerLocks.relayBlock ids
  | .spBcastCommit ids => ServerLocks.spBcastCommit useRocksdb ids
  | .getBlocks ids => ServerLocks.getBlocks none ids
  | .pullPendingBlocks => ServerLocks.pullPendingBlocks
  | .packThread ids => ServerLocks.packThread ids
  | .mergeVotes ids => ServerLocks.mergeVotes ids
  | .countBlocks => ServerLocks.countBlocks

/-! ## The discipline -/

/-- What a thread holds when it asks for a lock. -/
def allowed (held : List (Lock Mutex Elem × Mode)) : Lock Mutex Elem → Mode → Prop
  | .mutex .pbSm1, .exclusive => held = []
  | .mutex .pbSm1, .shared => held = [] ∨ (∃ id m, held = [(.elem (.pending id), m)]) ∨
      ∃ id, held = [(.elem (.pending id), .exclusive), (.elem (.committed id), .exclusive)]
  | .mutex .dbMutex, _ => ∃ id, held = [(.elem (.committed id), .exclusive)] ∨
      held = [(.elem (.pending id), .exclusive), (.elem (.committed id), .exclusive)]
  | .elem (.pending _), _ => held = [(.mutex .pbSm1, .shared)]
  | .elem (.committed id), _ => held = [] ∨ held = [(.elem (.pending id), .exclusive)]

theorem recordVote_follows {id : ℕ} {next : ServerProg} (h : next.Follows allowed []) :
    (recordVote id next).Follows allowed [] := by
  simp [recordVote, findPending, erasePending, Prog.Follows, allowed, h]

theorem getBlocks_follows (ids : List ℕ) : ∀ accessor : Option ℕ, (getBlocks accessor ids).Follows
    allowed (accessor.toList.map fun id => (.elem (.pending id), .shared)) := by
  induction ids with
  | nil => intro accessor; cases accessor <;> simp [getBlocks, releaseAccessor, Prog.Follows]
  | cons id ids ih =>
    have hnone := ih none
    have hsome := ih (some id)
    simp only [Option.toList_none, Option.toList_some, List.map_nil, List.map_cons] at hnone hsome
    intro accessor
    cases accessor <;> simp [getBlocks, releaseAccessor, Prog.Follows, allowed, hnone, hsome]

theorem code_follows (useRocksdb : Bool) (task : Task) :
    (task.code useRocksdb).Follows allowed [] := by
  cases task with
  | voteBlocks ids =>
    show (voteBlocks ids).Follows allowed []
    induction ids with
    | nil => rfl
    | cons id ids ih => exact ⟨ih, recordVote_follows ih⟩
  | relayVote ids =>
    show (relayVote ids).Follows allowed []
    induction ids with
    | nil => rfl
    | cons id ids ih => exact ⟨ih, recordVote_follows ih⟩
  | relayBlock ids =>
    show (relayBlock ids).Follows allowed []
    induction ids with
    | nil => rfl
    | cons id ids ih => simp [relayBlock, insertPending, Prog.Follows, allowed, ih]
  | spBcastCommit ids =>
    show (spBcastCommit useRocksdb ids).Follows allowed []
    induction ids with
    | nil => rfl
    | cons id ids ih =>
      cases useRocksdb <;>
        simp [spBcastCommit, findPending, erasePending, putBlock, Prog.Follows, allowed, ih]
  | getBlocks ids => exact getBlocks_follows ids none
  | pullPendingBlocks => simp [Task.code, pullPendingBlocks, Prog.Follows, allowed]
  | packThread ids =>
    have hpack : (packBlock ids).Follows allowed [] := by
      induction ids with
      | nil => rfl
      | cons id ids ih => simp [packBlock, insertPending, Prog.Follows, allowed, ih]
    simp [Task.code, packThread, Prog.Follows, allowed, hpack]
  | mergeVotes ids =>
    show (mergeVotes ids).Follows allowed []
    induction ids with
    | nil => rfl
    | cons id ids ih => simp [mergeVotes, putBlock, Prog.Follows, allowed, ih]
  | countBlocks => simp [Task.code, countBlocks, Prog.Follows, allowed]

section Allowed

variable {held : List (Lock Mutex Elem × Mode)} {l : Lock Mutex Elem} {m m' : Mode} {id : ℕ}

/-- A waiting thread shares `pb_sm_1` or has elements locked, nothing else. -/
theorem holds_of_allowed (h : allowed held l m) {x : Lock Mutex Elem × Mode} (hx : x ∈ held) :
    x = (.mutex .pbSm1, .shared) ∨ ∃ k m, x = (.elem k, m) := by
  unfold allowed at h
  split at h
  · simp [h] at hx
  · rcases h with h | ⟨id, _, h⟩ | ⟨id, h⟩ <;> simp [h] at hx
    · simp [hx]
    · rcases hx with rfl | rfl <;> simp
  · rcases h with ⟨id, h | h⟩ <;> simp [h] at hx
    · simp [hx]
    · rcases hx with rfl | rfl <;> simp
  · simp [h] at hx
    simp [hx]
  · rcases h with h | h <;> simp [h] at hx
    simp [hx]

theorem not_waiting_of_dbMutex (h : allowed held l m) : (.mutex .dbMutex, m') ∉ held := by
  intro hm
  rcases holds_of_allowed h hm with he | ⟨k, m, he⟩ <;> cases he

theorem not_waiting_of_exclusive (h : allowed held l m) : (.mutex .pbSm1, .exclusive) ∉ held := by
  intro hm
  rcases holds_of_allowed h hm with he | ⟨k, m, he⟩ <;> cases he

/-- With `pb_sm_1` locked, a thread waits for elements of `pending_blks` only. -/
theorem waits_pending (h : allowed held l m) (hm : (.mutex .pbSm1, m') ∈ held) :
    ∃ id, l = .elem (.pending id) := by
  unfold allowed at h
  split at h
  · simp [h] at hm
  · rcases h with h | ⟨id, _, h⟩ | ⟨id, h⟩ <;> simp [h] at hm
  · rcases h with ⟨id, h | h⟩ <;> simp [h] at hm
  · exact ⟨_, rfl⟩
  · rcases h with h | h <;> simp [h] at hm

/-- A thread that waits with an element of `committed_blks` has the same block locked in
`pending_blks`, unless it waits for the database. -/
theorem waits_of_committed (h : allowed held l m) (hm : (.elem (.committed id), m') ∈ held) :
    l = .mutex .dbMutex ∨ l = .mutex .pbSm1 ∧ (.elem (.pending id), .exclusive) ∈ held := by
  unfold allowed at h
  split at h
  · simp [h] at hm
  · rcases h with h | ⟨id, _, h⟩ | ⟨id, h⟩ <;> simp [h] at hm
    right
    simp [h, hm]
  · exact .inl rfl
  · simp [h] at hm
  · rcases h with h | h <;> simp [h] at hm

theorem waits_of_pending (h : allowed held l m) (hm : (.elem (.pending id), m') ∈ held) :
    l = .mutex .dbMutex ∨ l = .mutex .pbSm1 ∧ m = .shared ∨ l = .elem (.committed id) := by
  unfold allowed at h
  split at h
  · simp [h] at hm
  · exact .inr (.inl ⟨rfl, rfl⟩)
  · exact .inl rfl
  · simp [h] at hm
  · rcases h with h | h <;> simp [h] at hm
    simp [hm]

end Allowed

/-! ## Deadlocks -/

variable {useRocksdb : Bool} {policy : Policy} {σ σ' : State Mutex Elem} {action : Action Task}

/-- The thread of `a` holds the element that `b` waits for, and waits for `pb_sm_1` itself, behind
the exclusive request `w`; the thread of `b` has `pb_sm_1` locked. -/
structure Jam (policy : Policy) (σ : State Mutex Elem) (a w b x : ServerAccess) : Prop where
  behind : [w, a].Sublist σ.queue
  yields : a.yields policy.prio w = true
  wanted : b ∈ σ.queue
  pending : ∃ id, b.lock = .elem (.pending id)
  held : x ∈ σ.held
  holder : x.thread = a.thread
  conflicts : b.conflicts x = true

theorem yields_iff {a w : ServerAccess} : a.yields policy.prio w = true ↔
    policy = .writersFirst ∧ a.lock = .mutex .pbSm1 ∧ a.mode = .shared ∧ w.lock = .mutex .pbSm1 ∧
      w.mode = .exclusive := by
  obtain ⟨t, l, m⟩ := a
  cases l with
  | elem => simp [Access.yields]
  | mutex l => cases l <;> cases policy <;> simp [Access.yields, Policy.prio]; tauto

theorem Jam.deadlocked (hok : σ.Ok allowed) {a w b x : ServerAccess} (h : Jam policy σ a w b x) :
    Deadlocked policy.prio σ {a.thread, w.thread, b.thread} where
  nonempty := ⟨a.thread, by simp⟩
  waits t ht := by
    obtain ⟨-, -, -, hw, hm⟩ := yields_iff.mp h.yields
    have hqa : a ∈ σ.queue := h.behind.subset (by simp)
    have hqw : w ∈ σ.queue := h.behind.subset (by simp)
    rcases ht with rfl | rfl | rfl
    · exact ⟨a, hqa, rfl, w, .inr ⟨h.behind, h.yields⟩, by simp⟩
    · refine ⟨w, hqw, rfl, ⟨b.thread, .mutex .pbSm1, .shared⟩, .inl ⟨?_, ?_⟩, by simp⟩
      · obtain ⟨id, hid⟩ := h.pending
        have hall := hok.allowed_of_mem h.wanted
        rw [hid] at hall
        refine State.mem_heldBy.mp ?_
        rw [show σ.heldBy b.thread = _ from hall]
        exact List.mem_singleton_self _
      · simp [Access.conflicts, hw, hm]
    · exact ⟨b, h.wanted, rfl, x, .inl ⟨h.held, h.conflicts⟩, by simp [h.holder]⟩

namespace Deadlocked

variable {S : Set ℕ} (hok : σ.Ok allowed) (h : Deadlocked policy.prio σ S) {r : ServerAccess}

include hok h

/-- A member that does not wait for `pb_sm_1` waits for a lock that a waiting member holds. -/
theorem holder_waits (hr : r ∈ σ.queue) (ht : r.thread ∈ S) (hl : ¬ (r.lock = .mutex .pbSm1 ∧
    r.mode = .shared)) : ∃ x ∈ σ.held, r.conflicts x = true ∧ x.lock = r.lock ∧
      ∃ r' ∈ σ.queue, r'.thread = x.thread ∧ x.thread ∈ S ∧
        (r.lock, x.mode) ∈ σ.heldBy r'.thread ∧ allowed (σ.heldBy r'.thread) r'.lock r'.mode := by
  obtain ⟨x, hx, hS⟩ := h.blocked hok hr ht
  rcases hx with ⟨hx, hc⟩ | ⟨-, hy⟩
  · have hlock : x.lock = r.lock := by
      simp only [Access.conflicts, Bool.and_eq_true, decide_eq_true_eq] at hc
      exact hc.1
    obtain ⟨r', hr', hthread, -⟩ := h.waits _ hS
    refine ⟨x, hx, hc, hlock, r', hr', hthread, hS, ?_, hok.allowed_of_mem hr'⟩
    rw [State.mem_heldBy, hthread, ← hlock]
    exact hx
  · obtain ⟨-, h1, h2, -⟩ := yields_iff.mp hy
    exact absurd ⟨h1, h2⟩ hl

theorem not_dbMutex (hr : r ∈ σ.queue) (ht : r.thread ∈ S) : r.lock ≠ .mutex .dbMutex := by
  intro hl
  obtain ⟨x, -, -, -, r', -, -, -, hm, hall⟩ := holder_waits hok h hr ht (by simp [hl])
  rw [hl] at hm
  exact not_waiting_of_dbMutex hall hm

/-- Behind an element of `committed_blks`, a member waits for `pb_sm_1` with the same element of
`pending_blks` locked. -/
theorem of_committed (hr : r ∈ σ.queue) (ht : r.thread ∈ S) {id : ℕ}
    (hl : r.lock = .elem (.committed id)) : ∃ r' ∈ σ.queue, r'.thread ∈ S ∧
      r'.lock = .mutex .pbSm1 ∧ ⟨r'.thread, .elem (.pending id), .exclusive⟩ ∈ σ.held := by
  obtain ⟨x, -, -, -, r', hr', hthread, hS, hm, hall⟩ := holder_waits hok h hr ht (by simp [hl])
  rw [hl] at hm
  rw [← hthread] at hS
  rcases waits_of_committed hall hm with hdb | ⟨hpb, hheld⟩
  · exact absurd hdb (not_dbMutex hok h hr' hS)
  · exact ⟨r', hr', hS, hpb, State.mem_heldBy.mp hheld⟩

/-- Behind an element of `pending_blks`, a member waits for `pb_sm_1`. -/
theorem of_pending (hr : r ∈ σ.queue) (ht : r.thread ∈ S) {id : ℕ}
    (hl : r.lock = .elem (.pending id)) : ∃ x ∈ σ.held, r.conflicts x = true ∧
      ∃ r' ∈ σ.queue, x.thread = r'.thread ∧ r'.thread ∈ S ∧ r'.lock = .mutex .pbSm1 ∧
        r'.mode = .shared := by
  obtain ⟨x, hx, hc, hlock, r', hr', hthread, hS, hm, hall⟩ :=
    holder_waits hok h hr ht (by simp [hl])
  rw [hl] at hm
  rw [← hthread] at hS
  rcases waits_of_pending hall hm with hdb | ⟨hpb, hshared⟩ | hcommitted
  · exact absurd hdb (not_dbMutex hok h hr' hS)
  · exact ⟨x, hx, hc, r', hr', hthread.symm, hS, hpb, hshared⟩
  · obtain ⟨r'', hr'', -, hpb, hheld⟩ := of_committed hok h hr' hS hcommitted
    have hsame : x.thread = r''.thread := hok.exclusive _ hheld x hx (hlock.trans hl) rfl
    have he := hok.request_unique hr' hr'' (hthread.trans hsame)
    rw [he, hpb] at hcommitted
    cases hcommitted

/-- Some member waits for `pb_sm_1`. -/
theorem exists_pbSm1 : ∃ r ∈ σ.queue, r.thread ∈ S ∧ r.lock = .mutex .pbSm1 := by
  obtain ⟨t, ht⟩ := h.nonempty
  obtain ⟨r, hr, rfl, -⟩ := h.waits t ht
  cases hl : r.lock with
  | mutex l =>
    cases l with
    | pbSm1 => exact ⟨r, hr, ht, hl⟩
    | dbMutex => exact absurd hl (not_dbMutex hok h hr ht)
  | elem k =>
    cases k with
    | pending id =>
      obtain ⟨-, -, -, r', hr', -, hS, hpb, -⟩ := of_pending hok h hr ht hl
      exact ⟨r', hr', hS, hpb⟩
    | committed id =>
      obtain ⟨r', hr', hS, hpb, -⟩ := of_committed hok h hr ht hl
      exact ⟨r', hr', hS, hpb⟩

/-- A member that wants to share `pb_sm_1` waits behind a member that wants it for itself. -/
theorem of_shared (hr : r ∈ σ.queue) (ht : r.thread ∈ S) (hl : r.lock = .mutex .pbSm1)
    (hm : r.mode = .shared) : ∃ w, w.thread ∈ S ∧ [w, r].Sublist σ.queue ∧
      r.yields policy.prio w = true := by
  obtain ⟨x, hx, hS⟩ := h.blocked hok hr ht
  rcases hx with ⟨hx, hc⟩ | ⟨hx, hy⟩
  · simp only [Access.conflicts, Bool.and_eq_true, decide_eq_true_eq, hl, hm, reduceCtorEq,
      Bool.or_eq_true, or_false] at hc
    obtain ⟨r', hr', hthread, -⟩ := h.waits _ hS
    have hheld : (.mutex .pbSm1, .exclusive) ∈ σ.heldBy r'.thread := by
      rw [State.mem_heldBy, hthread, ← hc.1, ← hc.2]
      exact hx
    exact absurd hheld (not_waiting_of_exclusive (hok.allowed_of_mem hr'))
  · exact ⟨x, hS, hx, hy⟩

theorem exists_jam : ∃ a w b x, Jam policy σ a w b x := by
  have hw : ∃ w ∈ σ.queue, w.thread ∈ S ∧ w.lock = .mutex .pbSm1 ∧ w.mode = .exclusive := by
    obtain ⟨r, hr, ht, hl⟩ := exists_pbSm1 hok h
    cases hm : r.mode with
    | exclusive => exact ⟨r, hr, ht, hl, hm⟩
    | shared =>
      obtain ⟨w, hS, hsub, hy⟩ := of_shared hok h hr ht hl hm
      obtain ⟨-, -, -, hwl, hwm⟩ := yields_iff.mp hy
      exact ⟨w, hsub.subset (by simp), hS, hwl, hwm⟩
  obtain ⟨w, hqw, hSw, hwl, hwm⟩ := hw
  obtain ⟨_, _, _, _, b, hqb, hthread, hSb, hheld, hall⟩ :=
    holder_waits hok h hqw hSw (by simp [hwm])
  rw [hwl] at hheld
  rw [← hthread] at hSb
  obtain ⟨id, hid⟩ := waits_pending hall hheld
  obtain ⟨x, hx, hc, a, hqa, hxa, hSa, hal, ham⟩ := of_pending hok h hqb hSb hid
  obtain ⟨w', -, hsub, hy⟩ := of_shared hok h hqa hSa hal ham
  exact ⟨a, w', b, x, hsub, hy, hqb, ⟨id, hid⟩, hx, hxa, hc⟩

end Deadlocked

/-! ## Runs -/

def isPending : Lock Mutex Elem → Bool
  | .elem (.pending _) => true
  | _ => false

/-- The request that closes a jam: for `pb_sm_1`, when an exclusive request waits and a find or an
insert waits for an element that the thread holds; or for an element whose holder waits for
`pb_sm_1` behind an exclusive request. -/
def closes (policy : Policy) (σ : State Mutex Elem) : Action Task → Bool
  | .ask t =>
    match (σ.prog t).request with
    | some (.mutex l, m) =>
      σ.queue.any (fun w => (⟨t, .mutex l, m⟩ : ServerAccess).yields policy.prio w) &&
        σ.queue.any fun b => isPending b.lock && σ.held.any fun x => x.thread = t && b.conflicts x
    | some (.elem (.pending id), m) =>
      σ.queue.any fun a =>
        σ.queue.any (fun w => a.yields policy.prio w && decide ([w, a].Sublist σ.queue)) &&
        σ.held.any fun x => x.thread = a.thread &&
          (⟨t, .elem (.pending id), m⟩ : ServerAccess).conflicts x
    | _ => false
  | _ => false

/-- If waiting writers do not block new readers, no request does. -/
theorem closes_readersFirst (σ : State Mutex Elem) (action : Action Task) :
    closes .readersFirst σ action = false := by
  have hno : ∀ a w : ServerAccess, a.yields Policy.readersFirst.prio w = false := by
    intro a w
    refine Bool.eq_false_iff.mpr fun h => ?_
    cases (yields_iff.mp h).1
  unfold closes
  split
  · split <;> simp [hno]
  · rfl

theorem Jam.mono {a w b x : ServerAccess} (h : Jam policy σ' a w b x)
    (hq : σ'.queue.Sublist σ.queue)
    (hx : x ∈ σ'.held → a ∈ σ'.queue → x.thread = a.thread → x ∈ σ.held) :
    Jam policy σ a w b x where
  behind := h.behind.trans hq
  yields := h.yields
  wanted := hq.subset h.wanted
  pending := h.pending
  held := hx h.held (h.behind.subset (by simp)) h.holder
  holder := h.holder
  conflicts := h.conflicts

theorem Jam.of_step {code : Task → ServerProg} (hok : σ.Ok allowed)
    (hs : Steps code policy.prio σ action σ') {a w b x : ServerAccess} (h : Jam policy σ' a w b x) :
    Jam policy σ a w b x ∨ closes policy σ action = true := by
  cases hs with
  | enter | choose => exact .inl (h.mono (List.Sublist.refl _) fun hx _ _ => hx)
  | unlock | erase =>
    exact .inl (h.mono (List.Sublist.refl _) fun hx _ _ => List.mem_of_mem_filter hx)
  | miss => exact .inl (h.mono List.filter_sublist fun hx _ _ => hx)
  | grant r next elements _ _ _ hr _ =>
    refine .inl (h.mono List.filter_sublist fun hx ha he => ?_)
    rcases List.mem_append.mp hx with hx | hx
    · exact hx
    · rw [List.mem_singleton.mp hx] at he
      obtain ⟨hqa, hne⟩ := List.mem_filter.mp ha
      exact absurd (hok.request_unique hr hqa he).symm (of_decide_eq_true hne)
  | ask t l m hreq _ =>
    obtain ⟨id, hid⟩ := h.pending
    have hxa : x.thread = a.thread := h.holder
    rcases pair_sublist_append h.behind with hbehind | ⟨hw, ha⟩
    · rcases List.mem_append.mp h.wanted with hb | hb
      · exact .inl ⟨hbehind, h.yields, hb, h.pending, h.held, hxa, h.conflicts⟩
      · right
        have he := List.mem_singleton.mp hb
        have hc := h.conflicts
        rw [he] at hid hc
        cases hid
        simp only [closes, hreq, List.any_eq_true, Bool.and_eq_true, decide_eq_true_eq]
        exact ⟨a, hbehind.subset (by simp), ⟨w, hbehind.subset (by simp), h.yields, hbehind⟩, x,
          h.held, hxa, hc⟩
    · right
      obtain ⟨-, hal, -⟩ := yields_iff.mp h.yields
      have hy := h.yields
      rw [ha] at hal hy hxa
      cases hal
      have hb : b ∈ σ.queue := by
        rcases List.mem_append.mp h.wanted with hb | hb
        · exact hb
        · rw [List.mem_singleton.mp hb] at hid
          cases hid
      simp only [closes, hreq, List.any_eq_true, Bool.and_eq_true, decide_eq_true_eq]
      exact ⟨⟨w, hw, hy⟩, b, hb, by rw [hid]; rfl, x, h.held, hxa, h.conflicts⟩

theorem Jam.of_closes {code : Task → ServerProg} (hs : Steps code policy.prio σ action σ')
    (h : closes policy σ action = true) : ∃ a w b x, Jam policy σ' a w b x := by
  cases hs with
  | ask t l m hreq _ =>
    simp only [closes, hreq] at h
    split at h
    · rename_i l' m' he
      cases he
      simp only [List.any_eq_true, Bool.and_eq_true, decide_eq_true_eq] at h
      obtain ⟨⟨w, hw, hy⟩, b, hb, hpending, x, hx, ht, hc⟩ := h
      refine ⟨⟨t, .mutex l', m⟩, w, b, x, ?_, hy, List.mem_append_left _ hb, ?_, hx, ht, hc⟩
      · exact (List.singleton_sublist.mpr hw).append (List.Sublist.refl [_])
      · unfold isPending at hpending
        split at hpending
        · exact ⟨_, ‹_›⟩
        · cases hpending
    · rename_i id m' he
      cases he
      simp only [List.any_eq_true, Bool.and_eq_true, decide_eq_true_eq] at h
      obtain ⟨a, -, ⟨w, -, hy, hsub⟩, x, hx, ht, hc⟩ := h
      exact ⟨a, w, _, x, hsub.trans (List.sublist_append_left _ _), hy,
        List.mem_append_right _ (List.mem_singleton_self _), ⟨id, rfl⟩, hx, ht, hc⟩
    · cases h
  | _ => cases h

theorem ok_of_reached {guard : State Mutex Elem → Action Task → Prop}
    (h : Run (step (Task.code useRocksdb) policy.prio) guard .init σ) : σ.Ok allowed :=
  ok_of_run (code_follows useRocksdb) h

theorem not_deadlocked_of_run
    (h : Run (step (Task.code useRocksdb) policy.prio) (fun σ a => closes policy σ a = false) .init σ) :
    ¬ ∃ S, Deadlocked policy.prio σ S := by
  have hjam : ∀ a w b x, ¬ Jam policy σ a w b x := by
    refine h.invariant (fun σ => ∀ a w b x, ¬ Jam policy σ a w b x) (fun a w b x hjam => ?_)
      fun σ action σ' hr hopen ih hs a w b x hjam => ?_
    · cases hjam.wanted
    · rcases hjam.of_step (ok_of_reached hr) (steps_of_step hs) with hold | hcloses
      · exact ih a w b x hold
      · rw [hopen] at hcloses
        cases hcloses
  rintro ⟨S, hS⟩
  obtain ⟨a, w, b, x, hj⟩ := Deadlocked.exists_jam (ok_of_reached h) hS
  exact hjam a w b x hj

/-- A state of a run has no deadlock exactly if no request has closed a jam. -/
theorem not_deadlocked_iff (useRocksdb : Bool) (policy : Policy) (σ : State Mutex Elem)
    (h : Run (step (Task.code useRocksdb) policy.prio) (fun _ _ => True) .init σ) :
    (¬ ∃ S, Deadlocked policy.prio σ S) ↔
      Run (step (Task.code useRocksdb) policy.prio) (fun σ a => closes policy σ a = false) .init σ := by
  refine ⟨fun hno => ?_, not_deadlocked_of_run⟩
  induction h with
  | refl => exact .refl
  | @next σ σ' action hr _ hs ih =>
    have hok : σ.Ok allowed := ok_of_reached hr
    have hok' : σ'.Ok allowed := hok.step (code_follows useRocksdb) (steps_of_step hs)
    have hbefore : ¬ ∃ S, Deadlocked policy.prio σ S := by
      rintro ⟨S, hS⟩
      exact hno ⟨S, hS.step hok (steps_of_step hs)⟩
    have hopen : closes policy σ action = false := by
      refine Bool.eq_false_iff.mpr fun hcloses => ?_
      obtain ⟨a, w, b, x, hj⟩ := Jam.of_closes (steps_of_step hs) hcloses
      exact hno ⟨_, hj.deadlocked hok'⟩
    exact .next action (ih hbefore) hopen hs

/-- If waiting writers do not block new readers, there is no deadlock. -/
theorem not_deadlocked_readersFirst {guard : State Mutex Elem → Action Task → Prop}
    (h : Run (step (Task.code useRocksdb) Policy.readersFirst.prio) guard .init σ) :
    ¬ ∃ S, Deadlocked Policy.readersFirst.prio σ S :=
  not_deadlocked_of_run (h.mono fun σ a _ => closes_readersFirst σ a)

namespace Script

def take (t : ℕ) : List (Action Task) := [.ask t, .grant t]

/-- Block 5 is packed. A vote takes it up, a client asks for it and waits with `pb_sm_1` locked, and
the timer waits for `pb_sm_1`. -/
def crowd : List (Action Task) :=
  List.flatten [
    [.enter 0 (.packThread [5])], take 0, [.release 0], take 0, take 0, [.release 0, .release 0],
    [.enter 1 (.voteBlocks [5]), .choose 1 false], take 1, take 1, [.release 1],
    [.enter 2 (.getBlocks [5])], take 2, [.ask 2],
    [.enter 3 .countBlocks, .ask 3]]

end Script

theorem not_deadlocked_crowd : ∃ σ : State Mutex Elem,
    Run (step (Task.code true) Policy.writersFirst.prio) (fun _ _ => True) .init σ ∧
    σ.queue = [⟨2, .elem (.pending 5), .shared⟩, ⟨3, .mutex .pbSm1, .exclusive⟩] ∧
    ¬ ∃ S, Deadlocked Policy.writersFirst.prio σ S := by
  obtain ⟨σ, hr, hσ⟩ := Run.exists_of_exec (fun _ _ h => h)
    (show (exec (step (Task.code true) Policy.writersFirst.prio)
      (fun σ a => !closes .writersFirst σ a) .init Script.crowd).any
      (fun σ => σ.queue == [⟨2, .elem (.pending 5), .shared⟩, ⟨3, .mutex .pbSm1, .exclusive⟩]) = true
      by decide +kernel)
  have hr' : Run (step (Task.code true) Policy.writersFirst.prio)
      (fun σ a => closes .writersFirst σ a = false) .init σ :=
    hr.mono fun σ a h => by simpa using h
  exact ⟨σ, hr'.mono fun _ _ _ => trivial, by simpa using hσ,
    (not_deadlocked_iff true .writersFirst σ (hr'.mono fun _ _ _ => trivial)).mpr hr'⟩

/-- The vote is the last one for the block, which is to be erased from `pending_blks`. -/
theorem exists_deadlock : ∃ σ : State Mutex Elem,
    Run (step (Task.code true) Policy.writersFirst.prio) (fun _ _ => True) .init σ ∧
    Deadlocked Policy.writersFirst.prio σ {1, 2, 3} := by
  obtain ⟨σ, hr, hσ⟩ := Run.exists_of_exec (fun _ _ _ => trivial)
    (show (exec (step (Task.code true) Policy.writersFirst.prio) (fun _ _ => true) .init
      (Script.crowd ++ [.choose 1 true, .ask 1])).any
      (fun σ => σ.queue == [⟨2, .elem (.pending 5), .shared⟩, ⟨3, .mutex .pbSm1, .exclusive⟩,
          ⟨1, .mutex .pbSm1, .shared⟩] &&
        (σ.held == [⟨1, .elem (.pending 5), .exclusive⟩, ⟨2, .mutex .pbSm1, .shared⟩])) = true
      by decide +kernel)
  simp only [Bool.and_eq_true, beq_iff_eq] at hσ
  obtain ⟨hqueue, hheld⟩ := hσ
  refine ⟨σ, hr, ⟨⟨1, by simp⟩, fun t ht => ?_⟩⟩
  rcases ht with rfl | rfl | rfl
  · refine ⟨⟨1, .mutex .pbSm1, .shared⟩, by simp [hqueue], rfl, ⟨3, .mutex .pbSm1, .exclusive⟩,
      .inr ⟨?_, by decide⟩, by simp⟩
    rw [hqueue]
    decide
  · exact ⟨⟨2, .elem (.pending 5), .shared⟩, by simp [hqueue], rfl,
      ⟨1, .elem (.pending 5), .exclusive⟩, .inl ⟨by simp [hheld], by decide⟩, by simp⟩
  · exact ⟨⟨3, .mutex .pbSm1, .exclusive⟩, by simp [hqueue], rfl,
      ⟨2, .mutex .pbSm1, .shared⟩, .inl ⟨by simp [hheld], by decide⟩, by simp⟩

end TomChain.ServerLocks
