import TomChain.Lib.Runs
import TomChain.Server.DistTime

/-!
# What a client is offered

A server with the calls of `PullPendingBlocks` that one client has made, one after the other.
Between their steps anything can happen on the server: its threads go on, calls return, and the
handlers of other requests run, among them those of other clients.
-/

namespace TomChain

open Std (ExtTreeMap ExtTreeSet)
open Runs
open Flexbuffers (Flex headerToBytes headerFromBytes)

variable {G : Type} {cfg : Config} {merge : List (BLSSigShare G) → BLSSignature G} {s c d : ℕ}

def Rpc.headers : Rpc G → List BlockHeader
  | .pullPendingBlocks _ _ pbHdrs => pbHdrs.map headerFromBytes
  | _ => []

def Rpc.isPullOf (c : ℕ) : Rpc G → Bool
  | .pullPendingBlocks id _ _ => id = c
  | _ => false

/-- A call of the client: the handler, and what was pending and labelled when it copied
`pending_blks`. -/
structure Pull (G : Type) where
  pending : List ℕ
  labels : ExtTreeSet ℕ
  rpc : Rpc G

def Pull.ids (pull : Pull G) : List ℕ := pull.rpc.headers.map fun bh => bh.id

/-- A server and the calls that the client has made so far, the last one first. -/
structure Offers (G : Type) where
  srv : Server G
  pulls : List (Pull G)

inductive OfferAction (G : Type) where
  | begin (order : List (ℕ × ℕ))
  | item (now : ℕ)
  | act (a : ServerAction)
  | resume (ch : Chan)
  | handle (now : ℕ) (order : List (ℕ × ℕ)) (rpc : Rpc G)

/-- A new call begins when all the calls before it are answered. -/
def offerStep (cfg : Config) (merge : List (BLSSigShare G) → BLSSignature G) (s c : ℕ) (x : Offers G) :
    OfferAction G → Option (Offers G)
  | .begin order =>
    if x.pulls.all fun pull => pull.rpc.finished then
      (x.srv.handle cfg s 0 order (.pullPendingBlocks c none [])).map fun r =>
        ⟨r.1, ⟨x.srv.pendingBlks.keys, x.srv.pbSyncLabels, r.2⟩ :: x.pulls⟩
    else none
  | .item now =>
    match x.pulls with
    | [] => none
    | pull :: older =>
      (x.srv.handle cfg s now [] pull.rpc).map fun r => ⟨r.1, { pull with rpc := r.2 } :: older⟩
  | .act a => (x.srv.act cfg merge s a).map fun r => { x with srv := r.1 }
  | .resume ch => (x.srv.resumeSend ch).map fun srv => { x with srv := srv }
  | .handle now order rpc =>
    if rpc.isPullOf c then none
    else (x.srv.handle cfg s now order rpc).map fun r => { x with srv := r.1 }

/-! ## Steps that are not the client's -/

namespace Server

variable {srv srv' : Server G}

theorem Acts.clients {a : ServerAction} {out : Option (ℕ × Rpc G)}
    (h : srv.Acts cfg merge s a srv' out) : srv'.clients = srv.clients := by
  cases h with
  | sendPop ch t items ids rest srv'' item ids' _ hpop => cases hpop <;> rfl
  | reap id now =>
    rcases reap_eq cfg srv id now with h | ⟨-, h⟩ <;> rw [h]
  | _ => rfl

theorem clients_resumeSend {ch : Chan} (h : srv.resumeSend ch = some srv') :
    srv'.clients = srv.clients := by
  rcases resumeSend_eq h with ⟨_, _, _, -, rfl⟩ | ⟨_, _, _, -, rfl⟩ <;> rfl

theorem Records.clients {id k : ℕ} {v : BlockVote G} (h : srv.Records cfg id k v srv') :
    srv'.clients = srv.clients := by
  cases h <;> rfl

theorem pullItem_cases {now id p : ℕ} {b : Block G} {hdrs : List (Flex G)}
    {seen : ExtTreeMap ℕ BlockHeader} (hseen : srv.clients[c]? = some seen)
    (h : srv.pullItem c now id p b = some (srv', hdrs)) :
    (srv' = srv ∧ hdrs = [] ∧ (id ∉ srv.pbSyncLabels ∨ b.header.id ∈ seen)) ∨
      (id ∈ srv.pbSyncLabels ∧ b.header.id ∉ seen ∧ hdrs = [headerToBytes b.header] ∧
        srv' = { srv.modifyBlock p (·.stampDist now) with
          clients := srv.clients.insert c (seen.insertIfNew b.header.id b.header) }) := by
  unfold pullItem at h
  rw [hseen] at h
  split at h
  · rename_i hl
    dsimp only at h
    split at h
    · rename_i hs; cases h; exact .inl ⟨rfl, rfl, .inr hs⟩
    · rename_i hs; cases h; exact .inr ⟨hl, hs, rfl, rfl⟩
  · rename_i hl; cases h; exact .inl ⟨rfl, rfl, .inl hl⟩

theorem pullItem_ne_none {now id p : ℕ} {b : Block G} {seen : ExtTreeMap ℕ BlockHeader}
    (hseen : srv.clients[c]? = some seen) : srv.pullItem c now id p b ≠ none := by
  unfold pullItem
  rw [hseen]
  split
  · dsimp only
    split <;> exact Option.some_ne_none _
  · exact Option.some_ne_none _

theorem pullItem_old {now id p : ℕ} {b : Block G} {seen : ExtTreeMap ℕ BlockHeader}
    (hseen : srv.clients[c]? = some seen) (hold : id ∉ srv.pbSyncLabels ∨ b.header.id ∈ seen) :
    srv.pullItem c now id p b = some (srv, []) := by
  unfold pullItem
  rw [hseen]
  split
  · rename_i hl
    exact if_pos (hold.resolve_left (not_not_intro hl))
  · rfl

theorem pullItem_new (now p : ℕ) {id : ℕ} {b : Block G} {seen : ExtTreeMap ℕ BlockHeader}
    (hseen : srv.clients[c]? = some seen) (hl : id ∈ srv.pbSyncLabels) (hnew : b.header.id ∉ seen) :
    srv.pullItem c now id p b = some ({ srv.modifyBlock p (·.stampDist now) with
        clients := srv.clients.insert c (seen.insertIfNew b.header.id b.header) },
      [headerToBytes b.header]) := by
  unfold pullItem
  rw [hseen, if_pos hl]
  exact if_neg hnew

/-- The profile of a client is written by the calls of this client only. -/
theorem Handles.clients {now : ℕ} {rpc rpc' : Rpc G} (h : srv.Handles cfg s now rpc srv' rpc')
    (hrpc : rpc.isPullOf c = false) : srv'.clients[c]? = srv.clients[c]? := by
  cases h with
  | relayVote item rest vote _ =>
    unfold relayVoteItem
    split
    · rfl
    · rw [(records_recordVote ..).clients]
  | spBcastCommit item rest block _ =>
    rcases spBcastCommitItem_eq cfg srv now block with ⟨-, h⟩ | ⟨-, db, h⟩ <;> rw [h]
    rfl
  | pullItem id blockId p todo pbHdrs b _ hdrs hb hi =>
    have hne : ¬id = c := by simpa [Rpc.isPullOf] using hrpc
    cases hseen : srv.clients[id]? with
    | none =>
      unfold Server.pullItem at hi
      rw [hseen] at hi
      split at hi
      · cases hi
      · cases hi; rfl
    | some seen =>
      rcases pullItem_cases hseen hi with ⟨rfl, -, -⟩ | ⟨-, -, -, rfl⟩
      · rfl
      · simp [ExtTreeMap.getElem?_insert, hne]
  | record => rw [(records_recordVote ..).clients]
  | voteBlocks id item rest block _ current _ hi =>
    obtain ⟨queues, rfl⟩ := voteBlocksItem_eq hi
    rfl
  | _ => rfl

end Server

/-! ## Every block once -/

/-- One call: what it has offered and what it will go on with come from its snapshot. -/
structure Pull.Ok (c : ℕ) (srv : Server G) (pull : Pull G) : Prop where
  rpc : ∃ todo pbHdrs, pull.rpc = .pullPendingBlocks c (some todo) pbHdrs
  todo : ∀ x ∈ pull.rpc.snapshot, x.1 ∈ pull.pending ∧ srv.idAt x.2 = some x.1
  ids : ∀ id ∈ pull.ids, id ∈ pull.pending ∧ id ∈ srv.pbSyncLabels
  labels : ∀ id ∈ pull.labels, id ∈ srv.pbSyncLabels

/-- What was labelled in a snapshot is still to be handled or has been offered by then. -/
def Covered (pulls : List (Pull G)) : Prop :=
  ∀ newer pull older, pulls = newer ++ pull :: older → ∀ id ∈ pull.pending, id ∈ pull.labels →
    (∃ p, (id, p) ∈ pull.rpc.snapshot) ∨ ∃ q ∈ pull :: older, id ∈ q.ids

structure Offers.Ok (c : ℕ) (x : Offers G) : Prop where
  wf : x.srv.WF
  seen : ∃ seen, x.srv.clients[c]? = some seen ∧ ∀ id, id ∈ seen ↔ ∃ pull ∈ x.pulls, id ∈ pull.ids
  once : (x.pulls.flatMap Pull.ids).Nodup
  pulls : ∀ pull ∈ x.pulls, pull.Ok c x.srv
  covered : Covered x.pulls

theorem Pull.Ok.mono {srv srv' : Server G} {pull : Pull G} (h : pull.Ok c srv)
    (hid : ∀ p id, srv.idAt p = some id → srv'.idAt p = some id)
    (hl : ∀ id ∈ srv.pbSyncLabels, id ∈ srv'.pbSyncLabels) : pull.Ok c srv' where
  rpc := h.rpc
  todo x hx := ⟨(h.todo x hx).1, hid _ _ (h.todo x hx).2⟩
  ids id hi := ⟨(h.ids id hi).1, hl id (h.ids id hi).2⟩
  labels id hi := hl id (h.labels id hi)

/-- A step that is not the client's keeps the invariant. -/
theorem Offers.Ok.beside {x : Offers G} {srv' : Server G} (h : x.Ok c)
    (hm : x.srv.Moves cfg merge s srv') (hc : srv'.clients[c]? = x.srv.clients[c]?) :
    ({ x with srv := srv' } : Offers G).Ok c where
  wf := hm.wf h.wf
  seen := by
    dsimp only
    rw [hc]
    exact h.seen
  once := h.once
  pulls pull hp := (h.pulls pull hp).mono (fun _ _ => Server.idAt_grows hm.later.heap) hm.labels
  covered := h.covered

theorem Covered.begin {pulls : List (Pull G)} (h : Covered pulls) {pull : Pull G}
    (hp : ∀ id ∈ pull.pending, ∃ p, (id, p) ∈ pull.rpc.snapshot) : Covered (pull :: pulls) := by
  intro newer q older he id hid hl
  cases newer with
  | nil =>
    cases he
    exact .inl (hp id hid)
  | cons pull' newer =>
    cases he
    exact h newer q older rfl id hid hl

/-- The newest call goes on: what it has handled is offered, or was before, or was not labelled. -/
theorem Covered.item {pull pull' : Pull G} {older : List (Pull G)} (h : Covered (pull :: older))
    (hpending : pull'.pending = pull.pending) (hlabels : pull'.labels = pull.labels)
    (hids : ∀ id ∈ pull.ids, id ∈ pull'.ids)
    (hdone : ∀ id ∈ pull.labels, ∀ p, (id, p) ∈ pull.rpc.snapshot →
      (id, p) ∈ pull'.rpc.snapshot ∨ ∃ q ∈ pull' :: older, id ∈ q.ids) :
    Covered (pull' :: older) := by
  have hq : ∀ id, (∃ q ∈ pull :: older, id ∈ q.ids) → ∃ q ∈ pull' :: older, id ∈ q.ids := by
    rintro id ⟨q, hq, hid⟩
    rcases List.mem_cons.mp hq with rfl | hq
    · exact ⟨pull', List.mem_cons_self .., hids id hid⟩
    · exact ⟨q, List.mem_cons_of_mem _ hq, hid⟩
  intro newer q older' he id hid hl
  cases newer with
  | nil =>
    cases he
    rw [hpending] at hid
    rw [hlabels] at hl
    rcases h [] pull older rfl id hid hl with ⟨p, hp⟩ | ho
    · rcases hdone id hl p hp with hp | ho
      · exact .inl ⟨p, hp⟩
      · exact .inr ho
    · exact .inr (hq id ho)
  | cons q' newer =>
    cases he
    exact h (pull :: newer) q older' rfl id hid hl

theorem Offers.Ok.begin {x : Offers G} {order : List (ℕ × ℕ)} (h : x.Ok c)
    (horder : order.Perm x.srv.pendingBlks.toList) :
    (⟨x.srv, ⟨x.srv.pendingBlks.keys, x.srv.pbSyncLabels, .pullPendingBlocks c (some order) []⟩ ::
      x.pulls⟩ : Offers G).Ok c := by
  have hmem : ∀ id p, (id, p) ∈ order ↔ x.srv.pendingBlks[id]? = some p := by
    intro id p
    rw [horder.mem_iff, ExtTreeMap.mem_toList_iff_getElem?_eq_some]
  constructor
  · exact h.wf
  · obtain ⟨seen, hc, hseen⟩ := h.seen
    refine ⟨seen, hc, fun id => (hseen id).trans ?_⟩
    simp [Pull.ids, Rpc.headers]
  · simpa [Pull.ids, Rpc.headers] using h.once
  · intro pull hp
    rcases List.mem_cons.mp hp with rfl | hp
    · refine ⟨⟨order, [], rfl⟩, ?_, fun id hid => ?_, fun id hid => hid⟩
      · rintro ⟨id, p⟩ hx
        have hpend := (hmem id p).mp hx
        refine ⟨?_, h.wf.pending id p hpend⟩
        rw [ExtTreeMap.mem_keys, ExtTreeMap.mem_iff_isSome_getElem?, hpend]
        rfl
      · simp [Pull.ids, Rpc.headers] at hid
    · exact h.pulls pull hp
  · refine h.covered.begin fun id hid => ?_
    obtain ⟨p, hp⟩ := Option.isSome_iff_exists.mp
      (ExtTreeMap.mem_iff_isSome_getElem?.mp (ExtTreeMap.mem_keys.mp hid))
    exact ⟨p, (hmem id p).mpr hp⟩

theorem Offers.Ok.skip {srv : Server G} {pending : List ℕ} {labels : ExtTreeSet ℕ} {id p : ℕ}
    {todo : List (ℕ × ℕ)} {pbHdrs : List (Flex G)} {older : List (Pull G)}
    {seen : ExtTreeMap ℕ BlockHeader}
    (h : (⟨srv, ⟨pending, labels, .pullPendingBlocks c (some ((id, p) :: todo)) pbHdrs⟩ :: older⟩ :
      Offers G).Ok c) (hc : srv.clients[c]? = some seen) (hold : id ∉ srv.pbSyncLabels ∨ id ∈ seen) :
    (⟨srv, ⟨pending, labels, .pullPendingBlocks c (some todo) pbHdrs⟩ :: older⟩ : Offers G).Ok c := by
  have hpull := h.pulls _ (List.mem_cons_self ..)
  obtain ⟨seen', hc', hseen⟩ := h.seen
  rw [hc] at hc'
  cases hc'
  have hids : ∀ k, (∃ q ∈ (⟨pending, labels, .pullPendingBlocks c (some ((id, p) :: todo)) pbHdrs⟩ :
      Pull G) :: older, k ∈ q.ids) ↔
      ∃ q ∈ (⟨pending, labels, .pullPendingBlocks c (some todo) pbHdrs⟩ : Pull G) :: older,
        k ∈ q.ids := by
    intro k
    simp only [List.mem_cons, exists_eq_or_imp]
    exact Iff.rfl
  constructor
  · exact h.wf
  · exact ⟨seen, hc, fun k => (hseen k).trans (hids k)⟩
  · exact h.once
  · intro q hq
    rcases List.mem_cons.mp hq with rfl | hq
    · exact ⟨⟨todo, pbHdrs, rfl⟩, fun x hx => hpull.todo x (List.mem_cons_of_mem _ hx), hpull.ids,
        hpull.labels⟩
    · exact h.pulls q (List.mem_cons_of_mem _ hq)
  · refine h.covered.item rfl rfl (fun _ hk => hk) fun k hk p' hp' => ?_
    rcases List.mem_cons.mp hp' with he | hp'
    · cases he
      rcases hold with hunlabelled | hs
      · exact absurd (hpull.labels _ hk) hunlabelled
      · exact .inr ((hids _).mp ((hseen _).mp hs))
    · exact .inl hp'

theorem Offers.Ok.offer {srv srv' : Server G} {pending : List ℕ} {labels : ExtTreeSet ℕ} {p : ℕ}
    {todo : List (ℕ × ℕ)} {pbHdrs : List (Flex G)} {older : List (Pull G)} {bh : BlockHeader}
    {seen : ExtTreeMap ℕ BlockHeader}
    (h : (⟨srv, ⟨pending, labels, .pullPendingBlocks c (some ((bh.id, p) :: todo)) pbHdrs⟩ ::
      older⟩ : Offers G).Ok c) (hc : srv.clients[c]? = some seen) (hl : bh.id ∈ srv.pbSyncLabels)
    (hnew : bh.id ∉ seen) (hwf : srv'.WF) (hlater : srv.Later srv')
    (hc' : srv'.clients[c]? = some (seen.insertIfNew bh.id bh))
    (hl' : srv'.pbSyncLabels = srv.pbSyncLabels) :
    (⟨srv', ⟨pending, labels, .pullPendingBlocks c (some todo) (pbHdrs ++ [headerToBytes bh])⟩ ::
      older⟩ : Offers G).Ok c := by
  have hpull := h.pulls _ (List.mem_cons_self ..)
  obtain ⟨seen', hc₀, hseen⟩ := h.seen
  rw [hc] at hc₀
  cases hc₀
  have hgrow : ∀ p id, srv.idAt p = some id → srv'.idAt p = some id := fun _ _ =>
    Server.idAt_grows hlater.heap
  have hkeep : ∀ id ∈ srv.pbSyncLabels, id ∈ srv'.pbSyncLabels := by
    rw [hl']
    exact fun _ h => h
  have hids : (⟨pending, labels, .pullPendingBlocks c (some todo) (pbHdrs ++ [headerToBytes bh])⟩ :
      Pull G).ids = (⟨pending, labels, .pullPendingBlocks c (some ((bh.id, p) :: todo)) pbHdrs⟩ :
        Pull G).ids ++ [bh.id] := by
    simp [Pull.ids, Rpc.headers, Flexbuffers.headerFromBytes_toBytes]
  have hmem : ∀ k, (∃ q ∈ (⟨pending, labels, .pullPendingBlocks c (some todo)
      (pbHdrs ++ [headerToBytes bh])⟩ : Pull G) :: older, k ∈ q.ids) ↔ k = bh.id ∨ k ∈ seen := by
    intro k
    rw [hseen k]
    simp only [List.mem_cons, exists_eq_or_imp, hids, List.mem_append, List.not_mem_nil, or_false]
    tauto
  constructor
  · exact hwf
  · refine ⟨_, hc', fun k => ?_⟩
    rw [hmem k, ExtTreeMap.mem_insertIfNew, Nat.compare_eq_eq, eq_comm]
  · have honce := h.once
    have hfresh : bh.id ∉ (⟨pending, labels,
        .pullPendingBlocks c (some ((bh.id, p) :: todo)) pbHdrs⟩ :: older : List (Pull G)).flatMap
          Pull.ids := by
      rw [List.mem_flatMap]
      exact fun hex => hnew ((hseen _).mpr hex)
    rw [List.flatMap_cons] at honce hfresh ⊢
    rw [hids, List.append_assoc, List.singleton_append]
    exact List.nodup_middle.mpr (List.nodup_cons.mpr ⟨hfresh, honce⟩)
  · intro q hq
    rcases List.mem_cons.mp hq with rfl | hq
    · refine ⟨⟨todo, _, rfl⟩, fun x hx => ?_, fun id hid => ?_, fun id hid => hkeep id (hpull.labels id hid)⟩
      · have hx' := hpull.todo x (List.mem_cons_of_mem _ hx)
        exact ⟨hx'.1, hgrow _ _ hx'.2⟩
      · rw [hids, List.mem_append, List.mem_singleton] at hid
        rcases hid with hid | rfl
        · exact ⟨(hpull.ids id hid).1, hkeep id (hpull.ids id hid).2⟩
        · exact ⟨(hpull.todo _ (List.mem_cons_self ..)).1, hkeep _ hl⟩
    · exact (h.pulls q (List.mem_cons_of_mem _ hq)).mono hgrow hkeep
  · refine h.covered.item rfl rfl (fun id hid => ?_) fun k hk p' hp' => ?_
    · rw [hids]
      exact List.mem_append_left _ hid
    · rcases List.mem_cons.mp hp' with he | hp'
      · cases he
        exact .inr ((hmem _).mpr (.inl rfl))
      · exact .inl hp'

theorem Offers.Ok.item {x x' : Offers G} {now : ℕ} (h : x.Ok c)
    (hs : offerStep cfg merge s c x (.item now) = some x') : x'.Ok c := by
  obtain ⟨srv, pulls⟩ := x
  cases pulls with
  | nil => cases hs
  | cons pull older =>
    obtain ⟨⟨srv', rpc'⟩, hh, rfl⟩ := Option.map_eq_some_iff.mp hs
    obtain ⟨pending, labels, rpc⟩ := pull
    have hpull := h.pulls _ (List.mem_cons_self ..)
    obtain ⟨todo, pbHdrs, rfl⟩ := hpull.rpc
    obtain ⟨seen, hc, hseen⟩ := h.seen
    have hlater := (Server.handles_of_handle hh).later
    have hwf := (Server.handles_of_handle hh).wf h.wf
    cases Server.handles_of_handle hh with
    | pullUndefined id blockId p todo _ b hb hi => exact absurd hi (Server.pullItem_ne_none hc)
    | pullItem id blockId p todo _ b _ hdrs hb hi =>
      have hid : b.header.id = blockId := by
        have := (hpull.todo (blockId, p) (List.mem_cons_self ..)).2
        simpa [Server.idAt, hb] using this
      subst hid
      rcases Server.pullItem_cases hc hi with ⟨rfl, rfl, hold⟩ | ⟨hl, hnew, rfl, rfl⟩
      · rw [List.append_nil]
        refine h.skip hc ?_
        exact hold
      · exact h.offer hc hl hnew hwf hlater (by simp) rfl

theorem Offers.Ok.step {x x' : Offers G} {a : OfferAction G} (h : x.Ok c)
    (hs : offerStep cfg merge s c x a = some x') : x'.Ok c := by
  cases a with
  | begin order =>
    simp only [offerStep] at hs
    split at hs
    · obtain ⟨⟨srv', rpc'⟩, hh, rfl⟩ := Option.map_eq_some_iff.mp hs
      cases Server.handles_of_handle hh with
      | pullBegin id order pbHdrs hp => exact h.begin hp
    · cases hs
  | item now => exact h.item hs
  | act a =>
    obtain ⟨⟨srv', out⟩, ha, rfl⟩ := Option.map_eq_some_iff.mp hs
    have hacts := Server.acts_of_act ha
    exact h.beside (.act a out hacts) (by rw [hacts.clients])
  | resume ch =>
    obtain ⟨srv', hr, rfl⟩ := Option.map_eq_some_iff.mp hs
    have hmoves : x.srv.Moves cfg merge s srv' := .resume ch hr
    exact h.beside hmoves (by rw [Server.clients_resumeSend hr])
  | handle now order rpc =>
    simp only [offerStep] at hs
    split at hs
    · cases hs
    · rename_i hrpc
      obtain ⟨⟨srv', rpc'⟩, hh, rfl⟩ := Option.map_eq_some_iff.mp hs
      have hhandles := Server.handles_of_handle hh
      have hmoves : x.srv.Moves cfg merge s srv' := .handle now rpc rpc' hhandles
      exact h.beside hmoves (hhandles.clients (by simpa using hrpc))

/-! ## The calls of another client -/

def OfferAction.isPullOf (d : ℕ) : OfferAction G → Bool
  | .handle _ _ rpc => rpc.isPullOf d
  | _ => false

/-- What the client has of a call: the ids that were pending, the headers up to the time of their
first distribution, and whether it is answered. -/
def Pull.answer (pull : Pull G) : List ℕ × List BlockHeader × Bool :=
  (pull.pending, pull.rpc.headers.map BlockHeader.undist, pull.rpc.finished)

structure Pull.Alike (c : ℕ) (pull pull' : Pull G) : Prop where
  pending : pull.pending = pull'.pending
  labels : pull.labels = pull'.labels
  rpc : ∃ todo pbHdrs pbHdrs', pull.rpc = .pullPendingBlocks c (some todo) pbHdrs ∧
    pull'.rpc = .pullPendingBlocks c (some todo) pbHdrs' ∧
    pull.rpc.headers.map BlockHeader.undist = pull'.rpc.headers.map BlockHeader.undist

structure Offers.Alike (c : ℕ) (x y : Offers G) : Prop where
  core : x.srv.core = y.srv.core
  seen : ∃ seen seen', x.srv.clients[c]? = some seen ∧ y.srv.clients[c]? = some seen' ∧
    ∀ id, id ∈ seen ↔ id ∈ seen'
  pulls : List.Forall₂ (Pull.Alike c) x.pulls y.pulls

theorem Pull.Alike.finished {pull pull' : Pull G} (h : pull.Alike c pull') :
    pull.rpc.finished = pull'.rpc.finished := by
  obtain ⟨todo, pbHdrs, pbHdrs', hp, hp', -⟩ := h.rpc
  rw [hp, hp']
  rfl

theorem Pull.Alike.answer {pull pull' : Pull G} (h : pull.Alike c pull') :
    pull.answer = pull'.answer := by
  obtain ⟨todo, pbHdrs, pbHdrs', -, -, hheaders⟩ := h.rpc
  rw [Pull.answer, Pull.answer, h.pending, hheaders, h.finished]

theorem answers_eq {pulls pulls' : List (Pull G)} (h : List.Forall₂ (Pull.Alike c) pulls pulls') :
    pulls.map Pull.answer = pulls'.map Pull.answer := by
  induction h with
  | nil => rfl
  | cons hp _ ih => rw [List.map_cons, List.map_cons, hp.answer, ih]

theorem finished_eq {pulls pulls' : List (Pull G)} (h : List.Forall₂ (Pull.Alike c) pulls pulls') :
    (pulls.all fun pull => pull.rpc.finished) = pulls'.all fun pull => pull.rpc.finished := by
  induction h with
  | nil => rfl
  | cons hp _ ih => rw [List.all_cons, List.all_cons, hp.finished, ih]

/-- A server with the same core takes the same step. -/
theorem exists_of_core {α β : Type} {f : Option α} {g : Option β} {p : α → Server G}
    {q : β → Server G} (h : f.map p = g.map q) {r : α} (hf : f = some r) :
    ∃ r', g = some r' ∧ p r = q r' := by
  rw [hf] at h
  obtain ⟨r', hr', he⟩ := Option.map_eq_some_iff.mp h.symm
  exact ⟨r', hr', he.symm⟩

theorem Offers.Alike.beside {x y : Offers G} {srv' srv'' : Server G} (h : x.Alike c y)
    (hcore : srv'.core = srv''.core) (hx : srv'.clients[c]? = x.srv.clients[c]?)
    (hy : srv''.clients[c]? = y.srv.clients[c]?) :
    (⟨srv', x.pulls⟩ : Offers G).Alike c ⟨srv'', y.pulls⟩ where
  core := hcore
  seen := by
    dsimp only
    rw [hx, hy]
    exact h.seen
  pulls := h.pulls

/-- A pull of another client shows in nothing that this client's calls depend on. -/
theorem Offers.Alike.hide {x x' y : Offers G} {a : OfferAction G}
    (ha : a.isPullOf d = true) (hs : offerStep cfg merge s c x a = some x') (h : x.Alike c y) :
    x'.Alike c y := by
  cases a with
  | handle now order rpc =>
    simp only [offerStep] at hs
    split at hs
    · cases hs
    · rename_i hrpc
      obtain ⟨r, hr, rfl⟩ := Option.map_eq_some_iff.mp hs
      have hc : r.1.clients[c]? = x.srv.clients[c]? :=
        (Server.handles_of_handle hr).clients (by simpa using hrpc)
      cases rpc with
      | pullPendingBlocks id shadowPb pbHdrs =>
        exact h.beside ((Server.core_handle_pull hr).trans h.core) hc rfl
      | _ => cases ha
  | _ => cases ha

theorem Offers.Alike.item {x x' y : Offers G} {now : ℕ} (h : x.Alike c y)
    (hs : offerStep cfg merge s c x (.item now) = some x') :
    ∃ y', offerStep cfg merge s c y (.item now) = some y' ∧ x'.Alike c y' := by
  obtain ⟨srv, pulls⟩ := x
  obtain ⟨srv', pulls'⟩ := y
  have hpulls : List.Forall₂ (Pull.Alike c) pulls pulls' := h.pulls
  cases hpulls with
  | nil => cases hs
  | @cons pull pull' older older' hp hrest =>
    obtain ⟨pending, labels, rpc⟩ := pull
    obtain ⟨pending', labels', rpc'⟩ := pull'
    obtain ⟨hpending, hlabels, todo, pbHdrs, pbHdrs', hrpc, hrpc', hheaders⟩ := hp
    dsimp only at hpending hlabels hrpc hrpc' hheaders
    subst hpending hlabels hrpc hrpc'
    have hlabels : srv'.pbSyncLabels = srv.pbSyncLabels := by
      simpa using congrArg Server.pbSyncLabels h.core.symm
    obtain ⟨seen, seen', hc, hc', hseen⟩ := h.seen
    obtain ⟨⟨srv₁, rpc₁⟩, hr, rfl⟩ := Option.map_eq_some_iff.mp hs
    cases Server.handles_of_handle hr with
    | pullUndefined id blockId p todo _ b hb hi => exact absurd hi (Server.pullItem_ne_none hc)
    | pullItem id blockId p todo _ b _ hdrs hb hi =>
      have hheap : (srv'.heap[p]?).map Block.undist = some b.undist := by
        have hcore := congrArg (fun srv => srv.heap[p]?) h.core.symm
        simpa [hb] using hcore
      obtain ⟨b', hb', hundist⟩ := Option.map_eq_some_iff.mp hheap
      have hheader : b'.header.undist = b.header.undist := by
        have := congrArg Block.header hundist
        exact this
      have hid : b'.header.id = b.header.id := by
        have := congrArg BlockHeader.id hheader
        exact this
      rcases Server.pullItem_cases hc hi with ⟨rfl, rfl, hold⟩ | ⟨hl, hnew, rfl, rfl⟩
      · have hi' : srv'.pullItem c now blockId p b' = some (srv', []) := by
          refine Server.pullItem_old hc' ?_
          rw [hlabels, hid, ← hseen]
          exact hold
        refine ⟨⟨srv', ⟨pending, labels, .pullPendingBlocks c (some todo) (pbHdrs' ++ [])⟩ :: older'⟩,
          ?_, h.core, ⟨seen, seen', hc, hc', hseen⟩, .cons ⟨rfl, rfl, todo, _, _, rfl, rfl, ?_⟩ hrest⟩
        · simp [offerStep, Server.handle, hb', hi']
        · simpa [Rpc.headers] using hheaders
      · have hl' : blockId ∈ srv'.pbSyncLabels := by
          rw [hlabels]
          exact hl
        have hnew' : b'.header.id ∉ seen' := by
          rw [hid, ← hseen]
          exact hnew
        have hi' := Server.pullItem_new now p hc' hl' hnew'
        have hcore := (Server.core_pullItem hi).trans (h.core.trans (Server.core_pullItem hi').symm)
        refine ⟨⟨_, ⟨pending, labels, .pullPendingBlocks c (some todo)
          (pbHdrs' ++ [headerToBytes b'.header])⟩ :: older'⟩, ?_, hcore,
          ⟨seen.insertIfNew b.header.id b.header, seen'.insertIfNew b'.header.id b'.header,
            by simp, by simp, fun k => ?_⟩,
          .cons ⟨rfl, rfl, todo, _, _, rfl, rfl, ?_⟩ hrest⟩
        · simp [offerStep, Server.handle, hb', hi']
        · rw [ExtTreeMap.mem_insertIfNew, ExtTreeMap.mem_insertIfNew, hid, hseen]
        · simpa [Rpc.headers, Flexbuffers.headerFromBytes_toBytes, hheader] using hheaders

theorem Offers.Alike.step {x x' y : Offers G} {a : OfferAction G}
    (hs : offerStep cfg merge s c x a = some x') (h : x.Alike c y) :
    ∃ y', offerStep cfg merge s c y a = some y' ∧ x'.Alike c y' := by
  cases a with
  | begin order =>
    have hpend : y.srv.pendingBlks = x.srv.pendingBlks := by
      simpa using congrArg Server.pendingBlks h.core.symm
    have hlabels : y.srv.pbSyncLabels = x.srv.pbSyncLabels := by
      simpa using congrArg Server.pbSyncLabels h.core.symm
    simp only [offerStep, Server.handle] at hs ⊢
    rw [← finished_eq h.pulls, hpend, hlabels]
    split at hs
    · rename_i hf
      split at hs
      · rename_i hperm
        cases hs
        rw [if_pos hf, if_pos hperm]
        refine ⟨_, rfl, h.core, h.seen, .cons ⟨rfl, rfl, order, [], [], rfl, rfl, rfl⟩ h.pulls⟩
      · cases hs
    · cases hs
  | item now => exact h.item hs
  | act a =>
    obtain ⟨r, hr, rfl⟩ := Option.map_eq_some_iff.mp hs
    have hact : (x.srv.act cfg merge s a).map (fun r => r.1.core) =
        (y.srv.act cfg merge s a).map fun r => r.1.core := by
      rw [← Server.act_core, h.core, Server.act_core]
    obtain ⟨r', hr', hcore⟩ := exists_of_core hact hr
    refine ⟨⟨r'.1, y.pulls⟩, by simp [offerStep, hr'], ?_⟩
    exact h.beside hcore (by rw [(Server.acts_of_act hr).clients])
      (by rw [(Server.acts_of_act hr').clients])
  | resume ch =>
    obtain ⟨srv', hr, rfl⟩ := Option.map_eq_some_iff.mp hs
    have hresume : (x.srv.resumeSend ch).map Server.core = (y.srv.resumeSend ch).map Server.core := by
      rw [← Server.resumeSend_core, h.core, Server.resumeSend_core]
    obtain ⟨srv'', hr', hcore⟩ := exists_of_core hresume hr
    refine ⟨⟨srv'', y.pulls⟩, by simp [offerStep, hr'], ?_⟩
    exact h.beside hcore (by rw [Server.clients_resumeSend hr]) (by rw [Server.clients_resumeSend hr'])
  | handle now order rpc =>
    simp only [offerStep] at hs
    split at hs
    · cases hs
    · rename_i hrpc
      obtain ⟨r, hr, rfl⟩ := Option.map_eq_some_iff.mp hs
      have hhandle : (x.srv.handle cfg s now order rpc).map (fun r => r.1.core) =
          (y.srv.handle cfg s now order rpc).map fun r => r.1.core := by
        rw [← Server.handle_core, h.core, Server.handle_core]
      obtain ⟨r', hr', hcore⟩ := exists_of_core hhandle hr
      have hc : rpc.isPullOf c = false := by simpa using hrpc
      refine ⟨⟨r'.1, y.pulls⟩, by simp [offerStep, hr', hc], ?_⟩
      exact h.beside hcore ((Server.handles_of_handle hr).clients hc)
        ((Server.handles_of_handle hr').clients hc)

/-! ## Any sequence of calls -/

theorem Offers.ok_init (hc : 1 ≤ c ∧ c ≤ cfg.clientCount) :
    (⟨Server.init cfg s, []⟩ : Offers G).Ok c where
  wf := Server.wf_init cfg s
  seen := ⟨∅, initClients_eq_empty hc, by simp⟩
  once := List.nodup_nil
  pulls _ hp := by cases hp
  covered newer pull older he := by simp at he

/-- Every block is offered to a client once, after it was labelled, and not later than in the first
call that begins then; the calls of another client make no difference. -/
theorem offered_once (hc : 1 ≤ c ∧ c ≤ cfg.clientCount) {script : List (OfferAction G)} {x : Offers G}
    (hx : exec (offerStep cfg merge s c) (fun _ _ => true) ⟨Server.init cfg s, []⟩ script = some x) :
    (x.pulls.flatMap Pull.ids).Nodup ∧
      (∀ pull ∈ x.pulls, ∀ id ∈ pull.ids, id ∈ pull.pending ∧ id ∈ x.srv.pbSyncLabels) ∧
      (∀ newer pull older, x.pulls = newer ++ pull :: older → pull.rpc.finished = true →
        ∀ id ∈ pull.pending, id ∈ pull.labels → ∃ q ∈ pull :: older, id ∈ q.ids) ∧
      ∀ d, ∃ y, exec (offerStep cfg merge s c) (fun _ _ => true) ⟨Server.init cfg s, []⟩
          (script.filter fun a => !a.isPullOf d) = some y ∧
        y.pulls.map Pull.answer = x.pulls.map Pull.answer := by
  have hrun : Run (offerStep cfg merge s c) (fun _ _ => True) ⟨Server.init cfg s, []⟩ x :=
    Run.of_exec (fun _ _ _ => trivial) script _ x hx
  have hok : x.Ok c := hrun.invariant (Offers.Ok c) (Offers.ok_init hc) fun y a z _ _ hy hs => hy.step hs
  refine ⟨hok.once, fun pull hp => (hok.pulls pull hp).ids, ?_, fun d => ?_⟩
  · intro newer pull older he hf id hid hl
    have hpull := hok.pulls pull (by rw [he]; exact List.mem_append_right _ (List.mem_cons_self ..))
    obtain ⟨todo, pbHdrs, hrpc⟩ := hpull.rpc
    rcases hok.covered newer pull older he id hid hl with ⟨p, hp⟩ | ho
    · rw [hrpc] at hf hp
      rw [List.isEmpty_iff.mp hf] at hp
      cases hp
    · exact ho
  · have halike : (⟨Server.init cfg s, []⟩ : Offers G).Alike c ⟨Server.init cfg s, []⟩ :=
      ⟨rfl, ⟨∅, ∅, initClients_eq_empty hc, initClients_eq_empty hc, fun _ => Iff.rfl⟩, .nil⟩
    have hhide : ∀ x (a : OfferAction G) x' (y : Offers G), a.isPullOf d = true →
        offerStep cfg merge s c x a = some x' → x.Alike c y → x'.Alike c y :=
      fun x a x' y ha hs h => h.hide ha hs
    have hshow : ∀ x (a : OfferAction G) x' (y : Offers G), a.isPullOf d = false →
        offerStep cfg merge s c x a = some x' → x.Alike c y →
          ∃ y', offerStep cfg merge s c y a = some y' ∧ x'.Alike c y' :=
      fun x a x' y _ hs h => h.step hs
    obtain ⟨y, hy, hxy⟩ := exec_purge hhide hshow script _ _ _ halike hx
    exact ⟨y, hy, (answers_eq hxy.pulls).symm⟩

/-- A block is relayed and labelled; client 2 pulls it first, then client 1 does so twice. -/
def pullScript : List (OfferAction ℕ) :=
  [.handle 0 [] (.relayBlock [Flexbuffers.toBytes (Block.make 2 0 0)]),
    .handle 0 [] (.relayBlockSync 2 false), .handle 7 [] (.pullPendingBlocks 2 (some [(2, 0)]) []),
    .begin [(2, 0)], .item 8, .begin [(2, 0)], .item 9]

def pullConfig : Config := ⟨2, 2, 1, 1, 5, 10, 100000, true⟩

def noSignature (_ : List (BLSSigShare ℕ)) : BLSSignature ℕ := ⟨0, [], 0, 0⟩

theorem offered_once_pullScript :
    ∃ x y, exec (offerStep pullConfig noSignature 1 1) (fun _ _ => true)
        ⟨Server.init pullConfig 1, []⟩ pullScript = some x ∧
      x.pulls.map Pull.ids = [[], [2]] ∧ (x.pulls.flatMap Pull.ids).Nodup ∧
      exec (offerStep pullConfig noSignature 1 1) (fun _ _ => true)
        ⟨Server.init pullConfig 1, []⟩ (pullScript.filter fun a => !a.isPullOf 2) = some y ∧
      y.pulls.map Pull.answer = x.pulls.map Pull.answer := by
  have hexec : ((exec (offerStep pullConfig noSignature 1 1) (fun _ _ => true)
      ⟨Server.init pullConfig 1, []⟩ pullScript).any fun x => x.pulls.map Pull.ids = [[], [2]]) = true := by
    decide +kernel
  obtain ⟨x, hx, hids⟩ := (Option.any_eq_true ..).mp hexec
  obtain ⟨honce, -, -, halone⟩ := offered_once (by decide) hx
  obtain ⟨y, hy, hanswer⟩ := halone 2
  exact ⟨x, y, hx, of_decide_eq_true hids, honce, hy, hanswer⟩

end TomChain
