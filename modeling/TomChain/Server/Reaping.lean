import Mathlib.Data.List.Induction
import TomChain.Lib.Runs
import TomChain.Server.Heap

/-!
# Dead blocks

`remove_dead_blocks` as a whole: it goes through the ids of a copy of `pending_blks` and decides on
each block by its age. The clock is read anew for each id.
-/

namespace TomChain.Server

open Std (ExtTreeMap ExtTreeSet)
open Runs

variable {G : Type} {cfg : Config} {merge : List (BLSSigShare G) → BLSSignature G} {s : ℕ}
  {srv : Server G} {clock : ℕ → ℕ}

def blockIdList (srv : Server G) (order : List (ℕ × ℕ)) : List ℕ := order.filterMap fun x => srv.idAt x.2

def removeDeadBlocks (cfg : Config) (clock : ℕ → ℕ) (srv : Server G) (order : List (ℕ × ℕ)) : Server G :=
  (srv.blockIdList order).foldl (fun srv id => srv.reap cfg id (clock id)) srv

/-- Nothing comes in between: the steps of the thread run the whole function. -/
theorem exec_removeDeadBlocks (srv : Server G) (order : List (ℕ × ℕ)) :
    exec (fun srv a => (srv.act cfg merge s a).map Prod.fst) (fun _ _ => true) srv
      ((srv.blockIdList order).map fun id => .reap id (clock id)) =
        some (srv.removeDeadBlocks cfg clock order) := by
  rw [removeDeadBlocks]
  generalize srv.blockIdList order = ids
  induction ids generalizing srv with
  | nil => rfl
  | cons id ids ih => exact ih (srv.reap cfg id (clock id))

/-! ## The decision on a block -/

/-- Reaped at the age of the block: older than the threshold, but not beyond the cut-off. -/
def Reaped (cfg : Config) (now ts : ℕ) : Prop :=
  ts ≤ now ∧ cfg.blockDieThreshold < now - ts ∧ now - ts ≤ 100000

instance (cfg : Config) (now ts : ℕ) : Decidable (Reaped cfg now ts) :=
  inferInstanceAs (Decidable (_ ∧ _))

/-- A block from the future has a huge age. -/
theorem age_reaped {now ts : ℕ} (hnow : now < 2 ^ 64) (hts : ts < 2 ^ 63) :
    (¬age now ts > 100000 ∧ age now ts > cfg.blockDieThreshold) ↔ Reaped cfg now ts := by
  unfold age Reaped
  rcases Nat.lt_or_ge now ts with hlt | hge
  · have hwrap : (now + 2 ^ 64 - ts) % 2 ^ 64 = now + 2 ^ 64 - ts := Nat.mod_eq_of_lt (by omega)
    rw [hwrap]
    omega
  · have hwrap : (now + 2 ^ 64 - ts) % 2 ^ 64 = now - ts := by
      rw [show now + 2 ^ 64 - ts = now - ts + 2 ^ 64 by omega, Nat.add_mod_right]
      exact Nat.mod_eq_of_lt (by omega)
    rw [hwrap]
    omega

def Due (cfg : Config) (clock : ℕ → ℕ) (srv : Server G) (id : ℕ) : Prop :=
  ∃ b, srv.PendsAs id b ∧ ¬age (clock id) b.header.proposalTs > 100000 ∧
    age (clock id) b.header.proposalTs > cfg.blockDieThreshold

/-- What the loop has done to the two containers after the ids in `done`. -/
structure ReapedIn (cfg : Config) (clock : ℕ → ℕ) (srv : Server G) (done : List ℕ) (srv' : Server G) :
    Prop where
  frame : srv' = { srv with pendingBlks := srv'.pendingBlks, deadBlock := srv'.deadBlock }
  removed : ∀ id ∈ done, srv.Due cfg clock id → srv'.pendingBlks[id]? = none
  kept : ∀ id, (id ∈ done → ¬srv.Due cfg clock id) → srv'.pendingBlks[id]? = srv.pendingBlks[id]?
  dead : ∀ id, id ∈ srv'.deadBlock ↔ id ∈ srv.deadBlock ∨ (id ∈ done ∧ srv.Due cfg clock id)

theorem reap_cases (cfg : Config) (clock : ℕ → ℕ) (srv : Server G) (id : ℕ) :
    (¬srv.Due cfg clock id ∧ srv.reap cfg id (clock id) = srv) ∨
      (srv.Due cfg clock id ∧ srv.reap cfg id (clock id) = { srv with
        deadBlock := srv.deadBlock.insert id
        pendingBlks := srv.pendingBlks.erase id }) := by
  have hdue : ∀ p b, srv.pendingBlks[id]? = some p → srv.heap[p]? = some b → srv.Due cfg clock id →
      ¬age (clock id) b.header.proposalTs > 100000 ∧
        age (clock id) b.header.proposalTs > cfg.blockDieThreshold := by
    rintro p b hp hb ⟨b', hb', hage⟩
    rw [PendsAs.unique ⟨p, hp, hb⟩ hb']
    exact hage
  unfold reap
  split
  · rename_i hp
    refine .inl ⟨?_, rfl⟩
    rintro ⟨b, ⟨p, hp', -⟩, -⟩
    rw [hp] at hp'
    cases hp'
  · rename_i p hp
    split
    · rename_i hb
      refine .inl ⟨?_, rfl⟩
      rintro ⟨b, ⟨p', hp', hb'⟩, -⟩
      rw [hp] at hp'
      cases hp'
      rw [hb] at hb'
      cases hb'
    · rename_i b hb
      split
      · rename_i hold
        exact .inl ⟨fun h => (hdue p b hp hb h).1 hold, rfl⟩
      · rename_i hold
        split
        · rename_i hage
          exact .inr ⟨⟨b, ⟨p, hp, hb⟩, hold, hage⟩, rfl⟩
        · rename_i hage
          exact .inl ⟨fun h => hage (hdue p b hp hb h).2, rfl⟩

theorem ReapedIn.refl (cfg : Config) (clock : ℕ → ℕ) (srv : Server G) : ReapedIn cfg clock srv [] srv where
  frame := rfl
  removed id hid := by cases hid
  kept id _ := rfl
  dead id := by simp

/-- One id of the list. An id that was reaped before is not pending any more. -/
theorem ReapedIn.reap {srv' : Server G} {done : List ℕ} (h : ReapedIn cfg clock srv done srv') (id : ℕ) :
    ReapedIn cfg clock srv (done ++ [id]) (srv'.reap cfg id (clock id)) := by
  have hheap : srv'.heap = srv.heap := by rw [h.frame]
  have hpends : srv'.pendingBlks[id]? = srv.pendingBlks[id]? →
      (srv'.Due cfg clock id ↔ srv.Due cfg clock id) := by
    intro hp
    simp only [Due, PendsAs, hp, hheap]
  have hsame : srv'.Due cfg clock id → srv.Due cfg clock id := by
    intro hd
    by_contra hn
    exact hn ((hpends (h.kept id fun _ => hn)).mp hd)
  rcases reap_cases cfg clock srv' id with ⟨hn, he⟩ | ⟨hd, he⟩
  · have hgone : srv.Due cfg clock id → id ∈ done := by
      intro hd
      by_contra hnew
      exact hn ((hpends (h.kept id fun hm => absurd hm hnew)).mpr hd)
    rw [he]
    refine ⟨h.frame, fun k hk hd => ?_, fun k hk => h.kept k fun hm => hk (List.mem_append_left _ hm),
      fun k => ?_⟩
    · rcases List.mem_append.mp hk with hk | hk
      · exact h.removed k hk hd
      · rw [List.mem_singleton.mp hk] at hd ⊢
        exact h.removed id (hgone hd) hd
    · rw [h.dead k, List.mem_append, List.mem_singleton]
      constructor
      · rintro (hm | ⟨hm, hd⟩)
        · exact .inl hm
        · exact .inr ⟨.inl hm, hd⟩
      · rintro (hm | ⟨hm | rfl, hd⟩)
        · exact .inl hm
        · exact .inr ⟨hm, hd⟩
        · exact .inr ⟨hgone hd, hd⟩
  · have hdue := hsame hd
    rw [he]
    refine ⟨by rw [h.frame], fun k hk hd' => ?_, fun k hk => ?_, fun k => ?_⟩
    · rw [ExtTreeMap.getElem?_erase]
      split
      · rfl
      · rename_i hne
        refine h.removed k ?_ hd'
        rcases List.mem_append.mp hk with hk | hk
        · exact hk
        · exact absurd (List.mem_singleton.mp hk).symm (by simpa using hne)
    · have hne : id ≠ k := by
        rintro rfl
        exact hk (List.mem_append_right _ (List.mem_singleton_self _)) hdue
      rw [ExtTreeMap.getElem?_erase, if_neg (by simpa using hne)]
      exact h.kept k fun hm => hk (List.mem_append_left _ hm)
    · rw [ExtTreeSet.mem_insert, Nat.compare_eq_eq, h.dead k, List.mem_append, List.mem_singleton]
      constructor
      · rintro (rfl | hm | ⟨hm, hd'⟩)
        · exact .inr ⟨.inr rfl, hdue⟩
        · exact .inl hm
        · exact .inr ⟨.inl hm, hd'⟩
      · rintro (hm | ⟨hm | rfl, hd'⟩)
        · exact .inr (.inl hm)
        · exact .inr (.inr ⟨hm, hd'⟩)
        · exact .inl rfl

theorem reapedIn_foldl (ids : List ℕ) :
    ReapedIn cfg clock srv ids (ids.foldl (fun srv id => srv.reap cfg id (clock id)) srv) := by
  induction ids using List.reverseRecOn with
  | nil => exact .refl cfg clock srv
  | append_singleton ids id ih =>
    rw [List.foldl_append]
    exact ih.reap id

/-! ## The whole function -/

/-- The blocks for which `due` holds of the clock and the time of the proposal are dead, and nothing
else has changed. -/
structure Reaps (due : ℕ → ℕ → Prop) (clock : ℕ → ℕ) (srv srv' : Server G) : Prop where
  removed : ∀ id b, srv.PendsAs id b →
    (id ∉ srv'.pendingBlks ∧ id ∈ srv'.deadBlock ↔ due (clock id) b.header.proposalTs)
  kept : ∀ id b, srv.PendsAs id b → ¬due (clock id) b.header.proposalTs → srv'.PendsAs id b
  pending : ∀ id ∈ srv'.pendingBlks, id ∈ srv.pendingBlks
  dead : ∀ id, id ∈ srv'.deadBlock ↔
    id ∈ srv.deadBlock ∨ ∃ b, srv.PendsAs id b ∧ due (clock id) b.header.proposalTs
  frame : srv' = { srv with pendingBlks := srv'.pendingBlks, deadBlock := srv'.deadBlock }

/-- A block dies when it is older than the threshold and not older than 100000 ms. -/
theorem removeDeadBlocks_reaps {order : List (ℕ × ℕ)}
    (hkeys : ∀ (id p : ℕ), srv.pendingBlks[id]? = some p → srv.idAt p = some id)
    (horder : order.Perm srv.pendingBlks.toList) (hclock : ∀ id, clock id < 2 ^ 64)
    (hts : ∀ id b, srv.PendsAs id b → b.header.proposalTs < 2 ^ 63) :
    Reaps (Reaped cfg) clock srv (srv.removeDeadBlocks cfg clock order) := by
  have hdue : ∀ id b, srv.PendsAs id b →
      (srv.Due cfg clock id ↔ Reaped cfg (clock id) b.header.proposalTs) := by
    intro id b hb
    rw [← age_reaped (hclock id) (hts id b hb)]
    constructor
    · rintro ⟨b', hb', hage⟩
      rw [hb.unique hb']
      exact hage
    · exact fun hage => ⟨b, hb, hage⟩
  have hlist : ∀ id b, srv.PendsAs id b → id ∈ srv.blockIdList order := by
    rintro id b ⟨p, hp, hb⟩
    refine List.mem_filterMap.mpr ⟨(id, p), ?_, hkeys id p hp⟩
    exact horder.mem_iff.mpr (ExtTreeMap.mem_toList_iff_getElem?_eq_some.mpr hp)
  have h : ReapedIn cfg clock srv (srv.blockIdList order) (srv.removeDeadBlocks cfg clock order) :=
    reapedIn_foldl _
  have hkept : ∀ id b, srv.PendsAs id b → ¬Reaped cfg (clock id) b.header.proposalTs →
      (srv.removeDeadBlocks cfg clock order).PendsAs id b := by
    rintro id b hb hn
    have hsame := h.kept id fun _ => (not_congr (hdue id b hb)).mpr hn
    obtain ⟨p, hp, hb'⟩ := hb
    exact ⟨p, hsame.trans hp, by rw [h.frame]; exact hb'⟩
  constructor
  · intro id b hb
    constructor
    · rintro ⟨hnot, -⟩
      by_contra hn
      exact hnot (hkept id b hb hn).mem
    · intro hr
      have hd := (hdue id b hb).mpr hr
      refine ⟨?_, (h.dead id).mpr (.inr ⟨hlist id b hb, hd⟩)⟩
      rw [ExtTreeMap.mem_iff_isSome_getElem?, h.removed id (hlist id b hb) hd]
      exact Bool.false_ne_true
  · exact hkept
  · intro id hid
    by_contra hn
    have hsame := h.kept id fun _ ⟨b, hb, _⟩ => hn hb.mem
    rw [ExtTreeMap.mem_iff_isSome_getElem?, hsame] at hid
    exact hn (ExtTreeMap.mem_iff_isSome_getElem?.mpr hid)
  · intro id
    rw [h.dead id]
    constructor
    · rintro (hm | ⟨-, hd⟩)
      · exact .inl hm
      · obtain ⟨b, hb, hage⟩ := hd
        exact .inr ⟨b, hb, (hdue id b hb).mp ⟨b, hb, hage⟩⟩
    · rintro (hm | ⟨b, hb, hr⟩)
      · exact .inl hm
      · exact .inr ⟨hlist id b hb, (hdue id b hb).mpr hr⟩
  · exact h.frame

/-- Server 1 of two with a threshold of 1000 ms. The blocks with ids 2 and 3, proposed at the times 0
and 1500, are pending. -/
def reapConfig : Config := ⟨2, 2, 1, 1, 5, 10, 1000, true⟩

def reapServer : Server ℕ :=
  ((Server.init reapConfig 1).relayBlockItem (Block.make 2 0 0)).relayBlockItem (Block.make 3 0 1500)

theorem reapServer_toList : reapServer.pendingBlks.toList = [(2, 0), (3, 1)] := by decide +kernel

theorem reapServer_pending (id p : ℕ) :
    reapServer.pendingBlks[id]? = some p ↔ id = 2 ∧ p = 0 ∨ id = 3 ∧ p = 1 := by
  rw [← ExtTreeMap.mem_toList_iff_getElem?_eq_some, reapServer_toList]
  simp

theorem reapServer_pendsAs (id : ℕ) (b : Block ℕ) :
    reapServer.PendsAs id b ↔ id = 2 ∧ b = Block.make 2 0 0 ∨ id = 3 ∧ b = Block.make 3 0 1500 := by
  have hheap : reapServer.heap = [Block.make 2 0 0, Block.make 3 0 1500] := rfl
  constructor
  · rintro ⟨p, hp, hb⟩
    rw [hheap] at hb
    rcases (reapServer_pending id p).mp hp with ⟨rfl, rfl⟩ | ⟨rfl, rfl⟩
    · exact .inl ⟨rfl, (Option.some.inj hb).symm⟩
    · exact .inr ⟨rfl, (Option.some.inj hb).symm⟩
  · rintro (⟨rfl, rfl⟩ | ⟨rfl, rfl⟩)
    · exact ⟨0, (reapServer_pending 2 0).mpr (.inl ⟨rfl, rfl⟩), rfl⟩
    · exact ⟨1, (reapServer_pending 3 1).mpr (.inr ⟨rfl, rfl⟩), rfl⟩

theorem reapServer_keys (id p : ℕ) (hp : reapServer.pendingBlks[id]? = some p) :
    reapServer.idAt p = some id := by
  rcases (reapServer_pending id p).mp hp with ⟨rfl, rfl⟩ | ⟨rfl, rfl⟩ <;> rfl

theorem reapServer_order : [(3, 1), (2, 0)].Perm reapServer.pendingBlks.toList := by
  rw [reapServer_toList]
  exact .swap ..

theorem reapServer_ts (id : ℕ) (b : Block ℕ) (hb : reapServer.PendsAs id b) :
    b.header.proposalTs < 2 ^ 63 := by
  rcases (reapServer_pendsAs id b).mp hb with ⟨-, rfl⟩ | ⟨-, rfl⟩ <;> decide

/-- At the time 2000 the older block dies, and the younger one is kept as it is. -/
theorem removeDeadBlocks_reaps_older :
    (2 ∉ (reapServer.removeDeadBlocks reapConfig (fun _ => 2000) [(3, 1), (2, 0)]).pendingBlks ∧
      2 ∈ (reapServer.removeDeadBlocks reapConfig (fun _ => 2000) [(3, 1), (2, 0)]).deadBlock) ∧
      (reapServer.removeDeadBlocks reapConfig (fun _ => 2000) [(3, 1), (2, 0)]).PendsAs 3
        (Block.make 3 0 1500) ∧
      3 ∉ (reapServer.removeDeadBlocks reapConfig (fun _ => 2000) [(3, 1), (2, 0)]).deadBlock := by
  have h : Reaps (Reaped reapConfig) (fun _ => 2000) reapServer
      (reapServer.removeDeadBlocks reapConfig (fun _ => 2000) [(3, 1), (2, 0)]) :=
    removeDeadBlocks_reaps reapServer_keys reapServer_order (fun _ => by decide) reapServer_ts
  have h2 : reapServer.PendsAs 2 (Block.make 2 0 0) := (reapServer_pendsAs 2 _).mpr (.inl ⟨rfl, rfl⟩)
  have h3 : reapServer.PendsAs 3 (Block.make 3 0 1500) :=
    (reapServer_pendsAs 3 _).mpr (.inr ⟨rfl, rfl⟩)
  have hkept := h.kept 3 _ h3 (by decide)
  refine ⟨(h.removed 2 _ h2).mpr (by decide), hkept, fun hdead => ?_⟩
  rcases (h.dead 3).mp hdead with hm | ⟨b, hb, hdue⟩
  · exact absurd hm (by decide +kernel)
  · rw [← h3.unique hb] at hdue
    exact absurd hdue (by decide)

/-- At an age of 100001 ms the older block stays, although it is past the threshold. -/
theorem exists_old_block :
    ∃ (srv : Server ℕ) (order : List (ℕ × ℕ)) (now : ℕ),
      (∀ (id p : ℕ), srv.pendingBlks[id]? = some p → srv.idAt p = some id) ∧
      order.Perm srv.pendingBlks.toList ∧ now < 2 ^ 64 ∧
      (∀ id b, srv.PendsAs id b → b.header.proposalTs < 2 ^ 63) ∧
      ¬Reaps (fun now ts => ts ≤ now ∧ reapConfig.blockDieThreshold < now - ts) (fun _ => now) srv
        (srv.removeDeadBlocks reapConfig (fun _ => now) order) := by
  refine ⟨reapServer, [(3, 1), (2, 0)], 100001, reapServer_keys, reapServer_order, by decide,
    reapServer_ts, ?_⟩
  intro h
  have hpends : reapServer.PendsAs 2 (Block.make 2 0 0) :=
    (reapServer_pendsAs 2 _).mpr (.inl ⟨rfl, rfl⟩)
  have hgone := ((h.removed 2 _ hpends).mpr (by decide)).1
  have hmem : 2 ∈
      (reapServer.removeDeadBlocks reapConfig (fun _ => 100001) [(3, 1), (2, 0)]).pendingBlks := by
    decide +kernel
  exact hgone hmem

end TomChain.Server
