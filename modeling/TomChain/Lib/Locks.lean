import Mathlib.Data.Set.Basic
import TomChain.Lib.Runs

/-!
# Threads and locks

Threads run programs that take and release locks: mutexes `M`, and the locks of the elements `K` of
concurrent maps, which are there while the element is. A thread that asks for a lock waits in a
queue until no other access is in conflict with its own; on a mutex where writers come first, a
shared request also waits for the exclusive ones that were made before it. What a program holds when
it asks for a lock is its discipline, checked on the program once (`Prog.Follows`) and true of every
thread in every run (`ok_of_run`).
-/

namespace TomChain.Locks

open Runs

inductive Mode where
  | shared
  | exclusive
  deriving DecidableEq

inductive Lock (M K : Type) where
  | mutex (m : M)
  | elem (k : K)
  deriving DecidableEq

/-- What a program does with locks. `find` and `insert` take the lock of an element of a map, and
`erase` removes the element whose lock the program holds; `choose` is a branch on anything else. -/
inductive Prog (M K : Type) where
  | done
  | lock (l : M) (m : Mode) (next : Prog M K)
  | find (k : K) (m : Mode) (found missing : Prog M K)
  | insert (k : K) (next : Prog M K)
  | unlock (l : Lock M K) (next : Prog M K)
  | erase (k : K) (next : Prog M K)
  | choose (yes no : Prog M K)

/-- A thread's hold on a lock, or its request for one. -/
structure Access (M K : Type) where
  thread : ℕ
  lock : Lock M K
  mode : Mode
  deriving DecidableEq

structure State (M K : Type) where
  prog : ℕ → Prog M K
  held : List (Access M K)
  queue : List (Access M K)
  elements : List K

inductive Action (ι : Type) where
  | enter (t : ℕ) (i : ι)
  | ask (t : ℕ)
  | grant (t : ℕ)
  | miss (t : ℕ)
  | release (t : ℕ)
  | choose (t : ℕ) (b : Bool)

variable {ι M K : Type}

def Prog.request : Prog M K → Option (Lock M K × Mode)
  | .lock l m _ => some (.mutex l, m)
  | .find k m _ _ => some (.elem k, m)
  | .insert k _ => some (.elem k, .exclusive)
  | _ => none

namespace State

def init : State M K := ⟨fun _ => .done, [], [], []⟩

def setProg (σ : State M K) (t : ℕ) (p : Prog M K) : State M K :=
  { σ with prog := Function.update σ.prog t p }

def heldBy (σ : State M K) (t : ℕ) : List (Lock M K × Mode) :=
  (σ.held.filter (·.thread = t)).map fun x => (x.lock, x.mode)

theorem mem_heldBy {σ : State M K} {t : ℕ} {l : Lock M K} {m : Mode} :
    (l, m) ∈ σ.heldBy t ↔ ⟨t, l, m⟩ ∈ σ.held := by
  simp only [heldBy, List.mem_map, List.mem_filter, decide_eq_true_eq, Prod.mk.injEq]
  constructor
  · rintro ⟨⟨_, _, _⟩, ⟨hm, rfl⟩, rfl, rfl⟩
    exact hm
  · intro hm
    exact ⟨_, ⟨hm, rfl⟩, rfl, rfl⟩

end State

variable [DecidableEq M] [DecidableEq K]

/-- `allowed held l m`: a program that holds `held` may ask for `l` in mode `m`. -/
def Prog.Follows (allowed : List (Lock M K × Mode) → Lock M K → Mode → Prop) :
    Prog M K → List (Lock M K × Mode) → Prop
  | .done, held => held = []
  | .lock l m next, held => allowed held (.mutex l) m ∧ next.Follows allowed (held ++ [(.mutex l, m)])
  | .find k m found missing, held => allowed held (.elem k) m ∧
      found.Follows allowed (held ++ [(.elem k, m)]) ∧ missing.Follows allowed held
  | .insert k next, held => allowed held (.elem k) .exclusive ∧
      next.Follows allowed (held ++ [(.elem k, .exclusive)])
  | .unlock l next, held => (∃ m, (l, m) ∈ held) ∧ next.Follows allowed (held.filter (·.1 ≠ l))
  | .erase k next, held => (.elem k, .exclusive) ∈ held ∧
      next.Follows allowed (held.filter (·.1 ≠ .elem k))
  | .choose yes no, held => yes.Follows allowed held ∧ no.Follows allowed held

def Access.conflicts (r x : Access M K) : Bool :=
  x.lock = r.lock && (x.mode = .exclusive || r.mode = .exclusive)

/-- The request `r` comes after the older request `x`. -/
def Access.yields (prio : M → Bool) (r x : Access M K) : Bool :=
  match r.lock with
  | .mutex l => prio l && x.lock = r.lock && r.mode = .shared && x.mode = .exclusive
  | .elem _ => false

namespace State

/-- The request `r` waits for the thread of `x`. -/
def Blocks (prio : M → Bool) (σ : State M K) (r x : Access M K) : Prop :=
  x ∈ σ.held ∧ r.conflicts x = true ∨ [x, r].Sublist σ.queue ∧ r.yields prio x = true

instance (prio : M → Bool) (σ : State M K) (r x : Access M K) : Decidable (σ.Blocks prio r x) :=
  inferInstanceAs (Decidable (_ ∨ _))

def Free (prio : M → Bool) (σ : State M K) (r : Access M K) : Prop :=
  ∀ x ∈ σ.held ++ σ.queue, ¬ σ.Blocks prio r x

instance (prio : M → Bool) (σ : State M K) (r : Access M K) : Decidable (σ.Free prio r) :=
  inferInstanceAs (Decidable (∀ x ∈ σ.held ++ σ.queue, ¬ σ.Blocks prio r x))

def take (prio : M → Bool) (σ : State M K) (r : Access M K) (next : Prog M K)
    (elements : List K) : Option (State M K) :=
  if r ∈ σ.queue ∧ σ.Free prio r then
    some ⟨Function.update σ.prog r.thread next, σ.held ++ [r], σ.queue.filter (· ≠ r), elements⟩
  else none

def drop (σ : State M K) (t : ℕ) (l : Lock M K) (next : Prog M K) (elements : List K) : State M K :=
  ⟨Function.update σ.prog t next, σ.held.filter fun x => ¬ (x.thread = t ∧ x.lock = l), σ.queue,
    elements⟩

end State

/-- One step of a thread. `code` has the programs that threads can enter, and `prio` says for which
mutexes a waiting writer blocks new readers. -/
def step (code : ι → Prog M K) (prio : M → Bool) (σ : State M K) : Action ι → Option (State M K)
  | .enter t i =>
    match σ.prog t with
    | .done => some (σ.setProg t (code i))
    | _ => none
  | .ask t =>
    match (σ.prog t).request with
    | some (l, m) =>
      if ⟨t, l, m⟩ ∈ σ.queue then none else some { σ with queue := σ.queue ++ [⟨t, l, m⟩] }
    | none => none
  | .grant t =>
    match σ.prog t with
    | .lock l m next => σ.take prio ⟨t, .mutex l, m⟩ next σ.elements
    | .find k m found _ =>
      if k ∈ σ.elements then σ.take prio ⟨t, .elem k, m⟩ found σ.elements else none
    | .insert k next => σ.take prio ⟨t, .elem k, .exclusive⟩ next (k :: σ.elements)
    | _ => none
  | .miss t =>
    match σ.prog t with
    | .find k m _ missing =>
      if ⟨t, .elem k, m⟩ ∈ σ.queue ∧ k ∉ σ.elements then
        some { σ.setProg t missing with queue := σ.queue.filter (· ≠ ⟨t, .elem k, m⟩) }
      else none
    | _ => none
  | .release t =>
    match σ.prog t with
    | .unlock l next => some (σ.drop t l next σ.elements)
    | .erase k next => some (σ.drop t (.elem k) next (σ.elements.filter (· ≠ k)))
    | _ => none
  | .choose t b =>
    match σ.prog t with
    | .choose yes no => some (σ.setProg t (if b then yes else no))
    | _ => none

/-- Every thread of `S` waits for a lock that a thread of `S` holds, or for which one is queued
before it. -/
structure Deadlocked (prio : M → Bool) (σ : State M K) (S : Set ℕ) : Prop where
  nonempty : S.Nonempty
  waits : ∀ t ∈ S, ∃ r ∈ σ.queue, r.thread = t ∧ ∃ x, σ.Blocks prio r x ∧ x.thread ∈ S

/-! ## What a step can do -/

inductive Steps (code : ι → Prog M K) (prio : M → Bool) (σ : State M K) : Action ι → State M K → Prop
  | enter (t : ℕ) (i : ι) : σ.prog t = .done → Steps code prio σ (.enter t i) (σ.setProg t (code i))
  | ask (t : ℕ) (l : Lock M K) (m : Mode) : (σ.prog t).request = some (l, m) →
      ⟨t, l, m⟩ ∉ σ.queue → Steps code prio σ (.ask t) { σ with queue := σ.queue ++ [⟨t, l, m⟩] }
  | grant (r : Access M K) (next : Prog M K) (elements : List K) :
      (∀ allowed held, (σ.prog r.thread).Follows allowed held →
        next.Follows allowed (held ++ [(r.lock, r.mode)])) →
      σ.elements ⊆ elements → (∀ k, r.lock = .elem k → k ∈ elements) → r ∈ σ.queue →
      σ.Free prio r → Steps code prio σ (.grant r.thread)
        ⟨Function.update σ.prog r.thread next, σ.held ++ [r], σ.queue.filter (· ≠ r), elements⟩
  | miss (r : Access M K) (k : K) (next : Prog M K) :
      (∀ allowed held, (σ.prog r.thread).Follows allowed held → next.Follows allowed held) →
      r.lock = .elem k → k ∉ σ.elements → r ∈ σ.queue → Steps code prio σ (.miss r.thread)
        { σ.setProg r.thread next with queue := σ.queue.filter (· ≠ r) }
  | unlock (t : ℕ) (l : Lock M K) (next : Prog M K) : σ.prog t = .unlock l next →
      Steps code prio σ (.release t) (σ.drop t l next σ.elements)
  | erase (t : ℕ) (k : K) (next : Prog M K) : σ.prog t = .erase k next →
      Steps code prio σ (.release t) (σ.drop t (.elem k) next (σ.elements.filter (· ≠ k)))
  | choose (t : ℕ) (b : Bool) (yes no : Prog M K) : σ.prog t = .choose yes no →
      Steps code prio σ (.choose t b) (σ.setProg t (if b then yes else no))

variable {code : ι → Prog M K} {prio : M → Bool} {σ σ' : State M K} {a : Action ι}
  {allowed : List (Lock M K × Mode) → Lock M K → Mode → Prop}

theorem State.take_eq {r : Access M K} {next : Prog M K} {elements : List K}
    (h : σ.take prio r next elements = some σ') : r ∈ σ.queue ∧ σ.Free prio r ∧
      σ' = ⟨Function.update σ.prog r.thread next, σ.held ++ [r], σ.queue.filter (· ≠ r), elements⟩ := by
  unfold take at h
  split at h
  · rename_i hr
    cases h
    exact ⟨hr.1, hr.2, rfl⟩
  · cases h

theorem steps_of_step (h : step code prio σ a = some σ') : Steps code prio σ a σ' := by
  unfold step at h
  split at h
  · split at h
    · rename_i hp
      cases h
      exact .enter _ _ hp
    · cases h
  · split at h
    · rename_i l m hp
      split at h
      · cases h
      · rename_i hq
        cases h
        exact .ask _ _ _ hp hq
    · cases h
  · rename_i t
    split at h
    · rename_i l m next hp
      obtain ⟨hq, hf, rfl⟩ := State.take_eq h
      refine .grant ⟨t, .mutex l, m⟩ next _ (fun allowed held hfol => ?_) (List.Subset.refl _)
        (fun k hk => by cases hk) hq hf
      rw [hp] at hfol
      exact hfol.2
    · rename_i k m found missing hp
      split at h
      · rename_i hk
        obtain ⟨hq, hf, rfl⟩ := State.take_eq h
        refine .grant ⟨t, .elem k, m⟩ found _ (fun allowed held hfol => ?_) (List.Subset.refl _)
          (fun k' hk' => by cases hk'; exact hk) hq hf
        rw [hp] at hfol
        exact hfol.2.1
      · cases h
    · rename_i k next hp
      obtain ⟨hq, hf, rfl⟩ := State.take_eq h
      refine .grant ⟨t, .elem k, .exclusive⟩ next _ (fun allowed held hfol => ?_)
        (List.subset_cons_self _ _) (fun k' hk' => by cases hk'; exact List.mem_cons_self ..) hq hf
      rw [hp] at hfol
      exact hfol.2
    · cases h
  · rename_i t
    split at h
    · rename_i k m found missing hp
      split at h
      · rename_i hq
        cases h
        refine .miss ⟨t, .elem k, m⟩ k missing (fun allowed held hfol => ?_) rfl hq.2 hq.1
        rw [hp] at hfol
        exact hfol.2.2
      · cases h
    · cases h
  · split at h
    · rename_i hp
      cases h
      exact .unlock _ _ _ hp
    · rename_i hp
      cases h
      exact .erase _ _ _ hp
    · cases h
  · split at h
    · rename_i hp
      cases h
      exact .choose _ _ _ _ hp
    · cases h

/-! ## The invariant -/

/-- Requests are those of the programs, threads keep the discipline, an exclusive hold is the only
one, and an element whose lock is held is there. -/
structure State.Ok (allowed : List (Lock M K × Mode) → Lock M K → Mode → Prop) (σ : State M K) :
    Prop where
  request : ∀ r ∈ σ.queue, (σ.prog r.thread).request = some (r.lock, r.mode)
  follows : ∀ t, (σ.prog t).Follows allowed (σ.heldBy t)
  exclusive : ∀ x ∈ σ.held, ∀ y ∈ σ.held, y.lock = x.lock → x.mode = .exclusive →
    y.thread = x.thread
  present : ∀ x ∈ σ.held, ∀ k, x.lock = .elem k → k ∈ σ.elements

theorem ok_init : (State.init : State M K).Ok allowed where
  request r hr := by cases hr
  follows t := rfl
  exclusive x hx := by cases hx
  present x hx := by cases hx

namespace State.Ok

variable (h : σ.Ok allowed)

include h

theorem request_unique {r r' : Access M K} (hr : r ∈ σ.queue) (hr' : r' ∈ σ.queue)
    (ht : r.thread = r'.thread) : r = r' := by
  have he := h.request r hr
  rw [ht, h.request r' hr'] at he
  obtain ⟨t, l, m⟩ := r
  obtain ⟨t', l', m'⟩ := r'
  cases ht
  cases he
  rfl

theorem allowed_of_mem {r : Access M K} (hr : r ∈ σ.queue) :
    allowed (σ.heldBy r.thread) r.lock r.mode := by
  have hreq := h.request r hr
  have hfol := h.follows r.thread
  obtain ⟨t, l, m⟩ := r
  simp only at hreq hfol ⊢
  cases hp : σ.prog t with
  | lock | find | insert =>
    rw [hp] at hreq hfol
    cases hreq
    exact hfol.1
  | done | unlock | erase | choose => rw [hp] at hreq; cases hreq

end State.Ok

/-! ### What the threads hold after a step -/

variable {t t' : ℕ} {p : Prog M K} {r : Access M K} {l : Lock M K}

omit [DecidableEq M] [DecidableEq K] in
theorem heldBy_append (held queue : List (Access M K)) (elements : List K) (prog : ℕ → Prog M K) :
    (⟨prog, held ++ [r], queue, elements⟩ : State M K).heldBy t =
      (⟨prog, held, queue, elements⟩ : State M K).heldBy t ++
        if r.thread = t then [(r.lock, r.mode)] else [] := by
  simp only [State.heldBy, List.filter_append, List.map_append]
  split <;> simp_all

theorem heldBy_drop (elements : List K) : (σ.drop t l p elements).heldBy t' =
    if t' = t then (σ.heldBy t').filter (·.1 ≠ l) else σ.heldBy t' := by
  simp only [State.heldBy, State.drop, List.filter_filter, List.filter_map]
  split
  · rename_i he
    subst he
    congr 1
    refine List.filter_congr fun x _ => ?_
    by_cases hx : x.thread = t' <;> simp [hx]
  · rename_i hne
    congr 1
    refine List.filter_congr fun x _ => ?_
    by_cases hx : x.thread = t'
    · simp [hx, hne]
    · simp [hx]

namespace State.Ok

variable (h : σ.Ok allowed)

include h

theorem request_update (hreq : (σ.prog t).request = none) : ∀ r ∈ σ.queue,
    (Function.update σ.prog t p r.thread).request = some (r.lock, r.mode) := by
  intro r hr
  have hne : r.thread ≠ t := by
    intro he
    have := h.request r hr
    rw [he, hreq] at this
    cases this
  rw [Function.update_of_ne hne]
  exact h.request r hr

theorem follows_update (hfol : p.Follows allowed (σ.heldBy t)) (t' : ℕ) :
    (Function.update σ.prog t p t').Follows allowed (σ.heldBy t') := by
  by_cases ht : t' = t
  · subst ht
    rw [Function.update_self]
    exact hfol
  · rw [Function.update_of_ne ht]
    exact h.follows t'

/-- A thread that waits for nothing goes on. -/
theorem setProg (hreq : (σ.prog t).request = none) (hfol : p.Follows allowed (σ.heldBy t)) :
    (σ.setProg t p).Ok allowed where
  request := h.request_update hreq
  follows := h.follows_update hfol
  exclusive := h.exclusive
  present := h.present

theorem request_answered (hr : r ∈ σ.queue) : ∀ r' ∈ σ.queue.filter (· ≠ r),
    (Function.update σ.prog r.thread p r'.thread).request = some (r'.lock, r'.mode) := by
  intro r' hr'
  obtain ⟨hm, hne⟩ := List.mem_filter.mp hr'
  have hthread : r'.thread ≠ r.thread := fun he =>
    of_decide_eq_true hne (h.request_unique hm hr he)
  rw [Function.update_of_ne hthread]
  exact h.request r' hm

theorem drop {elements : List K} (hreq : (σ.prog t).request = none)
    (hfol : p.Follows allowed ((σ.heldBy t).filter (·.1 ≠ l)))
    (hpresent : ∀ x ∈ σ.held, ¬ (x.thread = t ∧ x.lock = l) → ∀ k, x.lock = .elem k → k ∈ elements) :
    (σ.drop t l p elements).Ok allowed where
  request := h.request_update hreq
  follows t' := by
    rw [heldBy_drop]
    show (Function.update σ.prog t p t').Follows allowed _
    by_cases ht : t' = t
    · subst ht
      rw [Function.update_self, if_pos rfl]
      exact hfol
    · rw [Function.update_of_ne ht, if_neg ht]
      exact h.follows t'
  exclusive x hx y hy := h.exclusive x (List.mem_of_mem_filter hx) y (List.mem_of_mem_filter hy)
  present x hx := by
    obtain ⟨hm, hne⟩ := List.mem_filter.mp hx
    exact hpresent x hm (of_decide_eq_true hne)

theorem step (hcode : ∀ i, (code i).Follows allowed []) (hs : Steps code prio σ a σ') :
    σ'.Ok allowed := by
  cases hs with
  | enter t i hp =>
    have hnil : σ.heldBy t = [] := by
      have := h.follows t
      rw [hp] at this
      exact this
    exact h.setProg (by rw [hp]; rfl) (by rw [hnil]; exact hcode i)
  | ask t l m hreq _ =>
    refine ⟨fun r hr => ?_, h.follows, h.exclusive, h.present⟩
    rcases List.mem_append.mp hr with hr | hr
    · exact h.request r hr
    · rw [List.mem_singleton.mp hr]
      exact hreq
  | grant r next elements hnext hsub hk hr hfree =>
    refine ⟨h.request_answered hr, fun t' => ?_, ?_, ?_⟩
    · rw [heldBy_append]
      show (Function.update σ.prog r.thread next t').Follows allowed (σ.heldBy t' ++ _)
      by_cases ht : t' = r.thread
      · subst ht
        rw [Function.update_self, if_pos rfl]
        exact hnext _ _ (h.follows _)
      · rw [Function.update_of_ne ht, if_neg (Ne.symm ht), List.append_nil]
        exact h.follows t'
    · have hnone : ∀ x ∈ σ.held, x.lock = r.lock → ¬ (x.mode = .exclusive ∨ r.mode = .exclusive) := by
        intro x hx hl hm
        refine hfree x (List.mem_append_left _ hx) (.inl ⟨hx, ?_⟩)
        simpa [Access.conflicts, hl] using hm
      intro x hx y hy hl hm
      rcases List.mem_append.mp hx with hx | hx <;> rcases List.mem_append.mp hy with hy | hy
      · exact h.exclusive x hx y hy hl hm
      · rw [List.mem_singleton.mp hy] at hl ⊢
        exact absurd (.inl hm) (hnone x hx hl.symm)
      · rw [List.mem_singleton.mp hx] at hl hm ⊢
        exact absurd (.inr hm) (hnone y hy hl)
      · rw [List.mem_singleton.mp hx, List.mem_singleton.mp hy]
    · intro x hx k hxk
      rcases List.mem_append.mp hx with hx | hx
      · exact hsub (h.present x hx k hxk)
      · rw [List.mem_singleton.mp hx] at hxk
        exact hk k hxk
  | miss r k next hnext _ _ hr =>
    exact ⟨h.request_answered hr, h.follows_update (hnext _ _ (h.follows _)), h.exclusive, h.present⟩
  | unlock t l next hp =>
    have hfol := h.follows t
    rw [hp] at hfol
    exact h.drop (by rw [hp]; rfl) hfol.2 fun x hx _ => h.present x hx
  | erase t k next hp =>
    have hfol := h.follows t
    rw [hp] at hfol
    refine h.drop (by rw [hp]; rfl) hfol.2 fun x hx hne k' hk => ?_
    refine List.mem_filter.mpr ⟨h.present x hx k' hk, decide_eq_true fun he => hne ?_⟩
    subst he
    exact ⟨h.exclusive _ (State.mem_heldBy.mp hfol.1) x hx hk rfl, hk⟩
  | choose t b yes no hp =>
    have hfol := h.follows t
    rw [hp] at hfol
    refine h.setProg (by rw [hp]; rfl) ?_
    cases b with
    | true => exact hfol.1
    | false => exact hfol.2

end State.Ok

/-- In every run, when the programs keep the discipline. -/
theorem ok_of_run {guard : State M K → Action ι → Prop} (hcode : ∀ i, (code i).Follows allowed [])
    (hr : Run (step code prio) guard .init σ) : σ.Ok allowed :=
  hr.invariant (State.Ok allowed) ok_init fun _ _ _ _ _ hok hs => hok.step hcode (steps_of_step hs)

/-- Who is queued before whom when a request is added. -/
theorem pair_sublist_append {α : Type} {w a n : α} {q : List α} (h : [w, a].Sublist (q ++ [n])) :
    [w, a].Sublist q ∨ w ∈ q ∧ a = n := by
  obtain ⟨l₁, l₂, he, h₁, h₂⟩ := List.sublist_append_iff.mp h
  rcases List.sublist_singleton.mp h₂ with rfl | rfl
  · left
    rw [List.append_nil] at he
    rw [he]
    exact h₁
  · right
    obtain ⟨rfl, rfl⟩ : l₁ = [w] ∧ n = a := by
      have hlen := congrArg List.length he
      obtain ⟨y, rfl⟩ : ∃ y, l₁ = [y] := List.length_eq_one_iff.mp (by simpa using hlen.symm)
      simp at he
      simp [he]
    exact ⟨List.singleton_sublist.mp h₁, rfl⟩

/-! ## Deadlocks -/

namespace Deadlocked

variable {S : Set ℕ} (h : Deadlocked prio σ S) (hok : σ.Ok allowed)

include h hok

theorem blocked (hr : r ∈ σ.queue) (ht : r.thread ∈ S) :
    ∃ x, σ.Blocks prio r x ∧ x.thread ∈ S := by
  obtain ⟨r', hr', hthread, hx⟩ := h.waits _ ht
  rw [hok.request_unique hr hr' hthread.symm]
  exact hx

theorem not_free (hr : r ∈ σ.queue) (ht : r.thread ∈ S) : ¬ σ.Free prio r := by
  intro hfree
  obtain ⟨x, hx, -⟩ := h.blocked hok hr ht
  refine hfree x ?_ hx
  rcases hx with ⟨hx, -⟩ | ⟨hx, -⟩
  · exact List.mem_append_left _ hx
  · exact List.mem_append_right _ (hx.subset (List.mem_cons_self ..))

/-- The element that a member of the set waits for is there. -/
theorem elem_present (hr : r ∈ σ.queue) (ht : r.thread ∈ S) {k : K} (hk : r.lock = .elem k) :
    k ∈ σ.elements := by
  obtain ⟨x, hx, -⟩ := h.blocked hok hr ht
  rcases hx with ⟨hx, hc⟩ | ⟨-, hy⟩
  · simp only [Access.conflicts, Bool.and_eq_true, decide_eq_true_eq] at hc
    exact hok.present x hx k (hc.1.trans hk)
  · simp [Access.yields, hk] at hy

theorem sublist_queue (hs : Steps code prio σ a σ') {l : List (Access M K)} (hl : l.Sublist σ.queue)
    (ht : ∀ y ∈ l, y.thread ∈ S) : l.Sublist σ'.queue := by
  have hfilter : ∀ r : Access M K, r ∉ l → l.Sublist (σ.queue.filter (· ≠ r)) := by
    intro r hr
    have hself : l.filter (· ≠ r) = l := by
      refine List.filter_eq_self.mpr fun y hy => decide_eq_true fun he => hr ?_
      rw [← he]
      exact hy
    rw [← hself]
    exact hl.filter _
  cases hs with
  | enter | choose | unlock | erase => exact hl
  | ask t l' m => exact hl.trans (List.sublist_append_left _ _)
  | grant r next elements _ _ _ hr hfree =>
    exact hfilter r fun hm => h.not_free hok hr (ht r hm) hfree
  | miss r k next _ hk hmiss hr =>
    exact hfilter r fun hm => hmiss (h.elem_present hok hr (ht r hm) hk)

theorem held_of_held (hs : Steps code prio σ a σ') {x : Access M K} (hx : x ∈ σ.held)
    (ht : x.thread ∈ S) : x ∈ σ'.held := by
  have hwaits : ∀ t next, (∃ l, σ.prog t = .unlock l next) ∨ (∃ k, σ.prog t = .erase k next) →
      x.thread ≠ t := by
    rintro t next hp rfl
    obtain ⟨r, hr, hthread, -⟩ := h.waits _ ht
    have hreq := hok.request r hr
    rw [hthread] at hreq
    rcases hp with ⟨l, hp⟩ | ⟨k, hp⟩ <;> (rw [hp] at hreq; cases hreq)
  cases hs with
  | enter | choose | ask | miss => exact hx
  | grant => exact List.mem_append_left _ hx
  | unlock t l next hp =>
    exact List.mem_filter.mpr ⟨hx, decide_eq_true fun he => hwaits t next (.inl ⟨l, hp⟩) he.1⟩
  | erase t k next hp =>
    exact List.mem_filter.mpr ⟨hx, decide_eq_true fun he => hwaits t next (.inr ⟨k, hp⟩) he.1⟩

/-- A deadlock lasts. -/
theorem step (hs : Steps code prio σ a σ') : Deadlocked prio σ' S where
  nonempty := h.nonempty
  waits t ht := by
    obtain ⟨r, hr, rfl, x, hx, hS⟩ := h.waits t ht
    have hr' : r ∈ σ'.queue := List.singleton_sublist.mp
      (h.sublist_queue hok hs (List.singleton_sublist.mpr hr) (by simpa using ht))
    refine ⟨r, hr', rfl, x, ?_, hS⟩
    rcases hx with ⟨hx, hc⟩ | ⟨hx, hy⟩
    · exact .inl ⟨h.held_of_held hok hs hx hS, hc⟩
    · exact .inr ⟨h.sublist_queue hok hs hx (by simp [hS, ht]), hy⟩

end Deadlocked

end TomChain.Locks
