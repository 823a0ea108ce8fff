import Mathlib.Algebra.GroupWithZero.Nat
import TomChain.Lib.Runs

/-!
# Runs that come to an end

When every step that meets a guard lowers a measure, the runs under this guard are no longer than the
measure says (`Trace.length_le`), and any of them can be continued to a state in which nothing that
meets the guard is possible (`Run.exists_stuck`). The measure may be a sum over a list, of which a
step replaces or removes one element.
-/

namespace TomChain.Runs

section Measure

variable {σ α : Type} {step : σ → α → Option σ} {ok : σ → α → Prop} {Inv : σ → Prop} {μ : σ → ℕ}

def Stuck (step : σ → α → Option σ) (ok : σ → α → Prop) (s : σ) : Prop :=
  ∀ a t, ok s a → step s a ≠ some t

def Lowers (step : σ → α → Option σ) (ok : σ → α → Prop) (Inv : σ → Prop) (μ : σ → ℕ) : Prop :=
  ∀ s a t, Inv s → ok s a → step s a = some t → Inv t ∧ μ t < μ s

theorem Lowers.inv (h : Lowers step ok Inv μ) {s t : σ} (hs : Inv s) (hr : Run step ok s t) :
    Inv t :=
  hr.invariant Inv hs fun t a u _ ha ht hstep => (h t a u ht ha hstep).1

theorem Trace.length_le (h : Lowers step ok Inv μ) {s : σ} (hs : Inv s) {t : σ} {l : List σ}
    (htr : Trace step ok s (t :: l)) : l.length + μ t ≤ μ s := by
  generalize hm : t :: l = m at htr
  induction htr generalizing t l with
  | start =>
    cases hm
    simp
  | next a htr ha hstep ih =>
    cases hm
    have hlt := (h _ a _ (h.inv hs htr.run) ha hstep).2
    have hle := ih rfl
    simp only [List.length_cons]
    omega

theorem Run.exists_stuck (h : Lowers step ok Inv μ) {s : σ} (hs : Inv s) :
    ∃ t, Run step ok s t ∧ Stuck step ok t := by
  induction hn : μ s using Nat.strongRecOn generalizing s with
  | ind n ih =>
    by_cases hstuck : Stuck step ok s
    · exact ⟨s, .refl, hstuck⟩
    · simp only [Stuck, not_forall, not_not] at hstuck
      obtain ⟨a, t, ha, hstep⟩ := hstuck
      obtain ⟨ht, hlt⟩ := h s a t hs ha hstep
      obtain ⟨u, hr, hu⟩ := ih (μ t) (by omega) ht rfl
      exact ⟨u, (Run.next a .refl ha hstep).trans hr, hu⟩

/-- When each of the tasks can be done from any state with the invariant, and stays done, all of them
can be done one after the other. -/
theorem Run.exists_forall {ι : Type} {done : ι → σ → Prop} {l : List ι}
    (hkeep : ∀ i s t, done i s → Run step ok s t → done i t)
    (htask : ∀ i ∈ l, ∀ s, Inv s → ∃ t, Run step ok s t ∧ Inv t ∧ done i t) {s : σ} (hs : Inv s) :
    ∃ t, Run step ok s t ∧ Inv t ∧ ∀ i ∈ l, done i t := by
  induction l generalizing s with
  | nil => exact ⟨s, .refl, hs, fun i hi => by cases hi⟩
  | cons i l ih =>
    obtain ⟨t, hst, ht, hi⟩ := htask i (List.mem_cons_self ..) s hs
    obtain ⟨u, htu, hu, hl⟩ := ih (fun j hj => htask j (List.mem_cons_of_mem _ hj)) ht
    refine ⟨u, hst.trans htu, hu, fun j hj => ?_⟩
    rcases List.mem_cons.mp hj with rfl | hj
    · exact hkeep j t u hi htu
    · exact hl j hj

end Measure

/-! ## Sums over a list -/

section Sums

variable {α : Type} (f : α → ℕ) {l : List α} {i : ℕ} {x : α}

theorem sum_map_set (h : l[i]? = some x) (y : α) :
    ((l.set i y).map f).sum + f x = (l.map f).sum + f y := by
  induction l generalizing i with
  | nil => simp at h
  | cons z l ih =>
    cases i with
    | zero =>
      cases h
      simp only [List.set_cons_zero, List.map_cons, List.sum_cons]
      omega
    | succ i =>
      have := ih h
      simp only [List.set_cons_succ, List.map_cons, List.sum_cons]
      omega

theorem sum_map_eraseIdx (h : l[i]? = some x) :
    ((l.eraseIdx i).map f).sum + f x = (l.map f).sum := by
  induction l generalizing i with
  | nil => simp at h
  | cons z l ih =>
    cases i with
    | zero =>
      cases h
      simp only [List.eraseIdx_cons_zero, List.map_cons, List.sum_cons]
      omega
    | succ i =>
      have := ih h
      simp only [List.eraseIdx_cons_succ, List.map_cons, List.sum_cons]
      omega

end Sums

end TomChain.Runs
