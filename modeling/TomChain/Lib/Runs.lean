import Mathlib.Data.List.Basic

/-!
# Runs of a partial step function

A system is a partial function `step` from a state and an action to a state. A
guard `ok` on the state before a step and the action selects the runs that are
meant: all of them, those without a failure, those in which a condition holds at
every step. Invariants are proved step by step (`Run.invariant`); concrete runs
are evaluated (`exec`) and turned into `Run`s (`Run.of_exec`).
-/

namespace TomChain.Runs

variable {σ α : Type} {step : σ → α → Option σ} {ok ok' : σ → α → Prop}

/-- `Run step ok s t`: steps that all meet the guard lead from `s` to `t`. -/
inductive Run (step : σ → α → Option σ) (ok : σ → α → Prop) (s : σ) : σ → Prop
  | refl : Run step ok s s
  | next {t u : σ} (a : α) : Run step ok s t → ok t a → step t a = some u → Run step ok s u

theorem Run.trans {s t u : σ} (h : Run step ok s t) (h' : Run step ok t u) :
    Run step ok s u := by
  induction h' with
  | refl => exact h
  | next a _ hok hs ih => exact .next a ih hok hs

theorem Run.cases_head {s u : σ} (h : Run step ok s u) :
    s = u ∨ ∃ a t, ok s a ∧ step s a = some t ∧ Run step ok t u := by
  induction h with
  | refl => exact .inl rfl
  | next a _ ha hs ih =>
    rcases ih with rfl | ⟨a₀, t₀, ha₀, hs₀, hr₀⟩
    · exact .inr ⟨a, _, ha, hs, .refl⟩
    · exact .inr ⟨a₀, t₀, ha₀, hs₀, .next a hr₀ ha hs⟩

/-- A weaker guard has more runs. -/
theorem Run.mono {s t : σ} (hok : ∀ s a, ok s a → ok' s a) (h : Run step ok s t) :
    Run step ok' s t := by
  induction h with
  | refl => exact .refl
  | next a _ ha hs ih => exact .next a ih (hok _ _ ha) hs

/-- The invariant rule. The step case may also use that the state before it was
reached, and so every invariant that is already known. -/
theorem Run.invariant {s t : σ} (Inv : σ → Prop) (h₀ : Inv s)
    (hstep : ∀ t a u, Run step ok s t → ok t a → Inv t → step t a = some u → Inv u)
    (h : Run step ok s t) : Inv t := by
  induction h with
  | refl => exact h₀
  | next a hr ha hs ih => exact hstep _ a _ hr ha ih hs

/-- A run with the states it passed, newest first. -/
inductive Trace (step : σ → α → Option σ) (ok : σ → α → Prop) (s : σ) : List σ → Prop
  | start : Trace step ok s [s]
  | next {t u : σ} {l : List σ} (a : α) :
      Trace step ok s (t :: l) → ok t a → step t a = some u → Trace step ok s (u :: t :: l)

theorem Trace.run {s t : σ} {l : List σ} (h : Trace step ok s (t :: l)) : Run step ok s t := by
  generalize hl : t :: l = m at h
  induction h generalizing t l with
  | start => cases hl; exact .refl
  | next a _ ha hs ih => cases hl; exact .next a (ih rfl) ha hs

theorem Run.exists_trace {s t : σ} (h : Run step ok s t) : ∃ l, Trace step ok s (t :: l) := by
  induction h with
  | refl => exact ⟨[], .start⟩
  | next a _ ha hs ih =>
    obtain ⟨l, hl⟩ := ih
    exact ⟨_, .next a hl ha hs⟩

/-- The run passed every state of its trace. -/
theorem Trace.split {s t u : σ} {l : List σ} (h : Trace step ok s (t :: l)) (hu : u ∈ t :: l) :
    Run step ok s u ∧ Run step ok u t := by
  generalize hm : t :: l = m at h hu
  induction h generalizing t l with
  | start =>
    cases hm
    rw [List.mem_singleton.mp hu]
    exact ⟨.refl, .refl⟩
  | next a htr ha hs ih =>
    cases hm
    rcases List.mem_cons.mp hu with rfl | hu
    · exact ⟨.next a htr.run ha hs, .refl⟩
    · exact ⟨(ih rfl hu).1, .next a (ih rfl hu).2 ha hs⟩

theorem Trace.mono {s t : σ} {l : List σ} (hok : ∀ s a, ok s a → ok' s a)
    (h : Trace step ok s (t :: l)) : Trace step ok' s (t :: l) := by
  generalize hl : t :: l = m at h ⊢
  clear hl
  induction h with
  | start => exact .start
  | next a _ ha hs ih => exact .next a ih (hok _ _ ha) hs

/-- Every state of a trace but the newest met the guard. -/
theorem Trace.guarded {P : σ → Prop} (hP : ∀ s a, ok s a → P s) {s t : σ} {l : List σ}
    (h : Trace step ok s (t :: l)) : ∀ u ∈ l, P u := by
  generalize hl : t :: l = m at h
  induction h generalizing t l with
  | start => cases hl; exact fun u hu => by cases hu
  | next a _ ha _ ih =>
    cases hl
    intro u hu
    rcases List.mem_cons.mp hu with rfl | hu
    · exact hP _ a ha
    · exact ih rfl u hu

/-- The invariant rule for a fact about the states so far and the present one. -/
theorem Trace.invariant {s t : σ} {l : List σ} (Inv : List σ → σ → Prop) (h₀ : Inv [s] s)
    (hstep : ∀ l t a u, Trace step ok s (t :: l) → ok t a → step t a = some u → Inv (t :: l) t →
      Inv (u :: t :: l) u) (h : Trace step ok s (t :: l)) : Inv (t :: l) t := by
  generalize hl : t :: l = m at h
  induction h generalizing t l with
  | start => cases hl; exact h₀
  | next a htr ha hs ih => cases hl; exact hstep _ _ a _ htr ha hs (ih rfl)

/-- What the steps of a trace add up to, oldest step first; `f` says what one step adds. -/
def events {ε : Type*} (f : σ → σ → List ε) : List σ → List ε
  | u :: t :: l => events f (t :: l) ++ f t u
  | _ => []

/-- The invariant rule for what has happened: a fact about the events so far and the present
state. -/
theorem Trace.events_invariant {ε : Type*} {f : σ → σ → List ε} {s t : σ} {l : List σ}
    (Inv : List ε → σ → Prop) (h₀ : Inv [] s)
    (hstep : ∀ es t a u, Run step ok s t → ok t a → step t a = some u → Inv es t →
      Inv (es ++ f t u) u) (h : Trace step ok s (t :: l)) : Inv (events f (t :: l)) t :=
  h.invariant (fun l t => Inv (events f l) t) h₀ fun _ t a u htr ha hs ih =>
    hstep _ t a u htr.run ha hs ih

/-- A run with what its steps write to a log; `f` says what one step writes. -/
inductive Logged {ε : Type*} (step : σ → α → Option σ) (ok : σ → α → Prop) (f : σ → α → List ε)
    (s : σ) : σ → List ε → Prop
  | refl : Logged step ok f s s []
  | next {t u : σ} {es : List ε} (a : α) : Logged step ok f s t es → ok t a → step t a = some u →
      Logged step ok f s u (es ++ f t a)

theorem Logged.run {ε : Type*} {f : σ → α → List ε} {s t : σ} {es : List ε}
    (h : Logged step ok f s t es) : Run step ok s t := by
  induction h with
  | refl => exact .refl
  | next a _ ha hs ih => exact .next a ih ha hs

theorem Run.exists_logged {ε : Type*} (f : σ → α → List ε) {s t : σ} (h : Run step ok s t) :
    ∃ es, Logged step ok f s t es := by
  induction h with
  | refl => exact ⟨[], .refl⟩
  | next a _ ha hs ih =>
    obtain ⟨es, hes⟩ := ih
    exact ⟨_, .next a hes ha hs⟩

/-- The step function with a history, to which a step adds what `f` says. A guard of its runs may
speak of what has happened. -/
def record {ε : Type} (step : σ → α → Option σ) (f : σ → α → List ε) (x : σ × List ε) (a : α) :
    Option (σ × List ε) :=
  (step x.1 a).map fun t => (t, x.2 ++ f x.1 a)

theorem Run.of_record {ε : Type} {f : σ → α → List ε} {okr : σ × List ε → α → Prop}
    {x y : σ × List ε} (hok : ∀ x a, okr x a → ok x.1 a) (h : Run (record step f) okr x y) :
    Run step ok x.1 y.1 := by
  induction h with
  | refl => exact .refl
  | next a _ ha hs ih =>
    obtain ⟨u, hu, rfl⟩ := Option.map_eq_some_iff.mp hs
    exact .next a ih (hok _ _ ha) hu

def exec (step : σ → α → Option σ) (okb : σ → α → Bool) : σ → List α → Option σ
  | s, [] => some s
  | s, a :: as =>
    if okb s a then
      match step s a with
      | none => none
      | some t => exec step okb t as
    else none

theorem Run.of_exec {okb : σ → α → Bool} (hok : ∀ s a, okb s a = true → ok s a) :
    ∀ (as : List α) (s t : σ), exec step okb s as = some t → Run step ok s t := by
  intro as
  induction as with
  | nil => intro s t h; cases h; exact .refl
  | cons a as ih =>
    intro s t h
    simp only [exec] at h
    split at h
    · rename_i ha
      split at h
      · cases h
      · rename_i u hu
        exact (Run.next a .refl (hok _ _ ha) hu).trans (ih u t h)
    · cases h

theorem Run.exists_of_exec {okb : σ → α → Bool} (hok : ∀ s a, okb s a = true → ok s a)
    {as : List α} {s : σ} {p : σ → Bool} (h : (exec step okb s as).any p = true) :
    ∃ t, Run step ok s t ∧ p t = true := by
  cases ht : exec step okb s as with
  | none => rw [ht] at h; cases h
  | some t => rw [ht] at h; exact ⟨t, of_exec hok as s t ht, h⟩

/-- The unwinding rule of noninterference. If the hidden actions do not change what `R` compares, and
the others go the same way from states that `R` relates, then a script can do without the hidden
actions. -/
theorem exec_purge {R : σ → σ → Prop} {hidden : α → Bool}
    (hhide : ∀ s a s' t, hidden a = true → step s a = some s' → R s t → R s' t)
    (hshow : ∀ s a s' t, hidden a = false → step s a = some s' → R s t →
      ∃ t', step t a = some t' ∧ R s' t') :
    ∀ (as : List α) (s t s' : σ), R s t → exec step (fun _ _ => true) s as = some s' →
      ∃ t', exec step (fun _ _ => true) t (as.filter fun a => !hidden a) = some t' ∧ R s' t' := by
  intro as
  induction as with
  | nil => intro s t s' hR h; cases h; exact ⟨t, rfl, hR⟩
  | cons a as ih =>
    intro s t s' hR h
    simp only [exec, if_true] at h
    cases hs : step s a with
    | none => rw [hs] at h; cases h
    | some s₁ =>
      rw [hs] at h
      cases ha : hidden a with
      | true => simpa [ha] using ih s₁ t s' (hhide s a s₁ t ha hs hR) h
      | false =>
        obtain ⟨t₁, ht, hR₁⟩ := hshow s a s₁ t ha hs hR
        simpa [ha, exec, ht] using ih s₁ t₁ s' hR₁ h

end TomChain.Runs
