import Mathlib.LinearAlgebra.Lagrange

/-!
# Secret sharing with Lagrange coefficients at zero

A polynomial is the list of its coefficients, lowest first. Its values at the nodes `v i` are
combined with the Lagrange coefficients at zero, in any vector space over the field; the polynomial
is recovered at zero when there are at least as many nodes as coefficients.
-/

namespace TomChain.Sharing

open Polynomial

variable {F G ι : Type} [Field F] [AddCommGroup G] [Module F G]

/-- The value at `x`, by Horner's rule. -/
def evalPoly : List F → F → F
  | [], _ => 0
  | c :: cs, x => c + x * evalPoly cs x

/-- The Lagrange coefficient at zero of the node `i` among the nodes `is`. -/
def coeffAtZero [DecidableEq ι] (v : ι → F) (is : List ι) (i : ι) : F :=
  ((is.filter (· ≠ i)).map fun j => v j / (v j - v i)).prod

def combine [DecidableEq ι] (v : ι → F) (shares : List (ι × G)) : G :=
  (shares.map fun s => coeffAtZero v (shares.map Prod.fst) s.1 • s.2).sum

/-! ## Coefficient lists and polynomials -/

noncomputable def toPoly : List F → F[X]
  | [] => 0
  | c :: cs => C c + X * toPoly cs

theorem eval_toPoly (f : List F) (x : F) : (toPoly f).eval x = evalPoly f x := by
  induction f with
  | nil => simp [toPoly, evalPoly]
  | cons c cs ih => simp [toPoly, evalPoly, ih]

theorem degree_toPoly_lt (f : List F) : (toPoly f).degree < f.length := by
  rw [Polynomial.degree_lt_iff_coeff_zero]
  induction f with
  | nil => simp [toPoly]
  | cons c cs ih =>
    intro m hm
    cases m with
    | zero => simp at hm
    | succ m => simpa [toPoly, Polynomial.coeff_C] using ih m (by simpa using hm)

theorem evalPoly_map_range (a : ℕ → F) (n : ℕ) (x : F) :
    evalPoly ((List.range n).map a) x = ∑ i ∈ Finset.range n, a i * x ^ i := by
  induction n generalizing a with
  | zero => simp [evalPoly]
  | succ n ih =>
    rw [List.range_succ_eq_map, List.map_cons, List.map_map, evalPoly, ih, Finset.sum_range_succ',
      Finset.mul_sum, add_comm]
    congr 1
    · refine Finset.sum_congr rfl fun i _ => ?_
      rw [Function.comp_apply, Nat.succ_eq_add_one, pow_succ]
      ring
    · simp

/-! ## Recovery -/

variable [DecidableEq ι] {v : ι → F} {is : List ι}

theorem coeffAtZero_eq_eval_basis (hnd : is.Nodup) (i : ι) :
    coeffAtZero v is i = (Lagrange.basis is.toFinset v i).eval 0 := by
  have hset : (is.filter (· ≠ i)).toFinset = is.toFinset.erase i := by
    ext j
    simp [and_comm]
  rw [coeffAtZero, Lagrange.basis, eval_prod, ← hset, List.prod_toFinset _ (hnd.filter _)]
  refine congrArg List.prod (List.map_congr_left fun j _ => ?_)
  rw [Lagrange.basisDivisor, eval_mul, eval_C, eval_sub, eval_X, eval_C, zero_sub, mul_neg,
    ← neg_mul, ← inv_neg, neg_sub, div_eq_inv_mul]

theorem coeffAtZero_ne_zero (hv : Set.InjOn v {i | i ∈ is}) (hne : ∀ i ∈ is, v i ≠ 0) {i : ι}
    (hi : i ∈ is) : coeffAtZero v is i ≠ 0 := by
  refine List.prod_ne_zero fun hz => ?_
  obtain ⟨j, hj, hzero⟩ := List.mem_map.mp hz
  rw [List.mem_filter, decide_eq_true_eq] at hj
  rcases div_eq_zero_iff.mp hzero with h | h
  · exact hne j hj.1 h
  · exact hj.2 (hv hj.1 hi (sub_eq_zero.mp h))

/-- Multiples of one vector are combined in the field. -/
theorem combine_smul (a : ι → F) (g : G) :
    combine v (is.map fun i => (i, a i • g)) = (is.map fun i => coeffAtZero v is i * a i).sum • g := by
  have hfst : (is.map fun i => (i, a i • g)).map Prod.fst = is := by
    simp [List.map_map, Function.comp_def]
  rw [combine, hfst, List.map_map, List.sum_smul, List.map_map]
  refine congrArg List.sum (List.map_congr_left fun i _ => ?_)
  simp [mul_smul]

theorem sum_coeffAtZero (hnd : is.Nodup) (a : ι → F) :
    (is.map fun i => coeffAtZero v is i * a i).sum =
      (Lagrange.interpolate is.toFinset v a).eval 0 := by
  rw [Lagrange.interpolate_apply, eval_finsetSum, List.sum_toFinset _ hnd]
  refine congrArg List.sum (List.map_congr_left fun i _ => ?_)
  rw [eval_mul, eval_C, coeffAtZero_eq_eval_basis hnd, mul_comm]

/-- Enough values of a polynomial give its value at zero. -/
theorem sum_coeffAtZero_evalPoly (hnd : is.Nodup) (hv : Set.InjOn v {i | i ∈ is}) {f : List F}
    (hf : f.length ≤ is.length) :
    (is.map fun i => coeffAtZero v is i * evalPoly f (v i)).sum = evalPoly f 0 := by
  have hv' : Set.InjOn v is.toFinset := by simpa using hv
  have hdeg : (toPoly f).degree < is.toFinset.card := by
    rw [List.toFinset_card_of_nodup hnd]
    exact (degree_toPoly_lt f).trans_le (by exact_mod_cast hf)
  have hvals : (fun i => evalPoly f (v i)) = fun i => (toPoly f).eval (v i) := by
    funext i
    rw [eval_toPoly]
  rw [sum_coeffAtZero hnd, hvals, ← Lagrange.eq_interpolate hv' hdeg, eval_toPoly]

/-- Any values at the nodes are the values of a polynomial with at most that many coefficients. -/
theorem exists_evalPoly (hnd : is.Nodup) (hv : Set.InjOn v {i | i ∈ is}) (a : ι → F) :
    ∃ f : List F, f.length ≤ is.length ∧ ∀ i ∈ is, evalPoly f (v i) = a i := by
  have hv' : Set.InjOn v is.toFinset := by simpa using hv
  have hdeg := Lagrange.degree_interpolate_lt a hv'
  rw [List.toFinset_card_of_nodup hnd] at hdeg
  refine ⟨(List.range is.length).map (Lagrange.interpolate is.toFinset v a).coeff, by simp,
    fun i hi => ?_⟩
  have hnat : (Lagrange.interpolate is.toFinset v a).natDegree < is.length := by
    have hpos : 0 < is.length := List.length_pos_of_mem hi
    by_cases hz : Lagrange.interpolate is.toFinset v a = 0
    · rw [hz, natDegree_zero]; exact hpos
    · exact (natDegree_lt_iff_degree_lt hz).mpr hdeg
  rw [evalPoly_map_range, ← eval_eq_sum_range' hnat]
  exact Lagrange.eval_interpolate_at_node a hv' (List.mem_toFinset.mpr hi)

end TomChain.Sharing
