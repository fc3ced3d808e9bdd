import Mathlib.Algebra.BigOperators.Group.Finset.Basic
import Mathlib.Algebra.BigOperators.Ring.Finset
import Mathlib.Algebra.Order.BigOperators.Group.Finset
import Mathlib.Algebra.BigOperators.Fin
import Mathlib.Data.Fintype.BigOperators

/-!
# Weights over a family of agents

The number of agents in some part of their code, or of tokens they hold together, is a sum over the agents of a weight that each agent's local state has. A step moves one agent, so it changes the sum by the difference of two weights; the sum is one when a single agent carries it, and an agent of positive weight is found whenever the sum is positive.
-/

namespace Weights

open Function

variable {ι σ : Type*} [Fintype ι]

def total (weight : ι → σ → ℕ) (local_ : ι → σ) : ℕ := ∑ i, weight i (local_ i)

section

variable {weight weight' : ι → σ → ℕ} {local_ : ι → σ}

theorem exists_pos_of_total_pos (hpos : 0 < total weight local_) : ∃ i, 0 < weight i (local_ i) := by
  by_contra hnone
  push Not at hnone
  have hzero : total weight local_ = 0 := Finset.sum_eq_zero fun i _ => Nat.le_zero.mp (hnone i)
  omega

theorem total_mono (hle : ∀ i, weight i (local_ i) ≤ weight' i (local_ i)) : total weight local_ ≤ total weight' local_ :=
  Finset.sum_le_sum fun i _ => hle i

theorem total_lt_total (hle : ∀ i, weight i (local_ i) ≤ weight' i (local_ i)) {i : ι} (hlt : weight i (local_ i) < weight' i (local_ i)) :
    total weight local_ < total weight' local_ :=
  Finset.sum_lt_sum (fun i _ => hle i) ⟨i, Finset.mem_univ i, hlt⟩

theorem total_eq_zero (hzero : ∀ i, weight i (local_ i) = 0) : total weight local_ = 0 := Finset.sum_eq_zero fun i _ => hzero i

end

section

variable (weight weight' : ι → σ → ℕ) (local_ : ι → σ)

theorem total_mul (k : ℕ) : total (fun i x => k * weight i x) local_ = k * total weight local_ := (Finset.mul_sum _ _ _).symm

theorem total_add : total (fun i x => weight i x + weight' i x) local_ = total weight local_ + total weight' local_ := Finset.sum_add_distrib

theorem le_total (i : ι) : weight i (local_ i) ≤ total weight local_ :=
  Finset.single_le_sum (f := fun j => weight j (local_ j)) (fun _ _ => Nat.zero_le _) (Finset.mem_univ i)

variable [DecidableEq ι]

/-- Moving one agent trades its old weight for its new one. -/
theorem total_update (i : ι) (x : σ) :
    total weight (update local_ i x) + weight i (local_ i) = total weight local_ + weight i x := by
  have hsplit : ∀ f : ι → σ, total weight f = weight i (f i) + ∑ j ∈ Finset.univ.erase i, weight j (f j) :=
    fun f => (Finset.add_sum_erase Finset.univ (fun j => weight j (f j)) (Finset.mem_univ i)).symm
  have hrest : ∑ j ∈ Finset.univ.erase i, weight j (update local_ i x j) =
      ∑ j ∈ Finset.univ.erase i, weight j (local_ j) := by
    apply Finset.sum_congr rfl
    intro j hj
    rw [update_of_ne (Finset.ne_of_mem_erase hj)]
  rw [hsplit, hsplit local_, hrest, update_self]
  omega

theorem two_le_total {i j : ι} (hne : i ≠ j) :
    weight i (local_ i) + weight j (local_ j) ≤ total weight local_ := by
  have hi : total weight local_ = weight i (local_ i) + ∑ k ∈ Finset.univ.erase i, weight k (local_ k) :=
    (Finset.add_sum_erase Finset.univ (fun k => weight k (local_ k)) (Finset.mem_univ i)).symm
  have hj : weight j (local_ j) ≤ ∑ k ∈ Finset.univ.erase i, weight k (local_ k) :=
    Finset.single_le_sum (f := fun k => weight k (local_ k)) (fun _ _ => Nat.zero_le _)
      (Finset.mem_erase.mpr ⟨hne.symm, Finset.mem_univ j⟩)
  omega

end

/-! ### Tables -/

variable {n k : ℕ} {weight : σ → ℕ} {table : ℕ → σ}

def below (n : ℕ) (weight : σ → ℕ) (table : ℕ → σ) : ℕ := total (fun (_ : Fin n) x => weight x) fun i => table i

theorem below_update (hk : k < n) (x : σ) : below n weight (update table k x) + weight (table k) = below n weight table + weight x := by
  have hsame : (fun i : Fin n => update table k x i) = update (fun i : Fin n => table i) ⟨k, hk⟩ x := by
    funext i
    by_cases hi : i = ⟨k, hk⟩
    · subst hi
      rw [update_self, update_self]
    · rw [update_of_ne hi, update_of_ne fun hval => hi (Fin.ext hval)]
  unfold below
  rw [hsame]
  exact total_update _ (fun i : Fin n => table i) ⟨k, hk⟩ x

theorem le_below (hk : k < n) : weight (table k) ≤ below n weight table :=
  le_total (fun (_ : Fin n) x => weight x) (fun i => table i) ⟨k, hk⟩

theorem below_zero : below 0 weight table = 0 := total_eq_zero fun i => i.elim0

theorem below_succ : below (n + 1) weight table = below n weight table + weight (table n) := Fin.sum_univ_castSucc fun i : Fin (n + 1) => weight (table i)

theorem below_eq_zero (hzero : ∀ i < n, weight (table i) = 0) : below n weight table = 0 := total_eq_zero fun i => hzero i i.isLt

end Weights
