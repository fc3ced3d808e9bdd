import Mathlib.Algebra.BigOperators.Group.Finset.Basic
import Mathlib.Algebra.BigOperators.Group.Finset.Piecewise
import Mathlib.Algebra.Order.BigOperators.Group.Finset

/-!
# Counting references

Slots refer to objects, several slots to one object. The references to an object are counted over a finite set of slots. A change of one slot takes its reference from the old object and gives one to the new object, and leaves the count of every other object alone.
-/

namespace Sharing

variable {Slot Object : Type*} [DecidableEq Slot] [DecidableEq Object] {slots : Finset Slot}
  {target target' : Slot → Option Object} {s t : Slot} {p : Object}

def refs (slots : Finset Slot) (target : Slot → Option Object) (p : Object) : ℕ :=
  ∑ s ∈ slots, if target s = some p then 1 else 0

omit [DecidableEq Slot] in
theorem refs_congr (hsame : ∀ s ∈ slots, target' s = target s) (p : Object) :
    refs slots target' p = refs slots target p := by
  apply Finset.sum_congr rfl
  intro s hs
  rw [hsame s hs]

theorem refs_change (hs : s ∈ slots) (hsame : ∀ t ∈ slots, t ≠ s → target' t = target t) (p : Object) :
    refs slots target' p + (if target s = some p then 1 else 0) =
      refs slots target p + if target' s = some p then 1 else 0 := by
  have hsplit : ∀ f : Slot → Option Object, refs slots f p =
      (if f s = some p then 1 else 0) + ∑ t ∈ slots.erase s, if f t = some p then 1 else 0 :=
    fun f => (Finset.add_sum_erase slots (fun t => if f t = some p then 1 else 0) hs).symm
  have hrest : ∑ t ∈ slots.erase s, (if target' t = some p then 1 else 0) =
      ∑ t ∈ slots.erase s, if target t = some p then 1 else 0 := by
    apply Finset.sum_congr rfl
    intro t ht
    rw [hsame t (Finset.mem_of_mem_erase ht) (Finset.ne_of_mem_erase ht)]
  rw [hsplit target', hsplit target, hrest]
  omega

omit [DecidableEq Slot] in
theorem refs_eq_zero_iff : refs slots target p = 0 ↔ ∀ s ∈ slots, target s ≠ some p := by
  unfold refs
  rw [Finset.sum_eq_zero_iff]
  constructor
  · intro h s hs heq
    have hone := h s hs
    rw [if_pos heq] at hone
    omega
  · intro h s hs
    exact if_neg (h s hs)

omit [DecidableEq Slot] in
theorem one_le_refs (hs : s ∈ slots) (htarget : target s = some p) : 1 ≤ refs slots target p := by
  by_contra hlt
  exact refs_eq_zero_iff.mp (by omega) s hs htarget

omit [DecidableEq Slot] in
theorem refs_le_one (hone : ∀ s ∈ slots, ∀ t ∈ slots, target s = some p → target t = some p → s = t) : refs slots target p ≤ 1 := by
  unfold refs
  rw [← Finset.card_filter]
  refine Finset.card_le_one.mpr fun s hs t ht => ?_
  obtain ⟨hs, hsp⟩ := Finset.mem_filter.mp hs
  obtain ⟨ht, htp⟩ := Finset.mem_filter.mp ht
  exact hone s hs t ht hsp htp

omit [DecidableEq Slot] in
theorem refs_mono (hle : ∀ s ∈ slots, target' s = some p → target s = some p) : refs slots target' p ≤ refs slots target p := by
  refine Finset.sum_le_sum fun s hs => ?_
  split
  · rw [if_pos (hle s hs ‹_›)]
  · exact Nat.zero_le _

end Sharing
