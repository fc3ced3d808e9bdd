import Mathlib.Data.List.Sort

/-!
# What a stable sort leaves in order

`List.mergeSort` sorts by one relation and keeps the order of elements that this relation does not tell apart. So for any other relation one can say on the input whether the output will be in order with respect to it.
-/

namespace List

variable {α : Type*} {le : α → α → Bool} {l : List α}

variable (htrans : ∀ a b c, le a b = true → le b c = true → le a c = true) (htotal : ∀ a b, (le a b || le b a) = true)
include htrans htotal

/-- Elements that the order does not tell apart stay as they were. -/
theorem filter_mergeSort {p : α → Bool} (hp : ∀ a b, p a = true → p b = true → le a b = true) : (l.mergeSort le).filter p = l.filter p := by
  have hpairwise : (l.filter p).Pairwise fun a b => le a b = true :=
    List.pairwise_of_forall_mem_list fun a ha b hb => hp a b (List.of_mem_filter ha) (List.of_mem_filter hb)
  have hsub := (List.sublist_mergeSort htrans htotal hpairwise List.filter_sublist).filter p
  rw [List.filter_filter, List.filter_congr fun a _ => Bool.and_self (p a)] at hsub
  refine (hsub.eq_of_length ?_).symm
  exact ((List.mergeSort_perm l le).filter p).length_eq.symm

omit htrans htotal in
theorem pair_sublist_or {a b : α} (ha : a ∈ l) (hb : b ∈ l) (hne : a ≠ b) : [a, b].Sublist l ∨ [b, a].Sublist l := by
  induction l with
  | nil => cases ha
  | cons x l ih =>
    rcases List.mem_cons.mp ha with rfl | ha'
    · exact .inl (List.cons_sublist_cons.mpr (List.singleton_sublist.mpr ((List.mem_cons.mp hb).resolve_left (Ne.symm hne))))
    · rcases List.mem_cons.mp hb with rfl | hb'
      · exact .inr (List.cons_sublist_cons.mpr (List.singleton_sublist.mpr ha'))
      · exact (ih ha' hb').imp (List.Sublist.cons x) (List.Sublist.cons x)

/-- The output is in order with respect to `R` if and only if every pair of the input is, in the order in which the sort puts it. -/
theorem pairwise_mergeSort_iff (R : α → α → Prop) :
    (l.mergeSort le).Pairwise R ↔ l.Pairwise fun a b => if le a b = true then R a b else R b a := by
  have hsorted := List.pairwise_mergeSort htrans htotal l
  have hrefl : ∀ a, le a a = true := fun a => by simpa using htotal a a
  have hmem : ∀ {a}, a ∈ l.mergeSort le ↔ a ∈ l := List.mem_mergeSort
  rw [List.pairwise_iff_forall_sublist] at hsorted
  rw [List.pairwise_iff_forall_sublist, List.pairwise_iff_forall_sublist]
  constructor
  · intro hR a b hab
    split
    · rename_i hle
      exact hR (List.pair_sublist_mergeSort htrans htotal hle hab)
    · rename_i hle
      have hne : a ≠ b := fun heq => hle (heq ▸ hrefl a)
      have ha : a ∈ l := hab.subset (by simp)
      have hb : b ∈ l := hab.subset (by simp)
      exact hR ((pair_sublist_or (hmem.mpr ha) (hmem.mpr hb) hne).resolve_left fun h => hle (hsorted h))
  · intro hR a b hab
    have hle := hsorted hab
    have ha : a ∈ l := hmem.mp (hab.subset (by simp))
    have hb : b ∈ l := hmem.mp (hab.subset (by simp))
    by_cases hback : le b a = true
    · -- equal in the order: the pair stood like this in the input
      let p : α → Bool := fun x => le a x && le x a
      have hp : ∀ x y, p x = true → p y = true → le x y = true := by
        intro x y hx hy
        rw [Bool.and_eq_true] at hx hy
        exact htrans x a y hx.2 hy.1
      have hfilter := hab.filter p
      rw [filter_mergeSort htrans htotal hp] at hfilter
      have hpair : [a, b].filter p = [a, b] := by simp [p, hrefl a, hle, hback]
      rw [hpair] at hfilter
      have hstood := hR (hfilter.trans List.filter_sublist)
      rwa [if_pos hle] at hstood
    · have hne : a ≠ b := fun heq => hback (heq ▸ hrefl a)
      rcases pair_sublist_or ha hb hne with h | h
      · have hstood := hR h
        rwa [if_pos hle] at hstood
      · have hstood := hR h
        rwa [if_neg hback] at hstood

end List
