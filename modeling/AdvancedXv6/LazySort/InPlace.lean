import AdvancedXv6.LazySort.Columns
import Mathlib.Order.CompletePartialOrder

/-!
# Sorting in place

What `merge_sort` leaves in its part of the array and around it, and what is in the index ranges that `sort_files` hands to its threads when the threads have ended.
-/

namespace AdvancedXv6.LazySort

variable {left right : ℕ} {files : List File} {qsort : Qsort}

/-- What `merge_sort` makes of the array: the part between the bounds is sorted, files that compare equal keep their order, and the rest stays. -/
structure SortedStably (compare : Compare) (left right : ℕ) (m m' : ℕ → File) : Prop where
  sorted : (segment m' left (right + 1 - left)).Pairwise fun a b => compare a b ≤ 0
  perm : (segment m' left (right + 1 - left)).Perm (segment m left (right + 1 - left))
  stable : ∀ a, (segment m' left (right + 1 - left)).filter (fun b => compare a b ≤ 0 ∧ compare b a ≤ 0) =
    (segment m left (right + 1 - left)).filter fun b => compare a b ≤ 0 ∧ compare b a ≤ 0
  outside : ∀ i, i < left ∨ right < i → m' i = m i

/-- For every comparison that is a total preorder, `merge_sort` sorts stably and in place, and looks at no file outside its bounds. -/
theorem mergeSort_sorts_stably {compare : Compare} (htotal : ∀ a b, compare a b ≤ 0 ∨ compare b a ≤ 0)
    (htrans : ∀ a b c, compare a b ≤ 0 → compare b c ≤ 0 → compare a c ≤ 0) (hle : left ≤ right) (m : ℕ → File) :
    SortedStably compare left right m ((mergeSort left right compare).run m).2 ∧
      (mergeSort left right compare).Within {i | left ≤ i ∧ i ≤ right} fun _ => True := by
  have htotal' : ∀ a b, (Compare.le compare a b || Compare.le compare b a) = true := by
    intro a b
    simpa [Compare.le] using htotal a b
  have htrans' : ∀ a b c, Compare.le compare a b = true → Compare.le compare b c = true → Compare.le compare a c = true := by
    intro a b c hab hbc
    simp only [Compare.le, decide_eq_true_eq] at hab hbc ⊢
    exact htrans a b c hab hbc
  refine ⟨?_, within_mergeSort compare fun i hi hi' => ⟨hi, hi'⟩⟩
  rw [run_mergeSort left right compare hle]
  generalize hold : segment m left (right + 1 - left) = old
  have hlength : (old.mergeSort (Compare.le compare)).length = right + 1 - left := by
    rw [List.length_mergeSort, ← hold, length_segment]
  have hnew : segment (place m left (old.mergeSort (Compare.le compare))) left (right + 1 - left) = old.mergeSort (Compare.le compare) := by
    rw [← hlength]
    exact segment_place _ _ _
  constructor
  · rw [hnew]
    exact (List.pairwise_mergeSort htrans' htotal' old).imp fun h => by simpa [Compare.le] using h
  · rw [hnew, hold]
    exact List.mergeSort_perm _ _
  · intro a
    rw [hnew, hold]
    apply List.filter_mergeSort htrans' htotal'
    intro b c hb hc
    rw [decide_eq_true_eq] at hb hc
    exact htrans' b a c (decide_eq_true hb.2) (decide_eq_true hc.1)
  · intro i hi
    exact place_of_notMem m (by omega)

/-- Two files in the wrong order. -/
theorem mergeSort_sorts_stably_names : ∃ m : ℕ → File, ¬ compareByName (m 0) (m 1) ≤ 0 ∧
    SortedStably compareByName 0 1 m ((mergeSort 0 1 compareByName).run m).2 := by
  refine ⟨fun i => if i = 0 then ⟨[98], 0, []⟩ else ⟨[97], 0, []⟩, by decide, ?_⟩
  have htotal (a b : File) : compareByName a b ≤ 0 ∨ compareByName b a ≤ 0 := by
    simpa [Compare.le] using names_total a b
  have htrans (a b c : File) (hab : compareByName a b ≤ 0) (hbc : compareByName b c ≤ 0) : compareByName a c ≤ 0 :=
    of_decide_eq_true (names_trans a b c (decide_eq_true hab) (decide_eq_true hbc))
  exact (mergeSort_sorts_stably htotal htrans (Nat.zero_le 1) _).1

def range (n : ℕ) (i : Fin 4) : Set ℕ := {j | startIdx n i ≤ j ∧ j ≤ endIdx n i}

theorem exists_range {n : ℕ} (hn : threshold ≤ n) {j : ℕ} (hj : j < n) : ∃ i, j ∈ range n i := by
  rw [threshold] at hn
  generalize hq : n / 4 = q
  by_cases h1 : j < q
  · exact ⟨0, by simp [range, startIdx, endIdx, hq]; omega⟩
  by_cases h2 : j < 2 * q
  · exact ⟨1, by simp [range, startIdx, endIdx, hq]; omega⟩
  by_cases h3 : j < 3 * q
  · exact ⟨2, by simp [range, startIdx, endIdx, hq]; omega⟩
  · exact ⟨3, by simp [range, startIdx, endIdx, hq]; omega⟩

theorem chunk_map_of_finished (hn : threshold ≤ files.length) {c : Threads 4 File}
    (hreach : Threads.Reachable (start qsort files) c) (hdone : c.Finished) (i : Fin 4) :
    chunk ((List.range files.length).map c.mem) i = (chunk files i).mergeSort (Compare.le compareByName) := by
  have hlength : ((List.range files.length).map c.mem).length = files.length := by simp
  rw [← segment_of_finished hn hreach hdone i, ← segment_chunk (by rw [hlength]; exact hn), hlength]
  obtain ⟨hle, hlt⟩ := bounds_endIdx hn i
  apply segment_congr
  intro j hj hj'
  rw [List.getD_eq_getElem _ _ (by rw [hlength]; omega), List.getElem_map, List.getElem_range]

/-- The four ranges are a partition of the array, and all interleavings of the threads end, with the same array: each range has what it had before, sorted by name. -/
theorem threads_partition (qsort : Qsort) (hn : threshold ≤ files.length) :
    (∀ i, range files.length i ⊆ {j | j < files.length}) ∧ (∀ i j, i ≠ j → Disjoint (range files.length i) (range files.length j)) ∧
      (∀ j < files.length, ∃ i, j ∈ range files.length i) ∧
      ∃ out : List File, out.Perm files ∧ (∀ i, (chunk out i).Perm (chunk files i) ∧ (chunk out i).Pairwise fun a b => a.name ≤ b.name) ∧
        (∀ c, Threads.Reachable (start qsort files) c → c.Finished → (List.range files.length).map c.mem = out) ∧
        ∃ c, Threads.Reachable (start qsort files) c ∧ c.Finished := by
  refine ⟨fun i j hj => lt_of_le_of_lt hj.2 (bounds_endIdx hn i).2, fun i j hij => ?_, fun j hj => exists_range hn hj, ?_⟩
  · rw [Set.disjoint_left]
    exact fun k hk hk' => (separate_start qsort hn).disjoint i j hij k hk hk'
  obtain ⟨c, hrun, hdone⟩ := Threads.exists_finished (start qsort files)
  have hreach : Threads.Reachable (start qsort files) c := ⟨_, rfl, hrun⟩
  refine ⟨sortedChunks files, sortedChunks_perm hn, fun i => ?_, fun c' hreach' hdone' => map_of_finished hn hreach' hdone', c, hreach, hdone⟩
  rw [← map_of_finished hn hreach hdone, chunk_map_of_finished hn hreach hdone]
  refine ⟨List.mergeSort_perm _ _, ?_⟩
  have hsorted : ((chunk files i).mergeSort (Compare.le compareByName)).Pairwise fun a b => Compare.le compareByName a b = true :=
    List.pairwise_mergeSort names_trans names_total _
  exact hsorted.imp fun h => le_compareByName_iff.mp h

def descending : List File :=
  (List.finRange 43).reverse.map fun j => ⟨[j.succ.castLE (by decide)], 0, []⟩

/-- The threads change the order of files whose names descend. -/
theorem threads_partition_descending : threshold ≤ descending.length ∧
    ∃ c, Threads.Reachable (start (fun files _ => files) descending) c ∧ c.Finished ∧
      ((List.range descending.length).map c.mem).Perm descending ∧
      (List.range descending.length).map c.mem ≠ descending := by
  have hlength : threshold ≤ descending.length := by decide
  obtain ⟨_, _, _, out, hperm, hsorted, hall, c, hreach, hdone⟩ :=
    threads_partition (fun files _ => files) hlength
  refine ⟨hlength, c, hreach, hdone, hall c hreach hdone ▸ hperm, fun heq => ?_⟩
  have hchunk := (hsorted 0).2
  rw [← hall c hreach hdone, heq] at hchunk
  exact absurd hchunk (by decide)

end AdvancedXv6.LazySort
