import AdvancedXv6.LazySort.Model
import AdvancedXv6.Lib.StableSort
import Mathlib.Data.List.GetD
import Mathlib.Tactic.FinCases

/-!
# What the sorting program prints

`merge_sort` is the library's stable merge sort, run on a part of the array. The four threads keep to their chunks, so the array printed by a run with threads is the same for every interleaving: the four chunks, each sorted by name, one after the other. Nothing merges them, and nobody looks at `sort_column`.

From this one can read off the input when the output is sorted.
-/

namespace AdvancedXv6.LazySort

open Function

def Compare.le (compare : Compare) (a b : File) : Bool := compare a b ≤ 0

/-! ### Parts of the array -/

def segment (m : ℕ → File) (left n : ℕ) : List File := (List.range' left n).map m

def place (m : ℕ → File) : ℕ → List File → ℕ → File
  | _, [] => m
  | k, file :: rest => place (update m k file) (k + 1) rest

@[simp] theorem length_segment (m : ℕ → File) (left n : ℕ) : (segment m left n).length = n := by simp [segment]

theorem segment_append (m : ℕ → File) (left n n' : ℕ) : segment m left n ++ segment m (left + n) n' = segment m left (n + n') := by
  rw [segment, segment, segment, ← List.map_append, List.range'_append_1]

variable {qsort : Qsort} {m m' : ℕ → File} {left n k right : ℕ} {files A B : List File} {S : Set ℕ}

theorem segment_congr (h : ∀ i, left ≤ i → i < left + n → m i = m' i) : segment m left n = segment m' left n := by
  refine List.map_congr_left fun i hi => ?_
  obtain ⟨hle, hlt⟩ := List.mem_range'_1.mp hi
  exact h i hle hlt

theorem place_of_notMem (m : ℕ → File) {i : ℕ} (hi : i < k ∨ k + files.length ≤ i) : place m k files i = m i := by
  induction files generalizing m k with
  | nil => rfl
  | cons file rest ih =>
    rw [List.length_cons] at hi
    rw [place, ih _ (by omega), update_of_ne (by omega)]

theorem segment_place (m : ℕ → File) (k : ℕ) (files : List File) : segment (place m k files) k files.length = files := by
  induction files generalizing m k with
  | nil => rfl
  | cons file rest ih =>
    rw [segment, List.length_cons, List.range'_succ, List.map_cons, place]
    congr 1
    · rw [place_of_notMem _ (.inl (by omega)), update_self]
    · exact ih _ _

theorem eq_place (hin : segment m' k files.length = files)
    (hout : ∀ i, i < k ∨ k + files.length ≤ i → m' i = m i) : m' = place m k files := by
  have hsame : segment m' k files.length = segment (place m k files) k files.length := hin.trans (segment_place m k files).symm
  funext i
  by_cases hi : i < k ∨ k + files.length ≤ i
  · rw [hout i hi, place_of_notMem m hi]
  · refine List.map_inj_left.mp hsame i ?_
    rw [List.mem_range'_1]
    omega

/-! ### The loops -/

theorem run_copy (left n : ℕ) (m : ℕ → File) : (copy left n).run m = (segment m left n, m) := by
  induction n generalizing left with
  | zero => rfl
  | succ n ih => simp [copy, ih, segment, List.range'_succ]

theorem run_store (k : ℕ) (files : List File) (m : ℕ → File) : (store k files).run m = ((), place m k files) := by
  induction files generalizing k m with
  | nil => rfl
  | cons file rest ih => simp [store, ih, place]

theorem run_mergeLoop (compare : Compare) (k : ℕ) (L R : List File) (m : ℕ → File) :
    (mergeLoop compare k L R).run m = ((), place m k (L.merge R (Compare.le compare))) := by
  fun_induction mergeLoop compare k L R generalizing m with
  | case1 k R => simp [run_store]
  | case2 k L hL => simp [run_store]
  | case3 k l L r R hle ih => simp [ih, Compare.le, hle, place]
  | case4 k l L r R hle ih => simp [ih, Compare.le, hle, place]

/-- The two halves of `merge_sort` are those of the library's merge sort: the first is the longer one. -/
theorem mergeSort_append (le : File → File → Bool) (hhalf : A.length = (A.length + B.length + 1) / 2) (hB : B ≠ []) :
    (A ++ B).mergeSort le = (A.mergeSort le).merge (B.mergeSort le) le := by
  have hpos := List.length_pos_iff.mpr hB
  obtain ⟨a, b, rest, hcons⟩ : ∃ a b rest, A ++ B = a :: b :: rest := by
    match hAB : A ++ B with
    | [] | [_] =>
      have hlength := congrArg List.length hAB
      simp only [List.length_append, List.length_nil, List.length_singleton] at hlength
      omega
    | a :: b :: rest => exact ⟨a, b, rest, rfl⟩
  have htake : (a :: b :: rest).take (((a :: b :: rest).length + 1) / 2) = A := by
    rw [← hcons, List.length_append, ← hhalf, List.take_left]
  have hdrop : (a :: b :: rest).drop (((a :: b :: rest).length + 1) / 2) = B := by
    rw [← hcons, List.length_append, ← hhalf, List.drop_left]
  rw [hcons, List.mergeSort]
  simp only [List.MergeSort.Internal.splitInTwo_fst, List.MergeSort.Internal.splitInTwo_snd]
  rw [htake, hdrop]

theorem run_merge {mid : ℕ} (hmid : left ≤ mid) (compare : Compare) (m : ℕ → File)
    (hA : A.length = mid + 1 - left) (hB : B.length = right - mid) :
    (merge left mid right compare).run (place (place m left A) (mid + 1) B) = ((), place m left (A.merge B (Compare.le compare))) := by
  have hleft : segment (place (place m left A) (mid + 1) B) left (mid - left + 1) = A := by
    calc segment (place (place m left A) (mid + 1) B) left (mid - left + 1)
      _ = segment (place m left A) left (mid - left + 1) := segment_congr fun i _ _ => place_of_notMem _ (.inl (by omega))
      _ = segment (place m left A) left A.length := by rw [hA, Nat.sub_add_comm hmid]
      _ = A := segment_place m left A
  have hright : segment (place (place m left A) (mid + 1) B) (mid + 1) (right - mid) = B := by
    rw [← hB]
    exact segment_place _ _ _
  simp only [merge, Code.run_bind, run_copy, run_mergeLoop, hleft, hright]
  refine Prod.ext rfl (eq_place (segment_place _ _ _) fun i hi => ?_)
  change place _ left _ i = m i
  rw [List.length_merge] at hi
  rw [place_of_notMem _ (by rw [List.length_merge]; omega), place_of_notMem _ (by omega), place_of_notMem _ (by omega)]

theorem run_mergeSort (left right : ℕ) (compare : Compare) (hle : left ≤ right) (m : ℕ → File) :
    (mergeSort left right compare).run m = ((), place m left ((segment m left (right + 1 - left)).mergeSort (Compare.le compare))) := by
  induction hn : right - left using Nat.strongRecOn generalizing left right m with
  | _ n ih =>
    rw [mergeSort]
    split
    · rename_i hlt
      generalize hmid : left + (right - left) / 2 = mid
      have hwhole : segment m left (right + 1 - left) = segment m left (mid + 1 - left) ++ segment m (mid + 1) (right + 1 - (mid + 1)) := by
        have happend := segment_append m left (mid + 1 - left) (right + 1 - (mid + 1))
        rw [show left + (mid + 1 - left) = mid + 1 by omega] at happend
        rw [happend]
        congr 1
        omega
      have hhalves := mergeSort_append (Compare.le compare) (A := segment m left (mid + 1 - left))
        (B := segment m (mid + 1) (right + 1 - (mid + 1))) (by simp only [length_segment]; omega)
        (by rw [← List.length_pos_iff, length_segment]; omega)
      have hsecond : segment (place m left ((segment m left (mid + 1 - left)).mergeSort (Compare.le compare))) (mid + 1) (right + 1 - (mid + 1)) =
          segment m (mid + 1) (right + 1 - (mid + 1)) :=
        segment_congr fun i _ _ => place_of_notMem m (.inr (by rw [List.length_mergeSort, length_segment]; omega))
      rw [Code.run_bind, ih (mid - left) (by omega) left mid (by omega) m rfl, Code.run_bind,
        ih (right - (mid + 1)) (by omega) (mid + 1) right (by omega) _ rfl, hsecond, hwhole, hhalves]
      exact run_merge (by omega) compare m (by rw [List.length_mergeSort, length_segment])
        (by rw [List.length_mergeSort, length_segment]; omega)
    · have heq : right = left := by omega
      subst heq
      rw [Nat.add_sub_cancel_left]
      refine Prod.ext rfl ?_
      simp [segment, place]

/-! ### The chunks -/

theorem within_copy (h : ∀ i, left ≤ i → i < left + n → i ∈ S) :
    (copy left n).Within S fun files => files.length = n := by
  induction n generalizing left with
  | zero => exact Code.Within.pure rfl
  | succ n ih =>
    refine (Code.Within.get (h left (by omega) (by omega))).bind fun file _ => ?_
    refine (ih fun i hi hlt => h i (by omega) (by omega)).bind fun rest hrest => ?_
    exact Code.Within.pure (by rw [List.length_cons, hrest])

theorem within_store (h : ∀ i, k ≤ i → i < k + files.length → i ∈ S) :
    (store k files).Within S fun _ => True := by
  induction files generalizing k with
  | nil => exact Code.Within.pure trivial
  | cons file rest ih =>
    rw [List.length_cons] at h
    exact (Code.Within.put (h k (by omega) (by omega)) file).bind fun _ _ => ih fun i hi hlt => h i (by omega) (by omega)

theorem within_mergeLoop (compare : Compare) {L R : List File}
    (h : ∀ i, k ≤ i → i < k + (L.length + R.length) → i ∈ S) : (mergeLoop compare k L R).Within S fun _ => True := by
  fun_induction mergeLoop compare k L R with
  | case1 k R => exact within_store fun i hi hlt => h i hi (by simpa using hlt)
  | case2 k L hL => exact within_store fun i hi hlt => h i hi (by simpa using hlt)
  | case3 k l L r R hle ih | case4 k l L r R hle ih =>
    simp only [List.length_cons] at h ih
    exact (Code.Within.put (h k (by omega) (by omega)) _).bind fun _ _ => ih fun i hi hlt => h i (by omega) (by omega)

theorem within_mergeSort (compare : Compare) (h : ∀ i, left ≤ i → i ≤ right → i ∈ S) :
    (mergeSort left right compare).Within S fun _ => True := by
  fun_induction mergeSort left right compare with
  | case1 left right hlt mid ihleft ihright =>
    refine (ihleft fun i hi hle => h i hi (by omega)).bind fun _ _ => ?_
    refine (ihright fun i hi hle => h i (by omega) hle).bind fun _ _ => ?_
    refine (within_copy fun i hi hlt => h i hi (by omega)).bind fun L hL => ?_
    refine (within_copy fun i hi hlt => h i (by omega) (by omega)).bind fun R hR => ?_
    exact within_mergeLoop compare fun i hi hlt => h i hi (by omega)
  | case2 left right hlt => exact Code.Within.pure trivial

theorem bounds_endIdx (hn : threshold ≤ n) (i : Fin 4) : startIdx n i + 2 ≤ endIdx n i ∧ endIdx n i < n := by
  rw [threshold] at hn
  fin_cases i <;> simp [startIdx, endIdx] <;> omega

theorem endIdx_lt_startIdx (hn : threshold ≤ n) {i j : Fin 4} (hij : i < j) : endIdx n i < startIdx n j := by
  rw [threshold] at hn
  fin_cases i <;> fin_cases j <;> simp [startIdx, endIdx] at hij ⊢ <;> omega

def chunk (files : List File) (i : Fin 4) : List File := (files.take (endIdx files.length i + 1)).drop (startIdx files.length i)

theorem segment_chunk (hn : threshold ≤ files.length) (i : Fin 4) :
    segment (fun j => files.getD j default) (startIdx files.length i) (endIdx files.length i + 1 - startIdx files.length i) = chunk files i := by
  obtain ⟨hle, hlt⟩ := bounds_endIdx hn i
  refine List.ext_getElem ?_ fun j h1 h2 => ?_
  · simp only [length_segment, chunk, List.length_drop, List.length_take]
    omega
  · rw [length_segment] at h1
    simp only [segment, chunk, List.getElem_map, List.getElem_range', List.getElem_drop, List.getElem_take, Nat.one_mul]
    rw [List.getD_eq_getElem]

theorem segment_eq_flatten (hn : threshold ≤ n) (m : ℕ → File) :
    segment m 0 n = ((List.finRange 4).map fun i => segment m (startIdx n i) (endIdx n i + 1 - startIdx n i)).flatten := by
  rw [threshold] at hn
  generalize hq : n / 4 = q
  have hfirst : segment m (startIdx n 0) (endIdx n 0 + 1 - startIdx n 0) = segment m 0 q := by
    congr 1
    · simp [startIdx]
    · simp [startIdx, endIdx]
      omega
  have hsecond : segment m (startIdx n 1) (endIdx n 1 + 1 - startIdx n 1) = segment m q q := by
    congr 1 <;> simp [startIdx, endIdx] <;> omega
  have hthird : segment m (startIdx n 2) (endIdx n 2 + 1 - startIdx n 2) = segment m (q + q) q := by
    congr 1 <;> simp [startIdx, endIdx] <;> omega
  have hfourth : segment m (startIdx n 3) (endIdx n 3 + 1 - startIdx n 3) = segment m (q + q + q) (n - 3 * q) := by
    congr 1 <;> simp [startIdx, endIdx] <;> omega
  have hlist : List.finRange 4 = [0, 1, 2, 3] := rfl
  rw [hlist, List.map_cons, List.map_cons, List.map_cons, List.map_cons, List.map_nil, hfirst, hsecond, hthird, hfourth]
  rw [List.flatten_cons, List.flatten_cons, List.flatten_cons, List.flatten_singleton, segment_append m (q + q), segment_append m q]
  have hlast := segment_append m 0 q (q + (q + (n - 3 * q)))
  rw [Nat.zero_add] at hlast
  rw [hlast]
  congr 1
  omega

theorem flatten_chunk (hn : threshold ≤ files.length) : ((List.finRange 4).map (chunk files)).flatten = files := by
  rw [← List.map_congr_left fun i _ => segment_chunk hn i, ← segment_eq_flatten hn]
  refine List.ext_getElem (length_segment _ _ _) fun j h1 h2 => ?_
  simp only [segment, List.getElem_map, List.getElem_range', Nat.one_mul, Nat.zero_add]
  rw [List.getD_eq_getElem]

/-! ### What a run with threads prints -/

def sortedChunks (files : List File) : List File :=
  ((List.finRange 4).map fun i => (chunk files i).mergeSort (Compare.le compareByName)).flatten

theorem run_threadMergeSort (qsort : Qsort) (hn : threshold ≤ files.length) (i : Fin 4) :
    (((start qsort files).code i).run (start qsort files).mem).2 =
      place (start qsort files).mem (startIdx files.length i) ((chunk files i).mergeSort (Compare.le compareByName)) := by
  obtain ⟨hle, hlt⟩ := bounds_endIdx hn i
  change ((threadMergeSort qsort _ _).run _).2 = _
  rw [threadMergeSort, if_neg (by omega), run_mergeSort _ _ _ (by omega), ← segment_chunk hn i]
  rfl

theorem separate_start (qsort : Qsort) (hn : threshold ≤ files.length) :
    (start qsort files).Separate fun i => {j | startIdx files.length i ≤ j ∧ j ≤ endIdx files.length i} where
  within i := by
    obtain ⟨hle, hlt⟩ := bounds_endIdx hn i
    change (threadMergeSort qsort _ _).Within _ _
    rw [threadMergeSort, if_neg (by omega)]
    exact within_mergeSort _ fun j hj hj' => ⟨hj, hj'⟩
  disjoint i j hij k hk hk' := by
    rcases lt_or_gt_of_ne hij with h | h
    · have := endIdx_lt_startIdx hn h
      exact absurd hk'.1 (by have := hk.2; omega)
    · have := endIdx_lt_startIdx hn h
      exact absurd hk.1 (by have := hk'.2; omega)

theorem segment_of_finished (hn : threshold ≤ files.length) {c : Threads 4 File}
    (hreach : Threads.Reachable (start qsort files) c) (hdone : c.Finished) (i : Fin 4) :
    segment c.mem (startIdx files.length i) (endIdx files.length i + 1 - startIdx files.length i) =
      (chunk files i).mergeSort (Compare.le compareByName) := by
  obtain ⟨hle, hlt⟩ := bounds_endIdx hn i
  have hlength : endIdx files.length i + 1 - startIdx files.length i = ((chunk files i).mergeSort (Compare.le compareByName)).length := by
    rw [List.length_mergeSort, ← segment_chunk hn i, length_segment]
  calc segment c.mem (startIdx files.length i) (endIdx files.length i + 1 - startIdx files.length i)
    _ = segment (place (start qsort files).mem (startIdx files.length i) ((chunk files i).mergeSort (Compare.le compareByName)))
          (startIdx files.length i) (endIdx files.length i + 1 - startIdx files.length i) := by
        refine segment_congr fun j hj hj' => ?_
        rw [hreach.mem_of_finished (separate_start qsort hn) hdone (t := i) ⟨hj, by omega⟩, run_threadMergeSort qsort hn]
    _ = (chunk files i).mergeSort (Compare.le compareByName) := by rw [hlength, segment_place]

theorem map_of_finished (hn : threshold ≤ files.length) {c : Threads 4 File} (hreach : Threads.Reachable (start qsort files) c) (hdone : c.Finished) :
    (List.range files.length).map c.mem = sortedChunks files := by
  rw [List.range_eq_range', sortedChunks, ← List.map_congr_left fun i _ => segment_of_finished hn hreach hdone i, ← segment_eq_flatten hn]
  rfl

/-- Every interleaving of the four threads prints the same. -/
theorem prints_iff (qsort : Qsort) (column : Column) (hn : threshold ≤ files.length) (out : List File) :
    Prints qsort column files out ↔ out = sortedChunks files := by
  rw [Prints, if_neg (by omega)]
  constructor
  · rintro ⟨c, hreach, hdone, rfl⟩
    exact map_of_finished hn hreach hdone
  · rintro rfl
    obtain ⟨c, hrun, hdone⟩ := Threads.exists_finished (start qsort files)
    have hreach : Threads.Reachable (start qsort files) c := ⟨_, rfl, hrun⟩
    exact ⟨c, hreach, hdone, (map_of_finished hn hreach hdone).symm⟩

end AdvancedXv6.LazySort
