import AdvancedXv6.LazySort.Sorting

/-!
# Sorted in the chosen column

`strcmp` decides the string order, so names and timestamps are compared rightly. `compare_by_id` subtracts, and is an order of the files only if no two ids are `2^31` or more apart. A run with threads sorts by name, chunk by chunk, whatever the column is.
-/

namespace AdvancedXv6.LazySort

/-! ### The comparisons as orders -/

theorem strcmp_eq (a b : CString) : strcmp a b = if a < b then -1 else if b < a then 1 else 0 := by
  induction a generalizing b with
  | nil => cases b <;> simp [strcmp]
  | cons x a ih =>
    cases b with
    | nil => simp [strcmp]
    | cons y b =>
      rw [strcmp, ih]
      rcases lt_trichotomy x y with h | h | h
      · simp [List.cons_lt_cons_iff, h]
      · simp [h]
      · simp [List.cons_lt_cons_iff, h, h.not_gt, h.ne']

theorem strcmp_le_iff (a b : CString) : strcmp a b ≤ 0 ↔ a ≤ b := by
  rw [strcmp_eq]
  rcases lt_trichotomy a b with h | h | h
  · simp [h, h.le]
  · simp [h]
  · simp [h, h.not_gt]

theorem strcmp_lt_iff (a b : CString) : strcmp a b < 0 ↔ a < b := by
  rw [strcmp_eq]
  rcases lt_trichotomy a b with h | h | h
  · simp [h]
  · simp [h]
  · simp [h, h.not_gt]

theorem lt_strcmp_iff (a b : CString) : 0 < strcmp a b ↔ b < a := by
  rw [strcmp_eq]
  rcases lt_trichotomy a b with h | h | h
  · simp [h, h.not_gt]
  · simp [h]
  · simp [h, h.not_gt]

/-- A comparison of texts is an order of any list of files. -/
theorem orders_strcmp (text : File → CString) (files : List File) : Compare.Orders (fun a b => strcmp (text a) (text b)) files where
  total a _ b _ := by
    rw [strcmp_le_iff, strcmp_le_iff]
    exact le_total _ _
  trans a _ b _ c _ := by
    rw [strcmp_le_iff, strcmp_le_iff, strcmp_le_iff]
    exact le_trans
  swap a _ b _ := by rw [strcmp_lt_iff, lt_strcmp_iff]

/-- No two ids are so far apart that their difference overflows. -/
def IdsClose (files : List File) : Prop := ∀ a ∈ files, ∀ b ∈ files, a.id.toInt - b.id.toInt < 2 ^ 31

variable {a b : File} {files : List File} {column : Column}

theorem toInt_compareById (hab : a.id.toInt - b.id.toInt < 2 ^ 31) (hba : b.id.toInt - a.id.toInt < 2 ^ 31) :
    (compareById a b).toInt = a.id.toInt - b.id.toInt := by
  rw [compareById, Int32.toInt_sub, Int.bmod_eq_of_le]
  all_goals omega

theorem orders_compareById (h : IdsClose files) : Compare.Orders compareById files where
  total a ha b hb := by
    rw [Int32.le_iff_toInt_le, Int32.le_iff_toInt_le, toInt_compareById (h a ha b hb) (h b hb a ha), toInt_compareById (h b hb a ha) (h a ha b hb),
      Int32.toInt_zero]
    omega
  trans a ha b hb c hc := by
    rw [Int32.le_iff_toInt_le, Int32.le_iff_toInt_le, Int32.le_iff_toInt_le, toInt_compareById (h a ha b hb) (h b hb a ha),
      toInt_compareById (h b hb c hc) (h c hc b hb), toInt_compareById (h a ha c hc) (h c hc a ha), Int32.toInt_zero]
    omega
  swap a ha b hb := by
    rw [Int32.lt_iff_toInt_lt, Int32.lt_iff_toInt_lt, toInt_compareById (h a ha b hb) (h b hb a ha), toInt_compareById (h b hb a ha) (h a ha b hb),
      Int32.toInt_zero]
    omega

/-- Ids that are too far apart are compared the wrong way round. -/
theorem compareById_of_far (h : 2 ^ 31 ≤ a.id.toInt - b.id.toInt) : compareById a b < 0 := by
  have ha := a.id.toInt_lt
  have hb := b.id.le_toInt
  rw [Int32.lt_iff_toInt_lt, compareById, Int32.toInt_sub, Int32.toInt_zero]
  rw [Int.bmod_def]
  split <;> omega

theorem Column.le_of_compare (hclose : column = .id → IdsClose files) (ha : a ∈ files) (hb : b ∈ files)
    (hle : column.compare a b ≤ 0) : column.le a b := by
  cases column with
  | name | timestamp => exact (strcmp_le_iff _ _).mp hle
  | id =>
    have h := hclose rfl
    change compareById a b ≤ 0 at hle
    rw [Int32.le_iff_toInt_le, toInt_compareById (h a ha b hb) (h b hb a ha), Int32.toInt_zero] at hle
    change a.id.toInt ≤ b.id.toInt
    omega

theorem Column.orders (hclose : column = .id → IdsClose files) : Compare.Orders column.compare files := by
  cases column with
  | name => exact orders_strcmp File.name files
  | timestamp => exact orders_strcmp File.timestamp files
  | id => exact orders_compareById (hclose rfl)

/-! ### Sorts to try -/

def stableSort (files : List File) (compare : Compare) : List File :=
  (files.attach.mergeSort fun a b => Compare.le compare a.1 b.1).map Subtype.val

theorem stableSort_perm (files : List File) (compare : Compare) : (stableSort files compare).Perm files := by
  have h := (List.mergeSort_perm files.attach fun a b => Compare.le compare a.1 b.1).map Subtype.val
  rwa [List.attach_map_subtype_val] at h

theorem stableSort_pairwise {compare : Compare} (h : Compare.Orders compare files) :
    (stableSort files compare).Pairwise fun a b => compare a b ≤ 0 := by
  rw [stableSort, List.pairwise_map]
  have hsorted := @List.pairwise_mergeSort {x // x ∈ files} (fun a b => Compare.le compare a.1 b.1)
    (fun a b c hab hbc => by
      simp only [Compare.le, decide_eq_true_eq] at hab hbc ⊢
      exact h.trans a.1 a.2 b.1 b.2 c.1 c.2 hab hbc)
    (fun a b => by
      simp only [Compare.le, Bool.or_eq_true, decide_eq_true_eq]
      exact h.total a.1 a.2 b.1 b.2) files.attach
  exact hsorted.imp fun hle => by simpa [Compare.le] using hle

theorem stableSort_sorts : Qsort.Sorts stableSort := fun files compare h => ⟨stableSort_perm files compare, stableSort_pairwise h⟩

open Classical in
noncomputable def pickySort (files : List File) (compare : Compare) : List File :=
  if Compare.Orders compare files then stableSort files compare else []

theorem pickySort_sorts : Qsort.Sorts pickySort := by
  intro files compare h
  rw [pickySort, if_pos h]
  exact stableSort_sorts files compare h

/-! ### When the output is sorted -/

/-- The condition on the input. With few files only ids can go wrong. With threads the chunks have to be in order from one to the next, and within a chunk the order by name has to be one of the column. -/
def Sortable (column : Column) (files : List File) : Prop :=
  if files.length < threshold then
    column = .id → IdsClose files
  else
    (∀ i, (chunk files i).Pairwise fun a b => if compareByName a b ≤ 0 then column.le a b else column.le b a) ∧
      ∀ i j, i < j → ∀ a ∈ chunk files i, ∀ b ∈ chunk files j, column.le a b

theorem le_compareByName_iff : Compare.le compareByName a b = true ↔ a.name ≤ b.name := by
  rw [Compare.le, decide_eq_true_eq]
  exact strcmp_le_iff _ _

theorem names_trans (a b c : File) : Compare.le compareByName a b = true → Compare.le compareByName b c = true → Compare.le compareByName a c = true := by
  simp only [le_compareByName_iff]
  exact le_trans

theorem names_total (a b : File) : (Compare.le compareByName a b || Compare.le compareByName b a) = true := by
  simp only [Bool.or_eq_true, le_compareByName_iff]
  exact le_total _ _

theorem sortedChunks_perm (hn : threshold ≤ files.length) : (sortedChunks files).Perm files := by
  have hperm : (sortedChunks files).Perm ((List.finRange 4).map (chunk files)).flatten := by
    rw [sortedChunks, ← List.flatMap_def, ← List.flatMap_def]
    exact List.Perm.flatMap_left _ fun i _ => List.mergeSort_perm _ _
  rwa [flatten_chunk hn] at hperm

theorem sortedChunks_pairwise_iff (column : Column) (files : List File) :
    (sortedChunks files).Pairwise column.le ↔
      (∀ i, (chunk files i).Pairwise fun a b => if compareByName a b ≤ 0 then column.le a b else column.le b a) ∧
        ∀ i j, i < j → ∀ a ∈ chunk files i, ∀ b ∈ chunk files j, column.le a b := by
  have hiff : ∀ i, ((chunk files i).mergeSort (Compare.le compareByName)).Pairwise column.le ↔
      (chunk files i).Pairwise fun a b => if compareByName a b ≤ 0 then column.le a b else column.le b a := by
    intro i
    rw [List.pairwise_mergeSort_iff names_trans names_total]
    simp only [Compare.le, decide_eq_true_eq]
  rw [sortedChunks, List.pairwise_flatten, List.pairwise_map]
  simp only [List.mem_map, List.mem_finRange, true_and, forall_exists_index, forall_apply_eq_imp_iff, hiff, List.mem_mergeSort]
  refine and_congr_right fun _ => ?_
  constructor
  · intro h i j hij
    have hget := List.pairwise_iff_getElem.mp h i j (by simp) (by simp) hij
    simpa using hget
  · exact fun h => (List.pairwise_lt_finRange 4).imp fun hij => h _ _ hij

/-- Only ids that are close are sorted by every `qsort` that keeps its promise. -/
theorem idsClose_of_sorts (h : ∀ qsort, Qsort.Sorts qsort → (qsort files compareById).Perm files ∧
    (qsort files compareById).Pairwise Column.id.le) : IdsClose files := by
  intro a ha b hb
  obtain ⟨hperm, hsorted⟩ := h pickySort pickySort_sorts
  by_contra hfar
  have hlt := compareById_of_far (a := a) (b := b) (by omega)
  by_cases horders : Compare.Orders compareById files
  · -- the pair is in the order of the comparison, which is the wrong one
    have hcompare := stableSort_pairwise horders
    rw [pickySort, if_pos horders] at hperm hsorted
    have hne : a ≠ b := by
      rintro rfl
      omega
    rw [List.pairwise_iff_forall_sublist] at hsorted hcompare
    rcases List.pair_sublist_or (hperm.mem_iff.mpr ha) (hperm.mem_iff.mpr hb) hne with hab | hba
    · have hle : a.id.toInt ≤ b.id.toInt := hsorted hab
      omega
    · have hle := hcompare hba
      have hgt := (horders.swap a ha b hb).mp hlt
      rw [Int32.le_iff_toInt_le] at hle
      rw [Int32.lt_iff_toInt_lt] at hgt
      omega
  · rw [pickySort, if_neg horders] at hperm
    rw [hperm.symm.eq_nil] at ha
    cases ha

theorem sortable_of_sortsFiles (h : ∀ qsort, Qsort.Sorts qsort → SortsFiles qsort column files) :
    Sortable column files := by
  rw [Sortable]
  split
  · rename_i hn
    rintro rfl
    apply idsClose_of_sorts
    intro qsort hqsort
    have hprints : Prints qsort .id files (qsort files compareById) := by
      rw [Prints, if_pos hn]
      rfl
    exact ⟨(h qsort hqsort).perm _ hprints, (h qsort hqsort).sorted _ hprints⟩
  · rename_i hn
    have hprints : Prints pickySort column files (sortedChunks files) := (prints_iff pickySort column (by omega) _).mpr rfl
    exact (sortedChunks_pairwise_iff column files).mp ((h pickySort pickySort_sorts).sorted _ hprints)

theorem sortsFiles_of_sortable (h : Sortable column files) {qsort : Qsort} (hqsort : Qsort.Sorts qsort) :
    SortsFiles qsort column files := by
  rw [Sortable] at h
  split at h
  · rename_i hn
    have hprints : ∀ out, Prints qsort column files out ↔ out = qsort files column.compare := by
      intro out
      rw [Prints, if_pos hn]
    obtain ⟨hperm, hsorted⟩ := hqsort files column.compare (Column.orders h)
    refine ⟨⟨_, (hprints _).mpr rfl⟩, fun out hout => ?_, fun out hout => ?_⟩
    · rw [(hprints out).mp hout]
      exact hperm
    · rw [(hprints out).mp hout]
      exact hsorted.imp_of_mem fun ha hb hle => Column.le_of_compare h (hperm.mem_iff.mp ha) (hperm.mem_iff.mp hb) hle
  · rename_i hn
    have hprints : ∀ out, Prints qsort column files out ↔ out = sortedChunks files := prints_iff qsort column (by omega)
    refine ⟨⟨_, (hprints _).mpr rfl⟩, fun out hout => ?_, fun out hout => ?_⟩
    · rw [(hprints out).mp hout]
      exact sortedChunks_perm (by omega)
    · rw [(hprints out).mp hout]
      exact (sortedChunks_pairwise_iff column files).mpr h

/-- Under the condition, and only then, `sort_files` sorts with every `qsort` that keeps its promise. -/
theorem sortsFiles_iff (column : Column) (files : List File) :
    (∀ qsort, Qsort.Sorts qsort → SortsFiles qsort column files) ↔ Sortable column files :=
  ⟨sortable_of_sortsFiles, fun h _ hqsort => sortsFiles_of_sortable h hqsort⟩

def oneLate : List File := ⟨[98], 0, []⟩ :: List.replicate 41 ⟨[97], 0, []⟩

/-- The file called `b` comes first and is printed before 32 of the others. -/
theorem exists_unsorted_files :
    Qsort.Sorts stableSort ∧ ∃ out, Prints stableSort .name oneLate out ∧ ¬ out.Pairwise Column.name.le := by
  have hprints : Prints stableSort .name oneLate (sortedChunks oneLate) := (prints_iff stableSort .name (by decide) _).mpr rfl
  refine ⟨stableSort_sorts, _, hprints, fun hsorted => ?_⟩
  rw [sortedChunks_pairwise_iff] at hsorted
  have hle : ([98] : CString) ≤ [97] := hsorted.2 0 1 (by decide) ⟨[98], 0, []⟩ (by decide) ⟨[97], 0, []⟩ (by decide)
  exact absurd hle (by decide)

/-! ### Ids -/

def countSort (qsort : Qsort) (files : List File) (compare : Compare) : List File := qsort files compare

/-- The sign of `compare_by_id` is right, and `count_sort` sorts by it, exactly for files whose ids are close; then it also is an order. -/
theorem compareById_sound_iff (files : List File) :
    ((∀ a ∈ files, ∀ b ∈ files, (compareById a b < 0 ↔ a.id.toInt < b.id.toInt) ∧ (0 < compareById a b ↔ b.id.toInt < a.id.toInt)) ↔ IdsClose files) ∧
      ((∀ qsort, Qsort.Sorts qsort → (countSort qsort files compareById).Perm files ∧
        (countSort qsort files compareById).Pairwise Column.id.le) ↔ IdsClose files) ∧
      (IdsClose files → Compare.Orders compareById files) := by
  refine ⟨⟨fun h a ha b hb => ?_, fun h a ha b hb => ?_⟩, ⟨idsClose_of_sorts, fun h qsort hqsort => ?_⟩, orders_compareById⟩
  · by_contra hfar
    have hlt := ((h a ha b hb).1).mp (compareById_of_far (by omega))
    omega
  · rw [Int32.lt_iff_toInt_lt, Int32.lt_iff_toInt_lt, toInt_compareById (h a ha b hb) (h b hb a ha), Int32.toInt_zero]
    omega
  · obtain ⟨hperm, hsorted⟩ := hqsort files compareById (orders_compareById h)
    refine ⟨hperm, hsorted.imp_of_mem fun ha hb hle => ?_⟩
    have hid : Column.id = .id → IdsClose files := fun _ => h
    exact Column.le_of_compare hid (hperm.mem_iff.mp ha) (hperm.mem_iff.mp hb) hle

def lastFile : File := ⟨[97], 2147483647, []⟩

def negativeFile : File := ⟨[98], -2, []⟩

/-- The difference wraps to a negative number, and a `qsort` that keeps its promise leaves the file with the largest id before the other. -/
theorem compareById_wraps : negativeFile.id.toInt < lastFile.id.toInt ∧ compareById lastFile negativeFile < 0 ∧
    ∃ qsort, Qsort.Sorts qsort ∧ ¬ ((countSort qsort [lastFile, negativeFile] compareById).Perm [lastFile, negativeFile] ∧
      (countSort qsort [lastFile, negativeFile] compareById).Pairwise Column.id.le) := by
  have hfar : 2 ^ 31 ≤ lastFile.id.toInt - negativeFile.id.toInt := by decide +kernel
  refine ⟨by omega, compareById_of_far hfar, ?_⟩
  by_contra hno
  have hclose : IdsClose [lastFile, negativeFile] := by
    apply idsClose_of_sorts
    intro qsort hqsort
    by_contra hbad
    exact hno ⟨qsort, hqsort, hbad⟩
  have hlt := hclose lastFile (by simp) negativeFile (by simp)
  omega

end AdvancedXv6.LazySort
