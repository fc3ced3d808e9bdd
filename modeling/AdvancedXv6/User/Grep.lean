import AdvancedXv6.User.Match

/-!
# `grep`

The loop of `user/grep.c` over what `read` returns, for a stream without NULs. The buffer keeps the part of a line for the next `read`, which fills at most the rest of it.
-/

namespace AdvancedXv6.User

variable {re line data stream : List UInt8}

def newline : UInt8 := 10

def bufSize : ℕ := 1024

/-- The inner loop: what is written, and what is left after the last newline. `line` is what `strchr` has passed over. -/
def grepLines (re line : List UInt8) : List UInt8 → List UInt8 × List UInt8
  | [] => ([], line)
  | c :: data =>
    if c = newline then
      ((if matchRe re line then line ++ [newline] else []) ++ (grepLines re [] data).1, (grepLines re [] data).2)
    else
      grepLines re (line ++ [c]) data

/-- The outer loop with `buf` kept. Call `i` of `read` returns at most `sizes i + 1` bytes, and none only at the end of the stream or without room. A round takes a byte at least. -/
def grepLoop (re : List UInt8) (sizes : ℕ → ℕ) : ℕ → ℕ → List UInt8 → List UInt8 → List UInt8
  | 0, _, _, _ => []
  | fuel + 1, i, buf, stream =>
    let n := min (sizes i + 1) (bufSize - buf.length - 1)
    if stream.take n = [] then
      []
    else
      (grepLines re [] (buf ++ stream.take n)).1 ++ grepLoop re sizes fuel (i + 1) (grepLines re [] (buf ++ stream.take n)).2 (stream.drop n)

def grep (re : List UInt8) (sizes : ℕ → ℕ) (stream : List UInt8) : List UInt8 := grepLoop re sizes stream.length 0 [] stream

def lines (stream : List UInt8) : List (List UInt8) := (stream.splitOnP (· == newline)).dropLast

def matching (re stream : List UInt8) : List UInt8 := ((lines stream).filter (matchRe re)).flatMap (· ++ [newline])

theorem lines_of_notMem (h : newline ∉ line) : lines line = [] := by
  rw [lines, List.splitOnP_eq_singleton fun c hc => by simpa using ne_of_mem_of_not_mem hc h]
  rfl

theorem lines_append_newline (h : newline ∉ line) : lines (line ++ newline :: data) = line :: lines data := by
  have hline : ∀ c ∈ line, (fun c => c == newline) c = false := fun c hc => by simpa using ne_of_mem_of_not_mem hc h
  rw [lines, List.splitOnP_append_cons_of_forall_mem hline newline (beq_self_eq_true newline), List.dropLast_cons_of_ne_nil (List.splitOnP_ne_nil _ data)]
  rfl

theorem matching_of_notMem (h : newline ∉ line) : matching re line = [] := by
  rw [matching, lines_of_notMem h]
  rfl

theorem length_lt_of_mem_lines (hline : line ∈ lines data) : line.length < data.length := by
  induction hn : data.length using Nat.strongRecOn generalizing data with
  | ind n ih =>
    by_cases hmem : newline ∈ data
    · obtain ⟨as, bs, rfl, has⟩ := List.eq_append_cons_of_mem hmem
      rw [lines_append_newline has, List.mem_cons] at hline
      rw [List.length_append, List.length_cons] at hn
      rcases hline with rfl | hline
      · omega
      · have := ih bs.length (by omega) hline rfl
        omega
    · rw [lines_of_notMem hmem] at hline
      cases hline

/-- What is left has no newline, and the lines go on from it. -/
theorem grepLines_spec (re data : List UInt8) (h : newline ∉ line) :
    (grepLines re line data).1 = matching re (line ++ data) ∧
      newline ∉ (grepLines re line data).2 ∧
      (grepLines re line data).2.length ≤ line.length + data.length ∧
      ∀ more, lines (line ++ data ++ more) =
        lines (line ++ data) ++ lines ((grepLines re line data).2 ++ more) := by
  induction data generalizing line with
  | nil =>
    rw [grepLines, List.append_nil]
    exact ⟨(matching_of_notMem h).symm, h, Nat.le_refl _,
      fun more => by rw [lines_of_notMem h, List.nil_append]⟩
  | cons c data ih =>
    rw [grepLines]
    split
    · rename_i hc
      subst hc
      obtain ⟨hout, hrest, hlength, hlines⟩ := @ih [] nofun
      refine ⟨?_, hrest, ?_, fun more => ?_⟩
      · rw [hout, matching, matching, lines_append_newline h, List.filter_cons]
        split <;> rfl
      · simp only [List.length_nil, List.length_cons] at hlength ⊢
        omega
      · rw [List.append_assoc, List.cons_append, lines_append_newline h, lines_append_newline h,
          List.cons_append]
        exact congrArg _ (hlines more)
    · rename_i hc
      simpa [Nat.add_right_comm, Nat.add_assoc] using @ih (line ++ [c]) (by simp [h, Ne.symm hc])

/-! ### The outer loop -/

variable {sizes : ℕ → ℕ} {fuel i : ℕ} {buf : List UInt8}

/-- A round with room in the buffer: the lines that have come to their end, and the others. -/
theorem lines_round (re : List UInt8) (n : ℕ) : lines (buf ++ stream) =
    lines (buf ++ stream.take n) ++
      lines ((grepLines re [] (buf ++ stream.take n)).2 ++ stream.drop n) := by
  have := (grepLines_spec re (buf ++ stream.take n) List.not_mem_nil).2.2.2
    (stream.drop n)
  rwa [List.nil_append, List.append_assoc, List.take_append_drop] at this

theorem matching_round (re : List UInt8) (n : ℕ) : matching re (buf ++ stream) =
    (grepLines re [] (buf ++ stream.take n)).1 ++
      matching re ((grepLines re [] (buf ++ stream.take n)).2 ++ stream.drop n) := by
  rw [(grepLines_spec re (buf ++ stream.take n) List.not_mem_nil).1,
    List.nil_append, matching, matching, matching, lines_round re n, List.filter_append,
    List.flatMap_append]

theorem grepLoop_eq (hbuf : newline ∉ buf) (hfuel : stream.length ≤ fuel)
    (hlines : ∀ line ∈ lines (buf ++ stream), line.length < bufSize - 1) :
    grepLoop re sizes fuel i buf stream = matching re (buf ++ stream) := by
  induction fuel generalizing i buf stream with
  | zero =>
    rw [List.length_eq_zero_iff.mp (Nat.le_zero.mp hfuel), List.append_nil, matching_of_notMem hbuf]
    rfl
  | succ fuel ih =>
    rw [grepLoop]
    set n := min (sizes i + 1) (bufSize - buf.length - 1) with hn
    split
    · rename_i hnil
      -- without room the line in the buffer is too long to end with a newline
      have hstream : newline ∉ stream := by
        intro hmem
        obtain ⟨as, bs, rfl, has⟩ := List.eq_append_cons_of_mem hmem
        rw [← List.append_assoc, lines_append_newline (by simp [hbuf, has])] at hlines
        have hlength := hlines _ List.mem_cons_self
        rw [List.length_append] at hlength
        have hzero : n = 0 := by simpa using hnil
        omega
      exact (matching_of_notMem (by simp [hbuf, hstream])).symm
    · rename_i hne
      have hrest := (grepLines_spec re (buf ++ stream.take n) List.not_mem_nil).2.1
      rw [matching_round re n, ih hrest ?_ fun line hline => hlines line ?_]
      · have hpos : n ≠ 0 := fun hzero => hne (by rw [hzero, List.take_zero])
        have hnonempty : stream ≠ [] := fun hnil => hne (by rw [hnil, List.take_nil])
        have := List.length_pos_iff.mpr hnonempty
        rw [List.length_drop]
        omega
      · rw [lines_round re n]
        exact List.mem_append_right _ hline

theorem lines_of_matching_nil (hall : ∀ line ∈ lines stream, matchRe re line = true)
    (h : matching re stream = []) : lines stream = [] := by
  rw [matching, List.filter_eq_self.mpr hall, List.flatMap_eq_nil_iff] at h
  refine List.eq_nil_iff_forall_not_mem.mpr fun line hline => ?_
  simpa using h line hline

/-- A line that is written has been in the buffer with its newline. -/
theorem lines_short (hbuf : buf.length < bufSize)
    (hall : ∀ line ∈ lines (buf ++ stream), matchRe re line = true)
    (heq : grepLoop re sizes fuel i buf stream = matching re (buf ++ stream)) :
    ∀ line ∈ lines (buf ++ stream), line.length < bufSize - 1 := by
  induction fuel generalizing i buf stream with
  | zero => simp [lines_of_matching_nil hall heq.symm]
  | succ fuel ih =>
    rw [grepLoop] at heq
    set n := min (sizes i + 1) (bufSize - buf.length - 1) with hn
    split at heq
    · simp [lines_of_matching_nil hall heq.symm]
    · rw [matching_round re n, List.append_cancel_left_eq] at heq
      have hlength := (grepLines_spec re (buf ++ stream.take n) List.not_mem_nil).2.2.1
      simp only [List.length_nil, List.length_append, List.length_take] at hlength
      rw [lines_round re n] at hall ⊢
      rw [List.forall_mem_append] at hall ⊢
      refine ⟨fun line hline => ?_, ih (by omega) hall.2 heq⟩
      have hlt := length_lt_of_mem_lines hline
      simp only [List.length_append, List.length_take] at hlt
      omega

/-- `grep` writes the lines that match, whatever the pattern, just if every line leaves room in the
buffer. How the stream is split does not matter. -/
theorem grep_writes_matching_iff (sizes : ℕ → ℕ) (stream : List UInt8) :
    (∀ re, grep re sizes stream = matching re stream) ↔
      ∀ line ∈ lines stream, line.length < bufSize - 1 := by
  refine ⟨fun h => ?_, fun hlines re => grepLoop_eq nofun (Nat.le_refl _) hlines⟩
  -- the empty pattern is in every line
  exact lines_short (List.length_nil ▸ by decide) (fun line _ => by cases line <;> rfl) (h [])

theorem grep_misses_long_line :
    ∃ stream, ∀ sizes, grep [97] sizes stream ≠ matching [97] stream := by
  have hline : newline ∉ List.replicate 1023 (97 : UInt8) :=
    fun hmem => absurd (List.eq_of_mem_replicate hmem) (by decide)
  have hlines : lines (List.replicate 1023 97 ++ [newline]) = [List.replicate 1023 97] :=
    lines_append_newline hline
  refine ⟨List.replicate 1023 97 ++ [newline], fun sizes heq => ?_⟩
  have hshort := lines_short (List.length_nil ▸ by decide) (fun line h => ?_) heq
  · rw [List.nil_append, hlines, List.forall_mem_singleton, List.length_replicate] at hshort
    exact absurd hshort (by decide)
  · rw [List.nil_append, hlines, List.mem_singleton] at h
    subst h
    rfl

end AdvancedXv6.User
