import AdvancedXv6.FileSystem.Walks

/-!
# The elements of a path

What `skipelem` takes from a path, call by call, and where `namex` stops.
-/

namespace AdvancedXv6.FileSystem

variable {path name rest run : List UInt8}

/-- The maximal non-empty runs of bytes that are not slashes. -/
def runs (path : List UInt8) : List (List UInt8) := (path.splitOnP (· == slash)).filter (· ≠ [])

/-- How `skipelem` fills the buffer `name`. -/
def copyRun (name run : List UInt8) : List UInt8 :=
  if run.length ≥ dirsiz then run.take dirsiz ++ name.drop dirsiz else run ++ 0 :: name.drop (run.length + 1)

/-- `skipelem` as `namex` calls it, with the buffer that it fills. The element is what is read from
the buffer. -/
def skipelemInto (path name : List UInt8) : Option (List UInt8 × List UInt8) :=
  let path := path.dropWhile (· == slash)
  if path = [] then
    none
  else
    some (copyRun name (path.takeWhile (· != slash)),
      (path.dropWhile (· != slash)).dropWhile (· == slash))

/-- Calling `skipelem` until it returns 0 gives the elements. -/
inductive Yields : List UInt8 → List (List UInt8) → Prop where
  | done {path : List UInt8} : skipelem path = none → Yields path []
  | next {path name rest : List UInt8} {names : List (List UInt8)} : skipelem path = some (name, rest) → Yields rest names → Yields path (name :: names)

def namexElems (nameiparent : Bool) (ip : ℕ) : List (List UInt8) → FsM (Option (ℕ × List UInt8))
  | [] => namexEnd nameiparent ip
  | name :: names => do
    ilock ip
    let d ← inode ip
    if d.type ≠ .dir then do
      iput ip
      pure none
    else if nameiparent ∧ names = [] then
      pure (some (ip, name))
    else do
      match ← dirlookup ip name with
      | none => do
        iput ip
        pure none
      | some (next, _) => do
        iput ip
        namexElems nameiparent next names

theorem runs_slash : runs (slash :: path) = runs path := by
  simp [runs, List.splitOnP_cons_eq_if_modifyHead]

theorem runs_dropWhile (path : List UInt8) : runs (path.dropWhile (· == slash)) = runs path := by
  induction path with
  | nil => rfl
  | cons c path ih =>
    rw [List.dropWhile_cons]
    split
    · rename_i hc
      rw [ih, beq_iff_eq.mp hc, runs_slash]
    · rfl

/-- A run ends at a slash or at the end of the path. -/
theorem runs_append (hne : run ≠ []) (hrun : ∀ c ∈ run, (c == slash) = false) (hpath : ∀ c ∈ path.head?, c = slash) :
    runs (run ++ path) = run :: runs path := by
  cases path with
  | nil =>
    rw [List.append_nil, runs, List.splitOnP_eq_singleton hrun]
    simp [hne, runs]
  | cons c path =>
    obtain rfl : c = slash := hpath c rfl
    rw [runs_slash, runs, List.splitOnP_append_cons_of_forall_mem hrun _ (beq_self_eq_true _), List.filter_cons_of_pos (by simpa using hne)]
    rfl

theorem runs_cons {c : UInt8} {cs : List UInt8} (hc : (c == slash) = false) :
    runs (c :: cs) = (c :: cs).takeWhile (· != slash) :: runs (((c :: cs).dropWhile (· != slash)).dropWhile (· == slash)) := by
  rw [runs_dropWhile]
  nth_rewrite 1 [← List.takeWhile_append_dropWhile (p := (· != slash)) (l := c :: cs)]
  refine runs_append ?_ (fun x hx => ?_) fun x hx => ?_
  · simp [bne, hc]
  · simpa [bne] using List.mem_takeWhile_imp hx
  · have hhead := List.head?_dropWhile_not (· != slash) (c :: cs)
    rw [Option.mem_def.mp hx] at hhead
    simpa using hhead

theorem dropWhile_slash_eq_nil : path.dropWhile (· == slash) = [] ↔ runs path = [] := by
  rw [← runs_dropWhile path]
  rcases dropWhile_slash_cases path with hnil | ⟨c, cs, hcons, hc⟩
  · simp [hnil, runs]
  · simp [hcons, runs_cons hc]

theorem skipelem_eq_none (h : skipelem path = none) : runs path = [] := by
  unfold skipelem at h
  dsimp only at h
  split at h
  case isTrue hnil => exact dropWhile_slash_eq_nil.mp hnil
  case isFalse hne => cases h

theorem skipelem_eq_some (h : skipelem path = some (name, rest)) :
    ∃ run, name = run.take dirsiz ∧ runs path = run :: runs rest ∧ (rest = [] ↔ runs rest = []) := by
  unfold skipelem at h
  dsimp only at h
  split at h
  case isTrue hnil => cases h
  case isFalse hne =>
    obtain ⟨rfl, rfl⟩ := Prod.mk.inj (Option.some.inj h)
    obtain ⟨c, cs, hcons, hc⟩ := (dropWhile_slash_cases path).resolve_left hne
    rw [← runs_dropWhile path, hcons]
    exact ⟨_, rfl, runs_cons hc, by rw [runs_dropWhile, dropWhile_slash_eq_nil]⟩

theorem yields_runs (path : List UInt8) : Yields path ((runs path).map (·.take dirsiz)) := by
  induction hn : path.length using Nat.strong_induction_on generalizing path with
  | h n ih =>
    cases hskip : skipelem path with
    | none =>
      rw [skipelem_eq_none hskip]
      exact .done hskip
    | some found =>
      obtain ⟨run, hname, hruns, -⟩ := skipelem_eq_some hskip
      rw [hruns, List.map_cons, ← hname]
      exact .next hskip (ih _ (hn ▸ skipelem_length hskip) _ rfl)

theorem namexLoop_eq {nameiparent : Bool} {fuel ip : ℕ} (hfuel : path.length ≤ fuel) :
    namexLoop nameiparent fuel ip path = namexElems nameiparent ip ((runs path).map (·.take dirsiz)) := by
  induction fuel generalizing ip path with
  | zero =>
    rw [List.length_eq_zero_iff.mp (Nat.le_zero.mp hfuel)]
    rfl
  | succ fuel ih =>
    have hloop := namexLoop.eq_2 nameiparent ip path fuel
    cases hskip : skipelem path with
    | none =>
      rw [skipelem_eq_none hskip, hloop, hskip]
      rfl
    | some found =>
      obtain ⟨name, rest⟩ := found
      obtain ⟨run, rfl, hruns, hrest⟩ := skipelem_eq_some hskip
      have hlength := skipelem_length hskip
      have hlast : rest = [] ↔ (runs rest).map (·.take dirsiz) = [] := hrest.trans List.map_eq_nil_iff.symm
      rw [hskip] at hloop
      simp only [hlast, ih (show rest.length ≤ fuel by omega)] at hloop
      rw [hruns, List.map_cons]
      exact hloop

theorem copyRun_spec (hrun : 0 ∉ run) (buf : List UInt8) :
    run.take dirsiz <+: copyRun buf run ∧
      (0 ∈ (copyRun buf run).take dirsiz ↔ run.length < dirsiz) ∧
      (run.length < dirsiz → run ++ [0] <+: copyRun buf run) := by
  unfold copyRun
  split
  · rename_i hlong
    have hlen : (run.take dirsiz).length = dirsiz := by simpa using hlong
    refine ⟨List.prefix_append _ _, ?_, fun hlt => absurd hlt (Nat.not_lt.mpr hlong)⟩
    rw [List.take_append_of_le_length hlen.ge, List.take_of_length_le hlen.le]
    exact iff_of_false (fun hmem => hrun (List.mem_of_mem_take hmem)) (Nat.not_lt.mpr hlong)
  · rename_i hshort
    have hterminated : run ++ [0] <+: run ++ 0 :: buf.drop (run.length + 1) := by
      rw [← List.singleton_append (l := buf.drop _), ← List.append_assoc]
      exact List.prefix_append _ _
    have hfits : run ++ [0] <+: (run ++ 0 :: buf.drop (run.length + 1)).take dirsiz :=
      List.prefix_take_iff.mpr ⟨hterminated, by rw [List.length_append, List.length_singleton]; omega⟩
    refine ⟨(List.take_prefix _ _).trans (List.prefix_append _ _), iff_of_true (hfits.subset ?_) (Nat.not_le.mp hshort), fun _ => hterminated⟩
    exact List.mem_append_right _ List.mem_cons_self

theorem length_copyRun {buf : List UInt8} (hbuf : buf.length = dirsiz) :
    (copyRun buf run).length = dirsiz := by
  unfold copyRun
  split
  · simpa [hbuf] using ‹_›
  · simp only [List.length_append, List.length_cons, List.length_drop, hbuf]
    omega

/-- The name ends at the NUL, or fills the buffer. -/
theorem takeWhile_copyRun (hrun : 0 ∉ run) {buf : List UInt8} (hbuf : buf.length = dirsiz) :
    (copyRun buf run).takeWhile (· != 0) = run.take dirsiz := by
  have hne : ∀ c ∈ run, (c != 0) = true := fun c hc => bne_iff_ne.mpr fun hzero => hrun (hzero ▸ hc)
  unfold copyRun
  split
  · rw [List.drop_of_length_le hbuf.le, List.append_nil,
      List.takeWhile_eq_self_iff.mpr fun c hc => hne c (List.mem_of_mem_take hc)]
  · rw [List.takeWhile_append_of_pos hne, List.take_of_length_le (by omega)]
    simp

theorem skipelemInto_eq (hpath : 0 ∉ path) {buf : List UInt8} (hbuf : buf.length = dirsiz) :
    skipelem path = (skipelemInto path buf).map fun found => (found.1.takeWhile (· != 0), found.2) := by
  unfold skipelem skipelemInto
  dsimp only
  split
  · rfl
  · rw [Option.map_some, takeWhile_copyRun (fun hmem => hpath ?_) hbuf]
    exact List.dropWhile_sublist _ |>.subset (List.takeWhile_sublist _ |>.subset hmem)

/-- `skipelem` takes the runs of a path one by one, cut to `DIRSIZ` bytes and with a NUL in the buffer if they are shorter, and the path that it returns is empty after the last; so `namex` visits exactly these. -/
theorem skipelem_splits (path : List UInt8) :
    Yields path ((runs path).map (·.take dirsiz)) ∧
    (∀ name rest, skipelem path = some (name, rest) → (rest = [] ↔ (runs path).length = 1)) ∧
    (∀ run ∈ runs path, 0 ∉ run → ∀ buf, run.take dirsiz <+: copyRun buf run ∧ (0 ∈ (copyRun buf run).take dirsiz ↔ run.length < dirsiz) ∧
      (run.length < dirsiz → run ++ [0] <+: copyRun buf run)) ∧
    (0 ∉ path → ∀ buf : List UInt8, buf.length = dirsiz →
      skipelem path = (skipelemInto path buf).map (fun found => (found.1.takeWhile (· != 0), found.2)) ∧
      ∀ name rest, skipelemInto path buf = some (name, rest) → name.length = dirsiz) ∧
    ∀ cwd nameiparent, namex cwd path nameiparent =
      (if path.head? = some slash then iget rootino else idup cwd) >>= fun ip => namexElems nameiparent ip ((runs path).map (·.take dirsiz)) := by
  refine ⟨yields_runs path, fun name rest hskip => ?_, fun run _ hrun => copyRun_spec hrun,
    fun hpath buf hbuf => ⟨skipelemInto_eq hpath hbuf, fun name rest hskip => ?_⟩, fun cwd nameiparent => ?_⟩
  · obtain ⟨run, -, hruns, hrest⟩ := skipelem_eq_some hskip
    rw [hrest, hruns, List.length_cons, Nat.add_eq_right, List.length_eq_zero_iff]
  · unfold skipelemInto at hskip
    dsimp only at hskip
    split at hskip
    · cases hskip
    · rw [← (Prod.mk.inj (Option.some.inj hskip)).1]
      exact length_copyRun hbuf
  · simp only [namex, namexLoop_eq (Nat.le_refl _)]
    split <;> rfl

end AdvancedXv6.FileSystem
