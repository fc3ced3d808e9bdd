import AdvancedXv6.Lib.SharedArray
import Mathlib.Data.List.Lex

/-!
# The sorting program

`concurrency/lazy_sort.c`. Fewer than `THRESHOLD` files are given to `qsort` with the comparison of the chosen column. Otherwise the array is cut into four chunks, four threads sort a chunk each, and the array is printed as they leave it.

`qsort` belongs to the C library. It is a parameter of the model, and all that is known of it is `Qsort.Sorts`.
-/

namespace AdvancedXv6.LazySort

abbrev CString := List (Fin 256)

structure File where
  name : CString
  id : Int32
  timestamp : CString
  deriving DecidableEq, Inhabited

def threshold : ℕ := 42

/-! ### Comparisons -/

/-- Only the sign of what `strcmp` returns is specified. -/
def strcmp : CString → CString → Int32
  | [], [] => 0
  | [], _ :: _ => -1
  | _ :: _, [] => 1
  | a :: as, b :: bs => if a < b then -1 else if b < a then 1 else strcmp as bs

abbrev Compare := File → File → Int32

def compareByName : Compare := fun a b => strcmp a.name b.name

/-- The subtraction is one of 32-bit integers and may overflow. -/
def compareById : Compare := fun a b => a.id - b.id

def compareByTimestamp : Compare := fun a b => strcmp a.timestamp b.timestamp

inductive Column where
  | name
  | id
  | timestamp
  deriving DecidableEq

def Column.compare : Column → Compare
  | .name => compareByName
  | .id => compareById
  | .timestamp => compareByTimestamp

/-! ### `qsort` -/

abbrev Qsort := List File → Compare → List File

/-- The comparison orders the files of this list: it is total and transitive, and it says the opposite of the exchanged files. -/
structure Compare.Orders (compare : Compare) (files : List File) : Prop where
  total : ∀ a ∈ files, ∀ b ∈ files, compare a b ≤ 0 ∨ compare b a ≤ 0
  trans : ∀ a ∈ files, ∀ b ∈ files, ∀ c ∈ files, compare a b ≤ 0 → compare b c ≤ 0 → compare a c ≤ 0
  swap : ∀ a ∈ files, ∀ b ∈ files, compare a b < 0 ↔ 0 < compare b a

/-- What is assumed of `qsort`. It promises nothing when the comparison is no order. -/
def Qsort.Sorts (qsort : Qsort) : Prop :=
  ∀ files compare, Compare.Orders compare files → (qsort files compare).Perm files ∧ (qsort files compare).Pairwise fun a b => compare a b ≤ 0

/-! ### Merge sort -/

def copy (left : ℕ) : ℕ → Code File (List File)
  | 0 => pure []
  | n + 1 => do
    let file ← Code.get left
    let rest ← copy (left + 1) n
    pure (file :: rest)

def store (k : ℕ) : List File → Code File Unit
  | [] => pure ()
  | file :: rest => do
    Code.put k file
    store (k + 1) rest

/-- The three `while` loops of `merge`. -/
def mergeLoop (compare : Compare) (k : ℕ) : List File → List File → Code File Unit
  | [], R => store k R
  | L, [] => store k L
  | l :: L, r :: R =>
    if compare l r ≤ 0 then do
      Code.put k l
      mergeLoop compare (k + 1) L (r :: R)
    else do
      Code.put k r
      mergeLoop compare (k + 1) (l :: L) R
termination_by L R => L.length + R.length

def merge (left mid right : ℕ) (compare : Compare) : Code File Unit := do
  let L ← copy left (mid - left + 1)
  let R ← copy (mid + 1) (right - mid)
  mergeLoop compare left L R

def mergeSort (left right : ℕ) (compare : Compare) : Code File Unit :=
  if left < right then do
    let mid := left + (right - left) / 2
    mergeSort left mid compare
    mergeSort (mid + 1) right compare
    merge left mid right compare
  else
    pure ()
termination_by right - left

/-- `qsort` in a thread reads the chunk and writes it back. -/
def threadMergeSort (qsort : Qsort) (left right : ℕ) : Code File Unit :=
  if right < left + 2 then do
    let chunk ← copy left (right + 1 - left)
    store left (qsort chunk compareByName)
  else
    mergeSort left right compareByName

/-! ### `sort_files` -/

def startIdx (numFiles : ℕ) (i : Fin 4) : ℕ := i * (numFiles / 4)

def endIdx (numFiles : ℕ) (i : Fin 4) : ℕ := if i = 3 then numFiles - 1 else (i + 1) * (numFiles / 4) - 1

def start (qsort : Qsort) (files : List File) : Threads 4 File where
  code i := threadMergeSort qsort (startIdx files.length i) (endIdx files.length i)
  mem i := files.getD i default

/-- The array that `sort_files` prints. The last loop runs after all threads have been joined. -/
def Prints (qsort : Qsort) (column : Column) (files out : List File) : Prop :=
  if files.length < threshold then
    out = qsort files column.compare
  else
    ∃ c, Threads.Reachable (start qsort files) c ∧ c.Finished ∧ out = (List.range files.length).map c.mem

/-! ### What sorted means -/

/-- The order of a column: string order for names and timestamps, integer order for ids. -/
def Column.le : Column → File → File → Prop
  | .name, a, b => a.name ≤ b.name
  | .id, a, b => a.id.toInt ≤ b.id.toInt
  | .timestamp, a, b => a.timestamp ≤ b.timestamp

/-- Something is printed, and whatever is printed is the input in the order of the column. -/
structure SortsFiles (qsort : Qsort) (column : Column) (files : List File) : Prop where
  prints : ∃ out, Prints qsort column files out
  perm : ∀ out, Prints qsort column files out → out.Perm files
  sorted : ∀ out, Prints qsort column files out → out.Pairwise column.le

end AdvancedXv6.LazySort
