import Mathlib.Data.Int.Notation
import Mathlib.Data.List.Basic
import Mathlib.Data.Nat.Basic

/-!
# Copies that may stop short

What a copy to user memory stores there. Some addresses can be written to and some cannot; a copy goes on up to the first that cannot, and then fails.
-/

namespace UserMemory

/-- The bytes stored, with their addresses, in the order of the stores. -/
abbrev Stores := List (ℕ × UInt8)

/-- What is stored, and -1 if not all of it. -/
def copyout (writable : ℕ → Bool) : ℕ → List UInt8 → Stores × ℤ
  | _, [] => ([], 0)
  | va, b :: src => if writable va then ((va, b) :: (copyout writable (va + 1) src).1, (copyout writable (va + 1) src).2) else ([], -1)

variable {writable : ℕ → Bool} {va : ℕ} {src : List UInt8}

/-- A copy that has not failed could store its first byte. -/
theorem writable_of_copyout (h : src ≠ []) (hcopied : ¬ (copyout writable va src).2 < 0) : writable va = true := by
  cases src with
  | nil => exact absurd rfl h
  | cons b src =>
    by_contra hva
    exact hcopied (by simp [copyout, hva])

theorem copyout_eq_nil_iff (h : src ≠ []) : (copyout writable va src).1 = [] ↔ writable va = false := by
  cases src with
  | nil => exact absurd rfl h
  | cons b src => cases hva : writable va <;> simp [copyout, hva]

theorem mem_copyout {w : ℕ × UInt8} (h : w ∈ (copyout writable va src).1) : va ≤ w.1 ∧ w.1 < va + src.length := by
  induction src generalizing va with
  | nil => cases h
  | cons b src ih => grind [copyout]

end UserMemory
