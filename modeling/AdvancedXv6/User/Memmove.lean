import Mathlib.Data.BitVec
import Mathlib.Logic.Function.Basic

/-!
# `memmove`

The `memmove`s of `kernel/string.c` and `user/ulib.c`, which choose the direction of the copy by different tests. Addresses are of 64 bits and wrap; the length is a `uint` for the kernel and an `int` for a user program.
-/

namespace AdvancedXv6.User

open Function

variable {m : BitVec 64 → UInt8} {d s : BitVec 64} {n : ℕ}

/-- `while(n-- > 0) *d++ = *s++;` -/
def copyUp (m : BitVec 64 → UInt8) (d s : BitVec 64) : ℕ → BitVec 64 → UInt8
  | 0 => m
  | n + 1 => copyUp (update m d (m s)) (d + 1) (s + 1) n

/-- `while(n-- > 0) *--d = *--s;` -/
def copyDown (m : BitVec 64 → UInt8) (d s : BitVec 64) : ℕ → BitVec 64 → UInt8
  | 0 => m
  | n + 1 => copyDown (update m (d - 1) (m (s - 1))) (d - 1) (s - 1) n

def memmove (m : BitVec 64 → UInt8) (dst src : BitVec 64) (n : BitVec 32) : BitVec 64 → UInt8 :=
  if n = 0 then m
  else if src < dst ∧ src + n.setWidth 64 > dst then copyDown m (dst + n.setWidth 64) (src + n.setWidth 64) n.toNat
  else copyUp m dst src n.toNat

def ulibMemmove (m : BitVec 64 → UInt8) (dst src : BitVec 64) (n : BitVec 32) : BitVec 64 → UInt8 :=
  if src > dst then copyUp m dst src n.toInt.toNat
  else copyDown m (dst + n.signExtend 64) (src + n.signExtend 64) n.toInt.toNat

def moved (m : BitVec 64 → UInt8) (d s : BitVec 64) (n : ℕ) : BitVec 64 → UInt8 := fun a => if (a - d).toNat < n then m (s + (a - d)) else m a

@[simp]
theorem moved_zero : moved m d s 0 = m := rfl

/-- No byte is written before it is read, if the destination does not begin inside the source. -/
theorem copyUp_eq (hn : n < 2 ^ 64) (h : (d - s).toNat = 0 ∨ n ≤ (d - s).toNat) : copyUp m d s n = moved m d s n := by
  induction n generalizing m d s with
  | zero => rw [copyUp, moved_zero]
  | succ n ih =>
    rw [copyUp, ih (by omega) (by rw [add_sub_add_right_eq_sub]; omega)]
    funext a
    unfold moved
    by_cases ha : a = d
    · subst ha
      rw [if_neg (by bv_omega), if_pos (by simp)]
      simp
    · rw [update_of_ne ha]
      by_cases hlt : (a - d).toNat < n + 1
      · rw [if_pos (by bv_omega), if_pos hlt, update_of_ne (by bv_omega)]
        congr 1
        bv_omega
      · rw [if_neg (by bv_omega), if_neg hlt]

theorem copyDown_eq (hn : n < 2 ^ 64) (h : (s - d).toNat = 0 ∨ n ≤ (s - d).toNat) : copyDown m (d + n) (s + n) n = moved m d s n := by
  induction n generalizing m with
  | zero => rw [copyDown, moved_zero]
  | succ n ih =>
    have hn64 : (n : BitVec 64).toNat = n := by
      rw [BitVec.natCast_eq_ofNat, BitVec.toNat_ofNat, Nat.mod_eq_of_lt (by omega)]
    rw [copyDown, Nat.cast_succ, ← add_assoc, ← add_assoc, add_sub_cancel_right, add_sub_cancel_right, ih (by omega) (by omega)]
    generalize (n : BitVec 64) = k at hn64
    subst hn64
    funext a
    unfold moved
    by_cases ha : a = d + k
    · subst ha
      rw [if_neg (by bv_omega), if_pos (by bv_omega), update_self, add_sub_cancel_left]
    · rw [update_of_ne ha]
      by_cases hlt : (a - d).toNat < k.toNat
      · rw [if_pos hlt, if_pos (by omega), update_of_ne (by bv_omega)]
      · rw [if_neg hlt, if_neg (by bv_omega)]

variable {dst src : BitVec 64} {n : BitVec 32}

section

variable (hdst : dst.toNat + n.toNat ≤ 2 ^ 64) (hsrc : src.toNat + n.toNat ≤ 2 ^ 64)
include hdst hsrc

theorem memmove_eq : memmove m dst src n = moved m dst src n.toNat := by
  have hn := n.isLt
  unfold memmove
  split
  case isTrue hzero => simp [hzero]
  split
  case isTrue hlt =>
    have hcast : n.setWidth 64 = (n.toNat : BitVec 64) := (BitVec.ofNat_toNat 64 n).symm
    rw [hcast]
    exact copyDown_eq (by omega) (by bv_omega)
  case isFalse hlt => exact copyUp_eq (by omega) (by bv_omega)

theorem ulibMemmove_eq (hn : 0 ≤ n.toInt) :
    ulibMemmove m dst src n = moved m dst src n.toNat := by
  have htoInt : n.toInt = n.toNat := by
    rw [BitVec.toInt_eq_toNat_cond] at hn ⊢
    split at hn <;> omega
  unfold ulibMemmove
  rw [htoInt, Int.toNat_natCast]
  split
  case isTrue hlt => exact copyUp_eq (by omega) (by bv_omega)
  case isFalse hlt =>
    have hcast : n.signExtend 64 = (n.toNat : BitVec 64) := by
      rw [BitVec.signExtend, htoInt, BitVec.ofInt_natCast, BitVec.natCast_eq_ofNat]
    rw [hcast]
    exact copyDown_eq (by omega) (by bv_omega)

end

/-- Whatever the overlap, the destination has the bytes that the source had and the rest of memory is unchanged, for the kernel and for a user program. -/
theorem memmove_copies (m : BitVec 64 → UInt8) (dst src : BitVec 64) (n : BitVec 32)
    (hdst : dst.toNat + n.toNat ≤ 2 ^ 64) (hsrc : src.toNat + n.toNat ≤ 2 ^ 64) :
    (∀ i : ℕ, i < n.toNat → memmove m dst src n (dst + i) = m (src + i)) ∧
    (∀ a, (∀ i : ℕ, i < n.toNat → a ≠ dst + i) → memmove m dst src n a = m a) ∧
    (0 ≤ n.toInt → ulibMemmove m dst src n = memmove m dst src n) := by
  rw [memmove_eq hdst hsrc]
  refine ⟨fun i hi => ?_, fun a ha => if_neg fun hlt => ha _ hlt ?_, ulibMemmove_eq hdst hsrc⟩
  · have hn := n.isLt
    have hoff : (dst + i - dst).toNat = i := by
      rw [add_sub_cancel_left, BitVec.natCast_eq_ofNat, BitVec.toNat_ofNat, Nat.mod_eq_of_lt (by omega)]
    rw [moved, if_pos (by omega), add_sub_cancel_left]
  · rw [BitVec.natCast_eq_ofNat, BitVec.ofNat_toNat, BitVec.setWidth_eq, add_sub_cancel]

/-- The destination begins inside the source. -/
theorem memmove_copies_overlapping : memmove (fun a => a.toNat.toUInt8) 11 10 4 13 = 12 :=
  (memmove_copies (fun a => a.toNat.toUInt8) 11 10 4 (by decide) (by decide)).1 2 (by decide)

end AdvancedXv6.User
