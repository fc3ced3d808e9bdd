import Mathlib.Data.Nat.Notation
import Mathlib.Logic.Function.Basic

/-!
# Ownership

Slots name blocks by their numbers, and 0 names none. A map says which blocks are in use. The slots
go with the map when no block is named twice and every block that is named is in use; the blocks
below `lo` are always in use. The two agree when no other block is in use. Allocation keeps both, and
release keeps the agreement.
-/

/-- Every block that a slot names is in use, and no other slot names it. -/
structure Names {ι : Type*} (lo hi : ℕ) (slots : ι → ℕ) (used : ℕ → Bool) : Prop where
  pos : 0 < lo
  low : ∀ b < lo, used b = true
  range : ∀ x, slots x ≠ 0 → lo ≤ slots x ∧ slots x < hi
  inj : ∀ x y, slots x ≠ 0 → slots x = slots y → x = y
  used_of_slot : ∀ x, slots x ≠ 0 → used (slots x) = true

/-- The blocks in use are those that a slot names, each by one slot. -/
structure Owns {ι : Type*} (lo hi : ℕ) (slots : ι → ℕ) (used : ℕ → Bool) : Prop
    extends Names lo hi slots used where
  named : ∀ b, lo ≤ b → b < hi → used b = true → ∃ x, slots x = b

open Function

variable {ι : Type*} {lo hi b : ℕ} {slots : ι → ℕ} {used : ℕ → Bool} {x : ι}

namespace Names

variable (h : Names lo hi slots used)
include h

theorem le_of_free (hb : used b = false) : lo ≤ b := by
  by_contra hlt
  rw [h.low b (by omega)] at hb
  cases hb

theorem ne_of_free (hb : used b = false) (x : ι) : slots x ≠ b := by
  rintro rfl
  have hlo := h.le_of_free hb
  have hpos := h.pos
  rw [h.used_of_slot x (by omega)] at hb
  cases hb

theorem alloc [DecidableEq ι] (x : ι) (hb : used b = false) (hhi : b < hi) :
    Names lo hi (update slots x b) (update used b true) := by
  have hfresh := h.ne_of_free hb
  refine ⟨h.pos, fun c hc => ?_, fun y hy => ?_, fun y z hy hyz => ?_, fun y hy => ?_⟩
  · have hlo := h.le_of_free hb
    rw [update_of_ne (by omega)]
    exact h.low c hc
  · by_cases hyx : y = x
    · subst hyx
      rw [update_self]
      exact ⟨h.le_of_free hb, hhi⟩
    · rw [update_of_ne hyx] at hy ⊢
      exact h.range y hy
  · by_cases hyx : y = x <;> by_cases hzx : z = x
    · rw [hyx, hzx]
    · rw [hyx, update_self, update_of_ne hzx] at hyz
      exact absurd hyz.symm (hfresh z)
    · rw [hzx, update_self, update_of_ne hyx] at hyz
      exact absurd hyz (hfresh y)
    · rw [update_of_ne hyx] at hy hyz
      rw [update_of_ne hzx] at hyz
      exact h.inj y z hy hyz
  · by_cases hyx : y = x
    · rw [hyx, update_self, update_self]
    · rw [update_of_ne hyx] at hy ⊢
      rw [update_of_ne (hfresh y)]
      exact h.used_of_slot y hy

end Names

namespace Owns

variable (h : Owns lo hi slots used)
include h

theorem used_iff (hlo : lo ≤ b) (hhi : b < hi) : used b = true ↔ ∃ x, slots x = b := by
  refine ⟨h.named b hlo hhi, ?_⟩
  rintro ⟨x, rfl⟩
  have hpos := h.pos
  exact h.used_of_slot x (by omega)

theorem alloc [DecidableEq ι] (hx : slots x = 0) (hb : used b = false) (hhi : b < hi) :
    Owns lo hi (update slots x b) (update used b true) := by
  refine ⟨h.toNames.alloc x hb hhi, fun c hlo hhi hc => ?_⟩
  by_cases hcb : c = b
  · exact ⟨x, by rw [update_self, hcb]⟩
  · rw [update_of_ne hcb] at hc
    obtain ⟨y, hy⟩ := h.named c hlo hhi hc
    have hpos := h.pos
    have hyx : y ≠ x := by
      rintro rfl
      omega
    exact ⟨y, by rw [update_of_ne hyx, hy]⟩

theorem free [DecidableEq ι] (hx : slots x ≠ 0) :
    Owns lo hi (update slots x 0) (update used (slots x) false) := by
  have hne {y : ι} (hy : update slots x 0 y ≠ 0) :
      y ≠ x ∧ update slots x 0 y = slots y ∧ slots y ≠ slots x := by
    have hyx : y ≠ x := by
      rintro rfl
      exact hy (update_self ..)
    rw [update_of_ne hyx] at hy ⊢
    exact ⟨hyx, rfl, fun heq => hyx (h.inj y x hy heq)⟩
  refine ⟨⟨h.pos, fun c hc => ?_, fun y hy => ?_, fun y z hy hyz => ?_, fun y hy => ?_⟩,
    fun c hlo hhi hc => ?_⟩
  · have hlo := (h.range x hx).1
    rw [update_of_ne (by omega)]
    exact h.low c hc
  · obtain ⟨-, heq, -⟩ := hne hy
    rw [heq] at hy ⊢
    exact h.range y hy
  · obtain ⟨-, heq, -⟩ := hne hy
    obtain ⟨-, heq', -⟩ := hne (hyz ▸ hy)
    rw [heq] at hy
    exact h.inj y z hy (by rw [← heq, ← heq', hyz])
  · obtain ⟨-, heq, hother⟩ := hne hy
    rw [heq] at hy ⊢
    rw [update_of_ne hother]
    exact h.used_of_slot y hy
  · have hcx : c ≠ slots x := by
      rintro rfl
      rw [update_self] at hc
      cases hc
    rw [update_of_ne hcx] at hc
    obtain ⟨y, rfl⟩ := h.named c hlo hhi hc
    exact ⟨y, update_of_ne (fun hyx => hcx (by rw [hyx])) _ _⟩

end Owns

theorem Names.single [DecidableEq ι] (hpos : 0 < lo) (hlo : lo ≤ b) (hhi : b < hi)
    (hslots : ∀ y, slots y = if y = x then b else 0)
    (hused : ∀ c, c < lo ∨ c = b → used c = true) : Names lo hi slots used := by
  have hname {y : ι} (hy : slots y ≠ 0) : y = x ∧ slots y = b := by
    rw [hslots] at hy ⊢
    split at hy
    · rename_i heq
      exact ⟨heq, if_pos heq⟩
    · exact absurd rfl hy
  refine ⟨hpos, fun c hc => hused c (.inl hc), fun y hy => ?_, fun y z hy hyz => ?_, fun y hy => ?_⟩
  · rw [(hname hy).2]
    exact ⟨hlo, hhi⟩
  · exact (hname hy).1.trans (hname (hyz ▸ hy)).1.symm
  · exact hused _ (.inr (hname hy).2)

theorem Owns.single [DecidableEq ι] (hpos : 0 < lo) (hlo : lo ≤ b) (hhi : b < hi)
    (hslots : ∀ y, slots y = if y = x then b else 0)
    (hused : ∀ c, used c = true ↔ c < lo ∨ c = b) : Owns lo hi slots used := by
  refine ⟨.single hpos hlo hhi hslots fun c => (hused c).mpr, fun c hclo _ hc => ⟨x, ?_⟩⟩
  rw [hslots, if_pos rfl]
  exact (((hused c).mp hc).resolve_left (by omega)).symm
