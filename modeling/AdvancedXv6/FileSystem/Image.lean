import AdvancedXv6.FileSystem.Entries

/-!
# The image that `mkfs` makes

Without programs to put into it: a root directory with `.` and `..` in the first data block. Its size has been rounded up to a block.
-/

namespace AdvancedXv6.FileSystem

def rootBlock : Block := fun i =>
  (Dirent.toBytes { inum := rootino, name := strncpy dirsiz dot } ++ Dirent.toBytes { inum := rootino, name := strncpy dirsiz dotdot }).getD i 0

def rootDinode : Dinode := { type := .dir, major := 0, nlink := 1, size := bsize, addrs := fun k => if k = 0 then nmeta else 0 }

def mkfs : Fs where
  bitmap b := b < nmeta ∨ b = nmeta
  blocks b := if b = nmeta then rootBlock else fun _ => 0
  dinodes i := if i = rootino then rootDinode else Dinode.fresh .free
  itable _ := { ref := 0, valid := false, copy := Dinode.fresh .free }

theorem cur_mkfs (i : ℕ) : mkfs.cur i = if i = rootino then rootDinode else Dinode.fresh .free :=
  if_neg fun h => absurd h.1 (Nat.lt_irrefl 0)

theorem slots_mkfs (x : ℕ × ℕ) : mkfs.slots x = if x = (rootino, 0) then nmeta else 0 := by
  obtain ⟨i, k⟩ := x
  unfold Fs.slots
  rw [cur_mkfs]
  by_cases hi : i = rootino
  · rw [if_pos hi]
    rcases Nat.lt_or_ge ndirect k with hk | hk
    · rw [Dinode.slot_of_indirect_zero rfl hk, if_neg fun heq => ?_]
      rw [(Prod.mk.inj heq).2] at hk
      exact absurd hk (by decide)
    · rw [Dinode.slot_direct FileType.noConfusion hk, hi]
      simp only [rootDinode, Prod.mk.injEq, true_and]
  · rw [if_neg hi, if_neg fun heq => hi (Prod.mk.inj heq).1]
    exact Dinode.slot_of_addrs_zero fun _ _ => rfl

theorem owned_mkfs : mkfs.Owned :=
  Owns.single (by decide) (Nat.le_refl _) (by decide) slots_mkfs fun _ => decide_eq_true_iff

theorem solid_mkfs (i : ℕ) : mkfs.Solid i := by
  intro x hx
  rw [cur_mkfs] at hx
  split at hx
  · rename_i hi
    have hx : x < bsize := hx
    rw [slots_mkfs, Nat.div_eq_of_lt hx, if_pos (by rw [hi]; rfl)]
    decide
  · exact absurd hx (Nat.not_lt_zero x)

theorem entry_mkfs_zero : mkfs.entry rootino 0 = { inum := rootino, name := strncpy dirsiz dot } := by
  decide +kernel

theorem entry_mkfs_one : mkfs.entry rootino 1 = { inum := rootino, name := strncpy dirsiz dotdot } := by
  decide +kernel

theorem entry_mkfs_inum {i k : ℕ} (h : (mkfs.entry i k).inum ≠ 0) : i = rootino ∧ k < 2 := by
  have hsize := Fs.size_of_entry h
  rw [cur_mkfs] at hsize
  split at hsize
  · rename_i hi
    subst hi
    have hk : k < 64 := by
      have hsize : 16 * k + 16 ≤ 1024 := hsize
      omega
    have hall : ∀ k < 64, (mkfs.entry rootino k).inum ≠ 0 → k < 2 := by
      decide +kernel
    exact ⟨rfl, hall k hk h⟩
  · exact absurd hsize (Nat.not_succ_le_zero _)

end AdvancedXv6.FileSystem
