import AdvancedXv6.FileSystem.Slots
import Mathlib.Data.Finset.Basic
import Mathlib.Data.Finset.Range

/-!
# Truncation

`itrunc` frees the blocks of an inode one by one and clears the addresses behind them. While it runs the free map agrees with the slots that it has not come to yet; at the end the inode has no slots.
-/

namespace AdvancedXv6.FileSystem

open Function Prog

variable {s s' : Fs} {ip k n : ℕ} {freed : Finset ℕ} {E : Panic → Prop}

def Dinode.truncate (d : Dinode) : Dinode := { d with size := 0, addrs := fun k => if k < ndirect + 1 then 0 else d.addrs k }

def Fs.slotsWithout (s : Fs) (ip : ℕ) (freed : Finset ℕ) (x : ℕ × ℕ) : ℕ := if x.1 = ip ∧ x.2 ∈ freed then 0 else s.slots x

structure Clearing (s s' : Fs) (ip n : ℕ) (freed : Finset ℕ) : Prop where
  owns : Owns nmeta fsSize (s.slotsWithout ip freed) s'.bitmap
  blocks_eq : s'.blocks = s.blocks
  dinodes_eq : s'.dinodes = s.dinodes
  itable_eq : s'.itable = update s.itable ip
    { s.itable ip with copy := { (s.itable ip).copy with addrs := fun k => if k < n then 0 else (s.itable ip).copy.addrs k } }

theorem Clearing.refl (h : s.Owned) (ip : ℕ) : Clearing s s ip 0 ∅ := by
  refine ⟨?_, rfl, rfl, ?_⟩
  · have hslots : s.slotsWithout ip ∅ = s.slots := by
      funext x
      exact if_neg fun hx => Finset.notMem_empty _ hx.2
    rw [hslots]
    exact h
  · exact (update_eq_self ip s.itable).symm

theorem Fs.slotsWithout_insert (s : Fs) (ip k : ℕ) (freed : Finset ℕ) :
    s.slotsWithout ip (insert k freed) = update (s.slotsWithout ip freed) (ip, k) 0 := by
  funext ⟨i, l⟩
  by_cases hx : (i, l) = (ip, k)
  · obtain ⟨rfl, rfl⟩ := Prod.mk.inj hx
    rw [update_self]
    exact if_pos ⟨rfl, Finset.mem_insert_self ..⟩
  · rw [update_of_ne hx]
    unfold slotsWithout
    refine if_congr ?_ rfl rfl
    rw [Finset.mem_insert]
    constructor
    · rintro ⟨hi, hl | hl⟩
      · exact absurd (Prod.ext hi hl) hx
      · exact ⟨hi, hl⟩
    · rintro ⟨hi, hl⟩
      exact ⟨hi, .inr hl⟩

section

variable (h : Clearing s s' ip n freed)
include h

theorem Clearing.skip {freed' : Finset ℕ} (hsub : freed ⊆ freed')
    (hzero : ∀ k ∈ freed', k ∉ freed → s.slots (ip, k) = 0) : Clearing s s' ip n freed' := by
  refine ⟨?_, h.blocks_eq, h.dinodes_eq, h.itable_eq⟩
  have hslots : s.slotsWithout ip freed' = s.slotsWithout ip freed := by
    funext ⟨i, k⟩
    unfold Fs.slotsWithout
    by_cases hold : i = ip ∧ k ∈ freed
    · rw [if_pos hold, if_pos ⟨hold.1, hsub hold.2⟩]
    · rw [if_neg hold]
      split
      · rename_i hnew
        obtain ⟨rfl, hk⟩ := hnew
        exact (hzero k hk fun hmem => hold ⟨rfl, hmem⟩).symm
      · rfl
  rw [hslots]
  exact h.owns

theorem Clearing.skip_insert (hzero : s.slots (ip, k) = 0) : Clearing s s' ip n (insert k freed) := by
  refine h.skip (Finset.subset_insert ..) fun l hl hnew => ?_
  rw [(Finset.mem_insert.mp hl).resolve_right hnew]
  exact hzero

theorem Clearing.post_bfree (hk : k ∉ freed) (hne : s.slots (ip, k) ≠ 0) {Q : Unit → Fs → Prop}
    (hQ : ∀ s'', Clearing s s'' ip n (insert k freed) → Q () s'') : Post (bfree (s.slots (ip, k))) s' Q E := by
  have hslot : s.slotsWithout ip freed (ip, k) = s.slots (ip, k) := if_neg fun hx => hk hx.2
  have hused := h.owns.used_of_slot (ip, k) (by rw [hslot]; exact hne)
  rw [hslot] at hused
  refine Post.bind (Post.get ?_)
  rw [if_pos hused]
  refine Post.set (hQ _ ⟨?_, h.blocks_eq, h.dinodes_eq, h.itable_eq⟩)
  have hfree := h.owns.free (x := (ip, k)) (by rw [hslot]; exact hne)
  rw [hslot] at hfree
  rw [Fs.slotsWithout_insert]
  exact hfree

theorem Clearing.entry_eq : s'.itable ip =
    { s.itable ip with copy := { (s.itable ip).copy with addrs := fun k => if k < n then 0 else (s.itable ip).copy.addrs k } } := by
  rw [h.itable_eq, update_self]

theorem Clearing.addrs_eq :
    (s'.itable ip).copy.addrs = fun k => if k < n then 0 else (s.itable ip).copy.addrs k := by
  rw [h.entry_eq]

theorem Clearing.slot_eq (hl : s.Locked ip) (hn : n ≤ ndirect) :
    (s'.itable ip).copy.addrs n = s.slots (ip, n) := by
  rw [h.addrs_eq, hl.slots_addr hn]
  exact if_neg (Nat.lt_irrefl n)

theorem Clearing.addr_zero (hzero : (s'.itable ip).copy.addrs n = 0) : Clearing s s' ip (n + 1) freed := by
  refine ⟨h.owns, h.blocks_eq, h.dinodes_eq, ?_⟩
  have haddrs : (fun k => if k < n then 0 else (s.itable ip).copy.addrs k) = fun k => if k < n + 1 then 0 else (s.itable ip).copy.addrs k := by
    funext k
    by_cases hk : k = n
    · subst hk
      rw [h.addrs_eq] at hzero
      exact hzero.trans (if_pos (Nat.lt_succ_self k)).symm
    · exact if_congr (by omega) rfl rfl
  rw [← haddrs]
  exact h.itable_eq

theorem Clearing.setAddr :
    Clearing s (s'.setCopy ip ((s'.itable ip).copy.setAddr n 0)) ip (n + 1) freed := by
  refine ⟨h.owns, h.blocks_eq, h.dinodes_eq, ?_⟩
  have haddrs : ((s'.itable ip).copy.setAddr n 0).addrs = fun k => if k < n + 1 then 0 else (s.itable ip).copy.addrs k := by
    funext k
    rw [h.entry_eq]
    by_cases hk : k = n
    · subst hk
      rw [Dinode.addrs_setAddr_self, if_pos (Nat.lt_succ_self _)]
    · rw [Dinode.addrs_setAddr_of_ne hk]
      exact if_congr (by omega) rfl rfl
  unfold Fs.setCopy Fs.setEntry Dinode.setAddr at *
  dsimp only at *
  rw [haddrs, h.entry_eq, h.itable_eq, update_idem]

end

theorem Clearing.post_itruncAddr (h : Clearing s s' ip n (Finset.range n)) (hl : s.Locked ip) (hn : n < ndirect) :
    Post (itruncAddr ip n) s' (fun b s'' => b = none ∧ Clearing s s'' ip (n + 1) (Finset.range (n + 1))) E := by
  have haddr := h.slot_eq hl (Nat.le_of_lt hn)
  refine Post.bind (Post.bind (Post.get (Post.pure ?_)))
  rw [haddr, Finset.range_add_one]
  split
  · rename_i hzero
    exact Post.pure ⟨rfl, (h.skip_insert hzero).addr_zero (haddr.trans hzero)⟩
  · refine Post.bind (h.post_bfree Finset.notMem_range_self ‹_› fun s'' h'' => ?_)
    exact Post.bind (Post.modify (Post.pure ⟨rfl, h''.setAddr⟩))

def entriesBefore (j : ℕ) : Finset ℕ := (Finset.range (ndirect + 1 + j)).erase ndirect

theorem entriesBefore_zero : entriesBefore 0 = Finset.range ndirect := by
  unfold entriesBefore
  rw [Nat.add_zero, Finset.range_add_one, Finset.erase_insert Finset.notMem_range_self]

theorem entriesBefore_succ (j : ℕ) : entriesBefore (j + 1) = insert (ndirect + 1 + j) (entriesBefore j) := by
  unfold entriesBefore
  rw [← Nat.add_assoc, Finset.range_add_one, Finset.erase_insert_of_ne (by omega)]

theorem Clearing.post_itruncEntry {j : ℕ} (h : Clearing s s' ip n (entriesBefore j)) (hl : s.Locked ip) (hj : j < nindirect)
    (hne : s.slots (ip, ndirect) ≠ 0) :
    Post (itruncEntry (s.blocks (s.slots (ip, ndirect))) j) s' (fun b s'' => b = none ∧ Clearing s s'' ip n (entriesBefore (j + 1))) E := by
  unfold itruncEntry
  rw [← hl.slots_entry hj hne, entriesBefore_succ]
  split
  · exact Post.pure ⟨rfl, h.skip_insert ‹_›⟩
  · refine Post.bind (h.post_bfree (fun hmem => ?_) ‹_› fun s'' h'' => Post.pure ⟨rfl, h''⟩)
    have hlt := Finset.mem_range.mp (Finset.mem_of_mem_erase hmem)
    omega

theorem Clearing.post_itruncIndirect (h : Clearing s s' ip ndirect (Finset.range ndirect)) (hl : s.Locked ip) :
    Post (itruncIndirect ip) s' (fun _ s'' => Clearing s s'' ip (ndirect + 1) (Finset.range nslots)) E := by
  have haddr := h.slot_eq hl (Nat.le_refl ndirect)
  have hall : insert ndirect (entriesBefore nindirect) = Finset.range nslots :=
    Finset.insert_erase (Finset.mem_range.mpr (by omega))
  refine Post.bind (Post.bind (Post.get (Post.pure ?_)))
  rw [haddr]
  split
  · rename_i hzero
    have hsub : Finset.range ndirect ⊆ Finset.range nslots := Finset.range_subset_range.mpr (by unfold nslots; omega)
    refine Post.pure ((h.skip hsub fun k _ hk => ?_).addr_zero (haddr.trans hzero))
    rw [Finset.mem_range, Nat.not_lt] at hk
    rcases Nat.lt_or_ge ndirect k with hlt | hge
    · rw [show k = k - 1 + 1 by omega]
      exact Fs.slots_entry_of_zero (by omega) hzero
    · rw [show k = ndirect by omega]
      exact hzero
  · rename_i hne
    refine Post.bind (Post.bind (Post.get (Post.pure ?_)))
    rw [h.blocks_eq]
    rw [← entriesBefore_zero] at h
    refine Post.step (R := fun _ s1 => Clearing s s1 ip ndirect (entriesBefore nindirect)) ?_ fun _ s1 h1 => ?_
    · refine Post.loop (I := fun j s1 => Clearing s s1 ip ndirect (entriesBefore j)) h (fun j s1 hj h1 => ?_) fun _ h1 => h1
      rw [Nat.zero_add, Nat.mul_one]
      refine (h1.post_itruncEntry hl hj hne).mono (fun b s2 hb => ?_) fun _ he => he
      rw [hb.1]
      exact hb.2
    · refine Post.bind (h1.post_bfree (Finset.notMem_erase ndirect _) hne fun s2 h2 => Post.modify ?_)
      rw [hall] at h2
      exact h2.setAddr

structure Truncated (s s' : Fs) (ip : ℕ) : Prop where
  owned : s'.Owned
  slots_eq : ∀ x, s'.slots x = if x.1 = ip then 0 else s.slots x
  blocks_eq : s'.blocks = s.blocks
  dinodes_eq : s'.dinodes = update s.dinodes ip (s.itable ip).copy.truncate
  itable_eq : s'.itable = update s.itable ip { s.itable ip with copy := (s.itable ip).copy.truncate }

theorem Clearing.truncated (h : Clearing s s' ip (ndirect + 1) (Finset.range nslots)) (hl : s.Locked ip) {s1 : Fs}
    (hbitmap : s1.bitmap = s'.bitmap) (hblocks : s1.blocks = s'.blocks)
    (hdinodes : s1.dinodes = update s.dinodes ip (s.itable ip).copy.truncate)
    (hitable : s1.itable = update s.itable ip { s.itable ip with copy := (s.itable ip).copy.truncate }) : Truncated s s1 ip := by
  have hslots (x : ℕ × ℕ) : s1.slots x = if x.1 = ip then 0 else s.slots x := by
    obtain ⟨i, k⟩ := x
    unfold Fs.slots
    by_cases hi : i = ip
    · subst hi
      have hcur : s1.cur i = (s.itable i).copy.truncate := by
        unfold Fs.cur
        rw [hitable, update_self]
        exact if_pos ⟨hl.ref_pos, hl.valid⟩
      rw [if_pos rfl, hcur]
      exact Dinode.slot_of_addrs_zero fun k hk => if_pos (Nat.lt_succ_of_le hk)
    · rw [if_neg hi, hblocks, h.blocks_eq, Fs.cur_congr]
      · rw [hitable, update_of_ne hi]
      · rw [hdinodes, update_of_ne hi]
  refine ⟨?_, hslots, hblocks.trans h.blocks_eq, hdinodes, hitable⟩
  have hwithout : s1.slots = s.slotsWithout ip (Finset.range nslots) := by
    funext ⟨i, k⟩
    rw [hslots]
    unfold Fs.slotsWithout
    by_cases hi : i = ip
    · rw [if_pos hi]
      split
      · rfl
      · rename_i hk
        refine (Dinode.slot_eq_zero_of_le ?_).symm
        by_contra hlt
        exact hk ⟨hi, Finset.mem_range.mpr (by omega)⟩
    · rw [if_neg hi, if_neg fun hx => hi hx.1]
  unfold Fs.Owned
  rw [hwithout, hbitmap]
  exact h.owns

theorem post_itrunc (h : s.Owned) (hl : s.Locked ip) : Post (itrunc ip) s (fun _ s' => Truncated s s' ip) E := by
  refine Post.step (R := fun _ s1 => Clearing s s1 ip ndirect (Finset.range ndirect)) ?_ fun _ s1 h1 => ?_
  · refine Post.loop (I := fun k s1 => Clearing s s1 ip k (Finset.range k)) (Clearing.refl h ip) (fun k s1 hk h1 => ?_) fun _ h1 => h1
    rw [Nat.zero_add, Nat.mul_one]
    refine (h1.post_itruncAddr hl hk).mono (fun b s2 hb => ?_) fun _ he => he
    rw [hb.1]
    exact hb.2
  refine Post.step (h1.post_itruncIndirect hl) fun _ s2 h2 => ?_
  refine Post.bind (Post.modify (Post.modify (h2.truncated hl rfl rfl ?_ ?_)))
  · rw [Fs.itable_setCopy_self]
    change update s2.dinodes ip { (s2.itable ip).copy with size := 0 } = _
    rw [h2.entry_eq, h2.dinodes_eq]
    rfl
  · change update s2.itable ip { s2.itable ip with copy := { (s2.itable ip).copy with size := 0 } } = _
    rw [h2.entry_eq, h2.itable_eq, update_idem]
    rfl

end AdvancedXv6.FileSystem
