import AdvancedXv6.FileSystem.Slots
import Mathlib.Data.List.GetD

/-!
# Files as byte arrays

The content of a file is read off the blocks that its slots name. `readi` returns a part of it and changes nothing, if no block below the size is missing; `writei` replaces a part of it, as far as there are blocks, and does not touch the other files.
-/

namespace AdvancedXv6.FileSystem

open Function Prog

def Fs.byte (s : Fs) (i x : ℕ) : UInt8 :=
  if s.slots (i, slotOf (x / bsize)) = 0 then 0 else s.blocks (s.slots (i, slotOf (x / bsize))) (x % bsize)

def Fs.content (s : Fs) (i : ℕ) : List UInt8 := (List.range (s.cur i).size).map (s.byte i)

/-- No block below the size is missing. -/
def Fs.Solid (s : Fs) (i : ℕ) : Prop := ∀ x < (s.cur i).size, s.slots (i, slotOf (x / bsize)) ≠ 0

variable {s s' : Fs} {ip : ℕ} {E : Panic → Prop}

@[simp] theorem Fs.length_content : (s.content ip).length = (s.cur ip).size := by
  unfold Fs.content
  rw [List.length_map, List.length_range]

variable {x i j m fuel tot o off : ℕ} {src : Source} {copyout : ℕ → ℕ → Bool} {bytes : List UInt8} {block : Block} {s1 : Fs}

@[simp] theorem Fs.getElem_content (hx : x < (s.content ip).length) : (s.content ip)[x] = s.byte ip x := by
  simp only [Fs.content, List.getElem_map, List.getElem_range]

theorem bsize_pos : 0 < bsize := by decide

theorem lt_maxFile_of_slot {bn : ℕ} (h : s.slots (i, slotOf bn) ≠ 0) : bn < maxFile := by
  by_contra hge
  refine h (Dinode.slot_eq_zero_of_le ?_)
  dsimp only
  unfold slotOf nslots
  unfold maxFile at hge
  split <;> omega

theorem Fs.Solid.size_le (h : s.Solid ip) : (s.cur ip).size ≤ maxFile * bsize := by
  by_contra hgt
  have hslot := lt_maxFile_of_slot (h (maxFile * bsize) (by omega))
  rw [Nat.mul_div_cancel _ bsize_pos] at hslot
  exact Nat.lt_irrefl _ hslot

theorem Fs.byte_of_slot (h : s.slots (i, slotOf (x / bsize)) ≠ 0) :
    s.byte i x = s.blocks (s.slots (i, slotOf (x / bsize))) (x % bsize) := if_neg h

theorem div_bsize_add (h : off % bsize + j < bsize) : (off + j) / bsize = off / bsize := by
  unfold bsize at *
  omega

theorem mod_bsize_add (h : off % bsize + j < bsize) : (off + j) % bsize = off % bsize + j := by
  unfold bsize at *
  omega

/-! ### Reading -/

theorem Fs.bytes_eq (hslot : s.slots (ip, slotOf (off / bsize)) ≠ 0) (hm : off % bsize + m ≤ bsize) :
    (s.blocks (s.slots (ip, slotOf (off / bsize)))).bytes (off % bsize) m = (List.range' off m).map (s.byte ip) := by
  unfold Block.bytes
  refine List.ext_getElem (by simp) fun j hj _ => ?_
  rw [List.length_map, List.length_range'] at hj
  rw [List.getElem_map, List.getElem_map, List.getElem_range', List.getElem_range', Nat.one_mul]
  have hdiv : (off + j) / bsize = off / bsize := div_bsize_add (by omega)
  rw [Fs.byte_of_slot (by rw [hdiv]; exact hslot), hdiv, mod_bsize_add (by omega)]

theorem post_readLoop (h : s.Named) (hl : s.Locked ip) (hs : s.Solid ip) {n : ℕ}
    (hfuel : n ≤ tot + fuel) (hend : off + (n - tot) ≤ (s.cur ip).size) :
    Post (readLoop ip copyout n fuel tot off bytes) s (fun r s' => s' = s ∧
      ((∀ t m, copyout t m = true) → r = some (bytes ++ (List.range' off (n - tot)).map (s.byte ip)))) E := by
  induction fuel generalizing tot off bytes with
  | zero =>
    refine Post.pure ⟨rfl, fun _ => ?_⟩
    rw [show n - tot = 0 by omega, List.range'_zero, List.map_nil, List.append_nil]
  | succ fuel ih =>
    unfold readLoop
    split
    · have hslot := hs off (by omega)
      refine Post.step (post_bmap h hl (lt_maxFile_of_slot hslot)) fun addr s1 h1 => ?_
      have hsame := h1.same hslot
      subst hsame
      have haddr := h1.slot_eq
      subst haddr
      rw [if_neg hslot]
      refine Post.bind (Post.bind (Post.get (Post.pure ?_)))
      have hmod := Nat.mod_lt off bsize_pos
      dsimp only
      split
      · refine (ih (by omega) (by omega)).mono (fun r s2 hr => ⟨hr.1, fun hcopy => ?_⟩) fun _ he => he
        rw [hr.2 hcopy, Fs.bytes_eq hslot (by omega), List.append_assoc, ← List.map_append, List.range'_append_1]
        congr 4
        omega
      · rename_i hfault
        exact Post.pure ⟨rfl, fun hcopy => absurd (hcopy _ _) hfault⟩
    · refine Post.pure ⟨rfl, fun _ => ?_⟩
      rw [show n - tot = 0 by omega, List.range'_zero, List.map_nil, List.append_nil]

theorem add_lt_self_iff {off n : UInt32} : off + n < off ↔ 2 ^ 32 ≤ off.toNat + n.toNat := by
  have hoff := off.toNat_lt
  have hn := n.toNat_lt
  rw [UInt32.lt_iff_toNat_lt, UInt32.toNat_add]
  omega

theorem Fs.content_slice {n : ℕ} : ((s.content ip).drop off).take n = (List.range' off (min n ((s.cur ip).size - off))).map (s.byte ip) := by
  unfold Fs.content
  refine List.ext_getElem (by simp) fun j hj _ => ?_
  simp

/-- `readi` returns a part of the content, cut off at the end of the file. -/
theorem post_readi (h : s.Named) (hl : s.Locked ip) (hs : s.Solid ip) {off n : UInt32} :
    Post (readi ip copyout off n) s (fun r s' => s' = s ∧ ((∀ t m, copyout t m = true) →
      r = some (if 2 ^ 32 ≤ off.toNat + n.toNat then [] else ((s.content ip).drop off.toNat).take n.toNat))) E := by
  refine Post.bind (Post.bind (Post.get (Post.pure ?_)))
  rw [← hl.cur_eq]
  have hcontent : (s.content ip).length = (s.cur ip).size := Fs.length_content
  split
  · rename_i hout
    refine Post.pure ⟨rfl, fun _ => ?_⟩
    rw [add_lt_self_iff] at hout
    rcases hout with hout | hout
    · rw [List.drop_eq_nil_of_le (by omega), List.take_nil, ite_self]
    · rw [if_pos hout]
  · rename_i hin
    rw [not_or, add_lt_self_iff] at hin
    obtain ⟨hoff, hwrap⟩ := hin
    have hadd : (off + n).toNat = off.toNat + n.toNat := by
      rw [UInt32.toNat_add]
      omega
    rw [if_neg hwrap, hadd, Fs.content_slice]
    have hn : (if (s.cur ip).size < off.toNat + n.toNat then (s.cur ip).size - off.toNat else n.toNat) =
        min n.toNat ((s.cur ip).size - off.toNat) := by
      split <;> omega
    dsimp only
    rw [hn]
    refine (post_readLoop h hl hs (by omega) (by omega)).mono (fun r s1 hr => ⟨hr.1, fun hcopy => ?_⟩) fun _ he => he
    rw [hr.2 hcopy, List.nil_append, Nat.sub_zero]

/-! ### Writing -/

theorem Block.put_of_lt (h : j < o) : block.put o bytes j = block j := if_neg (by omega)

theorem Block.put_of_ge (h : o + bytes.length ≤ j) : block.put o bytes j = block j := by
  unfold Block.put
  rw [if_pos (by omega), List.getD_eq_default _ _ (by omega)]

theorem Block.put_self (h : j < bytes.length) : block.put o bytes (o + j) = bytes[j] := by
  unfold Block.put
  rw [if_pos (by omega), Nat.add_sub_cancel_left, List.getD_eq_getElem _ _ h]

theorem copyin_length_le (src : Source) (tot m : ℕ) : (copyin src tot m).length ≤ m := by
  induction m generalizing tot with
  | zero => exact Nat.le_refl 0
  | succ m ih =>
    unfold copyin
    split
    · rw [List.length_cons]
      exact Nat.succ_le_succ (ih (tot + 1))
    · exact Nat.zero_le _

theorem src_eq_of_copyin {byte : UInt8} (h : (copyin src tot m)[j]? = some byte) : src (tot + j) = some byte := by
  induction m generalizing tot j with
  | zero => cases h
  | succ m ih =>
    unfold copyin at h
    cases hsrc : src tot with
    | none =>
      rw [hsrc] at h
      cases h
    | some first =>
      rw [hsrc] at h
      cases j with
      | zero => exact hsrc.trans h
      | succ j =>
        have htail : (copyin src (tot + 1) m)[j]? = some byte := h
        rw [← ih htail]
        congr 1
        omega

theorem copyin_fault (h : (copyin src tot m).length < m) : ∃ j < m, src (tot + j) = none := by
  induction m generalizing tot with
  | zero => exact absurd h (Nat.not_lt_zero _)
  | succ m ih =>
    unfold copyin at h
    cases hsrc : src tot with
    | none => exact ⟨0, Nat.succ_pos m, hsrc⟩
    | some byte =>
      simp only [hsrc, List.length_cons, Nat.add_lt_add_iff_right] at h
      obtain ⟨j, hj, hnone⟩ := ih h
      exact ⟨j + 1, Nat.succ_lt_succ hj, by rw [← hnone]; congr 1; omega⟩

structure Writing (s s' : Fs) (ip : ℕ) (touched : ℕ → Prop) : Prop extends Grown s s' ip where
  byte_eq : ∀ i x, (i = ip → s.slots (i, slotOf (x / bsize)) ≠ 0 ∧ ¬ touched x) → s'.byte i x = s.byte i x

variable {touched touched' : ℕ → Prop}

theorem Mapped.writing (h : Mapped s s' ip) : Writing s s' ip fun _ => False := by
  refine ⟨h.toGrown, fun i x hx => ?_⟩
  unfold Fs.byte
  by_cases hzero : s.slots (i, slotOf (x / bsize)) = 0
  · rw [h.others _ fun hi => (hx hi).1 hzero]
    simp only [hzero, if_true]
  · rw [h.kept _ hzero, h.blocks_eq _ (slotOf_ne_ndirect _) hzero]

theorem Writing.trans {s2 s3 : Fs} (h : Writing s1 s2 ip touched) (h' : Writing s2 s3 ip touched') :
    Writing s1 s3 ip fun x => touched x ∨ touched' x := by
  refine ⟨h.toGrown.trans h'.toGrown, fun i x hx => ?_⟩
  rw [h'.byte_eq i x fun hi => ⟨h.slots_ne (hx hi).1, fun ht => (hx hi).2 (.inr ht)⟩, h.byte_eq i x fun hi => ⟨(hx hi).1, fun ht => (hx hi).2 (.inl ht)⟩]

theorem Writing.mono (h : Writing s s' ip touched) (ht : ∀ x, touched x → touched' x) : Writing s s' ip touched' :=
  ⟨h.toGrown, fun i x hx => h.byte_eq i x fun hi => ⟨(hx hi).1, fun hold => (hx hi).2 (ht x hold)⟩⟩

theorem Fs.Named.put (h : s.Named) (hslot : s.slots (ip, slotOf (off / bsize)) ≠ 0)
    (hlen : off % bsize + bytes.length ≤ bsize) {s' : Fs}
    (hs' : s' = s.setBlock (s.slots (ip, slotOf (off / bsize))) ((s.blocks (s.slots (ip, slotOf (off / bsize)))).put (off % bsize) bytes)) :
    Writing s s' ip (fun x => off ≤ x ∧ x < off + bytes.length) ∧ ∀ j (hj : j < bytes.length), s'.byte ip (off + j) = bytes[j] := by
  have hslots : s'.slots = s.slots := by
    rw [hs']
    refine Fs.slots_setBlock fun i heq => ?_
    exact slotOf_ne_ndirect _ (Prod.mk.inj (h.inj _ _ hslot heq.symm)).2
  have hblock : s'.blocks (s.slots (ip, slotOf (off / bsize))) = (s.blocks (s.slots (ip, slotOf (off / bsize)))).put (off % bsize) bytes := by
    rw [hs', Fs.blocks_setBlock_self]
  refine ⟨⟨⟨?_, fun ho => ?_, by rw [hs']; rfl, ⟨(s.itable ip).copy.addrs, ?_⟩,
    fun x _ => by rw [hslots], fun x _ => by rw [hslots], fun b hb => by rw [hs']; exact hb⟩,
    fun i x hx => ?_⟩, fun j hj => ?_⟩
  · rw [Fs.Named, hslots, hs']
    exact h
  · rw [Fs.Owned, hslots, hs']
    exact ho
  · rw [hs']
    exact (update_eq_self ip s.itable).symm
  · unfold Fs.byte
    rw [hslots]
    split
    · rfl
    · rename_i hne
      by_cases heq : s.slots (i, slotOf (x / bsize)) = s.slots (ip, slotOf (off / bsize))
      · obtain ⟨hi, hk⟩ := Prod.mk.inj (h.inj _ _ hne heq)
        have hdiv := slotOf_inj hk
        have hout := (hx hi).2
        rw [heq, hblock]
        have hx' := Nat.div_add_mod x bsize
        have hoff' := Nat.div_add_mod off bsize
        rw [hdiv] at hx'
        rcases Nat.lt_or_ge (x % bsize) (off % bsize) with hlt | hge
        · exact Block.put_of_lt hlt
        · exact Block.put_of_ge (by omega)
      · rw [hs', Fs.blocks_setBlock_of_ne heq]
  · have hdiv : (off + j) / bsize = off / bsize := div_bsize_add (by omega)
    have hmod : (off + j) % bsize = off % bsize + j := mod_bsize_add (by omega)
    rw [Fs.byte_of_slot (by rw [hslots, hdiv]; exact hslot), hslots, hdiv, hmod, hblock, Block.put_self hj]

/-- What `writeLoop` has done when it has written `k` bytes at `off`, of a source from `tot` on. -/
structure Copied (s s' : Fs) (ip : ℕ) (src : Source) (n tot off k : ℕ) : Prop where
  writing : Writing s s' ip fun x => off ≤ x ∧ (x < off + k ∨ ∃ j < n, src j = none)
  le : tot + k ≤ max tot n
  slot_ne : ∀ j < k, s'.slots (ip, slotOf ((off + j) / bsize)) ≠ 0
  byte_eq : ∀ j < k, src (tot + j) = some (s'.byte ip (off + j))
  aligned : tot + k < n → k = 0 ∨ (off + k) % bsize = 0
  full : tot + k < n → (s'.slots (ip, slotOf ((off + k) / bsize)) = 0 ∧ s'.Full) ∨ ∃ j < n, src j = none

theorem Copied.none {n : ℕ} (hwriting : Writing s s' ip fun x => off ≤ x ∧ ∃ j < n, src j = none)
    (hfull : tot < n → (s'.slots (ip, slotOf (off / bsize)) = 0 ∧ s'.Full) ∨ ∃ j < n, src j = none) : Copied s s' ip src n tot off 0 :=
  ⟨hwriting.mono fun _ hx => ⟨hx.1, .inr hx.2⟩, by omega, fun j hj => absurd hj (Nat.not_lt_zero j), fun j hj => absurd hj (Nat.not_lt_zero j),
    fun _ => .inl rfl, hfull⟩

theorem Copied.of_round {n k : ℕ} (hwriting : Writing s s1 ip fun x => off ≤ x ∧ x < off + m)
    (hslot : ∀ j < m, s1.slots (ip, slotOf ((off + j) / bsize)) ≠ 0) (hbyte : ∀ j < m, src (tot + j) = some (s1.byte ip (off + j)))
    (hm : tot + m ≤ n) (halign : tot + m < n → (off + m) % bsize = 0) (h : Copied s1 s' ip src n (tot + m) (off + m) k) :
    Copied s s' ip src n tot off (m + k) := by
  refine ⟨(hwriting.trans h.writing).mono ?_, by have := h.le; omega, fun j hj => ?_, fun j hj => ?_, fun hlt => .inr ?_, fun hlt => ?_⟩
  · rintro x (hx | hx)
    · exact ⟨hx.1, .inl (by omega)⟩
    · exact ⟨by omega, hx.2.imp (fun hlt => by omega) id⟩
  · rcases Nat.lt_or_ge j m with hjm | hjm
    · exact h.writing.slots_ne (hslot j hjm)
    · rw [show off + j = off + m + (j - m) by omega]
      exact h.slot_ne (j - m) (by omega)
  · rcases Nat.lt_or_ge j m with hjm | hjm
    · rw [hbyte j hjm, h.writing.byte_eq ip (off + j) fun _ => ⟨hslot j hjm, fun hx => by omega⟩]
    · rw [show off + j = off + m + (j - m) by omega, show tot + j = tot + m + (j - m) by omega]
      exact h.byte_eq (j - m) (by omega)
  · rw [← Nat.add_assoc]
    rcases h.aligned (by omega) with hk | hk
    · rw [hk]
      exact halign (by omega)
    · exact hk
  · rw [← Nat.add_assoc]
    exact h.full (by omega)

theorem post_writeLoop (h : s.Named) (hl : s.Locked ip) {n : ℕ} (hfuel : n ≤ tot + fuel)
    (hend : off + (n - tot) ≤ maxFile * bsize) :
    Post (writeLoop ip src n fuel tot off) s (fun r s' => ∃ k, r = (tot + k, off + k) ∧ Copied s s' ip src n tot off k) E := by
  induction fuel generalizing s tot off with
  | zero => exact Post.pure ⟨0, rfl, Copied.none ((Mapped.refl h ip).writing.mono fun _ => False.elim) fun hlt => by omega⟩
  | succ fuel ih =>
    unfold writeLoop
    split
    · rename_i hlt
      have hbn : off / bsize < maxFile := Nat.div_lt_of_lt_mul (by rw [Nat.mul_comm]; omega)
      refine Post.step (post_bmap h hl hbn) fun addr s1 h1 => ?_
      have haddr := h1.slot_eq
      subst haddr
      split
      · rename_i hzero
        exact Post.pure ⟨0, rfl, Copied.none (h1.mapped.writing.mono fun _ => False.elim) fun _ => .inl ⟨hzero, h1.full hzero⟩⟩
      rename_i hslot
      refine Post.bind (Post.modify ?_)
      have hmod := Nat.mod_lt off bsize_pos
      have hlen := copyin_length_le src tot (min (n - tot) (bsize - off % bsize))
      have hfits : off % bsize + (copyin src tot (min (n - tot) (bsize - off % bsize))).length ≤ bsize := by omega
      obtain ⟨hput, hbytes⟩ := h1.mapped.named.put hslot hfits rfl
      have hwriting := (h1.mapped.writing.trans hput).mono fun x hx => hx.resolve_left id
      split
      · rename_i hshort
        obtain ⟨j, hj, hnone⟩ := copyin_fault hshort
        have hfault : ∃ j < n, src j = none := ⟨tot + j, by omega, hnone⟩
        exact Post.pure ⟨0, rfl, Copied.none (hwriting.mono fun _ hx => ⟨hx.1, hfault⟩) fun _ => .inr hfault⟩
      · rename_i hlong
        have hlen' : (copyin src tot (min (n - tot) (bsize - off % bsize))).length = min (n - tot) (bsize - off % bsize) := by omega
        rw [hlen'] at hwriting
        refine (ih hput.named (hwriting.locked hl) (by omega) (by omega)).mono (fun r s2 hr => ?_) fun _ he => he
        obtain ⟨k, hr, hk⟩ := hr
        refine ⟨min (n - tot) (bsize - off % bsize) + k, by rw [hr, Nat.add_assoc, Nat.add_assoc],
          hk.of_round hwriting (fun j hj => ?_) (fun j hj => ?_) (by omega) fun hmore => ?_⟩
        · rw [div_bsize_add (by omega)]
          exact hput.slots_ne hslot
        · rw [hbytes j (by omega)]
          exact src_eq_of_copyin (List.getElem?_eq_getElem _)
        · unfold bsize at *
          omega
    · exact Post.pure ⟨0, rfl, Copied.none ((Mapped.refl h ip).writing.mono fun _ => False.elim) fun hlt => by omega⟩

structure Written (s s' : Fs) (ip : ℕ) (src : Source) (off n k : ℕ) : Prop where
  named : s'.Named
  owned : s.Owned → s'.Owned
  itable_eq : ∃ addrs, s'.itable = update s.itable ip
    { s.itable ip with copy := { (s.itable ip).copy with addrs, size := max (s.itable ip).copy.size (off + k) } }
  dinodes_eq : s'.dinodes = update s.dinodes ip (s'.itable ip).copy
  kept : ∀ x, s.slots x ≠ 0 → s'.slots x = s.slots x
  others : ∀ x, x.1 ≠ ip → s'.slots x = s.slots x
  byte_eq : ∀ i x, (i = ip → s.slots (i, slotOf (x / bsize)) ≠ 0 ∧ ¬ (off ≤ x ∧ (x < off + k ∨ ∃ j < n, src j = none))) → s'.byte i x = s.byte i x
  le : k ≤ n
  slot_ne : ∀ j < k, s'.slots (ip, slotOf ((off + j) / bsize)) ≠ 0
  byte_new : ∀ j < k, src j = some (s'.byte ip (off + j))
  aligned : k < n → k = 0 ∨ (off + k) % bsize = 0
  full : k < n → (s'.slots (ip, slotOf ((off + k) / bsize)) = 0 ∧ s'.Full) ∨ ∃ j < n, src j = none

variable {n k : ℕ}

theorem Fs.byte_congr (hslots : s'.slots = s.slots) (hblocks : s'.blocks = s.blocks) : s'.byte = s.byte := by
  funext i x
  unfold Fs.byte
  rw [hslots, hblocks]

theorem Copied.written (h : Copied s s' ip src n 0 off k) (hl : s.Locked ip) (hbitmap : s1.bitmap = s'.bitmap)
    (hblocks : s1.blocks = s'.blocks) (hdinodes : s1.dinodes = update s'.dinodes ip (s1.itable ip).copy)
    (hitable : s1.itable = update s'.itable ip
      { s'.itable ip with copy := { (s'.itable ip).copy with size := max (s'.itable ip).copy.size (off + k) } }) :
    Written s s1 ip src off n k := by
  have hl' := h.writing.locked hl
  have hentry : s1.itable ip = { s'.itable ip with copy := { (s'.itable ip).copy with size := max (s'.itable ip).copy.size (off + k) } } := by
    rw [hitable, update_self]
  have hcur (i : ℕ) : (s1.cur i).type = (s'.cur i).type ∧ (s1.cur i).addrs = (s'.cur i).addrs := by
    by_cases hi : i = ip
    · subst hi
      unfold Fs.cur
      rw [hentry, if_pos ⟨hl'.ref_pos, hl'.valid⟩, if_pos ⟨hl'.ref_pos, hl'.valid⟩]
      exact ⟨rfl, rfl⟩
    · rw [Fs.cur_congr]
      · exact ⟨rfl, rfl⟩
      · rw [hitable, update_of_ne hi]
      · rw [hdinodes, update_of_ne hi]
  have hslots : s1.slots = s'.slots := Fs.slots_congr (fun i => (hcur i).1) (fun i => (hcur i).2) fun i _ => by rw [hblocks]
  have hbyte := Fs.byte_congr hslots hblocks
  have hfull (hs' : s'.Full) : s1.Full := fun b hb => by
    rw [hbitmap]
    exact hs' b hb
  obtain ⟨addrs, haddrs⟩ := h.writing.itable_eq
  refine ⟨?_, fun ho => ?_, ⟨addrs, ?_⟩, ?_, fun x hx => ?_, fun x hx => ?_, fun i x hx => ?_,
    by have := h.le; omega, fun j hj => ?_, fun j hj => ?_, fun hlt => h.aligned (by omega),
    fun hlt => ?_⟩
  · rw [Fs.Named, hslots, hbitmap]
    exact h.writing.named
  · rw [Fs.Owned, hslots, hbitmap]
    exact h.writing.owned ho
  · rw [hitable, haddrs, update_self, update_idem]
  · rw [hdinodes, h.writing.dinodes_eq]
  · rw [hslots, h.writing.kept x hx]
  · rw [hslots, h.writing.others x hx]
  · rw [hbyte, h.writing.byte_eq i x hx]
  · rw [hslots]
    exact h.slot_ne j hj
  · rw [hbyte, ← h.byte_eq j hj, Nat.zero_add]
  · rw [hslots]
    exact (h.full (by omega)).imp (And.imp_right hfull) id

theorem post_writei (h : s.Named) (hl : s.Locked ip) {off n : UInt32} :
    Post (writei ip src off n) s (fun r s' =>
      if (s.cur ip).size < off.toNat ∨ 2 ^ 32 ≤ off.toNat + n.toNat ∨ maxFile * bsize < off.toNat + n.toNat then
        r = -1 ∧ s' = s
      else
        ∃ k, r = (k : ℕ) ∧ Written s s' ip src off.toNat n.toNat k) E := by
  refine Post.bind (Post.bind (Post.get (Post.pure ?_)))
  rw [← hl.cur_eq]
  split
  · rename_i hout
    rw [add_lt_self_iff] at hout
    refine Post.pure ?_
    rw [if_pos (hout.imp id .inl)]
    exact ⟨rfl, rfl⟩
  rename_i hin
  rw [add_lt_self_iff, not_or] at hin
  have hadd : (off + n).toNat = off.toNat + n.toNat := by
    rw [UInt32.toNat_add]
    omega
  rw [hadd]
  split
  · rename_i hlarge
    refine Post.pure ?_
    rw [if_pos (.inr (.inr hlarge))]
    exact ⟨rfl, rfl⟩
  · rename_i hfits
    refine Post.step (post_writeLoop h hl (by omega) (by omega)) fun r s1 hr => ?_
    obtain ⟨k, rfl, hk⟩ := hr
    refine Post.bind (Post.modify (Post.bind (Post.modify (Post.pure ?_))))
    rw [if_neg (fun hc => hc.elim hin.1 (Or.rec hin.2 hfits))]
    refine ⟨k, by rw [Nat.zero_add], hk.written hl rfl rfl rfl ?_⟩
    have hmax : (if (s1.itable ip).copy.size < off.toNat + k then off.toNat + k else (s1.itable ip).copy.size) =
        max (s1.itable ip).copy.size (off.toNat + k) := by
      split <;> omega
    rw [← hmax]
    rfl

/-! ### What a write leaves -/

section

variable (h : Written s s' ip src off n k)
include h

theorem Written.entry_eq : ∃ addrs, s'.itable ip =
    { s.itable ip with copy := { (s.itable ip).copy with addrs, size := max (s.itable ip).copy.size (off + k) } } := by
  obtain ⟨addrs, hitable⟩ := h.itable_eq
  exact ⟨addrs, by rw [hitable, update_self]⟩

theorem Written.locked (hl : s.Locked ip) : s'.Locked ip := by
  obtain ⟨addrs, hentry⟩ := h.entry_eq
  constructor <;> rw [hentry]
  exacts [hl.ref_pos, hl.valid, hl.type_ne]

theorem Written.size_eq (hl : s.Locked ip) : (s'.cur ip).size = max (s.cur ip).size (off + k) := by
  obtain ⟨addrs, hentry⟩ := h.entry_eq
  rw [(h.locked hl).cur_eq, hl.cur_eq, hentry]

theorem Written.cur_of_ne (hi : i ≠ ip) : s'.cur i = s.cur i := by
  obtain ⟨addrs, hitable⟩ := h.itable_eq
  refine Fs.cur_congr ?_ ?_
  · rw [hitable, update_of_ne hi]
  · rw [h.dinodes_eq, update_of_ne hi]

theorem Written.content_of_ne (hi : i ≠ ip) : s'.content i = s.content i := by
  unfold Fs.content
  rw [h.cur_of_ne hi]
  exact List.map_congr_left fun x _ => h.byte_eq i x fun heq => absurd heq hi

theorem Written.solid_of_ne (hi : i ≠ ip) (hs : s.Solid i) : s'.Solid i := by
  intro x hx
  rw [h.cur_of_ne hi] at hx
  rw [h.others _ hi]
  exact hs x hx

theorem Written.solid (hl : s.Locked ip) (hs : s.Solid ip) (hoff : off ≤ (s.cur ip).size) : s'.Solid ip := by
  intro x hx
  rw [h.size_eq hl] at hx
  rcases Nat.lt_or_ge x (s.cur ip).size with hlt | hge
  · rw [h.kept _ (hs x hlt)]
    exact hs x hlt
  · rw [show x = off + (x - off) by omega]
    exact h.slot_ne (x - off) (by omega)

end

theorem Written.content_eq {bytes : ℕ → UInt8} (h : Written s s' ip (fun j => some (bytes j)) off n k) (hl : s.Locked ip) (hs : s.Solid ip)
    (hoff : off ≤ (s.cur ip).size) :
    s'.content ip = (s.content ip).take off ++ (List.range k).map bytes ++ (s.content ip).drop (off + k) := by
  have hnofault : ¬ ∃ j < n, (fun j => some (bytes j)) j = none := by
    rintro ⟨j, _, hj⟩
    cases hj
  have htake : ((s.content ip).take off).length = off := by
    rw [List.length_take, Fs.length_content]
    omega
  have hbytes : ((List.range k).map bytes).length = k := by
    rw [List.length_map, List.length_range]
  refine List.ext_getElem ?_ fun x hx hx' => ?_
  · simp only [List.length_append, htake, hbytes, List.length_drop, Fs.length_content, h.size_eq hl]
    omega
  rw [Fs.getElem_content]
  rw [Fs.length_content, h.size_eq hl] at hx
  -- Before, inside and behind the part that was written.
  rcases Nat.lt_or_ge x off with hlt | hge
  · rw [List.getElem_append_left (by rw [List.length_append]; omega), List.getElem_append_left (by omega), List.getElem_take,
      Fs.getElem_content]
    exact h.byte_eq ip x fun _ => ⟨hs x (by omega), fun hc => by omega⟩
  rcases Nat.lt_or_ge x (off + k) with hlt | hge'
  · rw [List.getElem_append_left (by rw [List.length_append]; omega), List.getElem_append_right (by omega)]
    simp only [List.getElem_map, List.getElem_range, htake]
    have hnew := h.byte_new (x - off) (by omega)
    rw [Nat.add_sub_cancel' hge] at hnew
    exact (Option.some.inj hnew).symm
  · rw [List.getElem_append_right (by rw [List.length_append]; omega)]
    simp only [List.getElem_drop, Fs.getElem_content, List.length_append, htake, hbytes, Nat.add_sub_cancel' hge']
    exact h.byte_eq ip x fun _ => ⟨hs x (by omega), fun hc => hc.2.elim (fun hlt => by omega) hnofault⟩

/-- A write replaces bytes of the file, up to where the disk is full, and leaves the other files alone. -/
theorem writei_refines (h : s.Named) (hl : s.Locked ip) (hs : s.Solid ip) (bytes : ℕ → UInt8) (off n : UInt32) :
    Post (writei ip (fun j => some (bytes j)) off n) s (fun r s' =>
      if (s.cur ip).size < off.toNat ∨ 2 ^ 32 ≤ off.toNat + n.toNat ∨ maxFile * bsize < off.toNat + n.toNat then
        r = -1 ∧ s' = s
      else
        ∃ k ≤ n.toNat, r = (k : ℕ) ∧ (k < n.toNat → s'.Full) ∧ (s'.cur ip).size = max (s.cur ip).size (off.toNat + k) ∧
          (∀ off' n' : UInt32, Post (readi ip (fun _ _ => true) off' n') s' (fun read s'' => s'' = s' ∧
            read = some (if 2 ^ 32 ≤ off'.toNat + n'.toNat then [] else
              (((s.content ip).take off.toNat ++ (List.range k).map bytes ++ (s.content ip).drop (off.toNat + k)).drop off'.toNat).take n'.toNat))
            fun _ => False) ∧
          (∀ i ≠ ip, s'.content i = s.content i) ∧ s'.Solid ip ∧ s'.Named ∧ (s.Owned → s'.Owned)) fun _ => False := by
  refine (post_writei h hl).mono (fun r s' hr => ?_) fun _ he => he
  split
  · rename_i hout
    rw [if_pos hout] at hr
    exact hr
  · rename_i hin
    rw [if_neg hin] at hr
    obtain ⟨k, rfl, hk⟩ := hr
    have hoff : off.toNat ≤ (s.cur ip).size := Nat.le_of_not_lt fun hlt => hin (.inl hlt)
    have hsolid := hk.solid hl hs hoff
    refine ⟨k, hk.le, rfl, fun hlt => ?_, hk.size_eq hl, fun off' n' => ?_, fun i hi => hk.content_of_ne hi, hsolid, hk.named, hk.owned⟩
    · refine ((hk.full hlt).resolve_right ?_).2
      rintro ⟨j, _, hj⟩
      cases hj
    · refine (post_readi hk.named (hk.locked hl) hsolid).mono (fun read s'' hread => ⟨hread.1, ?_⟩) fun _ he => he
      rw [hread.2 fun _ _ => rfl, hk.content_eq hl hs hoff]

def twoFiles (bitmap : ℕ → Bool) : Fs where
  bitmap
  blocks b _ := if b = 50 then 7 else 0
  dinodes i := if i = 1 then { Dinode.fresh .file with size := 1, addrs := fun k => if k = 0 then 50 else 0 }
    else Dinode.fresh (if i = 2 then .file else .free)
  itable i := { ref := if i = 2 then 1 else 0, valid := true, copy := Dinode.fresh .file }

theorem twoFiles_locked (bitmap : ℕ → Bool) : (twoFiles bitmap).Locked 2 := ⟨Nat.one_pos, rfl, nofun⟩

theorem twoFiles_solid (bitmap : ℕ → Bool) : (twoFiles bitmap).Solid 2 := fun x hx => absurd hx (Nat.not_lt_zero x)

theorem twoFiles_slots (bitmap : ℕ → Bool) (x : ℕ × ℕ) : (twoFiles bitmap).slots x = if x = (1, 0) then 50 else 0 := by
  obtain ⟨i, k⟩ := x
  have hcur : (twoFiles bitmap).cur i = if i = 1 then { Dinode.fresh .file with size := 1, addrs := fun k => if k = 0 then 50 else 0 }
      else Dinode.fresh (if i = 2 then .file else .free) := by
    unfold Fs.cur twoFiles
    by_cases hi : i = 2
    · subst hi
      rfl
    · simp [hi]
  unfold Fs.slots
  rw [hcur]
  by_cases hi : i = 1
  · rw [if_pos hi]
    rcases Nat.lt_or_ge ndirect k with hk | hk
    · rw [Dinode.slot_of_indirect_zero rfl hk, if_neg fun heq => ?_]
      rw [(Prod.mk.inj heq).2] at hk
      exact absurd hk (by decide)
    · rw [Dinode.slot_direct FileType.noConfusion hk, hi]
      simp only [Prod.mk.injEq, true_and]
  · rw [if_neg hi, if_neg fun heq => hi (Prod.mk.inj heq).1]
    exact Dinode.slot_of_addrs_zero fun _ _ => rfl

theorem twoFiles_named : (twoFiles fun b => b < nmeta ∨ b = 50 ∨ b = 60).Named :=
  Names.single (by decide) (by decide) (by decide) (twoFiles_slots _) fun _ hc =>
    decide_eq_true (hc.imp_right .inl)

/-- Block 60 is marked although no inode names it. -/
theorem writei_refines_twoFiles : ∃ s : Fs, s.Named ∧ ¬ s.Owned ∧ s.Locked 2 ∧ s.Solid 2 ∧
    Post (writei 2 (fun _ => some 3) 0 1) s (fun r s' => r ≤ 1 ∧ s'.content 1 = s.content 1)
      fun _ => False := by
  refine ⟨_, twoFiles_named, fun ho => ?_, twoFiles_locked _, twoFiles_solid _, ?_⟩
  · obtain ⟨x, hx⟩ := ho.named 60 (by decide) (by decide) rfl
    rw [twoFiles_slots] at hx
    split at hx <;> cases hx
  · refine (writei_refines twoFiles_named (twoFiles_locked _) (twoFiles_solid _) (fun _ => 3)
      0 1).mono (fun r s' hr => ?_) fun _ he => he
    rw [if_neg (by decide)] at hr
    obtain ⟨k, hk, rfl, _, _, _, hothers, _⟩ := hr
    exact ⟨Int.ofNat_le.mpr hk, hothers 1 (by decide)⟩

/-- With a free map that does not mark the block of the first file, the second one takes it. -/
theorem exists_content_lost : ∃ s : Fs, s.Locked 2 ∧ s.Solid 2 ∧
    ¬ Post (writei 2 (fun _ => some 3) 0 1) s (fun _ s' => ∀ i ≠ 2, s'.content i = s.content i) fun _ => False := by
  refine ⟨twoFiles fun b => b ≠ 50, twoFiles_locked _, twoFiles_solid _, fun hpost => ?_⟩
  have hrun : ((writei 2 (fun _ => some 3) 0 1 (twoFiles fun b => b ≠ 50)).toOption.map fun r => r.2.content 1) = some [3] := by
    decide +kernel
  cases hresult : writei 2 (fun _ => some 3) 0 1 (twoFiles fun b => b ≠ 50) with
  | error e => exact hpost.of_error hresult
  | ok r =>
    rw [hresult] at hrun
    have hsame : r.2.content 1 = _ := hpost.of_ok hresult 1 (by decide)
    rw [show r.2.content 1 = [3] from Option.some.inj hrun] at hsame
    exact absurd hsame (by decide)

end AdvancedXv6.FileSystem
