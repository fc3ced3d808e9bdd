import AdvancedXv6.FileSystem.Model
import AdvancedXv6.Lib.Ownership

/-!
# Who owns a block

An inode names blocks in slots: the direct addresses, the indirect address, and the entries of the
indirect block. The blocks of a file system are named when the free map marks the metadata and the
blocks that slots name, and no block is named twice; they are owned when it marks nothing else.
`bmap` fills slots of one inode and keeps both.
-/

namespace AdvancedXv6.FileSystem

open Function Prog

/-! ### Slots -/

def nslots : ℕ := ndirect + 1 + nindirect

/-- The block that slot `k` of an inode names, 0 for none. Slot `ndirect` is the indirect address; the entries of the indirect block come after it. -/
def Dinode.slot (blocks : ℕ → Block) (d : Dinode) (k : ℕ) : ℕ :=
  if d.type = .free ∨ nslots ≤ k then
    0
  else if k ≤ ndirect then
    d.addrs k
  else if d.addrs ndirect = 0 then
    0
  else
    (blocks (d.addrs ndirect)).word (k - (ndirect + 1))

/-- The fields of an inode: those of its entry in the inode table if that is in use, otherwise those on the disk. -/
def Fs.cur (s : Fs) (i : ℕ) : Dinode :=
  if 0 < (s.itable i).ref ∧ (s.itable i).valid then (s.itable i).copy else s.dinodes i

def Fs.slots (s : Fs) (x : ℕ × ℕ) : ℕ := (s.cur x.1).slot s.blocks x.2

def Fs.Named (s : Fs) : Prop := Names nmeta fsSize s.slots s.bitmap

def Fs.Owned (s : Fs) : Prop := Owns nmeta fsSize s.slots s.bitmap

def Fs.Full (s : Fs) : Prop := ∀ b < fsSize, s.bitmap b = true

structure Fs.Locked (s : Fs) (ip : ℕ) : Prop where
  ref_pos : 0 < (s.itable ip).ref
  valid : (s.itable ip).valid = true
  type_ne : (s.itable ip).copy.type ≠ .free

variable {s s' : Fs} {ip k j b : ℕ} {E : Panic → Prop}

theorem Fs.Locked.cur_eq (h : s.Locked ip) : s.cur ip = (s.itable ip).copy := if_pos ⟨h.ref_pos, h.valid⟩

variable {d : Dinode} {entry : Inode} {i w bn : ℕ} {block : Block} {blocks : ℕ → Block} {s1 s2 s3 : Fs} {x : ℕ × ℕ}

@[simp] theorem Dinode.addrs_setAddr_self : (d.setAddr k b).addrs k = b := by
  simp only [setAddr, update_self]

theorem Dinode.addrs_setAddr_of_ne {l : ℕ} (hl : l ≠ k) : (d.setAddr k b).addrs l = d.addrs l := by
  simp only [setAddr, update_of_ne hl]

@[simp] theorem Fs.itable_setEntry_self : (s.setEntry ip entry).itable ip = entry := update_self ..

theorem Fs.itable_setEntry_of_ne (hi : i ≠ ip) : (s.setEntry ip entry).itable i = s.itable i :=
  update_of_ne hi ..

@[simp] theorem Fs.itable_setCopy_self : (s.setCopy ip d).itable ip = { s.itable ip with copy := d } :=
  itable_setEntry_self

@[simp] theorem Fs.blocks_setBlock_self : (s.setBlock b block).blocks b = block := update_self ..

theorem Fs.blocks_setBlock_of_ne {c : ℕ} (hc : c ≠ b) : (s.setBlock b block).blocks c = s.blocks c :=
  update_of_ne hc ..

theorem Fs.cur_congr (hentry : s'.itable i = s.itable i) (hdinode : s'.dinodes i = s.dinodes i) : s'.cur i = s.cur i := by
  unfold cur
  rw [hentry, hdinode]

theorem Fs.cur_setEntry_of_ne (hi : i ≠ ip) : (s.setEntry ip entry).cur i = s.cur i :=
  cur_congr (itable_setEntry_of_ne hi) rfl

theorem Fs.Locked.cur_setCopy (h : s.Locked ip) (d : Dinode) : (s.setCopy ip d).cur = update s.cur ip d := by
  funext i
  by_cases hi : i = ip
  · subst hi
    rw [update_self]
    unfold Fs.cur
    rw [Fs.itable_setCopy_self]
    exact if_pos ⟨h.ref_pos, h.valid⟩
  · rw [update_of_ne hi]
    exact Fs.cur_setEntry_of_ne hi

theorem Dinode.slot_eq_zero_of_le (hk : nslots ≤ k) : d.slot blocks k = 0 := if_pos (.inr hk)

theorem Dinode.slot_of_free (hd : d.type = .free) : d.slot blocks k = 0 := if_pos (.inl hd)

theorem Dinode.slot_direct (hd : d.type ≠ .free) (hk : k ≤ ndirect) : d.slot blocks k = d.addrs k := by
  unfold slot
  rw [if_neg, if_pos hk]
  rintro (hfree | hlarge)
  · exact hd hfree
  · unfold nslots at hlarge
    omega

theorem Dinode.slot_indirect (hd : d.type ≠ .free) (hj : j < nindirect) :
    d.slot blocks (ndirect + 1 + j) = if d.addrs ndirect = 0 then 0 else (blocks (d.addrs ndirect)).word j := by
  unfold slot
  rw [if_neg, if_neg (by omega), Nat.add_sub_cancel_left]
  rintro (hfree | hlarge)
  · exact hd hfree
  · unfold nslots at hlarge
    omega

theorem Dinode.slot_of_indirect_zero (hzero : d.addrs ndirect = 0) (hk : ndirect < k) : d.slot blocks k = 0 := by
  unfold slot
  rw [if_neg (Nat.not_le.mpr hk), if_pos hzero, ite_self]

theorem Dinode.slot_of_addrs_zero (hzero : ∀ k ≤ ndirect, d.addrs k = 0) : d.slot blocks k = 0 := by
  rcases Nat.lt_or_ge ndirect k with hk | hk
  · exact slot_of_indirect_zero (hzero ndirect (Nat.le_refl _)) hk
  · unfold slot
    rw [if_pos hk, hzero k hk, ite_self]

theorem slot_cases (k : ℕ) : k ≤ ndirect ∨ (∃ j < nindirect, k = ndirect + 1 + j) ∨ nslots ≤ k := by
  rcases Nat.lt_or_ge ndirect k with hlt | hge
  · rcases Nat.lt_or_ge k nslots with hk | hk
    · exact .inr (.inl ⟨k - (ndirect + 1), by unfold nslots at hk; omega, by omega⟩)
    · exact .inr (.inr hk)
  · exact .inl hge

theorem Fs.Locked.slots_addr (h : s.Locked ip) (hk : k ≤ ndirect) : s.slots (ip, k) = (s.itable ip).copy.addrs k := by
  unfold Fs.slots
  rw [h.cur_eq, Dinode.slot_direct h.type_ne hk]

theorem Fs.Locked.slots_entry (h : s.Locked ip) (hj : j < nindirect) (hne : s.slots (ip, ndirect) ≠ 0) :
    s.slots (ip, ndirect + 1 + j) = (s.blocks (s.slots (ip, ndirect))).word j := by
  rw [h.slots_addr (Nat.le_refl _)] at hne ⊢
  unfold Fs.slots
  rw [h.cur_eq, Dinode.slot_indirect h.type_ne hj, if_neg hne]

/-- The slots depend on the types and addresses of the inodes and on the indirect blocks. -/
theorem Fs.slots_congr (htype : ∀ i, (s'.cur i).type = (s.cur i).type) (haddrs : ∀ i, (s'.cur i).addrs = (s.cur i).addrs)
    (hblocks : ∀ i, s.slots (i, ndirect) ≠ 0 → s'.blocks (s.slots (i, ndirect)) = s.blocks (s.slots (i, ndirect))) : s'.slots = s.slots := by
  funext ⟨i, k⟩
  unfold Fs.slots
  by_cases hfree : (s.cur i).type = .free
  · rw [Dinode.slot_of_free hfree, Dinode.slot_of_free ((htype i).trans hfree)]
  have hfree' : (s'.cur i).type ≠ .free := by
    rw [htype i]
    exact hfree
  have hind : s.slots (i, ndirect) = (s.cur i).addrs ndirect := Dinode.slot_direct hfree (Nat.le_refl _)
  rcases slot_cases k with hk | ⟨j, hj, rfl⟩ | hk
  · rw [Dinode.slot_direct hfree hk, Dinode.slot_direct hfree' hk, haddrs i]
  · rw [Dinode.slot_indirect hfree hj, Dinode.slot_indirect hfree' hj, haddrs i]
    split
    · rfl
    · rw [← hind, hblocks i (by rw [hind]; assumption)]
  · rw [Dinode.slot_eq_zero_of_le hk, Dinode.slot_eq_zero_of_le hk]

theorem Fs.slots_setBlock (hb : ∀ i, s.slots (i, ndirect) ≠ b) : (s.setBlock b block).slots = s.slots :=
  slots_congr (fun _ => rfl) (fun _ => rfl) fun i _ => blocks_setBlock_of_ne (hb i)

/-! ### Words -/

theorem Block.word_zero (j : ℕ) : Block.word (fun _ => 0) j = 0 := rfl

theorem Block.word_setWord_of_ne {j' : ℕ} (hj : j' ≠ j) : (block.setWord j w).word j' = block.word j' := by
  have hbyte (t : ℕ) (ht : t < 4) : block.setWord j w (4 * j' + t) = block (4 * j' + t) := if_neg (by omega)
  unfold Block.word
  rw [hbyte 1 (by omega), hbyte 2 (by omega), hbyte 3 (by omega)]
  have hfirst := hbyte 0 (by omega)
  rw [Nat.add_zero] at hfirst
  rw [hfirst]

theorem Block.word_setWord_self (hw : w < 2 ^ 32) : (block.setWord j w).word j = w := by
  have hbyte (t : ℕ) (ht : t < 4) : (block.setWord j w (4 * j + t)).toNat = w / 2 ^ (8 * t) % 256 := by
    unfold Block.setWord
    rw [if_pos (by omega), show (4 * j + t) % 4 = t by omega]
    exact UInt8.toNat_ofNat'
  unfold Block.word
  rw [hbyte 1 (by omega), hbyte 2 (by omega), hbyte 3 (by omega)]
  have hfirst := hbyte 0 (by omega)
  rw [Nat.add_zero] at hfirst
  rw [hfirst]
  simp only [Nat.reduceMul, Nat.reducePow] at hw ⊢
  omega

/-! ### How slots change -/

/-- An address is set. For the indirect address, there was none and the block is empty. -/
theorem Fs.Locked.slots_setAddr (h : s.Locked ip) (hk : k ≤ ndirect)
    (hind : k = ndirect → (s.itable ip).copy.addrs ndirect = 0 ∧ ∀ j, (s.blocks b).word j = 0) :
    (s.setCopy ip ((s.itable ip).copy.setAddr k b)).slots = update s.slots (ip, k) b := by
  funext ⟨i, l⟩
  have hcopy : ((s.itable ip).copy.setAddr k b).type ≠ .free := h.type_ne
  by_cases hi : i = ip
  · subst hi
    unfold Fs.slots
    rw [h.cur_setCopy, update_self]
    rcases slot_cases l with hl | ⟨j, hj, rfl⟩ | hl
    · rw [Dinode.slot_direct hcopy hl]
      by_cases hlk : l = k
      · subst hlk
        rw [update_self, Dinode.addrs_setAddr_self]
      · rw [update_of_ne (fun heq => hlk (Prod.mk.inj heq).2), h.cur_eq, Dinode.slot_direct h.type_ne hl,
          Dinode.addrs_setAddr_of_ne hlk]
    · have hne : (i, ndirect + 1 + j) ≠ (i, k) := by
        intro heq
        have hlk := (Prod.mk.inj heq).2
        omega
      rw [update_of_ne hne, h.cur_eq, Dinode.slot_indirect hcopy hj, Dinode.slot_indirect h.type_ne hj]
      by_cases hkn : k = ndirect
      · obtain ⟨hzero, hword⟩ := hind hkn
        have haddr : ((s.itable i).copy.setAddr k b).addrs ndirect = b := by
          rw [hkn, Dinode.addrs_setAddr_self]
        rw [if_pos hzero, haddr]
        split
        · rfl
        · exact hword j
      · have haddr : ((s.itable i).copy.setAddr k b).addrs ndirect = (s.itable i).copy.addrs ndirect :=
          Dinode.addrs_setAddr_of_ne (Ne.symm hkn)
        rw [haddr]
        rfl
    · rw [Dinode.slot_eq_zero_of_le hl, update_of_ne, Dinode.slot_eq_zero_of_le hl]
      intro heq
      have hlk := (Prod.mk.inj heq).2
      unfold nslots at hl
      omega
  · rw [update_of_ne (fun heq => hi (Prod.mk.inj heq).1)]
    unfold Fs.slots
    rw [h.cur_setCopy, update_of_ne hi]
    rfl

theorem Fs.Locked.slots_setWord (hl : s.Locked ip) (hinj : ∀ x y, s.slots x ≠ 0 → s.slots x = s.slots y → x = y) (hj : j < nindirect)
    (hne : s.slots (ip, ndirect) ≠ 0) (hw : w < 2 ^ 32) :
    (s.setBlock (s.slots (ip, ndirect)) ((s.blocks (s.slots (ip, ndirect))).setWord j w)).slots =
      update s.slots (ip, ndirect + 1 + j) w := by
  funext ⟨i, l⟩
  by_cases hfree : (s.cur i).type = .free
  · rw [update_of_ne]
    · unfold Fs.slots
      exact (Dinode.slot_of_free hfree).trans (Dinode.slot_of_free hfree).symm
    · intro heq
      rw [(Prod.mk.inj heq).1, hl.cur_eq] at hfree
      exact hl.type_ne hfree
  have hind : s.slots (i, ndirect) = (s.cur i).addrs ndirect := Dinode.slot_direct hfree (Nat.le_refl _)
  by_cases hx : (i, l) = (ip, ndirect + 1 + j)
  · obtain ⟨rfl, rfl⟩ := Prod.mk.inj hx
    rw [update_self]
    refine (Dinode.slot_indirect hfree hj).trans ?_
    rw [if_neg (by rw [← hind]; exact hne), ← hind]
    rw [Fs.blocks_setBlock_self, Block.word_setWord_self hw]
  · rw [update_of_ne hx]
    rcases slot_cases l with hlk | ⟨j', hj', rfl⟩ | hlk
    · exact (Dinode.slot_direct hfree hlk).trans (Dinode.slot_direct hfree hlk).symm
    · refine (Dinode.slot_indirect hfree hj').trans (Eq.trans ?_ (Dinode.slot_indirect hfree hj').symm)
      rw [← hind]
      split
      · rfl
      · by_cases hi : i = ip
        · subst hi
          rw [Fs.blocks_setBlock_self, Block.word_setWord_of_ne]
          rintro rfl
          exact hx rfl
        · rw [Fs.blocks_setBlock_of_ne]
          intro heq
          exact hi (Prod.mk.inj (hinj _ _ ‹_› heq)).1
    · exact (Dinode.slot_eq_zero_of_le hlk).trans (Dinode.slot_eq_zero_of_le hlk).symm

theorem Fs.Named.slots_take (h : s.Named) (hb : s.bitmap b = false) : (s.take b).slots = s.slots :=
  slots_congr (fun _ => rfl) (fun _ => rfl) fun i _ => update_of_ne (h.ne_of_free hb (i, ndirect)) ..

/-! ### What `bmap` does -/

structure Grown (s s' : Fs) (ip : ℕ) : Prop where
  named : s'.Named
  owned : s.Owned → s'.Owned
  dinodes_eq : s'.dinodes = s.dinodes
  itable_eq : ∃ addrs, s'.itable = update s.itable ip { s.itable ip with copy := { (s.itable ip).copy with addrs } }
  kept : ∀ x, s.slots x ≠ 0 → s'.slots x = s.slots x
  others : ∀ x, x.1 ≠ ip → s'.slots x = s.slots x
  bitmap_mono : ∀ b, s.bitmap b = true → s'.bitmap b = true

theorem Grown.refl (h : s.Named) (ip : ℕ) : Grown s s ip :=
  ⟨h, id, rfl, ⟨(s.itable ip).copy.addrs, (update_eq_self ip s.itable).symm⟩, fun _ _ => rfl,
    fun _ _ => rfl, fun _ hb => hb⟩

theorem Grown.trans (h : Grown s1 s2 ip) (h' : Grown s2 s3 ip) : Grown s1 s3 ip := by
  obtain ⟨addrs, hitable⟩ := h.itable_eq
  obtain ⟨addrs', hitable'⟩ := h'.itable_eq
  refine ⟨h'.named, fun ho => h'.owned (h.owned ho), h'.dinodes_eq.trans h.dinodes_eq, ⟨addrs', ?_⟩,
    fun x hx => ?_, fun x hx => ?_, fun b hb => ?_⟩
  · rw [hitable', hitable, update_self, update_idem]
  · rw [h'.kept x (by rw [h.kept x hx]; exact hx), h.kept x hx]
  · rw [h'.others x hx, h.others x hx]
  · exact h'.bitmap_mono b (h.bitmap_mono b hb)

theorem Grown.entry_eq (h : Grown s s' ip) :
    ∃ addrs, s'.itable ip = { s.itable ip with copy := { (s.itable ip).copy with addrs } } := by
  obtain ⟨addrs, hitable⟩ := h.itable_eq
  exact ⟨addrs, by rw [hitable, update_self]⟩

theorem Grown.locked (h : Grown s s' ip) (hl : s.Locked ip) : s'.Locked ip := by
  obtain ⟨addrs, hentry⟩ := h.entry_eq
  constructor <;> rw [hentry]
  exacts [hl.ref_pos, hl.valid, hl.type_ne]

theorem Grown.slots_ne (h : Grown s s' ip) (hx : s.slots x ≠ 0) : s'.slots x ≠ 0 := by
  rw [h.kept x hx]
  exact hx

structure Mapped (s s' : Fs) (ip : ℕ) : Prop extends Grown s s' ip where
  blocks_eq : ∀ x, x.2 ≠ ndirect → s.slots x ≠ 0 → s'.blocks (s.slots x) = s.blocks (s.slots x)

theorem Mapped.refl (h : s.Named) (ip : ℕ) : Mapped s s ip := ⟨Grown.refl h ip, fun _ _ _ => rfl⟩

theorem Mapped.trans (h : Mapped s1 s2 ip) (h' : Mapped s2 s3 ip) : Mapped s1 s3 ip := by
  refine ⟨h.toGrown.trans h'.toGrown, fun x hk hx => ?_⟩
  have hnext := h'.blocks_eq x hk (h.slots_ne hx)
  rw [h.kept x hx] at hnext
  rw [hnext, h.blocks_eq x hk hx]

theorem Fs.Named.mapped (h : s.Named) (hb : s.bitmap b = false) (hlt : b < fsSize) (hx : s.slots x = 0) (hip : x.1 = ip)
    (hbitmap : s'.bitmap = update s.bitmap b true) (hslots : s'.slots = update s.slots x b)
    (hdinodes : s'.dinodes = s.dinodes)
    (hitable : ∃ addrs, s'.itable = update s.itable ip { s.itable ip with copy := { (s.itable ip).copy with addrs } })
    (hblocks : ∀ y, y.2 ≠ ndirect → s.slots y ≠ 0 → s'.blocks (s.slots y) = s.blocks (s.slots y)) : Mapped s s' ip := by
  refine ⟨⟨?_, fun ho => ?_, hdinodes, hitable, fun y hy => ?_, fun y hy => ?_, fun c hc => ?_⟩,
    hblocks⟩
  · rw [Fs.Named, hslots, hbitmap]
    exact Names.alloc h x hb hlt
  · rw [Fs.Owned, hslots, hbitmap]
    exact Owns.alloc ho hx hb hlt
  · rw [hslots, update_of_ne]
    rintro rfl
    exact hy hx
  · rw [hslots, update_of_ne]
    rintro rfl
    exact hy hip
  · rw [hbitmap]
    by_cases hcb : c = b
    · subst hcb
      exact update_self ..
    · rw [update_of_ne hcb]
      exact hc

theorem post_balloc (h : s.Named) {Q : ℕ → Fs → Prop} (hfull : s.Full → Q 0 s)
    (htake : ∀ b, b ≠ 0 → s.bitmap b = false → b < fsSize → Q b (s.take b)) : Post balloc s Q E := by
  refine Post.bind (Post.get ?_)
  split
  · rename_i b hfirst
    have hmem := List.mem_of_find?_eq_some hfirst
    have hfree := List.find?_some hfirst
    rw [List.mem_range] at hmem
    rw [Bool.not_eq_true'] at hfree
    refine Post.bind (Post.set (Post.pure (htake b ?_ hfree hmem)))
    rintro rfl
    rw [h.low 0 h.pos] at hfree
    cases hfree
  · rename_i hnone
    refine Post.pure (hfull fun b hb => ?_)
    have hused := List.find?_eq_none.mp hnone b (List.mem_range.mpr hb)
    rw [Bool.not_eq_true', Bool.not_eq_false] at hused
    exact hused

structure Filled (s s' : Fs) (ip k addr : ℕ) : Prop where
  mapped : Mapped s s' ip
  slot_eq : s'.slots (ip, k) = addr
  full : addr = 0 → s'.Full
  same : s.slots (ip, k) ≠ 0 → s' = s

theorem Filled.of_slot (h : s.Named) (hfull : s.slots (ip, k) = 0 → s.Full) : Filled s s ip k (s.slots (ip, k)) :=
  ⟨Mapped.refl h ip, rfl, hfull, fun _ => rfl⟩

theorem post_bmapAddr (h : s.Named) (hl : s.Locked ip) (hk : k ≤ ndirect) :
    Post (bmapAddr ip k) s (fun addr s' => Filled s s' ip k addr) E := by
  have hslot := hl.slots_addr hk
  refine Post.bind (Post.bind (Post.get (Post.pure ?_)))
  rw [← hslot]
  split
  · rename_i hzero
    refine Post.bind (post_balloc h (fun hfull => ?_) fun b hb hfree hlt => ?_)
    · refine Post.pure ?_
      have hfilled : Filled s s ip k (s.slots (ip, k)) := Filled.of_slot h fun _ => hfull
      rw [hzero] at hfilled
      exact hfilled
    · rw [if_neg hb]
      refine Post.bind (Post.modify (Post.pure ?_))
      have hlocked : (s.take b).Locked ip := ⟨hl.ref_pos, hl.valid, hl.type_ne⟩
      have hempty : (s.take b).blocks b = fun _ => 0 := update_self ..
      have hslots := hlocked.slots_setAddr (b := b) hk fun hkn =>
        ⟨by rw [← hkn]; exact hslot.symm.trans hzero, fun j => by rw [hempty, Block.word_zero]⟩
      rw [h.slots_take hfree] at hslots
      refine ⟨h.mapped hfree hlt hzero rfl rfl hslots rfl ⟨_, rfl⟩ fun y _ _ => ?_, ?_, fun h0 => absurd h0 hb, fun hne => absurd hzero hne⟩
      · exact update_of_ne (h.ne_of_free hfree y) ..
      · rw [hslots, update_self]
  · exact Post.pure (Filled.of_slot h fun h0 => absurd h0 ‹_›)

theorem post_bmapEntry (h : s.Named) (hl : s.Locked ip) (hj : j < nindirect) (hne : s.slots (ip, ndirect) ≠ 0) :
    Post (bmapEntry (s.slots (ip, ndirect)) j) s (fun addr s' => Filled s s' ip (ndirect + 1 + j) addr) E := by
  have hslot := hl.slots_entry hj hne
  refine Post.bind (Post.bind (Post.get (Post.pure ?_)))
  rw [← hslot]
  split
  · rename_i hzero
    refine Post.bind (post_balloc h (fun hfull => ?_) fun b hb hfree hlt => ?_)
    · refine Post.pure ?_
      have hfilled : Filled s s ip (ndirect + 1 + j) (s.slots (ip, ndirect + 1 + j)) := Filled.of_slot h fun _ => hfull
      rw [hzero] at hfilled
      exact hfilled
    · rw [if_neg hb]
      refine Post.bind (Post.modify (Post.pure ?_))
      have hlocked : (s.take b).Locked ip := ⟨hl.ref_pos, hl.valid, hl.type_ne⟩
      have htake := h.slots_take hfree
      have hslots := hlocked.slots_setWord (by rw [htake]; exact h.inj) hj (by rw [htake]; exact hne) (w := b) (by unfold fsSize at hlt; omega)
      rw [htake] at hslots
      refine ⟨h.mapped hfree hlt hzero rfl rfl hslots rfl ⟨_, (update_eq_self ip s.itable).symm⟩ fun y hy hyne => ?_, ?_,
        fun h0 => absurd h0 hb, fun hne => absurd hzero hne⟩
      · rw [Fs.blocks_setBlock_of_ne]
        · exact update_of_ne (h.ne_of_free hfree y) ..
        · intro heq
          exact hy (by rw [h.inj _ _ hyne heq])
      · rw [hslots, update_self]
  · exact Post.pure (Filled.of_slot h fun h0 => absurd h0 ‹_›)

def slotOf (bn : ℕ) : ℕ := if bn < ndirect then bn else bn + 1

theorem slotOf_ne_ndirect (bn : ℕ) : slotOf bn ≠ ndirect := by
  unfold slotOf
  split <;> omega

theorem slotOf_inj {bn' : ℕ} (h : slotOf bn = slotOf bn') : bn = bn' := by
  unfold slotOf at h
  split at h <;> split at h <;> omega

theorem Fs.slots_entry_of_zero (hbn : ndirect ≤ bn) (hzero : s.slots (ip, ndirect) = 0) : s.slots (ip, bn + 1) = 0 := by
  unfold Fs.slots at hzero ⊢
  by_cases hfree : (s.cur ip).type = .free
  · exact Dinode.slot_of_free hfree
  · rw [Dinode.slot_direct hfree (Nat.le_refl _)] at hzero
    exact Dinode.slot_of_indirect_zero hzero (Nat.lt_succ_of_le hbn)

theorem post_bmap (h : s.Named) (hl : s.Locked ip) (hbn : bn < maxFile) :
    Post (bmap ip bn) s (fun addr s' => Filled s s' ip (slotOf bn) addr) E := by
  unfold bmap slotOf
  split
  · exact post_bmapAddr h hl (by omega)
  · have hj : bn - ndirect < nindirect := by
      unfold maxFile at hbn
      omega
    rw [if_pos hj]
    refine Post.step (post_bmapAddr h hl (Nat.le_refl _)) fun addr s1 h1 => ?_
    have hslot : bn + 1 = ndirect + 1 + (bn - ndirect) := by omega
    have hsame (hne : s.slots (ip, bn + 1) ≠ 0) : s1 = s :=
      h1.same fun h0 => hne (Fs.slots_entry_of_zero (by omega) h0)
    split
    · rename_i hzero
      have hnone : s1.slots (ip, bn + 1) = 0 := Fs.slots_entry_of_zero (by omega) (h1.slot_eq.trans hzero)
      exact Post.pure ⟨h1.mapped, hnone, fun _ => h1.full hzero, hsame⟩
    · rename_i hne
      have haddr := h1.slot_eq
      subst haddr
      refine (post_bmapEntry h1.mapped.named (h1.mapped.locked hl) hj hne).mono (fun addr s2 h2 => ?_) fun _ he => he
      rw [← hslot] at h2
      refine ⟨h1.mapped.trans h2.mapped, h2.slot_eq, h2.full, fun hold => ?_⟩
      have hs1 := hsame hold
      subst hs1
      exact h2.same hold

end AdvancedXv6.FileSystem
