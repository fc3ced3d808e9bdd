import AdvancedXv6.InodeTable.Pointers

/-!
# The functions of `fs.c`, one at a time

Each function gets a specification for a process that runs it while others do as they like. Where it changes a locked inode, the specification says how the copy that the process knows has changed and whether it is in step with the disk again.
-/

namespace AdvancedXv6.InodeTable

open Function Threads
open FileSystem (bsize ndirect nindirect maxFile fsSize ninodes Block FileType Source copyin)

variable {t n r : ℕ}

/-- The panics of `ilock` and `iunlock` about an inode without references or without its lock are not
allowed, nor that of an `iput` that would have to wait. Who looks for an entry has no reference. -/
def Ok (l : Local n r) (e : Panic) : Prop :=
  e ≠ .ilock ∧ e ≠ .iunlock ∧ e ≠ .schedLocks ∧ (e = .igetNoInodes → l.held = none)

def Stays (s s' : Kernel t n r) : Prop := ∀ e, 0 < (s.itable e).ref → (s'.itable e).dev = (s.itable e).dev ∧ (s'.itable e).inum = (s.itable e).inum

theorem Stays.of_itable {s s' : Kernel t n r} (h : s'.itable = s.itable) : Stays s s' := by
  intro e _
  rw [h]
  exact ⟨rfl, rfl⟩

theorem Stays.setEntry {s : Kernel t n r} {e : Fin n} {entry : Inode t}
    (h : 0 < (s.itable e).ref → entry.dev = (s.itable e).dev ∧ entry.inum = (s.itable e).inum) :
    Stays s (s.setEntry e entry) := by
  intro e' hpos
  by_cases he : e' = e
  · subst he
    rw [Kernel.itable_setEntry_self]
    exact h hpos
  · rw [s.itable_setEntry_of_ne he]
    exact ⟨rfl, rfl⟩

def Local.on (held : Option (Fin n)) (uses : Option (Fin r × Fin n)) (e : Fin n)
    (via : Option (Fin r)) (valid : Bool) (copy : Dinode) (inStep : Bool) : Local n r :=
  ⟨held, uses, some ⟨e, via, copy, valid, inStep⟩⟩

variable {p : Fin t} {α : Type} {Q : α → Local n r → Prop} {held : Option (Fin n)}
  {uses : Option (Fin r × Fin n)} {e : Fin n} {via : Option (Fin r)} {valid inStep : Bool}
  {copy : Dinode} {l : Local n r}

/-! ### Blocks -/

theorem setBlock_safe {Q : Unit → Local n r → Prop} (dev b : ℕ) (change : Block → Block)
    (hQ : Q () l) : Safe Inv Stays Ok p Q (setBlock (t := t) dev b change) l := by
  apply Safe.write
  intro ρ s hinv hl
  refine ⟨.of_itable rfl, _, (hinv.setBlock dev b _).self, ?_⟩
  rw [hl]
  exact hQ

theorem bread_safe {Q : Block → Local n r → Prop} (dev b : ℕ) (hQ : ∀ block, Q block l) : Safe Inv Stays Ok p Q (bread (t := t) dev b) l := by
  apply Safe.read
  intro ρ s hinv hl
  refine ⟨.of_itable rfl, _, hinv.self, ?_⟩
  rw [hl]
  exact hQ _

theorem balloc_safe {Q : ℕ → Local n r → Prop} (dev : ℕ) (hQ : ∀ b, Q b l) : Safe Inv Stays Ok p Q (balloc (t := t) dev) l := by
  apply Safe.bind
  apply Safe.atom
  intro ρ s hinv hl
  cases s.firstFree dev with
  | none =>
    refine ⟨.of_itable rfl, _, hinv.self, ?_⟩
    rw [hl]
    exact hQ 0
  | some b =>
    refine ⟨.of_itable rfl, _, (hinv.setBit dev b true).self, ?_⟩
    rw [hl]
    apply Safe.bind
    apply setBlock_safe
    exact hQ b

variable {Q : Unit → Local n r → Prop}

theorem bfree_safe (dev b : ℕ) (hQ : Q () l) : Safe Inv Stays Ok p Q (bfree (t := t) dev b) l := by
  apply Safe.atom
  intro ρ s hinv hl
  split
  · refine ⟨.of_itable rfl, _, (hinv.setBit dev b false).self, ?_⟩
    rw [hl]
    exact hQ
  · exact ⟨nofun, nofun, nofun, nofun⟩

/-- The device of an entry never matters to the invariant. -/
theorem readDev_safe {Q : ℕ → Local n r → Prop} (hQ : ∀ dev, Q dev l) :
    Safe Inv Stays Ok p Q (Threads.Code.read fun s : Kernel t n r => (s.itable e).dev) l := by
  apply Safe.read
  intro ρ s hinv hl
  refine ⟨.of_itable rfl, _, hinv.self, ?_⟩
  rw [hl]
  exact hQ _

/-! ### A locked inode -/

theorem inode_safe {Q : Dinode → Local n r → Prop} (hQ : Q copy (.on held uses e via valid copy inStep)) :
    Safe Inv Stays Ok p Q (inode (t := t) e) (.on held uses e via valid copy inStep) := by
  apply Safe.read
  intro ρ s hinv hl
  refine ⟨.of_itable rfl, _, hinv.self, ?_⟩
  have hcopy : (s.itable e).copy = copy := (hinv.content.busy p ⟨e, via, copy, valid, inStep⟩ (by rw [hl]; rfl)).1
  rw [hl, hcopy]
  exact hQ

theorem Inv.valid_of_via {ρ : Fin t → Local n r} {s : Kernel t n r} {b : Busy n r} (h : Inv ρ s)
    (hb : (ρ p).busy = some b) (hvia : b.via ≠ none) : b.valid = true := by
  obtain ⟨v, hv⟩ := Option.ne_none_iff_exists'.mp hvia
  obtain ⟨hlocked, hpointer⟩ := h.locks.via p b v hb hv
  rw [← (h.content.busy p b hb).2]
  exact h.content.valid v p b.entry hlocked hpointer

theorem setInode_safe (change : Dinode → Dinode) (hQ : Q () (.on held uses e via valid (change copy) false)) :
    Safe Inv Stays Ok p Q (setInode (t := t) e change) (.on held uses e via valid copy inStep) := by
  apply Safe.write
  intro ρ s hinv hl
  have hb : (ρ p).busy = some ⟨e, via, copy, valid, inStep⟩ := by
    rw [hl]
    rfl
  obtain ⟨hcopy, hvalid⟩ := hinv.content.busy p _ hb
  refine ⟨.setEntry fun _ => ⟨rfl, rfl⟩, _, hinv.setFields hb (change (s.itable e).copy)
    (s.itable e).valid false nofun fun hvia => hvalid.trans (hinv.valid_of_via hb hvia), ?_⟩
  rw [hcopy, hvalid, hl]
  exact hQ

theorem setValid_safe {valid' : Bool} (hvia : via = none) (hQ : Q () (.on held uses e via valid' copy inStep)) :
    Safe Inv Stays Ok p Q (setValid (t := t) e valid') (.on held uses e via valid copy inStep) := by
  apply Safe.write
  intro ρ s hinv hl
  have hb : (ρ p).busy = some ⟨e, via, copy, valid, inStep⟩ := by
    rw [hl]
    rfl
  obtain ⟨hcopy, _⟩ := hinv.content.busy p _ hb
  refine ⟨.setEntry fun _ => ⟨rfl, rfl⟩, _, hinv.setFields hb (s.itable e).copy valid' inStep (fun hin => ?_) fun hne => absurd hvia hne, ?_⟩
  · rw [hcopy]
    exact hinv.content.inStep p _ hb hin
  · rw [hcopy, hl]
    exact hQ

/-- `iupdate` puts the copy back in step with the disk, unless the inode is being freed. -/
theorem iupdate_safe (hholes : copy.type ≠ .free → copy.NoHoles) (hQ : Q () (.on held uses e via valid copy (copy.type ≠ .free))) :
    Safe Inv Stays Ok p Q (iupdate (t := t) e) (.on held uses e via valid copy inStep) := by
  apply Safe.write
  intro ρ s hinv hl
  have hb : (ρ p).busy = some ⟨e, via, copy, valid, inStep⟩ := by
    rw [hl]
    rfl
  refine ⟨.of_itable rfl, _, ?_, hQ⟩
  have hupdate := hinv.iupdate hb hholes
  rw [hl] at hupdate
  rw [(hinv.content.busy p _ hb).1]
  exact hupdate

/-! ### `bmap` -/

structure Dinode.Grown (d d' : Dinode) : Prop where
  type : d'.type = d.type
  size : d'.size = d.size
  addrs : ∀ k, d.addrs k ≠ 0 → d'.addrs k ≠ 0

theorem Dinode.Grown.refl (d : Dinode) : d.Grown d := ⟨rfl, rfl, fun _ => id⟩

theorem Dinode.Grown.trans {d d' d'' : Dinode} (h : d.Grown d') (h' : d'.Grown d'') : d.Grown d'' :=
  ⟨h'.type.trans h.type, h'.size.trans h.size, fun k hk => h'.addrs k (h.addrs k hk)⟩

theorem bmapAddr_safe {Q : ℕ → Local n r → Prop} (dev k : ℕ)
    (hQ : ∀ addr copy' inStep', copy.Grown copy' → (addr ≠ 0 → copy'.addrs k ≠ 0) → (copy.addrs k ≠ 0 → addr ≠ 0 ∧ copy' = copy ∧ inStep' = inStep) →
      Q addr (.on held uses e via valid copy' inStep')) :
    Safe Inv Stays Ok p Q (bmapAddr (t := t) dev e k) (.on held uses e via valid copy inStep) := by
  apply Safe.bind
  apply inode_safe
  split
  · rename_i hzero
    apply Safe.bind
    apply balloc_safe
    intro addr
    split
    · exact hQ 0 copy inStep (.refl copy) (fun h => absurd rfl h) fun h => absurd hzero h
    · rename_i haddr
      apply Safe.bind
      apply setInode_safe
      refine hQ addr _ false ⟨rfl, rfl, fun k' hk' => ?_⟩ (fun _ => ?_) fun h => absurd hzero h
      · by_cases hk : k' = k
        · subst hk
          exact absurd hzero hk'
        · show update copy.addrs k addr k' ≠ 0
          rw [update_of_ne hk]
          exact hk'
      · show update copy.addrs k addr k ≠ 0
        rw [update_self]
        exact haddr
  · rename_i hk
    exact hQ _ copy inStep (.refl copy) (fun _ => hk) fun _ => ⟨hk, rfl, rfl⟩

theorem bmapEntry_safe {Q : ℕ → Local n r → Prop} (dev indirect j : ℕ) (hQ : ∀ addr, Q addr l) :
    Safe Inv Stays Ok p Q (bmapEntry (t := t) dev indirect j) l := by
  apply Safe.bind
  apply bread_safe
  intro block
  split
  · apply Safe.bind
    apply balloc_safe
    intro addr
    split
    · exact hQ 0
    · apply Safe.bind
      apply setBlock_safe
      exact hQ addr
  · exact hQ _

/-- `bmap` adds addresses at most, and nothing at all where the inode has an address for the block. -/
theorem bmap_safe {Q : ℕ → Local n r → Prop} (dev bn : ℕ)
    (hQ : ∀ addr copy' inStep', copy.Grown copy' → (addr ≠ 0 → copy'.addrs (min bn ndirect) ≠ 0) →
      (copy.addrs (min bn ndirect) ≠ 0 → copy' = copy ∧ inStep' = inStep) →
      Q addr (.on held uses e via valid copy' inStep')) :
    Safe Inv Stays Ok p Q (bmap (t := t) dev e bn) (.on held uses e via valid copy inStep) := by
  unfold bmap
  split
  · rename_i hlt
    rw [Nat.min_eq_left (Nat.le_of_lt hlt)] at hQ
    apply bmapAddr_safe
    intro addr copy' inStep' hgrown haddr hsame
    exact hQ addr copy' inStep' hgrown haddr fun h => (hsame h).2
  · rename_i hge
    rw [Nat.min_eq_right (Nat.le_of_not_lt hge)] at hQ
    split
    · apply Safe.bind
      apply bmapAddr_safe
      intro addr copy' inStep' hgrown haddr hsame
      split
      · exact hQ 0 copy' inStep' hgrown (fun h => absurd rfl h) fun h => (hsame h).2
      · rename_i hne
        apply bmapEntry_safe
        intro addr'
        exact hQ addr' copy' inStep' hgrown (fun _ => haddr hne) fun h => (hsame h).2
    · apply Safe.atom
      intro ρ s _ _
      exact ⟨nofun, nofun, nofun, nofun⟩

/-! ### `itrunc` -/

theorem itrunc_direct_safe (dev : ℕ) (ks : List ℕ)
    (hQ : ∀ copy' inStep', copy'.type = copy.type → Q () (.on held uses e via valid copy' inStep')) :
    Safe Inv Stays Ok p Q (itrunc.direct (t := t) dev e ks) (.on held uses e via valid copy inStep) := by
  induction ks generalizing copy inStep with
  | nil => exact hQ copy inStep rfl
  | cons k rest ih =>
    apply Safe.bind
    apply inode_safe
    split
    · apply Safe.bind
      apply bfree_safe
      apply Safe.bind
      apply setInode_safe
      exact ih hQ
    · exact ih hQ

theorem itrunc_entries_safe (dev : ℕ) (block : Block) (js : List ℕ) (hQ : Q () l) :
    Safe Inv Stays Ok p Q (itrunc.entries (t := t) dev block js) l := by
  induction js with
  | nil => exact hQ
  | cons j rest ih =>
    unfold itrunc.entries
    split
    · apply Safe.bind
      apply bfree_safe
      exact ih
    · exact ih

theorem itrunc_indirect_safe (dev : ℕ)
    (hQ : ∀ copy' inStep', copy'.type = copy.type → Q () (.on held uses e via valid copy' inStep')) :
    Safe Inv Stays Ok p Q (itrunc.indirect (t := t) dev e) (.on held uses e via valid copy inStep) := by
  apply Safe.bind
  apply inode_safe
  split
  · apply Safe.bind
    apply bread_safe
    intro block
    apply Safe.bind
    apply itrunc_entries_safe
    apply Safe.bind
    apply bfree_safe
    apply setInode_safe
    exact hQ _ false rfl
  · exact hQ copy inStep rfl

theorem itrunc_safe (hQ : ∀ copy', copy'.type = copy.type → Q () (.on held uses e via valid copy' (copy'.type ≠ .free))) :
    Safe Inv Stays Ok p Q (itrunc (t := t) e) (.on held uses e via valid copy inStep) := by
  apply Safe.bind
  apply readDev_safe
  intro dev
  apply Safe.bind
  apply itrunc_direct_safe
  intro copy1 inStep1 htype1
  apply Safe.bind
  apply itrunc_indirect_safe
  intro copy2 inStep2 htype2
  apply Safe.bind
  apply setInode_safe
  apply iupdate_safe
  · intro _ bn hbn
    exact absurd hbn (Nat.not_lt_zero _)
  · exact hQ _ (htype2.trans htype1)

/-! ### Reading and writing -/

def Dinode.Mapped (d : Dinode) (off : ℕ) : Prop := ∀ bn, bn * bsize < off → d.addrs (min bn ndirect) ≠ 0

theorem Dinode.Mapped.mono {d d' : Dinode} (h : d.Grown d') {off off' : ℕ} (hle : off' ≤ off) (hd : d.Mapped off) : d'.Mapped off' :=
  fun bn hbn => h.addrs _ (hd bn (Nat.lt_of_lt_of_le hbn hle))

theorem Dinode.Mapped.round {d : Dinode} {off m : ℕ} (hd : d.Mapped off) (haddr : d.addrs (min (off / bsize) ndirect) ≠ 0) (hm : m ≤ bsize - off % bsize) :
    d.Mapped (off + m) := by
  intro bn hbn
  by_cases hlt : bn * bsize < off
  · exact hd bn hlt
  · have hdiv := Nat.div_add_mod off bsize
    have hbn' : bn = off / bsize := by
      simp only [bsize] at *
      omega
    rw [hbn']
    exact haddr

theorem readi_loop_safe {Q : Option (List UInt8) → Local n r → Prop} (hholes : copy.NoHoles) (dev : ℕ) (copyout : ℕ → ℕ → Bool) (len : ℕ)
    (hQ : ∀ result, Q result (.on held uses e via valid copy inStep)) (fuel tot off : ℕ) (bytes : List UInt8) (hoff : off + (len - tot) ≤ copy.size) :
    Safe Inv Stays Ok p Q (readi.loop (t := t) dev e copyout len fuel tot off bytes) (.on held uses e via valid copy inStep) := by
  induction fuel generalizing tot off bytes with
  | zero => exact hQ _
  | succ fuel ih =>
    unfold readi.loop
    split
    · rename_i hlt
      have haddr : copy.addrs (min (off / bsize) ndirect) ≠ 0 := by
        apply hholes
        have hdiv := Nat.div_mul_le_self off bsize
        omega
      apply Safe.bind
      apply bmap_safe
      intro addr copy' inStep' _ _ hsame
      obtain ⟨rfl, rfl⟩ := hsame haddr
      split
      · exact hQ _
      · apply Safe.bind
        apply bread_safe
        intro block
        dsimp only
        split
        · apply ih
          omega
        · exact hQ _
    · exact hQ _

theorem UInt32.toNat_add_of_not_lt {a b : UInt32} (h : ¬ a + b < a) : (a + b).toNat = a.toNat + b.toNat := by
  rw [UInt32.lt_iff_toNat_lt, UInt32.toNat_add] at h
  rw [UInt32.toNat_add]
  have ha := a.toNat_lt
  have hb := b.toNat_lt
  omega

theorem readi_safe {Q : Option (List UInt8) → Local n r → Prop} (hholes : copy.NoHoles) (copyout : ℕ → ℕ → Bool) (off len : UInt32)
    (hQ : ∀ result, Q result (.on held uses e via valid copy inStep)) :
    Safe Inv Stays Ok p Q (readi (t := t) e copyout off len) (.on held uses e via valid copy inStep) := by
  apply Safe.bind
  apply readDev_safe
  intro dev
  apply Safe.bind
  apply inode_safe
  split
  · exact hQ _
  · rename_i hrange
    push Not at hrange
    have hsum : (off + len).toNat = off.toNat + len.toNat := UInt32.toNat_add_of_not_lt hrange.2
    apply readi_loop_safe hholes _ _ _ hQ
    split <;> omega

theorem writei_loop_safe {Q : ℕ × ℕ → Local n r → Prop} (dev : ℕ) (src : Source) (len fuel tot off : ℕ) (hmapped : copy.Mapped off)
    (hQ : ∀ tot' off' copy' inStep', copy.Grown copy' → copy'.Mapped off' → Q (tot', off') (.on held uses e via valid copy' inStep')) :
    Safe Inv Stays Ok p Q (writei.loop (t := t) dev e src len fuel tot off) (.on held uses e via valid copy inStep) := by
  induction fuel generalizing tot off copy inStep with
  | zero => exact hQ tot off copy inStep (.refl copy) hmapped
  | succ fuel ih =>
    unfold writei.loop
    split
    · apply Safe.bind
      apply bmap_safe
      intro addr copy' inStep' hgrown haddr _
      have hmapped' : copy'.Mapped off := hmapped.mono hgrown (Nat.le_refl off)
      split
      · exact hQ tot off copy' inStep' hgrown hmapped'
      · rename_i hne
        apply Safe.bind
        apply setBlock_safe
        split
        · exact hQ tot off copy' inStep' hgrown hmapped'
        · apply ih
          · exact hmapped'.round (haddr hne) (Nat.min_le_right _ _)
          · intro tot' off' copy'' inStep'' hgrown' hmapped''
            exact hQ tot' off' copy'' inStep'' (hgrown.trans hgrown') hmapped''
    · exact hQ tot off copy inStep (.refl copy) hmapped

theorem writei_safe {Q : ℤ → Local n r → Prop} (htype : copy.type ≠ .free) (hholes : copy.NoHoles) (src : Source) (off len : UInt32)
    (hQ : ∀ result copy', Q result (.on held uses e via valid copy' true)) :
    Safe Inv Stays Ok p Q (writei (t := t) e src off len) (.on held uses e via valid copy true) := by
  apply Safe.bind
  apply readDev_safe
  intro dev
  apply Safe.bind
  apply inode_safe
  split
  · exact hQ (-1) copy
  · rename_i hrange
    push Not at hrange
    split
    · exact hQ (-1) copy
    · apply Safe.bind
      apply writei_loop_safe
      · exact Dinode.Mapped.mono (.refl copy) hrange.1 hholes
      · intro tot last copy' inStep' hgrown hmapped
        apply Safe.bind
        apply setInode_safe
        apply Safe.bind
        apply iupdate_safe
        · intro _ bn hbn
          dsimp only at hbn
          split at hbn
          · exact hmapped bn hbn
          · rw [hgrown.size] at hbn
            exact hgrown.addrs _ (hholes bn hbn)
        · rw [decide_eq_true (by rw [hgrown.type]; exact htype)]
          exact hQ tot _

theorem updateLinks_safe {Q : Unit → Local n r → Prop} (htype : copy.type ≠ .free) (hholes : copy.NoHoles) (u : LinkUpdate)
    (hQ : Q () (.on held uses e via valid (u.apply copy) true)) :
    Safe Inv Stays Ok p Q (updateLinks (t := t) e u) (.on held uses e via valid copy inStep) := by
  apply Safe.bind
  apply setInode_safe
  have htype' : (u.apply copy).type ≠ .free := by
    cases u <;> exact htype
  apply iupdate_safe
  · intro _
    cases u <;> exact hholes
  · rw [decide_eq_true htype']
    exact hQ

end AdvancedXv6.InodeTable
