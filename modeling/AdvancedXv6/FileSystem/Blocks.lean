import AdvancedXv6.FileSystem.Image
import AdvancedXv6.FileSystem.Runs
import AdvancedXv6.Lib.Transition

/-!
# Block ownership over whole runs

A kernel boots from a disk image, and processes make calls in any order, one after the other. Whatever they do, and whether or not the disk gets full or a buffer faults, the free map says which blocks the inodes on the disk name, and no block is named twice.
-/

namespace AdvancedXv6.FileSystem

open Function Prog Transition Weights

/-- The state after booting: `init` is in the root directory of the disk and has nothing open. -/
def boot (fs : Fs) : System where
  fs := fs.got rootino
  ftable _ := { type := .none, ref := 0, readable := false, writable := false, ip := 0, off := 0, major := 0 }
  procs := update (fun _ => none) 0 (some { ofile := fun _ => none, cwd := rootino })

def System.next (s : System) (move : ℕ × Call) : Option System :=
  match s.procs move.1 with
  | none => none
  | some proc =>
    match move.2.run move.1 proc s with
    | .ok (_, s') => some s'
    | .error _ => none

/-- A call that meets a condition. It is run from its start to its end: nothing comes between the lookup of a path, which leaves the inode it returns unlocked, and the lock that the call then takes. -/
def System.StepIf (P : System → Process → Call → Prop) (s s' : System) : Prop :=
  ∃ p proc call r, s.procs p = some proc ∧ P s proc call ∧ Call.run p proc call s = .ok (r, s')

def Fs.onDisk (s : Fs) (x : ℕ × ℕ) : ℕ := (s.dinodes x.1).slot s.blocks x.2

/-- A disk from which a kernel can boot: the free map is right, no inode has an unallocated block
below its size, there are `ninodes` inodes, no directory has an entry for another, and the root is a
directory. -/
structure Fs.Image (fs : Fs) : Prop where
  owned : Owns nmeta fsSize fs.onDisk fs.bitmap
  solid : ∀ i, ∀ x < (fs.dinodes i).size, fs.onDisk (i, slotOf (x / bsize)) ≠ 0
  range : ∀ i, ninodes ≤ i → (fs.dinodes i).type = .free
  entries : ∀ d k, (fs.dinodes d).type = .dir → (fs.entry d k).inum < ninodes
  root : (fs.dinodes rootino).type = .dir
  unused : ∀ i, (fs.itable i).ref = 0

/-! ### Good states -/

variable {fs : Fs} {s s' : System}

theorem Fs.Image.cur_eq (h : fs.Image) : fs.cur = fs.dinodes := by
  funext i
  exact if_neg fun hc => absurd hc.1 (by rw [h.unused i]; exact Nat.lt_irrefl 0)

theorem Fs.slots_of_cur (h : fs.cur = fs.dinodes) : fs.slots = fs.onDisk := by
  unfold Fs.slots Fs.onDisk
  rw [h]

theorem Fs.Image.sane (h : fs.Image) : fs.Sane := by
  have hslots := Fs.slots_of_cur h.cur_eq
  refine ⟨?_, fun i hi => ?_, fun i x hx => ?_, fun i hi => ?_⟩
  · unfold Fs.Owned
    rw [hslots]
    exact h.owned
  · rw [h.unused i] at hi
    exact absurd hi (Nat.lt_irrefl 0)
  · rw [h.cur_eq] at hx
    rw [hslots]
    exact h.solid i x hx
  · change (fs.cur i).type = .free
    rw [h.cur_eq]
    exact h.range i hi

theorem Fs.Image.tree_boot (h : fs.Image) : (boot fs).fs.tree.type = (fun i => (fs.dinodes i).type) ∧
    (boot fs).fs.tree.ref = update (fun _ => 0) rootino 1 := by
  have htree : (boot fs).fs.tree = fs.tree.get rootino := fs.tree_got rootino
  rw [htree]
  refine ⟨?_, ?_⟩
  · funext i
    change (fs.cur i).type = (fs.dinodes i).type
    rw [h.cur_eq]
  · have hzero : fs.tree.ref = fun _ => 0 := funext h.unused
    unfold Tree.get
    dsimp only
    rw [hzero]

theorem procs_boot {p : ℕ} {proc : Process} (hp : (boot fs).procs p = some proc) : p = 0 ∧ proc = { ofile := fun _ => none, cwd := rootino } := by
  unfold boot at hp
  dsimp only at hp
  rw [update_apply] at hp
  split at hp
  · rename_i hzero
    exact ⟨hzero, (Option.some.inj hp).symm⟩
  · cases hp

theorem Fs.Image.good_boot (h : fs.Image) : (boot fs).Good := by
  obtain ⟨htype, href⟩ := h.tree_boot
  have hpos : 0 < nproc := by decide
  have hnone {weight : Option Process → ℕ} (hzero : weight none = 0) : below nproc weight (fun _ => none) = 0 := below_eq_zero fun _ _ => hzero
  have hcwds (i : ℕ) : (boot fs).cwdRefs i = if rootino = i then 1 else 0 := by
    have hsum : (boot fs).cwdRefs i + 0 = below nproc (cwdRef i) (fun _ => none) + if rootino = i then 1 else 0 := below_update hpos _
    rw [hnone rfl] at hsum
    omega
  have hfds (f : ℕ) : (boot fs).fdRefs f = 0 := by
    have hsum : (boot fs).fdRefs f + 0 = below nproc (fdRef f) (fun _ => none) + Process.fds { ofile := fun _ => none, cwd := rootino } f :=
      below_update hpos _
    have hproc : Process.fds { ofile := fun _ => none, cwd := rootino } f = 0 := below_eq_zero fun _ _ => System.slotRef_none f
    rw [hnone rfl, hproc] at hsum
    omega
  refine ⟨⟨h.sane.got rootino, fun i => ?_, fun f => (hfds f).symm, fun i hi => ?_, fun _ _ => rfl, fun _ _ => rfl, nofun⟩, fun p proc hp => ?_,
    fun p hp => ?_, fun p proc fd f hp hf => ?_⟩
  · have hfiles : (boot fs).fileRefs i = 0 := below_eq_zero fun _ _ => if_neg fun hc => hc.1 rfl
    rw [href, hcwds, hfiles, update_apply]
    simp only [eq_comm, Nat.add_zero]
  · rw [href, update_apply] at hi
    split at hi
    · rename_i hi'
      rw [htype, hi']
      dsimp only
      rw [h.root]
      exact FileType.noConfusion
    · exact absurd hi (Nat.lt_irrefl 0)
  · rw [(procs_boot hp).2, htype]
    exact h.root
  · cases hproc : (boot fs).procs p with
    | none => rfl
    | some proc =>
      have hzero := (procs_boot hproc).1
      omega
  · rw [(procs_boot hp).2] at hf
    cases hf

/-- A call in a good state, when nothing is asked of the inodes it comes across. -/
theorem System.Good.ran (h : s.Good) {p : ℕ} {proc : Process} (hp : s.procs p = some proc) {call : Call} {r : ℤ}
    (hrun : call.run p proc s = .ok (r, s')) : s.Ran s' (fun _ => True) (fun _ => True) (call.intent s.fs.tree proc.cwd) := by
  have hcaller : s.Caller (fun _ => True) (fun _ => True) p proc := ⟨h, hp, fun _ _ _ => trivial, .inl trivial⟩
  exact (hcaller.post_run call).of_ok hrun

theorem System.next_eq_some {move : ℕ × Call} (h : s.next move = some s') :
    ∃ proc r, s.procs move.1 = some proc ∧ move.2.run move.1 proc s = .ok (r, s') := by
  unfold System.next at h
  split at h
  · cases h
  · rename_i proc hproc
    split at h
    · rename_i r s'' hrun
      cases h
      exact ⟨proc, r, hproc, hrun⟩
    · cases h

theorem System.StepIf.stepOf {P : System → Process → Call → Prop} (h : System.StepIf P s s') : StepOf System.next s s' := by
  obtain ⟨p, proc, call, r, hproc, _, hrun⟩ := h
  refine ⟨(p, call), ?_⟩
  unfold System.next
  rw [hproc]
  dsimp only
  rw [hrun]

theorem Fs.Image.good (h : fs.Image) (hs : Reachable (· = boot fs) (StepOf System.next) s) : s.Good := by
  refine Reachable.invariant (I := System.Good) (fun s0 h0 => ?_) (fun s s' _ hgood hstep => ?_) hs
  · rw [h0]
    exact h.good_boot
  · obtain ⟨move, hmove⟩ := hstep
    obtain ⟨proc, r, hproc, hrun⟩ := System.next_eq_some hmove
    exact (hgood.ran hproc hrun).good

/-! ### Entries -/

namespace Tree

/-- The inodes of the tree, and those that its entries are for, are inodes of the disk. -/
structure Inside (t : Tree) : Prop where
  range : ∀ i, ninodes ≤ i → t.type i = .free
  entries : ∀ d k, (t.entry d k).inum < ninodes

variable {t t' : Tree} {I : Intent} {ip dp k : ℕ}

theorem noEntry_lt : noEntry.inum < ninodes := by decide

theorem Inside.lt (h : t.Inside) (hused : t.type ip ≠ .free) : ip < ninodes := by
  by_contra hge
  exact hused (h.range ip (Nat.le_of_not_lt hge))

theorem Inside.fades (h : t.Inside) (hs : Fades t t') : t'.Inside := by
  refine ⟨fun i hi => ?_, fun d k => ?_⟩
  · rcases hs i with ⟨htype, _⟩ | ⟨_, _, htype, _⟩
    · exact htype.trans (h.range i hi)
    · exact htype
  · rcases hs d with ⟨_, _, hentry⟩ | ⟨_, _, _, _, hentry⟩
    · rw [hentry]
      exact h.entries d k
    · rw [hentry]
      exact noEntry_lt

theorem Inside.setNlink (h : t.Inside) (n : Int16) : (t.setNlink ip n).Inside :=
  ⟨h.range, h.entries⟩

theorem Inside.setEntry (h : t.Inside) {de : Dirent} (hde : de.inum < ninodes) :
    (t.setEntry dp k de).Inside := by
  refine ⟨h.range, fun d l => ?_⟩
  simp only [Tree.setEntry, update_apply]
  split
  · rw [update_apply]
    split
    · exact hde
    · exact h.entries dp l
  · exact h.entries d l

theorem Inside.alloc (h : t.Inside) (hip : ip < ninodes) (type : FileType) :
    (t.alloc ip type).Inside := by
  refine ⟨fun i hi => ?_, fun d l => ?_⟩
  · exact (update_of_ne (by omega) _ _).trans (h.range i hi)
  · simp only [Tree.alloc, update_apply]
    split
    · exact noEntry_lt
    · exact h.entries d l

theorem Inside.make (h : t.Inside) {name : List UInt8} {type : FileType} (hip : ip < ninodes)
    (hdp : dp < ninodes) : (t.make dp k name ip type).Inside := by
  have hborn : (((t.alloc ip type).setNlink ip 1).dots dp ip type).Inside := by
    unfold dots
    split
    · exact (((h.alloc hip type).setNlink 1).setEntry hip).setEntry hdp
    · exact (h.alloc hip type).setNlink 1
  unfold Tree.make count
  split
  · exact (hborn.setEntry hip).setNlink _
  · exact hborn.setEntry hip

theorem Inside.unlink (h : t.Inside) : (t.unlink dp k ip).Inside := by
  have hcut : (t.cut dp k ip).Inside := by
    unfold cut
    dsimp only
    split
    · exact (h.setEntry (by decide)).setNlink _
    · exact h.setEntry (by decide)
  exact hcut.setNlink _

theorem Inside.effect (h : t.Inside) (he : Effect I t t') : t'.Inside := by
  cases he with
  | quiet hs => exact h.fades hs
  | make t1 dp k name ip type h1 _ hvacant _ _ hip _ h2 =>
    have ht1 := h.fades h1
    exact (ht1.make hip (ht1.lt (by rw [hvacant.dir]; decide))).fades h2
  | link t1 dp k name ip h1 _ _ _ hused _ h2 =>
    have ht1 := h.fades h1
    exact ((ht1.setNlink _).setEntry (ht1.lt hused)).fades h2
  | unlink t1 dp k name ip h1 _ _ h2 => exact ((h.fades h1).unlink).fades h2

end Tree

/-- No entry ever leads beyond the inodes of the disk, where there would be blocks of other kinds. -/
theorem Fs.Image.inside (h : fs.Image) (hs : Reachable (· = boot fs) (StepOf System.next) s) :
    s.fs.tree.Inside := by
  refine Reachable.invariant (I := fun s => s.fs.tree.Inside) (fun s0 h0 => ?_)
    (fun s s' hs hinside hstep => ?_) hs
  · have htree : (boot fs).fs.tree = fs.tree.get rootino := fs.tree_got rootino
    rw [h0, htree]
    refine ⟨h.sane.range, fun d k => ?_⟩
    change (if (fs.cur d).type = .dir then fs.entry d k else noEntry).inum < ninodes
    rw [h.cur_eq]
    split
    · rename_i hdir
      exact h.entries d k hdir
    · decide
  · obtain ⟨move, hmove⟩ := hstep
    obtain ⟨proc, r, hproc, hrun⟩ := System.next_eq_some hmove
    exact hinside.effect ((h.good hs).ran hproc hrun).effect

/-! ### Ownership -/

theorem System.Good.run_ne_freeing (h : s.Good) {p : ℕ} {proc : Process} (hp : s.procs p = some proc) (call : Call) :
    call.run p proc s ≠ .error .freeingFreeBlock := by
  intro hrun
  have hcaller : s.Caller (fun _ => True) (· ≠ .freeingFreeBlock) p proc := ⟨h, hp, fun _ _ hne => hne, .inl nofun⟩
  exact (hcaller.post_run call).of_error hrun rfl

theorem blocks_owned (h : fs.Image) (hs : Reachable (· = boot fs) (StepOf System.next) s) :
    (∀ b < fsSize, s.fs.bitmap b = true ↔ b < nmeta ∨ ∃! x, s.fs.onDisk x = b) ∧
    (∀ x y, s.fs.onDisk x ≠ 0 → s.fs.onDisk x = s.fs.onDisk y → x = y) ∧
    (∀ x, s.fs.onDisk x ≠ 0 → nmeta ≤ s.fs.onDisk x ∧ s.fs.onDisk x < fsSize) ∧
    ∀ p proc, ∀ call : Call, s.procs p = some proc → call.run p proc s ≠ .error .freeingFreeBlock := by
  have hgood := h.good hs
  have hsane := hgood.balanced.sane
  have howned : Owns nmeta fsSize s.fs.onDisk s.fs.bitmap := by
    rw [← Fs.slots_of_cur hsane.cur_eq]
    exact hsane.owned
  refine ⟨fun b hb => ?_, howned.inj, howned.range, fun p proc call hp => hgood.run_ne_freeing hp call⟩
  rcases Nat.lt_or_ge b nmeta with hlow | hhigh
  · exact iff_of_true (howned.low b hlow) (.inl hlow)
  · have hpos : b ≠ 0 := Nat.ne_of_gt (Nat.lt_of_lt_of_le howned.pos hhigh)
    rw [howned.used_iff hhigh hb]
    constructor
    · rintro ⟨x, hx⟩
      refine .inr ⟨x, hx, fun y hy => ?_⟩
      dsimp only at hy
      exact howned.inj y x (by rw [hy]; exact hpos) (hy.trans hx.symm)
    · rintro (hlow | ⟨x, hx, _⟩)
      · omega
      · exact ⟨x, hx⟩

/-- The reference counts are exact between system calls, so that what is open or the directory of a process is allocated, with or without links; and no directory is open for writing. -/
theorem open_inodes_allocated (h : fs.Image) (hs : Reachable (· = boot fs) (StepOf System.next) s) :
    (∀ i, (s.fs.itable i).ref = s.cwdRefs i + s.fileRefs i) ∧ (∀ f, (s.ftable f).ref = s.fdRefs f) ∧
    (∀ f, (s.ftable f).type ≠ .none → 0 < s.fdRefs f ∧ (s.fs.dinodes (s.ftable f).ip).type ≠ .free) ∧
    (∀ f, (s.ftable f).type = .inode → (s.ftable f).writable = true → (s.fs.dinodes (s.ftable f).ip).type ≠ .dir) ∧
    ∀ p proc, s.procs p = some proc → (s.fs.dinodes proc.cwd).type = .dir := by
  have hgood := h.good hs
  have hbalanced := hgood.balanced
  have htype (i : ℕ) : s.fs.tree.type i = (s.fs.dinodes i).type := by
    rw [← hbalanced.sane.cur_eq]
    rfl
  refine ⟨hbalanced.refs, hbalanced.files, fun f hf => ⟨?_, ?_⟩, fun f hf hw => ?_, fun p proc hp => ?_⟩
  · rw [← hbalanced.files f]
    exact Nat.pos_of_ne_zero fun hzero => hf (hbalanced.idle f hzero)
  · rw [← htype]
    exact hbalanced.used _ (hbalanced.ref_pos_of_type hf)
  · rw [← htype]
    exact hbalanced.writable f hf hw
  · rw [← htype]
    exact hgood.cwd_dir p proc hp

theorem image_mkfs : mkfs.Image := by
  have hcur : mkfs.cur = mkfs.dinodes := funext cur_mkfs
  refine ⟨?_, fun i x hx => ?_, fun i hi => ?_, fun d k _ => ?_, rfl, fun _ => rfl⟩
  · rw [← Fs.slots_of_cur hcur]
    exact owned_mkfs
  · rw [← Fs.slots_of_cur hcur]
    exact solid_mkfs i x (by rw [hcur]; exact hx)
  · have hne : i ≠ rootino := by
      rintro rfl
      exact absurd hi (by decide)
    exact congrArg Dinode.type (if_neg hne)
  · by_cases hzero : (mkfs.entry d k).inum = 0
    · rw [hzero]
      decide
    · obtain ⟨rfl, hk⟩ := entry_mkfs_inum hzero
      obtain rfl | rfl : k = 0 ∨ k = 1 := by omega
      · rw [entry_mkfs_zero]
        decide
      · rw [entry_mkfs_one]
        decide

/-- A directory has been made, with a file in it, and one byte written to the file. -/
theorem blocks_owned_mkfs : ∃ s, Reachable (· = boot mkfs) (StepOf System.next) s ∧ s.fs.bitmap (nmeta + 2) = true ∧
    ((∀ b < fsSize, s.fs.bitmap b = true ↔ b < nmeta ∨ ∃! x, s.fs.onDisk x = b) ∧
    (∀ x y, s.fs.onDisk x ≠ 0 → s.fs.onDisk x = s.fs.onDisk y → x = y) ∧
    (∀ x, s.fs.onDisk x ≠ 0 → nmeta ≤ s.fs.onDisk x ∧ s.fs.onDisk x < fsSize) ∧
    ∀ p proc, ∀ call : Call, s.procs p = some proc → call.run p proc s ≠ .error .freeingFreeBlock) := by
  obtain ⟨s, hs, hused⟩ : ∃ s, Reachable (· = boot mkfs) (StepOf System.next) s ∧
      s.fs.bitmap (nmeta + 2) = true :=
    exists_reachable_of_schedule rfl [(0, .mkdir [100]), (0, .openPath [100, 47, 102] 0x202),
      (0, .write 0 (fun _ => some 1) 1)] (by decide +kernel)
  exact ⟨s, hs, hused, blocks_owned image_mkfs hs⟩

/-- A file has been made and unlinked while it is open. -/
theorem open_inodes_allocated_unlinked : ∃ s, Reachable (· = boot mkfs) (StepOf System.next) s ∧
    (s.ftable 0).type ≠ .none ∧ (s.fs.dinodes (s.ftable 0).ip).nlink = 0 ∧
    (s.fs.dinodes (s.ftable 0).ip).type ≠ .free := by
  obtain ⟨s, hs, htype, hnlink⟩ : ∃ s, Reachable (· = boot mkfs) (StepOf System.next) s ∧
      (s.ftable 0).type ≠ .none ∧ (s.fs.dinodes (s.ftable 0).ip).nlink = 0 :=
    exists_reachable_of_schedule rfl [(0, .openPath [102] 0x202), (0, .unlink [102])]
      (by decide +kernel)
  exact ⟨s, hs, htype, hnlink, ((open_inodes_allocated image_mkfs hs).2.2.1 0 htype).2⟩

end AdvancedXv6.FileSystem
