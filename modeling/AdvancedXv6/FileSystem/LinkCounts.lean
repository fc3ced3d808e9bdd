import AdvancedXv6.FileSystem.Links

/-!
# Link counts over whole runs

The link counts on the disk are exact between calls, from the image that `mkfs` makes on, in every run of calls one after the other in which no entry is made in a directory without links. A process that stays in a directory that has been removed can make such an entry: `create` does not look at the link count of the directory.
-/

namespace AdvancedXv6.FileSystem

open Prog Transition

/-! ### The counts on the disk -/

def Fs.linkSlots (s : Fs) (i d : ℕ) : Finset ℕ :=
  if (s.dinodes d).type = .dir ∧ 0 < (s.dinodes d).nlink then
    (Finset.range ((s.dinodes d).size / direntSize)).filter fun k => (s.entry d k).inum = i ∧ namecmp (s.entry d k).name dot ≠ 0
  else
    ∅

/-- The number of entries for inode `i`, other than `.`, in directories that have links. -/
def Fs.linkCount (s : Fs) (i : ℕ) : ℕ := ∑ d ∈ Finset.range ninodes, (s.linkSlots i d).card

/-- The inodes that are reached from the root by entries. -/
inductive Fs.FromRoot (s : Fs) : ℕ → Prop where
  | root : FromRoot s rootino
  | entry {d k : ℕ} : FromRoot s d → (s.dinodes d).type = .dir → (s.entry d k).inum ≠ 0 → FromRoot s (s.entry d k).inum

variable {fs : Fs} {s s' : System} {i d k : ℕ}

theorem Fs.Sane.mem_linkSlots (h : fs.Sane) (hi : i ≠ 0) : k ∈ fs.linkSlots i d ↔ (d, k) ∈ fs.tree.links i := by
  have hlive : fs.tree.Live d ↔ (fs.dinodes d).type = .dir ∧ 0 < (fs.dinodes d).nlink := by
    rw [← h.cur_eq]
    rfl
  unfold Fs.linkSlots
  split
  · rename_i hd
    have hentry : fs.tree.entry d = fs.entry d := Fs.tree_entry_of_dir (hlive.mpr hd).1
    rw [Finset.mem_filter, Finset.mem_range, ne_eq, namecmp_eq_zero_iff]
    constructor
    · rintro ⟨_, hinum, hname⟩
      refine ⟨hlive.mpr hd, ?_⟩
      dsimp only
      rw [hentry]
      exact ⟨hinum, hname⟩
    · rintro ⟨_, hinum, hname⟩
      dsimp only at hinum hname
      rw [hentry] at hinum hname
      have hsize := Fs.size_of_entry (by rw [hinum]; exact hi : (fs.entry d k).inum ≠ 0)
      rw [h.cur_eq] at hsize
      refine ⟨?_, hinum, hname⟩
      unfold direntSize
      omega
  · rename_i hd
    exact iff_of_false (Finset.notMem_empty k) fun hmem => hd (hlive.mp hmem.1)

theorem Fs.Sane.linkCount_eq (h : fs.Sane) (hi : i ≠ 0) : fs.linkCount i = (fs.tree.links i).ncard := by
  have hset : fs.tree.links i = ((Finset.range ninodes).sigma (fs.linkSlots i)).map (Equiv.sigmaEquivProd ℕ ℕ).toEmbedding := by
    ext x
    rw [Finset.mem_coe, Finset.mem_map_equiv, Finset.mem_sigma, Finset.mem_range]
    constructor
    · intro hx
      refine ⟨?_, (h.mem_linkSlots hi).mpr hx⟩
      by_contra hge
      exact hx.1.used (h.range x.1 (Nat.le_of_not_lt hge))
    · rintro ⟨_, hx⟩
      exact (h.mem_linkSlots hi).mp hx
  unfold Fs.linkCount
  rw [hset, Set.ncard_coe_finset, Finset.card_map, Finset.card_sigma]

theorem Fs.Sane.fromRoot (h : fs.Sane) (hr : fs.tree.Rooted i) : fs.FromRoot i := by
  induction hr with
  | root => exact .root
  | child _ hc ih =>
    rename_i d k e _
    have hentry : fs.tree.entry d k = fs.entry d k := congrFun (Fs.tree_entry_of_dir hc.live.1) k
    have hinum := hc.inum_eq
    rw [hentry] at hinum
    rw [← hinum]
    refine .entry ih ?_ ?_
    · rw [← h.cur_eq]
      exact hc.live.1
    · rw [hinum]
      exact hc.ne_zero

theorem Tree.Linked.rooted_of_nlink {t : Tree} (h : t.Linked) (hi : i ≠ 0) (hpos : 0 < t.nlink i) : t.Rooted i := by
  obtain ⟨x, hx⟩ := (h.count i hi).pos_iff.mp hpos
  rcases h.links_cases hi hx with ⟨_, hlive, hup⟩ | hc
  · rw [← hup]
    exact h.rooted _ (h.up_live hlive)
  · exact .child (h.rooted _ hc.live) hc

/-! ### The first image -/

theorem tree_mkfs_type (i : ℕ) : mkfs.tree.type i = if i = rootino then .dir else .free := by
  change (mkfs.cur i).type = _
  rw [cur_mkfs]
  split <;> rfl

theorem tree_mkfs_nlink (i : ℕ) : mkfs.tree.nlink i = if i = rootino then 1 else 0 := by
  change (mkfs.cur i).nlink = _
  rw [cur_mkfs]
  split <;> rfl

theorem dir_mkfs (h : mkfs.tree.type d = .dir) : d = rootino := by
  rw [tree_mkfs_type] at h
  split at h
  · assumption
  · cases h

theorem linked_mkfs : mkfs.tree.Linked := by
  have hroot : mkfs.tree.type rootino = .dir := tree_mkfs_type rootino
  have hentry : mkfs.tree.entry rootino = mkfs.entry rootino := Fs.tree_entry_of_dir hroot
  have hlive : mkfs.tree.Live rootino := ⟨hroot, by rw [tree_mkfs_nlink, if_pos rfl]; decide⟩
  have hsmall {k : ℕ} (hk : 2 ≤ k) : (mkfs.tree.entry rootino k).inum = 0 := by
    rw [hentry]
    by_contra hne
    have hlt := (entry_mkfs_inum hne).2
    omega
  have hchild (d k e : ℕ) : ¬ mkfs.tree.Child d k e := by
    intro hc
    have hzero := hsmall hc.two_le
    rw [← dir_mkfs hc.live.1, hc.inum_eq] at hzero
    exact hc.ne_zero hzero
  have hlinks (i : ℕ) (hi : i ≠ 0) (x : ℕ × ℕ) : x ∈ mkfs.tree.links i ↔ x = (rootino, 1) ∧ i = rootino := by
    constructor
    · rintro ⟨hl, hinum, hname⟩
      have hd := dir_mkfs hl.1
      rw [hd] at hinum hname
      have hk : x.2 = 1 := by
        rcases Nat.lt_trichotomy x.2 1 with hlt | heq | hgt
        · have hzero : x.2 = 0 := by omega
          rw [hzero, hentry, entry_mkfs_zero] at hname
          exact absurd (dirKey_strncpy dot) hname
        · exact heq
        · exact absurd (hinum.symm.trans (hsmall hgt)) hi
      rw [hk, hentry, entry_mkfs_one] at hinum
      exact ⟨Prod.ext hd hk, hinum.symm⟩
    · rintro ⟨rfl, rfl⟩
      refine ⟨hlive, ?_⟩
      dsimp only
      rw [hentry, entry_mkfs_one]
      refine ⟨rfl, ?_⟩
      rw [dirKey_strncpy]
      exact Tree.dot_ne_dotdot
  refine ⟨fun i hi => ?_, fun i hi => ?_, fun i hi => ?_, fun d hd => ?_, fun d hd => ?_, fun d k hd hk hne => ?_, fun d k hd _ hk => ?_,
    fun d k e hc => absurd hc (hchild d k e), fun d k _ _ e hc => absurd hc (hchild d k e), hlive, ?_, fun d k => hchild d k rootino, fun d hd => ?_⟩
  · rw [tree_mkfs_type] at hi
    split at hi
    · rename_i heq
      rw [heq]
      decide
    · exact absurd rfl hi
  · rw [tree_mkfs_type] at hi
    rw [tree_mkfs_nlink]
    split at hi
    · cases hi
    · rename_i hne
      rw [if_neg hne]
  · rw [tree_mkfs_nlink]
    split
    · rename_i heq
      have hset : mkfs.tree.links i = {(rootino, 1)} := by
        ext x
        rw [hlinks i hi, Set.mem_singleton_iff]
        exact and_iff_left heq
      rw [hset]
      exact .singleton _
    · rename_i hne
      have hset : mkfs.tree.links i = ∅ := by
        ext x
        rw [hlinks i hi]
        exact iff_of_false (fun hc => hne hc.2) (Set.notMem_empty x)
      rw [hset]
      exact .empty
  · rw [dir_mkfs hd, hentry, entry_mkfs_zero]
    exact ⟨rfl, dirKey_strncpy dot⟩
  · rw [dir_mkfs hd, hentry, entry_mkfs_one]
    exact ⟨by decide, dirKey_strncpy dotdot⟩
  · rw [dir_mkfs hd] at hne
    exact absurd (hsmall hk) hne
  · rw [dir_mkfs hd]
    exact hsmall hk
  · rw [hentry, entry_mkfs_one]
  · rw [dir_mkfs hd.1]
    exact .root

/-! ### Runs -/

/-- The call fits the state: the names that it may add are for directories with links, and the inodes that it may link have fewer links than a `short` can count. -/
def System.Fits (s : System) (proc : Process) (call : Call) : Prop := s.fs.tree.Fits (call.intent s.fs.tree proc.cwd)

theorem linked_boot (h : fs.tree.Linked) : (boot fs).fs.tree.Linked := by
  have htree : (boot fs).fs.tree = fs.tree.get rootino := fs.tree_got rootino
  rw [htree]
  exact h.fades (.of_same rfl rfl rfl)

theorem Fs.Image.linked (h : fs.Image) (hl : fs.tree.Linked) (hs : Reachable (· = boot fs) (System.StepIf System.Fits) s) : s.fs.tree.Linked := by
  refine Reachable.invariant (I := fun s => s.fs.tree.Linked) (fun s0 h0 => ?_) (fun s s' hs hlinked hstep => ?_) hs
  · rw [h0]
    exact linked_boot hl
  · have hgood := h.good (hs.mono fun _ _ => System.StepIf.stepOf)
    obtain ⟨p, proc, call, r, hproc, hfits, hrun⟩ := hstep
    exact hlinked.effect hfits (hgood.ran hproc hrun).effect

theorem links_exact (hs : Reachable (· = boot mkfs) (System.StepIf System.Fits) s) (hi : (s.fs.dinodes i).type ≠ .free) :
    (s.fs.dinodes i).nlink.toInt = s.fs.linkCount i ∧ (0 < (s.fs.dinodes i).nlink → s.fs.FromRoot i) := by
  have hlinked := image_mkfs.linked linked_mkfs hs
  have hsane := (image_mkfs.good (hs.mono fun _ _ => System.StepIf.stepOf)).balanced.sane
  have hnlink : s.fs.tree.nlink i = (s.fs.dinodes i).nlink := by rw [← hsane.cur_eq]; rfl
  have htype : s.fs.tree.type i = (s.fs.dinodes i).type := by rw [← hsane.cur_eq]; rfl
  have hpos : i ≠ 0 := Nat.ne_of_gt (hlinked.range i (by rw [htype]; exact hi)).1
  rw [← hnlink, hsane.linkCount_eq hpos]
  exact ⟨(hlinked.count i hpos).eq.symm, fun h => hsane.fromRoot (hlinked.rooted_of_nlink hpos h)⟩

/-- The root is the only directory of the first image, so that every call but `link` fits it. -/
theorem fits_boot_mkfs {proc : Process} {call : Call} (hlinks : ∀ ip, ¬ (call.intent (boot mkfs).fs.tree proc.cwd).links ip) :
    (boot mkfs).Fits proc call := by
  have htree : (boot mkfs).fs.tree = mkfs.tree.get rootino := mkfs.tree_got rootino
  refine ⟨fun dp name _ hdir _ => ?_, fun ip hip => absurd hip (hlinks ip)⟩
  rw [htree] at hdir ⊢
  rw [show dp = rootino from dir_mkfs hdir]
  exact linked_mkfs.root_live.2

theorem System.fits_of_quiet {proc : Process} {call : Call}
    (hadds : ∀ dp name, ¬ (call.intent s.fs.tree proc.cwd).adds dp name)
    (hlinks : ∀ ip, ¬ (call.intent s.fs.tree proc.cwd).links ip) :
    s.Fits proc call :=
  ⟨fun dp name h => absurd h (hadds dp name), fun ip h => absurd h (hlinks ip)⟩

theorem System.StepIf.of_next {P : System → Process → Call → Prop} {p : ℕ} {call : Call}
    (h : s.next (p, call) = some s') (hcall : ∀ proc, s.procs p = some proc → P s proc call) :
    System.StepIf P s s' := by
  obtain ⟨proc, r, hproc, hrun⟩ := System.next_eq_some h
  exact ⟨p, proc, call, r, hproc, hcall proc hproc, hrun⟩

theorem reachable_boot (P : System → Process → Call → Prop) :
    Reachable (· = boot fs) (System.StepIf P) (boot fs) :=
  .of_init rfl

/-- The first process makes a directory `d`, goes into it and removes it. -/
def removeCwd : List (ℕ × Call) :=
  [(0, .mkdir [100]), (0, .chdir [100]), (0, .unlink [47, 100])]

/-- A process has removed the directory it is in, which still has its inode. -/
theorem links_exact_removed :
    ∃ s, Reachable (· = boot mkfs) (System.StepIf System.Fits) s ∧
      (s.fs.dinodes 2).type = .dir ∧ (s.fs.dinodes 2).nlink = 0 ∧
      (s.fs.dinodes 2).nlink.toInt = s.fs.linkCount 2 ∧
      (0 < (s.fs.dinodes 2).nlink → s.fs.FromRoot 2) := by
  have hrun : (runSchedule System.next (boot mkfs) removeCwd).map (fun s =>
      decide ((s.fs.dinodes 2).type = .dir ∧ (s.fs.dinodes 2).nlink = 0)) = some true := by
    decide +kernel
  obtain ⟨s, hs, hlast⟩ := Option.map_eq_some_iff.mp hrun
  simp only [removeCwd, runSchedule, Option.bind_eq_some_iff, Option.some.injEq] at hs
  obtain ⟨s1, hmkdir, s2, hchdir, _, hunlink, rfl⟩ := hs
  have hreach := (((reachable_boot System.Fits).tail
    (.of_next hmkdir fun _ _ => fits_boot_mkfs fun _ => id)).tail
    (.of_next hchdir fun _ _ => System.fits_of_quiet (fun _ _ => id) fun _ => id)).tail
    (.of_next hunlink fun _ _ => System.fits_of_quiet (fun _ _ => id) fun _ => id)
  obtain ⟨htype, hnlink⟩ := of_decide_eq_true hlast
  exact ⟨_, hreach, htype, hnlink, links_exact hreach (by rw [htype]; decide)⟩

/-- A process removes the directory it is in and then makes a file there: the file has a link and no directory with links has an entry for it. -/
theorem links_removed_cwd : ∃ s, Reachable (· = boot mkfs) (StepOf System.next) s ∧
    (s.fs.dinodes 3).type = .file ∧ (s.fs.dinodes 3).nlink = 1 ∧ s.fs.linkCount 3 = 0 := by
  exact exists_reachable_of_schedule rfl (removeCwd ++ [(0, .openPath [102] 0x202)])
    (by decide +kernel)

end AdvancedXv6.FileSystem
