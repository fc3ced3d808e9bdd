import AdvancedXv6.FileSystem.LinkCounts

/-!
# Lookups come across no free inode

`namex` follows entries without a look at the links of the directory that it is in, and `ilock` panics at a free inode. From directories with links the entries lead to inodes with links. A directory that has been removed is left only to the processes that are in it, and of its entries `.` and `..` are left: `..` is not counted any more, so that the directory above may be removed and freed while `..` still names it. Where no call does this, and calls run one after the other, no call comes across a free inode.
-/

namespace AdvancedXv6.FileSystem

open Prog Transition

/-! ### The directory above -/

namespace Tree

variable {t t' : Tree} {d i k q : ℕ} {I : Intent}

/-- A directory that has no links after a call was a directory before it, with the same `..`. -/
theorem Change.up_eq (hc : t.Change I t') (hdir : t'.type d = .dir) (hzero : t'.nlink d = 0) :
    t.type d = .dir ∧ (t'.entry d 1).inum = (t.entry d 1).inum := by
  cases hc with
  | fades hs =>
    obtain ⟨hold, hentry, _⟩ := hs.entry_eq hdir
    rw [hentry]
    exact ⟨hold, rfl⟩
  | attach t1 dp k name ip h1 _ hsame ha hs =>
    obtain ⟨hold, hentry, hnlink⟩ := hs.entry_eq hdir
    have hne : d ≠ ip := by
      rintro rfl
      have hlive : (t1.attach dp k name d).Live d := (ha.live_iff h1).mpr (.inr ⟨rfl, by rwa [type_attach] at hold⟩)
      exact hlive.ne_zero (hnlink.symm.trans hzero)
    rw [type_attach] at hold
    obtain ⟨hdir0, hentry0⟩ := hsame d hne hold
    rw [hentry, ha.entry_up h1 (by decide), hentry0]
    exact ⟨hdir0, rfl⟩
  | unlink t1 dp k name ip h1 hs1 _ hr hs =>
    obtain ⟨hold, hentry, _⟩ := hs.entry_eq hdir
    rw [type_unlink] at hold
    obtain ⟨hdir0, hentry0, _⟩ := hs1.entry_eq hold
    rw [hentry, hr.entry_up h1 (by decide), hentry0]
    exact ⟨hdir0, rfl⟩

def Removes (t : Tree) (I : Intent) (q : ℕ) : Prop := ∃ dp k name, I.removes dp name ∧ (t.entry dp k).Names name ∧ (t.entry dp k).inum = q

/-- A directory with links has links after a call that does not remove it. A directory that is removed was empty. -/
theorem Change.live (hc : t.Change I t') (hq : t.Live q) : t'.Live q ∨ (t.Removes I q ∧ q ≠ rootino ∧ ∀ k e, ¬ t.Child q k e) := by
  cases hc with
  | fades hs => exact .inl ((hs.sameLive.live_iff q).mpr hq)
  | attach t1 dp k name ip h1 hlive _ ha hs =>
    refine .inl ((hs.sameLive.live_iff q).mpr ?_)
    exact (ha.live_iff h1).mpr (.inl ((hlive.live_iff q).mpr hq))
  | unlink t1 dp k name ip h1 hs1 hremoves hr hs =>
    by_cases hip : q = ip
    · subst hip
      refine .inr ⟨⟨dp, k, name, hremoves, ?_⟩, ?_, fun l e hc => ?_⟩
      · rw [← (hs1.entry_eq hr.dir).2.1]
        exact ⟨hr.names, hr.inum_eq⟩
      · rintro rfl
        exact h1.root_top dp k (hr.child h1)
      · exact hr.no_child (hs1.sameLive.child_iff.mpr hc)
    · refine .inl ((hs.sameLive.live_iff q).mpr ?_)
      exact (hr.live_iff h1).mpr ⟨(hs1.sameLive.live_iff q).mpr hq, fun heq => hip heq.1⟩

/-- A directory with links is not above one that is removed with it. -/
theorem Linked.up_kept (h : t.Linked) (hc : t.Change I t') (hd : t.Live d) : t'.Live (t.entry d 1).inum := by
  refine (hc.live (h.up_live hd)).resolve_right fun hremoved => ?_
  obtain ⟨_, hroot, hempty⟩ := hremoved
  by_cases hd' : d = rootino
  · rw [hd'] at hroot
    exact hroot h.root_up
  · obtain ⟨p, k, hchild⟩ := h.exists_child hd hd'
    rw [h.parent p k d hchild hd.1] at hempty
    exact hempty k d hchild

end Tree

/-! ### Processes in removed directories -/

variable {s s' : System} {p i j : ℕ} {proc : Process}

def System.Anchored (s : System) : Prop := ∀ p proc, s.procs p = some proc → s.fs.tree.Live (s.fs.tree.entry proc.cwd 1).inum

/-- The call does not remove a directory that `..` names in a directory without links that a process is in. -/
def System.Spares (s : System) (proc : Process) (call : Call) : Prop :=
  ∀ p proc', s.procs p = some proc' → s.fs.tree.nlink proc'.cwd = 0 →
    ¬ s.fs.tree.Removes (call.intent s.fs.tree proc.cwd) (s.fs.tree.entry proc'.cwd 1).inum

/-- The inodes that paths may lead to: those with links, and the directories that processes are in. -/
def System.Visited (s : System) (i : ℕ) : Prop := (s.fs.tree.type i ≠ .free ∧ 0 < s.fs.tree.nlink i) ∨ ∃ p proc, s.procs p = some proc ∧ proc.cwd = i

theorem System.Anchored.up_live (ha : s.Anchored) (hl : s.fs.tree.Linked) (hv : s.Visited i) (hdir : s.fs.tree.type i = .dir) :
    s.fs.tree.Live (s.fs.tree.entry i 1).inum := by
  rcases hv with ⟨_, hpos⟩ | ⟨p, proc, hp, rfl⟩
  · exact hl.up_live ⟨hdir, hpos⟩
  · exact ha p proc hp

theorem System.Good.used (h : s.Good) (hv : s.Visited i) : s.fs.tree.type i ≠ .free := by
  rcases hv with ⟨hused, _⟩ | ⟨p, proc, hp, rfl⟩
  · exact hused
  · rw [h.cwd_dir p proc hp]
    exact FileType.noConfusion

section

variable (ha : s.Anchored) (h : s.Good) (hl : s.fs.tree.Linked)
include ha h hl

/-- Entries lead from inodes that may be visited to inodes that may be visited. -/
theorem System.Anchored.guarded : s.fs.tree.Guarded s.fs.tree.ref s.Visited := by
  refine ⟨fun i hv => h.used hv, fun i hv href => ?_, fun i k hv hne => ?_⟩
  · rcases hv with ⟨_, hpos⟩ | ⟨p, proc, hp, rfl⟩
    · intro hzero
      rw [hzero] at hpos
      exact absurd hpos (by decide)
    · exact absurd href (Nat.ne_of_gt (h.balanced.ref_pos (h.cwd_pos hp)))
  · have hdir : s.fs.tree.type i = .dir := by
      by_contra hno
      exact hne (congrArg Dirent.inum (if_neg hno))
    rcases Nat.lt_trichotomy k 1 with hlt | rfl | hgt
    · obtain rfl : k = 0 := by omega
      rw [(hl.dot i hdir).1]
      exact hv
    · have hup := ha.up_live hl hv hdir
      exact .inl ⟨hup.used, hup.2⟩
    · rcases hl.live_or hdir with hlive | hzero
      · exact .inl (hl.used_of_links hne ⟨(i, k), hl.mem_links_of_child ⟨hlive, hgt, rfl, hne⟩⟩)
      · exact absurd (hl.empty i k hdir hzero hgt) hne

/-- A call in such a state does not panic at a free inode. -/
theorem System.Anchored.caller (hp : s.procs p = some proc) :
    s.Caller s.Visited (· ≠ .ilockNoType) p proc := by
  refine ⟨h, hp, fun _ hne _ => hne, .inr ⟨ha.guarded h hl, .inl ⟨hl.root_live.used, hl.root_live.2⟩, fun q proc' hq => .inr ⟨q, proc', hq, rfl⟩,
    fun i hv hzero => ?_⟩⟩
  have hpos : i ≠ 0 := Nat.ne_of_gt (hl.range i (h.used hv)).1
  have hnonneg := hl.nonneg hpos
  have heq : s.fs.tree.nlink i = -1 := by grind
  rw [heq] at hnonneg
  exact absurd hnonneg (by decide)

theorem System.Anchored.step (hp : s.procs p = some proc) {call : Call} {r : ℤ}
    (hfits : s.Fits proc call) (hspares : s.Spares proc call) (hrun : call.run p proc s = .ok (r, s')) : s'.Anchored := by
  have hran := ((ha.caller h hl hp).post_run call).of_ok hrun
  have hchange := hl.change hfits hran.effect
  have hl' := hl.of_change hchange
  intro q proc' hq
  have hdir := hran.good.cwd_dir q proc' hq
  rcases hl'.live_or hdir with hlive | hzero
  · exact hl'.up_live hlive
  -- the directory has no links after the call, so its `..` is that from before
  obtain ⟨hold, hup⟩ := hchange.up_eq hdir hzero
  have hv := (hran.cwds q proc' hq).resolve_left fun hne => hne rfl
  rw [hup]
  rcases hl.live_or hold with hlive | hzero'
  · exact hl.up_kept hchange hlive
  · refine (hchange.live (ha.up_live hl hv hold)).resolve_right fun hremoved => ?_
    rcases hv with ⟨_, hpos⟩ | ⟨p', proc'', hp', heq⟩
    · rw [hzero'] at hpos
      exact absurd hpos (by decide)
    · rw [← heq] at hzero' hremoved
      exact hspares p' proc'' hp' hzero' hremoved.1

end

/-! ### Runs -/

/-- Following a path from an inode, `namex` may follow an entry to `j`. -/
inductive Fs.Follows (s : Fs) : ℕ → List UInt8 → ℕ → Prop where
  | here {ip k : ℕ} {path name rest : List UInt8} : (s.dinodes ip).type = .dir → skipelem path = some (name, rest) → (s.entry ip k).Names name →
      Follows s ip path (s.entry ip k).inum
  | next {ip k j : ℕ} {path name rest : List UInt8} : (s.dinodes ip).type = .dir → skipelem path = some (name, rest) → (s.entry ip k).Names name →
      Follows s (s.entry ip k).inum rest j → Follows s ip path j

theorem Fs.Sane.entry_eq_tree {fs : Fs} (h : fs.Sane) {d : ℕ} (hd : (fs.dinodes d).type = .dir) : fs.entry d = fs.tree.entry d := by
  rw [← h.cur_eq] at hd
  exact (Fs.tree_entry_of_dir hd).symm

theorem Fs.Follows.visited {fs : Fs} (h : fs.Sane) {b : ℕ → ℕ} {V : ℕ → Prop} (hg : fs.tree.Guarded b V) {ip : ℕ} {path : List UInt8}
    (hf : fs.Follows ip path j) (hv : V ip) : V j := by
  induction hf with
  | here hdir _ hnames =>
    have hinum := hnames.1
    rw [h.entry_eq_tree hdir] at hinum ⊢
    exact hg.closed _ _ hv hinum
  | next hdir _ hnames _ ih =>
    have hinum := hnames.1
    refine ih ?_
    rw [h.entry_eq_tree hdir] at hinum ⊢
    exact hg.closed _ _ hv hinum

/-- The call makes no entry in a directory without links, wraps no link count, and removes no directory above a removed one that a process is in. -/
def System.Careful (s : System) (proc : Process) (call : Call) : Prop := s.Fits proc call ∧ s.Spares proc call

theorem cwd_boot {fs : Fs} (hp : (boot fs).procs p = some proc) : proc.cwd = rootino := by
  unfold boot at hp
  dsimp only at hp
  rw [Function.update_apply] at hp
  split at hp
  · cases hp
    rfl
  · cases hp

theorem anchored_boot {fs : Fs} (hl : fs.tree.Linked) : (boot fs).Anchored := by
  intro p proc hp
  have hlinked := linked_boot hl
  rw [cwd_boot hp, hlinked.root_up]
  exact hlinked.root_live

theorem Fs.Image.anchored {fs : Fs} (h : fs.Image) (hl : fs.tree.Linked) (hs : Reachable (· = boot fs) (System.StepIf System.Careful) s) :
    s.fs.tree.Linked ∧ s.Anchored := by
  refine Reachable.invariant (I := fun s => s.fs.tree.Linked ∧ s.Anchored) (fun s0 h0 => ?_) (fun s s' hs hinv hstep => ?_) hs
  · rw [h0]
    exact ⟨linked_boot hl, anchored_boot hl⟩
  · have hgood := h.good (hs.mono fun _ _ => System.StepIf.stepOf)
    obtain ⟨p, proc, call, r, hproc, ⟨hfits, hspares⟩, hrun⟩ := hstep
    exact ⟨hinv.1.effect hfits (hgood.ran hproc hrun).effect, hinv.2.step hgood hinv.1 hproc hfits hspares hrun⟩

theorem lookups_used (hs : Reachable (· = boot mkfs) (System.StepIf System.Careful) s) (hp : s.procs p = some proc) :
    (∀ path j, s.fs.Follows (namexStart proc.cwd path) path j → (s.fs.dinodes j).type ≠ .free) ∧
    ∀ call : Call, call.run p proc s ≠ .error .ilockNoType := by
  obtain ⟨hl, ha⟩ := image_mkfs.anchored linked_mkfs hs
  have hgood := image_mkfs.good (hs.mono fun _ _ => System.StepIf.stepOf)
  have hcaller := ha.caller hgood hl hp
  refine ⟨fun path j hf => ?_, fun call hrun => (hcaller.post_run call).of_error hrun rfl⟩
  have hstart : s.Visited (namexStart proc.cwd path) := by
    unfold namexStart
    split
    · exact .inl ⟨hl.root_live.used, hl.root_live.2⟩
    · exact .inr ⟨p, proc, hp, rfl⟩
  have hused := hgood.used (hf.visited hgood.balanced.sane (ha.guarded hgood hl) hstart)
  rw [← hgood.balanced.sane.cur_eq]
  exact hused

theorem System.spares_of_quiet {call : Call}
    (h : ∀ dp name, ¬ (call.intent s.fs.tree proc.cwd).removes dp name) : s.Spares proc call :=
  fun _ _ _ _ ⟨dp, _, name, hremoves, _⟩ => h dp name hremoves

theorem System.Good.spares_of_nlink (h : s.Good) {call : Call}
    (hnlink : ∀ q < nproc, ∀ proc' ∈ s.procs q, s.fs.tree.nlink proc'.cwd ≠ 0) :
    s.Spares proc call := by
  intro q proc' hq hzero
  have hlt : q < nproc := by
    by_contra hge
    rw [h.procs_lt q (Nat.le_of_not_lt hge)] at hq
    cases hq
  exact absurd hzero (hnlink q hlt proc' hq)

/-- A process has removed the directory it is in. It may look up any path and make any call. -/
theorem lookups_used_removed :
    ∃ s proc, Reachable (· = boot mkfs) (System.StepIf System.Careful) s ∧
      s.procs 0 = some proc ∧ proc.cwd = 2 ∧ (s.fs.dinodes 2).nlink = 0 ∧
      (∀ path j, s.fs.Follows (namexStart proc.cwd path) path j → (s.fs.dinodes j).type ≠ .free) ∧
      ∀ call : Call, call.run 0 proc s ≠ .error .ilockNoType := by
  have hrun : (runSchedule System.next (boot mkfs) removeCwd).map (fun s =>
      decide ((s.procs 0).map Process.cwd = some 2 ∧ (s.fs.dinodes 2).nlink = 0)) = some true := by
    decide +kernel
  have hbefore : (runSchedule System.next (boot mkfs) (removeCwd.take 2)).map (fun s =>
      decide (∀ q < nproc, ∀ proc ∈ s.procs q, s.fs.tree.nlink proc.cwd ≠ 0)) = some true := by
    decide +kernel
  obtain ⟨s, hs, hlast⟩ := Option.map_eq_some_iff.mp hrun
  simp only [removeCwd, runSchedule, Option.bind_eq_some_iff, Option.some.injEq] at hs
  obtain ⟨s1, hmkdir, s2, hchdir, _, hunlink, rfl⟩ := hs
  have hreach := ((reachable_boot System.Careful).tail
    (.of_next hmkdir fun _ _ =>
      ⟨fits_boot_mkfs fun _ => id, System.spares_of_quiet fun _ _ => id⟩)).tail
    (.of_next hchdir fun _ _ =>
      ⟨System.fits_of_quiet (fun _ _ => id) fun _ => id, System.spares_of_quiet fun _ _ => id⟩)
  have hgood := image_mkfs.good (hreach.mono fun _ _ => System.StepIf.stepOf)
  simp only [removeCwd, List.take, runSchedule, hmkdir, hchdir, Option.bind_some, Option.map_some,
    Option.some.injEq, decide_eq_true_eq] at hbefore
  have hreach := hreach.tail (.of_next hunlink fun _ _ =>
    ⟨System.fits_of_quiet (fun _ _ => id) fun _ => id, hgood.spares_of_nlink hbefore⟩)
  obtain ⟨hcwd, hnlink⟩ := of_decide_eq_true hlast
  obtain ⟨proc, hproc, hcwd⟩ := Option.map_eq_some_iff.mp hcwd
  exact ⟨_, proc, hreach, hproc, hcwd, hnlink, lookups_used hreach hproc⟩

/-- A process in a directory that has been removed goes up, after the directory above has been removed too. -/
theorem lookup_removed_parent : ∃ s, Reachable (· = boot mkfs) (StepOf System.next) s ∧
    ∃ proc, s.procs 0 = some proc ∧ Call.run 0 proc (.chdir [46, 46]) s = .error .ilockNoType := by
  obtain ⟨s, hs, hpanics⟩ : ∃ s, Reachable (· = boot mkfs) (StepOf System.next) s ∧
      ((s.procs 0).elim false fun proc => match Call.run 0 proc (.chdir [46, 46]) s with
        | .error .ilockNoType => true
        | _ => false) = true :=
    exists_reachable_of_schedule rfl [(0, .mkdir [97]), (0, .mkdir [97, 47, 98]),
      (0, .chdir [97, 47, 98]), (0, .unlink [47, 97, 47, 98]), (0, .unlink [47, 97])]
      (by decide +kernel)
  refine ⟨s, hs, ?_⟩
  cases hproc : s.procs 0 with
  | none =>
    rw [hproc] at hpanics
    cases hpanics
  | some proc =>
    rw [hproc] at hpanics
    dsimp only [Option.elim] at hpanics
    split at hpanics
    · rename_i herror
      exact ⟨proc, rfl, herror⟩
    · cases hpanics

end AdvancedXv6.FileSystem
