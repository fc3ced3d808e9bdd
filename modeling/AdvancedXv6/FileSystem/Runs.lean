import AdvancedXv6.FileSystem.Processes

/-!
# Runs of calls

A state between calls is good, and a call by any process keeps it so, does to the tree what it is about, and leaves every process in a directory. Where free inodes are to be avoided, a call also leaves the processes among the inodes that are safe to visit.
-/

namespace AdvancedXv6.FileSystem

open Function Prog Weights

def Call.intent (t : Tree) (cwd : ℕ) : Call → Intent
  | .openPath path omode =>
    match argstr path with
    | none => .none
    | some path => if omode &&& oCreate ≠ 0 then .create t cwd path else .none
  | .mkdir path =>
    match argstr path with
    | none => .none
    | some path => .create t cwd path
  | .mknod path _ =>
    match argstr path with
    | none => .none
    | some path => .create t cwd path
  | .link old new =>
    match argstr old with
    | none => .none
    | some old =>
      match argstr new with
      | none => .none
      | some new => .link t cwd old new
  | .unlink path =>
    match argstr path with
    | none => .none
    | some path => .unlink t cwd path
  | _ => .none

variable {q ip : ℕ} {proc' : Process} {fs : Fs} {o : Option Process} {r : ℤ} {dinode : Dinode} {omode : UInt32}

namespace System

/-- Where coming across a free inode is to be excluded, the inodes in `V` are safe to visit and all processes are in them. -/
def Safe (s : System) (V : ℕ → Prop) (E : Panic → Prop) : Prop :=
  E .ilockNoType ∨ (s.fs.tree.Guarded s.fs.tree.ref V ∧ V rootino ∧ (∀ p proc, s.procs p = some proc → V proc.cwd) ∧
    ∀ i, V i → s.fs.tree.nlink i + 1 ≠ 0)

structure Caller (s : System) (V : ℕ → Prop) (E : Panic → Prop) (p : ℕ) (proc : Process) : Prop where
  good : s.Good
  proc_eq : s.procs p = some proc
  tolerates : Tolerates E
  safe : s.Safe V E

structure Ran (s s' : System) (V : ℕ → Prop) (E : Panic → Prop) (I : Intent) : Prop where
  good : s'.Good
  effect : s.fs.tree.Effect I s'.fs.tree
  cwds : ∀ p proc, s'.procs p = some proc → E .ilockNoType ∨ V proc.cwd

variable {s s' : System} {V : ℕ → Prop} {E : Panic → Prop} {p f fd i : ℕ} {proc : Process} {I : Intent} {c d : ℕ → ℕ} {path : List UInt8}

section

variable (h : s.Caller V E p proc)
include h

theorem Caller.cwd_safe (hq : s.procs q = some proc') : E .ilockNoType ∨ V proc'.cwd :=
  h.safe.imp_right fun hg => hg.2.2.1 q proc' hq

theorem Caller.ready : Ready s.fs s.fs.tree.ref [] V E proc.cwd where
  sane := h.good.balanced.sane
  holds := s.fs.tree.holds_nil
  cwd_pos := h.good.balanced.ref_pos (h.good.cwd_pos h.proc_eq)
  unheld i hfree := Nat.eq_zero_of_not_pos fun hpos => h.good.balanced.used i hpos hfree
  tolerates := h.tolerates
  safe := h.safe.imp_right fun hg => ⟨hg.1, hg.2.1, hg.2.2.1 p proc h.proc_eq⟩

theorem Caller.ran (hprocs : s'.procs = s.procs) (hb : s'.Balanced s.cwdRefs s.fdRefs)
    (htype : ∀ i, 0 < s.cwdRefs i → s'.fs.tree.type i = s.fs.tree.type i) (heffect : s.fs.tree.Effect I s'.fs.tree) : s.Ran s' V E I := by
  refine ⟨⟨?_, fun q proc' hq => ?_, ?_, ?_⟩, heffect, fun q proc' hq => ?_⟩
  · unfold System.cwdRefs System.fdRefs
    rw [hprocs]
    exact hb
  · rw [hprocs] at hq
    rw [htype _ (h.good.cwd_pos hq)]
    exact h.good.cwd_dir q proc' hq
  · rw [hprocs]
    exact h.good.procs_lt
  · rw [hprocs]
    exact h.good.fd_lt
  · rw [hprocs] at hq
    exact h.cwd_safe hq

theorem Caller.ran_self : s.Ran s V E I :=
  h.ran rfl h.good.balanced (fun _ _ => rfl) (.quiet (.refl _ _))

theorem Caller.ran_fs (ho : Outcome s.fs fs s.fs.tree.ref [] I) : s.Ran { s with fs } V E I := by
  have hb := h.good.balanced.of_outcome ho fun i hi => absurd hi (List.not_mem_nil)
  simp only [List.count_nil, Nat.add_zero] at hb
  exact h.ran rfl hb (fun i hi => ho.types i (h.good.balanced.ref_pos hi)) ho.effect

theorem Caller.post_fs {α : Type} {x : FsM α}
    (hx : Post x s.fs (fun _ fs => Outcome s.fs fs s.fs.tree.ref [] I) E) : Post (onFs x) s (fun _ s' => s.Ran s' V E I) E :=
  post_onFs (hx.mono (fun _ _ ho => h.ran_fs ho) fun _ he => he)

end

/-! ### Calls on open files -/

theorem Balanced.of_same (h : s.Balanced c d) (hsane : fs.Sane) (href : fs.tree.ref = s.fs.tree.ref) (htype : fs.tree.type = s.fs.tree.type) :
    ({ s with fs } : System).Balanced c d := by
  refine h.of_fs hsane (fun i => ?_) (fun i hi => ?_) fun i _ => congrFun htype i
  · rw [href]
    exact h.refs i
  · rw [href] at hi
    rw [htype]
    exact h.used i hi

theorem Balanced.setOff (h : s.Balanced c d) (hf : (s.ftable f).type ≠ .none) (off : UInt32) :
    (s.setFile f { s.ftable f with off }).Balanced c d := by
  have hset : (s.setFile f { s.ftable f with off }).Balanced c (update d f (s.ftable f).ref) :=
    h.setFile (h.lt_of_type hf) (fun i => rfl) (h.idle f) (h.writable f)
  have hsame : update d f (s.ftable f).ref = d := by
    rw [h.files f, update_eq_self]
  rw [hsame] at hset
  exact hset

structure Touched (s s' : System) : Prop where
  procs_eq : s'.procs = s.procs
  balanced : s'.Balanced s.cwdRefs s.fdRefs
  type_eq : s'.fs.tree.type = s.fs.tree.type
  nlink_eq : s'.fs.tree.nlink = s.fs.tree.nlink
  entry_eq : s'.fs.tree.entry = s.fs.tree.entry

theorem Caller.ran_touched (h : s.Caller V E p proc) (ht : s.Touched s') : s.Ran s' V E I :=
  h.ran ht.procs_eq ht.balanced (fun i _ => congrFun ht.type_eq i) (.quiet (.of_same ht.type_eq ht.nlink_eq ht.entry_eq))

theorem Caller.post_ilock (h : s.Caller V E p proc) (hf : (s.ftable f).type ≠ .none) {Q : Unit → System → Prop}
    (hQ : ∀ fs : Fs, s.Touched { s with fs } → fs.tree.loaded (s.ftable f).ip = true → Q () { s with fs }) :
    Post (onFs (ilock (s.ftable f).ip)) s Q E := by
  have hb := h.good.balanced
  have hpos := hb.ref_pos_of_type hf
  refine post_onFs (hb.sane.post_ilock hpos (fun hfree => absurd hfree (hb.used _ hpos)) fun fs hsane htree _ => ?_)
  refine hQ fs ⟨rfl, hb.of_same hsane (by rw [htree]; rfl) (by rw [htree]; rfl), ?_, ?_, ?_⟩ (by rw [htree]; exact lock_loaded ..)
  all_goals
    rw [htree]
    rfl

theorem Touched.setOff (h : s.Touched s') (hftable : s'.ftable = s.ftable) (hf : (s.ftable f).type ≠ .none) (off : UInt32) :
    s.Touched (s'.setFile f { s'.ftable f with off }) :=
  ⟨h.procs_eq, h.balanced.setOff (by rw [hftable]; exact hf) off, h.type_eq, h.nlink_eq, h.entry_eq⟩

section

variable (h : s.Caller V E p proc)
include h

theorem Caller.post_fileread {copyout : ℕ → ℕ → Bool} {n : UInt32} :
    Post (fileread f copyout n) s (fun _ s' => s.Ran s' V E I) E := by
  refine Post.bind (Post.get ?_)
  dsimp only
  split
  · split
    · exact Post.panic (h.tolerates _ nofun nofun)
    · exact Post.pure h.ran_self
    · rename_i htype
      have hf : (s.ftable f).type ≠ .none := by
        rw [htype]
        exact nofun
      refine Post.bind (h.post_ilock hf fun fs ht hl => Post.bind (post_onFs (ht.balanced.sane.post_readi hl fun r => ?_)))
      cases r with
      | none => exact Post.pure (h.ran_touched ht)
      | some bytes => exact Post.bind (Post.modify (Post.pure (h.ran_touched (ht.setOff rfl hf _))))
  · exact Post.pure h.ran_self

theorem Caller.post_filewrite {src : Source} {n : Int32} : Post (filewrite f src n) s (fun _ s' => s.Ran s' V E I) E := by
  refine Post.bind (Post.get ?_)
  dsimp only
  split
  · rename_i hwritable
    split
    · exact Post.panic (h.tolerates _ nofun nofun)
    · exact Post.pure h.ran_self
    · rename_i htype
      have hf : (s.ftable f).type ≠ .none := by
        rw [htype]
        exact nofun
      have hfile := h.good.balanced.writable f htype hwritable
      split
      · refine Post.bind (h.post_ilock hf fun fs ht hl => Post.bind (post_onFs ?_))
        refine ht.balanced.sane.post_writei hl (by rw [ht.type_eq]; exact hfile) fun r fs' hsane htree => ?_
        have ht' : s.Touched { s with fs := fs' } := by
          refine ⟨rfl, ht.balanced.of_same hsane (by rw [htree]) (by rw [htree]), ?_, ?_, ?_⟩
          · exact (congrArg Tree.type htree).trans ht.type_eq
          · exact (congrArg Tree.nlink htree).trans ht.nlink_eq
          · exact (congrArg Tree.entry htree).trans ht.entry_eq
        split
        · exact Post.bind (Post.modify (Post.pure (h.ran_touched (ht'.setOff rfl hf _))))
        · exact Post.pure (h.ran_touched ht')
      · exact Post.pure h.ran_self
  · exact Post.pure h.ran_self

theorem Caller.post_filestat : Post (filestat f) s (fun _ s' => s.Ran s' V E I) E := by
  refine Post.bind (Post.get ?_)
  split
  · exact Post.pure h.ran_self
  · rename_i hf
    exact Post.bind (h.post_ilock hf fun fs ht _ => Post.pure (h.ran_touched ht))

/-! ### Descriptors -/

omit h in
theorem fdRef_update (hfd : fd < nofile) (x : Option ℕ) (g : ℕ) :
    fdRef g (some { proc with ofile := update proc.ofile fd x }) + slotRef g (proc.ofile fd) = fdRef g (some proc) + slotRef g x :=
  below_update hfd x

theorem Caller.ran_fd (hfd : fd < nofile) {x : Option ℕ}
    (hprocs : s'.procs = update s.procs p (some { proc with ofile := update proc.ofile fd x })) (hb : s'.Balanced s.cwdRefs d)
    (hd : ∀ g, d g + slotRef g (proc.ofile fd) = s.fdRefs g + slotRef g x) (heffect : s.fs.tree.Effect I s'.fs.tree)
    (htype : ∀ i, 0 < s.cwdRefs i → s'.fs.tree.type i = s.fs.tree.type i) : s.Ran s' V E I := by
  have hcwd {q : ℕ} {proc' : Process} (hq : s'.procs q = some proc') : ∃ proc'', s.procs q = some proc'' ∧ proc''.cwd = proc'.cwd := by
    rw [hprocs] at hq
    by_cases hqp : q = p
    · subst hqp
      rw [update_self] at hq
      cases hq
      exact ⟨proc, h.proc_eq, rfl⟩
    · rw [update_of_ne hqp] at hq
      exact ⟨proc', hq, rfl⟩
  refine ⟨h.good.of_balanced (h.good.lt_nproc h.proc_eq) hprocs hb (fun i => ?_) (fun g => ?_) (fun q proc' hq _ => ?_) fun proc' fd' g ho hg => ?_,
    heffect, fun q proc' hq => ?_⟩
  · rw [h.proc_eq]
    rfl
  · have hsum : fdRef g (some { proc with ofile := update proc.ofile fd x }) + slotRef g (proc.ofile fd) =
        fdRef g (some proc) + slotRef g x := fdRef_update hfd x g
    have hnew := hd g
    rw [h.proc_eq]
    omega
  · obtain ⟨proc'', hold, heq⟩ := hcwd hq
    rw [← heq, htype _ (h.good.cwd_pos hold)]
    exact h.good.cwd_dir q proc'' hold
  · cases ho
    by_cases hf' : fd' = fd
    · rw [hf']
      exact hfd
    · exact h.good.fd_lt p proc fd' g h.proc_eq ((update_of_ne hf' ..).symm.trans hg)
  · obtain ⟨proc'', hold, heq⟩ := hcwd hq
    rw [← heq]
    exact h.cwd_safe hold

theorem Caller.post_sysClose : Post (sysClose p proc fd) s (fun _ s' => s.Ran s' V E I) E := by
  unfold sysClose
  cases hf : proc.ofile fd with
  | none => exact Post.pure h.ran_self
  | some f =>
    have hpos := h.good.fds_pos h.proc_eq hf
    have hlt := h.good.fd_lt p proc fd f h.proc_eq hf
    refine Post.bind (Post.modify (Post.bind ?_))
    refine (h.good.balanced.setProc _).post_fileclose hpos fun s1 hprocs hb hdropped => Post.pure ?_
    refine h.ran_fd hlt hprocs hb (fun g => ?_) (.quiet hdropped.fades) fun i hi => hdropped.types i (hb.ref_pos hi)
    rw [hf]
    by_cases hg : g = f
    · subst hg
      rw [update_self, slotRef, slotRef, if_pos rfl, if_neg nofun]
      omega
    · rw [update_of_ne hg, slotRef, slotRef, if_neg fun hc => hg (Option.some.inj hc).symm, if_neg nofun]

end

theorem fdalloc_free {ofile : ℕ → Option ℕ} (h : (List.range nofile).find? (fun fd => (ofile fd).isNone) = some fd) :
    fd < nofile ∧ ofile fd = none := by
  have hnone : (ofile fd).isNone = true := List.find?_some (p := fun fd => (ofile fd).isNone) h
  exact ⟨List.mem_range.mp (List.mem_of_find?_eq_some h), Option.isNone_iff_eq_none.mp hnone⟩

theorem Caller.post_sysDup (h : s.Caller V E p proc) : Post (sysDup p proc fd) s (fun _ s' => s.Ran s' V E I) E := by
  unfold sysDup
  cases hf : proc.ofile fd with
  | none => exact Post.pure h.ran_self
  | some f =>
    refine Post.bind ?_
    unfold fdalloc
    split
    · rename_i fd' hfind
      obtain ⟨hlt, hnone⟩ := fdalloc_free hfind
      refine Post.bind (Post.modify (Post.pure (Post.bind ?_)))
      refine (h.good.balanced.setProc _).post_filedup (h.good.fds_pos h.proc_eq hf) fun file hb => Post.pure ?_
      refine h.ran_fd hlt rfl hb (fun g => ?_) (.quiet (.refl _ _)) fun _ _ => rfl
      rw [hnone]
      by_cases hg : g = f
      · subst hg
        rw [update_self, slotRef, slotRef, if_pos rfl, if_neg nofun]
      · rw [update_of_ne hg, slotRef, slotRef, if_neg fun hc => hg (Option.some.inj hc).symm, if_neg nofun]
    · exact Post.pure (Post.pure h.ran_self)

/-! ### Current directories -/

theorem procs_setProc_self : (s.setProc p o).procs p = o := update_self ..

theorem procs_setProc_of_ne (hq : q ≠ p) : (s.setProc p o).procs q = s.procs q := update_of_ne hq ..

theorem count_singleton_eq (ip i : ℕ) : [ip].count i = if ip = i then 1 else 0 := by
  rw [List.count_singleton]
  simp only [beq_iff_eq]

theorem Caller.post_sysChdir (h : s.Caller V E p proc) : Post (sysChdir p proc path) s (fun _ s' => s.Ran s' V E I) E := by
  have hb := h.good.balanced
  refine Post.bind (post_onFs (h.ready.post_namei.mono (fun r fs1 hr => ?_) fun _ he => he))
  cases r with
  | none => exact Post.pure (h.ran_fs hr.calm.outcome)
  | some ip =>
    have hsafe := hr.safe ip rfl
    refine Post.bind (post_onFs (hr.calm.post_ilock (List.mem_cons_self ..) (hr.calm.used h.ready.guard hsafe) fun fs2 h2 ht2 hused => ?_))
    have hl2 : fs2.tree.loaded ip = true := by
      rw [ht2]
      exact lock_loaded ..
    have hout : Outcome s.fs fs2 s.fs.tree.ref [ip] I := h2.outcome
    have hb2 := hb.of_outcome hout fun i hi => by
      rw [List.mem_singleton.mp hi, ht2]
      exact hused
    refine Post.bind (post_onFs (h2.sane.post_inode hl2 fun dinode hdinode _ => ?_))
    rw [hdinode]
    split
    · rename_i hdir
      have hcwd := h.good.cwd_pos h.proc_eq
      refine Post.bind (hb2.post_iput (by omega) fun fs3 hb3 hdropped => Post.bind (Post.modify (Post.pure ?_)))
      have htype3 (i : ℕ) (hi : 0 < fs3.tree.ref i) : fs3.tree.type i = fs2.tree.type i := hdropped.types i hi
      refine ⟨h.good.of_balanced (h.good.lt_nproc h.proc_eq) rfl (hb3.setProc _) (fun i => ?_) (fun g => ?_) (fun q proc' hq hpos => ?_)
        fun proc' fd' g ho hg => ?_, hout.effect.settles hdropped.fades, fun q proc' hq => ?_⟩
      · have hnew : cwdRef i (some { proc with cwd := ip }) = [ip].count i := (count_singleton_eq ip i).symm
        rw [h.proc_eq, hnew]
        by_cases hi : i = proc.cwd
        · subst hi
          have hone : cwdRef proc.cwd (some proc) = 1 := if_pos rfl
          rw [update_self, hone]
          omega
        · have hzero : cwdRef i (some proc) = 0 := if_neg (Ne.symm hi)
          rw [update_of_ne hi, hzero, Nat.add_zero]
      · rw [h.proc_eq]
        rfl
      · change fs3.tree.type proc'.cwd = .dir
        rw [htype3 _ hpos]
        by_cases hqp : q = p
        · subst hqp
          rw [procs_setProc_self] at hq
          cases hq
          exact hdir
        · have hold : s.procs q = some proc' := by
            rw [procs_setProc_of_ne hqp] at hq
            exact hq
          rw [h2.types (hb.ref_pos (h.good.cwd_pos hold))]
          exact h.good.cwd_dir q proc' hold
      · cases ho
        exact h.good.fd_lt p proc fd' g h.proc_eq hg
      · by_cases hqp : q = p
        · subst hqp
          rw [procs_setProc_self] at hq
          cases hq
          exact hsafe
        · rw [procs_setProc_of_ne hqp] at hq
          exact h.cwd_safe hq
    · refine Post.bind (post_onFs (h2.post_iput fun fs3 h3 => ?_))
      exact Post.pure (h.ran_fs h3.outcome)

/-! ### `open` -/

theorem Caller.post_put (h : s.Caller V E p proc) (hb : s'.Balanced (fun i => s.cwdRefs i + [ip].count i) s.fdRefs)
    (hprocs : s'.procs = s.procs) (heffect : s.fs.tree.Effect I s'.fs.tree)
    (htype : ∀ i, 0 < s.cwdRefs i → s'.fs.tree.type i = s.fs.tree.type i) :
    Post (onFs (iput ip) >>= fun _ => pure r) s' (fun _ s'' => s.Ran s'' V E I) E := by
  have hone : [ip].count ip = 1 := List.count_singleton_self
  refine Post.bind (hb.post_iput (by rw [hone]; omega) fun fs' hb' hdropped => Post.pure ?_)
  have hback : update (fun i => s.cwdRefs i + [ip].count i) ip (s.cwdRefs ip + [ip].count ip - 1) = s.cwdRefs := by
    funext i
    by_cases hi : i = ip
    · rw [hi, update_self, hone, Nat.add_sub_cancel]
    · rw [update_of_ne hi, count_singleton_eq, if_neg (Ne.symm hi), Nat.add_zero]
  rw [hback] at hb'
  refine h.ran hprocs hb' (fun i hi => ?_) (heffect.settles hdropped.fades)
  exact (hdropped.types i (hb'.ref_pos hi)).trans (htype i hi)

theorem writable_opened {old : File} (h : (old.opened ip dinode omode).writable = true) : omode ≠ 0 := by
  rintro rfl
  exact absurd h (by simp [File.opened, oWronly, oRdwr])

theorem Balanced.opened (dinode : Dinode) (h : s.Balanced (fun i => c i + [ip].count i) d) (hf : f < nfile)
    (hnone : (s.ftable f).type = .none) (href : (s.ftable f).ref ≠ 0) (hdir : s.fs.tree.type ip = .dir → omode = 0) :
    (s.setFile f ((s.ftable f).opened ip dinode omode)).Balanced c d := by
  have htype : ((s.ftable f).opened ip dinode omode).type ≠ .none := by
    unfold File.opened
    dsimp only
    split <;> exact nofun
  have hset : (s.setFile f ((s.ftable f).opened ip dinode omode)).Balanced c (update d f (s.ftable f).ref) := by
    refine h.setFile hf (fun i => ?_) (fun hzero => absurd hzero href) fun _ hw htree => writable_opened hw (hdir htree)
    have hold : fileRef i (s.ftable f) = 0 := if_neg fun hc => hc.1 hnone
    have hnew : fileRef i ((s.ftable f).opened ip dinode omode) = [ip].count i := by
      rw [count_singleton_eq]
      exact if_congr (and_iff_right htype) rfl rfl
    rw [hold, hnew, Nat.add_zero]
  rw [h.files f, update_eq_self] at hset
  exact hset

theorem Caller.post_openDone (h : s.Caller V E p proc) (hfd : fd < nofile)
    (hprocs : s'.procs = update s.procs p (some { proc with ofile := update proc.ofile fd (some f) }))
    (hb : s'.Balanced (fun i => s.cwdRefs i + [ip].count i) d) (hf : f < nfile) (hnone : (s'.ftable f).type = .none)
    (href : (s'.ftable f).ref ≠ 0) (hdir : s'.fs.tree.type ip = .dir → omode = 0) (hl : s'.fs.tree.loaded ip = true)
    (hdinode : dinode.type = s'.fs.tree.type ip) (hd : ∀ g, d g + slotRef g (proc.ofile fd) = s.fdRefs g + slotRef g (some f))
    (heffect : s.fs.tree.Effect I s'.fs.tree) (htype : ∀ i, 0 < s.cwdRefs i → s'.fs.tree.type i = s.fs.tree.type i) :
    Post (do
      modify fun s => s.setFile f ((s.ftable f).opened ip dinode omode)
      onFs (openTrunc ip dinode omode)
      pure r) s' (fun _ s'' => s.Ran s'' V E I) E := by
  have hopened := hb.opened dinode hf hnone href hdir
  have hend (fs : Fs) (hsane : fs.Sane) (htree : fs.tree = s'.fs.tree) :
      s.Ran { s'.setFile f ((s'.ftable f).opened ip dinode omode) with fs } V E I := by
    refine h.ran_fd hfd hprocs (hopened.of_same hsane (congrArg Tree.ref htree) (congrArg Tree.type htree)) hd ?_ fun i hi => ?_
    · change s.fs.tree.Effect I fs.tree
      rw [htree]
      exact heffect
    · change fs.tree.type i = _
      rw [htree]
      exact htype i hi
  refine Post.bind (Post.modify (Post.bind (post_onFs ?_)))
  unfold openTrunc
  split
  · rename_i htrunc
    refine hb.sane.post_itrunc hl (fun hc => ?_) fun fs hsane htree => Post.pure (hend fs hsane htree)
    rw [hdinode, hc] at htrunc
    exact FileType.noConfusion htrunc.2
  · exact Post.pure (Post.pure (hend _ hb.sane rfl))

theorem Caller.post_openFile (h : s.Caller V E p proc)
    (ho : Outcome s.fs fs s.fs.tree.ref [ip] I) (hl : fs.tree.loaded ip = true) (hdir : fs.tree.type ip = .dir → omode = 0)
    (hd : dinode.type = fs.tree.type ip) : Post (openFile p proc ip dinode omode) { s with fs } (fun _ s' => s.Ran s' V E I) E := by
  have hb := h.good.balanced
  have hb1 : ({ s with fs } : System).Balanced (fun i => s.cwdRefs i + [ip].count i) s.fdRefs := by
    refine hb.of_outcome ho fun i hi => ?_
    rw [List.mem_singleton.mp hi]
    exact (ho.sane.locked_iff.mpr hl).type_tree_ne
  have htype1 (i : ℕ) (hi : 0 < s.cwdRefs i) : fs.tree.type i = s.fs.tree.type i := ho.types i (hb.ref_pos hi)
  refine Post.bind (Post.bind (Post.get ?_))
  split
  · rename_i f hfind
    have hlt : f < nfile := List.mem_range.mp (List.mem_of_find?_eq_some hfind)
    have hzero : (s.ftable f).ref = 0 := of_decide_eq_true (List.find?_some (p := fun f => decide ((s.ftable f).ref = 0)) hfind)
    have hnone : (s.ftable f).type = .none := hb.idle f hzero
    have hfds : s.fdRefs f = 0 := (hb.files f).symm.trans hzero
    have hb2 : (({ s with fs } : System).setFile f { s.ftable f with ref := 1 }).Balanced (fun i => s.cwdRefs i + [ip].count i)
        (update s.fdRefs f 1) :=
      hb1.setFile hlt (fun i => rfl) (fun hc => absurd hc Nat.one_ne_zero) (hb1.writable f)
    refine Post.bind (Post.set (Post.pure (Post.bind ?_)))
    unfold fdalloc
    split
    · rename_i fd hfd
      obtain ⟨hfdlt, hfree⟩ := fdalloc_free hfd
      refine Post.bind (Post.modify (Post.pure ?_))
      have hnew : ((({ s with fs } : System).setFile f { s.ftable f with ref := 1 }).setProc p
          (some { proc with ofile := update proc.ofile fd (some f) })).ftable f = { s.ftable f with ref := 1 } := update_self ..
      refine h.post_openDone hfdlt rfl (hb2.setProc _) hlt (by rw [hnew]; exact hnone) (by rw [hnew]; exact Nat.one_ne_zero) hdir hl hd
        (fun g => ?_) ho.effect htype1
      rw [hfree]
      by_cases hg : g = f
      · rw [hg, update_self, hfds, slotRef, slotRef, if_pos rfl, if_neg nofun]
      · rw [update_of_ne hg, slotRef, slotRef, if_neg fun hc => hg (Option.some.inj hc).symm, if_neg nofun]
    · refine Post.pure (Post.bind (hb2.post_fileclose (by rw [update_self]; exact Nat.one_pos) fun s3 hprocs hb3 hdropped => ?_))
      have hback : update (update s.fdRefs f 1) f (update s.fdRefs f 1 f - 1) = s.fdRefs := by
        rw [update_self, update_idem, Nat.sub_self, ← hfds, update_eq_self]
      rw [hback] at hb3
      refine h.post_put hb3 hprocs (ho.effect.settles hdropped.fades) fun i hi => ?_
      exact (hdropped.types i (hb3.ref_pos (Nat.lt_of_lt_of_le hi (Nat.le_add_right _ _)))).trans (htype1 i hi)
  · exact Post.pure (h.post_put hb1 rfl ho.effect htype1)

theorem Caller.post_sysOpen (h : s.Caller V E p proc) :
    Post (sysOpen p proc path omode) s (fun _ s' =>
      s.Ran s' V E (if omode &&& oCreate ≠ 0 then .create s.fs.tree proc.cwd path else .none)) E := by
  refine Post.bind (post_onFs (h.ready.post_openInode.mono (fun r fs hr => ?_) fun _ he => he))
  obtain ⟨ho, hopen⟩ := hr
  cases r with
  | none => exact Post.pure (h.ran_fs ho)
  | some ip =>
    obtain ⟨hl, hdir⟩ := hopen ip rfl
    refine Post.bind (post_onFs (ho.sane.post_inode hl fun dinode hd _ => ?_))
    split
    · have hb : ({ s with fs } : System).Balanced (fun i => s.cwdRefs i + [ip].count i) s.fdRefs := by
        refine h.good.balanced.of_outcome ho fun i hi => ?_
        rw [List.mem_singleton.mp hi]
        exact (ho.sane.locked_iff.mpr hl).type_tree_ne
      exact h.post_put hb rfl ho.effect fun i hi => ho.types i (h.good.balanced.ref_pos hi)
    · exact h.post_openFile ho hl hdir hd

/-! ### `fork` and `exit` -/

theorem slotRef_none (g : ℕ) : slotRef g none = 0 := if_neg nofun

theorem slotRef_some (f g : ℕ) : slotRef g (some f) = if g = f then 1 else 0 := by
  unfold slotRef
  simp only [Option.some.injEq, eq_comm]

theorem Balanced.post_idup (h : s.Balanced c d) (hi : 0 < c i) {Q : ℕ → System → Prop}
    (hQ : ∀ fs : Fs, ({ s with fs } : System).Balanced (update c i (c i + 1)) d → fs.tree = s.fs.tree.get i → Q i { s with fs }) :
    Post (onFs (idup i)) s Q E := by
  refine post_onFs (h.sane.post_idup (h.ref_pos hi) fun fs hsane htree => hQ fs (h.of_fs hsane (fun j => ?_) (fun j hj => ?_) fun j _ => ?_) htree)
  · rw [htree]
    change update s.fs.tree.ref i (s.fs.tree.ref i + 1) j = _
    by_cases hj : j = i
    · subst hj
      rw [update_self, update_self, h.refs]
      omega
    · rw [update_of_ne hj, update_of_ne hj, h.refs]
  · rw [htree] at hj ⊢
    change 0 < update s.fs.tree.ref i (s.fs.tree.ref i + 1) j at hj
    by_cases hji : j = i
    · rw [hji]
      exact h.used i (h.ref_pos hi)
    · rw [update_of_ne hji] at hj
      exact h.used j hj
  · rw [htree]
    rfl

theorem Caller.post_forkFiles (h : s.Caller V E p proc) {Q : Option Unit → System → Prop}
    (hQ : ∀ s', s'.procs = s.procs → s'.fs = s.fs → s'.Balanced s.cwdRefs (fun f => s.fdRefs f + proc.fds f) → Q none s') :
    Post (loop 1 (forkFile proc) nofile 0) s Q E := by
  refine Post.loop (I := fun n s' => s'.procs = s.procs ∧ s'.fs = s.fs ∧ s'.Balanced s.cwdRefs fun f => s.fdRefs f + below n (slotRef f) proc.ofile)
    ⟨rfl, rfl, ?_⟩ (fun n s' hn hI => ?_) fun s' hI => hQ s' hI.1 hI.2.1 hI.2.2
  · simp only [below_zero, Nat.add_zero]
    exact h.good.balanced
  · obtain ⟨hprocs, hfs, hb⟩ := hI
    rw [Nat.zero_add, Nat.mul_one]
    unfold forkFile
    cases hfd : proc.ofile n with
    | none =>
      refine Post.pure ⟨hprocs, hfs, ?_⟩
      simp only [below_succ, hfd, slotRef_none, Nat.add_zero]
      exact hb
    | some f =>
      have hpos := h.good.fds_pos h.proc_eq hfd
      refine Post.bind (hb.post_filedup (by omega) fun file hb' => Post.pure ⟨hprocs, hfs, ?_⟩)
      have hsum : update (fun f => s.fdRefs f + below n (slotRef f) proc.ofile) f (s.fdRefs f + below n (slotRef f) proc.ofile + 1) =
          fun f => s.fdRefs f + below (n + 1) (slotRef f) proc.ofile := by
        funext g
        rw [below_succ, hfd, slotRef_some, update_apply]
        split
        · rename_i hg
          rw [hg]
          omega
        · omega
      rw [hsum] at hb'
      exact hb'

theorem Caller.post_fork (h : s.Caller V E p proc) {child : ℕ} : Post (fork proc child) s (fun _ s' => s.Ran s' V E I) E := by
  refine Post.bind (Post.get ?_)
  split
  · rename_i hchild
    have hnone : s.procs child = none := Option.isNone_iff_eq_none.mp hchild.2
    refine Post.bind (h.post_forkFiles fun s1 hprocs hfs hb => ?_)
    refine Post.bind (hb.post_idup (h.good.cwd_pos h.proc_eq) fun fs hb' htree => Post.bind (Post.modify (Post.pure ?_)))
    have hold {q : ℕ} {proc' : Process} (hq : (({ s1 with fs } : System).setProc child (some proc)).procs q = some proc') :
        proc' = proc ∨ s.procs q = some proc' := by
      by_cases hqc : q = child
      · subst hqc
        rw [procs_setProc_self] at hq
        exact .inl (Option.some.inj hq).symm
      · rw [procs_setProc_of_ne hqc] at hq
        rw [← hprocs]
        exact .inr hq
    have htype : fs.tree.type = s.fs.tree.type := by rw [htree, hfs]; rfl
    refine ⟨h.good.of_balanced hchild.1 (by rw [← hprocs]; rfl) (hb'.setProc _) (fun i => ?_) (fun g => ?_) (fun q proc' hq _ => ?_)
      fun proc' fd g ho hg => ?_, .quiet ?_, fun q proc' hq => ?_⟩
    · rw [hnone, update_apply]
      unfold cwdRef
      dsimp only
      split
      · rename_i hi
        rw [hi, if_pos rfl]
      · rename_i hi
        rw [if_neg (Ne.symm hi)]
    · simp only [hnone, fdRef, Nat.add_zero]
    · change fs.tree.type proc'.cwd = .dir
      rw [htype]
      rcases hold hq with rfl | hq'
      · exact h.good.cwd_dir p proc' h.proc_eq
      · exact h.good.cwd_dir q proc' hq'
    · cases ho
      exact h.good.fd_lt p proc fd g h.proc_eq hg
    · change s.fs.tree.Fades fs.tree
      rw [htree, hfs]
      exact Tree.Settles.of_same rfl rfl rfl
    · rcases hold hq with rfl | hq'
      · exact h.cwd_safe h.proc_eq
      · exact h.cwd_safe hq'
  · exact Post.pure h.ran_self

structure Exiting (s s' : System) (p : ℕ) (proc : Process) (n : ℕ) (proc' : Process) : Prop where
  good : s'.Good
  fades : s.fs.tree.Fades s'.fs.tree
  procs_eq : s'.procs = update s.procs p (some proc')
  cwd_eq : proc'.cwd = proc.cwd
  closed : ∀ fd < n, proc'.ofile fd = none

theorem Exiting.post_exitFile {n : ℕ} (h : s.Exiting s' p proc n proc') (hn : n < nofile) :
    Post (exitFile p n) s' (fun r s'' => match r with
      | none => ∃ proc'', s.Exiting s'' p proc (n + 1) proc''
      | some _ => False) E := by
  have hp : s'.procs p = some proc' := by
    rw [h.procs_eq]
    exact update_self ..
  have hclosed {proc'' : Process} (hn : proc''.ofile n = none) (hlt : ∀ fd < n, proc''.ofile fd = none) (fd : ℕ) (hfd : fd < n + 1) :
      proc''.ofile fd = none := by
    rcases Nat.lt_succ_iff_lt_or_eq.mp hfd with hfd | rfl
    · exact hlt fd hfd
    · exact hn
  refine Post.bind (Post.get ?_)
  rw [hp]
  dsimp only
  cases hfd : proc'.ofile n with
  | none => exact Post.pure ⟨proc', h.good, h.fades, h.procs_eq, h.cwd_eq, hclosed hfd h.closed⟩
  | some f =>
    have hpos := h.good.fds_pos hp hfd
    refine Post.bind (h.good.balanced.post_fileclose hpos fun s1 hprocs hb hdropped => Post.bind (Post.modify (Post.pure ?_)))
    have hcaller : s'.Caller (fun _ => True) (fun _ => True) p proc' := ⟨h.good, hp, fun _ _ _ => trivial, .inl trivial⟩
    have hran : s'.Ran (s1.setProc p (some { proc' with ofile := update proc'.ofile n none })) (fun _ => True) (fun _ => True) Intent.none := by
      refine hcaller.ran_fd hn (by rw [← hprocs]; rfl) (hb.setProc _) (fun g => ?_) (.quiet hdropped.fades)
        fun i hi => hdropped.types i (hb.ref_pos hi)
      rw [hfd, slotRef_none, slotRef_some, update_apply]
      split
      · rename_i hg
        rw [hg]
        omega
      · rfl
    refine ⟨{ proc' with ofile := update proc'.ofile n none }, hran.good, h.fades.trans hdropped.fades, ?_, h.cwd_eq,
      hclosed (update_self ..) fun fd hlt => ?_⟩
    · unfold System.setProc
      dsimp only
      rw [hprocs, h.procs_eq, update_idem]
    · exact (update_of_ne (Nat.ne_of_lt hlt) ..).trans (h.closed fd hlt)

theorem Caller.post_exit (h : s.Caller V E p proc) : Post (exit p proc) s (fun _ s' => s.Ran s' V E I) E := by
  unfold exit
  split
  · exact Post.panic (h.tolerates _ nofun nofun)
  refine Post.step (R := fun r s' => r = none ∧ ∃ proc', s.Exiting s' p proc nofile proc') ?_ fun r s1 hr => ?_
  · refine Post.loop (I := fun n s' => ∃ proc', s.Exiting s' p proc n proc') ?_ (fun n s' hn hI => ?_) fun s' hI => ⟨rfl, hI⟩
    · refine ⟨proc, h.good, .refl _ _, ?_, rfl, fun fd hfd => absurd hfd (Nat.not_lt_zero fd)⟩
      rw [← h.proc_eq, update_eq_self]
    · obtain ⟨proc', hI⟩ := hI
      rw [Nat.zero_add, Nat.mul_one]
      refine (hI.post_exitFile hn).mono (fun r s'' hr => ?_) fun _ he => he
      cases r with
      | none => exact hr
      | some _ => exact hr.elim
  · obtain ⟨proc', h1⟩ := hr.2
    have hp : s1.procs p = some proc' := by
      rw [h1.procs_eq]
      exact update_self ..
    have hpos := h1.good.cwd_pos hp
    rw [h1.cwd_eq] at hpos
    refine Post.bind (h1.good.balanced.post_iput hpos fun fs hb hdropped => Post.bind (Post.modify (Post.pure ?_)))
    have hold {q : ℕ} {proc'' : Process}
      (hq : (({ s1 with fs } : System).setProc p none).procs q = some proc'') :
      s.procs q = some proc'' ∧ s1.procs q = some proc'' := by
      by_cases hqp : q = p
      · subst hqp
        rw [procs_setProc_self] at hq
        cases hq
      · rw [procs_setProc_of_ne hqp] at hq
        refine ⟨?_, hq⟩
        change s1.procs q = some proc'' at hq
        rw [h1.procs_eq, update_of_ne hqp] at hq
        exact hq
    refine ⟨h1.good.of_balanced (h1.good.lt_nproc hp) rfl (hb.setProc _) (fun i => ?_) (fun g => ?_) (fun q proc'' hq hpos' => ?_) nofun,
      .quiet (h1.fades.trans hdropped.fades), fun q proc'' hq => h.cwd_safe (hold hq).1⟩
    · rw [hp, update_apply]
      unfold cwdRef
      dsimp only
      rw [h1.cwd_eq]
      split
      · rename_i hi
        rw [hi, if_pos rfl]
        omega
      · rename_i hi
        rw [if_neg (Ne.symm hi)]
    · have hzero : fdRef g (s1.procs p) = 0 := by
        rw [hp]
        refine below_eq_zero fun fd hfd => ?_
        rw [h1.closed fd hfd, slotRef_none]
      have hnone : fdRef g none = 0 := rfl
      rw [hzero, hnone]
    · change fs.tree.type proc''.cwd = .dir
      rw [hdropped.types _ hpos']
      exact h1.good.cwd_dir q proc'' (hold hq).2

/-! ### All calls -/

theorem post_withPath {call : List UInt8 → SysM ℤ} {Q : ℤ → System → Prop} (hnone : argstr path = none → Q (-1) s)
    (hsome : ∀ path', argstr path = some path' → Post (call path') s Q E) : Post (withPath path call) s Q E := by
  unfold withPath
  cases harg : argstr path with
  | none => exact Post.pure (hnone harg)
  | some path' => exact hsome path' harg

theorem Caller.post_withFile (h : s.Caller V E p proc) {call : ℕ → SysM ℤ} (hcall : ∀ f, Post (call f) s (fun _ s' => s.Ran s' V E I) E) :
    Post (withFile proc fd call) s (fun _ s' => s.Ran s' V E I) E := by
  unfold withFile
  split
  · exact Post.pure h.ran_self
  · exact hcall _

/-- Every call, by any process, in any good state. -/
theorem Caller.post_run (h : s.Caller V E p proc) (call : Call) :
    Post (call.run p proc) s (fun _ s' => s.Ran s' V E (call.intent s.fs.tree proc.cwd)) E := by
  cases call with
  | openPath path omode =>
    refine post_withPath (fun _ => h.ran_self) fun path' harg => ?_
    simp only [Call.intent, harg]
    exact h.post_sysOpen
  | mkdir path | mknod path major =>
    refine post_withPath (fun _ => h.ran_self) fun path' harg => ?_
    simp only [Call.intent, harg]
    exact h.post_fs (h.ready.post_sysMake FileType.noConfusion)
  | link old new =>
    refine post_withPath (fun _ => h.ran_self) fun old' hold => post_withPath (fun _ => h.ran_self) fun new' hnew => ?_
    simp only [Call.intent, hold, hnew]
    exact h.post_fs (h.ready.post_sysLink (h.safe.imp_right fun hg => hg.2.2.2))
  | unlink path =>
    refine post_withPath (fun _ => h.ran_self) fun path' harg => ?_
    simp only [Call.intent, harg]
    exact h.post_fs h.ready.post_sysUnlink
  | chdir path => exact post_withPath (fun _ => h.ran_self) fun path' _ => h.post_sysChdir
  | close fd => exact h.post_sysClose
  | dup fd => exact h.post_sysDup
  | read fd copyout n => exact h.post_withFile fun f => h.post_fileread
  | write fd src n => exact h.post_withFile fun f => h.post_filewrite
  | fstat fd => exact h.post_withFile fun f => h.post_filestat
  | exec path reads => exact post_withPath (fun _ => h.ran_self) fun path' _ => h.post_fs h.ready.post_exec
  | fork child => exact h.post_fork
  | exit => exact h.post_exit

end System

end AdvancedXv6.FileSystem
