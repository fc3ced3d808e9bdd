import AdvancedXv6.FileSystem.Outcomes
import AdvancedXv6.Lib.Weights

/-!
# References of processes and open files

The inode table counts, for every inode, the processes that are in it and the open files of it; the file table counts the descriptors of every file. `Balanced` says so for numbers that a call keeps track of while it runs, and `Good` for the numbers that the processes have between calls.
-/

namespace AdvancedXv6.FileSystem

open Function Prog Weights

/-! ### What is counted -/

def fileRef (i : ℕ) (file : File) : ℕ := if file.type ≠ .none ∧ file.ip = i then 1 else 0

def slotRef (f : ℕ) (x : Option ℕ) : ℕ := if x = some f then 1 else 0

def Process.fds (proc : Process) (f : ℕ) : ℕ := below nofile (slotRef f) proc.ofile

def cwdRef (i : ℕ) : Option Process → ℕ
  | none => 0
  | some proc => if proc.cwd = i then 1 else 0

def fdRef (f : ℕ) : Option Process → ℕ
  | none => 0
  | some proc => proc.fds f

namespace System

def fileRefs (s : System) (i : ℕ) : ℕ := below nfile (fileRef i) s.ftable

def cwdRefs (s : System) (i : ℕ) : ℕ := below nproc (cwdRef i) s.procs

def fdRefs (s : System) (f : ℕ) : ℕ := below nproc (fdRef f) s.procs

/-- The references are those of `c` and of open files, and the descriptors those of `d`. Only inodes in use are referred to, files that are not open have no type, and directories are not open for writing. -/
structure Balanced (s : System) (c d : ℕ → ℕ) : Prop where
  sane : s.fs.Sane
  refs : ∀ i, s.fs.tree.ref i = c i + s.fileRefs i
  files : ∀ f, (s.ftable f).ref = d f
  used : ∀ i, 0 < s.fs.tree.ref i → s.fs.tree.type i ≠ .free
  idle : ∀ f, (s.ftable f).ref = 0 → (s.ftable f).type = .none
  outside : ∀ f, nfile ≤ f → (s.ftable f).ref = 0
  writable : ∀ f, (s.ftable f).type = .inode → (s.ftable f).writable = true → s.fs.tree.type (s.ftable f).ip ≠ .dir

structure Good (s : System) : Prop where
  balanced : s.Balanced s.cwdRefs s.fdRefs
  cwd_dir : ∀ p proc, s.procs p = some proc → s.fs.tree.type proc.cwd = .dir
  procs_lt : ∀ p, nproc ≤ p → s.procs p = none
  fd_lt : ∀ p proc fd f, s.procs p = some proc → proc.ofile fd = some f → fd < nofile

variable {s s' : System} {c c' d : ℕ → ℕ} {f i p : ℕ} {proc : Process}

theorem Balanced.lt_nfile (h : s.Balanced c d) (hf : 0 < d f) : f < nfile := by
  by_contra hge
  have hout := h.outside f (Nat.le_of_not_lt hge)
  rw [h.files f] at hout
  omega

section

variable (h : s.Balanced c d) (hf : (s.ftable f).type ≠ .none)
include h hf

theorem Balanced.lt_of_type : f < nfile := by
  by_contra hge
  exact hf (h.idle f (h.outside f (Nat.le_of_not_lt hge)))

theorem Balanced.fileRefs_pos : 0 < s.fileRefs (s.ftable f).ip := by
  have hle : fileRef (s.ftable f).ip (s.ftable f) ≤ s.fileRefs (s.ftable f).ip := le_below (h.lt_of_type hf)
  have hone : fileRef (s.ftable f).ip (s.ftable f) = 1 := if_pos ⟨hf, rfl⟩
  rw [hone] at hle
  exact hle

theorem Balanced.ref_pos_of_type : 0 < s.fs.tree.ref (s.ftable f).ip := by
  have hpos := h.fileRefs_pos hf
  rw [h.refs]
  omega

end

theorem Balanced.ref_pos (h : s.Balanced c d) (hi : 0 < c i) : 0 < s.fs.tree.ref i := by
  rw [h.refs i]
  omega

section

variable (h : s.Good) (hp : s.procs p = some proc)
include h hp

theorem Good.cwd_pos : 0 < s.cwdRefs proc.cwd := by
  have hlt : p < nproc := by
    by_contra hge
    rw [h.procs_lt p (Nat.le_of_not_lt hge)] at hp
    cases hp
  have hle : cwdRef proc.cwd (s.procs p) ≤ s.cwdRefs proc.cwd := le_below hlt
  have hone : cwdRef proc.cwd (some proc) = 1 := if_pos rfl
  rw [hp, hone] at hle
  exact hle

theorem Good.lt_nproc : p < nproc := by
  by_contra hge
  rw [h.procs_lt p (Nat.le_of_not_lt hge)] at hp
  cases hp

theorem Good.fds_pos {fd : ℕ} (hfd : proc.ofile fd = some f) : 0 < s.fdRefs f := by
  have hle : slotRef f (proc.ofile fd) ≤ proc.fds f := le_below (h.fd_lt p proc fd f hp hfd)
  have hone : slotRef f (proc.ofile fd) = 1 := if_pos hfd
  have hle' : fdRef f (s.procs p) ≤ s.fdRefs f := le_below (h.lt_nproc hp)
  rw [hone] at hle
  rw [hp] at hle'
  exact Nat.lt_of_lt_of_le hle hle'

end

/-! ### Steps that keep the balance -/

section

variable (h : s.Balanced c d)
include h

theorem Balanced.of_fs {fs : Fs} (hsane : fs.Sane) (href : ∀ i, fs.tree.ref i = c' i + s.fileRefs i)
    (hused : ∀ i, 0 < fs.tree.ref i → fs.tree.type i ≠ .free) (htype : ∀ i, 0 < s.fileRefs i → fs.tree.type i = s.fs.tree.type i) :
    ({ s with fs } : System).Balanced c' d := by
  refine ⟨hsane, href, h.files, hused, h.idle, h.outside, fun f hf hw => ?_⟩
  have hne : (s.ftable f).type ≠ .none := by
    rw [hf]
    exact nofun
  change fs.tree.type (s.ftable f).ip ≠ .dir
  rw [htype _ (h.fileRefs_pos hne)]
  exact h.writable f hf hw

theorem Balanced.of_outcome {fs : Fs} {held : List ℕ} {I : Intent} (ho : Outcome s.fs fs s.fs.tree.ref held I)
    (hheld : ∀ i ∈ held, fs.tree.type i ≠ .free) : ({ s with fs } : System).Balanced (fun i => c i + held.count i) d := by
  have href (i : ℕ) : fs.tree.ref i = s.fs.tree.ref i + held.count i := ho.holds i
  refine h.of_fs ho.sane (fun i => ?_) (fun i hi => ?_) fun i hi => ho.types i ?_
  · rw [href, h.refs]
    omega
  · rcases Nat.eq_zero_or_pos (s.fs.tree.ref i) with hzero | hpos
    · rw [href, hzero, Nat.zero_add] at hi
      exact hheld i (List.count_pos_iff.mp hi)
    · rw [ho.types i hpos]
      exact h.used i hpos
  · rw [h.refs]
    omega

theorem Balanced.setFile (hf : f < nfile) {file : File} (hc : ∀ i, c' i + fileRef i file = c i + fileRef i (s.ftable f))
    (hidle : file.ref = 0 → file.type = .none) (hwritable : file.type = .inode → file.writable = true → s.fs.tree.type file.ip ≠ .dir) :
    (s.setFile f file).Balanced c' (update d f file.ref) := by
  have hftable (g : ℕ) : (s.setFile f file).ftable g = if g = f then file else s.ftable g := by
    unfold System.setFile
    dsimp only
    rw [update_apply]
  refine ⟨h.sane, fun i => ?_, fun g => ?_, h.used, fun g => ?_, fun g hg => ?_, fun g => ?_⟩
  · have hsum : (s.setFile f file).fileRefs i + fileRef i (s.ftable f) = s.fileRefs i + fileRef i file := below_update hf file
    have hold := h.refs i
    have hnew := hc i
    change s.fs.tree.ref i = c' i + (s.setFile f file).fileRefs i
    omega
  · rw [hftable, update_apply]
    split
    · rfl
    · exact h.files g
  · rw [hftable]
    split
    · exact hidle
    · exact h.idle g
  · rw [hftable, if_neg (by omega)]
    exact h.outside g hg
  · rw [hftable]
    split
    · exact hwritable
    · exact h.writable g

theorem Balanced.setProc (o : Option Process) : (s.setProc p o).Balanced c d :=
  ⟨h.sane, h.refs, h.files, h.used, h.idle, h.outside, h.writable⟩

end

theorem Good.of_balanced (h : s.Good) (hp : p < nproc) {o : Option Process} (hs' : s'.procs = update s.procs p o) (hb : s'.Balanced c d)
    (hc : ∀ i, c i + cwdRef i (s.procs p) = s.cwdRefs i + cwdRef i o) (hd : ∀ f, d f + fdRef f (s.procs p) = s.fdRefs f + fdRef f o)
    (hcwd : ∀ q proc, s'.procs q = some proc → 0 < s'.fs.tree.ref proc.cwd → s'.fs.tree.type proc.cwd = .dir)
    (hfd : ∀ proc fd f, o = some proc → proc.ofile fd = some f → fd < nofile) : s'.Good := by
  have hcwds : s'.cwdRefs = c := by
    funext i
    have hsum : s'.cwdRefs i + cwdRef i (s.procs p) = s.cwdRefs i + cwdRef i o := by
      unfold System.cwdRefs
      rw [hs']
      exact below_update hp o
    have hnew := hc i
    omega
  have hfds : s'.fdRefs = d := by
    funext f
    have hsum : s'.fdRefs f + fdRef f (s.procs p) = s.fdRefs f + fdRef f o := by
      unfold System.fdRefs
      rw [hs']
      exact below_update hp o
    have hnew := hd f
    omega
  have hnone (q : ℕ) (hq : nproc ≤ q) : s'.procs q = none := by
    rw [hs', update_of_ne (by omega)]
    exact h.procs_lt q hq
  refine ⟨by rw [hcwds, hfds]; exact hb, fun q proc hq => hcwd q proc hq (hb.ref_pos ?_), hnone, fun q proc fd f hq hf => ?_⟩
  · have hlt : q < nproc := by
      by_contra hge
      rw [hnone q (Nat.le_of_not_lt hge)] at hq
      cases hq
    have hle : cwdRef proc.cwd (s'.procs q) ≤ s'.cwdRefs proc.cwd := le_below hlt
    have hone : cwdRef proc.cwd (some proc) = 1 := if_pos rfl
    rw [hq, hone, hcwds] at hle
    exact hle
  · rw [hs'] at hq
    by_cases hqp : q = p
    · subst hqp
      rw [update_self] at hq
      exact hfd proc fd f hq hf
    · rw [update_of_ne hqp] at hq
      exact h.fd_lt q proc fd f hq hf

/-! ### Programs on files -/

variable {E : Panic → Prop}

theorem post_onFs {α : Type} {x : FsM α} {Q : α → System → Prop} (h : Post x s.fs (fun a fs => Q a { s with fs }) E) : Post (onFs x) s Q E := by
  unfold Post at h ⊢
  unfold onFs
  cases hx : x s.fs with
  | error e | ok r =>
    rw [hx] at h
    exact h

structure Dropped (t t' : Tree) : Prop where
  fades : t.Fades t'
  types : ∀ i, 0 < t'.ref i → t'.type i = t.type i

theorem Dropped.refl (t : Tree) : Dropped t t := ⟨.refl _ _, fun _ _ => rfl⟩

theorem Balanced.post_iput (h : s.Balanced c d) (hi : 0 < c i) {Q : Unit → System → Prop}
    (hQ : ∀ fs : Fs, ({ s with fs } : System).Balanced (update c i (c i - 1)) d → Dropped s.fs.tree fs.tree → Q () { s with fs }) :
    Post (onFs (iput i)) s Q E := by
  have hpos := h.ref_pos hi
  have hholds : s.fs.tree.Holds (update s.fs.tree.ref i (s.fs.tree.ref i - 1)) [i] := by
    intro j
    by_cases hj : j = i
    · subst hj
      rw [update_self, List.count_singleton_self]
      omega
    · rw [update_of_ne hj, List.count_cons_of_ne (Ne.symm hj), List.count_nil, Nat.add_zero]
  refine post_onFs (h.sane.post_iput_held hholds fun fs hsane hholds' hsettles _ => ?_)
  have href (j : ℕ) : fs.tree.ref j = update s.fs.tree.ref i (s.fs.tree.ref i - 1) j := hholds' j
  have htype (j : ℕ) (hj : 0 < fs.tree.ref j) : fs.tree.type j = s.fs.tree.type j := by
    rw [href] at hj
    exact ((hsettles j).resolve_right fun hc => absurd hc.1 (Nat.ne_of_gt hj)).1
  have hnew (j : ℕ) : fs.tree.ref j = update c i (c i - 1) j + s.fileRefs j := by
    rw [href]
    by_cases hj : j = i
    · subst hj
      rw [update_self, update_self, h.refs]
      omega
    · rw [update_of_ne hj, update_of_ne hj, h.refs]
  refine hQ fs (h.of_fs hsane hnew (fun j hj => ?_) fun j hj => htype j ?_) ⟨hsettles.weaken, htype⟩
  · rw [htype j hj]
    refine h.used j ?_
    rw [href] at hj
    by_cases hji : j = i
    · rw [hji]
      exact hpos
    · rw [update_of_ne hji] at hj
      exact hj
  · rw [hnew]
    omega

theorem Balanced.post_filedup (h : s.Balanced c d) (hf : 0 < d f) {Q : Unit → System → Prop}
    (hQ : ∀ file, (s.setFile f file).Balanced c (update d f (d f + 1)) → Q () (s.setFile f file)) : Post (filedup f) s Q E := by
  have href := h.files f
  refine Post.bind (Post.get ?_)
  rw [if_neg (by omega)]
  refine Post.set (hQ _ ?_)
  rw [← href]
  exact h.setFile (h.lt_nfile hf) (fun i => rfl) (fun hzero => absurd hzero (Nat.succ_ne_zero _)) (h.writable f)

theorem Balanced.post_fileclose (h : s.Balanced c d) (hf : 0 < d f) {Q : Unit → System → Prop}
    (hQ : ∀ s', s'.procs = s.procs → s'.Balanced c (update d f (d f - 1)) → Dropped s.fs.tree s'.fs.tree → Q () s') : Post (fileclose f) s Q E := by
  have href := h.files f
  have hlt := h.lt_nfile hf
  refine Post.bind (Post.get ?_)
  dsimp only
  rw [if_neg (by omega)]
  split
  · rename_i hmany
    refine Post.set (hQ _ rfl ?_ (.refl s.fs.tree))
    rw [← href]
    exact h.setFile hlt (fun i => rfl) (fun hzero => by dsimp only at hzero; omega) (h.writable f)
  · have hone : d f - 1 = 0 := by omega
    rw [hone] at hQ
    refine Post.bind (Post.set ?_)
    have hnew (i : ℕ) : fileRef i { s.ftable f with ref := 0, type := .none } = 0 := if_neg fun hc => hc.1 rfl
    -- the reference of the file is one that the call has now
    have hclosed : (s.setFile f { s.ftable f with ref := 0, type := .none }).Balanced (fun i => c i + fileRef i (s.ftable f)) (update d f 0) :=
      h.setFile hlt (fun i => by rw [hnew, Nat.add_zero]) (fun _ => rfl) nofun
    split
    · rename_i hnone
      have hzero (i : ℕ) : fileRef i (s.ftable f) = 0 := if_neg fun hc => hc.1 hnone
      simp only [hzero, Nat.add_zero] at hclosed
      exact Post.pure (hQ _ rfl hclosed (.refl s.fs.tree))
    · rename_i htype
      have hself : fileRef (s.ftable f).ip (s.ftable f) = 1 := if_pos ⟨htype, rfl⟩
      refine hclosed.post_iput (by rw [hself]; omega) fun fs hb hdropped => hQ _ rfl ?_ hdropped
      have hback : update (fun i => c i + fileRef i (s.ftable f)) (s.ftable f).ip (c (s.ftable f).ip + fileRef (s.ftable f).ip (s.ftable f) - 1) = c := by
        funext i
        by_cases hi : i = (s.ftable f).ip
        · rw [hi, update_self, hself, Nat.add_sub_cancel]
        · rw [update_of_ne hi, fileRef, if_neg fun hc => hi hc.2.symm, Nat.add_zero]
      rw [hback] at hb
      exact hb

end System

end AdvancedXv6.FileSystem
