import AdvancedXv6.FileSystem.Walks

/-!
# What calls do to the tree

A call on paths does one of four things to the tree, whatever way it takes through its text: it makes an inode with an entry for it, it adds an entry for an inode, it takes an entry away, or it does none of this. Before and after, inodes that nobody needs may go. `Effect` says so, and every call is shown to have one.
-/

namespace AdvancedXv6.FileSystem

open Function Prog

namespace Tree

/-! ### Changes of the tree -/

def newEntry (inum : ℕ) (name : List UInt8) : Dirent := { inum, name := strncpy dirsiz name }

def dots (t : Tree) (dp ip : ℕ) (type : FileType) : Tree :=
  if type = .dir then (t.setEntry ip 0 (newEntry ip dot)).setEntry ip 1 (newEntry dp dotdot) else t

def count (t : Tree) (dp : ℕ) (type : FileType) : Tree := if type = .dir then t.setNlink dp (t.nlink dp + 1) else t

def make (t : Tree) (dp k : ℕ) (name : List UInt8) (ip : ℕ) (type : FileType) : Tree :=
  ((((t.alloc ip type).setNlink ip 1).dots dp ip type).setEntry dp k (newEntry ip name)).count dp type

def link (t : Tree) (dp k : ℕ) (name : List UInt8) (ip : ℕ) : Tree := (t.setNlink ip (t.nlink ip + 1)).setEntry dp k (newEntry ip name)

def cut (t : Tree) (dp k ip : ℕ) : Tree :=
  let t := t.setEntry dp k Dirent.zero
  if t.type ip = .dir then t.setNlink dp (t.nlink dp - 1) else t

def unlink (t : Tree) (dp k ip : ℕ) : Tree := (t.cut dp k ip).setNlink ip ((t.cut dp k ip).nlink ip - 1)

def SameBut (t t' : Tree) (ip : ℕ) : Prop := ∃ e, t' = { t with entry := update t.entry ip e }

structure Vacant (t : Tree) (dp k : ℕ) (name : List UInt8) : Prop where
  dir : t.type dp = .dir
  no_name : ∀ l, ¬ (t.entry dp l).Names name
  inum_eq : (t.entry dp k).inum = 0
  before : ∀ l < k, (t.entry dp l).inum ≠ 0

structure Removable (t : Tree) (dp k ip : ℕ) (name : List UInt8) : Prop where
  dir : t.type dp = .dir
  inum_eq : (t.entry dp k).inum = ip
  names : (t.entry dp k).Names name
  not_dot : dirKey name ≠ dirKey dot
  not_dotdot : dirKey name ≠ dirKey dotdot
  type_ne : t.type ip ≠ .free
  nlink_pos : ¬ t.nlink ip < 1
  empty : t.type ip = .dir → ∀ l, 2 ≤ l → (t.entry ip l).inum = 0

end Tree

/-- What a call is about: the names it may add to directories, the inodes that it may link, and the names it may remove. -/
structure Intent where
  adds : ℕ → List UInt8 → Prop
  links : ℕ → Prop
  removes : ℕ → List UInt8 → Prop

def Intent.none : Intent := ⟨fun _ _ => False, fun _ => False, fun _ _ => False⟩

variable {start : ℕ} {last : List UInt8} {Q : Unit → Fs → Prop} {parent : Bool} {type : FileType} {major : Int16} {reads : List (UInt32 × UInt32)}

namespace Tree

/-- Inodes without links may go. -/
abbrev Fades (t t' : Tree) : Prop := Settles (fun _ => 0) t t'

inductive Effect (I : Intent) (t t' : Tree) : Prop where
  | quiet : Fades t t' → Effect I t t'
  | make (t1 : Tree) (dp k : ℕ) (name : List UInt8) (ip : ℕ) (type : FileType) : Fades t t1 → I.adds dp name → t1.Vacant dp k name →
      t1.type ip = .free → 0 < ip → ip < ninodes → type ≠ .free → Fades (t1.make dp k name ip type) t' → Effect I t t'
  | link (t1 : Tree) (dp k : ℕ) (name : List UInt8) (ip : ℕ) : Fades t t1 → I.adds dp name → I.links ip → t1.Vacant dp k name →
      t1.type ip ≠ .free → t1.type ip ≠ .dir → Fades (t1.link dp k name ip) t' → Effect I t t'
  | unlink (t1 : Tree) (dp k : ℕ) (name : List UInt8) (ip : ℕ) : Fades t t1 → I.removes dp name → t1.Removable dp k ip name →
      Fades (t1.unlink dp k ip) t' → Effect I t t'

variable {t t' t'' t1 : Tree} {b : ℕ → ℕ} {I : Intent} {i ip dp k : ℕ} {n : Int16}

theorem Settles.weaken (h : Settles b t t') : Fades t t' := fun i => (h i).imp_right fun hfree => ⟨rfl, hfree.2⟩

theorem Effect.settles (h : Effect I t t') (hs : Fades t' t'') : Effect I t t'' := by
  cases h with
  | quiet h => exact .quiet (h.trans hs)
  | make t1 dp k name ip type h1 hadds hvacant hfree hpos hlt htype h2 =>
      exact .make t1 dp k name ip type h1 hadds hvacant hfree hpos hlt htype (h2.trans hs)
  | link t1 dp k name ip h1 hadds hlinks hvacant hused hfile h2 => exact .link t1 dp k name ip h1 hadds hlinks hvacant hused hfile (h2.trans hs)
  | unlink t1 dp k name ip h1 hremoves hremovable h2 => exact .unlink t1 dp k name ip h1 hremoves hremovable (h2.trans hs)

theorem Settles.setNlink (h : Settles b t t') (hip : SameNode t t' ip) : Settles b (t.setNlink ip n) (t'.setNlink ip n) := by
  intro i
  by_cases hi : i = ip
  · subst hi
    refine .inl ⟨hip.1, ?_, hip.2.2⟩
    simp only [Tree.setNlink, update_self]
  · rcases h i with ⟨htype, hnlink, hentry⟩ | ⟨hb, hold, htype, hnlink, hentry⟩
    · refine .inl ⟨htype, ?_, hentry⟩
      exact (update_of_ne hi ..).trans (hnlink.trans (update_of_ne hi ..).symm)
    · refine .inr ⟨hb, ?_, htype, (update_of_ne hi ..).trans hnlink, hentry⟩
      change update t.nlink ip n i = 0 ∨ t.type i = .free
      rw [update_of_ne hi]
      exact hold

theorem Walk.parent_dir {path : List UInt8} (h : Walk t true start path dp last) : t.type dp = .dir := by
  generalize hparent : true = parent at h
  induction h with
  | done hfalse _ =>
    rw [← hparent] at hfalse
    cases hfalse
  | last _ htype _ => exact htype
  | step _ _ _ _ ih => exact ih

theorem setNlink_nlink (t : Tree) (ip : ℕ) : (t.setNlink ip n).setNlink ip (t.nlink ip) = t := by
  unfold Tree.setNlink
  dsimp only
  rw [update_idem, update_eq_self]

end Tree

/-! ### Calls at work -/

/-- The panics that depend on the state of the tree are the two about free inodes and free blocks; no other is of interest. -/
def Tolerates (E : Panic → Prop) : Prop := ∀ e, e ≠ .ilockNoType → e ≠ .freeingFreeBlock → E e

/-- A state in which a call by a process in the directory `cwd` starts, or goes on. Free inodes are not referred to, and if coming across a free inode is to be excluded, then the process is among inodes that are safe to visit. -/
structure Ready (s : Fs) (b : ℕ → ℕ) (held : List ℕ) (V : ℕ → Prop) (E : Panic → Prop) (cwd : ℕ) : Prop where
  sane : s.Sane
  holds : s.tree.Holds b held
  cwd_pos : 0 < s.tree.ref cwd
  unheld : ∀ i, s.tree.type i = .free → b i = 0
  tolerates : Tolerates E
  safe : E .ilockNoType ∨ (s.tree.Guarded b V ∧ V rootino ∧ V cwd)

structure Calm (s s' : Fs) (b : ℕ → ℕ) (held : List ℕ) : Prop where
  sane : s'.Sane
  settles : s.tree.Settles b s'.tree
  holds : s'.tree.Holds b held

structure Outcome (s s' : Fs) (b : ℕ → ℕ) (held : List ℕ) (I : Intent) : Prop where
  sane : s'.Sane
  effect : s.tree.Effect I s'.tree
  holds : s'.tree.Holds b held
  types : ∀ i, 0 < b i → s'.tree.type i = s.tree.type i

variable {s s' s1 : Fs} {b : ℕ → ℕ} {held held' : List ℕ} {V : ℕ → Prop} {E : Panic → Prop} {cwd ip dp k : ℕ} {path name : List UInt8} {I : Intent}

section

variable (h : Calm s s1 b held)
include h

theorem Calm.types {i : ℕ} (hi : 0 < b i) : s1.tree.type i = s.tree.type i :=
  ((h.settles i).resolve_right fun hc => absurd hc.1 (Nat.ne_of_gt hi)).1

theorem Calm.outcome : Outcome s s1 b held I :=
  ⟨h.sane, .quiet h.settles.weaken, h.holds, fun _ => h.types⟩

theorem Calm.perm (hp : held.Perm held') : Calm s s1 b held' := ⟨h.sane, h.settles, h.holds.perm hp⟩

theorem Calm.next (hs : s'.Sane) (hsame : ∀ i, s1.tree.SameNode s'.tree i) (hholds : s'.tree.Holds b held') :
    Calm s s' b held' :=
  ⟨hs, h.settles.trans fun i => .inl (hsame i), hholds⟩

theorem Calm.post_ilock (hip : ip ∈ held) (hfree : s1.tree.type ip = .free → E .ilockNoType)
    (hQ : ∀ s2, Calm s s2 b held → s2.tree = s1.tree.lock ip → s1.tree.type ip ≠ .free → Q () s2) : Post (ilock ip) s1 Q E := by
  refine h.sane.post_ilock (h.holds.pos hip) hfree fun s2 hs2 ht2 hused => hQ s2 (h.next hs2 (fun i => ?_) ?_) ht2 hused
  · rw [ht2]
    exact ⟨rfl, rfl, rfl⟩
  · rw [ht2]
    exact h.holds

end

theorem Calm.post_iput (h : Calm s s1 b (ip :: held)) (hQ : ∀ s2, Calm s s2 b held → Q () s2) : Post (iput ip) s1 Q E :=
  h.sane.post_iput_held h.holds fun s2 hs2 hholds hsettles _ => hQ s2 ⟨hs2, h.settles.trans hsettles, hholds⟩

theorem Outcome.post_iput (h : Outcome s s1 b (ip :: held) I) (hQ : ∀ s2, Outcome s s2 b held I → Q () s2) :
    Post (iput ip) s1 Q E := by
  refine h.sane.post_iput_held h.holds fun s2 hs2 hholds hsettles _ => hQ s2 ⟨hs2, h.effect.settles hsettles.weaken, hholds, fun i hi => ?_⟩
  have hsame := (hsettles i).resolve_right fun hc => absurd hc.1 (Nat.ne_of_gt hi)
  exact hsame.1.trans (h.types i hi)

theorem lock_loaded (t : Tree) (i : ℕ) : (t.lock i).loaded i = true := update_self ..

/-- The inodes that a call may add names to, by a path. -/
def Parent (t : Tree) (cwd : ℕ) (path : List UInt8) (dp : ℕ) (name : List UInt8) : Prop := t.Walk true (namexStart cwd path) path dp name

def Target (t : Tree) (cwd : ℕ) (path : List UInt8) (ip : ℕ) : Prop := ∃ last, t.Walk false (namexStart cwd path) path ip last

theorem Ready.post_namex (h : Ready s b held V E cwd) :
    Post (namex cwd path parent) s (fun r s' => Followed s s' b held V E parent (namexStart cwd path) path r) E := by
  refine h.sane.post_namex h.cwd_pos h.holds (h.tolerates _ nofun nofun) (h.safe.imp_right fun hg => ⟨hg.1, ?_⟩)
  unfold namexStart
  split
  · exact hg.2.1
  · exact hg.2.2

theorem Calm.used (h : Calm s s1 b held) (hguard : E .ilockNoType ∨ s.tree.Guarded b V) (hV : E .ilockNoType ∨ V ip) :
    s1.tree.type ip = .free → E .ilockNoType := by
  intro hfree
  refine hguard.elim id fun hg => hV.elim id fun hip => ?_
  exact absurd hfree ((hg.settles h.settles).type_ne ip hip)

theorem Ready.guard (h : Ready s b held V E cwd) : E .ilockNoType ∨ s.tree.Guarded b V := h.safe.imp_right And.left

theorem Followed.calm (h : Followed s s1 b held V E parent start path (Option.some (dp, last))) :
    Calm s s1 b (dp :: held) := ⟨h.sane, h.settles, h.holds⟩

theorem Ready.post_parent (h : Ready s b held V E cwd) {α : Type} {none : FsM α} {some : ℕ → List UInt8 → FsM α} {Q : α → Fs → Prop}
    (hnone : ∀ s1, Calm s s1 b held → (∀ i ∈ held, s.tree.SameNode s1.tree i) → Post none s1 Q E)
    (hsome : ∀ dp name s1, Calm s s1 b (dp :: held) → (∀ i ∈ held, s.tree.SameNode s1.tree i) → Parent s.tree cwd path dp name →
      (E .ilockNoType ∨ V dp) → s1.tree.loaded dp = true → s1.tree.type dp = .dir → Post (some dp name) s1 Q E) :
    Post (nameiparent cwd path >>= fun r => match r with
      | .none => none
      | .some (dp, name) => do
        ilock dp
        some dp name) s Q E := by
  refine Post.step h.post_namex fun r s1 hr => ?_
  cases r with
  | none => exact hnone s1 ⟨hr.sane, hr.settles, hr.holds⟩ hr.kept
  | some q =>
    obtain ⟨dp, name⟩ := q
    have hwalk := hr.walk _ rfl
    have hsafe := hr.safe _ rfl
    refine Post.bind (hr.calm.post_ilock (List.mem_cons_self ..) (hr.calm.used h.guard hsafe) fun s2 hs2 ht2 hused => ?_)
    refine hsome dp name s2 hs2 (fun i hi => ?_) hwalk hsafe ?_ ?_
    · rw [ht2]
      exact hr.kept i hi
    · rw [ht2]
      exact lock_loaded ..
    · rw [ht2]
      exact (hr.settles.same_of_type hused).1.trans hwalk.parent_dir

structure Found (s s' : Fs) (b : ℕ → ℕ) (held : List ℕ) (V : ℕ → Prop) (E : Panic → Prop) (cwd : ℕ) (path : List UInt8) (r : Option ℕ) : Prop where
  calm : Calm s s' b (r.toList ++ held)
  target : ∀ ip, r = some ip → Target s.tree cwd path ip
  safe : ∀ ip, r = some ip → E .ilockNoType ∨ V ip

theorem Ready.post_namei (h : Ready s b held V E cwd) : Post (namei cwd path) s (fun r s' => Found s s' b held V E cwd path r) E := by
  refine Post.step h.post_namex fun r s1 hr => Post.pure ?_
  cases r with
  | none => exact ⟨⟨hr.sane, hr.settles, hr.holds⟩, nofun, nofun⟩
  | some q =>
    refine ⟨hr.calm, fun ip hip => ?_, fun ip hip => ?_⟩
    · cases hip
      exact ⟨q.2, hr.walk _ rfl⟩
    · cases hip
      exact hr.safe _ rfl

theorem Ready.post_target (h : Ready s b held V E cwd) {α : Type} {none : FsM α} {some : ℕ → FsM α} {Q : α → Fs → Prop}
    (hnone : ∀ s1, Calm s s1 b held → Post none s1 Q E)
    (hsome : ∀ ip s1, Calm s s1 b (ip :: held) → Target s.tree cwd path ip → (E .ilockNoType ∨ V ip) → s1.tree.loaded ip = true →
      s1.tree.type ip ≠ .free → Post (some ip) s1 Q E) :
    Post (namei cwd path >>= fun r => match r with
      | .none => none
      | .some ip => do
        ilock ip
        some ip) s Q E := by
  refine Post.step h.post_namei fun r s1 hr => ?_
  cases r with
  | none => exact hnone s1 hr.calm
  | some ip =>
    have hsafe := hr.safe ip rfl
    refine Post.bind (hr.calm.post_ilock (List.mem_cons_self ..) (hr.calm.used h.guard hsafe) fun s2 hs2 ht2 hused => ?_)
    refine hsome ip s2 hs2 (hr.target ip rfl) hsafe ?_ ?_
    · rw [ht2]
      exact lock_loaded ..
    · rw [ht2]
      exact hused

/-! ### `create` -/

theorem Tree.SameBut.refl (t : Tree) (ip : ℕ) : t.SameBut t ip := ⟨t.entry ip, by rw [update_eq_self]⟩

theorem Tree.SameBut.setEntry {t t' : Tree} (h : t.SameBut t' ip) (k : ℕ) (de : Dirent) : t.SameBut (t'.setEntry ip k de) ip := by
  obtain ⟨e, rfl⟩ := h
  refine ⟨update e k de, ?_⟩
  unfold Tree.setEntry
  dsimp only
  rw [update_idem, update_self]

/-- `.` and `..` of a new directory, or some of it. -/
theorem Fs.Sane.post_createDots (h : s.Sane) (hl : s.tree.loaded ip = true) (htype : s.tree.type ip = .dir) (hentry : s.tree.entry ip = fun _ => noEntry)
    (hpos : 0 < ip) (hip : ip < 2 ^ 16) (hdp : dp < 2 ^ 16) (hE : Tolerates E) {Q : Bool → Fs → Prop}
    (hfail : ∀ s', s'.Sane → s.tree.SameBut s'.tree ip → Q false s')
    (hdone : ∀ s', s'.Sane → s'.tree = (s.tree.setEntry ip 0 (Tree.newEntry ip dot)).setEntry ip 1 (Tree.newEntry dp dotdot) → Q true s') :
    Post (createDots dp ip) s Q E := by
  have hlookup : E .dirlookupRead := hE _ nofun nofun
  have hlink : E .dirlinkRead := hE _ nofun nofun
  refine Post.bind (h.post_dirlink hl htype hip hlookup hlink (fun s1 hs1 ht1 => ?_) fun k s1 _ _ hbefore hs1 ht1 => ?_)
  · rw [← ht1] at hfail
    exact Post.pure (hfail s1 hs1 (.refl ..))
  -- the directory is empty, so the first place is the first of all
  have hk : k = 0 := by
    by_contra hk
    exact hbefore 0 (Nat.pos_of_ne_zero hk) (by rw [hentry]; rfl)
  subst hk
  have htype1 : s1.tree.type ip = .dir := by rw [ht1]; exact htype
  have hl1 : s1.tree.loaded ip = true := by rw [ht1]; exact hl
  have hentry1 : s1.tree.entry ip = update (fun _ => noEntry) 0 (Tree.newEntry ip dot) := by
    rw [ht1, ← hentry]
    exact update_self ..
  refine Post.bind (hs1.post_dirlink hl1 htype1 hdp hlookup hlink (fun s2 hs2 ht2 => ?_) fun k s2 _ hzero hbefore hs2 ht2 => ?_)
  · refine Post.pure (hfail s2 hs2 ?_)
    rw [ht2, ht1]
    exact (Tree.SameBut.refl ..).setEntry ..
  have hk : k = 1 := by
    rw [hentry1] at hzero hbefore
    rcases Nat.lt_trichotomy k 1 with hlt | heq | hgt
    · obtain rfl : k = 0 := by omega
      rw [update_self] at hzero
      exact absurd hzero (Nat.ne_of_gt hpos)
    · exact heq
    · refine absurd ?_ (hbefore 1 hgt)
      rw [update_of_ne (by decide)]
      rfl
  subst hk
  refine Post.pure (hdone s2 hs2 ?_)
  rw [ht2, ht1]
  rfl

theorem Fs.Sane.post_createEntries (h : s.Sane) (heq : s.tree.type ip = type)
    (hl : s.tree.loaded ip = true) (hentry : s.tree.entry ip = fun _ => noEntry) (hpos : 0 < ip)
    (hip : ip < 2 ^ 16) (hl' : s.tree.loaded dp = true) (htype : s.tree.type dp = .dir) (hdp : dp < 2 ^ 16) (hne : dp ≠ ip) (hE : Tolerates E)
    {Q : Bool → Fs → Prop} (hfail : ∀ s', s'.Sane → s.tree.SameBut s'.tree ip → Q false s')
    (hdone : ∀ k s', s'.Sane → s.tree.Vacant dp k name →
      s'.tree = (s.tree.dots dp ip type).setEntry dp k (Tree.newEntry ip name) → Q true s') :
    Post (createEntries dp name ip type) s Q E := by
  subst heq
  have hlink : ∀ s1, s1.Sane → s.tree.SameBut s1.tree ip → s1.tree = s.tree.dots dp ip (s.tree.type ip) →
      Post (dirlink dp name ip >>= fun r => pure (decide (0 ≤ r))) s1 Q E := by
    intro s1 hs1 hsame hdots
    obtain ⟨e, ht1⟩ := id hsame
    have hentry1 : s1.tree.entry dp = s.tree.entry dp := by
      rw [ht1]
      exact update_of_ne hne ..
    have htype1 : s1.tree.type dp = .dir := by rw [ht1]; exact htype
    have hl1 : s1.tree.loaded dp = true := by rw [ht1]; exact hl'
    refine Post.bind
      (hs1.post_dirlink hl1 htype1 hip (hE _ nofun nofun) (hE _ nofun nofun) (fun s2 hs2 ht2 => ?_)
      fun k s2 hno hzero hbefore hs2 ht2 => ?_)
    · exact Post.pure (hfail s2 hs2 (by rw [ht2]; exact hsame))
    · rw [hentry1] at hno hzero hbefore
      rw [hdots] at ht2
      exact Post.pure (hdone k s2 hs2 ⟨htype, hno, hzero, hbefore⟩ ht2)
  unfold createEntries
  dsimp only
  split
  · rename_i hdir
    refine Post.bind (h.post_createDots hl hdir hentry hpos hip hdp hE (fun s1 hs1 hsame => ?_) fun s1 hs1 ht1 => ?_)
    · exact Post.pure (hfail s1 hs1 hsame)
    · refine hlink s1 hs1 ?_ (ht1.trans (if_pos hdir).symm)
      rw [ht1]
      exact ((Tree.SameBut.refl ..).setEntry ..).setEntry ..
  · rename_i hfile
    exact Post.bind (Post.pure (hlink s h (.refl ..) (if_neg hfile).symm))

structure Created (s s' : Fs) (b : ℕ → ℕ) (I : Intent) (type : FileType) (r : Option ℕ) : Prop where
  outcome : Outcome s s' b r.toList I
  loaded : ∀ ip, r = some ip → s'.tree.loaded ip = true
  type_ne : ∀ ip, r = some ip → type = .file → s'.tree.type ip ≠ .dir

theorem Created.none (h : Outcome s s1 b [] I) : Created s s1 b I type none := ⟨h, nofun, nofun⟩

theorem Calm.created_none (h : Calm s s1 b [dp]) :
    Post (iput dp >>= fun _ => pure none) s1 (fun r s' => Created s s' b I type r) E :=
  Post.bind (h.post_iput fun _ h2 => Post.pure (.none h2.outcome))

/-- A new inode that could not be entered into the directory goes again. -/
theorem Calm.post_createFail (h : Calm s s1 b [dp]) (hne : dp ≠ ip) (hb : b ip = 0) (hfree : s1.tree.type ip = .free)
    (hs' : s'.Sane) (hl : s'.tree.loaded ip = true) (href : s'.tree.ref = (s1.tree.get ip).ref)
    (hsame : ∀ j, j ≠ ip → s1.tree.SameNode s'.tree j) : Post (createFail dp ip) s' (fun r s'' => Created s s'' b I type r) E := by
  have hholds : s'.tree.Holds b [ip, dp] := (h.holds.get ip).congr href
  refine Post.bind (hs'.post_changeNlink hl fun s2 hs2 ht2 => Post.bind (hs2.post_iput fun s3 hs3 ht3 => ?_))
  have hone : s2.tree.ref ip = 1 := by
    rw [ht2]
    change s'.tree.ref ip = 1
    rw [hholds ip, hb, List.count_cons_self, List.count_cons_of_ne hne, List.count_nil]
  have hput : s2.tree.put ip = (s2.tree.free ip).drop ip := by
    refine if_pos ⟨hone, ?_, ?_⟩
    · rw [ht2]
      exact hl
    · rw [ht2]
      exact update_self ..
  refine Calm.created_none ⟨hs3, h.settles.trans fun j => ?_, ?_⟩
  · rw [ht3, hput, ht2]
    by_cases hj : j = ip
    · subst hj
      exact .inr ⟨hb, .inr hfree, update_self .., update_self .., update_self ..⟩
    · obtain ⟨htype, hnlink, hentry⟩ := hsame j hj
      refine .inl ⟨?_, ?_, ?_⟩
      · exact (update_of_ne hj ..).trans htype
      · exact (update_of_ne hj ..).trans hnlink
      · exact (update_of_ne hj ..).trans hentry
  · rw [ht3]
    refine Tree.Holds.put (hholds.congr ?_)
    rw [ht2]
    rfl

theorem Tree.loaded_put {t : Tree} (hne : ip ≠ dp) : (t.put dp).loaded ip = t.loaded ip := by
  unfold Tree.put
  split
  · exact update_of_ne hne ..
  · exact update_of_ne hne ..

theorem Tree.make_eq {t t' : Tree} (htype : t'.type = (t.alloc ip type).type)
    (hnlink : t'.nlink = ((t.alloc ip type).setNlink ip 1).nlink) (hentry : t'.entry = (t.alloc ip type).entry) (i : ℕ) :
    (t.make dp k name ip type).SameNode (((t'.dots dp ip type).setEntry dp k (newEntry ip name)).count dp type) i := by
  unfold Tree.make Tree.SameNode Tree.count Tree.dots Tree.setEntry
  split
  · exact ⟨congrFun htype i, by simp only [Tree.setNlink, hnlink], by simp only [Tree.setNlink, hentry]⟩
  · exact ⟨congrFun htype i, congrFun hnlink i, by simp only [Tree.setNlink, hentry]⟩

theorem Tree.type_make (t : Tree) : (t.make dp k name ip type).type = update t.type ip type := by
  unfold Tree.make Tree.count Tree.dots
  split <;> rfl

theorem Tree.ref_count (t : Tree) : (t.count dp type).ref = t.ref ∧ (t.count dp type).loaded = t.loaded := by
  unfold Tree.count
  split <;> exact ⟨rfl, rfl⟩

theorem Tree.ref_dots (t : Tree) : (t.dots dp ip type).ref = t.ref ∧ (t.dots dp ip type).loaded = t.loaded := by
  unfold Tree.dots
  split <;> exact ⟨rfl, rfl⟩

theorem Calm.post_createDone (h : Calm s s1 b [dp]) (hne : ip ≠ dp) (hb : b ip = 0) (hs' : s'.Sane)
    (hl : s'.tree.loaded ip = true) (hdp : s'.tree.loaded dp = true) (href : s'.tree.ref = (s1.tree.get ip).ref)
    (hmake : ∀ i, (s1.tree.make dp k name ip type).SameNode (s'.tree.count dp type) i)
    (heffect : ∀ t', (s1.tree.make dp k name ip type).Fades t' → s.tree.Effect I t') :
    Post (createDone dp ip type) s' (fun r s'' => Created s s'' b I type r) E := by
  have hend : ∀ s2, s2.Sane → s2.tree = s'.tree.count dp type →
      Post (iput dp >>= fun _ => pure (some ip)) s2 (fun r s'' => Created s s'' b I type r) E := by
    intro s2 hs2 ht2
    rw [← ht2] at hmake
    have hholds : s2.tree.Holds b [dp, ip] := by
      refine ((h.holds.get ip).congr ?_).perm (List.Perm.swap ..)
      rw [ht2, (s'.tree.ref_count).1, href]
    refine Post.bind (hs2.post_iput fun s3 hs3 ht3 => Post.pure ⟨⟨hs3, heffect _ ?_, ?_, fun j hj => ?_⟩, fun q hq => ?_, fun q hq hfile => ?_⟩)
    · rw [ht3]
      exact Tree.Settles.trans (fun i => .inl (hmake i)) (Tree.Settles.put hholds).weaken
    · rw [ht3]
      exact hholds.put
    · have hsame := (Tree.Settles.put hholds j).resolve_right fun hc => absurd hc.1 (Nat.ne_of_gt hj)
      have hjp : j ≠ ip := by
        rintro rfl
        omega
      rw [ht3, hsame.1, (hmake j).1, Tree.type_make, update_of_ne hjp, h.types hj]
    · cases hq
      rw [ht3, Tree.loaded_put hne, ht2, (s'.tree.ref_count).2, hl]
    · cases hq
      have hsame := hholds.same_put (List.mem_singleton_self ip)
      rw [ht3, hsame.1, (hmake ip).1, Tree.type_make, update_self, hfile]
      exact FileType.noConfusion
  unfold createDone
  split
  · rename_i hdir
    exact Post.bind (hs'.post_changeNlink hdp fun s2 hs2 ht2 => hend s2 hs2 (ht2.trans (if_pos hdir).symm))
  · rename_i hfile
    exact hend s' hs' (if_neg hfile).symm

theorem Calm.post_createNew (h : Calm s s1 b [dp]) (hE : Tolerates E)
    (hunheld : ∀ i, s.tree.type i = .free → b i = 0) (hl : s1.tree.loaded dp = true) (hdir : s1.tree.type dp = .dir) (htype : type ≠ .free)
    (hadds : I.adds dp name) : Post (createNew dp name type major) s1 (fun r s' => Created s s' b I type r) E := by
  refine Post.bind (h.sane.post_ialloc ?_ fun ip s2 hpos hlt hfree hs2 ht2 => ?_)
  · rw [if_pos rfl]
    exact h.created_none
  rw [if_neg (Nat.ne_of_gt hpos)]
  have hb : b ip = 0 := by
    rcases h.settles ip with hsame | hgone
    · exact hunheld ip (hsame.1.symm.trans hfree)
    · exact hgone.1
  have hne : dp ≠ ip := by
    rintro rfl
    rw [hdir] at hfree
    cases hfree
  have hdp : dp < ninodes := by
    by_contra hge
    rw [h.sane.range dp (by omega)] at hdir
    cases hdir
  have hsmall : ninodes < 2 ^ 16 := by decide
  have htype2 : s2.tree.type ip = type := by
    rw [ht2]
    exact update_self ..
  have href2 : 0 < s2.tree.ref ip := by
    rw [ht2]
    exact (h.holds.get ip).pos (List.mem_cons_self ..)
  refine Post.bind (hs2.post_ilock href2 (fun hfree2 => absurd (htype2.symm.trans hfree2) htype) fun s3 hs3 ht3 _ => ?_)
  refine hs3.post_init (by rw [ht3]; exact lock_loaded ..) fun s4 hs4 ht4 => ?_
  have ht : s4.tree = (((s1.tree.alloc ip type).get ip).lock ip).setNlink ip 1 := by rw [ht4, ht3, ht2]
  have hl4 : s4.tree.loaded ip = true := by
    rw [ht]
    exact lock_loaded ..
  have hdp4 : s4.tree.loaded dp = true := by
    rw [ht]
    exact (update_of_ne hne ..).trans hl
  have hdir4 : s4.tree.type dp = .dir := by
    rw [ht]
    exact (update_of_ne hne ..).trans hdir
  have hentry4 : s4.tree.entry dp = s1.tree.entry dp := by
    rw [ht]
    exact update_of_ne hne ..
  refine Post.bind (hs4.post_createEntries ?_ hl4 ?_ hpos (by omega) hdp4 hdir4 (by omega) hne hE (fun s5 hs5 hsame => ?_) fun k s5 hs5 hv ht5 => ?_)
  · rw [ht]
    exact update_self ..
  · rw [ht]
    exact update_self ..
  · obtain ⟨e, ht5⟩ := hsame
    refine h.post_createFail hne hb hfree hs5 ?_ ?_ fun j hj => ?_
    · rw [ht5]
      exact hl4
    · rw [ht5, ht]
      rfl
    · rw [ht5, ht]
      refine ⟨update_of_ne hj .., ?_, ?_⟩
      · exact (update_of_ne hj ..).trans (update_of_ne hj ..)
      · exact (update_of_ne hj ..).trans (update_of_ne hj ..)
  · have hvacant : s1.tree.Vacant dp k name := by
      obtain ⟨_, hno, hzero, hbefore⟩ := hv
      rw [hentry4] at hno hzero hbefore
      exact ⟨hdir, hno, hzero, hbefore⟩
    have hloaded5 : s5.tree.loaded = s4.tree.loaded := by
      rw [ht5]
      exact s4.tree.ref_dots.2
    refine h.post_createDone (Ne.symm hne) hb hs5 ?_ ?_ ?_ ?_ fun t' hfades =>
      .make s1.tree dp k name ip type h.settles.weaken hadds hvacant hfree hpos hlt htype hfades
    · rw [hloaded5]
      exact hl4
    · rw [hloaded5]
      exact hdp4
    · rw [ht5]
      exact (s4.tree.ref_dots.1).trans (by rw [ht]; rfl)
    · rw [ht5]
      exact Tree.make_eq (by rw [ht]; rfl) (by rw [ht]; rfl) (by rw [ht]; rfl)

theorem Calm.post_createExisting (h : Calm s s1 b [ip, dp]) (hused : ∀ s2, Calm s s2 b [ip] → s2.tree.type ip = .free → E .ilockNoType) :
    Post (createExisting dp ip type) s1 (fun r s' => Created s s' b I type r) E := by
  refine Post.bind ((h.perm (List.Perm.swap ..)).post_iput fun s2 h2 => ?_)
  refine Post.bind (h2.post_ilock (List.mem_singleton_self ip) (hused s2 h2) fun s3 h3 ht3 _ => ?_)
  have hl3 : s3.tree.loaded ip = true := by
    rw [ht3]
    exact lock_loaded ..
  refine Post.bind (h3.sane.post_inode hl3 fun d hd _ => ?_)
  rw [hd]
  split
  · rename_i hfile
    refine Post.pure ⟨h3.outcome, fun q hq => ?_, fun q hq _ hdir => ?_⟩
    · cases hq
      exact hl3
    · cases hq
      rw [hdir] at hfile
      rcases hfile.2 with hc | hc <;> cases hc
  · exact h3.created_none

def Intent.create (t : Tree) (cwd : ℕ) (path : List UInt8) : Intent := { Intent.none with adds := Parent t cwd path }

theorem Ready.post_create (h : Ready s b [] V E cwd) (htype : type ≠ .free) :
    Post (create cwd path type major) s (fun r s' => Created s s' b (Intent.create s.tree cwd path) type r) E := by
  refine h.post_parent (fun s1 h1 _ => Post.pure (.none h1.outcome)) fun dp name s1 h1 _ hparent hV hl hdir => ?_
  refine Post.bind (h1.sane.post_dirlookup hl hdir (h.tolerates _ nofun nofun) (fun _ => ?_) fun k s2 hk _ hs2 ht2 => ?_)
  · exact h1.post_createNew h.tolerates h.unheld hl hdir htype hparent
  · have h2 : Calm s s2 b [(s1.tree.entry dp k).inum, dp] := by
      refine h1.next hs2 (fun i => ?_) ?_
      · rw [ht2]
        exact ⟨rfl, rfl, rfl⟩
      · rw [ht2]
        exact h1.holds.get _
    refine h2.post_createExisting fun s3 h3 => h3.used h.guard ?_
    refine h.guard.elim .inl fun hg => hV.imp_right fun hdp => ?_
    have hsame := hg.same h1.settles hdp
    rw [hsame.2.2] at hk ⊢
    exact hg.closed dp k hdp hk.1

theorem Ready.post_sysMake (h : Ready s b [] V E cwd) (htype : type ≠ .free) :
    Post (sysMake cwd path type major) s (fun _ s' => Outcome s s' b [] (Intent.create s.tree cwd path)) E := by
  refine Post.step (h.post_create htype) fun r s1 hr => ?_
  cases r with
  | none => exact Post.pure hr.outcome
  | some ip => exact Post.bind (hr.outcome.post_iput fun s2 h2 => Post.pure h2)

/-! ### `link` -/

theorem Tree.Walk.congr {t t' : Tree} (htype : t'.type = t.type) (hentry : t'.entry = t.entry)
    (h : t'.Walk parent start path ip last) : t.Walk parent start path ip last := by
  induction h with
  | done hparent hpath => exact .done hparent hpath
  | last hparent hdir hpath => exact .last hparent (by rw [← htype]; exact hdir) hpath
  | step hdir hpath hname _ ih =>
    rw [hentry] at hname ih
    exact .step (by rw [← htype]; exact hdir) hpath hname ih

structure Entered (t t' : Tree) (b : ℕ → ℕ) (cwd : ℕ) (path : List UInt8) (ip : ℕ) (t1 : Tree) (dp k : ℕ) (name : List UInt8) : Prop where
  before : t.Settles b t1
  same : t.SameNode t1 ip
  parent : Parent t cwd path dp name
  vacant : t1.Vacant dp k name
  after : (t1.setEntry dp k (Tree.newEntry ip name)).Settles b t'

theorem Ready.post_linkEntry (h : Ready s b [ip] V E cwd) (hip : s.tree.type ip ≠ .free) :
    Post (linkEntry cwd path ip) s (fun r s' => s'.Sane ∧ s'.tree.Holds b [ip] ∧
      match r with
      | false => s.tree.Settles b s'.tree ∧ s.tree.SameNode s'.tree ip
      | true => ∃ t1 dp k name, Entered s.tree s'.tree b cwd path ip t1 dp k name) E := by
  have hlt : ip < 2 ^ 16 := by
    by_contra hge
    exact hip (h.sane.range ip (by unfold ninodes; omega))
  refine h.post_parent (fun s1 h1 hkept => Post.pure ⟨h1.sane, h1.holds, h1.settles, hkept ip (List.mem_singleton_self ip)⟩)
    fun dp name s1 h1 hkept hparent _ hl hdir => ?_
  have hsame := hkept ip (List.mem_singleton_self ip)
  refine Post.bind (h1.sane.post_dirlink hl hdir hlt (h.tolerates _ nofun nofun) (h.tolerates _ nofun nofun) (fun s2 hs2 ht2 => ?_)
    fun k s2 hno hzero hbefore hs2 ht2 => ?_)
  · refine Post.bind (hs2.post_iput_held (by rw [ht2]; exact h1.holds) fun s3 hs3 hholds hsettles hkept3 => Post.pure ⟨hs3, hholds, ?_⟩)
    rw [ht2] at hsettles hkept3
    exact ⟨h1.settles.trans hsettles, hsame.trans (hkept3 ip (List.mem_singleton_self ip))⟩
  · refine Post.bind (hs2.post_iput_held (by rw [ht2]; exact h1.holds) fun s3 hs3 hholds hsettles _ => Post.pure ⟨hs3, hholds, ?_⟩)
    rw [ht2] at hsettles
    exact ⟨s1.tree, dp, k, name, h1.settles, hsame, hparent, ⟨hdir, hno, hzero, hbefore⟩, hsettles⟩

theorem Tree.link_eq {t1 : Tree} {n : Int16} (hn : t1.nlink ip = n + 1) :
    (t1.setNlink ip n).link dp k name ip = t1.setEntry dp k (newEntry ip name) := by
  have hback : (t1.setNlink ip n).setNlink ip (n + 1) = t1 := by
    rw [← hn]
    exact t1.setNlink_nlink ip
  unfold Tree.link
  have hself : (t1.setNlink ip n).nlink ip = n := update_self ..
  rw [hself, hback]

def Intent.link (t : Tree) (cwd : ℕ) (old new : List UInt8) : Intent := { Intent.none with adds := Parent t cwd new, links := Target t cwd old }

theorem Calm.unheld (h : Calm s s1 b held) (hunheld : ∀ i, s.tree.type i = .free → b i = 0) {i : ℕ} (hfree : s1.tree.type i = .free) : b i = 0 := by
  rcases h.settles i with hsame | hgone
  · exact hunheld i (hsame.1.symm.trans hfree)
  · exact hgone.1

theorem Tree.Guarded.setNlink {t : Tree} {n : Int16} (h : t.Guarded b V) (hn : V ip → n ≠ 0) : (t.setNlink ip n).Guarded b V := by
  refine ⟨h.type_ne, fun i hi hb => ?_, h.closed⟩
  by_cases hip : i = ip
  · subst hip
    change update t.nlink i n i ≠ 0
    rw [update_self]
    exact hn hi
  · change update t.nlink ip n i ≠ 0
    rw [update_of_ne hip]
    exact h.nlink_ne i hi hb

theorem Ready.post_sysLink {old new : List UInt8} (h : Ready s b [] V E cwd) (hmax : E .ilockNoType ∨ ∀ i, V i → s.tree.nlink i + 1 ≠ 0) :
    Post (sysLink cwd old new) s (fun _ s' => Outcome s s' b [] (Intent.link s.tree cwd old new)) E := by
  refine h.post_target (fun s1 h1 => Post.pure h1.outcome) fun ip s1 h1 htarget _ hl hused => ?_
  refine Post.bind (h1.sane.post_inode hl fun d hd _ => ?_)
  rw [hd]
  split
  · exact Post.bind (h1.post_iput fun s2 h2 => Post.pure h2.outcome)
  rename_i hfile
  refine Post.bind (h1.sane.post_changeNlink hl fun s2 hs2 ht2 => ?_)
  have href2 : s2.tree.ref = s1.tree.ref := by rw [ht2]; rfl
  have htype2 : s2.tree.type = s1.tree.type := by rw [ht2]; rfl
  have hready : Ready s2 b [ip] V E cwd := by
    refine ⟨hs2, h1.holds.congr href2, ?_, fun i hfree => ?_, h.tolerates, ?_⟩
    · have hpos := h.cwd_pos
      rw [h.holds cwd, List.count_nil] at hpos
      rw [href2, h1.holds cwd]
      omega
    · rw [htype2] at hfree
      exact h1.unheld h.unheld hfree
    · refine h.safe.elim .inl fun hg => hmax.imp_right fun hmax => ⟨?_, hg.2⟩
      rw [ht2]
      refine (hg.1.settles h1.settles).setNlink fun hV => ?_
      rw [(hg.1.same h1.settles hV).2.1]
      exact hmax ip hV
  refine Post.step (hready.post_linkEntry (by rw [htype2]; exact hused)) fun r s3 hr => ?_
  obtain ⟨hs3, hholds3, hr⟩ := hr
  have hback : s2.tree.setNlink ip (s1.tree.nlink ip) = s1.tree := by
    rw [ht2]
    exact s1.tree.setNlink_nlink ip
  have hnlink : s2.tree.nlink ip = s1.tree.nlink ip + 1 := by
    rw [ht2]
    exact update_self ..
  cases r with
  | true =>
    obtain ⟨t1, dp, k, name, he⟩ := hr
    -- the count is set back in the tree before the entry is made, and raised with the entry
    have hbefore : s1.tree.Settles b (t1.setNlink ip (s1.tree.nlink ip)) := by
      have hset := he.before.setNlink (n := s1.tree.nlink ip) he.same
      rw [hback] at hset
      exact hset
    have hlink : (t1.setNlink ip (s1.tree.nlink ip)).link dp k name ip = t1.setEntry dp k (Tree.newEntry ip name) :=
      Tree.link_eq (he.same.2.1.trans hnlink)
    have hparent : Parent s.tree cwd new dp name :=
      Tree.Walk.of_settles h1.settles (Tree.Walk.congr htype2 (by rw [ht2]; rfl) he.parent)
    have hout : Outcome s s3 b [ip] (Intent.link s.tree cwd old new) := by
      refine ⟨hs3, ?_, hholds3, fun i hi => ?_⟩
      · refine .link (t1.setNlink ip (s1.tree.nlink ip)) dp k name ip (h1.settles.trans hbefore).weaken hparent htarget
          ⟨he.vacant.dir, he.vacant.no_name, he.vacant.inum_eq, he.vacant.before⟩ ?_ ?_ ?_
        · change t1.type ip ≠ .free
          rw [he.same.1, htype2]
          exact hused
        · change t1.type ip ≠ .dir
          rw [he.same.1, htype2]
          exact hfile
        · rw [hlink]
          exact he.after.weaken
      · have hafter := (he.after i).resolve_right fun hc => absurd hc.1 (Nat.ne_of_gt hi)
        have hsame := (he.before i).resolve_right fun hc => absurd hc.1 (Nat.ne_of_gt hi)
        exact hafter.1.trans (hsame.1.trans ((congrFun htype2 i).trans (h1.types hi)))
    exact Post.bind (hout.post_iput fun s4 h4 => Post.pure h4)
  | false =>
    obtain ⟨hsettles, hsame⟩ := hr
    have hused3 : s3.tree.type ip ≠ .free := by
      rw [hsame.1, htype2]
      exact hused
    refine Post.bind (hs3.post_ilock (hholds3.pos (List.mem_singleton_self ip)) (fun hfree => absurd hfree hused3) fun s4 hs4 ht4 _ => ?_)
    refine Post.bind (hs4.post_changeNlink (by rw [ht4]; exact lock_loaded ..) fun s5 hs5 ht5 => ?_)
    have hnlink5 : s4.tree.nlink ip - 1 = s1.tree.nlink ip := by
      rw [ht4]
      change s3.tree.nlink ip - 1 = _
      rw [hsame.2.1, hnlink, Int16.add_sub_cancel]
    have h5 : Calm s s5 b [ip] := by
      refine ⟨hs5, h1.settles.trans ?_, hholds3.congr (by rw [ht5, ht4]; rfl)⟩
      have hset := hsettles.setNlink (n := s1.tree.nlink ip) hsame
      rw [hback] at hset
      rw [ht5, hnlink5, ht4]
      exact hset
    exact Post.bind (h5.post_iput fun s6 h6 => Post.pure h6.outcome)

/-! ### `unlink` -/

theorem Tree.Holds.loaded_put {t : Tree} {i j : ℕ} (h : t.Holds b (i :: held)) (hj : j ∈ held) (hl : t.loaded j = true) :
    (t.put i).loaded j = true := by
  by_cases hji : j = i
  · subst hji
    have hcount := List.count_pos_iff.mpr hj
    have href := h j
    rw [List.count_cons_self] at href
    have hdrop : (t.loaded j && decide (1 < t.ref j)) = true := by
      rw [hl, Bool.true_and]
      exact decide_eq_true (by omega)
    unfold Tree.put
    split
    · exact (update_self ..).trans hdrop
    · exact (update_self ..).trans hdrop
  · rw [Tree.loaded_put hji]
    exact hl

theorem Calm.post_unlinkBad (h : Calm s s1 b [dp]) : Post (unlinkBad dp) s1 (fun _ s' => Outcome s s' b [] I) E :=
  Post.bind (h.post_iput fun _ h2 => Post.pure h2.outcome)

theorem Fs.Sane.post_unlinkBusy (h : s.Sane) (hl : s.tree.loaded ip = true) (hE : Tolerates E) {Q : Bool → Fs → Prop} (hbusy : Q true s)
    (hempty : (s.tree.type ip = .dir → ∀ k, 2 ≤ k → (s.tree.entry ip k).inum = 0) → Q false s) :
    Post (unlinkBusy ip (s.tree.type ip)) s Q E := by
  unfold unlinkBusy
  split
  · rename_i hdir
    refine Post.bind (h.post_isdirempty hl hdir (hE _ nofun nofun) fun r hr => Post.pure ?_)
    cases r with
    | true => exact hempty fun _ => hr.mp rfl
    | false => exact hbusy
  · rename_i hfile
    exact Post.pure (hempty fun hdir => absurd hdir hfile)

theorem Calm.post_unlinkDone (h : Calm s s1 b [ip, dp]) (hip : s1.tree.loaded ip = true) (hdp : s1.tree.loaded dp = true) (hs' : s'.Sane)
    (ht' : s'.tree = s1.tree.setEntry dp k Dirent.zero)
    (heffect : ∀ t', (s1.tree.unlink dp k ip).Fades t' → s.tree.Effect I t') :
    Post (unlinkDone dp ip (s1.tree.type ip)) s' (fun _ s'' => Outcome s s'' b [] I) E := by
  have hend : ∀ s2, s2.Sane → s2.tree = s1.tree.cut dp k ip → s2.tree.ref = s1.tree.ref → s2.tree.loaded = s1.tree.loaded →
      s2.tree.type = s1.tree.type → Post (do iput dp; changeNlink ip (· - 1); iput ip; pure 0 : FsM ℤ) s2 (fun _ s'' => Outcome s s'' b [] I) E := by
    intro s2 hs2 ht2 href hloaded htype
    have hholds : s2.tree.Holds b [dp, ip] := (h.holds.congr href).perm (List.Perm.swap ..)
    have hmem : ip ∈ [ip] := List.mem_singleton_self ip
    refine Post.bind (hs2.post_iput fun s3 hs3 ht3 => ?_)
    have hl3 : s3.tree.loaded ip = true := by
      rw [ht3]
      exact hholds.loaded_put hmem (by rw [hloaded]; exact hip)
    refine Post.bind (hs3.post_changeNlink hl3 fun s4 hs4 ht4 => ?_)
    have hsame : s2.tree.SameNode s3.tree ip := by
      rw [ht3]
      exact hholds.same_put hmem
    have hsettles : (s1.tree.unlink dp k ip).Settles b s4.tree := by
      have hput := (Tree.Settles.put hholds).setNlink (n := s2.tree.nlink ip - 1) (by rw [← ht3]; exact hsame)
      rw [ht4, hsame.2.1, ht3]
      unfold Tree.unlink
      rw [← ht2]
      exact hput
    have hout : Outcome s s4 b [ip] I := by
      refine ⟨hs4, heffect _ hsettles.weaken, ?_, fun i hi => ?_⟩
      · rw [ht4, ht3]
        exact hholds.put
      · have hkept := (Tree.Settles.put hholds i).resolve_right fun hc => absurd hc.1 (Nat.ne_of_gt hi)
        rw [ht4, ht3]
        exact hkept.1.trans ((congrFun htype i).trans (h.types hi))
    exact Post.bind (hout.post_iput fun s5 h5 => Post.pure h5)
  unfold unlinkDone
  split
  · rename_i hdir
    refine Post.bind (hs'.post_changeNlink (by rw [ht']; exact hdp) fun s2 hs2 ht2 => hend s2 hs2 ?_ ?_ ?_ ?_)
    · rw [ht2, ht']
      exact (if_pos hdir).symm
    all_goals
      rw [ht2, ht']
      rfl
  · rename_i hfile
    refine hend s' hs' ?_ ?_ ?_ ?_
    · rw [ht']
      exact (if_neg hfile).symm
    all_goals
      rw [ht']
      rfl

theorem Calm.post_unlinkEntry (h : Calm s s1 b [ip, dp]) (hE : Tolerates E) (hused : s1.tree.type ip = .free → E .ilockNoType)
    (hdir : s1.tree.type dp = .dir) (hl : s1.tree.loaded dp = true) (hip : (s1.tree.entry dp k).inum = ip) (hk : (s1.tree.entry dp k).Names name)
    (hdot : dirKey name ≠ dirKey dot) (hdotdot : dirKey name ≠ dirKey dotdot) (hremoves : I.removes dp name) :
    Post (unlinkEntry dp ip (16 * k)) s1 (fun _ s' => Outcome s s' b [] I) E := by
  refine Post.bind (h.post_ilock (List.mem_cons_self ..) hused fun s2 h2 ht2 hne => ?_)
  have hip2 : s2.tree.loaded ip = true := by
    rw [ht2]
    exact lock_loaded ..
  have hdp2 : s2.tree.loaded dp = true := by
    rw [ht2]
    by_cases heq : dp = ip
    · rw [heq]
      exact lock_loaded ..
    · exact (update_of_ne heq ..).trans hl
  have htype2 : s2.tree.type = s1.tree.type := by rw [ht2]; rfl
  have hentry2 : s2.tree.entry = s1.tree.entry := by rw [ht2]; rfl
  rw [← hentry2] at hk hip
  rw [← htype2] at hne hdir
  refine Post.bind (h2.sane.post_inode hip2 fun d hd hnlink => ?_)
  rw [hd, hnlink]
  split
  · exact Post.panic (hE _ nofun nofun)
  rename_i hpos
  refine Post.bind (h2.sane.post_unlinkBusy hip2 hE ?_ fun hempty => ?_)
  · exact Post.bind (h2.post_iput fun s3 h3 => h3.post_unlinkBad)
  refine Post.bind (h2.sane.post_writeDirent hdp2 hdir hk.1 (by decide) (by decide) fun s3 hs3 ht3 => ?_)
  rw [if_pos rfl]
  exact h2.post_unlinkDone hip2 hdp2 hs3 ht3 fun t' hfades =>
    .unlink s2.tree dp k name ip h2.settles.weaken hremoves ⟨hdir, hip, hk, hdot, hdotdot, hne, hpos, hempty⟩ hfades

def Intent.unlink (t : Tree) (cwd : ℕ) (path : List UInt8) : Intent := { Intent.none with removes := Parent t cwd path }

theorem Ready.post_sysUnlink (h : Ready s b [] V E cwd) :
    Post (sysUnlink cwd path) s (fun _ s' => Outcome s s' b [] (Intent.unlink s.tree cwd path)) E := by
  refine h.post_parent (fun s1 h1 _ => Post.pure h1.outcome) fun dp name s1 h1 _ hparent hV hl hdir => ?_
  split
  · exact h1.post_unlinkBad
  rename_i hname
  rw [namecmp_eq_zero_iff, namecmp_eq_zero_iff, not_or] at hname
  refine Post.bind (h1.sane.post_dirlookup hl hdir (h.tolerates _ nofun nofun) (fun _ => h1.post_unlinkBad) fun k s2 hk _ hs2 ht2 => ?_)
  have hsame2 (i : ℕ) : s1.tree.SameNode s2.tree i := by
    rw [ht2]
    exact ⟨rfl, rfl, rfl⟩
  have h2 : Calm s s2 b [(s1.tree.entry dp k).inum, dp] := by
    refine h1.next hs2 hsame2 ?_
    rw [ht2]
    exact h1.holds.get _
  have hentry := (hsame2 dp).2.2
  refine h2.post_unlinkEntry h.tolerates (h2.used h.guard ?_) ((hsame2 dp).1.trans hdir)
    (by rw [ht2]; exact hl) (by rw [hentry]) (by rw [hentry]; exact hk)
    hname.1 hname.2 hparent
  refine h.guard.elim .inl fun hg => hV.imp_right fun hdp => ?_
  rw [(hg.same h1.settles hdp).2.2] at hk ⊢
  exact hg.closed dp k hdp hk.1

/-! ### `open` and `exec` -/

theorem Ready.post_openInode {omode : UInt32} (h : Ready s b [] V E cwd) :
    Post (openInode cwd path omode) s (fun r s' =>
      Outcome s s' b r.toList (if omode &&& oCreate ≠ 0 then Intent.create s.tree cwd path else Intent.none) ∧
      ∀ ip, r = some ip → s'.tree.loaded ip = true ∧ (s'.tree.type ip = .dir → omode = 0)) E := by
  unfold openInode
  split
  · refine (h.post_create FileType.noConfusion).mono (fun r s' hr => ⟨hr.outcome, fun ip hip => ⟨hr.loaded ip hip, fun hdir => ?_⟩⟩) fun _ he => he
    exact absurd hdir (hr.type_ne ip hip rfl)
  · refine h.post_target (fun s1 h1 => Post.pure ⟨h1.outcome, nofun⟩) fun ip s1 h1 _ _ hl _ => ?_
    refine Post.bind (h1.sane.post_inode hl fun d hd _ => ?_)
    rw [hd]
    split
    · exact Post.bind (h1.post_iput fun s2 h2 => Post.pure ⟨h2.outcome, nofun⟩)
    · rename_i hopen
      refine Post.pure ⟨h1.outcome, fun q hq => ?_⟩
      cases hq
      exact ⟨hl, fun hdir => not_not.mp fun hmode => hopen ⟨hdir, hmode⟩⟩

theorem Calm.post_execReads (h : Calm s s1 b [ip]) (hl : s1.tree.loaded ip = true) :
    Post (execReads ip reads) s1 (fun _ s' => s' = s1) E := by
  induction reads with
  | nil => exact Post.pure rfl
  | cons q reads ih => exact Post.bind (h.sane.post_readi hl fun _ => ih)

theorem Ready.post_exec (h : Ready s b [] V E cwd) :
    Post (exec cwd path reads) s (fun _ s' => Outcome s s' b [] Intent.none) E := by
  refine h.post_target (fun s1 h1 => Post.pure h1.outcome) fun ip s1 h1 _ _ hl _ => ?_
  refine Post.step (h1.post_execReads hl) fun _ s2 hs2 => ?_
  rw [hs2]
  exact Post.bind (h1.post_iput fun s3 h3 => Post.pure h3.outcome)

end AdvancedXv6.FileSystem
