import AdvancedXv6.FileSystem.Tree

/-!
# Following paths

`namex` takes and drops references as it goes from directory to directory. What it leaves behind is the tree it found, with a reference to the inode it returns, except that it may have freed inodes that nobody else needs. It does not come across a free inode when it starts in a set of inodes that its steps do not leave and that has none.
-/

namespace AdvancedXv6.FileSystem

open Function Prog

variable {parent : Bool} {dp : ℕ} {path last : List UInt8}

namespace Tree

/-! ### References held by a call -/

/-- There are the references that `b` counts and, on top of them, one for every inode in the list. -/
def Holds (t : Tree) (b : ℕ → ℕ) (held : List ℕ) : Prop := ∀ i, t.ref i = b i + held.count i

variable {t t' t'' : Tree} {b : ℕ → ℕ} {held held' : List ℕ} {i j k : ℕ}

theorem holds_nil (t : Tree) : t.Holds t.ref [] := fun _ => rfl

section

variable (h : t.Holds b held)
include h

theorem Holds.perm (hp : held.Perm held') : t.Holds b held' := fun i => by rw [h i, hp.count_eq]

theorem Holds.congr (href : t'.ref = t.ref) : t'.Holds b held := fun i => by rw [href, h i]

theorem Holds.pos (hi : i ∈ held) : 0 < t.ref i := by
  have hcount := List.count_pos_iff.mpr hi
  rw [h i]
  omega

theorem Holds.get (i : ℕ) : (t.get i).Holds b (i :: held) := by
  intro j
  unfold Tree.get
  dsimp only
  by_cases hj : j = i
  · subst hj
    rw [update_self, h j, List.count_cons_self, Nat.add_assoc]
  · rw [update_of_ne hj, h j, List.count_cons_of_ne (Ne.symm hj)]

end

theorem ref_put (t : Tree) (i : ℕ) : (t.put i).ref = update t.ref i (t.ref i - 1) := by
  unfold Tree.put
  split <;> rfl

theorem Holds.put (h : t.Holds b (i :: held)) : (t.put i).Holds b held := by
  intro j
  rw [ref_put]
  by_cases hj : j = i
  · subst hj
    rw [update_self, h j, List.count_cons_self]
    omega
  · rw [update_of_ne hj, h j, List.count_cons_of_ne (Ne.symm hj)]

/-! ### What stays the same -/

def SameNode (t t' : Tree) (i : ℕ) : Prop := t'.type i = t.type i ∧ t'.nlink i = t.nlink i ∧ t'.entry i = t.entry i

def Empty (t : Tree) (i : ℕ) : Prop := t.type i = .free ∧ t.nlink i = 0 ∧ t.entry i = fun _ => noEntry

/-- The inodes stay, but some that had no links and that nobody referred to may be gone. -/
def Settles (b : ℕ → ℕ) (t t' : Tree) : Prop :=
  ∀ i, SameNode t t' i ∨ (b i = 0 ∧ (t.nlink i = 0 ∨ t.type i = .free) ∧ t'.Empty i)

theorem Settles.of_same (htype : t'.type = t.type) (hnlink : t'.nlink = t.nlink) (hentry : t'.entry = t.entry) : Settles b t t' :=
  fun i => .inl ⟨by rw [htype], by rw [hnlink], by rw [hentry]⟩

theorem Settles.refl (b : ℕ → ℕ) (t : Tree) : Settles b t t := Settles.of_same rfl rfl rfl

theorem Settles.trans (h : Settles b t t') (h' : Settles b t' t'') : Settles b t t'' := by
  intro i
  rcases h i with ⟨htype, hnlink, hentry⟩ | ⟨hb, hold, hempty⟩
  · rcases h' i with ⟨htype', hnlink', hentry'⟩ | ⟨hb, hold, hempty⟩
    · exact .inl ⟨htype'.trans htype, hnlink'.trans hnlink, hentry'.trans hentry⟩
    · rw [htype, hnlink] at hold
      exact .inr ⟨hb, hold, hempty⟩
  · rcases h' i with ⟨htype', hnlink', hentry'⟩ | ⟨_, _, hempty'⟩
    · exact .inr ⟨hb, hold, htype'.trans hempty.1, hnlink'.trans hempty.2.1, hentry'.trans hempty.2.2⟩
    · exact .inr ⟨hb, hold, hempty'⟩

theorem Settles.same_of_type (h : Settles b t t') (htype : t'.type i ≠ .free) : SameNode t t' i :=
  (h i).resolve_right fun hc => htype hc.2.2.1

theorem Settles.put (h : t.Holds b (i :: held)) : Settles b t (t.put i) := by
  intro j
  unfold Tree.put
  split
  · rename_i hfree
    by_cases hj : j = i
    · subst hj
      have hone := hfree.1
      rw [h j, List.count_cons_self] at hone
      refine .inr ⟨by omega, .inl hfree.2.2, ?_, hfree.2.2, ?_⟩
      · exact update_self ..
      · exact update_self ..
    · exact .inl ⟨update_of_ne hj .., rfl, update_of_ne hj ..⟩
  · exact .inl ⟨rfl, rfl, rfl⟩

theorem SameNode.refl (t : Tree) (i : ℕ) : SameNode t t i := ⟨rfl, rfl, rfl⟩

theorem SameNode.trans (h : SameNode t t' i) (h' : SameNode t' t'' i) : SameNode t t'' i :=
  ⟨h'.1.trans h.1, h'.2.1.trans h.2.1, h'.2.2.trans h.2.2⟩

theorem Holds.same_put (h : t.Holds b (i :: held)) (hj : j ∈ held) : SameNode t (t.put i) j := by
  unfold Tree.put
  split
  · rename_i hfree
    have hne : j ≠ i := by
      rintro rfl
      have hone := hfree.1
      have hcount := List.count_pos_iff.mpr hj
      rw [h j, List.count_cons_self] at hone
      omega
    exact ⟨update_of_ne hne .., rfl, update_of_ne hne ..⟩
  · exact SameNode.refl t j

/-! ### Inodes that are safe to visit -/

/-- The inodes in `V` are in use and stay so, and the entries of its directories lead to others in it. -/
structure Guarded (t : Tree) (b : ℕ → ℕ) (V : ℕ → Prop) : Prop where
  type_ne : ∀ i, V i → t.type i ≠ .free
  nlink_ne : ∀ i, V i → b i = 0 → t.nlink i ≠ 0
  closed : ∀ i k, V i → (t.entry i k).inum ≠ 0 → V (t.entry i k).inum

variable {V : ℕ → Prop}

theorem Guarded.same (h : t.Guarded b V) (hs : Settles b t t') (hi : V i) : SameNode t t' i :=
  (hs i).resolve_right fun hc => hc.2.1.elim (h.nlink_ne i hi hc.1) (h.type_ne i hi)

theorem Guarded.settles (h : t.Guarded b V) (hs : Settles b t t') : t'.Guarded b V := by
  refine ⟨fun i hi => ?_, fun i hi hb => ?_, fun i k hi => ?_⟩
  · rw [(h.same hs hi).1]
    exact h.type_ne i hi
  · rw [(h.same hs hi).2.1]
    exact h.nlink_ne i hi hb
  · rw [(h.same hs hi).2.2]
    exact h.closed i k hi

/-! ### Walks -/

/-- Following a path from an inode to where `namex` returns, with the last element for `nameiparent`. -/
inductive Walk (t : Tree) (parent : Bool) : ℕ → List UInt8 → ℕ → List UInt8 → Prop where
  | done {ip : ℕ} {path : List UInt8} : parent = false → skipelem path = none → Walk t parent ip path ip []
  | last {ip : ℕ} {path name : List UInt8} : parent = true → t.type ip = .dir → skipelem path = some (name, []) → Walk t parent ip path ip name
  | step {ip k dp : ℕ} {path name rest last : List UInt8} : t.type ip = .dir → skipelem path = some (name, rest) →
      (t.entry ip k).Names name → Walk t parent (t.entry ip k).inum rest dp last → Walk t parent ip path dp last

theorem Walk.of_settles {ip : ℕ} (h : Settles b t t') (hw : Walk t' parent ip path dp last) :
    Walk t parent ip path dp last := by
  induction hw with
  | done hparent hpath => exact .done hparent hpath
  | last hparent htype hpath =>
    obtain ⟨heq, _, _⟩ := h.same_of_type (by rw [htype]; exact FileType.noConfusion)
    exact .last hparent (heq.symm.trans htype) hpath
  | step htype hpath hname _ ih =>
    obtain ⟨heq, _, hentry⟩ := h.same_of_type (by rw [htype]; exact FileType.noConfusion)
    rw [hentry] at hname ih
    exact .step (heq.symm.trans htype) hpath hname ih

end Tree

/-! ### `namex` -/

theorem dropWhile_slash_cases (path : List UInt8) :
    path.dropWhile (· == slash) = [] ∨ ∃ c cs, path.dropWhile (· == slash) = c :: cs ∧ (c == slash) = false := by
  have hhead := List.head?_dropWhile_not (· == slash) path
  cases hpath : path.dropWhile (· == slash) with
  | nil => exact .inl rfl
  | cons c cs =>
    rw [hpath] at hhead
    exact .inr ⟨c, cs, rfl, by simpa using hhead⟩

theorem skipelem_length {name rest : List UInt8} (h : skipelem path = some (name, rest)) : rest.length < path.length := by
  unfold skipelem at h
  dsimp only at h
  split at h
  · cases h
  · rename_i hne
    obtain ⟨_, rfl⟩ := Prod.mk.inj (Option.some.inj h)
    have hfirst : (path.dropWhile (· == slash)).length ≤ path.length := List.length_dropWhile_le ..
    have hsecond := List.length_dropWhile_le (· == slash) ((path.dropWhile (· == slash)).dropWhile (· != slash))
    obtain ⟨c, cs, hpath, hc⟩ := (dropWhile_slash_cases path).resolve_left hne
    rw [hpath] at hfirst hsecond ⊢
    rw [List.dropWhile_cons_of_pos (by simp [bne, hc])] at hsecond ⊢
    have hthird := List.length_dropWhile_le (· != slash) cs
    rw [List.length_cons] at hfirst
    omega

variable {s s' : Fs} {ip : ℕ} {b : ℕ → ℕ} {held : List ℕ} {V : ℕ → Prop} {E : Panic → Prop}

theorem Fs.Sane.post_iput_held (h : s.Sane) (hh : s.tree.Holds b (ip :: held)) {Q : Unit → Fs → Prop}
    (hQ : ∀ s', s'.Sane → s'.tree.Holds b held → s.tree.Settles b s'.tree → (∀ i ∈ held, s.tree.SameNode s'.tree i) → Q () s') :
    Post (iput ip) s Q E := by
  refine h.post_iput fun s' hs' ht' => hQ s' hs' ?_ ?_ fun i hi => ?_
  · rw [ht']
    exact hh.put
  · rw [ht']
    exact Tree.Settles.put hh
  · rw [ht']
    exact hh.same_put hi

structure Followed (s s' : Fs) (b : ℕ → ℕ) (held : List ℕ) (V : ℕ → Prop) (E : Panic → Prop) (parent : Bool) (ip : ℕ) (path : List UInt8)
    (r : Option (ℕ × List UInt8)) : Prop where
  sane : s'.Sane
  settles : s.tree.Settles b s'.tree
  holds : s'.tree.Holds b (r.toList.map Prod.fst ++ held)
  kept : ∀ i ∈ held, s.tree.SameNode s'.tree i
  walk : ∀ q, r = some q → s.tree.Walk parent ip path q.1 q.2
  safe : ∀ q, r = some q → E .ilockNoType ∨ V q.1

theorem Followed.none (h : s'.Sane) (hsettles : s.tree.Settles b s'.tree) (hholds : s'.tree.Holds b held)
    (hkept : ∀ i ∈ held, s.tree.SameNode s'.tree i) : Followed s s' b held V E parent ip path none := ⟨h, hsettles, hholds, hkept, nofun, nofun⟩

theorem Followed.some (h : s'.Sane) (hsettles : s.tree.Settles b s'.tree)
    (hholds : s'.tree.Holds b (dp :: held)) (hkept : ∀ i ∈ held, s.tree.SameNode s'.tree i) (hwalk : s.tree.Walk parent ip path dp last)
    (hsafe : E .ilockNoType ∨ V dp) : Followed s s' b held V E parent ip path (some (dp, last)) :=
  ⟨h, hsettles, hholds, hkept, fun q hq => by cases hq; exact hwalk, fun q hq => by cases hq; exact hsafe⟩

theorem Fs.Sane.post_namexEnd (h : s.Sane) (hh : s.tree.Holds b (ip :: held)) (hV : E .ilockNoType ∨ V ip)
    (hpath : skipelem path = none) : Post (namexEnd parent ip) s (fun r s' => Followed s s' b held V E parent ip path r) E := by
  unfold namexEnd
  cases parent with
  | true => exact Post.bind (h.post_iput_held hh fun s' hs' hholds hsettles hkept => Post.pure (Followed.none hs' hsettles hholds hkept))
  | false => exact Post.pure (Followed.some h (Tree.Settles.refl b _) hh (fun i _ => Tree.SameNode.refl _ i) (.done rfl hpath) hV)

theorem Fs.Sane.post_namexLoop (h : s.Sane) (hh : s.tree.Holds b (ip :: held)) {fuel : ℕ}
    (hfuel : path.length ≤ fuel) (hE : E .dirlookupRead) (hV : E .ilockNoType ∨ (s.tree.Guarded b V ∧ V ip)) :
    Post (namexLoop parent fuel ip path) s (fun r s' => Followed s s' b held V E parent ip path r) E := by
  induction fuel generalizing s ip path with
  | zero =>
    have hnil : path = [] := List.length_eq_zero_iff.mp (Nat.le_zero.mp hfuel)
    subst hnil
    exact h.post_namexEnd hh (hV.imp_right And.right) rfl
  | succ fuel ih =>
    unfold namexLoop
    cases hskip : skipelem path with
    | none => exact h.post_namexEnd hh (hV.imp_right And.right) hskip
    | some q =>
      obtain ⟨name, rest⟩ := q
      have hlength := skipelem_length hskip
      refine Post.bind (h.post_ilock (hh.pos (List.mem_cons_self ..)) (fun hfree => ?_) fun s1 hs1 ht1 hused => ?_)
      · exact hV.resolve_right fun hg => hg.1.type_ne ip hg.2 hfree
      have hsame1 (i : ℕ) : s.tree.SameNode s1.tree i := by
        rw [ht1]
        exact ⟨rfl, rfl, rfl⟩
      have hsettles1 : s.tree.Settles b s1.tree := fun i => .inl (hsame1 i)
      have hholds1 : s1.tree.Holds b (ip :: held) := hh.congr (by rw [ht1]; rfl)
      have htype1 : s1.tree.type ip = s.tree.type ip := by rw [ht1]; rfl
      have hloaded1 : s1.tree.loaded ip = true := by
        rw [ht1]
        exact update_self ..
      refine Post.bind (hs1.post_inode hloaded1 fun d hd _ => ?_)
      rw [hd, htype1]
      split
      · refine Post.bind (hs1.post_iput_held hholds1 fun s2 hs2 hholds2 hsettles2 hkept2 => Post.pure ?_)
        exact Followed.none hs2 (hsettles1.trans hsettles2) hholds2 fun i hi => (hsame1 i).trans (hkept2 i hi)
      rename_i hdir
      rw [ne_eq, not_not] at hdir
      split
      · rename_i hlast
        obtain ⟨hparent, rfl⟩ := hlast
        exact Post.pure (Followed.some hs1 hsettles1 hholds1 (fun i _ => hsame1 i) (.last hparent hdir hskip) (hV.imp_right And.right))
      refine Post.bind (hs1.post_dirlookup hloaded1 (htype1.trans hdir) hE (fun _ => ?_) fun k s2 hk _ hs2 ht2 => ?_)
      · refine Post.bind (hs1.post_iput_held hholds1 fun s2 hs2 hholds2 hsettles2 hkept2 => Post.pure ?_)
        exact Followed.none hs2 (hsettles1.trans hsettles2) hholds2 fun i hi => (hsame1 i).trans (hkept2 i hi)
      have hentry1 : s1.tree.entry = s.tree.entry := by rw [ht1]; rfl
      have hholds2 : s2.tree.Holds b (ip :: (s1.tree.entry ip k).inum :: held) := by
        rw [ht2]
        exact (hholds1.get _).perm (List.Perm.swap ..)
      have hsame2 (i : ℕ) : s1.tree.SameNode s2.tree i := by
        rw [ht2]
        exact ⟨rfl, rfl, rfl⟩
      have hsettles2 : s1.tree.Settles b s2.tree := fun i => .inl (hsame2 i)
      refine Post.bind (hs2.post_iput_held hholds2 fun s3 hs3 hholds3 hsettles3 hkept3 => ?_)
      have hsettles := (hsettles1.trans hsettles2).trans hsettles3
      rw [hentry1] at hk hholds3 ⊢
      refine (ih hs3 hholds3 (by omega) ?_).mono (fun r s' hr => ?_) fun _ he => he
      · exact hV.imp_right fun hg => ⟨hg.1.settles hsettles, hg.1.closed ip k hg.2 hk.1⟩
      · have hkept (i : ℕ) (hi : i ∈ held) : s.tree.SameNode s'.tree i :=
          (((hsame1 i).trans (hsame2 i)).trans (hkept3 i (List.mem_cons_of_mem _ hi))).trans (hr.kept i hi)
        exact ⟨hr.sane, hsettles.trans hr.settles, hr.holds, hkept,
          fun q hq => .step hdir hskip hk (Tree.Walk.of_settles hsettles (hr.walk q hq)), hr.safe⟩

def namexStart (cwd : ℕ) (path : List UInt8) : ℕ := if path.head? = some slash then rootino else cwd

theorem Fs.Sane.post_namex (h : s.Sane) {cwd : ℕ} (hcwd : 0 < s.tree.ref cwd) (hh : s.tree.Holds b held)
    (hE : E .dirlookupRead) (hV : E .ilockNoType ∨ (s.tree.Guarded b V ∧ V (namexStart cwd path))) :
    Post (namex cwd path parent) s (fun r s' => Followed s s' b held V E parent (namexStart cwd path) path r) E := by
  have hloop {s1 : Fs} {ip : ℕ} (hip : ip = namexStart cwd path) (hs1 : s1.Sane) (ht1 : s1.tree = s.tree.get ip) :
      Post (namexLoop parent path.length ip path) s1 (fun r s' => Followed s s' b held V E parent (namexStart cwd path) path r) E := by
    have hsame (i : ℕ) : s.tree.SameNode s1.tree i := by
      rw [ht1]
      exact ⟨rfl, rfl, rfl⟩
    have hsettles : s.tree.Settles b s1.tree := fun i => .inl (hsame i)
    subst hip
    refine (hs1.post_namexLoop (by rw [ht1]; exact hh.get _) (Nat.le_refl _) hE (hV.imp_right fun hg => ⟨hg.1.settles hsettles, hg.2⟩)).mono
      (fun r s' hr => ?_) fun _ he => he
    exact ⟨hr.sane, hsettles.trans hr.settles, hr.holds, fun i hi => (hsame i).trans (hr.kept i hi),
      fun q hq => Tree.Walk.of_settles hsettles (hr.walk q hq), hr.safe⟩
  unfold namex
  dsimp only
  split
  · rename_i hslash
    exact Post.bind (h.post_iget fun s1 hs1 ht1 => hloop (if_pos hslash).symm hs1 ht1)
  · rename_i hslash
    exact Post.bind (h.post_idup hcwd fun s1 hs1 ht1 => hloop (if_neg hslash).symm hs1 ht1)

end AdvancedXv6.FileSystem
