import AdvancedXv6.FileSystem.Calls
import AdvancedXv6.FileSystem.Entries
import AdvancedXv6.FileSystem.Truncate

/-!
# The file system without its blocks

System calls see inodes with types, link counts and directory entries, and references to them; blocks, sizes and the free map are hidden. `Tree` is this view. In a sane file system every function on inodes does to the tree what its name says, whatever it does to blocks.
-/

namespace AdvancedXv6.FileSystem

open Function Prog

def noEntry : Dirent := { inum := 0, name := [] }

/-- Inodes, the entries of directories, references, and which inodes have been read into memory. -/
@[ext] structure Tree where
  type : ℕ → FileType
  nlink : ℕ → Int16
  entry : ℕ → ℕ → Dirent
  ref : ℕ → ℕ
  loaded : ℕ → Bool

namespace Tree

def get (t : Tree) (i : ℕ) : Tree := { t with ref := update t.ref i (t.ref i + 1) }

def lock (t : Tree) (i : ℕ) : Tree := { t with loaded := update t.loaded i true }

def drop (t : Tree) (i : ℕ) : Tree :=
  { t with ref := update t.ref i (t.ref i - 1), loaded := update t.loaded i (t.loaded i && decide (1 < t.ref i)) }

def free (t : Tree) (i : ℕ) : Tree :=
  { t with type := update t.type i .free, entry := update t.entry i fun _ => noEntry }

/-- A reference is dropped, and with the last one an inode without links goes. -/
def put (t : Tree) (i : ℕ) : Tree := if t.ref i = 1 ∧ t.loaded i = true ∧ t.nlink i = 0 then (t.free i).drop i else t.drop i

def setNlink (t : Tree) (i : ℕ) (n : Int16) : Tree := { t with nlink := update t.nlink i n }

def setEntry (t : Tree) (d k : ℕ) (de : Dirent) : Tree :=
  { t with entry := update t.entry d (update (t.entry d) k de) }

def alloc (t : Tree) (i : ℕ) (type : FileType) : Tree :=
  { t with type := update t.type i type, nlink := update t.nlink i 0, entry := update t.entry i fun _ => noEntry }

end Tree

def Fs.tree (s : Fs) : Tree where
  type i := (s.cur i).type
  nlink i := (s.cur i).nlink
  entry i k := if (s.cur i).type = .dir then s.entry i k else noEntry
  ref i := (s.itable i).ref
  loaded i := decide (0 < (s.itable i).ref) && (s.itable i).valid

/-- The free map agrees with the inodes, the inode table with the disk, no file has a missing block, and the disk has `ninodes` inodes. -/
structure Fs.Sane (s : Fs) : Prop where
  owned : s.Owned
  synced : ∀ i, 0 < (s.itable i).ref → (s.itable i).valid = true → (s.itable i).copy = s.dinodes i ∧ (s.dinodes i).type ≠ .free
  solid : ∀ i, s.Solid i
  range : ∀ i, ninodes ≤ i → s.tree.type i = .free

variable {s s' : Fs} {ip i : ℕ} {E : Panic → Prop}

theorem Fs.loaded_iff : s.tree.loaded i = true ↔ 0 < (s.itable i).ref ∧ (s.itable i).valid = true := by
  simp only [Fs.tree, Bool.and_eq_true, decide_eq_true_iff]

theorem Fs.Sane.cur_eq (h : s.Sane) : s.cur = s.dinodes := by
  funext i
  unfold Fs.cur
  split
  · rename_i hused
    exact (h.synced i hused.1 hused.2).1
  · rfl

theorem Fs.Sane.locked_iff (h : s.Sane) : s.Locked i ↔ s.tree.loaded i = true := by
  rw [Fs.loaded_iff]
  constructor
  · intro hl
    exact ⟨hl.ref_pos, hl.valid⟩
  · rintro ⟨href, hvalid⟩
    refine ⟨href, hvalid, ?_⟩
    obtain ⟨hcopy, htype⟩ := h.synced i href hvalid
    rw [hcopy]
    exact htype

theorem Fs.Locked.type_tree_ne (h : s.Locked i) : s.tree.type i ≠ .free := by
  unfold Fs.tree
  dsimp only
  rw [h.cur_eq]
  exact h.type_ne

theorem Fs.Locked.type_tree (h : s.Locked i) : s.tree.type i = (s.itable i).copy.type := by
  unfold Fs.tree
  dsimp only
  rw [h.cur_eq]

theorem Fs.Locked.nlink_tree (h : s.Locked i) : s.tree.nlink i = (s.itable i).copy.nlink := by
  unfold Fs.tree
  dsimp only
  rw [h.cur_eq]

theorem Fs.Sane.dir (h : s.Sane) (hl : s.tree.loaded i = true) (htype : s.tree.type i = .dir) : s.Dir i :=
  ⟨h.owned, h.locked_iff.mpr hl, h.solid i, htype⟩

theorem Fs.tree_entry_of_dir (htype : s.tree.type i = .dir) : s.tree.entry i = s.entry i := by
  funext k
  exact if_pos htype

/-! ### References -/

theorem Fs.Same.tree_eq (h : s.Same s') : s'.tree.type = s.tree.type ∧ s'.tree.nlink = s.tree.nlink ∧ s'.tree.entry = s.tree.entry := by
  unfold Fs.tree
  dsimp only
  rw [h.cur_eq, h.entry_eq]
  exact ⟨rfl, rfl, rfl⟩

theorem Fs.tree_got (s : Fs) (i : ℕ) : (s.got i).tree = s.tree.get i := by
  obtain ⟨htype, hnlink, hentry⟩ := (s.same_got i).tree_eq
  refine Tree.ext htype hnlink hentry ?_ ?_ <;> funext j <;> by_cases hj : j = i
  · subst hj
    simp only [Fs.tree, Tree.get, Fs.got, Fs.itable_setEntry_self, update_self]
    split
    · rfl
    · dsimp only
      omega
  · simp only [Fs.tree, Tree.get, Fs.got, Fs.itable_setEntry_of_ne hj, update_of_ne hj]
  · subst hj
    simp only [Fs.tree, Tree.get, Fs.got, Fs.itable_setEntry_self]
    split
    · rename_i hpos
      simp [hpos]
    · rename_i hzero
      simp [hzero]
  · simp only [Fs.tree, Tree.get, Fs.got, Fs.itable_setEntry_of_ne hj]

section

variable (h : s.Sane)
include h

theorem Fs.Sane.got (i : ℕ) : (s.got i).Sane := by
  have hsame := s.same_got i
  refine ⟨hsame.owned h.owned, fun j href hvalid => ?_, fun j => hsame.solid (h.solid j), by rw [hsame.tree_eq.1]; exact h.range⟩
  by_cases hj : j = i
  · subst hj
    unfold Fs.got at href hvalid ⊢
    rw [Fs.itable_setEntry_self] at href hvalid ⊢
    split
    · rename_i hpos
      rw [if_pos hpos] at hvalid
      exact h.synced j hpos hvalid
    · rw [if_neg ‹_›] at hvalid
      cases hvalid
  · unfold Fs.got at href hvalid ⊢
    rw [Fs.itable_setEntry_of_ne hj] at href hvalid ⊢
    exact h.synced j href hvalid

theorem Fs.Sane.post_iget {Q : ℕ → Fs → Prop} (hQ : ∀ s', s'.Sane → s'.tree = s.tree.get i → Q i s') : Post (iget i) s Q E :=
  FileSystem.post_iget (hQ _ (h.got i) (s.tree_got i))

theorem Fs.Sane.post_idup (href : 0 < s.tree.ref i) {Q : ℕ → Fs → Prop} (hQ : ∀ s', s'.Sane → s'.tree = s.tree.get i → Q i s') :
    Post (idup i) s Q E := by
  have hgot : s.got i = s.setEntry i { s.itable i with ref := (s.itable i).ref + 1 } := congrArg (s.setEntry i) (if_pos href)
  refine Post.bind (Post.modify (Post.pure (hQ _ ?_ ?_)))
  · rw [← hgot]
    exact h.got i
  · rw [← hgot]
    exact s.tree_got i

theorem Fs.Sane.same_put (i : ℕ) : s.Same (s.put i) := by
  refine ⟨rfl, rfl, funext fun j => ?_⟩
  by_cases hj : j = i
  · subst hj
    rw [h.cur_eq]
    unfold Fs.cur Fs.put
    rw [Fs.itable_setEntry_self]
    split
    · rename_i hused
      exact (h.synced j (by dsimp only at hused; omega) hused.2).1
    · rfl
  · exact Fs.cur_setEntry_of_ne hj

theorem Fs.tree_put (i : ℕ) : (s.put i).tree = s.tree.drop i := by
  obtain ⟨htype, hnlink, hentry⟩ := (h.same_put i).tree_eq
  refine Tree.ext htype hnlink hentry ?_ ?_ <;> funext j <;> by_cases hj : j = i
  · subst hj
    simp only [Fs.tree, Tree.drop, Fs.put, Fs.itable_setEntry_self, update_self]
  · simp only [Fs.tree, Tree.drop, Fs.put, Fs.itable_setEntry_of_ne hj, update_of_ne hj]
  · subst hj
    simp only [Fs.tree, Tree.drop, Fs.put, Fs.itable_setEntry_self, update_self]
    rw [Bool.eq_iff_iff]
    simp only [Bool.and_eq_true, decide_eq_true_iff]
    constructor
    · rintro ⟨href, hvalid⟩
      exact ⟨⟨by omega, hvalid⟩, decide_eq_true (show 1 < (s.itable j).ref by omega)⟩
    · rintro ⟨⟨_, hvalid⟩, href⟩
      have hlt : 1 < (s.itable j).ref := of_decide_eq_true href
      exact ⟨by omega, hvalid⟩
  · simp only [Fs.tree, Tree.drop, Fs.put, Fs.itable_setEntry_of_ne hj, update_of_ne hj]

theorem Fs.Sane.put (i : ℕ) : (s.put i).Sane := by
  have hsame := h.same_put i
  refine ⟨hsame.owned h.owned, fun j href hvalid => ?_, fun j => hsame.solid (h.solid j), by rw [hsame.tree_eq.1]; exact h.range⟩
  by_cases hj : j = i
  · subst hj
    unfold Fs.put at href hvalid ⊢
    rw [Fs.itable_setEntry_self] at href hvalid ⊢
    exact h.synced j (by dsimp only at href; omega) hvalid
  · unfold Fs.put at href hvalid ⊢
    rw [Fs.itable_setEntry_of_ne hj] at href hvalid ⊢
    exact h.synced j href hvalid

end

/-! ### `ilock` -/

variable {Q : Unit → Fs → Prop} {entry : Inode} {d : Dinode} {s1 : Fs} {type : FileType}

theorem Fs.Sane.post_ilock (h : s.Sane) (href : 0 < s.tree.ref ip) (hfree : s.tree.type ip = .free → E .ilockNoType)
    (hQ : ∀ s', s'.Sane → s'.tree = s.tree.lock ip → s.tree.type ip ≠ .free → Q () s') : Post (ilock ip) s Q E := by
  have hdinode : (s.dinodes ip).type = s.tree.type ip := by rw [← h.cur_eq]; rfl
  refine Post.bind (Post.get ?_)
  rw [if_neg (by have : 0 < (s.itable ip).ref := href; omega)]
  split
  · rename_i hvalid
    have hloaded : s.tree.loaded ip = true := Fs.loaded_iff.mpr ⟨href, hvalid⟩
    refine Post.pure (hQ s h ?_ (h.locked_iff.mpr hloaded).type_tree_ne)
    unfold Tree.lock
    rw [← hloaded, update_eq_self]
  · rename_i hvalid
    refine Post.bind (Post.set ?_)
    rw [hdinode]
    split
    · exact Post.panic (hfree ‹_›)
    · rename_i htype
      have hentry : (s.setEntry ip { s.itable ip with valid := true, copy := s.dinodes ip }).itable ip =
          { s.itable ip with valid := true, copy := s.dinodes ip } := Fs.itable_setEntry_self
      have hsame : s.Same (s.setEntry ip { s.itable ip with valid := true, copy := s.dinodes ip }) := by
        refine ⟨rfl, rfl, funext fun j => ?_⟩
        by_cases hj : j = ip
        · subst hj
          rw [h.cur_eq]
          unfold Fs.cur
          rw [hentry]
          exact if_pos ⟨href, rfl⟩
        · exact Fs.cur_setEntry_of_ne hj
      obtain ⟨htype', hnlink, hentry'⟩ := hsame.tree_eq
      refine Post.pure (hQ _ ⟨hsame.owned h.owned, fun j hr hv => ?_, fun j => hsame.solid (h.solid j), by rw [htype']; exact h.range⟩ ?_ htype)
      · by_cases hj : j = ip
        · subst hj
          rw [hentry]
          refine ⟨rfl, ?_⟩
          change (s.dinodes j).type ≠ .free
          rw [hdinode]
          exact htype
        · rw [Fs.itable_setEntry_of_ne hj] at hr hv ⊢
          exact h.synced j hr hv
      · refine Tree.ext htype' hnlink hentry' ?_ ?_ <;> funext j <;> by_cases hj : j = ip
        · subst hj
          simp only [Fs.tree, Tree.lock, hentry]
        · simp only [Fs.tree, Tree.lock, Fs.itable_setEntry_of_ne hj]
        · subst hj
          have hpos : 0 < (s.itable j).ref := href
          simp only [Fs.tree, Tree.lock, hentry, update_self, hpos, decide_true, Bool.and_self]
        · simp only [Fs.tree, Tree.lock, Fs.itable_setEntry_of_ne hj, update_of_ne hj]

/-! ### Writing the inode -/

theorem Fs.refs_of_update (hitable : s'.itable = update s.itable ip entry) (href : entry.ref = (s.itable ip).ref)
    (hvalid : entry.valid = (s.itable ip).valid) : s'.tree.ref = s.tree.ref ∧ s'.tree.loaded = s.tree.loaded := by
  have hentry (j : ℕ) : (s'.itable j).ref = (s.itable j).ref ∧ (s'.itable j).valid = (s.itable j).valid := by
    rw [hitable]
    by_cases hj : j = ip
    · subst hj
      rw [update_self]
      exact ⟨href, hvalid⟩
    · rw [update_of_ne hj]
      exact ⟨rfl, rfl⟩
  exact ⟨funext fun j => (hentry j).1, funext fun j => by simp only [Fs.tree, hentry j]⟩

theorem Fs.Sane.synced_update (h : s.Sane) (hitable : s'.itable = update s.itable ip entry)
    (hdinodes : s'.dinodes = update s.dinodes ip entry.copy) (htype : entry.copy.type ≠ .free) :
    ∀ i, 0 < (s'.itable i).ref → (s'.itable i).valid = true → (s'.itable i).copy = s'.dinodes i ∧ (s'.dinodes i).type ≠ .free := by
  intro i hr hv
  rw [hitable] at hr hv ⊢
  rw [hdinodes]
  by_cases hi : i = ip
  · subst hi
    rw [update_self, update_self]
    exact ⟨rfl, htype⟩
  · rw [update_of_ne hi] at hr hv ⊢
    rw [update_of_ne hi]
    exact h.synced i hr hv

theorem Fs.Locked.cur_of_update (h : s.Locked ip) (hitable : s'.itable = update s.itable ip { s.itable ip with copy := d })
    (hdinodes : s'.dinodes = update s.dinodes ip d) : s'.cur = update s.cur ip d := by
  funext i
  by_cases hi : i = ip
  · subst hi
    unfold Fs.cur
    rw [hitable, update_self, update_self]
    exact if_pos ⟨h.ref_pos, h.valid⟩
  · rw [update_of_ne hi]
    refine Fs.cur_congr ?_ ?_
    · rw [hitable, update_of_ne hi]
    · rw [hdinodes, update_of_ne hi]

def Fs.updated (s : Fs) (ip : ℕ) (d : Dinode) : Fs := { s.setCopy ip d with dinodes := update s.dinodes ip d }

theorem Fs.Sane.updated (h : s.Sane) (hl : s.Locked ip) (htype : d.type = (s.itable ip).copy.type)
    (hsize : d.size = (s.itable ip).copy.size) (haddrs : d.addrs = (s.itable ip).copy.addrs) :
    (s.updated ip d).Sane ∧ (s.updated ip d).tree = s.tree.setNlink ip d.nlink := by
  have hitable : (s.updated ip d).itable = update s.itable ip { s.itable ip with copy := d } := rfl
  have hdinodes : (s.updated ip d).dinodes = update s.dinodes ip d := rfl
  have hblocks : (s.updated ip d).blocks = s.blocks := rfl
  have hbitmap : (s.updated ip d).bitmap = s.bitmap := rfl
  generalize s.updated ip d = s' at hitable hdinodes hblocks hbitmap ⊢
  have hcur := hl.cur_of_update hitable hdinodes
  have hfields (i : ℕ) : (s'.cur i).type = (s.cur i).type ∧ (s'.cur i).size = (s.cur i).size ∧ (s'.cur i).addrs = (s.cur i).addrs := by
    rw [hcur]
    by_cases hi : i = ip
    · subst hi
      rw [update_self, hl.cur_eq]
      exact ⟨htype, hsize, haddrs⟩
    · rw [update_of_ne hi]
      exact ⟨rfl, rfl, rfl⟩
  have hslots : s'.slots = s.slots := Fs.slots_congr (fun i => (hfields i).1) (fun i => (hfields i).2.2) fun i _ => by rw [hblocks]
  have hbyte := Fs.byte_congr hslots hblocks
  have htypes : s'.tree.type = s.tree.type := funext fun i => (hfields i).1
  obtain ⟨href, hloaded⟩ := Fs.refs_of_update hitable rfl rfl
  refine ⟨⟨?_, h.synced_update hitable hdinodes ?_, fun i x hx => ?_, by rw [htypes]; exact h.range⟩,
    Tree.ext htypes (funext fun i => ?_) (funext fun i => funext fun k => ?_) href hloaded⟩
  · unfold Fs.Owned
    rw [hslots, hbitmap]
    exact h.owned
  · change d.type ≠ .free
    rw [htype]
    exact hl.type_ne
  · rw [hslots]
    rw [(hfields i).2.1] at hx
    exact h.solid i x hx
  · change (s'.cur i).nlink = update s.tree.nlink ip d.nlink i
    rw [hcur]
    by_cases hi : i = ip
    · rw [hi, update_self, update_self]
    · rw [update_of_ne hi, update_of_ne hi]
      rfl
  · change (if (s'.cur i).type = .dir then s'.entry i k else noEntry) = if (s.cur i).type = .dir then s.entry i k else noEntry
    rw [(hfields i).1, Fs.entry_congr (hfields i).2.1 fun x _ => by rw [hbyte]]

theorem Fs.Sane.post_changeNlink (h : s.Sane) (hl : s.tree.loaded ip = true) {change : Int16 → Int16}
    (hQ : ∀ s', s'.Sane → s'.tree = s.tree.setNlink ip (change (s.tree.nlink ip)) → Q () s') : Post (changeNlink ip change) s Q E := by
  have hlocked := h.locked_iff.mpr hl
  refine Post.bind (Post.modify (Post.modify ?_))
  rw [Fs.itable_setCopy_self]
  obtain ⟨hsane, htree⟩ := h.updated hlocked (d := { (s.itable ip).copy with nlink := change (s.itable ip).copy.nlink }) rfl rfl rfl
  refine hQ _ hsane ?_
  rw [hlocked.nlink_tree]
  exact htree

theorem Fs.Sane.post_init (h : s.Sane) (hl : s.tree.loaded ip = true) {major nlink : Int16} {α : Type} {x : Unit → FsM α} {Q : α → Fs → Prop}
    (hQ : ∀ s', s'.Sane → s'.tree = s.tree.setNlink ip nlink → Post (x ()) s' Q E) :
    Post (setInode ip (fun d => { d with major, nlink }) >>= fun _ => iupdate ip >>= x) s Q E := by
  refine Post.bind (Post.modify (Post.bind (Post.modify ?_)))
  rw [Fs.itable_setCopy_self]
  obtain ⟨hsane, htree⟩ := h.updated (h.locked_iff.mpr hl) (d := { (s.itable ip).copy with major, nlink }) rfl rfl rfl
  exact hQ _ hsane htree

/-! ### Reading and writing files -/

variable {src : Source} {off n m k : ℕ}

section

variable (h : Written s s' ip src off n m) (hl : s.Locked ip)
include h hl

theorem Written.tree_eq :
    s'.tree = { s.tree with entry := update s.tree.entry ip (s'.tree.entry ip) } := by
  obtain ⟨addrs, hitable⟩ := h.itable_eq
  obtain ⟨href, hloaded⟩ := Fs.refs_of_update hitable rfl rfl
  have hcur (i : ℕ) : (s'.cur i).type = (s.cur i).type ∧ (s'.cur i).nlink = (s.cur i).nlink := by
    by_cases hi : i = ip
    · subst hi
      rw [(h.locked hl).cur_eq, hl.cur_eq, hitable, update_self]
      exact ⟨rfl, rfl⟩
    · rw [h.cur_of_ne hi]
      exact ⟨rfl, rfl⟩
  refine Tree.ext (funext fun i => (hcur i).1) (funext fun i => (hcur i).2) (funext fun i => ?_) href hloaded
  change s'.tree.entry i = update s.tree.entry ip (s'.tree.entry ip) i
  by_cases hi : i = ip
  · rw [hi, update_self]
  · rw [update_of_ne hi]
    funext k
    change (if (s'.cur i).type = .dir then s'.entry i k else noEntry) = if (s.cur i).type = .dir then s.entry i k else noEntry
    rw [(hcur i).1, h.entry_of_ne hi]

theorem Written.type_eq : s'.tree.type = s.tree.type := by
  rw [h.tree_eq hl]

omit h hl in
theorem Written.sane (h : Written s s' ip src off n m) (hs : s.Sane) (hl : s.Locked ip) (hoff : off ≤ (s.cur ip).size) : s'.Sane := by
  obtain ⟨addrs, hitable⟩ := h.itable_eq
  refine ⟨h.owned hs.owned, hs.synced_update hitable ?_ hl.type_ne, fun i => ?_, by rw [h.type_eq hl]; exact hs.range⟩
  · rw [h.dinodes_eq, hitable, update_self]
  · by_cases hi : i = ip
    · rw [hi]
      exact h.solid hl (hs.solid ip) hoff
    · exact h.solid_of_ne hi (hs.solid i)

theorem Written.tree_of_file (htype : s.tree.type ip ≠ .dir) : s'.tree = s.tree := by
  have htype' : s'.tree.type ip ≠ .dir := by
    rw [h.type_eq hl]
    exact htype
  have hentry : s'.tree.entry ip = s.tree.entry ip := by
    funext k
    exact (if_neg htype').trans (if_neg htype).symm
  rw [h.tree_eq hl, hentry, update_eq_self]

theorem Written.tree_of_entries (htype : s.tree.type ip = .dir) {e : ℕ → Dirent}
    (he : s'.entry ip = e) : s'.tree = { s.tree with entry := update s.tree.entry ip e } := by
  have hentry : s'.tree.entry ip = e := by
    rw [Fs.tree_entry_of_dir (by rw [h.type_eq hl]; exact htype), he]
  rw [h.tree_eq hl, hentry]

end

/-- A write to a file that is not a directory does not show in the tree. -/
theorem Fs.Sane.post_writei (h : s.Sane) (hl : s.tree.loaded ip = true) (htype : s.tree.type ip ≠ .dir) {off n : UInt32} {Q : ℤ → Fs → Prop}
    (hQ : ∀ r s', s'.Sane → s'.tree = s.tree → Q r s') : Post (writei ip src off n) s Q E := by
  have hlocked := h.locked_iff.mpr hl
  refine (FileSystem.post_writei h.owned.toNames hlocked).mono (fun r s' hr => ?_) fun _ he => he
  split at hr
  · rw [hr.2]
    exact hQ r s h rfl
  · rename_i hin
    obtain ⟨k, _, hk⟩ := hr
    exact hQ r s' (hk.sane h hlocked (Nat.le_of_not_lt fun hlt => hin (.inl hlt))) (hk.tree_of_file hlocked htype)

theorem Fs.Sane.post_readi (h : s.Sane) (hl : s.tree.loaded ip = true) {copyout : ℕ → ℕ → Bool} {off n : UInt32}
    {Q : Option (List UInt8) → Fs → Prop} (hQ : ∀ r, Q r s) : Post (readi ip copyout off n) s Q E := by
  refine (FileSystem.post_readi h.owned.toNames (h.locked_iff.mpr hl) (h.solid ip)).mono (fun r s' hr => ?_) fun _ he => he
  rw [hr.1]
  exact hQ r

/-! ### Freeing inodes -/

section

variable (h : Truncated s s' ip)
include h

theorem Truncated.cur_eq (hl : s.Locked ip) : s'.cur = update s.cur ip (s.itable ip).copy.truncate :=
  hl.cur_of_update h.itable_eq h.dinodes_eq

theorem Truncated.byte_of_ne (hi : i ≠ ip) : s'.byte i = s.byte i := by
  funext x
  unfold Fs.byte
  rw [h.slots_eq, if_neg hi, h.blocks_eq]

theorem Truncated.entry_of_ne (hl : s.Locked ip) (hi : i ≠ ip) : s'.entry i = s.entry i := by
  refine Fs.entry_congr ?_ fun x _ => by rw [h.byte_of_ne hi]
  rw [h.cur_eq hl, update_of_ne hi]

theorem Truncated.solid (hl : s.Locked ip) (hs : ∀ i, s.Solid i) (i : ℕ) : s'.Solid i := by
  intro x hx
  rw [h.cur_eq hl] at hx
  by_cases hi : i = ip
  · rw [hi, update_self] at hx
    exact absurd hx (Nat.not_lt_zero x)
  · rw [update_of_ne hi] at hx
    rw [h.slots_eq, if_neg hi]
    exact hs i x hx

theorem Truncated.type_eq (hl : s.Locked ip) : s'.tree.type = s.tree.type := by
  funext i
  change (s'.cur i).type = (s.cur i).type
  rw [h.cur_eq hl]
  by_cases hi : i = ip
  · subst hi
    rw [update_self, hl.cur_eq]
    rfl
  · rw [update_of_ne hi]

theorem Truncated.sane (hs : s.Sane) (hl : s.Locked ip) : s'.Sane :=
  ⟨h.owned, hs.synced_update h.itable_eq h.dinodes_eq hl.type_ne, h.solid hl hs.solid, by rw [h.type_eq hl]; exact hs.range⟩

theorem Truncated.tree_of_file (hl : s.Locked ip) (htype : s.tree.type ip ≠ .dir) : s'.tree = s.tree := by
  obtain ⟨href, hloaded⟩ := Fs.refs_of_update h.itable_eq rfl rfl
  have hcur (i : ℕ) : (s'.cur i).type = (s.cur i).type ∧ (s'.cur i).nlink = (s.cur i).nlink := by
    rw [h.cur_eq hl]
    by_cases hi : i = ip
    · subst hi
      rw [update_self, hl.cur_eq]
      exact ⟨rfl, rfl⟩
    · rw [update_of_ne hi]
      exact ⟨rfl, rfl⟩
  refine Tree.ext (funext fun i => (hcur i).1) (funext fun i => (hcur i).2) (funext fun i => funext fun k => ?_) href hloaded
  change (if (s'.cur i).type = .dir then s'.entry i k else noEntry) = if (s.cur i).type = .dir then s.entry i k else noEntry
  rw [(hcur i).1]
  by_cases hi : i = ip
  · have hfile : (s.cur i).type ≠ .dir := by
      rw [hi]
      exact htype
    rw [if_neg hfile, if_neg hfile]
  · rw [h.entry_of_ne hl hi]

omit h in
theorem Fs.Sane.post_itrunc (h : s.Sane) (hl : s.tree.loaded ip = true) (htype : s.tree.type ip ≠ .dir)
    (hQ : ∀ s', s'.Sane → s'.tree = s.tree → Q () s') : Post (itrunc ip) s Q E := by
  have hlocked := h.locked_iff.mpr hl
  exact (FileSystem.post_itrunc h.owned hlocked).mono (fun _ s' h' => hQ s' (h'.sane h hlocked) (h'.tree_of_file hlocked htype)) fun _ he => he

theorem Truncated.freed (hs : s.Sane) (hl : s.Locked ip)
    (hbitmap : s1.bitmap = s'.bitmap) (hblocks : s1.blocks = s'.blocks) (hdinodes : s1.dinodes = update s.dinodes ip d)
    (hitable : s1.itable = update s.itable ip entry) (htype : d.type = .free) (hsize : d.size = 0)
    (hnlink : d.nlink = (s.itable ip).copy.nlink) (href : entry.ref = 0) (hone : (s.itable ip).ref = 1) :
    s1.Sane ∧ s1.tree = (s.tree.free ip).drop ip := by
  have hcur : s1.cur = update s.cur ip d := by
    funext i
    by_cases hi : i = ip
    · subst hi
      unfold Fs.cur
      rw [hitable, hdinodes, update_self, update_self, update_self, href]
      exact if_neg fun hc => absurd hc.1 (Nat.lt_irrefl 0)
    · rw [update_of_ne hi]
      refine Fs.cur_congr ?_ ?_
      · rw [hitable, update_of_ne hi]
      · rw [hdinodes, update_of_ne hi]
  have hslots (x : ℕ × ℕ) : s1.slots x = if x.1 = ip then 0 else s.slots x := by
    unfold Fs.slots
    rw [hcur]
    by_cases hi : x.1 = ip
    · rw [if_pos hi, hi, update_self]
      exact Dinode.slot_of_free htype
    · rw [if_neg hi, update_of_ne hi, hblocks, h.blocks_eq]
  have hsame : s1.slots = s'.slots := funext fun x => (hslots x).trans (h.slots_eq x).symm
  refine ⟨⟨?_, fun i hr hv => ?_, fun i x hx => ?_, fun i hi => ?_⟩, ?_⟩
  · unfold Fs.Owned
    rw [hsame, hbitmap]
    exact h.owned
  · rw [hitable] at hr hv ⊢
    rw [hdinodes]
    by_cases hi : i = ip
    · subst hi
      rw [update_self, href] at hr
      exact absurd hr (Nat.lt_irrefl 0)
    · rw [update_of_ne hi] at hr hv ⊢
      rw [update_of_ne hi]
      exact hs.synced i hr hv
  · rw [hcur] at hx
    by_cases hi : i = ip
    · rw [hi, update_self, hsize] at hx
      exact absurd hx (Nat.not_lt_zero x)
    · rw [update_of_ne hi] at hx
      rw [hslots, if_neg hi]
      exact hs.solid i x hx
  · change (s1.cur i).type = .free
    rw [hcur]
    by_cases hip : i = ip
    · rw [hip, update_self, htype]
    · rw [update_of_ne hip]
      exact hs.range i hi
  · refine Tree.ext (funext fun i => ?_) (funext fun i => ?_) (funext fun i => funext fun k => ?_) (funext fun i => ?_) (funext fun i => ?_) <;>
      by_cases hi : i = ip
    · subst hi
      simp only [Fs.tree, Tree.free, Tree.drop, hcur, update_self, htype]
    · simp only [Fs.tree, Tree.free, Tree.drop, hcur, update_of_ne hi]
    · subst hi
      simp only [Fs.tree, Tree.free, Tree.drop, hcur, update_self, hnlink, hl.cur_eq]
    · simp only [Fs.tree, Tree.free, Tree.drop, hcur, update_of_ne hi]
    · subst hi
      simp only [Fs.tree, Tree.free, Tree.drop, hcur, update_self, htype]
      rfl
    · have hentry : s1.entry i = s.entry i := by
        refine Fs.entry_congr (by rw [hcur, update_of_ne hi]) fun x _ => ?_
        unfold Fs.byte
        rw [hslots, if_neg hi, hblocks, h.blocks_eq]
      simp only [Fs.tree, Tree.free, Tree.drop, hcur, update_of_ne hi, hentry]
    · subst hi
      simp only [Fs.tree, Tree.free, Tree.drop, hitable, update_self, href, hone]
    · simp only [Fs.tree, Tree.free, Tree.drop, hitable, update_of_ne hi]
    · subst hi
      simp only [Fs.tree, Tree.free, Tree.drop, hitable, update_self, href, hone]
      simp
    · simp only [Fs.tree, Tree.free, Tree.drop, hitable, update_of_ne hi]

end

theorem Fs.Sane.post_iput (h : s.Sane) (hQ : ∀ s', s'.Sane → s'.tree = s.tree.put ip → Q () s') :
    Post (iput ip) s Q E := by
  by_cases hfree : (s.itable ip).ref = 1 ∧ (s.itable ip).valid = true ∧ (s.itable ip).copy.nlink = 0
  · obtain ⟨hone, hvalid, hnlink⟩ := hfree
    have hloaded : s.tree.loaded ip = true := Fs.loaded_iff.mpr ⟨by omega, hvalid⟩
    have hl := h.locked_iff.mpr hloaded
    have hput : s.tree.put ip = (s.tree.free ip).drop ip := if_pos ⟨hone, hloaded, hl.nlink_tree.trans hnlink⟩
    refine Post.bind (Post.bind (Post.get ?_))
    rw [if_pos ⟨hone, hvalid, hnlink⟩]
    refine Post.bind ((FileSystem.post_itrunc h.owned hl).mono (fun _ s1 h1 => ?_) fun _ he => he)
    have hentry : s1.itable ip = { s.itable ip with copy := (s.itable ip).copy.truncate } := by rw [h1.itable_eq, update_self]
    refine Post.bind (Post.modify (Post.bind (Post.modify (Post.modify (Post.modify ?_)))))
    suffices hfinal : ∀ s2 : Fs, s2.bitmap = s1.bitmap → s2.blocks = s1.blocks →
        s2.dinodes = update s.dinodes ip { (s.itable ip).copy.truncate with type := .free } →
        s2.itable = update s.itable ip ⟨(s.itable ip).ref - 1, false, { (s.itable ip).copy.truncate with type := .free }⟩ → Q () s2 by
      refine hfinal _ rfl rfl ?_ ?_
      · simp only [Fs.setCopy, Fs.setEntry, update_self, hentry, h1.dinodes_eq, update_idem]
      · simp only [Fs.setCopy, Fs.setEntry, update_self, hentry, h1.itable_eq, update_idem]
    intro s2 hbitmap hblocks hdinodes hitable
    obtain ⟨hsane, htree⟩ := h1.freed h hl hbitmap hblocks hdinodes hitable rfl rfl rfl (by dsimp only; omega) hone
    exact hQ s2 hsane (htree.trans hput.symm)
  · have hput : s.tree.put ip = s.tree.drop ip := by
      refine if_neg fun hc => hfree ?_
      have hl := h.locked_iff.mpr hc.2.1
      exact ⟨hc.1, hl.valid, hl.nlink_tree.symm.trans hc.2.2⟩
    refine post_iput_of_keep hfree (hQ _ (h.put ip) ?_)
    rw [hput, Fs.tree_put h]

/-! ### New inodes -/

theorem Fs.Sane.alloc (h : s.Sane) (hi : i < ninodes) (hfree : s.tree.type i = .free)
    (hs1 : s1 = { s with dinodes := update s.dinodes i (Dinode.fresh type) }) : s1.Sane ∧ s1.tree = s.tree.alloc i type := by
  have hitable : s1.itable = s.itable := by rw [hs1]
  have hdinodes : s1.dinodes = update s.dinodes i (Dinode.fresh type) := by rw [hs1]
  have hblocks : s1.blocks = s.blocks := by rw [hs1]
  have hbitmap : s1.bitmap = s.bitmap := by rw [hs1]
  have hunused : ¬ (0 < (s.itable i).ref ∧ (s.itable i).valid = true) := by
    intro hused
    refine (h.synced i hused.1 hused.2).2 ?_
    rw [← h.cur_eq]
    exact hfree
  have hcur : s1.cur = update s.cur i (Dinode.fresh type) := by
    funext j
    by_cases hj : j = i
    · subst hj
      unfold Fs.cur
      rw [hitable, hdinodes, update_self, update_self, if_neg hunused]
    · rw [update_of_ne hj]
      exact Fs.cur_congr (by rw [hitable]) (by rw [hdinodes, update_of_ne hj])
  have hslots : s1.slots = s.slots := by
    funext ⟨j, k⟩
    unfold Fs.slots
    rw [hcur, hblocks]
    by_cases hj : j = i
    · subst hj
      rw [update_self, Dinode.slot_of_free hfree]
      exact Dinode.slot_of_addrs_zero fun _ _ => rfl
    · rw [update_of_ne hj]
  refine ⟨⟨?_, fun j hr hv => ?_, fun j x hx => ?_, fun j hj => ?_⟩, ?_⟩
  · unfold Fs.Owned
    rw [hslots, hbitmap]
    exact h.owned
  · rw [hitable] at hr hv ⊢
    rw [hdinodes]
    by_cases hj : j = i
    · subst hj
      exact absurd ⟨hr, hv⟩ hunused
    · rw [update_of_ne hj]
      exact h.synced j hr hv
  · rw [hslots]
    rw [hcur] at hx
    by_cases hj : j = i
    · rw [hj, update_self] at hx
      exact absurd hx (Nat.not_lt_zero x)
    · rw [update_of_ne hj] at hx
      exact h.solid j x hx
  · change (s1.cur j).type = .free
    rw [hcur, update_of_ne (by omega)]
    exact h.range j hj
  · refine Tree.ext (funext fun j => ?_) (funext fun j => ?_) (funext fun j => funext fun k => ?_) ?_ ?_
    · by_cases hj : j = i
      · simp only [Fs.tree, Tree.alloc, hcur, hj, update_self, Dinode.fresh]
      · simp only [Fs.tree, Tree.alloc, hcur, update_of_ne hj]
    · by_cases hj : j = i
      · simp only [Fs.tree, Tree.alloc, hcur, hj, update_self, Dinode.fresh]
      · simp only [Fs.tree, Tree.alloc, hcur, update_of_ne hj]
    · by_cases hj : j = i
      · have hentry : s1.entry i k = noEntry := by
          rw [Fs.entry, hcur, update_self]
          exact if_neg (Nat.not_succ_le_zero _)
        simp only [Fs.tree, Tree.alloc, hj, update_self, hentry, ite_self]
      · have hentry : s1.entry j = s.entry j := by
          refine Fs.entry_congr (by rw [hcur, update_of_ne hj]) fun x _ => ?_
          rw [Fs.byte_congr hslots hblocks]
        simp only [Fs.tree, Tree.alloc, hcur, update_of_ne hj, hentry]
    · simp only [Fs.tree, Tree.alloc, hitable]
    · simp only [Fs.tree, Tree.alloc, hitable]

theorem Fs.Sane.post_ialloc (h : s.Sane) {Q : ℕ → Fs → Prop} (hnone : Q 0 s)
    (hsome : ∀ i s', 0 < i → i < ninodes → s.tree.type i = .free → s'.Sane → s'.tree = (s.tree.alloc i type).get i → Q i s') :
    Post (ialloc type) s Q E := by
  refine Post.bind (Post.get ?_)
  split
  · rename_i i hfind
    have hmem := List.mem_range'_1.mp (List.mem_of_find?_eq_some hfind)
    have hfree := List.find?_some hfind
    rw [decide_eq_true_iff, ← h.cur_eq] at hfree
    have hlt : i < ninodes := by
      unfold ninodes at *
      omega
    refine Post.bind (Post.set ?_)
    obtain ⟨hsane, htree⟩ := h.alloc hlt hfree rfl
    refine hsane.post_iget fun s' hs' ht' => hsome i s' (by omega) hlt hfree hs' ?_
    rw [ht', htree]
  · exact Post.pure hnone

/-! ### Directories -/

variable {dp : ℕ} {name : List UInt8}

theorem Fs.Sane.post_inode (h : s.Sane) (hl : s.tree.loaded ip = true) {Q : Dinode → Fs → Prop}
    (hQ : ∀ d : Dinode, d.type = s.tree.type ip → d.nlink = s.tree.nlink ip → Q d s) : Post (inode ip) s Q E := by
  have hlocked := h.locked_iff.mpr hl
  exact Post.bind (Post.get (Post.pure (hQ _ hlocked.type_tree.symm hlocked.nlink_tree.symm)))

section

variable (h : s.Sane) (hl : s.tree.loaded dp = true) (htype : s.tree.type dp = .dir)
include h hl htype

theorem Fs.Sane.post_dirlookup (hE : E .dirlookupRead)
    {Q : Option (ℕ × ℕ) → Fs → Prop} (hnone : (∀ k, ¬ (s.tree.entry dp k).Names name) → Q none s)
    (hsome : ∀ k s', (s.tree.entry dp k).Names name → (∀ l < k, ¬ (s.tree.entry dp l).Names name) → s'.Sane →
      s'.tree = s.tree.get (s.tree.entry dp k).inum → Q (some ((s.tree.entry dp k).inum, 16 * k)) s') : Post (dirlookup dp name) s Q E := by
  have hentry := Fs.tree_entry_of_dir htype
  rw [hentry] at hnone hsome
  exact FileSystem.post_dirlookup (h.dir hl htype) (fun _ => hE) hnone fun k hk hbefore => hsome k _ hk hbefore (h.got _) (s.tree_got _)

omit h hl htype in
theorem Fs.Sane.got_put (h : s.Sane) (i : ℕ) : ((s.got i).put i).Sane ∧ ((s.got i).put i).tree = s.tree := by
  refine ⟨(h.got i).put i, ?_⟩
  rw [Fs.tree_put (h.got i), s.tree_got]
  refine Tree.ext rfl rfl rfl ?_ ?_
  · simp only [Tree.drop, Tree.get, update_self, update_idem, Nat.add_sub_cancel, update_eq_self]
  · refine update_eq_self_iff.mpr ?_
    simp only [Tree.get, update_self]
    rw [Bool.and_eq_left_iff_imp]
    intro hl
    have hpos : 0 < s.tree.ref i := (Fs.loaded_iff.mp hl).1
    exact decide_eq_true (by omega)

theorem Fs.Sane.post_dirlink {inum : ℕ} (hinum : inum < 2 ^ 16)
    (hlookup : E .dirlookupRead) (hlink : E .dirlinkRead) {Q : ℤ → Fs → Prop} (hfail : ∀ s', s'.Sane → s'.tree = s.tree → Q (-1) s')
    (hdone : ∀ k s', (∀ l, ¬ (s.tree.entry dp l).Names name) → (s.tree.entry dp k).inum = 0 → (∀ l < k, (s.tree.entry dp l).inum ≠ 0) → s'.Sane →
      s'.tree = s.tree.setEntry dp k { inum, name := strncpy dirsiz name } → Q 0 s') : Post (dirlink dp name inum) s Q E := by
  have hentry := Fs.tree_entry_of_dir htype
  have hlocked := h.locked_iff.mpr hl
  rw [hentry] at hdone
  refine FileSystem.post_dirlink (h.dir hl htype) (fun _ => ⟨hlookup, hlink⟩) (fun k _ => ?_) (fun k s' hno hzero hbefore hk hw => ?_)
    (fun k s' hk hw => ?_) (hfail s h rfl)
  · obtain ⟨hsane, htree⟩ := h.got_put (s.entry dp k).inum
    exact hfail _ hsane htree
  · refine hdone k s' hno hzero hbefore (hw.sane h hlocked hk) ?_
    have hupdate := hw.entry_eq_update hlocked (h.solid dp) hk hinum (length_strncpy dirsiz name)
    rw [← hentry] at hupdate
    exact hw.tree_of_entries hlocked htype hupdate
  · refine hfail s' (hw.sane h hlocked hk) ?_
    have hsame := hw.entry_of_zero hlocked (h.solid dp) hk
    rw [← hentry] at hsame
    rw [hw.tree_of_entries hlocked htype hsame, update_eq_self]

theorem Fs.Sane.post_writeDirent {k : ℕ}
    (hk : (s.tree.entry dp k).inum ≠ 0) {de : Dirent} (hinum : de.inum < 2 ^ 16) (hname : de.name.length = dirsiz) {Q : ℤ → Fs → Prop}
    (hQ : ∀ s', s'.Sane → s'.tree = s.tree.setEntry dp k de → Q 16 s') : Post (writeDirent dp de (16 * k)) s Q E := by
  have hentry := Fs.tree_entry_of_dir htype
  have hlocked := h.locked_iff.mpr hl
  have hd := h.dir hl htype
  have hlarge := hd.size_lt
  rw [hentry] at hk
  have hsize := Fs.size_of_entry hk
  refine FileSystem.post_writeDirent hd (fun s' hle hw => hQ s' (hw.sane h hlocked hle) ?_) (fun hout => absurd hsize hout)
    (fun s' hout => absurd hsize hout) (by omega)
  have hupdate := hw.entry_eq_update hlocked (h.solid dp) hle hinum hname
  rw [← hentry] at hupdate
  exact hw.tree_of_entries hlocked htype hupdate

end

theorem Fs.Sane.post_isdirempty (h : s.Sane) (hl : s.tree.loaded ip = true) (htype : s.tree.type ip = .dir) (hE : E .isdiremptyReadi)
    {Q : Bool → Fs → Prop} (hQ : ∀ r : Bool, (r = true ↔ ∀ k, 2 ≤ k → (s.tree.entry ip k).inum = 0) → Q r s) : Post (isdirempty ip) s Q E := by
  refine (FileSystem.post_isdirempty (h.dir hl htype) fun _ => hE).mono (fun r s' hr => ?_) fun _ he => he
  rw [hr.1]
  refine hQ r ?_
  rw [Fs.tree_entry_of_dir htype]
  exact hr.2

end AdvancedXv6.FileSystem
