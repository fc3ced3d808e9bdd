import AdvancedXv6.FileSystem.Blocks
import Mathlib.Data.Set.Card

/-!
# Link counts

The link count of an inode is the number of entries for it, other than `.`, in directories that have links themselves. `Linked` adds to this what keeps it true: the shape of directories, and that every directory with links has one entry from the root down. A call keeps it, provided that it makes no entry in a directory without links and no link beyond the largest `short`.
-/

namespace AdvancedXv6.FileSystem

open Function

/-! ### Counts in a `short` -/

structure Counts {α : Type*} (S : Set α) (n : Int16) : Prop where
  finite : S.Finite
  eq : (S.ncard : ℤ) = n.toInt

namespace Counts

variable {α : Type*} {S : Set α} {n : Int16} {x : α}

section

variable (h : Counts S n)
include h

theorem nonneg : 0 ≤ n.toInt := by
  rw [← h.eq]
  exact Int.natCast_nonneg _

theorem insert (hx : x ∉ S) (hn : n < 32767) : Counts (insert x S) (n + 1) := by
  refine ⟨h.finite.insert x, ?_⟩
  rw [Set.ncard_insert_of_notMem hx h.finite, Int16.toInt_add]
  have hlt : n.toInt < 32767 := Int16.lt_iff_toInt_lt.mp hn
  have hpos := h.nonneg
  have hone : (1 : Int16).toInt = 1 := rfl
  rw [hone, Int.bmod_eq_of_le (by omega) (by omega), ← h.eq, Nat.cast_add, Nat.cast_one]

theorem erase (hx : x ∈ S) : Counts (S \ {x}) (n - 1) := by
  refine ⟨h.finite.sdiff, ?_⟩
  have hcard : 0 < S.ncard := (Set.ncard_pos h.finite).mpr ⟨x, hx⟩
  have heq := h.eq
  have hone : (1 : Int16).toInt = 1 := rfl
  have hlt := Int16.toInt_lt n
  rw [Set.ncard_sdiff_singleton_of_mem hx, Int16.toInt_sub, hone, Int.bmod_eq_of_le (by omega) (by omega)]
  omega

theorem eq_zero_iff : n = 0 ↔ S = ∅ := by
  rw [← Set.ncard_eq_zero h.finite, ← Int16.toInt_inj, ← h.eq]
  exact Int.natCast_eq_zero

theorem pos_iff : 0 < n ↔ S.Nonempty := by
  rw [← Set.ncard_pos h.finite, Int16.lt_iff_toInt_lt, ← h.eq]
  exact Int.natCast_pos

end

theorem empty : Counts (∅ : Set α) 0 := ⟨Set.finite_empty, by rw [Set.ncard_empty]; rfl⟩

theorem singleton (x : α) : Counts ({x} : Set α) 1 := ⟨Set.finite_singleton x, by rw [Set.ncard_singleton]; rfl⟩

end Counts

theorem short_add_one_pos {n : Int16} (hpos : 0 ≤ n.toInt) (hn : n < 32767) : 0 < n + 1 := by
  have hlt : n.toInt < 32767 := Int16.lt_iff_toInt_lt.mp hn
  have hone : (1 : Int16).toInt = 1 := rfl
  refine Int16.lt_iff_toInt_lt.mpr ?_
  rw [Int16.toInt_add, hone, Int.bmod_eq_of_le (by omega) (by omega)]
  change 0 < n.toInt + 1
  omega

/-! ### Trees with exact counts -/

namespace Tree

def Live (t : Tree) (d : ℕ) : Prop := t.type d = .dir ∧ 0 < t.nlink d

/-- The entries that count as links to an inode: those of directories with links, other than `.`. -/
def links (t : Tree) (i : ℕ) : Set (ℕ × ℕ) :=
  {x | t.Live x.1 ∧ (t.entry x.1 x.2).inum = i ∧ dirKey (t.entry x.1 x.2).name ≠ dirKey dot}

structure Child (t : Tree) (d k e : ℕ) : Prop where
  live : t.Live d
  two_le : 2 ≤ k
  inum_eq : (t.entry d k).inum = e
  ne_zero : e ≠ 0

inductive Rooted (t : Tree) : ℕ → Prop where
  | root : Rooted t rootino
  | child {d k e : ℕ} : Rooted t d → t.Child d k e → Rooted t e

structure Linked (t : Tree) : Prop where
  range : ∀ i, t.type i ≠ .free → 0 < i ∧ i < ninodes
  free : ∀ i, t.type i = .free → t.nlink i = 0
  count : ∀ i, i ≠ 0 → Counts (t.links i) (t.nlink i)
  dot : ∀ d, t.type d = .dir → (t.entry d 0).inum = d ∧ dirKey (t.entry d 0).name = dirKey dot
  dotdot : ∀ d, t.type d = .dir → (t.entry d 1).inum ≠ 0 ∧ dirKey (t.entry d 1).name = dirKey dotdot
  names : ∀ d k, t.type d = .dir → 2 ≤ k → (t.entry d k).inum ≠ 0 → dirKey (t.entry d k).name ≠ dirKey FileSystem.dot
  empty : ∀ d k, t.type d = .dir → t.nlink d = 0 → 2 ≤ k → (t.entry d k).inum = 0
  parent : ∀ d k e, t.Child d k e → t.type e = .dir → (t.entry e 1).inum = d
  single : ∀ d k d' k' e, t.Child d k e → t.Child d' k' e → t.type e = .dir → (d, k) = (d', k')
  root_live : t.Live rootino
  root_up : (t.entry rootino 1).inum = rootino
  root_top : ∀ d k, ¬ t.Child d k rootino
  rooted : ∀ d, t.Live d → t.Rooted d

variable {t t' : Tree} {d k i e l : ℕ} {x : ℕ × ℕ}

theorem dot_ne_dotdot : dirKey dotdot ≠ dirKey FileSystem.dot := by decide

theorem Linked.nonneg (h : t.Linked) (hi : i ≠ 0) : 0 ≤ (t.nlink i).toInt := (h.count i hi).nonneg

theorem Linked.live_or (h : t.Linked) (hd : t.type d = .dir) : t.Live d ∨ t.nlink d = 0 := by
  have hne : d ≠ 0 := Nat.ne_of_gt (h.range d (by rw [hd]; exact FileType.noConfusion)).1
  rcases Set.eq_empty_or_nonempty (t.links d) with hempty | hsome
  · exact .inr ((h.count d hne).eq_zero_iff.mpr hempty)
  · exact .inl ⟨hd, (h.count d hne).pos_iff.mpr hsome⟩

theorem Live.ne_zero (hl : t.Live d) : t.nlink d ≠ 0 := by
  intro hzero
  have hpos := hl.2
  rw [hzero] at hpos
  exact absurd hpos (by decide)

theorem Live.used (hl : t.Live d) : t.type d ≠ .free := by
  rw [hl.1]
  exact FileType.noConfusion

section

variable (h : t.Linked)
include h

theorem Linked.links_cases (hi : i ≠ 0) (hx : x ∈ t.links i) :
    (x.2 = 1 ∧ t.Live x.1 ∧ (t.entry x.1 1).inum = i) ∨ t.Child x.1 x.2 i := by
  obtain ⟨hlive, hinum, hname⟩ := hx
  rcases Nat.lt_trichotomy x.2 1 with hlt | heq | hgt
  · have hzero : x.2 = 0 := by omega
    rw [hzero] at hname
    exact absurd (h.dot x.1 hlive.1).2 hname
  · rw [heq] at hinum
    exact .inl ⟨heq, hlive, hinum⟩
  · exact .inr ⟨hlive, hgt, hinum, hi⟩

theorem Linked.mem_links_of_child (hc : t.Child d k e) : (d, k) ∈ t.links e := by
  refine ⟨hc.live, hc.inum_eq, h.names d k hc.live.1 hc.two_le ?_⟩
  rw [hc.inum_eq]
  exact hc.ne_zero

theorem Linked.mem_links_up (hd : t.Live d) : (d, 1) ∈ t.links (t.entry d 1).inum := by
  refine ⟨hd, rfl, ?_⟩
  rw [(h.dotdot d hd.1).2]
  exact dot_ne_dotdot

theorem Linked.exists_child (hd : t.Live d) (hroot : d ≠ rootino) : ∃ p k, t.Child p k d := by
  cases h.rooted d hd with
  | root => exact absurd rfl hroot
  | child _ hc => exact ⟨_, _, hc⟩

theorem Linked.up_live (hd : t.Live d) : t.Live (t.entry d 1).inum := by
  by_cases hroot : d = rootino
  · rw [hroot, h.root_up]
    exact h.root_live
  · obtain ⟨p, k, hc⟩ := h.exists_child hd hroot
    rw [h.parent p k d hc hd.1]
    exact hc.live

theorem Linked.used_of_links (hi : i ≠ 0) (hlinks : (t.links i).Nonempty) : t.type i ≠ .free ∧ 0 < t.nlink i := by
  have hpos := (h.count i hi).pos_iff.mpr hlinks
  refine ⟨fun hfree => ?_, hpos⟩
  rw [h.free i hfree] at hpos
  exact absurd hpos (by decide)

end

/-! ### Inodes that go -/

theorem Linked.links_of_nlink (h : t.Linked) (hi : i ≠ 0) (hzero : t.nlink i = 0) : t.links i = ∅ := (h.count i hi).eq_zero_iff.mp hzero

structure SameLive (t t' : Tree) : Prop where
  live_iff : ∀ d, t'.Live d ↔ t.Live d
  entry_eq : ∀ d, t.Live d → t'.entry d = t.entry d

section

variable (hs : SameLive t t')
include hs

theorem SameLive.trans {t'' : Tree} (hs' : SameLive t' t'') : SameLive t t'' := by
  refine ⟨fun d => (hs'.live_iff d).trans (hs.live_iff d), fun d hd => ?_⟩
  rw [hs'.entry_eq d ((hs.live_iff d).mpr hd), hs.entry_eq d hd]

theorem SameLive.child_iff : t'.Child d k e ↔ t.Child d k e := by
  constructor
  · rintro ⟨hlive, htwo, hinum, hne⟩
    have hlive' := (hs.live_iff d).mp hlive
    rw [hs.entry_eq d hlive'] at hinum
    exact ⟨hlive', htwo, hinum, hne⟩
  · rintro ⟨hlive, htwo, hinum, hne⟩
    rw [← hs.entry_eq d hlive] at hinum
    exact ⟨(hs.live_iff d).mpr hlive, htwo, hinum, hne⟩

theorem SameLive.links_eq : t'.links i = t.links i := by
  ext x
  constructor
  · rintro ⟨hlive, hrest⟩
    have hlive' := (hs.live_iff x.1).mp hlive
    rw [hs.entry_eq x.1 hlive'] at hrest
    exact ⟨hlive', hrest⟩
  · rintro ⟨hlive, hrest⟩
    rw [← hs.entry_eq x.1 hlive] at hrest
    exact ⟨(hs.live_iff x.1).mpr hlive, hrest⟩

theorem SameLive.rooted (hr : t.Rooted d) : t'.Rooted d := by
  induction hr with
  | root => exact .root
  | child _ hc ih => exact .child ih (hs.child_iff.mpr hc)

end

theorem Fades.sameLive (hs : Fades t t') : SameLive t t' := by
  refine ⟨fun d => ?_, fun d hd => ?_⟩
  · rcases hs d with ⟨htype, hnlink, _⟩ | ⟨_, hold, hempty⟩
    · unfold Live
      rw [htype, hnlink]
    · refine iff_of_false (fun hl => hl.used hempty.1) fun hl => ?_
      rcases hold with hzero | hfree
      · exact hl.ne_zero hzero
      · exact hl.used hfree
  · rcases hs d with ⟨_, _, hentry⟩ | ⟨_, hold, _⟩
    · exact hentry
    · rcases hold with hzero | hfree
      · exact absurd hzero hd.ne_zero
      · exact absurd hfree hd.used

theorem Fades.entry_eq (hs : Fades t t') (hd : t'.type d = .dir) : t.type d = .dir ∧ t'.entry d = t.entry d ∧ t'.nlink d = t.nlink d := by
  obtain ⟨htype, hnlink, hentry⟩ := hs.same_of_type (by rw [hd]; exact FileType.noConfusion)
  exact ⟨htype.symm.trans hd, hentry, hnlink⟩

structure Unlinked (t : Tree) (i : ℕ) : Prop where
  nlink : t.nlink i = 0
  range : t.type i ≠ .free → 0 < i ∧ i < ninodes
  dot : t.type i = .dir → (t.entry i 0).inum = i ∧ dirKey (t.entry i 0).name = dirKey FileSystem.dot
  dotdot : t.type i = .dir → (t.entry i 1).inum ≠ 0 ∧ dirKey (t.entry i 1).name = dirKey FileSystem.dotdot
  empty : t.type i = .dir → ∀ k, 2 ≤ k → (t.entry i k).inum = 0

/-- Only inodes without links come and go. -/
theorem Linked.of_sameLive (h : t.Linked) (hs : SameLive t t') (hnode : ∀ i, SameNode t t' i ∨ t.nlink i = 0 ∧ t'.Unlinked i) : t'.Linked := by
  have hchild {d k e : ℕ} (hc : t'.Child d k e) : t.Child d k e ∧ SameNode t t' e := by
    have hold := hs.child_iff.mp hc
    refine ⟨hold, (hnode e).resolve_right fun hnew => ?_⟩
    have hmem := h.mem_links_of_child hold
    rw [h.links_of_nlink hold.ne_zero hnew.1] at hmem
    exact hmem
  refine ⟨fun i hi => ?_, fun i hi => ?_, fun i hi => ?_, fun d hd => ?_, fun d hd => ?_, fun d k hd hk hne => ?_, fun d k hd hzero hk => ?_,
    fun d k e hc he => ?_, fun d k d' k' e hc hc' he => ?_, (hs.live_iff _).mpr h.root_live, ?_, fun d k hc => h.root_top d k (hs.child_iff.mp hc),
    fun d hd => hs.rooted (h.rooted d ((hs.live_iff d).mp hd))⟩
  · rcases hnode i with ⟨htype, _⟩ | ⟨_, hnew⟩
    · exact h.range i (htype ▸ hi)
    · exact hnew.range hi
  · rcases hnode i with ⟨htype, hnlink, _⟩ | ⟨_, hnew⟩
    · exact hnlink.trans (h.free i (htype.symm.trans hi))
    · exact hnew.nlink
  · rw [hs.links_eq]
    rcases hnode i with ⟨_, hnlink, _⟩ | ⟨hzero, hnew⟩
    · rw [hnlink]
      exact h.count i hi
    · rw [hnew.nlink, h.links_of_nlink hi hzero]
      exact .empty
  · rcases hnode d with ⟨htype, _, hentry⟩ | ⟨_, hnew⟩
    · rw [hentry]
      exact h.dot d (htype.symm.trans hd)
    · exact hnew.dot hd
  · rcases hnode d with ⟨htype, _, hentry⟩ | ⟨_, hnew⟩
    · rw [hentry]
      exact h.dotdot d (htype.symm.trans hd)
    · exact hnew.dotdot hd
  · rcases hnode d with ⟨htype, _, hentry⟩ | ⟨_, hnew⟩
    · rw [hentry] at hne ⊢
      exact h.names d k (htype.symm.trans hd) hk hne
    · exact absurd (hnew.empty hd k hk) hne
  · rcases hnode d with ⟨htype, hnlink, hentry⟩ | ⟨_, hnew⟩
    · rw [hentry]
      exact h.empty d k (htype.symm.trans hd) (hnlink.symm.trans hzero) hk
    · exact hnew.empty hd k hk
  · obtain ⟨hold, htype, _, hentry⟩ := hchild hc
    rw [hentry]
    exact h.parent d k e hold (htype.symm.trans he)
  · obtain ⟨hold, htype, _⟩ := hchild hc
    exact h.single d k d' k' e hold (hchild hc').1 (htype.symm.trans he)
  · rw [hs.entry_eq _ h.root_live]
    exact h.root_up

theorem Linked.fades (h : t.Linked) (hs : Fades t t') : t'.Linked := by
  refine h.of_sameLive hs.sameLive fun i => (hs i).imp_right fun ⟨_, hold, hempty⟩ => ?_
  have hnot : t'.type i ≠ .dir := by
    rw [hempty.1]
    exact FileType.noConfusion
  exact ⟨hold.elim id (h.free i), hempty.2.1, fun hi => absurd hempty.1 hi, fun hd => absurd hd hnot, fun hd => absurd hd hnot, fun hd => absurd hd hnot⟩

/-! ### New inodes -/

variable {dp ip : ℕ} {type : FileType} {name : List UInt8}

/-- An inode is taken; a directory gets `.` and `..`. It has no links yet. -/
def birth (t : Tree) (dp ip : ℕ) (type : FileType) : Tree := (t.alloc ip type).dots dp ip type

theorem type_birth (t : Tree) : (t.birth dp ip type).type = update t.type ip type := by
  unfold birth dots
  split <;> rfl

theorem nlink_birth (t : Tree) : (t.birth dp ip type).nlink = update t.nlink ip 0 := by
  unfold birth dots
  split <;> rfl

theorem entry_birth_of_ne (t : Tree) (hd : d ≠ ip) : (t.birth dp ip type).entry d = t.entry d := by
  unfold birth dots
  split
  · exact (update_of_ne hd ..).trans ((update_of_ne hd ..).trans (update_of_ne hd ..))
  · exact update_of_ne hd ..

theorem entry_birth_self (t : Tree) :
    (t.birth dp ip .dir).entry ip = update (update (fun _ => noEntry) 0 (newEntry ip FileSystem.dot)) 1 (newEntry dp FileSystem.dotdot) := by
  unfold birth dots setEntry alloc
  rw [if_pos rfl]
  simp only [update_self]

theorem sameLive_birth (hfree : t.type ip = .free) : SameLive t (t.birth dp ip type) := by
  have hold : ¬ t.Live ip := fun hl => hl.used hfree
  refine ⟨fun d => ?_, fun d hd => entry_birth_of_ne t fun heq => hold (heq ▸ hd)⟩
  by_cases hd : d = ip
  · subst hd
    refine iff_of_false (fun hl => hl.ne_zero ?_) hold
    rw [nlink_birth, update_self]
  · unfold Live
    rw [type_birth, nlink_birth, update_of_ne hd, update_of_ne hd]

theorem Linked.birth (h : t.Linked) (hfree : t.type ip = .free) (hpos : 0 < ip) (hlt : ip < ninodes) (hdp : dp ≠ 0) :
    (t.birth dp ip type).Linked := by
  refine h.of_sameLive (sameLive_birth hfree) fun i => ?_
  by_cases heq : i = ip
  · subst heq
    have hself (hdir : (t.birth dp i type).type i = .dir) : (t.birth dp i type).entry i =
        update (update (fun _ => noEntry) 0 (newEntry i FileSystem.dot)) 1 (newEntry dp FileSystem.dotdot) := by
      rw [type_birth, update_self] at hdir
      rw [hdir]
      exact entry_birth_self t
    refine .inr ⟨h.free i hfree, by rw [nlink_birth, update_self], fun _ => ⟨hpos, hlt⟩, fun hd => ?_, fun hd => ?_, fun hd k hk => ?_⟩
    · rw [hself hd, update_of_ne Nat.zero_ne_one, update_self]
      exact ⟨rfl, dirKey_strncpy FileSystem.dot⟩
    · rw [hself hd, update_self]
      exact ⟨hdp, dirKey_strncpy FileSystem.dotdot⟩
    · rw [hself hd, update_of_ne (by omega), update_of_ne (by omega)]
      rfl
  · refine .inl ⟨?_, ?_, entry_birth_of_ne t heq⟩
    · rw [type_birth, update_of_ne heq]
    · rw [nlink_birth, update_of_ne heq]

/-! ### Entries that come -/

/-- A directory has an entry from above, and `..` from each of its directories. -/
theorem Linked.nlink_lt (h : t.Linked) (hd : t.type d = .dir) : t.nlink d < 32767 := by
  have hrange := h.range d (by rw [hd]; exact FileType.noConfusion)
  have hcount := h.count d (Nat.ne_of_gt hrange.1)
  have hup (x : ℕ × ℕ) (hx : x ∈ t.links d) (hone : x.2 = 1) : x ∈ Set.Iio ninodes ×ˢ ({1} : Set ℕ) :=
    ⟨(h.range x.1 hx.1.used).2, hone⟩
  have hfinite : (Set.Iio ninodes ×ˢ ({1} : Set ℕ)).Finite := (Set.finite_Iio ninodes).prod (Set.finite_singleton 1)
  have hcard : (Set.Iio ninodes ×ˢ ({1} : Set ℕ)).ncard = ninodes := by
    rw [Set.ncard_prod, Set.ncard_singleton, Nat.mul_one, ← Finset.coe_Iio, Set.ncard_coe_finset, Nat.card_Iio]
  have hsub : ∃ y, t.links d ⊆ insert y (Set.Iio ninodes ×ˢ ({1} : Set ℕ)) := by
    by_cases hchild : ∃ p k, t.Child p k d
    · obtain ⟨p, k, hc⟩ := hchild
      refine ⟨(p, k), fun x hx => ?_⟩
      rcases h.links_cases (Nat.ne_of_gt hrange.1) hx with hone | hc'
      · exact .inr (hup x hx hone.1)
      · exact .inl (h.single x.1 x.2 p k d hc' hc hd)
    · refine ⟨(0, 0), fun x hx => ?_⟩
      rcases h.links_cases (Nat.ne_of_gt hrange.1) hx with hone | hc'
      · exact .inr (hup x hx hone.1)
      · exact absurd ⟨x.1, x.2, hc'⟩ hchild
  obtain ⟨y, hsub⟩ := hsub
  have hle := (Set.ncard_le_ncard hsub (hfinite.insert y)).trans (Set.ncard_insert_le y _)
  have heq := hcount.eq
  rw [hcard] at hle
  have hsmall : ninodes + 1 < 32767 := by decide
  refine Int16.lt_iff_toInt_lt.mpr ?_
  change (t.nlink d).toInt < 32767
  omega

/-- An entry for an inode is made. With a directory comes its `..`. -/
def attach (t : Tree) (dp k : ℕ) (name : List UInt8) (ip : ℕ) : Tree :=
  ((t.setEntry dp k (newEntry ip name)).setNlink ip (t.nlink ip + 1)).count dp (t.type ip)

theorem type_attach (t : Tree) : (t.attach dp k name ip).type = t.type := by
  unfold attach count
  split <;> rfl

theorem entry_setEntry (t : Tree) (de : Dirent) (d l : ℕ) : (t.setEntry dp k de).entry d l = if d = dp ∧ l = k then de else t.entry d l := by
  unfold setEntry
  dsimp only
  by_cases hd : d = dp
  · subst hd
    rw [update_self, update_apply]
    exact if_congr (by rw [and_iff_right rfl]) rfl rfl
  · rw [update_of_ne hd, if_neg fun hc => hd hc.1]

theorem entry_attach (t : Tree) (d l : ℕ) : (t.attach dp k name ip).entry d l = if d = dp ∧ l = k then newEntry ip name else t.entry d l := by
  have hentry : (t.attach dp k name ip).entry = (t.setEntry dp k (newEntry ip name)).entry := by
    unfold attach count
    split <;> rfl
  rw [hentry, entry_setEntry]

theorem nlink_attach (t : Tree) (hne : ip ≠ dp) (i : ℕ) : (t.attach dp k name ip).nlink i =
    if i = ip then t.nlink ip + 1 else if i = dp ∧ t.type ip = .dir then t.nlink dp + 1 else t.nlink i := by
  unfold attach count setNlink setEntry
  by_cases hdir : t.type ip = .dir
  · rw [if_pos hdir]
    dsimp only
    simp only [update_apply, hdir, and_true, if_neg (Ne.symm hne)]
    by_cases hi : i = dp
    · rw [if_pos hi, if_neg fun hc => hne (hc.symm.trans hi), if_pos hi]
    · rw [if_neg hi, if_neg hi]
  · rw [if_neg hdir]
    dsimp only
    simp only [update_apply, hdir, and_false, if_false]

/-- What an entry needs: a place for it in a directory with links, and an inode that is not a directory, or a new one. -/
structure Attachable (t : Tree) (dp k : ℕ) (name : List UInt8) (ip : ℕ) : Prop where
  live : t.Live dp
  vacant : t.Vacant dp k name
  used : t.type ip ≠ .free
  below : t.nlink ip < 32767
  fresh : t.type ip = .dir → t.nlink ip = 0 ∧ (t.entry ip 1).inum = dp

theorem Attachable.ne (ha : t.Attachable dp k name ip) : ip ≠ dp := by
  rintro rfl
  exact ha.live.ne_zero (ha.fresh ha.live.1).1

section

variable (ha : t.Attachable dp k name ip) (h : t.Linked)
include ha h

theorem Attachable.two_le : 2 ≤ k := by
  have hzero := ha.vacant.inum_eq
  rcases Nat.lt_trichotomy k 1 with hlt | heq | hgt
  · obtain rfl : k = 0 := by omega
    rw [(h.dot dp ha.live.1).1] at hzero
    exact absurd hzero (Nat.ne_of_gt (h.range dp ha.live.used).1)
  · rw [heq] at hzero
    exact absurd hzero (h.dotdot dp ha.live.1).1
  · exact hgt

theorem Attachable.name_ne : dirKey (newEntry ip name).name ≠ dirKey FileSystem.dot := by
  have hdot := h.dot dp ha.live.1
  intro heq
  refine ha.vacant.no_name 0 ⟨?_, ?_⟩
  · rw [hdot.1]
    exact Nat.ne_of_gt (h.range dp ha.live.used).1
  · rw [hdot.2, ← heq]
    exact dirKey_strncpy name

theorem Attachable.live_iff :
    (t.attach dp k name ip).Live d ↔ t.Live d ∨ (d = ip ∧ t.type ip = .dir) := by
  have hip : ip ≠ 0 := Nat.ne_of_gt (h.range ip ha.used).1
  have hdp : dp ≠ 0 := Nat.ne_of_gt (h.range dp ha.live.used).1
  unfold Live
  rw [type_attach, nlink_attach t ha.ne]
  by_cases hd : d = ip
  · subst hd
    rw [if_pos rfl]
    have hpos : 0 < t.nlink d + 1 := short_add_one_pos (h.nonneg hip) ha.below
    constructor
    · exact fun hl => .inr ⟨rfl, hl.1⟩
    · rintro (hl | hl)
      · exact ⟨hl.1, hpos⟩
      · exact ⟨hl.2, hpos⟩
  · rw [if_neg hd]
    split
    · rename_i hdd
      rw [hdd.1]
      exact iff_of_true ⟨ha.live.1, short_add_one_pos (h.nonneg hdp) (h.nlink_lt ha.live.1)⟩ (.inl ha.live)
    · exact ⟨.inl, fun hl => hl.resolve_right fun hc => hd hc.1⟩

theorem Attachable.child_iff :
    (t.attach dp k name ip).Child d l e ↔ t.Child d l e ∨ (d = dp ∧ l = k ∧ e = ip) := by
  have hip : ip ≠ 0 := Nat.ne_of_gt (h.range ip ha.used).1
  constructor
  · rintro ⟨hlive, htwo, hinum, hne⟩
    rw [entry_attach] at hinum
    split at hinum
    · rename_i hnew
      exact .inr ⟨hnew.1, hnew.2, hinum.symm⟩
    · rcases (ha.live_iff h).mp hlive with hold | ⟨rfl, hdir⟩
      · exact .inl ⟨hold, htwo, hinum, hne⟩
      · rw [h.empty d l hdir (ha.fresh hdir).1 htwo] at hinum
        exact absurd hinum.symm hne
  · rintro (⟨hlive, htwo, hinum, hne⟩ | ⟨rfl, rfl, rfl⟩)
    · refine ⟨(ha.live_iff h).mpr (.inl hlive), htwo, ?_, hne⟩
      rw [entry_attach, if_neg]
      · exact hinum
      · rintro ⟨rfl, rfl⟩
        exact hne (hinum.symm.trans ha.vacant.inum_eq)
    · refine ⟨(ha.live_iff h).mpr (.inl ha.live), ha.two_le h, ?_, hip⟩
      rw [entry_attach, if_pos ⟨rfl, rfl⟩]
      rfl

theorem Attachable.mem_links (hi : i ≠ 0) : x ∈ (t.attach dp k name ip).links i ↔
    x ∈ t.links i ∨ (x = (dp, k) ∧ i = ip) ∨ (x = (ip, 1) ∧ i = dp ∧ t.type ip = .dir) := by
  have htwo := ha.two_le h
  constructor
  · rintro ⟨hlive, hinum, hname⟩
    rw [entry_attach] at hinum hname
    split at hinum
    · rename_i hnew
      exact .inr (.inl ⟨Prod.ext hnew.1 hnew.2, hinum.symm⟩)
    · rename_i hold
      rw [if_neg hold] at hname
      rcases (ha.live_iff h).mp hlive with hlive | ⟨hip, hdir⟩
      · exact .inl ⟨hlive, hinum, hname⟩
      -- of a new directory only `..` counts
      · rw [hip] at hinum hname
        rcases Nat.lt_trichotomy x.2 1 with hlt | heq | hgt
        · have hzero : x.2 = 0 := by omega
          rw [hzero] at hname
          exact absurd (h.dot ip hdir).2 hname
        · rw [heq, (ha.fresh hdir).2] at hinum
          exact .inr (.inr ⟨Prod.ext hip heq, hinum.symm, hdir⟩)
        · rw [h.empty ip x.2 hdir (ha.fresh hdir).1 hgt] at hinum
          exact absurd hinum.symm hi
  · rintro (⟨hlive, hinum, hname⟩ | ⟨rfl, rfl⟩ | ⟨rfl, rfl, hdir⟩)
    · have hold : ¬ (x.1 = dp ∧ x.2 = k) := by
        rintro ⟨h1, h2⟩
        rw [h1, h2, ha.vacant.inum_eq] at hinum
        exact hi hinum.symm
      refine ⟨(ha.live_iff h).mpr (.inl hlive), ?_⟩
      rw [entry_attach, if_neg hold]
      exact ⟨hinum, hname⟩
    · refine ⟨(ha.live_iff h).mpr (.inl ha.live), ?_⟩
      rw [entry_attach, if_pos ⟨rfl, rfl⟩]
      exact ⟨rfl, ha.name_ne h⟩
    · refine ⟨(ha.live_iff h).mpr (.inr ⟨rfl, hdir⟩), ?_⟩
      rw [entry_attach, if_neg fun hc => ha.ne hc.1]
      refine ⟨(ha.fresh hdir).2, ?_⟩
      rw [(h.dotdot ip hdir).2]
      exact dot_ne_dotdot

theorem Attachable.count (hi : i ≠ 0) :
    Counts ((t.attach dp k name ip).links i) ((t.attach dp k name ip).nlink i) := by
  have hcount := h.count i hi
  rw [nlink_attach t ha.ne]
  split
  · rename_i heq
    subst heq
    have hset : (t.attach dp k name i).links i = insert (dp, k) (t.links i) := by
      ext x
      rw [ha.mem_links h hi, Set.mem_insert_iff]
      constructor
      · rintro (hold | hnew | hup)
        · exact .inr hold
        · exact .inl hnew.1
        · exact absurd hup.2.1 ha.ne
      · rintro (hnew | hold)
        · exact .inr (.inl ⟨hnew, rfl⟩)
        · exact .inl hold
    rw [hset]
    refine hcount.insert (fun hmem => hi ?_) ha.below
    exact hmem.2.1.symm.trans ha.vacant.inum_eq
  · rename_i hne
    split
    · rename_i hdd
      obtain ⟨rfl, hdir⟩ := hdd
      have hset : (t.attach i k name ip).links i = insert (ip, 1) (t.links i) := by
        ext x
        rw [ha.mem_links h hi, Set.mem_insert_iff]
        constructor
        · rintro (hold | hnew | hup)
          · exact .inr hold
          · exact absurd hnew.2 hne
          · exact .inl hup.1
        · rintro (hnew | hold)
          · exact .inr (.inr ⟨hnew, rfl, hdir⟩)
          · exact .inl hold
      rw [hset]
      refine hcount.insert (fun hmem => ?_) (h.nlink_lt ha.live.1)
      exact Live.ne_zero hmem.1 (ha.fresh hdir).1
    · rename_i hold
      have hset : (t.attach dp k name ip).links i = t.links i := by
        ext x
        rw [ha.mem_links h hi]
        refine or_iff_left ?_
        rintro (hnew | hup)
        · exact hne hnew.2
        · exact hold hup.2
      rw [hset]
      exact hcount

theorem Attachable.rooted (hr : t.Rooted d) : (t.attach dp k name ip).Rooted d := by
  induction hr with
  | root => exact .root
  | child _ hc ih => exact .child ih ((ha.child_iff h).mpr (.inl hc))

theorem Attachable.entry_up (hl : l < 2) :
    (t.attach dp k name ip).entry d l = t.entry d l := by
  have htwo := ha.two_le h
  rw [entry_attach, if_neg]
  rintro ⟨_, rfl⟩
  omega

theorem Attachable.not_child (hdir : t.type ip = .dir) : ¬ t.Child d l ip := by
  intro hc
  have hmem := h.mem_links_of_child hc
  rw [h.links_of_nlink hc.ne_zero (ha.fresh hdir).1] at hmem
  exact hmem

end

theorem Linked.attach (h : t.Linked) (ha : t.Attachable dp k name ip) : (t.attach dp k name ip).Linked where
  range i hi := by
    rw [type_attach] at hi
    exact h.range i hi
  free i hi := by
    rw [type_attach] at hi
    have hip : i ≠ ip := fun heq => ha.used (heq ▸ hi)
    have hdp : i ≠ dp := fun heq => ha.live.used (heq ▸ hi)
    rw [nlink_attach t ha.ne, if_neg hip, if_neg fun hc => hdp hc.1]
    exact h.free i hi
  count i hi := ha.count h hi
  dot d hd := by
    rw [type_attach] at hd
    rw [ha.entry_up h Nat.two_pos]
    exact h.dot d hd
  dotdot d hd := by
    rw [type_attach] at hd
    rw [ha.entry_up h Nat.one_lt_two]
    exact h.dotdot d hd
  names d l hd hl hne := by
    rw [type_attach] at hd
    rw [entry_attach] at hne ⊢
    by_cases hnew : d = dp ∧ l = k
    · rw [if_pos hnew]
      exact ha.name_ne h
    · rw [if_neg hnew] at hne ⊢
      exact h.names d l hd hl hne
  empty d l hd hzero hl := by
    have hdead : ¬ (t.attach dp k name ip).Live d := fun hlive => hlive.ne_zero hzero
    rw [ha.live_iff h, not_or] at hdead
    rw [type_attach] at hd
    have hdp : d ≠ dp := fun heq => hdead.1 (heq ▸ ha.live)
    rw [entry_attach, if_neg fun hc => hdp hc.1]
    exact h.empty d l hd ((h.live_or hd).resolve_left hdead.1) hl
  parent d l e hc he := by
    rw [type_attach] at he
    rw [ha.entry_up h Nat.one_lt_two]
    rcases (ha.child_iff h).mp hc with hold | ⟨rfl, _, rfl⟩
    · exact h.parent d l e hold he
    · exact (ha.fresh he).2
  single d l d' l' e hc hc' he := by
    rw [type_attach] at he
    rcases (ha.child_iff h).mp hc with hold | ⟨rfl, rfl, rfl⟩
    · rcases (ha.child_iff h).mp hc' with hold' | ⟨rfl, rfl, rfl⟩
      · exact h.single d l d' l' e hold hold' he
      · exact absurd hold (ha.not_child h he)
    · rcases (ha.child_iff h).mp hc' with hold' | ⟨rfl, rfl, _⟩
      · exact absurd hold' (ha.not_child h he)
      · rfl
  root_live := (ha.live_iff h).mpr (.inl h.root_live)
  root_up := by
    rw [ha.entry_up h Nat.one_lt_two]
    exact h.root_up
  root_top d l hc := by
    rcases (ha.child_iff h).mp hc with hold | ⟨_, _, hroot⟩
    · exact h.root_top d l hold
    · have hlive := h.root_live
      rw [hroot] at hlive
      exact hlive.ne_zero (ha.fresh hlive.1).1
  rooted d hd := by
    rcases (ha.live_iff h).mp hd with hold | ⟨rfl, _⟩
    · exact ha.rooted h (h.rooted d hold)
    · exact .child (ha.rooted h (h.rooted dp ha.live)) ((ha.child_iff h).mpr (.inr ⟨rfl, rfl, rfl⟩))

theorem link_eq_attach (t : Tree) (hfile : t.type ip ≠ .dir) : t.link dp k name ip = t.attach dp k name ip := by
  unfold Tree.link Tree.attach Tree.count
  rw [if_neg hfile]
  rfl

theorem make_eq_attach (t : Tree) : t.make dp k name ip type = (t.birth dp ip type).attach dp k name ip := by
  have htype : (t.birth dp ip type).type ip = type := by rw [type_birth, update_self]
  have hnlink : (t.birth dp ip type).nlink ip = 0 := by rw [nlink_birth, update_self]
  unfold Tree.attach
  rw [htype, hnlink]
  unfold Tree.make Tree.birth Tree.count Tree.dots
  split
  · simp only [Tree.setNlink, Tree.setEntry, Tree.alloc, update_idem]
    rfl
  · simp only [Tree.setNlink, Tree.setEntry, Tree.alloc, update_idem]
    rfl

theorem attachable_birth (hlive : t.Live dp) (hv : t.Vacant dp k name) (hfree : t.type ip = .free) (htype : type ≠ .free) :
    (t.birth dp ip type).Attachable dp k name ip := by
  have hdp : dp ≠ ip := fun heq => hlive.used (heq ▸ hfree)
  have htype' : (t.birth dp ip type).type ip = type := by rw [type_birth, update_self]
  have hnlink' : (t.birth dp ip type).nlink ip = 0 := by rw [nlink_birth, update_self]
  refine ⟨((sameLive_birth hfree).live_iff dp).mpr hlive, ⟨?_, fun l => ?_, ?_, fun l hl => ?_⟩, by rw [htype']; exact htype,
    by rw [hnlink']; decide, fun hdir => ⟨hnlink', ?_⟩⟩
  · rw [type_birth, update_of_ne hdp]
    exact hv.dir
  · rw [entry_birth_of_ne t hdp]
    exact hv.no_name l
  · rw [entry_birth_of_ne t hdp]
    exact hv.inum_eq
  · rw [entry_birth_of_ne t hdp]
    exact hv.before l hl
  · rw [htype'] at hdir
    subst hdir
    rw [entry_birth_self, update_self]
    rfl

/-! ### Entries that go -/

theorem type_unlink (t : Tree) : (t.unlink dp k ip).type = t.type := by
  unfold Tree.unlink cut
  dsimp only
  split <;> rfl

theorem entry_unlink (t : Tree) (d l : ℕ) : (t.unlink dp k ip).entry d l = if d = dp ∧ l = k then Dirent.zero else t.entry d l := by
  have hentry : (t.unlink dp k ip).entry = (t.setEntry dp k Dirent.zero).entry := by
    unfold Tree.unlink cut
    dsimp only
    split <;> rfl
  rw [hentry, entry_setEntry]

theorem nlink_unlink (t : Tree) (hne : ip ≠ dp) (i : ℕ) : (t.unlink dp k ip).nlink i =
    if i = ip then t.nlink ip - 1 else if i = dp ∧ t.type ip = .dir then t.nlink dp - 1 else t.nlink i := by
  unfold Tree.unlink cut setNlink setEntry
  by_cases hdir : t.type ip = .dir
  · dsimp only
    rw [if_pos hdir]
    dsimp only
    simp only [update_apply, hdir, and_true, if_neg hne]
  · dsimp only
    rw [if_neg hdir]
    dsimp only
    simp only [update_apply, hdir, and_false, if_false]

namespace Removable

section

variable (hr : t.Removable dp k ip name) (h : t.Linked)
include hr h

theorem two_le : 2 ≤ k := by
  rcases Nat.lt_trichotomy k 1 with hlt | heq | hgt
  · obtain rfl : k = 0 := by omega
    exact absurd (hr.names.2.symm.trans (h.dot dp hr.dir).2) hr.not_dot
  · subst heq
    exact absurd (hr.names.2.symm.trans (h.dotdot dp hr.dir).2) hr.not_dotdot
  · exact hgt

theorem live : t.Live dp := by
  refine (h.live_or hr.dir).resolve_right fun hzero => ?_
  exact hr.names.1 (h.empty dp k hr.dir hzero (hr.two_le h))

theorem child : t.Child dp k ip :=
  ⟨hr.live h, hr.two_le h, hr.inum_eq, by rw [← hr.inum_eq]; exact hr.names.1⟩

theorem ne : ip ≠ dp := by
  rintro rfl
  exact hr.names.1 (hr.empty hr.dir k (hr.two_le h))

omit hr h in
theorem no_child (hr : t.Removable dp k ip name) : ¬ t.Child ip l e :=
  fun hc => hc.ne_zero (hc.inum_eq.symm.trans (hr.empty hc.live.1 l hc.two_le))

theorem links_self (hdir : t.type ip = .dir) : t.links ip = {(dp, k)} := by
  have hchild := hr.child h
  ext x
  rw [Set.mem_singleton_iff]
  constructor
  · intro hx
    rcases h.links_cases hchild.ne_zero hx with ⟨_, hlive, hup⟩ | hc
    · by_cases hroot : x.1 = rootino
      · rw [hroot, h.root_up] at hup
        rw [← hup] at hchild
        exact absurd hchild (h.root_top dp k)
      · obtain ⟨p, l, hc⟩ := h.exists_child hlive hroot
        rw [h.parent p l x.1 hc hlive.1] at hup
        rw [hup] at hc
        exact absurd hc hr.no_child
    · exact h.single x.1 x.2 dp k ip hc hchild hdir
  · rintro rfl
    exact h.mem_links_of_child hchild

/-- The parent of a directory that goes has another link. -/
theorem exists_link : (t.links dp \ {(ip, 1)}).Nonempty := by
  have hlive := hr.live h
  by_cases hroot : dp = rootino
  · have hmem := h.mem_links_up h.root_live
    rw [h.root_up] at hmem
    refine ⟨(rootino, 1), by rw [hroot]; exact hmem, fun heq => hr.ne h ?_⟩
    rw [hroot]
    exact (Prod.mk.inj heq).1.symm
  · obtain ⟨p, l, hc⟩ := h.exists_child hlive hroot
    refine ⟨(p, l), h.mem_links_of_child hc, fun heq => ?_⟩
    have hone := (Prod.mk.inj heq).2
    have htwo := hc.two_le
    omega

theorem live_iff : (t.unlink dp k ip).Live d ↔ t.Live d ∧ ¬ (d = ip ∧ t.type ip = .dir) := by
  have hlive := hr.live h
  have hne := hr.ne h
  have hchild := hr.child h
  unfold Live
  rw [type_unlink, nlink_unlink t hne]
  by_cases hd : d = ip
  · subst hd
    rw [if_pos rfl]
    refine iff_of_false (fun hl => ?_) fun hl => hl.2 ⟨rfl, hl.1.1⟩
    have hone := (h.count d hchild.ne_zero).erase (h.mem_links_of_child hchild)
    rw [hr.links_self h hl.1, Set.sdiff_self] at hone
    have hzero := hone.eq_zero_iff.mpr rfl
    rw [hzero] at hl
    exact absurd hl.2 (by decide)
  · rw [if_neg hd]
    refine Iff.trans ?_ (and_iff_left fun hc => hd hc.1).symm
    split
    · rename_i hdd
      obtain ⟨rfl, hdir⟩ := hdd
      have hup := h.mem_links_up (d := ip) ⟨hdir, ((h.count ip hchild.ne_zero).pos_iff).mpr ⟨_, h.mem_links_of_child hchild⟩⟩
      rw [h.parent d k ip hchild hdir] at hup
      have hpos : d ≠ 0 := Nat.ne_of_gt (h.range d hlive.used).1
      exact iff_of_true ⟨hlive.1, ((h.count d hpos).erase hup).pos_iff.mpr (hr.exists_link h)⟩ hlive
    · exact Iff.rfl

theorem child_iff :
    (t.unlink dp k ip).Child d l e ↔ t.Child d l e ∧ ¬ (d = dp ∧ l = k) := by
  constructor
  · rintro ⟨hlive, htwo, hinum, hne⟩
    rw [entry_unlink] at hinum
    split at hinum
    · exact absurd hinum.symm hne
    · rename_i hold
      exact ⟨⟨((hr.live_iff h).mp hlive).1, htwo, hinum, hne⟩, hold⟩
  · rintro ⟨hc, hold⟩
    refine ⟨(hr.live_iff h).mpr ⟨hc.live, ?_⟩, hc.two_le, ?_, hc.ne_zero⟩
    · rintro ⟨rfl, _⟩
      exact hr.no_child hc
    · rw [entry_unlink, if_neg hold]
      exact hc.inum_eq

theorem mem_links (hi : i ≠ 0) :
    x ∈ (t.unlink dp k ip).links i ↔ x ∈ t.links i ∧ x ≠ (dp, k) ∧ ¬ (x.1 = ip ∧ t.type ip = .dir) := by
  constructor
  · rintro ⟨hlive, hinum, hname⟩
    obtain ⟨hold, hne⟩ := (hr.live_iff h).mp hlive
    rw [entry_unlink] at hinum hname
    split at hinum
    · exact absurd hinum.symm hi
    · rename_i hother
      rw [if_neg hother] at hname
      refine ⟨⟨hold, hinum, hname⟩, ?_, hne⟩
      rintro rfl
      exact hother ⟨rfl, rfl⟩
  · rintro ⟨⟨hlive, hrest⟩, hother, hne⟩
    refine ⟨(hr.live_iff h).mpr ⟨hlive, hne⟩, ?_⟩
    rw [entry_unlink, if_neg fun hc => hother (Prod.ext hc.1 hc.2)]
    exact hrest

theorem eq_up (hi : i ≠ 0) (hx : x ∈ t.links i) (hip : x.1 = ip) :
    x = (ip, 1) ∧ i = dp := by
  rcases h.links_cases hi hx with ⟨hone, hlive, hup⟩ | hc
  · rw [hip] at hup hlive
    rw [h.parent dp k ip (hr.child h) hlive.1] at hup
    exact ⟨Prod.ext hip hone, hup.symm⟩
  · rw [hip] at hc
    exact absurd hc hr.no_child

theorem count (hi : i ≠ 0) :
    Counts ((t.unlink dp k ip).links i) ((t.unlink dp k ip).nlink i) := by
  have hcount := h.count i hi
  have hne := hr.ne h
  have hchild := hr.child h
  rw [nlink_unlink t hne]
  split
  · rename_i heq
    subst heq
    have hset : (t.unlink dp k i).links i = t.links i \ {(dp, k)} := by
      ext x
      rw [hr.mem_links h hi]
      constructor
      · rintro ⟨hx, hother, _⟩
        exact ⟨hx, hother⟩
      · rintro ⟨hx, hother⟩
        exact ⟨hx, hother, fun hc => hne (hr.eq_up h hi hx hc.1).2⟩
    rw [hset]
    exact hcount.erase (h.mem_links_of_child hchild)
  · rename_i hip
    have hother {x : ℕ × ℕ} (hx : x ∈ t.links i) : x ≠ (dp, k) := by
      rintro rfl
      exact hip (hx.2.1.symm.trans hr.inum_eq)
    split
    · rename_i hdd
      obtain ⟨rfl, hdir⟩ := hdd
      have hset : (t.unlink i k ip).links i = t.links i \ {(ip, 1)} := by
        ext x
        rw [hr.mem_links h hi]
        constructor
        · rintro ⟨hx, _, hold⟩
          refine ⟨hx, ?_⟩
          rintro rfl
          exact hold ⟨rfl, hdir⟩
        · rintro ⟨hx, hup⟩
          exact ⟨hx, hother hx, fun hc => hup (hr.eq_up h hi hx hc.1).1⟩
      have hup := h.mem_links_up (d := ip) ⟨hdir, ((h.count ip hchild.ne_zero).pos_iff).mpr ⟨_, h.mem_links_of_child hchild⟩⟩
      rw [h.parent i k ip hchild hdir] at hup
      rw [hset]
      exact hcount.erase hup
    · rename_i hold
      have hset : (t.unlink dp k ip).links i = t.links i := by
        ext x
        rw [hr.mem_links h hi]
        refine ⟨And.left, fun hx => ⟨hx, hother hx, fun hc => hold ⟨?_, hc.2⟩⟩⟩
        exact (hr.eq_up h hi hx hc.1).2
      rw [hset]
      exact hcount

theorem rooted (hd : t.Rooted d) : d = ip ∨ (t.unlink dp k ip).Rooted d := by
  induction hd with
  | root => exact .inr .root
  | child _ hc ih =>
    rcases ih with heq | ih
    · rw [heq] at hc
      exact absurd hc hr.no_child
    · rename_i d' l e' _
      by_cases hgone : d' = dp ∧ l = k
      · refine .inl (hc.inum_eq.symm.trans ?_)
        rw [hgone.1, hgone.2]
        exact hr.inum_eq
      · exact .inr (.child ih ((hr.child_iff h).mpr ⟨hc, hgone⟩))

theorem entry_up (hl : l < 2) : (t.unlink dp k ip).entry d l = t.entry d l := by
  have htwo := hr.two_le h
  rw [entry_unlink, if_neg]
  rintro ⟨_, rfl⟩
  omega

end

end Removable

theorem Linked.unlink (h : t.Linked) (hr : t.Removable dp k ip name) : (t.unlink dp k ip).Linked where
  range i hi := by
    rw [type_unlink] at hi
    exact h.range i hi
  free i hi := by
    rw [type_unlink] at hi
    have hip : i ≠ ip := fun heq => hr.type_ne (heq ▸ hi)
    have hdp : i ≠ dp := fun heq => (hr.live h).used (heq ▸ hi)
    rw [nlink_unlink t (hr.ne h), if_neg hip, if_neg fun hc => hdp hc.1]
    exact h.free i hi
  count i hi := hr.count h hi
  dot d hd := by
    rw [type_unlink] at hd
    rw [hr.entry_up h Nat.two_pos]
    exact h.dot d hd
  dotdot d hd := by
    rw [type_unlink] at hd
    rw [hr.entry_up h Nat.one_lt_two]
    exact h.dotdot d hd
  names d l hd hl hne := by
    rw [type_unlink] at hd
    rw [entry_unlink] at hne ⊢
    by_cases hgone : d = dp ∧ l = k
    · rw [if_pos hgone] at hne
      exact absurd rfl hne
    · rw [if_neg hgone] at hne ⊢
      exact h.names d l hd hl hne
  empty d l hd hzero hl := by
    have hdead : ¬ (t.unlink dp k ip).Live d := fun hlive => hlive.ne_zero hzero
    rw [hr.live_iff h, not_and_or, not_not] at hdead
    rw [type_unlink] at hd
    rw [entry_unlink]
    split
    · rfl
    · rcases hdead with hdead | ⟨rfl, hdir⟩
      · exact h.empty d l hd ((h.live_or hd).resolve_left hdead) hl
      · exact hr.empty hdir l hl
  parent d l e hc he := by
    rw [type_unlink] at he
    rw [hr.entry_up h Nat.one_lt_two]
    exact h.parent d l e ((hr.child_iff h).mp hc).1 he
  single d l d' l' e hc hc' he := by
    rw [type_unlink] at he
    exact h.single d l d' l' e ((hr.child_iff h).mp hc).1 ((hr.child_iff h).mp hc').1 he
  root_live := by
    refine (hr.live_iff h).mpr ⟨h.root_live, fun hc => ?_⟩
    have hchild := hr.child h
    rw [← hc.1] at hchild
    exact h.root_top dp k hchild
  root_up := by
    rw [hr.entry_up h Nat.one_lt_two]
    exact h.root_up
  root_top d l hc := h.root_top d l ((hr.child_iff h).mp hc).1
  rooted d hd := by
    obtain ⟨hlive, hne⟩ := (hr.live_iff h).mp hd
    refine (hr.rooted h (h.rooted d hlive)).resolve_left fun heq => hne ⟨heq, ?_⟩
    rw [← heq]
    exact hlive.1

/-! ### Calls -/

/-- The call makes entries only in directories with links, and links only inodes that can have one link more. -/
structure Fits (t : Tree) (I : Intent) : Prop where
  adds : ∀ dp name, I.adds dp name → t.type dp = .dir → (∀ k, ¬ (t.entry dp k).Names name) → 0 < t.nlink dp
  links : ∀ ip, I.links ip → t.type ip ≠ .dir → t.nlink ip < 32767

/-- What a call that fits does to a tree with exact counts: an entry is added for an inode, which may be new, or one is removed. -/
inductive Change (I : Intent) (t t' : Tree) : Prop where
  | fades : Fades t t' → Change I t t'
  | attach (t1 : Tree) (dp k : ℕ) (name : List UInt8) (ip : ℕ) : t1.Linked → SameLive t t1 →
      (∀ d, d ≠ ip → t1.type d = .dir → t.type d = .dir ∧ t1.entry d = t.entry d) →
      t1.Attachable dp k name ip → Fades (t1.attach dp k name ip) t' → Change I t t'
  | unlink (t1 : Tree) (dp k : ℕ) (name : List UInt8) (ip : ℕ) : t1.Linked → Fades t t1 → I.removes dp name → t1.Removable dp k ip name →
      Fades (t1.unlink dp k ip) t' → Change I t t'

theorem Linked.change {I : Intent} (h : t.Linked) (hfits : t.Fits I) (he : t.Effect I t') : t.Change I t' := by
  -- the directory in which the entry is made had links when the call started
  have hlive {t1 : Tree} {dp k : ℕ} {name : List UInt8} (hs : Fades t t1) (hadds : I.adds dp name) (hv : t1.Vacant dp k name) : t1.Live dp := by
    obtain ⟨hdir, hentry, hnlink⟩ := hs.entry_eq hv.dir
    refine ⟨hv.dir, ?_⟩
    rw [hnlink]
    refine hfits.adds dp name hadds hdir fun l => ?_
    rw [← hentry]
    exact hv.no_name l
  cases he with
  | quiet hs => exact .fades hs
  | make t1 dp k name ip type hs hadds hv hfree hpos hlt htype hs' =>
    have hlive1 := hlive hs hadds hv
    have hdp : dp ≠ 0 := Nat.ne_of_gt ((h.fades hs).range dp hlive1.used).1
    rw [make_eq_attach] at hs'
    refine .attach _ dp k name ip ((h.fades hs).birth hfree hpos hlt hdp) (hs.sameLive.trans (sameLive_birth hfree)) (fun d hd hdir => ?_)
      (attachable_birth hlive1 hv hfree htype) hs'
    rw [type_birth, update_of_ne hd] at hdir
    rw [entry_birth_of_ne t1 hd]
    obtain ⟨hold, hentry, _⟩ := hs.entry_eq hdir
    exact ⟨hold, hentry⟩
  | link t1 dp k name ip hs hadds hlinks hv hused hfile hs' =>
    have hsame := hs.same_of_type hused
    have hmax : t1.nlink ip < 32767 := by
      rw [hsame.2.1]
      refine hfits.links ip hlinks ?_
      rw [← hsame.1]
      exact hfile
    rw [link_eq_attach t1 hfile] at hs'
    refine .attach t1 dp k name ip (h.fades hs) hs.sameLive (fun d _ hdir => ?_)
      ⟨hlive hs hadds hv, hv, hused, hmax, fun hdir => absurd hdir hfile⟩ hs'
    obtain ⟨hold, hentry, _⟩ := hs.entry_eq hdir
    exact ⟨hold, hentry⟩
  | unlink t1 dp k name ip hs hremoves hr hs' => exact .unlink t1 dp k name ip (h.fades hs) hs hremoves hr hs'

theorem Linked.of_change {I : Intent} (h : t.Linked) (hc : t.Change I t') : t'.Linked := by
  cases hc with
  | fades hs => exact h.fades hs
  | attach t1 dp k name ip h₁ _ _ ha hs => exact (h₁.attach ha).fades hs
  | unlink t1 dp k name ip h₁ _ _ hr hs => exact (h₁.unlink hr).fades hs

theorem Linked.effect {I : Intent} (h : t.Linked) (hfits : t.Fits I) (he : t.Effect I t') : t'.Linked := h.of_change (h.change hfits he)

end Tree

end AdvancedXv6.FileSystem
