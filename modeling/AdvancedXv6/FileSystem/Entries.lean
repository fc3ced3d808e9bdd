import AdvancedXv6.FileSystem.Content
import AdvancedXv6.FileSystem.Directory
import Mathlib.Data.List.TakeWhile

/-!
# Directory entries

Two names are the same for `namecmp` when they agree up to their end or their first `DIRSIZ` bytes. The entries of a directory are read off its content. `dirlookup` finds the first entry with the name, `dirlink` puts a new one into the first free place, and `isdirempty` looks at the entries behind the first two.
-/

namespace AdvancedXv6.FileSystem

open Function Prog

/-! ### Names -/

/-- The bytes of a name that count: the first `n`, up to a 0. -/
def nameKey (n : ℕ) (name : List UInt8) : List UInt8 := (name.take n).takeWhile (· ≠ 0)

def dirKey (name : List UInt8) : List UInt8 := nameKey dirsiz name

theorem dirKey_eq_take {name : List UInt8} (h : 0 ∉ name) : dirKey name = name.take dirsiz := by
  refine List.takeWhile_eq_self_iff.mpr fun b hb => decide_eq_true fun h0 => h ?_
  rw [← h0]
  exact List.mem_of_mem_take hb

theorem nameKey_succ (n : ℕ) (name : List UInt8) :
    nameKey (n + 1) name = if name.headD 0 = 0 then [] else name.headD 0 :: nameKey n name.tail := by
  unfold nameKey
  cases name with
  | nil => simp
  | cons b name =>
    by_cases hb : b = 0
    · simp [hb]
    · simp [hb]

theorem strncmp_eq_zero_iff (n : ℕ) (p q : List UInt8) : strncmp n p q = 0 ↔ nameKey n p = nameKey n q := by
  induction n generalizing p q with
  | zero => simp [strncmp, nameKey]
  | succ n ih =>
    rw [nameKey_succ, nameKey_succ]
    unfold strncmp
    by_cases hp : p.headD 0 = 0
    · rw [if_neg fun hc => hc.1 hp, if_pos hp, hp]
      constructor
      · intro hdiff
        have hq : (q.headD 0).toNat = 0 := by
          change (0 : ℤ) - _ = 0 at hdiff
          omega
        rw [if_pos (UInt8.toNat_inj.mp hq)]
      · intro hkey
        by_cases hq : q.headD 0 = 0
        · rw [hq]
          rfl
        · rw [if_neg hq] at hkey
          cases hkey
    · rw [if_neg hp]
      by_cases hpq : p.headD 0 = q.headD 0
      · rw [if_pos ⟨hp, hpq⟩, if_neg (by rw [← hpq]; exact hp), ih, List.cons.injEq]
        exact ⟨fun htail => ⟨hpq, htail⟩, fun hboth => hboth.2⟩
      · rw [if_neg fun hc => hpq hc.2]
        constructor
        · intro hdiff
          exact absurd (UInt8.toNat_inj.mp (by omega)) hpq
        · intro hkey
          split at hkey
          · cases hkey
          · exact absurd (List.cons.inj hkey).1 hpq

theorem namecmp_eq_zero_iff (s t : List UInt8) : namecmp s t = 0 ↔ dirKey s = dirKey t := strncmp_eq_zero_iff dirsiz s t

@[simp] theorem length_strncpy (n : ℕ) (t : List UInt8) : (strncpy n t).length = n := by
  induction n generalizing t with
  | zero => rfl
  | succ n ih =>
    unfold strncpy
    split
    · rw [List.length_replicate]
    · rw [List.length_cons, ih]

theorem nameKey_strncpy (n : ℕ) (t : List UInt8) : nameKey n (strncpy n t) = nameKey n t := by
  induction n generalizing t with
  | zero => rfl
  | succ n ih =>
    rw [nameKey_succ, nameKey_succ]
    unfold strncpy
    by_cases ht : t.headD 0 = 0
    · rw [if_pos ht, if_pos ht]
      rfl
    · rw [if_neg ht, if_neg ht, List.headD_cons, List.tail_cons, if_neg ht, ih]

theorem dirKey_strncpy (name : List UInt8) : dirKey (strncpy dirsiz name) = dirKey name := nameKey_strncpy dirsiz name

/-! ### Entries -/

theorem Dirent.ofBytes_toBytes {de : Dirent} (h : de.inum < 2 ^ 16) : Dirent.ofBytes de.toBytes = de := by
  obtain ⟨inum, name⟩ := de
  have hlow : (UInt8.ofNat inum).toNat = inum % 256 := UInt8.toNat_ofNat'
  have hhigh : (UInt8.ofNat (inum / 256)).toNat = inum / 256 % 256 := UInt8.toNat_ofNat'
  unfold Dirent.ofBytes Dirent.toBytes
  rw [Dirent.mk.injEq]
  refine ⟨?_, rfl⟩
  change (UInt8.ofNat inum).toNat + 256 * (UInt8.ofNat (inum / 256)).toNat = inum
  rw [hlow, hhigh]
  dsimp only at h
  omega

/-- The directory entry at slot `k`; free behind the end. -/
def Fs.entry (s : Fs) (d k : ℕ) : Dirent :=
  if 16 * k + 16 ≤ (s.cur d).size then Dirent.ofBytes ((List.range' (16 * k) 16).map (s.byte d)) else { inum := 0, name := [] }

def Dirent.Names (de : Dirent) (name : List UInt8) : Prop := de.inum ≠ 0 ∧ dirKey de.name = dirKey name

variable {s s' : Fs} {dp k : ℕ} {name : List UInt8} {E : Panic → Prop}

theorem Fs.size_of_entry (h : (s.entry dp k).inum ≠ 0) : 16 * k + 16 ≤ (s.cur dp).size := by
  by_contra hout
  exact h (by rw [Fs.entry, if_neg hout])

structure Fs.Dir (s : Fs) (dp : ℕ) : Prop where
  owned : s.Owned
  locked : s.Locked dp
  solid : s.Solid dp
  type_eq : (s.cur dp).type = .dir

theorem Fs.Dir.size_lt (h : s.Dir dp) : (s.cur dp).size < 2 ^ 20 :=
  Nat.lt_of_le_of_lt h.solid.size_le (by decide)

theorem post_readDirent (h : s.Dir dp) {e : Panic} (hk : 16 * k < (s.cur dp).size) (he : (s.cur dp).size < 16 * k + 16 → E e) :
    Post (readDirent dp e (16 * k)) s (fun de s' => s' = s ∧ de = s.entry dp k) E := by
  have hsize := h.size_lt
  have hoff : (UInt32.ofNat (16 * k)).toNat = 16 * k := UInt32.toNat_ofNat_of_lt' (Nat.lt_trans (Nat.lt_trans hk hsize) (by decide))
  have h16 : (16 : UInt32).toNat = 16 := rfl
  refine Post.step (post_readi h.owned.toNames h.locked h.solid) fun r s1 hr => ?_
  obtain ⟨rfl, hbytes⟩ := hr
  have hbytes := hbytes fun _ _ => rfl
  rw [hoff, h16, if_neg (by omega), Fs.content_slice] at hbytes
  subst hbytes
  dsimp only
  rw [List.length_map, List.length_range']
  by_cases hfull : 16 * k + 16 ≤ (s1.cur dp).size
  · rw [show min 16 ((s1.cur dp).size - 16 * k) = direntSize by unfold direntSize; omega, if_pos rfl]
    refine Post.pure ⟨rfl, ?_⟩
    rw [Fs.entry, if_pos hfull]
    rfl
  · rw [if_neg (by unfold direntSize; omega)]
    exact Post.panic (he (by omega))

theorem lt_size_of_lt_rounds {d : Dinode} {i off : ℕ} (hi : i < rounds d off) : off + 16 * i < d.size := by
  unfold rounds direntSize at hi
  omega

/-! ### References -/

/-- The two states differ in references and in what the inode table has of inodes that are not in use. -/
structure Fs.Same (s s' : Fs) : Prop where
  bitmap_eq : s'.bitmap = s.bitmap
  blocks_eq : s'.blocks = s.blocks
  cur_eq : s'.cur = s.cur

theorem Fs.Same.slots_eq (h : s.Same s') : s'.slots = s.slots :=
  Fs.slots_congr (fun i => by rw [h.cur_eq]) (fun i => by rw [h.cur_eq]) fun i _ => by rw [h.blocks_eq]

theorem Fs.Same.owned (h : s.Same s') (ho : s.Owned) : s'.Owned := by
  unfold Fs.Owned
  rw [h.slots_eq, h.bitmap_eq]
  exact ho

theorem Fs.Same.solid (h : s.Same s') {i : ℕ} (hs : s.Solid i) : s'.Solid i := by
  unfold Fs.Solid
  rw [h.slots_eq, h.cur_eq]
  exact hs

theorem Fs.Same.entry_eq (h : s.Same s') : s'.entry = s.entry := by
  funext d k
  unfold Fs.entry
  rw [h.cur_eq, Fs.byte_congr h.slots_eq h.blocks_eq]

def Fs.got (s : Fs) (inum : ℕ) : Fs :=
  s.setEntry inum (if 0 < (s.itable inum).ref then { s.itable inum with ref := (s.itable inum).ref + 1 }
    else { s.itable inum with ref := 1, valid := false })

theorem post_iget {inum : ℕ} {Q : ℕ → Fs → Prop} (h : Q inum (s.got inum)) : Post (iget inum) s Q E :=
  Post.bind (Post.modify (Post.pure h))

theorem Fs.same_got (s : Fs) (i : ℕ) : s.Same (s.got i) := by
  refine ⟨rfl, rfl, funext fun j => ?_⟩
  by_cases hj : j = i
  · subst hj
    unfold Fs.cur Fs.got
    rw [Fs.itable_setEntry_self]
    split
    · rename_i hpos
      simp only [hpos, Nat.succ_pos, true_and]
      rfl
    · rename_i hzero
      rw [if_neg (fun hc => Bool.false_ne_true hc.2), if_neg fun hc => hzero hc.1]
      rfl
  · exact Fs.cur_setEntry_of_ne hj

theorem Fs.Locked.got (h : s.Locked dp) (i : ℕ) : (s.got i).Locked dp := by
  by_cases hi : dp = i
  · subst hi
    have hentry : (s.got dp).itable dp = { s.itable dp with ref := (s.itable dp).ref + 1 } := by
      unfold Fs.got
      rw [Fs.itable_setEntry_self, if_pos h.ref_pos]
    constructor <;> rw [hentry]
    exacts [Nat.succ_pos _, h.valid, h.type_ne]
  · have hentry : (s.got i).itable dp = s.itable dp := Fs.itable_setEntry_of_ne hi
    constructor <;> rw [hentry]
    exacts [h.ref_pos, h.valid, h.type_ne]

theorem Fs.Dir.got (h : s.Dir dp) (i : ℕ) : (s.got i).Dir dp := by
  have hsame := s.same_got i
  exact ⟨hsame.owned h.owned, h.locked.got i, hsame.solid h.solid, by rw [hsame.cur_eq]; exact h.type_eq⟩

/-! ### `dirlookup` -/

theorem post_dirlookup (h : s.Dir dp) (hpart : ¬ 16 ∣ (s.cur dp).size → E .dirlookupRead) {Q : Option (ℕ × ℕ) → Fs → Prop}
    (hnone : (∀ k, ¬ (s.entry dp k).Names name) → Q none s)
    (hsome : ∀ k, (s.entry dp k).Names name → (∀ l < k, ¬ (s.entry dp l).Names name) →
      Q (some ((s.entry dp k).inum, 16 * k)) (s.got (s.entry dp k).inum)) : Post (dirlookup dp name) s Q E := by
  refine Post.bind (Post.bind (Post.get (Post.pure ?_)))
  rw [← h.locked.cur_eq, if_pos h.type_eq]
  refine Post.loop (I := fun i s' => s' = s ∧ ∀ l < i, ¬ (s.entry dp l).Names name) ⟨rfl, fun l hl => absurd hl (Nat.not_lt_zero l)⟩
    (fun i s' hi hI => ?_) fun s' hI => ?_
  · obtain ⟨rfl, hbefore⟩ := hI
    have hlt := lt_size_of_lt_rounds hi
    rw [Nat.zero_add] at hlt
    rw [Nat.zero_add, direntSize, Nat.mul_comm]
    refine Post.step (post_readDirent h hlt fun hshort => hpart fun hdvd => by omega) fun de s1 hde => ?_
    obtain ⟨rfl, rfl⟩ := hde
    have hnext (hno : ¬ (s1.entry dp i).Names name) : ∀ l < i + 1, ¬ (s1.entry dp l).Names name := by
      intro l hl
      rcases Nat.lt_succ_iff_lt_or_eq.mp hl with hl | rfl
      · exact hbefore l hl
      · exact hno
    split
    · rename_i hfree
      exact Post.pure ⟨rfl, hnext fun hn => hn.1 hfree⟩
    rename_i hused
    split
    · rename_i hcmp
      rw [namecmp_eq_zero_iff] at hcmp
      exact Post.bind (post_iget (Post.pure (hsome i ⟨hused, hcmp.symm⟩ hbefore)))
    · rename_i hcmp
      rw [namecmp_eq_zero_iff] at hcmp
      exact Post.pure ⟨rfl, hnext fun hn => hcmp hn.2.symm⟩
  · obtain ⟨rfl, hall⟩ := hI
    refine hnone fun k hk => ?_
    have hsize := Fs.size_of_entry hk.1
    refine hall k ?_ hk
    unfold rounds direntSize
    omega

/-! ### Writing entries -/

def Dirent.source (de : Dirent) : Source := fun j => some (de.toBytes.getD j 0)

theorem Fs.entry_congr {i : ℕ} (hsize : (s'.cur i).size = (s.cur i).size) (hbyte : ∀ x < (s.cur i).size, s'.byte i x = s.byte i x) :
    s'.entry i = s.entry i := by
  funext k
  unfold Fs.entry
  rw [hsize]
  split
  · refine congrArg _ (List.map_congr_left fun x hx => hbyte x ?_)
    rw [List.mem_range'_1] at hx
    omega
  · rfl

variable {de : Dirent} {off n m : ℕ} {src : Source}

theorem Written.entry_of_ne (h : Written s s' dp src off n m) {i : ℕ} (hi : i ≠ dp) : s'.entry i = s.entry i :=
  Fs.entry_congr (by rw [h.cur_of_ne hi]) fun x _ => h.byte_eq i x fun heq => absurd heq hi

theorem Written.entry_of_zero (h : Written s s' dp de.source off n 0) (hl : s.Locked dp) (hs : s.Solid dp) (hoff : off ≤ (s.cur dp).size) :
    s'.entry dp = s.entry dp := by
  refine Fs.entry_congr (by rw [h.size_eq hl]; omega) fun x hx => h.byte_eq dp x fun _ => ⟨hs x hx, ?_⟩
  rintro ⟨hge, hlt | ⟨j, _, hj⟩⟩
  · omega
  · cases hj

theorem Written.entry_eq_update (h : Written s s' dp de.source (16 * k) 16 16) (hl : s.Locked dp) (hs : s.Solid dp)
    (hk : 16 * k ≤ (s.cur dp).size) (hinum : de.inum < 2 ^ 16) (hname : de.name.length = dirsiz) :
    s'.entry dp = update (s.entry dp) k de := by
  have hlen : de.toBytes.length = 16 := by
    unfold Dirent.toBytes
    rw [List.length_cons, List.length_cons, hname]
    rfl
  have hsize := h.size_eq hl
  funext l
  by_cases hlk : l = k
  · subst hlk
    rw [update_self, Fs.entry, if_pos (by omega)]
    have hbytes : (List.range' (16 * l) 16).map (s'.byte dp) = de.toBytes := by
      refine List.ext_getElem (by simp [hlen]) fun j hj hj' => ?_
      have hnew := h.byte_new j (by omega)
      rw [Dirent.source, List.getD_eq_getElem _ _ hj'] at hnew
      rw [List.getElem_map, List.getElem_range', Nat.one_mul]
      exact (Option.some.inj hnew).symm
    rw [hbytes, Dirent.ofBytes_toBytes hinum]
  · rw [update_of_ne hlk]
    unfold Fs.entry
    by_cases hin : 16 * l + 16 ≤ (s.cur dp).size
    · rw [if_pos hin, if_pos (by omega)]
      refine congrArg _ (List.map_congr_left fun x hx => h.byte_eq dp x fun _ => ?_)
      rw [List.mem_range'_1] at hx
      refine ⟨hs x (by omega), ?_⟩
      rintro ⟨hge, hlt | ⟨j, _, hj⟩⟩
      · omega
      · cases hj
    · rw [if_neg hin, if_neg (by omega)]

theorem Written.dir (h : Written s s' dp src off n m) (hd : s.Dir dp) (hoff : off ≤ (s.cur dp).size) : s'.Dir dp := by
  obtain ⟨addrs, hentry⟩ := h.entry_eq
  refine ⟨h.owned hd.owned, h.locked hd.locked, h.solid hd.locked hd.solid hoff, ?_⟩
  have htype := hd.type_eq
  rw [hd.locked.cur_eq] at htype
  rw [(h.locked hd.locked).cur_eq, hentry]
  exact htype

/-- An entry is written in full or not at all; in full, if it is not behind the end. -/
theorem post_writeDirent (h : s.Dir dp) {Q : ℤ → Fs → Prop}
    (hdone : ∀ s', 16 * k ≤ (s.cur dp).size → Written s s' dp de.source (16 * k) 16 16 → Q 16 s')
    (herr : ¬ (16 * k + 16 ≤ (s.cur dp).size) → Q (-1) s)
    (hnone : ∀ s', ¬ (16 * k + 16 ≤ (s.cur dp).size) → 16 * k ≤ (s.cur dp).size → Written s s' dp de.source (16 * k) 16 0 → Q 0 s')
    (hk : 16 * k < 2 ^ 32) : Post (writeDirent dp de (16 * k)) s Q E := by
  have hsize := h.solid.size_le
  have hlarge := h.size_lt
  have hoff : (UInt32.ofNat (16 * k)).toNat = 16 * k := UInt32.toNat_ofNat_of_lt' hk
  have h16 : (16 : UInt32).toNat = 16 := rfl
  refine (post_writei h.owned.toNames h.locked).mono (fun r s' hr => ?_) fun _ he => he
  rw [hoff, h16] at hr
  split at hr
  · obtain ⟨rfl, rfl⟩ := hr
    exact herr (by omega)
  · rename_i hin
    rw [not_or] at hin
    obtain ⟨m, rfl, hm⟩ := hr
    rcases Nat.lt_or_ge m 16 with hlt | hge
    · have hzero : m = 0 := by
        -- An entry does not cross the end of a block.
        rcases hm.aligned hlt with hzero | hmod
        · exact hzero
        · unfold bsize at hmod
          omega
      subst hzero
      refine hnone s' (fun hfit => ?_) (by omega) hm
      rcases hm.full hlt with hstop | ⟨j, _, hj⟩
      · have hslot := h.solid (16 * k) (by omega)
        have hkept := hm.kept _ hslot
        rw [Nat.add_zero] at hstop
        exact hslot (hkept.symm.trans hstop.1)
      · cases hj
    · have hm16 := hm.le
      have heq : m = 16 := by omega
      subst heq
      exact hdone s' (by omega) hm

/-! ### `dirlink` and `isdirempty` -/

def Fs.put (s : Fs) (ip : ℕ) : Fs := s.setEntry ip { s.itable ip with ref := (s.itable ip).ref - 1 }

theorem post_iput_of_keep {ip : ℕ} (h : ¬ ((s.itable ip).ref = 1 ∧ (s.itable ip).valid = true ∧ (s.itable ip).copy.nlink = 0))
    {Q : Unit → Fs → Prop} (hQ : Q () (s.put ip)) : Post (iput ip) s Q E := by
  refine Post.bind (Post.bind (Post.get ?_))
  rw [if_neg h]
  exact Post.pure (Post.modify hQ)

/-- A reference that has just been taken is not the last one, or the inode has not been read. -/
theorem Fs.got_keeps (s : Fs) (i : ℕ) : ¬ (((s.got i).itable i).ref = 1 ∧ ((s.got i).itable i).valid = true ∧ ((s.got i).itable i).copy.nlink = 0) := by
  unfold Fs.got
  rw [Fs.itable_setEntry_self]
  rintro ⟨href, hvalid, _⟩
  split at href
  · dsimp only at href
    omega
  · rw [if_neg ‹_›] at hvalid
    cases hvalid

theorem post_dirlink (h : s.Dir dp) {inum : ℕ} (hpart : ¬ 16 ∣ (s.cur dp).size → E .dirlookupRead ∧ E .dirlinkRead) {Q : ℤ → Fs → Prop}
    (hfound : ∀ k, (s.entry dp k).Names name → Q (-1) ((s.got (s.entry dp k).inum).put (s.entry dp k).inum))
    (hlink : ∀ k s', (∀ l, ¬ (s.entry dp l).Names name) → (s.entry dp k).inum = 0 → (∀ l < k, (s.entry dp l).inum ≠ 0) →
      16 * k ≤ (s.cur dp).size → Written s s' dp (Dirent.source { inum, name := strncpy dirsiz name }) (16 * k) 16 16 → Q 0 s')
    (hfail : ∀ k s', 16 * k ≤ (s.cur dp).size → Written s s' dp (Dirent.source { inum, name := strncpy dirsiz name }) (16 * k) 16 0 → Q (-1) s')
    (herr : Q (-1) s) : Post (dirlink dp name inum) s Q E := by
  have hlarge := h.size_lt
  refine Post.bind (post_dirlookup h (fun hp => (hpart hp).1) (fun hno => ?_) fun k hk _ => ?_)
  · refine Post.bind (Post.bind (Post.get (Post.pure ?_)))
    rw [← h.locked.cur_eq]
    refine Post.step (R := fun free s' => s' = s ∧ ∃ k, free.getD (rounds (s.cur dp) 0 * direntSize) = 16 * k ∧
      (s.entry dp k).inum = 0 ∧ (∀ l < k, (s.entry dp l).inum ≠ 0) ∧ k ≤ rounds (s.cur dp) 0) ?_ fun free s1 hfree => ?_
    · refine Post.loop (I := fun i s' => s' = s ∧ ∀ l < i, (s.entry dp l).inum ≠ 0) ⟨rfl, fun l hl => absurd hl (Nat.not_lt_zero l)⟩
        (fun i s' hi hI => ?_) fun s' hI => ?_
      · obtain ⟨rfl, hbefore⟩ := hI
        have hlt := lt_size_of_lt_rounds hi
        rw [Nat.zero_add] at hlt
        rw [Nat.zero_add, direntSize, Nat.mul_comm]
        refine Post.step (post_readDirent h hlt fun hshort => (hpart fun hdvd => by omega).2) fun de s1 hde => ?_
        obtain ⟨rfl, rfl⟩ := hde
        split
        · exact Post.pure ⟨rfl, i, rfl, ‹_›, hbefore, Nat.le_of_lt hi⟩
        · refine Post.pure ⟨rfl, fun l hl => ?_⟩
          rcases Nat.lt_succ_iff_lt_or_eq.mp hl with hl | rfl
          · exact hbefore l hl
          · assumption
      · obtain ⟨rfl, hall⟩ := hI
        refine ⟨rfl, rounds (s'.cur dp) 0, Nat.mul_comm .., ?_, hall, Nat.le_refl _⟩
        rw [Fs.entry, if_neg]
        unfold rounds direntSize
        omega
    · obtain ⟨rfl, k, hoff, hzero, hbefore, hle⟩ := hfree
      rw [hoff]
      refine Post.bind (post_writeDirent h (fun s' hk hw => ?_) (fun _ => ?_) (fun s' _ hk hw => ?_) ?_)
      · rw [if_pos rfl]
        exact Post.pure (hlink k s' hno hzero hbefore hk hw)
      · rw [if_neg (by decide)]
        exact Post.pure herr
      · rw [if_neg (by decide)]
        exact Post.pure (hfail k s' hk hw)
      · unfold rounds direntSize at hle
        omega
  · exact Post.bind (post_iput_of_keep (s.got_keeps _) (Post.pure (hfound k hk)))

theorem post_isdirempty (h : s.Dir dp) (hpart : ¬ 16 ∣ (s.cur dp).size → E .isdiremptyReadi) :
    Post (isdirempty dp) s (fun r s' => s' = s ∧ (r = true ↔ ∀ k, 2 ≤ k → (s.entry dp k).inum = 0)) E := by
  refine Post.bind (Post.bind (Post.get (Post.pure ?_)))
  rw [← h.locked.cur_eq]
  refine Post.step (R := fun r s' => s' = s ∧ (r.isNone = true ↔ ∀ k, 2 ≤ k → (s.entry dp k).inum = 0)) ?_ fun r s1 hr => Post.pure hr
  refine Post.loop (I := fun i s' => s' = s ∧ ∀ l < i, (s.entry dp (2 + l)).inum = 0) ⟨rfl, fun l hl => absurd hl (Nat.not_lt_zero l)⟩
    (fun i s' hi hI => ?_) fun s' hI => ?_
  · obtain ⟨rfl, hbefore⟩ := hI
    have hlt := lt_size_of_lt_rounds hi
    rw [show 2 * direntSize + i * direntSize = 16 * (2 + i) by unfold direntSize; omega]
    unfold direntSize at hlt
    refine Post.step (post_readDirent h (by omega) fun hshort => hpart fun hdvd => by omega) fun de s1 hde => ?_
    obtain ⟨rfl, rfl⟩ := hde
    split
    · refine Post.pure ⟨rfl, fun l hl => ?_⟩
      rcases Nat.lt_succ_iff_lt_or_eq.mp hl with hl | rfl
      · exact hbefore l hl
      · assumption
    · exact Post.pure ⟨rfl, nofun, fun hall => absurd (hall (2 + i) (by omega)) ‹_›⟩
  · obtain ⟨rfl, hall⟩ := hI
    refine ⟨rfl, fun _ k hk => ?_, fun _ => rfl⟩
    by_contra hne
    have hsize := Fs.size_of_entry hne
    have hlast := hall (k - 2) (by unfold rounds direntSize; omega)
    rw [Nat.add_sub_cancel' hk] at hlast
    exact hne hlast

end AdvancedXv6.FileSystem
