import AdvancedXv6.FileSystem.Image
import Mathlib.Tactic.IntervalCases

/-!
# A directory is a map

The keys are the first `DIRSIZ` bytes of names and the values inode numbers. `dirlink` adds a key that is not there, an entry that is overwritten with zeros takes a key away, and `dirlookup` returns the value of a key. The entries stay in the places where they were put, which is why `isdirempty` can skip the first two.
-/

namespace AdvancedXv6.FileSystem

open Function Prog

/-! ### Entries with distinct names -/

variable {de : Dirent} {op : DirOp} {ops : List DirOp}

section Entries

variable {e : ℕ → Dirent} {k : ℕ} {name key : List UInt8}

def DistinctNames (e : ℕ → Dirent) : Prop :=
  ∀ k l, (e k).inum ≠ 0 → (e l).inum ≠ 0 → dirKey (e k).name = dirKey (e l).name → k = l

def Binds (e : ℕ → Dirent) (key : List UInt8) (inum : ℕ) : Prop := inum ≠ 0 ∧ ∃ k, (e k).inum = inum ∧ dirKey (e k).name = key

theorem DistinctNames.set (h : DistinctNames e) (hno : ∀ l, ¬ (e l).Names de.name) :
    DistinctNames (update e k de) := by
  intro i j hi hj hkey
  by_cases hik : i = k <;> by_cases hjk : j = k
  · rw [hik, hjk]
  · rw [hik, update_self, update_of_ne hjk] at hkey
    rw [update_of_ne hjk] at hj
    exact absurd ⟨hj, hkey.symm⟩ (hno j)
  · rw [hjk, update_self, update_of_ne hik] at hkey
    rw [update_of_ne hik] at hi
    exact absurd ⟨hi, hkey⟩ (hno i)
  · rw [update_of_ne hik] at hi hkey
    rw [update_of_ne hjk] at hj hkey
    exact h i j hi hj hkey

theorem binds_update (hfree : (e k).inum = 0) (hde : de.inum ≠ 0) (hno : ∀ l, ¬ (e l).Names de.name) (key : List UInt8) (inum : ℕ) :
    Binds (update e k de) key inum ↔ if key = dirKey de.name then inum = de.inum else Binds e key inum := by
  constructor
  · rintro ⟨hinum, l, rfl, hl⟩
    by_cases hlk : l = k
    · rw [hlk, update_self] at hl ⊢
      rw [if_pos hl.symm]
    · rw [update_of_ne hlk] at hinum hl ⊢
      rw [if_neg fun heq => hno l ⟨hinum, hl.trans heq⟩]
      exact ⟨hinum, l, rfl, hl⟩
  · intro h
    split at h
    · rename_i hkey
      exact ⟨by rw [h]; exact hde, k, by rw [update_self, h], by rw [update_self, hkey]⟩
    · obtain ⟨hinum, l, hl, hlkey⟩ := h
      have hlk : l ≠ k := by
        rintro rfl
        exact hinum (hl.symm.trans hfree)
      exact ⟨hinum, l, by rw [update_of_ne hlk, hl], by rw [update_of_ne hlk, hlkey]⟩

theorem DistinctNames.clear (h : DistinctNames e) (hde : de.inum = 0) : DistinctNames (update e k de) := by
  have hne {i : ℕ} (hi : (update e k de i).inum ≠ 0) : i ≠ k := by
    rintro rfl
    rw [update_self] at hi
    exact hi hde
  intro i j hi hj hkey
  rw [update_of_ne (hne hi), update_of_ne (hne hj)] at hkey
  have hik := hne hi
  have hjk := hne hj
  rw [update_of_ne hik] at hi
  rw [update_of_ne hjk] at hj
  exact h i j hi hj hkey

theorem DistinctNames.binds_clear (h : DistinctNames e) (hde : de.inum = 0) (hk : (e k).inum ≠ 0) (key : List UInt8) (inum : ℕ) :
    Binds (update e k de) key inum ↔ key ≠ dirKey (e k).name ∧ Binds e key inum := by
  constructor
  · rintro ⟨hinum, l, rfl, hl⟩
    have hlk : l ≠ k := by
      rintro rfl
      rw [update_self] at hinum
      exact hinum hde
    rw [update_of_ne hlk] at hinum hl ⊢
    exact ⟨fun hkey => hlk (h l k hinum hk (hl.trans hkey)), hinum, l, rfl, hl⟩
  · rintro ⟨hkey, hinum, l, hl, hlkey⟩
    have hlk : l ≠ k := by
      rintro rfl
      exact hkey hlkey.symm
    exact ⟨hinum, l, by rw [update_of_ne hlk, hl], by rw [update_of_ne hlk, hlkey]⟩

end Entries

/-! ### The map of a directory -/

/-- From the bytes of names that count to inode numbers. -/
abbrev DirMap := List UInt8 → Option ℕ

def Fs.dirMap (s : Fs) (dp : ℕ) : DirMap := fun key =>
  ((List.range ((s.cur dp).size / 16)).find? fun k => (s.entry dp k).inum ≠ 0 ∧ dirKey (s.entry dp k).name = key).map
    fun k => (s.entry dp k).inum

variable {s s' : Fs} {dp : ℕ} {name : List UInt8} {inum : ℕ}

theorem Fs.dirMap_eq_some_iff (h : DistinctNames (s.entry dp)) {key : List UInt8} {inum : ℕ} :
    s.dirMap dp key = some inum ↔ Binds (s.entry dp) key inum := by
  unfold Fs.dirMap
  rw [Option.map_eq_some_iff]
  constructor
  · rintro ⟨k, hk, rfl⟩
    have hfound := List.find?_some hk
    rw [decide_eq_true_iff] at hfound
    exact ⟨hfound.1, k, rfl, hfound.2⟩
  · rintro ⟨hinum, k, rfl, hkey⟩
    have hsize := Fs.size_of_entry hinum
    refine ⟨k, ?_, rfl⟩
    cases hfind : (List.range ((s.cur dp).size / 16)).find? fun k => (s.entry dp k).inum ≠ 0 ∧ dirKey (s.entry dp k).name = key with
    | none =>
      have hno := List.find?_eq_none.mp hfind k (List.mem_range.mpr (by omega))
      exact absurd (decide_eq_true ⟨hinum, hkey⟩) hno
    | some l =>
      have hfound := List.find?_some hfind
      rw [decide_eq_true_iff] at hfound
      rw [h l k hfound.1 hinum (hfound.2.trans hkey.symm)]

theorem Fs.dirMap_eq_none_iff (h : DistinctNames (s.entry dp)) : s.dirMap dp (dirKey name) = none ↔ ∀ k, ¬ (s.entry dp k).Names name := by
  rw [Option.eq_none_iff_forall_ne_some]
  constructor
  · intro hno k hk
    exact hno _ ((Fs.dirMap_eq_some_iff h).mpr ⟨hk.1, k, rfl, hk.2⟩)
  · intro hno i hi
    obtain ⟨hi0, k, rfl, hk⟩ := (Fs.dirMap_eq_some_iff h).mp hi
    exact hno k ⟨hi0, hk⟩

structure Fs.MapDir (s : Fs) (dp : ℕ) : Prop extends s.Dir dp where
  dvd_size : 16 ∣ (s.cur dp).size
  distinct : DistinctNames (s.entry dp)

theorem Fs.MapDir.post_dirlookup (h : s.MapDir dp) (name : List UInt8) :
    Post (dirlookup dp name) s (fun r _ => r.map Prod.fst = s.dirMap dp (dirKey name)) fun _ => False := by
  refine FileSystem.post_dirlookup h.toDir (fun hpart => hpart h.dvd_size) (fun hno => ?_) fun k hk _ => ?_
  · exact ((Fs.dirMap_eq_none_iff h.distinct).mpr hno).symm
  · exact ((Fs.dirMap_eq_some_iff h.distinct).mpr ⟨hk.1, k, rfl, hk.2⟩).symm

/-! ### Changing a directory -/

/-- An entry is added, or the entry with a name is overwritten with zeros. -/
inductive DirOp where
  | link (name : List UInt8) (inum : ℕ)
  | remove (name : List UInt8)

/-- What the operation does to the directory, and whether it succeeds. The second one is the part of `sys_unlink` that clears the entry. -/
def DirOp.run (dp : ℕ) : DirOp → FsM Bool
  | .link name inum => do
    let r ← dirlink dp name inum
    pure (r == 0)
  | .remove name => do
    match ← dirlookup dp name with
    | some (_, off) => do
      let written ← writeDirent dp Dirent.zero off
      pure (written == 16)
    | none => pure false

def DirOp.apply (m : DirMap) : DirOp → DirMap
  | .link name inum => update m (name.take dirsiz) (some inum)
  | .remove name => update m (name.take dirsiz) none

def DirOp.Valid : DirOp → Prop
  | .link name inum => 0 ∉ name ∧ 0 < inum ∧ inum < 2 ^ 16
  | .remove name => 0 ∉ name

def DirOp.runAll (dp : ℕ) : List DirOp → FsM Bool
  | [] => pure true
  | op :: ops => do
    let ok ← op.run dp
    if ok then runAll dp ops else pure false

structure Linked (s s' : Fs) (dp : ℕ) (name : List UInt8) (inum k : ℕ) : Prop where
  mapDir : s'.MapDir dp
  fresh : ∀ l, ¬ (s.entry dp l).Names name
  first : (s.entry dp k).inum = 0 ∧ ∀ l < k, (s.entry dp l).inum ≠ 0
  entry_eq : s'.entry dp = update (s.entry dp) k { inum, name := strncpy dirsiz name }
  size_eq : (s'.cur dp).size = max (s.cur dp).size (16 * k + 16)

section

variable (h : s.MapDir dp) (hinum : inum < 2 ^ 16)
include h hinum

theorem Linked.of_written {k : ℕ} (hno : ∀ l, ¬ (s.entry dp l).Names name)
    (hfirst : (s.entry dp k).inum = 0 ∧ ∀ l < k, (s.entry dp l).inum ≠ 0) (hk : 16 * k ≤ (s.cur dp).size)
    (hw : Written s s' dp (Dirent.source { inum, name := strncpy dirsiz name }) (16 * k) 16 16) : Linked s s' dp name inum k := by
  have hentry := hw.entry_eq_update h.locked h.solid hk hinum (length_strncpy dirsiz name)
  have hsize := hw.size_eq h.locked
  refine ⟨⟨hw.dir h.toDir hk, ?_, ?_⟩, hno, hfirst, hentry, hsize⟩
  · have hdvd := h.dvd_size
    rw [hsize]
    omega
  · rw [hentry]
    refine h.distinct.set fun l hl => hno l ?_
    unfold Dirent.Names at hl ⊢
    rw [dirKey_strncpy] at hl
    exact hl

theorem Fs.MapDir.post_dirlink :
    Post (dirlink dp name inum) s (fun r s' => r = 0 → ∃ k, Linked s s' dp name inum k) fun _ => False := by
  refine FileSystem.post_dirlink h.toDir (fun hpart => absurd h.dvd_size hpart) (fun k _ h0 => absurd h0 (by decide))
    (fun k s' hno hfree hbefore hk hw _ => ⟨k, Linked.of_written h hinum hno ⟨hfree, hbefore⟩ hk hw⟩)
    (fun k s' _ _ h0 => absurd h0 (by decide)) (fun h0 => absurd h0 (by decide))

theorem Fs.MapDir.linked_of_run (hrun : (DirOp.link name inum).run dp s = .ok (true, s')) :
    ∃ k, Linked s s' dp name inum k := by
  have hpost : Post (DirOp.run dp (.link name inum)) s (fun r s' => r = true → ∃ k, Linked s s' dp name inum k) fun _ => False :=
    Post.step (h.post_dirlink hinum) fun r s1 hr => Post.pure fun htrue => hr (eq_of_beq htrue)
  exact hpost.of_ok hrun rfl

end

theorem Linked.dirMap_eq {k : ℕ} (h : Linked s s' dp name inum k) (hd : DistinctNames (s.entry dp)) (hinum : inum ≠ 0) :
    s'.dirMap dp = update (s.dirMap dp) (dirKey name) (some inum) := by
  funext key
  refine Option.ext fun i => ?_
  have hno (l : ℕ) : ¬ (s.entry dp l).Names (strncpy dirsiz name) := fun hl => h.fresh l ⟨hl.1, hl.2.trans (dirKey_strncpy name)⟩
  rw [Fs.dirMap_eq_some_iff h.mapDir.distinct, h.entry_eq, binds_update h.first.1 hinum hno, dirKey_strncpy]
  by_cases hkey : key = dirKey name
  · rw [if_pos hkey, hkey, update_self]
    exact ⟨fun heq => by rw [heq], fun heq => (Option.some.inj heq).symm⟩
  · rw [if_neg hkey, update_of_ne hkey, Fs.dirMap_eq_some_iff hd]

structure Cleared (s s' : Fs) (dp : ℕ) (name : List UInt8) (k : ℕ) : Prop where
  mapDir : s'.MapDir dp
  names : (s.entry dp k).Names name
  entry_eq : s'.entry dp = update (s.entry dp) k Dirent.zero

theorem Fs.MapDir.post_remove (h : s.MapDir dp) :
    Post (DirOp.run dp (.remove name)) s (fun r s' => r = true → ∃ k, Cleared s s' dp name k) fun _ => False := by
  refine Post.bind (FileSystem.post_dirlookup h.toDir (fun hpart => hpart h.dvd_size) (fun _ => Post.pure fun h0 => Bool.noConfusion h0)
    fun k hk _ => ?_)
  have hsame := s.same_got (s.entry dp k).inum
  have hsize := Fs.size_of_entry hk.1
  have hlarge := h.size_lt
  have hin : 16 * k + 16 ≤ ((s.got (s.entry dp k).inum).cur dp).size := by
    rw [hsame.cur_eq]
    exact hsize
  have hd := h.toDir.got (s.entry dp k).inum
  refine Post.bind (post_writeDirent hd (fun s' hle hw => Post.pure fun _ => ⟨k, ?_⟩) (fun hout => absurd hin hout)
    (fun s' hout => absurd hin hout) (by omega))
  have hentry := hw.entry_eq_update hd.locked hd.solid hle (by decide) (by decide)
  rw [hsame.entry_eq] at hentry
  refine ⟨⟨hw.dir hd hle, ?_, ?_⟩, hk, hentry⟩
  · have hdvd := h.dvd_size
    rw [hw.size_eq hd.locked, hsame.cur_eq]
    omega
  · rw [hentry]
    exact h.distinct.clear rfl

theorem Cleared.dirMap_eq {k : ℕ} (h : Cleared s s' dp name k) (hd : DistinctNames (s.entry dp)) :
    s'.dirMap dp = update (s.dirMap dp) (dirKey name) none := by
  funext key
  refine Option.ext fun i => ?_
  rw [Fs.dirMap_eq_some_iff h.mapDir.distinct, h.entry_eq, hd.binds_clear rfl h.names.1, h.names.2]
  by_cases hkey : key = dirKey name
  · rw [hkey, update_self]
    exact ⟨fun hc => absurd rfl hc.1, fun heq => by cases heq⟩
  · rw [update_of_ne hkey, Fs.dirMap_eq_some_iff hd]
    exact ⟨fun hc => hc.2, fun hb => ⟨hkey, hb⟩⟩

/-! ### Runs -/

theorem Fs.MapDir.step (h : s.MapDir dp) (hvalid : op.Valid) (hrun : op.run dp s = .ok (true, s')) :
    s'.MapDir dp ∧ s'.dirMap dp = op.apply (s.dirMap dp) := by
  cases op with
  | link name inum =>
    obtain ⟨hname, hpos, hlt⟩ := hvalid
    obtain ⟨k, hk⟩ := h.linked_of_run hlt hrun
    refine ⟨hk.mapDir, ?_⟩
    rw [hk.dirMap_eq h.distinct (by omega), dirKey_eq_take hname]
    rfl
  | remove name =>
    obtain ⟨k, hk⟩ := h.post_remove.of_ok hrun rfl
    refine ⟨hk.mapDir, ?_⟩
    rw [hk.dirMap_eq h.distinct, dirKey_eq_take hvalid]
    rfl

theorem DirOp.runAll_cons (hrun : DirOp.runAll dp (op :: ops) s = .ok (true, s')) :
    ∃ s1, op.run dp s = .ok (true, s1) ∧ DirOp.runAll dp ops s1 = .ok (true, s') := by
  have hpost : Post (DirOp.runAll dp (op :: ops)) s (fun ok s' => ok = true → ∃ s1, op.run dp s = .ok (true, s1) ∧
      DirOp.runAll dp ops s1 = .ok (true, s')) fun _ => True := by
    refine Post.step ((Post.self (op.run dp) s).mono (fun _ _ h => h) fun _ _ => trivial) fun ok s1 hop => ?_
    cases ok with
    | false => exact Post.pure fun h => Bool.noConfusion h
    | true =>
      refine (Post.self (DirOp.runAll dp ops) s1).mono (fun ok s' hrest htrue => ⟨s1, hop, ?_⟩) fun _ _ => trivial
      rw [hrest, htrue]
  exact hpost.of_ok hrun rfl

/-- The directory is a map after every run, and the run does to the map what the operations say. -/
theorem Fs.MapDir.runAll (h : s.MapDir dp) (hvalid : ∀ op ∈ ops, op.Valid) (hrun : DirOp.runAll dp ops s = .ok (true, s')) :
    s'.MapDir dp ∧ s'.dirMap dp = ops.foldl DirOp.apply (s.dirMap dp) := by
  induction ops generalizing s with
  | nil =>
    cases hrun
    exact ⟨h, rfl⟩
  | cons op ops ih =>
    obtain ⟨s1, hop, hrest⟩ := DirOp.runAll_cons hrun
    obtain ⟨hmap, heq⟩ := h.step (hvalid _ (List.mem_cons_self ..)) hop
    obtain ⟨hmap', heq'⟩ := ih hmap (fun op hop => hvalid op (List.mem_cons_of_mem _ hop)) hrest
    exact ⟨hmap', by rw [heq', heq, List.foldl_cons]⟩

/-! ### Directories made by `create` -/

def Dotted (e : ℕ → Dirent) : Prop := (e 0).Names dot ∧ (e 1).Names dotdot

theorem Dotted.set {e : ℕ → Dirent} (h : Dotted e) {k : ℕ} (h0 : k ≠ 0) (h1 : k ≠ 1) : Dotted (update e k de) := by
  unfold Dotted
  rw [update_of_ne (Ne.symm h0), update_of_ne (Ne.symm h1)]
  exact h

/-- The operation does not remove `.` or `..`, as `sys_unlink` checks. -/
def DirOp.KeepsDots : DirOp → Prop
  | .link _ _ => True
  | .remove name => dirKey name ≠ dirKey dot ∧ dirKey name ≠ dirKey dotdot

theorem Fs.MapDir.dotted_step (h : s.MapDir dp) (hvalid : op.Valid) (hkeeps : op.KeepsDots) (hrun : op.run dp s = .ok (true, s'))
    (hdots : Dotted (s.entry dp)) : Dotted (s'.entry dp) := by
  cases op with
  | link name inum =>
    obtain ⟨k, hk⟩ := h.linked_of_run hvalid.2.2 hrun
    rw [hk.entry_eq]
    refine hdots.set ?_ ?_
    · rintro rfl
      exact hdots.1.1 hk.first.1
    · rintro rfl
      exact hdots.2.1 hk.first.1
  | remove name =>
    obtain ⟨k, hk⟩ := h.post_remove.of_ok hrun rfl
    rw [hk.entry_eq]
    refine hdots.set ?_ ?_
    · rintro rfl
      exact hkeeps.1 (hk.names.2.symm.trans hdots.1.2)
    · rintro rfl
      exact hkeeps.2 (hk.names.2.symm.trans hdots.2.2)

theorem Fs.MapDir.dotted_runAll (h : s.MapDir dp) (hvalid : ∀ op ∈ ops, op.Valid) (hkeeps : ∀ op ∈ ops, op.KeepsDots)
    (hrun : DirOp.runAll dp ops s = .ok (true, s')) (hdots : Dotted (s.entry dp)) : Dotted (s'.entry dp) := by
  induction ops generalizing s with
  | nil =>
    cases hrun
    exact hdots
  | cons op ops ih =>
    obtain ⟨s1, hop, hrest⟩ := DirOp.runAll_cons hrun
    have hfirst := hvalid _ (List.mem_cons_self ..)
    exact ih (h.step hfirst hop).1 (fun op hop => hvalid op (List.mem_cons_of_mem _ hop)) (fun op hop => hkeeps op (List.mem_cons_of_mem _ hop))
      hrest (h.dotted_step hfirst (hkeeps _ (List.mem_cons_self ..)) hop hdots)

theorem Fs.MapDir.dotted_create {self parent : ℕ} {s1 s2 : Fs} (h : s.MapDir dp) (hsize : (s.cur dp).size = 0) (hself : 0 < self ∧ self < 2 ^ 16)
    (hparent : 0 < parent ∧ parent < 2 ^ 16) (hfirst : (DirOp.link dot self).run dp s = .ok (true, s1))
    (hsecond : (DirOp.link dotdot parent).run dp s1 = .ok (true, s2)) : Dotted (s2.entry dp) := by
  obtain ⟨k, hk⟩ := h.linked_of_run hself.2 hfirst
  obtain ⟨l, hl⟩ := hk.mapDir.linked_of_run hparent.2 hsecond
  have hempty (i : ℕ) : (s.entry dp i).inum = 0 := by
    rw [Fs.entry, if_neg (by omega)]
  have hk0 : k = 0 := by
    by_contra hne
    exact hk.first.2 0 (by omega) (hempty 0)
  subst hk0
  have hl0 : l ≠ 0 := by
    rintro rfl
    have hzero := hl.first.1
    rw [hk.entry_eq, update_self] at hzero
    dsimp only at hzero
    omega
  have hl1 : l = 1 := by
    by_contra hne
    refine hl.first.2 1 (by omega) ?_
    rw [hk.entry_eq, update_of_ne (by decide)]
    exact hempty 1
  subst hl1
  unfold Dotted
  rw [hl.entry_eq, update_self, update_of_ne (by decide), hk.entry_eq, update_self]
  exact ⟨⟨by dsimp only; omega, dirKey_strncpy dot⟩, by dsimp only; omega, dirKey_strncpy dotdot⟩

/-- With `.` and `..` in their places, the other entries are those behind them. -/
theorem Dotted.empty_iff {e : ℕ → Dirent} (h : Dotted e) (hd : DistinctNames e) :
    (∀ k, 2 ≤ k → (e k).inum = 0) ↔ ∀ k, (e k).inum ≠ 0 → dirKey (e k).name = dot ∨ dirKey (e k).name = dotdot := by
  constructor
  · intro hempty k hk
    rcases Nat.lt_or_ge k 2 with hlt | hge
    · interval_cases k
      · exact .inl h.1.2
      · exact .inr h.2.2
    · exact absurd (hempty k hge) hk
  · intro hall k hk
    by_contra hne
    rcases hall k hne with hkey | hkey
    · have h0 := hd k 0 hne h.1.1 (hkey.trans h.1.2.symm)
      omega
    · have h1 := hd k 1 hne h.2.1 (hkey.trans h.2.2.symm)
      omega

/-- After any sequence of links and removals that succeed, `dirlookup` returns what was linked last and not removed since under the first `DIRSIZ` bytes of a name, `dirlink` succeeds only for a new name, takes a free place if there is one and changes nothing else, and names stay distinct. If the directory was made by `create`, `isdirempty` tells whether there is more than `.` and `..` in it. -/
theorem directory_is_map {ops : List DirOp} (h : s.MapDir dp) (hvalid : ∀ op ∈ ops, op.Valid) (hrun : DirOp.runAll dp ops s = .ok (true, s')) :
    (∀ name, 0 ∉ name →
      Post (dirlookup dp name) s' (fun r _ => r.map Prod.fst = ops.foldl DirOp.apply (s.dirMap dp) (name.take dirsiz)) fun _ => False) ∧
    (∀ name inum, 0 ∉ name → 0 < inum → inum < 2 ^ 16 → Post (dirlink dp name inum) s' (fun r s'' => r = 0 →
      s'.dirMap dp (name.take dirsiz) = none ∧ s''.dirMap dp = update (s'.dirMap dp) (name.take dirsiz) (some inum) ∧
      DistinctNames (s''.entry dp) ∧
      ((∃ k, 16 * k + 16 ≤ (s'.cur dp).size ∧ (s'.entry dp k).inum = 0) → (s''.cur dp).size = (s'.cur dp).size)) fun _ => False) ∧
    DistinctNames (s'.entry dp) ∧
    (∀ self parent rest, ops = .link dot self :: .link dotdot parent :: rest → (s.cur dp).size = 0 → (∀ op ∈ rest, op.KeepsDots) →
      Post (isdirempty dp) s' (fun r _ => r = true ↔
        ∀ k, (s'.entry dp k).inum ≠ 0 → dirKey (s'.entry dp k).name = dot ∨ dirKey (s'.entry dp k).name = dotdot) fun _ => False) := by
  obtain ⟨hmap, heq⟩ := h.runAll hvalid hrun
  refine ⟨fun name hname => ?_, fun name inum hname hpos hlt => ?_, hmap.distinct, fun self parent rest hops hsize hkeeps => ?_⟩
  · rw [← heq, ← dirKey_eq_take hname]
    exact hmap.post_dirlookup name
  · refine (hmap.post_dirlink hlt).mono (fun r s'' hr h0 => ?_) fun _ he => he
    obtain ⟨k, hk⟩ := hr h0
    rw [← dirKey_eq_take hname]
    refine ⟨(Fs.dirMap_eq_none_iff hmap.distinct).mpr hk.fresh, hk.dirMap_eq hmap.distinct (by omega), hk.mapDir.distinct, fun ⟨l, hl, hzero⟩ => ?_⟩
    have hkl : k ≤ l := by
      by_contra hgt
      exact hk.first.2 l (by omega) hzero
    rw [hk.size_eq]
    omega
  · subst hops
    obtain ⟨s1, hfirst, hrest⟩ := DirOp.runAll_cons hrun
    obtain ⟨s2, hsecond, hrest⟩ := DirOp.runAll_cons hrest
    have hself := (hvalid _ (List.mem_cons_self ..))
    have hparent := hvalid _ (List.mem_cons_of_mem _ (List.mem_cons_self ..))
    have hdots := h.dotted_create hsize hself.2 hparent.2 hfirst hsecond
    have hmap2 := ((h.step hself hfirst).1.step hparent hsecond).1
    have hdots' := hmap2.dotted_runAll (fun op hop => hvalid op (List.mem_cons_of_mem _ (List.mem_cons_of_mem _ hop))) hkeeps hrest hdots
    refine (post_isdirempty hmap.toDir fun hpart => hpart hmap.dvd_size).mono (fun r s'' hr => ?_) fun _ he => he
    rw [hr.2, hdots'.empty_iff hmap.distinct]

def lockedRoot : Fs := mkfs.setEntry rootino { ref := 1, valid := true, copy := rootDinode }

theorem mapDir_lockedRoot : lockedRoot.MapDir rootino := by
  have hcur : lockedRoot.cur = mkfs.cur := by
    funext i
    by_cases hi : i = rootino
    · subst hi
      rfl
    · exact Fs.cur_setEntry_of_ne hi
  have hsame : mkfs.Same lockedRoot := ⟨rfl, rfl, hcur⟩
  refine ⟨⟨hsame.owned owned_mkfs, ⟨Nat.one_pos, rfl, FileType.noConfusion⟩, hsame.solid (solid_mkfs rootino), rfl⟩, by decide, ?_⟩
  rw [hsame.entry_eq]
  intro k l hk hl hkey
  have hk2 := (entry_mkfs_inum hk).2
  have hl2 := (entry_mkfs_inum hl).2
  interval_cases k <;> interval_cases l <;> first | rfl | (rw [entry_mkfs_zero, entry_mkfs_one] at hkey; exact absurd hkey (by decide))

theorem directory_is_map_lockedRoot : ∃ s', DirOp.runAll rootino [.link [97] 5, .link [98] 6, .remove [97], .link [99] 7] lockedRoot = .ok (true, s') ∧
    Post (dirlookup rootino [98]) s' (fun r _ => r.map Prod.fst = some 6) fun _ => False := by
  have hruns : ((DirOp.runAll rootino [.link [97] 5, .link [98] 6, .remove [97], .link [99] 7] lockedRoot).toOption.map Prod.fst) = some true := by
    decide +kernel
  cases hrun : DirOp.runAll rootino [.link [97] 5, .link [98] 6, .remove [97], .link [99] 7] lockedRoot with
  | error e =>
    rw [hrun] at hruns
    cases hruns
  | ok r =>
    rw [hrun] at hruns
    obtain ⟨ok, s'⟩ := r
    have hok : ok = true := Option.some.inj hruns
    subst hok
    refine ⟨s', rfl, ?_⟩
    have hlookup := (directory_is_map mapDir_lockedRoot (by simp [DirOp.Valid]) hrun).1 [98] (by decide)
    exact hlookup

end AdvancedXv6.FileSystem
