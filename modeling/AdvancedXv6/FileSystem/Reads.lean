import AdvancedXv6.FileSystem.DirectoryMap
import AdvancedXv6.Pipes.Fifo
import AdvancedXv6.Lib.Stores

/-!
# Reads and their count

`fileread` of `kernel/file.c` for a pipe and for an inode: `piperead` and `readi` with what they store in the memory of the caller. The count is an `int`. `piperead` compares it as such, and reads nothing if it is negative; `readi` takes it as a `uint` and cuts it off at the end of the file, unless the sum with the offset wraps around. `piperead` counts a byte before it stores it, and loses one that it cannot store.
-/

namespace AdvancedXv6.Reads

open Prog FileSystem UserMemory
open Pipes (Pipe)

/-- A read stores nothing outside of its range, and returns its count at most. -/
def Within (addr : ℕ) (n : Int32) (r : Stores × ℤ) : Prop :=
  (∀ w ∈ r.1, addr ≤ w.1 ∧ (w.1 : ℤ) < addr + max n.toInt 0) ∧ r.2 ≤ max n.toInt 0

/-! ### Pipes -/

/-- The loop of `piperead` that copies, with so many rounds to go, after `i` bytes. -/
def pipereadLoop (writable : ℕ → Bool) (addr : ℕ) : ℕ → ℕ → Pipe → Stores × ℤ
  | 0, i, _ => ([], i)
  | rounds + 1, i, pi =>
    if pi.empty then
      ([], i)
    else
      let c := copyout writable (addr + i) [pi.front]
      if c.2 < 0 then
        (c.1, i)
      else
        let r := pipereadLoop writable addr rounds (i + 1) pi.take
        (c.1 ++ r.1, r.2)

/-- `piperead`, given the pipe and whether the process has been killed, each time it has the lock. -/
def piperead (writable : ℕ → Bool) (addr : ℕ) (n : Int32) : List (Pipe × Bool) → Option (Stores × ℤ)
  | [] => none
  | (pi, killed) :: later =>
    if pi.empty ∧ pi.writeopen then
      if killed then some ([], -1) else piperead writable addr n later
    else
      some (pipereadLoop writable addr n.toInt.toNat 0 pi)

variable {writable : ℕ → Bool} {addr : ℕ} {n : Int32}

theorem pipereadLoop_within (rounds i : ℕ) (pi : Pipe) :
    (∀ w ∈ (pipereadLoop writable addr rounds i pi).1, addr + i ≤ w.1 ∧ w.1 < addr + i + rounds) ∧
      (pipereadLoop writable addr rounds i pi).2 ≤ i + rounds := by
  induction rounds generalizing i pi with
  | zero => simp [pipereadLoop]
  | succ rounds ih =>
    obtain ⟨hstores, hret⟩ := ih (i + 1) pi.take
    have hfirst : ∀ w ∈ (copyout writable (addr + i) [pi.front]).1, addr + i ≤ w.1 ∧ w.1 < addr + i + 1 := fun w hw => mem_copyout hw
    simp only [pipereadLoop]
    split_ifs <;> grind

theorem piperead_within {waits : List (Pipe × Bool)} {r : Stores × ℤ} (h : piperead writable addr n waits = some r) : Within addr n r := by
  induction waits with
  | nil => cases h
  | cons wait later ih =>
    have hloop := @pipereadLoop_within writable addr n.toInt.toNat 0 wait.1
    simp only [piperead] at h
    split_ifs at h
    · cases h
      simp [Within]
    · exact ih h
    · cases h
      unfold Within
      grind

/-! ### What a read takes out of a pipe -/

/-- The pipe after the loop. `pi->nread++` comes before the copy. -/
def pipereadLeft (writable : ℕ → Bool) (addr : ℕ) : ℕ → ℕ → Pipe → Pipe
  | 0, _, pi => pi
  | rounds + 1, i, pi =>
    if pi.empty then
      pi
    else if (copyout writable (addr + i) [pi.front]).2 < 0 then
      pi.take
    else
      pipereadLeft writable addr rounds (i + 1) pi.take

/-- The pipe that `piperead` starts to copy from, and what it leaves of it. -/
def pipereadPipes (writable : ℕ → Bool) (addr : ℕ) (n : Int32) : List (Pipe × Bool) → Option (Pipe × Pipe)
  | [] => none
  | (pi, killed) :: later =>
    if pi.empty ∧ pi.writeopen then
      if killed then none else pipereadPipes writable addr n later
    else
      some (pi, pipereadLeft writable addr n.toInt.toNat 0 pi)

def storesAt (addr : ℕ) (bytes : List UInt8) : Stores := (bytes.zipIdx addr).map Prod.swap

/-- The read has taken the bytes out of the pipe that it returns the number of and has stored, and no others. -/
def Consumes (addr : ℕ) (r : Stores × ℤ) (pi left : Pipe) : Prop :=
  left.nread = pi.nread + UInt32.ofNat r.2.toNat ∧ left.contents = pi.contents.drop r.2.toNat ∧ r.1 = storesAt addr (pi.contents.take r.2.toNat)

theorem pipereadLoop_spec (rounds i : ℕ) (pi : Pipe) :
    ∃ k ≤ min rounds pi.contents.length, pipereadLoop writable addr rounds i pi = (storesAt (addr + i) (pi.contents.take k), ((i + k : ℕ) : ℤ)) ∧
      (∀ j < k, writable (addr + i + j) = true) ∧
      ((k = min rounds pi.contents.length ∧ (pipereadLeft writable addr rounds i pi).nread = pi.nread + UInt32.ofNat k ∧
          (pipereadLeft writable addr rounds i pi).contents = pi.contents.drop k) ∨
        (k < min rounds pi.contents.length ∧ writable (addr + i + k) = false ∧
          (pipereadLeft writable addr rounds i pi).nread = pi.nread + UInt32.ofNat k + 1)) := by
  induction rounds generalizing i pi with
  | zero => exact ⟨0, by simp [pipereadLoop, pipereadLeft, storesAt]⟩
  | succ rounds ih =>
    by_cases hempty : pi.empty
    · have hnil : pi.contents = [] := by simpa [Pipe.contents, Pipe.count] using Pipe.empty_iff.mp hempty
      exact ⟨0, by simp [pipereadLoop, pipereadLeft, storesAt, hempty, hnil]⟩
    have hcontents := Pipe.contents_take hempty
    cases hwritable : writable (addr + i) with
    | false => exact ⟨0, by simp [pipereadLoop, pipereadLeft, copyout, storesAt, hempty, hwritable, hcontents, Pipe.take]⟩
    | true =>
      obtain ⟨k, hk, hloop, hbefore, hleft⟩ := ih (i + 1) pi.take
      have hassoc (j : ℕ) : addr + (i + 1) + j = addr + i + (j + 1) := by omega
      have hnread : pi.take.nread + UInt32.ofNat k = pi.nread + UInt32.ofNat (k + 1) := by
        rw [Nat.add_comm k, UInt32.ofNat_add, ← UInt32.add_assoc]
        rfl
      refine ⟨k + 1, by rw [hcontents]; simpa using hk, ?_, fun j hj => ?_, ?_⟩
      · simp [pipereadLoop, copyout, hempty, hwritable, hloop, hcontents, storesAt, Nat.add_assoc, Nat.add_comm 1]
      · cases j with
        | zero => exact hwritable
        | succ j => exact hassoc j ▸ hbefore j (Nat.lt_of_succ_lt_succ hj)
      · simp only [pipereadLeft, hempty, copyout, hwritable, hcontents, ← hnread, ← hassoc]
        simpa using hleft

theorem pipereadPipes_eq {waits : List (Pipe × Bool)} {r : Stores × ℤ} {pi left : Pipe} (hr : piperead writable addr n waits = some r)
    (hpipes : pipereadPipes writable addr n waits = some (pi, left)) :
    r = pipereadLoop writable addr n.toInt.toNat 0 pi ∧ left = pipereadLeft writable addr n.toInt.toNat 0 pi := by
  induction waits with
  | nil => cases hr
  | cons wait later ih =>
    simp only [piperead] at hr
    simp only [pipereadPipes] at hpipes
    split_ifs at hr hpipes
    · exact ih hr hpipes
    · cases hr
      cases hpipes
      exact ⟨rfl, rfl⟩

/-- A read takes out of the pipe exactly what it returns, just if it can store all bytes that there are for it. At the first that it cannot, it loses this byte. -/
theorem piperead_consumes_iff (writable : ℕ → Bool) (addr : ℕ) (n : Int32) (waits : List (Pipe × Bool)) {r : Stores × ℤ} {pi left : Pipe}
    (hr : piperead writable addr n waits = some r) (hpipes : pipereadPipes writable addr n waits = some (pi, left)) :
    Consumes addr r pi left ↔ ∀ j : ℕ, j < n.toInt → j < pi.contents.length → writable (addr + j) = true := by
  obtain ⟨rfl, rfl⟩ := pipereadPipes_eq hr hpipes
  obtain ⟨k, hk, hloop, hbefore, ⟨hend, hnread, hleft⟩ | ⟨hlt, hfault, hnread⟩⟩ := @pipereadLoop_spec writable addr n.toInt.toNat 0 pi
  · refine iff_of_true ?_ fun j hj hlen => hbefore j (by omega)
    rw [hloop]
    exact ⟨by simpa using hnread, by simpa using hleft, by simp⟩
  · refine iff_of_false (fun hconsumes => ?_) fun hall => ?_
    · have hsame := hconsumes.1
      rw [hloop, hnread] at hsame
      simp at hsame
    · have hstored := hall k (by omega) (by omega)
      exact absurd (hfault.symm.trans hstored) nofun

def twoBytes : Pipe where
  data := UInt8.ofNat
  nread := 0
  nwrite := 2
  readopen := true
  writeopen := true

theorem piperead_consumes_both : ∃ r left, piperead (fun _ => true) 100 5 [(twoBytes, false)] = some r ∧
    pipereadPipes (fun _ => true) 100 5 [(twoBytes, false)] = some (twoBytes, left) ∧ Consumes 100 r twoBytes left :=
  ⟨_, _, rfl, rfl, (piperead_consumes_iff (fun _ => true) 100 5 [(twoBytes, false)] rfl rfl).2 fun _ _ _ => rfl⟩

/-- The page ends after the first byte. The read returns 1, and the pipe is empty. -/
theorem piperead_loses_byte : piperead (decide <| · < 101) 100 5 [(twoBytes, false)] = some ([(100, 0)], 1) ∧
    (pipereadPipes (decide <| · < 101) 100 5 [(twoBytes, false)]).map (fun pipes => pipes.2.nread) = some 2 := by
  decide

/-! ### Inodes -/

/-- The rounds of `readi` from `tot` on. -/
def readLoopTo (ip : ℕ) (writable : ℕ → Bool) (n : ℕ) : ℕ → ℕ → ℕ → ℕ → FsM (Stores × ℤ)
  | 0, tot, _, _ => pure ([], tot)
  | fuel + 1, tot, off, dst =>
    if tot < n then do
      let addr ← bmap ip (off / bsize)
      if addr = 0 then
        pure ([], tot)
      else do
        let block ← bread addr
        let m := min (n - tot) (bsize - off % bsize)
        let c := copyout writable dst (block.bytes (off % bsize) m)
        if c.2 < 0 then
          pure (c.1, -1)
        else do
          let r ← readLoopTo ip writable n fuel (tot + m) (off + m) (dst + m)
          pure (c.1 ++ r.1, r.2)
    else
      pure ([], tot)

def readiTo (ip : ℕ) (writable : ℕ → Bool) (dst : ℕ) (off n : UInt32) : FsM (Stores × ℤ) := do
  let d ← inode ip
  if d.size < off.toNat ∨ off + n < off then
    pure ([], 0)
  else
    let n := if d.size < (off + n).toNat then d.size - off.toNat else n.toNat
    readLoopTo ip writable n n 0 off.toNat dst

/-- `fileread` of an inode, once it is locked. -/
def filereadInode (ip : ℕ) (off : UInt32) (writable : ℕ → Bool) (addr : ℕ) (n : Int32) : FsM (Stores × ℤ) := readiTo ip writable addr off n.toUInt32

variable {s : Fs} {ip : ℕ} {E : Panic → Prop}

/-- What the rounds store lies in the range; they store something, or fail with the first byte. -/
theorem post_readLoopTo (h : s.Named) (hl : s.Locked ip) (hs : s.Solid ip) {n fuel tot off dst : ℕ} (hfuel : n ≤ tot + fuel) (htot : tot ≤ n)
    (hend : off + (n - tot) ≤ (s.cur ip).size) :
    Post (readLoopTo ip writable n fuel tot off dst) s (fun r _ => (∀ w ∈ r.1, dst ≤ w.1 ∧ w.1 < dst + (n - tot)) ∧ r.2 ≤ n ∧
      (tot < n → (r.1 = [] ↔ writable dst = false) ∧ (r.1 = [] → r.2 = -1))) E := by
  induction fuel generalizing tot off dst with
  | zero => exact Post.pure ⟨nofun, by omega, by omega⟩
  | succ fuel ih =>
    unfold readLoopTo
    split
    · rename_i hlt
      have hslot := hs off (by omega)
      refine Post.step (post_bmap h hl (lt_maxFile_of_slot hslot)) fun addr s1 h1 => ?_
      obtain rfl := h1.same hslot
      obtain rfl := h1.slot_eq
      rw [if_neg hslot]
      refine Post.bind (Post.bind (Post.get (Post.pure ?_)))
      have hmod := Nat.mod_lt off bsize_pos
      dsimp only
      generalize hbytes : (s1.blocks (s1.slots (ip, slotOf (off / bsize)))).bytes (off % bsize) (min (n - tot) (bsize - off % bsize)) = bytes
      have hlength : bytes.length = min (n - tot) (bsize - off % bsize) := by simp [← hbytes, Block.bytes]
      have hbytes0 : bytes ≠ [] := by grind
      have hnil : (copyout writable dst bytes).1 = [] ↔ writable dst = false := copyout_eq_nil_iff hbytes0
      have hmem (w : ℕ × UInt8) (hw : w ∈ (copyout writable dst bytes).1) := mem_copyout hw
      split
      · exact Post.pure ⟨by grind, by omega, by grind⟩
      · rename_i hcopied
        refine Post.step (ih (by omega) (by omega) (by omega)) fun r s2 hr => Post.pure ⟨?_, hr.2.1, fun _ => ?_⟩
        · grind
        · have hwritable := writable_of_copyout hbytes0 hcopied
          have hne : (copyout writable dst bytes).1 ≠ [] := by simp [hnil, hwritable]
          simp [hne, hwritable]
    · exact Post.pure ⟨nofun, by omega, by omega⟩

def span (size : ℕ) (off n : UInt32) : ℕ := if size < off.toNat ∨ 2 ^ 32 ≤ off.toNat + n.toNat then 0 else min n.toNat (size - off.toNat)

theorem post_readiTo (h : s.Named) (hl : s.Locked ip) (hs : s.Solid ip) {off n : UInt32} :
    Post (readiTo ip writable addr off n) s
      (fun r _ => (∀ w ∈ r.1, addr ≤ w.1 ∧ w.1 < addr + span (s.cur ip).size off n) ∧
      r.2 ≤ span (s.cur ip).size off n ∧
      (0 < span (s.cur ip).size off n → (r.1 = [] ↔ writable addr = false) ∧ (r.1 = [] → r.2 = -1))) E := by
  refine Post.bind (Post.bind (Post.get (Post.pure ?_)))
  rw [← hl.cur_eq]
  simp only [add_lt_self_iff]
  split
  · rename_i hout
    rw [show span (s.cur ip).size off n = 0 from if_pos hout]
    exact Post.pure ⟨nofun, le_rfl, nofun⟩
  · rename_i hin
    have hadd : (off + n).toNat = off.toNat + n.toNat := by
      rw [UInt32.toNat_add]
      omega
    have hn : (if (s.cur ip).size < (off + n).toNat then (s.cur ip).size - off.toNat else n.toNat) = span (s.cur ip).size off n := by
      rw [span, if_neg hin]
      split <;> omega
    rw [hn]
    have hspan : span (s.cur ip).size off n ≤ (s.cur ip).size - off.toNat := by
      rw [span, if_neg hin]
      omega
    exact post_readLoopTo h hl hs (by omega) (by omega) (by omega)

/-- A read from a pipe stays within its count. One from an inode does, just if the count is not negative, or the file ends before the offset, or the sum of the two wraps around, or the first byte cannot be stored. -/
theorem read_within_iff (writable : ℕ → Bool) (addr : ℕ) (n : Int32) :
    (∀ (waits : List (Pipe × Bool)) (r : Stores × ℤ), piperead writable addr n waits = some r → Within addr n r) ∧
    ∀ {s : Fs} {ip : ℕ}, s.Owned → s.Locked ip → s.Solid ip → ∀ off : UInt32,
      Post (filereadInode ip off writable addr n) s (fun r _ => Within addr n r) (fun _ => False) ↔
        (0 ≤ n.toInt ∨ (s.cur ip).size ≤ off.toNat ∨ -n.toInt ≤ off.toNat ∨ writable addr = false) := by
  refine ⟨fun _ _ h => piperead_within h, fun {s ip} h hl hs off => ?_⟩
  have hpost := @post_readiTo writable addr s ip (fun _ => False) h.toNames hl hs off n.toUInt32
  have hcount : n.toInt = if 2 * n.toUInt32.toNat < 2 ^ 32 then (n.toUInt32.toNat : ℤ)
      else n.toUInt32.toNat - (2 ^ 32 : ℕ) := BitVec.toInt_eq_toNat_cond n.toBitVec
  have hlower := n.le_toInt
  generalize hspan : span (s.cur ip).size off n.toUInt32 = k at hpost
  unfold span at hspan
  constructor
  · intro hwithin
    by_contra hnot
    obtain ⟨r, s', hok, hmem, -, hsome⟩ := hpost.exists_ok
    obtain ⟨hin, -⟩ := hwithin.of_ok hok
    have hpos : 0 < k := by
      split at hspan <;> split at hcount <;> omega
    obtain ⟨w, hw⟩ := List.exists_mem_of_ne_nil r.1 (by grind)
    have := hin w hw
    omega
  · refine fun hcond => hpost.mono (fun r s' hr => ?_) fun _ => id
    obtain ⟨hmem, hret, hsome⟩ := hr
    have hk : (k : ℤ) ≤ max n.toInt 0 ∨ (0 < k ∧ writable addr = false) := by
      by_cases hfault : 0 < k ∧ writable addr = false
      · exact .inr hfault
      · have hcond' : 0 ≤ n.toInt ∨ (s.cur ip).size ≤ off.toNat ∨ -n.toInt ≤ off.toNat ∨ k = 0 := by grind
        left
        split at hspan <;> split at hcount <;> omega
    rcases hk with hle | ⟨hpos, hfault⟩
    · exact ⟨fun w hw => ⟨(hmem w hw).1, by have := (hmem w hw).2; omega⟩, by omega⟩
    · obtain ⟨hnil, hfail⟩ := hsome hpos
      have hnone := hnil.2 hfault
      exact ⟨by simp [hnone], by rw [hfail hnone]; omega⟩

/-- A read of five bytes at the beginning of the root directory. -/
theorem read_within_root : lockedRoot.Owned ∧ lockedRoot.Locked rootino ∧ lockedRoot.Solid rootino ∧
    Post (filereadInode rootino 0 (fun _ => true) 100 5) lockedRoot (fun r _ => Within 100 5 r) fun _ => False :=
  ⟨mapDir_lockedRoot.owned, mapDir_lockedRoot.locked, mapDir_lockedRoot.solid,
    ((read_within_iff (fun _ => true) 100 5).2 mapDir_lockedRoot.owned mapDir_lockedRoot.locked mapDir_lockedRoot.solid 0).2 (.inl (by decide))⟩

/-- `read(fd, addr, -1)` at the beginning of the root directory stores the whole block. -/
theorem read_negative_count :
    ((filereadInode rootino 0 (fun _ => true) 100 (-1) lockedRoot).toOption.map fun r =>
      (r.1.1.length, r.1.2)) = some (bsize, (bsize : ℤ)) := by
  decide +kernel

end AdvancedXv6.Reads
