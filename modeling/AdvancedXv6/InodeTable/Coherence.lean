import AdvancedXv6.InodeTable.Calls

/-!
# One entry for an inode, in step with the disk

The invariant holds in every state of every run: an inode has one entry at most, an entry in use is not given to another inode, and what a process finds in an entry that is valid and that nobody has locked is what the disk has. There are fewer entries than files that can be open, and `iget` panics when all are in use.
-/

namespace AdvancedXv6.InodeTable.System

open Threads Transition

variable {t n r : ℕ} {x x' : System t n r}

def Sound (x : System t n r) : Prop := Pool.Sound Inv Stays Ok (fun _ _ l => l = {}) x

theorem Init.sound (h : x.Init) : x.Sound := by
  refine ⟨fun _ => {}, ⟨⟨fun e => ?_, fun e e' hpos => ?_⟩, nofun, ⟨fun v p hv => ?_, fun v v' p p' e hv => ?_, fun e p he => ?_, nofun, nofun, nofun⟩,
    ⟨nofun, nofun, fun v p e hv => ?_, fun e hpos => ?_, h.image⟩⟩, fun p => ?_⟩
  · have hpointers : pointersTo x.shared.pointers e = 0 := Weights.total_eq_zero fun v => by simp [h.pointers]
    rw [h.ref, hpointers, pointersTo, Weights.total_eq_zero]
    · rfl
    · intro p
      rfl
  · rw [h.ref] at hpos
    cases hpos
  · rw [h.locked] at hv
    cases hv
  · rw [h.locked] at hv
    cases hv
  · rw [h.lock] at he
    cases he
  · rw [h.locked] at hv
    cases hv
  · rw [h.ref] at hpos
    cases hpos
  · obtain ⟨a, ha⟩ := h.returned p
    rw [ha]
    rfl

theorem sound (hx : Reachable Init (StepOf next) x) : x.Sound := by
  refine Pool.sound ?_ (fun x hinit => Init.sound hinit) hx
  intro p c ρ s a _ hinv hidle
  refine ⟨{}, ?_, program_safe c⟩
  rw [← hidle]
  exact hinv.self

/-- In every run there is at most one entry in use for an inode, no step gives an entry in use to another inode, and an entry that is in use, valid and not locked agrees with the inode on the disk. -/
theorem inode_coherence (hx : Reachable Init (StepOf next) x) :
    (∀ e e', 0 < (x.shared.itable e).ref → 0 < (x.shared.itable e').ref → (x.shared.itable e).dev = (x.shared.itable e').dev →
      (x.shared.itable e).inum = (x.shared.itable e').inum → e = e') ∧
    (∀ event x', x.next event = some x' → ∀ e, 0 < (x.shared.itable e).ref →
      (x'.shared.itable e).dev = (x.shared.itable e).dev ∧ (x'.shared.itable e).inum = (x.shared.itable e).inum) ∧
    ∀ e, 0 < (x.shared.itable e).ref → (x.shared.itable e).valid = true → (x.shared.itable e).lock = none →
      (x.shared.itable e).copy = x.shared.dinodes (x.shared.itable e).dev (x.shared.itable e).inum := by
  have hsound := sound hx
  obtain ⟨ρ, hinv, _⟩ := id hsound
  refine ⟨hinv.counts.unique, fun event x' hnext => ?_, fun e hpos hvalid hlock => ?_⟩
  · exact Pool.Sound.guar (fun s => Stays.of_itable rfl) hsound hnext
  · exact (hinv.content.coherent e hpos hvalid (hinv.not_busy hlock)).1.symm

/-- Nobody is left with a pointer to an entry that has been given up, and what is locked through a variable is valid and locked by that process alone. -/
theorem locked_exclusive (hx : Reachable Init (StepOf next) x) :
    (∀ v e, x.shared.pointers v = some e → 0 < (x.shared.itable e).ref) ∧
    (∀ v p, x.shared.locked v = some p → ∃ e, x.shared.pointers v = some e ∧ (x.shared.itable e).lock = some p ∧ (x.shared.itable e).valid = true) ∧
    ∀ v v' p p' e, x.shared.locked v = some p → x.shared.locked v' = some p' → x.shared.pointers v = some e → x.shared.pointers v' = some e → v = v' := by
  obtain ⟨ρ, hinv, _⟩ := sound hx
  refine ⟨fun v e hv => hinv.counts.pointer_pos hv, fun v p hv => ?_, hinv.locks.single⟩
  obtain ⟨e, he, hlock⟩ := hinv.locks.locked v p hv
  exact ⟨e, he, hlock, hinv.content.valid v p e hv he⟩

/-- A disk with the root directory and files, when nothing runs yet. -/
def files (t n r : ℕ) : System t n r where
  shared := {
    itable := fun _ => ⟨0, 0, 0, false, Dinode.fresh .free, none⟩
    dinodes := fun _ inum => { Dinode.fresh (if inum = 1 then .dir else .file) with nlink := 1 }
    bitmap := fun _ _ => true
    blocks := fun _ _ _ => 0
    pointers := fun _ => none
    locked := fun _ => none
    inUse := fun _ => none }
  code := fun _ => .ret ()

theorem init_files (t n r : ℕ) : (files t n r).Init :=
  ⟨fun _ _ _ _ hbn => absurd hbn (Nat.not_lt_zero _), fun _ => rfl, fun _ => rfl, fun _ => rfl,
    fun _ => rfl, fun _ => rfl, fun _ => ⟨(), rfl⟩⟩

/-- A call and so many of its actions. -/
def whole (p : Fin t) (c : Call r) (k : ℕ) : List (Event (Fin t) (Call r)) :=
  .call p c :: List.replicate k (.run p)

/-- The root directory is looked up, locked, given one more link and unlocked: the table and the disk have its two links. -/
theorem inode_coherence_link : ∃ x : System 1 2 3, Reachable Init (StepOf next) x ∧ (x.shared.itable 0).ref = 1 ∧ (x.shared.itable 0).valid = true ∧
    (x.shared.itable 0).lock = none ∧ (x.shared.itable 0).copy.nlink = 2 ∧ (x.shared.dinodes 1 1).nlink = 2 := by
  obtain ⟨x, hreach, href, hvalid, hlock, hnlink, hdev, hinum⟩ : ∃ x : System 1 2 3,
      Reachable Init (StepOf next) x ∧ (x.shared.itable 0).ref = 1 ∧
      (x.shared.itable 0).valid = true ∧ (x.shared.itable 0).lock = none ∧
      (x.shared.itable 0).copy.nlink = 2 ∧ (x.shared.itable 0).dev = 1 ∧
      (x.shared.itable 0).inum = 1 :=
    exists_reachable_of_schedule (init_files 1 2 3) (whole 0 (.iget 1 1) 2 ++
      whole 0 (.ilock 0) 8 ++ whole 0 (.updateLinks 0 .inc) 4 ++ whole 0 (.iunlock 0) 4)
      (by decide +kernel)
  have hcopy := (inode_coherence hreach).2.2 0 (by omega) hvalid hlock
  rw [hdev, hinum] at hcopy
  exact ⟨x, hreach, href, hvalid, hlock, hnlink, by rw [← hcopy]; exact hnlink⟩

theorem locked_exclusive_ilock : ∃ x : System 1 2 3, Reachable Init (StepOf next) x ∧ x.shared.locked 0 = some 0 ∧
    ∃ e, x.shared.pointers 0 = some e ∧ (x.shared.itable e).lock = some 0 ∧ (x.shared.itable e).valid = true := by
  obtain ⟨x, hreach, hlocked⟩ : ∃ x : System 1 2 3, Reachable Init (StepOf next) x ∧
      x.shared.locked 0 = some 0 :=
    exists_reachable_of_schedule (init_files 1 2 3) (whole 0 (.iget 1 1) 2 ++ whole 0 (.ilock 0) 8)
      (by decide +kernel)
  exact ⟨x, hreach, hlocked, (locked_exclusive hreach).2.1 0 0 hlocked⟩

/-! ### Running out of entries -/

/-- The entries that open files, working directories and local variables point to. -/
def openEntries (x : System t n r) : Finset (Fin n) :=
  Finset.univ.filter fun e => ∃ v, x.shared.pointers v = some e

def openInodes (x : System t n r) : Finset (ℕ × ℕ) :=
  x.openEntries.image fun e => ((x.shared.itable e).dev, (x.shared.itable e).inum)

/-- The other processes that are in the middle of a call. -/
def calling (x : System t n r) (p : Fin t) : Finset (Fin t) :=
  Finset.univ.filter fun q => q ≠ p ∧ x.code q matches .act _ _

@[simp] theorem mem_openEntries {e : Fin n} :
    e ∈ x.openEntries ↔ ∃ v, x.shared.pointers v = some e := by
  simp [openEntries]

theorem mem_openInodes {dev inum : ℕ} : (dev, inum) ∈ x.openInodes ↔
    ∃ e ∈ x.openEntries, (x.shared.itable e).dev = dev ∧ (x.shared.itable e).inum = inum := by
  simp [openInodes]

theorem card_openInodes {ρ : Fin t → Local n r} (h : Inv ρ x.shared) :
    x.openInodes.card = x.openEntries.card := by
  apply Finset.card_image_of_injOn
  intro e he e' he' heq
  simp only [Finset.mem_coe, mem_openEntries] at he he'
  obtain ⟨v, hv⟩ := he
  obtain ⟨v', hv'⟩ := he'
  simp only [Prod.mk.injEq] at heq
  exact h.counts.unique e e' (h.counts.pointer_pos hv) (h.counts.pointer_pos hv') heq.1 heq.2

/-- An entry in use is pointed to, or a process in the middle of a call has the reference. -/
theorem open_or_held {ρ : Fin t → Local n r} (h : Inv ρ x.shared)
    (hsafe : ∀ q, Safe Inv Stays Ok q (fun _ l => l = {}) (x.code q) (ρ q)) {p : Fin t}
    (hp : (ρ p).held = none) {e : Fin n} (hpos : 0 < (x.shared.itable e).ref) :
    e ∈ x.openEntries ∨ ∃ q ∈ x.calling p, (ρ q).held = some e := by
  rw [h.counts.refs e] at hpos
  have hsum : 0 < pointersTo x.shared.pointers e ∨ 0 < pointersTo (fun q => (ρ q).held) e := by
    omega
  rcases hsum with hpointer | hheld
  · obtain ⟨v, hv⟩ := Weights.exists_pos_of_total_pos hpointer
    have hv : x.shared.pointers v = some e := by
      by_contra hne
      simp [hne] at hv
    exact .inl (mem_openEntries.mpr ⟨v, hv⟩)
  · obtain ⟨q, hq⟩ := Weights.exists_pos_of_total_pos hheld
    have hq : (ρ q).held = some e := by
      by_contra hne
      simp [hne] at hq
    have hne : q ≠ p := by
      intro heq
      rw [heq, hp] at hq
      cases hq
    refine .inr ⟨q, ?_, hq⟩
    cases hcode : x.code q with
    | act f k => simp [calling, hne, hcode]
    | ret a =>
      -- a process that has returned has nothing in hand
      have hidle := hsafe q
      rw [hcode] at hidle
      have hidle : ρ q = {} := hidle
      rw [hidle] at hq
      cases hq

/-- A process that calls `iget` panics, just if all entries are in use for other inodes. -/
theorem panics_iff_full (hx : Reachable Init (StepOf next) x) {p : Fin t} {dev inum : ℕ}
    {k : Fin n → Sys t n r Unit} (hcode : x.code p = iget dev inum >>= k) :
    x.Panics p .igetNoInodes ↔ ∀ e, 0 < (x.shared.itable e).ref ∧
      ((x.shared.itable e).dev = dev → (x.shared.itable e).inum ≠ inum) := by
  obtain ⟨ρ, hinv, _⟩ := sound hx
  have hnonneg (e : Fin n) : 0 ≤ (x.shared.itable e).ref := by
    rw [hinv.counts.refs e]
    exact Int.natCast_nonneg _
  constructor
  · rintro ⟨β, f, k', hact, hpanic⟩ e
    rw [hcode] at hact
    cases hact
    dsimp only at hpanic
    split at hpanic
    · cases hpanic
    · rename_i hmiss
      split at hpanic
      · rename_i hfull
        have hother := List.find?_eq_none.mp hmiss e (List.mem_finRange e)
        have hused := List.find?_eq_none.mp hfull e (List.mem_finRange e)
        simp only [decide_eq_true_eq] at hother hused
        have hpos := lt_of_le_of_ne (hnonneg e) (Ne.symm hused)
        exact ⟨hpos, fun hdev hinum => hother ⟨hpos, hdev, hinum⟩⟩
      · cases hpanic
  · intro hall
    have hmiss : ((List.finRange n).find? fun e => 0 < (x.shared.itable e).ref ∧
        (x.shared.itable e).dev = dev ∧ (x.shared.itable e).inum = inum) = none := by
      simpa using fun e _ hdev => (hall e).2 hdev
    have hfull : ((List.finRange n).find? fun e => (x.shared.itable e).ref = 0) = none := by
      simpa using fun e => (hall e).1.ne'
    refine ⟨_, _, _, hcode, ?_⟩
    simp only [hmiss, hfull]

/-- Where `iget` panics, every entry is for an inode that is open or that another process in the
middle of a call has a reference to. -/
theorem card_of_panics (hx : Reachable Init (StepOf next) x) {p : Fin t} {dev inum : ℕ}
    {k : Fin n → Sys t n r Unit} (hcode : x.code p = iget dev inum >>= k)
    (hpanics : x.Panics p .igetNoInodes) :
    (dev, inum) ∉ x.openInodes ∧ n ≤ x.openInodes.card + (x.calling p).card := by
  have hfull := (panics_iff_full hx hcode).mp hpanics
  obtain ⟨ρ, hinv, hsafe, -, -, -, hheld⟩ := Pool.Sound.panics (sound hx) hpanics
  constructor
  · rw [mem_openInodes]
    rintro ⟨e, -, hdev, hinum⟩
    exact (hfull e).2 hdev hinum
  · rw [card_openInodes hinv]
    have hcover : (Finset.univ : Finset (Fin n)).image some ⊆
        x.openEntries.image some ∪ (x.calling p).image fun q => (ρ q).held := by
      intro o ho
      obtain ⟨e, -, rfl⟩ := Finset.mem_image.mp ho
      rcases open_or_held hinv hsafe (hheld rfl) (hfull e).1 with hopen | ⟨q, hq, hqe⟩
      · exact Finset.mem_union_left _ (Finset.mem_image_of_mem some hopen)
      · exact Finset.mem_union_right _ (Finset.mem_image.mpr ⟨q, hq, hqe⟩)
    calc n = ((Finset.univ : Finset (Fin n)).image some).card := by
          rw [Finset.card_image_of_injective _ (Option.some_injective _), Finset.card_fin]
      _ ≤ (x.openEntries.image some ∪ (x.calling p).image fun q => (ρ q).held).card :=
          Finset.card_le_card hcover
      _ ≤ (x.openEntries.image some).card + ((x.calling p).image fun q => (ρ q).held).card :=
          Finset.card_union_le ..
      _ ≤ x.openEntries.card + (x.calling p).card :=
          Nat.add_le_add Finset.card_image_le Finset.card_image_le

/-- A process that calls `iget` does not panic if the inode is open, or while the open inodes and
the other processes in the middle of a call are fewer than the entries. Where no other process is
in the middle of a call, it panics just if as many inodes as there are entries are open and the one
it looks up is not. -/
theorem iget_panics_iff (hx : Reachable Init (StepOf next) x) {p : Fin t} {dev inum : ℕ}
    {k : Fin n → Sys t n r Unit} (hcode : x.code p = iget dev inum >>= k) :
    ((dev, inum) ∈ x.openInodes ∨ x.openInodes.card + (x.calling p).card < n →
      ¬ x.Panics p .igetNoInodes) ∧
    (x.calling p = ∅ →
      (x.Panics p .igetNoInodes ↔ (dev, inum) ∉ x.openInodes ∧ x.openInodes.card = n)) := by
  constructor
  · intro hroom hpanics
    obtain ⟨hnew, hcard⟩ := card_of_panics hx hcode hpanics
    rcases hroom with hopen | hlt
    · exact hnew hopen
    · omega
  · intro hnone
    obtain ⟨ρ, hinv, _⟩ := sound hx
    have hle : x.openInodes.card ≤ n := by
      rw [card_openInodes hinv]
      exact card_finset_fin_le x.openEntries
    constructor
    · intro hpanics
      obtain ⟨hnew, hcard⟩ := card_of_panics hx hcode hpanics
      rw [hnone, Finset.card_empty] at hcard
      exact ⟨hnew, by omega⟩
    · rintro ⟨hnew, hcard⟩
      have huniv : x.openEntries = Finset.univ := by
        rw [card_openInodes hinv] at hcard
        exact Finset.eq_univ_of_card _ (by simpa using hcard)
      refine (panics_iff_full hx hcode).mpr fun e => ?_
      have hopen : e ∈ x.openEntries := by simp [huniv]
      obtain ⟨v, hv⟩ := mem_openEntries.mp hopen
      exact ⟨hinv.counts.pointer_pos hv,
        fun hdev hinum => hnew (mem_openInodes.mpr ⟨e, hopen, hdev, hinum⟩)⟩

/-- The panic that the next action of a process is. -/
def panicOf (x : System t n r) (p : Fin t) : Option Panic :=
  match x.code p with
  | .ret _ => none
  | .act f _ =>
    match f x.shared with
    | .panic e => some e
    | _ => none

theorem panics_of_panicOf {p : Fin t} {e : Panic} (h : x.panicOf p = some e) : x.Panics p e := by
  rw [panicOf] at h
  split at h
  · cases h
  · rename_i f k hcode
    split at h
    · rename_i e' hpanic
      obtain rfl := Option.some.inj h
      exact ⟨_, f, k, hcode, hpanic⟩
    · cases h

/-- Two inodes are in use: a file that is open, and one that the second process has just got. The
first process gets the third of three entries. -/
theorem iget_panics_iff_last : ∃ x : System 2 3 4, Reachable Init (StepOf next) x ∧
    x.code 0 = iget 1 4 >>= keep ∧ x.openInodes.card = 1 ∧ (x.calling 0).card = 1 ∧
    ¬ x.Panics 0 .igetNoInodes := by
  obtain ⟨y, hy, hopen, hcalling, hret⟩ : ∃ y : System 2 3 4, Reachable Init (StepOf next) y ∧
      y.openInodes.card = 1 ∧ (y.calling 0).card = 1 ∧ (y.code 0 matches .ret _) :=
    exists_reachable_of_schedule (init_files 2 3 4)
      (whole 0 (.iget 1 2) 2 ++ whole 1 (.iget 1 3) 1) (by decide +kernel)
  obtain ⟨a, ha⟩ : y.Returned 0 := by
    cases hcode : y.code 0 with
    | ret a => exact ⟨a, hcode⟩
    | act f k => simp [hcode] at hret
  let x : System 2 3 4 := { y with code := Function.update y.code 0 (program 0 (.iget 1 4)) }
  have hstep : y.next (.call 0 (.iget 1 4)) = some x := by simp [next, Pool.next, ha, x]
  have hx : Reachable Init (StepOf next) x := hy.tail ⟨_, hstep⟩
  have hcode : x.code 0 = iget 1 4 >>= keep := Function.update_self 0 _ y.code
  have hsame : x.calling 0 = y.calling 0 := by
    ext q
    by_cases hq : q = 0
    · simp [calling, hq]
    · simp [calling, hq, x]
  have hopen : x.openInodes.card = 1 := hopen
  have hcalling : (x.calling 0).card = 1 := by rw [hsame, hcalling]
  refine ⟨x, hx, hcode, hopen, hcalling, (iget_panics_iff hx hcode).1 (.inr ?_)⟩
  rw [hopen, hcalling]
  decide

/-- What `open` does with the table: `namex` starts from the working directory in `cwd`, and the file
that it finds there is locked for a moment and stays in a variable. -/
def openFile (p : Fin 64) (cwd : Fin 164) (inum : ℕ) : List (Event (Fin 64) (Call 164)) :=
  whole p (.idup cwd) 4 ++ whole p (.ilock 4) (if inum = 2 then 8 else 5) ++
    whole p (.iget 1 inum) 2 ++ whole p (.iunlock 4) 4 ++ whole p (.iput 4) 2 ++
    whole p (.ilock (Fin.ofNat 164 (inum + 3))) 8 ++ whole p (.iunlock (Fin.ofNat 164 (inum + 3))) 4

/-- `NPROC` processes, `NINODE` entries and a variable for each working directory and each of `NFILE`
open files. The first process starts in the root directory and forks three times, and the four
processes open 49 different files, thirteen each at most. To open one more panics. -/
theorem iget_panics : ∃ x : System 64 50 164, Reachable Init (StepOf next) x ∧
    x.Panics 3 .igetNoInodes := by
  obtain ⟨x, hreach, hpanic⟩ : ∃ x : System 64 50 164, Reachable Init (StepOf next) x ∧
      x.panicOf 3 = some .igetNoInodes :=
    exists_reachable_of_schedule (init_files 64 50 164) (whole 0 (.iget 1 1) 2 ++
      (List.replicate 3 (whole 0 (.idup 0) 4)).flatten ++ (List.range' 2 49).flatMap (fun inum =>
        openFile (Fin.ofNat 64 (inum / 13)) (Fin.ofNat 164 (inum / 13)) inum) ++
      whole 3 (.idup 3) 4 ++ whole 3 (.ilock 4) 5 ++ whole 3 (.iget 1 51) 0) (by decide +kernel)
  exact ⟨x, hreach, panics_of_panicOf hpanic⟩

end AdvancedXv6.InodeTable.System
