import AdvancedXv6.InodeTable.Model
import AdvancedXv6.Lib.Weights

/-!
# What the processes know of the inode table

In the middle of a call a process may have a reference that no variable owns, uses the pointer in a variable, and may have an entry locked whose fields it knows and is about to change. The invariant has four parts: references are counted and an inode has one entry, pointers in use stay, a lock belongs to the process that took it, and what is valid and not being changed agrees with the disk.
-/

namespace AdvancedXv6.InodeTable

open Weights
open FileSystem (FileType)

variable {t n r : ℕ}

/-- An entry that a process has locked and whose fields it knows. `via` is the variable through which it is locked for longer than the call. A copy is in step when it agrees with an allocated inode on the disk. -/
structure Busy (n r : ℕ) where
  entry : Fin n
  via : Option (Fin r)
  copy : Dinode
  valid : Bool
  inStep : Bool

/-- What a process holds: a reference that no variable owns, the variable its call uses with the entry it points to, and the entry it is working on. -/
structure Local (n r : ℕ) where
  held : Option (Fin n) := none
  uses : Option (Fin r × Fin n) := none
  busy : Option (Busy n r) := none

def Local.Has (l : Local n r) (e : Fin n) : Prop := l.held = some e ∨ ∃ h, l.uses = some (h, e)

/-- The entry a process works on, and the variable through which it is locked. -/
def Local.work (l : Local n r) : Option (Fin n × Option (Fin r)) := l.busy.map fun b => (b.entry, b.via)

def pointersTo {k : ℕ} (pointers : Fin k → Option (Fin n)) (e : Fin n) : ℕ :=
  total (fun _ x => if x = some e then 1 else 0) pointers

/-- Each entry counts its references, and an inode has one entry at most. -/
structure Counts (ρ : Fin t → Local n r) (s : Kernel t n r) : Prop where
  refs : ∀ e, (s.itable e).ref = (pointersTo s.pointers e + pointersTo (fun p => (ρ p).held) e : ℕ)
  unique : ∀ e e', 0 < (s.itable e).ref → 0 < (s.itable e').ref → (s.itable e).dev = (s.itable e').dev → (s.itable e).inum = (s.itable e').inum → e = e'

def Uses (ρ : Fin t → Local n r) (s : Kernel t n r) : Prop := ∀ p h e, (ρ p).uses = some (h, e) → s.inUse p = some h ∧ s.pointers h = some e

/-- A lock belongs to a variable or to the process that is working on the entry. -/
structure Locks (ρ : Fin t → Local n r) (s : Kernel t n r) : Prop where
  locked : ∀ h p, s.locked h = some p → ∃ e, s.pointers h = some e ∧ (s.itable e).lock = some p
  single : ∀ h h' p p' e, s.locked h = some p → s.locked h' = some p' → s.pointers h = some e → s.pointers h' = some e → h = h'
  lock : ∀ e p, (s.itable e).lock = some p → (∃ h, s.locked h = some p ∧ s.pointers h = some e) ∨ ∃ b, (ρ p).busy = some b ∧ b.entry = e
  busy : ∀ p b, (ρ p).busy = some b → (s.itable b.entry).lock = some p ∧ (ρ p).Has b.entry
  via : ∀ p b h, (ρ p).busy = some b → b.via = some h → s.locked h = some p ∧ s.pointers h = some b.entry
  noVia : ∀ p b h q, (ρ p).busy = some b → b.via = none → s.locked h = some q → s.pointers h ≠ some b.entry

structure Content (ρ : Fin t → Local n r) (s : Kernel t n r) : Prop where
  busy : ∀ p b, (ρ p).busy = some b → (s.itable b.entry).copy = b.copy ∧ (s.itable b.entry).valid = b.valid
  inStep : ∀ p b, (ρ p).busy = some b → b.inStep = true → s.dinode b.entry = b.copy ∧ b.copy.type ≠ .free
  valid : ∀ h p e, s.locked h = some p → s.pointers h = some e → (s.itable e).valid = true
  coherent : ∀ e, 0 < (s.itable e).ref → (s.itable e).valid = true → (∀ p b, (ρ p).busy = some b → b.entry ≠ e) →
    s.dinode e = (s.itable e).copy ∧ (s.itable e).copy.type ≠ .free
  image : ∀ dev inum, (s.dinodes dev inum).type ≠ .free → (s.dinodes dev inum).NoHoles

structure Inv (ρ : Fin t → Local n r) (s : Kernel t n r) : Prop where
  counts : Counts ρ s
  uses : Uses ρ s
  locks : Locks ρ s
  content : Content ρ s

variable {ρ ρ' : Fin t → Local n r} {s s' : Kernel t n r} {p : Fin t} {e : Fin n}

/-! ### References -/

theorem one_le_pointersTo {k : ℕ} {f : Fin k → Option (Fin n)} {v : Fin k}
    (hv : f v = some e) : 1 ≤ pointersTo f e := by
  have hle := le_total (fun _ x => if x = some e then 1 else 0) f v
  rw [hv, if_pos rfl] at hle
  exact hle

namespace Counts

section

variable (h : Counts ρ s)
include h

theorem pointer_pos {v : Fin r} (hv : s.pointers v = some e) : 0 < (s.itable e).ref := by
  have hle := one_le_pointersTo hv
  rw [h.refs e]
  omega

theorem held_pos (hp : (ρ p).held = some e) : 0 < (s.itable e).ref := by
  have hle := one_le_pointersTo (f := fun p => (ρ p).held) hp
  rw [h.refs e]
  omega

theorem two_of_pointer (hp : (ρ p).held = some e) {v : Fin r} (hv : s.pointers v = some e) :
    2 ≤ (s.itable e).ref := by
  have hle := one_le_pointersTo hv
  have hle' := one_le_pointersTo (f := fun p => (ρ p).held) hp
  rw [h.refs e]
  omega

theorem two_of_held {q : Fin t} (hne : p ≠ q) (hp : (ρ p).held = some e)
    (hq : (ρ q).held = some e) : 2 ≤ (s.itable e).ref := by
  have hle := two_le_total (fun _ x => if x = some e then 1 else 0) (fun p => (ρ p).held) hne
  rw [hp, hq, if_pos rfl] at hle
  rw [h.refs e, pointersTo, pointersTo]
  omega

theorem congr (href : ∀ e, (s'.itable e).ref = (s.itable e).ref) (hdev : ∀ e, (s'.itable e).dev = (s.itable e).dev)
    (hinum : ∀ e, (s'.itable e).inum = (s.itable e).inum) (hpointers : s'.pointers = s.pointers)
    (hrefs : ∀ q, (ρ' q).held = (ρ q).held) : Counts ρ' s' where
  refs e := by
    rw [href, h.refs e, hpointers]
    simp only [hrefs]
  unique := by
    simp only [href, hdev, hinum]
    exact h.unique

end

end Counts

theorem Inv.ref_pos (h : Inv ρ s) (hp : (ρ p).Has e) : 0 < (s.itable e).ref := by
  rcases hp with hheld | ⟨v, hv⟩
  · exact h.counts.held_pos hheld
  · exact h.counts.pointer_pos (h.uses p v e hv).2

theorem Inv.unlocked_of_last (h : Inv ρ s) (hp : (ρ p).held = some e) (hidle : (ρ p).busy = none)
    (hone : (s.itable e).ref = 1) : (s.itable e).lock = none := by
  cases hlock : (s.itable e).lock with
  | none => rfl
  | some q =>
    rcases h.locks.lock e q hlock with ⟨v, _, hv⟩ | ⟨b, hb, rfl⟩
    · have htwo := h.counts.two_of_pointer hp hv
      omega
    · have hne : p ≠ q := by
        rintro rfl
        rw [hidle] at hb
        cases hb
      rcases (h.locks.busy q b hb).2 with hheld | ⟨v, hv⟩
      · have htwo := h.counts.two_of_held hne hp hheld
        omega
      · have htwo := h.counts.two_of_pointer hp (h.uses q v b.entry hv).2
        omega

theorem Inv.not_busy (h : Inv ρ s) (hlock : (s.itable e).lock = none) (q : Fin t) (b : Busy n r) (hb : (ρ q).busy = some b) : b.entry ≠ e := by
  rintro rfl
  have hq := (h.locks.busy q b hb).1
  rw [hlock] at hq
  cases hq

theorem Inv.busy_ne (h : Inv ρ s) {b : Busy n r} (hb : (ρ p).busy = some b) {q : Fin t} (hq : q ≠ p)
    (b' : Busy n r) (hb' : (ρ q).busy = some b') : b'.entry ≠ b.entry := by
  intro heq
  have hlock := (h.locks.busy p b hb).1
  have hlock' := (h.locks.busy q b' hb').1
  rw [heq, hlock] at hlock'
  exact hq (Option.some.inj hlock').symm

/-! ### Parts that an action leaves alone -/

theorem Uses.congr (h : Uses ρ s) (hinUse : s'.inUse = s.inUse)
    (hpointers : s'.pointers = s.pointers) (huses : ∀ q, (ρ' q).uses = (ρ q).uses) :
    Uses ρ' s' := by
  intro q v e hq
  rw [hinUse, hpointers]
  exact h q v e (huses q ▸ hq)

theorem Locks.congr (h : Locks ρ s) (hlock : ∀ e, (s'.itable e).lock = (s.itable e).lock) (hlocked : s'.locked = s.locked)
    (hpointers : ∀ v q, s.locked v = some q → s'.pointers v = s.pointers v)
    (hwork : ∀ q, (ρ' q).work = (ρ q).work) (hhas : ∀ q b, (ρ q).busy = some b → (ρ q).Has b.entry → (ρ' q).Has b.entry) :
    Locks ρ' s' := by
  have hold : ∀ q b, (ρ' q).busy = some b → ∃ b', (ρ q).busy = some b' ∧ b'.entry = b.entry ∧ b'.via = b.via := by
    intro q b hb
    have hmap := hwork q
    rw [Local.work, hb, Option.map_some, eq_comm, Local.work, Option.map_eq_some_iff] at hmap
    obtain ⟨b', hb', heq⟩ := hmap
    exact ⟨b', hb', (Prod.mk.inj heq).1, (Prod.mk.inj heq).2⟩
  have hnew : ∀ q b, (ρ q).busy = some b → ∃ b', (ρ' q).busy = some b' ∧ b'.entry = b.entry := by
    intro q b hb
    have hmap := hwork q
    rw [eq_comm, Local.work, hb, Option.map_some, eq_comm, Local.work, Option.map_eq_some_iff] at hmap
    obtain ⟨b', hb', heq⟩ := hmap
    exact ⟨b', hb', (Prod.mk.inj heq).1⟩
  refine ⟨fun v q hv => ?_, fun v v' q q' e hv hv' he he' => ?_, fun e q he => ?_, fun q b hb => ?_,
    fun q b v hb hvia => ?_, fun q b v q' hb hvia hv => ?_⟩
  · rw [hlocked] at hv
    rw [hpointers v q hv]
    simp only [hlock]
    exact h.locked v q hv
  · rw [hlocked] at hv hv'
    rw [hpointers v q hv] at he
    rw [hpointers v' q' hv'] at he'
    exact h.single v v' q q' e hv hv' he he'
  · rw [hlock] at he
    rcases h.lock e q he with ⟨v, hv, hve⟩ | ⟨b, hb, rfl⟩
    · exact .inl ⟨v, hlocked ▸ hv, (hpointers v q hv).trans hve⟩
    · exact .inr (hnew q b hb)
  · obtain ⟨b', hb', hentry, _⟩ := hold q b hb
    rw [hlock, ← hentry]
    exact ⟨(h.busy q b' hb').1, hhas q b' hb' (h.busy q b' hb').2⟩
  · obtain ⟨b', hb', hentry, hvia'⟩ := hold q b hb
    obtain ⟨hv, hve⟩ := h.via q b' v hb' (hvia'.trans hvia)
    rw [hlocked, hpointers v q hv, ← hentry]
    exact ⟨hv, hve⟩
  · obtain ⟨b', hb', hentry, hvia'⟩ := hold q b hb
    rw [hlocked] at hv
    rw [hpointers v q' hv, ← hentry]
    exact h.noVia q b' v q' hb' (hvia'.trans hvia) hv

theorem Content.congr (h : Content ρ s) (hcopy : ∀ e, (s'.itable e).copy = (s.itable e).copy) (hvalid : ∀ e, (s'.itable e).valid = (s.itable e).valid)
    (hdinode : ∀ e, s'.dinode e = s.dinode e)
    (href : ∀ e, 0 < (s'.itable e).ref → 0 < (s.itable e).ref) (hdinodes : s'.dinodes = s.dinodes) (hlocked : s'.locked = s.locked)
    (hpointers : ∀ v q, s.locked v = some q → s'.pointers v = s.pointers v) (hbusy : ∀ q, (ρ' q).busy = (ρ q).busy) : Content ρ' s' := by
  refine ⟨fun q b hb => ?_, fun q b hb hin => ?_, fun v q e hv he => ?_, fun e hpos hval hfree => ?_, fun dev inum => ?_⟩
  · rw [hbusy] at hb
    rw [hcopy, hvalid]
    exact h.busy q b hb
  · rw [hbusy] at hb
    rw [hdinode]
    exact h.inStep q b hb hin
  · rw [hlocked] at hv
    rw [hpointers v q hv] at he
    rw [hvalid]
    exact h.valid v q e hv he
  · simp only [hbusy] at hfree
    rw [hvalid] at hval
    rw [hdinode, hcopy]
    exact h.coherent e (href e hpos) hval hfree
  · rw [hdinodes]
    exact h.image dev inum

/-- The free map and the data blocks are not part of the invariant. -/
theorem Inv.frame (h : Inv ρ s) (hitable : s'.itable = s.itable) (hdinodes : s'.dinodes = s.dinodes) (hpointers : s'.pointers = s.pointers)
    (hlocked : s'.locked = s.locked) (hinUse : s'.inUse = s.inUse) : Inv ρ s' := by
  obtain ⟨itable, dinodes, bitmap, blocks, pointers, locked, inUse⟩ := s
  obtain ⟨itable', dinodes', bitmap', blocks', pointers', locked', inUse'⟩ := s'
  dsimp only at hitable hdinodes hpointers hlocked hinUse
  subst hitable hdinodes hpointers hlocked hinUse
  exact ⟨⟨h.counts.refs, h.counts.unique⟩, h.uses, ⟨h.locks.locked, h.locks.single, h.locks.lock, h.locks.busy, h.locks.via, h.locks.noVia⟩,
    ⟨h.content.busy, h.content.inStep, h.content.valid, h.content.coherent, h.content.image⟩⟩

theorem Inv.setBit (h : Inv ρ s) (dev b : ℕ) (bit : Bool) : Inv ρ (s.setBit dev b bit) := h.frame rfl rfl rfl rfl rfl

theorem Inv.setBlock (h : Inv ρ s) (dev b : ℕ) (block : FileSystem.Block) : Inv ρ (s.setBlock dev b block) := h.frame rfl rfl rfl rfl rfl

end AdvancedXv6.InodeTable
