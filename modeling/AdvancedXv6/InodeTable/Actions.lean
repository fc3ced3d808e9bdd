import AdvancedXv6.InodeTable.Invariant

/-!
# What the actions do to what processes know

One lemma for each kind of action: changes to the fields of an entry under its lock, writing it to the disk, taking and releasing the lock, and the moves of references and pointers.
-/

namespace AdvancedXv6.InodeTable

open Function Weights Threads
open FileSystem (FileType)

variable {t n r : ℕ} {ρ : Fin t → Local n r} {s s' : Kernel t n r} {p : Fin t} {e : Fin n} {b : Busy n r}

@[simp] theorem Kernel.itable_setEntry_self (s : Kernel t n r) (e : Fin n) (entry : Inode t) : (s.setEntry e entry).itable e = entry := update_self ..

theorem Kernel.itable_setEntry_of_ne (s : Kernel t n r) {e e' : Fin n} (h : e' ≠ e)
    (entry : Inode t) : (s.setEntry e entry).itable e' = s.itable e' := update_of_ne h ..

theorem Kernel.map_setEntry {β : Type} (s : Kernel t n r) (g : Inode t → β) (e : Fin n) (entry : Inode t) (h : g entry = g (s.itable e)) (e' : Fin n) :
    g ((s.setEntry e entry).itable e') = g (s.itable e') := by
  by_cases he : e' = e
  · subst he
    rw [Kernel.itable_setEntry_self, h]
  · rw [s.itable_setEntry_of_ne he]

theorem Kernel.dinode_setEntry (s : Kernel t n r) (e : Fin n) (entry : Inode t)
    (hdev : entry.dev = (s.itable e).dev) (hinum : entry.inum = (s.itable e).inum) (e' : Fin n) :
    (s.setEntry e entry).dinode e' = s.dinode e' := by
  by_cases he : e' = e
  · subst he
    simp only [Kernel.dinode, Kernel.itable_setEntry_self, hdev, hinum]
    rfl
  · simp only [Kernel.dinode, s.itable_setEntry_of_ne he]
    rfl

namespace Kernel

variable (s e) (e' : Fin n)

def setLock (lock : Option (Fin t)) : Kernel t n r := s.setEntry e { s.itable e with lock }

@[simp] theorem itable_setLock_self (lock : Option (Fin t)) : (s.setLock e lock).itable e = { s.itable e with lock } := update_self ..

theorem itable_setLock_of_ne {e e' : Fin n} (h : e' ≠ e) (lock : Option (Fin t)) : (s.setLock e lock).itable e' = s.itable e' := update_of_ne h ..

@[simp] theorem setLock_fields (lock : Option (Fin t)) :
    ((s.setLock e lock).itable e').ref = (s.itable e').ref ∧
      ((s.setLock e lock).itable e').dev = (s.itable e').dev ∧
      ((s.setLock e lock).itable e').inum = (s.itable e').inum ∧
      ((s.setLock e lock).itable e').copy = (s.itable e').copy ∧
      ((s.setLock e lock).itable e').valid = (s.itable e').valid := by
  by_cases he : e' = e
  · subst he
    simp
  · simp [s.itable_setLock_of_ne he]

def setFields (copy : Dinode) (valid : Bool) : Kernel t n r := s.setEntry e { s.itable e with copy, valid }

@[simp] theorem itable_setFields_self (copy : Dinode) (valid : Bool) :
    (s.setFields e copy valid).itable e = { s.itable e with copy, valid } := update_self ..

theorem itable_setFields_of_ne {e e' : Fin n} (h : e' ≠ e) (copy : Dinode) (valid : Bool) :
    (s.setFields e copy valid).itable e' = s.itable e' := update_of_ne h ..

@[simp] theorem setFields_fields (copy : Dinode) (valid : Bool) :
    ((s.setFields e copy valid).itable e').ref = (s.itable e').ref ∧ ((s.setFields e copy valid).itable e').dev = (s.itable e').dev ∧
      ((s.setFields e copy valid).itable e').inum = (s.itable e').inum ∧ ((s.setFields e copy valid).itable e').lock = (s.itable e').lock := by
  by_cases he : e' = e
  · subst he
    simp
  · simp [s.itable_setFields_of_ne he]

@[simp] theorem dinode_setFields (copy : Dinode) (valid : Bool) :
    (s.setFields e copy valid).dinode e' = s.dinode e' :=
    s.dinode_setEntry e { s.itable e with copy, valid } rfl rfl e'

def setRef (ref : ℤ) : Kernel t n r := s.setEntry e { s.itable e with ref }

@[simp] theorem itable_setRef_self (ref : ℤ) : (s.setRef e ref).itable e = { s.itable e with ref } := update_self ..

theorem itable_setRef_of_ne {e e' : Fin n} (h : e' ≠ e) (ref : ℤ) : (s.setRef e ref).itable e' = s.itable e' := update_of_ne h ..

@[simp] theorem setRef_fields (ref : ℤ) :
    ((s.setRef e ref).itable e').dev = (s.itable e').dev ∧
      ((s.setRef e ref).itable e').inum = (s.itable e').inum ∧
      ((s.setRef e ref).itable e').copy = (s.itable e').copy ∧
      ((s.setRef e ref).itable e').valid = (s.itable e').valid ∧
      ((s.setRef e ref).itable e').lock = (s.itable e').lock := by
  by_cases he : e' = e
  · subst he
    simp
  · simp [s.itable_setRef_of_ne he]

@[simp] theorem dinode_setRef (ref : ℤ) : (s.setRef e ref).dinode e' = s.dinode e' := s.dinode_setEntry e { s.itable e with ref } rfl rfl e'

theorem dinodes_setDinode (dev inum : ℕ) (d : Dinode) (dev' inum' : ℕ) :
    (s.setDinode dev inum d).dinodes dev' inum' = d ∨ (s.setDinode dev inum d).dinodes dev' inum' = s.dinodes dev' inum' := by
  simp only [Kernel.setDinode, update_apply]
  split
  · rename_i hdev
    rw [update_apply]
    split
    · exact .inl rfl
    · rw [hdev]
      exact .inr rfl
  · exact .inr rfl

end Kernel

theorem Local.busy_update {l : Local n r} {q : Fin t} {b' : Busy n r}
    (h : (update ρ p l q).busy = some b') :
    q = p ∧ l.busy = some b' ∨ q ≠ p ∧ (ρ q).busy = some b' := by
  by_cases hq : q = p
  · subst hq
    rw [update_self] at h
    exact .inl ⟨rfl, h⟩
  · rw [update_of_ne hq] at h
    exact .inr ⟨hq, h⟩

theorem Local.free_of_update {l : Local n r} (hb : (ρ p).busy = some b) (hl : l.busy.map Busy.entry = some b.entry)
    (hfree : ∀ q c, (update ρ p l q).busy = some c → c.entry ≠ e) : e ≠ b.entry ∧ ∀ q c, (ρ q).busy = some c → c.entry ≠ e := by
  obtain ⟨b', hb', hentry⟩ := Option.map_eq_some_iff.mp hl
  have hbe : b.entry ≠ e := hentry ▸ hfree p b' (by rw [update_self, hb'])
  refine ⟨hbe.symm, fun q c hc => ?_⟩
  by_cases hq : q = p
  · subst hq
    rw [hb] at hc
    obtain rfl := Option.some.inj hc
    exact hbe
  · exact hfree q c (by rw [update_of_ne hq, hc])

theorem Local.map_update {β : Type} (g : Local n r → β) {l : Local n r} (h : g l = g (ρ p)) (q : Fin t) : g (update ρ p l q) = g (ρ q) := by
  by_cases hq : q = p
  · subst hq
    rw [update_self, h]
  · rw [update_of_ne hq]

theorem Local.has_update {o : Option (Busy n r)} (q : Fin t) (e : Fin n) (hq : (ρ q).Has e) : (update ρ p ⟨(ρ p).held, (ρ p).uses, o⟩ q).Has e := by
  by_cases hqp : q = p
  · subst hqp
    rw [update_self]
    exact hq
  · rw [update_of_ne hqp]
    exact hq

theorem Inv.self (h : Inv ρ s) : Inv (update ρ p (ρ p)) s := by
  rw [update_eq_self]
  exact h

/-! ### Under the lock -/

theorem Inv.setFields (h : Inv ρ s) (hb : (ρ p).busy = some b) (copy : Dinode) (valid inStep : Bool)
    (hstep : inStep = true → s.dinode b.entry = copy ∧ copy.type ≠ .free)
    (hvalid : b.via ≠ none → valid = true) :
    Inv (update ρ p ⟨(ρ p).held, (ρ p).uses, some ⟨b.entry, b.via, copy, valid, inStep⟩⟩) (s.setFields b.entry copy valid) := by
  refine ⟨h.counts.congr (by simp) (by simp) (by simp) rfl (Local.map_update Local.held rfl),
    h.uses.congr rfl rfl (Local.map_update Local.uses rfl),
    h.locks.congr (by simp) rfl (fun _ _ _ => rfl) (Local.map_update Local.work (by simp [Local.work, hb])) (fun q b _ => Local.has_update q b.entry), ?_⟩
  refine ⟨fun q b' hb' => ?_, fun q b' hb' hin => ?_, fun v q e hv he => ?_, fun e hpos hval hfree => ?_, h.content.image⟩
  · rcases Local.busy_update hb' with ⟨_, hnew⟩ | ⟨hq, hold⟩
    · obtain rfl := Option.some.inj hnew
      rw [Kernel.itable_setFields_self]
      exact ⟨rfl, rfl⟩
    · rw [s.itable_setFields_of_ne (h.busy_ne hb hq b' hold)]
      exact h.content.busy q b' hold
  · rw [Kernel.dinode_setFields]
    rcases Local.busy_update hb' with ⟨_, hnew⟩ | ⟨_, hold⟩
    · obtain rfl := Option.some.inj hnew
      exact hstep hin
    · exact h.content.inStep q b' hold hin
  · by_cases hbe : e = b.entry
    · subst hbe
      rw [Kernel.itable_setFields_self]
      apply hvalid
      intro hvia
      exact h.locks.noVia p b v q hb hvia hv he
    · rw [s.itable_setFields_of_ne hbe]
      exact h.content.valid v q e hv he
  · obtain ⟨hbe, hfree'⟩ := Local.free_of_update hb rfl hfree
    rw [s.itable_setFields_of_ne hbe] at hpos hval ⊢
    rw [Kernel.dinode_setFields]
    exact h.content.coherent e hpos hval hfree'

theorem Inv.iupdate (h : Inv ρ s) (hb : (ρ p).busy = some b) (hholes : b.copy.type ≠ .free → b.copy.NoHoles) :
    Inv (update ρ p ⟨(ρ p).held, (ρ p).uses, some ⟨b.entry, b.via, b.copy, b.valid, b.copy.type ≠ .free⟩⟩)
      (s.setDinode (s.itable b.entry).dev (s.itable b.entry).inum b.copy) := by
  have hself : (s.setDinode (s.itable b.entry).dev (s.itable b.entry).inum b.copy).dinode b.entry = b.copy := by
    simp [Kernel.dinode, Kernel.setDinode]
  have hpos := h.ref_pos (h.locks.busy p b hb).2
  have hother : ∀ e ≠ b.entry, 0 < (s.itable e).ref → (s.setDinode (s.itable b.entry).dev (s.itable b.entry).inum b.copy).dinode e = s.dinode e := by
    intro e hne hpos'
    simp only [Kernel.dinode, Kernel.setDinode, update_apply]
    split
    · rename_i hdev
      rw [update_apply]
      split
      · rename_i hinum
        exact absurd (h.counts.unique e b.entry hpos' hpos hdev hinum) hne
      · rw [hdev]
    · rfl
  refine ⟨h.counts.congr (fun _ => rfl) (fun _ => rfl)
    (fun _ => rfl) rfl (Local.map_update Local.held rfl),
    h.uses.congr rfl rfl (Local.map_update Local.uses rfl),
    h.locks.congr (fun _ => rfl) rfl (fun _ _ _ => rfl)
      (Local.map_update Local.work (by simp [Local.work, hb]))
      (fun q b _ => Local.has_update q b.entry), ?_⟩
  refine ⟨fun q b' hb' => ?_, fun q b' hb' hin => ?_, h.content.valid, fun e hpos' hval hfree => ?_, fun dev inum htype => ?_⟩
  · rcases Local.busy_update hb' with ⟨_, hnew⟩ | ⟨_, hold⟩
    · obtain rfl := Option.some.inj hnew
      exact h.content.busy p b hb
    · exact h.content.busy q b' hold
  · rcases Local.busy_update hb' with ⟨_, hnew⟩ | ⟨hq, hold⟩
    · obtain rfl := Option.some.inj hnew
      exact ⟨hself, of_decide_eq_true hin⟩
    · rw [hother _ (h.busy_ne hb hq b' hold) (h.ref_pos (h.locks.busy q b' hold).2)]
      exact h.content.inStep q b' hold hin
  · obtain ⟨hbe, hfree'⟩ := Local.free_of_update hb rfl hfree
    rw [hother e hbe hpos']
    exact h.content.coherent e hpos' hval hfree'
  · rcases s.dinodes_setDinode (s.itable b.entry).dev (s.itable b.entry).inum b.copy dev inum with heq | heq
    · rw [heq] at htype ⊢
      exact hholes htype
    · rw [heq] at htype ⊢
      exact h.content.image dev inum htype

/-! ### The entry a process works on -/

theorem Locks.owner (h : Locks ρ s) (p : Fin t) {q : Fin t} (hlock : (s.itable e).lock = some q) :
    (∃ v, s.locked v = some q ∧ s.pointers v = some e) ∨
      (q = p ∧ ∃ b, (ρ p).busy = some b ∧ b.entry = e) ∨
      q ≠ p ∧ ∃ b, (ρ q).busy = some b ∧ b.entry = e := by
  rcases h.lock e q hlock with hptr | hbusy
  · exact .inl hptr
  · by_cases hq : q = p
    · subst hq
      exact .inr (.inl ⟨rfl, hbusy⟩)
    · exact .inr (.inr ⟨hq, hbusy⟩)

theorem Locks.rework (h : Locks ρ s) {o : Option (Busy n r)} (hpointers : s'.pointers = s.pointers)
    (hlocked : ∀ v q, s'.locked v = some q → ∃ e, s'.pointers v = some e ∧ (s'.itable e).lock = some q)
    (hsingle : ∀ v v' q q' e, s'.locked v = some q → s'.locked v' = some q' → s'.pointers v = some e → s'.pointers v' = some e → v = v')
    (hlock : ∀ e q, (s'.itable e).lock = some q →
      (∃ v, s'.locked v = some q ∧ s'.pointers v = some e) ∨
      (q = p ∧ ∃ b, o = some b ∧ b.entry = e) ∨ q ≠ p ∧ ∃ b, (ρ q).busy = some b ∧ b.entry = e)
    (hothers : ∀ q ≠ p, ∀ b, (ρ q).busy = some b →
      (s'.itable b.entry).lock = (s.itable b.entry).lock ∧
      ∀ v, s'.pointers v = some b.entry → s'.locked v = s.locked v)
    (hnew : ∀ b, o = some b → (s'.itable b.entry).lock = some p ∧ (ρ p).Has b.entry ∧
      (∀ v, b.via = some v → s'.locked v = some p ∧ s'.pointers v = some b.entry) ∧
      (b.via = none → ∀ v q, s'.locked v = some q → s'.pointers v ≠ some b.entry)) :
    Locks (update ρ p ⟨(ρ p).held, (ρ p).uses, o⟩) s' := by
  refine ⟨hlocked, hsingle, fun e q he => ?_, fun q b hb => ?_, fun q b v hb hvia => ?_, fun q b v q' hb hvia hv hve => ?_⟩
  · rcases hlock e q he with hptr | ⟨rfl, b, hb, hbe⟩ | ⟨hq, b, hb, hbe⟩
    · exact .inl hptr
    · exact .inr ⟨b, by rw [update_self]; exact hb, hbe⟩
    · exact .inr ⟨b, by rw [update_of_ne hq]; exact hb, hbe⟩
  · rcases Local.busy_update hb with ⟨rfl, hb⟩ | ⟨hq, hb⟩
    · exact ⟨(hnew b hb).1, Local.has_update q _ (hnew b hb).2.1⟩
    · rw [(hothers q hq b hb).1]
      exact ⟨(h.busy q b hb).1, Local.has_update q _ (h.busy q b hb).2⟩
  · rcases Local.busy_update hb with ⟨rfl, hb⟩ | ⟨hq, hb⟩
    · exact (hnew b hb).2.2.1 v hvia
    · obtain ⟨hv, hve⟩ := h.via q b v hb hvia
      rw [← hpointers] at hve
      exact ⟨((hothers q hq b hb).2 v hve).trans hv, hve⟩
  · rcases Local.busy_update hb with ⟨rfl, hb⟩ | ⟨hq, hb⟩
    · exact (hnew b hb).2.2.2 hvia v q' hv hve
    · rw [(hothers q hq b hb).2 v hve] at hv
      rw [hpointers] at hve
      exact h.noVia q b v q' hb hvia hv hve

variable (h : Inv ρ s)
include h

/-- What a process stops working on agrees with the disk or has to be read again. -/
theorem Inv.rework {o : Option (Busy n r)} (hlocks : Locks (update ρ p ⟨(ρ p).held, (ρ p).uses, o⟩) s')
    (hitable : ∀ e, (s'.itable e).ref = (s.itable e).ref ∧ (s'.itable e).dev = (s.itable e).dev ∧
      (s'.itable e).inum = (s.itable e).inum ∧ (s'.itable e).copy = (s.itable e).copy ∧
      (s'.itable e).valid = (s.itable e).valid)
    (hdinodes : s'.dinodes = s.dinodes) (hpointers : s'.pointers = s.pointers) (hinUse : s'.inUse = s.inUse)
    (hvalid : ∀ v q e, s'.locked v = some q → s.pointers v = some e → (s.itable e).valid = true)
    (hnew : ∀ b, o = some b →
      ((s.itable b.entry).copy = b.copy ∧ (s.itable b.entry).valid = b.valid) ∧
      (b.inStep = true → s.dinode b.entry = b.copy ∧ b.copy.type ≠ .free))
    (hleft : ∀ b, (ρ p).busy = some b → (∃ b', o = some b' ∧ b'.entry = b.entry) ∨ (b.valid = true → b.inStep = true)) :
    Inv (update ρ p ⟨(ρ p).held, (ρ p).uses, o⟩) s' := by
  have hdinode : ∀ e, s'.dinode e = s.dinode e := fun e => by
    rw [Kernel.dinode, (hitable e).2.1, (hitable e).2.2.1, hdinodes, Kernel.dinode]
  refine ⟨h.counts.congr (fun e => (hitable e).1) (fun e => (hitable e).2.1) (fun e => (hitable e).2.2.1) hpointers (Local.map_update Local.held rfl),
    h.uses.congr hinUse hpointers (Local.map_update Local.uses rfl), hlocks, fun q b hb => ?_,
      fun q b hb hin => ?_, fun v q e hv he => ?_, fun e hpos hval hfree => ?_, ?_⟩
  · rw [(hitable b.entry).2.2.2.1, (hitable b.entry).2.2.2.2]
    rcases Local.busy_update hb with ⟨rfl, hb⟩ | ⟨_, hb⟩
    · exact (hnew b hb).1
    · exact h.content.busy q b hb
  · rw [hdinode]
    rcases Local.busy_update hb with ⟨rfl, hb⟩ | ⟨_, hb⟩
    · exact (hnew b hb).2 hin
    · exact h.content.inStep q b hb hin
  · rw [(hitable e).2.2.2.2]
    exact hvalid v q e hv (hpointers ▸ he)
  · obtain ⟨href, _, _, hcopy, hvalid'⟩ := hitable e
    rw [href] at hpos
    rw [hvalid'] at hval
    rw [hdinode, hcopy]
    by_cases hwork : ∃ b, (ρ p).busy = some b ∧ b.entry = e
    · obtain ⟨b, hb, rfl⟩ := hwork
      obtain ⟨hcopy, hvalid⟩ := h.content.busy p b hb
      rcases hleft b hb with ⟨b', hb', hentry⟩ | hok
      · exact absurd hentry (hfree p b' (by rw [update_self]; exact hb'))
      · rw [hcopy]
        exact h.content.inStep p b hb (hok (hvalid ▸ hval))
    · apply h.content.coherent e hpos hval
      intro q b hb hbe
      by_cases hq : q = p
      · subst hq
        exact hwork ⟨b, hb, hbe⟩
      · exact hfree q b (by rw [update_of_ne hq, hb]) hbe
  · rw [hdinodes]
    exact h.content.image

theorem Inv.acquire (hhas : (ρ p).Has e) (hidle : (ρ p).busy = none) (hlock : (s.itable e).lock = none) :
    Inv (update ρ p ⟨(ρ p).held, (ρ p).uses, some ⟨e, none, (s.itable e).copy, (s.itable e).valid, (s.itable e).valid⟩⟩) (s.setLock e (some p)) := by
  have hptr : ∀ v q e', s.locked v = some q → s.pointers v = some e' → e' ≠ e := by
    rintro v q e' hv he rfl
    obtain ⟨e', he', hq⟩ := h.locks.locked v q hv
    rw [he] at he'
    obtain rfl := Option.some.inj he'
    rw [hlock] at hq
    cases hq
  apply h.rework _ (s.setLock_fields e · _) rfl rfl rfl h.content.valid
  · rintro b ⟨⟩
    exact ⟨⟨rfl, rfl⟩, fun hval => h.content.coherent e (h.ref_pos hhas) hval (h.not_busy hlock)⟩
  · intro b hb
    rw [hidle] at hb
    cases hb
  apply h.locks.rework
  · rfl
  · intro v q hv
    obtain ⟨e', he', hq⟩ := h.locks.locked v q hv
    exact ⟨e', he', by rw [s.itable_setLock_of_ne (hptr v q e' hv he')]; exact hq⟩
  · exact h.locks.single
  · intro e' q he'
    by_cases he : e' = e
    · subst he
      rw [Kernel.itable_setLock_self] at he'
      exact .inr (.inl ⟨(Option.some.inj he').symm, _, rfl, rfl⟩)
    · rw [s.itable_setLock_of_ne he] at he'
      rcases h.locks.owner p he' with hptr | ⟨_, b, hb, _⟩ | hother
      · exact .inl hptr
      · rw [hidle] at hb
        cases hb
      · exact .inr (.inr hother)
  · exact fun q _ b hb => ⟨by rw [s.itable_setLock_of_ne (h.not_busy hlock q b hb)], fun _ _ => rfl⟩
  · rintro b ⟨⟩
    exact ⟨by rw [Kernel.itable_setLock_self], hhas, nofun, fun _ v q hv he => hptr v q e hv he rfl⟩

theorem Inv.release (hb : (ρ p).busy = some b) (hvia : b.via = none) (hok : b.valid = true → b.inStep = true) :
    Inv (update ρ p ⟨(ρ p).held, (ρ p).uses, none⟩) (s.setLock b.entry none) := by
  apply h.rework _ (s.setLock_fields b.entry · _) rfl rfl rfl h.content.valid
  · nofun
  · intro c hc
    rw [hb] at hc
    obtain rfl := Option.some.inj hc
    exact .inr hok
  apply h.locks.rework
  · rfl
  · intro v q hv
    obtain ⟨e, he, hq⟩ := h.locks.locked v q hv
    have hne : e ≠ b.entry := by
      rintro rfl
      exact h.locks.noVia p b v q hb hvia hv he
    exact ⟨e, he, by rw [s.itable_setLock_of_ne hne]; exact hq⟩
  · exact h.locks.single
  · intro e q he
    by_cases hbe : e = b.entry
    · subst hbe
      rw [Kernel.itable_setLock_self] at he
      cases he
    · rw [s.itable_setLock_of_ne hbe] at he
      rcases h.locks.owner p he with hptr | ⟨_, c, hc, hce⟩ | hother
      · exact .inl hptr
      · rw [hb] at hc
        obtain rfl := Option.some.inj hc
        exact absurd hce.symm hbe
      · exact .inr (.inr hother)
  · exact fun q hq c hc => ⟨by rw [s.itable_setLock_of_ne (h.busy_ne hb hq c hc)], fun _ _ => rfl⟩
  · nofun

/-! ### References and pointers -/

omit h in
theorem Local.pointersTo_update (ρ : Fin t → Local n r) (p : Fin t) (l : Local n r) (e : Fin n) :
    pointersTo (fun q => (update ρ p l q).held) e + (if (ρ p).held = some e then 1 else 0) =
      pointersTo (fun q => (ρ q).held) e + if l.held = some e then 1 else 0 :=
  Weights.total_update (fun _ (l : Local n r) => if l.held = some e then 1 else 0) ρ p l

theorem Inv.setRef {ref : ℤ} {held : Option (Fin n)} (hpos : 0 < (s.itable e).ref)
    (hcount : ∀ e', ((if held = some e' then 1 else 0 : ℕ) : ℤ) -
      (if (ρ p).held = some e' then 1 else 0 : ℕ) = if e' = e then ref - (s.itable e).ref else 0)
    (hhas : ∀ b, (ρ p).busy = some b → (ρ p).Has b.entry →
      (⟨held, (ρ p).uses, (ρ p).busy⟩ : Local n r).Has b.entry) :
    Inv (update ρ p ⟨held, (ρ p).uses, (ρ p).busy⟩) (s.setRef e ref) := by
  have hlive : ∀ e', 0 < ((s.setRef e ref).itable e').ref → 0 < (s.itable e').ref := by
    intro e' hpos'
    by_cases he : e' = e
    · subst he
      exact hpos
    · rw [s.itable_setRef_of_ne he] at hpos'
      exact hpos'
  refine ⟨⟨fun e' => ?_, fun e1 e2 h1 h2 hdev hinum => ?_⟩, h.uses.congr rfl rfl (Local.map_update Local.uses rfl),
    h.locks.congr (by simp) rfl (fun _ _ _ => rfl) (Local.map_update Local.work rfl) (fun q b hb hq => ?_),
    h.content.congr (by simp) (by simp) (by simp) hlive rfl rfl (fun _ _ _ => rfl) (Local.map_update Local.busy rfl)⟩
  · have htotal := Local.pointersTo_update ρ p ⟨held, (ρ p).uses, (ρ p).busy⟩ e'
    have hold := h.counts.refs e'
    have hnew := hcount e'
    dsimp only at htotal
    show ((s.setRef e ref).itable e').ref = (pointersTo s.pointers e' + _ : ℕ)
    by_cases he : e' = e
    · subst he
      rw [if_pos rfl] at hnew
      rw [Kernel.itable_setRef_self]
      dsimp only
      omega
    · rw [if_neg he] at hnew
      rw [s.itable_setRef_of_ne he]
      omega
  · simp only [Kernel.setRef_fields] at hdev hinum
    exact h.counts.unique e1 e2 (hlive e1 h1) (hlive e2 h2) hdev hinum
  · by_cases hqp : q = p
    · subst hqp
      rw [update_self]
      exact hhas b hb hq
    · rw [update_of_ne hqp]
      exact hq

theorem Inv.addRef (p : Fin t) (hheld : (ρ p).held = none) (hpos : 0 < (s.itable e).ref) :
    Inv (update ρ p ⟨some e, (ρ p).uses, (ρ p).busy⟩) (s.setRef e ((s.itable e).ref + 1)) := by
  apply h.setRef hpos
  · intro e'
    by_cases he : e' = e
    · simp [hheld, he]
    · simp [hheld, he, Ne.symm he]
  · intro b _ hb
    exact hb.imp_left (by simp [hheld])

theorem Inv.dropRef (hp : (ρ p).held = some e) (hidle : (ρ p).busy = none) :
    Inv (update ρ p ⟨none, (ρ p).uses, none⟩) (s.setRef e ((s.itable e).ref - 1)) := by
  have hdrop : Inv (update ρ p ⟨none, (ρ p).uses, (ρ p).busy⟩)
      (s.setRef e ((s.itable e).ref - 1)) := by
    apply h.setRef
    · exact h.counts.held_pos hp
    · intro e'
      by_cases he : e' = e
      · simp [hp, he]
      · simp [hp, he, Ne.symm he]
    · intro b hb
      rw [hidle] at hb
      cases hb
  rw [hidle] at hdrop
  exact hdrop

theorem Inv.assign (p : Fin t) {dev inum : ℕ} (hheld : (ρ p).held = none)
    (href : (s.itable e).ref = 0)
    (hnone : ∀ e', 0 < (s.itable e').ref → (s.itable e').dev = dev → (s.itable e').inum ≠ inum) :
    Inv (update ρ p ⟨some e, (ρ p).uses, (ρ p).busy⟩) (s.setEntry e { s.itable e with dev, inum, ref := 1, valid := false }) := by
  have hlive : ∀ e', 0 < (s.itable e').ref → e' ≠ e := by
    rintro e' hpos rfl
    omega
  have hbusy : ∀ q, (update ρ p ⟨some e, (ρ p).uses, (ρ p).busy⟩ q).busy = (ρ q).busy := Local.map_update Local.busy rfl
  have hpos : ∀ q b, (ρ q).busy = some b → b.entry ≠ e := fun q b hb => hlive _ (h.ref_pos (h.locks.busy q b hb).2)
  have hdinode : ∀ e' ≠ e, (s.setEntry e { s.itable e with dev, inum, ref := 1, valid := false }).dinode e' = s.dinode e' := by
    intro e' he
    simp only [Kernel.dinode, s.itable_setEntry_of_ne he]
    rfl
  refine ⟨⟨fun e' => ?_, fun e1 e2 h1 h2 hdev hinum => ?_⟩, h.uses.congr rfl rfl (Local.map_update Local.uses rfl),
    h.locks.congr
      (s.map_setEntry Inode.lock e { s.itable e with dev, inum, ref := 1, valid := false } rfl) rfl
      (fun _ _ _ => rfl) (Local.map_update Local.work rfl)
      (fun q b _ hq => ?_), ?_⟩
  · have htotal := Local.pointersTo_update ρ p ⟨some e, (ρ p).uses, (ρ p).busy⟩ e'
    have hold := h.counts.refs e'
    show ((s.setEntry e { s.itable e with dev, inum, ref := 1, valid := false }).itable e').ref = (pointersTo s.pointers e' + _ : ℕ)
    by_cases he : e' = e
    · subst he
      rw [Kernel.itable_setEntry_self]
      simp only [hheld, reduceCtorEq, if_false, if_true] at htotal ⊢
      omega
    · rw [s.itable_setEntry_of_ne he]
      simp only [hheld, reduceCtorEq, Option.some.injEq, Ne.symm he, if_false] at htotal
      omega
  · by_cases he1 : e1 = e
    · by_cases he2 : e2 = e
      · rw [he1, he2]
      · subst he1
        rw [Kernel.itable_setEntry_self, s.itable_setEntry_of_ne he2] at hdev hinum
        rw [s.itable_setEntry_of_ne he2] at h2
        exact absurd hinum.symm (hnone e2 h2 hdev.symm)
    · rw [s.itable_setEntry_of_ne he1] at h1 hdev hinum
      by_cases he2 : e2 = e
      · subst he2
        rw [Kernel.itable_setEntry_self] at hdev hinum
        exact absurd hinum (hnone e1 h1 hdev)
      · rw [s.itable_setEntry_of_ne he2] at h2 hdev hinum
        exact h.counts.unique e1 e2 h1 h2 hdev hinum
  · by_cases hqp : q = p
    · subst hqp
      rw [update_self]
      exact hq.imp_left (by simp [hheld])
    · rw [update_of_ne hqp]
      exact hq
  · refine ⟨fun q b hb => ?_, fun q b hb hin => ?_, fun v q e' hv he' => ?_, fun e' hpos' hval hfree => ?_, h.content.image⟩
    · rw [hbusy] at hb
      rw [s.itable_setEntry_of_ne (hpos q b hb)]
      exact h.content.busy q b hb
    · rw [hbusy] at hb
      rw [hdinode _ (hpos q b hb)]
      exact h.content.inStep q b hb hin
    · rw [s.itable_setEntry_of_ne (hlive e' (h.counts.pointer_pos he'))]
      exact h.content.valid v q e' hv he'
    · by_cases he : e' = e
      · subst he
        rw [Kernel.itable_setEntry_self] at hval
        cases hval
      · rw [s.itable_setEntry_of_ne he] at hpos' hval ⊢
        rw [hdinode e' he]
        simp only [hbusy] at hfree
        exact h.content.coherent e' hpos' hval hfree

theorem Inv.take {dev inum : ℕ} (hfree : (s.dinodes dev inum).type = .free) (type : FileType) : Inv ρ (s.setDinode dev inum (Dinode.fresh type)) := by
  have hdinode : ∀ e, (s.dinode e).type ≠ .free → (s.setDinode dev inum (Dinode.fresh type)).dinode e = s.dinode e := by
    intro e he
    simp only [Kernel.dinode, Kernel.setDinode, update_apply]
    split
    · rename_i hdev
      rw [update_apply]
      split
      · rename_i hinum
        rw [Kernel.dinode, hdev, hinum] at he
        exact absurd hfree he
      · rw [hdev]
    · rfl
  refine ⟨h.counts.congr (fun _ => rfl) (fun _ => rfl) (fun _ => rfl) rfl (fun _ => rfl), h.uses.congr rfl rfl (fun _ => rfl),
    h.locks.congr (fun _ => rfl) rfl (fun _ _ _ => rfl) (fun _ => rfl) (fun _ _ _ hq => hq),
      h.content.busy, fun q b hb hin => ?_, h.content.valid, fun e hpos hval hwork => ?_,
      fun dev' inum' htype => ?_⟩
  · obtain ⟨hsame, htype⟩ := h.content.inStep q b hb hin
    rw [hdinode _ (by rw [hsame]; exact htype)]
    exact ⟨hsame, htype⟩
  · obtain ⟨hsame, htype⟩ := h.content.coherent e hpos hval hwork
    rw [hdinode _ (by rw [hsame]; exact htype)]
    exact ⟨hsame, htype⟩
  · rcases s.dinodes_setDinode dev inum (Dinode.fresh type) dev' inum' with heq | heq
    · rw [heq]
      intro bn hbn
      simp [Dinode.fresh] at hbn
    · rw [heq] at htype ⊢
      exact h.content.image dev' inum' htype

end AdvancedXv6.InodeTable
