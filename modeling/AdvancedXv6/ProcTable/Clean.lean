import AdvancedXv6.ProcTable.Parents

/-!
# Slots that are not in use

A slot that is not in use is as new, provided that `kill` never finds one. A process that is marked as killed then has been asked to die itself, and not the one that had the slot before.
-/

namespace AdvancedXv6.ProcTable

open Transition

variable {n : ℕ}

def Slot.Marked (sl : Slot n) : Prop := sl.killed = true → sl.state ≠ .unused ∧ sl.note.asked = true

namespace System

variable {s s' : System n} {p q : Fin n} {e : Event n}

/-- If the step is that in which `kill` finds the slot it looks for, then the slot is in use. -/
def KillsUsed (s : System n) (e : Event n) : Prop :=
  ∀ (p q : Fin n) (pid : Int32), e = .run p → (s.slots p).pc = .killScan pid q → (s.slots q).pid = pid → (s.slots q).state ≠ .unused

def Marked (s : System n) : Prop := ∀ q, (s.slots q).Marked

theorem Marked.modify (h : s.Marked) {f : Slot n → Slot n} (hf : (f (s.slots q)).Marked) : (s.modify q f).Marked := by
  exact s.forall_modify (P := fun _ => Slot.Marked) hf h

theorem Marked.quiet (h : s.Marked) (hq : s.Quiet s') : s'.Marked := by
  intro q hkilled
  rw [(hq.slots q).killed] at hkilled
  rw [(hq.slots q).note]
  exact ⟨fun hc => (h q hkilled).1 ((hq.slots q).unused.mp hc), (h q hkilled).2⟩

theorem Marked.move (h : s.Marked) (hok : s.Ok) (hmove : s.Move e s') (hkills : s.KillsUsed e) : s'.Marked := by
  rcases hmove.quiet_or hok with hquiet | hloud
  · exact h.quiet hquiet
  cases hloud with
  | exit _ _ => exact (h.modify (f := Slot.close) (h _)).modify (by rw [slots_modify_self]; exact h _)
  | @allocate p q alloc hstate hpc hunused =>
    -- the slot was not marked, because it was not in use
    have hclean : (s.slots q).killed = false := Bool.eq_false_iff.mpr fun hkilled => (h q hkilled).1 hunused
    have hnew : ((s.slots q).forkInto (s.slots p) alloc s.nextpid s.ticks s.created s.now).1.Marked := by
      rcases (s.slots q).forkInto_cases (s.slots p) alloc s.nextpid s.ticks s.created s.now with ⟨sl, heq, _, _, _, hkilled, _⟩ | ⟨sl, heq, _⟩
      · rw [heq]
        intro hc
        exact absurd (hclean.symm.trans (hkilled.symm.trans hc)) nofun
      · rw [heq]
        exact nofun
    have hmod : (s.modify q fun _ => ((s.slots q).forkInto (s.slots p) alloc s.nextpid s.ticks s.created s.now).1).Marked := h.modify hnew
    exact hmod.modify (f := fun sl => { sl with pc := _ }) (hmod p)
  | @forkParent p child _ _ _ =>
    have hmod : (s.modify child fun sl => { sl with parent := some p }).Marked := h.modify (h child)
    exact hmod.modify (hmod p)
  | @forkRunnable p child _ _ =>
    have hmod : (s.modify child fun sl => { sl with state := .runnable }).Marked := h.modify fun hkilled => ⟨nofun, (h child hkilled).2⟩
    exact hmod.modify (hmod p)
  | @reparent p q _ _ _ =>
    have hmod : (s.modify q fun sl => { sl with parent := some s.initproc }).Marked := h.modify (h q)
    exact hmod.modify (hmod p)
  | reparentNext _ _ | reparentDone _ _ => exact h.modify (h _)
  | @exitZombie p _ _ _ => exact h.modify fun hkilled => ⟨nofun, (h p hkilled).2⟩
  | @reap p q _ _ _ _ _ _ =>
    have hmod : (s.modify q Slot.freeproc).Marked := h.modify nofun
    exact hmod.modify (f := fun sl => { sl with pc := .user }) (hmod p)
  | @kill p q pid hstate hpc hpid =>
    have hused := hkills p q pid rfl hpc hpid
    have hmod : (s.modify q Slot.kill).Marked := by
      refine h.modify fun _ => ⟨?_, rfl⟩
      rcases (s.slots q).kill_state with heq | ⟨_, hrun⟩
      · rw [heq]
        exact hused
      · rw [hrun]
        exact nofun
    exact hmod.modify (hmod p)
  | tick _ | sweepDone _ _ => exact h
  | @sweepSlot q _ =>
    have hmod : (s.modify q Slot.updateTime).Marked := by
      refine h.modify ?_
      unfold Slot.updateTime
      split
      · exact h q
      · exact h q
    exact hmod

theorem Init.marked (h : s.Init) : s.Marked := by
  intro q hkilled
  by_cases hq : q = s.initproc
  · rw [hq] at hkilled
    exact absurd (h.initproc_killed.symm.trans hkilled) nofun
  · exact absurd ((h.others_clean q hq).killed.symm.trans hkilled) nofun

theorem slots_clean (hs : Reachable Init (StepWhen KillsUsed next) s) (q : Fin n) :
    ((s.slots q).state = .unused → (s.slots q).Clean) ∧ ((s.slots q).state ≠ .unused → (s.slots q).killed = true → (s.slots q).note.asked = true) := by
  have hall {s : System n} (hs : Reachable Init (StepWhen KillsUsed next) s) := ok_family (hs.mono fun _ _ => StepWhen.stepOf)
  have hmarked : s.Marked := by
    refine Reachable.invariant (I := Marked) (fun s h => h.marked) (fun s s' hs h hstep => ?_) hs
    obtain ⟨e, hkills, hnext⟩ := hstep
    exact h.move (hall hs).1 (move_of_next hnext) hkills
  refine ⟨fun hunused => ?_, fun _ hkilled => (hmarked q hkilled).2⟩
  have hkilled : (s.slots q).killed = false := Bool.eq_false_iff.mpr fun hc => (hmarked q hc).1 hunused
  exact (((hall hs).1 q).unused hunused).2.clean hkilled

/-! ### Runs -/

def killsUsed (s : System n) : Event n → Bool
  | .run p =>
    match (s.slots p).pc with
    | .killScan pid i => if h : i < n then !decide ((s.slots ⟨i, h⟩).pid = pid ∧ (s.slots ⟨i, h⟩).state = .unused) else true
    | _ => true
  | _ => true

theorem killsUsed_of_test (s : System n) (e : Event n) (h : s.killsUsed e = true) : s.KillsUsed e := by
  intro p q pid he hpc hpid hunused
  subst he
  simp only [killsUsed, hpc, q.isLt, dite_true, Fin.eta, hpid, hunused, and_self, decide_true, Bool.not_true, Bool.false_eq_true] at h

def boot (n : ℕ) : System (n + 1) where
  slots p :=
    { state := if p = 0 then .runnable else .unused, chan := none, killed := false, xstate := 0,
      pid := if p = 0 then 1 else 0, parent := none, sz := if p = 0 then 4096 else 0,
      pagetable := if p = 0 then 1 else 0, trapframe := if p = 0 then 1 else 0, ofile := fun _ => 0,
      cwd := if p = 0 then 1 else 0, rtime := 0, ctime := 0, etime := 0, pc := .user,
      note := { number := 0, asked := false, born := 0, died := 0 } }
  initproc := 0
  nextpid := 2
  waitLock := none
  ticks := 0
  sweep := none
  now := 0
  created := 1
  reaped := []

theorem init_boot (n : ℕ) : (boot n).Init where
  initproc_state := rfl
  initproc_parent := rfl
  initproc_killed := rfl
  initproc_chan := rfl
  initproc_rtime := rfl
  initproc_ctime := rfl
  initproc_note := rfl
  others_state _ hp := if_neg hp
  others_clean _ hp := ⟨rfl, if_neg hp, rfl, rfl, if_neg hp, if_neg hp, if_neg hp, if_neg hp, fun _ => rfl⟩
  pc _ := rfl
  waitLock := rfl
  ticks := rfl
  sweep := rfl
  created := rfl
  reaped := rfl

/-- `initproc` makes a child and kills it; the third slot has not been used. -/
theorem slots_clean_child : ∃ s : System 3, Reachable Init (StepWhen KillsUsed next) s ∧ (s.slots 1).killed = true ∧ (s.slots 2).state = .unused ∧
    ((s.slots 2).state = .unused → (s.slots 2).Clean) ∧ ((s.slots 2).state ≠ .unused → (s.slots 2).killed = true → (s.slots 2).note.asked = true) := by
  obtain ⟨s, hs, hkilled, hunused⟩ : ∃ s : System 3, Reachable Init (StepWhen KillsUsed next) s ∧
      (s.slots 1).killed = true ∧ (s.slots 2).state = .unused :=
    exists_reachable_when killsUsed_of_test (init_boot 2) (.schedule 0 :: .fork 0 ⟨1, 1, true⟩ ::
      List.replicate 4 (.run 0) ++ .kill 0 2 :: List.replicate 2 (.run 0)) (by decide +kernel)
  exact ⟨s, hs, hkilled, hunused, slots_clean hs 2⟩

/-- `kill(0)` marks a slot that is not in use, and the next child is born with the mark. -/
theorem slot_marked_by_kill : (∃ s : System 2, Reachable Init (StepOf next) s ∧ (s.slots 1).state = .unused ∧ (s.slots 1).killed = true) ∧
    ∃ s : System 2, Reachable Init (StepOf next) s ∧ (s.slots 1).state = .runnable ∧ (s.slots 1).killed = true ∧ (s.slots 1).note.asked = false := by
  constructor
  · exact exists_reachable_of_schedule (init_boot 1)
      (.schedule 0 :: .kill 0 0 :: List.replicate 2 (.run 0)) (by decide +kernel)
  · exact exists_reachable_of_schedule (init_boot 1)
      (.schedule 0 :: .kill 0 0 :: List.replicate 2 (.run 0) ++
        .fork 0 ⟨1, 1, true⟩ :: List.replicate 4 (.run 0)) (by decide +kernel)

end System

end AdvancedXv6.ProcTable
