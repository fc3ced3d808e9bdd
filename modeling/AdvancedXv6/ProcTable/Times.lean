import AdvancedXv6.ProcTable.Clean

/-!
# Running times

`clockintr` counts a tick and then goes through the table to count it for the processes that run. A process that was there before the tick is owed one count from then until `update_time` comes past it, so that its running time is at most its age. A process that is made after the tick was counted, and that another CPU runs before `update_time` has come to its slot, is given a count for a tick it has not lived through.
-/

namespace AdvancedXv6.ProcTable

open Transition

variable {n : ℕ}

namespace System

variable {s s' : System n} {p q : Fin n} {e : Event n}

/-- The count that `update_time` still owes to a process for the present tick. -/
def due (s : System n) (q : Fin n) : ℕ :=
  match s.sweep with
  | some i => if i ≤ q ∧ (s.slots q).note.born < s.now then 1 else 0
  | none => 0

/-- The times of a process. They are right as long as it is not so old that the counters have gone round. -/
@[grind cases] structure TimedAt (s : System n) (q : Fin n) : Prop where
  born_le : (s.slots q).note.born ≤ s.now
  ctime : (s.slots q).ctime = UInt32.ofNat (s.slots q).note.born
  alive : (s.slots q).state ≠ .zombie → s.now - (s.slots q).note.born < 2 ^ 32 → (s.slots q).rtime.toNat + s.due q ≤ s.now - (s.slots q).note.born
  died : (s.slots q).state = .zombie → (s.slots q).note.born ≤ (s.slots q).note.died ∧ (s.slots q).etime = UInt32.ofNat (s.slots q).note.died ∧
    ((s.slots q).note.died - (s.slots q).note.born < 2 ^ 32 → (s.slots q).rtime.toNat ≤ (s.slots q).note.died - (s.slots q).note.born)

@[grind cases] structure Timed (s : System n) : Prop where
  ticks : s.ticks = UInt32.ofNat s.now
  slots : ∀ q, (s.slots q).state ≠ .unused → s.TimedAt q

/-- If the step counts the tick for a process, then the process was there before the tick. -/
def OnTime (s : System n) (e : Event n) : Prop :=
  ∀ q : Fin n, e = .sweep → s.sweep = some (q : ℕ) → (s.slots q).state = .running → (s.slots q).ctime ≠ s.ticks

theorem TimedAt.same (h : s.TimedAt q) (hzombie : (s'.slots q).state = .zombie ↔
    (s.slots q).state = .zombie) (hrtime : (s'.slots q).rtime = (s.slots q).rtime)
    (hctime : (s'.slots q).ctime = (s.slots q).ctime)
    (hetime : (s'.slots q).etime = (s.slots q).etime)
    (hborn : (s'.slots q).note.born = (s.slots q).note.born)
    (hdied : (s'.slots q).note.died = (s.slots q).note.died) (hnow : s'.now = s.now) (hdue : s'.due q ≤ s.due q) : s'.TimedAt q := by
  constructor <;> grind

section

variable (h : s.Timed)
include h

theorem Timed.quiet (hq : s.Quiet s') : s'.Timed := by
  have hslots := hq.slots
  refine ⟨by grind, fun q hused => TimedAt.same (h.slots q ?_) ?_ ?_ ?_ ?_ ?_ ?_ ?_ ?_⟩ <;> grind [due]

theorem Timed.modify {f : Slot n → Slot n} (hf : (f (s.slots q)).state ≠ .unused → (s.modify q f).TimedAt q) : (s.modify q f).Timed := by
  refine ⟨h.ticks, fun r hused => ?_⟩
  by_cases hr : r = q
  · grind
  · apply (h.slots r _).same <;> grind [due]

theorem Timed.keep {f : Slot n → Slot n} (hunused : (f (s.slots q)).state ≠ .unused → (s.slots q).state ≠ .unused)
    (hzombie : (f (s.slots q)).state = .zombie ↔ (s.slots q).state = .zombie) (hrtime : (f (s.slots q)).rtime = (s.slots q).rtime)
    (hctime : (f (s.slots q)).ctime = (s.slots q).ctime) (hetime : (f (s.slots q)).etime = (s.slots q).etime)
    (hborn : (f (s.slots q)).note.born = (s.slots q).note.born) (hdied : (f (s.slots q)).note.died = (s.slots q).note.died) : (s.modify q f).Timed := by
  refine h.modify fun hused => ?_
  apply (h.slots q (hunused hused)).same <;> grind [due]

theorem Timed.goto (p : Fin n) (pc : Pc n) : (s.goto p pc).Timed := h.keep id .rfl rfl rfl rfl rfl rfl

theorem Timed.of_slots (hslots : s'.slots = s.slots) (hticks : s'.ticks = s.ticks) (hnow : s'.now = s.now) (hsweep : s'.sweep = s.sweep) : s'.Timed := by
  refine ⟨by grind, fun q hused => ?_⟩
  apply (h.slots q _).same <;> grind [due]

theorem Timed.allocate {alloc : Alloc} : (s.allocate p q alloc).Timed := by
  have hmod : (s.modify q fun _ => ((s.slots q).forkInto (s.slots p) alloc s.nextpid s.ticks s.created s.now).1).Timed := by
    refine h.modify fun hused => ?_
    have hslot := slots_modify_self s q fun _ => ((s.slots q).forkInto (s.slots p) alloc s.nextpid s.ticks s.created s.now).1
    rcases (s.slots q).forkInto_cases (s.slots p) alloc s.nextpid s.ticks s.created s.now with
      ⟨sl, heq, hstate, _, _, _, hrtime, hctime, hnote⟩ | ⟨sl, heq, _⟩
    · rw [heq] at hslot hused ⊢
      have hborn : sl.note.born = s.now := by rw [hnote]
      refine ⟨?_, ?_, fun _ _ => ?_, fun hc => ?_⟩
      · rw [hslot, hborn]
        exact Nat.le_refl _
      · rw [hslot, hctime, hborn, h.ticks]
      · have hdue : (s.modify q fun _ => (sl, true).1).due q = 0 := by
          unfold due
          rw [hslot, hborn]
          split
          · exact if_neg fun hc => Nat.lt_irrefl _ hc.2
          · rfl
        rw [hdue, hslot, hrtime, hborn]
        exact Nat.zero_le _
      · rw [hslot, hstate] at hc
        cases hc
    · rw [heq] at hused
      exact absurd rfl hused
  have hmod' := hmod.goto p (if ((s.slots q).forkInto (s.slots p) alloc s.nextpid s.ticks s.created s.now).2 then .forkParent q else .user)
  exact hmod'.of_slots rfl rfl rfl rfl

end

theorem toNat_add_one {x : UInt32} (h : x.toNat + 1 < 2 ^ 32) : (x + 1).toNat = x.toNat + 1 := by
  have hone : (1 : UInt32).toNat = 1 := rfl
  rw [UInt32.toNat_add, hone]
  exact Nat.mod_eq_of_lt h

theorem due_of_sweep {i : ℕ} (hsweep : s.sweep = some i) (q : Fin n) : s.due q = if i ≤ q ∧ (s.slots q).note.born < s.now then 1 else 0 := by
  unfold due
  rw [hsweep]

theorem due_eq_zero (h : ∀ i, s.sweep = some i → i ≤ q → ¬ (s.slots q).note.born < s.now) : s.due q = 0 := by
  unfold due
  split
  · rename_i i hsweep
    exact if_neg fun hc => h i hsweep hc.1 hc.2
  · rfl

theorem Timed.sweepSlot (h : s.Timed) (hsweep : s.sweep = some (q : ℕ)) (hontime : s.OnTime .sweep) :
    ({ s.modify q Slot.updateTime with sweep := some (q + 1) } : System n).Timed := by
  refine ⟨h.ticks, fun r hused => ?_⟩
  have hold := h.slots r
  have hslots := slots_modify s q r Slot.updateTime
  constructor
  · grind
  · grind
  · have hlate := hontime q rfl hsweep
    grind [due, toNat_add_one]
  · grind

/-- A tick is counted: everybody who is there is a tick older, and is owed a count. -/
theorem Timed.tick (h : s.Timed) (hsweep : s.sweep = none) : ({ s with ticks := s.ticks + 1, now := s.now + 1, sweep := some 0 } : System n).Timed := by
  refine ⟨?_, fun q hused => ?_⟩
  · change s.ticks + 1 = UInt32.ofNat (s.now + 1)
    rw [h.ticks, UInt32.ofNat_add]
    rfl
  · have hold := h.slots q hused
    have hdue : s.due q = 0 := due_eq_zero fun i hi => absurd (hsweep.symm.trans hi) nofun
    refine ⟨Nat.le_succ_of_le hold.born_le, hold.ctime, fun hne hyoung => ?_, hold.died⟩
    change s.now + 1 - (s.slots q).note.born < 2 ^ 32 at hyoung
    have hborn := hold.born_le
    have hbound := hold.alive hne (by omega)
    rw [hdue] at hbound
    rw [due_of_sweep rfl]
    change (s.slots q).rtime.toNat + (if 0 ≤ (q : ℕ) ∧ (s.slots q).note.born < s.now + 1 then 1 else 0) ≤ s.now + 1 - (s.slots q).note.born
    rw [if_pos ⟨Nat.zero_le _, Nat.lt_succ_of_le hborn⟩]
    omega

theorem Timed.sweepDone (h : s.Timed) : ({ s with sweep := none } : System n).Timed := by
  refine ⟨h.ticks, fun q hused => (h.slots q hused).same .rfl rfl rfl rfl rfl rfl rfl ?_⟩
  rw [due_eq_zero (s := { s with sweep := none }) nofun]
  exact Nat.zero_le _

theorem Timed.exitZombie (h : s.Timed) {status : Int32} (hstate : (s.slots p).state = .running) :
    (s.modify p fun sl =>
      { sl with xstate := status, state := .zombie, etime := s.ticks, pc := .exitUnlock, note := { sl.note with died := s.now } }).Timed := by
  have hold := h.slots p (by rw [hstate]; exact nofun)
  have hticks := h.ticks
  refine h.modify fun _ => ?_
  constructor <;> grind

theorem Timed.move (h : s.Timed) (hok : s.Ok) (hfamily : s.Family) (hmove : s.Move e s') (hontime : s.OnTime e) : s'.Timed := by
  rcases hmove.quiet_or hok with hquiet | hloud
  · exact h.quiet hquiet
  cases hloud with
  | @exit p status _ _ => exact (h.keep (f := Slot.close) id .rfl rfl rfl rfl rfl rfl).goto p _
  | allocate _ _ _ => exact h.allocate
  | @forkParent p child _ _ _ | @reparent p q _ _ _ =>
    exact (h.keep id .rfl rfl rfl rfl rfl rfl).goto p _
  | @forkRunnable p child _ hpc =>
    have hused := hfamily.forking p child (.inr hpc)
    refine Timed.goto (h.keep (fun _ => ?_) ?_ rfl rfl rfl rfl rfl) p _
    · rw [hused]
      exact nofun
    · rw [hused]
      exact iff_of_false nofun nofun
  | reparentNext _ _ | reparentDone _ _ => exact h.goto _ _
  | exitZombie hstate _ => exact h.exitZombie hstate
  | @reap p q _ _ _ _ _ _ =>
    have hmod : (s.modify q Slot.freeproc).Timed := h.modify fun hc => absurd rfl hc
    exact (hmod.goto p .user).of_slots rfl rfl rfl rfl
  | @kill p q _ _ _ _ =>
    have hmod : (s.modify q Slot.kill).Timed := by apply h.keep <;> grind
    exact hmod.goto p _
  | tick hsweep => exact h.tick hsweep
  | sweepSlot hsweep => exact h.sweepSlot hsweep hontime
  | sweepDone _ _ => exact h.sweepDone

theorem Init.timed (h : s.Init) : s.Timed := by
  refine ⟨h.ticks, fun q hused => ?_⟩
  have hq : q = s.initproc := by
    by_contra hne
    exact hused (h.others_state q hne)
  subst hq
  have hborn : (s.slots s.initproc).note.born = s.now := by rw [h.initproc_note]
  refine ⟨Nat.le_of_eq hborn, ?_, fun _ _ => ?_, fun hc => absurd (h.initproc_state.symm.trans hc) nofun⟩
  · rw [h.initproc_ctime, hborn, h.ticks]
  · rw [h.initproc_rtime, due_eq_zero fun i hi => absurd (h.sweep.symm.trans hi) nofun]
    exact Nat.zero_le _

/-- The differences that `waitx` takes are true differences. -/
theorem TimedAt.wtime (h : s.TimedAt q) (hzombie : (s.slots q).state = .zombie) (hyoung : (s.slots q).note.died - (s.slots q).note.born < 2 ^ 31) :
    (s.slots q).rtime ≤ (s.slots q).etime - (s.slots q).ctime ∧
      ((s.slots q).etime - (s.slots q).ctime - (s.slots q).rtime).toNat = (s.slots q).note.died - (s.slots q).note.born - (s.slots q).rtime.toNat := by
  obtain ⟨hborn, hetime, hrtime⟩ := h.died hzombie
  have hage : ((s.slots q).etime - (s.slots q).ctime).toNat = (s.slots q).note.died - (s.slots q).note.born := by
    rw [hetime, h.ctime, ← UInt32.ofNat_sub hborn, UInt32.toNat_ofNat']
    exact Nat.mod_eq_of_lt (by omega)
  have hle : (s.slots q).rtime ≤ (s.slots q).etime - (s.slots q).ctime := by
    rw [UInt32.le_iff_toNat_le, hage]
    exact hrtime (by omega)
  exact ⟨hle, by rw [UInt32.toNat_sub_of_le _ _ hle, hage]⟩

/-- If `update_time` never counts a tick for a process that was made after the tick, then the waiting time that `waitx` reports is the age at which the process has exited less the time it has run. -/
theorem waiting_time (hs : Reachable Init (StepWhen OnTime next) s) (q : Fin n) (hzombie : (s.slots q).state = .zombie)
    (hyoung : (s.slots q).note.died - (s.slots q).note.born < 2 ^ 31) :
    (s.slots q).rtime ≤ (s.slots q).etime - (s.slots q).ctime ∧
      ((s.slots q).etime - (s.slots q).ctime - (s.slots q).rtime).toNat = (s.slots q).note.died - (s.slots q).note.born - (s.slots q).rtime.toNat := by
  have hall {s : System n} (hs : Reachable Init (StepWhen OnTime next) s) := ok_family (hs.mono fun _ _ => StepWhen.stepOf)
  have htimed : s.Timed := by
    refine Reachable.invariant (I := Timed) (fun s h => h.timed) (fun s s' hs h hstep => ?_) hs
    obtain ⟨e, hontime, hnext⟩ := hstep
    exact h.move (hall hs).1 (hall hs).2 (move_of_next hnext) hontime
  have hused : (s.slots q).state ≠ .unused := by
    rw [hzombie]
    exact nofun
  exact (htimed.slots q hused).wtime hzombie hyoung

/-! ### Runs -/

def onTime (s : System n) : Event n → Bool
  | .sweep =>
    match s.sweep with
    | some i => if h : i < n then !decide ((s.slots ⟨i, h⟩).state = .running ∧ (s.slots ⟨i, h⟩).ctime = s.ticks) else true
    | none => true
  | _ => true

theorem onTime_of_test (s : System n) (e : Event n) (h : s.onTime e = true) : s.OnTime e := by
  intro q he hsweep hrunning hctime
  subst he
  simp only [onTime, hsweep, q.isLt, dite_true, Fin.eta, hrunning, hctime, and_self, decide_true, Bool.not_true, Bool.false_eq_true] at h

/-- A child that runs for one of the two ticks of its life. -/
theorem waiting_time_child : ∃ s : System 2, Reachable Init (StepWhen OnTime next) s ∧
    (s.slots 1).state = .zombie ∧ (s.slots 1).note.died - (s.slots 1).note.born < 2 ^ 31 ∧
    (s.slots 1).rtime ≤ (s.slots 1).etime - (s.slots 1).ctime ∧
      ((s.slots 1).etime - (s.slots 1).ctime - (s.slots 1).rtime).toNat = (s.slots 1).note.died - (s.slots 1).note.born - (s.slots 1).rtime.toNat := by
  obtain ⟨s, hs, hzombie, _, hage⟩ : ∃ s : System 2, Reachable Init (StepWhen OnTime next) s ∧
      (s.slots 1).state = .zombie ∧ (s.slots 1).rtime = 1 ∧
      (s.slots 1).note.died - (s.slots 1).note.born = 2 :=
    exists_reachable_when onTime_of_test (init_boot 1) (.schedule 0 :: .fork 0 ⟨1, 1, true⟩ ::
      List.replicate 4 (.run 0) ++ .tick :: List.replicate 3 .sweep ++
      .schedule 1 :: .tick :: List.replicate 3 .sweep ++ .exit 1 0 :: List.replicate 8 (.run 1))
      (by decide +kernel)
  have hyoung : (s.slots 1).note.died - (s.slots 1).note.born < 2 ^ 31 := by
    rw [hage]
    decide
  exact ⟨s, hs, hzombie, hyoung, waiting_time hs 1 hzombie hyoung⟩

/-- A child is made and run between the tick and the turn of `update_time` at its slot, and exits before the next tick. -/
theorem waiting_time_wraps : ∃ s : System 2, Reachable Init (StepOf next) s ∧
    (s.slots 1).state = .zombie ∧ (s.slots 1).note.died - (s.slots 1).note.born < 2 ^ 31 ∧
    (s.slots 1).etime - (s.slots 1).ctime < (s.slots 1).rtime ∧ (s.slots 1).etime - (s.slots 1).ctime - (s.slots 1).rtime = 4294967295 := by
  exact exists_reachable_of_schedule (init_boot 1) (.schedule 0 :: .tick :: .sweep ::
    .fork 0 ⟨1, 1, true⟩ :: List.replicate 4 (.run 0) ++
    .schedule 1 :: .sweep :: .sweep :: .exit 1 0 :: List.replicate 8 (.run 1)) (by decide +kernel)

end System

end AdvancedXv6.ProcTable
