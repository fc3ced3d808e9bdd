import AdvancedXv6.ProcTable.Clean

/-!
# Waiting for children

A process sleeps in `wait` while none of its children has exited. A child that exits wakes its parent before it becomes a zombie, and both are done under `wait_lock`, so that the parent either has not yet looked at the child or is woken. An exiting process gives its children, some of which may be zombies, to `initproc`, and owes a `wakeup(initproc)` for each of them before it releases the lock.

A zombie is found by one `wait` only, since the slot is freed under the same lock.
-/

namespace AdvancedXv6.ProcTable

open Transition

variable {n : ℕ}

def Slot.Waits (sl : Slot n) : Prop := ∃ ok stage, sl.pc = .waitSleep ok stage ∧ (stage = .asleep → sl.state = .sleeping)

variable {j : ℕ} {pc0 done : Pc n} {f : Slot n → Slot n} {chan : Option (Chan n)} {status : Int32}

namespace Pc

def scanned : Pc n → ℕ
  | .waitScan _ i _ => i
  | _ => 0

def woken : Pc n → ℕ
  | .exitWake _ j => j
  | .exitZombie _ => n
  | _ => 0

/-- The process is in `wakeup(initproc)`, and has not come past slot `p`. -/
def Covers (p : Fin n) : Pc n → Prop
  | .reparentWake _ _ j => j ≤ p
  | _ => False

theorem holdsWait_of_scanned {pc : Pc n} (h : j < pc.scanned) : pc.holdsWait = true := by
  cases pc with
  | waitScan => rfl
  | _ => exact absurd h (Nat.not_lt_zero _)

theorem holdsWait_of_woken {pc : Pc n} (h : j < pc.woken) : pc.holdsWait = true := by
  cases pc with
  | exitWake | exitZombie => rfl
  | _ => exact absurd h (Nat.not_lt_zero _)

theorem holdsWait_of_covers {pc : Pc n} {p : Fin n} (h : pc.Covers p) : pc.holdsWait = true := by
  cases pc with
  | reparentWake => rfl
  | _ => exact h.elim

end Pc

namespace Slot

variable {q : Fin n} {sl sl' sl'' : Slot n} {pc : Pc n}

@[simp] theorem wakeup_pc (sl : Slot n) (chan : Chan n) : (sl.wakeup chan).pc = sl.pc := by
  unfold wakeup
  split <;> rfl

/-- `wakeup` gets whoever waits. -/
theorem Ok.not_waits_wakeup (h : sl.Ok q) (hown : sl.pc.holdsOwn = false) (hwait : sl.pc.holdsWait = false) : ¬ (sl.wakeup (.proc q)).Waits := by
  rintro ⟨ok, stage, hpc, hasleep⟩
  rw [wakeup_pc] at hpc
  rw [hpc] at hown hwait
  have hstage : stage = .asleep := by
    cases stage with
    | lock | unlock => cases hwait
    | mark | switch => cases hown
    | asleep => rfl
  have hstate := hasleep hstage
  unfold Slot.wakeup at hstate
  split at hstate
  · cases hstate
  · rename_i hnot
    rcases h.sleeping hstate with ⟨hblocked, _⟩ | ⟨_, hchan⟩
    · exact absurd (hpc.symm.trans hblocked) nofun
    · exact hnot ⟨hstate, hchan⟩

/-- A change of a slot that neither starts to wait nor exits, and goes on with no loop that others depend on. -/
@[grind cases] structure Calm (sl sl' : Slot n) : Prop where
  waits : sl'.Waits → sl.Waits
  exited : ∀ p, sl'.parent = some p → sl'.state = .zombie → sl.parent = some p ∧ sl.state = .zombie
  scanned : sl'.pc.scanned ≤ sl.pc.scanned
  woken : ∀ p : Fin n, p < sl'.pc.woken → sl'.parent = some p → p < sl.pc.woken ∧ sl.parent = some p
  covers : ∀ p, sl.pc.Covers p → sl'.pc.Covers p

namespace Calm

theorem refl (sl : Slot n) : Calm sl sl := ⟨id, fun _ => And.intro, Nat.le_refl _, fun _ => And.intro, fun _ => id⟩

theorem trans (h : Calm sl sl') (h' : Calm sl' sl'') : Calm sl sl'' := by
  constructor <;> grind

theorem stays (hpc : sl'.pc = sl.pc) (hparent : sl'.parent = sl.parent) (hsleeping : sl'.state = .sleeping → sl.state = .sleeping)
    (hzombie : sl'.state = .zombie → sl.state = .zombie) : Calm sl sl' := by
  constructor <;> grind [Slot.Waits]

theorem leaves (hpc : sl.pc = pc0) (hpc' : sl'.pc = pc) (hzombie : ∀ p, sl'.parent = some p →
    sl'.state = .zombie → sl.parent = some p ∧ sl.state = .zombie)
    (hwaits : ∀ ok stage, pc ≠ .waitSleep ok stage) (hscanned : pc.scanned = 0) (hwoken : pc.woken = 0) (hcovers : ∀ p, ¬ pc0.Covers p) : Calm sl sl' := by
  constructor <;> grind [Slot.Waits]

theorem sleeps {ok : Bool} {stage stage' : Stage} (hpc : sl.pc = .waitSleep ok stage) (hpc' : sl'.pc = .waitSleep ok stage') (hstage : stage ≠ .asleep)
    (hzombie : sl'.state ≠ .zombie) : Calm sl sl' := by
  constructor <;> grind [Slot.Waits, Pc.scanned, Pc.woken, Pc.Covers]

end Calm

end Slot

namespace System

variable {s s' : System n} {p q r : Fin n} {e : Event n} {pc : Pc n}

theorem modify_pc (hf : (f (s.slots q)).pc = (s.slots q).pc) : ((s.modify q f).slots p).pc = (s.slots p).pc := by
  grind

theorem modify_modify (g : Slot n → Slot n) : (s.modify p g).modify p f = s.modify p fun sl => f (g sl) := by
  simp [System.modify]

theorem goto_modify (hne : q ≠ p) : (s.goto p pc).modify q f = (s.modify q f).goto p pc := by
  simp [System.goto, System.modify, hne, Ne.symm hne, Function.update_comm hne]

/-! ### The lock -/

/-- Whoever is at a line that is under `wait_lock` has it. -/
def Held (s : System n) : Prop := ∀ p, (s.slots p).pc.holdsWait = true → s.waitLock = some p

section

variable (h : s.Held)
include h

theorem Held.eq (hp : (s.slots p).pc.holdsWait = true) (hq : (s.slots q).pc.holdsWait = true) : p = q := Option.some.inj ((h p hp).symm.trans (h q hq))

theorem Held.not_holds (hp : (s.slots p).pc.holdsWait = true) (hne : q ≠ p) : (s.slots q).pc.holdsWait = false :=
  Bool.eq_false_iff.mpr fun hq => hne (h.eq hq hp)

theorem Held.scanned_eq_zero (hpc : (s.slots p).pc = pc0) (hholds : pc0.holdsWait = true)
    (hzero : pc0.scanned = 0) (r : Fin n) : (s.slots r).pc.scanned = 0 := by
  by_contra hne
  obtain rfl := h.eq (Pc.holdsWait_of_scanned (Nat.pos_of_ne_zero hne)) ((congrArg Pc.holdsWait hpc).trans hholds)
  exact hne ((congrArg Pc.scanned hpc).trans hzero)

theorem Held.modify (hf : (f (s.slots p)).pc.holdsWait = true → (s.slots p).pc.holdsWait = true) : (s.modify p f).Held := by
  grind [Held]

theorem Held.goto (hpc : (s.slots p).pc = pc0) (hholds : pc.holdsWait = true → pc0.holdsWait = true) : (s.goto p pc).Held :=
  h.modify fun hc => hpc ▸ hholds hc

theorem Held.idle (hpc : pc.holdsWait = false) : (s.goto p pc).Held := h.goto rfl fun hc => absurd (hpc.symm.trans hc) nofun

theorem Held.acquire (hfree : s.waitLock = none) : ({ s with waitLock := some p }.goto p pc).Held := by
  grind [Held]

theorem Held.release (hpc0 : (s.slots p).pc = pc0) (hholds : pc0.holdsWait = true) (hpc : pc.holdsWait = false) : (s.release p pc).Held := by
  grind [Held]

end

theorem Waking.holdsWait {next : Pc n} (h : s.Waking p chan j next done) : (s.slots p).pc.holdsWait = true := by
  cases h with
  | reparent hpc | exit hpc => exact congrArg Pc.holdsWait hpc

theorem Held.move (h : s.Held) (hmove : s.Move e s') : s'.Held := by
  cases hmove with
  | fork _ _ | wait _ _ | kill _ _ | forkNext _ _ | forkFail _ _ | exitSwitch _ | sleepSwitch _
  | killNext _ _ | killFail _ _ => exact h.idle rfl
  | change _ _ | unblock _ _ | schedule _ | yield _ _ _ => exact h.modify id
  | block _ _ | blockedDone _ _ | sleepMark _ | sleepDone _ _ => exact h.modify nofun
  | exitLock _ _ hfree | waitLock _ _ hfree => exact h.acquire hfree
  | reparentNext _ hpc _ | reparentDone _ hpc _ | waitNext _ hpc _ | waitSleep _ hpc _
  | sleepLock _ hpc => exact h.goto hpc fun _ => rfl
  | wakeSelf _ hwaking | wakeNone _ hwaking _ | wakeDone _ hwaking _ =>
    exact h.goto rfl fun _ => hwaking.holdsWait
  | exitZombie _ hpc => exact h.modify fun _ => congrArg Pc.holdsWait hpc
  | exitUnlock hpc | waitLeave _ hpc | sleepUnlock hpc => exact h.release hpc rfl rfl
  | wakeSlot _ hwaking _ _ =>
    have hholds := hwaking.holdsWait
    grind [Held]
  | @allocate p q alloc _ _ _ =>
    have hmade := (s.slots q).forkInto_cases (s.slots p) alloc s.nextpid s.ticks s.created s.now
    grind [Held, System.allocate, Pc.holdsWait]
  | _ => grind [Held, Pc.holdsWait, System.reap]

/-! ### Sleepers -/

/-- `wait` has not found an exited child in the slots it has looked at; whom `exit` has come past in `wakeup(p->parent)` does not wait; and if a process waits while a child of it is a zombie, then it is `initproc`, and somebody is on the way to wake it. -/
@[grind cases] structure Watched (s : System n) : Prop where
  scanned : ∀ p j : Fin n, j < (s.slots p).pc.scanned → (s.slots j).parent = some p → (s.slots j).state ≠ .zombie
  called : ∀ w p : Fin n, p < (s.slots w).pc.woken → (s.slots w).parent = some p → ¬ (s.slots p).Waits
  covered : ∀ p q, (s.slots p).Waits → (s.slots q).parent = some p → (s.slots q).state = .zombie → p = s.initproc ∧ ∃ w, (s.slots w).pc.Covers p

@[grind cases] structure Calm (s s' : System n) : Prop where
  slots : ∀ q, (s.slots q).Calm (s'.slots q)
  initproc : s'.initproc = s.initproc

theorem Calm.trans {s'' : System n} (h : s.Calm s') (h' : s'.Calm s'') : s.Calm s'' :=
  ⟨fun q => (h.slots q).trans (h'.slots q), h'.initproc.trans h.initproc⟩

theorem calm_modify (h : (s.slots p).Calm (f (s.slots p))) : s.Calm (s.modify p f) := by
  exact ⟨s.forall_modify (P := fun q => (s.slots q).Calm) h fun q => .refl _, rfl⟩

theorem Calm.of_slots {s1 : System n} (h : s.Calm s1) (hslots : s'.slots = s1.slots) (hinit : s'.initproc = s1.initproc) : s.Calm s' := by
  refine ⟨fun q => ?_, hinit.trans h.initproc⟩
  rw [hslots]
  exact h.slots q

theorem calm_goto (hpc : (s.slots p).pc = pc0) (hwaits : ∀ ok stage, pc ≠ .waitSleep ok stage) (hscanned : pc.scanned = 0) (hwoken : pc.woken = 0)
    (hcovers : ∀ p, ¬ pc0.Covers p) : s.Calm (s.goto p pc) :=
  calm_modify (.leaves hpc rfl (fun _ => And.intro) hwaits hscanned hwoken hcovers)

theorem calm_lock {lock : Option (Fin n)} (hpc : (s.slots p).pc = pc0) (hwaits : ∀ ok stage, pc ≠ .waitSleep ok stage) (hscanned : pc.scanned = 0)
    (hwoken : pc.woken = 0) (hcovers : ∀ p, ¬ pc0.Covers p) : s.Calm ({ s with waitLock := lock }.goto p pc) :=
  ⟨(calm_goto hpc hwaits hscanned hwoken hcovers).slots, rfl⟩

theorem Watched.calm (h : s.Watched) (hcalm : s.Calm s') : s'.Watched := by
  have hslots := hcalm.slots
  constructor <;> grind

section

variable (s : System n) (p q : Fin n) (pc : Pc n)

@[simp] theorem goto_parent : ((s.goto p pc).slots q).parent = (s.slots q).parent := s.map_goto p q pc Slot.parent fun _ => rfl

@[simp] theorem goto_state : ((s.goto p pc).slots q).state = (s.slots q).state := s.map_goto p q pc Slot.state fun _ => rfl

end

section

variable (h : s.Watched)
include h

theorem Watched.goto (hfamily : s.Family) (hscanned : ∀ j : Fin n, j < pc.scanned → (s.slots j).parent = some p → (s.slots j).state ≠ .zombie)
    (hwoken : ∀ r : Fin n, r < pc.woken → (s.slots p).parent = some r → ¬ (s.slots r).Waits)
    (hwaits : (∃ ok stage, pc = .waitSleep ok stage) → (∀ q, (s.slots q).parent = some p → (s.slots q).state ≠ .zombie) ∧
      ∀ w, (s.slots w).parent = some p → (s.slots w).pc.woken = 0)
    (hcovers : (s.slots s.initproc).Waits → (s.slots p).pc.Covers s.initproc → pc.Covers s.initproc) : (s.goto p pc).Watched := by
  have hirrefl := hfamily.irrefl
  clear hfamily
  have hself (hp : ((s.goto p pc).slots p).Waits) := hwaits (by
    obtain ⟨ok, stage, hpc, _⟩ := hp
    rw [slots_goto_self] at hpc
    exact ⟨ok, stage, hpc⟩)
  clear hwaits
  refine ⟨by grind, by grind, fun r q hr hparent hzombie => ?_⟩
  rw [goto_parent] at hparent
  rw [goto_state] at hzombie
  by_cases hrp : r = p
  · grind
  · rw [slots_goto_of_ne _ _ hrp] at hr
    obtain ⟨hinit, w, hw⟩ := h.covered r q hr hparent hzombie
    refine ⟨hinit, w, ?_⟩
    by_cases hwp : w = p
    · rw [hwp, slots_goto_self, hinit]
      exact hcovers (hinit ▸ hr) (hinit ▸ hwp ▸ hw)
    · rw [slots_goto_of_ne _ _ hwp]
      exact hw

/-- The parent or the state of slot `q` changes while nobody scans the table. -/
theorem Watched.modify (hpc : (f (s.slots q)).pc = (s.slots q).pc) (hwaits : (f (s.slots q)).Waits → (s.slots q).Waits)
    (hwoken : (s.slots q).pc.woken = 0) (hscanned : ∀ r, (s.slots r).pc.scanned = 0)
    (hcovered : ∀ r, (f (s.slots q)).parent = some r → (s.slots r).Waits → r = s.initproc ∧ ∃ w, (s.slots w).pc.Covers r) : (s.modify q f).Watched := by
  have hpc' (r : Fin n) : ((s.modify q f).slots r).pc = (s.slots r).pc := modify_pc hpc
  constructor
  · grind
  · grind
  · simp only [hpc']
    grind

/-- A process at the end of `exit` has woken its parent. -/
theorem Watched.exitZombie (hheld : s.Held) (hpc : (s.slots p).pc = .exitZombie status) :
    (s.modify p fun sl =>
      { sl with xstate := status, state := .zombie, etime := s.ticks, pc := .exitUnlock, note := { sl.note with died := s.now } }).Watched := by
  have hcalm : s.Calm (s.goto p .exitUnlock) := calm_goto hpc (fun _ _ => nofun) rfl rfl fun _ => id
  have hmod := (h.calm hcalm).modify (q := p)
    (f := fun sl =>
      { sl with
        xstate := status, state := .zombie, etime := s.ticks,
        note := { sl.note with died := s.now } }) rfl
    (fun ⟨ok, stage, hwaits, _⟩ => by rw [slots_goto_self] at hwaits; cases hwaits) (by rw [slots_goto_self]; rfl)
    (fun r => Nat.le_zero.mp (hheld.scanned_eq_zero hpc rfl rfl r ▸ (hcalm.slots r).scanned)) fun r hparent hwaits => ?_
  · unfold System.goto at hmod
    rw [modify_modify] at hmod
    exact hmod
  · refine absurd ((hcalm.slots r).waits hwaits) (h.called p r ?_ ?_)
    · rw [hpc]
      exact r.isLt
    · rwa [slots_goto_self] at hparent

theorem Watched.reparent (hheld : s.Held) (hfamily : s.Family) (hpc : (s.slots p).pc = .reparent status q) (hparent : (s.slots q).parent = some p) :
    ((s.modify q fun sl => { sl with parent := some s.initproc }).goto p (.reparentWake status q 0)).Watched := by
  have hqp : q ≠ p := by
    rintro rfl
    exact hfamily.irrefl q hparent
  have hcalm : s.Calm (s.goto p (.reparentWake status q 0)) := calm_goto hpc (fun _ _ => nofun) rfl rfl fun _ => id
  have hself : (s.goto p (.reparentWake status q 0)).slots q = s.slots q := slots_goto_of_ne s _ hqp
  have hnot := hheld.not_holds (congrArg Pc.holdsWait hpc) hqp
  have hmod := (h.calm hcalm).modify (q := q) (f := fun sl => { sl with parent := some s.initproc }) rfl id
    (by rw [hself]; by_contra hne; exact absurd (hnot.symm.trans (Pc.holdsWait_of_woken (Nat.pos_of_ne_zero hne))) nofun)
    (fun r => Nat.le_zero.mp (hheld.scanned_eq_zero hpc rfl rfl r ▸ (hcalm.slots r).scanned)) fun r hr _ => ?_
  · rwa [goto_modify hqp] at hmod
  · refine ⟨(Option.some.inj hr).symm, p, ?_⟩
    rw [slots_goto_self]
    exact Nat.zero_le _

/-- `wakeup` goes on to the next slot, after the process in slot `q` has been woken or does not wait. -/
theorem Watched.wakeNext (hfamily : s.Family) {next : Pc n} (hwaking : s.Waking p chan q next done)
    (hq : chan = some (.proc q) → ¬ (s.slots q).Waits) : (s.goto p next).Watched := by
  cases hwaking with
  | reparent hpc =>
    refine h.goto hfamily (fun j hj => absurd hj (Nat.not_lt_zero _))
      (fun r hr => absurd hr (Nat.not_lt_zero _)) (fun ⟨_, _, hc⟩ => nomatch hc)
      fun hwaits hcovers => ?_
    rw [hpc] at hcovers
    have hle : (q : ℕ) ≤ s.initproc := hcovers
    have hne : (q : ℕ) ≠ s.initproc := fun hc => hq (by rw [Fin.ext hc]) (Fin.ext hc ▸ hwaits)
    exact Nat.lt_of_le_of_ne hle hne
  | exit hpc =>
    refine h.goto hfamily (fun j hj => absurd hj (Nat.not_lt_zero _)) (fun r hr hparent => ?_) (fun ⟨_, _, hc⟩ => nomatch hc) fun _ hcovers => ?_
    · rcases Nat.lt_succ_iff_lt_or_eq.mp hr with hlt | heq
      · refine h.called p r ?_ hparent
        rw [hpc]
        exact hlt
      · obtain rfl : r = q := Fin.ext heq
        exact hq (by rw [hparent, Option.map_some])
    · rw [hpc] at hcovers
      exact hcovers.elim

theorem Watched.wakeDone (hfamily : s.Family) {next : Pc n} (hwaking : s.Waking p chan j next done)
    (hj : n ≤ j) : (s.goto p done).Watched := by
  cases hwaking with
  | reparent hpc =>
    refine h.goto hfamily (fun j hj => absurd hj (Nat.not_lt_zero _))
      (fun r hr => absurd hr (Nat.not_lt_zero _)) (fun ⟨_, _, hc⟩ => nomatch hc) fun _ hcovers => ?_
    rw [hpc] at hcovers
    exact absurd (Nat.lt_of_le_of_lt (Nat.le_trans hj hcovers) s.initproc.isLt) (Nat.lt_irrefl _)
  | exit hpc =>
    refine h.goto hfamily (fun j hj => absurd hj (Nat.not_lt_zero _)) (fun r hr hparent => ?_) (fun ⟨_, _, hc⟩ => nomatch hc) fun _ hcovers => ?_
    · refine h.called p r ?_ hparent
      rw [hpc]
      exact Nat.lt_of_lt_of_le r.isLt hj
    · rw [hpc] at hcovers
      exact hcovers.elim

end

/-- The process whose slot it is does not wait for itself. -/
theorem Waking.not_self (hfamily : s.Family) {next : Pc n} (h : s.Waking p chan j next done) : chan ≠ some (.proc p) := by
  intro hc
  cases h with
  | reparent hpc =>
    exact hfamily.ne_init hpc rfl (Chan.proc.inj (Option.some.inj hc)).symm
  | exit hpc =>
    obtain ⟨r, hr, heq⟩ := Option.map_eq_some_iff.mp hc
    rw [Chan.proc.inj heq] at hr
    exact hfamily.irrefl p hr

theorem Waking.modify_of_ne {next : Pc n} (h : s.Waking p chan j next done) (hne : q ≠ p) :
    (s.modify q f).Waking p chan j next done := by
  have hslot : (s.modify q f).slots p = s.slots p := slots_modify_of_ne s f (Ne.symm hne)
  cases h with
  | reparent hpc => exact .reparent (by rw [hslot, hpc])
  | exit hpc =>
    rw [← hslot]
    exact .exit (by rw [hslot, hpc])

theorem Watched.wakeSlot (h : s.Watched) (hok : s.Ok) (hheld : s.Held) (hfamily : s.Family)
    {chan : Chan n} {next : Pc n} (hwaking : s.Waking p (some chan) q next done)
    (hne : q ≠ p) (hfree : (s.slots q).pc.holdsOwn = false) : ((s.modify q (·.wakeup chan)).goto p next).Watched := by
  have hcalm : s.Calm (s.modify q (·.wakeup chan)) := by
    exact calm_modify (by apply Slot.Calm.stays <;> grind)
  have hfamily' : (s.modify q (·.wakeup chan)).Family := hfamily.quiet (quiet_modify (.wakeup _ _))
  refine (h.calm hcalm).wakeNext hfamily' (hwaking.modify_of_ne hne) fun hchan => ?_
  rw [slots_modify_self, Option.some.inj hchan]
  exact (hok q).not_waits_wakeup hfree (hheld.not_holds hwaking.holdsWait hne)

theorem Watched.move (h : s.Watched) (hok : s.Ok) (hheld : s.Held) (hfamily : s.Family) (hmove : s.Move e s') : s'.Watched := by
  cases hmove with
  | fork _ hpc | wait _ hpc | kill _ hpc | forkNext _ hpc | forkFail _ hpc | reparentNext _ hpc _
  | reparentDone _ hpc _ | exitSwitch hpc | killNext _ hpc | killFail _ hpc =>
    exact h.calm (calm_goto hpc (fun _ _ => nofun) rfl rfl fun _ => id)
  | @exit p _ _ _ hpc =>
    have hclose : s.Calm (s.modify p Slot.close) := calm_modify (.stays rfl rfl id id)
    exact h.calm (hclose.trans (calm_goto ((modify_pc rfl).trans hpc) (fun _ _ => nofun) rfl rfl fun _ => id))
  | change _ _ => exact h.calm (calm_modify (.stays rfl rfl id id))
  | block _ hpc => exact h.calm (calm_modify (.leaves hpc rfl (fun _ _ => nofun) (fun _ _ => nofun) rfl rfl fun _ => id))
  | unblock _ _ | schedule _ | yield _ _ _ =>
    exact h.calm (calm_modify (.stays rfl rfl nofun nofun))
  | tick _ | sweepDone _ _ => exact h.calm ⟨fun _ => .refl _, rfl⟩
  | @sweepSlot q _ _ =>
    have hmod : s.Calm (s.modify q Slot.updateTime) := calm_modify (by apply Slot.Calm.stays <;> grind)
    exact h.calm (hmod.of_slots rfl rfl)
  | blockedDone _ hpc | sleepDone _ hpc =>
    exact h.calm (calm_modify (.leaves hpc rfl (fun _ => And.intro) (fun _ _ => nofun) rfl rfl fun _ => id))
  | @allocate p q alloc hstate hpc hunused =>
    have hne : p ≠ q := by
      rintro rfl
      exact absurd (hunused.symm.trans hstate) nofun
    have hcovers (r : Fin n) : ¬ (s.slots q).pc.Covers r := by
      rcases ((hok q).unused hunused).1 with hpc | hpc <;> rw [hpc] <;> exact id
    have hmod : s.Calm (s.modify q fun _ => ((s.slots q).forkInto (s.slots p) alloc s.nextpid s.ticks s.created s.now).1) := by
      refine calm_modify ?_
      rcases (s.slots q).forkInto_cases (s.slots p) alloc s.nextpid s.ticks s.created s.now with ⟨sl, heq, hused, hpc, _⟩ | ⟨sl, heq, hpc, _⟩
      · rw [heq]
        refine .leaves rfl hpc (fun _ _ hc => ?_) (fun _ _ => nofun) rfl rfl hcovers
        exact absurd (hused.symm.trans hc) nofun
      · rw [heq]
        exact .leaves rfl hpc (fun _ => nofun) (fun _ _ => nofun) rfl rfl hcovers
    have hpc' := (congrArg Slot.pc (slots_modify_of_ne s
      (fun _ => ((s.slots q).forkInto (s.slots p) alloc s.nextpid s.ticks s.created s.now).1)
      hne)).trans hpc
    have hgoto := fun made : Bool => calm_goto hpc'
      (show ∀ ok stage, (if made then Pc.forkParent q else .user) ≠ .waitSleep ok stage by
        cases made <;> exact fun _ _ => nofun)
      (by cases made <;> rfl) (by cases made <;> rfl) fun _ => id
    exact h.calm ((hmod.trans (hgoto _)).of_slots rfl rfl)
  | @forkParent p child hstate hpc _ =>
    have hused := hfamily.forking p child (.inl hpc)
    have hmod : s.Calm (s.modify child fun sl => { sl with parent := some p }) :=
      calm_modify (.leaves ((hok child).used hused) ((hok child).used hused)
        (fun _ _ hc => absurd (hused.symm.trans hc) nofun) (fun _ _ => nofun) rfl rfl fun _ => id)
    exact h.calm (hmod.trans (calm_goto ((modify_pc rfl).trans hpc) (fun _ _ => nofun) rfl rfl fun _ => id))
  | @forkRunnable p child hstate hpc =>
    have hmod : s.Calm (s.modify child fun sl => { sl with state := .runnable }) := calm_modify (.stays rfl rfl nofun nofun)
    exact h.calm (hmod.trans (calm_goto ((modify_pc rfl).trans hpc) (fun _ _ => nofun) rfl rfl fun _ => id))
  | exitLock _ hpc _ | exitUnlock hpc | waitLock _ hpc _ | waitLeave _ hpc =>
    exact h.calm (calm_lock hpc (fun _ _ => nofun) rfl rfl fun _ => id)
  | reparent _ hpc hparent => exact h.reparent hheld hfamily hpc hparent
  | wakeSelf _ hwaking => exact h.wakeNext hfamily hwaking fun hc => absurd hc (hwaking.not_self hfamily)
  | wakeNone _ hwaking _ => exact h.wakeNext hfamily hwaking nofun
  | wakeSlot _ hwaking hne hfree => exact h.wakeSlot hok hheld hfamily hwaking hne hfree
  | wakeDone _ hwaking hj => exact h.wakeDone hfamily hwaking hj
  | exitZombie _ hpc => exact h.exitZombie hheld hpc
  | @reap p q ok havekids hstate hpc hparent hzombie hfree =>
    have hmod : s.Calm (s.modify q Slot.freeproc) := by
      refine calm_modify ⟨fun hc => ?_, fun _ => nofun, Nat.le_refl _, fun _ _ => nofun, fun _ => id⟩
      obtain ⟨ok', stage, hpc', _⟩ := hc
      rcases (hok q).zombie hzombie with hq | hq | hq <;> exact absurd (hq.symm.trans hpc') nofun
    have hcalm : s.Calm ((s.modify q Slot.freeproc).goto p .user) :=
      hmod.trans (calm_goto ((modify_pc rfl).trans hpc) (fun _ _ => nofun) rfl rfl fun _ => id)
    exact h.calm (hcalm.of_slots rfl rfl)
  | @waitNext p q ok havekids havekids' _ hpc hzombie =>
    refine h.goto hfamily (fun j hj hparent => ?_) (fun r hr => absurd hr (Nat.not_lt_zero _)) (fun ⟨_, _, hc⟩ => nomatch hc) fun _ hcovers => ?_
    · rcases Nat.lt_succ_iff_lt_or_eq.mp hj with hlt | heq
      · refine h.scanned p j ?_ hparent
        rw [hpc]
        exact hlt
      · obtain rfl : j = q := Fin.ext heq
        exact hzombie hparent
    · rw [hpc] at hcovers
      exact hcovers.elim
  | @waitSleep p ok havekids i _ hpc hi =>
    have hholds : (s.slots p).pc.holdsWait = true := congrArg Pc.holdsWait hpc
    refine h.goto hfamily (fun j hj => absurd hj (Nat.not_lt_zero _))
      (fun r hr => absurd hr (Nat.not_lt_zero _)) (fun _ => ⟨fun q => ?_, fun w hparent => ?_⟩)
      fun _ hcovers => ?_
    · refine h.scanned p q ?_
      rw [hpc]
      exact Nat.lt_of_lt_of_le q.isLt hi
    · by_contra hne
      obtain rfl := hheld.eq (Pc.holdsWait_of_woken (Nat.pos_of_ne_zero hne)) hholds
      exact hfamily.irrefl w hparent
    · rw [hpc] at hcovers
      exact hcovers.elim
  | sleepLock hstate hpc => exact h.calm (calm_modify (.sleeps hpc rfl (by decide) fun hc => absurd (hstate.symm.trans hc) nofun))
  | @sleepUnlock p ok hpc =>
    have hawake := (hok p).awake_of_sleep hpc nofun nofun
    have hzombie : (s.slots p).state ≠ .zombie := fun hc => by
      rw [hc] at hawake
      exact hawake.elim nofun nofun
    have hcalm : s.Calm (s.goto p (.waitSleep ok .mark)) := calm_modify (.sleeps hpc rfl (by decide) hzombie)
    exact h.calm (hcalm.of_slots rfl rfl)
  | sleepMark hpc => exact h.calm (calm_modify (.sleeps hpc rfl (by decide) nofun))
  | @sleepSwitch p ok hpc =>
    have hstate := ((hok p).sleeping_of_switch hpc).1
    exact h.calm (calm_modify (.sleeps hpc rfl (by decide) fun hc => absurd (hstate.symm.trans hc) nofun))
  | @killSlot p q _ _ hpc _ _ =>
    have hmod : s.Calm (s.modify q Slot.kill) := calm_modify (by apply Slot.Calm.stays <;> grind)
    exact h.calm (hmod.trans (calm_goto ((modify_pc rfl).trans hpc) (fun _ _ => nofun) rfl rfl fun _ => id))

theorem Init.held (h : s.Init) : s.Held := by
  intro p hp
  rw [h.pc p] at hp
  cases hp

theorem Init.watched (h : s.Init) : s.Watched := by
  have hpc := h.pc
  constructor <;> grind [Pc.scanned, Pc.woken, Slot.Waits]

theorem held_watched (hs : Reachable Init (StepOf next) s) : s.Held ∧ s.Watched := by
  refine Reachable.invariant (I := fun s => s.Held ∧ s.Watched) (fun s h => ⟨h.held, h.watched⟩) (fun s s' hs h hstep => ?_) hs
  obtain ⟨e, hnext⟩ := hstep
  have hmove := move_of_next hnext
  exact ⟨h.1.move hmove, h.2.move (ok_family hs).1 h.1 (ok_family hs).2 hmove⟩

/-! ### Children that have been found -/

/-- No two processes have the same number, also among those that `wait` has found; and `wait` has found them for their parents. -/
@[grind cases] structure Numbered (s : System n) : Prop where
  fresh : ∀ q, (s.slots q).state ≠ .unused → (s.slots q).note.number < s.created
  single : ∀ q r, (s.slots q).state ≠ .unused → (s.slots r).state ≠ .unused → (s.slots q).note.number = (s.slots r).note.number → q = r
  gone : ∀ c ∈ s.reaped, c.number < s.created ∧ ∀ q, (s.slots q).state ≠ .unused → (s.slots q).note.number ≠ c.number
  once : (s.reaped.map Reaped.number).Nodup
  parent : ∀ c ∈ s.reaped, c.parent = some c.waiter

section

variable (h : s.Numbered)
include h

theorem Numbered.same (hslots : ∀ q, (s'.slots q).state ≠ .unused → (s.slots q).state ≠ .unused ∧ (s'.slots q).note.number = (s.slots q).note.number)
    (hcreated : s'.created = s.created) (hreaped : s'.reaped = s.reaped) : s'.Numbered := by
  constructor <;> grind

theorem Numbered.modify (hf : (f (s.slots q)).state ≠ .unused → (s.slots q).state ≠ .unused ∧
    (f (s.slots q)).note.number = (s.slots q).note.number) : (s.modify q f).Numbered := by
  exact h.same (by grind) rfl rfl

theorem Numbered.goto (p : Fin n) (pc : Pc n) : (s.goto p pc).Numbered := h.modify fun hused => ⟨hused, rfl⟩

theorem Numbered.allocate {alloc : Alloc} : (s.allocate p q alloc).Numbered := by
  generalize hf : (s.slots q).forkInto (s.slots p) alloc s.nextpid s.ticks s.created s.now = made
  have hmade : made.1.state ≠ .unused → made.1.note.number = s.created := by
    intro hused
    rcases (s.slots q).forkInto_cases (s.slots p) alloc s.nextpid s.ticks s.created s.now with ⟨sl, heq, _, _, _, _, _, _, hnote⟩ | ⟨sl, heq, _⟩
    · rw [← hf, heq]
      exact congrArg Note.number hnote
    · rw [← hf, heq] at hused
      exact absurd rfl hused
  have hmod : ({ s.modify q fun _ => made.1 with nextpid := s.nextpid + 1, created := s.created + 1 } : System n).Numbered := by
    constructor <;> grind
  unfold System.allocate
  rw [hf]
  exact hmod.goto p _

theorem Numbered.reap (hparent : (s.slots q).parent = some p) (hzombie : (s.slots q).state = .zombie) : (s.reap p q).Numbered := by
  have hslots {r : Fin n} (hr : ((s.reap p q).slots r).state ≠ .unused) :
      r ≠ q ∧ (s.slots r).state ≠ .unused ∧
        ((s.reap p q).slots r).note.number = (s.slots r).note.number := by
    grind [System.reap]
  constructor <;> grind [System.reap, List.nodup_append]

theorem Numbered.move (hok : s.Ok) (hfamily : s.Family) (hmove : s.Move e s') : s'.Numbered := by
  rcases hmove.quiet_or hok with hquiet | hloud
  · refine h.same (fun q hq => ⟨fun hc => hq ((hquiet.slots q).unused.mpr hc), ?_⟩) hquiet.created hquiet.reaped
    rw [(hquiet.slots q).note]
  cases hloud with
  | @exit p _ _ _ => exact (h.modify (f := Slot.close) fun hused => ⟨hused, rfl⟩).goto p _
  | allocate _ _ _ => exact h.allocate
  | @forkParent p child _ _ _ =>
    have hmod : (s.modify child fun sl => { sl with parent := some p }).Numbered := h.modify fun hused => ⟨hused, rfl⟩
    exact hmod.goto p _
  | @forkRunnable p child _ hpc =>
    have hused := hfamily.forking p child (.inr hpc)
    have hmod : (s.modify child fun sl => { sl with state := .runnable }).Numbered := h.modify (by grind)
    exact hmod.goto p _
  | @reparent p q _ _ _ =>
    have hmod : (s.modify q fun sl => { sl with parent := some s.initproc }).Numbered := h.modify fun hused => ⟨hused, rfl⟩
    exact hmod.goto p _
  | reparentNext _ _ | reparentDone _ _ => exact h.goto _ _
  | exitZombie hstate _ => exact h.modify (by grind)
  | reap _ _ hparent hzombie => exact h.reap hparent hzombie
  | @kill p q _ _ _ _ =>
    have hmod : (s.modify q Slot.kill).Numbered := h.modify (by grind)
    exact hmod.goto p _
  | tick _ | sweepDone _ _ => exact h.same (fun _ hq => ⟨hq, rfl⟩) rfl rfl
  | @sweepSlot q _ =>
    have hmod : (s.modify q Slot.updateTime).Numbered := h.modify (by grind)
    exact hmod.same (fun _ hq => ⟨hq, rfl⟩) rfl rfl

end

theorem Init.numbered (h : s.Init) : s.Numbered := by
  have hinit {q : Fin n} (hq : (s.slots q).state ≠ .unused) : q = s.initproc := by
    by_contra hne
    exact hq (h.others_state q hne)
  have hreaped := h.reaped
  have hcreated := h.created
  have hnote := h.initproc_note
  constructor <;> grind

theorem numbered (hs : Reachable Init (StepOf next) s) : s.Numbered := by
  refine Reachable.invariant (I := Numbered) (fun s h => h.numbered) (fun s s' hs h hstep => ?_) hs
  obtain ⟨e, hnext⟩ := hstep
  exact h.move (ok_family hs).1 (ok_family hs).2 (move_of_next hnext)

/-- When `wait_lock` is free, parents are alive and nobody sleeps in `wait` with an exited child; and `wait` finds each child once, for its parent. -/
theorem children_reaped (hs : Reachable Init (StepOf next) s) :
    (s.waitLock = none →
      (∀ q r, q ≠ s.initproc → (s.slots q).state ≠ .unused → (s.slots q).parent = some r → (s.slots r).state ≠ .unused ∧ (s.slots r).state ≠ .zombie) ∧
      ∀ p, (s.slots p).state = .sleeping → (s.slots p).chan = some (.proc p) → ∀ q, (s.slots q).parent = some p → (s.slots q).state ≠ .zombie) ∧
    (s.reaped.map Reaped.number).Nodup ∧ (∀ c ∈ s.reaped, c.parent = some c.waiter) ∧
    ∀ c ∈ s.reaped, ∀ q, (s.slots q).state ≠ .unused → (s.slots q).note.number ≠ c.number := by
  obtain ⟨hok, hfamily⟩ := ok_family hs
  obtain ⟨hheld, hwatched⟩ := held_watched hs
  have hnumbered := numbered hs
  refine ⟨fun hfree => ⟨fun q r _ _ hparent => (hfamily.parent q r hparent).2,
    fun p hsleep hchan q hparent hzombie => ?_⟩, hnumbered.once, hnumbered.parent,
    fun c hc => (hnumbered.gone c hc).2⟩
  have hwaits : (s.slots p).Waits := by
    rcases (hok p).sleeping hsleep with ⟨_, address, hother⟩ | ⟨⟨ok, hpc | hpc⟩, _⟩
    · exact absurd (hchan.symm.trans hother) nofun
    · exact ⟨ok, _, hpc, fun _ => hsleep⟩
    · exact ⟨ok, _, hpc, fun _ => hsleep⟩
  obtain ⟨_, w, hcovers⟩ := hwatched.covered p q hwaits hparent hzombie
  exact absurd (hfree.symm.trans (hheld w (Pc.holdsWait_of_covers hcovers))) nofun

/-- `initproc` makes a child and sleeps in `wait`; the child exits, and `wait` finds it. -/
theorem children_reaped_child : ∃ s : System 2, Reachable Init (StepOf next) s ∧ s.waitLock = none ∧ s.reaped.length = 1 ∧
    (s.waitLock = none →
      (∀ q r, q ≠ s.initproc → (s.slots q).state ≠ .unused → (s.slots q).parent = some r → (s.slots r).state ≠ .unused ∧ (s.slots r).state ≠ .zombie) ∧
      ∀ p, (s.slots p).state = .sleeping → (s.slots p).chan = some (.proc p) → ∀ q, (s.slots q).parent = some p → (s.slots q).state ≠ .zombie) ∧
    (s.reaped.map Reaped.number).Nodup ∧ (∀ c ∈ s.reaped, c.parent = some c.waiter) ∧
    ∀ c ∈ s.reaped, ∀ q, (s.slots q).state ≠ .unused → (s.slots q).note.number ≠ c.number := by
  obtain ⟨s, hreach, hfree, hone⟩ : ∃ s : System 2, Reachable Init (StepOf next) s ∧
      s.waitLock = none ∧ s.reaped.length = 1 :=
    exists_reachable_of_schedule (init_boot 1) (.schedule 0 :: .fork 0 ⟨1, 1, true⟩ ::
      List.replicate 4 (.run 0) ++ .wait 0 true :: List.replicate 8 (.run 0) ++
      .schedule 1 :: .exit 1 0 :: List.replicate 10 (.run 1) ++
      .schedule 0 :: List.replicate 4 (.run 0)) (by decide +kernel)
  exact ⟨s, hreach, hfree, hone, children_reaped hreach⟩

end System

end AdvancedXv6.ProcTable
