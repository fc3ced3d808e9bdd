import AdvancedXv6.ProcTable.Moves

/-!
# Slots

What the state of a slot says of the process in it. A slot that is not in use is as empty as a new one, but for one thing: `kill` looks at all slots for a `pid`, and a slot that is not in use has the `pid` 0, so that `kill(0)` marks such a slot as killed. The mark is still there when the slot is used next.
-/

namespace AdvancedXv6.ProcTable

open Transition

variable {n : ℕ}

def Pc.plain : Pc n → Bool
  | .exitUnlock | .exitSwitch | .dead | .waitSleep _ .switch => false
  | _ => true

def Pc.exiting : Pc n → Bool
  | .exitLock _ | .reparent .. | .reparentWake .. | .exitWake .. | .exitZombie _ | .exitUnlock | .exitSwitch | .dead => true
  | _ => false

namespace Slot

variable {q : Fin n} {sl np parent : Slot n} {pc : Pc n}

/-- The slot is as empty as a new one, except that it may be marked as killed. -/
def Empty (sl : Slot n) : Prop :=
  sl.pid = 0 ∧ sl.parent = none ∧ sl.chan = none ∧ sl.sz = 0 ∧ sl.trapframe = 0 ∧ sl.pagetable = 0 ∧ sl.cwd = 0 ∧ ∀ fd, sl.ofile fd = 0

theorem Empty.clean (h : sl.Empty) (hkilled : sl.killed = false) : sl.Clean := by
  obtain ⟨hpid, hparent, hchan, hsz, htrapframe, hpagetable, hcwd, hofile⟩ := h
  exact ⟨hkilled, hpid, hparent, hchan, hsz, htrapframe, hpagetable, hcwd, hofile⟩

theorem Clean.empty (h : sl.Clean) : sl.Empty := ⟨h.pid, h.parent, h.chan, h.sz, h.trapframe, h.pagetable, h.cwd, h.ofile⟩

@[grind cases] structure Ok (q : Fin n) (sl : Slot n) : Prop where
  unused : sl.state = .unused → (sl.pc = .user ∨ sl.pc = .dead) ∧ sl.Empty
  used : sl.state = .used → sl.pc = .user
  sleeping : sl.state = .sleeping → (sl.pc = .blocked ∧ ∃ address, sl.chan = some (.other address)) ∨
    ((∃ ok, sl.pc = .waitSleep ok .switch ∨ sl.pc = .waitSleep ok .asleep) ∧ sl.chan = some (.proc q))
  awake : sl.state = .runnable ∨ sl.state = .running → sl.pc.plain = true
  zombie : sl.state = .zombie → sl.pc = .exitUnlock ∨ sl.pc = .exitSwitch ∨ sl.pc = .dead
  closed : sl.pc.exiting = true → sl.cwd = 0 ∧ ∀ fd, sl.ofile fd = 0

theorem Ok.of_awake (hstate : sl.state = .runnable ∨ sl.state = .running) (hplain : sl.pc.plain = true)
    (hclosed : sl.pc.exiting = true → sl.cwd = 0 ∧ ∀ fd, sl.ofile fd = 0) : sl.Ok q := by
  constructor <;> grind

theorem Ok.of_zombie (hstate : sl.state = .zombie) (hpc : sl.pc = .exitUnlock ∨ sl.pc = .exitSwitch ∨ sl.pc = .dead)
    (hclosed : sl.cwd = 0 ∧ ∀ fd, sl.ofile fd = 0) : sl.Ok q := by
  constructor <;> grind

section

variable (h : sl.Ok q)
include h

/-- The states in which a process can be at a line, other than the first and the last. -/
theorem Ok.state_cases (huser : sl.pc ≠ .user) (hdead : sl.pc ≠ .dead) :
    sl.state = .sleeping ∨ ((sl.state = .runnable ∨ sl.state = .running) ∧ sl.pc.plain = true) ∨
      (sl.state = .zombie ∧ (sl.pc = .exitUnlock ∨ sl.pc = .exitSwitch)) := by
  cases hstate : sl.state <;> grind

theorem Ok.zombie_of_pc (hpc : sl.pc = .exitUnlock ∨ sl.pc = .exitSwitch) : sl.state = .zombie := by
  have hcases := h.state_cases
  grind [Pc.plain]

theorem Ok.sleeping_of_switch {ok : Bool} (hpc : sl.pc = .waitSleep ok .switch) : sl.state = .sleeping ∧ sl.chan = some (.proc q) := by
  have hcases := h.state_cases
  grind [Pc.plain]

/-- Before it changes its state in `sleep` a process is awake. -/
theorem Ok.awake_of_sleep {ok : Bool} {stage : Stage} (hpc : sl.pc = .waitSleep ok stage) (hswitch : stage ≠ .switch) (hasleep : stage ≠ .asleep) :
    sl.state = .runnable ∨ sl.state = .running := by
  have hcases := h.state_cases
  grind

theorem Ok.goto (hstate : sl.state = .running) (hplain : pc.plain = true) (hclosed : pc.exiting = true → sl.pc.exiting = true) :
    ({ sl with pc } : Slot n).Ok q :=
  .of_awake (.inr hstate) hplain fun hexit => h.closed (hclosed hexit)

theorem Ok.wakeup (hown : sl.pc.holdsOwn = false) (chan : Chan n) : (sl.wakeup chan).Ok q := by
  unfold Slot.wakeup
  split
  · constructor <;> grind [Pc.holdsOwn, Pc.plain]
  · exact h

theorem Ok.kill (hown : sl.pc.holdsOwn = false) : sl.kill.Ok q := by
  unfold Slot.kill
  constructor <;> grind [Pc.holdsOwn, Pc.plain, Empty]

omit h in
theorem kill_state (sl : Slot n) : sl.kill.state = sl.state ∨ (sl.state = .sleeping ∧ sl.kill.state = .runnable) := by
  grind

theorem Ok.setParent (hused : sl.state ≠ .unused) (p : Option (Fin n)) : ({ sl with parent := p } : Slot n).Ok q :=
  ⟨fun hunused => absurd hunused hused, h.used, h.sleeping, h.awake, h.zombie, h.closed⟩

theorem Ok.updateTime : sl.updateTime.Ok q := by
  unfold Slot.updateTime
  split
  · exact ⟨h.unused, h.used, h.sleeping, h.awake, h.zombie, h.closed⟩
  · exact h

omit h in
theorem ok_freeproc (hpc : sl.pc = .user ∨ sl.pc = .dead) (hcwd : sl.cwd = 0) (hofile : ∀ fd, sl.ofile fd = 0) : sl.freeproc.Ok q := by
  refine ⟨fun _ => ⟨hpc, ?_⟩, nofun, nofun, nofun, nofun, fun _ => ⟨hcwd, hofile⟩⟩
  exact ⟨rfl, rfl, rfl, rfl, rfl, rfl, hcwd, hofile⟩

theorem Ok.reap (hzombie : sl.state = .zombie) (hown : sl.pc.holdsOwn = false) : sl.freeproc.Ok q := by
  have hdead : sl.pc = .dead := by grind [Pc.holdsOwn]
  obtain ⟨hcwd, hofile⟩ := h.closed (congrArg Pc.exiting hdead)
  exact ok_freeproc (.inr hdead) hcwd hofile

end

variable {alloc : Alloc} {pid : Int32} {ticks : UInt32} {number now : ℕ}

/-- A slot that was empty has a child in it, or is empty again. -/
theorem forkInto_cases (np parent : Slot n) (alloc : Alloc) (pid : Int32) (ticks : UInt32) (number now : ℕ) :
    (∃ sl : Slot n, np.forkInto parent alloc pid ticks number now = (sl, true) ∧ sl.state = .used ∧ sl.pc = .user ∧ sl.parent = np.parent ∧
      sl.killed = np.killed ∧ sl.rtime = 0 ∧ sl.ctime = ticks ∧ sl.note = { number, asked := false, born := now, died := 0 }) ∨
    ∃ sl : Slot n, np.forkInto parent alloc pid ticks number now = (sl.freeproc, false) ∧ sl.pc = .user ∧ sl.cwd = np.cwd ∧ sl.ofile = np.ofile := by
  unfold Slot.forkInto
  dsimp only
  split
  · exact .inr ⟨_, rfl, rfl, rfl, rfl⟩
  · split
    · exact .inr ⟨_, rfl, rfl, rfl, rfl⟩
    · split
      · exact .inl ⟨_, rfl, rfl, rfl, rfl, rfl, rfl, rfl, rfl⟩
      · exact .inr ⟨_, rfl, rfl, rfl, rfl⟩

theorem Ok.forkInto (h : np.Ok q) (hunused : np.state = .unused) : (np.forkInto parent alloc pid ticks number now).1.Ok q := by
  have hempty := (h.unused hunused).2
  rcases np.forkInto_cases parent alloc pid ticks number now with ⟨sl, heq, hstate, hpc, _⟩ | ⟨sl, heq, hpc, hcwd, hofile⟩
  · rw [heq]
    dsimp only
    constructor <;> grind [Pc.exiting]
  · rw [heq]
    refine ok_freeproc (.inl hpc) ?_ fun fd => ?_
    · rw [hcwd]
      exact hempty.2.2.2.2.2.2.1
    · rw [hofile]
      exact hempty.2.2.2.2.2.2.2 fd

end Slot

namespace System

variable {s s' : System n} {p q : Fin n} {e : Event n}

@[grind =] def Ok (s : System n) : Prop := ∀ q, (s.slots q).Ok q

theorem Ok.modify (h : s.Ok) {f : Slot n → Slot n} (hf : (f (s.slots p)).Ok p) : (s.modify p f).Ok := by
  exact s.forall_modify (P := fun q sl => sl.Ok q) hf h

theorem Ok.goto (h : s.Ok) {pc : Pc n} (hstate : (s.slots p).state = .running) (hplain : pc.plain = true)
    (hclosed : pc.exiting = true → (s.slots p).pc.exiting = true) : (s.goto p pc).Ok := h.modify ((h p).goto hstate hplain hclosed)

theorem Waking.exiting {chan : Option (Chan n)} {j : ℕ} {next done : Pc n} (h : s.Waking p chan j next done) :
    (s.slots p).pc.exiting = true ∧ next.plain = true ∧ done.plain = true := by
  cases h with
  | reparent hpc | exit hpc =>
    rw [hpc]
    exact ⟨rfl, rfl, rfl⟩

/-- A second slot is changed besides that of the process; the process is the same as before, as far as it matters. -/
theorem Ok.both (h : s.Ok) {f : Slot n → Slot n} {pc : Pc n} (hf : (f (s.slots q)).Ok q)
    (hsame : q = p → (f (s.slots p)).state = .running ∧ (f (s.slots p)).pc = (s.slots p).pc)
    (hstate : (s.slots p).state = .running) (hplain : pc.plain = true) (hclosed : pc.exiting = true → (s.slots p).pc.exiting = true) :
    ((s.modify q f).goto p pc).Ok := by
  have hmod : (s.modify q f).Ok := h.modify hf
  apply hmod.goto <;> grind

theorem Ok.of_slots (h : s.Ok) (hslots : s'.slots = s.slots) : s'.Ok := by
  intro q
  rw [hslots]
  exact h q

theorem Ok.setLock (h : s.Ok) (lock : Option (Fin n)) : ({ s with waitLock := lock } : System n).Ok := h

theorem Ok.release (h : s.Ok) {pc : Pc n} (hp : ({ s.slots p with pc } : Slot n).Ok p) : (s.release p pc).Ok := by
  refine Ok.of_slots (h.modify (f := fun sl => { sl with pc }) hp) rfl

theorem Ok.move (h : s.Ok) (hmove : s.Move e s')
    (hfork : ∀ p child, (s.slots p).pc = .forkParent child ∨ (s.slots p).pc = .forkRunnable child →
      (s.slots child).state = .used)
    (hown : ∀ q p, (s.slots q).parent = some p → (s.slots q).state ≠ .unused) : s'.Ok := by
  cases hmove with
  | fork hstate hpc | wait hstate hpc | kill hstate hpc | forkNext hstate hpc
  | forkFail hstate hpc | waitNext hstate hpc _ | waitSleep hstate hpc _ | sleepLock hstate hpc
  | killNext hstate hpc | killFail hstate hpc => exact h.goto hstate rfl nofun
  | @exit p status _ hstate hpc =>
    refine (h.modify (f := Slot.close) ?_).modify ?_
    · exact .of_awake (.inr hstate) ((h p).awake (.inr hstate)) fun _ => ⟨rfl, fun _ => rfl⟩
    · rw [slots_modify_self]
      exact .of_awake (.inr hstate) rfl fun _ => ⟨rfl, fun _ => rfl⟩
  | @change p _ _ _ _ hstate hpc =>
    refine h.modify (.of_awake (.inr hstate) ((h p).awake (.inr hstate)) fun hexit => ?_)
    rw [hpc] at hexit
    cases hexit
  | block hstate hpc => exact h.modify ⟨nofun, nofun, fun _ => .inl ⟨rfl, _, rfl⟩, fun hawake => hawake.elim nofun nofun, nofun, nofun⟩
  | @unblock p address hstate hchan =>
    refine h.modify (.of_awake (.inl rfl) ?_ (h p).closed)
    rcases (h p).sleeping hstate with ⟨hpc, _⟩ | ⟨_, hproc⟩
    · exact congrArg Pc.plain hpc
    · rw [hchan] at hproc
      cases hproc
  | @schedule p hstate => exact h.modify (.of_awake (.inr rfl) ((h p).awake (.inl hstate)) (h p).closed)
  | @yield p hstate _ _ => exact h.modify (.of_awake (.inl rfl) ((h p).awake (.inr hstate)) (h p).closed)
  | tick _ | sweepDone _ _ => exact h.of_slots rfl
  | sweepSlot _ _ => exact (h.modify (h _).updateTime).of_slots rfl
  | blockedDone hstate hpc | sleepDone hstate hpc =>
    exact h.modify (.of_awake (.inr hstate) rfl nofun)
  | @allocate p q alloc hstate hpc hunused =>
    have hne : q ≠ p := by
      rintro rfl
      exact absurd (hunused.symm.trans hstate) nofun
    refine Ok.of_slots (h.both (p := p) (f := fun _ => ((s.slots q).forkInto (s.slots p) alloc s.nextpid s.ticks s.created s.now).1)
      ((h q).forkInto hunused) (fun heq => absurd heq hne) hstate ?_ ?_) rfl
    · split <;> rfl
    · split <;> exact nofun
  | @forkParent p child hstate hpc _ =>
    have hused := hfork p child (.inl hpc)
    exact h.both ((h child).setParent (by rw [hused]; exact nofun) _) (fun _ => ⟨hstate, rfl⟩) hstate rfl nofun
  | @forkRunnable p child hstate hpc =>
    have hused := hfork p child (.inr hpc)
    have hne : child ≠ p := by
      rintro rfl
      exact absurd (hused.symm.trans hstate) nofun
    exact h.both (.of_awake (.inl rfl) (congrArg Pc.plain ((h child).used hused)) (h child).closed) (fun heq => absurd heq hne) hstate rfl nofun
  | exitLock hstate hpc _ => exact (h.setLock _).goto hstate rfl fun _ => (congrArg Pc.exiting hpc).trans rfl
  | @reparent p q _ hstate hpc hparent =>
    exact h.both ((h q).setParent (hown q p hparent) _) (fun _ => ⟨hstate, rfl⟩) hstate rfl fun _ => (congrArg Pc.exiting hpc).trans rfl
  | reparentNext hstate hpc _ | reparentDone hstate hpc _ =>
    exact h.goto hstate rfl fun _ => (congrArg Pc.exiting hpc).trans rfl
  | wakeSelf hstate hwaking | wakeNone hstate hwaking _ =>
    obtain ⟨hexit, hnext, _⟩ := hwaking.exiting
    exact h.goto hstate hnext fun _ => hexit
  | wakeSlot hstate hwaking hne hfree =>
    obtain ⟨hexit, hnext, _⟩ := hwaking.exiting
    exact h.both ((h _).wakeup hfree _) (fun heq => absurd heq hne) hstate hnext fun _ => hexit
  | wakeDone hstate hwaking _ =>
    obtain ⟨hexit, _, hdone⟩ := hwaking.exiting
    exact h.goto hstate hdone fun _ => hexit
  | @exitZombie p status hstate hpc =>
    refine h.modify ⟨nofun, nofun, nofun, fun hawake => hawake.elim nofun nofun, fun _ => .inl rfl, fun _ => (h p).closed ?_⟩
    rw [hpc]
    rfl
  | @exitUnlock p hpc =>
    have hclosed := (h p).closed (by rw [hpc]; rfl)
    exact h.release (.of_zombie ((h p).zombie_of_pc (.inl hpc)) (.inr (.inl rfl)) hclosed)
  | @exitSwitch p hpc =>
    have hclosed := (h p).closed (by rw [hpc]; rfl)
    exact h.modify (.of_zombie ((h p).zombie_of_pc (.inr hpc)) (.inr (.inr rfl)) hclosed)
  | waitLock hstate hpc _ => exact (h.setLock _).goto hstate rfl nofun
  | @reap p q _ _ hstate hpc hparent hzombie hfree =>
    have hne : q ≠ p := by
      rintro rfl
      exact absurd (hzombie.symm.trans hstate) nofun
    have hboth : ((s.modify q Slot.freeproc).goto p .user).Ok := h.both ((h q).reap hzombie hfree) (fun heq => absurd heq hne) hstate rfl nofun
    exact hboth.of_slots rfl
  | waitLeave hstate hpc => exact h.release (.of_awake (.inr hstate) rfl nofun)
  | @sleepUnlock p ok hpc => exact h.release (.of_awake ((h p).awake_of_sleep hpc nofun nofun) rfl nofun)
  | sleepMark hpc => exact h.modify ⟨nofun, nofun, fun _ => .inr ⟨⟨_, .inl rfl⟩, rfl⟩, fun hawake => hawake.elim nofun nofun, nofun, nofun⟩
  | @sleepSwitch p ok hpc =>
    obtain ⟨hstate, hchan⟩ := (h p).sleeping_of_switch hpc
    refine h.modify ⟨fun hc => ?_, fun hc => ?_, fun _ => .inr ⟨⟨ok, .inr rfl⟩, hchan⟩, fun _ => rfl, fun hc => ?_, nofun⟩
    · exact absurd (hstate.symm.trans hc) nofun
    · exact absurd (hstate.symm.trans hc) nofun
    · exact absurd (hstate.symm.trans hc) nofun
  | @killSlot p q pid hstate hpc _ hfree =>
    refine h.both ((h q).kill hfree) (fun _ => ⟨?_, rfl⟩) hstate rfl nofun
    unfold Slot.kill
    dsimp only
    rw [if_neg (by rw [hstate]; exact nofun)]
    exact hstate

end System

end AdvancedXv6.ProcTable
