import AdvancedXv6.ProcTable.Model

/-!
# What a step does to the process table

`Move` lists the steps once. Every result about the table goes through its cases.
-/

namespace AdvancedXv6.ProcTable

open Function Transition

namespace System

variable {n : ℕ} {s s' : System n} {p q : Fin n} {e : Event n}

/-- Process `p` is in `wakeup(chan)` before slot `j`. -/
inductive Waking (s : System n) (p : Fin n) : Option (Chan n) → ℕ → Pc n → Pc n → Prop where
  | reparent {status : Int32} {i j : ℕ} : (s.slots p).pc = .reparentWake status i j →
      Waking s p (some (.proc s.initproc)) j (.reparentWake status i (j + 1)) (.reparent status (i + 1))
  | exit {status : Int32} {j : ℕ} : (s.slots p).pc = .exitWake status j →
      Waking s p ((s.slots p).parent.map .proc) j (.exitWake status (j + 1)) (.exitZombie status)

inductive Move (s : System n) : Event n → System n → Prop where
  | fork {p : Fin n} {alloc : Alloc} : (s.slots p).state = .running → (s.slots p).pc = .user → Move s (.fork p alloc) (s.goto p (.forkScan alloc 0))
  | exit {p : Fin n} {status : Int32} : p ≠ s.initproc → (s.slots p).state = .running → (s.slots p).pc = .user →
      Move s (.exit p status) ((s.modify p Slot.close).goto p (.exitLock status))
  | wait {p : Fin n} {ok : Bool} : (s.slots p).state = .running → (s.slots p).pc = .user → Move s (.wait p ok) (s.goto p (.waitLock ok))
  | kill {p : Fin n} {pid : Int32} : (s.slots p).state = .running → (s.slots p).pc = .user → Move s (.kill p pid) (s.goto p (.killScan pid 0))
  | change {p : Fin n} {sz pagetable cwd : ℕ} {ofile : ℕ → ℕ} : (s.slots p).state = .running → (s.slots p).pc = .user →
      Move s (.change p sz pagetable cwd ofile) (s.modify p fun sl => { sl with sz, pagetable, cwd, ofile })
  | block {p : Fin n} {address : ℕ} : (s.slots p).state = .running → (s.slots p).pc = .user →
      Move s (.block p address) (s.modify p fun sl => { sl with chan := some (.other address), state := .sleeping, pc := .blocked })
  | unblock {p : Fin n} {address : ℕ} : (s.slots p).state = .sleeping → (s.slots p).chan = some (.other address) →
      Move s (.unblock p) (s.modify p fun sl => { sl with state := .runnable })
  | schedule {p : Fin n} : (s.slots p).state = .runnable → Move s (.schedule p) (s.modify p fun sl => { sl with state := .running })
  | yield {p : Fin n} : (s.slots p).state = .running → (s.slots p).pc.holdsOwn = false → (s.slots p).pc.holdsWait = false →
      Move s (.yield p) (s.modify p fun sl => { sl with state := .runnable })
  | tick : s.sweep = none → Move s .tick { s with ticks := s.ticks + 1, now := s.now + 1, sweep := some 0 }
  | sweepSlot {q : Fin n} : s.sweep = some q → (s.slots q).pc.holdsOwn = false →
      Move s .sweep { s.modify q Slot.updateTime with sweep := some (q + 1) }
  | sweepDone {i : ℕ} : s.sweep = some i → n ≤ i → Move s .sweep { s with sweep := none }
  | blockedDone {p : Fin n} : (s.slots p).state = .running → (s.slots p).pc = .blocked →
      Move s (.run p) (s.modify p fun sl => { sl with chan := none, pc := .user })
  | allocate {p q : Fin n} {alloc : Alloc} : (s.slots p).state = .running → (s.slots p).pc = .forkScan alloc q → (s.slots q).state = .unused →
      Move s (.run p) (s.allocate p q alloc)
  | forkNext {p : Fin n} {alloc : Alloc} {i : ℕ} : (s.slots p).state = .running → (s.slots p).pc = .forkScan alloc i →
      Move s (.run p) (s.goto p (.forkScan alloc (i + 1)))
  | forkFail {p : Fin n} {alloc : Alloc} {i : ℕ} : (s.slots p).state = .running → (s.slots p).pc = .forkScan alloc i → Move s (.run p) (s.goto p .user)
  | forkParent {p child : Fin n} : (s.slots p).state = .running → (s.slots p).pc = .forkParent child → s.waitLock = none →
      Move s (.run p) ((s.modify child fun sl => { sl with parent := some p }).goto p (.forkRunnable child))
  | forkRunnable {p child : Fin n} : (s.slots p).state = .running → (s.slots p).pc = .forkRunnable child →
      Move s (.run p) ((s.modify child fun sl => { sl with state := .runnable }).goto p .user)
  | exitLock {p : Fin n} {status : Int32} : (s.slots p).state = .running → (s.slots p).pc = .exitLock status → s.waitLock = none →
      Move s (.run p) ({ s with waitLock := some p }.goto p (.reparent status 0))
  | reparent {p q : Fin n} {status : Int32} : (s.slots p).state = .running → (s.slots p).pc = .reparent status q → (s.slots q).parent = some p →
      Move s (.run p) ((s.modify q fun sl => { sl with parent := some s.initproc }).goto p (.reparentWake status q 0))
  | reparentNext {p q : Fin n} {status : Int32} : (s.slots p).state = .running → (s.slots p).pc = .reparent status q → (s.slots q).parent ≠ some p →
      Move s (.run p) (s.goto p (.reparent status (q + 1)))
  | reparentDone {p : Fin n} {status : Int32} {i : ℕ} : (s.slots p).state = .running → (s.slots p).pc = .reparent status i → n ≤ i →
      Move s (.run p) (s.goto p (.exitWake status 0))
  | wakeSelf {p : Fin n} {chan : Option (Chan n)} {next done : Pc n} : (s.slots p).state = .running → s.Waking p chan p next done →
      Move s (.run p) (s.goto p next)
  | wakeNone {p q : Fin n} {next done : Pc n} : (s.slots p).state = .running → s.Waking p none q next done → q ≠ p → Move s (.run p) (s.goto p next)
  | wakeSlot {p q : Fin n} {chan : Chan n} {next done : Pc n} : (s.slots p).state = .running → s.Waking p (some chan) q next done → q ≠ p →
      (s.slots q).pc.holdsOwn = false → Move s (.run p) ((s.modify q (·.wakeup chan)).goto p next)
  | wakeDone {p : Fin n} {chan : Option (Chan n)} {j : ℕ} {next done : Pc n} : (s.slots p).state = .running → s.Waking p chan j next done → n ≤ j →
      Move s (.run p) (s.goto p done)
  | exitZombie {p : Fin n} {status : Int32} : (s.slots p).state = .running → (s.slots p).pc = .exitZombie status →
      Move s (.run p) (s.modify p fun sl =>
        { sl with xstate := status, state := .zombie, etime := s.ticks, pc := .exitUnlock, note := { sl.note with died := s.now } })
  | exitUnlock {p : Fin n} : (s.slots p).pc = .exitUnlock → Move s (.run p) (s.release p .exitSwitch)
  | exitSwitch {p : Fin n} : (s.slots p).pc = .exitSwitch → Move s (.run p) (s.goto p .dead)
  | waitLock {p : Fin n} {ok : Bool} : (s.slots p).state = .running → (s.slots p).pc = .waitLock ok → s.waitLock = none →
      Move s (.run p) ({ s with waitLock := some p }.goto p (.waitScan ok 0 false))
  | reap {p q : Fin n} {ok havekids : Bool} : (s.slots p).state = .running → (s.slots p).pc = .waitScan ok q havekids → (s.slots q).parent = some p →
      (s.slots q).state = .zombie → (s.slots q).pc.holdsOwn = false → Move s (.run p) (s.reap p q)
  | waitLeave {p : Fin n} {ok havekids : Bool} {i : ℕ} : (s.slots p).state = .running → (s.slots p).pc = .waitScan ok i havekids →
      Move s (.run p) (s.release p .user)
  | waitNext {p q : Fin n} {ok havekids havekids' : Bool} : (s.slots p).state = .running → (s.slots p).pc = .waitScan ok q havekids →
      ((s.slots q).parent = some p → (s.slots q).state ≠ .zombie) → Move s (.run p) (s.goto p (.waitScan ok (q + 1) havekids'))
  | waitSleep {p : Fin n} {ok havekids : Bool} {i : ℕ} : (s.slots p).state = .running → (s.slots p).pc = .waitScan ok i havekids → n ≤ i →
      Move s (.run p) (s.goto p (.waitSleep ok .lock))
  | sleepLock {p : Fin n} {ok : Bool} : (s.slots p).state = .running → (s.slots p).pc = .waitSleep ok .lock →
      Move s (.run p) (s.goto p (.waitSleep ok .unlock))
  | sleepUnlock {p : Fin n} {ok : Bool} : (s.slots p).pc = .waitSleep ok .unlock → Move s (.run p) (s.release p (.waitSleep ok .mark))
  | sleepMark {p : Fin n} {ok : Bool} : (s.slots p).pc = .waitSleep ok .mark →
      Move s (.run p) (s.modify p fun sl => { sl with chan := some (.proc p), state := .sleeping, pc := .waitSleep ok .switch })
  | sleepSwitch {p : Fin n} {ok : Bool} : (s.slots p).pc = .waitSleep ok .switch → Move s (.run p) (s.goto p (.waitSleep ok .asleep))
  | sleepDone {p : Fin n} {ok : Bool} : (s.slots p).state = .running → (s.slots p).pc = .waitSleep ok .asleep →
      Move s (.run p) (s.modify p fun sl => { sl with chan := none, pc := .waitLock ok })
  | killSlot {p q : Fin n} {pid : Int32} : (s.slots p).state = .running → (s.slots p).pc = .killScan pid q → (s.slots q).pid = pid →
      (s.slots q).pc.holdsOwn = false → Move s (.run p) ((s.modify q Slot.kill).goto p .user)
  | killNext {p : Fin n} {pid : Int32} {i : ℕ} : (s.slots p).state = .running → (s.slots p).pc = .killScan pid i →
      Move s (.run p) (s.goto p (.killScan pid (i + 1)))
  | killFail {p : Fin n} {pid : Int32} {i : ℕ} : (s.slots p).state = .running → (s.slots p).pc = .killScan pid i → Move s (.run p) (s.goto p .user)

theorem call_eq_some {s1 : System n} (h : s.call p s1 = some s') : (s.slots p).state = .running ∧ (s.slots p).pc = .user ∧ s' = s1 := by
  unfold call at h
  split at h
  · rename_i hstate hpc
    cases h
    exact ⟨hstate, hpc, rfl⟩
  · cases h

theorem locked_eq_some {s1 : System n} (h : s.locked q s1 = some s') : (s.slots q).pc.holdsOwn = false ∧ s' = s1 := by
  unfold locked at h
  split at h
  · cases h
  · rename_i hown
    cases h
    exact ⟨Bool.eq_false_iff.mpr hown, rfl⟩

theorem acquire_eq_some {pc : Pc n} (h : s.acquire p pc = some s') : s.waitLock = none ∧ s' = { s with waitLock := some p }.goto p pc := by
  unfold acquire at h
  split at h
  · rename_i hlock
    cases h
    exact ⟨hlock, rfl⟩
  · cases h

theorem move_of_wakeupAt {chan : Option (Chan n)} {j : ℕ} {next done : Pc n} (hstate : (s.slots p).state = .running)
    (hwaking : s.Waking p chan j next done) (h : s.wakeupAt p chan j next done = some s') : s.Move (.run p) s' := by
  unfold wakeupAt at h
  split at h
  · rename_i hj
    split at h
    · rename_i heq
      cases h
      have hval : j = p := congrArg Fin.val heq
      rw [hval] at hwaking
      exact .wakeSelf hstate hwaking
    · rename_i hne
      obtain ⟨hown, rfl⟩ := locked_eq_some h
      have hwaking' : s.Waking p chan (⟨j, hj⟩ : Fin n) next done := hwaking
      cases chan with
      | none => exact .wakeNone hstate hwaking' hne
      | some chan => exact .wakeSlot hstate hwaking' hne hown
  · rename_i hj
    cases h
    exact .wakeDone hstate hwaking (Nat.le_of_not_lt hj)

theorem move_of_waitScan {ok havekids : Bool} {i : ℕ} (hstate : (s.slots p).state = .running) (hpc : (s.slots p).pc = .waitScan ok i havekids)
    (h : s.waitScan p ok i havekids = some s') : s.Move (.run p) s' := by
  unfold System.waitScan at h
  split at h
  · rename_i hi
    have hpc' : (s.slots p).pc = .waitScan ok (⟨i, hi⟩ : Fin n) havekids := hpc
    split at h
    · rename_i hparent
      obtain ⟨hown, rfl⟩ := locked_eq_some h
      split
      · rename_i hzombie
        split
        · exact .reap hstate hpc' hparent hzombie hown
        · exact .waitLeave hstate hpc
      · rename_i hzombie
        exact .waitNext hstate hpc' fun _ => hzombie
    · rename_i hparent
      cases h
      exact .waitNext hstate hpc' fun heq => absurd heq hparent
  · rename_i hi
    split at h
    · cases h
      exact .waitLeave hstate hpc
    · cases h
      exact .waitSleep hstate hpc (Nat.le_of_not_lt hi)

theorem move_of_run (h : s.run p = some s') : s.Move (.run p) s' := by
  unfold run at h
  split at h
  · rename_i hrun
    have hstate {pc : Pc n} (hpc : (s.slots p).pc = pc) (hown : pc.holdsOwn = false) : (s.slots p).state = .running := by
      refine hrun.resolve_right fun hown' => ?_
      rw [hpc, hown] at hown'
      cases hown'
    split at h
    case h_1 => cases h
    case h_2 => cases h
    case h_3 hpc =>
      cases h
      exact .blockedDone (hstate hpc rfl) hpc
    case h_4 alloc i hpc =>
      unfold System.forkScan at h
      split at h
      · rename_i hi
        obtain ⟨hown, rfl⟩ := locked_eq_some h
        split
        · rename_i hunused
          have hpc' : (s.slots p).pc = .forkScan alloc (⟨i, hi⟩ : Fin n) := hpc
          exact .allocate (hstate hpc rfl) hpc' hunused
        · exact .forkNext (hstate hpc rfl) hpc
      · cases h
        exact .forkFail (hstate hpc rfl) hpc
    case h_5 hpc =>
      split at h
      · rename_i hlock
        cases h
        exact .forkParent (hstate hpc rfl) hpc hlock
      · cases h
    case h_6 hpc =>
      obtain ⟨_, rfl⟩ := locked_eq_some h
      exact .forkRunnable (hstate hpc rfl) hpc
    case h_7 hpc =>
      obtain ⟨hlock, rfl⟩ := acquire_eq_some h
      exact .exitLock (hstate hpc rfl) hpc hlock
    case h_8 status i hpc =>
      cases h
      unfold System.reparent
      split
      · rename_i hi
        have hpc' : (s.slots p).pc = .reparent status (⟨i, hi⟩ : Fin n) := hpc
        split
        · rename_i hparent
          exact .reparent (hstate hpc rfl) hpc' hparent
        · rename_i hparent
          exact .reparentNext (hstate hpc rfl) hpc' hparent
      · rename_i hi
        exact .reparentDone (hstate hpc rfl) hpc (Nat.le_of_not_lt hi)
    case h_9 hpc => exact move_of_wakeupAt (hstate hpc rfl) (.reparent hpc) h
    case h_10 hpc => exact move_of_wakeupAt (hstate hpc rfl) (.exit hpc) h
    case h_11 hpc =>
      cases h
      exact .exitZombie (hstate hpc rfl) hpc
    case h_12 hpc =>
      cases h
      exact .exitUnlock hpc
    case h_13 hpc =>
      cases h
      exact .exitSwitch hpc
    case h_14 hpc =>
      obtain ⟨hlock, rfl⟩ := acquire_eq_some h
      exact .waitLock (hstate hpc rfl) hpc hlock
    case h_15 hpc => exact move_of_waitScan (hstate hpc rfl) hpc h
    case h_16 hpc =>
      cases h
      exact .sleepLock (hstate hpc rfl) hpc
    case h_17 hpc =>
      cases h
      exact .sleepUnlock hpc
    case h_18 hpc =>
      cases h
      exact .sleepMark hpc
    case h_19 hpc =>
      cases h
      exact .sleepSwitch hpc
    case h_20 hpc =>
      cases h
      exact .sleepDone (hstate hpc rfl) hpc
    case h_21 pid i hpc =>
      unfold System.killScan at h
      split at h
      · rename_i hi
        obtain ⟨hown, rfl⟩ := locked_eq_some h
        split
        · rename_i hpid
          have hpc' : (s.slots p).pc = .killScan pid (⟨i, hi⟩ : Fin n) := hpc
          exact .killSlot (hstate hpc rfl) hpc' hpid hown
        · exact .killNext (hstate hpc rfl) hpc
      · cases h
        exact .killFail (hstate hpc rfl) hpc
  · cases h

theorem move_of_next (h : s.next e = some s') : s.Move e s' := by
  cases e with
  | fork p alloc =>
    obtain ⟨hstate, hpc, rfl⟩ := call_eq_some h
    exact .fork hstate hpc
  | exit p status =>
    simp only [next] at h
    split at h
    · cases h
    · rename_i hne
      obtain ⟨hstate, hpc, rfl⟩ := call_eq_some h
      exact .exit hne hstate hpc
  | wait p ok =>
    obtain ⟨hstate, hpc, rfl⟩ := call_eq_some h
    exact .wait hstate hpc
  | kill p pid =>
    obtain ⟨hstate, hpc, rfl⟩ := call_eq_some h
    exact .kill hstate hpc
  | change p sz pagetable cwd ofile =>
    obtain ⟨hstate, hpc, rfl⟩ := call_eq_some h
    exact .change hstate hpc
  | block p address =>
    obtain ⟨hstate, hpc, rfl⟩ := call_eq_some h
    exact .block hstate hpc
  | unblock p =>
    simp only [next] at h
    split at h
    · rename_i hstate hchan
      cases h
      exact .unblock hstate hchan
    · cases h
  | run p => exact move_of_run h
  | schedule p =>
    simp only [next] at h
    split at h
    · rename_i hstate
      obtain ⟨_, rfl⟩ := locked_eq_some h
      exact .schedule hstate
    · cases h
  | yield p =>
    simp only [next] at h
    split at h
    · rename_i hcond
      cases h
      exact .yield hcond.1 hcond.2.1 hcond.2.2
    · cases h
  | tick =>
    simp only [next] at h
    split at h
    · rename_i hsweep
      cases h
      exact .tick hsweep
    · cases h
  | sweep =>
    simp only [next] at h
    split at h
    · cases h
    · rename_i i hsweep
      split at h
      · rename_i hi
        obtain ⟨hown, rfl⟩ := locked_eq_some h
        have hsweep' : s.sweep = some ((⟨i, hi⟩ : Fin n) : ℕ) := hsweep
        exact .sweepSlot hsweep' hown
      · rename_i hi
        cases h
        exact .sweepDone hsweep (Nat.le_of_not_lt hi)

/-! ### Slots after a step -/

section

variable (s : System n)

@[grind =] theorem slots_modify (p q : Fin n) (f : Slot n → Slot n) :
    (s.modify p f).slots q = if q = p then f (s.slots p) else s.slots q := update_apply ..

section

variable (p : Fin n) (f : Slot n → Slot n)

@[grind =] theorem initproc_modify : (s.modify p f).initproc = s.initproc := rfl

@[grind =] theorem waitLock_modify : (s.modify p f).waitLock = s.waitLock := rfl

@[grind =] theorem now_modify : (s.modify p f).now = s.now := rfl

@[grind =] theorem sweep_modify : (s.modify p f).sweep = s.sweep := rfl

@[grind =] theorem created_modify : (s.modify p f).created = s.created := rfl

@[grind =] theorem reaped_modify : (s.modify p f).reaped = s.reaped := rfl

end

@[simp] theorem slots_modify_self (p : Fin n) (f : Slot n → Slot n) : (s.modify p f).slots p = f (s.slots p) := update_self ..

theorem slots_modify_of_ne (f : Slot n → Slot n) (h : q ≠ p) : (s.modify p f).slots q = s.slots q := update_of_ne h ..

@[simp] theorem slots_goto_self (p : Fin n) (pc : Pc n) : (s.goto p pc).slots p = { s.slots p with pc } := update_self ..

theorem slots_goto_of_ne (pc : Pc n) (h : q ≠ p) : (s.goto p pc).slots q = s.slots q := update_of_ne h ..

theorem forall_modify {P : Fin n → Slot n → Prop} {p : Fin n} {f : Slot n → Slot n} (hp : P p (f (s.slots p))) (h : ∀ q, P q (s.slots q)) (q : Fin n) :
    P q ((s.modify p f).slots q) := by
  by_cases hq : q = p
  · rw [hq, slots_modify_self]
    exact hp
  · rw [slots_modify_of_ne _ _ hq]
    exact h q

theorem map_goto {α : Type} (p q : Fin n) (pc : Pc n) (g : Slot n → α)
    (hg : ∀ sl : Slot n, g { sl with pc } = g sl) : g ((s.goto p pc).slots q) = g (s.slots q) := by
  by_cases hq : q = p
  · rw [hq, slots_goto_self, hg]
  · rw [slots_goto_of_ne _ _ hq]

end

end System

end AdvancedXv6.ProcTable
