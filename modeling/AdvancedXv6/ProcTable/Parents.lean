import AdvancedXv6.ProcTable.Slots

/-!
# Parents

A process that is in use and has a parent has one that is alive: `exit` gives all children to `initproc` before the process becomes a zombie, and only zombies leave the table. With this go the two facts that the locks are for: a slot from which `fork` has not released its hands is left alone by everybody else, and whoever is at a line that needs `wait_lock` is the owner of it.
-/

namespace AdvancedXv6.ProcTable

open Function Transition

variable {n : ℕ}

def Pc.Refers (child : Fin n) (pc : Pc n) : Prop := pc = .forkParent child ∨ pc = .forkRunnable child

/-- The number of slots that `exit` has been through for children. -/
def Pc.cleared : Pc n → ℕ
  | .reparent _ i => i
  | .reparentWake _ i _ => i + 1
  | .exitWake .. | .exitZombie _ | .exitUnlock => n
  | _ => 0

def Slot.Alive (sl : Slot n) : Prop := sl.state ≠ .unused ∧ sl.state ≠ .zombie

/-- A change of a slot that is of no interest to other processes. -/
@[grind cases] structure Slot.Quiet (sl sl' : Slot n) : Prop where
  parent : sl'.parent = sl.parent
  killed : sl'.killed = sl.killed
  rtime : sl'.rtime = sl.rtime
  ctime : sl'.ctime = sl.ctime
  etime : sl'.etime = sl.etime
  pid : sl'.pid = sl.pid
  note : sl'.note = sl.note
  unused : sl'.state = .unused ↔ sl.state = .unused
  used : sl'.state = .used ↔ sl.state = .used
  zombie : sl'.state = .zombie ↔ sl.state = .zombie
  refers : ∀ child, sl'.pc.Refers child → sl.pc.Refers child
  cleared : sl'.pc.cleared ≤ sl.pc.cleared
  exiting : sl'.pc.exiting = true → sl.pc.exiting = true

variable {pc pc0 : Pc n} {f : Slot n → Slot n} {child : Fin n}

namespace Slot.Quiet

variable {sl sl' sl'' : Slot n}

theorem refl (sl : Slot n) : Quiet sl sl := ⟨rfl, rfl, rfl, rfl, rfl, rfl, rfl, .rfl, .rfl, .rfl, fun _ => id, Nat.le_refl _, id⟩

theorem trans (h : Quiet sl sl') (h' : Quiet sl' sl'') : Quiet sl sl'' := by
  constructor <;> grind

theorem goto (hrefers : ∀ child, ¬ pc.Refers child) (hcleared : pc.cleared ≤ sl.pc.cleared) (hexiting : pc.exiting = true → sl.pc.exiting = true) :
    Quiet sl { sl with pc } :=
  ⟨rfl, rfl, rfl, rfl, rfl, rfl, rfl, .rfl, .rfl, .rfl, fun child h => absurd h (hrefers child), hcleared, hexiting⟩

theorem state_iff {a b c : ProcState} (ha : a = .sleeping ∨ a = .runnable ∨ a = .running) (hb : b = .sleeping ∨ b = .runnable ∨ b = .running)
    (hc : c = .unused ∨ c = .used ∨ c = .zombie) : b = c ↔ a = c := by
  have hne {d : ProcState} (hd : d = .sleeping ∨ d = .runnable ∨ d = .running) : d ≠ c := by
    rcases hd with rfl | rfl | rfl <;> rcases hc with rfl | rfl | rfl <;> decide
  exact iff_of_false (hne hb) (hne ha)

theorem state {state : ProcState} (hold : sl.state = .sleeping ∨ sl.state = .runnable ∨ sl.state = .running)
    (hnew : state = .sleeping ∨ state = .runnable ∨ state = .running) : Quiet sl { sl with state } :=
  ⟨rfl, rfl, rfl, rfl, rfl, rfl, rfl, state_iff hold hnew (.inl rfl),
    state_iff hold hnew (.inr (.inl rfl)), state_iff hold hnew (.inr (.inr rfl)), fun _ => id,
    Nat.le_refl _, id⟩

theorem wakeup (sl : Slot n) (chan : Chan n) : Quiet sl (sl.wakeup chan) := by
  unfold Slot.wakeup
  split
  · rename_i hsleep
    exact state (.inl hsleep.1) (.inr (.inl rfl))
  · exact refl sl

end Slot.Quiet

namespace System

variable {s s' : System n} {p q : Fin n} {e : Event n}

@[grind cases] structure Quiet (s s' : System n) : Prop where
  slots : ∀ q, (s.slots q).Quiet (s'.slots q)
  initproc : s'.initproc = s.initproc
  ticks : s'.ticks = s.ticks
  now : s'.now = s.now
  sweep : s'.sweep = s.sweep
  created : s'.created = s.created
  reaped : s'.reaped = s.reaped

theorem quiet_modify (h : (s.slots p).Quiet (f (s.slots p))) : s.Quiet (s.modify p f) := by
  exact ⟨s.forall_modify (P := fun q => (s.slots q).Quiet) h fun q => .refl _, rfl, rfl, rfl, rfl, rfl, rfl⟩

theorem Quiet.trans {s'' : System n} (h : s.Quiet s') (h' : s'.Quiet s'') : s.Quiet s'' := by
  refine ⟨fun q => (h.slots q).trans (h'.slots q), ?_, ?_, ?_, ?_, ?_, ?_⟩ <;> grind

theorem quiet_goto (hpc : (s.slots p).pc = pc0) (hne : ∀ child, pc ≠ .forkParent child ∧ pc ≠ .forkRunnable child) (hcleared : pc.cleared ≤ pc0.cleared)
    (hexiting : pc.exiting = true → pc0.exiting = true) : s.Quiet (s.goto p pc) := by
  refine quiet_modify (.goto (fun child hrefers => hrefers.elim (hne child).1 (hne child).2) ?_ ?_)
  · rw [hpc]
    exact hcleared
  · rw [hpc]
    exact hexiting

theorem quiet_lock {lock : Option (Fin n)} (hpc : (s.slots p).pc = pc0) (hne : ∀ child, pc ≠ .forkParent child ∧ pc ≠ .forkRunnable child)
    (hcleared : pc.cleared ≤ pc0.cleared) (hexiting : pc.exiting = true → pc0.exiting = true) : s.Quiet ({ s with waitLock := lock }.goto p pc) :=
  ⟨(quiet_goto hpc hne hcleared hexiting).slots, rfl, rfl, rfl, rfl, rfl, rfl⟩

theorem Waking.quiet {chan : Option (Chan n)} {j : ℕ} {next done : Pc n}
    (h : s.Waking p chan j next done) : s.Quiet (s.goto p next) ∧ s.Quiet (s.goto p done) := by
  cases h with
  | reparent hpc | exit hpc =>
    exact ⟨quiet_goto hpc (fun _ => ⟨nofun, nofun⟩) (Nat.le_refl _) fun _ => rfl,
      quiet_goto hpc (fun _ => ⟨nofun, nofun⟩) (Nat.le_refl _) fun _ => rfl⟩

inductive Loud (s : System n) : Event n → System n → Prop where
  | exit {p : Fin n} {status : Int32} : p ≠ s.initproc → (s.slots p).pc = .user →
      Loud s (.exit p status) ((s.modify p Slot.close).goto p (.exitLock status))
  | allocate {p q : Fin n} {alloc : Alloc} : (s.slots p).state = .running → (s.slots p).pc = .forkScan alloc q → (s.slots q).state = .unused →
      Loud s (.run p) (s.allocate p q alloc)
  | forkParent {p child : Fin n} : (s.slots p).state = .running → (s.slots p).pc = .forkParent child → s.waitLock = none →
      Loud s (.run p) ((s.modify child fun sl => { sl with parent := some p }).goto p (.forkRunnable child))
  | forkRunnable {p child : Fin n} : (s.slots p).state = .running → (s.slots p).pc = .forkRunnable child →
      Loud s (.run p) ((s.modify child fun sl => { sl with state := .runnable }).goto p .user)
  | reparent {p q : Fin n} {status : Int32} : (s.slots p).pc = .reparent status q → (s.slots q).parent = some p →
      Loud s (.run p) ((s.modify q fun sl => { sl with parent := some s.initproc }).goto p (.reparentWake status q 0))
  | reparentNext {p q : Fin n} {status : Int32} : (s.slots p).pc = .reparent status q → (s.slots q).parent ≠ some p →
      Loud s (.run p) (s.goto p (.reparent status (q + 1)))
  | reparentDone {p : Fin n} {status : Int32} {i : ℕ} : (s.slots p).pc = .reparent status i → n ≤ i → Loud s (.run p) (s.goto p (.exitWake status 0))
  | exitZombie {p : Fin n} {status : Int32} : (s.slots p).state = .running → (s.slots p).pc = .exitZombie status →
      Loud s (.run p) (s.modify p fun sl =>
        { sl with xstate := status, state := .zombie, etime := s.ticks, pc := .exitUnlock, note := { sl.note with died := s.now } })
  | reap {p q : Fin n} {ok havekids : Bool} : (s.slots p).state = .running → (s.slots p).pc = .waitScan ok q havekids → (s.slots q).parent = some p →
      (s.slots q).state = .zombie → Loud s (.run p) (s.reap p q)
  | kill {p q : Fin n} {pid : Int32} : (s.slots p).state = .running → (s.slots p).pc = .killScan pid q → (s.slots q).pid = pid →
      Loud s (.run p) ((s.modify q Slot.kill).goto p .user)
  | tick : s.sweep = none → Loud s .tick { s with ticks := s.ticks + 1, now := s.now + 1, sweep := some 0 }
  | sweepSlot {q : Fin n} : s.sweep = some q → Loud s .sweep { s.modify q Slot.updateTime with sweep := some (q + 1) }
  | sweepDone {i : ℕ} : s.sweep = some i → n ≤ i → Loud s .sweep { s with sweep := none }

theorem Move.quiet_or (h : s.Move e s') (hok : s.Ok) : s.Quiet s' ∨ s.Loud e s' := by
  cases h with
  | fork hstate hpc | wait hstate hpc | kill hstate hpc | forkNext hstate hpc
  | forkFail hstate hpc | waitNext hstate hpc _ | waitSleep hstate hpc _ | sleepLock hstate hpc
  | sleepSwitch hpc | killNext hstate hpc | killFail hstate hpc =>
    exact .inl (quiet_goto hpc (fun _ => ⟨nofun, nofun⟩) (Nat.zero_le _) nofun)
  | exit hne hstate hpc => exact .inr (.exit hne hpc)
  | change hstate hpc => exact .inl (quiet_modify ⟨rfl, rfl, rfl, rfl, rfl, rfl, rfl, .rfl, .rfl, .rfl, fun _ => id, Nat.le_refl _, id⟩)
  | block hstate hpc =>
    have hq := Slot.Quiet.state (.inr (.inr hstate)) (.inl (Eq.refl ProcState.sleeping))
    exact .inl (quiet_modify ⟨rfl, rfl, rfl, rfl, rfl, rfl, rfl, hq.unused, hq.used, hq.zombie, fun _ hc => hc.elim nofun nofun, Nat.zero_le _, nofun⟩)
  | unblock hstate hchan => exact .inl (quiet_modify (.state (.inl hstate) (.inr (.inl rfl))))
  | schedule hstate => exact .inl (quiet_modify (.state (.inr (.inl hstate)) (.inr (.inr rfl))))
  | yield hstate _ _ => exact .inl (quiet_modify (.state (.inr (.inr hstate)) (.inr (.inl rfl))))
  | tick hsweep => exact .inr (.tick hsweep)
  | sweepSlot hsweep _ => exact .inr (.sweepSlot hsweep)
  | sweepDone hsweep hi => exact .inr (.sweepDone hsweep hi)
  | blockedDone hstate hpc | sleepDone hstate hpc =>
    exact .inl (quiet_modify ⟨rfl, rfl, rfl, rfl, rfl, rfl, rfl, .rfl, .rfl, .rfl, fun _ hc => hc.elim nofun nofun, Nat.zero_le _, nofun⟩)
  | allocate hstate hpc hunused => exact .inr (.allocate hstate hpc hunused)
  | forkParent hstate hpc hlock => exact .inr (.forkParent hstate hpc hlock)
  | forkRunnable hstate hpc => exact .inr (.forkRunnable hstate hpc)
  | exitLock hstate hpc _ | exitUnlock hpc =>
    exact .inl (quiet_lock hpc (fun _ => ⟨nofun, nofun⟩) (Nat.zero_le _) fun _ => rfl)
  | reparent hstate hpc hparent => exact .inr (.reparent hpc hparent)
  | reparentNext hstate hpc hparent => exact .inr (.reparentNext hpc hparent)
  | reparentDone hstate hpc hi => exact .inr (.reparentDone hpc hi)
  | wakeSelf hstate hwaking | wakeNone hstate hwaking _ => exact .inl hwaking.quiet.1
  | @wakeSlot p q chan next done hstate hwaking hne _ =>
    have hq : s.Quiet (s.modify q (·.wakeup chan)) := quiet_modify (.wakeup _ _)
    refine .inl (hq.trans ?_)
    have hwaking' : (s.modify q (·.wakeup chan)).Quiet ((s.modify q (·.wakeup chan)).goto p next) := by
      refine quiet_modify ?_
      rw [slots_modify_of_ne _ _ hne.symm]
      have hself := (hwaking.quiet.1).slots p
      rw [slots_goto_self] at hself
      exact hself
    exact hwaking'
  | wakeDone hstate hwaking _ => exact .inl hwaking.quiet.2
  | exitZombie hstate hpc => exact .inr (.exitZombie hstate hpc)
  | exitSwitch hpc => exact .inl (quiet_goto hpc (fun _ => ⟨nofun, nofun⟩) (Nat.zero_le _) fun _ => rfl)
  | waitLock hstate hpc _ | waitLeave hstate hpc | sleepUnlock hpc =>
    exact .inl (quiet_lock hpc (fun _ => ⟨nofun, nofun⟩) (Nat.zero_le _) nofun)
  | reap hstate hpc hparent hzombie _ => exact .inr (.reap hstate hpc hparent hzombie)
  | @sleepMark p ok hpc =>
    have hawake := (hok p).awake_of_sleep hpc nofun nofun
    have hq := Slot.Quiet.state (.inr hawake) (.inl (Eq.refl ProcState.sleeping))
    exact .inl (quiet_modify ⟨rfl, rfl, rfl, rfl, rfl, rfl, rfl, hq.unused, hq.used, hq.zombie, fun _ hc => hc.elim nofun nofun, Nat.zero_le _, nofun⟩)
  | killSlot hstate hpc hpid _ => exact .inr (.kill hstate hpc hpid)

/-! ### Families -/

/-- Who is in `fork` has a slot of its own, whose state is `USED`; parents are alive; and children that `exit` has been past are gone. -/
@[grind cases] structure Family (s : System n) : Prop where
  forking : ∀ p child, (s.slots p).pc.Refers child → (s.slots child).state = .used
  single : ∀ p p' child, (s.slots p).pc.Refers child → (s.slots p').pc.Refers child → p = p'
  parent : ∀ q r, (s.slots q).parent = some r → (s.slots q).state ≠ .unused ∧ (s.slots r).Alive
  irrefl : ∀ q, (s.slots q).parent ≠ some q
  cleared : ∀ p j : Fin n, j < (s.slots p).pc.cleared → (s.slots j).parent ≠ some p
  init_alive : (s.slots s.initproc).Alive
  init_stays : (s.slots s.initproc).pc.exiting = false
  init_top : (s.slots s.initproc).parent = none
  init_started : (s.slots s.initproc).state ≠ .used

section

variable (h : s.Family)
include h

theorem Family.quiet (hq : s.Quiet s') : s'.Family := by
  have hslots := hq.slots
  constructor <;> grind [Slot.Alive]

omit h in
@[grind cases] structure Edit (s : System n) (q : Fin n) (sl : Slot n) : Prop where
  refers : ∀ child, sl.pc.Refers child → (s.slots q).pc.Refers child ∨ (child ≠ q ∧ (s.slots child).state = .used ∧ ∀ p, ¬ (s.slots p).pc.Refers child)
  used : (s.slots q).state = .used → sl.state = .used ∨ ∀ p, ¬ (s.slots p).pc.Refers q
  alive : (s.slots q).Alive → sl.Alive ∨ ∀ r, (s.slots r).parent ≠ some q
  parent : ∀ r, sl.parent = some r → (s.slots q).parent = some r ∨ (r ≠ q ∧ (s.slots r).Alive ∧ ¬ (q : ℕ) < (s.slots r).pc.cleared)
  in_use : ∀ r, sl.parent = some r → sl.state ≠ .unused
  cleared : ∀ j : Fin n, j < sl.pc.cleared → j ≠ q → (s.slots j).parent ≠ some q
  init : q = s.initproc → sl.Alive ∧ sl.pc.exiting = false ∧ sl.parent = none ∧ sl.state ≠ .used

theorem Family.edit (he : s.Edit q (f (s.slots q))) : (s.modify q f).Family := by
  -- a child or a parent after the change is an old one, or a new one of `q`
  have hrefers {p child : Fin n} (hp : ((s.modify q f).slots p).pc.Refers child) :
      (s.slots p).pc.Refers child ∨
        p = q ∧ child ≠ q ∧ (s.slots child).state = .used ∧ ∀ p, ¬ (s.slots p).pc.Refers child := by
    grind
  have hparent {j r : Fin n} (hj : ((s.modify q f).slots j).parent = some r) :
      (s.slots j).parent = some r ∨
        j = q ∧ r ≠ q ∧ (s.slots r).Alive ∧ ¬ (q : ℕ) < (s.slots r).pc.cleared := by
    grind
  constructor <;> grind

/-- Neither the parent nor the program counter changes, and the process at most wakes up. -/
theorem Family.same (hstate : (f (s.slots q)).state = (s.slots q).state ∨ ((s.slots q).state = .sleeping ∧ (f (s.slots q)).state = .runnable))
    (hparent : (f (s.slots q)).parent = (s.slots q).parent) (hpc : (f (s.slots q)).pc = (s.slots q).pc) : (s.modify q f).Family := by
  apply h.edit
  constructor <;> grind [Slot.Alive]

theorem Family.of_slots (hslots : s'.slots = s.slots) (hinit : s'.initproc = s.initproc) : s'.Family := by
  obtain ⟨hforking, hsingle, hparent, hirrefl, hcleared, halive, hstays, htop, hstarted⟩ := h
  constructor
  all_goals
    rw [hslots]
    first | assumption | rw [hinit]; assumption

/-- Only a process in `exit` has been past slots. -/
theorem Family.init_not_cleared : (s.slots s.initproc).pc.cleared = 0 := by
  have hstays := h.init_stays
  generalize (s.slots s.initproc).pc = pc at hstays
  cases pc <;> first | rfl | cases hstays

theorem Family.ne_init (hpc : (s.slots p).pc = pc) (hexiting : pc.exiting = true) : p ≠ s.initproc := by
  rintro rfl
  rw [← hpc, h.init_stays] at hexiting
  cases hexiting

theorem Family.goto (hrefers : ∀ child, pc.Refers child → (s.slots p).pc.Refers child ∨
    (child ≠ p ∧ (s.slots child).state = .used ∧ ∀ p, ¬ (s.slots p).pc.Refers child))
    (hcleared : ∀ j : Fin n, j < pc.cleared → j ≠ p → (s.slots j).parent ≠ some p)
    (hexit : p = s.initproc → pc.exiting = false) : (s.goto p pc).Family := by
  apply h.edit
  constructor <;> grind [Slot.Alive]

theorem Family.goto_user (p : Fin n) : (s.goto p .user).Family :=
  h.goto (fun _ hrefers => hrefers.elim nofun nofun) (fun _ hj => absurd hj (Nat.not_lt_zero _)) fun _ => rfl

omit h in
theorem modify_comm (s : System n) {g : Slot n → Slot n} (hne : q ≠ p) : (s.modify q f).modify p g = (s.modify p g).modify q f := by
  unfold modify
  dsimp only
  rw [update_of_ne hne.symm, update_of_ne hne, update_comm hne]

theorem Family.allocate (hok : s.Ok) {alloc : Alloc} (hstate : (s.slots p).state = .running) (hunused : (s.slots q).state = .unused) :
    (s.allocate p q alloc).Family := by
  have hne : q ≠ p := by
    rintro rfl
    exact absurd (hunused.symm.trans hstate) nofun
  have hnone (r : Fin n) : (s.slots r).parent ≠ some q := fun hr => (h.parent r q hr).2.1 hunused
  have hfree (r : Fin n) : ¬ (s.slots r).pc.Refers q := fun hr => absurd (hunused.symm.trans (h.forking r q hr)) nofun
  have hinit : q ≠ s.initproc := by
    rintro rfl
    exact h.init_alive.1 hunused
  have hempty := ((hok q).unused hunused).2
  unfold System.allocate
  rcases (s.slots q).forkInto_cases (s.slots p) alloc s.nextpid s.ticks s.created s.now with ⟨sl, heq, hused, hpc, hparent, _⟩ | ⟨sl, heq, hpc, _, _⟩
  · rw [heq]
    dsimp only
    have hmod : (s.modify q fun _ => sl).Family := by
      apply h.edit
      constructor <;> grind [Pc.Refers, Pc.cleared]
    have hmod' : ({ s.modify q fun _ => sl with nextpid := s.nextpid + 1, created := s.created + 1 } : System n).Family := hmod.of_slots rfl rfl
    apply hmod'.goto <;> grind [Pc.Refers, Pc.cleared, Pc.exiting]
  · rw [heq]
    dsimp only
    have hmod : (s.modify q fun _ => sl.freeproc).Family := by
      apply h.edit
      constructor <;> grind [Pc.Refers, Pc.cleared]
    have hmod' : ({ s.modify q fun _ => sl.freeproc with nextpid := s.nextpid + 1, created := s.created + 1 } : System n).Family := hmod.of_slots rfl rfl
    exact hmod'.goto_user p

theorem Family.forkParent (hstate : (s.slots p).state = .running) (hpc : (s.slots p).pc = .forkParent child) :
    ((s.modify child fun sl => { sl with parent := some p }).goto p (.forkRunnable child)).Family := by
  have hused := h.forking p child (.inl hpc)
  have hne : p ≠ child := by
    rintro rfl
    exact absurd (hused.symm.trans hstate) nofun
  have halive : (s.slots p).Alive := by
    unfold Slot.Alive
    rw [hstate]
    exact ⟨nofun, nofun⟩
  have hmod : (s.modify child fun sl => { sl with parent := some p }).Family := by
    apply h.edit
    constructor <;> grind [Slot.Alive, Pc.cleared]
  apply hmod.goto <;> grind [Pc.Refers, Pc.cleared, Pc.exiting]

theorem Family.forkRunnable (hstate : (s.slots p).state = .running) (hpc : (s.slots p).pc = .forkRunnable child) :
    ((s.modify child fun sl => { sl with state := .runnable }).goto p .user).Family := by
  have hused := h.forking p child (.inr hpc)
  have hne : child ≠ p := by
    rintro rfl
    exact absurd (hused.symm.trans hstate) nofun
  -- `fork` lets go of the child first
  have hgo : (s.goto p .user).Family := h.goto_user p
  have hslot : (s.goto p .user).slots child = s.slots child := slots_goto_of_ne s _ hne
  have hcomm : (s.modify child fun sl => { sl with state := .runnable }).goto p .user =
    (s.goto p .user).modify child fun sl => { sl with state := .runnable } :=
    s.modify_comm hne
  rw [hcomm]
  have hsingle := h.single
  apply hgo.edit
  constructor <;> grind [Slot.Alive, Pc.Refers]

theorem Family.reparent {status : Int32} (hpc : (s.slots p).pc = .reparent status q) (hparent : (s.slots q).parent = some p) :
    ((s.modify q fun sl => { sl with parent := some s.initproc }).goto p (.reparentWake status q 0)).Family := by
  have hpi := h.ne_init hpc rfl
  have hqi : q ≠ s.initproc := by
    rintro rfl
    exact absurd (h.init_top.symm.trans hparent) nofun
  have hnone := h.init_not_cleared
  have hmod : (s.modify q fun sl => { sl with parent := some s.initproc }).Family := by
    apply h.edit
    constructor <;> grind [Slot.Alive]
  have hcleared := h.cleared p
  apply hmod.goto <;> grind [Pc.Refers, Pc.cleared]

theorem Family.loud (hok : s.Ok) (hloud : s.Loud e s') : s'.Family := by
  cases hloud with
  | @exit p status hne hpc =>
    have hclose : s.Quiet (s.modify p Slot.close) := quiet_modify ⟨rfl, rfl, rfl, rfl, rfl, rfl, rfl, .rfl, .rfl, .rfl, fun _ => id, Nat.le_refl _, id⟩
    exact (h.quiet hclose).goto (fun _ hrefers => hrefers.elim nofun nofun) (fun j hj => absurd hj (Nat.not_lt_zero _)) fun hinit => absurd hinit hne
  | allocate hstate _ hunused => exact h.allocate hok hstate hunused
  | forkParent hstate hpc _ => exact h.forkParent hstate hpc
  | forkRunnable hstate hpc => exact h.forkRunnable hstate hpc
  | reparent hpc hparent => exact h.reparent hpc hparent
  | @reparentNext p q status hpc hparent =>
    have hne := h.ne_init hpc rfl
    have hcleared := h.cleared p
    apply h.goto <;> grind [Pc.Refers, Pc.cleared, Fin.ext]
  | @reparentDone p status i hpc hi =>
    have hne := h.ne_init hpc rfl
    have hcleared := h.cleared p
    apply h.goto <;> grind [Pc.Refers, Pc.cleared]
  | @exitZombie p status hstate hpc =>
    have hnone (r : Fin n) : (s.slots r).parent ≠ some p := h.cleared p r (by rw [hpc]; exact r.isLt)
    refine h.edit ⟨fun _ hrefers => hrefers.elim nofun nofun, fun hused => absurd (hstate.symm.trans hused) nofun, fun _ => .inr hnone, fun _ => .inl,
      fun _ _ => nofun, fun j _ _ => hnone j, fun hinit => absurd hinit (h.ne_init hpc rfl)⟩
  | @reap p q ok havekids hstate hpc hparent hzombie =>
    have hnone (r : Fin n) : (s.slots r).parent ≠ some q := fun hr => (h.parent r q hr).2.2 hzombie
    have hmod : (s.modify q Slot.freeproc).Family := by
      apply h.edit
      constructor <;> grind [Slot.Alive]
    have hgo : ((s.modify q Slot.freeproc).goto p .user).Family := hmod.goto_user p
    exact hgo.of_slots rfl rfl
  | @kill p q pid hstate hpc hpid =>
    have hmod : (s.modify q Slot.kill).Family := h.same (f := Slot.kill) (s.slots q).kill_state rfl rfl
    exact hmod.goto_user p
  | tick _ | sweepDone _ _ => exact h.of_slots rfl rfl
  | @sweepSlot q _ =>
    have hmod : (s.modify q Slot.updateTime).Family := by apply h.same <;> grind
    exact hmod.of_slots rfl rfl

theorem Family.move (hok : s.Ok) (hmove : s.Move e s') : s'.Family :=
  (hmove.quiet_or hok).elim h.quiet (h.loud hok)

end

theorem Init.ok (h : s.Init) : s.Ok := by
  intro q
  by_cases hq : q = s.initproc
  · rw [hq]
    refine .of_awake (.inl h.initproc_state) ?_ fun hexit => ?_
    · rw [h.pc]
      rfl
    · rw [h.pc] at hexit
      cases hexit
  · have hunused := h.others_state q hq
    have hpc := h.pc q
    have hempty := (h.others_clean q hq).empty
    constructor <;> grind [Pc.exiting]

theorem Init.family (h : s.Init) : s.Family := by
  have hparent (q : Fin n) : (s.slots q).parent = none := by
    by_cases hq : q = s.initproc
    · rw [hq]
      exact h.initproc_parent
    · exact (h.others_clean q hq).parent
  have hpc := h.pc
  have hinit := h.initproc_state
  constructor <;> grind [Slot.Alive, Pc.Refers, Pc.cleared, Pc.exiting]

theorem ok_family (hs : Reachable Init (StepOf next) s) : s.Ok ∧ s.Family := by
  refine Reachable.invariant (I := fun s => s.Ok ∧ s.Family) (fun s h => ⟨h.ok, h.family⟩) (fun s s' _ h hstep => ?_) hs
  obtain ⟨e, hnext⟩ := hstep
  have hmove := move_of_next hnext
  exact ⟨h.1.move hmove h.2.forking fun q p hq => (h.2.parent q p hq).1, h.2.move h.1 hmove⟩

end System

end AdvancedXv6.ProcTable
