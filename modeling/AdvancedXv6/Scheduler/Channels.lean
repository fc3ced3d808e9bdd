import AdvancedXv6.Pipes.Model

/-!
# Sleeping and waking

`sleep`, `wakeup` and `kill` of `kernel/proc.c` for any number of processes, channels and spin locks. Between the calls a process takes and releases locks as it likes. A step of `sleep` is one acquisition, release or change of the state, and a step of `wakeup` is one slot of the table. As in the model of pipes a process holds its own `p->lock` from the first line of `sleep` until the scheduler has released it, and `wakeup` and `kill` wait for it.

`wakeup` looks at a process that has released the lock given to `sleep` only after the process has become `SLEEPING`: until then it has its `p->lock`.
-/

namespace AdvancedXv6.Channels

open Function Relation Transition
open Pipes (Stage)

/-- Where a process is: in code that is not modelled, in `sleep(chan, lk)`, at the `acquire(lk)` with which it ends, or in `wakeup(chan)` before slot `q`. -/
inductive Pc where
  | code
  | sleep (stage : Stage) (chan lk : ℕ)
  | relock (lk : ℕ)
  | wakeup (chan q : ℕ)
  deriving DecidableEq

def Pc.holdsOwn : Pc → Bool
  | .sleep .unlock .. | .sleep .mark .. | .sleep .switch .. => true
  | _ => false

/-- The lock with which a process returns from `sleep`. -/
def Pc.sleepLock : Pc → Option ℕ
  | .sleep _ _ lk | .relock lk => some lk
  | _ => none

structure Proc where
  pc : Pc
  sleeping : Bool
  chan : Option ℕ
  killed : Bool
  /-- The number of calls of `sleep` so far. -/
  calls : ℕ

structure System (n : ℕ) where
  procs : Fin n → Proc
  locks : ℕ → Option (Fin n)

inductive Event (n : ℕ) where
  | acquire (p : Fin n) (lk : ℕ)
  | release (p : Fin n) (lk : ℕ)
  | sleep (p : Fin n) (chan lk : ℕ)
  | wakeup (p : Fin n) (chan : ℕ)
  | kill (q : Fin n)
  | run (p : Fin n)

namespace System

variable {n : ℕ}

def setProc (s : System n) (p : Fin n) (proc : Proc) : System n := { s with procs := update s.procs p proc }

def goto (s : System n) (p : Fin n) (pc : Pc) : System n := s.setProc p { s.procs p with pc }

def setLock (s : System n) (lk : ℕ) (holder : Option (Fin n)) : System n := { s with locks := update s.locks lk holder }

def wake (s : System n) (q : Fin n) (chan : ℕ) : System n :=
  if (s.procs q).sleeping ∧ (s.procs q).chan = some chan then s.setProc q { s.procs q with sleeping := false } else s

def run (s : System n) (p : Fin n) : Option (System n) :=
  match (s.procs p).pc with
  | .code => none
  | .sleep .lock chan lk => some (s.goto p (.sleep .unlock chan lk))
  | .sleep .unlock chan lk => if s.locks lk = some p then some ((s.setLock lk none).goto p (.sleep .mark chan lk)) else none
  | .sleep .mark chan lk => some (s.setProc p { s.procs p with chan := some chan, sleeping := true, pc := .sleep .switch chan lk })
  | .sleep .switch chan lk => some (s.goto p (.sleep .asleep chan lk))
  | .sleep .asleep _ lk => if (s.procs p).sleeping then none else some (s.setProc p { s.procs p with chan := none, pc := .relock lk })
  | .relock lk => if s.locks lk = none then some ((s.setLock lk (some p)).goto p .code) else none
  | .wakeup chan q =>
    if h : q < n then
      if ⟨q, h⟩ = p then some (s.goto p (.wakeup chan (q + 1)))
      else if (s.procs ⟨q, h⟩).pc.holdsOwn then none
      else some ((s.wake ⟨q, h⟩ chan).goto p (.wakeup chan (q + 1)))
    else some (s.goto p .code)

def next (s : System n) : Event n → Option (System n)
  | .acquire p lk => if (s.procs p).pc = .code ∧ s.locks lk = none then some (s.setLock lk (some p)) else none
  | .release p lk => if (s.procs p).pc = .code ∧ s.locks lk = some p then some (s.setLock lk none) else none
  | .sleep p chan lk =>
    if (s.procs p).pc = .code ∧ s.locks lk = some p then
      some (s.setProc p { s.procs p with pc := .sleep .lock chan lk, calls := (s.procs p).calls + 1 })
    else none
  | .wakeup p chan => if (s.procs p).pc = .code then some (s.goto p (.wakeup chan 0)) else none
  | .kill q => if (s.procs q).pc.holdsOwn then none else some (s.setProc q { s.procs q with killed := true, sleeping := false })
  | .run p => s.run p

def Init (s : System n) : Prop := ∀ p, (s.procs p).pc = .code ∧ (s.procs p).sleeping = false

variable {s s' : System n} {e : Event n} {a b : Fin n} {chan lk i : ℕ}

@[simp, grind =] theorem procs_setProc (p q : Fin n) (proc : Proc) : (s.setProc p proc).procs q = if q = p then proc else s.procs q := update_apply ..

@[simp, grind =] theorem locks_setProc (p : Fin n) (proc : Proc) : (s.setProc p proc).locks lk = s.locks lk := rfl

@[simp, grind =] theorem procs_goto (p q : Fin n) (pc : Pc) : (s.goto p pc).procs q = if q = p then { s.procs p with pc } else s.procs q := update_apply ..

@[simp, grind =] theorem locks_goto (p : Fin n) (pc : Pc) : (s.goto p pc).locks lk = s.locks lk := rfl

@[simp, grind =] theorem procs_setLock (holder : Option (Fin n)) (p : Fin n) : (s.setLock lk holder).procs p = s.procs p := rfl

@[simp, grind =] theorem locks_setLock (holder : Option (Fin n)) (lk' : ℕ) : (s.setLock lk holder).locks lk' = if lk' = lk then holder else s.locks lk' :=
  update_apply ..

@[simp, grind =] theorem procs_wake (p q : Fin n) : (s.wake q chan).procs p =
    if p = q ∧ (s.procs q).sleeping ∧ (s.procs q).chan = some chan then { s.procs q with sleeping := false } else s.procs p := by
  unfold wake
  split <;> grind

@[simp, grind =] theorem locks_wake (q : Fin n) : (s.wake q chan).locks lk = s.locks lk := by
  unfold wake
  split <;> rfl

/-! ### Sleepers -/

structure Inv (s : System n) : Prop where
  holds : ∀ p stage chan lk, (s.procs p).pc = .sleep stage chan lk → stage = .lock ∨ stage = .unlock → s.locks lk = some p
  asleep : ∀ p, (s.procs p).sleeping = true → ∃ stage chan lk, (s.procs p).pc = .sleep stage chan lk ∧
    (stage = .switch ∨ stage = .asleep) ∧ (s.procs p).chan = some chan

theorem Inv.next (h : s.Inv) (hnext : s.next e = some s') : s'.Inv := by
  obtain ⟨hholds, hasleep⟩ := h
  constructor <;> cases e with
  | run p =>
    simp only [System.next, System.run] at hnext
    split at hnext <;> grind
  | _ => grind [System.next]

theorem inv (hs : Reachable Init (StepOf next) s) : s.Inv := by
  refine Reachable.invariant (I := Inv) (fun s h => ⟨?_, ?_⟩) (fun _ _ _ h ⟨_, hnext⟩ => h.next hnext) hs <;> grind [Init]

/-! ### Wakeups -/

/-- The loop of `wakeup(chan)` has come past the processes below `i` that sleep with the lock: none of them sleeps any more, or is about to. -/
def Past (s : System n) (b : Fin n) (chan lk i : ℕ) : Prop :=
  ∀ a : Fin n, a ≠ b → a < i → ∀ stage, (s.procs a).pc = .sleep stage chan lk → stage = .asleep ∧ (s.procs a).sleeping = false

def StepHolding (b : Fin n) (lk : ℕ) (s s' : System n) : Prop := StepOf next s s' ∧ s'.locks lk = some b

theorem Past.next (h : s.Past b chan lk i) (hinv : s.Inv) (hlock : s.locks lk = some b) (hnext : s.next e = some s') : s'.Past b chan lk i := by
  intro a hab hai stage hpc
  have hold := h a hab hai
  have hholds := hinv.holds a
  cases e with
  | run p => grind [System.next, System.run]
  | _ => grind [System.next]

def Waking (s : System n) (b : Fin n) (chan lk : ℕ) : Prop := (∃ i, (s.procs b).pc = .wakeup chan i ∧ s.Past b chan lk i) ∨ s.Past b chan lk n

/-- The process before slot `i` does not hold its own lock when the loop looks at it, so it sleeps already if it has released `lk` and was not woken. -/
theorem Past.wake (h : s.Past b chan lk i) (hi : i < n) (hinv : s.Inv) (hlock : s.locks lk = some b) (hown : (s.procs ⟨i, hi⟩).pc.holdsOwn = false) :
    (s.wake ⟨i, hi⟩ chan).Past b chan lk (i + 1) := by
  intro a hab hai stage hpc
  have hholds := hinv.holds a
  have hasleep := hinv.asleep a
  rcases Nat.lt_succ_iff_lt_or_eq.1 hai with hlt | rfl
  · grind [h a hab hlt]
  · cases stage <;> grind [Pc.holdsOwn]

theorem Past.goto {pc : Pc} (h : s.Past b chan lk i) : (s.goto b pc).Past b chan lk i := by
  intro a hab
  simpa [hab] using h a hab

theorem Past.skip (h : s.Past b chan lk b) : s.Past b chan lk (b + 1) := by
  intro a hab hlt
  exact h a hab (by omega)

theorem Waking.next (h : s.Waking b chan lk) (hinv : s.Inv) (hlock : s.locks lk = some b) (hnext : s.next e = some s') : s'.Waking b chan lk := by
  obtain ⟨i, hpc, hpast⟩ | hdone := h
  · by_cases he : e = .run b
    · subst he
      simp only [System.next, System.run, hpc] at hnext
      split_ifs at hnext with hi hb hown <;> obtain rfl := Option.some.inj hnext
      · subst hb
        exact .inl ⟨i + 1, by simp, hpast.skip.goto⟩
      · exact .inl ⟨i + 1, by simp, (hpast.wake hi hinv hlock (Bool.eq_false_iff.2 hown)).goto⟩
      · exact .inr fun a hab _ => hpast.goto a hab (by omega)
    · refine .inl ⟨i, ?_, hpast.next hinv hlock hnext⟩
      cases e <;> grind [System.next, System.run]
  · exact .inr (hdone.next hinv hlock hnext)

/-- A process sleeps on `chan` with `lk` in its call number `call`, unless it has come to a later one. -/
def Since (s : System n) (a : Fin n) (chan lk call : ℕ) : Prop :=
  call < (s.procs a).calls ∨ ∀ stage chan' lk', (s.procs a).pc = .sleep stage chan' lk' → chan' = chan ∧ lk' = lk

theorem Since.next {call : ℕ} (h : s.Since a chan lk call) (hcall : call ≤ (s.procs a).calls) (hnext : s.next e = some s') :
    s'.Since a chan lk call ∧ call ≤ (s'.procs a).calls := by
  unfold Since at *
  cases e with
  | run p =>
    simp only [System.next, System.run] at hnext
    split at hnext <;> grind
  | _ => grind [System.next]

theorem Since.run {call : ℕ} (h : s.Since a chan lk call) (hcall : call ≤ (s.procs a).calls) (hrun : ReflTransGen (StepOf System.next) s s') :
    s'.Since a chan lk call ∧ call ≤ (s'.procs a).calls := by
  induction hrun with
  | refl => exact ⟨h, hcall⟩
  | tail _ hstep ih =>
    obtain ⟨e, hnext⟩ := hstep
    exact ih.1.next ih.2 hnext

theorem StepHolding.run (hrun : ReflTransGen (StepHolding b lk) s s') : ReflTransGen (StepOf next) s s' :=
  hrun.lift id fun _ _ h => h.1

theorem StepHolding.locks (hlock : s.locks lk = some b) (hrun : ReflTransGen (StepHolding b lk) s s') : s'.locks lk = some b := by
  cases hrun with
  | refl => exact hlock
  | tail _ hstep => exact hstep.2

theorem Waking.run (h : s.Waking b chan lk) (hs : Reachable Init (StepOf System.next) s) (hlock : s.locks lk = some b)
    (hrun : ReflTransGen (StepHolding b lk) s s') : s'.Waking b chan lk := by
  induction hrun with
  | refl => exact h
  | tail hrun hstep ih =>
    obtain ⟨e, hnext⟩ := hstep.1
    exact ih.next (inv (hs.trans (StepHolding.run hrun))) (StepHolding.locks hlock hrun) hnext

/-- A process that has released `lk` in `sleep(chan, lk)` does not sleep on because of that call
after a `wakeup(chan)` by a process that has had the lock since, and it stays in `sleep` until it has
the lock itself. -/
theorem wakeup_not_lost :
    (∀ {s0 s1 s2 s3 s4 s5 : System n} {a b : Fin n} {chan lk : ℕ},
      Reachable Init (StepOf next) s0 → (s0.procs a).pc = .sleep .unlock chan lk →
      s0.next (.run a) = some s1 → ReflTransGen (StepOf next) s1 s2 → s2.locks lk = some b →
      ReflTransGen (StepHolding b lk) s2 s3 → s3.next (.wakeup b chan) = some s4 →
      ReflTransGen (StepHolding b lk) s4 s5 → (s5.procs b).pc = .code →
      ¬((s5.procs a).calls = (s0.procs a).calls ∧ (s5.procs a).sleeping = true)) ∧
    ∀ {s s' : System n} {e : Event n} {a : Fin n} {lk : ℕ},
      (s.procs a).pc.sleepLock = some lk → s.next e = some s' →
      (s'.procs a).pc.sleepLock = some lk ∨
        ((s'.procs a).pc = .code ∧ s'.locks lk = some a) := by
  constructor
  · rintro s0 s1 s2 s3 s4 s5 a b chan lk hs hpc hrelease hrun hlock hheld hwakeup hwake hreturn
      ⟨hcalls, hsleeping⟩
    have hlock3 : s3.locks lk = some b := StepHolding.locks hlock hheld
    have hlock4 : s4.locks lk = some b := by grind [System.next]
    have hwaking : s4.Waking b chan lk :=
      .inl ⟨0, by grind [System.next], fun _ _ h => absurd h (Nat.not_lt_zero _)⟩
    have hrun4 : ReflTransGen (StepOf next) s0 s4 :=
      ((hrun.trans (StepHolding.run hheld)).tail ⟨_, hwakeup⟩).head ⟨_, hrelease⟩
    have hpast : s5.Past b chan lk n :=
      (hwaking.run (hs.trans hrun4) hlock4 hwake).resolve_left (by simp [hreturn])
    have hrun5 := hrun4.trans (StepHolding.run hwake)
    have hsince := (Since.run (.inr (by grind)) le_rfl hrun5 : s5.Since a chan lk _ ∧ _).1
    obtain ⟨stage, chan', lk', hpc', -, -⟩ := (inv (hs.trans hrun5)).asleep a hsleeping
    obtain ⟨rfl, rfl⟩ := hsince.resolve_left (by omega) stage chan' lk' hpc'
    have hab : a ≠ b := by
      rintro rfl
      simp [hreturn] at hpc'
    simp [(hpast a hab a.isLt stage hpc').2] at hsleeping
  · intro s s' e a lk hpc hnext
    cases e with
    | run p =>
      simp only [System.next, System.run] at hnext
      split at hnext <;> grind [Pc.sleepLock]
    | _ => grind [System.next, Pc.sleepLock]

/-- Process 1 sleeps until process 0 wakes it and goes to sleep in its turn. It gets the lock as its
`sleep` returns, and wakes process 0. -/
theorem wakeup_not_lost_pair : ∃ s0 s5 : System 2, Reachable Init (StepOf next) s0 ∧
    (s0.procs 0).pc = .sleep .unlock 7 3 ∧ ReflTransGen (StepOf next) s0 s5 ∧
    (s5.procs 1).pc = .code ∧ (s5.procs 0).pc = .sleep .asleep 7 3 ∧
    ¬((s5.procs 0).calls = (s0.procs 0).calls ∧ (s5.procs 0).sleeping = true) := by
  let start : System 2 := ⟨fun _ => ⟨.code, false, none, false, 0⟩, fun _ => none⟩
  have hs := (Reachable.of_init fun _ => ⟨rfl, rfl⟩ : Reachable Init (StepOf next) start)
  have hrun (schedule : List (Event 2)) {s s' : System 2}
    (h : runSchedule next s schedule = some s') := runSchedule_run h
  have h0 := hs.trans (hrun [.acquire 1 3, .sleep 1 5 3, .run 1, .run 1, .run 1, .run 1,
    .acquire 0 3, .wakeup 0 5, .run 0, .run 0, .run 0, .sleep 0 7 3, .run 0] rfl)
  have hheld {s s' : System 2} (h : s.next (.run 1) = some s') (hlock : s'.locks 3 = some 1) :
    StepHolding 1 3 s s' := ⟨⟨_, h⟩, hlock⟩
  exact ⟨_, _, h0, rfl, hrun [.run 0, .run 0, .run 0, .run 1, .run 1, .wakeup 1 7, .run 1, .run 1,
    .run 1] rfl, rfl, rfl, wakeup_not_lost.1 h0 rfl rfl (hrun [.run 0, .run 0, .run 1, .run 1] rfl)
      rfl .refl rfl (.head (hheld rfl rfl) (.head (hheld rfl rfl) (.single (hheld rfl rfl)))) rfl⟩

end System

end AdvancedXv6.Channels
