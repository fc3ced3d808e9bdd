import AdvancedXv6.Pipes.Model

/-!
# What a step of a user of the pipe does

`Move` lists the steps once; the results about pipes go through its cases. The first of them is that `pi->lock` excludes: whoever is at a line between `acquire` and `release` is the one that the lock names, so what a process has seen of the pipe is true until it releases the lock.
-/

namespace AdvancedXv6.Pipes

open Function Transition

namespace System

variable {n : ℕ} {s s' : System n} {p q : Fin n} {pc : Pc}

inductive Move (s : System n) : Event n → System n → Prop where
  | write {p : Fin n} {ret : ℤ} {src : ℕ → Option UInt8} {count : Int32} : (s.procs p).pc = .outside ret →
      Move s (.write p src count) (s.goto p (.acquire (.write src count 0)))
  | read {p : Fin n} {ret : ℤ} {dst : ℕ → Bool} {count : Int32} : (s.procs p).pc = .outside ret →
      Move s (.read p dst count) (s.goto p (.acquire (.read dst count)))
  | close {p : Fin n} {ret : ℤ} {writable : Bool} : (s.procs p).pc = .outside ret → Move s (.close p writable) (s.goto p (.closeAcquire writable))
  | kill {q : Fin n} : (s.procs q).pc.holdsOwn = false → Move s (.kill q) (s.setProc q { s.procs q with killed := true, sleeping := false })
  | acquire {p : Fin n} {op : Op} : (s.procs p).pc = .acquire op → s.lock = none → Move s (.run p) ({ s with lock := some p }.goto p op.head)
  | acquireClose {p : Fin n} {writable : Bool} : (s.procs p).pc = .closeAcquire writable → s.lock = none →
      Move s (.run p) ({ s with lock := some p }.goto p (.closeEnd writable))
  | writeTest {p : Fin n} {src : ℕ → Option UInt8} {count : Int32} {i : ℕ} {fresh : Bool} : (s.procs p).pc = .writeLoop src count i fresh →
      Move s (.run p) (s.goto p (s.writeTest p src count i fresh))
  | writePut {p : Fin n} {src : ℕ → Option UInt8} {count : Int32} {i : ℕ} {fresh : Bool} {ch : UInt8} :
      (s.procs p).pc = .writePut src count i fresh ch →
      Move s (.run p) ({ s with pipe := s.pipe.put ch, accepted := s.accepted ++ [ch] }.goto p (.writeLoop src count (i + 1) true))
  | readTest {p : Fin n} {dst : ℕ → Bool} {count : Int32} : (s.procs p).pc = .readWait dst count → Move s (.run p) (s.goto p (s.readTest p dst count))
  | readTurn {p : Fin n} {dst : ℕ → Bool} {count : Int32} {i : ℕ} : (s.procs p).pc = .readLoop dst count i → Move s (.run p) (s.readTurn p dst count i)
  | closeEnd {p : Fin n} {writable : Bool} : (s.procs p).pc = .closeEnd writable →
      Move s (.run p) ({ s with pipe := s.pipe.close writable }.goto p (.wakeup (if writable then .nread else .nwrite) 0 (.release 0)))
  | wakeSelf {p : Fin n} {chan : Chan} {after : After} : (s.procs p).pc = .wakeup chan p after → Move s (.run p) (s.goto p (.wakeup chan (p + 1) after))
  | wake {p q : Fin n} {chan : Chan} {after : After} : (s.procs p).pc = .wakeup chan q after → q ≠ p → (s.procs q).pc.holdsOwn = false →
      Move s (.run p) ((s.wake q chan).goto p (.wakeup chan (q + 1) after))
  | wakeDone {p : Fin n} {chan : Chan} {q : ℕ} {after : After} : (s.procs p).pc = .wakeup chan q after → n ≤ q → Move s (.run p) (s.goto p after.pc)
  | release {p : Fin n} {ret : ℤ} : (s.procs p).pc = .release ret → Move s (.run p) ({ s with lock := none }.goto p (.outside ret))
  | sleepLock {p : Fin n} {op : Op} : (s.procs p).pc = .sleep .lock op → Move s (.run p) (s.goto p (.sleep .unlock op))
  | sleepUnlock {p : Fin n} {op : Op} : (s.procs p).pc = .sleep .unlock op → Move s (.run p) ({ s with lock := none }.goto p (.sleep .mark op))
  | sleepMark {p : Fin n} {op : Op} : (s.procs p).pc = .sleep .mark op →
      Move s (.run p) (s.setProc p { s.procs p with chan := some op.chan, sleeping := true, pc := .sleep .switch op })
  | sleepSwitch {p : Fin n} {op : Op} : (s.procs p).pc = .sleep .switch op → Move s (.run p) (s.goto p (.sleep .asleep op))
  | sleepDone {p : Fin n} {op : Op} : (s.procs p).pc = .sleep .asleep op → (s.procs p).sleeping = false →
      Move s (.run p) (s.setProc p { s.procs p with chan := none, pc := .acquire op })

theorem start_eq_some (h : s.start p pc = some s') : ∃ ret, (s.procs p).pc = .outside ret ∧ s' = s.goto p pc := by
  unfold start at h
  split at h
  · rename_i ret hpc
    cases h
    exact ⟨ret, hpc, rfl⟩
  · cases h

theorem acquire_eq_some (h : s.acquire p pc = some s') : s.lock = none ∧ s' = { s with lock := some p }.goto p pc := by
  unfold acquire at h
  split at h
  · rename_i hlock
    cases h
    exact ⟨hlock, rfl⟩
  · cases h

theorem move_of_run (h : s.run p = some s') : s.Move (.run p) s' := by
  unfold run at h
  split at h
  case h_1 => cases h
  case h_2 hpc =>
    obtain ⟨hlock, rfl⟩ := acquire_eq_some h
    exact .acquire hpc hlock
  case h_3 hpc =>
    cases h
    exact .writeTest hpc
  case h_4 hpc =>
    cases h
    exact .writePut hpc
  case h_5 hpc =>
    cases h
    exact .readTest hpc
  case h_6 hpc =>
    cases h
    exact .readTurn hpc
  case h_7 hpc =>
    obtain ⟨hlock, rfl⟩ := acquire_eq_some h
    exact .acquireClose hpc hlock
  case h_8 hpc =>
    cases h
    exact .closeEnd hpc
  case h_9 chan q after hpc =>
    split at h
    · rename_i hq
      split at h
      · rename_i heq
        cases h
        have hval : q = p := congrArg Fin.val heq
        rw [hval] at hpc ⊢
        exact .wakeSelf hpc
      · rename_i hne
        split at h
        · cases h
        · rename_i hown
          cases h
          have hpc' : (s.procs p).pc = .wakeup chan (⟨q, hq⟩ : Fin n) after := hpc
          exact .wake hpc' hne (Bool.eq_false_iff.mpr hown)
    · rename_i hq
      cases h
      exact .wakeDone hpc (Nat.le_of_not_lt hq)
  case h_10 hpc =>
    cases h
    exact .release hpc
  case h_11 hpc =>
    cases h
    exact .sleepLock hpc
  case h_12 hpc =>
    cases h
    exact .sleepUnlock hpc
  case h_13 hpc =>
    cases h
    exact .sleepMark hpc
  case h_14 hpc =>
    cases h
    exact .sleepSwitch hpc
  case h_15 hpc =>
    split at h
    · cases h
    · rename_i hawake
      cases h
      exact .sleepDone hpc (Bool.eq_false_iff.mpr hawake)

theorem move_of_next {e : Event n} (h : s.next e = some s') : s.Move e s' := by
  cases e with
  | write p src count =>
    obtain ⟨ret, hpc, rfl⟩ := start_eq_some h
    exact .write hpc
  | read p dst count =>
    obtain ⟨ret, hpc, rfl⟩ := start_eq_some h
    exact .read hpc
  | close p writable =>
    obtain ⟨ret, hpc, rfl⟩ := start_eq_some h
    exact .close hpc
  | kill q =>
    simp only [next, System.kill] at h
    split at h
    · cases h
    · rename_i hown
      cases h
      exact .kill (Bool.eq_false_iff.mpr hown)
  | run p => exact move_of_run h

/-! ### Processes after a step -/

section

variable (s : System n)

@[simp] theorem procs_setProc_self (p : Fin n) (proc : Proc) : (s.setProc p proc).procs p = proc := update_self ..

theorem procs_setProc_of_ne (proc : Proc) (h : q ≠ p) : (s.setProc p proc).procs q = s.procs q := update_of_ne h ..

@[simp] theorem procs_goto_self (p : Fin n) (pc : Pc) : (s.goto p pc).procs p = { s.procs p with pc } := update_self ..

theorem procs_goto_of_ne (pc : Pc) (h : q ≠ p) : (s.goto p pc).procs q = s.procs q := update_of_ne h ..

@[simp] theorem lock_goto : (s.goto p pc).lock = s.lock := rfl

@[simp] theorem pipe_goto : (s.goto p pc).pipe = s.pipe := rfl

theorem pc_wake (q : Fin n) (chan : Chan) (p : Fin n) : ((s.wake q chan).procs p).pc = (s.procs p).pc := by
  unfold wake
  split
  · by_cases hp : p = q
    · rw [hp, procs_setProc_self]
    · rw [procs_setProc_of_ne _ _ hp]
  · rfl

@[simp] theorem lock_wake (q : Fin n) (chan : Chan) : (s.wake q chan).lock = s.lock := by
  unfold wake
  split <;> rfl

@[simp] theorem pipe_wake (q : Fin n) (chan : Chan) : (s.wake q chan).pipe = s.pipe := by
  unfold wake
  split <;> rfl

end

end System

/-! ### Exclusion -/

/-- What a process that holds the lock has seen of the pipe. -/
def Pc.Knows (pi : Pipe) : Pc → Prop
  | .writePut .. => ¬ pi.full
  | .wakeup _ _ (.sleep op) => op.chan = .nwrite ∧ pi.full ∧ pi.readopen = true
  | _ => True

theorem Pc.knows_of_not_holds {pc : Pc} (h : pc.holds = false) (pi : Pipe) : pc.Knows pi := by
  cases pc <;> trivial

theorem Pc.Knows.next {pi : Pipe} {chan : Chan} {q : ℕ} {after : After}
    (h : (Pc.wakeup chan q after).Knows pi) : (Pc.wakeup chan (q + 1) after).Knows pi := by
  cases after <;> exact h

theorem Op.holds_head (op : Op) : op.head.holds = true := by cases op <;> rfl

theorem Op.knows_head (op : Op) (pi : Pipe) : op.head.Knows pi := by cases op <;> trivial

namespace System

variable {n : ℕ} {s s' : System n} {p q : Fin n}

structure Held (s : System n) : Prop where
  lock_iff : ∀ p, (s.procs p).pc.holds = true ↔ s.lock = some p
  knows : ∀ p, (s.procs p).pc.Knows s.pipe

/-- A step of a process that is neither before nor after it at a line that needs the lock, or at both. -/
theorem Held.of_same (h : s.Held) (hother : ∀ q, q ≠ p → (s'.procs q).pc = (s.procs q).pc) (hlock : s'.lock = s.lock) (hpipe : s'.pipe = s.pipe)
    (hholds : (s'.procs p).pc.holds = (s.procs p).pc.holds) (hknows : (s'.procs p).pc.Knows s.pipe) : s'.Held := by
  refine ⟨fun q => ?_, fun q => ?_⟩
  · rw [hlock, ← h.lock_iff q]
    by_cases hq : q = p
    · rw [hq, hholds]
    · rw [hother q hq]
  · rw [hpipe]
    by_cases hq : q = p
    · rw [hq]
      exact hknows
    · rw [hother q hq]
      exact h.knows q

theorem Held.of_owner (h : s.Held) (hown : s.lock = none ∨ s.lock = some p) (hother : ∀ q, q ≠ p → (s'.procs q).pc = (s.procs q).pc)
    (hlock : s'.lock = if (s'.procs p).pc.holds then some p else none) (hknows : (s'.procs p).pc.Knows s'.pipe) : s'.Held := by
  have hnot (q : Fin n) (hq : q ≠ p) : (s.procs q).pc.holds = false := by
    refine Bool.eq_false_iff.mpr fun hholds => ?_
    have hlock' := (h.lock_iff q).mp hholds
    rcases hown with hnone | hsome
    · exact absurd (hnone.symm.trans hlock') nofun
    · exact hq (Option.some.inj (hlock'.symm.trans hsome))
  refine ⟨fun q => ?_, fun q => ?_⟩
  · by_cases hq : q = p
    · rw [hq, hlock]
      split
      · rename_i hholds
        exact iff_of_true hholds rfl
      · rename_i hholds
        exact iff_of_false hholds nofun
    · rw [hother q hq, hnot q hq, hlock]
      split
      · exact iff_of_false nofun fun heq => hq (Option.some.inj heq).symm
      · exact iff_of_false nofun nofun
  · by_cases hq : q = p
    · rw [hq]
      exact hknows
    · rw [hother q hq]
      exact Pc.knows_of_not_holds (hnot q hq) _

theorem pc_goto_of_ne (s : System n) {pc : Pc} (h : q ≠ p) : ((s.goto p pc).procs q).pc = (s.procs q).pc := by rw [procs_goto_of_ne s pc h]

theorem Held.goto (h : s.Held) {pc : Pc} (hholds : pc.holds = (s.procs p).pc.holds) (hknows : pc.Knows s.pipe) : (s.goto p pc).Held := by
  have hpc : ((s.goto p pc).procs p).pc = pc := by rw [procs_goto_self]
  refine h.of_same (fun q hq => s.pc_goto_of_ne hq) rfl rfl ?_ ?_
  · rw [hpc, hholds]
  · rw [hpc]
    exact hknows

theorem Held.own (h : s.Held) (hown : s.lock = none ∨ (s.procs p).pc.holds = true) {pc : Pc} (hprocs : s'.procs = s.procs)
    (hlock : s'.lock = if pc.holds then some p else none) (hknows : pc.Knows s'.pipe) : (s'.goto p pc).Held := by
  have hpc : ((s'.goto p pc).procs p).pc = pc := by rw [procs_goto_self]
  refine h.of_owner (p := p) (hown.imp_right fun hholds => (h.lock_iff p).mp hholds) (fun q hq => ?_) ?_ ?_
  · rw [pc_goto_of_ne s' hq, hprocs]
  · rw [hpc, ← hlock]
    rfl
  · rw [hpc]
    exact hknows

theorem knows_writeTest (s : System n) (p : Fin n) (src : ℕ → Option UInt8) (count : Int32) (i : ℕ) (fresh : Bool) :
    (s.writeTest p src count i fresh).holds = true ∧ (s.writeTest p src count i fresh).Knows s.pipe := by
  unfold System.writeTest
  split
  · split
    · exact ⟨rfl, trivial⟩
    · rename_i hgo
      split
      · rename_i hfull
        refine ⟨rfl, rfl, hfull, ?_⟩
        exact Bool.eq_true_of_not_eq_false fun hclosed => hgo (.inl hclosed)
      · rename_i hfull
        split
        · exact ⟨rfl, trivial⟩
        · exact ⟨rfl, hfull⟩
  · exact ⟨rfl, trivial⟩

theorem knows_readTest (s : System n) (p : Fin n) (dst : ℕ → Bool) (count : Int32) :
    (s.readTest p dst count).holds = true ∧ (s.readTest p dst count).Knows s.pipe := by
  unfold System.readTest
  split
  · split
    · exact ⟨rfl, trivial⟩
    · exact ⟨rfl, trivial⟩
  · exact ⟨rfl, trivial⟩

theorem Held.move (h : s.Held) {e : Event n} (hmove : s.Move e s') : s'.Held := by
  have hlock {p : Fin n} (hholds : (s.procs p).pc.holds = true) : s.lock = some p := (h.lock_iff p).mp hholds
  cases hmove with
  | write hpc | read hpc | close hpc | sleepLock hpc | sleepSwitch hpc =>
    exact h.goto (by rw [hpc]; rfl) trivial
  | kill hown =>
    rename_i q
    refine h.of_same (p := q) (fun p hp => by rw [procs_setProc_of_ne _ _ hp]) rfl rfl ?_ ?_
    · rw [procs_setProc_self]
    · rw [procs_setProc_self]
      exact h.knows q
  | acquire hpc hfree =>
    rename_i op
    exact h.own (.inl hfree) rfl (by rw [op.holds_head]; rfl) (op.knows_head _)
  | acquireClose hpc hfree => exact h.own (.inl hfree) rfl rfl trivial
  | writeTest hpc =>
    obtain ⟨hholds, hknows⟩ := s.knows_writeTest _ _ _ _ _
    exact h.goto (by rw [hpc, hholds]; rfl) hknows
  | writePut hpc =>
    rename_i p _ _ _ _ _
    have hholds : (s.procs p).pc.holds = true := by rw [hpc]; rfl
    exact h.own (.inr hholds) rfl (hlock hholds) trivial
  | readTest hpc =>
    obtain ⟨hholds, hknows⟩ := s.knows_readTest _ _ _
    exact h.goto (by rw [hpc, hholds]; rfl) hknows
  | readTurn hpc =>
    rename_i p _ _ _
    have hholds : (s.procs p).pc.holds = true := by rw [hpc]; rfl
    unfold System.readTurn
    split
    · split
      · exact h.own (.inr hholds) rfl (hlock hholds) trivial
      · exact h.own (.inr hholds) rfl (hlock hholds) trivial
    · exact h.goto (by rw [hholds]; rfl) trivial
  | closeEnd hpc =>
    rename_i p _
    have hholds : (s.procs p).pc.holds = true := by rw [hpc]; rfl
    exact h.own (.inr hholds) rfl (hlock hholds) trivial
  | wakeSelf hpc =>
    rename_i p _ _
    have hknows := h.knows p
    rw [hpc] at hknows
    exact h.goto (by rw [hpc]; rfl) hknows.next
  | wake hpc _ _ =>
    rename_i p q chan after _ _
    have hknows := h.knows p
    rw [hpc] at hknows
    refine h.of_same (p := p) (fun r hr => ?_) ?_ ?_ ?_ ?_
    · rw [pc_goto_of_ne _ hr, pc_wake]
    · rw [lock_goto, lock_wake]
    · rw [pipe_goto, pipe_wake]
    · rw [procs_goto_self, hpc]
      rfl
    · rw [procs_goto_self]
      exact hknows.next
  | wakeDone hpc _ =>
    rename_i after _
    refine h.goto (by rw [hpc]; cases after <;> rfl) ?_
    cases after <;> trivial
  | release hpc | sleepUnlock hpc => exact h.own (.inr (by rw [hpc]; rfl)) rfl rfl trivial
  | sleepMark hpc =>
    rename_i p op
    refine h.of_same (p := p) (fun q hq => by rw [procs_setProc_of_ne _ _ hq]) rfl rfl ?_ ?_
    · rw [procs_setProc_self, hpc]
      rfl
    · rw [procs_setProc_self]
      trivial
  | sleepDone hpc _ =>
    rename_i p op _
    refine h.of_same (p := p) (fun q hq => by rw [procs_setProc_of_ne _ _ hq]) rfl rfl ?_ ?_
    · rw [procs_setProc_self, hpc]
      rfl
    · rw [procs_setProc_self]
      trivial

theorem Init.held (h : s.Init) : s.Held := by
  refine ⟨fun p => ?_, fun p => ?_⟩
  · rw [h.pc p, h.lock]
    exact iff_of_false nofun nofun
  · rw [h.pc p]
    trivial

theorem held (hs : Reachable Init (StepOf next) s) : s.Held := by
  refine Reachable.invariant (fun s h => h.held) (fun s s' _ h hstep => ?_) hs
  obtain ⟨e, hnext⟩ := hstep
  exact h.move (move_of_next hnext)

end System

end AdvancedXv6.Pipes
