import AdvancedXv6.Scheduler.Model
import Mathlib.Data.Finset.Card

/-!
# Interrupts and spin locks

`acquire`, `release`, `push_off` and `pop_off` of one CPU, on any locks in any order. What `holding` says to a CPU is changed by that CPU alone, so a state has the locks that it holds; an acquisition is one that has come out of its spin loop.
-/

namespace AdvancedXv6.Scheduler

inductive Panic where
  | acquire
  | release
  | popOff

structure Core (n : ℕ) (L : Type*) where
  cpu : Cpu n
  held : Finset L

inductive LockCall (L : Type*) where
  | acquire (lk : L)
  | release (lk : L)
  | pushOff
  | popOff

namespace LockCall

variable {n k : ℕ} {L : Type*} [DecidableEq L] {cpu : Cpu n} {s : Core n L} {on : Bool} {calls : List (LockCall L)}

def popOffCore (s : Core n L) : Except Panic (Core n L) :=
  match s.cpu.popOff with
  | some cpu => .ok { s with cpu }
  | none => .error .popOff

def run (s : Core n L) : LockCall L → Except Panic (Core n L)
  | acquire lk => if lk ∈ s.held then .error .acquire else .ok { cpu := s.cpu.pushOff, held := insert lk s.held }
  | release lk => if lk ∈ s.held then popOffCore { s with held := s.held.erase lk } else .error .release
  | pushOff => .ok { s with cpu := s.cpu.pushOff }
  | popOff => popOffCore s

def runs (s : Core n L) (calls : List (LockCall L)) : Except Panic (Core n L) := calls.foldlM run s

def pushes : LockCall L → ℤ
  | acquire _ | pushOff => 1
  | release _ | popOff => -1

/-- Every release is of a lock that is held then and every `pop_off` has its `push_off`, where the locks `held` have been acquired and `k` times interrupts pushed off before. -/
def Matched : Finset L → ℕ → List (LockCall L) → Prop
  | _, _, [] => True
  | held, k, acquire lk :: calls => Matched (insert lk held) k calls
  | held, k, release lk :: calls => lk ∈ held ∧ Matched (held.erase lk) k calls
  | held, k, pushOff :: calls => Matched held (k + 1) calls
  | held, k, popOff :: calls => 0 < k ∧ Matched held (k - 1) calls

/-- Interrupts are off until the last `pop_off`, which makes the flag `on` again. -/
structure Saves (cpu : Cpu n) (on : Bool) : Prop where
  off : 0 < cpu.noff → cpu.intr = false
  intena : 0 < cpu.noff → cpu.intena = on
  restored : cpu.noff = 0 → cpu.intr = on

theorem Saves.pushOff (h : Saves cpu on) : Saves cpu.pushOff on := by
  refine ⟨fun _ => rfl, fun _ => ?_, nofun⟩
  change (if cpu.noff = 0 then cpu.intr else cpu.intena) = on
  split
  case isTrue hzero => exact h.restored hzero
  case isFalse hne => exact h.intena (Nat.pos_of_ne_zero hne)

theorem Saves.popOff (h : Saves cpu on) (hpos : 0 < cpu.noff) :
    ∃ cpu', cpu.popOff = some cpu' ∧ cpu'.noff + 1 = cpu.noff ∧ Saves cpu' on := by
  refine ⟨_, if_pos ⟨h.off hpos, hpos⟩, Nat.sub_add_cancel hpos, fun hpos' => ?_, fun _ => h.intena hpos, fun hzero => ?_⟩
  · simp [Nat.ne_of_gt hpos']
  · simp_all [h.intena hpos]

/-- The state after some calls: `k` times interrupts have been pushed off other than for the locks. -/
structure Sane (on : Bool) (k : ℕ) (s : Core n L) : Prop where
  saves : Saves s.cpu on
  noff : s.cpu.noff = s.held.card + k

omit [DecidableEq L] in
theorem Sane.popOffCore (h : Sane on k s) (held : Finset L) {j : ℕ} (hnoff : s.cpu.noff = held.card + j + 1) :
    ∃ s', popOffCore { s with held } = .ok s' ∧ s'.held = held ∧ Sane on j s' ∧ (s'.cpu.noff : ℤ) = s.cpu.noff + -1 := by
  obtain ⟨cpu, hpop, hcpu, hsaves⟩ := h.saves.popOff (by omega)
  refine ⟨{ cpu, held }, by simp [LockCall.popOffCore, hpop], rfl, ⟨hsaves, ?_⟩, ?_⟩
  · change cpu.noff = held.card + j
    omega
  · change (cpu.noff : ℤ) = s.cpu.noff + -1
    omega

/-- One call: unless it acquires a lock that is held, it does not panic. -/
theorem Sane.run (h : Sane on k s) {call : LockCall L} (hm : Matched s.held k (call :: calls)) :
    (∃ lk ∈ s.held, call = acquire lk ∧ call.run s = .error .acquire) ∨
      ∃ s' j, call.run s = .ok s' ∧ Sane on j s' ∧ (s'.cpu.noff : ℤ) = s.cpu.noff + call.pushes ∧ Matched s'.held j calls := by
  have hnoff := h.noff
  cases call with
  | acquire lk =>
    by_cases hlk : lk ∈ s.held
    · exact .inl ⟨lk, hlk, rfl, if_pos hlk⟩
    · refine .inr ⟨_, k, if_neg hlk, ⟨h.saves.pushOff, ?_⟩, rfl, hm⟩
      simp only [Cpu.pushOff, Finset.card_insert_of_notMem hlk]
      omega
  | release lk =>
    have hcard := Finset.card_erase_add_one hm.1
    obtain ⟨s', hs', hheld, hsane, hnoff'⟩ := h.popOffCore (s.held.erase lk) (j := k) (by omega)
    exact .inr ⟨s', k, (if_pos hm.1).trans hs', hsane, hnoff', hheld ▸ hm.2⟩
  | pushOff => exact .inr ⟨_, k + 1, rfl, ⟨h.saves.pushOff, by simp only [Cpu.pushOff]; omega⟩, rfl, hm⟩
  | popOff =>
    have hpos := hm.1
    obtain ⟨s', hs', hheld, hsane, hnoff'⟩ := h.popOffCore s.held (j := k - 1) (by omega)
    exact .inr ⟨s', k - 1, hs', hsane, hnoff', hheld ▸ hm.2⟩

theorem Sane.runs (h : Sane on k s) (hm : Matched s.held k calls) :
    (∃ before lk after s', calls = before ++ acquire lk :: after ∧ runs s before = .ok s' ∧ lk ∈ s'.held) ∨
      ∃ s' j, runs s calls = .ok s' ∧ Sane on j s' ∧ (s'.cpu.noff : ℤ) = s.cpu.noff + (calls.map pushes).sum := by
  induction calls generalizing s k with
  | nil => exact .inr ⟨s, k, rfl, h, by simp⟩
  | cons call calls ih =>
    rcases h.run hm with ⟨lk, hlk, rfl, -⟩ | ⟨s1, j, hs1, hsane, hnoff, hm1⟩
    · exact .inl ⟨[], lk, calls, s, rfl, rfl, hlk⟩
    · rcases ih hsane hm1 with ⟨before, lk, after, s', rfl, hs', hlk⟩ | ⟨s', j', hs', hsane', hnoff'⟩
      · exact .inl ⟨call :: before, lk, after, s', rfl, by rw [runs, List.foldlM_cons, hs1]; exact hs', hlk⟩
      · exact .inr ⟨s', j', by rw [runs, List.foldlM_cons, hs1]; exact hs', hsane', by rw [List.map_cons, List.sum_cons]; omega⟩

/-- Unless a lock is acquired that the CPU already holds, matched calls do not panic, and after any of them interrupts are off while `noff` is not 0, `noff` is the number of `push_off`s that are outstanding, and interrupts are as they were when it is 0. -/
theorem interrupts_off_while_locked (cpu : Cpu n) (calls : List (LockCall L)) (hcpu : cpu.noff = 0) (hm : Matched ∅ 0 calls) :
    (∃ before lk after s, calls = before ++ acquire lk :: after ∧ runs { cpu, held := ∅ } before = .ok s ∧ lk ∈ s.held) ∨
      ∃ s : Core n L, runs { cpu, held := ∅ } calls = .ok s ∧ s.cpu.noff = (calls.map pushes).sum ∧ (s.held.Nonempty → 0 < s.cpu.noff) ∧
        (0 < s.cpu.noff → s.cpu.intr = false) ∧ (s.cpu.noff = 0 → s.cpu.intr = cpu.intr) := by
  have hsane : Sane cpu.intr 0 (⟨cpu, ∅⟩ : Core n L) := ⟨⟨fun hpos => absurd hcpu hpos.ne', fun hpos => absurd hcpu hpos.ne', fun _ => rfl⟩, hcpu⟩
  refine (hsane.runs hm).imp_right fun ⟨s, j, hs, hsane', hnoff⟩ => ⟨s, hs, ?_, fun hheld => ?_, hsane'.saves.off, hsane'.saves.restored⟩
  · simpa [hcpu] using hnoff
  · have hcard := hheld.card_pos
    rw [hsane'.noff]
    omega

theorem runs_acquire_held {before after : List (LockCall L)} {lk : L} {s' : Core n L}
    (hs : runs s before = .ok s') (hlk : lk ∈ s'.held) :
    runs s (before ++ acquire lk :: after) = .error .acquire := by
  rw [runs] at hs
  rw [runs, List.foldlM_append, hs]
  change List.foldlM run s' (acquire lk :: after) = _
  rw [List.foldlM_cons, run, if_pos hlk]
  rfl

/-- Two locks are held at a time, and the one that was acquired first is released first. -/
theorem interrupts_off_while_overlapping : ∃ s s' : Core 0 Bool,
    runs ⟨⟨none, ⟨none, []⟩, 0, false, true, ⟨none, []⟩⟩, ∅⟩
      [acquire false, acquire true, release false] = .ok s ∧ s.cpu.intr = false ∧
    runs ⟨⟨none, ⟨none, []⟩, 0, false, true, ⟨none, []⟩⟩, ∅⟩
      [acquire false, acquire true, release false, release true] = .ok s' ∧ s'.cpu.intr = true := by
  have hmatched : Matched ∅ 0 [acquire false, acquire true, release false, release true] := by
    simp [Matched]
  have hfirst := interrupts_off_while_locked (⟨none, ⟨none, []⟩, 0, false, true, ⟨none, []⟩⟩ : Cpu 0)
    [acquire false, acquire true, release false] rfl (by simp [Matched])
  have hsecond := interrupts_off_while_locked
    (⟨none, ⟨none, []⟩, 0, false, true, ⟨none, []⟩⟩ : Cpu 0) _ rfl hmatched
  rcases hfirst with ⟨before, lk, after, s, hcalls, hrun, hlk⟩ | ⟨s, hs, hnoff, -, hoff, -⟩
  · cases (hcalls ▸ runs_acquire_held hrun hlk : _ = Except.error Panic.acquire)
  rcases hsecond with ⟨before, lk, after, s', hcalls, hrun, hlk⟩ | ⟨s', hs', hnoff', -, -, hon⟩
  · cases (hcalls ▸ runs_acquire_held hrun hlk : _ = Except.error Panic.acquire)
  simp only [List.map_cons, List.map_nil, pushes, List.sum_cons, List.sum_nil] at hnoff hnoff'
  exact ⟨s, s', hs, hoff (by omega), hs', hon (by omega)⟩

end LockCall

end AdvancedXv6.Scheduler
