import AdvancedXv6.Scheduler.Model
import Mathlib.Algebra.GroupWithZero.Nat

/-!
# Frames

What a CPU holds can be read off from its frames, and so can the process it works for. A `p->lock` is taken by `scheduler` and released by the process that it switches to, or the other way round: the frames that are stored say which lock the one who loads them takes over.
-/

namespace AdvancedXv6.Scheduler

open ProcTable (ProcState)

variable {n : ℕ}

/-! ### Frames -/

namespace Frame

/-- The `p->lock` that is held at this place, by code on the stack of `own`. -/
def holds (own : Option (Fin n)) : Frame n → Option (Fin n)
  | .schedulerSave p | .schedulerLoad p | .schedulerBack p | .schedulerRelease p => some p
  | .forkret => own
  | .yielded p | .sleepRelease p _ | .slept p | .exitRelease p | .exited p => some p
  | .wakeupRelease _ q | .killRelease _ q _ => some q
  | _ => none

def others : Frame n → ℕ
  | .code locks | .trap locks => locks
  | .sleepLock .. | .sleepRelease .. | .exitLock _ | .exitRelease _ => 1
  | _ => 0

def switches : Frame n → Option (Fin n)
  | .schedulerSave p | .schedulerLoad p | .schedulerBack p => some p
  | .exitRelease p | .schedSave p _ | .schedLoad p => some p
  | _ => none

/-- The process has changed its state, and `scheduler` has not yet gone on. -/
def leaves : Frame n → Option (Fin n)
  | .exitRelease p | .schedSave p _ | .schedLoad p | .schedulerBack p => some p
  | _ => none

def chosen : Frame n → Option (Fin n)
  | .schedulerSave p | .schedulerLoad p | .schedulerBack p => some p
  | _ => none

end Frame

/-- The `p->lock`s that are held, as the frames say. -/
def held (own : Option (Fin n)) (frames : List (Frame n)) : List (Fin n) := frames.filterMap (Frame.holds own)

def depth (own : Option (Fin n)) (frames : List (Frame n)) : ℕ := (held own frames).length + (frames.map Frame.others).sum

/-- Frames that are on a stack by right. -/
def Frame.Fits (own : Option (Fin n)) (rest : List (Frame n)) : Frame n → Prop
  | .scheduler _ | .schedulerSave _ | .schedulerLoad _ | .schedulerBack _ | .schedulerRelease _ => own = none ∧ rest = []
  | .code _ => own ≠ none ∧ rest = []
  | .trap _ => depth own rest = 0
  | .forkret | .sleepRelock | .schedBack _ => own ≠ none
  | .yield p | .yielded p | .sleepLock p _ | .sleepRelease p _ | .slept p => own = some p
  | .exitWait p | .exitLock p | .exitRelease p | .exited p | .schedSave p _ | .schedLoad p => own = some p
  | .wakeup .. | .wakeupRelease .. | .kill .. | .killRelease .. => True

/-- A stack that can be there. Only the top frame can be in a `swtch`. -/
def Legal (own : Option (Fin n)) : List (Frame n) → Prop
  | [] => True
  | f :: rest => f.Fits own rest ∧ (∀ g ∈ rest, g.switches = none) ∧ Legal own rest

/-- What is stored for a process that waits to be chosen. -/
structure Parked (p : Fin n) (context : Context n) : Prop where
  sp : context.sp = some p
  legal : Legal (some p) context.frames
  held : held (some p) context.frames = [p]
  depth : depth (some p) context.frames = 1
  top : context.frames.head?.bind Frame.switches = none

section Stacks

variable {own : Option (Fin n)} {f g : Frame n} {rest frames : List (Frame n)} {p q : Fin n}

@[simp] theorem held_cons_of_some (h : f.holds own = some p) : held own (f :: rest) = p :: held own rest := List.filterMap_cons_some h

@[simp] theorem held_cons_of_none (h : f.holds own = none) : held own (f :: rest) = held own rest := List.filterMap_cons_none h

theorem Frame.holds_of_chosen (h : f.chosen = some p) : f.holds none = some p := by
  cases f <;> first | exact h | cases h

theorem Frame.others_of_chosen (h : f.chosen = some p) : f.others = 0 := by
  cases f <;> first | rfl | cases h

theorem depth_cons_of_some (h : f.holds own = some p) : depth own (f :: rest) = f.others + 1 + depth own rest := by
  unfold depth
  rw [held_cons_of_some h, List.length_cons, List.map_cons, List.sum_cons]
  omega

theorem depth_cons_of_none (h : f.holds own = none) : depth own (f :: rest) = f.others + depth own rest := by
  unfold depth
  rw [held_cons_of_none h, List.map_cons, List.sum_cons]
  omega

theorem depth_succ (h : f.holds own = none) (hg : g.holds own = none)
    (hothers : g.others = f.others + 1) : depth own (g :: rest) = depth own (f :: rest) + 1 := by
  rw [depth_cons_of_none h, depth_cons_of_none hg, hothers]
  exact Nat.add_right_comm f.others 1 _

theorem held_eq_nil (h : depth own frames = 0) : held own frames = [] := by
  refine List.length_eq_zero_iff.mp ?_
  unfold depth at h
  omega

theorem held_eq_singleton (h : depth own frames = 1) (hp : p ∈ held own frames) : held own frames = [p] := by
  have hlength : (held own frames).length ≤ 1 := by
    unfold depth at h
    omega
  match hheld : held own frames, hlength, hp with
  | [], _, hp => cases hp
  | [q], _, hp => rw [List.mem_singleton.mp hp]

theorem Legal.tail (h : Legal own (f :: rest)) : Legal own rest := h.2.2

/-- The frame that comes up when the top frame goes is not in a `swtch`. -/
theorem Legal.head_tail (h : Legal own (f :: rest)) : rest.head?.bind Frame.switches = none := by
  cases rest with
  | nil => rfl
  | cons g rest => exact h.2.1 g List.mem_cons_self

theorem Legal.replace (h : Legal own (f :: rest)) (hfits : g.Fits own rest) : Legal own (g :: rest) := ⟨hfits, h.2.1, h.2.2⟩

theorem Legal.push (h : Legal own frames) (hfits : g.Fits own frames) (htop : frames.head?.bind Frame.switches = none) : Legal own (g :: frames) := by
  refine ⟨hfits, fun f hf => ?_, h⟩
  cases frames with
  | nil => cases hf
  | cons f' rest =>
    rcases List.mem_cons.mp hf with rfl | hmem
    · exact htop
    · exact h.2.1 f hmem

end Stacks

/-! ### CPUs -/

namespace Cpu

variable {cpu cpu' : Cpu n} {p q : Fin n} {f : Frame n} {rest frames : List (Frame n)}

def held (cpu : Cpu n) : List (Fin n) := Scheduler.held cpu.regs.sp cpu.regs.frames

def depth (cpu : Cpu n) : ℕ := Scheduler.depth cpu.regs.sp cpu.regs.frames

def top {α : Type} (cpu : Cpu n) (view : Frame n → Option α) : Option α := cpu.regs.frames.head?.bind view

structure Sound (cpu : Cpu n) : Prop where
  legal : Legal cpu.regs.sp cpu.regs.frames
  noff : cpu.noff = cpu.depth
  intr : cpu.intr = true → cpu.noff = 0
  nodup : cpu.held.Nodup
  proc : ∀ p, cpu.proc = some p ↔ cpu.regs.sp = some p ∨ cpu.top Frame.chosen = some p
  context : ∀ p, cpu.regs.sp = some p ∨ cpu.regs.frames.head? = some (.schedulerLoad p) → cpu.context = ⟨none, [.schedulerBack p]⟩
  sched : ∀ p, (∃ intena, cpu.regs.frames.head? = some (.schedSave p intena)) ∨ cpu.regs.frames.head? = some (.schedLoad p) → cpu.noff = 1 ∧ p ∈ cpu.held

theorem top_of_frames {α : Type} {view : Frame n → Option α} (h : cpu.regs.frames = f :: rest) : cpu.top view = view f := by
  unfold top
  rw [h]
  rfl

section

variable (h : cpu.top Frame.switches = none)
include h

theorem chosen_of_switches : cpu.top Frame.chosen = none := by
  unfold top at *
  cases hframes : cpu.regs.frames with
  | nil => rfl
  | cons f rest =>
    rw [hframes] at h
    change f.switches = none at h
    change f.chosen = none
    cases f <;> first | rfl | cases h

theorem leaves_of_switches : cpu.top Frame.leaves = none := by
  unfold top at *
  cases hframes : cpu.regs.frames with
  | nil => rfl
  | cons f rest =>
    rw [hframes] at h
    change f.switches = none at h
    change f.leaves = none
    cases f <;> first | rfl | cases h

theorem head_ne_of_switches (hf : f.switches ≠ none) : cpu.regs.frames.head? ≠ some f := by
  intro hc
  unfold top at h
  rw [hc] at h
  exact hf h

end

theorem switches_of_leaves (h : cpu.top Frame.leaves = some p) : cpu.top Frame.switches = some p := by
  unfold top at *
  cases hframes : cpu.regs.frames with
  | nil =>
    rw [hframes] at h
    cases h
  | cons f rest =>
    rw [hframes] at h
    change f.leaves = some p at h
    change f.switches = some p
    cases f <;> first | exact h | cases h

theorem switches_of_head (h : cpu.regs.frames.head? = some f) (hf : f.switches = some p) : cpu.top Frame.switches = some p := by
  unfold top
  rw [h]
  exact hf

theorem Sound.proc_of_switches (h : cpu.Sound) (hp : cpu.top Frame.switches = some p) : cpu.proc = some p := by
  rw [h.proc p]
  have hlegal := h.legal
  unfold top at *
  cases hframes : cpu.regs.frames with
  | nil =>
    rw [hframes] at hp
    cases hp
  | cons f rest =>
    rw [hframes] at hp hlegal
    have hfits : f.Fits cpu.regs.sp rest := hlegal.1
    change f.switches = some p at hp
    change _ ∨ f.chosen = some p
    -- `sched` and `exit` are on the stack of the process
    cases f <;> first | exact .inr hp | exact .inl ((show cpu.regs.sp = some _ from hfits).trans hp)

section

variable (h : cpu.Sound) (hproc : cpu'.proc = cpu.proc) (hcontext : cpu'.context = cpu.context) (hsp : cpu'.regs.sp = cpu.regs.sp)
include h hproc hcontext hsp

theorem Sound.stays (htop : cpu.top Frame.chosen = none) (htop' : cpu'.top Frame.chosen = none) (hlegal : Legal cpu.regs.sp cpu'.regs.frames)
    (hnoff : cpu'.noff = Scheduler.depth cpu.regs.sp cpu'.regs.frames) (hintr : cpu'.intr = true → cpu'.noff = 0)
    (hnodup : (Scheduler.held cpu.regs.sp cpu'.regs.frames).Nodup)
    (hsched : ∀ p, (∃ intena, cpu'.regs.frames.head? = some (.schedSave p intena)) ∨ cpu'.regs.frames.head? = some (.schedLoad p) →
      cpu'.noff = 1 ∧ p ∈ Scheduler.held cpu.regs.sp cpu'.regs.frames) : cpu'.Sound where
  legal := by
    rw [hsp]
    exact hlegal
  noff := by
    rw [hnoff, depth, hsp]
  intr := hintr
  nodup := by
    rw [held, hsp]
    exact hnodup
  proc p := by
    rw [hproc, hsp, h.proc, htop, htop']
  context p hp := by
    rw [hcontext]
    refine h.context p (.inl ?_)
    rw [← hsp]
    refine hp.resolve_right fun hc => ?_
    unfold top at htop'
    rw [hc] at htop'
    cases htop'
  sched p hp := by
    rw [held, hsp]
    exact hsched p hp

theorem Sound.calm (htop : cpu.top Frame.switches = none) (htop' : cpu'.top Frame.switches = none) (hlegal : Legal cpu.regs.sp cpu'.regs.frames)
    (hnoff : cpu'.noff = Scheduler.depth cpu.regs.sp cpu'.regs.frames) (hintr : cpu'.intr = true → cpu'.noff = 0)
    (hnodup : (Scheduler.held cpu.regs.sp cpu'.regs.frames).Nodup) : cpu'.Sound := by
  refine h.stays hproc hcontext hsp (chosen_of_switches htop) (chosen_of_switches htop') hlegal hnoff hintr hnodup fun p hp => ?_
  rcases hp with ⟨intena, hp⟩ | hp
  · exact absurd hp (head_ne_of_switches htop' nofun)
  · exact absurd hp (head_ne_of_switches htop' nofun)

end

/-- A CPU on which `scheduler` has chosen a process and has not switched, or has just come back. -/
theorem sound_chosen (hregs : cpu.regs = ⟨none, [f]⟩) (hf : f.chosen = some p)
    (hproc : cpu.proc = some p) (hnoff : cpu.noff = 1) (hintr : cpu.intr = false)
    (hcontext : f = .schedulerLoad p → cpu.context = ⟨none, [.schedulerBack p]⟩) : cpu.Sound := by
  have hholds := Frame.holds_of_chosen hf
  have hheld : cpu.held = [p] := by
    rw [held, hregs]
    exact held_cons_of_some hholds
  refine ⟨?_, ?_, fun hon => absurd (hintr.symm.trans hon) nofun, ?_, fun q => ?_, fun q hq => ?_, fun q hq => ?_⟩
  · rw [hregs]
    refine ⟨?_, nofun, trivial⟩
    cases f <;> first | exact ⟨rfl, rfl⟩ | cases hf
  · rw [hnoff, depth, hregs]
    change 1 = Scheduler.depth none [f]
    rw [depth_cons_of_some hholds, Frame.others_of_chosen hf]
    rfl
  · rw [hheld]
    exact List.nodup_singleton p
  · rw [hproc, top, hregs]
    change some p = some q ↔ none = some q ∨ f.chosen = some q
    rw [hf]
    exact ⟨.inr, fun hor => hor.resolve_left nofun⟩
  · rw [hregs] at hq
    have hload : f = .schedulerLoad q := Option.some.inj (hq.resolve_left nofun)
    have hpq : q = p := by
      rw [hload] at hf
      exact Option.some.inj hf
    subst hpq
    exact hcontext hload
  · rw [hregs] at hq
    rcases hq with ⟨intena, hq⟩ | hq
    · rw [show f = .schedSave q intena from Option.some.inj hq] at hf
      cases hf
    · rw [show f = .schedLoad q from Option.some.inj hq] at hf
      cases hf

theorem Sound.scheduler (h : cpu.Sound) (hframes : cpu.regs.frames = f :: rest) (hf : ∀ own rest, f.Fits own rest → own = none ∧ rest = []) :
    cpu.regs = ⟨none, [f]⟩ := by
  have hlegal := h.legal
  rw [hframes] at hlegal
  obtain ⟨hsp, hrest⟩ := hf _ _ hlegal.1
  rw [hrest] at hframes
  rw [← hsp, ← hframes]

theorem popOff_eq_some (h : cpu.popOff = some cpu') :
    cpu.intr = false ∧ 1 ≤ cpu.noff ∧ cpu' = { cpu with noff := cpu.noff - 1, intr := decide (cpu.noff - 1 = 0) && cpu.intena } := by
  unfold popOff at h
  split at h
  · rename_i hcheck
    cases h
    exact ⟨hcheck.1, hcheck.2, rfl⟩
  · cases h

end Cpu

end AdvancedXv6.Scheduler
