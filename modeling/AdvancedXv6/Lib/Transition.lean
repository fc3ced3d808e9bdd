import Mathlib.Algebra.Group.Nat.Defs
import Mathlib.Logic.Relation
import Mathlib.Data.List.Basic

/-!
# Transition systems

A system is a predicate of initial states and a step relation. Its reachable states are those at the end of a run of steps from an initial state, and everything proved of them goes through one rule: what the initial states have and every step keeps, all reachable states have.

Where the system is a family of deterministic step functions, one for each agent, a schedule is the list of agents in the order in which they move, and a schedule that runs through is a run of the step relation.
-/

namespace Transition

open Relation

variable {σ : Type*}

/-- The states at the end of a run from an initial state. -/
def Reachable (init : σ → Prop) (step : σ → σ → Prop) (s : σ) : Prop :=
  ∃ s0, init s0 ∧ ReflTransGen step s0 s

variable {init : σ → Prop} {step : σ → σ → Prop} {s s' : σ}

theorem Reachable.of_init (hs : init s) : Reachable init step s := ⟨s, hs, .refl⟩

theorem Reachable.tail (hs : Reachable init step s) (hstep : step s s') : Reachable init step s' := by
  obtain ⟨s0, hinit, hrun⟩ := hs
  exact ⟨s0, hinit, hrun.tail hstep⟩

theorem Reachable.trans (hs : Reachable init step s) (hrun : ReflTransGen step s s') :
    Reachable init step s' := by
  obtain ⟨s0, hinit, hrun0⟩ := hs
  exact ⟨s0, hinit, hrun0.trans hrun⟩

/-- The invariant rule. The step may use that the state it starts from is reachable, so that an invariant proved before is at hand. -/
theorem Reachable.invariant {I : σ → Prop} (hinit : ∀ s, init s → I s)
    (hstep : ∀ s s', Reachable init step s → I s → step s s' → I s') (hs : Reachable init step s) : I s := by
  obtain ⟨s0, h0, hrun⟩ := hs
  induction hrun with
  | refl => exact hinit s0 h0
  | tail hrun hlast ih => exact hstep _ _ ⟨s0, h0, hrun⟩ ih hlast

theorem Reachable.mono {step' : σ → σ → Prop} (hle : ∀ s s', step s s' → step' s s')
    (hs : Reachable init step s) : Reachable init step' s := by
  obtain ⟨s0, h0, hrun⟩ := hs
  exact ⟨s0, h0, ReflTransGen.mono hle _ _ hrun⟩

/-! ### Schedules -/

variable {ι : Type*} {next : σ → ι → Option σ}

def StepOf (next : σ → ι → Option σ) (s s' : σ) : Prop := ∃ i, next s i = some s'

theorem guard_eq_some {c : Prop} [Decidable c] (h : (if c then some s else none) = some s') : c ∧ s = s' := by
  simpa only [Option.ite_none_right_eq_some, Option.some.injEq] using h

/-- Some agent makes a move that meets a condition. -/
def StepWhen (P : σ → ι → Prop) (next : σ → ι → Option σ) (s s' : σ) : Prop := ∃ i, P s i ∧ next s i = some s'

theorem StepWhen.stepOf {P : σ → ι → Prop} (h : StepWhen P next s s') : StepOf next s s' := by
  obtain ⟨i, _, hnext⟩ := h
  exact ⟨i, hnext⟩

/-- The state after the agents of a schedule have moved in turn, if none of them was blocked. -/
def runSchedule (next : σ → ι → Option σ) : σ → List ι → Option σ
  | s, [] => some s
  | s, i :: rest => (next s i).bind fun s' => runSchedule next s' rest

theorem runSchedule_run {schedule : List ι}
    (hrun : runSchedule next s schedule = some s') : ReflTransGen (StepOf next) s s' := by
  induction schedule generalizing s with
  | nil =>
    cases hrun
    exact .refl
  | cons i rest ih =>
    simp only [runSchedule, Option.bind_eq_some_iff] at hrun
    obtain ⟨mid, hmid, hrest⟩ := hrun
    exact .head ⟨i, hmid⟩ (ih hrest)

/-- A schedule that runs through to a state with a property shows a reachable state with it. -/
theorem exists_reachable_of_schedule {s0 : σ} {good : σ → Prop} [DecidablePred good]
    (hinit : init s0) (schedule : List ι)
    (hrun : (runSchedule next s0 schedule).map (fun s => decide (good s)) = some true) :
    ∃ s, Reachable init (StepOf next) s ∧ good s := by
  obtain ⟨s, hs, hgood⟩ := Option.map_eq_some_iff.mp hrun
  exact ⟨s, ⟨s0, hinit, runSchedule_run hs⟩, of_decide_eq_true hgood⟩

theorem exists_reachable_when {P : σ → ι → Prop} {ok : σ → ι → Bool} {s0 : σ} {good : σ → Prop}
    [DecidablePred good] (hok : ∀ s i, ok s i = true → P s i) (hinit : init s0) (schedule : List ι)
    (hrun : (runSchedule (fun s i => if ok s i then next s i else none) s0 schedule).map
      (fun s => decide (good s)) = some true) :
    ∃ s, Reachable init (StepWhen P next) s ∧ good s := by
  obtain ⟨s, hs, hgood⟩ := Option.map_eq_some_iff.mp hrun
  refine ⟨s, ⟨s0, hinit, ReflTransGen.mono (fun a b hab => ?_) _ _ (runSchedule_run hs)⟩,
    of_decide_eq_true hgood⟩
  obtain ⟨i, hi⟩ := hab
  dsimp only at hi
  split at hi
  · rename_i hcheck
    exact ⟨i, hok a i hcheck, hi⟩
  · cases hi

/-! ### Termination -/

variable (measure : σ → ℕ) (hdecr : ∀ s s', Reachable init step s → step s s' → measure s' < measure s)
include measure hdecr

/-- A system whose steps all lower a natural number runs, from any reachable state, to a state where nothing moves. -/
theorem Reachable.exists_terminal
    (hs : Reachable init step s) : ∃ s', ReflTransGen step s s' ∧ ∀ s'', ¬ step s' s'' := by
  induction hn : measure s using Nat.strongRecOn generalizing s with
  | _ n ih =>
    by_cases hmove : ∃ s', step s s'
    · obtain ⟨s', hstep⟩ := hmove
      obtain ⟨last, hrun, hstuck⟩ := ih (measure s') (hn ▸ hdecr s s' hs hstep) (hs.tail hstep) rfl
      exact ⟨last, .head hstep hrun, hstuck⟩
    · exact ⟨s, .refl, fun s'' hstep => hmove ⟨s'', hstep⟩⟩

/-- Such a system has no infinite run. -/
theorem Reachable.not_infinite {run : ℕ → σ}
    (hs : Reachable init step (run 0)) : ¬ ∀ n, step (run n) (run (n + 1)) := by
  intro hrun
  have hbound : ∀ n, Reachable init step (run n) ∧ measure (run n) + n ≤ measure (run 0) := by
    intro n
    induction n with
    | zero => exact ⟨hs, Nat.le_refl _⟩
    | succ n ih =>
      have hlt := hdecr _ _ ih.1 (hrun n)
      exact ⟨ih.1.tail (hrun n), by omega⟩
  have hlast := (hbound (measure (run 0) + 1)).2
  omega

end Transition
