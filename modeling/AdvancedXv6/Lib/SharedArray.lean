import AdvancedXv6.Lib.Transition
import Mathlib.Data.Set.Basic
import Mathlib.Data.DFinsupp.WellFounded

/-!
# Threads on a shared array

The code of a thread is a tree of reads and writes of single cells. Threads that run together take turns in any order, one read or write at a time. A thread that runs alone has a result, and when every thread keeps to cells of its own, each of them ends as if it had run alone, whatever the order.
-/

/-- Code that reads and writes cells of an array of `V` and returns an `α`. -/
inductive Code (V : Type) (α : Type) where
  | ret (a : α)
  | read (i : ℕ) (next : V → Code V α)
  | write (i : ℕ) (v : V) (next : Code V α)

namespace Code

open Function

variable {V α β : Type}

protected def bind : Code V α → (α → Code V β) → Code V β
  | .ret a, f => f a
  | .read i next, f => .read i fun v => (next v).bind f
  | .write i v next, f => .write i v (next.bind f)

instance : Monad (Code V) where
  pure := .ret
  bind := Code.bind

def get (i : ℕ) : Code V V := .read i .ret

def put (i : ℕ) (v : V) : Code V Unit := .write i v (.ret ())

/-! ### A thread alone -/

/-- What the code returns, and the array it leaves, when nothing else runs. -/
def run : Code V α → (ℕ → V) → α × (ℕ → V)
  | .ret a, m => (a, m)
  | .read i next, m => (next (m i)).run m
  | .write i v next, m => next.run (update m i v)

@[simp] theorem run_pure (a : α) (m : ℕ → V) : (pure a : Code V α).run m = (a, m) := rfl

@[simp] theorem run_bind (c : Code V α) (f : α → Code V β) (m : ℕ → V) : (c >>= f).run m = (f (c.run m).1).run (c.run m).2 := by
  change (c.bind f).run m = _
  induction c generalizing m with
  | ret a => rfl
  | read i next ih => exact ih (m i) m
  | write i v next ih => exact ih (update m i v)

@[simp] theorem run_get (i : ℕ) (m : ℕ → V) : (get i).run m = (m i, m) := rfl

@[simp] theorem run_put (i : ℕ) (v : V) (m : ℕ → V) : (put i v).run m = ((), update m i v) := rfl

/-- The code reads and writes cells of `S` only, and what it returns has the property `Q`, whatever it reads. -/
def Within (S : Set ℕ) (Q : α → Prop) : Code V α → Prop
  | .ret a => Q a
  | .read i next => i ∈ S ∧ ∀ v, (next v).Within S Q
  | .write i _ next => i ∈ S ∧ next.Within S Q

variable {S : Set ℕ} {Q : α → Prop} {c : Code V α} {m m' : ℕ → V}

theorem Within.pure {a : α} (ha : Q a) : (pure a : Code V α).Within S Q := ha

theorem Within.bind {f : α → Code V β} {R : β → Prop} (hc : c.Within S Q) (hf : ∀ a, Q a → (f a).Within S R) :
    (c >>= f).Within S R := by
  change (c.bind f).Within S R
  induction c with
  | ret a => exact hf a hc
  | read i next ih => exact ⟨hc.1, fun v => ih v (hc.2 v)⟩
  | write i v next ih => exact ⟨hc.1, ih hc.2⟩

theorem Within.get {i : ℕ} (hi : i ∈ S) : (get i : Code V V).Within S fun _ => True := ⟨hi, fun _ => trivial⟩

theorem Within.put {i : ℕ} (hi : i ∈ S) (v : V) : (put i v).Within S fun _ => True := ⟨hi, trivial⟩

/-- What the code does depends on its own cells only. -/
theorem Within.run_congr (h : c.Within S Q) (heq : ∀ i ∈ S, m i = m' i) :
    ∀ i ∈ S, (c.run m).2 i = (c.run m').2 i := by
  induction c generalizing m m' with
  | ret a => exact heq
  | read j next ih =>
    rw [run, run, heq j h.1]
    exact ih _ (h.2 _) heq
  | write j v next ih =>
    refine ih h.2 fun i hi => ?_
    by_cases hij : i = j
    · subst hij
      rw [update_self, update_self]
    · rw [update_of_ne hij, update_of_ne hij]
      exact heq i hi

/-! ### Threads together -/

def step : Code V α → (ℕ → V) → Option (Code V α × (ℕ → V))
  | .ret _, _ => none
  | .read i next, m => some (next (m i), m)
  | .write i v next, m => some (next, update m i v)

theorem run_of_step {c' : Code V α} (h : c.step m = some (c', m')) : c'.run m' = c.run m := by
  cases c <;> cases h <;> rfl

theorem Within.step {c' : Code V α} (hc : c.Within S Q) (h : c.step m = some (c', m')) :
    c'.Within S Q ∧ ∀ i ∉ S, m' i = m i := by
  cases c with
  | ret a => cases h
  | read j next =>
    cases h
    exact ⟨hc.2 _, fun _ _ => rfl⟩
  | write j v next =>
    cases h
    refine ⟨hc.2, fun i hi => update_of_ne (fun heq => hi ?_) _ _⟩
    exact heq ▸ hc.1

/-- What is left of the code is a part of it. -/
inductive Part : Code V α → Code V α → Prop
  | read (i : ℕ) (next : V → Code V α) (v : V) : Part (next v) (.read i next)
  | write (i : ℕ) (v : V) (next : Code V α) : Part next (.write i v next)

theorem Part.wellFounded : WellFounded (Part (V := V) (α := α)) := by
  refine ⟨fun c => ?_⟩
  induction c with
  | ret a => exact ⟨_, nofun⟩
  | read i next ih =>
    refine ⟨_, ?_⟩
    rintro _ ⟨⟩
    exact ih _
  | write i v next ih =>
    refine ⟨_, ?_⟩
    rintro _ ⟨⟩
    exact ih

theorem part_of_step {c' : Code V α} (h : c.step m = some (c', m')) : Part c' c := by
  cases c with
  | ret a => cases h
  | read i next =>
    cases h
    exact .read _ _ _
  | write i v next =>
    cases h
    exact .write _ _ _

end Code

structure Threads (n : ℕ) (V : Type) where
  code : Fin n → Code V Unit
  mem : ℕ → V

namespace Threads

open Function

variable {n : ℕ} {V : Type} {c : Threads n V}

def next (c : Threads n V) (t : Fin n) : Option (Threads n V) :=
  ((c.code t).step c.mem).map fun r => { code := update c.code t r.1, mem := r.2 }

def Reachable (start : Threads n V) : Threads n V → Prop := Transition.Reachable (· = start) (Transition.StepOf next)

def Finished (c : Threads n V) : Prop := ∀ t, c.code t = .ret ()

theorem next_eq_some {c' : Threads n V} {t : Fin n} (h : c.next t = some c') :
    ∃ code, (c.code t).step c.mem = some (code, c'.mem) ∧ c'.code = update c.code t code := by
  obtain ⟨r, hr, rfl⟩ := Option.map_eq_some_iff.mp h
  exact ⟨r.1, hr, rfl⟩

/-- Where nothing moves, every thread has returned. -/
theorem finished_of_stuck (h : ∀ t, c.next t = none) : c.Finished := by
  intro t
  have hnone := Option.map_eq_none_iff.mp (h t)
  cases hcode : c.code t <;> rw [hcode] at hnone <;> first | rfl | cases hnone

/-- Every run of the threads ends. -/
theorem wellFounded_next : WellFounded fun c' c : Threads n V => Transition.StepOf next c c' := by
  refine Subrelation.wf ?_ (InvImage.wf code (Pi.Lex.wellFounded (· < ·) fun _ => Code.Part.wellFounded))
  rintro c' c ⟨t, ht⟩
  obtain ⟨code, hstep, hcode⟩ := next_eq_some ht
  refine ⟨t, fun u hu => ?_, ?_⟩
  · rw [hcode, update_of_ne (ne_of_lt hu)]
  · rw [hcode, update_self]
    exact Code.part_of_step hstep

theorem exists_finished (c : Threads n V) : ∃ c', Relation.ReflTransGen (Transition.StepOf next) c c' ∧ c'.Finished := by
  induction c using wellFounded_next.induction with
  | _ c ih =>
    by_cases hmove : ∃ t, (c.next t).isSome
    · obtain ⟨t, ht⟩ := hmove
      obtain ⟨mid, hmid⟩ := Option.isSome_iff_exists.mp ht
      obtain ⟨last, hrun, hlast⟩ := ih mid ⟨t, hmid⟩
      exact ⟨last, .head ⟨t, hmid⟩ hrun, hlast⟩
    · refine ⟨c, .refl, finished_of_stuck fun t => ?_⟩
      rw [← Option.not_isSome_iff_eq_none]
      exact fun hsome => hmove ⟨t, hsome⟩

/-- Each thread keeps to its own cells. -/
structure Separate (S : Fin n → Set ℕ) (c : Threads n V) : Prop where
  within : ∀ t, (c.code t).Within (S t) fun _ => True
  disjoint : ∀ t u, t ≠ u → ∀ i ∈ S t, i ∉ S u

/-- Threads that keep to their own cells are on the way to what they leave there when they run alone. -/
theorem Reachable.run_eq {S : Fin n → Set ℕ} {start : Threads n V} (hsep : start.Separate S) (h : Reachable start c) (t : Fin n) :
    (c.code t).Within (S t) (fun _ => True) ∧ ∀ i ∈ S t, ((c.code t).run c.mem).2 i = ((start.code t).run start.mem).2 i := by
  revert t
  refine Transition.Reachable.invariant (I := fun c : Threads n V => ∀ t, (c.code t).Within (S t) (fun _ => True) ∧
    ∀ i ∈ S t, ((c.code t).run c.mem).2 i = ((start.code t).run start.mem).2 i) ?_ ?_ h
  · rintro c rfl t
    exact ⟨hsep.within t, fun _ _ => rfl⟩
  · rintro c c' - hthreads ⟨t, ht⟩ u
    obtain ⟨code, hstep, hcode⟩ := next_eq_some ht
    obtain ⟨hwithin, hframe⟩ := (hthreads t).1.step hstep
    by_cases hut : u = t
    · subst hut
      rw [hcode, update_self, Code.run_of_step hstep]
      exact ⟨hwithin, (hthreads u).2⟩
    · rw [hcode, update_of_ne hut]
      refine ⟨(hthreads u).1, fun i hi => ?_⟩
      -- the step was outside the cells of `u`, so `u` would still do the same
      rw [(hthreads u).1.run_congr (fun j hj => hframe j (hsep.disjoint u t hut j hj)) i hi]
      exact (hthreads u).2 i hi

theorem Reachable.mem_of_finished {S : Fin n → Set ℕ} {start : Threads n V} (hsep : start.Separate S) (h : Reachable start c)
    (hdone : c.Finished) {t : Fin n} {i : ℕ} (hi : i ∈ S t) : c.mem i = ((start.code t).run start.mem).2 i := by
  have hrun := (Reachable.run_eq hsep h t).2 i hi
  rw [hdone t] at hrun
  exact hrun

end Threads
