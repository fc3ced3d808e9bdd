import AdvancedXv6.Lib.Transition
import Mathlib.Logic.Function.Basic

/-!
# Threads over a shared state

A thread runs code made of atomic actions on a state that all threads share: an action returns a value and leaves a new state, waits, or panics. A pool of threads interleaves the actions in any order, and a thread whose code has returned may start another piece of code.

Each thread owns a resource, and an invariant ties the resources of all threads to the shared state. A piece of code is safe for a resource when each of its actions, in every state that the invariant allows, makes a step that the guarantee allows, keeps the invariant at the price of a change of that thread's resource alone, and ends with a resource that its postcondition allows. Which panics are allowed depends on the resource. Safety is checked one thread at a time along the text of the code; `Pool.sound` then gives it for every interleaving.
-/

namespace Threads

open Function

/-- What an action does: it waits, panics, or returns a value and a new state. -/
inductive Outcome (σ ε β : Type) where
  | blocked
  | panic (e : ε)
  | done (b : β) (s : σ)

/-- Code: a value, or an action and what follows it. -/
inductive Code (σ ε α : Type) : Type 1 where
  | ret (a : α)
  | act {β : Type} (f : σ → Outcome σ ε β) (k : β → Code σ ε α)

variable {ι κ σ ε α β χ : Type} {i : ι}

namespace Code

def atom (f : σ → Outcome σ ε β) : Code σ ε β := .act f .ret

def bind : Code σ ε β → (β → Code σ ε α) → Code σ ε α
  | .ret b, g => g b
  | .act f k, g => .act f fun c => (k c).bind g

instance : Monad (Code σ ε) where
  pure := .ret
  bind := Code.bind

def read (f : σ → β) : Code σ ε β := atom fun s => .done (f s) s

def write (f : σ → σ) : Code σ ε Unit := atom fun s => .done () (f s)

/-- The code run to its end with no other thread moving. -/
def exec : Code σ ε α → σ → Outcome σ ε α
  | .ret a, s => .done a s
  | .act f k, s =>
    match f s with
    | .blocked => .blocked
    | .panic e => .panic e
    | .done b s' => (k b).exec s'

end Code

/-! ### Safe code -/

section Safe

/-- What an action may do: a panic is among those allowed, and a return meets its condition. -/
def Outcome.All (Ok : ε → Prop) (P : β → σ → Prop) : Outcome σ ε β → Prop
  | .blocked => True
  | .panic e => Ok e
  | .done b s => P b s

variable [DecidableEq ι] (Inv : (ι → χ) → σ → Prop) (Guar : σ → σ → Prop) (Ok : χ → ε → Prop) (p : ι)

/-- The code, run by thread `p` with a resource, keeps the invariant at every action and ends in the postcondition. -/
def Safe (Q : α → χ → Prop) : Code σ ε α → χ → Prop
  | .ret a, r => Q a r
  | .act f k, r => ∀ ρ s, Inv ρ s → ρ p = r →
      (f s).All (Ok r) fun b s' => Guar s s' ∧ ∃ r', Inv (update ρ p r') s' ∧ Safe Q (k b) r'

variable {Inv Guar Ok p} {Q : α → χ → Prop} {r : χ}

theorem Safe.pure {a : α} (h : Q a r) : Safe Inv Guar Ok p Q (pure a) r := h

theorem Safe.bind {x : Code σ ε β} {g : β → Code σ ε α} (h : Safe Inv Guar Ok p (fun b r' => Safe Inv Guar Ok p Q (g b) r') x r) :
    Safe Inv Guar Ok p Q (x >>= g) r := by
  induction x generalizing r with
  | ret b => exact h
  | act f k ih =>
    intro ρ s hinv hr
    have hf := h ρ s hinv hr
    cases hfs : f s with
    | blocked => trivial
    | panic e =>
      rw [hfs] at hf
      exact hf
    | done b s' =>
      rw [hfs] at hf
      obtain ⟨hguar, r', hinv', hk⟩ := hf
      exact ⟨hguar, r', hinv', ih b hk⟩

theorem Safe.mono {Q' : α → χ → Prop} {x : Code σ ε α} (h : Safe Inv Guar Ok p Q x r) (hQ : ∀ a r', Q a r' → Q' a r') : Safe Inv Guar Ok p Q' x r := by
  induction x generalizing r with
  | ret a => exact hQ a r h
  | act f k ih =>
    intro ρ s hinv hr
    have hf := h ρ s hinv hr
    cases hfs : f s with
    | blocked => trivial
    | panic e =>
      rw [hfs] at hf
      exact hf
    | done b s' =>
      rw [hfs] at hf
      obtain ⟨hguar, r', hinv', hk⟩ := hf
      exact ⟨hguar, r', hinv', ih b hk⟩

theorem Safe.atom {f : σ → Outcome σ ε α} (h : ∀ ρ s, Inv ρ s → ρ p = r →
      (f s).All (Ok r) fun b s' => Guar s s' ∧ ∃ r', Inv (update ρ p r') s' ∧ Q b r') :
    Safe Inv Guar Ok p Q (Code.atom f) r := h

/-- A read returns what the invariant says of the state. The reader may trade its resource on the way. -/
theorem Safe.read {f : σ → α} (h : ∀ ρ s, Inv ρ s → ρ p = r → Guar s s ∧ ∃ r', Inv (update ρ p r') s ∧ Q (f s) r') :
    Safe Inv Guar Ok p Q (Code.read f) r := h

theorem Safe.write {f : σ → σ} {Q : Unit → χ → Prop} (h : ∀ ρ s, Inv ρ s → ρ p = r → Guar s (f s) ∧ ∃ r', Inv (update ρ p r') (f s) ∧ Q () r') :
    Safe Inv Guar Ok p Q (Code.write f) r := h

/-- Safe code that runs alone keeps the invariant and ends in its postcondition. -/
theorem Safe.exec {x : Code σ ε α} (h : Safe Inv Guar Ok p Q x r) {ρ : ι → χ} {s : σ} (hinv : Inv ρ s) (hr : ρ p = r) :
    (x.exec s).All (fun e => ∃ r', Ok r' e) fun a s' => ∃ r', Inv (update ρ p r') s' ∧ Q a r' := by
  induction x generalizing r ρ s with
  | ret a =>
    refine ⟨r, ?_, h⟩
    rw [← hr, update_eq_self]
    exact hinv
  | act f k ih =>
    have hf := h ρ s hinv hr
    cases hfs : f s with
    | blocked =>
      simp only [Code.exec, hfs]
      trivial
    | panic e =>
      rw [hfs] at hf
      simp only [Code.exec, hfs]
      exact ⟨r, hf⟩
    | done b s' =>
      rw [hfs] at hf
      obtain ⟨_, r', hinv', hk⟩ := hf
      simp only [Code.exec, hfs]
      have hrest := ih b hk hinv' (update_self p r' ρ)
      simp only [update_idem] at hrest
      exact hrest

end Safe

/-! ### Pools -/

/-- The shared state and the code that each thread has still to run. -/
structure Pool (ι σ ε α : Type) : Type 1 where
  shared : σ
  code : ι → Code σ ε α

/-- A thread starts a piece of code, or runs its next action. -/
inductive Event (ι κ : Type) where
  | call (i : ι) (c : κ)
  | run (i : ι)
  deriving DecidableEq

namespace Pool

variable [DecidableEq ι]

/-- A call starts when the thread has returned from the one before and the state allows it; an action that waits or panics does not run. -/
def next (program : ι → κ → Code σ ε α) (enabled : σ → ι → κ → Bool) (x : Pool ι σ ε α) : Event ι κ → Option (Pool ι σ ε α)
  | .call i c =>
    match x.code i with
    | .ret _ => if enabled x.shared i c then some { x with code := update x.code i (program i c) } else none
    | .act _ _ => none
  | .run i =>
    match x.code i with
    | .ret _ => none
    | .act f k =>
      match f x.shared with
      | .done b s => some ⟨s, update x.code i (k b)⟩
      | _ => none

def Returned (x : Pool ι σ ε α) (i : ι) : Prop := ∃ a, x.code i = .ret a

def Panics (x : Pool ι σ ε α) (i : ι) (e : ε) : Prop :=
  ∃ (β : Type) (f : σ → Outcome σ ε β) (k : β → Code σ ε α),
    x.code i = .act f k ∧ f x.shared = .panic e

section Sound

variable (Inv : (ι → χ) → σ → Prop) (Guar : σ → σ → Prop) (Ok : χ → ε → Prop)
  (Post : ι → α → χ → Prop)

/-- The resources of all threads meet the invariant, and each thread's code is safe for its own. -/
def Sound (x : Pool ι σ ε α) : Prop := ∃ ρ, Inv ρ x.shared ∧ ∀ i, Safe Inv Guar Ok i (Post i) (x.code i) (ρ i)

variable {Inv Guar Ok Post} {program : ι → κ → Code σ ε α} {enabled : σ → ι → κ → Bool} {x x' : Pool ι σ ε α}

theorem Sound.put {code : ι → Code σ ε α} {s : σ} {ρ : ι → χ} {y : Code σ ε α} {r : χ} (hsafe : ∀ j ≠ i, Safe Inv Guar Ok j (Post j) (code j) (ρ j))
    (hinv : Inv (update ρ i r) s) (hy : Safe Inv Guar Ok i (Post i) y r) : Sound Inv Guar Ok Post ⟨s, update code i y⟩ := by
  refine ⟨update ρ i r, hinv, fun j => ?_⟩
  show Safe Inv Guar Ok j (Post j) (update code i y j) (update ρ i r j)
  by_cases hj : j = i
  · subst hj
    rw [update_self, update_self]
    exact hy
  · rw [update_of_ne hj, update_of_ne hj]
    exact hsafe j hj

theorem Sound.call (hx : x.Sound Inv Guar Ok Post) {c : κ} {a : α} (hi : x.code i = .ret a)
    (hstart : ∀ ρ, Inv ρ x.shared → Post i a (ρ i) → ∃ r, Inv (update ρ i r) x.shared ∧ Safe Inv Guar Ok i (Post i) (program i c) r) :
    Sound Inv Guar Ok Post { x with code := update x.code i (program i c) } := by
  obtain ⟨ρ, hinv, hsafe⟩ := hx
  have hpost := hsafe i
  rw [hi] at hpost
  obtain ⟨r, hinv', hr⟩ := hstart ρ hinv hpost
  exact .put (fun j _ => hsafe j) hinv' hr

theorem Sound.run (hx : x.Sound Inv Guar Ok Post) {f : σ → Outcome σ ε β} {k : β → Code σ ε α} (hi : x.code i = .act f k)
    {b : β} {s : σ} (hf : f x.shared = .done b s) : Sound Inv Guar Ok Post ⟨s, update x.code i (k b)⟩ := by
  obtain ⟨ρ, hinv, hsafe⟩ := hx
  have hact := hsafe i
  rw [hi] at hact
  have hdone := hact ρ x.shared hinv rfl
  rw [hf] at hdone
  obtain ⟨_, r, hinv', hr⟩ := hdone
  exact .put (fun j _ => hsafe j) hinv' hr

theorem next_cases {e : Event ι κ} (hnext : x.next program enabled e = some x') :
    (∃ i c a, e = .call i c ∧ x.code i = .ret a ∧ enabled x.shared i c = true ∧ x' = { x with code := update x.code i (program i c) }) ∨
      ∃ (i : ι) (β : Type) (f : σ → Outcome σ ε β) (k : β → Code σ ε α) (b : β) (s : σ),
        e = .run i ∧ x.code i = .act f k ∧ f x.shared = .done b s ∧
        x' = ⟨s, update x.code i (k b)⟩ := by
  cases e with
  | call i c =>
    cases hi : x.code i with
    | act f k => simp [Pool.next, hi] at hnext
    | ret a =>
      simp only [Pool.next, hi, Option.ite_none_right_eq_some, Option.some.injEq] at hnext
      exact .inl ⟨i, c, a, rfl, hi, hnext.1, hnext.2.symm⟩
  | run i =>
    cases hi : x.code i with
    | ret a => simp [Pool.next, hi] at hnext
    | act f k =>
      cases hf : f x.shared with
      | blocked | panic e => simp [Pool.next, hi, hf] at hnext
      | done b s =>
        simp only [Pool.next, hi, hf, Option.some.injEq] at hnext
        exact .inr ⟨i, _, f, k, b, s, rfl, hi, hf, hnext.symm⟩

/-- Every step keeps the pool sound, where a call that starts is safe. -/
theorem Sound.next {e : Event ι κ}
    (hstart : ∀ i c ρ a, e = .call i c → enabled x.shared i c = true → Inv ρ x.shared → Post i a (ρ i) →
      ∃ r, Inv (update ρ i r) x.shared ∧ Safe Inv Guar Ok i (Post i) (program i c) r)
    (hx : x.Sound Inv Guar Ok Post) (hnext : x.next program enabled e = some x') : x'.Sound Inv Guar Ok Post := by
  obtain ⟨i, c, a, rfl, hi, hen, rfl⟩ | ⟨i, _, f, k, b, s, rfl, hi, hf, rfl⟩ := next_cases hnext
  · exact hx.call hi fun ρ => hstart i c ρ a rfl hen
  · exact hx.run hi hf

/-- The rule for pools: where every call that can start is safe, every interleaving keeps the pool sound. -/
theorem sound {init : Pool ι σ ε α → Prop}
    (hstart : ∀ i c ρ s a, enabled s i c = true → Inv ρ s → Post i a (ρ i) → ∃ r, Inv (update ρ i r) s ∧ Safe Inv Guar Ok i (Post i) (program i c) r)
    (hinit : ∀ x, init x → x.Sound Inv Guar Ok Post) (hx : Transition.Reachable init (Transition.StepOf (next program enabled)) x) :
    x.Sound Inv Guar Ok Post := by
  apply hx.invariant hinit
  intro x x' _ hsound hstep
  obtain ⟨e, he⟩ := hstep
  exact hsound.next (fun i c ρ a _ => hstart i c ρ x.shared a) he

/-- Every step of a sound pool is one that the guarantee allows. -/
theorem Sound.guar (hrefl : ∀ s, Guar s s) (hx : x.Sound Inv Guar Ok Post) {e : Event ι κ}
    (hnext : x.next program enabled e = some x') : Guar x.shared x'.shared := by
  obtain ⟨i, c, a, rfl, hi, _, rfl⟩ | ⟨i, _, f, k, b, s, rfl, hi, hf, rfl⟩ := next_cases hnext
  · exact hrefl x.shared
  · obtain ⟨ρ, hinv, hsafe⟩ := hx
    have hact := hsafe i
    rw [hi] at hact
    have hdone := hact ρ x.shared hinv rfl
    rw [hf] at hdone
    exact hdone.1

/-- A thread that panics has a resource for which the panic is allowed. -/
theorem Sound.panics (hx : x.Sound Inv Guar Ok Post) {e : ε} (hpanic : x.Panics i e) :
    ∃ ρ, Inv ρ x.shared ∧ (∀ j, Safe Inv Guar Ok j (Post j) (x.code j) (ρ j)) ∧ Ok (ρ i) e := by
  obtain ⟨ρ, hinv, hsafe⟩ := hx
  obtain ⟨β, f, k, hi, hf⟩ := hpanic
  refine ⟨ρ, hinv, hsafe, ?_⟩
  have hact := hsafe i
  rw [hi] at hact
  have hdone := hact ρ x.shared hinv rfl
  rw [hf] at hdone
  exact hdone

end Sound

end Pool

end Threads
