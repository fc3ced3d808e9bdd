import Mathlib.Algebra.Group.Nat.Defs

/-!
# Programs with a state and panics

A program reads and writes a state, and returns a value or panics. `Post x s Q E` says what happens when it is started in `s`: if it returns, `Q` holds of the value and the state it leaves, and if it panics, `E` holds of the panic. The rules follow the way the program is put together, so a proof about a function is a walk through its text.
-/

/-- A program on states `σ` that may stop with a panic in `ε`. -/
abbrev Prog (σ ε : Type) (α : Type) := StateT σ (Except ε) α

namespace Prog

variable {σ ε α β : Type}

def panic (e : ε) : Prog σ ε α := fun _ => .error e

/-- What a program does from one state. It is not unfolded in proofs, so that no proof runs a program. -/
@[irreducible] def Post (x : Prog σ ε α) (s : σ) (Q : α → σ → Prop) (E : ε → Prop) : Prop :=
  match x s with
  | .ok (a, s') => Q a s'
  | .error e => E e

variable {s : σ} {Q : α → σ → Prop} {E : ε → Prop} {x : Prog σ ε α}

theorem Post.pure {a : α} (h : Q a s) : Post (pure a : Prog σ ε α) s Q E := by
  unfold Post
  exact h

theorem Post.panic {e : ε} (h : E e) : Post (panic e : Prog σ ε α) s Q E := by
  unfold Post
  exact h

theorem Post.get {Q : σ → σ → Prop} (h : Q s s) : Post (get : Prog σ ε σ) s Q E := by
  unfold Post
  exact h

theorem Post.set {s' : σ} {Q : PUnit → σ → Prop} (h : Q ⟨⟩ s') : Post (set s' : Prog σ ε PUnit) s Q E := by
  unfold Post
  exact h

theorem Post.modify {f : σ → σ} {Q : PUnit → σ → Prop} (h : Q ⟨⟩ (f s)) :
    Post (modify f : Prog σ ε PUnit) s Q E := by
  unfold Post
  exact h

theorem Post.bind {x : Prog σ ε β} {f : β → Prog σ ε α} (h : Post x s (fun b s' => Post (f b) s' Q E) E) :
    Post (x >>= f) s Q E := by
  unfold Post at h ⊢
  change match (StateT.bind x f) s with
    | .ok (a, s') => Q a s'
    | .error e => E e
  unfold StateT.bind
  cases hx : x s with
  | error e | ok r => rw [hx] at h; exact h

/-- The rule of consequence. -/
theorem Post.mono {Q' : α → σ → Prop} {E' : ε → Prop} (h : Post x s Q E)
    (hQ : ∀ a s', Q a s' → Q' a s') (hE : ∀ e, E e → E' e) : Post x s Q' E' := by
  unfold Post at h ⊢
  cases hx : x s with
  | error e => rw [hx] at h; exact hE e h
  | ok r => rw [hx] at h; exact hQ r.1 r.2 h

theorem Post.step {x : Prog σ ε β} {f : β → Prog σ ε α} {R : β → σ → Prop} (hx : Post x s R E)
    (hf : ∀ b s', R b s' → Post (f b) s' Q E) : Post (x >>= f) s Q E :=
  Post.bind (hx.mono hf fun _ he => he)

theorem Post.of_ok {a : α} {s' : σ} (h : Post x s Q E) (hx : x s = .ok (a, s')) : Q a s' := by
  unfold Post at h
  rw [hx] at h
  exact h

theorem Post.of_error {e : ε} (h : Post x s Q E) (hx : x s = .error e) : E e := by
  unfold Post at h
  rw [hx] at h
  exact h

/-- A program that cannot panic returns. -/
theorem Post.exists_ok (h : Post x s Q fun _ => False) : ∃ a s', x s = .ok (a, s') ∧ Q a s' := by
  unfold Post at h
  cases hx : x s with
  | error e =>
    rw [hx] at h
    cases h
  | ok r =>
    rw [hx] at h
    exact ⟨r.1, r.2, rfl, h⟩

/-- A program returns something with the property `P` if and only if `c`, when every way to return agrees and no panic is possible under `c`. -/
theorem Post.exists_iff {P : α → σ → Prop} {c : Prop} (h : Post x s (fun a s' => P a s' ↔ c) fun _ => ¬ c) :
    (∃ a s', x s = .ok (a, s') ∧ P a s') ↔ c := by
  constructor
  · rintro ⟨a, s', hrun, ha⟩
    exact (h.of_ok hrun).mp ha
  · intro hc
    cases hrun : x s with
    | error e => exact absurd hc (h.of_error hrun)
    | ok r => exact ⟨r.1, r.2, rfl, (h.of_ok hrun).mpr hc⟩

theorem Post.self (x : Prog σ ε α) (s : σ) : Post x s (fun a s' => x s = .ok (a, s')) fun e => x s = .error e := by
  unfold Post
  cases hx : x s with
  | error e | ok r => rfl

/-! ### Loops -/

/-- Run the body on `a`, `a + stride`, …, `n` times at most; a body that returns a value leaves the loop with it. -/
def loop (stride : ℕ) (body : ℕ → Prog σ ε (Option β)) : ℕ → ℕ → Prog σ ε (Option β)
  | 0, _ => Pure.pure none
  | n + 1, a => do
    match ← body a with
    | some b => Pure.pure (some b)
    | none => loop stride body n (a + stride)

/-- The loop rule: `I i` holds before the body runs for the `i`-th time. -/
theorem Post.loop {stride n a : ℕ} {body : ℕ → Prog σ ε (Option β)} {I : ℕ → σ → Prop} {R : Option β → σ → Prop}
    (hinit : I 0 s)
    (hbody : ∀ i s', i < n → I i s' →
      Post (body (a + i * stride)) s' (fun b s'' => match b with | none => I (i + 1) s'' | some _ => R b s'') E)
    (hend : ∀ s', I n s' → R none s') : Post (Prog.loop stride body n a) s R E := by
  induction n generalizing a s I with
  | zero => exact Post.pure (hend s hinit)
  | succ n ih =>
    have hfirst := hbody 0 s (Nat.succ_pos n) hinit
    rw [Nat.zero_mul, Nat.add_zero] at hfirst
    refine Post.step hfirst fun b s' hb => ?_
    cases b with
    | some b => exact Post.pure hb
    | none =>
      refine ih (I := fun i => I (i + 1)) hb (fun i s'' hi hI => ?_) hend
      have hnext := hbody (i + 1) s'' (Nat.succ_lt_succ hi) hI
      rw [Nat.succ_mul, Nat.add_comm (i * stride), ← Nat.add_assoc] at hnext
      exact hnext

theorem Post.loop_one {stride a : ℕ} {body : ℕ → Prog σ ε (Option β)} {R : Option β → σ → Prop}
    (hbody : Post (body a) s R E) : Post (Prog.loop stride body 1 a) s R E := by
  refine Post.step hbody fun b s' hb => ?_
  cases b <;> exact Post.pure hb

end Prog
