import AdvancedXv6.Log.Model
import AdvancedXv6.Lib.Weights

/-!
# Operations and groups

`log.outstanding` is the number of processes in an operation, and while `commit` or `recover_from_log` runs there is none. So a group holds what whole operations have written: an operation is in one group, or it is lost.
-/

namespace AdvancedXv6.Log

open Function Weights

variable {n : ℕ} {V : Type}

/-! ### How many operations are outstanding -/

def active (ops : Fin n → Option ℕ) : ℕ := total (fun _ op => op.isSome.toNat) ops

def Pc.committing : Pc → Bool
  | .commit | .writeLog _ | .writeHead | .installTrans _ | .clearHead => true
  | _ => false

def Pc.isPanicked : Pc → Bool
  | .panicked _ => true
  | _ => false

structure Counted (s : System n V) : Prop where
  outstanding_eq : s.outstanding = active s.ops
  idle : s.pc = .running ∨ s.pc.isPanicked = true ∨ s.outstanding = 0
  committing_eq : s.pc.isPanicked = true ∨ s.committing = s.pc.committing

variable {s s' : System n V} {p : Fin n} {op b : ℕ} {ops : Fin n → Option ℕ} {action : Action n V} {d0 : Disk V}

theorem Counted.running (h : Counted s) (hp : s.ops p = some op) (hpc : s.pc.stopped = false) :
    s.pc = .running ∧ 1 ≤ s.outstanding := by
  have hle := le_total (fun _ op => op.isSome.toNat) s.ops p
  simp only [hp, Option.isSome_some, Bool.toNat_true] at hle
  have hpos : 1 ≤ s.outstanding := h.outstanding_eq ▸ hle
  refine ⟨?_, hpos⟩
  rcases h.idle with hrunning | hpanicked | hzero
  · exact hrunning
  · cases hcase : s.pc <;> rw [hcase] at hpc hpanicked <;> cases hpanicked
    cases hpc
  · omega

theorem Counted.running_of_not_committing (h : Counted s) (hpc : s.pc.stopped = false) (hcommitting : s.committing = false) :
    s.pc = .running := by
  have hno := h.committing_eq
  rw [hcommitting] at hno
  cases hcase : s.pc <;> rw [hcase] at hno hpc <;> simp_all [Pc.isPanicked, Pc.committing, Pc.stopped]

theorem Counted.none_of_zero (h : Counted s) (hzero : s.outstanding = 0) (p : Fin n) : s.ops p = none := by
  have hle := le_total (fun _ op => op.isSome.toNat) s.ops p
  change _ ≤ active s.ops at hle
  rw [← h.outstanding_eq, hzero] at hle
  cases hp : s.ops p with
  | none => rfl
  | some op => simp [hp] at hle

theorem active_update_some (hp : ops p = none) (op : ℕ) :
    active (update ops p (some op)) = active ops + 1 := by
  have h := total_update (fun _ op => op.isSome.toNat) ops p (some op)
  simpa [active, hp] using h

theorem active_update_none (hp : ops p = some op) :
    active (update ops p none) + 1 = active ops := by
  have h := total_update (fun _ op => op.isSome.toNat) ops p none
  simpa [active, hp] using h

theorem System.logWrite_eq (s : System n V) (b : ℕ) :
    ∃ lh pins pc, s.logWrite b = { s with lh := lh, pins := pins, pc := pc } ∧ (pc = s.pc ∨ pc.isPanicked = true) := by
  rw [System.logWrite]
  split
  · exact ⟨s.lh, s.pins, _, rfl, .inr rfl⟩
  · split
    · exact ⟨s.lh, s.pins, _, rfl, .inr rfl⟩
    · dsimp only
      split
      · exact ⟨_, _, s.pc, rfl, .inl rfl⟩
      · exact ⟨_, s.pins, s.pc, rfl, .inl rfl⟩

structure Advanced (s s' : System n V) : Prop where
  ops_eq : s'.ops = s.ops
  outstanding_eq : s'.outstanding = s.outstanding
  nextOp_eq : s'.nextOp = s.nextOp
  written_eq : s'.written = s.written
  not_running : s.pc ≠ .running
  not_panicked : s.pc.isPanicked = false ∧ s'.pc.isPanicked = false
  committing_eq : s.committing = s.pc.committing → s'.committing = s'.pc.committing
  record_eq : (s'.pending = s.pending ∧ s'.groups = s.groups) ∨ (s'.pending = [] ∧ s'.groups = s.groups ++ [s.pending])

theorem System.advance_eq_some (h : s.advance = some s') : Advanced s s' := by
  cases hpc : s.pc <;> simp only [System.advance, hpc, reduceCtorEq, Option.some.injEq] at h
  case writeHead =>
    subst h
    exact ⟨rfl, rfl, rfl, rfl, by simp [hpc], by simp [hpc, Pc.isPanicked], by simp [hpc, Pc.committing], .inr ⟨rfl, rfl⟩⟩
  case commit | writeLog | installTrans | recoverTrans =>
    split at h <;> subst h <;>
      exact ⟨rfl, rfl, rfl, rfl, by simp [hpc], by simp [hpc, Pc.isPanicked], by simp [hpc, Pc.committing, System.install], .inl ⟨rfl, rfl⟩⟩
  all_goals
    subst h
    exact ⟨rfl, rfl, rfl, rfl, by simp [hpc], by simp [hpc, Pc.isPanicked], by simp [hpc, Pc.committing], .inl ⟨rfl, rfl⟩⟩

theorem Counted.advance (h : Counted s) (hstep : s.advance = some s') : Counted s' := by
  have hs := System.advance_eq_some hstep
  refine ⟨by rw [hs.outstanding_eq, hs.ops_eq, h.outstanding_eq], ?_, .inr (hs.committing_eq ?_)⟩
  · rcases h.idle with hrunning | hpanicked | hzero
    · exact absurd hrunning hs.not_running
    · rw [hs.not_panicked.1] at hpanicked
      cases hpanicked
    · exact .inr (.inr (hs.outstanding_eq.trans hzero))
  · refine h.committing_eq.resolve_left ?_
    rw [hs.not_panicked.1]
    exact Bool.false_ne_true

theorem System.beginOp_eq_some (h : s.next (.beginOp p) = some s') :
    s.pc.stopped = false ∧ s.committing = false ∧ s.ops p = none ∧ s.lh.n + (s.outstanding + 1) * maxOpBlocks ≤ logSize ∧
      s' = { s with outstanding := s.outstanding + 1, ops := update s.ops p (some s.nextOp), nextOp := s.nextOp + 1 } := by
  simp only [System.next, System.beginOp] at h
  split at h
  · cases h
  · rename_i hguard
    split at h
    · cases h
    · rename_i hspace
      simp only [not_or, Bool.not_eq_true, Option.isSome_eq_false_iff, Option.isNone_iff_eq_none, not_lt] at hguard hspace
      exact ⟨hguard.1, hspace.1, hguard.2, hspace.2, (Option.some.inj h).symm⟩

theorem System.logWrite_eq_some {v : V} (h : s.next (.logWrite p b v) = some s') :
    ∃ op, s.pc.stopped = false ∧ s.ops p = some op ∧ s' = (s.modify op b v).logWrite b := by
  simp only [System.next] at h
  split at h
  · cases h
  · rename_i hpc
    obtain ⟨op, hop, rfl⟩ := Option.map_eq_some_iff.mp h
    exact ⟨op, by simpa using hpc, hop, rfl⟩

theorem System.endOp_eq_some (h : s.next (.endOp p) = some s') :
    ∃ op, s.pc.stopped = false ∧ s.ops p = some op ∧ s' = s.endOp p := by
  simp only [System.next] at h
  split at h
  · cases h
  · rename_i hpc
    obtain ⟨op, hop, rfl⟩ := Option.map_eq_some_iff.mp h
    exact ⟨op, by simpa using hpc, hop, rfl⟩

theorem System.evict_eq_some (h : s.next (.evict b) = some s') :
    s.pins b = 0 ∧ s' = { s with cache := update s.cache b none } := by
  simp only [System.next] at h
  split at h
  · rename_i hpins
    exact ⟨hpins, (Option.some.inj h).symm⟩
  · cases h

theorem Counted.endOp (h : Counted s) (hp : s.ops p = some op) (hpc : s.pc.stopped = false) :
    Counted (s.endOp p) := by
  obtain ⟨hrunning, hpos⟩ := h.running hp hpc
  have hcount : s.outstanding - 1 = active (update s.ops p none) := by
    have hactive := active_update_none hp
    have heq := h.outstanding_eq
    omega
  have hcommitting : s.committing = false := by
    rcases h.committing_eq with hpanicked | heq
    · rw [hrunning] at hpanicked
      cases hpanicked
    · rw [heq, hrunning]
      rfl
  rw [System.endOp]
  simp only [hcommitting, Bool.false_eq_true, if_false]
  split
  · rename_i hzero
    exact ⟨hcount, .inr (.inr hzero), .inr rfl⟩
  · exact ⟨hcount, .inl hrunning, .inr (by rw [hrunning]; rfl)⟩

theorem Counted.next (h : Counted s) (hnext : s.next action = some s') : Counted s' := by
  cases action with
  | beginOp p =>
    obtain ⟨hpc, hcommitting, hp, -, rfl⟩ := System.beginOp_eq_some hnext
    refine ⟨?_, .inl (h.running_of_not_committing hpc hcommitting), h.committing_eq⟩
    change s.outstanding + 1 = active (update s.ops p (some s.nextOp))
    rw [active_update_some hp, h.outstanding_eq]
  | logWrite p b v =>
    obtain ⟨op, -, -, rfl⟩ := System.logWrite_eq_some hnext
    obtain ⟨lh, pins, pc, heq, hpc⟩ := System.logWrite_eq (s.modify op b v) b
    rw [heq]
    rcases hpc with rfl | hpanicked
    · exact ⟨h.outstanding_eq, h.idle, h.committing_eq⟩
    · exact ⟨h.outstanding_eq, .inr (.inl hpanicked), .inl hpanicked⟩
  | endOp p =>
    obtain ⟨op, hpc, hp, rfl⟩ := System.endOp_eq_some hnext
    exact h.endOp hp hpc
  | read b =>
    cases hnext
    exact ⟨h.outstanding_eq, h.idle, h.committing_eq⟩
  | evict b =>
    obtain ⟨-, rfl⟩ := System.evict_eq_some hnext
    exact ⟨h.outstanding_eq, h.idle, h.committing_eq⟩
  | advance => exact h.advance hnext
  | crash =>
    cases hnext
    exact ⟨(total_eq_zero fun _ => rfl).symm, .inr (.inr rfl), .inr rfl⟩

theorem Reachable.counted (h : Reachable d0 s) : Counted s := by
  refine Transition.Reachable.invariant (I := Counted) ?_ ?_ h
  · rintro s ⟨-, rfl⟩
    exact ⟨(total_eq_zero fun _ => rfl).symm, .inr (.inr rfl), .inr rfl⟩
  · rintro s s' - hs ⟨action, hnext⟩
    exact hs.next hnext

/-! ### Operations are whole -/

def ofOp (op : ℕ) (ws : List (Write V)) : List (Write V) := ws.filter fun w => w.op = op

theorem ofOp_append (op : ℕ) (ws ws' : List (Write V)) : ofOp op (ws ++ ws') = ofOp op ws ++ ofOp op ws' := List.filter_append ws ws'

/-- The operation is in the open group with all it has written, or it has ended, and is committed with all it has written or lost. -/
def System.Whole (s : System n V) (op : ℕ) : Prop :=
  (ofOp op s.groups.flatten = [] ∧ ofOp op s.pending = ofOp op s.written) ∨
    ((∀ p, s.ops p ≠ some op) ∧ ofOp op s.pending = [] ∧
      (ofOp op s.groups.flatten = [] ∨ ofOp op s.groups.flatten = ofOp op s.written))

structure Numbered (s : System n V) : Prop where
  fresh : ∀ w ∈ s.written, w.op < s.nextOp
  active_lt : ∀ p op, s.ops p = some op → op < s.nextOp
  whole : ∀ op, s.Whole op

theorem Numbered.modify (h : Numbered s) (hp : s.ops p = some op) (b : ℕ) (v : V) :
    Numbered (s.modify op b v) := by
  refine ⟨fun w hw => ?_, h.active_lt, fun op' => ?_⟩
  · rcases List.mem_append.mp hw with hold | hnew
    · exact h.fresh w hold
    · rw [List.mem_singleton.mp hnew]
      exact h.active_lt p op hp
  · have hsplit : ∀ ws : List (Write V), ofOp op' (ws ++ [{ op, block := b, value := v }]) =
        ofOp op' ws ++ ofOp op' [{ op, block := b, value := v }] := fun ws => ofOp_append op' ws _
    rcases h.whole op' with ⟨hgroups, hpending⟩ | ⟨hended, hpending, hgroups⟩
    · refine .inl ⟨hgroups, ?_⟩
      change ofOp op' (s.pending ++ _) = ofOp op' (s.written ++ _)
      rw [hsplit, hsplit, hpending]
    · have hne : op ≠ op' := fun heq => hended p (heq ▸ hp)
      have hnone : ofOp op' [({ op, block := b, value := v } : Write V)] = [] := by simp [ofOp, hne]
      refine .inr ⟨hended, ?_, ?_⟩
      · change ofOp op' (s.pending ++ _) = []
        rw [hsplit, hpending, hnone]
        rfl
      · change _ ∨ _ = ofOp op' (s.written ++ _)
        rw [hsplit, hnone, List.append_nil]
        exact hgroups

/-- Processes leave operations: what is whole stays whole. -/
theorem System.Whole.of_ops (h : s.Whole op) (hops : ∀ p, s'.ops p = some op → s.ops p = some op)
    (hpending : s'.pending = s.pending) (hgroups : s'.groups = s.groups) (hwritten : s'.written = s.written) : s'.Whole op := by
  rw [System.Whole, hpending, hgroups, hwritten]
  exact h.imp_right fun hended => ⟨fun p hp => hended.1 p (hops p hp), hended.2⟩

theorem Numbered.advance (h : Numbered s) (hcounted : Counted s) (hstep : s.advance = some s') : Numbered s' := by
  have hs := System.advance_eq_some hstep
  refine ⟨by rw [hs.written_eq, hs.nextOp_eq]; exact h.fresh, by rw [hs.ops_eq, hs.nextOp_eq]; exact h.active_lt, fun op => ?_⟩
  rcases hs.record_eq with ⟨hpending, hgroups⟩ | ⟨hpending, hgroups⟩
  · exact (h.whole op).of_ops (fun p hp => hs.ops_eq ▸ hp) hpending hgroups hs.written_eq
  · -- the group is committed, and no process is in an operation
    have hnone : ∀ p, s'.ops p ≠ some op := by
      intro p hp
      rw [hs.ops_eq] at hp
      refine absurd (hcounted.none_of_zero ?_ p) (by simp [hp])
      rcases hcounted.idle with hrunning | hpanicked | hzero
      · exact absurd hrunning hs.not_running
      · rw [hs.not_panicked.1] at hpanicked
        cases hpanicked
      · exact hzero
    have hflatten : ofOp op s'.groups.flatten = ofOp op s.groups.flatten ++ ofOp op s.pending := by
      rw [hgroups, List.flatten_append, List.flatten_singleton, ofOp_append]
    refine .inr ⟨hnone, by rw [hpending]; rfl, ?_⟩
    rw [hflatten, hs.written_eq]
    rcases h.whole op with ⟨hempty, hall⟩ | ⟨-, hempty, hgroup⟩
    · exact .inr (by rw [hempty, hall]; rfl)
    · rw [hempty, List.append_nil]
      exact hgroup

theorem Numbered.next (h : Numbered s) (hcounted : Counted s) (hnext : s.next action = some s') :
    Numbered s' := by
  cases action with
  | beginOp p =>
    obtain ⟨-, -, -, -, rfl⟩ := System.beginOp_eq_some hnext
    refine ⟨fun w hw => (h.fresh w hw).trans (Nat.lt_succ_self _), fun q op hq => ?_, fun op => ?_⟩
    · simp only [update_apply] at hq
      split at hq
      · cases hq
        exact Nat.lt_succ_self _
      · exact (h.active_lt q op hq).trans (Nat.lt_succ_self _)
    · by_cases hop : op = s.nextOp
      · -- a number that has not been used
        subst hop
        have hnone : ofOp s.nextOp s.written = [] := by
          rw [ofOp, List.filter_eq_nil_iff]
          intro w hw
          simpa using (h.fresh w hw).ne
        rcases h.whole s.nextOp with hopen | ⟨-, hpending, hgroups⟩
        · exact .inl hopen
        · refine .inl ⟨?_, hpending.trans hnone.symm⟩
          exact hgroups.elim id fun heq => heq.trans hnone
      · refine (h.whole op).of_ops (fun q hq => ?_) rfl rfl rfl
        simp only [update_apply] at hq
        split at hq
        · cases hq
          exact absurd rfl hop
        · exact hq
  | logWrite p b v =>
    obtain ⟨op, -, hp, rfl⟩ := System.logWrite_eq_some hnext
    obtain ⟨lh, pins, pc, heq, -⟩ := System.logWrite_eq (s.modify op b v) b
    rw [heq]
    exact ⟨(h.modify hp b v).fresh, (h.modify hp b v).active_lt, (h.modify hp b v).whole⟩
  | endOp p =>
    obtain ⟨op, -, -, rfl⟩ := System.endOp_eq_some hnext
    have hops : ∀ q op', update s.ops p none q = some op' → s.ops q = some op' := by
      intro q op' hq
      rw [update_apply] at hq
      split at hq
      · cases hq
      · exact hq
    rw [System.endOp]
    dsimp only
    split
    · exact ⟨h.fresh, fun q op' hq => h.active_lt q op' (hops q op' hq), fun op' => (h.whole op').of_ops (hops · op') rfl rfl rfl⟩
    · split <;>
        exact ⟨h.fresh, fun q op' hq => h.active_lt q op' (hops q op' hq), fun op' => (h.whole op').of_ops (hops · op') rfl rfl rfl⟩
  | read b =>
    cases hnext
    exact ⟨h.fresh, h.active_lt, h.whole⟩
  | evict b =>
    obtain ⟨-, rfl⟩ := System.evict_eq_some hnext
    exact ⟨h.fresh, h.active_lt, h.whole⟩
  | advance => exact h.advance hcounted hnext
  | crash =>
    cases hnext
    refine ⟨h.fresh, nofun, fun op => .inr ⟨nofun, rfl, ?_⟩⟩
    exact (h.whole op).elim (fun hopen => .inl hopen.1) fun hended => hended.2.2

theorem Reachable.numbered (h : Reachable d0 s) : Numbered s := by
  refine Transition.Reachable.invariant (I := Numbered) ?_ ?_ h
  · rintro s ⟨-, rfl⟩
    exact ⟨nofun, nofun, fun op => .inl ⟨rfl, rfl⟩⟩
  · rintro s s' hreach hs ⟨action, hnext⟩
    exact hs.next (Reachable.counted hreach) hnext

end AdvancedXv6.Log
