import AdvancedXv6.Log.Recovery

/-!
# Space in the log

`begin_op` lets an operation begin if the log has room for ten blocks of every outstanding operation, and counts `LOGSIZE` blocks. `log_write` counts one less, because the header is in the log too. So three operations of ten blocks each are let in, and the last block is one too many; with nine blocks for each operation all is well.
-/

namespace AdvancedXv6.Log

open Function Weights
open Transition (exists_reachable_of_schedule)

variable {n : ℕ} {V : Type}

def System.loggedBlocks (s : System n V) : ℕ := (s.pending.map Write.block).toFinset.card

def System.opBlocks (s : System n V) (op : ℕ) : Finset ℕ := ((ofOp op s.written).map Write.block).toFinset

def Action.writer (s : System n V) : Action n V → Option ℕ
  | .logWrite p _ _ => s.ops p
  | _ => none

/-- The steps of a system in which every operation logs at most `k` different blocks. -/
def System.nextWithin (k : ℕ) (s : System n V) (action : Action n V) : Option (System n V) :=
  (s.next action).filter fun s' => (action.writer s).all fun op => (s'.opBlocks op).card ≤ k

def ReachableWithin (k : ℕ) (d0 : Disk V) : System n V → Prop :=
  Transition.Reachable (fun s => d0.header.n = 0 ∧ s = System.boot n d0) (Transition.StepOf (System.nextWithin k))

variable {k op : ℕ} {s s' : System n V} {d0 : Disk V} {p : Fin n} {base : ℕ → V}

theorem System.nextWithin_eq_some {action : Action n V} (h : s.nextWithin k action = some s') :
    s.next action = some s' ∧ ∀ op, action.writer s = some op → (s'.opBlocks op).card ≤ k := by
  obtain ⟨hnext, hwithin⟩ := Option.filter_eq_some_iff.mp h
  refine ⟨hnext, fun op hop => ?_⟩
  rw [hop] at hwithin
  simpa using hwithin

theorem ReachableWithin.reachable (h : ReachableWithin k d0 s) : Reachable d0 s :=
  Transition.Reachable.mono (fun _ _ ⟨action, hnext⟩ => ⟨action, (System.nextWithin_eq_some hnext).1⟩) h

/-! ### When `log_write` panics -/

theorem Reachable.n_eq (h : Reachable d0 s) (hpc : s.pc = .running) : s.lh.n = s.loggedBlocks := by
  have hopen := h.inv.consistent.running hpc
  have hblocks : s.lh.blocks.toFinset = (s.pending.map Write.block).toFinset := by
    ext b
    rw [List.mem_toFinset, List.mem_toFinset, List.mem_map]
    exact hopen.logged b
  calc s.lh.n
    _ = s.lh.blocks.length := by simp [Header.blocks]
    _ = s.lh.blocks.toFinset.card := (List.toFinset_card_of_nodup hopen.nodup).symm
    _ = s.loggedBlocks := by rw [hblocks, System.loggedBlocks]

theorem System.logWrite_pc (s : System n V) (b : ℕ) :
    (s.logWrite b).pc = if logSize - 1 ≤ s.lh.n then .panicked .tooBig else if s.outstanding < 1 then .panicked .outside else s.pc := by
  have hiff : (s.lh.n ≥ logSize ∨ s.lh.n ≥ nlog - 1) ↔ logSize - 1 ≤ s.lh.n := by
    simp only [nlog, logSize, maxOpBlocks]
    omega
  rw [System.logWrite, apply_ite System.pc, apply_ite System.pc, if_congr hiff rfl rfl]
  dsimp only
  rw [apply_ite System.pc, ite_self]

/-- `log_write` panics if and only if 29 different blocks have been logged, also when it is called for one of them. -/
theorem logWrite_panics_iff {d0 : Disk V} {s : System n V} (h : Reachable d0 s) {p : Fin n} {op : ℕ} (hp : s.ops p = some op)
    (hpc : s.pc.stopped = false) (b : ℕ) (v : V) :
    (s.next (.logWrite p b v)).map System.pc = some (.panicked .tooBig) ↔ logSize - 1 ≤ s.loggedBlocks := by
  obtain ⟨hrunning, hpos⟩ := h.counted.running hp hpc
  have hnext : s.next (.logWrite p b v) = some ((s.modify op b v).logWrite b) := by
    simp [System.next, hpc, hp]
  have hout : ¬ (s.modify op b v).outstanding < 1 := not_lt.mpr hpos
  rw [hnext, Option.map_some, Option.some.injEq, ← h.n_eq hrunning, System.logWrite_pc, if_neg hout]
  change (if logSize - 1 ≤ s.lh.n then _ else s.pc) = _ ↔ _
  rw [hrunning]
  split <;> simp_all

/-- Three operations begin, and each of them logs some blocks, at most ten. -/
def threeOps (p q r : Fin n) (a b c : ℕ) : List (Action n ℕ) :=
  [.advance, .advance, .advance, .beginOp p, .beginOp q, .beginOp r] ++
    (List.range a).map (fun b => .logWrite p b 1) ++
    (List.range' 10 b).map (fun b => .logWrite q b 1) ++
    (List.range' 20 c).map (fun b => .logWrite r b 1)

/-- The log has room for one block more. -/
theorem logWrite_panics_iff_last : ∃ s : System 3 ℕ, Reachable emptyDisk s ∧
    s.ops 2 = some 2 ∧ s.pc.stopped = false ∧ s.loggedBlocks = 28 ∧
    (s.next (.logWrite 2 28 1)).map System.pc ≠ some (.panicked .tooBig) := by
  obtain ⟨s, hreach, hop, hpc, hlogged⟩ : ∃ s : System 3 ℕ, Reachable emptyDisk s ∧
      s.ops 2 = some 2 ∧ s.pc.stopped = false ∧ s.loggedBlocks = 28 :=
    exists_reachable_of_schedule ⟨rfl, rfl⟩ (threeOps 0 1 2 10 10 8) (by decide +kernel)
  have hiff := logWrite_panics_iff hreach hop hpc 28 1
  rw [hlogged] at hiff
  exact ⟨s, hreach, hop, hpc, hlogged, fun hpanic => absurd (hiff.mp hpanic) (by decide)⟩

theorem exists_too_big : ∃ s : System 3 ℕ, ReachableWithin maxOpBlocks emptyDisk s ∧ s.pc = .panicked .tooBig := by
  exact exists_reachable_of_schedule ⟨rfl, rfl⟩ (threeOps 0 1 2 10 10 10) (by decide +kernel)

/-! ### Nine blocks for each operation -/

def System.left (s : System n V) : Option ℕ → ℕ
  | none => 0
  | some op => maxOpBlocks - 1 - (s.opBlocks op).card

/-- The log has room for all that the outstanding operations may still log. -/
structure Fits (s : System n V) : Prop where
  n_eq_zero : s.outstanding = 0 → s.lh.n = 0
  room : s.lh.n + total (fun _ => s.left) s.ops ≤ logSize - 2

theorem System.left_le (s : System n V) (op : Option ℕ) : s.left op ≤ (maxOpBlocks - 1) * op.isSome.toNat := by
  cases op with
  | none => exact Nat.zero_le _
  | some op => simp [System.left]

theorem Fits.beginOp (h : Fits s) (hcounted : Counted s) (hp : s.ops p = none)
    (hspace : s.lh.n + (s.outstanding + 1) * maxOpBlocks ≤ logSize) :
    Fits { s with outstanding := s.outstanding + 1, ops := update s.ops p (some s.nextOp), nextOp := s.nextOp + 1 } := by
  refine ⟨nofun, ?_⟩
  change s.lh.n + total (fun _ => s.left) (update s.ops p (some s.nextOp)) ≤ logSize - 2
  have hle : total (fun _ => s.left) (update s.ops p (some s.nextOp)) ≤ (maxOpBlocks - 1) * (s.outstanding + 1) := by
    calc total (fun _ => s.left) (update s.ops p (some s.nextOp))
      _ ≤ total (fun _ op => (maxOpBlocks - 1) * op.isSome.toNat) (update s.ops p (some s.nextOp)) :=
          total_mono fun q => s.left_le _
      _ = (maxOpBlocks - 1) * active (update s.ops p (some s.nextOp)) := total_mul _ _ _
      _ = (maxOpBlocks - 1) * (s.outstanding + 1) := by rw [active_update_some hp, hcounted.outstanding_eq]
  by_cases hzero : s.outstanding = 0
  · have hn := h.n_eq_zero hzero
    simp only [logSize, maxOpBlocks] at *
    omega
  · simp only [logSize, maxOpBlocks] at *
    omega

theorem System.opBlocks_modify (s : System n V) (op op' b : ℕ) (v : V) :
    (s.modify op b v).opBlocks op' = if op' = op then insert b (s.opBlocks op') else s.opBlocks op' := by
  change ((ofOp op' (s.written ++ [_])).map Write.block).toFinset = _
  rw [ofOp_append, List.map_append, List.toFinset_append]
  split
  · rename_i heq
    simp [ofOp, heq, System.opBlocks, Finset.union_comm]
  · rename_i hne
    simp [ofOp, Ne.symm hne, System.opBlocks]

/-- A block that is not in the header is new to the operation. -/
theorem notMem_opBlocks (hopen : s.Open base) (hnumbered : Numbered s) {b : ℕ} (hp : s.ops p = some op)
    (hb : b ∉ s.lh.blocks) : b ∉ s.opBlocks op := by
  have hpending : ofOp op s.pending = ofOp op s.written :=
    (hnumbered.whole op).elim And.right fun hended => absurd hp (hended.1 p)
  intro hmem
  rw [System.opBlocks, List.mem_toFinset, List.mem_map, ← hpending] at hmem
  obtain ⟨w, hw, heq⟩ := hmem
  exact hb ((hopen.logged b).mpr ⟨w, (List.mem_filter.mp hw).1, heq⟩)

theorem Fits.logWrite (h : Fits s) (hopen : s.Open base) (hnumbered : Numbered s)
    (hp : s.ops p = some op) (hrunning : s.pc = .running) (hpos : 1 ≤ s.outstanding) (b : ℕ) (v : V)
    (hbound : ((s.modify op b v).opBlocks op).card ≤ maxOpBlocks - 1) :
    ((s.modify op b v).logWrite b).pc = .running ∧ Fits ((s.modify op b v).logWrite b) := by
  have hroom := h.room
  have hleft : ∀ op', (s.modify op b v).left op' ≤ s.left op' := by
    intro op'
    cases op' with
    | none => exact le_rfl
    | some op' =>
      refine Nat.sub_le_sub_left (Finset.card_le_card ?_) _
      rw [System.opBlocks_modify]
      split
      · exact Finset.subset_insert _ _
      · exact Finset.Subset.refl _
  have hpc : ((s.modify op b v).logWrite b).pc = .running := by
    have hlt : ¬ logSize - 1 ≤ (s.modify op b v).lh.n := by
      change ¬ logSize - 1 ≤ s.lh.n
      simp only [logSize, maxOpBlocks] at hroom ⊢
      omega
    have hout : ¬ (s.modify op b v).outstanding < 1 := not_lt.mpr hpos
    rw [System.logWrite_pc, if_neg hlt, if_neg hout]
    exact hrunning
  refine ⟨hpc, ?_⟩
  rcases System.logWrite_cases (s.modify op b v) b with ⟨e, heq⟩ | ⟨-, heq⟩ | ⟨hb, heq⟩
  · rw [heq] at hpc
    cases hpc
  · rw [heq]
    exact ⟨h.n_eq_zero, le_trans (Nat.add_le_add_left (total_mono fun q => hleft _) _) hroom⟩
  · rw [heq]
    refine ⟨fun hzero => absurd hpos (by change s.outstanding = 0 at hzero; omega), ?_⟩
    have hnew := notMem_opBlocks hopen hnumbered hp hb
    have hless : (s.modify op b v).left (s.ops p) < s.left (s.ops p) := by
      rw [hp]
      change maxOpBlocks - 1 - _ < maxOpBlocks - 1 - _
      rw [System.opBlocks_modify, if_pos rfl, Finset.card_insert_of_notMem hnew] at hbound ⊢
      omega
    have hlt : total (fun _ => (s.modify op b v).left) s.ops < total (fun _ => s.left) s.ops :=
      total_lt_total (fun q => hleft _) hless
    change s.lh.n + 1 + total (fun _ => (s.modify op b v).left) s.ops ≤ logSize - 2
    omega

theorem Fits.endOp (h : Fits s) (p : Fin n) : (s.endOp p).pc = .running → Fits (s.endOp p) := by
  have htotal : total (fun _ => s.left) (update s.ops p none) ≤ total (fun _ => s.left) s.ops := by
    have hupdate := total_update (fun _ => s.left) s.ops p none
    have hnone : s.left none = 0 := rfl
    omega
  rw [System.endOp]
  dsimp only
  split
  · simp
  · split
    · simp
    · rename_i hzero
      exact fun _ => ⟨fun h0 => absurd h0 hzero, le_trans (Nat.add_le_add_left htotal _) h.room⟩

theorem fits_of_advance (hreach : Reachable d0 s) (hstep : s.advance = some s') (hpc : s'.pc = .running) : Fits s' := by
  have hadvanced := System.advance_eq_some hstep
  have hcounted := hreach.counted.advance hstep
  have hzero : s'.outstanding = 0 := by
    rw [hadvanced.outstanding_eq]
    refine (hreach.counted.idle.resolve_left hadvanced.not_running).resolve_left ?_
    rw [hadvanced.not_panicked.1]
    exact Bool.false_ne_true
  have hn : s'.lh.n = 0 := by
    have hcons := hreach.inv.consistent
    rw [System.Consistent] at hcons
    cases hcase : s.pc <;> simp only [hcase] at hcons <;> simp only [System.advance, hcase, reduceCtorEq, Option.some.injEq] at hstep
    case clearHead | recoverHead =>
      subst hstep
      exact hcons.lh_n
    case commit =>
      split at hstep <;> subst hstep
      · cases hpc
      · rename_i hn
        exact Nat.eq_zero_of_not_pos hn
    case writeLog | installTrans | recoverTrans => split at hstep <;> subst hstep <;> cases hpc
    case writeHead | readHead =>
      subst hstep
      cases hpc
  have htotal : total (fun _ => s'.left) s'.ops = 0 :=
    total_eq_zero fun p => by
      rw [hcounted.none_of_zero hzero p]
      rfl
  exact ⟨fun _ => hn, by rw [hn, htotal]; exact Nat.zero_le _⟩

/-- Operations of at most nine blocks never fill the log. -/
theorem ReachableWithin.not_tooBig (h : ReachableWithin (maxOpBlocks - 1) d0 s) : s.pc ≠ .panicked .tooBig := by
  refine (Transition.Reachable.invariant (I := fun s : System n V => s.pc ≠ .panicked .tooBig ∧ (s.pc = .running → Fits s)) ?_ ?_ h).1
  · rintro s ⟨-, rfl⟩
    exact ⟨(by rintro ⟨⟩), (by rintro ⟨⟩)⟩
  · rintro s s' hwithin ⟨hpanic, hfits⟩ ⟨action, haction⟩
    have hreach : Reachable d0 s := ReachableWithin.reachable hwithin
    obtain ⟨hnext, hbound⟩ := System.nextWithin_eq_some haction
    cases action with
    | beginOp p =>
      obtain ⟨-, -, hp, hspace, rfl⟩ := System.beginOp_eq_some hnext
      exact ⟨hpanic, fun hpc => (hfits hpc).beginOp hreach.counted hp hspace⟩
    | logWrite p b v =>
      obtain ⟨op, hpc, hp, rfl⟩ := System.logWrite_eq_some hnext
      obtain ⟨hrunning, hpos⟩ := hreach.counted.running hp hpc
      have hcard : ((s.modify op b v).opBlocks op).card ≤ maxOpBlocks - 1 := by
        have hle := hbound op hp
        obtain ⟨_, _, _, heq, -⟩ := System.logWrite_eq (s.modify op b v) b
        rw [heq] at hle
        exact hle
      obtain ⟨hpc', hfits'⟩ := (hfits hrunning).logWrite (hreach.inv.consistent.running hrunning) hreach.numbered hp hrunning hpos b v hcard
      exact ⟨by rw [hpc']; simp, fun _ => hfits'⟩
    | endOp p =>
      obtain ⟨op, hpc, hp, rfl⟩ := System.endOp_eq_some hnext
      have hrunning := (hreach.counted.running hp hpc).1
      refine ⟨?_, (hfits hrunning).endOp p⟩
      rw [System.endOp]
      dsimp only
      split
      · simp
      · split
        · simp
        · exact hpanic
    | read b =>
      cases hnext
      exact ⟨hpanic, fun hpc => ⟨(hfits hpc).n_eq_zero, (hfits hpc).room⟩⟩
    | evict b =>
      obtain ⟨-, rfl⟩ := System.evict_eq_some hnext
      exact ⟨hpanic, fun hpc => ⟨(hfits hpc).n_eq_zero, (hfits hpc).room⟩⟩
    | advance =>
      refine ⟨fun hpc => ?_, fits_of_advance hreach hnext⟩
      have hnot := (System.advance_eq_some hnext).not_panicked.2
      rw [hpc] at hnot
      cases hnot
    | crash =>
      cases hnext
      exact ⟨(by rintro ⟨⟩), (by rintro ⟨⟩)⟩

/-- Three operations have logged all they may. -/
theorem not_tooBig_three : ∃ s : System 3 ℕ, ReachableWithin (maxOpBlocks - 1) emptyDisk s ∧
    s.lh.n = 27 ∧ s.pc ≠ .panicked .tooBig := by
  obtain ⟨s, hreach, hs⟩ : ∃ s : System 3 ℕ,
      ReachableWithin (maxOpBlocks - 1) emptyDisk s ∧ s.lh.n = 27 :=
    exists_reachable_of_schedule ⟨rfl, rfl⟩ (threeOps 0 1 2 9 9 9) (by decide +kernel)
  exact ⟨s, hreach, hs, ReachableWithin.not_tooBig hreach⟩

end AdvancedXv6.Log
