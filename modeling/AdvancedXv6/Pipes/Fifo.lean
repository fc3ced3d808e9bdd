import AdvancedXv6.Pipes.Moves

/-!
# A pipe is a bounded queue

The counters run freely and wrap at `2^32`, which `PIPESIZE` divides, so that the place of a byte in the ring depends on the true number of bytes only. The difference of the counters is the number of bytes in the ring at any time, and these are the bytes that have been taken from writers and not yet given to readers.
-/

namespace AdvancedXv6.Pipes

open Function Transition

/-! ### The ring -/

namespace Pipe

variable {pi : Pipe}

def count (pi : Pipe) : ℕ := (pi.nwrite - pi.nread).toNat

theorem count_eq (pi : Pipe) : pi.count = (2 ^ 32 - pi.nread.toNat + pi.nwrite.toNat) % 2 ^ 32 := UInt32.toNat_sub pi.nwrite pi.nread

theorem empty_iff : pi.empty ↔ pi.count = 0 := by
  have hr := pi.nread.toNat_lt
  have hw := pi.nwrite.toNat_lt
  unfold empty
  rw [count_eq, ← UInt32.toNat_inj]
  omega

theorem full_iff : pi.full ↔ pi.count = pipeSize := by
  have hr := pi.nread.toNat_lt
  have hw := pi.nwrite.toNat_lt
  have hsize : (UInt32.ofNat pipeSize).toNat = 512 := rfl
  unfold full
  rw [count_eq, ← UInt32.toNat_inj, UInt32.toNat_add, hsize, pipeSize]
  omega

/-- The place for the next byte is behind the bytes in the ring. -/
theorem nwrite_mod (pi : Pipe) : pi.nwrite.toNat % pipeSize = (pi.nread.toNat + pi.count) % pipeSize := by
  have hr := pi.nread.toNat_lt
  have hw := pi.nwrite.toNat_lt
  rw [count_eq, pipeSize]
  omega

theorem count_put (h : pi.count < pipeSize) (ch : UInt8) : (pi.put ch).count = pi.count + 1 := by
  have hr := pi.nread.toNat_lt
  have hw := pi.nwrite.toNat_lt
  rw [count_eq, pipeSize] at h
  rw [count_eq, count_eq]
  change (2 ^ 32 - pi.nread.toNat + (pi.nwrite + 1).toNat) % 2 ^ 32 = _
  have hone : (1 : UInt32).toNat = 1 := rfl
  rw [UInt32.toNat_add, hone]
  omega

theorem count_take (h : ¬ pi.empty) : pi.take.count = pi.count - 1 := by
  have hr := pi.nread.toNat_lt
  have hw := pi.nwrite.toNat_lt
  rw [empty_iff, count_eq] at h
  rw [count_eq, count_eq]
  change (2 ^ 32 - (pi.nread + 1).toNat + pi.nwrite.toNat) % 2 ^ 32 = _
  have hone : (1 : UInt32).toNat = 1 := rfl
  rw [UInt32.toNat_add, hone]
  omega

theorem contents_put (h : pi.count < pipeSize) (ch : UInt8) : (pi.put ch).contents = pi.contents ++ [ch] := by
  have hcount : ((pi.put ch).nwrite - (pi.put ch).nread).toNat = pi.count + 1 := count_put h ch
  unfold contents
  rw [hcount, List.range_succ, List.map_append]
  congr 1
  · refine List.map_congr_left fun k hk => ?_
    have hlt : k < pi.count := List.mem_range.mp hk
    refine update_of_ne ?_ ..
    rw [nwrite_mod]
    change (pi.nread.toNat + k) % pipeSize ≠ (pi.nread.toNat + pi.count) % pipeSize
    rw [pipeSize] at h ⊢
    omega
  · rw [List.map_singleton]
    congr 1
    change update pi.data (pi.nwrite.toNat % pipeSize) ch ((pi.nread.toNat + pi.count) % pipeSize) = ch
    rw [nwrite_mod, update_self]

theorem contents_take (h : ¬ pi.empty) : pi.contents = pi.front :: pi.take.contents := by
  have hpos : 0 < pi.count := Nat.pos_of_ne_zero fun hzero => h (empty_iff.mpr hzero)
  have hcount : (pi.take.nwrite - pi.take.nread).toNat = pi.count - 1 := count_take h
  have hsucc : (pi.nwrite - pi.nread).toNat = (pi.count - 1) + 1 := (Nat.sub_add_cancel hpos).symm
  unfold contents
  rw [hcount, hsucc, List.range_succ_eq_map, List.map_cons, List.map_map]
  congr 1
  refine List.map_congr_left fun k _ => ?_
  change pi.data ((pi.nread.toNat + (k + 1)) % pipeSize) = pi.data (((pi.nread + 1).toNat + k) % pipeSize)
  have hone : (1 : UInt32).toNat = 1 := rfl
  have hr := pi.nread.toNat_lt
  rw [UInt32.toNat_add, hone, pipeSize]
  congr 1
  omega

end Pipe

/-! ### Runs -/

namespace System

variable {n : ℕ} {s s' : System n} {e : Event n}

/-- If the step copies a byte out to a reader, this succeeds. -/
def NoFault (s : System n) (e : Event n) : Prop :=
  ∀ p dst count i, e = .run p → (s.procs p).pc = .readLoop dst count i → (i : ℤ) < count.toInt → ¬ s.pipe.empty → dst i = true

structure Queue (s : System n) : Prop where
  bounded : s.pipe.count ≤ pipeSize
  fifo : s.accepted = s.delivered ++ s.pipe.contents

theorem Queue.of_same (h : s.Queue) (hpipe : s'.pipe.contents = s.pipe.contents)
    (hcount : s'.pipe.count = s.pipe.count) (haccepted : s'.accepted = s.accepted)
    (hdelivered : s'.delivered = s.delivered) : s'.Queue := by
  refine ⟨?_, ?_⟩
  · rw [hcount]
    exact h.bounded
  · rw [haccepted, hdelivered, hpipe]
    exact h.fifo

theorem Queue.move (h : s.Queue) (hheld : s.Held) (hmove : s.Move e s') (hfault : s.NoFault e) : s'.Queue := by
  cases hmove with
  | writePut hpc =>
    rename_i p src count i fresh ch
    have hroom := hheld.knows p
    rw [hpc] at hroom
    have hlt : s.pipe.count < pipeSize := Nat.lt_of_le_of_ne h.bounded fun heq => hroom (Pipe.full_iff.mpr heq)
    refine ⟨?_, ?_⟩
    · change (s.pipe.put ch).count ≤ pipeSize
      rw [Pipe.count_put hlt]
      exact hlt
    · change s.accepted ++ [ch] = s.delivered ++ (s.pipe.put ch).contents
      rw [Pipe.contents_put hlt, h.fifo, List.append_assoc]
  | readTurn hpc =>
    rename_i p dst count i
    unfold readTurn
    split
    · rename_i hgo
      rw [if_pos (hfault p dst count i rfl hpc hgo.1 hgo.2)]
      refine ⟨?_, ?_⟩
      · change s.pipe.take.count ≤ pipeSize
        rw [Pipe.count_take hgo.2]
        exact Nat.le_trans (Nat.sub_le _ _) h.bounded
      · change s.accepted = (s.delivered ++ [s.pipe.front]) ++ s.pipe.take.contents
        rw [List.append_assoc, List.singleton_append, ← Pipe.contents_take hgo.2]
        exact h.fifo
    · exact h.of_same rfl rfl rfl rfl
  | closeEnd hpc =>
    rename_i p writable
    cases writable
    · exact h.of_same rfl rfl rfl rfl
    · exact h.of_same rfl rfl rfl rfl
  | wake hpc hne hown =>
    rename_i p q chan after
    have hwake : (s.wake q chan).Queue := by
      unfold System.wake
      split
      · exact h.of_same rfl rfl rfl rfl
      · exact h
    exact hwake.of_same rfl rfl rfl rfl
  | _ => exact h.of_same rfl rfl rfl rfl

theorem Init.queue (h : s.Init) : s.Queue := by
  have hcount : s.pipe.count = 0 := by
    unfold Pipe.count
    rw [h.nread, h.nwrite]
    rfl
  refine ⟨?_, ?_⟩
  · rw [hcount]
    exact Nat.zero_le _
  · have hcontents : s.pipe.contents = [] := by
      unfold Pipe.contents
      rw [h.nread, h.nwrite]
      rfl
    rw [h.accepted, h.delivered, hcontents]
    rfl

theorem pipe_fifo (hs : Reachable Init (StepWhen NoFault next) s) :
    (s.pipe.nwrite - s.pipe.nread).toNat ≤ pipeSize ∧ s.accepted = s.delivered ++ s.pipe.contents := by
  have hqueue : s.Queue := by
    refine Reachable.invariant (I := Queue) (fun s h => h.queue) (fun s s' hs h hstep => ?_) hs
    obtain ⟨e, hfault, hnext⟩ := hstep
    exact h.move (held (hs.mono fun _ _ => StepWhen.stepOf)) (move_of_next hnext) hfault
  exact ⟨hqueue.bounded, hqueue.fifo⟩

def noFault (s : System n) : Event n → Bool
  | .run p =>
    match (s.procs p).pc with
    | .readLoop dst count i => dst i || !decide ((i : ℤ) < count.toInt ∧ ¬ s.pipe.empty)
    | _ => true
  | _ => true

theorem noFault_of_test (s : System n) (e : Event n) (h : s.noFault e = true) : s.NoFault e := by
  intro p dst count i he hpc hlt hne
  subst he
  simp only [noFault, hpc, Bool.or_eq_true, Bool.not_eq_true', decide_eq_false_iff_not] at h
  exact h.resolve_right fun hno => hno ⟨hlt, hne⟩

def fresh (n : ℕ) : System n where
  pipe := { data := fun _ => 0, nread := 0, nwrite := 0, readopen := true, writeopen := true }
  lock := none
  procs _ := { pc := .outside 0, sleeping := false, chan := none, killed := false }
  accepted := []
  delivered := []

theorem init_fresh (n : ℕ) : (fresh n).Init := ⟨rfl, rfl, rfl, rfl, rfl, fun _ => rfl, fun _ => rfl, rfl, rfl⟩

/-- Two bytes have been written and one has been read. -/
theorem pipe_fifo_two : ∃ s : System 2, Reachable Init (StepWhen NoFault next) s ∧ s.delivered = [7] ∧ s.pipe.contents = [8] ∧
    ((s.pipe.nwrite - s.pipe.nread).toNat ≤ pipeSize ∧ s.accepted = s.delivered ++ s.pipe.contents) := by
  obtain ⟨s, hs, hdelivered, hcontents⟩ : ∃ s : System 2,
      Reachable Init (StepWhen NoFault next) s ∧ s.delivered = [7] ∧ s.pipe.contents = [8] :=
    exists_reachable_when noFault_of_test (init_fresh 2)
      (.write 0 (fun i => some (UInt8.ofNat (7 + i))) 2 :: List.replicate 10 (.run 0) ++
        .read 1 (fun _ => true) 1 :: List.replicate 3 (.run 1)) (by decide +kernel)
  exact ⟨s, hs, hdelivered, hcontents, pipe_fifo hs⟩

end System

end AdvancedXv6.Pipes
