import AdvancedXv6.BufferCache.Lru
import AdvancedXv6.Lib.Weights

/-!
# Running out of buffers

A buffer is in use while a process has it, from the `bread` that returns it to the end of the
`brelse`, and while the log has it pinned. Its reference count says so, and `bget` panics when all
buffers are in use and none of them is for the block. There are fewer buffers than processes, so
readers alone can bring that about.
-/

namespace AdvancedXv6.BufferCache

open Function Transition Weights

variable {k n : ℕ}

/-- The cache, and the buffers that the log has pinned: `log_write` pins the buffer of a block that is
not in the log yet, and `install_trans` unpins the buffers of the blocks in the log. -/
structure Logged (k n : ℕ) where
  cache : System k n
  pinned : Fin n → Bool

namespace Logged

def pin (pinned : Fin n → Bool) : Event k n → Option (Fin n → Bool)
  | .bpin _ b => if pinned b then none else some (update pinned b true)
  | .bunpin _ b => if pinned b then some (update pinned b false) else none
  | _ => some pinned

def next (x : Logged k n) (e : Event k n) : Option (Logged k n) :=
  (x.cache.next e).bind fun s => (pin x.pinned e).map fun pinned => ⟨s, pinned⟩

structure Init (x : Logged k n) : Prop where
  cache : x.cache.Init
  pinned : ∀ b, x.pinned b = false

/-- The process waits for the lock of the buffer, has it, or has still to give up its reference. -/
def Has (x : Logged k n) (p : Fin k) (b : Fin n) : Prop :=
  x.cache.pcs p = .lock b ∨ x.cache.pcs p = .release b ∨ x.cache.owner b = some p

instance (x : Logged k n) (p : Fin k) (b : Fin n) : Decidable (x.Has p b) :=
  inferInstanceAs (Decidable (_ ∨ _))

/-- The buffers that a process has or that are pinned. -/
def inUse (x : Logged k n) : Finset (Fin n) :=
  Finset.univ.filter fun b => x.pinned b = true ∨ ∃ p, x.Has p b

/-- A reference besides that of the owner of the lock. -/
def waits (b : Fin n) (pc : Pc n) : ℕ := if pc = .lock b ∨ pc = .release b then 1 else 0

def refs (x : Logged k n) (b : Fin n) : ℕ :=
  total (fun _ => waits b) x.cache.pcs + (x.cache.owner b).isSome.toNat + (x.pinned b).toNat

variable {x x' : Logged k n} {p : Fin k} {b : Fin n} {e : Event k n}

theorem refs_le (x : Logged k n) (b : Fin n) : x.refs b ≤ k + 2 := by
  have hle : total (fun _ => waits b) x.cache.pcs ≤ total (fun _ _ => 1) x.cache.pcs :=
    total_mono fun p => by unfold waits; split <;> omega
  have hcard : total (fun _ _ => 1) x.cache.pcs = k := by simp [total]
  have howner := (x.cache.owner b).isSome.toNat_le
  have hpinned := (x.pinned b).toNat_le
  unfold refs
  omega

theorem mem_inUse_iff : b ∈ x.inUse ↔ x.refs b ≠ 0 := by
  have hwaits : total (fun _ => waits b) x.cache.pcs ≠ 0 ↔
      ∃ p, x.cache.pcs p = .lock b ∨ x.cache.pcs p = .release b := by
    simp [total, waits, or_iff_not_imp_left]
  have howner : (x.cache.owner b).isSome ↔ ∃ p, x.cache.owner b = some p := Option.isSome_iff_exists
  simp only [inUse, Has, refs]
  grind

/-- The reference counts are right. -/
def Counted (x : Logged k n) : Prop := ∀ b, (x.cache.bufs b).refcnt.toNat = x.refs b

theorem next_eq_some (hnext : x.next e = some x') :
    x.cache.next e = some x'.cache ∧ pin x.pinned e = some x'.pinned := by
  obtain ⟨s, hs, hmap⟩ := Option.bind_eq_some_iff.mp hnext
  obtain ⟨pinned, hpin, rfl⟩ := Option.map_eq_some_iff.mp hmap
  exact ⟨hs, hpin⟩

section

variable (hk : k + 3 < 2 ^ 32) (h : x.Counted) (hs : x.cache.Sound) (hnext : x.next e = some x')
include hk h hs hnext

/-- What a step does to the count of a buffer it does to what the process that takes it has of it. -/
theorem Counted.balance (b : Fin n) : ∃ p pc, x'.cache.pcs = update x.cache.pcs p pc ∧
    (x'.cache.bufs b).refcnt.toNat + waits b (x.cache.pcs p) + (x.cache.owner b).isSome.toNat +
      (x.pinned b).toNat =
    (x.cache.bufs b).refcnt.toNat + waits b pc + (x'.cache.owner b).isSome.toNat +
      (x'.pinned b).toNat := by
  have hle := x.refs_le b
  have hb := h b
  unfold refs at hle hb
  obtain ⟨hcache, hpin⟩ := next_eq_some hnext
  obtain ⟨s, pinned⟩ := x'
  cases e with
  | bread p dev blockno =>
    cases hpin
    simp only [System.next] at hcache
    split at hcache
    · rename_i hidle
      obtain ⟨⟨s1, c⟩, hget, rfl⟩ := Option.map_eq_some_iff.mp hcache
      obtain ⟨bs, hordered⟩ := hs.ordered
      refine ⟨p, .lock c, ?_⟩
      rcases hordered.bget_cases hget with ⟨_, rfl⟩ | ⟨_, hfree, _, rfl⟩ <;> refine ⟨rfl, ?_⟩
      · by_cases hbc : b = c <;> simp [System.goto, System.setBuf, waits, hidle, hbc, eq_comm]
        grind
      · by_cases hbc : b = c <;> simp [System.goto, System.setBuf, waits, hidle, hbc, hfree, eq_comm]
    · cases hcache
  | brelse p c =>
    cases hpin
    obtain ⟨hidle, howner, rfl⟩ := System.call_eq_some hcache
    refine ⟨p, .release c, rfl, ?_⟩
    by_cases hbc : b = c <;> simp [System.goto, waits, hidle, howner, hbc, eq_comm]
  | bpin p c =>
    obtain ⟨hidle, -, rfl⟩ := System.call_eq_some hcache
    simp only [pin, Option.ite_none_left_eq_some, Option.some.injEq] at hpin
    obtain ⟨hpin, rfl⟩ := hpin
    refine ⟨p, .idle, by simp [System.setBuf, ← hidle], ?_⟩
    by_cases hbc : b = c <;> simp [System.setBuf, hidle, hbc]
    grind
  | bunpin p c =>
    obtain ⟨hidle, -, rfl⟩ := System.call_eq_some hcache
    obtain ⟨hset, rfl⟩ := guard_eq_some hpin
    refine ⟨p, .idle, by simp [System.setBuf, ← hidle], ?_⟩
    by_cases hbc : b = c <;> simp [System.setBuf, hidle, hbc]
    grind [UInt32.toNat_sub]
  | run p =>
    cases hpin
    have hone := le_total (fun _ => waits b) x.cache.pcs p
    simp only [System.next, System.run] at hcache
    split at hcache
    · cases hcache
    · rename_i c hpc
      split at hcache <;> cases hcache
      rename_i hfree
      refine ⟨p, .fill c, rfl, ?_⟩
      by_cases hbc : b = c <;> simp [System.goto, waits, hpc, hfree, hbc, eq_comm]
    · rename_i c hpc
      cases hcache
      refine ⟨p, .idle, rfl, ?_⟩
      by_cases hbc : b = c <;> simp [System.goto, System.setBuf, waits, hpc, hbc]
    · rename_i c hpc
      cases hcache
      obtain ⟨_, _, _, heq⟩ := x.cache.unref_eq c
      refine ⟨p, .idle, by rw [heq]; rfl, ?_⟩
      by_cases hbc : b = c <;> simp [heq, System.goto, System.setBuf, waits, hpc, hbc, eq_comm]
      grind [waits, UInt32.toNat_sub]

theorem Counted.next : x'.Counted := by
  intro b
  obtain ⟨p, pc, hpcs, heq⟩ := h.balance hk hs hnext b
  have htotal := total_update (fun _ => waits b) x.cache.pcs p pc
  have hb := h b
  unfold refs at hb ⊢
  rw [hpcs]
  omega

end

theorem counted (hk : k + 3 < 2 ^ 32) (hx : Reachable Init (StepOf next) x) :
    x.cache.Sound ∧ x.Counted := by
  refine hx.invariant (I := fun x => x.cache.Sound ∧ x.Counted) (fun x hinit => ?_) ?_
  · refine ⟨hinit.cache.sound, fun b => ?_⟩
    simp [refs, hinit.cache.bufs, hinit.cache.owner, hinit.pinned, total, waits,
      hinit.cache.pcs]
  · rintro x x' - ⟨hs, hc⟩ ⟨e, hnext⟩
    obtain ⟨bs, hordered⟩ := hs.ordered
    exact ⟨hs.change (hordered.change (next_eq_some hnext).1), hc.next hk hs hnext⟩

/-- `bread` does not panic, just if there is a buffer for the block, or the buffers that a process has
or that the log has pinned are fewer than the buffers there are. -/
theorem bread_isSome_iff (hk : k + 3 < 2 ^ 32) (hx : Reachable Init (StepOf next) x)
    (hidle : x.cache.pcs p = .idle) (dev blockno : UInt32) :
    (x.next (.bread p dev blockno)).isSome ↔
      (∃ b, x.cache.Assigned b dev blockno) ∨ x.inUse.card < n := by
  obtain ⟨hs, hc⟩ := counted hk hx
  obtain ⟨bs, hordered⟩ := hs.ordered
  have hfree : (∃ b, (x.cache.bufs b).refcnt = 0) ↔ x.inUse.card < n := by
    have hcard := Finset.card_lt_iff_ne_univ x.inUse
    rw [Fintype.card_fin, Ne, Finset.eq_univ_iff_forall, not_forall] at hcard
    rw [hcard]
    refine exists_congr fun b => ?_
    rw [mem_inUse_iff, not_not, ← hc b, ← UInt32.toNat_inj]
    rfl
  rw [← hfree, ← hordered.bget_isSome_iff dev blockno]
  cases hget : x.cache.bget dev blockno <;> simp [Logged.next, System.next, hidle, pin, hget]

def boot (k n : ℕ) : Logged k n := ⟨.boot k n, fun _ => false⟩

theorem init_boot (k n : ℕ) : (boot k n).Init := ⟨System.init_boot k n, fun _ => rfl⟩

/-- Process 0 has read a block, written it to the log and let go of it, and process 1 waits for the
disk. There is a buffer for process 2. -/
theorem bread_isSome_last : ∃ x : Logged 3 3, Reachable Init (StepOf next) x ∧ x.inUse.card = 2 ∧
    (x.next (.bread 2 rootdev 9)).isSome := by
  obtain ⟨x, hreach, hcard, hidle⟩ : ∃ x : Logged 3 3, Reachable Init (StepOf next) x ∧
      x.inUse.card = 2 ∧ x.cache.pcs 2 = .idle :=
    exists_reachable_of_schedule (init_boot 3 3) [.bread 0 rootdev 7, .run 0, .run 0, .bpin 0 0,
      .brelse 0 0, .run 0, .bread 1 rootdev 8, .run 1] (by decide +kernel)
  exact ⟨x, hreach, hcard, (bread_isSome_iff (by decide) hreach hidle rootdev 9).2 (.inr (by omega))⟩

/-- `NPROC` is 64 and `NBUF` is 30. Thirty processes have each begun to read a block and wait for the
disk, and the next one panics. -/
theorem bread_panics : ∃ x : Logged 64 30, Reachable Init (StepOf next) x ∧
    x.cache.pcs 30 = .idle ∧ x.next (.bread 30 rootdev 30) = none := by
  obtain ⟨x, hreach, hidle, hnone⟩ : ∃ x : Logged 64 30, Reachable Init (StepOf next) x ∧
      x.cache.pcs 30 = .idle ∧ (x.next (.bread 30 rootdev 30)).isNone = true :=
    exists_reachable_of_schedule (init_boot 64 30) ((List.range 30).flatMap fun p =>
      [.bread (Fin.ofNat 64 p) rootdev p.toUInt32, .run (Fin.ofNat 64 p)]) (by decide +kernel)
  exact ⟨x, hreach, hidle, Option.isNone_iff_eq_none.mp hnone⟩

end Logged

end AdvancedXv6.BufferCache
