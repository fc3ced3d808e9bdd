import AdvancedXv6.Log.Operations

/-!
# Crashes

One fact about the disk holds at all times: if the blocks of the log that the header counts are copied home, the disk holds what the committed groups have written. A crash leaves the disk and so the fact; the rest of the invariant says what the memory has to do with it while `commit` or `recover_from_log` is under way.
-/

namespace AdvancedXv6.Log

open Function

variable {n : ℕ} {V : Type}

/-! ### Writes and headers -/

theorem replay_append (home : ℕ → V) (ws ws' : List (Write V)) : replay home (ws ++ ws') = replay (replay home ws) ws' := by
  induction ws generalizing home with
  | nil => rfl
  | cons w ws ih => exact ih _

variable {home base contents : ℕ → V} {b tail b' : ℕ} {lh : Header} {d d0 : Disk V} {cache : ℕ → Option V} {v : V} {s s' : System n V}

theorem replay_of_notMem {ws : List (Write V)} (h : ∀ w ∈ ws, w.block ≠ b) : replay home ws b = home b := by
  induction ws generalizing home with
  | nil => rfl
  | cons w ws ih =>
    rw [replay, ih fun w' hw' => h w' (List.mem_cons_of_mem _ hw'), update_of_ne (h w List.mem_cons_self).symm]

theorem Header.mem_blocks : b ∈ lh.blocks ↔ ∃ i, i < lh.n ∧ lh.block i = b := by
  simp [Header.blocks]

theorem Header.find_of_mem (h : b ∈ lh.blocks) : lh.find b < lh.n ∧ lh.block (lh.find b) = b := by
  obtain ⟨i, hi, rfl⟩ := Header.mem_blocks.mp h
  cases hfind : (List.range lh.n).find? fun j => lh.block j = lh.block i with
  | none =>
    rw [List.find?_eq_none] at hfind
    exact absurd (decide_eq_true rfl) (hfind i (List.mem_range.mpr hi))
  | some j =>
    rw [Header.find, hfind]
    exact ⟨List.mem_range.mp (List.mem_of_find?_eq_some hfind), by simpa using List.find?_some hfind⟩

theorem Header.find_of_notMem (h : b ∉ lh.blocks) : lh.find b = lh.n := by
  rw [Header.find, List.find?_eq_none.mpr, Option.getD_none]
  intro i hi hb
  exact h (Header.mem_blocks.mpr ⟨i, List.mem_range.mp hi, by simpa using hb⟩)

theorem Header.blocks_snoc (lh : Header) (b : ℕ) : Header.blocks ⟨lh.n + 1, update lh.block lh.n b⟩ = lh.blocks ++ [b] := by
  change (List.range (lh.n + 1)).map (update lh.block lh.n b) = _
  rw [List.range_succ, List.map_append, List.map_singleton, update_self]
  congr 1
  exact List.map_congr_left fun i hi => update_of_ne (List.mem_range.mp hi).ne _ _

/-- The block is in the header and stays there (absorption), or it is added and pinned, or `log_write` panics. -/
theorem System.logWrite_cases (s : System n V) (b : ℕ) :
    (∃ e, s.logWrite b = { s with pc := .panicked e }) ∨ (b ∈ s.lh.blocks ∧ s.logWrite b = s) ∨
      (b ∉ s.lh.blocks ∧ s.logWrite b =
        { s with lh := ⟨s.lh.n + 1, update s.lh.block s.lh.n b⟩, pins := update s.pins b (s.pins b + 1) }) := by
  rw [System.logWrite]
  split
  · exact .inl ⟨_, rfl⟩
  · split
    · exact .inl ⟨_, rfl⟩
    · dsimp only
      by_cases hb : b ∈ s.lh.blocks
      · obtain ⟨hlt, hblock⟩ := Header.find_of_mem hb
        rw [if_neg hlt.ne]
        have hsame : update s.lh.block (s.lh.find b) b = s.lh.block := update_eq_self_iff.mpr hblock.symm
        exact .inr (.inl ⟨hb, by rw [hsame]⟩)
      · rw [Header.find_of_notMem hb, if_pos rfl]
        exact .inr (.inr ⟨hb, rfl⟩)

/-! ### The disk -/

/-- Copying the blocks of the log that the header counts gives `base`. -/
structure Recoverable (d : Disk V) (base : ℕ → V) : Prop where
  slots_eq : ∀ i < d.header.n, d.slots i = base (d.header.block i)
  home_eq : ∀ b ∉ d.header.blocks, d.home b = base b

theorem Recoverable.home_of_zero (h : Recoverable d base) (hn : d.header.n = 0) : d.home = base := by
  funext b
  refine h.home_eq b fun hb => ?_
  obtain ⟨i, hi, -⟩ := Header.mem_blocks.mp hb
  omega

theorem Recoverable.of_zero (hn : d.header.n = 0) (hhome : d.home = base) : Recoverable d base :=
  ⟨fun i hi => absurd hi (by omega), fun b _ => congrFun hhome b⟩

section

variable (h : Recoverable d base)
include h

theorem Recoverable.install (htail : tail < d.header.n) :
    Recoverable { d with home := update d.home (d.header.block tail) (d.slots tail) } base := by
  refine ⟨h.slots_eq, fun b hb => ?_⟩
  have hne : b ≠ d.header.block tail := by
    rintro rfl
    exact hb (Header.mem_blocks.mpr ⟨tail, htail, rfl⟩)
  exact (update_of_ne hne _ _).trans (h.home_eq b hb)

theorem Recoverable.install_block (htail : tail < d.header.n) (hblock : d.header.block tail = b) :
    d.slots tail = base b ∧ Recoverable { d with home := update d.home b (d.slots tail) } base := by
  have hinstall := h.install htail
  rw [hblock] at hinstall
  exact ⟨by rw [h.slots_eq tail htail, hblock], hinstall⟩

theorem Recoverable.home_of_installed
    (hinstalled : ∀ i < d.header.n, d.home (d.header.block i) = base (d.header.block i)) : d.home = base := by
  funext b
  by_cases hb : b ∈ d.header.blocks
  · obtain ⟨i, hi, rfl⟩ := Header.mem_blocks.mp hb
    exact hinstalled i hi
  · exact h.home_eq b hb

theorem Recoverable.recovered : (recoverFromLog d).home = base := by
  -- after `k` rounds the first `k` blocks of the header are installed
  have hrounds : ∀ k ≤ d.header.n, ∀ b, (List.range k).foldl (fun home tail => update home (d.header.block tail) (d.slots tail)) d.home b =
      if ∃ i < k, d.header.block i = b then base b else d.home b := by
    intro k hk b
    induction k with
    | zero => simp
    | succ k ih =>
      rw [List.range_succ, List.foldl_append, List.foldl_cons, List.foldl_nil]
      by_cases hb : b = d.header.block k
      · subst hb
        rw [update_self, if_pos ⟨k, Nat.lt_succ_self k, rfl⟩]
        exact h.slots_eq k (by omega)
      · rw [update_of_ne hb, ih (by omega)]
        have hiff : (∃ i < k, d.header.block i = b) ↔ ∃ i < k + 1, d.header.block i = b := by
          refine ⟨fun ⟨i, hi, heq⟩ => ⟨i, by omega, heq⟩, fun ⟨i, hi, heq⟩ => ⟨i, ?_, heq⟩⟩
          exact lt_of_le_of_ne (by omega) fun hik => hb (hik ▸ heq.symm)
        rw [if_congr hiff rfl rfl]
  funext b
  change (List.range d.header.n).foldl _ d.home b = base b
  rw [hrounds _ le_rfl]
  split
  · rfl
  · rename_i hnone
    refine h.home_eq b fun hb => hnone ?_
    obtain ⟨i, hi, heq⟩ := Header.mem_blocks.mp hb
    exact ⟨i, hi, heq⟩

end

theorem recoverFromLog_of_zero (hn : d.header.n = 0) : recoverFromLog d = d := by
  obtain ⟨⟨k, block⟩, slots, home⟩ := d
  cases hn
  rfl

/-! ### The memory -/

/-- Buffers hold these contents. -/
def Caches (cache : ℕ → Option V) (contents : ℕ → V) : Prop := ∀ b v, cache b = some v → v = contents b

theorem Caches.set (h : Caches cache contents) (hv : v = contents b) :
    Caches (update cache b (some v)) contents := by
  intro b' v' hb'
  rw [update_apply] at hb'
  split at hb'
  · rename_i heq
    cases hb'
    rw [heq, hv]
  · exact h b' v' hb'

theorem Caches.evict (h : Caches cache contents) (b : ℕ) :
    Caches (update cache b none) contents := by
  intro b' v' hb'
  rw [update_apply] at hb'
  split at hb'
  · cases hb'
  · exact h b' v' hb'

theorem System.bread_eq (h : Caches s.cache contents)
    (hhome : s.cache b = none → s.disk.home b = contents b) : s.bread b = contents b := by
  rw [System.bread]
  cases hb : s.cache b with
  | none => exact hhome hb
  | some v => exact h b v hb

/-- Operations may write, or have written and are about to be committed. Every block of the group is in a buffer that cannot be taken away. -/
structure System.Open (s : System n V) (base : ℕ → V) : Prop where
  header_n : s.disk.header.n = 0
  cached : Caches s.cache (replay base s.pending)
  logged : ∀ b, b ∈ s.lh.blocks ↔ ∃ w ∈ s.pending, w.block = b
  held : ∀ b ∈ s.lh.blocks, s.cache b ≠ none ∧ 0 < s.pins b
  nodup : s.lh.blocks.Nodup

theorem System.Open.congr (h : s.Open base) (hdisk : s'.disk = s.disk) (hcache : s'.cache = s.cache)
    (hpins : s'.pins = s.pins) (hlh : s'.lh = s.lh) (hpending : s'.pending = s.pending) : s'.Open base := by
  refine ⟨?_, ?_, ?_, ?_, ?_⟩
  · rw [hdisk, h.header_n]
  · rw [hcache, hpending]
    exact h.cached
  · rw [hlh, hpending]
    exact h.logged
  · rw [hlh, hcache, hpins]
    exact h.held
  · rw [hlh]
    exact h.nodup

/-- The group is committed, and its first `tail` blocks are at home. -/
structure System.Closing (s : System n V) (base : ℕ → V) (tail : ℕ) : Prop where
  header_n : s.disk.header.n = s.lh.n
  header_block : ∀ i < s.lh.n, s.disk.header.block i = s.lh.block i
  pending_eq : s.pending = []
  cached : Caches s.cache base
  held : ∀ i, tail ≤ i → i < s.lh.n → s.cache (s.lh.block i) ≠ none ∧ 0 < s.pins (s.lh.block i)
  installed : ∀ i < s.lh.n, i < tail → s.disk.home (s.lh.block i) = base (s.lh.block i)
  nodup : s.lh.blocks.Nodup

/-- After a crash: the first `tail` blocks that the header counts are at home again. -/
structure System.Recovering (s : System n V) (base : ℕ → V) (tail : ℕ) : Prop where
  header_n : s.disk.header.n = s.lh.n
  header_block : ∀ i < s.lh.n, s.disk.header.block i = s.lh.block i
  pending_eq : s.pending = []
  cached : Caches s.cache s.disk.home
  installed : ∀ i < s.lh.n, i < tail → s.disk.home (s.lh.block i) = base (s.lh.block i)

/-- All is at home, and the header has to be cleared. -/
structure System.Installed (s : System n V) (base : ℕ → V) : Prop where
  lh_n : s.lh.n = 0
  pending_eq : s.pending = []
  home_eq : s.disk.home = base
  cached : Caches s.cache base

/-- What the memory has to do with the disk. -/
def System.Consistent (s : System n V) (base : ℕ → V) : Prop :=
  match s.pc with
  | .running | .commit => s.Open base
  | .writeLog tail => s.Open base ∧ ∀ i < s.lh.n, i < tail → s.disk.slots i = replay base s.pending (s.lh.block i)
  | .writeHead => s.Open base ∧ ∀ i < s.lh.n, s.disk.slots i = replay base s.pending (s.lh.block i)
  | .installTrans tail => s.Closing base tail
  | .clearHead | .recoverHead => s.Installed base
  | .readHead => s.pending = [] ∧ Caches s.cache s.disk.home
  | .recoverTrans tail => s.Recovering base tail
  | .panicked _ => True

theorem System.Open.consistent (h : s.Open base) (hpc : s.pc = .running ∨ s.pc = .commit) : s.Consistent base := by
  rw [System.Consistent]
  rcases hpc with hpc | hpc <;> rw [hpc] <;> exact h

theorem System.Consistent.running (h : s.Consistent base) (hpc : s.pc = .running) : s.Open base := by
  rwa [System.Consistent, hpc] at h

theorem System.consistent_of_panicked (hpc : s.pc.isPanicked = true) : s.Consistent base := by
  rw [System.Consistent]
  cases hcase : s.pc <;> rw [hcase] at hpc <;> cases hpc
  trivial

/-! ### Buffers -/

theorem System.Open.home_eq (h : s.Open base) (hdisk : Recoverable s.disk base) (hb : b ∉ s.lh.blocks) :
    s.disk.home b = replay base s.pending b := by
  rw [hdisk.home_of_zero h.header_n, replay_of_notMem]
  intro w hw heq
  exact hb ((h.logged b).mpr ⟨w, hw, heq⟩)

theorem System.Open.bread_eq (h : s.Open base) (hdisk : Recoverable s.disk base) (b : ℕ) :
    s.bread b = replay base s.pending b :=
  System.bread_eq h.cached fun hnone => h.home_eq hdisk fun hb => (h.held b hb).1 hnone

theorem System.Closing.bread_eq (h : s.Closing base tail) (hdisk : Recoverable s.disk base) (b : ℕ) :
    s.bread b = base b := by
  refine System.bread_eq h.cached fun hnone => ?_
  by_cases hb : b ∈ s.disk.header.blocks
  · obtain ⟨i, hi, heq⟩ := Header.mem_blocks.mp hb
    rw [h.header_n] at hi
    rw [h.header_block i hi] at heq
    subst heq
    by_cases htail : i < tail
    · exact h.installed i hi htail
    · exact absurd hnone (h.held i (by omega) hi).1
  · exact hdisk.home_eq b hb

theorem ne_none_of_update (h : cache b' ≠ none) : update cache b (some v) b' ≠ none := by
  rw [update_apply]
  split
  · exact Option.some_ne_none v
  · exact h

theorem System.Open.read (h : s.Open base) (hdisk : Recoverable s.disk base) (b : ℕ) :
    System.Open { s with cache := update s.cache b (some (s.bread b)) } base :=
  ⟨h.header_n, h.cached.set (h.bread_eq hdisk b), h.logged, fun b' hb' => ⟨ne_none_of_update (h.held b' hb').1, (h.held b' hb').2⟩, h.nodup⟩

theorem System.Consistent.read (h : s.Consistent base) (hdisk : Recoverable s.disk base) (b : ℕ) :
    System.Consistent { s with cache := update s.cache b (some (s.bread b)) } base := by
  rw [System.Consistent] at h ⊢
  cases hpc : s.pc <;> simp only [hpc] at h ⊢
  case running | commit => exact (h.read hdisk b).congr rfl rfl rfl rfl rfl
  case writeLog | writeHead => exact ⟨(h.1.read hdisk b).congr rfl rfl rfl rfl rfl, h.2⟩
  case installTrans =>
    exact ⟨h.header_n, h.header_block, h.pending_eq, h.cached.set (h.bread_eq hdisk b),
      fun i hi hlt => ⟨ne_none_of_update (h.held i hi hlt).1, (h.held i hi hlt).2⟩, h.installed, h.nodup⟩
  case clearHead | recoverHead =>
    exact ⟨h.lh_n, h.pending_eq, h.home_eq, h.cached.set (System.bread_eq h.cached fun _ => congrFun h.home_eq b)⟩
  case readHead => exact ⟨h.1, h.2.set (System.bread_eq h.2 fun _ => rfl)⟩
  case recoverTrans => exact ⟨h.header_n, h.header_block, h.pending_eq, h.cached.set (System.bread_eq h.cached fun _ => rfl), h.installed⟩

theorem ne_none_of_evict {pins : ℕ → ℕ} (hpins : pins b = 0) (h : cache b' ≠ none ∧ 0 < pins b') :
    update cache b none b' ≠ none ∧ 0 < pins b' := by
  have hne : b' ≠ b := by
    rintro rfl
    omega
  rw [update_of_ne hne]
  exact h

theorem System.Consistent.evict (h : s.Consistent base) (hpins : s.pins b = 0) :
    System.Consistent { s with cache := update s.cache b none } base := by
  have hopen : s.Open base → System.Open { s with cache := update s.cache b none } base := fun h =>
    ⟨h.header_n, h.cached.evict b, h.logged, fun b' hb' => ne_none_of_evict hpins (h.held b' hb'), h.nodup⟩
  rw [System.Consistent] at h ⊢
  cases hpc : s.pc <;> simp only [hpc] at h ⊢
  case running | commit => exact (hopen h).congr rfl rfl rfl rfl rfl
  case writeLog | writeHead => exact ⟨(hopen h.1).congr rfl rfl rfl rfl rfl, h.2⟩
  case installTrans =>
    exact ⟨h.header_n, h.header_block, h.pending_eq, h.cached.evict b, fun i hi hlt => ne_none_of_evict hpins (h.held i hi hlt), h.installed, h.nodup⟩
  case clearHead | recoverHead => exact ⟨h.lh_n, h.pending_eq, h.home_eq, h.cached.evict b⟩
  case readHead => exact ⟨h.1, h.2.evict b⟩
  case recoverTrans => exact ⟨h.header_n, h.header_block, h.pending_eq, h.cached.evict b, h.installed⟩

/-! ### Operations -/

theorem System.Open.logWrite (h : s.Open base) (op b : ℕ) (v : V) :
    ((s.modify op b v).logWrite b).pc.isPanicked = true ∨ ((s.modify op b v).logWrite b).Open base := by
  have hreplay : ∀ b', replay base (s.modify op b v).pending b' = if b' = b then v else replay base s.pending b' := by
    intro b'
    change replay base (s.pending ++ [_]) b' = _
    rw [replay_append]
    exact update_apply _ _ _ _
  have hcached : Caches (s.modify op b v).cache (replay base (s.modify op b v).pending) := by
    intro b' v' hb'
    change update s.cache b (some v) b' = some v' at hb'
    rw [hreplay]
    rw [update_apply] at hb'
    split at hb' <;> rename_i heq
    · cases hb'
      rw [if_pos heq]
    · rw [if_neg heq]
      exact h.cached b' v' hb'
  have hlogged : ∀ b', (∃ w ∈ (s.modify op b v).pending, w.block = b') ↔ b' ∈ s.lh.blocks ∨ b' = b := by
    intro b'
    rw [h.logged b']
    simp [System.modify, or_and_right, exists_or, eq_comm]
  rcases System.logWrite_cases (s.modify op b v) b with ⟨e, heq⟩ | ⟨hb, heq⟩ | ⟨hb, heq⟩ <;> rw [heq]
  · exact .inl rfl
  · change b ∈ s.lh.blocks at hb
    refine .inr ⟨h.header_n, hcached, fun b' => ?_, fun b' hb' => ?_, h.nodup⟩
    · rw [hlogged]
      exact ⟨.inl, fun hor => hor.elim id fun heq => heq ▸ hb⟩
    · exact ⟨ne_none_of_update (h.held b' hb').1, (h.held b' hb').2⟩
  · change b ∉ s.lh.blocks at hb
    have hblocks : Header.blocks ⟨s.lh.n + 1, update s.lh.block s.lh.n b⟩ = s.lh.blocks ++ [b] := Header.blocks_snoc s.lh b
    refine .inr ⟨h.header_n, hcached, fun b' => ?_, fun b' hb' => ?_, ?_⟩
    · rw [hlogged]
      change b' ∈ Header.blocks ⟨s.lh.n + 1, update s.lh.block s.lh.n b⟩ ↔ _
      rw [hblocks, List.mem_append, List.mem_singleton]
    · change b' ∈ Header.blocks ⟨s.lh.n + 1, update s.lh.block s.lh.n b⟩ at hb'
      change update s.cache b (some v) b' ≠ none ∧ 0 < update s.pins b (s.pins b + 1) b'
      rw [hblocks, List.mem_append, List.mem_singleton] at hb'
      by_cases heq : b' = b
      · subst heq
        rw [update_self, update_self]
        exact ⟨Option.some_ne_none v, Nat.succ_pos _⟩
      · rw [update_of_ne heq, update_of_ne heq]
        exact h.held b' (hb'.resolve_right heq)
    · change (Header.blocks ⟨s.lh.n + 1, update s.lh.block s.lh.n b⟩).Nodup
      rw [hblocks]
      exact h.nodup.append (List.nodup_singleton b) (by simpa using hb)

/-! ### Commit and recovery -/

def System.committed (d0 : Disk V) (s : System n V) : ℕ → V := replay d0.home s.groups.flatten

structure Inv (d0 : Disk V) (s : System n V) : Prop where
  recoverable : Recoverable s.disk (s.committed d0)
  consistent : s.Consistent (s.committed d0)

theorem System.Installed.writeHead (h : s.Installed base) (committing : Bool) (pc : Pc) :
    Recoverable (s.disk.writeHead s.lh) base ∧
      System.Open { s with disk := s.disk.writeHead s.lh, committing := committing, pc := pc } base := by
  have hempty : s.lh.blocks = [] := by rw [Header.blocks, h.lh_n]; rfl
  refine ⟨.of_zero h.lh_n h.home_eq, h.lh_n, ?_, ?_, ?_, ?_⟩
  · change Caches s.cache (replay base s.pending)
    rw [h.pending_eq]
    exact h.cached
  · simp [hempty, h.pending_eq]
  · simp [hempty]
  · simp [hempty]

theorem Inv.writeLog (h : Inv d0 s) (hpc : s.pc = .writeLog tail) (hstep : s.advance = some s') :
    Inv d0 s' := by
  obtain ⟨hdisk, hcons⟩ := h
  rw [System.Consistent, hpc] at hcons
  obtain ⟨hopen, hslots⟩ := hcons
  simp only [System.advance, hpc, Option.some.injEq] at hstep
  split at hstep <;> subst hstep
  · rename_i htail
    refine ⟨.of_zero hopen.header_n (hdisk.home_of_zero hopen.header_n), ?_, fun i hi hlt => ?_⟩
    · exact ⟨hopen.header_n, (hopen.read hdisk _).cached, hopen.logged, (hopen.read hdisk _).held, hopen.nodup⟩
    · change update s.disk.slots tail _ i = replay _ s.pending (s.lh.block i)
      by_cases heq : i = tail
      · subst heq
        rw [update_self]
        exact hopen.bread_eq hdisk _
      · rw [update_of_ne heq]
        exact hslots i hi (by omega)
  · rename_i htail
    exact ⟨hdisk, hopen.congr rfl rfl rfl rfl rfl, fun i hi => hslots i hi (lt_of_lt_of_le hi (not_lt.mp htail))⟩

/-- The header is written: from now on the group counts. -/
theorem Inv.writeHead (h : Inv d0 s) (hpc : s.pc = .writeHead) (hstep : s.advance = some s') : Inv d0 s' := by
  obtain ⟨hdisk, hcons⟩ := h
  rw [System.Consistent, hpc] at hcons
  obtain ⟨hopen, hslots⟩ := hcons
  simp only [System.advance, hpc, Option.some.injEq] at hstep
  subst hstep
  have hcommitted : replay d0.home (s.groups ++ [s.pending]).flatten = replay (s.committed d0) s.pending := by
    rw [List.flatten_append, List.flatten_singleton, replay_append]
    rfl
  have hblock : ∀ i < s.lh.n, (s.disk.writeHead s.lh).header.block i = s.lh.block i := fun i hi => if_pos hi
  refine ⟨⟨fun i hi => ?_, fun b hb => ?_⟩, ?_⟩
  · change s.disk.slots i = replay d0.home (s.groups ++ [s.pending]).flatten ((s.disk.writeHead s.lh).header.block i)
    rw [hcommitted, hblock i hi]
    exact hslots i hi
  · change s.disk.home b = replay d0.home (s.groups ++ [s.pending]).flatten b
    rw [hcommitted]
    refine hopen.home_eq hdisk fun hmem => hb ?_
    obtain ⟨i, hi, heq⟩ := Header.mem_blocks.mp hmem
    exact Header.mem_blocks.mpr ⟨i, hi, (hblock i hi).trans heq⟩
  · refine ⟨rfl, hblock, rfl, ?_, fun i _ hi => hopen.held _ (Header.mem_blocks.mpr ⟨i, hi, rfl⟩), fun i _ hi => absurd hi (by omega), hopen.nodup⟩
    change Caches s.cache (replay d0.home (s.groups ++ [s.pending]).flatten)
    rw [hcommitted]
    exact hopen.cached

theorem installed_update {block : ℕ → ℕ} {k : ℕ}
    (h : ∀ i < k, i < tail → home (block i) = base (block i)) (hv : v = base (block tail)) :
    ∀ i < k, i < tail + 1 → update home (block tail) v (block i) = base (block i) := by
  intro i hi hlt
  by_cases heq : block i = block tail
  · rw [heq, update_self, hv]
  · rw [update_of_ne heq]
    exact h i hi (lt_of_le_of_ne (by omega) fun hit => heq (by rw [hit]))

theorem Inv.installTrans (h : Inv d0 s) (hpc : s.pc = .installTrans tail)
    (hstep : s.advance = some s') : Inv d0 s' := by
  obtain ⟨hdisk, hcons⟩ := h
  rw [System.Consistent, hpc] at hcons
  simp only [System.advance, hpc, Option.some.injEq] at hstep
  split at hstep <;> subst hstep
  · rename_i htail
    obtain ⟨hslot, hinstall⟩ := hdisk.install_block (hcons.header_n ▸ htail) (hcons.header_block tail htail)
    refine ⟨hinstall, hcons.header_n, hcons.header_block, hcons.pending_eq, hcons.cached.set hslot, fun i hi hlt => ?_,
      installed_update hcons.installed hslot, hcons.nodup⟩
    change i < s.lh.n at hlt
    have hne : s.lh.block i ≠ s.lh.block tail := by
      intro heq
      have hinj := List.inj_on_of_nodup_map hcons.nodup (List.mem_range.mpr hlt) (List.mem_range.mpr htail) heq
      omega
    change update s.cache (s.lh.block tail) _ (s.lh.block i) ≠ none ∧ 0 < update s.pins (s.lh.block tail) _ (s.lh.block i)
    rw [update_of_ne hne, update_of_ne hne]
    exact hcons.held i (by omega) hlt
  · rename_i htail
    refine ⟨hdisk, rfl, hcons.pending_eq, hdisk.home_of_installed fun i hi => ?_, hcons.cached⟩
    rw [hcons.header_n] at hi
    rw [hcons.header_block i hi]
    exact hcons.installed i hi (by omega)

theorem Inv.recoverTrans (h : Inv d0 s) (hpc : s.pc = .recoverTrans tail)
    (hstep : s.advance = some s') : Inv d0 s' := by
  obtain ⟨hdisk, hcons⟩ := h
  rw [System.Consistent, hpc] at hcons
  simp only [System.advance, hpc, Option.some.injEq] at hstep
  split at hstep <;> subst hstep
  · rename_i htail
    obtain ⟨hslot, hinstall⟩ := hdisk.install_block (hcons.header_n ▸ htail) (hcons.header_block tail htail)
    refine ⟨hinstall, hcons.header_n, hcons.header_block, hcons.pending_eq, ?_, installed_update hcons.installed hslot⟩
    intro b v hb
    change update s.cache (s.lh.block tail) _ b = some v at hb
    change v = update s.disk.home (s.lh.block tail) _ b
    rw [update_apply] at hb ⊢
    split at hb <;> rename_i heq
    · cases hb
      rw [if_pos heq]
    · rw [if_neg heq]
      exact hcons.cached b v hb
  · rename_i htail
    have hhome : s.disk.home = s.committed d0 := by
      refine hdisk.home_of_installed fun i hi => ?_
      rw [hcons.header_n] at hi
      rw [hcons.header_block i hi]
      exact hcons.installed i hi (by omega)
    exact ⟨hdisk, rfl, hcons.pending_eq, hhome, hhome ▸ hcons.cached⟩

theorem Inv.advance (h : Inv d0 s) (hstep : s.advance = some s') : Inv d0 s' := by
  cases hpc : s.pc with
  | running | panicked e => simp [System.advance, hpc] at hstep
  | commit =>
    obtain ⟨hdisk, hcons⟩ := h
    rw [System.Consistent, hpc] at hcons
    simp only [System.advance, hpc, Option.some.injEq] at hstep
    split at hstep <;> subst hstep
    · exact ⟨hdisk, hcons.congr rfl rfl rfl rfl rfl, fun i _ hi => absurd hi (by omega)⟩
    · exact ⟨hdisk, hcons.congr rfl rfl rfl rfl rfl⟩
  | writeLog tail => exact h.writeLog hpc hstep
  | writeHead => exact h.writeHead hpc hstep
  | installTrans tail => exact h.installTrans hpc hstep
  | recoverTrans tail => exact h.recoverTrans hpc hstep
  | clearHead | recoverHead =>
    obtain ⟨hdisk, hcons⟩ := h
    rw [System.Consistent, hpc] at hcons
    simp only [System.advance, hpc, Option.some.injEq] at hstep
    subst hstep
    obtain ⟨hrec, hopen⟩ := hcons.writeHead _ .running
    exact ⟨hrec, hopen⟩
  | readHead =>
    obtain ⟨hdisk, hcons⟩ := h
    rw [System.Consistent, hpc] at hcons
    simp only [System.advance, hpc, Option.some.injEq] at hstep
    subst hstep
    exact ⟨hdisk, rfl, fun i hi => (if_pos hi).symm, hcons.1, hcons.2, fun i _ hi => absurd hi (by omega)⟩

/-! ### Runs -/

theorem Inv.boot (hn : d0.header.n = 0) : Inv d0 (System.boot n d0) := ⟨.of_zero hn rfl, rfl, nofun⟩

theorem Inv.endOp (h : Inv d0 s) (hpc : s.pc = .running) (p : Fin n) : Inv d0 (s.endOp p) := by
  have hopen := h.consistent.running hpc
  rw [System.endOp]
  dsimp only
  split
  · exact ⟨h.recoverable, System.consistent_of_panicked rfl⟩
  · split
    · exact ⟨h.recoverable, System.Open.consistent (System.Open.congr hopen rfl rfl rfl rfl rfl) (.inr rfl)⟩
    · exact ⟨h.recoverable, System.Open.consistent (System.Open.congr hopen rfl rfl rfl rfl rfl) (.inl hpc)⟩

theorem Inv.logWrite (h : Inv d0 s) (hpc : s.pc = .running) (op b : ℕ) (v : V) :
    Inv d0 ((s.modify op b v).logWrite b) := by
  have hlogged := (h.consistent.running hpc).logWrite op b v
  obtain ⟨lh, pins, pc, heq, hpc'⟩ := System.logWrite_eq (s.modify op b v) b
  rw [heq] at hlogged ⊢
  refine ⟨h.recoverable, ?_⟩
  by_cases hpanicked : pc.isPanicked = true
  · exact System.consistent_of_panicked hpanicked
  · exact (hlogged.resolve_left hpanicked).consistent (.inl ((hpc'.resolve_right hpanicked).trans hpc))

theorem Inv.next (h : Inv d0 s) (hcounted : Counted s) {action : Action n V} (hnext : s.next action = some s') :
    Inv d0 s' := by
  cases action with
  | beginOp p =>
    obtain ⟨hpc, hcommitting, -, -, rfl⟩ := System.beginOp_eq_some hnext
    have hrunning := hcounted.running_of_not_committing hpc hcommitting
    have hopen := h.consistent.running hrunning
    exact ⟨h.recoverable, System.Open.consistent (System.Open.congr hopen rfl rfl rfl rfl rfl) (.inl hrunning)⟩
  | logWrite p b v =>
    obtain ⟨op, hpc, hp, rfl⟩ := System.logWrite_eq_some hnext
    exact h.logWrite (hcounted.running hp hpc).1 op b v
  | endOp p =>
    obtain ⟨op, hpc, hp, rfl⟩ := System.endOp_eq_some hnext
    exact h.endOp (hcounted.running hp hpc).1 p
  | read b =>
    cases hnext
    exact ⟨h.recoverable, h.consistent.read h.recoverable b⟩
  | evict b =>
    obtain ⟨hpins, rfl⟩ := System.evict_eq_some hnext
    exact ⟨h.recoverable, h.consistent.evict hpins⟩
  | advance => exact h.advance hnext
  | crash =>
    cases hnext
    exact ⟨h.recoverable, rfl, nofun⟩

theorem Reachable.inv (h : Reachable d0 s) : Inv d0 s := by
  refine Transition.Reachable.invariant (I := Inv d0) ?_ ?_ h
  · rintro s ⟨hn, rfl⟩
    exact Inv.boot hn
  · rintro s s' hreach hs ⟨action, hnext⟩
    exact hs.next (Reachable.counted hreach) hnext

/-! ### Recovery runs through -/

/-- Recovery changes the blocks at home and clears the header. -/
structure RunsTo (s s' : System n V) : Prop where
  run : Relation.ReflTransGen (Transition.StepOf System.next) s s'
  running : s'.pc = .running
  groups_eq : s'.groups = s.groups
  slots_eq : s'.disk.slots = s.disk.slots
  header_eq : s'.disk.header = ⟨0, s.disk.header.block⟩

theorem RunsTo.head {mid : System n V} (hstep : s.advance = some mid) (hgroups : mid.groups = s.groups)
    (hslots : mid.disk.slots = s.disk.slots) (hheader : mid.disk.header = s.disk.header) (h : RunsTo mid s') : RunsTo s s' :=
  ⟨.head ⟨.advance, hstep⟩ h.run, h.running, h.groups_eq.trans hgroups, h.slots_eq.trans hslots, hheader ▸ h.header_eq⟩

theorem exists_runsTo_of_recoverTrans (hpc : s.pc = .recoverTrans tail) : ∃ s', RunsTo s s' := by
  induction hk : s.lh.n - tail generalizing s tail with
  | zero =>
    have hdone : s.advance = some { s with lh := ⟨0, s.lh.block⟩, pc := .recoverHead } := by
      simp only [System.advance, hpc]
      rw [if_neg (by omega)]
    refine ⟨_, .head hdone rfl rfl rfl ⟨.single ⟨.advance, rfl⟩, rfl, rfl, rfl, ?_⟩⟩
    simp [Disk.writeHead]
  | succ k ih =>
    have hround : s.advance = some { s.install tail with pc := .recoverTrans (tail + 1) } := by
      simp only [System.advance, hpc]
      rw [if_pos (by omega)]
    obtain ⟨s', hs'⟩ := ih (s := { s.install tail with pc := .recoverTrans (tail + 1) }) rfl (by change s.lh.n - (tail + 1) = k; omega)
    exact ⟨s', .head hround rfl rfl rfl hs'⟩

theorem exists_runsTo_of_crash (s : System n V) : ∃ s', RunsTo s.crash s' := by
  have hread : s.crash.advance = some { s.crash with
      lh := ⟨s.disk.header.n, fun i => if i < s.disk.header.n then s.disk.header.block i else 0⟩, pc := .recoverTrans 0 } := rfl
  obtain ⟨s', hs'⟩ := exists_runsTo_of_recoverTrans (s := { s.crash with
      lh := ⟨s.disk.header.n, fun i => if i < s.disk.header.n then s.disk.header.block i else 0⟩, pc := .recoverTrans 0 }) rfl
  exact ⟨s', .head hread rfl rfl rfl hs'⟩

/-! ### The guarantee -/

/-- Whatever happens next, the disk is good for what has been committed. -/
structure CrashSafe (d0 : Disk V) (s : System n V) : Prop where
  /-- Recovery from this disk leaves what the committed groups have written, in order. -/
  recovered : (recoverFromLog s.disk).home = replay d0.home s.groups.flatten
  /-- Recovery once more changes nothing. -/
  again : recoverFromLog (recoverFromLog s.disk) = recoverFromLog s.disk
  /-- After a crash recovery runs through, if no other crash comes. -/
  completes : ∃ s', Relation.ReflTransGen (Transition.StepOf System.next) s.crash s' ∧ s'.pc = .running ∧ s'.disk = recoverFromLog s.disk ∧
    s'.groups = s.groups
  /-- When recovery is over, however often it was interrupted, the committed groups are at home and nothing else is. -/
  running : s.pc = .running → s.disk.home = replay d0.home s.groups.flatten ∧ recoverFromLog s.disk = s.disk
  /-- An operation is in the committed groups with all it has written, or with nothing. -/
  whole : ∀ op, ofOp op s.groups.flatten = ofOp op s.written ∨ ofOp op s.groups.flatten = []

theorem log_crashSafe {d0 : Disk V} {s : System n V} (h : Reachable d0 s) : CrashSafe d0 s := by
  have hrunning : ∀ {s : System n V}, Reachable d0 s → s.pc = .running → s.disk.header.n = 0 ∧ s.disk.home = s.committed d0 := by
    intro s hs hpc
    have hn := (hs.inv.consistent.running hpc).header_n
    exact ⟨hn, hs.inv.recoverable.home_of_zero hn⟩
  refine ⟨h.inv.recoverable.recovered, rfl, ?_, fun hpc => ?_, fun op => ?_⟩
  · obtain ⟨s', hs'⟩ := exists_runsTo_of_crash s
    have hreach : Reachable d0 s' := (h.tail ⟨.crash, rfl⟩).trans hs'.run
    have hgroups : s'.groups = s.groups := hs'.groups_eq
    refine ⟨s', hs'.run, hs'.running, ?_, hgroups⟩
    have hhome : s'.disk.home = (recoverFromLog s.disk).home := by
      rw [(hrunning hreach hs'.running).2, h.inv.recoverable.recovered, System.committed, hgroups]
      rfl
    calc s'.disk
      _ = ⟨s'.disk.header, s'.disk.slots, s'.disk.home⟩ := rfl
      _ = recoverFromLog s.disk := by rw [hs'.header_eq, hs'.slots_eq, hhome]; rfl
  · obtain ⟨hn, hhome⟩ := hrunning h hpc
    exact ⟨hhome, recoverFromLog_of_zero hn⟩
  · rcases h.numbered.whole op with ⟨hnone, -⟩ | ⟨-, -, hnone | hall⟩
    · exact .inr hnone
    · exact .inr hnone
    · exact .inl hall

def emptyDisk : Disk ℕ := ⟨⟨0, fun _ => 0⟩, fun _ => 0, fun _ => 0⟩

/-- Two processes write a block each, one of them ends its operation and the other one too; then comes a crash in the middle of `install_trans`, and one in the middle of recovery. -/
def twoCrashes (p q : Fin n) : List (Action n ℕ) :=
  [.advance, .advance, .advance, .beginOp p, .beginOp q, .logWrite p 5 7, .logWrite q 6 8, .endOp p, .endOp q, .advance, .advance, .advance,
    .advance, .advance, .advance, .crash, .advance, .advance, .crash, .advance, .advance, .advance, .advance, .advance]

theorem log_crashSafe_twoCrashes : ∃ s : System 2 ℕ, Reachable emptyDisk s ∧ s.pc = .running ∧ s.disk.home 5 = 7 ∧ s.disk.home 6 = 8 ∧
    CrashSafe emptyDisk s := by
  obtain ⟨s, hreach, hpc, hfirst, hsecond⟩ : ∃ s : System 2 ℕ, Reachable emptyDisk s ∧
      s.pc = .running ∧ s.disk.home 5 = 7 ∧ s.disk.home 6 = 8 :=
    Transition.exists_reachable_of_schedule ⟨rfl, rfl⟩ (twoCrashes 0 1) (by decide)
  exact ⟨s, hreach, hpc, hfirst, hsecond, log_crashSafe hreach⟩

end AdvancedXv6.Log
