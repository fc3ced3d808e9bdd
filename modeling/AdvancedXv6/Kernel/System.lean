import AdvancedXv6.Kernel.Processes
import AdvancedXv6.Kernel.Memory

/-!
# The kernel with its processes

A machine whose steps are system calls, page faults and user stores of any number of processes, in any order, and allocations by the rest of the kernel. It starts when `userinit` has made the first process, after `kinit` and the allocations of `main`. The saved user stack pointer, which user code may set as it likes, is part of a step. A process whose page fault cannot be handled is killed; an exited process keeps its address space until its parent waits for it. A panic stops the machine.
-/

namespace AdvancedXv6.Kernel

open Function Prog Transition

/-- The process table, with `n` entries, and the pages that the rest of the kernel has allocated. -/
structure System (n : ℕ) where
  kernel : KState
  procs : Fin n → Proc
  buffers : List ℕ
  panicked : Option Panic

inductive Call (n : ℕ) where
  | kalloc
  | kfree (p : ℕ)
  | fork (i j : Fin n)
  | exec (i : Fin n) (sp : ℕ) (ip : Option Inode) (argv : List (List (BitVec 8)))
  | sbrk (i : Fin n) (bytes : ℤ)
  | exit (i : Fin n)
  | wait (i : Fin n)
  | fault (i : Fin n) (sp va : ℕ)
  | store (i : Fin n) (va : ℕ) (b : BitVec 8)
  | copyout (i : Fin n) (sp dstva : ℕ) (src : List (BitVec 8))

section
variable {n : ℕ}

def System.run {α : Type} (s : System n) (x : KernelM α) (after : α → KState → System n) : System n :=
  match x s.kernel with
  | .ok (a, k) => after a k
  | .error e => { s with panicked := some e }

def System.set (s : System n) (i : Fin n) (p : Proc) (k : KState) : System n := { s with kernel := k, procs := update s.procs i p }

/-- The part of `usertrap` for a page fault: a process is killed, and exits, if the handler reports a failure. -/
def usertrapFault (sp va : ℕ) (p : Proc) : KernelM Proc := do
  let value ← handlePageFault sp va p.pagetable
  if value = -1 then
    pure { p with state := .zombie }
  else if value = -2 then
    pure { p with state := .zombie }
  else
    pure p

def System.entry (s : System n) (i : Fin n) (v : ℕ) : Pte := Kernel.entry s.kernel.mem (s.procs i).root v

/-- One step, if it can be taken. A system call is made by a process that runs. `fork` finds the unused entry `j`; `wait` frees the exited process `i`. -/
def System.next (s : System n) (call : Call n) : Option (System n) :=
  if s.panicked.isSome then none else
  match call with
  | .kalloc => some <| s.run Kernel.kalloc fun pa k =>
    if pa = 0 then { s with kernel := k } else { s with kernel := k, buffers := pa / pgsize :: s.buffers }
  | .kfree p =>
    if p ∈ s.buffers then
      some <| s.run (Kernel.kfree (p * pgsize)) fun _ k => { s with kernel := k, buffers := s.buffers.erase p }
    else none
  | .fork i j =>
    if (s.procs i).state = .runnable ∧ (s.procs j).state = .unused then
      some <| s.run (Kernel.fork (s.procs i) (s.procs j)) fun out k => s.set j out.1 k
    else none
  | .exec i sp ip argv =>
    if (s.procs i).state = .runnable then
      some <| s.run (Kernel.exec sp (s.procs i) ip argv) fun out k => s.set i out.1 k
    else none
  | .sbrk i bytes =>
    if (s.procs i).state = .runnable ∧ -2 ^ 31 ≤ bytes ∧ bytes < 2 ^ 31 then
      some <| s.run (growproc (s.procs i) bytes) fun out k => s.set i out.1 k
    else none
  | .exit i =>
    if (s.procs i).state = .runnable then some (s.set i { s.procs i with state := .zombie } s.kernel) else none
  | .wait i =>
    if (s.procs i).state = .zombie then
      some <| s.run (freeproc (s.procs i)) fun p k => s.set i p k
    else none
  | .fault i sp va =>
    if (s.procs i).state = .runnable then
      some <| s.run (usertrapFault sp va (s.procs i)) fun p k => s.set i p k
    else none
  | .store i va b =>
    if (s.procs i).state = .runnable ∧ va < maxva ∧ canStore (s.entry i (va / pgsize)) then
      some { s with kernel := s.kernel.storeByte (s.entry i (va / pgsize)) (va % pgsize) b }
    else none
  | .copyout i sp dstva src =>
    if (s.procs i).state = .runnable then
      some <| s.run (Kernel.copyout sp (s.procs i).pagetable dstva src) fun _ k => { s with kernel := k }
    else none

def kallocs : ℕ → KernelM (List ℕ)
  | 0 => pure []
  | m + 1 => do
    let pages ← kallocs m
    let pa ← kalloc
    if pa = 0 then pure pages else pure (pa / pgsize :: pages)

/-- The start of the kernel, as far as memory goes: `kinit`, the pages for the kernel's page table, the kernel stacks and the queues of the disk, and `userinit`. -/
def start (m : ℕ) : KernelM (List ℕ × Proc) := do
  kinit
  let pages ← kallocs m
  let p ← userinit Proc.empty
  pure (pages, p)

/-- The machine after its start. The kernel has allocated a few hundred pages by then. -/
def System.Initial (s : System n) : Prop :=
  ∃ mem m i, m ≤ 1024 ∧ start m (boot mem) = .ok ((s.buffers, s.procs i), s.kernel) ∧ (∀ j, j ≠ i → s.procs j = Proc.empty) ∧ s.panicked = none

def System.Reachable (s : System n) : Prop := Transition.Reachable System.Initial (Transition.StepOf System.next) s

/-! ### What holds between the steps -/

def System.Live (s : System n) (i : Fin n) : Prop := (s.procs i).state ≠ .unused

/-- Every process has its own address space, with the layout that goes with its size, and its own trapframe; every page that the rest of the kernel points to is counted. -/
structure System.Sound (s : System n) (L : Ledger) : Prop where
  inv : Inv s.kernel L
  unused : ∀ i, (s.procs i).state = .unused → s.procs i = Proc.empty
  lives : ∀ i, s.Live i → (s.procs i).Lives s.kernel L
  root_inj : ∀ i j, s.Live i → s.Live j → (s.procs i).root = (s.procs j).root → i = j
  frame_inj : ∀ i j, s.Live i → s.Live j → (s.procs i).frame = (s.procs j).frame → i = j
  frame_notMem : ∀ i, s.Live i → (s.procs i).frame ∉ s.buffers
  buffers_le : ∀ p, s.buffers.count p ≤ L.held p

def System.Fine (s : System n) : Prop := (∃ L, s.Sound L) ∧ ∀ e, s.panicked = some e → e ∉ layoutPanics

variable {s : System n} {k' : KState} {L L' : Ledger} {i j : Fin n} {p : Proc}

theorem live_of_runnable (h : (s.procs i).state = .runnable) : s.Live i := by
  unfold System.Live
  rw [h]
  nofun

theorem System.Sound.fine (h : s.Sound L) (hnone : s.panicked = none) : s.Fine := ⟨⟨L, h⟩, fun e he => by rw [hnone] at he; cases he⟩

theorem System.Sound.run {α : Type} {x : KernelM α} {after : α → KState → System n} (h : s.Sound L)
    (hpost : Post x s.kernel (fun a k => (after a k).Fine) fun e => e ∉ layoutPanics) : (s.run x after).Fine := by
  unfold System.run
  cases hx : x s.kernel with
  | ok out => exact hpost.of_ok hx
  | error e =>
    refine ⟨⟨L, h.inv, h.unused, h.lives, h.root_inj, h.frame_inj, h.frame_notMem, h.buffers_le⟩, fun e' he' => ?_⟩
    cases he'
    exact hpost.of_error hx

theorem System.set_self (s : System n) (i : Fin n) (p : Proc) (k : KState) : (s.set i p k).procs i = p := update_self ..

theorem System.set_of_ne (s : System n) {i : Fin n} (p : Proc) (k : KState) (h : j ≠ i) : (s.set i p k).procs j = s.procs j := update_of_ne h _ _

theorem System.live_of_ne {k : KState} (hj : (s.set i p k).Live j) (hne : j ≠ i) : s.Live j := by
  unfold System.Live at hj
  rw [s.set_of_ne p k hne] at hj
  exact hj

theorem System.state_of_live {k : KState} (hi : (s.set i p k).Live i) : p.state ≠ .unused := by
  unfold System.Live at hi
  rw [s.set_self] at hi
  exact hi

/-- What differs from process to process differs after the change of one entry. -/
theorem System.inj_set (s : System n) (f : Proc → ℕ) (hinj : ∀ j j', s.Live j → s.Live j' → f (s.procs j) = f (s.procs j') → j = j')
    (hnew : p.state ≠ .unused → ∀ j, j ≠ i → s.Live j → f p ≠ f (s.procs j)) {j' : Fin n} (hj : (s.set i p k').Live j) (hj' : (s.set i p k').Live j')
    (heq : f ((s.set i p k').procs j) = f ((s.set i p k').procs j')) : j = j' := by
  by_cases hji : j = i
  · by_cases hji' : j' = i
    · rw [hji, hji']
    · subst hji
      rw [s.set_self, s.set_of_ne p k' hji'] at heq
      exact absurd heq (hnew (System.state_of_live hj) j' hji' (System.live_of_ne hj' hji'))
  · by_cases hji' : j' = i
    · subst hji'
      rw [s.set_self, s.set_of_ne p k' hji] at heq
      exact absurd heq.symm (hnew (System.state_of_live hj') j hji (System.live_of_ne hj hji))
    · rw [s.set_of_ne p k' hji, s.set_of_ne p k' hji'] at heq
      exact hinj j j' (System.live_of_ne hj hji) (System.live_of_ne hj' hji') heq

theorem System.Sound.set (h : s.Sound L) (hinv : Inv k' L') (hothers : ∀ j, j ≠ i → s.Live j → (s.procs j).Lives k' L')
    (hheld : ∀ x, x ∈ s.buffers → L.held x ≤ L'.held x)
    (hunused : p.state = .unused → p = Proc.empty)
    (hlives : p.state ≠ .unused → p.Lives k' L' ∧ p.frame ∉ s.buffers ∧ ∀ j, j ≠ i → s.Live j → p.root ≠ (s.procs j).root ∧ p.frame ≠ (s.procs j).frame) :
    (s.set i p k').Sound L' := by
  refine ⟨hinv, fun j hj => ?_, fun j hj => ?_, fun j j' hj hj' heq => ?_, fun j j' hj hj' heq => ?_, fun j hj => ?_, fun x => ?_⟩
  · by_cases hji : j = i
    · subst hji
      rw [s.set_self] at hj ⊢
      exact hunused hj
    · rw [s.set_of_ne p k' hji] at hj ⊢
      exact h.unused j hj
  · by_cases hji : j = i
    · subst hji
      rw [s.set_self]
      exact (hlives (System.state_of_live hj)).1
    · rw [s.set_of_ne p k' hji]
      exact hothers j hji (System.live_of_ne hj hji)
  · exact s.inj_set Proc.root h.root_inj (fun hp j hji hj => ((hlives hp).2.2 j hji hj).1) hj hj' heq
  · exact s.inj_set Proc.frame h.frame_inj (fun hp j hji hj => ((hlives hp).2.2 j hji hj).2) hj hj' heq
  · by_cases hji : j = i
    · subst hji
      rw [s.set_self]
      exact (hlives (System.state_of_live hj)).2.1
    · rw [s.set_of_ne p k' hji]
      exact h.frame_notMem j (System.live_of_ne hj hji)
  · by_cases hx : x ∈ s.buffers
    · exact Nat.le_trans (h.buffers_le x) (hheld x hx)
    · have hzero : s.buffers.count x = 0 := List.count_eq_zero.mpr hx
      exact hzero ▸ Nat.zero_le _

section
variable {mine : ℕ → Prop}

theorem System.Sound.lives_spared (h : s.Sound L) (hj : s.Live j) (hspares : Spares mine s.kernel L k' L') (hnot : ¬ mine (s.procs j).root) :
    (s.procs j).Lives k' L' := by
  have hl := h.lives j hj
  exact hl.congr rfl rfl hl.size_le (hspares.layout hnot hl.layout) hspares.held_le

theorem System.Sound.not_mine (h : s.Sound L) (hi : s.Live i) (hj : s.Live j) (hji : j ≠ i) :
    ¬ ((s.procs j).root = (s.procs i).root ∨ L.role (s.procs j).root ≠ .root) := by
  rintro (heq | hnot)
  · exact hji (h.root_inj j i hj hi heq)
  · exact hnot (h.lives j hj).layout.root

end

section

variable (h : s.Sound L)
include h

theorem System.Sound.moved (hi : s.Live i) (hmoved : (s.procs i).Moved s.kernel L p k' L') : (s.set i p k').Sound L' := by
  refine h.set hmoved.spares.inv (fun j hji hj => h.lives_spared hj hmoved.spares (h.not_mine hi hj hji)) (fun x _ => hmoved.spares.held_le x)
    (fun hp => ?_) fun _ => ⟨hmoved.lives, ?_, fun j hji hj => ⟨fun heq => ?_, fun heq => ?_⟩⟩
  · rw [hmoved.state_eq] at hp
    exact absurd hp hi
  · rw [hmoved.frame_eq]
    exact h.frame_notMem i hi
  · rcases hmoved.root_new with hsame | hnew
    · exact hji (h.root_inj j i hj hi (heq.symm.trans hsame))
    · exact hnew (heq ▸ (h.lives j hj).layout.root)
  · exact hji (h.frame_inj j i hj hi (heq.symm.trans hmoved.frame_eq))

theorem System.Sound.stays (hi : s.Live i) (state : ProcState) (hstate : state ≠ .unused)
    (hstays : Stays (s.procs i).root (s.procs i).frame (pages (s.procs i).sz) s.kernel L k') : ∃ L', (s.set i { s.procs i with state } k').Sound L' := by
  obtain ⟨L', hspares, hlayout⟩ := hstays
  have hl := h.lives i hi
  have hother : ∀ j, j ≠ i → s.Live j → (s.procs j).root ≠ (s.procs i).root := fun j hji hj heq => hji (h.root_inj j i hj hi heq)
  exact ⟨L', h.set hspares.inv (fun j hji hj => h.lives_spared hj hspares (hother j hji hj)) (fun x _ => hspares.held_le x)
    (fun hp => absurd hp hstate) fun _ => ⟨hl.congr rfl rfl hl.size_le hlayout hspares.held_le, h.frame_notMem i hi,
      fun j hji hj => ⟨fun heq => hother j hji hj heq.symm, fun heq => hji (h.frame_inj j i hj hi heq.symm)⟩⟩⟩

theorem System.Sound.stays_kernel (hi : s.Live i)
    (hstays : Stays (s.procs i).root (s.procs i).frame (pages (s.procs i).sz) s.kernel L k') : ∃ L', System.Sound { s with kernel := k' } L' := by
  obtain ⟨L', hsound⟩ := h.stays hi (s.procs i).state hi hstays
  have hsame : s.set i { s.procs i with state := (s.procs i).state } k' = { s with kernel := k' } := by
    unfold System.set
    rw [update_eq_self]
  rw [hsame] at hsound
  exact ⟨L', hsound⟩

theorem System.Sound.fresh_frame {x : ℕ} (hx : L.held x = 0) : x ∉ s.buffers ∧ ∀ j, s.Live j → x ≠ (s.procs j).frame := by
  refine ⟨fun hmem => ?_, fun j hj heq => ?_⟩
  · have hcount := List.count_pos_iff.mpr hmem
    have hle := h.buffers_le x
    omega
  · have hheld := (h.lives j hj).held
    rw [← heq] at hheld
    omega

theorem System.Sound.forks (hi : s.Live i) (hforks : (s.procs i).Forks s.kernel L p k' L') : (s.set j p k').Sound L' := by
  refine h.set hforks.spares.inv (fun x hxj hx => ?_) (fun x _ => hforks.spares.held_le x) (fun hp => ?_) fun hp => ?_
  · by_cases hxi : x = i
    · rw [hxi]
      exact hforks.lives
    · exact h.lives_spared hx hforks.spares (h.not_mine hi hx hxi)
  · rcases hforks.child with hempty | ⟨hrun, _⟩
    · exact hempty
    · rw [hrun] at hp
      cases hp
  · rcases hforks.child with hempty | ⟨_, hlives, hroot, hframe⟩
    · rw [hempty] at hp
      exact absurd rfl hp
    · obtain ⟨hbuffers, hframes⟩ := h.fresh_frame hframe
      exact ⟨hlives, hbuffers, fun x _ hx => ⟨fun heq => hroot (heq ▸ (h.lives x hx).layout.root), hframes x hx⟩⟩

theorem System.Sound.freed {k1 : KState} {L1 : Ledger} (hi : s.Live i) (hdropped : Dropped s.kernel L (s.procs i).frame k1 L1)
    (hreleased : Released (s.procs i).root k1 L1 k' L') : (s.set i Proc.empty k').Sound L' := by
  have hheld : ∀ x, x ≠ (s.procs i).frame → L'.held x = L.held x := fun x hx => by
    rw [hreleased.held_eq, hdropped.held_eq, update_of_ne hx]
  refine h.set hreleased.inv (fun j hji hj => ?_) (fun x hx => ?_) (fun _ => rfl) fun hp => absurd rfl hp
  · have hl := h.lives j hj
    have hroot : (s.procs j).root ≠ (s.procs i).root := fun heq => hji (h.root_inj j i hj hi heq)
    have hframe : (s.procs j).frame ≠ (s.procs i).frame := fun heq => hji (h.frame_inj j i hj hi heq)
    refine ⟨hl.pagetable_eq, hl.trapframe_eq, hl.size_le, hl.layout.congr ?_ fun u hu => ?_, ?_⟩
    · exact (hreleased.root_iff _).mpr ⟨(hdropped.keeps.root_iff _).mpr hl.layout.root, hroot⟩
    · rw [hreleased.view_eq _ u hu hroot, hdropped.view_eq]
    · rw [hheld _ hframe]
      exact hl.held
  · rw [hheld x fun heq => h.frame_notMem i hi (heq ▸ hx)]

theorem System.Sound.setBuffers {buffers : List ℕ} (hinv : Inv k' L') (hkeeps : Keeps noSlot s.kernel L k' L')
    (hframe : ∀ j, s.Live j → (s.procs j).frame ∉ buffers ∧ 0 < L'.held (s.procs j).frame) (hcount : ∀ x, buffers.count x ≤ L'.held x) :
    System.Sound { s with kernel := k', buffers := buffers } L' := by
  refine ⟨hinv, h.unused, fun j hj => ?_, h.root_inj, h.frame_inj, fun j hj => (hframe j hj).1, hcount⟩
  have hl := h.lives j hj
  exact ⟨hl.pagetable_eq, hl.trapframe_eq, hl.size_le, hl.layout.congr ((hkeeps.root_iff _).mpr hl.layout.root) fun u hu => hkeeps.view_eq _ u hu id,
    (hframe j hj).2⟩

theorem System.Sound.kalloc (hnone : s.panicked = none) : System.Fine (s.run Kernel.kalloc fun pa k =>
    if pa = 0 then { s with kernel := k } else { s with kernel := k, buffers := pa / pgsize :: s.buffers }) := by
  refine h.run (h.inv.post_kalloc (fun _ => ?_) fun x k L' htaken => ?_)
  · rw [if_pos rfl]
    exact h.fine hnone
  · rw [if_neg htaken.address_ne_zero, div_pgsize]
    obtain ⟨hbuffers, hframes⟩ := h.fresh_frame htaken.held_zero
    refine System.Sound.fine (L := L') (h.setBuffers htaken.inv htaken.keeps (fun j hj => ⟨fun hmem => ?_, ?_⟩) fun y => ?_) hnone
    · rcases List.mem_cons.mp hmem with heq | hold
      · exact hframes j hj heq.symm
      · exact h.frame_notMem j hj hold
    · rw [htaken.held_eq, update_of_ne (Ne.symm (hframes j hj))]
      exact (h.lives j hj).held
    · rw [htaken.held_eq]
      by_cases hy : y = x
      · rw [hy, List.count_cons_self, List.count_eq_zero.mpr hbuffers, update_self]
      · rw [List.count_cons_of_ne (Ne.symm hy), update_of_ne hy]
        exact h.buffers_le y

theorem System.Sound.kfree {x : ℕ} (hnone : s.panicked = none) (hx : x ∈ s.buffers) :
    System.Fine (s.run (Kernel.kfree (x * pgsize)) fun _ k => { s with kernel := k, buffers := s.buffers.erase x }) := by
  have hheld : 0 < L.held x := Nat.lt_of_lt_of_le (List.count_pos_iff.mpr hx) (h.buffers_le x)
  have hne : ∀ j, s.Live j → (s.procs j).frame ≠ x := fun j hj heq => h.frame_notMem j hj (heq ▸ hx)
  refine h.run (h.inv.post_kfree hheld (fun _ => by decide) fun k L' hdropped => ?_)
  refine System.Sound.fine (L := L') (h.setBuffers hdropped.inv hdropped.keeps (fun j hj => ⟨fun hmem => ?_, ?_⟩) fun y => ?_) hnone
  · exact h.frame_notMem j hj (List.mem_of_mem_erase hmem)
  · rw [hdropped.held_eq, update_of_ne (hne j hj)]
    exact (h.lives j hj).held
  · have hle := h.buffers_le y
    rw [hdropped.held_eq]
    by_cases hy : y = x
    · rw [hy, List.count_erase_self, update_self]
      rw [hy] at hle
      omega
    · rw [List.count_erase_of_ne hy, update_of_ne hy]
      exact hle

omit h in
theorem Proc.Lives.post_usertrapFault {k : KState} {sp va : ℕ} (h : p.Lives k L) (hinv : Inv k L) :
    Post (usertrapFault sp va p) k (fun p' k' => (p' = p ∨ p' = { p with state := .zombie }) ∧
      Stays p.root p.frame (pages p.sz) k L k') fun e => e ∉ layoutPanics := by
  unfold usertrapFault
  rw [h.pagetable_eq]
  refine Post.step (Stays.post_handlePageFault (fun _ => id) (h.stays hinv)) fun z k' hk => ?_
  rw [← h.pagetable_eq]
  split
  · exact Post.pure ⟨.inr rfl, hk⟩
  split
  · exact Post.pure ⟨.inr rfl, hk⟩
  · exact Post.pure ⟨.inl rfl, hk⟩

theorem System.Sound.store {va : ℕ} {b : BitVec 8} (hi : s.Live i) (hva : va < maxva) (hstore : canStore (s.entry i (va / pgsize)) = true) :
    ∃ L', System.Sound { s with kernel := s.kernel.storeByte (s.entry i (va / pgsize)) (va % pgsize) b } L' := by
  have hl := h.lives i hi
  have hentry : s.entry i (va / pgsize) = L.view s.kernel (s.procs i).root (va / pgsize) := (view_root hl.layout.root).symm
  rw [hentry] at hstore ⊢
  have hpages : va / pgsize < 2 ^ 26 := by
    unfold maxva at hva
    unfold pgsize
    omega
  rw [canStore, Bool.and_eq_true, Bool.and_eq_true] at hstore
  have hdata := h.inv.data_of_valid (UserMapped.user h.inv (by omega) ⟨hstore.1.1, hstore.1.2⟩) hstore.1.1
  have hview := h.inv.view_setPage hdata (Page.setByte (s.kernel.mem (L.view s.kernel (s.procs i).root (va / pgsize)).page) (va % pgsize) b)
  refine h.stays_kernel hi ⟨L, ⟨h.inv.setPage hdata _, fun _ _ => Iff.rfl, fun x u _ _ => congrFun (congrFun hview x) u, fun _ => Nat.le_refl _⟩,
    hl.layout.congr hl.layout.root fun u _ => congrFun (congrFun hview _) u⟩

theorem System.Sound.next {s' : System n} {call : Call n} (hnext : s.next call = some s') : s'.Fine := by
  unfold System.next at hnext
  split at hnext
  · cases hnext
  rename_i hrunning
  have hnone : s.panicked = none := Option.not_isSome_iff_eq_none.mp hrunning
  cases call with
  | kalloc =>
    cases hnext
    exact h.kalloc hnone
  | kfree x =>
    obtain ⟨hx, rfl⟩ := guard_eq_some hnext
    exact h.kfree hnone hx
  | fork i j =>
    obtain ⟨⟨hi, hj⟩, rfl⟩ := guard_eq_some hnext
    rw [h.unused j hj]
    refine h.run (((h.lives i (live_of_runnable hi)).post_fork (fun _ => id) h.inv).mono (fun out k ⟨L', hforks⟩ => ?_) fun _ => id)
    exact (h.forks (live_of_runnable hi) hforks).fine hnone
  | exec i sp ip argv =>
    obtain ⟨hi, rfl⟩ := guard_eq_some hnext
    refine h.run (((h.lives i (live_of_runnable hi)).post_exec (fun _ => id) h.inv ip argv).mono (fun out k ⟨L', hmoved⟩ => ?_) fun _ => id)
    exact (h.moved (live_of_runnable hi) hmoved).fine hnone
  | sbrk i bytes =>
    obtain ⟨⟨hi, _⟩, rfl⟩ := guard_eq_some hnext
    refine h.run (((h.lives i (live_of_runnable hi)).post_growproc (fun _ => id) h.inv bytes).mono (fun out k ⟨L', hmoved⟩ => ?_) fun _ => id)
    exact (h.moved (live_of_runnable hi) hmoved).fine hnone
  | exit i =>
    obtain ⟨hi, rfl⟩ := guard_eq_some hnext
    obtain ⟨L', hsound⟩ := h.stays (live_of_runnable hi) .zombie nofun ((h.lives i (live_of_runnable hi)).stays h.inv)
    exact hsound.fine hnone
  | wait i =>
    obtain ⟨hi, rfl⟩ := guard_eq_some hnext
    have hi' : s.Live i := fun hunused => by
      rw [hi] at hunused
      cases hunused
    refine h.run ((h.lives i hi').post_freeproc (fun _ => id) h.inv fun k1 L1 k L' hdropped hreleased => ?_)
    exact (h.freed hi' hdropped hreleased).fine hnone
  | fault i sp va =>
    obtain ⟨hi, rfl⟩ := guard_eq_some hnext
    refine h.run (((h.lives i (live_of_runnable hi)).post_usertrapFault h.inv).mono (fun p' k ⟨hp, hstays⟩ => ?_) fun _ => id)
    rcases hp with rfl | rfl
    · obtain ⟨L', hsound⟩ := h.stays (live_of_runnable hi) (s.procs i).state (live_of_runnable hi) hstays
      exact hsound.fine hnone
    · obtain ⟨L', hsound⟩ := h.stays (live_of_runnable hi) .zombie nofun hstays
      exact hsound.fine hnone
  | store i va b =>
    obtain ⟨⟨hi, hva, hstore⟩, rfl⟩ := guard_eq_some hnext
    obtain ⟨L', hsound⟩ := h.store (b := b) (live_of_runnable hi) hva hstore
    exact hsound.fine hnone
  | copyout i sp dstva src =>
    obtain ⟨hi, rfl⟩ := guard_eq_some hnext
    have hl := h.lives i (live_of_runnable hi)
    refine h.run ?_
    rw [hl.pagetable_eq]
    refine (Stays.post_copyout (fun _ => id) (hl.stays h.inv)).mono (fun _ k hstays => ?_) fun _ => id
    obtain ⟨L', hsound⟩ := h.stays_kernel (live_of_runnable hi) hstays
    exact hsound.fine hnone

end

/-! ### The start -/

theorem Inv.post_kallocs {k : KState} {E : Panic → Prop} (h : Inv k L) (m : ℕ) :
    Post (kallocs m) k (fun pages k' => ∃ L', Inv k' L' ∧ (∀ x, L'.role x = .root ↔ L.role x = .root) ∧ (∀ x, pages.count x ≤ L'.held x) ∧
      L.free.length ≤ L'.free.length + m) E := by
  induction m with
  | zero => exact Post.pure ⟨L, h, fun _ => Iff.rfl, fun x => Nat.zero_le _, Nat.le_refl _⟩
  | succ m ih =>
    refine Post.step ih fun pages k1 hk1 => ?_
    obtain ⟨L1, hinv, hroot, hcount, hlength⟩ := hk1
    refine Post.bind (hinv.post_kalloc (fun _ => ?_) fun x k2 L2 htaken => ?_)
    · rw [if_pos rfl]
      exact Post.pure ⟨L1, hinv, hroot, hcount, by omega⟩
    · rw [if_neg htaken.address_ne_zero, div_pgsize]
      refine Post.pure ⟨L2, htaken.inv, fun y => (htaken.keeps.root_iff y).trans (hroot y), fun y => ?_, ?_⟩
      · have hle := hcount y
        rw [htaken.held_eq]
        by_cases hy : y = x
        · have hnone := htaken.held_zero
          rw [hy] at hle ⊢
          rw [List.count_cons_self, update_self]
          omega
        · rw [List.count_cons_of_ne (Ne.symm hy), update_of_ne hy]
          exact hle
      · rw [htaken.free_eq, List.length_cons] at hlength
        omega

theorem System.Initial.fine (h : s.Initial) : s.Fine := by
  obtain ⟨mem, m, i, hm, hstart, hothers, hnone⟩ := h
  have hpost : Post (start m) (boot mem) (fun out k => out.2.state = .runnable ∧ ∃ L, Inv k L ∧
    out.2.Lives k L ∧ out.2.frame ∉ out.1 ∧ ∀ x, out.1.count x ≤ L.held x)
      fun e => e ∉ layoutPanics := by
    refine Post.bind ((post_kinit mem).mono (fun _ k hk => ?_) fun _ => False.elim)
    obtain ⟨free, hfresh⟩ := hk
    have hlength : (freshLedger free).free.length = 0x88000 - 0x80243 := hfresh.length_eq
    refine Post.step (hfresh.inv.post_kallocs m) fun pages k1 hk1 => ?_
    obtain ⟨L1, hinv, _, hcount, hle⟩ := hk1
    refine Post.step (hinv.post_userinit (fun _ => id) (by omega)) fun p k2 hk2 => ?_
    obtain ⟨hrun, L2, hspares, hlives, hframe⟩ := hk2
    refine Post.pure ⟨hrun, L2, hspares.inv, hlives, fun hmem => ?_, fun x => Nat.le_trans (hcount x) (hspares.held_le x)⟩
    have hpos : 0 < pages.count p.frame := List.count_pos_iff.mpr hmem
    have hheld := hcount p.frame
    omega
  obtain ⟨hrun, L, hinv, hlives, hframe, hcount⟩ := hpost.of_ok hstart
  have honly : ∀ j, s.Live j → j = i := fun j hj => by
    by_contra hne
    exact hj (by rw [hothers j hne]; rfl)
  refine System.Sound.fine (L := L) ⟨hinv, fun j hj => ?_, fun j hj => ?_, fun j j' hj hj' _ => ?_, fun j j' hj hj' _ => ?_, fun j hj => ?_, hcount⟩ hnone
  · by_cases hji : j = i
    · rw [hji, hrun] at hj
      cases hj
    · exact hothers j hji
  · rw [honly j hj]
    exact hlives
  · rw [honly j hj, honly j' hj']
  · rw [honly j hj, honly j' hj']
  · rw [honly j hj]
    exact hframe

theorem System.Reachable.fine (h : s.Reachable) : s.Fine := by
  refine Transition.Reachable.invariant (fun s hs => hs.fine) (fun s s' _ hs hstep => ?_) h
  obtain ⟨⟨L, hsound⟩, _⟩ := hs
  obtain ⟨call, hnext⟩ := hstep
  exact hsound.next hnext

/-! ### The layout -/

/-- The valid leaf entries of the process are those of its image, of the trapframe and of the trampoline. -/
structure System.LaidOut (s : System n) (i : Fin n) : Prop where
  leaf_iff : ∀ v, v < 2 ^ 27 →
    ((s.entry i v).has pteV = true ↔ v * pgsize < pgroundup (s.procs i).sz ∨
    v * pgsize = trapframeVa ∨ v * pgsize = trampolineVa)
  size_le : (s.procs i).sz ≤ trapframeVa

theorem System.Sound.laidOut (h : s.Sound L) (hi : s.Live i) : s.LaidOut i := by
  have hsmall := userPages_eq
  have hl := h.lives i hi
  have hentry : ∀ v, s.entry i v = L.view s.kernel (s.procs i).root v := fun v => (view_root hl.layout.root).symm
  have hle := hl.layout.le
  refine ⟨fun v hv => ?_, hl.size_le⟩
  rw [hentry, pgroundup_eq hl.size_le, trapframeVa_eq, trampolineVa_eq,
    Nat.mul_lt_mul_right (by decide), Nat.mul_right_cancel_iff (by decide),
    Nat.mul_right_cancel_iff (by decide)]
  by_cases huser : v < userPages
  · rw [hl.layout.user v huser, decide_eq_true_iff]
    omega
  · by_cases hframe : v = userPages
    · rw [hframe]
      exact ⟨fun _ => .inr (.inl rfl), fun _ => hl.layout.frame_valid⟩
    · by_cases htramp : v = userPages + 1
      · rw [htramp]
        exact ⟨fun _ => .inr (.inr rfl), fun _ => hl.layout.trampoline_valid⟩
      · rw [hl.layout.rest v hv (by omega), zero_not_valid]
        exact ⟨nofun, fun hor => by omega⟩

end

end AdvancedXv6.Kernel
