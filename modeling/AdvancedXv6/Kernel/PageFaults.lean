import AdvancedXv6.Kernel.FirstProcess

/-!
# Page faults of processes

What `handle_page_fault` does in a reachable state of the kernel, for any address and any stack pointer. It dereferences a null pointer when the page-table pages for the address are missing; it refuses to resolve a copy-on-write page near the stack pointer; and it reports success without having done anything for an entry that is not copy-on-write, so that the process faults again.
-/

namespace AdvancedXv6.Kernel

open Prog

variable {n : ℕ} {s : System n} {i : Fin n} {L : Ledger} {k : KState} {sp va r v : ℕ} {p r' : ℕ}

/-! ### The ways through the handler -/

/-- The count of a copy-on-write page has become negative, and there is a page to copy it to: `kfree` of the old page panics. -/
def CountLost (k : KState) (pte : Pte) : Prop := pte.has pteC = true ∧ k.freelist ≠ 0 ∧ k.pageRefCount pte.page < 0

theorem va_page_lt (hva : va < maxva) : va / pgsize < 2 ^ 26 := by
  unfold maxva at hva
  unfold pgsize
  omega

def FaultReturns (sp va pagetable : ℕ) (k : KState) : Prop :=
  ∃ z k', handlePageFault sp va pagetable k = .ok (z, k') ∧ (z = 0 ∨ z = -1 ∨ z = -2)

theorem Inv.faultReturns_iff (h : Inv k L) (hr : L.role r = .root) : FaultReturns sp va (r * pgsize) k ↔
    maxva ≤ va ∨ isBelowStack sp va = true ∨ ((slot k.mem r va).isSome = true ∧ ¬ CountLost k (L.view k r (va / pgsize))) := by
  have hcopied : (L.view k r (va / pgsize)).has pteC = true → (slot k.mem r va).isSome = true := fun hcopy =>
    slot_isSome_of_ne hr fun hzero => by rw [hzero] at hcopy; cases hcopy
  apply Post.exists_iff
  apply h.post_handlePageFault hr
  · intro hkill
    exact iff_of_true (by decide) (hkill.imp_right .inl)
  · intro hva hwindow hnone
    rw [hnone, hwindow]
    simp [hva]
  · intro hva _ hsome hzero
    have hlt := va_page_lt hva
    exact iff_of_true (by decide) (.inr (.inr ⟨hsome, fun hlost => h.page_ne_zero (by omega) hlost.1 hzero⟩))
  · intro _ _ hpage hplain
    refine iff_of_true (by decide) (.inr (.inr ⟨slot_isSome_of_ne hr fun hzero => hpage (by rw [hzero]; rfl), fun hlost => ?_⟩))
    rw [hlost.1] at hplain
    cases hplain
  · intro _ _ hcopy hempty
    exact iff_of_true (by decide) (.inr (.inr ⟨hcopied hcopy, fun hlost => hlost.2.1 (h.freelist_eq_zero_iff.mpr hempty)⟩))
  · intro hva hwindow hcopy hfree hneg
    have hlost : CountLost k (L.view k r (va / pgsize)) := ⟨hcopy, fun hzero => hfree (h.freelist_eq_zero_iff.mp hzero), hneg⟩
    simp [hwindow, hva, hlost]
  · intro p k' L' _ _ hcopy hres
    refine iff_of_true (by decide) (.inr (.inr ⟨hcopied hcopy, fun hlost => ?_⟩))
    have hpos := hres.pos
    have hneg := hlost.2.2
    omega

theorem System.Sound.entry_eq (h : s.Sound L) (hi : s.Live i) (v : ℕ) : s.entry i v = L.view s.kernel (s.procs i).root v :=
  (view_root (h.lives i hi).layout.root).symm

/-- A fault of a process of a reachable state ends with a code if and only if the address is refused at once, or has a page-table page and its page has not lost its count. -/
theorem fault_returns_iff (h : s.Reachable) (hi : s.Live i) : FaultReturns sp va (s.procs i).pagetable s.kernel ↔
    maxva ≤ va ∨ isBelowStack sp va = true ∨ ((slot s.kernel.mem (s.procs i).root va).isSome = true ∧ ¬ CountLost s.kernel (s.entry i (va / pgsize))) := by
  obtain ⟨⟨L, hsound⟩, _⟩ := h.fine
  have hl := hsound.lives i hi
  rw [hsound.entry_eq hi, hl.pagetable_eq]
  exact hsound.inv.faultReturns_iff hl.layout.root

theorem live_firstProc {s : System 2} {r t : ℕ} (h : s.procs 0 = firstProc r t) : s.Live 0 := by
  unfold System.Live
  rw [h]
  nofun

theorem Started.slot_eq_none {t : ℕ} (h : Started r t p k L) : slot k.mem r (2 ^ 30) = none := by
  cases hslot : slot k.mem r (2 ^ 30) with
  | none => rfl
  | some q =>
    obtain ⟨m, hm, _⟩ := h.forest.tables.leaf_parent _ _ _ _ ((h.forest.tables.slot_eq_some_iff h.root).mp hslot).1
    rcases h.mid_eq _ ⟨m, hm⟩ with htop | htop
    · exact absurd htop (by decide)
    · exact absurd htop (by decide)

/-- A load at an address in the second gigabyte, after `userinit`: the kernel dereferences a null pointer. -/
theorem fault_crashes : ∃ s : System 2, s.Reachable ∧ (s.procs 0).state = .runnable ∧
    handlePageFault 0 (2 ^ 30) (s.procs 0).pagetable s.kernel = .error .kerneltrap := by
  obtain ⟨s, r, t, p, L, hreach, _, hfirst, _, hstarted, _⟩ := exists_first
  refine ⟨s, hreach, by rw [hfirst]; rfl, ?_⟩
  have hpost : Post (handlePageFault 0 (2 ^ 30) (r * pgsize)) s.kernel (fun _ _ => False) fun e => e = .kerneltrap := by
    unfold handlePageFault
    rw [if_neg (by decide)]
    refine Post.bind (post_walk (by decide) ?_)
    rw [hstarted.slot_eq_none]
    exact Post.panic rfl
  rw [hfirst]
  show handlePageFault 0 (2 ^ 30) (r * pgsize) s.kernel = .error .kerneltrap
  cases hrun : handlePageFault 0 (2 ^ 30) (r * pgsize) s.kernel with
  | error e => rw [hpost.of_error hrun]
  | ok out => exact (hpost.of_ok hrun).elim

/-! ### Copy-on-write stores -/

/-- The handler serves a copy-on-write page of the process `i`: a private copy takes its place, and nothing else changes. -/
structure System.Serves (s : System n) (i : Fin n) (v : ℕ) (k' : KState) : Prop where
  mem_eq : k'.mem (Kernel.entry k'.mem (s.procs i).root v).page = s.kernel.mem (s.entry i v).page
  write : (Kernel.entry k'.mem (s.procs i).root v).has pteW = true
  copy : (Kernel.entry k'.mem (s.procs i).root v).has pteC = false
  count_eq : k'.pageRefCount (s.entry i v).page = s.kernel.pageRefCount (s.entry i v).page - 1
  rest_eq : ∀ j u, s.Live j → u < 2 ^ 27 → ¬ (j = i ∧ u = v) → Kernel.entry k'.mem (s.procs j).root u = s.entry j u

theorem resolvedPte_copy (p : ℕ) (pte : Pte) : (resolvedPte p pte).has pteC = false := by
  rw [has_pteC, getLsbD_resolvedPte p pte (by decide)]
  simp

theorem System.Sound.serves {k' : KState} {L' : Ledger} (h : s.Sound L) (hi : s.Live i)
    (hres : Resolved (s.procs i).root v p s.kernel L k' L') : s.Serves i v k' := by
  have hroot : ∀ j, s.Live j → L'.role (s.procs j).root = .root := fun j hj => (hres.evolves.keeps.root_iff _).mpr (h.lives j hj).layout.root
  have hentry : ∀ j u, s.Live j → Kernel.entry k'.mem (s.procs j).root u = L'.view k' (s.procs j).root u := fun j u hj => (view_root (hroot j hj)).symm
  refine ⟨?_, ?_, ?_, ?_, fun j u hj hu hne => ?_⟩
  · rw [hentry i v hi, hres.page_eq, hres.mem_eq, h.entry_eq hi]
  · rw [hentry i v hi, hres.view_eq, resolvedPte_write]
  · rw [hentry i v hi, hres.view_eq, resolvedPte_copy]
  · rw [h.entry_eq hi, hres.count_old]
  · rw [hentry j u hj, hres.evolves.keeps.view_eq _ u hu, h.entry_eq hj]
    rintro ⟨hrootEq, huv⟩
    exact hne ⟨h.root_inj j i hj hi hrootEq, huv⟩

def System.ServesStore (s : System n) (i : Fin n) (sp va : ℕ) : Prop :=
  ∃ z k', handlePageFault sp va (s.procs i).pagetable s.kernel = .ok (z, k') ∧ z = 0 ∧ s.Serves i (va / pgsize) k'

/-- A store to a copy-on-write page is served, with a free page at hand, if and only if it is not near the stack pointer and the count of the page has not been lost. -/
theorem cow_store_served_iff (h : s.Reachable) (hi : s.Live i) (hva : va < maxva) (hcopy : (s.entry i (va / pgsize)).has pteC = true)
    (hfree : s.kernel.freelist ≠ 0) : s.ServesStore i sp va ↔ isBelowStack sp va = false ∧ 0 ≤ s.kernel.pageRefCount (s.entry i (va / pgsize)).page := by
  obtain ⟨⟨L, hsound⟩, _⟩ := h.fine
  have hl := hsound.lives i hi
  have hlt := va_page_lt hva
  rw [hsound.entry_eq hi] at hcopy ⊢
  unfold System.ServesStore
  rw [hl.pagetable_eq]
  apply Post.exists_iff
  apply hsound.inv.post_handlePageFault hl.layout.root
  · intro hkill
    have hwindow : isBelowStack sp va = true := hkill.resolve_left (by omega)
    simp [hwindow]
  · intro _ _ hnone
    have hsome : (slot s.kernel.mem (s.procs i).root va).isSome = true := slot_isSome_of_ne hl.layout.root fun hzero => by rw [hzero] at hcopy; cases hcopy
    rw [hnone] at hsome
    cases hsome
  · intro _ _ _ hzero
    exact absurd hzero (hsound.inv.page_ne_zero (by omega) hcopy)
  · intro _ _ _ hplain
    rw [hcopy] at hplain
    cases hplain
  · intro _ _ _ hempty
    exact absurd (hsound.inv.freelist_eq_zero_iff.mpr hempty) hfree
  · intro _ _ _ _ hneg hboth
    omega
  · intro p k' L' _ hwindow _ hres
    exact iff_of_true ⟨rfl, hsound.serves hi hres⟩ ⟨hwindow, Int.le_of_lt hres.pos⟩

theorem Twins.entry_eq {s : System 2} (h : Twins r r' p s.kernel L)
    (hp : (s.procs 0).pagetable = r * pgsize) : s.entry 0 0 = cowPte (leafPte p firstPerm) := by
  have hroot : (s.procs 0).root = r := by
    unfold Proc.root
    rw [hp]
    exact Nat.mul_div_cancel r (by decide)
  rw [← h.parent_eq, view_root h.root, System.entry, hroot]

theorem Twins.freelist_ne (h : Twins r r' p k L) : k.freelist ≠ 0 := by
  intro hzero
  have hchain := h.forest.chain
  rw [hzero] at hchain
  exact h.nonempty hchain.head_eq_zero

theorem cowPte_first (p : ℕ) : (cowPte (leafPte p firstPerm)).has pteC = true := by
  apply cowPte_copy
  rw [leafPte_write]
  decide

theorem userMapped_first (p : ℕ) : UserMapped (cowPte (leafPte p firstPerm)) := by
  refine ⟨?_, ?_⟩
  · rw [cowPte_valid, leafPte_valid]
  · rw [cowPte_user, leafPte_user]
    decide

theorem Twins.page_eq (h : Twins r r' p k L) : (cowPte (leafPte p firstPerm)).page = p := by
  have hlt := h.forest.lt (p := p) (by rw [h.data]; nofun)
  have hpage : (leafPte p firstPerm).page = p := leafPte_page (by omega) readable_first.isFlags
  rw [cowPte_page (by omega), hpage]

theorem Twins.slot_isSome (h : Twins r r' p s.kernel L)
    (hpagetable : (s.procs i).pagetable = r * pgsize) :
    (slot s.kernel.mem (s.procs i).root 0).isSome = true := by
  rw [Proc.root, hpagetable, Nat.mul_div_cancel r (by decide)]
  refine slot_isSome_of_ne h.root ?_
  rw [Nat.zero_div, h.parent_eq]
  intro hzero
  have hcopy := cowPte_first p
  rw [hzero] at hcopy
  cases hcopy

/-- A fault on the page that a process shares with its child. -/
theorem fault_returns_twins : ∃ s : System 2, s.Reachable ∧
    (slot s.kernel.mem (s.procs 0).root 0).isSome = true ∧
    FaultReturns 0 0 (s.procs 0).pagetable s.kernel := by
  obtain ⟨s, r, r', p, L, hreach, _, hrun, _, hpagetable, _, htwins⟩ := exists_twins
  have hslot := htwins.slot_isSome hpagetable
  refine ⟨s, hreach, hslot, (fault_returns_iff hreach (live_of_runnable hrun)).mpr
    (.inr (.inr ⟨hslot, fun hlost => ?_⟩))⟩
  have hneg := hlost.2.2
  rw [Nat.zero_div, htwins.entry_eq hpagetable, htwins.page_eq, htwins.count] at hneg
  cases hneg

/-- The parent stores to the page that it shares with its child, the stack pointer elsewhere. -/
theorem cow_store_served_twins : ∃ s : System 2, s.Reachable ∧ (s.procs 0).state = .runnable ∧
    UserMapped (s.entry 0 0) ∧ (s.entry 0 0).has pteC = true ∧ s.ServesStore 0 0 0 := by
  obtain ⟨s, r, r', p, L, hreach, _, hrun, _, hpagetable, _, htwins⟩ := exists_twins
  have hentry := htwins.entry_eq hpagetable
  have hcopy : (s.entry 0 (0 / pgsize)).has pteC = true := by
    rw [Nat.zero_div, hentry, cowPte_first]
  refine ⟨s, hreach, hrun, by rw [hentry]; exact userMapped_first p, by rw [hentry, cowPte_first], ?_⟩
  apply (cow_store_served_iff hreach (live_of_runnable hrun) (by decide) hcopy htwins.freelist_ne).mpr
  rw [Nat.zero_div, hentry, htwins.page_eq, htwins.count]
  decide

/-- The same store with the stack pointer at the end of the page: the handler reports a failure. -/
theorem cow_store_refused : ∃ s : System 2, s.Reachable ∧ (s.procs 0).state = .runnable ∧
    UserMapped (s.entry 0 0) ∧ (s.entry 0 0).has pteC = true ∧ s.kernel.freelist ≠ 0 ∧
    handlePageFault pgsize 0 (s.procs 0).pagetable s.kernel = .ok (-2, s.kernel) := by
  obtain ⟨s, r, r', p, L, hreach, _, hrun, _, hpagetable, _, htwins⟩ := exists_twins
  have hentry := htwins.entry_eq hpagetable
  refine ⟨s, hreach, hrun, by rw [hentry]; exact userMapped_first p, by rw [hentry, cowPte_first], htwins.freelist_ne, ?_⟩
  unfold handlePageFault
  rw [if_pos (by decide)]
  rfl

/-! ### Progress -/

inductive Access where
  | load
  | store
deriving DecidableEq, Repr

def Access.permitted : Access → Pte → Bool
  | .load, pte => canLoad pte
  | .store, pte => canStore pte

/-- After a fault the process is dead, or the instruction that has faulted can go on. -/
def Progresses (access : Access) (sp va : ℕ) (p : Proc) (k : KState) : Prop :=
  ∃ p' k', usertrapFault sp va p k = .ok (p', k') ∧ (p'.state = .zombie ∨ access.permitted (Kernel.entry k'.mem p.root (va / pgsize)) = true)

/-- The handler kills the process, or has a copy-on-write page to give to a store. -/
def FaultServed (access : Access) (k : KState) (pte : Pte) : Prop :=
  pte.page = 0 ∨ (pte.has pteC = true ∧ (k.freelist = 0 ∨ (access = .store ∧ pte.has pteU = true ∧ 0 ≤ k.pageRefCount pte.page)))

theorem Resolved.permitted_iff {access : Access} {k' : KState} {L' : Ledger}
    (h : Resolved r v p k L k' L') (hfault : access.permitted (L.view k r v) = false) :
    access.permitted (L'.view k' r v) = true ↔ access = .store ∧ (L.view k r v).has pteU = true := by
  cases access with
  | load =>
    have hsame : Access.permitted .load (L'.view k' r v) = Access.permitted .load (L.view k r v) := by
      simp only [Access.permitted, canLoad, h.view_eq, resolvedPte_valid, resolvedPte_user, resolvedPte_read]
    rw [hsame, hfault]
    simp
  | store =>
    simp [Access.permitted, canStore, h.view_eq, resolvedPte_valid, resolvedPte_user, resolvedPte_write, h.valid]

theorem System.Sound.progresses_iff {access : Access} (h : s.Sound L)
    (hi : (s.procs i).state = .runnable)
    (hslot : (slot s.kernel.mem (s.procs i).root va).isSome = true)
    (hfault : maxva ≤ va ∨ access.permitted (s.entry i (va / pgsize)) = false) :
    Progresses access sp va (s.procs i) s.kernel ↔ maxva ≤ va ∨ isBelowStack sp va = true ∨ FaultServed access s.kernel (s.entry i (va / pgsize)) := by
  have hlive := live_of_runnable hi
  have hl := h.lives i hlive
  have hroot := hl.layout.root
  have hsame : ∀ u, Kernel.entry s.kernel.mem (s.procs i).root u = L.view s.kernel (s.procs i).root u := fun _ => (view_root hroot).symm
  rw [h.entry_eq hlive] at hfault ⊢
  apply Post.exists_iff
  unfold usertrapFault
  rw [hl.pagetable_eq]
  apply Post.bind
  apply h.inv.post_handlePageFault hroot
  · intro hkill
    exact Post.pure (iff_of_true (.inl rfl) (hkill.imp_right .inl))
  · intro _ _ hnone
    rw [hnone] at hslot
    cases hslot
  · intro _ _ _ hzero
    exact Post.pure (iff_of_true (.inl rfl) (.inr (.inr (.inl hzero))))
  · intro hva hwindow hpage hplain
    have hdenied := hfault.resolve_left (by omega)
    apply Post.pure
    show (s.procs i).state = .zombie ∨ _ ↔ _
    rw [hsame, hdenied, hi, hwindow]
    simp [FaultServed, hva, hpage, hplain]
  · intro _ _ hcopy hempty
    exact Post.pure (iff_of_true (.inl rfl) (.inr (.inr (.inr ⟨hcopy, .inl (h.inv.freelist_eq_zero_iff.mpr hempty)⟩))))
  · intro hva hwindow hcopy hfree hneg
    have hlt := va_page_lt hva
    have hpage := h.inv.page_ne_zero (r := (s.procs i).root) (v := va / pgsize) (by omega) hcopy
    have hlist : s.kernel.freelist ≠ 0 := fun hzero => hfree (h.inv.freelist_eq_zero_iff.mp hzero)
    rw [hwindow]
    simp [FaultServed, hva, hpage, hlist, hneg]
  · intro p k' L' hva hwindow hcopy hres
    have hdenied := hfault.resolve_left (by omega)
    have hlt := va_page_lt hva
    have hpage := h.inv.page_ne_zero (r := (s.procs i).root) (v := va / pgsize) (by omega) hcopy
    have hlist : s.kernel.freelist ≠ 0 := by
      intro hzero
      obtain ⟨rest, hcons, _⟩ := hres.free_eq
      rw [h.inv.freelist_eq_zero_iff.mp hzero] at hcons
      cases hcons
    have hnew : Kernel.entry k'.mem (s.procs i).root (va / pgsize) = L'.view k' (s.procs i).root (va / pgsize) :=
      (view_root ((hres.evolves.keeps.root_iff _).mpr hroot)).symm
    have hpos := hres.pos
    apply Post.pure
    show (s.procs i).state = .zombie ∨ _ ↔ _
    rw [hnew, hres.permitted_iff hdenied, hi, hwindow]
    simp [FaultServed, hva, hpage, hlist, hcopy, Int.le_of_lt hpos]

/-- A fault at an address with a slot ends the process or lets it go on if and only if the handler refuses the address, or finds nothing mapped, or a copy-on-write page that it cannot copy, or one to be stored to. -/
theorem fault_progresses_iff {access : Access} (h : s.Reachable)
    (hi : (s.procs i).state = .runnable)
    (hslot : (slot s.kernel.mem (s.procs i).root va).isSome = true)
    (hfault : maxva ≤ va ∨ access.permitted (s.entry i (va / pgsize)) = false) :
    Progresses access sp va (s.procs i) s.kernel ↔ maxva ≤ va ∨ isBelowStack sp va = true ∨ FaultServed access s.kernel (s.entry i (va / pgsize)) := by
  obtain ⟨⟨L, hsound⟩, _⟩ := h.fine
  exact hsound.progresses_iff hi hslot hfault

theorem fault_progresses_twins : ∃ s : System 2, s.Reachable ∧ Progresses .store 0 0 (s.procs 0) s.kernel := by
  obtain ⟨s, r, r', p, L, hreach, _, hrun, _, hpagetable, _, htwins⟩ := exists_twins
  have hentry := htwins.entry_eq hpagetable
  refine ⟨s, hreach, (fault_progresses_iff hreach hrun (htwins.slot_isSome hpagetable) (.inr ?_)).mpr (.inr (.inr (.inr ⟨?_, .inr ⟨rfl, ?_, ?_⟩⟩)))⟩
  · rw [Nat.zero_div, hentry]
    simp [Access.permitted, canStore, cowPte_write]
  · rw [Nat.zero_div, hentry, cowPte_first]
  · rw [Nat.zero_div, hentry]
    exact (userMapped_first p).2
  · rw [Nat.zero_div, hentry, htwins.page_eq, htwins.count]
    decide

/-- A store to the trampoline: the process goes on at the same instruction, with the same entry. -/
theorem fault_repeats : ∃ s : System 2, s.Reachable ∧ (s.procs 0).state = .runnable ∧ (slot s.kernel.mem (s.procs 0).root trampolineVa).isSome = true ∧
    canStore (s.entry 0 (trampolineVa / pgsize)) = false ∧ usertrapFault 0 trampolineVa (s.procs 0) s.kernel = .ok (s.procs 0, s.kernel) := by
  obtain ⟨s, r, t, p, L, hreach, _, hfirst, _, hstarted, _⟩ := exists_first
  have hroot : (s.procs 0).root = r := by
    rw [hfirst]
    exact Nat.mul_div_cancel r (by decide)
  have hview : L.view s.kernel r (trampolineVa / pgsize) = trampolinePte := by
    rw [hstarted.view_eq _ (by decide) (by decide), if_neg (by decide), if_pos (by decide)]
  have hentry : s.entry 0 (trampolineVa / pgsize) = trampolinePte := by
    rw [System.entry, hroot, ← view_root hstarted.root, hview]
  have hslot : (slot s.kernel.mem r trampolineVa).isSome = true := slot_isSome_of_ne hstarted.root (by rw [hview]; decide)
  refine ⟨s, hreach, by rw [hfirst]; rfl, by rw [hroot]; exact hslot, by rw [hentry]; decide, ?_⟩
  have hpost : Post (usertrapFault 0 trampolineVa (s.procs 0)) s.kernel (fun p' k' => p' = s.procs 0 ∧ k' = s.kernel) fun _ => False := by
    obtain ⟨⟨L', hsound⟩, _⟩ := hreach.fine
    have hl := hsound.lives 0 (live_firstProc hfirst)
    have hview' : L'.view s.kernel (s.procs 0).root (trampolineVa / pgsize) = trampolinePte := by rw [← hsound.entry_eq (live_firstProc hfirst), hentry]
    unfold usertrapFault
    rw [hl.pagetable_eq]
    apply Post.bind
    apply hsound.inv.post_handlePageFault hl.layout.root
    · intro hkill
      exact absurd hkill (by decide)
    · intro _ _ hnone
      rw [← hroot, hnone] at hslot
      cases hslot
    · intro _ _ _ hzero
      rw [hview'] at hzero
      exact absurd hzero (by decide)
    · intro _ _ _ _
      exact Post.pure ⟨rfl, rfl⟩
    · intro _ _ hcopy
      rw [hview'] at hcopy
      cases hcopy
    · intro _ _ hcopy
      rw [hview'] at hcopy
      cases hcopy
    · intro _ _ _ _ _ hcopy
      rw [hview'] at hcopy
      cases hcopy
  obtain ⟨p', k', hrun, rfl, rfl⟩ := hpost.exists_ok
  exact hrun

/-! ### The size of an image -/

/-- `growproc` does not look at the trapframe, but a process has its pages for itself once, and there are not enough of them to reach it. -/
theorem image_fits (h : s.Reachable) (hi : s.Live i) : pages (s.procs i).sz ≤ 0x7DBD ∧
    ∀ u v, u < pages (s.procs i).sz → v < pages (s.procs i).sz →
      (s.entry i u).page = (s.entry i v).page → u = v := by
  obtain ⟨⟨L, hsound⟩, _⟩ := h.fine
  have hlayout := (hsound.lives i hi).layout
  have hmaps := hsound.inv.mapsData hlayout.le fun u hu => hlayout.valid_of_lt hu
  refine ⟨hmaps.length_le hsound.inv.forest, fun u v hu hv heq => ?_⟩
  rw [hsound.entry_eq hi, hsound.entry_eq hi] at heq
  exact hmaps.inj u v (Nat.zero_le u) (by omega) (Nat.zero_le v) (by omega) heq

theorem image_fits_sbrk : ∃ s s' : System 2, s.Reachable ∧ (s.procs 1).state = .runnable ∧
    s.next (.sbrk 0 pgsize) = some s' ∧ s'.Live 0 ∧ pages (s'.procs 0).sz ≤ 0x7DBD := by
  obtain ⟨s, s', hreach, hchild, hnext, hlive, _⟩ := exists_grown
  exact ⟨s, s', hreach, hchild, hnext, hlive, (image_fits (hreach.tail ⟨_, hnext⟩) hlive).1⟩

end AdvancedXv6.Kernel
