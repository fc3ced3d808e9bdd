import AdvancedXv6.Kernel.References

/-!
# Copy-on-write refines copying

The memory system runs side by side with address spaces that share nothing, in which a successful `uvmcopy` copies every page. What a user program loads is what it would load there. The reason is that a page that somebody may write to has one mapping.

A trapframe is writable too, but not for users. Its page is mapped once as long as `proc_pagetable` is called with a trapframe of its own, as `allocproc` does.
-/

namespace AdvancedXv6.Kernel

open Prog Transition

variable {L : Ledger} {s s' : Memory} {r v r' v' t : ℕ} {op : Op} {res : Result}

/-- The memory system, and what each address space would hold if it shared nothing. -/
structure Coupled where
  memory : Memory
  reference : Reference

def Coupled.Initial (c : Coupled) : Prop := c.memory.Initial ∧ c.reference = fun _ _ => none

/-- Both take the step, on the result that the memory system has given. A new address space gets a new trapframe. -/
def Coupled.Step (c c' : Coupled) : Prop :=
  ∃ op res, c.memory.next op = some (c'.memory, res) ∧ c'.reference = c.reference.next op res ∧
    ∀ t, op = .procPagetable t → t ∉ c.memory.trapframes

/-! ### Trapframes -/

/-- The trapframes after an operation: none is new, unless `proc_pagetable` has made an address space with it. -/
def NewFrames (s : Memory) (op : Op) (s' : Memory) : Prop :=
  s'.trapframes.Sublist s.trapframes ∨ ∃ t, op = .procPagetable t ∧ s'.trapframes = t :: s.trapframes

theorem newFrames_same (h : s'.trapframes = s.trapframes) : NewFrames s op s' := by
  left
  rw [h]

theorem newFrames_filter {P : Space → Bool} (h : s'.spaces = s.spaces.filter P) : NewFrames s op s' := by
  left
  rw [Memory.trapframes, h]
  exact List.filter_sublist.filterMap _

/-- Running a function changes the address spaces as the caller says, or not at all. -/
theorem newFrames_run {α : Type} {x : KernelM α} {after : α → KState → Memory × Result} (h : ∀ a k, NewFrames s op (after a k).1) :
    NewFrames s op (s.run x after).1 := by
  unfold Memory.run
  split
  · exact h _ _
  · exact newFrames_same rfl

theorem Memory.next_newFrames {out : Memory × Result} (h : s.next op = some out) : NewFrames s op out.1 := by
  unfold Memory.next at h
  split at h
  · cases h
  cases op with
  | kalloc | uvmcreate =>
    rw [← Option.some.inj h]
    refine newFrames_run fun pa k => ?_
    split <;> exact newFrames_same rfl
  | procPagetable t =>
    obtain ⟨_, rfl⟩ := guard_eq_some h
    refine newFrames_run fun pa k => ?_
    split
    · exact newFrames_same rfl
    · exact .inr ⟨t, rfl, rfl⟩
  | mappages r v p perm =>
    obtain ⟨_, rfl⟩ := guard_eq_some h
    refine newFrames_run fun z k => ?_
    split <;> exact newFrames_same rfl
  | load r sp va | store r sp va b =>
    simp only at h
    split at h
    · split at h <;> rw [← Option.some.inj h]
      · exact newFrames_same rfl
      · exact newFrames_run fun _ _ => newFrames_same rfl
    · cases h
  | freeproc r sz =>
    simp only at h
    split at h
    · cases h
    · obtain ⟨_, rfl⟩ := guard_eq_some h
      exact newFrames_run fun _ _ => newFrames_filter rfl
  | uvmfree r sz | procFreepagetable r sz =>
    obtain ⟨_, rfl⟩ := guard_eq_some h
    exact newFrames_run fun _ _ => newFrames_filter rfl
  | kfree _ | walk _ _ | uvmalloc _ _ _ _ | uvmdealloc _ _ _ | uvmcopy _ _ _ | fault _ _ _ =>
    obtain ⟨_, rfl⟩ := guard_eq_some h
    exact newFrames_run fun _ _ => newFrames_same rfl

/-! ### The coupled runs -/

/-- The ledger is right, the contents are those of the reference, and no two address spaces have the same trapframe. -/
structure Coupled.Sound (c : Coupled) (L : Ledger) : Prop where
  memory : c.memory.Sound L
  contents_eq : L.contents c.memory.kernel = c.reference
  nodup : c.memory.trapframes.Nodup

theorem Coupled.exists_sound {c : Coupled} (h : Reachable Coupled.Initial Coupled.Step c) : ∃ L, c.Sound L := by
  refine h.invariant (I := fun c => ∃ L, c.Sound L) (fun c hinit => ?_) fun c c' _ hc hstep => ?_
  · obtain ⟨L, hsound, _, hcontents⟩ := hinit.1.sound
    obtain ⟨_, _, hspaces, _⟩ := hinit.1
    refine ⟨L, hsound, hcontents.trans hinit.2.symm, ?_⟩
    rw [Memory.trapframes, hspaces]
    exact List.nodup_nil
  · obtain ⟨L, hsound⟩ := hc
    obtain ⟨op, res, hnext, href, hfresh⟩ := hstep
    obtain ⟨L', heffect⟩ := hsound.memory.next hnext
    refine ⟨L', heffect.sound, ?_, ?_⟩
    · rw [heffect.contents_eq, hsound.contents_eq, href]
    · rcases Memory.next_newFrames hnext with hsub | ⟨t, hop, heq⟩
      · exact hsub.nodup hsound.nodup
      · rw [heq]
        exact List.nodup_cons.mpr ⟨hfresh t hop, hsound.nodup⟩

theorem data_ne_trampoline (h : Inv s.kernel L) {p : ℕ} (hp : L.role p = .data) : p ≠ trampolinePage := by
  rintro rfl
  exact trampolinePage_not_allocatable (h.allocatable (by rw [hp]; nofun))

theorem trampolinePte_write : trampolinePte.has pteW = false := by
  rw [trampolinePte, leafPte_write]
  decide

theorem Memory.Sound.page_ne_user (h : s.Sound L) (hv : v < userPages) (hvalid : (L.view s.kernel r v).has pteV = true) (hv' : userPages ≤ v')
    (hlt : v' < 2 ^ 27) (hvalid' : (L.view s.kernel r' v').has pteV = true) : (L.view s.kernel r' v').page ≠ (L.view s.kernel r v).page := by
  intro hpage
  obtain ⟨space, t, hspace, _, hframe, ⟨_, hview⟩ | ⟨_, hview⟩⟩ := h.kernel_view hv' hlt hvalid'
  · rw [hview, h.trapframe_page hspace hframe] at hpage
    exact h.unmapped t (h.frame space hspace t hframe).1 r v hv hvalid hpage.symm
  · rw [hview, trampolinePte_page] at hpage
    exact data_ne_trampoline h.inv (h.inv.data_of_valid hv hvalid) hpage.symm

theorem Memory.Sound.eq_of_trapframe {space space' : Space} (h : s.trapframes.Nodup) (hspace : space ∈ s.spaces) (hspace' : space' ∈ s.spaces)
    (hframe : space.trapframe = some t) (hframe' : space'.trapframe = some t) : space' = space := by
  by_contra hne
  have htwo : 2 ≤ s.trapframes.count t := two_le_count_filterMap hspace' hspace hne hframe' hframe
  have hone := List.nodup_iff_count_le_one.mp h t
  omega

/-- A mapping that permits writing is the only mapping of its page, in all page tables. -/
theorem Memory.Sound.eq_of_page (h : s.Sound L) (hnodup : s.trapframes.Nodup) (hv : v < 2 ^ 27) (hv' : v' < 2 ^ 27)
    (hvalid : (L.view s.kernel r v).has pteV = true) (hwrite : (L.view s.kernel r v).has pteW = true)
    (hvalid' : (L.view s.kernel r' v').has pteV = true) (hpage : (L.view s.kernel r' v').page = (L.view s.kernel r v).page) : r' = r ∧ v' = v := by
  by_cases huser : v < userPages
  · by_cases huser' : v' < userPages
    · exact h.inv.unshared huser huser' hvalid hwrite hvalid' hpage
    · exact absurd hpage (h.page_ne_user huser hvalid (by omega) hv' hvalid')
  · by_cases huser' : v' < userPages
    · exact absurd hpage.symm (h.page_ne_user huser' hvalid' (by omega) hv hvalid)
    · obtain ⟨space, t, hspace, hroot, hframe, ⟨heq, hview⟩ | ⟨_, hview⟩⟩ := h.kernel_view (by omega) hv hvalid
      · obtain ⟨space', t', hspace', hroot', hframe', ⟨heq', hview'⟩ | ⟨_, hview'⟩⟩ := h.kernel_view (by omega) hv' hvalid'
        · rw [hview, hview', h.trapframe_page hspace hframe, h.trapframe_page hspace' hframe'] at hpage
          subst hpage
          rw [← hroot, ← hroot', Memory.Sound.eq_of_trapframe hnodup hspace hspace' hframe hframe']
          exact ⟨rfl, heq'.trans heq.symm⟩
        · rw [hview, hview', h.trapframe_page hspace hframe, trampolinePte_page] at hpage
          exact absurd hpage.symm (data_ne_trampoline h.inv (h.data_of_space hspace hframe))
      · rw [hview, trampolinePte_write] at hwrite
        cases hwrite

theorem Memory.handleFault_ne_loaded (r sp va : ℕ) (b : BitVec 8) : (s.handleFault r sp va).2 ≠ .loaded b := by
  unfold Memory.handleFault Memory.run
  split <;> nofun

theorem Memory.Sound.load_eq {sp va : ℕ} {b : BitVec 8} (h : s.Sound L) (hnext : s.next (.load r sp va) = some (s', .loaded b)) :
    (L.contents s.kernel).byte r va = some b := by
  unfold Memory.next at hnext
  split at hnext
  · cases hnext
  simp only at hnext
  split at hnext
  · split at hnext
    · rename_i hload
      rw [h.view_eq] at hload hnext
      obtain ⟨hvalid, huser, _⟩ := canLoad_iff.mp hload.2
      have hlt := h.inv.user_lt (div_pgsize_lt hload.1) hvalid huser
      rw [Option.some.injEq, Prod.mk.injEq, Result.loaded.injEq] at hnext
      unfold Reference.byte
      rw [contents_of_valid hlt hvalid, Option.map_some, hnext.2]
    · have hres := congrArg Prod.snd (Option.some.inj hnext)
      exact absurd hres (Memory.handleFault_ne_loaded r sp va b)
  · cases hnext

/-- What copying would give: a writable mapping is alone, and every load returns the byte that the reference holds. -/
structure Coupled.Refines (c : Coupled) : Prop where
  exclusive : ∀ r v r' v', v < 2 ^ 27 → v' < 2 ^ 27 → (c.memory.view r v).has pteV = true → (c.memory.view r v).has pteW = true →
    (c.memory.view r' v').has pteV = true → (c.memory.view r' v').page = (c.memory.view r v).page → r' = r ∧ v' = v
  load_eq : ∀ r sp va s' b, c.memory.next (.load r sp va) = some (s', .loaded b) → c.reference.byte r va = some b

/-- Copy-on-write fork refines fork that copies. -/
theorem cow_refines_copy {c : Coupled} (h : Reachable Coupled.Initial Coupled.Step c) : c.Refines := by
  obtain ⟨L, hsound⟩ := Coupled.exists_sound h
  refine ⟨fun r v r' v' hv hv' => ?_, fun r sp va s' b hnext => ?_⟩
  · rw [hsound.memory.view_eq]
    exact hsound.memory.eq_of_page hsound.nodup hv hv'
  · rw [← hsound.contents_eq]
    exact hsound.memory.load_eq hnext

/-! ### A shared page that is written -/

theorem Coupled.exists_reference (h : Reachable Memory.Initial Memory.Plain s) :
    ∃ ref, Reachable Coupled.Initial Coupled.Step ⟨s, ref⟩ := by
  refine h.invariant (I := fun s => ∃ ref, Reachable Coupled.Initial Coupled.Step ⟨s, ref⟩)
    (fun s hinit => ⟨_, .of_init ⟨hinit, rfl⟩⟩) fun s s' _ hs hstep => ?_
  obtain ⟨ref, hreach⟩ := hs
  obtain ⟨op, res, hnext, _, hop⟩ := hstep
  exact ⟨_, hreach.tail ⟨op, res, hnext, rfl, fun t heq => absurd heq (hop t)⟩⟩

/-- Two address spaces that can both load their first byte. -/
structure Memory.Loads (s : Memory) (r r' : ℕ) : Prop where
  running : s.panicked = none
  parent : r ∈ s.roots
  child : r' ∈ s.roots
  parent_load : canLoad (s.view r 0) = true
  child_load : canLoad (s.view r' 0) = true

theorem Memory.next_load (hrun : s.panicked = none) (hr : r ∈ s.roots)
    (hload : canLoad (s.view r 0) = true) : ∃ b, s.next (.load r 0 0) = some (s, .loaded b) := by
  have hguard : 0 < maxva ∧ canLoad (s.view r (0 / pgsize)) = true := ⟨by decide, hload⟩
  rw [Memory.next, hrun]
  exact ⟨_, (if_pos hr).trans (if_pos hguard)⟩

theorem canLoad_cowPte (p : ℕ) : canLoad (cowPte (leafPte p userPerm)) = true := by
  rw [canLoad_iff, cowPte_valid, cowPte_user, cowPte_read, leafPte_valid, leafPte_user, leafPte_read]
  decide

theorem copy_leafPte (p : ℕ) :
    (leafPte p (shareFlags (pteFlags (leafPte p userPerm)))).has pteC = true := by
  rw [leafPte_copy]
  apply shareFlags_copy
  rw [pteFlags_write, leafPte_write]
  decide

/-- The fault of the child gives it a page of its own. -/
theorem Memory.Twins.exists_fault {p : ℕ} (h : s.Twins r r' p) (hsound : s.Sound L) :
    ∃ s', (∃ res, s.next (.fault r' 0 0) = some (s', res)) ∧ s'.Loads r r' ∧
      canStore (s'.view r' 0) = true := by
  have hchild : L.view s.kernel r' 0 = leafPte p (shareFlags (pteFlags (leafPte p userPerm))) := by
    rw [← hsound.view_eq, h.child_eq]
  have hroot' : L.role r' = .root := (hsound.root_iff r').mpr h.child
  have hcopy : (L.view s.kernel r' 0).has pteC = true := by rw [hchild, copy_leafPte]
  have hne : L.view s.kernel r' 0 ≠ 0 := by
    intro hzero
    rw [hzero] at hcopy
    cases hcopy
  refine Memory.exists_next (by rw [Memory.next, h.running]; exact if_pos h.child)
    (hsound.inv.post_handlePageFault hroot' (fun hkill => ?_) (fun _ _ hnull => ?_)
      (fun _ _ _ hzero => ?_) (fun _ _ _ hplain => ?_) (fun _ _ _ hfull => ?_)
      (fun _ _ _ _ hneg => ?_) fun q k L' _ _ _ hres => ?_)
  · exact absurd hkill (by decide)
  · have hslot : (slot s.kernel.mem r' 0).isSome = true := slot_isSome_of_ne hroot' hne
    rw [hnull] at hslot
    cases hslot
  · exact absurd hzero (hsound.inv.page_ne_zero (by decide) hcopy)
  · rw [Nat.zero_div, hcopy] at hplain
    cases hplain
  · exact absurd (hsound.inv.freelist_eq_zero_iff.mpr hfull) h.room
  · exact absurd ⟨_, hneg⟩ h.wrapped
  · have hviews : ∀ x, x ∈ s.roots → Memory.view { s with kernel := k } x 0 = L'.view k x 0 :=
      fun x hx => (if_pos hx).trans (view_root ((hres.evolves.keeps.root_iff x).mpr
        ((hsound.root_iff x).mpr hx))).symm
    have hparent : Memory.view { s with kernel := k } r 0 = s.view r 0 := by
      rw [hviews r h.parent, hres.evolves.keeps.view_eq r 0 (by decide) fun ht => h.ne ht.1,
        hsound.view_eq]
    have hown : Memory.view { s with kernel := k } r' 0 =
        resolvedPte q (leafPte p (shareFlags (pteFlags (leafPte p userPerm)))) := by
      have hview := hres.view_eq
      rw [Nat.zero_div, hchild] at hview
      rw [hviews r' h.child, hview]
    refine ⟨⟨h.running, h.parent, h.child, ?_, ?_⟩, ?_⟩
    · rw [hparent, h.parent_eq]
      exact canLoad_cowPte p
    · rw [hown, canLoad_iff, resolvedPte_valid, resolvedPte_user, resolvedPte_read, leafPte_valid,
        leafPte_user, leafPte_read, shareFlags_user, shareFlags_read, leafPte_user, leafPte_read]
      decide
    · rw [hown, canStore_iff, resolvedPte_valid, resolvedPte_user, resolvedPte_write, leafPte_valid,
        leafPte_user, shareFlags_user, leafPte_user]
      decide

theorem Memory.Loads.exists_store (h : s.Loads r r') (hsound : s.Sound L)
    (hstore : canStore (s.view r' 0) = true) (b : BitVec 8) :
    ∃ s', s.next (.store r' 0 0 b) = some (s', .stored) ∧ s'.Loads r r' := by
  have hguard : 0 < maxva ∧ canStore (s.view r' (0 / pgsize)) = true := ⟨by decide, hstore⟩
  refine ⟨{ s with kernel := s.kernel.storeByte (s.view r' (0 / pgsize)) (0 % pgsize) b }, ?_, ?_⟩
  · rw [Memory.next, h.running]
    exact (if_pos h.child).trans (if_pos hguard)
  · obtain ⟨hvalid, huser, _⟩ := canStore_iff.mp hstore
    rw [hsound.view_eq] at hvalid huser
    have hdata := hsound.inv.data_of_valid (hsound.inv.user_lt (by decide) hvalid huser) hvalid
    have hview : L.view (s.kernel.storeByte (L.view s.kernel r' 0) 0 b) = L.view s.kernel :=
      hsound.inv.view_setPage hdata _
    have hsame : ∀ x, x ∈ s.roots → Memory.view
        { s with kernel := s.kernel.storeByte (s.view r' 0) 0 b } x 0 = s.view x 0 := by
      intro x hx
      rw [hsound.view_eq]
      exact (if_pos hx).trans ((view_root ((hsound.root_iff x).mpr hx)).symm.trans
        (congrFun (congrFun hview x) 0))
    refine ⟨h.running, h.parent, h.child, ?_, ?_⟩
    · exact (congrArg canLoad (hsame r h.parent)).trans h.parent_load
    · exact (congrArg canLoad (hsame r' h.child)).trans h.child_load

theorem Page.byte_setByte (page : Page) (b : BitVec 8) : (page.setByte 0 b).byte 0 = b := by
  unfold Page.setByte Page.byte Kernel.setByte
  rw [Function.update_self]
  ext i hi
  have hlt : i < 64 := by omega
  have hmask : ∀ j < 8, (~~~0xFF#64).getLsbD j = false := by decide
  have hclear := hmask i hi
  rw [BitVec.getLsbD_eq_getElem hlt] at hclear
  simp [BitVec.getElem_extractLsb', hlt] at hclear ⊢
  rw [hclear, Bool.and_false, Bool.false_or]
  exact BitVec.getLsbD_eq_getElem hi

theorem Reference.byte_store (ref : Reference) (b : BitVec 8) {x : BitVec 8}
    (hx : (ref.next (.store r' 0 0 b) .stored).byte r' 0 = some x) : x = b := by
  simp only [Reference.byte, Reference.next_store, and_self, if_true, Option.map_map,
    Option.map_eq_some_iff, Function.comp_apply] at hx
  obtain ⟨page, _, rfl⟩ := hx
  exact Page.byte_setByte page b

/-- A `uvmcopy` has shared a page, the child has stored to it after the fault, and both load. -/
theorem cow_refines_copy_store : ∃ c0 c r r' x y,
    Reachable Coupled.Initial Coupled.Step c0 ∧ r ≠ r' ∧
    (c0.memory.view r 0).page = (c0.memory.view r' 0).page ∧
    Relation.ReflTransGen Coupled.Step c0 c ∧ x ≠ y ∧
    c.memory.next (.load r 0 0) = some (c.memory, .loaded x) ∧ c.reference.byte r 0 = some x ∧
    c.memory.next (.load r' 0 0) = some (c.memory, .loaded y) ∧ c.reference.byte r' 0 = some y := by
  obtain ⟨s0, r, r', p, hplain, htwins⟩ := Memory.exists_twins
  obtain ⟨ref0, hreach0⟩ := Coupled.exists_reference hplain
  obtain ⟨L0, hsound0⟩ := Coupled.exists_sound hreach0
  obtain ⟨s1, ⟨res, hnext1⟩, hloads1, hstore⟩ := htwins.exists_fault hsound0.memory
  have hstep1 : Coupled.Step ⟨s0, ref0⟩ ⟨s1, ref0⟩ := ⟨_, res, hnext1, rfl, nofun⟩
  have hreach1 := hreach0.tail hstep1
  obtain ⟨L1, hsound1⟩ := Coupled.exists_sound hreach1
  obtain ⟨x, hx⟩ := Memory.next_load hloads1.running hloads1.parent hloads1.parent_load
  obtain ⟨s2, hnext2, hloads2⟩ := hloads1.exists_store hsound1.memory hstore (x + 1)
  have hstep2 : Coupled.Step ⟨s1, ref0⟩ ⟨s2, ref0.next (.store r' 0 0 (x + 1)) .stored⟩ :=
    ⟨_, _, hnext2, rfl, nofun⟩
  have hrefines := cow_refines_copy (hreach1.tail hstep2)
  obtain ⟨x', hx'⟩ := Memory.next_load hloads2.running hloads2.parent hloads2.parent_load
  obtain ⟨y, hy⟩ := Memory.next_load hloads2.running hloads2.child hloads2.child_load
  have hparent := hrefines.load_eq _ _ _ _ _ hx'
  have hchild := hrefines.load_eq _ _ _ _ _ hy
  have hold : ref0.byte r 0 = some x := (cow_refines_copy hreach1).load_eq _ _ _ _ _ hx
  refine ⟨_, _, r, r', x', y, hreach0, htwins.ne, htwins.page_eq, .tail (.single hstep1) hstep2, ?_,
    hx', hparent, hy, hchild⟩
  have hkept : (ref0.next (.store r' 0 0 (x + 1)) .stored).byte r 0 = ref0.byte r 0 := by
    simp [Reference.byte, Reference.next_store, htwins.ne]
  rw [hkept, hold] at hparent
  rw [← Option.some.inj hparent, Reference.byte_store ref0 (x + 1) hchild]
  simp

end AdvancedXv6.Kernel
