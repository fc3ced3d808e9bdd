import AdvancedXv6.Kernel.Effects
import Mathlib.Data.Fintype.Option
import Mathlib.Data.Fintype.Prod

/-!
# No page is free while it is in use

Every reference to a page is counted: the mappings by user entries, the use as a page of a page table, and the pointers of the kernel to buffers and trapframes. The counts are `int`s, and `uvmcopy` does not look before it adds one. As long as no count passes `2^31 - 1`, no page on the free list has a reference.

`uvmcopy` leaves a reference behind when it fails: the page for which there was no room in the child has been counted, and the pages that it unmaps are the ones before. So the count of a page with a single mapping grows with every failure, and after `2^31 - 1` of them it is negative.
-/

namespace AdvancedXv6.Kernel

open Prog Transition

variable {k k' : KState} {L L' : Ledger} {s s' : Memory} {r v p : ℕ}

/-! ### The pages of the page tables -/

abbrev TableSlot := ℕ × Option (Fin 512 × Option (Fin 512))

def tableSlots : Finset TableSlot := Finset.range 0x88000 ×ˢ Finset.univ

def tableTarget (mem : ℕ → Page) (isRoot : ℕ → Bool) : TableSlot → Option ℕ
  | (r, none) => if isRoot r then some r else none
  | (r, some (i, none)) => if isRoot r && (mem r i).has pteV then some (mem r i).page else none
  | (r, some (i, some j)) =>
    if isRoot r && (mem r i).has pteV && (mem (mem r i).page j).has pteV then some (mem (mem r i).page j).page else none

def Role.slot? (p : ℕ) : Role → Option TableSlot
  | .root => some (p, none)
  | .mid r i => some (r, some (i, none))
  | .leaf r i j => some (r, some (i, some j))
  | _ => none

theorem Role.slot?_eq_none {role : Role} (h : role.isTable = false) : role.slot? p = none := by
  cases role <;> first | rfl | cases h

variable {slot : TableSlot} {space : Space} {t r' : ℕ} {α : Type} {Q : Memory → Prop} {x : KernelM α} {after : α → KState → Memory × Result}

theorem Inv.slot_of_target (h : Inv k L) {isRoot : ℕ → Bool} (hroot : ∀ r, isRoot r = true → L.role r = .root)
    (htarget : tableTarget k.mem isRoot slot = some p) : (L.role p).slot? p = some slot := by
  obtain ⟨r, path⟩ := slot
  match path with
  | none =>
    obtain ⟨hr, rfl⟩ := guard_eq_some htarget
    rw [hroot r hr]
    rfl
  | some (i, none) =>
    obtain ⟨hvalid, rfl⟩ := guard_eq_some htarget
    rw [Bool.and_eq_true] at hvalid
    rw [h.tables.root_child r i (hroot r hvalid.1) hvalid.2]
    rfl
  | some (i, some j) =>
    obtain ⟨hvalid, rfl⟩ := guard_eq_some htarget
    rw [Bool.and_eq_true, Bool.and_eq_true] at hvalid
    rw [h.tables.mid_child _ r i j (h.tables.root_child r i (hroot r hvalid.1.1) hvalid.1.2) hvalid.2]
    rfl

def Memory.tableRefs (s : Memory) (p : ℕ) : ℕ := Sharing.refs tableSlots (tableTarget s.kernel.mem (· ∈ s.roots)) p

/-- All the references to a page. A trapframe is one of the pointers in `buffers`. -/
def Memory.references (s : Memory) (p : ℕ) : ℕ := userRefs s.view p + s.tableRefs p + s.buffers.count p

section

variable (h : s.Sound L)
include h

theorem Memory.Sound.slot_of_target (htarget : tableTarget s.kernel.mem (· ∈ s.roots) slot = some p) :
    (L.role p).slot? p = some slot :=
  h.inv.slot_of_target (fun r hr => (h.root_iff r).mpr (of_decide_eq_true hr)) htarget

theorem Memory.Sound.tableRefs_le_one (p : ℕ) : s.tableRefs p ≤ 1 := by
  refine Sharing.refs_le_one fun slot _ slot' _ htarget htarget' => ?_
  have hslot := h.slot_of_target htarget
  rw [h.slot_of_target htarget', Option.some.injEq] at hslot
  exact hslot.symm

theorem Memory.Sound.tableRefs_eq_zero (hp : (L.role p).isTable = false) : s.tableRefs p = 0 := by
  refine Sharing.refs_eq_zero_iff.mpr fun slot _ htarget => ?_
  have hslot := h.slot_of_target htarget
  rw [Role.slot?_eq_none hp] at hslot
  cases hslot

theorem Memory.Sound.buffers_eq_zero (hp : L.role p ≠ .data) : s.buffers.count p = 0 := by
  by_contra hne
  have hle := h.buffers_le p
  exact hp (h.inv.shares.held_data p (by omega))

theorem Memory.Sound.userRefs_eq_zero (hp : L.role p ≠ .data) : userRefs s.view p = 0 := by
  rw [h.view_eq]
  exact h.inv.refs_of_not_data hp

theorem Memory.Sound.references_eq_zero (hp : L.role p ≠ .data) (htable : (L.role p).isTable = false) : s.references p = 0 := by
  unfold Memory.references
  rw [h.userRefs_eq_zero hp, h.tableRefs_eq_zero htable, h.buffers_eq_zero hp]

theorem Memory.Sound.references_le (hwrapped : ¬ s.kernel.Wrapped) (p : ℕ) : s.references p ≤ s.kernel.pageRefCount p := by
  have hnonneg : 0 ≤ s.kernel.pageRefCount p := by
    by_contra hneg
    exact hwrapped ⟨p, by omega⟩
  by_cases hdata : L.role p = .data
  · rcases h.inv.shares.count_le p hdata with hneg | hle
    · omega
    · have hbuffers := h.buffers_le p
      unfold Memory.references
      rw [h.view_eq, h.tableRefs_eq_zero (by rw [hdata]; rfl)]
      omega
  · cases htable : (L.role p).isTable with
    | false =>
      rw [h.references_eq_zero hdata htable]
      exact hnonneg
    | true =>
      have hone := h.tableRefs_le_one p
      have hcount := h.inv.count_table p htable
      unfold Memory.references
      rw [h.userRefs_eq_zero hdata, h.buffers_eq_zero hdata]
      omega

/-! ### Free pages -/

/-- An entry above the user part is that of the trapframe or that of the trampoline. -/
theorem Memory.Sound.kernel_view (hv : userPages ≤ v) (hv' : v < 2 ^ 27) (hvalid : (L.view s.kernel r v).has pteV = true) :
    ∃ space t, space ∈ s.spaces ∧ space.root = r ∧ space.trapframe = some t ∧
      (v = userPages ∧ L.view s.kernel r v = trapframePte t ∨ v = userPages + 1 ∧ L.view s.kernel r v = trampolinePte) := by
  have hsmall := userPages_eq
  have hlow : v < 2 ^ 26 := by
    rcases h.inv.shares.kernel r v hv hv' with hzero | ⟨hlow, _⟩
    · rw [hzero, zero_not_valid] at hvalid
      cases hvalid
    · exact hlow
  have hor : v = userPages ∨ v = userPages + 1 := by omega
  obtain ⟨space, hspace, rfl⟩ := List.mem_map.mp ((h.root_iff r).mp (root_of_valid hvalid))
  cases hframe : space.trapframe with
  | none =>
    obtain ⟨hzero, hzero'⟩ := h.bare space hspace hframe
    rcases hor with rfl | rfl
    · rw [hzero, zero_not_valid] at hvalid
      cases hvalid
    · rw [hzero', zero_not_valid] at hvalid
      cases hvalid
  | some t =>
    obtain ⟨_, htrap, htramp⟩ := h.frame space hspace t hframe
    refine ⟨space, t, hspace, rfl, hframe, ?_⟩
    rcases hor with rfl | rfl
    · exact .inl ⟨rfl, htrap⟩
    · exact .inr ⟨rfl, htramp⟩

theorem Memory.Sound.data_of_space (hspace : space ∈ s.spaces) (hframe : space.trapframe = some t) :
    L.role t = .data := h.inv.shares.held_data t (h.held_pos (h.frame space hspace t hframe).1)

theorem Memory.Sound.trapframe_page (hspace : space ∈ s.spaces) (hframe : space.trapframe = some t) :
    (trapframePte t).page = t := by
  have hlt := h.inv.lt (p := t) (by rw [h.data_of_space hspace hframe]; nofun)
  exact trapframePte_page (by omega)

omit h in
theorem trampolinePage_not_allocatable : ¬ Allocatable trampolinePage := by
  rw [allocatable_iff]
  decide

theorem Memory.Sound.page_ne_free (hp : L.role p = .free) (hv : v < 2 ^ 27) (hvalid : (L.view s.kernel r v).has pteV = true) :
    (L.view s.kernel r v).page ≠ p := by
  rintro rfl
  by_cases huser : v < userPages
  · rw [h.inv.data_of_valid huser hvalid] at hp
    cases hp
  · obtain ⟨space, t, hspace, _, hframe, ⟨_, hview⟩ | ⟨_, hview⟩⟩ := h.kernel_view (by omega) hv hvalid
    · rw [hview, h.trapframe_page hspace hframe, h.data_of_space hspace hframe] at hp
      cases hp
    · rw [hview, trampolinePte_page] at hp
      exact trampolinePage_not_allocatable (h.inv.allocatable (by rw [hp]; nofun))

end

/-! ### Runs -/

def Memory.Step (s s' : Memory) : Prop := ∃ op res, s.next op = some (s', res)

/-- A step that does not add a reference to a page that already has `2^31 - 1`. -/
def Memory.StepWithin (s s' : Memory) : Prop := ∃ op res, s.next op = some (s', res) ∧ ¬ s.Saturated op

structure Memory.Accounted (s : Memory) : Prop where
  references_le : ∀ p, s.references p ≤ s.kernel.pageRefCount p
  free : ∃ free, FreeChain s.kernel.mem s.kernel.freelist free ∧ free.Nodup ∧ ∀ p, p ∈ free →
    s.kernel.pageRefCount p = 0 ∧ ∀ r v, v < 2 ^ 27 → (s.view r v).has pteV = true → (s.view r v).page ≠ p
  kalloc_fresh : ∀ pa k, kalloc s.kernel = .ok (pa, k) → pa ≠ 0 → s.references (pa / pgsize) = 0

theorem Memory.Sound.accounted (h : s.Sound L) (hwrapped : ¬ s.kernel.Wrapped) : s.Accounted where
  references_le := h.references_le hwrapped
  free := by
    refine ⟨L.free, h.inv.chain, h.inv.nodup, fun p hp => ?_⟩
    have hrole := (h.inv.free_iff p).mp hp
    rw [h.view_eq]
    exact ⟨h.inv.count_free p hrole, fun r v hv hvalid => h.page_ne_free hrole hv hvalid⟩
  kalloc_fresh := by
    intro pa k
    refine Post.of_ok (Q := fun pa _ => pa ≠ 0 → s.references (pa / pgsize) = 0) (E := fun _ => True)
      (h.inv.post_kalloc (fun _ hne => absurd rfl hne) fun p k' L' htaken _ => ?_)
    have hrole := htaken.role_free h.inv
    rw [div_pgsize]
    exact h.references_eq_zero (by rw [hrole]; nofun) (by rw [hrole]; rfl)

theorem Memory.sound_of_within (h : Reachable Memory.Initial Memory.StepWithin s) : ∃ L, s.Sound L ∧ ¬ s.kernel.Wrapped := by
  refine h.invariant (I := fun s => ∃ L, s.Sound L ∧ ¬ s.kernel.Wrapped) (fun s hinit => ?_) fun s s' _ hs hstep => ?_
  · obtain ⟨L, hsound, hwrapped, _⟩ := hinit.sound
    exact ⟨L, hsound, hwrapped⟩
  · obtain ⟨L, hsound, hwrapped⟩ := hs
    obtain ⟨op, res, hnext, hsaturated⟩ := hstep
    obtain ⟨L', heffect⟩ := hsound.next hnext
    exact ⟨L', heffect.sound, fun hw => (heffect.wrapped hw).elim hwrapped hsaturated⟩

/-! ### Failing forks -/

theorem Memory.exists_initial : ∃ s : Memory, s.Initial := by
  cases hk : kinit (boot fun _ _ => 0) with
  | ok out => exact ⟨⟨out.2, [], [], none⟩, _, hk, rfl, rfl, rfl⟩
  | error e => exact ((post_kinit _).of_error hk).elim

theorem Memory.exists_next {op : Op}
    (hnext : s.next op = some (s.run x after)) (hpost : Post x s.kernel (fun a k => Q (after a k).1) fun _ => False) :
    ∃ s', (∃ res, s.next op = some (s', res)) ∧ Q s' := by
  refine ⟨(s.run x after).1, ⟨(s.run x after).2, hnext⟩, ?_⟩
  unfold Memory.run
  cases hx : x s.kernel with
  | ok out => exact hpost.of_ok hx
  | error e => exact (hpost.of_error hx).elim

/-- A step that meets no page with `2^31 - 1` references and makes no process. -/
def Memory.Plain (s s' : Memory) : Prop :=
  ∃ op res, s.next op = some (s', res) ∧ ¬ s.Saturated op ∧ ∀ t, op ≠ .procPagetable t

theorem Memory.Plain.within (h : s.Plain s') : s.StepWithin s' := by
  obtain ⟨op, res, hnext, hsaturated, _⟩ := h
  exact ⟨op, res, hnext, hsaturated⟩

theorem Memory.Plain.step (h : s.Plain s') : s.Step s' := by
  obtain ⟨op, res, hnext, _⟩ := h
  exact ⟨op, res, hnext⟩

theorem Memory.exists_plain (op : Op) (hsaturated : ¬ s.Saturated op)
    (hop : ∀ t, op ≠ .procPagetable t) (hnext : s.next op = some (s.run x after))
    (hpost : Post x s.kernel (fun a k => Q (after a k).1) fun _ => False) :
    ∃ s', s.Plain s' ∧ Q s' := by
  obtain ⟨s', ⟨res, hres⟩, hs'⟩ := Memory.exists_next hnext hpost
  exact ⟨s', ⟨op, res, hres, hsaturated, hop⟩, hs'⟩

theorem Memory.exists_step (op : Op) (hnext : s.next op = some (s.run x after))
    (hpost : Post x s.kernel (fun a k => Q (after a k).1) fun _ => False) :
    ∃ s', s.Step s' ∧ Q s' := by
  obtain ⟨s', ⟨res, hres⟩, hs'⟩ := Memory.exists_next hnext hpost
  exact ⟨s', ⟨op, res, hres⟩, hs'⟩

structure Memory.Hosts (s : Memory) (L : Ledger) (r : ℕ) : Prop where
  running : s.panicked = none
  trapframes : s.trapframes = []
  inv : Inv s.kernel L
  wrapped : ¬ s.kernel.Wrapped
  mem_roots : r ∈ s.roots
  root : L.role r = .root

theorem Memory.Initial.exists_hosts (h : s.Initial) :
    ∃ s', s.Plain s' ∧ ∃ L r, s'.Hosts L r ∧ (∀ u, L.view s'.kernel r u = 0) ∧
      9 ≤ L.free.length := by
  obtain ⟨mem, hkinit, hspaces, _, hrunning⟩ := h
  obtain ⟨free, hfresh⟩ := (post_kinit mem).of_ok hkinit
  have hlength : (freshLedger free).free.length = 0x88000 - 0x80243 := hfresh.length_eq
  have hwrapped : ¬ s.kernel.Wrapped := fun ⟨p, hp⟩ => by rw [hfresh.count_eq] at hp; omega
  refine Memory.exists_plain .uvmcreate id nofun (by rw [Memory.next, hrunning]; rfl)
    (hfresh.inv.post_uvmcreate (fun hempty => ?_) fun r k L hcreated => ?_)
  · rw [hempty] at hlength
    cases hlength
  · rw [if_neg (hcreated.inv.allocatable_ne_zero (by rw [hcreated.extended.root]; nofun)), div_pgsize]
    have hle := hcreated.free_le
    refine ⟨L, r, ⟨rfl, ?_, hcreated.inv, fun hw => hwrapped (hcreated.wrapped hw),
      List.mem_cons_self .., hcreated.extended.root⟩, hcreated.view_zero, by omega⟩
    rw [Memory.trapframes, hspaces]
    rfl

theorem Memory.Hosts.exists_page (h : s.Hosts L r) (hlength : 9 ≤ L.free.length) :
    ∃ s', s.Plain s' ∧ ∃ L' p, s'.Hosts L' r ∧ L'.view s'.kernel = L.view s.kernel ∧
      p ∈ s'.buffers ∧ Owned p s'.kernel L' ∧ s'.kernel.pageRefCount p = 1 ∧
      8 ≤ L'.free.length := by
  refine Memory.exists_plain .kalloc id nofun (by rw [Memory.next, h.running]; rfl)
    (h.inv.post_kalloc (fun hempty => ?_) fun p k L' htaken => ?_)
  · rw [hempty] at hlength
    cases hlength
  · rw [if_neg htaken.address_ne_zero, div_pgsize]
    rw [htaken.free_eq, List.length_cons] at hlength
    refine ⟨L', p, ⟨rfl, h.trapframes, htaken.inv, fun hw => h.wrapped (htaken.wrapped hw),
      h.mem_roots, (htaken.keeps.root_iff r).mpr h.root⟩, htaken.view_eq, List.mem_cons_self ..,
      htaken.owned, ?_, by omega⟩
    show k.pageRefCount p = 1
    rw [htaken.count_eq, Function.update_self]

def userPerm : Pte := pteW ||| pteR ||| pteU

theorem readable_userPerm : Readable userPerm := ⟨isFlags_of_pteFlags (by decide), by decide⟩

/-- The address space has one page, and nobody else refers to it. -/
structure Memory.OnePage (s : Memory) (L : Ledger) (r p : ℕ) : Prop extends s.Hosts L r where
  view_eq : L.view s.kernel r 0 = leafPte p userPerm
  page_eq : (L.view s.kernel r 0).page = p
  count : s.kernel.pageRefCount p = 1

theorem Memory.Hosts.exists_parent (h : s.Hosts L r) (hempty : L.view s.kernel r 0 = 0)
    (hmem : p ∈ s.buffers) (howned : Owned p s.kernel L) (hcount : s.kernel.pageRefCount p = 1)
    (hlength : 8 ≤ L.free.length) :
    ∃ s', s.Plain s' ∧ ∃ L', s'.OnePage L' r p ∧ 6 ≤ L'.free.length := by
  have hguard : r ∈ s.roots ∧ 0 < userPages ∧ p ∈ s.buffers ∧ p ∉ s.trapframes ∧
      pteFlags userPerm = userPerm ∧ userPerm.has pteR = true :=
    ⟨h.mem_roots, by decide, hmem, by rw [h.trapframes]; nofun, by decide, by decide⟩
  refine Memory.exists_plain (.mappages r 0 p userPerm) id nofun
    (by rw [Memory.next, h.running]; exact if_pos hguard)
    (h.inv.post_mappages_owned h.root (by decide) howned readable_userPerm (fun hvalid => ?_)
      (fun k L' hgrown hfull => ?_) fun k L' hplaced => ?_)
  · rw [hempty, zero_not_valid] at hvalid
    cases hvalid
  · have hle := hgrown.free_le
    rw [hfull, List.length_nil] at hle
    omega
  · rw [if_pos rfl]
    have hle := hplaced.free_le
    exact ⟨L', ⟨⟨rfl, h.trapframes, hplaced.inv, fun hw => h.wrapped (hplaced.wrapped hw),
      h.mem_roots, (hplaced.keeps.root_iff r).mpr h.root⟩, hplaced.view_eq, hplaced.page_eq,
      hplaced.count_eq.trans hcount⟩, by omega⟩

structure Memory.Family (s : Memory) (L : Ledger) (r r' : ℕ) : Prop extends s.Hosts L r where
  valid : (L.view s.kernel r 0).has pteV = true
  mem_child : r' ∈ s.roots
  child : L.role r' = .root
  ne : r ≠ r'
  bare : ∀ x, L.role x ≠ .leaf r' (px 2 0) (px 1 0)

theorem Memory.OnePage.exists_family (h : s.OnePage L r p) (hlength : 6 ≤ L.free.length) :
    ∃ s', s.Plain s' ∧ ∃ L' r', s'.Family L' r r' ∧ s'.OnePage L' r p ∧
      (∀ u, L'.view s'.kernel r' u = 0) ∧ 5 ≤ L'.free.length := by
  refine Memory.exists_plain .uvmcreate id nofun (by rw [Memory.next, h.running]; rfl)
    (h.inv.post_uvmcreate (fun hempty => ?_) fun r' k L' hcreated => ?_)
  · rw [hempty] at hlength
    cases hlength
  · have hroot := hcreated.extended.root
    rw [if_neg (hcreated.inv.allocatable_ne_zero (by rw [hroot]; nofun)), div_pgsize]
    have hle := hcreated.free_le
    have hhosts : Memory.Hosts ⟨k, ⟨r', none⟩ :: s.spaces, s.buffers, none⟩ L' r :=
      ⟨rfl, h.trapframes, hcreated.inv, fun hw => h.wrapped (hcreated.wrapped hw),
        List.mem_cons_of_mem _ h.mem_roots, (hcreated.root_iff r).mpr (.inl h.root)⟩
    refine ⟨L', r', ⟨hhosts, ?_, List.mem_cons_self .., hroot, ?_, fun x hx => ?_⟩,
      ⟨hhosts, ?_, ?_, ?_⟩, hcreated.view_zero, by omega⟩
    · rw [hcreated.view_eq, h.view_eq]
      exact leafPte_valid ..
    · rintro rfl
      have hfresh := hcreated.fresh
      rw [h.root] at hfresh
      cases hfresh
    · obtain ⟨m, hm, _⟩ := hcreated.inv.tables.leaf_parent _ _ _ _ hx
      have htop := (hcreated.inv.tables.mid_parent _ _ _ hm).2.1
      rw [hcreated.zero, zero_not_valid] at htop
      cases htop
    · rw [hcreated.view_eq, h.view_eq]
    · rw [hcreated.view_eq, h.page_eq]
    · refine (hcreated.count_eq p ?_).trans h.count
      rintro rfl
      have hdata := h.inv.data_of_valid (by decide) (v := 0) (r := r)
        (by rw [h.view_eq]; exact leafPte_valid ..)
      rw [h.page_eq, hcreated.fresh] at hdata
      cases hdata

/-- An address space with one page, and an empty one beside it. -/
theorem Memory.exists_family : ∃ s L r r' p, Reachable Memory.Initial Memory.Plain s ∧
    s.Family L r r' ∧ s.OnePage L r p ∧ (∀ u, L.view s.kernel r' u = 0) ∧ 5 ≤ L.free.length := by
  obtain ⟨s0, hinit⟩ := Memory.exists_initial
  obtain ⟨s1, hstep1, L1, r, hhosts1, hempty1, hfree1⟩ := hinit.exists_hosts
  obtain ⟨s2, hstep2, L2, p, hhosts2, hview2, hmem2, howned2, hcount2, hfree2⟩ :=
    hhosts1.exists_page hfree1
  obtain ⟨s3, hstep3, L3, hpage3, hfree3⟩ :=
    hhosts2.exists_parent (by rw [hview2]; exact hempty1 0) hmem2 howned2 hcount2 hfree2
  obtain ⟨s4, hstep4, L4, r', hfamily, hpage, hempty, hfree⟩ := hpage3.exists_family hfree3
  exact ⟨s4, L4, r, r', p, ((((Reachable.of_init hinit).tail hstep1).tail hstep2).tail
    hstep3).tail hstep4, hfamily, hpage, hempty, hfree⟩

theorem Memory.Family.exists_full (h : s.Family L r r') :
    ∃ s', Relation.ReflTransGen Memory.Step s s' ∧ ∃ L', s'.Family L' r r' ∧ L'.free = [] := by
  generalize hn : L.free.length = n
  induction n generalizing s L with
  | zero => exact ⟨s, .refl, L, h, List.length_eq_zero_iff.mp hn⟩
  | succ n ih =>
    have htake : ∃ s', s.Plain s' ∧ ∃ L', s'.Family L' r r' ∧ L'.free.length = n := by
      refine Memory.exists_plain .kalloc id nofun (by rw [Memory.next, h.running]; rfl) (h.inv.post_kalloc (fun hempty => ?_) fun p k L' htaken => ?_)
      · rw [hempty] at hn
        cases hn
      · rw [if_neg htaken.address_ne_zero]
        rw [htaken.free_eq, List.length_cons] at hn
        refine ⟨L', ⟨⟨rfl, h.trapframes, htaken.inv, fun hw => h.wrapped (htaken.wrapped hw), h.mem_roots, (htaken.keeps.root_iff r).mpr h.root⟩, ?_,
          h.mem_child, (htaken.keeps.root_iff r').mpr h.child, h.ne, fun x hx => ?_⟩, by omega⟩
        · rw [htaken.view_eq]
          exact h.valid
        · have hxp : x ≠ p := by
            rintro rfl
            rw [htaken.role_data] at hx
            cases hx
          rw [htaken.role_eq, Function.update_of_ne hxp] at hx
          exact h.bare x hx
    obtain ⟨s₁, hstep, L₁, hfamily, hlength⟩ := htake
    obtain ⟨s', hrun, hs'⟩ := ih hfamily hlength
    exact ⟨s', .head hstep.step hrun, hs'⟩

def Memory.Overflown (s : Memory) (p : ℕ) : Prop := 1 ≤ s.references p ∧ s.kernel.pageRefCount p < 0

theorem Memory.Family.exists_leak (h : s.Family L r r') (hfree : L.free = []) :
    ∃ s', s.Step s' ∧ ((∃ L', s'.Family L' r r' ∧ L'.free = [] ∧
      s'.kernel.pageRefCount (L'.view s'.kernel r 0).page = s.kernel.pageRefCount (L.view s.kernel r 0).page + 1) ∨ ∃ p, s'.Overflown p) := by
  have hguard : r ∈ s.roots ∧ r' ∈ s.roots ∧ r ≠ r' ∧ pgsize ≤ trapframeVa := ⟨h.mem_roots, h.mem_child, h.ne, by decide⟩
  have hnonneg : 0 ≤ s.kernel.pageRefCount (L.view s.kernel r 0).page := by
    by_contra hneg
    exact h.wrapped ⟨(L.view s.kernel r 0).page, by omega⟩
  have hlt := h.inv.count_lt (L.view s.kernel r 0).page
  refine Memory.exists_step (.uvmcopy r r' pgsize)
    (by rw [Memory.next, h.running]; exact if_pos hguard)
    (h.inv.post_uvmcopy_full h.root h.child h.ne h.valid h.bare hfree hnonneg fun k L' hleak => ?_)
  obtain ⟨hrole, hfree'⟩ := hleak.empty hfree
  have hroot : L'.role r = .root := by rw [hrole, h.root]
  have hvalid : (L'.view k r 0).has pteV = true := by rw [hleak.old_eq, cowPte_valid, h.valid]
  have hpage : (L'.view k r 0).page = (L.view s.kernel r 0).page := by rw [hleak.old_eq, cowPte_page (h.inv.page_lt (by decide) h.valid)]
  by_cases hmax : s.kernel.pageRefCount (L.view s.kernel r 0).page < 2 ^ 31 - 1
  · left
    refine ⟨L', ⟨⟨rfl, h.trapframes, hleak.inv, fun hw => ?_, h.mem_roots, hroot⟩, hvalid, h.mem_child, by rw [hrole, h.child], h.ne, ?_⟩, hfree', ?_⟩
    · rcases hleak.wrapped hw with hk | hle
      · exact h.wrapped hk
      · omega
    · rw [hrole]
      exact h.bare
    · rw [hpage, hleak.count_eq, toInt32_of_lt (by omega) (by omega)]
  · right
    refine ⟨(L.view s.kernel r 0).page, ?_, ?_⟩
    · have hview : Memory.view { s with kernel := k } r 0 = L'.view k r 0 := (if_pos h.mem_roots).trans (view_root hroot).symm
      have hmaps : target (Memory.view { s with kernel := k }) (r, 0) = some (L.view s.kernel r 0).page := by
        rw [← hpage, ← hview]
        exact if_pos (by rw [hview]; exact hvalid)
      have hone : 1 ≤ userRefs (Memory.view { s with kernel := k }) (L.view s.kernel r 0).page :=
        Sharing.one_le_refs (hleak.inv.mem_userSlots hroot (by decide)) hmaps
      exact Nat.le_trans hone (Nat.le_trans (Nat.le_add_right _ _) (Nat.le_add_right _ _))
    · change k.pageRefCount (L.view s.kernel r 0).page < 0
      rw [hleak.count_eq, show s.kernel.pageRefCount (L.view s.kernel r 0).page = 2 ^ 31 - 1 by omega]
      decide

theorem Memory.Family.exists_overflown (h : s.Family L r r') (hfree : L.free = []) :
    ∃ s', Relation.ReflTransGen Memory.Step s s' ∧ ∃ p, s'.Overflown p := by
  generalize hn : (2 ^ 31 - s.kernel.pageRefCount (L.view s.kernel r 0).page).toNat = n
  induction n generalizing s L with
  | zero =>
    have hlt := h.inv.count_lt (L.view s.kernel r 0).page
    omega
  | succ n ih =>
    obtain ⟨s₁, hstep, ⟨L₁, hfamily, hfree₁, hcount⟩ | hover⟩ := h.exists_leak hfree
    · obtain ⟨s', hrun, hs'⟩ := ih hfamily hfree₁ (by omega)
      exact ⟨s', .head hstep hrun, hs'⟩
    · exact ⟨s₁, .single hstep, hover⟩

/-- In every run in which `uvmcopy` meets no page with `2^31 - 1` references, no page is free while it is in use. -/
theorem memory_accounted (h : Reachable Memory.Initial Memory.StepWithin s) : s.Accounted := by
  obtain ⟨L, hsound, hwrapped⟩ := Memory.sound_of_within h
  exact hsound.accounted hwrapped

/-- After a `uvmcopy`: the page of the parent is mapped in both address spaces. -/
structure Memory.Twins (s : Memory) (r r' p : ℕ) : Prop where
  running : s.panicked = none
  parent : r ∈ s.roots
  child : r' ∈ s.roots
  ne : r ≠ r'
  parent_eq : s.view r 0 = cowPte (leafPte p userPerm)
  child_eq : s.view r' 0 = leafPte p (shareFlags (pteFlags (leafPte p userPerm)))
  page_eq : (s.view r 0).page = (s.view r' 0).page
  wrapped : ¬ s.kernel.Wrapped
  room : s.kernel.freelist ≠ 0

theorem Memory.Family.exists_twins (h : s.Family L r r') (hpage : s.OnePage L r p)
    (hempty : ∀ u, L.view s.kernel r' u = 0) (hlength : 5 ≤ L.free.length) :
    ∃ s', s.Plain s' ∧ s'.Twins r r' p := by
  have hguard : r ∈ s.roots ∧ r' ∈ s.roots ∧ r ≠ r' ∧ pgsize ≤ trapframeVa :=
    ⟨h.mem_roots, h.mem_child, h.ne, by decide⟩
  have hone : pages pgsize = 1 := rfl
  have hview : s.view r 0 = L.view s.kernel r 0 := (if_pos h.mem_roots).trans (view_root h.root).symm
  have hlow : ∀ u, u < pages pgsize →
      ¬ 2 ^ 31 - 1 ≤ s.kernel.pageRefCount (L.view s.kernel r u).page := by
    intro u hu
    rw [show u = 0 by omega, hpage.page_eq, hpage.count]
    decide
  refine Memory.exists_plain (.uvmcopy r r' pgsize) ?_ nofun
    (by rw [Memory.next, h.running]; exact if_pos hguard)
    (h.inv.post_uvmcopy h.root h.child h.ne (by decide) (fun hmissing => ?_) (fun hcount => ?_)
      (fun hremap => ?_) (fun k L' hfailed => ?_) fun k L' hforked => ?_)
  · rintro ⟨u, hu, hmax⟩
    rw [show u = 0 by omega, hview] at hmax
    exact hlow 0 (by decide) hmax
  · obtain ⟨u, hu, hinvalid⟩ := hmissing
    rw [show u = 0 by omega, h.valid] at hinvalid
    cases hinvalid
  · rcases hcount with hw | ⟨u, hu, hmax⟩
    · exact absurd hw h.wrapped
    · exact absurd hmax (hlow u hu)
  · obtain ⟨u, _, hvalid⟩ := hremap
    rw [hempty, zero_not_valid] at hvalid
    cases hvalid
  · have hfull := hfailed.full
    omega
  · have hroot : L'.role r = .root := (hforked.keeps.root_iff r).mpr h.root
    have hroot' : L'.role r' = .root := (hforked.keeps.root_iff r').mpr h.child
    have hviews : ∀ x, x ∈ s.roots → L'.role x = .root →
        Memory.view ⟨k, s.spaces, s.buffers, none⟩ x 0 = L'.view k x 0 :=
      fun x hx hrole => (if_pos hx).trans (view_root hrole).symm
    have hparent : Memory.view ⟨k, s.spaces, s.buffers, none⟩ r 0 = cowPte (leafPte p userPerm) := by
      rw [hviews r h.mem_roots hroot, hforked.old_eq 0 (by decide), hpage.view_eq]
    have hchild : Memory.view ⟨k, s.spaces, s.buffers, none⟩ r' 0 =
        leafPte p (shareFlags (pteFlags (leafPte p userPerm))) := by
      rw [hviews r' h.mem_child hroot', hforked.new_eq 0 (by decide), hpage.page_eq, hpage.view_eq]
    have hlt : p < 2 ^ 44 := by
      rw [← hpage.page_eq]
      exact h.inv.page_lt (by decide) h.valid
    have hleaf : (leafPte p userPerm).page = p := leafPte_page hlt readable_userPerm.isFlags
    refine ⟨rfl, h.mem_roots, h.mem_child, h.ne, hparent, hchild, ?_, fun hw => ?_, ?_⟩
    · show (Memory.view ⟨k, s.spaces, s.buffers, none⟩ r 0).page =
        (Memory.view ⟨k, s.spaces, s.buffers, none⟩ r' 0).page
      rw [hparent, hchild, cowPte_page (by rw [hleaf]; exact hlt), hleaf,
        leafPte_page hlt (isFlags_shareFlags _)]
    · rcases hforked.wrapped hw with hk | ⟨u, hu, hmax⟩
      · exact h.wrapped hk
      · exact hlow u hu hmax
    · show k.freelist ≠ 0
      rw [ne_eq, hforked.inv.freelist_eq_zero_iff]
      intro hnil
      have hle := hforked.free_le
      rw [hnil, List.length_nil] at hle
      omega

theorem Memory.exists_twins : ∃ s r r' p, Reachable Memory.Initial Memory.Plain s ∧
    s.Twins r r' p := by
  obtain ⟨s, L, r, r', p, hreach, hfamily, hpage, hempty, hlength⟩ := Memory.exists_family
  obtain ⟨s', hstep, htwins⟩ := hfamily.exists_twins hpage hempty hlength
  exact ⟨s', r, r', p, hreach.tail hstep, htwins⟩

/-- A `uvmcopy` has shared a page between two address spaces. -/
theorem memory_accounted_uvmcopy : ∃ s r r', Reachable Memory.Initial Memory.StepWithin s ∧
    r ≠ r' ∧ (s.view r 0).has pteV = true ∧ (s.view r' 0).has pteV = true ∧
    (s.view r 0).page = (s.view r' 0).page ∧ s.Accounted := by
  obtain ⟨s, r, r', p, hreach, htwins⟩ := Memory.exists_twins
  have hwithin : Reachable Memory.Initial Memory.StepWithin s :=
    hreach.mono fun _ _ hplain => hplain.within
  refine ⟨s, r, r', hwithin, htwins.ne, ?_, ?_, htwins.page_eq, memory_accounted hwithin⟩
  · rw [htwins.parent_eq, cowPte_valid]
    exact leafPte_valid ..
  · rw [htwins.child_eq]
    exact leafPte_valid ..

/-- After enough failing calls of `uvmcopy` a page that is mapped has a negative count. -/
theorem exists_overflown_page : ∃ s p, Reachable Memory.Initial Memory.Step s ∧ 1 ≤ s.references p ∧ s.kernel.pageRefCount p < 0 := by
  obtain ⟨s, L, r, r', _, hreach, hfamily, _⟩ := Memory.exists_family
  obtain ⟨s1, hrun1, L1, hfamily1, hfree1⟩ := hfamily.exists_full
  obtain ⟨s2, hrun2, p, hrefs, hcount⟩ := hfamily1.exists_overflown hfree1
  have hstep : Reachable Memory.Initial Memory.Step s :=
    hreach.mono fun _ _ hplain => hplain.step
  exact ⟨s2, p, (hstep.trans hrun1).trans hrun2, hrefs, hcount⟩

end AdvancedXv6.Kernel
