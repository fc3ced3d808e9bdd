import AdvancedXv6.Kernel.Spaces
import AdvancedXv6.Lib.Transition

/-!
# The memory system

The functions of `vm.c` and `kalloc.c` as the operations of one machine. Its state is the kernel's memory, the address spaces that exist, and the pages to which the rest of the kernel has a pointer: buffers and trapframes. The operations run in any order, on any address space, with the arguments that the kernel may pass; a panic stops the machine. A user program loads and stores a byte when the entry of its page table permits it, and else goes through `handle_page_fault`.
-/

namespace AdvancedXv6.Kernel

open Prog

/-- An address space: the root of its page table, and the trapframe if `proc_pagetable` has made it. -/
structure Space where
  root : ℕ
  trapframe : Option ℕ
  deriving DecidableEq

structure Memory where
  kernel : KState
  spaces : List Space
  buffers : List ℕ
  panicked : Option Panic

def Memory.roots (s : Memory) : List ℕ := s.spaces.map Space.root

def Memory.trapframes (s : Memory) : List ℕ := s.spaces.filterMap Space.trapframe

def Memory.view (s : Memory) (r v : ℕ) : Pte := if r ∈ s.roots then entry s.kernel.mem r v else 0

inductive Op where
  | kalloc
  | kfree (p : ℕ)
  | uvmcreate
  | procPagetable (t : ℕ)
  | walk (r va : ℕ)
  | mappages (r v p : ℕ) (perm : Pte)
  | uvmalloc (r oldsz newsz : ℕ) (xperm : Pte)
  | uvmdealloc (r oldsz newsz : ℕ)
  | uvmcopy (r r' sz : ℕ)
  | fault (r sp va : ℕ)
  | load (r sp va : ℕ)
  | store (r sp va : ℕ) (b : BitVec 8)
  | uvmfree (r sz : ℕ)
  | procFreepagetable (r sz : ℕ)
  | freeproc (r sz : ℕ)

/-- What an operation returns: a number (zero for a `void` function), a byte that has been loaded, or the contents of the page that has been mapped. Nothing comes back from a panic. -/
inductive Result where
  | none
  | value (z : ℤ)
  | loaded (b : BitVec 8)
  | stored
  | mapped (page : Page)

/-- The access that the entry permits to a user program. -/
def canLoad (pte : Pte) : Bool := pte.has pteV && pte.has pteU && pte.has pteR

def canStore (pte : Pte) : Bool := pte.has pteV && pte.has pteU && pte.has pteW

def Memory.run {α : Type} (s : Memory) (x : KernelM α) (after : α → KState → Memory × Result) : Memory × Result :=
  match x s.kernel with
  | .ok (a, k) => after a k
  | .error e => ({ s with panicked := some e }, .none)

def KState.storeByte (k : KState) (pte : Pte) (offset : ℕ) (b : BitVec 8) : KState :=
  { k with mem := Function.update k.mem pte.page (Page.setByte (k.mem pte.page) offset b) }

def Memory.handleFault (s : Memory) (r sp va : ℕ) : Memory × Result :=
  s.run (handlePageFault sp va (r * pgsize)) fun z k => ({ s with kernel := k }, .value z)

/-- One operation, if the kernel may call it now. It passes a page that it has a pointer to and that is not in use as a trapframe, flags that are flags, and sizes that end below `TRAPFRAME`; only `uvmalloc` may be asked for more, in an address space with a trapframe. -/
def Memory.next (s : Memory) (op : Op) : Option (Memory × Result) :=
  if s.panicked.isSome then none else
  match op with
  | .kalloc => some <| s.run Kernel.kalloc fun pa k =>
    if pa = 0 then ({ s with kernel := k }, .value 0) else ({ s with kernel := k, buffers := pa / pgsize :: s.buffers }, .value 0)
  | .kfree p =>
    if p ∈ s.buffers ∧ p ∉ s.trapframes then
      some <| s.run (Kernel.kfree (p * pgsize)) fun _ k => ({ s with kernel := k, buffers := s.buffers.erase p }, .value 0)
    else none
  | .uvmcreate => some <| s.run Kernel.uvmcreate fun pa k =>
    if pa = 0 then ({ s with kernel := k }, .value 0)
    else ({ s with kernel := k, spaces := ⟨pa / pgsize, none⟩ :: s.spaces }, .value 0)
  | .procPagetable t =>
    if t ∈ s.buffers then
      some <| s.run (Kernel.procPagetable (t * pgsize)) fun pa k =>
        if pa = 0 then ({ s with kernel := k }, .value 0)
        else ({ s with kernel := k, spaces := ⟨pa / pgsize, some t⟩ :: s.spaces }, .value 0)
    else none
  | .walk r va =>
    if r ∈ s.roots then
      some <| s.run (Kernel.walk (r * pgsize) va true) fun _ k => ({ s with kernel := k }, .value 0)
    else none
  | .mappages r v p perm =>
    if r ∈ s.roots ∧ v < userPages ∧ p ∈ s.buffers ∧ p ∉ s.trapframes ∧ pteFlags perm = perm ∧ perm.has pteR then
      some <| s.run (Kernel.mappages (r * pgsize) (v * pgsize) pgsize (p * pgsize) perm) fun z k =>
        if z = 0 then ({ s with kernel := k, buffers := s.buffers.erase p }, .mapped (s.kernel.mem p))
        else ({ s with kernel := k }, .value z)
    else none
  | .uvmalloc r oldsz newsz xperm =>
    if r ∈ s.roots ∧ oldsz ≤ trapframeVa ∧ pteFlags xperm = xperm ∧ (newsz ≤ trapframeVa ∨ ⟨r, none⟩ ∉ s.spaces) then
      some <| s.run (Kernel.uvmalloc (r * pgsize) oldsz newsz xperm) fun sz k => ({ s with kernel := k }, .value sz)
    else none
  | .uvmdealloc r oldsz newsz =>
    if r ∈ s.roots ∧ oldsz ≤ trapframeVa then
      some <| s.run (Kernel.uvmdealloc (r * pgsize) oldsz newsz) fun sz k => ({ s with kernel := k }, .value sz)
    else none
  | .uvmcopy r r' sz =>
    if r ∈ s.roots ∧ r' ∈ s.roots ∧ r ≠ r' ∧ sz ≤ trapframeVa then
      some <| s.run (Kernel.uvmcopy (r * pgsize) (r' * pgsize) sz) fun z k => ({ s with kernel := k }, .value z)
    else none
  | .fault r sp va => if r ∈ s.roots then some (s.handleFault r sp va) else none
  | .load r sp va =>
    if r ∈ s.roots then
      if va < maxva ∧ canLoad (s.view r (va / pgsize)) then
        some (s, .loaded ((s.kernel.mem (s.view r (va / pgsize)).page).byte (va % pgsize)))
      else some (s.handleFault r sp va)
    else none
  | .store r sp va b =>
    if r ∈ s.roots then
      if va < maxva ∧ canStore (s.view r (va / pgsize)) then
        some ({ s with kernel := s.kernel.storeByte (s.view r (va / pgsize)) (va % pgsize) b }, .stored)
      else some (s.handleFault r sp va)
    else none
  | .uvmfree r sz =>
    if r ∈ s.roots ∧ sz ≤ trapframeVa then
      some <| s.run (Kernel.uvmfree (r * pgsize) sz) fun _ k =>
        ({ s with kernel := k, spaces := s.spaces.filter (·.root ≠ r) }, .value 0)
    else none
  | .procFreepagetable r sz =>
    if r ∈ s.roots ∧ sz ≤ trapframeVa then
      some <| s.run (Kernel.procFreepagetable (r * pgsize) sz) fun _ k =>
        ({ s with kernel := k, spaces := s.spaces.filter (·.root ≠ r) }, .value 0)
    else none
  | .freeproc r sz =>
    match (s.spaces.find? (·.root = r)).bind Space.trapframe with
    | none => none
    | some t =>
      if s.trapframes.count t = 1 ∧ sz ≤ trapframeVa then
        some <| s.run (Kernel.freeproc { state := .zombie, pagetable := r * pgsize, trapframe := t * pgsize, sz }) fun _ k =>
          ({ s with kernel := k, spaces := s.spaces.filter (·.root ≠ r), buffers := s.buffers.erase t }, .value 0)
      else none

def Memory.Initial (s : Memory) : Prop :=
  ∃ mem, kinit (boot mem) = .ok ((), s.kernel) ∧ s.spaces = [] ∧ s.buffers = [] ∧ s.panicked = none

/-! ### Private memory -/

/-- What the address spaces hold: the contents of each user page that is mapped. -/
abbrev Reference := ℕ → ℕ → Option Page

/-- The memory that each address space has for itself, after an operation. A successful `uvmcopy` copies every page. -/
def Reference.next (ref : Reference) : Op → Result → Reference
  | .mappages r v _ _, .mapped page => fun x u => if x = r ∧ u = v then some page else ref x u
  | .uvmalloc r oldsz newsz _, .value z =>
    if oldsz ≤ newsz ∧ z = newsz then
      fun x u => if x = r ∧ pages oldsz ≤ u ∧ u < pages newsz then some fun _ => 0 else ref x u
    else ref
  | .uvmdealloc r oldsz newsz, .value _ => fun x u => if x = r ∧ pages newsz ≤ u ∧ u < pages oldsz then none else ref x u
  | .uvmcopy r r' sz, .value z => if z = 0 then fun x u => if x = r' ∧ u < pages sz then ref r u else ref x u else ref
  | .store r _ va b, .stored =>
    fun x u => if x = r ∧ u = va / pgsize then (ref x u).map fun page => page.setByte (va % pgsize) b else ref x u
  | .uvmfree r _, .value _ => fun x u => if x = r then none else ref x u
  | .procFreepagetable r _, .value _ => fun x u => if x = r then none else ref x u
  | .freeproc r _, .value _ => fun x u => if x = r then none else ref x u
  | _, _ => ref

def Reference.byte (ref : Reference) (r va : ℕ) : Option (BitVec 8) := (ref r (va / pgsize)).map fun page => page.byte (va % pgsize)

def Ledger.contents (L : Ledger) (k : KState) : Reference := fun r v =>
  if v < userPages ∧ (L.view k r v).has pteV then some (k.mem (L.view k r v).page) else none

variable {k k' : KState} {L L' : Ledger} {s : Memory} {touched : ℕ → ℕ → Prop} {r v p t : ℕ} {op : Op}

theorem contents_congr {x u : ℕ} (hview : L'.view k' x u = L.view k x u)
    (hpage : u < userPages → (L.view k x u).has pteV = true → k'.mem (L.view k x u).page = k.mem (L.view k x u).page) :
    L'.contents k' x u = L.contents k x u := by
  unfold Ledger.contents
  rw [hview]
  split
  · rename_i hmapped
    rw [hpage hmapped.1 hmapped.2]
  · rfl

theorem contents_high {x u : ℕ} (hu : userPages ≤ u) : L.contents k x u = none := if_neg (by omega)

theorem contents_of_valid {x u : ℕ} (hu : u < userPages) (hvalid : (L.view k x u).has pteV = true) :
    L.contents k x u = some (k.mem (L.view k x u).page) := if_pos ⟨hu, hvalid⟩

theorem contents_of_zero {x u : ℕ} (hzero : L.view k x u = 0) : L.contents k x u = none := by
  refine if_neg fun hmapped => ?_
  rw [hzero, zero_not_valid] at hmapped
  cases hmapped.2

theorem Keeps.contents_eq (h : Keeps touched k L k' L') {x u : ℕ} (hnot : ¬ touched x u) : L'.contents k' x u = L.contents k x u := by
  by_cases hu : u < userPages
  · have hlt := userPages_lt
    exact contents_congr (h.view_eq x u (by omega) hnot) fun _ hvalid => h.page_eq x u hu hnot hvalid
  · rw [contents_high (by omega), contents_high (by omega)]

theorem Keeps.contents_all (h : Keeps noSlot k L k' L') : L'.contents k' = L.contents k := by
  funext x u
  exact h.contents_eq id

/-! ### What holds between operations -/

/-- The ledger fits the machine: the roots are those of the address spaces, each pointer of the kernel is a held reference to a page that no user maps, and the two pages of the kernel are where they belong. -/
structure Memory.Sound (s : Memory) (L : Ledger) : Prop where
  inv : Inv s.kernel L
  root_iff : ∀ r, L.role r = .root ↔ r ∈ s.roots
  nodup : s.roots.Nodup
  distinct : s.buffers.Nodup
  buffers_le : ∀ p, s.buffers.count p ≤ L.held p
  unmapped : ∀ p, p ∈ s.buffers → ∀ x u, u < userPages → (L.view s.kernel x u).has pteV = true → (L.view s.kernel x u).page ≠ p
  frame : ∀ space, space ∈ s.spaces → ∀ t, space.trapframe = some t →
    t ∈ s.buffers ∧ L.view s.kernel space.root userPages = trapframePte t ∧ L.view s.kernel space.root (userPages + 1) = trampolinePte
  bare : ∀ space, space ∈ s.spaces → space.trapframe = none →
    L.view s.kernel space.root userPages = 0 ∧ L.view s.kernel space.root (userPages + 1) = 0

section

variable (h : s.Sound L)
include h

theorem Memory.Sound.view_eq : s.view = L.view s.kernel := by
  funext r v
  unfold Memory.view Ledger.view
  by_cases hr : L.role r = .root
  · rw [if_pos hr, if_pos ((h.root_iff r).mp hr)]
  · rw [if_neg hr, if_neg fun hmem => hr ((h.root_iff r).mpr hmem)]

theorem Memory.Sound.held_pos (hp : p ∈ s.buffers) : 0 < L.held p := by
  have hcount := List.count_pos_iff.mpr hp
  have hle := h.buffers_le p
  omega

theorem Memory.Sound.owned (hp : p ∈ s.buffers) : Owned p s.kernel L := by
  refine ⟨h.held_pos hp, Sharing.refs_eq_zero_iff.mpr fun slot hslot htarget => ?_⟩
  unfold target at htarget
  split at htarget
  · rename_i hvalid
    rw [Option.some.injEq] at htarget
    exact h.unmapped p hp _ _ (mem_userSlots_iff.mp hslot).2 hvalid htarget
  · cases htarget

/-- The address spaces and the pointers stay the same. -/
theorem Memory.Sound.keep (hinv : Inv k' L') (hkeeps : Keeps touched s.kernel L k' L')
    (hheld : ∀ p, L.held p ≤ L'.held p) (huser : ∀ x u, touched x u → u < userPages)
    (hpages : ∀ x u, touched x u → (L'.view k' x u).has pteV = true → L.held (L'.view k' x u).page = 0 ∨
      ∃ x' u', u' < userPages ∧ (L.view s.kernel x' u').has pteV = true ∧ (L.view s.kernel x' u').page = (L'.view k' x u).page) :
    Memory.Sound { s with kernel := k' } L' := by
  have hsmall := userPages_eq
  have hhigh (x u : ℕ) := hkeeps.view_high (r := x) (u := u) (huser x)
  refine ⟨hinv, fun r => (hkeeps.root_iff r).trans (h.root_iff r), h.nodup, h.distinct, fun p => Nat.le_trans (h.buffers_le p) (hheld p),
    fun p hp x u hu hvalid hpage => ?_, fun space hspace t ht => ?_, fun space hspace ht => ?_⟩
  · by_cases ht : touched x u
    · rcases hpages x u ht hvalid with hzero | ⟨x', u', hu', hvalid', hpage'⟩
      · have hpos := h.held_pos hp
        rw [hpage] at hzero
        omega
      · exact h.unmapped p hp x' u' hu' hvalid' (hpage'.trans hpage)
    · have hview := hkeeps.view_eq x u (by omega) ht
      rw [hview] at hvalid hpage
      exact h.unmapped p hp x u hu hvalid hpage
  · rw [hhigh _ _ (by omega) (by omega), hhigh _ _ (by omega) (by omega)]
    exact h.frame space hspace t ht
  · rw [hhigh _ _ (by omega) (by omega), hhigh _ _ (by omega) (by omega)]
    exact h.bare space hspace ht

theorem Memory.Sound.close (hinv : Inv k' L') (hroot : ∀ x, L'.role x = .root ↔ L.role x = .root ∧ x ≠ r)
    (hview : ∀ x u, u < 2 ^ 27 → x ≠ r → L'.view k' x u = L.view s.kernel x u) {buffers : List ℕ}
    (hsub : buffers.Sublist s.buffers) (hcount : ∀ p, buffers.count p ≤ L'.held p)
    (hframes : ∀ space, space ∈ s.spaces → space.root ≠ r → ∀ t, space.trapframe = some t → t ∈ buffers) :
    Memory.Sound ⟨k', s.spaces.filter (·.root ≠ r), buffers, s.panicked⟩ L' := by
  have hsmall := userPages_eq
  have hmem : ∀ space, space ∈ s.spaces.filter (·.root ≠ r) ↔ space ∈ s.spaces ∧ space.root ≠ r := by
    intro space
    rw [List.mem_filter, decide_eq_true_iff]
  refine ⟨hinv, fun x => ?_, ?_, hsub.nodup h.distinct, hcount, fun p hp x u hu hvalid hpage => ?_, fun space hspace t ht => ?_, fun space hspace ht => ?_⟩
  · rw [hroot, h.root_iff]
    unfold Memory.roots
    simp only [List.mem_map, hmem]
    constructor
    · rintro ⟨⟨space, hspace, rfl⟩, hne⟩
      exact ⟨space, ⟨hspace, hne⟩, rfl⟩
    · rintro ⟨space, ⟨hspace, hne⟩, rfl⟩
      exact ⟨⟨space, hspace, rfl⟩, hne⟩
  · exact (List.filter_sublist.map _).nodup h.nodup
  · have hx : x ≠ r := by
      rintro rfl
      exact ((hroot x).mp (root_of_valid hvalid)).2 rfl
    rw [hview x u (by omega) hx] at hvalid hpage
    exact h.unmapped p (hsub.subset hp) x u hu hvalid hpage
  · obtain ⟨hspace', hne⟩ := (hmem space).mp hspace
    obtain ⟨_, hframe, htramp⟩ := h.frame space hspace' t ht
    rw [hview _ _ (by omega) hne, hview _ _ (by omega) hne]
    exact ⟨hframes space hspace' hne t ht, hframe, htramp⟩
  · obtain ⟨hspace', hne⟩ := (hmem space).mp hspace
    rw [hview _ _ (by omega) hne, hview _ _ (by omega) hne]
    exact h.bare space hspace' ht

end

theorem Memory.Initial.sound (h : s.Initial) : ∃ L, s.Sound L ∧ ¬ s.kernel.Wrapped ∧ L.contents s.kernel = fun _ _ => none := by
  obtain ⟨mem, hkinit, hspaces, hbuffers, _⟩ := h
  obtain ⟨free, hfresh⟩ := (post_kinit mem).of_ok hkinit
  have hview := freshLedger_view free s.kernel
  have hroots : s.roots = [] := by rw [Memory.roots, hspaces, List.map_nil]
  have hnoroot : ∀ r, (freshLedger free).role r ≠ .root := by
    intro r hr
    rcases freshLedger_role free r with ⟨hrole, _⟩ | ⟨hrole, _⟩ <;> rw [hrole] at hr <;> cases hr
  refine ⟨freshLedger free, ⟨hfresh.inv, fun r => ?_, ?_, ?_, fun p => ?_, fun p hp => ?_, fun space hspace => ?_, fun space hspace => ?_⟩, ?_, ?_⟩
  · rw [hroots]
    exact ⟨fun hr => absurd hr (hnoroot r), nofun⟩
  · rw [hroots]
    exact List.nodup_nil
  · rw [hbuffers]
    exact List.nodup_nil
  · rw [hbuffers]
    exact Nat.zero_le _
  · rw [hbuffers] at hp
    cases hp
  · rw [hspaces] at hspace
    cases hspace
  · rw [hspaces] at hspace
    cases hspace
  · rintro ⟨p, hp⟩
    rw [hfresh.count_eq] at hp
    omega
  · funext r v
    exact contents_of_zero (hview r v)

end AdvancedXv6.Kernel
