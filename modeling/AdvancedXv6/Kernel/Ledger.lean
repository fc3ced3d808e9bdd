import AdvancedXv6.Kernel.Tables
import AdvancedXv6.Lib.Sharing

/-!
# The ledger of physical pages

What the kernel means by its pages is not in its memory. The ledger writes it down: the role of each page, the free list, and for each page the number of references that are held by a pointer and not by a page table. `Inv` ties it to the memory and the counts. It says of a counted page that its count covers the references in the page tables and those held, or is negative: a count that has wrapped around can only lead to a panic.

References move between the columns of the ledger. `kalloc` gives a held reference; mapping a page turns a held reference into an entry; clearing an entry gives the reference back to be freed.
-/

namespace AdvancedXv6.Kernel

open Prog

def userPages : ℕ := trapframeVa / pgsize

theorem userPages_eq : userPages = 2 ^ 26 - 2 := by decide

structure Ledger where
  role : ℕ → Role
  free : List ℕ
  held : ℕ → ℕ

def Ledger.view (L : Ledger) (k : KState) (r v : ℕ) : Pte := if L.role r = .root then entry k.mem r v else 0

@[irreducible] def userSlots : Finset (ℕ × ℕ) := Finset.range 0x88000 ×ˢ Finset.range userPages

theorem mem_userSlots_iff {r v : ℕ} : (r, v) ∈ userSlots ↔ r < 0x88000 ∧ v < userPages := by
  unfold userSlots
  rw [Finset.mem_product, Finset.mem_range, Finset.mem_range]

def target (view : ℕ → ℕ → Pte) (s : ℕ × ℕ) : Option ℕ :=
  if (view s.1 s.2).has pteV then some (view s.1 s.2).page else none

theorem target_eq_some {view : ℕ → ℕ → Pte} {s : ℕ × ℕ} {p : ℕ} (h : target view s = some p) :
    (view s.1 s.2).has pteV = true ∧ (view s.1 s.2).page = p := by
  unfold target at h
  split at h
  · exact ⟨‹_›, Option.some.inj h⟩
  · cases h

def userRefs (view : ℕ → ℕ → Pte) (p : ℕ) : ℕ := Sharing.refs userSlots (target view) p

/-- A leaf entry of the user part: unused, or a readable mapping of a counted page. -/
def UserEntry (role : ℕ → Role) (pte : Pte) : Prop :=
  pte = 0 ∨ (pte.has pteV = true ∧ pte.has pteR = true ∧ role pte.page = .data)

/-- A leaf entry above the user part: unused, or one of the two pages that only the kernel uses. -/
def KernelEntry (v : ℕ) (pte : Pte) : Prop :=
  pte = 0 ∨ (v < 2 ^ 26 ∧ pte.has pteV = true ∧ pte.has pteR = true ∧ pte.has pteU = false ∧ pte.has pteC = false)

/-- The entries, the counts and the held references fit together. A page with several mappings has them all at the same virtual page, and none of them is writable. -/
structure Shares (view : ℕ → ℕ → Pte) (role : ℕ → Role) (count : ℕ → ℤ) (held : ℕ → ℕ) : Prop where
  user : ∀ r v, v < userPages → UserEntry role (view r v)
  kernel : ∀ r v, userPages ≤ v → v < 2 ^ 27 → KernelEntry v (view r v)
  shared : ∀ r v r' v', v < userPages → v' < userPages → (view r v).has pteV = true → (view r' v').has pteV = true →
    (view r v).page = (view r' v').page → v = v' ∧ (r = r' ∨ (view r v).has pteW = false)
  count_le : ∀ p, role p = .data → count p < 0 ∨ (userRefs view p + held p : ℕ) ≤ count p
  held_data : ∀ p, 0 < held p → role p = .data

structure Inv (k : KState) (L : Ledger) : Prop where
  chain : FreeChain k.mem k.freelist L.free
  nodup : L.free.Nodup
  free_iff : ∀ p, p ∈ L.free ↔ L.role p = .free
  outside_iff : ∀ p, L.role p = .outside ↔ ¬ Allocatable p
  count_free : ∀ p, L.role p = .free → k.pageRefCount p = 0
  count_table : ∀ p, (L.role p).isTable = true → k.pageRefCount p = 1
  count_lt : ∀ p, k.pageRefCount p < 2 ^ 31
  tables : Tables k.mem L.role
  shares : Shares (L.view k) L.role k.pageRefCount L.held

variable {k : KState} {L : Ledger} {r v p : ℕ} {q : PtePtr}

theorem Inv.allocatable (h : Inv k L) (hp : L.role p ≠ .outside) : Allocatable p := by
  by_contra hnot
  exact hp ((h.outside_iff p).mpr hnot)

theorem Inv.lt (h : Inv k L) (hp : L.role p ≠ .outside) : p < 0x88000 := (allocatable_iff.mp (h.allocatable hp)).2

theorem Inv.notMem_free (h : Inv k L) (hp : L.role p ≠ .free) : p ∉ L.free := fun hmem => hp ((h.free_iff p).mp hmem)

theorem Inv.freelist_eq_zero_iff (h : Inv k L) : k.freelist = 0 ↔ L.free = [] := by
  constructor
  · intro hzero
    have hchain := h.chain
    rw [hzero] at hchain
    exact hchain.head_eq_zero
  · intro hempty
    have hchain := h.chain
    rw [hempty] at hchain
    exact hchain

theorem view_root (hr : L.role r = .root) : L.view k r v = entry k.mem r v := if_pos hr

theorem view_of_not_root (hr : L.role r ≠ .root) (u : ℕ) : L.view k r u = 0 := if_neg hr

theorem root_of_valid (hvalid : (L.view k r v).has pteV = true) : L.role r = .root := by
  by_contra hr
  rw [Ledger.view, if_neg hr, zero_not_valid] at hvalid
  cases hvalid

theorem Inv.mem_userSlots (h : Inv k L) (hr : L.role r = .root) (hv : v < userPages) : (r, v) ∈ userSlots := by
  have hlt := h.lt (p := r) (by rw [hr]; nofun)
  exact mem_userSlots_iff.mpr ⟨hlt, hv⟩

theorem UserEntry.data {role : ℕ → Role} {pte : Pte} (h : UserEntry role pte) (hvalid : pte.has pteV = true) :
    role pte.page = .data := by
  rcases h with rfl | ⟨_, _, hdata⟩
  · rw [zero_not_valid] at hvalid
    cases hvalid
  · exact hdata

section

variable (h : Inv k L) (hv : v < userPages) (hvalid : (L.view k r v).has pteV = true)
include h hv hvalid

theorem Inv.data_of_valid :
    L.role (L.view k r v).page = .data := (h.shares.user r v hv).data hvalid

theorem Inv.one_le_userRefs :
    1 ≤ userRefs (L.view k) (L.view k r v).page :=
  Sharing.one_le_refs (h.mem_userSlots (root_of_valid hvalid) hv) (if_pos hvalid)

end

theorem not_valid_of_userRefs (h : Inv k L) (hzero : userRefs (L.view k) p = 0) (hv : v < userPages)
    (hpage : (L.view k r v).page = p) : (L.view k r v).has pteV = false := by
  by_contra hvalid
  rw [Bool.not_eq_false] at hvalid
  have hone := h.one_le_userRefs hv hvalid
  rw [hpage] at hone
  omega

/-! ### One entry changes -/

def mapsTo (v : ℕ) (pte : Pte) (p : ℕ) : ℕ := if v < userPages ∧ pte.has pteV = true ∧ pte.page = p then 1 else 0

theorem userPages_lt : userPages < 2 ^ 27 := by decide

theorem userRefs_set {view view' : ℕ → ℕ → Pte} {pte : Pte} (hslot : v < userPages → (r, v) ∈ userSlots)
    (hview : ∀ x u, u < 2 ^ 27 → view' x u = if x = r ∧ u = v then pte else view x u) (p : ℕ) :
    userRefs view' p + mapsTo v (view r v) p = userRefs view p + mapsTo v pte p := by
  have hlt := userPages_lt
  have hother : ∀ x u, (x, u) ∈ userSlots → ¬ (x = r ∧ u = v) → target view' (x, u) = target view (x, u) := by
    intro x u hxu hne
    have hu := (mem_userSlots_iff.mp hxu).2
    have heq : view' x u = view x u := by rw [hview x u (by omega), if_neg hne]
    simp only [target, heq]
  by_cases hv : v < userPages
  · have hrefs := Sharing.refs_change (hslot hv)
      (fun t ht hne => hother t.1 t.2 ht fun heq => hne (Prod.ext heq.1 heq.2)) p
    have hold : (if target view (r, v) = some p then 1 else 0) = mapsTo v (view r v) p := by
      simp [target, mapsTo, hv]
    have hnew : (if target view' (r, v) = some p then 1 else 0) = mapsTo v pte p := by
      simp [target, mapsTo, hv, hview r v (by omega)]
    rw [hold, hnew] at hrefs
    exact hrefs
  · have hsame : userRefs view' p = userRefs view p := Sharing.refs_congr (fun t ht => hother t.1 t.2 ht fun heq => by
      have hu := (mem_userSlots_iff.mp ht).2
      omega) p
    simp [mapsTo, hv, hsame]

/-- An entry may take a new value if the value is sound, nobody else sees the page with a write permission, and the references it takes are held. -/
theorem Shares.set {view view' : ℕ → ℕ → Pte} {role : ℕ → Role} {count : ℕ → ℤ} {held held' : ℕ → ℕ} {pte : Pte}
    (h : Shares view role count held) (hslot : v < userPages → (r, v) ∈ userSlots) (hv : v < 2 ^ 27)
    (hview : ∀ x u, u < 2 ^ 27 → view' x u = if x = r ∧ u = v then pte else view x u)
    (huser : v < userPages → UserEntry role pte) (hkernel : userPages ≤ v → KernelEntry v pte)
    (hshared : v < userPages → pte.has pteV = true → ∀ x u, u < userPages → ¬ (x = r ∧ u = v) →
      (view x u).has pteV = true → (view x u).page = pte.page →
      u = v ∧ (view x u).has pteW = false ∧ pte.has pteW = false)
    (hheld : ∀ p, held' p + mapsTo v pte p ≤ held p + mapsTo v (view r v) p) : Shares view' role count held' := by
  have hlt := userPages_lt
  refine ⟨fun x u hu => ?_, fun x u hu hu' => ?_, fun x u x' u' hu hu' hvalid hvalid' hpage => ?_, fun p hp => ?_, fun p hp => ?_⟩
  · rw [hview x u (by omega)]
    split
    · rename_i heq
      exact huser (heq.2 ▸ hu)
    · exact h.user x u hu
  · rw [hview x u hu']
    split
    · rename_i heq
      rw [heq.2]
      exact hkernel (heq.2 ▸ hu)
    · exact h.kernel x u hu hu'
  · rw [hview x u (by omega)] at hvalid hpage ⊢
    rw [hview x' u' (by omega)] at hvalid' hpage
    by_cases heq : x = r ∧ u = v
    · obtain ⟨rfl, rfl⟩ := heq
      by_cases heq' : x' = x ∧ u' = u
      · exact ⟨heq'.2.symm, .inl heq'.1.symm⟩
      · rw [if_pos ⟨rfl, rfl⟩] at hvalid hpage ⊢
        rw [if_neg heq'] at hvalid' hpage
        obtain ⟨huv, _, hread⟩ := hshared hu hvalid x' u' hu' heq' hvalid' hpage.symm
        exact ⟨huv.symm, .inr hread⟩
    · rw [if_neg heq] at hvalid hpage ⊢
      by_cases heq' : x' = r ∧ u' = v
      · rw [if_pos heq'] at hvalid' hpage
        obtain ⟨rfl, rfl⟩ := heq'
        obtain ⟨huv, hread, _⟩ := hshared hu' hvalid' x u hu heq hvalid hpage
        exact ⟨huv, .inr hread⟩
      · rw [if_neg heq'] at hvalid' hpage
        exact h.shared x u x' u' hu hu' hvalid hvalid' hpage
  · have hrefs := userRefs_set hslot hview p
    have htrade := hheld p
    rcases h.count_le p hp with hneg | hle
    · exact .inl hneg
    · right
      omega
  · have htrade := hheld p
    rcases Nat.eq_zero_or_pos (held p) with hzero | hpos
    · have hmaps : mapsTo v (view r v) p = 1 ∨ mapsTo v (view r v) p = 0 := by
        unfold mapsTo
        split
        · exact .inl rfl
        · exact .inr rfl
      have hone : mapsTo v (view r v) p = 1 := by omega
      unfold mapsTo at hone
      split at hone
      · rename_i hmaps'
        rw [← hmaps'.2.2]
        exact (h.user r v hmaps'.1).data hmaps'.2.1
      · omega
    · exact h.held_data p hpos

theorem Tables.view_write (h : Tables k.mem L.role) (hr : L.role r = .root) (hv : v < 2 ^ 27)
    (hslot : slot k.mem r (v * pgsize) = some q) (pte : Pte) (x u : ℕ) (hu : u < 2 ^ 27) :
    L.view (k.write q pte) x u = if x = r ∧ u = v then pte else L.view k x u := by
  unfold Ledger.view
  by_cases hx : L.role x = .root
  · rw [if_pos hx, if_pos hx]
    exact h.entry_write hr hx hv hu hslot pte
  · rw [if_neg hx, if_neg hx, if_neg]
    rintro ⟨rfl, _⟩
    exact hx hr

section

variable (h : Inv k L) (hr : L.role r = .root) (hv : v < 2 ^ 27) (hslot : slot k.mem r (v * pgsize) = some q)
include h hr hv hslot

theorem Ledger.view_write (pte : Pte) (x u : ℕ) (hu : u < 2 ^ 27) :
    L.view (k.write q pte) x u = if x = r ∧ u = v then pte else L.view k x u :=
  h.tables.view_write hr hv hslot pte x u hu

theorem Inv.write {pte : Pte} {held' : ℕ → ℕ} (huser : v < userPages → UserEntry L.role pte)
    (hkernel : userPages ≤ v → KernelEntry v pte)
    (hshared : v < userPages → pte.has pteV = true → ∀ x u, u < userPages → ¬ (x = r ∧ u = v) →
      (L.view k x u).has pteV = true → (L.view k x u).page = pte.page →
      u = v ∧ (L.view k x u).has pteW = false ∧ pte.has pteW = false)
    (hheld : ∀ p, held' p + mapsTo v pte p ≤ L.held p + mapsTo v (L.view k r v) p) :
    Inv (k.write q pte) { L with held := held' } := by
  have hleaf := ((h.tables.slot_eq_some_iff hr).mp hslot).1
  refine ⟨?_, h.nodup, h.free_iff, h.outside_iff, h.count_free, h.count_table, h.count_lt, ?_, ?_⟩
  · exact h.chain.update (h.notMem_free (by rw [hleaf]; nofun)) _
  · refine h.tables.congr fun x hx => Function.update_of_ne ?_ _ _
    rintro rfl
    rw [hleaf] at hx
    cases hx
  · exact h.shares.set (h.mem_userSlots hr) hv (fun x u hu => Ledger.view_write h hr hv hslot pte x u hu) huser hkernel
      hshared hheld

end

/-! ### The ledger after `kinit` -/

def freshLedger (free : List ℕ) : Ledger :=
  { role := fun p => if 0x80243 ≤ p ∧ p < 0x88000 then .free else .outside, free, held := fun _ => 0 }

theorem freshLedger_role (free : List ℕ) (p : ℕ) :
    (freshLedger free).role p = .free ∧ Allocatable p ∨ (freshLedger free).role p = .outside ∧ ¬ Allocatable p := by
  rw [allocatable_iff]
  unfold freshLedger
  by_cases hp : 0x80243 ≤ p ∧ p < 0x88000
  · exact .inl ⟨if_pos hp, hp⟩
  · exact .inr ⟨if_neg hp, hp⟩

theorem freshLedger_view (free : List ℕ) (k : KState) (r v : ℕ) : (freshLedger free).view k r v = 0 := by
  refine view_of_not_root (fun hr => ?_) v
  rcases freshLedger_role free r with ⟨hrole, _⟩ | ⟨hrole, _⟩ <;> rw [hrole] at hr <;> cases hr

theorem FreshRange.inv {free : List ℕ} (h : FreshRange 0x80243 0x88000 k free) : Inv k (freshLedger free) := by
  have hrole := freshLedger_role free
  have hview := freshLedger_view free k
  have htable : ∀ p, ((freshLedger free).role p).isTable = false := by
    intro p
    rcases hrole p with ⟨hp, _⟩ | ⟨hp, _⟩ <;> rw [hp] <;> rfl
  have hnode : ∀ p, ((freshLedger free).role p).isTable = true → False := fun p hp => by rw [htable p] at hp; cases hp
  have hdata : ∀ p, (freshLedger free).role p ≠ .data := by
    intro p
    rcases hrole p with ⟨hp, _⟩ | ⟨hp, _⟩ <;> rw [hp] <;> nofun
  have hinvalid : ∀ r v, ((freshLedger free).view k r v).has pteV = true → False := fun r v hvalid => by
    rw [hview, zero_not_valid] at hvalid
    cases hvalid
  refine ⟨h.chain, h.nodup, fun p => ?_, fun p => ?_, fun p _ => h.count_eq p, fun p hp => (hnode p hp).elim, fun p => by rw [h.count_eq]; decide, ?_, ?_⟩
  · rw [show p ∈ (freshLedger free).free ↔ p ∈ free from Iff.rfl, h.mem_iff]
    rcases hrole p with ⟨hp, halloc⟩ | ⟨hp, halloc⟩ <;> rw [allocatable_iff] at halloc <;> rw [hp]
    · exact ⟨fun _ => rfl, fun _ => halloc⟩
    · exact ⟨fun hmem => absurd hmem halloc, nofun⟩
  · rcases hrole p with ⟨hp, halloc⟩ | ⟨hp, halloc⟩ <;> rw [hp]
    · exact ⟨nofun, fun hnot => absurd halloc hnot⟩
    · exact ⟨fun _ => halloc, fun _ => rfl⟩
  · exact ⟨fun r i hr => (hnode r (by rw [hr]; rfl)).elim, fun m r i j hm => (hnode m (by rw [hm]; rfl)).elim,
      fun m r i hm => (hnode m (by rw [hm]; rfl)).elim, fun t r i j ht => (hnode t (by rw [ht]; rfl)).elim,
      fun p i hp => (hnode p (Role.isTable_of_isNode hp)).elim⟩
  · exact ⟨fun r v _ => .inl (hview r v), fun r v _ _ => .inl (hview r v), fun r v _ _ _ _ hvalid => (hinvalid r v hvalid).elim,
      fun p hp => absurd hp (hdata p), fun p hp => absurd hp (Nat.lt_irrefl 0)⟩

end AdvancedXv6.Kernel
