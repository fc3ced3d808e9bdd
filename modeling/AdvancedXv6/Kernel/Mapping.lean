import AdvancedXv6.Kernel.Growth

/-!
# Mapping pages

`uvmcreate`, `mappages` of a range, and `uvmalloc`, with the books in hand. A page that is held becomes a page that is mapped: the reference moves from the pointer to the entry. When memory runs out in the middle, `uvmalloc` takes back what it has done, and the page tables are as before.
-/

namespace AdvancedXv6.Kernel

open Function Prog

variable {k k' k'' : KState} {L L' L'' : Ledger} {r v p n : ℕ} {q : PtePtr} {perm pte xperm : Pte} {E : Panic → Prop} {Q : ℕ → KState → Prop}

/-! ### From a held reference to an entry -/

theorem mapsTo_of_ne {x : ℕ} (h : pte.page ≠ x) (v : ℕ) : mapsTo v pte x = 0 := by
  unfold mapsTo
  rw [if_neg]
  rintro ⟨_, _, hpage⟩
  exact h hpage

theorem mapsTo_le_one (v : ℕ) (pte : Pte) (x : ℕ) : mapsTo v pte x ≤ 1 := by
  unfold mapsTo
  split
  · exact Nat.le_refl 1
  · exact Nat.zero_le 1

theorem Inv.map_held (h : Inv k L) (hr : L.role r = .root) (hv : v < userPages)
    (hslot : slot k.mem r (v * pgsize) = some q) (hvalid : pte.has pteV = true)
    (hread : pte.has pteR = true) (hpage : pte.page = p) (hheld : 0 < L.held p)
    (hshared : ∀ x u, u < userPages → ¬ (x = r ∧ u = v) → (L.view k x u).has pteV = true → (L.view k x u).page = p →
      u = v ∧ (L.view k x u).has pteW = false ∧ pte.has pteW = false) :
    Inv (k.write q pte) { L with held := update L.held p (L.held p - 1) } := by
  have hlt := userPages_lt
  refine h.write hr (by omega) hslot (fun _ => .inr ⟨hvalid, hread, by rw [hpage]; exact h.shares.held_data p hheld⟩) (fun hle => by omega)
    (fun _ _ x u hu hne hval hpg => hshared x u hu hne hval (hpg.trans hpage)) fun x => ?_
  by_cases hx : x = p
  · subst hx
    have hle := mapsTo_le_one v pte x
    rw [update_self]
    omega
  · rw [update_of_ne hx, mapsTo_of_ne (by rw [hpage]; exact fun heq => hx heq.symm)]
    omega

/-! ### `uvmcreate` -/

structure Created (r : ℕ) (k : KState) (L : Ledger) (k' : KState) (L' : Ledger) : Prop where
  inv : Inv k' L'
  fresh : L.role r = .free
  root_iff : ∀ x, L'.role x = .root ↔ L.role x = .root ∨ x = r
  view_eq : L'.view k' = L.view k
  page_eq : ∀ x u, u < userPages → (L.view k x u).has pteV = true → k'.mem (L.view k x u).page = k.mem (L.view k x u).page
  held_eq : L'.held = L.held
  count_eq : ∀ x, x ≠ r → k'.pageRefCount x = k.pageRefCount x
  zero : ∀ l, k'.mem r l = 0
  free_le : L.free.length ≤ L'.free.length + 1
  wrapped : k'.Wrapped → k.Wrapped

theorem Inv.allocatable_ne_zero (h : Inv k L) (hp : L.role p ≠ .outside) : p * pgsize ≠ 0 := h.forest.address_ne_zero hp

theorem Planted.created (h : Planted r k L k' L') (hinv : Inv k L) : Created r k L k' { L' with held := L.held } := by
  have hrenewed := (h.kept hinv.forest).renewed hinv.forest h.forest (fun x hx => ?_) fun x u _ => by rw [h.view_eq]
  · refine ⟨hrenewed.inv hinv, h.old_free hinv.forest, fun x => ?_, h.view_eq, fun x u hu hvalid => hrenewed.page_eq hinv hu hvalid, rfl,
      fun x hx => by rw [h.count_eq, update_of_ne hx], h.empty, ?_, hrenewed.wrapped⟩
    · by_cases hx : x = r
      · rw [hx]
        exact ⟨fun _ => .inr rfl, fun _ => h.root⟩
      · rw [or_iff_left hx, ← h.role_of_ne hx]
    · rw [h.free_eq, List.length_cons]
  · by_cases hxr : x = r
    · rw [hxr, h.root]
      nofun
    · rw [h.role_of_ne hxr, hx]
      nofun

theorem Inv.post_uvmcreate (h : Inv k L) (hfull : L.free = [] → Q 0 k)
    (hcreated : ∀ r k' L', Created r k L k' L' → Q (r * pgsize) k') : Post uvmcreate k Q E :=
  h.forest.post_uvmcreate hfull fun r k' _ hplanted => hcreated r k' _ (hplanted.created h)

/-! ### `mappages` of a range -/

def pteAt (r a : ℕ) (k : KState) : Pte :=
  match walk (r * pgsize) a false k with
  | .ok (some q, _) => k.mem q.page q.index
  | _ => 0

variable {a pa va size : ℕ}

theorem walk_eq (ha : a < maxva) (k : KState) : walk (r * pgsize) a false k = .ok (slot k.mem r a, k) := by
  have hpost : Post (walk (r * pgsize) a false) k (fun o k' => o = slot k.mem r a ∧ k' = k) fun _ => False := post_walk ha ⟨rfl, rfl⟩
  obtain ⟨_, _, hrun, rfl, rfl⟩ := hpost.exists_ok
  exact hrun

theorem pteAt_eq (hr : L.role r = .root) (ha : a < maxva) : pteAt r a k = L.view k r (a / pgsize) := by
  rw [pteAt, walk_eq ha, view_root hr]
  cases hslot : slot k.mem r a with
  | none => exact (entry_of_none (by rw [slot_page, hslot])).symm
  | some q => exact (entry_of_slot (by rw [slot_page, hslot])).symm

structure Mapped (r v n pa : ℕ) (perm : Pte) (k : KState) (L : Ledger) (k' : KState) (L' : Ledger) : Prop where
  forest : Forest k' L'
  root : L'.role r = .root
  view_eq : ∀ x u, u < 2 ^ 27 → L'.view k' x u = if x = r ∧ v ≤ u ∧ u < v + n then pa2pte (pa + (u - v) * pgsize) ||| perm ||| pteV else L.view k x u
  length_le : L.free.length ≤ L'.free.length + 2 * n

theorem Mapped.page {m : ℕ} {k1 : KState} {L1 : Ledger} (h : Mapped r v n pa perm k L k' L')
    (hn : v + n < 2 ^ 27) (hsprouted : Sprouted r m k' L' k1 L1) (hm : m ≤ 2)
    (hslot : slot k1.mem r ((v + n) * pgsize) = some q) : Mapped r v (n + 1) pa perm k L (k1.write q (pa2pte (pa + n * pgsize) ||| perm ||| pteV)) L1 := by
  have hr : L1.role r = .root := role_kept hsprouted.role_eq h.root nofun
  have hwritten := hsprouted.forest.rewritten hr hn hslot (pa2pte (pa + n * pgsize) ||| perm ||| pteV)
  have hlength := h.length_le
  have hlength' := hsprouted.length_eq
  refine ⟨hwritten.forest, hr, fun x u hu => ?_, by omega⟩
  rw [hwritten.view_eq x u hu, hsprouted.view_eq, h.view_eq x u hu]
  by_cases hlast : u = v + n
  · subst hlast
    simp
  · have hiff : u < v + (n + 1) ↔ u < v + n := by omega
    simp only [hlast, and_false, if_false, hiff]

/-- Each page needs at most two new pages of the table. -/
theorem Forest.post_mappages_range (pa : ℕ) (perm : Pte) (h : Forest k L) (hr : L.role r = .root)
    (hsize : 1 ≤ size) (hva : va + size ≤ maxva)
    (hn : (va + size - 1) / pgsize + 1 = va / pgsize + n)
    (hfree : ∀ u, va / pgsize ≤ u → u < va / pgsize + n → (L.view k r u).has pteV = false) :
    Post (mappages (r * pgsize) va size pa perm) k
      (fun ret k' => (2 * n ≤ L.free.length → ret = 0) ∧
        (ret = 0 → ∃ L', Mapped r (va / pgsize) n pa perm k L k' L')) fun _ => False := by
  have hlast : (va + size - 1) / pgsize < 2 ^ 26 := by
    unfold pgsize maxva at *
    omega
  have hrounds : (va + size - 1) / pgsize - va / pgsize + 1 = n := by
    have hle : va / pgsize ≤ (va + size - 1) / pgsize := Nat.div_le_div_right (by omega)
    omega
  rw [mappages_eq _ hsize hva, hrounds]
  refine Post.step (R := fun b k' => (2 * n ≤ L.free.length → b.getD 0 = 0) ∧
    (b.getD 0 = 0 → ∃ L', Mapped r (va / pgsize) n pa perm k L k' L')) ?_ fun b k' hb => Post.pure hb
  refine Post.loop (I := fun i k' => ∃ L', Mapped r (va / pgsize) i pa perm k L k' L')
    ⟨L, h, hr, fun x u _ => ?_, Nat.le_add_right ..⟩ (fun i k' hi hk' => ?_)
    fun k' hk' => ⟨fun _ => rfl, fun _ => hk'⟩
  · rw [if_neg (by omega)]
  obtain ⟨L', hmapped⟩ := hk'
  rw [pgrounddown, ← Nat.add_mul]
  have hmissing := L'.missing_le r ((va / pgsize + i) * pgsize)
  refine hmapped.forest.post_mappagesPage hmapped.root (by omega) (fun hvalid => ?_)
    (fun m k1 L1 hsprouted hempty hm => ⟨fun hroom => ?_, fun hzero => absurd hzero (by decide)⟩)
    fun q k1 L1 hsprouted _ _ hslot => ?_
  · rw [hmapped.view_eq _ _ (by omega), if_neg (by omega), hfree _ (by omega) (by omega)] at hvalid
    cases hvalid
  · have hlength := hmapped.length_le
    have hlength' := hsprouted.length_eq
    rw [hempty, List.length_nil] at hlength'
    omega
  · rw [← Nat.mul_sub_right_distrib, Nat.add_sub_cancel_left]
    exact ⟨L1, hmapped.page (by omega) hsprouted hmissing hslot⟩

/-- Where no page of the range is mapped, `mappages` returns; and if it returns 0, then `walk` finds the new entries in the range and the old ones elsewhere, each page with a slot of its own. -/
theorem mappages_maps (va size pa : ℕ) (perm : Pte) (h : Forest k L) (hr : L.role r = .root) (hsize : 1 ≤ size) (hva : va + size ≤ maxva)
    (hfree : ∀ a, va / pgsize ≤ a / pgsize → a / pgsize ≤ (va + size - 1) / pgsize → (pteAt r a k).has pteV = false) :
    ∃ ret k', mappages (r * pgsize) va size pa perm k = .ok (ret, k') ∧ (ret = 0 → ∃ L', Forest k' L' ∧ L'.role r = .root ∧
      (∀ a < maxva, pteAt r a k' = if va / pgsize ≤ a / pgsize ∧ a / pgsize ≤ (va + size - 1) / pgsize
        then pa2pte (pa + (a / pgsize - va / pgsize) * pgsize) ||| perm ||| pteV else pteAt r a k) ∧
      ∀ a < maxva, ∀ b < maxva, ∀ q, walk (r * pgsize) a false k' = .ok (some q, k') →
        walk (r * pgsize) b false k' = .ok (some q, k') → a / pgsize = b / pgsize) := by
  have hpage {a : ℕ} (ha : a < maxva) : a / pgsize < 2 ^ 26 := by
    unfold pgsize maxva at *
    omega
  have hlast := hpage (show va + size - 1 < maxva by omega)
  obtain ⟨n, hn⟩ := Nat.exists_eq_add_of_le (show va / pgsize ≤ (va + size - 1) / pgsize + 1 from (Nat.div_le_div_right (by omega)).trans (Nat.le_succ _))
  have hpost := h.post_mappages_range pa perm hr hsize hva hn fun u hu hu' => by
    have hview := hfree (u * pgsize) (by rwa [div_pgsize]) (by rw [div_pgsize]; omega)
    rwa [pteAt_eq hr (page_lt_maxva (by omega)), div_pgsize] at hview
  obtain ⟨ret, k', hrun, _, hmaps⟩ := hpost.exists_ok
  refine ⟨ret, k', hrun, fun hzero => ?_⟩
  obtain ⟨L', hmapped⟩ := hmaps hzero
  refine ⟨L', hmapped.forest, hmapped.root, fun a ha => ?_, fun a ha b hb q hq hq' => ?_⟩
  · have hlt := hpage ha
    have hiff : a / pgsize < va / pgsize + n ↔ a / pgsize ≤ (va + size - 1) / pgsize := by omega
    rw [pteAt_eq hmapped.root ha, pteAt_eq hr ha, hmapped.view_eq r _ (by omega)]
    simp only [true_and, hiff]
  · rw [walk_eq ha, ← slot_page] at hq
    rw [walk_eq hb, ← slot_page] at hq'
    have hlt := hpage ha
    have hlt' := hpage hb
    exact (hmapped.forest.tables.slot_inj hmapped.root hmapped.root (by omega) (by omega)
      (congrArg Prod.fst (Except.ok.inj hq)) (congrArg Prod.fst (Except.ok.inj hq'))).2

/-- Three bytes across a page boundary, in the first page table of a fresh kernel. -/
theorem mappages_maps_across : ∃ k L r k', Forest k L ∧ L.role r = .root ∧
    mappages (r * pgsize) 4095 3 0x80000000 pteW k = .ok (0, k') ∧
    ∃ L', Forest k' L' ∧ pteAt r 4096 k' = pa2pte 0x80001000 ||| pteW ||| pteV := by
  obtain ⟨_, free, r, k, L, hfresh, hplanted⟩ := exists_planted
  have hlength : (freshLedger free).free.length = 0x88000 - 0x80243 := hfresh.length_eq
  rw [hplanted.free_eq, List.length_cons] at hlength
  have hview : ∀ u, (L.view k r u).has pteV = false := by
    intro u
    rw [hplanted.view_eq, freshLedger_view]
    exact zero_not_valid
  obtain ⟨ret, k', hrun, hmaps⟩ := mappages_maps 4095 3 0x80000000 pteW hplanted.forest
    hplanted.root (by decide) (by decide) fun a _ ha => by
      rw [pteAt_eq hplanted.root (by unfold pgsize maxva at *; omega)]
      exact hview _
  have hpost : Post (mappages (r * pgsize) 4095 3 0x80000000 pteW) k _ fun _ => False :=
    hplanted.forest.post_mappages_range (n := 2) 0x80000000 pteW hplanted.root (by decide)
      (by decide) rfl fun u _ _ => hview u
  obtain ⟨ret', k1, hrun', hret, _⟩ := hpost.exists_ok
  obtain ⟨rfl, rfl⟩ := Prod.mk.inj (Except.ok.inj (hrun.symm.trans hrun'))
  obtain rfl := hret (by omega)
  obtain ⟨L', hforest, _, hpte, _⟩ := hmaps rfl
  exact ⟨k, L, r, k', hplanted.forest, hplanted.root, hrun, L', hforest, hpte 4096 (by decide)⟩

/-! ### `uvmalloc` -/

structure Allocated (r v n : ℕ) (k : KState) (L : Ledger) (k' : KState) (L' : Ledger) : Prop where
  evolves : Evolves (slotRange r v n) k L k' L'
  unused : ∀ u, v ≤ u → u < v + n → L.view k r u = 0
  valid : ∀ u, v ≤ u → u < v + n → (L'.view k' r u).has pteV = true
  mem_eq : ∀ u, v ≤ u → u < v + n → k'.mem (L'.view k' r u).page = fun _ => 0
  held_zero : ∀ u, v ≤ u → u < v + n → L.held (L'.view k' r u).page = 0

structure Owned (p : ℕ) (k : KState) (L : Ledger) : Prop where
  held_pos : 0 < L.held p
  refs_eq : userRefs (L.view k) p = 0

theorem Owned.grown (h : Owned p k L) (hgrown : Grown n k L k' L') : Owned p k' L' :=
  ⟨by rw [hgrown.held_eq]; exact h.held_pos, by rw [hgrown.view_eq]; exact h.refs_eq⟩

theorem Taken.owned (h : Taken k L p k' L') : Owned p k' L' :=
  ⟨by rw [h.held_eq, update_self]; decide, h.refs_eq⟩

structure Placed (r v p : ℕ) (perm : Pte) (k : KState) (L : Ledger) (k' : KState) (L' : Ledger) : Prop where
  inv : Inv k' L'
  keeps : Keeps (oneSlot r v) k L k' L'
  unused : L.view k r v = 0
  view_eq : L'.view k' r v = leafPte p perm
  page_eq : (L'.view k' r v).page = p
  mem_eq : k'.mem p = k.mem p
  held_eq : L'.held = update L.held p (L.held p - 1)
  count_eq : k'.pageRefCount p = k.pageRefCount p
  free_le : L.free.length ≤ L'.free.length + 2
  wrapped : k'.Wrapped → k.Wrapped

theorem Inv.placed (h : Inv k L) (hgrown : Grown 2 k L k' L') (hr : L.role r = .root) (hv : v < userPages)
    (howned : Owned p k L) (hperm : Readable perm) (hinvalid : (L.view k r v).has pteV = false)
    (hslot : slot k'.mem r (v * pgsize) = some q) :
    Placed r v p perm k L (k'.write q (leafPte p perm)) { L' with held := update L'.held p (L'.held p - 1) } := by
  have hlt := userPages_lt
  have hr' : L'.role r = .root := (hgrown.root_iff r).mpr hr
  have howned' := howned.grown hgrown
  have hdata := hgrown.inv.shares.held_data p howned'.held_pos
  have hp := hgrown.inv.lt (p := p) (by rw [hdata]; nofun)
  have hpage : (leafPte p perm).page = p := leafPte_page (by omega) hperm.isFlags
  have hview := Ledger.view_write hgrown.inv hr' (by omega) hslot (leafPte p perm) r v (by omega)
  rw [if_pos ⟨rfl, rfl⟩] at hview
  have hmem : k'.mem p = k.mem p := hgrown.mem_eq p (h.shares.held_data p howned.held_pos)
  refine ⟨hgrown.inv.map_held hr' hv hslot (leafPte_valid p perm) ?_ hpage howned'.held_pos ?_, ?_,
    h.view_zero (by omega) hinvalid, hview, ?_, ?_, ?_, ?_, hgrown.free_le, hgrown.wrapped⟩
  · rw [leafPte_read]
    exact hperm.read
  · intro x u hu _ hvalid hpg
    rw [not_valid_of_userRefs hgrown.inv howned'.refs_eq hu hpg] at hvalid
    cases hvalid
  · exact (hgrown.keeps h).of_none.trans (hgrown.inv.keeps_write hr' (by omega) hslot _ _)
  · exact (congrArg Pte.page hview).trans hpage
  · rw [← hmem]
    refine update_of_ne ?_ _ _
    rintro rfl
    rw [((hgrown.inv.tables.slot_eq_some_iff hr').mp hslot).1] at hdata
    cases hdata
  · simp only [hgrown.held_eq]
  · exact hgrown.count_eq p (by rw [h.shares.held_data p howned.held_pos]; nofun)

theorem Inv.post_mappages_owned (h : Inv k L) (hr : L.role r = .root) (hv : v < userPages)
    (howned : Owned p k L) (hperm : Readable perm) {Q : ℤ → KState → Prop}
    (hremap : (L.view k r v).has pteV = true → E .mappagesRemap)
    (hfull : ∀ k' L', Grown 2 k L k' L' → L'.free = [] → Q (-1) k')
    (hplaced : ∀ k' L', Placed r v p perm k L k' L' → Q 0 k') :
    Post (mappages (r * pgsize) (v * pgsize) pgsize (p * pgsize) perm) k Q E := by
  have heq := userPages_eq
  refine h.post_mappages hr (by omega) hremap hfull fun q k' L' hgrown hinvalid hslot => ?_
  exact hplaced _ _ (h.placed hgrown hr hv howned hperm hinvalid hslot)

section

variable (h : Filled r v n perm k L k' L') (hinv : Inv k L) (hperm : Readable perm)
include h hinv hperm

theorem Filled.renewed (hv : v + n ≤ userPages) : Renewed (slotRange r v n) k L k' { L' with held := L.held } := by
  have hmaps := h.mapsData hperm
  have hpage : ∀ u, v ≤ u → u < v + n → L.role (L'.view k' r u).page = .free ∧ k'.pageRefCount (L'.view k' r u).page = 1 := by
    intro u hu hu'
    obtain ⟨x, hx, hfree, hdata, hone, _⟩ := h.page u hu hu'
    rw [h.forest.page_eq hdata hperm.isFlags hx]
    exact ⟨hfree, hone⟩
  have hnew : ∀ x, L.role x = .free → L'.role x = .data → k'.pageRefCount x = 1 := by
    intro x hx hdata
    rcases h.fresh x hx with hf | hbelow | ⟨u, hu, hu', heq, _⟩
    · exact absurd hdata (fresh_cases (.inl hf : _ ∨ (L'.role x).isBelow r = true)).1
    · exact absurd hdata (fresh_cases (.inr hbelow)).1
    · rw [← h.forest.page_eq hdata hperm.isFlags heq]
      exact (hpage u hu hu').2
  refine ⟨h.forest.setHeld _, rfl, fun _ => h.kept.data, h.kept.count hinv.forest h.forest hnew,
    fun x hx hx' => hnew x (h.kept.free_of_data hx hx') hx', h.view_eq,
    fun x u ht hge => ?_, fun x u ht _ => ?_, fun x u x' u' ht ht' _ _ heq => ?_⟩
  · have hlt := ht.2.2
    omega
  · obtain ⟨rfl, hu, hu'⟩ := ht
    have hne : L.role (L'.view k' x u).page ≠ .data := by
      rw [(hpage u hu hu').1]
      nofun
    exact ⟨hmaps.valid u hu hu', hmaps.read u hu hu', hne, hmaps.data u hu hu'⟩
  · obtain ⟨rfl, hu, hlt⟩ := ht
    obtain ⟨rfl, hu', hlt'⟩ := ht'
    exact ⟨rfl, hmaps.inj u u' hu hlt hu' hlt' heq⟩

theorem Filled.allocated (hv : v + n ≤ userPages) : Allocated r v n k L k' { L' with held := L.held } := by
  have hlt := userPages_lt
  have hroot : ∀ x, L.role x = .free → L'.role x ≠ .root := by
    intro x hx
    rcases h.fresh x hx with hf | hbelow | ⟨_, _, _, _, hdata⟩
    · rw [hf]
      nofun
    · exact (fresh_cases (.inr hbelow)).2
    · rw [hdata]
      nofun
  refine ⟨(h.renewed hinv hperm hv).evolves hinv (h.kept.root_iff hroot), fun u hu hu' =>
    hinv.view_zero (by omega) (h.unused u hu hu'), (h.mapsData hperm).valid,
    fun u hu hu' => ?_, fun u hu hu' => ?_⟩
  all_goals
    obtain ⟨x, hx, hfree, hdata, _, hzero⟩ := h.page u hu hu'
    have hpage : (L'.view k' r u).page = x := h.forest.page_eq hdata hperm.isFlags hx
  · exact (congrArg k'.mem hpage).trans hzero
  · exact (congrArg L.held hpage).trans (hinv.held_of_not_data (by rw [hfree]; nofun))

theorem Filled.cleared (hcleared : Cleared r v n k' L' k'' L'') : Evolves noSlot k L k'' { L'' with held := L.held } := by
  obtain ⟨hforest, hrole, hcount, hmem, hfresh, _, _⟩ := h.undo hperm.isFlags hcleared
  have hkept : Kept k L k'' L'' := ⟨hrole, hcount, hmem⟩
  refine (hkept.renewed hinv.forest hforest (fun x hx => (fresh_cases (hfresh x hx)).1) fun x u hu => ?_).evolves hinv
    (hkept.root_iff fun x hx => (fresh_cases (hfresh x hx)).2)
  by_cases hin : slotRange r v n x u
  · obtain ⟨rfl, hge, hlt⟩ := hin
    rw [hcleared.zero u hge hlt, hinv.view_zero hu (h.unused u hge hlt)]
  · rw [hcleared.view_eq x u hu hin, h.view_eq x u hu hin]

end

theorem uvmalloc_rounds (newsz : ℕ) : (newsz - v * pgsize + pgsize - 1) / pgsize = pages newsz - v := by
  unfold pages pgsize
  omega

/-- `uvmalloc`: all the pages or none. At the end of the user part it meets the trapframe. -/
theorem Inv.post_uvmalloc {oldsz newsz : ℕ} (h : Inv k L) (hr : L.role r = .root) (hold : oldsz ≤ trapframeVa)
    (hx : IsFlags xperm) (hend : newsz ≤ trapframeVa ∨ (L.view k r userPages).has pteV = true)
    (hremap : (∃ u, pages oldsz ≤ u ∧ u < pages newsz ∧ u < userPages ∧ (L.view k r u).has pteV = true) → E .mappagesRemap)
    (hkernel : ∀ k' L', userPages < pages newsz → Allocated r (pages oldsz) (userPages - pages oldsz) k L k' L' → E .mappagesRemap)
    (hsmall : newsz < oldsz → Q oldsz k) (hfail : ∀ k' L', Evolves noSlot k L k' L' → Q 0 k')
    (hdone : ∀ k' L', oldsz ≤ newsz → pages newsz ≤ userPages →
      Allocated r (pages oldsz) (pages newsz - pages oldsz) k L k' L' → Q newsz k') :
    Post (uvmalloc (r * pgsize) oldsz newsz xperm) k Q E := by
  have hsmallPages := userPages_eq
  have hperm := readable_xperm hx
  rcases Nat.lt_or_ge newsz oldsz with hlt | hge
  · unfold uvmalloc
    rw [if_pos hlt]
    exact Post.pure (hsmall hlt)
  -- the range ends before the trapframe, as that is mapped
  have hfits : ∀ i k' L', i ≤ pages newsz - pages oldsz → Filled r (pages oldsz) i (pteR ||| pteU ||| xperm) k L k' L' → pages oldsz + i ≤ userPages := by
    intro i k' L' hi hL'
    have hle := pages_le_userPages hold
    by_contra hgt
    rcases hend with hend | hend
    · have hpages := pages_le_userPages hend
      omega
    · rw [hL'.unused userPages hle (by omega)] at hend
      cases hend
  refine h.forest.post_uvmalloc hr hge (pgroundup_eq hold) (uvmalloc_rounds newsz) hx (fun i k' L' hi hL' => ?_)
    (fun i k1 L1 k' L' _ hL1 hcleared => hfail k' _ (hL1.cleared h hperm hcleared)) fun k' L' _ hL' => ?_
  · have hle := hfits i k' L' (by omega) hL'
    refine ⟨fun hhigh => by omega, fun hvalid => ?_⟩
    rcases Nat.lt_or_ge (pages oldsz + i) userPages with huser | hhigh
    · exact hremap ⟨pages oldsz + i, by omega, by omega, huser, hvalid⟩
    · rw [show i = userPages - pages oldsz by omega] at hL' hle
      exact hkernel k' _ (by omega) (hL'.allocated h hperm hle)
  · have hle := hfits _ k' L' (Nat.le_refl _) hL'
    have hmono := pages_mono hge
    exact hdone k' _ hge (by omega) (hL'.allocated h hperm hle)

end AdvancedXv6.Kernel
