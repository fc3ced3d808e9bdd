import AdvancedXv6.Kernel.Freewalk

/-!
# Entries and ranges, page by page

What `uvmunmap` does to the roles and the counts of the pages, for any page table whose entries in the range map counted pages, each a different one. A page whose last reference goes is free afterwards, and the others keep their roles; no other page changes.
-/

namespace AdvancedXv6.Kernel

open Function Prog

variable {k k' : KState} {L L' : Ledger} {r v : ℕ} {q : PtePtr} {E : Panic → Prop}

/-! ### Writing an entry -/

section

variable (h : Forest k L) (hr : L.role r = .root) (hslot : slot k.mem r (v * pgsize) = some q)
include h hr hslot

theorem Forest.slot_page :
    ∃ i j, L.role q.page = .leaf r i j := ⟨_, _, ((h.tables.slot_eq_some_iff hr).mp hslot).1⟩

theorem Forest.write (pte : Pte) :
    Forest (k.write q pte) L := by
  obtain ⟨i, j, hq⟩ := h.slot_page hr hslot
  have hne : ∀ x, L.role x = .free ∨ (L.role x).isNode = true → x ≠ q.page := by
    rintro x hx rfl
    rw [hq] at hx
    rcases hx with hx | hx <;> cases hx
  refine ⟨h.chain.congr fun x hx => ?_, h.nodup, h.free_iff, h.outside_iff, h.count_free, h.count_table, h.tables.congr fun x hx => ?_⟩
  · exact congrFun (update_of_ne (hne x (.inl ((h.free_iff x).mp hx))) _ _) 0
  · exact update_of_ne (hne x (.inr hx)) _ _

theorem Forest.mem_write (pte : Pte) {x : ℕ}
    (hx : L.role x = .data) : (k.write q pte).mem x = k.mem x := by
  obtain ⟨i, j, hq⟩ := h.slot_page hr hslot
  refine update_of_ne ?_ _ _
  rintro rfl
  rw [hq] at hx
  cases hx

end

/-! ### `uvmunmap` with `do_free` -/

structure Cleared (r v n : ℕ) (k : KState) (L : Ledger) (k' : KState) (L' : Ledger) : Prop where
  forest : Forest k' L'
  pos : ∀ u, v ≤ u → u < v + n → 0 < k.pageRefCount (L.view k r u).page
  role_page : ∀ u, v ≤ u → u < v + n → L'.role (L.view k r u).page = if k.pageRefCount (L.view k r u).page = 1 then .free else .data
  count_page : ∀ u, v ≤ u → u < v + n → k'.pageRefCount (L.view k r u).page = k.pageRefCount (L.view k r u).page - 1
  role_eq : ∀ x, (∀ u, v ≤ u → u < v + n → x ≠ (L.view k r u).page) → L'.role x = L.role x
  count_eq : ∀ x, (∀ u, v ≤ u → u < v + n → x ≠ (L.view k r u).page) → k'.pageRefCount x = k.pageRefCount x
  mem_eq : ∀ x, L.role x = .data → L'.role x = .data → k'.mem x = k.mem x
  view_eq : ∀ x u, u < 2 ^ 27 → ¬ slotRange r v n x u → L'.view k' x u = L.view k x u
  zero : ∀ u, v ≤ u → u < v + n → L'.view k' r u = 0
  held_eq : L'.held = L.held

structure MapsData (r v n : ℕ) (k : KState) (L : Ledger) : Prop where
  valid : ∀ u, v ≤ u → u < v + n → (L.view k r u).has pteV = true
  read : ∀ u, v ≤ u → u < v + n → (L.view k r u).has pteR = true
  data : ∀ u, v ≤ u → u < v + n → L.role (L.view k r u).page = .data
  inj : ∀ u u', v ≤ u → u < v + n → v ≤ u' → u' < v + n → (L.view k r u).page = (L.view k r u').page → u = u'

theorem MapsData.mono {n n' : ℕ} (h : MapsData r v n k L) (hle : n' ≤ n) : MapsData r v n' k L :=
  ⟨fun u hu hu' => h.valid u hu (by omega), fun u hu hu' => h.read u hu (by omega), fun u hu hu' => h.data u hu (by omega),
    fun u u' hu hlt hu' hlt' => h.inj u u' hu (by omega) hu' (by omega)⟩

theorem MapsData.length_le {n : ℕ} (h : MapsData r 0 n k L) (hforest : Forest k L) : n ≤ 0x7DBD := by
  have hsub : (Finset.range n).image (fun u => (L.view k r u).page) ⊆ Finset.Ico 0x80243 0x88000 := by
    intro x hx
    obtain ⟨u, hu, rfl⟩ := Finset.mem_image.mp hx
    have hdata := h.data u (by omega) (by rw [Nat.zero_add]; exact Finset.mem_range.mp hu)
    exact Finset.mem_Ico.mpr (allocatable_iff.mp (hforest.allocatable (by rw [hdata]; nofun)))
  have hcard := Finset.card_le_card hsub
  rw [Finset.card_image_of_injOn, Finset.card_range, Nat.card_Ico] at hcard
  · exact hcard
  · intro u hu u' hu' heq
    exact h.inj u u' (by omega) (by rw [Nat.zero_add]; exact Finset.mem_range.mp hu) (by omega)
      (by rw [Nat.zero_add]; exact Finset.mem_range.mp hu') heq

theorem Cleared.zero_range (h : Forest k L) (r v : ℕ) : Cleared r v 0 k L k L :=
  ⟨h, fun u hu hu' => by omega, fun u hu hu' => by omega, fun u hu hu' => by omega, fun _ _ => rfl, fun _ _ => rfl, fun _ _ _ => rfl,
    fun _ _ _ _ => rfl, fun u hu hu' => by omega, rfl⟩

theorem Cleared.root {n : ℕ} (h : Cleared r v n k L k' L') (hmaps : MapsData r v n k L) {x : ℕ} (hx : L.role x = .root) : L'.role x = .root := by
  rw [h.role_eq x, hx]
  rintro u hu hu' rfl
  rw [hmaps.data u hu hu'] at hx
  cases hx

theorem Cleared.snoc {n : ℕ} {q : PtePtr} {k1 : KState} {L1 : Ledger} (h : Cleared r v n k L k' L') (hr : L.role r = .root)
    (hmaps : MapsData r v (n + 1) k L) (hv : v + n < 2 ^ 26) (hslot : slot k'.mem r ((v + n) * pgsize) = some q)
    (hpos : 0 < k.pageRefCount (L.view k r (v + n)).page) (hfreed : Freed (L.view k r (v + n)).page k' L' k1 L1) :
    Cleared r v (n + 1) k L (k1.write q 0) L1 := by
  have hmaps' : MapsData r v n k L := ⟨fun u hu hu' => hmaps.valid u hu (by omega), fun u hu hu' => hmaps.read u hu (by omega),
    fun u hu hu' => hmaps.data u hu (by omega), fun u u' hu hu' hw hw' => hmaps.inj u u' hu (by omega) hw (by omega)⟩
  have hne : ∀ u, v ≤ u → u < v + n → (L.view k r (v + n)).page ≠ (L.view k r u).page := by
    intro u hu hu' heq
    have hsame := hmaps.inj _ _ (by omega) (by omega) hu (by omega) heq
    omega
  have hdata : L.role (L.view k r (v + n)).page = .data := hmaps.data _ (by omega) (by omega)
  have hdata' : L'.role (L.view k r (v + n)).page = .data := (h.role_eq _ hne).trans hdata
  have hcount' : k'.pageRefCount (L.view k r (v + n)).page = k.pageRefCount (L.view k r (v + n)).page := h.count_eq _ hne
  have hr' : L'.role r = .root := h.root hmaps' hr
  have hrne : r ≠ (L.view k r (v + n)).page := by
    intro heq
    rw [← heq, hr] at hdata
    cases hdata
  have hr1 : L1.role r = .root := (hfreed.role_of_ne hrne).trans hr'
  have htable : ∀ x, (L'.role x).isTable = true → k1.mem x = k'.mem x := by
    intro x hx
    refine hfreed.mem_eq x (.inl ?_)
    rintro rfl
    rw [hdata'] at hx
    cases hx
  have hslot1 : slot k1.mem r ((v + n) * pgsize) = some q := by
    rw [h.forest.tables.slot_congr (fun x hx => htable x (Role.isTable_of_isNode hx)) hr']
    exact hslot
  have hview1 : L1.view k1 = L'.view k' := hfreed.view_eq h.forest hdata'
  have hwrite := fun x u hu => hfreed.forest.tables.view_write hr1 (v := v + n) (by omega) hslot1 0 x u hu
  refine ⟨hfreed.forest.write hr1 hslot1 0, fun u hu hu' => ?_, fun u hu hu' => ?_, fun u hu hu' => ?_, fun x hx => ?_, fun x hx => ?_,
    fun x hx hx' => ?_, fun x u hu hnot => ?_, fun u hu hu' => ?_, hfreed.held_eq.trans h.held_eq⟩
  · by_cases hlast : u = v + n
    · rw [hlast]
      exact hpos
    · exact h.pos u hu (by omega)
  · by_cases hlast : u = v + n
    · rw [hlast, hfreed.role_self, hcount']
    · rw [hfreed.role_of_ne (hne u hu (by omega)).symm]
      exact h.role_page u hu (by omega)
  · by_cases hlast : u = v + n
    · rw [hlast, ← hcount']
      exact (congrFun hfreed.count_eq _).trans (update_self ..)
    · exact (hfreed.count_of_ne (hne u hu (by omega)).symm).trans (h.count_page u hu (by omega))
  · rw [hfreed.role_of_ne (hx (v + n) (by omega) (by omega))]
    exact h.role_eq x fun u hu hu' => hx u hu (by omega)
  · refine (hfreed.count_of_ne (hx (v + n) (by omega) (by omega))).trans ?_
    exact h.count_eq x fun u hu hu' => hx u hu (by omega)
  · have hx1 : L'.role x = .data := by
      by_cases hxp : x = (L.view k r (v + n)).page
      · rw [hxp]
        exact hdata'
      · rw [← hfreed.role_of_ne hxp]
        exact hx'
    rw [hfreed.forest.mem_write hr1 hslot1 0 hx', hfreed.mem_eq x, h.mem_eq x hx hx1]
    by_cases hxp : x = (L.view k r (v + n)).page
    · right
      intro hone
      rw [hxp, hfreed.role_self, if_pos hone] at hx'
      cases hx'
    · exact .inl hxp
  · rw [hwrite x u hu, if_neg, hview1, h.view_eq x u hu]
    · exact fun ht => hnot ⟨ht.1, ht.2.1, by have := ht.2.2; omega⟩
    · rintro ⟨rfl, rfl⟩
      exact hnot ⟨rfl, by omega, by omega⟩
  · rw [hwrite r u (by omega)]
    by_cases hlast : u = v + n
    · rw [if_pos ⟨rfl, hlast⟩]
    · rw [if_neg fun ht => hlast ht.2, hview1]
      exact h.zero u hu (by omega)

theorem Forest.post_uvmunmap {n : ℕ} (h : Forest k L) (hr : L.role r = .root) (hv : v + n ≤ 2 ^ 26) (hmaps : MapsData r v n k L)
    {Q : Unit → KState → Prop} (hpanic : (∃ u, v ≤ u ∧ u < v + n ∧ k.pageRefCount (L.view k r u).page ≤ 0) → E .decrementReference)
    (hdone : ∀ k' L', Cleared r v n k L k' L' → Q () k') : Post (uvmunmap (r * pgsize) (v * pgsize) n true) k Q E := by
  unfold uvmunmap
  rw [if_neg fun hmod => hmod (Nat.mul_mod_left v pgsize)]
  simp only [uvmunmap_rounds hv]
  refine Post.step (R := fun _ k' => ∃ L', Cleared r v n k L k' L') ?_ fun _ k' ⟨L', hL'⟩ => Post.pure (hdone k' L' hL')
  refine Post.loop (I := fun i k' => ∃ L', Cleared r v i k L k' L') ⟨L, Cleared.zero_range h r v⟩ (fun i k' hi hk' => ?_) fun k' hk' => hk'
  obtain ⟨L', hL'⟩ := hk'
  have hview := hL'.view_eq r (v + i) (by omega) (by rintro ⟨_, _, _⟩; omega)
  have hne : ∀ u, v ≤ u → u < v + i → (L.view k r (v + i)).page ≠ (L.view k r u).page := by
    intro u hu hu' heq
    have hsame := hmaps.inj _ _ (by omega) (by omega) hu (by omega) heq
    omega
  have hdata : L'.role (L.view k r (v + i)).page = .data := (hL'.role_eq _ hne).trans (hmaps.data _ (by omega) (by omega))
  have hcount := hL'.count_eq _ hne
  rw [← Nat.add_mul]
  refine post_uvmunmapPage (L := L') (by omega) (by rw [hview]; exact hmaps.valid _ (by omega) (by omega))
    (by rw [hview]; exact hmaps.read _ (by omega) (by omega)) nofun fun q _ hslot => ?_
  rw [hview]
  refine hL'.forest.post_kfree hdata (fun hle => hpanic ⟨v + i, by omega, by omega, by omega⟩) fun k1 L1 hfreed _ => ?_
  have hpos := hfreed.pos
  exact ⟨L1, hL'.snoc hr (hmaps.mono (Nat.succ_le_of_lt hi)) (by omega) hslot (by omega) hfreed⟩

/-! ### `uvmunmap` without `do_free` -/

structure Rewritten (r v : ℕ) (pte : Pte) (k k' : KState) (L : Ledger) : Prop where
  forest : Forest k' L
  count_eq : k'.pageRefCount = k.pageRefCount
  mem_eq : ∀ x, L.role x = .data → k'.mem x = k.mem x
  view_eq : ∀ x u, u < 2 ^ 27 → L.view k' x u = if x = r ∧ u = v then pte else L.view k x u

theorem Forest.rewritten (h : Forest k L) (hr : L.role r = .root) (hv : v < 2 ^ 27) (hslot : slot k.mem r (v * pgsize) = some q) (pte : Pte) :
    Rewritten r v pte k (k.write q pte) L :=
  ⟨h.write hr hslot pte, rfl, fun _ hx => h.mem_write hr hslot pte hx, h.tables.view_write hr hv hslot pte⟩

theorem Rewritten.kept {pte : Pte} (h : Rewritten r v pte k k' L) : Kept k L k' L := ⟨fun _ _ => rfl, fun x _ => congrFun h.count_eq x, h.mem_eq⟩

theorem Forest.post_uvmunmap_kernel (h : Forest k L) (hr : L.role r = .root) (hv : v < 2 ^ 26) (hvalid : (L.view k r v).has pteV = true)
    (hread : (L.view k r v).has pteR = true) {Q : Unit → KState → Prop} (hdone : ∀ k', Rewritten r v 0 k k' L → Q () k') :
    Post (uvmunmap (r * pgsize) (v * pgsize) 1 false) k Q E :=
  post_uvmunmap_one hv (post_uvmunmapPage hv hvalid hread (fun _ _ hslot => hdone _ (h.rewritten hr (by omega) hslot 0)) nofun)

end AdvancedXv6.Kernel
