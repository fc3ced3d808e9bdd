import AdvancedXv6.Kernel.Ranges

/-!
# New page tables and growing memory, page by page

`uvmcreate` takes a page for the root. `uvmalloc` either fills the whole range with cleared pages or takes back what it has put in, whatever the page table and the sizes are, and wherever the free pages run out. Only the page-table pages that it has made stay.
-/

namespace AdvancedXv6.Kernel

open Function Prog

variable {k k' k'' : KState} {L L' L'' : Ledger} {r v p : ℕ} {q : PtePtr} {E : Panic → Prop}

/-! ### `uvmcreate` -/

structure Planted (r : ℕ) (k : KState) (L : Ledger) (k' : KState) (L' : Ledger) : Prop where
  forest : Forest k' L'
  free_eq : L.free = r :: L'.free
  role_eq : L'.role = update L.role r .root
  count_eq : k'.pageRefCount = update k.pageRefCount r 1
  mem_eq : ∀ x, x ≠ r → k'.mem x = k.mem x
  empty : ∀ l, k'.mem r l = 0
  view_eq : L'.view k' = L.view k

theorem Popped.planted (h : Popped r k L k' L') (hforest : Forest k L) (hzero : ∀ l, k'.mem r l = 0) (hfree : L''.free = L'.free)
    (hrole : L''.role = update L.role r .root) : Planted r k L k' L'' := by
  have hfreer := h.role_free hforest
  have hself : L''.role r = .root := by rw [hrole, update_self]
  have hrest : ∀ x, x ≠ r → L''.role x = L'.role x := fun x hx => by rw [hrole, update_of_ne hx, h.role_of_ne hx]
  have hnodup := List.nodup_cons.mp (h.free_eq ▸ hforest.nodup)
  have htables : Tables k'.mem L''.role := by
    have hnew := h.forest.tables.new_root (p := r) (by rw [h.role_data]; rfl) hzero
    rw [h.role_eq, update_idem, ← hrole] at hnew
    exact hnew
  refine ⟨?_, by rw [hfree, h.free_eq], hrole, h.count_eq, h.mem_eq, hzero, ?_⟩
  · refine h.forest.change (p := r) (fun x hx => ⟨hrest x hx, rfl⟩) (by rw [h.role_data]; nofun) (by rw [hself]; nofun)
      (by rw [hfree]; exact h.forest.chain) (by rw [hfree]; exact h.forest.nodup) (fun x _ => by rw [hfree]) ?_ (fun hf => ?_) (fun _ => ?_) htables
    · rw [hfree, hself]
      exact ⟨fun hin => absurd hin hnodup.1, nofun⟩
    · rw [hself] at hf
      cases hf
    · rw [h.count_eq, update_self]
  · rw [← h.view_eq hforest]
    funext x u
    unfold Ledger.view
    by_cases hx : x = r
    · have hslot : slot k'.mem r (u * pgsize) = none := by
        unfold slot
        exact if_neg (by rw [hzero, zero_not_valid]; decide)
      rw [hx, hself, h.role_data, if_pos rfl, if_neg nofun, entry_of_none hslot]
    · rw [hrest x hx]

theorem Forest.post_uvmcreate (h : Forest k L) {Q : ℕ → KState → Prop} (hfull : L.free = [] → Q 0 k)
    (hplanted : ∀ r k' L', Planted r k L k' L' → Q (r * pgsize) k') : Post uvmcreate k Q E := by
  unfold uvmcreate
  refine Post.bind (h.post_kalloc (fun hempty => ?_) fun r k' L' hpopped => ?_)
  · rw [if_pos rfl]
    exact Post.pure (hfull hempty)
  · rw [if_neg hpopped.address_ne_zero]
    refine Post.bind (post_memset (Post.pure (hplanted r _ ⟨update L.role r .root, L'.free, L.held⟩ ?_)))
    exact (hpopped.setPage _).planted h (fun l => congrFun (update_self r (fun _ => repeatByte 0) k'.mem) l) rfl rfl

section

variable (h : Planted r k L k' L')
include h

theorem Planted.ne (hforest : Forest k L) {x : ℕ} (hx : L.role x ≠ .free) : x ≠ r := by
  rintro rfl
  exact hx (hforest.role_head h.free_eq)

theorem Planted.root : L'.role r = .root := by rw [h.role_eq, update_self]

theorem Planted.role_of_ne {x : ℕ} (hx : x ≠ r) : L'.role x = L.role x := by rw [h.role_eq, update_of_ne hx]

theorem Planted.old_free (hforest : Forest k L) : L.role r = .free :=
  hforest.role_head h.free_eq

theorem Planted.kept (hforest : Forest k L) : Kept k L k' L' := by
  refine ⟨fun x hx => h.role_of_ne (h.ne hforest hx), fun x hx => ?_, fun x hx => h.mem_eq x (h.ne hforest (by rw [hx]; nofun))⟩
  rw [h.count_eq, update_of_ne (h.ne hforest hx)]

theorem Planted.no_mid (i : Fin 512) : ¬ L'.Has (.mid r i) := by
  rintro ⟨m, hm⟩
  have hvalid := (h.forest.tables.mid_parent m r i hm).2.1
  rw [h.empty, zero_not_valid] at hvalid
  cases hvalid

theorem Planted.no_leaf (i j : Fin 512) : ¬ L'.Has (.leaf r i j) := by
  rintro ⟨x, hx⟩
  obtain ⟨m, hm, _⟩ := h.forest.tables.leaf_parent x r i j hx
  exact h.no_mid i ⟨m, hm⟩

end

theorem exists_planted : ∃ k0 free r k L, FreshRange 0x80243 0x88000 k0 free ∧ Planted r k0 (freshLedger free) k L := by
  obtain ⟨_, k0, _, free, hfresh⟩ := (post_kinit fun _ _ => 0).exists_ok
  have hlength : (freshLedger free).free.length = 0x88000 - 0x80243 := hfresh.length_eq
  have hcreate : Post uvmcreate k0 (fun _ k => ∃ r L, Planted r k0 (freshLedger free) k L) fun _ => False :=
    hfresh.inv.forest.post_uvmcreate (fun hempty => by rw [hempty] at hlength; cases hlength) fun r k L hplanted => ⟨r, L, hplanted⟩
  obtain ⟨_, k, _, r, L, hplanted⟩ := hcreate.exists_ok
  exact ⟨k0, free, r, k, L, hfresh, hplanted⟩

/-! ### Entries -/

def IsFlags (perm : Pte) : Prop := ∀ i, 10 ≤ i → perm.getLsbD i = false

variable {perm xperm : Pte} {n oldsz newsz : ℕ} {k1 : KState} {L1 : Ledger}

theorem isFlags_of_pteFlags (h : pteFlags perm = perm) : IsFlags perm := by
  intro i hi
  rw [← h, getLsbD_pteFlags, decide_eq_false (by omega), Bool.and_false]

def leafPte (p : ℕ) (perm : Pte) : Pte := pa2pte (p * pgsize) ||| perm ||| pteV

section

variable (p : ℕ) (perm : Pte)

theorem getLsbD_leafPte {i : ℕ} (hi : i < 10) :
    (leafPte p perm).getLsbD i = (perm.getLsbD i || decide (i = 0)) := by
  rw [leafPte, BitVec.or_assoc, getLsbD_entry hi, BitVec.getLsbD_or, getLsbD_pteV]

theorem leafPte_valid : (leafPte p perm).has pteV = true := by
  rw [has_pteV, getLsbD_leafPte p perm (by decide)]
  simp

theorem leafPte_read : (leafPte p perm).has pteR = perm.has pteR := by
  rw [has_pteR, has_pteR, getLsbD_leafPte p perm (by decide)]
  simp

theorem leafPte_write : (leafPte p perm).has pteW = perm.has pteW := by
  rw [has_pteW, has_pteW, getLsbD_leafPte p perm (by decide)]
  simp

theorem leafPte_user : (leafPte p perm).has pteU = perm.has pteU := by
  rw [has_pteU, has_pteU, getLsbD_leafPte p perm (by decide)]
  simp

theorem leafPte_copy : (leafPte p perm).has pteC = perm.has pteC := by
  rw [has_pteC, has_pteC, getLsbD_leafPte p perm (by decide)]
  simp

end

theorem leafPte_page (hp : p < 2 ^ 44) (hperm : IsFlags perm) : (leafPte p perm).page = p := by
  have hhigh : ∀ i, 10 ≤ i → (perm ||| pteV).getLsbD i = false := by
    intro i hi
    rw [BitVec.getLsbD_or, hperm i hi, getLsbD_pteV]
    simp
    omega
  rw [Pte.page, leafPte, BitVec.or_assoc, pte2pa_entry hp hhigh, div_pgsize]

structure Readable (perm : Pte) : Prop where
  isFlags : IsFlags perm
  read : perm.has pteR = true

theorem readable_xperm (hx : IsFlags xperm) : Readable (pteR ||| pteU ||| xperm) := by
  have hlow : ∀ i < 64, 10 ≤ i → (pteR ||| pteU).getLsbD i = false := by decide
  refine ⟨fun i hi => ?_, ?_⟩
  · rw [BitVec.getLsbD_or, hx i hi, Bool.or_false]
    by_cases hlt : i < 64
    · exact hlow i hlt hi
    · exact BitVec.getLsbD_of_ge _ _ (by omega)
  · rw [has_pteR, BitVec.getLsbD_or]
    exact Bool.or_eq_true_iff.mpr (.inl rfl)

/-! ### Filling a range -/

theorem Forest.page_eq {u x : ℕ} (h : Forest k L) (hx : L.role x = .data) (hperm : IsFlags perm)
    (hview : L.view k r u = leafPte x perm) : (L.view k r u).page = x := by
  have hlt := h.lt (p := x) (by rw [hx]; nofun)
  rw [hview]
  exact leafPte_page (by omega) hperm

theorem MapsData.of_leafPte {n : ℕ} (h : Forest k L) (hleaf : ∀ u, v ≤ u → u < v + n →
    ∃ x perm, L.view k r u = leafPte x perm ∧ Readable perm ∧ L.role x = .data)
    (hinj : ∀ u u', v ≤ u → u < v + n → v ≤ u' → u' < v + n → (L.view k r u).page = (L.view k r u').page → u = u') : MapsData r v n k L := by
  refine ⟨fun u hu hu' => ?_, fun u hu hu' => ?_, fun u hu hu' => ?_, hinj⟩
  all_goals obtain ⟨x, perm, hx, hperm, hdata⟩ := hleaf u hu hu'
  · rw [hx]
    exact leafPte_valid x perm
  · rw [hx, leafPte_read]
    exact hperm.read
  · rw [h.page_eq hdata hperm.isFlags hx]
    exact hdata

structure Filled (r v n : ℕ) (perm : Pte) (k : KState) (L : Ledger) (k' : KState) (L' : Ledger) : Prop where
  forest : Forest k' L'
  role_eq : ∀ x, L.role x ≠ .free → L'.role x = L.role x
  count_eq : ∀ x, L.role x ≠ .free → k'.pageRefCount x = k.pageRefCount x
  mem_eq : ∀ x, L.role x = .data → k'.mem x = k.mem x
  fresh : ∀ x, L.role x = .free → L'.role x = .free ∨ (L'.role x).isBelow r = true ∨
    ∃ u, v ≤ u ∧ u < v + n ∧ L'.view k' r u = leafPte x perm ∧ L'.role x = .data
  unused : ∀ u, v ≤ u → u < v + n → (L.view k r u).has pteV = false
  page : ∀ u, v ≤ u → u < v + n → ∃ x, L'.view k' r u = leafPte x perm ∧ L.role x = .free ∧ L'.role x = .data ∧
    k'.pageRefCount x = 1 ∧ k'.mem x = fun _ => 0
  inj : ∀ u u', v ≤ u → u < v + n → v ≤ u' → u' < v + n → L'.view k' r u = L'.view k' r u' → u = u'
  view_eq : ∀ x u, u < 2 ^ 27 → ¬ slotRange r v n x u → L'.view k' x u = L.view k x u
  length_le : L'.free.length + n ≤ L.free.length

theorem Filled.zero (h : Forest k L) (r v : ℕ) (perm : Pte) : Filled r v 0 perm k L k L :=
  ⟨h, fun _ _ => rfl, fun _ _ => rfl, fun _ _ => rfl, fun _ hx => .inl hx, fun u hu hu' => by omega, fun u hu hu' => by omega,
    fun u u' hu hu' => by omega, fun _ _ _ _ => rfl, Nat.le_refl _⟩

theorem Filled.root (h : Filled r v n perm k L k' L') (hr : L.role r = .root) : L'.role r = .root :=
  role_kept h.role_eq hr nofun

structure Provided (r p : ℕ) (k : KState) (L : Ledger) (k' : KState) (L' : Ledger) : Prop where
  forest : Forest k' L'
  role_eq : ∀ x, L.role x ≠ .free → L'.role x = L.role x
  count_eq : ∀ x, L.role x ≠ .free → k'.pageRefCount x = k.pageRefCount x
  mem_eq : ∀ x, L.role x = .data → k'.mem x = k.mem x
  fresh : ∀ x, L.role x = .free → x ≠ p → L'.role x = .free ∨ (L'.role x).isBelow r = true
  old_free : L.role p = .free
  new_data : L'.role p = .data
  count_one : k'.pageRefCount p = 1
  cleared : k'.mem p = fun _ => 0
  view_eq : L'.view k' = L.view k
  length_lt : L'.free.length < L.free.length

theorem Popped.provided (h : Popped p k L k' L') (hforest : Forest k L) (hzero : k'.mem p = fun _ => 0)
    (hsprouted : Sprouted r n k' L' k'' L'') : Provided r p k L k'' L'' := by
  have hdata := h.role_data
  obtain ⟨hrole, hcount, hmem⟩ := (h.kept hforest).trans hsprouted.kept
  refine ⟨hsprouted.forest, hrole, hcount, hmem, fun x hx hxp => ?_, h.role_free hforest, ?_, ?_, ?_, hsprouted.view_eq.trans (h.view_eq hforest), ?_⟩
  · exact hsprouted.fresh x ((h.role_of_ne hxp).trans hx)
  · rw [hsprouted.role_eq p (by rw [hdata]; nofun), hdata]
  · rw [hsprouted.count_eq p (by rw [hdata]; nofun), h.count_eq, update_self]
  · rw [hsprouted.mem_eq p hdata, hzero]
  · have hlength := hsprouted.length_eq
    rw [h.free_eq, List.length_cons]
    omega

theorem Provided.kept (h : Provided r p k L k' L') : Kept k L k' L' := ⟨h.role_eq, h.count_eq, h.mem_eq⟩

section

variable (h : Filled r v n perm k L k' L')
include h

theorem Filled.kept : Kept k L k' L' := ⟨h.role_eq, h.count_eq, h.mem_eq⟩

theorem Filled.snoc (hr : L.role r = .root) (hv : v + n < 2 ^ 26)
    (hperm : IsFlags perm) (hprovided : Provided r p k' L' k1 L1) (hinvalid : (L'.view k' r (v + n)).has pteV = false)
    (hslot : slot k1.mem r ((v + n) * pgsize) = some q) : Filled r v (n + 1) perm k L (k1.write q (leafPte p perm)) L1 := by
  have hr1 : L1.role r = .root := (hprovided.role_eq r (by rw [h.root hr]; nofun)).trans (h.root hr)
  have hwritten := hprovided.forest.rewritten hr1 (v := v + n) (by omega) hslot (leafPte p perm)
  have hview := hwritten.view_eq
  rw [hprovided.view_eq] at hview
  have hself : L1.view (k1.write q (leafPte p perm)) r (v + n) = leafPte p perm := (hview r (v + n) (by omega)).trans (if_pos ⟨rfl, rfl⟩)
  have hold : ∀ u, v ≤ u → u < v + n → L1.view (k1.write q (leafPte p perm)) r u = L'.view k' r u := fun u hu hu' =>
    (hview r u (by omega)).trans (if_neg fun ht => by omega)
  have hpfree : L.role p = .free := by
    by_contra hne
    exact kept_ne_free h.role_eq p hne hprovided.old_free
  have hother : ∀ u, v ≤ u → u < v + n → L'.view k' r u ≠ leafPte p perm := by
    intro u hu hu' heq
    obtain ⟨x, hx, _, hdata, _⟩ := h.page u hu hu'
    have hpage := h.forest.page_eq hdata hperm hx
    rw [← hprovided.view_eq] at hpage heq
    rw [hprovided.forest.page_eq hprovided.new_data hperm heq] at hpage
    rw [← hpage, hprovided.old_free] at hdata
    cases hdata
  obtain ⟨hrole, hcount, hmem⟩ := (h.kept.trans hprovided.kept).trans hwritten.kept
  refine ⟨hwritten.forest, hrole, hcount, hmem, fun x hx => ?_, fun u hu hu' => ?_,
    fun u hu hu' => ?_, fun u u' hu hu' hw hw' heq => ?_, fun x u hu hnot => ?_, ?_⟩
  · by_cases hxp : x = p
    · exact .inr (.inr ⟨v + n, by omega, by omega, by rw [hxp, hself], by rw [hxp]; exact hprovided.new_data⟩)
    · rcases h.fresh x hx with hfree | hbelow | ⟨u, hu, hu', heq, hdata⟩
      · exact (hprovided.fresh x hfree hxp).imp id .inl
      · exact .inr (.inl (below_kept hprovided.role_eq hbelow))
      · exact .inr (.inr ⟨u, hu, by omega, by rw [hold u hu hu', heq], role_kept hprovided.role_eq hdata nofun⟩)
  · by_cases hlast : u = v + n
    · rw [hlast, ← h.view_eq r (v + n) (by omega) (by rintro ⟨_, _, _⟩; omega)]
      exact hinvalid
    · exact h.unused u hu (by omega)
  · by_cases hlast : u = v + n
    · rw [hlast]
      exact ⟨p, hself, hpfree, hprovided.new_data, hprovided.count_one, (hwritten.mem_eq p hprovided.new_data).trans hprovided.cleared⟩
    · obtain ⟨x, hx, hfree, hdata, hone, hzero⟩ := h.page u hu (by omega)
      have hdata1 : L1.role x = .data := role_kept hprovided.role_eq hdata nofun
      refine ⟨x, by rw [hold u hu (by omega), hx], hfree, hdata1, ?_, ?_⟩
      · exact (hprovided.count_eq x (by rw [hdata]; nofun)).trans hone
      · rw [hwritten.mem_eq x hdata1, hprovided.mem_eq x hdata, hzero]
  · by_cases hlast : u = v + n <;> by_cases hlast' : u' = v + n
    · omega
    · rw [hlast, hself, hold u' hw (by omega)] at heq
      exact absurd heq.symm (hother u' hw (by omega))
    · rw [hlast', hself, hold u hu (by omega)] at heq
      exact absurd heq (hother u hu (by omega))
    · rw [hold u hu (by omega), hold u' hw (by omega)] at heq
      exact h.inj u u' hu (by omega) hw (by omega) heq
  · rw [hview x u hu, if_neg, h.view_eq x u hu]
    · exact fun ht => hnot ⟨ht.1, ht.2.1, by have := ht.2.2; omega⟩
    · rintro ⟨rfl, rfl⟩
      exact hnot ⟨rfl, by omega, by omega⟩
  · have hle := h.length_le
    have hlt := hprovided.length_lt
    omega

theorem Filled.retreat {k2 : KState} {L2 : Ledger} (hprovided : Provided r p k' L' k1 L1)
    (hfreed : Freed p k1 L1 k2 L2) : Filled r v n perm k L k2 L2 := by
  have hview : L2.view k2 = L'.view k' := (hfreed.view_eq hprovided.forest hprovided.new_data).trans hprovided.view_eq
  have hpfree : L2.role p = .free := by rw [hfreed.role_self, if_pos hprovided.count_one]
  have hne : ∀ x, L'.role x ≠ .free → x ≠ p := fun x hx hxp => hx (hxp ▸ hprovided.old_free)
  have hkept' : Kept k' L' k2 L2 := by
    refine ⟨fun x hx => ?_, fun x hx => ?_, fun x hx => ?_⟩
    · rw [hfreed.role_of_ne (hne x hx), hprovided.role_eq x hx]
    · rw [hfreed.count_of_ne (hne x hx), hprovided.count_eq x hx]
    · rw [hfreed.mem_eq x (.inl (hne x (by rw [hx]; nofun))), hprovided.mem_eq x hx]
  obtain ⟨hrole, hcount, hmem⟩ := h.kept.trans hkept'
  refine ⟨hfreed.forest, hrole, hcount, hmem, fun x hx => ?_, h.unused, fun u hu hu' => ?_, fun u u' => ?_, fun x u => ?_, ?_⟩
  · rw [hview]
    by_cases hxp : x = p
    · rw [hxp]
      exact .inl hpfree
    · rw [hfreed.role_of_ne hxp]
      rcases h.fresh x hx with hfree | hbelow | ⟨u, hu, hu', heq, hdata⟩
      · exact (hprovided.fresh x hfree hxp).imp id .inl
      · exact .inr (.inl (below_kept hprovided.role_eq hbelow))
      · exact .inr (.inr ⟨u, hu, hu', heq, role_kept hprovided.role_eq hdata nofun⟩)
  · obtain ⟨x, hx, hfree, hdata, hone, hzero⟩ := h.page u hu hu'
    have hne : L'.role x ≠ .free := by
      rw [hdata]
      nofun
    refine ⟨x, by rw [hview, hx], hfree, (hkept'.role_eq x hne).trans hdata, (hkept'.count_eq x hne).trans hone, (hkept'.mem_eq x hdata).trans hzero⟩
  · rw [hview]
    exact h.inj u u'
  · rw [hview]
    exact h.view_eq x u
  · have hle := h.length_le
    have hlt := hprovided.length_lt
    have hlength := hfreed.length_eq
    rw [if_pos hprovided.count_one] at hlength
    omega

/-! ### Taking the pages back -/

omit h in
structure Undone (r : ℕ) (k : KState) (L : Ledger) (k' : KState) (L' : Ledger) : Prop where
  forest : Forest k' L'
  role_eq : ∀ x, L.role x ≠ .free → L'.role x = L.role x
  count_eq : ∀ x, L.role x ≠ .free → k'.pageRefCount x = k.pageRefCount x
  mem_eq : ∀ x, L.role x = .data → k'.mem x = k.mem x
  fresh : ∀ x, L.role x = .free → L'.role x = .free ∨ (L'.role x).isBelow r = true
  valid_eq : ∀ x u, u < 2 ^ 27 → (L'.view k' x u).has pteV = (L.view k x u).has pteV
  view_eq : ∀ x u, u < 2 ^ 27 → (L.view k x u).has pteV = true → L'.view k' x u = L.view k x u

theorem Filled.mapsData (hperm : Readable perm) : MapsData r v n k' L' := by
  refine MapsData.of_leafPte h.forest (fun u hu hu' => ?_) fun u u' hu hu' hw hw' heq => ?_
  · obtain ⟨x, hx, _, hdata, _⟩ := h.page u hu hu'
    exact ⟨x, perm, hx, hperm, hdata⟩
  · obtain ⟨x, hx, _, hdata, _⟩ := h.page u hu hu'
    obtain ⟨x', hx', _, hdata', _⟩ := h.page u' hw hw'
    refine h.inj u u' hu hu' hw hw' ?_
    rw [h.forest.page_eq hdata hperm.isFlags hx, h.forest.page_eq hdata' hperm.isFlags hx'] at heq
    rw [hx, hx', heq]

theorem Filled.undo (hperm : IsFlags perm) (hcleared : Cleared r v n k' L' k'' L'') :
    Undone r k L k'' L'' := by
  have hpage : ∀ u, v ≤ u → u < v + n → L.role (L'.view k' r u).page = .free ∧ k'.pageRefCount (L'.view k' r u).page = 1 := by
    intro u hu hu'
    obtain ⟨x, hx, hfree, hdata, hone, _⟩ := h.page u hu hu'
    rw [h.forest.page_eq hdata hperm hx]
    exact ⟨hfree, hone⟩
  have hne : ∀ x, L.role x ≠ .free → ∀ u, v ≤ u → u < v + n → x ≠ (L'.view k' r u).page := by
    rintro x hx u hu hu' rfl
    exact hx (hpage u hu hu').1
  have hrole : ∀ x, L.role x ≠ .free → L''.role x = L.role x := fun x hx => (hcleared.role_eq x (hne x hx)).trans (h.role_eq x hx)
  refine ⟨hcleared.forest, hrole, fun x hx => (hcleared.count_eq x (hne x hx)).trans (h.count_eq x hx), fun x hx => ?_, fun x hx => ?_,
    fun x u hu => ?_, fun x u hu hvalid => ?_⟩
  · have hfree : L.role x ≠ .free := by
      rw [hx]
      nofun
    exact (hcleared.mem_eq x ((h.role_eq x hfree).trans hx) ((hrole x hfree).trans hx)).trans (h.mem_eq x hx)
  · by_cases hin : ∃ u, v ≤ u ∧ u < v + n ∧ x = (L'.view k' r u).page
    · obtain ⟨u, hu, hu', rfl⟩ := hin
      left
      rw [hcleared.role_page u hu hu', if_pos (hpage u hu hu').2]
    · rw [hcleared.role_eq x fun u hu hu' heq => hin ⟨u, hu, hu', heq⟩]
      rcases h.fresh x hx with hfree | hbelow | ⟨u, hu, hu', heq, hdata⟩
      · exact .inl hfree
      · exact .inr hbelow
      · exact absurd ⟨u, hu, hu', (h.forest.page_eq hdata hperm heq).symm⟩ hin
  · by_cases hin : slotRange r v n x u
    · obtain ⟨rfl, hu', hu''⟩ := hin
      rw [hcleared.zero u hu' hu'', h.unused u hu' hu'', zero_not_valid]
    · rw [hcleared.view_eq x u hu hin, h.view_eq x u hu hin]
  · have hin : ¬ slotRange r v n x u := by
      rintro ⟨rfl, hu', hu''⟩
      rw [h.unused u hu' hu''] at hvalid
      cases hvalid
    rw [hcleared.view_eq x u hu hin, h.view_eq x u hu hin]

end

/-! ### `uvmalloc` -/

theorem post_mappages_high {pa : ℕ} {perm : Pte} {Q : ℤ → KState → Prop} (hv : 2 ^ 26 ≤ v) (hpanic : E .walk) :
    Post (mappages (r * pgsize) (v * pgsize) pgsize pa perm) k Q E := by
  have hfirst : pgrounddown (v * pgsize) = v * pgsize := by rw [pgrounddown, div_pgsize]
  unfold mappages
  rw [if_neg (by decide)]
  simp only [hfirst]
  refine Post.step (R := fun _ _ => False) ?_ fun _ _ hfalse => hfalse.elim
  refine Post.loop (I := fun i _ => i = 0) rfl (fun i k' _ hi => ?_) fun _ hzero => absurd hzero (Nat.succ_ne_zero _)
  rw [hi, Nat.zero_mul, Nat.add_zero]
  refine Post.bind ?_
  unfold walk
  rw [if_pos (by unfold maxva pgsize; omega)]
  exact Post.panic hpanic

theorem Forest.post_uvmallocPage {start : ℕ} (h : Forest k L) (hr : L.role r = .root) {Q : Option ℕ → KState → Prop}
    (hwalk : 2 ^ 26 ≤ v → E .walk) (hremap : v < 2 ^ 26 → (L.view k r v).has pteV = true → E .mappagesRemap)
    (hempty : Post (uvmdealloc (r * pgsize) (v * pgsize) start) k (fun _ k' => Q (some 0) k') E)
    (hfull : ∀ p k1 L1 k2 L2, v < 2 ^ 26 → Provided r p k L k1 L1 → Freed p k1 L1 k2 L2 →
      Post (uvmdealloc (r * pgsize) (v * pgsize) start) k2 (fun _ k' => Q (some 0) k') E)
    (hdone : ∀ p q k1 L1, v < 2 ^ 26 → Provided r p k L k1 L1 → (L.view k r v).has pteV = false → slot k1.mem r (v * pgsize) = some q →
      Q none (k1.write q (leafPte p (pteR ||| pteU ||| xperm)))) :
    Post (uvmallocPage (r * pgsize) start xperm (v * pgsize)) k Q E := by
  unfold uvmallocPage
  refine Post.bind (h.post_kalloc (fun _ => ?_) fun p k1 L1 hpopped1 => ?_)
  · rw [if_pos rfl]
    exact Post.step hempty fun _ k' hk' => Post.pure hk'
  rw [if_neg hpopped1.address_ne_zero]
  have hpopped := hpopped1.setPage fun _ => repeatByte 0
  refine Post.bind (post_memset ?_)
  generalize hk2 : ({ k1 with mem := update k1.mem p fun _ => repeatByte 0 } : KState) = k2 at hpopped ⊢
  have hzero : k2.mem p = fun _ => 0 := by
    rw [← hk2]
    exact update_self ..
  have hr1 : L1.role r = .root := role_kept (hpopped.kept h).role_eq hr nofun
  have hview := hpopped.view_eq h
  rcases Nat.lt_or_ge v (2 ^ 26) with hv | hv
  · refine Post.bind (hpopped.forest.post_mappages hr1 hv (fun hvalid => ?_) (fun n k3 L3 hsprouted _ _ => ?_)
      fun q k3 L3 hsprouted _ hinvalid hslot => ?_)
    · rw [hview] at hvalid
      exact hremap hv hvalid
    · rw [if_pos (by decide)]
      have hprovided := hpopped.provided h hzero hsprouted
      refine Post.bind (hprovided.forest.post_kfree hprovided.new_data (fun hle => ?_) fun k4 L4 hfreed _ => ?_)
      · have hone := hprovided.count_one
        omega
      · exact Post.step (hfull p k3 L3 k4 L4 hv hprovided hfreed) fun _ k' hk' => Post.pure hk'
    · rw [if_neg (by decide)]
      rw [hview] at hinvalid
      exact Post.pure (hdone p q k3 L3 hv (hpopped.provided h hzero hsprouted) hinvalid hslot)
  · exact Post.bind (post_mappages_high hv (hwalk hv))

theorem pgroundup_page (hn : n * pgsize < 2 ^ 64) : pgroundup (n * pgsize) = n * pgsize := by
  unfold pgroundup
  have hup : n * pgsize + pgsize - 1 = pgsize * n + (pgsize - 1) := by
    unfold pgsize
    omega
  rw [Nat.mod_eq_of_lt (by unfold pgsize at *; omega), hup, Nat.mul_add_div (by decide), Nat.div_eq_of_lt (by decide), Nat.add_zero]

theorem Filled.post_uvmdealloc (h : Filled r v n perm k L k' L') (hforest : Forest k L) (hr : L.role r = .root)
    (hv : v + n ≤ 2 ^ 26 ∨ n = 0) (hperm : Readable perm) {Q : KState → Prop} (hdone : ∀ k'' L'', Cleared r v n k' L' k'' L'' → Q k'') :
    Post (uvmdealloc (r * pgsize) ((v + n) * pgsize) (v * pgsize)) k' (fun _ k'' => Q k'') E := by
  have hlength := hforest.length_le
  have hle := h.length_le
  unfold uvmdealloc
  rcases Nat.eq_zero_or_pos n with rfl | hpos
  · rw [Nat.add_zero, if_pos (Nat.le_refl _)]
    exact Post.pure (hdone k' L' (Cleared.zero_range h.forest r v))
  · have hv' := hv.resolve_right (by omega)
    have hlt : v * pgsize < (v + n) * pgsize := Nat.mul_lt_mul_of_pos_right (by omega) (by decide)
    have hend : (v + n) * pgsize < 2 ^ 64 := by
      unfold pgsize
      omega
    rw [if_neg (by omega), pgroundup_page hend, pgroundup_page (Nat.lt_trans hlt hend), if_pos hlt]
    have hcount : (v + n) * pgsize - v * pgsize = n * pgsize := by
      rw [← Nat.sub_mul, Nat.add_sub_cancel_left]
    rw [hcount, div_pgsize, toInt32_of_lt (by omega) (by omega)]
    have hnat : ((n : ℤ) % 2 ^ 64).toNat = n := by omega
    simp only [hnat]
    refine Post.bind (h.forest.post_uvmunmap (h.root hr) hv' (h.mapsData hperm) (fun ⟨u, hu, hu', hneg⟩ => ?_) fun k'' L'' hcleared =>
      Post.pure (hdone k'' L'' hcleared))
    obtain ⟨x, hx, _, hdata, hone, _⟩ := h.page u hu hu'
    rw [h.forest.page_eq hdata hperm.isFlags hx] at hneg
    omega

theorem Forest.post_uvmalloc (h : Forest k L) (hr : L.role r = .root) (hold : oldsz ≤ newsz) (hstart : pgroundup oldsz = v * pgsize)
    (hn : (newsz - v * pgsize + pgsize - 1) / pgsize = n) (hx : IsFlags xperm) {Q : ℕ → KState → Prop}
    (hpanic : ∀ i k' L', i < n → Filled r v i (pteR ||| pteU ||| xperm) k L k' L' →
      (2 ^ 26 ≤ v + i → E .walk) ∧ ((L.view k r (v + i)).has pteV = true → E .mappagesRemap))
    (hfail : ∀ i k1 L1 k' L', i < n → Filled r v i (pteR ||| pteU ||| xperm) k L k1 L1 → Cleared r v i k1 L1 k' L' → Q 0 k')
    (hdone : ∀ k' L', v + n ≤ 2 ^ 26 ∨ n = 0 → Filled r v n (pteR ||| pteU ||| xperm) k L k' L' → Q newsz k') :
    Post (uvmalloc (r * pgsize) oldsz newsz xperm) k Q E := by
  have hperm := readable_xperm hx
  unfold uvmalloc
  rw [if_neg (by omega), hstart]
  simp only [hn]
  refine Post.step (R := fun b k' => b.elim ((v + n ≤ 2 ^ 26 ∨ n = 0) ∧ ∃ L', Filled r v n (pteR ||| pteU ||| xperm) k L k' L') fun z => z = 0 ∧ Q 0 k') ?_
    fun b k' hb => ?_
  · refine Post.loop (I := fun i k' => (v + i ≤ 2 ^ 26 ∨ i = 0) ∧ ∃ L', Filled r v i (pteR ||| pteU ||| xperm) k L k' L')
      ⟨.inr rfl, L, Filled.zero h r v _⟩ (fun i k' hi hk' => ?_) fun k' hk' => hk'
    obtain ⟨hle, L', hL'⟩ := hk'
    have hback : ∀ k1 L1, Filled r v i (pteR ||| pteU ||| xperm) k L k1 L1 →
        Post (uvmdealloc (r * pgsize) ((v + i) * pgsize) (v * pgsize)) k1 (fun _ k'' => (0 : ℕ) = 0 ∧ Q 0 k'') E :=
      fun k1 L1 hL1 => hL1.post_uvmdealloc h hr hle hperm fun k'' L'' hcleared => ⟨rfl, hfail i k1 L1 k'' L'' hi hL1 hcleared⟩
    obtain ⟨hwalk, hremap⟩ := hpanic i k' L' hi hL'
    rw [← Nat.add_mul]
    refine hL'.forest.post_uvmallocPage (hL'.root hr) hwalk (fun hlt hvalid => ?_) (hback k' L' hL')
      (fun p k1 L1 k2 L2 _ hprovided hfreed => hback k2 L2 (hL'.retreat hprovided hfreed)) fun p q k1 L1 hlt hprovided hinvalid hslot => ?_
    · rw [hL'.view_eq r (v + i) (by omega) (by rintro ⟨_, _, _⟩; omega)] at hvalid
      exact hremap hvalid
    · exact ⟨.inl (by omega), L1, hL'.snoc hr hlt hperm.isFlags hprovided hinvalid hslot⟩
  · cases b with
    | none =>
      obtain ⟨hend, L', hL'⟩ := hb
      exact Post.pure (hdone k' L' hend hL')
    | some z =>
      obtain ⟨rfl, hQ⟩ := hb
      exact Post.pure hQ

/-- The rounds of `uvmalloc` go to the end of the page with the last byte. -/
theorem rounds_eq (hold : oldsz ≤ newsz) (hnew : newsz < 2 ^ 64)
    (hn : (newsz - pgroundup oldsz + pgsize - 1) / pgsize = n) (hend : pgroundup oldsz / pgsize + n ≤ 2 ^ 26 ∨ n = 0) :
    n = pgroundup newsz / pgsize - pgroundup oldsz / pgsize := by
  unfold pgroundup pgsize at *
  omega

/-- What a call of `uvmalloc` may come to. It panics only where the range goes beyond the page tables or meets a page that is mapped. -/
structure GrowsOrNot (r oldsz newsz : ℕ) (xperm : Pte) (k : KState) (L : Ledger) : Prop where
  returns : ∀ sz k', uvmalloc (r * pgsize) oldsz newsz xperm k = .ok (sz, k') → sz = 0 ∨ sz = newsz
  nothing : ∀ k', uvmalloc (r * pgsize) oldsz newsz xperm k = .ok (0, k') → ∃ L', Undone r k L k' L'
  all : ∀ k', uvmalloc (r * pgsize) oldsz newsz xperm k = .ok (newsz, k') → ∃ L',
    Filled r (pgroundup oldsz / pgsize) (pgroundup newsz / pgsize - pgroundup oldsz / pgsize) (pteR ||| pteU ||| xperm) k L k' L'
  panics : ∀ e, uvmalloc (r * pgsize) oldsz newsz xperm k = .error e →
    (e = .walk ∧ ∃ a, pgroundup oldsz ≤ a ∧ a < newsz ∧ maxva ≤ a) ∨
      (e = .mappagesRemap ∧ ∃ u, pgroundup oldsz ≤ u * pgsize ∧ u * pgsize < newsz ∧ (L.view k r u).has pteV = true)

/-- Growing memory is all or nothing, for every page table and all sizes, and wherever the free pages run out. -/
theorem uvmalloc_all_or_nothing {oldsz newsz : ℕ} {xperm : Pte} (h : Forest k L) (hr : L.role r = .root) (hold : oldsz ≤ newsz)
    (hnew : newsz < 2 ^ 64) (hx : IsFlags xperm) : GrowsOrNot r oldsz newsz xperm k L := by
  have hstart : pgroundup oldsz = pgroundup oldsz / pgsize * pgsize := by
    unfold pgroundup
    rw [div_pgsize]
  have hround : ∀ {i}, i < (newsz - pgroundup oldsz / pgsize * pgsize + pgsize - 1) / pgsize →
      pgroundup oldsz ≤ (pgroundup oldsz / pgsize + i) * pgsize ∧ (pgroundup oldsz / pgsize + i) * pgsize < newsz := by
    intro i hi
    unfold pgsize at *
    omega
  have hpost : Post (uvmalloc (r * pgsize) oldsz newsz xperm) k
      (fun sz k' => (sz = 0 ∧ 0 < newsz ∧ ∃ L', Undone r k L k' L') ∨ (sz = newsz ∧ ∃ L',
        Filled r (pgroundup oldsz / pgsize) (pgroundup newsz / pgsize - pgroundup oldsz / pgsize) (pteR ||| pteU ||| xperm) k L k' L'))
      fun e => (e = .walk ∧ ∃ a, pgroundup oldsz ≤ a ∧ a < newsz ∧ maxva ≤ a) ∨
        (e = .mappagesRemap ∧ ∃ u, pgroundup oldsz ≤ u * pgsize ∧ u * pgsize < newsz ∧ (L.view k r u).has pteV = true) := by
    refine h.post_uvmalloc hr hold hstart rfl hx (fun i k' L' hi _ => ⟨fun hhigh => .inl ⟨rfl, _, (hround hi).1, (hround hi).2, ?_⟩,
      fun hvalid => .inr ⟨rfl, _, (hround hi).1, (hround hi).2, hvalid⟩⟩) (fun i k1 L1 k' L' hi hL1 hcleared => ?_) fun k' L' hend hL' => ?_
    · unfold maxva pgsize at *
      omega
    · exact .inl ⟨rfl, Nat.zero_lt_of_lt (hround hi).2, L', hL1.undo (readable_xperm hx).isFlags hcleared⟩
    · rw [rounds_eq hold hnew (by rw [← hstart]) hend] at hL'
      exact .inr ⟨rfl, L', hL'⟩
  refine ⟨fun sz k' hrun => ?_, fun k' hrun => ?_, fun k' hrun => ?_, fun e hrun => hpost.of_error hrun⟩
  · rcases hpost.of_ok hrun with ⟨hzero, _⟩ | ⟨hsize, _⟩
    · exact .inl hzero
    · exact .inr hsize
  · rcases hpost.of_ok hrun with ⟨_, _, hL'⟩ | ⟨hzero, L', hL'⟩
    · exact hL'
    · -- a size of zero: there was nothing to do
      have hsame : pgroundup newsz / pgsize - pgroundup oldsz / pgsize = 0 := by
        rw [← hzero, show oldsz = 0 by omega]
        rfl
      rw [hsame] at hL'
      exact ⟨L', hL'.undo (readable_xperm hx).isFlags (Cleared.zero_range hL'.forest r _)⟩
  · rcases hpost.of_ok hrun with ⟨hzero, hpos, _⟩ | ⟨_, hL'⟩
    · omega
    · exact hL'

theorem uvmalloc_all_or_nothing_fresh : ∃ (k : KState) (L : Ledger) (r : ℕ), Forest k L ∧ L.role r = .root ∧ GrowsOrNot r 0 (3 * pgsize) pteW k L := by
  obtain ⟨_, _, r, k, L, _, hplanted⟩ := exists_planted
  refine ⟨k, L, r, hplanted.forest, hplanted.root, ?_⟩
  exact uvmalloc_all_or_nothing hplanted.forest hplanted.root (by decide) (by decide) (isFlags_of_pteFlags (by decide))

end AdvancedXv6.Kernel
