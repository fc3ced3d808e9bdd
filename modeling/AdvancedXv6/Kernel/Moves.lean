import AdvancedXv6.Kernel.Forest

/-!
# What the allocator does to the ledger

The rules for `kalloc` and `kfree` with the ledger in hand: each keeps it right, and neither changes an entry of a page table or the contents of a mapped page.
-/

namespace AdvancedXv6.Kernel

open Function Prog

def KState.Wrapped (k : KState) : Prop := ∃ p, k.pageRefCount p < 0

/-- Nothing has changed for a user of the page tables outside the slots `touched`: the same roots, the same entries, and the same contents behind them. -/
structure Keeps (touched : ℕ → ℕ → Prop) (k : KState) (L : Ledger) (k' : KState) (L' : Ledger) : Prop where
  root_iff : ∀ x, L'.role x = .root ↔ L.role x = .root
  view_eq : ∀ x u, u < 2 ^ 27 → ¬ touched x u → L'.view k' x u = L.view k x u
  page_eq : ∀ x u, u < userPages → ¬ touched x u → (L.view k x u).has pteV = true →
    k'.mem (L.view k x u).page = k.mem (L.view k x u).page

theorem Keeps.view_high {r u : ℕ} {touched : ℕ → ℕ → Prop} {k k' : KState} {L L' : Ledger}
    (h : Keeps touched k L k' L') (huser : ∀ u, touched r u → u < userPages)
    (hu : u < 2 ^ 27) (hle : userPages ≤ u) : L'.view k' r u = L.view k r u := h.view_eq r u hu fun ht => Nat.not_lt.mpr hle (huser u ht)

def noSlot : ℕ → ℕ → Prop := fun _ _ => False

variable {k k' k'' : KState} {L L' L'' : Ledger} {touched touched' : ℕ → ℕ → Prop} {r v p : ℕ}

theorem Keeps.refl (k : KState) (L : Ledger) : Keeps touched k L k L :=
  ⟨fun _ => Iff.rfl, fun _ _ _ _ => rfl, fun _ _ _ _ _ => rfl⟩

theorem Keeps.trans (h : Keeps touched k L k' L') (h' : Keeps touched k' L' k'' L'') : Keeps touched k L k'' L'' := by
  have hlt := userPages_lt
  refine ⟨fun x => (h'.root_iff x).trans (h.root_iff x), fun x u hu hnot => ?_, fun x u hu hnot hvalid => ?_⟩
  · rw [h'.view_eq x u hu hnot, h.view_eq x u hu hnot]
  · have heq := h.view_eq x u (by omega) hnot
    have hpage := h'.page_eq x u hu hnot (by rw [heq]; exact hvalid)
    rw [heq] at hpage
    rw [hpage, h.page_eq x u hu hnot hvalid]

theorem Keeps.mono (h : Keeps touched k L k' L') (hle : ∀ x u, touched x u → touched' x u) : Keeps touched' k L k' L' :=
  ⟨h.root_iff, fun x u hu hnot => h.view_eq x u hu fun ht => hnot (hle x u ht),
    fun x u hu hnot => h.page_eq x u hu fun ht => hnot (hle x u ht)⟩

theorem Keeps.of_none (h : Keeps noSlot k L k' L') : Keeps touched k L k' L' := h.mono fun _ _ ht => ht.elim

/-! ### Changes at one page -/

/-- The books stay right when the role, the count and the held references of one page change with them. -/
theorem Shares.adjust {view : ℕ → ℕ → Pte} {role role' : ℕ → Role} {count count' : ℕ → ℤ} {held held' : ℕ → ℕ}
    (h : Shares view role count held)
    (hrest : ∀ x, x ≠ p → role' x = role x ∧ count' x = count x ∧ held' x = held x)
    (hmapped : ∀ r v, v < userPages → (view r v).has pteV = true → (view r v).page = p → role' p = .data)
    (hcount : role' p = .data → count' p < 0 ∨ (userRefs view p + held' p : ℕ) ≤ count' p)
    (hheld : 0 < held' p → role' p = .data) : Shares view role' count' held' := by
  refine ⟨fun r v hv => ?_, h.kernel, h.shared, fun x hx => ?_, fun x hx => ?_⟩
  · rcases h.user r v hv with hzero | ⟨hvalid, hread, hdata⟩
    · exact .inl hzero
    · refine .inr ⟨hvalid, hread, ?_⟩
      by_cases hpage : (view r v).page = p
      · rw [hpage]
        exact hmapped r v hv hvalid hpage
      · rw [(hrest _ hpage).1]
        exact hdata
  · by_cases hxp : x = p
    · subst hxp
      exact hcount hx
    · obtain ⟨hrole, hc, hh⟩ := hrest x hxp
      rw [hrole] at hx
      rw [hc, hh]
      exact h.count_le x hx
  · by_cases hxp : x = p
    · subst hxp
      exact hheld hx
    · obtain ⟨hrole, _, hh⟩ := hrest x hxp
      rw [hh] at hx
      rw [hrole]
      exact h.held_data x hx

theorem Inv.view_setPage (h : Inv k L) (hp : L.role p = .data) (page : Page) :
    L.view { k with mem := update k.mem p page } = L.view k :=
  h.forest.view_congr (fun _ => Iff.rfl) fun _ => mem_table_setPage hp page

theorem Inv.setPage (h : Inv k L) (hp : L.role p = .data) (page : Page) :
    Inv { k with mem := update k.mem p page } L := by
  refine (h.forest.setPage hp page).inv h.count_lt ?_
  rw [h.view_setPage hp]
  exact h.shares

theorem Inv.change (h : Inv k L) (hforest : Forest k' L') (hview : L'.view k' = L.view k)
    (hrest : ∀ x, x ≠ p → L'.role x = L.role x ∧ k'.pageRefCount x = k.pageRefCount x ∧ L'.held x = L.held x)
    (hlt : k'.pageRefCount p < 2 ^ 31) (hmapped : userRefs (L.view k) p ≠ 0 → L'.role p = .data)
    (hcount : L'.role p = .data → k'.pageRefCount p < 0 ∨ (userRefs (L.view k) p + L'.held p : ℕ) ≤ k'.pageRefCount p)
    (hheld : 0 < L'.held p → L'.role p = .data) : Inv k' L' := by
  refine hforest.inv (fun x => ?_) ?_
  · by_cases hxp : x = p
    · rw [hxp]
      exact hlt
    · rw [(hrest x hxp).2.1]
      exact h.count_lt x
  · rw [hview]
    refine h.shares.adjust hrest (fun r v hv hvalid hpage => hmapped fun hnone => ?_) hcount hheld
    rw [not_valid_of_userRefs h hnone hv hpage] at hvalid
    cases hvalid

theorem Inv.keeps_of_view (h : Inv k L) (hroot : ∀ x, L'.role x = .root ↔ L.role x = .root) (hview : L'.view k' = L.view k)
    (hmem : ∀ x, userRefs (L.view k) x ≠ 0 → k'.mem x = k.mem x) : Keeps noSlot k L k' L' := by
  refine ⟨hroot, fun x u _ _ => by rw [hview], fun x u hu _ hvalid => hmem _ fun hnone => ?_⟩
  rw [not_valid_of_userRefs h hnone hu rfl] at hvalid
  cases hvalid

theorem Inv.keeps_setPage (h : Inv k L) (hp : L.role p = .data) (hrefs : userRefs (L.view k) p = 0) (page : Page) :
    Keeps noSlot k L { k with mem := update k.mem p page } L := by
  refine h.keeps_of_view (fun _ => Iff.rfl) (h.view_setPage hp page) fun x hx => update_of_ne ?_ _ _
  rintro rfl
  exact hx hrefs

theorem wrapped_of_ne (hrest : ∀ x, x ≠ p → k'.pageRefCount x = k.pageRefCount x) (hp : k'.pageRefCount p < 0 → k.pageRefCount p < 0) :
    k'.Wrapped → k.Wrapped := by
  rintro ⟨x, hx⟩
  by_cases hxp : x = p
  · rw [hxp] at hx
    exact ⟨p, hp hx⟩
  · rw [hrest x hxp] at hx
    exact ⟨x, hx⟩

/-! ### `kalloc` -/

structure Taken (k : KState) (L : Ledger) (p : ℕ) (k' : KState) (L' : Ledger) : Prop where
  inv : Inv k' L'
  keeps : Keeps noSlot k L k' L'
  free_eq : L.free = p :: L'.free
  role_eq : L'.role = update L.role p .data
  held_eq : L'.held = update L.held p 1
  held_zero : L.held p = 0
  view_eq : L'.view k' = L.view k
  refs_eq : userRefs (L'.view k') p = 0
  count_eq : k'.pageRefCount = update k.pageRefCount p 1
  wrapped : k'.Wrapped → k.Wrapped
  mem_eq : ∀ x, x ≠ p → k'.mem x = k.mem x

theorem Inv.refs_of_not_data (h : Inv k L) (hp : L.role p ≠ .data) : userRefs (L.view k) p = 0 := by
  refine Sharing.refs_eq_zero_iff.mpr fun s hs htarget => ?_
  obtain ⟨hvalid, rfl⟩ := target_eq_some htarget
  exact hp (h.data_of_valid (mem_userSlots_iff.mp hs).2 hvalid)

theorem Inv.held_of_not_data (h : Inv k L) (hp : L.role p ≠ .data) : L.held p = 0 := by
  by_contra hheld
  exact hp (h.shares.held_data p (Nat.pos_of_ne_zero hheld))

theorem Popped.taken (h : Popped p k L k' L') (hinv : Inv k L) : Taken k L p k' { L' with held := update L.held p 1 } := by
  have hfree := h.role_free hinv.forest
  have hdata := h.role_data
  have hrefs := hinv.refs_of_not_data (p := p) (by rw [hfree]; nofun)
  have hview := h.view_eq hinv.forest
  have hone : k'.pageRefCount p = 1 := by rw [h.count_eq, update_self]
  refine ⟨hinv.change (h.forest.setHeld _) hview (fun x hx => ⟨h.role_of_ne hx, h.count_of_ne hx, update_of_ne hx _ _⟩) (by omega) (fun _ => hdata)
    (fun _ => .inr ?_) fun _ => hdata, hinv.keeps_of_view (h.root_iff hinv.forest) hview fun x hx => h.mem_eq x ?_, h.free_eq, h.role_eq, rfl,
    hinv.held_of_not_data (by rw [hfree]; nofun), hview, (congrArg (userRefs · p) hview).trans hrefs, h.count_eq,
    wrapped_of_ne (fun x hx => h.count_of_ne hx) (by omega), h.mem_eq⟩
  · simp only [hone, hrefs, update_self]
    decide
  · rintro rfl
    exact hx hrefs

theorem Inv.post_kalloc (h : Inv k L) {Q : ℕ → KState → Prop} {E : Panic → Prop} (hempty : L.free = [] → Q 0 k)
    (htaken : ∀ p k' L', Taken k L p k' L' → Q (p * pgsize) k') : Post kalloc k Q E :=
  h.forest.post_kalloc hempty fun p k' _ hpopped => htaken p k' _ (hpopped.taken h)

/-! ### `kfree` -/

structure Dropped (k : KState) (L : Ledger) (p : ℕ) (k' : KState) (L' : Ledger) : Prop where
  inv : Inv k' L'
  keeps : Keeps noSlot k L k' L'
  view_eq : L'.view k' = L.view k
  role_eq : ∀ x, x ≠ p → L'.role x = L.role x
  held_eq : L'.held = update L.held p (L.held p - 1)
  free_eq : L'.free = if k.pageRefCount p = 1 then p :: L.free else L.free
  pos : 0 < k.pageRefCount p
  count_self : k'.pageRefCount p = k.pageRefCount p - 1
  count_eq : ∀ x, x ≠ p → k'.pageRefCount x = k.pageRefCount x
  wrapped : k'.Wrapped → k.Wrapped
  mem_eq : ∀ x, x ≠ p → k'.mem x = k.mem x

theorem Freed.dropped (h : Freed p k L k' L') (hinv : Inv k L) (hheld : 0 < L.held p)
    (hfree : L'.free = if k.pageRefCount p = 1 then p :: L.free else L.free) : Dropped k L p k' { L' with held := update L.held p (L.held p - 1) } := by
  have hp := hinv.shares.held_data p hheld
  have hlt := hinv.count_lt p
  have hle := hinv.shares.count_le p hp
  have hpos := h.pos
  have hview := h.view_eq hinv.forest hp
  have hself : k'.pageRefCount p = k.pageRefCount p - 1 := by rw [h.count_eq, update_self]
  -- a page that is mapped or held elsewhere has another reference
  have hlast : k.pageRefCount p = 1 → userRefs (L.view k) p = 0 ∧ L.held p = 1 := fun hone => by omega
  have hmany : k.pageRefCount p ≠ 1 → L'.role p = .data := fun hne => by rw [h.role_self, if_neg hne]
  refine ⟨hinv.change (h.forest.setHeld _) hview (fun x hx => ⟨h.role_of_ne hx, h.count_of_ne hx, update_of_ne hx _ _⟩) (by omega)
    (fun hrefs => hmany fun hone => hrefs (hlast hone).1) (fun _ => ?_) (fun hmore => hmany fun hone => ?_),
    hinv.keeps_of_view (h.root_iff hp) hview fun x hx => h.mem_eq x ?_, hview, fun x hx => h.role_of_ne hx, rfl, hfree, hpos, hself,
    fun x hx => h.count_of_ne hx, wrapped_of_ne (fun x hx => h.count_of_ne hx) (by omega), fun x hx => h.mem_eq x (.inl hx)⟩
  · simp only [hself, update_self]
    omega
  · simp only [update_self, (hlast hone).2] at hmore
    omega
  · by_cases hxp : x = p
    · rw [hxp] at hx
      exact .inr fun hone => hx (hlast hone).1
    · exact .inl hxp

theorem Inv.post_kfree (h : Inv k L) (hheld : 0 < L.held p) {Q : Unit → KState → Prop} {E : Panic → Prop}
    (hpanic : k.pageRefCount p ≤ 0 → E .decrementReference) (hdropped : ∀ k' L', Dropped k L p k' L' → Q () k') :
    Post (kfree (p * pgsize)) k Q E :=
  h.forest.post_kfree (h.shares.held_data p hheld) hpanic fun k' _ hfreed hfree => hdropped k' _ (hfreed.dropped h hheld hfree)

theorem toInt32_succ {z : ℤ} (hlow : 0 ≤ z) (hhigh : z < 2 ^ 31) :
    toInt32 (z + 1) < 2 ^ 31 ∧ (toInt32 (z + 1) < 0 ∨ toInt32 (z + 1) = z + 1) := by
  by_cases hmax : z + 1 < 2 ^ 31
  · rw [toInt32, Int.bmod_eq_of_le (by omega) (by omega)]
    exact ⟨hmax, .inr rfl⟩
  · rw [show z = 2147483647 by omega, show toInt32 (2147483647 + 1) = -2147483648 by decide]
    exact ⟨by decide, .inl (by decide)⟩

end AdvancedXv6.Kernel
