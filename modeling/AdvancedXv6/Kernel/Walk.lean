import AdvancedXv6.Kernel.Moves

/-!
# `walk` and `mappages`

What the page-table pages that `walk` puts in mean for the books: `Grown` says that for the users of the page tables nothing has changed. `mappages` of one page writes the slot found in this way.
-/

namespace AdvancedXv6.Kernel

open Function Prog

variable {k k' : KState} {L L' : Ledger} {r v p va : ℕ} {q : PtePtr} {E : Panic → Prop}

/-! ### Page-table pages on free pages -/

/-- At most `n` free pages have become page-table pages, and nothing else has changed. -/
structure Grown (n : ℕ) (k : KState) (L : Ledger) (k' : KState) (L' : Ledger) : Prop where
  inv : Inv k' L'
  view_eq : L'.view k' = L.view k
  role_eq : ∀ x, L.role x ≠ .free → L'.role x = L.role x
  root_iff : ∀ x, L'.role x = .root ↔ L.role x = .root
  mem_eq : ∀ x, L.role x = .data → k'.mem x = k.mem x
  count_eq : ∀ x, L.role x ≠ .free → k'.pageRefCount x = k.pageRefCount x
  held_eq : L'.held = L.held
  free_of_free : ∀ x, L'.role x = .free → L.role x = .free
  free_le : L.free.length ≤ L'.free.length + n
  wrapped : k'.Wrapped → k.Wrapped

theorem Grown.role_full {n : ℕ} (h : Grown n k L k' L') (hinv : Inv k L) (hfull : L.free = []) : L'.role = L.role ∧ L'.free = [] := by
  have hnone : ∀ x, L.role x ≠ .free := by
    intro x hx
    have hmem := (hinv.free_iff x).mpr hx
    rw [hfull] at hmem
    cases hmem
  have hrole : L'.role = L.role := funext fun x => h.role_eq x (hnone x)
  refine ⟨hrole, List.eq_nil_iff_forall_not_mem.mpr fun x hx => hnone x ?_⟩
  rw [← hrole]
  exact (h.inv.free_iff x).mp hx

theorem Grown.keeps {n : ℕ} (h : Grown n k L k' L') (hinv : Inv k L) : Keeps noSlot k L k' L' := by
  refine ⟨h.root_iff, fun x u _ _ => by rw [h.view_eq], fun x u hu _ hvalid => ?_⟩
  exact h.mem_eq _ (hinv.data_of_valid hu hvalid)

section

variable (h : Taken k L p k' L')
include h

theorem Taken.role_free (hinv : Inv k L) : L.role p = .free :=
  hinv.forest.role_head h.free_eq

theorem Taken.role_data : L'.role p = .data := by rw [h.role_eq, update_self]

theorem Taken.address_ne_zero : p * pgsize ≠ 0 := h.inv.forest.address_ne_zero (by rw [h.role_data]; nofun)

theorem Taken.ne (hinv : Inv k L) {x : ℕ} (hx : L.role x ≠ .free) : x ≠ p := by
  rintro rfl
  exact hx (h.role_free hinv)

theorem Taken.setPage (page : Page) :
    Taken k L p { k' with mem := update k'.mem p page } L' := by
  have hdata := h.role_data
  have hkeeps := h.inv.keeps_setPage hdata h.refs_eq page
  have hview := h.inv.view_setPage hdata page
  refine ⟨h.inv.setPage hdata page, h.keeps.trans hkeeps, h.free_eq, h.role_eq, h.held_eq,
    h.held_zero, hview.trans h.view_eq, ?_, h.count_eq, h.wrapped, fun x hx => ?_⟩
  · rw [hview]
    exact h.refs_eq
  · rw [← h.mem_eq x hx]
    exact update_of_ne hx _ _

end

/-! ### The books when pages are taken into use -/

section

variable (h : Kept k L k' L')
include h

theorem Kept.data {x : ℕ} (hx : L.role x = .data) :
    L'.role x = .data ∧ k'.pageRefCount x = k.pageRefCount x ∧ k'.mem x = k.mem x :=
  ⟨role_kept h.role_eq hx nofun, h.count_eq x (by rw [hx]; nofun), h.mem_eq x hx⟩

theorem Kept.free_of_data {x : ℕ} (hx : L.role x ≠ .data) (hx' : L'.role x = .data) : L.role x = .free := by
  by_contra hne
  rw [h.role_eq x hne] at hx'
  exact hx hx'

theorem Kept.root_iff (hfresh : ∀ x, L.role x = .free → L'.role x ≠ .root) (x : ℕ) : L'.role x = .root ↔ L.role x = .root := by
  by_cases hx : L.role x = .free
  · rw [hx]
    exact ⟨fun hroot => absurd hroot (hfresh x hx), nofun⟩
  · rw [h.role_eq x hx]

theorem Kept.count (hold : Forest k L) (hforest : Forest k' L') (hnew : ∀ x, L.role x = .free → L'.role x = .data → k'.pageRefCount x = 1)
    (x : ℕ) : k'.pageRefCount x = k.pageRefCount x ∨ k'.pageRefCount x = 0 ∨ k'.pageRefCount x = 1 := by
  by_cases hx : L.role x = .free
  · right
    cases hrole : L'.role x with
    | outside => exact absurd (hold.allocatable (by rw [hx]; nofun)) ((hforest.outside_iff x).mp hrole)
    | free => exact .inl (hforest.count_free x hrole)
    | data => exact .inr (hnew x hx hrole)
    | root | mid | leaf => exact .inr (hforest.count_table x (by rw [hrole]; rfl))
  · exact .inl (h.count_eq x hx)

end

/-- The counted pages are used as before. Others may have come into use or out of it, and the entries that are `touched` map new pages, each its own, or belong to the kernel. -/
structure Renewed (touched : ℕ → ℕ → Prop) (k : KState) (L : Ledger) (k' : KState) (L' : Ledger) : Prop where
  forest : Forest k' L'
  held_eq : L'.held = L.held
  data : ∀ x, L.role x = .data → L'.role x = .data ∧ k'.pageRefCount x = k.pageRefCount x ∧ k'.mem x = k.mem x
  count : ∀ x, k'.pageRefCount x = k.pageRefCount x ∨ k'.pageRefCount x = 0 ∨ k'.pageRefCount x = 1
  count_new : ∀ x, L.role x ≠ .data → L'.role x = .data → k'.pageRefCount x = 1
  view_eq : ∀ x u, u < 2 ^ 27 → ¬ touched x u → L'.view k' x u = L.view k x u
  kernel : ∀ x u, touched x u → userPages ≤ u → KernelEntry u (L'.view k' x u)
  user : ∀ x u, touched x u → u < userPages → (L'.view k' x u).has pteV = true ∧ (L'.view k' x u).has pteR = true ∧
    L.role (L'.view k' x u).page ≠ .data ∧ L'.role (L'.view k' x u).page = .data
  inj : ∀ x u x' u', touched x u → touched x' u' → u < userPages → u' < userPages → (L'.view k' x u).page = (L'.view k' x' u').page → x = x' ∧ u = u'

section

variable {touched : ℕ → ℕ → Prop} (h : Renewed touched k L k' L') (hinv : Inv k L)
include h hinv

/-- An entry that is not new maps a page that has been counted before. -/
theorem Renewed.old_data {x u : ℕ} (hu : u < userPages) (hnot : ¬ touched x u) (hvalid : (L'.view k' x u).has pteV = true) :
    L.role (L'.view k' x u).page = .data ∧ L'.view k' x u = L.view k x u := by
  have hlt := userPages_lt
  have heq := h.view_eq x u (by omega) hnot
  rw [heq] at hvalid ⊢
  exact ⟨hinv.data_of_valid hu hvalid, rfl⟩

theorem Renewed.shared {x u x' u' : ℕ} (hu : u < userPages) (hu' : u' < userPages) (hvalid : (L'.view k' x u).has pteV = true)
    (hvalid' : (L'.view k' x' u').has pteV = true) (hpage : (L'.view k' x u).page = (L'.view k' x' u').page) :
    u = u' ∧ (x = x' ∨ L.role (L'.view k' x u).page = .data ∧ (L'.view k' x u).has pteW = false) := by
  by_cases ht : touched x u <;> by_cases ht' : touched x' u'
  · obtain ⟨hx, huu⟩ := h.inj x u x' u' ht ht' hu hu' hpage
    exact ⟨huu, .inl hx⟩
  · have hdata := (h.old_data hinv hu' ht' hvalid').1
    rw [← hpage] at hdata
    exact absurd hdata (h.user x u ht hu).2.2.1
  · have hdata := (h.old_data hinv hu ht hvalid).1
    rw [hpage] at hdata
    exact absurd hdata (h.user x' u' ht' hu').2.2.1
  · obtain ⟨hdata, heq⟩ := h.old_data hinv hu ht hvalid
    obtain ⟨_, heq'⟩ := h.old_data hinv hu' ht' hvalid'
    rw [heq] at hvalid hpage hdata ⊢
    rw [heq'] at hvalid' hpage
    obtain ⟨huu, hor⟩ := hinv.shares.shared x u x' u' hu hu' hvalid hvalid' hpage
    exact ⟨huu, hor.imp_right fun hread => ⟨hdata, hread⟩⟩

theorem Renewed.inv : Inv k' L' := by
  have hlt := userPages_lt
  refine h.forest.inv (fun x => ?_) ⟨fun x u hu => ?_, fun x u hu hu' => ?_,
    fun x u x' u' hu hu' hvalid hvalid' hpage => ?_, fun p hp => ?_, fun p hp => ?_⟩
  · have hold := hinv.count_lt x
    rcases h.count x with heq | heq | heq <;> omega
  · by_cases ht : touched x u
    · obtain ⟨hvalid, hread, _, hdata⟩ := h.user x u ht hu
      exact .inr ⟨hvalid, hread, hdata⟩
    · rw [h.view_eq x u (by omega) ht]
      exact (hinv.shares.user x u hu).imp_right fun ⟨hvalid, hread, hdata⟩ => ⟨hvalid, hread, (h.data _ hdata).1⟩
  · by_cases ht : touched x u
    · exact h.kernel x u ht hu
    · rw [h.view_eq x u hu' ht]
      exact hinv.shares.kernel x u hu hu'
  · obtain ⟨huu, hor⟩ := h.shared hinv hu hu' hvalid hvalid' hpage
    exact ⟨huu, hor.imp_right And.right⟩
  · rw [h.held_eq]
    by_cases hdata : L.role p = .data
    · have hrefs : userRefs (L'.view k') p ≤ userRefs (L.view k) p := Sharing.refs_mono fun s hs htarget => by
        obtain ⟨hvalid, hpage⟩ := target_eq_some htarget
        have hu := (mem_userSlots_iff.mp hs).2
        have hnot : ¬ touched s.1 s.2 := fun ht => (h.user _ _ ht hu).2.2.1 (by rw [hpage]; exact hdata)
        rw [target, ← (h.old_data hinv hu hnot hvalid).2]
        exact htarget
      have hcount := hinv.shares.count_le p hdata
      rw [(h.data p hdata).2.1]
      omega
    · have hrefs : userRefs (L'.view k') p ≤ 1 := Sharing.refs_le_one fun s hs t ht htarget htarget' => by
        obtain ⟨hvalid, hpage⟩ := target_eq_some htarget
        obtain ⟨hvalid', hpage'⟩ := target_eq_some htarget'
        obtain ⟨huu, hor⟩ := h.shared hinv (mem_userSlots_iff.mp hs).2 (mem_userSlots_iff.mp ht).2 hvalid hvalid' (hpage.trans hpage'.symm)
        rw [hpage] at hor
        exact Prod.ext (hor.resolve_right fun hold => hdata hold.1) huu
      rw [h.count_new p hdata hp, hinv.held_of_not_data hdata]
      omega
  · rw [h.held_eq] at hp
    exact (h.data p (hinv.shares.held_data p hp)).1

omit hinv in
theorem Renewed.wrapped : k'.Wrapped → k.Wrapped := by
  rintro ⟨x, hneg⟩
  refine ⟨x, ?_⟩
  rcases h.count x with heq | heq | heq <;> omega

theorem Renewed.page_eq {x u : ℕ} (hu : u < userPages) (hvalid : (L.view k x u).has pteV = true) :
    k'.mem (L.view k x u).page = k.mem (L.view k x u).page :=
  (h.data _ (hinv.data_of_valid hu hvalid)).2.2

end

theorem fresh_cases {x : ℕ} (h : L'.role x = .free ∨ (L'.role x).isBelow r = true) : L'.role x ≠ .data ∧ L'.role x ≠ .root := by
  rcases h with hf | hbelow
  · rw [hf]
    exact ⟨nofun, nofun⟩
  · refine ⟨fun hdata => ?_, (Role.isTable_of_isBelow hbelow).2⟩
    rw [hdata] at hbelow
    cases hbelow

/-- Nobody sees the page-table pages that have come or gone. -/
theorem Kept.renewed (h : Kept k L k' L') (hold : Forest k L) (hforest : Forest k' L') (hfresh : ∀ x, L.role x = .free → L'.role x ≠ .data)
    (hview : ∀ x u, u < 2 ^ 27 → L'.view k' x u = L.view k x u) : Renewed noSlot k L k' { L' with held := L.held } := by
  have hnew : ∀ x, L.role x = .free → L'.role x = .data → k'.pageRefCount x = 1 := fun x hx hdata => absurd hdata (hfresh x hx)
  exact ⟨hforest.setHeld _, rfl, fun _ => h.data, h.count hold hforest hnew, fun x hx hx' =>
    hnew x (h.free_of_data hx hx') hx', fun x u hu _ => hview x u hu,
    fun _ _ => False.elim, fun _ _ => False.elim, fun _ _ _ _ => False.elim⟩

theorem Sprouted.grown {n m : ℕ} (h : Sprouted r n k L k' L') (hinv : Inv k L) (hle : n ≤ m) : Grown m k L k' L' := by
  have hrenewed := h.kept.renewed hinv.forest h.forest (fun x hx => (fresh_cases (h.fresh x hx)).1) fun x u _ => by rw [h.view_eq]
  rw [← h.held_eq] at hrenewed
  refine ⟨hrenewed.inv hinv, h.view_eq, h.role_eq, h.kept.root_iff fun x hx =>
    (fresh_cases (h.fresh x hx)).2, h.mem_eq, h.count_eq, h.held_eq, fun x hf => ?_, ?_,
    hrenewed.wrapped⟩
  · by_contra hx
    rw [h.role_eq x hx] at hf
    exact hx hf
  · have hlength := h.length_eq
    omega

theorem Ledger.missing_le (L : Ledger) (r va : ℕ) : L.missing r va ≤ 2 := by
  unfold Ledger.missing
  split <;> split <;> decide

theorem Inv.post_walk_alloc (h : Inv k L) (hr : L.role r = .root) (hva : va < maxva) {Q : Option PtePtr → KState → Prop}
    (hnone : ∀ k' L', Grown 2 k L k' L' → L'.free = [] → Q none k')
    (hsome : ∀ q k' L', Grown 2 k L k' L' → slot k'.mem r va = some q → Q (some q) k') :
    Post (walk (r * pgsize) va true) k Q E := by
  have hle := L.missing_le r va
  refine h.forest.post_walk_alloc hr hva (fun n k' L' hsprouted hempty hlt => ?_) fun q k' L' hsprouted _ hslot => ?_
  · exact hnone k' L' (hsprouted.grown h (by omega)) hempty
  · exact hsome q k' L' (hsprouted.grown h hle) hslot

theorem Inv.post_mappages {pa : ℕ} {perm : Pte} (h : Inv k L) (hr : L.role r = .root) (hv : v < 2 ^ 26)
    {Q : ℤ → KState → Prop} (hremap : (L.view k r v).has pteV = true → E .mappagesRemap)
    (hfull : ∀ k' L', Grown 2 k L k' L' → L'.free = [] → Q (-1) k')
    (hmap : ∀ q k' L', Grown 2 k L k' L' → (L.view k r v).has pteV = false → slot k'.mem r (v * pgsize) = some q →
      Q 0 (k'.write q (pa2pte pa ||| perm ||| pteV))) :
    Post (mappages (r * pgsize) (v * pgsize) pgsize pa perm) k Q E := by
  have hle := L.missing_le r (v * pgsize)
  refine h.forest.post_mappages hr hv hremap (fun n k' L' hsprouted hempty hlt => ?_) fun q k' L' hsprouted _ hinvalid hslot => ?_
  · exact hfull k' L' (hsprouted.grown h (by omega)) hempty
  · exact hmap q k' L' (hsprouted.grown h hle) hinvalid hslot

end AdvancedXv6.Kernel
