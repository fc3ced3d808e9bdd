import AdvancedXv6.Kernel.Fault
import AdvancedXv6.Kernel.Proc

/-!
# The address spaces of processes

`proc_pagetable` and `proc_freepagetable`. A new address space has the trampoline and the trapframe above the user part, and nothing else. If there is no memory for it, everything is as before.
-/

namespace AdvancedXv6.Kernel

open Function Prog

variable {k k' : KState} {L L' : Ledger} {r v p t : ℕ} {q : PtePtr} {E : Panic → Prop}

/-! ### A page table more -/

structure Extended (r : ℕ) (k : KState) (L : Ledger) (k' : KState) (L' : Ledger) : Prop where
  inv : Inv k' L'
  fresh : L.role r = .free
  root_iff : ∀ x, L'.role x = .root ↔ L.role x = .root ∨ x = r
  view_eq : ∀ x u, u < 2 ^ 27 → x ≠ r → L'.view k' x u = L.view k x u
  page_eq : ∀ x u, u < userPages → x ≠ r → (L.view k x u).has pteV = true →
    k'.mem (L.view k x u).page = k.mem (L.view k x u).page
  held_eq : L'.held = L.held
  wrapped : k'.Wrapped → k.Wrapped

theorem Created.extended (h : Created r k L k' L') : Extended r k L k' L' :=
  ⟨h.inv, h.fresh, h.root_iff, fun x u _ _ => by rw [h.view_eq], fun x u hu _ hvalid => h.page_eq x u hu hvalid, h.held_eq, h.wrapped⟩

theorem Created.view_zero (h : Created r k L k' L') (u : ℕ) : L'.view k' r u = 0 := by
  rw [h.view_eq, Ledger.view, if_neg (by rw [h.fresh]; simp)]

theorem Extended.root (h : Extended r k L k' L') : L'.role r = .root := (h.root_iff r).mpr (.inr rfl)

/-! ### The two pages of the kernel -/

def trampolinePage : ℕ := trampolinePa / pgsize

theorem trampolinePa_eq : trampolinePa = trampolinePage * pgsize := by decide

theorem trampolineVa_eq : trampolineVa = (userPages + 1) * pgsize := by decide

def trampolinePte : Pte := leafPte trampolinePage (pteR ||| pteX)

def trapframePte (t : ℕ) : Pte := leafPte t (pteR ||| pteW)

theorem trampolinePte_entry : KernelEntry (userPages + 1) trampolinePte := by
  refine .inr ⟨by decide, leafPte_valid _ _, ?_, ?_, ?_⟩
  · rw [trampolinePte, leafPte_read]
    rfl
  · rw [trampolinePte, leafPte_user]
    rfl
  · rw [trampolinePte, leafPte_copy]
    rfl

theorem trapframePte_entry (t : ℕ) : KernelEntry userPages (trapframePte t) := by
  refine .inr ⟨by decide, leafPte_valid _ _, ?_, ?_, ?_⟩
  · rw [trapframePte, leafPte_read]
    rfl
  · rw [trapframePte, leafPte_user]
    rfl
  · rw [trapframePte, leafPte_copy]
    rfl

theorem trapframePte_page (ht : t < 2 ^ 44) : (trapframePte t).page = t := leafPte_page ht (isFlags_of_pteFlags (by decide))

theorem trampolinePte_page : trampolinePte.page = trampolinePage := leafPte_page (by decide) (isFlags_of_pteFlags (by decide))

/-! ### `proc_pagetable` -/

structure NewSpace (r t : ℕ) (k : KState) (L : Ledger) (k' : KState) (L' : Ledger) : Prop where
  forest : Forest k' L'
  old_free : L.role r = .free
  root : L'.role r = .root
  role_eq : ∀ x, L.role x ≠ .free → L'.role x = L.role x
  fresh : ∀ x, L.role x = .free → x ≠ r → L'.role x = .free ∨ (L'.role x).isBelow r = true
  count_eq : ∀ x, L.role x ≠ .free → k'.pageRefCount x = k.pageRefCount x
  mem_eq : ∀ x, L.role x = .data → k'.mem x = k.mem x
  view_of_ne : ∀ x u, u < 2 ^ 27 → x ≠ r → L'.view k' x u = L.view k x u
  view_eq : ∀ u, u < 2 ^ 27 → L'.view k' r u = if u = userPages then trapframePte t else if u = userPages + 1 then trampolinePte else 0
  length_eq : L'.free.length + 3 = L.free.length
  mid_eq : ∀ i, L'.Has (.mid r i) → i = 255

theorem NewSpace.kept (h : NewSpace r t k L k' L') : Kept k L k' L' := ⟨h.role_eq, h.count_eq, h.mem_eq⟩

structure Reverted (k : KState) (L : Ledger) (k' : KState) (L' : Ledger) : Prop where
  forest : Forest k' L'
  kept : Kept k L k' L'
  free : ∀ x, L.role x = .free → L'.role x = .free
  view_eq : L'.view k' = L.view k

theorem Planted.reverted {n : ℕ} {k1 k2 : KState} {L1 L2 : Ledger} (h : Planted r k L k1 L1) (hforest : Forest k L) (hsprouted : Sprouted r n k1 L1 k2 L2)
    (huprooted : Uprooted r k2 L2 k' L') : Reverted k L k' L' := by
  have hkept := (h.kept hforest).trans hsprouted.kept
  have hroot2 : L2.role r = .root := role_kept hsprouted.role_eq h.root nofun
  have hold : L.role r ≠ .root := by
    rw [h.old_free hforest]
    nofun
  have hother : ∀ x, L.role x ≠ .free → x ≠ r ∧ (L2.role x).isBelow r = false := by
    intro x hx
    rw [hkept.role_eq x hx]
    exact ⟨h.ne hforest hx, hforest.not_below hold x⟩
  refine ⟨huprooted.forest, ⟨fun x hx => ?_, fun x hx => ?_, fun x hx => ?_⟩, fun x hx => ?_, ?_⟩
  · rw [huprooted.role_eq x (hother x hx).1 (hother x hx).2, hkept.role_eq x hx]
  · rw [huprooted.count_eq x (hother x hx).1 (hother x hx).2, hkept.count_eq x hx]
  · obtain ⟨hxr, hbelow⟩ := hother x (by rw [hx]; nofun)
    rw [huprooted.mem_eq x hxr hbelow, hkept.mem_eq x hx]
  · by_cases hxr : x = r
    · exact huprooted.free x (.inl hxr)
    · rcases hsprouted.fresh x ((h.role_of_ne hxr).trans hx) with hf | hbelow
      · rw [huprooted.role_eq x hxr (by rw [hf]; rfl), hf]
      · exact huprooted.free x (.inr hbelow)
  · funext x u
    by_cases hxr : x = r
    · rw [hxr, view_of_not_root hold u]
      exact view_of_not_root (fun hroot => ((huprooted.root_iff r).mp hroot).2 rfl) u
    · rw [huprooted.view_of_ne hsprouted.forest hroot2 hxr, hsprouted.view_eq, h.view_eq]

theorem px_kernel : px 2 (userPages * pgsize) = 255 ∧ px 1 (userPages * pgsize) = 511 ∧
    px 2 ((userPages + 1) * pgsize) = 255 ∧ px 1 ((userPages + 1) * pgsize) = 511 := by
  rw [userPages_eq]
  decide

theorem Forest.post_procPagetable (h : Forest k L) {Q : ℕ → KState → Prop}
    (hfail : ∀ k' L', L.free.length < 3 → Reverted k L k' L' → Q 0 k')
    (hdone : ∀ r k' L', NewSpace r t k L k' L' → Q (r * pgsize) k') : Post (procPagetable (t * pgsize)) k Q E := by
  obtain ⟨htop, hnext, htop', hnext'⟩ := px_kernel
  have hlt := userPages_lt
  have heq := userPages_eq
  unfold procPagetable
  refine Post.bind (h.post_uvmcreate (fun hempty => ?_) fun r k1 L1 hplanted => ?_)
  · rw [if_pos rfl]
    exact Post.pure (hfail k L (by rw [hempty]; decide) ⟨h, ⟨fun _ _ => rfl, fun _ _ => rfl, fun _ _ => rfl⟩, fun _ hx => hx, rfl⟩)
  rw [if_neg (hplanted.forest.address_ne_zero (by rw [hplanted.root]; simp)), trampolineVa_eq, trampolinePa_eq]
  have hlength1 : L.free.length = L1.free.length + 1 := by rw [hplanted.free_eq, List.length_cons]
  have hviewr : ∀ u, L1.view k1 r u = 0 := fun u => by
    rw [hplanted.view_eq]
    exact view_of_not_root (by rw [hplanted.old_free h]; simp) u
  have hmissing : L1.missing r ((userPages + 1) * pgsize) = 2 := by
    rw [Ledger.missing, if_neg (hplanted.no_mid _), if_neg (hplanted.no_leaf _ _)]
  refine Post.bind (hplanted.forest.post_mappages hplanted.root (by omega) (fun hvalid => ?_) (fun m k2 L2 hsprouted hempty hm => ?_)
    fun q k2 L2 hsprouted hreached _ hslot => ?_)
  · rw [hviewr, zero_not_valid] at hvalid
    cases hvalid
  · -- the page table has no entries yet, and goes back
    rw [if_pos (by decide)]
    have hlength2 := hsprouted.length_eq
    rw [hempty, List.length_nil] at hlength2
    have hroot2 : L2.role r = .root := role_kept hsprouted.role_eq hplanted.root (by simp)
    unfold uvmfree
    rw [if_neg (Nat.lt_irrefl 0)]
    refine Post.bind (hsprouted.forest.post_freewalk hroot2 (fun u _ hvalid => ?_) fun k3 L3 huprooted => Post.pure ?_)
    · rw [hsprouted.view_eq, hviewr, zero_not_valid] at hvalid
      cases hvalid
    · exact hfail k3 L3 (by omega) (hplanted.reverted h hsprouted huprooted)
  rw [if_neg (by decide), trapframeVa_eq]
  have hroot2 : L2.role r = .root := role_kept hsprouted.role_eq hplanted.root (by simp)
  have hrewritten := hsprouted.forest.rewritten hroot2 (v := userPages + 1) (by omega) hslot trampolinePte
  generalize hk3 : k2.write q trampolinePte = k3 at hrewritten
  have hk3' : k2.write q (pa2pte (trampolinePage * pgsize) ||| (pteR ||| pteX) ||| pteV) = k3 := hk3
  rw [hk3']
  have hmissing2 : L2.missing r (userPages * pgsize) = 0 := by
    have hmid : L2.Has (.mid r 255) := (hreached _ rfl).mpr (.inr (.inl (by rw [htop'])))
    have hleaf : L2.Has (.leaf r 255 511) := (hreached _ rfl).mpr (.inr (.inr (by rw [htop', hnext'])))
    rw [Ledger.missing, htop, hnext, if_pos hmid, if_pos hleaf]
  have hview3 : ∀ x u, u < 2 ^ 27 → L2.view k3 x u = if x = r ∧ u = userPages + 1 then trampolinePte else L.view k x u := by
    intro x u hu
    rw [hrewritten.view_eq x u hu, hsprouted.view_eq, hplanted.view_eq]
  have hzero : ∀ u, L.view k r u = 0 := fun u => view_of_not_root (by rw [hplanted.old_free h]; simp) u
  refine Post.bind (hrewritten.forest.post_mappages hroot2 (by omega) (fun hvalid => ?_) (fun m k4 L4 _ _ hm => by omega)
    fun q' k4 L4 hsprouted' hreached' _ hslot' => ?_)
  · rw [hview3 r userPages (by omega), if_neg fun ht => by omega, hzero, zero_not_valid] at hvalid
    cases hvalid
  rw [if_neg (by decide)]
  have hroot4 : L4.role r = .root := role_kept hsprouted'.role_eq hroot2 (by simp)
  have hrewritten' := hsprouted'.forest.rewritten hroot4 (v := userPages) (by omega) hslot' (trapframePte t)
  have hkept := hsprouted.kept.trans (hrewritten.kept.trans (hsprouted'.kept.trans hrewritten'.kept))
  obtain ⟨hrole, hcount, hmem⟩ := (hplanted.kept h).trans hkept
  refine Post.pure (hdone r (k4.write q' (trapframePte t)) L4 ⟨hrewritten'.forest, hplanted.old_free h, hroot4, hrole, fun x hx hxr => ?_,
    hcount, hmem, fun x u hu hxr => ?_, fun u hu => ?_, ?_, fun i hmid => ?_⟩)
  · have hx1 : L1.role x = .free := (hplanted.role_of_ne hxr).trans hx
    rcases hsprouted.fresh x hx1 with hf | hbelow
    · exact hsprouted'.fresh x hf
    · exact .inr (below_kept hsprouted'.role_eq hbelow)
  · rw [hrewritten'.view_eq x u hu, if_neg fun ht => hxr ht.1, hsprouted'.view_eq, hview3 x u hu, if_neg fun ht => hxr ht.1]
  · rw [hrewritten'.view_eq r u hu, hsprouted'.view_eq, hview3 r u hu, hzero]
    simp only [true_and]
  · have hlength2 := hsprouted.length_eq
    have hlength4 := hsprouted'.length_eq
    omega
  · rcases (hreached' _ rfl).mp hmid with hmid2 | hmid2 | hmid2
    · rcases (hreached _ rfl).mp hmid2 with hmid1 | hmid1 | hmid1
      · exact absurd hmid1 (hplanted.no_mid i)
      · rw [htop'] at hmid1
        cases hmid1
        rfl
      · cases hmid1
    · rw [htop] at hmid2
      cases hmid2
      rfl
    · cases hmid2

theorem NewSpace.bare (h : NewSpace r t k L k' L') : ¬ L'.Has (.mid r 0) := fun hmid => absurd (h.mid_eq 0 hmid) (by decide)

structure Opened (r t : ℕ) (k : KState) (L : Ledger) (k' : KState) (L' : Ledger) : Prop where
  extended : Extended r k L k' L'
  user_eq : ∀ u, u < 2 ^ 27 → u ≠ userPages → u ≠ userPages + 1 → L'.view k' r u = 0
  trapframe_eq : L'.view k' r userPages = trapframePte t
  trampoline_eq : L'.view k' r (userPages + 1) = trampolinePte
  free_le : L.free.length ≤ L'.free.length + 5

theorem NewSpace.opened (h : NewSpace r t k L k' L') (hinv : Inv k L) : Opened r t k L k' { L' with held := L.held } := by
  have hsmall := userPages_eq
  have hold : ∀ u, L.view k r u = 0 := view_of_not_root (by rw [h.old_free]; nofun)
  have hnew : ∀ x, L.role x = .free → L'.role x = .data → k'.pageRefCount x = 1 := by
    intro x hx hdata
    by_cases hxr : x = r
    · rw [hxr, h.root] at hdata
      cases hdata
    · exact absurd hdata (fresh_cases (h.fresh x hx hxr)).1
  have hrenewed : Renewed (fun x u => x = r ∧ userPages ≤ u ∧ u < 2 ^ 27) k L k' { L' with held := L.held } := by
    refine ⟨h.forest.setHeld _, rfl, fun _ => h.kept.data, h.kept.count hinv.forest h.forest hnew, fun x hx hx' => hnew x (h.kept.free_of_data hx hx') hx',
      fun x u hu hnot => ?_, fun x u ht _ => ?_, fun x u ht hu => ?_, fun x u x' u' ht _ hu => ?_⟩
    · by_cases hxr : x = r
      · have huser : u < userPages := Nat.lt_of_not_le fun hge => hnot ⟨hxr, hge, hu⟩
        rw [hxr, hold]
        exact (h.view_eq u hu).trans (by rw [if_neg (by omega), if_neg (by omega)])
      · exact h.view_of_ne x u hu hxr
    · obtain ⟨rfl, _, hu⟩ := ht
      rw [show Ledger.view { L' with held := L.held } k' x u = _ from h.view_eq u hu]
      split
      · rename_i heq
        rw [heq]
        exact trapframePte_entry t
      · split
        · rename_i heq
          rw [heq]
          exact trampolinePte_entry
        · exact .inl rfl
    · exact absurd ht.2.1 (Nat.not_le_of_lt hu)
    · exact absurd ht.2.1 (Nat.not_le_of_lt hu)
  refine ⟨⟨hrenewed.inv hinv, h.old_free, fun x => ?_, h.view_of_ne, fun x u hu _ hvalid => hrenewed.page_eq hinv hu hvalid, rfl, hrenewed.wrapped⟩,
    fun u hu hne hne' => ?_, ?_, ?_, ?_⟩
  · by_cases hxr : x = r
    · rw [hxr]
      exact ⟨fun _ => .inr rfl, fun _ => h.root⟩
    · rw [or_iff_left hxr]
      by_cases hx : L.role x = .free
      · rw [hx]
        exact ⟨fun hroot => absurd hroot (fresh_cases (h.fresh x hx hxr)).2, nofun⟩
      · exact iff_of_eq (congrArg (· = .root) (h.role_eq x hx))
  · exact (h.view_eq u hu).trans (by rw [if_neg hne, if_neg hne'])
  · exact (h.view_eq userPages (by omega)).trans (if_pos rfl)
  · exact (h.view_eq (userPages + 1) (by omega)).trans (by rw [if_neg (by omega), if_pos rfl])
  · have hlength := h.length_eq
    change L.free.length ≤ L'.free.length + 5
    omega

theorem Inv.post_procPagetable (h : Inv k L) {Q : ℕ → KState → Prop}
    (hfail : ∀ k' L', Evolves noSlot k L k' L' → L.free.length ≤ 5 → Q 0 k')
    (hdone : ∀ r k' L', Opened r t k L k' L' → Q (r * pgsize) k') : Post (procPagetable (t * pgsize)) k Q E := by
  refine h.forest.post_procPagetable (fun k' L' hlt hreverted => hfail k' { L' with held := L.held }
    ?_ (by omega)) fun r k' L' hspace => hdone r k' _ (hspace.opened h)
  have hfree : ∀ x, L.role x = .free → L'.role x ≠ .data ∧ L'.role x ≠ .root := fun x hx => by
    rw [hreverted.free x hx]
    exact ⟨nofun, nofun⟩
  exact (hreverted.kept.renewed h.forest hreverted.forest (fun x hx => (hfree x hx).1) fun x u _ => by rw [hreverted.view_eq]).evolves h
    (hreverted.kept.root_iff fun x hx => (hfree x hx).2)

/-! ### `proc_freepagetable` -/

theorem Inv.post_procFreepagetable {sz : ℕ} (h : Inv k L) (hr : L.role r = .root) (hsz : sz ≤ trapframeVa) {Q : Unit → KState → Prop}
    (hpanic : k.Wrapped → E .decrementReference)
    (hmissing : ((L.view k r userPages).has pteV = false ∨ (L.view k r (userPages + 1)).has pteV = false ∨
      ∃ u, u < pages sz ∧ (L.view k r u).has pteV = false) → E .uvmunmapWalk ∧ E .uvmunmapNotMapped)
    (hleaf : (∃ u, pages sz ≤ u ∧ u < userPages ∧ (L.view k r u).has pteV = true) → E .freewalkLeaf)
    (hdone : ∀ k' L', Released r k L k' L' → Q () k') : Post (procFreepagetable (r * pgsize) sz) k Q E := by
  have hsmall := userPages_eq
  have hle := pages_le_userPages hsz
  unfold procFreepagetable
  rw [trampolineVa_eq, trapframeVa_eq]
  refine Post.bind (h.post_uvmunmap_kernel hr (by omega) (fun hinvalid => hmissing (.inr (.inl hinvalid))) fun k1 h1 => ?_)
  have hr1 : L.role r = .root := (h1.evolves.keeps.root_iff r).mpr hr
  have hkeep1 : ∀ u, u < 2 ^ 27 → u ≠ userPages + 1 → L.view k1 r u = L.view k r u := fun u hu hne =>
    h1.evolves.keeps.view_eq r u hu (by rintro ⟨_, _⟩; omega)
  refine Post.bind (h1.evolves.inv.post_uvmunmap_kernel hr1 (by omega) (fun hinvalid => ?_) fun k2 h2 => ?_)
  · rw [hkeep1 _ (by omega) (by omega)] at hinvalid
    exact hmissing (.inl hinvalid)
  have hall := h1.evolves.trans h2.evolves
  have hkeep2 : ∀ u, u < userPages → L.view k2 r u = L.view k r u := by
    intro u hu
    rw [h2.evolves.keeps.view_eq r u (by omega) (by rintro ⟨_, _⟩; omega), hkeep1 u (by omega) (by omega)]
  refine h2.evolves.inv.post_uvmfree hr hsz (fun hw => hpanic (hall.wrapped hw)) (fun hex => ?_) (fun hex => ?_) fun k' L' hreleased => ?_
  · obtain ⟨u, hu, hinvalid⟩ := hex
    rw [hkeep2 u (by omega)] at hinvalid
    exact hmissing (.inr (.inr ⟨u, hu, hinvalid⟩))
  · obtain ⟨u, hu, hu', hvalid⟩ := hex
    by_cases huser : u < userPages
    · rw [hkeep2 u huser] at hvalid
      exact hleaf ⟨u, hu, huser, hvalid⟩
    · by_cases hframe : u = userPages
      · rw [h2.view_eq u (by omega) (by omega), zero_not_valid] at hvalid
        cases hvalid
      · by_cases htramp : u = userPages + 1
        · rw [h2.evolves.keeps.view_eq r u hu' (by rintro ⟨_, _⟩; omega), h1.view_eq u (by omega) (by omega), zero_not_valid] at hvalid
          cases hvalid
        · rcases h2.evolves.inv.shares.kernel r u (by omega) hu' with hzero | ⟨hlow, _⟩
          · rw [hzero, zero_not_valid] at hvalid
            cases hvalid
          · omega
  · refine hdone k' L' (Released.of_evolves hall (fun x u ht => ?_) hreleased)
    rcases ht with ht | ht <;> exact ht.1

/-! ### `freeproc` -/

theorem Inv.count_pos_or_wrapped (h : Inv k L) (hheld : 0 < L.held p) (hcount : k.pageRefCount p ≤ 0) : k.Wrapped := by
  rcases h.shares.count_le p (h.shares.held_data p hheld) with hneg | hle
  · exact ⟨p, hneg⟩
  · omega

theorem post_freeproc_empty {p : Proc} {Q : Proc → KState → Prop} (hp : p.trapframe = 0)
    (hp' : p.pagetable = 0) (hdone : Q Proc.empty k) : Post (freeproc p) k Q E := by
  unfold freeproc
  rw [hp, hp', if_neg (Decidable.not_not.mpr rfl)]
  exact Post.bind (Post.pure (Post.bind (Post.pure (Post.pure hdone))))

theorem Inv.post_freeproc_frame {p : Proc} (h : Inv k L) (ht : 0 < L.held t)
    (hp : p.trapframe = t * pgsize) (hp' : p.pagetable = 0) {Q : Proc → KState → Prop}
    (hpanic : k.Wrapped → E .decrementReference) (hdone : ∀ k' L', Dropped k L t k' L' → Q Proc.empty k') : Post (freeproc p) k Q E := by
  have hrole := h.shares.held_data t ht
  unfold freeproc
  rw [hp, hp', if_pos (h.allocatable_ne_zero (by rw [hrole]; nofun))]
  refine Post.bind (h.post_kfree ht (fun hcount => hpanic (h.count_pos_or_wrapped ht hcount)) fun k' L' hdropped => ?_)
  exact Post.bind (Post.pure (Post.pure (hdone k' L' hdropped)))

theorem Inv.post_freeproc {sz : ℕ} {state : ProcState} (h : Inv k L) (hr : L.role r = .root) (ht : 0 < L.held t) (hsz : sz ≤ trapframeVa)
    {Q : Proc → KState → Prop} (hpanic : k.Wrapped → E .decrementReference)
    (hmissing : ((L.view k r userPages).has pteV = false ∨ (L.view k r (userPages + 1)).has pteV = false ∨
      ∃ u, u < pages sz ∧ (L.view k r u).has pteV = false) → E .uvmunmapWalk ∧ E .uvmunmapNotMapped)
    (hleaf : (∃ u, pages sz ≤ u ∧ u < userPages ∧ (L.view k r u).has pteV = true) → E .freewalkLeaf)
    (hdone : ∀ k1 L1 k' L', Dropped k L t k1 L1 → Released r k1 L1 k' L' → Q Proc.empty k') :
    Post (freeproc ⟨state, r * pgsize, t * pgsize, sz⟩) k Q E := by
  have hrole := h.shares.held_data t ht
  unfold freeproc
  simp only [ne_eq, h.allocatable_ne_zero (p := r) (by rw [hr]; nofun), h.allocatable_ne_zero (p := t) (by rw [hrole]; nofun),
    not_false_eq_true, if_true]
  refine Post.bind (h.post_kfree ht (fun hcount => hpanic (h.count_pos_or_wrapped ht hcount)) fun k1 L1 hdropped => ?_)
  refine Post.bind (hdropped.inv.post_procFreepagetable ((hdropped.keeps.root_iff r).mpr hr) hsz (fun hw => hpanic (hdropped.wrapped hw)) ?_ ?_
    fun k' L' hrel => Post.pure (hdone k1 L1 k' L' hdropped hrel))
  · rw [hdropped.view_eq]
    exact hmissing
  · rw [hdropped.view_eq]
    exact hleaf

end AdvancedXv6.Kernel
