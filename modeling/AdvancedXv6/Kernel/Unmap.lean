import AdvancedXv6.Kernel.Walk

/-!
# Unmapping

`uvmunmap` and `uvmdealloc`. The code frees a page first and clears the entry that maps it afterwards. The two can be exchanged, as they are about different pages, and in the other order the books are right at every moment: clearing the entry leaves its reference held, and freeing the page gives it up.
-/

namespace AdvancedXv6.Kernel

open Function Prog

variable {k k' k'' : KState} {L L' L'' : Ledger} {r v p : ℕ} {q : PtePtr} {E : Panic → Prop}

/-! ### Clearing an entry -/

def oneSlot (r v : ℕ) : ℕ → ℕ → Prop := fun x u => x = r ∧ u = v

theorem Inv.keeps_write (h : Inv k L) (hr : L.role r = .root) (hv : v < 2 ^ 27) (hslot : slot k.mem r (v * pgsize) = some q)
    (pte : Pte) (held' : ℕ → ℕ) : Keeps (oneSlot r v) k L (k.write q pte) { L with held := held' } := by
  refine ⟨fun _ => Iff.rfl, fun x u hu hnot => ?_, fun x u hu _ hvalid => update_of_ne ?_ _ _⟩
  · exact (Ledger.view_write h hr hv hslot pte x u hu).trans (if_neg hnot)
  · intro hpage
    have hdata := h.data_of_valid hu hvalid
    rw [hpage, ((h.tables.slot_eq_some_iff hr).mp hslot).1] at hdata
    cases hdata

theorem Inv.exists_slot (hvalid : (L.view k r v).has pteV = true) :
    ∃ q, slot k.mem r (v * pgsize) = some q ∧ k.mem q.page q.index = L.view k r v := by
  have hview : L.view k r v = entry k.mem r v := view_root (root_of_valid hvalid)
  rw [hview] at hvalid ⊢
  cases hslot : slot k.mem r (v * pgsize) with
  | none =>
    rw [entry_of_none hslot, zero_not_valid] at hvalid
    cases hvalid
  | some q => exact ⟨q, rfl, (entry_of_slot hslot).symm⟩

theorem mapsTo_zero (v p : ℕ) : mapsTo v 0 p = 0 := by
  unfold mapsTo
  rw [if_neg]
  rintro ⟨_, hvalid, _⟩
  rw [zero_not_valid] at hvalid
  cases hvalid

theorem Inv.clear_user (h : Inv k L) (hv : v < userPages) (hvalid : (L.view k r v).has pteV = true)
    (hslot : slot k.mem r (v * pgsize) = some q) (hp : (L.view k r v).page = p) :
    Inv (k.write q 0) { L with held := update L.held p (L.held p + 1) } := by
  have hlt := userPages_lt
  refine h.write (root_of_valid hvalid) (by omega) hslot (fun _ => .inl rfl) (fun _ => .inl rfl) (fun _ hzero => ?_) fun x => ?_
  · rw [zero_not_valid] at hzero
    cases hzero
  · rw [mapsTo_zero]
    by_cases hx : x = p
    · subst hx
      rw [update_self, mapsTo, if_pos ⟨hv, hvalid, hp⟩]
    · rw [update_of_ne hx]
      omega

theorem Inv.clear (h : Inv k L) (hr : L.role r = .root) (hv : v < 2 ^ 27) (hslot : slot k.mem r (v * pgsize) = some q) :
    Inv (k.write q 0) L := by
  refine h.write hr hv hslot (fun _ => .inl rfl) (fun _ => .inl rfl) (fun _ hzero => ?_) fun x => ?_
  · rw [zero_not_valid] at hzero
    cases hzero
  · rw [mapsTo_zero]
    exact Nat.le_add_right _ _

theorem writeWord_update (mem : ℕ → Page) {m : ℕ} (hne : p ≠ m) (page : Page) (i : Fin 512) (word : Pte) :
    writeWord (update mem p page) m i word = update (writeWord mem m i word) p page := by
  rw [writeWord, writeWord, update_of_ne hne.symm, update_comm hne]

variable {pte : Pte} {Q : Unit → KState → Prop} {touched touched' : ℕ → ℕ → Prop} {n sz : ℕ}

/-- `kfree` of a page and a write to another one can be exchanged. -/
theorem Inv.post_kfree_write (h : Inv (k.write q pte) L) (hheld : 0 < L.held p) (hne : p ≠ q.page)
    {Q : KState → Prop} (hpanic : k.pageRefCount p ≤ 0 → E .decrementReference)
    (hdropped : ∀ k' L', Dropped (k.write q pte) L p k' L' → Q k') :
    Post (kfree (p * pgsize)) k (fun _ k' => Q (k'.write q pte)) E := by
  have halloc := h.allocatable (p := p) (by rw [h.shares.held_data p hheld]; nofun)
  have hpost : Post (kfree (p * pgsize)) (k.write q pte) (fun _ k' => Q k') E := h.post_kfree hheld hpanic hdropped
  obtain ⟨hmany, hlast⟩ := of_post_kfree halloc hpost
  refine Kernel.post_kfree halloc hpanic hmany fun hcount => ?_
  rw [KState.write, writeWord_update k.mem hne (freedPage k) q.index pte]
  exact hlast hcount

/-! ### `uvmunmap` -/

/-- What the functions of this part do to the rest of the system: nothing outside `touched`, and no reference is left over. -/
structure Evolves (touched : ℕ → ℕ → Prop) (k : KState) (L : Ledger) (k' : KState) (L' : Ledger) : Prop where
  inv : Inv k' L'
  keeps : Keeps touched k L k' L'
  held_eq : L'.held = L.held
  wrapped : k'.Wrapped → k.Wrapped

theorem Evolves.refl (h : Inv k L) (touched : ℕ → ℕ → Prop) : Evolves touched k L k L :=
  ⟨h, Keeps.refl k L, rfl, fun hw => hw⟩

theorem Evolves.trans (h : Evolves touched k L k' L') (h' : Evolves touched' k' L' k'' L'') :
    Evolves (fun x u => touched x u ∨ touched' x u) k L k'' L'' :=
  ⟨h'.inv, (h.keeps.mono fun _ _ ht => .inl ht).trans (h'.keeps.mono fun _ _ ht => .inr ht), h'.held_eq.trans h.held_eq,
    fun hw => h.wrapped (h'.wrapped hw)⟩

theorem Evolves.mono (h : Evolves touched k L k' L') (hle : ∀ x u, touched x u → touched' x u) :
    Evolves touched' k L k' L' := ⟨h.inv, h.keeps.mono hle, h.held_eq, h.wrapped⟩

theorem Grown.evolves (h : Grown n k L k' L') (hinv : Inv k L) : Evolves noSlot k L k' L' :=
  ⟨h.inv, h.keeps hinv, h.held_eq, h.wrapped⟩

theorem Renewed.evolves (h : Renewed touched k L k' L') (hinv : Inv k L) (hroot : ∀ x, L'.role x = .root ↔ L.role x = .root) : Evolves touched k L k' L' :=
  ⟨h.inv hinv, ⟨hroot, h.view_eq, fun _ _ hu _ hvalid => h.page_eq hinv hu hvalid⟩, h.held_eq, h.wrapped⟩

def slotRange (r v n : ℕ) : ℕ → ℕ → Prop := fun x u => x = r ∧ v ≤ u ∧ u < v + n

structure Unmapped (r v n : ℕ) (k : KState) (L : Ledger) (k' : KState) (L' : Ledger) : Prop where
  evolves : Evolves (slotRange r v n) k L k' L'
  view_eq : ∀ u, v ≤ u → u < v + n → L'.view k' r u = 0

theorem Unmapped.snoc (h : Unmapped r v n k L k' L') (h' : Unmapped r (v + n) 1 k' L' k'' L'') (hlt : v + n < 2 ^ 27) :
    Unmapped r v (n + 1) k L k'' L'' := by
  refine ⟨(h.evolves.trans h'.evolves).mono ?_, fun u hu hu' => ?_⟩
  · rintro x u (⟨hx, hu⟩ | ⟨hx, hu⟩) <;> exact ⟨hx, by omega⟩
  · by_cases hlast : u = v + n
    · exact h'.view_eq u (by omega) (by omega)
    · rw [h'.evolves.keeps.view_eq r u (by omega) (by rintro ⟨_, _⟩; omega)]
      exact h.view_eq u hu (by omega)

theorem pteFlags_ne_pteV (h : pte.has pteR = true) : pteFlags pte ≠ pteV := by
  intro heq
  have hbit : (pteFlags pte).getLsbD 1 = pteV.getLsbD 1 := by rw [heq]
  rw [getLsbD_pteFlags, getLsbD_pteV, ← has_pteR, h] at hbit
  cases hbit

theorem UserEntry.read {role : ℕ → Role} (h : UserEntry role pte) (hvalid : pte.has pteV = true) :
    pte.has pteR = true := by
  rcases h with rfl | ⟨_, hread, _⟩
  · rw [zero_not_valid] at hvalid
    cases hvalid
  · exact hread

theorem KernelEntry.read (h : KernelEntry v pte) (hvalid : pte.has pteV = true) : pte.has pteR = true := by
  rcases h with rfl | ⟨_, _, hread, _⟩
  · rw [zero_not_valid] at hvalid
    cases hvalid
  · exact hread

theorem Inv.read_of_valid (h : Inv k L) (hv : v < 2 ^ 27) (hvalid : (L.view k r v).has pteV = true) :
    (L.view k r v).has pteR = true := by
  by_cases huser : v < userPages
  · exact (h.shares.user r v huser).read hvalid
  · exact (h.shares.kernel r v (by omega) hv).read hvalid

theorem Inv.view_zero (h : Inv k L) (hv : v < 2 ^ 27) (hinvalid : (L.view k r v).has pteV = false) : L.view k r v = 0 := by
  by_cases huser : v < userPages
  · rcases h.shares.user r v huser with hzero | ⟨hvalid, _⟩
    · exact hzero
    · rw [hvalid] at hinvalid
      cases hinvalid
  · rcases h.shares.kernel r v (by omega) hv with hzero | ⟨_, hvalid, _⟩
    · exact hzero
    · rw [hvalid] at hinvalid
      cases hinvalid

theorem post_uvmunmapPage {doFree : Bool} (hv : v < 2 ^ 26) (hvalid : (L.view k r v).has pteV = true)
    (hread : (L.view k r v).has pteR = true) {Q : Option Unit → KState → Prop}
    (hkeep : ∀ q, doFree = false → slot k.mem r (v * pgsize) = some q → Q none (k.write q 0))
    (hfree : ∀ q, doFree = true → slot k.mem r (v * pgsize) = some q →
      Post (kfree ((L.view k r v).page * pgsize)) k (fun _ k' => Q none (k'.write q 0)) E) :
    Post (uvmunmapPage (r * pgsize) doFree (v * pgsize)) k Q E := by
  obtain ⟨q, hslot, hentry⟩ := Inv.exists_slot hvalid
  unfold uvmunmapPage
  refine Post.bind (post_walk (page_lt_maxva hv) ?_)
  rw [hslot]
  refine Post.bind (post_readPte ?_)
  rw [hentry, hvalid, if_neg (by decide), if_neg (pteFlags_ne_pteV hread), pte2pa_eq]
  cases doFree with
  | false => exact Post.bind (post_writePte (Post.pure (hkeep q rfl hslot)))
  | true => exact Post.step (hfree q rfl hslot) fun _ k' hk' => Post.bind (post_writePte (Post.pure hk'))

theorem Inv.post_uvmunmapPage (h : Inv k L) (hr : L.role r = .root) (hv : v < 2 ^ 26) {Q : Option Unit → KState → Prop}
    {doFree : Bool} (hmissing : (L.view k r v).has pteV = false → E .uvmunmapWalk ∧ E .uvmunmapNotMapped)
    (hkeep : ∀ q, doFree = false → slot k.mem r (v * pgsize) = some q → Q none (k.write q 0))
    (hfree : ∀ q, doFree = true → slot k.mem r (v * pgsize) = some q → (L.view k r v).has pteV = true →
      Post (kfree ((L.view k r v).page * pgsize)) k (fun _ k' => Q none (k'.write q 0)) E) :
    Post (uvmunmapPage (r * pgsize) doFree (v * pgsize)) k Q E := by
  cases hvalid : (L.view k r v).has pteV with
  | true => exact Kernel.post_uvmunmapPage hv hvalid (h.read_of_valid (by omega) hvalid) hkeep fun q hdo hslot => hfree q hdo hslot hvalid
  | false =>
    obtain ⟨hwalk, hnotMapped⟩ := hmissing hvalid
    unfold uvmunmapPage
    refine Post.bind (post_walk_page hr hv (fun _ => Post.panic hwalk) fun q _ hview => Post.bind (post_readPte ?_))
    rw [hview, hvalid]
    exact Post.panic hnotMapped

theorem Inv.post_kfree_unmap (h : Inv k L) (hv : v < userPages) (hvalid : (L.view k r v).has pteV = true)
    (hslot : slot k.mem r (v * pgsize) = some q) {Q : KState → Prop} (hpanic : k.Wrapped → E .decrementReference)
    (hdone : ∀ k' L', Unmapped r v 1 k L k' L' → Q k') :
    Post (kfree ((L.view k r v).page * pgsize)) k (fun _ k' => Q (k'.write q 0)) E := by
  have hr := root_of_valid hvalid
  have hlt := userPages_lt
  have hclear := h.clear_user hv hvalid hslot rfl
  have hdata := h.data_of_valid hv hvalid
  have hrefs := h.one_le_userRefs hv hvalid
  have hcount := h.shares.count_le _ hdata
  have hne : (L.view k r v).page ≠ q.page := by
    intro heq
    rw [heq, ((h.tables.slot_eq_some_iff hr).mp hslot).1] at hdata
    cases hdata
  refine hclear.post_kfree_write (by simp only [update_self]; omega) hne
    (fun hle => hpanic ⟨(L.view k r v).page, by omega⟩) fun k' L' hdropped => ?_
  refine hdone k' L' ⟨⟨hdropped.inv, ?_, ?_, fun hw => hdropped.wrapped hw⟩, fun u hu hu' => ?_⟩
  · refine ((h.keeps_write hr (by omega) hslot 0 _).trans hdropped.keeps.of_none).mono ?_
    rintro x u ⟨hx, hu⟩
    exact ⟨hx, by omega⟩
  · rw [hdropped.held_eq]
    simp only [update_self, update_idem, Nat.add_sub_cancel, update_eq_self]
  · rw [hdropped.view_eq]
    exact (Ledger.view_write h hr (by omega) hslot 0 r u (by omega)).trans (if_pos ⟨rfl, by omega⟩)

theorem uvmunmap_rounds (hv : v + n ≤ 2 ^ 26) :
    ((v * pgsize + n * pgsize) % 2 ^ 64 - v * pgsize + pgsize - 1) / pgsize = n := by
  unfold pgsize
  rw [Nat.mod_eq_of_lt (by omega)]
  omega

theorem Inv.post_uvmunmap (h : Inv k L) (hr : L.role r = .root) (hv : v + n ≤ userPages)
    (hpanic : k.Wrapped → E .decrementReference)
    (hmissing : (∃ u, v ≤ u ∧ u < v + n ∧ (L.view k r u).has pteV = false) → E .uvmunmapWalk ∧ E .uvmunmapNotMapped)
    (hdone : ∀ k' L', Unmapped r v n k L k' L' → Q () k') :
    Post (uvmunmap (r * pgsize) (v * pgsize) n true) k Q E := by
  have hlt : v + n < 2 ^ 26 := by
    have heq := userPages_eq
    omega
  unfold uvmunmap
  rw [if_neg fun hmod => hmod (Nat.mul_mod_left v pgsize)]
  simp only [uvmunmap_rounds (Nat.le_of_lt hlt)]
  refine Post.step (R := fun _ k' => ∃ L', Unmapped r v n k L k' L') ?_ fun _ k' hk' => ?_
  · refine Post.loop (I := fun i k' => ∃ L', Unmapped r v i k L k' L') ?_ (fun i k' hi hk' => ?_) fun k' hk' => hk'
    · exact ⟨L, Evolves.refl h _, fun u hu hu' => by omega⟩
    · obtain ⟨L', hL'⟩ := hk'
      have hview := hL'.evolves.keeps.view_eq r (v + i) (by omega) (by rintro ⟨_, _⟩; omega)
      rw [← Nat.add_mul]
      refine hL'.evolves.inv.post_uvmunmapPage ((hL'.evolves.keeps.root_iff r).mpr hr) (by omega) (fun hinvalid => ?_) nofun fun q _ hslot hvalid => ?_
      · rw [hview] at hinvalid
        exact hmissing ⟨v + i, by omega, by omega, hinvalid⟩
      · exact hL'.evolves.inv.post_kfree_unmap (Q := fun k'' => ∃ L'', Unmapped r v (i + 1) k L k'' L'') (by omega) hvalid hslot
          (fun hw => hpanic (hL'.evolves.wrapped hw)) fun k'' L'' hL'' => ⟨L'', hL'.snoc hL'' (by omega)⟩
  · obtain ⟨L', hL'⟩ := hk'
    exact Post.pure (hdone k' L' hL')

theorem post_uvmunmap_one {doFree : Bool} (hv : v < 2 ^ 26) (hpage : Post (uvmunmapPage (r * pgsize) doFree (v * pgsize)) k (fun _ k' => Q () k') E) :
    Post (uvmunmap (r * pgsize) (v * pgsize) 1 doFree) k Q E := by
  unfold uvmunmap
  rw [if_neg fun hmod => hmod (Nat.mul_mod_left v pgsize)]
  simp only [uvmunmap_rounds (n := 1) hv]
  exact Post.step (Post.loop_one hpage) fun _ k' hk' => Post.pure hk'

/-- `uvmunmap` of the trampoline or the trapframe, which are not freed. -/
theorem Inv.post_uvmunmap_kernel (h : Inv k L) (hr : L.role r = .root) (hv : v < 2 ^ 26)
    (hmissing : (L.view k r v).has pteV = false → E .uvmunmapWalk ∧ E .uvmunmapNotMapped)
    (hdone : ∀ k', Unmapped r v 1 k L k' L → Q () k') : Post (uvmunmap (r * pgsize) (v * pgsize) 1 false) k Q E := by
  refine post_uvmunmap_one hv (h.post_uvmunmapPage hr hv hmissing (fun q _ hslot => hdone _ ?_) nofun)
  refine ⟨⟨h.clear hr (by omega) hslot, ?_, rfl, fun hw => hw⟩, fun u hu hu' => ?_⟩
  · refine (h.keeps_write hr (by omega) hslot 0 L.held).mono ?_
    rintro x u ⟨hx, hu⟩
    exact ⟨hx, by omega⟩
  · exact (Ledger.view_write h hr (by omega) hslot 0 r u (by omega)).trans (if_pos ⟨rfl, by omega⟩)

/-! ### `uvmdealloc` -/

def pages (sz : ℕ) : ℕ := (sz + pgsize - 1) / pgsize

theorem pages_mul (n : ℕ) : pages (n * pgsize) = n := by
  unfold pages pgsize
  omega

theorem pages_mono {sz' : ℕ} (h : sz ≤ sz') : pages sz ≤ pages sz' := by
  unfold pages pgsize
  omega

theorem trapframeVa_eq : trapframeVa = userPages * pgsize := by decide

theorem pages_le_userPages (h : sz ≤ trapframeVa) : pages sz ≤ userPages := by
  have hmono := pages_mono h
  rw [trapframeVa_eq, pages_mul] at hmono
  exact hmono

theorem pgroundup_eq (h : sz ≤ trapframeVa) : pgroundup sz = pages sz * pgsize := by
  have hlt : trapframeVa + pgsize < 2 ^ 64 := by decide
  unfold pgroundup pages
  rw [Nat.mod_eq_of_lt (by omega)]

theorem Inv.post_uvmdealloc {oldsz newsz : ℕ} (h : Inv k L) (hr : L.role r = .root) (hold : oldsz ≤ trapframeVa)
    {Q : ℕ → KState → Prop} (hpanic : k.Wrapped → E .decrementReference)
    (hmissing : (∃ u, pages newsz ≤ u ∧ u < pages oldsz ∧ (L.view k r u).has pteV = false) →
      E .uvmunmapWalk ∧ E .uvmunmapNotMapped)
    (hsame : oldsz ≤ newsz → Q oldsz k)
    (hdone : ∀ k' L', newsz < oldsz → Unmapped r (pages newsz) (pages oldsz - pages newsz) k L k' L' → Q newsz k') :
    Post (uvmdealloc (r * pgsize) oldsz newsz) k Q E := by
  unfold uvmdealloc
  split
  · exact Post.pure (hsame ‹_›)
  · rename_i hlt
    have hle := pages_le_userPages hold
    have hmono := pages_mono (Nat.le_of_not_le hlt)
    have hsmall := userPages_eq
    rw [pgroundup_eq hold, pgroundup_eq (by omega)]
    split
    · rename_i hround
      have hnpages : (toInt32 (((pages oldsz * pgsize - pages newsz * pgsize) / pgsize : ℕ) : ℤ) % 2 ^ 64).toNat =
          pages oldsz - pages newsz := by
        rw [← Nat.sub_mul, div_pgsize, toInt32, Int.bmod_eq_of_le (by omega) (by omega)]
        omega
      simp only [hnpages]
      refine Post.bind (h.post_uvmunmap hr (by omega) hpanic (fun hex => ?_) fun k' L' hL' => ?_)
      · obtain ⟨u, hu, hu', hinvalid⟩ := hex
        exact hmissing ⟨u, hu, by omega, hinvalid⟩
      · exact Post.pure (hdone k' L' (by omega) hL')
    · rename_i hround
      have heq : pages oldsz - pages newsz = 0 := by
        have := Nat.le_of_mul_le_mul_right (Nat.le_of_not_lt hround) (show 0 < pgsize by decide)
        omega
      refine Post.pure (hdone k L (by omega) ⟨Evolves.refl h _, fun u hu hu' => ?_⟩)
      omega

end AdvancedXv6.Kernel
