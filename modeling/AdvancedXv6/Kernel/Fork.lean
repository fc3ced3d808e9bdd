import AdvancedXv6.Kernel.Mapping

/-!
# `uvmcopy`

A fork shares the pages of the parent. Each page gets one more reference, a writable entry of the parent becomes a copy-on-write entry, and the child gets the same entry. When a page-table page for the child cannot be had, the pages mapped so far are unmapped again, but the reference added last stays: nobody will ever free it.
-/

namespace AdvancedXv6.Kernel

open Function Prog

variable {k k' k'' : KState} {L L' L'' : Ledger} {r r' v p : ℕ} {q : PtePtr} {E : Panic → Prop}

/-! ### Copy-on-write entries -/

theorem getLsbD_shareFlags (flags : Pte) {i : ℕ} (hW : i ≠ 2) (hC : i ≠ 5) : (shareFlags flags).getLsbD i = flags.getLsbD i := by
  unfold shareFlags
  split
  · rw [BitVec.getLsbD_or, BitVec.getLsbD_and, BitVec.getLsbD_not, pteW, pteC, getLsbD_flag (by decide), getLsbD_flag (by decide)]
    by_cases hi : i < 64
    · simp [hW, hC, hi]
    · simp [hC, hi, BitVec.getLsbD_of_ge flags i (by omega)]
  · rfl

theorem shareFlags_write (flags : Pte) : (shareFlags flags).has pteW = false := by
  unfold shareFlags
  split
  · rw [has_pteW, BitVec.getLsbD_or, BitVec.getLsbD_and, BitVec.getLsbD_not, pteW, pteC, getLsbD_flag (by decide),
      getLsbD_flag (by decide)]
    simp
  · rename_i h
    rw [← Bool.not_eq_true]
    exact h

section

variable (pte : Pte)

theorem isFlags_shareFlags : IsFlags (shareFlags (pteFlags pte)) := by
  intro i hi
  rw [getLsbD_shareFlags _ (by omega) (by omega), getLsbD_pteFlags, decide_eq_false (by omega), Bool.and_false]

theorem shareFlags_read : (shareFlags (pteFlags pte)).has pteR = pte.has pteR := by
  rw [has_pteR, has_pteR, getLsbD_shareFlags _ (by decide) (by decide), getLsbD_pteFlags, decide_eq_true (by decide), Bool.and_true]

theorem shareFlags_valid : (shareFlags (pteFlags pte)).has pteV = pte.has pteV := by
  rw [has_pteV, has_pteV, getLsbD_shareFlags _ (by decide) (by decide), getLsbD_pteFlags, decide_eq_true (by decide), Bool.and_true]

theorem pteFlags_write : (pteFlags pte).has pteW = pte.has pteW := by
  rw [has_pteW, has_pteW, getLsbD_pteFlags, decide_eq_true (by decide), Bool.and_true]

def cowPte (pte : Pte) : Pte :=
  if pte.has pteW then pa2pte (pte2pa pte) ||| shareFlags (pteFlags pte) else pte

theorem cowPte_write : (cowPte pte).has pteW = false := by
  unfold cowPte
  split
  · rw [has_pteW, getLsbD_entry (by decide), ← has_pteW]
    exact shareFlags_write _
  · rename_i h
    rw [← Bool.not_eq_true]
    exact h

theorem cowPte_valid : (cowPte pte).has pteV = pte.has pteV := by
  unfold cowPte
  split
  · rw [has_pteV, getLsbD_entry (by decide), ← has_pteV]
    exact shareFlags_valid pte
  · rfl

theorem cowPte_read : (cowPte pte).has pteR = pte.has pteR := by
  unfold cowPte
  split
  · rw [has_pteR, getLsbD_entry (by decide), ← has_pteR]
    exact shareFlags_read pte
  · rfl

theorem shareFlags_user : (shareFlags (pteFlags pte)).has pteU = pte.has pteU := by
  rw [has_pteU, has_pteU, getLsbD_shareFlags _ (by decide) (by decide), getLsbD_pteFlags,
    decide_eq_true (by decide), Bool.and_true]

theorem cowPte_user : (cowPte pte).has pteU = pte.has pteU := by
  unfold cowPte
  split
  · rw [has_pteU, getLsbD_entry (by decide), ← has_pteU]
    exact shareFlags_user pte
  · rfl

end

theorem shareFlags_copy {flags : Pte} (hwrite : flags.has pteW = true) :
    (shareFlags flags).has pteC = true := by
  rw [shareFlags, if_pos hwrite, has_pteC, BitVec.getLsbD_or, ← has_pteC pteC]
  simp [show Pte.has pteC pteC = true from by decide]

theorem cowPte_copy {pte : Pte} (hwrite : pte.has pteW = true) : (cowPte pte).has pteC = true := by
  rw [cowPte, if_pos hwrite, has_pteC, getLsbD_entry (by decide), ← has_pteC, shareFlags_copy]
  rw [pteFlags_write, hwrite]

theorem cowPte_page {pte : Pte} (hp : pte.page < 2 ^ 44) : (cowPte pte).page = pte.page := by
  unfold cowPte
  split
  · rw [pte2pa_eq, Pte.page, pte2pa_entry hp (isFlags_shareFlags pte), div_pgsize]
  · rfl

/-! ### One page -/

theorem Inv.unshared (h : Inv k L) {x u : ℕ} (hv : v < userPages) (hu : u < userPages) (hvalid : (L.view k r v).has pteV = true)
    (hwrite : (L.view k r v).has pteW = true) (hvalid' : (L.view k x u).has pteV = true)
    (hpage : (L.view k x u).page = (L.view k r v).page) : x = r ∧ u = v := by
  obtain ⟨huv, hor⟩ := h.shares.shared r v x u hv hu hvalid hvalid' hpage.symm
  rcases hor with hrx | hread
  · exact ⟨hrx.symm, huv.symm⟩
  · rw [hwrite] at hread
    cases hread

theorem Inv.page_lt (h : Inv k L) (hv : v < userPages) (hvalid : (L.view k r v).has pteV = true) :
    (L.view k r v).page < 2 ^ 44 := by
  have hlt := h.lt (p := (L.view k r v).page) (by rw [h.data_of_valid hv hvalid]; nofun)
  omega

structure Raised (r v : ℕ) (k k' : KState) (L : Ledger) : Prop where
  forest : Forest k' L
  nonneg : 0 ≤ k.pageRefCount (L.view k r v).page
  count_eq : k'.pageRefCount = update k.pageRefCount (L.view k r v).page (toInt32 (k.pageRefCount (L.view k r v).page + 1))
  mem_eq : ∀ x, L.role x = .data → k'.mem x = k.mem x
  view_eq : ∀ x u, u < 2 ^ 27 → L.view k' x u = if x = r ∧ u = v then cowPte (L.view k r v) else L.view k x u

theorem Forest.post_uvmcopyPage (h : Forest k L) (hr : L.role r = .root) (hr' : L.role r' = .root) (hne : r ≠ r') (hv : v < 2 ^ 26)
    (hdata : (L.view k r v).has pteV = true → L.role (L.view k r v).page = .data) {Q : Option ℤ → KState → Prop}
    (hmissing : (L.view k r v).has pteV = false → E .uvmcopyPte ∧ E .uvmcopyNotPresent)
    (hcount : k.pageRefCount (L.view k r v).page < 0 → E .incrementReference) (hremap : (L.view k r' v).has pteV = true → E .mappagesRemap)
    (hfull : ∀ m k1 k2 L2, (L.view k r v).has pteV = true → Raised r v k k1 L → Sprouted r' m k1 L k2 L2 → L2.free = [] → m < L.missing r' (v * pgsize) →
      Post (uvmunmap (r' * pgsize) 0 v true) k2 (fun _ k'' => Q (some (-1)) k'') E)
    (hdone : ∀ q k1 k2 L2, (L.view k r v).has pteV = true → (L.view k r' v).has pteV = false → Raised r v k k1 L →
      Sprouted r' (L.missing r' (v * pgsize)) k1 L k2 L2 → Reached r' (v * pgsize) L L2 → slot k2.mem r' (v * pgsize) = some q →
      Q none (k2.write q (leafPte (L.view k r v).page (shareFlags (pteFlags (L.view k r v)))))) :
    Post (uvmcopyPage (r * pgsize) (r' * pgsize) (v * pgsize)) k Q E := by
  unfold uvmcopyPage
  refine Post.bind (post_walk_page hr hv (fun hinvalid => Post.panic (hmissing hinvalid).1) fun q hslot hentry => ?_)
  refine Post.bind (post_readPte ?_)
  rw [hentry]
  cases hvalid : (L.view k r v).has pteV with
  | false => exact Post.panic (hmissing hvalid).2
  | true =>
    rw [if_neg (by decide), pte2pa_eq, div_pgsize]
    refine Post.bind (h.post_increment (hdata hvalid) hcount fun _ k1 hforest hnonneg hmem hcount1 => ?_)
    have hview1 : L.view k1 = L.view k := h.view_congr (fun _ => Iff.rfl) fun x _ => by rw [hmem]
    have hrest : ∀ k2, Raised r v k k2 L → Post (do
        let z ← mappages (r' * pgsize) (v * pgsize) pgsize ((L.view k r v).page * pgsize) (shareFlags (pteFlags (L.view k r v)))
        if z ≠ 0 then do
          uvmunmap (r' * pgsize) 0 v true
          pure (some (-1))
        else
          pure none) k2 Q E := by
      intro k2 hraised
      have hview' : L.view k2 r' v = L.view k r' v := (hraised.view_eq r' v (by omega)).trans (if_neg fun ht => hne ht.1.symm)
      refine Post.bind (hraised.forest.post_mappages hr' hv (fun hvalid' => ?_) (fun m k3 L3 hsprouted hempty hlt => ?_)
        fun q' k3 L3 hsprouted hreached hinvalid hslot' => ?_)
      · rw [hview'] at hvalid'
        exact hremap hvalid'
      · rw [if_pos (by decide)]
        exact Post.step (hfull m k2 k3 L3 hvalid hraised hsprouted hempty hlt) fun _ k' hk' => Post.pure hk'
      · rw [if_neg (by decide)]
        rw [hview'] at hinvalid
        exact Post.pure (hdone q' k2 k3 L3 hvalid hinvalid hraised hsprouted hreached hslot')
    rw [pteFlags_write]
    split
    · rename_i hwrite
      have hslot1 : slot k1.mem r (v * pgsize) = some q := by
        rw [hmem]
        exact hslot
      have hrewritten := hforest.rewritten hr (v := v) (by omega) hslot1 (cowPte (L.view k r v))
      refine Post.bind (post_writePte (hrest _ ?_))
      rw [cowPte, if_pos hwrite, pte2pa_eq] at hrewritten
      refine ⟨hrewritten.forest, hnonneg, hcount1, fun x hx => (hrewritten.mem_eq x hx).trans (by rw [hmem]), fun x u hu => ?_⟩
      rw [hrewritten.view_eq x u hu, hview1, cowPte, if_pos hwrite, pte2pa_eq]
    · rename_i hwrite
      refine hrest k1 ⟨hforest, hnonneg, hcount1, fun x _ => by rw [hmem], fun x u _ => ?_⟩
      rw [hview1, cowPte, if_neg hwrite]
      split
      · rename_i ht
        rw [ht.1, ht.2]
      · rfl

structure Counted (r v : ℕ) (k : KState) (L : Ledger) (k' : KState) (L' : Ledger) : Prop where
  inv : Inv k' L'
  keeps : Keeps (oneSlot r v) k L k' L'
  held_eq : L'.held = update L.held (L.view k r v).page (L.held (L.view k r v).page + 1)
  old_eq : L'.view k' r v = cowPte (L.view k r v)
  role_eq : L'.role = L.role
  free_eq : L'.free = L.free
  mem_eq : ∀ x, L.role x = .data → k'.mem x = k.mem x
  count_eq : k'.pageRefCount = update k.pageRefCount (L.view k r v).page (toInt32 (k.pageRefCount (L.view k r v).page + 1))
  wrapped : k'.Wrapped → k.Wrapped ∨ 2 ^ 31 - 1 ≤ k.pageRefCount (L.view k r v).page

theorem toInt32_succ_neg {z : ℤ} (hlow : 0 ≤ z) (h : toInt32 (z + 1) < 0) : 2 ^ 31 - 1 ≤ z := by
  by_contra hlt
  rw [toInt32, Int.bmod_eq_of_le (by omega) (by omega)] at h
  omega

theorem Raised.counted (h : Raised r v k k' L) (hinv : Inv k L) (hv : v < userPages) (hvalid : (L.view k r v).has pteV = true) :
    Counted r v k L k' { L with held := update L.held (L.view k r v).page (L.held (L.view k r v).page + 1) } := by
  have hlt := userPages_lt
  have hdata := hinv.data_of_valid hv hvalid
  have hpage := cowPte_page (hinv.page_lt hv hvalid)
  have hself : k'.pageRefCount (L.view k r v).page = toInt32 (k.pageRefCount (L.view k r v).page + 1) := by rw [h.count_eq, update_self]
  have hrest : ∀ x, x ≠ (L.view k r v).page → k'.pageRefCount x = k.pageRefCount x := fun x hx => by rw [h.count_eq, update_of_ne hx]
  obtain ⟨hcount, hwrap⟩ := toInt32_succ h.nonneg (hinv.count_lt (L.view k r v).page)
  -- first the entry changes, then the count and the held references
  have hshares : Shares (L.view k') L.role k.pageRefCount L.held := by
    refine hinv.shares.set (hinv.mem_userSlots (root_of_valid hvalid)) (by omega) h.view_eq (fun _ => .inr ⟨?_, ?_, ?_⟩) (fun hle => by omega)
      (fun _ _ x u hu hne hvalid' hpage' => ?_) fun x => ?_
    · rw [cowPte_valid]
      exact hvalid
    · rw [cowPte_read]
      exact hinv.read_of_valid (by omega) hvalid
    · rw [hpage]
      exact hdata
    · obtain ⟨huv, hor⟩ := hinv.shares.shared x u r v hu hv hvalid' hvalid (hpage'.trans hpage)
      exact ⟨huv, hor.resolve_left fun hx => hne ⟨hx, huv⟩, cowPte_write _⟩
    · rw [mapsTo, mapsTo, cowPte_valid, hpage]
  have hle := hshares.count_le _ hdata
  have hnonneg := h.nonneg
  refine ⟨(h.forest.setHeld _).inv (fun x => ?_)
    (hshares.adjust (fun x hx => ⟨rfl, hrest x hx, update_of_ne hx _ _⟩) (fun _ _ _ _ _ => hdata)
    (fun _ => ?_) fun _ => hdata),
    ⟨fun _ => Iff.rfl, fun x u hu hnot => (h.view_eq x u hu).trans (if_neg hnot), fun x u hu _ hvalid' => h.mem_eq _ (hinv.data_of_valid hu hvalid')⟩,
    rfl, (h.view_eq r v (by omega)).trans (if_pos ⟨rfl, rfl⟩), rfl, rfl, h.mem_eq, h.count_eq, ?_⟩
  · by_cases hx : x = (L.view k r v).page
    · rw [hx, hself]
      exact hcount
    · rw [hrest x hx]
      exact hinv.count_lt x
  · simp only [hself, update_self]
    omega
  · rintro ⟨x, hx⟩
    by_cases hxp : x = (L.view k r v).page
    · rw [hxp, hself] at hx
      exact .inr (toInt32_succ_neg h.nonneg hx)
    · rw [hrest x hxp] at hx
      exact .inl ⟨x, hx⟩

structure SharedPage (r r' v : ℕ) (k : KState) (L : Ledger) (k' : KState) (L' : Ledger) : Prop where
  inv : Inv k' L'
  keeps : Keeps (fun x u => (x = r ∨ x = r') ∧ u = v) k L k' L'
  held_eq : L'.held = L.held
  valid : (L.view k r v).has pteV = true
  unused : L.view k r' v = 0
  old_eq : L'.view k' r v = cowPte (L.view k r v)
  new_eq : L'.view k' r' v = leafPte (L.view k r v).page (shareFlags (pteFlags (L.view k r v)))
  data : ∀ x, L.role x = .data → L'.role x = .data ∧ k'.mem x = k.mem x
  count_eq : ∀ x, L.role x = .data → x ≠ (L.view k r v).page → k'.pageRefCount x = k.pageRefCount x
  room : L.free = [] → ∃ x, L.role x = .leaf r' (px 2 (v * pgsize)) (px 1 (v * pgsize))
  free_le : L.free.length ≤ L'.free.length + 2
  wrapped : k'.Wrapped → k.Wrapped ∨ 2 ^ 31 - 1 ≤ k.pageRefCount (L.view k r v).page

structure LeakedPage (r v : ℕ) (k : KState) (L : Ledger) (k' : KState) (L' : Ledger) : Prop where
  inv : Inv k' L'
  keeps : Keeps (oneSlot r v) k L k' L'
  held_eq : L'.held = update L.held (L.view k r v).page (L.held (L.view k r v).page + 1)
  valid : (L.view k r v).has pteV = true
  old_eq : L'.view k' r v = cowPte (L.view k r v)
  data : ∀ x, L.role x = .data → L'.role x = .data ∧ k'.mem x = k.mem x
  count_eq : k'.pageRefCount (L.view k r v).page = toInt32 (k.pageRefCount (L.view k r v).page + 1)
  full : L.free.length ≤ 2
  empty : L.free = [] → L'.role = L.role ∧ L'.free = []
  wrapped : k'.Wrapped → k.Wrapped ∨ 2 ^ 31 - 1 ≤ k.pageRefCount (L.view k r v).page

theorem Counted.leaked (h : Counted r v k L k' L') (hgrown : Grown 2 k' L' k'' L'') (hempty : L''.free = [])
    (hdata : L.role (L.view k r v).page = .data) (hvalid : (L.view k r v).has pteV = true) : LeakedPage r v k L k'' L'' := by
  refine ⟨hgrown.inv, h.keeps.trans (hgrown.keeps h.inv).of_none, hgrown.held_eq.trans h.held_eq, hvalid, ?_, fun x hx => ?_, ?_, ?_, fun hfull => ?_,
    fun hw => h.wrapped (hgrown.wrapped hw)⟩
  · rw [hgrown.view_eq, h.old_eq]
  · have hrole : L'.role x = .data := by rw [h.role_eq, hx]
    exact ⟨by rw [hgrown.role_eq x (by rw [hrole]; nofun), hrole], by rw [hgrown.mem_eq x hrole, h.mem_eq x hx]⟩
  · rw [hgrown.count_eq _ (by rw [h.role_eq, hdata]; nofun), h.count_eq, update_self]
  · have hle := hgrown.free_le
    rw [hempty, h.free_eq] at hle
    exact hle
  · obtain ⟨hrole, hfree⟩ := hgrown.role_full h.inv (by rw [h.free_eq, hfull])
    exact ⟨by rw [hrole, h.role_eq], hfree⟩

theorem Counted.shared (h : Counted r v k L k' L') (hgrown : Grown 2 k' L' k'' L'') (hinv : Inv k L) (hv : v < userPages)
    (hvalid : (L.view k r v).has pteV = true) (hr' : L.role r' = .root) (hne : r ≠ r')
    (hinvalid : (L'.view k' r' v).has pteV = false) (hslot : slot k''.mem r' (v * pgsize) = some q) :
    SharedPage r r' v k L (k''.write q (leafPte (L.view k r v).page (shareFlags (pteFlags (L.view k r v)))))
      { L'' with held := L.held } := by
  have hlt := userPages_lt
  have hplt := hinv.page_lt hv hvalid
  have hroot : L''.role r' = .root := (hgrown.root_iff r').mpr ((h.keeps.root_iff r').mpr hr')
  have hunused : L.view k r' v = 0 := by
    rw [← h.keeps.view_eq r' v (by omega) fun heq => hne heq.1.symm]
    exact h.inv.view_zero (by omega) hinvalid
  have hold : L''.view k'' r v = cowPte (L.view k r v) := by rw [hgrown.view_eq, h.old_eq]
  have holdvalid : (L''.view k'' r v).has pteV = true := by
    rw [hold, cowPte_valid]
    exact hvalid
  have holdpage : (L''.view k'' r v).page = (L.view k r v).page := by rw [hold, cowPte_page hplt]
  have hheld : L''.held (L.view k r v).page = L.held (L.view k r v).page + 1 := by
    rw [hgrown.held_eq, h.held_eq, update_self]
  have hnewpage : (leafPte (L.view k r v).page (shareFlags (pteFlags (L.view k r v)))).page = (L.view k r v).page :=
    leafPte_page hplt (isFlags_shareFlags _)
  have hmap := hgrown.inv.map_held hroot hv hslot (leafPte_valid _ (shareFlags (pteFlags (L.view k r v))))
    (by rw [leafPte_read, shareFlags_read]; exact hinv.read_of_valid (by omega) hvalid) hnewpage (by omega) (fun x u hu _ hval hpg => ?_)
  · have heq : update L''.held (L.view k r v).page (L''.held (L.view k r v).page - 1) = L.held := by
      rw [hheld, Nat.add_sub_cancel, hgrown.held_eq, h.held_eq, update_idem, update_eq_self]
    rw [heq] at hmap
    have hwrite := hgrown.inv.keeps_write hroot (v := v) (by omega) hslot
      (leafPte (L.view k r v).page (shareFlags (pteFlags (L.view k r v)))) L.held
    refine ⟨hmap, ?_, rfl, hvalid, hunused, ?_, ?_, fun x hx => ?_, fun x hx hxp => ?_, fun hfull => ⟨q.page, ?_⟩, ?_,
      fun hw => h.wrapped (hgrown.wrapped hw)⟩
    · refine ((h.keeps.trans (hgrown.keeps h.inv).of_none).mono ?_).trans (hwrite.mono ?_)
      · rintro x u ⟨hx, hu⟩
        exact ⟨.inl hx, hu⟩
      · rintro x u ⟨hx, hu⟩
        exact ⟨.inr hx, hu⟩
    · rw [← hold]
      exact hwrite.view_eq r v (by omega) fun heq => hne heq.1
    · exact (Ledger.view_write hgrown.inv hroot (by omega) hslot _ r' v (by omega)).trans (if_pos ⟨rfl, rfl⟩)
    · have hrole : L'.role x = .data := by rw [h.role_eq, hx]
      have hrole'' : L''.role x = .data := by rw [hgrown.role_eq x (by rw [hrole]; nofun), hrole]
      refine ⟨hrole'', ?_⟩
      rw [← h.mem_eq x hx, ← hgrown.mem_eq x hrole]
      refine update_of_ne ?_ _ _
      rintro rfl
      rw [((hgrown.inv.tables.slot_eq_some_iff hroot).mp hslot).1] at hrole''
      cases hrole''
    · have hrole : L'.role x ≠ .free := by
        rw [h.role_eq, hx]
        nofun
      refine (hgrown.count_eq x hrole).trans ?_
      rw [h.count_eq, update_of_ne hxp]
    · obtain ⟨hrole, _⟩ := hgrown.role_full h.inv (by rw [h.free_eq, hfull])
      rw [← h.role_eq, ← hrole]
      exact ((hgrown.inv.tables.slot_eq_some_iff hroot).mp hslot).1
    · rw [← h.free_eq]
      exact hgrown.free_le
  · obtain ⟨huv, hor⟩ := hgrown.inv.shares.shared x u r v hu hv hval holdvalid (hpg.trans holdpage.symm)
    refine ⟨huv, ?_, by rw [leafPte_write]; exact shareFlags_write _⟩
    rcases hor with hxr | hread
    · rw [hxr, huv, hold]
      exact cowPte_write _
    · exact hread

theorem Inv.post_uvmcopyPage (h : Inv k L) (hr : L.role r = .root) (hr' : L.role r' = .root) (hne : r ≠ r') (hv : v < userPages)
    {Q : Option ℤ → KState → Prop}
    (hmissing : (L.view k r v).has pteV = false → E .uvmcopyPte ∧ E .uvmcopyNotPresent)
    (hcount : k.pageRefCount (L.view k r v).page < 0 → E .incrementReference) (hremap : (L.view k r' v).has pteV = true → E .mappagesRemap)
    (hfull : ∀ k' L', LeakedPage r v k L k' L' →
      Post (uvmunmap (r' * pgsize) 0 v true) k' (fun _ k'' => Q (some (-1)) k'') E)
    (hdone : ∀ k' L', SharedPage r r' v k L k' L' → Q none k') :
    Post (uvmcopyPage (r * pgsize) (r' * pgsize) (v * pgsize)) k Q E := by
  have heq := userPages_eq
  have hle := L.missing_le r' (v * pgsize)
  refine h.forest.post_uvmcopyPage hr hr' hne (by omega) (h.data_of_valid hv) hmissing hcount hremap
    (fun m k1 k2 L2 hvalid hraised hsprouted hempty hlt => ?_) fun q k1 k2 L2 hvalid hinvalid hraised hsprouted _ hslot => ?_
  · have hcounted := hraised.counted h hv hvalid
    exact hfull k2 _ (hcounted.leaked ((hsprouted.setHeld _).grown hcounted.inv (by omega)) hempty (h.data_of_valid hv hvalid) hvalid)
  · have hcounted := hraised.counted h hv hvalid
    refine hdone _ _ (hcounted.shared ((hsprouted.setHeld _).grown hcounted.inv hle) h hv hvalid hr' hne ?_ hslot)
    rw [hcounted.keeps.view_eq r' v (by omega) fun ht => hne ht.1.symm]
    exact hinvalid

/-! ### The loop -/

structure Forked (r r' n : ℕ) (k : KState) (L : Ledger) (k' : KState) (L' : Ledger) : Prop where
  inv : Inv k' L'
  keeps : Keeps (fun x u => (x = r ∨ x = r') ∧ u < n) k L k' L'
  held_eq : L'.held = L.held
  valid : ∀ u, u < n → (L.view k r u).has pteV = true
  unused : ∀ u, u < n → L.view k r' u = 0
  old_eq : ∀ u, u < n → L'.view k' r u = cowPte (L.view k r u)
  new_eq : ∀ u, u < n → L'.view k' r' u = leafPte (L.view k r u).page (shareFlags (pteFlags (L.view k r u)))
  data : ∀ x, L.role x = .data → L'.role x = .data ∧ k'.mem x = k.mem x
  count_eq : ∀ x, L.role x = .data → (∀ u, u < n → x ≠ (L.view k r u).page) → k'.pageRefCount x = k.pageRefCount x
  free_le : L.free.length ≤ L'.free.length + 2 * n
  wrapped : k'.Wrapped → k.Wrapped ∨ ∃ u, u < n ∧ 2 ^ 31 - 1 ≤ k.pageRefCount (L.view k r u).page

theorem Forked.zero (h : Inv k L) (r r' : ℕ) : Forked r r' 0 k L k L :=
  ⟨h, Keeps.refl k L, rfl, nofun, nofun, nofun, nofun, fun _ hx => ⟨hx, rfl⟩, fun _ _ _ => rfl, Nat.le_add_right _ _, .inl⟩

theorem Forked.wrapped_succ {n : ℕ} (h : Forked r r' n k L k' L') (hinv : Inv k L) (hn : n < userPages)
    (hvalid : (L.view k r n).has pteV = true) (hview : L'.view k' r n = L.view k r n)
    (hwrap : k''.Wrapped → k'.Wrapped ∨ 2 ^ 31 - 1 ≤ k'.pageRefCount (L'.view k' r n).page) (hw : k''.Wrapped) :
    k.Wrapped ∨ ∃ u, u < n + 1 ∧ 2 ^ 31 - 1 ≤ k.pageRefCount (L.view k r u).page := by
  rcases hwrap hw with hw' | hmax
  · rcases h.wrapped hw' with hw'' | ⟨u, hu, hmax⟩
    · exact .inl hw''
    · exact .inr ⟨u, by omega, hmax⟩
  · refine .inr ⟨n, by omega, ?_⟩
    rw [hview, h.count_eq _ (hinv.data_of_valid hn hvalid) fun u hu hpage => ?_] at hmax
    · exact hmax
    · have hsame := (hinv.shares.shared r n r u hn (by omega) hvalid (h.valid u hu) hpage).1
      omega

theorem Forked.snoc {n : ℕ} (h : Forked r r' n k L k' L') (h' : SharedPage r r' n k' L' k'' L'') (hinv : Inv k L) (hn : n < userPages) :
    Forked r r' (n + 1) k L k'' L'' := by
  have hlt := userPages_lt
  have hold : L'.view k' r n = L.view k r n := h.keeps.view_eq r n (by omega) fun ht => by omega
  have hnew : L'.view k' r' n = L.view k r' n := h.keeps.view_eq r' n (by omega) fun ht => by omega
  have hvalid : (L.view k r n).has pteV = true := by
    rw [← hold]
    exact h'.valid
  have hkeep : ∀ x u, u < n → L''.view k'' x u = L'.view k' x u := fun x u hu =>
    h'.keeps.view_eq x u (by omega) fun ht => by omega
  refine ⟨h'.inv, (h.keeps.mono ?_).trans (h'.keeps.mono ?_), h'.held_eq.trans h.held_eq, fun u hu => ?_, fun u hu => ?_, fun u hu => ?_,
    fun u hu => ?_, fun x hx => ?_, fun x hx hne => ?_, ?_, h.wrapped_succ hinv hn hvalid hold h'.wrapped⟩
  · rintro x u ⟨hx, hu⟩
    exact ⟨hx, by omega⟩
  · rintro x u ⟨hx, hu⟩
    exact ⟨hx, by omega⟩
  · rcases Nat.lt_succ_iff_lt_or_eq.mp hu with hlt | rfl
    · exact h.valid u hlt
    · exact hvalid
  · rcases Nat.lt_succ_iff_lt_or_eq.mp hu with hlt | rfl
    · exact h.unused u hlt
    · rw [← hnew]
      exact h'.unused
  · rcases Nat.lt_succ_iff_lt_or_eq.mp hu with hlt | rfl
    · rw [hkeep r u hlt]
      exact h.old_eq u hlt
    · rw [h'.old_eq, hold]
  · rcases Nat.lt_succ_iff_lt_or_eq.mp hu with hlt | rfl
    · rw [hkeep r' u hlt]
      exact h.new_eq u hlt
    · rw [h'.new_eq, hold]
  · obtain ⟨hdata, hmem⟩ := h.data x hx
    obtain ⟨hdata', hmem'⟩ := h'.data x hdata
    exact ⟨hdata', hmem'.trans hmem⟩
  · rw [h'.count_eq x (h.data x hx).1 (by rw [hold]; exact hne n (by omega))]
    exact h.count_eq x hx fun u hu => hne u (by omega)
  · have hle := h.free_le
    have hle' := h'.free_le
    omega

/-- `uvmcopy` has failed: the child is as before, some entries of the parent have lost their write permission, and one page has a reference that belongs to nobody. -/
structure ForkFailed (r n : ℕ) (k : KState) (L : Ledger) (k' : KState) (L' : Ledger) : Prop where
  inv : Inv k' L'
  keeps : Keeps (fun x u => x = r ∧ u < n) k L k' L'
  held_le : ∀ p, L.held p ≤ L'.held p
  valid : ∀ u, u < n → (L'.view k' r u).has pteV = (L.view k r u).has pteV
  page_eq : ∀ u, u < n → (L.view k r u).has pteV = true → (L'.view k' r u).page = (L.view k r u).page
  mem_eq : ∀ u, u < n → (L.view k r u).has pteV = true → k'.mem (L.view k r u).page = k.mem (L.view k r u).page
  full : L.free.length ≤ 2 * n
  wrapped : k'.Wrapped → k.Wrapped ∨ ∃ u, u < n ∧ 2 ^ 31 - 1 ≤ k.pageRefCount (L.view k r u).page

theorem Forked.failed {n v : ℕ} {k1 : KState} {L1 : Ledger} (h : Forked r r' v k L k1 L1) (hleak : LeakedPage r v k1 L1 k' L')
    (hunmap : Unmapped r' 0 v k' L' k'' L'') (hinv : Inv k L) (hvn : v < n) (hn : n ≤ userPages) (hne : r ≠ r') :
    ForkFailed r n k L k'' L'' := by
  have hlt := userPages_lt
  have hview1 : L1.view k1 r v = L.view k r v := h.keeps.view_eq r v (by omega) fun ht => by omega
  have hvalidv : (L.view k r v).has pteV = true := by
    rw [← hview1]
    exact hleak.valid
  have hout : ∀ u, ¬ slotRange r' 0 v r u := fun u ht => hne ht.1
  have hcow : ∀ u, u < userPages → L'.view k' r u = cowPte (L.view k r u) ∨ L'.view k' r u = L.view k r u := by
    intro u hu
    by_cases huv : u = v
    · left
      rw [huv, hleak.old_eq, hview1]
    · have hkeep : L'.view k' r u = L1.view k1 r u := hleak.keeps.view_eq r u (by omega) fun ht => huv ht.2
      rw [hkeep]
      by_cases hlow : u < v
      · exact .inl (h.old_eq u hlow)
      · exact .inr (h.keeps.view_eq r u (by omega) fun ht => hlow ht.2)
  have hvalid' : ∀ u, u < userPages → (L'.view k' r u).has pteV = (L.view k r u).has pteV := by
    intro u hu
    rcases hcow u hu with heq | heq
    · rw [heq, cowPte_valid]
    · rw [heq]
  have hpage' : ∀ u, u < userPages → (L.view k r u).has pteV = true → (L'.view k' r u).page = (L.view k r u).page := by
    intro u hu hvalid
    rcases hcow u hu with heq | heq
    · rw [heq, cowPte_page (hinv.page_lt hu hvalid)]
    · rw [heq]
  have hfinal : ∀ u, u < userPages → L''.view k'' r u = L'.view k' r u := fun u hu =>
    hunmap.evolves.keeps.view_eq r u (by omega) (hout u)
  refine ⟨hunmap.evolves.inv, ⟨fun x => ?_, fun x u hu hnot => ?_, fun x u hu hnot hvalid => ?_⟩, fun p => ?_, fun u hu => ?_,
    fun u hu hvalid => ?_, fun u hu hvalid => ?_, ?_, fun hw => ?_⟩
  · rw [hunmap.evolves.keeps.root_iff, hleak.keeps.root_iff, h.keeps.root_iff]
  · by_cases hin : slotRange r' 0 v x u
    · obtain ⟨rfl, _, huv⟩ := hin
      rw [hunmap.view_eq u (by omega) huv, h.unused u (by omega)]
    · rw [hunmap.evolves.keeps.view_eq x u hu hin, hleak.keeps.view_eq x u hu fun ht => hnot ⟨ht.1, by rw [ht.2]; exact hvn⟩,
        h.keeps.view_eq x u hu]
      rintro ⟨rfl | rfl, huv⟩
      · exact hnot ⟨rfl, by omega⟩
      · exact hin ⟨rfl, by omega, by omega⟩
  · by_cases hin : slotRange r' 0 v x u
    · obtain ⟨rfl, _, huv⟩ := hin
      rw [h.unused u (by omega), zero_not_valid] at hvalid
      cases hvalid
    · have hnot1 : ¬ ((x = r ∨ x = r') ∧ u < v) := by
        rintro ⟨rfl | rfl, huv⟩
        · exact hnot ⟨rfl, by omega⟩
        · exact hin ⟨rfl, by omega, by omega⟩
      have hnot2 : ¬ oneSlot r v x u := fun ht => hnot ⟨ht.1, by rw [ht.2]; exact hvn⟩
      have hall : Keeps (fun a b => ¬ (a = x ∧ b = u)) k L k'' L'' :=
        (h.keeps.mono ?_).trans ((hleak.keeps.mono ?_).trans (hunmap.evolves.keeps.mono ?_))
      · exact hall.page_eq x u hu (fun ht => ht ⟨rfl, rfl⟩) hvalid
      · rintro a b ht ⟨rfl, rfl⟩
        exact hnot1 ht
      · rintro a b ht ⟨rfl, rfl⟩
        exact hnot2 ht
      · rintro a b ht ⟨rfl, rfl⟩
        exact hin ht
  · rw [hunmap.evolves.held_eq, hleak.held_eq, h.held_eq]
    by_cases hp : p = (L1.view k1 r v).page
    · rw [hp, update_self]
      omega
    · rw [update_of_ne hp]
  · rw [hfinal u (by omega), hvalid' u (by omega)]
  · rw [hfinal u (by omega), hpage' u (by omega) hvalid]
  · have hsame := hunmap.evolves.keeps.page_eq r u (by omega) (hout u) ((hvalid' u (by omega)).trans hvalid)
    obtain ⟨hdata, hmem⟩ := h.data _ (hinv.data_of_valid (by omega) hvalid)
    rw [hpage' u (by omega) hvalid] at hsame
    rw [hsame, (hleak.data _ hdata).2, hmem]
  · have hle := h.free_le
    have hfull := hleak.full
    omega
  · rcases h.wrapped_succ hinv (by omega) hvalidv hview1 hleak.wrapped (hunmap.evolves.wrapped hw) with hk | ⟨u, hu, hmax⟩
    · exact .inl hk
    · exact .inr ⟨u, by omega, hmax⟩

section

variable (h : Inv k L) (hr : L.role r = .root) (hr' : L.role r' = .root) (hne : r ≠ r')
include h hr hr' hne

theorem Inv.post_uvmcopy {sz : ℕ}
    (hsz : sz ≤ trapframeVa) {Q : ℤ → KState → Prop}
    (hmissing : (∃ u, u < pages sz ∧ (L.view k r u).has pteV = false) → E .uvmcopyPte ∧ E .uvmcopyNotPresent)
    (hcount : (k.Wrapped ∨ ∃ u, u < pages sz ∧ 2 ^ 31 - 1 ≤ k.pageRefCount (L.view k r u).page) →
      E .incrementReference ∧ E .decrementReference)
    (hremap : (∃ u, u < pages sz ∧ (L.view k r' u).has pteV = true) → E .mappagesRemap)
    (hfail : ∀ k' L', ForkFailed r (pages sz) k L k' L' → Q (-1) k')
    (hdone : ∀ k' L', Forked r r' (pages sz) k L k' L' → Q 0 k') :
    Post (uvmcopy (r * pgsize) (r' * pgsize) sz) k Q E := by
  have hlt := userPages_lt
  have hle := pages_le_userPages hsz
  unfold uvmcopy
  refine Post.step (R := fun b k' => match b with
    | none => ∃ L', Forked r r' (pages sz) k L k' L'
    | some z => z = -1 ∧ ∃ L', ForkFailed r (pages sz) k L k' L') ?_ fun b k' hb => ?_
  · refine Post.loop (n := pages sz) (I := fun i k' => ∃ L', Forked r r' i k L k' L') ⟨L, Forked.zero h r r'⟩ (fun i k1 hi hk1 => ?_)
      fun k' hk' => hk'
    obtain ⟨L1, hL1⟩ := hk1
    have hold : L1.view k1 r i = L.view k r i := hL1.keeps.view_eq r i (by omega) fun ht => by omega
    have hnew : L1.view k1 r' i = L.view k r' i := hL1.keeps.view_eq r' i (by omega) fun ht => by omega
    have hwrap : ∀ k' : KState, (k'.Wrapped → k.Wrapped ∨ ∃ u, u < i + 1 ∧ 2 ^ 31 - 1 ≤ k.pageRefCount (L.view k r u).page) → k'.Wrapped →
        E .incrementReference ∧ E .decrementReference := by
      intro k' himp hw
      rcases himp hw with hk | ⟨u, hu, hmax⟩
      · exact hcount (.inl hk)
      · exact hcount (.inr ⟨u, by omega, hmax⟩)
    have hroot' : L1.role r' = .root := (hL1.keeps.root_iff r').mpr hr'
    rw [Nat.zero_add]
    refine hL1.inv.post_uvmcopyPage ((hL1.keeps.root_iff r).mpr hr) hroot' hne (by omega) (fun hinvalid => ?_) (fun hneg => ?_) (fun hvalid => ?_)
      (fun k2 L2 hleak => ?_) fun k2 L2 hshared => ⟨L2, hL1.snoc hshared h (by omega)⟩
    · rw [hold] at hinvalid
      exact hmissing ⟨i, hi, hinvalid⟩
    · rcases hL1.wrapped ⟨_, hneg⟩ with hk | ⟨u, hu, hmax⟩
      · exact (hcount (.inl hk)).1
      · exact (hcount (.inr ⟨u, by omega, hmax⟩)).1
    · rw [hnew] at hvalid
      exact hremap ⟨i, hi, hvalid⟩
    · have hvalid : (L.view k r i).has pteV = true := by
        rw [← hold]
        exact hleak.valid
      have hstart : (0 : ℕ) = 0 * pgsize := (Nat.zero_mul _).symm
      rw [hstart]
      refine hleak.inv.post_uvmunmap ((hleak.keeps.root_iff r').mpr hroot') (by omega)
        (fun hw => (hwrap k2 (fun hw => hL1.wrapped_succ h (by omega) hvalid hold hleak.wrapped hw) hw).2) (fun hex => ?_) fun k3 L3 hunmap => ?_
      · obtain ⟨u, _, hu, hinvalid⟩ := hex
        rw [hleak.keeps.view_eq r' u (by omega) fun ht => hne ht.1.symm, hL1.new_eq u (by omega), leafPte_valid] at hinvalid
        cases hinvalid
      · exact ⟨rfl, L3, hL1.failed hleak hunmap h hi hle hne⟩
  · cases b with
    | none =>
      obtain ⟨L', hL'⟩ := hb
      exact Post.pure (hdone k' L' hL')
    | some z =>
      obtain ⟨rfl, L', hL'⟩ := hb
      exact Post.pure (hfail k' L' hL')

/-- `uvmcopy` of one page when there is no free page, and the child has no page table for it: the page is counted, and nothing takes the reference back. -/
theorem Inv.post_uvmcopy_full (hvalid : (L.view k r 0).has pteV = true)
    (hchild : ∀ x, L.role x ≠ .leaf r' (px 2 0) (px 1 0)) (hfree : L.free = []) (hnonneg : 0 ≤ k.pageRefCount (L.view k r 0).page)
    {Q : ℤ → KState → Prop} (hfull : ∀ k' L', LeakedPage r 0 k L k' L' → Q (-1) k') :
    Post (uvmcopy (r * pgsize) (r' * pgsize) pgsize) k Q E := by
  have hround : Post (uvmcopyPage (r * pgsize) (r' * pgsize) (0 * pgsize)) k (fun b k' => b = some (-1) ∧ ∃ L', LeakedPage r 0 k L k' L') E := by
    refine h.post_uvmcopyPage hr hr' hne (by decide) (fun hinvalid => ?_) (fun hneg => by omega) (fun hvalid' => ?_) (fun k' L' hleak => ?_)
      fun k' L' hshared => ?_
    · rw [hvalid] at hinvalid
      cases hinvalid
    · obtain ⟨q, hslot, _⟩ := Inv.exists_slot hvalid'
      rw [Nat.zero_mul] at hslot
      exact absurd ((h.tables.slot_eq_some_iff hr').mp hslot).1 (hchild _)
    · exact Post.pure ⟨rfl, L', hleak⟩
    · obtain ⟨x, hx⟩ := hshared.room hfree
      rw [Nat.zero_mul] at hx
      exact absurd hx (hchild x)
  rw [Nat.zero_mul] at hround
  unfold uvmcopy
  rw [show (pgsize + pgsize - 1) / pgsize = 1 by decide]
  refine Post.step (R := fun b k' => b = some (-1) ∧ ∃ L', LeakedPage r 0 k L k' L') ?_ fun b k' hb => ?_
  · refine Post.step hround fun b k' hb => ?_
    rw [hb.1]
    exact Post.pure ⟨rfl, hb.2⟩
  · obtain ⟨rfl, L', hleak⟩ := hb
    exact Post.pure (hfull k' L' hleak)

end

end AdvancedXv6.Kernel
