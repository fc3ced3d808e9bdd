import AdvancedXv6.Kernel.Fork

/-!
# Page faults

`handle_page_fault`, and the other functions that look at the entry of an address: `walkaddr` and `uvmclear`. The handler resolves a copy-on-write entry by giving it a page of its own with the same contents. It does nothing, and reports a failure, near the stack pointer and without memory; and it does nothing and reports success for every entry that is not copy-on-write.
-/

namespace AdvancedXv6.Kernel

open Function Prog

variable {k k' k'' : KState} {L L' L'' : Ledger} {r v p va sp : ℕ} {q : PtePtr} {E : Panic → Prop}

/-! ### Looking at an entry -/

def UserMapped (pte : Pte) : Prop := pte.has pteV = true ∧ pte.has pteU = true

instance (pte : Pte) : Decidable (UserMapped pte) := inferInstanceAs (Decidable (_ ∧ _))

theorem UserMapped.user (h : Inv k L) (hv : v < 2 ^ 27) (huser : UserMapped (L.view k r v)) : v < userPages := by
  by_contra hge
  rcases h.shares.kernel r v (by omega) hv with hzero | ⟨_, _, _, hnot, _⟩
  · rw [hzero] at huser
    cases huser.1
  · have hset := huser.2
    rw [hnot] at hset
    cases hset

theorem copy_user (h : Inv k L) (hv : v < 2 ^ 27) (hcopy : (L.view k r v).has pteC = true) :
    v < userPages ∧ (L.view k r v).has pteV = true := by
  by_cases huser : v < userPages
  · rcases h.shares.user r v huser with hzero | ⟨hvalid, _⟩
    · rw [hzero] at hcopy
      cases hcopy
    · exact ⟨huser, hvalid⟩
  · rcases h.shares.kernel r v (by omega) hv with hzero | ⟨_, _, _, _, hnot⟩
    · rw [hzero] at hcopy
      cases hcopy
    · rw [hnot] at hcopy
      cases hcopy

theorem Inv.page_ne_zero (h : Inv k L) (hv : v < 2 ^ 27) (hcopy : (L.view k r v).has pteC = true) : (L.view k r v).page ≠ 0 := by
  obtain ⟨huser, hvalid⟩ := copy_user h hv hcopy
  have halloc := allocatable_iff.mp (h.allocatable (p := (L.view k r v).page) (by rw [h.data_of_valid huser hvalid]; nofun))
  omega

theorem slot_isSome_of_ne (hr : L.role r = .root) (hne : L.view k r (va / pgsize) ≠ 0) : (slot k.mem r va).isSome = true := by
  rw [← Option.ne_none_iff_isSome]
  intro hnone
  rw [← slot_page] at hnone
  exact hne ((view_root hr).trans (entry_of_none hnone))

theorem post_walkaddr {Q : ℕ → KState → Prop} (hr : L.role r = .root) (hv : v < 2 ^ 26)
    (hno : ¬ UserMapped (L.view k r v) → Q 0 k)
    (hyes : UserMapped (L.view k r v) → Q ((L.view k r v).page * pgsize) k) :
    Post (walkaddr (r * pgsize) (v * pgsize)) k Q E := by
  unfold walkaddr
  have hva := page_lt_maxva hv
  rw [if_neg (by omega)]
  refine Post.bind (post_walk hva ?_)
  cases hslot : slot k.mem r (v * pgsize) with
  | none =>
    have hview : L.view k r v = 0 := (view_root hr).trans (entry_of_none hslot)
    refine Post.pure (hno fun huser => ?_)
    rw [hview] at huser
    cases huser.1
  | some q =>
    have hview : L.view k r v = k.mem q.page q.index := (view_root hr).trans (entry_of_slot hslot)
    refine Post.bind (post_readPte ?_)
    rw [← hview]
    cases hvalid : (L.view k r v).has pteV with
    | false =>
      refine Post.pure (hno fun huser => ?_)
      rw [huser.1] at hvalid
      cases hvalid
    | true =>
      cases huser : (L.view k r v).has pteU with
      | false =>
        refine Post.pure (hno fun huser' => ?_)
        rw [huser'.2] at huser
        cases huser
      | true =>
        rw [if_neg (by decide), if_neg (by decide), pte2pa_eq]
        exact Post.pure (hyes ⟨hvalid, huser⟩)

theorem post_walkaddr_high {Q : ℕ → KState → Prop} (hv : 2 ^ 26 ≤ v) (hno : Q 0 k) :
    Post (walkaddr (r * pgsize) (v * pgsize)) k Q E := by
  unfold walkaddr
  rw [if_pos (by unfold maxva pgsize; omega)]
  exact Post.pure hno

/-! ### `uvmclear` -/

theorem getLsbD_clear (pte : Pte) {n i : ℕ} (hn : n < 64) (hi : i < 64) :
    (pte &&& ~~~(1#64 <<< n)).getLsbD i = (pte.getLsbD i && !decide (i = n)) := by
  rw [BitVec.getLsbD_and, BitVec.getLsbD_not, getLsbD_flag hn, decide_eq_true hi, Bool.true_and]

theorem page_congr {pte pte' : Pte} (h : ∀ i, 10 ≤ i → i < 64 → pte'.getLsbD i = pte.getLsbD i) : pte'.page = pte.page := by
  have heq : (pte' >>> 10) <<< 12 = (pte >>> 10) <<< 12 := by
    apply BitVec.eq_of_getLsbD_eq
    intro i hi
    rw [BitVec.getLsbD_shiftLeft, BitVec.getLsbD_shiftLeft, BitVec.getLsbD_ushiftRight, BitVec.getLsbD_ushiftRight]
    by_cases hlt : i < 12
    · simp [hlt]
    · rw [h (10 + (i - 12)) (by omega) (by omega)]
  rw [Pte.page, Pte.page, pte2pa, pte2pa, heq]

structure Adjusted (r v : ℕ) (k : KState) (L : Ledger) (k' : KState) : Prop where
  evolves : Evolves (oneSlot r v) k L k' L
  valid : (L.view k' r v).has pteV = (L.view k r v).has pteV
  page_eq : (L.view k' r v).page = (L.view k r v).page
  mem_eq : ∀ x, L.role x = .data → k'.mem x = k.mem x

theorem Inv.post_uvmclear (h : Inv k L) (hr : L.role r = .root) (hv : v < userPages) {Q : Unit → KState → Prop}
    (hmissing : (L.view k r v).has pteV = false → E .uvmclear) (hdone : ∀ k', Adjusted r v k L k' → Q () k') :
    Post (uvmclear (r * pgsize) (v * pgsize)) k Q E := by
  have heq := userPages_eq
  unfold uvmclear
  refine Post.bind (post_walk_page hr (by omega) (fun hinvalid => Post.panic (hmissing hinvalid)) fun q hslot hview => ?_)
  · refine Post.bind (post_readPte (post_writePte ?_))
    rw [hview]
    have hbits : ∀ i, i < 64 → (L.view k r v &&& ~~~pteU).getLsbD i = ((L.view k r v).getLsbD i && !decide (i = 4)) :=
      fun i hi => getLsbD_clear _ (by decide) hi
    have hvalid : (L.view k r v &&& ~~~pteU).has pteV = (L.view k r v).has pteV := by
      rw [has_pteV, has_pteV, hbits 0 (by decide)]
      simp
    have hread : (L.view k r v &&& ~~~pteU).has pteR = (L.view k r v).has pteR := by
      rw [has_pteR, has_pteR, hbits 1 (by decide)]
      simp
    have hwrite : (L.view k r v &&& ~~~pteU).has pteW = (L.view k r v).has pteW := by
      rw [has_pteW, has_pteW, hbits 2 (by decide)]
      simp
    have hpage : Pte.page (L.view k r v &&& ~~~pteU) = (L.view k r v).page := by
      refine page_congr fun i hi hi' => ?_
      rw [hbits i hi', decide_eq_false (by omega)]
      simp
    have hset := Ledger.view_write h hr (by omega) hslot (L.view k r v &&& ~~~pteU) r v (by omega)
    rw [if_pos ⟨rfl, rfl⟩] at hset
    have hleaf := ((h.tables.slot_eq_some_iff hr).mp hslot).1
    refine hdone _ ⟨⟨h.write hr (by omega) hslot (fun _ => ?_) (fun hle => by omega) ?_ fun x => ?_,
      h.keeps_write hr (by omega) hslot _ L.held, rfl, fun hw => hw⟩, by rw [hset, hvalid], by rw [hset, hpage], fun x hx => ?_⟩
    · rcases h.shares.user r v hv with hzero | ⟨hval, hrd, hdata⟩
      · rw [hzero]
        exact .inl (BitVec.zero_and ..)
      · exact .inr ⟨hvalid.trans hval, hread.trans hrd, by rw [hpage]; exact hdata⟩
    · intro _ hval x u hu hne hval' hpage'
      rw [hvalid] at hval
      rw [hpage] at hpage'
      obtain ⟨hvu, hor⟩ := h.shares.shared r v x u hv hu hval hval' hpage'.symm
      obtain ⟨_, hor'⟩ := h.shares.shared x u r v hu hv hval' hval hpage'
      rw [hwrite]
      refine ⟨hvu.symm, ?_, ?_⟩
      · rcases hor' with hxr | hro
        · exact absurd ⟨hxr, hvu.symm⟩ hne
        · exact hro
      · rcases hor with hrx | hro
        · exact absurd ⟨hrx.symm, hvu.symm⟩ hne
        · exact hro
    · rw [mapsTo, mapsTo, hvalid, hpage]
    · refine update_of_ne ?_ _ _
      rintro rfl
      rw [hleaf] at hx
      cases hx

/-! ### `handle_page_fault` -/

def resolvedPte (p : ℕ) (pte : Pte) : Pte := pa2pte (p * pgsize) ||| (pteFlags pte ||| pteW) &&& ~~~pteC

theorem getLsbD_resolvedPte (p : ℕ) (pte : Pte) {i : ℕ} (hi : i < 10) :
    (resolvedPte p pte).getLsbD i = ((pte.getLsbD i || decide (i = 2)) && !decide (i = 5)) := by
  rw [resolvedPte, getLsbD_entry hi, pteC, getLsbD_clear _ (by decide) (by omega), BitVec.getLsbD_or, getLsbD_pteFlags, pteW,
    getLsbD_flag (by decide), decide_eq_true hi, Bool.and_true]

theorem resolvedPte_page (hp : p < 2 ^ 44) (pte : Pte) : (resolvedPte p pte).page = p := by
  have hhigh : ∀ i, 10 ≤ i → ((pteFlags pte ||| pteW) &&& ~~~pteC).getLsbD i = false := by
    intro i hi
    rw [BitVec.getLsbD_and, BitVec.getLsbD_or, getLsbD_pteFlags, pteW, getLsbD_flag (by decide), decide_eq_false (by omega),
      decide_eq_false (by omega), Bool.and_false, Bool.or_false, Bool.false_and]
  rw [Pte.page, resolvedPte, pte2pa_entry hp hhigh, div_pgsize]

section

variable (p : ℕ) (pte : Pte)

theorem resolvedPte_valid : (resolvedPte p pte).has pteV = pte.has pteV := by
  rw [has_pteV, has_pteV, getLsbD_resolvedPte p pte (by decide)]
  simp

theorem resolvedPte_read : (resolvedPte p pte).has pteR = pte.has pteR := by
  rw [has_pteR, has_pteR, getLsbD_resolvedPte p pte (by decide)]
  simp

theorem resolvedPte_write : (resolvedPte p pte).has pteW = true := by
  rw [has_pteW, getLsbD_resolvedPte p pte (by decide)]
  simp

theorem resolvedPte_user : (resolvedPte p pte).has pteU = pte.has pteU := by
  rw [has_pteU, has_pteU, getLsbD_resolvedPte p pte (by decide)]
  simp

end

structure Resolved (r v p : ℕ) (k : KState) (L : Ledger) (k' : KState) (L' : Ledger) : Prop where
  evolves : Evolves (oneSlot r v) k L k' L'
  user : v < userPages
  valid : (L.view k r v).has pteV = true
  view_eq : L'.view k' r v = resolvedPte p (L.view k r v)
  page_eq : (L'.view k' r v).page = p
  fresh : L.role p = .free
  mem_eq : k'.mem p = k.mem (L.view k r v).page
  free_eq : ∃ rest, L.free = p :: rest ∧
    L'.free = if k.pageRefCount (L.view k r v).page = 1 then (L.view k r v).page :: rest else rest
  rest_eq : ∀ x, x ≠ p → x ≠ (L.view k r v).page →
    k'.mem x = k.mem x ∨ (L.role x).isTable = true
  pos : 0 < k.pageRefCount (L.view k r v).page
  count_old : k'.pageRefCount (L.view k r v).page = k.pageRefCount (L.view k r v).page - 1
  count_eq : ∀ x, L.role x = .data → x ≠ (L.view k r v).page → k'.pageRefCount x = k.pageRefCount x

theorem Taken.resolved (htaken : Taken k L p k' L') (h : Inv k L) (hv : v < userPages) (hvalid : (L.view k r v).has pteV = true)
    (hslot : slot k.mem r (v * pgsize) = some q) (hcopy : k'.mem p = k.mem (L.view k r v).page)
    {Q : ℤ → KState → Prop} (hpanic : k.pageRefCount (L.view k r v).page < 0 → E .decrementReference)
    (hdone : ∀ k'' L'', Resolved r v p k L k'' L'' → Q 0 k'') :
    Post (do
      kfree ((L.view k r v).page * pgsize)
      pure 0) (k'.write q (resolvedPte p (L.view k r v))) Q E := by
  have hlt := userPages_lt
  have hr := root_of_valid hvalid
  have hdata := h.data_of_valid hv hvalid
  have hfree := htaken.role_free h
  have hdatap := htaken.role_data
  have hne : (L.view k r v).page ≠ p := htaken.ne h (by rw [hdata]; nofun)
  have hplt := htaken.inv.lt (p := p) (by rw [hdatap]; nofun)
  have hpage := resolvedPte_page (p := p) (by omega) (L.view k r v)
  have hr' : L'.role r = .root := (htaken.keeps.root_iff r).mpr hr
  have hview : L'.view k' r v = L.view k r v := by rw [htaken.view_eq]
  have hslot' : slot k'.mem r (v * pgsize) = some q := by
    rw [← hslot]
    refine h.tables.slot_congr (fun x hx => htaken.mem_eq x ?_) hr
    rintro rfl
    rw [hfree] at hx
    cases hx
  have hleaf := ((htaken.inv.tables.slot_eq_some_iff hr').mp hslot').1
  have hinv : Inv (k'.write q (resolvedPte p (L.view k r v)))
      { L' with held := update L.held (L.view k r v).page (L.held (L.view k r v).page + 1) } := by
    refine htaken.inv.write hr' (by omega) hslot' (fun _ => .inr ⟨?_, ?_, ?_⟩) (fun hle => by omega) (fun _ _ x u hu _ hval hpg => ?_) fun x => ?_
    · rw [resolvedPte_valid]
      exact hvalid
    · rw [resolvedPte_read]
      exact h.read_of_valid (by omega) hvalid
    · rw [hpage]
      exact hdatap
    · rw [hpage] at hpg
      rw [not_valid_of_userRefs htaken.inv htaken.refs_eq hu hpg] at hval
      cases hval
    · rw [hview, htaken.held_eq]
      by_cases hxp : x = p
      · subst hxp
        have hle := mapsTo_le_one v (resolvedPte x (L.view k r v)) x
        have hzero := htaken.held_zero
        rw [update_of_ne hne.symm, update_self]
        omega
      · rw [mapsTo_of_ne (by rw [hpage]; exact fun heq => hxp heq.symm), update_of_ne hxp]
        by_cases hxo : x = (L.view k r v).page
        · subst hxo
          rw [update_self, mapsTo, if_pos ⟨hv, hvalid, rfl⟩]
        · rw [update_of_ne hxo]
          omega
  have hset := Ledger.view_write htaken.inv hr' (by omega) hslot' (resolvedPte p (L.view k r v)) r v (by omega)
  rw [if_pos ⟨rfl, rfl⟩] at hset
  have hmem : ∀ x, x ≠ q.page → (k'.write q (resolvedPte p (L.view k r v))).mem x = k'.mem x := fun x hx => update_of_ne hx _ _
  have hcount : ∀ x, x ≠ p → (k'.write q (resolvedPte p (L.view k r v))).pageRefCount x = k.pageRefCount x := fun x hx =>
    (congrFun htaken.count_eq x).trans (update_of_ne hx _ _)
  have hrefs := h.one_le_userRefs hv hvalid
  have hle := h.shares.count_le _ hdata
  refine Post.bind (hinv.post_kfree (by simp only [update_self]; omega) (fun hneg => hpanic ?_) fun k1 L1 hdropped => Post.pure (hdone k1 L1 ?_))
  · rw [hcount _ hne] at hneg
    omega
  · have hview1 : L1.view k1 r v = resolvedPte p (L.view k r v) := by
      rw [hdropped.view_eq]
      exact hset
    refine ⟨⟨hdropped.inv, ?_, ?_, fun hw => htaken.wrapped (hdropped.wrapped hw)⟩, hv, hvalid, hview1, by rw [hview1, hpage], hfree, ?_,
      ⟨L'.free, htaken.free_eq, ?_⟩, fun x hxp hxo => ?_, ?_, ?_, fun x hx hxo => ?_⟩
    · exact (htaken.keeps.of_none.trans (htaken.inv.keeps_write hr' (by omega) hslot' _ _)).trans hdropped.keeps.of_none
    · rw [hdropped.held_eq]
      simp only [update_self, update_idem, Nat.add_sub_cancel, update_eq_self]
    · rw [hdropped.mem_eq p hne.symm, hmem p, hcopy]
      rintro rfl
      rw [hleaf] at hdatap
      cases hdatap
    · rw [hdropped.free_eq, hcount _ hne]
    · by_cases hxq : x = q.page
      · right
        have hrole : L'.role x = L.role x := by rw [htaken.role_eq, update_of_ne hxp]
        rw [← hrole, hxq, hleaf]
        rfl
      · left
        rw [hdropped.mem_eq x hxo, hmem x hxq, htaken.mem_eq x hxp]
    · rw [← hcount _ hne]
      exact hdropped.pos
    · rw [hdropped.count_self, hcount _ hne]
    · have hxp : x ≠ p := htaken.ne h (by rw [hx]; nofun)
      rw [hdropped.count_eq x hxo, hcount x hxp]

theorem pteFlags_copy (pte : Pte) : (pteFlags pte).has pteC = pte.has pteC := by
  rw [has_pteC, has_pteC, getLsbD_pteFlags, decide_eq_true (by decide), Bool.and_true]

/-- All the ways through `handle_page_fault` for an address with a slot. -/
theorem Inv.post_handlePageFault (h : Inv k L) (hr : L.role r = .root) {Q : ℤ → KState → Prop}
    (hkill : maxva ≤ va ∨ isBelowStack sp va = true → Q (-2) k)
    (hnull : va < maxva → isBelowStack sp va = false → slot k.mem r va = none → E .kerneltrap)
    (hzero : va < maxva → isBelowStack sp va = false → (slot k.mem r va).isSome = true → (L.view k r (va / pgsize)).page = 0 → Q (-1) k)
    (hplain : va < maxva → isBelowStack sp va = false → (L.view k r (va / pgsize)).page ≠ 0 →
      (L.view k r (va / pgsize)).has pteC = false → Q 0 k)
    (hfull : va < maxva → isBelowStack sp va = false → (L.view k r (va / pgsize)).has pteC = true → L.free = [] → Q (-1) k)
    (hpanic : va < maxva → isBelowStack sp va = false → (L.view k r (va / pgsize)).has pteC = true → L.free ≠ [] →
      k.pageRefCount (L.view k r (va / pgsize)).page < 0 → E .decrementReference)
    (hresolved : ∀ p k' L', va < maxva → isBelowStack sp va = false → (L.view k r (va / pgsize)).has pteC = true →
      Resolved r (va / pgsize) p k L k' L' → Q 0 k') :
    Post (handlePageFault sp va (r * pgsize)) k Q E := by
  unfold handlePageFault
  cases hwindow : isBelowStack sp va with
  | true =>
    rw [Bool.or_true, if_pos rfl]
    exact Post.pure (hkill (.inr hwindow))
  | false =>
    rw [Bool.or_false]
    by_cases hva : maxva ≤ va
    · rw [if_pos (decide_eq_true hva)]
      exact Post.pure (hkill (.inl hva))
    · rw [if_neg (by rw [decide_eq_false hva]; decide)]
      have hlt : va < maxva := by omega
      have hpages : va / pgsize < 2 ^ 26 := by
        unfold maxva at hlt
        unfold pgsize
        omega
      refine Post.bind (post_walk hlt ?_)
      cases hslot : slot k.mem r va with
      | none => exact Post.panic (hnull hlt hwindow hslot)
      | some q =>
        have hsome : (slot k.mem r va).isSome = true := by rw [hslot]; rfl
        rw [← slot_page] at hslot
        have hview : L.view k r (va / pgsize) = k.mem q.page q.index := (view_root hr).trans (entry_of_slot hslot)
        refine Post.bind (post_readPte ?_)
        rw [← hview, pte2pa_eq]
        by_cases hpage : (L.view k r (va / pgsize)).page = 0
        · rw [hpage, Nat.zero_mul, if_pos rfl]
          exact Post.pure (hzero hlt hwindow hsome hpage)
        · rw [if_neg (Nat.mul_ne_zero hpage (by decide))]
          simp only [pteFlags_copy]
          cases hcopy : (L.view k r (va / pgsize)).has pteC with
          | false => exact Post.pure (hplain hlt hwindow hpage hcopy)
          | true =>
            obtain ⟨huser, hvalid⟩ := copy_user h (by omega) hcopy
            rw [if_pos rfl]
            refine Post.bind (h.post_kalloc (fun hempty => ?_) fun p k1 L1 htaken => ?_)
            · rw [if_pos rfl]
              exact Post.pure (hfull hlt hwindow hcopy hempty)
            · rw [if_neg htaken.address_ne_zero]
              have hne : (L.view k r (va / pgsize)).page ≠ p := htaken.ne h (by rw [h.data_of_valid huser hvalid]; nofun)
              refine Post.bind (Post.bind (Post.get (Post.modify ?_)))
              rw [div_pgsize, div_pgsize, htaken.mem_eq _ hne]
              refine Post.bind (post_writePte ?_)
              refine (htaken.setPage _).resolved h huser hvalid hslot ?_
                (hpanic hlt hwindow hcopy (by rw [htaken.free_eq]; nofun)) fun k' L' hres =>
                hresolved p k' L' hlt hwindow hcopy hres
              exact update_self ..

end AdvancedXv6.Kernel
