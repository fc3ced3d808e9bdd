import AdvancedXv6.Kernel.Children

/-!
# A fork taken back

A child that is torn down right after `uvmcopy` leaves the counts and the free pages as they were, as long as no count went past `2^31 - 1`. When `uvmcopy` fails it takes back the references of the pages before the one at hand only, so that a failed fork always leaves one reference too many.
-/

namespace AdvancedXv6.Kernel

open Function Prog

variable {k k' k'' : KState} {L L' L'' : Ledger} {r r' v p t sz : ℕ} {q : PtePtr} {E : Panic → Prop}

/-! ### Preliminaries -/

theorem FreeChain.unique {mem : ℕ → Page} {head : ℕ} {free free' : List ℕ}
    (h : FreeChain mem head free) (h' : FreeChain mem head free') : free = free' := by
  induction free generalizing head free' with
  | nil =>
    cases (show head = 0 from h)
    exact h'.head_eq_zero.symm
  | cons p rest ih =>
    obtain ⟨hhead, halloc, hrest⟩ := h
    have hpos := (allocatable_iff.mp halloc).1
    obtain ⟨p', rest', rfl, hhead', _, hrest'⟩ := h'.exists_cons (by rw [hhead]; unfold pgsize; omega)
    have hp : p = p' := by
      unfold pgsize at *
      omega
    rw [← hp] at hrest' ⊢
    rw [ih hrest hrest']

theorem shareFlags_of_not_write {flags : Pte} (h : flags.has pteW = false) : shareFlags flags = flags := if_neg (by rw [h]; decide)

/-- The flags of the entry that is left to the parent: `PTE_C` in place of `PTE_W`. -/
theorem pteFlags_cowPte (pte : Pte) : pteFlags (cowPte pte) = shareFlags (pteFlags pte) := by
  unfold cowPte
  split
  · apply BitVec.eq_of_getLsbD_eq
    intro i _
    rw [getLsbD_pteFlags]
    by_cases hi : i < 10
    · rw [getLsbD_entry hi, decide_eq_true hi, Bool.and_true]
    · rw [isFlags_shareFlags pte i (by omega), decide_eq_false hi, Bool.and_false]
  · rename_i hwrite
    rw [shareFlags_of_not_write]
    rw [pteFlags_write, ← Bool.not_eq_true]
    exact hwrite

/-! ### The child and the parent -/

theorem NewSpace.ne (h : NewSpace r' t k L k' L') {x : ℕ} (hx : L.role x ≠ .free) : x ≠ r' := by
  rintro rfl
  exact hx h.old_free

theorem NewSpace.mapsData {n : ℕ} (h : NewSpace r' t k L k' L') (hr : L.role r = .root) (hmaps : MapsData r 0 n k L) (hn : n ≤ 2 ^ 27) :
    MapsData r 0 n k' L' := by
  have hne : r ≠ r' := h.ne (by rw [hr]; nofun)
  exact hmaps.congr (fun u _ hu => h.view_of_ne r u (by omega) hne) fun x hx => role_kept h.role_eq hx nofun

structure Cloned (r r' t n : ℕ) (k : KState) (L : Ledger) (k' : KState) (L' : Ledger) : Prop where
  forest : Forest k' L'
  old_free : L.role r' = .free
  root : L'.role r' = .root
  role_eq : ∀ x, L.role x ≠ .free → L'.role x = L.role x
  fresh : ∀ x, L.role x = .free → x ≠ r' → L'.role x = .free ∨ (L'.role x).isBelow r' = true
  nonneg : ∀ u, u < n → 0 ≤ k.pageRefCount (L.view k r u).page
  count_page : ∀ u, u < n → k'.pageRefCount (L.view k r u).page = toInt32 (k.pageRefCount (L.view k r u).page + 1)
  count_eq : ∀ x, L.role x ≠ .free → (∀ u, u < n → x ≠ (L.view k r u).page) → k'.pageRefCount x = k.pageRefCount x
  mem_eq : ∀ x, L.role x = .data → k'.mem x = k.mem x
  view_of_ne : ∀ x u, u < 2 ^ 27 → x ≠ r' → L'.view k' x u = if x = r ∧ u < n then cowPte (L.view k r u) else L.view k x u
  new_eq : ∀ u, u < n → L'.view k' r' u = leafPte (L.view k r u).page (shareFlags (pteFlags (L.view k r u)))
  view_eq : ∀ u, u < 2 ^ 27 → n ≤ u → L'.view k' r' u = if u = userPages then trapframePte t else if u = userPages + 1 then trampolinePte else 0

theorem NewSpace.cloned {n : ℕ} (h : NewSpace r' t k L k' L') (hr : L.role r = .root) (hmaps : MapsData r 0 n k L) (hn : n ≤ 2 ^ 18)
    (hcopied : Copied r r' n k' L' k'' L'') : Cloned r r' t n k L k'' L'' := by
  have hne : r ≠ r' := h.ne (by rw [hr]; nofun)
  have hview : ∀ u, u < n → L'.view k' r u = L.view k r u := fun u hu => h.view_of_ne r u (by omega) hne
  have hrole := kept_ne_free h.role_eq
  have hcount : ∀ u, u < n → k'.pageRefCount (L.view k r u).page = k.pageRefCount (L.view k r u).page := fun u hu =>
    h.count_eq _ (by rw [hmaps.data u (by omega) (by omega)]; nofun)
  refine ⟨hcopied.forest, h.old_free, hcopied.root h.root, fun x hx => (hcopied.role_eq x (hrole x hx)).trans (h.role_eq x hx), fun x hx hxr => ?_,
    fun u hu => ?_, fun u hu => ?_, fun x hx hpage => ?_, fun x hx => ?_, fun x u hu hxr => ?_, fun u hu => ?_, fun u hu hnu => ?_⟩
  · rcases h.fresh x hx hxr with hf | hbelow
    · exact hcopied.fresh x hf
    · exact .inr (below_kept hcopied.role_eq hbelow)
  · have hnonneg := hcopied.nonneg u hu
    rw [hview u hu, hcount u hu] at hnonneg
    exact hnonneg
  · have hpage := hcopied.count_page u hu
    rw [hview u hu, hcount u hu] at hpage
    exact hpage
  · rw [hcopied.count_eq x (hrole x hx) fun u hu => by rw [hview u hu]; exact hpage u hu, h.count_eq x hx]
  · have hx' := role_kept h.role_eq hx nofun
    rw [hcopied.mem_eq x hx', h.mem_eq x hx]
  · split
    · rename_i hin
      rw [hin.1, hcopied.old_eq u hin.2, hview u hin.2]
    · rename_i hout
      rw [hcopied.view_eq x u hu fun hin => hout ⟨hin.1.resolve_right hxr, hin.2⟩, h.view_of_ne x u hu hxr]
  · rw [hcopied.new_eq u hu, hview u hu]
  · rw [hcopied.view_eq r' u hu fun hin => Nat.not_lt.mpr hnu hin.2, h.view_eq u hu]

/-- The fork and the teardown have cancelled out, up to the copy-on-write marks in the page table of the parent. -/
structure Neutral (r n : ℕ) (k : KState) (L : Ledger) (k' : KState) : Prop where
  count_eq : k'.pageRefCount = k.pageRefCount
  free : ∃ free, FreeChain k'.mem k'.freelist free ∧ free.Nodup ∧ ∀ x, x ∈ free ↔ x ∈ L.free
  mem_eq : ∀ x, L.role x = .data → k'.mem x = k.mem x
  page_eq : ∀ u, u < n → (L.view k' r u).page = (L.view k r u).page
  flags_eq : ∀ u, u < n → pteFlags (L.view k' r u) = shareFlags (pteFlags (L.view k r u))
  view_eq : ∀ x u, u < 2 ^ 27 → ¬ (x = r ∧ u < n) → L.view k' x u = L.view k x u

section
variable {n : ℕ}

section

variable (h : Cloned r r' t n k L k' L')
include h

theorem Cloned.mapsData (hmaps : MapsData r 0 n k L) : MapsData r' 0 n k' L' := hmaps.shared h.forest h.role_eq h.new_eq

theorem Cloned.page_eq (hmaps : MapsData r 0 n k L) {u : ℕ} (hu : u < n) :
    (L'.view k' r' u).page = (L.view k r u).page := by
  have hdata := hmaps.data u (by omega) (by omega)
  exact shared_page h.forest (role_kept h.role_eq hdata nofun) (h.new_eq u hu)

theorem Cloned.role_restored (hforest : Forest k L) (hmaps : MapsData r 0 n k L)
    (hcount : ∀ u, u < n → k'.pageRefCount (L.view k r u).page ≠ 1) (hd : Dismantled r' n k' L' k'' L'') (x : ℕ) : L''.role x = L.role x := by
  by_cases hgone : x = r' ∨ (L'.role x).isBelow r' = true
  · rw [hd.free x hgone]
    by_contra hx
    rcases hgone with rfl | hbelow
    · exact hx h.old_free.symm
    · rw [h.role_eq x (Ne.symm hx), hforest.not_below (by rw [h.old_free]; nofun)] at hbelow
      cases hbelow
  · rw [not_or, Bool.not_eq_true] at hgone
    by_cases hpage : ∃ u, u < n ∧ x = (L.view k r u).page
    · obtain ⟨u, hu, rfl⟩ := hpage
      have hrole := hd.role_page u hu
      rw [h.page_eq hmaps hu, if_neg (hcount u hu)] at hrole
      rw [hrole, hmaps.data u (by omega) (by omega)]
    · rw [hd.role_eq x hgone.1 hgone.2 fun u hu heq => hpage ⟨u, hu, by rw [heq, h.page_eq hmaps hu]⟩]
      by_cases hx : L.role x = .free
      · rcases h.fresh x hx hgone.1 with hf | hbelow
        · rw [hf, hx]
        · rw [hgone.2] at hbelow
          cases hbelow
      · exact h.role_eq x hx

theorem Cloned.count_restored (hforest : Forest k L) (hmaps : MapsData r 0 n k L)
    (hcount : ∀ u, u < n → k'.pageRefCount (L.view k r u).page = k.pageRefCount (L.view k r u).page + 1)
    (hd : Dismantled r' n k' L' k'' L'') (hrole : ∀ x, L''.role x = L.role x) (x : ℕ) : k''.pageRefCount x = k.pageRefCount x := by
  by_cases hx : L.role x = .free
  · rw [hforest.count_free x hx, hd.forest.count_free x ((hrole x).trans hx)]
  · have hxr : x ≠ r' := by
      rintro rfl
      exact hx h.old_free
    have hbelow : (L'.role x).isBelow r' = false := by
      rw [h.role_eq x hx]
      exact hforest.not_below (by rw [h.old_free]; nofun) x
    by_cases hpage : ∃ u, u < n ∧ x = (L.view k r u).page
    · obtain ⟨u, hu, rfl⟩ := hpage
      have hdown := hd.count_page u hu
      rw [h.page_eq hmaps hu, hcount u hu] at hdown
      rw [hdown, Int.add_sub_cancel]
    · rw [hd.count_eq x hxr hbelow fun u hu heq => hpage ⟨u, hu, by rw [heq, h.page_eq hmaps hu]⟩,
        h.count_eq x hx fun u hu heq => hpage ⟨u, hu, heq⟩]

theorem Cloned.neutral (hforest : Forest k L) (hr : L.role r = .root) (hmaps : MapsData r 0 n k L) (hn : n ≤ 2 ^ 18)
    (hcount : ∀ u, u < n → 0 < k.pageRefCount (L.view k r u).page ∧ k.pageRefCount (L.view k r u).page < 2 ^ 31 - 1)
    (hd : Dismantled r' n k' L' k'' L'') : Neutral r n k L k'' := by
  have hup : ∀ u, u < n → k'.pageRefCount (L.view k r u).page = k.pageRefCount (L.view k r u).page + 1 := by
    intro u hu
    obtain ⟨hpos, hlt⟩ := hcount u hu
    rw [h.count_page u hu, toInt32_of_lt (by omega) (by omega)]
  have hrole := h.role_restored hforest hmaps (fun u hu hone => by have hpos := (hcount u hu).1; rw [hup u hu] at hone; omega) hd
  have hview : L''.view k'' = L.view k'' := by
    funext x u
    unfold Ledger.view
    rw [hrole]
  have hne : ∀ x, L.role x ≠ .free → x ≠ r' := by
    rintro x hx rfl
    exact hx h.old_free
  have hentry : ∀ x u, u < 2 ^ 27 → x ≠ r' → L.view k'' x u = if x = r ∧ u < n then cowPte (L.view k r u) else L.view k x u := by
    intro x u hu hx
    rw [← hview, hd.view_eq x u hu hx, h.view_of_ne x u hu hx]
  have hold : ∀ u, u < n → L.view k'' r u = cowPte (L.view k r u) := fun u hu => by
    rw [hentry r u (by omega) (hne r (by rw [hr]; nofun)), if_pos ⟨rfl, hu⟩]
  refine ⟨funext (h.count_restored hforest hmaps hup hd hrole), ⟨L''.free, hd.forest.chain, hd.forest.nodup, fun x => ?_⟩, fun x hx => ?_, fun u hu => ?_,
    fun u hu => ?_, fun x u hu hout => ?_⟩
  · rw [hd.forest.free_iff, hforest.free_iff, hrole]
  · rw [hd.mem_eq x (role_kept h.role_eq hx nofun) ((hrole x).trans hx), h.mem_eq x hx]
  · have hlt := hforest.lt (p := (L.view k r u).page) (by rw [hmaps.data u (by omega) (by omega)]; nofun)
    rw [hold u hu, cowPte_page (by omega)]
  · rw [hold u hu, pteFlags_cowPte]
  · by_cases hx : x = r'
    · have hnot : L.role x ≠ .root := by
        rw [hx, h.old_free]
        nofun
      rw [view_of_not_root hnot, view_of_not_root hnot]
    · rw [hentry x u hu hx, if_neg hout]

end

theorem Cloned.post_procFreepagetable (h : Cloned r r' t (pages sz) k L k' L') (hmaps : MapsData r 0 (pages sz) k L) (hn : pages sz ≤ 2 ^ 18)
    {Q : Unit → KState → Prop} (hpanic : (∃ u, u < pages sz ∧ toInt32 (k.pageRefCount (L.view k r u).page + 1) ≤ 0) → E .decrementReference)
    (hdone : ∀ k'' L'', Dismantled r' (pages sz) k' L' k'' L'' → Q () k'') : Post (procFreepagetable (r' * pgsize) sz) k' Q E := by
  have huser := userPages_eq
  refine h.forest.post_procFreepagetable h.root (h.mapsData hmaps) (by omega) h.view_eq (fun hex => ?_) hdone
  obtain ⟨u, hu, hle⟩ := hex
  rw [h.page_eq hmaps hu, h.count_page u hu] at hle
  exact hpanic ⟨u, hu, hle⟩

theorem Cloned.neutral_iff (h : Cloned r r' t (pages sz) k L k' L') (hforest : Forest k L) (hr : L.role r = .root)
    (hmaps : MapsData r 0 (pages sz) k L) (hn : pages sz ≤ 2 ^ 18) (hint : ∀ u, u < pages sz → k.pageRefCount (L.view k r u).page < 2 ^ 31) :
    (∃ k3, procFreepagetable (r' * pgsize) sz k' = .ok ((), k3) ∧ Neutral r (pages sz) k L k3) ↔
      ∀ u, u < pages sz → 0 < k.pageRefCount (L.view k r u).page ∧ k.pageRefCount (L.view k r u).page < 2 ^ 31 - 1 := by
  constructor
  · rintro ⟨k3, hfree, hneutral⟩ u hu
    have hpost : Post (procFreepagetable (r' * pgsize) sz) k' (fun _ k'' => ∃ L'', Dismantled r' (pages sz) k' L' k'' L'') fun _ => True :=
      h.post_procFreepagetable hmaps hn (fun _ => trivial) fun k'' L'' hd => ⟨L'', hd⟩
    obtain ⟨L3, hd⟩ := hpost.of_ok hfree
    have hnonneg := h.nonneg u hu
    have hpos := hd.pos u hu
    rw [h.page_eq hmaps hu, h.count_page u hu] at hpos
    refine ⟨lt_of_le_of_ne hnonneg fun hzero => ?_, ?_⟩
    · -- a page without a reference would have been given back
      have hrole := hd.role_page u hu
      rw [h.page_eq hmaps hu, h.count_page u hu, ← hzero, if_pos (by decide)] at hrole
      obtain ⟨free, hchain, _, hmem⟩ := hneutral.free
      rw [hchain.unique hd.forest.chain] at hmem
      have hin := (hmem _).mp ((hd.forest.free_iff _).mpr hrole)
      rw [hforest.free_iff, hmaps.data u (by omega) (by omega)] at hin
      cases hin
    · by_contra hmax
      have hlast := hint u hu
      rw [show k.pageRefCount (L.view k r u).page = 2 ^ 31 - 1 by omega] at hpos
      exact absurd hpos (by decide)
  · intro hcount
    have hpost : Post (procFreepagetable (r' * pgsize) sz) k' (fun _ k'' => ∃ L'', Dismantled r' (pages sz) k' L' k'' L'') fun _ => False := by
      refine h.post_procFreepagetable hmaps hn (fun hex => ?_) fun k'' L'' hd => ⟨L'', hd⟩
      obtain ⟨u, hu, hle⟩ := hex
      obtain ⟨hpos, hlt⟩ := hcount u hu
      rw [toInt32_of_lt (by omega) (by omega)] at hle
      omega
    obtain ⟨_, k3, hfree, L3, hd⟩ := hpost.exists_ok
    exact ⟨k3, hfree, h.neutral hforest hr hmaps hn hcount hd⟩

end

theorem NewSpace.mapsData_le (h : NewSpace r' t k L k' L') (hr : L.role r = .root) (hforest : Forest k L) (hmaps : MapsData r 0 (pages sz) k L) :
    MapsData r 0 (pages sz) k' L' ∧ pages sz ≤ 2 ^ 18 := by
  have hle := hmaps.length_le hforest
  exact ⟨h.mapsData hr hmaps (by omega), by omega⟩

theorem exists_cloned {pagetable : ℕ} {k1 k2 : KState} (h : Forest k L) (hr : L.role r = .root) (hmaps : MapsData r 0 (pages sz) k L)
    (hnew : procPagetable (t * pgsize) k = .ok (pagetable, k1)) (hne : pagetable ≠ 0) (hcopy : uvmcopy (r * pgsize) pagetable sz k1 = .ok (0, k2)) :
    ∃ r' L', pagetable = r' * pgsize ∧ Cloned r r' t (pages sz) k L k2 L' := by
  have hpost : Post (procPagetable (t * pgsize)) k (fun a k' => a ≠ 0 → ∃ r' L', a = r' * pgsize ∧ NewSpace r' t k L k' L') fun _ => True :=
    h.post_procPagetable (fun _ _ _ _ hzero => absurd rfl hzero) fun r' k' L' hspace _ => ⟨r', L', rfl, hspace⟩
  obtain ⟨r', L1, rfl, hspace⟩ := hpost.of_ok hnew hne
  obtain ⟨hmaps1, hn⟩ := hspace.mapsData_le hr h hmaps
  have hrne : r ≠ r' := hspace.ne (by rw [hr]; nofun)
  have hr1 : L1.role r = .root := role_kept hspace.role_eq hr nofun
  have hdone : Post (uvmcopy (r * pgsize) (r' * pgsize) sz) k1 (fun a k' => a = 0 → ∃ L', Copied r r' (pages sz) k1 L1 k' L') fun _ => True :=
    hspace.forest.post_uvmcopy hr1 hspace.root hrne hspace.bare hmaps1 hn (fun _ => trivial) (fun _ => trivial)
      (fun v m k1 L1 k' L' _ _ _ _ hzero => absurd hzero (by decide)) fun k' L' hcopied _ => ⟨L', hcopied⟩
  obtain ⟨L2, hcopied⟩ := hdone.of_ok hcopy rfl
  exact ⟨r', L2, rfl, hspace.cloned hr hmaps hn hcopied⟩

/-! ### A parent with one page -/

theorem Forest.exists_drained (h : Forest k L) (n d : ℕ) (hlength : L.free.length = n + d) :
    ∃ k' L', Forest k' L' ∧ L'.free.length = n ∧ L'.view k' = L.view k ∧ Kept k L k' L' := by
  induction d generalizing k L with
  | zero => exact ⟨k, L, h, hlength, rfl, fun _ _ => rfl, fun _ _ => rfl, fun _ _ => rfl⟩
  | succ d ih =>
    have hpost : Post kalloc k (fun _ k' => ∃ p L', Popped p k L k' L') fun _ => False :=
      h.post_kalloc (fun hempty => by rw [hempty] at hlength; cases hlength) fun p k' L' hpopped => ⟨p, L', hpopped⟩
    obtain ⟨_, k1, _, p, L1, hpopped⟩ := hpost.exists_ok
    rw [hpopped.free_eq, List.length_cons] at hlength
    obtain ⟨k', L', hforest, hlength', hview, hkept⟩ := ih hpopped.forest (by omega)
    exact ⟨k', L', hforest, hlength', hview.trans (hpopped.view_eq h), (hpopped.kept h).trans hkept⟩

structure OnePage (r n : ℕ) (k : KState) (L : Ledger) : Prop where
  forest : Forest k L
  root : L.role r = .root
  maps : MapsData r 0 (pages pgsize) k L
  count : k.pageRefCount (L.view k r 0).page = 1
  length_eq : L.free.length = n

theorem exists_onePage (n : ℕ) (hn : n ≤ 32000) : ∃ k L r, OnePage r n k L := by
  obtain ⟨_, free, r, k1, L1, hfresh, hplanted⟩ := exists_planted
  have hlength : (freshLedger free).free.length = 0x88000 - 0x80243 := hfresh.length_eq
  have hforest := hfresh.inv.forest
  rw [hplanted.free_eq, List.length_cons] at hlength
  have hkalloc : Post kalloc k1 (fun _ k' => ∃ p L', Popped p k1 L1 k' L') fun _ => False :=
    hplanted.forest.post_kalloc (fun hempty => by rw [hempty] at hlength; cases hlength) fun p k' L' hpopped => ⟨p, L', hpopped⟩
  obtain ⟨_, k2, _, p, L2, hpopped⟩ := hkalloc.exists_ok
  rw [hpopped.free_eq, List.length_cons] at hlength
  have hr2 : L2.role r = .root := role_kept (hpopped.kept hplanted.forest).role_eq hplanted.root nofun
  have hmissing : L2.missing r (0 * pgsize) ≤ 2 := Ledger.missing_le ..
  have hview2 : (L2.view k2 r 0).has pteV = false := by
    rw [hpopped.view_eq hplanted.forest, hplanted.view_eq, view_of_not_root (by rw [hplanted.old_free hforest]; nofun)]
    exact zero_not_valid
  have hmap : Post (mappages (r * pgsize) (0 * pgsize) pgsize (p * pgsize) pteR) k2
      (fun _ k' => ∃ q k3 L', Sprouted r (L2.missing r (0 * pgsize)) k2 L2 k3 L' ∧
        slot k3.mem r (0 * pgsize) = some q ∧ k' = k3.write q (leafPte p pteR)) fun _ => False := by
    refine hpopped.forest.post_mappages hr2 (by decide) (fun hvalid => ?_)
      (fun m k' L' hsprouted hempty hm => ?_) fun q k' L' hsprouted _ _ hslot =>
      ⟨q, k', L', hsprouted, hslot, rfl⟩
    · rw [hview2] at hvalid
      cases hvalid
    · have hlength' := hsprouted.length_eq
      rw [hempty, List.length_nil] at hlength'
      omega
  obtain ⟨_, _, _, q, k3, L3, hsprouted, hslot, rfl⟩ := hmap.exists_ok
  have hlength3 := hsprouted.length_eq
  have hr3 : L3.role r = .root := role_kept hsprouted.role_eq hr2 nofun
  have hrewritten := hsprouted.forest.rewritten hr3 (by decide) hslot (leafPte p pteR)
  have hp3 : L3.role p = .data := role_kept hsprouted.role_eq hpopped.role_data nofun
  obtain ⟨k, L, hdrained, hfree, hview, hkept⟩ := hrewritten.forest.exists_drained n (L3.free.length - n) (by omega)
  have hentry : L.view k r 0 = leafPte p pteR := by
    rw [hview, hrewritten.view_eq r 0 (by decide), if_pos ⟨rfl, rfl⟩]
  have hp : L.role p = .data := role_kept hkept.role_eq hp3 nofun
  have hreadable : Readable pteR := ⟨isFlags_of_pteFlags (by decide), by decide⟩
  refine ⟨k, L, r, hdrained, role_kept hkept.role_eq hr3 nofun, MapsData.one hdrained hp hreadable hentry, ?_, hfree⟩
  have hall := hsprouted.kept.trans (hrewritten.kept.trans hkept)
  rw [hdrained.page_eq hp hreadable.isFlags hentry, hall.count_eq p (by rw [hpopped.role_data]; nofun), hpopped.count_eq, update_self]

theorem OnePage.setCount {n : ℕ} (h : OnePage r n k L) (z : ℤ) :
    ∃ k', Forest k' L ∧ MapsData r 0 (pages pgsize) k' L ∧ k'.pageRefCount (L.view k' r 0).page = z := by
  have hdata := h.maps.data 0 (by decide) (by decide)
  have hinside : L.role (L.view k r 0).page ≠ .outside := by
    rw [hdata]
    nofun
  refine ⟨{ k with pageRefCount := update k.pageRefCount (L.view k r 0).page z }, ?_, h.maps.congr (fun _ _ _ => rfl) fun _ => id, update_self ..⟩
  refine h.forest.change (p := (L.view k r 0).page) (fun x hx => ⟨rfl, update_of_ne hx _ _⟩) hinside hinside h.forest.chain h.forest.nodup
    (fun _ _ => Iff.rfl) (h.forest.free_iff _) (fun hf => ?_) (fun ht => ?_) h.forest.tables
  · rw [hdata] at hf
    cases hf
  · rw [hdata] at ht
    cases ht

theorem exists_child (t : ℕ) (h : Forest k L) (hr : L.role r = .root) (hmaps : MapsData r 0 (pages pgsize) k L)
    (hlength : 5 ≤ L.free.length) (hcount : 0 ≤ k.pageRefCount (L.view k r 0).page) :
    ∃ r' k1 k2, procPagetable (t * pgsize) k = .ok (r' * pgsize, k1) ∧ r' * pgsize ≠ 0 ∧ uvmcopy (r * pgsize) (r' * pgsize) pgsize k1 = .ok (0, k2) := by
  have hone : pages pgsize = 1 := rfl
  have htables : tablesFor 1 = 2 := by decide
  have hnew : Post (procPagetable (t * pgsize)) k (fun a k' => ∃ r' L', a = r' * pgsize ∧ NewSpace r' t k L k' L') fun _ => False :=
    h.post_procPagetable (fun _ _ hlt _ => by omega) fun r' k' L' hspace => ⟨r', L', rfl, hspace⟩
  obtain ⟨_, k1, hrun, r', L1, rfl, hspace⟩ := hnew.exists_ok
  obtain ⟨hmaps1, hn⟩ := hspace.mapsData_le hr h hmaps
  have hrne : r ≠ r' := hspace.ne (by rw [hr]; nofun)
  have hr1 : L1.role r = .root := role_kept hspace.role_eq hr nofun
  have hlength1 := hspace.length_eq
  have hview : L1.view k1 r 0 = L.view k r 0 := hspace.view_of_ne r 0 (by decide) hrne
  have hcount1 : k1.pageRefCount (L1.view k1 r 0).page = k.pageRefCount (L.view k r 0).page := by
    rw [hview, hspace.count_eq _ (by rw [hmaps.data 0 (by decide) (by decide)]; nofun)]
  have hcopy : Post (uvmcopy (r * pgsize) (r' * pgsize) pgsize) k1 (fun a _ => a = 0) fun _ => False := by
    refine hspace.forest.post_uvmcopy hr1 hspace.root hrne hspace.bare hmaps1 hn (fun hex => ?_)
      (fun hex => ?_) (fun v m k2 L2 k' L' hv _ hshort _ => ?_) fun k' L' _ => rfl
    · obtain ⟨v, hv, _, hneg⟩ := hex
      rw [show v = 0 by omega, hcount1] at hneg
      omega
    · obtain ⟨u, v, huv, hv, _⟩ := hex
      omega
    · rw [show v = 0 by omega, htables] at hshort
      omega
  obtain ⟨a, k2, hrun', rfl⟩ := hcopy.exists_ok
  exact ⟨r', k1, k2, hrun, hspace.forest.address_ne_zero (by rw [hspace.root]; nofun), hrun'⟩

/-- A fork followed by the teardown of the child is neutral if and only if every page of the parent has a count of at least one, and one that can grow. -/
theorem fork_teardown_neutral_iff {sz pagetable : ℕ} {k1 k2 : KState} (h : Forest k L) (hr : L.role r = .root) (hmaps : MapsData r 0 (pages sz) k L)
    (hint : ∀ u, u < pages sz → k.pageRefCount (L.view k r u).page < 2 ^ 31) (hnew : procPagetable (t * pgsize) k = .ok (pagetable, k1))
    (hne : pagetable ≠ 0) (hcopy : uvmcopy (r * pgsize) pagetable sz k1 = .ok (0, k2)) :
    (∃ k3, procFreepagetable pagetable sz k2 = .ok ((), k3) ∧ Neutral r (pages sz) k L k3) ↔
      ∀ u, u < pages sz → 0 < k.pageRefCount (L.view k r u).page ∧ k.pageRefCount (L.view k r u).page < 2 ^ 31 - 1 := by
  obtain ⟨r', L', rfl, hcloned⟩ := exists_cloned h hr hmaps hnew hne hcopy
  have hle := hmaps.length_le h
  exact hcloned.neutral_iff h hr hmaps (by omega) hint

theorem fork_teardown_neutral_one_page : ∃ k L r t pagetable k1 k2 k3, Forest k L ∧ L.role r = .root ∧ MapsData r 0 (pages pgsize) k L ∧
    procPagetable (t * pgsize) k = .ok (pagetable, k1) ∧ uvmcopy (r * pgsize) pagetable pgsize k1 = .ok (0, k2) ∧
    procFreepagetable pagetable pgsize k2 = .ok ((), k3) ∧ Neutral r (pages pgsize) k L k3 := by
  obtain ⟨k, L, r, h⟩ := exists_onePage 5 (by decide)
  obtain ⟨r', k1, k2, hnew, hne, hcopy⟩ := exists_child 0x80243 h.forest h.root h.maps (by rw [h.length_eq]) (by rw [h.count]; decide)
  have hcount : ∀ u, u < pages pgsize → k.pageRefCount (L.view k r u).page = 1 := by
    intro u hu
    rw [show u = 0 from Nat.lt_one_iff.mp hu]
    exact h.count
  obtain ⟨k3, hfree, hneutral⟩ := (fork_teardown_neutral_iff h.forest h.root h.maps (fun u hu => by rw [hcount u hu]; decide) hnew hne hcopy).mpr
    fun u hu => by rw [hcount u hu]; decide
  exact ⟨k, L, r, 0x80243, r' * pgsize, k1, k2, k3, h.forest, h.root, h.maps, hnew, hcopy, hfree, hneutral⟩

/-- A page with `2^31 - 1` references: the fork makes the count negative, and the teardown panics. -/
theorem fork_teardown_panics : ∃ k L r t pagetable k1 k2, Forest k L ∧ L.role r = .root ∧ MapsData r 0 (pages pgsize) k L ∧
    k.pageRefCount (L.view k r 0).page = 2 ^ 31 - 1 ∧ procPagetable (t * pgsize) k = .ok (pagetable, k1) ∧ pagetable ≠ 0 ∧
    uvmcopy (r * pgsize) pagetable pgsize k1 = .ok (0, k2) ∧ procFreepagetable pagetable pgsize k2 = .error .decrementReference := by
  obtain ⟨k0, L, r, hone⟩ := exists_onePage 5 (by decide)
  obtain ⟨k, h, hmaps, hcount⟩ := hone.setCount (2 ^ 31 - 1)
  obtain ⟨r', k1, k2, hnew, hne, hcopy⟩ := exists_child 0x80243 h hone.root hmaps (by rw [hone.length_eq]) (by rw [hcount]; decide)
  obtain ⟨s, L', hs, hcloned⟩ := exists_cloned h hone.root hmaps hnew hne hcopy
  refine ⟨k, L, r, 0x80243, r' * pgsize, k1, k2, h, hone.root, hmaps, hcount, hnew, hne, hcopy, ?_⟩
  have hpost : Post (procFreepagetable (s * pgsize) pgsize) k2 (fun _ _ => False) fun e => e = .decrementReference := by
    refine hcloned.post_procFreepagetable hmaps (by decide) (fun _ => rfl) fun k'' L'' hd => ?_
    have hpos := hd.pos 0 (by decide)
    rw [hcloned.page_eq hmaps (by decide), hcloned.count_page 0 (by decide), hcount] at hpos
    exact absurd hpos (by decide)
  rw [hs]
  cases hrun : procFreepagetable (s * pgsize) pgsize k2 with
  | error e => rw [hpost.of_error hrun]
  | ok out => exact (hpost.of_ok hrun).elim

/-! ### A failed fork -/

theorem Forest.post_freeproc_frame {p : Proc} (h : Forest k L) (ht : L.role t = .data)
    (hcount : 0 < k.pageRefCount t) (hp : p.trapframe = t * pgsize) (hp' : p.pagetable = 0)
    {Q : Proc → KState → Prop} (hdone : ∀ k', Q Proc.empty k') : Post (freeproc p) k Q E := by
  unfold freeproc
  rw [hp, hp', if_pos (h.address_ne_zero (by rw [ht]; nofun))]
  refine Post.bind (h.post_kfree ht (fun hle => by omega) fun k' _ _ _ => ?_)
  exact Post.bind (Post.pure (Post.pure (hdone k')))

theorem Forest.post_allocproc (h : Forest k L) {p : Proc} (hp : p.pagetable = 0)
    {Q : Option Proc → KState → Prop} (hnone : ∀ k', L.free.length < 4 → Q none k')
    (hsome : ∀ t r k1 L1 k' L', Popped t k L k1 L1 → NewSpace r t k1 L1 k' L' →
      Q (some { p with state := .used, trapframe := t * pgsize, pagetable := r * pgsize }) k') : Post (allocproc p) k Q E := by
  unfold allocproc
  refine Post.bind (h.post_kalloc (fun hempty => ?_) fun t k1 L1 hpopped => ?_)
  · rw [if_pos rfl]
    exact Post.bind (post_freeproc_empty rfl hp (Post.pure (hnone k (by rw [hempty]; decide))))
  · rw [if_neg hpopped.address_ne_zero]
    have hlength : L.free.length = L1.free.length + 1 := by rw [hpopped.free_eq, List.length_cons]
    refine Post.bind (hpopped.forest.post_procPagetable (fun k' L' hlt hreverted => ?_) fun r k' L' hspace => ?_)
    · rw [if_pos rfl]
      obtain ⟨ht, hcount, _⟩ := hreverted.kept.data hpopped.role_data
      rw [hpopped.count_eq, update_self] at hcount
      exact Post.bind (hreverted.forest.post_freeproc_frame ht (by omega) rfl rfl fun k'' => Post.pure (hnone k'' (by omega)))
    · rw [if_neg (hspace.forest.address_ne_zero (by rw [hspace.root]; nofun))]
      exact Post.pure (hsome t r k1 L1 k' L' hpopped hspace)

/-- If the `uvmcopy` of a fork fails, the counts are those before it, the child maps no user page, and `freeproc` brings back the state before the fork. -/
def FailsCleanly (r sz : ℕ) (k : KState) (L : Ledger) : Prop :=
  ∀ np k1 k2, allocproc Proc.empty k = .ok (some np, k1) → uvmcopy (r * pgsize) np.pagetable sz k1 = .ok (-1, k2) →
    (∀ u, u < userPages → (L.view k r u).has pteV = true → k2.pageRefCount (L.view k r u).page = k1.pageRefCount (L.view k r u).page) ∧
    (∀ u, u < userPages → (entry k2.mem (np.pagetable / pgsize) u).has pteV = false) ∧
    ∀ p k3, freeproc np k2 = .ok (p, k3) → k3.pageRefCount = k.pageRefCount ∧ ∃ free, FreeChain k3.mem k3.freelist free ∧ ∀ x, x ∈ free ↔ x ∈ L.free

theorem tablesFor_le_iff {n v : ℕ} : tablesFor v ≤ n ↔ v ≤ 512 * (n - 1) := by
  unfold tablesFor
  split <;> omega

structure Ready (r r' n : ℕ) (k : KState) (L : Ledger) (k' : KState) (L' : Ledger) : Prop where
  forest : Forest k' L'
  root : L'.role r = .root
  child : L'.role r' = .root
  ne : r ≠ r'
  bare : ¬ L'.Has (.mid r' 0)
  maps : MapsData r 0 n k' L'
  view_eq : ∀ u, u < n → L'.view k' r u = L.view k r u
  count_eq : ∀ u, u < n → k'.pageRefCount (L.view k r u).page = k.pageRefCount (L.view k r u).page
  length_eq : L'.free.length + 4 = L.free.length

theorem NewSpace.ready {n : ℕ} {k1 : KState} {L1 : Ledger} (h : NewSpace r' t k1 L1 k' L') (hpopped : Popped t k L k1 L1) (hforest : Forest k L)
    (hr : L.role r = .root) (hmaps : MapsData r 0 n k L) (hn : n ≤ 2 ^ 18) : Ready r r' n k L k' L' := by
  have hkept := hpopped.kept hforest
  have hr1 : L1.role r = .root := role_kept hkept.role_eq hr nofun
  have hview1 := hpopped.view_eq hforest
  have hmaps1 : MapsData r 0 n k1 L1 := hmaps.congr (fun u _ _ => by rw [hview1]) fun x hx => role_kept hkept.role_eq hx nofun
  have hne : r ≠ r' := h.ne (by rw [hr1]; nofun)
  refine ⟨h.forest, role_kept h.role_eq hr1 nofun, h.root, hne, h.bare, h.mapsData hr1 hmaps1 (by omega), fun u hu => ?_, fun u hu => ?_, ?_⟩
  · rw [h.view_of_ne r u (by omega) hne, hview1]
  · exact (hkept.trans h.kept).count_eq _ (by rw [hmaps.data u (by omega) (by omega)]; nofun)
  · have hlength := h.length_eq
    rw [hpopped.free_eq, List.length_cons]
    omega

theorem Forest.post_allocproc_ready {n : ℕ} (h : Forest k L) (hr : L.role r = .root) (hmaps : MapsData r 0 n k L) (hn : n ≤ 2 ^ 18)
    {Q : Option Proc → KState → Prop} (hnone : ∀ k', L.free.length < 4 → Q none k')
    (hsome : ∀ np r' k' L', np.pagetable = r' * pgsize → Ready r r' n k L k' L' → Q (some np) k') : Post (allocproc Proc.empty) k Q E :=
  h.post_allocproc rfl hnone fun _ r' _ _ k' L' hpopped hspace => hsome _ r' k' L' rfl (hspace.ready hpopped h hr hmaps hn)

theorem Extending.count_leaked {n m : ℕ} (h : Extending r r' n m k L k' L') (hmaps : MapsData r 0 (n + 1) k L) (hcleared : Cleared r' 0 n k' L' k'' L'') :
    k''.pageRefCount (L.view k r n).page = toInt32 (k.pageRefCount (L.view k r n).page + 1) := by
  rw [hcleared.count_eq, h.count_page n (by omega)]
  intro u _ hu heq
  rw [h.page_eq hmaps (by omega)] at heq
  have hsame := hmaps.inj n u (by omega) (by omega) (by omega) (by omega) heq
  omega

theorem toInt32_succ_ne (z : ℤ) : toInt32 (z + 1) ≠ z := by
  intro heq
  have hmod := Int.bmod_emod (x := z + 1) (m := 2 ^ 32)
  unfold toInt32 at heq
  rw [heq] at hmod
  omega

/-- `uvmcopy` has given up at the page `v`. The counts are those before the fork. -/
structure GaveUp (r v : ℕ) (k k' : KState) (L : Ledger) : Prop where
  leaked : k'.pageRefCount (L.view k r v).page = toInt32 (k.pageRefCount (L.view k r v).page + 1)
  nonneg : ∀ u, u ≤ v → 0 ≤ k.pageRefCount (L.view k r u).page
  pos : ∀ u, u < v → 0 < toInt32 (k.pageRefCount (L.view k r u).page + 1)

/-- `uvmcopy` in the kernel call `fork`. Four pages have been taken, and with the rest `limit` pages can be mapped. -/
theorem Ready.post_uvmcopy {limit : ℕ} (h : Ready r r' (pages sz) k L k' L') (hn : pages sz ≤ 2 ^ 18) (hlimit : limit = 512 * (L.free.length - 5))
    {Q : ℤ → KState → Prop} (hcount : (∃ u, u ≤ limit ∧ u < pages sz ∧ k.pageRefCount (L.view k r u).page < 0) → E .incrementReference)
    (hwrap : (∃ u, u < limit ∧ u < pages sz ∧ toInt32 (k.pageRefCount (L.view k r u).page + 1) ≤ 0) → E .decrementReference)
    (hfail : ∀ v k'', limit ≤ v → v < pages sz → GaveUp r v k k'' L → Q (-1) k'') (hdone : ∀ k'', pages sz ≤ limit → Q 0 k'') :
    Post (uvmcopy (r * pgsize) (r' * pgsize) sz) k' Q E := by
  have hlength := h.length_eq
  have hcount' : ∀ u, u < pages sz → k'.pageRefCount (L'.view k' r u).page = k.pageRefCount (L.view k r u).page := fun u hu => by
    rw [h.view_eq u hu, h.count_eq u hu]
  refine h.forest.post_uvmcopy h.root h.child h.ne h.bare h.maps hn (fun hex => ?_) (fun hex => ?_)
    (fun v m k1 L1 k'' L'' hv hextending hshort hcleared => ?_)
    fun k'' L'' hcopied => ?_
  · obtain ⟨v, hv, henough, hneg⟩ := hex
    rw [tablesFor_le_iff] at henough
    rw [hcount' v hv] at hneg
    exact hcount ⟨v, by omega, hv, hneg⟩
  · obtain ⟨u, v, huv, hv, henough, _, hle⟩ := hex
    rw [tablesFor_le_iff] at henough
    rw [hcount' u (by omega)] at hle
    exact hwrap ⟨u, by omega, by omega, hle⟩
  · rw [← Nat.not_le, tablesFor_le_iff] at hshort
    have hmaps := h.maps.mono (show v + 1 ≤ pages sz from hv)
    refine hfail v k'' (by omega) hv ⟨?_, fun u hu => ?_, fun u hu => ?_⟩
    · have hleaked := hextending.count_leaked hmaps hcleared
      rw [hcount' v hv, h.view_eq v hv] at hleaked
      exact hleaked
    · have hnonneg := hextending.nonneg u (by omega)
      rw [hcount' u (by omega)] at hnonneg
      exact hnonneg
    · have hpos := hcleared.pos u (by omega) (by omega)
      rw [hextending.page_eq hmaps hu, hextending.count_page u (by omega), hcount' u (by omega)] at hpos
      exact hpos
  · have hcopies := hcopied.length_eq
    have henough : tablesFor (pages sz) ≤ L'.free.length := by omega
    rw [tablesFor_le_iff] at henough
    exact hdone k'' (by omega)

/-- A failing fork leaves a page of the parent with one reference too many. -/
theorem Forest.not_failsCleanly (h : Forest k L) (hr : L.role r = .root) (hmaps : MapsData r 0 (pages sz) k L) (hlength : 4 ≤ L.free.length)
    (hshort : 512 * (L.free.length - 5) < pages sz)
    (hcount : ∀ u, u ≤ 512 * (L.free.length - 5) → u < pages sz → 0 ≤ k.pageRefCount (L.view k r u).page)
    (hwrap : ∀ u, u < 512 * (L.free.length - 5) → u < pages sz → 0 < toInt32 (k.pageRefCount (L.view k r u).page + 1)) : ¬ FailsCleanly r sz k L := by
  have hle := hmaps.length_le h
  have huser := userPages_eq
  have halloc : Post (allocproc Proc.empty) k (fun a k' => ∃ np r' L', a = some np ∧
    np.pagetable = r' * pgsize ∧ Ready r r' (pages sz) k L k' L') fun _ => False :=
    h.post_allocproc_ready hr hmaps (by omega) (fun _ hlt => by omega) fun np r' k' L' hnp hready => ⟨np, r', L', rfl, hnp, hready⟩
  obtain ⟨_, k1, hrun, np, r', L1, rfl, hnp, hready⟩ := halloc.exists_ok
  have hcopy : Post (uvmcopy (r * pgsize) (r' * pgsize) sz) k1 (fun a k' => a = -1 ∧ ∃ v, v < pages sz ∧ GaveUp r v k k' L) fun _ => False := by
    refine hready.post_uvmcopy (by omega) rfl (fun hex => ?_) (fun hex => ?_) (fun v k' _ hv hgave => ⟨rfl, v, hv, hgave⟩) fun _ hdone => by omega
    · obtain ⟨u, hu, hu', hneg⟩ := hex
      have hnonneg := hcount u hu hu'
      omega
    · obtain ⟨u, hu, hu', hneg⟩ := hex
      have hpos := hwrap u hu hu'
      omega
  obtain ⟨_, k2, hrun', rfl, v, hv, hgave⟩ := hcopy.exists_ok
  intro hclean
  have hsame := (hclean np k1 k2 hrun (by rw [hnp]; exact hrun')).1 v (by omega) (hmaps.valid v (by omega) (by omega))
  rw [hgave.leaked, hready.count_eq v hv] at hsame
  exact toInt32_succ_ne _ hsame

/-- A failed fork is clean only where `uvmcopy` is not reached, has enough page-table pages, or panics at a count. -/
theorem failed_fork_clean_iff {sz : ℕ} (h : Forest k L) (hr : L.role r = .root) (hmaps : MapsData r 0 (pages sz) k L) :
    FailsCleanly r sz k L ↔ L.free.length < 4 ∨ pages sz ≤ 512 * (L.free.length - 5) ∨
      (∃ u, u ≤ 512 * (L.free.length - 5) ∧ u < pages sz ∧ k.pageRefCount (L.view k r u).page < 0) ∨
      (∃ u, u < 512 * (L.free.length - 5) ∧ u < pages sz ∧ toInt32 (k.pageRefCount (L.view k r u).page + 1) ≤ 0) := by
  have hle := hmaps.length_le h
  constructor
  · intro hclean
    by_contra hnot
    simp only [not_or, not_exists, not_and, Nat.not_lt, Nat.not_le, Int.not_lt, Int.not_le] at hnot
    exact h.not_failsCleanly hr hmaps hnot.1 hnot.2.1 hnot.2.2.1 hnot.2.2.2 hclean
  · intro hcond np k1 k2 hrun hrun'
    -- in none of these cases does `uvmcopy` return -1
    exfalso
    have halloc : Post (allocproc Proc.empty) k (fun a k' => ∀ np, a = some np → ∃ r' L', np.pagetable = r' * pgsize ∧ 4 ≤ L.free.length ∧
        Ready r r' (pages sz) k L k' L') fun _ => True := by
      refine h.post_allocproc_ready hr hmaps (by omega) (fun _ _ => nofun) fun np r' k' L' hnp hready _ heq => ?_
      have hlength := hready.length_eq
      cases heq
      exact ⟨r', L', hnp, by omega, hready⟩
    obtain ⟨r', L1, hnp, hlength, hready⟩ := halloc.of_ok hrun np rfl
    have hcopy : Post (uvmcopy (r * pgsize) (r' * pgsize) sz) k1 (fun a k' => a = -1 →
      ∃ v, 512 * (L.free.length - 5) ≤ v ∧ v < pages sz ∧ GaveUp r v k k' L)
        fun _ => True :=
      hready.post_uvmcopy (by omega) rfl (fun _ => trivial) (fun _ => trivial) (fun v k' hle hv hgave _ => ⟨v, hle, hv, hgave⟩)
        fun _ _ hneg => absurd hneg (by decide)
    rw [hnp] at hrun'
    obtain ⟨v, hlimit, hv, hgave⟩ := hcopy.of_ok hrun' rfl
    rcases hcond with hfew | henough | ⟨u, hu, _, hneg⟩ | ⟨u, hu, _, hwrap⟩
    · omega
    · omega
    · have hnonneg := hgave.nonneg u (by omega)
      omega
    · have hpos := hgave.pos u (by omega)
      omega

theorem failed_fork_clean_enough : ∃ k L r, Forest k L ∧ L.role r = .root ∧ MapsData r 0 (pages pgsize) k L ∧ FailsCleanly r pgsize k L := by
  obtain ⟨k, L, r, h⟩ := exists_onePage 6 (by decide)
  refine ⟨k, L, r, h.forest, h.root, h.maps, (failed_fork_clean_iff h.forest h.root h.maps).mpr (.inr (.inl ?_))⟩
  rw [h.length_eq]
  decide

/-- One page in the parent and four free pages: the child's page table takes them all, and `uvmcopy` fails at its first page. -/
theorem failed_fork_leaks : ∃ k L r, Forest k L ∧ L.role r = .root ∧ MapsData r 0 (pages pgsize) k L ∧ k.pageRefCount (L.view k r 0).page = 1 ∧
    L.free.length = 4 ∧ ¬ FailsCleanly r pgsize k L := by
  obtain ⟨k, L, r, h⟩ := exists_onePage 4 (by decide)
  refine ⟨k, L, r, h.forest, h.root, h.maps, h.count, h.length_eq, ?_⟩
  have hlength := h.length_eq
  refine h.forest.not_failsCleanly h.root h.maps (by omega) ?_ (fun u _ hu => ?_) fun u hu _ => ?_
  · rw [hlength]
    decide
  · rw [show u = 0 from Nat.lt_one_iff.mp hu, h.count]
    decide
  · rw [hlength] at hu
    cases hu

end AdvancedXv6.Kernel
