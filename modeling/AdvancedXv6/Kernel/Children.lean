import AdvancedXv6.Kernel.Copies

/-!
# Tearing an address space down, page by page

`proc_freepagetable` takes the trampoline and the trapframe out, gives up the references to the pages of the process, and frees the page-table pages.
-/

namespace AdvancedXv6.Kernel

open Function Prog

variable {k k' : KState} {L L' : Ledger} {r v p t : ℕ} {E : Panic → Prop}

/-! ### `proc_freepagetable` -/

structure Dismantled (r n : ℕ) (k : KState) (L : Ledger) (k' : KState) (L' : Ledger) : Prop where
  forest : Forest k' L'
  pos : ∀ u, u < n → 0 < k.pageRefCount (L.view k r u).page
  role_page : ∀ u, u < n → L'.role (L.view k r u).page = if k.pageRefCount (L.view k r u).page = 1 then .free else .data
  count_page : ∀ u, u < n → k'.pageRefCount (L.view k r u).page = k.pageRefCount (L.view k r u).page - 1
  free : ∀ x, x = r ∨ (L.role x).isBelow r = true → L'.role x = .free
  role_eq : ∀ x, x ≠ r → (L.role x).isBelow r = false → (∀ u, u < n → x ≠ (L.view k r u).page) → L'.role x = L.role x
  count_eq : ∀ x, x ≠ r → (L.role x).isBelow r = false → (∀ u, u < n → x ≠ (L.view k r u).page) → k'.pageRefCount x = k.pageRefCount x
  mem_eq : ∀ x, L.role x = .data → L'.role x = .data → k'.mem x = k.mem x
  view_eq : ∀ x u, u < 2 ^ 27 → x ≠ r → L'.view k' x u = L.view k x u

theorem MapsData.congr {n : ℕ} (h : MapsData r v n k L) (hview : ∀ u, v ≤ u → u < v + n → L'.view k' r u = L.view k r u)
    (hrole : ∀ x, L.role x = .data → L'.role x = .data) : MapsData r v n k' L' := by
  refine ⟨fun u hu hu' => ?_, fun u hu hu' => ?_, fun u hu hu' => ?_, fun u u' hu hlt hu' hlt' heq => ?_⟩
  · rw [hview u hu hu']
    exact h.valid u hu hu'
  · rw [hview u hu hu']
    exact h.read u hu hu'
  · rw [hview u hu hu']
    exact hrole _ (h.data u hu hu')
  · rw [hview u hu hlt, hview u' hu' hlt'] at heq
    exact h.inj u u' hu hlt hu' hlt' heq

theorem MapsData.one {perm : Pte} (h : Forest k L) (hp : L.role p = .data) (hperm : Readable perm)
    (hview : L.view k r 0 = leafPte p perm) : MapsData r 0 (pages pgsize) k L := by
  have hzero : ∀ u, u < 0 + pages pgsize → u = 0 := by
    intro u hu
    rw [show pages pgsize = 1 from rfl] at hu
    omega
  refine MapsData.of_leafPte h (fun u _ hu => ?_) fun u u' _ hu _ hu' _ => ?_
  · rw [hzero u hu]
    exact ⟨p, perm, hview, hperm, hp⟩
  · rw [hzero u hu, hzero u' hu']

theorem Forest.post_uvmfree {sz : ℕ} (h : Forest k L) (hr : L.role r = .root) (hmaps : MapsData r 0 (pages sz) k L) (hn : pages sz ≤ userPages)
    (hrest : ∀ u, u < 2 ^ 27 → pages sz ≤ u → (L.view k r u).has pteV = false) {Q : Unit → KState → Prop}
    (hpanic : (∃ u, u < pages sz ∧ k.pageRefCount (L.view k r u).page ≤ 0) → E .decrementReference)
    (hdone : ∀ k' L', Dismantled r (pages sz) k L k' L' → Q () k') : Post (uvmfree (r * pgsize) sz) k Q E := by
  have heq := userPages_eq
  have hsz : sz ≤ trapframeVa := by
    rw [trapframeVa_eq]
    unfold pages pgsize at *
    omega
  have hwalk : ∀ k1 L1, Cleared r 0 (pages sz) k L k1 L1 → Post (freewalk 3 (r * pgsize)) k1 Q E := by
    intro k1 L1 hcleared
    have hr1 := hcleared.root hmaps hr
    have hroot : ∀ u, u < pages sz → (L.view k r u).page ≠ r := by
      intro u hu heq
      have hdata := hmaps.data u (by omega) (by omega)
      rw [heq, hr] at hdata
      cases hdata
    have hpage : ∀ u, u < pages sz → (L1.role (L.view k r u).page).isBelow r = false := by
      intro u hu
      rw [hcleared.role_page u (by omega) (by omega)]
      split <;> rfl
    have hother : ∀ x, (L.role x).isBelow r = true → L1.role x = L.role x := by
      intro x hx
      apply hcleared.role_eq
      rintro u _ hu rfl
      rw [hmaps.data u (by omega) hu] at hx
      cases hx
    have hbelow : ∀ x, (L.role x).isBelow r = false → (L1.role x).isBelow r = false := by
      intro x hx
      by_cases hin : ∃ u, u < pages sz ∧ x = (L.view k r u).page
      · obtain ⟨u, hu, rfl⟩ := hin
        exact hpage u hu
      · rw [hcleared.role_eq x fun u _ hu heq => hin ⟨u, by omega, heq⟩]
        exact hx
    refine hcleared.forest.post_freewalk hr1 (fun u hu hvalid => ?_) fun k' L' huprooted => hdone k' L' ?_
    · by_cases hin : u < pages sz
      · rw [hcleared.zero u (by omega) (by omega), zero_not_valid] at hvalid
        cases hvalid
      · rw [hcleared.view_eq r u hu (by rintro ⟨_, _, _⟩; omega), hrest u hu (by omega)] at hvalid
        cases hvalid
    · refine ⟨huprooted.forest, fun u hu => hcleared.pos u (by omega) (by omega), fun u hu => ?_, fun u hu => ?_, fun x hx => ?_, fun x hxr hx hne => ?_,
        fun x hxr hx hne => ?_, fun x hx hx' => ?_, fun x u hu hxr => ?_⟩
      · rw [huprooted.role_eq _ (hroot u hu) (hpage u hu), hcleared.role_page u (by omega) (by omega)]
      · rw [huprooted.count_eq _ (hroot u hu) (hpage u hu), hcleared.count_page u (by omega) (by omega)]
      · exact huprooted.free x (hx.imp_right fun hb => by rw [hother x hb]; exact hb)
      · rw [huprooted.role_eq x hxr (hbelow x hx), hcleared.role_eq x fun u _ hu => hne u (by omega)]
      · rw [huprooted.count_eq x hxr (hbelow x hx), hcleared.count_eq x fun u _ hu => hne u (by omega)]
      · have hxr : x ≠ r := by
          rintro rfl
          rw [hr] at hx
          cases hx
        have hxb : (L1.role x).isBelow r = false := hbelow x (by rw [hx]; rfl)
        rw [huprooted.role_eq x hxr hxb] at hx'
        rw [huprooted.mem_eq x hxr hxb, hcleared.mem_eq x hx hx']
      · rw [huprooted.view_of_ne hcleared.forest hr1 hxr, hcleared.view_eq x u hu fun hin => hxr hin.1]
  unfold uvmfree
  split
  · rw [pgroundup_eq hsz, div_pgsize, show (0 : ℕ) = 0 * pgsize from (Nat.zero_mul _).symm]
    refine Post.bind (h.post_uvmunmap hr (by omega) hmaps (fun hex => ?_) hwalk)
    obtain ⟨u, _, hu, hle⟩ := hex
    exact hpanic ⟨u, by omega, hle⟩
  · rename_i hzero
    have hnone : pages sz = 0 := by
      rw [Nat.eq_zero_of_not_pos hzero]
      decide
    exact hwalk k L (by rw [hnone]; exact Cleared.zero_range h r 0)

theorem Forest.post_procFreepagetable {sz : ℕ} (h : Forest k L) (hr : L.role r = .root) (hmaps : MapsData r 0 (pages sz) k L)
    (hn : pages sz ≤ userPages) (hview : ∀ u, u < 2 ^ 27 → pages sz ≤ u →
      L.view k r u = if u = userPages then trapframePte t
        else if u = userPages + 1 then trampolinePte else 0)
    {Q : Unit → KState → Prop} (hpanic : (∃ u, u < pages sz ∧ k.pageRefCount (L.view k r u).page ≤ 0) → E .decrementReference)
    (hdone : ∀ k' L', Dismantled r (pages sz) k L k' L' → Q () k') : Post (procFreepagetable (r * pgsize) sz) k Q E := by
  have heq := userPages_eq
  have hframe := hview userPages (by omega) hn
  have htramp := hview (userPages + 1) (by omega) (by omega)
  rw [if_pos rfl] at hframe
  rw [if_neg (Nat.succ_ne_self userPages), if_pos rfl] at htramp
  unfold procFreepagetable
  rw [trampolineVa_eq, trapframeVa_eq]
  refine Post.bind (h.post_uvmunmap_kernel hr (by omega) (by rw [htramp]; decide) (by rw [htramp]; decide) fun k1 hk1 => ?_)
  have hframe1 : L.view k1 r userPages = trapframePte t := by
    rw [hk1.view_eq r _ (by omega), if_neg (by omega), hframe]
  refine Post.bind (hk1.forest.post_uvmunmap_kernel hr (by omega) (by rw [hframe1]; exact leafPte_valid _ _)
    (by rw [hframe1]; exact leafPte_read _ _) fun k2 hk2 => ?_)
  have hview2 : ∀ x u, u < 2 ^ 27 → L.view k2 x u = if x = r ∧ (u = userPages ∨ u = userPages + 1) then 0 else L.view k x u := by
    intro x u hu
    rw [hk2.view_eq x u hu, hk1.view_eq x u hu]
    split_ifs <;> first | rfl | omega
  have hlow : ∀ u, u < pages sz → L.view k2 r u = L.view k r u := fun u hu => by
    rw [hview2 r u (by omega), if_neg (by omega)]
  have hcount : k2.pageRefCount = k.pageRefCount := hk2.count_eq.trans hk1.count_eq
  refine hk2.forest.post_uvmfree hr (hmaps.congr (fun u _ hu => hlow u (by omega)) fun _ => id) hn
    (fun u hu hge => ?_) (fun hex => ?_) fun k' L' hd => hdone k' L' ?_
  · rw [hview2 r u hu, hview u hu hge]
    split_ifs <;> first | exact zero_not_valid | omega
  · obtain ⟨u, hu, hle⟩ := hex
    rw [hlow u hu, hcount] at hle
    exact hpanic ⟨u, hu, hle⟩
  · refine ⟨hd.forest, fun u hu => ?_, fun u hu => ?_, fun u hu => ?_, hd.free, fun x hxr hx hne =>
      ?_, fun x hxr hx hne => ?_, fun x hx hx' => ?_, fun x u hu hxr => ?_⟩
    · rw [← hcount, ← hlow u hu]
      exact hd.pos u hu
    · rw [← hcount, ← hlow u hu]
      exact hd.role_page u hu
    · rw [← hcount, ← hlow u hu]
      exact hd.count_page u hu
    · exact hd.role_eq x hxr hx fun u hu => by
        rw [hlow u hu]
        exact hne u hu
    · rw [← hcount]
      exact hd.count_eq x hxr hx fun u hu => by
        rw [hlow u hu]
        exact hne u hu
    · rw [hd.mem_eq x hx hx', hk2.mem_eq x hx, hk1.mem_eq x hx]
    · rw [hd.view_eq x u hu hxr, hview2 x u hu, if_neg fun hin => hxr hin.1]

end AdvancedXv6.Kernel
