import AdvancedXv6.Kernel.Spaces

/-!
# Copying an address space, page by page

`uvmcopy` adds one reference to every page of the parent, and takes free pages for the page table of the child as `walk` asks for them. How many it takes depends on the number of virtual pages only, since the child starts without page-table pages for them. When they run out, the references of the pages before are taken back, and that of the page at hand is not.
-/

namespace AdvancedXv6.Kernel

open Function Prog

variable {k k' k'' : KState} {L L' L'' : Ledger} {r r' v : ℕ} {q : PtePtr} {E : Panic → Prop}

variable {Q : ℤ → KState → Prop} {n m u : ℕ} {k1 : KState}

def tablesFor (n : ℕ) : ℕ := if n = 0 then 0 else 1 + (n + 511) / 512

structure Copied (r r' n : ℕ) (k : KState) (L : Ledger) (k' : KState) (L' : Ledger) : Prop where
  forest : Forest k' L'
  role_eq : ∀ x, L.role x ≠ .free → L'.role x = L.role x
  fresh : ∀ x, L.role x = .free → L'.role x = .free ∨ (L'.role x).isBelow r' = true
  mem_eq : ∀ x, L.role x = .data → k'.mem x = k.mem x
  nonneg : ∀ u, u < n → 0 ≤ k.pageRefCount (L.view k r u).page
  count_page : ∀ u, u < n → k'.pageRefCount (L.view k r u).page = toInt32 (k.pageRefCount (L.view k r u).page + 1)
  count_eq : ∀ x, L.role x ≠ .free → (∀ u, u < n → x ≠ (L.view k r u).page) → k'.pageRefCount x = k.pageRefCount x
  old_eq : ∀ u, u < n → L'.view k' r u = cowPte (L.view k r u)
  new_eq : ∀ u, u < n → L'.view k' r' u = leafPte (L.view k r u).page (shareFlags (pteFlags (L.view k r u)))
  view_eq : ∀ x u, u < 2 ^ 27 → ¬ ((x = r ∨ x = r') ∧ u < n) → L'.view k' x u = L.view k x u
  length_eq : L'.free.length + tablesFor n = L.free.length
  mid_iff : L'.Has (.mid r' 0) ↔ 0 < n
  leaf_iff : ∀ j : Fin 512, L'.Has (.leaf r' 0 j) ↔ j.val * 512 < n

theorem Copied.zero (h : Forest k L) (hbare : ¬ L.Has (.mid r' 0)) : Copied r r' 0 k L k L := by
  refine ⟨h, fun _ _ => rfl, fun _ hx => .inl hx, fun _ _ => rfl, nofun, nofun, fun _ _ _ => rfl, nofun, nofun, fun _ _ _ _ => rfl, rfl,
    ⟨fun hmid => absurd hmid hbare, nofun⟩, fun j => ⟨fun hleaf => ?_, nofun⟩⟩
  obtain ⟨t, ht⟩ := hleaf
  obtain ⟨m, hm, _⟩ := h.tables.leaf_parent t r' 0 j ht
  exact absurd ⟨m, hm⟩ hbare

theorem px_low (hn : n < 2 ^ 18) : px 2 (n * pgsize) = 0 ∧ (px 1 (n * pgsize)).val = n / 512 := by
  constructor
  · apply Fin.ext
    simp only [px, pgsize]
    omega
  · simp only [px, pgsize]
    omega

section

variable (h : Copied r r' n k L k' L')
include h

theorem Copied.missing_eq (hn : n < 2 ^ 18) : tablesFor n + L'.missing r' (n * pgsize) = tablesFor (n + 1) := by
  obtain ⟨htop, hnext⟩ := px_low hn
  unfold Ledger.missing
  rw [htop]
  simp only [h.mid_iff, h.leaf_iff, hnext]
  rw [show tablesFor (n + 1) = 1 + (n + 1 + 511) / 512 from if_neg (Nat.succ_ne_zero n)]
  unfold tablesFor
  split <;> split <;> split <;> omega

theorem Copied.root {x : ℕ} (hx : L.role x = .root) : L'.role x = .root :=
  role_kept h.role_eq hx nofun

structure Extending (r r' n m : ℕ) (k : KState) (L : Ledger) (k' : KState) (L' : Ledger) : Prop where
  forest : Forest k' L'
  role_eq : ∀ x, L.role x ≠ .free → L'.role x = L.role x
  fresh : ∀ x, L.role x = .free → L'.role x = .free ∨ (L'.role x).isBelow r' = true
  mem_eq : ∀ x, L.role x = .data → k'.mem x = k.mem x
  nonneg : ∀ u, u < n + 1 → 0 ≤ k.pageRefCount (L.view k r u).page
  count_page : ∀ u, u < n + 1 → k'.pageRefCount (L.view k r u).page = toInt32 (k.pageRefCount (L.view k r u).page + 1)
  count_eq : ∀ x, L.role x ≠ .free → (∀ u, u < n + 1 → x ≠ (L.view k r u).page) → k'.pageRefCount x = k.pageRefCount x
  old_eq : ∀ u, u < n + 1 → L'.view k' r u = cowPte (L.view k r u)
  new_eq : ∀ u, u < n → L'.view k' r' u = leafPte (L.view k r u).page (shareFlags (pteFlags (L.view k r u)))
  view_eq : ∀ x u, u < 2 ^ 27 → ¬ (x = r ∧ u < n + 1 ∨ x = r' ∧ u < n) → L'.view k' x u = L.view k x u
  length_eq : L'.free.length + tablesFor n + m = L.free.length

theorem Copied.extending (hne : r ≠ r') (hn : n < 2 ^ 26) (hmaps : MapsData r 0 (n + 1) k L)
    (hraised : Raised r n k' k1 L') (hsprouted : Sprouted r' m k1 L' k'' L'') : Extending r r' n m k L k'' L'' := by
  have hview' : L'.view k' r n = L.view k r n := h.view_eq r n (by omega) fun ht => by omega
  have hdata : L.role (L.view k r n).page = .data := hmaps.data n (by omega) (by omega)
  have hfree : L.role (L.view k r n).page ≠ .free := by
    rw [hdata]
    nofun
  have hdistinct : ∀ u, u < n → (L.view k r n).page ≠ (L.view k r u).page := by
    intro u hu heq
    have hsame := hmaps.inj n u (by omega) (by omega) (by omega) (by omega) heq
    omega
  have hcountn : k'.pageRefCount (L.view k r n).page = k.pageRefCount (L.view k r n).page := h.count_eq _ hfree hdistinct
  have hkeep := kept_ne_free h.role_eq
  have hcount : ∀ x, L.role x ≠ .free → k''.pageRefCount x =
      if x = (L.view k r n).page then toInt32 (k.pageRefCount (L.view k r n).page + 1) else k'.pageRefCount x := by
    intro x hx
    rw [hsprouted.count_eq x (hkeep x hx), hraised.count_eq, hview', hcountn]
    split
    · rename_i heq
      rw [heq, update_self]
    · rename_i hnot
      rw [update_of_ne hnot]
  have hview : ∀ x u, u < 2 ^ 27 → L''.view k'' x u = if x = r ∧ u = n then cowPte (L.view k r n) else L'.view k' x u := by
    intro x u hu
    rw [hsprouted.view_eq, hraised.view_eq x u hu, hview']
  refine ⟨hsprouted.forest, fun x hx => (hsprouted.role_eq x (hkeep x hx)).trans (h.role_eq x hx), fun x hx => ?_, fun x hx => ?_, fun u hu => ?_,
    fun u hu => ?_, fun x hx hnot => ?_, fun u hu => ?_, fun u hu => ?_, fun x u hu hnot => ?_, ?_⟩
  · rcases h.fresh x hx with hf | hbelow
    · exact hsprouted.fresh x hf
    · exact .inr (below_kept hsprouted.role_eq hbelow)
  · have hx' : L'.role x = .data := role_kept h.role_eq hx nofun
    rw [hsprouted.mem_eq x hx', hraised.mem_eq x hx', h.mem_eq x hx]
  · by_cases hlast : u = n
    · have hnonneg := hraised.nonneg
      rw [hview', hcountn] at hnonneg
      rw [hlast]
      exact hnonneg
    · exact h.nonneg u (by omega)
  · have hdatau : L.role (L.view k r u).page ≠ .free := by
      rw [hmaps.data u (by omega) (by omega)]
      nofun
    rw [hcount _ hdatau]
    by_cases hlast : u = n
    · rw [hlast, if_pos rfl]
    · rw [if_neg (hdistinct u (by omega)).symm]
      exact h.count_page u (by omega)
  · rw [hcount x hx, if_neg (hnot n (by omega))]
    exact h.count_eq x hx fun u hu => hnot u (by omega)
  · rw [hview r u (by omega)]
    by_cases hlast : u = n
    · rw [if_pos ⟨rfl, hlast⟩, hlast]
    · rw [if_neg fun ht => hlast ht.2]
      exact h.old_eq u (by omega)
  · rw [hview r' u (by omega), if_neg fun ht => hne ht.1.symm]
    exact h.new_eq u hu
  · rw [hview x u hu, if_neg, h.view_eq x u hu]
    · rintro ⟨hx, hlt⟩
      apply hnot
      rcases hx with hx | hx
      · exact .inl ⟨hx, by omega⟩
      · exact .inr ⟨hx, hlt⟩
    · rintro ⟨hx, hlast⟩
      exact hnot (.inl ⟨hx, by omega⟩)
  · have hlength := h.length_eq
    have hlength' := hsprouted.length_eq
    omega

theorem Copied.snoc (hr' : L.role r' = .root) (hne : r ≠ r') (hn : n < 2 ^ 18)
    (hmaps : MapsData r 0 (n + 1) k L) (hraised : Raised r n k' k1 L') (hsprouted : Sprouted r' (L'.missing r' (n * pgsize)) k1 L' k'' L'')
    (hreached : Reached r' (n * pgsize) L' L'') (hslot : slot k''.mem r' (n * pgsize) = some q) :
    Copied r r' (n + 1) k L (k''.write q (leafPte (L.view k r n).page (shareFlags (pteFlags (L.view k r n))))) L'' := by
  have hext := h.extending hne (by omega) hmaps hraised hsprouted
  have hr'' : L''.role r' = .root := role_kept hext.role_eq hr' nofun
  have hrewritten := hext.forest.rewritten hr'' (v := n) (by omega) hslot (leafPte (L.view k r n).page (shareFlags (pteFlags (L.view k r n))))
  have hview := hrewritten.view_eq
  obtain ⟨htop, hnext⟩ := px_low hn
  refine ⟨hrewritten.forest, hext.role_eq, hext.fresh, fun x hx => ?_, hext.nonneg, hext.count_page, hext.count_eq, fun u hu => ?_, fun u hu => ?_,
    fun x u hu hnot => ?_, ?_, ?_, fun j => ?_⟩
  · rw [hrewritten.mem_eq x (role_kept hext.role_eq hx nofun), hext.mem_eq x hx]
  · rw [hview r u (by omega), if_neg fun ht => hne ht.1, hext.old_eq u hu]
  · rw [hview r' u (by omega)]
    by_cases hlast : u = n
    · rw [if_pos ⟨rfl, hlast⟩, hlast]
    · rw [if_neg fun ht => hlast ht.2]
      exact hext.new_eq u (by omega)
  · rw [hview x u hu, if_neg fun ht => hnot ⟨.inr ht.1, by omega⟩, hext.view_eq x u hu]
    rintro (⟨hx, hlt⟩ | ⟨hx, hlt⟩)
    · exact hnot ⟨.inl hx, hlt⟩
    · exact hnot ⟨.inr hx, by omega⟩
  · have hlength := hext.length_eq
    have hmissing := h.missing_eq hn
    omega
  · rw [hreached _ rfl, htop]
    exact ⟨fun _ => Nat.succ_pos n, fun _ => .inr (.inl rfl)⟩
  · rw [hreached _ rfl, htop, h.leaf_iff]
    constructor
    · rintro (hlt | hmid | hleaf)
      · omega
      · cases hmid
      · have hj : j = px 1 (n * pgsize) := by
          injection hleaf
        rw [hj, hnext]
        omega
    · intro hlt
      by_cases hold : j.val * 512 < n
      · exact .inl hold
      · right
        right
        have hj : j = px 1 (n * pgsize) := by
          apply Fin.ext
          rw [hnext]
          omega
        rw [hj]

end

theorem shared_page (h : Forest k' L') (hdata : L'.role (L.view k r u).page = .data)
    (hnew : L'.view k' r' u = leafPte (L.view k r u).page (shareFlags (pteFlags (L.view k r u)))) : (L'.view k' r' u).page = (L.view k r u).page :=
  h.page_eq hdata (isFlags_shareFlags _) hnew

theorem MapsData.shared (h : MapsData r 0 n k L) (hforest : Forest k' L') (hrole : ∀ x, L.role x ≠ .free → L'.role x = L.role x)
    (hnew : ∀ u, u < n → L'.view k' r' u = leafPte (L.view k r u).page (shareFlags (pteFlags (L.view k r u)))) : MapsData r' 0 n k' L' := by
  have hdata : ∀ u, u < n → L'.role (L.view k r u).page = .data := fun u hu => role_kept hrole (h.data u (by omega) (by omega)) nofun
  have hpage : ∀ u, u < n → (L'.view k' r' u).page = (L.view k r u).page := fun u hu => shared_page hforest (hdata u hu) (hnew u hu)
  refine MapsData.of_leafPte hforest (fun u _ hu => ?_) fun u u' _ hu _ hu' heq => ?_
  · refine ⟨_, _, hnew u (by omega), ⟨isFlags_shareFlags _, ?_⟩, hdata u (by omega)⟩
    rw [shareFlags_read]
    exact h.read u (by omega) (by omega)
  · rw [hpage u (by omega), hpage u' (by omega)] at heq
    exact h.inj u u' (by omega) (by omega) (by omega) (by omega) heq

section

variable (h : Extending r r' n m k L k' L') (hmaps : MapsData r 0 (n + 1) k L)
include h hmaps

theorem Extending.mapsData : MapsData r' 0 n k' L' :=
  (hmaps.mono (Nat.le_succ n)).shared h.forest h.role_eq h.new_eq

theorem Extending.page_eq (hu : u < n) :
    (L'.view k' r' u).page = (L.view k r u).page := by
  have hdata := hmaps.data u (by omega) (by omega)
  exact shared_page h.forest (role_kept h.role_eq hdata nofun) (h.new_eq u hu)

end

theorem Forest.post_uvmcopy {sz : ℕ} (h : Forest k L) (hr : L.role r = .root) (hr' : L.role r' = .root) (hne : r ≠ r')
    (hbare : ¬ L.Has (.mid r' 0)) (hmaps : MapsData r 0 (pages sz) k L) (hn : pages sz ≤ 2 ^ 18)
    (hcount : (∃ v, v < pages sz ∧ tablesFor v ≤ L.free.length ∧ k.pageRefCount (L.view k r v).page < 0) → E .incrementReference)
    (hwrap : (∃ u v, u < v ∧ v < pages sz ∧ tablesFor v ≤ L.free.length ∧ L.free.length < tablesFor (v + 1) ∧
      toInt32 (k.pageRefCount (L.view k r u).page + 1) ≤ 0) → E .decrementReference)
    (hfail : ∀ v m k1 L1 k' L', v < pages sz → Extending r r' v m k L k1 L1 → L.free.length < tablesFor (v + 1) → Cleared r' 0 v k1 L1 k' L' → Q (-1) k')
    (hdone : ∀ k' L', Copied r r' (pages sz) k L k' L' → Q 0 k') :
    Post (uvmcopy (r * pgsize) (r' * pgsize) sz) k Q E := by
  have hunused : ∀ u, u < 2 ^ 18 → L.view k r' u = 0 := by
    intro u hu
    rw [view_root hr']
    cases hslot : slot k.mem r' (u * pgsize) with
    | none => exact entry_of_none hslot
    | some q =>
      obtain ⟨hq, _⟩ := (h.tables.slot_eq_some_iff hr').mp hslot
      obtain ⟨m, hm, _⟩ := h.tables.leaf_parent _ _ _ _ hq
      rw [(px_low hu).1] at hm
      exact absurd ⟨m, hm⟩ hbare
  unfold uvmcopy
  refine Post.step (R := fun b k' => match b with
    | none => ∃ L', Copied r r' (pages sz) k L k' L'
    | some z => z = -1 ∧ Q (-1) k') ?_ fun b k' hb => ?_
  · refine Post.loop (n := pages sz) (I := fun i k' => ∃ L', Copied r r' i k L k' L') ⟨L, Copied.zero h hbare⟩ (fun i k1 hi hk1 => ?_)
      fun k' hk' => hk'
    obtain ⟨L1, hL1⟩ := hk1
    have hpart := hmaps.mono (Nat.succ_le_of_lt hi)
    have hold : L1.view k1 r i = L.view k r i := hL1.view_eq r i (by omega) fun ht => by omega
    have hnew : L1.view k1 r' i = 0 := (hL1.view_eq r' i (by omega) fun ht => by omega).trans (hunused i (by omega))
    have hdata : L.role (L.view k r i).page = .data := hmaps.data i (by omega) (by omega)
    have hfree : L.role (L.view k r i).page ≠ .free := by
      rw [hdata]
      nofun
    have hcount1 : k1.pageRefCount (L.view k r i).page = k.pageRefCount (L.view k r i).page := by
      refine hL1.count_eq _ hfree fun u hu heq => ?_
      have hsame := hmaps.inj i u (by omega) (by omega) (by omega) (by omega) heq
      omega
    have hlength := hL1.length_eq
    rw [Nat.zero_add]
    refine hL1.forest.post_uvmcopyPage (hL1.root hr) (hL1.root hr') hne (by omega) (fun _ => by rw [hold, hL1.role_eq _ hfree]; exact hdata)
      (fun hinvalid => ?_) (fun hneg => ?_) (fun hvalid => ?_) (fun m k2 k3 L3 _ hraised hsprouted hempty hlt => ?_)
      fun q k2 k3 L3 _ _ hraised hsprouted hreached hslot => ?_
    · rw [hold, hmaps.valid i (by omega) (by omega)] at hinvalid
      cases hinvalid
    · rw [hold, hcount1] at hneg
      exact hcount ⟨i, hi, by omega, hneg⟩
    · rw [hnew, zero_not_valid] at hvalid
      cases hvalid
    · have hext := hL1.extending hne (by omega) hpart hraised hsprouted
      have hshort : L.free.length < tablesFor (i + 1) := by
        have hmissing := hL1.missing_eq (by omega)
        have hlength' := hext.length_eq
        rw [hempty, List.length_nil] at hlength'
        omega
      have hstart : (0 : ℕ) = 0 * pgsize := (Nat.zero_mul _).symm
      have hroot3 : L3.role r' = .root := role_kept hext.role_eq hr' nofun
      rw [hstart]
      refine hext.forest.post_uvmunmap hroot3 (by omega) (hext.mapsData hpart) (fun ⟨u, _, hu, hneg⟩ => ?_)
        fun k' L' hcleared => ⟨rfl, hfail i m k3 L3 k' L' hi hext hshort hcleared⟩
      rw [hext.page_eq hpart (by omega), hext.count_page u (by omega)] at hneg
      exact hwrap ⟨u, i, by omega, hi, by omega, hshort, hneg⟩
    · rw [hold]
      exact ⟨L3, hL1.snoc hr' hne (by omega) hpart hraised hsprouted hreached hslot⟩
  · cases b with
    | none =>
      obtain ⟨L', hL'⟩ := hb
      exact Post.pure (hdone k' L' hL')
    | some z =>
      obtain ⟨rfl, hQ⟩ := hb
      exact Post.pure hQ

end AdvancedXv6.Kernel
