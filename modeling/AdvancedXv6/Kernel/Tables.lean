import AdvancedXv6.Kernel.FreeList
import AdvancedXv6.Kernel.Vm

/-!
# Page tables in memory

A page table is a tree of pages: the root, one page for each valid entry of the root, and one for each valid entry of those. `Tables` says that the pages with a role in such a tree are exactly the ones the tree reaches, each by one path, so that the entry for a virtual address can be changed without changing any other.
-/

namespace AdvancedXv6.Kernel

open Function

/-- What a physical page is used for. A page of the middle or the last level belongs to a root and a path of indices below it. -/
inductive Role where
  | outside
  | free
  | data
  | root
  | mid (r : ℕ) (i : Fin 512)
  | leaf (r : ℕ) (i j : Fin 512)
  deriving DecidableEq

def Role.isTable : Role → Bool
  | .root | .mid _ _ | .leaf _ _ _ => true
  | _ => false

def Role.isNode : Role → Bool
  | .root | .mid _ _ => true
  | _ => false

/-- The entry for a virtual address, if the pages on the way to it are there: what `walk` finds. -/
def slot (mem : ℕ → Page) (r va : ℕ) : Option PtePtr :=
  let top := mem r (px 2 va)
  if top.has pteV then
    let next := mem top.page (px 1 va)
    if next.has pteV then some ⟨next.page, px 0 va⟩ else none
  else none

/-- The leaf entry of a page table for the `v`-th virtual page; zero where there is none. -/
def entry (mem : ℕ → Page) (r v : ℕ) : Pte :=
  match slot mem r (v * pgsize) with
  | some q => mem q.page q.index
  | none => 0

/-- The pages with the role of a table are the trees under the roots. -/
structure Tables (mem : ℕ → Page) (role : ℕ → Role) : Prop where
  root_child : ∀ r i, role r = .root → (mem r i).has pteV = true → role (mem r i).page = .mid r i
  mid_child : ∀ m r i j, role m = .mid r i → (mem m j).has pteV = true → role (mem m j).page = .leaf r i j
  mid_parent : ∀ m r i, role m = .mid r i → role r = .root ∧ (mem r i).has pteV = true ∧ (mem r i).page = m
  leaf_parent : ∀ t r i j, role t = .leaf r i j →
    ∃ m, role m = .mid r i ∧ (mem m j).has pteV = true ∧ (mem m j).page = t
  plain : ∀ p i, (role p).isNode = true → (mem p i).has pteV = true → mem p i &&& (pteR ||| pteW ||| pteX) = 0

variable {mem mem' : ℕ → Page} {role : ℕ → Role} {r v va : ℕ} {q : PtePtr}

/-! ### Slots -/

theorem Tables.slot_eq_some_iff (h : Tables mem role) (hr : role r = .root) :
    slot mem r va = some q ↔ role q.page = .leaf r (px 2 va) (px 1 va) ∧ q.index = px 0 va := by
  constructor
  · intro hslot
    unfold slot at hslot
    simp only at hslot
    split at hslot
    · rename_i htop
      split at hslot
      · rename_i hnext
        cases hslot
        exact ⟨h.mid_child _ _ _ _ (h.root_child r _ hr htop) hnext, rfl⟩
      · cases hslot
    · cases hslot
  · rintro ⟨hleaf, hindex⟩
    obtain ⟨m, hm, hvalid, hpage⟩ := h.leaf_parent _ _ _ _ hleaf
    obtain ⟨_, htop, hmid⟩ := h.mid_parent _ _ _ hm
    unfold slot
    simp only [htop, if_true, hmid, hvalid, hpage, ← hindex]

theorem px_page (level va : ℕ) : px level (va / pgsize * pgsize) = px level va := by
  unfold px pgsize
  congr 1
  have hpow : 2 ^ (12 + 9 * level) = 4096 * 2 ^ (9 * level) := by rw [Nat.pow_add]
  rw [hpow, ← Nat.div_div_eq_div_mul, ← Nat.div_div_eq_div_mul, Nat.mul_div_cancel _ (by decide)]

theorem slot_page (mem : ℕ → Page) (r va : ℕ) : slot mem r (va / pgsize * pgsize) = slot mem r va := by
  unfold slot
  rw [px_page, px_page, px_page]

variable {v' r' p m : ℕ} {i j : Fin 512} {other : Role}

theorem eq_of_px {v : ℕ} (hv : v < 2 ^ 27) (hv' : v' < 2 ^ 27) (h2 : px 2 (v * pgsize) = px 2 (v' * pgsize))
    (h1 : px 1 (v * pgsize) = px 1 (v' * pgsize)) (h0 : px 0 (v * pgsize) = px 0 (v' * pgsize)) : v = v' := by
  have h2' := congrArg Fin.val h2
  have h1' := congrArg Fin.val h1
  have h0' := congrArg Fin.val h0
  simp only [px, pgsize] at h2' h1' h0'
  omega

/-- Two virtual pages have the same slot only if they are the same page of the same page table. -/
theorem Tables.slot_inj (h : Tables mem role) (hr : role r = .root) (hr' : role r' = .root)
    (hv : v < 2 ^ 27) (hv' : v' < 2 ^ 27) (hslot : slot mem r (v * pgsize) = some q)
    (hslot' : slot mem r' (v' * pgsize) = some q) : r = r' ∧ v = v' := by
  obtain ⟨hleaf, hindex⟩ := (h.slot_eq_some_iff hr).mp hslot
  obtain ⟨hleaf', hindex'⟩ := (h.slot_eq_some_iff hr').mp hslot'
  rw [hleaf, Role.leaf.injEq] at hleaf'
  obtain ⟨hrr, h2, h1⟩ := hleaf'
  exact ⟨hrr, eq_of_px hv hv' h2 h1 (hindex.symm.trans hindex')⟩

theorem entry_of_slot (hslot : slot mem r (v * pgsize) = some q) : entry mem r v = mem q.page q.index := by
  unfold entry
  rw [hslot]

theorem entry_of_none (hslot : slot mem r (v * pgsize) = none) : entry mem r v = 0 := by
  unfold entry
  rw [hslot]

/-! ### Memory that changes outside the inner pages of the trees -/

section

variable (h : Tables mem role) (hsame : ∀ p, (role p).isNode = true → mem' p = mem p)
include h hsame

theorem Tables.congr : Tables mem' role where
  root_child r i hr hvalid := by
    rw [hsame r (by rw [hr]; rfl)] at hvalid ⊢
    exact h.root_child r i hr hvalid
  mid_child m r i j hm hvalid := by
    rw [hsame m (by rw [hm]; rfl)] at hvalid ⊢
    exact h.mid_child m r i j hm hvalid
  mid_parent m r i hm := by
    rw [hsame r (by rw [(h.mid_parent m r i hm).1]; rfl)]
    exact h.mid_parent m r i hm
  leaf_parent t r i j ht := by
    obtain ⟨m, hm, hvalid, hpage⟩ := h.leaf_parent t r i j ht
    refine ⟨m, hm, ?_⟩
    rw [hsame m (by rw [hm]; rfl)]
    exact ⟨hvalid, hpage⟩
  plain p i hp := by
    rw [hsame p hp]
    exact h.plain p i hp

theorem Tables.slot_congr
    (hr : role r = .root) : slot mem' r va = slot mem r va := by
  unfold slot
  rw [hsame r (by rw [hr]; rfl)]
  simp only
  split
  · rename_i htop
    rw [hsame _ (by rw [h.root_child r _ hr htop]; rfl)]
  · rfl

end

theorem Tables.entry_congr (h : Tables mem role) (hsame : ∀ p, (role p).isTable = true → mem' p = mem p)
    (hr : role r = .root) : entry mem' r v = entry mem r v := by
  have hslot : slot mem' r (v * pgsize) = slot mem r (v * pgsize) :=
    h.slot_congr (fun p hp => hsame p (by cases hrole : role p <;> simp_all [Role.isNode, Role.isTable])) hr
  unfold entry
  rw [hslot]
  split
  · rename_i q hq
    have hleaf := ((h.slot_eq_some_iff hr).mp hq).1
    rw [hsame q.page (by rw [hleaf]; rfl)]
  · rfl

theorem Tables.entry_write (h : Tables mem role) (hr : role r = .root) (hr' : role r' = .root) (hv : v < 2 ^ 27)
    (hv' : v' < 2 ^ 27) (hslot : slot mem r (v * pgsize) = some q) (pte : Pte) :
    entry (writeWord mem q.page q.index pte) r' v' = if r' = r ∧ v' = v then pte else entry mem r' v' := by
  have hleaf := ((h.slot_eq_some_iff hr).mp hslot).1
  have hsame : ∀ p, (role p).isNode = true → writeWord mem q.page q.index pte p = mem p := by
    intro p hp
    refine update_of_ne ?_ _ _
    rintro rfl
    rw [hleaf] at hp
    cases hp
  have hslot' : slot (writeWord mem q.page q.index pte) r' (v' * pgsize) = slot mem r' (v' * pgsize) := h.slot_congr hsame hr'
  unfold entry
  rw [hslot']
  split
  · rename_i q' hq'
    by_cases heq : r' = r ∧ v' = v
    · rw [if_pos heq]
      obtain ⟨rfl, rfl⟩ := heq
      rw [hslot] at hq'
      cases hq'
      rw [writeWord, update_self, update_self]
    · rw [if_neg heq]
      by_cases hpage : q'.page = q.page
      · have hindex : q'.index ≠ q.index := by
          intro hindex
          have hqq : q' = q := by
            cases q
            cases q'
            simp_all
          subst hqq
          exact heq (h.slot_inj hr' hr hv' hv hq' hslot)
        rw [writeWord, hpage, update_self, update_of_ne hindex]
      · rw [writeWord, update_of_ne hpage]
  · rename_i hnone
    rw [if_neg]
    rintro ⟨rfl, rfl⟩
    rw [hslot] at hnone
    cases hnone

/-! ### Trees that grow and shrink -/

/-- The entry `walk` puts in for a new page-table page. -/
def nodePte (p : ℕ) : Pte := pa2pte (p * pgsize) ||| pteV

theorem getLsbD_pteV (i : ℕ) : pteV.getLsbD i = decide (i = 0) := getLsbD_flag (by decide) i

theorem nodePte_valid (p : ℕ) : (nodePte p).has pteV = true := by
  rw [has_pteV, nodePte, getLsbD_entry (by decide), getLsbD_pteV]
  rfl

theorem nodePte_page (hp : p < 2 ^ 44) : (nodePte p).page = p := by
  have hhigh : ∀ i, 10 ≤ i → pteV.getLsbD i = false := by
    intro i hi
    rw [getLsbD_pteV]
    simp
    omega
  rw [Pte.page, nodePte, pte2pa_entry hp hhigh, div_pgsize]

theorem nodePte_plain (p : ℕ) : nodePte p &&& (pteR ||| pteW ||| pteX) = 0 := by
  apply BitVec.eq_of_getLsbD_eq
  intro i hi
  have hmask : ∀ i < 64, (pteR ||| pteW ||| pteX).getLsbD i = decide (1 ≤ i ∧ i ≤ 3) := by decide
  rw [BitVec.getLsbD_and, hmask i hi]
  by_cases hrange : 1 ≤ i ∧ i ≤ 3
  · rw [nodePte, getLsbD_entry (by omega), getLsbD_pteV]
    simp
    omega
  · simp [hrange]

theorem writeWord_apply (mem : ℕ → Page) (p : ℕ) (i : Fin 512) (word : Pte) (x : ℕ) (y : Fin 512) :
    writeWord mem p i word x y = if x = p ∧ y = i then word else mem x y := by
  unfold writeWord
  by_cases hx : x = p
  · subst hx
    by_cases hy : y = i
    · subst hy
      simp
    · simp [hy]
  · simp [hx]

theorem zero_not_valid : (0 : Pte).has pteV = false := by decide

variable (h : Tables mem role)
include h

theorem Tables.link_mid (hr : role r = .root)
    (hinvalid : (mem r i).has pteV = false) (hp : (role p).isTable = false) (hlt : p < 2 ^ 44)
    (hzero : ∀ j, mem p j = 0) :
    Tables (writeWord mem r i (nodePte p)) (update role p (.mid r i)) := by
  have hpr : p ≠ r := by
    rintro rfl
    rw [hr] at hp
    cases hp
  have hvalid := nodePte_valid p
  have hpage := nodePte_page hlt
  have hplain := nodePte_plain p
  have hz := zero_not_valid
  obtain ⟨h1, h2, h3, h4, h5⟩ := h
  constructor
  · intro r' i' hr' hv'
    rw [writeWord_apply] at hv' ⊢
    grind [Role.isTable]
  · intro m r' i' j hm hv'
    rw [writeWord_apply] at hv' ⊢
    grind [Role.isTable]
  · intro m r' i' hm
    rw [writeWord_apply]
    grind [Role.isTable]
  · intro t r' i' j ht
    obtain ⟨m, hm⟩ := h4 t r' i' j (by grind [Role.isTable])
    refine ⟨m, ?_⟩
    rw [writeWord_apply]
    grind [Role.isTable]
  · intro x y hx hv
    rw [writeWord_apply] at hv ⊢
    grind [Role.isNode]

theorem Tables.link_leaf (hm : role m = .mid r i)
    (hinvalid : (mem m j).has pteV = false) (hp : (role p).isTable = false) (hlt : p < 2 ^ 44) :
    Tables (writeWord mem m j (nodePte p)) (update role p (.leaf r i j)) := by
  have hvalid := nodePte_valid p
  have hpage := nodePte_page hlt
  have hplain := nodePte_plain p
  obtain ⟨h1, h2, h3, h4, h5⟩ := h
  constructor
  · intro r' i' hr' hv'
    rw [writeWord_apply] at hv' ⊢
    grind [Role.isTable]
  · intro m' r' i' j hm hv'
    rw [writeWord_apply] at hv' ⊢
    grind [Role.isTable]
  · intro m' r' i' hm
    rw [writeWord_apply]
    grind [Role.isTable]
  · intro t r' i' j' ht
    by_cases htp : t = p
    · refine ⟨m, ?_⟩
      rw [writeWord_apply]
      grind [Role.isTable]
    · obtain ⟨m', hm'⟩ := h4 t r' i' j' (by grind)
      refine ⟨m', ?_⟩
      rw [writeWord_apply]
      grind [Role.isTable]
  · intro x y hx hv
    rw [writeWord_apply] at hv ⊢
    grind [Role.isNode]

theorem Tables.new_root (hp : (role p).isTable = false) (hzero : ∀ i, mem p i = 0) :
    Tables mem (update role p .root) := by
  have hz := zero_not_valid
  obtain ⟨h1, h2, h3, h4, h5⟩ := h
  constructor
  · grind [Role.isTable]
  · grind [Role.isTable]
  · grind [Role.isTable]
  · intro t r' i' j ht
    obtain ⟨m, hm⟩ := h4 t r' i' j (by grind [Role.isTable])
    exact ⟨m, by grind [Role.isTable]⟩
  · grind [Role.isNode]

omit h in
theorem Role.isTable_of_isNode {role : Role} (h : role.isNode = true) : role.isTable = true := by
  cases role <;> first | rfl | cases h

omit h in
/-- A page that is given a role outside the trees is no node any more. -/
theorem Role.ne_of_isNode_update {t : ℕ} (hother : other.isTable = false)
    (hp : (update role t other p).isNode = true) : p ≠ t ∧ (role p).isNode = true := by
  have hpt : p ≠ t := by
    rintro rfl
    rw [update_self] at hp
    rw [Role.isTable_of_isNode hp] at hother
    cases hother
  rw [update_of_ne hpt] at hp
  exact ⟨hpt, hp⟩

theorem Tables.plain_clear (t m : ℕ) (j : Fin 512) (hother : other.isTable = false)
    (p : ℕ) (i : Fin 512) (hp : (update role t other p).isNode = true)
    (hvalid : (writeWord mem m j 0 p i).has pteV = true) :
    writeWord mem m j 0 p i &&& (pteR ||| pteW ||| pteX) = 0 := by
  obtain ⟨_, hp⟩ := Role.ne_of_isNode_update hother hp
  rw [writeWord_apply] at hvalid ⊢
  split at hvalid
  · rw [zero_not_valid] at hvalid
    cases hvalid
  · rw [if_neg ‹_›]
    exact h.plain p i hp hvalid

theorem Tables.unlink_childless {t : ℕ} (hplace : (∃ r i, role t = .leaf r i j ∧ role m = .mid r i) ∨ role t = .mid m j ∧ ∀ l, (mem t l).has pteV = false)
    (hother : other.isTable = false) : Tables (writeWord mem m j 0) (update role t other) := by
  have hz := zero_not_valid
  have hplain := h.plain_clear t m j hother
  obtain ⟨h1, h2, h3, h4, h5⟩ := h
  constructor
  · intro r' i' hr' hv'
    rw [writeWord_apply] at hv' ⊢
    grind [Role.isTable]
  · intro m' r' i' j' hm' hv'
    rw [writeWord_apply] at hv' ⊢
    grind [Role.isTable]
  · intro m' r' i' hm'
    rw [writeWord_apply]
    grind [Role.isTable]
  · intro t' r' i' j' ht'
    obtain ⟨m', hm'⟩ := h4 t' r' i' j' (by grind [Role.isTable])
    refine ⟨m', ?_⟩
    rw [writeWord_apply]
    grind [Role.isTable]
  · exact hplain

theorem Tables.unlink_leaf {t : ℕ} (ht : role t = .leaf r i j)
    (hm : role m = .mid r i) (hother : other.isTable = false) :
    Tables (writeWord mem m j 0) (update role t other) := h.unlink_childless (.inl ⟨r, i, ht, hm⟩) hother

theorem Tables.unlink_mid (hm : role m = .mid r i)
    (hempty : ∀ j, (mem m j).has pteV = false) (hother : other.isTable = false) :
    Tables (writeWord mem r i 0) (update role m other) := h.unlink_childless (.inr ⟨hm, hempty⟩) hother

theorem Tables.relabel (hp : (role p).isTable = false)
    (hother : other.isTable = false) : Tables mem (update role p other) := by
  obtain ⟨h1, h2, h3, h4, h5⟩ := h
  constructor
  · grind [Role.isTable]
  · grind [Role.isTable]
  · grind [Role.isTable]
  · intro t r' i' j' ht
    obtain ⟨m, hm⟩ := h4 t r' i' j' (by grind [Role.isTable])
    exact ⟨m, by grind [Role.isTable]⟩
  · intro x i hx
    exact h5 x i (Role.ne_of_isNode_update hother hx).2

theorem Tables.remove_root (hr : role r = .root) (hempty : ∀ i, (mem r i).has pteV = false)
    (hother : other.isTable = false) : Tables mem (update role r other) := by
  obtain ⟨h1, h2, h3, h4, h5⟩ := h
  constructor
  · grind [Role.isTable]
  · grind [Role.isTable]
  · grind [Role.isTable]
  · intro t' r' i' j' ht'
    obtain ⟨m', hm'⟩ := h4 t' r' i' j' (by grind [Role.isTable])
    exact ⟨m', by grind [Role.isTable]⟩
  · intro p i hp
    exact h5 p i (Role.ne_of_isNode_update hother hp).2

/-- Leaf pages that come and go empty leave the entries as they are. -/
theorem Tables.entry_grow {role' : ℕ → Role} (h' : Tables mem' role') (hr : role r = .root)
    (hr' : role' r = .root) (hkeep : ∀ t i j, role t = .leaf r i j → role' t = .leaf r i j ∧ mem' t = mem t)
    (hnew : ∀ t i j, role' t = .leaf r i j → role t = .leaf r i j ∨ ∀ l, mem' t l = 0) :
    entry mem' r v = entry mem r v := by
  cases hslot' : slot mem' r (v * pgsize) with
  | some q =>
    obtain ⟨hleaf', hindex⟩ := (h'.slot_eq_some_iff hr').mp hslot'
    rw [entry_of_slot hslot']
    rcases hnew _ _ _ hleaf' with hleaf | hzero
    · rw [entry_of_slot ((h.slot_eq_some_iff hr).mpr ⟨hleaf, hindex⟩), (hkeep _ _ _ hleaf).2]
    · rw [hzero]
      cases hslot : slot mem r (v * pgsize) with
      | none => rw [entry_of_none hslot]
      | some q0 =>
        obtain ⟨hleaf, hindex0⟩ := (h.slot_eq_some_iff hr).mp hslot
        obtain ⟨hleaf0, hmem⟩ := hkeep _ _ _ hleaf
        have heq := (h'.slot_eq_some_iff hr').mpr ⟨hleaf0, hindex0⟩
        rw [hslot'] at heq
        cases heq
        rw [entry_of_slot hslot, ← hmem, hzero]
  | none =>
    rw [entry_of_none hslot']
    cases hslot : slot mem r (v * pgsize) with
    | none => rw [entry_of_none hslot]
    | some q0 =>
      obtain ⟨hleaf, hindex0⟩ := (h.slot_eq_some_iff hr).mp hslot
      have heq := (h'.slot_eq_some_iff hr').mpr ⟨(hkeep _ _ _ hleaf).1, hindex0⟩
      rw [hslot'] at heq
      cases heq

end AdvancedXv6.Kernel
