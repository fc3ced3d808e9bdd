import AdvancedXv6.Kernel.Unmap

/-!
# Giving up a page table

`freewalk` and `uvmfree`. `freewalk` frees the page-table pages from the leaves upwards, and panics at a mapping that is still there. As in `uvmunmap`, the entry for a page is cleared after the page has been freed.
-/

namespace AdvancedXv6.Kernel

open Function Prog

variable {k k' k'' : KState} {L L' L'' : Ledger} {r p : ℕ} {q : PtePtr} {E : Panic → Prop}

/-! ### Taking a page out of a tree -/

variable {role : ℕ → Role} {c t n : ℕ} {i j : Fin 512} {Q : Unit → KState → Prop}

theorem Tables.unlink {mem : ℕ → Page} (h : Tables mem role)
    (hp : (role p).isNode = true) (hc : role c = (role p).child p i) (hempty : ∀ l, (mem c l).has pteV = false) {other : Role}
    (hother : other.isTable = false) : Tables (writeWord mem p i 0) (update role c other) := by
  cases hrole : role p with
  | root =>
    rw [hrole] at hc
    exact h.unlink_mid hc hempty hother
  | mid r j =>
    rw [hrole] at hc
    exact h.unlink_leaf hc hrole hother
  | _ =>
    rw [hrole] at hp
    cases hp

theorem exists_page (i j l : Fin 512) :
    ∃ u, u < 2 ^ 27 ∧ px 2 (u * pgsize) = i ∧ px 1 (u * pgsize) = j ∧ px 0 (u * pgsize) = l := by
  refine ⟨i.val * 2 ^ 18 + j.val * 2 ^ 9 + l.val, by omega, ?_, ?_, ?_⟩ <;>
    · apply Fin.ext
      simp only [px, pgsize]
      omega

theorem Forest.exists_entry (h : Forest k L) (ht : L.role t = .leaf r i j) (l : Fin 512) :
    ∃ u, u < 2 ^ 27 ∧ L.view k r u = k.mem t l := by
  obtain ⟨u, hu, hi, hj, hl⟩ := exists_page i j l
  obtain ⟨m, hm, _⟩ := h.tables.leaf_parent t r i j ht
  have hr := (h.tables.mid_parent m r i hm).1
  have hslot : slot k.mem r (u * pgsize) = some ⟨t, l⟩ := (h.tables.slot_eq_some_iff hr).mpr ⟨by rw [ht, hi, hj], hl.symm⟩
  exact ⟨u, hu, (view_root hr).trans (entry_of_slot hslot)⟩

structure Cut (p : ℕ) (i : Fin 512) (k : KState) (L : Ledger) (k' : KState) (L' : Ledger) : Prop where
  forest : Forest k' L'
  child_eq : L.role (k.mem p i).page = (L.role p).child p i
  ne : (k.mem p i).page ≠ p
  role_eq : L'.role = update L.role (k.mem p i).page .free
  count_eq : k'.pageRefCount = update k.pageRefCount (k.mem p i).page 0
  mem_eq : ∀ x, x ≠ (k.mem p i).page → k'.mem x = writeWord k.mem p i 0 x
  held_eq : L'.held = L.held

theorem Forest.post_kfree_unlink (h : Forest k L) (hp : (L.role p).isNode = true)
    (hvalid : (k.mem p i).has pteV = true) (hempty : ∀ l, (k.mem (k.mem p i).page l).has pteV = false) {Q : KState → Prop}
    (hdone : ∀ k' L', Cut p i k L k' L' → Q k') :
    Post (kfree ((k.mem p i).page * pgsize)) k (fun _ k' => Q (k'.write ⟨p, i⟩ 0)) E := by
  have hc := h.tables.child hp hvalid
  have hcp : (k.mem p i).page ≠ p := by
    intro heq
    have hinvalid := hempty i
    rw [heq, hvalid] at hinvalid
    cases hinvalid
  have htable : (L.role (k.mem p i).page).isTable = true := by
    rw [hc]
    exact (Role.child_table hp p i).1
  have hfree : L.role (k.mem p i).page ≠ .free := fun hf => by
    rw [hf] at htable
    cases htable
  have hinside : L.role (k.mem p i).page ≠ .outside := fun ho => by
    rw [ho] at htable
    cases htable
  have hone := h.count_table _ htable
  refine Kernel.post_kfree (h.allocatable hinside) (fun hle => by omega) (fun hlt => by omega) fun _ => ?_
  have hmem : ∀ x, x ≠ (k.mem p i).page → writeWord (update k.mem (k.mem p i).page (freedPage k)) p i 0 x = writeWord k.mem p i 0 x := by
    intro x hx
    rw [writeWord_update k.mem hcp, update_of_ne hx]
  apply hdone _ ⟨update L.role (k.mem p i).page .free, (k.mem p i).page :: L.free, L.held⟩
  refine ⟨?_, hc, hcp, rfl, rfl, hmem, rfl⟩
  refine h.pushed hfree hinside (fun x hx => update_of_ne ?_ _ _) rfl rfl rfl rfl ?_
  · rintro rfl
    rcases hx with hx | hx
    · exact hcp hx.symm
    · rw [hx] at hp
      cases hp
  · refine (h.tables.unlink hp hc hempty (show Role.free.isTable = false from rfl)).congr fun x hx => hmem x ?_
    rintro rfl
    rw [update_self] at hx
    cases hx

def Role.isLeaf : Role → Bool
  | .leaf _ _ _ => true
  | _ => false

structure Pruned (gone : Role → Prop) (p n : ℕ) (k : KState) (L : Ledger) (k' : KState) (L' : Ledger) : Prop where
  forest : Forest k' L'
  role_eq : ∀ x, L'.role x = L.role x ∨ gone (L.role x) ∧ L'.role x = .free
  count_eq : ∀ x, L'.role x = L.role x → k'.pageRefCount x = k.pageRefCount x
  mem_eq : ∀ x, x ≠ p → L'.role x = L.role x → k'.mem x = k.mem x
  held_eq : L'.held = L.held
  self_eq : L'.role p = L.role p
  empty : ∀ x, (L.role x).isLeaf = true → L'.role x = .free → ∀ l, (k.mem x l).has pteV = false
  invalid : ∀ l : Fin 512, l.val < n → (k'.mem p l).has pteV = false

variable {gone gone' : Role → Prop}

theorem Pruned.zero (h : Forest k L) (gone : Role → Prop) (p : ℕ) : Pruned gone p 0 k L k L := by
  refine ⟨h, fun _ => .inl rfl, fun _ _ => rfl, fun _ _ _ => rfl, rfl, rfl, fun x hleaf hf => ?_, nofun⟩
  rw [hf] at hleaf
  cases hleaf

theorem Pruned.skip (h : Pruned gone p n k L k' L') (hn : n < 512) (hinvalid : (k'.mem p (Fin.ofNat 512 n)).has pteV = false) :
    Pruned gone p (n + 1) k L k' L' := by
  refine ⟨h.forest, h.role_eq, h.count_eq, h.mem_eq, h.held_eq, h.self_eq, h.empty, fun l hl => ?_⟩
  rcases Nat.lt_succ_iff_lt_or_eq.mp hl with hlt | heq
  · exact h.invalid l hlt
  · have hfin : l = Fin.ofNat 512 n := Fin.ext (heq.trans (Nat.mod_eq_of_lt hn).symm)
    rw [hfin]
    exact hinvalid

theorem Pruned.cut {k1 : KState} {L1 : Ledger} (h : Pruned gone p n k L k' L') (hn : n < 512)
    (hbelow : Pruned gone' c 512 k' L' k1 L1) (hc : (k1.mem p (Fin.ofNat 512 n)).page = c) (hpc : L1.role p = L'.role p)
    (hcut : Cut p (Fin.ofNat 512 n) k1 L1 k'' L'') (hgone : ∀ role, gone' role → gone role)
    (htable : ∀ role, gone role → role.isTable = true) (hchild : gone ((L.role p).child p (Fin.ofNat 512 n)))
    (hempty : ((L.role p).child p (Fin.ofNat 512 n)).isLeaf = true → ∀ l, (k'.mem c l).has pteV = false) :
    Pruned gone p (n + 1) k L k'' L'' := by
  have hcp := hcut.ne
  have hrolec := hcut.child_eq
  have hroleeq := hcut.role_eq
  have hcounteq := hcut.count_eq
  have hmemeq := hcut.mem_eq
  rw [hc] at hcp hrolec hroleeq hcounteq hmemeq
  have hself : L''.role c = .free := by rw [hroleeq, update_self]
  have hfreed : ∀ role, gone role → role ≠ .free := fun role hrole hf => by
    have := htable role hrole
    rw [hf] at this
    cases this
  have hstep : ∀ x, x ≠ c → L''.role x = L1.role x := fun x hx => by rw [hroleeq, update_of_ne hx]
  have hcrole : L.role c = (L.role p).child p (Fin.ofNat 512 n) := by
    have hc1 : L'.role c = (L.role p).child p (Fin.ofNat 512 n) := by rw [← hbelow.self_eq, hrolec, hpc, h.self_eq]
    rcases h.role_eq c with heq | ⟨_, hf⟩
    · rw [← heq, hc1]
    · rw [hc1] at hf
      exact absurd hf (hfreed _ hchild)
  have hkeep : ∀ x, L''.role x = L.role x → x ≠ c ∧ L1.role x = L'.role x ∧ L'.role x = L.role x := by
    intro x hx
    have hxc : x ≠ c := by
      rintro rfl
      rw [hself, hcrole] at hx
      exact hfreed _ hchild hx.symm
    rw [hstep x hxc] at hx
    rcases h.role_eq x with heq | ⟨hg, hf⟩
    · exact ⟨hxc, hx.trans heq.symm, heq⟩
    · rcases hbelow.role_eq x with heq' | ⟨hg', _⟩
      · rw [← hx, heq', hf] at hg
        exact absurd rfl (hfreed _ hg)
      · rw [hf] at hg'
        exact absurd rfl (hfreed _ (hgone _ hg'))
  have hmemp : k''.mem p = writeWord k1.mem p (Fin.ofNat 512 n) 0 p := hmemeq p hcp.symm
  have hprev : Pruned gone p n k L k'' L'' := by
    refine ⟨hcut.forest, fun x => ?_, fun x hx => ?_, fun x hxp hx => ?_, hcut.held_eq.trans (hbelow.held_eq.trans h.held_eq), ?_,
      fun x hleaf hf l => ?_, fun l hl => ?_⟩
    · by_cases hxc : x = c
      · right
        rw [hxc, hcrole]
        exact ⟨hchild, hself⟩
      · rw [hstep x hxc]
        rcases hbelow.role_eq x with heq' | ⟨hg', hf'⟩
        · rw [heq']
          exact h.role_eq x
        · rcases h.role_eq x with heq | ⟨hg, _⟩
          · rw [heq] at hg'
            exact .inr ⟨hgone _ hg', hf'⟩
          · exact .inr ⟨hg, hf'⟩
    · obtain ⟨hxc, hx1, hx'⟩ := hkeep x hx
      rw [hcounteq, update_of_ne hxc, hbelow.count_eq x hx1, h.count_eq x hx']
    · obtain ⟨hxc, hx1, hx'⟩ := hkeep x hx
      rw [hmemeq x hxc, writeWord, update_of_ne hxp, hbelow.mem_eq x hxc hx1, h.mem_eq x hxp hx']
    · rw [hstep p hcp.symm, hpc, h.self_eq]
    · rcases h.role_eq x with heq | ⟨_, hf'⟩
      · have hxp : x ≠ p := by
          rintro rfl
          rw [hstep x hcp.symm, hpc, h.self_eq] at hf
          rw [hf] at hleaf
          cases hleaf
        rw [← h.mem_eq x hxp heq]
        by_cases hxc : x = c
        · rw [hxc, hcrole] at hleaf
          rw [hxc]
          exact hempty hleaf l
        · rw [hstep x hxc] at hf
          exact hbelow.empty x (by rw [heq]; exact hleaf) hf l
      · exact h.empty x hleaf hf' l
    · rw [hmemp, writeWord_apply]
      split
      · exact zero_not_valid
      · rw [hbelow.mem_eq p hcp.symm hpc]
        exact h.invalid l hl
  refine hprev.skip hn ?_
  rw [hmemp, writeWord_apply, if_pos ⟨rfl, rfl⟩]
  exact zero_not_valid

/-! ### The three levels -/

theorem Forest.post_freewalkEntry {i : ℕ} {free : ℕ → KernelM Unit} (h : Forest k L) (hp : (L.role p).isNode = true)
    {Q : Option Unit → KState → Prop} (hskip : (k.mem p (Fin.ofNat 512 i)).has pteV = false → Q none k)
    (hdown : (k.mem p (Fin.ofNat 512 i)).has pteV = true →
      Post (free ((k.mem p (Fin.ofNat 512 i)).page * pgsize)) k (fun _ k' => Q none (k'.write ⟨p, Fin.ofNat 512 i⟩ 0)) E) :
    Post (freewalkEntry free (p * pgsize) i) k Q E := by
  unfold freewalkEntry
  refine Post.bind (post_readPte ?_)
  simp only [div_pgsize]
  cases hvalid : (k.mem p (Fin.ofNat 512 i)).has pteV with
  | false => exact Post.pure (hskip hvalid)
  | true =>
    rw [h.tables.plain p _ hp hvalid, pte2pa_eq, if_pos (by decide)]
    exact Post.step (hdown hvalid) fun _ k' hk' => Post.bind (post_writePte (Post.pure hk'))

theorem not_plain_of_read {pte : Pte} (h : pte.has pteR = true) : pte &&& (pteR ||| pteW ||| pteX) ≠ 0 := by
  intro hzero
  have hbit : (pte &&& (pteR ||| pteW ||| pteX)).getLsbD 1 = false := by
    rw [hzero]
    rfl
  rw [BitVec.getLsbD_and, ← has_pteR, h] at hbit
  cases hbit

theorem post_freewalk_leaf (hleaf : ∀ l, (k.mem t l).has pteV = true → (k.mem t l).has pteR = true ∧ E .freewalkLeaf)
    (hdone : (∀ l, (k.mem t l).has pteV = false) → Post (kfree (t * pgsize)) k Q E) :
    Post (freewalk 1 (t * pgsize)) k Q E := by
  unfold freewalk
  refine Post.step (R := fun _ k' => k' = k ∧ ∀ l, (k.mem t l).has pteV = false) ?_ fun _ k' hk' => ?_
  · refine Post.loop (I := fun n k' => k' = k ∧ ∀ l : Fin 512, l.val < n → (k.mem t l).has pteV = false) ⟨rfl, nofun⟩
      (fun n k' hn hk' => ?_) fun k' hk' => ⟨hk'.1, fun l => hk'.2 l l.isLt⟩
    obtain ⟨rfl, hinvalid⟩ := hk'
    rw [Nat.mul_one, Nat.zero_add]
    unfold freewalkEntry
    refine Post.bind (post_readPte ?_)
    simp only [div_pgsize]
    cases hvalid : (k'.mem t (Fin.ofNat 512 n)).has pteV with
    | true =>
      rw [if_neg, if_pos rfl]
      · exact Post.panic (hleaf _ hvalid).2
      · rw [Bool.true_and, beq_iff_eq]
        exact not_plain_of_read (hleaf _ hvalid).1
    | false =>
      refine Post.pure ⟨rfl, fun l hl => ?_⟩
      rcases Nat.lt_succ_iff_lt_or_eq.mp hl with hlt | heq
      · exact hinvalid l hlt
      · rw [← hvalid, ← heq]
        congr 2
        exact Fin.ext (Nat.mod_eq_of_lt l.isLt).symm
  · rw [hk'.1]
    exact hdone hk'.2

theorem Role.child_ne {role : Role} (h : role.isNode = true) (p : ℕ) (i : Fin 512) : role.child p i ≠ role := by
  cases role with
  | root | mid => nofun
  | _ => cases h

theorem Forest.post_freewalk_node {depth : ℕ} (below : Fin 512 → Role → Prop) (h : Forest k L) (hp : (L.role p).isNode = true)
    (htable : ∀ role, gone role → role.isTable = true) (hchild : ∀ i, gone ((L.role p).child p i))
    (hbelow : ∀ i role, below i role → gone role) (hnot : ∀ i, ¬ below i (L.role p))
    (hdown : ∀ (i : Fin 512) k' L' (Q : Unit → KState → Prop), Pruned gone p i.val k L k' L' →
      L'.role (k'.mem p i).page = (L.role p).child p i →
      (∀ k1 L1, Pruned (below i) (k'.mem p i).page 512 k' L' k1 L1 →
        (((L.role p).child p i).isLeaf = true → ∀ l, (k'.mem (k'.mem p i).page l).has pteV = false) →
        Post (kfree ((k'.mem p i).page * pgsize)) k1 Q E) →
      Post (freewalk depth ((k'.mem p i).page * pgsize)) k' Q E)
    (hdone : ∀ k' L', Pruned gone p 512 k L k' L' → Post (kfree (p * pgsize)) k' Q E) :
    Post (freewalk (depth + 1) (p * pgsize)) k Q E := by
  unfold freewalk
  refine Post.step (R := fun _ k' => ∃ L', Pruned gone p 512 k L k' L') ?_ fun _ k' ⟨L', hL'⟩ => hdone k' L' hL'
  refine Post.loop (I := fun n k' => ∃ L', Pruned gone p n k L k' L') ⟨L, Pruned.zero h gone p⟩ (fun n k' hn hk' => ?_) fun k' hk' => hk'
  obtain ⟨L', hL'⟩ := hk'
  rw [Nat.mul_one, Nat.zero_add]
  have hnode' : (L'.role p).isNode = true := by
    rw [hL'.self_eq]
    exact hp
  refine hL'.forest.post_freewalkEntry hnode' (fun hinvalid => ⟨L', hL'.skip hn hinvalid⟩) fun hvalid => ?_
  have hval : (Fin.ofNat 512 n).val = n := Nat.mod_eq_of_lt hn
  have hc := hL'.forest.tables.child hnode' hvalid
  rw [hL'.self_eq] at hc
  refine hdown (Fin.ofNat 512 n) k' L' _ (by rw [hval]; exact hL') hc fun k1 L1 hL1 hempty => ?_
  have hpc : p ≠ (k'.mem p (Fin.ofNat 512 n)).page := by
    intro heq
    rw [← heq, hL'.self_eq] at hc
    exact Role.child_ne hp p _ hc.symm
  have hrolep : L1.role p = L'.role p := by
    rcases hL1.role_eq p with heq | ⟨hb, _⟩
    · exact heq
    · rw [hL'.self_eq] at hb
      exact absurd hb (hnot _)
  have hmemp : k1.mem p = k'.mem p := hL1.mem_eq p hpc hrolep
  rw [← hmemp] at hvalid hL1 hempty ⊢
  exact hL1.forest.post_kfree_unlink (Q := fun k'' => ∃ L'', Pruned gone p (n + 1) k L k'' L'') (by rw [hrolep]; exact hnode') hvalid
    (fun l => hL1.invalid l l.isLt) fun k'' L'' hcut => ⟨L'', hL'.cut hn hL1 rfl hrolep hcut (hbelow _) htable (hchild _) hempty⟩

def IsLeafOf (r : ℕ) (i : Fin 512) (role : Role) : Prop := ∃ j, role = .leaf r i j

/-- The entries of the leaf pages are left alone until the page goes. -/
theorem Pruned.leaf_mem (h : Pruned gone p n k L k' L') (hp : (L.role p).isNode = true) (ht : L'.role t = .leaf r i j) :
    L.role t = .leaf r i j ∧ k'.mem t = k.mem t := by
  rcases h.role_eq t with heq | ⟨_, hf⟩
  · refine ⟨heq.symm.trans ht, h.mem_eq t ?_ heq⟩
    rintro rfl
    rw [← h.self_eq, ht] at hp
    cases hp
  · rw [hf] at ht
    cases ht

theorem Forest.post_freewalk_mid {m : ℕ} (h : Forest k L) (hm : L.role m = .mid r i)
    (hleaf : ∀ t i j l, L.role t = .leaf r i j → (k.mem t l).has pteV = true → (k.mem t l).has pteR = true ∧ E .freewalkLeaf)
    (hdone : ∀ k' L', Pruned (IsLeafOf r i) m 512 k L k' L' → Post (kfree (m * pgsize)) k' Q E) :
    Post (freewalk 2 (m * pgsize)) k Q E := by
  have hnode : (L.role m).isNode = true := by
    rw [hm]
    rfl
  refine Forest.post_freewalk_node (fun _ _ => False) h hnode ?_ (fun j => ?_) (fun _ _ => False.elim) (fun _ => id)
    (fun j k' L' Q hL' hc hfree => ?_) hdone
  · rintro role ⟨j, rfl⟩
    rfl
  · rw [hm]
    exact ⟨j, rfl⟩
  · rw [hm] at hc
    obtain ⟨ht, hmem⟩ := hL'.leaf_mem hnode hc
    refine post_freewalk_leaf (fun l hvalid => ?_) fun hempty => ?_
    · rw [hmem] at hvalid ⊢
      exact hleaf _ _ _ l ht hvalid
    · refine hfree k' L' ⟨hL'.forest, fun _ => .inl rfl, fun _ _ => rfl, fun _ _ _ => rfl, rfl, rfl, fun x hleaf hf => ?_, fun l _ => hempty l⟩
        fun _ => hempty
      rw [hf] at hleaf
      cases hleaf

theorem Forest.post_freewalk_root (h : Forest k L) (hr : L.role r = .root)
    (hleaf : ∀ t i j l, L.role t = .leaf r i j → (k.mem t l).has pteV = true → (k.mem t l).has pteR = true ∧ E .freewalkLeaf)
    (hdone : ∀ k' L', Pruned (fun role => role.isBelow r = true) r 512 k L k' L' → Post (kfree (r * pgsize)) k' Q E) :
    Post (freewalk 3 (r * pgsize)) k Q E := by
  have hnode : (L.role r).isNode = true := by
    rw [hr]
    rfl
  refine Forest.post_freewalk_node (IsLeafOf r) h hnode (fun role hrole => (Role.isTable_of_isBelow hrole).1) (fun i => ?_)
    (fun i role hrole => ?_) (fun i hrole => ?_) (fun i k' L' Q hL' hc hfree => ?_) hdone
  · rw [hr]
    exact beq_self_eq_true r
  · obtain ⟨j, rfl⟩ := hrole
    exact beq_self_eq_true r
  · obtain ⟨j, hj⟩ := hrole
    rw [hr] at hj
    cases hj
  · rw [hr] at hc
    refine hL'.forest.post_freewalk_mid hc (fun t a b l ht hvalid => ?_) fun k1 L1 hL1 => hfree k1 L1 hL1 (by rw [hr]; nofun)
    obtain ⟨ht0, hmem⟩ := hL'.leaf_mem hnode ht
    rw [hmem] at hvalid ⊢
    exact hleaf t a b l ht0 hvalid

structure Uprooted (r : ℕ) (k : KState) (L : Ledger) (k' : KState) (L' : Ledger) : Prop where
  forest : Forest k' L'
  free : ∀ x, x = r ∨ (L.role x).isBelow r = true → L'.role x = .free
  role_eq : ∀ x, x ≠ r → (L.role x).isBelow r = false → L'.role x = L.role x
  count_eq : ∀ x, x ≠ r → (L.role x).isBelow r = false → k'.pageRefCount x = k.pageRefCount x
  mem_eq : ∀ x, x ≠ r → (L.role x).isBelow r = false → k'.mem x = k.mem x
  held_eq : L'.held = L.held
  empty : ∀ u, u < 2 ^ 27 → (L.view k r u).has pteV = false

section

variable (h : Pruned (fun role => role.isBelow r = true) r 512 k L k' L')
include h

theorem Pruned.no_below (x : ℕ) : (L'.role x).isBelow r = false := by
  have hnomid : ∀ m i, L'.role m ≠ .mid r i := by
    intro m i hm
    have hvalid := (h.forest.tables.mid_parent m r i hm).2.1
    rw [h.invalid i i.isLt] at hvalid
    cases hvalid
  rw [← Bool.not_eq_true]
  intro hbelow
  cases hrole : L'.role x with
  | mid r' i =>
    rw [hrole] at hbelow
    rw [beq_iff_eq.mp hbelow] at hrole
    exact hnomid x i hrole
  | leaf r' i j =>
    rw [hrole] at hbelow
    rw [beq_iff_eq.mp hbelow] at hrole
    obtain ⟨m, hm, _⟩ := h.forest.tables.leaf_parent x r i j hrole
    exact hnomid m i hm
  | outside | free | data | root =>
    rw [hrole] at hbelow
    cases hbelow

theorem Pruned.post_kfree_root (hforest : Forest k L)
    (hr : L.role r = .root) (hdone : ∀ k'' L'', Uprooted r k L k'' L'' → Q () k'') :
    Post (kfree (r * pgsize)) k' Q E := by
  have hr' : L'.role r = .root := h.self_eq.trans hr
  have hone := h.forest.count_table r (by rw [hr']; rfl)
  have hsame : ∀ x, (L.role x).isBelow r = false → L'.role x = L.role x := by
    intro x hx
    rcases h.role_eq x with heq | ⟨hbelow, _⟩
    · exact heq
    · rw [hx] at hbelow
      cases hbelow
  refine Kernel.post_kfree (h.forest.allocatable (by rw [hr']; nofun)) (fun hle => by omega) (fun hlt => by omega) fun _ => ?_
  apply hdone _ ⟨update L'.role r .free, r :: L'.free, L'.held⟩
  refine ⟨?_, fun x hx => ?_, fun x hxr hx => ?_, fun x hxr hx => ?_, fun x hxr hx => ?_, h.held_eq, fun u _ => ?_⟩
  · refine h.forest.pushed (by rw [hr']; nofun) (by rw [hr']; nofun) (fun _ _ => rfl) rfl rfl rfl rfl ?_
    refine (h.forest.tables.remove_root hr' (fun l => h.invalid l l.isLt) (show Role.free.isTable = false from rfl)).congr fun x hx => update_of_ne ?_ _ _
    rintro rfl
    rw [update_self] at hx
    cases hx
  · by_cases hxr : x = r
    · rw [hxr]
      exact update_self ..
    · have hbelow := hx.resolve_left hxr
      refine (update_of_ne hxr _ _).trans ?_
      rcases h.role_eq x with heq | ⟨_, hf⟩
      · have hnone := h.no_below x
        rw [heq, hbelow] at hnone
        cases hnone
      · exact hf
  · exact (update_of_ne hxr _ _).trans (hsame x hx)
  · exact (update_of_ne hxr _ _).trans (h.count_eq x (hsame x hx))
  · exact (update_of_ne hxr _ _).trans (h.mem_eq x hxr (hsame x hx))
  · rw [view_root hr]
    cases hslot : slot k.mem r (u * pgsize) with
    | none =>
      rw [entry_of_none hslot]
      exact zero_not_valid
    | some q =>
      have hq := ((hforest.tables.slot_eq_some_iff hr).mp hslot).1
      have hbelow : (L.role q.page).isBelow r = true := by
        rw [hq]
        exact beq_self_eq_true r
      rw [entry_of_slot hslot]
      refine h.empty q.page (by rw [hq]; rfl) ?_ q.index
      rcases h.role_eq q.page with heq | ⟨_, hf⟩
      · have hnone := h.no_below q.page
        rw [heq, hbelow] at hnone
        cases hnone
      · exact hf

end

/-- `freewalk` of a whole page table panics at a mapping, and else gives all of its pages back. -/
theorem Forest.post_freewalk (h : Forest k L) (hr : L.role r = .root)
    (hleaf : ∀ u, u < 2 ^ 27 → (L.view k r u).has pteV = true → (L.view k r u).has pteR = true ∧ E .freewalkLeaf)
    (hdone : ∀ k' L', Uprooted r k L k' L' → Q () k') : Post (freewalk 3 (r * pgsize)) k Q E := by
  refine h.post_freewalk_root hr (fun t i j l ht hvalid => ?_) fun k' L' hpruned => hpruned.post_kfree_root h hr hdone
  obtain ⟨u, hu, hentry⟩ := h.exists_entry ht l
  rw [← hentry] at hvalid ⊢
  exact hleaf u hu hvalid

theorem Uprooted.root_iff (h : Uprooted r k L k' L') (x : ℕ) : L'.role x = .root ↔ L.role x = .root ∧ x ≠ r := by
  by_cases hgone : x = r ∨ (L.role x).isBelow r = true
  · rw [h.free x hgone]
    refine ⟨nofun, fun ⟨hroot, hx⟩ => ?_⟩
    have hbelow := hgone.resolve_left hx
    rw [hroot] at hbelow
    cases hbelow
  · rw [not_or, Bool.not_eq_true] at hgone
    rw [h.role_eq x hgone.1 hgone.2]
    exact ⟨fun hroot => ⟨hroot, hgone.1⟩, And.left⟩

theorem Uprooted.view_of_ne (h : Uprooted r k L k' L') (hforest : Forest k L)
    (hr : L.role r = .root) {x : ℕ} (hx : x ≠ r) (u : ℕ) : L'.view k' x u = L.view k x u := by
  unfold Ledger.view
  by_cases hroot : L.role x = .root
  · have hroot' : L'.role x = .root := (h.root_iff x).mpr ⟨hroot, hx⟩
    rw [if_pos hroot, if_pos hroot']
    refine hforest.tables.entry_grow h.forest.tables hroot hroot' (fun t i j ht => ?_) fun t i j ht => .inl ?_
    · have hnot : t ≠ r ∧ (L.role t).isBelow r = false := by
        refine ⟨?_, by rw [ht]; exact beq_false_of_ne hx⟩
        rintro rfl
        rw [hr] at ht
        cases ht
      exact ⟨(h.role_eq t hnot.1 hnot.2).trans ht, h.mem_eq t hnot.1 hnot.2⟩
    · by_cases hgone : t = r ∨ (L.role t).isBelow r = true
      · rw [h.free t hgone] at ht
        cases ht
      · rw [not_or, Bool.not_eq_true] at hgone
        rw [← h.role_eq t hgone.1 hgone.2]
        exact ht
  · rw [if_neg hroot, if_neg fun hroot' => hroot ((h.root_iff x).mp hroot').1]

/-! ### `uvmfree` -/

structure Released (r : ℕ) (k : KState) (L : Ledger) (k' : KState) (L' : Ledger) : Prop where
  inv : Inv k' L'
  root_iff : ∀ x, L'.role x = .root ↔ L.role x = .root ∧ x ≠ r
  view_eq : ∀ x u, u < 2 ^ 27 → x ≠ r → L'.view k' x u = L.view k x u
  page_eq : ∀ x u, u < userPages → x ≠ r → (L.view k x u).has pteV = true →
    k'.mem (L.view k x u).page = k.mem (L.view k x u).page
  held_eq : L'.held = L.held
  wrapped : k'.Wrapped → k.Wrapped

theorem Released.of_evolves {touched : ℕ → ℕ → Prop} (h : Evolves touched k L k' L') (ht : ∀ x u, touched x u → x = r)
    (h' : Released r k' L' k'' L'') : Released r k L k'' L'' := by
  have hlt := userPages_lt
  refine ⟨h'.inv, fun x => ?_, fun x u hu hx => ?_, fun x u hu hx hvalid => ?_, h'.held_eq.trans h.held_eq, fun hw => h.wrapped (h'.wrapped hw)⟩
  · rw [h'.root_iff, h.keeps.root_iff]
  · rw [h'.view_eq x u hu hx, h.keeps.view_eq x u hu fun htouch => hx (ht x u htouch)]
  · have hview := h.keeps.view_eq x u (by omega) fun htouch => hx (ht x u htouch)
    have hpage := h'.page_eq x u hu hx (by rw [hview]; exact hvalid)
    rw [hview] at hpage
    rw [hpage, h.keeps.page_eq x u hu (fun htouch => hx (ht x u htouch)) hvalid]

theorem Forest.not_below (h : Forest k L) (hr : L.role r ≠ .root) (x : ℕ) : (L.role x).isBelow r = false := by
  rw [← Bool.not_eq_true]
  intro hbelow
  cases hrole : L.role x with
  | mid r' i =>
    rw [hrole] at hbelow
    rw [beq_iff_eq.mp hbelow] at hrole
    exact hr (h.tables.mid_parent x r i hrole).1
  | leaf r' i j =>
    rw [hrole] at hbelow
    rw [beq_iff_eq.mp hbelow] at hrole
    obtain ⟨m, hm, _⟩ := h.tables.leaf_parent x r i j hrole
    exact hr (h.tables.mid_parent m r i hm).1
  | outside | free | data | root =>
    rw [hrole] at hbelow
    cases hbelow

theorem Uprooted.released (h : Uprooted r k L k' L') (hinv : Inv k L) (hr : L.role r = .root) : Released r k L k' L' := by
  have hview : ∀ x u, u < 2 ^ 27 → L'.view k' x u = L.view k x u := by
    intro x u hu
    by_cases hx : x = r
    · rw [hx, hinv.view_zero hu (h.empty u hu)]
      exact view_of_not_root (fun hroot => ((h.root_iff r).mp hroot).2 rfl) u
    · exact h.view_of_ne hinv.forest hr hx u
  have hrenewed : Renewed noSlot k L k' L' := by
    refine ⟨h.forest, h.held_eq, fun x hx => ?_, fun x => ?_, fun x hx hx' => ?_, fun x u hu _ =>
      hview x u hu, fun _ _ => False.elim, fun _ _ => False.elim,
      fun _ _ _ _ => False.elim⟩
    · have hxr : x ≠ r := by
        rintro rfl
        rw [hr] at hx
        cases hx
      have hbelow : (L.role x).isBelow r = false := by
        rw [hx]
        rfl
      exact ⟨(h.role_eq x hxr hbelow).trans hx, h.count_eq x hxr hbelow, h.mem_eq x hxr hbelow⟩
    · by_cases hfree : x = r ∨ (L.role x).isBelow r = true
      · exact .inr (.inl (h.forest.count_free x (h.free x hfree)))
      · rw [not_or, Bool.not_eq_true] at hfree
        exact .inl (h.count_eq x hfree.1 hfree.2)
    · by_cases hfree : x = r ∨ (L.role x).isBelow r = true
      · rw [h.free x hfree] at hx'
        cases hx'
      · rw [not_or, Bool.not_eq_true] at hfree
        rw [h.role_eq x hfree.1 hfree.2] at hx'
        exact absurd hx' hx
  exact ⟨hrenewed.inv hinv, h.root_iff, fun x u hu _ => hview x u hu, fun x u hu _ hvalid => hrenewed.page_eq hinv hu hvalid, h.held_eq, hrenewed.wrapped⟩

theorem Inv.post_freewalk (h : Inv k L) (hr : L.role r = .root)
    (hleaf : (∃ u, u < 2 ^ 27 ∧ (L.view k r u).has pteV = true) → E .freewalkLeaf)
    (hdone : ∀ k' L', Released r k L k' L' → Q () k') : Post (freewalk 3 (r * pgsize)) k Q E := by
  refine h.forest.post_freewalk hr (fun u hu hvalid => ?_) fun k' L' huprooted => hdone k' L' (huprooted.released h hr)
  exact ⟨h.read_of_valid hu hvalid, hleaf ⟨u, hu, hvalid⟩⟩

theorem Inv.post_uvmfree {sz : ℕ} (h : Inv k L) (hr : L.role r = .root) (hsz : sz ≤ trapframeVa)
    (hpanic : k.Wrapped → E .decrementReference)
    (hmissing : (∃ u, u < pages sz ∧ (L.view k r u).has pteV = false) → E .uvmunmapWalk ∧ E .uvmunmapNotMapped)
    (hleaf : (∃ u, pages sz ≤ u ∧ u < 2 ^ 27 ∧ (L.view k r u).has pteV = true) → E .freewalkLeaf)
    (hdone : ∀ k' L', Released r k L k' L' → Q () k') : Post (uvmfree (r * pgsize) sz) k Q E := by
  have hle := pages_le_userPages hsz
  have hrest : ∀ k1 L1, Unmapped r 0 (pages sz) k L k1 L1 → Post (freewalk 3 (r * pgsize)) k1 Q E := by
    intro k1 L1 hL1
    refine hL1.evolves.inv.post_freewalk ((hL1.evolves.keeps.root_iff r).mpr hr) (fun hex => ?_) fun k' L' hreleased => ?_
    · obtain ⟨u, hu, hvalid⟩ := hex
      by_cases hin : u < pages sz
      · rw [hL1.view_eq u (Nat.zero_le u) (by omega), zero_not_valid] at hvalid
        cases hvalid
      · rw [hL1.evolves.keeps.view_eq r u hu (by rintro ⟨_, _⟩; omega)] at hvalid
        exact hleaf ⟨u, by omega, hu, hvalid⟩
    · exact hdone k' L' (Released.of_evolves hL1.evolves (fun _ _ ht => ht.1) hreleased)
  unfold uvmfree
  split
  · rw [pgroundup_eq hsz, div_pgsize]
    have hstart : (0 : ℕ) = 0 * pgsize := (Nat.zero_mul _).symm
    rw [hstart]
    refine Post.bind (h.post_uvmunmap hr (by omega) hpanic (fun hex => ?_) hrest)
    obtain ⟨u, _, hu, hinvalid⟩ := hex
    exact hmissing ⟨u, by omega, hinvalid⟩
  · rename_i hzero
    have hnone : pages sz = 0 := by
      rw [Nat.eq_zero_of_not_pos hzero]
      decide
    exact hrest k L ⟨Evolves.refl h _, fun u _ hu => by omega⟩

end AdvancedXv6.Kernel
