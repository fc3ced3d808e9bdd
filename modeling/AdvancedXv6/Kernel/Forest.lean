import AdvancedXv6.Kernel.Ledger

/-!
# The forest of page tables

The part of the ledger that does not look at the leaf entries: the free list, and the trees of the page tables, whose pages have one reference each. What the allocator and `walk` do is said exactly here, page by page: which pages change their roles, what becomes of the counts, and how many free pages are left. Nothing is assumed about the entries of the leaf pages, so the rules hold of any page table.
-/

namespace AdvancedXv6.Kernel

open Function Prog

variable {k k' k'' : KState} {L L' L'' : Ledger} {r v p va : ℕ} {q : PtePtr} {E : Panic → Prop}

/-! ### The books without the entries -/

structure Forest (k : KState) (L : Ledger) : Prop where
  chain : FreeChain k.mem k.freelist L.free
  nodup : L.free.Nodup
  free_iff : ∀ p, p ∈ L.free ↔ L.role p = .free
  outside_iff : ∀ p, L.role p = .outside ↔ ¬ Allocatable p
  count_free : ∀ p, L.role p = .free → k.pageRefCount p = 0
  count_table : ∀ p, (L.role p).isTable = true → k.pageRefCount p = 1
  tables : Tables k.mem L.role

theorem Inv.forest (h : Inv k L) : Forest k L :=
  ⟨h.chain, h.nodup, h.free_iff, h.outside_iff, h.count_free, h.count_table, h.tables⟩

section

variable (h : Forest k L)
include h

theorem Forest.inv (hlt : ∀ p, k.pageRefCount p < 2 ^ 31) (hshares : Shares (L.view k) L.role k.pageRefCount L.held) : Inv k L :=
  ⟨h.chain, h.nodup, h.free_iff, h.outside_iff, h.count_free, h.count_table, hlt, h.tables, hshares⟩

theorem Forest.allocatable (hp : L.role p ≠ .outside) : Allocatable p := by
  by_contra hnot
  exact hp ((h.outside_iff p).mpr hnot)

theorem Forest.lt (hp : L.role p ≠ .outside) : p < 0x88000 := (allocatable_iff.mp (h.allocatable hp)).2

theorem Forest.notMem_free (hp : L.role p ≠ .free) : p ∉ L.free := fun hmem => hp ((h.free_iff p).mp hmem)

theorem Forest.role_head {rest : List ℕ} (hfree : L.free = p :: rest) : L.role p = .free :=
  (h.free_iff p).mp (by rw [hfree]; exact List.mem_cons_self ..)

theorem Forest.change (hrest : ∀ x, x ≠ p → L'.role x = L.role x ∧ k'.pageRefCount x = k.pageRefCount x)
    (hold : L.role p ≠ .outside) (hnew : L'.role p ≠ .outside) (hchain : FreeChain k'.mem k'.freelist L'.free)
    (hnodup : L'.free.Nodup) (hfree : ∀ x, x ≠ p → (x ∈ L'.free ↔ x ∈ L.free)) (hself : p ∈ L'.free ↔ L'.role p = .free)
    (hzero : L'.role p = .free → k'.pageRefCount p = 0) (hone : (L'.role p).isTable = true → k'.pageRefCount p = 1)
    (htables : Tables k'.mem L'.role) : Forest k' L' := by
  refine ⟨hchain, hnodup, fun x => ?_, fun x => ?_, fun x hx => ?_, fun x hx => ?_, htables⟩
  · by_cases hxp : x = p
    · rw [hxp]
      exact hself
    · rw [hfree x hxp, (hrest x hxp).1]
      exact h.free_iff x
  · by_cases hxp : x = p
    · rw [hxp]
      exact ⟨fun ho => absurd ho hnew, fun hnot => absurd (h.allocatable hold) hnot⟩
    · rw [(hrest x hxp).1]
      exact h.outside_iff x
  · by_cases hxp : x = p
    · rw [hxp] at hx ⊢
      exact hzero hx
    · rw [(hrest x hxp).1] at hx
      rw [(hrest x hxp).2]
      exact h.count_free x hx
  · by_cases hxp : x = p
    · rw [hxp] at hx ⊢
      exact hone hx
    · rw [(hrest x hxp).1] at hx
      rw [(hrest x hxp).2]
      exact h.count_table x hx

/-- Pages outside the page tables may change their contents and roles without a change of any entry. -/
theorem Forest.view_congr (hroot : ∀ x, L'.role x = .root ↔ L.role x = .root)
    (hsame : ∀ x, (L.role x).isTable = true → k'.mem x = k.mem x) : L'.view k' = L.view k := by
  funext x u
  unfold Ledger.view
  by_cases hx : L.role x = .root
  · rw [if_pos hx, if_pos ((hroot x).mpr hx)]
    exact h.tables.entry_congr hsame hx
  · rw [if_neg hx, if_neg fun hx' => hx ((hroot x).mp hx')]

end

theorem root_update (hp : (L.role p).isTable = false) {other : Role} (hother : other.isTable = false) (x : ℕ) :
    update L.role p other x = .root ↔ L.role x = .root := by
  by_cases hx : x = p
  · subst hx
    rw [update_self]
    constructor
    · rintro rfl
      cases hother
    · intro hroot
      rw [hroot] at hp
      cases hp
  · rw [update_of_ne hx]

theorem mem_table_setPage (hp : L.role p = .data) (page : Page) {x : ℕ} (hx : (L.role x).isTable = true) :
    update k.mem p page x = k.mem x := by
  refine update_of_ne ?_ _ _
  rintro rfl
  rw [hp] at hx
  cases hx

theorem Forest.setPage (h : Forest k L) (hp : L.role p = .data) (page : Page) :
    Forest { k with mem := update k.mem p page } L :=
  ⟨h.chain.update (h.notMem_free (by rw [hp]; nofun)) _, h.nodup, h.free_iff, h.outside_iff, h.count_free, h.count_table,
    h.tables.congr fun _ hx => mem_table_setPage hp page (Role.isTable_of_isNode hx)⟩

theorem Forest.setHeld (h : Forest k L) (held : ℕ → ℕ) : Forest k { L with held } :=
  ⟨h.chain, h.nodup, h.free_iff, h.outside_iff, h.count_free, h.count_table, h.tables⟩

theorem Forest.freedPage_chain (h : Forest k L) (hfree : L.role p ≠ .free) (hinside : L.role p ≠ .outside) :
    FreeChain (update k.mem p (freedPage k)) (p * pgsize) (p :: L.free) := by
  have hnot := h.notMem_free hfree
  have hchain := (h.chain.update hnot fun _ => repeatByte 1).push hnot (h.allocatable hinside)
  rw [writeWord, update_self, update_idem] at hchain
  exact hchain

/-! ### Entries -/

theorem pte2pa_eq (pte : Pte) : pte2pa pte = pte.page * pgsize := by
  have hmod : pte2pa pte % 2 ^ 12 = 0 := by
    rw [pte2pa, BitVec.toNat_shiftLeft, Nat.shiftLeft_eq, Nat.mod_mod_of_dvd _ (by decide), Nat.mul_mod_left]
  exact (Nat.div_mul_cancel (Nat.dvd_of_mod_eq_zero hmod)).symm

theorem post_readPte {Q : Pte → KState → Prop} (h : Q (k.mem q.page q.index) k) : Post (readPte q) k Q E :=
  Post.bind (Post.get (Post.pure h))

theorem post_writePte {Q : Unit → KState → Prop} {pte : Pte} (h : Q () (k.write q pte)) : Post (writePte q pte) k Q E :=
  Post.modify h

theorem post_memset {Q : Unit → KState → Prop} {c : BitVec 8}
    (h : Q () { k with mem := update k.mem p fun _ => repeatByte c }) : Post (memset (p * pgsize) c) k Q E := by
  refine Post.modify ?_
  rw [div_pgsize]
  exact h

/-! ### Finding a slot -/

variable {Q : Option PtePtr → KState → Prop} {x m c n : ℕ} {role : ℕ → Role} {mem : ℕ → Page} {i : Fin 512}

theorem post_walk (hva : va < maxva) (h : Q (slot k.mem r va) k) :
    Post (walk (r * pgsize) va false) k Q E := by
  unfold walk
  rw [if_neg (by omega)]
  unfold slot at h
  simp only at h
  refine Post.bind (post_readPte ?_)
  simp only [div_pgsize]
  split at h
  · rename_i htop
    rw [if_pos htop, pte2pa_eq]
    refine Post.bind (post_readPte ?_)
    simp only [div_pgsize]
    split at h
    · rename_i hnext
      rw [if_pos hnext, pte2pa_eq]
      unfold walkFrom
      rw [div_pgsize]
      exact Post.pure h
    · rename_i hnext
      rw [if_neg hnext]
      exact Post.pure h
  · rename_i htop
    rw [if_neg htop]
    exact Post.pure h

theorem Forest.address_ne_zero (h : Forest k L) (hp : L.role p ≠ .outside) : p * pgsize ≠ 0 := by
  have hlow := (allocatable_iff.mp (h.allocatable hp)).1
  unfold pgsize
  omega

theorem Forest.length_le (h : Forest k L) : L.free.length ≤ 0x7DBD := by
  have hsub : L.free.toFinset ⊆ Finset.Ico 0x80243 0x88000 := by
    intro x hx
    rw [List.mem_toFinset, h.free_iff] at hx
    have halloc := allocatable_iff.mp (h.allocatable (p := x) (by rw [hx]; nofun))
    exact Finset.mem_Ico.mpr halloc
  have hcard := Finset.card_le_card hsub
  rw [List.toFinset_card_of_nodup h.nodup, Nat.card_Ico] at hcard
  exact hcard

/-! ### Pages in use -/

theorem role_kept {x : ℕ} {role : Role} (hkeep : ∀ x, L.role x ≠ .free → L'.role x = L.role x)
    (hx : L.role x = role) (hrole : role ≠ .free) : L'.role x = role :=
  (hkeep x (hx ▸ hrole)).trans hx

theorem kept_ne_free (hkeep : ∀ x, L.role x ≠ .free → L'.role x = L.role x) (x : ℕ) (hx : L.role x ≠ .free) : L'.role x ≠ .free := by
  rw [hkeep x hx]
  exact hx

structure Kept (k : KState) (L : Ledger) (k' : KState) (L' : Ledger) : Prop where
  role_eq : ∀ x, L.role x ≠ .free → L'.role x = L.role x
  count_eq : ∀ x, L.role x ≠ .free → k'.pageRefCount x = k.pageRefCount x
  mem_eq : ∀ x, L.role x = .data → k'.mem x = k.mem x

theorem Kept.trans (h : Kept k L k' L') (h' : Kept k' L' k'' L'') : Kept k L k'' L'' := by
  have hkept := kept_ne_free h.role_eq
  refine ⟨fun x hx => ?_, fun x hx => ?_, fun x hx => ?_⟩
  · rw [h'.role_eq x (hkept x hx), h.role_eq x hx]
  · rw [h'.count_eq x (hkept x hx), h.count_eq x hx]
  · rw [h'.mem_eq x (role_kept h.role_eq hx nofun), h.mem_eq x hx]

/-! ### `kalloc` -/

structure Popped (p : ℕ) (k : KState) (L : Ledger) (k' : KState) (L' : Ledger) : Prop where
  forest : Forest k' L'
  free_eq : L.free = p :: L'.free
  role_eq : L'.role = update L.role p .data
  count_eq : k'.pageRefCount = update k.pageRefCount p 1
  mem_eq : ∀ x, x ≠ p → k'.mem x = k.mem x
  held_eq : L'.held = L.held

section

variable (h : Popped p k L k' L')
include h

theorem Popped.role_free (hforest : Forest k L) : L.role p = .free :=
  hforest.role_head h.free_eq

theorem Popped.role_data : L'.role p = .data := by rw [h.role_eq, update_self]

theorem Popped.ne (hforest : Forest k L) (hx : L.role x ≠ .free) : x ≠ p := by
  intro hxp
  rw [hxp] at hx
  exact hx (h.role_free hforest)

theorem Popped.role_of_ne (hx : x ≠ p) : L'.role x = L.role x := by
  rw [h.role_eq, update_of_ne hx]

theorem Popped.address_ne_zero : p * pgsize ≠ 0 := h.forest.address_ne_zero (by rw [h.role_data]; nofun)

theorem Popped.count_of_ne (hx : x ≠ p) : k'.pageRefCount x = k.pageRefCount x := by
  rw [h.count_eq, update_of_ne hx]

theorem Popped.kept (hforest : Forest k L) : Kept k L k' L' :=
  ⟨fun _ hx => h.role_of_ne (h.ne hforest hx), fun _ hx => h.count_of_ne (h.ne hforest hx), fun x hx => h.mem_eq x (h.ne hforest (by rw [hx]; nofun))⟩

theorem Popped.root_iff (hforest : Forest k L) (x : ℕ) : L'.role x = .root ↔ L.role x = .root := by
  rw [h.role_eq]
  exact root_update (by rw [h.role_free hforest]; rfl) rfl x

theorem Popped.view_eq (hforest : Forest k L) : L'.view k' = L.view k := by
  apply hforest.view_congr
  · exact h.root_iff hforest
  · intro x hx
    refine h.mem_eq x (h.ne hforest fun hf => ?_)
    rw [hf] at hx
    cases hx

theorem Popped.setPage (page : Page) :
    Popped p k L { k' with mem := update k'.mem p page } L' :=
  ⟨h.forest.setPage h.role_data page, h.free_eq, h.role_eq, h.count_eq,
    fun x hx => (update_of_ne hx _ _).trans (h.mem_eq x hx), h.held_eq⟩

end

theorem Forest.post_kalloc (h : Forest k L) {Q : ℕ → KState → Prop} (hempty : L.free = [] → Q 0 k)
    (hpopped : ∀ p k' L', Popped p k L k' L' → Q (p * pgsize) k') : Post kalloc k Q E := by
  have hcount : ∀ p rest, L.free = p :: rest → k.pageRefCount p = 0 := fun p rest hfree =>
    h.count_free p (h.role_head hfree)
  refine Kernel.post_kalloc h.chain hempty (fun p rest hfree hneg => ?_) fun p rest hfree _ hchain => ?_
  · have hzero := hcount p rest hfree
    omega
  · have hp : L.role p = .free := h.role_head hfree
    have hnodup := List.nodup_cons.mp (hfree ▸ h.nodup)
    rw [hcount p rest hfree]
    apply hpopped p _ ⟨update L.role p .data, rest, L.held⟩
    refine ⟨?_, hfree, rfl, rfl, fun x hx => update_of_ne hx _ _, rfl⟩
    refine h.change (p := p) (fun x hx => ⟨update_of_ne hx _ _, update_of_ne hx _ _⟩) (by rw [hp]; nofun)
      ?_ (hchain.update hnodup.1 _) hnodup.2 (fun x hx => ?_) ?_ ?_ ?_ ?_
    · simp only [update_self]
      nofun
    · rw [hfree, List.mem_cons, or_iff_right hx]
    · simp only [update_self]
      exact ⟨fun hin => absurd hin hnodup.1, nofun⟩
    · simp only [update_self]
      nofun
    · simp only [update_self]
      nofun
    · have htables : Tables (update k.mem p fun _ => repeatByte 5) L.role := h.tables.congr fun x hx =>
        update_of_ne (fun hxp => by rw [hxp, hp] at hx; cases hx) _ _
      exact htables.relabel (by rw [hp]; rfl) rfl

/-! ### `kfree` -/

structure Freed (p : ℕ) (k : KState) (L : Ledger) (k' : KState) (L' : Ledger) : Prop where
  forest : Forest k' L'
  pos : 0 < k.pageRefCount p
  role_eq : L'.role = update L.role p (if k.pageRefCount p = 1 then .free else .data)
  count_eq : k'.pageRefCount = update k.pageRefCount p (k.pageRefCount p - 1)
  mem_eq : ∀ x, x ≠ p ∨ k.pageRefCount p ≠ 1 → k'.mem x = k.mem x
  length_eq : L'.free.length = L.free.length + if k.pageRefCount p = 1 then 1 else 0
  held_eq : L'.held = L.held

section

variable (h : Freed p k L k' L')
include h

theorem Freed.role_of_ne (hx : x ≠ p) : L'.role x = L.role x := by
  rw [h.role_eq, update_of_ne hx]

theorem Freed.role_self : L'.role p = if k.pageRefCount p = 1 then .free else .data := by
  rw [h.role_eq, update_self]

theorem Freed.count_of_ne (hx : x ≠ p) : k'.pageRefCount x = k.pageRefCount x := by
  rw [h.count_eq, update_of_ne hx]

theorem Freed.root_iff (hp : L.role p = .data) (x : ℕ) : L'.role x = .root ↔ L.role x = .root := by
  rw [h.role_eq]
  refine root_update (by rw [hp]; rfl) ?_ x
  split <;> rfl

theorem Freed.view_eq (hforest : Forest k L) (hp : L.role p = .data) : L'.view k' = L.view k := by
  apply hforest.view_congr
  · exact h.root_iff hp
  · intro x hx
    refine h.mem_eq x (.inl fun hxp => ?_)
    rw [hxp, hp] at hx
    cases hx

end

theorem Forest.pushed (h : Forest k L) (hfree : L.role p ≠ .free) (hinside : L.role p ≠ .outside)
    (hmem : ∀ x, x = p ∨ L.role x = .free → k'.mem x = update k.mem p (freedPage k) x) (hlist : k'.freelist = p * pgsize)
    (hcount : k'.pageRefCount = update k.pageRefCount p 0) (hrole : L'.role = update L.role p .free)
    (hpush : L'.free = p :: L.free) (htables : Tables k'.mem L'.role) : Forest k' L' := by
  have hself : L'.role p = .free := by rw [hrole, update_self]
  have hnot := h.notMem_free hfree
  refine h.change (p := p) (fun x hx => ?_) hinside (by rw [hself]; nofun) ?_ ?_ (fun x hx => ?_) ?_ (fun _ => ?_) (fun ht => ?_) htables
  · rw [hrole, hcount, update_of_ne hx, update_of_ne hx]
    exact ⟨rfl, rfl⟩
  · rw [hlist, hpush]
    refine (h.freedPage_chain hfree hinside).congr fun x hx => ?_
    rw [hmem x]
    exact (List.mem_cons.mp hx).imp id (h.free_iff x).mp
  · rw [hpush]
    exact List.nodup_cons.mpr ⟨hnot, h.nodup⟩
  · rw [hpush, List.mem_cons, or_iff_right hx]
  · rw [hpush, hself]
    exact ⟨fun _ => rfl, fun _ => List.mem_cons_self ..⟩
  · rw [hcount, update_self]
  · rw [hself] at ht
    cases ht

theorem Forest.post_kfree (h : Forest k L) (hp : L.role p = .data) {Q : Unit → KState → Prop}
    (hpanic : k.pageRefCount p ≤ 0 → E .decrementReference)
    (hfreed : ∀ k' L', Freed p k L k' L' → L'.free = (if k.pageRefCount p = 1 then p :: L.free else L.free) → Q () k') :
    Post (kfree (p * pgsize)) k Q E := by
  have hinside : L.role p ≠ .outside := by
    rw [hp]
    nofun
  refine Kernel.post_kfree (h.allocatable hinside) hpanic (fun hcount => ?_) fun hcount => ?_
  · have hne : k.pageRefCount p ≠ 1 := by omega
    have hrole : update L.role p (if k.pageRefCount p = 1 then .free else .data) = L.role := by
      rw [if_neg hne, ← hp, update_eq_self]
    refine hfreed _ L ⟨?_, by omega, hrole.symm, rfl, fun _ _ => rfl, by rw [if_neg hne, Nat.add_zero], rfl⟩ (if_neg hne).symm
    refine h.change (p := p) (fun x hx => ⟨rfl, update_of_ne hx _ _⟩) hinside hinside h.chain h.nodup
      (fun _ _ => Iff.rfl) (h.free_iff p) (fun hf => ?_) (fun ht => ?_) h.tables
    · rw [hp] at hf
      cases hf
    · rw [hp] at ht
      cases ht
  · have htables : Tables (update k.mem p (freedPage k)) L.role := h.tables.congr fun x hx =>
      mem_table_setPage hp _ (Role.isTable_of_isNode hx)
    refine hfreed _ ⟨update L.role p .free, p :: L.free, L.held⟩ ⟨?_, by omega, by rw [if_pos hcount], by rw [hcount]; rfl,
      fun x hx => update_of_ne (hx.resolve_right fun hne => hne hcount) _ _, by rw [if_pos hcount, List.length_cons], rfl⟩ (if_pos hcount).symm
    exact h.pushed (by rw [hp]; nofun) hinside (fun _ _ => rfl) rfl rfl rfl rfl (htables.relabel (by rw [hp]; rfl) rfl)

/-! ### `IncrementAndGetPageReference` -/

theorem Forest.post_increment (h : Forest k L) (hp : L.role p = .data) {Q : ℤ → KState → Prop} (hpanic : k.pageRefCount p < 0 → E .incrementReference)
    (hdone : ∀ z k', Forest k' L → 0 ≤ k.pageRefCount p → k'.mem = k.mem →
      k'.pageRefCount = update k.pageRefCount p (toInt32 (k.pageRefCount p + 1)) → Q z k') :
    Post (incrementAndGetPageReference (p * pgsize)) k Q E := by
  have hinside : L.role p ≠ .outside := by
    rw [hp]
    nofun
  refine Kernel.post_increment (by rw [div_page]; exact hpanic) ?_
  rw [div_page]
  intro hnonneg
  refine hdone _ _ (h.change (p := p) (fun x hx => ⟨rfl, update_of_ne hx _ _⟩) hinside hinside h.chain h.nodup (fun _ _ => Iff.rfl)
    (h.free_iff p) (fun hf => ?_) (fun ht => ?_) h.tables) hnonneg rfl rfl
  · rw [hp] at hf
    cases hf
  · rw [hp] at ht
    cases ht

/-! ### Page-table pages -/

def Role.child : Role → ℕ → Fin 512 → Role
  | .root, p, i => .mid p i
  | .mid r j, _, i => .leaf r j i
  | _, _, _ => .outside

theorem Role.child_table {role : Role} (h : role.isNode = true) (p : ℕ) (i : Fin 512) :
    (role.child p i).isTable = true ∧ role.child p i ≠ .root := by
  cases role <;> first | exact ⟨rfl, nofun⟩ | cases h

theorem Tables.child (h : Tables mem role)
    (hm : (role m).isNode = true) (hvalid : (mem m i).has pteV = true) : role (mem m i).page = (role m).child m i := by
  cases hrole : role m with
  | root => exact h.root_child m i hrole hvalid
  | mid r j => exact h.mid_child m r j i hrole hvalid
  | _ =>
    rw [hrole] at hm
    cases hm

theorem Tables.link (h : Tables mem role)
    (hm : (role m).isNode = true) (hinvalid : (mem m i).has pteV = false) (hp : (role p).isTable = false) (hlt : p < 2 ^ 44)
    (hzero : ∀ j, mem p j = 0) : Tables (writeWord mem m i (nodePte p)) (update role p ((role m).child m i)) := by
  cases hrole : role m with
  | root => exact h.link_mid hrole hinvalid hp hlt hzero
  | mid r j => exact h.link_leaf hrole hinvalid hp hlt
  | _ =>
    rw [hrole] at hm
    cases hm

def Role.isBelow (r : ℕ) : Role → Bool
  | .mid r' _ | .leaf r' _ _ => r' == r
  | _ => false

theorem Role.isTable_of_isBelow {role : Role} (h : role.isBelow r = true) : role.isTable = true ∧ role ≠ .root := by
  cases role <;> first | cases h | exact ⟨rfl, nofun⟩

def Ledger.Has (L : Ledger) (role : Role) : Prop := ∃ x, L.role x = role

open Classical in
/-- The pages that `walk` has to make on the way to an address. -/
noncomputable def Ledger.missing (L : Ledger) (r va : ℕ) : ℕ :=
  (if L.Has (.mid r (px 2 va)) then 0 else 1) + if L.Has (.leaf r (px 2 va) (px 1 va)) then 0 else 1

theorem Tables.no_child (h : Tables mem role)
    (hm : (role m).isNode = true) (hinvalid : (mem m i).has pteV = false) (c : ℕ) : role c ≠ (role m).child m i := by
  intro hc
  cases hrole : role m with
  | root =>
    rw [hrole] at hc
    have hvalid := (h.mid_parent c m i hc).2.1
    rw [hinvalid] at hvalid
    cases hvalid
  | mid r j =>
    rw [hrole] at hc
    obtain ⟨m', hm', hvalid, _⟩ := h.leaf_parent c r j i hc
    have heq := (h.mid_parent m' r j hm').2.2
    rw [(h.mid_parent m r j hrole).2.2] at heq
    rw [← heq, hinvalid] at hvalid
    cases hvalid
  | outside | free | data | leaf =>
    rw [hrole] at hm
    cases hm

structure Sprout (m : ℕ) (i : Fin 512) (c : ℕ) (k : KState) (L : Ledger) (k' : KState) (L' : Ledger) : Prop where
  forest : Forest k' L'
  free_eq : L.free = c :: L'.free
  role_eq : L'.role = update L.role c ((L.role m).child m i)
  count_eq : k'.pageRefCount = update k.pageRefCount c 1
  mem_eq : ∀ x, x ≠ c → x ≠ m → k'.mem x = k.mem x
  view_eq : L'.view k' = L.view k
  held_eq : L'.held = L.held

theorem Popped.sprout (h : Popped c k L k' L') (hforest : Forest k L) (hm : (L.role m).isNode = true)
    (hinvalid : (k.mem m i).has pteV = false) (hzero : ∀ l, k'.mem c l = 0) (hfree : L''.free = L'.free) (hheld : L''.held = L.held)
    (hrole : L''.role = update L.role c ((L.role m).child m i)) :
    Sprout m i c k L (k'.write ⟨m, i⟩ (nodePte c)) L'' := by
  have hcfree := h.role_free hforest
  have hmc : m ≠ c := h.ne hforest fun hf => by
    rw [hf] at hm
    cases hm
  obtain ⟨htable, hnroot⟩ := Role.child_table hm m i
  have hself : L''.role c = (L.role m).child m i := by rw [hrole, update_self]
  have hrest : ∀ x, x ≠ c → L''.role x = L.role x := fun x hx => by rw [hrole, update_of_ne hx]
  have hsame : ∀ x, x ≠ c → x ≠ m → (k'.write ⟨m, i⟩ (nodePte c)).mem x = k.mem x := fun x hxc hxm =>
    (update_of_ne hxm _ _).trans (h.mem_eq x hxc)
  have hlt := h.forest.lt (p := c) (by rw [h.role_data]; nofun)
  have htables : Tables (k'.write ⟨m, i⟩ (nodePte c)).mem L''.role := by
    have hlink := h.forest.tables.link (m := m) (i := i) (p := c) (by rw [h.role_of_ne hmc]; exact hm) (by rw [h.mem_eq m hmc]; exact hinvalid)
      (by rw [h.role_data]; rfl) (by omega) hzero
    rw [h.role_of_ne hmc, h.role_eq, update_idem, ← hrole] at hlink
    exact hlink
  have hnode : ∀ x, (L.role x).isNode = false → x ≠ m := by
    intro x hx hxm
    rw [hxm, hm] at hx
    cases hx
  have hne : ∀ x, L.role x ≠ .free → x ≠ c := fun x hx hxc => hx (hxc ▸ hcfree)
  have hview : L''.view (k'.write ⟨m, i⟩ (nodePte c)) = L.view k := by
    funext x u
    unfold Ledger.view
    by_cases hx : L.role x = .root
    · have hx'' : L''.role x = .root := (hrest x (hne x (by rw [hx]; nofun))).trans hx
      rw [if_pos hx, if_pos hx'']
      refine hforest.tables.entry_grow htables hx hx'' (fun t a b ht => ?_) fun t a b ht => ?_
      · have htc := hne t (by rw [ht]; nofun)
        exact ⟨(hrest t htc).trans ht, hsame t htc (hnode t (by rw [ht]; rfl))⟩
      · by_cases htc : t = c
        · right
          intro l
          rw [htc]
          exact (congrFun (update_of_ne hmc.symm _ _) l).trans (hzero l)
        · rw [← hrest t htc]
          exact .inl ht
    · rw [if_neg hx, if_neg]
      intro hx''
      by_cases hxc : x = c
      · rw [hxc, hself] at hx''
        exact hnroot hx''
      · exact hx ((hrest x hxc).symm.trans hx'')
  refine ⟨?_, by rw [hfree, h.free_eq], hrole, h.count_eq, hsame, hview, hheld⟩
  have hnodup := List.nodup_cons.mp (h.free_eq ▸ hforest.nodup)
  refine hforest.change (p := c) (fun x hx => ⟨hrest x hx, h.count_of_ne hx⟩) (by rw [hcfree]; nofun) (fun ho => ?_) ?_ (hfree ▸ hnodup.2)
    (fun x hx => ?_) ?_ (fun hf => ?_) (fun _ => ?_) htables
  · rw [hself] at ho
    rw [ho] at htable
    cases htable
  · rw [hfree]
    refine h.forest.chain.congr fun x hx => congrFun (update_of_ne ?_ _ _) 0
    rintro rfl
    rw [h.forest.free_iff, h.role_of_ne hmc] at hx
    rw [hx] at hm
    cases hm
  · rw [hfree, h.free_eq, List.mem_cons, or_iff_right hx]
  · rw [hfree, hself]
    exact ⟨fun hin => absurd hin hnodup.1, fun hf => by rw [hf] at htable; cases htable⟩
  · rw [hself] at hf
    rw [hf] at htable
    cases htable
  · exact (congrFun h.count_eq c).trans (update_self ..)

theorem below_kept (hkeep : ∀ x, L.role x ≠ .free → L'.role x = L.role x) (hbelow : (L.role x).isBelow r = true) : (L'.role x).isBelow r = true := by
  rw [hkeep x fun hf => by rw [hf] at hbelow; cases hbelow]
  exact hbelow

structure Sprouted (r n : ℕ) (k : KState) (L : Ledger) (k' : KState) (L' : Ledger) : Prop where
  forest : Forest k' L'
  role_eq : ∀ x, L.role x ≠ .free → L'.role x = L.role x
  count_eq : ∀ x, L.role x ≠ .free → k'.pageRefCount x = k.pageRefCount x
  mem_eq : ∀ x, L.role x = .data → k'.mem x = k.mem x
  fresh : ∀ x, L.role x = .free → L'.role x = .free ∨ (L'.role x).isBelow r = true
  view_eq : L'.view k' = L.view k
  length_eq : L.free.length = L'.free.length + n
  held_eq : L'.held = L.held

theorem Sprouted.refl (h : Forest k L) (r : ℕ) : Sprouted r 0 k L k L :=
  ⟨h, fun _ _ => rfl, fun _ _ => rfl, fun _ _ => rfl, fun _ hx => .inl hx, rfl, rfl, rfl⟩

theorem Sprouted.kept (h : Sprouted r n k L k' L') : Kept k L k' L' := ⟨h.role_eq, h.count_eq, h.mem_eq⟩

theorem Sprouted.setHeld (h : Sprouted r n k L k' L') (held : ℕ → ℕ) : Sprouted r n k { L with held } k' { L' with held } :=
  ⟨h.forest.setHeld held, h.role_eq, h.count_eq, h.mem_eq, h.fresh, h.view_eq, h.length_eq, rfl⟩

theorem Sprouted.trans (h : Sprouted r n k L k' L') (h' : Sprouted r m k' L' k'' L'') : Sprouted r (n + m) k L k'' L'' := by
  obtain ⟨hrole, hcount, hmem⟩ := h.kept.trans h'.kept
  refine ⟨h'.forest, hrole, hcount, hmem, fun x hx => ?_, h'.view_eq.trans h.view_eq, ?_, h'.held_eq.trans h.held_eq⟩
  · rcases h.fresh x hx with hf | hbelow
    · exact h'.fresh x hf
    · exact .inr (below_kept h'.role_eq hbelow)
  · rw [h.length_eq, h'.length_eq, Nat.add_comm n, Nat.add_assoc]

theorem Sprout.sprouted (h : Sprout m i c k L k' L') (hforest : Forest k L) (hm : (L.role m).isNode = true)
    (hbelow : ((L.role m).child m i).isBelow r = true) : Sprouted r 1 k L k' L' := by
  have hc : L.role c = .free := hforest.role_head h.free_eq
  have hne : ∀ x, L.role x ≠ .free → x ≠ c := fun x hx hxc => hx (hxc ▸ hc)
  refine ⟨h.forest, fun x hx => ?_, fun x hx => ?_, fun x hx => ?_, fun x hx => ?_, h.view_eq, by rw [h.free_eq, List.length_cons], h.held_eq⟩
  · rw [h.role_eq, update_of_ne (hne x hx)]
  · rw [h.count_eq, update_of_ne (hne x hx)]
  · refine h.mem_eq x (hne x (by rw [hx]; nofun)) fun hxm => ?_
    rw [← hxm, hx] at hm
    cases hm
  · by_cases hxc : x = c
    · right
      rw [h.role_eq, hxc, update_self]
      exact hbelow
    · left
      rw [h.role_eq, update_of_ne hxc]
      exact hx

theorem Sprout.has_iff {role : Role} (h : Sprout m i c k L k' L') (hforest : Forest k L) (hrole : role.isTable = true) :
    L'.Has role ↔ L.Has role ∨ role = (L.role m).child m i := by
  have hc : L.role c = .free := hforest.role_head h.free_eq
  constructor
  · intro ⟨x, hx⟩
    by_cases hxc : x = c
    · right
      rw [← hx, hxc, h.role_eq, update_self]
    · rw [h.role_eq, update_of_ne hxc] at hx
      exact .inl ⟨x, hx⟩
  · rintro (⟨x, hx⟩ | rfl)
    · refine ⟨x, ?_⟩
      rw [h.role_eq, update_of_ne, hx]
      rintro rfl
      rw [← hx, hc] at hrole
      cases hrole
    · exact ⟨c, by rw [h.role_eq, update_self]⟩

/-- The page table `r` has the pages on the way to an address, and else those it had. -/
def Reached (r va : ℕ) (L L' : Ledger) : Prop :=
  ∀ role : Role, role.isTable = true → (L'.Has role ↔ L.Has role ∨ role = .mid r (px 2 va) ∨ role = .leaf r (px 2 va) (px 1 va))

/-! ### `walk` with `alloc` -/

open Classical in
/-- One level: the page for the next level is there, or it is made, or there is no memory for it. -/
theorem Forest.post_walkFrom {level : ℕ} {child : Role} (h : Forest k L) (hm : (L.role m).isNode = true)
    (hchild : (L.role m).child m (px (level + 1) va) = child) (hbelow : child.isBelow r = true) (hfull : ¬ L.Has child → L.free = [] → Q none k)
    (hnext : ∀ c k' L', Sprouted r (if L.Has child then 0 else 1) k L k' L' →
      (∀ role : Role, role.isTable = true → (L'.Has role ↔ L.Has role ∨ role = child)) →
      L'.role c = child → Post (walkFrom va true level (c * pgsize)) k' Q E) :
    Post (walkFrom va true (level + 1) (m * pgsize)) k Q E := by
  subst hchild
  unfold walkFrom
  refine Post.bind (post_readPte ?_)
  simp only [div_pgsize]
  split
  · rename_i hvalid
    have hc := h.tables.child hm hvalid
    have hhas : L.Has ((L.role m).child m (px (level + 1) va)) := ⟨_, hc⟩
    rw [pte2pa_eq]
    refine hnext _ k L ?_ (fun role _ => ⟨.inl, fun hor => hor.elim id fun heq => heq ▸ hhas⟩) hc
    rw [if_pos hhas]
    exact Sprouted.refl h r
  · rename_i hvalid
    rw [Bool.not_eq_true] at hvalid
    have hnone : ¬ L.Has ((L.role m).child m (px (level + 1) va)) := fun ⟨x, hx⟩ => h.tables.no_child hm hvalid x hx
    rw [if_pos trivial]
    refine Post.bind (h.post_kalloc (fun hempty => ?_) fun p k' L' hpopped => ?_)
    · rw [if_pos rfl]
      exact Post.pure (hfull hnone hempty)
    · rw [if_neg hpopped.address_ne_zero]
      refine Post.bind (post_memset (Post.bind (post_writePte ?_)))
      have hsprout : Sprout m _ p k L _ ⟨update L.role p _, L'.free, L.held⟩ := (hpopped.setPage fun _ => repeatByte 0).sprout h hm hvalid
        (fun l => congrFun (update_self p (fun _ => repeatByte 0) k'.mem) l) rfl rfl rfl
      refine hnext p _ _ ?_ (fun role hrole => hsprout.has_iff h hrole) (update_self ..)
      rw [if_neg hnone]
      exact hsprout.sprouted h hm hbelow

open Classical in
theorem Forest.post_walk_alloc (h : Forest k L) (hr : L.role r = .root) (hva : va < maxva)
    (hnone : ∀ n k' L', Sprouted r n k L k' L' → L'.free = [] → n < L.missing r va → Q none k')
    (hsome : ∀ q k' L', Sprouted r (L.missing r va) k L k' L' → Reached r va L L' → slot k'.mem r va = some q → Q (some q) k') :
    Post (walk (r * pgsize) va true) k Q E := by
  unfold walk
  rw [if_neg (by omega)]
  have hmid : (L.role r).child r (px 2 va) = .mid r (px 2 va) := by rw [hr]; rfl
  refine h.post_walkFrom (by rw [hr]; rfl) hmid (beq_self_eq_true r) (fun hnot hempty => ?_) fun m k1 L1 hsprouted hhas hm => ?_
  · refine hnone 0 k L (Sprouted.refl h r) hempty ?_
    rw [Ledger.missing, if_neg hnot]
    omega
  have hleaf : (L1.role m).child m (px 1 va) = .leaf r (px 2 va) (px 1 va) := by rw [hm]; rfl
  have hhasLeaf : L1.Has (.leaf r (px 2 va) (px 1 va)) ↔ L.Has (.leaf r (px 2 va) (px 1 va)) := (hhas _ rfl).trans (or_iff_left nofun)
  refine hsprouted.forest.post_walkFrom (by rw [hm]; rfl) hleaf (beq_self_eq_true r) (fun hnot hempty => ?_) fun t k2 L2 hsprouted' hhas' ht => ?_
  · refine hnone _ k1 L1 hsprouted hempty ?_
    rw [Ledger.missing, if_neg (mt hhasLeaf.mpr hnot)]
    exact Nat.lt_succ_self _
  · have hboth := hsprouted.trans hsprouted'
    rw [if_congr hhasLeaf rfl rfl] at hboth
    unfold walkFrom
    rw [div_pgsize]
    refine Post.pure (hsome _ k2 L2 hboth (fun role hrole => ?_) ((hboth.forest.tables.slot_eq_some_iff (role_kept hboth.role_eq hr nofun)).mpr ⟨ht, rfl⟩))
    rw [hhas' role hrole, hhas role hrole, or_assoc]

/-! ### `mappages` -/

theorem page_lt_maxva (hv : v < 2 ^ 26) : v * pgsize < maxva := by
  unfold pgsize maxva
  omega

theorem post_walk_page (hr : L.role r = .root) (hv : v < 2 ^ 26) (hnone : (L.view k r v).has pteV = false → Q none k)
    (hsome : ∀ q, slot k.mem r (v * pgsize) = some q → k.mem q.page q.index = L.view k r v →
      Q (some q) k) : Post (walk (r * pgsize) (v * pgsize) false) k Q E := by
  refine post_walk (page_lt_maxva hv) ?_
  cases hslot : slot k.mem r (v * pgsize) with
  | none => exact hnone (by rw [view_root hr, entry_of_none hslot]; exact zero_not_valid)
  | some q => exact hsome q hslot (by rw [view_root hr, entry_of_slot hslot])

def mappagesPage (pagetable pa : ℕ) (perm : Pte) (first a : ℕ) : KernelM (Option ℤ) := do
  match ← walk pagetable a true with
  | none => pure (some (-1))
  | some q => do
    let pte ← readPte q
    if pte.has pteV then
      panic .mappagesRemap
    else do
      writePte q (pa2pte (pa + (a - first)) ||| perm ||| pteV)
      pure none

variable {pa size first : ℕ} {perm : Pte}

/-- Below `MAXVA` the loop runs once for each page of the range. -/
theorem mappages_eq (pagetable : ℕ) (hsize : 1 ≤ size) (hva : va + size ≤ maxva) : mappages pagetable va size pa perm =
    loop pgsize (mappagesPage pagetable pa perm (pgrounddown va))
      ((va + size - 1) / pgsize - va / pgsize + 1) (pgrounddown va) >>= fun result =>
      pure (result.getD 0) := by
  have hlast : (va + size - 1) % 2 ^ 64 = va + size - 1 := Nat.mod_eq_of_lt (by unfold maxva at hva; omega)
  have hrounds : (pgrounddown (va + size - 1) + 2 ^ 64 - pgrounddown va) % 2 ^ 64 / pgsize = (va + size - 1) / pgsize - va / pgsize := by
    unfold pgrounddown pgsize maxva at *
    omega
  unfold mappages
  rw [if_neg (by omega), hlast]
  simp only [hrounds]
  rfl

section

variable (h : Forest k L) (hr : L.role r = .root) (hv : v < 2 ^ 26) (hremap : (L.view k r v).has pteV = true → E .mappagesRemap)
include h hr hv hremap

/-- The body panics if the page is mapped, fails if there is no memory for the page-table pages, and else writes the slot. -/
theorem Forest.post_mappagesPage {Q : Option ℤ → KState → Prop}
    (hfull : ∀ n k' L', Sprouted r n k L k' L' → L'.free = [] → n < L.missing r (v * pgsize) → Q (some (-1)) k')
    (hmap : ∀ q k' L', Sprouted r (L.missing r (v * pgsize)) k L k' L' → Reached r (v * pgsize) L L' → (L.view k r v).has pteV = false →
      slot k'.mem r (v * pgsize) = some q → Q none (k'.write q (pa2pte (pa + (v * pgsize - first)) ||| perm ||| pteV))) :
    Post (mappagesPage (r * pgsize) pa perm first (v * pgsize)) k Q E := by
  refine Post.bind (h.post_walk_alloc hr (page_lt_maxva hv) (fun n k1 L1 hsprouted hempty hlt => ?_) fun q k1 L1 hsprouted hreached hslot => ?_)
  · exact Post.pure (hfull n k1 L1 hsprouted hempty hlt)
  · have hentry : k1.mem q.page q.index = L.view k r v := by
      rw [← hsprouted.view_eq, view_root (role_kept hsprouted.role_eq hr nofun), entry_of_slot hslot]
    refine Post.bind (post_readPte ?_)
    rw [hentry]
    split
    · exact Post.panic (hremap ‹_›)
    · rename_i hvalid
      refine Post.bind (post_writePte (Post.pure ?_))
      exact hmap q k1 L1 hsprouted hreached (by rw [← Bool.not_eq_true]; exact hvalid) hslot

theorem Forest.post_mappages
    {Q : ℤ → KState → Prop}
    (hfull : ∀ n k' L', Sprouted r n k L k' L' → L'.free = [] → n < L.missing r (v * pgsize) → Q (-1) k')
    (hmap : ∀ q k' L', Sprouted r (L.missing r (v * pgsize)) k L k' L' → Reached r (v * pgsize) L L' → (L.view k r v).has pteV = false →
      slot k'.mem r (v * pgsize) = some q → Q 0 (k'.write q (pa2pte pa ||| perm ||| pteV))) :
    Post (mappages (r * pgsize) (v * pgsize) pgsize pa perm) k Q E := by
  have hfirst : pgrounddown (v * pgsize) = v * pgsize := by rw [pgrounddown, div_pgsize]
  have hrounds : (v * pgsize + pgsize - 1) / pgsize - v * pgsize / pgsize + 1 = 1 := by
    unfold pgsize
    omega
  rw [mappages_eq _ (by decide) (by unfold pgsize maxva; omega), hfirst, hrounds]
  refine Post.step (R := fun b k' => Q (b.getD 0) k') (Post.loop_one ?_) fun b k' hb => Post.pure hb
  refine h.post_mappagesPage hr hv hremap hfull fun q k1 L1 hsprouted hreached hinvalid hslot => ?_
  rw [Nat.sub_self, Nat.add_zero]
  exact hmap q k1 L1 hsprouted hreached hinvalid hslot

end

end AdvancedXv6.Kernel
