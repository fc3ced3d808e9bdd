import AdvancedXv6.Kernel.Kalloc
import Mathlib.Order.Interval.Finset.Nat

/-!
# The free list in memory

`kmem.freelist` is a chain through the free pages themselves. `FreeChain` reads it as a list of page numbers; the list is there as long as nobody writes to a free page. The rules below say what `kalloc`, `kfree` and the count functions do to the state, and with them `kinit` is seen to put every page after the kernel on the list.
-/

namespace AdvancedXv6.Kernel

open Function Prog

/-- The pages `kfree` accepts: those after the kernel and below `PHYSTOP`. -/
def Allocatable (p : ℕ) : Prop := kernelEnd ≤ p * pgsize ∧ p * pgsize < phystop

theorem allocatable_iff {p : ℕ} : Allocatable p ↔ 0x80243 ≤ p ∧ p < 0x88000 := by
  unfold Allocatable kernelEnd phystop pgsize
  omega

/-- The free list that starts at an address. -/
def FreeChain (mem : ℕ → Page) : ℕ → List ℕ → Prop
  | head, [] => head = 0
  | head, p :: rest => head = p * pgsize ∧ Allocatable p ∧ FreeChain mem (mem p 0).toNat rest

variable {mem mem' : ℕ → Page} {head p : ℕ} {free : List ℕ}

theorem FreeChain.head_eq_zero (h : FreeChain mem 0 free) : free = [] := by
  cases free with
  | nil => rfl
  | cons p rest =>
    have hp := allocatable_iff.mp h.2.1
    have hzero : 0 = p * pgsize := h.1
    unfold pgsize at hzero
    omega

section

variable (h : FreeChain mem head free)
include h

theorem FreeChain.exists_cons (hne : head ≠ 0) :
    ∃ p rest, free = p :: rest ∧ head = p * pgsize ∧ Allocatable p ∧ FreeChain mem (mem p 0).toNat rest := by
  cases free with
  | nil => exact absurd h hne
  | cons p rest => exact ⟨p, rest, rfl, h.1, h.2.1, h.2.2⟩

theorem FreeChain.head_lt : head < 2 ^ 64 := by
  cases free with
  | nil =>
    have hzero : head = 0 := h
    omega
  | cons p rest =>
    have hp := allocatable_iff.mp h.2.1
    have hhead := h.1
    unfold pgsize at hhead
    omega

theorem FreeChain.allocatable (hp : p ∈ free) : Allocatable p := by
  induction free generalizing head with
  | nil => cases hp
  | cons q rest ih =>
    rcases List.mem_cons.mp hp with rfl | hrest
    · exact h.2.1
    · exact ih h.2.2 hrest

theorem FreeChain.congr (heq : ∀ p ∈ free, mem' p 0 = mem p 0) :
    FreeChain mem' head free := by
  induction free generalizing head with
  | nil => exact h
  | cons p rest ih =>
    refine ⟨h.1, h.2.1, ?_⟩
    rw [heq p (List.mem_cons_self ..)]
    exact ih h.2.2 fun q hq => heq q (List.mem_cons_of_mem p hq)

theorem FreeChain.update (hp : p ∉ free) (page : Page) :
    FreeChain (update mem p page) head free := by
  refine h.congr fun q hq => ?_
  rw [update_of_ne (ne_of_mem_of_not_mem hq hp)]

theorem FreeChain.push (hp : p ∉ free) (halloc : Allocatable p) :
    FreeChain (writeWord mem p 0 (BitVec.ofNat 64 head)) (p * pgsize) (p :: free) := by
  refine ⟨rfl, halloc, ?_⟩
  rw [writeWord, update_self, update_self, BitVec.toNat_ofNat, Nat.mod_eq_of_lt h.head_lt]
  exact h.update hp _

end

/-! ### What the functions do -/

variable {k : KState} {pa : ℕ} {E : Panic → Prop}

theorem post_increment {Q : ℤ → KState → Prop} (hpanic : k.pageRefCount (pa / 2 ^ 12) < 0 → E .incrementReference)
    (hok : 0 ≤ k.pageRefCount (pa / 2 ^ 12) → Q (toInt32 (k.pageRefCount (pa / 2 ^ 12) + 1))
      { k with pageRefCount := update k.pageRefCount (pa / 2 ^ 12) (toInt32 (k.pageRefCount (pa / 2 ^ 12) + 1)) }) :
    Post (incrementAndGetPageReference pa) k Q E := by
  refine Post.bind (Post.get ?_)
  dsimp only
  split
  · exact Post.panic (hpanic ‹_›)
  · exact Post.bind (Post.set (Post.pure (hok (by omega))))

theorem post_decrement {Q : ℤ → KState → Prop} (hpanic : k.pageRefCount (pa / 2 ^ 12) ≤ 0 → E .decrementReference)
    (hok : 0 < k.pageRefCount (pa / 2 ^ 12) → Q (k.pageRefCount (pa / 2 ^ 12) - 1)
      { k with pageRefCount := update k.pageRefCount (pa / 2 ^ 12) (k.pageRefCount (pa / 2 ^ 12) - 1) }) :
    Post (decrementAndGetPageReference pa) k Q E := by
  refine Post.bind (Post.get ?_)
  dsimp only
  split
  · exact Post.panic (hpanic ‹_›)
  · exact Post.bind (Post.set (Post.pure (hok (by omega))))

theorem toInt32_of_lt {z : ℤ} (hlow : 0 ≤ z) (hhigh : z < 2 ^ 31) : toInt32 z = z := by
  unfold toInt32
  rw [Int.bmod_eq_of_le] <;> omega

theorem div_pgsize (p : ℕ) : p * pgsize / pgsize = p := Nat.mul_div_cancel p (by decide)

theorem div_page (p : ℕ) : p * pgsize / 2 ^ 12 = p := div_pgsize p

def freedPage (k : KState) : Page := update (fun _ => repeatByte 1) 0 (BitVec.ofNat 64 k.freelist)

theorem post_kfree {Q : Unit → KState → Prop} (hp : Allocatable p)
    (hpanic : k.pageRefCount p ≤ 0 → E .decrementReference)
    (hkeep : 1 < k.pageRefCount p →
      Q () { k with pageRefCount := update k.pageRefCount p (k.pageRefCount p - 1) })
    (hfree : k.pageRefCount p = 1 →
      Q () { mem := update k.mem p (freedPage k), freelist := p * pgsize,
             pageRefCount := update k.pageRefCount p 0 }) :
    Post (kfree (p * pgsize)) k Q E := by
  have haddr : ¬ (p * pgsize % pgsize ≠ 0 ∨ p * pgsize < kernelEnd ∨ phystop ≤ p * pgsize) := by
    have hmod := Nat.mul_mod_left p pgsize
    have hlow := hp.1
    have hhigh := hp.2
    omega
  unfold kfree kfreeDrop
  rw [if_neg haddr]
  refine Post.bind (post_decrement ?_ ?_) <;> rw [div_page]
  · exact hpanic
  · intro hpos
    split
    · exact Post.pure (hkeep (by omega))
    · have hone : k.pageRefCount p = 1 := by omega
      refine Post.bind (Post.modify (Post.modify ?_))
      simp only [div_pgsize, writeWord, update_self, update_idem]
      rw [show k.pageRefCount p - 1 = 0 by omega]
      exact hfree hone

theorem of_post_kfree {Q : Unit → KState → Prop} (hp : Allocatable p) (h : Post (kfree (p * pgsize)) k Q E) :
    (1 < k.pageRefCount p → Q () { k with pageRefCount := update k.pageRefCount p (k.pageRefCount p - 1) }) ∧
      (k.pageRefCount p = 1 → Q () { mem := update k.mem p (freedPage k), freelist := p * pgsize, pageRefCount := update k.pageRefCount p 0 }) := by
  constructor
  · intro hmany
    have hrun : Post (kfree (p * pgsize)) k (fun _ k' => k' = _) fun _ => False := post_kfree hp (fun hle => by omega) (fun _ => rfl) fun hone => by omega
    obtain ⟨_, _, hx, rfl⟩ := hrun.exists_ok
    exact h.of_ok hx
  · intro hone
    have hrun : Post (kfree (p * pgsize)) k (fun _ k' => k' = _) fun _ => False := post_kfree hp (fun hle => by omega) (fun hmany => by omega) fun _ => rfl
    obtain ⟨_, _, hx, rfl⟩ := hrun.exists_ok
    exact h.of_ok hx

theorem post_kallocPop {Q : ℕ → KState → Prop} (hchain : FreeChain k.mem k.freelist free) (hempty : free = [] → Q 0 k)
    (hpanic : ∀ p rest, free = p :: rest → k.pageRefCount p < 0 → E .incrementReference)
    (hpop : ∀ p rest, free = p :: rest → 0 ≤ k.pageRefCount p → FreeChain k.mem (k.mem p 0).toNat rest →
      Q (p * pgsize) { k with
        freelist := (k.mem p 0).toNat
        pageRefCount := update k.pageRefCount p (toInt32 (k.pageRefCount p + 1)) }) :
    Post kallocPop k Q E := by
  refine Post.bind (Post.get ?_)
  dsimp only
  split
  · have hnil : free = [] := FreeChain.head_eq_zero (by rw [← ‹k.freelist = 0›]; exact hchain)
    exact Post.pure (hempty hnil)
  · obtain ⟨p, rest, heq, hhead, _, hrest⟩ := hchain.exists_cons ‹_›
    refine Post.bind (Post.set ?_)
    refine Post.bind (post_increment ?_ ?_) <;> simp only [hhead, div_page, div_pgsize]
    · exact hpanic p rest heq
    · intro hnonneg
      exact Post.pure (hpop p rest heq hnonneg hrest)

theorem post_kalloc {Q : ℕ → KState → Prop} (hchain : FreeChain k.mem k.freelist free) (hempty : free = [] → Q 0 k)
    (hpanic : ∀ p rest, free = p :: rest → k.pageRefCount p < 0 → E .incrementReference)
    (hpop : ∀ p rest, free = p :: rest → 0 ≤ k.pageRefCount p → FreeChain k.mem (k.mem p 0).toNat rest →
      Q (p * pgsize) { mem := update k.mem p (fun _ => repeatByte 5), freelist := (k.mem p 0).toNat,
                       pageRefCount := update k.pageRefCount p (toInt32 (k.pageRefCount p + 1)) }) :
    Post kalloc k Q E := by
  refine Post.bind (post_kallocPop hchain ?_ hpanic ?_)
  · intro hnil
    exact Post.pure (hempty hnil)
  · intro p rest heq hnonneg hrest
    have hp := allocatable_iff.mp (hchain.allocatable (p := p) (by rw [heq]; exact List.mem_cons_self ..))
    rw [if_neg (by unfold pgsize; omega)]
    refine Post.bind (Post.modify (Post.pure ?_))
    simp only [div_pgsize]
    exact hpop p rest heq hnonneg hrest

/-! ### The allocator after `kinit` -/

structure FreshRange (first last : ℕ) (k : KState) (free : List ℕ) : Prop where
  chain : FreeChain k.mem k.freelist free
  nodup : free.Nodup
  mem_iff : ∀ p, p ∈ free ↔ first ≤ p ∧ p < last
  count_eq : ∀ p, k.pageRefCount p = 0

theorem FreshRange.length_eq {first last : ℕ} (h : FreshRange first last k free) : free.length = last - first := by
  have hset : free.toFinset = Finset.Ico first last := by
    ext p
    rw [List.mem_toFinset, Finset.mem_Ico]
    exact h.mem_iff p
  rw [← List.toFinset_card_of_nodup h.nodup, hset, Nat.card_Ico]

theorem FreshRange.freed {first last : ℕ} (h : FreshRange first last k free) (hle : first ≤ last)
    (halloc : Allocatable last) :
    FreshRange first (last + 1)
      { mem := update k.mem last (freedPage k), freelist := last * pgsize, pageRefCount := fun _ => 0 }
      (last :: free) := by
  have hnot : last ∉ free := by
    rw [h.mem_iff]
    omega
  refine ⟨?_, List.nodup_cons.mpr ⟨hnot, h.nodup⟩, fun p => ?_, fun _ => rfl⟩
  · have hpush := (h.chain.update hnot fun _ => repeatByte 1).push hnot halloc
    rw [writeWord, update_self, update_idem] at hpush
    exact hpush
  · rw [List.mem_cons, h.mem_iff]
    omega

theorem post_freerange_body {first last : ℕ} (h : FreshRange first last k free) (hle : first ≤ last)
    (halloc : Allocatable last) :
    Post (do
        let _ ← incrementAndGetPageReference (last * pgsize)
        kfree (last * pgsize)
        pure none : KernelM (Option Unit)) k
      (fun b k' => b = none ∧ ∃ free', FreshRange first (last + 1) k' free') (fun _ => False) := by
  have hzero := h.count_eq last
  refine Post.bind (post_increment ?_ ?_) <;> rw [div_page, hzero]
  · intro hneg
    omega
  · intro _
    have hone : toInt32 (0 + 1) = 1 := rfl
    refine Post.bind (post_kfree halloc ?_ ?_ ?_) <;> simp only [update_self, hone]
    · intro hle'
      omega
    · intro hlt
      omega
    · intro _
      refine Post.pure ⟨rfl, last :: free, ?_⟩
      have hcount : update (update k.pageRefCount last 1) last 0 = fun _ => 0 := by
        funext p
        rw [update_idem]
        by_cases hp : p = last
        · rw [hp, update_self]
        · rw [update_of_ne hp, h.count_eq p]
      rw [hcount]
      exact h.freed hle halloc

/-- `kinit` does not panic, and puts every allocatable page on the free list. -/
theorem post_kinit (mem : ℕ → Page) :
    Post kinit (boot mem) (fun _ k => ∃ free, FreshRange 0x80243 0x88000 k free) (fun _ => False) := by
  have hstart : pgroundup kernelEnd = 0x80243 * pgsize := by decide
  have hsteps : (phystop - pgroundup kernelEnd) / pgsize = 32189 := by decide
  unfold kinit initializePageReferenceCount freerange
  rw [hsteps, hstart]
  refine Post.bind (Post.modify ?_)
  refine Post.step (R := fun _ k => ∃ free, FreshRange 0x80243 0x88000 k free) ?_ fun _ _ hk => Post.pure hk
  refine Post.loop (I := fun i k => ∃ free, FreshRange 0x80243 (0x80243 + i) k free) ?_ ?_ ?_
  · exact ⟨[], rfl, List.nodup_nil, fun p => by simp, fun _ => rfl⟩
  · rintro i k hi ⟨free, hfree⟩
    have haddr : 0x80243 * pgsize + i * pgsize = (0x80243 + i) * pgsize := (Nat.add_mul _ _ _).symm
    rw [haddr]
    have hbody := post_freerange_body hfree (Nat.le_add_right _ _) (allocatable_iff.mpr (by omega))
    refine hbody.mono (fun b k' hk' => ?_) fun _ he => he
    rw [hk'.1]
    exact hk'.2
  · intro k hk
    rw [show 0x80243 + 32189 = 0x88000 from rfl] at hk
    exact hk

end AdvancedXv6.Kernel
