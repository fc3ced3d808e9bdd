import AdvancedXv6.Kernel.Spaces

/-!
# Writing to user memory

What the kernel writes to a user page goes to a counted page, so the page tables stay as they are. One round of `copyout` writes to the page that the entry maps, after `handle_page_fault` has been asked to resolve a copy-on-write entry; what the handler returns is not looked at.
-/

namespace AdvancedXv6.Kernel

open Prog

variable {k k' : KState} {L L' : Ledger} {r v p sp : ℕ} {q : PtePtr} {E : Panic → Prop}

def KState.setBytes (k : KState) (p offset : ℕ) (bytes : List (BitVec 8)) : KState :=
  { k with mem := Function.update k.mem p (Page.setBytes (k.mem p) offset bytes) }

variable {bytes src : List (BitVec 8)} {Q : Option ℤ → KState → Prop} {dstva : ℕ}

theorem post_memmoveIn {offset : ℕ} (hoffset : offset < pgsize) {Q : Unit → KState → Prop} (h : Q () (k.setBytes p offset bytes)) :
    Post (memmoveIn (p * pgsize + offset) bytes) k Q E := by
  have hpage : (p * pgsize + offset) / pgsize = p := by
    rw [Nat.mul_comm, Nat.mul_add_div (by decide), Nat.div_eq_of_lt hoffset, Nat.add_zero]
  have hrest : (p * pgsize + offset) % pgsize = offset := by
    rw [Nat.mul_comm, Nat.mul_add_mod, Nat.mod_eq_of_lt hoffset]
  unfold memmoveIn setPage
  refine Post.bind (Post.get (Post.modify ?_))
  rw [hpage, hrest]
  exact h

theorem post_memmoveIn_page {Q : Unit → KState → Prop} (h : Q () (k.setBytes p 0 bytes)) : Post (memmoveIn (p * pgsize) bytes) k Q E := by
  have hpos : 0 < pgsize := by decide
  have hwrite := post_memmoveIn (p := p) (E := E) hpos h
  rw [Nat.add_zero] at hwrite
  exact hwrite

section

variable (h : Inv k L) (hp : L.role p = .data) (offset : ℕ) (bytes : List (BitVec 8))
include h hp

theorem Inv.setBytes : Inv (k.setBytes p offset bytes) L := h.setPage hp _

theorem Inv.view_setBytes :
    L.view (k.setBytes p offset bytes) = L.view k := h.view_setPage hp _

end

def written (src : List (BitVec 8)) (dstva v : ℕ) (page : Page) : Page :=
  Page.setBytes page (max dstva (v * pgsize) - v * pgsize)
    ((src.drop (max dstva (v * pgsize) - dstva)).take
    (pgsize - (max dstva (v * pgsize) - v * pgsize)))

def KState.copyTo (k : KState) (p : ℕ) (src : List (BitVec 8)) (dstva v : ℕ) : KState :=
  { k with mem := Function.update k.mem p (written src dstva v (k.mem p)) }

theorem post_memmoveIn_copy (hoffset : max dstva (v * pgsize) - v * pgsize < pgsize) (hp : p * pgsize ≠ 0)
    (h : Q none (k.copyTo p src dstva v)) : Post (do
      if p * pgsize = 0 then panic .kerneltrap else do
        let here := max dstva (v * pgsize)
        memmoveIn (p * pgsize + (here - v * pgsize)) ((src.drop (here - dstva)).take (pgsize - (here - v * pgsize)))
        pure none) k Q E := by
  rw [if_neg hp]
  exact Post.bind (post_memmoveIn hoffset (Post.pure h))

theorem Inv.post_copyoutPage (h : Inv k L) (hr : L.role r = .root)
    (hoffset : max dstva (v * pgsize) - v * pgsize < pgsize) (hbad : ¬ (v < 2 ^ 26 ∧ UserMapped (L.view k r v)) → Q (some (-1)) k)
    (hpanic : v < 2 ^ 26 → UserMapped (L.view k r v) → (L.view k r v).has pteC = true → isBelowStack sp (v * pgsize) = false → L.free ≠ [] →
      k.pageRefCount (L.view k r v).page < 0 → E .decrementReference)
    (hkept : v < userPages → UserMapped (L.view k r v) →
      ((L.view k r v).has pteC = true → isBelowStack sp (v * pgsize) = false → L.free = []) →
      Q none (k.copyTo (L.view k r v).page src dstva v))
    (hresolved : ∀ p k' L', UserMapped (L.view k r v) → (L.view k r v).has pteC = true → isBelowStack sp (v * pgsize) = false →
      Resolved r v p k L k' L' → Q none (k'.copyTo p src dstva v)) :
    Post (copyoutPage sp (r * pgsize) dstva src (v * pgsize)) k Q E := by
  have hsmall := userPages_eq
  by_cases hv : v < 2 ^ 26
  · unfold copyoutPage
    refine Post.bind (post_walkaddr hr hv (fun hno => ?_) fun huser => ?_)
    · rw [if_pos rfl]
      exact Post.pure (hbad fun hyes => hno hyes.2)
    · have huserv := huser.user h (by omega)
      have hdata := h.data_of_valid huserv huser.1
      have hne : (L.view k r v).page * pgsize ≠ 0 := h.allocatable_ne_zero (by rw [hdata]; nofun)
      have hpage : (L.view k r v).page ≠ 0 := fun hzero => hne (by rw [hzero, Nat.zero_mul])
      obtain ⟨q, hslot, hentry⟩ := Inv.exists_slot huser.1
      have hdiv : v * pgsize / pgsize = v := div_pgsize v
      rw [if_neg hne]
      refine Post.bind (post_walk (page_lt_maxva hv) ?_)
      rw [hslot]
      refine Post.bind (post_readPte ?_)
      rw [hentry, pteFlags_copy]
      cases hcopy : (L.view k r v).has pteC with
      | false => exact Post.bind (Post.pure (post_memmoveIn_copy hoffset hne (hkept huserv huser fun hc => by rw [hcopy] at hc; cases hc)))
      | true =>
        have hwalk : ((L.view k r v).has pteC = true → isBelowStack sp (v * pgsize) = false → L.free = []) →
            Post (do
              let pa0 ← walkaddr (r * pgsize) (v * pgsize)
              if pa0 = 0 then panic .kerneltrap else do
                let here := max dstva (v * pgsize)
                memmoveIn (pa0 + (here - v * pgsize)) ((src.drop (here - dstva)).take (pgsize - (here - v * pgsize)))
                pure none) k Q E :=
          fun hwhy => Post.bind (post_walkaddr hr hv (fun hno => absurd huser hno) fun _ =>
            post_memmoveIn_copy hoffset hne (hkept huserv huser hwhy))
        refine Post.bind (h.post_handlePageFault hr (fun hkill => ?_) (fun _ _ hnone => ?_) (fun _ _ _ hzero => ?_) (fun _ _ _ hplain' => ?_)
          (fun _ hwindow _ hempty => hwalk fun _ _ => hempty) (fun _ hwindow hc hfree hneg => ?_) fun p k' L' _ hwindow hc hres => ?_)
        · rcases hkill with hhigh | hbelow
          · have hlow := page_lt_maxva hv
            omega
          · exact hwalk fun _ hwindow => by rw [hbelow] at hwindow; cases hwindow
        · rw [hslot] at hnone
          cases hnone
        · rw [hdiv] at hzero
          exact absurd hzero hpage
        · rw [hdiv, hcopy] at hplain'
          cases hplain'
        · rw [hdiv] at hneg
          exact hpanic hv huser hcopy hwindow hfree hneg
        · rw [hdiv] at hres
          have hr' : L'.role r = .root := (hres.evolves.keeps.root_iff r).mpr hr
          have huser' : UserMapped (L'.view k' r v) := by
            unfold UserMapped
            rw [hres.view_eq, resolvedPte_valid, resolvedPte_user]
            exact huser
          have hdata' := hres.evolves.inv.data_of_valid huserv huser'.1
          refine Post.bind (post_walkaddr hr' hv (fun hno => absurd huser' hno) fun _ => ?_)
          refine post_memmoveIn_copy hoffset (hres.evolves.inv.allocatable_ne_zero (by rw [hdata']; nofun)) ?_
          rw [hres.page_eq]
          exact hresolved p k' L' huser hcopy hwindow hres
  · unfold copyoutPage
    refine Post.bind (post_walkaddr_high (by omega) ?_)
    rw [if_pos rfl]
    exact Post.pure (hbad fun hyes => hv hyes.1)

end AdvancedXv6.Kernel
