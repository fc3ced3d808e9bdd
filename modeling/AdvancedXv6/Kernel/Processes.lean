import AdvancedXv6.Kernel.Layout

/-!
# Processes and their address spaces

What `allocproc`, `growproc`, `fork`, `exec`, `freeproc` and `userinit` do to the address space of the process that calls them, to the new one, and to those of the others.
-/

namespace AdvancedXv6.Kernel

open Function Prog

variable {k k' k'' : KState} {L L' L'' : Ledger} {r r' t sp n : ℕ} {p np : Proc} {E : Panic → Prop} {mine : ℕ → Prop}

def Proc.root (p : Proc) : ℕ := p.pagetable / pgsize

def Proc.frame (p : Proc) : ℕ := p.trapframe / pgsize

/-- The process has an address space with the layout that goes with its size, and a trapframe. -/
structure Proc.Lives (p : Proc) (k : KState) (L : Ledger) : Prop where
  pagetable_eq : p.pagetable = p.root * pgsize
  trapframe_eq : p.trapframe = p.frame * pgsize
  size_le : p.sz ≤ trapframeVa
  layout : Layout p.root p.frame (pages p.sz) k L
  held : 0 < L.held p.frame

theorem Proc.lives_of_layout {sz : ℕ} (state : ProcState) (hsz : sz ≤ trapframeVa) (h : Layout r t (pages sz) k L) (hheld : 0 < L.held t) :
    Proc.Lives ⟨state, r * pgsize, t * pgsize, sz⟩ k L := by
  have hroot : Proc.root ⟨state, r * pgsize, t * pgsize, sz⟩ = r := div_pgsize r
  have hframe : Proc.frame ⟨state, r * pgsize, t * pgsize, sz⟩ = t := div_pgsize t
  refine ⟨by rw [hroot], by rw [hframe], hsz, ?_, ?_⟩
  · rw [hroot, hframe]
    exact h
  · rw [hframe]
    exact hheld

theorem Proc.Lives.eq (h : p.Lives k L) : p = ⟨p.state, p.root * pgsize, p.frame * pgsize, p.sz⟩ := by
  rw [← h.pagetable_eq, ← h.trapframe_eq]

theorem Proc.Lives.congr {p' : Proc} (h : p.Lives k L) (hroot : p'.pagetable = p.pagetable)
    (hframe : p'.trapframe = p.trapframe) (hsz : p'.sz ≤ trapframeVa)
    (hlayout : Layout p.root p.frame (pages p'.sz) k' L') (hheld : ∀ x, L.held x ≤ L'.held x) : p'.Lives k' L' := by
  have hr : p'.root = p.root := by rw [Proc.root, Proc.root, hroot]
  have hf : p'.frame = p.frame := by rw [Proc.frame, Proc.frame, hframe]
  refine ⟨?_, ?_, hsz, ?_, ?_⟩
  · rw [hr, hroot]
    exact h.pagetable_eq
  · rw [hf, hframe]
    exact h.trapframe_eq
  · rw [hr, hf]
    exact hlayout
  · rw [hf]
    exact Nat.lt_of_lt_of_le h.held (hheld _)

theorem Proc.Lives.stays (h : p.Lives k L) (hinv : Inv k L) : Stays p.root p.frame (pages p.sz) k L k := ⟨L, Spares.refl hinv _, h.layout⟩

structure Proc.Moved (p : Proc) (k : KState) (L : Ledger) (p' : Proc) (k' : KState) (L' : Ledger) : Prop where
  spares : Spares (fun x => x = p.root ∨ L.role x ≠ .root) k L k' L'
  lives : p'.Lives k' L'
  state_eq : p'.state = p.state
  frame_eq : p'.frame = p.frame
  root_new : p'.root = p.root ∨ L.role p'.root ≠ .root

theorem Proc.Lives.moved {p' : Proc} (h : p.Lives k L) (hspares : Spares (· = p.root) k L k' L')
    (hstate : p'.state = p.state) (hroot : p'.pagetable = p.pagetable)
    (hframe : p'.trapframe = p.trapframe) (hsz : p'.sz ≤ trapframeVa) (hlayout : Layout p.root p.frame (pages p'.sz) k' L') : p.Moved k L p' k' L' :=
  ⟨hspares.mono fun _ hx => .inl hx, h.congr hroot hframe hsz hlayout hspares.held_le, hstate, by rw [Proc.frame, Proc.frame, hframe],
    .inl (by rw [Proc.root, Proc.root, hroot])⟩

theorem readable_first : Readable (pteW ||| pteR ||| pteX ||| pteU) := ⟨isFlags_of_pteFlags (by decide), by decide⟩

theorem Dropped.spares_fresh (h : Dropped k' L' t k'' L'') (hspares : Spares mine k L k' L') (ht : L.held t = 0) : Spares mine k L k'' L'' := by
  refine ⟨h.inv, fun x hx => (h.keeps.root_iff x).trans (hspares.root_iff x hx), fun x u hu hx => ?_, fun x => ?_⟩
  · rw [h.view_eq, hspares.view_eq x u hu hx]
  · rw [h.held_eq]
    by_cases hxt : x = t
    · rw [hxt, ht]
      exact Nat.zero_le _
    · rw [update_of_ne hxt]
      exact hspares.held_le x

section
variable (hE : ∀ e, e ∉ layoutPanics → E e)
include hE

section

variable (h : p.Lives k L) (hinv : Inv k L)
include h hinv

theorem Proc.Lives.post_growproc (n : ℤ) :
    Post (growproc p n) k (fun out k' => ∃ L', p.Moved k L out.1 k' L') E := by
  have hsame : p.Moved k L p k L := h.moved (Spares.refl hinv _) rfl rfl rfl h.size_le h.layout
  unfold growproc
  rw [h.pagetable_eq]
  split
  · refine Post.bind (h.layout.post_uvmalloc hinv h.size_le (isFlags_of_pteFlags (by decide))
      (fun k' L' hspares hlayout => ?_) fun k' L' hle hspares hlayout => ?_)
    · rw [if_pos rfl]
      exact Post.pure ⟨L', h.moved hspares rfl rfl rfl h.size_le hlayout⟩
    · split
      · rename_i hzero
        have hsz : p.sz = 0 := by omega
        rw [hzero, ← hsz] at hlayout
        exact Post.pure ⟨L', h.moved hspares rfl rfl rfl h.size_le hlayout⟩
      · exact Post.pure ⟨L', h.moved hspares rfl h.pagetable_eq.symm rfl hle hlayout⟩
  · split
    · refine Post.bind (h.layout.post_uvmdealloc hE hinv h.size_le fun k' L' hspares hlayout =>
        Post.pure ⟨L', h.moved hspares rfl h.pagetable_eq.symm rfl ?_ hlayout⟩)
      exact Nat.le_trans (Nat.min_le_left _ _) h.size_le
    · exact Post.pure ⟨L, hsame⟩

/-- A failing `exec` gives the new address space back, and a successful one the old. -/
theorem Proc.Lives.post_exec (ip : Option Inode) (argv : List (List (BitVec 8))) :
    Post (exec sp p ip argv) k (fun out k' => ∃ L', p.Moved k L out.1 k' L') E := by
  have hsame : p.Moved k L p k L := h.moved (Spares.refl hinv _) rfl rfl rfl h.size_le h.layout
  unfold exec
  cases ip with
  | none => exact Post.pure ⟨L, hsame⟩
  | some ip =>
    simp only
    split
    · exact Post.pure ⟨L, hsame⟩
    split
    · exact Post.pure ⟨L, hsame⟩
    rw [h.trapframe_eq, h.pagetable_eq]
    refine Post.bind (hinv.post_procPagetable (fun k1 L1 hev _ => ?_) fun r' k1 L1 hopened => ?_)
    · rw [if_pos rfl]
      have hspares : Spares (· = p.root) k L k1 L1 := hev.spares fun _ _ => False.elim
      exact Post.pure ⟨L1, h.moved hspares rfl rfl rfl h.size_le (h.layout.keep hev.keeps (fun _ => False.elim) fun _ => False.elim)⟩
    · have hlayout' := hopened.layout
      have hfresh : L.role r' ≠ .root := by
        rw [hopened.extended.fresh]
        nofun
      have hne : p.root ≠ r' := by
        rintro hroot
        exact hfresh (hroot ▸ h.layout.root)
      have hnew := hopened.extended.spares
      rw [if_neg (hopened.extended.inv.allocatable_ne_zero (by rw [hlayout'.root]; nofun))]
      refine Post.step (Stays.post_makeImage hE ⟨L1, Spares.refl hopened.extended.inv _, hlayout'⟩) fun out k2 hk2 => ?_
      obtain ⟨sz, argc⟩ := out
      obtain ⟨hsz, L2, hspares2, hlayout2⟩ := hk2
      have hspares : Spares (· = r') k L k2 L2 := hnew.trans hspares2
      have hold : Layout p.root p.frame (pages p.sz) k2 L2 := hspares.layout hne h.layout
      cases argc with
      | none =>
        refine Post.bind (hlayout2.post_procFreepagetable hE hspares.inv hsz fun k3 L3 hreleased => Post.pure ⟨L3, ?_⟩)
        have hall := hspares.trans hreleased.spares
        refine ⟨hall.mono fun x hx => .inr (hx ▸ hfresh), h.congr rfl rfl h.size_le (hall.layout hne h.layout) hall.held_le, rfl, rfl, .inl rfl⟩
      | some argc =>
        refine Post.bind (hold.post_procFreepagetable hE hspares.inv h.size_le fun k3 L3 hreleased => Post.pure ⟨L3, ?_⟩)
        have hnewLayout : Layout r' p.frame (pages sz) k3 L3 := hreleased.spares.layout (Ne.symm hne) hlayout2
        have hall : Spares (fun x => x = p.root ∨ L.role x ≠ .root) k L k3 L3 :=
          (hspares.mono fun x hx => .inr (hx ▸ hfresh)).trans (hreleased.spares.mono fun x hx => .inl hx)
        have hlives := Proc.lives_of_layout p.state hsz hnewLayout (Nat.lt_of_lt_of_le h.held (hall.held_le _))
        have hroot : Proc.root ⟨p.state, r' * pgsize, p.frame * pgsize, sz⟩ = r' := div_pgsize r'
        have hframe : Proc.frame ⟨p.state, r' * pgsize, p.frame * pgsize, sz⟩ = p.frame := div_pgsize p.frame
        exact ⟨hall, hlives, rfl, hframe, .inr (by rw [hroot]; exact hfresh)⟩

theorem Proc.Lives.post_freeproc {Q : Proc → KState → Prop}
    (hdone : ∀ k1 L1 k' L', Dropped k L p.frame k1 L1 → Released p.root k1 L1 k' L' → Q Proc.empty k') : Post (freeproc p) k Q E := by
  have hlayout := h.layout
  rw [h.eq]
  refine hinv.post_freeproc hlayout.root h.held h.size_le (fun _ => hE _ (by decide)) (fun hex => ?_) (fun hex => ?_) hdone
  · rcases hex with hframe | htramp | ⟨u, hu, hvalid⟩
    · rw [hlayout.frame_valid] at hframe
      cases hframe
    · rw [hlayout.trampoline_valid] at htramp
      cases htramp
    · rw [hlayout.valid_of_lt hu] at hvalid
      cases hvalid
  · obtain ⟨u, hge, hu, hvalid⟩ := hex
    rw [hlayout.not_valid hu hge] at hvalid
    cases hvalid

end

structure Proc.Made (np : Proc) (k : KState) (L : Ledger) (k' : KState) (L' : Ledger) : Prop where
  spares : Spares (fun x => L.role x ≠ .root) k L k' L'
  lives : np.Lives k' L'
  root_new : L.role np.root ≠ .root
  frame_new : L.held np.frame = 0
  free_le : L.free.length ≤ L'.free.length + 6

theorem Inv.post_allocproc (hinv : Inv k L) : Post (allocproc Proc.empty) k (fun out k' => ∃ L', match out with
    | none => Spares (fun x => L.role x ≠ .root) k L k' L'
    | some np => np.sz = 0 ∧ np.Made k L k' L') E := by
  unfold allocproc
  refine Post.bind (hinv.post_kalloc (fun _ => ?_) fun t k1 L1 htaken => ?_)
  · rw [if_pos rfl]
    exact Post.bind (post_freeproc_empty rfl rfl (Post.pure ⟨L, Spares.refl hinv _⟩))
  · have hspares1 : Spares (fun x => L.role x ≠ .root) k L k1 L1 := by
      refine ⟨htaken.inv, fun x _ => htaken.keeps.root_iff x, fun x u _ _ => by rw [htaken.view_eq], fun x => ?_⟩
      rw [htaken.held_eq]
      by_cases hx : x = t
      · rw [hx, htaken.held_zero]
        exact Nat.zero_le _
      · rw [update_of_ne hx]
    have hheld1 : L1.held t = 1 := by rw [htaken.held_eq, update_self]
    rw [if_neg htaken.address_ne_zero]
    refine Post.bind (htaken.inv.post_procPagetable (fun k2 L2 hev _ => ?_) fun r k2 L2 hopened => ?_)
    · rw [if_pos rfl]
      have hheld2 : 0 < L2.held t := by
        rw [hev.held_eq, hheld1]
        decide
      refine Post.bind (hev.inv.post_freeproc_frame hheld2 rfl rfl (fun _ => hE _ (by decide)) fun k3 L3 hdropped => Post.pure ⟨L3, ?_⟩)
      exact hdropped.spares_fresh (hspares1.trans (hev.spares fun _ _ => False.elim)) htaken.held_zero
    · have hlayout := hopened.layout
      have hnew : L.role r ≠ .root := fun hroot => by
        have hroot1 := (htaken.keeps.root_iff r).mpr hroot
        rw [hopened.extended.fresh] at hroot1
        cases hroot1
      have hheld2 : 0 < L2.held t := by
        rw [hopened.extended.held_eq, hheld1]
        decide
      rw [if_neg (hopened.extended.inv.allocatable_ne_zero (by rw [hlayout.root]; nofun))]
      refine Post.pure ⟨L2, rfl, hspares1.trans (hopened.extended.spares.mono fun x hx =>
        hx ▸ hnew), Proc.lives_of_layout .used (Nat.zero_le _) hlayout hheld2, ?_, ?_, ?_⟩
      · rw [Proc.root, div_pgsize]
        exact hnew
      · rw [Proc.frame, div_pgsize]
        exact htaken.held_zero
      · have hle := hopened.free_le
        rw [htaken.free_eq, List.length_cons]
        omega

/-- What `fork` leaves: the parent as it was, and a child or nothing. -/
structure Proc.Forks (p : Proc) (k : KState) (L : Ledger) (np : Proc) (k' : KState) (L' : Ledger) : Prop where
  spares : Spares (fun x => x = p.root ∨ L.role x ≠ .root) k L k' L'
  lives : p.Lives k' L'
  child : np = Proc.empty ∨ np.state = .runnable ∧ np.Lives k' L' ∧ L.role np.root ≠ .root ∧ L.held np.frame = 0

theorem Proc.Lives.post_fork (h : p.Lives k L) (hinv : Inv k L) : Post (fork p Proc.empty) k (fun out k' => ∃ L', p.Forks k L out.1 k' L') E := by
  have hroot := h.layout.root
  unfold fork
  refine Post.step (hinv.post_allocproc hE) fun out k1 hout => ?_
  obtain ⟨L1, hout⟩ := hout
  cases out with
  | none =>
    have hspares : Spares (fun x => L.role x ≠ .root) k L k1 L1 := hout
    exact Post.pure ⟨L1, hspares.mono fun x hx => .inr hx, h.congr rfl rfl h.size_le
      (hspares.layout (fun hnot => hnot hroot) h.layout) hspares.held_le, .inl rfl⟩
  | some np =>
    obtain ⟨hzero, hmade⟩ := hout
    have hne : p.root ≠ np.root := by
      intro heq
      exact hmade.root_new (heq ▸ hroot)
    have hold := hmade.spares.layout (fun hnot => hnot hroot) h.layout
    have hnew : Layout np.root np.frame 0 k1 L1 := by
      have hlayout := hmade.lives.layout
      rw [hzero] at hlayout
      exact hlayout
    simp only [h.pagetable_eq, hmade.lives.pagetable_eq]
    refine Post.bind (hold.post_uvmcopy hE hnew hmade.spares.inv hne h.size_le (fun k2 L2 hspares hparent => ?_) fun k2 L2 hspares hparent hchild => ?_)
    · have hall : Spares (fun x => x = p.root ∨ L.role x ≠ .root) k L k2 L2 :=
        (hmade.spares.mono fun x hx => .inr hx).trans (hspares.mono fun x hx => .inl hx)
      have hlives : np.Lives k2 L2 := by
        refine hmade.lives.congr rfl rfl hmade.lives.size_le ?_ hspares.held_le
        exact hspares.layout (Ne.symm hne) hmade.lives.layout
      rw [if_pos (by decide)]
      refine Post.bind (hlives.post_freeproc hE hspares.inv fun k3 L3 k4 L4 hdropped hreleased => Post.pure ⟨L4, ?_⟩)
      have hafter := hdropped.spares_fresh hall hmade.frame_new
      have hend := hafter.trans (hreleased.spares.mono fun x hx => .inr (hx ▸ hmade.root_new))
      refine ⟨hend, h.congr rfl rfl h.size_le ?_ hend.held_le, .inl rfl⟩
      refine hreleased.spares.layout hne (hparent.congr ((hdropped.keeps.root_iff _).mpr hparent.root) fun u _ => ?_)
      rw [hdropped.view_eq]
    · have hall : Spares (fun x => x = p.root ∨ L.role x ≠ .root) k L k2 L2 :=
        (hmade.spares.mono fun x hx => .inr hx).trans (hspares.mono fun x hx => hx.imp_right fun heq => by rw [heq]; exact hmade.root_new)
      have hchildLives : Proc.Lives ⟨.runnable, np.root * pgsize, np.trapframe, p.sz⟩ k2 L2 :=
        hmade.lives.congr hmade.lives.pagetable_eq.symm rfl h.size_le hchild hspares.held_le
      rw [if_neg (by decide)]
      refine Post.pure ⟨L2, hall, h.congr rfl rfl h.size_le hparent hall.held_le, .inr ⟨rfl, hchildLives, ?_, hmade.frame_new⟩⟩
      rw [Proc.root, div_pgsize]
      exact hmade.root_new

theorem Layout.post_uvmfirst (h : Layout r t 0 k L) (hinv : Inv k L) (hfree : 4 ≤ L.free.length) (src : List (BitVec 8)) :
    Post (uvmfirst (r * pgsize) src) k (fun _ k' => ∃ L', Spares (· = r) k L k' L' ∧ Layout r t 1 k' L') E := by
  have hsmall := userPages_eq
  unfold uvmfirst
  split
  · exact Post.panic (hE _ (by decide))
  refine Post.bind (hinv.post_kalloc (fun _ => ?_) fun p k1 L1 htaken => ?_)
  · rw [if_pos rfl]
    exact Post.panic (hE _ (by decide))
  · rw [if_neg htaken.address_ne_zero]
    rw [htaken.free_eq, List.length_cons] at hfree
    refine Post.bind (post_memset ?_)
    have hset := htaken.setPage fun _ => repeatByte 0
    have hr := (hset.keeps.root_iff r).mpr h.root
    have hview : ∀ u, L1.view { k1 with mem := update k1.mem p fun _ => repeatByte 0 } r u = L.view k r u := fun u => by rw [hset.view_eq]
    rw [show (0 : ℕ) = 0 * pgsize from (Nat.zero_mul _).symm]
    refine Post.bind (hset.inv.post_mappages_owned hr (by omega) hset.owned readable_first
      (fun hvalid => ?_) (fun k2 L2 hgrown hempty => ?_) fun k2 L2 hplaced => ?_)
    · rw [hview, h.not_valid (by omega) (Nat.le_refl 0)] at hvalid
      cases hvalid
    · have hle := hgrown.free_le
      rw [hempty, List.length_nil] at hle
      omega
    · have hvalid : (L2.view k2 r 0).has pteV = true := by
        rw [hplaced.view_eq]
        exact leafPte_valid _ _
      have hdata : L2.role p = .data := by
        rw [← hplaced.page_eq]
        exact hplaced.inv.data_of_valid (by omega) hvalid
      have hspares : Spares (· = r) k L k2 L2 := by
        refine ⟨hplaced.inv, fun x _ => (hplaced.keeps.root_iff x).trans (hset.keeps.root_iff x), fun x u hu hx => ?_, fun x => ?_⟩
        · rw [hplaced.keeps.view_eq x u hu fun ht => hx ht.1, hset.view_eq]
        · rw [hplaced.held_eq, hset.held_eq]
          by_cases hx : x = p
          · rw [hx, hset.held_zero]
            exact Nat.zero_le _
          · rw [update_of_ne hx, update_of_ne hx]
      have hlayout : Layout r t 1 k2 L2 := by
        have hsame : Layout r t 0 { k1 with mem := update k1.mem p fun _ => repeatByte 0 } L1 := h.congr hr fun u _ => hview u
        refine hsame.resize hplaced.keeps (by omega) (fun u ht => by rw [ht.2]; omega) (fun u _ ht => ?_) fun u _ ht => ?_
        · rw [ht.2, hvalid]
          rfl
        · have hne : u ≠ 0 := fun hzero => ht ⟨rfl, hzero⟩
          omega
      exact post_memmoveIn_page (Stays.setBytes hspares hlayout hdata 0 src)

theorem Inv.post_userinit (hinv : Inv k L) (hfree : 10 ≤ L.free.length) :
    Post (userinit Proc.empty) k (fun p k' => p.state = .runnable ∧ ∃ L', Spares (fun x => L.role x ≠ .root) k L k' L' ∧ p.Lives k' L' ∧
      L.held p.frame = 0) E := by
  unfold userinit
  refine Post.step (hinv.post_allocproc hE) fun out k1 hout => ?_
  obtain ⟨L1, hout⟩ := hout
  cases out with
  | none => exact Post.panic (hE _ (by decide))
  | some np =>
    obtain ⟨hzero, hmade⟩ := hout
    have hlayout := hmade.lives.layout
    have hle := hmade.free_le
    rw [hzero] at hlayout
    simp only
    rw [hmade.lives.pagetable_eq]
    refine Post.step (Layout.post_uvmfirst hE hlayout hmade.spares.inv (by omega) initcode) fun _ k2 hk2 => ?_
    obtain ⟨L2, hspares, hlayout2⟩ := hk2
    have hall := hmade.spares.trans (hspares.mono fun x hx => by rw [hx]; exact hmade.root_new)
    have hfits : pgsize ≤ trapframeVa := by decide
    have hone : pages pgsize = 1 := rfl
    rw [← hone] at hlayout2
    exact Post.pure ⟨rfl, L2, hall, hmade.lives.congr hmade.lives.pagetable_eq.symm rfl hfits hlayout2 hspares.held_le, hmade.frame_new⟩

end

end AdvancedXv6.Kernel
