import AdvancedXv6.Kernel.UserCopy

/-!
# The layout of an address space

A process maps its image from address 0 on, one page after the other, and above it the trapframe and the trampoline. The functions that change an address space keep it like that, with the number of pages that goes with the size they return, and leave the other address spaces alone. So none of them meets a mapping that it does not expect.
-/

namespace AdvancedXv6.Kernel

open Prog

variable {k k' k'' : KState} {L L' L'' : Ledger} {r r' v p t sp n : ℕ} {E : Panic → Prop} {mine mine' : ℕ → Prop}

/-- The panics of a function that finds an entry it does not expect. -/
def layoutPanics : List Panic :=
  [.uvmunmapWalk, .uvmunmapNotMapped, .uvmunmapNotLeaf, .uvmcopyPte, .uvmcopyNotPresent,
    .mappagesRemap, .freewalkLeaf, .freewalkDepth]

/-- The address space `r` maps its first `n` pages, the page `t` as its trapframe, and the trampoline. -/
structure Layout (r t n : ℕ) (k : KState) (L : Ledger) : Prop where
  root : L.role r = .root
  le : n ≤ userPages
  user : ∀ u, u < userPages → (L.view k r u).has pteV = decide (u < n)
  frame : L.view k r userPages = trapframePte t
  trampoline : L.view k r (userPages + 1) = trampolinePte
  rest : ∀ u, u < 2 ^ 27 → userPages + 1 < u → L.view k r u = 0

variable {u oldsz newsz sz va : ℕ} {touched : ℕ → ℕ → Prop} {xperm : Pte} {Q : ℕ → KState → Prop} {ip : Inode} {argv : List (List (BitVec 8))}

section

variable (h : Layout r t n k L)
include h

theorem Layout.valid_of_lt (hu : u < n) : (L.view k r u).has pteV = true := by
  rw [h.user u (Nat.lt_of_lt_of_le hu h.le), decide_eq_true hu]

theorem Layout.not_valid (hu : u < userPages) (hn : n ≤ u) : (L.view k r u).has pteV = false := by
  rw [h.user u hu, decide_eq_false (Nat.not_lt.mpr hn)]

theorem Layout.frame_valid : (L.view k r userPages).has pteV = true := by
  rw [h.frame]
  exact leafPte_valid _ _

theorem Layout.trampoline_valid : (L.view k r (userPages + 1)).has pteV = true := by
  rw [h.trampoline]
  decide

theorem Layout.congr (hroot : L'.role r = .root) (hview : ∀ u, u < 2 ^ 27 → L'.view k' r u = L.view k r u) : Layout r t n k' L' := by
  have hsmall := userPages_eq
  refine ⟨hroot, h.le, fun u hu => ?_, ?_, ?_, fun u hu hlt => ?_⟩
  · rw [hview u (by omega), h.user u hu]
  · rw [hview _ (by omega), h.frame]
  · rw [hview _ (by omega), h.trampoline]
  · rw [hview u hu, h.rest u hu hlt]

end

/-- The address spaces other than those of `mine` have not changed. -/
structure Spares (mine : ℕ → Prop) (k : KState) (L : Ledger) (k' : KState) (L' : Ledger) : Prop where
  inv : Inv k' L'
  root_iff : ∀ x, ¬ mine x → (L'.role x = .root ↔ L.role x = .root)
  view_eq : ∀ x u, u < 2 ^ 27 → ¬ mine x → L'.view k' x u = L.view k x u
  held_le : ∀ x, L.held x ≤ L'.held x

theorem Spares.refl (h : Inv k L) (mine : ℕ → Prop) : Spares mine k L k L := ⟨h, fun _ _ => Iff.rfl, fun _ _ _ _ => rfl, fun _ => Nat.le_refl _⟩

theorem Spares.trans (h : Spares mine k L k' L') (h' : Spares mine k' L' k'' L'') : Spares mine k L k'' L'' :=
  ⟨h'.inv, fun x hx => (h'.root_iff x hx).trans (h.root_iff x hx), fun x u hu hx => (h'.view_eq x u hu hx).trans (h.view_eq x u hu hx),
    fun x => Nat.le_trans (h.held_le x) (h'.held_le x)⟩

theorem Spares.mono (h : Spares mine k L k' L') (hle : ∀ x, mine x → mine' x) : Spares mine' k L k' L' :=
  ⟨h.inv, fun x hx => h.root_iff x fun hm => hx (hle x hm), fun x u hu hx => h.view_eq x u hu fun hm => hx (hle x hm), h.held_le⟩

theorem Spares.layout (h : Spares mine k L k' L') (hr : ¬ mine r) (hlayout : Layout r t n k L) : Layout r t n k' L' :=
  hlayout.congr ((h.root_iff r hr).mpr hlayout.root) fun u hu => h.view_eq r u hu hr

theorem Evolves.spares (h : Evolves touched k L k' L') (ht : ∀ x u, touched x u → mine x) : Spares mine k L k' L' :=
  ⟨h.inv, fun x _ => h.keeps.root_iff x, fun x u hu hx => h.keeps.view_eq x u hu fun htouch => hx (ht x u htouch), fun x => by rw [h.held_eq]⟩

theorem Extended.spares (h : Extended r k L k' L') : Spares (· = r) k L k' L' :=
  ⟨h.inv, fun x hx => (h.root_iff x).trans (or_iff_left hx), fun x u hu hx => h.view_eq x u hu hx, fun x => by rw [h.held_eq]⟩

theorem Released.spares (h : Released r k L k' L') : Spares (· = r) k L k' L' :=
  ⟨h.inv, fun x hx => (h.root_iff x).trans (and_iff_left hx), fun x u hu hx => h.view_eq x u hu hx, fun x => by rw [h.held_eq]⟩

theorem Layout.resize {n' : ℕ} (h : Layout r t n k L) (hkeeps : Keeps touched k L k' L') (hn' : n' ≤ userPages)
    (hrange : ∀ u, touched r u → u < userPages) (hvalid : ∀ u, u < userPages → touched r u → (L'.view k' r u).has pteV = decide (u < n'))
    (hrest : ∀ u, u < userPages → ¬ touched r u → (u < n ↔ u < n')) : Layout r t n' k' L' := by
  have hsmall := userPages_eq
  have hhigh (u : ℕ) := hkeeps.view_high (u := u) hrange
  refine ⟨(hkeeps.root_iff r).mpr h.root, hn', fun u hu => ?_, ?_, ?_, fun u hu hlt => ?_⟩
  · by_cases ht : touched r u
    · exact hvalid u hu ht
    · rw [hkeeps.view_eq r u (by omega) ht, h.user u hu, decide_eq_decide]
      exact hrest u hu ht
  · rw [hhigh _ (by omega) (by omega), h.frame]
  · rw [hhigh _ (by omega) (by omega), h.trampoline]
  · rw [hhigh u hu (by omega), h.rest u hu hlt]

theorem Layout.keep (h : Layout r t n k L) (hkeeps : Keeps touched k L k' L') (huser : ∀ u, touched r u → u < userPages)
    (hvalid : ∀ u, touched r u → (L'.view k' r u).has pteV = (L.view k r u).has pteV) : Layout r t n k' L' :=
  h.resize hkeeps h.le huser (fun u hu ht => (hvalid u ht).trans (h.user u hu)) fun _ _ _ => Iff.rfl

section

variable (h : Inv k L) (hn : n ≤ userPages) (hvalid : ∀ u, u < n → (L.view k r u).has pteV = true)
include h hn hvalid

theorem Inv.mapsData : MapsData r 0 n k L := by
  have hsmall := userPages_eq
  refine ⟨fun u _ hu => hvalid u (by omega), fun u _ hu => h.read_of_valid (by omega) (hvalid u (by omega)),
    fun u _ hu => h.data_of_valid (by omega) (hvalid u (by omega)), fun u u' _ hu _ hu' heq => ?_⟩
  exact (h.shares.shared r u r u' (by omega) (by omega) (hvalid u (by omega)) (hvalid u' (by omega)) heq).1

/-- There is not enough memory for an image that reaches the trapframe. -/
theorem Inv.length_le : n ≤ 0x7DBD :=
  (h.mapsData hn hvalid).length_le h.forest

end

theorem Opened.layout (h : Opened r t k L k' L') : Layout r t 0 k' L' := by
  have hsmall := userPages_eq
  refine ⟨h.extended.root, Nat.zero_le _, fun u hu => ?_, h.trapframe_eq, h.trampoline_eq, fun u hu hlt => h.user_eq u hu (by omega) (by omega)⟩
  rw [h.user_eq u (by omega) (by omega) (by omega), decide_eq_false (Nat.not_lt_zero u)]
  exact zero_not_valid

/-! ### The functions of `vm.c` -/

section
variable (hE : ∀ e, e ∉ layoutPanics → E e)
include hE

omit hE in
theorem Layout.post_uvmalloc (h : Layout r t (pages oldsz) k L) (hinv : Inv k L) (hold : oldsz ≤ trapframeVa) (hx : IsFlags xperm)
    (hfail : ∀ k' L', Spares (· = r) k L k' L' → Layout r t (pages oldsz) k' L' → Q 0 k')
    (hdone : ∀ k' L', max oldsz newsz ≤ trapframeVa → Spares (· = r) k L k' L' → Layout r t (pages (max oldsz newsz)) k' L' → Q (max oldsz newsz) k') :
    Post (uvmalloc (r * pgsize) oldsz newsz xperm) k Q E := by
  have hsmall := userPages_eq
  refine hinv.post_uvmalloc h.root hold hx (.inr h.frame_valid) (fun hex => ?_) (fun k' L' _ hall => ?_) (fun hlt => ?_)
    (fun k' L' hev => hfail k' L' (hev.spares fun _ _ => False.elim)
      (h.keep hev.keeps (fun _ => False.elim) fun _ => False.elim)) fun k' L' hle hpages hall => ?_
  · obtain ⟨u, hge, _, hu, hvalid⟩ := hex
    rw [h.not_valid hu hge] at hvalid
    cases hvalid
  · -- the trapframe is out of reach: the memory ends before
    have hlength := hall.evolves.inv.length_le (r := r) (Nat.le_refl userPages) fun u hu => ?_
    · omega
    · by_cases hin : u < pages oldsz
      · rw [hall.evolves.keeps.view_eq r u (by omega) (by rintro ⟨_, _, _⟩; omega)]
        exact h.valid_of_lt hin
      · exact hall.valid u (by omega) (by omega)
  · have hmax : max oldsz newsz = oldsz := Nat.max_eq_left (Nat.le_of_lt hlt)
    have hgoal := hdone k L (by omega) (Spares.refl hinv _) (by rw [hmax]; exact h)
    rw [hmax] at hgoal
    exact hgoal
  · have hmax : max oldsz newsz = newsz := Nat.max_eq_right hle
    have hmono := pages_mono hle
    have hfits : newsz ≤ trapframeVa := by
      rw [trapframeVa_eq]
      unfold pages pgsize at *
      omega
    have hgoal := hdone k' L' (by omega) (hall.evolves.spares fun _ _ ht => ht.1) (by
      rw [hmax]
      refine h.resize hall.evolves.keeps hpages (fun u ht => ?_) (fun u hu ht => ?_) fun u hu ht => ?_
      · obtain ⟨_, _, _⟩ := ht
        omega
      · obtain ⟨_, hge, hlt⟩ := ht
        rw [hall.valid u hge hlt, decide_eq_true (by omega)]
      · have hout : ¬ (pages oldsz ≤ u ∧ u < pages oldsz + (pages newsz - pages oldsz)) := fun hin => ht ⟨rfl, hin⟩
        omega)
    rw [hmax] at hgoal
    exact hgoal

theorem Layout.post_uvmdealloc (h : Layout r t (pages oldsz) k L) (hinv : Inv k L) (hold : oldsz ≤ trapframeVa)
    (hdone : ∀ k' L', Spares (· = r) k L k' L' → Layout r t (pages (min oldsz newsz)) k' L' → Q (min oldsz newsz) k') :
    Post (uvmdealloc (r * pgsize) oldsz newsz) k Q E := by
  have hle := h.le
  refine hinv.post_uvmdealloc h.root hold (fun _ => hE _ (by decide)) (fun hex => ?_) (fun hge => ?_) fun k' L' hlt hun => ?_
  · obtain ⟨u, _, hu, hvalid⟩ := hex
    rw [h.valid_of_lt hu] at hvalid
    cases hvalid
  · have hmin : min oldsz newsz = oldsz := Nat.min_eq_left hge
    have hgoal := hdone k L (Spares.refl hinv _) (by rw [hmin]; exact h)
    rw [hmin] at hgoal
    exact hgoal
  · have hmin : min oldsz newsz = newsz := Nat.min_eq_right (Nat.le_of_lt hlt)
    have hmono := pages_mono (Nat.le_of_lt hlt)
    have hgoal := hdone k' L' (hun.evolves.spares fun _ _ ht => ht.1) (by
      rw [hmin]
      refine h.resize hun.evolves.keeps (by omega) (fun u ht => ?_) (fun u hu ht => ?_) fun u hu ht => ?_
      · obtain ⟨_, _, _⟩ := ht
        omega
      · obtain ⟨_, hge, hlt⟩ := ht
        rw [hun.view_eq u hge hlt, decide_eq_false (by omega)]
        exact zero_not_valid
      · have hout : ¬ (pages newsz ≤ u ∧ u < pages newsz + (pages oldsz - pages newsz)) := fun hin => ht ⟨rfl, hin⟩
        omega)
    rw [hmin] at hgoal
    exact hgoal

theorem Layout.post_procFreepagetable (h : Layout r t (pages sz) k L) (hinv : Inv k L) (hsz : sz ≤ trapframeVa) {Q : Unit → KState → Prop}
    (hdone : ∀ k' L', Released r k L k' L' → Q () k') : Post (procFreepagetable (r * pgsize) sz) k Q E := by
  refine hinv.post_procFreepagetable h.root hsz (fun _ => hE _ (by decide)) (fun hex => ?_) (fun hex => ?_) hdone
  · rcases hex with hframe | htramp | ⟨u, hu, hvalid⟩
    · rw [h.frame_valid] at hframe
      cases hframe
    · rw [h.trampoline_valid] at htramp
      cases htramp
    · rw [h.valid_of_lt hu] at hvalid
      cases hvalid
  · obtain ⟨u, hge, hu, hvalid⟩ := hex
    rw [h.not_valid hu hge] at hvalid
    cases hvalid

theorem Layout.post_uvmcopy {t' : ℕ} (h : Layout r t (pages sz) k L) (h' : Layout r' t' 0 k L) (hinv : Inv k L) (hne : r ≠ r') (hsz : sz ≤ trapframeVa)
    {Q : ℤ → KState → Prop}
    (hfail : ∀ k' L', Spares (· = r) k L k' L' → Layout r t (pages sz) k' L' → Q (-1) k')
    (hdone : ∀ k' L', Spares (fun x => x = r ∨ x = r') k L k' L' → Layout r t (pages sz) k' L' → Layout r' t' (pages sz) k' L' → Q 0 k') :
    Post (uvmcopy (r * pgsize) (r' * pgsize) sz) k Q E := by
  have hsmall := userPages_eq
  have hle := h.le
  refine hinv.post_uvmcopy h.root h'.root hne hsz (fun hex => ?_)
    (fun _ => ⟨hE _ (by decide), hE _ (by decide)⟩) (fun hex => ?_)
    (fun k' L' hfailed => ?_) fun k' L' hforked => ?_
  · obtain ⟨u, hu, hvalid⟩ := hex
    rw [h.valid_of_lt hu] at hvalid
    cases hvalid
  · obtain ⟨u, hu, hvalid⟩ := hex
    rw [h'.not_valid (by omega) (Nat.zero_le u)] at hvalid
    cases hvalid
  · refine hfail k' L' ⟨hfailed.inv, fun x _ => hfailed.keeps.root_iff x, fun x u hu hx =>
      hfailed.keeps.view_eq x u hu fun ht => hx ht.1, hfailed.held_le⟩ ?_
    exact h.keep hfailed.keeps (fun u ht => Nat.lt_of_lt_of_le ht.2 hle) fun u ht => hfailed.valid u ht.2
  · refine hdone k' L' ⟨hforked.inv, fun x _ => hforked.keeps.root_iff x, fun x u hu hx => hforked.keeps.view_eq x u hu fun ht => hx ht.1,
      fun x => by rw [hforked.held_eq]⟩ ?_ ?_
    · refine h.keep hforked.keeps (fun u ht => Nat.lt_of_lt_of_le ht.2 hle) fun u ht => ?_
      rw [hforked.old_eq u ht.2, cowPte_valid]
    · refine h'.resize hforked.keeps hle (fun u ht => Nat.lt_of_lt_of_le ht.2 hle) (fun u hu ht => ?_) fun u hu ht => ?_
      · rw [hforked.new_eq u ht.2, leafPte_valid, decide_eq_true ht.2]
      · have hge : ¬ u < pages sz := fun hlt => ht ⟨.inr rfl, hlt⟩
        omega

end

/-! ### Changes to one address space -/

def Stays (r t n : ℕ) (k0 : KState) (L0 : Ledger) (k : KState) : Prop := ∃ L, Spares (· = r) k0 L0 k L ∧ Layout r t n k L

section
variable {k0 : KState} {L0 : Ledger}

theorem isFlags_flags2perm (flags : ℕ) : IsFlags (flags2perm flags) := by
  apply isFlags_of_pteFlags
  unfold flags2perm
  split <;> split <;> decide

theorem Stays.setBytes (hspares : Spares (· = r) k0 L0 k L) (hlayout : Layout r t n k L) (hp : L.role p = .data) (offset : ℕ) (bytes : List (BitVec 8)) :
    Stays r t n k0 L0 (k.setBytes p offset bytes) := by
  have hview := hspares.inv.view_setBytes hp offset bytes
  have hsame : Spares (fun _ => False) k L (k.setBytes p offset bytes) L :=
    ⟨hspares.inv.setBytes hp offset bytes, fun _ _ => Iff.rfl, fun x u _ _ => by rw [hview], fun _ => Nat.le_refl _⟩
  exact ⟨L, hspares.trans (hsame.mono fun _ => False.elim), hsame.layout id hlayout⟩

variable (hE : ∀ e, e ∉ layoutPanics → E e)
include hE

theorem Stays.post_handlePageFault (h : Stays r t n k0 L0 k) :
    Post (handlePageFault sp va (r * pgsize)) k (fun _ k' => Stays r t n k0 L0 k') E := by
  obtain ⟨L, hspares, hlayout⟩ := h
  have hsame : Stays r t n k0 L0 k := ⟨L, hspares, hlayout⟩
  refine hspares.inv.post_handlePageFault hlayout.root (fun _ => hsame) (fun _ _ _ => hE _ (by decide)) (fun _ _ _ _ => hsame) (fun _ _ _ _ => hsame)
    (fun _ _ _ _ => hsame) (fun _ _ _ _ _ => hE _ (by decide)) fun p k' L' _ _ _ hres => ?_
  refine ⟨L', hspares.trans (hres.evolves.spares fun _ _ ht => ht.1), hlayout.keep hres.evolves.keeps (fun u ht => ?_) fun u ht => ?_⟩
  · rw [ht.2]
    exact hres.user
  · rw [ht.2, hres.view_eq, resolvedPte_valid]

theorem Stays.post_copyout {dstva : ℕ} {src : List (BitVec 8)} (h : Stays r t n k0 L0 k) :
    Post (copyout sp (r * pgsize) dstva src) k (fun _ k' => Stays r t n k0 L0 k') E := by
  unfold copyout
  refine Post.step (R := fun _ k' => Stays r t n k0 L0 k') ?_ fun _ _ hk => Post.pure hk
  refine Post.loop (I := fun _ k' => Stays r t n k0 L0 k') h (fun i k' _ hk => ?_) fun _ hk => hk
  obtain ⟨L, hspares, hlayout⟩ := hk
  have hva : pgrounddown dstva + i * pgsize = (dstva / pgsize + i) * pgsize := by rw [pgrounddown, Nat.add_mul]
  have hoffset : max dstva ((dstva / pgsize + i) * pgsize) - (dstva / pgsize + i) * pgsize < pgsize := by
    have hdiv := Nat.lt_div_mul_add (a := dstva) (b := pgsize) (by decide)
    have hadd := Nat.add_mul (dstva / pgsize) i pgsize
    have hpos : 0 < pgsize := by decide
    omega
  rw [hva]
  refine hspares.inv.post_copyoutPage hlayout.root hoffset (fun _ => ⟨L, hspares, hlayout⟩)
    (fun _ _ _ _ _ _ => hE _ (by decide)) (fun hv huser _ => ?_) fun p k'' L' huser _ _ hres => ?_
  · exact Stays.setBytes hspares hlayout (hspares.inv.data_of_valid hv huser.1) _ _
  · have hvalid : (L'.view k'' r (dstva / pgsize + i)).has pteV = true := by
      rw [hres.view_eq, resolvedPte_valid]
      exact huser.1
    refine Stays.setBytes (hspares.trans (hres.evolves.spares fun _ _ ht => ht.1)) (hlayout.keep hres.evolves.keeps (fun u ht => ?_) fun u ht => ?_) ?_ _ _
    · rw [ht.2]
      exact hres.user
    · rw [ht.2, hvalid, huser.1]
    · rw [← hres.page_eq]
      exact hres.evolves.inv.data_of_valid hres.user hvalid

omit hE in
theorem Stays.post_uvmalloc (h : Stays r t (pages oldsz) k0 L0 k) (hold : oldsz ≤ trapframeVa) (hx : IsFlags xperm)
    (hfail : ∀ k', Stays r t (pages oldsz) k0 L0 k' → Q 0 k')
    (hdone : ∀ k', max oldsz newsz ≤ trapframeVa → Stays r t (pages (max oldsz newsz)) k0 L0 k' → Q (max oldsz newsz) k') :
    Post (uvmalloc (r * pgsize) oldsz newsz xperm) k Q E := by
  obtain ⟨L, hspares, hlayout⟩ := h
  exact hlayout.post_uvmalloc hspares.inv hold hx (fun k' L' hspares' hlayout' => hfail k' ⟨L', hspares.trans hspares', hlayout'⟩)
    fun k' L' hle hspares' hlayout' => hdone k' hle ⟨L', hspares.trans hspares', hlayout'⟩

theorem Stays.post_uvmclear (h : Stays r t n k0 L0 k) (hv : v < userPages) :
    Post (uvmclear (r * pgsize) (v * pgsize)) k (fun _ k' => Stays r t n k0 L0 k') E := by
  obtain ⟨L, hspares, hlayout⟩ := h
  refine hspares.inv.post_uvmclear hlayout.root hv (fun _ => hE _ (by decide)) fun k' hadj => ?_
  refine ⟨L, hspares.trans (hadj.evolves.spares fun _ _ ht => ht.1), hlayout.keep hadj.evolves.keeps (fun u ht => ?_) fun u ht => ?_⟩
  · rw [ht.2]
    exact hv
  · rw [ht.2, hadj.valid]

theorem Stays.post_loadseg {offset : ℕ} (hva : va % pgsize = 0) (h : Stays r t n k0 L0 k) :
    Post (loadseg (r * pgsize) va ip offset sz) k (fun _ k' => Stays r t n k0 L0 k') E := by
  have hsmall := userPages_eq
  unfold loadseg
  refine Post.step (R := fun _ k' => Stays r t n k0 L0 k') ?_ fun _ _ hk => Post.pure hk
  refine Post.loop (I := fun _ k' => Stays r t n k0 L0 k') h (fun i k' _ hk => ?_) fun _ hk => hk
  obtain ⟨L, hspares, hlayout⟩ := hk
  have haddr : va + (0 + i * pgsize) = (va / pgsize + i) * pgsize := by
    rw [Nat.add_mul, Nat.zero_add, Nat.div_mul_cancel (Nat.dvd_of_mod_eq_zero hva)]
  unfold loadsegPage
  rw [haddr]
  by_cases hlow : va / pgsize + i < 2 ^ 26
  · refine Post.bind (post_walkaddr hlayout.root hlow (fun _ => ?_) fun huser => ?_)
    · rw [if_pos rfl]
      exact Post.panic (hE _ (by decide))
    · have hdata := hspares.inv.data_of_valid (huser.user hspares.inv (by omega)) huser.1
      rw [if_neg (hspares.inv.allocatable_ne_zero (by rw [hdata]; nofun))]
      have hstays := Stays.setBytes hspares hlayout hdata 0
      refine Post.bind (post_memmoveIn_page ?_)
      split
      · exact Post.pure (hstays _)
      · exact Post.pure (hstays _)
  · refine Post.bind (post_walkaddr_high (by omega) ?_)
    rw [if_pos rfl]
    exact Post.panic (hE _ (by decide))

theorem Stays.post_loadProgram (m off sz : ℕ) (hsz : sz ≤ trapframeVa) (h : Stays r t (pages sz) k0 L0 k) :
    Post (loadProgram ip (r * pgsize) m off sz) k (fun out k' => out.1 ≤ trapframeVa ∧ Stays r t (pages out.1) k0 L0 k') E := by
  induction m generalizing off sz k with
  | zero => exact Post.pure ⟨hsz, h⟩
  | succ m ih =>
    unfold loadProgram
    simp only
    split
    · exact Post.pure ⟨hsz, h⟩
    split
    · exact ih _ _ hsz h
    split
    · exact Post.pure ⟨hsz, h⟩
    split
    · exact Post.pure ⟨hsz, h⟩
    split
    · exact Post.pure ⟨hsz, h⟩
    rename_i haligned
    refine Post.bind (h.post_uvmalloc hsz (isFlags_flags2perm _) (fun k' hk => ?_) fun k' hle hk => ?_)
    · rw [if_pos rfl]
      exact Post.pure ⟨hsz, hk⟩
    · split
      · rename_i hzero
        rw [show sz = 0 by omega]
        rw [hzero] at hk
        exact Post.pure ⟨Nat.zero_le _, hk⟩
      · refine Post.step (Stays.post_loadseg hE (Decidable.not_not.mp haligned) hk) fun z k'' hk'' => ?_
        split
        · exact Post.pure ⟨hle, hk''⟩
        · exact ih _ _ hle hk''

theorem Stays.post_pushArgs {stackbase : ℕ} (argv : List (List (BitVec 8))) (top : ℕ) (ustack : List ℕ) (h : Stays r t n k0 L0 k) :
    Post (pushArgs sp (r * pgsize) stackbase argv top ustack) k (fun _ k' => Stays r t n k0 L0 k') E := by
  induction argv generalizing top ustack k with
  | nil => exact Post.pure h
  | cons arg rest ih =>
    unfold pushArgs
    split
    · exact Post.pure h
    split
    · exact Post.pure h
    refine Post.step (h.post_copyout hE) fun z k' hk => ?_
    split
    · exact Post.pure hk
    · exact ih _ _ hk

theorem Stays.post_pushStack (h : Stays r t n k0 L0 k) :
    Post (pushStack sp (r * pgsize) sz argv) k (fun _ k' => Stays r t n k0 L0 k') E := by
  unfold pushStack
  refine Post.step (h.post_pushArgs hE argv sz []) fun out k' hk => ?_
  cases out with
  | none => exact Post.pure hk
  | some out =>
    simp only
    split
    · exact Post.pure hk
    refine Post.step (hk.post_copyout hE) fun z k'' hk'' => ?_
    split <;> exact Post.pure hk''

theorem Stays.post_makeStack (hsz : sz ≤ trapframeVa) (h : Stays r t (pages sz) k0 L0 k) :
    Post (makeStack sp (r * pgsize) sz argv) k (fun out k' => out.1 ≤ trapframeVa ∧ Stays r t (pages out.1) k0 L0 k') E := by
  have hsmall := userPages_eq
  have hround := pgroundup_eq hsz
  have hpages := pages_le_userPages hsz
  have hup : pgroundup sz ≤ trapframeVa := by
    rw [hround, trapframeVa_eq]
    exact Nat.mul_le_mul_right _ hpages
  have hsame : pages (pgroundup sz) = pages sz := by rw [hround, pages_mul]
  rw [← hsame] at h
  unfold makeStack
  refine Post.bind (h.post_uvmalloc hup (isFlags_of_pteFlags (by decide)) (fun k' hk => ?_) fun k' hle hk => ?_)
  · rw [if_pos rfl]
    exact Post.pure ⟨hup, hk⟩
  · have hmax : max (pgroundup sz) (pgroundup sz + 2 * pgsize) = pgroundup sz + 2 * pgsize := by omega
    rw [hmax] at hle hk ⊢
    rw [if_neg (by unfold pgsize; omega), Nat.add_sub_cancel, hround]
    rw [hround, trapframeVa_eq] at hle
    refine Post.step (hk.post_uvmclear hE (v := pages sz) ?_) fun _ k'' hk'' => ?_
    · unfold pgsize at hle
      omega
    · refine Post.step (hk''.post_pushStack hE) fun argc k3 hk3 => Post.pure ⟨?_, ?_⟩
      · rw [trapframeVa_eq]
        exact hle
      · rw [hround] at hk3
        exact hk3

theorem Stays.post_makeImage (h : Stays r t 0 k0 L0 k) :
    Post (makeImage sp (r * pgsize) ip argv) k (fun out k' => out.1 ≤ trapframeVa ∧ Stays r t (pages out.1) k0 L0 k') E := by
  unfold makeImage
  refine Post.step (Stays.post_loadProgram hE _ _ 0 (Nat.zero_le _) h) fun out k' hk => ?_
  obtain ⟨sz, ok⟩ := out
  simp only
  split
  · exact hk.2.post_makeStack hE hk.1
  · exact Post.pure hk

end

end AdvancedXv6.Kernel
