import AdvancedXv6.Kernel.Memory

/-!
# What one operation does

Every operation of the memory system keeps the ledger right, and does to the contents of the address spaces what it would do if each of them had its pages to itself. A count that wraps around needs a `uvmcopy` of a page with `2^31 - 1` references.
-/

namespace AdvancedXv6.Kernel

open Function Prog Transition

variable {k k' : KState} {L L' : Ledger} {s s' : Memory} {touched : ℕ → ℕ → Prop} {r v p t : ℕ} {op : Op} {res : Result}

def Memory.Saturated (s : Memory) : Op → Prop
  | .uvmcopy r _ sz => ∃ u, u < pages sz ∧ 2 ^ 31 - 1 ≤ s.kernel.pageRefCount (s.view r u).page
  | _ => False

structure Memory.Effect (s : Memory) (L : Ledger) (op : Op) (s' : Memory) (res : Result) (L' : Ledger) : Prop where
  sound : s'.Sound L'
  contents_eq : L'.contents s'.kernel = (L.contents s.kernel).next op res
  wrapped : s'.kernel.Wrapped → s.kernel.Wrapped ∨ s.Saturated op

def Memory.Fine (s : Memory) (L : Ledger) (op : Op) (out : Memory × Result) : Prop := ∃ L', s.Effect L op out.1 out.2 L'

theorem Reference.next_none (ref : Reference) (op : Op) : ref.next op .none = ref := by
  cases op <;> rfl

theorem Memory.Sound.panic (h : s.Sound L) (e : Panic) : s.Fine L op ({ s with panicked := some e }, .none) :=
  ⟨L, ⟨h.inv, h.root_iff, h.nodup, h.distinct, h.buffers_le, h.unmapped, h.frame, h.bare⟩, (Reference.next_none _ op).symm, .inl⟩

variable {α : Type} {space : Space} {sz va oldsz newsz n r' sp : ℕ} {pte : Pte} {a b : α}

theorem Memory.Sound.run {x : KernelM α} {after : α → KState → Memory × Result} (h : s.Sound L)
    (hpost : Post x s.kernel (fun a k => s.Fine L op (after a k)) fun _ => True) : s.Fine L op (s.run x after) := by
  unfold Memory.run
  cases hx : x s.kernel with
  | ok out => exact hpost.of_ok hx
  | error e => exact h.panic e

theorem Memory.Sound.unseen (h : s.Sound L) (hev : Evolves noSlot s.kernel L k' L')
    (hnext : (L.contents s.kernel).next op res = L.contents s.kernel) : s.Fine L op ({ s with kernel := k' }, res) := by
  refine ⟨L', h.keep hev.inv hev.keeps (fun p => by rw [hev.held_eq]) (fun _ _ ht => ht.elim) fun _ _ ht => ht.elim, ?_, fun hw => .inl (hev.wrapped hw)⟩
  rw [hnext]
  exact hev.keeps.contents_all

/-! ### The allocator -/

theorem Memory.Sound.kalloc (h : s.Sound L) :
    s.Fine L .kalloc (s.run Kernel.kalloc fun pa k =>
      if pa = 0 then ({ s with kernel := k }, .value 0) else ({ s with kernel := k, buffers := pa / pgsize :: s.buffers }, .value 0)) := by
  have hsmall := userPages_lt
  refine h.run (h.inv.post_kalloc (fun _ => ?_) fun p k' L' htaken => ?_)
  · rw [if_pos rfl]
    exact h.unseen (Evolves.refl h.inv _) rfl
  · rw [if_neg htaken.address_ne_zero, div_pgsize]
    refine ⟨L', ⟨htaken.inv, fun r => (htaken.keeps.root_iff r).trans (h.root_iff r), h.nodup, ?_, fun x => ?_, fun x hx y u hu hvalid => ?_,
      fun space hspace t ht => ?_, fun space hspace ht => ?_⟩, htaken.keeps.contents_all, fun hw => .inl (htaken.wrapped hw)⟩
    · refine List.nodup_cons.mpr ⟨fun hmem => ?_, h.distinct⟩
      have hpos := h.held_pos hmem
      have hzero := htaken.held_zero
      omega
    · have hle := h.buffers_le x
      by_cases hxp : x = p
      · subst hxp
        have hzero := htaken.held_zero
        rw [htaken.held_eq, update_self, List.count_cons_self]
        omega
      · rw [htaken.held_eq, update_of_ne hxp, List.count_cons_of_ne (Ne.symm hxp)]
        exact hle
    · rcases List.mem_cons.mp hx with rfl | hmem
      · intro hpage
        rw [not_valid_of_userRefs htaken.inv htaken.refs_eq hu hpage] at hvalid
        cases hvalid
      · simp only [htaken.view_eq] at hvalid ⊢
        exact h.unmapped x hmem y u hu hvalid
    · obtain ⟨hmem, hframe⟩ := h.frame space hspace t ht
      simp only [htaken.view_eq]
      exact ⟨List.mem_cons_of_mem p hmem, hframe⟩
    · simp only [htaken.view_eq]
      exact h.bare space hspace ht

theorem Memory.mem_trapframes (hspace : space ∈ s.spaces) (ht : space.trapframe = some t) : t ∈ s.trapframes :=
  List.mem_filterMap.mpr ⟨space, hspace, ht⟩

theorem count_erase_le {held held' : ℕ → ℕ} {buffers : List ℕ} (hle : ∀ p, buffers.count p ≤ held p)
    (hheld : held' = update held p (held p - 1)) (x : ℕ) : (buffers.erase p).count x ≤ held' x := by
  have hx := hle x
  rw [hheld]
  by_cases hxp : x = p
  · subst hxp
    rw [update_self, List.count_erase_self]
    omega
  · rw [update_of_ne hxp, List.count_erase_of_ne hxp]
    exact hx

section

variable (h : s.Sound L)
include h

theorem Memory.Sound.give (hp : p ∉ s.trapframes) (hinv : Inv k' L')
    (hkeeps : Keeps touched s.kernel L k' L') (huser : ∀ x u, touched x u → u < userPages)
    (hheld : L'.held = update L.held p (L.held p - 1))
    (hpages : ∀ x u, touched x u → (L'.view k' x u).has pteV = true → (L'.view k' x u).page = p) :
    Memory.Sound { s with kernel := k', buffers := s.buffers.erase p } L' := by
  have hsmall := userPages_eq
  have hhigh (x u : ℕ) := hkeeps.view_high (r := x) (u := u) (huser x)
  refine ⟨hinv, fun r => (hkeeps.root_iff r).trans (h.root_iff r), h.nodup, h.distinct.erase p, count_erase_le h.buffers_le hheld,
    fun x hx y u hu hvalid hpage => ?_, fun space hspace t ht => ?_, fun space hspace ht => ?_⟩
  · by_cases htouch : touched y u
    · rw [← hpage, hpages y u htouch hvalid] at hx
      exact h.distinct.not_mem_erase hx
    · have hview := hkeeps.view_eq y u (by omega) htouch
      rw [hview] at hvalid hpage
      exact h.unmapped x (List.mem_of_mem_erase hx) y u hu hvalid hpage
  · obtain ⟨hmem, hview⟩ := h.frame space hspace t ht
    rw [hhigh _ _ (by omega) (by omega), hhigh _ _ (by omega) (by omega)]
    refine ⟨(List.mem_erase_of_ne ?_).mpr hmem, hview⟩
    rintro rfl
    exact hp (Memory.mem_trapframes hspace ht)
  · rw [hhigh _ _ (by omega) (by omega), hhigh _ _ (by omega) (by omega)]
    exact h.bare space hspace ht

theorem Memory.Sound.kfree (hmem : p ∈ s.buffers) (hp : p ∉ s.trapframes) :
    s.Fine L (.kfree p) (s.run (Kernel.kfree (p * pgsize)) fun _ k =>
      ({ s with kernel := k, buffers := s.buffers.erase p }, .value 0)) := by
  refine h.run (h.inv.post_kfree (h.held_pos hmem) (fun _ => trivial) fun k' L' hdropped => ?_)
  exact ⟨L', h.give hp hdropped.inv hdropped.keeps (fun _ _ ht => ht.elim) hdropped.held_eq fun _ _ ht => ht.elim,
    hdropped.keeps.contents_all, fun hw => .inl (hdropped.wrapped hw)⟩

/-! ### Address spaces that come and go -/

theorem Memory.Sound.open {frame : Option ℕ} (hext : Extended r s.kernel L k' L') (hempty : ∀ u, u < userPages → L'.view k' r u = 0)
    (hframe : ∀ t, frame = some t →
      t ∈ s.buffers ∧ L'.view k' r userPages = trapframePte t ∧ L'.view k' r (userPages + 1) = trampolinePte)
    (hbare : frame = none → L'.view k' r userPages = 0 ∧ L'.view k' r (userPages + 1) = 0) :
    Memory.Sound { s with kernel := k', spaces := ⟨r, frame⟩ :: s.spaces } L' := by
  have hsmall := userPages_eq
  have hnew : ∀ space, space ∈ s.spaces → space.root ≠ r := by
    intro space hspace heq
    have hroot := (h.root_iff r).mpr (List.mem_map.mpr ⟨space, hspace, heq⟩)
    rw [hext.fresh] at hroot
    cases hroot
  refine ⟨hext.inv, fun x => ?_, ?_, h.distinct, fun p => by rw [hext.held_eq]; exact h.buffers_le p, fun p hp x u hu hvalid hpage => ?_,
    fun space hspace t ht => ?_, fun space hspace ht => ?_⟩
  · rw [hext.root_iff, h.root_iff]
    exact or_comm.trans List.mem_cons.symm
  · refine List.nodup_cons.mpr ⟨fun hmem => ?_, h.nodup⟩
    obtain ⟨space, hspace, heq⟩ := List.mem_map.mp hmem
    exact hnew space hspace heq
  · by_cases hx : x = r
    · rw [hx, hempty u hu, zero_not_valid] at hvalid
      cases hvalid
    · rw [hext.view_eq x u (by omega) hx] at hvalid hpage
      exact h.unmapped p hp x u hu hvalid hpage
  · rcases List.mem_cons.mp hspace with rfl | hold
    · exact hframe t ht
    · rw [hext.view_eq _ _ (by omega) (hnew space hold), hext.view_eq _ _ (by omega) (hnew space hold)]
      exact h.frame space hold t ht
  · rcases List.mem_cons.mp hspace with rfl | hold
    · exact hbare ht
    · rw [hext.view_eq _ _ (by omega) (hnew space hold), hext.view_eq _ _ (by omega) (hnew space hold)]
      exact h.bare space hold ht

omit h in
theorem Extended.contents_eq (hext : Extended r k L k' L') (hempty : ∀ u, u < userPages → L'.view k' r u = 0) :
    L'.contents k' = L.contents k := by
  have hsmall := userPages_eq
  funext x u
  by_cases hu : u < userPages
  · by_cases hx : x = r
    · have hold : L.view k r u = 0 := view_of_not_root (by rw [hext.fresh]; nofun) u
      rw [hx, contents_of_zero (hempty u hu), contents_of_zero hold]
    · exact contents_congr (hext.view_eq x u (by omega) hx) fun hlt hvalid => hext.page_eq x u hlt hx hvalid
  · rw [contents_high (by omega), contents_high (by omega)]

theorem Memory.Sound.uvmcreate :
    s.Fine L .uvmcreate (s.run Kernel.uvmcreate fun pa k =>
      if pa = 0 then ({ s with kernel := k }, .value 0)
      else ({ s with kernel := k, spaces := ⟨pa / pgsize, none⟩ :: s.spaces }, .value 0)) := by
  refine h.run (h.inv.post_uvmcreate (fun _ => ?_) fun r k' L' hcreated => ?_)
  · rw [if_pos rfl]
    exact h.unseen (Evolves.refl h.inv _) rfl
  · have hext := hcreated.extended
    have hempty : ∀ u, L'.view k' r u = 0 := hcreated.view_zero
    rw [if_neg (hcreated.inv.allocatable_ne_zero (by rw [hext.root]; nofun)), div_pgsize]
    exact ⟨L', h.open hext (fun u _ => hempty u) nofun fun _ => ⟨hempty _, hempty _⟩, hext.contents_eq fun u _ => hempty u,
      fun hw => .inl (hext.wrapped hw)⟩

theorem Memory.Sound.procPagetable (ht : t ∈ s.buffers) :
    s.Fine L (.procPagetable t) (s.run (Kernel.procPagetable (t * pgsize)) fun pa k =>
      if pa = 0 then ({ s with kernel := k }, .value 0)
      else ({ s with kernel := k, spaces := ⟨pa / pgsize, some t⟩ :: s.spaces }, .value 0)) := by
  have hsmall := userPages_eq
  refine h.run (h.inv.post_procPagetable (fun k' L' hev _ => ?_) fun r k' L' hopened => ?_)
  · rw [if_pos rfl]
    exact h.unseen hev rfl
  · have hext := hopened.extended
    have hempty : ∀ u, u < userPages → L'.view k' r u = 0 := fun u hu => hopened.user_eq u (by omega) (by omega) (by omega)
    rw [if_neg (hext.inv.allocatable_ne_zero (by rw [hext.root]; nofun)), div_pgsize]
    refine ⟨L', h.open hext hempty (fun t' heq => ?_) nofun, hext.contents_eq hempty, fun hw => .inl (hext.wrapped hw)⟩
    rw [Option.some.injEq] at heq
    subst heq
    exact ⟨ht, hopened.trapframe_eq, hopened.trampoline_eq⟩

omit h in
theorem Released.contents_eq (hrel : Released r k L k' L') :
    L'.contents k' = fun x u => if x = r then none else L.contents k x u := by
  have hsmall := userPages_eq
  funext x u
  split
  · rename_i hx
    refine contents_of_zero (view_of_not_root (fun hroot => ?_) u)
    exact ((hrel.root_iff x).mp hroot).2 hx
  · rename_i hx
    by_cases hu : u < userPages
    · exact contents_congr (hrel.view_eq x u (by omega) hx) fun hlt hvalid => hrel.page_eq x u hlt hx hvalid
    · rw [contents_high (by omega), contents_high (by omega)]

theorem Memory.Sound.released (hrel : Released r s.kernel L k' L') :
    Memory.Sound { s with kernel := k', spaces := s.spaces.filter (·.root ≠ r) } L' :=
  h.close hrel.inv hrel.root_iff hrel.view_eq (List.Sublist.refl _) (fun p => by rw [hrel.held_eq]; exact h.buffers_le p)
    fun space hspace _ t ht => (h.frame space hspace t ht).1

theorem Memory.Sound.uvmfree (hr : r ∈ s.roots) (hsz : sz ≤ trapframeVa) :
    s.Fine L (.uvmfree r sz) (s.run (Kernel.uvmfree (r * pgsize) sz) fun _ k =>
      ({ s with kernel := k, spaces := s.spaces.filter (·.root ≠ r) }, .value 0)) := by
  refine h.run (h.inv.post_uvmfree ((h.root_iff r).mpr hr) hsz (fun _ => trivial) (fun _ => ⟨trivial, trivial⟩) (fun _ => trivial) fun k' L' hrel => ?_)
  exact ⟨L', h.released hrel, hrel.contents_eq, fun hw => .inl (hrel.wrapped hw)⟩

theorem Memory.Sound.procFreepagetable (hr : r ∈ s.roots) (hsz : sz ≤ trapframeVa) :
    s.Fine L (.procFreepagetable r sz) (s.run (Kernel.procFreepagetable (r * pgsize) sz) fun _ k =>
      ({ s with kernel := k, spaces := s.spaces.filter (·.root ≠ r) }, .value 0)) := by
  refine h.run (h.inv.post_procFreepagetable ((h.root_iff r).mpr hr) hsz (fun _ => trivial) (fun _ => ⟨trivial, trivial⟩) (fun _ => trivial)
    fun k' L' hrel => ?_)
  exact ⟨L', h.released hrel, hrel.contents_eq, fun hw => .inl (hrel.wrapped hw)⟩

omit h in
theorem two_le_count_filterMap [DecidableEq α] {f : α → Option ℕ} {l : List α} (ha : a ∈ l) (hb : b ∈ l) (hne : a ≠ b)
    (hfa : f a = some t) (hfb : f b = some t) : 2 ≤ (l.filterMap f).count t := by
  have hsub : [a, b].Subperm (l.filter fun x => f x = some t) := by
    refine List.subperm_of_subset (List.nodup_cons.mpr ⟨by simpa using hne, List.nodup_singleton b⟩) fun x hx => ?_
    rcases List.mem_cons.mp hx with rfl | hx
    · exact List.mem_filter.mpr ⟨ha, decide_eq_true hfa⟩
    · rw [List.mem_singleton.mp hx]
      exact List.mem_filter.mpr ⟨hb, decide_eq_true hfb⟩
  have hlen := hsub.length_le
  rw [← List.countP_eq_length_filter] at hlen
  rw [List.count, List.countP_filterMap]
  refine Nat.le_trans hlen (List.countP_mono_left fun x _ hx => ?_)
  rw [decide_eq_true_iff] at hx
  simp [hx]

theorem Memory.Sound.freeproc (hspace : space ∈ s.spaces) (ht : space.trapframe = some t)
    (hone : s.trapframes.count t = 1) (hsz : sz ≤ trapframeVa) :
    s.Fine L (.freeproc space.root sz) (s.run (Kernel.freeproc ⟨.zombie, space.root * pgsize, t * pgsize, sz⟩) fun _ k =>
      ({ s with kernel := k, spaces := s.spaces.filter (·.root ≠ space.root), buffers := s.buffers.erase t }, .value 0)) := by
  have hroot := (h.root_iff space.root).mpr (List.mem_map_of_mem hspace)
  have hmem := (h.frame space hspace t ht).1
  refine h.run (h.inv.post_freeproc hroot (h.held_pos hmem) hsz (fun _ => trivial) (fun _ => ⟨trivial, trivial⟩) (fun _ => trivial)
    fun k1 L1 k' L' hdropped hrel => ?_)
  refine ⟨L', h.close hrel.inv (fun x => ?_) (fun x u hu hx => ?_) List.erase_sublist (fun p => ?_) fun other hother hne t' ht' => ?_, ?_,
    fun hw => .inl (hdropped.wrapped (hrel.wrapped hw))⟩
  · rw [hrel.root_iff, hdropped.keeps.root_iff]
  · rw [hrel.view_eq x u hu hx, hdropped.view_eq]
  · rw [hrel.held_eq]
    exact count_erase_le h.buffers_le hdropped.held_eq p
  · refine (List.mem_erase_of_ne ?_).mpr (h.frame other hother t' ht').1
    rintro rfl
    have htwo : 2 ≤ s.trapframes.count t' := two_le_count_filterMap hother hspace (fun heq => hne (by rw [heq])) ht' ht
    omega
  · rw [hrel.contents_eq, hdropped.keeps.contents_all]
    rfl

/-! ### Entries that come and go -/

variable (hr : r ∈ s.roots)
include hr

theorem Memory.Sound.walk :
    s.Fine L (.walk r va) (s.run (Kernel.walk (r * pgsize) va true) fun _ k => ({ s with kernel := k }, .value 0)) := by
  have hroot := (h.root_iff r).mpr hr
  refine h.run ?_
  by_cases hva : va < maxva
  · exact h.inv.post_walk_alloc hroot hva (fun k' L' hgrown _ => h.unseen (hgrown.evolves h.inv) rfl)
      fun q k' L' hgrown _ => h.unseen (hgrown.evolves h.inv) rfl
  · unfold Kernel.walk
    rw [if_pos (by omega)]
    exact Post.panic trivial

theorem Memory.Sound.mappages {perm : Pte} (hv : v < userPages) (hmem : p ∈ s.buffers) (hp : p ∉ s.trapframes)
    (hflags : pteFlags perm = perm) (hread : perm.has pteR = true) :
    s.Fine L (.mappages r v p perm) (s.run (Kernel.mappages (r * pgsize) (v * pgsize) pgsize (p * pgsize) perm) fun z k =>
      if z = 0 then ({ s with kernel := k, buffers := s.buffers.erase p }, .mapped (s.kernel.mem p)) else ({ s with kernel := k }, .value z)) := by
  refine h.run (h.inv.post_mappages_owned ((h.root_iff r).mpr hr) hv (h.owned hmem) ⟨isFlags_of_pteFlags hflags, hread⟩ (fun _ => trivial)
    (fun k' L' hgrown _ => ?_) fun k' L' hplaced => ?_)
  · rw [if_neg (by decide)]
    exact h.unseen (hgrown.evolves h.inv) rfl
  · rw [if_pos rfl]
    have hpage := hplaced.page_eq
    have hvalid : (L'.view k' r v).has pteV = true := by
      rw [hplaced.view_eq]
      exact leafPte_valid p perm
    refine ⟨L', h.give hp hplaced.inv hplaced.keeps (fun x u ht => ht.2 ▸ hv) hplaced.held_eq (fun x u ht _ => ?_), ?_,
      fun hw => .inl (hplaced.wrapped hw)⟩
    · rw [ht.1, ht.2]
      exact hpage
    · funext x u
      by_cases hslot : x = r ∧ u = v
      · rw [hslot.1, hslot.2, contents_of_valid hv hvalid, hpage, hplaced.mem_eq]
        exact (if_pos ⟨rfl, rfl⟩).symm
      · rw [hplaced.keeps.contents_eq hslot]
        exact (if_neg hslot).symm

theorem Memory.Sound.frame_valid (hnot : ⟨r, none⟩ ∉ s.spaces) : (L.view s.kernel r userPages).has pteV = true := by
  obtain ⟨⟨root, frame⟩, hspace, heq⟩ := List.mem_map.mp hr
  change root = r at heq
  subst heq
  cases frame with
  | none => exact absurd hspace hnot
  | some t =>
    rw [(h.frame _ hspace t rfl).2.1]
    exact leafPte_valid t _

theorem Memory.Sound.uvmalloc {xperm : Pte} (hold : oldsz ≤ trapframeVa)
    (hflags : pteFlags xperm = xperm) (hend : newsz ≤ trapframeVa ∨ ⟨r, none⟩ ∉ s.spaces) :
    s.Fine L (.uvmalloc r oldsz newsz xperm) (s.run (Kernel.uvmalloc (r * pgsize) oldsz newsz xperm) fun sz k =>
      ({ s with kernel := k }, .value sz)) := by
  refine h.run (h.inv.post_uvmalloc ((h.root_iff r).mpr hr) hold (isFlags_of_pteFlags hflags) (hend.imp_right (h.frame_valid hr))
    (fun _ => trivial) (fun _ _ _ _ => trivial) (fun hlt => ?_) (fun k' L' hev => ?_) fun k' L' hle hpages halloc => ?_)
  · exact h.unseen (Evolves.refl h.inv _) (if_neg (by omega))
  · refine h.unseen hev ?_
    by_cases hsame : oldsz ≤ newsz ∧ ((0 : ℕ) : ℤ) = newsz
    · refine (if_pos hsame).trans ?_
      funext x u
      refine if_neg fun hin => ?_
      have hzero : newsz = 0 := by omega
      rw [hzero, show pages 0 = 0 from rfl] at hin
      omega
    · exact if_neg hsame
  · refine ⟨L', h.keep halloc.evolves.inv halloc.evolves.keeps (fun p => by rw [halloc.evolves.held_eq]) (fun x u ht => ?_) (fun x u ht hvalid => ?_), ?_,
      fun hw => .inl (halloc.evolves.wrapped hw)⟩
    · have := ht.2.2
      have := pages_mono hle
      omega
    · rw [ht.1]
      exact .inl (halloc.held_zero u ht.2.1 ht.2.2)
    · have hmono := pages_mono hle
      refine Eq.trans ?_ (if_pos ⟨hle, rfl⟩).symm
      funext x u
      by_cases hslot : x = r ∧ pages oldsz ≤ u ∧ u < pages newsz
      · rw [if_pos hslot, hslot.1, contents_of_valid (by omega) (halloc.valid u hslot.2.1 (by omega)), halloc.mem_eq u hslot.2.1 (by omega)]
      · rw [if_neg hslot, halloc.evolves.keeps.contents_eq fun ht => hslot ⟨ht.1, ht.2.1, by have := ht.2.2; omega⟩]

theorem Memory.Sound.uvmdealloc (hold : oldsz ≤ trapframeVa) :
    s.Fine L (.uvmdealloc r oldsz newsz) (s.run (Kernel.uvmdealloc (r * pgsize) oldsz newsz) fun sz k => ({ s with kernel := k }, .value sz)) := by
  have hle := pages_le_userPages hold
  refine h.run (h.inv.post_uvmdealloc ((h.root_iff r).mpr hr) hold (fun _ => trivial) (fun _ => ⟨trivial, trivial⟩) (fun hsame => ?_)
    fun k' L' hlt hun => ?_)
  · refine h.unseen (Evolves.refl h.inv _) ?_
    have hmono := pages_mono hsame
    funext x u
    exact if_neg (by omega)
  · have hmono := pages_mono (Nat.le_of_lt hlt)
    refine ⟨L', h.keep hun.evolves.inv hun.evolves.keeps (fun p => by rw [hun.evolves.held_eq]) (fun x u ht => ?_) (fun x u ht hvalid => ?_), ?_,
      fun hw => .inl (hun.evolves.wrapped hw)⟩
    · have := ht.2.2
      omega
    · rw [ht.1, hun.view_eq u ht.2.1 ht.2.2, zero_not_valid] at hvalid
      cases hvalid
    · funext x u
      by_cases hslot : x = r ∧ pages newsz ≤ u ∧ u < pages oldsz
      · refine Eq.trans ?_ (if_pos hslot).symm
        rw [hslot.1, contents_of_zero (hun.view_eq u hslot.2.1 (by omega))]
      · refine Eq.trans ?_ (if_neg hslot).symm
        rw [hun.evolves.keeps.contents_eq fun ht => hslot ⟨ht.1, ht.2.1, by have := ht.2.2; omega⟩]

end

theorem Forked.contents_eq (h : Forked r r' n k L k' L') (hinv : Inv k L) (hn : n ≤ userPages) {u : ℕ} (hu : u < n) :
    L'.contents k' r u = L.contents k r u ∧ L'.contents k' r' u = L.contents k r u := by
  have hvalid := h.valid u hu
  have hdata := hinv.data_of_valid (by omega) hvalid
  have hlt := hinv.page_lt (by omega) hvalid
  have hold : (L'.view k' r u).has pteV = true := by rw [h.old_eq u hu, cowPte_valid, hvalid]
  have hnew : (L'.view k' r' u).has pteV = true := by rw [h.new_eq u hu, leafPte_valid]
  rw [contents_of_valid (by omega) hvalid, contents_of_valid (by omega) hold, contents_of_valid (by omega) hnew, h.old_eq u hu, h.new_eq u hu,
    cowPte_page hlt, leafPte_page hlt (isFlags_shareFlags _), (h.data _ hdata).2]
  exact ⟨rfl, rfl⟩

theorem ForkFailed.contents_eq (h : ForkFailed r n k L k' L') : L'.contents k' = L.contents k := by
  funext x u
  by_cases hslot : x = r ∧ u < n
  · obtain ⟨rfl, hu⟩ := hslot
    unfold Ledger.contents
    rw [h.valid u hu]
    split
    · rename_i hmapped
      rw [h.page_eq u hu hmapped.2, h.mem_eq u hu hmapped.2]
    · rfl
  · exact h.keeps.contents_eq hslot

theorem Memory.Sound.uvmcopy (h : s.Sound L) (hr : r ∈ s.roots) (hr' : r' ∈ s.roots) (hne : r ≠ r') (hsz : sz ≤ trapframeVa) :
    s.Fine L (.uvmcopy r r' sz) (s.run (Kernel.uvmcopy (r * pgsize) (r' * pgsize) sz) fun z k => ({ s with kernel := k }, .value z)) := by
  have hle := pages_le_userPages hsz
  have hsaturated : (∃ u, u < pages sz ∧ 2 ^ 31 - 1 ≤ s.kernel.pageRefCount (L.view s.kernel r u).page) → s.Saturated (.uvmcopy r r' sz) := by
    unfold Memory.Saturated
    rw [h.view_eq]
    exact id
  refine h.run (h.inv.post_uvmcopy ((h.root_iff r).mpr hr) ((h.root_iff r').mpr hr') hne hsz (fun _ => ⟨trivial, trivial⟩) (fun _ => ⟨trivial, trivial⟩)
    (fun _ => trivial) (fun k' L' hfailed => ?_) fun k' L' hforked => ?_)
  · refine ⟨L', h.keep hfailed.inv hfailed.keeps hfailed.held_le (fun x u ht => by have := ht.2; omega) (fun x u ht hvalid => ?_),
      hfailed.contents_eq, fun hw => (hfailed.wrapped hw).imp_right hsaturated⟩
    obtain ⟨rfl, hu⟩ := ht
    rw [hfailed.valid u hu] at hvalid
    exact .inr ⟨x, u, by omega, hvalid, (hfailed.page_eq u hu hvalid).symm⟩
  · refine ⟨L', h.keep hforked.inv hforked.keeps (fun p => by rw [hforked.held_eq]) (fun x u ht => by have := ht.2; omega) (fun x u ht _ => ?_), ?_,
      fun hw => (hforked.wrapped hw).imp_right hsaturated⟩
    · obtain ⟨hx, hu⟩ := ht
      have hvalid := hforked.valid u hu
      have hlt := h.inv.page_lt (by omega) hvalid
      refine .inr ⟨r, u, by omega, hvalid, ?_⟩
      rcases hx with rfl | rfl
      · rw [hforked.old_eq u hu, cowPte_page hlt]
      · rw [hforked.new_eq u hu, leafPte_page hlt (isFlags_shareFlags _)]
    · change L'.contents k' = fun x u => if x = r' ∧ u < pages sz then L.contents s.kernel r u else L.contents s.kernel x u
      funext x u
      by_cases hnew : x = r' ∧ u < pages sz
      · rw [if_pos hnew, hnew.1]
        exact (hforked.contents_eq h.inv hle hnew.2).2
      · rw [if_neg hnew]
        by_cases hold : x = r ∧ u < pages sz
        · rw [hold.1]
          exact (hforked.contents_eq h.inv hle hold.2).1
        · refine hforked.keeps.contents_eq fun ht => ?_
          rcases ht.1 with hx | hx
          · exact hold ⟨hx, ht.2⟩
          · exact hnew ⟨hx, ht.2⟩

/-! ### User programs -/

theorem Resolved.contents_eq (h : Resolved r v p k L k' L') : L'.contents k' = L.contents k := by
  funext x u
  by_cases hslot : x = r ∧ u = v
  · obtain ⟨rfl, rfl⟩ := hslot
    have hvalid : (L'.view k' x u).has pteV = true := by rw [h.view_eq, resolvedPte_valid, h.valid]
    rw [contents_of_valid h.user h.valid, contents_of_valid h.user hvalid, h.page_eq, h.mem_eq]
  · exact h.evolves.keeps.contents_eq hslot

theorem Memory.Sound.handleFault (h : s.Sound L) (hr : r ∈ s.roots)
    (hnext : ∀ z, (L.contents s.kernel).next op (.value z) = L.contents s.kernel) : s.Fine L op (s.handleFault r sp va) := by
  have hsame : ∀ z, s.Fine L op ({ s with kernel := s.kernel }, .value z) := fun z => h.unseen (Evolves.refl h.inv _) (hnext z)
  refine h.run (h.inv.post_handlePageFault ((h.root_iff r).mpr hr) (fun _ => hsame _)
    (fun _ _ _ => trivial) (fun _ _ _ _ => hsame _) (fun _ _ _ _ => hsame _)
    (fun _ _ _ _ => hsame _) (fun _ _ _ _ _ => trivial) fun p k' L' _ _ _ hres => ?_)
  refine ⟨L', h.keep hres.evolves.inv hres.evolves.keeps (fun p => by rw [hres.evolves.held_eq]) (fun x u ht => ?_) (fun x u ht _ => .inl ?_),
    hres.contents_eq.trans (hnext 0).symm, fun hw => .inl (hres.evolves.wrapped hw)⟩
  · rw [ht.2]
    exact hres.user
  · rw [ht.1, ht.2, hres.page_eq]
    by_contra hheld
    have hdata := h.inv.shares.held_data p (Nat.pos_of_ne_zero hheld)
    rw [hres.fresh] at hdata
    cases hdata

/-- Only the user part of a page table lets a user program in. -/
theorem Inv.user_lt (h : Inv k L) (hv : v < 2 ^ 27) (hvalid : (L.view k r v).has pteV = true) (huser : (L.view k r v).has pteU = true) :
    v < userPages := by
  by_contra hnot
  rcases h.shares.kernel r v (by omega) hv with hzero | ⟨_, _, _, hkernel, _⟩
  · rw [hzero, zero_not_valid] at hvalid
    cases hvalid
  · rw [huser] at hkernel
    cases hkernel

theorem canStore_iff : canStore pte = true ↔ pte.has pteV = true ∧ pte.has pteU = true ∧ pte.has pteW = true := by
  unfold canStore
  rw [Bool.and_eq_true, Bool.and_eq_true, and_assoc]

theorem canLoad_iff : canLoad pte = true ↔ pte.has pteV = true ∧ pte.has pteU = true ∧ pte.has pteR = true := by
  unfold canLoad
  rw [Bool.and_eq_true, Bool.and_eq_true, and_assoc]

theorem div_pgsize_lt (hva : va < maxva) : va / pgsize < 2 ^ 27 := by
  unfold maxva at hva
  unfold pgsize
  omega

theorem storeByte_mem (k : KState) (pte : Pte) (offset : ℕ) (b : BitVec 8) (x : ℕ) :
    (k.storeByte pte offset b).mem x = if x = pte.page then (k.mem pte.page).setByte offset b else k.mem x := by
  unfold KState.storeByte
  exact update_apply _ _ _ _

theorem Reference.next_store (ref : Reference) (r sp va : ℕ) (b : BitVec 8) (x u : ℕ) : ref.next (.store r sp va b) .stored x u =
    if x = r ∧ u = va / pgsize then (ref x u).map fun page => page.setByte (va % pgsize) b else ref x u := rfl

/-- A page that a user program may write to has one mapping, so only one address space sees the byte. -/
theorem Memory.Sound.storeByte {b : BitVec 8} (h : s.Sound L) (hva : va < maxva) (hstore : canStore (s.view r (va / pgsize)) = true) :
    s.Fine L (.store r sp va b) ({ s with kernel := s.kernel.storeByte (s.view r (va / pgsize)) (va % pgsize) b }, .stored) := by
  rw [h.view_eq] at hstore ⊢
  generalize hv : va / pgsize = v at hstore ⊢
  obtain ⟨hvalid, huser, hwrite⟩ := canStore_iff.mp hstore
  have hlt : v < userPages := h.inv.user_lt (hv ▸ div_pgsize_lt hva) hvalid huser
  have hdata := h.inv.data_of_valid hlt hvalid
  have hview : L.view (s.kernel.storeByte (L.view s.kernel r v) (va % pgsize) b) = L.view s.kernel := h.inv.view_setPage hdata _
  have hsmall := userPages_lt
  have hother : ∀ x u, u < userPages → ¬ oneSlot r v x u → (L.view s.kernel x u).has pteV = true →
      (s.kernel.storeByte (L.view s.kernel r v) (va % pgsize) b).mem (L.view s.kernel x u).page = s.kernel.mem (L.view s.kernel x u).page := by
    intro x u hu hnot hvalid'
    rw [storeByte_mem, if_neg fun hpage => hnot (h.inv.unshared hlt hu hvalid hwrite hvalid' hpage)]
  have hself : (s.kernel.storeByte (L.view s.kernel r v) (va % pgsize) b).mem (L.view s.kernel r v).page =
      (s.kernel.mem (L.view s.kernel r v).page).setByte (va % pgsize) b := by
    rw [storeByte_mem, if_pos rfl]
  have hkeeps : Keeps (oneSlot r v) s.kernel L (s.kernel.storeByte (L.view s.kernel r v) (va % pgsize) b) L :=
    ⟨fun _ => Iff.rfl, fun x u _ _ => by rw [hview], hother⟩
  refine ⟨L, h.keep (h.inv.setPage hdata _) hkeeps (fun _ => Nat.le_refl _) (fun x u ht => ht.2 ▸ hlt) (fun x u ht hmapped => .inr ?_), ?_, .inl⟩
  · rw [hview] at hmapped ⊢
    exact ⟨x, u, ht.2 ▸ hlt, hmapped, rfl⟩
  · funext x u
    by_cases hslot : x = r ∧ u = v
    · rw [Reference.next_store, hv, if_pos hslot, hslot.1, hslot.2, contents_of_valid hlt hvalid,
        contents_of_valid hlt (by rw [hview]; exact hvalid), hview, hself, Option.map_some]
    · rw [Reference.next_store, hv, if_neg hslot, hkeeps.contents_eq hslot]

/-! ### The step -/

theorem Memory.exists_space (hframe : (s.spaces.find? (·.root = r)).bind Space.trapframe = some t) :
    ∃ space, space ∈ s.spaces ∧ space.root = r ∧ space.trapframe = some t := by
  obtain ⟨space, hfind, ht⟩ := Option.bind_eq_some_iff.mp hframe
  have hroot := List.find?_some hfind
  rw [decide_eq_true_iff] at hroot
  exact ⟨space, List.mem_of_find?_eq_some hfind, hroot, ht⟩

/-- Every operation that the kernel may call leaves the ledger right and treats the address spaces as if their pages were their own. -/
theorem Memory.Sound.next {out : Memory × Result} (h : s.Sound L) (hnext : s.next op = some out) : s.Fine L op out := by
  unfold Memory.next at hnext
  split at hnext
  · cases hnext
  cases op with
  | kalloc =>
    rw [← Option.some.inj hnext]
    exact h.kalloc
  | uvmcreate =>
    rw [← Option.some.inj hnext]
    exact h.uvmcreate
  | kfree p =>
    obtain ⟨⟨hmem, hp⟩, rfl⟩ := guard_eq_some hnext
    exact h.kfree hmem hp
  | procPagetable t =>
    obtain ⟨ht, rfl⟩ := guard_eq_some hnext
    exact h.procPagetable ht
  | walk r va =>
    obtain ⟨hr, rfl⟩ := guard_eq_some hnext
    exact h.walk hr
  | mappages r v p perm =>
    obtain ⟨⟨hr, hv, hmem, hp, hflags, hread⟩, rfl⟩ := guard_eq_some hnext
    exact h.mappages hr hv hmem hp hflags hread
  | uvmalloc r oldsz newsz xperm =>
    obtain ⟨⟨hr, hold, hflags, hend⟩, rfl⟩ := guard_eq_some hnext
    exact h.uvmalloc hr hold hflags hend
  | uvmdealloc r oldsz newsz =>
    obtain ⟨⟨hr, hold⟩, rfl⟩ := guard_eq_some hnext
    exact h.uvmdealloc hr hold
  | uvmcopy r r' sz =>
    obtain ⟨⟨hr, hr', hne, hsz⟩, rfl⟩ := guard_eq_some hnext
    exact h.uvmcopy hr hr' hne hsz
  | fault r sp va =>
    obtain ⟨hr, rfl⟩ := guard_eq_some hnext
    exact h.handleFault hr fun _ => rfl
  | load r sp va =>
    simp only at hnext
    split at hnext
    · split at hnext
      · rw [← Option.some.inj hnext]
        exact h.unseen (Evolves.refl h.inv _) rfl
      · rename_i hr _
        rw [← Option.some.inj hnext]
        exact h.handleFault hr fun _ => rfl
    · cases hnext
  | store r sp va b =>
    simp only at hnext
    split at hnext
    · split at hnext
      · rename_i hstore
        rw [← Option.some.inj hnext]
        exact h.storeByte hstore.1 hstore.2
      · rename_i hr _
        rw [← Option.some.inj hnext]
        exact h.handleFault hr fun _ => rfl
    · cases hnext
  | uvmfree r sz =>
    obtain ⟨⟨hr, hsz⟩, rfl⟩ := guard_eq_some hnext
    exact h.uvmfree hr hsz
  | procFreepagetable r sz =>
    obtain ⟨⟨hr, hsz⟩, rfl⟩ := guard_eq_some hnext
    exact h.procFreepagetable hr hsz
  | freeproc r sz =>
    simp only at hnext
    split at hnext
    · cases hnext
    · rename_i t hframe
      obtain ⟨space, hspace, rfl, ht⟩ := Memory.exists_space hframe
      obtain ⟨⟨hone, hsz⟩, rfl⟩ := guard_eq_some hnext
      exact h.freeproc hspace ht hone hsz

end AdvancedXv6.Kernel
