import AdvancedXv6.Kernel.System
import AdvancedXv6.Kernel.Teardown

/-!
# The first process and its first child

The states after `userinit` and after one `fork`, with all that is in them. They are where runs of the kernel start.
-/

namespace AdvancedXv6.Kernel

open Function Prog

variable {k k' k'' : KState} {L L' L'' : Ledger} {r r' v t p : ℕ} {E : Panic → Prop}

def firstPerm : Pte := pteW ||| pteR ||| pteX ||| pteU

structure Started (r t p : ℕ) (k : KState) (L : Ledger) : Prop where
  forest : Forest k L
  root : L.role r = .root
  data : L.role p = .data
  count : k.pageRefCount p = 1
  first : L.view k r 0 = leafPte p firstPerm
  view_eq : ∀ u, u < 2 ^ 27 → u ≠ 0 → L.view k r u = if u = userPages then trapframePte t else if u = userPages + 1 then trampolinePte else 0
  mid_eq : ∀ i, L.Has (.mid r i) → i = 0 ∨ i = 255

theorem Forest.view_setBytes (h : Forest k L) (hp : L.role p = .data) (offset : ℕ)
    (bytes : List (BitVec 8)) : L.view (k.setBytes p offset bytes) = L.view k := by
  refine h.view_congr (fun _ => Iff.rfl) fun x hx => update_of_ne ?_ _ _
  rintro rfl
  rw [hp] at hx
  cases hx

theorem NewSpace.post_uvmfirst {k0 : KState} {L0 : Ledger} (h : NewSpace r t k0 L0 k L)
    (hfree : 4 ≤ L.free.length) {src : List (BitVec 8)} (hsrc : src.length < pgsize)
    {Q : Unit → KState → Prop} (hdone : ∀ p k' L', L.free.length ≤ L'.free.length + 3 → Started r t p k' L' → Q () k') :
    Post (uvmfirst (r * pgsize) src) k Q E := by
  have hsmall := userPages_eq
  unfold uvmfirst
  rw [if_neg (Nat.not_le.mpr hsrc)]
  refine Post.bind (h.forest.post_kalloc (fun hempty => ?_) fun p k1 L1 hpopped => ?_)
  · rw [hempty] at hfree
    cases hfree
  rw [if_neg hpopped.address_ne_zero]
  refine Post.bind (post_memset ?_)
  have hset := hpopped.setPage fun _ => repeatByte 0
  generalize hk2 : ({ k1 with mem := update k1.mem p fun _ => repeatByte 0 } : KState) = k2 at hset
  have hlength : L.free.length = L1.free.length + 1 := by rw [hpopped.free_eq, List.length_cons]
  have hr1 : L1.role r = .root := role_kept (hset.kept h.forest).role_eq h.root nofun
  have hview1 := hset.view_eq h.forest
  have hmissing : L1.missing r (0 * pgsize) ≤ 2 := Ledger.missing_le ..
  rw [show (0 : ℕ) = 0 * pgsize from (Nat.zero_mul _).symm]
  refine Post.bind (hset.forest.post_mappages hr1 (by decide) (fun hvalid => ?_)
    (fun m k' L' hsprouted hempty hm => ?_) fun q k3 L3 hsprouted hreached _ hslot => ?_)
  · rw [hview1, h.view_eq 0 (by decide), if_neg (by omega), if_neg (by omega), zero_not_valid] at hvalid
    cases hvalid
  · have hlength' := hsprouted.length_eq
    rw [hempty, List.length_nil] at hlength'
    omega
  · have hp1 := hset.role_data
    have hp3 : L3.role p = .data := role_kept hsprouted.role_eq hp1 nofun
    have hr3 : L3.role r = .root := role_kept hsprouted.role_eq hr1 nofun
    have hrewritten := hsprouted.forest.rewritten hr3 (by decide) hslot (leafPte p firstPerm)
    have hlength3 := hsprouted.length_eq
    generalize hk4 : k3.write q (leafPte p firstPerm) = k4 at hrewritten
    have hk4' : k3.write q (pa2pte (p * pgsize) ||| (pteW ||| pteR ||| pteX ||| pteU) ||| pteV) = k4 := hk4
    rw [hk4']
    refine post_memmoveIn_page (hdone p _ L3 (by omega) ?_)
    have hview := hrewritten.forest.view_setBytes hp3 0 src
    refine ⟨hrewritten.forest.setPage hp3 _, hr3, hp3, ?_, ?_, fun u hu hne => ?_, fun i hmid => ?_⟩
    · show k4.pageRefCount p = 1
      rw [hrewritten.count_eq, hsprouted.count_eq p (by rw [hp1]; nofun), hset.count_eq, update_self]
    · rw [hview, hrewritten.view_eq r 0 (by decide), if_pos ⟨rfl, rfl⟩]
    · rw [hview, hrewritten.view_eq r u hu, if_neg (fun ht => hne ht.2), hsprouted.view_eq, hview1, h.view_eq u hu]
    · rcases (hreached _ rfl).mp hmid with ⟨x, hx⟩ | hmid1 | hmid1
      · have hxp : x ≠ p := by
          rintro rfl
          rw [hp1] at hx
          cases hx
        rw [hset.role_of_ne hxp] at hx
        exact .inr (h.mid_eq i ⟨x, hx⟩)
      · rw [Nat.zero_mul] at hmid1
        cases hmid1
        exact .inl rfl
      · cases hmid1

theorem Forest.post_userinit (h : Forest k L) (hfree : 8 ≤ L.free.length) {Q : Proc → KState → Prop}
    (hdone : ∀ r t p k' L', L.free.length ≤ L'.free.length + 7 → Started r t p k' L' →
      Q { state := .runnable, pagetable := r * pgsize, trapframe := t * pgsize, sz := pgsize } k') : Post (userinit Proc.empty) k Q E := by
  unfold userinit
  refine Post.bind (h.post_allocproc rfl (fun _ hlt => by omega) fun t r k1 L1 k' L' hpopped hspace => ?_)
  have hlength : L.free.length = L1.free.length + 1 := by rw [hpopped.free_eq, List.length_cons]
  have hlength' := hspace.length_eq
  refine Post.bind (hspace.post_uvmfirst (by omega) (by decide) fun p k'' L'' hle hstarted => Post.pure ?_)
  exact hdone r t p k'' L'' (by omega) hstarted

theorem exists_started : ∃ r t p k L, start 0 (boot fun _ _ => 0) = .ok (([],
      { state := .runnable, pagetable := r * pgsize, trapframe := t * pgsize, sz := pgsize }), k) ∧
    Started r t p k L ∧ 32000 ≤ L.free.length := by
  have hpost : Post (start 0) (boot fun _ _ => 0) (fun out k => ∃ r t p L, out = ([],
        { state := .runnable, pagetable := r * pgsize, trapframe := t * pgsize, sz := pgsize }) ∧
      Started r t p k L ∧ 32000 ≤ L.free.length) fun _ => False := by
    refine Post.bind ((post_kinit _).mono (fun _ k hk => ?_) fun _ => id)
    obtain ⟨free, hfresh⟩ := hk
    have hlength : (freshLedger free).free.length = 0x88000 - 0x80243 := hfresh.length_eq
    refine Post.bind (Post.pure (Post.bind (hfresh.inv.forest.post_userinit (by omega) fun r t p k' L' hle hstarted => Post.pure ?_)))
    exact ⟨r, t, p, L', rfl, hstarted, by omega⟩
  obtain ⟨_, k, hrun, r, t, p, L, rfl, hstarted, hlength⟩ := hpost.exists_ok
  exact ⟨r, t, p, k, L, hrun, hstarted, hlength⟩

def firstProc (r t : ℕ) : Proc := { state := .runnable, pagetable := r * pgsize, trapframe := t * pgsize, sz := pgsize }

theorem exists_first : ∃ (s : System 2) (r t p : ℕ) (L : Ledger), s.Reachable ∧ s.panicked = none ∧ s.procs 0 = firstProc r t ∧ s.procs 1 = Proc.empty ∧
    Started r t p s.kernel L ∧ 32000 ≤ L.free.length := by
  obtain ⟨r, t, p, k, L, hstart, hstarted, hlength⟩ := exists_started
  let s : System 2 := { kernel := k, procs := fun i => if i = 0 then firstProc r t else Proc.empty, buffers := [], panicked := none }
  have hfirst : s.procs 0 = firstProc r t := rfl
  have hothers : ∀ j, j ≠ 0 → s.procs j = Proc.empty := fun j hj => if_neg hj
  refine ⟨s, r, t, p, L, Transition.Reachable.of_init ⟨fun _ _ => 0, 0, 0, by decide, ?_,
    hothers, rfl⟩, rfl, hfirst, hothers 1 (by decide), hstarted, hlength⟩
  rw [hfirst]
  exact hstart

theorem Started.maps (h : Started r t p k L) : MapsData r 0 (pages pgsize) k L := MapsData.one h.forest h.data readable_first h.first

structure Twins (r r' p : ℕ) (k : KState) (L : Ledger) : Prop where
  forest : Forest k L
  root : L.role r = .root
  child : L.role r' = .root
  ne : r ≠ r'
  data : L.role p = .data
  parent_eq : L.view k r 0 = cowPte (leafPte p firstPerm)
  child_eq : L.view k r' 0 = leafPte p (shareFlags (pteFlags (leafPte p firstPerm)))
  count : k.pageRefCount p = 2
  nonempty : L.free ≠ []

theorem Started.post_fork (h : Started r t p k L) (hfree : 32000 ≤ L.free.length) {Q : Proc × ℤ → KState → Prop}
    (hdone : ∀ np r' k' L', np.state = .runnable → np.pagetable = r' * pgsize → Twins r r' p k' L' →
      Q (np, 0) k') : Post (fork (firstProc r t) Proc.empty) k Q E := by
  have hpage : (L.view k r 0).page = p := h.forest.page_eq h.data readable_first.isFlags h.first
  have hone : pages pgsize = 1 := rfl
  have htables : tablesFor 1 = 2 := by decide
  unfold fork firstProc
  refine Post.bind (h.forest.post_allocproc_ready h.root h.maps (by decide) (fun _ hlt => by omega) fun np r' k1 L1 hnp hready => ?_)
  have hlength := hready.length_eq
  have hview := hready.view_eq 0 (by decide)
  have hcount := hready.count_eq 0 (by decide)
  rw [hpage, h.count] at hcount
  simp only [hnp]
  refine Post.bind (hready.forest.post_uvmcopy hready.root hready.child hready.ne hready.bare hready.maps (by decide) (fun hex => ?_) (fun hex => ?_)
    (fun v m k2 L2 k' L' hv _ hshort _ => ?_) fun k2 L2 hcopied => ?_)
  · obtain ⟨v, hv, _, hneg⟩ := hex
    rw [show v = 0 by omega, hview, hpage, hcount] at hneg
    cases hneg
  · obtain ⟨u, v, huv, hv, _⟩ := hex
    omega
  · rw [show v = 0 by omega, htables] at hshort
    omega
  · rw [if_neg (by decide)]
    refine Post.pure (hdone _ r' k2 L2 rfl rfl ⟨hcopied.forest, hcopied.root hready.root,
      hcopied.root hready.child, hready.ne, ?_, ?_, ?_, ?_, fun hempty => ?_⟩)
    · have hdata := hready.maps.data 0 (by decide) (by decide)
      rw [hview, hpage] at hdata
      exact role_kept hcopied.role_eq hdata nofun
    · rw [hcopied.old_eq 0 (by decide), hview, h.first]
    · rw [hcopied.new_eq 0 (by decide), hview, hpage, h.first]
    · have htwo := hcopied.count_page 0 (by decide)
      rw [hview, hpage, hcount] at htwo
      exact htwo
    · have hused := hcopied.length_eq
      rw [hempty, List.length_nil, hone, htables] at hused
      omega

theorem exists_twins : ∃ (s : System 2) (r r' p : ℕ) (L : Ledger), s.Reachable ∧ s.panicked = none ∧
    (s.procs 0).state = .runnable ∧ (s.procs 1).state = .runnable ∧
    (s.procs 0).pagetable = r * pgsize ∧ (s.procs 1).pagetable = r' * pgsize ∧ Twins r r' p s.kernel L := by
  obtain ⟨s, r, t, p, L, hreach, hnone, hfirst, hempty, hstarted, hlength⟩ := exists_first
  have hpost : Post (fork (firstProc r t) Proc.empty) s.kernel (fun out k' => ∃ r' L',
      out.1.state = .runnable ∧ out.1.pagetable = r' * pgsize ∧ Twins r r' p k' L') fun _ => False :=
    hstarted.post_fork hlength fun np r' k' L' hrun hnp htwins => ⟨r', L', hrun, hnp, htwins⟩
  obtain ⟨out, k', hrun, r', L', hstate, hpagetable, htwins⟩ := hpost.exists_ok
  have hnext : s.next (.fork 0 1) = some (s.set 1 out.1 k') := by
    have hready : (s.procs 0).state = .runnable ∧ (s.procs 1).state = .unused := by
      rw [hfirst, hempty]
      exact ⟨rfl, rfl⟩
    rw [← hfirst, ← hempty] at hrun
    simp only [System.next, System.run, hnone, Option.isSome_none, Bool.false_eq_true, if_false, if_pos hready, hrun]
  have hzero : (s.set 1 out.1 k').procs 0 = firstProc r t := (s.set_of_ne out.1 k' (by decide)).trans hfirst
  have hself : (s.set 1 out.1 k').procs 1 = out.1 := s.set_self 1 out.1 k'
  refine ⟨s.set 1 out.1 k', r, r', p, L', hreach.tail ⟨_, hnext⟩, hnone, by rw [hzero]; rfl,
    by rw [hself]; exact hstate, by rw [hzero]; rfl, by rw [hself]; exact hpagetable, htwins⟩

/-- One process has forked and asks for another page. -/
theorem exists_grown : ∃ s s' : System 2, s.Reachable ∧ (s.procs 1).state = .runnable ∧
    s.next (.sbrk 0 pgsize) = some s' ∧ s'.Live 0 ∧ s'.Live 1 := by
  obtain ⟨s, r, r', p, L, hreach, hnone, hrun, hchild, _⟩ := exists_twins
  obtain ⟨⟨L', hsound⟩, _⟩ := hreach.fine
  have hlive := live_of_runnable hrun
  have hpost := (hsound.lives 0 hlive).post_growproc (fun _ => id) hsound.inv pgsize
  have hguard : (s.procs 0).state = .runnable ∧ -2 ^ 31 ≤ (pgsize : ℤ) ∧ (pgsize : ℤ) < 2 ^ 31 :=
    ⟨hrun, by decide, by decide⟩
  have hnext : s.next (.sbrk 0 pgsize) =
      some (s.run (growproc (s.procs 0) pgsize) fun out k => s.set 0 out.1 k) := by
    rw [System.next, hnone]
    exact if_pos hguard
  refine ⟨s, _, hreach, hchild, hnext, ?_⟩
  unfold System.run
  cases hx : growproc (s.procs 0) pgsize s.kernel with
  | error e => exact ⟨hlive, live_of_runnable hchild⟩
  | ok out =>
    obtain ⟨_, hmoved⟩ := hpost.of_ok hx
    refine ⟨live_of_runnable ?_, live_of_runnable ?_⟩
    · rw [s.set_self, hmoved.state_eq, hrun]
    · rw [s.set_of_ne _ _ (by decide), hchild]

/-! ### The layout -/

section
variable {n : ℕ} {s : System n}

/-- In every reachable state every process has exactly its image, its trapframe and the trampoline mapped, and no function has found an entry it does not expect. -/
theorem system_layout (h : s.Reachable) : (∀ i, s.Live i → s.LaidOut i) ∧ ∀ e, s.panicked = some e → e ∉ layoutPanics := by
  obtain ⟨⟨L, hsound⟩, hpanics⟩ := h.fine
  exact ⟨fun i hi => hsound.laidOut hi, hpanics⟩

end

theorem system_layout_sbrk : ∃ s s' : System 2, s.Reachable ∧ (s.procs 1).state = .runnable ∧
    s.next (.sbrk 0 pgsize) = some s' ∧ s'.LaidOut 0 ∧ s'.LaidOut 1 ∧
    ∀ e, s'.panicked = some e → e ∉ layoutPanics := by
  obtain ⟨s, s', hreach, hchild, hnext, hlive, hlive'⟩ := exists_grown
  obtain ⟨hlaid, hpanics⟩ := system_layout (hreach.tail ⟨_, hnext⟩)
  exact ⟨s, s', hreach, hchild, hnext, hlaid 0 hlive, hlaid 1 hlive', hpanics⟩

end AdvancedXv6.Kernel
