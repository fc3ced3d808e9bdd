import AdvancedXv6.Kernel.FreeList
import AdvancedXv6.Lib.Transition
import AdvancedXv6.Lib.Weights

/-!
# The allocator on several CPUs

Each part of `kalloc`, `kfree` and `IncrementAndGetPageReference` that runs under a lock is one step of one CPU. A CPU frees or shares a page only while it holds a reference to it, and it may hand a reference to another CPU. Between the step of `kfree` that takes the count to zero and the step that pushes the page the page is in transit. What a CPU does with the contents of a page it holds, or has in transit, is arbitrary: this covers the junk that `kalloc` and `kfree` fill in outside the locks.
-/

namespace AdvancedXv6.Kernel

open Function Prog Transition Weights

/-- The references a CPU holds to each page, and the page it is about to push. -/
structure Cpu where
  held : ℕ → ℕ
  transit : Option ℕ

structure Cpus (n : ℕ) where
  kernel : KState
  cpu : Fin n → Cpu
  panicked : Bool

variable {n : ℕ}

inductive Action (n : ℕ) where
  | kalloc (c : Fin n)
  | kfree (c : Fin n) (p : ℕ)
  | push (c : Fin n)
  | share (c : Fin n) (p : ℕ)
  | pass (c d : Fin n) (p : ℕ)
  | write (c : Fin n) (p : ℕ) (page : Page)

def Cpu.take (c : Cpu) (p : ℕ) : Cpu := { c with held := update c.held p (c.held p + 1) }

def Cpu.drop (c : Cpu) (p : ℕ) : Cpu := { c with held := update c.held p (c.held p - 1) }

def Cpu.dropLast (c : Cpu) (p : ℕ) : Cpu := { held := (c.drop p).held, transit := some p }

def Cpu.Holds (c : Cpu) (p : ℕ) : Prop := c.transit = none ∧ 0 < c.held p

instance (c : Cpu) (p : ℕ) : Decidable (c.Holds p) := by
  unfold Cpu.Holds
  infer_instance

theorem Cpu.Holds.take {c : Cpu} {p : ℕ} (h : c.Holds p) : (c.take p).Holds p := by
  refine ⟨h.1, ?_⟩
  simp [Cpu.take]

/-- One step under a lock. A panic stops all the CPUs. -/
def Cpus.atomically {α : Type} (s : Cpus n) (x : KernelM α) (c : Fin n) (after : α → Cpu) : Cpus n :=
  match x s.kernel with
  | .ok (a, kernel) => { s with kernel, cpu := update s.cpu c (after a) }
  | .error _ => { s with panicked := true }

def Cpus.next (s : Cpus n) (action : Action n) : Option (Cpus n) :=
  if s.panicked then none else
  match action with
  | .kalloc c =>
    if (s.cpu c).transit = none then
      some (s.atomically kallocPop c fun r => if r = 0 then s.cpu c else (s.cpu c).take (r / pgsize))
    else none
  | .kfree c p =>
    if (s.cpu c).Holds p then
      some (s.atomically (kfreeDrop (p * pgsize)) c fun refCount =>
        if 0 < refCount then (s.cpu c).drop p else (s.cpu c).dropLast p)
    else none
  | .push c =>
    match (s.cpu c).transit with
    | none => none
    | some p => some (s.atomically (kfreePush (p * pgsize)) c fun _ => { s.cpu c with transit := none })
  | .share c p =>
    if (s.cpu c).Holds p then
      some (s.atomically (incrementAndGetPageReference (p * pgsize)) c fun _ => (s.cpu c).take p)
    else none
  | .pass c d p =>
    if (s.cpu c).Holds p ∧ c ≠ d then
      some { s with cpu := update (update s.cpu c ((s.cpu c).drop p)) d ((s.cpu d).take p) }
    else none
  | .write c p page =>
    if 0 < (s.cpu c).held p ∨ (s.cpu c).transit = some p then
      some { s with kernel := { s.kernel with mem := update s.kernel.mem p page } }
    else none

def Cpus.Initial (s : Cpus n) : Prop :=
  ∃ mem, kinit (boot mem) = .ok ((), s.kernel) ∧ (∀ c, s.cpu c = { held := fun _ => 0, transit := none }) ∧
    s.panicked = false

/-! ### Where a page is -/

def Cpus.refs (s : Cpus n) (p : ℕ) : ℕ := total (fun _ c => c.held p) s.cpu

def Cpus.transits (s : Cpus n) (p : ℕ) : ℕ := total (fun _ c => if c.transit = some p then 1 else 0) s.cpu

def Cpus.OnFreeList (s : Cpus n) (free : List ℕ) (p : ℕ) : Prop :=
  free.count p = 1 ∧ s.refs p = 0 ∧ s.transits p = 0 ∧ s.kernel.pageRefCount p = 0

/-- The page is allocated, and its count is the number of references held. -/
def Cpus.Allocated (s : Cpus n) (free : List ℕ) (p : ℕ) : Prop :=
  free.count p = 0 ∧ 0 < s.refs p ∧ s.transits p = 0 ∧ s.kernel.pageRefCount p = s.refs p

/-- The page is in exactly one `kfree` that has taken the count to 0 and not yet pushed the page. -/
def Cpus.InTransit (s : Cpus n) (free : List ℕ) (p : ℕ) : Prop :=
  free.count p = 0 ∧ s.refs p = 0 ∧ s.transits p = 1 ∧ s.kernel.pageRefCount p = 0

/-- Nothing has panicked, and every allocatable page is in exactly one of the three places. -/
structure Cpus.Sound (s : Cpus n) (free : List ℕ) : Prop where
  running : s.panicked = false
  chain : FreeChain s.kernel.mem s.kernel.freelist free
  placed : ∀ p, Allocatable p → s.OnFreeList free p ∨ s.Allocated free p ∨ s.InTransit free p
  inside : ∀ p, ¬ Allocatable p → s.refs p = 0 ∧ s.transits p = 0

/-! ### One step -/

variable {s : Cpus n} {free : List ℕ} {c : Fin n} {p : ℕ}

theorem Cpus.atomically_of_post {α : Type} {x : KernelM α} {after : α → Cpu} {Q : Cpus n → Prop}
    (h : Post x s.kernel (fun a kernel => Q { s with kernel, cpu := update s.cpu c (after a) }) fun _ => False) :
    Q (s.atomically x c after) := by
  unfold Cpus.atomically
  cases hx : x s.kernel with
  | ok r => exact h.of_ok hx
  | error e => exact (h.of_error hx).elim

theorem Cpus.refs_update (kernel : KState) (panicked : Bool) (cpu : Cpu) (q : ℕ) :
    Cpus.refs ⟨kernel, update s.cpu c cpu, panicked⟩ q + (s.cpu c).held q = s.refs q + cpu.held q :=
  total_update (fun _ c => c.held q) s.cpu c cpu

theorem Cpus.transits_update (kernel : KState) (panicked : Bool) (cpu : Cpu) (q : ℕ) :
    Cpus.transits ⟨kernel, update s.cpu c cpu, panicked⟩ q + (if (s.cpu c).transit = some q then 1 else 0) =
      s.transits q + if cpu.transit = some q then 1 else 0 :=
  total_update (fun _ (c : Cpu) => if c.transit = some q then 1 else 0) s.cpu c cpu

theorem Cpus.held_le_refs (s : Cpus n) (c : Fin n) (q : ℕ) : (s.cpu c).held q ≤ s.refs q :=
  le_total (fun _ c => c.held q) s.cpu c

theorem Cpus.one_le_transits (h : (s.cpu c).transit = some p) : 1 ≤ s.transits p := by
  have hle := le_total (fun _ (c : Cpu) => if c.transit = some p then 1 else 0) s.cpu c
  simp only [h, if_true] at hle
  exact hle

theorem Allocatable.not_rejected (h : Allocatable p) :
    ¬ (p * pgsize % pgsize ≠ 0 ∨ p * pgsize < kernelEnd ∨ phystop ≤ p * pgsize) := by
  have hmod := Nat.mul_mod_left p pgsize
  have hlow := h.1
  have hhigh := h.2
  omega

section

variable (h : s.Sound free)
include h

theorem Cpus.Sound.allocatable_of_held (hheld : 0 < (s.cpu c).held p) : Allocatable p := by
  by_contra hnot
  have hzero := (h.inside p hnot).1
  have hle := s.held_le_refs c p
  omega

theorem Cpus.Sound.allocated_of_held (hheld : 0 < (s.cpu c).held p) : s.Allocated free p := by
  have hle := s.held_le_refs c p
  rcases h.placed p (h.allocatable_of_held hheld) with hfree | halloc | htransit
  · have hzero := hfree.2.1
    omega
  · exact halloc
  · have hzero := htransit.2.1
    omega

theorem Cpus.Sound.inTransit_of_transit (htransit : (s.cpu c).transit = some p) :
    Allocatable p ∧ s.InTransit free p := by
  have hone := Cpus.one_le_transits htransit
  have halloc : Allocatable p := by
    by_contra hnot
    have hzero := (h.inside p hnot).2
    omega
  refine ⟨halloc, ?_⟩
  rcases h.placed p halloc with hfree | hheld | hin
  · have hzero := hfree.2.2.1
    omega
  · have hzero := hheld.2.2.1
    omega
  · exact hin

omit h in
theorem Cpu.held_take (c : Cpu) (p q : ℕ) : (c.take p).held q = c.held q + if q = p then 1 else 0 := by
  by_cases hq : q = p
  · simp [Cpu.take, hq]
  · simp [Cpu.take, hq]

omit h in
theorem Cpu.held_drop (c : Cpu) (p q : ℕ) : (c.drop p).held q = c.held q - if q = p then 1 else 0 := by
  by_cases hq : q = p
  · simp [Cpu.drop, hq]
  · simp [Cpu.drop, hq]

theorem Cpus.Sound.step {kernel : KState} {cpu : Cpu} {free' : List ℕ} (halloc : Allocatable p)
    (hchain : FreeChain kernel.mem kernel.freelist free')
    (hrest : ∀ q, q ≠ p → free'.count q = free.count q ∧ cpu.held q = (s.cpu c).held q ∧
      (cpu.transit = some q ↔ (s.cpu c).transit = some q) ∧ kernel.pageRefCount q = s.kernel.pageRefCount q)
    (hplaced : ∀ s' : Cpus n, s'.kernel = kernel →
      s'.refs p + (s.cpu c).held p = s.refs p + cpu.held p →
      s'.transits p + (if (s.cpu c).transit = some p then 1 else 0) =
        s.transits p + (if cpu.transit = some p then 1 else 0) →
      s'.OnFreeList free' p ∨ s'.Allocated free' p ∨ s'.InTransit free' p) :
    Cpus.Sound ⟨kernel, update s.cpu c cpu, s.panicked⟩ free' := by
  have hsame : ∀ q, q ≠ p → Cpus.refs ⟨kernel, update s.cpu c cpu, s.panicked⟩ q = s.refs q ∧
      Cpus.transits ⟨kernel, update s.cpu c cpu, s.panicked⟩ q = s.transits q := by
    intro q hq
    obtain ⟨_, hheld, htransit, _⟩ := hrest q hq
    have hrefs := Cpus.refs_update (s := s) (c := c) kernel s.panicked cpu q
    have htransits := Cpus.transits_update (s := s) (c := c) kernel s.panicked cpu q
    simp only [htransit] at htransits
    omega
  refine ⟨h.running, hchain, fun q hq => ?_, fun q hq => ?_⟩
  · by_cases hqp : q = p
    · subst hqp
      exact hplaced _ rfl (Cpus.refs_update ..) (Cpus.transits_update ..)
    · obtain ⟨hfree, _, _, hcount⟩ := hrest q hqp
      obtain ⟨hrefs, htransits⟩ := hsame q hqp
      unfold Cpus.OnFreeList Cpus.Allocated Cpus.InTransit
      rw [hrefs, htransits, hfree, hcount]
      exact h.placed q hq
  · have hqp : q ≠ p := by
      rintro rfl
      exact hq halloc
    rw [(hsame q hqp).1, (hsame q hqp).2]
    exact h.inside q hq

omit h in
theorem Cpus.Sound.count_of_free (h : s.Sound (p :: free)) : s.OnFreeList (p :: free) p := by
  have hplaced := h.placed p (h.chain.allocatable (List.mem_cons_self ..))
  have hcount : (p :: free).count p = free.count p + 1 := List.count_cons_self
  unfold Cpus.OnFreeList Cpus.Allocated Cpus.InTransit at hplaced
  unfold Cpus.OnFreeList
  omega

theorem Cpus.Sound.kalloc (c : Fin n) :
    ∃ free', Cpus.Sound (s.atomically kallocPop c fun r => if r = 0 then s.cpu c else (s.cpu c).take (r / pgsize)) free' := by
  refine Cpus.atomically_of_post (Q := fun s' => ∃ free', Cpus.Sound s' free') ?_
  refine post_kallocPop h.chain ?_ ?_ ?_
  · intro _
    rw [if_pos rfl, update_eq_self]
    exact ⟨free, h⟩
  · rintro p rest rfl hneg
    have hzero := h.count_of_free.2.2.2
    omega
  · rintro p rest rfl - hchain
    have halloc := h.chain.allocatable (List.mem_cons_self ..)
    have hp := allocatable_iff.mp halloc
    rw [if_neg (by unfold pgsize; omega), div_pgsize]
    refine ⟨rest, h.step halloc hchain (fun q hq => ?_) ?_⟩
    · refine ⟨?_, ?_, Iff.rfl, update_of_ne hq _ _⟩
      · rw [List.count_cons_of_ne hq.symm]
      · rw [Cpu.held_take, if_neg hq, Nat.add_zero]
    · intro s' hkernel hrefs htransits
      obtain ⟨honce, hnone, hout, hzero⟩ := h.count_of_free
      rw [List.count_cons_self] at honce
      rw [Cpu.held_take, if_pos rfl] at hrefs
      change _ = _ + (if (s.cpu c).transit = some p then 1 else 0) at htransits
      have hcount : s'.kernel.pageRefCount p = toInt32 (s.kernel.pageRefCount p + 1) := by
        rw [hkernel]
        exact update_self ..
      rw [hzero, toInt32_of_lt (by omega) (by omega)] at hcount
      exact .inr (.inl ⟨by omega, by omega, by omega, by omega⟩)

theorem Cpus.Sound.kfree (hheld : (s.cpu c).Holds p) :
    Cpus.Sound (s.atomically (kfreeDrop (p * pgsize)) c fun refCount =>
      if 0 < refCount then (s.cpu c).drop p else (s.cpu c).dropLast p) free := by
  have halloc := h.allocatable_of_held hheld.2
  obtain ⟨hnot, hpos, hout, hcount⟩ := h.allocated_of_held hheld.2
  refine Cpus.atomically_of_post (Q := fun s' => Cpus.Sound s' free) ?_
  unfold kfreeDrop
  rw [if_neg halloc.not_rejected]
  refine post_decrement ?_ ?_ <;> rw [div_page]
  · intro hle
    omega
  · intro _
    refine h.step halloc h.chain (fun q hq => ?_) ?_
    · refine ⟨rfl, ?_, ?_, update_of_ne hq _ _⟩
      · split <;> exact (Cpu.held_drop ..).trans (by rw [if_neg hq, Nat.sub_zero])
      · split
        · exact Iff.rfl
        · simp [Cpu.dropLast, hheld.1, hq.symm]
    · intro s' hkernel hrefs htransits
      have hkept : s'.kernel.pageRefCount p = s.kernel.pageRefCount p - 1 := by
        rw [hkernel]
        exact update_self ..
      have hdrop := (s.cpu c).held_drop p p
      rw [if_pos rfl] at hdrop
      have hone := hheld.2
      by_cases hmore : 0 < s.kernel.pageRefCount p - 1
      · rw [if_pos hmore] at htransits hrefs
        simp only [Cpu.drop, hheld.1, reduceCtorEq, if_false] at htransits
        exact .inr (.inl ⟨hnot, by omega, by omega, by omega⟩)
      · rw [if_neg hmore] at htransits hrefs
        simp only [Cpu.dropLast, hheld.1, reduceCtorEq, if_false, if_true] at htransits
        simp only [Cpu.dropLast] at hrefs
        exact .inr (.inr ⟨hnot, by omega, by omega, by omega⟩)

theorem Cpus.Sound.push (htransit : (s.cpu c).transit = some p) :
    Cpus.Sound (s.atomically (kfreePush (p * pgsize)) c fun _ => { s.cpu c with transit := none }) (p :: free) := by
  obtain ⟨halloc, hnot, hnone, hone, hzero⟩ := h.inTransit_of_transit htransit
  refine Cpus.atomically_of_post (Q := fun s' => Cpus.Sound s' (p :: free)) (Post.modify ?_)
  rw [div_pgsize]
  refine h.step halloc (h.chain.push (List.count_eq_zero.mp hnot) halloc) (fun q hq => ?_) ?_
  · refine ⟨List.count_cons_of_ne hq.symm, rfl, ?_, rfl⟩
    simp [htransit, hq.symm]
  · intro s' hkernel hrefs htransits
    have hcount : s'.kernel.pageRefCount p = s.kernel.pageRefCount p := by rw [hkernel]
    have hlist : (p :: free).count p = free.count p + 1 := List.count_cons_self
    simp only [htransit, reduceCtorEq, if_false, if_true] at htransits
    simp only at hrefs
    exact .inl ⟨by omega, by omega, by omega, by omega⟩

theorem Cpus.Sound.share (hheld : (s.cpu c).Holds p) (hroom : s.kernel.pageRefCount p < 2 ^ 31 - 1) :
    Cpus.Sound (s.atomically (incrementAndGetPageReference (p * pgsize)) c fun _ => (s.cpu c).take p) free := by
  have halloc := h.allocatable_of_held hheld.2
  obtain ⟨hnot, hpos, hout, hcount⟩ := h.allocated_of_held hheld.2
  refine Cpus.atomically_of_post (Q := fun s' => Cpus.Sound s' free) ?_
  refine post_increment ?_ ?_ <;> rw [div_page]
  · intro hneg
    omega
  · intro _
    refine h.step halloc h.chain (fun q hq => ?_) ?_
    · refine ⟨rfl, ?_, Iff.rfl, update_of_ne hq _ _⟩
      rw [Cpu.held_take, if_neg hq, Nat.add_zero]
    · intro s' hkernel hrefs htransits
      have hkept : s'.kernel.pageRefCount p = toInt32 (s.kernel.pageRefCount p + 1) := by
        rw [hkernel]
        exact update_self ..
      rw [toInt32_of_lt (by omega) (by omega)] at hkept
      rw [Cpu.held_take, if_pos rfl] at hrefs
      change _ = _ + (if (s.cpu c).transit = some p then 1 else 0) at htransits
      exact .inr (.inl ⟨hnot, by omega, by omega, by omega⟩)

theorem Cpus.Sound.congr {s' : Cpus n} (hrunning : s'.panicked = s.panicked)
    (hchain : FreeChain s'.kernel.mem s'.kernel.freelist free) (hcount : s'.kernel.pageRefCount = s.kernel.pageRefCount)
    (hrefs : ∀ q, s'.refs q = s.refs q) (htransits : ∀ q, s'.transits q = s.transits q) : s'.Sound free := by
  refine ⟨hrunning.trans h.running, hchain, fun q hq => ?_, fun q hq => ?_⟩
  · unfold Cpus.OnFreeList Cpus.Allocated Cpus.InTransit
    rw [hrefs, htransits, hcount]
    exact h.placed q hq
  · rw [hrefs, htransits]
    exact h.inside q hq

theorem Cpus.Sound.pass {d : Fin n} (hheld : (s.cpu c).Holds p) (hne : c ≠ d) :
    Cpus.Sound ⟨s.kernel, update (update s.cpu c ((s.cpu c).drop p)) d ((s.cpu d).take p), s.panicked⟩
      free := by
  let mid : Cpus n := ⟨s.kernel, update s.cpu c ((s.cpu c).drop p), s.panicked⟩
  have hd : mid.cpu d = s.cpu d := update_of_ne hne.symm _ _
  change Cpus.Sound ⟨s.kernel, update mid.cpu d ((s.cpu d).take p), s.panicked⟩ free
  refine h.congr rfl h.chain rfl (fun q => ?_) fun q => ?_
  · have hfirst : mid.refs q + (s.cpu c).held q = s.refs q + ((s.cpu c).drop p).held q := Cpus.refs_update ..
    have hsecond := Cpus.refs_update (s := mid) (c := d) s.kernel s.panicked ((s.cpu d).take p) q
    rw [hd, Cpu.held_take] at hsecond
    rw [Cpu.held_drop] at hfirst
    have hpos := hheld.2
    by_cases hq : q = p
    · subst hq
      simp only [if_true] at hfirst hsecond
      omega
    · simp only [if_neg hq] at hfirst hsecond
      omega
  · have hfirst : mid.transits q + (if (s.cpu c).transit = some q then 1 else 0) =
        s.transits q + (if (s.cpu c).transit = some q then 1 else 0) := Cpus.transits_update ..
    have hsecond := Cpus.transits_update (s := mid) (c := d) s.kernel s.panicked ((s.cpu d).take p) q
    rw [hd] at hsecond
    change _ = _ + (if (s.cpu d).transit = some q then 1 else 0) at hsecond
    omega

theorem Cpus.Sound.write (howned : 0 < (s.cpu c).held p ∨ (s.cpu c).transit = some p) (page : Page) :
    Cpus.Sound ⟨{ s.kernel with mem := update s.kernel.mem p page }, s.cpu, s.panicked⟩ free := by
  have hnot : p ∉ free := by
    rw [← List.count_eq_zero]
    rcases howned with hheld | htransit
    · exact (h.allocated_of_held hheld).1
    · exact (h.inTransit_of_transit htransit).2.1
  exact h.congr rfl (h.chain.update hnot page) rfl (fun _ => rfl) fun _ => rfl

/-- Every step keeps every page in its place, but for one more reference to a page that already has `2^31 - 1`. -/
theorem Cpus.Sound.next {s' : Cpus n} {action : Action n} (hnext : s.next action = some s')
    (hroom : ∀ c p, action = .share c p → s.kernel.pageRefCount p < 2 ^ 31 - 1) : ∃ free', s'.Sound free' := by
  unfold Cpus.next at hnext
  rw [if_neg (by rw [h.running]; decide)] at hnext
  cases action with
  | kalloc c =>
    obtain ⟨_, rfl⟩ := guard_eq_some hnext
    exact h.kalloc c
  | kfree c p =>
    obtain ⟨hheld, rfl⟩ := guard_eq_some hnext
    exact ⟨free, h.kfree hheld⟩
  | push c =>
    cases htransit : (s.cpu c).transit with
    | none => simp [htransit] at hnext
    | some p =>
      simp only [htransit, Option.some.injEq] at hnext
      subst hnext
      exact ⟨p :: free, h.push htransit⟩
  | share c p =>
    obtain ⟨hheld, rfl⟩ := guard_eq_some hnext
    exact ⟨free, h.share hheld (hroom c p rfl)⟩
  | pass c d p =>
    obtain ⟨⟨hheld, hne⟩, rfl⟩ := guard_eq_some hnext
    exact ⟨free, h.pass hheld hne⟩
  | write c p page =>
    obtain ⟨howned, rfl⟩ := guard_eq_some hnext
    exact ⟨free, h.write howned page⟩

end

/-! ### Every run -/

theorem Cpus.Initial.idle (h : s.Initial) (q : ℕ) : s.refs q = 0 ∧ s.transits q = 0 := by
  obtain ⟨_, _, hidle, _⟩ := h
  refine ⟨total_eq_zero fun c => ?_, total_eq_zero fun c => ?_⟩
  · rw [hidle c]
  · rw [hidle c]
    exact if_neg nofun

theorem Cpus.Initial.sound (h : s.Initial) : ∃ free, s.Sound free := by
  have hidle := h.idle
  obtain ⟨mem, hkinit, _, hrunning⟩ := h
  obtain ⟨free, hfresh⟩ := (post_kinit mem).of_ok hkinit
  refine ⟨free, hrunning, hfresh.chain, fun p hp => .inl ⟨?_, (hidle p).1, (hidle p).2, hfresh.count_eq p⟩, fun p _ => hidle p⟩
  exact List.count_eq_one_of_mem hfresh.nodup ((hfresh.mem_iff p).mpr (allocatable_iff.mp hp))

structure Cpus.Correct (s : Cpus n) : Prop where
  sound : ∃ free, s.Sound free
  kalloc_fresh : ∀ r kernel, kallocPop s.kernel = .ok (r, kernel) → r ≠ 0 →
    s.refs (r / pgsize) = 0 ∧ s.transits (r / pgsize) = 0
  push_once : ∀ c d p, (s.cpu c).transit = some p → (s.cpu d).transit = some p → c = d

theorem Cpus.Sound.correct (h : s.Sound free) : s.Correct where
  sound := ⟨free, h⟩
  kalloc_fresh := by
    intro r kernel hpop
    refine Post.of_ok (Q := fun r _ => r ≠ 0 → s.refs (r / pgsize) = 0 ∧ s.transits (r / pgsize) = 0) (E := fun _ => True)
      (post_kallocPop h.chain (fun _ hne => absurd rfl hne) (fun _ _ _ _ => trivial) ?_) hpop
    rintro p rest rfl - - -
    rw [div_pgsize]
    exact ⟨h.count_of_free.2.1, h.count_of_free.2.2.1⟩
  push_once := by
    intro c d p hc hd
    by_contra hne
    have htwo := two_le_total (fun _ (c : Cpu) => if c.transit = some p then 1 else 0) s.cpu hne
    simp only [hc, hd, if_true] at htwo
    have hone : s.transits p = 1 := (h.inTransit_of_transit hc).2.2.2.1
    unfold Cpus.transits at hone
    omega

/-- A step that does not add a reference to a page that already has `2^31 - 1`. -/
def Cpus.StepWithin (s s' : Cpus n) : Prop :=
  ∃ action, s.next action = some s' ∧ ∀ c p, action = .share c p → s.kernel.pageRefCount p < 2 ^ 31 - 1

theorem Cpus.exists_sound (hs : Reachable Cpus.Initial Cpus.StepWithin s) :
    ∃ free, s.Sound free := by
  refine hs.invariant (I := fun s => ∃ free, Cpus.Sound s free) (fun s hinit => hinit.sound) ?_
  rintro s s' - ⟨free, hfree⟩ ⟨action, hnext, hroom⟩
  exact hfree.next hnext hroom

/-! ### The first page -/

theorem exists_initial (n : ℕ) : ∃ s : Cpus n, s.Initial := by
  cases hk : kinit (boot fun _ _ => 0) with
  | ok r => exact ⟨⟨r.2, fun _ => { held := fun _ => 0, transit := none }, false⟩, _, hk, fun _ => rfl, rfl⟩
  | error e => exact ((post_kinit _).of_error hk).elim

/-- A state of a run within the range, with what each CPU holds and the count of one page. -/
structure Cpus.At (s : Cpus n) (cpu : Fin n → Cpu) (p : ℕ) (count : ℤ) : Prop where
  reachable : Reachable Cpus.Initial Cpus.StepWithin s
  cpu_eq : s.cpu = cpu
  count_eq : s.kernel.pageRefCount p = count

def Cpu.idle : Cpu := { held := fun _ => 0, transit := none }

theorem exists_at_kalloc (c : Fin n) :
    ∃ (s : Cpus n) (p : ℕ), s.At (update (fun _ => Cpu.idle) c (Cpu.idle.take p)) p 1 := by
  obtain ⟨s, hinit⟩ := exists_initial n
  obtain ⟨free, hsound⟩ := hinit.sound
  have hidle : s.cpu = fun _ => Cpu.idle := funext hinit.choose_spec.2.1
  let s' := s.atomically kallocPop c fun r =>
    if r = 0 then s.cpu c else (s.cpu c).take (r / pgsize)
  have hnext : s.next (.kalloc c) = some s' := by
    rw [Cpus.next, if_neg (by rw [hsound.running]; decide)]
    exact if_pos (by rw [hidle]; rfl)
  have hgot : ∃ p, s'.cpu = update (fun _ => Cpu.idle) c (Cpu.idle.take p) ∧
      s'.kernel.pageRefCount p = 1 := by
    refine Cpus.atomically_of_post (Q := fun s' => ∃ p,
      s'.cpu = update (fun _ => Cpu.idle) c (Cpu.idle.take p) ∧ s'.kernel.pageRefCount p = 1) ?_
    refine post_kallocPop hsound.chain (fun hnil => ?_) ?_ ?_
    · have hplaced := hsound.placed 0x80243 (allocatable_iff.mpr (by decide))
      obtain ⟨hrefs, htransits⟩ := hinit.idle 0x80243
      have hcount : free.count 0x80243 = 0 := by rw [hnil, List.count_nil]
      unfold Cpus.OnFreeList Cpus.Allocated Cpus.InTransit at hplaced
      omega
    · rintro p rest rfl hneg
      have hzero := hsound.count_of_free.2.2.2
      omega
    · rintro p rest rfl - -
      have hp := allocatable_iff.mp (hsound.chain.allocatable (List.mem_cons_self ..))
      have hzero := hsound.count_of_free.2.2.2
      rw [if_neg (by unfold pgsize; omega), div_pgsize, hzero, hidle]
      exact ⟨p, rfl, update_self ..⟩
  obtain ⟨p, hcpu, hcount⟩ := hgot
  exact ⟨s', p, (Reachable.of_init hinit).tail ⟨.kalloc c, hnext, nofun⟩,
    hcpu, hcount⟩

theorem Cpus.atomically_share (hcount : 0 ≤ s.kernel.pageRefCount p) :
    (s.atomically (incrementAndGetPageReference (p * pgsize)) c fun _ => (s.cpu c).take p).cpu =
        update s.cpu c ((s.cpu c).take p) ∧
      (s.atomically (incrementAndGetPageReference (p * pgsize)) c fun _ =>
        (s.cpu c).take p).kernel.pageRefCount p = toInt32 (s.kernel.pageRefCount p + 1) := by
  refine Cpus.atomically_of_post (Q := fun s' => s'.cpu = update s.cpu c ((s.cpu c).take p) ∧
    s'.kernel.pageRefCount p = toInt32 (s.kernel.pageRefCount p + 1)) ?_
  refine post_increment ?_ ?_ <;> rw [div_page]
  · intro hneg
    omega
  · intro _
    exact ⟨rfl, update_self ..⟩

theorem Cpus.next_share (hrunning : s.panicked = false) (hheld : (s.cpu c).Holds p) :
    s.next (.share c p) =
      some (s.atomically (incrementAndGetPageReference (p * pgsize)) c fun _ => (s.cpu c).take p) := by
  rw [Cpus.next, if_neg (by rw [hrunning]; decide)]
  exact if_pos hheld

section

variable {cpu : Fin n → Cpu} {count : ℤ} (h : s.At cpu p count)
include h

theorem Cpus.At.share (hheld : (cpu c).Holds p) (hlow : 0 ≤ count) (hroom : count < 2 ^ 31 - 1) :
    ∃ s' : Cpus n, s'.At (update cpu c ((cpu c).take p)) p (count + 1) := by
  obtain ⟨hreach, rfl, rfl⟩ := h
  obtain ⟨free, hsound⟩ := Cpus.exists_sound hreach
  obtain ⟨hcpu, hcount⟩ := Cpus.atomically_share (c := c) hlow
  refine ⟨_, hreach.tail ⟨.share c p, Cpus.next_share hsound.running hheld, ?_⟩, hcpu, ?_⟩
  · rintro c q heq
    cases heq
    exact hroom
  · rw [hcount, toInt32_of_lt (by omega) (by omega)]

theorem Cpus.At.pass {d : Fin n} (hheld : (cpu c).Holds p) (hne : c ≠ d) :
    ∃ s' : Cpus n, s'.At (update (update cpu c ((cpu c).drop p)) d ((cpu d).take p)) p count := by
  obtain ⟨hreach, rfl, hcount⟩ := h
  obtain ⟨free, hsound⟩ := Cpus.exists_sound hreach
  refine ⟨{ s with cpu := update (update s.cpu c ((s.cpu c).drop p)) d ((s.cpu d).take p) },
    hreach.tail ⟨.pass c d p, ?_, nofun⟩, rfl, hcount⟩
  rw [Cpus.next, if_neg (by rw [hsound.running]; decide)]
  exact if_pos ⟨hheld, hne⟩

theorem Cpus.At.kfree (hheld : (cpu c).Holds p) :
    ∃ s' : Cpus n,
      s'.At (update cpu c (if 0 < count - 1 then (cpu c).drop p else (cpu c).dropLast p)) p
        (count - 1) := by
  obtain ⟨hreach, rfl, rfl⟩ := h
  obtain ⟨free, hsound⟩ := Cpus.exists_sound hreach
  let s' := s.atomically (kfreeDrop (p * pgsize)) c fun refCount =>
    if 0 < refCount then (s.cpu c).drop p else (s.cpu c).dropLast p
  have hnext : s.next (.kfree c p) = some s' := by
    rw [Cpus.next, if_neg (by rw [hsound.running]; decide)]
    exact if_pos hheld
  obtain ⟨_, hpos, _, hcount⟩ := hsound.allocated_of_held hheld.2
  have hgot : s'.cpu = update s.cpu c (if 0 < s.kernel.pageRefCount p - 1 then (s.cpu c).drop p
      else (s.cpu c).dropLast p) ∧
      s'.kernel.pageRefCount p = s.kernel.pageRefCount p - 1 := by
    refine Cpus.atomically_of_post (Q := fun s' => s'.cpu = update s.cpu c
      (if 0 < s.kernel.pageRefCount p - 1 then (s.cpu c).drop p else (s.cpu c).dropLast p) ∧
      s'.kernel.pageRefCount p = s.kernel.pageRefCount p - 1) ?_
    unfold kfreeDrop
    rw [if_neg (hsound.allocatable_of_held hheld.2).not_rejected]
    refine post_decrement ?_ ?_ <;> rw [div_page]
    · intro hle
      omega
    · intro _
      exact ⟨rfl, update_self ..⟩
  exact ⟨s', hreach.tail ⟨.kfree c p, hnext, nofun⟩, hgot.1, hgot.2⟩

end

/-- Two CPUs share a page. The first has dropped its reference, and the second has taken the count to
0 and not yet pushed the page. -/
theorem exists_inTransit :
    ∃ (s : Cpus 2) (p : ℕ), Reachable Cpus.Initial Cpus.StepWithin s ∧
      (s.cpu 0).transit = none ∧ (s.cpu 1).transit = some p ∧ s.kernel.pageRefCount p = 0 := by
  obtain ⟨s0, p, h0⟩ := exists_at_kalloc (n := 2) 0
  obtain ⟨s1, h1⟩ := h0.share (c := 0) ⟨rfl, by simp [Cpu.take]⟩ (by decide) (by decide)
  obtain ⟨s2, h2⟩ := h1.pass (c := 0) (d := 1) ⟨rfl, by simp [Cpu.take]⟩ (by decide)
  obtain ⟨s3, h3⟩ := h2.kfree (c := 0) ⟨rfl, by simp [Cpu.take, Cpu.drop]⟩
  obtain ⟨s4, h4⟩ := h3.kfree (c := 1) ⟨rfl, by simp [Cpu.take, Cpu.drop]⟩
  refine ⟨s4, p, h4.reachable, ?_, ?_, h4.count_eq⟩
  · rw [h4.cpu_eq]
    rfl
  · rw [h4.cpu_eq]
    rfl

/-- In every run whose steps stay within the range of the counts the allocator is correct in every state. -/
theorem cpus_correct (n : ℕ) (s : Cpus n) (hs : Reachable Cpus.Initial Cpus.StepWithin s) : s.Correct := by
  obtain ⟨free, hfree⟩ := Cpus.exists_sound hs
  exact hfree.correct

theorem cpus_correct_shared :
    ∃ (s : Cpus 2) (p : ℕ), (s.cpu 0).transit = none ∧ (s.cpu 1).transit = some p ∧
      s.kernel.pageRefCount p = 0 ∧ s.Correct := by
  obtain ⟨s, p, hreach, hfirst, hsecond, hcount⟩ := exists_inTransit
  exact ⟨s, p, hfirst, hsecond, hcount, cpus_correct 2 s hreach⟩

/-! ### One reference too many -/

/-- The holder of one reference can get to any count in the range. -/
theorem Cpus.At.share_all {cpu : Fin n → Cpu} (h : s.At cpu p 1) (hheld : (cpu c).Holds p) (m : ℕ)
    (hm : m < 2 ^ 31 - 1) :
    ∃ (s' : Cpus n) (cpu' : Fin n → Cpu), s'.At cpu' p (m + 1) ∧ (cpu' c).Holds p := by
  induction m with
  | zero => exact ⟨s, cpu, h, hheld⟩
  | succ m ih =>
    obtain ⟨mid, cpu', hmid, hheld'⟩ := ih (by omega)
    obtain ⟨s', hs'⟩ := hmid.share hheld' (by omega) (by omega)
    refine ⟨s', _, by exact_mod_cast hs', ?_⟩
    rw [update_self]
    exact hheld'.take

/-- A page with `2^31 - 1` references is shared once more, and its count becomes negative. -/
theorem exists_not_correct :
    ∃ s : Cpus 1, Reachable Cpus.Initial (StepOf Cpus.next) s ∧
      ¬ s.Correct := by
  obtain ⟨s, p, hs⟩ := exists_at_kalloc (n := 1) 0
  obtain ⟨s', _, ⟨hreach, rfl, hcount⟩, hholds⟩ :=
    hs.share_all (c := 0) ⟨rfl, by simp [Cpu.take]⟩ (2 ^ 31 - 2) (by decide)
  obtain ⟨free, hsound⟩ := Cpus.exists_sound hreach
  obtain ⟨hcpu, hcount'⟩ := Cpus.atomically_share (s := s') (c := 0) (by rw [hcount]; decide)
  refine ⟨_, (hreach.mono fun _ _ ⟨action, hnext, _⟩ => ⟨action, hnext⟩).tail
    ⟨.share 0 p, Cpus.next_share hsound.running hholds⟩, fun hcorrect => ?_⟩
  obtain ⟨free', hsound'⟩ := hcorrect.sound
  have hheld := hholds.take.2
  rw [← update_self 0 ((s'.cpu 0).take p) s'.cpu, ← hcpu] at hheld
  have halloc := (hsound'.allocated_of_held hheld).2.2.2
  rw [hcount', hcount, show toInt32 (((2 ^ 31 - 2 : ℕ) : ℤ) + 1 + 1) = -2147483648 by decide]
    at halloc
  omega

end AdvancedXv6.Kernel
