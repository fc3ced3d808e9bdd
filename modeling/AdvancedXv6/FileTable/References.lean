import AdvancedXv6.FileTable.Actions

/-!
# References, descriptors and pages

Each call starts with nothing but the descriptor table of its process and ends so, whatever fails on the way and whatever other processes do meanwhile. Between calls the count of an entry is then the number of slots that refer to it, the page of a pipe has been freed if and only if no entry refers to it, and the panics of `filedup` and `fileclose` cannot occur.
-/

namespace AdvancedXv6.FileTable

open Function Threads Transition Relation Weights

variable {n k m : ℕ}

def Local.start (t : Table k m) : Local n k m := ⟨{}, {}, ⟨some t, none⟩⟩

/-- A process at the end of a call: it has no references but those of its table. -/
structure Local.Quiet (l : Local n k m) : Prop where
  loose : l.refs.loose = none
  held : l.refs.held = 0
  ends : l.ends = {}
  child : l.tables.child = none

theorem Local.Quiet.start (t : Table k m) : (Local.start t : Local n k m).Quiet := ⟨rfl, rfl, rfl, rfl⟩

variable {l : Local n k m} {q : Fin n} {u : Table k m} {pi : ℕ} {c : Call n}

theorem Local.Quiet.weight (h : l.Quiet) (t : Table k m) (f : Fin m) : l.refs.weight t f = slots f t := by
  simp [OwnRefs.weight, OwnRefs.counted, h.loose, h.held]

/-! ### References move between variables and slots -/

section

variable {t : Table k m} {fd : Fin k} {f : Fin m} {held : Multiset (Fin m)} {fresh fresh' : Set (Fin m)}

theorem weight_into_slot (hfd : t fd = none) (g : Fin m) :
    (⟨none, held, fresh⟩ : OwnRefs k m).weight (update t fd (some f)) g = (⟨none, f ::ₘ held, fresh'⟩ : OwnRefs k m).weight t g := by
  have hslots := slots_update t fd (some f) g
  simp only [hfd, reduceCtorEq, if_false, Option.some.injEq, eq_comm (a := f)] at hslots
  simp only [OwnRefs.weight, OwnRefs.counted, Multiset.count_cons]
  omega

theorem weight_out_of_slot (hfd : t fd = some f) (g : Fin m) :
    (⟨none, f ::ₘ held, fresh⟩ : OwnRefs k m).weight (update t fd none) g = (⟨none, held, fresh'⟩ : OwnRefs k m).weight t g := by
  have hslots := slots_update t fd none g
  simp only [hfd, reduceCtorEq, if_false, Option.some.injEq, eq_comm (a := f)] at hslots
  simp only [OwnRefs.weight, OwnRefs.counted, Multiset.count_cons]
  omega

/-- A slot that does not count might as well be free. -/
theorem weight_loose (g : Fin m) :
    (⟨some fd, held, fresh⟩ : OwnRefs k m).weight t g =
      (⟨none, held, fresh'⟩ : OwnRefs k m).weight (update t fd none) g := rfl

end

/-! ### The calls -/

section

variable {fixed : Fin n → Option (Table k m)} {p : Fin n} {t : Table k m} {Q : ℤ → Local n k m → Prop}

theorem sysOpen_safe (hfixed : fixed p = none) (target : Option Target) (omode : BitVec 32)
    (hQ : ∀ v l, l.Quiet → (v = -1 → l.tables.table = some t) → Q v l) : Safe (Inv fixed) Free Ok p Q (sysOpen p target omode) (.start t) := by
  cases target with
  | none => exact hQ (-1) _ (.start t) fun _ => rfl
  | some target =>
    apply Safe.bind
    refine filealloc_safe (by exact rfl) ?_ ?_
    · exact hQ (-1) _ (.start t) fun _ => rfl
    · intro f _
      apply Safe.bind
      refine fdalloc_safe (r := fun _ => ⟨none, 0, insert f ∅⟩) hfixed (by exact rfl) (fun fd hfd => weight_into_slot hfd) (fun _ => rfl) ?_ ?_
      · apply Safe.bind
        refine fileclose_held_safe 0 (by exact rfl) rfl ?_
        exact hQ (-1) _ ⟨rfl, rfl, rfl, rfl⟩ fun _ => rfl
      · intro fd _
        apply Safe.bind
        refine fill_safe (o := {}) (by exact rfl) (Set.mem_insert f ∅) (fun _ => rfl) ?_ rfl ?_
        · intro file pi w
          rw [File.endAt_of_ne, Nat.zero_add]
          · rfl
          · cases target <;> simp [Target.type]
        · exact hQ _ _ ⟨rfl, rfl, rfl, rfl⟩ (by omega)

theorem sysDup_safe (hfixed : fixed p = none) (fd : ℤ) (hQ : ∀ v l, l.Quiet → Q v l) : Safe (Inv fixed) Free Ok p Q (sysDup p fd) (.start t) := by
  apply Safe.bind
  refine argfd_safe (by exact rfl) ?_ ?_
  · exact hQ (-1) _ (.start t)
  · intro fd f hf
    have hloose : ∀ fd', t fd' = none → ∀ g, (⟨some fd', 0, ∅⟩ : OwnRefs k m).weight (update t fd' (some f)) g = slots g t := by
      intro fd' hfd' g
      rw [weight_loose g, update_idem, update_eq_self_iff.mpr hfd'.symm]
      exact OwnRefs.weight_empty t g
    apply Safe.bind
    refine fdalloc_safe (r := fun fd => ⟨some fd, 0, ∅⟩) hfixed (by exact rfl) ?_ (fun _ => rfl) ?_ ?_
    · intro fd' hfd' g
      rw [hloose fd' hfd']
      exact (OwnRefs.weight_empty t g).symm
    · exact hQ (-1) _ (.start t)
    · intro fd' hfd'
      apply Safe.bind
      refine filedup_safe (r := {}) (by exact rfl) ?_ ?_ (fun g hg => False.elim hg) ?_
      · rw [hloose fd' hfd']
        exact slots_pos hf
      · intro g
        have hslots := slots_update t fd' (some f) g
        simp only [hfd', reduceCtorEq, if_false, Option.some.injEq, eq_comm (a := f)] at hslots
        rw [hloose fd' hfd', OwnRefs.weight_empty, ← hslots, Nat.add_zero]
      · exact hQ _ _ ⟨rfl, rfl, rfl, rfl⟩

theorem sysClose_safe (hfixed : fixed p = none) (fd : ℤ) (hQ : ∀ v l, l.Quiet → Q v l) : Safe (Inv fixed) Free Ok p Q (sysClose p fd) (.start t) := by
  apply Safe.bind
  refine argfd_safe (by exact rfl) ?_ ?_
  · exact hQ (-1) _ (.start t)
  · intro fd f hf
    apply Safe.bind
    refine setSlot_safe (r := ⟨none, f ::ₘ 0, ∅⟩) hfixed (by exact rfl) (weight_out_of_slot hf) rfl ?_
    apply Safe.bind
    refine fileclose_held_safe 0 (by exact rfl) rfl ?_
    exact hQ 0 _ ⟨rfl, rfl, rfl, rfl⟩

theorem close_both_safe {rf wf : Fin m} (ht : l.tables.table = some t) (hloose : l.refs.loose = none) (hheld : l.refs.held = rf ::ₘ wf ::ₘ 0)
    (hends : l.ends = {}) (hchild : l.tables.child = none) (hQ : ∀ v l, l.Quiet → (v = -1 → l.tables.table = some t) → Q v l) :
    Safe (Inv fixed) Free Ok p Q (do fileclose rf; fileclose wf; pure (-1)) l := by
  apply Safe.bind
  refine fileclose_held_safe (wf ::ₘ 0) ht hheld ?_
  apply Safe.bind
  refine fileclose_held_safe 0 (by exact ht) rfl ?_
  exact hQ (-1) _ ⟨hloose, rfl, hends, hchild⟩ fun _ => ht

theorem sysPipe_safe (hfixed : fixed p = none) (memory copyout0 copyout1 : Bool)
    (hQ : ∀ v l, l.Quiet → (v = -1 → l.tables.table = some t) → Q v l) : Safe (Inv fixed) Free Ok p Q (sysPipe p memory copyout0 copyout1) (.start t) := by
  apply Safe.bind
  refine pipealloc_safe (by exact rfl) ?_ ?_
  · intro fresh
    exact hQ (-1) _ ⟨rfl, rfl, rfl, rfl⟩ fun _ => rfl
  intro rf wf fresh hne
  apply Safe.bind
  refine fdalloc_safe (r := fun _ => ⟨none, wf ::ₘ 0, fresh⟩) hfixed (by exact rfl) (fun fd hfd => weight_into_slot hfd) (fun _ => rfl) ?_ ?_
  · exact close_both_safe rfl rfl rfl rfl rfl hQ
  intro fd0 hfd0
  -- the table with the read end in it, and the slot it is in
  have hread : update t fd0 (some rf) fd0 = some rf := update_self ..
  apply Safe.bind
  refine fdalloc_safe (r := fun _ => ⟨none, 0, fresh⟩) hfixed (by exact rfl) (fun fd hfd => weight_into_slot hfd) (fun _ => rfl) ?_ ?_
  · apply Safe.bind
    refine setSlot_safe (r := ⟨none, rf ::ₘ wf ::ₘ 0, fresh⟩) hfixed (by exact rfl) (weight_out_of_slot hread) rfl ?_
    refine close_both_safe ?_ rfl rfl rfl rfl hQ
    show some (update (update t fd0 (some rf)) fd0 none) = some t
    rw [update_idem, update_eq_self_iff.mpr hfd0.symm]
  intro fd1 hfd1
  have hslots : fd0 ≠ fd1 := by
    rintro rfl
    rw [hread] at hfd1
    cases hfd1
  cases hcopy : copyout0 && copyout1 with
  | true => exact hQ 0 _ ⟨rfl, rfl, rfl, rfl⟩ (by omega)
  | false =>
    apply Safe.bind
    refine setSlot_safe (r := ⟨none, rf ::ₘ 0, fresh⟩) hfixed (by exact rfl) (weight_out_of_slot ?_) rfl ?_
    · rw [update_of_ne hslots]
      exact hread
    apply Safe.bind
    refine setSlot_safe (r := ⟨none, rf ::ₘ wf ::ₘ 0, fresh⟩) hfixed (by exact rfl) ?_ rfl ?_
    · intro g
      rw [Multiset.cons_swap]
      refine weight_out_of_slot ?_ g
      rw [update_of_ne hslots.symm]
      exact update_self ..
    refine close_both_safe ?_ rfl rfl rfl rfl hQ
    rw [update_of_ne hslots.symm] at hfd1
    show some _ = some t
    congr 1
    funext fd
    grind [update_apply]

/-! ### Processes come and go -/

theorem allocproc_safe {Q : Option (Fin n) → Local n k m → Prop} {memory : Bool} (hnone : Q none l)
    (hsome : ∀ q, Q (some q) ⟨l.refs, l.ends, ⟨l.tables.table, some (q, fun _ => none)⟩⟩) : Safe (Inv fixed) Free Ok p Q (allocproc memory) l := by
  apply Safe.atom
  intro ρ s hinv hl
  subst hl
  cases hfind : (List.finRange n).find? fun q => s.state q = .unused with
  | none => exact ⟨trivial, ρ p, hinv.self, hnone⟩
  | some q =>
    cases memory with
    | false => exact ⟨trivial, ρ p, hinv.self, hnone⟩
    | true =>
      have hq : s.state q = .unused := by simpa using List.find?_some hfind
      exact ⟨trivial, _, hinv.setState (hinv.tables.spawn p hq) (hinv.quiet_setState (by simp [hq])), hsome q⟩

theorem putState_child_safe {Q : Unit → Local n k m → Prop} {state : ProcState} (hchild : l.tables.child = some (q, u))
    (hstate : state = .unused ∨ state = .zombie → u = fun _ => none) (hQ : Q () ⟨l.refs, l.ends, ⟨l.tables.table, none⟩⟩) :
    Safe (Inv fixed) Free Ok p Q (putState q state) l := by
  apply Safe.write
  intro ρ s hinv hl
  subst hl
  have hused := (hinv.tables.child p q u hchild).1
  exact ⟨trivial, _, hinv.setState (hinv.tables.release hchild hstate) (hinv.quiet_setState (by simp [hused])), hQ⟩

theorem setSlot_child_safe {Q : Unit → Local n k m → Prop} {f : Fin m} {i : Fin k} (hfixed : fixed q = none)
    (ht : l.tables.table = some t) (hchild : l.tables.child = some (q, u)) (hi : u i = none) (rest : Multiset (Fin m)) (hheld : l.refs.held = f ::ₘ rest)
    (hfresh : l.refs.fresh = ∅) (hQ : Q () ⟨⟨l.refs.loose, rest, l.refs.fresh⟩, l.ends, ⟨l.tables.table, some (q, update u i (some f))⟩⟩) :
    Safe (Inv fixed) Free Ok p Q (setSlot q i (some f)) l := by
  apply Safe.write
  intro ρ s hinv hl
  subst hl
  obtain ⟨hused, hu⟩ := hinv.tables.child p q u hchild
  have hrun := (hinv.tables.table p t ht).1
  have hne : q ≠ p := by
    rintro rfl
    rw [hrun] at hused
    cases hused
  rw [← hu] at hi hQ
  refine ⟨trivial, ⟨⟨(ρ p).refs.loose, rest, (ρ p).refs.fresh⟩, (ρ p).ends, ⟨(ρ p).tables.table, some (q, update (s.ofile q) i (some f))⟩⟩,
    Inv.put (hinv.refs.give hne (hinv.quiet q (by simp [hused])) hheld hfresh hi) ?_ (hinv.tables.writeChild hchild hfixed _) ?_, hQ⟩
  · rw [update_eq_self]
    exact hinv.ends
  · exact hinv.quiet_update hrun _

theorem dupAll_safe {Q : Unit → Local n k m → Prop} (hfixed : fixed q = none) (fds : List (Fin k)) (hnodup : fds.Nodup)
    (hu : ∀ i ∈ fds, u i = none) (hQ : ∀ u', Q () ⟨{}, {}, ⟨some t, some (q, u')⟩⟩) :
    Safe (Inv fixed) Free Ok p Q (fork.dupAll p q fds) ⟨{}, {}, ⟨some t, some (q, u)⟩⟩ := by
  induction fds generalizing u with
  | nil => exact hQ u
  | cons i rest ih =>
    obtain ⟨hi, hrest⟩ := List.nodup_cons.mp hnodup
    apply Safe.bind
    apply Safe.read
    intro ρ s hinv hl
    refine ⟨trivial, ρ p, hinv.self, ?_⟩
    rw [hl, hinv.ofile_eq (t := t) (by rw [hl])]
    cases hf : t i with
    | none => exact ih hrest fun j hj => hu j (List.mem_cons_of_mem i hj)
    | some f =>
      apply Safe.bind
      refine filedup_safe (r := ⟨none, f ::ₘ 0, ∅⟩) (by exact rfl) ?_ ?_ (fun g hg => False.elim hg) ?_
      · rw [OwnRefs.weight_empty]
        exact slots_pos hf
      · intro g
        exact OwnRefs.weight_hold {} f ∅ t g
      apply Safe.bind
      refine setSlot_child_safe hfixed (by exact rfl) (by exact rfl) (hu i List.mem_cons_self) 0 (by exact rfl) rfl ?_
      apply ih hrest
      intro j hj
      have hnone := hu j (List.mem_cons_of_mem i hj)
      grind [update_apply]

theorem fork_safe (hfixed : ∀ q, fixed q = none) (memory uvmcopy : Bool) (hQ : ∀ v l, l.Quiet → Q v l) :
    Safe (Inv fixed) Free Ok p Q (fork p memory uvmcopy) (.start t) := by
  apply Safe.bind
  apply allocproc_safe
  · exact hQ (-1) _ (.start t)
  intro q
  cases uvmcopy with
  | true =>
    apply Safe.bind
    refine dupAll_safe (hfixed q) _ (List.nodup_finRange k) (fun _ _ => rfl) ?_
    intro u
    apply Safe.bind
    refine putState_child_safe (by exact rfl) (by simp) ?_
    exact hQ _ _ ⟨rfl, rfl, rfl, rfl⟩
  | false =>
    apply Safe.bind
    refine putState_child_safe (by exact rfl) (fun _ => rfl) ?_
    exact hQ (-1) _ ⟨rfl, rfl, rfl, rfl⟩

theorem closeAll_safe {Q : Unit → Local n k m → Prop} (hfixed : fixed p = none) (fds : List (Fin k))
    (hQ : ∀ u : Table k m, (∀ fd, fd ∈ fds ∨ t fd = none → u fd = none) → Q () (.start u)) :
      Safe (Inv fixed) Free Ok p Q (exit.closeAll p fds) (.start t) := by
  induction fds generalizing t with
  | nil => exact hQ t fun fd hfd => hfd.resolve_left List.not_mem_nil
  | cons fd rest ih =>
    apply Safe.bind
    apply Safe.read
    intro ρ s hinv hl
    refine ⟨trivial, ρ p, hinv.self, ?_⟩
    rw [hl, hinv.ofile_eq (t := t) (by rw [hl]; rfl)]
    cases hf : t fd with
    | none =>
      apply ih
      intro u hu
      apply hQ u
      intro fd' hfd'
      apply hu
      grind
    | some f =>
      apply Safe.bind
      refine fileclose_safe (r := ⟨some fd, 0, ∅⟩) (by exact rfl) ?_ (fun g hg => False.elim hg) ?_
      · intro g
        have hslots := slots_update t fd none g
        simp only [hf, reduceCtorEq, if_false, Option.some.injEq, eq_comm (a := f)] at hslots
        exact hslots.symm
      apply Safe.bind
      refine setSlot_safe (r := {}) hfixed (by exact rfl) (fun g => rfl) rfl ?_
      apply ih
      intro u hu
      apply hQ u
      intro fd' hfd'
      apply hu
      grind [update_apply]

theorem exit_safe (hfixed : fixed p = none) (hQ : ∀ v l, l.Quiet → Q v l) : Safe (Inv fixed) Free Ok p Q (exit p) (.start t) := by
  apply Safe.bind
  apply Safe.atom
  intro ρ s hinv hl
  split
  · rfl
  refine ⟨trivial, _, hinv.self, ?_⟩
  rw [hl]
  apply Safe.bind
  refine closeAll_safe hfixed _ ?_
  intro u hu
  have hempty : u = fun _ => none := by
    funext fd
    exact hu fd (.inl (List.mem_finRange fd))
  subst hempty
  apply Safe.bind
  apply Safe.write
  intro ρ' s' hinv' hl'
  have hp : (ρ' p).tables.table = some fun _ => none := by
    rw [hl']
    rfl
  refine ⟨trivial, ⟨(ρ' p).refs, (ρ' p).ends, {}⟩, hinv'.setState (hinv'.tables.exit hp) ?_, ?_⟩
  · exact hinv'.quiet_setState fun _ => by rw [hl']; rfl
  · rw [hl']
    exact hQ 0 _ ⟨rfl, rfl, rfl, rfl⟩

theorem wait_safe (q : Fin n) (hQ : ∀ v l, l.Quiet → Q v l) : Safe (Inv fixed) Free Ok p Q (wait q) (.start t) := by
  apply Safe.atom
  intro ρ s hinv hl
  have hquiet : (ρ p).Quiet := by
    rw [hl]
    exact .start t
  split
  · rename_i hq
    refine ⟨trivial, ρ p, ?_, hQ _ _ hquiet⟩
    have htables := hinv.tables.reap p hq
    rw [← update_eq_self p fun a => (ρ a).tables] at htables
    exact hinv.setState htables (hinv.quiet_setState (by simp [hq]))
  · exact ⟨trivial, ρ p, hinv.self, hQ _ _ hquiet⟩

end

/-! ### Runs -/

section

variable {fixed : Fin n → Option (Table k m)} {ρ : Fin n → Local n k m} {s : Kernel n k m} {p : Fin n}

theorem Inv.start (h : Inv fixed ρ s) (hrun : s.state p = .running) (hquiet : (ρ p).Quiet) : Inv fixed (update ρ p (.start (s.ofile p))) s := by
  apply Inv.put
  · have hrefs := h.refs.put s.ftable p (r := {}) (t := s.ofile p)
      (fun f => by rw [hquiet.weight, OwnRefs.weight_empty]) h.refs.free (fun f hf => False.elim hf) (fun _ _ _ => rfl)
    rw [update_eq_self] at hrefs
    exact hrefs
  · have hends : (ρ p).ends = {} := hquiet.ends
    show Ends s.ftable s.pipes s.pages (update (fun q => (ρ q).ends) p {})
    rw [← hends, update_eq_self]
    exact h.ends
  · have hput := h.tables.put p p ⟨some (s.ofile p), none⟩ (s.state p) (s.ofile p) (.inl rfl)
      (fun a _ => h.tables.not_child (by simp [hrun]) a) (by simp [hrun]) (by simp) (by simp [hrun]) (fun u => h.tables.fixed p u)
    simp only [update_eq_self] at hput
    exact hput
  · exact h.quiet_update hrun {}

theorem program_safe {Q : ℤ → Local n k m → Prop} {t : Table k m} (c : Call n) (hQ : ∀ v l, l.Quiet → Q v l) :
    Safe (Inv fun _ => none) Free Ok p Q (program p c) (.start t) := by
  cases c with
  | «open» target omode => exact sysOpen_safe rfl target omode fun v l hl _ => hQ v l hl
  | dup fd => exact sysDup_safe rfl fd hQ
  | pipe memory copyout0 copyout1 => exact sysPipe_safe rfl memory copyout0 copyout1 fun v l hl _ => hQ v l hl
  | close fd => exact sysClose_safe rfl fd hQ
  | fork memory uvmcopy => exact fork_safe (fun _ => rfl) memory uvmcopy hQ
  | exit => exact exit_safe rfl hQ
  | wait q => exact wait_safe q hQ

def Call.Creates : Call n → Prop
  | .open _ _ => True
  | .pipe _ _ _ => True
  | _ => False

/-- A call that makes a new entry and fails leaves the table as it was. -/
theorem creates_safe {Q : ℤ → Local n k m → Prop} {t : Table k m} (hfixed : fixed p = none) (c : Call n) (hc : c.Creates)
    (hQ : ∀ v l, l.Quiet → (v = -1 → l.tables.table = some t) → Q v l) : Safe (Inv fixed) Free Ok p Q (program p c) (.start t) := by
  cases c with
  | «open» target omode => exact sysOpen_safe hfixed target omode hQ
  | pipe memory copyout0 copyout1 => exact sysPipe_safe hfixed memory copyout0 copyout1 hQ
  | _ => cases hc

end

namespace System

variable {x x' : System n k m}

def Sound (x : System n k m) : Prop := Pool.Sound (Inv fun _ => none) Free Ok (fun _ _ l => l.Quiet) x

theorem Init.sound (h : x.Init) : x.Sound := by
  refine ⟨fun _ => {}, ⟨⟨fun f => ?_, fun f _ => ?_, fun p f hf => ?_⟩, ⟨fun pi w => ?_, fun pi => ?_, fun pi w _ => ?_⟩,
    ⟨nofun, nofun, nofun, fun q _ => ?_, nofun⟩, fun _ _ => rfl⟩, fun p => ?_⟩
  · rw [h.ftable, total_eq_zero]
    · rfl
    · intro p
      rw [OwnRefs.weight_empty]
      exact total_eq_zero fun fd => by simp [h.ofile]
  · rw [h.ftable]
  · cases hf
  · rw [h.pipes, total_eq_zero, total_eq_zero]
    · cases w <;> rfl
    · intro p
      rfl
    · intro f
      rw [h.ftable]
      rfl
  · rw [h.pipes, total_eq_zero, h.pages]
    · rfl
    · intro p
      rfl
  · rw [h.pipes]
    cases w <;> rfl
  · funext fd
    exact h.ofile q fd
  · obtain ⟨v, hv⟩ := h.returned p
    rw [hv]
    exact ⟨rfl, rfl, rfl, rfl⟩

theorem sound (hx : Reachable Init (StepOf next) x) : x.Sound := by
  refine Pool.sound ?_ (fun x hinit => Init.sound hinit) hx
  intro p c ρ s v hen hinv hquiet
  exact ⟨_, hinv.start (by simpa [enabled] using hen) hquiet, program_safe c fun v l hl => hl⟩

def references (x : System n k m) (f : Fin m) : ℕ := (Finset.univ.filter fun slot : Fin n × Fin k => x.shared.ofile slot.1 slot.2 = some f).card

theorem references_eq (x : System n k m) (f : Fin m) : x.references f = total (fun _ t => slots f t) x.shared.ofile := by
  rw [references, Finset.card_filter, Fintype.sum_prod_type]
  rfl

def Refers (s : Kernel n k m) (f : Fin m) (pi : ℕ) : Prop := 0 < (s.ftable f).ref ∧ (s.ftable f).type = .pipe ∧ (s.ftable f).pipe = pi

theorem not_panics (hx : x.Sound) (p : Fin n) : ¬ x.Panics p .filedup ∧ ¬ x.Panics p .fileclose := by
  constructor
  · intro hpanic
    obtain ⟨_, _, _, hok⟩ := Pool.Sound.panics hx hpanic
    cases hok
  · intro hpanic
    obtain ⟨_, _, _, hok⟩ := Pool.Sound.panics hx hpanic
    cases hok

theorem isOpen_of_refers {ρ : Fin n → Local n k m} {s : Kernel n k m} (hinv : Inv (fun _ => none) ρ s) {f : Fin m} (hf : Refers s f pi) :
    (s.pipes pi).isOpen (s.ftable f).writable = true := by
  have hends := hinv.ends.ends pi (s.ftable f).writable
  have hle := le_total (fun _ (file : File) => file.endAt pi (s.ftable f).writable) s.ftable f
  have hone : (s.ftable f).endAt pi (s.ftable f).writable = 1 := by simp [File.endAt, hf.2.1, hf.2.2]
  cases hopen : (s.pipes pi).isOpen (s.ftable f).writable with
  | true => rfl
  | false =>
    simp only [hopen, Bool.false_eq_true, if_false] at hends
    omega

/-- A page is freed once, and not before both entries are out of use. -/
theorem freed_once (hx : x.Sound) (pi : ℕ) : (x.shared.pipes pi).freed ≤ 1 ∧ ((x.shared.pipes pi).freed = 1 → ∀ f, ¬ Refers x.shared f pi) := by
  obtain ⟨ρ, hinv, _⟩ := hx
  have hpage := hinv.ends.page pi
  constructor
  · split at hpage <;> omega
  · intro hone f hf
    have hopen := isOpen_of_refers hinv hf
    split at hpage
    · rename_i hshut
      cases hw : (x.shared.ftable f).writable <;> simp_all
    · omega

section

variable (hx : x.Sound) (hret : ∀ p, x.Returned p)
include hx hret

/-- Where every process has returned, what is counted is what the descriptor tables show. -/
theorem returned_quiet : ∃ ρ, Inv (fun _ => none) ρ x.shared ∧ ∀ p, (ρ p).Quiet := by
  obtain ⟨ρ, hinv, hsafe⟩ := hx
  refine ⟨ρ, hinv, fun p => ?_⟩
  obtain ⟨v, hv⟩ := hret p
  have hpost := hsafe p
  rw [hv] at hpost
  exact hpost

theorem ref_eq_references (f : Fin m) : (x.shared.ftable f).ref = x.references f := by
  obtain ⟨ρ, hinv, hquiet⟩ := returned_quiet hx hret
  rw [hinv.refs.count f, references_eq]
  congr 1
  apply Finset.sum_congr rfl
  intro p _
  exact (hquiet p).weight (x.shared.ofile p) f

theorem freed_of_not_refers (hpi : pi < x.shared.pages) (hnone : ∀ f, ¬ Refers x.shared f pi) :
    (x.shared.pipes pi).freed = 1 := by
  obtain ⟨ρ, hinv, hquiet⟩ := returned_quiet hx hret
  have hshut : ∀ w, (x.shared.pipes pi).isOpen w = false := by
    intro w
    have hends := hinv.ends.ends pi w
    rw [total_eq_zero, total_eq_zero] at hends
    · cases hopen : (x.shared.pipes pi).isOpen w with
      | false => rfl
      | true => simp [hopen] at hends
    · intro p
      rw [(hquiet p).ends]
      rfl
    · intro f
      by_contra hne
      apply hnone f
      simp only [File.endAt, ite_eq_right_iff, one_ne_zero, imp_false, not_not] at hne
      refine ⟨?_, hne.1, hne.2.1⟩
      have hcount := hinv.refs.count f
      by_contra hpos
      have hzero : (x.shared.ftable f).ref = 0 := by omega
      simp [hinv.refs.free f hzero] at hne
  have hpage := hinv.ends.page pi
  rw [total_eq_zero, if_pos ⟨hpi, hshut false, hshut true⟩] at hpage
  · exact hpage
  · intro p
    rw [(hquiet p).ends]
    rfl

end

/-- Every process is quiet where it has returned, and a given one has the table it started with where it has failed. -/
def Keeps (p : Fin n) (t : Table k m) (q : Fin n) (v : ℤ) (l : Local n k m) : Prop := l.Quiet ∧ (q = p → v = -1 → l.tables.table = some t)

theorem Keeps.call (hx : x.Sound) {p : Fin n} (hc : c.Creates) (hcall : x.next (.call p c) = some x') :
    Pool.Sound (Inv fun _ => none) Free Ok (Keeps p (x.shared.ofile p)) x' := by
  obtain ⟨ρ, hinv, hsafe⟩ := hx
  cases hp : x.code p with
  | act f k => simp [System.next, Pool.next, hp] at hcall
  | ret v =>
    simp only [System.next, Pool.next, hp, Option.ite_none_right_eq_some, Option.some.injEq] at hcall
    obtain ⟨hen, rfl⟩ := hcall
    have hquiet := hsafe p
    rw [hp] at hquiet
    exact Pool.Sound.put (fun q hq => (hsafe q).mono fun v l hl => ⟨hl, fun hqp => absurd hqp hq⟩)
      (hinv.start (by simpa [enabled] using hen) hquiet) (creates_safe rfl c hc fun v l hl htable => ⟨hl, fun _ => htable⟩)

theorem Keeps.run {p : Fin n} {t : Table k m} (hx : Pool.Sound (Inv fun _ => none) Free Ok (Keeps p t) x)
    (hrun : ReflTransGen (StepWhen (fun _ e => ∀ c, e ≠ .call p c) next) x x') : Pool.Sound (Inv fun _ => none) Free Ok (Keeps p t) x' := by
  induction hrun with
  | refl => exact hx
  | tail _ hstep ih =>
    obtain ⟨e, he, hnext⟩ := hstep
    refine Pool.Sound.next ?_ ih hnext
    intro q c ρ v heq hen hinv hquiet
    have hqp : q ≠ p := by
      rintro rfl
      exact he c heq
    exact ⟨_, hinv.start (by simpa [enabled] using hen) hquiet.1, program_safe c fun v l hl => ⟨hl, fun h => absurd h hqp⟩⟩

/-- A call that makes a new entry and fails has left the descriptors of its process as they were, whatever the other processes did in the meantime. -/
theorem ofile_of_failed (hx : x.Sound) {p : Fin n} (hc : c.Creates) {x1 : System n k m} (hcall : x.next (.call p c) = some x1)
    (hrun : ReflTransGen (StepWhen (fun _ e => ∀ c', e ≠ .call p c') next) x1 x')
    (hfail : x'.code p = .ret (-1)) : x'.shared.ofile p = x.shared.ofile p := by
  obtain ⟨ρ, hinv, hsafe⟩ := Keeps.run (Keeps.call hx hc hcall) hrun
  have hpost := hsafe p
  rw [hfail] at hpost
  exact (hinv.tables.table p _ (hpost.2 rfl rfl)).2

/-- Such a call that runs alone leaves every descriptor table and every count as it was. -/
theorem tables_of_failed (hx : x.Sound) {p : Fin n} (hc : c.Creates) (hret : x.Returned p) (hrun : x.shared.state p = .running) {s : Kernel n k m}
    (hexec : (program p c).exec x.shared = .done (-1) s) : s.ofile = x.shared.ofile ∧ ∀ f, (s.ftable f).ref = (x.shared.ftable f).ref := by
  obtain ⟨ρ, hinv, hsafe⟩ := hx
  have hquiet : (ρ p).Quiet := by
    obtain ⟨v, hv⟩ := hret
    have hpost := hsafe p
    rw [hv] at hpost
    exact hpost
  -- the tables of the other processes are fixed to their contents
  have hfix : Inv (fun q => if q = p then none else some (x.shared.ofile q)) ρ x.shared := by
    refine ⟨hinv.refs, hinv.ends, { hinv.tables with fixed := ?_ }, hinv.quiet⟩
    intro q t ht
    split at ht
    · cases ht
    · exact Option.some.inj ht
  have hsafe' : Safe (Inv fun q => if q = p then none else some (x.shared.ofile q)) Free Ok p
      (fun v (l : Local n k m) => l.Quiet ∧ (v = -1 → l.tables.table = some (x.shared.ofile p))) (program p c) (.start (x.shared.ofile p)) :=
    creates_safe (if_pos rfl) c hc fun v l hl htable => ⟨hl, htable⟩
  have hdone := hsafe'.exec (hfix.start hrun hquiet) (update_self ..)
  rw [hexec] at hdone
  obtain ⟨l, hinv', hl, htable⟩ := hdone
  rw [update_idem] at hinv'
  have hofile : s.ofile = x.shared.ofile := by
    funext q
    by_cases hq : q = p
    · subst hq
      exact (hinv'.tables.table q _ (by rw [update_self]; exact htable rfl)).2
    · exact hinv'.tables.fixed q _ (if_neg hq)
  refine ⟨hofile, fun f => ?_⟩
  rw [hinv'.refs.count f, hinv.refs.count f, hofile]
  congr 1
  apply Finset.sum_congr rfl
  intro q _
  by_cases hq : q = p
  · subst hq
    simp only [update_self, hl.weight, hquiet.weight]
  · simp only [update_of_ne hq]

/-- In every run, the panics of `filedup` and `fileclose` do not occur, and the page of a pipe is freed at most once and only after both of its entries have reached 0. Between calls the count of an entry is the number of descriptor slots that refer to it, and a page that no entry refers to has been freed. A failing `open` or `pipe` leaves the descriptors of its process as they were, and where no other process moves, all descriptor tables and all counts. -/
theorem file_references (hx : Reachable Init (StepOf next) x) :
    (∀ p, ¬ x.Panics p .filedup ∧ ¬ x.Panics p .fileclose) ∧
      (∀ pi, (x.shared.pipes pi).freed ≤ 1 ∧ ((x.shared.pipes pi).freed = 1 → ∀ f, ¬ Refers x.shared f pi)) ∧
      ((∀ p, x.Returned p) → (∀ f, (x.shared.ftable f).ref = x.references f) ∧
        ∀ pi < x.shared.pages, (∀ f, ¬ Refers x.shared f pi) → (x.shared.pipes pi).freed = 1) ∧
      (∀ p (c : Call n) x1 x', c.Creates → x.next (.call p c) = some x1 → ReflTransGen (StepWhen (fun _ e => ∀ c', e ≠ .call p c') next) x1 x' →
        x'.code p = .ret (-1) → x'.shared.ofile p = x.shared.ofile p) ∧
      ∀ p (c : Call n) s, c.Creates → x.Returned p → x.shared.state p = .running → (program p c).exec x.shared = .done (-1) s →
        s.ofile = x.shared.ofile ∧ ∀ f, (s.ftable f).ref = (x.shared.ftable f).ref := by
  have hsound := sound hx
  refine ⟨not_panics hsound, freed_once hsound, ?_, ?_, ?_⟩
  · intro hret
    exact ⟨ref_eq_references hsound hret, fun pi => freed_of_not_refers hsound hret⟩
  · intro p c x1 x' hc hcall hrun hfail
    exact ofile_of_failed hsound hc hcall hrun hfail
  · intro p c s hc hret hrun hexec
    exact tables_of_failed hsound hc hret hrun hexec

def boot : System 1 2 4 := ⟨⟨fun _ => {}, fun _ _ => none, fun _ => .running, fun _ => {}, 0⟩, fun _ => .ret 0⟩

theorem init_boot : boot.Init := ⟨fun _ => rfl, fun _ _ => rfl, fun _ => .inr rfl, fun _ => rfl, rfl, fun _ => ⟨0, rfl⟩⟩

/-- The process makes a pipe, which takes both descriptors, and fails to make another: its two entries are given back, and its page is freed. -/
theorem file_references_pipe : ∃ x : System 1 2 4, Reachable Init (StepOf next) x ∧ x.code 0 = .ret (-1) ∧ x.references 0 = 1 ∧ x.references 1 = 1 ∧
    x.references 2 = 0 ∧ (∀ f, ¬ Refers x.shared f 1) ∧ (x.shared.pipes 1).freed = 1 ∧ (x.shared.pipes 0).freed = 0 := by
  obtain ⟨x, hreach, hcode, href0, href1, href2, hfreed1, hfreed0⟩ : ∃ x : System 1 2 4,
      Reachable Init (StepOf next) x ∧ (match x.code 0 with
        | .ret v => v == -1
        | .act _ _ => false) = true ∧
      (x.shared.ftable 0).ref = 1 ∧ (x.shared.ftable 1).ref = 1 ∧ (x.shared.ftable 2).ref = 0 ∧
      (x.shared.pipes 1).freed = 1 ∧ (x.shared.pipes 0).freed = 0 :=
    exists_reachable_of_schedule init_boot (.call 0 (.pipe true true true) ::
      List.replicate 7 (.run 0) ++ .call 0 (.pipe true true true) :: List.replicate 11 (.run 0))
      (by decide +kernel)
  have hret : x.code 0 = .ret (-1) := by
    cases hx : x.code 0 with
    | act f k => simp [hx] at hcode
    | ret v =>
      rw [hx] at hcode
      rw [eq_of_beq hcode]
  obtain ⟨_, honce, hquiet, _⟩ := file_references hreach
  have hcount := (hquiet fun p => ⟨-1, by rw [Subsingleton.elim p 0]; exact hret⟩).1
  refine ⟨x, hreach, hret, ?_, ?_, ?_, (honce 1).2 hfreed1, hfreed1, hfreed0⟩
  · have h := hcount 0
    omega
  · have h := hcount 1
    omega
  · have h := hcount 2
    omega

end System

end AdvancedXv6.FileTable
