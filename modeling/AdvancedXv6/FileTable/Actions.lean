import AdvancedXv6.FileTable.Counts

/-!
# What the actions do to what processes hold

The invariant of the file table joins the three parts, and each action of the calls keeps it at the price of a change of what the acting process holds. From these the functions of `file.c` and `pipe.c` get a specification each, which the calls use.
-/

namespace AdvancedXv6.FileTable

open Function Threads

variable {n k m : ℕ}

structure Local (n k m : ℕ) where
  refs : OwnRefs k m := {}
  ends : OwnEnds := {}
  tables : OwnTables n k m := {}

/-- The invariant of the file table. A process that does not run has no references but those of its table. -/
structure Inv (fixed : Fin n → Option (Table k m)) (ρ : Fin n → Local n k m) (s : Kernel n k m) : Prop where
  refs : Refs s.ftable (fun p => (ρ p).refs) s.ofile
  ends : Ends s.ftable s.pipes s.pages fun p => (ρ p).ends
  tables : Tables fixed s.state s.ofile fun p => (ρ p).tables
  quiet : ∀ q, s.state q ≠ .running → (ρ q).refs = {}

/-- The panics of `filedup` and `fileclose` are not allowed. -/
def Ok (_ : Local n k m) (e : Panic) : Prop := e = .initExiting

def Free (_ _ : Kernel n k m) : Prop := True

variable {f : Fin m} {file : File} {r : OwnRefs k m} {o : OwnEnds} {fd : Fin k} {x : Option (Fin m)} {Q : Unit → Local n k m → Prop} {memory : Bool}

namespace Inv

variable {fixed : Fin n → Option (Table k m)} {ρ : Fin n → Local n k m} {s s' : Kernel n k m} {p : Fin n} {l : Local n k m} {t : Table k m}

theorem map_update {β : Type} (g : Local n k m → β) (ρ : Fin n → Local n k m) (p : Fin n) (l : Local n k m) :
    (fun q => g (update ρ p l q)) = update (fun q => g (ρ q)) p (g l) := by
  funext q
  exact apply_update (fun _ => g) ρ p l q

theorem put (hrefs : Refs s'.ftable (update (fun q => (ρ q).refs) p l.refs) s'.ofile)
    (hends : Ends s'.ftable s'.pipes s'.pages (update (fun q => (ρ q).ends) p l.ends))
    (htables : Tables fixed s'.state s'.ofile (update (fun q => (ρ q).tables) p l.tables))
    (hquiet : ∀ q, s'.state q ≠ .running → update (fun q => (ρ q).refs) p l.refs q = {}) : Inv fixed (update ρ p l) s' where
  refs := by
    rw [map_update]
    exact hrefs
  ends := by
    rw [map_update]
    exact hends
  tables := by
    rw [map_update]
    exact htables
  quiet q hq := by
    have hempty := hquiet q hq
    rw [← map_update] at hempty
    exact hempty

variable (h : Inv fixed ρ s)
include h

theorem self : Inv fixed (update ρ p (ρ p)) s := by
  rw [update_eq_self]
  exact h

theorem quiet_update (hrun : s.state p = .running) (r : OwnRefs k m) (q : Fin n) (hq : s.state q ≠ .running) :
    update (fun q => (ρ q).refs) p r q = {} := by
  have hqp : q ≠ p := by
    rintro rfl
    exact hq hrun
  rw [update_of_ne hqp]
  exact h.quiet q hq

section

variable (ht : (ρ p).tables.table = some t)
include ht

/-- An entry changes that the process alone may change, and with it the references and ends that the process holds. -/
theorem setFile
    (hrefs : Refs (update s.ftable f file) (update (fun q => (ρ q).refs) p r) s.ofile)
    (hends : ∀ pi w, file.endAt pi w + o.ends.count (pi, w) =
      (s.ftable f).endAt pi w + (ρ p).ends.ends.count (pi, w)) (hfreeing : o.freeing = (ρ p).ends.freeing) :
    Inv fixed (update ρ p ⟨r, o, (ρ p).tables⟩) (s.setFile f file) := by
  refine put hrefs (h.ends.setFile p hends hfreeing) ?_ (h.quiet_update (h.tables.table p t ht).1 r)
  rw [update_eq_self]
  exact h.tables

theorem ofile_eq : s.ofile p = t := (h.tables.table p t ht).2

theorem refs_update
    (hcount : file.ref + (ρ p).refs.weight t f = (s.ftable f).ref + r.weight t f) (hweight : ∀ g ≠ f, r.weight t g = (ρ p).refs.weight t g)
    (hfree : file.ref = 0 → file.type = .none) (hfresh : ∀ g ∈ r.fresh,
      g ≠ f ∧ g ∈ (ρ p).refs.fresh ∨ g = f ∧ file.type = .none ∧ file.ref = 1 ∧ 0 < r.weight t f)
    (hown : 0 < (ρ p).refs.weight t f ∨ (s.ftable f).ref = 0) :
    Refs (update s.ftable f file) (update (fun q => (ρ q).refs) p r) s.ofile := by
  have hofile := h.ofile_eq ht
  have hold := h.refs.fresh p
  have hnone := h.refs.free
  rw [hofile] at hold
  have hput := h.refs.put (update s.ftable f file) p (r := r) (t := t) (by grind [update_apply])
    (by grind [update_apply]) (by grind [update_apply]) (by grind [update_apply])
  rw [← hofile, update_eq_self] at hput
  exact hput

end

theorem setOwn (hfixed : fixed p = none) (ht : (ρ p).tables.table = some t)
    (hweight : ∀ g, r.weight (update t fd x) g = (ρ p).refs.weight t g) (hfresh : r.fresh = (ρ p).refs.fresh) :
    Inv fixed (update ρ p ⟨r, (ρ p).ends, ⟨some (update t fd x), (ρ p).tables.child⟩⟩) (s.setOfile p fd x) := by
  have hofile := h.ofile_eq ht
  have hrefs := h.refs.put s.ftable p (r := r) (t := update t fd x)
    (fun g => by rw [hofile, hweight])
    h.refs.free
    (fun g hg => by
      rw [hfresh] at hg
      rw [hweight, ← hofile]
      exact h.refs.fresh p g hg)
    (fun _ _ _ => rfl)
  rw [Kernel.setOfile, hofile]
  refine put hrefs ?_ (h.tables.write hfixed ht _) (h.quiet_update (h.tables.table p t ht).1 r)
  rw [update_eq_self]
  exact h.ends

theorem setPipes {pipes : ℕ → Pipe} {pages : ℕ} (hends : Ends s.ftable pipes pages (update (fun q => (ρ q).ends) p o)) :
    Inv fixed (update ρ p ⟨(ρ p).refs, o, (ρ p).tables⟩) { s with pipes := pipes, pages := pages } := by
  apply put
  · rw [update_eq_self]
    exact h.refs
  · exact hends
  · rw [update_eq_self]
    exact h.tables
  · rw [update_eq_self]
    exact h.quiet

theorem setState {q : Fin n} {state : ProcState} {o : OwnTables n k m}
    (htables : Tables fixed (update s.state q state) s.ofile (update (fun a => (ρ a).tables) p o))
    (hquiet : ∀ a, (s.setState q state).state a ≠ .running → (ρ a).refs = {}) :
    Inv fixed (update ρ p ⟨(ρ p).refs, (ρ p).ends, o⟩) (s.setState q state) := by
  apply put
  · rw [update_eq_self]
    exact h.refs
  · rw [update_eq_self]
    exact h.ends
  · exact htables
  · rw [update_eq_self]
    exact hquiet

theorem quiet_setState {q : Fin n} {state : ProcState} (hq : s.state q = .running → (ρ q).refs = {})
    (a : Fin n) (ha : (s.setState q state).state a ≠ .running) : (ρ a).refs = {} := by
  have hold := h.quiet a
  simp only [Kernel.setState] at ha
  grind [update_apply]

end Inv

/-! ### `file.c` and `pipe.c` -/

section

variable {fixed : Fin n → Option (Table k m)} {p : Fin n} {l : Local n k m} {t : Table k m}

theorem OwnRefs.weight_hold (r : OwnRefs k m) (f : Fin m) (fresh : Set (Fin m)) (t : Table k m) (g : Fin m) :
    (⟨r.loose, f ::ₘ r.held, fresh⟩ : OwnRefs k m).weight t g = r.weight t g + if g = f then 1 else 0 := by
  simp only [OwnRefs.weight, OwnRefs.counted, Multiset.count_cons]
  omega

theorem OwnRefs.not_mem_held (h : r.weight t f = 0) : f ∉ r.held := by
  intro hmem
  have hpos := Multiset.count_pos.mpr hmem
  simp only [OwnRefs.weight] at h
  omega

theorem filealloc_safe {Q : Option (Fin m) → Local n k m → Prop} (ht : l.tables.table = some t) (hnone : Q none l)
    (hsome : ∀ f, f ∉ l.refs.held → Q (some f) ⟨⟨l.refs.loose, f ::ₘ l.refs.held, insert f l.refs.fresh⟩, l.ends, l.tables⟩) :
    Safe (Inv fixed) Free Ok p Q filealloc l := by
  apply Safe.atom
  intro ρ s hinv hl
  subst hl
  cases hfind : (List.finRange m).find? fun f => (s.ftable f).ref = 0 with
  | none => exact ⟨trivial, ρ p, hinv.self, hnone⟩
  | some f =>
    have href : (s.ftable f).ref = 0 := by simpa using List.find?_some hfind
    have hzero : (ρ p).refs.weight t f = 0 := by
      rw [← hinv.ofile_eq ht]
      exact hinv.refs.weight_of_free href p
    have hweight := (ρ p).refs.weight_hold f (insert f (ρ p).refs.fresh) t
    refine ⟨trivial, _, hinv.setFile ht (hinv.refs_update ht ?_ ?_ ?_ ?_ (.inr href)) (fun pi w => rfl) rfl, hsome f (OwnRefs.not_mem_held hzero)⟩
    · rw [hweight, href, hzero]
      simp
    · intro g hg
      rw [hweight, if_neg hg]
      rfl
    · intro hone
      cases hone
    · intro g hg
      by_cases hgf : g = f
      · rw [hweight]
        exact .inr ⟨hgf, hinv.refs.free f href, rfl, by simp⟩
      · exact .inl ⟨hgf, Set.mem_of_mem_insert_of_ne hg hgf⟩

theorem filedup_safe (ht : l.tables.table = some t) (hpos : 0 < l.refs.weight t f)
    (hweight : ∀ g, r.weight t g = l.refs.weight t g + if g = f then 1 else 0) (hfresh : ∀ g ∈ r.fresh, g ≠ f ∧ g ∈ l.refs.fresh)
    (hQ : Q () ⟨r, l.ends, l.tables⟩) : Safe (Inv fixed) Free Ok p Q (filedup f) l := by
  apply Safe.atom
  intro ρ s hinv hl
  subst hl
  have hle := hinv.refs.weight_le p f
  rw [hinv.ofile_eq ht] at hle
  rw [if_neg (by omega)]
  refine ⟨trivial, _, hinv.setFile ht (hinv.refs_update ht ?_ ?_ ?_ ?_ (.inl hpos)) (fun pi w => rfl) rfl, hQ⟩
  all_goals grind

section

variable (ht : l.tables.table = some t)
  (hweight : ∀ g, l.refs.weight t g = r.weight t g + if g = f then 1 else 0)
  (hfresh : ∀ g ∈ r.fresh, g ≠ f ∧ g ∈ l.refs.fresh)
include ht hweight hfresh

/-- The section of `fileclose` under the lock: the last reference gives the end of a pipe that the entry was to the process. -/
theorem drop_safe {Q : Option File → Local n k m → Prop}
        (hnone : Q none ⟨r, l.ends, l.tables⟩) (hother : ∀ ff : File, ff.type ≠ .pipe → Q (some ff) ⟨r, l.ends, l.tables⟩)
    (hpipe : ∀ ff : File, ff.type = .pipe → Q (some ff) ⟨r, ⟨(ff.pipe, ff.writable) ::ₘ l.ends.ends, l.ends.freeing⟩, l.tables⟩) :
    Safe (Inv fixed) Free Ok p Q (fileclose.drop f) l := by
  apply Safe.atom
  intro ρ s hinv hl
  subst hl
  have hpos : (ρ p).refs.weight t f = r.weight t f + 1 := by simpa using hweight f
  have hle := hinv.refs.weight_le p f
  rw [hinv.ofile_eq ht] at hle
  rw [if_neg (by omega)]
  have hsame : ∀ g ≠ f, r.weight t g = (ρ p).refs.weight t g := by
    intro g hg
    rw [hweight, if_neg hg]
    rfl
  have hrefs : ∀ file : File, file.ref = (s.ftable f).ref - 1 → (file.ref = 0 → file.type = .none) →
      Refs (update s.ftable f file) (update (fun q => (ρ q).refs) p r) s.ofile := by
    intro file href hfree
    apply hinv.refs_update ht ?_ hsame hfree (fun g hg => .inl (hfresh g hg)) (.inl (by omega))
    rw [href, hpos]
    push_cast
    omega
  dsimp only
  split
  · rename_i hmore
    exact ⟨trivial, _, hinv.setFile ht (hrefs _ rfl fun hzero => by dsimp only at hzero; omega) (fun pi w => rfl) rfl, hnone⟩
  · rename_i hlast
    have hone : (s.ftable f).ref = 1 := by omega
    by_cases htype : (s.ftable f).type = .pipe
    · refine ⟨trivial, ⟨r, ⟨((s.ftable f).pipe, (s.ftable f).writable) ::ₘ (ρ p).ends.ends, (ρ p).ends.freeing⟩, (ρ p).tables⟩,
        hinv.setFile ht (hrefs _ (by dsimp only; omega) fun _ => rfl) ?_ rfl, hpipe { s.ftable f with ref := (s.ftable f).ref - 1 } htype⟩
      intro pi w
      simp only [File.endAt, htype, Multiset.count_cons, Prod.mk.injEq, reduceCtorEq, false_and, if_false, true_and, eq_comm (a := pi), eq_comm (a := w)]
      omega
    · refine ⟨trivial, _, hinv.setFile ht (hrefs _ (by dsimp only; omega) fun _ => rfl) ?_ rfl, hother _ htype⟩
      intro pi w
      rw [File.endAt_of_ne (by simp), File.endAt_of_ne htype]

omit ht hweight hfresh in
theorem pipeclose_safe {pi : ℕ} {w : Bool} {rest : Multiset (ℕ × Bool)} (hends : l.ends.ends = (pi, w) ::ₘ rest)
    (hQ : Q () ⟨l.refs, ⟨rest, l.ends.freeing⟩, l.tables⟩) : Safe (Inv fixed) Free Ok p Q (pipeclose pi w) l := by
  apply Safe.bind
  apply Safe.atom
  intro ρ s hinv hl
  subst hl
  have hlast : (!((s.pipes pi).shut w).readopen && !((s.pipes pi).shut w).writeopen) = !(s.pipes pi).isOpen (!w) := by
    cases w <;> simp [Pipe.shut, Pipe.isOpen]
  refine ⟨trivial, _, hinv.setPipes (hinv.ends.shut hends), ?_⟩
  rw [hlast]
  cases hopen : (s.pipes pi).isOpen !w with
  | true =>
    apply Safe.pure
    simpa using hQ
  | false =>
    apply Safe.write
    intro ρ' s' hinv' hl'
    have hfreeing : (ρ' p).ends.freeing = pi ::ₘ (ρ p).ends.freeing := by
      rw [hl']
      simp
    refine ⟨trivial, _, hinv'.setPipes (hinv'.ends.free hfreeing), ?_⟩
    rw [hl']
    exact hQ

/-- `fileclose` takes a reference from the process and leaves everything else it holds. -/
theorem fileclose_safe (hQ : Q () ⟨r, l.ends, l.tables⟩) : Safe (Inv fixed) Free Ok p Q (fileclose f) l := by
  apply Safe.bind
  apply drop_safe ht hweight hfresh
  · exact hQ
  · intro ff htype
    simp only [htype, if_false]
    exact hQ
  · intro ff htype
    simp only [htype, if_true]
    exact pipeclose_safe rfl hQ

end

theorem fileclose_held_safe (rest : Multiset (Fin m)) (ht : l.tables.table = some t) (hheld : l.refs.held = f ::ₘ rest)
    (hQ : Q () ⟨⟨l.refs.loose, rest, l.refs.fresh \ {f}⟩, l.ends, l.tables⟩) : Safe (Inv fixed) Free Ok p Q (fileclose f) l :=
  fileclose_safe (r := ⟨l.refs.loose, rest, l.refs.fresh \ {f}⟩) ht (l.refs.weight_cons hheld t) (fun _ hg => ⟨hg.2, hg.1⟩) hQ

theorem fill_safe {change : File → File} (ht : l.tables.table = some t) (hf : f ∈ l.refs.fresh)
    (href : ∀ file, (change file).ref = file.ref) (hends : ∀ file pi w, (change file).endAt pi w + o.ends.count (pi, w) = l.ends.ends.count (pi, w))
    (hfreeing : o.freeing = l.ends.freeing) (hQ : Q () ⟨⟨l.refs.loose, l.refs.held, l.refs.fresh \ {f}⟩, o, l.tables⟩) :
    Safe (Inv fixed) Free Ok p Q (fill f change) l := by
  apply Safe.write
  intro ρ s hinv hl
  subst hl
  obtain ⟨htype, hone, hpos⟩ := hinv.refs.fresh p f hf
  rw [hinv.ofile_eq ht] at hpos
  refine ⟨trivial, _, hinv.setFile ht (hinv.refs_update ht ?_ ?_ ?_ ?_ (.inl hpos)) ?_ hfreeing, hQ⟩
  · rw [href]
    rfl
  · intro g _
    rfl
  · intro hzero
    rw [href] at hzero
    omega
  · intro g hg
    exact .inl ⟨hg.2, hg.1⟩
  · intro pi w
    rw [hends, File.endAt_of_ne (by simp [htype]), Nat.zero_add]

theorem kalloc_safe {Q : Option ℕ → Local n k m → Prop} (hnone : Q none l)
    (hsome : ∀ pi, Q (some pi) ⟨l.refs, ⟨(pi, false) ::ₘ (pi, true) ::ₘ l.ends.ends, l.ends.freeing⟩, l.tables⟩) :
    Safe (Inv fixed) Free Ok p Q (kalloc memory) l := by
  apply Safe.atom
  intro ρ s hinv hl
  subst hl
  cases memory with
  | false => exact ⟨trivial, ρ p, hinv.self, hnone⟩
  | true => exact ⟨trivial, _, hinv.setPipes (hinv.ends.alloc p), hsome s.pages⟩

/-- `pipealloc` fails with the references it started with, or returns the two ends of a new pipe. -/
theorem pipealloc_safe {Q : Option (Fin m × Fin m) → Local n k m → Prop} (ht : l.tables.table = some t)
    (hnone : ∀ fresh, Q none ⟨⟨l.refs.loose, l.refs.held, fresh⟩, l.ends, l.tables⟩)
    (hsome : ∀ rf wf fresh, rf ≠ wf → Q (some (rf, wf)) ⟨⟨l.refs.loose, rf ::ₘ wf ::ₘ l.refs.held, fresh⟩, l.ends, l.tables⟩) :
    Safe (Inv fixed) Free Ok p Q (pipealloc memory) l := by
  apply Safe.bind
  apply filealloc_safe ht
  · exact hnone l.refs.fresh
  · intro f0 _
    apply Safe.bind
    refine filealloc_safe (by exact ht) ?_ ?_
    · apply Safe.bind
      refine fileclose_held_safe _ (by exact ht) rfl ?_
      exact hnone _
    · intro f1 hf1
      have hne : f0 ≠ f1 := by
        rintro rfl
        simp at hf1
      apply Safe.bind
      apply kalloc_safe
      · apply Safe.bind
        refine fileclose_held_safe _ (by exact ht) (Multiset.cons_swap f1 f0 l.refs.held) ?_
        apply Safe.bind
        refine fileclose_held_safe _ (by exact ht) rfl ?_
        exact hnone _
      · intro pi
        apply Safe.bind
        refine fill_safe (o := ⟨(pi, true) ::ₘ l.ends.ends, l.ends.freeing⟩) (by exact ht) ?_ ?_ ?_ ?_ ?_
        · show f0 ∈ insert f1 (insert f0 l.refs.fresh)
          simp
        · intro file
          rfl
        · intro file pi' w
          simp only [File.endAt, true_and, Multiset.count_cons, Prod.mk.injEq, eq_comm (a := pi'), eq_comm (a := w)]
          omega
        · rfl
        apply Safe.bind
        refine fill_safe (o := l.ends) (by exact ht) ?_ ?_ ?_ ?_ ?_
        · show f1 ∈ insert f1 (insert f0 l.refs.fresh) \ {f0}
          simp [hne.symm]
        · intro file
          rfl
        · intro file pi' w
          simp only [File.endAt, true_and, Multiset.count_cons, Prod.mk.injEq, eq_comm (a := pi'), eq_comm (a := w)]
          omega
        · rfl
        have hpair := hsome f0 f1 ((insert f1 (insert f0 l.refs.fresh) \ {f0}) \ {f1}) hne
        rw [Multiset.cons_swap] at hpair
        exact hpair

/-! ### Descriptors -/

theorem argfd_safe {Q : Option (Fin k × Fin m) → Local n k m → Prop} {fd : ℤ} (ht : l.tables.table = some t) (hnone : Q none l)
    (hsome : ∀ fd f, t fd = some f → Q (some (fd, f)) l) : Safe (Inv fixed) Free Ok p Q (argfd p fd) l := by
  apply Safe.read
  intro ρ s hinv hl
  subst hl
  refine ⟨trivial, ρ p, hinv.self, ?_⟩
  rw [hinv.ofile_eq ht]
  split
  · rename_i hfd
    cases hf : t ⟨fd.toNat, (Int.toNat_lt hfd.1).mpr hfd.2⟩ with
    | none => exact hnone
    | some f => exact hsome _ f hf
  · exact hnone

theorem setSlot_safe (hfixed : fixed p = none) (ht : l.tables.table = some t)
    (hweight : ∀ g, r.weight (update t fd x) g = l.refs.weight t g) (hfresh : r.fresh = l.refs.fresh)
    (hQ : Q () ⟨r, l.ends, ⟨some (update t fd x), l.tables.child⟩⟩) : Safe (Inv fixed) Free Ok p Q (setSlot p fd x) l := by
  apply Safe.write
  intro ρ s hinv hl
  subst hl
  exact ⟨trivial, _, hinv.setOwn hfixed ht hweight hfresh, hQ⟩

theorem fdalloc_safe {Q : Option (Fin k) → Local n k m → Prop} (hfixed : fixed p = none) (ht : l.tables.table = some t) {r : Fin k → OwnRefs k m}
    (hweight : ∀ fd, t fd = none → ∀ g, (r fd).weight (update t fd (some f)) g = l.refs.weight t g) (hfresh : ∀ fd, (r fd).fresh = l.refs.fresh)
    (hnone : Q none l) (hsome : ∀ fd, t fd = none → Q (some fd) ⟨r fd, l.ends, ⟨some (update t fd (some f)), l.tables.child⟩⟩) :
    Safe (Inv fixed) Free Ok p Q (fdalloc p f) l := by
  apply Safe.atom
  intro ρ s hinv hl
  subst hl
  cases hfind : (List.finRange k).find? fun fd => s.ofile p fd = none with
  | none => exact ⟨trivial, ρ p, hinv.self, hnone⟩
  | some fd =>
    have hfd : t fd = none := by
      rw [← hinv.ofile_eq ht]
      simpa using List.find?_some hfind
    exact ⟨trivial, _, hinv.setOwn hfixed ht (hweight fd hfd) (hfresh fd), hsome fd hfd⟩

end

end AdvancedXv6.FileTable
