import AdvancedXv6.FileTable.Model
import AdvancedXv6.Lib.Weights
import Mathlib.Data.Multiset.AddSub
import Mathlib.Data.Set.Insert

/-!
# What the processes hold

In the middle of a call a process holds more than its descriptor table shows: references in local variables, a slot whose entry it has not counted yet or has already closed, an end of a pipe whose entry it has just given up, a page it is about to free, the slot of a child. The invariant has a part for each kind of thing. In each part, what the shared memory records is the sum of what the processes hold.
-/

namespace AdvancedXv6.FileTable

open Function Weights

variable {n k m : ℕ}

/-! ### References to entries -/

/-- The references of a process besides the slots of its table: those in local variables, and the slot that does not count. An entry is fresh while the process that allocated it has its only reference and has not said what it is. -/
structure OwnRefs (k m : ℕ) where
  loose : Option (Fin k) := none
  held : Multiset (Fin m) := 0
  fresh : Set (Fin m) := ∅

def slots (f : Fin m) (t : Table k m) : ℕ := total (fun _ x => if x = some f then 1 else 0) t

def OwnRefs.counted (r : OwnRefs k m) (t : Table k m) : Table k m :=
  match r.loose with
  | none => t
  | some fd => update t fd none

def OwnRefs.weight (r : OwnRefs k m) (t : Table k m) (f : Fin m) : ℕ := slots f (r.counted t) + r.held.count f

theorem slots_update (t : Table k m) (fd : Fin k) (x : Option (Fin m)) (f : Fin m) :
    slots f (update t fd x) + (if t fd = some f then 1 else 0) = slots f t + if x = some f then 1 else 0 :=
  total_update _ t fd x

variable {t : Table k m} {f : Fin m} {rest : Multiset (Fin m)} {p q : Fin n} {file : File} {pi : ℕ} {w : Bool} {st : ProcState}

theorem slots_pos {fd : Fin k} (h : t fd = some f) : 0 < slots f t := by
  have hle := le_total (fun _ x => if x = some f then 1 else 0) t fd
  simp only [h, if_true] at hle
  exact hle

@[simp] theorem OwnRefs.weight_empty (t : Table k m) (f : Fin m) : ({} : OwnRefs k m).weight t f = slots f t := by
  simp [OwnRefs.weight, OwnRefs.counted]

theorem OwnRefs.weight_cons (r : OwnRefs k m) (h : r.held = f ::ₘ rest) (t : Table k m) (g : Fin m) :
    r.weight t g = ({ r with held := rest } : OwnRefs k m).weight t g + if g = f then 1 else 0 := by
  simp only [OwnRefs.weight, OwnRefs.counted, h, Multiset.count_cons]
  omega

@[grind cases] structure Refs (files : Fin m → File) (own : Fin n → OwnRefs k m) (ofile : Fin n → Table k m) : Prop where
  count : ∀ f, (files f).ref = (total (fun _ (x : OwnRefs k m × Table k m) => x.1.weight x.2 f) fun p => (own p, ofile p) : ℕ)
  free : ∀ f, (files f).ref = 0 → (files f).type = .none
  fresh : ∀ p f, f ∈ (own p).fresh → (files f).type = .none ∧ (files f).ref = 1 ∧ 0 < (own p).weight (ofile p) f

namespace Refs

variable {files : Fin m → File} {own : Fin n → OwnRefs k m} {ofile : Fin n → Table k m}

variable (h : Refs files own ofile)
include h

theorem weight_le (p : Fin n) (f : Fin m) : ((own p).weight (ofile p) f : ℤ) ≤ (files f).ref := by
  rw [h.count f]
  exact_mod_cast le_total (fun _ (x : OwnRefs k m × Table k m) => x.1.weight x.2 f) (fun p => (own p, ofile p)) p

theorem two_le (hne : p ≠ q) (hp : 0 < (own p).weight (ofile p) f) (hq : 0 < (own q).weight (ofile q) f) :
    2 ≤ (files f).ref := by
  have hle := two_le_total (fun _ (x : OwnRefs k m × Table k m) => x.1.weight x.2 f) (fun p => (own p, ofile p)) hne
  rw [h.count f]
  norm_cast
  dsimp only at hle
  omega

theorem weight_of_free (hf : (files f).ref = 0) (p : Fin n) : (own p).weight (ofile p) f = 0 := by
  have hle := h.weight_le p f
  omega

theorem put (files' : Fin m → File) (p : Fin n) {r : OwnRefs k m}
    (hcount : ∀ f, (files' f).ref + (own p).weight (ofile p) f = (files f).ref + r.weight t f)
    (hfree : ∀ f, (files' f).ref = 0 → (files' f).type = .none)
    (hfresh : ∀ f ∈ r.fresh, (files' f).type = .none ∧ (files' f).ref = 1 ∧ 0 < r.weight t f)
    (hothers : ∀ f, (own p).weight (ofile p) f = 0 → (files f).ref ≠ 0 → files' f = files f) :
    Refs files' (update own p r) (update ofile p t) where
  count f := by
    have hviews : (fun q => (update own p r q, update ofile p t q)) = update (fun q => (own q, ofile q)) p (r, t) := by
      funext q
      grind [update_apply]
    have hupdate := total_update (fun _ (x : OwnRefs k m × Table k m) => x.1.weight x.2 f) (fun q => (own q, ofile q)) p (r, t)
    have hold := h.count f
    have hnew := hcount f
    dsimp only at hupdate
    rw [hviews]
    omega
  free := hfree
  fresh q f hf := by
    have hfresh' := h.fresh q f
    have htwo := h.two_le (p := q) (q := p) (f := f)
    grind [update_apply]

theorem give (hne : q ≠ p) (hq : own q = {})
    (hheld : (own p).held = f ::ₘ rest) (hp : (own p).fresh = ∅) {i : Fin k} (hi : ofile q i = none) :
    Refs files (update own p ⟨(own p).loose, rest, (own p).fresh⟩) (update ofile q (update (ofile q) i (some f))) where
  count g := by
    have hviews : (fun a => (update own p ⟨(own p).loose, rest, (own p).fresh⟩ a, update ofile q (update (ofile q) i (some f)) a)) =
        update (update (fun a => (own a, ofile a)) p (⟨(own p).loose, rest, (own p).fresh⟩, ofile p)) q (own q, update (ofile q) i (some f)) := by
      funext a
      grind [update_apply]
    have hfirst := total_update (fun _ (x : OwnRefs k m × Table k m) => x.1.weight x.2 g)
      (fun a => (own a, ofile a)) p (⟨(own p).loose, rest, (own p).fresh⟩, ofile p)
    have hsecond := total_update (fun _ (x : OwnRefs k m × Table k m) => x.1.weight x.2 g)
      (update (fun a => (own a, ofile a)) p (⟨(own p).loose, rest, (own p).fresh⟩, ofile p)) q (own q, update (ofile q) i (some f))
    have hown := (own p).weight_cons hheld (ofile p) g
    have hchild := slots_update (ofile q) i (some f) g
    have hcount := h.count g
    simp only [update_of_ne hne, hq, OwnRefs.weight_empty, hi, reduceCtorEq, if_false, Option.some.injEq, eq_comm (a := f)] at hfirst hsecond hchild
    rw [hviews, hq, hcount]
    omega
  free := h.free
  fresh a g hg := by
    have hfresh := h.fresh a g
    grind [update_apply, OwnRefs.weight, OwnRefs.counted]

end Refs

/-! ### Ends and pages of pipes -/

/-- The ends of pipes whose entry a process has given up or not filled in yet, and the pages it is about to free. -/
structure OwnEnds where
  ends : Multiset (ℕ × Bool) := 0
  freeing : Multiset ℕ := 0

def Pipe.isOpen (pipe : Pipe) (writable : Bool) : Bool := if writable then pipe.writeopen else pipe.readopen

@[simp] theorem Pipe.isOpen_shut (pipe : Pipe) (w w' : Bool) : (pipe.shut w).isOpen w' = (pipe.isOpen w' && w' != w) := by
  cases w <;> cases w' <;> simp [Pipe.shut, Pipe.isOpen]

@[simp] theorem Pipe.freed_shut (pipe : Pipe) (w : Bool) : (pipe.shut w).freed = pipe.freed := by
  cases w <;> rfl

def File.endAt (file : File) (pi : ℕ) (writable : Bool) : ℕ := if file.type = .pipe ∧ file.pipe = pi ∧ file.writable = writable then 1 else 0

theorem File.endAt_of_ne (h : file.type ≠ .pipe) (pi : ℕ) (w : Bool) : file.endAt pi w = 0 := by
  simp [File.endAt, h]

/-- An end that is open belongs to one entry or one process, and a page both of whose ends are shut is freed or about to be. -/
structure Ends (files : Fin m → File) (pipes : ℕ → Pipe) (pages : ℕ) (own : Fin n → OwnEnds) : Prop where
  ends : ∀ pi w, total (fun _ file => file.endAt pi w) files +
    total (fun _ (o : OwnEnds) => o.ends.count (pi, w)) own = if (pipes pi).isOpen w then 1 else 0
  page : ∀ pi, (pipes pi).freed + total (fun _ (o : OwnEnds) => o.freeing.count pi) own =
    if pi < pages ∧ (pipes pi).isOpen false = false ∧ (pipes pi).isOpen true = false then 1 else 0
  beyond : ∀ pi w, pages ≤ pi → (pipes pi).isOpen w = false

namespace Ends

variable {files : Fin m → File} {pipes : ℕ → Pipe} {pages : ℕ} {own : Fin n → OwnEnds}

variable (h : Ends files pipes pages own)
include h

theorem setFile (p : Fin n) {o : OwnEnds}
    (hends : ∀ pi w, file.endAt pi w + o.ends.count (pi, w) = (files f).endAt pi w + (own p).ends.count (pi, w)) (hfreeing : o.freeing = (own p).freeing) :
    Ends (update files f file) pipes pages (update own p o) where
  ends pi w := by
    have hfiles := total_update (fun _ (file : File) => file.endAt pi w) files f file
    have hown := total_update (fun _ (o : OwnEnds) => o.ends.count (pi, w)) own p o
    have hold := h.ends pi w
    have hnew := hends pi w
    omega
  page pi := by
    have hown := total_update (fun _ (o : OwnEnds) => o.freeing.count pi) own p o
    have hold := h.page pi
    rw [hfreeing] at hown
    omega
  beyond := h.beyond

theorem isOpen_of_held (hp : (pi, w) ∈ (own p).ends) : (pipes pi).isOpen w = true := by
  have hle := le_total (fun _ (o : OwnEnds) => o.ends.count (pi, w)) own p
  have hpos := Multiset.count_pos.mpr hp
  have hends := h.ends pi w
  cases hopen : (pipes pi).isOpen w with
  | true => rfl
  | false =>
    simp only [hopen, Bool.false_eq_true, if_false] at hends
    omega

theorem shut {rest : Multiset (ℕ × Bool)} (hp : (own p).ends = (pi, w) ::ₘ rest) :
    Ends files (update pipes pi ((pipes pi).shut w)) pages
      (update own p ⟨rest, if (pipes pi).isOpen (!w) then (own p).freeing else pi ::ₘ (own p).freeing⟩) := by
  have hopen : (pipes pi).isOpen w = true := h.isOpen_of_held (p := p) (by simp [hp])
  have hlt : pi < pages := by
    by_contra hge
    have hshut := h.beyond pi w (by omega)
    simp [hopen] at hshut
  refine ⟨fun pi' w' => ?_, fun pi' => ?_, fun pi' w' hge => ?_⟩
  · have hown := total_update (fun _ (o : OwnEnds) => o.ends.count (pi', w')) own p
      ⟨rest, if (pipes pi).isOpen (!w) then (own p).freeing else pi ::ₘ (own p).freeing⟩
    have hold := h.ends pi' w'
    simp only [hp, Multiset.count_cons, Prod.mk.injEq] at hown
    grind [update_apply, Pipe.isOpen_shut]
  · have hown := total_update (fun _ (o : OwnEnds) => o.freeing.count pi') own p
      ⟨rest, if (pipes pi).isOpen (!w) then (own p).freeing else pi ::ₘ (own p).freeing⟩
    have hold := h.page pi'
    cases w <;> grind [update_apply, Pipe.isOpen_shut, Pipe.freed_shut, Multiset.count_cons]
  · by_cases hpi : pi' = pi
    · omega
    · rw [update_of_ne hpi]
      exact h.beyond pi' w' hge

theorem free {rest : Multiset ℕ} (hp : (own p).freeing = pi ::ₘ rest) :
    Ends files (update pipes pi { pipes pi with freed := (pipes pi).freed + 1 }) pages (update own p ⟨(own p).ends, rest⟩) := by
  have hopen : ∀ pi' w, (update pipes pi { pipes pi with freed := (pipes pi).freed + 1 } pi').isOpen w = (pipes pi').isOpen w := by
    grind [update_apply, Pipe.isOpen]
  refine ⟨fun pi' w => ?_, fun pi' => ?_, fun pi' w hge => ?_⟩
  · have hown := total_update (fun _ (o : OwnEnds) => o.ends.count (pi', w)) own p ⟨(own p).ends, rest⟩
    have hold := h.ends pi' w
    dsimp only at hown
    rw [hopen]
    omega
  · have hown := total_update (fun _ (o : OwnEnds) => o.freeing.count pi') own p ⟨(own p).ends, rest⟩
    have hold := h.page pi'
    simp only [hp, Multiset.count_cons] at hown
    rw [hopen, hopen]
    grind [update_apply]
  · rw [hopen]
    exact h.beyond pi' w hge

theorem alloc (p : Fin n) :
    Ends files (update pipes pages { readopen := true, writeopen := true }) (pages + 1)
      (update own p ⟨(pages, false) ::ₘ (pages, true) ::ₘ (own p).ends, (own p).freeing⟩) := by
  have hshut : ∀ w, (pipes pages).isOpen w = false := fun w => h.beyond pages w (Nat.le_refl _)
  refine ⟨fun pi w => ?_, fun pi => ?_, fun pi w hge => ?_⟩
  · have hown := total_update (fun _ (o : OwnEnds) => o.ends.count (pi, w)) own p ⟨(pages, false) ::ₘ (pages, true) ::ₘ (own p).ends, (own p).freeing⟩
    have hold := h.ends pi w
    simp only [Multiset.count_cons, Prod.mk.injEq] at hown
    cases w <;> grind [update_apply, Pipe.isOpen]
  · have hown := total_update (fun _ (o : OwnEnds) => o.freeing.count pi) own p ⟨(pages, false) ::ₘ (pages, true) ::ₘ (own p).ends, (own p).freeing⟩
    have hold := h.page pi
    grind [update_apply, Pipe.isOpen]
  · rw [update_of_ne (by omega)]
    exact h.beyond pi w (by omega)

end Ends

/-! ### Descriptor tables -/

/-- What a process knows of descriptor tables while it runs: its own, and the one of the child it is making. -/
structure OwnTables (n k m : ℕ) where
  table : Option (Table k m) := none
  child : Option (Fin n × Table k m) := none

/-- A process's table is written by the process alone, and by its parent before it runs. A slot of `proc` that is not in use has an empty table. The tables in `fixed` have the contents it gives. -/
@[grind cases] structure Tables (fixed : Fin n → Option (Table k m)) (state : Fin n → ProcState)
    (ofile : Fin n → Table k m) (own : Fin n → OwnTables n k m) : Prop where
  table : ∀ p t, (own p).table = some t → state p = .running ∧ ofile p = t
  child : ∀ p q t, (own p).child = some (q, t) → state q = .used ∧ ofile q = t
  single : ∀ p p' q t t', (own p).child = some (q, t) → (own p').child = some (q, t') → p = p'
  empty : ∀ q, state q = .unused ∨ state q = .zombie → ofile q = fun _ => none
  fixed : ∀ q t, fixed q = some t → ofile q = t

namespace Tables

variable {fixed : Fin n → Option (Table k m)} {state : Fin n → ProcState} {ofile : Fin n → Table k m} {own : Fin n → OwnTables n k m}

variable (h : Tables fixed state ofile own)
include h

theorem not_child (hq : state q ≠ .used) (p : Fin n) (t : Table k m) : (own p).child ≠ some (q, t) :=
  fun hp => hq (h.child p q t hp).1

theorem table_none (hq : state q ≠ .running) : (own q).table = none := by
  cases hknown : (own q).table with
  | none => rfl
  | some t => exact absurd (h.table q t hknown).1 hq

theorem table_update (hq : state q ≠ .running) (p : Fin n) (u : Table k m)
    (hp : (own p).table = some u) : update state q st p = .running ∧ update ofile q t p = u := by
  obtain ⟨hrun, hu⟩ := h.table p u hp
  have hpq : p ≠ q := by
    rintro rfl
    exact hq hrun
  rw [update_of_ne hpq, update_of_ne hpq]
  exact ⟨hrun, hu⟩

theorem put (p q : Fin n) (o : OwnTables n k m) (st : ProcState) (t : Table k m)
    (hq : q = p ∨ (own q).table = none) (hchild : ∀ a ≠ p, ∀ u, (own a).child ≠ some (q, u))
    (htable : ∀ u, o.table = some u → update state q st p = .running ∧ update ofile q t p = u)
    (hnew : ∀ c u, o.child = some (c, u) →
      (update state q st c = .used ∧ update ofile q t c = u) ∧ ∀ a ≠ p, ∀ u', (own a).child ≠ some (c, u'))
    (hempty : st = .unused ∨ st = .zombie → t = fun _ => none) (hfixed : ∀ u, fixed q = some u → t = u) :
    Tables fixed (update state q st) (update ofile q t) (update own p o) := by
  constructor <;> grind [update_apply]

theorem write (hfixed : fixed p = none) (hp : (own p).table = some t) (t' : Table k m) :
    Tables fixed state (update ofile p t') (update own p ⟨some t', (own p).child⟩) := by
  obtain ⟨hrun, _⟩ := h.table p t hp
  have hother : ∀ a u, (own a).child ≠ some (p, u) := h.not_child (by simp [hrun])
  have hput := h.put p p ⟨some t', (own p).child⟩ (state p) t' (.inl rfl) (fun a _ => hother a)
    (fun u hu => by simpa [hrun] using hu)
    (fun c u hc => by
      have hcp : c ≠ p := by
        rintro rfl
        exact hother _ u hc
      simp only [update_of_ne hcp]
      exact ⟨h.child p c u hc, fun a ha u' ha' => ha (h.single a p c u' u ha' hc)⟩)
    (by simp [hrun]) (by simp [hfixed])
  simpa using hput

theorem spawn (p : Fin n) (hq : state q = .unused) :
    Tables fixed (update state q .used) ofile (update own p ⟨(own p).table, some (q, fun _ => none)⟩) := by
  have hput := h.put p q ⟨(own p).table, some (q, fun _ => none)⟩ .used (ofile q)
    (.inr (h.table_none (by simp [hq])))
    (fun a _ => h.not_child (by simp [hq]) a)
    (h.table_update (by simp [hq]) p)
    (fun c u hc => by
      obtain ⟨rfl, rfl⟩ := Prod.mk.inj (Option.some.inj hc)
      simp only [update_self, true_and]
      exact ⟨h.empty q (.inl hq), fun a _ => h.not_child (by simp [hq]) a⟩)
    (by simp) (fun u => h.fixed q u)
  simpa using hput

theorem writeChild (hp : (own p).child = some (q, t)) (hfixed : fixed q = none) (t' : Table k m) :
    Tables fixed state (update ofile q t') (update own p ⟨(own p).table, some (q, t')⟩) := by
  obtain ⟨hused, _⟩ := h.child p q t hp
  have hput := h.put p q ⟨(own p).table, some (q, t')⟩ (state q) t'
    (.inr (h.table_none (by simp [hused])))
    (fun a ha u hu => ha (h.single a p q u t hu hp))
    (h.table_update (by simp [hused]) p)
    (fun c u hc => by
      obtain ⟨rfl, rfl⟩ := Prod.mk.inj (Option.some.inj hc)
      simp only [update_self, and_true]
      exact ⟨hused, fun a ha u' ha' => ha (h.single a p q u' t ha' hp)⟩)
    (by simp [hused]) (by simp [hfixed])
  simpa using hput

/-- A process lets its child run, or gives its slot back before it has written to its table. -/
theorem release (hp : (own p).child = some (q, t))
    (hst : st = .unused ∨ st = .zombie → t = fun _ => none) :
    Tables fixed (update state q st) ofile (update own p ⟨(own p).table, none⟩) := by
  obtain ⟨hused, ht⟩ := h.child p q t hp
  have hput := h.put p q ⟨(own p).table, none⟩ st (ofile q)
    (.inr (h.table_none (by simp [hused])))
    (fun a ha u hu => ha (h.single a p q u t hu hp))
    (h.table_update (by simp [hused]) p)
    (by simp) (by simpa [ht] using hst) (fun u => h.fixed q u)
  simpa using hput

theorem exit (hp : (own p).table = some fun _ => none) :
    Tables fixed (update state p .zombie) ofile (update own p {}) := by
  obtain ⟨hrun, ht⟩ := h.table p _ hp
  have hput := h.put p p {} .zombie (ofile p) (.inl rfl) (fun a _ => h.not_child (by simp [hrun]) a)
    (by simp) (by simp) (by simp [ht]) (fun u => h.fixed p u)
  simpa using hput

theorem reap (p : Fin n) (hq : state q = .zombie) :
    Tables fixed (update state q .unused) ofile own := by
  have hother : ∀ a u, (own a).child ≠ some (q, u) := h.not_child (by simp [hq])
  have hput := h.put p q (own p) .unused (ofile q)
    (.inr (h.table_none (by simp [hq])))
    (fun a _ => hother a)
    (h.table_update (by simp [hq]) p)
    (fun c u hc => by
      have hcq : c ≠ q := by
        rintro rfl
        exact hother p u hc
      simp only [update_of_ne hcq]
      exact ⟨h.child p c u hc, fun a ha u' ha' => ha (h.single a p c u' u ha' hc)⟩)
    (fun _ => h.empty q (.inr hq)) (fun u => h.fixed q u)
  simpa using hput

end Tables

end AdvancedXv6.FileTable
