import Mathlib.Data.List.Chain
import Mathlib.Data.List.Nodup

/-!
# Rings

A ring is a circular list through two pointers, with a node at which it begins and ends. It is described by the list of the other nodes, in the order of the forward pointers. The two changes that keep a ring are to take a node out and to put one in after the first; a loop that goes round the ring, in either direction, until it finds what it looks for is a search in the list.
-/

namespace Ring

open Function

variable {α : Type*}

structure Links (α : Type*) where
  next : α → α
  prev : α → α

namespace Links

def Joined (l : Links α) (a b : α) : Prop := l.next a = b ∧ l.prev b = a

/-- From `r` the pointers lead through `xs` and back. -/
structure IsRing (l : Links α) (r : α) (xs : List α) : Prop where
  joined : List.IsChain l.Joined (r :: (xs ++ [r]))
  nodup : (r :: xs).Nodup

def flip (l : Links α) : Links α := ⟨l.prev, l.next⟩

variable {l l' : Links α} {r a b : α} {xs : List α}

theorem IsRing.flip (h : l.IsRing r xs) : l.flip.IsRing r xs.reverse where
  joined := by
    have heq : r :: (xs.reverse ++ [r]) = (r :: (xs ++ [r])).reverse := by simp
    rw [heq, List.isChain_reverse]
    exact h.joined.imp fun _ _ hab => hab.symm
  nodup := by
    rw [List.nodup_cons, List.mem_reverse, List.nodup_reverse]
    exact List.nodup_cons.mp h.nodup

theorem joined_congr (h : List.IsChain l.Joined xs) (hnext : ∀ a ∈ xs.dropLast, l'.next a = l.next a) (hprev : ∀ b ∈ xs.tail, l'.prev b = l.prev b) :
    List.IsChain l'.Joined xs := by
  rw [List.isChain_iff_forall_rel_of_append_cons_cons] at *
  intro a b l1 l2 heq
  obtain ⟨hab, hba⟩ := h heq
  have ha : a ∈ xs.dropLast := by
    rw [heq, List.dropLast_append_of_ne_nil (List.cons_ne_nil _ _)]
    simp
  have hb : b ∈ xs.tail := by
    rw [heq]
    cases l1 <;> simp
  exact ⟨(hnext a ha).trans hab, (hprev b hb).trans hba⟩

variable [DecidableEq α]

def setNext (l : Links α) (a b : α) : Links α := { l with next := update l.next a b }

def setPrev (l : Links α) (a b : α) : Links α := { l with prev := update l.prev a b }

/-- Node `b` is taken out. Its own pointers stay. -/
def unlink (l : Links α) (b : α) : Links α :=
  let l := l.setPrev (l.next b) (l.prev b)
  l.setNext (l.prev b) (l.next b)

def insertAfter (l : Links α) (r b : α) : Links α :=
  let l := l.setNext b (l.next r)
  let l := l.setPrev b r
  let l := l.setPrev (l.next r) b
  l.setNext r b

theorem IsRing.unlink {as bs : List α} (h : l.IsRing r (as ++ b :: bs)) : (l.unlink b).IsRing r (as ++ bs) := by
  have hnodup := h.nodup
  obtain ⟨ps, p, hp⟩ : ∃ ps p, r :: as = ps ++ [p] := ⟨_, _, (List.dropLast_append_getLast (List.cons_ne_nil r as)).symm⟩
  obtain ⟨q, qs, hq⟩ : ∃ q qs, bs ++ [r] = q :: qs := List.exists_cons_of_ne_nil (by simp)
  have hchain : List.IsChain l.Joined (ps ++ p :: b :: q :: qs) := by
    have heq : r :: (as ++ b :: bs ++ [r]) = ps ++ p :: b :: q :: qs := by
      rw [show r :: (as ++ b :: bs ++ [r]) = (r :: as) ++ b :: (bs ++ [r]) by simp, hp, hq]
      simp
    rw [← heq]
    exact h.joined
  obtain ⟨hps, ⟨hpb, hbp⟩, hbqs⟩ := List.isChain_append_cons_cons.mp hchain
  obtain ⟨⟨hbq, hqb⟩, hqs⟩ := List.isChain_cons_cons.mp hbqs
  -- the nodes are all different
  have hmem_p {a : α} (ha : a ∈ ps ++ [p]) : a ∈ r :: as := hp ▸ ha
  have hmem_q {a : α} (ha : a ∈ q :: qs) : a ∈ bs ++ [r] := hq ▸ ha
  have hnodup_p : (ps ++ [p]).Nodup := by
    rw [← hp]
    exact hnodup.sublist (by simp)
  have hnodup_q : (q :: qs).Nodup := by
    rw [← hq, List.nodup_append_comm, List.singleton_append]
    refine hnodup.sublist (List.Sublist.cons_cons r ?_)
    exact (List.sublist_cons_self b bs).trans (List.sublist_append_right as (b :: bs))
  have hout_p : b ∉ r :: as := by
    simp only [List.nodup_cons, List.nodup_append, List.mem_append, List.mem_cons] at hnodup ⊢
    grind
  have hapart : ∀ a ∈ as, a ∉ q :: qs := by
    rw [← hq]
    simp only [List.nodup_cons, List.nodup_append, List.mem_append, List.mem_cons] at hnodup ⊢
    grind
  have hapart' : ∀ a ∈ bs, a ∉ r :: as := by
    simp only [List.nodup_cons, List.nodup_append, List.mem_append, List.mem_cons] at hnodup ⊢
    grind
  have hqb' : b ≠ q := by
    rintro rfl
    rcases List.mem_append.mp (hmem_q List.mem_cons_self) with hmem | hmem
    · simp only [List.nodup_cons, List.nodup_append, List.mem_append, List.mem_cons] at hnodup
      grind
    · exact hout_p (List.mem_singleton.mp hmem ▸ List.mem_cons_self)
  have heq : l.unlink b = ⟨update l.next p q, update l.prev q p⟩ := by
    simp only [Links.unlink, setPrev, setNext, hbq, hbp, update_of_ne hqb']
  refine ⟨?_, hnodup.sublist (by simp)⟩
  have hlist : r :: (as ++ bs ++ [r]) = ps ++ p :: q :: qs := by
    rw [show r :: (as ++ bs ++ [r]) = (r :: as) ++ (bs ++ [r]) by simp, hp, hq]
    simp
  rw [hlist, List.isChain_append_cons_cons, heq]
  refine ⟨joined_congr hps (fun a ha => ?_) (fun a ha => ?_), ⟨update_self .., update_self ..⟩, joined_congr hqs (fun a ha => ?_) fun a ha => ?_⟩
  · rw [List.dropLast_concat] at ha
    refine update_of_ne ?_ ..
    rintro rfl
    exact (List.nodup_append.mp hnodup_p).2.2 a ha a (List.mem_singleton_self a) rfl
  · rw [← hp] at ha
    refine update_of_ne ?_ ..
    rintro rfl
    exact hapart a ha List.mem_cons_self
  · rw [← hq, List.dropLast_concat] at ha
    refine update_of_ne ?_ ..
    rintro rfl
    exact hapart' a ha (hmem_p (by simp))
  · refine update_of_ne ?_ ..
    rintro rfl
    exact (List.nodup_cons.mp hnodup_q).1 ha

theorem IsRing.insertAfter (h : l.IsRing r xs) (hb : b ∉ r :: xs) : (l.insertAfter r b).IsRing r (b :: xs) := by
  obtain ⟨q, qs, hq⟩ : ∃ q qs, xs ++ [r] = q :: qs := List.exists_cons_of_ne_nil (by simp)
  have hnodup := h.nodup
  have hchain := h.joined
  rw [hq] at hchain
  obtain ⟨⟨hrq, _⟩, hqs⟩ := List.isChain_cons_cons.mp hchain
  have hbr : b ≠ r := fun hc => hb (hc ▸ List.mem_cons_self)
  have hout : b ∉ q :: qs := by
    rw [← hq]
    simpa [and_comm] using hb
  have hnodup_q : (q :: qs).Nodup := by
    rw [← hq, List.nodup_append_comm]
    exact hnodup
  have heq : l.insertAfter r b = ⟨update (update l.next b q) r b, update (update l.prev b r) q b⟩ := by
    simp only [Links.insertAfter, setPrev, setNext, update_of_ne hbr.symm, hrq]
  have hbq : b ≠ q := fun hc => hout (hc ▸ List.mem_cons_self)
  refine ⟨?_, ?_⟩
  · rw [List.cons_append, hq, List.isChain_cons_cons, List.isChain_cons_cons, heq]
    refine ⟨⟨update_self .., ?_⟩, ⟨?_, update_self ..⟩, joined_congr hqs (fun a ha => ?_) fun a ha => ?_⟩
    · exact (update_of_ne hbq ..).trans (update_self ..)
    · exact (update_of_ne hbr ..).trans (update_self ..)
    · rw [← hq, List.dropLast_concat] at ha
      have har : a ≠ r := fun hc => (List.nodup_cons.mp hnodup).1 (hc ▸ ha)
      have hab : a ≠ b := fun hc => hb (hc ▸ List.mem_cons_of_mem r ha)
      exact (update_of_ne har ..).trans (update_of_ne hab ..)
    · have haq : a ≠ q := fun hc => (List.nodup_cons.mp hnodup_q).1 (hc ▸ ha)
      have hab : a ≠ b := fun hc => hout (hc ▸ List.mem_cons_of_mem q ha)
      exact (update_of_ne haq ..).trans (update_of_ne hab ..)
  · simp only [List.nodup_cons, List.mem_cons] at hnodup hb ⊢
    grind

/-! ### Loops -/

/-- A loop from node `a` on that ends at `r` or at the first node that passes the test; `none` if there is no end within the turns that it is given. -/
def scan (step : α → α) (r : α) (test : α → Bool) : ℕ → α → Option (Option α)
  | 0, _ => none
  | turns + 1, a => if a = r then some none else if test a then some (some a) else scan step r test turns (step a)

theorem scan_eq_find? {step : α → α} {test : α → Bool} {turns : ℕ} (hchain : List.IsChain (fun a b => step a = b) (a :: (xs ++ [r]))) (hr : r ∉ xs)
    (hturns : xs.length < turns) : scan step r test turns (step a) = some (xs.find? test) := by
  induction xs generalizing a turns with
  | nil =>
    obtain ⟨turns, rfl⟩ := Nat.exists_eq_succ_of_ne_zero (Nat.ne_of_gt hturns)
    rw [List.isChain_pair.mp hchain]
    simp [scan]
  | cons x xs ih =>
    obtain ⟨turns, rfl⟩ := Nat.exists_eq_succ_of_ne_zero (Nat.ne_of_gt (Nat.lt_of_le_of_lt (Nat.zero_le _) hturns))
    rw [List.cons_append, List.isChain_cons_cons] at hchain
    have hx : x ≠ r := fun hc => hr (hc ▸ List.mem_cons_self)
    rw [hchain.1, scan, if_neg hx, List.find?_cons]
    cases htest : test x with
    | true => rfl
    | false =>
      refine ih hchain.2 (fun hc => hr (List.mem_cons_of_mem x hc)) ?_
      simpa using hturns

theorem IsRing.scan_next (h : l.IsRing r xs) {test : α → Bool} {turns : ℕ}
    (hturns : xs.length < turns) : scan l.next r test turns (l.next r) = some (xs.find? test) :=
  scan_eq_find? (h.joined.imp fun _ _ hab => hab.1) (List.nodup_cons.mp h.nodup).1 hturns

theorem IsRing.scan_prev (h : l.IsRing r xs) {test : α → Bool} {turns : ℕ} (hturns : xs.length < turns) :
    scan l.prev r test turns (l.prev r) = some (xs.reverse.find? test) :=
  h.flip.scan_next (by rwa [List.length_reverse])

end Links

end Ring
