import AdvancedXv6.BufferCache.Model
import Mathlib.Data.Fintype.Card

/-!
# Recycling

The list of the buffers is in the order in which they last came to no references by a `brelse`, the latest first, because `brelse` moves a buffer to the front exactly then. Hence the loop of `bget` that goes backwards finds the buffer that has been without references for the longest time. No other step moves a buffer, whatever it does to the reference counts.
-/

namespace AdvancedXv6.BufferCache

open Function Ring Transition

variable {k n : ℕ}

def rootdev : UInt32 := 1

theorem isRing_binit (links : Links (Node n)) : (binit n links).IsRing none ((List.finRange n).reverse.map some) := by
  have hstart : ((links.setPrev none none).setNext none none).IsRing none [] := by
    refine ⟨List.isChain_pair.mpr ⟨?_, ?_⟩, List.nodup_singleton _⟩
    · exact update_self none none links.next
    · exact update_self none none links.prev
  have hloop (bs cs : List (Fin n)) {links : Links (Node n)} (hring : links.IsRing none (cs.map some)) (hnodup : (cs.reverse ++ bs).Nodup) :
      (bs.foldl (fun links b => links.insertAfter none (some b)) links).IsRing none ((bs.reverse ++ cs).map some) := by
    induction bs generalizing links cs with
    | nil => exact hring
    | cons b bs ih =>
      have hb : (some b : Node n) ∉ none :: cs.map some := by
        have hmem : b ∉ cs := fun hc => (List.nodup_append.mp hnodup).2.2 b (List.mem_reverse.mpr hc) b List.mem_cons_self rfl
        simpa using hmem
      have hstep := ih (b :: cs) (hring.insertAfter hb) (by simpa using hnodup)
      simpa using hstep
  have hall := hloop (List.finRange n) [] hstart (by simpa using List.nodup_finRange n)
  rw [List.append_nil] at hall
  exact hall

namespace System

variable {s s' : System k n} {p : Fin k} {b : Fin n} {dev blockno : UInt32} {e : Event k n} {bs : List (Fin n)}

structure Ordered (s : System k n) (bs : List (Fin n)) : Prop where
  ring : s.links.IsRing none (bs.map some)
  all : ∀ b, b ∈ bs
  sorted : bs.Pairwise fun a b => s.returned b ≤ s.returned a
  returned_le : ∀ b, s.returned b ≤ s.releases

section

variable (h : s.Ordered bs)
include h

theorem Ordered.nodup : bs.Nodup := (List.nodup_cons.mp h.ring.nodup).2.of_map some

theorem Ordered.length : (bs.map some).length < n + 1 := by
  rw [List.length_map, Nat.lt_succ_iff]
  simpa using List.Nodup.length_le_card h.nodup

theorem Ordered.lookup_eq : s.lookup dev blockno = some ((bs.find? fun b => decide (s.Assigned b dev blockno)).map some) := by
  unfold lookup
  rw [h.ring.scan_next h.length, List.find?_map]
  rfl

theorem Ordered.victim_eq : s.victim = some ((bs.reverse.find? fun b => decide ((s.bufs b).refcnt = 0)).map some) := by
  unfold victim
  rw [h.ring.scan_prev h.length, ← List.map_reverse, List.find?_map]
  rfl

/-- The last buffer in the list that passes a test came to no references before all others that do. -/
theorem Ordered.oldest {test : Fin n → Bool} (hb : bs.reverse.find? test = some b) (b' : Fin n) (hb' : test b' = true) :
    s.returned b ≤ s.returned b' := by
  obtain ⟨_, as, cs, heq, hbefore⟩ := List.find?_eq_some_iff_append.mp hb
  have hmem : b' ∈ as ++ b :: cs := heq ▸ List.mem_reverse.mpr (h.all b')
  have hsorted : (as ++ b :: cs).Pairwise fun a b => s.returned a ≤ s.returned b := heq ▸ List.pairwise_reverse.mpr h.sorted
  rcases List.mem_append.mp hmem with hbefore' | hafter
  · have hfalse := hbefore b' hbefore'
    rw [hb'] at hfalse
    cases hfalse
  · rcases List.mem_cons.mp hafter with rfl | hafter
    · exact Nat.le_refl _
    · exact (List.pairwise_cons.mp (List.pairwise_append.mp hsorted).2.1).1 b' hafter

/-- What `bget` returns: the buffer of the block, or one without references that nobody has used for the longest time. -/
theorem Ordered.bget_cases (hget : s.bget dev blockno = some (s', b)) :
    (s.Assigned b dev blockno ∧ s' = s.setBuf b { s.bufs b with refcnt := (s.bufs b).refcnt + 1 }) ∨
    ((∀ b', ¬ s.Assigned b' dev blockno) ∧ (s.bufs b).refcnt = 0 ∧ (∀ b', (s.bufs b').refcnt = 0 → s.returned b ≤ s.returned b') ∧
      s' = s.setBuf b { dev, blockno, valid := false, refcnt := 1 }) := by
  unfold bget at hget
  rw [h.lookup_eq, h.victim_eq] at hget
  cases hfind : bs.find? fun b => decide (s.Assigned b dev blockno) with
  | some a =>
    rw [hfind] at hget
    cases hget
    have hhit := List.find?_some hfind
    exact .inl ⟨of_decide_eq_true hhit, rfl⟩
  | none =>
    rw [hfind] at hget
    have hmiss (b' : Fin n) : ¬ s.Assigned b' dev blockno := by simpa using List.find?_eq_none.mp hfind b' (h.all b')
    cases hvictim : bs.reverse.find? fun b => decide ((s.bufs b).refcnt = 0) with
    | none =>
      rw [hvictim] at hget
      cases hget
    | some a =>
      rw [hvictim] at hget
      cases hget
      have hfree := List.find?_some hvictim
      exact .inr ⟨hmiss, of_decide_eq_true hfree, fun b' hb' => h.oldest hvictim b' (decide_eq_true hb'), rfl⟩

theorem Ordered.bget_isSome_iff (dev blockno : UInt32) :
    (s.bget dev blockno).isSome ↔ (∃ b, s.Assigned b dev blockno) ∨ ∃ b, (s.bufs b).refcnt = 0 := by
  unfold bget
  rw [h.lookup_eq, h.victim_eq]
  cases hfind : bs.find? fun b => decide (s.Assigned b dev blockno) with
  | some a =>
    have hhit := List.find?_some hfind
    exact iff_of_true rfl (.inl ⟨a, of_decide_eq_true hhit⟩)
  | none =>
    have hmiss (b : Fin n) : ¬ s.Assigned b dev blockno := by simpa using List.find?_eq_none.mp hfind b (h.all b)
    cases hvictim : bs.reverse.find? fun b => decide ((s.bufs b).refcnt = 0) with
    | some a =>
      have hfree := List.find?_some hvictim
      exact iff_of_true rfl (.inr ⟨a, of_decide_eq_true hfree⟩)
    | none =>
      have hused (b : Fin n) : (s.bufs b).refcnt ≠ 0 := by simpa using List.find?_eq_none.mp hvictim b (List.mem_reverse.mpr (h.all b))
      exact iff_of_false nofun fun hc => hc.elim (fun ⟨b, hb⟩ => hmiss b hb) fun ⟨b, hb⟩ => hused b hb

theorem Ordered.unref (b : Fin n) : ∃ bs', (s.unref b).Ordered bs' := by
  unfold System.unref
  dsimp only
  split
  · obtain ⟨as, cs, hbs⟩ := List.append_of_mem (h.all b)
    subst hbs
    refine ⟨b :: (as ++ cs), ?_, fun a => ?_, ?_, fun a => ?_⟩
    · have hring := h.ring
      rw [List.map_append, List.map_cons] at hring
      have hout : (some b : Node n) ∉ none :: (as.map some ++ cs.map some) := by
        have hnodup := List.nodup_middle.mp h.nodup
        simpa using (List.nodup_cons.mp hnodup).1
      rw [List.map_cons, List.map_append]
      exact hring.unlink.insertAfter hout
    · have hmem := h.all a
      simp only [List.mem_append, List.mem_cons] at hmem ⊢
      tauto
    · have hnodup := List.nodup_cons.mp (List.nodup_middle.mp h.nodup)
      have hne {a : Fin n} (ha : a ∈ as ++ cs) : update s.returned b (s.releases + 1) a = s.returned a :=
        update_of_ne (fun hc : a = b => hnodup.1 (hc ▸ ha)) ..
      refine List.pairwise_cons.mpr ⟨fun a ha => ?_, ?_⟩
      · change update s.returned b (s.releases + 1) a ≤ update s.returned b (s.releases + 1) b
        rw [hne ha, update_self]
        exact Nat.le_succ_of_le (h.returned_le a)
      · have hold : (as ++ cs).Pairwise fun a b => s.returned b ≤ s.returned a :=
          h.sorted.sublist (List.Sublist.append_left (List.sublist_cons_self b cs) as)
        refine hold.imp_of_mem fun {a c} ha hc hle => ?_
        change update s.returned b (s.releases + 1) c ≤ update s.returned b (s.releases + 1) a
        rw [hne ha, hne hc]
        exact hle
    · change update s.returned b (s.releases + 1) a ≤ s.releases + 1
      by_cases ha : a = b
      · rw [ha, update_self]
      · rw [update_of_ne ha]
        exact Nat.le_succ_of_le (h.returned_le a)
  · exact ⟨bs, h.ring, h.all, h.sorted, h.returned_le⟩

end

/-! ### Steps -/

inductive Change (s s' : System k n) : Prop where
  /-- Counts and flags. -/
  | counts (hlinks : s'.links = s.links) (hreturned : s'.returned = s.returned) (hreleases : s'.releases = s.releases)
      (hbufs : ∀ b, (s'.bufs b).dev = (s.bufs b).dev ∧ (s'.bufs b).blockno = (s.bufs b).blockno)
  | recycle (b : Fin n) (dev blockno : UInt32) (hlinks : s'.links = s.links) (hreturned : s'.returned = s.returned) (hreleases : s'.releases = s.releases)
      (hmiss : ∀ b', ¬ s.Assigned b' dev blockno) (hfree : (s.bufs b).refcnt = 0)
      (hb : s'.Assigned b dev blockno) (hbufs : ∀ b', b' ≠ b → s'.bufs b' = s.bufs b')
  | unref (b : Fin n) (hlinks : s'.links = (s.unref b).links)
      (hreturned : s'.returned = (s.unref b).returned)
      (hreleases : s'.releases = (s.unref b).releases)
      (hbufs : ∀ b, (s'.bufs b).dev = (s.bufs b).dev ∧ (s'.bufs b).blockno = (s.bufs b).blockno)

theorem setBuf_block (buf : Buf) (hdev : buf.dev = (s.bufs b).dev) (hblockno : buf.blockno = (s.bufs b).blockno) (b' : Fin n) :
    ((s.setBuf b buf).bufs b').dev = (s.bufs b').dev ∧ ((s.setBuf b buf).bufs b').blockno = (s.bufs b').blockno := by
  unfold setBuf
  dsimp only
  by_cases hb : b' = b
  · rw [hb, update_self]
    exact ⟨hdev, hblockno⟩
  · rw [update_of_ne hb]
    exact ⟨rfl, rfl⟩

theorem unref_eq (s : System k n) (b : Fin n) :
    ∃ links releases returned, s.unref b = { s.setBuf b { s.bufs b with refcnt := (s.bufs b).refcnt - 1 } with links, releases, returned } := by
  unfold unref
  dsimp only
  split
  · exact ⟨_, _, _, rfl⟩
  · exact ⟨_, _, _, rfl⟩

theorem unref_block (s : System k n) (b b' : Fin n) : ((s.unref b).bufs b').dev = (s.bufs b').dev ∧
    ((s.unref b).bufs b').blockno = (s.bufs b').blockno := by
  obtain ⟨_, _, _, heq⟩ := s.unref_eq b
  rw [heq]
  exact setBuf_block (s := s) (b := b) { s.bufs b with refcnt := (s.bufs b).refcnt - 1 } rfl rfl b'

theorem call_eq_some {s1 : System k n} (h : s.call p b s1 = some s') : s.pcs p = .idle ∧ s.owner b = some p ∧ s' = s1 := by
  unfold call at h
  split at h
  · rename_i hidle
    obtain ⟨howner, hsame⟩ := Option.ite_none_right_eq_some.mp h
    exact ⟨hidle, howner, (Option.some.inj hsame).symm⟩
  · cases h

theorem Ordered.change (h : s.Ordered bs) (hnext : s.next e = some s') : s.Change s' := by
  cases e with
  | bread p dev blockno =>
    simp only [System.next] at hnext
    split at hnext
    · obtain ⟨⟨s1, b⟩, hget, rfl⟩ := Option.map_eq_some_iff.mp hnext
      rcases h.bget_cases hget with ⟨_, rfl⟩ | ⟨hmiss, hfree, _, rfl⟩
      · exact .counts rfl rfl rfl (setBuf_block _ rfl rfl)
      · refine .recycle b dev blockno rfl rfl rfl hmiss hfree ?_ fun b' hb' => update_of_ne hb' ..
        show (update s.bufs b _ b).dev = dev ∧ (update s.bufs b _ b).blockno = blockno
        rw [update_self]
        exact ⟨rfl, rfl⟩
    · cases hnext
  | brelse p b =>
    rw [(call_eq_some hnext).2.2]
    exact .counts rfl rfl rfl fun _ => ⟨rfl, rfl⟩
  | bpin p b | bunpin p b =>
    rw [(call_eq_some hnext).2.2]
    exact .counts rfl rfl rfl (setBuf_block _ rfl rfl)
  | run p =>
    simp only [System.next, System.run] at hnext
    split at hnext
    · cases hnext
    · split at hnext
      · cases hnext
        exact .counts rfl rfl rfl fun _ => ⟨rfl, rfl⟩
      · cases hnext
    · cases hnext
      exact .counts rfl rfl rfl (setBuf_block _ rfl rfl)
    · rename_i b _
      cases hnext
      exact .unref b rfl rfl rfl (unref_block s b)

/-- The list is in order, and no two buffers are for the same block. -/
structure Sound (s : System k n) : Prop where
  ordered : ∃ bs, s.Ordered bs
  unique : ∀ b b' dev blockno, dev ≠ 0 → s.Assigned b dev blockno → s.Assigned b' dev blockno → b = b'

theorem Sound.change (h : s.Sound) (hchange : s.Change s') : s'.Sound := by
  obtain ⟨bs, hordered⟩ := h.ordered
  have hassigned (hbufs : ∀ b, (s'.bufs b).dev = (s.bufs b).dev ∧ (s'.bufs b).blockno = (s.bufs b).blockno) {b : Fin n} {dev blockno : UInt32}
      (hb : s'.Assigned b dev blockno) : s.Assigned b dev blockno := ⟨(hbufs b).1.symm.trans hb.1, (hbufs b).2.symm.trans hb.2⟩
  cases hchange with
  | counts hlinks hreturned hreleases hbufs =>
    refine ⟨⟨bs, ?_, hordered.all, ?_, ?_⟩, fun b b' dev blockno hdev hb hb' => h.unique b b' dev blockno hdev (hassigned hbufs hb) (hassigned hbufs hb')⟩
    · rw [hlinks]
      exact hordered.ring
    · rw [hreturned]
      exact hordered.sorted
    · rw [hreturned, hreleases]
      exact hordered.returned_le
  | recycle b dev blockno hlinks hreturned hreleases hmiss hfree hb hbufs =>
    refine ⟨⟨bs, ?_, hordered.all, ?_, ?_⟩, fun b1 b2 dev' blockno' hdev h1 h2 => ?_⟩
    · rw [hlinks]
      exact hordered.ring
    · rw [hreturned]
      exact hordered.sorted
    · rw [hreturned, hreleases]
      exact hordered.returned_le
    · -- a buffer other than `b` is as before, and so is not for the block that `b` is for now
      have hother {a : Fin n} (ha : s'.Assigned a dev' blockno') (hne : a ≠ b) : s.Assigned a dev' blockno' := by
        unfold Assigned at ha
        rw [hbufs a hne] at ha
        exact ha
      have hsame (ha : s'.Assigned b dev' blockno') : dev' = dev ∧ blockno' = blockno := ⟨ha.1.symm.trans hb.1, ha.2.symm.trans hb.2⟩
      by_cases hb1 : b1 = b
      · by_cases hb2 : b2 = b
        · rw [hb1, hb2]
        · obtain ⟨rfl, rfl⟩ := hsame (hb1 ▸ h1)
          exact absurd (hother h2 hb2) (hmiss b2)
      · by_cases hb2 : b2 = b
        · obtain ⟨rfl, rfl⟩ := hsame (hb2 ▸ h2)
          exact absurd (hother h1 hb1) (hmiss b1)
        · exact h.unique b1 b2 dev' blockno' hdev (hother h1 hb1) (hother h2 hb2)
  | unref b hlinks hreturned hreleases hbufs =>
    obtain ⟨bs', hring, hall, hsorted, hle⟩ := hordered.unref b
    refine ⟨⟨bs', ?_, hall, ?_, ?_⟩, fun b b' dev blockno hdev hb hb' => h.unique b b' dev blockno hdev (hassigned hbufs hb) (hassigned hbufs hb')⟩
    · rw [hlinks]
      exact hring
    · rw [hreturned]
      exact hsorted
    · rw [hreturned, hreleases]
      exact hle

theorem Init.sound (h : s.Init) : s.Sound := by
  obtain ⟨links, hlinks⟩ := h.links
  refine ⟨⟨(List.finRange n).reverse, ?_, fun b => ?_, ?_, fun b => ?_⟩, fun b b' dev blockno hdev hb => ?_⟩
  · rw [hlinks]
    exact isRing_binit links
  · exact List.mem_reverse.mpr (List.mem_finRange b)
  · refine List.pairwise_of_forall fun a b => ?_
    rw [h.returned a, h.returned b]
  · rw [h.returned b]
    exact Nat.zero_le _
  · have hzero := hb.1
    rw [h.bufs b] at hzero
    exact absurd hzero.symm hdev

theorem sound (hs : Reachable Init (StepOf next) s) : s.Sound := by
  refine Reachable.invariant (I := Sound) (fun _ h => h.sound) (fun s s' _ h hstep => ?_) hs
  obtain ⟨e, hnext⟩ := hstep
  obtain ⟨bs, hordered⟩ := h.ordered
  exact h.change (hordered.change hnext)

/-- The list holds every buffer once in both directions, a block has one buffer, a buffer with references keeps its block, and `bget` recycles the buffer that has been without references for the longest time. -/
theorem recycles_oldest (hs : Reachable Init (StepOf next) s) :
    (∃ bs : List (Fin n), bs.Nodup ∧ (∀ b, b ∈ bs) ∧ List.IsChain (fun a b => s.links.next a = b) (none :: (bs.map some ++ [none])) ∧
      List.IsChain (fun a b => s.links.prev a = b) (none :: (bs.reverse.map some ++ [none]))) ∧
    (∀ b b' blockno, s.Assigned b rootdev blockno → s.Assigned b' rootdev blockno → b = b') ∧
    (∀ e s' b, s.next e = some s' → (s.bufs b).refcnt ≠ 0 → s'.Assigned b (s.bufs b).dev (s.bufs b).blockno) ∧
    (∀ p dev blockno s', s.next (.bread p dev blockno) = some s' → (∀ b, ¬ s.Assigned b dev blockno) →
      ∃ b, s'.pcs p = .lock b ∧ s'.Assigned b dev blockno ∧ (s.bufs b).refcnt = 0 ∧ ∀ b', (s.bufs b').refcnt = 0 → s.returned b ≤ s.returned b') ∧
    ∀ p dev blockno b, s.pcs p = .idle → (s.bufs b).refcnt = 0 → ∃ s', s.next (.bread p dev blockno) = some s' := by
  have hsound := sound hs
  obtain ⟨bs, hordered⟩ := hsound.ordered
  refine ⟨⟨bs, hordered.nodup, hordered.all, hordered.ring.joined.imp fun _ _ hab => hab.1, ?_⟩,
    fun b b' blockno => hsound.unique b b' rootdev blockno (by decide),
    fun e s' b hnext hused => ?_, fun p dev blockno s' hnext hmiss => ?_, fun p dev blockno b hidle hfree => ?_⟩
  · have hflip := hordered.ring.flip.joined
    rw [← List.map_reverse] at hflip
    exact hflip.imp fun _ _ hab => hab.1
  · cases hordered.change hnext with
    | counts _ _ _ hbufs | unref b' _ _ _ hbufs => exact hbufs b
    | recycle b' dev blockno _ _ _ _ hfree _ hbufs =>
      have hne : b ≠ b' := by
        rintro rfl
        exact hused hfree
      unfold Assigned
      rw [hbufs b hne]
      exact ⟨rfl, rfl⟩
  · simp only [System.next] at hnext
    split at hnext
    · obtain ⟨⟨s1, b⟩, hget, rfl⟩ := Option.map_eq_some_iff.mp hnext
      rcases hordered.bget_cases hget with ⟨hhit, _⟩ | ⟨_, hfree, holdest, rfl⟩
      · exact absurd hhit (hmiss b)
      · refine ⟨b, update_self .., ?_, hfree, holdest⟩
        show (update s.bufs b _ b).dev = dev ∧ (update s.bufs b _ b).blockno = blockno
        rw [update_self]
        exact ⟨rfl, rfl⟩
    · cases hnext
  · obtain ⟨r, hr⟩ := Option.isSome_iff_exists.mp ((hordered.bget_isSome_iff dev blockno).2 (.inr ⟨b, hfree⟩))
    refine ⟨r.1.goto p (.lock r.2), ?_⟩
    simp only [System.next, hidle, hr, Option.map_some]

def boot (k n : ℕ) : System k n where
  links := binit n ⟨id, id⟩
  bufs _ := { dev := 0, blockno := 0, refcnt := 0, valid := false }
  owner _ := none
  pcs _ := .idle
  releases := 0
  returned _ := 0

theorem init_boot (k n : ℕ) : (boot k n).Init := ⟨⟨_, rfl⟩, fun _ => rfl, fun _ => rfl, fun _ => rfl, rfl, fun _ => rfl⟩

/-- Two blocks are read in two buffers and released, the second of them first; a third block is read and takes the place of the second. -/
theorem recycles_oldest_second : ∃ s : System 1 2, Reachable Init (StepOf next) s ∧ s.Assigned 0 rootdev 7 ∧ s.Assigned 1 rootdev 9 ∧
    (∃ bs : List (Fin 2), bs.Nodup ∧ (∀ b, b ∈ bs) ∧ List.IsChain (fun a b => s.links.next a = b) (none :: (bs.map some ++ [none])) ∧
      List.IsChain (fun a b => s.links.prev a = b) (none :: (bs.reverse.map some ++ [none]))) ∧
    (∀ b b' blockno, s.Assigned b rootdev blockno → s.Assigned b' rootdev blockno → b = b') ∧
    (∀ e s' b, s.next e = some s' → (s.bufs b).refcnt ≠ 0 → s'.Assigned b (s.bufs b).dev (s.bufs b).blockno) ∧
    (∀ p dev blockno s', s.next (.bread p dev blockno) = some s' → (∀ b, ¬ s.Assigned b dev blockno) →
      ∃ b, s'.pcs p = .lock b ∧ s'.Assigned b dev blockno ∧ (s.bufs b).refcnt = 0 ∧ ∀ b', (s.bufs b').refcnt = 0 → s.returned b ≤ s.returned b') ∧
    ∀ p dev blockno b, s.pcs p = .idle → (s.bufs b).refcnt = 0 → ∃ s', s.next (.bread p dev blockno) = some s' := by
  obtain ⟨s, hreach, hfirst, hsecond⟩ : ∃ s : System 1 2, Reachable Init (StepOf next) s ∧
      s.Assigned 0 rootdev 7 ∧ s.Assigned 1 rootdev 9 :=
    exists_reachable_of_schedule (init_boot 1 2) [.bread 0 rootdev 7, .run 0, .run 0,
      .bread 0 rootdev 8, .run 0, .run 0, .brelse 0 1, .run 0, .brelse 0 0, .run 0,
      .bread 0 rootdev 9] (by decide +kernel)
  exact ⟨s, hreach, hfirst, hsecond, recycles_oldest hreach⟩

end System

end AdvancedXv6.BufferCache
