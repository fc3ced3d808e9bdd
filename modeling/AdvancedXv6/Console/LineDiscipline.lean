import Mathlib.Data.Int.Notation
import Mathlib.Data.List.Basic
import Mathlib.Logic.Function.Basic

/-!
# The console's line discipline

`consoleintr` edits a line at the end of a ring and `consoleread` takes committed bytes from its beginning, with three free-running indices of 32 bits. Both hold `cons.lock`, which `consoleread` gives up only when it sleeps, so that the pieces of code between are single steps here; any number of processes may be in `consoleread`.

The console is compared with a queue of committed bytes and a pending line. The echo to the terminal is left out.
-/

namespace AdvancedXv6.Console

open Function

/-! ### `console.c` -/

def inputBufSize : ℕ := 128

def ctrl (x : Char) : UInt8 := UInt8.ofNat (x.toNat - '@'.toNat)

def newline : UInt8 := 10

def carriageReturn : UInt8 := 13

def delete : UInt8 := 0x7f

structure Cons where
  buf : ℕ → UInt8
  r : UInt32
  w : UInt32
  e : UInt32

/-- The loop for control-U. It runs at most once for each byte behind the write index. -/
def killLoop : ℕ → Cons → Cons
  | 0, s => s
  | fuel + 1, s => if s.e ≠ s.w ∧ s.buf ((s.e - 1).toNat % inputBufSize) ≠ newline then killLoop fuel { s with e := s.e - 1 } else s

def consoleintr (c : UInt8) (s : Cons) : Cons :=
  if c = ctrl 'P' then s
  else if c = ctrl 'U' then killLoop (s.e - s.w).toNat s
  else if c = ctrl 'H' ∨ c = delete then if s.e ≠ s.w then { s with e := s.e - 1 } else s
  else if c ≠ 0 ∧ (s.e - s.r).toNat < inputBufSize then
    let c := if c = carriageReturn then newline else c
    let s := { s with buf := update s.buf (s.e.toNat % inputBufSize) c, e := s.e + 1 }
    if c = newline ∨ c = ctrl 'D' ∨ (s.e - s.r).toNat = inputBufSize then { s with w := s.e } else s
  else s

/-- How a part of `consoleread` ends: asleep with `n` bytes to go, or with a return value. -/
inductive Outcome where
  | sleeps (n : ℕ)
  | returns (value : ℤ)
deriving DecidableEq

/-- The loop of `consoleread` with `n` bytes to go, until it sleeps or returns, and the bytes it copies. The process may have been killed, and the copy may fail. -/
def readLoop (killed : Bool) (copies : ℕ → Bool) (target : ℕ) : ℕ → Cons → Cons × List UInt8 × Outcome
  | 0, s => (s, [], .returns target)
  | n + 1, s =>
    if s.r = s.w then (s, [], if killed then .returns (-1) else .sleeps (n + 1))
    else
      let c := s.buf (s.r.toNat % inputBufSize)
      let s := { s with r := s.r + 1 }
      if c = ctrl 'D' then (if n + 1 < target then { s with r := s.r - 1 } else s, [], .returns (target - (n + 1)))
      else if copies (n + 1) = false then (s, [], .returns (target - (n + 1)))
      else if c = newline then (s, [c], .returns (target - n))
      else
        let rest := readLoop killed copies target n s
        (rest.1, c :: rest.2.1, rest.2.2)

/-! ### Readers -/

structure Device (δ : Type) where
  intr : UInt8 → δ → δ
  loop : Bool → (ℕ → Bool) → ℕ → ℕ → δ → δ × List UInt8 × Outcome

/-- A console, and the processes that sleep in `consoleread`, with the number of bytes they want and the number to go. -/
structure Machine (δ : Type) where
  dev : δ
  readers : ℕ → Option (ℕ × ℕ)

/-- A character arrives, a process calls `consoleread`, or one that sleeps there is woken. -/
inductive Event where
  | intr (c : UInt8)
  | read (p n : ℕ) (killed : Bool) (copies : ℕ → Bool)
  | wake (p : ℕ) (killed : Bool) (copies : ℕ → Bool)

def Event.Copied : Event → Prop
  | .intr _ => True
  | .read _ _ _ copies | .wake _ _ copies => ∀ n, copies n = true

/-- The bytes copied to a reader, and what it returns, if it returns. -/
abbrev Output := List UInt8 × Option ℤ

section
variable {δ : Type}

def Machine.stop (s : Machine δ) (p target : ℕ) : δ × List UInt8 × Outcome → Machine δ × Output
  | (dev, bytes, .sleeps n) => (⟨dev, update s.readers p (some (target, n))⟩, bytes, none)
  | (dev, bytes, .returns value) => (⟨dev, update s.readers p none⟩, bytes, some value)

def Machine.next (D : Device δ) (s : Machine δ) : Event → Option (Machine δ × Output)
  | .intr c => some (⟨D.intr c s.dev, s.readers⟩, [], none)
  | .read p n killed copies =>
    if s.readers p = none ∧ 0 < n then some (s.stop p n (D.loop killed copies n n s.dev)) else none
  | .wake p killed copies =>
    match s.readers p with
    | none => none
    | some (target, n) => some (s.stop p target (D.loop killed copies target n s.dev))

def Machine.run (D : Device δ) (s : Machine δ) : List Event → Option (Machine δ × List Output)
  | [] => some (s, [])
  | ev :: rest =>
    match s.next D ev with
    | none => none
    | some (s', out) => (s'.run D rest).map fun x => (x.1, out :: x.2)

end

def cons : Device Cons := ⟨consoleintr, readLoop⟩

def cons.init : Machine Cons := ⟨⟨fun _ => 0, 0, 0, 0⟩, fun _ => none⟩

/-! ### Lines -/

structure Line where
  committed : List UInt8
  pending : List UInt8
deriving DecidableEq

namespace Line

def size (a : Line) : ℕ := a.committed.length + a.pending.length

def store (c : UInt8) (a : Line) : Line :=
  if c = newline ∨ c = ctrl 'D' ∨ a.size + 1 = inputBufSize then ⟨a.committed ++ (a.pending ++ [c]), []⟩ else ⟨a.committed, a.pending ++ [c]⟩

def intr (c : UInt8) (a : Line) : Line :=
  if c = ctrl 'P' ∨ c = 0 then a
  else if c = ctrl 'U' then { a with pending := [] }
  else if c = ctrl 'H' ∨ c = delete then { a with pending := a.pending.dropLast }
  else if a.size < inputBufSize then a.store (if c = carriageReturn then newline else c)
  else a

/-- A reader takes committed bytes. It stops at the end of a line and at a control-D, which it takes only if it has taken nothing before. -/
def loop (killed : Bool) (target : ℕ) : ℕ → Line → Line × List UInt8 × Outcome
  | 0, a => (a, [], .returns target)
  | n + 1, a =>
    match a.committed with
    | [] => (a, [], if killed then .returns (-1) else .sleeps (n + 1))
    | c :: committed =>
      if c = ctrl 'D' then (if n + 1 < target then a else { a with committed }, [], .returns (target - (n + 1)))
      else if c = newline then ({ a with committed }, [c], .returns (target - n))
      else
        let rest := loop killed target n { a with committed }
        (rest.1, c :: rest.2.1, rest.2.2)

end Line

def line : Device Line := ⟨Line.intr, fun killed _ => Line.loop killed⟩

def line.init : Machine Line := ⟨⟨[], []⟩, fun _ => none⟩

/-! ### The ring holds the line -/

/-- With `start` the true number of bytes that have been read. -/
structure Holds (start : ℕ) (s : Cons) (a : Line) : Prop where
  r : s.r = UInt32.ofNat start
  w : s.w = UInt32.ofNat (start + a.committed.length)
  e : s.e = UInt32.ofNat (start + a.size)
  size_le : a.size ≤ inputBufSize
  byte : ∀ i, i < a.size → (a.committed ++ a.pending)[i]? = some (s.buf ((start + i) % inputBufSize))
  pending : newline ∉ a.pending

variable {start : ℕ} {s : Cons} {a : Line} {c : UInt8}

theorem ofNat_eq_iff {x y : ℕ} (hle : x ≤ y) (hy : y ≤ x + 128) : UInt32.ofNat y = UInt32.ofNat x ↔ y = x := by
  rw [← UInt32.toNat_inj, UInt32.toNat_ofNat', UInt32.toNat_ofNat']
  omega

theorem toNat_sub_ofNat {x y : ℕ} (hle : x ≤ y) (hy : y ≤ x + 128) : (UInt32.ofNat y - UInt32.ofNat x).toNat = y - x := by
  rw [UInt32.toNat_sub, UInt32.toNat_ofNat', UInt32.toNat_ofNat']
  omega

theorem ofNat_mod (x : ℕ) : (UInt32.ofNat x).toNat % inputBufSize = x % inputBufSize := by
  rw [UInt32.toNat_ofNat', inputBufSize]
  omega

theorem ofNat_sub_one {x : ℕ} (hx : 0 < x) : UInt32.ofNat x - 1 = UInt32.ofNat (x - 1) := by
  rw [← UInt32.toNat_inj, UInt32.toNat_sub, UInt32.toNat_ofNat', UInt32.toNat_ofNat']
  have hone : (1 : UInt32).toNat = 1 := rfl
  omega

theorem ofNat_add_one (x : ℕ) : UInt32.ofNat x + 1 = UInt32.ofNat (x + 1) := by
  rw [← UInt32.toNat_inj, UInt32.toNat_add, UInt32.toNat_ofNat', UInt32.toNat_ofNat']
  have hone : (1 : UInt32).toNat = 1 := rfl
  omega

namespace Holds

variable (h : Holds start s a)
include h

theorem empty_iff : s.r = s.w ↔ a.committed = [] := by
  have hle := h.size_le
  unfold Line.size inputBufSize at hle
  rw [h.r, h.w, eq_comm, ofNat_eq_iff (by omega) (by omega), ← List.length_eq_zero_iff]
  omega

theorem pending_iff : s.e ≠ s.w ↔ a.pending ≠ [] := by
  have hle := h.size_le
  unfold Line.size inputBufSize at hle
  rw [h.e, h.w, Line.size, ne_eq, ofNat_eq_iff (by omega) (by omega), ne_eq, ← List.length_eq_zero_iff]
  omega

theorem size_eq : (s.e - s.r).toNat = a.size := by
  have hle := h.size_le
  unfold inputBufSize at hle
  rw [h.e, h.r, toNat_sub_ofNat (by omega) (by omega)]
  omega

theorem pending_length : (s.e - s.w).toNat = a.pending.length := by
  have hle := h.size_le
  unfold Line.size inputBufSize at hle
  rw [h.e, h.w, Line.size, toNat_sub_ofNat (by omega) (by omega)]
  omega

theorem indices : (s.w - s.r).toNat ≤ (s.e - s.r).toNat ∧ (s.e - s.r).toNat ≤ inputBufSize := by
  have hle := h.size_le
  rw [h.size_eq]
  refine ⟨?_, hle⟩
  unfold Line.size inputBufSize at hle
  rw [h.w, h.r, toNat_sub_ofNat (by omega) (by omega), Line.size]
  omega

theorem erase (hne : a.pending ≠ []) : Holds start { s with e := s.e - 1 } ⟨a.committed, a.pending.dropLast⟩ := by
  have hpos := List.length_pos_of_ne_nil hne
  have hold : a.size = a.committed.length + a.pending.length := rfl
  have hsize : (Line.mk a.committed a.pending.dropLast).size = a.size - 1 := by
    show a.committed.length + a.pending.dropLast.length = a.size - 1
    rw [List.length_dropLast]
    omega
  refine ⟨h.r, h.w, ?_, ?_, fun i hi => ?_, fun hmem => h.pending (List.dropLast_subset _ hmem)⟩
  · show s.e - 1 = _
    rw [hsize, h.e, ofNat_sub_one (by omega), show start + a.size - 1 = start + (a.size - 1) by omega]
  · have hle := h.size_le
    omega
  · rw [hsize] at hi
    rw [← h.byte i (by omega)]
    show (a.committed ++ a.pending.dropLast)[i]? = _
    rw [← List.dropLast_append_of_ne_nil hne, List.getElem?_dropLast, if_pos (by rw [List.length_append]; omega)]

theorem last_ne (hne : a.pending ≠ []) : s.buf ((s.e - 1).toNat % inputBufSize) ≠ newline := by
  have hpos := List.length_pos_of_ne_nil hne
  have hold : a.size = a.committed.length + a.pending.length := rfl
  intro heq
  have hbyte := h.byte (a.size - 1) (by omega)
  rw [h.e, ofNat_sub_one (by omega), ofNat_mod, show start + a.size - 1 = start + (a.size - 1) by omega] at heq
  rw [heq, List.getElem?_append_right (by omega)] at hbyte
  exact h.pending (List.mem_of_getElem? hbyte)

/-- Control-U stops at the committed bytes, since a pending line has no newline. -/
theorem killLoop {fuel : ℕ} (hfuel : a.pending.length = fuel) : Holds start (Console.killLoop fuel s) ⟨a.committed, []⟩ := by
  induction fuel generalizing s a with
  | zero =>
    rw [← List.length_eq_zero_iff.mp hfuel]
    exact h
  | succ fuel ih =>
    have hne : a.pending ≠ [] := List.ne_nil_of_length_eq_add_one hfuel
    rw [Console.killLoop, if_pos ⟨h.pending_iff.mpr hne, h.last_ne hne⟩]
    refine ih (a := ⟨a.committed, a.pending.dropLast⟩) (h.erase hne) ?_
    show a.pending.dropLast.length = fuel
    rw [List.length_dropLast, hfuel, Nat.add_sub_cancel]

theorem append {a' : Line} {w : UInt32} (hlt : a.size < inputBufSize) (hbytes : a'.committed ++ a'.pending = (a.committed ++ a.pending) ++ [c])
    (hw : w = UInt32.ofNat (start + a'.committed.length)) (hpending : newline ∉ a'.pending) :
    Holds start ⟨update s.buf (s.e.toNat % inputBufSize) c, s.r, w, s.e + 1⟩ a' := by
  have hold : (a.committed ++ a.pending).length = a.size := List.length_append
  have hsize : a'.size = a.size + 1 := by
    rw [Line.size, ← List.length_append, hbytes, List.length_append, hold, List.length_singleton]
  have hbuf : s.e.toNat % inputBufSize = (start + a.size) % inputBufSize := by rw [h.e, ofNat_mod]
  refine ⟨h.r, hw, ?_, by omega, fun i hi => ?_, hpending⟩
  · show s.e + 1 = _
    rw [h.e, ofNat_add_one, hsize, Nat.add_assoc]
  · show _ = some (update s.buf (s.e.toNat % inputBufSize) c ((start + i) % inputBufSize))
    rw [hsize] at hi
    rw [hbytes, hbuf]
    by_cases heq : i = a.size
    · rw [heq, update_self, ← hold, List.getElem?_concat_length]
    · rw [update_of_ne (by unfold inputBufSize at hlt ⊢; omega), List.getElem?_append_left (by omega), h.byte i (by omega)]

theorem store (hlt : a.size < inputBufSize) :
    Holds start (if c = newline ∨ c = ctrl 'D' ∨ (s.e + 1 - s.r).toNat = inputBufSize then
      ⟨update s.buf (s.e.toNat % inputBufSize) c, s.r, s.e + 1, s.e + 1⟩
      else ⟨update s.buf (s.e.toNat % inputBufSize) c, s.r, s.w, s.e + 1⟩) (a.store c) := by
  have hfull : (s.e + 1 - s.r).toNat = a.size + 1 := by
    have hle := h.size_le
    unfold inputBufSize at hlt
    rw [h.e, h.r, ofNat_add_one, toNat_sub_ofNat (by omega) (by omega)]
    omega
  rw [hfull, Line.store]
  split
  · refine h.append hlt (by rw [List.append_nil, List.append_assoc]) ?_ List.not_mem_nil
    rw [h.e, ofNat_add_one, List.length_append, List.length_append, List.length_singleton, Line.size, Nat.add_assoc, Nat.add_assoc]
  · rename_i hnot
    refine h.append hlt (List.append_assoc ..).symm h.w fun hmem => ?_
    rcases List.mem_append.mp hmem with hmem | hmem
    · exact h.pending hmem
    · exact hnot (.inl (List.mem_singleton.mp hmem).symm)

theorem intr (c : UInt8) : Holds start (consoleintr c s) (a.intr c) := by
  unfold consoleintr Line.intr
  by_cases hP : c = ctrl 'P'
  · rw [if_pos hP, if_pos (.inl hP)]
    exact h
  by_cases hzero : c = 0
  · subst hzero
    rw [if_neg hP, if_neg (show ¬ (0 : UInt8) = ctrl 'U' by decide),
      if_neg (show ¬ ((0 : UInt8) = ctrl 'H' ∨ 0 = delete) by decide), if_neg fun hc => hc.1 rfl,
      if_pos (.inr rfl)]
    exact h
  rw [if_neg hP, if_neg (not_or_intro hP hzero)]
  split
  · exact h.killLoop h.pending_length.symm
  split
  · by_cases hne : a.pending = []
    · rw [if_neg fun he => h.pending_iff.mp he hne, hne]
      have hsame := h
      rw [show a = ⟨a.committed, []⟩ by rw [← hne]] at hsame
      exact hsame
    · rw [if_pos (h.pending_iff.mpr hne)]
      exact h.erase hne
  · rw [h.size_eq]
    by_cases hlt : a.size < inputBufSize
    · rw [if_pos ⟨hzero, hlt⟩, if_pos hlt]
      exact h.store hlt
    · rw [if_neg fun hc => hlt hc.2, if_neg hlt]
      exact h

theorem take {rest : List UInt8} (hcons : a.committed = c :: rest) :
    s.buf (s.r.toNat % inputBufSize) = c ∧ Holds (start + 1) { s with r := s.r + 1 } ⟨rest, a.pending⟩ := by
  have hlength : a.committed.length = rest.length + 1 := by rw [hcons, List.length_cons]
  have hold : a.size = a.committed.length + a.pending.length := rfl
  have hsize : (Line.mk rest a.pending).size = a.size - 1 := by
    show rest.length + a.pending.length = a.size - 1
    omega
  have hle := h.size_le
  constructor
  · have hbyte := h.byte 0 (by omega)
    rw [hcons, Nat.add_zero] at hbyte
    rw [h.r, ofNat_mod]
    exact (Option.some.inj hbyte).symm
  · refine ⟨?_, ?_, ?_, by omega, fun i hi => ?_, h.pending⟩
    · show s.r + 1 = _
      rw [h.r, ofNat_add_one]
    · show s.w = UInt32.ofNat (start + 1 + rest.length)
      rw [h.w, hlength, Nat.add_assoc, Nat.add_comm 1]
    · show s.e = _
      rw [h.e, hsize, show start + 1 + (a.size - 1) = start + a.size by omega]
    · have hbyte := h.byte (i + 1) (by omega)
      rw [hcons] at hbyte
      rw [Nat.add_assoc, Nat.add_comm 1]
      exact hbyte

theorem loop {copies : ℕ → Bool} (hcopies : ∀ n, copies n = true) (killed : Bool) (target n : ℕ) :
    (∃ start', Holds start' (readLoop killed copies target n s).1 (Line.loop killed target n a).1) ∧
      (readLoop killed copies target n s).2 = (Line.loop killed target n a).2 := by
  induction n generalizing start s a with
  | zero => exact ⟨⟨start, h⟩, rfl⟩
  | succ n ih =>
    unfold readLoop Line.loop
    cases hcommitted : a.committed with
    | nil =>
      rw [if_pos (h.empty_iff.mpr hcommitted)]
      exact ⟨⟨start, h⟩, rfl⟩
    | cons c rest =>
      obtain ⟨hbyte, htaken⟩ := h.take hcommitted
      rw [if_neg fun hempty => by rw [h.empty_iff.mp hempty] at hcommitted; cases hcommitted]
      simp only [hbyte, hcopies, Bool.true_eq_false, if_false]
      by_cases hD : c = ctrl 'D'
      · rw [if_pos hD, if_pos hD]
        refine ⟨?_, rfl⟩
        split
        · refine ⟨start, ?_⟩
          rw [show ({ s with r := s.r + 1 - 1 } : Cons) = s by rw [UInt32.add_sub_cancel]]
          exact h
        · exact ⟨start + 1, htaken⟩
      · rw [if_neg hD, if_neg hD]
        split
        · exact ⟨⟨start + 1, htaken⟩, rfl⟩
        · obtain ⟨hholds, heq⟩ := ih htaken
          exact ⟨hholds, by rw [heq]⟩

end Holds

/-! ### Runs -/

/-- The machines have the same readers, and the ring holds the line. -/
def Refines (s : Machine Cons) (a : Machine Line) : Prop := (∃ start, Holds start s.dev a.dev) ∧ s.readers = a.readers

theorem Refines.stop {s s' : Machine Cons} {a : Machine Line} {killed : Bool} {copies : ℕ → Bool}
    {p target n : ℕ} {out : Output} (h : Refines s a) (hcopies : ∀ n, copies n = true)
    (hstop : s.stop p target (readLoop killed copies target n s.dev) = (s', out)) :
      ∃ a', a.stop p target (Line.loop killed target n a.dev) = (a', out) ∧ Refines s' a' := by
  obtain ⟨⟨start, hholds⟩, hreaders⟩ := h
  obtain ⟨hdev, hout⟩ := hholds.loop hcopies killed target n
  generalize readLoop killed copies target n s.dev = x at hstop hdev hout
  generalize Line.loop killed target n a.dev = y at hdev hout ⊢
  obtain ⟨dev, bytes, outcome⟩ := x
  obtain ⟨dev', bytes', outcome'⟩ := y
  cases hout
  cases outcome with
  | sleeps m =>
    cases hstop
    exact ⟨_, rfl, hdev, congrArg (fun readers => update readers p (some (target, m))) hreaders⟩
  | returns value =>
    cases hstop
    exact ⟨_, rfl, hdev, congrArg (fun readers => update readers p none) hreaders⟩

theorem Refines.next {s s' : Machine Cons} {a : Machine Line} {ev : Event} {out : Output}
    (h : Refines s a) (hcopied : ev.Copied) (hnext : s.next cons ev = some (s', out)) :
    ∃ a', a.next line ev = some (a', out) ∧ Refines s' a' := by
  have hreaders := h.2
  cases ev with
  | intr c =>
    obtain ⟨start, hholds⟩ := h.1
    cases hnext
    exact ⟨_, rfl, ⟨start, hholds.intr c⟩, hreaders⟩
  | read p n killed copies =>
    simp only [Machine.next, Option.ite_none_right_eq_some, Option.some.injEq] at hnext
    obtain ⟨a', hstop, hrefines⟩ := h.stop hcopied hnext.2
    rw [hreaders] at hnext
    refine ⟨a', ?_, hrefines⟩
    rw [Machine.next, if_pos hnext.1]
    exact congrArg some hstop
  | wake p killed copies =>
    simp only [Machine.next] at hnext ⊢
    rw [hreaders] at hnext
    cases hreader : a.readers p with
    | none =>
      rw [hreader] at hnext
      cases hnext
    | some reader =>
      rw [hreader] at hnext
      obtain ⟨a', hstop, hrefines⟩ := h.stop hcopied (Option.some.inj hnext)
      exact ⟨a', congrArg some hstop, hrefines⟩

theorem Refines.run {s s' : Machine Cons} {a : Machine Line} {events : List Event}
    {outs : List Output} (h : Refines s a) (hcopied : ∀ ev ∈ events, ev.Copied)
    (hrun : s.run cons events = some (s', outs)) : ∃ a', a.run line events = some (a', outs) ∧ Refines s' a' := by
  induction events generalizing s a outs with
  | nil =>
    cases hrun
    exact ⟨a, rfl, h⟩
  | cons ev rest ih =>
    rw [Machine.run] at hrun
    cases hnext : s.next Console.cons ev with
    | none =>
      rw [hnext] at hrun
      cases hrun
    | some x =>
      rw [hnext] at hrun
      obtain ⟨y, hy, heq⟩ := Option.map_eq_some_iff.mp hrun
      cases heq
      obtain ⟨a1, hnext', h1⟩ := h.next (hcopied ev List.mem_cons_self) hnext
      obtain ⟨a', hrun', h'⟩ := ih h1 (fun ev hev => hcopied ev (List.mem_cons_of_mem _ hev)) hy
      refine ⟨a', ?_, h'⟩
      rw [Machine.run, hnext']
      show (a1.run line rest).map _ = _
      rw [hrun']
      rfl

/-- Whatever is typed and read, the console does what the queue with its pending line does, and its indices stay in order. -/
theorem console_refines_line {events : List Event} {s : Machine Cons} {outs : List Output}
    (hcopied : ∀ ev ∈ events, ev.Copied) (hrun : cons.init.run cons events = some (s, outs)) :
    (∃ a, line.init.run line events = some (a, outs) ∧ Refines s a) ∧
      (s.dev.w - s.dev.r).toNat ≤ (s.dev.e - s.dev.r).toNat ∧ (s.dev.e - s.dev.r).toNat ≤ inputBufSize := by
  have hinit : Refines cons.init line.init := ⟨⟨0, rfl, rfl, rfl, by decide, fun i hi => absurd hi (Nat.not_lt_zero i), List.not_mem_nil⟩, rfl⟩
  obtain ⟨a, hrun', hrefines⟩ := hinit.run hcopied hrun
  obtain ⟨start, hholds⟩ := hrefines.1
  exact ⟨⟨a, hrun', hrefines⟩, hholds.indices⟩

/-- A reader asks for two bytes and sleeps; `a`, a deleted `b` and a carriage return are typed; it gets the line. -/
def typed : List Event := [.read 0 2 false fun _ => true, .intr 97, .intr 98, .intr delete, .intr carriageReturn, .wake 0 false fun _ => true]

theorem console_refines_line_typed : ∃ s outs, cons.init.run cons typed = some (s, outs) ∧ outs.getLast? = some ([97, newline], some 2) ∧
    ∃ a, line.init.run line typed = some (a, outs) ∧ Refines s a := by
  obtain ⟨s, outs, hrun, hlast⟩ : ∃ s outs, cons.init.run cons typed = some (s, outs) ∧ outs.getLast? = some ([97, newline], some 2) := ⟨_, _, rfl, rfl⟩
  exact ⟨s, outs, hrun, hlast, (console_refines_line (by simp [typed, Event.Copied]) hrun).1⟩

end AdvancedXv6.Console
