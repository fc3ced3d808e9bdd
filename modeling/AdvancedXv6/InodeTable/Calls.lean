import AdvancedXv6.InodeTable.Functions

/-!
# Locks, references and calls

The functions that take and drop locks and references, and from them every call: a process starts a call with nothing but what its variables own, and ends so.
-/

namespace AdvancedXv6.InodeTable

open Function Threads
open FileSystem (FileType Source)

variable {t n r : ℕ} {p : Fin t} {held : Option (Fin n)} {uses : Option (Fin r × Fin n)} {e : Fin n} {valid inStep : Bool} {copy : Dinode}
  {v : Fin r} {l : Local n r}

/-! ### The lock of an entry -/

variable {Q : Unit → Local n r → Prop} {ρ : Fin t → Local n r} {s : Kernel t n r}

theorem acquiresleep_safe (hhas : (⟨held, uses, none⟩ : Local n r).Has e) (hQ : ∀ copy valid, Q () (.on held uses e none valid copy valid)) :
    Safe Inv Stays Ok p Q (acquiresleep (t := t) p e) ⟨held, uses, none⟩ := by
  apply Safe.atom
  intro ρ s hinv hl
  cases hlock : (s.itable e).lock with
  | some q => trivial
  | none =>
    have hacquire := hinv.acquire (p := p) (e := e) (by rw [hl]; exact hhas) (by rw [hl]) hlock
    rw [hl] at hacquire
    exact ⟨.setEntry fun _ => ⟨rfl, rfl⟩, _, hacquire, hQ _ _⟩

theorem releasesleep_safe (hok : valid = true → inStep = true) (hQ : Q () ⟨held, uses, none⟩) :
    Safe Inv Stays Ok p Q (releasesleep (t := t) e) (.on held uses e none valid copy inStep) := by
  apply Safe.write
  intro ρ s hinv hl
  have hrelease := hinv.release (p := p) (b := ⟨e, none, copy, valid, inStep⟩) (by rw [hl]; rfl) rfl hok
  rw [hl] at hrelease
  exact ⟨.setEntry fun _ => ⟨rfl, rfl⟩, _, hrelease, hQ⟩

/-- The copy that `ilock` reads is in step with the disk, or the inode is free and `ilock` panics. -/
theorem load_safe (hQ : ∀ copy, Q () (.on held uses e none true copy true)) :
    Safe Inv Stays Ok p Q (ilock.load (t := t) e) (.on held uses e none false copy inStep) := by
  apply Safe.bind
  apply Safe.write
  intro ρ s hinv hl
  have hb : (ρ p).busy = some ⟨e, none, copy, false, inStep⟩ := by
    rw [hl]
    rfl
  have hset := hinv.setFields hb (s.dinode e) (s.itable e).valid ((s.dinode e).type ≠ .free)
    (fun htype => ⟨rfl, of_decide_eq_true htype⟩) (fun hvia => absurd rfl hvia)
  refine ⟨.setEntry fun _ => ⟨rfl, rfl⟩, _, hset, ?_⟩
  rw [(hinv.content.busy p _ hb).2, hl]
  apply Safe.bind
  refine setValid_safe rfl ?_
  apply Safe.bind
  refine inode_safe ?_
  split
  · apply Safe.atom
    intro _ _ _ _
    exact ⟨by simp, by simp, by simp, by simp⟩
  · rename_i htype
    rw [decide_eq_true htype]
    exact hQ _

theorem ilock_safe (hhas : (⟨held, uses, none⟩ : Local n r).Has e) (hQ : ∀ copy, Q () (.on held uses e none true copy true)) :
    Safe Inv Stays Ok p Q (ilock (t := t) p e) ⟨held, uses, none⟩ := by
  apply Safe.bind
  apply Safe.atom
  intro ρ s hinv hl
  have hpos := hinv.ref_pos (p := p) (e := e) (by rw [hl]; exact hhas)
  rw [if_neg (by omega)]
  refine ⟨.of_itable rfl, _, hinv.self, ?_⟩
  rw [hl]
  apply Safe.bind
  apply acquiresleep_safe hhas
  intro copy valid
  apply Safe.bind
  apply Safe.read
  intro ρ' s' hinv' hl'
  refine ⟨.of_itable rfl, _, hinv'.self, ?_⟩
  have hvalid : (s'.itable e).valid = valid := (hinv'.content.busy p ⟨e, none, copy, valid, valid⟩ (by rw [hl']; rfl)).2
  rw [hvalid, hl']
  cases valid with
  | true => exact hQ copy
  | false => exact load_safe hQ

theorem iunlock_safe (hQ : Q () ⟨held, uses, none⟩) :
    Safe Inv Stays Ok p Q (iunlock (t := t) p e) (.on held uses e none valid copy true) := by
  apply Safe.bind
  apply Safe.atom
  intro ρ s hinv hl
  obtain ⟨hlock, hhas⟩ := hinv.locks.busy p ⟨e, none, copy, valid, true⟩ (by rw [hl]; rfl)
  have hpos : 0 < (s.itable e).ref := hinv.ref_pos hhas
  rw [if_neg (by push Not; exact ⟨hlock, by omega⟩)]
  refine ⟨.of_itable rfl, _, hinv.self, ?_⟩
  rw [hl]
  exact releasesleep_safe (fun _ => rfl) hQ

/-! ### References -/

theorem iget_safe {Q : Fin n → Local n r → Prop} (dev inum : ℕ) (hQ : ∀ e, Q e ⟨some e, uses, none⟩) :
    Safe Inv Stays Ok p Q (iget (t := t) dev inum) ⟨none, uses, none⟩ := by
  apply Safe.atom
  intro ρ s hinv hl
  cases hfind : (List.finRange n).find? fun e => 0 < (s.itable e).ref ∧ (s.itable e).dev = dev ∧ (s.itable e).inum = inum with
  | some e =>
    have hfound : 0 < (s.itable e).ref ∧ (s.itable e).dev = dev ∧ (s.itable e).inum = inum := by simpa using List.find?_some hfind
    have hadd := hinv.addRef p (by rw [hl]) hfound.1
    rw [hl] at hadd
    exact ⟨.setEntry fun _ => ⟨rfl, rfl⟩, _, hadd, hQ e⟩
  | none =>
    cases hempty : (List.finRange n).find? fun e => (s.itable e).ref = 0 with
    | none => exact ⟨nofun, nofun, nofun, fun _ => rfl⟩
    | some e =>
      have href : (s.itable e).ref = 0 := by simpa using List.find?_some hempty
      have hnone : ∀ e', 0 < (s.itable e').ref → (s.itable e').dev = dev → (s.itable e').inum ≠ inum := by
        intro e' hpos hdev hinum
        have habsent := List.find?_eq_none.mp hfind e' (List.mem_finRange e')
        simp [hpos, hdev, hinum] at habsent
      have hassign := hinv.assign p (by rw [hl]) href hnone
      rw [hl] at hassign
      exact ⟨.setEntry fun hpos => absurd hpos (by omega), _, hassign, hQ e⟩

theorem idup_safe (hhas : (⟨none, uses, none⟩ : Local n r).Has e) (hQ : Q () ⟨some e, uses, none⟩) :
    Safe Inv Stays Ok p Q (idup (t := t) e) ⟨none, uses, none⟩ := by
  apply Safe.write
  intro ρ s hinv hl
  have hadd := hinv.addRef p (by rw [hl]) (hinv.ref_pos (p := p) (e := e) (by rw [hl]; exact hhas))
  rw [hl] at hadd
  exact ⟨.setEntry fun _ => ⟨rfl, rfl⟩, _, hadd, hQ⟩

theorem scan_safe {Q : Option (Fin n) → Local n r → Prop} (dev : ℕ) (type : FileType) (inums : List ℕ) (hnone : Q none ⟨none, uses, none⟩)
    (hsome : ∀ e, Q (some e) ⟨some e, uses, none⟩) : Safe Inv Stays Ok p Q (ialloc.scan (t := t) dev type inums) ⟨none, uses, none⟩ := by
  induction inums with
  | nil => exact hnone
  | cons inum rest ih =>
    apply Safe.bind
    apply Safe.atom
    intro ρ s hinv hl
    split
    · rename_i hfree
      refine ⟨.of_itable rfl, _, (hinv.take hfree type).self, ?_⟩
      rw [hl]
      apply Safe.bind
      apply iget_safe
      exact hsome
    · refine ⟨.of_itable rfl, _, hinv.self, ?_⟩
      rw [hl]
      exact ih

/-- `iput` frees the inode under its lock if this was the last reference, and drops the reference. -/
theorem iput_safe (hQ : Q () ⟨none, uses, none⟩) : Safe Inv Stays Ok p Q (iput (t := t) p e) ⟨some e, uses, none⟩ := by
  have hdrop : ∀ ρ s, Inv ρ s → ρ p = ⟨some e, uses, none⟩ → Inv (update ρ p ⟨none, uses, none⟩) (s.setRef e ((s.itable e).ref - 1)) := by
    intro ρ s hinv hl
    have hdrop := hinv.dropRef (p := p) (e := e) (by rw [hl]) (by rw [hl])
    rw [hl] at hdrop
    exact hdrop
  apply Safe.bind
  apply Safe.atom
  intro ρ s hinv hl
  have hmem : (ρ p).held = some e := by rw [hl]
  split
  · rename_i hlast
    have hlock := hinv.unlocked_of_last hmem (by rw [hl]) hlast.1
    rw [hlock]
    have hacquire := hinv.acquire (.inl hmem) (by rw [hl]) hlock
    rw [hl, hlast.2.1] at hacquire
    refine ⟨.setEntry fun _ => ⟨rfl, rfl⟩, _, hacquire, ?_⟩
    apply Safe.bind
    refine itrunc_safe fun copy' _ => ?_
    apply Safe.bind
    refine setInode_safe _ ?_
    apply Safe.bind
    refine iupdate_safe (fun htype => absurd rfl htype) ?_
    apply Safe.bind
    refine setValid_safe rfl ?_
    apply Safe.bind
    refine releasesleep_safe (by simp) ?_
    apply Safe.write
    intro ρ' s' hinv' hl'
    exact ⟨.setEntry fun _ => ⟨rfl, rfl⟩, _, hdrop ρ' s' hinv' hl', hQ⟩
  · exact ⟨.setEntry fun _ => ⟨rfl, rfl⟩, _, hdrop ρ s hinv hl, hQ⟩

/-! ### Variables -/

section

variable (h : Inv ρ s) (hl : ρ p = ⟨held, uses, none⟩) (hv : s.pointers v = some e)
include h hl hv

theorem Inv.enter :
    Inv (update ρ p ⟨held, some (v, e), none⟩) { s with inUse := update s.inUse p (some v) } := by
  have henter := h.setUses (p := p) (by rw [hl]) (some v) (some (v, e)) fun v' e' heq => ?_
  · rw [hl] at henter
    exact henter
  · obtain ⟨rfl, rfl⟩ := Prod.mk.inj (Option.some.inj heq)
    exact ⟨rfl, hv⟩

theorem Inv.enterLocked (hlocked : s.locked v = some p) :
    Inv (update ρ p (.on held (some (v, e)) e (some v) true (s.itable e).copy true)) { s with inUse := update s.inUse p (some v) } := by
  have hbegin := (h.enter hl hv).begin (p := p) (e := e) (v := v) (by rw [update_self]) (by rw [update_self]; exact .inr ⟨v, rfl⟩) hlocked hv
  rw [update_self, update_idem] at hbegin
  exact hbegin

theorem Inv.enterUnlock (hlocked : s.locked v = some p) :
    Inv (update ρ p (.on held (some (v, e)) e none true (s.itable e).copy true))
      { s with locked := update s.locked v none, inUse := update s.inUse p (some v) } := by
  have htake := (h.enterLocked hl hv hlocked).takeLock (p := p) (v := v) (b := ⟨e, some v, (s.itable e).copy, true, true⟩) (by rw [update_self]; rfl) rfl
  rw [update_self, update_idem] at htake
  exact htake

end

theorem Inv.leave (h : Inv ρ s) (hl : ρ p = .on held uses e (some v) valid copy true) :
    Inv (update ρ p ⟨held, none, none⟩) { s with inUse := update s.inUse p none } := by
  have hfinish := h.finish (p := p) (b := ⟨e, some v, copy, valid, true⟩) (by rw [hl]; rfl) rfl rfl
  have huses := hfinish.setUses (p := p) (by rw [update_self]) none none nofun
  rw [update_self, update_idem, hl] at huses
  exact huses

theorem Inv.leaveLocked (h : Inv ρ s) (hl : ρ p = .on held (some (v, e)) e none true copy true) :
    Inv (update ρ p ⟨held, none, none⟩) { s with locked := update s.locked v (some p), inUse := update s.inUse p none } := by
  have hv : s.pointers v = some e := (h.uses p v e (by rw [hl]; rfl)).2
  have hgive := h.giveLock (p := p) (v := v) (b := ⟨e, none, copy, true, true⟩) (by rw [hl]; rfl) rfl hv rfl
  have hon : update ρ p ⟨(ρ p).held, (ρ p).uses, some ⟨e, some v, copy, true, true⟩⟩ p = .on held (some (v, e)) e (some v) true copy true := by
    rw [update_self, hl]
    rfl
  have hleave := hgive.leave hon
  rw [update_idem] at hleave
  exact hleave

theorem enter_safe {Q : Fin n → Local n r → Prop} (hQ : ∀ e, Q e ⟨held, some (v, e), none⟩) :
    Safe Inv Stays Ok p Q (enter (t := t) p v) ⟨held, uses, none⟩ := by
  apply Safe.atom
  intro ρ s hinv hl
  cases hv : s.pointers v with
  | none => trivial
  | some e => exact ⟨.of_itable rfl, _, hinv.enter hl hv, hQ e⟩

/-- The inode that a process has locked is allocated and has no holes. -/
theorem enterLocked_safe {Q : Fin n → Local n r → Prop} (hQ : ∀ e copy, copy.type ≠ .free →
    copy.NoHoles → Q e (.on held (some (v, e)) e (some v) true copy true)) :
    Safe Inv Stays Ok p Q (enterLocked (t := t) p v) ⟨held, uses, none⟩ := by
  apply Safe.atom
  intro ρ s hinv hl
  cases hv : s.pointers v with
  | none => trivial
  | some e =>
    dsimp only
    split
    · rename_i hlocked
      have henter := hinv.enterLocked hl hv hlocked
      obtain ⟨hdinode, htype⟩ := henter.content.inStep p ⟨e, some v, (s.itable e).copy, true, true⟩ (by rw [update_self]; rfl) rfl
      refine ⟨.of_itable rfl, _, henter, hQ e _ htype ?_⟩
      have himage := hinv.content.image (s.itable e).dev (s.itable e).inum
      have hsame : s.dinodes (s.itable e).dev (s.itable e).inum = (s.itable e).copy := hdinode
      rw [hsame] at himage
      exact himage htype
    · trivial

theorem enterUnlock_safe {Q : Fin n → Local n r → Prop} (hQ : ∀ e copy, Q e (.on held (some (v, e)) e none true copy true)) :
    Safe Inv Stays Ok p Q (enterUnlock (t := t) p v) ⟨held, uses, none⟩ := by
  apply Safe.atom
  intro ρ s hinv hl
  cases hv : s.pointers v with
  | none => trivial
  | some e =>
    dsimp only
    split
    · rename_i hlocked
      exact ⟨.of_itable rfl, _, hinv.enterUnlock hl hv hlocked, hQ e _⟩
    · trivial

section

variable (hQ : Q () ⟨held, none, none⟩)
include hQ

theorem leave_safe : Safe Inv Stays Ok p Q (leave (t := t) p) ⟨held, uses, none⟩ := by
  apply Safe.write
  intro ρ s hinv hl
  have hleave := hinv.setUses (p := p) (by rw [hl]) none none nofun
  rw [hl] at hleave
  exact ⟨.of_itable rfl, _, hleave, hQ⟩

theorem leave_on_safe : Safe Inv Stays Ok p Q (leave (t := t) p) (.on held uses e (some v) valid copy true) := by
  apply Safe.write
  intro ρ s hinv hl
  exact ⟨.of_itable rfl, _, hinv.leave hl, hQ⟩

theorem leaveLocked_safe :
    Safe Inv Stays Ok p Q (leaveLocked (t := t) p v) (.on held (some (v, e)) e none true copy true) := by
  apply Safe.write
  intro ρ s hinv hl
  exact ⟨.of_itable rfl, _, hinv.leaveLocked hl, hQ⟩

end

theorem giveUp_safe {Q : Fin n → Local n r → Prop} (hQ : ∀ e, Q e ⟨some e, uses, none⟩) :
    Safe Inv Stays Ok p Q (giveUp (t := t) v) ⟨none, uses, none⟩ := by
  apply Safe.atom
  intro ρ s hinv hl
  cases hv : s.pointers v with
  | none => trivial
  | some e =>
    dsimp only
    split
    · rename_i hfree
      have hmove := hinv.setPointer (p := p) (v := v) (by rw [hl]) hfree.1 (fun q e' hq => hfree.2 q (hinv.uses q v e' hq).1) none (some e) fun e' => ?_
      · rw [hl] at hmove
        exact ⟨.of_itable rfl, _, hmove, hQ e⟩
      · simp [hl, hv]
    · trivial

theorem keep_safe (hQ : Q () ⟨none, uses, none⟩) : Safe Inv Stays Ok p Q (keep (t := t) e) ⟨some e, uses, none⟩ := by
  apply Safe.atom
  intro ρ s hinv hl
  cases hfind : (List.finRange r).find? fun v => s.pointers v = none with
  | none => trivial
  | some v =>
    have hv : s.pointers v = none := by simpa using List.find?_some hfind
    have hlocked : s.locked v = none := by
      cases hq : s.locked v with
      | none => rfl
      | some q =>
        obtain ⟨e', he', _⟩ := hinv.locks.locked v q hq
        rw [hv] at he'
        cases he'
    have hunused : ∀ q e', (ρ q).uses ≠ some (v, e') := by
      intro q e' hq
      have he' := (hinv.uses q v e' hq).2
      rw [hv] at he'
      cases he'
    have hmove := hinv.setPointer (p := p) (v := v) (by rw [hl]) hlocked hunused (some e) none fun e' => ?_
    · rw [hl] at hmove
      exact ⟨.of_itable rfl, _, hmove, hQ⟩
    · simp [hl, hv]

/-! ### Calls -/

/-- Every call that starts with nothing in hand ends with nothing in hand. -/
theorem program_safe (c : Call r) : Safe Inv Stays Ok p (fun _ l => l = {}) (program (n := n) p c) {} := by
  cases c with
  | iget dev inum =>
    apply Safe.bind
    apply iget_safe
    intro e
    exact keep_safe rfl
  | ialloc dev type =>
    apply Safe.bind
    apply scan_safe
    · rfl
    · intro e
      exact keep_safe rfl
  | idup v =>
    apply Safe.bind
    apply enter_safe
    intro e
    apply Safe.bind
    apply idup_safe (.inr ⟨v, rfl⟩)
    apply Safe.bind
    apply leave_safe
    exact keep_safe rfl
  | ilock v =>
    apply Safe.bind
    apply enter_safe
    intro e
    apply Safe.bind
    apply ilock_safe (.inr ⟨v, rfl⟩)
    intro copy
    exact leaveLocked_safe rfl
  | iunlock v =>
    apply Safe.bind
    apply enterUnlock_safe
    intro e copy
    apply Safe.bind
    apply iunlock_safe
    exact leave_safe rfl
  | iput v =>
    apply Safe.bind
    apply giveUp_safe
    intro e
    exact iput_safe rfl
  | iupdate v =>
    apply Safe.bind
    apply enterLocked_safe
    intro e copy htype hholes
    apply Safe.bind
    apply iupdate_safe fun _ => hholes
    rw [decide_eq_true htype]
    exact leave_on_safe rfl
  | itrunc v =>
    apply Safe.bind
    apply enterLocked_safe
    intro e copy htype hholes
    apply Safe.bind
    apply itrunc_safe
    intro copy' htype'
    rw [decide_eq_true (by rw [htype']; exact htype)]
    exact leave_on_safe rfl
  | readi v copyout off len =>
    apply Safe.bind
    apply enterLocked_safe
    intro e copy htype hholes
    apply Safe.bind
    apply readi_safe hholes
    intro result
    exact leave_on_safe rfl
  | writei v src off len =>
    apply Safe.bind
    apply enterLocked_safe
    intro e copy htype hholes
    apply Safe.bind
    apply writei_safe htype hholes
    intro result copy'
    exact leave_on_safe rfl
  | updateLinks v u =>
    apply Safe.bind
    apply enterLocked_safe
    intro e copy htype hholes
    apply Safe.bind
    apply updateLinks_safe htype hholes
    exact leave_on_safe rfl

end AdvancedXv6.InodeTable
