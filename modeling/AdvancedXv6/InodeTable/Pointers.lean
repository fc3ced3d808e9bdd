import AdvancedXv6.InodeTable.Actions

/-!
# Moves of pointers

A call starts by looking up the pointer in a variable and ends by letting go of it. In between the variable keeps its pointer, so the process has the entry although it has no reference of its own. A lock that outlives the call belongs to the variable.
-/

namespace AdvancedXv6.InodeTable

open Function Weights Threads

variable {t n r : ℕ} {ρ : Fin t → Local n r} {s : Kernel t n r} {p : Fin t} {e : Fin n} {b : Busy n r} {v : Fin r}

theorem pointersTo_update (pointers : Fin r → Option (Fin n)) (v : Fin r) (x : Option (Fin n)) (e : Fin n) :
    pointersTo (update pointers v x) e + (if pointers v = some e then 1 else 0) = pointersTo pointers e + if x = some e then 1 else 0 :=
  Weights.total_update (fun _ x => if x = some e then 1 else 0) pointers v x

theorem Inv.setUses (h : Inv ρ s) (hidle : (ρ p).busy = none) (x : Option (Fin r)) (uses : Option (Fin r × Fin n))
    (huses : ∀ v e, uses = some (v, e) → x = some v ∧ s.pointers v = some e) :
    Inv (update ρ p ⟨(ρ p).held, uses, none⟩) { s with inUse := update s.inUse p x } := by
  have hbusy : ∀ q, (update ρ p ⟨(ρ p).held, uses, none⟩ q).busy = (ρ q).busy := Local.map_update Local.busy hidle.symm
  refine ⟨h.counts.congr (fun _ => rfl) (fun _ => rfl) (fun _ => rfl) rfl (Local.map_update Local.held rfl), fun q v' e' hq => ?_,
    h.locks.congr (fun _ => rfl) rfl (fun _ _ _ => rfl) (fun q => by rw [Local.work, hbusy, Local.work]) (fun q b hb hq => ?_),
    h.content.congr (fun _ => rfl) (fun _ => rfl) (fun _ => rfl) (fun _ => id) rfl rfl (fun _ _ _ => rfl) hbusy⟩
  · show update s.inUse p x q = some v' ∧ s.pointers v' = some e'
    by_cases hqp : q = p
    · subst hqp
      rw [update_self] at hq ⊢
      exact huses v' e' hq
    · rw [update_of_ne hqp] at hq ⊢
      exact h.uses q v' e' hq
  · have hqp : q ≠ p := by
      rintro rfl
      rw [hidle] at hb
      cases hb
    rw [update_of_ne hqp]
    exact hq

theorem Inv.setPointer (h : Inv ρ s) (hidle : (ρ p).busy = none) (hlocked : s.locked v = none)
    (hunused : ∀ q e, (ρ q).uses ≠ some (v, e)) (x : Option (Fin n))
    (held : Option (Fin n))
    (hcount : ∀ e, (if held = some e then 1 else 0) + (if x = some e then 1 else 0) =
      (if (ρ p).held = some e then 1 else 0) + if s.pointers v = some e then 1 else 0) :
    Inv (update ρ p ⟨held, (ρ p).uses, none⟩) { s with pointers := update s.pointers v x } := by
  have hbusy : ∀ q, (update ρ p ⟨held, (ρ p).uses, none⟩ q).busy = (ρ q).busy := Local.map_update Local.busy hidle.symm
  have hkept : ∀ v' q, s.locked v' = some q → update s.pointers v x v' = s.pointers v' := by
    intro v' q hv'
    apply update_of_ne
    rintro rfl
    rw [hlocked] at hv'
    cases hv'
  refine ⟨⟨fun e => ?_, h.counts.unique⟩, fun q v' e' hq => ?_,
    h.locks.congr (fun _ => rfl) rfl hkept (fun q => by rw [Local.work, hbusy, Local.work]) (fun q b hb hq => ?_),
    h.content.congr (fun _ => rfl) (fun _ => rfl) (fun _ => rfl) (fun _ => id) rfl rfl hkept hbusy⟩
  · have htotal := Local.pointersTo_update ρ p ⟨held, (ρ p).uses, none⟩ e
    have hpointers := pointersTo_update s.pointers v x e
    have hold := h.counts.refs e
    have hnew := hcount e
    dsimp only at htotal ⊢
    omega
  · show s.inUse q = some v' ∧ update s.pointers v x v' = some e'
    have huses : (update ρ p ⟨held, (ρ p).uses, none⟩ q).uses = (ρ q).uses := by
      apply Local.map_update Local.uses
      rfl
    rw [huses] at hq
    have hne : v' ≠ v := by
      rintro rfl
      exact hunused q e' hq
    rw [update_of_ne hne]
    exact h.uses q v' e' hq
  · have hqp : q ≠ p := by
      rintro rfl
      rw [hidle] at hb
      cases hb
    rw [update_of_ne hqp]
    exact hq

/-! ### Locks that outlive a call -/

theorem Inv.begin (h : Inv ρ s) (hidle : (ρ p).busy = none) (hhas : (ρ p).Has e) (hlocked : s.locked v = some p) (hv : s.pointers v = some e) :
    Inv (update ρ p ⟨(ρ p).held, (ρ p).uses, some ⟨e, some v, (s.itable e).copy, true, true⟩⟩) s := by
  have hlock : (s.itable e).lock = some p := by
    obtain ⟨e', he', hlock⟩ := h.locks.locked v p hlocked
    rw [hv] at he'
    obtain rfl := Option.some.inj he'
    exact hlock
  have hfree : ∀ q b, (ρ q).busy = some b → b.entry ≠ e := by
    rintro q b hb rfl
    have hq := (h.locks.busy q b hb).1
    rw [hlock] at hq
    obtain rfl := Option.some.inj hq
    rw [hidle] at hb
    cases hb
  have hvalid := h.content.valid v p e hlocked hv
  apply h.rework _ (fun _ => ⟨rfl, rfl, rfl, rfl, rfl⟩) rfl rfl rfl h.content.valid
  · rintro b ⟨⟩
    exact ⟨⟨rfl, hvalid⟩, fun _ => h.content.coherent e (h.counts.pointer_pos hv) hvalid hfree⟩
  · intro b hb
    rw [hidle] at hb
    cases hb
  apply h.locks.rework rfl h.locks.locked h.locks.single
  · intro e' q he'
    rcases h.locks.owner p he' with hptr | ⟨_, b, hb, _⟩ | hother
    · exact .inl hptr
    · rw [hidle] at hb
      cases hb
    · exact .inr (.inr hother)
  · exact fun _ _ _ _ => ⟨rfl, fun _ _ => rfl⟩
  · rintro b ⟨⟩
    refine ⟨hlock, hhas, fun v' hvia => ?_, nofun⟩
    obtain rfl := Option.some.inj hvia
    exact ⟨hlocked, hv⟩

variable (h : Inv ρ s) (hb : (ρ p).busy = some b)
include h hb

theorem Inv.finish (hvia : b.via = some v) (hin : b.inStep = true) :
    Inv (update ρ p ⟨(ρ p).held, (ρ p).uses, none⟩) s := by
  apply h.rework _ (fun _ => ⟨rfl, rfl, rfl, rfl, rfl⟩) rfl rfl rfl h.content.valid
  · nofun
  · intro c hc
    rw [hb] at hc
    obtain rfl := Option.some.inj hc
    exact .inr fun _ => hin
  apply h.locks.rework rfl h.locks.locked h.locks.single
  · intro e q he
    rcases h.locks.owner p he with hptr | ⟨rfl, c, hc, hce⟩ | hother
    · exact .inl hptr
    · rw [hb] at hc
      obtain rfl := Option.some.inj hc
      rw [← hce]
      exact .inl ⟨v, h.locks.via q b v hb hvia⟩
    · exact .inr (.inr hother)
  · exact fun _ _ _ _ => ⟨rfl, fun _ _ => rfl⟩
  · nofun

theorem Inv.setVia (hv : s.pointers v = some b.entry) {x : Option (Fin t)} {via : Option (Fin r)}
    (hlocked : ∀ v' q, update s.locked v x v' = some q → ∃ e, s.pointers v' = some e ∧ (s.itable e).lock = some q)
    (hsingle : ∀ v1 v2 q1 q2 e, update s.locked v x v1 = some q1 →
      update s.locked v x v2 = some q2 → s.pointers v1 = some e → s.pointers v2 = some e → v1 = v2)
    (hvalid : ∀ v' q e, update s.locked v x v' = some q → s.pointers v' = some e → (s.itable e).valid = true)
    (hvia : ∀ v', via = some v' → update s.locked v x v' = some p ∧ s.pointers v' = some b.entry)
    (hnone : via = none → ∀ v' q, update s.locked v x v' = some q → s.pointers v' ≠ some b.entry) :
    Inv (update ρ p ⟨(ρ p).held, (ρ p).uses, some { b with via }⟩) { s with locked := update s.locked v x } := by
  have hkept : ∀ v' e, e ≠ b.entry → s.pointers v' = some e → update s.locked v x v' = s.locked v' := by
    rintro v' e hne he
    apply update_of_ne
    rintro rfl
    rw [hv] at he
    exact hne (Option.some.inj he).symm
  have hlocks : Locks (update ρ p ⟨(ρ p).held, (ρ p).uses, some { b with via }⟩) { s with locked := update s.locked v x } := by
    apply h.locks.rework
    · rfl
    · exact hlocked
    · exact hsingle
    · intro e q he
      by_cases hbe : e = b.entry
      · subst hbe
        rw [(h.locks.busy p b hb).1] at he
        exact .inr (.inl ⟨(Option.some.inj he).symm, _, rfl, rfl⟩)
      · rcases h.locks.owner p he with ⟨v', hv', hve⟩ | ⟨_, c, hc, hce⟩ | hother
        · exact .inl ⟨v', (hkept v' e hbe hve).trans hv', hve⟩
        · rw [hb] at hc
          obtain rfl := Option.some.inj hc
          exact absurd hce.symm hbe
        · exact .inr (.inr hother)
    · exact fun q hq c hc => ⟨rfl, fun v' hv' => hkept v' c.entry (h.busy_ne hb hq c hc) hv'⟩
    · rintro c ⟨⟩
      exact ⟨(h.locks.busy p b hb).1, (h.locks.busy p b hb).2, hvia, hnone⟩
  apply h.rework hlocks (fun _ => ⟨rfl, rfl, rfl, rfl, rfl⟩) rfl rfl rfl hvalid
  · rintro c ⟨⟩
    exact ⟨h.content.busy p b hb, h.content.inStep p b hb⟩
  · intro c hc
    rw [hb] at hc
    obtain rfl := Option.some.inj hc
    exact .inl ⟨_, rfl, rfl⟩

theorem Inv.takeLock (hvia : b.via = some v) :
    Inv (update ρ p ⟨(ρ p).held, (ρ p).uses, some { b with via := none }⟩) { s with locked := update s.locked v none } := by
  obtain ⟨hlocked, hv⟩ := h.locks.via p b v hb hvia
  have hsub : ∀ v' q, update s.locked v none v' = some q → v' ≠ v ∧ s.locked v' = some q := by
    intro v' q hv'
    by_cases hne : v' = v
    · subst hne
      rw [update_self] at hv'
      cases hv'
    · rw [update_of_ne hne] at hv'
      exact ⟨hne, hv'⟩
  apply h.setVia hb hv
  · exact fun v' q hv' => h.locks.locked v' q (hsub v' q hv').2
  · exact fun v1 v2 q1 q2 e h1 h2 => h.locks.single v1 v2 q1 q2 e (hsub v1 q1 h1).2 (hsub v2 q2 h2).2
  · exact fun v' q e hv' => h.content.valid v' q e (hsub v' q hv').2
  · nofun
  · intro _ v' q hv' hve
    obtain ⟨hne, hold⟩ := hsub v' q hv'
    exact hne (h.locks.single v' v q p b.entry hold hlocked hve hv)

theorem Inv.giveLock (hvia : b.via = none) (hv : s.pointers v = some b.entry) (hvalid : b.valid = true) :
    Inv (update ρ p ⟨(ρ p).held, (ρ p).uses, some { b with via := some v }⟩) { s with locked := update s.locked v (some p) } := by
  -- no variable had the lock, so the one that gets it is the only one on its entry
  have hsplit : ∀ v' q e, update s.locked v (some p) v' = some q → s.pointers v' = some e →
    (v' = v ∧ q = p ∧ e = b.entry) ∨ e ≠ b.entry ∧ s.locked v' = some q := by
    intro v' q e hv' hve
    by_cases hne : v' = v
    · subst hne
      rw [update_self] at hv'
      rw [hv] at hve
      exact .inl ⟨rfl, (Option.some.inj hv').symm, (Option.some.inj hve).symm⟩
    · rw [update_of_ne hne] at hv'
      refine .inr ⟨?_, hv'⟩
      rintro rfl
      exact h.locks.noVia p b v' q hb hvia hv' hve
  apply h.setVia hb hv
  · intro v' q hv'
    by_cases hne : v' = v
    · subst hne
      rw [update_self] at hv'
      exact ⟨b.entry, hv, hv' ▸ (h.locks.busy p b hb).1⟩
    · rw [update_of_ne hne] at hv'
      exact h.locks.locked v' q hv'
  · intro v1 v2 q1 q2 e h1 h2 he1 he2
    rcases hsplit v1 q1 e h1 he1 with ⟨rfl, _, rfl⟩ | ⟨hne1, hold1⟩
    · rcases hsplit v2 q2 _ h2 he2 with ⟨rfl, _, _⟩ | ⟨hne2, _⟩
      · rfl
      · exact absurd rfl hne2
    · rcases hsplit v2 q2 e h2 he2 with ⟨_, _, rfl⟩ | ⟨_, hold2⟩
      · exact absurd rfl hne1
      · exact h.locks.single v1 v2 q1 q2 e hold1 hold2 he1 he2
  · intro v' q e hv' hve
    rcases hsplit v' q e hv' hve with ⟨_, _, rfl⟩ | ⟨_, hold⟩
    · rw [(h.content.busy p b hb).2]
      exact hvalid
    · exact h.content.valid v' q e hold hve
  · intro v' hv'
    obtain rfl := Option.some.inj hv'
    exact ⟨update_self .., hv⟩
  · nofun

end AdvancedXv6.InodeTable
