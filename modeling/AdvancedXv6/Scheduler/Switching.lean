import AdvancedXv6.Scheduler.Frames

/-!
# Switching

The CPUs and the processes together. As long as a process is between the change of its state and the end of its `swtch`, its CPU has the `p->lock`, and without that lock nobody can choose the process. A step is either of no importance to any `swtch`, or it is about one process, of which no other CPU has hold.
-/

namespace AdvancedXv6.Scheduler

open Function
open ProcTable (ProcState)

variable {m n : ℕ}

/-! ### The system -/

namespace System

variable {s s' : System m n} {c c' : Fin m} {p q : Fin n} {f : Frame n} {rest frames : List (Frame n)}

structure Sound (s : System m n) : Prop where
  cpu : ∀ c, (s.cpus c).Sound
  lock : ∀ c p, (s.procs p).lock = some c ↔ p ∈ (s.cpus c).held
  unique : ∀ c c' p, (s.cpus c).proc = some p → (s.cpus c').proc = some p → c = c'
  state : ∀ c p, (s.cpus c).proc = some p → ((s.procs p).state = .running ↔ (s.cpus c).top Frame.leaves ≠ some p)
  running : ∀ p, (s.procs p).state = .running → ∃ c, (s.cpus c).proc = some p
  parked : ∀ p, (s.procs p).state = .runnable ∨ (s.procs p).state = .sleeping →
    (∃ c intena, (s.cpus c).regs.frames.head? = some (.schedSave p intena)) ∨ Parked p (s.procs p).context
  chosen : ∀ c p, (s.cpus c).regs.frames.head? = some (.schedulerSave p) ∨
    (s.cpus c).regs.frames.head? = some (.schedulerLoad p) → Parked p (s.procs p).context

/-- One CPU makes a step that has nothing to do with `swtch`. -/
theorem Sound.calm (h : s.Sound) (hcpus : ∀ c', c' ≠ c → s'.cpus c' = s.cpus c') (hcpu : (s'.cpus c).Sound) (hproc : (s'.cpus c).proc = (s.cpus c).proc)
    (htop : (s.cpus c).top Frame.switches = none) (htop' : (s'.cpus c).top Frame.switches = none)
    (hlock : ∀ q, (s'.procs q).lock = some c ↔ q ∈ (s'.cpus c).held) (hlocks : ∀ c' q, c' ≠ c → ((s'.procs q).lock = some c' ↔ (s.procs q).lock = some c'))
    (hstate : ∀ q, (s'.procs q).state = (s.procs q).state ∨ ((s.procs q).state = .sleeping ∧ (s'.procs q).state = .runnable))
    (hcontext : ∀ q, (s'.procs q).context = (s.procs q).context) : s'.Sound := by
  have hprocs (c' : Fin m) : (s'.cpus c').proc = (s.cpus c').proc := by grind
  have hleaves (c' : Fin m) : (s'.cpus c').top Frame.leaves = (s.cpus c').top Frame.leaves := by
    by_cases hc : c' = c
    · rw [hc, Cpu.leaves_of_switches htop, Cpu.leaves_of_switches htop']
    · rw [hcpus c' hc]
  obtain ⟨hsound, hold, hunique, hstates, hrunning, hparked, hchosen⟩ := h
  refine ⟨by grind, by grind, by grind, by grind, by grind, fun q hq => ?_, fun c' q hq => ?_⟩
  · rw [hcontext]
    refine (hparked q (by grind)).imp_left fun ⟨c', intena, hc'⟩ => ⟨c', intena, ?_⟩
    by_cases hc : c' = c
    · rw [hc] at hc'
      exact absurd hc' (Cpu.head_ne_of_switches htop nofun)
    · rw [hcpus c' hc]
      exact hc'
  · rw [hcontext]
    by_cases hc : c' = c
    · rw [hc] at hq
      exact absurd hq (not_or_intro (Cpu.head_ne_of_switches htop' nofun) (Cpu.head_ne_of_switches htop' nofun))
    · rw [hcpus c' hc] at hq
      exact hchosen c' q hq

/-! ### Steps of one CPU and one process -/

def put (s : System m n) (c : Fin m) (cpu : Cpu n) (p : Fin n) (proc : Proc m n) : System m n := (s.setCpu c cpu).setProc p proc

variable {cpu cpu' : Cpu n} {proc proc' : Proc m n}

@[simp] theorem cpus_setCpu_self : (s.setCpu c cpu).cpus c = cpu := update_self ..

@[grind =] theorem cpus_put : (s.put c cpu p proc).cpus c' = if c' = c then cpu else s.cpus c' := update_apply ..

@[grind =] theorem procs_put : (s.put c cpu p proc).procs q = if q = p then proc else s.procs q := update_apply ..

@[simp] theorem cpus_put_self : (s.put c cpu p proc).cpus c = cpu := update_self ..

@[simp] theorem procs_put_self : (s.put c cpu p proc).procs p = proc := update_self ..

theorem procs_put_of_ne (h : q ≠ p) : (s.put c cpu p proc).procs q = s.procs q := update_of_ne h ..

theorem put_self : s.put c cpu p (s.procs p) = s.setCpu c cpu := by
  unfold put setProc
  exact congrArg (fun procs => { s.setCpu c cpu with procs }) (update_eq_self ..)

@[simp] theorem setCpu_put : (s.put c cpu p proc).setCpu c cpu' = s.put c cpu' p proc := by
  unfold put setCpu setProc
  rw [update_idem]

@[simp] theorem setProc_put : (s.put c cpu p proc).setProc p proc' = s.put c cpu p proc' := by
  unfold put setCpu setProc
  rw [update_idem]

@[simp] theorem goto_put : (s.put c cpu p proc).goto c frames = s.put c (cpu.goto frames) p proc := by
  unfold goto
  rw [setCpu_put, cpus_put_self]

@[simp] theorem setCpu_setCpu : (s.setCpu c cpu).setCpu c cpu' = s.setCpu c cpu' := by
  unfold setCpu
  rw [update_idem]

@[simp] theorem goto_setCpu : (s.setCpu c cpu).goto c frames = s.setCpu c (cpu.goto frames) := by
  unfold goto
  rw [setCpu_setCpu, cpus_setCpu_self]

@[simp] theorem put_setProc : (s.setProc p proc).put c cpu p proc' = s.put c cpu p proc' := by
  unfold put setCpu setProc
  rw [update_idem]

@[simp] theorem procs_setProc_self : (s.setProc p proc).procs p = proc := update_self ..

theorem acquire_eq_some {g : System m n → Option (System m n)} (h : (s.acquire c p).bind g = some s') :
    (s.procs p).lock = none ∧ g (s.put c (s.cpus c).pushOff p { s.procs p with lock := some c }) = some s' := by
  unfold acquire at h
  split at h
  · rename_i hfree
    exact ⟨hfree, h⟩
  · cases h

theorem acquire_map_eq_some {g : System m n → System m n} (h : (s.acquire c p).map g = some s') :
    (s.procs p).lock = none ∧ g (s.put c (s.cpus c).pushOff p { s.procs p with lock := some c }) = s' := by
  rw [Option.map_eq_bind] at h
  obtain ⟨hfree, hg⟩ := acquire_eq_some h
  exact ⟨hfree, Option.some.inj hg⟩

theorem release_eq_some {g : System m n → System m n} (h : (s.release c p).map g = some s') :
    (s.procs p).lock = some c ∧ ∃ cpu, (s.cpus c).popOff = some cpu ∧ g (s.put c cpu p { s.procs p with lock := none }) = s' := by
  obtain ⟨s1, hrelease, rfl⟩ := Option.map_eq_some_iff.mp h
  unfold release at hrelease
  split at hrelease
  · rename_i hlock
    obtain ⟨cpu, hcpu, rfl⟩ := Option.map_eq_some_iff.mp hrelease
    exact ⟨hlock, cpu, hcpu, rfl⟩
  · cases hrelease

theorem releaseOther_eq_some (h : s.releaseOther c = some s') : ∃ cpu, (s.cpus c).popOff = some cpu ∧ s' = s.setCpu c cpu := by
  obtain ⟨cpu, hcpu, rfl⟩ := Option.map_eq_some_iff.mp h
  exact ⟨cpu, hcpu, rfl⟩

theorem sched_eq_some (h : s.sched c p rest = some s') :
    (s.procs p).lock = some c ∧ (s.cpus c).noff = 1 ∧ (s.procs p).state ≠ .running ∧
    (s.cpus c).intr = false ∧
    s' = s.goto c (.schedSave p (s.cpus c).intena :: rest) := by
  unfold sched at h
  split at h
  · rename_i hcheck
    cases h
    exact ⟨hcheck.1, hcheck.2.1, hcheck.2.2.1, hcheck.2.2.2, rfl⟩
  · cases h

variable (h : s.Sound)
include h

theorem Sound.plain (hproc : cpu.proc = (s.cpus c).proc) (hcontext : cpu.context = (s.cpus c).context) (hsp : cpu.regs.sp = (s.cpus c).regs.sp)
    (htop : (s.cpus c).top Frame.switches = none) (htop' : cpu.top Frame.switches = none) (hlegal : Legal (s.cpus c).regs.sp cpu.regs.frames)
    (hheld : held (s.cpus c).regs.sp cpu.regs.frames = held (s.cpus c).regs.sp (s.cpus c).regs.frames)
    (hnoff : cpu.noff = depth (s.cpus c).regs.sp cpu.regs.frames) (hintr : cpu.intr = true → cpu.noff = 0) : (s.setCpu c cpu).Sound := by
  have hcpu : cpu.Sound := (h.cpu c).calm hproc hcontext hsp htop htop' hlegal hnoff hintr (hheld ▸ (h.cpu c).nodup)
  have hself : (s.setCpu c cpu).cpus c = cpu := cpus_setCpu_self
  refine h.calm (c := c) (fun c' hc => update_of_ne hc ..) (hself.symm ▸ hcpu)
    (hself.symm ▸ hproc) htop (hself.symm ▸ htop') (fun q => ?_) (fun _ _ _ => .rfl)
    (fun _ => .inl rfl) fun _ => rfl
  rw [hself, Cpu.held, hsp, hheld]
  exact h.lock c q

/-- A step that has nothing to do with `swtch`, of one CPU and the process `p`. -/
theorem Sound.calm_put (hcpu : cpu.Sound) (hproc : cpu.proc = (s.cpus c).proc)
    (htop : (s.cpus c).top Frame.switches = none) (htop' : cpu.top Frame.switches = none)
    (hheld : ∀ q, q ≠ p → (q ∈ cpu.held ↔ q ∈ (s.cpus c).held)) (hlock : proc.lock = some c ↔ p ∈ cpu.held)
    (hlocks : ∀ c', c' ≠ c → (proc.lock = some c' ↔ (s.procs p).lock = some c'))
    (hstate : proc.state = (s.procs p).state ∨ ((s.procs p).state = .sleeping ∧ proc.state = .runnable)) (hcontext : proc.context = (s.procs p).context) :
    (s.put c cpu p proc).Sound := by
  have hold := h.lock c
  apply h.calm (c := c) <;> grind

/-- A CPU makes a step of a `swtch` to or from `p`, which no other CPU has to do with. -/
theorem Sound.switch (hcpu : cpu.Sound) (hheld : ∀ q, q ≠ p → (q ∈ cpu.held ↔ q ∈ (s.cpus c).held)) (hlock : proc.lock = some c ↔ p ∈ cpu.held)
    (hlocks : ∀ c', c' ≠ c → (proc.lock = some c' ↔ (s.procs p).lock = some c'))
    (hmine : ∀ c', c' ≠ c → (s.cpus c').proc ≠ some p) (hproc : ∀ q, (s.cpus c).proc = some q → q = p) (hproc' : ∀ q, cpu.proc = some q → q = p)
    (hstate : cpu.proc = some p → (proc.state = .running ↔ cpu.top Frame.leaves ≠ some p)) (hrunning : proc.state = .running → cpu.proc = some p)
    (hparked : proc.state = .runnable ∨ proc.state = .sleeping → (∃ intena, cpu.regs.frames.head? = some (.schedSave p intena)) ∨ Parked p proc.context)
    (hchosen : cpu.regs.frames.head? = some (.schedulerSave p) ∨ cpu.regs.frames.head? = some (.schedulerLoad p) → Parked p proc.context) :
    (s.put c cpu p proc).Sound := by
  have hswitches (c' : Fin m) (q : Fin n) := (h.cpu c').proc_of_switches (p := q)
  obtain ⟨hsound, hold, hunique, hstates, hruns, hparks, hchooses⟩ := h
  refine ⟨by grind, by grind, by grind, by grind, fun q hq => ?_, fun q hq => ?_, fun c' q hq => ?_⟩
  · by_cases hqp : q = p
    · exact ⟨c, by grind⟩
    · obtain ⟨c', hc'⟩ := hruns q (by grind)
      exact ⟨c', by grind⟩
  · by_cases hqp : q = p
    · subst hqp
      rw [procs_put_self] at hq ⊢
      exact (hparked hq).imp_left fun ⟨intena, hintena⟩ => ⟨c, intena, by rw [cpus_put_self, hintena]⟩
    · rw [procs_put_of_ne hqp] at hq ⊢
      refine (hparks q hq).imp_left fun ⟨c', intena, hc'⟩ => ⟨c', intena, ?_⟩
      have hcurrent := hswitches c' q (Cpu.switches_of_head hc' rfl)
      grind
  · have hmine' : ((s.put c cpu p proc).cpus c').top Frame.switches = some q := by
      rcases hq with hq | hq
      · exact Cpu.switches_of_head hq rfl
      · exact Cpu.switches_of_head hq rfl
    have hcurrent := hcpu.proc_of_switches (p := q)
    grind

theorem Sound.acquired (hfree : (s.procs p).lock = none) (hframes : (s.cpus c).regs.frames = f :: rest) (hf : f.switches = none)
    (hholds : f.holds (s.cpus c).regs.sp = none) {g : Frame n} (hg : g.switches = none)
    (hholds' : g.holds (s.cpus c).regs.sp = some p) (hothers : g.others = f.others)
    (hfits : g.Fits (s.cpus c).regs.sp rest) (hlock : proc.lock = some c) (hcontext : proc.context = (s.procs p).context)
    (hstate : proc.state = (s.procs p).state ∨ ((s.procs p).state = .sleeping ∧ proc.state = .runnable)) :
    (s.put c ((s.cpus c).pushOff.goto (g :: rest)) p proc).Sound := by
  have hold := h.cpu c
  have hheld : (s.cpus c).held = held (s.cpus c).regs.sp rest := by rw [Cpu.held, hframes, held_cons_of_none hholds]
  have hp : p ∉ held (s.cpus c).regs.sp rest := by
    rw [← hheld, ← h.lock c p, hfree]
    simp
  have hnoff : (s.cpus c).noff = f.others + depth (s.cpus c).regs.sp rest := by rw [hold.noff, Cpu.depth, hframes, depth_cons_of_none hholds]
  have hcpu : ((s.cpus c).pushOff.goto (g :: rest)).Sound := by
    have hlegal := hold.legal
    rw [hframes] at hlegal
    refine hold.calm rfl rfl rfl (by rw [Cpu.top_of_frames hframes, hf]) hg (hlegal.replace hfits) ?_ (by rintro ⟨⟩) ?_
    · change (s.cpus c).noff + 1 = depth (s.cpus c).regs.sp (g :: rest)
      rw [depth_cons_of_some hholds', hnoff, hothers]
      omega
    · change (held (s.cpus c).regs.sp (g :: rest)).Nodup
      rw [held_cons_of_some hholds', List.nodup_cons]
      exact ⟨hp, hheld ▸ hold.nodup⟩
  have hmem (q : Fin n) : q ∈ ((s.cpus c).pushOff.goto (g :: rest)).held ↔ q = p ∨ q ∈ (s.cpus c).held := by
    change q ∈ held (s.cpus c).regs.sp (g :: rest) ↔ _
    rw [held_cons_of_some hholds', List.mem_cons, hheld]
  refine h.calm_put hcpu rfl (by rw [Cpu.top_of_frames hframes, hf]) hg (fun q hq => ?_)
    (iff_of_true hlock ((hmem p).mpr (.inl rfl))) (fun c' hc => ?_) hstate hcontext
  · rw [hmem]
    exact ⟨fun hor => hor.resolve_left hq, .inr⟩
  · rw [hlock, hfree]
    exact iff_of_false (fun heq => hc (Option.some.inj heq).symm) (by simp)

theorem Sound.released (hlock : (s.procs p).lock = some c) (hpop : (s.cpus c).popOff = some cpu) (hframes : (s.cpus c).regs.frames = f :: rest)
    (hf : f.switches = none) (hholds : f.holds (s.cpus c).regs.sp = some p) (hothers : f.others = 0) (hlegal : Legal (s.cpus c).regs.sp frames)
    (htop : frames.head?.bind Frame.switches = none) (hheld : held (s.cpus c).regs.sp frames = held (s.cpus c).regs.sp rest)
    (hdepth : depth (s.cpus c).regs.sp frames = depth (s.cpus c).regs.sp rest) (hfree : proc.lock = none) (hstate : proc.state = (s.procs p).state)
    (hcontext : proc.context = (s.procs p).context) : (s.put c (cpu.goto frames) p proc).Sound := by
  have hold := h.cpu c
  obtain ⟨hintr, hpos, rfl⟩ := Cpu.popOff_eq_some hpop
  have hheld0 : (s.cpus c).held = p :: held (s.cpus c).regs.sp rest := by rw [Cpu.held, hframes, held_cons_of_some hholds]
  have hnodup := hold.nodup
  rw [hheld0, List.nodup_cons] at hnodup
  have hnoff : (s.cpus c).noff = 1 + depth (s.cpus c).regs.sp rest := by
    rw [hold.noff, Cpu.depth, hframes, depth_cons_of_some hholds, hothers, Nat.zero_add]
  generalize hcpu' :
    ({ s.cpus c with
        noff := (s.cpus c).noff - 1,
        intr := decide ((s.cpus c).noff - 1 = 0) && (s.cpus c).intena } : Cpu n).goto frames = cpu'
  have hregs : cpu'.regs = ⟨(s.cpus c).regs.sp, frames⟩ := by rw [← hcpu']; rfl
  have hproc : cpu'.proc = (s.cpus c).proc := by rw [← hcpu']; rfl
  have hcpu : cpu'.Sound := by
    refine hold.calm hproc (by rw [← hcpu']; rfl) (by rw [hregs]) (by rw [Cpu.top_of_frames hframes, hf]) ?_ ?_ ?_ ?_ ?_
    · rw [Cpu.top, hregs]
      exact htop
    · rw [hregs]
      exact hlegal
    · rw [hregs, hdepth, ← hcpu']
      change (s.cpus c).noff - 1 = _
      omega
    · rw [← hcpu']
      intro hon
      exact of_decide_eq_true (Bool.and_eq_true_iff.mp hon).1
    · rw [hregs, hheld]
      exact hnodup.2
  refine h.calm_put hcpu hproc (by rw [Cpu.top_of_frames hframes, hf]) ?_ (fun q hq => ?_) ?_ (fun c' hc => ?_) (.inl hstate) hcontext
  · rw [Cpu.top, hregs]
    exact htop
  · rw [Cpu.held, hregs, hheld, hheld0, List.mem_cons]
    exact ⟨.inr, fun hor => hor.resolve_left hq⟩
  · rw [hfree, Cpu.held, hregs, hheld]
    exact iff_of_false (by simp) hnodup.1
  · rw [hfree, hlock]
    exact iff_of_false (by simp) fun heq => hc (Option.some.inj heq).symm

/-! ### Steps of `swtch` -/

theorem Sound.lock_of_switches (hp : (s.cpus c).top Frame.switches = some p) : (s.procs p).lock = some c := by
  rw [h.lock]
  cases hframes : (s.cpus c).regs.frames with
  | nil =>
    rw [Cpu.top, hframes] at hp
    cases hp
  | cons f rest =>
    rw [Cpu.top_of_frames hframes] at hp
    have hmem (hholds : f.holds (s.cpus c).regs.sp = some p) : p ∈ (s.cpus c).held := by
      rw [Cpu.held, hframes, held_cons_of_some hholds]
      exact List.mem_cons_self
    have hsched := (h.cpu c).sched p
    rw [hframes] at hsched
    cases f with
    | schedSave q intena =>
      obtain rfl : q = p := Option.some.inj hp
      exact (hsched (.inl ⟨intena, rfl⟩)).2
    | schedLoad q =>
      obtain rfl : q = p := Option.some.inj hp
      exact (hsched (.inr rfl)).2
    | _ => first | exact hmem hp | cases hp

/-- A process that does not run and whose lock no other CPU has is of no other CPU. -/
theorem Sound.not_proc (hstate : (s.procs p).state ≠ .running) (hlock : ∀ c', c' ≠ c → (s.procs p).lock ≠ some c') (c' : Fin m) (hc : c' ≠ c) :
    (s.cpus c').proc ≠ some p := by
  intro hproc
  have hleaves : (s.cpus c').top Frame.leaves = some p := by
    by_contra hne
    exact hstate ((h.state c' p hproc).mpr hne)
  exact hlock c' hc (h.lock_of_switches (Cpu.switches_of_leaves hleaves))

/-- The context of a process that can be chosen has been stored, if its lock is not held by a CPU that is about to store it. -/
theorem Sound.stored (hstate : (s.procs p).state = .runnable ∨ (s.procs p).state = .sleeping)
    (hnot : ∀ c intena, (s.procs p).lock = some c → (s.cpus c).regs.frames.head? ≠ some (.schedSave p intena)) : Parked p (s.procs p).context := by
  refine (h.parked p hstate).resolve_left fun ⟨c, intena, hc⟩ => ?_
  exact hnot c intena (h.lock_of_switches (Cpu.switches_of_head hc rfl)) hc

theorem Sound.choose (hframes : (s.cpus c).regs.frames = .scheduler p :: rest) (hfree : (s.procs p).lock = none) (hstate : (s.procs p).state = .runnable) :
    (s.put c ({ (s.cpus c).pushOff with proc := some p }.goto (.schedulerSave p :: rest)) p
      { s.procs p with lock := some c, state := .running }).Sound := by
  have hold := h.cpu c
  have hregs := hold.scheduler hframes fun _ _ => id
  have hrest : rest = [] := by
    rw [hregs] at hframes
    exact (List.cons.inj hframes).2.symm
  subst hrest
  have hproc : (s.cpus c).proc = none := by
    refine Option.eq_none_iff_forall_ne_some.mpr fun q hq => ?_
    rcases (hold.proc q).mp hq with hsp | htop
    · rw [hregs] at hsp
      cases hsp
    · rw [Cpu.top_of_frames hframes] at htop
      cases htop
  have hnoff : (s.cpus c).noff = 0 := by
    rw [hold.noff, Cpu.depth, hregs]
    rfl
  have hheld : (s.cpus c).held = [] := by
    rw [Cpu.held, hregs]
    rfl
  have hparked := h.stored (.inl hstate) fun c' intena hc' => absurd (hfree.symm.trans hc') (by simp)
  have hcpu : ({ (s.cpus c).pushOff with proc := some p }.goto [.schedulerSave p]).Sound := by
    refine Cpu.sound_chosen (f := .schedulerSave p) ?_ rfl rfl ?_ rfl (by simp)
    · change (⟨(s.cpus c).regs.sp, [.schedulerSave p]⟩ : Context n) = _
      rw [hregs]
    · change (s.cpus c).noff + 1 = 1
      rw [hnoff]
  refine h.switch hcpu (fun q hq => ?_) (iff_of_true rfl (List.mem_singleton_self p))
    (fun c' hc => ?_) (h.not_proc (by rw [hstate]; simp) fun c' _ => by rw [hfree]; simp)
    (fun q hq => absurd (hproc.symm.trans hq) (by simp)) (fun q hq => (Option.some.inj hq).symm) (fun _ => iff_of_true rfl (by rintro ⟨⟩)) (fun _ => rfl)
    (fun hc => hc.elim (by simp) (by simp)) fun _ => hparked
  · rw [hheld]
    exact iff_of_false (fun hc => hq (List.mem_singleton.mp hc)) List.not_mem_nil
  · rw [hfree]
    exact iff_of_false (fun heq => hc (Option.some.inj heq).symm) (by simp)

/-- A CPU makes a step of the `swtch` to or from its process, without a change of the process. -/
theorem Sound.switchCpu (hproc : (s.cpus c).proc = some p) (hcpu : cpu.Sound) (hproc' : ∀ q, cpu.proc = some q → q = p)
    (hheld : ∀ q, q ∈ cpu.held ↔ q ∈ (s.cpus c).held) (hstate : cpu.proc = some p → ((s.procs p).state = .running ↔ cpu.top Frame.leaves ≠ some p))
    (hrunning : (s.procs p).state = .running → cpu.proc = some p)
    (hparked : (s.procs p).state = .runnable ∨ (s.procs p).state = .sleeping → Parked p (s.procs p).context)
    (hchosen : cpu.regs.frames.head? = some (.schedulerSave p) ∨ cpu.regs.frames.head? = some (.schedulerLoad p) → Parked p (s.procs p).context) :
    (s.setCpu c cpu).Sound := by
  rw [← put_self (s := s) (p := p)]
  exact h.switch hcpu (fun q _ => hheld q) (by rw [hheld]; exact h.lock c p) (fun _ _ => .rfl) (fun c' hc hc' => hc (h.unique c' c p hc' hproc))
    (fun q hq => (Option.some.inj (hproc.symm.trans hq)).symm) hproc' hstate hrunning (fun hp => .inr (hparked hp)) hchosen

theorem Sound.onScheduler (hframes : (s.cpus c).regs.frames = f :: rest) (hf : f.chosen = some p)
    (hfits : ∀ own rest, f.Fits own rest → own = none ∧ rest = []) :
    (s.cpus c).regs = ⟨none, [f]⟩ ∧ rest = [] ∧ (s.cpus c).proc = some p ∧ (s.cpus c).noff = 1 ∧ (s.cpus c).intr = false := by
  have hold := h.cpu c
  have hregs := hold.scheduler hframes hfits
  have hrest : rest = [] := by
    rw [hregs] at hframes
    exact (List.cons.inj hframes).2.symm
  have hproc : (s.cpus c).proc = some p := (hold.proc p).mpr (.inr (by rw [Cpu.top_of_frames hframes, hf]))
  have hnoff : (s.cpus c).noff = 1 := by
    rw [hold.noff, Cpu.depth, hregs, depth_cons_of_some (Frame.holds_of_chosen hf), Frame.others_of_chosen hf]
    rfl
  exact ⟨hregs, hrest, hproc, hnoff, Bool.eq_false_iff.mpr fun hon => absurd (hnoff.symm.trans (hold.intr hon)) (by simp)⟩

theorem Sound.schedulerSave (hframes : (s.cpus c).regs.frames = .schedulerSave p :: rest) :
    (s.setCpu c ({ s.cpus c with context := { (s.cpus c).regs with frames := .schedulerBack p :: rest } }.goto (.schedulerLoad p :: rest))).Sound := by
  obtain ⟨hregs, rfl, hproc, hnoff, hintr⟩ := h.onScheduler hframes rfl fun _ _ => id
  have hparked := h.chosen c p (.inl (by rw [hframes]; rfl))
  have hrunning : (s.procs p).state = .running := by
    rw [h.state c p hproc, Cpu.top_of_frames hframes]
    exact nofun
  refine h.switchCpu hproc (Cpu.sound_chosen (f := .schedulerLoad p) ?_ rfl hproc hnoff hintr
    fun _ => ?_) (fun q hq => (Option.some.inj (hproc.symm.trans hq)).symm) (fun q => ?_)
    (fun _ => iff_of_true hrunning nofun) (fun _ => hproc) (fun _ => hparked) fun _ => hparked
  · change (⟨(s.cpus c).regs.sp, [.schedulerLoad p]⟩ : Context n) = _
    rw [hregs]
  · change (⟨(s.cpus c).regs.sp, [.schedulerBack p]⟩ : Context n) = _
    rw [hregs]
  · rw [Cpu.held, Cpu.held, hframes]
    rfl

theorem Sound.schedulerLoad (hframes : (s.cpus c).regs.frames = .schedulerLoad p :: rest) :
    (s.setCpu c { s.cpus c with regs := (s.procs p).context }).Sound := by
  have hold := h.cpu c
  obtain ⟨hregs, rfl, hproc, hnoff, hintr⟩ := h.onScheduler hframes rfl fun _ _ => id
  have hparked := h.chosen c p (.inr (by rw [hframes]; rfl))
  have hrunning : (s.procs p).state = .running := by
    rw [h.state c p hproc, Cpu.top_of_frames hframes]
    rintro ⟨⟩
  generalize hcpu' : ({ s.cpus c with regs := (s.procs p).context } : Cpu n) = cpu'
  have hregs' : cpu'.regs = (s.procs p).context := by rw [← hcpu']
  have hproc' : cpu'.proc = some p := by
    rw [← hcpu']
    exact hproc
  have hnoff' : cpu'.noff = 1 := by
    rw [← hcpu']
    exact hnoff
  have htop : cpu'.top Frame.switches = none := by
    rw [Cpu.top, hregs']
    exact hparked.top
  have hheld : cpu'.held = [p] := by rw [Cpu.held, hregs', hparked.sp, hparked.held]
  have hcpu : cpu'.Sound := by
    refine ⟨?_, ?_, fun hon => ?_, ?_, fun q => ?_, fun q hq => ?_, fun q hq => ?_⟩
    · rw [hregs', hparked.sp]
      exact hparked.legal
    · rw [hnoff', Cpu.depth, hregs', hparked.sp, hparked.depth]
    · rw [← hcpu'] at hon
      exact absurd (hintr.symm.trans hon) (by simp)
    · rw [hheld]
      exact List.nodup_singleton p
    · rw [hproc', hregs', hparked.sp, Cpu.chosen_of_switches htop]
      exact ⟨.inl, fun hor => hor.resolve_right (by simp)⟩
    · have hpq : p = q := by
        rcases hq with hq | hq
        · rw [hregs', hparked.sp] at hq
          exact Option.some.inj hq
        · exact absurd hq (Cpu.head_ne_of_switches htop (by rintro ⟨⟩))
      subst hpq
      rw [← hcpu']
      exact hold.context p (.inr (by rw [hframes]; rfl))
    · rcases hq with ⟨intena, hq⟩ | hq
      · exact absurd hq (Cpu.head_ne_of_switches htop (by rintro ⟨⟩))
      · exact absurd hq (Cpu.head_ne_of_switches htop (by rintro ⟨⟩))
  refine h.switchCpu hproc hcpu (fun q hq => (Option.some.inj (hproc'.symm.trans hq)).symm)
    (fun q => ?_) (fun _ => ?_) (fun _ => hproc') (fun _ => hparked) fun _ => hparked
  · rw [hheld, Cpu.held, hregs]
    exact .rfl
  · rw [Cpu.leaves_of_switches htop]
    exact iff_of_true hrunning (by simp)

theorem Sound.stored_of_leaves (hframes : (s.cpus c).regs.frames = f :: rest) (hf : f.switches = some p) (hsave : ∀ intena, f ≠ .schedSave p intena)
    (hstate : (s.procs p).state = .runnable ∨ (s.procs p).state = .sleeping) : Parked p (s.procs p).context := by
  have hlock := h.lock_of_switches (by rw [Cpu.top_of_frames hframes]; exact hf)
  refine h.stored hstate fun c' intena hc' hhead => hsave intena ?_
  rw [← Option.some.inj (hlock.symm.trans hc'), hframes] at hhead
  exact Option.some.inj hhead

theorem Sound.schedulerBack (hframes : (s.cpus c).regs.frames = .schedulerBack p :: rest) :
    (s.setCpu c ({ s.cpus c with proc := none }.goto (.schedulerRelease p :: rest))).Sound := by
  obtain ⟨hregs, rfl, hproc, hnoff, hintr⟩ := h.onScheduler hframes rfl fun _ _ => id
  have hstate : (s.procs p).state ≠ .running := by
    rw [ne_eq, h.state c p hproc, Cpu.top_of_frames hframes]
    exact fun hc => hc rfl
  have hparked := h.stored_of_leaves hframes (p := p) rfl (by simp)
  generalize hcpu' : ({ s.cpus c with proc := none } : Cpu n).goto [.schedulerRelease p] = cpu'
  have hregs' : cpu'.regs = ⟨none, [.schedulerRelease p]⟩ := by
    rw [← hcpu']
    change (⟨(s.cpus c).regs.sp, [.schedulerRelease p]⟩ : Context n) = _
    rw [hregs]
  have hheld : cpu'.held = [p] := by
    rw [Cpu.held, hregs']
    rfl
  have hcpu : cpu'.Sound := by
    refine ⟨?_, ?_, ?_, ?_, fun q => ?_, fun q hq => ?_, fun q hq => ?_⟩
    · rw [hregs']
      exact ⟨⟨rfl, rfl⟩, (by simp), trivial⟩
    · rw [Cpu.depth, hregs', ← hcpu']
      exact hnoff
    · rw [← hcpu']
      exact (h.cpu c).intr
    · rw [hheld]
      exact List.nodup_singleton p
    · rw [Cpu.top, hregs', ← hcpu']
      exact iff_of_false (by rintro ⟨⟩) fun hor => hor.elim (by simp) (by rintro ⟨⟩)
    · rw [hregs'] at hq
      exact hq.elim (by simp) (by simp)
    · rw [hregs'] at hq
      rcases hq with ⟨_, hq⟩ | hq
      · cases hq
      · cases hq
  have hnone : cpu'.proc = none := by
    rw [← hcpu']
    rfl
  refine h.switchCpu hproc hcpu (fun q hq => absurd (hnone.symm.trans hq) (by simp)) (fun q => ?_) (fun hq => absurd (hnone.symm.trans hq) (by simp))
    (fun hc => absurd hc hstate) hparked fun hq => ?_
  · rw [hheld, Cpu.held, hregs]
    exact .rfl
  · rw [hregs'] at hq
    exact hq.elim (by simp) (by simp)

theorem Sound.schedLoad (hframes : (s.cpus c).regs.frames = .schedLoad p :: rest) : (s.setCpu c { s.cpus c with regs := (s.cpus c).context }).Sound := by
  have hold := h.cpu c
  have hproc : (s.cpus c).proc = some p := hold.proc_of_switches (by rw [Cpu.top_of_frames hframes]; rfl)
  have hsp : (s.cpus c).regs.sp = some p := by
    have hlegal := hold.legal
    rw [hframes] at hlegal
    exact hlegal.1
  obtain ⟨hnoff, hmem⟩ := hold.sched p (.inr (by rw [hframes]; rfl))
  have hcontext := hold.context p (.inl hsp)
  have hintr : (s.cpus c).intr = false := Bool.eq_false_iff.mpr fun hon => absurd (hnoff.symm.trans (hold.intr hon)) (by simp)
  have hstate : (s.procs p).state ≠ .running := by
    rw [ne_eq, h.state c p hproc, Cpu.top_of_frames hframes]
    exact fun hc => hc rfl
  have hheld : (s.cpus c).held = [p] := held_eq_singleton (hold.noff.symm.trans hnoff) hmem
  refine h.switchCpu hproc (Cpu.sound_chosen (f := .schedulerBack p) hcontext rfl hproc hnoff hintr
    (by simp)) (fun q hq => (Option.some.inj (hproc.symm.trans hq)).symm)
    (fun q => ?_) (fun _ => iff_of_false hstate fun hc => hc ?_) (fun hc => absurd hc hstate)
    (h.stored_of_leaves hframes (p := p) rfl (by simp)) fun hq => ?_
  · rw [hheld, Cpu.held, hcontext]
    exact .rfl
  · rw [Cpu.top, hcontext]
    rfl
  · rw [hcontext] at hq
    exact hq.elim (by simp) (by simp)

theorem Sound.leave (hproc : (s.cpus c).proc = some p)
    (hlocked : ∀ c', c' ≠ c → (s.procs p).lock ≠ some c') (hcpu : cpu.Sound)
    (hproc' : cpu.proc = some p)
    (hframes : cpu.regs.frames = f :: rest) (hleaves : f.leaves = some p) (hchosen : f.chosen = none) (hmem : p ∈ cpu.held)
    (hheld : ∀ q, q ≠ p → (q ∈ cpu.held ↔ q ∈ (s.cpus c).held)) (hlock : proc.lock = some c) (hstate : proc.state ≠ .running)
    (hparked : proc.state = .runnable ∨ proc.state = .sleeping →
      (∃ intena, f = .schedSave p intena) ∨ Parked p proc.context) :
      (s.put c cpu p proc).Sound := by
  refine h.switch hcpu hheld (iff_of_true hlock hmem) (fun c' hc => ?_) (fun c' hc hc' => hc (h.unique c' c p hc' hproc))
    (fun q hq => (Option.some.inj (hproc.symm.trans hq)).symm)
    (fun q hq => (Option.some.inj (hproc'.symm.trans hq)).symm) (fun _ => ?_)
    (fun hc => absurd hc hstate) (fun hp => ?_) fun hc => ?_
  · rw [hlock]
    exact iff_of_false (fun heq => hc (Option.some.inj heq).symm) (hlocked c' hc)
  · rw [Cpu.top_of_frames hframes, hleaves]
    exact iff_of_false hstate fun hc => hc rfl
  · rw [hframes]
    exact (hparked hp).imp_left fun ⟨intena, heq⟩ => ⟨intena, congrArg some heq⟩
  · rw [hframes] at hc
    rcases hc with hc | hc
    · rw [show f = .schedulerSave p from Option.some.inj hc] at hchosen
      cases hchosen
    · rw [show f = .schedulerLoad p from Option.some.inj hc] at hchosen
      cases hchosen

/-- A function of the process calls `sched`, after which it goes on at `g`. -/
theorem Sound.sched (hframes : (s.cpus c).regs.frames = f :: rest) (hf : f.chosen = none) (hsp : (s.cpus c).regs.sp = some p)
    (hlocked : ∀ c', c' ≠ c → (s.procs p).lock ≠ some c') (hholds : f.holds (some p) = none ∨ f.holds (some p) = some p)
    {g : Frame n} (hg : g.holds (some p) = some p) (hothers : g.others = 0) (hfits : g.Fits (some p) rest) (hswitches : g.switches = none)
    (hdepth : depth (some p) rest = 0) {intena : Bool} (hsp' : cpu.regs.sp = some p)
    (hframes' : cpu.regs.frames = .schedSave p intena :: g :: rest)
    (hproc : cpu.proc = (s.cpus c).proc)
    (hcontext : cpu.context = (s.cpus c).context) (hnoff : cpu.noff = 1) (hintr : cpu.intr = false)
    (hlock : proc.lock = some c) (hstate : proc.state ≠ .running) :
    (s.put c cpu p proc).Sound := by
  have hold := h.cpu c
  have hregs : cpu.regs = ⟨some p, .schedSave p intena :: g :: rest⟩ := by rw [← hsp', ← hframes']
  have hmine : (s.cpus c).proc = some p := (hold.proc p).mpr (.inl hsp)
  have hlegal := hold.legal
  rw [hframes, hsp] at hlegal
  have hheld : held (some p) (.schedSave p intena :: g :: rest) = [p] := by rw [held_cons_of_none rfl, held_cons_of_some hg, held_eq_nil hdepth]
  have hheld' : cpu.held = [p] := by rw [Cpu.held, hregs, hheld]
  have hcpu : cpu.Sound := by
    refine hold.stays hproc hcontext (by rw [hregs, hsp]) (by rw [Cpu.top_of_frames hframes, hf])
      (by rw [Cpu.top, hregs]; rfl) ?_ ?_ ?_ ?_ fun q hq => ⟨hnoff, ?_⟩
    · rw [hregs, hsp]
      refine ⟨rfl, fun f' hf' => ?_, hlegal.replace hfits⟩
      rcases List.mem_cons.mp hf' with rfl | hmem
      · exact hswitches
      · exact hlegal.2.1 f' hmem
    · rw [hnoff, hregs, hsp, depth_cons_of_none rfl, depth_cons_of_some hg, hothers, hdepth]
      rfl
    · exact fun hon => absurd (hintr.symm.trans hon) (by simp)
    · rw [hregs, hsp, hheld]
      exact List.nodup_singleton p
    · rw [hregs] at hq
      rw [hregs, hsp, hheld]
      rcases hq with ⟨intena', hq⟩ | hq
      · rw [(Frame.schedSave.inj (Option.some.inj hq)).1]
        exact List.mem_singleton_self q
      · cases hq
  refine h.leave hmine hlocked hcpu (hproc.trans hmine) hframes' rfl rfl (hheld'.symm ▸ List.mem_singleton_self p) (fun q hq => ?_) hlock hstate
    fun _ => .inl ⟨intena, rfl⟩
  rw [hheld', Cpu.held, hframes, hsp]
  refine iff_of_false (fun hc => hq (List.mem_singleton.mp hc)) fun hc => ?_
  rcases hholds with hnone | hsome
  · rw [held_cons_of_none hnone, held_eq_nil hdepth] at hc
    cases hc
  · rw [held_cons_of_some hsome, held_eq_nil hdepth] at hc
    exact hq (List.mem_singleton.mp hc)

theorem Sound.schedSave {intena : Bool} (hframes : (s.cpus c).regs.frames = .schedSave p intena :: rest) :
    (s.put c ((s.cpus c).goto (.schedLoad p :: rest)) p
      { s.procs p with context := { (s.cpus c).regs with frames := .schedBack intena :: rest } }).Sound := by
  have hold := h.cpu c
  have hlegal := hold.legal
  rw [hframes] at hlegal
  have hsp : (s.cpus c).regs.sp = some p := hlegal.1
  have hproc : (s.cpus c).proc = some p := (hold.proc p).mpr (.inl hsp)
  have hlock := h.lock_of_switches (p := p) (by rw [Cpu.top_of_frames hframes]; rfl)
  obtain ⟨hnoff, hmem⟩ := hold.sched p (.inl ⟨intena, by rw [hframes]; rfl⟩)
  have hstate : (s.procs p).state ≠ .running := by
    rw [ne_eq, h.state c p hproc, Cpu.top_of_frames hframes]
    exact fun hc => hc rfl
  have hdepth : depth (some p) rest = 1 := by
    rw [← hnoff, hold.noff, Cpu.depth, hframes, hsp, depth_cons_of_none rfl]
    exact (Nat.zero_add _).symm
  have hheld : held (some p) rest = [p] := by
    rw [Cpu.held, hframes, hsp, held_cons_of_none rfl] at hmem
    exact held_eq_singleton hdepth hmem
  have hparked : Parked p { (s.cpus c).regs with frames := .schedBack intena :: rest } := by
    rw [hsp] at hlegal
    refine ⟨hsp, hlegal.replace (g := .schedBack intena) (by rintro ⟨⟩), ?_, ?_, rfl⟩
    · rw [held_cons_of_none rfl, hheld]
    · rw [depth_cons_of_none rfl, hdepth]
      rfl
  have hcpu : ((s.cpus c).goto (.schedLoad p :: rest)).Sound := by
    refine hold.stays rfl rfl rfl (by rw [Cpu.top_of_frames hframes]; rfl) rfl ⟨hsp, hlegal.2⟩ ?_ hold.intr ?_ fun q hq => ⟨hnoff, ?_⟩
    · change (s.cpus c).noff = depth (s.cpus c).regs.sp (.schedLoad p :: rest)
      rw [hnoff, hsp, depth_cons_of_none rfl, hdepth]
      rfl
    · change (held (s.cpus c).regs.sp (.schedLoad p :: rest)).Nodup
      rw [hsp, held_cons_of_none rfl, hheld]
      exact List.nodup_singleton p
    · change q ∈ held (s.cpus c).regs.sp (.schedLoad p :: rest)
      rw [hsp, held_cons_of_none rfl, hheld]
      rcases hq with ⟨_, hq⟩ | hq
      · cases hq
      · rw [Frame.schedLoad.inj (Option.some.inj hq)]
        exact List.mem_singleton_self q
  have hmem' (q : Fin n) : q ∈ ((s.cpus c).goto (.schedLoad p :: rest)).held ↔ q ∈ (s.cpus c).held := by
    rw [Cpu.held, Cpu.held, hframes]
    exact .rfl
  exact h.leave hproc (fun c' hc hc' => hc (Option.some.inj (hlock.symm.trans hc')).symm) hcpu hproc
    rfl rfl rfl ((hmem' p).mpr hmem) (fun q _ => hmem' q) hlock hstate
    fun _ => .inr hparked

theorem Sound.exitLock (hframes : (s.cpus c).regs.frames = .exitLock p :: rest) (hfree : (s.procs p).lock = none) :
    (s.put c ((s.cpus c).pushOff.goto (.exitRelease p :: rest)) p { s.procs p with lock := some c, state := .zombie }).Sound := by
  have hold := h.cpu c
  have hlegal := hold.legal
  rw [hframes] at hlegal
  have hsp : (s.cpus c).regs.sp = some p := hlegal.1
  have hproc : (s.cpus c).proc = some p := (hold.proc p).mpr (.inl hsp)
  have hheld : (s.cpus c).held = held (some p) rest := by rw [Cpu.held, hframes, hsp, held_cons_of_none rfl]
  have hheld' : held (some p) (.exitRelease p :: rest) = p :: held (some p) rest := held_cons_of_some rfl
  have hcpu : ((s.cpus c).pushOff.goto (.exitRelease p :: rest)).Sound := by
    refine hold.stays rfl rfl rfl (by rw [Cpu.top_of_frames hframes]; rfl) rfl ⟨hsp, hlegal.2⟩ ?_ (by rintro ⟨⟩) ?_ fun q hq => ?_
    · change (s.cpus c).noff + 1 = depth (s.cpus c).regs.sp (.exitRelease p :: rest)
      rw [hold.noff, Cpu.depth, hframes, hsp, depth_cons_of_none rfl, depth_cons_of_some rfl]
      change 1 + _ + 1 = 1 + 1 + _
      omega
    · change (held (s.cpus c).regs.sp (.exitRelease p :: rest)).Nodup
      rw [hsp, hheld', List.nodup_cons, ← hheld, ← h.lock c p, hfree]
      exact ⟨(by simp), hold.nodup⟩
    · rcases hq with ⟨_, hq⟩ | hq
      · cases hq
      · cases hq
  have hmem (q : Fin n) : q ∈ ((s.cpus c).pushOff.goto (.exitRelease p :: rest)).held ↔ q = p ∨ q ∈ (s.cpus c).held := by
    change q ∈ held (s.cpus c).regs.sp (.exitRelease p :: rest) ↔ _
    rw [hsp, hheld', List.mem_cons, hheld]
  refine h.leave hproc (fun c' _ => ?_) hcpu hproc rfl rfl rfl ((hmem p).mpr (.inl rfl))
    (fun q hq => ?_) rfl (by simp) fun hc => hc.elim (by simp) (by simp)
  · rw [hfree]
    simp
  · rw [hmem]
    exact ⟨fun hor => hor.resolve_left hq, .inr⟩

end System

end AdvancedXv6.Scheduler
