import AdvancedXv6.Scheduler.Switching

/-!
# A process runs on one CPU

Every operation keeps what the modules before say of CPUs and processes, in whatever order the CPUs go on and whenever interrupts come.
-/

namespace AdvancedXv6.Scheduler

open Transition
open ProcTable (ProcState)

variable {m n : ℕ}

namespace System

variable {s s' : System m n} {c c' : Fin m} {p q : Fin n} {f : Frame n} {rest frames : List (Frame n)} {cpu : Cpu n} {proc : Proc m n}

/-! ### Runs -/

section

variable (h : s.Sound) (hframes' : (s.cpus c).regs.frames = f :: rest) (hf : f.switches = none) (htop : frames.head?.bind Frame.switches = none)
  (hlegal : Legal (s.cpus c).regs.sp frames) (hheld : held (s.cpus c).regs.sp frames = held (s.cpus c).regs.sp (f :: rest))
include h hframes' hf htop hlegal hheld

theorem Sound.goto (hdepth : depth (s.cpus c).regs.sp frames = depth (s.cpus c).regs.sp (f :: rest)) : (s.goto c frames).Sound := by
  refine h.plain rfl rfl rfl (by rw [Cpu.top_of_frames hframes', hf]) htop hlegal (hframes'.symm ▸ hheld) ?_ (h.cpu c).intr
  change (s.cpus c).noff = _
  rw [(h.cpu c).noff, Cpu.depth, hframes']
  exact hdepth.symm

theorem Sound.pushed (hdepth : depth (s.cpus c).regs.sp frames = depth (s.cpus c).regs.sp (f :: rest) + 1) : ((s.acquireOther c).goto c frames).Sound := by
  unfold acquireOther
  rw [goto_setCpu]
  refine h.plain rfl rfl rfl (by rw [Cpu.top_of_frames hframes', hf]) htop hlegal (hframes'.symm ▸ hheld) ?_ nofun
  change (s.cpus c).noff + 1 = _
  rw [(h.cpu c).noff, Cpu.depth, hframes']
  exact hdepth.symm

theorem Sound.popped (hpop : (s.cpus c).popOff = some cpu) (hdepth : depth (s.cpus c).regs.sp (f :: rest) = depth (s.cpus c).regs.sp frames + 1) :
    (s.setCpu c (cpu.goto frames)).Sound := by
  obtain ⟨_, _, rfl⟩ := Cpu.popOff_eq_some hpop
  refine h.plain rfl rfl rfl (by rw [Cpu.top_of_frames hframes', hf]) htop hlegal (hframes'.symm ▸ hheld) ?_ fun hon => ?_
  · change (s.cpus c).noff - 1 = _
    rw [(h.cpu c).noff, Cpu.depth, hframes', hdepth, Nat.add_sub_cancel]
    rfl
  · exact of_decide_eq_true (Bool.and_eq_true_iff.mp hon).1

end

/-- Functions that hold no `p->lock` are called and return without a change of the locks. -/
theorem held_depth_cons (own : Option (Fin n)) (frames : List (Frame n)) (hholds : f.holds own = none) (hothers : f.others = 0) :
    held own (f :: frames) = held own frames ∧ depth own (f :: frames) = depth own frames := by
  refine ⟨held_cons_of_none hholds, ?_⟩
  rw [depth_cons_of_none hholds, hothers, Nat.zero_add]

theorem put_procs_self (s : System m n) (c : Fin m) (cpu : Cpu n) (p : Fin n) : s.put c cpu p (s.procs p) = s.setCpu c cpu := by
  unfold put setProc setCpu
  rw [Function.update_eq_self]

section

variable (h : s.Sound)
include h

theorem Sound.yield (hframes : (s.cpus c).regs.frames = .yield p :: rest)
    (hrun : ((s.acquire c p).bind fun s => (s.setProc p { s.procs p with state := .runnable }).sched c p (.yielded p :: rest)) = some s') : s'.Sound := by
  obtain ⟨hfree, hsched⟩ := acquire_eq_some hrun
  rw [procs_put_self, setProc_put] at hsched
  obtain ⟨_, hnoff, hstate, hintr, rfl⟩ := sched_eq_some hsched
  rw [cpus_put_self] at hnoff hintr
  rw [goto_put]
  have hlegal := (h.cpu c).legal
  rw [hframes] at hlegal
  have hsp : (s.cpus c).regs.sp = some p := hlegal.1
  have hdepth : depth (some p) rest = 0 := by
    have hzero : (s.cpus c).noff = 0 := Nat.succ.inj hnoff
    rw [(h.cpu c).noff, Cpu.depth, hframes, hsp, depth_cons_of_none rfl] at hzero
    omega
  refine h.sched hframes rfl hsp (fun c' _ => ?_) (.inl rfl) (g := .yielded p) rfl rfl rfl rfl hdepth hsp rfl rfl rfl hnoff hintr rfl (by simp)
  rw [hfree]
  simp

/-- A process that gives up its last other lock holds nothing but its own. -/
theorem Sound.releases (hframes : (s.cpus c).regs.frames = f :: rest) (hholds : f.holds (some p) = some p) (hothers : f.others = 1)
    (hfits : f.Fits (s.cpus c).regs.sp rest → (s.cpus c).regs.sp = some p) (hnoff : (s.cpus c).noff - 1 = 1) :
    (s.cpus c).regs.sp = some p ∧ depth (some p) rest = 0 := by
  have hlegal := (h.cpu c).legal
  rw [hframes] at hlegal
  have hsp := hfits hlegal.1
  rw [(h.cpu c).noff, Cpu.depth, hframes, hsp, depth_cons_of_some hholds, hothers] at hnoff
  exact ⟨hsp, by omega⟩

theorem Sound.sleepRelease {chan : ℕ} (hframes : (s.cpus c).regs.frames = .sleepRelease p chan :: rest)
    (hrun : ((s.releaseOther c).bind fun s =>
      (s.setProc p { s.procs p with chan, state := .sleeping }).sched c p (.slept p :: rest)) =
      some s') : s'.Sound := by
  obtain ⟨s1, hrelease, hsched⟩ := Option.bind_eq_some_iff.mp hrun
  obtain ⟨cpu, hpop, rfl⟩ := releaseOther_eq_some hrelease
  obtain ⟨_, _, rfl⟩ := Cpu.popOff_eq_some hpop
  change (s.put c _ p _).sched c p (.slept p :: rest) = some s' at hsched
  obtain ⟨hlock, hnoff, hstate, hintr, rfl⟩ := sched_eq_some hsched
  rw [cpus_put_self] at hnoff hintr
  rw [procs_put_self] at hlock
  rw [goto_put]
  obtain ⟨hsp, hdepth⟩ := h.releases hframes rfl rfl id hnoff
  refine h.sched hframes rfl hsp (fun c' hc hc' => ?_) (.inr rfl) (g := .slept p) rfl rfl rfl rfl hdepth hsp rfl rfl rfl hnoff hintr hlock nofun
  exact hc (Option.some.inj (hlock.symm.trans hc')).symm

theorem Sound.exitRelease (hframes : (s.cpus c).regs.frames = .exitRelease p :: rest)
    (hrun : ((s.releaseOther c).bind fun s => s.sched c p (.exited p :: rest)) = some s') : s'.Sound := by
  obtain ⟨s1, hrelease, hsched⟩ := Option.bind_eq_some_iff.mp hrun
  obtain ⟨cpu, hpop, rfl⟩ := releaseOther_eq_some hrelease
  obtain ⟨_, _, rfl⟩ := Cpu.popOff_eq_some hpop
  obtain ⟨hlock, hnoff, hstate, hintr, rfl⟩ := sched_eq_some hsched
  rw [cpus_setCpu_self] at hnoff hintr
  rw [goto_setCpu, ← put_procs_self _ _ _ p]
  obtain ⟨hsp, hdepth⟩ := h.releases hframes rfl rfl id hnoff
  refine h.sched hframes rfl hsp (fun c' hc hc' => ?_) (.inr rfl) (g := .exited p) rfl rfl rfl rfl hdepth hsp rfl rfl rfl hnoff hintr hlock hstate
  exact hc (Option.some.inj (hlock.symm.trans hc')).symm

/-- Code that is called by a process is on its stack. -/
theorem Sound.sp_of_proc (hframes : (s.cpus c).regs.frames = f :: rest) (hf : f.chosen = none) (hproc : (s.cpus c).proc = some p) :
    (s.cpus c).regs.sp = some p := by
  refine ((h.cpu c).proc p).mp hproc |>.resolve_right fun hc => ?_
  rw [Cpu.top_of_frames hframes, hf] at hc
  cases hc

theorem Sound.run (hrun : s.run c = some s') : s'.Sound := by
  have hlegal := (h.cpu c).legal
  unfold System.run at hrun
  split at hrun
  case h_1 i rest hframes =>
    rw [hframes] at hlegal
    split at hrun
    · rename_i hi
      obtain ⟨hfree, rfl⟩ := acquire_map_eq_some hrun
      unfold System.schedule
      rw [procs_put_self, setProc_put, setCpu_put, goto_put, cpus_put_self]
      split
      · rename_i hstate
        exact h.choose (p := ⟨i, hi⟩) hframes hfree hstate
      · exact h.acquired hfree hframes rfl rfl (g := .schedulerRelease ⟨i, hi⟩) rfl rfl rfl hlegal.1 rfl rfl (.inl rfl)
    · cases hrun
      have hregs := (h.cpu c).scheduler hframes fun _ _ => id
      refine h.plain rfl rfl rfl (by rw [Cpu.top_of_frames hframes]; rfl) rfl ⟨hlegal.1, hlegal.2⟩ ?_ ?_ fun _ => ?_
      · rw [hframes]
        rfl
      · change (s.cpus c).noff = _
        rw [(h.cpu c).noff, Cpu.depth, hframes]
        rfl
      · change (s.cpus c).noff = 0
        rw [(h.cpu c).noff, Cpu.depth, hregs]
        rfl
  case h_2 p rest hframes =>
    cases hrun
    exact h.schedulerSave hframes
  case h_3 p rest hframes =>
    cases hrun
    exact h.schedulerLoad hframes
  case h_4 p rest hframes =>
    cases hrun
    exact h.schedulerBack hframes
  case h_5 p rest hframes =>
    rw [hframes] at hlegal
    obtain ⟨hlock, cpu, hpop, rfl⟩ := release_eq_some hrun
    rw [goto_put]
    obtain ⟨hheld, hdepth⟩ := held_depth_cons (f := .scheduler (p + 1)) (s.cpus c).regs.sp rest rfl rfl
    exact h.released hlock hpop hframes rfl rfl rfl (hlegal.replace hlegal.1) rfl hheld hdepth rfl rfl rfl
  case h_6 rest hframes =>
    rw [hframes] at hlegal
    split at hrun
    · rename_i p hproc
      obtain ⟨hlock, cpu, hpop, rfl⟩ := release_eq_some hrun
      rw [goto_put]
      exact h.released hlock hpop hframes rfl (h.sp_of_proc hframes rfl hproc) rfl hlegal.tail hlegal.head_tail rfl rfl rfl rfl rfl
    · cases hrun
  case h_7 p rest hframes => exact h.yield hframes hrun
  case h_8 p rest hframes =>
    rw [hframes] at hlegal
    obtain ⟨hlock, cpu, hpop, rfl⟩ := release_eq_some hrun
    rw [goto_put]
    exact h.released hlock hpop hframes rfl rfl rfl hlegal.tail hlegal.head_tail rfl rfl rfl rfl rfl
  case h_9 p chan rest hframes =>
    rw [hframes] at hlegal
    obtain ⟨hfree, rfl⟩ := acquire_map_eq_some hrun
    rw [goto_put]
    exact h.acquired hfree hframes rfl rfl (g := .sleepRelease p chan) rfl rfl rfl hlegal.1 rfl rfl (.inl rfl)
  case h_10 p chan rest hframes => exact h.sleepRelease hframes hrun
  case h_11 p rest hframes =>
    rw [hframes] at hlegal
    obtain ⟨hlock, cpu, hpop, rfl⟩ := release_eq_some hrun
    rw [goto_put, put_setProc]
    rw [procs_setProc_self] at hlock
    have hown : Frame.Fits (s.cpus c).regs.sp rest .sleepRelock := by
      rw [show (s.cpus c).regs.sp = some p from hlegal.1]
      rintro ⟨⟩
    obtain ⟨hheld, hdepth⟩ := held_depth_cons (f := .sleepRelock) (s.cpus c).regs.sp rest rfl rfl
    refine h.released hlock hpop hframes rfl rfl rfl (hlegal.replace hown) rfl hheld hdepth ?_ ?_ ?_
    all_goals rw [procs_setProc_self]
  case h_12 locks rest hframes =>
    cases hrun
    rw [hframes] at hlegal
    refine h.pushed hframes rfl rfl (hlegal.tail.replace hlegal.tail.1) rfl ?_
    rw [depth_cons_of_none rfl, depth_cons_of_none rfl, depth_cons_of_none rfl]
    change locks + 1 + _ = 0 + (locks + _) + 1
    omega
  case h_13 p rest hframes =>
    cases hrun
    rw [hframes] at hlegal
    refine h.pushed hframes rfl rfl (hlegal.replace hlegal.1) rfl ?_
    rw [depth_cons_of_none rfl, depth_cons_of_none rfl]
    change 1 + _ = 0 + _ + 1
    omega
  case h_14 p rest hframes =>
    obtain ⟨hfree, rfl⟩ := acquire_map_eq_some hrun
    rw [procs_put_self, setProc_put, goto_put]
    exact h.exitLock hframes hfree
  case h_15 p rest hframes => exact h.exitRelease hframes hrun
  case h_16 p intena rest hframes =>
    cases hrun
    exact h.schedSave hframes
  case h_17 p rest hframes =>
    cases hrun
    exact h.schedLoad hframes
  case h_18 intena rest hframes =>
    cases hrun
    rw [hframes] at hlegal
    obtain ⟨hheld, hdepth⟩ := held_depth_cons (f := .schedBack intena) (s.cpus c).regs.sp rest rfl rfl
    refine h.plain rfl rfl rfl (by rw [Cpu.top_of_frames hframes]; rfl) hlegal.head_tail hlegal.tail ?_ ?_ (h.cpu c).intr
    · rw [hframes]
      exact hheld.symm
    · change (s.cpus c).noff = _
      rw [(h.cpu c).noff, Cpu.depth, hframes]
      exact hdepth
  case h_19 chan i rest hframes =>
    rw [hframes] at hlegal
    split at hrun
    · rename_i hi
      split at hrun
      · cases hrun
        exact h.goto hframes rfl rfl (hlegal.replace trivial) rfl rfl
      · obtain ⟨hfree, rfl⟩ := acquire_map_eq_some hrun
        unfold wake
        rw [procs_put_self]
        split
        · rename_i hsleep
          rw [setProc_put, goto_put]
          exact h.acquired hfree hframes rfl rfl (g := .wakeupRelease chan ⟨i, hi⟩) rfl rfl rfl trivial rfl rfl (.inr ⟨hsleep.1, rfl⟩)
        · rw [goto_put]
          exact h.acquired hfree hframes rfl rfl (g := .wakeupRelease chan ⟨i, hi⟩) rfl rfl rfl trivial rfl rfl (.inl rfl)
    · cases hrun
      obtain ⟨hheld, hdepth⟩ := held_depth_cons (f := .wakeup chan i) (s.cpus c).regs.sp rest rfl rfl
      exact h.goto hframes rfl hlegal.head_tail hlegal.tail hheld.symm hdepth.symm
  case h_20 chan q rest hframes =>
    rw [hframes] at hlegal
    obtain ⟨hlock, cpu, hpop, rfl⟩ := release_eq_some hrun
    rw [goto_put]
    obtain ⟨hheld, hdepth⟩ := held_depth_cons (f := .wakeup chan (q + 1)) (s.cpus c).regs.sp rest rfl rfl
    exact h.released hlock hpop hframes rfl rfl rfl (hlegal.replace trivial) rfl hheld hdepth rfl rfl rfl
  case h_21 pid i rest hframes =>
    rw [hframes] at hlegal
    split at hrun
    · rename_i hi
      obtain ⟨hfree, rfl⟩ := acquire_map_eq_some hrun
      split
      · unfold killProc
        rw [procs_put_self, setProc_put, goto_put]
        refine h.acquired hfree hframes rfl rfl (g := .killRelease pid ⟨i, hi⟩ true) rfl rfl rfl trivial rfl rfl ?_
        by_cases hsleep : (s.procs ⟨i, hi⟩).state = .sleeping
        · exact .inr ⟨hsleep, if_pos hsleep⟩
        · exact .inl (if_neg hsleep)
      · rw [goto_put]
        exact h.acquired hfree hframes rfl rfl (g := .killRelease pid ⟨i, hi⟩ false) rfl rfl rfl trivial rfl rfl (.inl rfl)
    · cases hrun
      obtain ⟨hheld, hdepth⟩ := held_depth_cons (f := .kill pid i) (s.cpus c).regs.sp rest rfl rfl
      exact h.goto hframes rfl hlegal.head_tail hlegal.tail hheld.symm hdepth.symm
  case h_22 pid q found rest hframes =>
    rw [hframes] at hlegal
    obtain ⟨hlock, cpu, hpop, rfl⟩ := release_eq_some hrun
    rw [goto_put]
    cases found with
    | true => exact h.released hlock hpop hframes rfl rfl rfl hlegal.tail hlegal.head_tail rfl rfl rfl rfl rfl
    | false =>
      obtain ⟨hheld, hdepth⟩ := held_depth_cons (f := .kill pid (q + 1)) (s.cpus c).regs.sp rest rfl rfl
      exact h.released hlock hpop hframes rfl rfl rfl (hlegal.replace trivial) rfl hheld hdepth rfl rfl rfl
  case h_23 => cases hrun

theorem Sound.call (hframes : (s.cpus c).regs.frames = f :: rest) (hf : f.switches = none) {g : Frame n} (hg : g.switches = none)
    (hholds : g.holds (s.cpus c).regs.sp = none) (hothers : g.others = 0)
    (hfits : g.Fits (s.cpus c).regs.sp (f :: rest)) : (s.goto c (g :: f :: rest)).Sound := by
  have hlegal := (h.cpu c).legal
  rw [hframes] at hlegal
  obtain ⟨hheld, hdepth⟩ := held_depth_cons (s.cpus c).regs.sp (f :: rest) hholds hothers
  exact h.goto hframes hf hg (hlegal.push hfits hf) hheld hdepth

theorem Sound.next {e : Event m n} (hnext : s.next e = some s') : s'.Sound := by
  cases e with
  | run c => exact h.run hnext
  | interrupt c =>
    simp only [System.next] at hnext
    split at hnext
    · rename_i hon
      cases hnext
      have hold := h.cpu c
      have hnoff := hold.intr hon
      have hdepth : depth (s.cpus c).regs.sp (s.cpus c).regs.frames = 0 := hold.noff.symm.trans hnoff
      have htop : (s.cpus c).top Frame.switches = none := by
        -- whoever is in a `swtch` holds a lock
        refine Option.eq_none_iff_forall_ne_some.mpr fun p hp => ?_
        have hmem := (h.lock c p).mp (h.lock_of_switches hp)
        rw [Cpu.held, held_eq_nil hdepth] at hmem
        cases hmem
      refine h.plain rfl rfl rfl htop rfl (hold.legal.push hdepth htop) rfl ?_ (by rintro ⟨⟩)
      change (s.cpus c).noff = depth (s.cpus c).regs.sp (.trap 0 :: (s.cpus c).regs.frames)
      rw [depth_cons_of_none rfl, hnoff, hdepth]
      rfl
    · cases hnext
  | trapReturn c =>
    simp only [System.next] at hnext
    split at hnext
    · rename_i rest hframes
      cases hnext
      have hlegal := (h.cpu c).legal
      rw [hframes] at hlegal
      have hdepth : depth (s.cpus c).regs.sp rest = 0 := hlegal.1
      have hnoff : (s.cpus c).noff = 0 := by
        rw [(h.cpu c).noff, Cpu.depth, hframes, depth_cons_of_none rfl, hdepth]
        rfl
      refine h.plain rfl rfl rfl (by rw [Cpu.top_of_frames hframes]; rfl) hlegal.head_tail hlegal.tail ?_ ?_ fun _ => hnoff
      · rw [hframes]
        rfl
      · exact hnoff.trans hdepth.symm
    · cases hnext
  | setIntr c on =>
    simp only [System.next] at hnext
    split at hnext
    · rename_i rest hframes
      cases hnext
      have hlegal := (h.cpu c).legal
      rw [hframes] at hlegal
      obtain ⟨_, rfl⟩ := hlegal.1
      refine h.plain rfl rfl rfl (by rw [Cpu.top_of_frames hframes]; rfl) (by rw [Cpu.top, hframes]; rfl) (h.cpu c).legal rfl (h.cpu c).noff fun _ => ?_
      change (s.cpus c).noff = 0
      rw [(h.cpu c).noff, Cpu.depth, hframes]
      rfl
    · cases hnext
  | lock c =>
    have hlegal := (h.cpu c).legal
    simp only [System.next] at hnext
    split at hnext
    · rename_i locks rest hframes
      cases hnext
      rw [hframes] at hlegal
      exact h.pushed hframes rfl rfl (hlegal.replace hlegal.1) rfl (depth_succ rfl rfl rfl)
    · rename_i locks rest hframes
      cases hnext
      rw [hframes] at hlegal
      exact h.pushed hframes rfl rfl (hlegal.replace hlegal.1) rfl (depth_succ rfl rfl rfl)
    · cases hnext
  | unlock c =>
    have hlegal := (h.cpu c).legal
    simp only [System.next] at hnext
    split at hnext
    · rename_i locks rest hframes
      obtain ⟨s1, hrelease, rfl⟩ := Option.map_eq_some_iff.mp hnext
      obtain ⟨cpu, hpop, rfl⟩ := releaseOther_eq_some hrelease
      rw [hframes] at hlegal
      rw [goto_setCpu]
      exact h.popped hframes rfl rfl (hlegal.replace hlegal.1) rfl hpop (depth_succ rfl rfl rfl)
    · rename_i locks rest hframes
      obtain ⟨s1, hrelease, rfl⟩ := Option.map_eq_some_iff.mp hnext
      obtain ⟨cpu, hpop, rfl⟩ := releaseOther_eq_some hrelease
      rw [hframes] at hlegal
      rw [goto_setCpu]
      exact h.popped hframes rfl rfl (hlegal.replace hlegal.1) rfl hpop (depth_succ rfl rfl rfl)
    · cases hnext
  | yield c =>
    simp only [System.next] at hnext
    split at hnext
    · rename_i locks rest p hframes hproc
      split at hnext
      · cases hnext
        exact h.call hframes rfl (g := .yield p) rfl rfl rfl (h.sp_of_proc hframes rfl hproc)
      · cases hnext
    · cases hnext
  | sleep c chan =>
    simp only [System.next] at hnext
    split at hnext
    · rename_i locks rest p hframes hproc
      cases hnext
      have hlegal := (h.cpu c).legal
      rw [hframes] at hlegal
      have hcode : Legal (s.cpus c).regs.sp (.code locks :: rest) := hlegal.replace hlegal.1
      refine h.goto hframes rfl rfl (hcode.push (g := .sleepLock p chan) (h.sp_of_proc hframes rfl hproc) rfl) rfl ?_
      rw [depth_cons_of_none rfl, depth_cons_of_none rfl, depth_cons_of_none rfl]
      change 1 + (locks + _) = locks + 1 + _
      omega
    · cases hnext
  | exit c =>
    simp only [System.next] at hnext
    split at hnext
    · rename_i locks rest p hframes hproc
      cases hnext
      exact h.call hframes rfl (g := .exitWait p) rfl rfl rfl (h.sp_of_proc hframes rfl hproc)
    · cases hnext
  | wakeup c chan =>
    simp only [System.next] at hnext
    split at hnext
    · rename_i hframes
      cases hnext
      exact h.call hframes rfl (g := .wakeup chan 0) rfl rfl rfl trivial
    · rename_i hframes
      cases hnext
      exact h.call hframes rfl (g := .wakeup chan 0) rfl rfl rfl trivial
    · rename_i hframes
      cases hnext
      exact h.call hframes rfl (g := .wakeup chan 0) rfl rfl rfl trivial
    · cases hnext
  | kill c pid =>
    simp only [System.next] at hnext
    split at hnext
    · rename_i hframes
      cases hnext
      exact h.call hframes rfl (g := .kill pid 0) rfl rfl rfl trivial
    · cases hnext

end

theorem Init.sound (h : s.Init) : s.Sound := by
  have hregs (c : Fin m) := (h.cpu c).2.2.2
  have hnone (c : Fin m) (p : Fin n) : (s.cpus c).proc ≠ some p := by
    rw [(h.cpu c).1]
    simp
  refine ⟨fun c => ⟨?_, ?_, fun _ => (h.cpu c).2.1, ?_, fun p => ?_, fun p hp => ?_,
      fun p hp => ?_⟩, fun c p => ?_, fun c c' p hp => absurd hp (hnone c p),
    fun c p hp => absurd hp (hnone c p), fun p hp => ?_, fun p _ => .inr ?_, fun c p hp => ?_⟩
  · rw [hregs]
    exact ⟨⟨rfl, rfl⟩, (by simp), trivial⟩
  · rw [(h.cpu c).2.1, Cpu.depth, hregs]
    rfl
  · rw [Cpu.held, hregs]
    exact List.nodup_nil
  · rw [(h.cpu c).1, Cpu.top, hregs]
    exact iff_of_false (by simp) fun hor => hor.elim (by simp) (by rintro ⟨⟩)
  · rw [hregs] at hp
    exact hp.elim (by simp) (by simp)
  · rw [hregs] at hp
    rcases hp with ⟨_, hp⟩ | hp
    · cases hp
    · cases hp
  · rw [h.lock p, Cpu.held, hregs]
    exact iff_of_false (by simp) List.not_mem_nil
  · rcases h.state p with hstate | hstate
    · exact absurd (hstate.symm.trans hp) (by simp)
    · exact absurd (hstate.symm.trans hp) (by simp)
  · rw [h.context p]
    refine ⟨rfl, ⟨(by rintro ⟨⟩), fun g hg => ?_, ⟨(by simp), rfl⟩, (by simp), trivial⟩, rfl, rfl, rfl⟩
    rw [List.mem_singleton.mp hg]
    rfl
  · rw [hregs] at hp
    exact hp.elim (by simp) (by simp)

theorem sound (hs : Reachable Init (StepOf next) s) : s.Sound :=
  Reachable.invariant (I := Sound) (fun _ h => h.sound) (fun _ _ _ h ⟨_, hnext⟩ => h.next hnext) hs

/-- A process is that of one CPU at most, and it is so exactly while it is `RUNNING` or on its way out; and nobody is on the kernel stack of a process whose context a CPU loads. -/
theorem one_cpu (hs : Reachable Init (StepOf next) s) :
    (∀ c c' p, (s.cpus c).proc = some p → (s.cpus c').proc = some p → c = c') ∧
    (∀ p, (∃ c, (s.cpus c).proc = some p) ↔ (s.procs p).state = .running ∨ ∃ c, (s.cpus c).top Frame.leaves = some p) ∧
    (∀ c c' p, (s.cpus c).regs.sp = some p → (s.cpus c').regs.sp = some p → c = c') ∧
    ∀ c p, (s.cpus c).regs.frames.head? = some (.schedulerLoad p) → (s.procs p).context.sp = some p ∧ ∀ c', (s.cpus c').regs.sp ≠ some p := by
  have h := sound hs
  have hproc {c : Fin m} {p : Fin n} (hsp : (s.cpus c).regs.sp = some p) : (s.cpus c).proc = some p := ((h.cpu c).proc p).mpr (.inl hsp)
  refine ⟨h.unique, fun p => ⟨fun ⟨c, hc⟩ => ?_, fun hor => ?_⟩, fun c c' p hc hc' =>
    h.unique c c' p (hproc hc) (hproc hc'), fun c p hc =>
    ⟨(h.chosen c p (.inr hc)).sp, fun c' hc' => ?_⟩⟩
  · by_cases hleaves : (s.cpus c).top Frame.leaves = some p
    · exact .inr ⟨c, hleaves⟩
    · exact .inl ((h.state c p hc).mpr hleaves)
  · rcases hor with hrunning | ⟨c, hleaves⟩
    · exact h.running p hrunning
    · exact ⟨c, (h.cpu c).proc_of_switches (Cpu.switches_of_leaves hleaves)⟩
  · have hchosen : (s.cpus c).proc = some p := (h.cpu c).proc_of_switches (Cpu.switches_of_head hc rfl)
    obtain rfl := h.unique c' c p (hproc hc') hchosen
    have hfits : (s.cpus c').regs.sp = none := by
      have hlegal := (h.cpu c').legal
      cases hframes : (s.cpus c').regs.frames with
      | nil =>
        rw [hframes] at hc
        cases hc
      | cons f rest =>
        rw [hframes] at hc hlegal
        obtain rfl : f = .schedulerLoad p := Option.some.inj hc
        exact hlegal.1.1
    exact absurd (hfits.symm.trans hc') nofun

def boot (m n : ℕ) : System m n where
  cpus _ := { proc := none, context := ⟨none, []⟩, noff := 0, intena := false, intr := false, regs := ⟨none, [.scheduler n]⟩ }
  procs p := { lock := none, state := .runnable, chan := 0, killed := false, pid := Int32.ofNat (p + 1), context := ⟨some p, [.forkret, .code 0]⟩ }

theorem init_boot (m n : ℕ) : (boot m n).Init := ⟨fun _ => ⟨rfl, rfl, rfl, rfl⟩, fun _ => rfl, fun _ => .inr rfl, fun _ => rfl⟩

/-- A process gives up its CPU after an interrupt, and is chosen by another one. -/
theorem one_cpu_yield : ∃ s : System 2 1, Reachable Init (StepOf next) s ∧ (s.cpus 1).proc = some 0 ∧ (s.procs 0).state = .running ∧
    (∀ c c' p, (s.cpus c).proc = some p → (s.cpus c').proc = some p → c = c') ∧
    (∀ p, (∃ c, (s.cpus c).proc = some p) ↔ (s.procs p).state = .running ∨ ∃ c, (s.cpus c).top Frame.leaves = some p) ∧
    (∀ c c' p, (s.cpus c).regs.sp = some p → (s.cpus c').regs.sp = some p → c = c') ∧
    ∀ c p, (s.cpus c).regs.frames.head? = some (.schedulerLoad p) → (s.procs p).context.sp = some p ∧ ∀ c', (s.cpus c').regs.sp ≠ some p := by
  obtain ⟨s, hreach, hproc, hstate⟩ : ∃ s : System 2 1, Reachable Init (StepOf next) s ∧
      (s.cpus 1).proc = some 0 ∧ (s.procs 0).state = .running :=
    exists_reachable_of_schedule (init_boot 2 1) (List.replicate 5 (.run 0) ++
      .setIntr 0 true :: .interrupt 0 :: .yield 0 :: List.replicate 5 (.run 0) ++
      List.replicate 4 (.run 1)) (by decide +kernel)
  exact ⟨s, hreach, hproc, hstate, one_cpu hreach⟩

end System

/-! ### Locks that change hands -/

/-- The `p->lock` that is released next, by code on the stack of `own`. -/
def Frame.releases (own : Option (Fin n)) : Frame n → Option (Fin n)
  | .forkret => own
  | .schedulerRelease p | .yielded p | .slept p => some p
  | .wakeupRelease _ q | .killRelease _ q _ => some q
  | _ => none

namespace System

variable {s : System m n} {c : Fin m} {p : Fin n}

theorem Sound.locked_off (h : s.Sound) (hlock : (s.procs p).lock = some c) : (s.cpus c).intr = false ∧ 1 ≤ (s.cpus c).noff := by
  have hheld := List.length_pos_of_mem ((h.lock c p).mp hlock)
  have hnoff : 1 ≤ (s.cpus c).noff := by
    rw [(h.cpu c).noff]
    exact Nat.le_add_right_of_le hheld
  refine ⟨Bool.eq_false_iff.mpr fun hon => ?_, hnoff⟩
  have hzero := (h.cpu c).intr hon
  omega

theorem isSome_release (hlock : (s.procs p).lock = some c) (hoff : (s.cpus c).intr = false ∧ 1 ≤ (s.cpus c).noff) : (s.release c p).isSome = true := by
  simp [release, hlock, Cpu.popOff, hoff]

/-- Interrupts are off while a CPU has a `p->lock`, the `p->lock` of a `swtch` is that of the CPU, and no release of one panics, although most are of locks that were taken on another stack. -/
theorem handed_over (hs : Reachable Init (StepOf next) s) (c : Fin m) (p : Fin n) :
    ((s.procs p).lock = some c → (s.cpus c).intr = false ∧ 1 ≤ (s.cpus c).noff) ∧
    ((s.cpus c).top Frame.switches = some p → (s.procs p).lock = some c) ∧
    ((s.cpus c).top (Frame.releases (s.cpus c).regs.sp) = some p → (s.procs p).lock = some c ∧ (s.run c).isSome = true) := by
  have h := sound hs
  refine ⟨h.locked_off, h.lock_of_switches, fun htop => ?_⟩
  cases hframes : (s.cpus c).regs.frames with
  | nil =>
    rw [Cpu.top, hframes] at htop
    cases htop
  | cons f rest =>
    rw [Cpu.top_of_frames hframes] at htop
    have hholds : f.holds (s.cpus c).regs.sp = some p := by
      cases f <;> first | exact htop | cases htop
    have hlock : (s.procs p).lock = some c := by
      rw [h.lock, Cpu.held, hframes, held_cons_of_some hholds]
      exact List.mem_cons_self
    have hrelease := isSome_release hlock (h.locked_off hlock)
    refine ⟨hlock, ?_⟩
    unfold run
    rw [hframes]
    cases f with
    | forkret =>
      rw [((h.cpu c).proc p).mpr (.inl htop)]
      simp [hrelease]
    | schedulerRelease _ | yielded _ | wakeupRelease _ _ | killRelease _ _ _ =>
      cases htop
      simp [hrelease]
    | slept q =>
      cases htop
      have hslept : ((s.setProc p { s.procs p with chan := 0 }).release c p).isSome = true :=
        isSome_release (by rw [procs_setProc_self]; exact hlock) (h.locked_off hlock)
      simp [hslept]
    | _ => cases htop

/-- A process that has been chosen for the first time is about to release the lock that the scheduler took. -/
theorem handed_over_forkret : ∃ s : System 1 1, Reachable Init (StepOf next) s ∧
    (s.cpus 0).top (Frame.releases (s.cpus 0).regs.sp) = some 0 ∧ (s.run 0).isSome = true := by
  obtain ⟨s, hreach, htop⟩ : ∃ s : System 1 1, Reachable Init (StepOf next) s ∧
      (s.cpus 0).top (Frame.releases (s.cpus 0).regs.sp) = some 0 :=
    exists_reachable_of_schedule (init_boot 1 1) (List.replicate 4 (.run 0)) (by decide +kernel)
  exact ⟨s, hreach, htop, ((handed_over hreach 0 0).2.2 htop).2⟩

end System

end AdvancedXv6.Scheduler
