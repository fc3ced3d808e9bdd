import AdvancedXv6.Pipes.Fifo

/-!
# Nobody sleeps on a condition that holds

A user of a pipe sleeps until the ring has bytes, or room, or the other end is closed. Whoever makes one of these true holds `pi->lock` and owes a `wakeup` before releasing it, and `wakeup` comes past every sleeper, since a process that is about to sleep holds its own lock.

There is one way out of the debt. A writer that has put bytes into the pipe and then finds itself killed, or the read end closed, leaves `pipewrite` without a `wakeup`.
-/

namespace AdvancedXv6.Pipes

open Transition

/-- What a sleeper on `chan` waits for. -/
def Pipe.Satisfied (pi : Pipe) : Chan → Prop
  | .nread => ¬ pi.empty ∨ pi.writeopen = false
  | .nwrite => ¬ pi.full ∨ pi.readopen = false

def Proc.Waits (proc : Proc) (chan : Chan) : Prop :=
  ∃ stage op, proc.pc = .sleep stage op ∧ op.chan = chan ∧ (stage = .asleep → proc.sleeping = true)

/-- The process will call `wakeup(chan)`, or is in it and has not come past `q`, before it releases the lock. -/
def Pc.Owes (chan : Chan) (q : ℕ) : Pc → Prop
  | .writeLoop _ _ _ fresh => chan = .nread ∧ fresh = true
  | .writePut _ _ _ fresh _ => chan = .nread ∧ fresh = true
  | .readLoop .. => chan = .nwrite
  | .wakeup c r _ => c = chan ∧ r ≤ q
  | _ => False

variable {proc : Proc} {src : ℕ → Option UInt8} {count : Int32} {i : ℕ} {fresh : Bool} {dst : ℕ → Bool} {after : After}

namespace System

variable {n : ℕ} {s s' : System n} {p q : Fin n} {pc pc0 : Pc} {c c' : Chan} {e : Event n}

/-! ### Sleepers -/

/-- Who is asleep is in `sleep`, and on the channel of the call. -/
def Asleep (s : System n) : Prop :=
  ∀ q, (s.procs q).sleeping = true → ∃ op, ((s.procs q).pc = .sleep .switch op ∨ (s.procs q).pc = .sleep .asleep op) ∧ (s.procs q).chan = some op.chan

theorem Asleep.waits (h : s.Asleep) (hsleep : (s.procs q).sleeping = true) (hchan : (s.procs q).chan = some c) : (s.procs q).Waits c := by
  obtain ⟨op, hpc, hop⟩ := h q hsleep
  have heq : op.chan = c := Option.some.inj (hop.symm.trans hchan)
  rcases hpc with hpc | hpc
  · exact ⟨.switch, op, hpc, heq, fun _ => hsleep⟩
  · exact ⟨.asleep, op, hpc, heq, fun _ => hsleep⟩

theorem Asleep.setProc (h : s.Asleep) (hp : proc.sleeping = true →
    ∃ op, (proc.pc = .sleep .switch op ∨ proc.pc = .sleep .asleep op) ∧ proc.chan = some op.chan)
      (hprocs : s'.procs = s.procs) : (s'.setProc p proc).Asleep := by
  intro q hq
  by_cases heq : q = p
  · rw [heq, procs_setProc_self] at hq ⊢
    exact hp hq
  · rw [procs_setProc_of_ne _ _ heq, hprocs] at hq ⊢
    exact h q hq

theorem Asleep.goto (h : s.Asleep) (hpc : ∀ op, (s.procs p).pc ≠ .sleep .switch op ∧ (s.procs p).pc ≠ .sleep .asleep op) (hprocs : s'.procs = s.procs) :
    (s'.goto p pc).Asleep := by
  refine h.setProc (fun hsleep => ?_) hprocs
  rw [hprocs] at hsleep
  obtain ⟨op, hop, _⟩ := h p hsleep
  rcases hop with hop | hop
  · exact absurd hop (hpc op).1
  · exact absurd hop (hpc op).2

theorem Asleep.move (h : s.Asleep) (hmove : s.Move e s') : s'.Asleep := by
  have hgo {p : Fin n} {pc0 pc : Pc} {s1 : System n} (hpc : (s.procs p).pc = pc0) (hne : ∀ op, pc0 ≠ .sleep .switch op ∧ pc0 ≠ .sleep .asleep op)
      (hprocs : s1.procs = s.procs) : (s1.goto p pc).Asleep := h.goto (fun op => by rw [hpc]; exact hne op) hprocs
  cases hmove with
  | write hpc | read hpc | close hpc | acquire hpc _ | acquireClose hpc _ | writeTest hpc
  | writePut hpc | readTest hpc | closeEnd hpc | wakeSelf hpc | wakeDone hpc _ | release hpc
  | sleepLock hpc | sleepUnlock hpc => exact hgo hpc (fun _ => ⟨nofun, nofun⟩) rfl
  | kill hown => exact h.setProc nofun rfl
  | readTurn hpc =>
    unfold readTurn
    split
    · split
      · exact hgo hpc (fun _ => ⟨nofun, nofun⟩) rfl
      · exact hgo hpc (fun _ => ⟨nofun, nofun⟩) rfl
    · exact hgo hpc (fun _ => ⟨nofun, nofun⟩) rfl
  | wake hpc hne _ =>
    rename_i p q chan after _
    have hwake : (s.wake q chan).Asleep := by
      unfold System.wake
      split
      · exact h.setProc nofun rfl
      · exact h
    refine hwake.goto (fun op => ?_) rfl
    rw [pc_wake, hpc]
    exact ⟨nofun, nofun⟩
  | sleepMark hpc =>
    rename_i p op
    exact h.setProc (fun _ => ⟨op, .inl rfl, rfl⟩) rfl
  | sleepSwitch hpc =>
    rename_i p op
    refine h.setProc (fun hsleep => ?_) rfl
    obtain ⟨op', hop, hchan⟩ := h p hsleep
    have heq : op' = op := by
      rcases hop with hop | hop
      · exact Pc.sleep.inj (hop.symm.trans hpc) |>.2
      · exact absurd (hop.symm.trans hpc) nofun
    rw [heq] at hchan
    exact ⟨op, .inr rfl, hchan⟩
  | sleepDone hpc hawake =>
    refine h.setProc (fun hsleep => ?_) rfl
    exact absurd (hawake.symm.trans hsleep) nofun

/-! ### Debts -/

/-- If somebody waits for what is already true, then the owner of the lock owes it to them. -/
def Covered (s : System n) : Prop :=
  ∀ q c, (s.procs q).Waits c → s.pipe.Satisfied c → ∃ p, s.lock = some p ∧ (s.procs p).pc.Owes c q

theorem not_waits (hp : ∀ stage op, proc.pc ≠ .sleep stage op) : ¬ proc.Waits c := by
  rintro ⟨stage, op, hpc, _⟩
  exact hp stage op hpc

section

variable (h : s.Covered) (hheld : s.Held)
include h hheld

theorem Covered.owed (hholds : (s.procs p).pc.holds = true) (hq : (s.procs q).Waits c) (hc : s.pipe.Satisfied c) :
    (s.procs p).pc.Owes c q := by
  obtain ⟨r, hlock, howes⟩ := h q c hq hc
  have heq : r = p := Option.some.inj (hlock.symm.trans ((hheld.lock_iff p).mp hholds))
  rw [heq] at howes
  exact howes

/-- A step of a process that does not have the lock and does not take it. -/
theorem Covered.of_same (hholds : (s.procs p).pc.holds = false) (hother : ∀ q, q ≠ p → s'.procs q = s.procs q)
    (hlock : s'.lock = s.lock) (hpipe : s'.pipe = s.pipe) (hwaits : ∀ c, (s'.procs p).Waits c → (s.procs p).Waits c) : s'.Covered := by
  intro q c hq hc
  rw [hpipe] at hc
  have hq' : (s.procs q).Waits c := by
    by_cases heq : q = p
    · rw [heq] at hq ⊢
      exact hwaits c hq
    · rw [hother q heq] at hq
      exact hq
  obtain ⟨r, hr, howes⟩ := h q c hq' hc
  have hne : r ≠ p := by
    rintro rfl
    exact absurd (hholds.symm.trans ((hheld.lock_iff r).mpr hr)) nofun
  refine ⟨r, hlock.trans hr, ?_⟩
  rw [hother r hne]
  exact howes

theorem Covered.own (hholds : (s.procs p).pc.holds = true) (hprocs : s'.procs = s.procs)
    (hself : ∀ c, ({ s.procs p with pc } : Proc).Waits c → ¬ s'.pipe.Satisfied c)
    (hother : ∀ q c, (s.procs q).Waits c → s'.pipe.Satisfied c → (s.pipe.Satisfied c → (s.procs p).pc.Owes c q) → s'.lock = some p ∧ pc.Owes c q) :
    (s'.goto p pc).Covered := by
  intro q c hq hc
  by_cases heq : q = p
  · rw [heq, procs_goto_self, hprocs] at hq
    exact absurd hc (hself c hq)
  · rw [procs_goto_of_ne _ _ heq, hprocs] at hq
    obtain ⟨hlock, howes⟩ := hother q c hq hc fun hsat => h.owed hheld hholds hq hsat
    refine ⟨p, hlock, ?_⟩
    rw [procs_goto_self]
    exact howes

theorem Covered.goto (hpc : (s.procs p).pc = pc0) (hholds : pc0.holds = true) (hprocs : s'.procs = s.procs) (hlock : s'.lock = s.lock)
    (hne : ∀ stage op, pc ≠ .sleep stage op)
    (hother : ∀ q c, (s.procs q).Waits c → s'.pipe.Satisfied c → (s.pipe.Satisfied c → pc0.Owes c q) → pc.Owes c q) : (s'.goto p pc).Covered := by
  subst hpc
  refine h.own hheld hholds hprocs (fun _ hwaits => absurd hwaits (not_waits hne)) fun q c hq hc howed => ⟨?_, hother q c hq hc howed⟩
  rw [hlock]
  exact (hheld.lock_iff p).mp hholds

end

/-- The lock is taken when nobody waits for what is true. -/
theorem Covered.acquire (h : s.Covered) (hlock : s.lock = none)
    (hpc : ∀ stage op, pc ≠ .sleep stage op) : ({ s with lock := some p }.goto p pc).Covered := by
  intro q c hq hc
  have hq' : (s.procs q).Waits c := by
    by_cases heq : q = p
    · rw [heq] at hq
      refine absurd hq (not_waits fun stage op => ?_)
      rw [procs_goto_self]
      exact hpc stage op
    · rw [procs_goto_of_ne _ _ heq] at hq
      exact hq
  obtain ⟨r, hr, _⟩ := h q c hq' hc
  exact absurd (hlock.symm.trans hr) nofun

theorem Op.head_ne_sleep (op : Op) (stage : Stage) (op' : Op) : op.head ≠ .sleep stage op' := by cases op <;> nofun

/-- A writer that leaves early has put nothing into the pipe since it took the lock, or nobody waits for bytes. -/
def Settled (s : System n) (e : Event n) : Prop :=
  ∀ p src count i fresh, e = .run p → (s.procs p).pc = .writeLoop src count i fresh → (i : ℤ) < count.toInt →
    s.pipe.readopen = false ∨ (s.procs p).killed = true → fresh = false ∨ ∀ q, ¬ (s.procs q).Waits .nread

section

variable (h : s.Covered) (hheld : s.Held)
include h hheld

theorem Covered.writeTest (hpc : (s.procs p).pc = .writeLoop src count i fresh)
    (hsettled : s.Settled (.run p)) : (s.goto p (s.writeTest p src count i fresh)).Covered := by
  unfold System.writeTest
  split
  · rename_i hlt
    split
    · -- the way out without a `wakeup`
      rename_i hleave
      refine h.goto hheld hpc rfl rfl rfl nofun fun q c hq hc howed => ?_
      have howes := howed hc
      rcases hsettled p src count i fresh rfl hpc hlt hleave with hfresh | hnone
      · exact absurd (hfresh.symm.trans howes.2) nofun
      · rw [howes.1] at hq
        exact absurd hq (hnone q)
    · split
      · exact h.goto hheld hpc rfl rfl rfl nofun fun q c hq hc howed => ⟨(howed hc).1.symm, Nat.zero_le _⟩
      · split
        · exact h.goto hheld hpc rfl rfl rfl nofun fun q c hq hc howed => ⟨(howed hc).1.symm, Nat.zero_le _⟩
        · exact h.goto hheld hpc rfl rfl rfl nofun fun q c hq hc howed => howed hc
  · exact h.goto hheld hpc rfl rfl rfl nofun fun q c hq hc howed => ⟨(howed hc).1.symm, Nat.zero_le _⟩

theorem Covered.readTest (hpc : (s.procs p).pc = .readWait dst count) :
    (s.goto p (s.readTest p dst count)).Covered := by
  unfold System.readTest
  split
  · rename_i hwait
    split
    · exact h.goto hheld hpc rfl rfl rfl nofun fun q c hq hc howed => (howed hc).elim
    · have hholds : (s.procs p).pc.holds = true := by rw [hpc]; rfl
      refine h.own hheld hholds rfl (fun c hc hsat => ?_) fun q c hq hc howed => ?_
      swap
      · have howes := howed hc
        rw [hpc] at howes
        exact howes.elim
      obtain ⟨stage, op, hop, hchan, _⟩ := hc
      obtain ⟨_, rfl⟩ := Pc.sleep.inj hop
      have heq : Chan.nread = c := hchan
      rw [← heq] at hsat
      rcases hsat with hbytes | hclosed
      · exact hbytes hwait.1
      · exact absurd (hclosed.symm.trans hwait.2) nofun
  · exact h.goto hheld hpc rfl rfl rfl nofun fun q c hq hc howed => (howed hc).elim

theorem Covered.writePut {ch : UInt8}
    (hpc : (s.procs p).pc = .writePut src count i fresh ch) :
    ({ s with pipe := s.pipe.put ch, accepted := s.accepted ++ [ch] }.goto p (.writeLoop src count (i + 1) true)).Covered := by
  refine h.goto hheld hpc rfl rfl rfl nofun fun q c hq hc howed => ⟨?_, rfl⟩
  cases c with
  | nread => rfl
  | nwrite =>
    have hroom := hheld.knows p
    rw [hpc] at hroom
    exact (howed (.inl hroom)).1

theorem Covered.readTurn (hpc : (s.procs p).pc = .readLoop dst count i) :
    (s.readTurn p dst count i).Covered := by
  unfold System.readTurn
  split
  · rename_i hgo
    -- nobody waits for bytes while there are some
    have hchan {q : Fin n} {c : Chan} (howed : s.pipe.Satisfied c → (Pc.readLoop dst count i).Owes c q) : c = .nwrite := by
      cases c with
      | nwrite => rfl
      | nread => exact howed (.inl hgo.2)
    split
    · exact h.goto hheld hpc rfl rfl rfl nofun fun q c _ _ howed => hchan howed
    · exact h.goto hheld hpc rfl rfl rfl nofun fun q c _ _ howed => ⟨(hchan howed).symm, Nat.zero_le _⟩
  · exact h.goto hheld hpc rfl rfl rfl nofun fun q c _ hc howed => ⟨Eq.symm (howed hc), Nat.zero_le _⟩

theorem Covered.closeEnd {writable : Bool} (hpc : (s.procs p).pc = .closeEnd writable) :
    ({ s with pipe := s.pipe.close writable }.goto p (.wakeup (if writable then .nread else .nwrite) 0 (.release 0))).Covered := by
  refine h.goto hheld hpc rfl rfl rfl nofun fun q c hq hc howed => ⟨?_, Nat.zero_le _⟩
  cases writable <;> cases c <;> first | rfl | exact (howed hc).elim

omit h hheld in
/-- A process that `wakeup` comes past does not wait on the channel any more. -/
theorem not_waits_wake (hheld : s.Held) (hasleep : s.Asleep) (hholds : (s.procs p).pc.holds = true) (hne : q ≠ p)
    (hown : (s.procs q).pc.holdsOwn = false) : ¬ ((s.wake q c).procs q).Waits c := by
  rintro ⟨stage, op, hop, hchan, hstill⟩
  rw [pc_wake] at hop
  rw [hop] at hown
  cases stage with
  | lock =>
    have hlock := (hheld.lock_iff q).mp (by rw [hop]; rfl)
    exact hne (Option.some.inj (hlock.symm.trans ((hheld.lock_iff p).mp hholds)))
  | unlock | mark | switch => cases hown
  | asleep =>
    -- if it was asleep, it was on the channel and has been woken
    have hawake := hstill rfl
    unfold System.wake at hawake
    split at hawake
    · rw [procs_setProc_self] at hawake
      cases hawake
    · rename_i hother
      obtain ⟨op', hop', hchan'⟩ := hasleep q hawake
      refine hother ⟨hawake, ?_⟩
      rcases hop' with hop' | hop'
      · exact absurd (hop'.symm.trans hop) nofun
      · rw [hchan', (Pc.sleep.inj (hop'.symm.trans hop)).2, hchan]

omit h hheld in
theorem waits_of_wake (hwaits : ((s.wake q c).procs p).Waits c') : (s.procs p).Waits c' := by
  obtain ⟨stage, op, hop, hchan, hsleep⟩ := hwaits
  rw [pc_wake] at hop
  refine ⟨stage, op, hop, hchan, fun hstage => ?_⟩
  have hsleep' := hsleep hstage
  unfold System.wake at hsleep'
  split at hsleep'
  · by_cases hp : p = q
    · rw [hp, procs_setProc_self] at hsleep'
      cases hsleep'
    · rw [procs_setProc_of_ne _ _ hp] at hsleep'
      exact hsleep'
  · exact hsleep'

theorem Covered.wake (hasleep : s.Asleep) (hpc : (s.procs p).pc = .wakeup c q after) (hne : q ≠ p)
    (hown : (s.procs q).pc.holdsOwn = false) : ((s.wake q c).goto p (.wakeup c (q + 1) after)).Covered := by
  have hholds : (s.procs p).pc.holds = true := by rw [hpc]; rfl
  intro r c' hr hc
  rw [pipe_goto, pipe_wake] at hc
  refine ⟨p, ?_, ?_⟩
  · rw [lock_goto, lock_wake]
    exact (hheld.lock_iff p).mp hholds
  rw [procs_goto_self]
  have hrp : r ≠ p := by
    rintro rfl
    refine not_waits (fun stage op => ?_) hr
    rw [procs_goto_self]
    exact nofun
  rw [procs_goto_of_ne _ _ hrp] at hr
  have howes := h.owed hheld hholds (waits_of_wake hr) hc
  rw [hpc] at howes
  obtain ⟨rfl, hle⟩ := howes
  refine ⟨rfl, Nat.lt_of_le_of_ne hle fun heq => ?_⟩
  have hrq : q = r := Fin.ext heq
  rw [← hrq] at hr
  exact not_waits_wake hheld hasleep hholds hne hown hr

theorem Covered.wakeDone {r : ℕ} (hpc : (s.procs p).pc = .wakeup c r after) (hr : n ≤ r) :
    (s.goto p after.pc).Covered := by
  have hholds : (s.procs p).pc.holds = true := by rw [hpc]; rfl
  refine h.own hheld hholds rfl (fun c' hwaits hsat => ?_) fun q c' _ hc howed => ?_
  · have hknows := hheld.knows p
    rw [hpc] at hknows
    obtain ⟨stage, op, hop, hchan, _⟩ := hwaits
    cases after with
    | release ret => cases hop
    | sleep op' =>
      obtain ⟨_, rfl⟩ := Pc.sleep.inj hop
      rw [← hchan, hknows.1] at hsat
      rcases hsat with hroom | hclosed
      · exact hroom hknows.2.1
      · exact absurd (hclosed.symm.trans hknows.2.2) nofun
  · have howes := howed hc
    rw [hpc] at howes
    have hle : r ≤ q := howes.2
    have hlt := q.isLt
    omega

/-- The owner, who owes nothing, releases the lock or goes on in `sleep`. -/
theorem Covered.leave (hholds : (s.procs p).pc.holds = true) (hprocs : s'.procs = s.procs) (hpipe : s'.pipe = s.pipe)
    (howes : ∀ c q, ¬ (s.procs p).pc.Owes c q) (hwaits : ∀ c, ({ s.procs p with pc } : Proc).Waits c → (s.procs p).Waits c) : (s'.goto p pc).Covered := by
  refine h.own hheld hholds hprocs (fun c hc hsat => ?_) fun q c _ hc howed => ?_
  · rw [hpipe] at hsat
    exact howes c p (h.owed hheld hholds (hwaits c hc) hsat)
  · rw [hpipe] at hc
    exact absurd (howed hc) (howes c q)

end

theorem waits_of_sleep {stage stage' : Stage} {op : Op} (hpc : (s.procs p).pc = .sleep stage op) (hstage : stage ≠ .asleep)
    (hpc' : proc.pc = .sleep stage' op) (hwaits : proc.Waits c) : (s.procs p).Waits c := by
  obtain ⟨_, op', hop, hchan, _⟩ := hwaits
  rw [← (Pc.sleep.inj (hpc'.symm.trans hop)).2] at hchan
  exact ⟨stage, op, hpc, hchan, fun hasleep => absurd hasleep hstage⟩

theorem Covered.move (h : s.Covered) (hheld : s.Held) (hasleep : s.Asleep) (hmove : s.Move e s') (hsettled : s.Settled e) : s'.Covered := by
  have hstart {p : Fin n} {ret : ℤ} {pc : Pc} (hpc : (s.procs p).pc = .outside ret) (hne : ∀ stage op, pc ≠ .sleep stage op) : (s.goto p pc).Covered := by
    refine h.of_same hheld (by rw [hpc]; rfl) (fun q hq => procs_goto_of_ne s pc hq) rfl rfl fun c hwaits => ?_
    rw [procs_goto_self] at hwaits
    exact absurd hwaits (not_waits hne)
  cases hmove with
  | write hpc | read hpc | close hpc => exact hstart hpc nofun
  | kill hown =>
    rename_i q
    intro r c hr hc
    have hr' : (s.procs r).Waits c := by
      by_cases hrq : r = q
      · rw [hrq, procs_setProc_self] at hr
        obtain ⟨stage, op, hop, hchan, hsleep⟩ := hr
        rw [hrq]
        exact ⟨stage, op, hop, hchan, fun hstage => absurd (hsleep hstage) nofun⟩
      · rw [procs_setProc_of_ne _ _ hrq] at hr
        exact hr
    obtain ⟨p, hlock, howes⟩ := h r c hr' hc
    refine ⟨p, hlock, ?_⟩
    by_cases hpq : p = q
    · rw [hpq, procs_setProc_self]
      rw [hpq] at howes
      exact howes
    · rw [procs_setProc_of_ne _ _ hpq]
      exact howes
  | acquire _ hfree => exact h.acquire hfree (Op.head_ne_sleep _)
  | acquireClose _ hfree => exact h.acquire hfree nofun
  | writeTest hpc => exact h.writeTest hheld hpc hsettled
  | writePut hpc => exact h.writePut hheld hpc
  | readTest hpc => exact h.readTest hheld hpc
  | readTurn hpc => exact h.readTurn hheld hpc
  | closeEnd hpc => exact h.closeEnd hheld hpc
  | wakeSelf hpc =>
    rename_i p chan after
    refine h.goto hheld hpc rfl rfl rfl nofun fun q c hq hc howed => ?_
    have howes := howed hc
    refine ⟨howes.1, Nat.lt_of_le_of_ne howes.2 fun heq => ?_⟩
    rw [← Fin.ext heq] at hq
    exact not_waits (fun stage op => by rw [hpc]; exact nofun) hq
  | wake hpc hne hown => exact h.wake hheld hasleep hpc hne hown
  | wakeDone hpc hr => exact h.wakeDone hheld hpc hr
  | release hpc =>
    exact h.leave hheld (by rw [hpc]; rfl) rfl rfl (fun c q => by rw [hpc]; exact id) fun c hwaits => absurd hwaits (not_waits nofun)
  | sleepLock hpc | sleepUnlock hpc =>
    exact h.leave hheld (by rw [hpc]; rfl) rfl rfl (fun c q => by rw [hpc]; exact id) fun c hwaits => waits_of_sleep hpc nofun rfl hwaits
  | sleepMark hpc =>
    refine h.of_same hheld (by rw [hpc]; rfl) (fun q hq => procs_setProc_of_ne s _ hq) rfl rfl fun c hwaits => ?_
    rw [procs_setProc_self] at hwaits
    exact waits_of_sleep hpc nofun rfl hwaits
  | sleepSwitch hpc =>
    refine h.of_same hheld (by rw [hpc]; rfl) (fun q hq => procs_goto_of_ne s _ hq) rfl rfl fun c hwaits => ?_
    rw [procs_goto_self] at hwaits
    exact waits_of_sleep hpc nofun rfl hwaits
  | sleepDone hpc hawake =>
    refine h.of_same hheld (by rw [hpc]; rfl) (fun q hq => procs_setProc_of_ne s _ hq) rfl rfl fun c hwaits => ?_
    rw [procs_setProc_self] at hwaits
    exact absurd hwaits (not_waits nofun)

/-! ### Runs -/

theorem Init.not_waits (h : s.Init) : ¬ (s.procs q).Waits c := by
  refine System.not_waits fun stage op => ?_
  rw [h.pc q]
  exact nofun

theorem asleep (hs : Reachable Init (StepOf next) s) : s.Asleep := by
  refine Reachable.invariant (I := Asleep) (fun s h q hq => ?_) (fun s s' _ h hstep => ?_) hs
  · exact absurd ((h.sleeping q).symm.trans hq) nofun
  · obtain ⟨e, hnext⟩ := hstep
    exact h.move (move_of_next hnext)

theorem sleepers_unsatisfied (hs : Reachable Init (StepWhen Settled next) s) (hfree : s.lock = none) (q : Fin n) (hsleep : (s.procs q).sleeping = true) :
    ((s.procs q).chan = some .nread → s.pipe.nread = s.pipe.nwrite ∧ s.pipe.writeopen = true) ∧
    ((s.procs q).chan = some .nwrite → s.pipe.nwrite = s.pipe.nread + UInt32.ofNat pipeSize ∧ s.pipe.readopen = true) := by
  have hcovered : s.Covered := by
    refine Reachable.invariant (I := Covered) (fun s h q c hq => absurd hq h.not_waits) (fun s s' hs h hstep => ?_) hs
    obtain ⟨e, hsettled, hnext⟩ := hstep
    have hs' := hs.mono fun _ _ => StepWhen.stepOf
    exact h.move (held hs') (asleep hs') (move_of_next hnext) hsettled
  have hunsat {c : Chan} (hchan : (s.procs q).chan = some c) : ¬ s.pipe.Satisfied c := by
    intro hc
    obtain ⟨p, hlock, _⟩ := hcovered q c ((asleep (hs.mono fun _ _ => StepWhen.stepOf)).waits hsleep hchan) hc
    exact absurd (hfree.symm.trans hlock) nofun
  constructor
  · intro hchan
    have hno := hunsat hchan
    exact ⟨not_not.mp fun hne => hno (.inl hne), Bool.eq_true_of_not_eq_false fun hclosed => hno (.inr hclosed)⟩
  · intro hchan
    have hno := hunsat hchan
    exact ⟨not_not.mp fun hne => hno (.inl hne), Bool.eq_true_of_not_eq_false fun hclosed => hno (.inr hclosed)⟩

/-- A test for `Settled`, without a look at who waits. -/
def settled (s : System n) : Event n → Bool
  | .run p =>
    match (s.procs p).pc with
    | .writeLoop _ count i fresh => !fresh || !decide ((i : ℤ) < count.toInt ∧ (s.pipe.readopen = false ∨ (s.procs p).killed = true))
    | _ => true
  | _ => true

theorem settled_of_test (s : System n) (e : Event n) (h : s.settled e = true) : s.Settled e := by
  intro p src count i fresh he hpc hlt hleave
  subst he
  simp only [settled, hpc, Bool.or_eq_true, Bool.not_eq_true', decide_eq_false_iff_not] at h
  exact .inl (h.resolve_right fun hno => hno ⟨hlt, hleave⟩)

/-- A reader sleeps, and a writer that is killed before its first byte returns without a `wakeup`. -/
theorem sleepers_unsatisfied_killed : ∃ s : System 2,
    Reachable Init (StepWhen Settled next) s ∧ s.lock = none ∧ (s.procs 1).sleeping = true ∧
    (s.procs 1).chan = some .nread ∧ (s.procs 0).killed = true ∧ s.accepted = [] ∧
    ((s.procs 1).chan = some .nread → s.pipe.nread = s.pipe.nwrite ∧ s.pipe.writeopen = true) ∧
    ((s.procs 1).chan = some .nwrite →
      s.pipe.nwrite = s.pipe.nread + UInt32.ofNat pipeSize ∧ s.pipe.readopen = true) := by
  obtain ⟨s, hs, hlock, hsleep, hchan, hkilled, hnone⟩ : ∃ s : System 2,
      Reachable Init (StepWhen Settled next) s ∧ s.lock = none ∧ (s.procs 1).sleeping = true ∧
      (s.procs 1).chan = some .nread ∧ (s.procs 0).killed = true ∧ s.accepted = [] :=
    exists_reachable_when settled_of_test (init_fresh 2)
      (.read 1 (fun _ => true) 1 :: List.replicate 6 (.run 1) ++
        [.write 0 (fun _ => some 7) 2, .run 0, .kill 0, .run 0, .run 0]) (by decide +kernel)
  exact ⟨s, hs, hlock, hsleep, hchan, hkilled, hnone, sleepers_unsatisfied hs hlock 1 hsleep⟩

/-- A writer is killed between two bytes, and the reader is left asleep with a byte in the pipe. -/
theorem reader_left_asleep : ∃ s : System 2, Reachable Init (StepOf next) s ∧ s.lock = none ∧ (s.procs 1).sleeping = true ∧
    (s.procs 1).chan = some .nread ∧ s.pipe.nread ≠ s.pipe.nwrite := by
  exact exists_reachable_of_schedule (init_fresh 2)
    (.read 1 (fun _ => true) 1 :: List.replicate 6 (.run 1) ++
      .write 0 (fun _ => some 7) 2 :: List.replicate 3 (.run 0) ++ [.kill 0, .run 0, .run 0])
    (by decide +kernel)

end System

end AdvancedXv6.Pipes
