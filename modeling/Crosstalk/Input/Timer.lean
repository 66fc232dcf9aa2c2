import Crosstalk.Interpreter.Semaphores

/-!
# The scheduled semaphore

One request at a time is kept for a semaphore, with the value of the millisecond
clock at which to signal it. The clock is compared with that value at the request
and at every poll: it has to show more, and it starts again from zero when the
counter of 32 bits behind it does.
-/

namespace Crosstalk

namespace Timer

/-! ## Requests and polls -/

/-- The millisecond clock at the time `t` in microseconds. -/
def msclockAt (t : Nat) : Nat := t % 2 ^ 32 / 1000

inductive Call
  | signalAt (semaphore delay : Nat)
  | poll

/-- A request at the time `t` is for the value of the clock `delay` milliseconds
later. -/
def Call.code (t : Nat) : Call → VM Unit
  | .signalAt semaphore delay => Crosstalk.signalAt semaphore (msclockAt (t + 1000 * delay))
  | .poll => checkScheduledSemaphore

/-- A call at the time `time`, from one state to another. -/
structure Step where
  time : Nat
  call : Call
  before : VirtualMachine
  after : VirtualMachine

/-- The semaphore that the call has put into the list. -/
def Step.signalled (x : Step) : Option Nat :=
  if x.after.semaphoreIndex = x.before.semaphoreIndex then none
  else some (x.after.semaphoreList x.after.semaphoreIndex.toNat)

/-- The clock stands at the time of the call, and the list has room. -/
structure Step.Runs (x : Step) : Prop where
  clock : ∀ k, x.before.ticks k = msclockAt x.time
  room : -1 ≤ x.before.semaphoreIndex ∧ x.before.semaphoreIndex + 1 < semaphoreListSize
  run : x.call.code x.time x.before = some ((), x.after)

/-- The two registers after a history, of which the newest step comes first. -/
def registersAfter : List Step → Nat × Nat
  | [] => (0, 0)
  | x :: _ => (x.after.scheduledSemaphore, x.after.scheduledTime)

/-- A run of calls, newest first. What happens between two calls takes any time and
leaves the two registers alone. -/
def IsRun : List Step → Prop
  | [] => True
  | x :: h => IsRun h ∧ x.Runs ∧ (∀ y ∈ h, y.time ≤ x.time) ∧
      (x.before.scheduledSemaphore, x.before.scheduledTime) = registersAfter h

/-! ## What a request asks for -/

/-- At the step `x` the request of `semaphore` for the time `deadline` is
outstanding: it was not replaced, and no check before `x` was made in time. -/
inductive Watched : Step → List Step → Nat → Nat → Prop
  | request {x : Step} {h : List Step} {semaphore delay : Nat} :
      x.call = .signalAt semaphore delay → semaphore ≠ 0 →
      Watched x h semaphore (x.time + 1000 * delay)
  | poll {x y : Step} {h : List Step} {semaphore deadline : Nat} :
      x.call = .poll → Watched y h semaphore deadline → y.time < deadline →
      Watched x (y :: h) semaphore deadline

/-- The semaphore is to be signalled at `x`: this is the first check from its
deadline on. -/
def Due (x : Step) (h : List Step) (semaphore : Nat) : Prop :=
  ∃ deadline, Watched x h semaphore deadline ∧ deadline ≤ x.time

/-- At every step the semaphore that is due is signalled, and no other. -/
def FiresOnTime : List Step → Prop
  | [] => True
  | x :: h => (∀ semaphore, x.signalled = some semaphore ↔ Due x h semaphore) ∧ FiresOnTime h

/-- The clock at `t` shows more than at the deadline if and only if the deadline
has come. -/
def ShowsDeadline (t deadline : Nat) : Prop :=
  msclockAt deadline < msclockAt t ↔ deadline ≤ t

/-- The clock does so at every check of an outstanding request. -/
def ClockShowsDeadlines : List Step → Prop
  | [] => True
  | x :: h => (∀ semaphore deadline, Watched x h semaphore deadline →
      ShowsDeadline x.time deadline) ∧ ClockShowsDeadlines h

/-- As long as the counter does not start again, the clock fails in one case: the
check is made in the millisecond of the deadline, but not before the deadline. -/
theorem showsDeadline_iff {t deadline : Nat} (h : deadline / 2 ^ 32 = t / 2 ^ 32) :
    ShowsDeadline t deadline ↔ ¬(deadline ≤ t ∧ msclockAt t = msclockAt deadline) := by
  have ht := Nat.div_add_mod t (2 ^ 32)
  have hd := Nat.div_add_mod deadline (2 ^ 32)
  rw [h] at hd
  rw [ShowsDeadline, msclockAt, msclockAt]
  omega

/-- A request across the start of the counter fails at each check before it. -/
theorem not_showsDeadline_wrap {t deadline : Nat} (hlt : t < deadline)
    (h : msclockAt deadline < msclockAt t) : ¬ShowsDeadline t deadline := fun hs =>
  absurd (hs.1 h) (Nat.not_le.2 hlt)

/-! ## One check -/

variable {s t : VirtualMachine} {x y : Step} {h : List Step} {semaphore deadline now : Nat}

/-- The check of a request at the clock value `now`. -/
structure Checked (now semaphore msClockTime : Nat) (s t : VirtualMachine) : Prop where
  fires : semaphore ≠ 0 → msClockTime < now → t.semaphoreIndex = s.semaphoreIndex + 1 ∧
    t.semaphoreList t.semaphoreIndex.toNat = semaphore ∧ t.scheduledSemaphore = 0
  waits : ¬(semaphore ≠ 0 ∧ msClockTime < now) → t.semaphoreIndex = s.semaphoreIndex ∧
    t.scheduledSemaphore = semaphore ∧ t.scheduledTime = msClockTime

theorem wlp_checkScheduledSemaphore (hclock : ∀ k, s.ticks k = now) (hnow : now < 2 ^ 32) :
    Wlp checkScheduledSemaphore
      (fun _ t => Checked now s.scheduledSemaphore s.scheduledTime s t) s := by
  rw [checkScheduledSemaphore, wlp_bind, wlp_get, wlp_ite]
  refine ⟨fun hne => ?_, fun hzero => ?_⟩
  · rw [wlp_bind, getMsclock, wlp_bind, wlp_get, wlp_bind, wlp_set, wlp_pure, hclock,
      Nat.mod_eq_of_lt hnow, wlp_ite]
    refine ⟨fun hlt => ?_, fun hle => ?_⟩
    · rw [wlp_bind, asynchronousSignal, wlp_bind, wlp_modify, wlp_bind, wlp_get, wlp_bind,
        wlp_check]
      intro _
      rw [wlp_modify, wlp_modify]
      exact ⟨fun _ _ => ⟨rfl, if_pos rfl, rfl⟩, fun hno => absurd ⟨hne, hlt⟩ hno⟩
    · rw [wlp_pure]
      exact ⟨fun _ hlt => absurd hlt hle, fun _ => ⟨rfl, rfl, rfl⟩⟩
  · rw [wlp_pure]
    exact ⟨fun hne => absurd hne hzero, fun _ => ⟨rfl, rfl, rfl⟩⟩

/-- What the step compares the clock with. -/
def Step.asked (x : Step) : Nat × Nat :=
  match x.call with
  | .signalAt semaphore delay => (semaphore, msclockAt (x.time + 1000 * delay))
  | .poll => (x.before.scheduledSemaphore, x.before.scheduledTime)

theorem msclockAt_lt (t : Nat) : msclockAt t < 2 ^ 32 := by
  rw [msclockAt]
  omega

theorem Step.Runs.checked (hx : x.Runs) :
    Checked (msclockAt x.time) x.asked.1 x.asked.2 x.before x.after := by
  have hrun := hx.run
  cases hcall : x.call with
  | poll =>
      rw [hcall] at hrun
      rw [Step.asked, hcall]
      exact wlp_checkScheduledSemaphore hx.clock (msclockAt_lt _) _ _ hrun
  | signalAt semaphore delay =>
      rw [hcall] at hrun
      rw [Step.asked, hcall]
      have hwlp : Wlp (signalAt semaphore (msclockAt (x.time + 1000 * delay))) (fun _ t =>
          Checked (msclockAt x.time) semaphore (msclockAt (x.time + 1000 * delay))
            x.before t) x.before := by
        rw [signalAt, wlp_bind, wlp_modify, wlp_ite]
        refine ⟨fun _ => ?_, fun hzero => ?_⟩
        · have hcheck : Wlp checkScheduledSemaphore _ { x.before with
              scheduledSemaphore := semaphore
              scheduledTime := msclockAt (x.time + 1000 * delay) } :=
            wlp_checkScheduledSemaphore hx.clock (msclockAt_lt _)
          exact hcheck.mono fun _ t ht => ⟨ht.fires, ht.waits⟩
        · rw [wlp_pure]
          exact ⟨fun hne => absurd hne hzero, fun _ => ⟨rfl, rfl, rfl⟩⟩
      exact hwlp _ _ hrun

theorem Step.Runs.signalled_iff (hx : x.Runs) : x.signalled = some semaphore ↔
    x.asked.1 = semaphore ∧ semaphore ≠ 0 ∧ x.asked.2 < msclockAt x.time := by
  have hc := hx.checked
  by_cases hfire : x.asked.1 ≠ 0 ∧ x.asked.2 < msclockAt x.time
  · obtain ⟨hindex, hlist, -⟩ := hc.fires hfire.1 hfire.2
    have hne : ¬x.after.semaphoreIndex = x.before.semaphoreIndex := by omega
    rw [Step.signalled, if_neg hne, hlist, Option.some_inj]
    exact ⟨fun heq => ⟨heq, heq ▸ hfire.1, hfire.2⟩, fun hs => hs.1⟩
  · rw [Step.signalled, if_pos (hc.waits hfire).1]
    exact ⟨nofun, fun hs => absurd ⟨hs.1 ▸ hs.2.1, hs.2.2⟩ hfire⟩

/-! ## Runs -/

/-- There is one outstanding request at most. -/
theorem Watched.unique (hw : Watched x h semaphore deadline) :
    ∀ {semaphore' deadline' : Nat}, Watched x h semaphore' deadline' →
      semaphore' = semaphore ∧ deadline' = deadline := by
  induction hw with
  | request hcall _ =>
      intro semaphore' deadline' hw'
      cases hw' with
      | request hcall' _ =>
          rw [hcall] at hcall'
          cases hcall'
          exact ⟨rfl, rfl⟩
      | poll hcall' => rw [hcall] at hcall'; cases hcall'
  | poll hcall _ _ ih =>
      intro semaphore' deadline' hw'
      cases hw' with
      | request hcall' _ => rw [hcall] at hcall'; cases hcall'
      | poll _ hw' _ => exact ih hw'

theorem Watched.ne_zero (hw : Watched x h semaphore deadline) : semaphore ≠ 0 := by
  induction hw with
  | request _ hne => exact hne
  | poll _ _ _ ih => exact ih

/-- The registers hold the outstanding request. -/
structure Holds (x : Step) (h : List Step) : Prop where
  asked : ∀ semaphore deadline, Watched x h semaphore deadline →
    x.asked = (semaphore, msclockAt deadline)
  watched : x.asked.1 ≠ 0 → ∃ deadline, Watched x h x.asked.1 deadline

/-- Where the registers hold the request, the step is right if and only if the
clock is. -/
theorem Holds.signalled_iff (hh : Holds x h) (hx : x.Runs) :
    (∀ semaphore, x.signalled = some semaphore ↔ Due x h semaphore) ↔
      ∀ semaphore deadline, Watched x h semaphore deadline → ShowsDeadline x.time deadline := by
  constructor
  · intro hright semaphore deadline hw
    have hs := hright semaphore
    rw [hx.signalled_iff, hh.asked _ _ hw] at hs
    refine ⟨fun hlt => ?_, fun hle => (hs.2 ⟨deadline, hw, hle⟩).2.2⟩
    obtain ⟨deadline', hw', hle⟩ := hs.1 ⟨rfl, hw.ne_zero, hlt⟩
    exact (hw.unique hw').2 ▸ hle
  · intro hclock semaphore
    rw [hx.signalled_iff]
    constructor
    · rintro ⟨rfl, hne, hlt⟩
      obtain ⟨deadline, hw⟩ := hh.watched hne
      rw [hh.asked _ _ hw] at hlt
      exact ⟨deadline, hw, (hclock _ _ hw).1 hlt⟩
    · rintro ⟨deadline, hw, hle⟩
      rw [hh.asked _ _ hw]
      exact ⟨rfl, hw.ne_zero, (hclock _ _ hw).2 hle⟩

theorem holds_of_signalAt {delay : Nat} (hcall : x.call = .signalAt semaphore delay) :
    Holds x h := by
  have hasked : x.asked = (semaphore, msclockAt (x.time + 1000 * delay)) := by
    rw [Step.asked, hcall]
  refine ⟨fun semaphore' deadline hw => ?_, fun hne => ?_⟩
  · cases hw with
    | request hcall' _ =>
        rw [hcall] at hcall'
        cases hcall'
        exact hasked
    | poll hcall' _ _ =>
        rw [hcall] at hcall'
        cases hcall'
  · rw [hasked] at hne ⊢
    exact ⟨_, .request hcall hne⟩

/-- A step that was right hands the request over to the next poll, or has ended
it. -/
theorem Holds.poll (hh : Holds y h) (hy : y.Runs)
    (hright : ∀ semaphore, y.signalled = some semaphore ↔ Due y h semaphore)
    (hcall : x.call = .poll)
    (hregisters : (x.before.scheduledSemaphore, x.before.scheduledTime) =
      registersAfter (y :: h)) : Holds x (y :: h) := by
  have hasked : x.asked = (y.after.scheduledSemaphore, y.after.scheduledTime) := by
    rw [Step.asked, hcall]
    exact hregisters
  have hc := hy.checked
  refine ⟨fun semaphore deadline hw => ?_, fun hne => ?_⟩
  · cases hw with
    | request hcall' _ =>
        rw [hcall] at hcall'
        cases hcall'
    | poll _ hw hlt =>
        have hnot : ¬(y.asked.1 ≠ 0 ∧ y.asked.2 < msclockAt y.time) := fun hfire => by
          obtain ⟨deadline', hw', hle⟩ :=
            (hright _).1 (hy.signalled_iff.2 ⟨rfl, hfire.1, hfire.2⟩)
          have := (hw.unique hw').2
          omega
        obtain ⟨-, hsemaphore, htime⟩ := hc.waits hnot
        rw [hasked, hsemaphore, htime]
        exact hh.asked _ _ hw
  · rw [hasked] at hne ⊢
    have hnot : ¬(y.asked.1 ≠ 0 ∧ y.asked.2 < msclockAt y.time) := fun hfire =>
      hne (hc.fires hfire.1 hfire.2).2.2
    have hsemaphore := (hc.waits hnot).2.1
    rw [hsemaphore] at hne
    obtain ⟨deadline, hw⟩ := hh.watched hne
    rw [hsemaphore]
    refine ⟨deadline, .poll hcall hw (not_le.1 fun hle => hnot ?_)⟩
    exact (hy.signalled_iff.1 ((hright _).2 ⟨deadline, hw, hle⟩)).2

/-- As long as the steps were right, the registers hold the request. -/
theorem holds_of_firesOnTime : ∀ {h : List Step} {x : Step}, IsRun (x :: h) → FiresOnTime h →
    Holds x h
  | [], x, hrun, _ => by
      obtain ⟨-, -, -, hregisters⟩ := hrun
      cases hcall : x.call with
      | signalAt semaphore delay => exact holds_of_signalAt hcall
      | poll =>
          refine ⟨fun _ _ hw => ?_, fun hne => ?_⟩
          · cases hw with
            | request hcall' _ =>
                rw [hcall] at hcall'
                cases hcall'
          · rw [Step.asked, hcall] at hne
            exact absurd (congrArg Prod.fst hregisters) hne
  | y :: h, x, hrun, hright => by
      obtain ⟨hbefore, -, -, hregisters⟩ := hrun
      cases hcall : x.call with
      | signalAt semaphore delay => exact holds_of_signalAt hcall
      | poll =>
          exact (holds_of_firesOnTime hbefore hright.2).poll hbefore.2.1 hright.1 hcall hregisters

/-- The semaphore is signalled on time in the runs in which the clock shows each
deadline, and in no others. -/
theorem firesOnTime_iff : ∀ {run : List Step}, IsRun run →
    (FiresOnTime run ↔ ClockShowsDeadlines run)
  | [], _ => Iff.rfl
  | x :: h, hrun => by
      have ih := firesOnTime_iff hrun.1
      constructor
      · rintro ⟨hx, hright⟩
        exact ⟨((holds_of_firesOnTime hrun hright).signalled_iff hrun.2.1).1 hx, ih.1 hright⟩
      · rintro ⟨hx, hclock⟩
        have hright := ih.2 hclock
        exact ⟨((holds_of_firesOnTime hrun hright).signalled_iff hrun.2.1).2 hx, hright⟩

/-! ## Small runs -/

/-- The clock stands at `t`, and the registers hold a request. -/
def standing (t semaphore msClockTime : Nat) : VirtualMachine :=
  { beforeEvents 60 with
    ticks := fun _ => msclockAt t
    scheduledSemaphore := semaphore
    scheduledTime := msClockTime }

/-- A request of the semaphore 60 at the time `t` that is not signalled at once. -/
def request (t delay : Nat) : Step where
  time := t
  call := .signalAt 60 delay
  before := standing t 0 0
  after := { standing t 60 (msclockAt (t + 1000 * delay)) with readings := 1 }

/-- A poll at the time `t` that signals nothing. -/
def silentPoll (t msClockTime : Nat) : Step where
  time := t
  call := .poll
  before := standing t 60 msClockTime
  after := { standing t 60 msClockTime with readings := 1 }

/-- A step that signals the semaphore 60. -/
def firing (t : Nat) (call : Call) (before : VirtualMachine) (msClockTime : Nat) : Step where
  time := t
  call := call
  before := before
  after := { standing t 0 msClockTime with
    readings := 1
    semaphoreIndex := 0
    semaphoreList := fun i => if i = 0 then 60 else 0 }

/-- A request for one millisecond, with polls before and after its deadline. -/
def onTime : List Step :=
  [firing 2000 .poll (standing 2000 60 1) 1, silentPoll 500 1, request 0 1]

/-- The poll is made at the deadline. -/
def atDeadline : List Step := [silentPoll 1000 1, request 0 1]

/-- The request is made 1.3 milliseconds before the counter starts again. -/
def acrossWrap : List Step :=
  [firing 4294966000 (.signalAt 60 2) (standing 4294966000 0 0) 0]

theorem checkScheduledSemaphore_waits (hclock : ∀ k, s.ticks k = now) (hnow : now < 2 ^ 32)
    (hne : s.scheduledSemaphore ≠ 0) (hle : now ≤ s.scheduledTime) :
    checkScheduledSemaphore s = some ((), { s with readings := s.readings + 1 }) := by
  refine Wp.run_eq ?_
  rw [checkScheduledSemaphore, wp_bind, wp_get, if_pos hne, wp_bind, getMsclock, wp_bind, wp_get,
    wp_bind, wp_set, wp_pure, hclock, Nat.mod_eq_of_lt hnow, if_neg (Nat.not_lt.2 hle), wp_pure]
  exact ⟨rfl, rfl⟩

theorem checkScheduledSemaphore_fires (hclock : ∀ k, s.ticks k = now) (hnow : now < 2 ^ 32)
    (hne : s.scheduledSemaphore ≠ 0) (hlt : s.scheduledTime < now)
    (hroom : s.semaphoreIndex + 1 < semaphoreListSize) :
    checkScheduledSemaphore s = some ((), { s with
      readings := s.readings + 1
      semaphoreIndex := s.semaphoreIndex + 1
      semaphoreList := fun i => if i = (s.semaphoreIndex + 1).toNat then s.scheduledSemaphore
        else s.semaphoreList i
      scheduledSemaphore := 0 }) := by
  refine Wp.run_eq ?_
  rw [checkScheduledSemaphore, wp_bind, wp_get, if_pos hne, wp_bind, getMsclock, wp_bind, wp_get,
    wp_bind, wp_set, wp_pure, hclock, Nat.mod_eq_of_lt hnow, if_pos hlt, wp_bind,
    asynchronousSignal, wp_bind, wp_modify, wp_bind, wp_get, wp_bind, wp_check]
  refine ⟨hroom, ?_⟩
  rw [wp_modify, wp_modify]
  exact ⟨rfl, rfl⟩

theorem runs_request {t delay : Nat} (h : msclockAt t ≤ msclockAt (t + 1000 * delay)) :
    (request t delay).Runs := by
  refine ⟨fun _ => rfl, by simp [request, standing, beforeEvents], ?_⟩
  exact checkScheduledSemaphore_waits (s := standing t 60 _) (fun _ => rfl) (msclockAt_lt t)
    (by simp [standing]) h

theorem runs_silentPoll {t msClockTime : Nat} (h : msclockAt t ≤ msClockTime) :
    (silentPoll t msClockTime).Runs := by
  refine ⟨fun _ => rfl, by simp [silentPoll, standing, beforeEvents], ?_⟩
  exact checkScheduledSemaphore_waits (s := standing t 60 _) (fun _ => rfl) (msclockAt_lt t)
    (by simp [standing]) h

theorem runs_firing {t msClockTime : Nat} {call : Call} {before : VirtualMachine}
    (hcode : call.code t before = checkScheduledSemaphore (standing t 60 msClockTime))
    (hbefore : before.ticks = (standing t 0 0).ticks ∧ before.semaphoreIndex = -1)
    (h : msClockTime < msclockAt t) : (firing t call before msClockTime).Runs := by
  refine ⟨fun k => congrFun hbefore.1 k, ?_, ?_⟩
  · show -1 ≤ before.semaphoreIndex ∧ before.semaphoreIndex + 1 < semaphoreListSize
    rw [hbefore.2]
    decide
  · show call.code t before = _
    rw [hcode, checkScheduledSemaphore_fires (fun _ => rfl) (msclockAt_lt t)
      (by simp [standing]) h (by simp [standing, beforeEvents])]
    rfl

theorem isRun_onTime : IsRun onTime := by
  refine ⟨⟨⟨trivial, runs_request (by decide), List.forall_mem_nil _, rfl⟩,
    runs_silentPoll (by decide), ?_, rfl⟩,
    runs_firing rfl ⟨rfl, rfl⟩ (by decide), ?_, rfl⟩
  · simp [silentPoll, request]
  · simp [firing, silentPoll, request]

theorem firesOnTime_onTime : FiresOnTime onTime := by
  have hrequest : ∀ semaphore deadline, Watched (request 0 1) [] semaphore deadline →
      deadline = 1000 := by
    intro semaphore deadline hw
    cases hw with
    | request hcall _ => cases hcall; rfl
  have hpoll : ∀ semaphore deadline, Watched (silentPoll 500 1) [request 0 1] semaphore deadline →
      deadline = 1000 := by
    intro semaphore deadline hw
    cases hw with
    | request hcall _ => cases hcall
    | poll _ hw _ => exact hrequest _ _ hw
  refine (firesOnTime_iff isRun_onTime).2 ⟨fun semaphore deadline hw => ?_,
    fun semaphore deadline hw => ?_, fun semaphore deadline hw => ?_, trivial⟩
  · cases hw with
    | request hcall _ => cases hcall
    | poll _ hw _ =>
        rw [hpoll _ _ hw]
        exact iff_of_true (by decide) (by decide)
  · rw [hpoll _ _ hw]
    exact iff_of_false (by decide) (by decide)
  · rw [hrequest _ _ hw]
    exact iff_of_false (by decide) (by decide)

theorem not_firesOnTime : (IsRun atDeadline ∧ ¬FiresOnTime atDeadline) ∧
    IsRun acrossWrap ∧ ¬FiresOnTime acrossWrap := by
  refine ⟨⟨?_, fun h => ?_⟩, ?_, fun h => ?_⟩
  · refine ⟨⟨trivial, runs_request (by decide), List.forall_mem_nil _, rfl⟩,
    runs_silentPoll (by decide), ?_, rfl⟩
    simp [silentPoll, request]
  · have hw : Watched (request 0 1) [] 60 (0 + 1000 * 1) := .request rfl (by decide)
    have hdue : Due (silentPoll 1000 1) [request 0 1] 60 :=
      ⟨1000, .poll rfl hw (by decide), by decide⟩
    exact absurd ((h.1 60).2 hdue) (by simp [Step.signalled, silentPoll])
  · exact ⟨trivial, runs_firing rfl ⟨rfl, rfl⟩ (by decide), List.forall_mem_nil _, rfl⟩
  · obtain ⟨deadline, hw, hle⟩ := (h.1 60).1 rfl
    cases hw with
    | request hcall _ =>
        cases hcall
        exact absurd hle (by decide)

end Timer

end Crosstalk
