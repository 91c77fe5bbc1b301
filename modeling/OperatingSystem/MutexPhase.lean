import OperatingSystem.MutexEffect
import OperatingSystem.Semaphore
import Mathlib.Tactic.MkIffOfInductiveProp

/-!
# The mutex is a first-come first-served semaphore

Those who executed `S--` are the arrivals of a semaphore, and its permits are the initial
`S` and one for each `S++`. `S` is always its value. While nobody holds the spinlock, the
queue is its queue and those granted so far are its grants; a thread that holds the
spinlock after its `S--` or `S++` has yet to move the queue along.
-/

namespace OperatingSystem.Locks

variable {T M : Type*}

/-- The mutex that a thread works on. -/
def Pc.mutex? : Pc T M → Option M
  | .outside => none
  | .acquire m _ => some m
  | .release m _ => some m

/-- The mutex whose spinlock a thread holds. -/
def Pc.inside : Pc T M → Option M
  | .outside => none
  | .acquire m line =>
      match line with
      | .cas | .sigwaitinfo | .done => none
      | _ => some m
  | .release m line =>
      match line with
      | .cas | .kill _ | .done => none
      | _ => some m

namespace State

variable (s : State T M) (k : Nat) (m : M)

/-- The semaphore of a mutex that had `S = k` initially. -/
def semaphore : Semaphore T :=
  ⟨(s.history m).decremented, k + (s.history m).incremented.length⟩

@[mk_iff] structure Shows (sem : Semaphore T) : Prop where
  granted : (s.history m).granted = sem.granted
  queue : (s.mutex m).queue = sem.waiting

/-- `t` executed `S--` and has neither passed nor queued up yet. -/
def Arriving (t : T) : Prop :=
  ∃ before : Semaphore T, before.arrive t = s.semaphore k m ∧ s.Shows m before

/-- A thread executed `S++` and has not dequeued anybody yet. -/
def Permitting : Prop :=
  ∃ before : Semaphore T, before.permit = s.semaphore k m ∧ s.Shows m before

/-- What holds while the spinlock is held by a thread at this statement. -/
def Phase (t : T) : Pc T M → Prop
  | .outside => s.Shows m (s.semaphore k m)
  | .acquire _ line =>
      match line with
      | .store S => S = (s.mutex m).S ∧ s.Shows m (s.semaphore k m)
      | .test => s.Arriving k m t
      | .addTail => s.Arriving k m t ∧ (s.mutex m).S < 0
      | .unlock => s.Arriving k m t ∧ 0 ≤ (s.mutex m).S
      | _ => s.Shows m (s.semaphore k m)
  | .release _ line =>
      match line with
      | .store S => S = (s.mutex m).S ∧ s.Shows m (s.semaphore k m)
      | .test => s.Permitting k m
      | .isEmpty | .first => s.Permitting k m ∧ (s.mutex m).S ≤ 0
      | .delete gthread =>
          s.Permitting k m ∧ (s.mutex m).S ≤ 0 ∧ (s.mutex m).queue.head? = some gthread
      | .unlock => s.Permitting k m ∧ 0 < (s.mutex m).S
      | _ => s.Shows m (s.semaphore k m)

/-- The invariant of one mutex; `holder` holds its spinlock. -/
structure Guarded (holder : Option T) : Prop where
  hold : (s.mutex m).hold = if holder = none then 0 else 1
  inside : ∀ t, (s.pc t).inside = some m ↔ holder = some t
  value : (s.mutex m).S = (s.semaphore k m).value
  idle : holder = none → s.Shows m (s.semaphore k m)
  busy : ∀ t, holder = some t → s.Phase k m t (s.pc t)

end State

variable {s next : State T M} {t : T} {k : Nat} {m : M} {holder : Option T}

/-! ## How a thread may change the invariant -/

/-- The entries of a history that the invariant of the mutex is about. -/
structure State.Same (s next : State T M) (m : M) : Prop where
  mutex : next.mutex m = s.mutex m
  decremented : (next.history m).decremented = (s.history m).decremented
  granted : (next.history m).granted = (s.history m).granted
  incremented : (next.history m).incremented = (s.history m).incremented

theorem State.Same.phase (hsame : s.Same next m) {u : T} {pc : Pc T M}
    (hphase : s.Phase k m u pc) : next.Phase k m u pc := by
  have hsemaphore : next.semaphore k m = s.semaphore k m := by
    simp only [State.semaphore, hsame.decremented, hsame.incremented]
  have hshows : next.Shows m = s.Shows m := by
    funext sem
    apply propext
    constructor
    · rintro ⟨hgranted, hqueue⟩
      exact ⟨hsame.granted ▸ hgranted, hsame.mutex ▸ hqueue⟩
    · rintro ⟨hgranted, hqueue⟩
      exact ⟨hsame.granted.symm ▸ hgranted, hsame.mutex.symm ▸ hqueue⟩
  unfold State.Phase State.Arriving State.Permitting at *
  rw [hsemaphore, hshows, hsame.mutex]
  exact hphase

namespace State.Guarded

/-- Whoever holds the spinlock, `t` does not before and after the step. -/
theorem of_frame (hguarded : s.Guarded k m holder) (hsame : s.Same next m)
    (hpc : ∀ u, u ≠ t → next.pc u = s.pc u) (hbefore : (s.pc t).inside ≠ some m)
    (hafter : (next.pc t).inside ≠ some m) : next.Guarded k m holder where
  hold := by rw [hsame.mutex, hguarded.hold]
  inside u := by
    by_cases hu : u = t
    · subst hu
      have hnot := mt (hguarded.inside u).mpr hbefore
      exact ⟨fun hinside => absurd hinside hafter, fun hinside => absurd hinside hnot⟩
    · rw [hpc u hu]
      exact hguarded.inside u
  value := by
    rw [hsame.mutex, hguarded.value, semaphore, semaphore, hsame.decremented, hsame.incremented]
  idle hholder := by
    have hphase : s.Phase k m t .outside := hguarded.idle hholder
    exact hsame.phase hphase
  busy u hholder := by
    have hu : u ≠ t := by
      rintro rfl
      exact hbefore ((hguarded.inside u).mpr hholder)
    rw [hpc u hu]
    exact hsame.phase (hguarded.busy u hholder)

theorem holder_eq (hguarded : s.Guarded k m holder) {pc : Pc T M}
    (hpc : s.pc t = pc) (hinside : pc.inside = some m) :
    s.Guarded k m (some t) ∧ s.Phase k m t pc := by
  have hholder : holder = some t := (hguarded.inside t).mp (hpc ▸ hinside)
  exact ⟨hholder ▸ hguarded, hpc ▸ hguarded.busy t hholder⟩

/-- `t` finds `hold` at zero. -/
theorem lock (hguarded : s.Guarded k m holder) (hfree : (s.mutex m).hold = 0)
    (hpc : ∀ u, u ≠ t → next.pc u = s.pc u) (hafter : (next.pc t).inside = some m)
    (hhold : (next.mutex m).hold = 1) (hvalue : (next.mutex m).S = (next.semaphore k m).value)
    (hphase : s.Shows m (s.semaphore k m) → next.Phase k m t (next.pc t)) :
    next.Guarded k m (some t) := by
  have hholder : holder = none := by
    by_contra hholder
    simp [hguarded.hold, hholder] at hfree
  subst hholder
  refine ⟨hhold, ?_, hvalue, nofun, ?_⟩
  · intro u
    by_cases hu : u = t
    · subst hu
      exact ⟨fun _ => rfl, fun _ => hafter⟩
    · rw [hpc u hu, hguarded.inside u]
      simp [Ne.symm hu]
  · rintro u ⟨⟩
    exact hphase (hguarded.idle rfl)

/-- `t` holds the spinlock, before and after the step. -/
theorem keep (hguarded : s.Guarded k m (some t)) (hpc : ∀ u, u ≠ t → next.pc u = s.pc u)
    (hafter : (next.pc t).inside = some m) (hhold : (next.mutex m).hold = (s.mutex m).hold)
    (hvalue : (next.mutex m).S = (next.semaphore k m).value)
    (hphase : next.Phase k m t (next.pc t)) : next.Guarded k m (some t) := by
  refine ⟨hhold.trans hguarded.hold, ?_, hvalue, nofun, ?_⟩
  · intro u
    by_cases hu : u = t
    · subst hu
      exact ⟨fun _ => rfl, fun _ => hafter⟩
    · rw [hpc u hu, hguarded.inside u]
  · rintro u ⟨⟩
    exact hphase

/-- `t` resets `hold`. -/
theorem unlock (hguarded : s.Guarded k m (some t)) (hpc : ∀ u, u ≠ t → next.pc u = s.pc u)
    (hafter : (next.pc t).inside ≠ some m) (hhold : (next.mutex m).hold = 0)
    (hvalue : (next.mutex m).S = (next.semaphore k m).value)
    (hshows : next.Shows m (next.semaphore k m)) : next.Guarded k m none := by
  refine ⟨hhold, ?_, hvalue, fun _ => hshows, nofun⟩
  intro u
  by_cases hu : u = t
  · subst hu
    exact ⟨fun hinside => absurd hinside hafter, nofun⟩
  · rw [hpc u hu, hguarded.inside u]
    simp [Ne.symm hu]

end State.Guarded

/-! ## What the holder of the spinlock is about to do -/

section Holder

variable (hvalue : (s.mutex m).S = (s.semaphore k m).value)

include hvalue

theorem State.Arriving.queue_up (harriving : s.Arriving k m t) (hS : (s.mutex m).S < 0) :
    (s.history m).granted = (s.semaphore k m).granted ∧
      (s.mutex m).queue ++ [t] = (s.semaphore k m).waiting := by
  obtain ⟨before, harrive, hshows⟩ := harriving
  rw [hvalue, ← harrive] at hS
  obtain ⟨hgranted, hwaiting⟩ := before.arrive_waiting hS
  rw [← harrive, hgranted, hwaiting, hshows.granted, hshows.queue]
  exact ⟨rfl, rfl⟩

theorem State.Arriving.pass (harriving : s.Arriving k m t) (hS : 0 ≤ (s.mutex m).S) :
    (s.history m).granted ++ [t] = (s.semaphore k m).granted ∧
      (s.mutex m).queue = (s.semaphore k m).waiting := by
  obtain ⟨before, harrive, hshows⟩ := harriving
  rw [hvalue, ← harrive] at hS
  obtain ⟨hgranted, hwaiting⟩ := before.arrive_granted hS
  rw [← harrive, hgranted, hwaiting, hshows.granted, hshows.queue]
  exact ⟨rfl, rfl⟩

theorem State.Permitting.wake (hpermitting : s.Permitting k m) (hS : (s.mutex m).S ≤ 0) :
    ∃ first, (s.mutex m).queue = first :: (s.semaphore k m).waiting ∧
      (s.history m).granted ++ [first] = (s.semaphore k m).granted := by
  obtain ⟨before, hpermit, hshows⟩ := hpermitting
  rw [hvalue, ← hpermit] at hS
  obtain ⟨first, hwaiting, hgranted⟩ := before.permit_granted hS
  refine ⟨first, ?_, ?_⟩
  · rw [hshows.queue, hwaiting, hpermit]
  · rw [hshows.granted, ← hgranted, hpermit]

theorem State.Permitting.pass (hpermitting : s.Permitting k m) (hS : 0 < (s.mutex m).S) :
    s.Shows m (s.semaphore k m) := by
  obtain ⟨before, hpermit, hshows⟩ := hpermitting
  rw [hvalue, ← hpermit] at hS
  obtain ⟨hgranted, hwaiting⟩ := before.permit_waiting hS
  rw [← hpermit]
  exact ⟨hshows.granted.trans hgranted.symm, hshows.queue.trans hwaiting.symm⟩

end Holder

/-- Some of the history may not show yet. -/
structure State.Lags (s : State T M) (k : Nat) (m : M) (before : Semaphore T) : Prop where
  shows : s.Shows m before
  arrivals : before.arrivals <+: (s.history m).decremented
  permits : before.permits ≤ k + (s.history m).incremented.length

theorem State.Arriving.lags (harriving : s.Arriving k m t) : ∃ before, s.Lags k m before := by
  obtain ⟨before, harrive, hshows⟩ := harriving
  refine ⟨before, hshows, ⟨[t], congrArg Semaphore.arrivals harrive⟩, ?_⟩
  exact (congrArg Semaphore.permits harrive).le

theorem State.Permitting.lags (hpermitting : s.Permitting k m) :
    ∃ before, s.Lags k m before := by
  obtain ⟨before, hpermit, hshows⟩ := hpermitting
  have harrivals : before.arrivals = (s.history m).decremented :=
    congrArg Semaphore.arrivals hpermit
  have hpermits : before.permits + 1 = k + (s.history m).incremented.length :=
    congrArg Semaphore.permits hpermit
  exact ⟨before, hshows, harrivals ▸ List.prefix_rfl, by omega⟩

theorem State.Shows.lags (hshows : s.Shows m (s.semaphore k m)) :
    ∃ before, s.Lags k m before :=
  ⟨_, hshows, List.prefix_rfl, le_rfl⟩

theorem State.Phase.lags {pc : Pc T M} (hphase : s.Phase k m t pc) :
    ∃ before, s.Lags k m before := by
  cases pc with
  | outside => exact State.Shows.lags hphase
  | acquire m' line =>
      cases line with
      | store S => exact hphase.2.lags
      | test => exact State.Arriving.lags hphase
      | addTail => exact hphase.1.lags
      | unlock => exact hphase.1.lags
      | _ => exact State.Shows.lags hphase
  | release m' line =>
      cases line with
      | store S => exact hphase.2.lags
      | test => exact State.Permitting.lags hphase
      | isEmpty => exact hphase.1.lags
      | first => exact hphase.1.lags
      | delete g => exact hphase.1.lags
      | unlock => exact hphase.1.lags
      | _ => exact State.Shows.lags hphase

theorem State.Guarded.lags (hguarded : s.Guarded k m holder) : ∃ before, s.Lags k m before := by
  cases holder with
  | none => exact (hguarded.idle rfl).lags
  | some t => exact (hguarded.busy t rfl).lags

/-- A releaser that finds `S ≤ 0` finds somebody in the queue. -/
theorem State.Guarded.queue_ne_nil (hguarded : s.Guarded k m holder)
    (hpc : s.pc t = .release m .isEmpty) : (s.mutex m).queue ≠ [] := by
  obtain ⟨hguarded, hpermitting, hS⟩ := hguarded.holder_eq hpc rfl
  obtain ⟨first, hqueue, _⟩ := hpermitting.wake hguarded.value hS
  rw [hqueue]
  exact List.cons_ne_nil _ _

theorem guarded_init {init : M → Nat} : (initState init : State T M).Guarded (init m) m none where
  hold := rfl
  inside t := by simp [initState, Pc.inside]
  value := by simp [initState, State.semaphore, Semaphore.value]
  idle _ := by
    constructor
    · simp [initState, State.semaphore, Semaphore.granted]
    · simp [initState, State.semaphore, Semaphore.waiting]
  busy := nofun

/-! ## The steps -/

variable [DecidableEq T]

/-- `t` holds the spinlock and moves on. -/
theorem State.Guarded.goto (hguarded : s.Guarded k m (some t)) {pc : Pc T M}
    (hinside : pc.inside = some m) (hphase : s.Phase k m t pc) :
    (s.goto t pc).Guarded k m (some t) := by
  have hsame : s.Same (s.goto t pc) m := ⟨rfl, rfl, rfl, rfl⟩
  refine hguarded.keep (fun u hu => by simp [hu]) (by simpa using hinside) rfl hguarded.value ?_
  rw [State.goto_pc, Function.update_self]
  exact hsame.phase hphase

variable [DecidableEq M]

/-- `t` resets `hold` when everything shows. -/
theorem State.Guarded.unlock_goto (hguarded : s.Guarded k m (some t)) {pc : Pc T M}
    (hoff : pc.inside ≠ some m) (hshows : s.Shows m (s.semaphore k m)) :
    ((s.setHold m 0).goto t pc).Guarded k m none := by
  refine hguarded.unlock (fun u hu => by simp [hu]) (by simpa using hoff) (by simp) ?_ ?_
  · simpa [State.semaphore] using hguarded.value
  · simpa [State.shows_iff, State.semaphore] using hshows

/-- `t` sets `hold` and is about to load `S`. -/
theorem State.Guarded.lock_goto (hguarded : s.Guarded k m holder) (hfree : (s.mutex m).hold = 0)
    {pc : Pc T M} (hinside : pc.inside = some m)
    (hphase : ∀ s : State T M, s.Shows m (s.semaphore k m) → s.Phase k m t pc) :
    ((s.setHold m 1).goto t pc).Guarded k m (some t) := by
  refine hguarded.lock hfree (fun u hu => by simp [hu]) (by simpa using hinside) (by simp) ?_ ?_
  · simpa [State.semaphore] using hguarded.value
  · intro hshows
    rw [State.goto_pc, Function.update_self]
    apply hphase
    simpa [State.shows_iff, State.semaphore] using hshows

omit [DecidableEq T] [DecidableEq M] in
theorem Pc.mutex?_of_inside {pc : Pc T M} (hinside : pc.inside = some m) :
    pc.mutex? = some m := by
  cases pc with
  | outside => cases hinside
  | acquire m' line => cases line <;> first | exact hinside | cases hinside
  | release m' line => cases line <;> first | exact hinside | cases hinside

/-- It touches only the mutex that `t` works on. -/
theorem Effect.elsewhere (heffect : Effect s t next) (hm : (s.pc t).mutex? ≠ some m) :
    next.mutex m = s.mutex m ∧ next.history m = s.history m := by
  have hne : ∀ m', (s.pc t).mutex? = some m' → ¬ m = m' := by
    intro m' hm' heq
    exact hm (heq ▸ hm')
  cases heffect <;> simp_all [Pc.mutex?]

/-- Nobody enters a mutex but through the compare-and-swap on it. -/
theorem Effect.inside_mutex? (heffect : Effect s t next) (hinside : (next.pc t).inside = some m) :
    (s.pc t).mutex? = some m := by
  cases heffect
  case call c hpc => cases c <;> simp [Call.entry, Pc.inside] at hinside
  case spin => exact Pc.mutex?_of_inside hinside
  all_goals simp_all [Pc.mutex?, Pc.inside]

/-- A step of `t` on the mutex that it works on. -/
theorem Effect.guarded_at (heffect : Effect s t next) (hm : (s.pc t).mutex? = some m)
    (hguarded : s.Guarded k m holder) : ∃ holder, next.Guarded k m holder := by
  have hothers : ∀ u, u ≠ t → next.pc u = s.pc u := fun u hu => heffect.pc_of_ne hu
  have hvalue := hguarded.value
  cases heffect with
  | call c hpc => simp [hpc, Pc.mutex?] at hm
  | spin => exact ⟨holder, hguarded⟩
  | acquireCas m' hpc hfree =>
      obtain rfl : m' = m := by simpa [hpc, Pc.mutex?] using hm
      exact ⟨some t, hguarded.lock_goto hfree rfl fun _ hshows => hshows⟩
  | acquireLoad m' hpc =>
      obtain rfl : m' = m := by simpa [hpc, Pc.mutex?] using hm
      obtain ⟨hguarded, hshows⟩ := hguarded.holder_eq hpc rfl
      exact ⟨some t, hguarded.goto rfl ⟨rfl, hshows⟩⟩
  | acquireStore m' S hpc =>
      obtain rfl : m' = m := by simpa [hpc, Pc.mutex?] using hm
      obtain ⟨hguarded, hS, hshows⟩ := hguarded.holder_eq hpc rfl
      have harrive : (s.semaphore k m').arrive t =
          (((s.setS m' (S - 1)).decrement m' t).goto t (.acquire m' .test)).semaphore k m' := by
        simp [State.semaphore, Semaphore.arrive]
      refine ⟨some t, hguarded.keep hothers (by simp [Pc.inside]) (by simp) ?_ ?_⟩
      · rw [← harrive, Semaphore.arrive_value, ← hvalue, ← hS]
        simp
      · simp only [State.goto_pc, Function.update_self, State.Phase]
        exact ⟨s.semaphore k m', harrive, by simpa [State.shows_iff] using hshows⟩
  | acquireSleep m' hpc hS =>
      obtain rfl : m' = m := by simpa [hpc, Pc.mutex?] using hm
      obtain ⟨hguarded, harriving⟩ := hguarded.holder_eq hpc rfl
      exact ⟨some t, hguarded.goto rfl ⟨harriving, hS⟩⟩
  | acquirePass m' hpc hS =>
      obtain rfl : m' = m := by simpa [hpc, Pc.mutex?] using hm
      obtain ⟨hguarded, harriving⟩ := hguarded.holder_eq hpc rfl
      exact ⟨some t, hguarded.goto rfl ⟨harriving, hS⟩⟩
  | addTail m' hpc =>
      obtain rfl : m' = m := by simpa [hpc, Pc.mutex?] using hm
      obtain ⟨hguarded, harriving, hS⟩ := hguarded.holder_eq hpc rfl
      have hqueue := harriving.queue_up hvalue hS
      refine ⟨some t, hguarded.keep hothers (by simp [Pc.inside]) (by simp) ?_ ?_⟩
      · simpa [State.semaphore] using hvalue
      · simpa [State.Phase, State.shows_iff, State.semaphore] using hqueue
  | sigprocmask m' hpc =>
      obtain rfl : m' = m := by simpa [hpc, Pc.mutex?] using hm
      obtain ⟨hguarded, hshows⟩ := hguarded.holder_eq hpc rfl
      have hsame : s.Same ((s.block t).goto t (.acquire m' .unlockWait)) m' :=
        ⟨rfl, rfl, rfl, rfl⟩
      refine ⟨some t, hguarded.keep hothers (by simp [Pc.inside]) rfl hvalue ?_⟩
      rw [State.goto_pc, Function.update_self]
      exact hsame.phase hshows
  | unlockWait m' hpc =>
      obtain rfl : m' = m := by simpa [hpc, Pc.mutex?] using hm
      obtain ⟨hguarded, hshows⟩ := hguarded.holder_eq hpc rfl
      exact ⟨none, hguarded.unlock_goto (by simp [Pc.inside]) hshows⟩
  | sigwaitinfo m' hpc hpending =>
      obtain rfl : m' = m := by simpa [hpc, Pc.mutex?] using hm
      exact ⟨holder, hguarded.of_frame ⟨rfl, rfl, rfl, rfl⟩ hothers (by simp [hpc, Pc.inside])
        (by simp [Pc.inside])⟩
  | acquireUnlock m' hpc =>
      obtain rfl : m' = m := by simpa [hpc, Pc.mutex?] using hm
      obtain ⟨hguarded, harriving, hS⟩ := hguarded.holder_eq hpc rfl
      have hpass := harriving.pass hvalue hS
      refine ⟨none, hguarded.unlock hothers (by simp [Pc.inside]) (by simp) ?_ ?_⟩
      · simpa [State.semaphore] using hvalue
      · simpa [State.shows_iff, State.semaphore] using hpass
  | acquireDone m' hpc =>
      obtain rfl : m' = m := by simpa [hpc, Pc.mutex?] using hm
      refine ⟨holder, hguarded.of_frame ⟨rfl, ?_, ?_, ?_⟩ hothers (by simp [hpc, Pc.inside])
        (by simp [Pc.inside])⟩
      · simp
      · simp
      · simp
  | releaseCas m' hpc hfree =>
      obtain rfl : m' = m := by simpa [hpc, Pc.mutex?] using hm
      exact ⟨some t, hguarded.lock_goto hfree rfl fun _ hshows => hshows⟩
  | releaseLoad m' hpc =>
      obtain rfl : m' = m := by simpa [hpc, Pc.mutex?] using hm
      obtain ⟨hguarded, hshows⟩ := hguarded.holder_eq hpc rfl
      exact ⟨some t, hguarded.goto rfl ⟨rfl, hshows⟩⟩
  | releaseStore m' S hpc =>
      obtain rfl : m' = m := by simpa [hpc, Pc.mutex?] using hm
      obtain ⟨hguarded, hS, hshows⟩ := hguarded.holder_eq hpc rfl
      have hpermit : (s.semaphore k m').permit =
          (((s.setS m' (S + 1)).increment m' t).goto t (.release m' .test)).semaphore k m' := by
        simp [State.semaphore, Semaphore.permit, Nat.add_assoc]
      refine ⟨some t, hguarded.keep hothers (by simp [Pc.inside]) (by simp) ?_ ?_⟩
      · rw [← hpermit, Semaphore.permit_value, ← hvalue, ← hS]
        simp
      · simp only [State.goto_pc, Function.update_self, State.Phase]
        exact ⟨s.semaphore k m', hpermit, by simpa [State.shows_iff] using hshows⟩
  | releaseWake m' hpc hS =>
      obtain rfl : m' = m := by simpa [hpc, Pc.mutex?] using hm
      obtain ⟨hguarded, hpermitting⟩ := hguarded.holder_eq hpc rfl
      exact ⟨some t, hguarded.goto rfl ⟨hpermitting, hS⟩⟩
  | releasePass m' hpc hS =>
      obtain rfl : m' = m := by simpa [hpc, Pc.mutex?] using hm
      obtain ⟨hguarded, hpermitting⟩ := hguarded.holder_eq hpc rfl
      exact ⟨some t, hguarded.goto rfl ⟨hpermitting, hS⟩⟩
  | isEmpty m' hpc hqueue =>
      obtain rfl : m' = m := by simpa [hpc, Pc.mutex?] using hm
      exact absurd hqueue (hguarded.queue_ne_nil hpc)
  | notEmpty m' hpc hqueue =>
      obtain rfl : m' = m := by simpa [hpc, Pc.mutex?] using hm
      obtain ⟨hguarded, hpermitting⟩ := hguarded.holder_eq hpc rfl
      exact ⟨some t, hguarded.goto rfl hpermitting⟩
  | first m' g rest hpc hqueue =>
      obtain rfl : m' = m := by simpa [hpc, Pc.mutex?] using hm
      obtain ⟨hguarded, hpermitting, hS⟩ := hguarded.holder_eq hpc rfl
      exact ⟨some t, hguarded.goto rfl ⟨hpermitting, hS, by rw [hqueue]; rfl⟩⟩
  | delete m' g hpc =>
      obtain rfl : m' = m := by simpa [hpc, Pc.mutex?] using hm
      obtain ⟨hguarded, hpermitting, hS, hhead⟩ := hguarded.holder_eq hpc rfl
      obtain ⟨first, hqueue, hgranted⟩ := hpermitting.wake hvalue hS
      obtain rfl : first = g := by simpa [hqueue] using hhead
      refine ⟨some t, hguarded.keep hothers (by simp [Pc.inside]) (by simp) ?_ ?_⟩
      · simpa [State.semaphore] using hvalue
      · simpa [State.Phase, State.shows_iff, State.semaphore, hqueue] using hgranted
  | unlockKill m' g hpc =>
      obtain rfl : m' = m := by simpa [hpc, Pc.mutex?] using hm
      obtain ⟨hguarded, hshows⟩ := hguarded.holder_eq hpc rfl
      exact ⟨none, hguarded.unlock_goto (by simp [Pc.inside]) hshows⟩
  | kill m' g hpc =>
      obtain rfl : m' = m := by simpa [hpc, Pc.mutex?] using hm
      refine ⟨holder, hguarded.of_frame ⟨?_, ?_, ?_, ?_⟩ hothers (by simp [hpc, Pc.inside])
        (by simp [Pc.inside])⟩
      · simp
      · simp
      · simp
      · simp
  | releaseUnlock m' hpc =>
      obtain rfl : m' = m := by simpa [hpc, Pc.mutex?] using hm
      obtain ⟨hguarded, hpermitting, hS⟩ := hguarded.holder_eq hpc rfl
      exact ⟨none, hguarded.unlock_goto (by simp [Pc.inside]) (hpermitting.pass hvalue hS)⟩
  | releaseDone m' hpc =>
      obtain rfl : m' = m := by simpa [hpc, Pc.mutex?] using hm
      exact ⟨holder, hguarded.of_frame ⟨rfl, rfl, rfl, rfl⟩ hothers (by simp [hpc, Pc.inside])
        (by simp [Pc.inside])⟩

/-- Every step keeps the invariant of every mutex. -/
theorem Effect.guarded (heffect : Effect s t next) (hguarded : s.Guarded k m holder) :
    ∃ holder, next.Guarded k m holder := by
  by_cases hm : (s.pc t).mutex? = some m
  · exact heffect.guarded_at hm hguarded
  · have hnotinside : (next.pc t).inside ≠ some m := mt heffect.inside_mutex? hm
    obtain ⟨hmutex, hhistory⟩ := heffect.elsewhere hm
    refine ⟨holder, hguarded.of_frame ?_ (fun u hu => heffect.pc_of_ne hu)
      (mt Pc.mutex?_of_inside hm) hnotinside⟩
    exact ⟨hmutex, by rw [hhistory], by rw [hhistory], by rw [hhistory]⟩

section Reachable

variable {init : M → Nat} {guard : State T M → T → Call M → Prop}
  (hreach : (machine init guard).Reachable s)

include hreach

theorem reachable_guarded (m : M) : ∃ holder, s.Guarded (init m) m holder := by
  apply hreach.invariant fun s => ∃ holder, s.Guarded (init m) m holder
  · exact ⟨none, guarded_init⟩
  · intro state label next _ hguarded hstep
    obtain ⟨holder, hguarded⟩ := hguarded
    exact (machine_effect hstep).guarded hguarded

/-- The queue is as long as `S` says whenever the spinlock is free. -/
theorem queue_length (hfree : (s.mutex m).hold = 0) :
    ((s.mutex m).queue.length : Int) = max 0 (-(s.mutex m).S) := by
  obtain ⟨holder, hguarded⟩ := reachable_guarded hreach m
  have hholder : holder = none := by
    by_contra hholder
    simp [hguarded.hold, hholder] at hfree
  rw [(hguarded.idle hholder).queue, hguarded.value]
  exact Semaphore.waiting_length _

theorem queue_ne_nil (hpc : s.pc t = .release m .isEmpty) : (s.mutex m).queue ≠ [] := by
  obtain ⟨holder, hguarded⟩ := reachable_guarded hreach m
  exact hguarded.queue_ne_nil hpc

theorem granted_length_le (m : M) :
    (s.history m).granted.length ≤ init m + (s.history m).incremented.length := by
  obtain ⟨holder, hguarded⟩ := reachable_guarded hreach m
  obtain ⟨before, hlags⟩ := hguarded.lags
  rw [hlags.shows.granted]
  exact before.granted_length_le.trans hlags.permits

theorem granted_isPrefix (m : M) : (s.history m).granted <+: (s.history m).decremented := by
  obtain ⟨holder, hguarded⟩ := reachable_guarded hreach m
  obtain ⟨before, hlags⟩ := hguarded.lags
  rw [hlags.shows.granted]
  exact before.granted_isPrefix.trans hlags.arrivals

end Reachable

end OperatingSystem.Locks
