import OperatingSystem.Mutex

/-!
# What one step of the mutex does

The list of the steps of a thread, with the statement that it executes and the branch
that it takes. The invariants are proved from this list alone.
-/

namespace OperatingSystem.Locks

variable {T M : Type*} [DecidableEq T] [DecidableEq M]

/-- `Effect s t next`: a step of thread `t` leads from `s` to `next`. -/
inductive Effect (s : State T M) (t : T) : State T M → Prop
  | call (c : Call M) (hpc : s.pc t = .outside) : Effect s t (s.goto t c.entry)
  | spin : Effect s t s
  | acquireCas (m : M) (hpc : s.pc t = .acquire m .cas) (hfree : (s.mutex m).hold = 0) :
      Effect s t ((s.setHold m 1).goto t (.acquire m .load))
  | acquireLoad (m : M) (hpc : s.pc t = .acquire m .load) :
      Effect s t (s.goto t (.acquire m (.store (s.mutex m).S)))
  | acquireStore (m : M) (S : Int) (hpc : s.pc t = .acquire m (.store S)) :
      Effect s t (((s.setS m (S - 1)).decrement m t).goto t (.acquire m .test))
  | acquireSleep (m : M) (hpc : s.pc t = .acquire m .test) (hS : (s.mutex m).S < 0) :
      Effect s t (s.goto t (.acquire m .addTail))
  | acquirePass (m : M) (hpc : s.pc t = .acquire m .test) (hS : 0 ≤ (s.mutex m).S) :
      Effect s t (s.goto t (.acquire m .unlock))
  | addTail (m : M) (hpc : s.pc t = .acquire m .addTail) :
      Effect s t ((s.setQueue m ((s.mutex m).queue ++ [t])).goto t (.acquire m .sigprocmask))
  | sigprocmask (m : M) (hpc : s.pc t = .acquire m .sigprocmask) :
      Effect s t ((s.block t).goto t (.acquire m .unlockWait))
  | unlockWait (m : M) (hpc : s.pc t = .acquire m .unlockWait) :
      Effect s t ((s.setHold m 0).goto t (.acquire m .sigwaitinfo))
  | sigwaitinfo (m : M) (hpc : s.pc t = .acquire m .sigwaitinfo) (hpending : s.pending t = true) :
      Effect s t ((s.setPending t false).goto t (.acquire m .done))
  | acquireUnlock (m : M) (hpc : s.pc t = .acquire m .unlock) :
      Effect s t (((s.setHold m 0).grant m t).goto t (.acquire m .done))
  | acquireDone (m : M) (hpc : s.pc t = .acquire m .done) :
      Effect s t ((s.giveBack m t).goto t .outside)
  | releaseCas (m : M) (hpc : s.pc t = .release m .cas) (hfree : (s.mutex m).hold = 0) :
      Effect s t ((s.setHold m 1).goto t (.release m .load))
  | releaseLoad (m : M) (hpc : s.pc t = .release m .load) :
      Effect s t (s.goto t (.release m (.store (s.mutex m).S)))
  | releaseStore (m : M) (S : Int) (hpc : s.pc t = .release m (.store S)) :
      Effect s t (((s.setS m (S + 1)).increment m t).goto t (.release m .test))
  | releaseWake (m : M) (hpc : s.pc t = .release m .test) (hS : (s.mutex m).S ≤ 0) :
      Effect s t (s.goto t (.release m .isEmpty))
  | releasePass (m : M) (hpc : s.pc t = .release m .test) (hS : 0 < (s.mutex m).S) :
      Effect s t (s.goto t (.release m .unlock))
  | isEmpty (m : M) (hpc : s.pc t = .release m .isEmpty) (hqueue : (s.mutex m).queue = []) :
      Effect s t (s.goto t (.release m .done))
  | notEmpty (m : M) (hpc : s.pc t = .release m .isEmpty) (hqueue : (s.mutex m).queue ≠ []) :
      Effect s t (s.goto t (.release m .first))
  | first (m : M) (g : T) (rest : List T) (hpc : s.pc t = .release m .first)
      (hqueue : (s.mutex m).queue = g :: rest) :
      Effect s t (s.goto t (.release m (.delete g)))
  | delete (m : M) (g : T) (hpc : s.pc t = .release m (.delete g)) :
      Effect s t (((s.setQueue m ((s.mutex m).queue.erase g)).grant m g).goto t
        (.release m (.unlockKill g)))
  | unlockKill (m : M) (g : T) (hpc : s.pc t = .release m (.unlockKill g)) :
      Effect s t ((s.setHold m 0).goto t (.release m (.kill g)))
  | kill (m : M) (g : T) (hpc : s.pc t = .release m (.kill g)) :
      Effect s t ((s.pthreadKill g).goto t (.release m .done))
  | releaseUnlock (m : M) (hpc : s.pc t = .release m .unlock) :
      Effect s t ((s.setHold m 0).goto t (.release m .done))
  | releaseDone (m : M) (hpc : s.pc t = .release m .done) : Effect s t (s.goto t .outside)

variable {s next : State T M} {t : T} {m : M}

/-- A compare-and-swap that fails changes nothing. -/
theorem State.spin_eq (s : State T M) (m : M) (t : T) :
    (s.setHold m (s.mutex m).hold).goto t (s.pc t) = s := by
  apply State.ext
  · show Function.update s.mutex m (s.mutex m) = s.mutex
    exact Function.update_eq_self _ _
  · rfl
  · show Function.update s.pc t (s.pc t) = s.pc
    exact Function.update_eq_self _ _
  · rfl
  · rfl
  · rfl

theorem acquireMutex_effect {line : AcquirePc} (hpc : s.pc t = .acquire m line)
    (hstep : s.acquireMutex m t line = some next) : Effect s t next := by
  cases line with
  | cas =>
      by_cases hfree : (s.mutex m).hold = 0
      · obtain rfl : _ = next := by simpa [State.acquireMutex, compareAndSwap, hfree] using hstep
        exact .acquireCas m hpc hfree
      · have hnext : (s.setHold m (s.mutex m).hold).goto t (.acquire m .cas) = next := by
          simpa [State.acquireMutex, compareAndSwap, hfree, -State.setHold] using hstep
        rw [← hpc, s.spin_eq] at hnext
        cases hnext
        exact .spin
  | load => cases hstep; exact .acquireLoad m hpc
  | store S => cases hstep; exact .acquireStore m S hpc
  | test =>
      by_cases hS : (s.mutex m).S < 0
      · obtain rfl : _ = next := by simpa [State.acquireMutex, hS] using hstep
        exact .acquireSleep m hpc hS
      · obtain rfl : _ = next := by simpa [State.acquireMutex, hS] using hstep
        exact .acquirePass m hpc (Int.not_lt.mp hS)
  | addTail => cases hstep; exact .addTail m hpc
  | sigprocmask => cases hstep; exact .sigprocmask m hpc
  | unlockWait => cases hstep; exact .unlockWait m hpc
  | sigwaitinfo =>
      simp only [State.acquireMutex, Option.ite_none_right_eq_some] at hstep
      obtain ⟨hpending, heq⟩ := hstep
      cases heq
      exact .sigwaitinfo m hpc hpending
  | unlock => cases hstep; exact .acquireUnlock m hpc
  | done => cases hstep; exact .acquireDone m hpc

theorem releaseMutex_effect {line : ReleasePc T} (hpc : s.pc t = .release m line)
    (hstep : s.releaseMutex m t line = some next) : Effect s t next := by
  cases line with
  | cas =>
      by_cases hfree : (s.mutex m).hold = 0
      · obtain rfl : _ = next := by simpa [State.releaseMutex, compareAndSwap, hfree] using hstep
        exact .releaseCas m hpc hfree
      · have hnext : (s.setHold m (s.mutex m).hold).goto t (.release m .cas) = next := by
          simpa [State.releaseMutex, compareAndSwap, hfree, -State.setHold] using hstep
        rw [← hpc, s.spin_eq] at hnext
        cases hnext
        exact .spin
  | load => cases hstep; exact .releaseLoad m hpc
  | store S => cases hstep; exact .releaseStore m S hpc
  | test =>
      by_cases hS : (s.mutex m).S ≤ 0
      · obtain rfl : _ = next := by simpa [State.releaseMutex, hS] using hstep
        exact .releaseWake m hpc hS
      · obtain rfl : _ = next := by simpa [State.releaseMutex, hS] using hstep
        exact .releasePass m hpc (Int.not_le.mp hS)
  | isEmpty =>
      by_cases hqueue : (s.mutex m).queue = []
      · obtain rfl : _ = next := by simpa [State.releaseMutex, hqueue] using hstep
        exact .isEmpty m hpc hqueue
      · obtain rfl : _ = next := by simpa [State.releaseMutex, hqueue] using hstep
        exact .notEmpty m hpc hqueue
  | first =>
      obtain ⟨g, hhead, rfl⟩ := Option.map_eq_some_iff.mp hstep
      obtain ⟨rest, hqueue⟩ := List.head?_eq_some_iff.mp hhead
      exact .first m g rest hpc hqueue
  | delete g => cases hstep; exact .delete m g hpc
  | unlockKill g => cases hstep; exact .unlockKill m g hpc
  | kill g => cases hstep; exact .kill m g hpc
  | unlock => cases hstep; exact .releaseUnlock m hpc
  | done => cases hstep; exact .releaseDone m hpc

theorem step_effect (hstep : s.step t = some next) : Effect s t next := by
  simp only [State.step] at hstep
  split at hstep
  · cases hstep
  · split at hstep
    · cases hstep
    · exact acquireMutex_effect ‹_› hstep
    · exact releaseMutex_effect ‹_› hstep

/-- A step of `t` moves nobody else. -/
theorem Effect.pc_of_ne (heffect : Effect s t next) {u : T} (hu : u ≠ t) :
    next.pc u = s.pc u := by
  cases heffect <;> simp [hu]

def Label.thread : Label T M → T
  | .call t _ => t
  | .step t => t

theorem machine_effect {k : M → Nat} {guard : State T M → T → Call M → Prop}
    {label : Label T M} (hstep : (machine k guard).step s label next) :
    Effect s label.thread next := by
  obtain ⟨_, hact⟩ := hstep
  cases label with
  | call t c =>
      simp only [State.act, Option.ite_none_right_eq_some] at hact
      obtain ⟨⟨_, hpc⟩, heq⟩ := hact
      cases heq
      exact .call c hpc
  | step t => exact step_effect hact

end OperatingSystem.Locks
