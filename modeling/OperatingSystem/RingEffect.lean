import OperatingSystem.RingBuffer
import OperatingSystem.MutexEffect

/-!
# What one step of the ring buffer does

The list of the steps of a thread. A thread that is inside a call is at the statement with
that call, so the list says what the thread does when the call returns. The mutexes take
steps of their own machine.
-/

namespace OperatingSystem.Locks

variable {T M : Type*}

/-- The call that a thread is in. -/
def Pc.within : Pc T M → Option (Call M)
  | .outside => none
  | .acquire m _ => some (.acquire m)
  | .release m _ => some (.release m)

theorem Pc.within_eq_none {pc : Pc T M} : pc.within = none ↔ pc = .outside := by
  cases pc <;> simp [Pc.within]

variable [DecidableEq T] [DecidableEq M] {s next : State T M} {t : T}

/-- A thread stays in the call that it is in until it returns. -/
theorem Effect.within_eq (heffect : Effect s t next) (hbefore : s.pc t ≠ .outside)
    (hafter : next.pc t ≠ .outside) : (next.pc t).within = (s.pc t).within := by
  cases heffect <;> simp_all [Pc.within]

theorem Effect.return (heffect : Effect s t next) (hbefore : s.pc t ≠ .outside)
    (hafter : next.pc t = .outside) :
    (∃ m, s.pc t = .acquire m .done ∧ next = (s.giveBack m t).goto t .outside) ∨
      ∃ m, s.pc t = .release m .done ∧ next = s.goto t .outside := by
  cases heffect
  case call c hpc => exact absurd hpc hbefore
  case spin => exact absurd hafter hbefore
  case acquireDone m hpc => exact .inl ⟨m, hpc, rfl⟩
  case releaseDone m hpc => exact .inr ⟨m, hpc, rfl⟩
  all_goals simp at hafter

end OperatingSystem.Locks

namespace OperatingSystem.Ring

open Locks (Call Pc)

variable {T : Type*} [DecidableEq T]

/-- A thread that is in a call is at the statement with that call. -/
def Ringbuffer.Aligned (r : Ringbuffer T) : Prop :=
  ∀ t c, (r.locks.pc t).within = some c → (r.stage t).call = some c

/-- `Effect r t next`: a step of thread `t` leads from `r` to `next`. -/
inductive Effect (r : Ringbuffer T) (t : T) : Ringbuffer T → Prop
  | begin (op : Operation) (hstage : r.stage t = .idle) : Effect r t (r.goto t op.entry)
  | call (c : Call Sem) (hpc : r.locks.pc t = .outside) (hcall : (r.stage t).call = some c) :
      Effect r t (r.setLocks (r.locks.goto t c.entry))
  | inside (locks : Locks.State T Sem) (heffect : Locks.Effect r.locks t locks)
      (hbefore : r.locks.pc t ≠ .outside) (hafter : locks.pc t ≠ .outside) :
      Effect r t (r.setLocks locks)
  | enqueueSema (v : Int) (hstage : r.stage t = .enqueue v .acquireSema)
      (hpc : r.locks.pc t = .acquire .sema .done) :
      Effect r t ((r.setLocks ((r.locks.giveBack .sema t).goto t .outside)).goto t
        (.enqueue v .acquireMutex))
  | enqueueMutex (v : Int) (hstage : r.stage t = .enqueue v .acquireMutex)
      (hpc : r.locks.pc t = .acquire .mutex .done) :
      Effect r t ((r.setLocks ((r.locks.giveBack .mutex t).goto t .outside)).goto t
        (.enqueue v .loadIn))
  | loadIn (v : Int) (hstage : r.stage t = .enqueue v .loadIn) :
      Effect r t (r.goto t (.enqueue v (.storeSlot r.inn)))
  | storeSlot (v : Int) (slot : Nat) (hstage : r.stage t = .enqueue v (.storeSlot slot)) :
      Effect r t ((r.storeSlot t slot v).goto t (.enqueue v .loadNext))
  | loadNextIn (v : Int) (hstage : r.stage t = .enqueue v .loadNext) :
      Effect r t (r.goto t (.enqueue v (.loadN r.inn)))
  | loadNIn (v : Int) (slot : Nat) (hstage : r.stage t = .enqueue v (.loadN slot)) :
      Effect r t (r.goto t (.enqueue v (.storeIn slot r.N)))
  | storeIn (v : Int) (slot N : Nat) (hstage : r.stage t = .enqueue v (.storeIn slot N)) :
      Effect r t ((r.setIn ((slot + 1) % N)).goto t (.enqueue v .releaseMutex))
  | enqueueReleased (v : Int) (hstage : r.stage t = .enqueue v .releaseMutex)
      (hpc : r.locks.pc t = .release .mutex .done) :
      Effect r t ((r.setLocks (r.locks.goto t .outside)).goto t (.enqueue v .releaseEmpty))
  | enqueueDone (v : Int) (hstage : r.stage t = .enqueue v .releaseEmpty)
      (hpc : r.locks.pc t = .release .empty .done) :
      Effect r t (((r.setLocks (r.locks.goto t .outside)).finishEnqueue t v).goto t .idle)
  | dequeueEmpty (hstage : r.stage t = .dequeue .acquireEmpty)
      (hpc : r.locks.pc t = .acquire .empty .done) :
      Effect r t ((r.setLocks ((r.locks.giveBack .empty t).goto t .outside)).goto t
        (.dequeue .acquireMutex))
  | dequeueMutex (hstage : r.stage t = .dequeue .acquireMutex)
      (hpc : r.locks.pc t = .acquire .mutex .done) :
      Effect r t ((r.setLocks ((r.locks.giveBack .mutex t).goto t .outside)).goto t
        (.dequeue .loadOut))
  | loadOut (hstage : r.stage t = .dequeue .loadOut) :
      Effect r t (r.goto t (.dequeue (.loadSlot r.out)))
  | loadSlot (slot : Nat) (hstage : r.stage t = .dequeue (.loadSlot slot)) :
      Effect r t ((r.loadSlot t slot).goto t (.dequeue (.loadNext (r.slots slot))))
  | loadNextOut (v : Int) (hstage : r.stage t = .dequeue (.loadNext v)) :
      Effect r t (r.goto t (.dequeue (.loadN v r.out)))
  | loadNOut (v : Int) (slot : Nat) (hstage : r.stage t = .dequeue (.loadN v slot)) :
      Effect r t (r.goto t (.dequeue (.storeOut v slot r.N)))
  | storeOut (v : Int) (slot N : Nat) (hstage : r.stage t = .dequeue (.storeOut v slot N)) :
      Effect r t ((r.setOut ((slot + 1) % N)).goto t (.dequeue (.releaseMutex v)))
  | dequeueReleased (v : Int) (hstage : r.stage t = .dequeue (.releaseMutex v))
      (hpc : r.locks.pc t = .release .mutex .done) :
      Effect r t ((r.setLocks (r.locks.goto t .outside)).goto t (.dequeue (.releaseSema v)))
  | dequeueDone (v : Int) (hstage : r.stage t = .dequeue (.releaseSema v))
      (hpc : r.locks.pc t = .release .sema .done) :
      Effect r t (((r.setLocks (r.locks.goto t .outside)).finishDequeue t v).goto t .idle)

variable {r next : Ringbuffer T} {t : T}

omit [DecidableEq T] in
/-- A thread that is not at a statement with a call is outside the mutexes. -/
theorem Ringbuffer.Aligned.outside (haligned : r.Aligned) (hcall : (r.stage t).call = none) :
    r.locks.pc t = .outside := by
  rw [← Pc.within_eq_none]
  cases hwithin : (r.locks.pc t).within with
  | none => rfl
  | some c => simp [haligned t c hwithin] at hcall

theorem resume_effect (haligned : r.Aligned) {locks : Locks.State T Sem}
    (heffect : Locks.Effect r.locks t locks) (hbefore : r.locks.pc t ≠ .outside)
    (hafter : locks.pc t = .outside) (hresume : (r.setLocks locks).resume t = some next) :
    Effect r t next := by
  rcases heffect.return hbefore hafter with ⟨m, hpc, rfl⟩ | ⟨m, hpc, rfl⟩
  · have hcall : (r.stage t).call = some (.acquire m) := haligned t _ (by rw [hpc]; rfl)
    cases hstage : r.stage t with
    | idle => simp [hstage, Stage.call] at hcall
    | enqueue v line =>
        cases line <;> simp [hstage, Stage.call] at hcall
        case acquireSema =>
            subst hcall
            obtain rfl : _ = next := by simpa [Ringbuffer.resume, hstage] using hresume
            exact .enqueueSema v hstage hpc
        case acquireMutex =>
            subst hcall
            obtain rfl : _ = next := by simpa [Ringbuffer.resume, hstage] using hresume
            exact .enqueueMutex v hstage hpc
    | dequeue line =>
        cases line <;> simp [hstage, Stage.call] at hcall
        case acquireEmpty =>
            subst hcall
            obtain rfl : _ = next := by simpa [Ringbuffer.resume, hstage] using hresume
            exact .dequeueEmpty hstage hpc
        case acquireMutex =>
            subst hcall
            obtain rfl : _ = next := by simpa [Ringbuffer.resume, hstage] using hresume
            exact .dequeueMutex hstage hpc
  · have hcall : (r.stage t).call = some (.release m) := haligned t _ (by rw [hpc]; rfl)
    cases hstage : r.stage t with
    | idle => simp [hstage, Stage.call] at hcall
    | enqueue v line =>
        cases line <;> simp [hstage, Stage.call] at hcall
        case releaseMutex =>
            subst hcall
            obtain rfl : _ = next := by simpa [Ringbuffer.resume, hstage] using hresume
            exact .enqueueReleased v hstage hpc
        case releaseEmpty =>
            subst hcall
            obtain rfl : _ = next := by simpa [Ringbuffer.resume, hstage] using hresume
            exact .enqueueDone v hstage hpc
    | dequeue line =>
        cases line <;> simp [hstage, Stage.call] at hcall
        case releaseMutex v =>
            subst hcall
            obtain rfl : _ = next := by simpa [Ringbuffer.resume, hstage] using hresume
            exact .dequeueReleased v hstage hpc
        case releaseSema v =>
            subst hcall
            obtain rfl : _ = next := by simpa [Ringbuffer.resume, hstage] using hresume
            exact .dequeueDone v hstage hpc

theorem run_effect (hpc : r.locks.pc t = .outside) (hrun : r.run t = some next) :
    Effect r t next := by
  unfold Ringbuffer.run at hrun
  cases hcall : (r.stage t).call with
  | some c =>
      obtain rfl : _ = next := by simpa [hcall] using hrun
      exact .call c hpc hcall
  | none =>
      rw [hcall] at hrun
      cases hstage : r.stage t with
      | idle => simp [hstage] at hrun
      | enqueue v line =>
          rw [hstage] at hrun
          cases line with
          | loadIn => cases hrun; exact .loadIn v hstage
          | storeSlot slot => cases hrun; exact .storeSlot v slot hstage
          | loadNext => cases hrun; exact .loadNextIn v hstage
          | loadN slot => cases hrun; exact .loadNIn v slot hstage
          | storeIn slot N => cases hrun; exact .storeIn v slot N hstage
          | _ => cases hrun
      | dequeue line =>
          rw [hstage] at hrun
          cases line with
          | loadOut => cases hrun; exact .loadOut hstage
          | loadSlot slot => cases hrun; exact .loadSlot slot hstage
          | loadNext v => cases hrun; exact .loadNextOut v hstage
          | loadN v slot => cases hrun; exact .loadNOut v slot hstage
          | storeOut v slot N => cases hrun; exact .storeOut v slot N hstage
          | _ => cases hrun

theorem step_effect (haligned : r.Aligned) (hstep : r.step t = some next) : Effect r t next := by
  unfold Ringbuffer.step at hstep
  split at hstep
  · cases hstep
  · split at hstep
    next hpc => exact run_effect hpc hstep
    next hbefore =>
      split at hstep
      · cases hstep
      next locks hlocks =>
        have heffect := Locks.step_effect hlocks
        split at hstep
        next hafter => exact resume_effect haligned heffect hbefore hafter hstep
        next hafter =>
          cases hstep
          exact .inside locks heffect hbefore hafter

/-- A step of `t` moves nobody else. -/
theorem Effect.stage_of_ne (heffect : Effect r t next) {u : T} (hu : u ≠ t) :
    next.stage u = r.stage u := by
  cases heffect <;> simp [hu]

theorem Effect.pc_of_ne (heffect : Effect r t next) {u : T} (hu : u ≠ t) :
    next.locks.pc u = r.locks.pc u := by
  cases heffect
  case inside locks heffect hbefore hafter => exact heffect.pc_of_ne hu
  all_goals simp [hu]

theorem Effect.aligned (heffect : Effect r t next) (haligned : r.Aligned) : next.Aligned := by
  intro u c hwithin
  by_cases hu : u = t
  · subst hu
    cases heffect
    case begin op hstage =>
      have hpc := haligned.outside (t := u) (by rw [hstage]; rfl)
      simp [hpc, Pc.within] at hwithin
    case call c' hpc hcall =>
      obtain rfl : c' = c := by
        cases c' <;> simpa [Call.entry, Pc.within] using hwithin
      exact hcall
    case inside locks heffect hbefore hafter =>
      rw [Ringbuffer.setLocks_locks, heffect.within_eq hbefore hafter] at hwithin
      exact haligned u c hwithin
    all_goals
      first
      | simp [Pc.within] at hwithin; done
      | have hpc := haligned.outside (t := u) (by simp [*, Stage.call])
        simp [hpc, Pc.within] at hwithin
  · rw [heffect.pc_of_ne hu] at hwithin
    rw [heffect.stage_of_ne hu]
    exact haligned u c hwithin

section Reachable

variable {n : Nat} {memory : Nat → Int} {guard : Ringbuffer T → T → Operation → Prop}

theorem machine_effect (haligned : r.Aligned) {label : Label T}
    (hstep : (machine n memory guard).step r label next) : Effect r label.thread next := by
  obtain ⟨_, hact⟩ := hstep
  cases label with
  | call t op =>
      simp only [Ringbuffer.act, Option.ite_none_right_eq_some] at hact
      obtain ⟨⟨_, hstage⟩, heq⟩ := hact
      cases heq
      exact .begin op hstage
  | step t => exact step_effect haligned hact

theorem reachable_aligned (hreach : (machine n memory guard).Reachable r) : r.Aligned := by
  apply hreach.invariant Ringbuffer.Aligned
  · intro t c hwithin
    cases hwithin
  · intro r label next _ haligned hstep
    exact (machine_effect haligned hstep).aligned haligned

theorem reachable_effect (hreach : (machine n memory guard).Reachable r) {label : Label T}
    (hstep : (machine n memory guard).step r label next) : Effect r label.thread next :=
  machine_effect (reachable_aligned hreach) hstep

end Reachable

end OperatingSystem.Ring
