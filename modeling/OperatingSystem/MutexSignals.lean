import OperatingSystem.MutexPhase
import Mathlib.Data.List.Nodup

/-!
# No signal is lost or sent twice

A thread that has queued up and not returned from its `sigwaitinfo` is on the queue, or
has been dequeued by a releaser that is about to signal it, or has the signal. No other
thread is on a queue, is about to be signalled or has a signal. So a signal never meets
another one, and never a thread that does not block it.
-/

namespace OperatingSystem.Locks

variable {T M : Type*}

/-- The mutex on whose queue a thread has put itself in the call that it is in, until it
returns from `sigwaitinfo`. -/
def Pc.asleep : Pc T M → Option M
  | .outside => none
  | .acquire m line =>
      match line with
      | .sigprocmask | .unlockWait | .sigwaitinfo => some m
      | _ => none
  | .release _ _ => none

/-- The thread that a releaser has dequeued and not signalled yet. -/
def Pc.signals : Pc T M → Option T
  | .outside => none
  | .acquire _ _ => none
  | .release _ line =>
      match line with
      | .unlockKill gthread | .kill gthread => some gthread
      | _ => none

/-- Where a thread is on its way through a queue. -/
inductive Situation (T M : Type*) where
  | away
  | queued (m : M)
  | dequeued (m : M) (releaser : T)
  | signalled (m : M)

def Situation.mutex? : Situation T M → Option M
  | .away => none
  | .queued m => some m
  | .dequeued m _ => some m
  | .signalled m => some m

namespace State

variable (s : State T M)

/-- The situation of every thread, as it shows in the state. -/
structure Placed (situation : T → Situation T M) : Prop where
  asleep : ∀ t, (s.pc t).asleep = (situation t).mutex?
  queue : ∀ m t, t ∈ (s.mutex m).queue ↔ situation t = .queued m
  signals : ∀ u t, (s.pc u).signals = some t ↔ ∃ m, situation t = .dequeued m u
  pending : ∀ t, s.pending t = true ↔ ∃ m, situation t = .signalled m
  waits : ∀ t m, (s.pc t).asleep = some m → (∀ m, t ∉ (s.mutex m).queue) →
    s.pc t = .acquire m .sigwaitinfo

/-- A thread blocks the signal before it lets anybody see it on the queue. -/
structure Masked : Prop where
  blocked : ∀ t m, s.pc t = .acquire m .unlockWait ∨ s.pc t = .acquire m .sigwaitinfo →
    s.blocked t = true
  nodup : ∀ m, (s.mutex m).queue.Nodup
  alive : s.killed = false

end State

variable {s next : State T M} {t : T} {m : M} {situation : T → Situation T M}

theorem State.Placed.away (hplaced : s.Placed situation) (hasleep : (s.pc t).asleep = none) :
    situation t = .away := by
  rw [hplaced.asleep] at hasleep
  cases hsituation : situation t with
  | away => rfl
  | queued m => simp [hsituation, Situation.mutex?] at hasleep
  | dequeued m u => simp [hsituation, Situation.mutex?] at hasleep
  | signalled m => simp [hsituation, Situation.mutex?] at hasleep

/-- A step that changes nobody's situation. -/
theorem State.Placed.quiet (hplaced : s.Placed situation)
    (hqueue : ∀ m, (next.mutex m).queue = (s.mutex m).queue)
    (hpending : ∀ u, next.pending u = s.pending u)
    (hpc : ∀ u, u ≠ t → next.pc u = s.pc u)
    (hasleep : (next.pc t).asleep = (s.pc t).asleep)
    (hsignals : (next.pc t).signals = (s.pc t).signals)
    (hwaits : ∀ m, (s.pc t).asleep = some m → t ∈ (s.mutex m).queue) :
    next.Placed situation where
  asleep u := by
    by_cases hu : u = t
    · subst hu
      rw [hasleep, hplaced.asleep]
    · rw [hpc u hu, hplaced.asleep]
  queue m u := by rw [hqueue, hplaced.queue]
  signals u v := by
    by_cases hu : u = t
    · subst hu
      rw [hsignals, hplaced.signals]
    · rw [hpc u hu, hplaced.signals]
  pending u := by rw [hpending, hplaced.pending]
  waits u m hsleeps hnone := by
    simp only [hqueue] at hnone
    by_cases hu : u = t
    · subst hu
      rw [hasleep] at hsleeps
      exact absurd (hwaits m hsleeps) (hnone m)
    · rw [hpc u hu] at hsleeps ⊢
      exact hplaced.waits u m hsleeps hnone

theorem State.Placed.on_queue (hplaced : s.Placed situation) (hasleep : (s.pc t).asleep = some m)
    (hpc : s.pc t ≠ .acquire m .sigwaitinfo) : t ∈ (s.mutex m).queue := by
  by_contra hnot
  apply hpc
  apply hplaced.waits t m hasleep
  intro m' hmem
  have hm : m = m' := by
    have hmutex := hplaced.asleep t
    rw [hasleep, (hplaced.queue m' t).mp hmem] at hmutex
    exact Option.some.inj hmutex
  exact hnot (hm ▸ hmem)

theorem State.Placed.signalled_waits (hplaced : s.Placed situation) {g : T}
    (hpc : s.pc t = .release m (.kill g)) : ∃ m, s.pc g = .acquire m .sigwaitinfo := by
  obtain ⟨m', hdequeued⟩ := (hplaced.signals t g).mp (by rw [hpc]; rfl)
  refine ⟨m', hplaced.waits g m' ?_ ?_⟩
  · rw [hplaced.asleep, hdequeued]
    rfl
  · simp [hplaced.queue, hdequeued]

section Moves

variable [DecidableEq T]

/-- A step that changes the situation of `g` alone. -/
theorem State.Placed.move (hplaced : s.Placed situation) {g : T} {new : Situation T M}
    (hasleep : ∀ u, u ≠ g → (next.pc u).asleep = (s.pc u).asleep)
    (hqueue : ∀ m u, u ≠ g → (u ∈ (next.mutex m).queue ↔ u ∈ (s.mutex m).queue))
    (hsignals : ∀ u v, v ≠ g → ((next.pc u).signals = some v ↔ (s.pc u).signals = some v))
    (hpending : ∀ u, u ≠ g → next.pending u = s.pending u)
    (hwaits : ∀ u m, u ≠ g → s.pc u = .acquire m .sigwaitinfo → next.pc u = s.pc u)
    (hasleep_g : (next.pc g).asleep = new.mutex?)
    (hqueue_g : ∀ m, g ∈ (next.mutex m).queue ↔ new = .queued m)
    (hsignals_g : ∀ u, (next.pc u).signals = some g ↔ ∃ m, new = .dequeued m u)
    (hpending_g : next.pending g = true ↔ ∃ m, new = .signalled m)
    (hwaits_g : ∀ m, (next.pc g).asleep = some m → (∀ m, new ≠ .queued m) →
      next.pc g = .acquire m .sigwaitinfo) :
    next.Placed (Function.update situation g new) where
  asleep u := by
    by_cases hu : u = g
    · subst hu
      rw [Function.update_self, hasleep_g]
    · rw [Function.update_of_ne hu, hasleep u hu, hplaced.asleep]
  queue m u := by
    by_cases hu : u = g
    · subst hu
      rw [Function.update_self, hqueue_g]
    · rw [Function.update_of_ne hu, hqueue m u hu, hplaced.queue]
  signals u v := by
    by_cases hv : v = g
    · subst hv
      rw [Function.update_self, hsignals_g]
    · rw [Function.update_of_ne hv, hsignals u v hv, hplaced.signals]
  pending u := by
    by_cases hu : u = g
    · subst hu
      rw [Function.update_self, hpending_g]
    · rw [Function.update_of_ne hu, hpending u hu, hplaced.pending]
  waits u m hsleeps hnone := by
    by_cases hu : u = g
    · subst hu
      apply hwaits_g m hsleeps
      intro m' hnew
      exact hnone m' ((hqueue_g m').mpr hnew)
    · rw [hasleep u hu] at hsleeps
      have hsleeping : s.pc u = .acquire m .sigwaitinfo := by
        apply hplaced.waits u m hsleeps
        intro m' hmem
        exact hnone m' ((hqueue m' u hu).mpr hmem)
      rw [hwaits u m hu hsleeping, hsleeping]

variable [DecidableEq M]

theorem State.Placed.addTail (hplaced : s.Placed situation)
    (hpc : s.pc t = .acquire m .addTail) :
    ((s.setQueue m ((s.mutex m).queue ++ [t])).goto t (.acquire m .sigprocmask)).Placed
      (Function.update situation t (.queued m)) := by
  have haway : situation t = .away := hplaced.away (by rw [hpc]; rfl)
  have hqueue : ∀ m, t ∉ (s.mutex m).queue := by simp [hplaced.queue, haway]
  have hsignals : ∀ u, (s.pc u).signals ≠ some t := by simp [hplaced.signals, haway]
  have hpending : s.pending t ≠ true := by simp [hplaced.pending, haway]
  apply hplaced.move
  · intro u hu
    simp [hu]
  · intro m' u hu
    by_cases hm : m' = m
    · subst hm
      simp [hu]
    · simp [hm]
  · intro u v hv
    by_cases hu : u = t
    · subst hu
      simp [hpc, Pc.signals]
    · simp [hu]
  · intro u hu
    rfl
  · intro u m' hu _
    simp [hu]
  · simp [Pc.asleep, Situation.mutex?]
  · intro m'
    by_cases hm : m' = m
    · subst hm
      simp
    · simp [hm, hqueue, Ne.symm hm]
  · intro u
    by_cases hu : u = t
    · subst hu
      simp [Pc.signals]
    · simp [hu, hsignals]
  · simpa using hpending
  · intro m' _ hnot
    exact absurd rfl (hnot m)

/-- The releaser holds the spinlock, so `g` is past its own critical section. -/
theorem State.Placed.delete (hplaced : s.Placed situation) {g : T} {rest : List T}
    (hpc : s.pc t = .release m (.delete g)) (hg : s.pc g = .acquire m .sigwaitinfo)
    (hqueue : (s.mutex m).queue = g :: rest) (hnodup : (s.mutex m).queue.Nodup) :
    (((s.setQueue m ((s.mutex m).queue.erase g)).grant m g).goto t
      (.release m (.unlockKill g))).Placed (Function.update situation g (.dequeued m t)) := by
  have hne : g ≠ t := by
    rintro rfl
    simp [hpc] at hg
  have hqueued : situation g = .queued m := (hplaced.queue m g).mp (by simp [hqueue])
  have hsignals : ∀ u, (s.pc u).signals ≠ some g := by simp [hplaced.signals, hqueued]
  have hpending : s.pending g ≠ true := by simp [hplaced.pending, hqueued]
  apply hplaced.move
  · intro u hu
    by_cases hut : u = t
    · subst hut
      simp [hpc, Pc.asleep]
    · simp [hut]
  · intro m' u hu
    by_cases hm : m' = m
    · subst hm
      simp [List.mem_erase_of_ne hu]
    · simp [hm]
  · intro u v hv
    by_cases hu : u = t
    · subst hu
      simp [hpc, Pc.signals, Ne.symm hv]
    · simp [hu]
  · intro u hu
    rfl
  · intro u m' hu hsleeping
    have hut : u ≠ t := by
      rintro rfl
      simp [hpc] at hsleeping
    simp [hut]
  · simp [hne, hg, Pc.asleep, Situation.mutex?]
  · intro m'
    by_cases hm : m' = m
    · subst hm
      simp [hnodup.not_mem_erase]
    · simp [hm, hplaced.queue, hqueued, Ne.symm hm]
  · intro u
    by_cases hu : u = t
    · subst hu
      simp [Pc.signals]
    · simp [hu, hsignals, Ne.symm hu]
  · simpa using hpending
  · intro m' hasleep _
    simpa [hne, hg, Pc.asleep] using hasleep

omit [DecidableEq M] in
theorem State.Placed.kill (hplaced : s.Placed situation) {g : T} {m' : M}
    (hpc : s.pc t = .release m (.kill g)) (hg : s.pc g = .acquire m' .sigwaitinfo) :
    ((s.setPending g true).goto t (.release m .done)).Placed
      (Function.update situation g (.signalled m')) := by
  have hne : g ≠ t := by
    rintro rfl
    simp [hpc] at hg
  obtain ⟨m'', hdequeued⟩ := (hplaced.signals t g).mp (by rw [hpc]; rfl)
  have hqueue : ∀ m, g ∉ (s.mutex m).queue := by simp [hplaced.queue, hdequeued]
  have hsignals : ∀ u, u ≠ t → (s.pc u).signals ≠ some g := by
    intro u hu
    simp [hplaced.signals, hdequeued, Ne.symm hu]
  apply hplaced.move
  · intro u hu
    by_cases hut : u = t
    · subst hut
      simp [hpc, Pc.asleep]
    · simp [hut]
  · intro m u hu
    simp
  · intro u v hv
    by_cases hu : u = t
    · subst hu
      simp [hpc, Pc.signals, Ne.symm hv]
    · simp [hu]
  · intro u hu
    simp [hu]
  · intro u m hu hsleeping
    have hut : u ≠ t := by
      rintro rfl
      simp [hpc] at hsleeping
    simp [hut]
  · simp [hne, hg, Pc.asleep, Situation.mutex?]
  · intro m
    simp [hqueue]
  · intro u
    by_cases hu : u = t
    · subst hu
      simp [Pc.signals]
    · simp [hu, hsignals]
  · simp
  · intro m hasleep _
    simpa [hne, hg, Pc.asleep] using hasleep

omit [DecidableEq M] in
theorem State.Placed.sigwaitinfo (hplaced : s.Placed situation)
    (hpc : s.pc t = .acquire m .sigwaitinfo) (hpending : s.pending t = true) :
    ((s.setPending t false).goto t (.acquire m .done)).Placed
      (Function.update situation t .away) := by
  obtain ⟨m', hsignalled⟩ := (hplaced.pending t).mp hpending
  have hqueue : ∀ m, t ∉ (s.mutex m).queue := by simp [hplaced.queue, hsignalled]
  have hsignals : ∀ u, (s.pc u).signals ≠ some t := by simp [hplaced.signals, hsignalled]
  apply hplaced.move
  · intro u hu
    simp [hu]
  · intro m u hu
    simp
  · intro u v hv
    by_cases hu : u = t
    · subst hu
      simp [hpc, Pc.signals]
    · simp [hu]
  · intro u hu
    simp [hu]
  · intro u m' hu _
    simp [hu]
  · simp [Pc.asleep, Situation.mutex?]
  · intro m
    simp [hqueue]
  · intro u
    by_cases hu : u = t
    · subst hu
      simp [Pc.signals]
    · simp [hu, hsignals]
  · simp
  · intro m' hasleep _
    simp [Pc.asleep] at hasleep

end Moves

/-- Whoever is on the queue while a releaser holds the spinlock is at his `sigwaitinfo`. -/
theorem State.Guarded.waits {k : Nat} {g : T} (hguarded : s.Guarded k m (some t))
    (hasleep : (s.pc g).asleep = some m) (hne : g ≠ t) : s.pc g = .acquire m .sigwaitinfo := by
  have hnotinside : (s.pc g).inside ≠ some m := by
    intro hinside
    exact hne (Option.some.inj ((hguarded.inside g).mp hinside)).symm
  cases hpc : s.pc g with
  | outside => simp [hpc, Pc.asleep] at hasleep
  | acquire m' line =>
      rw [hpc] at hasleep hnotinside
      cases line with
      | sigwaitinfo =>
          obtain rfl : m' = m := Option.some.inj hasleep
          rfl
      | sigprocmask => exact absurd hasleep hnotinside
      | unlockWait => exact absurd hasleep hnotinside
      | _ => cases hasleep
  | release m' line => simp [hpc, Pc.asleep] at hasleep

theorem placed_init {k : M → Nat} : (initState k : State T M).Placed (fun _ => .away) ∧
    (initState k : State T M).Masked := by
  constructor
  · constructor <;> simp [initState, Pc.asleep, Pc.signals, Situation.mutex?]
  · constructor <;> simp [initState]

section Steps

variable [DecidableEq T] [DecidableEq M] {k : M → Nat}

theorem Effect.placed (heffect : Effect s t next)
    (hguarded : ∀ m, ∃ holder, s.Guarded (k m) m holder) (hplaced : s.Placed situation)
    (hmasked : s.Masked) : ∃ situation, next.Placed situation := by
  have hothers : ∀ u, u ≠ t → next.pc u = s.pc u := fun u hu => heffect.pc_of_ne hu
  cases heffect
  case spin => exact ⟨_, hplaced⟩
  case addTail m hpc => exact ⟨_, hplaced.addTail hpc⟩
  case delete m g hpc =>
      obtain ⟨holder, hguarded⟩ := hguarded m
      obtain ⟨hguarded, _, _, hhead⟩ := hguarded.holder_eq hpc rfl
      obtain ⟨rest, hqueue⟩ := List.head?_eq_some_iff.mp hhead
      have hasleep : (s.pc g).asleep = some m := by
        rw [hplaced.asleep, (hplaced.queue m g).mp (by simp [hqueue])]
        rfl
      have hne : g ≠ t := by
        rintro rfl
        simp [hpc, Pc.asleep] at hasleep
      exact ⟨_, hplaced.delete hpc (hguarded.waits hasleep hne) hqueue (hmasked.nodup m)⟩
  case kill m g hpc =>
      obtain ⟨m', hg⟩ := hplaced.signalled_waits hpc
      have hblocked : s.blocked g = true := hmasked.blocked g m' (.inr hg)
      rw [State.pthreadKill, if_pos hblocked]
      exact ⟨_, hplaced.kill hpc hg⟩
  case sigwaitinfo m hpc hpending => exact ⟨_, hplaced.sigwaitinfo hpc hpending⟩
  case call c hpc =>
      refine ⟨_, hplaced.quiet (t := t) (fun _ => rfl) (fun _ => rfl) hothers ?_ ?_ ?_⟩
      · cases c <;> simp [hpc, Call.entry, Pc.asleep]
      · cases c <;> simp [hpc, Call.entry, Pc.signals]
      · simp [hpc, Pc.asleep]
  case sigprocmask m hpc =>
      refine ⟨_, hplaced.quiet (fun _ => rfl) (fun _ => rfl) hothers ?_ ?_ ?_⟩
      · simp [hpc, Pc.asleep]
      · simp [hpc, Pc.signals]
      · intro m' hasleep
        exact hplaced.on_queue hasleep (by simp [hpc])
  case unlockWait m hpc =>
      refine ⟨_, hplaced.quiet ?_ (fun _ => rfl) hothers ?_ ?_ ?_⟩
      · simp
      · simp [hpc, Pc.asleep]
      · simp [hpc, Pc.signals]
      · intro m' hasleep
        exact hplaced.on_queue hasleep (by simp [hpc])
  -- `t` is not on its way through a queue, and the queues stay as they are
  all_goals
    refine ⟨_, hplaced.quiet ?_ (fun _ => rfl) hothers ?_ ?_ ?_⟩
    · simp
    · simp [*, Pc.asleep]
    · simp [*, Pc.signals]
    · simp [*, Pc.asleep]

theorem Effect.blocked_of_blocked (heffect : Effect s t next) {u : T}
    (hblocked : s.blocked u = true) : next.blocked u = true := by
  cases heffect <;> simp [hblocked, Function.update_apply]

theorem Effect.masked (heffect : Effect s t next) (hplaced : s.Placed situation)
    (hmasked : s.Masked) : next.Masked where
  blocked u m h := by
    by_cases hu : u = t
    · subst hu
      cases heffect
      case call c hpc => cases c <;> simp [Call.entry] at h
      case spin => exact hmasked.blocked u m h
      case sigprocmask m' hpc => simp
      case unlockWait m' hpc => exact hmasked.blocked u m' (.inl hpc)
      all_goals simp at h
    · rw [heffect.pc_of_ne hu] at h
      exact heffect.blocked_of_blocked (hmasked.blocked u m h)
  nodup m := by
    cases heffect
    case addTail m' hpc =>
      have haway : situation t = .away := hplaced.away (by rw [hpc]; rfl)
      by_cases hm : m = m'
      · subst hm
        have hnot : t ∉ (s.mutex m).queue := by simp [hplaced.queue, haway]
        simpa using List.Nodup.concat hnot (hmasked.nodup m)
      · simpa [hm] using hmasked.nodup m
    case delete m' g hpc =>
      by_cases hm : m = m'
      · subst hm
        simpa using (hmasked.nodup m).erase g
      · simpa [hm] using hmasked.nodup m
    all_goals
      refine Eq.subst ?_ (hmasked.nodup m)
      simp
  alive := by
    cases heffect
    case kill m g hpc =>
      obtain ⟨m', hg⟩ := hplaced.signalled_waits hpc
      have hblocked : s.blocked g = true := hmasked.blocked g m' (.inr hg)
      simpa [State.pthreadKill, hblocked] using hmasked.alive
    all_goals exact hmasked.alive

variable {guard : State T M → T → Call M → Prop}

theorem reachable_placed (hreach : (machine k guard).Reachable s) :
    ∃ situation, s.Placed situation ∧ s.Masked := by
  apply hreach.invariant fun s => ∃ situation, s.Placed situation ∧ s.Masked
  · exact ⟨_, placed_init⟩
  · intro s label next hreach hplaced hstep
    obtain ⟨situation, hplaced, hmasked⟩ := hplaced
    have heffect := machine_effect hstep
    obtain ⟨after, hafter⟩ := heffect.placed (reachable_guarded hreach) hplaced hmasked
    exact ⟨after, hafter, heffect.masked hplaced hmasked⟩

end Steps

/-! ## Where a signal can be -/

namespace State

variable (s : State T M) (t : T)

/-- `t` is on the queue of one mutex, once. -/
def OnOneQueue [DecidableEq T] : Prop :=
  ∃ m, (s.pc t).asleep = some m ∧ (s.mutex m).queue.count t = 1 ∧
    ∀ m', m' ≠ m → t ∉ (s.mutex m').queue

def OnNoQueue : Prop := ∀ m, t ∉ (s.mutex m).queue

/-- One releaser has dequeued `t` and not executed `pthread_kill` yet. -/
def SignalledByOne : Prop := ∃ u, ∀ v, (s.pc v).signals = some t ↔ v = u

def SignalledByNone : Prop := ∀ u, (s.pc u).signals ≠ some t

end State

variable [DecidableEq T] [DecidableEq M] {k : M → Nat} {guard : State T M → T → Call M → Prop}

/-- A sleeper is on a queue, is about to be signalled, or has the signal; nobody else is or
has, and no signal kills. -/
theorem signals_conserved (hreach : (machine k guard).Reachable s) (t : T) :
    s.killed = false ∧
      ((s.pc t).asleep ≠ none →
        (s.OnOneQueue t ∧ s.SignalledByNone t ∧ s.pending t = false) ∨
        (s.OnNoQueue t ∧ s.SignalledByOne t ∧ s.pending t = false) ∨
        (s.OnNoQueue t ∧ s.SignalledByNone t ∧ s.pending t = true)) ∧
      ((s.pc t).asleep = none →
        s.OnNoQueue t ∧ s.SignalledByNone t ∧ s.pending t = false) := by
  obtain ⟨situation, hplaced, hmasked⟩ := reachable_placed hreach
  have hqueue : ∀ m, t ∈ (s.mutex m).queue ↔ situation t = .queued m :=
    fun m => hplaced.queue m t
  have hsignals : ∀ u, (s.pc u).signals = some t ↔ ∃ m, situation t = .dequeued m u :=
    fun u => hplaced.signals u t
  have hpending := hplaced.pending t
  have hasleep := hplaced.asleep t
  refine ⟨hmasked.alive, ?_, ?_⟩
  · intro hsleeps
    cases hsituation : situation t with
    | away => simp [hasleep, hsituation, Situation.mutex?] at hsleeps
    | queued m =>
        left
        refine ⟨⟨m, ?_, ?_, ?_⟩, ?_, ?_⟩
        · rw [hasleep, hsituation]
          rfl
        · apply List.count_eq_one_of_mem (hmasked.nodup m)
          exact (hqueue m).mpr hsituation
        · intro m' hm
          simp [hqueue, hsituation, Ne.symm hm]
        · simp [State.SignalledByNone, hsignals, hsituation]
        · simpa [hsituation] using hpending
    | dequeued m u =>
        right; left
        refine ⟨?_, ⟨u, ?_⟩, ?_⟩
        · simp [State.OnNoQueue, hqueue, hsituation]
        · intro v
          simp [hsignals, hsituation, eq_comm]
        · simpa [hsituation] using hpending
    | signalled m =>
        right; right
        refine ⟨?_, ?_, ?_⟩
        · simp [State.OnNoQueue, hqueue, hsituation]
        · simp [State.SignalledByNone, hsignals, hsituation]
        · simpa [hsituation] using hpending
  · intro hawake
    have haway := hplaced.away hawake
    refine ⟨?_, ?_, ?_⟩
    · simp [State.OnNoQueue, hqueue, haway]
    · simp [State.SignalledByNone, hsignals, haway]
    · simpa [haway] using hpending

/-- Thread 0 has the mutex, thread 1 queues up, and thread 0 is about to signal it. -/
def contention : List (Label (Fin 2) Unit) :=
  .call 0 (.acquire ()) :: List.replicate 6 (.step 0) ++
    .call 1 (.acquire ()) :: List.replicate 7 (.step 1) ++
    .call 0 (.release ()) :: List.replicate 8 (.step 0)

def contended : State (Fin 2) Unit :=
  (contention.foldlM (State.play Disciplined) (initState fun _ => 1)).get (by decide +kernel)

theorem contended_reachable : (machine (fun _ => 1) Disciplined).Reachable contended :=
  Machine.reachable_foldlM (fun _ _ _ => play_step) Machine.reachable_init
    (Option.some_get _).symm

theorem signals_conserved_contended :
    contended.OnNoQueue 1 ∧ contended.SignalledByOne 1 ∧ contended.pending 1 = false := by
  rcases (signals_conserved contended_reachable 1).2.1 (by decide +kernel) with
    hqueued | hdequeued | hsignalled
  · obtain ⟨⟨m, _, hcount, _⟩, _⟩ := hqueued
    have hempty : (contended.mutex ()).queue.count 1 ≠ 1 := by decide +kernel
    exact absurd hcount hempty
  · exact hdequeued
  · have hnone : contended.pending 1 ≠ true := by decide +kernel
    exact absurd hsignalled.2.2 hnone

end OperatingSystem.Locks
