import Mathlib.Logic.Function.Iterate
import Mathlib.Data.List.Basic
import Mathlib.Order.WellFounded

/-!
# Labelled machines, their runs and their proof rules

A machine is an initial state and a labelled step relation. A run is the list of
labels taken so far, oldest first. The rules proved here are the only inductions over
runs in the development: an invariant that every step keeps holds in every reachable
state, and a relation to an abstract state that every step keeps relates every run to
the fold of the abstract steps. A machine may be restricted to the steps that leave
states with a property; what is proved of its runs is what holds as long as the
property does.

A machine whose steps are given by a function has one run. It stops if a variant
decreases in a well-founded order, and what it writes to a log does not change it.
-/

namespace OperatingSystem

universe u v w

/-- A transition system with labelled steps. -/
structure Machine (State : Type u) (Label : Type v) where
  init : State
  step : State → Label → State → Prop

namespace Machine

variable {State : Type u} {Label : Type v} (machine : Machine State Label)

/-- `machine.Run labels state`: the labels lead from the initial state to `state`. -/
inductive Run : List Label → State → Prop
  | nil : Run [] machine.init
  | snoc {labels : List Label} {label : Label} {state next : State} :
      Run labels state → machine.step state label next → Run (labels ++ [label]) next

/-- A state at the end of some run. -/
def Reachable (state : State) : Prop := ∃ labels, machine.Run labels state

variable {machine}

theorem Run.reachable {labels : List Label} {state : State}
    (hrun : machine.Run labels state) : machine.Reachable state :=
  ⟨labels, hrun⟩

theorem reachable_init : machine.Reachable machine.init := ⟨[], .nil⟩

theorem Reachable.step {state next : State} {label : Label}
    (hreach : machine.Reachable state) (hstep : machine.step state label next) :
    machine.Reachable next := by
  obtain ⟨labels, hrun⟩ := hreach
  exact ⟨labels ++ [label], hrun.snoc hstep⟩

/-- The invariant rule. The step may assume that the state it leaves is reachable,
so invariants can be proved one after the other. -/
theorem Reachable.invariant (Inv : State → Prop) (hinit : Inv machine.init)
    (hstep : ∀ state label next, machine.Reachable state → Inv state →
      machine.step state label next → Inv next)
    {state : State} (hreach : machine.Reachable state) : Inv state := by
  obtain ⟨labels, hrun⟩ := hreach
  induction hrun with
  | nil => exact hinit
  | snoc hrun hlast ih => exact hstep _ _ _ hrun.reachable ih hlast

/-- The invariant rule for runs: the invariant may speak of the labels taken so far. -/
theorem Run.invariant (Inv : List Label → State → Prop) (hinit : Inv [] machine.init)
    (hstep : ∀ labels state label next, machine.Run labels state → Inv labels state →
      machine.step state label next → Inv (labels ++ [label]) next)
    {labels : List Label} {state : State} (hrun : machine.Run labels state) : Inv labels state := by
  induction hrun with
  | nil => exact hinit
  | snoc hrun hlast ih => exact hstep _ _ _ _ hrun ih hlast

/-- The refinement rule: a relation kept by every step relates the end of a run to
the abstract steps of its labels, folded from the abstract initial state. -/
theorem Run.simulation {Abstract : Type w} {Rel : State → Abstract → Prop}
    {spec : Abstract → Label → Abstract} {start : Abstract} (hinit : Rel machine.init start)
    (hstep : ∀ state label next abstract, machine.Reachable state → Rel state abstract →
      machine.step state label next → Rel next (spec abstract label))
    {labels : List Label} {state : State} (hrun : machine.Run labels state) :
    Rel state (labels.foldl spec start) := by
  induction hrun with
  | nil => exact hinit
  | snoc hrun hlast ih =>
      rw [List.foldl_append]
      exact hstep _ _ _ _ hrun.reachable ih hlast

/-- The projection rule: a part of the state that stays, or takes a step of its own machine,
in every step of the whole. -/
theorem Reachable.project {Part : Type w} {PartLabel : Type*} {part : Machine Part PartLabel}
    {state : State} (hreach : machine.Reachable state) (view : State → Part)
    (hinit : view machine.init = part.init)
    (hstep : ∀ state label next, machine.step state label next →
      view next = view state ∨ ∃ own, part.step (view state) own (view next)) :
    part.Reachable (view state) := by
  apply hreach.invariant fun state => part.Reachable (view state)
  · rw [hinit]
    exact reachable_init
  · intro state label next _ hpart hlast
    rcases hstep state label next hlast with hsame | ⟨own, hown⟩
    · rw [hsame]
      exact hpart
    · exact hpart.step hown

/-- The states that a script reaches are reachable. -/
theorem reachable_foldlM {play : State → Label → Option State}
    (hplay : ∀ state label next, play state label = some next → machine.step state label next)
    {labels : List Label} {start final : State} (hstart : machine.Reachable start)
    (hfinal : labels.foldlM play start = some final) : machine.Reachable final := by
  induction labels generalizing start with
  | nil =>
      cases hfinal
      exact hstart
  | cons label labels ih =>
      rw [List.foldlM_cons] at hfinal
      obtain ⟨next, hnext, hrest⟩ := Option.bind_eq_some_iff.mp hfinal
      exact ih (hstart.step (hplay _ _ _ hnext)) hrest

/-- A machine whose steps are given by a function. -/
def ofFun (start : State) (next : State → State) : Machine State Unit where
  init := start
  step state _ after := after = next state

theorem reachable_iterate (start : State) (next : State → State) (count : Nat) :
    (ofFun start next).Reachable (next^[count] start) := by
  induction count with
  | zero => exact reachable_init
  | succ count ih =>
      rw [Function.iterate_succ_apply']
      exact ih.step (show (ofFun start next).step _ () _ from rfl)

theorem reachable_iff_iterate {start : State} {next : State → State} {state : State} :
    (ofFun start next).Reachable state ↔ ∃ count, next^[count] start = state := by
  constructor
  · intro hreach
    apply hreach.invariant fun state => ∃ count, next^[count] start = state
    · exact ⟨0, rfl⟩
    · rintro state - after - ⟨count, rfl⟩ rfl
      exact ⟨count + 1, Function.iterate_succ_apply' next count start⟩
  · rintro ⟨count, rfl⟩
    exact reachable_iterate start next count

/-- Two functions that agree in the reachable states of one reach the same states. -/
theorem reachable_congr {start : State} {next next' : State → State}
    (hsame : ∀ state, (ofFun start next').Reachable state → next state = next' state)
    {state : State} : (ofFun start next).Reachable state ↔ (ofFun start next').Reachable state := by
  have hiterate : ∀ count, next^[count] start = next'^[count] start := by
    intro count
    induction count with
    | zero => rfl
    | succ count ih =>
        rw [Function.iterate_succ_apply', Function.iterate_succ_apply', ih]
        exact hsame _ (reachable_iterate start next' count)
  simp only [reachable_iff_iterate, hiterate]

/-- If two functions differ only in certain states, their runs have one of them in common
before they part. -/
theorem reachable_apart {start : State} {next next' : State → State} (Apart : State → Prop)
    (hsame : ∀ state, (ofFun start next).Reachable state → ¬ Apart state →
      next' state = next state) {state : State} (hreach : (ofFun start next).Reachable state) :
    (ofFun start next').Reachable state ∨ ∃ state, Apart state ∧
      (ofFun start next).Reachable state ∧ (ofFun start next').Reachable state := by
  apply hreach.invariant fun state => (ofFun start next').Reachable state ∨ ∃ state, Apart state ∧
    (ofFun start next).Reachable state ∧ (ofFun start next').Reachable state
  · exact .inl reachable_init
  · rintro state - after hstate (hcommon | hparted) rfl
    · by_cases hapart : Apart state
      · exact .inr ⟨state, hapart, hstate, hcommon⟩
      · left
        rw [← hsame state hstate hapart]
        exact hcommon.step (show (ofFun start next').step state () (next' state) from rfl)
    · exact .inr hparted

/-- The variant rule: if every step that does not stop decreases the variant, some step
stops. -/
theorem exists_stop {α : Type w} {lt : α → α → Prop} (hwf : WellFounded lt)
    (variant : State → α) (Stop : State → Prop) {start : State} {next : State → State}
    (hdecreases : ∀ state, (ofFun start next).Reachable state → ¬ Stop (next state) →
      lt (variant (next state)) (variant state)) :
    ∃ count, Stop (next^[count] start) := by
  by_contra hnever
  rw [not_exists] at hnever
  -- the state of the least variant has a next one
  obtain ⟨-, ⟨count, rfl⟩, hmin⟩ :=
    hwf.has_min (Set.range fun count => variant (next^[count] start)) ⟨_, 0, rfl⟩
  apply hmin (variant (next^[count + 1] start)) ⟨count + 1, rfl⟩
  have hlast := hnever (count + 1)
  rw [Function.iterate_succ_apply'] at hlast ⊢
  exact hdecreases _ (reachable_iterate start next count) hlast

/-- The machine that takes a step only from the states that satisfy `guard`. -/
def restrict (machine : Machine State Label) (guard : State → Prop) : Machine State Label where
  init := machine.init
  step state label next := guard state ∧ machine.step state label next

theorem Reachable.of_restrict {guard : State → Prop} {state : State}
    (hreach : (machine.restrict guard).Reachable state) : machine.Reachable state := by
  obtain ⟨labels, hrun⟩ := hreach
  induction hrun with
  | nil => exact reachable_init
  | snoc _ hstep ih => exact ih.step hstep.2

/-- A machine whose reachable states satisfy the guard loses none of them. -/
theorem Reachable.restrict {guard : State → Prop}
    (hguard : ∀ state, machine.Reachable state → guard state) {state : State}
    (hreach : machine.Reachable state) : (machine.restrict guard).Reachable state := by
  obtain ⟨labels, hrun⟩ := hreach
  induction hrun with
  | nil => exact reachable_init
  | snoc hrun hstep ih => exact ih.step ⟨hguard _ hrun.reachable, hstep⟩

theorem restrict_iterate {start : State} {next : State → State} {guard : State → Prop}
    {count : Nat} (hguard : ∀ i < count, guard (next^[i] start)) :
    ((ofFun start next).restrict guard).Reachable (next^[count] start) := by
  induction count with
  | zero => exact reachable_init
  | succ count ih =>
      rw [Function.iterate_succ_apply']
      have hbefore := ih fun i hi => hguard i (Nat.lt_succ_of_lt hi)
      exact Reachable.step hbefore (show ((ofFun start next).restrict guard).step _ () _ from
        ⟨hguard count (Nat.lt_succ_self count), rfl⟩)

/-! ## Logs -/

section Log

variable {Output : Type w} {start : State} {next : State → State}
  {emit : State → List Output}

/-- The machine that appends what it emits in a step to a log. -/
def logged (start : State) (next : State → State) (emit : State → List Output) :
    Machine (State × List Output) Unit :=
  ofFun (start, []) fun logged => (next logged.1, logged.2 ++ emit logged.1)

theorem Reachable.logged_step {state : State} {log : List Output}
    (hreach : (logged start next emit).Reachable (state, log)) :
    (logged start next emit).Reachable (next state, log ++ emit state) :=
  Reachable.step hreach (show (logged start next emit).step (state, log) () _ from rfl)

/-- The invariant rule for states and their logs. -/
theorem Reachable.logged_invariant (Inv : State → List Output → Prop) (hinit : Inv start [])
    (hstep : ∀ state log, (logged start next emit).Reachable (state, log) → Inv state log →
      Inv (next state) (log ++ emit state))
    {state : State} {log : List Output}
    (hreach : (logged start next emit).Reachable (state, log)) : Inv state log := by
  apply hreach.invariant (fun logged => Inv logged.1 logged.2) hinit
  rintro ⟨state, log⟩ - after hstate hinv rfl
  exact hstep state log hstate hinv

theorem Reachable.of_logged {state : State} {log : List Output}
    (hreach : (logged start next emit).Reachable (state, log)) :
    (ofFun start next).Reachable state := by
  apply hreach.logged_invariant fun state _ => (ofFun start next).Reachable state
  · exact reachable_init
  · intro state log _ hstate
    exact hstate.step (show (ofFun start next).step state () (next state) from rfl)

theorem logged_congr {next' : State → State} {emit' : State → List Output}
    (hsame : ∀ state, (ofFun start next').Reachable state →
      next state = next' state ∧ emit state = emit' state)
    {state : State} {log : List Output} : (logged start next emit).Reachable (state, log) ↔
      (logged start next' emit').Reachable (state, log) := by
  apply reachable_congr
  rintro ⟨state, log⟩ hpair
  obtain ⟨hnext, hemit⟩ := hsame state hpair.of_logged
  rw [hnext, hemit]

theorem Reachable.exists_log {state : State} (hreach : (ofFun start next).Reachable state) :
    ∃ log, (logged start next emit).Reachable (state, log) := by
  apply hreach.invariant fun state => ∃ log, (logged start next emit).Reachable (state, log)
  · exact ⟨[], reachable_init⟩
  · rintro state - after - ⟨log, hlog⟩ rfl
    exact ⟨_, hlog.logged_step⟩

/-- Of two logs one goes on from the other. -/
theorem logged_isPrefix {first second : State × List Output}
    (hfirst : (logged start next emit).Reachable first)
    (hsecond : (logged start next emit).Reachable second) :
    first.2 <+: second.2 ∨ second.2 <+: first.2 := by
  have hgrows : ∀ count more, ((fun logged : State × List Output =>
      (next logged.1, logged.2 ++ emit logged.1))^[count] (start, [])).2 <+:
      ((fun logged : State × List Output =>
        (next logged.1, logged.2 ++ emit logged.1))^[count + more] (start, [])).2 := by
    intro count more
    induction more with
    | zero => exact List.prefix_rfl
    | succ more ih =>
        rw [← Nat.add_assoc, Function.iterate_succ_apply']
        exact ih.trans (List.prefix_append _ _)
  obtain ⟨i, rfl⟩ := reachable_iff_iterate.mp hfirst
  obtain ⟨j, rfl⟩ := reachable_iff_iterate.mp hsecond
  rcases Nat.le_total i j with hle | hle
  · obtain ⟨more, rfl⟩ := Nat.exists_eq_add_of_le hle
    exact .inl (hgrows i more)
  · obtain ⟨more, rfl⟩ := Nat.exists_eq_add_of_le hle
    exact .inr (hgrows j more)

end Log

end Machine

end OperatingSystem
