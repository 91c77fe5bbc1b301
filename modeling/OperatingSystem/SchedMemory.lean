import Mathlib.Data.Fintype.Card
import OperatingSystem.SchedPointers

/-!
# What the memory of the scheduler shows

A memory shows a state of the simulation when its rings are the queues and the lists of that
state, the processes that have not exited and the entries on their lists are allocated, and the
rest of the globals are the same. Each operation on the memory is then one on the state.
-/

namespace OperatingSystem.Sched

open Pointers (Queue Slot Address Fields Memory Stop)

variable {n : Nat}

def Process.fields (process : Process) : Fields where
  pid := process.pid
  status := process.status
  age := process.age
  lifespan := process.lifespan
  prio := process.prio
  prioOrig := process.prioOrig
  startsAt := process.startsAt

def ResourceSchedule.address (p : Fin n) (rs : ResourceSchedule) : Address n := .block p rs.node

namespace Sim

/-- The queues, by their heads. -/
def lists (s : Sim n) : Queue → List (Fin n)
  | .forkqueue => s.forkqueue
  | .readyqueue => s.readyqueue
  | .waitqueue r => (s.resources r).waitqueue

def setList (s : Sim n) (list : List (Fin n)) : Queue → Sim n
  | .forkqueue => { s with forkqueue := list }
  | .readyqueue => { s with readyqueue := list }
  | .waitqueue r => s.setWaitqueue r list

/-- The lists of the processes, by their heads. -/
def slots (s : Sim n) : Slot n → List (Address n)
  | .resourcesToAcquire p => (s.procs p).resourcesToAcquire.map (ResourceSchedule.address p)
  | .resourcesHolding p => (s.procs p).resourcesHolding.map (ResourceSchedule.address p)

/-- Other lists of a process. -/
def relist (s : Sim n) (p : Fin n) (pending holding : List ResourceSchedule) : Sim n :=
  s.setProcess p { s.procs p with
    resourcesToAcquire := pending
    resourcesHolding := holding }

/-- The process has not been freed. -/
def Live (s : Sim n) (p : Fin n) : Prop := (s.procs p).status ≠ .exit

variable (s : Sim n)

theorem linked_iff (p : Fin n) : s.linked p ↔ ∃ q, p ∈ s.lists q := by
  constructor
  · rintro (hfork | hready | ⟨r, hwait⟩)
    · exact ⟨.forkqueue, hfork⟩
    · exact ⟨.readyqueue, hready⟩
    · exact ⟨.waitqueue r, hwait⟩
  · rintro ⟨q, hmem⟩
    cases q with
    | forkqueue => exact .inl hmem
    | readyqueue => exact .inr (.inl hmem)
    | waitqueue r => exact .inr (.inr ⟨r, hmem⟩)

variable (list : List (Fin n)) (q : Queue)

@[simp] theorem setList_procs : (s.setList list q).procs = s.procs := by cases q <;> rfl

@[simp] theorem setList_current : (s.setList list q).current = s.current := by cases q <;> rfl

@[simp] theorem setList_ticks : (s.setList list q).ticks = s.ticks := by cases q <;> rfl

@[simp] theorem setList_owner (r : Fin NR_RESOURCES) :
    ((s.setList list q).resources r).owner = (s.resources r).owner := by
  cases q with
  | forkqueue | readyqueue => rfl
  | waitqueue r' =>
      by_cases hr : r = r'
      · subst hr
        simp [setList, setWaitqueue]
      · simp [setList, setWaitqueue, hr]

theorem setList_lists : (s.setList list q).lists = Function.update s.lists q list := by
  funext q'
  cases q with
  | forkqueue | readyqueue => cases q' <;> rfl
  | waitqueue r =>
      cases q' with
      | forkqueue | readyqueue => rfl
      | waitqueue r' =>
          by_cases hr : r' = r
          · subst hr
            simp [setList, lists, setWaitqueue]
          · simp [setList, lists, setWaitqueue, hr]

theorem setOwner_lists (r : Fin NR_RESOURCES) (owner : Option (Fin n)) :
    (s.setOwner r owner).lists = s.lists := by
  funext q
  cases q with
  | forkqueue | readyqueue => rfl
  | waitqueue r' =>
      by_cases hr : r' = r
      · subst hr
        simp [lists, setOwner]
      · simp [lists, setOwner, hr]

theorem slots_congr {s after : Sim n} (hsame : ∀ p,
    (after.procs p).resourcesToAcquire = (s.procs p).resourcesToAcquire ∧
    (after.procs p).resourcesHolding = (s.procs p).resourcesHolding) : after.slots = s.slots := by
  funext slot
  cases slot with
  | resourcesToAcquire p => simp only [slots, (hsame p).1]
  | resourcesHolding p => simp only [slots, (hsame p).2]

section Relist

variable (p : Fin n) (pending holding : List ResourceSchedule)

@[simp] theorem relist_self : (s.relist p pending holding).procs p = { s.procs p with
    resourcesToAcquire := pending
    resourcesHolding := holding } :=
  Function.update_self _ _ _

theorem relist_of_ne {q : Fin n} (hq : q ≠ p) :
    (s.relist p pending holding).procs q = s.procs q :=
  Function.update_of_ne hq _ _

theorem relist_live (q : Fin n) : (s.relist p pending holding).Live q ↔ s.Live q := by
  by_cases hq : q = p
  · subst hq
    rw [Live, relist_self]
    rfl
  · rw [Live, relist_of_ne s p pending holding hq]
    rfl

theorem relist_slots : (s.relist p pending holding).slots =
    Function.update (Function.update s.slots (.resourcesToAcquire p)
      (pending.map (ResourceSchedule.address p))) (.resourcesHolding p)
      (holding.map (ResourceSchedule.address p)) := by
  funext slot
  cases slot with
  | resourcesToAcquire q | resourcesHolding q =>
      by_cases hq : q = p
      · subst hq
        simp [slots]
      · simp [slots, hq, relist_of_ne]

end Relist

end Sim

namespace Pointers

structure Shows (m : Memory n) (s : Sim n) : Prop where
  live : ∀ p, s.Live p → m.procs p = some (s.procs p).fields
  freed : ∀ p, ¬ s.Live p → m.procs p = none
  linked : ∀ p, s.linked p → s.Live p
  queues : m.queues.Tidy s.lists
  entries : m.entries.Linked s.slots
  schedules : ∀ p rs, rs ∈ (s.procs p).resourcesToAcquire ∨ rs ∈ (s.procs p).resourcesHolding →
    m.schedules (rs.address p) = some rs.toAcquire
  unlisted : ∀ address, (∀ slot, address ∉ s.slots slot) → m.schedules address = none
  owner : ∀ r, m.owner r = (s.resources r).owner
  current : m.current = s.current
  ticks : m.ticks = s.ticks

variable {m : Memory n} {s : Sim n} {p : Fin n}

@[simp] theorem allocated_head (m : Memory n) (q : Queue) : m.allocated (.inl q) = true := rfl

namespace Shows

variable (hshows : Shows m s)
include hshows

theorem get (hlive : s.Live p) : m.get p = .ok (s.procs p).fields := by
  simp only [Memory.get, hshows.live p hlive]

/-! ## Fields -/

/-- A write to the fields of a process. -/
theorem modify (hlive : s.Live p) {write : Fields → Fields} {process : Process}
    (hfields : process.fields = write (s.procs p).fields) (hstatus : process.status ≠ .exit)
    (hpending : process.resourcesToAcquire = (s.procs p).resourcesToAcquire)
    (hholding : process.resourcesHolding = (s.procs p).resourcesHolding) :
    ∃ after, m.modify p write = .ok after ∧ Shows after (s.setProcess p process) := by
  have hprocs : ∀ q, q ≠ p → (s.setProcess p process).procs q = s.procs q :=
    fun q hq => Function.update_of_ne hq _ _
  have hself : (s.setProcess p process).procs p = process := Function.update_self _ _ _
  have hsame : ∀ q,
      ((s.setProcess p process).procs q).resourcesToAcquire = (s.procs q).resourcesToAcquire ∧
      ((s.setProcess p process).procs q).resourcesHolding = (s.procs q).resourcesHolding := by
    intro q
    by_cases hq : q = p
    · subst hq
      rw [hself]
      exact ⟨hpending, hholding⟩
    · rw [hprocs q hq]
      exact ⟨rfl, rfl⟩
  have hlives : ∀ q, (s.setProcess p process).Live q ↔ s.Live q := by
    intro q
    by_cases hq : q = p
    · subst hq
      rw [Sim.Live, hself]
      exact iff_of_true hstatus hlive
    · rw [Sim.Live, hprocs q hq]
      rfl
  refine ⟨{ m with procs := Function.update m.procs p (some (write (s.procs p).fields)) }, ?_, ?_⟩
  · rw [Memory.modify, hshows.get hlive]
    rfl
  · constructor
    case live =>
      intro q hq
      by_cases hqp : q = p
      · subst hqp
        rw [hself, hfields]
        exact Function.update_self _ _ _
      · rw [hprocs q hqp]
        exact (Function.update_of_ne hqp _ _).trans (hshows.live q ((hlives q).mp hq))
    case freed =>
      intro q hq
      rw [hlives] at hq
      exact (Function.update_of_ne (fun hqp : q = p => hq (hqp ▸ hlive)) _ _).trans
        (hshows.freed q hq)
    case linked => exact fun q hq => (hlives q).mpr (hshows.linked q hq)
    case queues => exact hshows.queues
    case entries =>
      rw [Sim.slots_congr hsame]
      exact hshows.entries
    case schedules =>
      intro q rs hrs
      rw [(hsame q).1, (hsame q).2] at hrs
      exact hshows.schedules q rs hrs
    case unlisted =>
      rw [Sim.slots_congr hsame]
      exact hshows.unlisted
    case owner => exact hshows.owner
    case current => exact hshows.current
    case ticks => exact hshows.ticks

theorem setStatus (hlive : s.Live p) {status : ProcessStatus} (hstatus : status ≠ .exit) :
    ∃ after, m.setStatus p status = .ok after ∧ Shows after (s.setStatus p status) :=
  hshows.modify hlive rfl hstatus rfl rfl

theorem setPrio (hlive : s.Live p) (prio : Nat) :
    ∃ after, m.setPrio p prio = .ok after ∧ Shows after (s.setPrio p prio) :=
  hshows.modify hlive rfl hlive rfl rfl

theorem grow (hlive : s.Live p) :
    ∃ after, m.modify p (fun fields => { fields with age := fields.age + 1 }) = .ok after ∧
      Shows after (s.grow p) :=
  hshows.modify hlive rfl hlive rfl rfl

theorem setOwner (r : Fin NR_RESOURCES) (owner : Option (Fin n)) :
    Shows (m.setOwner r owner) (s.setOwner r owner) where
  live := hshows.live
  freed := hshows.freed
  linked := by
    intro q hq
    refine hshows.linked q ?_
    rwa [Sim.linked_iff, Sim.setOwner_lists, ← Sim.linked_iff] at hq
  queues := by
    rw [Sim.setOwner_lists]
    exact hshows.queues
  entries := hshows.entries
  schedules := hshows.schedules
  unlisted := hshows.unlisted
  owner := by
    intro r'
    by_cases hr : r' = r
    · subst hr
      simp [Memory.setOwner, Sim.setOwner]
    · simp [Memory.setOwner, Sim.setOwner, hr, hshows.owner r']
  current := hshows.current
  ticks := hshows.ticks

theorem tick : Shows m.tick s.tick where
  live := hshows.live
  freed := hshows.freed
  linked := hshows.linked
  queues := hshows.queues
  entries := hshows.entries
  schedules := hshows.schedules
  unlisted := hshows.unlisted
  owner := hshows.owner
  current := hshows.current
  ticks := congrArg (· + 1) hshows.ticks

theorem setCurrent (next : Option (Fin n)) :
    Shows { m with current := next } { s with current := next } where
  live := hshows.live
  freed := hshows.freed
  linked := hshows.linked
  queues := hshows.queues
  entries := hshows.entries
  schedules := hshows.schedules
  unlisted := hshows.unlisted
  owner := hshows.owner
  current := rfl
  ticks := hshows.ticks

/-! ## Queues -/

theorem allocated_live (hlive : s.Live p) : m.allocated (.inr p) = true := by
  simp [Memory.allocated, hshows.live p hlive]

/-- The nodes of a queue are allocated. -/
theorem allocated_ring {q : Queue} {node : QueueNode n}
    (hnode : node ∈ Sum.inl q :: (s.lists q).map Sum.inr) : m.allocated node = true := by
  rcases List.mem_cons.mp hnode with rfl | hmem
  · rfl
  · obtain ⟨p, hp, rfl⟩ := List.mem_map.mp hmem
    exact hshows.allocated_live (hshows.linked p ((s.linked_iff p).mpr ⟨q, hp⟩))

/-- New queues of processes that are not freed. -/
theorem requeue {queues : Links (QueueNode n)} {after : Sim n} (hprocs : after.procs = s.procs)
    (howner : ∀ r, (after.resources r).owner = (s.resources r).owner)
    (hcurrent : after.current = s.current) (hticks : after.ticks = s.ticks)
    (htidy : queues.Tidy after.lists) (hlive : ∀ q, ∀ p ∈ after.lists q, s.Live p) :
    Shows { m with queues := queues } after := by
  have hlives : ∀ p, after.Live p ↔ s.Live p := fun p => by rw [Sim.Live, hprocs]; rfl
  have hslots : after.slots = s.slots :=
    Sim.slots_congr fun p => by rw [hprocs]; exact ⟨rfl, rfl⟩
  constructor
  case live =>
    intro p hp
    rw [hprocs]
    exact hshows.live p ((hlives p).mp hp)
  case freed => exact fun p hp => hshows.freed p (mt (hlives p).mpr hp)
  case linked =>
    intro p hp
    obtain ⟨q, hmem⟩ := (Sim.linked_iff _ p).mp hp
    exact (hlives p).mpr (hlive q p hmem)
  case queues => exact htidy
  case entries =>
    rw [hslots]
    exact hshows.entries
  case schedules =>
    rw [hprocs]
    exact hshows.schedules
  case unlisted =>
    rw [hslots]
    exact hshows.unlisted
  case owner => exact fun r => (hshows.owner r).trans (howner r).symm
  case current => exact hshows.current.trans hcurrent.symm
  case ticks => exact hshows.ticks.trans hticks.symm

theorem live_of_mem {q : Queue} (hmem : p ∈ s.lists q) : s.Live p :=
  hshows.linked p ((s.linked_iff p).mpr ⟨q, hmem⟩)

theorem setList {queues : Links (QueueNode n)} {q : Queue} {list : List (Fin n)}
    (htidy : queues.Tidy (Function.update s.lists q list)) (hlive : ∀ p ∈ list, s.Live p) :
    Shows { m with queues := queues } (s.setList list q) := by
  refine hshows.requeue (s.setList_procs list q) (s.setList_owner list q)
    (s.setList_current list q) (s.setList_ticks list q) ?_ ?_
  · rw [Sim.setList_lists]
    exact htidy
  · intro q' p hmem
    rw [Sim.setList_lists] at hmem
    by_cases hq : q' = q
    · subst hq
      rw [Function.update_self] at hmem
      exact hlive p hmem
    · rw [Function.update_of_ne hq] at hmem
      exact hshows.live_of_mem hmem

theorem listAddTail (hlive : s.Live p) (hfree : ¬ s.linked p) (q : Queue) :
    ∃ after, m.listAddTail p q = .ok after ∧
      Shows after (s.setList (s.lists q ++ [p]) q) := by
  have hunlinked : ∀ q, p ∉ s.lists q := fun q hmem => hfree ((s.linked_iff p).mpr ⟨q, hmem⟩)
  have hlast := hshows.allocated_ring (Links.last_mem_ring (List.append_nil (s.lists q)).symm)
  rw [← hshows.queues.prev_head] at hlast
  refine ⟨_, if_pos ?_, hshows.setList (hshows.queues.listAddTail hunlinked q) ?_⟩
  · simp [hshows.allocated_live hlive, hlast]
  · intro p' hp'
    rcases List.mem_append.mp hp' with hmem | hmem
    · exact hshows.live_of_mem hmem
    · rwa [List.mem_singleton.mp hmem]

theorem listAdd (hlive : s.Live p) (hfree : ¬ s.linked p) (q : Queue) :
    ∃ after, m.listAdd p q = .ok after ∧ Shows after (s.setList (p :: s.lists q) q) := by
  have hunlinked : ∀ q, p ∉ s.lists q := fun q hmem => hfree ((s.linked_iff p).mpr ⟨q, hmem⟩)
  have hfirst := hshows.allocated_ring (Links.first_mem_ring (List.nil_append (s.lists q)).symm)
  rw [← hshows.queues.next_head] at hfirst
  refine ⟨_, if_pos ?_, hshows.setList (hshows.queues.listAdd hunlinked q) ?_⟩
  · simp [hshows.allocated_live hlive, hfirst]
  · intro p' hp'
    rcases List.mem_cons.mp hp' with rfl | hmem
    · exact hlive
    · exact hshows.live_of_mem hmem

omit hshows in
theorem erase_split {α : Type} [DecidableEq α] {xs ys : List α} {x : α}
    (hnodup : (xs ++ x :: ys).Nodup) : (xs ++ x :: ys).erase x = xs ++ ys := by
  rw [List.nodup_middle, List.nodup_cons, List.mem_append, not_or] at hnodup
  rw [List.erase_append_right _ hnodup.1.1, List.erase_cons_head]

/-- The neighbours of a node of a queue are allocated. -/
theorem allocated_neighbours {q : Queue} {xs ys : List (Fin n)}
    (hlist : s.lists q = xs ++ p :: ys) :
    m.allocated (m.queues.prev (.inr p)) = true ∧ m.allocated (m.queues.next (.inr p)) = true := by
  have hlist' : s.lists q = (xs ++ [p]) ++ ys := by simp [hlist]
  rw [hshows.queues.prev_elem hlist, hshows.queues.next_elem hlist]
  exact ⟨hshows.allocated_ring (Links.last_mem_ring hlist),
    hshows.allocated_ring (Links.first_mem_ring hlist')⟩

theorem listDelInit {q : Queue} (hmem : p ∈ s.lists q) :
    ∃ after, m.listDelInit (.inr p) = .ok after ∧
      Shows after (s.setList ((s.lists q).erase p) q) := by
  obtain ⟨xs, ys, hlist⟩ := List.append_of_mem hmem
  have hnodup := hshows.queues.nodup q
  rw [hlist] at hnodup
  obtain ⟨hprev, hnext⟩ := hshows.allocated_neighbours hlist
  refine ⟨_, if_pos ?_, hshows.setList ?_ ?_⟩
  · simp [hshows.allocated_live (hshows.live_of_mem hmem), hprev, hnext]
  · rw [hlist, erase_split hnodup]
    exact hshows.queues.listDelInit hlist
  · exact fun p' hp' => hshows.live_of_mem (List.mem_of_mem_erase hp')

/-- A process that has been taken off its queue is on none. -/
theorem not_linked_erase {q : Queue} (hmem : p ∈ s.lists q) :
    ¬ (s.setList ((s.lists q).erase p) q).linked p := by
  obtain ⟨xs, ys, hlist⟩ := List.append_of_mem hmem
  have hnodup := hshows.queues.nodup q
  rw [hlist] at hnodup
  rw [Sim.linked_iff, Sim.setList_lists, hlist, erase_split hnodup, not_exists]
  exact hshows.queues.not_mem_delete hlist

theorem listEmpty (q : Queue) : m.queues.listEmpty (.inl q) = (s.lists q).isEmpty :=
  hshows.queues.toLinked.listEmpty q

theorem listEmpty_iff (p : Fin n) : m.queues.listEmpty (.inr p) = true ↔ ¬ s.linked p := by
  rw [hshows.queues.listEmpty, Sim.linked_iff, not_exists]

theorem forEach {σ : Type} (q : Queue) (body : σ → Fin n → Except Stop σ) (state : σ) :
    m.forEach q body state = (s.lists q).foldlM body state := by
  refine hshows.queues.forEachEntry .astray body ?_ state
  simpa using (hshows.queues.nodup q).length_le_card

theorem listMoveTail {q : Queue} (hmem : p ∈ s.lists q) (target : Queue) :
    let rest := s.setList ((s.lists q).erase p) q
    ∃ after, m.listMoveTail p target = .ok after ∧
      Shows after (rest.setList (rest.lists target ++ [p]) target) := by
  intro rest
  obtain ⟨xs, ys, hlist⟩ := List.append_of_mem hmem
  have hnodup := hshows.queues.nodup q
  rw [hlist] at hnodup
  have hrest : rest.lists = Function.update s.lists q (xs ++ ys) := by
    rw [Sim.setList_lists, hlist, erase_split hnodup]
  obtain ⟨hprev, hnext⟩ := hshows.allocated_neighbours hlist
  have hlive := hshows.live_of_mem hmem
  have hall : ∀ q', ∀ p' ∈ rest.lists q', s.Live p' := by
    intro q' p' hp'
    rw [hrest] at hp'
    by_cases hq : q' = q
    · subst hq
      rw [Function.update_self, ← erase_split hnodup, ← hlist] at hp'
      exact hshows.live_of_mem (List.mem_of_mem_erase hp')
    · rw [Function.update_of_ne hq] at hp'
      exact hshows.live_of_mem hp'
  have hlast : m.allocated ((m.queues.__listDelEntry (.inr p)).prev (.inl target)) = true := by
    rw [(hshows.queues.toLinked.delete hlist).prev_head, ← hrest]
    rcases List.mem_cons.mp (Links.last_mem target (rest.lists target)) with heq | hlast
    · rw [heq, allocated_head]
    · obtain ⟨p', hp', hnode⟩ := List.mem_map.mp hlast
      rw [← hnode]
      exact hshows.allocated_live (hall target p' hp')
  have htidy := hshows.queues.listMoveTail hlist target
  have hmoved : (rest.setList (rest.lists target ++ [p]) target).lists =
      Links.moved s.lists q target xs p ys := by
    rw [Sim.setList_lists, hrest]
    rfl
  refine ⟨_, if_pos ?_, hshows.requeue ?_ ?_ ?_ ?_ (hmoved ▸ htidy) ?_⟩
  · simp [hshows.allocated_live hlive, hprev, hnext, hlast]
  · simp [rest]
  · simp [rest]
  · simp [rest]
  · simp [rest]
  · intro q' p' hp'
    rw [Sim.setList_lists] at hp'
    by_cases hq : q' = target
    · subst hq
      rw [Function.update_self, List.mem_append, List.mem_singleton] at hp'
      rcases hp' with hp' | rfl
      · exact hall q' p' hp'
      · exact hlive
    · rw [Function.update_of_ne hq] at hp'
      exact hall q' p' hp'

/-! ## Entries -/

/-- New lists of a process. -/
theorem relist {entries : Links (EntryNode n)} {schedules : Address n → Option Acquire}
    {pending holding : List ResourceSchedule}
    (hentries : entries.Linked (s.relist p pending holding).slots)
    (hself : ∀ rs, rs ∈ pending ∨ rs ∈ holding →
      schedules (rs.address p) = some rs.toAcquire)
    (hothers : ∀ q, q ≠ p → ∀ rs : ResourceSchedule,
      schedules (rs.address q) = m.schedules (rs.address q))
    (hunlisted : ∀ address, (∀ slot, address ∉ (s.relist p pending holding).slots slot) →
      schedules address = none) :
    Shows { m with
      entries := entries
      schedules := schedules } (s.relist p pending holding) := by
  have hlives := s.relist_live p pending holding
  constructor
  case live =>
    intro q hq
    by_cases hqp : q = p
    · subst hqp
      rw [Sim.relist_self]
      exact hshows.live q ((hlives q).mp hq)
    · rw [Sim.relist_of_ne _ _ _ _ hqp]
      exact hshows.live q ((hlives q).mp hq)
  case freed => exact fun q hq => hshows.freed q (mt (hlives q).mpr hq)
  case linked => exact fun q hq => (hlives q).mpr (hshows.linked q hq)
  case queues => exact hshows.queues
  case entries => exact hentries
  case schedules =>
    intro q rs hrs
    by_cases hq : q = p
    · subst hq
      rw [Sim.relist_self] at hrs
      exact hself rs hrs
    · rw [Sim.relist_of_ne _ _ _ _ hq] at hrs
      exact (hothers q hq rs).trans (hshows.schedules q rs hrs)
  case unlisted => exact hunlisted
  case owner => exact hshows.owner
  case current => exact hshows.current
  case ticks => exact hshows.ticks

theorem getSchedule {rs : ResourceSchedule}
    (hrs : rs ∈ (s.procs p).resourcesToAcquire ∨ rs ∈ (s.procs p).resourcesHolding) :
    m.getSchedule (rs.address p) = .ok rs.toAcquire := by
  simp only [Memory.getSchedule, hshows.schedules p rs hrs]

theorem entryAllocated_entry {rs : ResourceSchedule}
    (hrs : rs ∈ (s.procs p).resourcesToAcquire ∨ rs ∈ (s.procs p).resourcesHolding) :
    m.entryAllocated (.inr (rs.address p)) = true := by
  simp [Memory.entryAllocated, hshows.schedules p rs hrs]

/-- The nodes of the lists of a process are allocated. -/
theorem entryAllocated_ring (hlive : s.Live p) {node : EntryNode n}
    (hnode : node ∈ Sum.inl (Slot.resourcesToAcquire p) ::
        (s.slots (.resourcesToAcquire p)).map Sum.inr ∨
      node ∈ Sum.inl (Slot.resourcesHolding p) :: (s.slots (.resourcesHolding p)).map Sum.inr) :
    m.entryAllocated node = true := by
  simp only [List.mem_cons, Sim.slots, List.map_map, List.mem_map, Function.comp_apply] at hnode
  rcases hnode with (rfl | ⟨rs, hrs, rfl⟩) | (rfl | ⟨rs, hrs, rfl⟩)
  · simp [Memory.entryAllocated, hshows.live p hlive]
  · exact hshows.entryAllocated_entry (.inl hrs)
  · simp [Memory.entryAllocated, hshows.live p hlive]
  · exact hshows.entryAllocated_entry (.inr hrs)

theorem next_pending (p : Fin n) : m.entries.next (.inl (.resourcesToAcquire p)) =
    Links.first (.resourcesToAcquire p)
      ((s.procs p).resourcesToAcquire.map (ResourceSchedule.address p)) :=
  hshows.entries.next_head _

theorem next_holding (p : Fin n) : m.entries.next (.inl (.resourcesHolding p)) =
    Links.first (.resourcesHolding p)
      ((s.procs p).resourcesHolding.map (ResourceSchedule.address p)) :=
  hshows.entries.next_head _

section Pending

variable {skipped todo : List ResourceSchedule} {rs : ResourceSchedule}
  (hpending : (s.procs p).resourcesToAcquire = skipped ++ rs :: todo)
include hpending

omit hshows in
theorem slots_pending : s.slots (.resourcesToAcquire p) =
    skipped.map (ResourceSchedule.address p) ++ rs.address p ::
      todo.map (ResourceSchedule.address p) := by
  simp [Sim.slots, hpending]

theorem next_pending_entry : m.entries.next (.inr (rs.address p)) =
    Links.first (.resourcesToAcquire p) (todo.map (ResourceSchedule.address p)) :=
  hshows.entries.next_elem (slots_pending hpending)

theorem moveEntry (hlive : s.Live p) :
    ∃ after, m.moveEntry (rs.address p) (.resourcesHolding p) = .ok after ∧
      Shows after (s.moveToHolding p rs (skipped ++ todo)) := by
  have hlist := slots_pending hpending
  have hlist' : s.slots (.resourcesToAcquire p) =
      (skipped.map (ResourceSchedule.address p) ++ [rs.address p]) ++
        todo.map (ResourceSchedule.address p) := by simp [hlist]
  have hrs : rs ∈ (s.procs p).resourcesToAcquire := by simp [hpending]
  have hmoved : (s.relist p (skipped ++ todo) ((s.procs p).resourcesHolding ++ [rs])).slots =
      Links.moved s.slots (.resourcesToAcquire p) (.resourcesHolding p)
        (skipped.map (ResourceSchedule.address p)) (rs.address p)
        (todo.map (ResourceSchedule.address p)) := by
    simp [Sim.relist_slots, Links.moved, Sim.slots]
  have hlast : m.entryAllocated
      ((m.entries.__listDelEntry (.inr (rs.address p))).prev (.inl (.resourcesHolding p))) =
        true := by
    rw [(hshows.entries.delete hlist).prev_head, Function.update_of_ne (by simp)]
    exact hshows.entryAllocated_ring hlive (.inr (Links.last_mem _ _))
  have hprev := hshows.entryAllocated_ring hlive (.inl (Links.last_mem_ring hlist))
  have hnext := hshows.entryAllocated_ring hlive (.inl (Links.first_mem_ring hlist'))
  rw [← hshows.entries.prev_elem hlist] at hprev
  rw [← hshows.entries.next_elem hlist] at hnext
  have hhead : m.entryAllocated (.inl (.resourcesHolding p)) = true := by
    simp [Memory.entryAllocated, hshows.live p hlive]
  refine ⟨_, if_pos ?_, hshows.relist (hmoved ▸ hshows.entries.listMoveTail hlist _) ?_ ?_ ?_⟩
  · simp [hshows.entryAllocated_entry (.inl hrs), hprev, hnext, hhead, hlast]
  · intro rs' hrs'
    refine hshows.schedules p rs' ?_
    rw [hpending]
    simp only [List.mem_append, List.mem_cons] at hrs' ⊢
    tauto
  · exact fun _ _ _ => rfl
  · intro address hunlisted
    refine hshows.unlisted address fun slot hmem => ?_
    have hacquire := hunlisted (.resourcesToAcquire p)
    have hholding := hunlisted (.resourcesHolding p)
    have hslot := hunlisted slot
    rw [Sim.relist_slots] at hacquire hholding hslot
    simp only [Function.update_self, ne_eq, reduceCtorEq, not_false_eq_true,
      Function.update_of_ne, List.map_append, List.map_cons, List.map_nil, List.mem_append,
      List.mem_singleton, not_or] at hacquire hholding
    by_cases hpending' : slot = .resourcesToAcquire p
    · subst hpending'
      rw [hlist, List.mem_append, List.mem_cons] at hmem
      exact hmem.elim hacquire.1 fun h => h.elim hholding.2 hacquire.2
    · by_cases hholds : slot = .resourcesHolding p
      · subst hholds
        exact hholding.1 hmem
      · rw [Function.update_of_ne hholds, Function.update_of_ne hpending'] at hslot
        exact hslot hmem

end Pending

section Holding

variable {kept todo : List ResourceSchedule} {rs : ResourceSchedule}
  (hholding : (s.procs p).resourcesHolding = kept ++ rs :: todo)
include hholding

omit hshows in
theorem slots_holding : s.slots (.resourcesHolding p) =
    kept.map (ResourceSchedule.address p) ++ rs.address p ::
      todo.map (ResourceSchedule.address p) := by
  simp [Sim.slots, hholding]

theorem next_holding_entry : m.entries.next (.inr (rs.address p)) =
    Links.first (.resourcesHolding p) (todo.map (ResourceSchedule.address p)) :=
  hshows.entries.next_elem (slots_holding hholding)

/-- The blocks of the other entries are different. -/
theorem address_ne {rs' : ResourceSchedule}
    (hrs' : rs' ∈ (s.procs p).resourcesToAcquire ∨ rs' ∈ kept ++ todo) :
    rs'.address p ≠ rs.address p := by
  have hnot := hshows.entries.not_mem_delete (slots_holding hholding)
  intro heq
  rcases hrs' with hrs' | hrs'
  · have hmem := hnot (.resourcesToAcquire p)
    rw [Function.update_of_ne (by simp), ← heq] at hmem
    exact hmem (List.mem_map_of_mem hrs')
  · have hmem := hnot (.resourcesHolding p)
    rw [Function.update_self, ← heq, ← List.map_append] at hmem
    exact hmem (List.mem_map_of_mem hrs')

theorem countDown : Shows
    (m.setSchedule (rs.address p) (some { rs.toAcquire with duration := rs.duration - 1 }))
    (s.setHolding p (kept ++ rs.countDown :: todo)) := by
  have hlist : (kept ++ rs.countDown :: todo).map (ResourceSchedule.address p) =
      s.slots (.resourcesHolding p) := by
    rw [slots_holding hholding, List.map_append, List.map_cons]
    rfl
  have hslots : (s.relist p (s.procs p).resourcesToAcquire
      (kept ++ rs.countDown :: todo)).slots = s.slots := by
    rw [Sim.relist_slots, hlist]
    have hpending : (s.procs p).resourcesToAcquire.map (ResourceSchedule.address p) =
        s.slots (.resourcesToAcquire p) := rfl
    rw [hpending, Function.update_eq_self, Function.update_eq_self]
  refine hshows.relist (hslots ▸ hshows.entries) ?_ ?_ ?_
  · intro rs' hrs'
    have hcases : rs' = rs.countDown ∨
        rs' ∈ (s.procs p).resourcesToAcquire ∨ rs' ∈ kept ++ todo := by
      simp only [List.mem_append, List.mem_cons] at hrs' ⊢
      tauto
    rcases hcases with rfl | hother
    · exact Function.update_self _ _ _
    · refine (Function.update_of_ne (hshows.address_ne hholding hother) _ _).trans ?_
      refine hshows.schedules p rs' (hother.imp_right fun hmem => ?_)
      rw [hholding]
      simp only [List.mem_append, List.mem_cons] at hmem ⊢
      tauto
  · intro q hq rs'
    exact Function.update_of_ne (by simp [ResourceSchedule.address, hq]) _ _
  · intro address hunlisted
    rw [hslots] at hunlisted
    refine (Function.update_of_ne ?_ _ _).trans (hshows.unlisted address hunlisted)
    rintro rfl
    exact hunlisted (.resourcesHolding p) (by rw [slots_holding hholding]; simp)

theorem delEntry (hlive : s.Live p) :
    ∃ after, m.delEntry (rs.address p) = .ok after ∧
      Shows (after.setSchedule (rs.address p) none) (s.setHolding p (kept ++ todo)) := by
  have hlist := slots_holding hholding
  have hlist' : s.slots (.resourcesHolding p) =
      (kept.map (ResourceSchedule.address p) ++ [rs.address p]) ++
        todo.map (ResourceSchedule.address p) := by simp [hlist]
  have hrs : rs ∈ (s.procs p).resourcesHolding := by simp [hholding]
  have hprev := hshows.entryAllocated_ring hlive (.inr (Links.last_mem_ring hlist))
  have hnext := hshows.entryAllocated_ring hlive (.inr (Links.first_mem_ring hlist'))
  rw [← hshows.entries.prev_elem hlist] at hprev
  rw [← hshows.entries.next_elem hlist] at hnext
  have hslots : (s.relist p (s.procs p).resourcesToAcquire (kept ++ todo)).slots =
      Function.update s.slots (.resourcesHolding p)
        (kept.map (ResourceSchedule.address p) ++ todo.map (ResourceSchedule.address p)) := by
    have hpending : (s.procs p).resourcesToAcquire.map (ResourceSchedule.address p) =
        s.slots (.resourcesToAcquire p) := rfl
    rw [Sim.relist_slots, hpending, Function.update_eq_self, List.map_append]
  refine ⟨_, if_pos ?_, hshows.relist (hslots ▸ hshows.entries.listDel hlist _ _) ?_ ?_ ?_⟩
  · simp [hshows.entryAllocated_entry (.inr hrs), hprev, hnext]
  · intro rs' hrs'
    refine (Function.update_of_ne (hshows.address_ne hholding hrs') _ _).trans ?_
    refine hshows.schedules p rs' (hrs'.imp_right fun hmem => ?_)
    rw [hholding]
    simp only [List.mem_append, List.mem_cons] at hmem ⊢
    tauto
  · intro q hq rs'
    exact Function.update_of_ne (by simp [ResourceSchedule.address, hq]) _ _
  · intro address hunlisted
    by_cases haddress : address = rs.address p
    · rw [haddress]
      exact Function.update_self _ _ _
    · refine (Function.update_of_ne haddress _ _).trans
        (hshows.unlisted address fun slot hmem => ?_)
      have hslot := hunlisted slot
      change address ∉
        (s.relist p (s.procs p).resourcesToAcquire (kept ++ todo)).slots slot at hslot
      rw [hslots] at hslot
      by_cases hholds : slot = .resourcesHolding p
      · subst hholds
        rw [hlist] at hmem
        rw [Function.update_self] at hslot
        simp only [List.mem_append, List.mem_cons, haddress, false_or] at hmem hslot
        exact hslot hmem
      · rw [Function.update_of_ne hholds] at hslot
        exact hslot hmem

end Holding

end Shows

end Pointers

end OperatingSystem.Sched
