import OperatingSystem.SchedRefinement
import OperatingSystem.SchedPlain

/-!
# Runs on pointers

The loader builds a memory that shows the loaded script, whatever was in the memory before, and
then the run on pointers shows the run on lists, step for step. A run that goes astray shows
nothing, so there is none.
-/

namespace OperatingSystem.Sched.Pointers

variable {n : Nat} {script : Script n}

/-! ## Loading -/

/-- The lists of the processes that have been loaded. -/
def loadedSlots (script : Script n) (done : List (Fin n)) : Slot n → List (Address n)
  | .resourcesToAcquire p =>
    if done.contains p then (script p).process.resourcesToAcquire.map (ResourceSchedule.address p)
    else []
  | .resourcesHolding _ => []

def loadedLists (done : List (Fin n)) : Queue → List (Fin n)
  | .forkqueue => done
  | .readyqueue => []
  | .waitqueue _ => []

/-- The memory after the first blocks of a script. -/
structure Loaded (script : Script n) (done : List (Fin n)) (m : Memory n) : Prop where
  procs : ∀ p ∈ done, m.procs p = some (script p).process.fields
  queues : m.queues.Linked (loadedLists done)
  entries : ∃ heads, (∀ p, p ∈ done ↔ .resourcesToAcquire p ∈ heads) ∧
    (∀ p, p ∈ done ↔ .resourcesHolding p ∈ heads) ∧
    m.entries.LinkedOn heads (loadedSlots script done)
  schedules : ∀ p ∈ done, ∀ rs ∈ (script p).process.resourcesToAcquire,
    m.schedules (rs.address p) = some rs.toAcquire
  unlisted : ∀ address, (∀ slot, address ∉ loadedSlots script done slot) →
    m.schedules address = none
  owner : ∀ r, m.owner r = none
  current : m.current = none
  ticks : m.ticks = 0

theorem initListHead_ring {Node : Type} [DecidableEq Node] (l : Links Node) (x : Node) :
    (l.initListHead x).Ring x [] :=
  List.isChain_pair.mpr (Links.link_listDel x x)

/-- A head that points to itself does so after another head has been initialised. -/
theorem initListHead_self {Node : Type} [DecidableEq Node] {l : Links Node} {x y : Node}
    (hself : l.Ring x []) : (l.initListHead y).Ring x [] := by
  by_cases hxy : x = y
  · subst hxy
    exact initListHead_ring l x
  · exact hself.frame (by simpa using Ne.symm hxy) (by simpa using Ne.symm hxy)

theorem foldl_initListHead (rs : List (Fin NR_RESOURCES)) {l : Links (QueueNode n)}
    {x : QueueNode n} (hx : l.Ring x [] ∨ ∃ r ∈ rs, x = .inl (.waitqueue r)) :
    (rs.foldl (fun queues r => queues.initListHead (.inl (.waitqueue r))) l).Ring x [] := by
  induction rs generalizing l with
  | nil =>
      rcases hx with hself | ⟨r, hr, -⟩
      · exact hself
      · cases hr
  | cons r rs ih =>
      refine ih ?_
      rcases hx with hself | ⟨r', hr', rfl⟩
      · exact .inl (initListHead_self hself)
      · rcases List.mem_cons.mp hr' with rfl | hr'
        · exact .inl (initListHead_ring l _)
        · exact .inr ⟨r', hr', rfl⟩

theorem initialize_loaded (queues : Links (QueueNode n)) (entries : Links (EntryNode n))
    (script : Script n) : Loaded script [] ( __initialize queues entries) := by
  have hempty : ∀ q, loadedLists ([] : List (Fin n)) q = [] := fun q => by cases q <;> rfl
  have hslots : loadedSlots script [] = fun _ => [] := by
    funext slot
    cases slot <;> simp [loadedSlots]
  have hself : ∀ q, ( __initialize queues entries).queues.Ring (.inl q) [] := by
    intro q
    cases q with
    | forkqueue => exact initListHead_ring _ _
    | readyqueue =>
        exact initListHead_self (foldl_initListHead _ (.inl (initListHead_ring _ _)))
    | waitqueue r =>
        exact initListHead_self (foldl_initListHead _ (.inr ⟨r, List.mem_finRange r, rfl⟩))
  constructor
  case procs => simp
  case queues =>
    refine ⟨⟨fun q => ?_, fun hx => ?_⟩, fun q => ?_⟩
    · rw [hempty]
      exact List.nodup_nil
    · rw [hempty] at hx
      cases hx
    · rw [hempty]
      exact hself q
  case entries =>
    refine ⟨[], by simp, by simp, ?_⟩
    rw [hslots]
    exact Links.linkedOn_empty
  case schedules => simp
  case unlisted => exact fun _ _ => rfl
  case owner => exact fun _ => rfl
  case current => rfl
  case ticks => rfl

/-- The lines of a process block are linked into its list. -/
theorem loadAcquires {p : Fin n} {lines : List (Acquire × Nat)} {m : Memory n}
    {heads : List (Slot n)} {lists : Slot n → List (Address n)}
    (hlinked : m.entries.LinkedOn heads lists) (hhead : .resourcesToAcquire p ∈ heads)
    (hnodup : (lines.map Prod.snd).Nodup)
    (hfree : ∀ line ∈ lines, ∀ h, Address.block p line.2 ∉ lists h) :
    let after := lines.foldl (loadAcquire p) m
    after = { m with
      schedules := after.schedules
      entries := after.entries } ∧
    after.entries.LinkedOn heads (Function.update lists (.resourcesToAcquire p)
      (lists (.resourcesToAcquire p) ++ lines.map fun line => .block p line.2)) ∧
    (∀ line ∈ lines, after.schedules (.block p line.2) = some line.1) ∧
    ∀ address, (∀ line ∈ lines, address ≠ .block p line.2) →
      after.schedules address = m.schedules address := by
  induction lines generalizing m lists with
  | nil => simpa using hlinked
  | cons line lines ih =>
      rw [List.map_cons, List.nodup_cons] at hnodup
      have hnext : (loadAcquire p m line).entries.LinkedOn heads
          (Function.update lists (.resourcesToAcquire p)
            (lists (.resourcesToAcquire p) ++ [.block p line.2])) :=
        hlinked.listAddTail (hfree line List.mem_cons_self) hhead
      have hother : ∀ line' ∈ lines, line'.2 ≠ line.2 := by
        intro line' hmem heq
        exact hnodup.1 (heq ▸ List.mem_map_of_mem hmem)
      obtain ⟨hsame, hlists, hblocks, hframe⟩ := ih hnext hnodup.2 (by
        intro line' hmem h
        by_cases hh : h = .resourcesToAcquire p
        · subst hh
          simp [hfree line' (List.mem_cons_of_mem _ hmem), hother line' hmem]
        · rw [Function.update_of_ne hh]
          exact hfree line' (List.mem_cons_of_mem _ hmem) h)
      refine ⟨?_, ?_, ?_, ?_⟩
      · exact hsame
      · rw [Function.update_self, Function.update_idem, List.append_assoc] at hlists
        exact hlists
      · intro line' hmem
        rcases List.mem_cons.mp hmem with rfl | hmem
        · rw [List.foldl_cons, hframe _ fun line hline heq => hother line hline ?_]
          · exact Function.update_self _ _ _
          · simpa using heq.symm
        · exact hblocks line' hmem
      · intro address haddress
        rw [List.foldl_cons, hframe _ fun line' hmem =>
          haddress line' (List.mem_cons_of_mem _ hmem)]
        exact Function.update_of_ne (haddress line List.mem_cons_self) _ _

theorem process_acquires (description : Description) (p : Fin n) :
    (description.process.resourcesToAcquire.map (ResourceSchedule.address p)) =
      description.acquires.zipIdx.map fun line => .block p line.2 := by
  simp [Description.process, List.mapIdx_eq_zipIdx_map, ResourceSchedule.address]

theorem loadProcess_loaded {done : List (Fin n)} {m : Memory n} {p : Fin n}
    (hloaded : Loaded script done m) (hnew : p ∉ done) :
    Loaded script (done ++ [p]) (loadProcess script m p) := by
  obtain ⟨heads, hpending, hholding, hentries⟩ := hloaded.entries
  have hfree : ∀ line ∈ (script p).acquires.zipIdx, ∀ h,
      Address.block p line.2 ∉ loadedSlots script done h := by
    intro line _ h hmem
    cases h with
    | resourcesHolding q => cases hmem
    | resourcesToAcquire q =>
        by_cases hq : q ∈ done
        · simp only [loadedSlots, List.contains_iff_mem, if_pos hq, List.mem_map,
            ResourceSchedule.address, Address.block.injEq] at hmem
          obtain ⟨rs, -, rfl, -⟩ := hmem
          exact hnew hq
        · simp [loadedSlots, hq] at hmem
  have hnodup : ((script p).acquires.zipIdx.map Prod.snd).Nodup := by
    rw [List.zipIdx_map_snd]
    exact List.nodup_range'
  have hfirst := hentries.initListHead (mt (hpending p).mpr hnew)
  have hready := hfirst.initListHead (show Slot.resourcesHolding p ∉ _ by
    simpa using mt (hholding p).mpr hnew)
  have hunlinked : ∀ q, p ∉ loadedLists done q := by
    intro q hmem
    cases q with
    | forkqueue => exact hnew hmem
    | readyqueue | waitqueue r => cases hmem
  have hqueues : (m.queues.initListHead (.inr p)).Linked (loadedLists done) := by
    exact hloaded.queues.frame hunlinked fun node hnode =>
      ⟨Function.update_of_ne hnode _ _, Function.update_of_ne hnode _ _⟩
  let ready : Memory n :=
    { m with
      procs := Function.update m.procs p (some (script p).process.fields)
      queues := m.queues.initListHead (.inr p)
      entries := (m.entries.initListHead (.inl (.resourcesToAcquire p))).initListHead
        (.inl (.resourcesHolding p)) }
  have hreadyEntries : ready.entries.LinkedOn _ (loadedSlots script done) := hready
  obtain ⟨hsame, hlists, hblocks, hframe⟩ := loadAcquires hreadyEntries (by simp) hnodup hfree
  set linked := (script p).acquires.zipIdx.foldl (loadAcquire p) ready
  have hload : loadProcess script m p =
    { linked with queues := linked.queues.listAddTail (.inr p) (.inl .forkqueue) } := rfl
  have hprocs : linked.procs = ready.procs := by rw [hsame]
  have hlinkedQueues : linked.queues = m.queues.initListHead (.inr p) := by rw [hsame]
  have hslots : Function.update (loadedSlots script done) (.resourcesToAcquire p)
      (loadedSlots script done (.resourcesToAcquire p) ++
        (script p).acquires.zipIdx.map fun line => .block p line.2) =
      loadedSlots script (done ++ [p]) := by
    funext slot
    cases slot with
    | resourcesHolding q => rfl
    | resourcesToAcquire q =>
        by_cases hq : q = p
        · subst hq
          simp [loadedSlots, hnew, process_acquires]
        · simp [loadedSlots, hq]
  rw [hload]
  constructor
  case procs =>
    intro q hq
    rw [hprocs]
    rcases List.mem_append.mp hq with hq | hq
    · exact (Function.update_of_ne (ne_of_mem_of_not_mem hq hnew) _ _).trans (hloaded.procs q hq)
    · rw [List.mem_singleton.mp hq]
      exact Function.update_self _ _ _
  case queues =>
    have hlists' : Function.update (loadedLists done) .forkqueue
        (loadedLists done .forkqueue ++ [p]) = loadedLists (done ++ [p]) := by
      funext q
      cases q <;> rfl
    rw [hlinkedQueues, ← hlists']
    exact hqueues.listAddTail hunlinked .forkqueue
  case entries =>
    refine ⟨.resourcesHolding p :: .resourcesToAcquire p :: heads, fun q => ?_, fun q => ?_, ?_⟩
    · simp [hpending q, or_comm]
    · simp [hholding q, or_comm]
    · rw [← hslots]
      exact hlists
  case schedules =>
    intro q hq rs hrs
    rcases List.mem_append.mp hq with hq | hq
    · have hqp : q ≠ p := ne_of_mem_of_not_mem hq hnew
      refine (hframe _ fun line _ => ?_).trans (hloaded.schedules q hq rs hrs)
      simp [ResourceSchedule.address, hqp]
    · rw [List.mem_singleton.mp hq] at hrs ⊢
      rw [Description.process, List.mapIdx_eq_zipIdx_map] at hrs
      obtain ⟨line, hline, rfl⟩ := List.mem_map.mp hrs
      exact hblocks line hline
  case unlisted =>
    intro address hunlisted
    rw [← hslots] at hunlisted
    refine (hframe _ fun line hline heq => ?_).trans (hloaded.unlisted address fun slot hmem => ?_)
    · refine hunlisted (.resourcesToAcquire p) ?_
      rw [Function.update_self, heq]
      exact List.mem_append_right _ (List.mem_map_of_mem hline)
    · refine hunlisted slot ?_
      by_cases hslot : slot = .resourcesToAcquire p
      · subst hslot
        rw [Function.update_self]
        exact List.mem_append_left _ hmem
      · rwa [Function.update_of_ne hslot]
  case owner =>
    intro r
    rw [hsame]
    exact hloaded.owner r
  case current =>
    rw [hsame]
    exact hloaded.current
  case ticks =>
    rw [hsame]
    exact hloaded.ticks

theorem load_shows (queues : Links (QueueNode n)) (entries : Links (EntryNode n))
    (script : Script n) : Shows (load queues entries script) script.load := by
  have hall : ∀ (rest done : List (Fin n)) (m : Memory n), (done ++ rest).Nodup →
      Loaded script done m → Loaded script (done ++ rest) (rest.foldl (loadProcess script) m) := by
    intro rest
    induction rest with
    | nil =>
        intro done m _ hloaded
        simpa using hloaded
    | cons p rest ih =>
        intro done m hnodup hloaded
        have hnew : p ∉ done := by
          rw [List.nodup_middle, List.nodup_cons, List.mem_append, not_or] at hnodup
          exact hnodup.1.1
        have hnext := ih (done ++ [p]) _ (by simpa using hnodup) (loadProcess_loaded hloaded hnew)
        simpa using hnext
  have hloaded := hall (List.finRange n) [] _ (List.nodup_finRange n)
    (initialize_loaded queues entries script)
  rw [List.nil_append] at hloaded
  have hlists : script.load.lists = loadedLists (List.finRange n) := by
    funext q
    cases q <;> rfl
  have hslots : script.load.slots = loadedSlots script (List.finRange n) := by
    funext slot
    cases slot with
    | resourcesToAcquire p => simp [Sim.slots, loadedSlots, Script.load]
    | resourcesHolding p => rfl
  have hready : ∀ p, script.load.Live p := by simp [Sim.Live, Script.load, Description.process]
  obtain ⟨heads, hpending, hholding, hentries⟩ := hloaded.entries
  constructor
  case live => exact fun p _ => hloaded.procs p (List.mem_finRange p)
  case freed => exact fun p hp => absurd (hready p) hp
  case linked => exact fun p _ => hready p
  case queues =>
    rw [hlists]
    exact ⟨hloaded.queues, fun p hp => absurd (List.mem_finRange p) (hp .forkqueue)⟩
  case entries =>
    rw [hslots]
    refine hentries.linked fun slot => ?_
    cases slot with
    | resourcesToAcquire p => exact (hpending p).mp (List.mem_finRange p)
    | resourcesHolding p => exact (hholding p).mp (List.mem_finRange p)
  case schedules =>
    intro p rs hrs
    have hnone : rs ∉ (script.load.procs p).resourcesHolding := by
      simp [Script.load, Description.process]
    exact hloaded.schedules p (List.mem_finRange p) rs (hrs.resolve_right hnone)
  case unlisted =>
    rw [hslots]
    exact hloaded.unlisted
  case owner => exact hloaded.owner
  case current => exact hloaded.current
  case ticks => exact hloaded.ticks

/-! ## Runs -/

/-- The schedulers whose `schedule` callback tests whether `current` is blocked, on pointers and
on lists. -/
def schedulers (n : Nat) : List (Scheduler n × Sched.Scheduler n) :=
  [(fifoScheduler, Sched.fifoScheduler), (prioScheduler, Sched.prioScheduler),
    (pcpScheduler, Sched.pcpScheduler), (pipScheduler, Sched.pipScheduler)]

/-- The schedulers whose `schedule` callback does not. -/
def blindSchedulers (n : Nat) : List (Scheduler n × Sched.Scheduler n) :=
  [(sjfScheduler, Sched.sjfScheduler), (srtfScheduler, Sched.srtfScheduler),
    (rrScheduler, Sched.rrScheduler)]

theorem schedulers_implement {code : Scheduler n} {sched : Sched.Scheduler n}
    (hsched : (code, sched) ∈ schedulers n) :
    Implements code sched (fun _ => True) ∧ sched ∈ Sched.schedulers n := by
  simp only [schedulers, List.mem_cons, Prod.mk.injEq, List.not_mem_nil, or_false] at hsched
  rcases hsched with ⟨rfl, rfl⟩ | ⟨rfl, rfl⟩ | ⟨rfl, rfl⟩ | ⟨rfl, rfl⟩
  · exact ⟨fifo_implements, by simp [Sched.schedulers]⟩
  · exact ⟨prio_implements, by simp [Sched.schedulers]⟩
  · exact ⟨pcp_implements, by simp [Sched.schedulers]⟩
  · exact ⟨pip_implements, by simp [Sched.schedulers]⟩

theorem blindSchedulers_implement {code : Scheduler n} {sched : Sched.Scheduler n}
    (hsched : (code, sched) ∈ blindSchedulers n) :
    Implements code sched Sim.BlockedDone ∧ Blind sched := by
  simp only [blindSchedulers, List.mem_cons, Prod.mk.injEq, List.not_mem_nil, or_false] at hsched
  rcases hsched with ⟨rfl, rfl⟩ | ⟨rfl, rfl⟩ | ⟨rfl, rfl⟩
  · exact ⟨sjf_implements, sjfScheduler_blind⟩
  · exact ⟨srtf_implements, srtfScheduler_blind⟩
  · exact ⟨rr_implements, rrScheduler_blind⟩

/-- A run that shows a run on lists has not gone astray. -/
theorem Config.Shows.not_astray {c : Config n} {d : Sched.Config n} (hshows : c.Shows d) :
    c.pc ≠ .failed .astray := by
  obtain ⟨pc, m⟩ := c
  obtain ⟨pc', s⟩ := d
  rintro rfl
  cases pc' with
  | failed fault => cases hshows
  | iterate | acquire | release | finished => exact hshows.elim

variable (queues : Links (QueueNode n)) (entries : Links (EntryNode n))

theorem pointers_shows {code : Scheduler n} {sched : Sched.Scheduler n}
    (hsched : (code, sched) ∈ schedulers n) (script : Script n) (count : Nat) :
    (code.next^[count] (start queues entries script)).Shows
      (sched.next^[count] script.start) := by
  obtain ⟨himpl, hmem⟩ := schedulers_implement hsched
  obtain ⟨policy, hlaw⟩ := schedulers_lawful hmem
  induction count with
  | zero => exact load_shows queues entries script
  | succ count ih =>
      rw [Function.iterate_succ_apply', Function.iterate_succ_apply']
      have hreach := Machine.reachable_iterate script.start sched.next count
      have hwf := reachable_wellFormed hlaw hreach
      exact next_shows himpl ih hwf fun _ => trivial

/-- **The lists are what the pointers show.** Under the schedulers that test whether `current` is
blocked, a run on pointers is the run on lists, step for step and from any memory, and it never
goes astray. -/
theorem pointers_refine {code : Scheduler n} {sched : Sched.Scheduler n}
    (hsched : (code, sched) ∈ schedulers n) (script : Script n) (count : Nat) :
    (code.next^[count] (start queues entries script)).Shows (sched.next^[count] script.start) ∧
      (code.next^[count] (start queues entries script)).pc ≠ .failed .astray :=
  have hshows := pointers_shows queues entries hsched script count
  ⟨hshows, hshows.not_astray⟩

/-- A run of `pip_scheduler` up to a state where a process waits for a resource. -/
theorem pointers_refine_contended :
    ((Sched.pipScheduler.next^[9] contended.start).sim.resources 0).waitqueue = [1] ∧
      (pipScheduler.next^[9] (start ⟨id, id⟩ ⟨id, id⟩ contended)).Shows
        (Sched.pipScheduler.next^[9] contended.start) ∧
      (pipScheduler.next^[9] (start ⟨id, id⟩ ⟨id, id⟩ contended)).pc ≠ .failed .astray := by
  have hsched : (pipScheduler, Sched.pipScheduler) ∈ schedulers 2 := by simp [schedulers]
  exact ⟨by decide +kernel, pointers_refine ⟨id, id⟩ ⟨id, id⟩ hsched contended 9⟩

/-- Under the other schedulers the same holds as long as no process is blocked that has time
left: they would queue it a second time. -/
theorem blind_pointers_refine {code : Scheduler n} {sched : Sched.Scheduler n}
    (hsched : (code, sched) ∈ blindSchedulers n) (script : Script n) (count : Nat)
    (hdone : ∀ k < count, (sched.next^[k] script.start).BlockedDone) :
    (code.next^[count] (start queues entries script)).Shows (sched.next^[count] script.start) ∧
      (code.next^[count] (start queues entries script)).pc ≠ .failed .astray := by
  obtain ⟨himpl, hblind⟩ := blindSchedulers_implement hsched
  have hshows : (code.next^[count] (start queues entries script)).Shows
      (sched.next^[count] script.start) := by
    induction count with
    | zero => exact load_shows queues entries script
    | succ count ih =>
        have hreach : ((sched.machine script).restrict Config.BlockedDone).Reachable
            (sched.next^[count] script.start) :=
          Machine.restrict_iterate fun k hk => hdone k (Nat.lt_succ_of_lt hk)
        have hwf := (hblind.reachable hreach).1
        rw [Function.iterate_succ_apply', Function.iterate_succ_apply']
        refine next_shows himpl (ih fun k hk => hdone k (Nat.lt_succ_of_lt hk)) hwf fun hpc => ?_
        exact forkOnSchedule_blockedDone hwf.queued (hdone count (Nat.lt_succ_self count) hpc)
  exact ⟨hshows, hshows.not_astray⟩

/-- Two processes that take turns; the first has a resource for a tick. -/
def turns : Script 2 := ![⟨1, 0, 2, 0, [⟨0, 0, 1⟩]⟩, ⟨2, 0, 2, 0, []⟩]

/-- The whole run of `rr_scheduler` on `turns`: at the second head the current process is put back
into the ready queue. -/
theorem blind_pointers_refine_turns :
    (Sched.rrScheduler.next^[15] turns.start).pc = .finished ∧
      (Sched.rrScheduler.next^[6] turns.start).sim.readyqueue ≠ [] ∧
      (rrScheduler.next^[15] (start ⟨id, id⟩ ⟨id, id⟩ turns)).Shows
        (Sched.rrScheduler.next^[15] turns.start) ∧
      (rrScheduler.next^[15] (start ⟨id, id⟩ ⟨id, id⟩ turns)).pc ≠ .failed .astray := by
  have hsched : (rrScheduler, Sched.rrScheduler) ∈ blindSchedulers 2 := by simp [blindSchedulers]
  refine ⟨by decide +kernel, by decide +kernel, ?_⟩
  exact blind_pointers_refine ⟨id, id⟩ ⟨id, id⟩ hsched turns 15 (by decide +kernel)

/-! ## What is left at the end -/

section Exited

variable {policy : Policy n}

theorem Turn.exited_pending {s after : Sim n} {next : Option (Fin n)} (hqueued : s.Queued)
    (hturn : Turn policy (Sched.__forkOnSchedule s) next after) {p : Fin n}
    (hexit : (after.procs p).status = .exit) :
    (s.procs p).status = .exit ∨ (s.procs p).resourcesToAcquire = [] := by
  have hprocs := forkOnSchedule_procs hqueued
  rw [hturn.status, Sim.turnedStatus] at hexit
  split at hexit
  · cases hexit
  · split at hexit
    next hcurrent =>
      by_cases hage : ((Sched.__forkOnSchedule s).procs p).age =
          ((Sched.__forkOnSchedule s).procs p).lifespan
      · have hretired := (hturn.retired p hcurrent hage).2.2
        rw [hprocs] at hretired
        exact .inr hretired
      · rw [Process.updatedStatus, if_neg hage, hprocs] at hexit
        split at hexit
        · cases hexit
        · exact .inl hexit
    next =>
      rw [hprocs] at hexit
      exact .inl hexit

/-- A process that has been freed has no entry left. -/
theorem Effect.exited_pending {c next : Sched.Config n} (hwf : c.WellFormed)
    (heffect : Effect policy c next)
    (hinv : ∀ p, (c.sim.procs p).status = .exit → (c.sim.procs p).resourcesToAcquire = [])
    (p : Fin n) (hexit : (next.sim.procs p).status = .exit) :
    (next.sim.procs p).resourcesToAcquire = [] := by
  have hbefore : (c.sim.procs p).status = .exit ∨ (c.sim.procs p).resourcesToAcquire = [] := by
    cases heffect with
    | finish hturn | idle hturn | dispatch hturn => exact Turn.exited_pending hwf.queued hturn hexit
    | refuse | skip | finished | failed | tick => exact .inl hexit
    | @grant s =>
        rw [s.granted_frame] at hexit
        exact .inl hexit
    | @block s q =>
        by_cases hp : p = q
        · subst hp
          simp at hexit
        · rw [s.blocked_of_ne q _ _ hp] at hexit
          exact .inl hexit
    | @grow s =>
        rw [s.grow_frame] at hexit
        exact .inl hexit
    | @keep s =>
        rw [s.setHolding_frame] at hexit
        exact .inl hexit
    | @drop s =>
        rw [s.freed_frame] at hexit
        exact .inl hexit
    | @wake s q first waiter =>
        by_cases hp : p = waiter
        · subst hp
          simp at hexit
        · rw [Sim.moveToReady_of_ne _ _ _ hp, Sim.freed_frame] at hexit
          exact .inl hexit
  have hempty := hbefore.elim (hinv p) id
  exact List.subset_nil.mp (hempty ▸ heffect.pending_subset hwf p)

end Exited

/-- The configuration that a finished run shows. -/
theorem Config.Shows.finished {c : Config n} {d : Sched.Config n} (hshows : c.Shows d)
    (hpc : c.pc = .finished) : d.pc = .finished ∧ Pointers.Shows c.memory d.sim := by
  obtain ⟨pc, m⟩ := c
  obtain ⟨pc', s⟩ := d
  obtain rfl : pc = .finished := hpc
  cases pc' with
  | finished => exact ⟨rfl, hshows⟩
  | iterate | acquire | release | failed => exact hshows.elim

/-- A process and its entries have been freed. -/
def Memory.Freed (m : Memory n) (p : Fin n) : Prop :=
  m.procs p = none ∧ ∀ node, m.schedules (.block p node) = none

/-- A process is linked into the queue of a resource whose owner has not been freed. -/
def Memory.Stuck (m : Memory n) (p : Fin n) : Prop :=
  ∃ r q nodes, m.queues.Ring (.inl (.waitqueue r)) nodes ∧ .inr p ∈ nodes ∧
    m.owner r = some q ∧ m.procs q ≠ none

/-- What the run on lists has exited has been freed at the end. -/
theorem exited_freed {code : Scheduler n} {sched : Sched.Scheduler n}
    (hsched : (code, sched) ∈ schedulers n) {count : Nat}
    (hpc : (code.next^[count] (start queues entries script)).pc = .finished) {p : Fin n}
    (hexit : ((sched.next^[count] script.start).sim.procs p).status = .exit) :
    (code.next^[count] (start queues entries script)).memory.Freed p := by
  obtain ⟨policy, hlaw⟩ := schedulers_lawful (schedulers_implement hsched).2
  have hreach : (sched.machine script).Reachable (sched.next^[count] script.start) :=
    Machine.reachable_iterate script.start sched.next count
  have hshows := ((pointers_shows queues entries hsched script count).finished hpc).2
  set d := sched.next^[count] script.start
  have hpending : (d.sim.procs p).resourcesToAcquire = [] := by
    refine reachable_invariant hlaw (fun c => ∀ p, (c.sim.procs p).status = .exit →
      (c.sim.procs p).resourcesToAcquire = []) ?_ ?_ hreach p hexit
    · intro p hstart
      cases hstart
    · exact fun _ _ _ hwf heffect hinv => Effect.exited_pending hwf heffect hinv
  have hholding := (reachable_wellFormed hlaw hreach).owned.exited p hexit
  refine ⟨hshows.freed p (not_not.mpr hexit), fun node => hshows.unlisted _ ?_⟩
  rintro (q | q) hmem
  · obtain ⟨rs, hrs, haddress⟩ := List.mem_map.mp hmem
    obtain ⟨rfl, -⟩ := Address.block.inj haddress
    simp [hpending] at hrs
  · obtain ⟨rs, hrs, haddress⟩ := List.mem_map.mp hmem
    obtain ⟨rfl, -⟩ := Address.block.inj haddress
    simp [hholding] at hrs

/-- **Nothing leaks but a deadlock.** When the simulation of a regular script ends, every process
has been freed with its entries, or it is stuck. -/
theorem nothing_leaks {code : Scheduler n} {sched : Sched.Scheduler n}
    (hsched : (code, sched) ∈ schedulers n) {script : Script n} (hregular : script.Regular)
    (count : Nat) :
    let c := code.next^[count] (start queues entries script)
    c.pc = .finished → ∀ p, c.memory.Freed p ∨ c.memory.Stuck p := by
  intro c hpc p
  by_cases hexit : ((sched.next^[count] script.start).sim.procs p).status = .exit
  · exact .inl (exited_freed queues entries hsched hpc hexit)
  obtain ⟨policy, hlaw⟩ := schedulers_lawful (schedulers_implement hsched).2
  have hreach : (sched.machine script).Reachable (sched.next^[count] script.start) :=
    Machine.reachable_iterate script.start sched.next count
  obtain ⟨hfinished, hshows⟩ := (pointers_shows queues entries hsched script count).finished hpc
  obtain ⟨q, hq, r, hwait, howner⟩ := stranded_waits (reachable_wellFormed hlaw hreach)
    (reachable_handed hlaw hreach) (reachable_located hlaw hregular hreach)
    (reachable_stranded hlaw hreach) hfinished hexit
  refine .inr ⟨r, q, _, hshows.queues.ring (.waitqueue r), List.mem_map_of_mem hwait, ?_, ?_⟩
  · rw [hshows.owner, howner]
  · rw [hshows.live q hq]
    exact Option.some_ne_none _

/-- The first process requests again what it holds, and the second one needs another resource. -/
def abandoned : Script 2 :=
  ![⟨1, 0, 3, 0, [⟨0, 0, 2⟩, ⟨0, 1, 1⟩]⟩, ⟨2, 1, 2, 0, [⟨1, 0, 1⟩]⟩]

/-- At the end of `abandoned` the second process has been freed, and the first one is stuck in the
queue of its own resource. -/
theorem nothing_leaks_abandoned :
    let c := pipScheduler.next^[25] (start ⟨id, id⟩ ⟨id, id⟩ abandoned)
    c.pc = .finished ∧ c.memory.procs 1 = none ∧ c.memory.Stuck 0 ∧
      ∀ p, c.memory.Freed p ∨ c.memory.Stuck p := by
  intro c
  have hsched : (pipScheduler, Sched.pipScheduler) ∈ schedulers 2 := by simp [schedulers]
  have hregular : abandoned.Regular := ⟨by decide, by decide, by decide⟩
  have hpc : c.pc = .finished := by decide +kernel
  have hall : ∀ p, c.memory.Freed p ∨ c.memory.Stuck p :=
    nothing_leaks ⟨id, id⟩ ⟨id, id⟩ hsched hregular 25 hpc
  have hlive : c.memory.procs 0 ≠ none := by decide +kernel
  exact ⟨hpc, by decide +kernel, (hall 0).resolve_left fun hfreed => hlive hfreed.1, hall⟩

end OperatingSystem.Sched.Pointers
