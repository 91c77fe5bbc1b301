import OperatingSystem.RingFifo
import OperatingSystem.RingProgramPhases

/-!
# The work of the threads

In every run the buffer is in a state that its own machine reaches, the generators and the counter
have made the calls that their places tell, and the values that the counter takes out are values
that generators have put in. So no assertion fails and no index is out of bounds: nothing but the
division of a report stops the program.
-/

namespace OperatingSystem.Ring

open RingLoops (MAX_VALUE Fault progress progress_ok nrRequestsToGenerate)

/-! ## What is in the buffer -/

section Buffer

variable {T : Type*} [DecidableEq T] {r : Ringbuffer T} {t : T} {n : Nat} {memory : Nat → Int}
  {guard : Ringbuffer T → T → Operation → Prop}

theorem Unseen.refl (r : Ringbuffer T) (t : T) : Unseen r r t :=
  ⟨rfl, rfl, fun _ => rfl, fun _ => rfl⟩

theorem timesOf_eq_zero {entries : List (T × Int)} (hzero : timesOf entries t = 0) (value : Int) :
    (t, value) ∉ entries := fun hmem =>
  List.count_eq_zero.mp hzero (List.mem_map_of_mem hmem)

/-- A call that has stored its value has returned, or it is under way. -/
theorem written_cases (hreach : (machine n memory guard).Reachable r) {value : Int}
    (hmem : (t, value) ∈ r.written) :
    (t, value) ∈ r.enqueued ∨ ∃ line, r.stage t = .enqueue value line := by
  have hpositive := List.count_pos_iff.mpr hmem
  rw [(reachable_valued hreach t value).written] at hpositive
  by_cases hstored : (r.stage t).stored = some value
  · right
    cases hstage : r.stage t with
    | idle | dequeue line => simp [hstage, Stage.stored] at hstored
    | enqueue value' line =>
        simp only [hstage, Stage.stored, Option.ite_none_right_eq_some, Option.some.injEq]
          at hstored
        exact ⟨line, by rw [hstored.2]⟩
  · rw [if_neg hstored, Nat.add_zero] at hpositive
    exact .inl (List.count_pos_iff.mp hpositive)

/-- What `dequeue_from_ringbuffer` is about to return has been stored. -/
theorem result_written (hreach : (machine n memory guard).Reachable r) {value : Int}
    (hstage : r.stage t = .dequeue (.releaseSema value)) : ∃ u, (u, value) ∈ r.written := by
  have hread : (t, value) ∈ r.read := by
    rw [← List.count_pos_iff, (reachable_valued hreach t value).read, hstage,
      if_pos (by rfl)]
    exact Nat.succ_pos _
  have hvalue := (read_isPrefix hreach).subset (List.mem_map_of_mem hread)
  obtain ⟨⟨u, value'⟩, hmem, rfl⟩ := List.mem_map.mp hvalue
  exact ⟨u, hmem⟩

end Buffer

namespace Program

variable {G : Nat} {options : Options} {p next : Program G} {n : Nat} {memory : Nat → Int}

/-- The calls of the threads are those of the machine of the buffer, and the threads are as far
with them as their places tell. -/
structure Working (options : Options) (n : Nat) (memory : Nat → Int) (p : Program G) : Prop where
  ring : (machine n memory (mains G options.nrGenerate)).Reachable p.ring
  generator : ∀ g, Generating options.nrGenerate p.ring (some g) (p.generator g) (p.generated g)
  counter : Counting (G * options.nrGenerate) p.ring none p.counter p.valueCounter

namespace Working

variable (hworking : p.Working options n memory)
include hworking

/-- A step of a generator. -/
theorem goGenerator {g : Fin G} {pc : GeneratorPc} {generated : Fin MAX_VALUE → Nat}
    (hring : (machine n memory (mains G options.nrGenerate)).Reachable next.ring)
    (hunseen : ∀ t, t ≠ some g → Unseen p.ring next.ring t)
    (hgenerator : next.generator = Function.update p.generator g pc)
    (hgenerated : next.generated = Function.update p.generated g generated)
    (hcounter : next.counter = p.counter) (hvalues : next.valueCounter = p.valueCounter)
    (hself : Generating options.nrGenerate next.ring (some g) pc generated) :
    next.Working options n memory where
  ring := hring
  generator := fun g' => by
    rw [hgenerator, hgenerated]
    by_cases hg : g' = g
    · subst hg
      rw [Function.update_self, Function.update_self]
      exact hself
    · rw [Function.update_of_ne hg, Function.update_of_ne hg]
      exact (hworking.generator g').unseen (hunseen (some g') (by simpa using hg))
  counter := by
    rw [hcounter, hvalues]
    exact hworking.counter.unseen (hunseen none nofun)

/-- A step of the counter, or one of `main` that leaves the generators. -/
theorem goCounter (hring : (machine n memory (mains G options.nrGenerate)).Reachable next.ring)
    (hunseen : ∀ g, Unseen p.ring next.ring (some g)) (hgenerator : next.generator = p.generator)
    (hgenerated : next.generated = p.generated)
    (hself : Counting (G * options.nrGenerate) next.ring none next.counter next.valueCounter) :
    next.Working options n memory where
  ring := hring
  generator := fun g => by
    rw [hgenerator, hgenerated]
    exact (hworking.generator g).unseen (hunseen g)
  counter := hself

/-- A move of a generator outside the buffer. -/
theorem moveGenerator {g : Fin G} {pc : GeneratorPc} (hring : next.ring = p.ring)
    (hgenerator : next.generator = Function.update p.generator g pc)
    (hgenerated : next.generated = p.generated) (hcounter : next.counter = p.counter)
    (hvalues : next.valueCounter = p.valueCounter)
    (hself : Generating options.nrGenerate p.ring (some g) pc (p.generated g)) :
    next.Working options n memory := by
  apply hworking.goGenerator (by rw [hring]; exact hworking.ring) _ hgenerator _ hcounter hvalues
  · rw [hring]
    exact hself
  · intro t _
    rw [hring]
    exact .refl _ _
  · rw [hgenerated, Function.update_eq_self]

/-- A move that only the counter and `main` take part in. -/
theorem moveCounter (hring : next.ring = p.ring) (hgenerator : next.generator = p.generator)
    (hgenerated : next.generated = p.generated)
    (hself : Counting (G * options.nrGenerate) p.ring none next.counter next.valueCounter) :
    next.Working options n memory := by
  apply hworking.goCounter (by rw [hring]; exact hworking.ring) _ hgenerator hgenerated
  · rw [hring]
    exact hself
  · intro g
    rw [hring]
    exact .refl _ _

/-- What has been stored is in range, since a generator has stored it. -/
theorem written_inRange {t : Thread G} {value : Int} (hmem : (t, value) ∈ p.ring.written) :
    InRange value := by
  have hemployed := reachable_employed hworking.ring t
  rcases written_cases hworking.ring hmem with henqueued | ⟨line, hstage⟩
  · cases t with
    | none => exact absurd henqueued (timesOf_eq_zero (hemployed.counter rfl).1 value)
    | some g => exact (hworking.generator g).enqueued value henqueued
  · cases t with
    | none => exact absurd hstage ((hemployed.counter rfl).2 value line)
    | some g =>
        have hgenerator := hworking.generator g
        cases hcalling : (p.generator g).calling with
        | none => simp [hgenerator.idle hcalling] at hstage
        | some value' =>
            obtain ⟨line', hstage'⟩ := hgenerator.busy value' hcalling
            obtain ⟨rfl, -⟩ := Stage.enqueue.inj (hstage'.symm.trans hstage)
            exact hgenerator.valid.calling hcalling

/-- What the counter takes out is in range. -/
theorem result_inRange
    (hstage : p.ring.stage none = .dequeue (.releaseSema (p.ring.stage none).result)) :
    InRange (p.ring.stage none).result := by
  obtain ⟨t, hmem⟩ := result_written hworking.ring hstage
  exact hworking.written_inRange hmem

end Working

theorem start_working : (start n memory : Program G).Working options n memory where
  ring := Machine.reachable_init
  generator := fun g => by
    refine ⟨trivial, rfl, fun _ => rfl, (fun _ hvalue => by cases hvalue),
      (fun _ hmem => by cases hmem), fun value => ?_⟩
    simp [start, initRingbuffer, GeneratorPc.owed]
  counter := by
    refine ⟨trivial, rfl, fun _ => rfl, (fun hbusy => by cases hbusy), fun value => ?_⟩
    simp [start, initRingbuffer, CounterPc.owed]

/-- The index of an entry is the value. -/
theorem entry?_val {value : Int} {entry : Fin MAX_VALUE} (hentry : entry? value = some entry) :
    (entry.val : Int) = value := by
  unfold entry? at hentry
  split at hentry
  next hbounds =>
    cases hentry
    exact Int.toNat_of_nonneg hbounds.1
  · cases hentry

/-- A step inside the buffer is a step of its machine. -/
theorem Working.act (hworking : p.Working options n memory) {label : Label (Thread G)}
    {ring : Ringbuffer (Thread G)} (hact : p.ring.act label = some ring)
    (hallowed : label.Allowed (mains G options.nrGenerate) p.ring) :
    (machine n memory (mains G options.nrGenerate)).Reachable ring ∧
      Effect p.ring label.thread ring :=
  ⟨hworking.ring.step ⟨hallowed, hact⟩, reachable_effect hworking.ring ⟨hallowed, hact⟩⟩

/-- A step of a generator. -/
theorem Move.working_generator {g : Fin G} {random : Nat}
    (hmove : Move options p (.generator g random) next)
    (hworking : p.Working options n memory) : next.Working options n memory := by
  have hself := hworking.generator g
  have hvalid := hself.valid
  cases hmove with
  | arrive _ _ k hpc =>
      refine hworking.moveGenerator rfl rfl rfl rfl rfl ?_
      refine hself.move trivial ?_ (by rw [hpc]; rfl) rfl (by rw [hpc]; rfl)
      rw [hpc]
      cases k <;> rfl
  | pass _ _ k round hpc hopen =>
      refine hworking.moveGenerator rfl rfl rfl rfl rfl ?_
      rcases k with _ | _ | k
      · exact hself.move (Nat.zero_le _) (by rw [hpc]; rfl) (by rw [hpc]; rfl) rfl
          (by rw [hpc]; rfl)
      · exact hself.move trivial (by rw [hpc]; rfl) (by rw [hpc]; rfl) rfl (by rw [hpc]; rfl)
      · exact hself.move trivial (by rw [hpc]; rfl) (by rw [hpc]; rfl) rfl (by rw [hpc]; rfl)
  | choose _ _ i hpc hi value =>
      refine hworking.moveGenerator rfl rfl rfl rfl rfl ?_
      refine hself.move ⟨hi, Int.natCast_nonneg _, ?_⟩ (by rw [hpc]; rfl) (by rw [hpc]; rfl) rfl
        (by rw [hpc]; rfl)
      exact_mod_cast value.isLt
  | endLoop _ _ i hpc hi =>
      refine hworking.moveGenerator rfl rfl rfl rfl rfl ?_
      rw [hpc] at hvalid
      have hend : options.nrGenerate = i := Nat.le_antisymm (Nat.not_lt.mp hi) hvalid
      exact hself.move trivial (by rw [hpc]; exact hend) (by rw [hpc]; rfl) rfl (by rw [hpc]; rfl)
  | enqueue _ _ i value hpc hrange ring hact =>
      rw [hpc] at hvalid
      have hcalls : p.ring.calls (some g) = i := by rw [hself.calls, hpc]; rfl
      have hallowed : mains G options.nrGenerate p.ring (some g) (.enqueue value) :=
        ⟨trivial, hcalls.trans_lt hvalid.1⟩
      obtain ⟨hring, heffect⟩ := hworking.act hact hallowed
      obtain ⟨-, rfl⟩ := act_call hact
      exact hworking.goGenerator hring (fun t ht => heffect.unseen ht) rfl
        (Function.update_eq_self _ _).symm rfl rfl (hself.call hpc)
  | enqueueStep _ _ i value hpc ring hact =>
      obtain ⟨hring, heffect⟩ := hworking.act hact trivial
      exact hworking.goGenerator hring (fun t ht => heffect.unseen ht) rfl
        (Function.update_eq_self _ _).symm rfl rfl (hself.inside hpc heffect)
  | account _ _ i value hpc entry hentry =>
      exact hworking.goGenerator hworking.ring (fun t _ => .refl _ t) rfl rfl rfl rfl
        (hself.account hpc (entry?_val hentry))
  | report _ _ i hpc =>
      refine hworking.moveGenerator rfl rfl rfl rfl rfl ?_
      rw [hpc] at hvalid
      exact hself.move hvalid (by rw [hpc]; rfl) (by rw [hpc]; rfl) rfl (by rw [hpc]; rfl)
  | failAssertion | enqueueOutOfBounds | accountOutOfBounds | divide =>
      exact ⟨hworking.ring, hworking.generator, hworking.counter⟩

theorem nrRequests_eq (hfits : options.nrGenerate * G < 2 ^ 64) :
    nrRequests (G := G) options = G * options.nrGenerate := by
  rw [nrRequests, nrRequestsToGenerate, Nat.mod_eq_of_lt hfits, Nat.mul_comm]

/-- A step of the counter. -/
theorem Move.working_counter (hfits : options.nrGenerate * G < 2 ^ 64)
    (hmove : Move options p .counter next) (hworking : p.Working options n memory) :
    next.Working options n memory := by
  have hrequests := nrRequests_eq hfits
  have hself := hworking.counter
  have hvalid := hself.valid
  cases hmove with
  | dequeue i hpc hi ring hact =>
      rw [hrequests] at hi
      have hcalls : p.ring.calls none = i := by rw [hself.calls, hpc]; rfl
      have hallowed : mains G options.nrGenerate p.ring none .dequeue :=
        ⟨trivial, hcalls.trans_lt hi⟩
      obtain ⟨hring, heffect⟩ := hworking.act hact hallowed
      obtain ⟨-, rfl⟩ := act_call hact
      exact hworking.goCounter hring (fun g => heffect.unseen nofun) rfl rfl (hself.call hpc hi)
  | endCounting i hpc hi =>
      rw [hrequests] at hi
      rw [hpc] at hvalid
      have hend : G * options.nrGenerate = i := Nat.le_antisymm (Nat.not_lt.mp hi) hvalid
      exact hworking.moveCounter rfl rfl rfl
        (hself.move trivial (by rw [hpc]; exact hend) (by rw [hpc]; rfl) rfl (by rw [hpc]; rfl))
  | dequeueStep i hpc ring hact =>
      obtain ⟨hring, heffect⟩ := hworking.act hact trivial
      exact hworking.goCounter hring (fun g => heffect.unseen nofun) rfl rfl
        (hself.inside hpc heffect hworking.result_inRange)
  | assertCounted i value hpc hrange =>
      rw [hpc] at hvalid
      exact hworking.moveCounter rfl rfl rfl
        (hself.move hvalid (by rw [hpc]; rfl) (by rw [hpc]; rfl) rfl (by rw [hpc]; rfl))
  | count i value hpc entry hentry =>
      exact hworking.moveCounter rfl rfl rfl (hself.account hpc (entry?_val hentry))
  | reportCounted i hpc =>
      rw [hpc] at hvalid
      exact hworking.moveCounter rfl rfl rfl
        (hself.move hvalid (by rw [hpc]; rfl) (by rw [hpc]; rfl) rfl (by rw [hpc]; rfl))
  | failCounted | dequeueOutOfBounds | countOutOfBounds | divideCounted =>
      exact ⟨hworking.ring, hworking.generator, hworking.counter⟩

/-- A step of `main`. -/
theorem Move.working_main (hmove : Move options p .main next) (hplace : p.InPlace)
    (hworking : p.Working options n memory) : next.Working options n memory := by
  cases hmove with
  | spawnCounter hpc =>
      have hcounter := hplace.counter.mpr hpc
      refine hworking.moveCounter rfl rfl rfl ?_
      exact hworking.counter.move (Nat.zero_le _) (by rw [hcounter]; rfl) (by rw [hcounter]; rfl)
        rfl (by rw [hcounter]; rfl)
  | spawnGenerator g hpc =>
      have hcreated := hplace.notCreated hpc
      refine hworking.moveGenerator rfl rfl rfl rfl rfl ?_
      exact (hworking.generator g).move trivial (by rw [hcreated]; rfl) (by rw [hcreated]; rfl) rfl
        (by rw [hcreated]; rfl)
  | _ => exact hworking.moveCounter rfl rfl rfl hworking.counter

theorem reachable_working (hfits : options.nrGenerate * G < 2 ^ 64)
    (hreach : (program options n memory).Reachable p) : p.Working options n memory := by
  apply hreach.invariant (Working options n memory) start_working
  intro p turn next hreach hworking hstep
  have hmove := (step_move hstep).2
  cases turn with
  | main => exact hmove.working_main (reachable_phased hreach).place hworking
  | generator g random => exact hmove.working_generator hworking
  | counter => exact hmove.working_counter hfits hworking

/-! ## What stops the program -/

/-- No report divides by zero: the program is quiet, or each generator has one request or at least
sixteen, and so have all together. -/
def SafeReports (options : Options) (G : Nat) : Prop :=
  options.verbose = true → 16 ≤ options.nrGenerate ∨
    options.nrGenerate = 1 ∧ (G = 1 ∨ 16 ≤ G)

theorem SafeReports.generator (hsafe : SafeReports options G) {i : Nat}
    (hi : i < options.nrGenerate) :
    ∃ lines, progress options.verbose options.nrGenerate i = .ok lines :=
  progress_ok fun hverbose hne => by
    have hmany := hsafe hverbose
    omega

theorem SafeReports.counter (hsafe : SafeReports options G) {i : Nat}
    (hi : i < G * options.nrGenerate) :
    ∃ lines, progress options.verbose (G * options.nrGenerate) i = .ok lines :=
  progress_ok fun hverbose hne => by
    have hG : 0 < G := Nat.pos_of_mul_pos_right (Nat.zero_lt_of_lt hi)
    rcases hsafe hverbose with hmany | ⟨hone, hfew⟩
    · exact hmany.trans (Nat.le_mul_of_pos_left _ hG)
    · rw [hone, Nat.mul_one] at hi ⊢
      omega

/-- A step stops the program only if it divides by zero for a report. -/
theorem Move.stopped (hn : 0 < n) (hgenerators : 0 < G) (hgenerate : 0 < options.nrGenerate)
    (hfits : options.nrGenerate * G < 2 ^ 64) {turn : Turn G}
    (hmove : Move options p turn next) (hworking : p.Working options n memory) :
    next.stopped = p.stopped ∨ next.stopped = some .divisionByZero ∧
      (¬ SafeReports options G ∨ options.elapsed = 0) := by
  cases hmove with
  | divideTime mismatch hpc htime => exact .inr ⟨rfl, .inr htime⟩
  | divide g random i hpc hprogress =>
      refine .inr ⟨rfl, .inl fun hsafe => ?_⟩
      have hvalid := (hworking.generator g).valid
      rw [hpc] at hvalid
      obtain ⟨lines, hlines⟩ := hsafe.generator hvalid
      rw [hlines] at hprogress
      cases hprogress
  | divideCounted i hpc hprogress =>
      refine .inr ⟨rfl, .inl fun hsafe => ?_⟩
      have hvalid := hworking.counter.valid
      rw [hpc] at hvalid
      obtain ⟨lines, hlines⟩ := hsafe.counter hvalid
      rw [nrRequests_eq hfits, hlines] at hprogress
      cases hprogress
  | failAssertion g random i value hpc hrange =>
      have hvalid := (hworking.generator g).valid
      rw [hpc] at hvalid
      exact absurd hvalid.2 hrange
  | failCounted i value hpc hrange =>
      have hvalid := hworking.counter.valid
      rw [hpc] at hvalid
      exact absurd hvalid.2 hrange
  | failGenerators hpc hsome => exact absurd ⟨hgenerators, hgenerate⟩ hsome
  | enqueueOutOfBounds _ _ _ _ _ hslot | dequeueOutOfBounds _ _ hslot =>
      rw [leavesSlots_eq_false hn hworking.ring] at hslot
      cases hslot
  | accountOutOfBounds g random i value hpc hentry =>
      have hvalid := (hworking.generator g).valid
      rw [hpc] at hvalid
      obtain ⟨entry, hsome, -⟩ := entry?_of_inRange hvalid.2
      rw [hsome] at hentry
      cases hentry
  | countOutOfBounds i value hpc hentry =>
      have hvalid := hworking.counter.valid
      rw [hpc] at hvalid
      obtain ⟨entry, hsome, -⟩ := entry?_of_inRange hvalid.2
      rw [hsome] at hentry
      cases hentry
  | _ => exact .inl rfl

theorem reachable_stopped (hn : 0 < n) (hgenerators : 0 < G) (hgenerate : 0 < options.nrGenerate)
    (hfits : options.nrGenerate * G < 2 ^ 64)
    (hreach : (program options n memory).Reachable p) :
    p.stopped = none ∨ p.stopped = some .divisionByZero ∧
      (¬ SafeReports options G ∨ options.elapsed = 0) := by
  apply hreach.invariant fun p : Program G => p.stopped = none ∨
    p.stopped = some .divisionByZero ∧ (¬ SafeReports options G ∨ options.elapsed = 0)
  · exact .inl rfl
  · intro p turn next hreach hstopped hstep
    obtain ⟨hrunning, hmove⟩ := step_move hstep
    have hworking := reachable_working hfits hreach
    rcases hmove.stopped hn hgenerators hgenerate hfits hworking with hsame | hdivided
    · exact .inl (hsame.trans hrunning)
    · exact .inr hdivided

end Program

end OperatingSystem.Ring
