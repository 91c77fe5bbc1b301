import OperatingSystem.RingCounts
import Mathlib.Data.Fintype.Option
import Mathlib.Data.Nat.ModEq
import Mathlib.Tactic.MkIffOfInductiveProp

/-!
# The ring buffer loses nothing

The slots from `out` to `in` have the values that were stored and not loaded yet, in the
order of their stores. While a thread accesses the buffer, `in` or `out` may be one slot
behind; the mutex keeps the others away from them.
-/

namespace OperatingSystem.Ring

open Locks (Call Pc)

variable {T : Type*}

namespace Ringbuffer

variable (r : Ringbuffer T) (n : Nat)

/-- `in` and `out` are behind the last entry that was stored or loaded. -/
@[mk_iff] structure AtEnds : Prop where
  inn : r.inn = r.written.length % n
  out : r.out = r.read.length % n

/-- What holds of `in` and `out` while a thread is at this statement. -/
def Indices : Stage → Prop
  | .idle => r.AtEnds n
  | .enqueue _ line =>
      match line with
      | .storeSlot slot => slot = r.inn ∧ r.AtEnds n
      | .loadNext =>
          (r.inn + 1) % n = r.written.length % n ∧ r.out = r.read.length % n
      | .loadN slot =>
          slot = r.inn ∧ (r.inn + 1) % n = r.written.length % n ∧ r.out = r.read.length % n
      | .storeIn slot N =>
          slot = r.inn ∧ N = n ∧ (r.inn + 1) % n = r.written.length % n ∧
            r.out = r.read.length % n
      | _ => r.AtEnds n
  | .dequeue line =>
      match line with
      | .loadSlot slot => slot = r.out ∧ r.AtEnds n
      | .loadNext _ =>
          r.inn = r.written.length % n ∧ (r.out + 1) % n = r.read.length % n
      | .loadN _ slot =>
          slot = r.out ∧ r.inn = r.written.length % n ∧ (r.out + 1) % n = r.read.length % n
      | .storeOut _ slot N =>
          slot = r.out ∧ N = n ∧ r.inn = r.written.length % n ∧
            (r.out + 1) % n = r.read.length % n
      | _ => r.AtEnds n

structure Indexed : Prop where
  busy : ∀ t, (r.stage t).Accesses → r.Indices n (r.stage t)
  free : (∀ t, ¬ (r.stage t).Accesses) → r.AtEnds n

/-- The slots have the entries that were stored and not loaded yet. -/
structure Stored : Prop where
  N : r.N = n
  slots : ∀ j (hj : j < r.written.length), r.read.length ≤ j →
    r.slots (j % n) = r.written[j].2
  values : r.read.map Prod.snd = (r.written.map Prod.snd).take r.read.length

end Ringbuffer

variable {r next : Ringbuffer T} {t : T} {n : Nat}

theorem Ringbuffer.Indices.atEnds {stage : Stage} (hindices : r.Indices n stage)
    (haccesses : ¬ stage.Accesses) : r.AtEnds n := by
  cases stage with
  | idle => exact hindices
  | enqueue v line =>
      cases line <;> first
        | exact hindices
        | exact absurd ⟨nofun, rfl⟩ haccesses
  | dequeue line =>
      cases line <;> first
        | exact hindices
        | exact absurd ⟨nofun, rfl⟩ haccesses

/-- The fields that `Indices` is about. -/
structure Ringbuffer.SameIndices (r next : Ringbuffer T) : Prop where
  inn : next.inn = r.inn
  out : next.out = r.out
  written : next.written.length = r.written.length
  read : next.read.length = r.read.length

theorem Ringbuffer.SameIndices.indices (hsame : r.SameIndices next) {stage : Stage}
    (hindices : r.Indices n stage) : next.Indices n stage := by
  unfold Ringbuffer.Indices at *
  simp only [Ringbuffer.atEnds_iff, hsame.inn, hsame.out, hsame.written, hsame.read] at *
  exact hindices

theorem Ringbuffer.SameIndices.atEnds (hsame : r.SameIndices next) (hends : r.AtEnds n) :
    next.AtEnds n := by
  have hindices : r.Indices n .idle := hends
  exact hsame.indices hindices

namespace Ringbuffer.Indexed

/-- `t` does not access the buffer, before and after its step. -/
theorem quiet (hindexed : r.Indexed n) (hsame : r.SameIndices next)
    (hothers : ∀ u, u ≠ t → next.stage u = r.stage u) (hbefore : ¬ (r.stage t).Accesses)
    (hafter : ¬ (next.stage t).Accesses) : next.Indexed n where
  busy u haccesses := by
    have hu : u ≠ t := by
      rintro rfl
      exact hafter haccesses
    rw [hothers u hu] at haccesses ⊢
    exact hsame.indices (hindexed.busy u haccesses)
  free hnone := by
    apply hsame.atEnds
    apply hindexed.free
    intro u
    by_cases hu : u = t
    · subst hu
      exact hbefore
    · rw [← hothers u hu]
      exact hnone u

/-- `t` gets the mutex. -/
theorem enter (hindexed : r.Indexed n) (hothers : ∀ u, u ≠ t → next.stage u = r.stage u)
    (hbefore : ¬ (r.stage t).Accesses) (hafter : (next.stage t).Accesses)
    (honly : ∀ u, (next.stage u).Accesses → u = t)
    (hnext : r.AtEnds n → next.Indices n (next.stage t)) : next.Indexed n where
  busy u haccesses := by
    obtain rfl := honly u haccesses
    apply hnext
    apply hindexed.free
    intro v hv
    by_cases hvt : v = u
    · subst hvt
      exact hbefore hv
    · rw [← hothers v hvt] at hv
      exact hvt (honly v hv)
  free hnone := absurd hafter (hnone t)

/-- `t` has the mutex. -/
theorem access (hothers : ∀ u, u ≠ t → next.stage u = r.stage u)
    (honly : ∀ u, (r.stage u).Accesses → u = t) (hnext : next.Indices n (next.stage t)) :
    next.Indexed n where
  busy u haccesses := by
    by_cases hu : u = t
    · subst hu
      exact hnext
    · rw [hothers u hu] at haccesses
      exact absurd (honly u haccesses) hu
  free hnone := hnext.atEnds (hnone t)

/-- A store goes to the slot after the last entry. -/
theorem storeSlot_eq (hindexed : r.Indexed n) {v : Int} {slot : Nat}
    (hstage : r.stage t = .enqueue v (.storeSlot slot)) : slot = r.written.length % n := by
  have hindices := hindexed.busy t (by simp [hstage, Stage.Accesses, Stage.call])
  rw [hstage] at hindices
  obtain ⟨rfl, hends⟩ := hindices
  exact hends.inn

/-- A load comes from the slot of the oldest entry. -/
theorem loadSlot_eq (hindexed : r.Indexed n) {slot : Nat}
    (hstage : r.stage t = .dequeue (.loadSlot slot)) : slot = r.read.length % n := by
  have hindices := hindexed.busy t (by simp [hstage, Stage.Accesses, Stage.call])
  rw [hstage] at hindices
  obtain ⟨rfl, hends⟩ := hindices
  exact hends.out

end Ringbuffer.Indexed

/-- Fewer than `n` entries in a row are in different slots. -/
theorem mod_ne_mod {j w n : Nat} (hlt : j < w) (hle : w < j + n) : j % n ≠ w % n := by
  intro hmod
  have hdvd : n ∣ w - j := (Nat.modEq_iff_dvd' (Nat.le_of_lt hlt)).mp hmod
  have hn : n ≤ w - j := Nat.le_of_dvd (by omega) hdvd
  omega

namespace Ringbuffer.Stored

variable (hstored : r.Stored n)

include hstored

/-- A store into the slot after the last entry, when there is a free one. -/
theorem storeSlot [DecidableEq T] (hle : r.read.length ≤ r.written.length)
    (hlt : r.written.length < n + r.read.length) (v : Int) :
    (r.storeSlot t (r.written.length % n) v).Stored n where
  N := hstored.N
  slots j hj hread := by
    simp only [storeSlot_slots, storeSlot_written, storeSlot_read] at hj hread ⊢
    by_cases hlast : j = r.written.length
    · subst hlast
      simp
    · rw [List.length_append, List.length_singleton] at hj
      have hbefore : j < r.written.length := by omega
      have hslot : j % n ≠ r.written.length % n := mod_ne_mod hbefore (by omega)
      rw [Function.update_of_ne hslot, List.getElem_append_left hbefore]
      exact hstored.slots j hbefore hread
  values := by
    simp only [storeSlot_written, storeSlot_read, List.map_append]
    rw [List.take_append_of_le_length (by simpa using hle)]
    exact hstored.values

/-- A load from the slot of the oldest entry. -/
theorem loadSlot [DecidableEq T] (hlt : r.read.length < r.written.length) :
    (r.loadSlot t (r.read.length % n)).Stored n where
  N := hstored.N
  slots j hj hread := by
    simp only [loadSlot_slots, loadSlot_written, loadSlot_read, List.length_append,
      List.length_singleton] at hj hread ⊢
    exact hstored.slots j hj (by omega)
  values := by
    have hvalue := hstored.slots r.read.length hlt le_rfl
    have hmap : r.read.length < (r.written.map Prod.snd).length := by simpa using hlt
    simp only [loadSlot_written, loadSlot_read, List.map_append, List.length_append,
      List.length_singleton]
    rw [List.take_add_one, List.getElem?_eq_getElem hmap, ← hstored.values, hvalue]
    simp

end Ringbuffer.Stored

section Steps

variable [DecidableEq T]

theorem Effect.indexed (heffect : Effect r t next) (hindexed : r.Indexed n)
    (hN : r.N = n)
    (hbefore : (r.stage t).Accesses → ∀ u, (r.stage u).Accesses → u = t)
    (hafter : (next.stage t).Accesses → ∀ u, (next.stage u).Accesses → u = t) :
    next.Indexed n := by
  have hothers : ∀ u, u ≠ t → next.stage u = r.stage u := fun u hu => heffect.stage_of_ne hu
  cases heffect
  case begin op hstage =>
    refine hindexed.quiet ⟨rfl, rfl, rfl, rfl⟩ hothers ?_ ?_
    · simp [hstage, Stage.Accesses]
    · cases op <;> simp [Operation.entry, Stage.Accesses, Stage.call]
  case call c hpc hcall =>
    refine hindexed.quiet ⟨rfl, rfl, rfl, rfl⟩ hothers ?_ ?_
    · simp [Stage.Accesses, hcall]
    · simp [Stage.Accesses, hcall]
  case inside locks heffect hb ha =>
    have hsame : r.SameIndices (r.setLocks locks) := ⟨rfl, rfl, rfl, rfl⟩
    exact ⟨fun u haccesses => hsame.indices (hindexed.busy u haccesses),
      fun hnone => hsame.atEnds (hindexed.free hnone)⟩
  case enqueueSema | enqueueReleased | enqueueDone | dequeueEmpty | dequeueReleased | dequeueDone =>
    refine hindexed.quiet ⟨rfl, rfl, rfl, rfl⟩ hothers ?_ ?_
    · simp [*, Stage.Accesses, Stage.call]
    · simp [Stage.Accesses, Stage.call]
  case enqueueMutex v hstage hpc =>
    refine hindexed.enter hothers ?_ ?_ (hafter ?_) ?_
    · simp [hstage, Stage.Accesses, Stage.call]
    · simp [Stage.Accesses, Stage.call]
    · simp [Stage.Accesses, Stage.call]
    · intro hends
      simpa [Ringbuffer.Indices, Ringbuffer.atEnds_iff] using hends
  case dequeueMutex hstage hpc =>
    refine hindexed.enter hothers ?_ ?_ (hafter ?_) ?_
    · simp [hstage, Stage.Accesses, Stage.call]
    · simp [Stage.Accesses, Stage.call]
    · simp [Stage.Accesses, Stage.call]
    · intro hends
      simpa [Ringbuffer.Indices, Ringbuffer.atEnds_iff] using hends
  -- `t` has the mutex
  all_goals
    have haccesses : (r.stage t).Accesses := by simp [*, Stage.Accesses, Stage.call]
    have hindices := hindexed.busy t haccesses
    refine Ringbuffer.Indexed.access hothers (hbefore haccesses) ?_
    simp_all [Ringbuffer.Indices, Ringbuffer.atEnds_iff]

theorem Effect.stored (heffect : Effect r t next) (hstored : r.Stored n)
    (hindexed : r.Indexed n) (hread : r.read.length ≤ r.written.length)
    (hwritten_lt : ∀ v slot, r.stage t = .enqueue v (.storeSlot slot) →
      r.written.length < n + r.read.length)
    (hread_lt : ∀ slot, r.stage t = .dequeue (.loadSlot slot) →
      r.read.length < r.written.length) : next.Stored n := by
  cases heffect
  case storeSlot v slot hstage =>
    rw [hindexed.storeSlot_eq hstage]
    have hstored := hstored.storeSlot (t := t) hread (hwritten_lt v _ hstage) v
    exact ⟨hstored.N, hstored.slots, hstored.values⟩
  case loadSlot slot hstage =>
    rw [hindexed.loadSlot_eq hstage]
    have hstored := hstored.loadSlot (t := t) (hread_lt _ hstage)
    exact ⟨hstored.N, hstored.slots, hstored.values⟩
  all_goals exact ⟨hstored.N, hstored.slots, hstored.values⟩

end Steps

/-! ## The values of the calls -/

/-- The argument of a call that has stored it. -/
def Stage.stored : Stage → Option Int
  | .enqueue value line => if 4 ≤ line.position then some value else none
  | _ => none

/-- The value of a call that has loaded it. -/
def Stage.loaded : Stage → Option Int
  | .dequeue line =>
      match line with
      | .loadNext value => some value
      | .loadN value _ => some value
      | .storeOut value _ _ => some value
      | .releaseMutex value => some value
      | .releaseSema value => some value
      | _ => none
  | _ => none

section Values

variable [DecidableEq T]

/-- What a thread has stored and loaded, by the calls that it has finished. -/
structure Ringbuffer.Valued (r : Ringbuffer T) (t : T) (v : Int) : Prop where
  written : r.written.count (t, v) =
    r.enqueued.count (t, v) + if (r.stage t).stored = some v then 1 else 0
  read : r.read.count (t, v) =
    r.dequeued.count (t, v) + if (r.stage t).loaded = some v then 1 else 0

theorem Ringbuffer.Valued.of_same {u : T} {v : Int} (hvalued : r.Valued u v)
    (hwritten : next.written.count (u, v) = r.written.count (u, v))
    (hread : next.read.count (u, v) = r.read.count (u, v))
    (henqueued : next.enqueued.count (u, v) = r.enqueued.count (u, v))
    (hdequeued : next.dequeued.count (u, v) = r.dequeued.count (u, v))
    (hstored : (next.stage u).stored = (r.stage u).stored)
    (hloaded : (next.stage u).loaded = (r.stage u).loaded) : next.Valued u v :=
  ⟨by rw [hwritten, henqueued, hstored, hvalued.written],
    by rw [hread, hdequeued, hloaded, hvalued.read]⟩

theorem Effect.valued_self (heffect : Effect r t next) {v : Int} (hvalued : r.Valued t v) :
    next.Valued t v := by
  cases heffect
  case storeSlot | enqueueDone | loadSlot | dequeueDone =>
    obtain ⟨hwritten, hread⟩ := hvalued
    simp only [*, Stage.stored, Stage.loaded, EnqueuePc.position] at hwritten hread
    constructor
    · simpa [Stage.stored, EnqueuePc.position, List.count_singleton] using hwritten
    · simpa [Stage.loaded, List.count_singleton] using hread
  case begin op hstage =>
    refine hvalued.of_same rfl rfl rfl rfl ?_ ?_
    · cases op <;> simp [hstage, Operation.entry, Stage.stored, EnqueuePc.position]
    · cases op <;> simp [hstage, Operation.entry, Stage.loaded]
  case call | inside => exact hvalued.of_same rfl rfl rfl rfl rfl rfl
  all_goals
    refine hvalued.of_same rfl rfl rfl rfl ?_ ?_
    · simp [*, Stage.stored, EnqueuePc.position]
    · simp [*, Stage.loaded]

theorem Effect.valued (heffect : Effect r t next) {u : T} {v : Int} (hvalued : r.Valued u v) :
    next.Valued u v := by
  by_cases hu : u = t
  · subst hu
    exact heffect.valued_self hvalued
  · have hstage := heffect.stage_of_ne hu
    refine hvalued.of_same ?_ ?_ ?_ ?_ (by rw [hstage]) (by rw [hstage])
    all_goals
      cases heffect <;> simp [Ne.symm hu]

end Values

section Reachable

variable [DecidableEq T] {memory : Nat → Int} {guard : Ringbuffer T → T → Operation → Prop}

theorem reachable_stored (hreach : (machine n memory guard).Reachable r) :
    r.Indexed n ∧ r.Stored n := by
  apply hreach.invariant fun r => r.Indexed n ∧ r.Stored n
  · refine ⟨⟨fun t haccesses => absurd rfl haccesses.1, fun _ => ⟨?_, ?_⟩⟩, rfl, ?_, rfl⟩
    · simp [machine, initRingbuffer]
    · simp [machine, initRingbuffer]
    · intro j hj
      simp [machine, initRingbuffer] at hj
  · intro r label next hreach hbefore hstep
    obtain ⟨hindexed, hstored⟩ := hbefore
    have heffect := reachable_effect hreach hstep
    constructor
    · refine heffect.indexed hindexed hstored.N ?_ ?_
      · intro ht u hu
        exact one_access hreach hu ht
      · intro ht u hu
        exact one_access (hreach.step hstep) hu ht
    · exact heffect.stored hstored hindexed (read_le hreach)
        (fun v slot hstage => written_lt hreach hstage) (fun slot hstage => read_lt hreach hstage)

theorem reachable_valued (hreach : (machine n memory guard).Reachable r) (t : T) (v : Int) :
    r.Valued t v := by
  apply hreach.invariant fun r => r.Valued t v
  · constructor <;> simp [machine, initRingbuffer, Stage.stored, Stage.loaded]
  · intro r label next hreach hvalued hstep
    exact (reachable_effect hreach hstep).valued hvalued

/-- The slot of an access is one of the `n` slots. -/
theorem slot_lt (hn : 0 < n) (hreach : (machine n memory guard).Reachable r) {slot : Nat}
    (hslot : (r.stage t).slot? = some slot) : slot < n := by
  obtain ⟨hindexed, _⟩ := reachable_stored hreach
  unfold Stage.slot? at hslot
  split at hslot
  next v slot' hstage =>
    obtain rfl := Option.some.inj hslot
    rw [hindexed.storeSlot_eq hstage]
    exact Nat.mod_lt _ hn
  next slot' hstage =>
    obtain rfl := Option.some.inj hslot
    rw [hindexed.loadSlot_eq hstage]
    exact Nat.mod_lt _ hn
  next => cases hslot

/-- So nobody leaves the array. -/
theorem leavesSlots_eq_false (hn : 0 < n) (hreach : (machine n memory guard).Reachable r) (t : T) :
    r.leavesSlots t = false := by
  rw [Ringbuffer.leavesSlots, (reachable_stored hreach).2.N, Option.any_eq_false]
  exact fun slot hslot => by simpa using slot_lt hn hreach hslot

/-- Whoever is about to store does not overwrite an entry that has not been loaded. -/
theorem slot_ne (hreach : (machine n memory guard).Reachable r) {v : Int} {slot j : Nat}
    (hstage : r.stage t = .enqueue v (.storeSlot slot)) (hread : r.read.length ≤ j)
    (hj : j < r.written.length) : slot ≠ j % n := by
  obtain ⟨hindexed, _⟩ := reachable_stored hreach
  have hlt := written_lt hreach hstage
  rw [hindexed.storeSlot_eq hstage]
  exact (mod_ne_mod hj (by omega)).symm

theorem read_isPrefix (hreach : (machine n memory guard).Reachable r) :
    r.read.map Prod.snd <+: r.written.map Prod.snd := by
  rw [(reachable_stored hreach).2.values]
  exact List.take_prefix _ _

/-- When no call is under way, the calls have stored and loaded what they say. -/
theorem idle_perm (hreach : (machine n memory guard).Reachable r)
    (hidle : ∀ t, r.stage t = .idle) : r.written.Perm r.enqueued ∧ r.read.Perm r.dequeued := by
  constructor
  · apply List.perm_iff_count.mpr
    rintro ⟨t, v⟩
    simpa [hidle t, Stage.stored] using (reachable_valued hreach t v).written
  · apply List.perm_iff_count.mpr
    rintro ⟨t, v⟩
    simpa [hidle t, Stage.loaded] using (reachable_valued hreach t v).read

/-- When all calls have returned, as many of each, they have returned what they were given. -/
theorem values_perm (hreach : (machine n memory guard).Reachable r)
    (hidle : ∀ t, r.stage t = .idle) (hlength : r.enqueued.length = r.dequeued.length) :
    (r.dequeued.map Prod.snd).Perm (r.enqueued.map Prod.snd) := by
  obtain ⟨henqueued, hdequeued⟩ := idle_perm hreach hidle
  have hsame : r.read.map Prod.snd = r.written.map Prod.snd := by
    apply (read_isPrefix hreach).eq_of_length
    rw [List.length_map, List.length_map, henqueued.length_eq, hdequeued.length_eq, hlength]
  have hloaded : (r.read.map Prod.snd).Perm (r.dequeued.map Prod.snd) := hdequeued.map _
  rw [hsame] at hloaded
  exact hloaded.symm.trans (henqueued.map _)

/-- What is loaded is what was stored, in the order of the stores; there are at most as many
entries as slots; an entry stays in its slot until it has been loaded; and when all calls
have returned, as many of each, they have returned what they were given. -/
theorem lossless_fifo (hn : 1 ≤ n) (hreach : (machine n memory guard).Reachable r) :
    r.read.map Prod.snd <+: r.written.map Prod.snd ∧
      (r.read.length ≤ r.written.length ∧ r.written.length ≤ r.read.length + n) ∧
      (∀ j (hj : j < r.written.length), r.read.length ≤ j →
        r.slots (j % n) = r.written[j].2 ∧
          ∀ t v slot, r.stage t = .enqueue v (.storeSlot slot) → slot < n ∧ slot ≠ j % n) ∧
      ((∀ t, r.stage t = .idle) → r.enqueued.length = r.dequeued.length →
        (r.dequeued.map Prod.snd).Perm (r.enqueued.map Prod.snd)) := by
  have hread := read_le hreach
  have hwritten := written_le hreach
  refine ⟨read_isPrefix hreach, ⟨hread, by omega⟩, ?_, values_perm hreach⟩
  intro j hj hj'
  refine ⟨(reachable_stored hreach).2.slots j hj hj', ?_⟩
  intro t v slot hstage
  exact ⟨slot_lt hn hreach (by rw [hstage]; rfl), slot_ne hreach hstage hj' hj⟩

end Reachable

/-- Two threads take turns at putting a value into the buffer; the third has been waiting for the
values and takes them out. -/
def exchange : List (Label (Option Bool)) :=
  .call none .dequeue :: List.replicate 8 (.step none) ++
    .call (some false) (.enqueue 5) :: .call (some true) (.enqueue 7) ::
      (List.replicate 19 [.step (some false), .step (some true)]).flatten ++
    List.replicate 22 (.step (some false)) ++ List.replicate 21 (.step (some true)) ++
    List.replicate 28 (.step none) ++ .call none .dequeue :: List.replicate 33 (.step none)

def exchanged : Ringbuffer (Option Bool) :=
  (exchange.foldlM (Ringbuffer.play fun _ _ _ => True) (initRingbuffer 2 fun _ => 0)).get
    (by decide +kernel)

theorem exchanged_reachable :
    (machine 2 (fun _ => 0) fun _ _ _ => True).Reachable exchanged :=
  Machine.reachable_foldlM (fun _ _ _ => play_step) Machine.reachable_init
    (Option.some_get _).symm

theorem lossless_fifo_exchanged :
    exchanged.enqueued = [(some false, 5), (some true, 7)] ∧
      exchanged.dequeued = [(none, 5), (none, 7)] ∧
      (exchanged.dequeued.map Prod.snd).Perm (exchanged.enqueued.map Prod.snd) := by
  refine ⟨by decide +kernel, by decide +kernel, ?_⟩
  exact (lossless_fifo (by decide) exchanged_reachable).2.2.2 (by decide +kernel)
    (by decide +kernel)

end OperatingSystem.Ring
