import OperatingSystem.Loops

/-!
# Computations that may fail

What a computation may fail with and what its result satisfies, with the rules for sequences and
for loops that count; and the computations with a bound on the depth of their recursion.
-/

namespace OperatingSystem

variable {α β σ ε : Type}

/-! ## Outcomes -/

/-- A computation that fails only with an allowed fault, and whose result is good. -/
def Within (Allowed : ε → Prop) (Good : α → Prop) : Except ε α → Prop
  | .ok value => Good value
  | .error fault => Allowed fault

section Within

variable {Allowed : ε → Prop} {Good : α → Prop} {Result : β → Prop}

theorem Within.bind {first : Except ε α} {next : α → Except ε β}
    (hfirst : Within Allowed Good first)
    (hnext : ∀ value, Good value → Within Allowed Result (next value)) :
    Within Allowed Result (first >>= next) := by
  cases first with
  | ok value => exact hnext value hfirst
  | error fault => exact hfirst

theorem Within.map {f : α → β} {first : Except ε α}
    (hfirst : Within Allowed (fun value => Result (f value)) first) :
    Within Allowed Result (f <$> first) := by
  cases first with
  | ok value => exact hfirst
  | error fault => exact hfirst

theorem Within.imp {Allowed' : ε → Prop} {Good' : α → Prop} {first : Except ε α}
    (hfirst : Within Allowed Good first) (hallowed : ∀ fault, Allowed fault → Allowed' fault)
    (hgood : ∀ value, Good value → Good' value) : Within Allowed' Good' first := by
  cases first with
  | ok value => exact hgood value hfirst
  | error fault => exact hallowed fault hfirst

theorem Within.ite {p : Prop} [Decidable p] {yes no : Except ε α}
    (hyes : p → Within Allowed Good yes) (hno : ¬ p → Within Allowed Good no) :
    Within Allowed Good (if p then yes else no) := by
  by_cases hp : p
  · rw [if_pos hp]
    exact hyes hp
  · rw [if_neg hp]
    exact hno hp

theorem Within.good {first : Except ε α} (hfirst : Within Allowed Good first) {value : α}
    (hok : first = .ok value) : Good value := by
  subst hok
  exact hfirst

theorem Within.allowed {first : Except ε α} (hfirst : Within Allowed Good first) {fault : ε}
    (herror : first = .error fault) : Allowed fault := by
  subst herror
  exact hfirst

end Within

/-! ## Loops that count -/

/-- The loop that runs its body `n` times. -/
def repeatM (body : σ → Except ε σ) : Nat → σ → Except ε σ
  | 0, state => .ok state
  | n + 1, state => body state >>= repeatM body n

section Repeat

variable {body : σ → Except ε σ} {state : σ}

theorem Within.repeatM {Allowed : ε → Prop} {Inv : σ → Prop}
    (hbody : ∀ state, Inv state → Within Allowed Inv (body state)) (n : Nat) (hinv : Inv state) :
    Within Allowed Inv (repeatM body n state) := by
  induction n generalizing state with
  | zero => exact hinv
  | succ n ih => exact (hbody state hinv).bind fun next hnext => ih hnext

/-- The rule for a loop that does not fail; the invariant counts the turns. -/
theorem repeatM_ok (Inv : Nat → σ → Prop) (hinit : Inv 0 state)
    (hbody : ∀ i state, Inv i state → ∃ next, body state = .ok next ∧ Inv (i + 1) next) (n : Nat) :
    ∃ final, repeatM body n state = .ok final ∧ Inv n final := by
  suffices hgen : ∀ n i state, Inv i state →
      ∃ final, repeatM body n state = .ok final ∧ Inv (i + n) final by
    simpa using hgen n 0 state hinit
  clear hinit
  intro n
  induction n with
  | zero => exact fun i state hinv => ⟨state, rfl, hinv⟩
  | succ n ih =>
      intro i state hinv
      obtain ⟨next, hnext, hinv'⟩ := hbody i state hinv
      obtain ⟨final, hfinal, hinvFinal⟩ := ih (i + 1) next hinv'
      refine ⟨final, ?_, ?_⟩
      · rw [repeatM, hnext]
        exact hfinal
      · rwa [Nat.add_assoc, Nat.add_comm 1] at hinvFinal

/-- A loop fails if its first turn does. -/
theorem repeatM_error {fault : ε} (hbody : body state = .error fault) {n : Nat} (hn : 0 < n) :
    repeatM body n state = .error fault := by
  obtain ⟨n, rfl⟩ := Nat.exists_eq_succ_of_ne_zero hn.ne'
  rw [repeatM, hbody]
  rfl

end Repeat

/-- A loop over a list with an element that it cannot take does not succeed. -/
theorem foldlM_fails {body : σ → α → Except ε σ} {x : α}
    (hbody : ∀ state next, body state x ≠ .ok next) {xs : List α} (hx : x ∈ xs)
    (state final : σ) : xs.foldlM body state ≠ .ok final := by
  induction xs generalizing state with
  | nil => cases hx
  | cons y xs ih =>
      intro hfinal
      rw [List.foldlM_cons] at hfinal
      obtain ⟨next, hnext, hrest⟩ := of_bind_ok hfinal
      rcases List.mem_cons.mp hx with rfl | hx
      · exact hbody state next hnext
      · exact ih hx next hrest

/-! ## Bounded recursion -/

/-- The second computation does what the first does, unless the first has run out. -/
def Extends (out : ε) (first second : Except ε α) : Prop := first = .error out ∨ first = second

section Extends

variable {out : ε}

theorem Extends.refl (first : Except ε α) : Extends out first first := .inr rfl

theorem Extends.trans {first second third : Except ε α} (hfirst : Extends out first second)
    (hsecond : Extends out second third) : Extends out first third := by
  rcases hfirst with hout | rfl
  · exact .inl hout
  · exact hsecond

theorem Extends.bind {first second : Except ε α} {next next' : α → Except ε β}
    (hfirst : Extends out first second) (hnext : ∀ value, Extends out (next value) (next' value)) :
    Extends out (first >>= next) (second >>= next') := by
  rcases hfirst with rfl | rfl
  · exact .inl rfl
  · cases first with
    | ok value => exact hnext value
    | error fault => exact .inr rfl

theorem Extends.map {first second : Except ε α} (hfirst : Extends out first second) (f : α → β) :
    Extends out (f <$> first) (f <$> second) := by
  rcases hfirst with rfl | rfl
  · exact .inl rfl
  · exact .refl _

theorem Extends.ite {p : Prop} [Decidable p] {yes no yes' no' : Except ε α}
    (hyes : Extends out yes yes') (hno : Extends out no no') :
    Extends out (if p then yes else no) (if p then yes' else no') := by
  by_cases hp : p
  · rwa [if_pos hp, if_pos hp]
  · rwa [if_neg hp, if_neg hp]

theorem Extends.repeatM {body body' : σ → Except ε σ}
    (hbody : ∀ state, Extends out (body state) (body' state)) (n : Nat) (state : σ) :
    Extends out (repeatM body n state) (repeatM body' n state) := by
  induction n generalizing state with
  | zero => exact .refl _
  | succ n ih => exact (hbody state).bind ih

end Extends

/-- The first computation does what the second does: it succeeds with a related result, or it
fails with a related fault. -/
def Simulates {ε' : Type} (Fail : ε → ε' → Prop) (Rel : α → β → Prop) :
    Except ε α → Except ε' β → Prop
  | .ok value, .ok value' => Rel value value'
  | .error fault, .error fault' => Fail fault fault'
  | _, _ => False

section Simulates

variable {ε' α' β' : Type} {Fail : ε → ε' → Prop} {Rel : α → α' → Prop} {Rel' : β → β' → Prop}

theorem Simulates.bind {first : Except ε α} {first' : Except ε' α'} {next : α → Except ε β}
    {next' : α' → Except ε' β'} (hfirst : Simulates Fail Rel first first')
    (hnext : ∀ value value', first' = .ok value' → Rel value value' →
      Simulates Fail Rel' (next value) (next' value')) :
    Simulates Fail Rel' (first >>= next) (first' >>= next') := by
  cases first with
  | ok value =>
      cases first' with
      | ok value' => exact hnext value value' rfl hfirst
      | error fault' => exact hfirst.elim
  | error fault =>
      cases first' with
      | ok value' => exact hfirst.elim
      | error fault' => exact hfirst

end Simulates

end OperatingSystem
