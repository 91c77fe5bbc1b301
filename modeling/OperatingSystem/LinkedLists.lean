import Mathlib.Data.List.Chain
import Mathlib.Data.List.Nodup
import Mathlib.Data.Sum.Basic
import Mathlib.Logic.Function.Basic

/-!
# Circular doubly linked lists

The operations of `list_head.h` on the nodes of a memory, and the sequences that the memory
represents. A list is a ring through its head; a node that is on no list is a ring of its own,
which is what `INIT_LIST_HEAD` and `list_del_init` leave behind.
-/

namespace OperatingSystem

set_option linter.style.nameCheck false

/-- The two fields of the `struct list_head` at each node. -/
structure Links (Node : Type*) where
  next : Node → Node
  prev : Node → Node

namespace Links

variable {Node : Type*} [DecidableEq Node] (l : Links Node)

def setNext (x y : Node) : Links Node := { l with next := Function.update l.next x y }

def setPrev (x y : Node) : Links Node := { l with prev := Function.update l.prev x y }

/-- `INIT_LIST_HEAD`. -/
def initListHead (list : Node) : Links Node := (l.setNext list list).setPrev list list

/-- `__list_add`. -/
def __listAdd (new prev next : Node) : Links Node :=
  (((l.setPrev next new).setNext new next).setPrev new prev).setNext prev new

/-- `list_add`. -/
def listAdd (new head : Node) : Links Node := l.__listAdd new head (l.next head)

/-- `list_add_tail`. -/
def listAddTail (new head : Node) : Links Node := l.__listAdd new (l.prev head) head

/-- `__list_del`. -/
def __listDel (prev next : Node) : Links Node := (l.setPrev next prev).setNext prev next

/-- `__list_del_entry`. -/
def __listDelEntry (entry : Node) : Links Node := l.__listDel (l.prev entry) (l.next entry)

/-- `list_del`, with the two poisoned pointers. -/
def listDel (poison₁ poison₂ entry : Node) : Links Node :=
  ((l.__listDelEntry entry).setNext entry poison₁).setPrev entry poison₂

/-- `list_del_init`. -/
def listDelInit (entry : Node) : Links Node := (l.__listDelEntry entry).initListHead entry

/-- `list_move_tail`. -/
def listMoveTail (list head : Node) : Links Node := (l.__listDelEntry list).listAddTail list head

/-- `list_empty`. -/
def listEmpty (head : Node) : Bool := l.next head = head

/-! ## Rings -/

/-- Two nodes point to each other. -/
def Link (x y : Node) : Prop := l.next x = y ∧ l.prev y = x

/-- The nodes that follow `head` one after the other, up to `head` again. -/
def Ring (head : Node) (nodes : List Node) : Prop :=
  List.IsChain l.Link (head :: (nodes ++ [head]))

variable {l}

theorem initListHead_eq (x : Node) : l.initListHead x = l.__listDel x x := rfl

/-- A node is put between two others by two links. -/
theorem listAdd_eq (new prev next : Node) :
    l.__listAdd new prev next = (l.__listDel new next).__listDel prev new := rfl

theorem link_listDel (x y : Node) : (l.__listDel x y).Link x y := by
  simp [Link, __listDel, setNext, setPrev]

theorem Link.listDel {x y p n : Node} (hlink : l.Link x y) (hx : x ≠ p) (hy : y ≠ n) :
    (l.__listDel p n).Link x y := by
  simpa [Link, __listDel, setNext, setPrev, hx, hy] using hlink

/-- Links into and out of other nodes stay. -/
theorem isChain_listDel {p n : Node} {nodes : List Node} (hchain : List.IsChain l.Link nodes)
    (hp : p ∉ nodes.dropLast) (hn : n ∉ nodes.tail) :
    List.IsChain (l.__listDel p n).Link nodes := by
  rw [List.isChain_iff_forall_rel_of_append_cons_cons] at hchain ⊢
  rintro x y before after rfl
  refine (hchain rfl).listDel ?_ ?_
  · rintro rfl
    exact hp (by simp)
  · rintro rfl
    refine hn ?_
    cases before <;> simp

/-- Two chains are joined by a link. -/
theorem isChain_join {p n : Node} {before after : List Node}
    (hbefore : List.IsChain l.Link (before ++ [p])) (hafter : List.IsChain l.Link (n :: after))
    (hp : p ∉ before ∧ p ∉ (n :: after).dropLast) (hn : n ∉ (before ++ [p]).tail ∧ n ∉ after) :
    List.IsChain (l.__listDel p n).Link (before ++ p :: n :: after) := by
  rw [List.isChain_split]
  constructor
  · exact isChain_listDel hbefore (by simpa using hp.1) hn.1
  · rw [List.isChain_cons_cons]
    exact ⟨link_listDel p n, isChain_listDel hafter hp.2 hn.2⟩

omit [DecidableEq Node] in
/-- A ring is made of the links at its nodes. -/
theorem Ring.congr {l' : Links Node} {head : Node} {nodes : List Node} (hring : l.Ring head nodes)
    (hsame : ∀ z ∈ head :: nodes, l'.next z = l.next z ∧ l'.prev z = l.prev z) :
    l'.Ring head nodes := by
  rw [Ring, List.isChain_iff_forall_rel_of_append_cons_cons] at hring ⊢
  intro x y before after hsplit
  have hmem : ∀ z ∈ head :: (nodes ++ [head]), z ∈ head :: nodes := by simp [or_comm]
  obtain ⟨hnext, hprev⟩ := hring hsplit
  exact ⟨(hsame x (hmem x (by simp [hsplit]))).1.trans hnext,
    (hsame y (hmem y (by simp [hsplit]))).2.trans hprev⟩

/-- A ring that goes through neither end of a new link stays. -/
theorem Ring.frame {head p n : Node} {nodes : List Node} (hring : l.Ring head nodes)
    (hp : p ∉ head :: nodes) (hn : n ∉ head :: nodes) : (l.__listDel p n).Ring head nodes :=
  hring.congr fun _ hz => ⟨Function.update_of_ne (ne_of_mem_of_not_mem hz hp) _ _,
    Function.update_of_ne (ne_of_mem_of_not_mem hz hn) _ _⟩

section Places

variable {head new p n : Node} {xs ys before after : List Node}

omit [DecidableEq Node] in
/-- The neighbours of a place in a ring occur once. -/
theorem neighbours (hnodup : (head :: (xs ++ ys)).Nodup) (hprev : head :: xs = before ++ [p])
    (hnext : ys ++ [head] = n :: after) : (p ∉ before ∧ p ∉ ys) ∧ (n ∉ xs ∧ n ∉ after) := by
  rw [List.nodup_cons, List.nodup_append] at hnodup
  obtain ⟨hhead, hxs, hys, hdisjoint⟩ := hnodup
  rw [List.mem_append, not_or] at hhead
  have hfront : (before ++ [p]).Nodup := by
    rw [← hprev]
    exact List.nodup_cons.mpr ⟨hhead.1, hxs⟩
  have hback : (n :: after).Nodup := by
    rw [← hnext, List.nodup_append]
    refine ⟨hys, List.nodup_singleton _, fun x hx y hy => ?_⟩
    rintro rfl
    exact hhead.2 (List.mem_singleton.mp hy ▸ hx)
  have hp : p ∈ head :: xs := by simp [hprev]
  have hn : n ∈ ys ++ [head] := by simp [hnext]
  refine ⟨⟨?_, fun hmem => ?_⟩, fun hmem => ?_, (List.nodup_cons.mp hback).1⟩
  · intro hmem
    exact (List.nodup_append.mp hfront).2.2 p hmem p (List.mem_singleton_self p) rfl
  · rcases List.mem_cons.mp hp with rfl | hxs
    · exact hhead.2 hmem
    · exact hdisjoint p hxs p hmem rfl
  · rcases List.mem_append.mp hn with hys | hn
    · exact hdisjoint n hmem n hys rfl
    · exact hhead.1 (List.mem_singleton.mp hn ▸ hmem)

/-- A node is taken out of a ring. -/
theorem Ring.delete (hring : l.Ring head (xs ++ new :: ys)) (hnodup : (head :: (xs ++ ys)).Nodup)
    (hprev : head :: xs = before ++ [p]) (hnext : ys ++ [head] = n :: after) :
    (l.__listDel p n).Ring head (xs ++ ys) := by
  obtain ⟨hp, hn⟩ := neighbours hnodup hprev hnext
  have hsplit : head :: (xs ++ new :: ys ++ [head]) = before ++ [p] ++ new :: n :: after := by
    rw [← hprev, ← hnext]
    simp
  have hjoined : head :: (xs ++ ys ++ [head]) = before ++ p :: n :: after := by
    rw [List.append_assoc, hnext, ← List.cons_append, hprev, List.append_assoc,
      List.singleton_append]
  rw [Ring, hsplit] at hring
  rw [Ring, hjoined]
  have hback := hring.right_of_append
  rw [List.isChain_cons_cons] at hback
  refine isChain_join hring.left_of_append hback.2 ⟨hp.1, ?_⟩ ⟨?_, hn.2⟩
  · rw [← hnext, List.dropLast_concat]
    exact hp.2
  · rw [← hprev]
    exact hn.1

/-- A new node is put between its neighbours. -/
theorem Ring.insert (hring : l.Ring head (xs ++ ys)) (hnodup : (head :: (xs ++ ys)).Nodup)
    (hprev : head :: xs = before ++ [p]) (hnext : ys ++ [head] = n :: after)
    (hnew : new ∉ head :: (xs ++ ys)) : (l.__listAdd new p n).Ring head (xs ++ new :: ys) := by
  obtain ⟨hp, hn⟩ := neighbours hnodup hprev hnext
  have hjoined : head :: (xs ++ ys ++ [head]) = before ++ [p] ++ n :: after := by
    rw [List.append_assoc, hnext, ← List.cons_append, hprev]
  have hsplit : head :: (xs ++ new :: ys ++ [head]) = before ++ p :: new :: n :: after := by
    rw [List.append_assoc, List.cons_append, hnext, ← List.cons_append, hprev, List.append_assoc,
      List.singleton_append]
  have hfront : new ∉ before ++ [p] := by
    rw [← hprev]
    exact fun hmem => hnew (by rw [← List.cons_append]; exact List.mem_append_left _ hmem)
  have hback : new ∉ n :: after := by
    rw [← hnext]
    simpa [and_comm] using fun h : new ∈ ys ∨ new = head =>
      hnew (by rcases h with h | h <;> simp [h])
  rw [Ring, hjoined] at hring
  rw [Ring, hsplit, listAdd_eq]
  -- the link to the next node leaves the front as it is; the link from the previous one joins
  have hnewNext : List.IsChain (l.__listDel new n).Link ([] ++ new :: n :: after) := by
    refine isChain_join (List.isChain_singleton new) hring.right_of_append ⟨by simp, ?_⟩ ?_
    · exact fun hmem => hback (List.dropLast_subset _ hmem)
    · exact ⟨by simp, hn.2⟩
  have hkept : List.IsChain (l.__listDel new n).Link (before ++ [p]) := by
    refine isChain_listDel hring.left_of_append ?_ ?_
    · exact fun hmem => hfront (List.dropLast_subset _ hmem)
    · rw [← hprev]
      exact hn.1
  refine isChain_join hkept hnewNext ⟨hp.1, ?_⟩ ⟨?_, hback⟩
  · have hys : (n :: after).dropLast = ys := by rw [← hnext, List.dropLast_concat]
    rw [List.dropLast_cons_cons, hys, List.mem_cons, not_or]
    exact ⟨fun hpnew => hfront (by simp [hpnew]), hp.2⟩
  · exact fun hmem => hfront (List.mem_of_mem_tail hmem)

end Places

/-! ## Lists with heads -/

section Linked

variable {Head Elem : Type*}

/-- Where a loop over the list of `head` stands when `elems` are to come. -/
def first (head : Head) : List Elem → Head ⊕ Elem
  | [] => .inl head
  | x :: _ => .inr x

/-- The node before a place in the list of `head` that comes after `elems`. -/
def last (head : Head) (elems : List Elem) : Head ⊕ Elem := first head elems.reverse

@[simp] theorem first_nil (head : Head) : first head ([] : List Elem) = .inl head := rfl

@[simp] theorem first_cons (head : Head) (x : Elem) (elems : List Elem) :
    first head (x :: elems) = .inr x := rfl

@[simp] theorem last_nil (head : Head) : last head ([] : List Elem) = .inl head := rfl

@[simp] theorem last_concat (head : Head) (elems : List Elem) (x : Elem) :
    last head (elems ++ [x]) = .inr x := by
  simp [last]

theorem first_mem (head : Head) (elems : List Elem) :
    first head elems ∈ Sum.inl head :: elems.map Sum.inr := by
  cases elems <;> simp

theorem last_mem (head : Head) (elems : List Elem) :
    last head elems ∈ Sum.inl head :: elems.map Sum.inr := by
  simpa [last] using first_mem head elems.reverse

theorem exists_first (head : Head) (elems : List Elem) :
    ∃ after, elems.map Sum.inr ++ [Sum.inl head] = first head elems :: after := by
  cases elems with
  | nil => exact ⟨[], rfl⟩
  | cons x elems => exact ⟨_, rfl⟩

theorem exists_last (head : Head) (elems : List Elem) :
    ∃ before, Sum.inl head :: elems.map Sum.inr = before ++ [last head elems] := by
  cases elems using List.reverseRecOn with
  | nil => exact ⟨[], rfl⟩
  | append_singleton elems x => exact ⟨Sum.inl head :: elems.map Sum.inr, by simp⟩

/-- No element is on two lists, or twice on one. -/
structure Apart (lists : Head → List Elem) : Prop where
  nodup : ∀ h, (lists h).Nodup
  disjoint : ∀ {h h' x}, x ∈ lists h → x ∈ lists h' → h = h'

/-- The memory holds a list at each head. -/
structure Linked (l : Links (Head ⊕ Elem)) (lists : Head → List Elem) : Prop
    extends Apart lists where
  ring : ∀ h, l.Ring (.inl h) ((lists h).map .inr)

/-- Every node on no list is a ring of its own. -/
structure Tidy (l : Links (Head ⊕ Elem)) (lists : Head → List Elem) : Prop
    extends Linked l lists where
  free : ∀ x, (∀ h, x ∉ lists h) → l.Ring (.inr x) []

variable {l : Links (Head ⊕ Elem)} {lists : Head → List Elem} {head : Head} {x : Elem}
  {xs ys : List Elem}

theorem Linked.link (hlinked : Linked l lists) (hlist : lists head = xs ++ ys) :
    l.Link (last head xs) (first head ys) := by
  obtain ⟨before, hbefore⟩ := exists_last head xs
  obtain ⟨after, hafter⟩ := exists_first head ys
  have hring := hlinked.ring head
  rw [hlist, Ring, List.map_append, List.append_assoc, ← List.cons_append, hbefore, hafter,
    List.append_assoc, List.singleton_append, List.isChain_iff_forall_rel_of_append_cons_cons]
    at hring
  exact hring rfl

theorem Linked.next_head (hlinked : Linked l lists) (head : Head) :
    l.next (.inl head) = first head (lists head) :=
  (hlinked.link (List.nil_append _).symm).1

theorem Linked.prev_head (hlinked : Linked l lists) (head : Head) :
    l.prev (.inl head) = last head (lists head) :=
  (hlinked.link (List.append_nil _).symm).2

theorem Linked.next_elem (hlinked : Linked l lists) (hlist : lists head = xs ++ x :: ys) :
    l.next (.inr x) = first head ys := by
  rw [← List.singleton_append, ← List.append_assoc] at hlist
  rw [← last_concat head xs x]
  exact (hlinked.link hlist).1

theorem Linked.prev_elem (hlinked : Linked l lists) (hlist : lists head = xs ++ x :: ys) :
    l.prev (.inr x) = last head xs := by
  rw [← first_cons head x ys]
  exact (hlinked.link hlist).2

/-- The nodes of two rings are different. -/
theorem Apart.not_mem_ring (hapart : Apart lists) {h : Head} (hne : h ≠ head)
    {node : Head ⊕ Elem} (hnode : node ∈ Sum.inl head :: (lists head).map Sum.inr) :
    node ∉ Sum.inl h :: (lists h).map Sum.inr := by
  intro hmem
  rcases node with head' | y
  · simp only [List.mem_cons, Sum.inl.injEq, List.mem_map, reduceCtorEq, and_false, exists_false,
      or_false] at hnode hmem
    exact hne (hmem.symm.trans hnode)
  · simp only [List.mem_cons, reduceCtorEq, List.mem_map, Sum.inr.injEq, exists_eq_right,
      false_or] at hnode hmem
    exact hne (hapart.disjoint hmem hnode)

theorem not_mem_free (hfree : ∀ h, x ∉ lists h) {node : Head ⊕ Elem}
    (hnode : node ∈ Sum.inl head :: (lists head).map Sum.inr) : node ∉ [Sum.inr x] := by
  rintro hmem
  rw [List.mem_singleton.mp hmem] at hnode
  simp only [List.mem_cons, reduceCtorEq, List.mem_map, Sum.inr.injEq, exists_eq_right,
    false_or] at hnode
  exact hfree head hnode

theorem free_not_mem (hfree : ∀ h, x ∉ lists h) (h : Head) :
    Sum.inr x ∉ Sum.inl h :: (lists h).map Sum.inr := by
  simpa using hfree h

theorem first_mem_ring (hlist : lists head = xs ++ ys) :
    first head ys ∈ Sum.inl head :: (lists head).map Sum.inr := by
  rw [hlist, List.map_append]
  rcases List.mem_cons.mp (first_mem head ys) with heq | hmem
  · simp [heq]
  · exact List.mem_cons_of_mem _ (List.mem_append_right _ hmem)

theorem last_mem_ring (hlist : lists head = xs ++ ys) :
    last head xs ∈ Sum.inl head :: (lists head).map Sum.inr := by
  rw [hlist, List.map_append]
  rcases List.mem_cons.mp (last_mem head xs) with heq | hmem
  · simp [heq]
  · exact List.mem_cons_of_mem _ (List.mem_append_left _ hmem)

variable [DecidableEq Head]

/-! ### Loops -/

section Loops

variable {σ ε : Type*}

/-- `list_for_each_entry` from a node on. A walk that comes to another head, or that is not back
after `fuel` nodes, is lost. -/
def forEachEntry (l : Links (Head ⊕ Elem)) (head : Head) (lost : ε)
    (body : σ → Elem → Except ε σ) : Nat → Head ⊕ Elem → σ → Except ε σ
  | _, .inl h, s => if h = head then .ok s else .error lost
  | 0, .inr _, _ => .error lost
  | fuel + 1, .inr pos, s => do
      let s ← body s pos
      forEachEntry l head lost body fuel (l.next (.inr pos)) s

/-- `list_for_each_entry_safe` from a node on, over the links in a state that the body changes. -/
def forEachEntrySafe (links : σ → Links (Head ⊕ Elem)) (head : Head) (lost : ε)
    (body : σ → Elem → Except ε σ) : Nat → Head ⊕ Elem → σ → Except ε σ
  | _, .inl h, s => if h = head then .ok s else .error lost
  | 0, .inr _, _ => .error lost
  | fuel + 1, .inr pos, s => do
      let tmp := (links s).next (.inr pos)
      let s ← body s pos
      forEachEntrySafe links head lost body fuel tmp s

theorem Linked.forEachEntry_first (hlinked : Linked l lists) (lost : ε)
    (body : σ → Elem → Except ε σ) {fuel : Nat} (hlist : lists head = xs ++ ys)
    (hfuel : ys.length ≤ fuel) (s : σ) :
    l.forEachEntry head lost body fuel (first head ys) s = ys.foldlM body s := by
  induction ys generalizing xs fuel s with
  | nil => cases fuel <;> simp [Links.forEachEntry, pure, Except.pure]
  | cons y ys ih =>
      cases fuel with
      | zero => simp at hfuel
      | succ fuel =>
          rw [first_cons, Links.forEachEntry, List.foldlM_cons, hlinked.next_elem hlist]
          have hlist' : lists head = (xs ++ [y]) ++ ys := by simp [hlist]
          exact bind_congr fun s => ih hlist' (Nat.le_of_succ_le_succ hfuel) s

theorem Linked.forEachEntry (hlinked : Linked l lists) (lost : ε)
    (body : σ → Elem → Except ε σ) {fuel : Nat} (hfuel : (lists head).length ≤ fuel) (s : σ) :
    l.forEachEntry head lost body fuel (l.next (.inl head)) s = (lists head).foldlM body s := by
  rw [hlinked.next_head]
  exact hlinked.forEachEntry_first lost body (List.nil_append _).symm hfuel s

/-- The rule for a loop whose body changes the lists: an invariant about the elements to come,
which gives the next of them before the body runs. -/
theorem forEachEntrySafe_rule {links : σ → Links (Head ⊕ Elem)} {lost : ε}
    {body : σ → Elem → Except ε σ} (Inv : List Elem → σ → Prop)
    (hnext : ∀ {y ys s}, Inv (y :: ys) s → (links s).next (.inr y) = first head ys)
    (hbody : ∀ {y ys s}, Inv (y :: ys) s → ∃ after, body s y = .ok after ∧ Inv ys after)
    {fuel : Nat} (hfuel : ys.length ≤ fuel) {s : σ} (hinv : Inv ys s) :
    ∃ after, forEachEntrySafe links head lost body fuel (first head ys) s = .ok after ∧
      Inv [] after := by
  induction ys generalizing fuel s with
  | nil => exact ⟨s, by cases fuel <;> simp [forEachEntrySafe], hinv⟩
  | cons y ys ih =>
      cases fuel with
      | zero => simp at hfuel
      | succ fuel =>
          obtain ⟨middle, hrun, hmiddle⟩ := hbody hinv
          obtain ⟨after, hloop, hafter⟩ := ih (by simpa using hfuel) hmiddle
          refine ⟨after, ?_, hafter⟩
          rw [first_cons, forEachEntrySafe, hnext hinv, hrun]
          exact hloop

end Loops

/-! ### Insertion and removal -/

theorem Apart.insert (hapart : Apart lists) (hlist : lists head = xs ++ ys)
    (hfree : ∀ h, x ∉ lists h) : Apart (Function.update lists head (xs ++ x :: ys)) := by
  have hmem : ∀ h z, z ∈ Function.update lists head (xs ++ x :: ys) h →
      z ∈ lists h ∨ z = x ∧ h = head := by
    intro h z hz
    by_cases hh : h = head
    · subst hh
      rw [Function.update_self, List.mem_append, List.mem_cons] at hz
      rw [hlist, List.mem_append]
      tauto
    · rw [Function.update_of_ne hh] at hz
      exact .inl hz
  constructor
  · intro h
    by_cases hh : h = head
    · subst hh
      have hnodup := hapart.nodup h
      have hx := hfree h
      rw [hlist] at hnodup hx
      rw [Function.update_self, List.nodup_middle, List.nodup_cons]
      exact ⟨hx, hnodup⟩
    · rw [Function.update_of_ne hh]
      exact hapart.nodup h
  · intro h h' z hz hz'
    rcases hmem h z hz with hold | ⟨rfl, rfl⟩
    · rcases hmem h' z hz' with hold' | ⟨rfl, rfl⟩
      · exact hapart.disjoint hold hold'
      · exact absurd hold (hfree h)
    · rcases hmem h' z hz' with hold' | ⟨-, rfl⟩
      · exact absurd hold' (hfree h')
      · rfl

theorem Apart.delete (hapart : Apart lists) (hlist : lists head = xs ++ x :: ys) :
    Apart (Function.update lists head (xs ++ ys)) := by
  have hsublist : ∀ h, (Function.update lists head (xs ++ ys) h).Sublist (lists h) := by
    intro h
    by_cases hh : h = head
    · subst hh
      rw [Function.update_self, hlist]
      exact (List.Sublist.refl xs).append (List.sublist_cons_self x ys)
    · rw [Function.update_of_ne hh]
  exact ⟨fun h => (hapart.nodup h).sublist (hsublist h),
    fun hz hz' => hapart.disjoint ((hsublist _).mem hz) ((hsublist _).mem hz')⟩

variable [DecidableEq Elem]

omit [DecidableEq Head] [DecidableEq Elem] in
/-- What happens to a node on no list is of no interest. -/
theorem Linked.frame {l' : Links (Head ⊕ Elem)} (hlinked : Linked l lists)
    (hfree : ∀ h, x ∉ lists h)
    (hsame : ∀ node, node ≠ .inr x → l'.next node = l.next node ∧ l'.prev node = l.prev node) :
    Linked l' lists where
  toApart := hlinked.toApart
  ring := fun h => (hlinked.ring h).congr fun node hnode =>
    hsame node (ne_of_mem_of_not_mem hnode (free_not_mem hfree h))

section Insert

variable (hlist : lists head = xs ++ ys)
include hlist

theorem Linked.insert (hfree : ∀ h, x ∉ lists h) (hlinked : Linked l lists) :
    Linked (l.__listAdd (.inr x) (last head xs) (first head ys))
      (Function.update lists head (xs ++ x :: ys)) where
  toApart := hlinked.toApart.insert hlist hfree
  ring := by
    intro h
    have hring := hlinked.ring h
    by_cases hh : h = head
    · subst hh
      obtain ⟨before, hbefore⟩ := exists_last h xs
      obtain ⟨after, hafter⟩ := exists_first h ys
      have hnodup : (Sum.inl h :: (lists h).map Sum.inr).Nodup :=
        List.nodup_cons.mpr ⟨by simp, (hlinked.nodup h).map Sum.inr_injective⟩
      have hnew := free_not_mem hfree h
      rw [hlist, List.map_append] at hring hnodup hnew
      rw [Function.update_self, List.map_append, List.map_cons]
      exact hring.insert hnodup hbefore hafter hnew
    · rw [Function.update_of_ne hh, listAdd_eq]
      have hprev := hlinked.not_mem_ring hh (last_mem_ring hlist)
      have hnext := hlinked.not_mem_ring hh (first_mem_ring hlist)
      have hnew := free_not_mem hfree h
      exact (hring.frame hnew hnext).frame hprev hnew

omit [DecidableEq Elem] in
theorem free_of_insert {y : Elem}
    (hy : ∀ h, y ∉ Function.update lists head (xs ++ x :: ys) h) : x ≠ y ∧ ∀ h, y ∉ lists h := by
  have hhead := hy head
  rw [Function.update_self, List.mem_append, List.mem_cons] at hhead
  refine ⟨fun hxy => hhead (.inr (.inl hxy.symm)), fun h hmem => ?_⟩
  by_cases hh : h = head
  · subst hh
    rw [hlist, List.mem_append] at hmem
    exact hhead (hmem.imp_right Or.inr)
  · exact hy h (by rwa [Function.update_of_ne hh])

theorem Ring.insert_free {y : Elem} (hring : l.Ring (.inr y) []) (hy : ∀ h, y ∉ lists h)
    (hxy : x ≠ y) : (l.__listAdd (.inr x) (last head xs) (first head ys)).Ring (.inr y) [] := by
  have hx : Sum.inr x ∉ [(Sum.inr y : Head ⊕ Elem)] := by simpa using hxy
  rw [listAdd_eq]
  exact (hring.frame hx (not_mem_free hy (first_mem_ring hlist))).frame
    (not_mem_free hy (last_mem_ring hlist)) hx

theorem Tidy.insert (hfree : ∀ h, x ∉ lists h) (htidy : Tidy l lists) :
    Tidy (l.__listAdd (.inr x) (last head xs) (first head ys))
      (Function.update lists head (xs ++ x :: ys)) where
  toLinked := htidy.toLinked.insert hlist hfree
  free := by
    intro y hy
    obtain ⟨hxy, hold⟩ := free_of_insert hlist hy
    exact (htidy.free y hold).insert_free hlist hold hxy

end Insert

section Delete

variable (hlist : lists head = xs ++ x :: ys)
include hlist

theorem Linked.delete (hlinked : Linked l lists) :
    Linked (l.__listDelEntry (.inr x)) (Function.update lists head (xs ++ ys)) where
  toApart := hlinked.toApart.delete hlist
  ring := by
    intro h
    have hring := hlinked.ring h
    rw [__listDelEntry, hlinked.prev_elem hlist, hlinked.next_elem hlist]
    by_cases hh : h = head
    · subst hh
      obtain ⟨before, hbefore⟩ := exists_last h xs
      obtain ⟨after, hafter⟩ := exists_first h ys
      have hnodup : (Sum.inl h :: (xs ++ ys).map Sum.inr).Nodup := by
        have hnodup := hlinked.nodup h
        rw [hlist, List.nodup_middle] at hnodup
        exact List.nodup_cons.mpr ⟨by simp, hnodup.of_cons.map Sum.inr_injective⟩
      rw [hlist, List.map_append, List.map_cons] at hring
      rw [List.map_append] at hnodup
      rw [Function.update_self, List.map_append]
      exact hring.delete hnodup hbefore hafter
    · rw [Function.update_of_ne hh]
      have hlist' : lists head = (xs ++ [x]) ++ ys := by simp [hlist]
      exact hring.frame (hlinked.not_mem_ring hh (last_mem_ring hlist))
        (hlinked.not_mem_ring hh (first_mem_ring hlist'))

omit [DecidableEq Elem] in
theorem Apart.not_mem_delete (hapart : Apart lists) (h : Head) :
    x ∉ Function.update lists head (xs ++ ys) h := by
  by_cases hh : h = head
  · subst hh
    have hnodup := hapart.nodup h
    rw [hlist, List.nodup_middle] at hnodup
    rw [Function.update_self]
    exact (List.nodup_cons.mp hnodup).1
  · rw [Function.update_of_ne hh]
    exact fun hmem => hh (hapart.disjoint hmem (by rw [hlist]; simp))

omit [DecidableEq Elem] in
theorem free_of_delete {y : Elem} (hxy : x ≠ y)
    (hy : ∀ h, y ∉ Function.update lists head (xs ++ ys) h) (h : Head) : y ∉ lists h := by
  have hyh := hy h
  by_cases hh : h = head
  · subst hh
    rw [Function.update_self, List.mem_append] at hyh
    rw [hlist, List.mem_append, List.mem_cons]
    exact fun hmem => hyh (hmem.imp_right fun hmem => hmem.resolve_left hxy.symm)
  · rwa [Function.update_of_ne hh] at hyh

theorem Ring.delete_free {y : Elem} (hring : l.Ring (.inr y) []) (hlinked : Linked l lists)
    (hy : ∀ h, y ∉ lists h) : (l.__listDelEntry (.inr x)).Ring (.inr y) [] := by
  have hlist' : lists head = (xs ++ [x]) ++ ys := by simp [hlist]
  rw [__listDelEntry, hlinked.prev_elem hlist, hlinked.next_elem hlist]
  exact hring.frame (not_mem_free hy (last_mem_ring hlist))
    (not_mem_free hy (first_mem_ring hlist'))

theorem Linked.listDel (hlinked : Linked l lists) (poison₁ poison₂ : Head ⊕ Elem) :
    Linked (l.listDel poison₁ poison₂ (.inr x)) (Function.update lists head (xs ++ ys)) :=
  (hlinked.delete hlist).frame (hlinked.not_mem_delete hlist) fun _ hnode =>
    ⟨Function.update_of_ne hnode _ _, Function.update_of_ne hnode _ _⟩

theorem Linked.listDelInit (hlinked : Linked l lists) :
    Linked (l.listDelInit (.inr x)) (Function.update lists head (xs ++ ys)) :=
  (hlinked.delete hlist).frame (hlinked.not_mem_delete hlist) fun _ hnode =>
    ⟨Function.update_of_ne hnode _ _, Function.update_of_ne hnode _ _⟩

theorem Tidy.listDelInit (htidy : Tidy l lists) :
    Tidy (l.listDelInit (.inr x)) (Function.update lists head (xs ++ ys)) where
  toLinked := htidy.toLinked.listDelInit hlist
  free := by
    intro y hy
    rw [Links.listDelInit, initListHead_eq]
    by_cases hxy : x = y
    · subst hxy
      exact List.isChain_pair.mpr (link_listDel _ _)
    · have hx : Sum.inr x ∉ [(Sum.inr y : Head ⊕ Elem)] := by simpa using hxy
      have hold := free_of_delete hlist hxy hy
      exact ((htidy.free y hold).delete_free hlist htidy.toLinked hold).frame hx hx

end Delete

theorem listAddTail_eq (hlinked : Linked l lists) (x : Elem) (head : Head) :
    l.listAddTail (.inr x) (.inl head) =
      l.__listAdd (.inr x) (last head (lists head)) (first head []) := by
  rw [Links.listAddTail, hlinked.prev_head, first_nil]

theorem listAdd_head_eq (hlinked : Linked l lists) (x : Elem) (head : Head) :
    l.listAdd (.inr x) (.inl head) =
      l.__listAdd (.inr x) (last head []) (first head (lists head)) := by
  rw [Links.listAdd, hlinked.next_head, last_nil]

theorem Linked.listAddTail (hlinked : Linked l lists) (hfree : ∀ h, x ∉ lists h) (head : Head) :
    Linked (l.listAddTail (.inr x) (.inl head))
      (Function.update lists head (lists head ++ [x])) := by
  rw [listAddTail_eq hlinked]
  exact hlinked.insert (by simp) hfree

theorem Tidy.listAddTail (htidy : Tidy l lists) (hfree : ∀ h, x ∉ lists h) (head : Head) :
    Tidy (l.listAddTail (.inr x) (.inl head))
      (Function.update lists head (lists head ++ [x])) := by
  rw [listAddTail_eq htidy.toLinked]
  exact htidy.insert (by simp) hfree

theorem Linked.listAdd (hlinked : Linked l lists) (hfree : ∀ h, x ∉ lists h) (head : Head) :
    Linked (l.listAdd (.inr x) (.inl head)) (Function.update lists head (x :: lists head)) := by
  rw [listAdd_head_eq hlinked]
  exact hlinked.insert rfl hfree

theorem Tidy.listAdd (htidy : Tidy l lists) (hfree : ∀ h, x ∉ lists h) (head : Head) :
    Tidy (l.listAdd (.inr x) (.inl head)) (Function.update lists head (x :: lists head)) := by
  rw [listAdd_head_eq htidy.toLinked]
  exact htidy.insert rfl hfree

/-- The lists after a move to the end of the list of `target`. -/
def moved (lists : Head → List Elem) (head target : Head) (xs : List Elem) (x : Elem)
    (ys : List Elem) : Head → List Elem :=
  let rest := Function.update lists head (xs ++ ys)
  Function.update rest target (rest target ++ [x])

theorem Linked.listMoveTail (hlinked : Linked l lists) (hlist : lists head = xs ++ x :: ys)
    (target : Head) :
    Linked (l.listMoveTail (.inr x) (.inl target)) (moved lists head target xs x ys) :=
  (hlinked.delete hlist).listAddTail (hlinked.not_mem_delete hlist) target

theorem Tidy.listMoveTail (htidy : Tidy l lists) (hlist : lists head = xs ++ x :: ys)
    (target : Head) :
    Tidy (l.listMoveTail (.inr x) (.inl target)) (moved lists head target xs x ys) where
  toLinked := htidy.toLinked.listMoveTail hlist target
  free := by
    intro y hy
    obtain ⟨hxy, hrest⟩ := free_of_insert (List.append_nil _).symm hy
    have hold := free_of_delete hlist hxy hrest
    rw [Links.listMoveTail, listAddTail_eq (htidy.toLinked.delete hlist)]
    exact ((htidy.free y hold).delete_free hlist htidy.toLinked hold).insert_free
      (List.append_nil _).symm hrest hxy

theorem Linked.listEmpty (hlinked : Linked l lists) (head : Head) :
    l.listEmpty (.inl head) = (lists head).isEmpty := by
  rw [Links.listEmpty, hlinked.next_head]
  cases lists head <;> simp

/-- A node is empty if it is on no list. -/
theorem Tidy.listEmpty (htidy : Tidy l lists) (x : Elem) :
    l.listEmpty (.inr x) = true ↔ ∀ h, x ∉ lists h := by
  rw [Links.listEmpty, decide_eq_true_iff]
  constructor
  · intro hself h hmem
    obtain ⟨xs, ys, hlist⟩ := List.append_of_mem hmem
    rw [htidy.next_elem hlist] at hself
    have hnodup := htidy.nodup h
    rw [hlist, List.nodup_middle] at hnodup
    cases ys with
    | nil => simp at hself
    | cons y ys =>
        rw [first_cons, Sum.inr.injEq] at hself
        subst hself
        simp at hnodup
  · intro hfree
    exact (List.isChain_pair.mp (htidy.free x hfree)).1

/-! ### Heads that are not initialised -/

/-- The memory with the heads outside `D` initialised. -/
def initialised (l : Links (Head ⊕ Elem)) (D : List Head) : Links (Head ⊕ Elem) where
  next
    | .inl h => if h ∈ D then l.next (.inl h) else .inl h
    | .inr x => l.next (.inr x)
  prev
    | .inl h => if h ∈ D then l.prev (.inl h) else .inl h
    | .inr x => l.prev (.inr x)

/-- The memory holds a list at each head in `D`. -/
def LinkedOn (l : Links (Head ⊕ Elem)) (D : List Head) (lists : Head → List Elem) : Prop :=
  (l.initialised D).Linked lists

omit [DecidableEq Elem] in
theorem linkedOn_empty : l.LinkedOn [] fun _ => [] where
  nodup := by simp
  disjoint := by simp
  ring := fun h => by simp [Ring, Link, initialised]

omit [DecidableEq Elem] in
theorem LinkedOn.linked {D : List Head} (hlinked : l.LinkedOn D lists) (hall : ∀ h, h ∈ D) :
    l.Linked lists := by
  have hsame : l.initialised D = l := by
    cases l
    simp only [initialised, hall, if_true, mk.injEq]
    constructor
    · funext node
      cases node <;> rfl
    · funext node
      cases node <;> rfl
  exact hsame ▸ hlinked

theorem LinkedOn.initListHead {D : List Head} (hlinked : l.LinkedOn D lists) (hhead : head ∉ D) :
    (l.initListHead (.inl head)).LinkedOn (head :: D) lists := by
  have hsame : (l.initListHead (.inl head)).initialised (head :: D) = l.initialised D := by
    simp only [initialised, Links.initListHead, setNext, setPrev, mk.injEq]
    constructor
    · funext node
      rcases node with h | x
      · by_cases hh : h = head
        · subst hh
          simp [hhead]
        · simp [hh]
      · simp
    · funext node
      rcases node with h | x
      · by_cases hh : h = head
        · subst hh
          simp [hhead]
        · simp [hh]
      · simp
  rw [LinkedOn, hsame]
  exact hlinked

/-- Writes to the nodes of initialised heads. -/
theorem initialised_listDel {D : List Head} {p n : Head ⊕ Elem} (hp : ∀ h, p = .inl h → h ∈ D)
    (hn : ∀ h, n = .inl h → h ∈ D) :
    (l.__listDel p n).initialised D = (l.initialised D).__listDel p n := by
  simp only [initialised, __listDel, setNext, setPrev, mk.injEq]
  constructor
  · funext node
    by_cases hnode : node = p
    · subst hnode
      rcases node with h | x
      · simp [hp h rfl]
      · simp
    · rcases node with h | x <;> simp [hnode]
  · funext node
    by_cases hnode : node = n
    · subst hnode
      rcases node with h | x
      · simp [hn h rfl]
      · simp
    · rcases node with h | x <;> simp [hnode]

theorem LinkedOn.listAddTail {D : List Head} (hlinked : l.LinkedOn D lists)
    (hfree : ∀ h, x ∉ lists h) (hhead : head ∈ D) :
    (l.listAddTail (.inr x) (.inl head)).LinkedOn D
      (Function.update lists head (lists head ++ [x])) := by
  have hprev : l.prev (.inl head) = last head (lists head) := by
    rw [← Linked.prev_head hlinked head]
    simp [initialised, hhead]
  have hlast : ∀ h, last head (lists head) = .inl h → h ∈ D := by
    intro h heq
    have hmem := last_mem head (lists head)
    rw [heq] at hmem
    simp only [List.mem_cons, Sum.inl.injEq, List.mem_map, reduceCtorEq, and_false, exists_false,
      or_false] at hmem
    exact hmem ▸ hhead
  have hsame : (l.listAddTail (.inr x) (.inl head)).initialised D =
      (l.initialised D).listAddTail (.inr x) (.inl head) := by
    rw [listAddTail_eq hlinked, Links.listAddTail, hprev, listAdd_eq, listAdd_eq,
      initialised_listDel hlast (by simp), initialised_listDel (by simp) (by simpa using hhead)]
    rfl
  rw [LinkedOn, hsame]
  exact Linked.listAddTail hlinked hfree head

end Linked

end Links

end OperatingSystem
