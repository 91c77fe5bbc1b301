import Mathlib.Data.BitVec
import Mathlib.Data.Fin.Tuple.Basic
import Mathlib.Data.List.FinRange
import Mathlib.Logic.Function.Basic

/-!
# The virtual memory simulator

The page tables of `vm.h`, the operations of `pa4.c` (`alloc_page`, `free_page`,
`handle_page_fault`, `switch_process`) and the framework of `vm.c` around them.

A `struct process` lives at an address; `current`, the list `processes` and the
page table base register hold such addresses, so the register can be told from
the running process. Page directories are kept inside their page table: the code
allocates a new one for every table, and no two tables ever share one. What
`malloc` leaves in a block is a parameter.

The map counts are `unsigned int` in the source, `Word` here. The simulator is
generic in their type: `Vm Word` is the machine, on which a decremented zero is the
largest count, and `Vm Int` counts exactly. Every write to a map count is also
appended to `events`, which no function reads.
-/

namespace OperatingSystem.Paging

set_option linter.style.nameCheck false

abbrev NR_PAGEFRAMES : Nat := 128
abbrev NR_PTES_PER_PAGE : Nat := 16
def RW_READ : Nat := 1
def RW_WRITE : Nat := 2

/-- `(unsigned int)-1`, the result of `alloc_page` for a vpn out of range. -/
def UINT_MAX : Nat := 4294967295

/-- What stops the simulator: an array index out of its bounds, a null pointer, or
a failed `assert`. -/
inductive Fault where
  | outOfBounds
  | nullPointer
  | assertion
deriving DecidableEq, Repr

/-- `struct pte`; `priv` is the field `private`. -/
structure Pte where
  valid : Bool
  writable : Bool
  pfn : Nat
  priv : Nat
deriving DecidableEq, Repr

/-- An entry of zeroed memory. -/
def Pte.zero : Pte := ⟨false, false, 0, 0⟩

/-- `struct pte_directory`. -/
abbrev PteDirectory := Fin NR_PTES_PER_PAGE → Pte

/-- `struct pagetable`: the outer table, whose entries may be null. -/
abbrev PageTable := Fin NR_PTES_PER_PAGE → Option PteDirectory

/-- `outer_ptes[i]->ptes[j]`, and a zero entry where the directory is missing. -/
def PageTable.pte (table : PageTable) (i j : Fin NR_PTES_PER_PAGE) : Pte :=
  match table i with
  | none => .zero
  | some directory => directory j

/-- Assign `outer_ptes[i]->ptes[j]`. -/
def PageTable.store (table : PageTable) (i j : Fin NR_PTES_PER_PAGE) (pte : Pte) : PageTable :=
  match table i with
  | none => table
  | some directory => Function.update table i (some (Function.update directory j pte))

/-- `struct process`, less its list head. -/
structure Process where
  pid : Nat
  pagetable : PageTable

abbrev Frame := Fin NR_PAGEFRAMES

/-- `unsigned int`. -/
abbrev Word := BitVec 32

variable {Count : Type} [AddCommGroupWithOne Count] [DecidableEq Count]

/-- A write to the map count of a frame: `= 1` in `alloc_page`, `++` for the copy in
`handle_page_fault`, `++` in the fork of `switch_process`, and `--`. -/
inductive MapEvent where
  | assign (frame : Frame)
  | copy (frame : Frame)
  | share (frame : Frame)
  | drop (frame : Frame)
deriving DecidableEq, Repr

def MapEvent.apply (counts : Frame → Count) : MapEvent → Frame → Count
  | .assign frame => Function.update counts frame 1
  | .copy frame => Function.update counts frame (counts frame + 1)
  | .share frame => Function.update counts frame (counts frame + 1)
  | .drop frame => Function.update counts frame (counts frame - 1)

/-- The globals of the simulator and the heap of processes. `brk` is the next free
address. -/
structure Vm (Count : Type) where
  procs : Nat → Process
  brk : Nat
  current : Nat
  processes : List Nat
  ptbr : Option Nat
  mapcounts : Frame → Count
  events : List MapEvent

/-- The state after `__init_system`: the static process `init` runs alone. -/
def Vm.init : Vm Count where
  procs := fun _ => ⟨0, fun _ => none⟩
  brk := 1
  current := 0
  processes := []
  ptbr := some 0
  mapcounts := fun _ => 0
  events := []

/-- The contents of the blocks that `malloc` returns during one command. -/
structure Malloc where
  directory : PteDirectory
  pagetable : PageTable

def Malloc.zeroed : Malloc := ⟨fun _ => .zero, fun _ => none⟩

/-! ## Accesses -/

/-- An index into `outer_ptes`. -/
def slot (index : Nat) : Except Fault (Fin NR_PTES_PER_PAGE) :=
  if h : index < NR_PTES_PER_PAGE then .ok ⟨index, h⟩ else .error .outOfBounds

/-- `vpn % NR_PTES_PER_PAGE`, an index into `ptes`. -/
def pteIndex (vpn : Nat) : Fin NR_PTES_PER_PAGE :=
  ⟨vpn % NR_PTES_PER_PAGE, Nat.mod_lt _ (by decide)⟩

/-- An index into `mapcounts`. -/
def frameIndex (pfn : Nat) : Except Fault Frame :=
  if h : pfn < NR_PAGEFRAMES then .ok ⟨pfn, h⟩ else .error .outOfBounds

/-- The pointer `ptbr`, about to be followed. -/
def Vm.table (vm : Vm Count) : Except Fault Nat :=
  match vm.ptbr with
  | none => .error .nullPointer
  | some address => .ok address

def Vm.setTable (vm : Vm Count) (address : Nat) (table : PageTable) : Vm Count :=
  { vm with procs :=
      Function.update vm.procs address { vm.procs address with pagetable := table } }

def Vm.storePte (vm : Vm Count) (address : Nat) (i j : Fin NR_PTES_PER_PAGE) (pte : Pte) :
    Vm Count :=
  vm.setTable address ((vm.procs address).pagetable.store i j pte)

def Vm.count (vm : Vm Count) (event : MapEvent) : Vm Count :=
  { vm with mapcounts := event.apply vm.mapcounts, events := vm.events ++ [event] }

/-- The loop `for (i = 0; i < NR_PAGEFRAMES; i++) { if (mapcounts[i]) continue; ...; break; }`. -/
def Vm.freeFrame (vm : Vm Count) : Option Frame :=
  (List.finRange NR_PAGEFRAMES).find? fun frame => vm.mapcounts frame = 0

/-- Give the table at `address` a new directory `i` unless it has one. -/
def Vm.mallocDirectory (fresh : Malloc) (vm : Vm Count) (address : Nat) (i : Fin NR_PTES_PER_PAGE) :
    Vm Count :=
  if ((vm.procs address).pagetable i).isNone then
    vm.setTable address
      (Function.update (vm.procs address).pagetable i (some fresh.directory))
  else vm

/-! ## `pa4.c` -/

/-- The bits that `alloc_page` sets for the flag `rw`; the frame number is kept. -/
def Pte.grant (pte : Pte) (rw : Nat) : Pte :=
  if rw = RW_READ then { pte with valid := true, writable := false, priv := 0 }
  else { pte with valid := true, writable := true, priv := 1 }

/-- `alloc_page`. When no frame is free the loop leaves `pfn` as it was. -/
def allocPage (fresh : Malloc) (vm : Vm Count) (vpn rw : Nat) : Except Fault (Nat × Vm Count) := do
  let table ← vm.table
  let out_idx ← slot (vpn / NR_PTES_PER_PAGE)
  let vpn_idx := pteIndex vpn
  let vm := vm.mallocDirectory fresh table out_idx
  if vpn < NR_PTES_PER_PAGE * NR_PTES_PER_PAGE then
    let pte := ((vm.procs table).pagetable.pte out_idx vpn_idx).grant rw
    let (pte, vm) :=
      match vm.freeFrame with
      | some frame => ({ pte with pfn := frame.val }, vm.count (.assign frame))
      | none => (pte, vm)
    let vm := vm.storePte table out_idx vpn_idx pte
    -- current->pagetable = *ptbr
    let vm := vm.setTable vm.current (vm.procs table).pagetable
    return (((vm.procs vm.current).pagetable.pte out_idx vpn_idx).pfn, vm)
  else
    return (UINT_MAX, vm)

/-- `free_page`. -/
def freePage (vm : Vm Count) (vpn : Nat) : Except Fault (Vm Count) := do
  let table ← vm.table
  let out_idx ← slot (vpn / NR_PTES_PER_PAGE)
  let vpn_idx := pteIndex vpn
  match (vm.procs table).pagetable out_idx with
  | none => throw .nullPointer
  | some directory =>
    let pte := { directory vpn_idx with valid := false, writable := false, priv := 0 }
    let frame ← frameIndex pte.pfn
    return (vm.count (.drop frame)).storePte table out_idx vpn_idx { pte with pfn := 0 }

/-- `handle_page_fault`. -/
def handlePageFault (vm : Vm Count) (vpn rw : Nat) : Except Fault (Bool × Vm Count) := do
  let table ← vm.table
  let out_idx ← slot (vpn / NR_PTES_PER_PAGE)
  let vpn_idx := pteIndex vpn
  match (vm.procs table).pagetable out_idx with
  | none => return (false, vm)
  | some directory =>
    let pte := directory vpn_idx
    if pte.valid = false then
      return (false, vm)
    else if pte.priv = 1 then
      -- written back before the search for a frame, so it stays when none is found
      let pte := { pte with writable := true }
      let vm := vm.storePte table out_idx vpn_idx pte
      let frame ← frameIndex pte.pfn
      if vm.mapcounts frame ≠ 1 then
        match vm.freeFrame with
        | some i =>
          let vm := vm.count (.drop frame)
          let vm := vm.storePte table out_idx vpn_idx { pte with pfn := i.val }
          return (true, vm.count (.copy i))
        | none => return (true, vm)
      else
        return (true, vm)
    else if rw = RW_WRITE then
      return (false, vm)
    else
      return (true, vm)

/-- `ptes[j].writable = false`. -/
def Pte.protect (pte : Pte) : Pte := { pte with writable := false }

/-- The inner loop body of the fork: protect an entry of the parent, copy it to the
child's table and count the new mapping. -/
def forkPte (i : Fin NR_PTES_PER_PAGE) (state : Vm Count × PageTable) (j : Fin NR_PTES_PER_PAGE) :
    Except Fault (Vm Count × PageTable) := do
  let (vm, child) := state
  let pte := ((vm.procs vm.current).pagetable.pte i j).protect
  let vm := vm.storePte vm.current i j pte
  let child := child.store i j pte
  if pte.valid then
    let frame ← frameIndex pte.pfn
    return (vm.count (.share frame), child)
  else
    return (vm, child)

/-- The outer loop body of the fork. -/
def forkDirectory (fresh : Malloc) (state : Vm Count × PageTable) (i : Fin NR_PTES_PER_PAGE) :
    Except Fault (Vm Count × PageTable) :=
  match (state.1.procs state.1.current).pagetable i with
  | none => .ok state
  | some _ =>
    (List.finRange NR_PTES_PER_PAGE).foldlM (forkPte i)
      (state.1, Function.update state.2 i (some fresh.directory))

/-- `switch_process`. -/
def switchProcess (fresh : Malloc) (vm : Vm Count) (pid : Nat) : Except Fault (Vm Count) :=
  let vm := { vm with processes := vm.processes ++ [vm.current] }
  match vm.processes.find? fun check => (vm.procs check).pid = pid with
  | some check =>
    .ok { vm with current := check, ptbr := some check, processes := vm.processes.erase check }
  | none => do
    let (vm, child) ←
      (List.finRange NR_PTES_PER_PAGE).foldlM (forkDirectory fresh) (vm, fresh.pagetable)
    return { vm with
      procs := Function.update vm.procs vm.brk ⟨pid, child⟩
      brk := vm.brk + 1
      current := vm.brk
      ptbr := some vm.brk }

/-! ## `vm.c` -/

/-- `__translate`: the frame number on success. -/
def __translate (vm : Vm Count) (rw vpn : Nat) : Except Fault (Option Nat) :=
  match vm.ptbr with
  | none => .ok none
  | some table => do
    let pd_index ← slot (vpn / NR_PTES_PER_PAGE)
    match (vm.procs table).pagetable pd_index with
    | none => return none
    | some directory =>
      let pte := directory (pteIndex vpn)
      if pte.valid = false then
        return none
      else if rw = RW_WRITE ∧ pte.writable = false then
        return none
      else
        return some pte.pfn

/-- What a framework function prints: success or failure, and the frame number on the line. -/
structure Reply where
  success : Bool
  pfn : Option Nat
deriving DecidableEq, Repr

/-- The success of the reply is what the framework function returns. -/
def Reply.erase (out : Reply × Vm Count) : Bool × Vm Count := (out.1.success, out.2)

/-- The loop of `__access_memory` with the number of retries left. -/
def accessLoop (vpn rw : Nat) : Nat → Vm Count → Except Fault (Reply × Vm Count)
  | retries, vm => do
    match ← __translate vm rw vpn with
    | some pfn => return (⟨true, some pfn⟩, vm)
    | none =>
      let (ret, vm) ← handlePageFault vm vpn rw
      match retries with
      | 0 => return (⟨ret, none⟩, vm)
      | retries + 1 => if ret then accessLoop vpn rw retries vm else return (⟨ret, none⟩, vm)

/-- `__access_memory` with its output. -/
def accessReply (vm : Vm Count) (vpn rw : Nat) : Except Fault (Reply × Vm Count) :=
  if (rw &&& RW_READ) ^^^ (rw &&& RW_WRITE) = 0 then .error .assertion
  else if ¬ vpn < NR_PTES_PER_PAGE * NR_PTES_PER_PAGE then .error .assertion
  else accessLoop vpn rw 1 vm

/-- `__access_memory`. -/
def __accessMemory (vm : Vm Count) (vpn rw : Nat) : Except Fault (Bool × Vm Count) :=
  (accessReply vm vpn rw).map Reply.erase

/-- `__alloc_page` with its output, which names the frame of a page already allocated. -/
def allocReply (fresh : Malloc) (vm : Vm Count) (vpn rw : Nat) : Except Fault (Reply × Vm Count) :=
  if rw = 0 then .error .assertion
  else do
    match ← __translate vm RW_READ vpn with
    | some pfn => return (⟨false, some pfn⟩, vm)
    | none =>
      let (pfn, vm) ← allocPage fresh vm vpn rw
      return (⟨decide (pfn ≠ UINT_MAX), if pfn ≠ UINT_MAX then some pfn else none⟩, vm)

/-- `__alloc_page`. -/
def __allocPage (fresh : Malloc) (vm : Vm Count) (vpn rw : Nat) :
    Except Fault (Bool × Vm Count) :=
  (allocReply fresh vm vpn rw).map Reply.erase

/-- `__free_page` with its output. -/
def freeReply (vm : Vm Count) (vpn : Nat) : Except Fault (Reply × Vm Count) := do
  match ← __translate vm RW_READ vpn with
  | none => return (⟨false, none⟩, vm)
  | some pfn => return (⟨true, some pfn⟩, ← freePage vm vpn)

/-- `__free_page`. -/
def __freePage (vm : Vm Count) (vpn : Nat) : Except Fault (Bool × Vm Count) :=
  (freeReply vm vpn).map Reply.erase

/-- The commands of the simulator; `rw` is the flag word of `__make_rwflag`. -/
inductive Command where
  | alloc (vpn rw : Nat)
  | free (vpn : Nat)
  | access (vpn rw : Nat)
  | switch (pid : Nat)
deriving DecidableEq, Repr

def Command.read (vpn : Nat) : Command := .access vpn RW_READ
def Command.write (vpn : Nat) : Command := .access vpn RW_WRITE

/-- One command with its output. -/
def execReply (fresh : Malloc) (vm : Vm Count) : Command → Except Fault (Reply × Vm Count)
  | .alloc vpn rw => allocReply fresh vm vpn rw
  | .free vpn => freeReply vm vpn
  | .access vpn rw => accessReply vm vpn rw
  | .switch pid => do return (⟨true, none⟩, ← switchProcess fresh vm pid)

/-- One command, with the value its framework function returns. -/
def exec (fresh : Malloc) (vm : Vm Count) (command : Command) :
    Except Fault (Bool × Vm Count) :=
  (execReply fresh vm command).map Reply.erase

/-- `__do_simulation` on the commands read so far: it stops at an `alloc` that fails. -/
def __doSimulation (fresh : Malloc) : Vm Count → List Command → Except Fault (Vm Count)
  | vm, [] => .ok vm
  | vm, command :: rest => do
    let (ret, vm) ← exec fresh vm command
    match command, ret with
    | .alloc _ _, false => return vm
    | _, _ => __doSimulation fresh vm rest

end OperatingSystem.Paging
