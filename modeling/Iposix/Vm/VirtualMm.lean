import Iposix.Vm.Process

/-!
# Memory of a process

`virtual_mm` gives a process pages of the page manager; copying an address
space and resetting one are done through it. `copy_in` copies between a buffer
of the kernel and the memory of a process. A buffer is an array of its own, for
it never lies in the pages copied to.
-/

namespace Iposix.Vm

open Iposix.Lib

def PAGE_SIZE : Nat := 4096

/-! ## virtual_mm -/

/-- The pages handed out so far are given back. -/
def freeAll (mm : PageManager) (M : Machine) : List Nat → Machine
  | [] => M
  | addr :: addresses => freeAll mm (mm.release M addr).2 addresses

/-- The loop of `malloc` that gets the pages, all or none. -/
def allocAll (mm : PageManager) :
    (pages : Nat) → (addresses : List Nat) → Machine →
      Option (List Nat) × Machine
  | 0, addresses, M => (some addresses, M)
  | pages + 1, addresses, M =>
      let (addr, M) := mm.alloc M false
      if addr = 0 then (none, freeAll mm M addresses)
      else allocAll mm pages (addresses ++ [addr]) M

/-- `malloc` for a process -/
def virtualMalloc (mm : PageManager) (M : Machine) (size ptable base : Nat) :
    Nat × Machine :=
  let pages := size / PAGE_SIZE + if size % PAGE_SIZE ≠ 0 then 1 else 0
  match allocAll mm pages [] M with
  | (none, M) => (0, M)
  | (some addresses, M) => addVirtualMemory mm M ptable addresses base

/-- `vmalloc` -/
def vmalloc (mm : PageManager) (M : Machine) (size ptable base : Nat) :
    Nat × Machine :=
  if base = 0 then (0, M) else virtualMalloc mm M size ptable base

/-- `free` of a process' memory, which `kfree` calls. It is the current process
whose memory it frees. -/
def virtualFree (mm : PageManager) (M : Machine) (current : Option Nat)
    (addr : Nat) : Bool × Machine :=
  match current with
  | none => (false, M)
  | some ptable =>
      let real := getPhysAddress M.mem ptable addr
      if real = 0 then (false, M)
      else
        let (freed, M) := mm.release M real
        if !freed then (false, M)
        else removeVirtualMemory M ptable addr

/-! ## Whole address spaces -/

/-- The inner loop of `copy_address_space`: the pages of one table of the
process copied, from `page` on. -/
def copyTable (mm : PageManager) (ptable other dir table : Nat) :
    (turns page : Nat) → Machine → Bool × Machine
  | 0, _, M => (true, M)
  | turns + 1, page, M =>
      let entry := readEntry M.mem (table + 4 * page)
      if entry.presence && !entry.directMapped then
        let v := normal dir page 0
        let (alloc, M) := vmalloc mm M PAGE_SIZE ptable v
        if alloc ≠ v then (false, M)
        else
          let phys1 := getPhysAddress M.mem ptable alloc
          let phys2 := getPhysAddress M.mem other v
          copyTable mm ptable other dir table turns (page + 1)
            { mem := splice M.mem phys1 PAGE_SIZE (window M.mem phys2)
              log := .copy alloc phys1 PAGE_SIZE :: M.log }
      else copyTable mm ptable other dir table turns (page + 1) M

/-- The outer loop. -/
def copyDirectory (mm : PageManager) (ptable other : Nat) :
    (turns dir : Nat) → Machine → Bool × Machine
  | 0, _, M => (true, M)
  | turns + 1, dir, M =>
      let entry := readEntry M.mem (other + 4 * dir)
      if entry.presence && entry.directMapped then
        copyDirectory mm ptable other turns (dir + 1)
          { M with mem := copyEntry M.mem ptable other dir }
      else if entry.presence then
        match copyTable mm ptable other dir entry.address 1024 0 M with
        | (false, M) => (false, M)
        | (true, M) => copyDirectory mm ptable other turns (dir + 1) M
      else copyDirectory mm ptable other turns (dir + 1) M

/-- `copy_address_space` -/
def copyAddressSpace (mm : PageManager) (M : Machine) (ptable other : Nat) :
    Bool × Machine :=
  copyDirectory mm ptable other 1024 0 M

/-- The inner loop of `reset_address_space`. -/
def resetTable (mm : PageManager) (current : Option Nat) (dir table : Nat) :
    (turns page : Nat) → (success : Bool) → Machine → Bool × Machine
  | 0, _, success, M => (success, M)
  | turns + 1, page, success, M =>
      let entry := readEntry M.mem (table + 4 * page)
      if entry.presence && !entry.directMapped then
        let (freed, M) := virtualFree mm M current (normal dir page 0)
        resetTable mm current dir table turns (page + 1) (success && freed) M
      else resetTable mm current dir table turns (page + 1) success M

/-- The outer loop. -/
def resetDirectory (mm : PageManager) (current : Option Nat) (ptable : Nat) :
    (turns dir : Nat) → (success : Bool) → Machine → Bool × Machine
  | 0, _, success, M => (success, M)
  | turns + 1, dir, success, M =>
      let entry := readEntry M.mem (ptable + 4 * dir)
      if entry.presence && !entry.directMapped then
        let (success, M) :=
          resetTable mm current dir entry.address 1024 0 success M
        resetDirectory mm current ptable turns (dir + 1) success M
      else resetDirectory mm current ptable turns (dir + 1) success M

/-- `reset_address_space` -/
def resetAddressSpace (mm : PageManager) (M : Machine) (current : Option Nat)
    (ptable : Nat) : Bool × Machine :=
  resetDirectory mm current ptable 1024 0 true M

/-! ## Copying -/

/-- A machine and a buffer, and how far in the buffer the copy has got. -/
structure Transfer where
  machine : Machine
  buffer : Nat → UInt8
  position : Nat

/-- `size` bytes between the physical address and the buffer. -/
def Transfer.move (copyout : Bool) (t : Transfer) (vaddr phys size : Nat) :
    Transfer :=
  if copyout then
    { t with
      buffer := splice t.buffer t.position size (window t.machine.mem phys)
      position := t.position + size }
  else
    { t with
      machine :=
        { mem := splice t.machine.mem phys size (window t.buffer t.position)
          log := .copy vaddr phys size :: t.machine.log }
      position := t.position + size }

/-- The loop over whole pages: the address it ends at, none if it fails. It
also fails when it has copied the last page of the address space. -/
def copyPages (ptable : Nat) (copyout : Bool) :
    (count vaddr : Nat) → Transfer → Option Nat × Transfer
  | 0, vaddr, t => (some vaddr, t)
  | count + 1, vaddr, t =>
      let phys := getPhysAddress t.machine.mem ptable vaddr
      if phys = 0 then (none, t)
      else
        let t := t.move copyout vaddr phys PAGE_SIZE
        match nextPage vaddr with
        | none => (none, t)
        | some vaddr => copyPages ptable copyout count vaddr t

/-- What follows the first page: whole pages and the rest. -/
def copyRest (ptable : Nat) (copyout : Bool) (vaddr size : Nat)
    (t : Transfer) : Bool × Transfer :=
  match copyPages ptable copyout (size / PAGE_SIZE) vaddr t with
  | (none, t) => (false, t)
  | (some vaddr, t) =>
      let size := size % PAGE_SIZE
      if size = 0 then (true, t)
      else
        let phys := getPhysAddress t.machine.mem ptable vaddr
        if phys = 0 then (false, t)
        else (true, t.move copyout vaddr phys size)

/-- `copy_in`; `copy_out` is the same with `copyout`. The buffer may be
null. -/
def copyIn (M : Machine) (ptable vaddr : Nat) (buffer : Option (Nat → UInt8))
    (size : Nat) (copyout : Bool) : Bool × Machine × Option (Nat → UInt8) :=
  if size = 0 then (true, M, buffer)
  else
    match buffer with
    | none => (false, M, none)
    | some array =>
        if vaddr = 0 then (false, M, buffer)
        else
          let (done, t) :=
            if offset vaddr ≠ 0 then
              let csize := PAGE_SIZE - offset vaddr
              let csize := if size < csize then size else csize
              let phys := getPhysAddress M.mem ptable vaddr
              if phys = 0 then (false, ⟨M, array, 0⟩)
              else
                let t := Transfer.move copyout ⟨M, array, 0⟩ vaddr phys csize
                if size - csize = 0 then (true, t)
                else
                  match nextPage vaddr with
                  | none => (false, t)
                  | some vaddr =>
                      copyRest ptable copyout vaddr (size - csize) t
            else copyRest ptable copyout vaddr size ⟨M, array, 0⟩
          (done, t.machine, some t.buffer)

end Iposix.Vm
