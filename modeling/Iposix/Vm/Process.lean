import Iposix.Vm.Paging

/-!
# Processes

The hardware part of a process is its page directory. The first 32 entries of
every directory are the shared direct mapping: 4 MiB pages that map the first
128 MiB onto themselves, for the kernel only. What a process maps itself lies
above, in page tables made when they are first needed.

A directory is passed by its address, `ptable`. The loops over a directory or
a table run over the entries that are left, so they need no fuel.
-/

namespace Iposix.Vm

open Iposix.Lib

/-! ## The constructor -/

/-- An entry of `direct_mapping`. -/
def directMappingEntry (dir : Nat) : Entry :=
  { Entry.ofFlat (normal dir 0 0) with
    presence := true
    write := true
    userSupervisor := false
    cacheDisable := false
    writeThrough := true
    access := false
    pageSize := true
    global := true
    directMapped := true }

/-- The loop that fills `direct_mapping`. -/
def fillDirectMapping (directMapping : Nat) :
    (turns dir : Nat) → (Nat → UInt8) → Nat → UInt8
  | 0, _, m => m
  | turns + 1, dir, m =>
      fillDirectMapping directMapping turns (dir + 1)
        (writeEntry m (directMapping + 4 * dir) (directMappingEntry dir))

/-- `this->ptable[dir] = table[dir]` -/
def copyEntry (m : Nat → UInt8) (ptable table dir : Nat) : Nat → UInt8 :=
  store 4 m (ptable + 4 * dir) (load 4 m (table + 4 * dir))

/-- The loop that copies the kernel's entries. -/
def copyDirectMapping (ptable directMapping : Nat) :
    (turns dir : Nat) → (Nat → UInt8) → Nat → UInt8
  | 0, _, m => m
  | turns + 1, dir, m =>
      copyDirectMapping ptable directMapping turns (dir + 1)
        (copyEntry m ptable directMapping dir)

/-- The constructor: the new directory and the direct mapping, which the first
process makes. -/
def newProcess (mm : PageManager) (M : Machine) (directMapping : Nat) :
    Nat × Nat × Machine :=
  let (ptable, M) := createPageTable mm M
  let (directMapping, M) :=
    if directMapping = 0 then
      let (directMapping, M) := createPageTable mm M
      (directMapping,
        { M with mem := fillDirectMapping directMapping 1024 0 M.mem })
    else (directMapping, M)
  (ptable, directMapping,
    { M with mem := copyDirectMapping ptable directMapping 32 0 M.mem })

/-! ## Adding memory -/

/-- The directory entry for a new page table. -/
def tableEntry (table : Nat) : Entry :=
  { Entry.ofFlat table with
    presence := true
    write := true
    userSupervisor := true
    cacheDisable := false
    writeThrough := true
    access := false
    pageSize := false
    global := false
    directMapped := false }

/-- The page table behind an entry, made now if there is none; nothing for a
4 MiB page. -/
def tableAt (mm : PageManager) (M : Machine) (ptable dir : Nat) :
    Option Nat × Machine :=
  let e := readEntry M.mem (ptable + 4 * dir)
  if !e.presence then
    let (table, M) := createPageTable mm M
    let e := tableEntry table
    (some e.address, { M with mem := writeEntry M.mem (ptable + 4 * dir) e })
  else if e.pageSize then (none, M)
  else (some e.address, M)

/-- The search for free entries in one table, wherever they are: the entries
found, the number still to find, and the page the first of them is for. -/
def findFree (m : Nat → UInt8) (table total : Nat) :
    (turns page : Nat) → (used : List Nat) → (count vpage : Nat) →
      List Nat × Nat × Nat
  | 0, _, used, count, vpage => (used, count, vpage)
  | turns + 1, page, used, count, vpage =>
      let entry := table + 4 * page
      if (readEntry m entry).presence then
        findFree m table total turns (page + 1) [] total vpage
      else
        let vpage := if count = total then page else vpage
        let used := used ++ [entry]
        let count := count - 1
        if count = 0 then (used, count, vpage)
        else findFree m table total turns (page + 1) used count vpage

/-- The search from entry `dir` on, with no address given: the entries found
and the address of the first page. -/
def searchAny (mm : PageManager) (ptable total : Nat) :
    (turns dir : Nat) → (used : List Nat) → (count vpage : Nat) → Machine →
      Option (List Nat × Nat) × Machine
  | 0, _, _, _, _, M => (none, M)
  | turns + 1, dir, used, count, vpage, M =>
      match tableAt mm M ptable dir with
      | (none, M) => (none, M)
      | (some table, M) =>
          let (used, count, vpage) :=
            findFree M.mem table total 1024 0 used count vpage
          if count = 0 then (some (used, normal dir vpage 0), M)
          else searchAny mm ptable total turns (dir + 1) used count vpage M

/-- The check in one table that the entries from `page` on are free: the
entries and the number still to check. -/
def claimFree (m : Nat → UInt8) (table : Nat) :
    (turns page : Nat) → (used : List Nat) → (count : Nat) →
      Option (List Nat × Nat)
  | 0, _, used, count => some (used, count)
  | turns + 1, page, used, count =>
      let entry := table + 4 * page
      if (readEntry m entry).presence then none
      else
        let used := used ++ [entry]
        let count := count - 1
        if count = 0 then some (used, count)
        else claimFree m table turns (page + 1) used count

/-- The check at a given address. It also succeeds, with what was found up to
there, where the directory ends. -/
def searchAt (mm : PageManager) (ptable : Nat) :
    (turns dir page : Nat) → (used : List Nat) → (count : Nat) → Machine →
      Option (List Nat) × Machine
  | 0, _, _, used, _, M => (some used, M)
  | turns + 1, dir, page, used, count, M =>
      match tableAt mm M ptable dir with
      | (none, M) => (none, M)
      | (some table, M) =>
          match claimFree M.mem table (1024 - page) page used count with
          | none => (none, M)
          | some (used, count) =>
              if count = 0 then (some used, M)
              else searchAt mm ptable turns (dir + 1) 0 used count M

/-- What an entry becomes when it is given a page. -/
def mappedEntry (e : Entry) (addr : Nat) : Entry :=
  { e with
    presence := true
    write := true
    userSupervisor := true
    writeThrough := true
    cacheDisable := false
    access := false
    dirty := false
    pageSize := false
    global := false
    directMapped := false
    pageFrameAddress := Fin.ofNat 1048576 (addr / 4096) }

/-- The loop that gives the entries found their pages. -/
def mapAll : (Nat → UInt8) → (used addresses : List Nat) → Nat → UInt8
  | m, entry :: used, addr :: addresses =>
      mapAll (writeEntry m entry (mappedEntry (readEntry m entry) addr)) used
        addresses
  | m, _, _ => m

/-- `add_virtual_memory` -/
def addVirtualMemory (mm : PageManager) (M : Machine) (ptable : Nat)
    (addresses : List Nat) (vaddr : Nat) : Nat × Machine :=
  if addresses.length = 0 then (0, M)
  else if vaddr = 0 then
    match searchAny mm ptable addresses.length (1024 - 512) 512 []
        addresses.length 0 M with
    | (none, M) => (0, M)
    | (some (used, v), M) => (v, { M with mem := mapAll M.mem used addresses })
  else
    match searchAt mm ptable (1024 - dir vaddr) (dir vaddr) (page vaddr) []
        addresses.length M with
    | (none, M) => (0, M)
    | (some used, M) => (vaddr, { M with mem := mapAll M.mem used addresses })

/-! ## Translating and removing -/

/-- `get_phys_address`, zero for no address. -/
def getPhysAddress (m : Nat → UInt8) (ptable vaddr : Nat) : Nat :=
  let dentry := readEntry m (ptable + 4 * dir vaddr)
  if !dentry.presence then 0
  else if dentry.pageSize then
    dentry.flat / 4194304 * 4194304 + vaddr % 4194304
  else
    let e := readEntry m (dentry.address + 4 * page vaddr)
    if !e.presence then 0 else e.address + offset vaddr

/-- `remove_virtual_memory` -/
def removeVirtualMemory (M : Machine) (ptable vaddr : Nat) : Bool × Machine :=
  let pde := readEntry M.mem (ptable + 4 * dir vaddr)
  if !pde.presence then (false, M)
  else if pde.pageSize then (false, M)
  else
    let entry := pde.address + 4 * page vaddr
    let pte := readEntry M.mem entry
    if !pte.presence then (false, M)
    else
      (true,
        { M with mem := writeEntry M.mem entry { pte with presence := false } })

end Iposix.Vm
