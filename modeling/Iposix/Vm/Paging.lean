import Iposix.Lib.LittleEndian
import Iposix.Lib.Word

/-!
# Page tables

A page table and a page directory are both 1024 words in physical memory, and
an entry of either is a word with the same layout. The kernel sets its fields
one by one; the model reads the word, changes the fields and writes it back.

The kernel's code in this part runs with paging switched off, so every pointer
in it is a physical address. A machine is the physical memory and, newest
first, what the page manager was asked for and what was copied into pages. The
page manager itself is a parameter that answers from this history; its own
bookkeeping lies in memory it hands out to nobody.
-/

namespace Iposix.Vm

open Iposix.Lib

/-- `page_table_entry` and `page_dir_entry`. Bits 6 and 7 are called
`available` and `page_size` in a directory, `dirty` and
`page_table_attribute_index` in a table. -/
structure Entry where
  presence : Bool
  write : Bool
  userSupervisor : Bool
  writeThrough : Bool
  cacheDisable : Bool
  access : Bool
  dirty : Bool
  pageSize : Bool
  global : Bool
  directMapped : Bool
  avail : Fin 4
  pageFrameAddress : Fin 1048576
  deriving DecidableEq

namespace Entry

/-- `flat` -/
def flat (e : Entry) : Nat :=
  e.presence.toNat + 2 * e.write.toNat + 4 * e.userSupervisor.toNat +
    8 * e.writeThrough.toNat + 16 * e.cacheDisable.toNat +
    32 * e.access.toNat + 64 * e.dirty.toNat + 128 * e.pageSize.toNat +
    256 * e.global.toNat + 512 * e.directMapped.toNat + 1024 * e.avail +
    4096 * e.pageFrameAddress

instance neZeroFrames : NeZero 1048576 := ⟨by decide⟩

/-- What assigning `flat` makes of the fields. -/
def ofFlat (w : Nat) : Entry where
  presence := w % 2 == 1
  write := w / 2 % 2 == 1
  userSupervisor := w / 4 % 2 == 1
  writeThrough := w / 8 % 2 == 1
  cacheDisable := w / 16 % 2 == 1
  access := w / 32 % 2 == 1
  dirty := w / 64 % 2 == 1
  pageSize := w / 128 % 2 == 1
  global := w / 256 % 2 == 1
  directMapped := w / 512 % 2 == 1
  avail := Fin.ofNat 4 (w / 1024)
  pageFrameAddress := Fin.ofNat 1048576 (w / 4096)

/-- `address()` -/
def address (e : Entry) : Nat := 4096 * e.pageFrameAddress

theorem flat_lt (e : Entry) : e.flat < 4294967296 := by
  have hbits : ∀ b : Bool, b.toNat ≤ 1 := Bool.toNat_le
  have h₁ := hbits e.presence
  have h₂ := hbits e.write
  have h₃ := hbits e.userSupervisor
  have h₄ := hbits e.writeThrough
  have h₅ := hbits e.cacheDisable
  have h₆ := hbits e.access
  have h₇ := hbits e.dirty
  have h₈ := hbits e.pageSize
  have h₉ := hbits e.global
  have h₁₀ := hbits e.directMapped
  rw [flat]
  omega

/-- A flag is read back from its bit. -/
theorem beq_of_toNat {x : Nat} {b : Bool} (h : x = b.toNat) :
    (x == 1) = b := by
  subst h
  cases b <;> rfl

@[simp] theorem ofFlat_flat (e : Entry) : ofFlat e.flat = e := by
  obtain ⟨p, w, u, wt, cd, ac, di, ps, gl, dm, av, fr⟩ := e
  have h₁ := p.toNat_le
  have h₂ := w.toNat_le
  have h₃ := u.toNat_le
  have h₄ := wt.toNat_le
  have h₅ := cd.toNat_le
  have h₆ := ac.toNat_le
  have h₇ := di.toNat_le
  have h₈ := ps.toNat_le
  have h₉ := gl.toNat_le
  have h₁₀ := dm.toNat_le
  simp only [flat, ofFlat, mk.injEq]
  refine ⟨?_, ?_, ?_, ?_, ?_, ?_, ?_, ?_, ?_, ?_, ?_, ?_⟩
  iterate 10 exact beq_of_toNat (by omega)
  · refine Fin.ext ?_
    simp only [Fin.val_ofNat]
    omega
  · refine Fin.ext ?_
    simp only [Fin.val_ofNat]
    omega

end Entry

/-! ## Entries in memory -/

def readEntry (m : Nat → UInt8) (a : Nat) : Entry := .ofFlat (load 4 m a)

def writeEntry (m : Nat → UInt8) (a : Nat) (e : Entry) : Nat → UInt8 :=
  store 4 m a e.flat

@[simp] theorem readEntry_writeEntry (m : Nat → UInt8) (a : Nat) (e : Entry) :
    readEntry (writeEntry m a e) a = e := by
  have hmod : e.flat % 256 ^ 4 = e.flat := Nat.mod_eq_of_lt e.flat_lt
  rw [readEntry, writeEntry, load_store, hmod, Entry.ofFlat_flat]

theorem readEntry_writeEntry_of_disjoint {m : Nat → UInt8} {a b : Nat}
    {e : Entry} (h : a + 4 ≤ b ∨ b + 4 ≤ a) :
    readEntry (writeEntry m b e) a = readEntry m a := by
  rw [readEntry, writeEntry, load_store_of_disjoint h, readEntry]

/-! ## Virtual addresses

The three fields of `virtual_address`; `++` on one of them wraps. -/

def offset (v : Nat) : Nat := v % 4096

def page (v : Nat) : Nat := v / 4096 % 1024

def dir (v : Nat) : Nat := v / 4194304 % 1024

/-- The address with these fields. -/
def normal (dir page offset : Nat) : Nat :=
  4194304 * dir + 4096 * page + offset

/-- The start of the page behind the one of `v`: `++page`, and `++dir` when
that wraps. There is none behind the last one. -/
def nextPage (v : Nat) : Option Nat :=
  let page' := (page v + 1) % 1024
  if page' = 0 then
    let dir' := (dir v + 1) % 1024
    if dir' = 0 then none else some (normal dir' 0 0)
  else some (normal (dir v) page' 0)

/-! ## The machine -/

/-- What has happened to pages: one was asked for (zero if there was none), one
was given back, bytes were copied to the memory behind a virtual address. The
kernel keeps no such record. -/
inductive Event where
  | alloc (kernel : Bool) (page : Nat)
  | free (page : Nat) (done : Bool)
  | copy (vaddr paddr size : Nat)
  deriving DecidableEq

structure Machine where
  mem : Nat → UInt8
  log : List Event

/-- The physical memory manager as this code sees it: it hands out pages, with
zero for none, and takes them back. -/
structure PageManager where
  malloc : Machine → (kernel : Bool) → Nat
  free : Machine → (page : Nat) → Bool

namespace PageManager

/-- `mem.malloc( page_size, kernel, kernel )` -/
def alloc (mm : PageManager) (M : Machine) (kernel : Bool) : Nat × Machine :=
  (mm.malloc M kernel,
    { M with log := .alloc kernel (mm.malloc M kernel) :: M.log })

/-- `mem.free( page, false )` -/
def release (mm : PageManager) (M : Machine) (page : Nat) : Bool × Machine :=
  (mm.free M page, { M with log := .free page (mm.free M page) :: M.log })

end PageManager

/-- `create_page_table`: its constructors make every entry zero.
`create_page_directory_table` is the same. -/
def createPageTable (mm : PageManager) (M : Machine) : Nat × Machine :=
  let (mem, M) := mm.alloc M true
  if mem = 0 then (0, M)
  else (mem, { M with mem := splice M.mem mem 4096 fun _ => 0 })

end Iposix.Vm
