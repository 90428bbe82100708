import Iposix.Fs.Filehandle
import Iposix.Vm.VirtualMm

/-!
# The program break

`sbrk` sends its signed increment in an unsigned field. The handler first uses
up the page the break is in and then maps whole pages from the next page on; a
request that needs both is rewritten in place to what is left of it.

The current process is the one whose break is moved, and the one whose memory
`kfree` frees. Addresses are `uintptr_t`.
-/

namespace Iposix.Vm

open Iposix.Lib
open Iposix.Fs (ErrorType)

/-- `sbrk_data_t` -/
structure SbrkData where
  incr : Nat
  addr : Nat
  deriving DecidableEq

/-- What the call uses of `process_type`. -/
structure ProcessType where
  ptable : Nat
  heapTop : Nat
  heapMax : Nat
  deriving DecidableEq

/-! ## The `sbrk_call` of the dispatcher -/

/-- The page the break is in has room for it all. -/
def sbrkAvail (proc : ProcessType) (M : Machine) (data : SbrkData) :
    ErrorType × SbrkData × ProcessType × Machine :=
  let heapTop := u32 (proc.heapTop + data.incr : Nat)
  let error : ErrorType :=
    if (proc.heapMax ≠ 0 ∧ heapTop > proc.heapMax) ∨ heapTop < proc.heapTop then
      .eNoMem
    else .none
  (error, { data with addr := proc.heapTop },
    { proc with heapTop := heapTop }, M)

/-- New pages from `heapTop` on, for the increment that is left. -/
def sbrkPages (mm : PageManager) (proc : ProcessType) (M : Machine)
    (data : SbrkData) (heapTop : Nat) :
    ErrorType × SbrkData × ProcessType × Machine :=
  let mod := data.incr % PAGE_SIZE
  let mod := if mod = 0 then PAGE_SIZE else mod
  let (vaddr, M) :=
    vmalloc mm M (u32 (data.incr + PAGE_SIZE - mod : Nat)) proc.ptable heapTop
  let error : ErrorType := if vaddr = 0 then .eNoMem else .none
  let vaddr := if vaddr = 0 then 4294967295 else vaddr
  (error, { data with addr := vaddr },
    { proc with heapTop := u32 (proc.heapTop + data.incr : Nat) }, M)

/-- The loop that frees pages: where it ends and what is left to take away.
Every turn but the first takes a whole page, so `turns` is no bound on it. -/
def sbrkFree (mm : PageManager) (ptable : Nat) :
    (turns heapTop decr mod : Nat) → Machine → Nat × Nat × Machine
  | 0, heapTop, decr, _, M => (heapTop, decr, M)
  | turns + 1, heapTop, decr, mod, M =>
      let heapTop := u32 (heapTop - mod)
      let decr := u32 (decr - mod)
      let (_, M) := virtualFree mm M (some ptable) heapTop
      let mod := if decr > 4096 then 4096 else decr
      if mod = 4096 then sbrkFree mm ptable turns heapTop decr mod M
      else (heapTop, decr, M)

/-- The branch of an increment that is not positive. -/
def sbrkShrink (mm : PageManager) (proc : ProcessType) (M : Machine)
    (data : SbrkData) (mod : Nat) :
    ErrorType × SbrkData × ProcessType × Machine :=
  let decr := u32 (-data.incr)
  let data := { data with addr := 0 }
  if decr < mod then
    (.none, data, { proc with heapTop := u32 (proc.heapTop - decr) }, M)
  else
    let (heapTop, decr, M) :=
      sbrkFree mm proc.ptable (decr / PAGE_SIZE + 1) proc.heapTop decr mod M
    (.none, data, { proc with heapTop := u32 (heapTop - decr) }, M)

/-- `sbrk_call` -/
def sbrkCall (mm : PageManager) (proc : ProcessType) (M : Machine)
    (data : SbrkData) : ErrorType × SbrkData × ProcessType × Machine :=
  if proc.heapTop = 0 then (.eNoMem, data, proc, M)
  else
    let mod := proc.heapTop % PAGE_SIZE
    if data.incr > 0 then
      if mod ≠ 0 then
        let avail := PAGE_SIZE - mod
        if avail ≥ data.incr then sbrkAvail proc M data
        else
          sbrkPages mm proc M { data with incr := data.incr - avail }
            (u32 (proc.heapTop + avail : Nat))
      else sbrkPages mm proc M data proc.heapTop
    else sbrkShrink mm proc M data mod

/-! ## The user-level call -/

/-- `sbrk`: what it returns, and the error in the message, which it does not
look at. -/
def sbrk (mm : PageManager) (proc : ProcessType) (M : Machine) (incr : Int) :
    Nat × ErrorType × ProcessType × Machine :=
  let (error, data, proc, M) := sbrkCall mm proc M ⟨u32 incr, 0⟩
  (data.addr, error, proc, M)

end Iposix.Vm
