import Iposix.Elf.ElfLoader
import Iposix.Fs.NodeOperations

/-!
# The node the loader reads from

`load_elf` is given the name of a file. It opens the node and closes it again
behind the loop over the program headers, before it looks at what has failed.
Between the open and the loop there is one way out more.
-/

namespace Iposix.Elf

open Iposix.Lib
open Iposix.Vm
open Iposix.Fs

/-- `load_elf`, with the nodes. Every node has a file that reading it
delivers. -/
def loadElfFile (mm : PageManager) (scratch : Scratch) (files : Nat → FileRead)
    (sub : Subnodes) (fileName : Path) (curProcess : Option ProcessType)
    (M : Machine) (s : Vfs) :
    Outcome × Option ProcessType × Machine × Vfs :=
  match curProcess with
  | none => (.failed, none, M, s)
  | some process =>
      match s.openNode sub fileName with
      | (s, none) => (.failed, some process, M, s)
      | (s, some node) =>
          let file := files node
          let elfHeader := elfHeader scratch file
          if !elfHeader.isElf then (.failed, some process, M, s)
          else
            let (_, M) :=
              resetAddressSpace mm M (some process.ptable) process.ptable
            let process := { process with heapTop := 0 }
            match loadSegments mm scratch file elfHeader.ePhnum 0
              elfHeader.ePhoff true process M with
            | (none, process, M) => (.died, some process, M, s)
            | (some success, process, M) =>
                let s := s.closeNode node
                if !success then (.failed, some process, M, s)
                else
                  let (success, M) := allocateStack mm process M
                  if !success then (.failed, some process, M, s)
                  else
                    (.jumpIn INITIAL_STACK_POINTER elfHeader.eEntry,
                      some process, M, s)

end Iposix.Elf
