import Iposix.Mm.Splitted
import Iposix.Vm.VirtualMm

/-!
# The page manager the kernel has

`splitted<4096>` as the page manager of the virtual memory: its state follows
from the state at the beginning and the pages asked for and given back since.
-/

namespace Iposix.Vm

open Iposix.Mm (Splitted)

/-- The manager after what has been logged. -/
def after (s₀ : Splitted) : List Event → Splitted
  | [] => s₀
  | .alloc kernel _ :: log =>
      match (after s₀ log).malloc PAGE_SIZE kernel kernel with
      | some (_, s) => s
      | none => after s₀ log
  | .free page _ :: log => ((after s₀ log).free page false).2
  | .copy _ _ _ :: log => after s₀ log

def splittedManager (s₀ : Splitted) : PageManager where
  malloc M kernel :=
    match (after s₀ M.log).malloc PAGE_SIZE kernel kernel with
    | some (page, _) => page
    | none => 0
  free M page := ((after s₀ M.log).free page false).1

end Iposix.Vm
