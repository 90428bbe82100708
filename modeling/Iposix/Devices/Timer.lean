import Iposix.Lib.Word

/-!
# The timer interrupt

`timer_interrupt_handler` counts the ticks and asks the scheduler for a context
switch whenever the count has no bit in common with the number that the strategy
returns for it. That number is a parameter.

The handler's own number, since boot, and the numbers of those that asked for a
switch are kept beside the counter; the program does not see them.
-/

namespace Iposix.Devices

open Iposix.Lib

/-- `timer::ticks`, and what was asked for. -/
structure Timer where
  ticks : Nat
  interrupts : Nat
  requests : List Nat
  deriving DecidableEq

namespace Timer

def boot : Timer := ⟨0, 0, []⟩

/-- `timer_interrupt_handler` -/
def timerInterruptHandler (ticksBetweenReschedulings : Nat) (t : Timer) :
    Timer :=
  let ticks := u64 (t.ticks + 1)
  { ticks := ticks
    interrupts := t.interrupts + 1
    requests :=
      if ticks &&& ticksBetweenReschedulings = 0 then
        t.requests ++ [t.interrupts + 1]
      else t.requests }

/-- The timer after so many interrupts. -/
def after (ticksBetweenReschedulings : Nat) : Nat → Timer
  | 0 => boot
  | n + 1 =>
      timerInterruptHandler ticksBetweenReschedulings
        (after ticksBetweenReschedulings n)

end Timer

end Iposix.Devices
