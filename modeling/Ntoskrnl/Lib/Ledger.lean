/-
# Ntoskrnl.Lib.Ledger -- what a trace has opened and not yet closed

A trace of events in which some events open an item and some close one. The
ledger balances when the items opened are, counted with repetition, the items
closed together with those still held. One step of the traced machine appends
its events and changes what is held; if the step settles its own account, the
whole ledger keeps balancing.
-/
import Mathlib.Data.List.Perm.Basic
import Mathlib.Data.List.Count

namespace Ntoskrnl.Lib.Ledger

open List

set_option autoImplicit false

section Ledger

variable {ε κ : Type} (opens closes : ε → Option κ)

/-- Everything the trace opened has been closed or is held. -/
def Balanced (trace : List ε) (held : List κ) : Prop :=
  (trace.filterMap opens).Perm (trace.filterMap closes ++ held)

/-- The events of one step account for the change of what is held. -/
def Settles (events : List ε) (held held' : List κ) : Prop :=
  (held ++ events.filterMap opens).Perm (events.filterMap closes ++ held')

variable {opens closes}

theorem balanced_nil : Balanced opens closes [] [] := .refl _

variable {events events' trace : List ε} {held held' : List κ}

theorem Balanced.append (balanced : Balanced opens closes trace held)
    (settles : Settles opens closes events held held') :
    Balanced opens closes (trace ++ events) held' := by
  unfold Balanced
  rw [filterMap_append, filterMap_append, append_assoc]
  refine (balanced.append_right _).trans ?_
  rw [append_assoc]
  exact settles.append_left _

/-- Events that open and close nothing settle any account. -/
theorem settles_of_silent (held : List κ) (noneOpened : events.filterMap opens = [])
    (noneClosed : events.filterMap closes = []) : Settles opens closes events held held := by
  unfold Settles
  rw [noneOpened, noneClosed, append_nil, nil_append]

theorem settles_nil (perm : held.Perm held') : Settles opens closes [] held held' := by
  unfold Settles
  rwa [filterMap_nil, append_nil]

/-- What a step does not touch stays beside. -/
theorem Settles.beside (settles : Settles opens closes events held held') (others : List κ) :
    Settles opens closes events (held ++ others) (held' ++ others) := by
  unfold Settles
  rw [append_assoc, ← append_assoc (events.filterMap closes)]
  refine (perm_append_comm.append_left held).trans ?_
  rw [← append_assoc]
  exact .append_right others settles

/-- Steps taken one after the other settle the account together. -/
theorem Settles.append {held'' : List κ} (first : Settles opens closes events held held')
    (second : Settles opens closes events' held' held'') :
    Settles opens closes (events ++ events') held held'' := by
  unfold Settles
  rw [filterMap_append, filterMap_append, ← append_assoc]
  refine (first.append_right _).trans ?_
  rw [append_assoc, append_assoc]
  exact second.append_left _

/-- The order of the events of one step does not matter. -/
theorem Settles.of_perm (perm : events.Perm events')
    (settles : Settles opens closes events' held held') :
    Settles opens closes events held held' := by
  refine ((perm.filterMap opens).append_left held).trans (settles.trans ?_)
  exact ((perm.filterMap closes).symm).append_right held'

variable [DecidableEq κ]

/-- In a balanced ledger an item was opened as often as it was closed and is
held. -/
theorem Balanced.count (balanced : Balanced opens closes trace held) (item : κ) :
    (trace.filterMap opens).count item = (trace.filterMap closes).count item + held.count item := by
  rw [balanced.count_eq item, count_append]

end Ledger

end Ntoskrnl.Lib.Ledger
