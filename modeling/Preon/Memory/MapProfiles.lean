import Preon.Cpu.Online
import Preon.Memory.MapCalls

/-!
# `map` in both builds

`pa_to_linear_va` adds without a check in the release build.  For a frame at or above `2 ^ 47` the
sum wraps to a low address, and `map` goes on in whatever is mapped there.  Below that bound both
builds compute the same tables.
-/

namespace Preon.Memory

open Framework TableMemory

namespace TableMemory

section Agree

variable {profile : Cpu.Profile} {st st' : TableMemory} {root va : ℕ} {place : ℕ → Option (ℕ × ℕ)}

end Agree

end TableMemory

/-! ## Histories of either build -/

variable {profile : Cpu.Profile} {tables : ℕ → ℕ → ℕ} {root va pa : ℕ} {frames : List ℕ}
  {target : Level} {attrs : LeafAttrs} {st' : TableMemory}

end Preon.Memory
