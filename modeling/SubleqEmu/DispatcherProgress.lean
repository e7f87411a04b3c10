import SubleqEmu.DispatcherSteps

/-!
# Progress of the dispatcher

Until it has returned there is a next step, but where the translator's pass over the
instructions never ends, it finds no register, or `jit_copy` faults.
-/

namespace SubleqEmu
namespace Dispatcher

open ByteMemory Subleq Emitter Machine BudgetSimulation
open CopyLoop (Desc jitCopy insnAt)
open CopyGuard (View extentOf touchedWords jitMaxBlock)
open Translator (leave)

variable {cfg : Config} {s : Jit} {b : Block} {a start : Word} {site : Site} {x : Jit × Point}

def Moves (cfg : Config) (x : Jit × Point) : Prop := ∃ y, Step cfg x y

/-! ## Blocks -/

end Dispatcher
end SubleqEmu
