import SubleqEmu.CopyLoopModel
import SubleqEmu.TranslatorModel

/-!
# Blocks

The instructions of a block one after the other, as `translate` emits them, and the
stubs through which it is left.
-/

namespace SubleqEmu
namespace Translator

open ByteMemory Subleq Emitter Machine
open CopyLoop (insnAt)

/-- The cache that a block starts with; its clocks go on. -/
def Cache.start (useMovbe : Bool) (lruClock constNext aliasNext : BitVec 32) : Cache where
  useMovbe := useMovbe
  pend := none
  flagsLive := false
  regs := fun _ => ⟨none, false, 0⟩
  lruClock := lruClock
  consts := fun _ => none
  constNext := constNext
  aliases := fun _ => none
  aliasNext := aliasNext

/-- From the `i`-th instruction on; how many there are then, and whether the last one
ends the block. -/
def translateInsns (src : Source) (start : Word) (i : ℕ) : ℕ → T (ℕ × Bool)
  | 0 => return (i, false)
  | k + 1 => do
      let ended ← translateInsn src i (insnAt start i)
      if ended then return (i + 1, true)
      else translateInsns src start (i + 1) k

/-- The instructions of a block, and the jump to the one after them. -/
def translateBody (src : Source) (start : Word) (n : ℕ) : T ℕ := do
  let r ← translateInsns src start 0 n
  onlyIf (!r.2) do
    let pend ← snapPending
    emit (.jmp ⟨false, r.1 - 1, insnAt start r.1, none, pend⟩)
  return r.1

/-- The stub of an exit: the store held back, and where the program goes on. -/
def leave (maps : Maps) (useMovbe : Bool) (start : Word) (e : Exit) (M : State) :
    Option (State × Word) :=
  match e with
  | .smc s =>
      match exec (step maps) (stubStore useMovbe s.pend none) M with
      | .run M' => some (M', insnAt start s.idx)
      | _ => none
  | .stub s =>
      match exec (step maps) (stubStore useMovbe s.pend (if s.dyn then s.creg else none)) M with
      | .run M' =>
          if s.dyn then s.creg.map fun r => (M', M'.reg r)
          else some (M', s.target)
      | _ => none

end Translator
end SubleqEmu
