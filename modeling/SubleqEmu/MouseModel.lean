import Mathlib.Data.Int.Notation
import Mathlib.Data.Nat.Notation

/-!
# The mouse

`mouse.c` but for the cursor: packets put together from the bytes of the mouse,
the pointer they move, and the queue of button changes that `mouse_update` hands
to Dawn.
-/

namespace SubleqEmu
namespace Mouse

abbrev Word := BitVec 64

def dawnFixedOne : Word := 0x100000000
def maxPackets : ℕ := 1024

structure MousePacket where
  flags : BitVec 8
  xMov : BitVec 8
  yMov : BitVec 8
  deriving DecidableEq

structure DmousePacket where
  mouseX : Word
  mouseY : Word
  mouseClickL : Word
  mouseClickR : Word
  mouseClickM : Word
  deriving DecidableEq

/-- Which byte of a packet comes next. -/
inductive HandlerCycle
  | flags
  | xMov
  | yMov
  deriving DecidableEq

/-- The statics of `mouse.c`. -/
structure State where
  hwMouseEnabled : Bool
  mouseX : ℤ
  mouseY : ℤ
  lastPlottedMouseX : ℤ
  lastPlottedMouseY : ℤ
  /-- the `dawn_mouse_` variables -/
  dawn : DmousePacket
  packets : List DmousePacket
  handlerCycle : HandlerCycle
  currentPacket : MousePacket
  discardPacket : Bool
  deriving DecidableEq

def scalePosition (min max oldmin oldmax val : Word) : Word :=
  (oldmax - oldmin) * (val - min) / (max - min) + oldmin

/-- A 9-bit movement, its sign bit in the flags. -/
def movement (mov : BitVec 8) (negative : Bool) : ℤ :=
  if negative then mov.toNat - 256 else mov.toNat

def moveBy (position delta size : ℤ) : ℤ :=
  if position + delta < 0 then 0
  else if position + delta ≥ size then size - 1
  else position + delta

def click (pressed : Bool) : Word :=
  if pressed then dawnFixedOne else 0

def processPacket (width height : ℕ) (s : State) (p : MousePacket) :
    DmousePacket × State :=
  let mouseX := moveBy s.mouseX (movement p.xMov (p.flags.getLsbD 4)) width
  let mouseY := moveBy s.mouseY (-movement p.yMov (p.flags.getLsbD 5)) height
  ({ mouseX := scalePosition 0 (BitVec.ofNat 64 width) 0 dawnFixedOne (BitVec.ofInt 64 mouseX)
     mouseY := scalePosition 0 (BitVec.ofNat 64 height) 0 dawnFixedOne (BitVec.ofInt 64 mouseY)
     mouseClickL := click (p.flags.getLsbD 0)
     mouseClickR := click (p.flags.getLsbD 1)
     mouseClickM := click (p.flags.getLsbD 2) },
   { s with mouseX := mouseX, mouseY := mouseY })

/-- Whether the buttons are as the last packet queued, or else the last one
taken, has them. -/
def isLocationInfo (s : State) (p : MousePacket) : Bool :=
  let last := s.packets.getLastD s.dawn
  p.flags.getLsbD 0 == decide (last.mouseClickL ≠ 0) &&
    p.flags.getLsbD 1 == decide (last.mouseClickR ≠ 0) &&
    p.flags.getLsbD 2 == decide (last.mouseClickM ≠ 0)

/-- The end of `mouse_handler`; `none` is the panic. -/
def queuePacket (s : State) (p : MousePacket) (dp : DmousePacket) : Option State :=
  if isLocationInfo s p then some { s with dawn := dp }
  else if s.packets.length = maxPackets then none
  else some { s with packets := s.packets ++ [dp] }

/-- `mouse_update` once Dawn has cleared its registers, with what it writes. -/
def mouseUpdate (s : State) : Option DmousePacket × State :=
  if s.hwMouseEnabled then
    match s.packets with
    | [] => (some s.dawn, s)
    | dp :: rest => (some dp, { s with dawn := dp, packets := rest })
  else (none, s)

end Mouse
end SubleqEmu
