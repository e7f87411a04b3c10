import SubleqEmu.KeyboardModel
import SubleqEmu.MouseModel
import Mathlib.Algebra.Group.Int.Defs
import Mathlib.Algebra.Group.Nat.Defs
import Mathlib.Data.List.ProdSigma
import Mathlib.Logic.Function.Basic

/-!
# The screen

The framebuffer and the two antibuffers of `graphics.c`, and the interrupt
handlers that draw: `dawn_redraw_screen` copies what differs between Dawn's last
two frames, and `put_mouse_cursor` plots the cursor over them.
-/

namespace SubleqEmu
namespace Screen

open Mouse

abbrev Pixel := BitVec 32

/-- The dimensions; `mouse_init` divides by the first two. -/
structure Dimensions where
  width : ℕ
  height : ℕ
  /-- bytes from one row to the next -/
  pitch : ℕ
  width_pos : 0 < width
  height_pos : 0 < height
  width_le : 4 * width ≤ pitch
  height_lt : height < 2 ^ 31
  pitch_lt : pitch < 2 ^ 31

/-- `vbe_pitch / sizeof(uint32_t)` -/
def Dimensions.pitchPixels (d : Dimensions) : ℕ := d.pitch / 4

/-! ## Buffers -/

def toInt (i : ℤ) : ℤ := i.bmod (2 ^ 32)
def toSize (i : ℤ) : ℕ := (i % 2 ^ 64).toNat

abbrev Buffer := ℕ → Pixel

/-- The index of a pixel, computed as a `size_t`. -/
def index (d : Dimensions) (x y : ℤ) : ℕ := toSize (x + d.pitchPixels * y)

def plotPx (d : Dimensions) (framebuffer : Buffer) (x y : ℤ) (hex : Pixel) : Buffer :=
  if x ≥ d.width ∨ y ≥ d.height then framebuffer
  else Function.update framebuffer (index d x y) hex

def getAb0Px (d : Dimensions) (antibuffer0 : Buffer) (x y : ℤ) : Pixel :=
  if x ≥ d.width ∨ y ≥ d.height then 0
  else antibuffer0 (index d x y)

/-- `count` turns of the loop of `swap_vbufs`, from index `i`. -/
def swapFrom (antibuffer0 antibuffer1 : Buffer) : ℕ → ℕ → Buffer → Buffer
  | 0, _, framebuffer => framebuffer
  | count + 1, i, framebuffer =>
      swapFrom antibuffer0 antibuffer1 count (i + 1)
        (if antibuffer0 i = antibuffer1 i then framebuffer
         else Function.update framebuffer i (antibuffer0 i))

/-- The counter is decremented before it is tested. -/
def swapCount (d : Dimensions) : ℕ :=
  if d.pitchPixels * d.height = 0 then 2 ^ 64 else d.pitchPixels * d.height

def swapVbufs (d : Dimensions) (antibuffer0 antibuffer1 framebuffer : Buffer) : Buffer :=
  swapFrom antibuffer0 antibuffer1 (swapCount d) 0 framebuffer

/-- Bytes 0 and 2 exchanged. -/
def shuffle (p : Pixel) : Pixel :=
  (p.rotateLeft 8).extractLsb' 0 8 ++ (p.rotateLeft 8).extractLsb' 8 8 ++
    (p.rotateLeft 8).extractLsb' 16 8 ++ (p.rotateLeft 8).extractLsb' 24 8

/-- What all of the `screen_redraw` functions do. -/
def screenRedraw (dst src : Buffer) (width height dstPitch srcPitch : ℕ) : Buffer :=
  (List.range height).foldl (fun dst y => (List.range width).foldl (fun dst x =>
    Function.update dst (y * dstPitch % 2 ^ 32 + x)
      (shuffle (src (y * srcPitch % 2 ^ 32 + x)))) dst) dst

/-! ## The cursor -/

def X : ℤ := 0x00ffffff
def B : ℤ := 0x00000000
def o : ℤ := -1

def cursorBitmap : List ℤ :=
  [X, X, X, X, X, X, X, X, X, X, X, X, o, o, o, o,
   X, B, B, B, B, B, B, B, B, B, X, o, o, o, o, o,
   X, B, B, B, B, B, B, B, B, X, o, o, o, o, o, o,
   X, B, B, B, B, B, B, B, X, o, o, o, o, o, o, o,
   X, B, B, B, B, B, B, X, o, o, o, o, o, o, o, o,
   X, B, B, B, B, B, B, B, X, o, o, o, o, o, o, o,
   X, B, B, B, B, B, B, B, B, X, o, o, o, o, o, o,
   X, B, B, B, X, B, B, B, B, B, X, o, o, o, o, o,
   X, B, B, X, o, X, B, B, B, B, B, X, o, o, o, o,
   X, B, X, o, o, o, X, B, B, B, B, B, X, o, o, o,
   X, X, o, o, o, o, o, X, B, B, B, B, B, X, o, o,
   X, o, o, o, o, o, o, o, X, B, B, B, B, B, X, o,
   o, o, o, o, o, o, o, o, o, X, B, B, B, B, B, X,
   o, o, o, o, o, o, o, o, o, o, X, B, B, B, X, o,
   o, o, o, o, o, o, o, o, o, o, o, X, B, X, o, o,
   o, o, o, o, o, o, o, o, o, o, o, o, X, o, o, o]

def cursorPixel (x y : ℕ) : ℤ := cursorBitmap.getD (x * 16 + y) o

/-- The pixels of the cursor, in the order of the loops. -/
def cells : List (ℕ × ℕ) := (List.range 16).product (List.range 16)

/-- Puts back what is under a cursor at `(left, top)`. -/
def restoreUnder (d : Dimensions) (antibuffer0 : Buffer) (left top : ℤ)
    (framebuffer : Buffer) : Buffer :=
  cells.foldl (fun framebuffer cell =>
    plotPx d framebuffer (toInt (left + cell.1)) (toInt (top + cell.2))
      (getAb0Px d antibuffer0 (toInt (left + cell.1)) (toInt (top + cell.2)))) framebuffer

def drawCursor (d : Dimensions) (left top : ℤ) (framebuffer : Buffer) : Buffer :=
  cells.foldl (fun framebuffer cell =>
    if cursorPixel cell.1 cell.2 ≠ -1 then
      plotPx d framebuffer (toInt (left + cell.1)) (toInt (top + cell.2))
        (BitVec.ofInt 32 (cursorPixel cell.1 cell.2))
    else framebuffer) framebuffer

structure State where
  framebuffer : Buffer
  antibuffer0 : Buffer
  antibuffer1 : Buffer
  lastFrameCounter : Word
  mouse : Mouse.State
  modifiers : Keyboard.Modifiers

def putMouseCursor (d : Dimensions) (refresh : Bool) (s : State) : State :=
  if s.mouse.hwMouseEnabled then
    let under :=
      if refresh then s.framebuffer
      else restoreUnder d s.antibuffer0 s.mouse.lastPlottedMouseX s.mouse.lastPlottedMouseY
        s.framebuffer
    { s with
      framebuffer := drawCursor d s.mouse.mouseX s.mouse.mouseY under
      mouse := { s.mouse with
        lastPlottedMouseX := s.mouse.mouseX
        lastPlottedMouseY := s.mouse.mouseY } }
  else
    { s with
      framebuffer :=
        restoreUnder d s.antibuffer0 s.mouse.lastPlottedMouseX s.mouse.lastPlottedMouseY
          s.framebuffer }

/-! ## Handlers -/

/-- The last byte of a packet that is not discarded. -/
def acceptPacket (d : Dimensions) (s : State) (p : MousePacket) : Option State :=
  let enabled : State := { s with mouse := { s.mouse with hwMouseEnabled := true } }
  let (dp, mouse) := processPacket d.width d.height enabled.mouse p
  let drawn := putMouseCursor d false { enabled with mouse := mouse }
  (queuePacket drawn.mouse p dp).map fun mouse => { drawn with mouse := mouse }

/-- `mouse_handler` with the byte it reads; `none` is the panic. -/
def mouseHandler (d : Dimensions) (s : State) (byte : BitVec 8) : Option State :=
  let m := s.mouse
  match m.handlerCycle with
  | .flags =>
      some { s with mouse := { m with
        currentPacket := { m.currentPacket with flags := byte }
        handlerCycle := .xMov
        discardPacket := m.discardPacket || byte.getLsbD 6 || byte.getLsbD 7 ||
          !byte.getLsbD 3 } }
  | .xMov =>
      some { s with mouse := { m with
        currentPacket := { m.currentPacket with xMov := byte }
        handlerCycle := .yMov } }
  | .yMov =>
      let m := { m with
        currentPacket := { m.currentPacket with yMov := byte }
        handlerCycle := .flags }
      if m.discardPacket then some { s with mouse := { m with discardPacket := false } }
      else acceptPacket d { s with mouse := m } m.currentPacket

/-- `dawn_redraw_screen` with Dawn's frame counter and framebuffer. -/
def dawnRedrawScreen (d : Dimensions) (s : State) (frameCounter : Word) (frame : Buffer) :
    State :=
  if s.lastFrameCounter ≠ frameCounter then
    let antibuffer0 := screenRedraw s.antibuffer1 frame d.width d.height d.pitchPixels d.width
    putMouseCursor d true { s with
      lastFrameCounter := frameCounter
      antibuffer0 := antibuffer0
      antibuffer1 := s.antibuffer0
      framebuffer := swapVbufs d antibuffer0 s.antibuffer0 s.framebuffer }
  else s

def keyboardHandler (beyond : List (BitVec 8) → ℕ → BitVec 8) (s : State)
    (byte : BitVec 8) : State :=
  let result := Keyboard.keyboardHandler beyond s.modifiers byte
  { s with
    modifiers := result.modifiers
    mouse := { s.mouse with
      hwMouseEnabled := s.mouse.hwMouseEnabled && !result.disablesMouse } }

inductive Event
  | mouse (byte : BitVec 8)
  | key (byte : BitVec 8)
  | redraw (frameCounter : Word) (frame : Buffer)
  | mouseUpdate

/-- What a handler leaves; `none` if it panics. -/
def step (d : Dimensions) (beyond : List (BitVec 8) → ℕ → BitVec 8) (s : State) :
    Event → Option State
  | .mouse byte => mouseHandler d s byte
  | .key byte => some (keyboardHandler beyond s byte)
  | .redraw frameCounter frame => some (dawnRedrawScreen d s frameCounter frame)
  | .mouseUpdate => some { s with mouse := (mouseUpdate s.mouse).2 }

def run (d : Dimensions) (beyond : List (BitVec 8) → ℕ → BitVec 8) :
    State → List Event → Option State
  | s, [] => some s
  | s, event :: events => (step d beyond s event).bind fun s => run d beyond s events

/-- After `mouse_init`, with zeroed buffers. -/
def boot (d : Dimensions) : State where
  framebuffer := fun _ => 0
  antibuffer0 := fun _ => 0
  antibuffer1 := fun _ => 0
  lastFrameCounter := 0
  mouse :=
    { hwMouseEnabled := false
      mouseX := d.width / 2
      mouseY := d.height / 2
      lastPlottedMouseX := 0
      lastPlottedMouseY := 0
      dawn :=
        { mouseX := scalePosition 0 (BitVec.ofNat 64 d.width) 0 dawnFixedOne
            (BitVec.ofNat 64 (d.width / 2))
          mouseY := scalePosition 0 (BitVec.ofNat 64 d.height) 0 dawnFixedOne
            (BitVec.ofNat 64 (d.height / 2))
          mouseClickL := 0
          mouseClickR := 0
          mouseClickM := 0 }
      packets := []
      handlerCycle := .flags
      currentPacket := ⟨0, 0, 0⟩
      discardPacket := false }
  modifiers := ⟨false, false, false, false⟩

end Screen
end SubleqEmu
