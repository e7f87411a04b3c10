import Mathlib.Data.List.Basic

/-!
# The keyboard

`keyboard_handler`: what a byte from the keyboard does to the modifiers, whether
it hands the pointer over to the keypad, and what it has written to Dawn's
device words.
-/

namespace SubleqEmu
namespace Keyboard

abbrev Word := BitVec 64

def maxCode : ℕ := 0x57

def dawnMouseClickL : Word := 335542176
def dawnMouseClickR : Word := 335542184
def dawnMouseClickM : Word := 335542192
def dawnMouseRelX : Word := 335542200
def dawnMouseRelY : Word := 335542208
def dawnKeyboardBase : Word := 335542256

/-- A write to a device word: queued by `dawn_io_write`, or made at once. -/
inductive Write
  | io (loc value : Word)
  | ram (loc value : Word)
  deriving DecidableEq

/-- The statics of `keyboard.c`. -/
structure Modifiers where
  capslockActive : Bool
  shiftActive : Bool
  ctrlActive : Bool
  extraScancodes : Bool
  deriving DecidableEq

structure Result where
  modifiers : Modifiers
  /-- whether `hw_mouse_enabled` is cleared -/
  disablesMouse : Bool
  writes : List Write
  deriving DecidableEq

def asciiTable (text : String) : List (BitVec 8) :=
  text.toList.map fun char => BitVec.ofNat 8 char.toNat

def asciiCapslock : List (BitVec 8) := asciiTable
  "\x00\x1b1234567890-=\x08\tQWERTYUIOP[]\n\x00ASDFGHJKL;'\x60\x00\\ZXCVBNM,./\x00\x00\x00 "

def asciiShift : List (BitVec 8) := asciiTable
  "\x00\x1b!@#$%^&*()_+\x08\tQWERTYUIOP\x7b\x7d\n\x00ASDFGHJKL:\"~\x00|ZXCVBNM<>?\x00\x00\x00 "

def asciiShiftCapslock : List (BitVec 8) := asciiTable
  "\x00\x1b!@#$%^&*()_+\x08\tqwertyuiop\x7b\x7d\n\x00asdfghjkl:\"~\x00|zxcvbnm<>?\x00\x00\x00 "

def asciiNomod : List (BitVec 8) := asciiTable
  "\x00\x1b1234567890-=\x08\tqwertyuiop[]\n\x00asdfghjkl;'\x60\x00\\zxcvbnm,./\x00\x00\x00 "

/-- The byte at `index` of a table; past its end, of what lies behind it. -/
def readTable (beyond : List (BitVec 8) → ℕ → BitVec 8) (table : List (BitVec 8))
    (index : ℕ) : BitVec 8 :=
  table.getD index (beyond table index)

def sendChar (value : Word) : List Write := [.io dawnKeyboardBase value]

/-- After the prefix `0xe0`. -/
def extraScancode (m : Modifiers) (inputByte : BitVec 8) : Result :=
  let send (value : Word) : Result := ⟨m, false, sendChar value⟩
  match inputByte with
  | 0x48 => if m.shiftActive then send 18 else send 14
  | 0x4B => if m.shiftActive then send 19 else if m.ctrlActive then send 4 else send 15
  | 0x50 => if m.shiftActive then send 20 else send 16
  | 0x4D => if m.shiftActive then send 21 else if m.ctrlActive then send 7 else send 17
  | 0x49 => send 9
  | 0x51 => send 10
  | 0x53 => send 29
  | 0x1D => ⟨{ m with ctrlActive := true }, false, []⟩
  | 0x9D => ⟨{ m with ctrlActive := false }, false, []⟩
  | _ => ⟨m, false, []⟩

/-- The keypad moves Dawn's pointer. -/
def keypadWrite (inputByte : BitVec 8) : Option Write :=
  match inputByte with
  | 0x4b => some (.io dawnMouseRelX (-0x3000000))
  | 0x4d => some (.io dawnMouseRelX 0x3000000)
  | 0x48 => some (.io dawnMouseRelY (-0x3000000))
  | 0x50 => some (.io dawnMouseRelY 0x3000000)
  | 0x47 => some (.ram dawnMouseClickL 0x100000000)
  | 0xc7 => some (.ram dawnMouseClickL 0)
  | 0x49 => some (.ram dawnMouseClickR 0x100000000)
  | 0xc9 => some (.ram dawnMouseClickR 0)
  | 0x4c => some (.ram dawnMouseClickM 0x100000000)
  | 0xcc => some (.ram dawnMouseClickM 0)
  | _ => none

def modifierKey (m : Modifiers) (inputByte : BitVec 8) : Option Modifiers :=
  match inputByte with
  | 0x2A | 0x36 => some { m with shiftActive := true }
  | 0xAA | 0xB6 => some { m with shiftActive := false }
  | 0x1D => some { m with ctrlActive := true }
  | 0x9D => some { m with ctrlActive := false }
  | 0x3A => some { m with capslockActive := !m.capslockActive }
  | _ => none

def charWrites (m : Modifiers) (c : BitVec 8) : List Write :=
  if (c = 0x76 ∨ c = 0x56) ∧ m.ctrlActive then sendChar 22
  else if (c = 0x78 ∨ c = 0x58) ∧ m.ctrlActive then sendChar 23
  else if (c = 0x63 ∨ c = 0x43) ∧ m.ctrlActive then sendChar 25
  else if c = 0x0a then sendChar 13
  else if c = 0x1b then sendChar 27
  else sendChar (c.setWidth 64)

def Modifiers.table (m : Modifiers) : List (BitVec 8) :=
  if !m.capslockActive && !m.shiftActive then asciiNomod
  else if !m.capslockActive && m.shiftActive then asciiShift
  else if m.capslockActive && m.shiftActive then asciiShiftCapslock
  else asciiCapslock

def keyboardHandler (beyond : List (BitVec 8) → ℕ → BitVec 8) (m : Modifiers)
    (inputByte : BitVec 8) : Result :=
  if inputByte = 0xe0 then ⟨{ m with extraScancodes := true }, false, []⟩
  else if m.extraScancodes then extraScancode { m with extraScancodes := false } inputByte
  else
    match keypadWrite inputByte with
    | some write => ⟨m, true, [write]⟩
    | none =>
        match modifierKey m inputByte with
        | some m => ⟨m, false, []⟩
        | none =>
            if inputByte.toNat < maxCode then
              ⟨m, false, charWrites m (readTable beyond m.table inputByte.toNat)⟩
            else ⟨m, false, []⟩

end Keyboard
end SubleqEmu
