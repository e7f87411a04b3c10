import SubleqEmu.RingBuffer

/-!
# Deferred writes to device words

`dawn_io_write` puts writes in a ring, which `dawn_io_flush` on another CPU takes
to the device words once Dawn has cleared them.  A step is one access to the ring
or to a device word by one side, or Dawn clearing a word.  Each side reads the
index it alone advances along with the access that needs it.
-/

namespace SubleqEmu
namespace IoStack

abbrev Word := BitVec 64

/-- An `io_stack_t`. -/
structure Entry where
  ioLoc : Word
  value : Word
  deriving DecidableEq, Repr

def ioStackMax : ℕ := 4096

/-- Where `dawn_io_write` is, with its arguments. -/
inductive WritePoint
  | idle
  /-- before the head is read and compared with the next tail -/
  | test (e : Entry)
  | storeLoc (e : Entry)
  | storeValue (e : Entry)
  | storeTail (e : Entry)
  | panicked (e : Entry)
  deriving DecidableEq, Repr

/-- Where `dawn_io_flush` is, with what it has read from the slot at the head. -/
inductive FlushPoint
  | idle
  /-- before the tail is read and compared with the head -/
  | test
  | loadLoc
  | readram (ioLoc : Word)
  | loadLocAgain
  | loadValue (ioLoc : Word)
  | writeram (ioLoc value : Word)
  | storeHead
  deriving DecidableEq, Repr

structure State where
  ring : Ring Entry ioStackMax
  writer : WritePoint
  flusher : FlushPoint
  device : Word → Word
  /-- the arguments of the calls so far -/
  passed : List Entry
  /-- what was written to device words so far -/
  flushed : List Entry

def State.initial (slots : ℕ → Entry) (device : Word → Word) : State where
  ring := Ring.empty slots (by decide)
  writer := .idle
  flusher := .idle
  device := device
  passed := []
  flushed := []

/-- One access of `dawn_io_write`. -/
def State.writerStep (s : State) : State :=
  match s.writer with
  | .idle => s
  | .test e => { s with writer := if s.ring.isFull then .panicked e else .storeLoc e }
  | .storeLoc e =>
      { s with
        ring := s.ring.store { s.ring.slots s.ring.tail with ioLoc := e.ioLoc }
        writer := .storeValue e }
  | .storeValue e =>
      { s with
        ring := s.ring.store { s.ring.slots s.ring.tail with value := e.value }
        writer := .storeTail e }
  | .storeTail _ => { s with ring := s.ring.advanceTail, writer := .idle }
  | .panicked _ => s

/-- One access of `dawn_io_flush`. -/
def State.flusherStep (s : State) : State :=
  match s.flusher with
  | .idle => s
  | .test => { s with flusher := if s.ring.isEmpty then .idle else .loadLoc }
  | .loadLoc => { s with flusher := .readram s.ring.front.ioLoc }
  | .readram ioLoc =>
      { s with flusher := if s.device ioLoc = 0 then .loadLocAgain else .idle }
  | .loadLocAgain => { s with flusher := .loadValue s.ring.front.ioLoc }
  | .loadValue ioLoc => { s with flusher := .writeram ioLoc s.ring.front.value }
  | .writeram ioLoc value =>
      { s with
        device := Function.update s.device ioLoc value
        flushed := s.flushed ++ [⟨ioLoc, value⟩]
        flusher := .storeHead }
  | .storeHead => { s with ring := s.ring.pop, flusher := .test }

inductive Event
  /-- a call of `dawn_io_write`, if none is going on -/
  | write (e : Entry)
  /-- a call of `dawn_io_flush`, if none is going on -/
  | flush
  | writer
  | flusher
  | clear (ioLoc : Word)
  deriving DecidableEq, Repr

def State.step (s : State) : Event → State
  | .write e =>
      if s.writer = .idle then { s with writer := .test e, passed := s.passed ++ [e] } else s
  | .flush => if s.flusher = .idle then { s with flusher := .test } else s
  | .writer => s.writerStep
  | .flusher => s.flusherStep
  | .clear ioLoc => { s with device := Function.update s.device ioLoc 0 }

def State.run (s : State) (events : List Event) : State := events.foldl State.step s

end IoStack
end SubleqEmu
