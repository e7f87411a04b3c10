import Mathlib.Tactic

/-!
# The control banks of the CPUs

Each CPU but CPU 0 has a bank of two words in Dawn's memory, a status and an
eip.  `subleq` on such a CPU stores the status and the eip that it comes up with;
its loop polls the status, runs slices of guest instructions and saves the eip.
Dawn, on CPU 0, runs by then, and starts and stops the CPU through the same words.
A step is one access to a bank, one guest instruction, or the return from a slice.
-/

namespace SubleqEmu
namespace CpuControl

abbrev Word := BitVec 64

/-! ## The loop of a CPU -/

/-- Where a CPU is between two steps. -/
inductive Point
  /-- before its first store, of the status -/
  | arrive
  /-- before its second store, of the eip -/
  | clearEip
  /-- before the `switch` reads the status -/
  | poll
  /-- started, before it reads the eip -/
  | loadEip
  /-- in a slice -/
  | running
  /-- after a slice, before it saves the eip -/
  | storeEip
  /-- before it answers a stop request -/
  | storeStopped
  /-- in `wait_stopped`, before the loop reads the status -/
  | waiting
  /-- after `monitor`, before the status is read again -/
  | monitored
  deriving DecidableEq, Repr

structure Ap where
  point : Point
  halted : Bool
  eip : Word
  deriving DecidableEq, Repr

/-- The loop goes on with the status it has read. -/
def Ap.loadedStatus (hasMonitor : Bool) (ap : Ap) (status : Word) : Ap :=
  match ap.point with
  | .poll =>
      if status = 1 then
        if ap.halted then { ap with halted := false, point := .loadEip }
        else { ap with point := .running }
      else if status = 2 then { ap with point := .storeStopped }
      else if status = 4 then { ap with halted := true, point := .waiting }
      else ap
  | .waiting =>
      if status = 4 then
        if hasMonitor then { ap with point := .monitored } else ap
      else { ap with point := .poll }
  -- `mwait` or not, the loop reads the status again
  | .monitored => { ap with point := .waiting }
  | _ => ap

def Point.LoadsStatus : Point → Bool
  | .poll | .waiting | .monitored => true
  | _ => false

/-! ## Both sides -/

/-- A bank with the CPU it belongs to, and whether CPU 0 has read 4 from it
since it last wrote the status. -/
structure Bank where
  status : Word
  eip : Word
  ap : Ap
  sawStopped : Bool
  deriving DecidableEq, Repr

/-- The bank when the CPU enters `subleq`, in a page of `kmalloc`, which are zeroed. -/
def Bank.initial : Bank where
  status := 0
  eip := 0
  ap := ⟨.arrive, true, 0⟩
  sawStopped := false

/-- What a step does: the CPU's accesses, guest instructions with the address
of the next one, and returns from slices; then CPU 0's accesses. -/
inductive Access
  | loadStatus (value : Word)
  | loadEip (value : Word)
  | exec (addr next : Word)
  | leave
  | storeEip (value : Word)
  | storeStatus (value : Word)
  | cpu0LoadStatus (value : Word)
  | cpu0StoreStatus (value : Word)
  | cpu0StoreEip (value : Word)
  deriving DecidableEq, Repr

inductive Step (hasMonitor : Bool) : Bank → Access → Bank → Prop
  | arrive {b : Bank} (h : b.ap.point = .arrive) :
      Step hasMonitor b (.storeStatus 4)
        { b with status := 4, ap := { b.ap with point := .clearEip } }
  | clearEip {b : Bank} (h : b.ap.point = .clearEip) :
      Step hasMonitor b (.storeEip 0) { b with eip := 0, ap := { b.ap with point := .poll } }
  | loadStatus {b : Bank} (h : b.ap.point.LoadsStatus = true) :
      Step hasMonitor b (.loadStatus b.status)
        { b with ap := b.ap.loadedStatus hasMonitor b.status }
  | loadEip {b : Bank} (h : b.ap.point = .loadEip) :
      Step hasMonitor b (.loadEip b.eip)
        { b with ap := { b.ap with eip := b.eip, point := .running } }
  | exec {b : Bank} (h : b.ap.point = .running) (next : Word) :
      Step hasMonitor b (.exec b.ap.eip next) { b with ap := { b.ap with eip := next } }
  | leave {b : Bank} (h : b.ap.point = .running) :
      Step hasMonitor b .leave { b with ap := { b.ap with point := .storeEip } }
  | storeEip {b : Bank} (h : b.ap.point = .storeEip) :
      Step hasMonitor b (.storeEip b.ap.eip)
        { b with eip := b.ap.eip, ap := { b.ap with point := .poll } }
  -- the case of the stop request falls through to that of the stopped CPU
  | storeStatus {b : Bank} (h : b.ap.point = .storeStopped) :
      Step hasMonitor b (.storeStatus 4)
        { b with status := 4, ap := { b.ap with halted := true, point := .waiting } }
  | cpu0Load {b : Bank} :
      Step hasMonitor b (.cpu0LoadStatus b.status)
        { b with sawStopped := decide (b.status = 4) }
  | cpu0Stop {b : Bank} (h : b.status = 1) :
      Step hasMonitor b (.cpu0StoreStatus 2) { b with status := 2, sawStopped := false }
  | cpu0StoreEip {b : Bank} (h : b.sawStopped = true) (value : Word) :
      Step hasMonitor b (.cpu0StoreEip value) { b with eip := value }
  | cpu0Start {b : Bank} (h : b.sawStopped = true) :
      Step hasMonitor b (.cpu0StoreStatus 1) { b with status := 1, sawStopped := false }

/-! ## All CPUs -/

/-- What happened, the latest first, in a run of all CPUs whose accesses are all allowed
in the state they are made in. -/
inductive Run {ι : Type} (hasMonitor : Bool) (allowed : Bank → Access → Prop) :
    List (ι × Access) → (ι → Bank) → Prop
  | nil : Run hasMonitor allowed [] fun _ => .initial
  | step {trace : List (ι × Access)} {banks banks' : ι → Bank} {cpu : ι}
      {access : Access} (hrun : Run hasMonitor allowed trace banks)
      (hallowed : allowed (banks cpu) access)
      (hstep : Step hasMonitor (banks cpu) access (banks' cpu))
      (hother : ∀ other, other ≠ cpu → banks' other = banks other) :
      Run hasMonitor allowed ((cpu, access) :: trace) banks'

def Unrestricted (_ : Bank) (_ : Access) : Prop := True

/-- CPU 0 writes no eip between the two stores a CPU comes up with. -/
def Waits (b : Bank) (access : Access) : Prop :=
  ∀ value, access = .cpu0StoreEip value → b.ap.point ≠ .clearEip

/-! ## What a trace says -/

/-- What is to be known of a CPU's past. -/
structure History where
  /-- the value last written to the eip word -/
  eip : Word
  /-- the next instruction: the one after the last, or where CPU 0 has sent the
  CPU since -/
  next : Word
  /-- the eip word at the last start, until the first instruction after it -/
  started : Option Word
  /-- whether CPU 0 wrote the eip and the CPU has not read it since -/
  unread : Bool
  /-- whether CPU 0's stop request is the last write to the status -/
  stopRequested : Bool
  deriving DecidableEq, Repr

def History.initial : History := ⟨0, 0, none, false, false⟩

def History.after (h : History) : Access → History
  | .loadStatus _ | .cpu0LoadStatus _ | .leave => h
  | .loadEip _ => { h with unread := false }
  | .exec _ next => { h with next := next, started := none }
  | .storeEip value => { h with eip := value }
  | .storeStatus _ => { h with stopRequested := false }
  | .cpu0StoreStatus value =>
      { h with
        started := if value = 1 then some h.eip else h.started
        stopRequested := decide (value = 2) }
  | .cpu0StoreEip value => { h with eip := value, next := value, unread := true }

/-- The history of one CPU's bank in a trace. -/
def history {ι : Type} [DecidableEq ι] (cpu : ι) : List (ι × Access) → History
  | [] => .initial
  | (other, access) :: trace =>
      if other = cpu then (history cpu trace).after access else history cpu trace

end CpuControl
end SubleqEmu
