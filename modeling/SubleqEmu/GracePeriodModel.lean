import SubleqEmu.RingBuffer
import Mathlib.Order.WithBot
import Mathlib.Logic.Function.Basic

/-!
# Grace periods of the translators

`jit_run` on all CPUs, down to the single reads and writes of what they share
while translating: the epoch, the values each CPU publishes from it, and the
marks which tell a store that a word was translated.  A CPU that translates a
block marks its static words, and checks the block against memory again when
all CPUs have since been through their dispatchers.

Which field is static, what a block does and when code is dropped is left open:
a CPU may check and store whatever it likes while it runs, a word may lose its
mark at any time, and a block may be gone by the time it is checked again.
-/

namespace SubleqEmu
namespace GracePeriod

abbrev Word := BitVec 64

def pendingLen : ℕ := 4096
def pageWords : ℕ := 512

/-! ## Blocks -/

/-- A static field: its word as read by the translator, and the time when its
marks were complete. -/
structure Field where
  word : ℕ
  raw : Word
  marked : ℕ
  deriving DecidableEq

def hashSeed : Word := 0x9e3779b97f4a7c15
def hashStep (h raw : Word) : Word := (h ^^^ raw) * 0x100000001b3

/-- What is left of a block once it is translated. -/
structure Block where
  fields : List Field
  deriving DecidableEq

/-- `shash`, made of the words as the translator read them. -/
def Block.shash (b : Block) : Word :=
  b.fields.foldl (fun h field => hashStep h field.raw) hashSeed

/-- `static_hash`, made of the words as they are in memory. -/
def Block.staticHash (b : Block) (mem : ℕ → Word) : Word :=
  b.fields.foldl (fun h field => hashStep h (mem field.word)) hashSeed

/-- A new block with its stamp. -/
structure Entry where
  block : Block
  stamp : ℕ
  deriving DecidableEq

/-! ## CPUs -/

/-- `mark_static` sets the word's bit, its page's byte, and the byte of the
page before. -/
inductive Mark
  | bit
  | page
  deriving DecidableEq

/-- A block being translated: words read, the word being marked, and the static
fields so far. -/
structure Translation where
  raws : List (ℕ × Word)
  marking : Option (ℕ × Word × Mark)
  fields : List Field

def Translation.start : Translation := ⟨[], none, []⟩

/-- Each pass of the dispatcher may translate at its top and on a link exit. -/
inductive Pass
  | top
  | link
  deriving DecidableEq

/-- Where `revalidate` was called from. -/
inductive After
  | dispatch
  | wait (block : Block) (pass : Pass)

/-- Where a CPU is between two steps. -/
inductive Point
  | outside
  /-- at the top of the loop of `jit_run` -/
  | enter
  /-- with the epoch it is about to publish -/
  | loaded (epoch : ℕ)
  | drain
  /-- in `revalidate`, with the minimum of `quiet` so far -/
  | scan (next : ℕ) (min : WithTop ℕ) (after : After)
  | pop (min : WithTop ℕ) (after : After)
  | dispatch
  | translate (t : Translation) (pass : Pass)
  /-- at the end of `translate`, before it looks for room -/
  | wait (block : Block) (pass : Pass)
  | dispatched
  /-- in a block, or in the interpreter -/
  | running
  | linkExit

def After.point : After → Point
  | .dispatch => .dispatch
  | .wait block pass => .wait block pass

/-- A check of a store's target: the bit of a word, or the byte of a page. -/
inductive Check
  | word (w : ℕ)
  | page (p : ℕ)
  deriving DecidableEq

/-- The words a check is for; a store that begins in a page may end in the
next one. -/
def Check.Covers : Check → ℕ → Prop
  | .word w, w' => w' = w
  | .page p, w => w / pageWords = p ∨ w / pageWords = p + 1

structure Cpu where
  point : Point
  pending : Ring Entry pendingLen
  /-- the checks passed since the CPU left its dispatcher, with their times;
  the stores they are for may be outstanding -/
  checks : List (Check × ℕ)

/-- The state of all CPUs; `now` counts the steps. -/
structure State (n : ℕ) where
  epoch : ℕ
  quiet : Fin n → WithTop ℕ
  mem : ℕ → Word
  staticMap : ℕ → Bool
  pageMap : ℕ → Bool
  now : ℕ
  cpu : Fin n → Cpu

/-! ## Steps -/

section Steps

variable {n : ℕ}

def State.put (s : State n) (c : Fin n) (cpu : Cpu) : State n :=
  { s with cpu := Function.update s.cpu c cpu, now := s.now + 1 }

def State.goTo (s : State n) (c : Fin n) (point : Point) : State n :=
  s.put c { s.cpu c with point := point }

/-- `revalidate` looks at `quiet` only if a block is pending. -/
def revalidate (pending : Ring Entry pendingLen) (after : After) : Point :=
  if pending.isEmpty then after.point else .scan 0 ⊤ after

/-- The bit or byte that a check reads. -/
def State.marked (s : State n) : Check → Bool
  | .word w => s.staticMap w
  | .page p => s.pageMap p

def Pass.next : Pass → Point
  | .top => .dispatched
  | .link => .enter

/-- Steps which only move the CPU. -/
inductive Move (s : State n) (cpu : Cpu) : Point → Point → Prop
  | enter : Move s cpu .outside .enter
  | load : Move s cpu .enter (.loaded s.epoch)
  | scan {k : Fin n} {min : WithTop ℕ} {after : After} :
      Move s cpu (.scan k min after) (.scan (k + 1) (min ⊓ s.quiet k) after)
  | scanned {next : ℕ} {min : WithTop ℕ} {after : After} (h : n ≤ next) :
      Move s cpu (.scan next min after) (.pop min after)
  | popped {min : WithTop ℕ} {after : After}
      (h : cpu.pending.isEmpty = true ∨ ¬ (cpu.pending.front.stamp : WithTop ℕ) ≤ min) :
      Move s cpu (.pop min after) after.point
  | readWord {t : Translation} {pass : Pass} (w : ℕ) :
      Move s cpu (.translate t pass)
        (.translate { t with raws := (w, s.mem w) :: t.raws } pass)
  | translated {t : Translation} {pass : Pass} (h : t.marking = none) :
      Move s cpu (.translate t pass) (.wait ⟨t.fields⟩ pass)
  | waitFull {block : Block} {pass : Pass} (h : cpu.pending.isFull = true) :
      Move s cpu (.wait block pass) (revalidate cpu.pending (.wait block pass))
  | run : Move s cpu .dispatch .running
  | runTranslated : Move s cpu .dispatched .running
  | linked : Move s cpu .linkExit .enter

/-- The points from which `translate` is called. -/
inductive Translates : Point → Pass → Prop
  | top : Translates .dispatch .top
  | link : Translates .linkExit .link

/-- The points from which `jit_run` returns. -/
inductive Leaves : Point → Prop
  | dispatch : Leaves .dispatch
  | dispatched : Leaves .dispatched
  | running : Leaves .running

/-- The ring after a call that may flush it. -/
def flushed (flush : Bool) (pending : Ring Entry pendingLen) : Ring Entry pendingLen :=
  if flush then pending.clear else pending

/-- A step of CPU `c`. -/
inductive Step (c : Fin n) (s : State n) : State n → Prop
  | move {point : Point} (h : Move s (s.cpu c) (s.cpu c).point point) :
      Step c s (s.goTo c point)
  | publish {e : ℕ} (h : (s.cpu c).point = .loaded e) :
      Step c s { s.goTo c .drain with quiet := Function.update s.quiet c e }
  | drain (h : (s.cpu c).point = .drain) (flush : Bool) :
      Step c s (s.put c
        { s.cpu c with
          point := revalidate (flushed flush (s.cpu c).pending) .dispatch
          pending := flushed flush (s.cpu c).pending })
  -- whether the block stays or is dropped
  | pop {min : WithTop ℕ} {after : After} (h : (s.cpu c).point = .pop min after)
      (hempty : (s.cpu c).pending.isEmpty = false)
      (hstamp : ((s.cpu c).pending.front.stamp : WithTop ℕ) ≤ min) :
      Step c s (s.put c { s.cpu c with pending := (s.cpu c).pending.pop })
  | translate {pass : Pass} (h : Translates (s.cpu c).point pass) (flush : Bool) :
      Step c s (s.put c
        { s.cpu c with
          point := .translate .start pass
          pending := flushed flush (s.cpu c).pending })
  | markBit {t : Translation} {pass : Pass} {w : ℕ} {raw : Word}
      (h : (s.cpu c).point = .translate t pass) (hidle : t.marking = none)
      (hraw : (w, raw) ∈ t.raws) :
      Step c s { s.goTo c (.translate { t with marking := some (w, raw, .bit) } pass) with
        staticMap := Function.update s.staticMap w true }
  | markPage {t : Translation} {pass : Pass} {w : ℕ} {raw : Word}
      (h : (s.cpu c).point = .translate t pass)
      (hmarking : t.marking = some (w, raw, .bit)) :
      Step c s { s.goTo c (.translate { t with marking := some (w, raw, .page) } pass) with
        pageMap := Function.update s.pageMap (w / pageWords) true }
  | markPrevious {t : Translation} {pass : Pass} {w : ℕ} {raw : Word}
      (h : (s.cpu c).point = .translate t pass)
      (hmarking : t.marking = some (w, raw, .page)) :
      Step c s { s.goTo c (.translate
          { t with marking := none, fields := t.fields ++ [⟨w, raw, s.now⟩] } pass) with
        pageMap :=
          if w / pageWords = 0 then s.pageMap
          else Function.update s.pageMap (w / pageWords - 1) true }
  | stamp {block : Block} {pass : Pass} (h : (s.cpu c).point = .wait block pass)
      (hfull : (s.cpu c).pending.isFull = false) :
      Step c s { s.put c
          { s.cpu c with
            point := pass.next
            pending := (s.cpu c).pending.push ⟨block, s.epoch + 1⟩ } with
        epoch := s.epoch + 1 }
  | check (h : (s.cpu c).point = .running) (check : Check)
      (hclear : s.marked check = false) :
      Step c s (s.put c { s.cpu c with checks := (check, s.now) :: (s.cpu c).checks })
  | store (h : (s.cpu c).point = .running) {check : Check} {time w : ℕ} (value : Word)
      (hcheck : (check, time) ∈ (s.cpu c).checks) (hcovers : check.Covers w) :
      Step c s { s.put c (s.cpu c) with mem := Function.update s.mem w value }
  -- `smc_hit` takes the mark of a word back
  | unmark (w : ℕ) :
      Step c s { s.put c (s.cpu c) with staticMap := Function.update s.staticMap w false }
  | passEnd (h : (s.cpu c).point = .running) {point : Point}
      (hpoint : point = .enter ∨ point = .linkExit) :
      Step c s (s.put c { s.cpu c with point := point, checks := [] })
  | leave (h : Leaves (s.cpu c).point) :
      Step c s { s.put c { s.cpu c with point := .outside, checks := [] } with
        quiet := Function.update s.quiet c ⊤ }

/-- The CPU is about to take the entry off its ring, and the hash lets its block
stay. -/
structure Keeps (s : State n) (c : Fin n) (entry : Entry) : Prop where
  pop : ∃ min after, (s.cpu c).point = .pop min after ∧ (entry.stamp : WithTop ℕ) ≤ min
  nonempty : (s.cpu c).pending.isEmpty = false
  front : (s.cpu c).pending.front = entry
  hash : entry.block.staticHash s.mem = entry.block.shash

def Next (s s' : State n) : Prop := ∃ c, Step c s s'

/-- `jit_init`: nobody is inside, nothing is pending or marked. -/
structure Initial (s : State n) : Prop where
  epoch : s.epoch = 1
  quiet : ∀ c, s.quiet c = ⊤
  staticMap : ∀ w, s.staticMap w = false
  pageMap : ∀ p, s.pageMap p = false
  outside : ∀ c, (s.cpu c).point = .outside
  pending : ∀ c, (s.cpu c).pending.toList = []
  checks : ∀ c, (s.cpu c).checks = []

def Reachable (s : State n) : Prop :=
  ∃ s₀, Initial s₀ ∧ Relation.ReflTransGen Next s₀ s

end Steps

end GracePeriod
end SubleqEmu
