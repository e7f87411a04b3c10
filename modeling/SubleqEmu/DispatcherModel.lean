import SubleqEmu.CopyGuardModel
import SubleqEmu.CopyLoopShortcut
import SubleqEmu.StaticHash
import SubleqEmu.TranslatorExits

/-!
# The dispatcher

`jit_run` on a single CPU, with the blocks that it translates, enters, links and drops.
What the code cache has room for, which records are left for links, when a block is
due for its check, and what the registers hold when a block is entered, is left open.
-/

namespace SubleqEmu
namespace Dispatcher

open ByteMemory Subleq Emitter Machine
open CopyLoop (Desc jitCopy moved)
open CopyGuard (View Marks jitMaxBlock)
open Translator (Source Cache LeavesBlock leave)

structure Config where
  size : MemSize
  exact : Bool
  copyFn : Memory → Word → Word → Word → Memory
  /-- for the ranges that `jit_copy` passes -/
  copies : ∀ (m : Memory) (d s n : Word), s.toNat + n.toNat ≤ size.val →
    d.toNat + n.toNat ≤ size.val → d.toNat ≤ s.toNat ∨ s.toNat + n.toNat ≤ d.toNat →
    copyFn m d s n = moved m d s n

/-! ## Blocks -/

/-- How the translator stands when it starts with a block. -/
structure Setup where
  useMovbe : Bool
  lruClock : BitVec 32
  constNext : BitVec 32
  aliasNext : BitVec 32

def Setup.cache (t : Setup) : Cache := .start t.useMovbe t.lruClock t.constNext t.aliasNext

/-- A translated block.  Its code is what `translateBody` gives. -/
structure Block where
  start : Word
  n : ℕ
  src : Source
  /-- the loop that its call of `jit_copy` is for -/
  copy : Option Desc
  /-- the word tested on entry, and the value it should have -/
  watch : Option (Word × Word)
  setup : Setup

namespace Block

variable (b : Block)

def size : Word := BitVec.ofNat 64 b.n

def watchChanged (mem : Memory) : Bool := b.watch.any fun w => read mem w.1 ≠ w.2

/-- The fields it took as static, and their hash. -/
def noted : StaticHash.Block := StaticHash.translateFields b.src b.start b.n

/-- The words of its static fields. -/
def staticWords : List Word :=
  ((List.range (b.n * 3)).filter b.noted.marked).map fun f => b.start >>> 3 + BitVec.ofNat 64 f

end Block

/-- A jump out of a block: after its call of `jit_copy`, or a branch with a static target. -/
inductive Site
  | copy
  | branch (s : Stub)
  deriving DecidableEq

def Site.target (start : Word) : Site → Word
  | .copy => start + 19 * 24
  | .branch s => s.target

/-- How many instructions of a block of `n` are left after a jump out of it. -/
def Site.left (n : ℕ) : Site → Word
  | .copy => BitVec.ofInt 64 (n - 18 - 1)
  | .branch s => BitVec.ofInt 64 (n - s.idx - 1)

structure Jit where
  mem : Memory
  staticMap : Word → Bool
  dynMap : Word → Bool
  pageMap : Word → Bool
  /-- the valid blocks, the newest first -/
  table : List Block
  /-- the jumps, by the start of their block, that go straight to their target's block -/
  links : List (Word × Site)
  watch : Option (Word × Word)
  eip : Word
  budget : Word
  strong : Bool
  weakSteps : BitVec 32

namespace Jit

variable (s : Jit)

/-- The maps as the code of a block reads them. -/
def maps : Maps where
  qword q := (BitVec.iunfoldr (fun (i : Fin 64) (u : Unit) =>
    (u, s.staticMap (q <<< 6 + BitVec.ofNat 64 i.val))) ()).2
  page := s.pageMap

def lookup (a : Word) : Option Block := s.table.find? fun b => b.start = a

/-! ## Dropping blocks -/

/-- The block leaves the table, and no jump goes to its entry any more. -/
def invalidate (b : Block) : Jit :=
  { s with
    table := s.table.filter fun b' => b'.start ≠ b.start
    links := s.links.filter fun l => l.1 ≠ b.start ∧ l.2.target l.1 ≠ b.start }

/-- The block at `x` is dropped if it has the word at `a`. -/
def invalidateAt (a x : Word) : Jit :=
  match s.lookup x with
  | none => s
  | some b => if a < x + 24 * b.size then s.invalidate b else s

/-- The loop of `invalidate_word`, with so many starts to go. -/
def invalidateFrom (a : Word) : ℕ → Word → Jit → Jit
  | 0, _, s => s
  | count + 1, x, s => invalidateFrom a count (x + 8) (s.invalidateAt a x)

def invalidateWord (w : Word) : Jit :=
  let a := w <<< 3
  let lo : Word := if a ≥ 24 * BitVec.ofNat 64 jitMaxBlock
    then a - 24 * BitVec.ofNat 64 jitMaxBlock + 8 else 0
  invalidateFrom a ((a - lo).toNat / 8 + 1) lo s

def flush : Jit := { s with table := [], links := [] }

/-- `smc_hit`, with no other CPU to tell -/
def smcHit (w : Word) : Jit :=
  invalidateWord
    { s with
      dynMap := Function.update s.dynMap w true
      staticMap := Function.update s.staticMap w false } w

/-- Hits those of the words that are still marked. -/
def hitStatic (words : List Word) : Jit :=
  words.foldl (fun s w => if s.staticMap w then s.smcHit w else s) s

/-- `revalidate` when it gets to the block at `a` -/
def revalidateAt (a : Word) : Jit :=
  match s.lookup a with
  | none => s
  | some b =>
      if StaticHash.staticHash s.mem b.start b.n b.noted = b.noted.shash then s
      else b.staticWords.foldl smcHit s

/-! ## Interpreting -/

variable (cfg : Config)

def storeCheck (b : Word) : Jit :=
  let words := BitVec.ofNat 64 cfg.size.val >>> 3
  let w := b >>> 3
  let w' := (b + 7) >>> 3
  let s := if w < words ∧ s.staticMap w then s.smcHit w else s
  if w' ≠ w ∧ w' < words ∧ s.staticMap w' then s.smcHit w' else s

/-- `interp_step`, and its count in the budget; `none` is a fault. -/
def interpStep : Option Jit := do
  let a ← rd cfg.size s.mem s.eip
  let b ← rd cfg.size s.mem (s.eip + 8)
  let c ← rd cfg.size s.mem (s.eip + 16)
  let va ← rd cfg.size s.mem a
  let vb ← rd cfg.size s.mem b
  let s := s.storeCheck cfg b
  let mem ← wr cfg.size s.mem b (vb - va)
  let next := if vb.sle va then c else s.eip + 24
  return { s with mem, strong := next ≠ s.eip + 24, eip := next, budget := s.budget - 1 }

/-- A step where there is no block. -/
def interpret : Option Jit :=
  (s.interpStep cfg).map fun s' =>
    { s' with weakSteps := if s'.strong then 0 else s.weakSteps + 1 }

/-! ## Translating -/

def view : View := ⟨cfg.size, s.mem, s.dynMap, fun a => (s.lookup a).isSome⟩

def marks : Marks := ⟨fun _ => false, s.staticMap, s.pageMap⟩

/-- Whether `translate` makes a block there, rather than none. -/
def Translates (start : Word) : Prop :=
  ¬ (start &&& 7 ≠ 0 ∨ start + 24 > BitVec.ofNat 64 cfg.size.val)

instance (start : Word) : Decidable (Translates cfg start) := inferInstanceAs (Decidable (¬ _))

/-- `translate`; `none` where its pass never ends or `scratch` finds no register. -/
def translate (setup : Setup) (start : Word) : Option (Block × Jit) :=
  (CopyGuard.translate (s.view cfg) s.marks setup.cache start).map fun T =>
    let b : Block :=
      { start, n := T.n, src := T.src, copy := T.copy, watch := s.watch, setup }
    (b, { s with
      staticMap := T.marks.staticMap
      pageMap := T.marks.pageMap
      table := b :: s.table })

end Jit

/-! ## Passes -/

variable (cfg : Config)

/-- A call of `translate`, which may flush first: the block it gives, and whether it has
flushed. -/
inductive Fetches (s : Jit) (a : Word) : Option Block → Jit → Bool → Prop
  | refused (h : ¬ Jit.Translates cfg a) : Fetches s a none s false
  | made {b : Block} {s' : Jit} (setup : Setup) (flush : Bool) (h : Jit.Translates cfg a)
      (hmade : (if flush then s.flush else s).translate cfg setup a = some (b, s')) :
      Fetches s a (some b) s' flush

/-- The block for `eip` at the top of the dispatcher. -/
inductive Finds (s : Jit) : Option Block → Jit → Prop
  | found {b : Block} (h : s.lookup s.eip = some b) : Finds s (some b) s
  | weak (h : s.lookup s.eip = none)
      (hweak : ¬ (s.strong ∨ s.weakSteps ≥ BitVec.ofNat 32 jitMaxBlock)) : Finds s none s
  | fetched {o : Option Block} {s' : Jit} {flushed : Bool} (h : s.lookup s.eip = none)
      (hstrong : s.strong ∨ s.weakSteps ≥ BitVec.ofNat 32 jitMaxBlock)
      (hfetch : Fetches cfg s s.eip o s' flushed) : Finds s o s'

/-- Where `jit_run` is: at the top of its loop, at the entry of a block, or it has
returned. -/
inductive Point
  | top
  | entry (b : Block)
  | returned

/-- Out of translated code, to the dispatcher. -/
def Jit.back (s : Jit) (eip budget : Word) : Jit :=
  { s with eip, budget, strong := true, weakSteps := 0 }

/-- A jump out of a block with a target known when it was translated. -/
inductive Jumps (s : Jit) (start : Word) (site : Site) : Jit → Point → Prop
  | linked {t : Block} (hlink : (start, site) ∈ s.links)
      (ht : s.lookup (site.target start) = some t) : Jumps s start site s (.entry t)
  | found {t : Block} (hlink : (start, site) ∉ s.links)
      (ht : s.lookup (site.target start) = some t) (room : Bool) :
      Jumps s start site
        { s.back (site.target start) s.budget with
          links := if room then (start, site) :: s.links else s.links } .top
  | fetched {o : Option Block} {s' : Jit} {flushed : Bool} (hlink : (start, site) ∉ s.links)
      (ht : s.lookup (site.target start) = none)
      (hfetch : Fetches cfg (s.back (site.target start) s.budget) (site.target start) o s' flushed)
      (room : Bool) :
      Jumps s start site
        { s' with
          links := if o.isSome ∧ !flushed ∧ room then (start, site) :: s'.links else s'.links }
        .top

/-- The tests at the entry of a block, after its instructions were taken from the budget. -/
structure Passes (s : Jit) (b : Block) : Prop where
  budget : s.budget.slt b.size = false
  watch : b.watchChanged s.mem = false
  hoist : b.src.hoist.any s.staticMap = false

/-- Whether its call of `jit_copy`, if it has one, leaves the loop to the block's code. -/
def CopiesNone (s : Jit) (b : Block) : Prop :=
  ∀ desc, b.copy = some desc → ∃ done mem,
    jitCopy cfg.size s.pageMap cfg.copyFn desc (s.budget - b.size) s.mem = some (⟨0, done⟩, mem)

/-- The machine at the first instruction of a block. -/
structure Jit.Starts (s : Jit) (M : State) : Prop where
  init : M.init = s.mem
  stores : M.stores = []

inductive Step : Jit × Point → Jit × Point → Prop
  -- at the top
  | exhausted {s s' : Jit} {o : Option Block} (checked : List Word)
      (hfind : Finds cfg (checked.foldl Jit.revalidateAt s) o s')
      (hnone : ∀ b, o = some b → cfg.exact ∧ s'.budget < b.size) (hbudget : s'.budget = 0) :
      Step (s, .top) (s', .returned)
  | interpret {s s' s'' : Jit} {o : Option Block} (checked : List Word)
      (hfind : Finds cfg (checked.foldl Jit.revalidateAt s) o s')
      (hnone : ∀ b, o = some b → cfg.exact ∧ s'.budget < b.size) (hbudget : s'.budget ≠ 0)
      (hinterp : s'.interpret cfg = some s'') : Step (s, .top) (s'', .top)
  | short {s s' : Jit} {b : Block} (checked : List Word)
      (hfind : Finds cfg (checked.foldl Jit.revalidateAt s) (some b) s')
      (hexact : cfg.exact = false) (hshort : s'.budget < b.size) :
      Step (s, .top) (s', .returned)
  | enter {s s' : Jit} {b : Block} (checked : List Word)
      (hfind : Finds cfg (checked.foldl Jit.revalidateAt s) (some b) s')
      (hbudget : b.size ≤ s'.budget) : Step (s, .top) (s', .entry b)
  -- at the entry of a block
  | spent {s : Jit} {b : Block} (h : s.budget.slt b.size = true) :
      Step (s, .entry b) (s.back b.start s.budget, .top)
  | watched {s : Jit} {b : Block} (hbudget : s.budget.slt b.size = false)
      (h : b.watchChanged s.mem = true) :
      Step (s, .entry b) (s.back b.start s.budget, .returned)
  | hoisted {s : Jit} {b : Block} (hbudget : s.budget.slt b.size = false)
      (hwatch : b.watchChanged s.mem = false) (h : b.src.hoist.any s.staticMap = true) :
      Step (s, .entry b)
        (match s.lookup b.start with
          | none => s.back b.start s.budget
          | some f => (s.back b.start s.budget).hitStatic f.src.hoist, .top)
  | copied {s : Jit} {b : Block} {desc : Desc} {n : Word} {mem : Memory} (h : Passes s b)
      (hcopy : b.copy = some desc)
      (hjit : jitCopy cfg.size s.pageMap cfg.copyFn desc (s.budget - b.size) s.mem =
        some (⟨n, false⟩, mem)) (hn : n ≠ 0) :
      Step (s, .entry b)
        ({ s with mem, budget := s.budget - b.size - (19 * n - 19) }, .entry b)
  | copiedAll {s s' : Jit} {p : Point} {b : Block} {desc : Desc} {n : Word} {mem : Memory}
      (h : Passes s b) (hcopy : b.copy = some desc)
      (hjit : jitCopy cfg.size s.pageMap cfg.copyFn desc (s.budget - b.size) s.mem =
        some (⟨n, true⟩, mem)) (hn : n ≠ 0)
      (hjump : Jumps cfg
        { s with mem, budget := s.budget - b.size - (19 * n - 19) + Site.copy.left b.n }
        b.start .copy s' p) : Step (s, .entry b) (s', p)
  | smc {s s' : Jit} {b : Block} {M₀ M M' : State} {eip : Word} {m : Smc} (h : Passes s b)
      (hcopy : CopiesNone cfg s b) (hstart : s.Starts M₀)
      (hleaves : LeavesBlock b.src s.maps b.start b.n b.setup.cache M₀ (.smc m) M)
      (hleave : leave s.maps b.setup.useMovbe b.start (.smc m) M = some (M', eip))
      (hinterp : ({ s with mem := M'.mem }.back eip
        (s.budget - b.size + BitVec.ofInt 64 (b.n - m.idx))).interpStep cfg = some s') :
      Step (s, .entry b) (s', .top)
  | computed {s : Jit} {b : Block} {M₀ M M' : State} {eip : Word} {x : Stub} (h : Passes s b)
      (hcopy : CopiesNone cfg s b) (hstart : s.Starts M₀) (hdyn : x.dyn = true)
      (hleaves : LeavesBlock b.src s.maps b.start b.n b.setup.cache M₀ (.stub x) M)
      (hleave : leave s.maps b.setup.useMovbe b.start (.stub x) M = some (M', eip)) :
      Step (s, .entry b)
        ({ s with mem := M'.mem }.back eip (s.budget - b.size + (Site.branch x).left b.n), .top)
  | branch {s s' : Jit} {p : Point} {b : Block} {M₀ M M' : State} {eip : Word} {x : Stub}
      (h : Passes s b) (hcopy : CopiesNone cfg s b) (hstart : s.Starts M₀)
      (hdyn : x.dyn = false)
      (hleaves : LeavesBlock b.src s.maps b.start b.n b.setup.cache M₀ (.stub x) M)
      (hleave : leave s.maps b.setup.useMovbe b.start (.stub x) M = some (M', eip))
      (hjump : Jumps cfg
        { s with mem := M'.mem, budget := s.budget - b.size + (Site.branch x).left b.n }
        b.start (.branch x) s' p) : Step (s, .entry b) (s', p)

/-! ## Calls -/

/-- `jit_init` -/
def Jit.init (mem : Memory) : Jit where
  mem := mem
  staticMap _ := false
  dynMap _ := false
  pageMap _ := false
  table := []
  links := []
  watch := none
  eip := 0
  budget := 0
  strong := true
  weakSteps := 0

/-- A call of `jit_run`; between calls `eip` is where the last one left. -/
def Jit.call (s : Jit) (eip budget : Word) : Jit :=
  { s with
    eip, budget
    strong := if eip = s.eip then s.strong else false
    weakSteps := if eip = s.eip then s.weakSteps else 0 }

/-- `jit_set_watch` -/
def Jit.setWatch (s : Jit) (addr value : Word) : Jit :=
  { s with watch := if addr = 0 then none else some (addr, value) }

end Dispatcher
end SubleqEmu
