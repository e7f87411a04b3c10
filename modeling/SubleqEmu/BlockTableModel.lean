import SubleqEmu.IntrusiveList
import SubleqEmu.VectorInstructions

/-!
# The block table of a CPU

Translated blocks in hash chains, the jumps linked to them, and the code they are
patched in.  Blocks and link records are numbered by their places in their arrays,
addresses in the code cache count from its start.  What `translate` makes of the
instructions at an address, and the code it emits for them, comes from outside.
-/

namespace SubleqEmu
namespace BlockTable

open ByteMemory IntrusiveList

abbrev Word := BitVec 64

/-- What `jit_init` lays out. -/
structure Sizes where
  memSize : ℕ
  maxBlocks : ℕ
  memSize_lt : memSize < 2 ^ 64
  le_maxBlocks : 4096 ≤ maxBlocks
  maxBlocks_le : maxBlocks ≤ 2 ^ 18

def Sizes.maxLinks (sizes : Sizes) : ℕ := 2 * sizes.maxBlocks
def Sizes.maxMeta (sizes : Sizes) : ℕ := 16 * sizes.maxBlocks
def Sizes.codeBytes (sizes : Sizes) : ℕ := 512 * sizes.maxBlocks

def jitMaxBlock : ℕ := 64
def pendingLen : ℕ := 4096
def codeSlack : ℕ := 256 * 1024

structure Block where
  start : ℕ
  n : ℕ
  entry : ℕ
  invStub : ℕ
  hnext : Option ℕ
  incoming : Option ℕ
  valid : Bool
  /-- the static fields, and the hash of what they held -/
  smask : BitVec 192
  shash : Word

structure Link where
  site : ℕ
  next : Option ℕ

structure Pending where
  blk : ℕ
  stamp : ℕ
  deriving DecidableEq

structure Jit where
  htab : ℕ → Option ℕ
  blocks : ℕ → Block
  nblocks : ℕ
  links : ℕ → Link
  nlinks : ℕ
  freeLinks : Option ℕ
  nmeta : ℕ
  code : ℕ → BitVec 8
  codePtr : ℕ
  pending : List Pending
  flushes : ℕ
  /-- the exit jumps made since the last flush -/
  exits : List ℕ

def hash (a : ℕ) : ℕ :=
  ((BitVec.ofNat 64 a >>> 3) * 0x9e3779b97f4a7c15 >>> 48).toNat

def Jit.hnext (J : Jit) (b : ℕ) : Option ℕ := (J.blocks b).hnext

def Jit.next (J : Jit) (l : ℕ) : Option ℕ := (J.links l).next

/-! ## Jumps -/

def rel32 (code : ℕ → BitVec 8) (site : ℕ) : BitVec 32 := ofBytes fun j => code (site + j)

/-- Where the jump with its displacement at `site` goes. -/
def jumpTarget (code : ℕ → BitVec 8) (site : ℕ) : ℤ := site + 4 + (rel32 code site).toInt

def patchRel32 (code : ℕ → BitVec 8) (site target : ℕ) : ℕ → BitVec 8 := fun a =>
  if site ≤ a ∧ a < site + 4 then
    dwordByte (BitVec.ofInt 32 (target - (site + 4 : ℕ))) (a - site)
  else code a

section Table

variable (sizes : Sizes)

def Jit.lookup (J : Jit) (a : ℕ) : Option ℕ :=
  (walk J.hnext sizes.maxBlocks (J.htab (hash a))).find? fun b => (J.blocks b).start = a

/-- The loop over the jumps linked to a block. -/
def Jit.unlinkAll : (fuel : ℕ) → Option ℕ → Jit → Jit
  | 0, _, J => J
  | _, none, J => J
  | fuel + 1, some l, J =>
      let link := J.links l
      Jit.unlinkAll fuel link.next
        { J with
          code := patchRel32 J.code link.site (link.site + 4)
          links := Function.update J.links l { link with next := J.freeLinks }
          freeLinks := some l }

/-- `*pp = value`, where `pp` is a pointer of the chain of `h`. -/
def Jit.writeChain (J : Jit) (h : ℕ) (pp value : Option ℕ) : Jit :=
  match pp with
  | none => { J with htab := Function.update J.htab h value }
  | some y =>
      { J with blocks := Function.update J.blocks y { J.blocks y with hnext := value } }

/-- The block is marked and leaves its chain. -/
def Jit.unchain (J : Jit) (b : ℕ) : Jit :=
  let J := { J with blocks := Function.update J.blocks b { J.blocks b with valid := false } }
  let h := hash (J.blocks b).start
  let pp := seek J.hnext b sizes.maxBlocks none (J.htab h)
  if pp.2 = none then J else J.writeChain h pp.1 (J.hnext b)

def Jit.invalidate (J : Jit) (b : ℕ) : Jit :=
  if (J.blocks b).valid = false then J
  else
    let J := J.unchain sizes b
    let J := J.unlinkAll sizes.maxLinks (J.blocks b).incoming
    let blk := J.blocks b
    { J with
      blocks := Function.update J.blocks b { blk with incoming := none }
      code := patchRel32 (Function.update J.code blk.entry 0xe9) (blk.entry + 1) blk.invStub }

/-- The loop of `invalidate_word`, with so many starts to go. -/
def Jit.invalidateFrom (a : ℕ) : (count : ℕ) → (s : ℕ) → Jit → Jit
  | 0, _, J => J
  | count + 1, s, J =>
      Jit.invalidateFrom a count (s + 8)
        (match J.lookup sizes s with
          | none => J
          | some b => if a < s + 24 * (J.blocks b).n then J.invalidate sizes b else J)

def Jit.invalidateWord (J : Jit) (w : ℕ) : Jit :=
  let a := 8 * w
  let lo := if 24 * jitMaxBlock ≤ a then a - 24 * jitMaxBlock + 8 else 0
  J.invalidateFrom sizes a ((a - lo) / 8 + 1) lo

def Jit.flush (J : Jit) : Jit :=
  { J with
    htab := fun _ => none
    codePtr := 0
    nblocks := 0
    nlinks := 0
    freeLinks := none
    nmeta := 0
    pending := []
    flushes := J.flushes + 1
    exits := [] }

/-- A record that is taken for a site, and the site sent to a block. -/
def Jit.link (J : Jit) (l site t : ℕ) : Jit :=
  { J with
    links := Function.update J.links l ⟨site, (J.blocks t).incoming⟩
    blocks := Function.update J.blocks t { J.blocks t with incoming := some l }
    code := patchRel32 J.code site (J.blocks t).entry }

def Jit.linkTo (J : Jit) (site t : ℕ) : Jit :=
  match J.freeLinks with
  | some l => Jit.link { J with freeLinks := J.next l } l site t
  | none =>
      if J.nlinks < sizes.maxLinks then
        Jit.link { J with nlinks := J.nlinks + 1 } J.nlinks site t
      else J

/-! ## Blocks waiting to be checked -/

/-- Words that `mem` holds, by address. -/
abbrev Contents := ℕ → Word

def Block.isStatic (b : Block) (f : ℕ) : Bool := f < b.n * 3 && b.smask.getLsbD f

def Block.staticFields (b : Block) : List ℕ := (List.range (b.n * 3)).filter b.isStatic

def staticHash (mem : Contents) (b : Block) : Word :=
  b.staticFields.foldl (fun h f => (h ^^^ mem (b.start + 8 * f)) * 0x100000001b3)
    0x9e3779b97f4a7c15

/-- The words that `revalidate` hits for a block: those of its static fields. -/
def Block.staticWords (b : Block) : List ℕ := b.staticFields.map fun f => b.start / 8 + f

/-- What hitting words does to this CPU. -/
def Jit.invalidateWords (J : Jit) (words : List ℕ) : Jit :=
  words.foldl (Jit.invalidateWord sizes) J

/-- Whether the block is kept when it is checked. -/
def Jit.passes (J : Jit) (mem : Contents) (b : ℕ) : Bool :=
  !(J.blocks b).valid || staticHash mem (J.blocks b) == (J.blocks b).shash

/-- The loop of `revalidate`. -/
def Jit.revalidateFrom (mem : Contents) (min : ℕ) : List Pending → Jit → Jit
  | [], J => { J with pending := [] }
  | p :: rest, J =>
      if p.stamp ≤ min then
        Jit.revalidateFrom mem min rest
          (if J.passes mem p.blk then J
            else J.invalidateWords sizes (J.blocks p.blk).staticWords)
      else { J with pending := p :: rest }

def Jit.revalidate (J : Jit) (mem : Contents) (min : ℕ) : Jit :=
  J.revalidateFrom sizes mem min J.pending

/-! ## Making blocks -/

/-- A block as `translate` makes it from the instructions at an address. -/
structure Made where
  n : ℕ
  smask : BitVec 192
  shash : Word
  /-- words of metadata -/
  nmeta : ℕ
  code : List (BitVec 8)
  /-- where the displacements of its exit jumps are -/
  exits : List ℕ
  invStub : ℕ
  n_pos : 0 < n
  n_le : n ≤ jitMaxBlock
  code_le : code.length ≤ codeSlack
  /-- `sub rbp, n` comes first -/
  entry_le : 7 ≤ code.length
  exits_bounds : ∀ e ∈ exits, 7 ≤ e ∧ e + 5 ≤ code.length
  exits_apart : exits.Pairwise fun e e' => e + 5 ≤ e'
  /-- an exit jump goes to the slow path after it -/
  exits_slow : ∀ e ∈ exits, ∀ k < 4, code.getD (e + k) 0 = 0
  invStub_le : invStub ≤ code.length

def Jit.mustFlush (J : Jit) : Bool :=
  sizes.codeBytes - J.codePtr < codeSlack || J.nblocks == sizes.maxBlocks ||
    J.nmeta + jitMaxBlock * 2 + 8 > sizes.maxMeta

/-- The new block, in front of its chain. -/
def Jit.insert (J : Jit) (start : ℕ) (made : Made) : Jit :=
  let blk : Block :=
    { start := start
      n := made.n
      entry := J.codePtr
      invStub := J.codePtr + made.invStub
      hnext := J.htab (hash start)
      incoming := none
      valid := true
      smask := made.smask
      shash := made.shash }
  { J with
    blocks := Function.update J.blocks J.nblocks blk
    nblocks := J.nblocks + 1
    htab := Function.update J.htab (hash start) (some J.nblocks)
    nmeta := J.nmeta + made.nmeta
    code := fun a =>
      if J.codePtr ≤ a ∧ a < J.codePtr + made.code.length then made.code.getD (a - J.codePtr) 0
      else J.code a
    codePtr := J.codePtr + made.code.length
    exits := J.exits ++ made.exits.map (J.codePtr + ·) }

/-- `translate` to where it waits for room; the block is the last one then. -/
def Jit.make (J : Jit) (start : ℕ) (made : Made) : Jit :=
  (if J.mustFlush sizes then J.flush else J).insert start made

/-- Whether `translate` makes a block at an address, rather than none. -/
def Sizes.Translates (sizes : Sizes) (start : ℕ) : Prop :=
  start % 8 = 0 ∧ start + 24 ≤ sizes.memSize

instance (start : ℕ) : Decidable (sizes.Translates start) :=
  inferInstanceAs (Decidable (_ ∧ _))

def Jit.hasRoom (J : Jit) : Bool := J.pending.length + 1 != pendingLen

end Table

/-! ## `jit_run` -/

/-- Where a CPU is: in the loop of `jit_run` or outside, or in `translate`, with room
for the new block still to be found, and the exit to be linked to it, if any. -/
inductive Point
  | top
  | waiting (blk : ℕ) (exit : Option (ℕ × ℕ))
  deriving DecidableEq

structure State where
  jit : Jit
  epoch : ℕ
  /-- what this CPU has published -/
  quiet : ℕ
  point : Point

inductive Event
  /-- another CPU made a block -/
  | tick
  /-- a word that another CPU, or a store of this one, hit -/
  | hit (w : ℕ)
  | overflow
  /-- `others` is the least that the other CPUs have published -/
  | revalidate (mem : Contents) (others : ℕ)
  /-- the block at `eip` is entered, and made if there is none -/
  | enter (eip : ℕ) (made : Made)
  /-- control left through an exit, for `eip` -/
  | leave (site eip : ℕ) (made : Made)
  /-- `translate` returns -/
  | ready

section Run

variable (sizes : Sizes)

/-- `translate`, if it makes a block. -/
def State.translate (s : State) (eip : ℕ) (made : Made) (exit : Option (ℕ × ℕ)) : Option State :=
  if ¬ sizes.Translates eip then some s
  else if eip + 24 * made.n ≤ sizes.memSize ∧ made.nmeta ≤ jitMaxBlock * 2 + 8 then
    let J := s.jit.make sizes eip made
    some { s with jit := J, point := .waiting (J.nblocks - 1) exit }
  else none

/-- A step of the CPU, or `none` if it cannot happen. -/
def State.step (s : State) : Event → Option State
  | .tick => some { s with epoch := s.epoch + 1 }
  | .hit w =>
      if s.point = .top ∧ 8 * w < sizes.memSize then
        some { s with jit := s.jit.invalidateWord sizes w }
      else none
  | .overflow => if s.point = .top then some { s with jit := s.jit.flush } else none
  | .revalidate mem others =>
      let quiet := if s.point = .top then s.epoch else s.quiet
      some { s with jit := s.jit.revalidate sizes mem (min quiet others), quiet := quiet }
  | .enter eip made =>
      if s.point = .top then
        match s.jit.lookup sizes eip with
        | some _ => some s
        | none => s.translate sizes eip made none
      else none
  | .leave site eip made =>
      if s.point = .top ∧ site ∈ s.jit.exits ∧ jumpTarget s.jit.code site = site + 4 then
        match s.jit.lookup sizes eip with
        | some t => some { s with jit := s.jit.linkTo sizes site t }
        | none => s.translate sizes eip made (some (site, s.jit.flushes))
      else none
  | .ready =>
      match s.point with
      | .top => none
      | .waiting blk exit =>
          if s.jit.hasRoom = false then none
          else
            let J := { s.jit with pending := s.jit.pending ++ [⟨blk, s.epoch + 1⟩] }
            let J :=
              match exit with
              | some (site, gen) => if gen = J.flushes then J.linkTo sizes site blk else J
              | none => J
            some { s with jit := J, epoch := s.epoch + 1, point := .top }

def State.run (s : State) : List Event → Option State
  | [] => some s
  | event :: events => (s.step sizes event).bind fun s' => s'.run events

end Run

/-- As `jit_init` leaves it. -/
def Jit.initial (blocks : ℕ → Block) (links : ℕ → Link) (code : ℕ → BitVec 8) : Jit where
  htab := fun _ => none
  blocks := blocks
  nblocks := 0
  links := links
  nlinks := 0
  freeLinks := none
  nmeta := 0
  code := code
  codePtr := 0
  pending := []
  flushes := 0
  exits := []

def State.initial (blocks : ℕ → Block) (links : ℕ → Link) (code : ℕ → BitVec 8) : State where
  jit := .initial blocks links code
  epoch := 1
  quiet := 0
  point := .top

end BlockTable
end SubleqEmu
