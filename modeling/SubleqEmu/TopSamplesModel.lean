import Mathlib.Data.List.Basic

/-!
# The hottest entries

`jit_top_samples`: the sample counts of lines and blocks, taken into the caller's arrays
by insertion, and reset.
-/

namespace SubleqEmu
namespace TopSamples

abbrev Word := BitVec 64

/-- A start with its count: a line outside of translated code, or a block. -/
structure Entry where
  start : Word
  count : BitVec 32
  deriving DecidableEq

structure Line where
  line : Word
  count : BitVec 32

structure Block where
  start : Word
  samples : BitVec 32

/-- What `jit_top_samples` reads of a CPU's translator. -/
structure Jit where
  out : List Line
  blocks : List Block
  samples : BitVec 32
  samplesOut : BitVec 32

/-- The caller's arrays. -/
structure Outputs where
  starts : ℕ → Word
  counts : ℕ → BitVec 32

def Outputs.entry (o : Outputs) (i : ℕ) : Entry := ⟨o.starts i, o.counts i⟩

def Outputs.set (o : Outputs) (i : ℕ) (e : Entry) : Outputs where
  starts := Function.update o.starts i e.start
  counts := Function.update o.counts i e.count

/-- Moving the entries before place `i` with smaller counts up by one; the place that gets
free, and the arrays. -/
def shift (c : BitVec 32) : ℕ → Outputs → ℕ × Outputs
  | 0, o => (0, o)
  | i + 1, o =>
      if o.counts i < c then shift c i (o.set (i + 1) (o.entry i)) else (i + 1, o)

structure Top where
  n : ℕ
  outputs : Outputs

/-- One non-zero count. -/
def Top.enter (max : ℕ) (s : Top) (e : Entry) : Top :=
  let i := if s.n < max then s.n else max - 1
  let n := if s.n < max then s.n + 1 else s.n
  if i = max - 1 ∧ n = max ∧ s.outputs.counts i ≥ e.count then { s with n }
  else
    let r := shift e.count i s.outputs
    ⟨n, r.2.set r.1 e⟩

section Scan

variable {β : Type} (max : ℕ) (entry : β → Entry) (reset : β → β)

/-- A loop over records with a count, which it resets. -/
def scan : List β → Top → Top × List β
  | [], s => (s, [])
  | b :: rest, s =>
      if (entry b).count = 0 then
        let r := scan rest s
        (r.1, b :: r.2)
      else
        let r := scan rest (s.enter max (entry b))
        (r.1, reset b :: r.2)

end Scan

def Line.entry (l : Line) : Entry := ⟨l.line, l.count⟩

def Line.reset (l : Line) : Line := { l with count := 0 }

def Block.entry (b : Block) : Entry := ⟨b.start, b.samples⟩

def Block.reset (b : Block) : Block := { b with samples := 0 }

structure Report where
  n : ℕ
  outputs : Outputs
  total : BitVec 32
  jit : Jit

def jitTopSamples (max : ℕ) (o : Outputs) (J : Jit) : Report :=
  let lines := scan max Line.entry Line.reset J.out ⟨0, o⟩
  let blocks := scan max Block.entry Block.reset J.blocks lines.1
  { n := blocks.1.n
    outputs := blocks.1.outputs
    total := J.samples + J.samplesOut
    jit := ⟨lines.2, blocks.2, 0, 0⟩ }

end TopSamples
end SubleqEmu
