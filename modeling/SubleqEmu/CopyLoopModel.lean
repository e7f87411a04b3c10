import SubleqEmu.SubleqModel

/-!
# The word copy loop

The loop that the compiler emits to copy words, as `match_copy` recognises it,
and `jit_copy`, which does its iterations at once.
-/

namespace SubleqEmu
namespace CopyLoop

open ByteMemory Subleq

/-- What the fields of the loop stand for. -/
inductive Symbol
  | any | t1 | t2 | s | d | c | m | f1 | f2 | f3 | f4 | sd
  deriving DecidableEq

/-- The A and B fields of the 19 instructions. -/
def copyTmpl : List (Symbol × Symbol) :=
  [(.t1, .t1), (.t2, .t2), (.f1, .f1), (.s, .t1), (.t1, .f1),
   (.any, .t2), (.t1, .t1), (.f2, .f2), (.f3, .f3), (.f4, .f4),
   (.d, .t1), (.t1, .f2), (.t1, .f3), (.t1, .f4), (.any, .any),
   (.t2, .any), (.m, .sd), (.m, .sd), (.m, .c)]

/-- The address of instruction `k`. -/
def insnAt (start : Word) (k : ℕ) : Word := start + 24 * BitVec.ofNat 64 k

theorem insnAt_succ (start : Word) (k : ℕ) : insnAt start k + 24 = insnAt start (k + 1) := by
  unfold insnAt
  bv_omega

/-- Where the loop goes after instruction `k`. -/
def nextOf (start : Word) (k : ℕ) : Word :=
  if k = 18 then start else insnAt start k + 24

structure Match where
  sym : Symbol → Word
  bound : Symbol → Bool
  sd : Word

def Match.start (start : Word) : Match where
  sym
    | .f1 => start + 5 * 24
    | .f2 => start + 15 * 24 + 8
    | .f3 => start + 14 * 24
    | .f4 => start + 14 * 24 + 8
    | _ => 0
  bound
    | .f1 | .f2 | .f3 | .f4 => true
    | _ => false
  sd := 0

/-- What a loop does: its start, and its variables. -/
structure Desc where
  start : Word
  t1 : Word
  t2 : Word
  s : Word
  d : Word
  c : Word
  m : Word
  deriving DecidableEq

section Match

variable (size : MemSize) (dynMap : Word → Bool) (mem : Memory)

/-- An A or B field, at `p`, of instruction `k`. -/
def matchField (k : ℕ) (p : Word) (x : Symbol) (st : Match) : Option Match := do
  let v ← rd size mem p
  match x with
  | .any => some st
  | .sd =>
      if dynMap (p >>> 3) then none
      else if k = 16 then
        if v ≠ st.sym .s ∧ v ≠ st.sym .d then none else some { st with sd := v }
      else
        if v = st.sd ∨ (v ≠ st.sym .s ∧ v ≠ st.sym .d) then none else some st
  | x =>
      if dynMap (p >>> 3) then none
      else if st.bound x = false then
        some { st with
          sym := Function.update st.sym x v
          bound := Function.update st.bound x true }
      else if st.sym x ≠ v then none
      else some st

def matchInsn (start : Word) (k : ℕ) (fields : Symbol × Symbol) (st : Match) :
    Option Match := do
  let p := insnAt start k
  let c ← rd size mem (p + 16)
  if c ≠ nextOf start k ∨ dynMap ((p + 16) >>> 3) then none
  else
    let st ← matchField size dynMap mem k p fields.1 st
    matchField size dynMap mem k (p + 8) fields.2 st

def matchInsns (start : Word) : ℕ → List (Symbol × Symbol) → Match → Option Match
  | _, [], st => some st
  | k, fields :: rest, st =>
      (matchInsn size dynMap mem start k fields st).bind (matchInsns start (k + 1) rest)

/-- An aligned word of memory outside of the loop. -/
def varOk (memSize start v : Word) : Bool :=
  v &&& 7 = 0 && v + 8 ≤ memSize && !(v + 8 > start && v < start + 19 * 24)

/-- `match_copy`: `none` if there is no loop at `start`, or a read faults. -/
def matchCopy (start : Word) : Option Desc := do
  let memSize := BitVec.ofNat 64 size.val
  if start + 19 * 24 > memSize then none
  else
    let st ← matchInsns size dynMap mem start 0 copyTmpl (.start start)
    let vars := [Symbol.t1, .t2, .s, .d, .c, .m].map st.sym
    if vars.all (varOk memSize start) && decide vars.Nodup then
      some ⟨start, st.sym .t1, st.sym .t2, st.sym .s, st.sym .d, st.sym .c, st.sym .m⟩
    else none

end Match

/-- The address that a symbol of a matched loop stands for. -/
def Desc.addr (desc : Desc) : Symbol → Word
  | .t1 => desc.t1
  | .t2 => desc.t2
  | .s => desc.s
  | .d => desc.d
  | .c => desc.c
  | .m => desc.m
  | x => (Match.start desc.start).sym x

/-- The words of the loop whose values `match_copy` looks at. -/
def compared (start : Word) : List Word :=
  copyTmpl.zipIdx.flatMap fun (fields, k) =>
    (if fields.1 = .any then [] else [insnAt start k]) ++
      (if fields.2 = .any then [] else [insnAt start k + 8]) ++ [insnAt start k + 16]

/-! ## Running the loop -/

structure CopyResult where
  n : Word
  done : Bool
  deriving DecidableEq

def copyMin : Word := 4

/-- Device registers and CPU banks. -/
def hwLo : Word := 0x13e00000
def hwHi : Word := 0x14000000

def overlaps (a alen b blen : Word) : Bool := a < b + blen && b < a + alen

/-- How often the loop still runs with this counter. -/
def totalOf (c : Word) : Word :=
  if c.sle (-8) then (-8 - c) / 8 + 2 else 1

/-- Whether a page from the one of `first` to the one of `last` is marked. -/
def anyPage (pageMap : Word → Bool) (first last : Word) : Bool :=
  (List.range ((last >>> 12).toNat + 1 - (first >>> 12).toNat)).any fun k =>
    pageMap (first >>> 12 + BitVec.ofNat 64 k)

/-- Why `jit_copy` would leave the loop alone. -/
def refuses (size : MemSize) (pageMap : Word → Bool) (desc : Desc) (n s d : Word) : Bool :=
  let memSize := BitVec.ofNat 64 size.val
  let bytes := 8 * n
  n < copyMin ||
  (s > memSize || bytes > memSize - s || d > memSize || bytes > memSize - d) ||
  (d > s && d < s + bytes) ||
  [desc.t1, desc.t2, desc.s, desc.d, desc.c].any
    (fun v => overlaps s bytes v 8 || overlaps d bytes v 8) ||
  (overlaps d bytes desc.m 8 || overlaps s bytes desc.start (19 * 24) ||
    overlaps d bytes desc.start (19 * 24) || overlaps s bytes hwLo (hwHi - hwLo) ||
    overlaps d bytes hwLo (hwHi - hwLo)) ||
  anyPage pageMap d (d + bytes - 1)

/-- The variables and fields as the last iteration leaves them. -/
def writeVars (size : MemSize) (desc : Desc) (s d c bytes last : Word) (mem : Memory) :
    Option Memory := do
  let dl := d + bytes - 8
  let mem ← wr size mem desc.s (s + bytes)
  let mem ← wr size mem desc.d (d + bytes)
  let mem ← wr size mem desc.c (c + bytes)
  let mem ← wr size mem desc.t1 (-dl)
  let mem ← wr size mem desc.t2 (-last)
  let mem ← wr size mem (desc.start + 5 * 24) (s + bytes - 8)
  let mem ← wr size mem (desc.start + 14 * 24) dl
  let mem ← wr size mem (desc.start + 14 * 24 + 8) dl
  wr size mem (desc.start + 15 * 24 + 8) dl

/-- `jit_copy` with the copy it was given; `none` is a fault. -/
def jitCopy (size : MemSize) (pageMap : Word → Bool)
    (copyFn : Memory → Word → Word → Word → Memory) (desc : Desc) (budget : Word)
    (mem : Memory) : Option (CopyResult × Memory) := do
  let mv ← rd size mem desc.m
  if mv ≠ -8 then return (⟨0, false⟩, mem)
  let s ← rd size mem desc.s
  let d ← rd size mem desc.d
  let c ← rd size mem desc.c
  let total := totalOf c
  let n := if budget / 19 + 1 > total then total else budget / 19 + 1
  if refuses size pageMap desc n s d then return (⟨0, false⟩, mem)
  let bytes := 8 * n
  let last ← rd size mem (s + bytes - 8)
  let mem ← writeVars size desc s d c bytes last (copyFn mem d s bytes)
  return (⟨n, n = total⟩, mem)

end CopyLoop
end SubleqEmu
