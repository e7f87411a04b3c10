import SubleqEmu.TranslatorBlock

/-!
# The words of a block

`translate` as far as it decides which fields of a block are static: its pass over the
instructions before it emits any, and the marks that `translate_insn` makes.
-/

namespace SubleqEmu
namespace CopyGuard

open ByteMemory Emitter Subleq CopyLoop
open Translator (Cache T Source translateInsn spannedWords)

theorem lawfulBEq_word : LawfulBEq Word := inferInstance

attribute [local instance] lawfulBEq_word

def jitMaxBlock : ℕ := 64

/-- What `translate` finds: memory, the bits of `dyn_map`, and where blocks start. -/
structure View where
  size : MemSize
  mem : Memory
  dynMap : Word → Bool
  found : Word → Bool

section Extent

variable (v : View)

def View.memSize : Word := BitVec.ofNat 64 v.size.val

/-- The words from `x` on below `last`; `none` if that takes more rounds. -/
def wordsBelow (last : Word) : ℕ → Word → Option (List Word)
  | 0, _ => none
  | rounds + 1, x =>
      if x < last then (wordsBelow last rounds (x + 8)).map (x :: ·) else some []

/-- `for (x = b & ~7; x < b + 8; x += 8)`, which ends in its third test or never. -/
def touchedWords (b : Word) : Option (List Word) := wordsBelow (b + 8) 3 (b &&& ~~~7#64)

def Touches (b a : Word) : Prop := ∃ words, touchedWords b = some words ∧ a ∈ words

/-- Whether `a` is one of the fields that a block at `start` may have. -/
def inBlock (start a : Word) : Bool :=
  a ≥ start && a < start + 24 * BitVec.ofNat 64 jitMaxBlock

/-- The fields marked as written for a static B, by their index in the block. -/
def markWritten (start b : Word) (written : Word → Bool) : Option (Word → Bool) :=
  (touchedWords b).map fun words k =>
    written k || words.any fun x => inBlock start x && (x - start) >>> 3 = k

/-- How many instructions the block gets, at most `limit` more, and which of its own
fields it writes; `none` if the loop for a static B never ends. -/
def extent (copy : Bool) (start : Word) : ℕ → ℕ → (Word → Bool) → Option (ℕ × (Word → Bool))
  | 0, n, written => some (n, written)
  | limit + 1, n, written =>
      let p := insnAt start n
      if ¬ p + 24 ≤ v.memSize ∨ (p ≠ start ∧ !copy ∧ v.found p) then some (n, written)
      else
        let a := read v.mem p
        let b := read v.mem (p + 8)
        let c := read v.mem (p + 16)
        let dyn := v.dynMap (p >>> 3) || v.dynMap ((p + 8) >>> 3) || v.dynMap ((p + 16) >>> 3)
        (if v.dynMap ((p + 8) >>> 3) then some written else markWritten start b written).bind
          fun written =>
            if !dyn ∧ a = b ∧ c ≠ p + 24 then some (n + 1, written)
            else extent copy start limit (n + 1) written

def extentOf (start : Word) : Option (ℕ × (Word → Bool)) :=
  let desc := matchCopy v.size v.dynMap v.mem start
  extent v desc.isSome start (if desc.isSome then 19 else jitMaxBlock) 0 fun _ => false

def isDynamic (written : Word → Bool) (start a : Word) : Bool :=
  v.dynMap (a >>> 3) || (inBlock start a && written ((a - start) >>> 3))

/-- The words stored to through static addresses. -/
def hoistList (written : Word → Bool) (start : Word) (n : ℕ) : List Word :=
  (List.range n).foldl (fun hoist k =>
    let p := insnAt start k
    if isDynamic v written start (p + 8) then hoist
    else (spannedWords v.size (read v.mem (p + 8))).foldl
      (fun hoist w => if w ∈ hoist then hoist else hoist ++ [w]) hoist) []

/-- What `translate` reads, and how it classifies the fields, after its pass. -/
def sourceOf (start : Word) (n : ℕ) (written : Word → Bool) : Source where
  size := v.size
  raw := read v.mem
  dynamic := isDynamic v written start
  hoist := hoistList v written start n

end Extent

/-- The static mask of a block, with the maps that all blocks share. -/
structure Marks where
  smask : ℕ → Bool
  staticMap : Word → Bool
  pageMap : Word → Bool

def Marks.markStatic (M : Marks) (w : Word) : Marks :=
  let pg := (w <<< 3) >>> 12
  { M with
    staticMap := Function.update M.staticMap w true
    pageMap := fun k => M.pageMap k || k = pg || (pg ≠ 0 && k = pg - 1) }

/-- Field `f` of the `i`-th instruction, at `p`. -/
def Marks.field (M : Marks) (i : ℕ) (p : Word) (f : ℕ) : Marks :=
  { M with smask := Function.update M.smask (i * 3 + f) true }.markStatic
    (p >>> 3 + BitVec.ofNat 64 f)

/-- The fields marked static for the `i`-th instruction. -/
def Marks.insn (M : Marks) (src : Source) (i : ℕ) (p : Word) : Marks :=
  [0, 1, 2].foldl (fun M f =>
    if src.dynamic (p + 8 * BitVec.ofNat 64 f) then M else M.field i p f) M

/-- The instructions from the `i`-th on; how many there are then. -/
def translateMarked (src : Source) (start : Word) (M : Marks) (i : ℕ) : ℕ → T (ℕ × Marks)
  | 0 => return (i, M)
  | k + 1 => do
      let p := insnAt start i
      let ended ← translateInsn src i p
      if ended then return (i + 1, M.insn src i p)
      else translateMarked src start (M.insn src i p) (i + 1) k

/-- A block: the loop that its call of `jit_copy` is for, if it has one, how many
instructions it has, its marks, and what they were made from. -/
structure Translation where
  copy : Option Desc
  n : ℕ
  marks : Marks
  src : Source

/-- `translate`, from the maps as they are and an empty cache; `none` also where its pass
never ends or `scratch` finds no register. -/
def translate (v : View) (M : Marks) (J : Cache) (start : Word) : Option Translation :=
  if start &&& 7 ≠ 0 ∨ start + 24 > v.memSize then none
  else
    let desc := matchCopy v.size v.dynMap v.mem start
    (extentOf v start).bind fun (n, written) =>
      let src := sourceOf v start n written
      (translateMarked src start { M with smask := fun _ => false } 0 n J).map fun r =>
        ⟨if n = 19 then desc else none, r.1.1, r.1.2, src⟩

end CopyGuard
end SubleqEmu
