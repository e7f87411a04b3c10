import SubleqEmu.CopyLoopIteration
import SubleqEmu.TranslatorBlock

/-!
# The hash of a block's static fields

`translate_insn` hashes the fields that it marks static as it reads them, and
`static_hash` those of a block as they are in memory later.
-/

namespace SubleqEmu
namespace StaticHash

open ByteMemory Subleq
open CopyLoop (fieldAt insnAt)
open Translator (Source)

/-! ## Folds of injective steps -/

section Folds

variable {σ α : Type*} {step : σ → α → σ}

theorem foldl_injective (h : ∀ x, Function.Injective fun s => step s x) (l : List α) :
    Function.Injective fun s => l.foldl step s := by
  induction l with
  | nil => exact Function.injective_id
  | cons x l ih => exact ih.comp (h x)

/-- A fold tells if a single step was another one. -/
theorem foldl_ne {step' : σ → α → σ} (h : ∀ x, Function.Injective fun s => step s x)
    {l : List α} (hl : l.Nodup) {x : α} (hx : x ∈ l) (hne : ∀ s, step' s x ≠ step s x)
    (heq : ∀ y ∈ l, y ≠ x → ∀ s, step' s y = step s y) (s : σ) :
    l.foldl step' s ≠ l.foldl step s := by
  obtain ⟨before, after, rfl⟩ := List.append_of_mem hx
  have hnot := List.nodup_middle.mp hl
  have hsame : ∀ part : List α, (∀ y ∈ part, y ∈ before ++ x :: after ∧ y ≠ x) → ∀ s,
      part.foldl step' s = part.foldl step s := by
    intro part
    induction part with
    | nil => exact fun _ _ => rfl
    | cons y part ih =>
        intro hpart s
        obtain ⟨hy, hyx⟩ := hpart y List.mem_cons_self
        rw [List.foldl_cons, List.foldl_cons, heq y hy hyx]
        exact ih (fun z hz => hpart z (List.mem_cons_of_mem y hz)) _
  have hx' : x ∉ before ++ after := (List.nodup_cons.mp hnot).1
  rw [List.foldl_append, List.foldl_append, List.foldl_cons, List.foldl_cons,
    hsame before, hsame after]
  · exact fun hfold => hne _ (foldl_injective h after hfold)
  · intro y hy
    refine ⟨List.mem_append_right _ (List.mem_cons_of_mem x hy), ?_⟩
    rintro rfl
    exact hx' (List.mem_append_right _ hy)
  · intro y hy
    refine ⟨List.mem_append_left _ hy, ?_⟩
    rintro rfl
    exact hx' (List.mem_append_left _ hy)

end Folds

/-! ## The hash -/

def hashSeed : Word := 0x9e3779b97f4a7c15

def hashPrime : Word := 0x100000001b3

/-- `raw` is a field as a native load reads it. -/
def hashStep (h raw : Word) : Word := (h ^^^ raw) * hashPrime

/-- What `translate_insn` notes of a block's static fields. -/
structure Block where
  smask : ℕ → Word
  shash : Word

/-- `smask[bitno >> 6] |= 1ULL << (bitno & 63)` -/
def Block.mark (B : Block) (bitno : ℕ) : Block :=
  { B with
    smask := Function.update B.smask (bitno / 64)
      (B.smask (bitno / 64) ||| 1#64 <<< (bitno % 64)) }

def Block.marked (B : Block) (bitno : ℕ) : Bool :=
  (B.smask (bitno / 64)).getLsbD (bitno % 64)

/-- The block before its first instruction. -/
def Block.start : Block := ⟨fun _ => 0, hashSeed⟩

/-- Field `f` of the `i`-th instruction, at `p`. -/
def translateField (src : Source) (i : ℕ) (p : Word) (B : Block) (f : ℕ) : Block :=
  if src.dynamic (fieldAt p f) then B
  else ⟨(B.mark (i * 3 + f)).smask, hashStep B.shash (bswap (src.raw (fieldAt p f)))⟩

def translateFields (src : Source) (start : Word) (n : ℕ) : Block :=
  (List.range n).foldl (fun B i =>
    [0, 1, 2].foldl (translateField src i (insnAt start i)) B) .start

/-- `static_hash` of a block of `n` instructions at `start`. -/
def staticHash (mem : Memory) (start : Word) (n : ℕ) (B : Block) : Word :=
  (List.range (n * 3)).foldl (fun h f =>
    if B.marked f then hashStep h (bswap (read mem (fieldAt start f))) else h)
    hashSeed

variable {src : Source} {start p : Word} {n i j k : ℕ} {B : Block} {mem : Memory}

/-! ## Steps -/

theorem hashStep_injective (raw : Word) : Function.Injective fun h => hashStep h raw := by
  intro h h' heq
  -- the inverse of the prime
  have hinv : hashPrime * 0xce965057aff6957b = 1#64 := by decide
  have hmul := congrArg (· * (0xce965057aff6957b : Word)) heq
  simp only [hashStep, BitVec.mul_assoc, hinv] at hmul
  rw [BitVec.mul_one, BitVec.mul_one] at hmul
  exact (BitVec.xor_left_inj raw).mp hmul

theorem hashStep_ne {h raw raw' : Word} (hne : raw' ≠ raw) : hashStep h raw' ≠ hashStep h raw := by
  intro heq
  have hcomm : ∀ raw, hashStep h raw = hashStep raw h := fun raw => by
    rw [hashStep, hashStep, BitVec.xor_comm]
  rw [hcomm raw', hcomm raw] at heq
  exact hne (hashStep_injective h heq)

theorem marked_mark : (B.mark k).marked j = (B.marked j || decide (j = k)) := by
  show (Function.update B.smask (k / 64) (B.smask (k / 64) ||| 1#64 <<< (k % 64))
    (j / 64)).getLsbD (j % 64) = ((B.smask (j / 64)).getLsbD (j % 64) || decide (j = k))
  by_cases hword : j / 64 = k / 64
  · rw [hword, Function.update_self, BitVec.getLsbD_or, ← BitVec.twoPow_eq, BitVec.getLsbD_twoPow]
    have hlt : j % 64 < 64 := Nat.mod_lt _ (by decide)
    have heq : j = k ↔ k % 64 = j % 64 := by omega
    have hlt' : k % 64 < 64 := Nat.mod_lt _ (by decide)
    simp only [heq, hlt', decide_true, Bool.true_and]
  · rw [Function.update_of_ne hword]
    have hne : j ≠ k := by
      rintro rfl
      exact hword rfl
    simp [hne]

/-- The fields of a block one after the other. -/
def flatField (src : Source) (start : Word) (B : Block) (f : ℕ) : Block :=
  if src.dynamic (fieldAt start f) then B
  else ⟨(B.mark f).smask, hashStep B.shash (bswap (src.raw (fieldAt start f)))⟩

theorem translateFields_eq (src : Source) (start : Word) (n : ℕ) :
    translateFields src start n = (List.range (n * 3)).foldl (flatField src start) .start := by
  have hfield : ∀ i f B, translateField src i (insnAt start i) B f =
      flatField src start B (i * 3 + f) := by
    intro i f B
    have haddr : fieldAt (insnAt start i) f = fieldAt start (i * 3 + f) := by
      unfold fieldAt insnAt
      bv_omega
    rw [translateField, flatField, haddr]
  unfold translateFields
  induction n with
  | zero => rfl
  | succ n ih =>
      rw [List.range_succ, List.foldl_append, ih, Nat.succ_mul, List.range_succ, List.range_succ,
        List.range_succ, List.foldl_append, List.foldl_append, List.foldl_append]
      simp only [List.foldl_cons, List.foldl_nil, hfield]
      rfl

/-! ## The whole block -/

def isStatic (src : Source) (start : Word) (f : ℕ) : Bool :=
  !src.dynamic (fieldAt start f)

/-- A field of a block as the source had it. -/
def fieldHash (src : Source) (start : Word) (h : Word) (f : ℕ) : Word :=
  if isStatic src start f then
    hashStep h (bswap (src.raw (fieldAt start f)))
  else h

theorem fieldHash_injective (f : ℕ) :
    Function.Injective fun h => fieldHash src start h f := by
  unfold fieldHash
  split_ifs
  · exact hashStep_injective _
  · exact Function.injective_id

theorem flatFields_spec (src : Source) (start : Word) (m : ℕ) :
    ((List.range m).foldl (flatField src start) .start).shash =
        (List.range m).foldl (fieldHash src start) hashSeed ∧
      ∀ j, ((List.range m).foldl (flatField src start) .start).marked j =
        (decide (j < m) && isStatic src start j) := by
  induction m with
  | zero =>
      refine ⟨rfl, fun j => ?_⟩
      rw [Block.marked, Block.start]
      simp
  | succ m ih =>
      obtain ⟨hhash, hmarked⟩ := ih
      obtain ⟨B, hB⟩ : ∃ B, B = (List.range m).foldl (flatField src start) .start := ⟨_, rfl⟩
      rw [List.range_succ, List.foldl_append, List.foldl_append, List.foldl_cons, List.foldl_nil,
        List.foldl_cons, List.foldl_nil, ← hhash, ← hB]
      rw [← hB] at hmarked
      have hnext : ∀ j, decide (j < m + 1) = (decide (j < m) || decide (j = m)) := by
        intro j
        rw [← Bool.decide_or, decide_eq_decide]
        omega
      cases hstatic : isStatic src start m with
      | false =>
          have hflat : flatField src start B m = B := by
            rw [flatField, if_pos (by simpa [isStatic] using hstatic)]
          rw [hflat, fieldHash, hstatic, if_neg Bool.false_ne_true]
          refine ⟨rfl, fun j => ?_⟩
          rw [hmarked, hnext, Bool.and_or_distrib_right]
          by_cases hj : j = m
          · rw [hj, hstatic, Bool.and_false, Bool.and_false, Bool.or_false]
          · rw [decide_eq_false hj, Bool.false_and, Bool.or_false]
      | true =>
          have hflat : flatField src start B m = ⟨(B.mark m).smask,
              hashStep B.shash (bswap (src.raw (fieldAt start m)))⟩ := by
            rw [flatField, if_neg (by simpa [isStatic] using hstatic)]
          rw [hflat, fieldHash, hstatic, if_pos rfl]
          refine ⟨rfl, fun j => ?_⟩
          have hmark := marked_mark (B := B) (j := j) (k := m)
          rw [Block.marked] at hmark ⊢
          rw [hmark, hmarked, hnext, Bool.and_or_distrib_right]
          by_cases hj : j = m
          · rw [hj, hstatic, Bool.and_true, Bool.and_true]
          · rw [decide_eq_false hj, Bool.false_and]

/-- Recomputing goes over the same fields in the same order. -/
theorem staticHash_eq (src : Source) (start : Word) (n : ℕ) (mem : Memory) :
    staticHash mem start n (translateFields src start n) =
      (List.range (n * 3)).foldl (fieldHash { src with raw := read mem } start) hashSeed := by
  obtain ⟨-, hmarked⟩ := flatFields_spec src start (n * 3)
  rw [← translateFields_eq] at hmarked
  apply List.foldl_ext
  intro h f hf
  rw [hmarked, decide_eq_true (List.mem_range.mp hf), Bool.true_and]
  rfl

theorem shash_eq (src : Source) (start : Word) (n : ℕ) :
    (translateFields src start n).shash =
      (List.range (n * 3)).foldl (fieldHash src start) hashSeed := by
  rw [translateFields_eq, (flatFields_spec src start (n * 3)).1]

/-- Revalidation finds a block unchanged if its static fields are as they were translated,
and changed if a single one is not. -/
theorem staticHash_detects (src : Source) (start : Word) (n : ℕ) (mem : Memory) :
    ((∀ f < n * 3, isStatic src start f = true →
        read mem (fieldAt start f) = src.raw (fieldAt start f)) →
      staticHash mem start n (translateFields src start n) =
        (translateFields src start n).shash) ∧
    ∀ f < n * 3, isStatic src start f = true →
      read mem (fieldAt start f) ≠ src.raw (fieldAt start f) →
      (∀ g < n * 3, g ≠ f → isStatic src start g = true →
        read mem (fieldAt start g) = src.raw (fieldAt start g)) →
      staticHash mem start n (translateFields src start n) ≠
        (translateFields src start n).shash := by
  rw [staticHash_eq, shash_eq]
  have hsame : ∀ f, (isStatic src start f = true →
      read mem (fieldAt start f) = src.raw (fieldAt start f)) →
      ∀ h, fieldHash { src with raw := read mem } start h f = fieldHash src start h f := by
    intro f hf h
    unfold fieldHash
    show (if isStatic src start f then hashStep h (bswap (read mem (fieldAt start f))) else h) = _
    split_ifs with hstatic
    · rw [hf hstatic]
    · rfl
  constructor
  · intro hall
    apply List.foldl_ext
    intro h f hf
    exact hsame f (hall f (List.mem_range.mp hf)) h
  · intro f hf hstatic hne hothers
    apply foldl_ne (fun g => fieldHash_injective g) List.nodup_range (List.mem_range.mpr hf)
    · intro h
      unfold fieldHash
      show (if isStatic src start f then hashStep h (bswap (read mem (fieldAt start f)))
        else h) ≠ _
      rw [if_pos hstatic, if_pos hstatic]
      apply hashStep_ne
      intro hswap
      apply hne
      rw [← bswap_bswap (read mem _), hswap, bswap_bswap]
    · intro g hg hgf
      exact hsame g (hothers g (List.mem_range.mp hg) hgf)

end StaticHash
end SubleqEmu
