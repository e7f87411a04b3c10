import SubleqEmu.RingBuffer

/-!
# Dropping translated code on all CPUs

`smc_hit` on one CPU, down to its single reads and writes, with the queues it
fills for the others, `drain_queue`, and `translate` as far as it decides which
fields are static and marks them.  Words of Dawn's memory are numbered, as the
bits of the maps are.

Which word is hit and when, which instructions a block gets, which of its own
fields it writes and when a CPU drains or flushes is left open.
-/

namespace SubleqEmu
namespace Invalidation

def queueLen : ℕ := 1024
def jitMaxBlock : ℕ := 64

/-! ## Blocks -/

/-- A translated block of `n` instructions, and the words baked in: its fields
that were taken as static. -/
structure Block where
  start : ℕ
  n : ℕ
  baked : List ℕ
  baked_covered : ∀ w ∈ baked, start ≤ w ∧ w < start + 3 * n

/-- An instruction of the block has the word, as `invalidate_word` looks for. -/
def Block.Covers (b : Block) (w : ℕ) : Prop := b.start ≤ w ∧ w < b.start + 3 * b.n

instance (b : Block) (w : ℕ) : Decidable (b.Covers w) := inferInstanceAs (Decidable (_ ∧ _))

def invalidateWord (w : ℕ) (table : List Block) : List Block :=
  table.filter fun b => ¬ b.Covers w

/-- `translate` before its `n`-th instruction is done. -/
structure Translation where
  start : ℕ
  n : ℕ
  /-- the fields that the block writes itself, by their index in it -/
  written : ℕ → Bool
  baked : List ℕ
  baked_covered : ∀ w ∈ baked, start ≤ w ∧ w < start + 3 * (n + 1)
  baked_unwritten : ∀ w ∈ baked, written (w - start) = false

namespace Translation

def begin (start : ℕ) (written : ℕ → Bool) : Translation where
  start := start
  n := 0
  written := written
  baked := []
  baked_covered _ hw := absurd hw List.not_mem_nil
  baked_unwritten _ hw := absurd hw List.not_mem_nil

/-- The word of field `f` of the instruction. -/
def word (t : Translation) (f : ℕ) : ℕ := t.start + 3 * t.n + f

/-- `is_dynamic` -/
def isDynamic (t : Translation) (dynMap : ℕ → Bool) (w : ℕ) : Bool :=
  dynMap w || t.written (w - t.start)

def bake (t : Translation) (f : ℕ) (hf : f < 3) (hw : t.written (t.word f - t.start) = false) :
    Translation where
  start := t.start
  n := t.n
  written := t.written
  baked := t.word f :: t.baked
  baked_covered w h := by
    rcases List.mem_cons.mp h with rfl | h
    · unfold word
      omega
    · exact t.baked_covered w h
  baked_unwritten w h := by
    rcases List.mem_cons.mp h with rfl | h
    · exact hw
    · exact t.baked_unwritten w h

def nextInsn (t : Translation) : Translation where
  start := t.start
  n := t.n + 1
  written := t.written
  baked := t.baked
  baked_covered w h := by
    have hcovered := t.baked_covered w h
    omega
  baked_unwritten := t.baked_unwritten

def block (t : Translation) : Block where
  start := t.start
  n := t.n + 1
  baked := t.baked
  baked_covered := t.baked_covered

end Translation

/-! ## CPUs -/

/-- Where `smc_hit` is in the push of its word to another CPU's queue. -/
inductive Push
  | lock
  /-- before the head is compared with the next tail -/
  | test
  | full
  | slot
  | publish
  | unlock
  deriving DecidableEq

/-- Where `smc_hit` is. -/
inductive Hit (n : ℕ)
  | setDyn
  | clearStatic
  | dropOwn
  /-- at the top of its loop -/
  | next (k : ℕ)
  | push (o : Fin n) (at_ : Push)

/-- Where `drain_queue` is. -/
inductive Drain
  /-- before the flag is read -/
  | test
  | lock
  | clear
  | rewind
  | unlock
  | flush
  /-- before the head is compared with the tail -/
  | next
  | drop (w : ℕ)
  | advance (w : ℕ)

/-- Where `translate_insn` is with the fields of an instruction.  It asks twice
whether each is dynamic: the first answers say what is baked in, the second
which words are marked. -/
inductive Phase
  | classify (f : ℕ)
  | mark (f : ℕ)
  | setBit (f : ℕ)

inductive Point (n : ℕ)
  /-- outside of `jit_run`, in its dispatcher, or in a block -/
  | free
  | drain (d : Drain)
  | hit (w : ℕ) (h : Hit n)
  | translate (t : Translation) (phase : Phase)

structure State (n : ℕ) where
  dynMap : ℕ → Bool
  staticMap : ℕ → Bool
  queue : Fin n → Ring ℕ queueLen
  qoverflow : Fin n → Bool
  /-- who has the lock of each queue -/
  qlock : Fin n → Option (Fin n)
  /-- each CPU's valid blocks -/
  table : Fin n → List Block
  point : Fin n → Point n
  /-- the words pushed to each CPU so far -/
  pushed : Fin n → List ℕ

/-! ## Steps -/

section Steps

variable {n : ℕ}

def State.goTo (s : State n) (c : Fin n) (p : Point n) : State n :=
  { s with point := Function.update s.point c p }

def State.setQueue (s : State n) (o : Fin n) (r : Ring ℕ queueLen) : State n :=
  { s with queue := Function.update s.queue o r }

def State.setOverflow (s : State n) (o : Fin n) (full : Bool) : State n :=
  { s with qoverflow := Function.update s.qoverflow o full }

def State.setLock (s : State n) (o : Fin n) (holder : Option (Fin n)) : State n :=
  { s with qlock := Function.update s.qlock o holder }

def State.setTable (s : State n) (c : Fin n) (table : List Block) : State n :=
  { s with table := Function.update s.table c table }

def State.notePush (s : State n) (o : Fin n) (w : ℕ) : State n :=
  { s with pushed := Function.update s.pushed o (w :: s.pushed o) }

/-- A step of CPU `c` from where it is. -/
inductive StepFrom (c : Fin n) (s : State n) : Point n → State n → Prop
  | drain : StepFrom c s .free (s.goTo c (.drain .test))
  | hit (w : ℕ) : StepFrom c s .free (s.goTo c (.hit w .setDyn))
  | translate (start : ℕ) (written : ℕ → Bool) (flush : Bool) :
      StepFrom c s .free ((s.setTable c (if flush then [] else s.table c)).goTo c
        (.translate (.begin start written) (.classify 0)))
  -- `drain_queue`
  | overflowed (h : s.qoverflow c = true) :
      StepFrom c s (.drain .test) (s.goTo c (.drain .lock))
  | notOverflowed (h : s.qoverflow c = false) :
      StepFrom c s (.drain .test) (s.goTo c (.drain .next))
  | lockOwn (h : s.qlock c = none) :
      StepFrom c s (.drain .lock) ((s.setLock c (some c)).goTo c (.drain .clear))
  | clear : StepFrom c s (.drain .clear) ((s.setOverflow c false).goTo c (.drain .rewind))
  | rewind :
      StepFrom c s (.drain .rewind) ((s.setQueue c (s.queue c).clear).goTo c (.drain .unlock))
  | unlockOwn : StepFrom c s (.drain .unlock) ((s.setLock c none).goTo c (.drain .flush))
  | flush : StepFrom c s (.drain .flush) ((s.setTable c []).goTo c .free)
  | drained (h : (s.queue c).isEmpty = true) : StepFrom c s (.drain .next) (s.goTo c .free)
  | take (h : (s.queue c).isEmpty = false) :
      StepFrom c s (.drain .next) (s.goTo c (.drain (.drop (s.queue c).front)))
  | drop {w : ℕ} :
      StepFrom c s (.drain (.drop w))
        ((s.setTable c (invalidateWord w (s.table c))).goTo c (.drain (.advance w)))
  | advance {w : ℕ} :
      StepFrom c s (.drain (.advance w)) ((s.setQueue c (s.queue c).pop).goTo c (.drain .next))
  -- `smc_hit`
  | setDyn {w : ℕ} :
      StepFrom c s (.hit w .setDyn)
        { s.goTo c (.hit w .clearStatic) with dynMap := Function.update s.dynMap w true }
  | clearStatic {w : ℕ} :
      StepFrom c s (.hit w .clearStatic)
        { s.goTo c (.hit w .dropOwn) with staticMap := Function.update s.staticMap w false }
  | dropOwn {w : ℕ} :
      StepFrom c s (.hit w .dropOwn)
        ((s.setTable c (invalidateWord w (s.table c))).goTo c (.hit w (.next 0)))
  | finished {w k : ℕ} (h : n ≤ k) : StepFrom c s (.hit w (.next k)) (s.goTo c .free)
  | skip {w : ℕ} :
      StepFrom c s (.hit w (.next c.val)) (s.goTo c (.hit w (.next (c.val + 1))))
  | turn {w : ℕ} (o : Fin n) (h : o ≠ c) :
      StepFrom c s (.hit w (.next o.val)) (s.goTo c (.hit w (.push o .lock)))
  | lock {w : ℕ} {o : Fin n} (h : s.qlock o = none) :
      StepFrom c s (.hit w (.push o .lock))
        ((s.setLock o (some c)).goTo c (.hit w (.push o .test)))
  | testFull {w : ℕ} {o : Fin n} (h : (s.queue o).isFull = true) :
      StepFrom c s (.hit w (.push o .test)) (s.goTo c (.hit w (.push o .full)))
  | testRoom {w : ℕ} {o : Fin n} (h : (s.queue o).isFull = false) :
      StepFrom c s (.hit w (.push o .test)) (s.goTo c (.hit w (.push o .slot)))
  | full {w : ℕ} {o : Fin n} :
      StepFrom c s (.hit w (.push o .full))
        (((s.setOverflow o true).notePush o w).goTo c (.hit w (.push o .unlock)))
  | slot {w : ℕ} {o : Fin n} :
      StepFrom c s (.hit w (.push o .slot))
        ((s.setQueue o ((s.queue o).store w)).goTo c (.hit w (.push o .publish)))
  | publish {w : ℕ} {o : Fin n} :
      StepFrom c s (.hit w (.push o .publish))
        (((s.setQueue o (s.queue o).advanceTail).notePush o w).goTo c (.hit w (.push o .unlock)))
  | unlock {w : ℕ} {o : Fin n} :
      StepFrom c s (.hit w (.push o .unlock))
        ((s.setLock o none).goTo c (.hit w (.next (o.val + 1))))
  -- `translate_insn` on its fields
  | dynamic {t : Translation} {f : ℕ} (hf : f < 3) (h : t.isDynamic s.dynMap (t.word f) = true) :
      StepFrom c s (.translate t (.classify f)) (s.goTo c (.translate t (.classify (f + 1))))
  | static {t : Translation} {f : ℕ} (hf : f < 3) (h : s.dynMap (t.word f) = false)
      (hw : t.written (t.word f - t.start) = false) :
      StepFrom c s (.translate t (.classify f))
        (s.goTo c (.translate (t.bake f hf hw) (.classify (f + 1))))
  | classified {t : Translation} :
      StepFrom c s (.translate t (.classify 3)) (s.goTo c (.translate t (.mark 0)))
  | noMark {t : Translation} {f : ℕ} (hf : f < 3) (h : t.isDynamic s.dynMap (t.word f) = true) :
      StepFrom c s (.translate t (.mark f)) (s.goTo c (.translate t (.mark (f + 1))))
  | mark {t : Translation} {f : ℕ} (hf : f < 3) (h : t.isDynamic s.dynMap (t.word f) = false) :
      StepFrom c s (.translate t (.mark f)) (s.goTo c (.translate t (.setBit f)))
  | setBit {t : Translation} {f : ℕ} :
      StepFrom c s (.translate t (.setBit f))
        { s.goTo c (.translate t (.mark (f + 1))) with
          staticMap := Function.update s.staticMap (t.word f) true }
  | more {t : Translation} (h : t.n + 1 < jitMaxBlock) :
      StepFrom c s (.translate t (.mark 3)) (s.goTo c (.translate t.nextInsn (.classify 0)))
  | insert {t : Translation} :
      StepFrom c s (.translate t (.mark 3))
        ((s.setTable c (t.block :: s.table c)).goTo c .free)

def Step (c : Fin n) (s s' : State n) : Prop := StepFrom c s (s.point c) s'

def Next (s s' : State n) : Prop := ∃ c, Step c s s'

/-- `jit_init` -/
structure Initial (s : State n) : Prop where
  dynMap : ∀ w, s.dynMap w = false
  staticMap : ∀ w, s.staticMap w = false
  queue : ∀ o, (s.queue o).toList = []
  qoverflow : ∀ o, s.qoverflow o = false
  qlock : ∀ o, s.qlock o = none
  table : ∀ o, s.table o = []
  point : ∀ c, s.point c = .free
  pushed : ∀ o, s.pushed o = []

def Reachable (s : State n) : Prop := ∃ s₀, Initial s₀ ∧ Relation.ReflTransGen Next s₀ s

end Steps

end Invalidation
end SubleqEmu
