import SubleqEmu.ByteMemory

/-!
# The interpreter

One instruction of the interpreters: `interp_step` of the translator, and the
`interp_cycle` of `subleq_interp` at the level of its flags.
-/

namespace SubleqEmu
namespace Subleq

open ByteMemory

abbrev Word := BitVec 64

/-- The size of Dawn's memory, which starts at address 0 in the lower half of the
address space. -/
structure MemSize where
  val : ℕ
  le : val ≤ 2 ^ 47

/-- Whether the word is in memory; an access to another one faults. -/
def MemSize.Holds (size : MemSize) (a : Word) : Prop := a.toNat + 8 ≤ size.val

instance (size : MemSize) (a : Word) : Decidable (size.Holds a) :=
  inferInstanceAs (Decidable (_ ≤ _))

def rd (size : MemSize) (m : Memory) (a : Word) : Option Word :=
  if size.Holds a then some (read m a) else none

def wr (size : MemSize) (m : Memory) (a v : Word) : Option Memory :=
  if size.Holds a then some (write m a v) else none

theorem rd_eq_some {size : MemSize} {m : Memory} {a v : Word} :
    rd size m a = some v ↔ size.Holds a ∧ read m a = v := by
  unfold rd
  split_ifs with h <;> simp [h]

theorem wr_eq_some {size : MemSize} {m m' : Memory} {a v : Word} :
    wr size m a v = some m' ↔ size.Holds a ∧ write m a v = m' := by
  unfold wr
  split_ifs with h <;> simp [h]

/-- `interp_step` but for the check of the store; `none` is a fault. -/
def interpStep (size : MemSize) (m : Memory) (eip : Word) : Option (Memory × Word) := do
  let a ← rd size m eip
  let b ← rd size m (eip + 8)
  let c ← rd size m (eip + 16)
  let va ← rd size m a
  let vb ← rd size m b
  let m ← wr size m b (vb - va)
  return (m, if vb.sle va then c else eip + 24)

def interpRun (size : MemSize) : ℕ → Memory × Word → Option (Memory × Word)
  | 0, s => some s
  | n + 1, s => (interpStep size s.1 s.2).bind (interpRun size n)

theorem interpRun_one (size : MemSize) (s : Memory × Word) :
    interpRun size 1 s = interpStep size s.1 s.2 := by
  rw [interpRun]
  cases interpStep size s.1 s.2 <;> rfl

theorem interpRun_add (size : MemSize) (k n : ℕ) (s : Memory × Word) :
    interpRun size (k + n) s = (interpRun size k s).bind (interpRun size n) := by
  induction k generalizing s with
  | zero =>
      rw [Nat.zero_add]
      rfl
  | succ k ih =>
      rw [Nat.succ_add, interpRun, interpRun]
      cases interpStep size s.1 s.2 with
      | none => rfl
      | some s' => exact ih s'

theorem interpRun_trans {size : MemSize} {k n : ℕ} {s s' s'' : Memory × Word}
    (h : interpRun size k s = some s') (h' : interpRun size n s' = some s'') :
    interpRun size (k + n) s = some s'' := by
  rw [interpRun_add, h, Option.bind_some, h']

end Subleq
end SubleqEmu
