import Mathlib.Data.Set.Card

/-!
# The walk over the MADT

The loop of `acpi_init` over the entries of the MADT.  Pointers into the table are
offsets from its start.
-/

namespace SubleqEmu
namespace Madt

/-- The table, and what lies behind it. -/
abbrev Table := ℕ → BitVec 8

def maxMadt : ℕ := 128

/-- The offset of `madt_entries_begin`. -/
def entriesBegin : ℕ := 44

/-- `madt->sdt.length` -/
def Table.length (t : Table) : ℕ :=
  (t 4).toNat + 2 ^ 8 * (t 5).toNat + 2 ^ 16 * (t 6).toNat + 2 ^ 24 * (t 7).toNat

/-- The entries that are kept: `local_apics`, `io_apics`, `isos` and `nmis`. -/
inductive Kind
  | localApic | ioApic | iso | nmi
  deriving DecidableEq

def kindOf (type : BitVec 8) : Option Kind :=
  match type with
  | 0 => some .localApic
  | 1 => some .ioApic
  | 2 => some .iso
  | 4 => some .nmi
  | _ => none

/-- `madt_ptr`, and the arrays as far as they are filled. -/
structure Walk where
  ptr : ℕ
  arrays : Kind → List ℕ

def Walk.start : Walk := ⟨entriesBegin, fun _ => []⟩

section Walk

variable (t : Table)

def Walk.store (s : Walk) (k : Kind) : Walk :=
  { s with arrays := Function.update s.arrays k (s.arrays k ++ [s.ptr]) }

/-- The body of the loop, and the step to the next entry. -/
def Walk.next (s : Walk) : Walk :=
  let s' := match kindOf (t s.ptr) with
    | some k => s.store k
    | none => s
  { s' with ptr := s.ptr + (t (s.ptr + 1)).toNat }

/-- The walk after at most `n` entries. -/
def walk : ℕ → Walk → Walk
  | 0, s => s
  | n + 1, s => if s.ptr < t.length then walk n (s.next t) else s

/-- The bytes that the condition of the loop and its body read. -/
def Walk.reads (s : Walk) : List ℕ :=
  [4, 5, 6, 7] ++ if s.ptr < t.length then [s.ptr, s.ptr + 1] else []

/-- Where the body stores to, if it does. -/
def Walk.storeIndex (s : Walk) : Option ℕ :=
  if s.ptr < t.length then (kindOf (t s.ptr)).map fun k => (s.arrays k).length else none

/-- The loop ends, within the table and the arrays. -/
structure Safe : Prop where
  ends : ∃ n, t.length ≤ (walk t n .start).ptr
  reads : ∀ n, ∀ r ∈ (walk t n .start).reads t, r < t.length
  stores : ∀ n, ∀ i ∈ (walk t n .start).storeIndex t, i < maxMadt

end Walk

end Madt
end SubleqEmu
