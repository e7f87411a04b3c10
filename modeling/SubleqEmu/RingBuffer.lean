import Mathlib.Tactic

/-!
# Ring buffers

A buffer of `len` slots with a head and a tail, of which one slot stays free.
Its contents, from the head to the tail, are a queue: `push` appends to them,
`pop` takes their first element off, `clear` drops them all.
-/

namespace SubleqEmu

/-- A ring of `len` slots; the indices stay below `len`. -/
structure Ring (α : Type) (len : ℕ) where
  slots : ℕ → α
  head : ℕ
  tail : ℕ
  head_lt : head < len
  tail_lt : tail < len

namespace Ring

variable {α : Type} {len : ℕ}

def empty (slots : ℕ → α) (hlen : 0 < len) : Ring α len := ⟨slots, 0, 0, hlen, hlen⟩

def isEmpty (r : Ring α len) : Bool := decide (r.head = r.tail)
def isFull (r : Ring α len) : Bool := decide ((r.tail + 1) % len = r.head)
def front (r : Ring α len) : α := r.slots r.head

/-- Write a value to the slot at the tail, which stays where it is. -/
def store (r : Ring α len) (x : α) : Ring α len :=
  { r with slots := Function.update r.slots r.tail x }

def advanceTail (r : Ring α len) : Ring α len :=
  { r with
    tail := (r.tail + 1) % len
    tail_lt := Nat.mod_lt _ (Nat.zero_lt_of_lt r.tail_lt) }

def push (r : Ring α len) (x : α) : Ring α len := (r.store x).advanceTail

def pop (r : Ring α len) : Ring α len :=
  { r with
    head := (r.head + 1) % len
    head_lt := Nat.mod_lt _ (Nat.zero_lt_of_lt r.head_lt) }

def clear (r : Ring α len) : Ring α len := { r with head := r.tail, head_lt := r.tail_lt }

/-- The number of slots in use. -/
def length (r : Ring α len) : ℕ := (r.tail + len - r.head) % len

def toList (r : Ring α len) : List α :=
  (List.range r.length).map fun k => r.slots ((r.head + k) % len)

@[simp] theorem length_toList (r : Ring α len) : r.toList.length = r.length := by
  simp [toList]

theorem length_lt (r : Ring α len) : r.length < len :=
  Nat.mod_lt _ (Nat.zero_lt_of_lt r.head_lt)

/-- The length without the wrap-around. -/
theorem length_eq (r : Ring α len) :
    r.length = if r.head ≤ r.tail then r.tail - r.head else r.tail + len - r.head := by
  have hhead := r.head_lt
  have htail := r.tail_lt
  unfold length
  split_ifs with hle
  · rw [Nat.add_comm, Nat.add_sub_assoc hle, Nat.add_mod_left, Nat.mod_eq_of_lt (by omega)]
  · exact Nat.mod_eq_of_lt (by omega)

/-- The index after another. -/
theorem succ_mod_eq {i : ℕ} (hi : i < len) :
    (i + 1) % len = if i + 1 = len then 0 else i + 1 := by
  split_ifs with hlast
  · rw [hlast, Nat.mod_self]
  · exact Nat.mod_eq_of_lt (by omega)

theorem add_mod_eq {i k : ℕ} (hi : i < len) (hk : k < len) :
    (i + k) % len = if i + k < len then i + k else i + k - len := by
  split_ifs with hlt
  · exact Nat.mod_eq_of_lt hlt
  · rw [Nat.mod_eq_sub_mod (by omega), Nat.mod_eq_of_lt (by omega)]

theorem isEmpty_iff (r : Ring α len) : r.isEmpty = true ↔ r.toList = [] := by
  have hhead := r.head_lt
  have htail := r.tail_lt
  rw [isEmpty, decide_eq_true_iff, ← List.length_eq_zero_iff, length_toList, length_eq]
  split_ifs <;> omega

theorem isFull_iff (r : Ring α len) : r.isFull = true ↔ r.toList.length + 1 = len := by
  have hhead := r.head_lt
  have htail := r.tail_lt
  rw [isFull, decide_eq_true_iff, length_toList, length_eq, succ_mod_eq htail]
  split_ifs <;> omega

@[simp] theorem toList_empty (slots : ℕ → α) (hlen : 0 < len) :
    (empty slots hlen : Ring α len).toList = [] :=
  (isEmpty_iff _).mp (by simp [isEmpty, empty])

@[simp] theorem toList_clear (r : Ring α len) : r.clear.toList = [] :=
  (isEmpty_iff _).mp (by simp [isEmpty, clear])

/-- The slot at the tail is not in use. -/
theorem toList_store (r : Ring α len) (x : α) : (r.store x).toList = r.toList := by
  have hhead := r.head_lt
  have htail := r.tail_lt
  have hlt := r.length_lt
  have hlength : (r.store x).length = r.length := rfl
  unfold toList
  rw [hlength]
  refine List.map_congr_left ?_
  intro k hk
  rw [List.mem_range] at hk
  refine Function.update_of_ne ?_ _ _
  have heq := r.length_eq
  show (r.head + k) % len ≠ r.tail
  rw [add_mod_eq hhead (by omega)]
  split_ifs at heq ⊢ <;> omega

theorem toList_advanceTail (r : Ring α len) (hfull : r.isFull = false) :
    r.advanceTail.toList = r.toList ++ [r.slots r.tail] := by
  have hhead := r.head_lt
  have htail := r.tail_lt
  have hne : (r.tail + 1) % len ≠ r.head := by
    simpa [isFull] using hfull
  have hlength : r.advanceTail.length = r.length + 1 := by
    rw [length_eq, length_eq]
    rw [succ_mod_eq htail] at hne
    simp only [advanceTail, succ_mod_eq htail]
    split_ifs at hne ⊢ <;> omega
  have hlast : (r.head + r.length) % len = r.tail := by
    have heq := r.length_eq
    rw [add_mod_eq hhead r.length_lt]
    split_ifs at heq ⊢ <;> omega
  unfold toList
  rw [hlength, List.range_succ, List.map_append]
  simp only [advanceTail, List.map_cons, List.map_nil, hlast]

theorem toList_push (r : Ring α len) (x : α) (hfull : r.isFull = false) :
    (r.push x).toList = r.toList ++ [x] := by
  have hstored : (r.store x).isFull = false := hfull
  rw [push, toList_advanceTail _ hstored, toList_store]
  simp [store]

theorem toList_eq_front_cons (r : Ring α len) (hempty : r.isEmpty = false) :
    r.toList = r.front :: r.pop.toList := by
  have hhead := r.head_lt
  have htail := r.tail_lt
  have hne : r.head ≠ r.tail := by
    simpa [isEmpty] using hempty
  have hlength : r.length = r.pop.length + 1 := by
    rw [length_eq, length_eq]
    simp only [pop, succ_mod_eq hhead]
    split_ifs <;> omega
  unfold toList
  rw [hlength, List.range_succ_eq_map, List.map_cons, List.map_map]
  congr 1
  · simp only [front, Nat.add_zero, Nat.mod_eq_of_lt hhead]
  · refine List.map_congr_left ?_
    intro k _
    simp only [Function.comp, pop, Nat.mod_add_mod]
    congr 2
    omega

theorem isFull_pop (r : Ring α len) (hempty : r.isEmpty = false) : r.pop.isFull = false := by
  have hlength := congrArg List.length (r.toList_eq_front_cons hempty)
  have hlt := r.length_lt
  rw [length_toList, List.length_cons] at hlength
  rw [← Bool.not_eq_true, isFull_iff]
  omega

end Ring
end SubleqEmu
