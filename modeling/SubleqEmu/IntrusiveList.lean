import Mathlib.Data.List.Nodup
import Mathlib.Logic.Function.Basic

/-!
# Lists through the records themselves

Records are numbered, and `next` gives the record that each one points to.  A head
stands for the list of the records that following the pointers visits.
-/

namespace IntrusiveList

variable {next next' : ℕ → Option ℕ} {head : Option ℕ} {l : List ℕ} {x : ℕ}

/-- Following the pointers from the head visits the records of the list and ends. -/
def Chain (next : ℕ → Option ℕ) : Option ℕ → List ℕ → Prop
  | head, [] => head = none
  | head, x :: l => head = some x ∧ Chain next (next x) l

/-- The records that a loop over the pointers visits, at most `fuel` of them. -/
def walk (next : ℕ → Option ℕ) : (fuel : ℕ) → Option ℕ → List ℕ
  | 0, _ => []
  | _, none => []
  | fuel + 1, some x => x :: walk next fuel (next x)

theorem chain_nil_iff : Chain next head [] ↔ head = none := Iff.rfl

theorem Chain.walk {fuel : ℕ} (h : Chain next head l) (hle : l.length ≤ fuel) :
    walk next fuel head = l := by
  induction l generalizing head fuel with
  | nil =>
      rw [chain_nil_iff.mp h]
      cases fuel <;> rfl
  | cons x l ih =>
      obtain ⟨rfl, hrest⟩ := h
      cases fuel with
      | zero => exact absurd hle (Nat.not_succ_le_zero _)
      | succ fuel =>
          rw [IntrusiveList.walk, ih hrest (Nat.le_of_succ_le_succ hle)]

theorem Chain.unique {l' : List ℕ} (h : Chain next head l) (h' : Chain next head l') :
    l = l' := by
  have hwalk := h.walk (Nat.le_max_left l.length l'.length)
  rw [← hwalk]
  exact h'.walk (Nat.le_max_right l.length l'.length)

/-- The rest of a list from one of its records on. -/
theorem Chain.drop {l l' : List ℕ} (h : Chain next head (l ++ x :: l')) :
    Chain next (some x) (x :: l') := by
  induction l generalizing head with
  | nil =>
      obtain ⟨rfl, hrest⟩ := h
      exact ⟨rfl, hrest⟩
  | cons y l ih => exact ih h.2

/-- A list that ends visits no record twice. -/
theorem Chain.nodup (h : Chain next head l) : l.Nodup := by
  induction l generalizing head with
  | nil => exact List.nodup_nil
  | cons x l ih =>
      rw [List.nodup_cons]
      refine ⟨fun hmem => ?_, ih h.2⟩
      obtain ⟨l₁, l₂, rfl⟩ := List.append_of_mem hmem
      obtain ⟨rfl, hrest⟩ := h
      have hlater : Chain next (some x) (x :: l₂) := hrest.drop
      have heq := hlater.2.unique hrest
      have hlength := congrArg List.length heq
      rw [List.length_append, List.length_cons] at hlength
      omega

theorem Chain.congr (h : Chain next head l) (hsame : ∀ x ∈ l, next' x = next x) :
    Chain next' head l := by
  induction l generalizing head with
  | nil => exact h
  | cons x l ih =>
      refine ⟨h.1, ?_⟩
      rw [hsame x List.mem_cons_self]
      exact ih h.2 fun y hy => hsame y (List.mem_cons_of_mem _ hy)

/-- A record put in front. -/
theorem Chain.push (h : Chain next head l) (hx : x ∉ l) :
    Chain (Function.update next x head) (some x) (x :: l) := by
  refine ⟨rfl, ?_⟩
  rw [Function.update_self]
  apply h.congr
  intro y hy
  rw [Function.update_of_ne]
  rintro rfl
  exact hx hy

/-! ## Taking a record out -/

/--
Where the pointer to a record is, from a pointer and what it holds on: `none` is the
head, and `some y` the pointer of record `y`.
-/
def seek (next : ℕ → Option ℕ) (x : ℕ) : (fuel : ℕ) → (slot cur : Option ℕ) → Option ℕ × Option ℕ
  | 0, slot, cur => (slot, cur)
  | _, slot, none => (slot, none)
  | fuel + 1, slot, some y =>
      if y = x then (slot, some y) else seek next x fuel (some y) (next y)

def writeHead (slot value head : Option ℕ) : Option ℕ :=
  if slot = none then value else head

def writeNext (slot value : Option ℕ) (next : ℕ → Option ℕ) : ℕ → Option ℕ :=
  match slot with
  | none => next
  | some y => Function.update next y value

theorem writeNext_of_ne {slot value : Option ℕ} {y : ℕ} (h : slot ≠ some y) :
    writeNext slot value next y = next y := by
  cases slot with
  | none => rfl
  | some z => exact Function.update_of_ne (fun heq => h (congrArg some heq.symm)) _ _

/-- The pointer to a record is found, and writing the next record there takes it out. -/
theorem Chain.seek {fuel : ℕ} {slot : Option ℕ} (h : Chain next head l) (hx : x ∈ l)
    (hle : l.length ≤ fuel) (hslot : ∀ y ∈ l, slot ≠ some y) :
    ∃ s, seek next x fuel slot head = (s, some x) ∧ (s = slot ∨ ∃ y ∈ l, s = some y) ∧
      Chain (writeNext s (next x) next) (if s = slot then next x else head) (l.erase x) := by
  induction l generalizing head slot fuel with
  | nil => exact absurd hx List.not_mem_nil
  | cons y l ih =>
      have hnodup := h.nodup
      obtain ⟨rfl, hrest⟩ := h
      cases fuel with
      | zero => exact absurd hle (Nat.not_succ_le_zero _)
      | succ fuel =>
          rw [IntrusiveList.seek]
          by_cases heq : y = x
          · subst heq
            refine ⟨slot, if_pos rfl, Or.inl rfl, ?_⟩
            rw [if_pos rfl, List.erase_cons_head]
            apply hrest.congr
            intro z hz
            exact writeNext_of_ne (hslot z (List.mem_cons_of_mem _ hz))
          · have hmem : x ∈ l := (List.mem_cons.mp hx).resolve_left (Ne.symm heq)
            have hfresh : ∀ z ∈ l, some y ≠ some z := by
              intro z hz hyz
              rw [Option.some.inj hyz] at hnodup
              exact (List.nodup_cons.mp hnodup).1 hz
            obtain ⟨s, hseek, hs, hchain⟩ :=
              ih hrest hmem (Nat.le_of_succ_le_succ hle) hfresh
            have hlater : ∃ z ∈ y :: l, s = some z := by
              rcases hs with rfl | ⟨z, hz, rfl⟩
              · exact ⟨y, List.mem_cons_self, rfl⟩
              · exact ⟨z, List.mem_cons_of_mem _ hz, rfl⟩
            have hne : s ≠ slot := by
              rintro rfl
              obtain ⟨z, hz, hsome⟩ := hlater
              exact hslot z hz hsome
            refine ⟨s, by rw [if_neg heq, hseek], Or.inr hlater, ?_⟩
            rw [if_neg hne, List.erase_cons_tail (by simpa using heq)]
            refine ⟨rfl, ?_⟩
            have hnext : writeNext s (next x) next y = if s = some y then next x else next y := by
              split_ifs with hsome
              · rw [hsome]
                exact Function.update_self _ _ _
              · exact writeNext_of_ne hsome
            rw [hnext]
            exact hchain

/-- Taking out a record of the list at a head. -/
theorem Chain.unlink {fuel : ℕ} (h : Chain next head l) (hx : x ∈ l) (hle : l.length ≤ fuel) :
    ∃ s, IntrusiveList.seek next x fuel none head = (s, some x) ∧
      Chain (writeNext s (next x) next) (writeHead s (next x) head) (l.erase x) ∧
      ∀ y, y ∉ l → writeNext s (next x) next y = next y := by
  have hslot : ∀ y ∈ l, none ≠ some y := by simp
  obtain ⟨s, hseek, hs, hchain⟩ := h.seek hx hle hslot
  refine ⟨s, hseek, hchain, fun y hy => writeNext_of_ne ?_⟩
  rintro rfl
  rcases hs with hs | ⟨z, hz, hs⟩
  · exact absurd hs nofun
  · rw [Option.some.inj hs] at hy
    exact hy hz

end IntrusiveList
