import SubleqEmu.MadtModel

/-!
# Which tables the walk is safe on

The entries must have lengths, their first two bytes lie in the table, and there may
be no more of a kind than its array holds.
-/

namespace SubleqEmu
namespace Madt

variable {t : Table} {s : Walk} {k : Kind} {n o : ℕ}

/-- Where an entry starts, or where the table ends with the entries. -/
inductive EntryAt (t : Table) : ℕ → Prop
  | first : EntryAt t entriesBegin
  | next {o : ℕ} : EntryAt t o → o < t.length → EntryAt t (o + (t (o + 1)).toNat)

/-- The entries of a kind. -/
def entriesOf (t : Table) (k : Kind) : Set ℕ :=
  {o | EntryAt t o ∧ o < t.length ∧ kindOf (t o) = some k}

structure WellFormed (t : Table) : Prop where
  header : 8 ≤ t.length
  entries : ∀ o, EntryAt t o → o < t.length → o + 1 < t.length ∧ t (o + 1) ≠ 0
  count : ∀ k, (entriesOf t k).encard ≤ maxMadt

/-! ## Steps -/

theorem arrays_next (t : Table) (s : Walk) (k : Kind) :
    (s.next t).arrays k =
      if kindOf (t s.ptr) = some k then s.arrays k ++ [s.ptr] else s.arrays k := by
  unfold Walk.next Walk.store
  cases hkind : kindOf (t s.ptr) with
  | none => simp
  | some k' =>
      by_cases hk : k' = k
      · subst hk
        simp
      · simp [Ne.symm hk, hk]

theorem walk_succ (n : ℕ) (s : Walk) :
    walk t (n + 1) s =
      if (walk t n s).ptr < t.length then (walk t n s).next t else walk t n s := by
  induction n generalizing s with
  | zero => rfl
  | succ n ih =>
      rw [walk]
      split_ifs with hlt hnext hnext
      · rw [ih, walk, if_pos hlt]
        rw [walk, if_pos hlt] at hnext
        rw [if_pos hnext]
      · rw [ih, walk, if_pos hlt]
        rw [walk, if_pos hlt] at hnext
        rw [if_neg hnext]
      · rw [walk, if_neg hlt] at hnext
        exact absurd hnext hlt
      · rw [walk, if_neg hlt]

/-- What the walk has passed: the entries of a kind in the order of the table. -/
structure Walked (t : Table) (s : Walk) : Prop where
  entry : EntryAt t s.ptr
  passed : ∀ k, ∀ o ∈ s.arrays k, o ∈ entriesOf t k ∧ o ≤ s.ptr

theorem Walked.start : Walked t .start :=
  ⟨.first, fun _ _ h => absurd h List.not_mem_nil⟩

theorem Walked.next (h : Walked t s) (hlt : s.ptr < t.length) : Walked t (s.next t) := by
  refine ⟨h.entry.next hlt, fun k o ho => ?_⟩
  have hle : s.ptr ≤ (s.next t).ptr := Nat.le_add_right _ _
  rw [arrays_next] at ho
  have hold : ∀ o ∈ s.arrays k, o ∈ entriesOf t k ∧ o ≤ (s.next t).ptr :=
    fun o ho => ⟨(h.passed k o ho).1, (h.passed k o ho).2.trans hle⟩
  split_ifs at ho with hkind
  · rcases List.mem_append.mp ho with ho | ho
    · exact hold o ho
    · rw [List.mem_singleton.mp ho]
      exact ⟨⟨h.entry, hlt, hkind⟩, hle⟩
  · exact hold o ho

theorem walked (t : Table) (n : ℕ) : Walked t (walk t n .start) := by
  induction n with
  | zero => exact .start
  | succ n ih =>
      rw [walk_succ]
      split_ifs with hlt
      · exact ih.next hlt
      · exact ih

/-- Every entry is passed. -/
theorem exists_walk (h : EntryAt t o) : ∃ n, (walk t n .start).ptr = o := by
  induction h with
  | first => exact ⟨0, rfl⟩
  | next h hlt ih =>
      obtain ⟨n, rfl⟩ := ih
      refine ⟨n + 1, ?_⟩
      rw [walk_succ, if_pos hlt]
      rfl

theorem ptr_mono {n m : ℕ} (h : n ≤ m) : (walk t n .start).ptr ≤ (walk t m .start).ptr := by
  induction m, h using Nat.le_induction with
  | base => exact Nat.le_refl _
  | succ m _ ih =>
      apply ih.trans
      rw [walk_succ]
      split_ifs
      · exact Nat.le_add_right _ _
      · exact Nat.le_refl _

/-- No entry before the pointer has been missed. -/
theorem mem_arrays (ho : o ∈ entriesOf t k) (hlt : o < (walk t n .start).ptr) :
    o ∈ (walk t n .start).arrays k := by
  obtain ⟨hentry, hlength, hkind⟩ := ho
  obtain ⟨m, hm⟩ := exists_walk hentry
  induction n with
  | zero =>
      have hle := ptr_mono (t := t) (Nat.zero_le m)
      omega
  | succ n ih =>
      rw [walk_succ] at hlt ⊢
      split_ifs at hlt ⊢ with hgo
      · rw [arrays_next]
        rcases Nat.lt_trichotomy o (walk t n .start).ptr with hless | heq | hmore
        · have hmem := ih hless
          split_ifs
          · exact List.mem_append_left _ hmem
          · exact hmem
        · rw [← heq, if_pos hkind]
          simp
        · -- the next entry is past it
          rcases Nat.lt_or_ge n m with hnm | hmn
          · have hle := ptr_mono (t := t) (Nat.succ_le_of_lt hnm)
            rw [walk_succ, if_pos hgo, hm] at hle
            omega
          · have hle := ptr_mono (t := t) hmn
            omega
      · exact ih hlt

/-! ## Safe tables -/

theorem Safe.length_le (h : Safe t) (n : ℕ) :
    ((walk t n .start).arrays k).length ≤ maxMadt := by
  induction n with
  | zero => exact Nat.zero_le _
  | succ n ih =>
      rw [walk_succ]
      split_ifs with hlt
      · rw [arrays_next]
        split_ifs with hkind
        · rw [List.length_append, List.length_singleton]
          have hindex : ((walk t n .start).arrays k).length ∈
              (walk t n .start).storeIndex t := by
            rw [Walk.storeIndex, if_pos hlt, hkind]
            rfl
          exact h.stores n _ hindex
        · exact ih
      · exact ih

theorem Safe.wellFormed (h : Safe t) : WellFormed t := by
  obtain ⟨last, hlast⟩ := h.ends
  refine ⟨?_, fun o hentry hlt => ?_, fun k => ?_⟩
  · exact h.reads 0 7 (by simp [Walk.reads])
  · obtain ⟨n, rfl⟩ := exists_walk hentry
    refine ⟨h.reads n _ (by simp [Walk.reads, hlt]), fun hzero => ?_⟩
    -- an entry without a length is never left
    have hstay : ∀ m, (walk t (n + m) .start).ptr = (walk t n .start).ptr := by
      intro m
      induction m with
      | zero => rfl
      | succ m ih =>
          rw [← Nat.add_assoc, walk_succ, ih, if_pos hlt]
          show (walk t (n + m) .start).ptr + (t ((walk t (n + m) .start).ptr + 1)).toNat = _
          rw [ih, hzero]
          rfl
    have hle := ptr_mono (t := t) (Nat.le_add_left last n)
    rw [hstay] at hle
    omega
  · have hsub : entriesOf t k ⊆ ((walk t last .start).arrays k).toFinset := by
      intro o ho
      have hmem := mem_arrays ho (ho.2.1.trans_le hlast)
      simpa using hmem
    calc (entriesOf t k).encard
        ≤ (((walk t last .start).arrays k).toFinset : Set ℕ).encard := Set.encard_le_encard hsub
      _ = (((walk t last .start).arrays k).toFinset.card : ℕ∞) := Set.encard_coe_eq_coe_finsetCard _
      _ ≤ maxMadt := by
          exact_mod_cast (List.toFinset_card_le _).trans (h.length_le last)

theorem WellFormed.strict (h : WellFormed t) (n : ℕ) :
    ((walk t n .start).arrays k).Nodup ∧
      ∀ o ∈ (walk t n .start).arrays k, o < (walk t n .start).ptr := by
  induction n with
  | zero => exact ⟨List.nodup_nil, fun _ ho => absurd ho List.not_mem_nil⟩
  | succ n ih =>
      obtain ⟨hnodup, hless⟩ := ih
      rw [walk_succ]
      split_ifs with hlt
      · have hpos := (h.entries _ (walked t n).entry hlt).2
        have hgrow : (walk t n .start).ptr < ((walk t n .start).next t).ptr := by
          have hne : (t ((walk t n .start).ptr + 1)).toNat ≠ 0 := fun hzero =>
            hpos (BitVec.eq_of_toNat_eq hzero)
          exact Nat.lt_add_of_pos_right (Nat.pos_of_ne_zero hne)
        rw [arrays_next]
        split_ifs
        · refine ⟨List.nodup_append.mpr ⟨hnodup, List.nodup_singleton _, ?_⟩, fun o ho => ?_⟩
          · intro o ho o' ho'
            rw [List.mem_singleton.mp ho']
            exact (hless o ho).ne
          · rcases List.mem_append.mp ho with ho | ho
            · exact (hless o ho).trans hgrow
            · rwa [List.mem_singleton.mp ho]
        · exact ⟨hnodup, fun o ho => (hless o ho).trans hgrow⟩
      · exact ⟨hnodup, hless⟩

theorem WellFormed.ends (h : WellFormed t) (n : ℕ) :
    t.length ≤ (walk t n .start).ptr ∨ n ≤ (walk t n .start).ptr := by
  induction n with
  | zero => exact Or.inr (Nat.zero_le _)
  | succ n ih =>
      rw [walk_succ]
      split_ifs with hlt
      · right
        have hne : (t ((walk t n .start).ptr + 1)).toNat ≠ 0 := fun hzero =>
          (h.entries _ (walked t n).entry hlt).2 (BitVec.eq_of_toNat_eq hzero)
        show n + 1 ≤ (walk t n .start).ptr + (t ((walk t n .start).ptr + 1)).toNat
        omega
      · exact Or.inl (by omega)

theorem WellFormed.safe (h : WellFormed t) : Safe t := by
  have hheader := h.header
  refine ⟨⟨t.length, (h.ends t.length).elim id id⟩, fun n r hr => ?_, fun n i hi => ?_⟩
  · rw [Walk.reads, List.mem_append] at hr
    rcases hr with hr | hr
    · simp only [List.mem_cons, List.not_mem_nil, or_false] at hr
      omega
    · split_ifs at hr with hlt
      · have hinside := (h.entries _ (walked t n).entry hlt).1
        simp only [List.mem_cons, List.not_mem_nil, or_false] at hr
        omega
      · exact absurd hr List.not_mem_nil
  · rw [Walk.storeIndex] at hi
    split_ifs at hi with hlt
    · obtain ⟨k, hkind, rfl⟩ := Option.map_eq_some_iff.mp (Option.mem_def.mp hi)
      obtain ⟨hnodup, hless⟩ := h.strict n (k := k)
      -- the entry at the pointer comes on top of those that are stored
      have hcons : ((walk t n .start).ptr :: (walk t n .start).arrays k).Nodup :=
        List.nodup_cons.mpr ⟨fun hmem => (hless _ hmem).ne rfl, hnodup⟩
      have hsub : (((walk t n .start).ptr :: (walk t n .start).arrays k).toFinset : Set ℕ) ⊆
          entriesOf t k := by
        intro o ho
        rcases List.mem_cons.mp (List.mem_toFinset.mp ho) with rfl | ho
        · exact ⟨(walked t n).entry, hlt, hkind⟩
        · exact ((walked t n).passed k o ho).1
      have hcard := (Set.encard_le_encard hsub).trans (h.count k)
      rw [Set.encard_coe_eq_coe_finsetCard, List.toFinset_card_of_nodup hcons,
        List.length_cons] at hcard
      exact_mod_cast hcard
    · exact absurd hi (by simp)

/-- The walk is safe on exactly the well-formed tables. -/
theorem safe_iff_wellFormed (t : Table) : Safe t ↔ WellFormed t :=
  ⟨Safe.wellFormed, WellFormed.safe⟩

/-- A table of one entry without a length. -/
def endlessTable : Table := fun o => if o = 4 then 46 else 0

/-- The walk stays at the entry, and stores it as a local APIC again and again. -/
theorem not_safe_endless : ¬ ∀ t, Safe t := by
  intro h
  obtain ⟨n, hn⟩ := (h endlessTable).ends
  have hstay : ∀ n, (walk endlessTable n .start).ptr = 44 := by
    intro n
    induction n with
    | zero => rfl
    | succ n ih =>
        rw [walk_succ]
        split_ifs
        · show (walk endlessTable n .start).ptr +
            (endlessTable ((walk endlessTable n .start).ptr + 1)).toNat = 44
          rw [ih]
          rfl
        · exact ih
  rw [hstay] at hn
  exact absurd hn (by decide)

end Madt
end SubleqEmu
