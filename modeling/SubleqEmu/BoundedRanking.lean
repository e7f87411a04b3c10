import Mathlib.Data.List.Sort

/-!
# Bounded rankings

The largest elements of a list by some key, kept in order in a fixed number of places.
-/

namespace BoundedRanking

variable {α κ : Type*} [LinearOrder κ] (key : α → κ)

/-- After the elements with a key at least as large. -/
def insert (e : α) (l : List α) : List α :=
  l.orderedInsert (fun a b => key b < key a) e

def Ranked (l : List α) : Prop := l.Pairwise fun a b => key b ≤ key a

variable {key} {e d y : α} {l all kept : List α}

theorem insert_perm (e : α) (l : List α) : (insert key e l).Perm (e :: l) :=
  List.perm_orderedInsert _ e l

theorem Ranked.insert (h : Ranked key l) : Ranked key (insert key e l) := by
  induction l with
  | nil => exact List.pairwise_singleton _ _
  | cons y l ih =>
      obtain ⟨hy, hl⟩ := List.pairwise_cons.mp h
      rw [BoundedRanking.insert, List.orderedInsert_cons]
      split_ifs with hlt
      · apply List.pairwise_cons.mpr
        refine ⟨fun z hz => ?_, h⟩
        rcases List.mem_cons.mp hz with rfl | hz
        · exact hlt.le
        · exact (hy z hz).trans hlt.le
      · apply List.pairwise_cons.mpr
        refine ⟨fun z hz => ?_, ih hl⟩
        rcases List.mem_cons.mp ((insert_perm e l).mem_iff.mp hz) with rfl | hz
        · exact not_lt.mp hlt
        · exact hy z hz

/-- Seen from the end of the list, the element moves past the smaller ones. -/
theorem insert_snoc (h : Ranked key (l ++ [y])) :
    insert key e (l ++ [y]) =
      if key y < key e then insert key e l ++ [y] else l ++ [y, e] := by
  induction l with
  | nil =>
      show (if key y < key e then [e, y] else [y, e]) = _
      split_ifs <;> rfl
  | cons z l ih =>
      obtain ⟨hz, hl⟩ := List.pairwise_cons.mp h
      have hyz : key y ≤ key z := hz y (by simp)
      rw [List.cons_append, insert, List.orderedInsert_cons]
      by_cases hlt : key z < key e
      · rw [if_pos hlt, if_pos (hyz.trans_lt hlt), insert, List.orderedInsert_cons, if_pos hlt]
        rfl
      · rw [if_neg hlt]
        refine (congrArg (z :: ·) (ih hl)).trans ?_
        have hcons : BoundedRanking.insert key e (z :: l) = z :: BoundedRanking.insert key e l :=
          List.orderedInsert_of_not_le _ l hlt
        rw [hcons]
        split_ifs <;> rfl

/-! ## The largest elements -/

/-- The result has the largest elements of the list, in order. -/
structure Ranks (key : α → κ) (result all : List α) : Prop where
  ranked : Ranked key result
  split : ∃ rest, (result ++ rest).Perm all ∧ ∀ d ∈ rest, ∀ r ∈ result, key d ≤ key r

theorem Ranks.perm {result all' : List α} (h : Ranks key result all) (hall : all.Perm all') :
    Ranks key result all' := by
  obtain ⟨rest, hperm, hrest⟩ := h.split
  exact ⟨h.ranked, rest, hperm.trans hall, hrest⟩

theorem Ranks.of_perm (h : Ranked key l) (hall : l.Perm all) : Ranks key l all :=
  ⟨h, [], by rwa [List.append_nil], fun d hd => absurd hd List.not_mem_nil⟩

theorem Ranks.of_insert (h : Ranked key l) (hall : l.Perm all) :
    Ranks key (insert key e l) (all ++ [e]) :=
  .of_perm h.insert
    ((insert_perm e l).trans ((hall.cons e).trans (List.perm_append_singleton e all).symm))

/-- An element at the end that belongs to the list only if one of those left out is it. -/
theorem Ranks.snoc_iff {dropped : List α} (h : Ranked key l) (hall : l.Perm all)
    (hdropped : ∀ d ∈ dropped, key d ≤ key y) :
    Ranks key (l ++ [y]) (all ++ dropped) ↔ y ∈ dropped ∧ ∀ e ∈ all, key y ≤ key e := by
  have hranked : Ranked key (l ++ [y]) ↔ ∀ e ∈ all, key y ≤ key e := by
    rw [Ranked, List.pairwise_append]
    constructor
    · intro hsnoc e he
      exact hsnoc.2.2 e (hall.mem_iff.mpr he) y (by simp)
    · intro hall'
      refine ⟨h, List.pairwise_singleton _ _, fun e he z hz => ?_⟩
      rw [List.mem_singleton.mp hz]
      exact hall' e (hall.mem_iff.mp he)
  have hperm : ∀ rest, (l ++ [y] ++ rest).Perm (all ++ dropped) ↔ (y :: rest).Perm dropped := by
    intro rest
    rw [List.append_assoc, List.singleton_append]
    constructor
    · intro hsplit
      exact (List.perm_append_left_iff all).mp ((hall.append_right _).symm.trans hsplit)
    · intro hrest
      exact (hall.append_right _).trans ((List.perm_append_left_iff all).mpr hrest)
  constructor
  · intro hranks
    obtain ⟨rest, hsplit, -⟩ := hranks.split
    exact ⟨((hperm rest).mp hsplit).mem_iff.mp List.mem_cons_self, hranked.mp hranks.ranked⟩
  · rintro ⟨hmem, hle⟩
    obtain ⟨before, after, rfl⟩ := List.append_of_mem hmem
    refine ⟨hranked.mpr hle, before ++ after, (hperm _).mpr List.perm_middle.symm,
      fun d hd r hr => ?_⟩
    have hdy : key d ≤ key y := hdropped d (by
      rcases List.mem_append.mp hd with hd | hd
      · exact List.mem_append_left _ hd
      · exact List.mem_append_right _ (List.mem_cons_of_mem y hd))
    rcases List.mem_append.mp hr with hr | hr
    · exact hdy.trans (hle r (hall.mem_iff.mp hr))
    · rwa [List.mem_singleton.mp hr]

/-- A further element is taken in for the last one if it is larger. -/
theorem Ranks.offer {result : List α} (h : Ranks key (result ++ [y]) all) :
    Ranks key (if key e ≤ key y then result ++ [y] else insert key e result) (all ++ [e]) := by
  obtain ⟨rest, hperm, hrest⟩ := h.split
  have hlast : ∀ r ∈ result ++ [y], key y ≤ key r := by
    intro r hr
    rcases List.mem_append.mp hr with hr | hr
    · exact (List.pairwise_append.mp h.ranked).2.2 r hr y (by simp)
    · rw [List.mem_singleton.mp hr]
  split_ifs with hle
  · refine ⟨h.ranked, rest ++ [e], ?_, fun d hd r hr => ?_⟩
    · rw [← List.append_assoc]
      exact hperm.append_right [e]
    · rcases List.mem_append.mp hd with hd | hd
      · exact hrest d hd r hr
      · rw [List.mem_singleton.mp hd]
        exact hle.trans (hlast r hr)
  · have hranked : Ranked key result := (List.pairwise_append.mp h.ranked).1
    refine ⟨hranked.insert, y :: rest, ?_, fun d hd r hr => ?_⟩
    · have hmove : (insert key e result ++ y :: rest).Perm (e :: (result ++ y :: rest)) :=
        (insert_perm e result).append_right _
      rw [List.append_assoc, List.singleton_append] at hperm
      exact hmove.trans ((hperm.cons e).trans (List.perm_append_singleton e all).symm)
    · have hyr : key y ≤ key r := by
        rcases List.mem_cons.mp ((insert_perm e result).mem_iff.mp hr) with rfl | hr
        · exact (not_le.mp hle).le
        · exact hlast r (List.mem_append_left _ hr)
      rcases List.mem_cons.mp hd with rfl | hd
      · exact hyr
      · exact (hrest d hd y (by simp)).trans (hlast y (by simp) |>.trans hyr)

/-- Elements that were left out do no harm if as many others are as large. -/
theorem Ranks.append_iff {result dropped : List α} (h : Ranks key result kept) :
    Ranks key result (kept ++ dropped) ↔
      ∀ d ∈ dropped, result.length ≤ kept.countP fun e => key d ≤ key e := by
  obtain ⟨rest, hperm, hrest⟩ := h.split
  have hcount : ∀ d, kept.countP (fun e => decide (key d ≤ key e)) =
      result.countP (fun e => decide (key d ≤ key e)) +
        rest.countP fun e => decide (key d ≤ key e) := by
    intro d
    rw [← hperm.countP_eq, List.countP_append]
  constructor
  · intro hranks d hd
    obtain ⟨rest', hperm', hrest'⟩ := hranks.split
    have hleft : rest'.Perm (rest ++ dropped) := by
      apply (List.perm_append_left_iff result).mp
      rw [← List.append_assoc]
      exact hperm'.trans (hperm.append_right dropped).symm
    have hall : result.countP (fun e => decide (key d ≤ key e)) = result.length := by
      rw [List.countP_eq_length]
      intro r hr
      exact decide_eq_true (hrest' d (hleft.mem_iff.mpr (List.mem_append_right _ hd)) r hr)
    rw [hcount, hall]
    exact Nat.le_add_right _ _
  · intro hdropped
    refine ⟨h.ranked, rest ++ dropped, ?_, fun d hd r hr => ?_⟩
    · rw [← List.append_assoc]
      exact hperm.append_right dropped
    · rcases List.mem_append.mp hd with hd | hd
      · exact hrest d hd r hr
      · -- otherwise nothing of the rest would be as large, and not all of the result
        by_contra hlt
        rw [not_le] at hlt
        have hnone : rest.countP (fun e => decide (key d ≤ key e)) = 0 := by
          rw [List.countP_eq_zero]
          intro x hx
          simpa using (hrest x hx r hr).trans_lt hlt
        have hless : result.countP (fun e => decide (key d ≤ key e)) < result.length := by
          apply Nat.lt_of_le_of_ne List.countP_le_length
          intro heq
          have hd := List.countP_eq_length.mp heq r hr
          exact absurd (of_decide_eq_true hd) (not_le.mpr hlt)
        have hmany := hdropped d hd
        rw [hcount, hnone] at hmany
        omega

end BoundedRanking
