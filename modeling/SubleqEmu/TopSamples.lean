import Mathlib.Data.List.TakeWhile
import SubleqEmu.BoundedRanking
import SubleqEmu.TopSamplesModel

/-!
# What `jit_top_samples` reports

The entries with the largest counts, unless the place that is filled last held a count
before that keeps the entry for it out.
-/

namespace SubleqEmu
namespace TopSamples

open BoundedRanking

variable {max i k n : ℕ} {c : BitVec 32} {e : Entry} {o : Outputs} {s : Top} {J : Jit}
  {entries first later : List Entry}

/-! ## The arrays as lists -/

def Entry.key (e : Entry) : ℕ := e.count.toNat

def Outputs.cells (o : Outputs) (n : ℕ) : List Entry := (List.range n).map o.entry

theorem Outputs.cells_succ (o : Outputs) (n : ℕ) : o.cells (n + 1) = o.cells n ++ [o.entry n] := by
  rw [cells, cells, List.range_succ, List.map_append]
  rfl

theorem Outputs.length_cells (o : Outputs) (n : ℕ) : (o.cells n).length = n := by
  rw [cells, List.length_map, List.length_range]

theorem Outputs.cells_congr {o' : Outputs} (h : ∀ k < n, o'.entry k = o.entry k) :
    o'.cells n = o.cells n := by
  apply List.map_congr_left
  intro k hk
  exact h k (List.mem_range.mp hk)

theorem Outputs.entry_set_self (o : Outputs) (i : ℕ) (e : Entry) : (o.set i e).entry i = e := by
  simp [entry, set]

theorem Outputs.entry_set_of_ne (o : Outputs) (e : Entry) (h : k ≠ i) :
    (o.set i e).entry k = o.entry k := by
  simp [entry, set, h]

theorem Outputs.cells_set (o : Outputs) (e : Entry) (h : n ≤ i) : (o.set i e).cells n = o.cells n :=
  cells_congr fun k hk => entry_set_of_ne o e (by omega)

/-- The insertion puts the entry among the first `i`, and leaves what is past them. -/
theorem shift_insert (h : Ranked Entry.key (o.cells i)) :
    let o' := (shift e.count i o).2.set (shift e.count i o).1 e
    o'.cells (i + 1) = insert Entry.key e (o.cells i) ∧
      ∀ k, i < k → o'.entry k = o.entry k := by
  induction i generalizing o with
  | zero =>
      refine ⟨?_, fun k hk => Outputs.entry_set_of_ne o e hk.ne'⟩
      show [(o.set 0 e).entry 0] = [e]
      rw [Outputs.entry_set_self]
  | succ i ih =>
      rw [o.cells_succ] at h ⊢
      have hless : o.counts i < e.count ↔ (o.entry i).key < e.key := BitVec.lt_def
      rw [insert_snoc h, shift]
      split_ifs with hlt hkey hkey
      · obtain ⟨hcells, hpast⟩ := ih (o := o.set (i + 1) (o.entry i))
          (by rw [o.cells_set _ (Nat.le_succ i)]; exact (List.pairwise_append.mp h).1)
        rw [o.cells_set _ (Nat.le_succ i)] at hcells
        refine ⟨?_, fun k hk => ?_⟩
        · rw [Outputs.cells_succ, hcells, hpast (i + 1) (Nat.lt_succ_self i),
            Outputs.entry_set_self]
        · rw [hpast k (by omega), Outputs.entry_set_of_ne _ _ (by omega)]
      · exact absurd (hless.mp hlt) hkey
      · exact absurd (hless.mpr hkey) hlt
      · refine ⟨?_, fun k hk => Outputs.entry_set_of_ne o e (by omega)⟩
        rw [Outputs.cells_succ, Outputs.cells_set _ _ (Nat.le_refl _), Outputs.cells_succ,
          Outputs.entry_set_self, List.append_assoc]
        rfl

/-! ## One count -/

/-- While places are left. -/
theorem enter_free (hn : s.n + 1 < max) (h : Ranked Entry.key (s.outputs.cells s.n)) :
    (s.enter max e).n = s.n + 1 ∧
      (s.enter max e).outputs.cells (s.n + 1) =
        insert Entry.key e (s.outputs.cells s.n) ∧
      ∀ k, s.n < k → (s.enter max e).outputs.entry k = s.outputs.entry k := by
  have hlt : s.n < max := by omega
  have hnot : ¬ (s.n = max - 1 ∧ s.n + 1 = max ∧ s.outputs.counts s.n ≥ e.count) := by omega
  unfold Top.enter
  simp only [if_pos hlt, if_neg hnot]
  exact ⟨trivial, shift_insert h⟩

/-- The last place has what it held before, or an entry. -/
theorem enter_full (hmax : 1 ≤ max) (hle : max ≤ s.n + 1) (hge : s.n ≤ max)
    (h : Ranked Entry.key (s.outputs.cells (max - 1))) :
    (s.enter max e).n = max ∧
      (s.enter max e).outputs.cells max =
        if e.key ≤ (s.outputs.entry (max - 1)).key then s.outputs.cells max
        else insert Entry.key e (s.outputs.cells (max - 1)) := by
  have hi : (if s.n < max then s.n else max - 1) = max - 1 := by
    split_ifs
    · omega
    · rfl
  have hn : (if s.n < max then s.n + 1 else s.n) = max := by
    split_ifs <;> omega
  have hcount : s.outputs.counts (max - 1) ≥ e.count ↔
      e.key ≤ (s.outputs.entry (max - 1)).key := BitVec.le_def
  unfold Top.enter
  simp only [hi, hn, true_and]
  split_ifs with hleft hkey hkey
  · exact ⟨rfl, rfl⟩
  · exact absurd (hcount.mp hleft) hkey
  · exact absurd (hcount.mpr hkey) hleft
  · refine ⟨rfl, ?_⟩
    have hcells := (shift_insert (e := e) h).1
    rwa [Nat.sub_add_cancel hmax] at hcells

/-! ## All counts -/

/-- While places are left all entries have one. -/
structure Placed (o : Outputs) (entries : List Entry) (s : Top) : Prop where
  n : s.n = entries.length
  ranked : Ranked Entry.key (s.outputs.cells s.n)
  perm : (s.outputs.cells s.n).Perm entries
  past : ∀ k, s.n ≤ k → s.outputs.entry k = o.entry k

theorem Placed.initial (o : Outputs) : Placed o [] ⟨0, o⟩ :=
  ⟨rfl, List.Pairwise.nil, List.Perm.nil, fun _ _ => rfl⟩

theorem Placed.enter (h : Placed o entries s) (hmax : entries.length + 1 < max) :
    Placed o (entries ++ [e]) (s.enter max e) := by
  obtain ⟨hn, hcells, hpast⟩ := enter_free (e := e) (by rw [h.n]; exact hmax) h.ranked
  refine ⟨?_, ?_, ?_, fun k hk => ?_⟩
  · rw [hn, h.n, List.length_append, List.length_singleton]
  · rw [hn, hcells]
    exact h.ranked.insert
  · rw [hn, hcells]
    exact (insert_perm e _).trans
      ((h.perm.cons e).trans (List.perm_append_singleton e entries).symm)
  · rw [hn] at hk
    rw [hpast k (by omega), h.past k (by omega)]

theorem Placed.enters (h : Placed o entries s) (hmax : (entries ++ first).length < max) :
    Placed o (entries ++ first) (first.foldl (Top.enter max) s) := by
  induction first generalizing entries s with
  | nil =>
      rw [List.append_nil]
      exact h
  | cons e first ih =>
      rw [List.append_cons] at hmax ⊢
      rw [List.length_append] at hmax
      refine ih (h.enter ?_) (by rwa [List.length_append])
      rw [List.length_append, List.length_singleton] at hmax
      omega

/-- Whether the entries are the largest ones, once all places are taken. -/
structure Full (max : ℕ) (entries : List Entry) (s : Top) : Prop where
  n : s.n = max
  ranks : Ranks Entry.key (s.outputs.cells max) entries

theorem Full.enter (h : Full max entries s) (hmax : 1 ≤ max) :
    Full max (entries ++ [e]) (s.enter max e) := by
  have hsplit : s.outputs.cells max =
      s.outputs.cells (max - 1) ++ [s.outputs.entry (max - 1)] := by
    rw [← Outputs.cells_succ, Nat.sub_add_cancel hmax]
  have hranks := h.ranks
  rw [hsplit] at hranks
  obtain ⟨hn, hcells⟩ := enter_full (e := e) hmax (by rw [h.n]; omega) h.n.le
    (List.pairwise_append.mp hranks.ranked).1
  refine ⟨hn, ?_⟩
  rw [hcells, hsplit]
  exact hranks.offer

theorem Full.enters (h : Full max entries s) (hmax : 1 ≤ max) (later : List Entry) :
    Full max (entries ++ later) (later.foldl (Top.enter max) s) := by
  induction later generalizing entries s with
  | nil =>
      rw [List.append_nil]
      exact h
  | cons e later ih =>
      rw [List.append_cons]
      exact ih (h.enter hmax)

theorem enter_skipped (hle : max ≤ s.n + 1) (hge : s.n ≤ max)
    (he : e.key ≤ (s.outputs.entry (max - 1)).key) : s.enter max e = ⟨max, s.outputs⟩ := by
  have hi : (if s.n < max then s.n else max - 1) = max - 1 := by
    split_ifs
    · omega
    · rfl
  have hn : (if s.n < max then s.n + 1 else s.n) = max := by
    split_ifs <;> omega
  have hcount : s.outputs.counts (max - 1) ≥ e.count := BitVec.le_def.mpr he
  unfold Top.enter
  simp only [hi, hn, true_and, if_pos hcount]

/-- Counts that are not above what the last place held before leave the arrays alone. -/
theorem enters_skipped {skipped : List Entry} (hle : max ≤ s.n + 1) (hge : s.n ≤ max)
    (hskipped : ∀ e ∈ skipped, e.key ≤ (s.outputs.entry (max - 1)).key) :
    (skipped.foldl (Top.enter max) s).outputs = s.outputs ∧
      (skipped.foldl (Top.enter max) s).n = if skipped = [] then s.n else max := by
  induction skipped generalizing s with
  | nil => exact ⟨rfl, rfl⟩
  | cons e skipped ih =>
      have henter := enter_skipped hle hge (hskipped e List.mem_cons_self)
      rw [List.foldl_cons, henter, if_neg (List.cons_ne_nil e skipped)]
      obtain ⟨houtputs, hn⟩ := ih (s := ⟨max, s.outputs⟩) (Nat.le_succ max) (Nat.le_refl max)
        fun e' he' => hskipped e' (List.mem_cons_of_mem e he')
      refine ⟨houtputs, hn.trans ?_⟩
      split_ifs <;> rfl

/-! ## The whole report -/

/-- The entries with a count, in the order in which they are taken. -/
def sampled (J : Jit) : List Entry :=
  (J.out.map Line.entry ++ J.blocks.map Block.entry).filter fun e => e.count ≠ 0

theorem scan_eq {β : Type} {entry : β → Entry} {reset : β → β} {l : List β} :
    scan max entry reset l s =
      (((l.map entry).filter fun e => e.count ≠ 0).foldl (Top.enter max) s,
        l.map fun b => if (entry b).count = 0 then b else reset b) := by
  induction l generalizing s with
  | nil => rfl
  | cons b l ih =>
      rw [scan, List.map_cons, List.map_cons, List.filter_cons]
      split_ifs with hzero hfilter hfilter
      · exact absurd hzero (by simpa using hfilter)
      · rw [ih]
      · rw [ih]
        rfl
      · exact absurd hzero (by simpa using hfilter)

/-- All counts are taken in one after the other. -/
theorem jitTopSamples_eq (max : ℕ) (o : Outputs) (J : Jit) :
    (jitTopSamples max o J).n = ((sampled J).foldl (Top.enter max) ⟨0, o⟩).n ∧
      (jitTopSamples max o J).outputs =
        ((sampled J).foldl (Top.enter max) ⟨0, o⟩).outputs := by
  have hfold : (sampled J).foldl (Top.enter max) ⟨0, o⟩ =
      (scan max Block.entry Block.reset J.blocks
        (scan max Line.entry Line.reset J.out ⟨0, o⟩).1).1 := by
    rw [scan_eq, scan_eq, sampled, List.filter_append, List.foldl_append]
  rw [hfold]
  exact ⟨rfl, rfl⟩

/-- Every count is reset, and those that are none stay so. -/
theorem counts_reset (max : ℕ) (o : Outputs) (J : Jit) :
    sampled (jitTopSamples max o J).jit = [] := by
  have hzero : ∀ {β : Type} (entry : β → Entry) (reset : β → β),
      (∀ b, (entry (reset b)).count = 0) → ∀ l : List β,
      ((l.map fun b => if (entry b).count = 0 then b else reset b).map entry).filter
        (fun e => decide (e.count ≠ 0)) = [] := by
    intro β entry reset hreset l
    rw [List.filter_eq_nil_iff]
    intro e he
    obtain ⟨b, hb, rfl⟩ := List.mem_map.mp he
    obtain ⟨b, -, rfl⟩ := List.mem_map.mp hb
    split_ifs with hcount
    · simpa using hcount
    · simpa using hreset b
  rw [sampled, List.filter_append]
  show List.filter _ ((scan max Line.entry Line.reset J.out _).2.map _) ++
    List.filter _ ((scan max Block.entry Block.reset J.blocks _).2.map _) = []
  rw [scan_eq, scan_eq, hzero Line.entry Line.reset (fun _ => rfl),
    hzero Block.entry Block.reset (fun _ => rfl)]
  rfl

/-- What the caller is promised. -/
structure Reports (max : ℕ) (o : Outputs) (J : Jit) : Prop where
  n : (jitTopSamples max o J).n = min max (sampled J).length
  ranks : Ranks Entry.key
    ((jitTopSamples max o J).outputs.cells (jitTopSamples max o J).n) (sampled J)
  reset : sampled (jitTopSamples max o J).jit = []

/-- Whether the last place does no harm with what it held before: it keeps out the counts
up to the first larger one, if there is one. -/
def Fits (max : ℕ) (leftover : Entry) (entries : List Entry) : Prop :=
  let first := entries.take (max - 1)
  let later := entries.drop (max - 1)
  let skipped := later.takeWhile fun e => e.key ≤ leftover.key
  let taken := later.dropWhile fun e => e.key ≤ leftover.key
  later = [] ∨
    (taken = [] ∧ leftover ∈ skipped ∧ ∀ e ∈ first, leftover.key ≤ e.key) ∨
    (taken ≠ [] ∧ ∀ d ∈ skipped, max ≤ (first ++ taken).countP fun e => d.key ≤ e.key)

/-- Where there are places for all. -/
theorem reports_of_free (hlt : (sampled J).length < max) : Reports max o J := by
  obtain ⟨hn, houtputs⟩ := jitTopSamples_eq max o J
  have hplaced := @Placed.enters max o _ [] (sampled J) (Placed.initial o) (by simpa using hlt)
  rw [List.nil_append] at hplaced
  refine ⟨?_, ?_, counts_reset max o J⟩
  · rw [hn, hplaced.n, min_eq_right hlt.le]
  · rw [hn, houtputs]
    exact .of_perm hplaced.ranked hplaced.perm

/-- Otherwise the last place is first compared with what it held before. -/
theorem reports_iff_of_full (hmax : 1 ≤ max) (hfirst : first.length = max - 1)
    (hlater : later ≠ []) (hsampled : sampled J = first ++ later) :
    Reports max o J ↔ Fits max (o.entry (max - 1)) (sampled J) := by
  obtain ⟨hn, houtputs⟩ := jitTopSamples_eq max o J
  have hplaced := @Placed.enters max o _ [] first (Placed.initial o)
    (by rw [List.nil_append]; omega)
  rw [List.nil_append] at hplaced
  obtain ⟨s, hs⟩ : ∃ s, s = first.foldl (Top.enter max) ⟨0, o⟩ := ⟨_, rfl⟩
  rw [← hs] at hplaced
  have hsn : s.n = max - 1 := hplaced.n.trans hfirst
  have hlast : s.outputs.entry (max - 1) = o.entry (max - 1) := hplaced.past _ hsn.le
  have hranked := hplaced.ranked
  have hperm := hplaced.perm
  rw [hsn] at hranked hperm
  -- the counts up to the first one above the one that was left over
  obtain ⟨skipped, hskipped⟩ : ∃ skipped, skipped =
    later.takeWhile fun e => decide (e.key ≤ (o.entry (max - 1)).key) := ⟨_, rfl⟩
  obtain ⟨taken, htaken⟩ : ∃ taken, taken =
    later.dropWhile fun e => decide (e.key ≤ (o.entry (max - 1)).key) := ⟨_, rfl⟩
  have hsplit : skipped ++ taken = later := by
    rw [hskipped, htaken]
    exact List.takeWhile_append_dropWhile
  have hle : ∀ e ∈ skipped, e.key ≤ (o.entry (max - 1)).key := by
    intro e he
    rw [hskipped] at he
    have hdecide := List.mem_takeWhile_imp he
    exact of_decide_eq_true hdecide
  obtain ⟨hout, hcount⟩ := @enters_skipped max _ _ (by omega) (by omega)
    (fun e he => hlast ▸ hle e he)
  have hfits : Fits max (o.entry (max - 1)) (sampled J) ↔
      (taken = [] ∧ o.entry (max - 1) ∈ skipped ∧
          ∀ e ∈ first, (o.entry (max - 1)).key ≤ e.key) ∨
        (taken ≠ [] ∧ ∀ d ∈ skipped, max ≤ (first ++ taken).countP fun e => d.key ≤ e.key) := by
    unfold Fits
    dsimp only
    rw [hsampled, ← hfirst, List.take_left, List.drop_left, hfirst, ← hskipped, ← htaken,
      or_iff_right hlater]
  have hfold : (sampled J).foldl (Top.enter max) ⟨0, o⟩ =
      taken.foldl (Top.enter max) (skipped.foldl (Top.enter max) s) := by
    rw [hsampled, ← hsplit, List.foldl_append, List.foldl_append, hs]
  have hlength : (sampled J).length = first.length + later.length := by
    rw [hsampled, List.length_append]
  have hpos : 0 < later.length := List.length_pos_of_ne_nil hlater
  have hreports : Reports max o J ↔ (jitTopSamples max o J).n = max ∧
      Ranks Entry.key ((jitTopSamples max o J).outputs.cells max) (sampled J) := by
    constructor
    · intro h
      have hmin := h.n
      rw [min_eq_left (by omega)] at hmin
      have hranks := h.ranks
      rw [hmin] at hranks
      exact ⟨hmin, hranks⟩
    · rintro ⟨hmin, hranks⟩
      refine ⟨by rw [hmin, min_eq_left (by omega)], ?_, counts_reset max o J⟩
      rwa [hmin]
  rw [hfits, hreports, hn, houtputs, hfold]
  cases htaken' : taken with
  | nil =>
      rw [htaken', List.append_nil] at hsplit
      rw [hsplit] at hout hcount hle ⊢
      rw [List.foldl_nil, hcount, if_neg hlater, hout, hsampled]
      have hcells : s.outputs.cells max = s.outputs.cells (max - 1) ++ [o.entry (max - 1)] := by
        rw [← hlast, ← Outputs.cells_succ, Nat.sub_add_cancel hmax]
      rw [hcells, Ranks.snoc_iff hranked hperm hle]
      simp
  | cons e rest =>
      rw [htaken'] at hsplit
      have hhead : (o.entry (max - 1)).key < e.key := by
        have hne : later.dropWhile (fun e => decide (e.key ≤ (o.entry (max - 1)).key)) ≠ [] := by
          rw [← htaken, htaken']
          exact List.cons_ne_nil e rest
        have hhead := List.head_dropWhile_not _ hne
        simp only [← htaken, htaken', List.head_cons, decide_eq_false_iff_not, not_le] at hhead
        exact hhead
      obtain ⟨hn', hcells⟩ := enter_full (e := e) (s := skipped.foldl (Top.enter max) s) hmax
        (by rw [hcount]; split_ifs <;> omega) (by rw [hcount]; split_ifs <;> omega)
        (by rw [hout]; exact hranked)
      rw [hout, hlast, if_neg (not_le.mpr hhead)] at hcells
      have hfull : Full max (first ++ [e]) ((skipped.foldl (Top.enter max) s).enter max e) := by
        refine ⟨hn', ?_⟩
        rw [hcells]
        exact .of_insert hranked hperm
      obtain ⟨hn'', hranks⟩ := hfull.enters hmax rest
      rw [List.append_assoc, List.singleton_append] at hranks
      rw [List.foldl_cons, hn'']
      have hall : (sampled J).Perm (first ++ e :: rest ++ skipped) := by
        rw [hsampled, ← hsplit, List.append_assoc]
        exact (List.perm_append_left_iff first).mpr List.perm_append_comm
      have hdropped := @BoundedRanking.Ranks.append_iff _ _ _ _ _ _ skipped hranks
      rw [Outputs.length_cells] at hdropped
      constructor
      · rintro ⟨-, h⟩
        exact Or.inr ⟨List.cons_ne_nil e rest, hdropped.mp (h.perm hall)⟩
      · rintro (⟨hnil, -⟩ | ⟨-, h⟩)
        · exact absurd hnil (List.cons_ne_nil e rest)
        · exact ⟨rfl, (hdropped.mpr h).perm hall.symm⟩

/-- The report is right exactly if the last place fits. -/
theorem reports_iff (hmax : 1 ≤ max) :
    Reports max o J ↔ Fits max (o.entry (max - 1)) (sampled J) := by
  rcases Nat.lt_or_ge (sampled J).length max with hlt | hge
  · refine iff_of_true (reports_of_free hlt) (Or.inl ?_)
    exact List.drop_eq_nil_of_le (by omega)
  · apply reports_iff_of_full hmax (List.length_take_of_le (by omega)) _
      (List.take_append_drop (max - 1) (sampled J)).symm
    rw [Ne, List.drop_eq_nil_iff]
    omega

def oneBlock : Jit where
  out := []
  blocks := [⟨0x1000, 3⟩]
  samples := 3
  samplesOut := 0

def clearOutputs : Outputs := ⟨fun _ => 0, fun _ => 0⟩

theorem reports_oneBlock : Reports 1 clearOutputs oneBlock :=
  (reports_iff (Nat.le_refl 1)).mpr (Or.inr (Or.inr (by decide)))

/-- A count of 5 left over in the caller's array stays there. -/
theorem not_reports_leftover : ¬ ∀ max o J, 1 ≤ max → Reports max o J := by
  intro h
  have hranks := (h 1 ⟨fun _ => 0, fun _ => 5⟩ oneBlock (Nat.le_refl 1)).ranks
  obtain ⟨rest, hperm, -⟩ := hranks.split
  have hmem := hperm.mem_iff.mp (List.mem_append_left rest (by decide : (⟨0, 5⟩ : Entry) ∈ _))
  exact absurd hmem (by decide)

end TopSamples
end SubleqEmu
