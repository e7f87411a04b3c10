import SubleqEmu.PageTableEntries

/-!
# The page tables refine a map

The invariant says that the pages holding tables form a tree, so that the
radix tree lemmas describe what each write does to the walk.  Getting a table
changes no translation, whether it succeeds or not; the last write of a
successful call overrides exactly its own page or region.
-/

namespace SubleqEmu
namespace PageTable

open RadixTree

abbrev reach (mem : Memory) (pml4 : Frame) (p : List (BitVec 9)) : Option Frame :=
  descend child (readTable mem) pml4 p

/-- The tables in memory form a tree of pages among `pages`. -/
structure Tables (mem : Memory) (pml4 : Frame) (pages : Finset Frame) : Prop where
  separate : Separate child (readTable mem) pml4 3
  owned : ∀ p f, p.length ≤ 3 → reach mem pml4 p = some f → f ∈ pages
  /-- entries which lead to tables have no bits the processor would ignore -/
  entry : ∀ p t i f, p.length ≤ 2 → reach mem pml4 p = some t →
    child (readTable mem t i) = some f → readTable mem t i = tableEntry f
  /-- no entry of the two upper levels has the page size bit -/
  noHuge : ∀ p t i, p.length ≤ 1 → reach mem pml4 p = some t →
    (readTable mem t i).getLsbD 0 = true → (readTable mem t i).getLsbD 7 = false

theorem Tables.initial {mem : Memory} {pml4 : Frame}
    (hempty : ∀ i, readTable mem pml4 i = 0#64) : Tables mem pml4 {pml4} := by
  have hreach : ∀ p f, reach mem pml4 p = some f → p = [] ∧ f = pml4 := by
    intro p f h
    cases p with
    | nil => exact ⟨rfl, by simpa using h.symm⟩
    | cons i p => simp [reach, descend, hempty] at h
  refine ⟨?_, ?_, ?_, ?_⟩
  · intro p q n _ _ hp hq
    rw [(hreach p n hp).1, (hreach q n hq).1]
  · intro p f _ h
    simp [(hreach p f h).2]
  · intro p t i f _ ht hf
    rw [(hreach p t ht).2, hempty, child_zero] at hf
    contradiction
  · intro p t i _ ht hpresent
    rw [(hreach p t ht).2, hempty] at hpresent
    simp at hpresent

/-! ## Entries the code meets -/

section Write

variable {mem : Memory} {pml4 : Frame} {pages : Finset Frame}

/-- Memory which differs only outside the pages of the tables holds the same
tables. -/
theorem Tables.congr (h : Tables mem pml4 pages) (mem' : Memory)
    (hpages : ∀ f ∈ pages, ∀ i, readTable mem' f i = readTable mem f i) :
    Tables mem' pml4 pages ∧
      (∀ q : List (BitVec 9), q.length ≤ 4 → reach mem' pml4 q = reach mem pml4 q) ∧
      (∀ v, walk mem' pml4 v = walk mem pml4 v) := by
  have hread : ∀ p n, p.length ≤ 3 → reach mem pml4 p = some n → ∀ i,
      readTable mem' n i = readTable mem n i :=
    fun p n hp hn => hpages n (h.owned p n hp hn)
  have hreach : ∀ q : List (BitVec 9), q.length ≤ 4 →
      reach mem' pml4 q = reach mem pml4 q :=
    fun q hq => descend_congr hread hq
  refine ⟨⟨?_, ?_, ?_, ?_⟩, hreach, ?_⟩
  · intro p q n hp hq hn hn'
    exact h.separate p q n hp hq ((hreach p (by omega)).symm.trans hn)
      ((hreach q (by omega)).symm.trans hn')
  · intro p f hp hf
    exact h.owned p f hp ((hreach p (by omega)).symm.trans hf)
  · intro p t i f hp ht hf
    rw [hreach p (by omega)] at ht
    rw [hread p t (by omega) ht] at hf ⊢
    exact h.entry p t i f hp ht hf
  · intro p t i hp ht hpresent
    rw [hreach p (by omega)] at ht
    rw [hread p t (by omega) ht] at hpresent ⊢
    exact h.noHuge p t i hp ht hpresent
  · intro v
    exact lookup_congr decode_table hread [] (path v) rfl rfl

variable {p : List (BitVec 9)} {t : Frame} {i : BitVec 9}

/-- Putting a fresh empty table where no entry was present adds one path and
changes no translation. -/
theorem Tables.addTable (h : Tables mem pml4 pages) (hp : p.length ≤ 2)
    (ht : reach mem pml4 p = some t)
    (habsent : (readTable mem t i).getLsbD 0 = false) {f : Frame}
    (hf : f ∉ pages) (hzero : ∀ j, readTable mem f j = 0#64) {mem' : Memory}
    (hmem : readTable mem' = write (readTable mem) t i (tableEntry f)) :
    Tables mem' pml4 (insert f pages) ∧ reach mem' pml4 (p ++ [i]) = some f ∧
      ∀ v, walk mem' pml4 v = walk mem pml4 v := by
  have hp3 : p.length ≤ 3 := by omega
  have hempty : ∀ j, child (readTable mem f j) = none := by
    intro j
    rw [hzero, child_zero]
  have hfresh : ∀ q : List (BitVec 9), q.length ≤ 3 →
      reach mem pml4 q ≠ some f := fun q hq hqf => hf (h.owned q f hq hqf)
  have hne : f ≠ t := by
    rintro rfl
    exact hfresh p hp3 ht
  have hreach : ∀ q : List (BitVec 9), q.length ≤ 4 → reach mem' pml4 q =
      if q = p ++ [i] then some f
      else if p ++ [i] <+: q then none else reach mem pml4 q := by
    intro q hq
    rw [reach, hmem]
    exact h.separate.descend_write_of_fresh hp3 ht (child_tableEntry f) hne hempty hq
  have hself : reach mem' pml4 (p ++ [i]) = some f := by
    rw [hreach _ (by simp; omega), if_pos rfl]
  -- the entries of the nodes reached now: those of before, the new one, or none
  have hcases : ∀ (q : List (BitVec 9)) (n : Frame) (j : BitVec 9), q.length ≤ 2 →
      reach mem' pml4 q = some n → readTable mem' n j = tableEntry f ∨
      readTable mem' n j = 0#64 ∨
      reach mem pml4 q = some n ∧ readTable mem' n j = readTable mem n j := by
    intro q n j hq hn
    rw [hreach q (by omega)] at hn
    rw [hmem]
    split_ifs at hn with hqself hbelow
    · obtain rfl : f = n := by simpa using hn
      right; left
      rw [write_of_ne (fun h => hne h.1), hzero]
    · by_cases heq : n = t ∧ j = i
      · left
        rw [heq.1, heq.2, write_self]
      · right; right
        exact ⟨hn, write_of_ne heq⟩
  refine ⟨⟨?_, ?_, ?_, ?_⟩, hself, ?_⟩
  · rw [hmem]
    exact h.separate.write_of_fresh hp3 ht (child_tableEntry f) hempty hfresh
  · intro q g hq hg
    rw [hreach q (by omega)] at hg
    split_ifs at hg with hqself hbelow
    · obtain rfl : f = g := by simpa using hg
      exact Finset.mem_insert_self _ _
    · exact Finset.mem_insert_of_mem (h.owned q g hq hg)
  · intro q n j g hq hn hg
    rcases hcases q n j hq hn with hread | hread | ⟨hn, hread⟩
    · rw [hread, child_tableEntry] at hg
      rw [hread, Option.some.inj hg]
    · rw [hread, child_zero] at hg
      contradiction
    · rw [hread] at hg ⊢
      exact h.entry q n j g hq hn hg
  · intro q n j hq hn hpresent
    rcases hcases q n j (by omega) hn with hread | hread | ⟨hn, hread⟩
    · rw [hread, large_tableEntry]
    · rw [hread] at hpresent
      simp at hpresent
    · rw [hread] at hpresent ⊢
      exact h.noHuge q n j hq hn hpresent
  · intro v
    by_cases hbelow : p ++ [i] <+: path v
    · obtain ⟨rest, hrest⟩ := hbelow
      have hlength : (p ++ i :: rest).length = 4 := by
        rw [← path_length v, ← hrest]
        simp
      simp only [List.length_append, List.length_cons] at hlength
      obtain ⟨j, rest, rfl⟩ : ∃ j rest', rest = j :: rest' := by
        cases rest with
        | nil => simp at hlength; omega
        | cons j rest => exact ⟨j, rest, rfl⟩
      have hold : walk mem pml4 v = none := by
        rw [walk, ← hrest, List.append_assoc, List.singleton_append,
          lookup_of_descend decode_of_child ht (by simp), lookup]
        simp only [decode, habsent, if_true]
      have hnew : walk mem' pml4 v = none := by
        rw [walk, ← hrest, List.append_assoc, List.singleton_append, hmem,
          h.separate.lookup_write_through decode_of_child hp3 ht]
        simp only [List.length_cons, decode_of_child _ _ _ (child_tableEntry f),
          lookup]
        rw [write_of_ne (fun h => hne h.1), hzero]
        rfl
      rw [hold, hnew]
    · rw [walk, walk, hmem]
      exact h.separate.lookup_write decode_table hp3 ht
        [] (path v) rfl rfl hbelow

/-- Writing an entry of a page table. -/
theorem Tables.writePt (h : Tables mem pml4 pages) (hp : p.length = 3)
    (ht : reach mem pml4 p = some t) {entry : BitVec 64} {f : Frame}
    (hdecode : decode 0 entry = .leaf (.page4k f)) {mem' : Memory}
    (hmem : readTable mem' = write (readTable mem) t i entry) :
    Tables mem' pml4 pages ∧ ∀ v, walk mem' pml4 v =
      if path v = p ++ [i] then some (.page4k f) else walk mem pml4 v := by
  have hreach : ∀ q : List (BitVec 9), q.length ≤ 3 →
      reach mem' pml4 q = reach mem pml4 q := by
    intro q hq
    rw [reach, hmem]
    refine h.separate.descend_write hp.le ht (by omega) ?_
    intro hbelow
    have := hbelow.length_le
    simp only [List.length_append, List.length_singleton] at this
    omega
  have hread : ∀ (q : List (BitVec 9)) (n : Frame) (j : BitVec 9), q.length ≤ 2 →
      reach mem pml4 q = some n → readTable mem' n j = readTable mem n j := by
    intro q n j hq hn
    rw [hmem, write_of_ne]
    rintro ⟨rfl, -⟩
    have := congrArg List.length (h.separate q p n (by omega) hp.le hn ht)
    omega
  refine ⟨⟨?_, ?_, ?_, ?_⟩, ?_⟩
  · intro q q' n hq hq' hn hn'
    exact h.separate q q' n hq hq' ((hreach q hq).symm.trans hn)
      ((hreach q' hq').symm.trans hn')
  · intro q g hq hg
    exact h.owned q g hq ((hreach q hq).symm.trans hg)
  · intro q n j g hq hn hg
    rw [hreach q (by omega)] at hn
    rw [hread q n j hq hn] at hg ⊢
    exact h.entry q n j g hq hn hg
  · intro q n j hq hn hpresent
    rw [hreach q (by omega)] at hn
    rw [hread q n j (by omega) hn] at hpresent ⊢
    exact h.noHuge q n j hq hn hpresent
  · intro v
    split_ifs with hself
    · rw [walk, hself, hmem,
        h.separate.lookup_write_through decode_of_child hp.le ht]
      simp only [List.length_nil, hdecode]
    · rw [walk, walk, hmem]
      refine h.separate.lookup_write decode_table hp.le ht
        [] (path v) rfl rfl ?_
      intro hbelow
      refine hself (hbelow.eq_of_length ?_).symm
      simp [hp]

/-- Writing a 2 MiB page into a page directory, over whatever was there. -/
theorem Tables.writePd (h : Tables mem pml4 pages) (hp : p.length = 2)
    (ht : reach mem pml4 p = some t) (f : LargeFrame) {mem' : Memory}
    (hmem : readTable mem' = write (readTable mem) t i (largeEntry f)) :
    Tables mem' pml4 pages ∧ ∀ v, walk mem' pml4 v =
      if p ++ [i] <+: path v then some (.page2m f) else walk mem pml4 v := by
  have hp3 : p.length ≤ 3 := by omega
  have hreach : ∀ q : List (BitVec 9), q.length ≤ 4 → reach mem' pml4 q =
      if p ++ [i] <+: q then none else reach mem pml4 q := by
    intro q hq
    rw [reach, hmem]
    exact h.separate.descend_write_of_none hp3 ht (child_largeEntry f) hq
  have hback : ∀ (q : List (BitVec 9)) (n : Frame), q.length ≤ 4 →
      reach mem' pml4 q = some n → reach mem pml4 q = some n := by
    intro q n hq hn
    rw [hreach q hq] at hn
    split_ifs at hn
    exact hn
  have hread : ∀ (q : List (BitVec 9)) (n : Frame) (j : BitVec 9), q.length ≤ 3 →
      reach mem pml4 q = some n →
      readTable mem' n j = readTable mem n j ∨
        q = p ∧ readTable mem' n j = largeEntry f := by
    intro q n j hq hn
    rw [hmem]
    by_cases heq : n = t ∧ j = i
    · right
      obtain ⟨rfl, rfl⟩ := heq
      exact ⟨h.separate q p n hq hp3 hn ht, write_self _ _ _⟩
    · exact Or.inl (write_of_ne heq)
  refine ⟨⟨?_, ?_, ?_, ?_⟩, ?_⟩
  · rw [hmem]
    exact h.separate.write_of_none hp3 ht (child_largeEntry f)
  · intro q g hq hg
    exact h.owned q g hq (hback q g (by omega) hg)
  · intro q n j g hq hn hg
    have hn' := hback q n (by omega) hn
    rcases hread q n j (by omega) hn' with hread | ⟨-, hread⟩
    · rw [hread] at hg ⊢
      exact h.entry q n j g hq hn' hg
    · rw [hread, child_largeEntry] at hg
      contradiction
  · intro q n j hq hn hpresent
    have hn' := hback q n (by omega) hn
    rcases hread q n j (by omega) hn' with hread | ⟨rfl, -⟩
    · rw [hread] at hpresent ⊢
      exact h.noHuge q n j hq hn' hpresent
    · omega
  · intro v
    split_ifs with hbelow
    · obtain ⟨rest, hrest⟩ := hbelow
      have hlength : (p ++ [i] ++ rest).length = 4 := by
        rw [hrest, path_length]
      simp only [List.length_append, List.length_singleton] at hlength
      obtain hlevel : rest.length = 1 := by omega
      have hdecode : decode 1 (largeEntry f) = .leaf (.page2m f) := by
        rw [decode, present_largeEntry, large_largeEntry, extractLsb'_largeEntry]
        rfl
      rw [walk, ← hrest, List.append_assoc, List.singleton_append, hmem,
        h.separate.lookup_write_through decode_of_child hp3 ht, hlevel, hdecode]
    · rw [walk, walk, hmem]
      exact h.separate.lookup_write decode_table hp3 ht
        [] (path v) rfl rfl hbelow

end Write

/-! ## The calls -/

section Calls

variable {σ : Type} (source : PageSource σ)

/-- The tables are a tree in pages the source has handed out. -/
def State.Good (pml4 : Frame) (s : State σ) : Prop :=
  ∃ pages, Tables s.mem pml4 pages ∧ source.Owned s.pages pages

/-- The state is what a failed `kmalloc` left. -/
def State.Exhausted (s : State σ) : Prop :=
  ∃ a pages, source.Owned a pages ∧ source.kmalloc a = (none, s.pages)

variable {source} {pml4 : Frame} {s : State σ}

theorem getTable_eq (hs : s.Good source pml4) {p : List (BitVec 9)} {t : Frame}
    (hp : p.length ≤ 2) (ht : reach s.mem pml4 p = some t) {idx : BitVec 64}
    {i : BitVec 9}
    (hidx : entryAt (frameAddr t) idx = t.toNat * 512 + i.toNat)
    (hlarge : (readTable s.mem t i).getLsbD 0 = true →
      (readTable s.mem t i).getLsbD 7 = false) :
    ∃ r s', getTable source (frameAddr t) idx s = (r, s') ∧ s'.Good source pml4 ∧
      (∀ v, walk s'.mem pml4 v = walk s.mem pml4 v) ∧
      (r = none → s'.Exhausted source) ∧
      ∀ a, r = some a → ∃ f, a = frameAddr f ∧
        reach s'.mem pml4 (p ++ [i]) = some f := by
  obtain ⟨pages, htables, howned⟩ := hs
  have hread : s.mem (entryAt (frameAddr t) idx) = readTable s.mem t i := by
    rw [hidx]
    rfl
  unfold getTable
  rw [hread, present_eq_getLsbD]
  cases hpresent : (readTable s.mem t i).getLsbD 0 with
  | true =>
      have hchild := child_eq_some_iff.mpr ⟨hpresent, hlarge hpresent, rfl⟩
      refine ⟨_, _, rfl, ⟨pages, htables, howned⟩, fun _ => rfl, by simp, ?_⟩
      rintro a ⟨⟩
      have hentry := htables.entry p t i _ hp ht hchild
      refine ⟨(readTable s.mem t i).extractLsb' 12 40, ?_, ?_⟩
      · exact (congrArg (· &&& tableMask) hentry).trans (tableEntry_and_tableMask _)
      · have ht' : descend child (readTable s.mem) pml4 p = some t := ht
        rw [reach, descend_concat, ht']
        exact hchild
  | false =>
      simp only [Bool.false_eq_true, if_false]
      cases hk : source.kmalloc s.pages with
      | mk answer pages' =>
        cases answer with
        | none =>
            exact ⟨_, _, rfl, ⟨pages, htables, source.failed _ _ _ howned hk⟩,
              fun _ => rfl, fun _ => ⟨_, _, howned, hk⟩, by simp⟩
        | some page =>
            obtain ⟨-, hfresh, howned'⟩ := source.fresh _ _ _ _ howned hk
            obtain ⟨hzeroed, hreach, hwalk⟩ := htables.congr
              (zeroPage s.mem page) (by
                intro f hf j
                rw [readTable_zeroPage, if_neg]
                rintro rfl
                exact hfresh hf)
            have hne : t ≠ page := by
              rintro rfl
              exact hfresh (htables.owned p t (by omega) ht)
            have hadd := hzeroed.addTable (i := i) (f := page) hp
              ((hreach p (by omega)).trans ht)
              (by rw [readTable_zeroPage, if_neg hne, hpresent]) hfresh
              (by intro j; rw [readTable_zeroPage, if_pos rfl])
              (readTable_update (zeroPage s.mem page) t i (tableEntry page))
            obtain ⟨htables', hself, hwalk'⟩ := hadd
            rw [hidx]
            refine ⟨_, _, rfl, ⟨_, htables', howned'⟩, ?_, by simp, ?_⟩
            · intro v
              exact (hwalk' v).trans (hwalk v)
            · rintro a ⟨⟩
              exact ⟨page, rfl, hself⟩

theorem reach_nil (mem : Memory) (pml4 : Frame) : reach mem pml4 [] = some pml4 := rfl

/-- What a call to `map_page` does to the translations. -/
theorem mapPage_eq (hs : s.Good source pml4) (physAddr virt : BitVec 64) :
    ∃ r s', mapPage source (frameAddr pml4) physAddr virt s = (r, s') ∧
      s'.Good source pml4 ∧
      (r = -1 ∧ (∀ v, walk s'.mem pml4 v = walk s.mem pml4 v) ∧
          ((∃ f, walk s.mem pml4 virt = some (.page2m f)) ∨ s'.Exhausted source) ∨
        r = 0 ∧ (∀ v, walk s'.mem pml4 v =
          (Call.mapPage (physAddr.extractLsb' 12 40) virt).override
            (walk s.mem pml4) v) ∧
          ∀ f, walk s.mem pml4 virt ≠ some (.page2m f)) := by
  have hnoHuge : ∀ (s : State σ) (p : List (BitVec 9)) (t : Frame) (i : BitVec 9),
      s.Good source pml4 → p.length ≤ 1 → reach s.mem pml4 p = some t →
      (readTable s.mem t i).getLsbD 0 = true →
        (readTable s.mem t i).getLsbD 7 = false := by
    rintro s p t i ⟨pages, htables, -⟩ hp ht
    exact htables.noHuge p t i hp ht
  unfold mapPage
  obtain ⟨r₁, s₁, hget₁, hs₁, hwalk₁, hnone₁, hsome₁⟩ :=
    getTable_eq hs (by simp)
    (reach_nil s.mem pml4) (entryAt_frameAddr pml4 virt 39)
    (hnoHuge s [] pml4 _ hs (by simp) rfl)
  simp only [pml4Idx, hget₁]
  cases r₁ with
  | none => exact ⟨_, _, rfl, hs₁, Or.inl ⟨rfl, hwalk₁, Or.inr (hnone₁ rfl)⟩⟩
  | some pdptAddr =>
  obtain ⟨pdpt, rfl, hpdpt⟩ := hsome₁ _ rfl
  have hpdptEntry : s₁.mem (entryAt (frameAddr pdpt) (pdptIdx virt)) =
      readTable s₁.mem pdpt (virt.extractLsb' 30 9) := by
    rw [pdptIdx, entryAt_frameAddr]
    rfl
  have hnot1g := hnoHuge s₁ _ pdpt (virt.extractLsb' 30 9) hs₁ (by simp) hpdpt
  have hcheck1g : (present (readTable s₁.mem pdpt (virt.extractLsb' 30 9)) &&
      large (readTable s₁.mem pdpt (virt.extractLsb' 30 9))) = false := by
    rw [present_eq_getLsbD, large_eq_getLsbD]
    cases hpresent : (readTable s₁.mem pdpt (virt.extractLsb' 30 9)).getLsbD 0 with
    | false => rfl
    | true => rw [hnot1g hpresent]; rfl
  simp only [hpdptEntry, hcheck1g, Bool.false_eq_true, if_false]
  obtain ⟨r₂, s₂, hget₂, hs₂, hwalk₂, hnone₂, hsome₂⟩ :=
    getTable_eq hs₁ (by simp)
    hpdpt (entryAt_frameAddr pdpt virt 30) hnot1g
  simp only [pdptIdx, hget₂]
  have hwalk₂' : ∀ v, walk s₂.mem pml4 v = walk s.mem pml4 v :=
    fun v => (hwalk₂ v).trans (hwalk₁ v)
  cases r₂ with
  | none => exact ⟨_, _, rfl, hs₂, Or.inl ⟨rfl, hwalk₂', Or.inr (hnone₂ rfl)⟩⟩
  | some pdAddr =>
  obtain ⟨pd, rfl, hpd⟩ := hsome₂ _ rfl
  have hpdEntry : s₂.mem (entryAt (frameAddr pd) (pdIdx virt)) =
      readTable s₂.mem pd (virt.extractLsb' 21 9) := by
    rw [pdIdx, entryAt_frameAddr]
    rfl
  -- the walk of `virt` goes on from the page directory
  have hwalkPd : walk s₂.mem pml4 virt = lookup decode (readTable s₂.mem) pd
      [virt.extractLsb' 21 9, virt.extractLsb' 12 9] :=
    lookup_of_descend decode_of_child hpd (by simp)
  simp only [hpdEntry]
  split_ifs with hcheck2m
  · refine ⟨_, _, rfl, hs₂, Or.inl ⟨rfl, hwalk₂', Or.inl
      ⟨(readTable s₂.mem pd (virt.extractLsb' 21 9)).extractLsb' 21 31, ?_⟩⟩⟩
    rw [present_eq_getLsbD, large_eq_getLsbD, Bool.and_eq_true] at hcheck2m
    rw [← hwalk₂', hwalkPd]
    simp only [lookup, List.length_cons, List.length_nil, decode, hcheck2m.1,
      hcheck2m.2, Bool.true_eq_false, if_false]
    rfl
  rw [present_eq_getLsbD, large_eq_getLsbD] at hcheck2m
  have hnot2m : (readTable s₂.mem pd (virt.extractLsb' 21 9)).getLsbD 0 = true →
      (readTable s₂.mem pd (virt.extractLsb' 21 9)).getLsbD 7 = false := by
    intro hpresent
    simpa only [hpresent, Bool.true_and, Bool.not_eq_true] using hcheck2m
  have hnotLarge : ∀ f, walk s.mem pml4 virt ≠ some (.page2m f) := by
    intro f
    rw [← hwalk₂', hwalkPd]
    simp only [lookup, List.length_cons, List.length_nil]
    cases hpresent : (readTable s₂.mem pd (virt.extractLsb' 21 9)).getLsbD 0 with
    | false =>
        simp only [decode, hpresent, if_true]
        exact (Option.some_ne_none _).symm
    | true =>
        rw [decode_of_child 0 _ _ (child_eq_some_iff.mpr
          ⟨hpresent, hnot2m hpresent, rfl⟩)]
        simp only [decode]
        split_ifs <;> simp
  obtain ⟨r₃, s₃, hget₃, hs₃, hwalk₃, hnone₃, hsome₃⟩ :=
    getTable_eq hs₂ (by simp)
    hpd (entryAt_frameAddr pd virt 21) hnot2m
  simp only [pdIdx, hget₃]
  have hwalk₃' : ∀ v, walk s₃.mem pml4 v = walk s.mem pml4 v :=
    fun v => (hwalk₃ v).trans (hwalk₂' v)
  cases r₃ with
  | none => exact ⟨_, _, rfl, hs₃, Or.inl ⟨rfl, hwalk₃', Or.inr (hnone₃ rfl)⟩⟩
  | some ptAddr =>
  obtain ⟨pt, rfl, hpt⟩ := hsome₃ _ rfl
  obtain ⟨pages, htables, howned⟩ := hs₃
  obtain ⟨htables', hwalk'⟩ := htables.writePt (i := virt.extractLsb' 12 9)
    (by simp) hpt (decode_pageEntry physAddr)
    (readTable_update s₃.mem pt (virt.extractLsb' 12 9)
      ((physAddr &&& tableMask) ||| 0x03#64))
  simp only [ptIdx, entryAt_frameAddr]
  refine ⟨_, _, rfl, ⟨pages, htables', howned⟩, Or.inr ⟨rfl, ?_, hnotLarge⟩⟩
  intro v
  rw [Call.override, ← hwalk₃' v]
  simp only [← path_eq_iff]
  exact hwalk' v

/-- What a call to `map_page_2m` does to the translations. -/
theorem mapPage2m_eq (hs : s.Good source pml4) (phys : LargeFrame)
    (virt : BitVec 64) :
    ∃ r s', mapPage2m source (frameAddr pml4) (largeAddr phys) virt s = (r, s') ∧
      s'.Good source pml4 ∧
      (r = -1 ∧ (∀ v, walk s'.mem pml4 v = walk s.mem pml4 v) ∨
        r = 0 ∧ ∀ v, walk s'.mem pml4 v =
          (Call.mapPage2m phys virt).override (walk s.mem pml4) v) := by
  unfold mapPage2m
  obtain ⟨r₁, s₁, hget₁, hs₁, hwalk₁, -, hsome₁⟩ := getTable_eq hs (by simp)
    (reach_nil s.mem pml4) (entryAt_frameAddr pml4 virt 39)
    (by
      obtain ⟨pages, htables, -⟩ := hs
      exact htables.noHuge [] pml4 _ (by simp) rfl)
  simp only [pml4Idx, hget₁]
  cases r₁ with
  | none => exact ⟨_, _, rfl, hs₁, Or.inl ⟨rfl, hwalk₁⟩⟩
  | some pdptAddr =>
  obtain ⟨pdpt, rfl, hpdpt⟩ := hsome₁ _ rfl
  obtain ⟨r₂, s₂, hget₂, hs₂, hwalk₂, -, hsome₂⟩ := getTable_eq hs₁ (by simp)
    hpdpt (entryAt_frameAddr pdpt virt 30)
    (by
      obtain ⟨pages, htables, -⟩ := hs₁
      exact htables.noHuge _ pdpt _ (by simp) hpdpt)
  simp only [pdptIdx, hget₂]
  have hwalk₂' : ∀ v, walk s₂.mem pml4 v = walk s.mem pml4 v :=
    fun v => (hwalk₂ v).trans (hwalk₁ v)
  cases r₂ with
  | none => exact ⟨_, _, rfl, hs₂, Or.inl ⟨rfl, hwalk₂'⟩⟩
  | some pdAddr =>
  obtain ⟨pd, rfl, hpd⟩ := hsome₂ _ rfl
  obtain ⟨pages, htables, howned⟩ := hs₂
  obtain ⟨htables', hwalk'⟩ := htables.writePd (i := virt.extractLsb' 21 9)
    (by simp) hpd phys
    (readTable_update s₂.mem pd (virt.extractLsb' 21 9) (largeEntry phys))
  simp only [pdIdx, entryAt_frameAddr, largeAddr_and_largeMask]
  refine ⟨_, _, rfl, ⟨pages, htables', howned⟩, Or.inr ⟨rfl, ?_⟩⟩
  intro v
  rw [Call.override, ← hwalk₂' v]
  simp only [← prefix_path_iff]
  exact hwalk' v

/-- One call: the walk is overridden or left alone, as the result says. -/
theorem Call.apply_eq (hs : s.Good source pml4) (call : Call) :
    (call.apply source pml4 s).2.Good source pml4 ∧
      ∀ v, walk (call.apply source pml4 s).2.mem pml4 v =
        (if (call.apply source pml4 s).1 = 0 then
          call.override (walk s.mem pml4) else walk s.mem pml4) v := by
  cases call with
  | mapPage phys virt =>
      obtain ⟨r, s', heq, hs', ⟨rfl, hwalk, -⟩ | ⟨rfl, hwalk, -⟩⟩ :=
        mapPage_eq hs (frameAddr phys) virt
      · simp only [Call.apply, heq]
        exact ⟨hs', hwalk⟩
      · rw [extractLsb'_frameAddr] at hwalk
        simp only [Call.apply, heq]
        exact ⟨hs', hwalk⟩
  | mapPage2m phys virt =>
      obtain ⟨r, s', heq, hs', ⟨rfl, hwalk⟩ | ⟨rfl, hwalk⟩⟩ :=
        mapPage2m_eq hs phys virt
      · simp only [Call.apply, heq]
        exact ⟨hs', hwalk⟩
      · simp only [Call.apply, heq]
        exact ⟨hs', hwalk⟩

theorem runCalls_eq (hs : s.Good source pml4) (calls : List Call) :
    (runCalls source pml4 calls s).2.Good source pml4 ∧
      walk (runCalls source pml4 calls s).2.mem pml4 =
        replay (calls.zip (runCalls source pml4 calls s).1) (walk s.mem pml4) := by
  induction calls generalizing s with
  | nil => exact ⟨hs, rfl⟩
  | cons call calls ih =>
      obtain ⟨hs₁, hwalk⟩ := call.apply_eq hs
      obtain ⟨hs₂, hrun⟩ := ih hs₁
      refine ⟨hs₂, ?_⟩
      simp only [runCalls, List.zip_cons_cons, replay]
      rw [← funext hwalk]
      exact hrun

/-! ## The allocator's side of the calls -/

/-- The mapping functions touch the allocator through `kmalloc` only. -/
theorem getTable_pages {P : σ → Prop} (hP : ∀ a, P a → P (source.kmalloc a).2)
    (hs : P s.pages) (table idx : BitVec 64) :
    P (getTable source table idx s).2.pages := by
  have hkmalloc := hP _ hs
  unfold getTable
  split_ifs
  · exact hs
  · cases hk : source.kmalloc s.pages with
    | mk answer pages =>
        rw [hk] at hkmalloc
        cases answer <;> exact hkmalloc

theorem mapPage_pages {P : σ → Prop} (hP : ∀ a, P a → P (source.kmalloc a).2)
    (hs : P s.pages) (table physAddr virt : BitVec 64) :
    P (mapPage source table physAddr virt s).2.pages := by
  unfold mapPage
  have h₁ := getTable_pages hP hs table (pml4Idx virt)
  cases hget₁ : getTable source table (pml4Idx virt) s with
  | mk r₁ s₁ =>
  rw [hget₁] at h₁
  cases r₁ with
  | none => exact h₁
  | some pdpt =>
  simp only
  split_ifs
  · exact h₁
  have h₂ := getTable_pages hP h₁ pdpt (pdptIdx virt)
  cases hget₂ : getTable source pdpt (pdptIdx virt) s₁ with
  | mk r₂ s₂ =>
  rw [hget₂] at h₂
  cases r₂ with
  | none => exact h₂
  | some pd =>
  simp only
  split_ifs
  · exact h₂
  have h₃ := getTable_pages hP h₂ pd (pdIdx virt)
  cases hget₃ : getTable source pd (pdIdx virt) s₂ with
  | mk r₃ s₃ =>
  rw [hget₃] at h₃
  cases r₃ <;> exact h₃

theorem mapPage2m_pages {P : σ → Prop} (hP : ∀ a, P a → P (source.kmalloc a).2)
    (hs : P s.pages) (table physAddr virt : BitVec 64) :
    P (mapPage2m source table physAddr virt s).2.pages := by
  unfold mapPage2m
  have h₁ := getTable_pages hP hs table (pml4Idx virt)
  cases hget₁ : getTable source table (pml4Idx virt) s with
  | mk r₁ s₁ =>
  rw [hget₁] at h₁
  cases r₁ with
  | none => exact h₁
  | some pdpt =>
  have h₂ := getTable_pages hP h₁ pdpt (pdptIdx virt)
  cases hget₂ : getTable source pdpt (pdptIdx virt) s₁ with
  | mk r₂ s₂ =>
  rw [hget₂] at h₂
  simp only [hget₂]
  cases r₂ <;> exact h₂

/-! ## The refinement -/

/-- However `kmalloc` answers, the walk of the tables which a sequence of calls
builds is the map replayed from their results, and inside a 2 MiB page of that
map `map_page` fails. -/
theorem pageTables_refine_replay (source : PageSource σ) (pml4 : Frame)
    (s : State σ) (howned : source.Owned s.pages {pml4})
    (hempty : ∀ i, readTable s.mem pml4 i = 0) (calls : List Call) :
    walk (runCalls source pml4 calls s).2.mem pml4 =
        replay (calls.zip (runCalls source pml4 calls s).1) (fun _ => none) ∧
      ∀ phys virt large,
        replay (calls.zip (runCalls source pml4 calls s).1) (fun _ => none) virt =
            some (.page2m large) →
          (mapPage source (frameAddr pml4) (frameAddr phys) virt
            (runCalls source pml4 calls s).2).1 = -1 := by
  have hgood : s.Good source pml4 := ⟨_, Tables.initial hempty, howned⟩
  have hnone : walk s.mem pml4 = fun _ => none := by
    funext v
    rw [walk, path, lookup, hempty]
    rfl
  obtain ⟨hgood', hrun⟩ := runCalls_eq hgood calls
  rw [hnone] at hrun
  refine ⟨hrun, ?_⟩
  intro phys virt large hlarge
  rw [← hrun] at hlarge
  obtain ⟨r, s', heq, -, ⟨rfl, -⟩ | ⟨-, -, hnot⟩⟩ :=
    mapPage_eq hgood' (frameAddr phys) virt
  · rw [heq]
  · exact absurd hlarge (hnot large)

end Calls

/-- Pages handed out in the order of a list, failing where it says `none` and
past its end. -/
def listSource : PageSource (List (Option Frame)) where
  kmalloc
    | [] => (none, [])
    | answer :: answers => (answer, answers)
  Owned answers pages :=
    (∀ f, some f ∈ answers → f ≠ 0 ∧ f ∉ pages) ∧
      (answers.filterMap id).Nodup
  fresh := by
    rintro (_ | ⟨answer, answers⟩) f s' pages ⟨hmem, hnodup⟩ hk
    · simp at hk
    · obtain ⟨rfl, rfl⟩ : answer = some f ∧ answers = s' := by simpa using hk
      obtain ⟨hnot, hnodup⟩ : f ∉ answers.filterMap id ∧
          (answers.filterMap id).Nodup := by
        simpa using hnodup
      obtain ⟨hzero, hfresh⟩ := hmem f (by simp)
      refine ⟨hzero, hfresh, ?_, hnodup⟩
      intro g hg
      obtain ⟨hgzero, hgfresh⟩ := hmem g (List.mem_cons_of_mem _ hg)
      refine ⟨hgzero, ?_⟩
      rw [Finset.mem_insert, not_or]
      refine ⟨?_, hgfresh⟩
      rintro rfl
      exact hnot (List.mem_filterMap.mpr ⟨some g, hg, rfl⟩)
  failed := by
    rintro (_ | ⟨answer, answers⟩) s' pages ⟨hmem, hnodup⟩ hk
    · obtain rfl : [] = s' := by simpa using hk
      exact ⟨hmem, hnodup⟩
    · obtain ⟨rfl, rfl⟩ : answer = none ∧ answers = s' := by simpa using hk
      refine ⟨fun f hf => hmem f (List.mem_cons_of_mem _ hf), ?_⟩
      simpa using hnodup

/-- A 2 MiB page, a page inside it, which fails, a page elsewhere for which
`kmalloc` fails, and the same page again. -/
def sampleCalls : List Call :=
  [.mapPage2m 5 0x400000, .mapPage 9 0x401000, .mapPage 9 0x800000,
    .mapPage 9 0x800000]

theorem pageTables_refine_replay_sampleCalls :
    let s : State (List (Option Frame)) :=
      ⟨fun _ => 0, [some 2, some 3, none, some 4]⟩
    walk (runCalls listSource 1 sampleCalls s).2.mem 1 =
        replay (sampleCalls.zip (runCalls listSource 1 sampleCalls s).1)
          (fun _ => none) ∧
      ∀ phys virt large,
        replay (sampleCalls.zip (runCalls listSource 1 sampleCalls s).1)
            (fun _ => none) virt = some (.page2m large) →
          (mapPage listSource (frameAddr 1) (frameAddr phys) virt
            (runCalls listSource 1 sampleCalls s).2).1 = -1 := by
  refine pageTables_refine_replay listSource 1 _ ⟨?_, by decide⟩
    (fun _ => rfl) sampleCalls
  intro f hf
  simp only [List.mem_cons, Option.some.injEq, reduceCtorEq, List.not_mem_nil,
    false_or, or_false] at hf
  rcases hf with rfl | rfl | rfl <;> decide

example : (runCalls listSource 1 sampleCalls
    ⟨fun _ => 0, [some 2, some 3, none, some 4]⟩).1 = [0, -1, -1, 0] := by
  decide +kernel

end PageTable
end SubleqEmu
