import SubleqEmu.BlockCodeModel

/-!
# The layout of a block's code

Without its displacements the code is what the emitter wrote, and every label stands for
one place.
-/

namespace SubleqEmu
namespace BlockCode

open X86 ByteMemory EmitterBytes BlockBuffers Parts
open Machine (Insn Pending Precise Smc Stub)

variable {b : Parts} {i : Insn} {is : List Insn} {k j : ℕ} {l : Label}

/-! ## Bytes -/

@[simp] theorem blank_jcc (c : ℕ) (l : Label) : blank (jcc c l) = jcc32 c := rfl

@[simp] theorem blank_jmp (l : Label) : blank (jmp l) = jmp32 := rfl

@[simp] theorem blank_bytes (bs : List Byte) (ps : Code) :
    blank (.bytes bs :: ps) = bs ++ blank ps := rfl

@[simp] theorem blank_label (l : Label) (ps : Code) : blank (.label l :: ps) = blank ps := rfl

@[simp] theorem blank_nil : blank ([] : Code) = [] := rfl

@[simp] theorem blank_map_bytes (l : List (List Byte)) :
    blank (l.map Piece.bytes : Code) = l.flatten := by
  induction l with
  | nil => rfl
  | cons bs l ih => simp [ih]

theorem blank_flatMap {α : Type} (f : α → Code) (l : List α) :
    blank (l.flatMap f) = l.flatMap fun x => blank (f x) := by
  induction l with
  | nil => rfl
  | cons x l ih => simp [ih]

theorem blank_numbered {α : Type} (f : ℕ → α → Code) (g : α → List Byte)
    (h : ∀ k x, blank (f k x) = g x) (k : ℕ) (l : List α) :
    blank (numbered f k l) = l.flatMap g := by
  induction l generalizing k with
  | nil => rfl
  | cons x l ih => simp [numbered, h, ih]

theorem blank_insnCode (b : Parts) (k j : ℕ) (i : Insn) :
    blank (b.insnCode k j i) = encode b.host.pageOff i := by
  cases i <;> simp [insnCode] <;> rfl

theorem blank_bodyCode (b : Parts) (k j : ℕ) (is : List Insn) :
    blank (b.bodyCode k j is) = EmitterBytes.code b.host.pageOff is := by
  induction is generalizing k j with
  | nil => rfl
  | cons i is ih => simp [bodyCode, blank_insnCode, ih, EmitterBytes.code]

theorem blank_smcCode (b : Parts) (k : ℕ) (s : Smc) :
    blank (b.smcCode k s) = smcStub b.host b.useMovbe b.start b.n s := by
  obtain ⟨idx, pend, precise⟩ := s
  cases precise <;>
    simp [smcCode, preciseCode, preciseLoad, smcTail, smcStub, preciseTest, exitTo]

theorem blank_slowCode (k : ℕ) (target : Word) : blank (slowCode k target) = slowPath target := by
  have hjmp : jmp32 = BitVec.ofNat 8 0xe9 :: littleEndian 4 0 := rfl
  simp [slowCode, slowPath, leaSite, hjmp, blank]

theorem blank_stubCode (b : Parts) (k : ℕ) (s : Stub) :
    blank (b.stubCode k s) = exitStub b.host b.useMovbe b.n s := by
  have hback : blank (if b.unexec s ≠ 0 then [.bytes (giveBack (b.unexec s))] else [] : Code) =
      if b.unexec s ≠ 0 then giveBack (b.unexec s) else [] := by
    split_ifs <;> simp
  simp only [stubCode, exitStub, stubStoreBytes, blank_append, hback]
  split_ifs <;> simp_all [blank_slowCode, dynCode, unexec]

theorem blank_exitCode (b : Parts) (l : Label) (back info : BitVec 32) {v : Word}
    (hv : info.setWidth 64 = v) :
    blank (b.exitCode l back v) = giveBack back ++ exitTo b.start info := by
  simp [exitCode, exitTo, hv]

theorem blank_copyCode (b : Parts) (desc : Word) :
    blank (b.copyCode desc) = copyCall desc b.host.jitCopy := by
  simp [copyCode, copyCall, copyArguments, callRax, timesNineteen]

theorem blank_watchCode (b : Parts) :
    blank b.watchCode = b.host.watch.elim [] fun w => watchTest w.1 w.2 := by
  cases h : b.host.watch with
  | none => simp [watchCode, h]
  | some w =>
      simp only [watchCode, h, Option.elim_some, watchTest, watchCompare]
      split_ifs <;> simp

theorem blank_hoistCode (b : Parts) : blank b.hoistCode = b.sites.flatMap groupTest := by
  rw [hoistCode, blank_flatMap]
  congr 1

theorem blank_code (b : Parts) : blank b.code = b.bytes := by
  have hbudget : blank (b.exitCode .budget b.n 0) = giveBack b.n ++ exitTo b.start 0 :=
    blank_exitCode b .budget b.n 0 rfl
  have hcopy : blank (b.desc.elim [] b.copyCode) =
      b.desc.elim [] fun d => copyCall d b.host.jitCopy := by
    cases b.desc <;> simp [blank_copyCode]
  have hchanged : blank (b.host.watch.elim [] fun _ => b.exitCode .watch b.n 3) =
      b.host.watch.elim [] fun _ => giveBack b.n ++ exitTo b.start 3 := by
    cases b.host.watch with
    | none => rfl
    | some w => exact blank_exitCode b .watch b.n 3 rfl
  have hmarked : blank (if b.sites = [] then [] else b.exitCode .hoist b.n 2) =
      if b.sites = [] then [] else giveBack b.n ++ exitTo b.start 2 := by
    split_ifs
    · rfl
    · exact blank_exitCode b .hoist b.n 2 rfl
  have hsmcs := blank_numbered b.smcCode _ (blank_smcCode b) 0 (smcsOf b.body)
  have hstubs := blank_numbered b.stubCode _ (blank_stubCode b) 0 b.stubs
  simp only [Parts.code, blank_append, hbudget, hcopy, hchanged, hmarked, hsmcs, hstubs,
    blank_watchCode,
    blank_hoistCode, blank_bodyCode]
  simp [entryCode, invCode, Parts.bytes, blockCode, stubs, exitTo]

/-! ## Labels -/

@[simp] theorem names_jcc (c : ℕ) (l : Label) : names (jcc c l) = [] := rfl

@[simp] theorem names_jmp (l : Label) : names (jmp l) = [] := rfl

@[simp] theorem rels_jcc (c : ℕ) (l : Label) : rels (jcc c l) = [l] := rfl

@[simp] theorem rels_jmp (l : Label) : rels (jmp l) = [l] := rfl

@[simp] theorem names_map_bytes (l : List (List Byte)) : names (l.map .bytes : Code) = [] := by
  induction l with
  | nil => rfl
  | cons bs l ih => exact ih

@[simp] theorem rels_map_bytes (l : List (List Byte)) : rels (l.map .bytes : Code) = [] := by
  induction l with
  | nil => rfl
  | cons bs l ih => exact ih

theorem smcsOf_cons (i : Insn) (is : List Insn) : smcsOf (i :: is) = smcsOf [i] ++ smcsOf is := by
  simp [smcsOf, ← List.filterMap_append]

theorem stubsOf_cons (i : Insn) (is : List Insn) :
    stubsOf (i :: is) = stubsOf [i] ++ stubsOf is := by
  simp [stubsOf, ← List.filterMap_append]

/-- Only checks have a label, for the way back. -/
theorem names_insnCode (b : Parts) (k j : ℕ) (i : Insn) :
    names (b.insnCode k j i) = (smcsOf [i]).map fun _ => .back k := by
  cases i <;> rfl

theorem rels_insnCode (b : Parts) (k j : ℕ) (i : Insn) :
    rels (b.insnCode k j i) =
      ((smcsOf [i]).map fun _ => .smc k) ++ (stubsOf [i]).map fun _ => .stub j := by
  cases i <;> rfl

theorem length_smcsOf_le (i : Insn) : (smcsOf [i]).length ≤ 1 :=
  List.length_filterMap_le _ [i]

theorem mem_names_bodyCode : l ∈ names (b.bodyCode k j is) ↔
    ∃ k', k ≤ k' ∧ k' < k + (smcsOf is).length ∧ l = .back k' := by
  induction is generalizing k j with
  | nil => simp [bodyCode, names, smcsOf]; omega
  | cons i is ih =>
      have hone := length_smcsOf_le i
      rw [bodyCode, names_append, List.mem_append, ih, names_insnCode,
        smcsOf_cons i is, List.length_append]
      constructor
      · rintro (h | ⟨k', hle, hlt, rfl⟩)
        · obtain ⟨s, hs, rfl⟩ := List.mem_map.mp h
          have hpos := List.length_pos_of_mem hs
          exact ⟨k, le_rfl, by omega, rfl⟩
        · exact ⟨k', by omega, by omega, rfl⟩
      · rintro ⟨k', hle, hlt, rfl⟩
        by_cases hfirst : k' < k + (smcsOf [i]).length
        · obtain rfl : k' = k := by omega
          obtain ⟨s, hs⟩ := List.exists_mem_of_length_pos (by omega : 0 < (smcsOf [i]).length)
          exact Or.inl (List.mem_map.mpr ⟨s, hs, rfl⟩)
        · exact Or.inr ⟨k', by omega, by omega, rfl⟩

theorem nodup_names_bodyCode : (names (b.bodyCode k j is)).Nodup := by
  induction is generalizing k j with
  | nil => exact List.nodup_nil
  | cons i is ih =>
      have hone := length_smcsOf_le i
      rw [bodyCode, names_append, List.nodup_append, names_insnCode]
      refine ⟨?_, ih, ?_⟩
      · match smcsOf [i], hone with
        | [], _ => exact List.nodup_nil
        | [s], _ => exact List.nodup_singleton _
      · rintro l hl l' hl' rfl
        obtain ⟨s, hs, rfl⟩ := List.mem_map.mp hl
        obtain ⟨k', hle, -, heq⟩ := mem_names_bodyCode.mp hl'
        have hpos := List.length_pos_of_mem hs
        cases heq
        omega

theorem mem_rels_bodyCode (h : l ∈ rels (b.bodyCode k j is)) :
    (∃ k' < k + (smcsOf is).length, l = .smc k') ∨
      ∃ j' < j + (stubsOf is).length, l = .stub j' := by
  induction is generalizing k j with
  | nil => cases h
  | cons i is ih =>
      rw [bodyCode, rels_append, List.mem_append, rels_insnCode, List.mem_append] at h
      rw [smcsOf_cons i is, stubsOf_cons i is, List.length_append, List.length_append]
      rcases h with (h | h) | h
      · obtain ⟨s, hs, rfl⟩ := List.mem_map.mp h
        have hpos := List.length_pos_of_mem hs
        exact Or.inl ⟨k, by omega, rfl⟩
      · obtain ⟨s, hs, rfl⟩ := List.mem_map.mp h
        have hpos := List.length_pos_of_mem hs
        exact Or.inr ⟨j, by omega, rfl⟩
      · rcases ih h with ⟨k', hlt, rfl⟩ | ⟨j', hlt, rfl⟩
        · exact Or.inl ⟨k', by omega, rfl⟩
        · exact Or.inr ⟨j', by omega, rfl⟩

section Numbered

variable {α : Type} {f : ℕ → α → Code} {xs : List α}

theorem mem_names_numbered : l ∈ names (numbered f k xs) ↔
    ∃ n x, xs[n]? = some x ∧ l ∈ names (f (k + n) x) := by
  induction xs generalizing k with
  | nil => simp [numbered, names]
  | cons x xs ih =>
      rw [numbered, names_append, List.mem_append, ih]
      constructor
      · rintro (h | ⟨n, y, hy, h⟩)
        · exact ⟨0, x, rfl, h⟩
        · exact ⟨n + 1, y, hy, by rwa [show k + (n + 1) = k + 1 + n by omega]⟩
      · rintro ⟨n, y, hy, h⟩
        cases n with
        | zero =>
            cases hy
            exact Or.inl h
        | succ n => exact Or.inr ⟨n, y, hy, by rwa [show k + 1 + n = k + (n + 1) by omega]⟩

theorem mem_rels_numbered (h : l ∈ rels (numbered f k xs)) :
    ∃ n x, xs[n]? = some x ∧ l ∈ rels (f (k + n) x) := by
  induction xs generalizing k with
  | nil => cases h
  | cons x xs ih =>
      rw [numbered, rels_append, List.mem_append] at h
      rcases h with h | h
      · exact ⟨0, x, rfl, h⟩
      · obtain ⟨n, y, hy, hl⟩ := ih h
        exact ⟨n + 1, y, hy, by rwa [show k + (n + 1) = k + 1 + n by omega]⟩

/-- Labels that tell their record apart from others. -/
theorem nodup_names_numbered (index : Label → ℕ) (hnodup : ∀ k x, (names (f k x)).Nodup)
    (hindex : ∀ k x, ∀ l ∈ names (f k x), index l = k) : (names (numbered f k xs)).Nodup := by
  induction xs generalizing k with
  | nil => exact List.nodup_nil
  | cons x xs ih =>
      rw [numbered, names_append, List.nodup_append]
      refine ⟨hnodup k x, ih, ?_⟩
      rintro l hl l' hl' rfl
      obtain ⟨n, y, -, h⟩ := mem_names_numbered.mp hl'
      have hfirst := hindex k x l hl
      have hlater := hindex _ y l h
      omega

end Numbered

/-- The number of the record that a label is for. -/
def Label.index : Label → ℕ
  | .smc k => k
  | .hit k => k
  | .stub k => k
  | .site k => k
  | .slow k => k
  | _ => 0

theorem names_smcCode (b : Parts) (k : ℕ) (s : Smc) :
    names (b.smcCode k s) = .smc k :: s.precise.elim [] fun _ => [.hit k] := by
  obtain ⟨idx, pend, precise⟩ := s
  cases precise <;> simp [smcCode, preciseCode, names]

theorem rels_smcCode (b : Parts) (k : ℕ) (s : Smc) :
    rels (b.smcCode k s) = s.precise.elim [] fun _ => [.hit k, .hit k, .back k] := by
  obtain ⟨idx, pend, precise⟩ := s
  cases precise <;> simp [smcCode, preciseCode, rels]

theorem names_stubCode (b : Parts) (k : ℕ) (s : Stub) :
    names (b.stubCode k s) = .stub k :: if s.dyn then [] else [.site k, .slow k] := by
  simp only [stubCode]
  split_ifs <;> simp [names, slowCode, dynCode]

theorem rels_stubCode (b : Parts) (k : ℕ) (s : Stub) :
    rels (b.stubCode k s) = if s.dyn then [] else [.target k] := by
  simp only [stubCode]
  split_ifs <;> simp [rels, slowCode, dynCode]

/-! ## All labels -/

/-- The parts of the code in their order. -/
def Label.kind : Label → ℕ
  | .entry => 0
  | .none => 1
  | .back _ => 2
  | .budget => 3
  | .watch => 4
  | .inv => 5
  | .hoist => 6
  | .smc _ => 7
  | .hit _ => 7
  | .stub _ => 8
  | .site _ => 8
  | .slow _ => 8
  | .target _ => 9

structure From (n : ℕ) (ls : List Label) : Prop where
  nodup : ls.Nodup
  kind : ∀ l ∈ ls, n ≤ l.kind

theorem From.append {n : ℕ} {ls ls' : List Label} (hnodup : ls.Nodup)
    (hkind : ∀ l ∈ ls, l.kind = n) (h : From (n + 1) ls') : From n (ls ++ ls') where
  nodup := by
    refine List.nodup_append.mpr ⟨hnodup, h.nodup, ?_⟩
    rintro l hl l' hl' rfl
    have hfirst := hkind l hl
    have hlater := h.kind l hl'
    omega
  kind l hl := by
    rcases List.mem_append.mp hl with hl | hl
    · exact (hkind l hl).ge
    · exact (Nat.le_succ n).trans (h.kind l hl)

@[simp] theorem names_hoistCode (b : Parts) : names b.hoistCode = [] := by
  unfold hoistCode
  induction b.sites with
  | nil => rfl
  | cons g sites ih => simp [names, ih]

@[simp] theorem names_watchCode (b : Parts) : names b.watchCode = [] := by
  unfold watchCode
  cases b.host.watch <;> simp [names]

theorem names_code (b : Parts) : names b.code =
    [.entry] ++ ((b.desc.elim [] fun _ => [.none]) ++
      (names (b.bodyCode 0 (b.desc.elim 0 fun _ => 1) b.body) ++ ([.budget] ++
        ((b.host.watch.elim [] fun _ => [.watch]) ++ ([.inv] ++
          ((if b.sites = [] then [] else [.hoist]) ++
            (names (numbered b.smcCode 0 (smcsOf b.body)) ++
              names (numbered b.stubCode 0 b.stubs)))))))) := by
  have hcopy : names (b.desc.elim [] b.copyCode) = b.desc.elim [] fun _ => [.none] := by
    cases b.desc <;> simp [copyCode, names]
  have hwatch : names (b.host.watch.elim [] fun _ => b.exitCode .watch b.n 3) =
      b.host.watch.elim [] fun _ => [.watch] := by
    cases b.host.watch <;> simp [exitCode, names]
  have hhoist : names (if b.sites = [] then [] else b.exitCode .hoist b.n 2) =
      if b.sites = [] then [] else [.hoist] := by
    split_ifs <;> simp [exitCode, names]
  simp only [Parts.code, names_append, hcopy, hwatch, hhoist, names_watchCode, names_hoistCode]
  simp [entryCode, invCode, exitCode, names]

theorem from_names_code (b : Parts) : From 0 (names b.code) := by
  rw [names_code]
  refine .append (by simp) (by simp [Label.kind]) ?_
  refine .append (by cases b.desc <;> simp) (by cases b.desc <;> simp [Label.kind]) ?_
  refine .append nodup_names_bodyCode ?_ ?_
  · intro l hl
    obtain ⟨k, -, -, rfl⟩ := mem_names_bodyCode.mp hl
    rfl
  refine .append (by simp) (by simp [Label.kind]) ?_
  refine .append (by cases b.host.watch <;> simp)
    (by cases b.host.watch <;> simp [Label.kind]) ?_
  refine .append (by simp) (by simp [Label.kind]) ?_
  refine .append (by split_ifs <;> simp) (by split_ifs <;> simp [Label.kind]) ?_
  refine .append (nodup_names_numbered Label.index (fun k s => ?_) fun k s => ?_) ?_ ⟨?_, ?_⟩
  · rw [names_smcCode]
    cases s.precise <;> simp
  · rw [names_smcCode]
    cases s.precise <;> simp [Label.index]
  · intro l hl
    obtain ⟨k, s, -, hl⟩ := mem_names_numbered.mp hl
    rw [names_smcCode] at hl
    revert hl
    cases s.precise <;> simp only [Option.elim, List.mem_cons, List.not_mem_nil, or_false]
    · rintro rfl
      rfl
    · rintro (rfl | rfl) <;> rfl
  · refine nodup_names_numbered Label.index (fun k s => ?_) fun k s => ?_
    · rw [names_stubCode]
      split_ifs <;> simp
    · rw [names_stubCode]
      split_ifs <;> simp [Label.index]
  · intro l hl
    obtain ⟨k, s, -, hl⟩ := mem_names_numbered.mp hl
    rw [names_stubCode] at hl
    revert hl
    split_ifs <;> simp only [List.mem_cons, List.not_mem_nil, or_false]
    · rintro rfl
      exact le_rfl
    · rintro (rfl | rfl | rfl) <;> exact le_rfl

/-- What is linked later has no place in the block. -/
theorem target_not_mem (b : Parts) (k : ℕ) : .target k ∉ names b.code := by
  intro h
  rw [names_code] at h
  simp only [List.mem_append] at h
  rcases h with h | h | h | h | h | h | h | h | h
  · simp at h
  · cases hd : b.desc <;> simp [hd] at h
  · obtain ⟨_, -, -, h⟩ := mem_names_bodyCode.mp h
    cases h
  · simp at h
  · cases hw : b.host.watch <;> simp [hw] at h
  · simp at h
  · split_ifs at h <;> simp at h
  · obtain ⟨_, s, -, h⟩ := mem_names_numbered.mp h
    rw [names_smcCode] at h
    cases hp : s.precise <;> simp [hp] at h
  · obtain ⟨_, s, -, h⟩ := mem_names_numbered.mp h
    rw [names_stubCode] at h
    split_ifs at h <;> simp at h

theorem mem_rels_hoistCode (h : l ∈ rels b.hoistCode) : l = .hoist ∧ b.sites ≠ [] := by
  have hmem : ∀ sites : List (Word × BitVec 32),
      l ∈ rels (sites.flatMap fun g => .bytes (groupBytes g) :: jcc 0x5 .hoist) →
      l = .hoist ∧ sites ≠ [] := by
    intro sites
    induction sites with
    | nil => exact fun h => absurd h List.not_mem_nil
    | cons g sites ih =>
        intro h
        simp only [List.flatMap_cons, rels_append, List.mem_append] at h
        rcases h with h | h
        · exact ⟨List.mem_singleton.mp h, List.cons_ne_nil g sites⟩
        · exact ⟨(ih h).1, List.cons_ne_nil g sites⟩
  exact hmem b.sites h

theorem length_stubs (b : Parts) :
    b.stubs.length = (b.desc.elim 0 fun _ => 1) + (stubsOf b.body).length := by
  cases h : b.desc <;> simp [stubs, h]; omega

/-- Jumps stay in the block, or can be linked. -/
theorem mem_rels_code (h : l ∈ rels b.code) : l ∈ names b.code ∨ ∃ k, l = .target k := by
  have hsmc : ∀ k < (smcsOf b.body).length, .smc k ∈ names b.code := by
    intro k hk
    have hnum : .smc k ∈ names (numbered b.smcCode 0 (smcsOf b.body)) :=
      mem_names_numbered.mpr ⟨k, _, List.getElem?_eq_getElem hk, by simp [names_smcCode]⟩
    simp [names_code, hnum]
  have hstub : ∀ k < b.stubs.length, .stub k ∈ names b.code := by
    intro k hk
    have hnum : .stub k ∈ names (numbered b.stubCode 0 b.stubs) :=
      mem_names_numbered.mpr ⟨k, _, List.getElem?_eq_getElem hk, by simp [names_stubCode]⟩
    simp [names_code, hnum]
  have hlen := length_stubs b
  simp only [Parts.code, rels_append, List.mem_append] at h
  rcases h with ((((((((((h | h) | h) | h) | h) | h) | h) | h) | h) | h) | h)
  · left
    simp [entryCode, rels] at h
    simp [names_code, h]
  · left
    cases hw : b.host.watch with
    | none => simp [watchCode, hw, rels] at h
    | some w =>
        simp [watchCode, hw, rels] at h
        simp [names_code, hw, h]
  · left
    obtain ⟨rfl, hne⟩ := mem_rels_hoistCode h
    simp [names_code, hne]
  · left
    cases hd : b.desc with
    | none => simp [hd, rels] at h
    | some d =>
        rw [hd] at hlen
        simp only [hd, Option.elim_some, copyCode, rels_append, List.mem_append] at h
        simp [rels] at h
        rcases h with (rfl | rfl) | rfl
        · simp [names_code, hd]
        · exact hstub 0 (by simp at hlen; omega)
        · simp [names_code]
  · left
    rcases mem_rels_bodyCode h with ⟨k, hk, rfl⟩ | ⟨j, hj, rfl⟩
    · exact hsmc k (by omega)
    · exact hstub j (by omega)
  · simp [exitCode, rels] at h
  · cases hw : b.host.watch <;> simp [hw, exitCode, rels] at h
  · simp [invCode, rels] at h
  · split_ifs at h <;> simp [exitCode, rels] at h
  · left
    obtain ⟨k, s, hs, h⟩ := mem_rels_numbered h
    have hk := (List.getElem?_eq_some_iff.mp hs).1
    rw [rels_smcCode, Nat.zero_add] at h
    cases hp : s.precise with
    | none => simp [hp] at h
    | some q =>
        simp [hp] at h
        rcases h with rfl | rfl
        · have hnum : .hit k ∈ names (numbered b.smcCode 0 (smcsOf b.body)) :=
            mem_names_numbered.mpr ⟨k, s, hs, by simp [names_smcCode, hp]⟩
          simp [names_code, hnum]
        · have hback : .back k ∈ names (b.bodyCode 0 (b.desc.elim 0 fun _ => 1) b.body) :=
            mem_names_bodyCode.mpr ⟨k, by omega, by omega, rfl⟩
          simp [names_code, hback]
  · obtain ⟨k, s, hs, h⟩ := mem_rels_numbered h
    rw [rels_stubCode] at h
    split_ifs at h
    · cases h
    · exact Or.inr ⟨_, List.mem_singleton.mp h⟩
/-! ## Places -/

variable {m : Memory} {base x : Word} {targets : ℕ → Word}

theorem find_of_nodup {α β : Type} [DecidableEq α] {ls : List (α × β)} {a : α} {y : β}
    (h : (a, y) ∈ ls) (hnodup : (ls.map Prod.fst).Nodup) :
    ls.find? (fun z => z.1 = a) = some (a, y) := by
  induction ls with
  | nil => cases h
  | cons z ls ih =>
      obtain ⟨hz, hls⟩ := List.nodup_cons.mp hnodup
      rcases List.mem_cons.mp h with rfl | h
      · simp
      · have hne : z.1 ≠ a := by
          rintro rfl
          exact hz (List.mem_map.mpr ⟨_, h, rfl⟩)
        simp [hne, ih h hls]

theorem place_of_mem (h : (l, x) ∈ labels base b.code) : place b.code base targets l = x := by
  have hnames := map_labels base b.code
  have hfind := find_of_nodup h (by rw [hnames]; exact (from_names_code b).nodup)
  cases l with
  | target k => exact absurd (hnames ▸ List.mem_map.mpr ⟨_, h, rfl⟩) (target_not_mem b k)
  | _ => simp only [place, hfind, Option.map_some, Option.getD_some]

/-- Finished code of a block, once every jump that can be linked has a target. -/
theorem laid_code (hheld : Holds m base b.bytes) (hsize : b.bytes.length < 2 ^ 31)
    (htargets : ∀ k s, (s, .target k) ∈ sites base b.code → Near s (targets k)) :
    Laid (patched (place b.code base targets) m (sites base b.code))
      (place b.code base targets) base b.code := by
  have hlength := length_blank b.code
  rw [blank_code] at hlength
  refine laid_patched (by rwa [blank_code]) (by omega) (fun l x h => place_of_mem h) ?_
  intro s l hs
  obtain ⟨hrel, n, hn, rfl⟩ := place_of_site hs
  rcases mem_rels_code hrel with hname | ⟨k, rfl⟩
  · rw [← map_labels base b.code] at hname
    obtain ⟨⟨l, x⟩, hmem, rfl⟩ := List.mem_map.mp hname
    obtain ⟨k, hk, rfl⟩ := place_of_label hmem
    rw [place_of_mem hmem]
    exact near_of_le (by omega) (by omega)
  · exact htargets k _ hs

end BlockCode
end SubleqEmu
