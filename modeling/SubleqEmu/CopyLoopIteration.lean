import SubleqEmu.CopyLoopMatch

/-!
# One iteration of the word copy loop

The interpreter runs the 19 instructions as subtractions between a few words that
are apart from each other and from the fields of the loop that stay.
-/

namespace SubleqEmu
namespace CopyLoop

open ByteMemory Subleq

/-- The words an iteration writes, and `M`. -/
inductive Cell
  | t1 | t2 | s | d | c | m | f1 | f2 | f3 | f4 | dst
  deriving DecidableEq

/-- Field `i` of the loop, the first one of instruction `k` being field `3 * k`. -/
def fieldAt (start : Word) (i : ℕ) : Word := start + 8 * BitVec.ofNat 64 i

/-- The fields that the loop patches. -/
def patched : List ℕ := [15, 46, 42, 43]

def Cell.addr (desc : Desc) (dst : Word) : Cell → Word
  | .t1 => desc.t1
  | .t2 => desc.t2
  | .s => desc.s
  | .d => desc.d
  | .c => desc.c
  | .m => desc.m
  | .f1 => fieldAt desc.start 15
  | .f2 => fieldAt desc.start 46
  | .f3 => fieldAt desc.start 42
  | .f4 => fieldAt desc.start 43
  | .dst => dst

/-- A loop whose words are in memory, and a destination apart from them. -/
structure Setting (size : MemSize) (mem : Memory) (desc : Desc) (dst : Word) : Prop where
  loop : ∃ dynMap, Loop size dynMap mem desc
  holds : ∀ x : Cell, size.Holds (x.addr desc dst)
  apart : ∀ x y : Cell, x ≠ y → Apart (x.addr desc dst) (y.addr desc dst)
  apart_code : ∀ x : Cell, ∀ i < 57, i ∉ patched →
    Apart (x.addr desc dst) (fieldAt desc.start i)

variable {size : MemSize} {mem m : Memory} {desc : Desc} {dst : Word} {env : Cell → Word}

/-- Memory in the middle of an iteration: the loop is still there, the cells hold
`env`, and the other bytes are as at first. -/
structure At (mem : Memory) (desc : Desc) (dst : Word) (m : Memory) (env : Cell → Word) :
    Prop where
  code : ∀ i < 57, i ∉ patched →
    read m (fieldAt desc.start i) = read mem (fieldAt desc.start i)
  cell : ∀ x : Cell, read m (x.addr desc dst) = env x
  other : ∀ a, (∀ x : Cell, 8 ≤ (a - x.addr desc dst).toNat) → m a = mem a

def subtract (env : Cell → Word) (op : Cell × Cell) : Cell → Word :=
  Function.update env op.2 (env op.2 - env op.1)

theorem At.write (hset : Setting size mem desc dst) (h : At mem desc dst m env) (x : Cell)
    (v : Word) :
    At mem desc dst (ByteMemory.write m (x.addr desc dst) v) (Function.update env x v) := by
  refine ⟨?_, ?_, ?_⟩
  · intro i hi hnot
    rw [read_write_apart _ _ (hset.apart_code x i hi hnot), h.code i hi hnot]
  · intro y
    by_cases hy : y = x
    · rw [hy, read_write_self, Function.update_self]
    · rw [read_write_apart _ _ (hset.apart x y (Ne.symm hy)), h.cell y,
        Function.update_of_ne hy]
  · intro a ha
    rw [ByteMemory.write, if_neg (Nat.not_lt.mpr (ha x)), h.other a ha]

/-! ## Fields -/

theorem insnAt_eq_fieldAt (start : Word) (k : ℕ) : insnAt start k = fieldAt start (3 * k) := by
  unfold insnAt fieldAt
  bv_omega

theorem insnAt_add_eight (start : Word) (k : ℕ) :
    insnAt start k + 8 = fieldAt start (3 * k + 1) := by
  unfold insnAt fieldAt
  bv_omega

theorem insnAt_add_sixteen (start : Word) (k : ℕ) :
    insnAt start k + 16 = fieldAt start (3 * k + 2) := by
  unfold insnAt fieldAt
  bv_omega

theorem nextOf_of_lt {start : Word} {k : ℕ} (hk : k < 18) :
    nextOf start k = insnAt start (k + 1) := by
  rw [nextOf, if_neg (Nat.ne_of_lt hk), insnAt_succ]

theorem fieldAt_holds (hset : Setting size mem desc dst) {i : ℕ} (hi : i < 57) :
    size.Holds (fieldAt desc.start i) := by
  obtain ⟨_, hloop⟩ := hset.loop
  have hstart := hloop.start_le
  have hsize := size.le
  unfold MemSize.Holds fieldAt
  bv_omega

/-! ## Instructions -/

theorem interpStep_eq {eip a b c : Word} (ha : read m eip = a) (hb : read m (eip + 8) = b)
    (hc : read m (eip + 16) = c) (heip : size.Holds eip) (heip₁ : size.Holds (eip + 8))
    (heip₂ : size.Holds (eip + 16)) (hholdsA : size.Holds a) (hholdsB : size.Holds b) :
    interpStep size m eip = some (ByteMemory.write m b (read m b - read m a),
      if (read m b).sle (read m a) then c else eip + 24) := by
  subst ha hb hc
  simp only [interpStep, rd, wr, Option.bind_eq_bind, Option.bind_some, if_pos heip,
    if_pos heip₁, if_pos heip₂, if_pos hholdsA, if_pos hholdsB]
  rfl

/-- Instruction `k`, if its fields are the addresses of two words in memory. -/
theorem insn_eq (hset : Setting size mem desc dst) (h : At mem desc dst m env) {k : ℕ}
    (hk : k < 19) {a b : Word} (ha : read m (insnAt desc.start k) = a)
    (hb : read m (insnAt desc.start k + 8) = b) (hholdsA : size.Holds a)
    (hholdsB : size.Holds b) :
    interpStep size m (insnAt desc.start k) =
      some (ByteMemory.write m b (read m b - read m a),
        if (read m b).sle (read m a) then nextOf desc.start k
        else insnAt desc.start (k + 1)) := by
  obtain ⟨_, hloop⟩ := hset.loop
  have hc : read m (insnAt desc.start k + 16) = nextOf desc.start k := by
    rw [insnAt_add_sixteen, h.code _ (by omega) (by simp [patched]; omega),
      ← insnAt_add_sixteen, hloop.next k hk]
  rw [interpStep_eq ha hb hc, insnAt_succ]
  · rw [insnAt_eq_fieldAt]
    exact fieldAt_holds hset (by omega)
  · rw [insnAt_add_eight]
    exact fieldAt_holds hset (by omega)
  · rw [insnAt_add_sixteen]
    exact fieldAt_holds hset (by omega)
  · exact hholdsA
  · exact hholdsB

/-- An instruction between two cells. -/
theorem op_eq (hset : Setting size mem desc dst) (h : At mem desc dst m env) {k : ℕ}
    (hk : k < 19) (op : Cell × Cell)
    (ha : read m (insnAt desc.start k) = op.1.addr desc dst)
    (hb : read m (insnAt desc.start k + 8) = op.2.addr desc dst) :
    ∃ m', interpStep size m (insnAt desc.start k) =
        some (m', if (env op.2).sle (env op.1) then nextOf desc.start k
          else insnAt desc.start (k + 1)) ∧
      At mem desc dst m' (subtract env op) ∧
      ∀ a, Apart (op.2.addr desc dst) a → read m' a = read m a := by
  refine ⟨_, ?_, h.write hset op.2 (env op.2 - env op.1),
    fun a ha => read_write_apart _ _ ha⟩
  rw [insn_eq hset h hk ha hb (hset.holds _) (hset.holds _), h.cell, h.cell]

/-- Every instruction but the last goes on to the next one. -/
theorem op_next (hset : Setting size mem desc dst) (h : At mem desc dst m env) {k : ℕ}
    (hk : k < 18) (op : Cell × Cell)
    (ha : read m (insnAt desc.start k) = op.1.addr desc dst)
    (hb : read m (insnAt desc.start k + 8) = op.2.addr desc dst) :
    ∃ m', interpStep size m (insnAt desc.start k) =
        some (m', insnAt desc.start (k + 1)) ∧ At mem desc dst m' (subtract env op) ∧
      ∀ a, Apart (op.2.addr desc dst) a → read m' a = read m a := by
  obtain ⟨m', hstep, hat⟩ := op_eq hset h (by omega) op ha hb
  refine ⟨m', ?_, hat⟩
  rw [hstep, nextOf_of_lt hk, ite_self]

/-- Instructions whose fields the loop does not patch. -/
theorem ops_run (hset : Setting size mem desc dst) (ops : List (Cell × Cell)) {k : ℕ}
    (hops : ∀ j op, ops[j]? = some op → 3 * (k + j) ∉ patched ∧ 3 * (k + j) + 1 ∉ patched ∧
      read mem (insnAt desc.start (k + j)) = op.1.addr desc dst ∧
      read mem (insnAt desc.start (k + j) + 8) = op.2.addr desc dst)
    (hk : k + ops.length ≤ 18) (h : At mem desc dst m env) :
    ∃ m', interpRun size ops.length (m, insnAt desc.start k) =
        some (m', insnAt desc.start (k + ops.length)) ∧
      At mem desc dst m' (ops.foldl subtract env) ∧
      ∀ a, (∀ op ∈ ops, Apart (op.2.addr desc dst) a) → read m' a = read m a := by
  induction ops generalizing k m env with
  | nil => exact ⟨m, rfl, h, fun _ _ => rfl⟩
  | cons op ops ih =>
      rw [List.length_cons] at hk ⊢
      obtain ⟨hfst, hsnd, ha, hb⟩ := hops 0 op rfl
      simp only [Nat.add_zero] at hfst hsnd ha hb
      have ha' : read m (insnAt desc.start k) = op.1.addr desc dst := by
        rw [← ha, insnAt_eq_fieldAt, h.code _ (by omega) hfst]
      have hb' : read m (insnAt desc.start k + 8) = op.2.addr desc dst := by
        rw [← hb, insnAt_add_eight, h.code _ (by omega) hsnd]
      obtain ⟨m₁, hstep, h₁, hread₁⟩ := op_next hset h (by omega) op ha' hb'
      obtain ⟨m₂, hrun, h₂, hread₂⟩ := ih (k := k + 1) (fun j op hj => by
        have hop := hops (j + 1) op hj
        rwa [← Nat.add_assoc, Nat.add_right_comm] at hop) (by omega) h₁
      refine ⟨m₂, ?_, h₂, fun a ha => ?_⟩
      · rw [interpRun, hstep, Option.bind_some, hrun]
        congr 3
        omega
      · rw [hread₂ a fun op hop => ha op (List.mem_cons_of_mem _ hop),
          hread₁ a (ha op List.mem_cons_self)]

/-! ## The iteration -/

/-- The cells after an iteration which read `v` from the source. -/
def iterated (env : Cell → Word) (v : Word) : Cell → Word
  | .t1 => -env .d
  | .t2 => -v
  | .s => env .s + 8
  | .d => env .d + 8
  | .c => env .c + 8
  | .m => env .m
  | .f1 => env .s
  | .f2 => env .d
  | .f3 => env .d
  | .f4 => env .d
  | .dst => v

/-- The cells once the word is stored, before the counting. -/
def stored (env : Cell → Word) (v : Word) : Cell → Word
  | .s => env .s
  | .d => env .d
  | .c => env .c
  | x => iterated env v x

/-- Counting on, with `S` and `D` in either order. -/
theorem counted (env : Cell → Word) (v : Word) (hm : env .m = -8) {ops : List (Cell × Cell)}
    (hops : ops = [(.m, .s), (.m, .d)] ∨ ops = [(.m, .d), (.m, .s)]) :
    subtract (ops.foldl subtract (stored env v)) (.m, .c) = iterated env v := by
  have hsub : ∀ x : Word, x - env .m = x + 8 := by
    intro x
    rw [hm]
    bv_omega
  funext x
  rcases hops with rfl | rfl <;>
    cases x <;> simp [subtract, Function.update, stored, iterated, hsub]

/-- The cell that a symbol of the template names. -/
def Symbol.cell : Symbol → Cell
  | .t1 => .t1
  | .t2 => .t2
  | .s => .s
  | .d => .d
  | .c => .c
  | .m => .m
  | .f1 => .f1
  | .f2 => .f2
  | .f3 => .f3
  | .f4 => .f4
  | .any | .sd => .dst

theorem addr_cell {x : Symbol} (hany : x ≠ .any) (hsd : x ≠ .sd) :
    desc.addr x = x.cell.addr desc dst := by
  cases x <;> first
    | rfl
    | exact absurd rfl hany
    | exact absurd rfl hsd
    | simp only [Desc.addr, Match.start, Symbol.cell, Cell.addr, fieldAt]; bv_omega

/-- A row of the template without patched fields. -/
theorem row_op (hset : Setting size mem desc dst) {k : ℕ} {row : Symbol × Symbol}
    (hrow : copyTmpl[k]? = some row) (ha : row.1 ≠ .any ∧ row.1 ≠ .sd)
    (hb : row.2 ≠ .any ∧ row.2 ≠ .sd) :
    read mem (insnAt desc.start k) = row.1.cell.addr desc dst ∧
      read mem (insnAt desc.start k + 8) = row.2.cell.addr desc dst := by
  obtain ⟨_, hloop⟩ := hset.loop
  exact ⟨(hloop.fieldA k _ _ hrow ha.1 ha.2).trans (addr_cell ha.1 ha.2),
    (hloop.fieldB k _ _ hrow hb.1 hb.2).trans (addr_cell hb.1 hb.2)⟩

/-- Rows of the template without patched fields, one after the other. -/
theorem rows_run (hset : Setting size mem desc dst) {rows : List (Symbol × Symbol)} {k : ℕ}
    (hrows : ∀ j row, rows[j]? = some row → copyTmpl[k + j]? = some row ∧
      (row.1 ≠ .any ∧ row.1 ≠ .sd) ∧ (row.2 ≠ .any ∧ row.2 ≠ .sd) ∧
      3 * (k + j) ∉ patched ∧ 3 * (k + j) + 1 ∉ patched)
    (hk : k + rows.length ≤ 18) (h : At mem desc dst m env) :
    ∃ m', interpRun size rows.length (m, insnAt desc.start k) =
        some (m', insnAt desc.start (k + rows.length)) ∧
      At mem desc dst m'
        ((rows.map fun row => (row.1.cell, row.2.cell)).foldl subtract env) ∧
      ∀ a, (∀ row ∈ rows, Apart (row.2.cell.addr desc dst) a) → read m' a = read m a := by
  obtain ⟨m', hrun, hat, hread⟩ :=
    ops_run hset (rows.map fun row => (row.1.cell, row.2.cell)) (k := k) (by
      intro j op hop
      rw [List.getElem?_map, Option.map_eq_some_iff] at hop
      obtain ⟨row, hrow, rfl⟩ := hop
      obtain ⟨htmpl, ha, hb, hfst, hsnd⟩ := hrows j row hrow
      exact ⟨hfst, hsnd, row_op hset htmpl ha hb⟩) (by rwa [List.length_map]) h
  rw [List.length_map] at hrun
  refine ⟨m', hrun, hat, fun a ha => hread a ?_⟩
  intro op hop
  obtain ⟨row, hrow, rfl⟩ := List.mem_map.mp hop
  exact ha row hrow

/-- The 19 instructions copy a word from where `S` points to where `D` does, and
count on; the loop ends once the counter was over -8. -/
theorem iteration (hset : Setting size mem desc dst) (h : At mem desc dst m env)
    (hm : env .m = -8) (hd : env .d = dst) (hsrc : size.Holds (env .s))
    (hapart : ∀ x : Cell, x ≠ .dst → x ≠ .m → Apart (x.addr desc dst) (env .s)) :
    ∃ m', interpRun size 19 (m, desc.start) =
        some (m', if (env .c).sle (-8) then desc.start else insnAt desc.start 19) ∧
      At mem desc dst m' (iterated env (read m (env .s))) := by
  obtain ⟨_, hloop⟩ := hset.loop
  have hfield : ∀ {m env} (x : Cell) (i : ℕ), At mem desc dst m env →
      x.addr desc dst = fieldAt desc.start i → read m (fieldAt desc.start i) = env x := by
    intro m env x i hat hx
    rw [← hx, hat.cell]
  -- up to the load through the first patched field
  obtain ⟨m₅, hrun₅, h₅, hread₅⟩ := rows_run hset (k := 0) (by
      intro j row hrow
      have hj : j < 5 := (List.getElem?_eq_some_iff.mp hrow).1
      interval_cases j <;> obtain rfl := Option.some.inj hrow <;> decide :
        ∀ j row, [(Symbol.t1, Symbol.t1), (.t2, .t2), (.f1, .f1), (.s, .t1), (.t1, .f1)][j]? =
          some row → _) (by decide) h
  have hsame : read m₅ (env .s) = read m (env .s) := by
    refine hread₅ _ fun row hrow => hapart _ ?_ ?_ <;>
      revert row <;> decide
  simp only [List.map_cons, List.map_nil, List.foldl_cons, List.foldl_nil, Symbol.cell] at h₅
  have ha₅ : read m₅ (insnAt desc.start 5) = env .s := by
    rw [insnAt_eq_fieldAt, hfield .f1 15 h₅ rfl]
    simp [subtract, Function.update]
  have hb₅ : read m₅ (insnAt desc.start 5 + 8) = Cell.t2.addr desc dst := by
    rw [insnAt_add_eight, h₅.code _ (by decide) (by decide), ← insnAt_add_eight]
    exact (hloop.fieldB 5 _ _ rfl (by decide) (by decide)).trans
      (addr_cell (by decide) (by decide))
  have hstep₅ := insn_eq hset h₅ (by decide) ha₅ hb₅ hsrc (hset.holds _)
  have ht₅ : read m₅ (Cell.t2.addr desc dst) = 0 := by
    rw [h₅.cell .t2]
    simp [subtract, Function.update]
  rw [nextOf_of_lt (by decide), ite_self, hsame, ht₅] at hstep₅
  have h₆ := h₅.write hset .t2 (0 - read m (env .s))
  -- up to the store through the others
  obtain ⟨m₁₄, hrun₁₄, h₁₄, -⟩ := rows_run hset (k := 6) (by
      intro j row hrow
      have hj : j < 8 := (List.getElem?_eq_some_iff.mp hrow).1
      interval_cases j <;> obtain rfl := Option.some.inj hrow <;> decide :
        ∀ j row, [(Symbol.t1, Symbol.t1), (.f2, .f2), (.f3, .f3), (.f4, .f4), (.d, .t1),
          (.t1, .f2), (.t1, .f3), (.t1, .f4)][j]? = some row → _) (by decide) h₆
  simp only [List.map_cons, List.map_nil, List.foldl_cons, List.foldl_nil, Symbol.cell]
    at h₁₄
  have ha₁₄ : read m₁₄ (insnAt desc.start 14) = Cell.dst.addr desc dst := by
    rw [insnAt_eq_fieldAt, hfield .f3 42 h₁₄ rfl]
    simp [subtract, Function.update, Cell.addr, hd]
  have hb₁₄ : read m₁₄ (insnAt desc.start 14 + 8) = Cell.dst.addr desc dst := by
    rw [insnAt_add_eight, hfield .f4 43 h₁₄ rfl]
    simp [subtract, Function.update, Cell.addr, hd]
  obtain ⟨m₁₅, hstep₁₄, h₁₅, -⟩ := op_next hset h₁₄ (by decide) (.dst, .dst) ha₁₄ hb₁₄
  have ha₁₅ : read m₁₅ (insnAt desc.start 15) = Cell.t2.addr desc dst := by
    rw [insnAt_eq_fieldAt, h₁₅.code _ (by decide) (by decide), ← insnAt_eq_fieldAt]
    exact (hloop.fieldA 15 _ _ rfl (by decide) (by decide)).trans
      (addr_cell (by decide) (by decide))
  have hb₁₅ : read m₁₅ (insnAt desc.start 15 + 8) = Cell.dst.addr desc dst := by
    rw [insnAt_add_eight, hfield .f2 46 h₁₅ rfl]
    simp [subtract, Function.update, Cell.addr, hd]
  obtain ⟨m₁₆, hstep₁₅, h₁₆, -⟩ := op_next hset h₁₅ (by decide) (.t2, .dst) ha₁₅ hb₁₅
  have henv₁₆ : At mem desc dst m₁₆ (stored env (read m (env .s))) := by
    convert h₁₆ using 1
    funext x
    cases x <;> simp [subtract, Function.update, stored, iterated]
  -- `S` and `D` in either order
  obtain ⟨ops, hops, hfields⟩ : ∃ ops : List (Cell × Cell),
      (ops = [(.m, .s), (.m, .d)] ∨ ops = [(.m, .d), (.m, .s)]) ∧
      ∀ j op, ops[j]? = some op → 3 * (16 + j) ∉ patched ∧ 3 * (16 + j) + 1 ∉ patched ∧
        read mem (insnAt desc.start (16 + j)) = op.1.addr desc dst ∧
        read mem (insnAt desc.start (16 + j) + 8) = op.2.addr desc dst := by
    have hm₁₆ := hloop.fieldA 16 .m _ rfl (by decide) (by decide)
    have hm₁₇ := hloop.fieldA 17 .m _ rfl (by decide) (by decide)
    rcases hloop.fieldsSd with ⟨h₁, h₂⟩ | ⟨h₁, h₂⟩
    · refine ⟨_, Or.inl rfl, fun j op hop => ?_⟩
      have hj : j < 2 := (List.getElem?_eq_some_iff.mp hop).1
      interval_cases j <;> obtain rfl := Option.some.inj hop
      · exact ⟨by decide, by decide, hm₁₆, h₁⟩
      · exact ⟨by decide, by decide, hm₁₇, h₂⟩
    · refine ⟨_, Or.inr rfl, fun j op hop => ?_⟩
      have hj : j < 2 := (List.getElem?_eq_some_iff.mp hop).1
      interval_cases j <;> obtain rfl := Option.some.inj hop
      · exact ⟨by decide, by decide, hm₁₆, h₁⟩
      · exact ⟨by decide, by decide, hm₁₇, h₂⟩
  have hlength : ops.length = 2 := by rcases hops with rfl | rfl <;> rfl
  obtain ⟨m₁₈, hrun₁₈, h₁₈, -⟩ :=
    ops_run hset ops hfields (by rw [hlength]) henv₁₆
  rw [hlength] at hrun₁₈
  have hcount := counted env (read m (env .s)) hm hops
  have hkept : ops.foldl subtract (stored env (read m (env .s))) .c = env .c ∧
      ops.foldl subtract (stored env (read m (env .s))) .m = -8 := by
    rw [← hm]
    rcases hops with rfl | rfl <;> exact ⟨rfl, rfl⟩
  have hrow₁₈ := row_op hset (k := 18) rfl (by decide) (by decide)
  have ha₁₈ : read m₁₈ (insnAt desc.start 18) = Cell.m.addr desc dst := by
    rw [insnAt_eq_fieldAt, h₁₈.code _ (by decide) (by decide), ← insnAt_eq_fieldAt]
    exact hrow₁₈.1
  have hb₁₈ : read m₁₈ (insnAt desc.start 18 + 8) = Cell.c.addr desc dst := by
    rw [insnAt_add_eight, h₁₈.code _ (by decide) (by decide), ← insnAt_add_eight]
    exact hrow₁₈.2
  obtain ⟨m₁₉, hstep₁₈, h₁₉, -⟩ := op_eq hset h₁₈ (by decide) (.m, .c) ha₁₈ hb₁₈
  rw [hcount] at h₁₉
  refine ⟨m₁₉, ?_, h₁₉⟩
  rw [hkept.1, hkept.2, nextOf, if_pos rfl] at hstep₁₈
  have hstart : insnAt desc.start 0 = desc.start := by
    unfold insnAt
    bv_omega
  have hfirst : interpRun size 5 (m, insnAt desc.start 0) = some (m₅, insnAt desc.start 5) :=
    hrun₅
  rw [hstart] at hfirst
  have hone : ∀ {m m' : Memory} {eip eip' : Word},
      interpStep size m eip = some (m', eip') → interpRun size 1 (m, eip) = some (m', eip') :=
    fun hstep => (interpRun_one _ _).trans hstep
  have hmiddle : interpRun size 8 (_, insnAt desc.start 6) =
      some (m₁₄, insnAt desc.start 14) := hrun₁₄
  exact interpRun_trans hfirst (interpRun_trans (hone hstep₅) (interpRun_trans hmiddle
    (interpRun_trans (hone hstep₁₄) (interpRun_trans (hone hstep₁₅)
      (interpRun_trans hrun₁₈ (hone hstep₁₈))))))

end CopyLoop
end SubleqEmu
