import SubleqEmu.DispatcherExecution
import SubleqEmu.DispatcherProgress

/-!
# Runs of the dispatcher

Call after call of `jit_run`, as the interpreter runs the program.
-/

namespace SubleqEmu
namespace Dispatcher

open ByteMemory Subleq Emitter Machine BudgetSimulation
open CopyLoop (fieldAt insnAt_eq_fieldAt insnAt_add_eight insnAt_add_sixteen moved)
open CopyGuard (jitMaxBlock)

variable {cfg : Config} {s s' : Jit} {x y : Jit × Point} {eip budget₀ : Word}

/-! ## Calls -/

/-- The states of one CPU from `jit_init` on.  Between calls of `jit_run` others may write
to memory, but for its static words. -/
inductive Reachable (cfg : Config) : Jit × Point → Prop
  | init (mem : Memory) : Reachable cfg (Jit.init mem, .returned)
  | setWatch {s : Jit} (addr value : Word) (h : Reachable cfg (s, .returned)) :
      Reachable cfg (s.setWatch addr value, .returned)
  | written {s : Jit} {mem : Memory} (h : Reachable cfg (s, .returned))
      (hkeeps : s.Keeps cfg mem) : Reachable cfg ({ s with mem }, .returned)
  | call {s : Jit} (eip budget : Word) (h : Reachable cfg (s, .returned))
      (hbudget : budget.toNat < 2 ^ 63)
      (hsup : Supported cfg.size budget.toNat (s.mem, eip)) :
      Reachable cfg (s.call eip budget, .top)
  | step {x y : Jit × Point} (h : Reachable cfg x) (hstep : Step cfg x y) : Reachable cfg y

theorem Reachable.steps (h : Reachable cfg x) (hrun : Relation.ReflTransGen (Step cfg) x y) :
    Reachable cfg y := by
  induction hrun with
  | refl => exact h
  | tail _ hstep ih => exact .step ih hstep

theorem Jit.Inv.init (mem : Memory) : (Jit.init mem).Inv cfg where
  blocks _ hb := absurd hb List.not_mem_nil
  unique := .nil
  pages := marked_iff.mpr fun _ hw => by cases hw
  disjoint _ hw := by cases hw
  links _ hl := absurd hl List.not_mem_nil

theorem Good.call (h : Good cfg (s, .returned)) (eip : Word) (hbudget : budget₀.toNat < 2 ^ 63) :
    Good cfg (s.call eip budget₀, .top) where
  inv := h.inv.congr s.keeps_self rfl rfl rfl rfl rfl
  lt := hbudget
  block _ hp := by cases hp

/-- What holds in every state, and what the rest of a call needs. -/
theorem Reachable.good (h : Reachable cfg x) :
    Good cfg x ∧ (x.2 = .returned ∨ Supported cfg.size (budget x) (view x)) := by
  induction h with
  | init mem =>
      exact ⟨⟨.init mem, show 0 < 2 ^ 63 by decide, fun _ hp => by cases hp⟩, Or.inl rfl⟩
  | @setWatch s addr value _ ih =>
      obtain ⟨⟨hinv, hlt, -⟩, -⟩ := ih
      exact ⟨⟨hinv.congr s.keeps_self rfl rfl rfl rfl rfl, hlt, fun _ hp => by cases hp⟩,
        Or.inl rfl⟩
  | written _ hkeeps ih =>
      obtain ⟨⟨hinv, hlt, -⟩, -⟩ := ih
      exact ⟨⟨hinv.congr hkeeps rfl rfl rfl rfl rfl, hlt, fun _ hp => by cases hp⟩, Or.inl rfl⟩
  | call eip budget _ hbudget hsup ih => exact ⟨ih.1.call eip hbudget, Or.inr hsup⟩
  | step _ hstep ih =>
      obtain ⟨hgood, hreturned | hsup⟩ := ih
      · cases hstep <;> cases hreturned
      · have h := stepped hgood hsup hstep
        exact ⟨h.good, Or.inr (h.follows.hereditary (hereditary_supported cfg.size) hsup)⟩

/-! ## Blocks -/

/-- `static_hash` of a block whose static fields are as they were gives what was noted. -/
theorem staticHash_noted {b : Block} {mem : Memory}
    (h : ∀ f < b.n * 3, b.src.dynamic (fieldAt b.start f) = false →
      read mem (fieldAt b.start f) = b.src.raw (fieldAt b.start f)) :
    StaticHash.staticHash mem b.start b.n b.noted = b.noted.shash := by
  unfold Block.noted
  rw [StaticHash.staticHash_eq, StaticHash.shash_eq]
  apply List.foldl_ext
  intro w f hf
  unfold StaticHash.fieldHash
  show (if StaticHash.isStatic b.src b.start f then
    StaticHash.hashStep w (bswap (read mem (fieldAt b.start f))) else w) = _
  split_ifs with hstatic
  · rw [h f (List.mem_range.mp hf) (by simpa [StaticHash.isStatic] using hstatic)]
  · rfl

/-- The check of a block that is due finds it as it was. -/
theorem revalidateAt_eq (hinv : s.Inv cfg) (a : Word) : s.revalidateAt a = s := by
  unfold Jit.revalidateAt
  cases hlookup : s.lookup a with
  | none => rfl
  | some b =>
      have hvalid := hinv.blocks b (lookup_eq_some hlookup).1
      refine if_pos (staticHash_noted fun f hf hdyn => ?_)
      have hfield : fieldAt b.start f ∈ b.fields (f / 3) := by
        unfold Block.fields
        rw [insnAt_add_eight, insnAt_add_sixteen, insnAt_eq_fieldAt]
        have hthree : f = 3 * (f / 3) ∨ f = 3 * (f / 3) + 1 ∨ f = 3 * (f / 3) + 2 := by omega
        simp only [List.mem_cons, List.not_mem_nil, or_false]
        rcases hthree with heq | heq | heq
        · exact Or.inl (congrArg _ heq)
        · exact Or.inr (Or.inl (congrArg _ heq))
        · exact Or.inr (Or.inr (congrArg _ heq))
      exact (hvalid.baked (f / 3) (by omega) _ hfield hdyn).symm

/-- In every state the blocks are what memory says, and a store to a static word of one will
be caught.  No jump goes to a block that was dropped, and a check drops none. -/
theorem blocks_current (h : Reachable cfg x) :
    (∀ b, x.2 = .entry b → b ∈ x.1.table) ∧
    (∀ b ∈ x.1.table, ∀ i < b.n, ∀ q ∈ b.fields i, b.src.dynamic q = false →
      b.src.raw q = read x.1.mem q ∧ x.1.staticMap (q >>> 3) = true ∧
        x.1.dynMap (q >>> 3) = false) ∧
    (∀ l ∈ x.1.links, ∃ t, x.1.lookup (l.2.target l.1) = some t) ∧
    ∀ a, x.1.revalidateAt a = x.1 := by
  obtain ⟨⟨hinv, -, hblock⟩, -⟩ := h.good
  refine ⟨hblock, fun b hb i hi q hq hdyn => ?_, fun l hl => ?_, revalidateAt_eq hinv⟩
  · have hvalid := hinv.blocks b hb
    have hstatic := hvalid.marked i hi q hq hdyn
    exact ⟨hvalid.baked i hi q hq hdyn, hstatic, hinv.disjoint _ hstatic⟩
  · obtain ⟨t, ht, hstart⟩ := hinv.links l hl
    exact ⟨t, hstart ▸ lookup_of_mem hinv.unique ht⟩

/-! ### Two blocks -/

/-- The block at 0 counts a word down, the one at 72 stores to its C field. -/
def twoBlocks : Memory :=
  applyStores (fun _ => 0)
    [(0, 56), (8, 48), (16, 24), (24, 64), (32, 64), (40, 72), (48, 5), (56, 1),
      (72, 64), (80, 16), (88, 96), (96, 64), (104, 64)]

def twoBlocksConfig : Config := ⟨⟨120, by decide⟩, false, moved, fun _ _ _ _ _ _ _ => rfl⟩

/-- The C field was hit, two jumps are linked, and two is counted off. -/
def Jit.hasLinked (s : Jit) : Prop :=
  s.dynMap 2 = true ∧ s.links.length = 2 ∧ read s.mem 48 = 3

instance (s : Jit) : Decidable s.hasLinked := inferInstanceAs (Decidable (_ ∧ _))

def Point.isEntry : Point → Bool
  | .entry _ => true
  | _ => false

def Point.isReturned : Point → Bool
  | .returned => true
  | _ => false

/-- What the interpreter and the dispatcher do, evaluated once. -/
theorem twoBlocks_evaluated :
    (∀ i ≤ 8, ∃ r ∈ interpRun twoBlocksConfig.size i (twoBlocks, 0),
      read r.1 (r.2 + 8) ≠ r.2 + 16 ∧ r.2.toNat + 24 < 2 ^ 64) ∧
    (∃ y ∈ advances twoBlocksConfig 10 ((Jit.init twoBlocks).call 0 8, .top),
      y.1.hasLinked ∧ y.2.isEntry = true) ∧
    ∃ y ∈ advances twoBlocksConfig 12 ((Jit.init twoBlocks).call 0 8, .top),
      y.1.hasLinked ∧ y.1.budget = 0 ∧ y.2.isReturned = true := by
  decide +kernel

/-- A copy loop has 19 instructions. -/
theorem leftoversClear_of_small {size : MemSize} (h : size.val < 456) (m : Memory) (p : Word) :
    LeftoversClear size m p := by
  intro desc hloop
  have hle := hloop.start_le
  omega

theorem supported_twoBlocks : Supported twoBlocksConfig.size 8 (twoBlocks, 0) := by
  obtain ⟨hruns, -⟩ := twoBlocks_evaluated
  have hat : ∀ i ≤ 8, ∀ m p, interpRun twoBlocksConfig.size i (twoBlocks, 0) = some (m, p) →
      read m (p + 8) ≠ p + 16 ∧ p.toNat + 24 < 2 ^ 64 := by
    intro i hi m p hrun
    obtain ⟨r, hr, hown⟩ := hruns i hi
    obtain rfl := Option.some.inj (hrun.symm.trans hr)
    exact hown
  constructor
  · obtain ⟨r, hr, -⟩ := hruns 8 le_rfl
    exact Option.isSome_of_mem hr
  · intro i hi m p hrun htakes
    exact (hat i hi.le m p hrun).1 htakes.1
  · intro i _ m p _
    exact leftoversClear_of_small (by decide) m p
  · intro m p hrun
    exact (hat 8 le_rfl m p hrun).2

/-- After a hit, the block about to be entered over a link is the one in the table. -/
theorem blocks_current_twoBlocks : ∃ s b, Reachable twoBlocksConfig (s, .entry b) ∧
    s.hasLinked ∧ b ∈ s.table ∧
    (∀ l ∈ s.links, ∃ t, s.lookup (l.2.target l.1) = some t) ∧ ∀ a, s.revalidateAt a = s := by
  obtain ⟨-, ⟨⟨s, p⟩, hrun, hlinked, hentry⟩, -⟩ := twoBlocks_evaluated
  have hcall : Reachable twoBlocksConfig ((Jit.init twoBlocks).call 0 8, .top) :=
    .call 0 8 (.init twoBlocks) (by decide) supported_twoBlocks
  cases p with
  | entry b =>
      have hreachable := hcall.steps (steps_of_advances hrun)
      obtain ⟨hblock, -, hlinks, hcheck⟩ := blocks_current hreachable
      exact ⟨s, b, hreachable, hlinked, hblock b rfl, hlinks, hcheck⟩
  | top => exact absurd hentry Bool.false_ne_true
  | returned => exact absurd hentry Bool.false_ne_true

/-! ## Results of a call -/

/-- Why `jit_run` returns: the budget is used up, too little of it is left for the block,
or the watched word has changed. -/
inductive Ended (cfg : Config) (s : Jit) : Prop
  | exhausted (h : s.budget = 0)
  | short (hexact : cfg.exact = false) (h : s.budget.toNat < jitMaxBlock)
  | watched {b : Block} (hb : b ∈ s.table) (h : b.watchChanged s.mem = true)

theorem ended_of_step (hx : Good cfg x) (hsup : Supported cfg.size (budget x) (view x))
    (h : Step cfg x (s, .returned)) : Ended cfg s := by
  cases h with
  | exhausted _ _ _ hbudget => exact .exhausted hbudget
  | @short _ _ b checked hfind hexact hshort =>
      have hfound := found_at_top hx hsup checked hfind
      have hmade := (hfound.inv.blocks b (hfound.block b rfl).1).toMade
      have hsize := hmade.size_toNat
      have hle := hmade.le
      refine .short hexact (Nat.lt_of_lt_of_le ?_ hle)
      rw [← hsize]
      exact hshort
  | @watched s b _ hwatch => exact .watched (hx.block b rfl) hwatch
  | copiedAll _ _ _ _ hjump => cases hjump
  | branch _ _ _ _ _ _ hjump => cases hjump

theorem stepped_steps (hx : Good cfg x) (hsup : Supported cfg.size (budget x) (view x))
    (h : Relation.ReflTransGen (Step cfg) x y) :
    Good cfg y ∧ Supported cfg.size (budget y) (view y) ∧
      Follows (interpRun cfg.size) view budget x y := by
  have hstep : ∀ x y, Good cfg x → Supported cfg.size (budget x) (view x) → Step cfg x y →
      Good cfg y ∧ Follows (interpRun cfg.size) view budget x y := by
    intro x y hx hsup hstep
    have hstepped := stepped hx hsup hstep
    exact ⟨hstepped.good, hstepped.follows⟩
  exact follows_of_steps (runs_interpRun cfg.size) (hereditary_supported cfg.size) hstep hx hsup h

theorem ended_of_steps (hx : Good cfg (s, .top))
    (hsup : Supported cfg.size (budget (s, .top)) (view (s, .top)))
    (h : Relation.ReflTransGen (Step cfg) (s, .top) (s', .returned)) : Ended cfg s' := by
  cases h with
  | @tail y _ hy hstep =>
      obtain ⟨hgood, hsup, -⟩ := stepped_steps hx hsup hy
      exact ended_of_step hgood hsup hstep

/-- A call of `jit_run` does as many steps of the interpreter as it takes from the budget,
whatever blocks it makes, enters, links and drops, and then it has a reason to return. -/
theorem jitRun_eq_interpRun (h : Reachable cfg (s, .returned)) (hbudget : budget₀.toNat < 2 ^ 63)
    (hsup : Supported cfg.size budget₀.toNat (s.mem, eip))
    (hrun : Relation.ReflTransGen (Step cfg) (s.call eip budget₀, .top) y) :
    budget y ≤ budget₀.toNat ∧
      interpRun cfg.size (budget₀.toNat - budget y) (s.mem, eip) = some (view y) ∧
      (y.2 = .returned → Ended cfg y.1) := by
  have hgood := h.good.1.call eip hbudget
  obtain ⟨-, -, hfollows⟩ := stepped_steps hgood hsup hrun
  refine ⟨hfollows.le, hfollows.run, fun hreturned => ?_⟩
  obtain ⟨s', p⟩ := y
  cases hreturned
  exact ended_of_steps hgood hsup hrun

theorem exists_returned_twoBlocks : ∃ s,
    Relation.ReflTransGen (Step twoBlocksConfig) ((Jit.init twoBlocks).call 0 8, .top)
      (s, .returned) ∧ s.hasLinked ∧ s.budget = 0 := by
  obtain ⟨-, -, ⟨s, p⟩, hrun, hlinked, hbudget, hreturned⟩ := twoBlocks_evaluated
  cases p with
  | returned => exact ⟨s, steps_of_advances hrun, hlinked, hbudget⟩
  | top => exact absurd hreturned Bool.false_ne_true
  | entry b => exact absurd hreturned Bool.false_ne_true

theorem jitRun_eq_interpRun_twoBlocks : ∃ s,
    Relation.ReflTransGen (Step twoBlocksConfig) ((Jit.init twoBlocks).call 0 8, .top)
      (s, .returned) ∧ s.hasLinked ∧
    interpRun twoBlocksConfig.size 8 (twoBlocks, 0) = some (s.mem, s.eip) ∧
    Ended twoBlocksConfig s := by
  obtain ⟨s, hrun, hlinked, hbudget⟩ := exists_returned_twoBlocks
  obtain ⟨-, hview, hended⟩ :=
    jitRun_eq_interpRun (.init twoBlocks) (by decide) supported_twoBlocks hrun
  have hleft : budget (s, Point.returned) = 0 := congrArg BitVec.toNat hbudget
  rw [hleft] at hview
  exact ⟨s, hrun, hlinked, hview, hended rfl⟩

end Dispatcher
end SubleqEmu
