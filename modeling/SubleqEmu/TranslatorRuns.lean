import SubleqEmu.TranslatorBlock
import SubleqEmu.TranslatorInstruction

/-!
# Runs of a block

A block from its entry, one instruction after the other: at each boundary the cache is
right about the interpreter's memory, and at each exit memory is the interpreter's.
-/

namespace SubleqEmu
namespace Translator

open ByteMemory Subleq Emitter Machine WriteBuffer
open CopyLoop (insnAt insnAt_succ)

variable {maps : Maps} {m m₁ : Memory} {J J' : Cache} {M M' : State} {p start : Word}
  {src : Source} {i k n : ℕ}

/-! ## Entering a block -/

/-- The block was translated from this memory, as far as its static fields go, and those
are marked; the tests on entry found no store to translated code. -/
structure Entered (src : Source) (maps : Maps) (start : Word) (n : ℕ) (m : Memory) : Prop where
  aligned : start.toNat % 8 = 0
  bounds : start.toNat + 24 * n ≤ src.size.val
  baked : ∀ i < n, Baked src m (insnAt start i)
  marked : ∀ i < n, ∀ q ∈ [insnAt start i, insnAt start i + 8, insnAt start i + 16],
    src.dynamic q = false → maps.static (q >>> 3) = true
  hoisted : ∀ w ∈ src.hoist, maps.static w = false
  pages : Marked maps

/-- No instruction of the block that the program reaches faults. -/
def NoFault (size : MemSize) (start : Word) (n : ℕ) (m : Memory) : Prop :=
  ∀ i < n, ∀ m', interpRun size i (m, start) = some (m', insnAt start i) →
    (interpStep size m' (insnAt start i)).isSome = true

theorem noFault_of_run {size : MemSize}
    (h : ∀ i < n, (interpRun size (i + 1) (m, start)).isSome = true) :
    NoFault size start n m := by
  intro i hi m' hpath
  have hrun := h i hi
  rwa [interpRun_add, hpath, Option.bind_some, interpRun_one] at hrun

theorem Entered.toNat_insnAt (he : Entered src maps start n m) (hi : i < n) :
    (insnAt start i).toNat = start.toNat + 24 * i := by
  have hle := src.size.le
  have hbounds := he.bounds
  unfold insnAt
  bv_omega

/-- A static field that no store has changed. -/
theorem Entered.after (he : Entered src maps start n m)
    (hclear : Clear maps src.size (read m (p + 8))) :
    Entered src maps start n (after m p) where
  aligned := he.aligned
  bounds := he.bounds
  baked i hi q hq hdyn := by
    have haddr := he.toNat_insnAt hi
    have haligned := he.aligned
    have hbounds := he.bounds
    have hle := src.size.le
    have hfield : q.toNat % 8 = 0 ∧ src.size.Holds q := by
      unfold MemSize.Holds
      simp only [List.mem_cons, List.not_mem_nil, or_false] at hq
      rcases hq with rfl | rfl | rfl <;> constructor <;> bv_omega
    have hapart := hclear q hfield.1 hfield.2 (he.marked i hi q hq hdyn)
    rw [he.baked i hi q hq hdyn, read_write_apart _ _ hapart.symm]
  marked := he.marked
  hoisted := he.hoisted
  pages := he.pages

/-! ## The interpreter's run -/

theorem interpStep_eq_some {size : MemSize} (h : (interpStep size m p).isSome = true) :
    size.Holds (read m (p + 8)) ∧ interpStep size m p = some (Translator.after m p,
      if (operandOf m (p + 8)).sle (operandOf m p) then read m (p + 16) else p + 24) := by
  obtain ⟨r, hr⟩ := Option.isSome_iff_exists.mp h
  rw [hr]
  simp only [interpStep, Option.bind_eq_bind, Option.bind_eq_some_iff, rd_eq_some,
    wr_eq_some] at hr
  obtain ⟨_, ⟨-, rfl⟩, _, ⟨-, rfl⟩, _, ⟨-, rfl⟩, _, ⟨-, rfl⟩, _, ⟨hb, rfl⟩, _, ⟨-, rfl⟩, heq⟩ := hr
  exact ⟨hb, heq.symm⟩

/-- Memory after the instructions from `start` on, where each goes on to the next. -/
def straight (m : Memory) (start : Word) : ℕ → Memory
  | 0 => m
  | i + 1 => after (straight m start i) (insnAt start i)

/-- The stores of the first instructions, some of which are known to change nothing. -/
def storesOf (idle : ℕ → Bool) (m : Memory) (start : Word) (k : ℕ) : List (Store Word Word) :=
  (List.range k).map fun i => storeOf (straight m start i) (insnAt start i) (idle i)

theorem storesOf_succ (idle : ℕ → Bool) (m : Memory) (start : Word) (k : ℕ) :
    storesOf idle m start (k + 1) =
      storesOf idle m start k ++ [storeOf (straight m start k) (insnAt start k) (idle k)] := by
  rw [storesOf, List.range_succ, List.map_append]
  rfl

/-- The cache before the `i`-th instruction. -/
def cacheAt (src : Source) (start : Word) (J₀ : Cache) (i : ℕ) : Cache :=
  match translateInsns src start 0 i J₀ with
  | some (_, J, _) => J
  | none => J₀

/-- Whether the `i`-th instruction is known to subtract 0. -/
def subtractsZero (src : Source) (start : Word) (J₀ : Cache) (i : ℕ) : Bool :=
  idleOf src i (insnAt start i) (cacheAt src start J₀ i)

theorem translateInsns_succ {J₀ J₁ J₂ : Cache} {c₁ c₂ : List Insn}
    (h : translateInsns src start i k J₀ = some ((i + k, false), J₁, c₁))
    (h' : translateInsn src (i + k) (insnAt start (i + k)) J₁ = some (false, J₂, c₂)) :
    translateInsns src start i (k + 1) J₀ = some ((i + k + 1, false), J₂, c₁ ++ c₂) := by
  induction k generalizing i J₀ c₁ with
  | zero =>
      obtain ⟨-, rfl, rfl⟩ := pure_eq_some.mp h
      exact bind_eq_some.mpr ⟨_, _, _, _, h', rfl, (List.append_nil _).symm⟩
  | succ k ih =>
      rw [translateInsns] at h ⊢
      obtain ⟨ended, J, c, c', hinsn, hrest, rfl⟩ := bind_eq_some.mp h
      refine bind_eq_some.mpr ⟨ended, J, c, c' ++ c₂, hinsn, ?_, List.append_assoc ..⟩
      cases ended with
      | true =>
          exact absurd (congrArg Prod.snd (pure_eq_some.mp hrest).1) nofun
      | false =>
          rw [show i + (k + 1) = i + 1 + k by omega] at hrest h' ⊢
          exact ih hrest h'

theorem cacheAt_eq {J₀ : Cache} {r : ℕ × Bool} {c : List Insn}
    (h : translateInsns src start 0 i J₀ = some (r, J, c)) : cacheAt src start J₀ i = J := by
  rw [cacheAt, h]

/-! ## Boundaries -/

/-- The `j`-th instruction has a store, and not one that may be held back. -/
def DirectStore (src : Source) (start : Word) (J₀ : Cache) (m₀ : Memory) (j : ℕ) : Prop :=
  subtractsZero src start J₀ j = false ∧
    ((fieldOf src (cacheAt src start J₀ j) (insnAt start j + 8)).dyn = true ∨
      cacheable (read (straight m₀ start j) (insnAt start j + 8)) = false)

/-- The store of the `j`-th instruction is the last one that memory has, after all those
before it that are kept. -/
def WrittenLast (src : Source) (start : Word) (J₀ : Cache) (m₀ : Memory) (j : ℕ) (M : State) :
    Prop :=
  ∃ l, Kept (cacheable · = true) (storesOf (subtractsZero src start J₀) m₀ start j) l ∧
    M.stores = l ++ [(read (straight m₀ start j) (insnAt start j + 8),
      difference (straight m₀ start j) (insnAt start j))]

/-- The `j`-th instruction branches to a C whose register has taken its result. -/
def SpoiledAt (src : Source) (start : Word) (J₀ : Cache) (m₀ : Memory) (j : ℕ) : Prop :=
  let J := cacheAt src start J₀ j
  let p := insnAt start j
  let m := straight m₀ start j
  (∃ r, Spoils J (p + 16) (fieldOf src J p) (fieldOf src J (p + 8)) (fieldOf src J (p + 16)) r) ∧
    operandOf m p ≠ 0 ∧ (operandOf m (p + 8)).sle (operandOf m p) = true

/-- A block entered with memory `m₀`, between two of its instructions. -/
structure AtBoundary (src : Source) (start : Word) (J₀ : Cache) (m₀ : Memory) (i : ℕ)
    (J : Cache) (M : State) : Prop where
  translated : ∃ c, translateInsns src start 0 i J₀ = some ((i, false), J, c)
  path : interpRun src.size i (m₀, start) = some (straight m₀ start i, insnAt start i)
  sound : Sound (straight m₀ start i) J M
  current : Current (straight m₀ start i) J M
  live : J.flagsLive = false
  init : M.init = m₀
  zero : ∀ j < i, subtractsZero src start J₀ j = true →
    operandOf (straight m₀ start j) (insnAt start j) = 0
  kept : Kept (cacheable · = true) (storesOf (subtractsZero src start J₀) m₀ start i)
    (M.stores ++ held (straight m₀ start i) J)
  last : ∀ j, i = j + 1 → DirectStore src start J₀ m₀ j → J.pend = none ∧
    WrittenLast src start J₀ m₀ j M
  notSpoiled : ∀ j < i, ¬ SpoiledAt src start J₀ m₀ j

theorem atBoundary_zero {J₀ : Cache} {M₀ : State} (hpend : J₀.pend = none)
    (hlive : J₀.flagsLive = false) (hempty : ∀ a v, ¬ Entry J₀ a v) (hstores : M₀.stores = []) :
    AtBoundary src start J₀ M₀.init 0 J₀ M₀ where
  translated := ⟨[], rfl⟩
  path := by
    rw [insnAt, show (24 : Word) * BitVec.ofNat 64 0 = 0 from rfl]
    exact congrArg (fun p => some (M₀.init, p)) (BitVec.add_zero start).symm
  sound := ⟨fun hv => absurd hv (hempty _ _), fun hv => absurd hv (hempty _ _), fun hp => by
    rw [hpend] at hp
    cases hp⟩
  current := by
    rw [Current, held_none hpend, State.mem, hstores]
    rfl
  live := hlive
  init := rfl
  zero := nofun
  kept := by
    rw [hstores, held_none hpend]
    exact .nil
  last := nofun
  notSpoiled := nofun

/-- An exit before an instruction, or through its branch. -/
inductive ExitsAt (src : Source) (maps : Maps) (start : Word) (J₀ : Cache) (m₀ : Memory) (i : ℕ)
    (J : Cache) (M : State) (e : Exit) (M' : State) : Prop
  | before (h : LeavesBefore maps i m₀ (M.stores ++ held (straight m₀ start i) J) e M')
  | after (s : Stub) (he : e = .stub s)
      (h : LeavesAfter maps i (straight m₀ start i) (insnAt start i)
        (subtractsZero src start J₀ i) (direct (fieldOf src J (insnAt start i + 8)))
        (fieldOf src J (insnAt start i)) (fieldOf src J (insnAt start i + 8))
        (fieldOf src J (insnAt start i + 16)) J M s M')

/-- Memory after a store of the program's has joined those before it. -/
theorem applyStores_joins {u d : Bool} {l l' : List (Word × Word)}
    (h : Joins (storeOf m p u) (d = false) l l') (hl : applyStores m₁ l = m)
    (hzero : u = true → operandOf m p = 0) : applyStores m₁ l' = Translator.after m p := by
  refine @Joins.foldl _ _ _ (fun m s => write m s.1 s.2) _ _ _ _ _ _ h hl (fun hu => ?_)
    fun m a v w => write_write m a v w
  have hdiff : difference m p = read m (read m (p + 8)) := by
    rw [difference, hzero hu]
    exact BitVec.sub_zero _
  show write m (read m (p + 8)) (difference m p) = m
  rw [hdiff, write_read]

theorem GoesOn.current {u d : Bool} {fc : Field} (h : GoesOn m p u d fc J M J' M')
    (hc : Current m J M) :
    Current (Translator.after m p) J' M' := by
  rw [Current, applyStores_held, h.executed.init]
  exact applyStores_joins h.executed.joins ((applyStores_held m J M).symm.trans hc) h.zero

/-- A store that may be held back goes to a cached word. -/
theorem cacheable_of_not_direct {u : Bool} (h : Sound m J M) (hbaked : Baked src m p)
    (hd : direct (fieldOf src J (p + 8)) = false) : cacheable (storeOf m p u).addr = true := by
  rw [direct, Bool.or_eq_false_iff, Bool.not_eq_false'] at hd
  rw [storeOf, ← fieldOf_value h (hbaked (p + 8) (by simp)) hd.1, hd.2]

theorem DirectStore.direct {J₀ : Cache} {m₀ : Memory} (h : DirectStore src start J₀ m₀ i)
    (hs : Sound (straight m₀ start i) (cacheAt src start J₀ i) M)
    (hbaked : Baked src (straight m₀ start i) (insnAt start i)) :
    direct (fieldOf src (cacheAt src start J₀ i) (insnAt start i + 8)) = true := by
  rw [Translator.direct, Bool.or_eq_true, Bool.not_eq_true']
  cases hdyn : (fieldOf src (cacheAt src start J₀ i) (insnAt start i + 8)).dyn with
  | true => exact Or.inl rfl
  | false =>
      right
      rw [fieldOf_value hs (hbaked _ (by simp)) hdyn]
      exact h.2.resolve_left (ne_true_of_eq_false hdyn)

/-- A store that is not held back joins the others as it is. -/
theorem joins_direct {u : Bool} {l l' : List (Word × Word)}
    (h : Joins (storeOf m p u) (true = false) l l') (hu : u = false) :
    l' = l ++ [(read m (p + 8), difference m p)] := by
  cases h with
  | idle hs =>
      rw [storeOf, hu] at hs
      cases hs
  | added => rfl
  | replaced hm => cases hm

theorem AtBoundary.step {J₀ : Cache} {m₀ : Memory} (h : AtBoundary src start J₀ m₀ i J M)
    (he : Entered src maps start n (straight m₀ start i)) (hi : i < n)
    (hfault : NoFault src.size start n m₀) :
    Leaves maps J M (translateInsn src i (insnAt start i))
      (fun ended J' M' => ended = false ∧ AtBoundary src start J₀ m₀ (i + 1) J' M' ∧
        Entered src maps start n (straight m₀ start (i + 1)))
      (ExitsAt src maps start J₀ m₀ i J M) := by
  obtain ⟨c, htranslated⟩ := h.translated
  have hcache := cacheAt_eq htranslated
  have hstep := interpStep_eq_some (hfault i hi _ h.path)
  have hp : (insnAt start i).toNat % 8 = 0 := by
    have haligned := he.aligned
    have haddr := he.toNat_insnAt hi
    omega
  have hleaves := (translateInsn_leaves h.sound h.current h.live he.pages hp (he.baked i hi)
    hstep.1 he.hoisted i).with_eq
  have hidle : idleOf src i (insnAt start i) J = subtractsZero src start J₀ i := by
    rw [subtractsZero, hcache]
  rw [hidle] at hleaves
  refine hleaves.imp ?_ ?_
  · rintro ended J' M' ⟨⟨rfl, hclear, hgoes⟩, c', htranslate⟩
    refine ⟨rfl, ?_, he.after hclear⟩
    exact {
      translated := by
        rw [← Nat.zero_add i] at htranslated htranslate
        obtain htranslated' := translateInsns_succ (i := 0) (k := i) (by simpa using htranslated)
          htranslate
        exact ⟨_, by simpa using htranslated'⟩
      path := by
        refine interpRun_trans h.path ((interpRun_one ..).trans (hstep.2.trans ?_))
        rw [straight, ← insnAt_succ]
        split_ifs with hsle
        · rw [(hgoes.next hsle).2]
        · rfl
      sound := hgoes.sound
      current := hgoes.current h.current
      live := hgoes.live
      init := hgoes.executed.init.trans h.init
      zero := fun j hj => by
        rcases Nat.lt_succ_iff_lt_or_eq.mp hj with hj | rfl
        · exact h.zero j hj
        · exact hgoes.zero
      kept := by
        rw [storesOf_succ]
        exact h.kept.joins hgoes.executed.joins
          (cacheable_of_not_direct h.sound (he.baked i hi))
      last := by
        rintro j hj hstore
        obtain rfl : i = j := by omega
        have hdirect := hstore.direct (hcache.symm ▸ h.sound) (he.baked i hi)
        rw [hcache] at hdirect
        have hpend := hgoes.executed.direct hstore.1 hdirect
        have hjoins := hgoes.executed.joins
        rw [hdirect, held_none hpend, List.append_nil] at hjoins
        exact ⟨hpend, _, h.kept, joins_direct hjoins hstore.1⟩
      notSpoiled := fun j hj => by
        rcases Nat.lt_succ_iff_lt_or_eq.mp hj with hj | rfl
        · exact h.notSpoiled j hj
        · rintro ⟨⟨r, hs⟩, -, hsle⟩
          have hdyn := hs.dyn
          rw [hcache, (hgoes.next hsle).1] at hdyn
          cases hdyn }
  · rintro e M' (hbefore | ⟨-, s, rfl, hafter⟩)
    · rw [h.init] at hbefore
      exact .before hbefore
    · exact .after s rfl hafter

/-- From a boundary on: the instructions run to a later boundary, or leave at one between. -/
theorem AtBoundary.run {J₀ : Cache} {m₀ : Memory} (hfault : NoFault src.size start n m₀)
    (h : AtBoundary src start J₀ m₀ i J M) (he : Entered src maps start n (straight m₀ start i))
    (hk : i + k ≤ n) :
    Leaves maps J M (translateInsns src start i k)
      (fun r J' M' => r = (i + k, false) ∧ AtBoundary src start J₀ m₀ (i + k) J' M')
      (fun e M' => ∃ j < n, ∃ J₁ M₁, AtBoundary src start J₀ m₀ j J₁ M₁ ∧
        Entered src maps start n (straight m₀ start j) ∧
        ExitsAt src maps start J₀ m₀ j J₁ M₁ e M') := by
  induction k generalizing i J M with
  | zero => exact .of_runs (.pure ⟨rfl, h⟩)
  | succ k ih =>
      refine .bind (Leaves.imp (h.step he (by omega) hfault) (fun _ _ _ => id)
        fun e M' hexit => ⟨i, by omega, J, M, h, he, hexit⟩) ?_
      rintro _ J₁ M₁ ⟨rfl, h₁, he₁⟩
      have hrun := ih h₁ he₁ (by omega)
      rwa [show i + 1 + k = i + (k + 1) by omega] at hrun

end Translator
end SubleqEmu
