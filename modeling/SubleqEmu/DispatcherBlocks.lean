import SubleqEmu.DispatcherTranslation
import SubleqEmu.TranslatorSoundness

/-!
# Running a block

A block that was entered leaves with the memory of the interpreter, after the tests on
entry or its own have let every one of its stores pass.
-/

namespace SubleqEmu
namespace Dispatcher

open ByteMemory Subleq Emitter Machine
open CopyLoop (insnAt)
open Translator (Source Cache Leaves Clear Entered NoFault AtBoundary ExitsAt SpoiledAt LeavesBlock
  translateInsn translateInsns translateBody straight operandOf countOf after leave)

variable {cfg : Config} {s : Jit} {b : Block} {maps : Maps} {src : Source} {start p eip : Word}
  {m₀ m : Memory} {J J₀ : Cache} {M M₀ M' : State} {i k n : ℕ} {e : Exit}

/-! ## Checks that have passed -/

/-- An instruction that subtracts from its own C field, and then branches there. -/
def TakesOwnResult (m : Memory) (p : Word) : Prop :=
  read m (p + 8) = p + 16 ∧ operandOf m p ≠ 0 ∧ (operandOf m (p + 8)).sle (operandOf m p) = true

/-- The stores of the first `k` instructions change no static word. -/
def Passed (maps : Maps) (src : Source) (start : Word) (m₀ : Memory) (k : ℕ) : Prop :=
  ∀ j < k, Clear maps src.size (read (straight m₀ start j) (insnAt start j + 8))

/-- How a block of `n` instructions is left. -/
structure LeftAt (maps : Maps) (src : Source) (start : Word) (J₀ : Cache) (m₀ : Memory) (n : ℕ)
    (e : Exit) : Prop where
  passed : Passed maps src start m₀ (countOf e)
  smc : ∀ s, e = .smc s → s.idx < n
  spoiled : ∀ j, countOf e = j + 1 → SpoiledAt src start J₀ m₀ j →
    ∃ m p, interpRun src.size j (m₀, start) = some (m, p) ∧ TakesOwnResult m p

theorem Leaves.and {α : Type} {g : Translator.T α} {Q Q' : α → Cache → State → Prop}
    {E E' : Exit → State → Prop} (h : Leaves maps J M g Q E) (h' : Leaves maps J M g Q' E') :
    Leaves maps J M g (fun x J' M' => Q x J' M' ∧ Q' x J' M') (fun e M' => E e M' ∧ E' e M') := by
  intro x J' c heq
  rcases h heq with ⟨M₁, hrun, hQ⟩ | ⟨e, M₁, hexit, hE⟩
  · rcases h' heq with ⟨M₂, hrun', hQ'⟩ | ⟨e', M₂, hexit', -⟩
    · rw [hrun] at hrun'
      cases hrun'
      exact Or.inl ⟨M₁, hrun, hQ, hQ'⟩
    · rw [hrun] at hexit'
      cases hexit'
  · rcases h' heq with ⟨M₂, hrun', -⟩ | ⟨e', M₂, hexit', hE'⟩
    · rw [hexit] at hrun'
      cases hrun'
    · rw [hexit] at hexit'
      cases hexit'
      exact Or.inr ⟨e, M₁, hexit, hE, hE'⟩

theorem step_passed (h : AtBoundary src start J₀ m₀ i J M)
    (he : Entered src maps start n (straight m₀ start i)) (hi : i < n)
    (hfault : NoFault src.size start n m₀) (hpassed : Passed maps src start m₀ i) :
    Leaves maps J M (translateInsn src i (insnAt start i))
      (fun _ _ _ => Passed maps src start m₀ (i + 1))
      (fun e _ => LeftAt maps src start J₀ m₀ n e) := by
  have hstep := Translator.interpStep_eq_some (hfault i hi _ h.path)
  have hp : (insnAt start i).toNat % 8 = 0 := by
    have haligned := he.aligned
    have haddr := he.toNat_insnAt hi
    omega
  have hnext : Clear maps src.size (read (straight m₀ start i) (insnAt start i + 8)) →
      Passed maps src start m₀ (i + 1) := by
    intro hclear j hj
    rcases Nat.lt_succ_iff_lt_or_eq.mp hj with hj | rfl
    · exact hpassed j hj
    · exact hclear
  refine (Translator.translateInsn_leaves h.sound h.current h.live he.pages hp (he.baked i hi)
    hstep.1 he.hoisted i).imp (fun _ _ _ hrun => hnext hrun.2.1) ?_
  rintro e M' (⟨x, rfl, rfl, -⟩ | ⟨hclear, x, rfl, hafter⟩)
  · constructor
    · exact hpassed
    · rintro _ ⟨⟩
      exact hi
    · intro j hj hspoiled
      have hx : x.idx = j + 1 := hj
      exact absurd hspoiled (h.notSpoiled j (by omega))
  · obtain rfl := hafter.idx
    refine ⟨hnext hclear, fun _ hx => (by cases hx), ?_⟩
    rintro j hj ⟨⟨r, hs⟩, hne, hsle⟩
    obtain rfl : x.idx = j := Nat.succ.inj hj
    refine ⟨_, _, h.path, ?_, hne, hsle⟩
    obtain ⟨c, htranslated⟩ := h.translated
    rw [Translator.cacheAt_eq htranslated] at hs
    have hvalue := Translator.fieldOf_value h.sound (he.baked x.idx hi (insnAt start x.idx + 8)
      (by simp)) hs.target.1
    rw [← hvalue]
    exact hs.target.2

theorem run_passed (hfault : NoFault src.size start n m₀) (h : AtBoundary src start J₀ m₀ i J M)
    (he : Entered src maps start n (straight m₀ start i)) (hk : i + k ≤ n)
    (hpassed : Passed maps src start m₀ i) :
    Leaves maps J M (translateInsns src start i k)
      (fun r J' M' => (r = (i + k, false) ∧ AtBoundary src start J₀ m₀ (i + k) J' M') ∧
        Passed maps src start m₀ (i + k))
      (fun e _ => LeftAt maps src start J₀ m₀ n e) := by
  induction k generalizing i J M with
  | zero => exact .of_runs (.pure ⟨⟨rfl, h⟩, hpassed⟩)
  | succ k ih =>
      have hi : i < n := by omega
      have hstep := Leaves.and (h.step he hi hfault) (step_passed h he hi hfault hpassed)
      refine .bind (hstep.imp (fun _ _ _ => id) fun _ _ hexit => hexit.2) ?_
      rintro _ J₁ M₁ ⟨⟨rfl, h₁, he₁⟩, hpassed₁⟩
      have hrun := ih h₁ he₁ (by omega) hpassed₁
      rwa [show i + 1 + k = i + (k + 1) by omega] at hrun

/-- A block is always left. -/
theorem leaves_body {u : Bool} {l c a : BitVec 32} (hn : 0 < n)
    (he : Entered src maps start n M₀.init) (hfault : NoFault src.size start n M₀.init)
    (hstores : M₀.stores = []) :
    Leaves maps (Cache.start u l c a) M₀ (translateBody src start n) (fun _ _ _ => False)
      (fun e _ => LeftAt maps src start (Cache.start u l c a) M₀.init n e) := by
  obtain ⟨n, rfl⟩ := Nat.exists_eq_succ_of_ne_zero hn.ne'
  have hstart := @Translator.atBoundary_start _ start src u l c a hstores
  refine .bind (run_passed hfault hstart he (by omega) fun j hj =>
    absurd hj (Nat.not_lt_zero j)) ?_
  rintro _ J₁ M₁ ⟨⟨rfl, hboundary⟩, hpassed⟩
  rw [Nat.zero_add] at hboundary hpassed ⊢
  refine .bind (Q := fun _ _ _ => False) ?_ (fun _ _ _ h => h.elim)
  obtain ⟨J₂, -, hsnap⟩ := Translator.snapPending_eq J₁
  refine .quiet_bind hsnap ?_
  intro _ _ _ heq
  obtain ⟨rfl, rfl⟩ := emit_eq_some.mp heq
  refine Or.inr ⟨_, M₁, rfl, hpassed, fun _ hx => (by cases hx), fun j hj hspoiled => ?_⟩
  have hx : n + 1 = j + 1 := hj
  exact absurd hspoiled (hboundary.notSpoiled j (by omega))

theorem leftAt_of_leavesBlock {u : Bool} {l c a : BitVec 32}
    (h : LeavesBlock src maps start n (Cache.start u l c a) M₀ e M) (hn : 0 < n)
    (he : Entered src maps start n M₀.init) (hfault : NoFault src.size start n M₀.init)
    (hstores : M₀.stores = []) : LeftAt maps src start (Cache.start u l c a) M₀.init n e := by
  obtain ⟨i, J', code, htranslate, hexec⟩ := h
  rcases leaves_body hn he hfault hstores htranslate with ⟨_, -, h⟩ | ⟨e', M', hexit, hleft⟩
  · exact h.elim
  · rw [hexec] at hexit
    cases hexit
    exact hleft

/-! ## What a block leaves -/

theorem Passed.read_straight (h : Passed maps src start m₀ k) {f : Word} (hf : f.toNat % 8 = 0)
    (hholds : src.size.Holds f) (hstatic : maps.static (f >>> 3) = true) :
    read (straight m₀ start k) f = read m₀ f := by
  induction k with
  | zero => rfl
  | succ k ih =>
      rw [straight, after, read_write_apart _ _ (h k (Nat.lt_succ_self k) f hf hholds hstatic).symm]
      exact ih fun j hj => h j (Nat.lt_succ_of_lt hj)

theorem Passes.entered (h : Passes s b) (hvalid : b.Valid cfg.size s)
    (hpages : Translator.Marked s.maps) :
    Entered b.src s.maps b.start b.n s.mem where
  aligned := hvalid.aligned
  bounds := hvalid.src_size ▸ hvalid.bounds
  baked := hvalid.baked
  marked i hi q hq hdyn := (static_maps s _).trans (hvalid.marked i hi q hq hdyn)
  hoisted w hw := by
    rw [static_maps]
    have hany := h.hoist
    rw [List.any_eq_false] at hany
    exact Bool.eq_false_iff.mpr (hany w hw)
  pages := hpages

/-- What a block has done when it is left: so many steps of the interpreter. -/
structure Ran (cfg : Config) (s : Jit) (b : Block) (e : Exit) (mem : Memory) (eip : Word) :
    Prop where
  le : countOf e ≤ b.n
  smc : ∀ m, e = .smc m → m.idx < b.n
  keeps : s.Keeps cfg mem
  run : interpRun cfg.size (countOf e) (s.mem, b.start) = some (mem, eip)

theorem ran_of_leavesBlock (hvalid : b.Valid cfg.size s) (hpages : Translator.Marked s.maps)
    (h : Passes s b) (hstart : s.Starts M₀)
    (hleaves : LeavesBlock b.src s.maps b.start b.n b.setup.cache M₀ e M)
    (hleave : leave s.maps b.setup.useMovbe b.start e M = some (M', eip))
    (hfault : NoFault cfg.size b.start b.n s.mem)
    (hown : ∀ j < b.n, ∀ m p, interpRun cfg.size j (s.mem, b.start) = some (m, p) →
      ¬ TakesOwnResult m p) : Ran cfg s b e M'.mem eip := by
  have hsize := hvalid.src_size
  have he := h.entered hvalid hpages
  rw [← hstart.init] at he
  rw [← hsize, ← hstart.init] at hfault
  obtain ⟨hle, hok⟩ := hleaves.exitOk hvalid.pos he hfault hstart.stores
  have hleftAt := leftAt_of_leavesBlock hleaves hvalid.pos he hfault hstart.stores
  obtain ⟨M'', eip', hleave', hleft⟩ := hok.left b.setup.useMovbe
  rw [hleave] at hleave'
  obtain ⟨rfl, rfl⟩ := Prod.mk.inj (Option.some.inj hleave')
  obtain ⟨eip', hpath, hiff⟩ := hleft.path
  rw [hsize, hstart.init] at hpath
  have hmem : M'.mem = straight s.mem b.start (countOf e) := by rw [hleft.mem, hstart.init]
  refine ⟨hle, hleftAt.smc, fun f hf hholds hstatic => ?_, ?_⟩
  · rw [hmem, ← hstart.init]
    exact hleftAt.passed.read_straight hf (hsize ▸ hholds) ((static_maps s _).trans hstatic)
  · have heip : eip = eip' := by
      refine hiff.mpr fun j hj hspoiled => ?_
      obtain ⟨m, p, hreach, htakes⟩ := hleftAt.spoiled j hj hspoiled
      rw [hsize, hstart.init] at hreach
      exact hown j (by omega) m p hreach htakes
    rw [heip, hmem]
    exact hpath

end Dispatcher
end SubleqEmu
