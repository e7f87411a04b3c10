import SubleqEmu.TranslatorExits

/-!
# What a block does

The cache at the boundaries of a block, the memory at its exits, and the order in which
its stores reach memory.
-/

namespace SubleqEmu
namespace Translator

open ByteMemory Subleq Emitter Machine WriteBuffer
open CopyLoop (insnAt)

variable {maps : Maps} {m : Memory} {J : Cache} {M M₀ : State} {start : Word} {src : Source}
  {k n : ℕ} {e : Exit} {u : Bool} {l c a : BitVec 32}

theorem not_entry_start {w : Word} {v : CVal} : ¬ Entry (Cache.start u l c a) w v := by
  cases v with
  | none => exact id
  | const x => rintro ⟨_, h⟩; cases h
  | reg r => rintro (h | ⟨_, h⟩) <;> cases h
  | neg r => rintro ⟨_, h⟩; cases h

theorem atBoundary_start (hstores : M₀.stores = []) :
    AtBoundary src start (Cache.start u l c a) M₀.init 0 (Cache.start u l c a) M₀ :=
  atBoundary_zero rfl rfl (fun _ _ => not_entry_start) hstores

theorem Reaches.atBoundary (h : Reaches src maps start (Cache.start u l c a) M₀ k J M)
    (hk : k ≤ n) (he : Entered src maps start n M₀.init)
    (hfault : NoFault src.size start n M₀.init) (hstores : M₀.stores = []) :
    AtBoundary src start (Cache.start u l c a) M₀.init k J M := by
  obtain ⟨code, htranslate, hexec⟩ := h
  have hstart := @atBoundary_start _ start src u l c a hstores
  have hrun := hstart.run hfault he (k := k) (by omega)
  rcases hrun htranslate with ⟨M', hM', -, hboundary⟩ | ⟨e, M', hexit, -⟩
  · rw [hexec] at hM'
    cases hM'
    rwa [Nat.zero_add] at hboundary
  · rw [hexec] at hexit
    cases hexit

theorem LeavesBlock.exitOk (h : LeavesBlock src maps start n (Cache.start u l c a) M₀ e M)
    (hn : 0 < n) (he : Entered src maps start n M₀.init)
    (hfault : NoFault src.size start n M₀.init) (hstores : M₀.stores = []) :
    countOf e ≤ n ∧ ExitOk src maps start (Cache.start u l c a) M₀.init e M := by
  obtain ⟨i, J', code, htranslate, hexec⟩ := h
  obtain ⟨n, rfl⟩ := Nat.exists_eq_succ_of_ne_zero hn.ne'
  have hstart := @atBoundary_start _ start src u l c a hstores
  have hbody : Leaves maps (Cache.start u l c a) M₀ (translateBody src start (n + 1))
      (fun _ _ _ => False)
      (fun e M' => countOf e ≤ n + 1 ∧
        ExitOk src maps start (Cache.start u l c a) M₀.init e M') := by
    refine .bind (Leaves.imp (hstart.run hfault he (k := n + 1) (by omega)) (fun _ _ _ => id) ?_) ?_
    · rintro e M' ⟨j, hj, J₁, M₁, hboundary, he₁, hexit⟩
      have hcount := hexit.countOf_le
      exact ⟨by omega, hexit.exitOk hboundary he₁ hj hfault⟩
    · rintro _ J₁ M₁ ⟨rfl, hboundary⟩
      rw [Nat.zero_add] at hboundary ⊢
      refine .bind (Q := fun _ _ _ => False) ?_ (fun _ _ _ h => h.elim)
      obtain ⟨J₂, -, hsnap⟩ := snapPending_eq J₁
      refine .quiet_bind hsnap ?_
      intro _ _ _ heq
      obtain ⟨rfl, rfl⟩ := emit_eq_some.mp heq
      exact Or.inr ⟨_, M₁, rfl, le_rfl, hboundary.exit_end⟩
  rcases hbody htranslate with ⟨_, -, h⟩ | ⟨e', M', hexit, hok⟩
  · exact h.elim
  · rw [hexec] at hexit
    cases hexit
    exact hok

/-! ## A block of two instructions

The second one subtracts from its own C field, which the cache has in a register. -/

def sampleMemory : Memory := applyStores (fun _ => 0)
  [(0x1000, 0x2000), (0x1008, 0x1028), (0x1010, 0x1018),
    (0x1018, 0x2008), (0x1020, 0x1028), (0x1028, 0x2010), (0x2000, 0x10), (0x2008, 0x3000)]

def sampleSource : Source where
  size := ⟨0x100000, by decide⟩
  raw := read sampleMemory
  dynamic q := q = 0x1028
  hoist := [0x205]

def sampleMaps : Maps where
  qword q := if q = 8 then 0x1f else 0
  page _ := true

def sampleState : State := ⟨fun _ => 0, none, sampleMemory, []⟩

def sampleCache : Cache := Cache.start true 0 0 0

theorem sample_marked : ∀ i < 2,
    [insnAt 0x1000 i, insnAt 0x1000 i + 8, insnAt 0x1000 i + 16].all fun q =>
      sampleSource.dynamic q || sampleMaps.static (q >>> 3) := by
  decide +kernel

theorem sample_entered : Entered sampleSource sampleMaps 0x1000 2 sampleMemory where
  aligned := by decide
  bounds := by decide
  baked _ _ _ _ _ := rfl
  marked i hi q hq hdyn := by
    have hfields := List.all_eq_true.mp (sample_marked i hi) q hq
    rwa [hdyn, Bool.false_or] at hfields
  hoisted w hw := by
    rw [List.mem_singleton.mp hw]
    decide +kernel
  pages _ _ := ⟨rfl, fun _ => rfl⟩

theorem sample_noFault : NoFault sampleSource.size 0x1000 2 sampleMemory :=
  noFault_of_run (by decide +kernel)

/-! ## The cache at boundaries, and memory at exits -/

/-- The cache is right about memory `m`, which the machine's is but for the store held
back. -/
structure CacheRight (J : Cache) (M : State) (m : Memory) : Prop where
  regs : ∀ r w, (J.regs r).addr = some w → M.reg r = read m w
  consts : ∀ k w x, J.consts k = some (w, x) → x = read m w
  aliases : ∀ k w r neg, J.aliases k = some ⟨w, r, neg⟩ →
    (if neg then -M.reg r else M.reg r) = read m w
  memory : ∀ x, (∀ w, J.pend = some w → ¬ (x - w).toNat < 8) → M.mem x = m x
  pend : ∀ w, J.pend = some w → J.lookup w ≠ .none

theorem cacheRight (h : Sound m J M) (hc : Current m J M) : CacheRight J M m where
  regs r w hw := (h.entry (v := .reg r) (Or.inl hw)).2
  consts k w x hw := (h.entry (v := .const x) ⟨k, hw⟩).2
  aliases k w r neg hw := by
    cases neg with
    | true => exact (h.entry (v := .neg r) ⟨k, hw⟩).2
    | false => exact (h.entry (v := .reg r) (Or.inr ⟨k, hw⟩)).2
  memory x hx := by
    unfold Current held at hc
    cases hp : J.pend with
    | none =>
        rw [hp] at hc
        exact congrFun hc x
    | some w =>
        rw [hp] at hc
        rw [← congrFun hc x]
        exact (if_neg (hx w hp)).symm
  pend w hw := h.lookup_pend hw

theorem value_cache_sound (hn : 0 < n) (he : Entered src maps start n M₀.init)
    (hfault : NoFault src.size start n M₀.init) (hstores : M₀.stores = []) :
    (∀ k ≤ n, ∀ J M, Reaches src maps start (Cache.start u l c a) M₀ k J M →
      ∃ m, interpRun src.size k (M₀.init, start) = some (m, insnAt start k) ∧
        CacheRight J M m) ∧
    ∀ e M, LeavesBlock src maps start n (Cache.start u l c a) M₀ e M → countOf e ≤ n ∧
      ∀ useMovbe, ∃ M' eip, leave maps useMovbe start e M = some (M', eip) ∧
        ∃ eip', interpRun src.size (countOf e) (M₀.init, start) = some (M'.mem, eip') := by
  constructor
  · intro k hk J M hreach
    have h := hreach.atBoundary hk he hfault hstores
    exact ⟨_, h.path, cacheRight h.sound h.current⟩
  · intro e M hleaves
    obtain ⟨hcount, hok⟩ := hleaves.exitOk hn he hfault hstores
    refine ⟨hcount, fun useMovbe => ?_⟩
    obtain ⟨M', eip, hleave, hleft⟩ := hok.left useMovbe
    obtain ⟨eip', hpath, -⟩ := hleft.path
    exact ⟨M', eip, hleave, eip', hleft.mem ▸ hpath⟩

theorem value_cache_sound_sample :
    (∀ k ≤ 2, ∀ J M, Reaches sampleSource sampleMaps 0x1000 sampleCache sampleState k J M →
      ∃ m, interpRun sampleSource.size k (sampleMemory, 0x1000) = some (m, insnAt 0x1000 k) ∧
        CacheRight J M m) ∧
    ∀ e M, LeavesBlock sampleSource sampleMaps 0x1000 2 sampleCache sampleState e M →
      countOf e ≤ 2 ∧ ∀ useMovbe, ∃ M' eip,
        leave sampleMaps useMovbe 0x1000 e M = some (M', eip) ∧ ∃ eip',
          interpRun sampleSource.size (countOf e) (sampleMemory, 0x1000) = some (M'.mem, eip') :=
  value_cache_sound (by decide) sample_entered sample_noFault rfl

/-! ## The order of stores -/

theorem store_order (hn : 0 < n) (he : Entered src maps start n M₀.init)
    (hfault : NoFault src.size start n M₀.init) (hstores : M₀.stores = []) :
    let J₀ := Cache.start u l c a
    (∀ e M, LeavesBlock src maps start n J₀ M₀ e M → ∀ useMovbe, ∃ M' eip,
      leave maps useMovbe start e M = some (M', eip) ∧
      Kept (cacheable · = true)
        (storesOf (subtractsZero src start J₀) M₀.init start (countOf e)) M'.stores ∧
      (∃ eip', interpRun src.size (countOf e) (M₀.init, start) =
        some (straight M₀.init start (countOf e), eip')) ∧
      ∀ j < countOf e, subtractsZero src start J₀ j = true →
        operandOf (straight M₀.init start j) (insnAt start j) = 0) ∧
    (∀ j < n, ∀ J M, Reaches src maps start J₀ M₀ (j + 1) J M →
      DirectStore src start J₀ M₀.init j →
        J.pend = none ∧ WrittenLast src start J₀ M₀.init j M) ∧
    ∀ s M, LeavesBlock src maps start n J₀ M₀ (.stub s) M →
      DirectStore src start J₀ M₀.init s.idx → WrittenLast src start J₀ M₀.init s.idx M := by
  refine ⟨fun e M hleaves useMovbe => ?_, fun j hj J M hreach hstore => ?_,
    fun s M hleaves => ?_⟩
  · obtain ⟨M', eip, hleave, hleft⟩ :=
      (hleaves.exitOk hn he hfault hstores).2.left useMovbe
    obtain ⟨eip', hpath, -⟩ := hleft.path
    exact ⟨M', eip, hleave, hleft.kept, ⟨eip', hpath⟩, hleft.zero⟩
  · exact (hreach.atBoundary hj he hfault hstores).last j rfl hstore
  · exact (hleaves.exitOk hn he hfault hstores).2.last s rfl

theorem store_order_sample :
    (∀ e M, LeavesBlock sampleSource sampleMaps 0x1000 2 sampleCache sampleState e M →
      ∀ useMovbe, ∃ M' eip, leave sampleMaps useMovbe 0x1000 e M = some (M', eip) ∧
        Kept (cacheable · = true)
          (storesOf (subtractsZero sampleSource 0x1000 sampleCache) sampleMemory 0x1000
            (countOf e)) M'.stores) ∧
    ∀ j < 2, ∀ J M, Reaches sampleSource sampleMaps 0x1000 sampleCache sampleState (j + 1) J M →
      DirectStore sampleSource 0x1000 sampleCache sampleMemory j →
        J.pend = none ∧ WrittenLast sampleSource 0x1000 sampleCache sampleMemory j M := by
  have hstores : sampleState.stores = [] := rfl
  obtain ⟨hleft, hlast, -⟩ := store_order Nat.two_pos sample_entered sample_noFault hstores
  refine ⟨fun e M hleaves useMovbe => ?_, hlast⟩
  obtain ⟨M', eip, hleave, hkept, -⟩ := hleft e M hleaves useMovbe
  exact ⟨M', eip, hleave, hkept⟩

end Translator
end SubleqEmu
