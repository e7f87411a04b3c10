import SubleqEmu.TranslatorRuns

/-!
# Exits of a block

Where a block is left and what its stubs leave: the interpreter's memory, by writes that
are the interpreter's stores but for those that nothing can tell from them.
-/

namespace SubleqEmu
namespace Translator

open ByteMemory Subleq Emitter Machine WriteBuffer
open CopyLoop (insnAt insnAt_succ)

variable {maps : Maps} {m m₀ : Memory} {J J₀ : Cache} {M M' M₁ : State} {p start eip : Word}
  {src : Source} {i k n : ℕ} {e : Exit}

/-- How many instructions have run at an exit. -/
def countOf : Exit → ℕ
  | .smc s => s.idx
  | .stub s => s.idx + 1

/-- A block entered with memory `m₀` and left after `k` instructions, with the machine
after the stub. -/
structure Left (src : Source) (start : Word) (J₀ : Cache) (m₀ : Memory) (k : ℕ) (M : State)
    (eip : Word) : Prop where
  mem : M.mem = straight m₀ start k
  path : ∃ eip', interpRun src.size k (m₀, start) = some (straight m₀ start k, eip') ∧
    (eip = eip' ↔ ∀ j, k = j + 1 → ¬ SpoiledAt src start J₀ m₀ j)
  zero : ∀ j < k, subtractsZero src start J₀ j = true →
    operandOf (straight m₀ start j) (insnAt start j) = 0
  kept : Kept (cacheable · = true) (storesOf (subtractsZero src start J₀) m₀ start k) M.stores

/-- An exit, with what its stub makes of it. -/
structure ExitOk (src : Source) (maps : Maps) (start : Word) (J₀ : Cache) (m₀ : Memory)
    (e : Exit) (M : State) : Prop where
  left : ∀ useMovbe, ∃ M' eip, leave maps useMovbe start e M = some (M', eip) ∧
    Left src start J₀ m₀ (countOf e) M' eip
  last : ∀ s, e = .stub s → DirectStore src start J₀ m₀ s.idx →
    WrittenLast src start J₀ m₀ s.idx M

theorem AtBoundary.left (h : AtBoundary src start J₀ m₀ i J M)
    (hinit : M'.init = m₀) (hstores : M'.stores = M.stores ++ held (straight m₀ start i) J) :
    Left src start J₀ m₀ i M' (insnAt start i) where
  mem := by
    rw [State.mem, hinit, hstores, ← h.init, ← applyStores_held]
    exact h.init.symm ▸ h.current
  path := ⟨insnAt start i, h.path, iff_of_true rfl fun j hj => h.notSpoiled j (by omega)⟩
  zero := h.zero
  kept := hstores ▸ h.kept

theorem AtBoundary.exit_before (h : AtBoundary src start J₀ m₀ i J M)
    (he : LeavesBefore maps i m₀ (M.stores ++ held (straight m₀ start i) J) e M₁) :
    ExitOk src maps start J₀ m₀ e M₁ where
  left useMovbe := by
    obtain ⟨s, rfl, rfl, hsettles⟩ := he
    obtain ⟨M', hrun, hinit, hstores, -⟩ := hsettles useMovbe
    exact ⟨M', _, by rw [leave, hrun], h.left hinit hstores⟩
  last s hs := by
    obtain ⟨_, rfl, -⟩ := he
    cases hs

theorem leave_stub {s : Stub} {u : Bool}
    (h : exec (step maps) (stubStore u s.pend (if s.dyn then s.creg else none)) M = .run M') :
    leave maps u start (.stub s) M =
      if s.dyn then s.creg.map fun r => (M', M'.reg r) else some (M', s.target) := by
  rw [leave, h]

/-- The jump at the end of a block. -/
theorem AtBoundary.exit_end (h : AtBoundary src start J₀ m₀ (n + 1) J M) :
    ExitOk src maps start J₀ m₀
      (.stub ⟨false, n, insnAt start (n + 1), none, snapOf J⟩) M where
  left useMovbe := by
    obtain ⟨M', hrun, hinit, hstores, -⟩ := h.sound.settles none useMovbe
    exact ⟨M', _, leave_stub hrun, h.left (hinit.trans h.init) hstores⟩
  last s hs hstore := by
    cases hs
    exact (h.last n rfl hstore).2

/-- A branch to C's word after the subtraction from it. -/
theorem difference_eq_iff (h : read m (p + 8) = p + 16) :
    difference m p = read m (p + 16) ↔ operandOf m p = 0 := by
  rw [difference, operandOf, h]
  exact sub_eq_self

theorem AtBoundary.exit_after (h : AtBoundary src start J₀ m₀ i J M) {s : Stub}
    (hbaked : Baked src (straight m₀ start i) (insnAt start i))
    (hstep : (interpStep src.size (straight m₀ start i) (insnAt start i)).isSome = true)
    (he : LeavesAfter maps i (straight m₀ start i) (insnAt start i)
      (subtractsZero src start J₀ i) (direct (fieldOf src J (insnAt start i + 8)))
      (fieldOf src J (insnAt start i)) (fieldOf src J (insnAt start i + 8))
      (fieldOf src J (insnAt start i + 16)) J M s M₁) :
    ExitOk src maps start J₀ m₀ (.stub s) M₁ := by
  obtain ⟨c, htranslated⟩ := h.translated
  have hcache := cacheAt_eq htranslated
  have hidx := he.idx
  subst hidx
  have hpath : interpRun src.size (s.idx + 1) (m₀, start) = some (straight m₀ start (s.idx + 1),
      read (straight m₀ start s.idx) (insnAt start s.idx + 16)) := by
    refine interpRun_trans h.path ((interpRun_one ..).trans ?_)
    rw [(interpStep_eq_some hstep).2, he.taken, if_pos rfl, straight]
  have hzero : ∀ j < s.idx + 1, subtractsZero src start J₀ j = true →
      operandOf (straight m₀ start j) (insnAt start j) = 0 := by
    intro j hj
    rcases Nat.lt_succ_iff_lt_or_eq.mp hj with hj | rfl
    · exact h.zero j hj
    · exact he.zero
  constructor
  · intro useMovbe
    obtain ⟨l, hjoins, hsettles, -⟩ := he.settles (if s.dyn then s.creg else none)
    obtain ⟨M', hrun, hinit, hstores, hreg⟩ := hsettles useMovbe
    have hleft : ∀ eip, (eip = read (straight m₀ start s.idx) (insnAt start s.idx + 16) ↔
        ¬ SpoiledAt src start J₀ m₀ s.idx) →
        Left src start J₀ m₀ (s.idx + 1) M' eip := fun eip heip => {
      mem := by
        rw [State.mem, hinit, hstores]
        exact applyStores_joins hjoins ((applyStores_held ..).symm.trans h.current) he.zero
      path := ⟨_, hpath, heip.trans ⟨fun hs j hj => by rwa [← Nat.succ.inj hj],
        fun hs => hs s.idx rfl⟩⟩
      zero := hzero
      kept := by
        rw [hstores, storesOf_succ]
        exact h.kept.joins hjoins (cacheable_of_not_direct h.sound hbaked) }
    have hleave := @leave_stub _ _ _ start _ _ hrun
    cases hdyn : s.dyn with
    | false =>
        refine ⟨M', s.target, by rw [hleave, hdyn]; rfl, hleft _ (iff_of_true (he.target hdyn) ?_)⟩
        rintro ⟨⟨r, hs⟩, -⟩
        have hdyn' := hs.dyn
        rw [hcache, ← he.dyn, hdyn] at hdyn'
        cases hdyn'
    | true =>
        obtain ⟨r, hr, hvalue⟩ := he.creg hdyn
        have hreg' : M'.reg r = M₁.reg r := hreg r (by rw [hdyn, if_pos rfl, hr])
        refine ⟨M', M'.reg r, by rw [hleave, hdyn, hr]; rfl, hleft _ ?_⟩
        rw [hreg', SpoiledAt, hcache]
        rcases hvalue with ⟨⟨t, ht⟩, hvalue⟩ | ⟨hs, hvalue⟩
        · have htarget := fieldOf_value h.sound (hbaked (insnAt start s.idx + 8) (by simp))
            ht.target.1
          rw [ht.target.2] at htarget
          rw [hvalue, difference_eq_iff htarget.symm]
          constructor
          · intro hzero hspoiled
            exact hspoiled.2.1 hzero
          · intro hnot
            by_contra hne
            exact hnot ⟨⟨t, ht⟩, hne, he.taken⟩
        · exact iff_of_true hvalue fun hspoiled => hs hspoiled.1
  · rintro _ ⟨⟩ hstore
    obtain ⟨l, hjoins, -, hlast⟩ := he.settles none
    have hdirect := hstore.direct (hcache.symm ▸ h.sound) hbaked
    rw [hcache] at hdirect
    rw [hdirect] at hjoins hlast
    exact ⟨_, h.kept, (hlast hstore.1 rfl).trans (joins_direct hjoins hstore.1)⟩

theorem ExitsAt.exitOk (h : AtBoundary src start J₀ m₀ i J M)
    (he : Entered src maps start n (straight m₀ start i)) (hi : i < n)
    (hfault : NoFault src.size start n m₀) (hexit : ExitsAt src maps start J₀ m₀ i J M e M₁) :
    ExitOk src maps start J₀ m₀ e M₁ := by
  cases hexit with
  | before hbefore => exact h.exit_before hbefore
  | after s hs hafter =>
      subst hs
      exact h.exit_after (he.baked i hi) (hfault i hi _ h.path) hafter

theorem ExitsAt.countOf_le (h : ExitsAt src maps start J₀ m₀ i J M e M₁) : countOf e ≤ i + 1 := by
  cases h with
  | before hbefore =>
      obtain ⟨s, rfl, rfl, -⟩ := hbefore
      exact Nat.le_succ _
  | after s hs hafter =>
      subst hs
      exact hafter.idx ▸ le_rfl

/-! ## Runs and exits -/

/-- The block, entered with the machine `M₀`, reaches the boundary before its `k`-th
instruction. -/
def Reaches (src : Source) (maps : Maps) (start : Word) (J₀ : Cache) (M₀ : State) (k : ℕ)
    (J : Cache) (M : State) : Prop :=
  ∃ c, translateInsns src start 0 k J₀ = some ((k, false), J, c) ∧
    exec (step maps) c M₀ = .run M

/-- The block of `n` instructions is left at an exit. -/
def LeavesBlock (src : Source) (maps : Maps) (start : Word) (n : ℕ) (J₀ : Cache) (M₀ : State)
    (e : Exit) (M : State) : Prop :=
  ∃ k J c, translateBody src start n J₀ = some (k, J, c) ∧ exec (step maps) c M₀ = .exit e M

end Translator
end SubleqEmu
