import SubleqEmu.TranslatorSoundness

/-!
# Results and branches

The value that an instruction stores and the branch that it takes, and where a branch to
a C field that the store changes goes.
-/

namespace SubleqEmu
namespace Translator

open ByteMemory Subleq Emitter Machine WriteBuffer
open CopyLoop (insnAt)

variable {maps : Maps} {m : Memory} {J J' : Cache} {M M' M₀ : State} {p start eip : Word}
  {src : Source} {i n : ℕ} {u ended useMovbe : Bool} {l c a : BitVec 32}
  {code : List Insn}

/-! ## Arithmetic -/

/-- One `interp_cycle` of `subleq_interp`, whose `jg` looks at the flags of the subtraction. -/
def interpCycle (size : MemSize) (m : Memory) (eip : Word) : Option (Memory × Word) := do
  let a ← rd size m eip
  let b ← rd size m (eip + 8)
  let c ← rd size m (eip + 16)
  let va ← rd size m a
  let vb ← rd size m b
  let m ← wr size m b (vb - va)
  return (m, if (subFlags vb va).le then c else eip + 24)

theorem interpCycle_eq (size : MemSize) (m : Memory) (eip : Word) :
    interpCycle size m eip = interpStep size m eip := by
  simp only [interpCycle, interpStep, le_subFlags]

/-- What a stub makes of memory. -/
theorem Settles.mem {q : Pending} {keep : Option Reg} {init : Memory} {w : List (Word × Word)}
    (h : Settles maps q keep init w M) (useMovbe : Bool) :
    ∃ M', exec (step maps) (stubStore useMovbe q keep) M = .run M' ∧
      M'.mem = applyStores init w := by
  obtain ⟨M', hrun, hinit, hstores, -⟩ := h useMovbe
  exact ⟨M', hrun, by rw [State.mem, hinit, hstores]⟩

theorem arithmetic_agrees (h : Sound m J M) (hc : Current m J M) (hlive : J.flagsLive = false)
    (hm : Marked maps) (hp : p.toNat % 8 = 0) (hbaked : Baked src m p)
    (hstep : (interpStep src.size m p).isSome = true)
    (hhoist : ∀ w ∈ src.hoist, maps.static w = false)
    (htranslate : translateInsn src i p J = some (ended, J', code)) :
    let va := read m (read m p)
    let vb := read m (read m (p + 8))
    let next := if vb.sle va then read m (p + 16) else p + 24
    (interpStep src.size m p = some (write m (read m (p + 8)) (vb - va), next) ∧
      interpCycle src.size m p = interpStep src.size m p) ∧
    (∀ M', exec (step maps) code M = .run M' →
      Current (write m (read m (p + 8)) (vb - va)) J' M' ∧ next = p + 24) ∧
    (∀ s M', exec (step maps) code M = .exit (.stub s) M' → vb.sle va = true ∧
      ∀ useMovbe keep, ∃ M₁, exec (step maps) (stubStore useMovbe s.pend keep) M' = .run M₁ ∧
        M₁.mem = write m (read m (p + 8)) (vb - va)) ∧
    (∀ s M', exec (step maps) code M = .exit (.smc s) M' →
      ∀ useMovbe, ∃ M₁, exec (step maps) (stubStore useMovbe s.pend none) M' = .run M₁ ∧
        M₁.mem = m) ∧
    exec (step maps) code M ≠ .stuck ∧
    ∀ fb fc rb q J₁ M₁, Prepared src maps m p J M fb fc rb q J₁ M₁ →
      Runs maps { J₁ with flagsLive := true } M₁ (storeResult fb.value rb q.1)
        fun _ _ M₂ => M₂.flags = M₁.flags := by
  intro va vb next
  obtain ⟨hb, hinterp⟩ := interpStep_eq_some hstep
  have hmem : applyStores M.init (M.stores ++ held m J) = m :=
    (applyStores_held m J M).symm.trans hc
  have hleaves := translateInsn_leaves h hc hlive hm hp hbaked hb hhoist i htranslate
  refine ⟨⟨hinterp, interpCycle_eq ..⟩, fun M' hrun => ?_, fun s M' hexit => ?_,
    fun s M' hexit => ?_, fun hstuck => ?_, fun fb fc rb q J₁ M₁ hprep =>
      hprep.store.imp fun _ _ _ hstored => hstored.2.1 rfl⟩
  · rcases hleaves with ⟨M₁, hrun', -, -, hgoes⟩ | ⟨e, M₁, hexit, -⟩
    · rw [hrun] at hrun'
      cases hrun'
      refine ⟨hgoes.current hc, ?_⟩
      simp only [next]
      split_ifs with hsle
      · exact (hgoes.next hsle).2
      · rfl
    · rw [hrun] at hexit
      cases hexit
  · rcases hleaves with ⟨M₁, hrun, -⟩ | ⟨e, M₁, hexit', hbefore | ⟨-, t, rfl, hafter⟩⟩
    · rw [hexit] at hrun
      cases hrun
    · obtain ⟨t, rfl, -⟩ := hbefore
      rw [hexit] at hexit'
      cases hexit'
    · rw [hexit] at hexit'
      cases hexit'
      refine ⟨hafter.taken, fun useMovbe keep => ?_⟩
      obtain ⟨w, hjoins, hsettles, -⟩ := hafter.settles keep
      obtain ⟨M₁, hrun, hmem'⟩ := hsettles.mem useMovbe
      exact ⟨M₁, hrun, hmem'.trans (applyStores_joins hjoins hmem hafter.zero)⟩
  · rcases hleaves with ⟨M₁, hrun, -⟩ | ⟨e, M₁, hexit', hbefore | ⟨-, t, rfl, -⟩⟩
    · rw [hexit] at hrun
      cases hrun
    · obtain ⟨t, rfl, -, hsettles⟩ := hbefore
      rw [hexit] at hexit'
      cases hexit'
      intro useMovbe
      obtain ⟨M₁, hrun, hmem'⟩ := hsettles.mem useMovbe
      exact ⟨M₁, hrun, hmem'.trans hmem⟩
    · rw [hexit] at hexit'
      cases hexit'
  · rcases hleaves with ⟨M₁, hrun, -⟩ | ⟨e, M₁, hexit, -⟩
    · rw [hstuck] at hrun
      cases hrun
    · rw [hstuck] at hexit
      cases hexit

/-- Where the second instruction of a block leaves it, after the first one. -/
def secondExit (src : Source) (maps : Maps) (start : Word) (J₀ : Cache) (M₀ : State) :
    Option Stub :=
  (translateInsns src start 0 1 J₀).bind fun r =>
    match r.1, exec (step maps) r.2.2 M₀ with
    | (1, false), .run M =>
        (translateInsn src 1 (insnAt start 1) r.2.1).bind fun r' =>
          match exec (step maps) r'.2.2 M with
          | .exit (.stub s) _ => some s
          | _ => none
    | _, _ => none

theorem secondExit_eq_some {J₀ : Cache} {s : Stub} (h : secondExit src maps start J₀ M₀ = some s) :
    ∃ J M ended J' code M', Reaches src maps start J₀ M₀ 1 J M ∧
      translateInsn src 1 (insnAt start 1) J = some (ended, J', code) ∧
      exec (step maps) code M = .exit (.stub s) M' := by
  obtain ⟨⟨r, J, c⟩, hfirst, h⟩ := Option.bind_eq_some_iff.mp h
  dsimp only at h
  split at h
  · rename_i M hexec
    obtain ⟨⟨ended, J', code⟩, htranslate, h⟩ := Option.bind_eq_some_iff.mp h
    dsimp only at h
    split at h
    · rename_i M' hexit
      obtain rfl := Option.some.inj h
      exact ⟨J, M, ended, J', code, M', ⟨c, hfirst, hexec⟩, htranslate, hexit⟩
    · cases h
  · cases h

/-- The second instruction of the sample block, with the result of the first one in a register,
branches. -/
theorem arithmetic_agrees_sample :
    ∃ J M ended J' code s M', Reaches sampleSource sampleMaps 0x1000 sampleCache sampleState 1 J M ∧
      translateInsn sampleSource 1 0x1018 J = some (ended, J', code) ∧
      exec (step sampleMaps) code M = .exit (.stub s) M' ∧
      ∀ useMovbe keep, ∃ M₁, exec (step sampleMaps) (stubStore useMovbe s.pend keep) M' =
        .run M₁ ∧ M₁.mem = write (straight sampleMemory 0x1000 1) 0x1028 0xfffffffffffff000 := by
  obtain ⟨hsome, hstep, ha, hb, hva, hvb⟩ :
      (secondExit sampleSource sampleMaps 0x1000 sampleCache sampleState).isSome = true ∧
        (interpStep sampleSource.size (straight sampleMemory 0x1000 1) 0x1018).isSome = true ∧
        read (straight sampleMemory 0x1000 1) 0x1018 = 0x2008 ∧
        read (straight sampleMemory 0x1000 1) (0x1018 + 8) = 0x1028 ∧
        read (straight sampleMemory 0x1000 1) 0x2008 = 0x3000 ∧
        read (straight sampleMemory 0x1000 1) 0x1028 = 0x2000 := by
    decide +kernel
  have hbaked : Baked sampleSource (straight sampleMemory 0x1000 1) 0x1018 := by
    intro q hq hdyn
    simp only [List.mem_cons, List.not_mem_nil, or_false] at hq
    rcases hq with rfl | rfl | rfl
    · exact ha.symm
    · exact hb.symm
    · exact absurd hdyn (by decide)
  obtain ⟨s, hs⟩ := Option.isSome_iff_exists.mp hsome
  obtain ⟨J, M, ended, J', code, M', hreach, htranslate, hexit⟩ := secondExit_eq_some hs
  have hhere := hreach.atBoundary (by decide : 1 ≤ 2) sample_entered sample_noFault rfl
  have hagrees := (arithmetic_agrees hhere.sound hhere.current hhere.live sample_entered.pages
    (by decide) hbaked hstep sample_entered.hoisted htranslate).2.2.1 s M' hexit
  rw [show sampleState.init = sampleMemory from rfl, ha, hb, hva, hvb] at hagrees
  exact ⟨J, M, ended, J', code, s, M', hreach, htranslate, hexit, hagrees.2⟩

/-! ## Branches to a field that the store changes -/

/-- Between instructions all is the interpreter's, and so it is at an exit, unless the
instruction before it has spoiled its C. -/
theorem exit_reads_before (hn : 0 < n) (he : Entered src maps start n M₀.init)
    (hfault : NoFault src.size start n M₀.init) (hstores : M₀.stores = []) :
    let J₀ := Cache.start u l c a
    (∀ k ≤ n, ∀ J M, Reaches src maps start J₀ M₀ k J M →
      ∃ m, interpRun src.size k (M₀.init, start) = some (m, insnAt start k) ∧ Current m J M) ∧
    ∀ e M, LeavesBlock src maps start n J₀ M₀ e M → ∀ useMovbe M' eip,
      leave maps useMovbe start e M = some (M', eip) →
      (interpRun src.size (countOf e) (M₀.init, start) = some (M'.mem, eip) ↔
        ∀ j, countOf e = j + 1 → ¬ SpoiledAt src start J₀ M₀.init j) := by
  constructor
  · intro k hk J M hreach
    have h := hreach.atBoundary hk he hfault hstores
    exact ⟨_, h.path, h.current⟩
  · intro e M h useMovbe M' eip hleave
    obtain ⟨M₁, eip₁, hleave', hleft⟩ := (h.exitOk hn he hfault hstores).2.left useMovbe
    rw [hleave] at hleave'
    cases hleave'
    obtain ⟨eip', hpath, hiff⟩ := hleft.path
    rw [← hiff, hpath, hleft.mem, Option.some.injEq, Prod.mk.injEq, and_iff_right rfl]
    exact eq_comm

theorem exit_reads_before_sample :
    (∀ k ≤ 2, ∀ J M, Reaches sampleSource sampleMaps 0x1000 sampleCache sampleState k J M →
      ∃ m, interpRun sampleSource.size k (sampleMemory, 0x1000) = some (m, insnAt 0x1000 k) ∧
        Current m J M) ∧
    ∀ e M, LeavesBlock sampleSource sampleMaps 0x1000 2 sampleCache sampleState e M →
      ∀ useMovbe M' eip, leave sampleMaps useMovbe 0x1000 e M = some (M', eip) →
      (interpRun sampleSource.size (countOf e) (sampleMemory, 0x1000) = some (M'.mem, eip) ↔
        ∀ j, countOf e = j + 1 →
          ¬ SpoiledAt sampleSource 0x1000 sampleCache sampleMemory j) :=
  exit_reads_before (by decide) sample_entered sample_noFault rfl

/-- How many instructions a block runs, and where it goes on. -/
def exitOf (src : Source) (maps : Maps) (start : Word) (n : ℕ) (J₀ : Cache) (M₀ : State)
    (useMovbe : Bool) : Option (ℕ × Word) :=
  (translateBody src start n J₀).bind fun r =>
    match exec (step maps) r.2.2 M₀ with
    | .exit e M => (leave maps useMovbe start e M).map fun s => (countOf e, s.2)
    | _ => none

theorem exitOf_eq_some {J₀ : Cache} {k : ℕ}
    (h : exitOf src maps start n J₀ M₀ useMovbe = some (k, eip)) :
    ∃ e M M', LeavesBlock src maps start n J₀ M₀ e M ∧
      leave maps useMovbe start e M = some (M', eip) ∧ countOf e = k := by
  obtain ⟨⟨r, J, code⟩, htranslate, h⟩ := Option.bind_eq_some_iff.mp h
  cases hexec : exec (step maps) code M₀ with
  | exit e M =>
      simp only [hexec, Option.map_eq_some_iff, Prod.mk.injEq] at h
      obtain ⟨⟨M', eip⟩, hleave, rfl, rfl⟩ := h
      exact ⟨e, M, M', ⟨r, J, code, htranslate, hexec⟩, hleave, rfl⟩
  | run M => simp only [hexec, reduceCtorEq] at h
  | stuck => simp only [hexec, reduceCtorEq] at h

/-- The sample block goes on at its C after the subtraction from it. -/
theorem exit_reads_after :
    ¬ ∀ src maps start n M₀ u l c a, 0 < n → Entered src maps start n M₀.init →
      NoFault src.size start n M₀.init → M₀.stores = [] →
      ∀ e M, LeavesBlock src maps start n (Cache.start u l c a) M₀ e M → ∀ useMovbe M' eip,
        leave maps useMovbe start e M = some (M', eip) →
        interpRun src.size (countOf e) (M₀.init, start) = some (M'.mem, eip) := by
  intro h
  obtain ⟨e, M, M', hleaves, hleave, hcount⟩ := exitOf_eq_some
    (by decide +kernel : exitOf sampleSource sampleMaps 0x1000 2 sampleCache sampleState true =
      some (2, 0xfffffffffffff000))
  have hrun := h _ _ _ _ _ _ _ _ _ (by decide) sample_entered sample_noFault rfl e M hleaves
    true M' _ hleave
  have heip : (interpRun sampleSource.size 2 (sampleMemory, 0x1000)).map (·.2) = some 0x2000 := by
    decide +kernel
  rw [hcount] at hrun
  rw [show sampleState.init = sampleMemory from rfl] at hrun
  rw [hrun, Option.map_some, Option.some.injEq] at heip
  exact absurd (show (0xfffffffffffff000 : Word) = 0x2000 from heip) (by decide)

end Translator
end SubleqEmu
