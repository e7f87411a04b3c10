import SubleqEmu.BlockCodeChecks
import SubleqEmu.BlockCodeRuns
import SubleqEmu.DispatcherBlocks

/-!
# The code of a translated block

The bytes that `translate` leaves for a block run the interpreter: what the processor has done
when it leaves them is so many steps of the program, taken from the budget.
-/

namespace SubleqEmu
namespace BlockCode

open X86 Emitter ByteMemory EmitterBytes BlockBuffers Parts
open CopyLoop (insnAt)
open Machine (Insn Maps Exit)
open Subleq (MemSize interpRun)
open Translator (Source Cache Entered NoFault Leaves LeavesBlock AtBoundary countOf leave
  translateInsn translateInsns translateBody straight storesOf)
open Dispatcher (TakesOwnResult)

attribute [local instance] X86.neZero_sixteen BlockBuffers.neZero_eleven

variable {b : Parts} {maps : Maps} {M M' M₀ : Machine.State} {X : X86.State} {i k n : ℕ}
  {base start eip : Word} {m₀ : Memory} {e : Exit} {src : Source} {J J₀ : Cache}
  {C : Word → X86.State → X86.State → Prop} {targets : ℕ → Word} {u : Bool} {l c a : BitVec 32}
  {r14v : Word}

/-! ## Stores -/

/-- The first `k` instructions store to Dawn's memory. -/
def Within (src : Source) (start : Word) (m₀ : Memory) (k : ℕ) : Prop :=
  ∀ j < k, src.size.Holds (read (straight m₀ start j) (insnAt start j + 8))

theorem step_within (h : AtBoundary src start J₀ m₀ i J M)
    (he : Entered src maps start n (straight m₀ start i)) (hi : i < n)
    (hfault : NoFault src.size start n m₀) (hwithin : Within src start m₀ i) :
    Leaves maps J M (translateInsn src i (insnAt start i))
      (fun _ _ _ => Within src start m₀ (i + 1)) (fun e _ => Within src start m₀ (countOf e)) := by
  have hstep := Translator.interpStep_eq_some (hfault i hi _ h.path)
  have hp : (insnAt start i).toNat % 8 = 0 := by
    have haligned := he.aligned
    have haddr := he.toNat_insnAt hi
    omega
  have hnext : Within src start m₀ (i + 1) := by
    intro j hj
    rcases Nat.lt_succ_iff_lt_or_eq.mp hj with hj | rfl
    · exact hwithin j hj
    · exact hstep.1
  refine (Translator.translateInsn_leaves h.sound h.current h.live he.pages hp (he.baked i hi)
    hstep.1 he.hoisted i).imp (fun _ _ _ _ => hnext) ?_
  rintro e M' (⟨x, rfl, rfl, -⟩ | ⟨-, x, rfl, hafter⟩)
  · exact hwithin
  · obtain rfl := hafter.idx
    exact hnext

theorem run_within (hfault : NoFault src.size start n m₀) (h : AtBoundary src start J₀ m₀ i J M)
    (he : Entered src maps start n (straight m₀ start i)) (hk : i + k ≤ n)
    (hwithin : Within src start m₀ i) :
    Leaves maps J M (translateInsns src start i k)
      (fun r _ _ => r = (i + k, false) ∧ Within src start m₀ (i + k))
      (fun e _ => Within src start m₀ (countOf e)) := by
  induction k generalizing i J M with
  | zero => exact .of_runs (.pure ⟨rfl, hwithin⟩)
  | succ k ih =>
      have hi : i < n := by omega
      have hstep := Dispatcher.Leaves.and (h.step he hi hfault)
        (step_within h he hi hfault hwithin)
      refine .bind (hstep.imp (fun _ _ _ => id) fun _ _ hexit => hexit.2) ?_
      rintro _ J₁ M₁ ⟨⟨rfl, h₁, he₁⟩, hwithin₁⟩
      have hrun := ih h₁ he₁ (by omega) hwithin₁
      rwa [show i + 1 + k = i + (k + 1) by omega] at hrun

theorem body_within (hn : 0 < n) (he : Entered src maps start n M₀.init)
    (hfault : NoFault src.size start n M₀.init) (hstores : M₀.stores = []) :
    Leaves maps (Cache.start u l c a) M₀ (translateBody src start n) (fun _ _ _ => True)
      (fun e _ => Within src start M₀.init (countOf e)) := by
  obtain ⟨n, rfl⟩ := Nat.exists_eq_succ_of_ne_zero hn.ne'
  have hstart := @Translator.atBoundary_start _ start src u l c a hstores
  refine .bind (run_within hfault hstart he (by omega) fun j hj =>
    absurd hj (Nat.not_lt_zero j)) ?_
  rintro _ J₁ M₁ ⟨rfl, hwithin⟩
  rw [Nat.zero_add] at hwithin ⊢
  refine .bind (Q := fun _ _ _ => True) ?_ (fun _ _ _ _ => .of_runs (.pure trivial))
  obtain ⟨J₂, -, hsnap⟩ := Translator.snapPending_eq J₁
  refine .quiet_bind hsnap ?_
  intro _ _ _ heq
  obtain ⟨rfl, rfl⟩ := emit_eq_some.mp heq
  exact Or.inr ⟨_, M₁, rfl, hwithin⟩

theorem mem_of_kept {α β : Type} {merges : α → Prop} {ls : List (WriteBuffer.Store α β)}
    {ks : List (α × β)} (h : WriteBuffer.Kept merges ls ks) :
    ∀ s ∈ ks, ∃ t ∈ ls, t.addr = s.1 := by
  induction h with
  | nil => simp
  | kept _ ih =>
      intro s hs
      rcases List.mem_cons.mp hs with rfl | hs
      · exact ⟨_, List.mem_cons_self, rfl⟩
      · obtain ⟨t, ht, heq⟩ := ih s hs
        exact ⟨t, List.mem_cons_of_mem _ ht, heq⟩
  | idle _ _ ih =>
      intro s hs
      obtain ⟨t, ht, heq⟩ := ih s hs
      exact ⟨t, List.mem_cons_of_mem _ ht, heq⟩
  | replaced _ _ ih =>
      intro s hs
      obtain ⟨t, ht, heq⟩ := ih s hs
      exact ⟨t, List.mem_cons_of_mem _ ht, heq⟩

theorem inDawn_of_kept {idle : ℕ → Bool} {merges : Word → Prop} {stores : List (Word × Word)}
    (hwithin : Within src start m₀ k)
    (h : WriteBuffer.Kept merges (storesOf idle m₀ start k) stores) :
    InDawn src.size.val stores := by
  intro s hs
  obtain ⟨t, ht, heq⟩ := mem_of_kept h s hs
  obtain ⟨j, hj, rfl⟩ := List.mem_map.mp ht
  rw [← heq]
  exact hwithin j (List.mem_range.mp hj)

/-! ## What the instructions do -/

/-- What a block is made from. -/
structure Translated (b : Parts) (src : Source) (J₀ : Cache) : Prop where
  body : ∃ i J, translateBody src b.start b.n.toNat J₀ = some (i, J, b.body)
  sites : b.sites = StaticMap.groups [] src.hoist
  hoist : ∀ w ∈ src.hoist, w.toNat * 8 < src.size.val
  pos : 0 < b.n.toNat
  small : b.n.toNat < 2 ^ 31

/-- Words that are marked stay. -/
def KeepsMarked (size : MemSize) (maps : Maps) (m m' : Memory) : Prop :=
  ∀ f : Word, f.toNat % 8 = 0 → size.Holds f → maps.static (f >>> 3) = true →
    read m' f = read m f

/-- So many steps of the interpreter, with the machine after a stub. -/
structure RunsTo (b : Parts) (src : Source) (maps : Maps) (m₀ : Memory) (e : Exit)
    (M' : Machine.State) (eip : Word) : Prop where
  count : countOf e ≤ b.n.toNat
  dawn : InDawn src.size.val M'.stores
  keeps : KeepsMarked src.size maps m₀ M'.mem
  run : interpRun src.size (countOf e) (m₀, b.start) = some (M'.mem, eip)

theorem body_runs (h : Translated b src (Cache.start b.useMovbe l c a))
    (he : Entered src maps b.start b.n.toNat M₀.init)
    (hfault : NoFault src.size b.start b.n.toNat M₀.init)
    (hown : ∀ j < b.n.toNat, ∀ m p, interpRun src.size j (M₀.init, b.start) = some (m, p) →
      ¬ TakesOwnResult m p) (hstores : M₀.stores = []) :
    ∃ e M M' eip, exec (Machine.step maps) b.body M₀ = .exit e M ∧
      leave maps b.useMovbe b.start e M = some (M', eip) ∧ RunsTo b src maps M₀.init e M' eip := by
  obtain ⟨i, J, htranslate⟩ := h.body
  rcases Dispatcher.leaves_body h.pos he hfault hstores htranslate with
    ⟨_, -, hfalse⟩ | ⟨e, M, hexec, hleftAt⟩
  · exact hfalse.elim
  have hleaves : LeavesBlock src maps b.start b.n.toNat (Cache.start b.useMovbe l c a) M₀ e M :=
    ⟨i, J, b.body, htranslate, hexec⟩
  obtain ⟨hcount, hok⟩ := hleaves.exitOk h.pos he hfault hstores
  obtain ⟨M', eip, hleave, hleft⟩ := hok.left b.useMovbe
  have hwithin : Within src b.start M₀.init (countOf e) := by
    rcases body_within h.pos he hfault hstores htranslate with
      ⟨M₁, hrun, -⟩ | ⟨e', M₁, hexit, hwithin⟩
    · rw [hexec] at hrun
      cases hrun
    · rw [hexec] at hexit
      cases hexit
      exact hwithin
  obtain ⟨eip', hpath, hiff⟩ := hleft.path
  have heip : eip = eip' := by
    refine hiff.mpr fun j hj hspoiled => ?_
    obtain ⟨m, p, hreach, htakes⟩ := hleftAt.spoiled j hj hspoiled
    exact hown j (by omega) m p hreach htakes
  have hkeeps : KeepsMarked src.size maps M₀.init M'.mem := by
    intro f hf hholds hstatic
    rw [hleft.mem]
    exact hleftAt.passed.read_straight hf hholds hstatic
  refine ⟨e, M, M', eip, hexec, hleave, hcount, inDawn_of_kept hwithin hleft.kept, hkeeps, ?_⟩
  rw [hpath, hleft.mem, heip]

/-! ## The bytes of a block -/

/-- No test on entry has found a store to translated code. -/
theorem hoisted_of_tests (h : Translated b src J₀)
    (hmaps : MapsRead maps src.size.val m₀ r14v b.host.pageOff)
    (htests : b.sites.any (StaticMap.testGroup m₀ r14v) = false) :
    ∀ w ∈ src.hoist, maps.static w = false := by
  have hsmall : ∀ w ∈ src.hoist, w.toNat < 2 ^ 34 := by
    intro w hw
    have hbound := h.hoist w hw
    have hsize := hmaps.small
    omega
  rw [h.sites, StaticMap.any_groups m₀ r14v [] src.hoist hsmall, List.any_eq_false] at htests
  intro w hw
  rw [hmaps.static (h.hoist w hw)]
  simpa [BitTable.bit] using htests w hw

theorem hoist_of_turnsBack (h : turnsBack b X = none) :
    b.sites.any (StaticMap.testGroup X.mem (X.reg r14)) = false := by
  unfold turnsBack at h
  split_ifs at h with _ _ hhoist
  exact Bool.eq_false_iff.mpr hhoist

/-- Where the code of a block goes, with what the interpreter has done. -/
def Ends (b : Parts) (C : Word → X86.State → X86.State → Prop) (src : Source) (maps : Maps)
    (place : Label → Word) (X X' : X86.State) (x : Word) : Option Word → Prop
  | some info => x = X.reg r12 ∧ HandedBack X X' X.mem (X.reg rbp) b.start info
  | none => ∃ e mem eip, countOf e ≤ b.n.toNat ∧ KeepsMarked src.size maps X.mem mem ∧
      interpRun src.size (countOf e) (X.mem, b.start) = some (mem, eip) ∧
      LeftTo b C place (X.reg rbp) X X' x mem eip e

/-- The code of a block does what the interpreter does. -/
theorem placed_follows {place : Label → Word}
    (hplaced : Placed b src.size.val X.mem place base)
    (htranslated : Translated b src (Cache.start b.useMovbe l c a))
    (hentered : (∀ w ∈ src.hoist, maps.static w = false) →
      Entered src maps b.start b.n.toNat X.mem)
    (hfault : NoFault src.size b.start b.n.toNat X.mem)
    (hown : ∀ j < b.n.toNat, ∀ m p, interpRun src.size j (X.mem, b.start) = some (m, p) →
      ¬ TakesOwnResult m p)
    (hmaps : MapsRead maps src.size.val X.mem (X.reg r14) b.host.pageOff)
    (hbias : X.reg r15 = Machine.bias) (hcopies : CopiesNone b C X.mem) :
    ∃ x X', Steps C ⟨base, X⟩ ⟨x, X'⟩ ∧
      Ends b C src maps place X X' x (turnsBack b X) := by
  obtain ⟨x, X₁, hsteps, htested⟩ := tests_steps (C := C) hplaced hbias
  cases hturns : turnsBack b X with
  | some info =>
      rw [hturns] at htested
      exact ⟨x, X₁, hsteps, htested⟩
  | none =>
      rw [hturns] at htested
      obtain ⟨rfl, hhanded⟩ := htested
      have hlaid := hplaced.copy.laid
      rw [← hhanded.mem] at hlaid hcopies
      obtain ⟨X₂, hsteps₂, hhanded₂⟩ := copy_part hcopies hlaid
      rw [hhanded.mem, hhanded.budget] at hhanded₂
      have hentry := hhanded.trans hhanded₂
      have hinit : (started X₂).init = X.mem := hentry.mem
      have hclear := hoisted_of_tests htranslated hmaps (hoist_of_turnsBack hturns)
      have he := hentered hclear
      rw [← hinit] at he hfault hown
      obtain ⟨i, J, htranslate⟩ := htranslated.body
      have hchecked := translateBody_looks he hfault rfl htranslate
      obtain ⟨e, M, M', eip, hexec, hleave, hruns⟩ := body_runs htranslated he hfault hown rfl
      rw [← hentry.mem] at hplaced hmaps
      rw [← hentry.maps] at hmaps
      obtain ⟨x, X₃, hsteps₃, hleft⟩ := body_leaves (C := C) hplaced (hentry.bias.trans hbias)
        hentry.budget hmaps hchecked hexec hleave hruns.dawn htranslated.small
        hruns.count
      have hrun := hruns.run
      have hkeeps := hruns.keeps
      rw [hinit] at hrun hkeeps
      exact ⟨x, X₃, (hsteps.trans hsteps₂).trans hsteps₃, e, M'.mem, eip, hruns.count, hkeeps, hrun,
        hleft.after hentry⟩

/-- The bytes that `translate` writes for a block do what the interpreter does.  The processor
leaves them for `jit_exit`, or through a jump that is linked, with the memory and the place of
so many steps, which are taken from its budget. -/
theorem code_follows_interpRun (hwritten : Written b base targets X.mem)
    (hbeyond : Beyond src.size.val b.bytes.length base)
    (htranslated : Translated b src (Cache.start b.useMovbe l c a))
    (hentered : (∀ w ∈ src.hoist, maps.static w = false) →
      Entered src maps b.start b.n.toNat X.mem)
    (hfault : NoFault src.size b.start b.n.toNat X.mem)
    (hown : ∀ j < b.n.toNat, ∀ m p, interpRun src.size j (X.mem, b.start) = some (m, p) →
      ¬ TakesOwnResult m p)
    (hmaps : MapsRead maps src.size.val X.mem (X.reg r14) b.host.pageOff)
    (hbias : X.reg r15 = Machine.bias) (hcopies : CopiesNone b C X.mem) :
    ∃ x X', Steps C ⟨base, X⟩ ⟨x, X'⟩ ∧
      Ends b C src maps (place b.code base targets) X X' x (turnsBack b X) := by
  have hready := hwritten.ready hbeyond
  exact placed_follows hready.placed htranslated hentered hfault hown hmaps hbias hcopies

/-! ## A block of one instruction

It subtracts zero from zero, and branches to itself. -/

theorem place_target (ps : Code) (k : ℕ) : place ps base targets (.target k) = targets k := rfl

@[irreducible] def sampleWords : Memory := Machine.applyStores (fun _ => 0)
  [(0x1000, 0x2000), (0x1008, 0x2008), (0x1010, 0x1000)]

theorem sample_size_le : 0x4000 ≤ 2 ^ 47 := by
  decide

def sampleSource : Source where
  size := ⟨0x4000, sample_size_le⟩
  raw := read sampleWords
  dynamic _ := false
  hoist := [0x401]

def sampleMaps : Maps where
  qword q := if q = 8 then 7 else 0
  page _ := true

/-- Dawn's memory with the maps behind it. -/
def sampleMemory : Memory := fun x =>
  if x.toNat < 0x4000 then sampleWords x
  else if x = 0x200040 then 7
  else if x.toNat < 0x210000 then 0 else 1

@[irreducible] def sampleBody : List Insn :=
  ((translateBody sampleSource 0x1000 1 (.start true 0 0 0)).map fun r => r.2.2).getD []

def sampleParts : Parts where
  host := ⟨0x10000, none, 0, 0⟩
  useMovbe := true
  start := 0x1000
  n := 1
  sites := StaticMap.groups [] [0x401]
  desc := none
  body := sampleBody

def sampleBase : Word := 0x300000

/-- The branch is linked. -/
def sampleTargets (k : ℕ) : Word :=
  if k = 0 then sampleBase else place sampleParts.code sampleBase (fun _ => 0) (.slow k)

@[irreducible] def sampleEmitted : Memory := fun x =>
  if x.toNat < 0x300000 then sampleMemory x else sampleParts.bytes.getD (x - sampleBase).toNat 0

def samplePatched : Memory :=
  patched (place sampleParts.code sampleBase sampleTargets) sampleEmitted
    (sites sampleBase sampleParts.code)

def sampleProcessor : X86.State where
  reg := Function.update (Function.update (Function.update (fun _ => 0) rbp 100) r14 0x200000) r15
    Machine.bias
  mem x := if x.toNat < 0x300000 then sampleMemory x else samplePatched x
  flags := ⟨none, none, none, none⟩

/-- What the processor's memory holds, evaluated once. -/
theorem sample_evaluated :
    sampleParts.bytes.length < 0x1000 ∧
      ((sites sampleBase sampleParts.code).all fun s =>
        decide ((disp32 s.1 (place sampleParts.code sampleBase sampleTargets s.2)).signExtend 64 =
          place sampleParts.code sampleBase sampleTargets s.2 - (s.1 + 4))) ∧
      (translateBody sampleSource 0x1000 1 (.start true 0 0 0)).isSome = true ∧
      ([0x1000#64, 0x1008, 0x1010].all fun q =>
        decide (sampleSource.raw q = read sampleProcessor.mem q) && sampleMaps.static (q >>> 3)) ∧
      (∀ i < 1, (interpRun sampleSource.size (i + 1) (sampleProcessor.mem, 0x1000)).isSome =
        true) ∧
      (∀ k < 32, BitVec.ofNat 64
        (readLittle sampleProcessor.mem (0x200000 + BitVec.ofNat 64 k <<< 3) 8) =
          sampleMaps.qword (BitVec.ofNat 64 k)) ∧
      (∀ k < 4, sampleProcessor.mem (0x200000 + BitVec.ofNat 64 k + 0x10000) = 1) ∧
      read sampleProcessor.mem (0x1000 + 8) ≠ 0x1000 + 16 ∧
      turnsBack sampleParts sampleProcessor = none := by
  decide +kernel

theorem sample_length : sampleParts.bytes.length < 0x1000 := sample_evaluated.1

theorem sample_mem : sampleProcessor.mem = samplePatched := by
  funext x
  have hlength := sample_length
  have hsize : codeSize sampleParts.code = sampleParts.bytes.length := by
    rw [← length_blank, blank_code]
  by_cases hx : x.toNat < 0x300000
  · have hapart : samplePatched x = sampleEmitted x :=
      patched_apart sampleEmitted (by omega) (by unfold sampleBase; bv_omega)
    simp only [sampleProcessor, if_pos hx, hapart, sampleEmitted]
  · simp only [sampleProcessor, if_neg hx]

theorem sample_written : Written sampleParts sampleBase sampleTargets sampleProcessor.mem where
  bytes := by
    refine ⟨sampleEmitted, fun k hk => ?_, sample_mem⟩
    have hlength := sample_length
    have hlow : ¬ (sampleBase + BitVec.ofNat 64 k).toNat < 0x300000 := by
      unfold sampleBase
      bv_omega
    have hat : (sampleBase + BitVec.ofNat 64 k - sampleBase).toNat = k := by
      bv_omega
    simp only [sampleEmitted, if_neg hlow, hat]
    rw [List.getD_eq_getElem?_getD, List.getElem?_eq_getElem hk, Option.getD_some]
  short := by
    have hlength := sample_length
    omega
  near k s h := by
    have hnear := List.all_eq_true.mp sample_evaluated.2.1 _ h
    rw [decide_eq_true_eq] at hnear
    rwa [place_target] at hnear

theorem sample_beyond : Beyond sampleSource.size.val sampleParts.bytes.length sampleBase := by
  have hlength := sample_length
  refine ⟨by decide, ?_⟩
  have hbase : sampleBase.toNat = 0x300000 := rfl
  omega

theorem sample_translated : Translated sampleParts sampleSource (.start true 0 0 0) where
  body := by
    obtain ⟨-, -, hsome, -⟩ := sample_evaluated
    obtain ⟨⟨i, J, is⟩, h⟩ := Option.isSome_iff_exists.mp hsome
    have hbody : sampleBody = is := by
      rw [sampleBody, h]
      rfl
    have hparts : sampleParts.body = is := by
      unfold sampleParts
      exact hbody
    rw [hparts]
    exact ⟨i, J, h⟩
  sites := rfl
  hoist w hw := by
    rw [List.mem_singleton.mp hw]
    decide
  pos := by decide
  small := by decide

theorem sample_fields {i : ℕ} {q : Word} (hi : i < 1)
    (hq : q ∈ [insnAt 0x1000 i, insnAt 0x1000 i + 8, insnAt 0x1000 i + 16]) :
    sampleSource.raw q = read sampleProcessor.mem q ∧ sampleMaps.static (q >>> 3) = true := by
  obtain rfl : i = 0 := by omega
  obtain ⟨-, -, -, hmarked, -⟩ := sample_evaluated
  simpa using List.all_eq_true.mp hmarked q hq

theorem sample_entered (h : ∀ w ∈ sampleSource.hoist, sampleMaps.static w = false) :
    Entered sampleSource sampleMaps 0x1000 1 sampleProcessor.mem where
  aligned := by decide
  bounds := by decide
  baked _ hi _ hq _ := (sample_fields hi hq).1
  marked _ hi _ hq _ := (sample_fields hi hq).2
  hoisted := h
  pages _ _ := ⟨rfl, fun _ => rfl⟩

theorem sample_noFault : NoFault sampleSource.size 0x1000 1 sampleProcessor.mem := by
  obtain ⟨-, -, -, -, hruns, -⟩ := sample_evaluated
  exact Translator.noFault_of_run hruns

theorem sample_mapsRead : MapsRead sampleMaps sampleSource.size.val sampleProcessor.mem 0x200000
    sampleParts.host.pageOff where
  small := by decide
  qword q hq := by
    have hlt : q.toNat * 512 < 0x4000 := hq
    obtain ⟨-, -, -, -, -, hqwords, -⟩ := sample_evaluated
    have hread := hqwords q.toNat (by omega)
    rw [BitVec.ofNat_toNat, BitVec.setWidth_eq] at hread
    refine ⟨hread, ?_⟩
    have hsize : sampleSource.size.val = 0x4000 := rfl
    rw [hsize]
    constructor <;> bv_omega
  page t ht := by
    have hlt : t.toNat * 4096 < 0x4000 := ht
    obtain ⟨-, -, -, -, -, -, hpages, -⟩ := sample_evaluated
    have hread := hpages t.toNat (by omega)
    rw [BitVec.ofNat_toNat, BitVec.setWidth_eq] at hread
    have hoff : sampleParts.host.pageOff.signExtend 64 = 0x10000 := rfl
    have hsize : sampleSource.size.val = 0x4000 := rfl
    rw [hoff, hread, hsize]
    exact ⟨rfl, by bv_omega⟩

theorem sample_own : ∀ j < 1, ∀ m p, interpRun sampleSource.size j
    (sampleProcessor.mem, 0x1000) = some (m, p) → ¬ TakesOwnResult m p := by
  intro j hj m p h
  obtain rfl : j = 0 := by omega
  obtain ⟨rfl, rfl⟩ := Prod.mk.inj (Option.some.inj h)
  obtain ⟨-, -, -, -, -, -, -, hc, -⟩ := sample_evaluated
  exact fun htakes => hc htakes.1

theorem code_follows_interpRun_sample : turnsBack sampleParts sampleProcessor = none ∧
    ∃ x X', Steps (fun _ _ _ => False) ⟨sampleBase, sampleProcessor⟩ ⟨x, X'⟩ ∧
      Ends sampleParts (fun _ _ _ => False) sampleSource sampleMaps
        (place sampleParts.code sampleBase sampleTargets) sampleProcessor X' x
        (turnsBack sampleParts sampleProcessor) := by
  constructor
  · obtain ⟨-, -, -, -, -, -, -, -, hturns⟩ := sample_evaluated
    exact hturns
  · exact code_follows_interpRun sample_written sample_beyond sample_translated sample_entered
      sample_noFault sample_own sample_mapsRead rfl
      (fun _ _ h => by cases h)

end BlockCode
end SubleqEmu
