import SubleqEmu.BlockCodeBody
import SubleqEmu.TranslatorSoundness
import SubleqEmu.TranslatorWeights

/-!
# What the checks of a block look up

The words and pages that the code of a translated block looks up in the maps are those of
Dawn's memory, however the block runs: most of the code looks up none, and the checks of a
store are of the word that the instruction stores to.
-/

namespace SubleqEmu
namespace BlockCode

open ByteMemory Emitter
open CopyLoop (insnAt)
open Subleq (Word MemSize)
open Machine (Insn Reg Maps CVal State)
open Translator

variable {size : ℕ} {maps : Maps} {M M' M₀ : State} {J J' J₀ : Cache} {i k n : ℕ}
  {is is' : List Insn} {α β : Type} {m m₀ : Memory} {P : Set Reg} {src : Source}
  {p b start : Word} {r : Reg}

/-! ## Code that looks up nothing -/

/-- For the instructions that may look up a word beyond. -/
def wild : Insn → ℕ
  | .shl _ n => if n < 64 then 0 else 1
  | .shr _ n => if n < 64 then 0 else 1
  | .testBitmap _ => 1
  | .cmpPage _ => 1
  | .jnz _ => 1
  | _ => 0

theorem inMaps_of_wild {x : Insn} (h : wild x = 0) (M : State) : InMaps size x M := by
  cases x <;> simp_all [wild, InMaps]

theorem checked_of_wild (h : weight wild is = 0) (M : State) : Checked size maps is M := by
  induction is generalizing M with
  | nil => trivial
  | cons x is ih =>
      rw [weight_cons, Nat.add_eq_zero_iff] at h
      exact ⟨inMaps_of_wild h.1 M, fun M' _ => ih h.2 M'⟩

/-- All but shifts, tests and their jumps. -/
def plainWeights : Weights := ⟨0, 0, 1, 1, 1, 0⟩

theorem wild_le (x : Insn) : wild x ≤ plainWeights.of x := by
  cases x <;> simp only [wild, Weights.of, plainWeights, le_refl] <;> split_ifs <;> omega

theorem weight_wild_le (is : List Insn) : weight wild is ≤ weight plainWeights.of is := by
  induction is with
  | nil => exact Nat.le_refl 0
  | cons x is ih =>
      have hx := wild_le x
      rw [weight_cons, weight_cons]
      omega

theorem plain {g : T α} (h : Weighs plainWeights.of g 0) : Weighs wild g 0 := by
  intro _ _ _ c heq
  exact (weight_wild_le c).trans (h heq)

theorem shiftInsn_wild (left : Bool) (r : Reg) (hn : n < 64) : wild (shiftInsn left r n) = 0 := by
  cases left <;> simp [shiftInsn, wild, hn]

theorem shifted_wild (v : CVal) (left : Bool) (hn : n < 64) :
    Weighs wild (shifted v left n) 0 := by
  have hnew : ∀ v, Weighs wild (do
      let s ← toReg v
      let r ← scratch
      emit (.mov r s)
      emit (shiftInsn left r n)
      return CVal.reg r) 0 := by
    intro v
    refine .quiet_bind (plain (toReg_weighs v)) fun s => ?_
    refine .quiet_bind (plain scratch_weighs) fun r => ?_
    refine .emit_bind 0 (Nat.le_refl 0) (Nat.le_refl 0) ?_
    exact .emit_bind 0 (shiftInsn_wild left r hn).le (Nat.le_refl 0) (.pure _)
  cases v with
  | const c => exact .pure _
  | none => exact hnew _
  | reg r => exact hnew _
  | neg r => exact hnew _

theorem putTogether_wild (lo hi : CVal) (hk : k < 64) (hpos : 0 < k) :
    Weighs wild (putTogether lo hi k) 0 := by
  refine .quiet_bind (shifted_wild lo true hk) fun v => ?_
  refine .quiet_bind (shifted_wild hi false (by omega)) fun h => ?_
  cases v with
  | const x =>
      cases h with
      | const y => exact .pure _
      | reg r => exact .quiet_bind (plain (orVal_weighs r _)) fun _ => .pure _
      | none => exact .fail
      | neg r => exact .fail
  | reg r => exact .quiet_bind (plain (orVal_weighs r h)) fun _ => .pure _
  | none => exact .fail
  | neg r => exact .fail

/-- The shifts that put a word together from the two it spans. -/
theorem unaligned_of_spans {a : Word} (h : spansCacheable a) : a.toNat % 8 ≠ 0 := by
  intro hzero
  apply h.1
  apply BitVec.eq_of_toNat_eq
  rw [toNat_and_seven, hzero]
  rfl

theorem getSpanned_wild {a : Word} (h : spansCacheable a) (lo : Word) :
    Weighs wild (getSpanned a lo) 0 := by
  have hne := unaligned_of_spans h
  refine .quiet_bind (plain (cacheFind_weighs lo)) fun v => ?_
  refine .quiet_bind (plain (cacheFind_weighs (lo + 8))) fun x => ?_
  split_ifs
  · refine .quiet_bind (plain (pinVal_weighs v)) fun _ => ?_
    refine .quiet_bind (plain (pinVal_weighs x)) fun _ => ?_
    refine .quiet_bind (plain (getIfMissing_weighs v lo)) fun v => ?_
    refine .quiet_bind (plain (getIfMissing_weighs x (lo + 8))) fun x => ?_
    exact putTogether_wild v x (by omega) (by omega)
  · exact plain (getWord_weighs a)

theorem getStatic_wild (a : Word) : Weighs wild (getStatic a) 0 := by
  unfold getStatic
  split_ifs with h
  · exact getSpanned_wild h _
  · exact plain (getWord_weighs a)

theorem updateWord_wild (w : Word) (old : CVal) (keep : Word) (v : CVal) (left : Bool)
    (hn : n < 64) : Weighs wild (updateWord w old keep v left n) 0 := by
  apply Weighs.onlyIf
  refine .quiet_bind (shifted_wild v left hn) fun part => ?_
  refine .quiet_bind (plain (maskedOr_weighs old keep part)) fun new => ?_
  exact plain (rebind_weighs w new)

theorem updateSpanned_wild {a : Word} (h : spansCacheable a) (v : CVal) :
    Weighs wild (updateSpanned a v) 0 := by
  have hne := unaligned_of_spans h
  apply Weighs.modify_bind
  refine .quiet_bind (plain (pinVal_weighs v)) fun _ => ?_
  refine .quiet_bind (plain (cacheFind_weighs _)) fun lv => ?_
  refine .quiet_bind (plain (cacheFind_weighs _)) fun hv => ?_
  refine .quiet_bind (plain (pinVal_weighs lv)) fun _ => ?_
  refine .quiet_bind (plain (pinVal_weighs hv)) fun _ => ?_
  refine .quiet_bind (updateWord_wild _ lv _ v _ (by omega)) fun _ => ?_
  exact updateWord_wild _ hv _ v _ (by omega)

/-! ## Past the check of the store -/

theorem operandA_wild (p : Word) (fa : Field) : Weighs wild (operandA p fa) 0 := by
  unfold operandA
  split_ifs
  · exact getStatic_wild _
  · exact .quiet_bind (plain (fieldReg_weighs p fa)) fun ra => plain (loadThrough_weighs ra)

theorem operandB_wild (fb : Field) (rb : Option Reg) : Weighs wild (operandB fb rb) 0 := by
  cases rb with
  | none => exact getStatic_wild _
  | some rb => exact plain (loadThrough_weighs rb)

theorem result_wild (p : Word) (fa fb fc : Field) (rb : Option Reg) :
    Weighs wild (result p fa fb fc rb) 0 := by
  unfold result
  split_ifs
  · exact .quiet_bind (plain (readC_weighs p fc)) fun rc => .pure _
  · refine .quiet_bind (operandA_wild p fa) fun va => ?_
    refine .quiet_bind (operandB_wild fb rb) fun vb => ?_
    refine .quiet_bind (plain (readC_weighs p fc)) fun rc => ?_
    refine .quiet_bind (plain (flushBefore_weighs _ _ va vb)) fun _ => ?_
    exact .quiet_bind (plain (compute_weighs _ _ _ va vb)) fun res => .pure _

/-- Words are put together after a store only where two cached words are spanned. -/
theorem spans_of_storeResult {fb : Word} {rb : Option Reg} {res : Result} {v : CVal}
    (h : storeResult fb rb res J = some (some v, J', is)) : spansCacheable fb := by
  cases rb with
  | some rb =>
      obtain ⟨_, _, _, _, -, h, -⟩ := bind_eq_some.mp h
      cases (pure_eq_some.mp h).1
  | none =>
      simp only [storeResult] at h
      split_ifs at h
      · obtain ⟨_, _, _, _, -, h, -⟩ := bind_eq_some.mp h
        cases (pure_eq_some.mp h).1
      · unfold storeUncached at h
        split_ifs at h with hunchanged hspans
        · cases (pure_eq_some.mp h).1
        · exact hspans
        · obtain ⟨_, _, _, _, -, h, -⟩ := bind_eq_some.mp h
          obtain ⟨_, _, _, _, -, h, -⟩ := bind_eq_some.mp h
          cases (pure_eq_some.mp h).1

theorem finish_wild (i : ℕ) (p : Word) (fb fc : Field) (rb : Option Reg)
    (q : Result × Option Reg) : Weighs wild (finish i p fb fc rb q) 0 := by
  apply Weighs.modify_bind
  intro J x J' c heq
  obtain ⟨spanned, J₁, c₁, c₂, hstore, hrest, rfl⟩ := bind_eq_some.mp heq
  have hfirst := plain (storeResult_weighs fb.value rb q.1) hstore
  have hafter : ∀ ended, Weighs wild (updateAfter fb.value ended spanned) 0 := by
    intro ended
    cases spanned with
    | none => exact .pure ()
    | some v => exact .onlyIf _ (updateSpanned_wild (spans_of_storeResult hstore) v)
  have hlast : Weighs wild (do
      modifyState fun J => { J with flagsLive := false }
      let ended ← branchTo i p fc q.2 q.1.taken
      updateAfter fb.value ended spanned
      return ended) 0 := by
    apply Weighs.modify_bind
    refine .quiet_bind (plain (branchTo_weighs i p fc q.2 q.1.taken)) fun ended => ?_
    exact .quiet_bind (hafter ended) fun _ => .pure _
  have hsecond := hlast hrest
  rw [weight_append]
  omega

/-! ## Generators -/

theorem checked_append (h : Checked size maps is M)
    (h' : ∀ M', exec (Machine.step maps) is M = .run M' → Checked size maps is' M') :
    Checked size maps (is ++ is') M := by
  induction is generalizing M with
  | nil => exact h' M rfl
  | cons x is ih =>
      refine ⟨h.1, fun M₁ hstep => ih (h.2 M₁ hstep) fun M' hexec => h' M' ?_⟩
      rw [exec_cons_of_run hstep, hexec]

/-- What a generator emits looks up words of Dawn's memory only. -/
def Looks (size : ℕ) (maps : Maps) (J : Cache) (M : State) (g : T α) : Prop :=
  ∀ ⦃x J' c⦄, g J = some (x, J', c) → Checked size maps c M

namespace Looks

theorem of_wild {g : T α} (h : Weighs wild g 0) : Looks size maps J M g :=
  fun _ _ _ heq => checked_of_wild (Nat.le_zero.mp (h heq)) M

protected theorem bind {g : T α} {f : α → T β} {Q : α → Cache → State → Prop}
    {E : Machine.Exit → State → Prop} (hg : Looks size maps J M g) (hrun : Leaves maps J M g Q E)
    (hf : ∀ x J' M', Q x J' M' → Looks size maps J' M' (f x)) :
    Looks size maps J M (g >>= f) := by
  intro _ _ _ heq
  obtain ⟨x, J₁, c₁, c₂, hfirst, hsecond, rfl⟩ := bind_eq_some.mp heq
  refine checked_append (hg hfirst) fun M' hexec => ?_
  rcases hrun hfirst with ⟨M₁, hrun, hQ⟩ | ⟨e, M₁, hexit, -⟩
  · rw [hexec] at hrun
    cases hrun
    exact hf x J₁ M' hQ hsecond
  · rw [hexec] at hexit
    cases hexit

/-- Code that always runs, and looks up nothing. -/
theorem runs_bind {g : T α} {f : α → T β} {Q : α → Cache → State → Prop}
    (hg : Weighs wild g 0) (hrun : Runs maps J M g Q)
    (hf : ∀ x J' M', Q x J' M' → Looks size maps J' M' (f x)) : Looks size maps J M (g >>= f) :=
  .bind (of_wild hg) (.of_runs (E := fun _ _ => False) hrun) hf

theorem bind_wild {g : T α} {f : α → T β} (hg : Looks size maps J M g)
    (hf : ∀ x, Weighs wild (f x) 0) : Looks size maps J M (g >>= f) := by
  intro _ _ _ heq
  obtain ⟨x, J₁, c₁, c₂, hfirst, hsecond, rfl⟩ := bind_eq_some.mp heq
  exact checked_append (hg hfirst) fun M' _ => of_wild (hf x) hsecond

theorem emit_bind {x : Insn} {f : Unit → T β} (hx : InMaps size x M)
    (hf : ∀ M', Machine.step maps x M = .run M' → Looks size maps J M' (f ())) :
    Looks size maps J M (emit x >>= f) := by
  intro _ _ _ heq
  obtain ⟨c, hrest, rfl⟩ := emit_bind_eq_some.mp heq
  exact ⟨hx, fun M' hstep => hf M' hstep hrest⟩

theorem quiet_bind {g : T α} {f : α → T β} {x : α} (hg : g J = some (x, J', []))
    (hf : Looks size maps J' M (f x)) : Looks size maps J M (g >>= f) := by
  intro _ _ _ heq
  rw [bind_of_quiet hg] at heq
  exact hf heq

end Looks

/-! ## The checks of a store -/

theorem checkWordsOf_looks (i : ℕ) {ws : List Word} (h : ∀ w ∈ ws, w.toNat * 8 < size) :
    Looks size maps J M (checkWordsOf i ws) := by
  induction ws generalizing J M with
  | nil => exact .of_wild (.pure ())
  | cons w ws ih =>
      refine .emit_bind (h w List.mem_cons_self) fun M₁ _ => ?_
      obtain ⟨J₁, -, hsnap⟩ := snapPending_eq J
      refine .quiet_bind hsnap (.emit_bind (fun q hq => by cases hq) fun M₂ _ => ?_)
      exact ih fun x hx => h x (List.mem_cons_of_mem w hx)

theorem spannedWords_lt (size : MemSize) (b : Word) :
    ∀ w ∈ spannedWords size b, w.toNat * 8 < size.val := by
  intro w hw
  simp only [spannedWords, List.mem_append] at hw
  rcases hw with hw | hw
  · split_ifs at hw with hbound
    · rw [List.mem_singleton.mp hw]
      omega
    · cases hw
  · split_ifs at hw with hbound
    · rw [List.mem_singleton.mp hw]
      omega
    · cases hw

theorem checkComputed_looks (h : Translator.Ready m P J M) (hr : r ∈ P) (hreg : M.reg r = b)
    (hb : b.toNat + 8 ≤ size) (i : ℕ) : Looks size maps J M (checkComputed i r) := by
  refine .runs_bind (plain scratch_weighs) (scratch_emits h) ?_
  rintro t₁ J₁ M₁ ⟨hkeep₁, hfresh₁⟩
  refine .runs_bind (plain scratch_weighs)
    (scratch_emits (hkeep₁.ready.insert hfresh₁.pinned)) ?_
  rintro t₂ J₂ M₂ ⟨hkeep₂, hfresh₂⟩
  have hreg₂ : M₂.reg r = b :=
    (hkeep₂.reg r (Set.mem_insert_of_mem t₁ hr)).trans ((hkeep₁.reg r hr).trans hreg)
  have hne : t₁ ≠ t₂ := fun heq => hfresh₂.notMem (heq ▸ Set.mem_insert t₁ P)
  have hne₁ : r ≠ t₁ := fun heq => hfresh₁.notMem (heq ▸ hr)
  have hne₂ : r ≠ t₂ := fun heq => hfresh₂.notMem (heq ▸ Set.mem_insert_of_mem t₁ hr)
  refine .emit_bind trivial fun M₃ hmov => ?_
  obtain rfl := Outcome.run.inj hmov
  refine .emit_bind (by decide : 12 < 64) fun M₄ hshr => ?_
  obtain rfl := Outcome.run.inj hshr
  refine .emit_bind ?_ fun M₅ hcmp => ?_
  · simp only [InMaps, State.setFlags, State.set, Function.update_self, hreg₂]
    bv_omega
  obtain rfl := Outcome.run.inj hcmp
  obtain ⟨J₃, -, hsnap⟩ := snapPending_eq J₂
  refine .quiet_bind hsnap (.emit_bind ?_ fun _ _ => .of_wild (.modify_bind _ (.modify _)))
  rintro q hq
  obtain rfl := Option.some.inj hq
  refine ⟨⟨hne, hne₁, hne₂⟩, ?_⟩
  simpa [State.setFlags, State.set, hne₁, hreg₂] using hb

theorem checkTarget_looks {fb : Field} (h : Translator.Ready m P J M) (hc : Current m J M)
    (hp : (p + 8).toNat % 8 = 0) (hf : FieldKnown fb (p + 8) (read m (p + 8)) J M)
    (hfor : fb.dyn = true → fb.cached = .none → ∀ s ∈ P, NotFor J (p + 8) s)
    (hb : src.size.Holds (read m (p + 8))) (i : ℕ) :
    Looks src.size.val maps J M (checkTarget src i p fb) := by
  unfold checkTarget
  cases hdyn : fb.dyn with
  | false =>
      refine .bind_wild (checkWordsOf_looks i fun w hw => ?_) fun _ => .pure _
      exact spannedWords_lt src.size fb.value w (List.mem_of_mem_filter hw)
  | true =>
      refine .runs_bind (plain (fieldReg_weighs _ fb))
        (fieldReg_emits h hc hp hf hdyn (hfor hdyn)) ?_
      rintro r J₁ M₁ ⟨hkeep, hreg, hpin, -⟩
      exact .bind_wild (checkComputed_looks (hkeep.ready.insert hpin) (Set.mem_insert r P) hreg
        hb i) fun _ => .pure _

theorem prepare_looks (h : Sound m J M) (hc : Current m J M) (hp : p.toNat % 8 = 0)
    (hbaked : Baked src m p) (hb : src.size.Holds (read m (p + 8))) (i : ℕ) :
    Looks src.size.val maps J M (prepare src i p) := by
  obtain ⟨J₁, hsame, hpend, hlive₁, hpin, heq⟩ := fields_eq src p J
  have hp₈ : (p + 8).toNat % 8 = 0 := by bv_omega
  have hs₁ := hsame.sound hpend h
  have hheld : held m J₁ = held m J := by simp only [held, hpend]
  have hc₁ : Current m J₁ M := by rwa [Current, hheld]
  have hready : Translator.Ready m (fieldRegs src J p) J₁ M := ⟨hs₁, hpin⟩
  have hknown := @fieldOf_known _ _ _ (p + 8) src hs₁ (hbaked (p + 8) (by simp))
  rw [fieldOf_sameEntries hsame] at hknown
  have hf := hknown fun s hs => hpin s (Or.inr (Or.inl hs))
  have hrest : Looks src.size.val maps J₁ M (do
      let rb ← checkTarget src i p (fieldOf src J (p + 8))
      let q ← result p (fieldOf src J p) (fieldOf src J (p + 8)) (fieldOf src J (p + 16)) rb
      return (fieldOf src J (p + 8), fieldOf src J (p + 16), rb, q)) := by
    refine .bind_wild (checkTarget_looks hready hc₁ hp₈ hf ?_ hb i) fun rb => ?_
    · intro hdyn hcached s _
      refine notFor_of_lookup hs₁ ?_
      rw [hsame.lookup, lookup_of_fieldOf hdyn, hcached]
    · exact .quiet_bind (result_wild _ _ _ _ rb) fun _ => .pure _
  intro x J' c hx
  rw [prepare, heq] at hx
  exact hrest hx

theorem translateInsn_looks (h : Sound m J M) (hc : Current m J M) (hp : p.toNat % 8 = 0)
    (hbaked : Baked src m p) (hb : src.size.Holds (read m (p + 8))) (i : ℕ) :
    Looks src.size.val maps J M (translateInsn src i p) := by
  rw [translateInsn_eq]
  exact .bind_wild (prepare_looks h hc hp hbaked hb i) fun w => finish_wild i p _ _ _ _

/-! ## Blocks -/

theorem translateInsns_looks (hfault : NoFault src.size start n m₀)
    (h : AtBoundary src start J₀ m₀ i J M)
    (he : Entered src maps start n (straight m₀ start i)) (hk : i + k ≤ n) :
    Looks src.size.val maps J M (translateInsns src start i k) := by
  induction k generalizing i J M with
  | zero => exact .of_wild (.pure _)
  | succ k ih =>
      have hi : i < n := by omega
      have hstep := interpStep_eq_some (hfault i hi _ h.path)
      have hp : (insnAt start i).toNat % 8 = 0 := by
        have haligned := he.aligned
        have haddr := he.toNat_insnAt hi
        omega
      refine .bind (translateInsn_looks h.sound h.current hp (he.baked i hi) hstep.1 i)
        (h.step he hi hfault) ?_
      rintro _ J₁ M₁ ⟨rfl, h₁, he₁⟩
      exact ih h₁ he₁ (by omega)

/-- A block looks up words of Dawn's memory only. -/
theorem translateBody_looks {u : Bool} {l c a : BitVec 32}
    (he : Entered src maps start n M₀.init) (hfault : NoFault src.size start n M₀.init)
    (hstores : M₀.stores = []) :
    Looks src.size.val maps (Cache.start u l c a) M₀ (translateBody src start n) := by
  have hstart := @atBoundary_start _ start src u l c a hstores
  refine .bind_wild (translateInsns_looks hfault hstart he (by omega)) ?_
  rintro ⟨k, ended⟩
  refine .quiet_bind (.onlyIf _ ?_) fun _ => .pure _
  exact .quiet_bind (plain snapPending_weighs) fun pend => .emit _ (Nat.le_refl 0)

end BlockCode
end SubleqEmu
