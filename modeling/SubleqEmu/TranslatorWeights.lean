import SubleqEmu.EmittedWeight
import SubleqEmu.TranslatorModel

/-!
# How much the translator emits

A bound on the instructions that each function of the translator emits, by kinds, on
every path: with every spill, and every store held back that it has to flush.
-/

namespace SubleqEmu
namespace Translator

open ByteMemory Subleq Emitter Machine

/-- What an instruction counts for: those with an immediate or an operand in memory, those
on registers alone, shifts, tests, the jumps of checks and the branches. -/
structure Weights where
  heavy : ℕ
  light : ℕ
  shift : ℕ
  test : ℕ
  check : ℕ
  branch : ℕ

def Weights.of (W : Weights) : Insn → ℕ
  | .movImm .. => W.heavy
  | .andImm .. => W.heavy
  | .load .. => W.heavy
  | .movbeLoad .. => W.heavy
  | .store .. => W.heavy
  | .movbeStore .. => W.heavy
  | .storeImm .. => W.heavy
  | .shl .. => W.shift
  | .shr .. => W.shift
  | .testBitmap .. => W.test
  | .cmpPage .. => W.test
  | .jnz .. => W.check
  | .jle .. => W.branch
  | .jmp .. => W.branch
  | _ => W.light

variable {W : Weights} {fl : T Unit} {k n : ℕ} {α : Type}

/-! ## The register cache -/

theorem touchVal_weighs (v : CVal) : Weighs W.of (touchVal v) 0 := by
  cases v <;> first | exact .pure () | exact .modify _

theorem cacheFind_weighs (a : Word) : Weighs W.of (cacheFind a) 0 := by
  apply Weighs.get_bind
  intro J
  exact .quiet_bind (touchVal_weighs _) fun _ => .pure _

theorem pinVal_weighs (v : CVal) : Weighs W.of (pinVal v) 0 := by
  cases v <;> first | exact .pure () | exact .modify _

theorem flushHeld_weighs (hfl : Weighs W.of fl k) (r : Reg) :
    Weighs W.of (flushHeld fl r) k := by
  apply Weighs.get_bind
  intro J
  cases J.pend with
  | none => exact .pure ()
  | some a => exact .quiet_bind (cacheFind_weighs a) fun v => .onlyIf _ hfl

theorem release_weighs (hfl : Weighs W.of fl k) (r : Reg) : Weighs W.of (release fl r) k :=
  .bind (flushHeld_weighs hfl r) (Nat.le_refl k) fun _ => .modify _

theorem scratchWith_weighs (hfl : Weighs W.of fl k) : Weighs W.of (scratchWith fl) k := by
  apply Weighs.get_bind
  intro J
  cases J.pick none (List.finRange 11) with
  | none => exact .fail
  | some r =>
      apply Weighs.modify_bind
      exact .bind (release_weighs hfl r) (Nat.le_refl k) fun _ => .pure r

theorem negate_weighs (r : Reg) : Weighs W.of (negate r) (2 * W.light) := by
  apply Weighs.get_bind
  intro J
  split_ifs
  · exact .emit _ (show W.light ≤ _ by omega)
  · refine .emit_bind W.light (by exact Nat.le_refl _) (by omega) ?_
    exact .emit _ (show W.light ≤ _ by omega)

/-- A constant in a new register. -/
theorem constReg_weighs (hfl : Weighs W.of fl k) (c : Word) :
    Weighs W.of (do
      let t ← scratchWith fl
      emit (.movImm t c)
      return t) (k + W.heavy) := by
  refine .bind (scratchWith_weighs hfl) (by omega) fun t => ?_
  exact .emit_bind W.heavy (by exact Nat.le_refl _) (by omega) (.pure t)

theorem toRegWith_weighs (hfl : Weighs W.of fl k) (v : CVal) :
    Weighs W.of (toRegWith fl v) (k + W.heavy + 3 * W.light) := by
  cases v with
  | reg r => exact .pure r
  | neg r =>
      apply Weighs.modify_bind
      refine .bind (scratchWith_weighs hfl) (by omega) fun t => ?_
      refine .emit_bind W.light (by exact Nat.le_refl _) (by omega) ?_
      exact .bind (negate_weighs t) (by omega) fun _ => .pure t
  | const v => exact (constReg_weighs hfl v).mono (by omega)
  | none => exact (constReg_weighs hfl 0).mono (by omega)

/-! ## Stores -/

theorem targetOperand_weighs (hfl : Weighs W.of fl k) (target : Target) :
    Weighs W.of (targetOperand fl target) (k + W.heavy) := by
  cases target with
  | static a =>
      rw [targetOperand]
      split_ifs
      · exact .pure _
      · refine .bind (scratchWith_weighs hfl) (by omega) fun base => ?_
        exact .emit_bind W.heavy (by exact Nat.le_refl _) (by omega) (.pure _)
  | dynamic base => exact .pure _

theorem storeRegWith_weighs (hfl : Weighs W.of fl k) (r : Reg) (target : Target) :
    Weighs W.of (storeRegWith fl r target) (2 * k + 2 * W.heavy + 2 * W.light) := by
  refine .bind (targetOperand_weighs hfl target) (by omega) fun op => ?_
  apply Weighs.get_bind
  intro J
  split_ifs
  · exact .emit _ (show W.heavy ≤ _ by omega)
  · refine .bind (scratchWith_weighs hfl) (by omega) fun t => ?_
    refine .emit_bind W.light (by exact Nat.le_refl _) (by omega) ?_
    refine .emit_bind W.light (by exact Nat.le_refl _) (by omega) ?_
    exact .emit _ (show W.heavy ≤ _ by omega)

theorem storeConstWith_weighs (hfl : Weighs W.of fl k) (v : Word) (target : Target) :
    Weighs W.of (storeConstWith fl v target) (2 * k + 3 * W.heavy) := by
  have hlong : Weighs W.of (do
      let t ← scratchWith fl
      emit (.movImm t (bswap v))
      let op ← targetOperand fl target
      emit (.store t op.1 op.2)) (2 * k + 3 * W.heavy) := by
    refine .bind (scratchWith_weighs hfl) (by omega) fun t => ?_
    refine .emit_bind W.heavy (by exact Nat.le_refl _) (by omega) ?_
    refine .bind (targetOperand_weighs hfl target) (by omega) fun op => ?_
    exact .emit _ (show W.heavy ≤ _ by omega)
  unfold storeConstWith
  split
  · exact .emit _ (show W.heavy ≤ _ by omega)
  · exact hlong

theorem storeHeld_weighs (a : Word) (v : CVal) :
    Weighs W.of (storeHeld a v) (3 * W.heavy + 5 * W.light) := by
  have hnone : Weighs W.of (pure () : T Unit) 0 := .pure ()
  cases v with
  | const c => exact (storeConstWith_weighs hnone c (.static a)).mono (by omega)
  | reg r =>
      apply Weighs.get_bind
      intro J
      apply Weighs.modify_bind
      exact .bind (storeRegWith_weighs hnone r _) (by omega) fun _ => .modify _
  | neg r =>
      apply Weighs.get_bind
      intro J
      apply Weighs.modify_bind
      refine .bind (toRegWith_weighs hnone _) (by omega) fun t => ?_
      refine .bind (storeRegWith_weighs hnone t _) (by omega) fun _ => ?_
      exact .modify_bind _ (.modify _)
  | none => exact .fail

theorem flushPending_weighs : Weighs W.of flushPending (3 * W.heavy + 5 * W.light) := by
  apply Weighs.get_bind
  intro J
  cases J.pend with
  | none => exact .pure ()
  | some a =>
      apply Weighs.modify_bind
      exact .quiet_bind (cacheFind_weighs a) fun v => storeHeld_weighs a v

theorem scratch_weighs : Weighs W.of scratch (3 * W.heavy + 5 * W.light) :=
  scratchWith_weighs flushPending_weighs

theorem toReg_weighs (v : CVal) : Weighs W.of (toReg v) (4 * W.heavy + 8 * W.light) :=
  (toRegWith_weighs flushPending_weighs v).mono (by omega)

theorem storeReg_weighs (r : Reg) (target : Target) :
    Weighs W.of (storeReg r target) (8 * W.heavy + 12 * W.light) :=
  (storeRegWith_weighs flushPending_weighs r target).mono (by omega)

theorem storeConst_weighs (v : Word) (target : Target) :
    Weighs W.of (storeConst v target) (9 * W.heavy + 10 * W.light) :=
  (storeConstWith_weighs flushPending_weighs v target).mono (by omega)

theorem setAlias_weighs (a : Word) (r : Reg) (neg : Bool) :
    Weighs W.of (setAlias a r neg) (3 * W.heavy + 5 * W.light) := by
  apply Weighs.modify_bind
  apply Weighs.get_bind
  intro J
  split_ifs
  · exact .pure ()
  · split
    · exact .modify _
    · apply Weighs.modify_bind
      exact .bind (.onlyIf _ flushPending_weighs) (Nat.le_refl _) fun _ => .modify _

theorem snapPending_weighs : Weighs W.of snapPending 0 := by
  apply Weighs.get_bind
  intro J
  cases J.pend with
  | none => exact .pure _
  | some a => exact .quiet_bind (cacheFind_weighs a) fun v => .pure _

/-! ## Operands -/

theorem loadMem_weighs (r : Reg) (base : Base) (disp : BitVec 32) :
    Weighs W.of (loadMem r base disp) (W.heavy + W.light) := by
  apply Weighs.get_bind
  intro J
  split_ifs
  · exact .emit _ (show W.heavy ≤ _ by omega)
  · refine .emit_bind W.heavy (by exact Nat.le_refl _) (by omega) ?_
    exact .emit _ (show W.light ≤ _ by omega)

theorem loadStatic_weighs (r : Reg) (a : Word) :
    Weighs W.of (loadStatic r a) (2 * W.heavy + W.light) := by
  unfold loadStatic
  split_ifs
  · exact (loadMem_weighs r _ _).mono (by omega)
  · refine .emit_bind W.heavy (by exact Nat.le_refl _) (by omega) ?_
    exact (loadMem_weighs r _ _).mono (by omega)

theorem andImm64_weighs (r : Reg) (mask : Word) :
    Weighs W.of (andImm64 r mask) (4 * W.heavy + 6 * W.light) := by
  unfold andImm64
  split_ifs
  · exact .emit _ (show W.heavy ≤ _ by omega)
  · exact .emit _ (show W.light ≤ _ by omega)
  · refine .bind scratch_weighs (by omega) fun t => ?_
    refine .emit_bind W.heavy (by exact Nat.le_refl _) (by omega) ?_
    refine .emit_bind W.light (by exact Nat.le_refl _) (by omega) ?_
    exact .modify _

theorem unpinNew_weighs (v : CVal) (t : Reg) : Weighs W.of (unpinNew v t) 0 := by
  cases v <;> first | exact .pure () | exact .modify _

theorem orVal_weighs (r : Reg) (v : CVal) :
    Weighs W.of (orVal r v) (4 * W.heavy + 9 * W.light) := by
  unfold orVal
  split_ifs
  · exact .pure ()
  · refine .bind (toReg_weighs v) (by omega) fun t => ?_
    refine .emit_bind W.light (by exact Nat.le_refl _) (by omega) ?_
    exact (unpinNew_weighs v t).mono (Nat.zero_le _)

theorem shiftInsn_weight (left : Bool) (r : Reg) (n : ℕ) :
    W.of (shiftInsn left r n) = W.shift := by
  cases left <;> rfl

theorem shifted_weighs (v : CVal) (left : Bool) (n : ℕ) :
    Weighs W.of (shifted v left n) (7 * W.heavy + 14 * W.light + W.shift) := by
  have hnew : ∀ v, Weighs W.of (do
      let s ← toReg v
      let r ← scratch
      emit (.mov r s)
      emit (shiftInsn left r n)
      return CVal.reg r) (7 * W.heavy + 14 * W.light + W.shift) := by
    intro v
    refine .bind (toReg_weighs v) (by omega) fun s => ?_
    refine .bind scratch_weighs (by omega) fun r => ?_
    refine .emit_bind W.light (by exact Nat.le_refl _) (by omega) ?_
    exact .emit_bind W.shift (shiftInsn_weight left r n).le (by omega) (.pure _)
  cases v with
  | const c => exact .pure _
  | none => exact hnew _
  | reg r => exact hnew _
  | neg r => exact hnew _

theorem loadWord_weighs (a : Word) :
    Weighs W.of (loadWord a) (8 * W.heavy + 11 * W.light) := by
  apply Weighs.get_bind
  intro J
  refine .bind (.onlyIf _ flushPending_weighs) (by omega) fun _ => ?_
  refine .bind scratch_weighs (by omega) fun r => ?_
  refine .bind (loadStatic_weighs r a) (by omega) fun _ => ?_
  exact .modify_bind _ (.pure _)

theorem getWord_weighs (a : Word) :
    Weighs W.of (getWord a) (8 * W.heavy + 11 * W.light) := by
  refine .quiet_bind (cacheFind_weighs a) fun v => ?_
  refine .quiet_bind (pinVal_weighs v) fun _ => ?_
  split_ifs
  · exact .pure v
  · exact loadWord_weighs a

theorem putTogether_weighs (lo hi : CVal) (k : ℕ) :
    Weighs W.of (putTogether lo hi k) (18 * W.heavy + 37 * W.light + 2 * W.shift) := by
  refine .bind (shifted_weighs lo true k) (by omega) fun v => ?_
  refine .bind (shifted_weighs hi false _) (by omega) fun h => ?_
  cases v with
  | const x =>
      cases h with
      | const y => exact .pure _
      | reg r => exact .bind (orVal_weighs r _) (by omega) fun _ => .pure _
      | none => exact .fail
      | neg r => exact .fail
  | reg r => exact .bind (orVal_weighs r h) (by omega) fun _ => .pure _
  | none => exact .fail
  | neg r => exact .fail

theorem getIfMissing_weighs (v : CVal) (a : Word) :
    Weighs W.of (getIfMissing v a) (8 * W.heavy + 11 * W.light) := by
  unfold getIfMissing
  split_ifs
  · exact getWord_weighs a
  · exact .pure v

theorem getSpanned_weighs (a lo : Word) :
    Weighs W.of (getSpanned a lo) (34 * W.heavy + 59 * W.light + 2 * W.shift) := by
  refine .quiet_bind (cacheFind_weighs lo) fun v => ?_
  refine .quiet_bind (cacheFind_weighs (lo + 8)) fun h => ?_
  split_ifs
  · refine .quiet_bind (pinVal_weighs v) fun _ => ?_
    refine .quiet_bind (pinVal_weighs h) fun _ => ?_
    refine .bind (getIfMissing_weighs v lo) (by omega) fun v => ?_
    refine .bind (getIfMissing_weighs h (lo + 8)) (by omega) fun h => ?_
    exact (putTogether_weighs v h _).mono (by omega)
  · exact (getWord_weighs a).mono (by omega)

theorem getStatic_weighs (a : Word) :
    Weighs W.of (getStatic a) (34 * W.heavy + 59 * W.light + 2 * W.shift) := by
  unfold getStatic
  split_ifs
  · exact getSpanned_weighs a _
  · exact (getWord_weighs a).mono (by omega)

theorem maskedOr_weighs (w : CVal) (keep : Word) (part : CVal) :
    Weighs W.of (maskedOr w keep part) (15 * W.heavy + 29 * W.light) := by
  have hmask : ∀ w, Weighs W.of (do
      let s ← toReg w
      let r ← scratch
      emit (.mov r s)
      andImm64 r keep
      orVal r part
      return CVal.reg r) (15 * W.heavy + 29 * W.light) := by
    intro w
    refine .bind (toReg_weighs w) (by omega) fun s => ?_
    refine .bind scratch_weighs (by omega) fun r => ?_
    refine .emit_bind W.light (by exact Nat.le_refl _) (by omega) ?_
    refine .bind (andImm64_weighs r keep) (by omega) fun _ => ?_
    exact .bind (orVal_weighs r part) (by omega) fun _ => .pure _
  cases w with
  | const c =>
      have hnew : ∀ part : CVal, Weighs W.of
          (if c &&& keep = 0 then pure part
          else do
            let r ← scratch
            emit (.movImm r (c &&& keep))
            orVal r part
            return CVal.reg r) (15 * W.heavy + 29 * W.light) := by
        intro part
        split_ifs
        · exact .pure _
        · refine .bind scratch_weighs (by omega) fun r => ?_
          refine .emit_bind W.heavy (by exact Nat.le_refl _) (by omega) ?_
          exact .bind (orVal_weighs r part) (by omega) fun _ => .pure _
      cases part with
      | const x => exact .pure _
      | none => exact hnew _
      | reg r => exact hnew _
      | neg r => exact hnew _
  | none => exact hmask _
  | reg r => exact hmask _
  | neg r => exact hmask _

theorem rebind_weighs (a : Word) (v : CVal) : Weighs W.of (rebind a v) 0 := by
  cases v <;> first | exact .modify _ | exact .fail

theorem updateWord_weighs (w : Word) (old : CVal) (keep : Word) (v : CVal) (left : Bool)
    (n : ℕ) :
    Weighs W.of (updateWord w old keep v left n) (22 * W.heavy + 43 * W.light + W.shift) := by
  apply Weighs.onlyIf
  refine .bind (shifted_weighs v left n) (by omega) fun part => ?_
  refine .bind (maskedOr_weighs old keep part) (by omega) fun new => ?_
  exact (rebind_weighs w new).mono (Nat.zero_le _)

theorem updateSpanned_weighs (a : Word) (v : CVal) :
    Weighs W.of (updateSpanned a v) (44 * W.heavy + 86 * W.light + 2 * W.shift) := by
  apply Weighs.modify_bind
  refine .quiet_bind (pinVal_weighs v) fun _ => ?_
  refine .quiet_bind (cacheFind_weighs _) fun lv => ?_
  refine .quiet_bind (cacheFind_weighs _) fun hv => ?_
  refine .quiet_bind (pinVal_weighs lv) fun _ => ?_
  refine .quiet_bind (pinVal_weighs hv) fun _ => ?_
  refine .bind (updateWord_weighs _ lv _ v _ _) (by omega) fun _ => ?_
  exact (updateWord_weighs _ hv _ v _ _).mono (by omega)

/-! ## Fields and checks -/

theorem field_weighs (src : Source) (p : Word) : Weighs W.of (field src p) 0 := by
  unfold field
  split_ifs
  · refine .quiet_bind (cacheFind_weighs p) fun v => ?_
    cases v with
    | const c => exact .pure _
    | none => exact .quiet_bind (pinVal_weighs _) fun _ => .pure _
    | reg r => exact .quiet_bind (pinVal_weighs _) fun _ => .pure _
    | neg r => exact .quiet_bind (pinVal_weighs _) fun _ => .pure _
  · exact .pure _

theorem fieldReg_weighs (p : Word) (f : Field) :
    Weighs W.of (fieldReg p f) (5 * W.heavy + 8 * W.light) := by
  unfold fieldReg
  split
  · refine .bind scratch_weighs (by omega) fun r => ?_
    refine .bind (loadStatic_weighs r p) (by omega) fun _ => ?_
    exact .modify_bind _ (.pure _)
  · exact (toReg_weighs _).mono (by omega)

theorem checkWordsOf_weighs (i : ℕ) (ws : List Word) :
    Weighs W.of (checkWordsOf i ws) (ws.length * (W.test + W.check)) := by
  induction ws with
  | nil => exact .pure ()
  | cons w ws ih =>
      rw [List.length_cons, Nat.succ_mul]
      refine .emit_bind W.test (by exact Nat.le_refl _) (by omega) ?_
      refine .quiet_bind snapPending_weighs fun pend => ?_
      refine .emit_bind W.check (by exact Nat.le_refl _) (by omega) ?_
      exact ih.mono (by omega)

theorem checkComputed_weighs (i : ℕ) (rb : Reg) :
    Weighs W.of (checkComputed i rb)
      (6 * W.heavy + 11 * W.light + W.shift + W.test + W.check) := by
  refine .bind scratch_weighs (by omega) fun t1 => ?_
  refine .bind scratch_weighs (by omega) fun t2 => ?_
  refine .emit_bind W.light (by exact Nat.le_refl _) (by omega) ?_
  refine .emit_bind W.shift (by exact Nat.le_refl _) (by omega) ?_
  refine .emit_bind W.test (by exact Nat.le_refl _) (by omega) ?_
  refine .quiet_bind snapPending_weighs fun pend => ?_
  refine .emit_bind W.check (by exact Nat.le_refl _) (by omega) ?_
  exact .modify_bind _ (.modify _)

theorem length_spannedWords_le (size : MemSize) (b : Word) :
    (spannedWords size b).length ≤ 2 := by
  simp only [spannedWords]
  split_ifs <;> simp

theorem checkTarget_weighs (src : Source) (i : ℕ) (p : Word) (fb : Field) :
    Weighs W.of (checkTarget src i p fb)
      (11 * W.heavy + 19 * W.light + W.shift + 2 * W.test + 2 * W.check) := by
  unfold checkTarget
  split_ifs
  · have hlength : ((spannedWords src.size fb.value).filter (· ∉ src.hoist)).length ≤ 2 :=
      (List.length_filter_le _ _).trans (length_spannedWords_le _ _)
    have hle := Nat.mul_le_mul_right (W.test + W.check) hlength
    refine .bind (checkWordsOf_weighs i _) (by omega) fun _ => .pure _
  · refine .bind (fieldReg_weighs _ fb) (by omega) fun rb => ?_
    exact .bind (checkComputed_weighs i rb) (by omega) fun _ => .pure _

theorem loadThrough_weighs (base : Reg) :
    Weighs W.of (loadThrough base) (7 * W.heavy + 11 * W.light) := by
  refine .bind flushPending_weighs (by omega) fun _ => ?_
  refine .bind scratch_weighs (by omega) fun r => ?_
  exact .bind (loadMem_weighs r _ _) (by omega) fun _ => .pure _

theorem operandA_weighs (p : Word) (fa : Field) :
    Weighs W.of (operandA p fa) (34 * W.heavy + 59 * W.light + 2 * W.shift) := by
  unfold operandA
  split_ifs
  · exact getStatic_weighs _
  · refine .bind (fieldReg_weighs p fa) (by omega) fun ra => ?_
    exact (loadThrough_weighs ra).mono (by omega)

theorem operandB_weighs (fb : Field) (rb : Option Reg) :
    Weighs W.of (operandB fb rb) (34 * W.heavy + 59 * W.light + 2 * W.shift) := by
  cases rb with
  | none => exact getStatic_weighs _
  | some rb => exact (loadThrough_weighs rb).mono (by omega)

theorem readC_weighs (p : Word) (fc : Field) :
    Weighs W.of (readC p fc) (5 * W.heavy + 8 * W.light) := by
  unfold readC
  split_ifs
  · split
    · refine .bind scratch_weighs (by omega) fun r => ?_
      exact .bind (loadStatic_weighs r _) (by omega) fun _ => .pure _
    · exact .bind (toReg_weighs _) (by omega) fun _ => .pure _
  · exact .pure _

/-! ## The subtraction -/

theorem copyReg_weighs (v : CVal) : Weighs W.of (copyReg v) (4 * W.heavy + 6 * W.light) := by
  refine .bind scratch_weighs (by omega) fun r => ?_
  cases v with
  | const c => exact .emit_bind W.heavy (by exact Nat.le_refl _) (by omega) (.pure r)
  | reg s => exact .emit_bind W.light (by exact Nat.le_refl _) (by omega) (.pure r)
  | none => exact .fail
  | neg s => exact .fail

theorem resultReg_weighs (ok : Option Word → Bool) (vb : CVal) :
    Weighs W.of (resultReg ok vb) (4 * W.heavy + 8 * W.light) := by
  apply Weighs.get_bind
  intro J
  split
  · exact .pure _
  · split
    · exact toReg_weighs _
    · exact (copyReg_weighs _).mono (by omega)

theorem addition_weighs (dynb : Bool) (fb : Word) (ra : Reg) (vb : CVal) :
    Weighs W.of (addition dynb fb ra vb) (4 * W.heavy + 9 * W.light) := by
  refine .bind (resultReg_weighs _ vb) (by omega) fun rr => ?_
  exact .emit_bind W.light (by exact Nat.le_refl _) (by omega) (.pure rr)

theorem ownReg_weighs (v : CVal) : Weighs W.of (ownReg v) (4 * W.heavy + 8 * W.light) := by
  unfold ownReg
  split
  · exact (copyReg_weighs _).mono (by omega)
  · exact toReg_weighs _

theorem negation_weighs (va : CVal) : Weighs W.of (negation va) (4 * W.heavy + 9 * W.light) := by
  refine .bind (ownReg_weighs va) (by omega) fun rr => ?_
  exact .emit_bind W.light (by exact Nat.le_refl _) (by omega) (.pure rr)

theorem subtraction_weighs (dynb : Bool) (fb : Word) (va vb : CVal) :
    Weighs W.of (subtraction dynb fb va vb) (8 * W.heavy + 17 * W.light) := by
  refine .bind (resultReg_weighs _ vb) (by omega) fun rr => ?_
  refine .bind (toReg_weighs va) (by omega) fun ra => ?_
  exact .emit_bind W.light (by exact Nat.le_refl _) (by omega) (.pure rr)

theorem subtract_weighs (dynb : Bool) (fb : Word) (va vb : CVal) :
    Weighs W.of (subtract dynb fb va vb) (8 * W.heavy + 17 * W.light) := by
  have hpin : ∀ rr, Weighs W.of (pinResult rr) 0 := fun rr => .modify_bind _ (.pure _)
  unfold subtract
  split_ifs
  · exact .bind (negation_weighs va) (by omega) fun rr => (hpin rr).mono (Nat.zero_le _)
  · exact .bind (subtraction_weighs dynb fb va vb) (by omega) fun rr =>
      (hpin rr).mono (Nat.zero_le _)

theorem testOnly_weighs (branch : Bool) (vb : CVal) :
    Weighs W.of (testOnly branch vb) (4 * W.heavy + 9 * W.light) := by
  apply Weighs.onlyIf
  refine .bind (toReg_weighs vb) (by omega) fun t => ?_
  exact .emit _ (show W.light ≤ _ by omega)

theorem compute_weighs (dynb : Bool) (fb : Word) (branch : Bool) (va vb : CVal) :
    Weighs W.of (compute dynb fb branch va vb) (8 * W.heavy + 17 * W.light) := by
  have hsubtract := fun va vb => @subtract_weighs W dynb fb va vb
  have hpin : ∀ rr, Weighs W.of (pinResult rr) 0 := fun rr => .modify_bind _ (.pure _)
  unfold compute
  split
  · split
    · exact .pure _
    · split_ifs
      · exact .bind (testOnly_weighs branch _) (by omega) fun _ => .pure _
      · exact hsubtract _ _
  · split_ifs
    · exact .pure _
    · exact hsubtract _ _
  · split_ifs
    · exact hsubtract _ _
    · split
      · exact hsubtract _ _
      · split_ifs
        · exact .pure _
        · exact .bind (addition_weighs dynb fb _ _) (by omega) fun rr =>
            (hpin rr).mono (Nat.zero_le _)
  · exact .fail

/-! ## The store and the branch -/

theorem storeNow_weighs (fb : Word) (rb : Option Reg) (v : CVal) :
    Weighs W.of (storeNow fb rb v) (15 * W.heavy + 25 * W.light) := by
  refine .bind flushPending_weighs (by omega) fun _ => ?_
  have hreg : ∀ v target, Weighs W.of (do
      let r ← toReg v
      storeReg r target
      return CVal.reg r) (12 * W.heavy + 20 * W.light) := by
    intro v target
    refine .bind (toReg_weighs v) (by omega) fun r => ?_
    exact .bind (storeReg_weighs r target) (by omega) fun _ => .pure _
  cases v with
  | const c => exact .bind (storeConst_weighs c _) (by omega) fun _ => .pure _
  | none => exact (hreg _ _).mono (by omega)
  | reg r => exact (hreg _ _).mono (by omega)
  | neg r => exact (hreg _ _).mono (by omega)

theorem cacheResult_weighs (fb : Word) (v : CVal) :
    Weighs W.of (cacheResult fb v) (3 * W.heavy + 5 * W.light) := by
  cases v with
  | const c => exact .modify _
  | neg r => exact setAlias_weighs fb r true
  | reg r =>
      apply Weighs.get_bind
      intro J
      split_ifs
      · exact .modify _
      · exact setAlias_weighs fb r false
  | none => exact .fail

theorem storeHeldBack_weighs (fb : Word) (res : Result) :
    Weighs W.of (storeHeldBack fb res) (6 * W.heavy + 10 * W.light) := by
  apply Weighs.get_bind
  intro J
  refine .bind (.onlyIf _ flushPending_weighs) (by omega) fun _ => ?_
  refine .bind (cacheResult_weighs fb res.value) (by omega) fun _ => ?_
  exact .onlyIf _ (.modify _)

theorem storeComputed_weighs (rb : Reg) (res : Result) :
    Weighs W.of (storeComputed rb res) (15 * W.heavy + 25 * W.light) := by
  apply Weighs.onlyIf
  exact .bind (storeNow_weighs 0 (some rb) res.value) (Nat.le_refl _) fun _ => .modify _

theorem storeUncached_weighs (fb : Word) (res : Result) :
    Weighs W.of (storeUncached fb res) (15 * W.heavy + 25 * W.light) := by
  unfold storeUncached
  split_ifs
  · exact .pure _
  · exact .bind (storeNow_weighs fb none res.value) (Nat.le_refl _) fun v => .pure _
  · exact .bind (storeNow_weighs fb none res.value) (Nat.le_refl _) fun v =>
      .modify_bind _ (.pure _)

theorem storeResult_weighs (fb : Word) (rb : Option Reg) (res : Result) :
    Weighs W.of (storeResult fb rb res) (15 * W.heavy + 25 * W.light) := by
  cases rb with
  | some rb => exact .bind (storeComputed_weighs rb res) (Nat.le_refl _) fun _ => .pure _
  | none =>
      unfold storeResult
      split_ifs
      · exact .bind (storeHeldBack_weighs fb res) (by omega) fun _ => .pure _
      · exact storeUncached_weighs fb res

theorem branchTo_weighs (i : ℕ) (p : Word) (fc : Field) (rc : Option Reg) (taken : Option Bool) :
    Weighs W.of (branchTo i p fc rc taken) W.branch := by
  unfold branchTo
  split_ifs
  · refine .quiet_bind snapPending_weighs fun pend => ?_
    exact .emit_bind W.branch (by exact Nat.le_refl _) (Nat.le_refl _) (.pure _)
  · refine .quiet_bind snapPending_weighs fun pend => ?_
    exact .emit_bind W.branch (by exact Nat.le_refl _) (Nat.le_refl _) (.pure _)
  · exact .pure _

/-! ## The instruction -/

theorem flushBefore_weighs (fb : Word) (pendable : Bool) (va vb : CVal) :
    Weighs W.of (flushBefore fb pendable va vb) (3 * W.heavy + 5 * W.light) := by
  apply Weighs.get_bind
  intro J
  exact .onlyIf _ flushPending_weighs

theorem result_weighs (p : Word) (fa fb fc : Field) (rb : Option Reg) :
    Weighs W.of (result p fa fb fc rb) (84 * W.heavy + 148 * W.light + 4 * W.shift) := by
  unfold result
  split_ifs
  · exact .bind (readC_weighs p fc) (by omega) fun rc => .pure _
  · refine .bind (operandA_weighs p fa) (by omega) fun va => ?_
    refine .bind (operandB_weighs fb rb) (by omega) fun vb => ?_
    refine .bind (readC_weighs p fc) (by omega) fun rc => ?_
    refine .bind (flushBefore_weighs _ _ va vb) (by omega) fun _ => ?_
    exact .bind (compute_weighs _ _ _ va vb) (by omega) fun res => .pure _

theorem updateAfter_weighs (fb : Word) (ended : Bool) (v : Option CVal) :
    Weighs W.of (updateAfter fb ended v) (44 * W.heavy + 86 * W.light + 2 * W.shift) := by
  cases v with
  | none => exact .pure ()
  | some v => exact .onlyIf _ (updateSpanned_weighs fb v)

theorem translateInsn_weighs (src : Source) (i : ℕ) (p : Word) :
    Weighs W.of (translateInsn src i p)
      (154 * W.heavy + 278 * W.light + 7 * W.shift + 2 * W.test + 2 * W.check + W.branch) := by
  apply Weighs.modify_bind
  refine .quiet_bind (field_weighs src p) fun fa => ?_
  refine .quiet_bind (field_weighs src (p + 8)) fun fb => ?_
  refine .quiet_bind (field_weighs src (p + 16)) fun fc => ?_
  refine .bind (checkTarget_weighs src i p fb) (by omega) fun rb => ?_
  refine .bind (result_weighs p fa fb fc rb) (by omega) fun r => ?_
  apply Weighs.modify_bind
  refine .bind (storeResult_weighs fb.value rb r.1) (by omega) fun spanned => ?_
  apply Weighs.modify_bind
  refine .bind (branchTo_weighs i p fc r.2 r.1.taken) (by omega) fun ended => ?_
  exact .bind (updateAfter_weighs fb.value ended spanned) (by omega) fun _ => .pure _

end Translator
end SubleqEmu
