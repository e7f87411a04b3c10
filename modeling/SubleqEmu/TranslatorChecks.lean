import Mathlib.Data.Fintype.Option
import SubleqEmu.TranslatorFields

/-!
# Stubs and checks

What a stub does with the store held back, and the checks of a store against translated
code, which leave before the instruction.
-/

namespace SubleqEmu
namespace Translator

open ByteMemory Subleq Emitter Machine

variable {maps : Maps} {m : Memory} {P P' : Set Reg} {J J' : Cache} {M M' M₁ : State}
  {a b f p : Word} {r s t : Reg} {v : CVal} {w x y z : Word} {size : MemSize} {i : ℕ}
  {src : Source} {fb : Field} {α β : Type}

/-! ## Marks -/

/-- `mark_static` -/
def mark (maps : Maps) (w : Word) : Maps where
  qword := Function.update maps.qword (w >>> 6)
    (maps.qword (w >>> 6) ||| 1#64 <<< (w.toNat % 64))
  page := fun pg => pg = (w <<< 3) >>> 12 ∨ (w <<< 3) >>> 12 ≠ 0 ∧ pg = (w <<< 3) >>> 12 - 1 ∨
    maps.page pg

/-- A static word has its page's byte set, and that of the page before. -/
def Marked (maps : Maps) : Prop :=
  ∀ w, maps.static w = true → maps.page ((w <<< 3) >>> 12) = true ∧
    ((w <<< 3) >>> 12 ≠ 0 → maps.page ((w <<< 3) >>> 12 - 1) = true)

/-- A word is its word of the map and its bit there. -/
theorem eq_of_word_bit (hhi : x >>> 6 = w >>> 6) (hlo : x.toNat % 64 = w.toNat % 64) :
    x = w := by
  have hdiv := congrArg BitVec.toNat hhi
  rw [BitVec.toNat_ushiftRight, BitVec.toNat_ushiftRight, Nat.shiftRight_eq_div_pow,
    Nat.shiftRight_eq_div_pow] at hdiv
  apply BitVec.eq_of_toNat_eq
  rw [← Nat.div_add_mod x.toNat 64, ← Nat.div_add_mod w.toNat 64, hlo]
  exact congrArg (64 * · + w.toNat % 64) hdiv

theorem static_mark (maps : Maps) (w x : Word) :
    (mark maps w).static x = (maps.static x || decide (x = w)) := by
  have hx := Nat.mod_lt x.toNat (show 0 < 64 by omega)
  simp only [Maps.static, mark, Function.update_apply]
  split_ifs with hword
  · have hbit : (1#64 <<< (w.toNat % 64)).getLsbD (x.toNat % 64) =
        decide (x.toNat % 64 = w.toNat % 64) := by
      rw [BitVec.getLsbD_shiftLeft, BitVec.getLsbD_one, Bool.eq_iff_iff]
      simp only [hx, Bool.and_eq_true, Bool.not_eq_true', decide_eq_true_eq, true_and,
        decide_eq_false_iff_not]
      omega
    have hdecide : decide (x.toNat % 64 = w.toNat % 64) = decide (x = w) := by
      rw [decide_eq_decide]
      exact ⟨eq_of_word_bit hword, fun h => by rw [h]⟩
    rw [BitVec.getLsbD_or, hword, hbit, hdecide]
  · have hne : x ≠ w := fun h => hword (by rw [h])
    simp [hne]

theorem Marked.mark (h : Marked maps) (w : Word) : Marked (mark maps w) := by
  intro x hx
  rw [static_mark, Bool.or_eq_true, decide_eq_true_eq] at hx
  rcases hx with hx | rfl
  · obtain ⟨hpage, hprev⟩ := h x hx
    simp only [Translator.mark, decide_eq_true_eq]
    exact ⟨Or.inr (Or.inr hpage), fun hne => Or.inr (Or.inr (hprev hne))⟩
  · simp only [Translator.mark, decide_eq_true_eq]
    exact ⟨Or.inl trivial, fun hne => Or.inr (Or.inl ⟨hne, trivial⟩)⟩

/-- A store to `b` changes no static word. -/
def Clear (maps : Maps) (size : MemSize) (b : Word) : Prop :=
  ∀ f : Word, f.toNat % 8 = 0 → size.Holds f → maps.static (f >>> 3) = true → Apart f b

/-- The words of a store: a word that it changes is its first or its last. -/
theorem word_of_not_apart (hf : f.toNat % 8 = 0) (hsize : size.Holds f) (hb : size.Holds b)
    (h : ¬ Apart f b) :
    f >>> 3 = b >>> 3 ∨ f >>> 3 = (b + 7) >>> 3 ∧ b >>> 3 < (b + 7) >>> 3 := by
  have hle := size.le
  unfold MemSize.Holds at hsize hb
  unfold Apart at h
  bv_omega

theorem clear_of_words (hb : size.Holds b) (hw : maps.static (b >>> 3) = false)
    (hw' : maps.static ((b + 7) >>> 3) = false) : Clear maps size b := by
  intro f hf hsize hstatic
  by_contra hnot
  rcases word_of_not_apart hf hsize hb hnot with heq | ⟨heq, -⟩
  · rw [heq, hw] at hstatic
    cases hstatic
  · rw [heq, hw'] at hstatic
    cases hstatic

theorem clear_of_spannedWords (hb : size.Holds b)
    (h : ∀ w ∈ spannedWords size b, maps.static w = false) : Clear maps size b := by
  intro f hf hsize hstatic
  by_contra hnot
  have hmem : f >>> 3 ∈ spannedWords size b := by
    have hle := size.le
    have hword := word_of_not_apart hf hsize hb hnot
    unfold MemSize.Holds at hsize hb
    have hfw : (f >>> 3).toNat < size.val / 8 := by bv_omega
    unfold spannedWords
    rw [List.mem_append]
    rcases hword with heq | ⟨heq, hlt⟩
    · left
      rw [if_pos ⟨by bv_omega, heq ▸ hfw⟩, heq]
      exact List.mem_singleton_self _
    · right
      rw [if_pos ⟨hlt, heq ▸ hfw, by bv_omega⟩, heq]
      exact List.mem_singleton_self _
  rw [h _ hmem] at hstatic
  cases hstatic

theorem clear_of_page (hm : Marked maps) (hb : size.Holds b)
    (hpage : maps.page (b >>> 12) = false) : Clear maps size b := by
  intro f hf hsize hstatic
  by_contra hnot
  obtain ⟨hpg, hprev⟩ := hm _ hstatic
  have hle := size.le
  have hback : (f >>> 3) <<< 3 = f := by bv_omega
  rw [hback] at hpg hprev
  unfold MemSize.Holds at hsize hb
  unfold Apart at hnot
  have hcase : b >>> 12 = f >>> 12 ∨ f >>> 12 ≠ 0 ∧ b >>> 12 = f >>> 12 - 1 := by bv_omega
  rcases hcase with heq | ⟨hne, heq⟩
  · rw [heq, hpg] at hpage
    cases hpage
  · rw [heq, hprev hne] at hpage
    cases hpage

/-! ## Stubs -/

/-- What a stub is told of the store held back. -/
def snapOf (J : Cache) : Pending :=
  match J.pend with
  | none => ⟨.none, 0⟩
  | some a => ⟨J.lookup a, a⟩

theorem snapPending_eq (J : Cache) :
    ∃ J', Touched J J' ∧ snapPending J = some (snapOf J, J', []) := by
  rw [snapPending, getState_bind, snapOf]
  cases J.pend with
  | none => exact ⟨J, .refl J, rfl⟩
  | some a =>
      obtain ⟨J', htouch, heq⟩ := cacheFind_eq a J
      refine ⟨J', htouch, ?_⟩
      show (cacheFind a >>= _) J = _
      rw [bind_of_quiet heq]
      rfl

theorem Touched.snapOf (h : Touched J J') : snapOf J' = snapOf J := by
  unfold Translator.snapOf
  rw [h.pend]
  cases J.pend with
  | none => rfl
  | some a => simp only [h.same.lookup]

/-- The register of a value. -/
def regOf : CVal → Option Reg
  | .reg r => some r
  | .neg r => some r
  | _ => none

/-- The registers of a stub are not the taken ones. -/
theorem spareFrom_notMem : ∀ o o' : Option Reg,
    spareFrom (o.toList ++ o'.toList) 0 ∉ o.toList ++ o'.toList ∧
    spareFrom (o.toList ++ o'.toList) (spareFrom (o.toList ++ o'.toList) 0 + 1) ∉
      o.toList ++ o'.toList ∧
    spareFrom (o.toList ++ o'.toList) (spareFrom (o.toList ++ o'.toList) 0 + 1) ≠
      spareFrom (o.toList ++ o'.toList) 0 := by
  decide

/-- A stub's registers. -/
structure Spare (v : CVal) (keep : Option Reg) (t base : Reg) : Prop where
  value : ∀ s, Uses v s → s ≠ t ∧ s ≠ base
  keep : ∀ s, keep = some s → s ≠ t ∧ s ≠ base
  ne : base ≠ t

theorem spare_spareFrom (v : CVal) (keep : Option Reg) :
    let taken := (regOf v).toList ++ keep.toList
    Spare v keep (spareFrom taken 0) (spareFrom taken (spareFrom taken 0 + 1)) := by
  intro taken
  obtain ⟨ht, hbase, hne⟩ := spareFrom_notMem (regOf v) keep
  have huse : ∀ s, Uses v s → s ∈ taken := by
    rintro s (rfl | rfl) <;> exact List.mem_append_left _ (List.mem_singleton_self s)
  have hkeep : ∀ s, keep = some s → s ∈ taken := by
    rintro s rfl
    exact List.mem_append_right _ (List.mem_singleton_self s)
  exact ⟨fun s hs => ⟨fun heq => ht (heq ▸ huse s hs), fun heq => hbase (heq ▸ huse s hs)⟩,
    fun s hs => ⟨fun heq => ht (heq ▸ hkeep s hs), fun heq => hbase (heq ▸ hkeep s hs)⟩, hne⟩

/-- From one state to the next by one store, keeping the register that is to be kept. -/
structure StubStored (keep : Option Reg) (l : List (Word × Word)) (M M' : State) : Prop where
  init : M'.init = M.init
  stores : M'.stores = M.stores ++ l
  reg : ∀ s, keep = some s → M'.reg s = M.reg s

/-- The address of a stub's store. -/
theorem stubAddress_runs {t base : Reg} {pre : List Insn} {base' : Base} {disp : BitVec 32}
    (heq : (if fitsDisp a then ([], Base.r15, int32 (a - bias))
      else ([Insn.movImm base a], Base.reg base, 0)) = (pre, base', disp))
    (hne : base ≠ t) (M : State) :
    ∃ M₁, exec (step maps) pre M = .run M₁ ∧ M₁.init = M.init ∧ M₁.stores = M.stores ∧
      (∀ s, s ≠ base → M₁.reg s = M.reg s) ∧
      ∀ M₂ : State, (∀ s, s ≠ t → M₂.reg s = M₁.reg s) → M₂.address base' disp = a := by
  by_cases hfits : fitsDisp a
  · rw [if_pos hfits] at heq
    cases heq
    exact ⟨M, rfl, rfl, rfl, fun _ _ => rfl, fun M₂ _ => address_static hfits M₂⟩
  · rw [if_neg hfits] at heq
    cases heq
    refine ⟨M.set base a, rfl, rfl, rfl, fun s hs => Function.update_of_ne hs .., ?_⟩
    intro M₂ hM₂
    rw [address_reg, hM₂ base hne]
    exact set_reg

/-- All registers but one are as they were, and no store was done. -/
structure SetOnly (t : Reg) (M M' : State) : Prop where
  reg : ∀ s, s ≠ t → M'.reg s = M.reg s
  init : M'.init = M.init
  stores : M'.stores = M.stores

theorem SetOnly.refl (t : Reg) (M : State) : SetOnly t M M := ⟨fun _ _ => rfl, rfl, rfl⟩

theorem SetOnly.set (h : SetOnly t M M') (y : Word) : SetOnly t M (M'.set t y) :=
  ⟨fun s hs => (Function.update_of_ne hs ..).trans (h.reg s hs), h.init, h.stores⟩

theorem SetOnly.setFlags (h : SetOnly t M M') (f : Option Flags) :
    SetOnly t M (M'.setFlags f) :=
  ⟨h.reg, h.init, h.stores⟩

/-- The value of a stub's store, and the store. -/
def stubValue (useMovbe : Bool) (v : CVal) (t : Reg) (base : Base) (disp : BitVec 32) :
    List Insn :=
  match v with
  | .none => []
  | .const v => [.movImm t (bswap v), .store t base disp]
  | .reg r =>
      if useMovbe then [.movbeStore r base disp] else [.mov t r, .bswap t, .store t base disp]
  | .neg r =>
      [.mov t r, .neg t] ++
        if useMovbe then [.movbeStore t base disp] else [.bswap t, .store t base disp]

theorem stubValue_runs {t : Reg} {base' : Base} {disp : BitVec 32}
    (hv : Denotes M v x) (useMovbe : Bool)
    (haddr : ∀ M₂ : State, (∀ s, s ≠ t → M₂.reg s = M.reg s) → M₂.address base' disp = a) :
    ∃ M₂, SetOnly t M M₂ ∧
      exec (step maps) (stubValue useMovbe v t base' disp) M = .run (M₂.put a x) := by
  have hself := SetOnly.refl t M
  cases v with
  | none => exact hv.elim
  | const c =>
      have hset := hself.set (bswap c)
      refine ⟨_, hset, ?_⟩
      obtain rfl : c = x := hv
      simp only [stubValue, exec, step, haddr _ hset.reg, set_reg, bswap_bswap]
  | reg r =>
      obtain rfl : M.reg r = x := hv
      cases useMovbe with
      | true =>
          refine ⟨M, hself, ?_⟩
          simp only [stubValue, exec, step, haddr _ hself.reg, if_true]
      | false =>
          have hset := (hself.set (M.reg r)).set (bswap (M.reg r))
          refine ⟨_, hset, ?_⟩
          simp only [stubValue, exec, step, set_reg, haddr _ hset.reg, bswap_bswap, reduceCtorEq,
            if_false]
  | neg r =>
      obtain rfl : -M.reg r = x := hv
      have hneg := ((hself.set (M.reg r)).set (-M.reg r)).setFlags (subFlags 0 (M.reg r))
      cases useMovbe with
      | true =>
          refine ⟨_, hneg, ?_⟩
          simp only [stubValue, exec, step, set_reg, haddr _ hneg.reg, if_true, List.cons_append,
            List.nil_append, set_setFlags_reg]
      | false =>
          have hset := hneg.set (bswap (-M.reg r))
          refine ⟨_, hset, ?_⟩
          simp only [stubValue, exec, step, set_reg, haddr _ hset.reg, bswap_bswap, reduceCtorEq,
            if_false,
            List.cons_append, List.nil_append, set_setFlags_reg]

theorem stubStore_eq (useMovbe : Bool) (keep : Option Reg) (hv : v ≠ .none) :
    let taken := (regOf v).toList ++ keep.toList
    ∃ pre base disp, (if fitsDisp a then ([], Base.r15, int32 (a - bias))
        else ([Insn.movImm (spareFrom taken (spareFrom taken 0 + 1)) a],
          Base.reg (spareFrom taken (spareFrom taken 0 + 1)), 0)) = (pre, base, disp) ∧
      stubStore useMovbe ⟨v, a⟩ keep =
        pre ++ stubValue useMovbe v (spareFrom taken 0) base disp := by
  intro taken
  refine ⟨_, _, _, rfl, ?_⟩
  cases v with
  | none => exact absurd rfl hv
  | const c => rfl
  | reg r => cases useMovbe <;> rfl
  | neg r =>
      simp only [stubStore, stubValue, List.append_assoc]
      rfl

theorem stubStore_runs (h : Sound m J M) (useMovbe : Bool) (keep : Option Reg) :
    ∃ M', exec (step maps) (stubStore useMovbe (snapOf J) keep) M = .run M' ∧
      StubStored keep (held m J) M M' := by
  cases hp : J.pend with
  | none =>
      refine ⟨M, ?_, rfl, ?_, fun _ _ => rfl⟩
      · rw [snapOf, hp]
        rfl
      · rw [held, hp, List.append_nil]
  | some a =>
      have hlookup := h.lookup_pend hp
      have hv := (h.lookup hlookup).2
      obtain ⟨hvalue, hkeep, hne⟩ := spare_spareFrom (J.lookup a) keep
      obtain ⟨pre, base, disp, hop, hstub⟩ := stubStore_eq (a := a) useMovbe keep hlookup
      obtain ⟨M₁, hpre, hinit, hstores, hreg, haddr⟩ := stubAddress_runs hop hne M
      have hv₁ := hv.congr fun s hs => hreg s (hvalue s hs).2
      obtain ⟨M₂, hset, hrun⟩ := stubValue_runs hv₁ useMovbe haddr
      refine ⟨M₂.put a (read m a), ?_, hset.init.trans hinit, ?_, fun s hs => ?_⟩
      · rw [snapOf, hp, hstub, exec_append_of_run hpre, hrun]
      · rw [held, hp, State.put, hset.stores, hstores]
      · exact (hset.reg s (hkeep s hs).1).trans (hreg s (hkeep s hs).2)

/-- A stub that stores what is held back leaves these stores. -/
def Settles (maps : Maps) (q : Pending) (keep : Option Reg) (init : Memory)
    (l : List (Word × Word)) (M : State) : Prop :=
  ∀ useMovbe, ∃ M', exec (step maps) (stubStore useMovbe q keep) M = .run M' ∧
    M'.init = init ∧ M'.stores = l ∧ ∀ s, keep = some s → M'.reg s = M.reg s

theorem Sound.settles (h : Sound m J M) (keep : Option Reg) :
    Settles maps (snapOf J) keep M.init (M.stores ++ held m J) M := by
  intro useMovbe
  obtain ⟨M', hrun, hstored⟩ := stubStore_runs h useMovbe keep
  exact ⟨M', hrun, hstored.init, hstored.stores, hstored.reg⟩

theorem Keeps.settles (h : Keeps m P J M J' M') (keep : Option Reg) :
    Settles maps (snapOf J') keep M.init (M.stores ++ held m J) M' := by
  rw [← h.init, ← h.stores]
  exact h.ready.toSound.settles keep

/-! ## Leaving -/

/-- What the generator emits runs to its end, or leaves. -/
def Leaves (maps : Maps) (J : Cache) (M : State) (g : T α) (Q : α → Cache → State → Prop)
    (E : Exit → State → Prop) : Prop :=
  ∀ ⦃x J' c⦄, g J = some (x, J', c) →
    (∃ M', exec (step maps) c M = .run M' ∧ Q x J' M') ∨
      ∃ e M', exec (step maps) c M = .exit e M' ∧ E e M'

namespace Leaves

variable {g : T α} {f : α → T β} {Q : α → Cache → State → Prop} {R : β → Cache → State → Prop}
  {E : Exit → State → Prop}

theorem of_runs (h : Runs maps J M g Q) : Leaves maps J M g Q E :=
  fun _ _ _ heq => Or.inl (h heq)

theorem bind (hg : Leaves maps J M g Q E)
    (hf : ∀ x J' M', Q x J' M' → Leaves maps J' M' (f x) R E) :
    Leaves maps J M (g >>= f) R E := by
  intro _ _ _ heq
  obtain ⟨x, J₁, c₁, c₂, hg', hf', rfl⟩ := bind_eq_some.mp heq
  rcases hg hg' with ⟨M₁, hrun, hQ⟩ | ⟨e, M₁, hexit, hE⟩
  · rw [exec_append_of_run hrun]
    exact hf _ _ _ hQ hf'
  · exact Or.inr ⟨e, M₁, exec_append_of_exit hexit, hE⟩

theorem imp {Q' : α → Cache → State → Prop} {E' : Exit → State → Prop}
    (h : Leaves maps J M g Q E) (hQ : ∀ x J' M', Q x J' M' → Q' x J' M')
    (hE : ∀ e M', E e M' → E' e M') : Leaves maps J M g Q' E' := by
  intro _ _ _ heq
  rcases h heq with ⟨M', hrun, hQ'⟩ | ⟨e, M', hexit, hE'⟩
  · exact Or.inl ⟨M', hrun, hQ _ _ _ hQ'⟩
  · exact Or.inr ⟨e, M', hexit, hE _ _ hE'⟩

/-- The result with where it comes from. -/
theorem with_eq (h : Leaves maps J M g Q E) :
    Leaves maps J M g (fun x J' M' => Q x J' M' ∧ ∃ c, g J = some (x, J', c)) E := by
  intro _ _ c heq
  rcases h heq with ⟨M', hrun, hQ⟩ | hexit
  · exact Or.inl ⟨M', hrun, hQ, c, heq⟩
  · exact Or.inr hexit

theorem quiet_bind {x : α} (hg : g J = some (x, J', [])) (hf : Leaves maps J' M (f x) R E) :
    Leaves maps J M (g >>= f) R E := by
  intro _ _ _ heq
  rw [bind_of_quiet hg] at heq
  exact hf heq

theorem emit_bind {k : Insn} {f : Unit → T β} (hstep : step maps k M = .run M₁)
    (hf : Leaves maps J M₁ (f ()) R E) : Leaves maps J M (Emitter.emit k >>= f) R E := by
  intro _ _ _ heq
  obtain ⟨c', hf', rfl⟩ := emit_bind_eq_some.mp heq
  rw [exec_cons_of_run hstep]
  exact hf hf'

/-- An instruction that may leave. -/
theorem emit_exit_bind {k : Insn} {f : Unit → T β} {e : Exit}
    (hstep : step maps k M = .exit e M₁) (hE : E e M₁) :
    Leaves maps J M (Emitter.emit k >>= f) R E := by
  intro _ _ _ heq
  obtain ⟨c', -, rfl⟩ := emit_bind_eq_some.mp heq
  exact Or.inr ⟨e, M₁, by rw [exec, hstep], hE⟩

theorem modify_bind {k : Cache → Cache} {f : Unit → T β} (hf : Leaves maps (k J) M (f ()) R E) :
    Leaves maps J M (modifyState k >>= f) R E := by
  intro _ _ _ heq
  rw [modifyState_bind] at heq
  exact hf heq

end Leaves

/-! ## Checks -/

/-- A check leaves before its instruction. -/
def LeavesBefore (maps : Maps) (i : ℕ) (init : Memory) (l : List (Word × Word)) (e : Exit)
    (M : State) : Prop :=
  ∃ s, e = .smc s ∧ s.idx = i ∧ Settles maps s.pend none init l M

/-- The flags of a test of a word's bit. -/
def testFlags (maps : Maps) (w : Word) : Flags :=
  ⟨!maps.static w, maps.static w && w.toNat % 8 == 7, false⟩

/-- The test of one word. -/
theorem step_jnz_test (maps : Maps) (w : Word) (q : Smc) (hq : q.precise = none) (M : State) :
    step maps (.jnz q) (M.setFlags (some (testFlags maps w))) =
      if maps.static w then .exit (.smc q) (M.setFlags (some (testFlags maps w)))
      else .run (M.setFlags (some (testFlags maps w))) := by
  simp only [step, State.setFlags, hq, testFlags]
  cases maps.static w <;> rfl

theorem checkWordsOf_leaves (h : Ready m P J M) (hlive : J.flagsLive = false) (i : ℕ)
    (ws : List Word) :
    Leaves maps J M (checkWordsOf i ws)
      (fun _ J' M' => Keeps m P J M J' M' ∧ ∀ w ∈ ws, maps.static w = false)
      (LeavesBefore maps i M.init (M.stores ++ held m J)) := by
  induction ws generalizing J M with
  | nil => exact .of_runs (.pure ⟨.refl h, nofun⟩)
  | cons w rest ih =>
      have htest := h.setFlags (f := some (testFlags maps w)) fun hl => by
        rw [hlive] at hl
        cases hl
      have hstep : step maps (.testBitmap w) M = .run (M.setFlags (some (testFlags maps w))) := rfl
      refine .emit_bind hstep ?_
      obtain ⟨J₁, htouch, hsnap⟩ := snapPending_eq J
      refine .quiet_bind hsnap ?_
      have hkeep := htest.trans (htouch.keeps htest.ready)
      have hjnz := step_jnz_test maps w ⟨i, snapOf J, none⟩ rfl M
      cases hstatic : maps.static w with
      | true =>
          rw [hstatic, if_pos rfl] at hjnz
          exact .emit_exit_bind hjnz ⟨_, rfl, rfl, htouch.snapOf ▸ hkeep.settles none⟩
      | false =>
          rw [hstatic, if_neg nofun] at hjnz
          refine .emit_bind hjnz ((ih hkeep.ready (htouch.live.trans hlive)).imp ?_ ?_)
          · rintro _ J₂ M₂ ⟨hkeep₂, hrest⟩
            refine ⟨hkeep.trans hkeep₂, fun w' hw' => ?_⟩
            rcases List.mem_cons.mp hw' with rfl | hw'
            · exact hstatic
            · exact hrest w' hw'
          · intro e M₂ hE
            rwa [hkeep.init, hkeep.stores] at hE

/-- Two registers that nothing stands for. -/
structure TwoFree (P : Set Reg) (J : Cache) (t t' : Reg) : Prop where
  notMem : t ∉ P
  notMem' : t' ∉ P
  free : Free J t
  free' : Free J t'

theorem TwoFree.keeps {t t' : Reg} (ht : TwoFree P J t t') (h : Ready m P J M)
    (hlive : J.flagsLive = false) (y z : Word) (f : Option Flags) :
    Keeps m P J M J (((M.set t y).set t' z).setFlags f) := by
  have hkeep := h.move ht.notMem ht.free y
  exact hkeep.trans (hkeep.ready.set ht.notMem' ht.free' z fun hl => by
    rw [hlive] at hl
    cases hl)

theorem checkWords_leaves {q : Precise} (h : Ready m P J M) (hlive : J.flagsLive = false)
    (ht : TwoFree P J q.t1 q.t2) (hrb : q.rb ∈ P) (hb : M.reg q.rb = b) (k : Smc) :
    (∃ M', checkWords maps k q M = .run M' ∧ Keeps m P J M J M' ∧
        maps.static (b >>> 3) = false ∧ maps.static ((b + 7) >>> 3) = false) ∨
      ∃ M', checkWords maps k q M = .exit (.smc k) M' ∧ Keeps m P J M J M' := by
  have hkeep := ht.keeps h hlive (b >>> 3) (maps.qword (b >>> 3 >>> 6)) none
  have hrb' := (hkeep.reg q.rb hrb).trans hb
  have hkeep' := hkeep.trans (ht.keeps hkeep.ready hlive ((b + 7) >>> 3)
    (maps.qword ((b + 7) >>> 3 >>> 6)) none)
  simp only [checkWords, hb, hrb']
  cases hw : maps.static (b >>> 3) with
  | true => exact Or.inr ⟨_, if_pos rfl, hkeep⟩
  | false =>
      rw [if_neg nofun]
      cases hw' : maps.static ((b + 7) >>> 3) with
      | true => exact Or.inr ⟨_, if_pos rfl, hkeep'⟩
      | false => exact Or.inl ⟨_, if_neg nofun, hkeep', rfl, rfl⟩

theorem checkComputed_leaves (h : Ready m P J M) (hlive : J.flagsLive = false)
    (hm : Marked maps) (hr : r ∈ P) (hreg : M.reg r = b) (hb : size.Holds b) (i : ℕ) :
    Leaves maps J M (checkComputed i r)
      (fun _ J' M' => Keeps m P J M J' M' ∧ Clear maps size b)
      (LeavesBefore maps i M.init (M.stores ++ held m J)) := by
  refine .bind (.of_runs (scratch_emits h)) fun t₁ J₁ M₁ h₁ => ?_
  obtain ⟨hkeep₁, hfresh₁⟩ := h₁
  refine .bind (.of_runs (scratch_emits (hkeep₁.ready.insert hfresh₁.pinned)))
    fun t₂ J₂ M₂ h₂ => ?_
  obtain ⟨hkeep₂, hfresh₂⟩ := h₂
  have hmem : t₁ ∈ insert t₁ P := Set.mem_insert t₁ P
  have hsub := Set.subset_insert t₁ P
  have htwo : TwoFree P J₂ t₁ t₂ := ⟨hfresh₁.notMem, fun ht => hfresh₂.notMem (hsub ht),
    hkeep₂.free hmem hfresh₁.free, hfresh₂.free⟩
  have hkeep := hkeep₁.trans (hkeep₂.mono hsub)
  have hlive₂ := hkeep.live.trans hlive
  have hreg₂ := (hkeep.reg r hr).trans hreg
  have hready := hkeep₂.ready.mono hsub
  let M₃ := (((M₂.set t₁ b).set t₁ (b >>> 12)).setFlags none).setFlags
    (some ⟨!maps.page (b >>> 12), false, false⟩)
  have hdead : ∀ f f' : Option Flags, J₂.flagsLive = true → f = f' := by
    intro _ _ hl
    rw [hlive₂] at hl
    cases hl
  have hkeep₃ : Keeps m P J₂ M₂ J₂ M₃ := by
    have hmov := hready.move htwo.notMem htwo.free b
    have hshr := hmov.trans (hmov.ready.set htwo.notMem htwo.free (b >>> 12) (hdead none _))
    exact hshr.trans (hshr.ready.setFlags (hdead _ _))
  have hmov : step maps (.mov t₁ r) M₂ = .run (M₂.set t₁ b) := by rw [step, hreg₂]
  have hshr : step maps (.shr t₁ 12) (M₂.set t₁ b) =
      .run (((M₂.set t₁ b).set t₁ (b >>> 12)).setFlags none) := by rw [step, set_reg]
  have hcmp : step maps (.cmpPage t₁) (((M₂.set t₁ b).set t₁ (b >>> 12)).setFlags none) =
      .run M₃ := by rw [step, set_setFlags_reg]
  refine .emit_bind hmov (.emit_bind hshr (.emit_bind hcmp ?_))
  obtain ⟨J₃, htouch, hsnap⟩ := snapPending_eq J₂
  refine .quiet_bind hsnap ?_
  have hkeep' := (hkeep.trans hkeep₃).trans (htouch.keeps hkeep₃.ready)
  -- the register of a check's stub is told of the cache before the lookup
  have hexit : ∀ {M' : State}, Keeps m P J₂ M₃ J₂ M' →
      LeavesBefore maps i M.init (M.stores ++ held m J)
        (.smc ⟨i, snapOf J₂, some ⟨r, t₁, t₂⟩⟩) M' :=
    fun hk => ⟨_, rfl, rfl, ((hkeep.trans hkeep₃).trans hk).settles none⟩
  have hrun : ∀ {M' : State}, Keeps m P J₂ M₃ J₂ M' → Clear maps size b →
      Leaves maps J₃ M' (do
        modifyState (·.unpin t₁)
        modifyState (·.unpin t₂))
      (fun _ J' M' => Keeps m P J M J' M' ∧ Clear maps size b)
      (LeavesBefore maps i M.init (M.stores ++ held m J)) := by
    intro M' hk hclear
    have hall := ((hkeep.trans hkeep₃).trans hk).trans (htouch.keeps hk.ready)
    have hunpin := hall.trans (hall.ready.unpin htwo.notMem)
    exact .modify_bind (.of_runs (.modify
      ⟨hunpin.trans (hunpin.ready.unpin htwo.notMem'), hclear⟩))
  cases hpage : maps.page (b >>> 12) with
  | false =>
      have hjnz : step maps (.jnz ⟨i, snapOf J₂, some ⟨r, t₁, t₂⟩⟩) M₃ = .run M₃ := by
        simp only [step, M₃, State.setFlags, hpage]
        rfl
      exact .emit_bind hjnz (hrun (.refl hkeep₃.ready) (clear_of_page hm hb hpage))
  | true =>
      have hjnz : step maps (.jnz ⟨i, snapOf J₂, some ⟨r, t₁, t₂⟩⟩) M₃ =
          checkWords maps ⟨i, snapOf J₂, some ⟨r, t₁, t₂⟩⟩ ⟨r, t₁, t₂⟩ M₃ := by
        simp only [step, M₃, State.setFlags, hpage]
        rfl
      have hreg₃ : M₃.reg r = b := (hkeep₃.reg r hr).trans hreg₂
      rcases checkWords_leaves (q := ⟨r, t₁, t₂⟩) hkeep₃.ready hlive₂ htwo hr hreg₃ _ with
        ⟨M', hwords, hk, hw, hw'⟩ | ⟨M', hwords, hk⟩
      · exact .emit_bind (hjnz.trans hwords) (hrun hk (clear_of_words hb hw hw'))
      · exact .emit_exit_bind (hjnz.trans hwords) (hexit hk)

/-- The target's register, if it has one, and no other word that it stands for. -/
structure TargetReg (fb : Field) (b q : Word) (P : Set Reg) (rb : Option Reg) (J : Cache)
    (J' : Cache) (M' : State) : Prop where
  holds : Holds rb b J' M'
  isSome : rb.isSome = fb.dyn
  notFor : ∀ a ≠ q, (∀ s ∈ P, NotFor J a s) → ∀ r, rb = some r → NotFor J' a r

theorem checkTarget_leaves (h : Ready m P J M) (hc : Current m J M) (hlive : J.flagsLive = false)
    (hm : Marked maps) (hp : (p + 8).toNat % 8 = 0) (hf : FieldKnown fb (p + 8) b J M)
    (hread : b = read m (p + 8)) (huse : ∀ s, Uses fb.cached s → s ∈ P)
    (hfor : fb.dyn = true → fb.cached = .none → ∀ s ∈ P, NotFor J (p + 8) s)
    (hb : src.size.Holds b) (hhoist : ∀ w ∈ src.hoist, maps.static w = false) (i : ℕ) :
    Leaves maps J M (checkTarget src i p fb)
      (fun rb J' M' => Keeps m P J M J' M' ∧ TargetReg fb b (p + 8) P rb J J' M' ∧
        Clear maps src.size b)
      (LeavesBefore maps i M.init (M.stores ++ held m J)) := by
  unfold checkTarget
  cases hdyn : fb.dyn with
  | false =>
      refine .bind (checkWordsOf_leaves h hlive i _) ?_
      rintro _ J₁ M₁ ⟨hkeep, hclear⟩
      refine .of_runs (.pure ⟨hkeep, ⟨⟨nofun, nofun⟩, hdyn.symm, fun _ _ _ => nofun⟩, ?_⟩)
      rw [hf.value hdyn] at hclear
      refine clear_of_spannedWords hb fun w hw => ?_
      by_cases hmem : w ∈ src.hoist
      · exact hhoist w hmem
      · exact hclear w (List.mem_filter.mpr ⟨hw, by simpa using hmem⟩)
  | true =>
      subst hread
      refine .bind (.of_runs (fieldReg_emits h hc hp hf hdyn (hfor hdyn))) fun r J₁ M₁ h₁ => ?_
      obtain ⟨hkeep₁, hreg, hpin, horigin⟩ := h₁
      have hready := hkeep₁.ready.insert hpin
      have hmem : r ∈ insert r P := Set.mem_insert r P
      have hsub := Set.subset_insert r P
      refine .bind (Leaves.imp (checkComputed_leaves hready (hkeep₁.live.trans hlive) hm hmem hreg
        hb i) (fun _ _ _ => id) fun e M' hE => ?_) ?_
      · rwa [hkeep₁.init, hkeep₁.stores] at hE
      · rintro _ J₂ M₂ ⟨hkeep₂, hclear⟩
        refine .of_runs (.pure ⟨hkeep₁.trans (hkeep₂.mono hsub), ⟨⟨?_, ?_⟩, hdyn.symm, ?_⟩, hclear⟩)
        · rintro _ ⟨⟩
          exact (hkeep₂.reg r hmem).trans hreg
        · rintro _ ⟨⟩
          exact hkeep₂.ready.pinned r hmem
        · rintro a hne hnot _ ⟨⟩
          refine hkeep₂.notFor hmem ?_
          rcases horigin with ⟨hcached, rfl⟩ | ⟨-, -, hother⟩ | ⟨-, hfresh⟩
          · exact hnot r (huse r (Or.inl hcached))
          · exact hother a hne
          · exact hfresh.free.notFor

end Translator
end SubleqEmu
