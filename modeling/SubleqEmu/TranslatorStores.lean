import SubleqEmu.TranslatorRegisters

/-!
# Stores

What is emitted for a store, and the store that is held back: when it is flushed, and
what a stub does with it.
-/

namespace SubleqEmu
namespace Translator

open ByteMemory Subleq Emitter Machine

variable {maps : Maps} {m : Memory} {P P' : Set Reg} {J J' : Cache} {M M' : State}
  {a b : Word} {r s t : Reg} {v : CVal} {x y : Word} {c : List Insn} {u : Unit} {fl : T Unit}
  {α β : Type} {target : Target}

/-! ## One store -/

/-- The generator emits nothing. -/
def Quiet (m : Memory) (P : Set Reg) (J : Cache) (M : State) (g : T α) : Prop :=
  ∀ ⦃x J' c⦄, g J = some (x, J', c) → c = [] ∧ Keeps m P J M J' M

theorem Quiet.modify {k : Cache → Cache} (h : Keeps m P J M (k J) M) :
    Quiet m P J M (modifyState k) := by
  intro _ _ _ heq
  obtain ⟨rfl, rfl⟩ := modifyState_eq_some.mp heq
  exact ⟨rfl, h⟩

theorem Quiet.modify_bind {k : Cache → Cache} {f : Unit → T β} (h : Keeps m P J M (k J) M)
    (hf : Quiet m P (k J) M (f ())) : Quiet m P J M (modifyState k >>= f) := by
  intro _ _ _ heq
  rw [Emitter.modifyState_bind] at heq
  obtain ⟨rfl, hkeep⟩ := hf heq
  exact ⟨rfl, h.trans hkeep⟩

/-- What the generator emits ends with a store, keeping what is to be kept before it. -/
def Stores (maps : Maps) (m : Memory) (P : Set Reg) (J : Cache) (M : State) (g : T α)
    (a x : Word) : Prop :=
  ∀ ⦃u J' c⦄, g J = some (u, J', c) →
    ∃ M', exec (step maps) c M = .run (M'.put a x) ∧ Keeps m P J M J' M'

theorem Stores.runs {g : T α} (h : Stores maps m P J M g a x) :
    Runs maps J M g fun _ J' M' => ∃ M₁, M' = M₁.put a x ∧ Keeps m P J M J' M₁ := by
  intro _ _ _ heq
  obtain ⟨M₁, hrun, hkeep⟩ := h heq
  exact ⟨_, hrun, M₁, rfl, hkeep⟩

namespace Stores

variable {g : T α} {f : α → T β} {Q : α → Cache → State → Prop} {i : Insn}

theorem emit (h : Ready m P J M) (hstep : step maps i M = .run (M.put a x)) :
    Stores maps m P J M (emit i) a x := by
  intro _ _ _ heq
  obtain ⟨rfl, rfl⟩ := emit_eq_some.mp heq
  exact ⟨M, by rw [exec_singleton, hstep], .refl h⟩

theorem bind_in (hg : Emits maps m P' J M g Q) (hP : P ⊆ P')
    (hf : ∀ x' J' M', Keeps m P' J M J' M' → Q x' J' M' → Stores maps m P J' M' (f x') a x) :
    Stores maps m P J M (g >>= f) a x := by
  intro _ _ _ heq
  obtain ⟨_, J₁, c₁, c₂, hg', hf', rfl⟩ := bind_eq_some.mp heq
  obtain ⟨M₁, hrun, hkeep, hQ⟩ := hg hg'
  obtain ⟨M₂, hrun', hkeep'⟩ := hf _ _ _ hkeep hQ hf'
  exact ⟨M₂, by rw [exec_append_of_run hrun, hrun'], (hkeep.mono hP).trans hkeep'⟩

theorem bind (hg : Emits maps m P J M g Q)
    (hf : ∀ x' J' M', Keeps m P J M J' M' → Q x' J' M' → Stores maps m P J' M' (f x') a x) :
    Stores maps m P J M (g >>= f) a x :=
  bind_in hg subset_rfl hf

theorem getState {f : Cache → T β} (h : Stores maps m P J M (f J) a x) :
    Stores maps m P J M (Emitter.getState >>= f) a x := by
  intro _ _ _ heq
  rw [getState_bind] at heq
  exact h heq

theorem emit_bind {f : Unit → T β} {M₁ : State} (hstep : step maps i M = .run M₁)
    (h : Keeps m P J M J M₁) (hf : Stores maps m P J M₁ (f ()) a x) :
    Stores maps m P J M (Emitter.emit i >>= f) a x :=
  .bind (Q := fun _ J' M' => J' = J ∧ M' = M₁) (.emit hstep h ⟨rfl, rfl⟩) <| by
    rintro _ _ _ - ⟨rfl, rfl⟩
    exact hf

theorem modify_bind {k : Cache → Cache} {f : Unit → T β} (h : Keeps m P J M (k J) M)
    (hf : Stores maps m P (k J) M (f ()) a x) :
    Stores maps m P J M (modifyState k >>= f) a x :=
  .bind (Q := fun _ J' M' => J' = k J ∧ M' = M) (.modify h ⟨rfl, rfl⟩) <| by
    rintro _ _ _ - ⟨rfl, rfl⟩
    exact hf

theorem mono_set (h : Stores maps m P' J M g a x) (hP : P ⊆ P') : Stores maps m P J M g a x := by
  intro _ _ _ heq
  obtain ⟨M', hrun, hkeep⟩ := h heq
  exact ⟨M', hrun, hkeep.mono hP⟩

/-- Steps of the generator alone after the store. -/
theorem then_quiet {S : Set Reg} (h : Stores maps m S J M g a x) (hP : P ⊆ S)
    (hf : ∀ u J' M', Keeps m S J M J' M' → Quiet m P J' M' (f u)) :
    Stores maps m P J M (g >>= f) a x := by
  intro _ _ _ heq
  obtain ⟨_, J₁, c₁, c₂, hg, hquiet, rfl⟩ := bind_eq_some.mp heq
  obtain ⟨M', hrun, hkeep⟩ := h hg
  obtain ⟨rfl, hkeep'⟩ := hf _ _ _ hkeep hquiet
  exact ⟨M', by rwa [List.append_nil], (hkeep.mono hP).trans hkeep'⟩

end Stores

/-! ## Addresses -/

theorem address_static (h : fitsDisp a = true) (M : State) :
    M.address .r15 (int32 (a - bias)) = a := by
  have hlt : a.toNat < 2 ^ 32 := by
    have hlt := of_decide_eq_true h
    rwa [BitVec.lt_def, show (bias <<< 1).toNat = 2 ^ 32 by rfl] at hlt
  have hext : (int32 (a - bias)).signExtend 64 = a - bias := by
    apply BitVec.eq_of_toInt_eq
    rw [BitVec.toInt_signExtend_of_le (by omega), int32, BitVec.toInt_setWidth,
      BitVec.toInt_eq_toNat_cond, Int.bmod_def, BitVec.toNat_sub, show bias.toNat = 2 ^ 31 by rfl]
    omega
  rw [State.address, hext]
  bv_omega

def Target.address (M : State) : Target → Word
  | .static a => a
  | .dynamic base => M.reg base

def Target.Uses (r : Reg) : Target → Prop
  | .static _ => False
  | .dynamic base => r = base

theorem address_reg (M : State) (r : Reg) : M.address (.reg r) 0 = M.reg r :=
  BitVec.add_zero _

/-- The operand is the target's address, in a register that stays where it needs one. -/
structure Operand (J : Cache) (M : State) (op : Base × BitVec 32) (a : Word) : Prop where
  address : M.address op.1 op.2 = a
  pinned : ∀ s, op.1 = .reg s → (J.regs s).pinned = true

theorem Operand.keeps {op : Base × BitVec 32} (h : Operand J M op a)
    (hkeep : Keeps m P J M J' M') (hP : ∀ s, op.1 = .reg s → s ∈ P) :
    Operand J' M' op a where
  address := by
    rw [← h.address]
    obtain ⟨base, disp⟩ := op
    cases base with
    | r15 => rfl
    | reg s => simp only [State.address, hkeep.reg s (hP s rfl)]
  pinned s hs := hkeep.ready.pinned s (hP s hs)

theorem targetOperand_emits (hfl : J.pend = none ∨ FlushOk maps m fl) (h : Ready m P J M)
    (huse : ∀ s, target.Uses s → s ∈ P) :
    Emits maps m P J M (targetOperand fl target) fun op J' M' =>
      Operand J' M' op (target.address M) := by
  cases target with
  | dynamic base =>
      refine .pure h ⟨address_reg M base, fun s hs => ?_⟩
      cases hs
      exact h.pinned base (huse base rfl)
  | static a =>
      rw [targetOperand]
      split_ifs with hfits
      · exact .pure h ⟨address_static hfits M, nofun⟩
      · refine (scratchWith_emits hfl h).bind fun t J' M' hkeep hfresh => ?_
        have hset := hkeep.ready.move hfresh.notMem hfresh.free a
        refine .emit_bind rfl hset (.pure hset.ready ⟨?_, fun s hs => ?_⟩)
        · exact (address_reg _ t).trans set_reg
        · cases hs
          exact hfresh.pinned

theorem storeRegWith_stores (hfl : J.pend = none ∨ FlushOk maps m fl) (h : Ready m P J M)
    (hr : r ∈ P) (huse : ∀ s, target.Uses s → s ∈ P) :
    Stores maps m P J M (storeRegWith fl r target) (target.address M) (M.reg r) := by
  refine .bind (targetOperand_emits hfl h huse) fun op J₁ M₁ hkeep hop => ?_
  have hreg := hkeep.reg r hr
  refine .getState ?_
  split_ifs with hmovbe
  · refine .emit hkeep.ready ?_
    rw [step, hop.address, hreg]
  · let P₁ : Set Reg := fun s => s ∈ P ∨ op.1 = .reg s
    have hready : Ready m P₁ J₁ M₁ := ⟨hkeep.ready.toSound, fun s hs =>
      hs.elim (hkeep.ready.pinned s) (hop.pinned s)⟩
    have hsub : P ⊆ P₁ := fun s hs => Or.inl hs
    have hfl₁ : J₁.pend = none ∨ FlushOk maps m fl := hfl.imp_left hkeep.pend_eq_none
    refine .mono_set ?_ hsub
    refine .bind (scratchWith_emits hfl₁ hready) fun t J₂ M₂ hkeep₂ hfresh => ?_
    have hop₂ := hop.keeps hkeep₂ fun s hs => Or.inr hs
    have hmov := hkeep₂.ready.move hfresh.notMem hfresh.free (M₂.reg r)
    have hswap := hmov.ready.move hfresh.notMem hfresh.free (bswap (M₂.reg r))
    refine .emit_bind rfl hmov (.emit_bind ?_ hswap (.emit hswap.ready ?_))
    · rw [step, set_reg]
    · have hop₃ := (hop₂.keeps hmov fun s hs => Or.inr hs).keeps hswap fun s hs => Or.inr hs
      rw [step, hop₃.address, set_reg, bswap_bswap, hkeep₂.reg r (hsub hr), hreg]

theorem storeConstWith_stores (hfl : J.pend = none ∨ FlushOk maps m fl) (h : Ready m P J M)
    (huse : ∀ s, target.Uses s → s ∈ P) :
    Stores maps m P J M (storeConstWith fl y target) (target.address M) y := by
  have hlong : Stores maps m P J M (do
      let t ← scratchWith fl
      Emitter.emit (.movImm t (bswap y))
      let op ← targetOperand fl target
      Emitter.emit (.store t op.1 op.2)) (target.address M) y := by
    refine .bind (scratchWith_emits hfl h) fun t J₁ M₁ hkeep hfresh => ?_
    have hset := hkeep.ready.move hfresh.notMem hfresh.free (bswap y)
    refine .emit_bind rfl hset ?_
    have hready := hset.ready.insert hfresh.pinned
    have haddr : target.address (M₁.set t (bswap y)) = target.address M := by
      cases target with
      | static a => rfl
      | dynamic base => exact (hkeep.trans hset).reg base (huse base rfl)
    refine .mono_set ?_ (Set.subset_insert t P)
    refine .bind (targetOperand_emits (hfl.imp_left hkeep.pend_eq_none) hready
      fun s hs => Set.mem_insert_of_mem t (huse s hs)) fun op J₂ M₂ hkeep₂ hop => ?_
    refine .emit hkeep₂.ready ?_
    rw [step, hop.address, haddr, hkeep₂.reg t (Set.mem_insert t P), set_reg,
      bswap_bswap]
  unfold storeConstWith
  split
  · next a himm =>
      simp only [immediate, decide_eq_true_eq] at himm
      refine .emit h ?_
      rw [step, address_static himm.1, himm.2, bswap_bswap]
      rfl
  · exact hlong

/-! ## The store held back -/

theorem Ready.restorePin {old : Bool} (h : Ready m P J M) (hold : r ∈ P → old = true) :
    Keeps m P J M (J.setReg r fun c => { c with pinned := old }) M :=
  (sameEntries_setReg (f := fun c => { c with pinned := old }) rfl).keeps h rfl rfl
    fun s hs hpin => by
      rw [setReg_regs]
      split_ifs with heq
      · exact hold (heq ▸ hs)
      · exact hpin

theorem storeHeld_stores (h : Ready m P J M) (hpend : J.pend = none) (hv : Denotes M v x) :
    Stores maps m P J M (storeHeld a v) a x := by
  have hfl : ∀ {J' : Cache}, J'.pend = none → J'.pend = none ∨ FlushOk maps m (pure ()) :=
    fun hp => Or.inl hp
  cases v with
  | none => exact hv.elim
  | const y =>
      obtain rfl : y = x := hv
      exact @storeConstWith_stores _ _ _ _ _ _ _ (.static a) (hfl hpend) h nofun
  | reg r =>
      have hpin := h.pin r
      have hready := hpin.ready.insert (r := r) (by simp)
      refine .getState (.modify_bind hpin ?_)
      refine .then_quiet (S := insert r P) ?_ (Set.subset_insert r P) fun _ J' M' hkeep => ?_
      · rw [← show M.reg r = x from hv]
        exact @storeRegWith_stores _ _ _ _ _ _ _ (.static a) (hfl hpend) hready
          (Set.mem_insert r P) nofun
      · exact .modify ((hkeep.ready.mono (Set.subset_insert r P)).restorePin (h.pinned r))
  | neg r =>
      have hpin := h.pin r
      have hready := hpin.ready.insert (r := r) (by simp)
      refine .getState (.modify_bind hpin ?_)
      refine .bind_in
        (toRegWith_emits (J := J.pin r) (v := .neg r) (x := x) (hfl hpend) hready hv ?_)
        (Set.subset_insert r P) fun t J₁ M₁ hkeep ht => ?_
      · intro s hs
        rw [uses_neg.mp hs]
        exact Set.mem_insert r P
      · obtain ⟨hreg, ⟨heq, -⟩ | ⟨-, hfresh⟩⟩ := ht
        · cases heq
        · have hready₁ := hkeep.ready.insert hfresh.pinned
          have hsub : P ⊆ insert t (insert r P) :=
            (Set.subset_insert r P).trans (Set.subset_insert t _)
          refine .then_quiet (S := insert t (insert r P)) ?_ hsub fun _ J₂ M₂ hkeep₂ => ?_
          · rw [← hreg]
            exact @storeRegWith_stores _ _ _ _ _ _ _ (.static a) (hfl (hkeep.pend_eq_none hpend))
              hready₁ (Set.mem_insert t _) nofun
          · have hunpin := (hkeep₂.ready.mono hsub).unpin fun ht =>
              hfresh.notMem (Set.mem_insert_of_mem r ht)
            exact .modify_bind hunpin (.modify (hunpin.ready.restorePin (h.pinned r)))

/-- Doing the store held back. -/
theorem Stores.flush {g : T Unit} (hpend : J.pend = some a)
    (hg : Stores maps m P { J with pend := none } M g a (read m a)) :
    Emits maps m P J M (modifyState (fun J => { J with pend := none }) >>= fun _ => g)
      fun _ J' _ => J'.pend = none := by
  intro _ J' c heq
  rw [modifyState_bind] at heq
  obtain ⟨M', hrun, hkeep⟩ := hg heq
  have hnone := hkeep.pend_eq_none rfl
  have hstores : M'.stores = M.stores := by
    have hstores := hkeep.stores
    simpa only [held, hnone, List.append_nil] using hstores
  refine ⟨_, hrun, {
    reg := hkeep.reg
    live := hkeep.live
    flags := hkeep.flags
    pend := Or.inr hnone
    init := hkeep.init
    stores := ?_
    ready := ⟨⟨hkeep.ready.entry, hkeep.ready.unique, hkeep.ready.pend⟩, hkeep.ready.pinned⟩
    addr := hkeep.addr
    names := hkeep.names }, hnone⟩
  simp only [State.put, held, hnone, hpend, hstores, List.append_nil]

theorem flushPending_ok : FlushOk maps m flushPending := by
  intro P J M h
  refine .getState ?_
  cases hpend : J.pend with
  | none => exact .pure h hpend
  | some a =>
      have hready : Ready m P { J with pend := none } M :=
        ⟨⟨h.entry, h.unique, nofun⟩, h.pinned⟩
      have hv := (h.lookup (h.lookup_pend hpend)).2
      refine Stores.flush hpend (.bind (Q := fun v J' M' => J'.pend = none ∧
        Denotes M' v (read m a)) ?_ fun v J' M' hkeep hv' => ?_)
      · obtain ⟨J', htouch, heq⟩ := cacheFind_eq a { J with pend := none }
        intro _ _ _ hfind
        rw [heq] at hfind
        cases hfind
        exact ⟨M, rfl, htouch.keeps hready, htouch.pend, hv⟩
      · exact storeHeld_stores hkeep.ready hv'.1 hv'.2

/-! ## With the flush -/

theorem flushPending_emits (h : Ready m P J M) :
    Emits maps m P J M flushPending fun _ J' _ => J'.pend = none :=
  flushPending_ok h

theorem scratch_emits (h : Ready m P J M) :
    Emits maps m P J M scratch fun r J' _ => Fresh P r J' :=
  scratchWith_emits (Or.inr flushPending_ok) h

theorem toReg_emits (h : Ready m P J M) (hv : Denotes M v x) (huse : ∀ s, Uses v s → s ∈ P) :
    Emits maps m P J M (toReg v) fun t J' M' =>
      M'.reg t = x ∧ (v = .reg t ∧ J' = J ∨ (∀ s, v ≠ .reg s) ∧ Fresh P t J') :=
  toRegWith_emits (Or.inr flushPending_ok) h hv huse

theorem storeReg_stores (h : Ready m P J M) (hr : r ∈ P) (huse : ∀ s, target.Uses s → s ∈ P) :
    Stores maps m P J M (storeReg r target) (target.address M) (M.reg r) :=
  storeRegWith_stores (Or.inr flushPending_ok) h hr huse

theorem storeConst_stores (h : Ready m P J M) (huse : ∀ s, target.Uses s → s ∈ P) :
    Stores maps m P J M (storeConst y target) (target.address M) y :=
  storeConstWith_stores (Or.inr flushPending_ok) h huse

end Translator
end SubleqEmu
