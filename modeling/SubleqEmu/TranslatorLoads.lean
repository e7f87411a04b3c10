import SubleqEmu.SpannedWords
import SubleqEmu.TranslatorStores

/-!
# Values of words

`get_static` gives the word at an address, from the cache, from memory, or from the two
words that it spans.
-/

namespace SubleqEmu
namespace Translator

open ByteMemory Subleq Emitter Machine

variable {maps : Maps} {m : Memory} {P P' : Set Reg} {J J' : Cache} {M M' : State}
  {a b p q : Word} {r s t : Reg} {v w : CVal} {x y : Word} {n : ℕ} {left : Bool} {α : Type}

/-! ## Known values -/

/-- The registers in use, and the value's. -/
def keeping (P : Set Reg) (v : CVal) : Set Reg := {s | s ∈ P ∨ Uses v s}

/-- The value is `x`, in a register that stays. -/
structure Known (v : CVal) (x : Word) (J : Cache) (M : State) : Prop where
  denotes : Denotes M v x
  pinned : ∀ s, Uses v s → (J.regs s).pinned = true

theorem subset_keeping : P ⊆ keeping P v := fun _ hs => Or.inl hs

theorem Ready.keeping (h : Ready m P J M) (hv : Known v x J M) : Ready m (keeping P v) J M :=
  ⟨h.toSound, fun s hs => hs.elim (h.pinned s) (hv.pinned s)⟩

theorem Keeps.known (h : Keeps m P J M J' M') (hv : Known v x J M)
    (huse : ∀ s, Uses v s → s ∈ P) : Known v x J' M' :=
  ⟨h.denotes hv.denotes huse, fun s hs => h.ready.pinned s (huse s hs)⟩

theorem Keeps.known_keeping (h : Keeps m (keeping P v) J M J' M') (hv : Known v x J M) :
    Known v x J' M' :=
  h.known hv fun _ hs => Or.inr hs

theorem known_const (hx : y = x) : Known (.const y) x J M :=
  ⟨hx, fun _ hs => absurd hs not_uses_const⟩

theorem known_reg (hreg : M.reg r = x) (hpin : (J.regs r).pinned = true) :
    Known (.reg r) x J M :=
  ⟨hreg, fun s hs => by rwa [uses_reg.mp hs] at *⟩

theorem toReg_known (h : Ready m P J M) (hv : Known v x J M) :
    Emits maps m (keeping P v) J M (toReg v) fun t J' M' =>
      M'.reg t = x ∧ (v = .reg t ∧ J' = J ∨ (∀ s, v ≠ .reg s) ∧ Fresh (keeping P v) t J') :=
  toReg_emits (h.keeping hv) hv.denotes fun _ hs => Or.inr hs

theorem Fresh.mono (h : Fresh P' r J) (hP : P ⊆ P') : Fresh P r J :=
  ⟨fun hr => h.notMem (hP hr), h.pinned, h.free⟩

/-- The value is a constant, or in a register of its own. -/
def Own (P : Set Reg) (v : CVal) (J : Cache) : Prop :=
  (∃ c, v = .const c) ∨ ∃ r, v = .reg r ∧ Fresh P r J

theorem Own.keeps (h : Own P v J) (hk : Keeps m (keeping P v) J M J' M') : Own P v J' := by
  obtain ⟨c, rfl⟩ | ⟨r, rfl, hfresh⟩ := h
  · exact Or.inl ⟨c, rfl⟩
  · have hr : r ∈ Translator.keeping P (.reg r) := Or.inr (Or.inl rfl)
    exact Or.inr ⟨r, rfl, hfresh.notMem, hk.ready.pinned r hr, hk.free hr hfresh.free⟩

theorem Own.mono (h : Own P' v J) (hP : P ⊆ P') : Own P v J :=
  h.imp_right fun ⟨r, hv, hr⟩ => ⟨r, hv, hr.mono hP⟩

/-! ## Loads -/

theorem loadMem_emits {base : Base} {disp : BitVec 32} (h : Ready m P J M)
    (hr : Fresh P r J) (haddr : M.address base disp = a) :
    Emits maps m P J M (loadMem r base disp) fun _ J' M' => J' = J ∧ M'.reg r = read M.mem a := by
  have hmove := fun {y} => h.move hr.notMem hr.free y
  refine .getState ?_
  split_ifs with hmovbe
  · refine .emit rfl hmove ⟨rfl, ?_⟩
    rw [set_reg, haddr]
  · refine .emit_bind rfl hmove ?_
    refine .emit rfl (hmove.ready.move hr.notMem hr.free _) ⟨rfl, ?_⟩
    rw [set_reg, set_reg, bswap_bswap, haddr]

theorem loadStatic_emits (h : Ready m P J M) (hr : Fresh P r J) :
    Emits maps m P J M (loadStatic r a) fun _ J' M' => J' = J ∧ M'.reg r = read M.mem a := by
  rw [loadStatic]
  split_ifs with hfits
  · exact loadMem_emits h hr (address_static hfits M)
  · have hmove := h.move hr.notMem hr.free a
    exact .emit_bind rfl hmove
      (loadMem_emits hmove.ready hr ((address_reg _ r).trans set_reg))

theorem Current.read_eq (h : Current m J M) (hp : ∀ p, J.pend = some p → Apart p a) :
    read M.mem a = read m a := by
  cases hpend : J.pend with
  | none => rw [h.mem_eq hpend]
  | some p =>
      have hcur : applyStores M.mem (held m J) = m := h
      rw [held, hpend] at hcur
      calc
        read M.mem a = read (write M.mem p (read m p)) a :=
          (read_write_apart _ _ (hp p hpend)).symm
        _ = read m a := congrArg (read · a) hcur

theorem aligned_of_cacheable (h : cacheable a = true) : a.toNat % 8 = 0 := by
  rw [cacheable, Bool.and_eq_true, decide_eq_true_eq] at h
  have hand := congrArg BitVec.toNat h.1
  rwa [toNat_and_seven] at hand

/-- The register does not stand for the word. -/
def NotFor (J : Cache) (q : Word) (r : Reg) : Prop :=
  (J.regs r).addr ≠ some q ∧ ∀ n, ¬ Alias J q r n

theorem Keeps.notFor (h : Keeps m P J M J' M') (hr : r ∈ P) (hn : NotFor J q r) :
    NotFor J' q r := by
  rwa [NotFor, h.addr r hr, forall_congr' fun n => not_congr (h.names r hr q n)]

theorem Free.notFor (h : Free J r) : NotFor J q r := by
  rw [free_iff] at h
  exact ⟨by rw [h.1]; nofun, fun n => h.2 q n⟩

theorem notFor_of_lookup (hs : Sound m J M) (h : J.lookup q = .none) : NotFor J q r := by
  refine ⟨fun haddr => hs.no_entry h (v := .reg r) (Or.inl haddr), fun n hn => ?_⟩
  cases n
  · exact hs.no_entry h (v := .reg r) (Or.inr hn)
  · exact hs.no_entry h (v := .neg r) hn

theorem bindReg_notFor (h : Free J r) (hq : q ≠ a) : NotFor (J.bindReg r a) q r := by
  constructor
  · rw [Cache.bindReg]
    split_ifs with hcache
    · exact h.notFor.1
    · rw [sameEntries_touch.regs, setReg_regs, if_pos rfl]
      exact fun heq => hq (Option.some.inj heq).symm
  · exact fun n hn => (h.notFor (q := q)).2 n (alias_bindReg.mp hn).1

/-- A register that caches a word, for which no register in use stood. -/
theorem Ready.bindReg (h : Ready m P J M) (hr : Fresh P r J) (hreg : M.reg r = read m a)
    (hnot : ∀ s ∈ P, NotFor J a s) :
    Keeps m P J M (J.bindReg r a) M where
  ready := {
    entry {b v} hv := by
      rcases entry_bindReg hv with ⟨hv, -⟩ | ⟨rfl, rfl, hcache⟩
      · exact h.entry hv
      · exact ⟨hcache, hreg⟩
    unique {b v w} hv hw := by
      rcases entry_bindReg hv with ⟨hv, hb⟩ | ⟨rfl, rfl, hcache⟩
      · rcases entry_bindReg hw with ⟨hw, -⟩ | ⟨rfl, rfl, hcache⟩
        · exact h.unique hv hw
        · exact absurd rfl (hb hcache)
      · rcases entry_bindReg hw with ⟨hw, hb⟩ | ⟨-, rfl, -⟩
        · exact absurd rfl (hb hcache)
        · rfl
    pend {b} hb := by
      have hpend : J.pend = some b := bindReg_pend.symm.trans hb
      obtain ⟨hcache, v, hv⟩ := h.pend hpend
      by_cases hb : b = a
      · rw [hb] at hcache ⊢
        exact ⟨hcache, _, entry_bindReg_self hcache⟩
      · refine ⟨hcache, v, entry_bindReg_of hv hb fun haddr => ?_⟩
        rw [(free_iff.mp hr.free).1] at haddr
        cases haddr
    pinned s hs := by
      rw [bindReg_pinned]
      exact h.pinned s hs }
  reg _ _ := rfl
  addr s hs := bindReg_addr (fun _ => (hnot s hs).1) fun heq => hr.notMem (heq ▸ hs)
  names s hs b n := by
    rw [alias_bindReg, and_iff_left_iff_imp]
    rintro hb - rfl
    exact (hnot s hs).2 n hb
  live := bindReg_flagsLive
  flags _ := rfl
  pend := Or.inl bindReg_pend
  init := rfl
  stores := by simp only [held, bindReg_pend]

/-- A word that shares no byte with a store held back but for one of the two words that it
spans. -/
theorem apart_of_not_spanned (hp : p.toNat % 8 = 0) (hlo : p ≠ a &&& ~~~7#64)
    (hhi : p ≠ (a &&& ~~~7#64) + 8) : Apart p a := by
  have hand := toNat_and_not_seven a
  generalize a &&& ~~~7#64 = lo at *
  unfold Apart
  bv_omega

theorem loadWord_emits (h : Ready m P J M) (hc : Current m J M) (hnone : J.lookup a = .none) :
    Emits maps m P J M (loadWord a) fun v J' M' =>
      Known v (read m a) J' M' ∧ ∃ r, v = .reg r ∧ r ∉ P := by
  refine .getState (.bind (Q := fun _ J' _ => ∀ p, J'.pend = some p → Apart p a) ?_
    fun _ J₁ M₁ hkeep₁ hpend₁ => ?_)
  · unfold onlyIf
    split_ifs with hspan
    · refine (flushPending_emits h).imp fun _ J' _ _ hnone p hp => ?_
      rw [hnone] at hp
      cases hp
    · refine .pure h fun p hp => ?_
      have hentry := h.lookup_pend hp
      have haligned := aligned_of_cacheable (h.lookup hentry).1
      have hne : p ≠ a := fun heq => hentry (heq ▸ hnone)
      by_cases ha : a &&& 7 = 0
      · have hand := congrArg BitVec.toNat ha
        rw [toNat_and_seven] at hand
        exact apart_of_ne haligned hand hne
      · rw [hp] at hspan
        refine apart_of_not_spanned haligned (fun heq => hspan ⟨ha, Or.inl ?_⟩)
          fun heq => hspan ⟨ha, Or.inr ?_⟩
        · rw [heq]
        · rw [heq]
  · refine .bind (scratch_emits hkeep₁.ready) fun r J₂ M₂ hkeep₂ hfresh => ?_
    refine .bind (loadStatic_emits hkeep₂.ready hfresh) ?_
    rintro _ _ M₃ hkeep₃ ⟨rfl, hreg⟩
    have hkeep := (hkeep₁.trans hkeep₂).trans hkeep₃
    have hread : read M₂.mem a = read m a :=
      ((hkeep₁.trans hkeep₂).current hc).read_eq fun p hp => hpend₁ p <| by
        rcases hkeep₂.pend with heq | heq
        · rw [← heq, hp]
        · rw [heq] at hp
          cases hp
    rw [hread] at hreg
    have hbind := hkeep.ready.bindReg hfresh hreg
      fun s hs => hkeep.notFor hs (notFor_of_lookup h.toSound hnone)
    refine .modify_bind hbind (.pure hbind.ready ⟨known_reg hreg ?_, r, rfl, hfresh.notMem⟩)
    rw [bindReg_pinned]
    exact hfresh.pinned

/-- The entry of a word, or a new register. -/
theorem getWord_emits (h : Ready m P J M) (hc : Current m J M) :
    Emits maps m P J M (getWord a) fun v J' M' =>
      Known v (read m a) J' M' ∧ (J.lookup a ≠ .none → v = J.lookup a) ∧
        (J.lookup a = .none → ∃ r, v = .reg r ∧ r ∉ P) := by
  refine .cacheFind_bind h fun J₁ htouch hkeep₁ => ?_
  refine .pinVal_bind hkeep₁.ready fun J₂ hsame hkeep₂ hpin => ?_
  have hkeep := hkeep₁.trans hkeep₂
  have hlookup : J₂.lookup a = J.lookup a := hsame.lookup.trans htouch.same.lookup
  split_ifs with hfound
  · exact .pure hkeep.ready ⟨⟨(h.lookup hfound).2, fun s hs => hpin s (Or.inr hs)⟩,
      fun _ => rfl, fun hnone => absurd hnone hfound⟩
  · rw [not_not] at hfound
    refine (loadWord_emits hkeep.ready (hkeep.current hc) (hlookup.trans hfound)).imp
      fun v J' M' _ hv => ⟨hv.1, fun hne => absurd hfound hne, fun _ => hv.2⟩

/-! ## Putting words together -/

theorem andLow (x : Word) : (x.setWidth 32).setWidth 64 = x &&& 0xffffffff := by
  apply BitVec.eq_of_toNat_eq
  have hand := Nat.and_two_pow_sub_one_eq_mod x.toNat 32
  rw [BitVec.toNat_and, show (0xffffffff : Word).toNat = 2 ^ 32 - 1 by rfl, hand,
    BitVec.toNat_setWidth, BitVec.toNat_setWidth]
  omega

/-- An instruction that changes a register, and flags that nothing needs. -/
theorem Emits.change {i : Insn} {f : Option Flags} (h : Ready m P J M) (hr : Fresh P r J)
    (hlive : J.flagsLive = false) (hstep : step maps i M = .run ((M.set r y).setFlags f)) :
    Emits maps m P J M (Emitter.emit i) fun _ J' M' => J' = J ∧ M'.reg r = y :=
  .emit hstep (h.set hr.notMem hr.free y fun hl => by simp [hlive] at hl)
    ⟨rfl, set_setFlags_reg f⟩

theorem Fresh.unpin (h : Fresh P r J) (hr : r ≠ t) : Fresh P r (J.unpin t) :=
  ⟨h.notMem, by simp [h.pinned, hr], fun a v hv => h.free a v (sameEntries_unpin.entry.mp hv)⟩

/-- A register that is changed in steps. -/
theorem Fresh.insert (h : Fresh P r J) (hready : Ready m P J M) :
    Ready m (insert r P) J M :=
  hready.insert h.pinned

theorem andImm64_emits {mask : Word} (h : Ready m P J M) (hr : Fresh P r J)
    (hlive : J.flagsLive = false) :
    Emits maps m P J M (andImm64 r mask) fun _ J' M' =>
      Fresh P r J' ∧ M'.reg r = M.reg r &&& mask := by
  rw [andImm64]
  split_ifs with himm hlow
  · refine (Emits.change h hr hlive rfl).imp ?_
    rintro _ _ M' - ⟨rfl, hreg⟩
    exact ⟨hr, by rw [hreg, himm]⟩
  · refine (Emits.change h hr hlive rfl).imp ?_
    rintro _ _ M' - ⟨rfl, hreg⟩
    exact ⟨hr, by rw [hreg, andLow, hlow]⟩
  · have hsub := Set.subset_insert r P
    refine .bind_in (scratch_emits (hr.insert h)) hsub fun t J₁ M₁ hkeep ht => ?_
    have hlive₁ := hkeep.live.trans hlive
    have hrt : r ≠ t := fun heq => ht.notMem (heq ▸ Set.mem_insert r P)
    refine .bind_in (Emits.change hkeep.ready ht hlive₁ rfl) hsub ?_
    rintro _ _ M₂ hkeep₂ ⟨rfl, hmask⟩
    have hr₂ := (hkeep.trans hkeep₂).fresh hr
    have hreg₂ := (hkeep.trans hkeep₂).reg r (Set.mem_insert r P)
    refine .bind (Emits.change (hkeep₂.ready.mono hsub) hr₂ hlive₁ rfl) ?_
    rintro _ _ M₃ hkeep₃ ⟨rfl, hand⟩
    refine .modify (hkeep₃.ready.unpin fun hin => ht.notMem (hsub hin)) ⟨hr₂.unpin hrt, ?_⟩
    rw [hand, hmask, hreg₂]

theorem orVal_emits (h : Ready m P J M) (hr : Fresh P r J) (hv : Known v x J M)
    (hne : ¬ Uses v r) (hlive : J.flagsLive = false) :
    Emits maps m P J M (orVal r v) fun _ J' M' =>
      Fresh P r J' ∧ M'.reg r = M.reg r ||| x := by
  rw [orVal]
  split_ifs with hzero
  · subst hzero
    obtain rfl : 0 = x := hv.denotes
    exact .pure h ⟨hr, BitVec.or_zero.symm⟩
  · have hsub : P ⊆ keeping (insert r P) v := (Set.subset_insert r P).trans subset_keeping
    have hrin : r ∈ keeping (insert r P) v := Or.inl (Set.mem_insert r P)
    refine .bind_in (toReg_known (hr.insert h) hv) hsub fun t J₁ M₁ hkeep ht => ?_
    obtain ⟨htx, ht⟩ := ht
    have hr₁ : Fresh P r J₁ :=
      ⟨hr.notMem, hkeep.ready.pinned r hrin, hkeep.free hrin hr.free⟩
    refine .bind (Emits.change (hkeep.ready.mono hsub) hr₁ (hkeep.live.trans hlive) rfl) ?_
    rintro _ _ M₂ hkeep₂ ⟨rfl, hor⟩
    rw [htx, hkeep.reg r hrin] at hor
    rcases ht with ⟨rfl, -⟩ | ⟨hnew, hfresh⟩
    · exact .pure hkeep₂.ready ⟨hr₁, hor⟩
    · have hunpin : unpinNew v t = modifyState (·.unpin t) := by
        cases v with
        | reg s => exact absurd rfl (hnew s)
        | _ => rfl
      have hrt : r ≠ t := fun heq => hfresh.notMem (heq ▸ hrin)
      rw [hunpin]
      exact .modify (hkeep₂.ready.unpin fun hin => hfresh.notMem (hsub hin))
        ⟨hr₁.unpin hrt, hor⟩

theorem shift_reg (left : Bool) (n : ℕ) (M : State) :
    step maps (shiftInsn left r n) M = .run ((M.set r (shift left (M.reg r) n)).setFlags none) := by
  cases left <;> rfl

theorem shifted_emits (h : Ready m P J M) (hv : Known v x J M) (hlive : J.flagsLive = false) :
    Emits maps m P J M (shifted v left n) fun w J' M' =>
      Known w (shift left x n) J' M' ∧ Own P w J' := by
  have hnew : Emits maps m P J M (do
      let s ← toReg v
      let r ← scratch
      Emitter.emit (.mov r s)
      Emitter.emit (shiftInsn left r n)
      return .reg r) fun w J' M' => Known w (shift left x n) J' M' ∧ Own P w J' := by
    refine .bind_in (toReg_known h hv) subset_keeping fun t J₁ M₁ hkeep ht => ?_
    obtain ⟨htx, ht⟩ := ht
    have htpin : (J₁.regs t).pinned = true := by
      rcases ht with ⟨rfl, -⟩ | ⟨-, hfresh⟩
      · exact hkeep.ready.pinned t (Or.inr (Or.inl rfl))
      · exact hfresh.pinned
    have hready := (hkeep.ready.mono subset_keeping).insert htpin
    have hsub := Set.subset_insert t P
    refine .bind_in (scratch_emits hready) hsub fun r J₂ M₂ hkeep₂ hr => ?_
    have hr' := hr.mono hsub
    have hlive₂ := hkeep₂.live.trans (hkeep.live.trans hlive)
    refine .bind (Emits.change (hkeep₂.ready.mono hsub) hr' hlive₂ rfl) ?_
    rintro _ _ M₃ hkeep₃ ⟨rfl, hmov⟩
    refine .bind (Emits.change hkeep₃.ready hr' hlive₂ (shift_reg left n M₃)) ?_
    rintro _ _ M₄ hkeep₄ ⟨rfl, hshift⟩
    rw [hmov, hkeep₂.reg t (Set.mem_insert t P), htx] at hshift
    exact .pure hkeep₄.ready ⟨known_reg hshift hr'.pinned, Or.inr ⟨r, rfl, hr'⟩⟩
  cases v with
  | const c =>
      obtain rfl : c = x := hv.denotes
      exact .pure h ⟨known_const rfl, Or.inl ⟨_, rfl⟩⟩
  | _ => exact hnew

theorem putTogether_emits {lo hi : CVal} (h : Ready m P J M) (hlo : Known lo x J M)
    (hhi : Known hi y J M) (hlive : J.flagsLive = false) :
    Emits maps m P J M (putTogether lo hi n) fun w J' M' =>
      Known w (x <<< n ||| y >>> (64 - n)) J' M' ∧ Own P w J' := by
  refine .bind_in (shifted_emits (h.keeping hhi) hlo hlive) subset_keeping
    fun v J₁ M₁ hkeep₁ hv => ?_
  have hhi₁ := hkeep₁.known_keeping hhi
  have hlive₁ := hkeep₁.live.trans hlive
  have hready₁ := hkeep₁.ready.mono (subset_keeping (P := P) (v := hi))
  refine .bind_in (shifted_emits (hready₁.keeping hv.1) hhi₁ hlive₁) subset_keeping
    fun w J₂ M₂ hkeep₂ hw => ?_
  have hv₂ := hkeep₂.known_keeping hv.1
  have hlive₂ := hkeep₂.live.trans hlive₁
  have hready₂ := hkeep₂.ready.mono (subset_keeping (P := P) (v := v))
  obtain ⟨c, rfl⟩ | ⟨r, rfl, hr⟩ := (hv.2.mono subset_keeping).keeps hkeep₂
  · have hc : c = x <<< n := hv₂.denotes
    obtain ⟨d, rfl⟩ | ⟨r, rfl, hr⟩ := hw.2.mono (subset_keeping (P := P))
    · have hd : d = y >>> (64 - n) := hw.1.denotes
      exact .pure hready₂ ⟨known_const (by rw [hc, hd]), Or.inl ⟨_, rfl⟩⟩
    · refine .bind (orVal_emits hready₂ hr hv₂ not_uses_const hlive₂) ?_
      rintro _ J₃ M₃ hkeep₃ ⟨hr₃, hor⟩
      refine .pure hkeep₃.ready ⟨known_reg ?_ hr₃.pinned, Or.inr ⟨r, rfl, hr₃⟩⟩
      have hreg : M₂.reg r = y >>> (64 - n) := hw.1.denotes
      rw [hor, hreg, BitVec.or_comm]
      rfl
  · have hne : ¬ Uses w r := by
      obtain ⟨d, rfl⟩ | ⟨s, rfl, hs⟩ := hw.2
      · exact not_uses_const
      · rw [uses_reg]
        rintro rfl
        exact hs.notMem (Or.inr (Or.inl rfl))
    refine .bind (orVal_emits hready₂ hr hw.1 hne hlive₂) ?_
    rintro _ J₃ M₃ hkeep₃ ⟨hr₃, hor⟩
    refine .pure hkeep₃.ready ⟨known_reg ?_ hr₃.pinned, Or.inr ⟨r, rfl, hr₃⟩⟩
    have hreg : M₂.reg r = x <<< n := hv₂.denotes
    rw [hor, hreg]
    rfl

/-! ## Static addresses -/

theorem getIfMissing_emits (h : Ready m P J M) (hc : Current m J M)
    (hv : v ≠ .none → Known v (read m a) J M) :
    Emits maps m P J M (getIfMissing v a) fun w J' M' => Known w (read m a) J' M' := by
  rw [getIfMissing]
  split_ifs with hnone
  · exact (getWord_emits h hc).imp fun _ _ _ _ hw => hw.1
  · exact .pure h (hv hnone)

theorem unaligned (ha : a &&& 7 ≠ 0) : 0 < a.toNat % 8 := by
  rw [← toNat_and_seven]
  by_contra hzero
  exact ha (BitVec.eq_of_toNat_eq (by simpa using hzero))

theorem eq_and_not_seven_add (a : Word) :
    a = (a &&& ~~~7#64) + BitVec.ofNat 64 (a.toNat % 8) := by
  have hand := toNat_and_not_seven a
  apply BitVec.eq_of_toNat_eq
  rw [BitVec.toNat_add, hand, BitVec.toNat_ofNat]
  omega

theorem read_lo (m : Memory) (ha : a &&& 7 ≠ 0) :
    read m a = read m (a &&& ~~~7#64) <<< (8 * (a.toNat % 8)) |||
      read m ((a &&& ~~~7#64) + 8) >>> (64 - 8 * (a.toNat % 8)) := by
  rw [← read_spanned m (a &&& ~~~7#64) (unaligned ha) (Nat.mod_lt _ (by omega)),
    ← eq_and_not_seven_add]

theorem getSpanned_emits (h : Ready m P J M) (hc : Current m J M)
    (hlive : J.flagsLive = false) (ha : a &&& 7 ≠ 0) :
    Emits maps m P J M (getSpanned a (a &&& ~~~7#64)) fun v J' M' => Known v (read m a) J' M' := by
  refine .cacheFind_bind h fun J₁ htouch₁ hkeep₁ => ?_
  refine .cacheFind_bind hkeep₁.ready fun J₂ htouch₂ hkeep₂ => ?_
  have hkeep := hkeep₁.trans hkeep₂
  have hlo : J.lookup (a &&& ~~~7#64) ≠ .none → Denotes M (J.lookup (a &&& ~~~7#64))
      (read m (a &&& ~~~7#64)) := fun hne => (h.lookup hne).2
  have hhi : J₁.lookup ((a &&& ~~~7#64) + 8) ≠ .none → Denotes M
      (J₁.lookup ((a &&& ~~~7#64) + 8)) (read m ((a &&& ~~~7#64) + 8)) :=
    fun hne => (hkeep₁.ready.lookup hne).2
  generalize J.lookup (a &&& ~~~7#64) = v at hlo ⊢
  generalize J₁.lookup ((a &&& ~~~7#64) + 8) = w at hhi ⊢
  split_ifs with hfound
  · refine .pinVal_bind hkeep.ready fun J₃ _ hkeep₃ hpin₃ => ?_
    refine .pinVal_bind hkeep₃.ready fun J₄ _ hkeep₄ hpin₄ => ?_
    have hkeep' := (hkeep.trans hkeep₃).trans hkeep₄
    have hv : v ≠ .none → Known v (read m (a &&& ~~~7#64)) J₄ M := fun hne =>
      ⟨hlo hne, fun s hs => hpin₄ s (Or.inl (hpin₃ s (Or.inr hs)))⟩
    have hw : w ≠ .none → Known w (read m ((a &&& ~~~7#64) + 8)) J₄ M := fun hne =>
      ⟨hhi hne, fun s hs => hpin₄ s (Or.inr hs)⟩
    have hready : Ready m (keeping P w) J₄ M := ⟨hkeep'.ready.toSound, fun s hs =>
      hs.elim (hkeep'.ready.pinned s) fun hs => hpin₄ s (Or.inr hs)⟩
    refine .bind_in (getIfMissing_emits hready (hkeep'.current hc) hv) subset_keeping
      fun v' J₅ M₅ hkeep₅ hv' => ?_
    have hready₅ := hkeep₅.ready.mono (subset_keeping (P := P) (v := w))
    have hcur₅ := hkeep₅.current (hkeep'.current hc)
    refine .bind_in (getIfMissing_emits (hready₅.keeping hv') hcur₅
      fun hne => hkeep₅.known_keeping (hw hne)) subset_keeping fun w' J₆ M₆ hkeep₆ hw' => ?_
    have hlive₆ := hkeep₆.live.trans (hkeep₅.live.trans (hkeep'.live.trans hlive))
    refine (putTogether_emits (hkeep₆.ready.mono subset_keeping) (hkeep₆.known_keeping hv')
      hw' hlive₆).imp fun _ _ _ _ hv => ?_
    rw [read_lo m ha]
    exact hv.1
  · exact (getWord_emits hkeep.ready (hkeep.current hc)).imp fun _ _ _ _ hv => hv.1

theorem getStatic_emits (h : Ready m P J M) (hc : Current m J M) (hlive : J.flagsLive = false) :
    Emits maps m P J M (getStatic a) fun v J' M' =>
      Known v (read m a) J' M' ∧ (a &&& 7 = 0 → J.lookup a ≠ .none → v = J.lookup a) := by
  rw [getStatic]
  split_ifs with hspan
  · exact (getSpanned_emits h hc hlive hspan.1).imp
      fun _ _ _ _ hv => ⟨hv, fun ha => absurd ha hspan.1⟩
  · exact (getWord_emits h hc).imp fun _ _ _ _ hv => ⟨hv.1, fun _ => hv.2.1⟩

end Translator
end SubleqEmu
