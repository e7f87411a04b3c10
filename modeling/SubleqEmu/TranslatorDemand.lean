import SubleqEmu.TranslatorAllocation
import SubleqEmu.TranslatorSoundness

/-!
# The registers that a block needs

An instruction whose demand is no more than the eleven registers is translated, from any
cache that the ones before it leave, so a block of such instructions is.
-/

namespace SubleqEmu
namespace Translator

open ByteMemory Subleq Emitter Machine
open CopyLoop (insnAt)

variable {src : Source} {J J' J'' J₀ : Cache} {a b p : Word} {r s t : Reg} {v w va vb : CVal}
  {f fa fb fc : Field} {n i k : ℕ} {res : Result} {rb rc : Option Reg}

/-! ## The instruction -/

/-- The result, with what a store of it needs. -/
structure ResultReady (J₀ J : Cache) (n : ℕ) (fa fb : Field) (res : Result) (J' : Cache) :
    Prop where
  leaving : Leaving J n J'
  pinned : Pinned res.value J'
  known : res.value ≠ .none
  const : ∀ c, res.value = .const c → res.unchanged = false ∧ (sameOperand fa fb ∨ ConstB J₀ fb)
  neg : ∀ r, res.value = .neg r → res.unchanged = false → ConstB J₀ fb ∧ Room J' (n + 1)

/-- What `result` takes. -/
def resultTakes (J : Cache) (fa fb fc : Field) : ℕ :=
  if sameOperand fa fb then fieldRest fc
  else fieldRest fc + regA J fa + (restB J fb + regB J fb) + restA J fa

theorem result_returns (h : Room J (n + resultTakes J₀ fa fb fc)) (hfa : Found src J₀ p fa J)
    (hfc : Pinned fc.cached J) (hrb : fb.dyn = false → rb = none)
    (hrb' : fb.dyn = true → ∃ r, rb = some r) :
    Returns (result p fa fb fc rb) J fun res J' => ResultReady J₀ J n fa fb res.1 J' := by
  unfold result
  unfold resultTakes at h
  by_cases hsame : sameOperand fa fb
  · rw [if_pos hsame] at h
    rw [if_pos (by simpa [sameOperand] using hsame)]
    apply Returns.bind (readC_returns h hfc)
    intro rc J₁ hleave
    exact .pure ⟨hleave, pinned_const, by simp, fun c _ => ⟨rfl, Or.inl hsame⟩,
      fun s hs => by cases hs⟩
  · rw [if_neg hsame, ← Nat.add_assoc] at h
    rw [if_neg (by simpa [sameOperand] using hsame)]
    apply Returns.bind (operandA_returns h hfa)
    rintro va J₁ ⟨hleave₁, hva, hne, htakes⟩
    have hroom₁ : Room J₁ (n + fieldRest fc + regA J₀ fa + restB J₀ fb + regB J₀ fb) :=
      hleave₁.room.mono (by omega)
    apply Returns.bind (operandB_returns hroom₁ (hfa.fades.trans hleave₁.fades) hrb hrb')
    intro vb J₂ hB
    have hva₂ := hva.steady hB.leaving.toSteady
    have hfc₂ := hfc.steady (hleave₁.toSteady.trans hB.leaving.toSteady)
    have hroom₂ : Room J₂ (n + regA J₀ fa + fieldRest fc) := hB.leaving.room.mono (by omega)
    have hplace₂ : Place (fb.dyn = false) J₂ (n + regA J₀ fa + fieldRest fc) vb :=
      hB.place.mono (by omega)
    apply Returns.bind (hplace₂.keep (Q := fun _ => True) hB.pinned hroom₂ fun l hl =>
      (readC_returns hl hfc₂).imp fun _ _ hleave => ⟨hleave, trivial⟩)
    rintro rc J₃ ⟨hleave₃, -, hplace₃⟩
    apply Returns.bind (hplace₃.keep (n := n + regA J₀ fa) (k := 0) (Q := fun _ => True)
      (hB.pinned.steady hleave₃.toSteady) hleave₃.room fun l hl =>
        (flushBefore_returns hl).imp fun _ _ hleave => ⟨hleave, trivial⟩)
    rintro _ J₄ ⟨hleave₄, -, hplace₄⟩
    have hsteady := hleave₃.toSteady.trans hleave₄.toSteady
    apply Returns.bind (compute_returns (n := n) (hleave₄.room.mono (by omega))
      (hva₂.steady hsteady) (hB.pinned.steady hsteady) hne hB.known (hplace₄.mono (by omega)))
    intro res J₅ hres
    refine .pure ⟨((hleave₁.trans hB.leaving).trans (hleave₃.trans hleave₄)).trans hres.leaving,
      hres.pinned, hres.known, fun c hc => ?_, fun s hs hun => ?_⟩
    · obtain ⟨hun, y, hy⟩ := hres.const c hc
      exact ⟨hun, Or.inr (hB.const y hy)⟩
    · obtain ⟨⟨y, hy⟩, hroom⟩ := hres.neg s hs hun
      exact ⟨hB.const y hy, hroom⟩

theorem storeResult_returns (h : ResultReady J₀ J n fa fb res J') (hn : storeTakes J₀ fa fb ≤ n)
    (hmovbe : J'.useMovbe = J₀.useMovbe) (hrb : fb.dyn = false → rb = none)
    (hrb' : fb.dyn = true → ∃ r, rb = some r) :
    Returns (storeResult fb.value rb res) J' fun v J'' => Sane J'' ∧
      ∀ w, v = some w → Plain w ∧ J''.pend = none := by
  have hroom := h.leaving.room
  unfold storeTakes at hn
  cases hdyn : fb.dyn with
  | true =>
      obtain ⟨r, rfl⟩ := hrb' hdyn
      rw [hdyn, if_pos rfl] at hn
      have hnot : ¬ ConstB J₀ fb := fun hB => by
        have hstatic := hB.1
        rw [hdyn] at hstatic
        cases hstatic
      apply Returns.bind (storeComputed_returns hroom h.pinned h.known fun hun => ?_)
      · exact fun _ J₁ hsane => .pure ⟨hsane, fun w hw => by cases hw⟩
      · cases hv : res.value with
        | none => exact absurd hv h.known
        | reg s => exact hroom.mono (by rw [hmovbe]; exact hn)
        | neg s => exact absurd (h.neg s hv hun).1 hnot
        | const c =>
            rcases (h.const c hv).2 with hsame | hB
            · have hstatic := hsame.2.1
              rw [hdyn] at hstatic
              cases hstatic
            · exact absurd hB hnot
  | false =>
      obtain rfl := hrb hdyn
      unfold storeResult
      split_ifs with hcache
      · apply Returns.bind (storeHeldBack_returns hroom hcache h.known fun c hc => (h.const c hc).1)
        exact fun _ J₁ hsane => .pure ⟨hsane, fun w hw => by cases hw⟩
      · apply storeUncached_returns hroom h.pinned h.known
        intro hun
        rw [hdyn, if_neg Bool.false_ne_true, if_neg hcache] at hn
        have hswap : swap J₀.useMovbe ≤ 1 := by
          unfold swap
          split_ifs <;> omega
        have hpair : ConstB J₀ fb → spansCacheable fb.value ∧ constPair J₀ fb.value :=
          fun hB => hB.2.resolve_left hcache
        rw [hmovbe]
        cases hv : res.value with
        | none => exact absurd hv h.known
        | reg s =>
            apply hroom.mono
            show swap J₀.useMovbe + far fb.value ≤ n
            split_ifs at hn <;> omega
        | neg s =>
            obtain ⟨hB, hmore⟩ := h.neg s hv hun
            rw [if_pos (Or.inr (hpair hB))] at hn
            apply hmore.mono
            show swap J₀.useMovbe + far fb.value + 1 ≤ n + 1
            omega
        | const c =>
            rw [if_pos ((h.const c hv).2.imp_right hpair)] at hn
            exact hroom.mono hn

theorem snapPending_sane (h : Sane J) :
    Returns snapPending J fun _ J' => Sane J' ∧ J'.pend = J.pend := by
  apply Returns.get_bind
  cases hp : J.pend with
  | none => exact .pure ⟨h, hp⟩
  | some a =>
      obtain ⟨J', hsteady, hpend, -, hlookup, heq⟩ := cacheFind_steady a h.unique
      refine .eq_bind heq (.pure ⟨⟨fun b hb => ?_, hsteady.unique⟩, hpend.trans hp⟩)
      rw [hlookup]
      exact h.held b (hpend.symm.trans hb)

theorem branchTo_returns {taken : Option Bool} (h : Sane J) :
    Returns (branchTo i p fc rc taken) J fun _ J' => Sane J' ∧ J'.pend = J.pend := by
  unfold branchTo
  split_ifs
  · apply Returns.bind (snapPending_sane h)
    exact fun _ J₁ hsane => .emit_bind (.pure hsane)
  · apply Returns.bind (snapPending_sane h)
    exact fun _ J₁ hsane => .emit_bind (.pure hsane)
  · exact .pure ⟨h, rfl⟩

/-! ## The whole of it -/

theorem Room.live {live : Bool} (h : Room J n) : Room { J with flagsLive := live } n :=
  ⟨⟨h.held, h.unique⟩, h.card⟩

theorem Leaving.live {live : Bool} (h : Leaving J n J') :
    Leaving J n { J' with flagsLive := live } where
  toSteady := h.toSteady.then_same ⟨fun _ => rfl, rfl, rfl⟩ h.pins rfl
  room := h.room.live
  pend := h.pend

theorem ResultReady.live (h : ResultReady J₀ J n fa fb res J') (live : Bool) :
    ResultReady J₀ J n fa fb res { J' with flagsLive := live } where
  leaving := h.leaving.live
  pinned := h.pinned
  known := h.known
  const := h.const
  neg s hs hun := ⟨(h.neg s hs hun).1, (h.neg s hs hun).2.live⟩

theorem updateAfter_returns {ended : Bool} {spanned : Option CVal} (h : Sane J)
    (hspanned : ∀ w, spanned = some w → Plain w ∧ J.pend = none) :
    Returns (updateAfter b ended spanned) J fun _ J' => Sane J' := by
  cases spanned with
  | none => exact .pure h
  | some v =>
      obtain ⟨hplain, hpend⟩ := hspanned v rfl
      apply Returns.onlyIf
      · exact fun _ => (updateSpanned_returns h hpend hplain).imp fun _ _ hres => hres.1
      · exact fun _ => h

/-- The demand, field by field. -/
theorem operandTakes_split (J : Cache) (fa fb fc : Field) :
    ∃ c, (if sameOperand fa fb then 0 else operandTakesA J fa + operandTakesB J fb) =
        fieldTakes fa + fieldTakes fb + c ∧
      resultTakes J fa fb fc = fieldRest fc + c + fieldRest fa ∧ (fb.dyn = true → 2 ≤ c) := by
  have htakes : ∀ f : Field, f.dyn = false → fieldTakes f = 0 ∧ fieldRest f = 0 := fun f hf => by
    simp [fieldTakes, fieldRest, hf]
  unfold resultTakes
  split_ifs with hsame
  · obtain ⟨ha, hb, -⟩ := hsame
    refine ⟨0, ?_, ?_, fun hdyn => ?_⟩
    · rw [(htakes fa ha).1, (htakes fb hb).1]
    · rw [(htakes fa ha).2]
      rfl
    · rw [hb] at hdyn
      cases hdyn
  · refine ⟨(if fa.dyn then 1 else staticTakes J fa.value + staticReg J fa.value) +
      (restB J fb + regB J fb), ?_, ?_, fun hdyn => ?_⟩
    · unfold operandTakesA operandTakesB restB regB
      cases hdyna : fa.dyn <;> cases hdynb : fb.dyn <;> simp [htakes, hdyna, hdynb] <;> omega
    · unfold restA regA
      cases hdyna : fa.dyn <;> simp [htakes, hdyna] <;> omega
    · simp only [restB, regB, hdyn, if_true]
      omega

theorem translateInsn_returns (hs : Sane J) (h : insnTakes src J p ≤ 11) :
    Returns (translateInsn src i p) J fun _ J' => Sane J' := by
  apply Returns.modify_bind
  generalize hJ₀ : J.unpinAll = J₀
  have hsame : SameEntries J J₀ := hJ₀ ▸ sameEntries_unpinAll
  have hdemand : insnTakes src J₀ p ≤ 11 := hJ₀ ▸ h
  have hpins : J₀.pins = ∅ := hJ₀ ▸ pins_unpinAll
  have hsane : Sane J₀ := by
    subst hJ₀
    exact ⟨hs.held, hs.unique⟩
  clear hJ₀ hsame h hs
  unfold insnTakes at hdemand
  simp only at hdemand
  generalize hfa : fieldOf src J₀ p = fa at hdemand
  generalize hfb : fieldOf src J₀ (p + 8) = fb at hdemand
  generalize hfc : fieldOf src J₀ (p + 16) = fc at hdemand
  obtain ⟨c, hsplit, hresult, htwo⟩ := operandTakes_split J₀ fa fb fc
  rw [hsplit] at hdemand
  have hroom : Room J₀ (fieldTakes fb + c + fieldTakes fc + storeTakes J₀ fa fb + fieldTakes fa) :=
    ⟨hsane, by rw [hpins, Finset.card_empty]; omega⟩
  -- the fields, which the cache knows as before
  refine Returns.bind (field_returns (by rw [hfa]; exact hroom)) ?_
  rintro _ J₁ ⟨rfl, hleave₁, hpin₁, hlookup₁⟩
  rw [hfa] at hleave₁ hpin₁
  have hfb₁ : fieldOf src J₁ (p + 8) = fb := (fieldOf_congr (hlookup₁ _)).trans hfb
  have hroom₁ : Room J₁ (fieldRest fa + c + fieldTakes fc + storeTakes J₀ fa fb + fieldTakes fb) :=
    hleave₁.room.mono (by omega)
  refine Returns.bind (field_returns (by rw [hfb₁]; exact hroom₁)) ?_
  rintro _ J₂ ⟨rfl, hleave₂, hpin₂, hlookup₂⟩
  rw [hfb₁] at hleave₂ hpin₂
  have hfc₂ : fieldOf src J₂ (p + 16) = fc :=
    (fieldOf_congr ((hlookup₂ _).trans (hlookup₁ _))).trans hfc
  have hroom₂ : Room J₂ (fieldRest fa + c + fieldRest fb + storeTakes J₀ fa fb + fieldTakes fc) :=
    hleave₂.room.mono (by omega)
  refine Returns.bind (field_returns (by rw [hfc₂]; exact hroom₂)) ?_
  rintro _ J₃ ⟨rfl, hleave₃, hpin₃, -⟩
  rw [hfc₂] at hleave₃ hpin₃
  have hsteady₂ := hleave₁.toSteady.trans hleave₂.toSteady
  have hsteady₃ := hsteady₂.trans hleave₃.toSteady
  have hroom₃ : Room J₃ (fieldRest fa + c + fieldRest fc + storeTakes J₀ fa fb + fieldRest fb) :=
    hleave₃.room.mono (by omega)
  have hfoundb : Found src J₀ (p + 8) fb J₃ :=
    ⟨hfb.symm, hpin₂.steady hleave₃.toSteady, hsteady₃.fades⟩
  rw [hfa, hfb₁, hfc₂]
  -- the check of the target
  apply Returns.bind (checkTarget_returns src i hroom₃ (fun hdyn => by
    have hle := htwo hdyn
    omega) hfoundb)
  rintro rb J₄ ⟨hleave₄, hstatic, hdynamic⟩
  have hsteady₄ := hsteady₃.trans hleave₄.toSteady
  have hfounda : Found src J₀ p fa J₄ :=
    ⟨hfa.symm, hpin₁.steady ((hleave₂.toSteady.trans hleave₃.toSteady).trans hleave₄.toSteady),
      hsteady₄.fades⟩
  have hrb : fb.dyn = true → ∃ r, rb = some r := fun hdyn =>
    (hdynamic hdyn).imp fun _ hr => hr.1
  -- the result and its store
  have hroom₄ : Room J₄ (storeTakes J₀ fa fb + resultTakes J₀ fa fb fc) :=
    hleave₄.room.mono (by omega)
  apply Returns.bind (result_returns hroom₄ hfounda (hpin₃.steady hleave₄.toSteady) hstatic hrb)
  rintro ⟨res, rc⟩ J₅ hready
  apply Returns.modify_bind
  have hmovbe := (hsteady₄.trans hready.leaving.toSteady).movbe
  apply Returns.bind (storeResult_returns (hready.live _) (Nat.le_refl _) (by exact hmovbe)
    hstatic hrb)
  rintro spanned J₆ ⟨hsane₆, hspanned⟩
  apply Returns.modify_bind
  have hsane₇ : Sane { J₆ with flagsLive := false } := ⟨hsane₆.held, hsane₆.unique⟩
  apply Returns.bind (branchTo_returns hsane₇)
  rintro ended J₈ ⟨hsane₈, hpend₈⟩
  apply Returns.bind (updateAfter_returns hsane₈ fun w hw =>
    ⟨(hspanned w hw).1, hpend₈.trans (hspanned w hw).2⟩)
  exact fun _ J₉ hsane₉ => .pure hsane₉

/-! ## Blocks -/

theorem sane_start (useMovbe : Bool) (lruClock constNext aliasNext : BitVec 32) :
    Sane (Cache.start useMovbe lruClock constNext aliasNext) := by
  refine .of_pend (fun a v w hv _ => ?_) rfl
  cases v <;> simp [Entry, Cache.start] at hv

/-- The caches that the instructions of a block start from. -/
def Before (src : Source) (start : Word) (J₀ : Cache) (k : ℕ) (J : Cache) : Prop :=
  ∃ c, translateInsns src start 0 k J₀ = some ((k, false), J, c)

/-- From the `i`-th instruction on, where the ones before it were translated. -/
theorem translateInsns_returns {start : Word} (hs : Sane J) (k : ℕ)
    (h : ∀ j < k, ∀ J', (∃ c, translateInsns src start i j J = some ((i + j, false), J', c)) →
      insnTakes src J' (insnAt start (i + j)) ≤ 11) :
    Returns (translateInsns src start i k) J fun _ J' => Sane J' := by
  induction k generalizing i J with
  | zero => exact .pure hs
  | succ k ih =>
      obtain ⟨ended, J₁, c₁, heq, hsane⟩ := translateInsn_returns (i := i) hs
        (h 0 (Nat.succ_pos k) J ⟨[], rfl⟩)
      refine .eq_bind heq ?_
      cases ended with
      | true => exact .pure hsane
      | false =>
          refine ih hsane fun j hj J' hbefore => ?_
          obtain ⟨c, hc⟩ := hbefore
          have hnext := h (j + 1) (by omega) J'
          rw [← Nat.add_assoc, Nat.add_right_comm] at hnext
          exact hnext ⟨c₁ ++ c, bind_eq_some.mpr ⟨false, J₁, c₁, c, heq, hc, rfl⟩⟩

theorem translateBody_isSome (src : Source) (start : Word) (useMovbe : Bool)
    (lruClock constNext aliasNext : BitVec 32) (n : ℕ)
    (h : ∀ k < n, ∀ J, Before src start (.start useMovbe lruClock constNext aliasNext) k J →
      insnTakes src J (insnAt start k) ≤ 11) :
    (translateBody src start n (.start useMovbe lruClock constNext aliasNext)).isSome = true := by
  have hreturns : Returns (translateBody src start n)
      (.start useMovbe lruClock constNext aliasNext) fun _ _ => True := by
    refine .bind (translateInsns_returns (i := 0) (sane_start _ _ _ _) n fun j hj J hbefore => ?_)
      fun r J' hsane => ?_
    · rw [Nat.zero_add] at hbefore ⊢
      exact h j hj J hbefore
    · apply Returns.bind (Q := fun _ _ => True)
      · apply Returns.onlyIf
        · intro _
          apply Returns.bind (snapPending_sane hsane)
          exact fun _ _ _ => .emit trivial
        · exact fun _ => trivial
      · exact fun _ _ _ => .pure trivial
  obtain ⟨r, J', c, heq, -⟩ := hreturns
  rw [heq, Option.isSome_some]

/-- A and B as `get_static` finds them in one word each. -/
structure PlainOperands (src : Source) (p : Word) : Prop where
  static : src.dynamic p = false
  static' : src.dynamic (p + 8) = false
  aligned : src.raw p &&& 7 = 0
  aligned' : src.raw (p + 8) &&& 7 = 0

theorem far_of_not_cacheable (ha : a &&& 7 = 0) (h : cacheable a = false) : far a = 0 := by
  have hbelow : a < hwHi := by
    simp only [cacheable, ha, decide_true, Bool.true_and, Bool.or_eq_false_iff,
      decide_eq_false_iff_not] at h
    exact BitVec.not_le.mp h.2
  have hfits : fitsDisp a = true := by
    rw [fitsDisp, decide_eq_true_eq]
    exact BitVec.lt_trans hbelow (by decide)
  rw [far, if_pos hfits]

theorem fieldTakes_le (f : Field) : fieldTakes f ≤ 2 := by
  unfold fieldTakes
  split_ifs
  · split <;> omega
  · omega

theorem insnTakes_le (h : PlainOperands src p) (J : Cache) : insnTakes src J p ≤ 11 := by
  have hfield : ∀ q, src.dynamic q = false → fieldOf src J q = ⟨false, src.raw q, .none⟩ :=
    fun q hq => by rw [fieldOf, hq, if_neg Bool.false_ne_true]
  have hfa := hfield p h.static
  have hfb := hfield (p + 8) h.static'
  have hspans : ∀ {a : Word}, a &&& 7 = 0 → ¬ spansCacheable a := fun ha hspan => hspan.1 ha
  have hA : operandTakesA J ⟨false, src.raw p, .none⟩ ≤ 2 := by
    simp only [operandTakesA, Bool.false_eq_true, if_false, staticTakes, staticReg,
      if_neg (hspans h.aligned)]
    cases J.lookup (src.raw p) <;> simp [valueTakes, regTakes]
  have hB : operandTakesB J ⟨false, src.raw (p + 8), .none⟩ ≤ 2 := by
    have hdest : staticDest J (src.raw (p + 8)) ≤ 1 := by
      unfold staticDest
      split_ifs <;> omega
    simp only [operandTakesB, Bool.false_eq_true, if_false, staticTakes,
      if_neg (hspans h.aligned')]
    cases J.lookup (src.raw (p + 8)) <;> simp only [valueTakes] <;> omega
  have hC := fieldTakes_le (fieldOf src J (p + 16))
  have howed := owed_le J
  have hstore : storeTakes J ⟨false, src.raw p, .none⟩ ⟨false, src.raw (p + 8), .none⟩ ≤ 1 := by
    simp only [storeTakes, Bool.false_eq_true, if_false]
    split_ifs with hcache
    · exact Nat.zero_le 1
    · rw [far_of_not_cacheable h.aligned' (by simpa using hcache)]
    · rw [far_of_not_cacheable h.aligned' (by simpa using hcache)]
      unfold swap
      split_ifs <;> omega
  unfold insnTakes
  simp only [hfa, hfb]
  split_ifs <;> omega

/-! ### The first instruction of a block -/

section FirstInstruction

variable {u : Bool} {l c a : BitVec 32} {fa fb f : Field}

end FirstInstruction

/-- Nine instructions.  Four words are known as negations of four registers when the last
one, with both its operands unaligned, puts these together from the four. -/
def crowdedSource : Source where
  size := sampleSource.size
  raw := read (applyStores (fun _ => 0) ((List.zipIdx
    [(0x2000, 0x2000), (0x3000, 0x2000), (0x2008, 0x2008), (0x3008, 0x2008), (0x2010, 0x2010),
      (0x3010, 0x2010), (0x2018, 0x2018), (0x3018, 0x2018), (0x2003, 0x2013)]).flatMap fun e =>
    [(insnAt 0x1000 e.2, e.1.1), (insnAt 0x1000 e.2 + 8, e.1.2),
      (insnAt 0x1000 e.2 + 16, insnAt 0x1000 (e.2 + 1))]))
  dynamic _ := false
  hoist := []

/-- A block is translated where no instruction of it needs more registers than there are, by
what the cache knows before it: so where A and B are static and aligned.  There are blocks
that need more. -/
theorem translateBody_finds_registers :
    (∀ (src : Source) (start : Word) (useMovbe : Bool) (lruClock constNext aliasNext : BitVec 32)
      (n : ℕ), (∀ k < n, ∀ J,
        Before src start (.start useMovbe lruClock constNext aliasNext) k J →
          insnTakes src J (insnAt start k) ≤ 11) →
      (translateBody src start n (.start useMovbe lruClock constNext aliasNext)).isSome = true) ∧
    (∀ (src : Source) (start : Word) (useMovbe : Bool) (lruClock constNext aliasNext : BitVec 32)
      (n : ℕ), (∀ k < n, PlainOperands src (insnAt start k)) →
      (translateBody src start n (.start useMovbe lruClock constNext aliasNext)).isSome = true) ∧
    translateBody crowdedSource 0x1000 9 (.start true 0 0 0) = none := by
  refine ⟨translateBody_isSome, fun src start useMovbe lruClock constNext aliasNext n h => ?_, ?_⟩
  · apply translateBody_isSome
    exact fun k hk J _ => insnTakes_le (h k hk) J
  · have hfails : (translateBody crowdedSource 0x1000 9 (.start true 0 0 0)).isSome = false := by
      decide +kernel
    simpa using hfails

/-- The crowded block without its last instruction. -/
theorem translateBody_finds_registers_sample :
    (translateBody crowdedSource 0x1000 8 (.start true 0 0 0)).isSome = true ∧
      (translateBody sampleSource 0x1000 2 (.start true 0 0 0)).isSome = true := by
  obtain ⟨hdemand, hplain, -⟩ := translateBody_finds_registers
  constructor
  · have htakes : ∀ k < 8, (translateInsns crowdedSource 0x1000 0 k (.start true 0 0 0)).all
        fun r => insnTakes crowdedSource r.2.1 (insnAt 0x1000 k) ≤ 11 := by
      decide +kernel
    refine hdemand crowdedSource 0x1000 true 0 0 0 8 fun k hk J hbefore => ?_
    obtain ⟨c, hc⟩ := hbefore
    have hhere := htakes k hk
    rw [hc] at hhere
    exact of_decide_eq_true hhere
  · have hplains : ∀ k < 2, sampleSource.dynamic (insnAt 0x1000 k) = false ∧
        sampleSource.dynamic (insnAt 0x1000 k + 8) = false ∧
        sampleSource.raw (insnAt 0x1000 k) &&& 7 = 0 ∧
        sampleSource.raw (insnAt 0x1000 k + 8) &&& 7 = 0 := by
      decide +kernel
    refine hplain sampleSource 0x1000 true 0 0 0 2 fun k hk => ?_
    obtain ⟨hstatic, hstatic', haligned, haligned'⟩ := hplains k hk
    exact ⟨hstatic, hstatic', haligned, haligned'⟩

end Translator
end SubleqEmu
