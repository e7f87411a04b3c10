import SubleqEmu.GeneratorReturns
import SubleqEmu.TranslatorHolding

/-!
# Registers to be had

How many registers the generators pin of the eleven that there are.  What the flush of a
store held back takes is set aside while there is one.
-/

namespace SubleqEmu
namespace Translator

open ByteMemory Subleq Emitter Machine

variable {J J' J'' : Cache} {a b : Word} {r s t : Reg} {v w : CVal} {n k : ℕ} {fl : T Unit}
  {left : Bool} {mask : Word}

def Cache.pins (J : Cache) : Finset Reg := Finset.univ.filter fun r => (J.regs r).pinned = true

@[simp] theorem mem_pins : r ∈ J.pins ↔ (J.regs r).pinned = true := by
  simp [Cache.pins]

theorem pins_eq (h : ∀ r, (J'.regs r).pinned = (J.regs r).pinned) : J'.pins = J.pins := by
  ext r
  rw [mem_pins, mem_pins, h]

theorem pins_pin : (J.pin r).pins = insert r J.pins := by
  ext s
  simp

theorem pins_unpin : (J.unpin r).pins = J.pins.erase r := by
  ext s
  simp

theorem pins_unpinAll : J.unpinAll.pins = ∅ := by
  ext s
  simp [Cache.unpinAll]

/-- Putting a register's pin back as it was. -/
theorem pins_restore {old : Bool} :
    (J.setReg r fun c => { c with pinned := old }).pins =
      if old then insert r J.pins else J.pins.erase r := by
  ext s
  rw [mem_pins, setReg_regs]
  by_cases heq : s = r <;> cases old <;> simp [heq]

theorem exists_not_pinned (h : J.pins.card < 11) : ∃ r, (J.regs r).pinned = false := by
  by_contra hall
  simp only [not_exists, Bool.not_eq_false] at hall
  have hcard : J.pins.card = 11 := by
    rw [Finset.eq_univ_iff_forall.mpr fun r => mem_pins.mpr (hall r), Finset.card_univ]
    exact Fintype.card_fin 11
  omega

theorem pick_isSome_of_best {best : Option Reg} {l : List Reg} (h : best.isSome = true) :
    (J.pick best l).isSome = true := by
  induction l generalizing best with
  | nil => exact h
  | cons r rest ih =>
      rw [Cache.pick.eq_def]
      simp only
      split_ifs
      · exact ih h
      · rfl
      · apply ih
        cases best with
        | none => rfl
        | some b =>
            simp only
            split_ifs <;> rfl

theorem pick_isSome (best : Option Reg) {l : List Reg} (hr : r ∈ l)
    (h : (J.regs r).pinned = false) : (J.pick best l).isSome = true := by
  induction l generalizing best with
  | nil => cases hr
  | cons s rest ih =>
      rw [Cache.pick.eq_def]
      simp only
      split_ifs with hpin
      · apply ih
        refine (List.mem_cons.mp hr).resolve_left fun heq => ?_
        rw [← heq, h] at hpin
        cases hpin
      · rfl
      · apply pick_isSome_of_best
        cases best with
        | none => rfl
        | some b =>
            simp only
            split_ifs <;> rfl

theorem exists_pick (h : J.pins.card < 11) :
    ∃ r, J.pick none (List.finRange 11) = some r ∧ r ∉ J.pins := by
  obtain ⟨s, hs⟩ := exists_not_pinned h
  obtain ⟨r, hr⟩ := Option.isSome_iff_exists.mp
    (pick_isSome none (List.mem_finRange s) hs)
  refine ⟨r, hr, fun hmem => ?_⟩
  have hout := pick_not_pinned (fun b hb => by cases hb) hr
  rw [mem_pins, hout] at hmem
  cases hmem

/-! ## Entries -/

/-- What a word is known as is the only thing it is known as. -/
def Unique (J : Cache) : Prop := ∀ a v w, Entry J a v → Entry J a w → v = w

theorem cacheable_of_lookup (h : J.lookup a ≠ .none) : cacheable a = true := by
  by_contra hnot
  exact h (by rw [Cache.lookup, if_pos (by simpa using hnot)])

theorem Unique.lookup_eq (h : Unique J) (hcache : cacheable a = true) (hv : Entry J a v) :
    J.lookup a = v :=
  h a _ _ (lookup_entry (lookup_ne_none hcache hv)) hv

theorem Unique.of_entries (h : Unique J) (hsub : ∀ a v, Entry J' a v → Entry J a v) : Unique J' :=
  fun a v w hv hw => h a v w (hsub a v hv) (hsub a w hw)

theorem lookup_forget (h : Unique J) (hr : ¬ Uses (J.lookup a) r) :
    (J.forget r).lookup a = J.lookup a := by
  have hunique : Unique (J.forget r) := h.of_entries fun _ _ hv => (entry_forget.mp hv).1
  by_cases hnone : J.lookup a = .none
  · rw [hnone]
    by_contra hfound
    have hv := (entry_forget.mp (lookup_entry hfound)).1
    exact lookup_ne_none (cacheable_of_lookup hfound) hv hnone
  · exact hunique.lookup_eq (cacheable_of_lookup hnone)
      (entry_forget.mpr ⟨lookup_entry hnone, hr⟩)

theorem lookup_forget_uses (h : Unique J) (hr : Uses (J.lookup a) r) :
    (J.forget r).lookup a = .none := by
  by_contra hfound
  obtain ⟨hv, hnot⟩ := entry_forget.mp (lookup_entry hfound)
  rw [← h.lookup_eq (cacheable_of_lookup hfound) hv] at hnot
  exact hnot hr

theorem unique_bindReg (h : Unique J) : Unique (J.bindReg r a) := by
  intro b v w hv hw
  rcases entry_bindReg hv with ⟨hv, hb⟩ | ⟨rfl, rfl, hcache⟩
  · rcases entry_bindReg hw with ⟨hw, -⟩ | ⟨rfl, rfl, hcache⟩
    · exact h b v w hv hw
    · exact absurd rfl (hb hcache)
  · rcases entry_bindReg hw with ⟨hw, hb⟩ | ⟨-, rfl, -⟩
    · exact absurd rfl (hb hcache)
    · rfl

theorem lookup_bindReg_self (h : Unique J) (hcache : cacheable a = true) :
    (J.bindReg r a).lookup a = .reg r :=
  (unique_bindReg h).lookup_eq hcache (entry_bindReg_self hcache)

theorem lookup_bindReg (h : Unique J) (hfree : (J.regs r).addr = none) (hb : b ≠ a) :
    (J.bindReg r a).lookup b = J.lookup b := by
  by_cases hnone : J.lookup b = .none
  · rw [hnone]
    by_contra hfound
    rcases entry_bindReg (lookup_entry hfound) with ⟨hv, -⟩ | ⟨heq, -⟩
    · exact lookup_ne_none (cacheable_of_lookup hfound) hv hnone
    · exact hb heq
  · refine (unique_bindReg h).lookup_eq (cacheable_of_lookup hnone)
      (entry_bindReg_of (lookup_entry hnone) hb fun haddr => ?_)
    rw [hfree] at haddr
    cases haddr

/-- Constants stay, and no word becomes a constant or a negation. -/
structure Fades (J J' : Cache) : Prop where
  const : ∀ a c, J'.lookup a = .const c ↔ J.lookup a = .const c
  neg : ∀ a r, J'.lookup a = .neg r → J.lookup a = .neg r

theorem Fades.of_lookup (h : ∀ a, J'.lookup a = J.lookup a) : Fades J J' :=
  ⟨fun a c => by rw [h], fun a r => by rw [h]; exact id⟩

theorem Fades.trans (h : Fades J J') (h' : Fades J' J'') : Fades J J'' :=
  ⟨fun a c => (h'.const a c).trans (h.const a c), fun a r hr => h.neg a r (h'.neg a r hr)⟩

theorem fades_forget (h : Unique J) (r : Reg) : Fades J (J.forget r) where
  const a c := by
    by_cases huse : Uses (J.lookup a) r
    · rw [lookup_forget_uses h huse]
      refine ⟨fun hc => (by cases hc), fun hc => ?_⟩
      rw [hc] at huse
      exact absurd huse not_uses_const
    · rw [lookup_forget h huse]
  neg a s hs := by
    by_cases huse : Uses (J.lookup a) r
    · rw [lookup_forget_uses h huse] at hs
      cases hs
    · rwa [lookup_forget h huse] at hs

theorem fades_bindReg (h : Unique J) (hfree : (J.regs r).addr = none)
    (ha : ∀ c, J.lookup a ≠ .const c) : Fades J (J.bindReg r a) := by
  by_cases hcache : cacheable a = true
  · have hself := @lookup_bindReg_self J a r h hcache
    refine ⟨fun b c => ?_, fun b s hs => ?_⟩
    · by_cases hb : b = a
      · rw [hb, hself]
        exact ⟨fun hc => (by cases hc), fun hc => absurd hc (ha c)⟩
      · rw [lookup_bindReg h hfree hb]
    · by_cases hb : b = a
      · rw [hb, hself] at hs
        cases hs
      · rwa [lookup_bindReg h hfree hb] at hs
  · have hsame : J.bindReg r a = J := by
      rw [Cache.bindReg, if_pos (by simpa using hcache)]
    rw [hsame]
    exact .of_lookup fun _ => rfl

/-- What is pinned stays, and keeps standing for nothing if it does. -/
structure Steady (J J' : Cache) : Prop where
  pins : J.pins ⊆ J'.pins
  movbe : J'.useMovbe = J.useMovbe
  unique : Unique J'
  fades : Fades J J'
  free : ∀ r ∈ J.pins, Free J r → Free J' r

namespace Steady

theorem same (h : SameEntries J J') (hunique : Unique J) (hpins : J.pins ⊆ J'.pins)
    (hmovbe : J'.useMovbe = J.useMovbe) : Steady J J' where
  pins := hpins
  movbe := hmovbe
  unique := hunique.of_entries fun _ _ hv => h.entry.mp hv
  fades := .of_lookup fun _ => h.lookup
  free _ _ hfree a v hv := hfree a v (h.entry.mp hv)

theorem refl (h : Unique J) : Steady J J :=
  ⟨subset_rfl, rfl, h, .of_lookup fun _ => rfl, fun _ _ hfree => hfree⟩

theorem trans (h : Steady J J') (h' : Steady J' J'') : Steady J J'' where
  pins := h.pins.trans h'.pins
  movbe := h'.movbe.trans h.movbe
  unique := h'.unique
  fades := h.fades.trans h'.fades
  free r hr hfree := h'.free r (h.pins hr) (h.free r hr hfree)

/-- Pins that were made on the way are let go of. -/
theorem then_same (h : Steady J J') (hsame : SameEntries J' J'') (hpins : J.pins ⊆ J''.pins)
    (hmovbe : J''.useMovbe = J'.useMovbe) : Steady J J'' where
  pins := hpins
  movbe := hmovbe.trans h.movbe
  unique := h.unique.of_entries fun _ _ hv => hsame.entry.mp hv
  fades := h.fades.trans (.of_lookup fun _ => hsame.lookup)
  free r hr hfree a v hv := h.free r hr hfree a v (hsame.entry.mp hv)

/-- A register that was not pinned caches a word. -/
theorem bindReg (h : Steady J J') (hout : r ∉ J.pins) (hfree : Free J' r)
    (ha : ∀ c, J'.lookup a ≠ .const c) : Steady J (J'.bindReg r a) where
  pins := h.pins.trans (pins_eq fun _ => bindReg_pinned).ge
  movbe := by
    rw [← h.movbe, Cache.bindReg]
    split_ifs <;> rfl
  unique := unique_bindReg h.unique
  fades := h.fades.trans (fades_bindReg h.unique (free_iff.mp hfree).1 ha)
  free s hs hfree' b v hv := by
    rcases entry_bindReg hv with ⟨hv, -⟩ | ⟨-, rfl, -⟩
    · exact h.free s hs hfree' b v hv
    · rw [uses_reg]
      rintro rfl
      exact hout hs

end Steady

theorem cacheFind_steady (a : Word) (h : Unique J) :
    ∃ J', Steady J J' ∧ J'.pend = J.pend ∧ J'.pins = J.pins ∧ (∀ b, J'.lookup b = J.lookup b) ∧
      cacheFind a J = some (J.lookup a, J', []) := by
  have htouch : ∀ r, Steady J (J.touch r) ∧ (J.touch r).pend = J.pend ∧
      (J.touch r).pins = J.pins ∧ ∀ b, (J.touch r).lookup b = J.lookup b := fun r =>
    have hpins : (J.touch r).pins = J.pins := pins_eq fun _ => touch_pinned
    ⟨.same sameEntries_touch h hpins.ge rfl, rfl, hpins, fun _ => sameEntries_touch.lookup⟩
  rw [cacheFind, getState_bind]
  cases J.lookup a with
  | reg r =>
      obtain ⟨hfree, hregs, hentries, hpinned⟩ := htouch r
      exact ⟨J.touch r, hfree, hregs, hentries, hpinned, rfl⟩
  | neg r =>
      obtain ⟨hfree, hregs, hentries, hpinned⟩ := htouch r
      exact ⟨J.touch r, hfree, hregs, hentries, hpinned, rfl⟩
  | none => exact ⟨J, .refl h, rfl, rfl, fun _ => rfl, rfl⟩
  | const _ => exact ⟨J, .refl h, rfl, rfl, fun _ => rfl, rfl⟩

/-! ## With nothing held back -/

/-- What was pinned still is, with at most `k` more; no word becomes known, and nothing is
held back. -/
structure Bare (J : Cache) (k : ℕ) (J' : Cache) : Prop extends Steady J J' where
  card : J'.pins.card ≤ J.pins.card + k
  unknown : ∀ a, J.lookup a = .none → J'.lookup a = .none
  pend : J'.pend = none

theorem flushHeld_none (h : J.pend = none) : flushHeld fl r J = some ((), J, []) := by
  rw [flushHeld, getState_bind, h]
  rfl

theorem Bare.refl (hunique : Unique J) (h : J.pend = none) : Bare J k J :=
  ⟨.refl hunique, Nat.le_add_right _ k, fun _ => id, h⟩

theorem Bare.trans {l : ℕ} (h : Bare J k J') (h' : Bare J' l J'') : Bare J (k + l) J'' where
  toSteady := h.toSteady.trans h'.toSteady
  card := by
    have hfirst := h.card
    have hsecond := h'.card
    omega
  unknown a ha := h'.unknown a (h.unknown a ha)
  pend := h'.pend

theorem Bare.mono {l : ℕ} (h : Bare J k J') (hle : k ≤ l) : Bare J l J' :=
  ⟨h.toSteady, h.card.trans (Nat.add_le_add_left hle _), h.unknown, h.pend⟩

theorem steady_pin (h : Unique J) (r : Reg) : Steady J (J.pin r) :=
  .same sameEntries_pin h (pins_pin ▸ Finset.subset_insert r J.pins) rfl

/-- A register that is taken, and forgotten. -/
theorem Steady.forget (h : Steady J J') (r : Reg) : Steady J (J'.forget r) where
  pins := h.pins.trans (pins_eq fun _ => forget_pinned).ge
  movbe := h.movbe
  unique := h.unique.of_entries fun _ _ hv => (entry_forget.mp hv).1
  fades := h.fades.trans (fades_forget h.unique r)
  free s hs hfree a v hv := h.free s hs hfree a v (entry_forget.mp hv).1

theorem lookup_forget_none (h : Unique J) (ha : J.lookup a = .none) :
    (J.forget r).lookup a = .none := by
  rw [lookup_forget h (by rw [ha]; exact not_uses_none), ha]

theorem scratch_bare (hunique : Unique J) (hpend : J.pend = none)
    (hcard : J.pins.card + 1 ≤ 11) :
    Returns (scratchWith fl) J fun r J' => r ∉ J.pins ∧ r ∈ J'.pins ∧ Bare J 1 J' := by
  obtain ⟨r, hpick, hout⟩ := exists_pick hcard
  apply Returns.get_bind
  rw [hpick]
  apply Returns.modify_bind
  apply Returns.bind (Q := fun _ J' => J' = (J.pin r).forget r)
  · exact .eq_bind (flushHeld_none (J := J.pin r) hpend) (.modify rfl)
  · rintro _ _ rfl
    have hpins : ((J.pin r).forget r).pins = insert r J.pins :=
      (pins_eq fun s => forget_pinned).trans pins_pin
    have hsteady := steady_pin hunique r
    refine .pure ⟨hout, ?_, hsteady.forget r, ?_, fun a ha => ?_, hpend⟩
    · simp [hpins]
    · rw [hpins]
      exact Finset.card_insert_le r J.pins
    · exact lookup_forget_none hsteady.unique (sameEntries_pin.lookup.trans ha)

/-- The register for an address that is not in reach of the displacement. -/
def far (a : Word) : ℕ := if fitsDisp a then 0 else 1

/-- The register that a store without `movbe` swaps in. -/
def swap (useMovbe : Bool) : ℕ := if useMovbe then 0 else 1

theorem targetOperand_bare (hunique : Unique J) (hpend : J.pend = none)
    (hcard : J.pins.card + far a ≤ 11) :
    Returns (targetOperand fl (.static a)) J fun _ J' => Bare J (far a) J' := by
  rw [targetOperand]
  unfold far at hcard ⊢
  split_ifs at hcard ⊢ with hfits
  · exact .pure (.refl hunique hpend)
  · exact .bind (scratch_bare hunique hpend hcard) fun _ _ ht => .emit_bind (.pure ht.2.2)

theorem storeReg_bare (hunique : Unique J) (hpend : J.pend = none)
    (hcard : J.pins.card + (far a + swap J.useMovbe) ≤ 11) :
    Returns (storeRegWith fl r (.static a)) J fun _ J' => Bare J (far a + swap J.useMovbe) J' := by
  apply Returns.bind (targetOperand_bare hunique hpend (by omega))
  intro op J₁ hop
  have hcard₁ := hop.card
  apply Returns.get_bind
  rw [← hop.movbe] at hcard ⊢
  unfold swap at hcard ⊢
  split_ifs at hcard ⊢ with hmovbe
  · exact .emit (hop.mono (by omega))
  · apply Returns.bind (scratch_bare hop.unique hop.pend (by omega))
    intro t J₂ ht
    exact .emit_bind (.emit_bind (.emit (hop.trans ht.2.2)))

/-- The registers that the store of a constant takes. -/
def constTakes (c a : Word) : ℕ := if immediate c (.static a) then 0 else 1 + far a

theorem storeConst_bare {c : Word} (hunique : Unique J) (hpend : J.pend = none)
    (hcard : J.pins.card + constTakes c a ≤ 11) :
    Returns (storeConstWith fl c (.static a)) J fun _ J' => Bare J (constTakes c a) J' := by
  unfold constTakes at hcard ⊢
  unfold storeConstWith
  split
  · exact .emit (.refl hunique hpend)
  · next himm =>
      have himm' : immediate c (.static a) = false := by
        by_contra htrue
        exact himm a rfl (by simpa using htrue)
      rw [himm', if_neg Bool.false_ne_true] at hcard ⊢
      apply Returns.bind (scratch_bare hunique hpend (by omega))
      intro t J₁ ht
      have hcard₁ := ht.2.2.card
      apply Returns.emit_bind
      apply Returns.bind (targetOperand_bare ht.2.2.unique ht.2.2.pend (by omega))
      intro op J₂ hop
      exact .emit (ht.2.2.trans hop)

theorem negate_returns (r : Reg) (J : Cache) : Returns (negate r) J fun _ J' => J' = J := by
  apply Returns.get_bind
  split_ifs
  · exact .emit rfl
  · exact .emit_bind (.emit rfl)

theorem sameEntries_restore {old : Bool} :
    SameEntries J (J.setReg r fun c => { c with pinned := old }) :=
  sameEntries_setReg (f := fun c => { c with pinned := old }) rfl

/-- A pin that was put back as it was before it was made. -/
theorem Bare.restore (hunique : Unique J) (h : Bare (J.pin r) k J') :
    Bare J k (J'.setReg r fun c => { c with pinned := (J.regs r).pinned }) where
  toSteady := by
    refine ((steady_pin hunique r).trans h.toSteady).then_same sameEntries_restore ?_ rfl
    have hpins := h.pins
    rw [pins_pin] at hpins
    rw [pins_restore]
    split_ifs with hold
    · exact ((Finset.subset_insert r _).trans hpins).trans (Finset.subset_insert r _)
    · intro s hs
      refine Finset.mem_erase.mpr ⟨?_, hpins (Finset.mem_insert_of_mem hs)⟩
      rintro rfl
      exact hold (mem_pins.mp hs)
  card := by
    have hcard := h.card
    have hr : r ∈ J'.pins := h.pins (pins_pin ▸ Finset.mem_insert_self r _)
    rw [pins_pin] at hcard
    rw [pins_restore]
    split_ifs with hold
    · rw [Finset.insert_eq_of_mem (mem_pins.mpr hold)] at hcard
      rwa [Finset.insert_eq_of_mem hr]
    · rw [Finset.card_insert_of_notMem fun hmem => hold (mem_pins.mp hmem)] at hcard
      rw [Finset.card_erase_of_mem hr]
      omega
  unknown a ha := sameEntries_restore.lookup.trans
    (h.unknown a (sameEntries_pin.lookup.trans ha))
  pend := h.pend

/-- A register taken in between that was let go again. -/
theorem Bare.unpin {l : ℕ} (h : Bare J k J') (hout : t ∉ J.pins) (hin : t ∈ J'.pins)
    (h' : Bare J' l J'') : Bare J (k + l - 1) (J''.unpin t) where
  toSteady := by
    refine (h.toSteady.trans h'.toSteady).then_same sameEntries_unpin (fun s hs => ?_) rfl
    rw [pins_unpin]
    refine Finset.mem_erase.mpr ⟨?_, h'.pins (h.pins hs)⟩
    rintro rfl
    exact hout hs
  card := by
    have hcard := (h.trans h').card
    rw [pins_unpin, Finset.card_erase_of_mem (h'.pins hin)]
    omega
  unknown a ha := sameEntries_unpin.lookup.trans ((h.trans h').unknown a ha)
  pend := h'.pend

/-- The registers that a flush takes, with those that it lets go of again. -/
def heldTakes (useMovbe : Bool) (a : Word) : CVal → ℕ
  | .const c => constTakes c a
  | .neg _ => 2 + (far a + swap useMovbe)
  | _ => if far a + swap useMovbe = 0 then 0 else 1 + (far a + swap useMovbe)

theorem card_pins_le : J.pins.card ≤ 11 := (Finset.card_le_univ J.pins).trans (by simp)

theorem storeHeld_bare (hunique : Unique J) (hpend : J.pend = none) (hv : v ≠ .none)
    (hcard : J.pins.card + heldTakes J.useMovbe a v ≤ 11) :
    Returns (storeHeld a v) J fun _ J' => Bare J (heldTakes J.useMovbe a v) J' := by
  have hpin : ∀ r, (J.pin r).pins.card ≤ J.pins.card + 1 := fun r => by
    rw [pins_pin]
    exact Finset.card_insert_le r J.pins
  cases v with
  | none => exact absurd rfl hv
  | const c => exact storeConst_bare hunique hpend hcard
  | reg r =>
      have hroom : (J.pin r).pins.card + (far a + swap (J.pin r).useMovbe) ≤ 11 := by
        have hle := hpin r
        have hall := @card_pins_le (J.pin r)
        have hmovbe : (J.pin r).useMovbe = J.useMovbe := rfl
        rw [hmovbe]
        simp only [heldTakes] at hcard
        split_ifs at hcard <;> omega
      apply Returns.get_bind
      apply Returns.modify_bind
      apply Returns.bind (storeReg_bare (steady_pin hunique r).unique hpend hroom)
      refine fun _ J' hstore => .modify ((hstore.restore hunique).mono ?_)
      have hmovbe : (J.pin r).useMovbe = J.useMovbe := rfl
      rw [hmovbe]
      simp only [heldTakes]
      split_ifs <;> omega
  | neg r =>
      have hroom := hpin r
      have hsteady := steady_pin hunique r
      simp only [heldTakes] at hcard
      apply Returns.get_bind
      apply Returns.modify_bind
      apply Returns.bind (Q := fun t J' => t ∉ (J.pin r).pins ∧ t ∈ J'.pins ∧
        Bare (J.pin r) 1 J')
      · apply Returns.modify_bind
        have hpins : ((J.pin r).pin r).pins = (J.pin r).pins := by
          rw [pins_pin, Finset.insert_eq_of_mem (by simp)]
        apply Returns.bind (scratch_bare (steady_pin hsteady.unique r).unique hpend
          (by rw [hpins]; omega))
        rintro t J₁ ⟨hout, hin, hbare⟩
        apply Returns.emit_bind
        apply Returns.bind (negate_returns t J₁)
        rintro _ _ rfl
        exact .pure ⟨hpins ▸ hout, hin, (steady_pin hsteady.unique r).trans hbare.toSteady,
          hpins ▸ hbare.card, fun a ha => hbare.unknown a (sameEntries_pin.lookup.trans ha),
          hbare.pend⟩
      · rintro t J₁ ⟨hout, hin, hbare⟩
        have hcard₁ := hbare.card
        have hmovbe : J₁.useMovbe = J.useMovbe := hbare.movbe
        apply Returns.bind (storeReg_bare hbare.unique hbare.pend (by rw [hmovbe]; omega))
        intro _ J₂ hstore
        rw [hmovbe] at hstore
        refine .modify_bind (.modify (((hbare.unpin hout hin hstore).restore hunique).mono ?_))
        simp only [heldTakes]
        omega

theorem flushPending_bare (hunique : Unique J) (hheld : J.pend = some a)
    (hfound : J.lookup a ≠ .none)
    (hcard : J.pins.card + heldTakes J.useMovbe a (J.lookup a) ≤ 11) :
    Returns flushPending J fun _ J' => Bare J (heldTakes J.useMovbe a (J.lookup a)) J' := by
  apply Returns.get_bind
  rw [hheld]
  apply Returns.modify_bind
  have hsame : SameEntries J { J with pend := none } := ⟨fun _ => rfl, rfl, rfl⟩
  have hsteady : Steady J { J with pend := none } := .same hsame hunique subset_rfl rfl
  obtain ⟨J₁, hsteady₁, hpend, hpins, hlookup, heq⟩ := cacheFind_steady a hsteady.unique
  have hpins₁ : J₁.pins = J.pins := hpins
  have hmovbe : J₁.useMovbe = J.useMovbe := hsteady₁.movbe
  have hstore := storeHeld_bare (v := J.lookup a) (a := a) hsteady₁.unique hpend hfound
    (by rwa [hpins₁, hmovbe])
  rw [hmovbe] at hstore
  refine .eq_bind heq (hstore.imp fun _ J' hbare => ?_)
  refine ⟨(hsteady.trans hsteady₁).trans hbare.toSteady, hpins₁ ▸ hbare.card, fun b hb => ?_,
    hbare.pend⟩
  exact hbare.unknown b ((hlookup b).trans (hsame.lookup.trans hb))

/-! ## With a store held back -/

/-- What is set aside for the flush. -/
def owed (J : Cache) : ℕ :=
  match J.pend with
  | none => 0
  | some a => heldTakes J.useMovbe a (J.lookup a)

theorem owed_none (h : J.pend = none) : owed J = 0 := by
  rw [owed, h]

theorem owed_some (h : J.pend = some a) : owed J = heldTakes J.useMovbe a (J.lookup a) := by
  rw [owed, h]

/-- The cache of a block between instructions: the store held back is to a cached word. -/
structure Sane (J : Cache) : Prop where
  held : ∀ a, J.pend = some a → J.lookup a ≠ .none
  unique : Unique J

/-- Room for `n` registers, beside those that a flush takes. -/
structure Room (J : Cache) (n : ℕ) : Prop extends Sane J where
  card : J.pins.card + n + owed J ≤ 11

/-- What was pinned still is, and there is room for `n` registers. -/
structure Leaving (J : Cache) (n : ℕ) (J' : Cache) : Prop extends Steady J J' where
  room : Room J' n
  pend : J'.pend = none ∨ J'.pend = J.pend

theorem Sound.sane {m : Memory} {M : State} (h : Sound m J M) : Sane J :=
  ⟨fun _ ha => h.lookup_pend ha, fun _ _ _ hv hw => h.unique hv hw⟩

theorem Room.mono (h : Room J n) (hle : k ≤ n) : Room J k where
  toSane := h.toSane
  card := by
    have hcard := h.card
    omega

theorem Leaving.refl (h : Room J n) : Leaving J n J := ⟨.refl h.unique, h, Or.inr rfl⟩

theorem Leaving.trans {l : ℕ} (h : Leaving J n J') (h' : Leaving J' l J'') : Leaving J l J'' where
  toSteady := h.toSteady.trans h'.toSteady
  room := h'.room
  pend := by
    rcases h'.pend with hnone | heq
    · exact Or.inl hnone
    · rw [heq]
      exact h.pend

theorem Leaving.mono (h : Leaving J n J') (hle : k ≤ n) : Leaving J k J' :=
  ⟨h.toSteady, h.room.mono hle, h.pend⟩

theorem Leaving.pend_eq_none (h : Leaving J n J') (hpend : J.pend = none) : J'.pend = none := by
  rcases h.pend with hnone | heq
  · exact hnone
  · rw [heq, hpend]

theorem Bare.leaving (h : Bare J k J') (hcard : J.pins.card + k + n ≤ 11) : Leaving J n J' where
  toSteady := h.toSteady
  room := {
    held := fun a ha => by
      rw [h.pend] at ha
      cases ha
    unique := h.unique
    card := by
      have hpins := h.card
      rw [owed_none h.pend]
      omega }
  pend := Or.inl h.pend

/-- Words are known as before, and so is what the flush takes. -/
theorem Steady.leaving (h : Steady J J') (hr : Room J n) (hpend : J'.pend = J.pend)
    (hlookup : ∀ a, J.pend = some a → J'.lookup a = J.lookup a)
    (hcard : J'.pins.card + k ≤ J.pins.card + n) : Leaving J k J' where
  toSteady := h
  room := {
    held := fun a ha => by
      rw [hpend] at ha
      rw [hlookup a ha]
      exact hr.held a ha
    unique := h.unique
    card := by
      have howed : owed J' = owed J := by
        cases hp : J.pend with
        | none => rw [owed_none hp, owed_none (hpend.trans hp)]
        | some a =>
            rw [owed_some hp, owed_some (hpend.trans hp), h.movbe, hlookup a hp]
      have hcard' := hr.card
      rw [howed]
      omega }
  pend := Or.inr hpend

theorem Room.cacheFind (h : Room J n) (a : Word) :
    ∃ J', Leaving J n J' ∧ J'.pend = J.pend ∧ (∀ b, J'.lookup b = J.lookup b) ∧
      cacheFind a J = some (J.lookup a, J', []) := by
  obtain ⟨J', hsteady, hpend, hpins, hlookup, heq⟩ := cacheFind_steady a h.unique
  exact ⟨J', hsteady.leaving h hpend (fun b _ => hlookup b) (by rw [hpins]), hpend, hlookup, heq⟩

theorem flushPending_returns (h : Room J n) :
    Returns flushPending J fun _ J' => Leaving J n J' ∧ J'.pend = none ∧
      ∀ a, J.lookup a = .none → J'.lookup a = .none := by
  have hcard := h.card
  cases hpend : J.pend with
  | none => exact ⟨(), J, [], flushPending_none hpend, .refl h, hpend, fun _ => id⟩
  | some a =>
      rw [owed_some hpend] at hcard
      apply (flushPending_bare h.unique hpend (h.held a hpend) (by omega)).imp
      exact fun _ J' hbare => ⟨hbare.leaving (by omega), hbare.pend, hbare.unknown⟩

theorem flushHeld_returns (h : Room J n) :
    Returns (flushHeld flushPending r) J fun _ J' => Leaving J n J' ∧
      ∀ a, J'.pend = some a → ¬ Uses (J'.lookup a) r := by
  have hcard := h.card
  apply Returns.get_bind
  cases hpend : J.pend with
  | none => exact .pure ⟨.refl h, fun a ha => by simp [hpend] at ha⟩
  | some a =>
      obtain ⟨J₁, hleave, hpend₁, hlookup, heq⟩ := h.cacheFind a
      refine .eq_bind heq (.onlyIf (fun huse => ?_) fun hnot => ⟨hleave, fun b hb => ?_⟩)
      · apply (flushPending_returns hleave.room).imp
        refine fun _ J' hflush => ⟨hleave.trans hflush.1, fun b hb => ?_⟩
        rw [hflush.2.1] at hb
        cases hb
      · rw [hpend₁, hpend] at hb
        obtain rfl := Option.some.inj hb
        rwa [hlookup]

/-- A register of the eleven that was not pinned. -/
structure Taken (J : Cache) (r : Reg) (J' : Cache) : Prop where
  out : r ∉ J.pins
  pinned : r ∈ J'.pins
  free : Free J' r

theorem scratch_returns (h : Room J (n + 1)) :
    Returns scratch J fun r J' => Leaving J n J' ∧ Taken J r J' := by
  have hcard := h.card
  obtain ⟨r, hpick, hout⟩ := exists_pick (J := J) (by omega)
  apply Returns.get_bind
  rw [hpick]
  apply Returns.modify_bind
  have hpins : (J.pin r).pins = insert r J.pins := pins_pin
  have hpin : Leaving J n (J.pin r) := (steady_pin h.unique r).leaving h rfl
    (fun _ _ => sameEntries_pin.lookup)
    (by rw [hpins, Finset.card_insert_of_notMem hout]; omega)
  have hin : r ∈ (J.pin r).pins := hpins ▸ Finset.mem_insert_self r J.pins
  apply Returns.bind (Q := fun _ J' => Leaving J n J' ∧ Taken J r J')
  · apply Returns.bind (flushHeld_returns hpin.room)
    rintro _ J₁ ⟨hleave, hnot⟩
    have hforget : (J₁.forget r).pins = J₁.pins := pins_eq fun s => forget_pinned
    have hlast : Leaving J₁ n (J₁.forget r) :=
      ((Steady.refl hleave.room.unique).forget r).leaving hleave.room rfl
        (fun a ha => lookup_forget hleave.room.unique (hnot a ha)) (by rw [hforget])
    exact .modify ⟨(hpin.trans hleave).trans hlast, hout, hforget ▸ hleave.pins hin, free_forget⟩
  · exact fun _ J' hres => .pure hres

end Translator
end SubleqEmu
