import SubleqEmu.TranslatorSoundness
import SubleqEmu.TranslatorTakes

/-!
# Unaligned words

`get_static` and `update_spanned` find the registers that they need, so what they put
together is what memory has.
-/

namespace SubleqEmu
namespace Translator

open ByteMemory Subleq Emitter Machine

variable {maps : Maps} {m : Memory} {P : Set Reg} {J J' J'' : Cache} {M M' : State}
  {a b : Word} {r s t : Reg} {v w part : CVal} {x y z mask : Word} {n k : ℕ} {left : Bool}

/-! ## Words put together after a store -/

theorem shiftedPlain_returns (h : Room J (n + 1)) (hv : Pinned v J) (hplain : Plain v) :
    Returns (shifted v left k) J fun w J' => Leaving J n J' ∧ Pinned w J' ∧ Plain w := by
  have htakes : shiftTakes v ≤ 1 := by
    obtain ⟨c, rfl⟩ | ⟨s, rfl⟩ := hplain <;> simp [shiftTakes]
  have hne : v ≠ .none := by
    obtain ⟨c, rfl⟩ | ⟨s, rfl⟩ := hplain <;> simp
  apply (shifted_returns (n := n) (h.mono (by omega)) hv hne).imp
  exact fun w J' ⟨hleave, hmade, _⟩ => ⟨hleave, hmade.pinned, hmade.plain⟩

theorem maskedOr_returns (h : Room J (n + 3)) (hw : Pinned w J) (hpart : Pinned part J)
    (hne : w ≠ .none) (hplain : Plain part) :
    Returns (maskedOr w mask part) J fun w' J' => Leaving J (n + 1) J' ∧ Plain w' := by
  have hpart' : part ≠ .none := by
    obtain ⟨c, rfl⟩ | ⟨s, rfl⟩ := hplain <;> simp
  have hreg : Returns (do
      let s ← toReg w
      let r ← scratch
      emit (.mov r s)
      andImm64 r mask
      orVal r part
      return .reg r) J fun w' J' => Leaving J (n + 1) J' ∧ Plain w' := by
    have hle : regTakes w ≤ 1 := by
      cases w <;> simp [regTakes]
    apply Returns.bind (toReg_returns (n := n + 2) (h.mono (by omega)) hw hne)
    rintro t J₁ ⟨hleave₁, -⟩
    apply Returns.bind (scratch_returns (n := n + 1) hleave₁.room)
    rintro r J₂ ⟨hleave₂, -⟩
    apply Returns.emit_bind
    apply Returns.bind (andImm64_returns hleave₂.room)
    intro _ J₃ hleave₃
    have hleave := (hleave₁.trans hleave₂).trans hleave₃
    apply Returns.bind (orVal_returns hleave₃.room (hpart.steady hleave.toSteady) hpart')
    exact fun _ J₄ hleave₄ => .pure ⟨hleave.trans hleave₄, Or.inr ⟨r, rfl⟩⟩
  cases w with
  | const c =>
      obtain ⟨d, rfl⟩ | ⟨s, rfl⟩ := hplain
      · exact .pure ⟨.refl (h.mono (by omega)), Or.inl ⟨_, rfl⟩⟩
      · have hmasked : maskedOr (.const c) mask (.reg s) =
            if c &&& mask = 0 then pure (.reg s)
            else (do
              let r ← scratch
              emit (.movImm r (c &&& mask))
              orVal r (.reg s)
              return .reg r) := rfl
        rw [hmasked]
        split_ifs
        · exact .pure ⟨.refl (h.mono (by omega)), Or.inr ⟨s, rfl⟩⟩
        · apply Returns.bind (scratch_returns (n := n + 2) h)
          rintro r J₁ ⟨hleave, -⟩
          apply Returns.emit_bind
          apply Returns.bind (orReg_returns r s J₁)
          rintro _ _ rfl
          exact .pure ⟨hleave.mono (by omega), Or.inr ⟨r, rfl⟩⟩
  | _ => exact hreg

theorem unique_setConst {c : Word} (h : Unique J) : Unique (J.setConst a c) := by
  intro b v w hv hw
  rcases entry_setConst hv with ⟨hv, hb⟩ | ⟨rfl, rfl, -⟩
  · rcases entry_setConst hw with ⟨hw, -⟩ | ⟨rfl, -⟩
    · exact h b v w hv hw
    · exact absurd rfl hb
  · rcases entry_setConst hw with ⟨-, hb⟩ | ⟨-, rfl, -⟩
    · exact absurd rfl hb
    · rfl

/-- With nothing held back the cache may change as it likes. -/
theorem Room.of_pins (h : Room J n) (hpend : J.pend = none) (hunique : Unique J')
    (hpin : ∀ r, (J'.regs r).pinned = (J.regs r).pinned) (heq : J'.pend = J.pend) :
    Room J' n where
  held b hb := by
    rw [heq, hpend] at hb
    cases hb
  unique := hunique
  card := by
    have hcard := h.card
    rw [pins_eq hpin, owed_none (heq.trans hpend)]
    omega

theorem rebind_returns (hplain : Plain v) (hpend : J.pend = none) (h : Room J n) :
    Returns (rebind a v) J fun _ J' => Room J' n ∧ J.pins ⊆ J'.pins ∧ J'.pend = none := by
  obtain ⟨c, rfl⟩ | ⟨r, rfl⟩ := hplain
  · have hpins : (J.setConst a c).pins = J.pins := pins_eq fun _ => setConst_pinned
    exact .modify ⟨h.of_pins hpend (unique_setConst h.unique) (fun _ => setConst_pinned)
      setConst_pend, hpins.ge, setConst_pend.trans hpend⟩
  · have hpins : (J.bindReg r a).pins = J.pins := pins_eq fun _ => bindReg_pinned
    exact .modify ⟨h.of_pins hpend (unique_bindReg h.unique) (fun _ => bindReg_pinned)
      bindReg_pend, hpins.ge, bindReg_pend.trans hpend⟩

theorem updateWord_returns (h : Room J (n + 4)) (hpend : J.pend = none) (hw : Pinned w J)
    (hv : Pinned v J) (hplain : Plain v) :
    Returns (updateWord a w mask v left k) J fun _ J' =>
      Room J' (n + 1) ∧ J.pins ⊆ J'.pins ∧ J'.pend = none := by
  apply Returns.onlyIf
  · intro hne
    apply Returns.bind (shiftedPlain_returns (n := n + 3) h hv hplain)
    rintro part J₁ ⟨hleave₁, hpart, hpartPlain⟩
    apply Returns.bind (maskedOr_returns (n := n) hleave₁.room (hw.steady hleave₁.toSteady) hpart
      hne hpartPlain)
    rintro new J₂ ⟨hleave₂, hnew⟩
    have hleave := hleave₁.trans hleave₂
    apply (rebind_returns hnew (hleave.pend_eq_none hpend) hleave.room).imp
    exact fun _ J₃ ⟨hroom, hpins, hnone⟩ => ⟨hroom, hleave.pins.trans hpins, hnone⟩
  · exact fun _ => ⟨h.mono (by omega), subset_rfl, hpend⟩

/-- The pins of the instruction are let go before, so there are registers enough. -/
theorem updateSpanned_returns (hsane : Sane J) (hpend : J.pend = none) (hplain : Plain v) :
    Returns (updateSpanned b v) J fun _ J' => Sane J' ∧ J'.pend = none := by
  have hone : ∀ v, valueTakes v ≤ 1 := fun v => by
    cases v <;> simp [valueTakes]
  have hnone : J.unpinAll.pend = none := hpend
  have hroom : Room J.unpinAll 11 := {
    held := fun a ha => by
      rw [hnone] at ha
      cases ha
    unique := hsane.unique.of_entries fun _ _ hv => sameEntries_unpinAll.entry.mp hv
    card := by
      rw [pins_unpinAll, owed_none hnone]
      decide }
  apply Returns.modify_bind
  apply Returns.bind (pinVal_returns (n := 10) v (hroom.mono (by have := hone v; omega)))
  rintro _ J₁ ⟨hleave₁, hv₁, -⟩
  obtain ⟨J₂, hleave₂, -, -, heq₂⟩ := hleave₁.room.cacheFind (b &&& ~~~7#64)
  apply Returns.eq_bind heq₂
  obtain ⟨J₃, hleave₃, -, -, heq₃⟩ := hleave₂.room.cacheFind ((b &&& ~~~7#64) + 8)
  apply Returns.eq_bind heq₃
  generalize J₁.lookup (b &&& ~~~7#64) = lv
  generalize J₂.lookup ((b &&& ~~~7#64) + 8) = hw
  apply Returns.bind (pinVal_returns (n := 9) lv
    (hleave₃.room.mono (by have := hone lv; omega)))
  rintro _ J₄ ⟨hleave₄, hlv₄, -⟩
  apply Returns.bind (pinVal_returns (n := 8) hw
    (hleave₄.room.mono (by have := hone hw; omega)))
  rintro _ J₅ ⟨hleave₅, hhw₅, -⟩
  have hleave := ((hleave₂.trans hleave₃).trans hleave₄).trans hleave₅
  have hpend₅ := hleave.pend_eq_none (hleave₁.pend_eq_none hpend)
  have hv₅ := hv₁.steady hleave.toSteady
  apply Returns.bind (updateWord_returns (n := 4) (hleave₅.room.mono (by omega)) hpend₅
    (hlv₄.steady hleave₅.toSteady) hv₅ hplain)
  rintro _ J₆ ⟨hroom₆, hpins₆, hpend₆⟩
  apply (updateWord_returns (n := 1) hroom₆ hpend₆ (fun s hs => hpins₆ (hhw₅ s hs))
    (fun s hs => hpins₆ (hv₅ s hs)) hplain).imp
  rintro _ J₇ ⟨hroom₇, -, hpend₇⟩
  exact ⟨hroom₇.toSane, hpend₇⟩

/-! ## As memory would -/

theorem pairTakes_le (v w : CVal) : pairTakes v w ≤ 6 := by
  cases v <;> cases w <;> simp [pairTakes, valueTakes, shiftTakes, mixed]

theorem staticTakes_le (J : Cache) (a : Word) : staticTakes J a ≤ 6 := by
  unfold staticTakes
  split_ifs
  · exact pairTakes_le _ _
  · cases J.lookup a <;> simp [valueTakes]

theorem heldTakes_le (useMovbe : Bool) (a : Word) (v : CVal) : heldTakes useMovbe a v ≤ 4 := by
  have hfar : far a ≤ 1 := by
    unfold far
    split_ifs <;> omega
  have hswap : swap useMovbe ≤ 1 := by
    unfold swap
    split_ifs <;> omega
  cases v with
  | neg r =>
      simp only [heldTakes]
      omega
  | _ =>
      simp only [heldTakes, constTakes]
      split_ifs <;> omega

theorem owed_le (J : Cache) : owed J ≤ 4 := by
  unfold owed
  cases J.pend with
  | none => exact Nat.zero_le 4
  | some a => exact heldTakes_le _ _ _

/-- With no register pinned `get_static` returns what a load would give. -/
theorem getStatic_unpinned (h : Sound m J M) (hc : Current m J M) (hlive : J.flagsLive = false) :
    ∃ v J' c M', getStatic a J.unpinAll = some (v, J', c) ∧
      exec (step maps) c M = .run M' ∧ Denotes M' v (read m a) := by
  have hready : Ready m ∅ J.unpinAll M :=
    ⟨sameEntries_unpinAll.sound rfl h, fun _ hs => hs.elim⟩
  have hroom : Room J.unpinAll (0 + staticTakes J.unpinAll a) := ⟨hready.toSound.sane, by
    have htakes := staticTakes_le J.unpinAll a
    have howed := owed_le J.unpinAll
    rw [pins_unpinAll, Finset.card_empty]
    omega⟩
  obtain ⟨v, J', c, heq, -⟩ := getStatic_returns hroom
  have hemits := @getStatic_emits maps _ _ _ _ a hready hc hlive
  obtain ⟨M', hrun, -, hv, -⟩ := hemits heq
  exact ⟨v, J', c, M', heq, hrun, hv.denotes⟩

/-- The values put together for unaligned words, and the words put together after unaligned
stores, whatever the cache knows the words as.  A load returns where its registers and those
of a store held back are to be had; a store's own value is a constant or in a register. -/
theorem unaligned_words_as_memory :
    (∀ (maps : Maps) (m : Memory) (P : Set Reg) (J : Cache) (M : State) (a : Word),
      Ready m P J M → Current m J M → J.flagsLive = false →
        (∀ v J' c, getStatic a J = some (v, J', c) → ∃ M', exec (step maps) c M = .run M' ∧
          Known v (read m a) J' M' ∧ Keeps m P J M J' M') ∧
        (J.pins.card + staticTakes J a + owed J ≤ 11 → (getStatic a J).isSome = true)) ∧
    ∀ (maps : Maps) (m : Memory) (J : Cache) (M : State) (b z : Word) (v : CVal),
      Sound m J M → J.pend = none → J.flagsLive = false → M.mem = write m b z →
      Denotes M v z → spansCacheable b →
        (∀ J' c, updateSpanned b v J = some ((), J', c) → ∃ M', exec (step maps) c M = .run M' ∧
          M'.mem = write m b z ∧ CacheRight J' M' (write m b z) ∧
          ∀ a, ∃ w J₁ c₁ M₁, getStatic a J'.unpinAll = some (w, J₁, c₁) ∧
            exec (step maps) c₁ M' = .run M₁ ∧ Denotes M₁ w (read (write m b z) a)) ∧
        (Plain v → (updateSpanned b v J).isSome = true) := by
  constructor
  · intro maps m P J M a hready hc hlive
    refine ⟨fun v J' c heq => ?_, fun hcard => ?_⟩
    · have hemits := @getStatic_emits maps _ _ _ _ a hready hc hlive
      obtain ⟨M', hrun, hkeep, hv, -⟩ := hemits heq
      exact ⟨M', hrun, hv, hkeep⟩
    · have hroom : Room J (0 + staticTakes J a) := ⟨hready.toSound.sane, by omega⟩
      obtain ⟨v, J', c, heq, -⟩ := getStatic_returns hroom
      rw [heq, Option.isSome_some]
  · intro maps m J M b z v hsound hpend hlive hmem hv hspan
    refine ⟨fun J' c heq => ?_, fun hplain => ?_⟩
    · have hruns := @updateSpanned_runs maps _ _ _ _ _ _ hsound hpend hlive hv hspan
      obtain ⟨M', hrun, hsound', hframe⟩ := hruns heq
      have hcur : Current (write m b z) J M := by
        rw [Current, held_none hpend]
        exact hmem
      have hframe' : Frame (write m b z) ∅ J M J' M' := hframe.of_pend_eq_none hpend
      have hcur' := hframe'.current hcur
      refine ⟨M', hrun, hcur'.mem_eq (hframe.pend_eq_none hpend), cacheRight hsound' hcur', ?_⟩
      exact fun a => getStatic_unpinned hsound' hcur' (hframe.live.trans hlive)
    · obtain ⟨u, J', c, heq, -⟩ := updateSpanned_returns (b := b) hsound.sane hpend hplain
      rw [heq, Option.isSome_some]

/-- One of the words known as a constant, the other in a register. -/
def spannedCache : Cache :=
  (sampleCache.setConst 0x100 0x1122334455667788).bindReg (Fin.last 10) 0x108

def spannedMemory : Memory :=
  write (write (fun _ => 0) 0x100 0x1122334455667788) 0x108 0x99aabbccddeeff00

def spannedState (m : Memory) : State :=
  ⟨fun r => if r = Fin.last 10 then 0x99aabbccddeeff00 else 0, none, m, []⟩

theorem sound_spannedCache (m : Memory) :
    Sound spannedMemory spannedCache (spannedState m) := by
  have hempty : Sound (fun _ => 0) sampleCache (spannedState m) := {
    entry := fun h => absurd h not_entry_start
    unique := fun h => absurd h not_entry_start
    pend := nofun }
  have hconst := (hempty.but 0x100).setConst (z := 0x1122334455667788) (by decide) nofun
  exact (hconst.but 0x108).bindReg (by decide) rfl (Or.inl (by decide))

theorem unaligned_words_as_memory_sample :
    (∃ v J' c M', getStatic 0x103 spannedCache = some (v, J', c) ∧
      exec (step sampleMaps) c (spannedState spannedMemory) = .run M' ∧
      Denotes M' v 0x445566778899aabb) ∧
    ∃ J' c M', updateSpanned 0x103 (.const 0) spannedCache = some ((), J', c) ∧
      exec (step sampleMaps) c (spannedState (write spannedMemory 0x103 0)) = .run M' ∧
      ∃ w J₁ c₁ M₁, getStatic 0x100 J'.unpinAll = some (w, J₁, c₁) ∧
        exec (step sampleMaps) c₁ M' = .run M₁ ∧ Denotes M₁ w 0x1122330000000000 := by
  obtain ⟨hget, hupdate⟩ := unaligned_words_as_memory
  have hpend : spannedCache.pend = none := by decide
  have hlive : spannedCache.flagsLive = false := by decide
  constructor
  · have hsound := sound_spannedCache spannedMemory
    obtain ⟨hright, hreturns⟩ := hget sampleMaps spannedMemory ∅ spannedCache
      (spannedState spannedMemory) 0x103 ⟨hsound, nofun⟩
      (by rw [Current, held_none hpend]; rfl) hlive
    obtain ⟨⟨v, J', c⟩, heq⟩ := Option.isSome_iff_exists.mp (hreturns (by decide +kernel))
    obtain ⟨M', hrun, hknown, -⟩ := hright v J' c heq
    refine ⟨v, J', c, M', heq, hrun, ?_⟩
    rw [← show read spannedMemory 0x103 = 0x445566778899aabb by decide +kernel]
    exact hknown.denotes
  · obtain ⟨hright, hreturns⟩ := hupdate sampleMaps spannedMemory spannedCache
      (spannedState (write spannedMemory 0x103 0)) 0x103 0 (.const 0) (sound_spannedCache _)
      hpend hlive rfl rfl (by decide)
    obtain ⟨⟨⟨⟩, J', c⟩, heq⟩ := Option.isSome_iff_exists.mp (hreturns (Or.inl ⟨0, rfl⟩))
    obtain ⟨M', hrun, -, -, hlater⟩ := hright J' c heq
    obtain ⟨w, J₁, c₁, M₁, hget, hrun₁, hw⟩ := hlater 0x100
    refine ⟨J', c, M', heq, hrun, w, J₁, c₁, M₁, hget, hrun₁, ?_⟩
    rw [← show read (write spannedMemory 0x103 0) 0x100 = 0x1122330000000000 by decide +kernel]
    exact hw

end Translator
end SubleqEmu
