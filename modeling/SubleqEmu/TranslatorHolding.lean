import SubleqEmu.TranslatorResults

/-!
# Storing the result

A store to a cached word is held back, after the one that was; the others are done, and
what they change is forgotten.
-/

namespace SubleqEmu
namespace Translator

open ByteMemory Subleq Emitter Machine

variable {maps : Maps} {m m' : Memory} {P P' : Set Reg} {J J' : Cache} {M M' M₁ : State}
  {a b fb p q : Word} {r s t rr : Reg} {v w va vb : CVal} {x y z : Word} {n : Bool}
  {res : Result} {α β : Type}

/-! ## All but one word -/

/-- The cache is right about every word but perhaps one. -/
structure SoundBut (m : Memory) (b : Word) (J : Cache) (M : State) : Prop where
  entry : ∀ {a v}, Entry J a v → cacheable a = true ∧ (a ≠ b → Denotes M v (read m a))
  unique : ∀ {a v w}, Entry J a v → Entry J a w → v = w
  pend : ∀ {a}, J.pend = some a → cacheable a = true ∧ (a ≠ b → ∃ v, Entry J a v)

theorem Sound.but (h : Sound m J M) (b : Word) : SoundBut m b J M where
  entry hv := ⟨(h.entry hv).1, fun _ => (h.entry hv).2⟩
  unique := h.unique
  pend hp := ⟨(h.pend hp).1, fun _ => (h.pend hp).2⟩

theorem read_write_cacheable (hb : cacheable b = true) (ha : cacheable a = true) (hne : a ≠ b)
    (m : Memory) (w : Word) : read (write m b w) a = read m a :=
  read_write_apart m w
    (apart_of_ne (aligned_of_cacheable hb) (aligned_of_cacheable ha) (Ne.symm hne))

theorem SoundBut.write (h : SoundBut m b J M) (hb : cacheable b = true) (z : Word) :
    SoundBut (write m b z) b J M where
  entry hv := by
    obtain ⟨hcache, hread⟩ := h.entry hv
    refine ⟨hcache, fun hne => ?_⟩
    rw [read_write_cacheable hb hcache hne]
    exact hread hne
  unique := h.unique
  pend := h.pend

theorem SoundBut.of_write (h : SoundBut (ByteMemory.write m b z) b J M) (hb : cacheable b = true) :
    SoundBut m b J M := by
  have hwrite := h.write hb (read m b)
  rwa [write_write, write_read] at hwrite

/-- The word with one entry, which is right about a store to it. -/
theorem SoundBut.store (h : SoundBut m b J M) (hb : cacheable b = true) (hv : Denotes M v z)
    (hself : Entry J' b v) (hentry : ∀ a w, Entry J' a w → Entry J a w ∧ a ≠ b ∨ a = b ∧ w = v)
    (hpend : ∀ a, J'.pend = some a → a ≠ b → J.pend = some a ∧ ∀ w, Entry J a w → Entry J' a w) :
    Sound (ByteMemory.write m b z) J' M where
  entry {a w} hw := by
    rcases hentry a w hw with ⟨hw, hne⟩ | ⟨rfl, rfl⟩
    · obtain ⟨hcache, hread⟩ := h.entry hw
      refine ⟨hcache, ?_⟩
      rw [read_write_cacheable hb hcache hne]
      exact hread hne
    · exact ⟨hb, by rwa [read_write_self]⟩
  unique {a w w'} hw hw' := by
    rcases hentry a w hw with ⟨hw, hne⟩ | ⟨rfl, rfl⟩
    · rcases hentry a w' hw' with ⟨hw', -⟩ | ⟨rfl, -⟩
      · exact h.unique hw hw'
      · exact absurd rfl hne
    · rcases hentry a w' hw' with ⟨-, hne⟩ | ⟨-, rfl⟩
      · exact absurd rfl hne
      · rfl
  pend {a} hp := by
    by_cases hne : a = b
    · exact hne ▸ ⟨hb, v, hself⟩
    · obtain ⟨hp, hkeep⟩ := hpend a hp hne
      obtain ⟨hcache, hentry⟩ := h.pend hp
      obtain ⟨w, hw⟩ := hentry hne
      exact ⟨hcache, w, hkeep w hw⟩

/-! ## What the cache says of the word -/

theorem setConst_pend {c : Word} : (J.setConst b c).pend = J.pend := by
  unfold Cache.setConst
  simp only
  split_ifs
  · rfl
  · split <;> rfl

theorem setConst_flagsLive {c : Word} : (J.setConst b c).flagsLive = J.flagsLive := by
  unfold Cache.setConst
  simp only
  split_ifs
  · rfl
  · split <;> rfl

theorem setConst_pinned {c : Word} :
    ((J.setConst b c).regs s).pinned = (J.regs s).pinned := by
  unfold Cache.setConst
  simp only
  split_ifs
  · exact drop_pinned
  · split <;> exact drop_pinned

theorem SoundBut.setConst (h : SoundBut m b J M) (hb : cacheable b = true)
    (hp : ∀ a, J.pend = some a → a = b) :
    Sound (ByteMemory.write m b z) (J.setConst b z) M := by
  refine h.store hb (v := .const z) rfl (entry_setConst_self hb) (fun a w hw => ?_)
    fun a ha hne => ?_
  · exact (entry_setConst hw).imp_right fun hw => ⟨hw.1, hw.2.1⟩
  · rw [setConst_pend] at ha
    exact absurd (hp a ha) hne

theorem SoundBut.bindReg (h : SoundBut m b J M) (hb : cacheable b = true) (hr : M.reg r = z)
    (haddr : (J.regs r).addr = none ∨ (J.regs r).addr = some b) :
    Sound (ByteMemory.write m b z) (J.bindReg r b) M := by
  refine h.store hb (v := .reg r) hr (entry_bindReg_self hb) (fun a w hw => ?_)
    fun a ha hne => ⟨bindReg_pend.symm.trans ha, fun w hw => entry_bindReg_of hw hne fun ha => ?_⟩
  · exact (entry_bindReg hw).imp (fun hw => ⟨hw.1, hw.2 hb⟩) fun hw => ⟨hw.1, hw.2.1⟩
  · rcases haddr with haddr | haddr
    · rw [haddr] at ha
      cases ha
    · rw [haddr] at ha
      exact absurd (Option.some.inj ha).symm hne

theorem SoundBut.drop (h : SoundBut m b J M) : SoundBut m b (J.drop b) M where
  entry hv := h.entry (entry_drop.mp hv).1
  unique hv hw := h.unique (entry_drop.mp hv).1 (entry_drop.mp hw).1
  pend hp := by
    obtain ⟨hcache, hentry⟩ := h.pend hp
    refine ⟨hcache, fun hne => ?_⟩
    obtain ⟨v, hv⟩ := hentry hne
    exact ⟨v, entry_drop.mpr ⟨hv, hne⟩⟩

theorem SoundBut.sameEntries (h : SoundBut m b J M) (hsame : SameEntries J J')
    (hpend : J'.pend = J.pend) : SoundBut m b J' M where
  entry hv := h.entry (hsame.entry.mp hv)
  unique hv hw := h.unique (hsame.entry.mp hv) (hsame.entry.mp hw)
  pend hp := by
    obtain ⟨hcache, hentry⟩ := h.pend (hpend ▸ hp)
    refine ⟨hcache, fun hne => ?_⟩
    obtain ⟨v, hv⟩ := hentry hne
    exact ⟨v, hsame.entry.mpr hv⟩

theorem SoundBut.putAlias {k : Fin 16} (h : SoundBut m b J M) (hb : cacheable b = true)
    (hno : ∀ v, ¬ Entry J b v) (hslot : ∀ c, J.aliases k = some c → J.pend ≠ some c.addr)
    (hv : Denotes M (if n then .neg r else .reg r) z) :
    Sound (ByteMemory.write m b z) (putAlias k ⟨b, r, n⟩ J) M := by
  refine h.store hb hv entry_putAlias_self (fun a w hw => ?_)
    fun a ha hne => ⟨ha, fun w hw => entry_putAlias_of hw fun c hc heq => ?_⟩
  · exact (entry_putAlias hw).imp_left fun hold => ⟨hold, fun heq => hno w (heq ▸ hold)⟩
  · exact hslot c hc (by rw [heq]; exact ha)

theorem Denotes.unique (h : Denotes M v x) (h' : Denotes M v y) : x = y := by
  cases v with
  | none => exact h.elim
  | reg r => exact h.symm.trans h'
  | const c => exact h.symm.trans h'
  | neg r => exact h.symm.trans h'

/-- A cache that says nothing of the word is right whatever is there. -/
theorem SoundBut.of_no_entry (h : SoundBut m b J M) (hb : cacheable b = true)
    (hno : ∀ v, ¬ Entry J b v) (hp : J.pend ≠ some b) (z : Word) :
    Sound (ByteMemory.write m b z) J M where
  entry {a v} hv := by
    obtain ⟨hcache, hread⟩ := h.entry hv
    have hne : a ≠ b := fun heq => hno v (heq ▸ hv)
    refine ⟨hcache, ?_⟩
    rw [read_write_cacheable hb hcache hne]
    exact hread hne
  unique := h.unique
  pend {a} ha := ⟨(h.pend ha).1, (h.pend ha).2 fun heq => hp (heq ▸ ha)⟩

/-- A flush that is right whatever is at `b` leaves no entry for it. -/
theorem flushPending_no_entry (h : ∀ z, Ready (ByteMemory.write m b z) P J M) (z : Word) :
    Emits maps (ByteMemory.write m b z) P J M flushPending fun _ J' _ =>
      J'.pend = none ∧ ∀ v, ¬ Entry J' b v := by
  intro _ J' c heq
  obtain ⟨M₁, hrun, hkeep, hnone⟩ := @flushPending_emits maps _ _ _ _ (h z) _ _ _ heq
  obtain ⟨M₂, hrun', hkeep', -⟩ := @flushPending_emits maps _ _ _ _ (h (z + 1)) _ _ _ heq
  rw [hrun] at hrun'
  cases hrun'
  refine ⟨M₁, hrun, hkeep, hnone, fun v hv => ?_⟩
  have hread := (hkeep.ready.entry hv).2
  have hread' := (hkeep'.ready.entry hv).2
  rw [read_write_self] at hread hread'
  have hz := hread.unique hread'
  bv_omega

theorem Frame.refl (m : Memory) (P : Set Reg) (J : Cache) (M : State) : Frame m P J M J M :=
  ⟨fun _ _ => rfl, rfl, fun _ => rfl, Or.inl rfl, rfl, rfl⟩

/-- The generator changes nothing that the frame is about. -/
theorem Frame.quiet (hpend : J'.pend = J.pend) (hlive : J'.flagsLive = J.flagsLive) :
    Frame m P J M J' M :=
  ⟨fun _ _ => rfl, hlive, fun _ => rfl, Or.inl hpend, rfl, by rw [held, held, hpend]⟩

/-- The word that a store goes to has its entry, and the store held back for it goes on
being held. -/
structure Noted (m : Memory) (b : Word) (P : Set Reg) (J : Cache) (M : State) (J' : Cache)
    (M' : State) : Prop extends Frame m P J M J' M' where
  sound : Sound m J' M'
  entry : ∃ v, Entry J' b v
  holds : J.pend = some b → J'.pend = some b

theorem setAlias_runs (h : SoundBut m b J M) (hb : cacheable b = true)
    (hpin : ∀ s ∈ P, (J.regs s).pinned = true) (hr : r ∈ P)
    (hv : Denotes M (if n then .neg r else .reg r) z) :
    Runs maps J M (setAlias b r n) fun _ J' M' =>
      Noted (ByteMemory.write m b z) b P J M J' M' := by
  have hno : ∀ v, ¬ Entry (J.drop b) b v := fun v hv => (entry_drop.mp hv).2 rfl
  refine .modify_bind (.getState ?_)
  rw [hb]
  simp only [Bool.not_true, Bool.false_eq_true, if_false]
  split
  · next k hk =>
      refine .modify ⟨.quiet rfl rfl, h.drop.putAlias hb hno (fun c hc => ?_) hv,
        ⟨_, entry_putAlias_self⟩, id⟩
      have hnone := List.find?_some hk
      rw [hc] at hnone
      cases hnone
  · generalize (Fin.ofNat 16 (J.drop b).aliasNext.toNat : Fin 16) = k
    have hsame : SameEntries (J.drop b)
        { J.drop b with aliasNext := (J.drop b).aliasNext + 1 } := ⟨fun _ => rfl, rfl, rfl⟩
    have hquiet : Frame (ByteMemory.write m b z) P J M
        { J.drop b with aliasNext := (J.drop b).aliasNext + 1 } M := .quiet rfl rfl
    refine .modify_bind (.bind (Q := fun _ J₁ M₁ => SoundBut m b J₁ M₁ ∧
      (∀ v, ¬ Entry J₁ b v) ∧ (∀ c, J₁.aliases k = some c → J₁.pend ≠ some c.addr) ∧
      Frame (ByteMemory.write m b z) P J M J₁ M₁ ∧ (J.pend = some b → J₁.pend = some b)) ?_ ?_)
    · unfold onlyIf
      split_ifs with hflush
      · obtain ⟨-, hflush⟩ := hflush
        have hpend : J.pend ≠ some b := by
          intro hp
          obtain ⟨⟨a, s, n'⟩, hc, ha⟩ := Option.map_eq_some_iff.mp (hflush.symm.trans hp)
          exact (alias_drop.mp ⟨k, ha ▸ hc⟩).2 rfl
        have hready : ∀ z, Ready (ByteMemory.write m b z) P
            { J.drop b with aliasNext := (J.drop b).aliasNext + 1 } M := fun z => {
          toSound := hsame.sound rfl (h.drop.of_no_entry hb hno hpend z)
          pinned := fun s hs => drop_pinned.trans (hpin s hs) }
        refine Runs.imp (flushPending_no_entry hready z) fun _ J₁ M₁ hflushed => ?_
        obtain ⟨hkeep, hnone, hno₁⟩ := hflushed
        refine ⟨(hkeep.ready.but b).of_write hb, hno₁, fun c _ hp => ?_,
          hquiet.trans hkeep.toFrame, fun hp => absurd hp hpend⟩
        rw [hnone] at hp
        cases hp
      · refine .pure ⟨h.drop.sameEntries hsame rfl, hno, fun c hc hp => hflush ⟨?_, ?_⟩, hquiet,
          id⟩
        · exact Option.isSome_iff_exists.mpr ⟨_, hp⟩
        · exact hp.trans (by rw [show (J.drop b).aliases k = some c from hc]; rfl)
    · rintro _ J₁ M₁ ⟨h₁, hno₁, hslot, hframe, hholds⟩
      refine .modify ⟨hframe.trans (.quiet rfl rfl), h₁.putAlias hb hno₁ hslot ?_,
        ⟨_, entry_putAlias_self⟩, hholds⟩
      refine hframe.denotes hv fun s hs => ?_
      cases n
      · exact uses_reg.mp hs ▸ hr
      · exact uses_neg.mp hs ▸ hr

/-! ## A store held back -/

/-- The word's entry is the value stored. -/
theorem cacheResult_runs (h : SoundBut m b J M) (hb : cacheable b = true)
    (hpin : ∀ s ∈ P, (J.regs s).pinned = true) (huse : ∀ s, Uses v s → s ∈ P)
    (hv : Denotes M v z) (hp : (∃ c, v = .const c) → ∀ a, J.pend = some a → a = b) :
    Runs maps J M (cacheResult b v) fun _ J' M' =>
      Noted (ByteMemory.write m b z) b P J M J' M' := by
  cases v with
  | none => exact hv.elim
  | const c =>
      obtain rfl : c = z := hv
      exact .modify ⟨.quiet setConst_pend setConst_flagsLive, h.setConst hb (hp ⟨c, rfl⟩),
        ⟨_, entry_setConst_self hb⟩, setConst_pend.trans⟩
  | neg r => exact setAlias_runs h hb hpin (huse r (Or.inr rfl)) hv
  | reg r =>
      refine .getState ?_
      split_ifs with haddr
      · exact .modify ⟨.quiet bindReg_pend bindReg_flagsLive, h.bindReg hb hv haddr,
          ⟨_, entry_bindReg_self hb⟩, bindReg_pend.trans⟩
      · exact setAlias_runs h hb hpin (huse r (Or.inl rfl)) hv

theorem flushPending_none (h : J.pend = none) : flushPending J = some ((), J, []) := by
  rw [flushPending, getState_bind, h]
  rfl

/-- The stores after one of `z` to `b`: none if it changes nothing, else it is held back,
in the place of one to the same word, or it is done, after the one that was held back. -/
def Orders (m : Memory) (b z : Word) (unchanged pendable : Bool) (J : Cache) (M : State)
    (J' : Cache) (M' : State) : Prop :=
  if unchanged then M'.stores ++ held (ByteMemory.write m b z) J' = M.stores ++ held m J
  else if pendable then J'.pend = some b ∧ (J.pend ≠ some b ∧ M'.stores = M.stores ++ held m J ∨
    J.pend = some b ∧ M'.stores = M.stores)
  else J'.pend = none ∧ M'.stores = M.stores ++ held m J ++ [(b, z)]

/-- What a store leaves. -/
structure Stored (m : Memory) (b z : Word) (unchanged pendable : Bool) (P : Set Reg) (J : Cache)
    (M : State) (J' : Cache) (M' : State) : Prop where
  reg : ∀ r ∈ P, M'.reg r = M.reg r
  live : J'.flagsLive = J.flagsLive
  flags : J.flagsLive = true → M'.flags = M.flags
  init : M'.init = M.init
  stores : Orders m b z unchanged pendable J M J' M'

theorem storeHeldBack_runs (h : SoundBut m b J M) (hb : cacheable b = true)
    (hpin : ∀ s ∈ P, (J.regs s).pinned = true) (huse : ∀ s, Uses res.value s → s ∈ P)
    (hv : Denotes M res.value z)
    (hunchanged : res.unchanged = true → z = read m b ∧ ∀ c, res.value ≠ .const c)
    (hsound : res.unchanged = false → J.pend ≠ some b → Sound m J M ∨ J.pend = none) :
    Runs maps J M (storeHeldBack b res) fun _ J' M' =>
      Sound (ByteMemory.write m b z) J' M' ∧ Stored m b z res.unchanged true P J M J' M' := by
  refine .getState (.bind (Q := fun _ J₁ M₁ => SoundBut m b J₁ M₁ ∧ Frame m P J M J₁ M₁ ∧
    (∀ s ∈ P, (J₁.regs s).pinned = true) ∧ (res.unchanged = false →
      J.pend ≠ some b ∧ J₁.pend = none ∨ J.pend = some b ∧ J₁.pend = some b)) ?_ ?_)
  · unfold onlyIf
    split_ifs with hflush
    · obtain ⟨hchanged, hpend⟩ := hflush
      rcases hsound (by simpa using hchanged) hpend with hsound | hnone
      · refine Runs.imp (flushPending_emits (P := P) ⟨hsound, hpin⟩) fun _ J₁ M₁ hflushed => ?_
        exact ⟨hflushed.1.ready.but b, hflushed.1.toFrame, hflushed.1.ready.pinned,
          fun _ => Or.inl ⟨hpend, hflushed.2⟩⟩
      · intro _ _ _ heq
        rw [flushPending_none hnone] at heq
        cases heq
        exact ⟨M, rfl, h, .refl m P J M, hpin, fun _ => Or.inl ⟨hpend, hnone⟩⟩
    · refine .pure ⟨h, .refl m P J M, hpin, fun hchanged => Or.inr ?_⟩
      by_contra hpend
      exact hflush ⟨by simpa using hchanged, fun hp => hpend ⟨hp, hp⟩⟩
  · rintro _ J₁ M₁ ⟨h₁, hframe, hpin₁, hpend₁⟩
    have hv₁ := hframe.denotes hv huse
    refine .bind (cacheResult_runs (P := P) h₁ hb hpin₁ huse hv₁ ?_) ?_
    · rintro ⟨c, hc⟩ a ha
      cases hchanged : res.unchanged with
      | true => exact absurd hc ((hunchanged hchanged).2 c)
      | false =>
          obtain ⟨-, hnone⟩ | ⟨-, hsome⟩ := hpend₁ hchanged
          · rw [hnone] at ha
            cases ha
          · exact (Option.some.inj (hsome.symm.trans ha)).symm
    · rintro _ J₂ M₂ hnoted
      have hreg : ∀ r ∈ P, M₂.reg r = M.reg r := fun r hr =>
        (hnoted.reg r hr).trans (hframe.reg r hr)
      have hlive := hnoted.live.trans hframe.live
      have hflags := fun hl => (hnoted.flags (hframe.live.trans hl)).trans (hframe.flags hl)
      have hinit := hnoted.init.trans hframe.init
      have hstores := hnoted.stores
      have hstores₁ := hframe.stores
      cases hchanged : res.unchanged with
      | true =>
          have hsame : ByteMemory.write m b z = m := by
            rw [(hunchanged hchanged).1, write_read]
          refine .pure ⟨hnoted.sound, hreg, hlive, hflags, hinit, ?_⟩
          rw [Orders, if_pos rfl, hstores, hsame, hstores₁]
      | false =>
          refine .modify ⟨⟨hnoted.sound.entry, hnoted.sound.unique, ?_⟩, hreg, hlive, hflags,
            hinit, ?_⟩
          · rintro a ⟨⟩
            exact ⟨hb, hnoted.entry⟩
          · rw [Orders, if_neg nofun, if_pos rfl]
            refine ⟨rfl, ?_⟩
            obtain ⟨hne, hnone⟩ | ⟨hpend, hsome⟩ := hpend₁ hchanged
            · have hnone₂ := hnoted.toFrame.pend_eq_none hnone
              rw [held, held, hnone₂, hnone] at hstores
              rw [held, hnone] at hstores₁
              refine Or.inl ⟨hne, ?_⟩
              simpa using hstores.trans hstores₁
            · have hsome₂ := hnoted.holds hsome
              rw [held, held, hsome₂, hsome] at hstores
              rw [held, held, hsome, hpend] at hstores₁
              exact Or.inr ⟨hpend, (List.append_cancel_right hstores).trans
                (List.append_cancel_right hstores₁)⟩

/-! ## A store that is done -/

/-- Where `storeNow` stores to. -/
def targetOf (fb : Word) : Option Reg → Target
  | some rb => .dynamic rb
  | none => .static fb

/-- The address of a store, in a register in use if it is computed. -/
structure Aimed (rb : Option Reg) (fb b : Word) (P : Set Reg) (M : State) : Prop where
  value : rb = none → fb = b
  reg : ∀ r, rb = some r → M.reg r = b
  mem : ∀ r, rb = some r → r ∈ P

theorem Aimed.keeps {rb : Option Reg} (h : Aimed rb fb b P M) (hkeep : Keeps m P J M J' M') :
    Aimed rb fb b P M' :=
  ⟨h.value, fun r hr => (hkeep.reg r (h.mem r hr)).trans (h.reg r hr), h.mem⟩

theorem Aimed.address {rb : Option Reg} (h : Aimed rb fb b P M) :
    (targetOf fb rb).address M = b := by
  cases rb with
  | none => exact h.value rfl
  | some r => exact h.reg r rfl

theorem Aimed.uses {rb : Option Reg} (h : Aimed rb fb b P M) :
    ∀ s, (targetOf fb rb).Uses s → s ∈ P := by
  intro s hs
  cases rb with
  | none => exact hs.elim
  | some r =>
      obtain rfl : s = r := hs
      exact h.mem s rfl

/-- A constant, or a register. -/
def Plain (v : CVal) : Prop := (∃ c, v = .const c) ∨ ∃ r, v = .reg r

/-- The value that was stored is still known, and nothing is held back. -/
theorem storeNow_runs {rb : Option Reg} (h : Ready m P J M) (hv : Known v z J M)
    (huse : ∀ s, Uses v s → s ∈ P) (hb : Aimed rb fb b P M) :
    Runs maps J M (storeNow fb rb v) fun w J' M' => ∃ M₁, M' = M₁.put b z ∧
      Keeps m P J M J' M₁ ∧ J'.pend = none ∧ Known w z J' M₁ ∧ Plain w := by
  by_cases hconst : ∃ c, v = .const c
  · obtain ⟨c, rfl⟩ := hconst
    have hnow : storeNow fb rb (.const c) = (do
        flushPending
        storeConst c (targetOf fb rb)
        return .const c) := by
      cases rb <;> rfl
    rw [hnow]
    refine .bind (flushPending_emits h) fun _ J₁ M₁ hflushed => ?_
    obtain ⟨hkeep₁, hnone⟩ := hflushed
    have hb₁ := hb.keeps hkeep₁
    obtain rfl : c = z := hv.denotes
    refine .bind (storeConst_stores hkeep₁.ready hb₁.uses).runs ?_
    rintro _ J₂ _ ⟨M₂, rfl, hkeep₂⟩
    exact .pure ⟨M₂, by rw [hb₁.address], hkeep₁.trans hkeep₂, hkeep₂.pend_eq_none hnone,
      known_const rfl, Or.inl ⟨c, rfl⟩⟩
  · have hnow : storeNow fb rb v = (do
        flushPending
        let r ← toReg v
        storeReg r (targetOf fb rb)
        return .reg r) := by
      cases v with
      | const c => exact absurd ⟨c, rfl⟩ hconst
      | _ => cases rb <;> rfl
    rw [hnow]
    refine .bind (flushPending_emits h) fun _ J₁ M₁ hflushed => ?_
    obtain ⟨hkeep₁, hnone⟩ := hflushed
    have hv₁ := hkeep₁.known hv huse
    have hb₁ := hb.keeps hkeep₁
    refine .bind (toReg_emits hkeep₁.ready hv₁.denotes huse) fun t J₂ M₂ ht => ?_
    obtain ⟨hkeep₂, htz, ht⟩ := ht
    have hpin : (J₂.regs t).pinned = true := by
      rcases ht with ⟨hreg, rfl⟩ | ⟨-, hfresh⟩
      · exact hv₁.pinned t (Or.inl hreg)
      · exact hfresh.pinned
    have hb₂ := hb₁.keeps hkeep₂
    have hready := hkeep₂.ready.insert hpin
    have hstores : Stores maps m (insert t P) J₂ M₂ (storeReg t (targetOf fb rb)) _ (M₂.reg t) :=
      storeReg_stores hready (Set.mem_insert t P)
        fun s hs => Set.mem_insert_of_mem t (hb₂.uses s hs)
    refine .bind hstores.runs ?_
    rintro _ J₃ _ ⟨M₃, rfl, hkeep₃⟩
    have hkeep := (hkeep₁.trans hkeep₂).trans (hkeep₃.mono (Set.subset_insert t P))
    refine .pure ⟨M₃, by rw [hb₂.address, htz], hkeep,
      hkeep₃.pend_eq_none (hkeep₂.pend_eq_none hnone), ?_, Or.inr ⟨t, rfl⟩⟩
    have ht₃ := Set.mem_insert t P
    exact known_reg ((hkeep₃.reg t ht₃).trans htz) (hkeep₃.ready.pinned t ht₃)

theorem sound_dropAll (m : Memory) (hp : J.pend = none) (M : State) : Sound m J.dropAll M where
  entry hv := absurd hv entry_dropAll
  unique hv := absurd hv entry_dropAll
  pend hpend := by
    rw [show J.dropAll.pend = J.pend from rfl, hp] at hpend
    cases hpend

/-- The words that a store to an address that is not cached covers are dropped. -/
theorem Sound.dropSpanned (h : Sound m J M) (hp : J.pend = none) (b z : Word) :
    Sound (ByteMemory.write m b z) ((J.drop (b &&& ~~~7#64)).drop ((b &&& ~~~7#64) + 8)) M where
  entry {a v} hv := by
    obtain ⟨hv, hhi⟩ := entry_drop.mp hv
    obtain ⟨hv, hlo⟩ := entry_drop.mp hv
    obtain ⟨hcache, hread⟩ := h.entry hv
    refine ⟨hcache, ?_⟩
    rw [read_write_apart _ _ (apart_of_not_spanned (aligned_of_cacheable hcache) hlo hhi).symm]
    exact hread
  unique hv hw := h.unique (entry_drop.mp (entry_drop.mp hv).1).1
    (entry_drop.mp (entry_drop.mp hw).1).1
  pend hpend := by
    rw [show ((J.drop _).drop _).pend = J.pend from rfl, hp] at hpend
    cases hpend

theorem stored_put (hkeep : Keeps m P J M J' M₁) (hnone : J'.pend = none) {J'' : Cache}
    (hpend : J''.pend = none) (hlive : J''.flagsLive = J'.flagsLive) :
    Stored m b z false false P J M J'' (M₁.put b z) where
  reg := hkeep.reg
  live := hlive.trans hkeep.live
  flags := hkeep.flags
  init := hkeep.init
  stores := by
    have hstores := hkeep.stores
    rw [held, hnone, List.append_nil] at hstores
    rw [Orders, if_neg (by simp), if_neg (by simp)]
    exact ⟨hpend, by rw [State.put, hstores]⟩

theorem stored_unchanged {pendable : Bool} (h : ByteMemory.write m b z = m) :
    Stored m b z true pendable P J M J M :=
  ⟨fun _ _ => rfl, rfl, fun _ => rfl, rfl, by rw [Orders, if_pos rfl, h]⟩

theorem storeComputed_runs {rb : Reg} (h : Ready m P J M) (hv : Known res.value z J M)
    (huse : ∀ s, Uses res.value s → s ∈ P) (hb : Aimed (some rb) fb b P M)
    (hunchanged : res.unchanged = true → z = read m b) :
    Runs maps J M (storeComputed rb res) fun _ J' M' =>
      Stored m b z res.unchanged false P J M J' M' ∧ Sound (ByteMemory.write m b z) J' M' := by
  unfold storeComputed onlyIf
  cases hchanged : res.unchanged with
  | true =>
      have hsame : ByteMemory.write m b z = m := by rw [hunchanged hchanged, write_read]
      exact .pure ⟨stored_unchanged hsame, hsame.symm ▸ h.toSound⟩
  | false =>
      have hb₀ : Aimed (some rb) 0 b P M := ⟨nofun, hb.reg, hb.mem⟩
      refine .bind (storeNow_runs h hv huse hb₀) ?_
      rintro _ J₁ _ ⟨M₁, rfl, hkeep, hnone, -, -⟩
      exact .modify ⟨stored_put hkeep hnone hnone rfl, sound_dropAll _ hnone _⟩

theorem Sound.put (h : Sound m J M) (a x : Word) : Sound m J (M.put a x) :=
  ⟨fun hv => ⟨(h.entry hv).1, (h.entry hv).2⟩, h.unique, h.pend⟩

theorem storeUncached_runs (h : Ready m P J M) (hv : Known res.value z J M)
    (huse : ∀ s, Uses res.value s → s ∈ P) (hunchanged : res.unchanged = true → z = read m b) :
    Runs maps J M (storeUncached b res) fun o J' M' =>
      Stored m b z res.unchanged false P J M J' M' ∧
      (o = none → Sound (ByteMemory.write m b z) J' M') ∧
      ∀ w, o = some w → Sound m J' M' ∧ Known w z J' M' ∧ Plain w ∧ spansCacheable b ∧
        J'.pend = none := by
  unfold storeUncached
  cases hchanged : res.unchanged with
  | true =>
      have hsame : ByteMemory.write m b z = m := by rw [hunchanged hchanged, write_read]
      exact .pure ⟨stored_unchanged hsame, fun _ => hsame.symm ▸ h.toSound, nofun⟩
  | false =>
      have hb : Aimed none b b P M := ⟨fun _ => rfl, nofun, nofun⟩
      refine .bind (storeNow_runs h hv huse hb) ?_
      rintro w J₁ _ ⟨M₁, rfl, hkeep, hnone, hw, hplain⟩
      have hsound := hkeep.ready.toSound.put b z
      split_ifs with hspan
      · refine .pure ⟨stored_put hkeep hnone hnone rfl, nofun, ?_⟩
        rintro _ ⟨⟩
        exact ⟨hsound, ⟨hw.denotes, hw.pinned⟩, hplain, hspan, hnone⟩
      · exact .modify_bind (.pure ⟨stored_put hkeep hnone hnone rfl,
          fun _ => hsound.dropSpanned hnone b z, nofun⟩)

theorem storeResult_runs {rb : Option Reg} (hpin : ∀ s ∈ P, (J.regs s).pinned = true)
    (huse : ∀ s, Uses res.value s → s ∈ P) (hv : Denotes M res.value z)
    (hunchanged : res.unchanged = true → z = read m b ∧ ∀ c, res.value ≠ .const c)
    (hb : Aimed rb fb b P M) (hbut : rb = none → cacheable b = true → SoundBut m b J M)
    (hsound : rb = none → cacheable b = true → res.unchanged = false → J.pend ≠ some b →
      Sound m J M ∨ J.pend = none)
    (hsound' : ¬ (rb = none ∧ cacheable b = true) → Sound m J M) :
    Runs maps J M (storeResult fb rb res) fun o J' M' =>
      Stored m b z res.unchanged (decide (rb = none ∧ cacheable b = true)) P J M J' M' ∧
      (o = none → Sound (ByteMemory.write m b z) J' M') ∧
      ∀ w, o = some w → rb = none ∧ Sound m J' M' ∧ Known w z J' M' ∧ Plain w ∧
        spansCacheable b ∧ J'.pend = none := by
  have hknown : Known res.value z J M := ⟨hv, fun s hs => hpin s (huse s hs)⟩
  have hunchanged' := fun hu => (hunchanged hu).1
  cases rb with
  | some r =>
      have hready : Ready m P J M := ⟨hsound' nofun, hpin⟩
      refine .bind (storeComputed_runs hready hknown huse hb hunchanged') fun _ J₁ M₁ hstored => ?_
      exact .pure ⟨hstored.1, fun _ => hstored.2, nofun⟩
  | none =>
      obtain rfl := hb.value rfl
      unfold storeResult
      split_ifs with hcache
      · refine .bind (storeHeldBack_runs (hbut rfl hcache) hcache hpin huse hv hunchanged
          (hsound rfl hcache)) fun _ J₁ M₁ hstored => ?_
        refine .pure ⟨?_, fun _ => hstored.1, nofun⟩
        simpa [hcache] using hstored.2
      · have hready : Ready m P J M := ⟨hsound' fun h => hcache h.2, hpin⟩
        simpa [hcache] using storeUncached_runs hready hknown huse hunchanged'

end Translator
end SubleqEmu
