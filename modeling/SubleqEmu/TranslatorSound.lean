import SubleqEmu.TranslatorEntries

/-!
# The cache and the machine

When a register, a constant or a negation in the cache is the word of memory that it
stands for, and what it means that a generator, and what it emits, keep that so.
-/

namespace SubleqEmu
namespace Translator

open ByteMemory Subleq Emitter Machine

def Denotes (M : State) (v : CVal) (x : Word) : Prop :=
  match v with
  | .none => False
  | .reg r => M.reg r = x
  | .const c => c = x
  | .neg r => -M.reg r = x

/-- A word has at most one entry, which is right about `m`, and a store held back has one. -/
structure Sound (m : Memory) (J : Cache) (M : State) : Prop where
  entry : ∀ {a v}, Entry J a v → cacheable a = true ∧ Denotes M v (read m a)
  unique : ∀ {a v w}, Entry J a v → Entry J a w → v = w
  pend : ∀ {a}, J.pend = some a → cacheable a = true ∧ ∃ v, Entry J a v

/-- The registers in use are pinned. -/
structure Ready (m : Memory) (P : Set Reg) (J : Cache) (M : State) : Prop
    extends Sound m J M where
  pinned : ∀ r ∈ P, (J.regs r).pinned = true

/-- The store held back. -/
def held (m : Memory) (J : Cache) : List (Word × Word) :=
  match J.pend with
  | some a => [(a, read m a)]
  | none => []

theorem held_none {m : Memory} {J : Cache} (h : J.pend = none) : held m J = [] := by
  rw [held, h]

/-- Memory is `m` but for the store held back. -/
def Current (m : Memory) (J : Cache) (M : State) : Prop :=
  applyStores M.mem (held m J) = m

/-- What stays as it is but for the store held back, which may reach memory. -/
structure Frame (m : Memory) (P : Set Reg) (J : Cache) (M : State) (J' : Cache) (M' : State) :
    Prop where
  reg : ∀ r ∈ P, M'.reg r = M.reg r
  live : J'.flagsLive = J.flagsLive
  flags : J.flagsLive = true → M'.flags = M.flags
  pend : J'.pend = J.pend ∨ J'.pend = none
  init : M'.init = M.init
  stores : M'.stores ++ held m J' = M.stores ++ held m J

/-- From one cache and machine to the next without a store of the program's: the
registers in use stay as they are, with the words that stand for them. -/
structure Keeps (m : Memory) (P : Set Reg) (J : Cache) (M : State) (J' : Cache) (M' : State) :
    Prop extends Frame m P J M J' M' where
  ready : Ready m P J' M'
  addr : ∀ r ∈ P, (J'.regs r).addr = (J.regs r).addr
  names : ∀ r ∈ P, ∀ a n, Alias J' a r n ↔ Alias J a r n

variable {maps : Maps} {m : Memory} {P P' : Set Reg} {J J' J'' : Cache} {M M' M'' M₁ : State}
  {a b : Word} {r s : Reg} {v : CVal} {x : Word} {α β : Type}

theorem Ready.mono (h : Ready m P' J M) (hP : P ⊆ P') : Ready m P J M :=
  ⟨h.toSound, fun r hr => h.pinned r (hP hr)⟩

theorem Ready.insert (h : Ready m P J M) (hr : (J.regs r).pinned = true) :
    Ready m (insert r P) J M := by
  refine ⟨h.toSound, fun s hs => ?_⟩
  rcases hs with rfl | hs
  · exact hr
  · exact h.pinned s hs

theorem Denotes.congr (h : Denotes M v x) (hreg : ∀ s, Uses v s → M'.reg s = M.reg s) :
    Denotes M' v x := by
  cases v with
  | none => exact h
  | const _ => exact h
  | reg s => exact (hreg s (Or.inl rfl)).trans h
  | neg s => exact (congrArg _ (hreg s (Or.inr rfl))).trans h

namespace Frame

theorem trans (h : Frame m P J M J' M') (h' : Frame m P J' M' J'' M'') :
    Frame m P J M J'' M'' where
  reg r hr := (h'.reg r hr).trans (h.reg r hr)
  live := h'.live.trans h.live
  flags hlive := (h'.flags (h.live.trans hlive)).trans (h.flags hlive)
  pend := by
    rcases h'.pend with hp | hp
    · rw [hp]
      exact h.pend
    · exact Or.inr hp
  init := h'.init.trans h.init
  stores := h'.stores.trans h.stores

theorem pend_eq_none (h : Frame m P J M J' M') (hp : J.pend = none) : J'.pend = none := by
  rcases h.pend with h | h
  · rw [h, hp]
  · exact h

theorem denotes (h : Frame m P J M J' M') (hv : Denotes M v x) (huse : ∀ s, Uses v s → s ∈ P) :
    Denotes M' v x :=
  hv.congr fun s hs => h.reg s (huse s hs)

end Frame

namespace Keeps

theorem refl (h : Ready m P J M) : Keeps m P J M J M where
  ready := h
  reg _ _ := rfl
  addr _ _ := rfl
  names _ _ _ _ := Iff.rfl
  live := rfl
  flags _ := rfl
  pend := Or.inl rfl
  init := rfl
  stores := rfl

theorem trans (h : Keeps m P J M J' M') (h' : Keeps m P J' M' J'' M'') :
    Keeps m P J M J'' M'' where
  toFrame := h.toFrame.trans h'.toFrame
  ready := h'.ready
  addr r hr := (h'.addr r hr).trans (h.addr r hr)
  names r hr a n := (h'.names r hr a n).trans (h.names r hr a n)

theorem mono (h : Keeps m P' J M J' M') (hP : P ⊆ P') : Keeps m P J M J' M' where
  ready := h.ready.mono hP
  reg r hr := h.reg r (hP hr)
  addr r hr := h.addr r (hP hr)
  names r hr := h.names r (hP hr)
  live := h.live
  flags := h.flags
  pend := h.pend
  init := h.init
  stores := h.stores

theorem free (h : Keeps m P J M J' M') (hr : r ∈ P) (hfree : Free J r) : Free J' r := by
  rw [free_iff] at hfree ⊢
  simpa only [h.addr r hr, h.names r hr] using hfree

end Keeps

theorem applyStores_append (n : Memory) (l l' : List (Word × Word)) :
    applyStores n (l ++ l') = applyStores (applyStores n l) l' :=
  List.foldl_append ..

/-- Memory with the store held back. -/
theorem applyStores_held (m : Memory) (J : Cache) (M : State) :
    applyStores M.mem (held m J) = applyStores M.init (M.stores ++ held m J) :=
  (applyStores_append ..).symm

theorem Frame.current (h : Frame m P J M J' M') (hc : Current m J M) : Current m J' M' := by
  unfold Current at hc ⊢
  rwa [applyStores_held, h.stores, h.init, ← applyStores_held]

theorem Current.mem_eq (h : Current m J M) (hp : J.pend = none) : M.mem = m := by
  unfold Current held at h
  rw [hp] at h
  exact h

/-! ## Steps of the generator alone -/

theorem SameEntries.sound (h : SameEntries J J') (hpend : J'.pend = J.pend)
    (hs : Sound m J M) : Sound m J' M where
  entry hv := hs.entry (h.entry.mp hv)
  unique hv hw := hs.unique (h.entry.mp hv) (h.entry.mp hw)
  pend hp := by
    obtain ⟨hcache, v, hv⟩ := hs.pend (hpend ▸ hp)
    exact ⟨hcache, v, h.entry.mpr hv⟩

/-- Pins, and the order of use. -/
theorem SameEntries.keeps (h : SameEntries J J') (hr : Ready m P J M)
    (hpend : J'.pend = J.pend) (hlive : J'.flagsLive = J.flagsLive)
    (hpin : ∀ r ∈ P, (J.regs r).pinned = true → (J'.regs r).pinned = true) :
    Keeps m P J M J' M where
  ready := ⟨h.sound hpend hr.toSound, fun r hrP => hpin r hrP (hr.pinned r hrP)⟩
  reg _ _ := rfl
  addr r _ := h.regs r
  names r _ a n := by rw [Alias, h.aliases, Alias]
  live := hlive
  flags _ := rfl
  pend := Or.inl hpend
  init := rfl
  stores := by simp only [held, hpend]

theorem Ready.pin (h : Ready m P J M) (r : Reg) : Keeps m P J M (J.pin r) M :=
  sameEntries_pin.keeps h rfl rfl fun s _ hs => by simp [hs]

theorem Ready.unpin (h : Ready m P J M) (hr : r ∉ P) : Keeps m P J M (J.unpin r) M :=
  sameEntries_unpin.keeps h rfl rfl fun s hsP hs => by
    have hne : s ≠ r := fun heq => hr (heq ▸ hsP)
    simp [hs, hne]

/-! ## Registers without an entry -/

theorem Denotes.set_of_not_uses (h : Denotes M v x) (hr : ¬ Uses v r) (y : Word) :
    Denotes (M.set r y) v x := by
  cases v with
  | none => exact h
  | const c => exact h
  | reg s =>
      have hne : s ≠ r := fun heq => hr (heq ▸ Or.inl rfl)
      simp only [Denotes, State.set, Function.update_of_ne hne]
      exact h
  | neg s =>
      have hne : s ≠ r := fun heq => hr (heq ▸ Or.inr rfl)
      simp only [Denotes, State.set, Function.update_of_ne hne]
      exact h

theorem Sound.set (h : Sound m J M) (hr : Free J r) (y : Word) (f : Option Flags) :
    Sound m J ((M.set r y).setFlags f) where
  entry hv := ⟨(h.entry hv).1, (h.entry hv).2.set_of_not_uses (hr _ _ hv) y⟩
  unique := h.unique
  pend := h.pend

@[simp] theorem set_setFlags_reg (f : Option Flags) :
    ((M.set r x).setFlags f).reg r = x :=
  Function.update_self ..

/-- An instruction that changes a register that is not in use. -/
theorem Ready.set (h : Ready m P J M) (hr : r ∉ P) (hfree : Free J r) (y : Word)
    {f : Option Flags} (hf : J.flagsLive = true → f = M.flags) :
    Keeps m P J M J ((M.set r y).setFlags f) where
  ready := ⟨h.toSound.set hfree y f, h.pinned⟩
  reg s hs := by
    have hne : s ≠ r := fun heq => hr (heq ▸ hs)
    simp only [State.set, State.setFlags, Function.update_of_ne hne]
  addr _ _ := rfl
  names _ _ _ _ := Iff.rfl
  live := rfl
  flags := hf
  pend := Or.inl rfl
  init := rfl
  stores := rfl

/-- One that changes only the flags. -/
theorem Ready.setFlags (h : Ready m P J M) {f : Option Flags}
    (hf : J.flagsLive = true → f = M.flags) : Keeps m P J M J (M.setFlags f) where
  ready := ⟨⟨h.entry, h.unique, h.pend⟩, h.pinned⟩
  reg _ _ := rfl
  addr _ _ := rfl
  names _ _ _ _ := Iff.rfl
  live := rfl
  flags := hf
  pend := Or.inl rfl
  init := rfl
  stores := rfl

@[simp] theorem set_reg : (M.set r x).reg r = x := Function.update_self ..

/-- One that leaves the flags alone. -/
theorem Ready.move (h : Ready m P J M) (hr : r ∉ P) (hfree : Free J r) (y : Word) :
    Keeps m P J M J (M.set r y) :=
  h.set hr hfree y (f := M.flags) fun _ => rfl

/-! ## Generators -/

/-- What the generator emits runs to its end. -/
def Runs (maps : Maps) (J : Cache) (M : State) (g : T α) (Q : α → Cache → State → Prop) : Prop :=
  ∀ ⦃x J' c⦄, g J = some (x, J', c) → ∃ M', exec (step maps) c M = .run M' ∧ Q x J' M'

/-- It keeps what is to be kept. -/
def Emits (maps : Maps) (m : Memory) (P : Set Reg) (J : Cache) (M : State) (g : T α)
    (Q : α → Cache → State → Prop) : Prop :=
  Runs maps J M g fun x J' M' => Keeps m P J M J' M' ∧ Q x J' M'

namespace Runs

variable {g : T α} {f : α → T β} {Q : α → Cache → State → Prop} {R : β → Cache → State → Prop}

theorem pure {x : α} (hQ : Q x J M) : Runs maps J M (pure x) Q := by
  intro _ _ _ heq
  obtain ⟨rfl, rfl, rfl⟩ := pure_eq_some.mp heq
  exact ⟨M, rfl, hQ⟩

theorem bind (hg : Runs maps J M g Q)
    (hf : ∀ x J' M', Q x J' M' → Runs maps J' M' (f x) R) : Runs maps J M (g >>= f) R := by
  intro _ _ _ heq
  obtain ⟨x, J₁, c₁, c₂, hg', hf', rfl⟩ := bind_eq_some.mp heq
  obtain ⟨M₁, hrun, hQ⟩ := hg hg'
  obtain ⟨M₂, hrun', hR⟩ := hf _ _ _ hQ hf'
  exact ⟨M₂, by rw [exec_append_of_run hrun, hrun'], hR⟩

theorem imp {Q' : α → Cache → State → Prop} (h : Runs maps J M g Q)
    (hQ : ∀ x J' M', Q x J' M' → Q' x J' M') : Runs maps J M g Q' := by
  intro _ _ _ heq
  obtain ⟨M', hrun, hQ'⟩ := h heq
  exact ⟨M', hrun, hQ _ _ _ hQ'⟩

theorem and {Q' : α → Cache → State → Prop} (h : Runs maps J M g Q) (h' : Runs maps J M g Q') :
    Runs maps J M g fun x J' M' => Q x J' M' ∧ Q' x J' M' := by
  intro _ _ _ heq
  obtain ⟨M₁, hrun, hQ⟩ := h heq
  obtain ⟨M₂, hrun', hQ'⟩ := h' heq
  rw [hrun] at hrun'
  cases hrun'
  exact ⟨M₁, hrun, hQ, hQ'⟩

theorem getState {f : Cache → T β} (h : Runs maps J M (f J) R) :
    Runs maps J M (Emitter.getState >>= f) R := by
  intro _ _ _ heq
  rw [getState_bind] at heq
  exact h heq

theorem modify {k : Cache → Cache} {Q : Unit → Cache → State → Prop} (h : Q () (k J) M) :
    Runs maps J M (modifyState k) Q := by
  intro _ _ _ heq
  obtain ⟨rfl, rfl⟩ := modifyState_eq_some.mp heq
  exact ⟨M, rfl, h⟩

theorem quiet_bind {x : α} (hg : g J = some (x, J', [])) (hf : Runs maps J' M (f x) R) :
    Runs maps J M (g >>= f) R := by
  intro _ _ _ heq
  rw [bind_of_quiet hg] at heq
  exact hf heq

theorem modify_bind {k : Cache → Cache} {f : Unit → T β} (h : Runs maps (k J) M (f ()) R) :
    Runs maps J M (modifyState k >>= f) R := by
  intro _ _ _ heq
  rw [modifyState_bind] at heq
  exact h heq

end Runs

namespace Emits

variable {g : T α} {f : α → T β} {Q : α → Cache → State → Prop} {R : β → Cache → State → Prop}
  {i : Insn}

theorem pure {x : α} (h : Ready m P J M) (hQ : Q x J M) :
    Emits maps m P J M (pure x) Q := by
  intro _ _ _ heq
  obtain ⟨rfl, rfl, rfl⟩ := pure_eq_some.mp heq
  exact ⟨M, rfl, .refl h, hQ⟩

theorem fail : Emits maps m P J M (fail : T α) Q := nofun

theorem bind_in (hg : Emits maps m P' J M g Q) (hP : P ⊆ P')
    (hf : ∀ x J' M', Keeps m P' J M J' M' → Q x J' M' → Emits maps m P J' M' (f x) R) :
    Emits maps m P J M (g >>= f) R := by
  intro _ _ _ heq
  obtain ⟨x, J₁, c₁, c₂, hg', hf', rfl⟩ := bind_eq_some.mp heq
  obtain ⟨M₁, hrun, hkeep, hQ⟩ := hg hg'
  obtain ⟨M₂, hrun', hkeep', hR⟩ := hf _ _ _ hkeep hQ hf'
  exact ⟨M₂, by rw [exec_append_of_run hrun, hrun'], (hkeep.mono hP).trans hkeep', hR⟩

theorem bind (hg : Emits maps m P J M g Q)
    (hf : ∀ x J' M', Keeps m P J M J' M' → Q x J' M' → Emits maps m P J' M' (f x) R) :
    Emits maps m P J M (g >>= f) R :=
  bind_in hg subset_rfl hf

theorem getState {f : Cache → T β} (h : Emits maps m P J M (f J) R) :
    Emits maps m P J M (Emitter.getState >>= f) R := by
  intro _ _ _ heq
  rw [getState_bind] at heq
  exact h heq

theorem modify {k : Cache → Cache} {Q : Unit → Cache → State → Prop}
    (h : Keeps m P J M (k J) M) (hQ : Q () (k J) M) :
    Emits maps m P J M (modifyState k) Q := by
  intro _ _ _ heq
  obtain ⟨rfl, rfl⟩ := modifyState_eq_some.mp heq
  exact ⟨M, rfl, h, hQ⟩

theorem modify_bind {k : Cache → Cache} {f : Unit → T β} (h : Keeps m P J M (k J) M)
    (hf : Emits maps m P (k J) M (f ()) R) :
    Emits maps m P J M (modifyState k >>= f) R := by
  intro _ _ _ heq
  rw [modifyState_bind] at heq
  obtain ⟨M', hrun, hkeep, hR⟩ := hf heq
  exact ⟨M', hrun, h.trans hkeep, hR⟩

theorem emit {Q : Unit → Cache → State → Prop} (hstep : step maps i M = .run M₁)
    (h : Keeps m P J M J M₁) (hQ : Q () J M₁) : Emits maps m P J M (Emitter.emit i) Q := by
  intro _ _ _ heq
  obtain ⟨rfl, rfl⟩ := emit_eq_some.mp heq
  exact ⟨M₁, by rw [exec_singleton, hstep], h, hQ⟩

theorem emit_bind {f : Unit → T β} (hstep : step maps i M = .run M₁)
    (h : Keeps m P J M J M₁) (hf : Emits maps m P J M₁ (f ()) R) :
    Emits maps m P J M (Emitter.emit i >>= f) R := by
  intro _ _ _ heq
  obtain ⟨c', hf', rfl⟩ := emit_bind_eq_some.mp heq
  obtain ⟨M', hrun, hkeep, hR⟩ := hf hf'
  exact ⟨M', by rw [exec_cons_of_run hstep, hrun], h.trans hkeep, hR⟩

theorem mono_set (h : Emits maps m P' J M g Q) (hP : P ⊆ P') : Emits maps m P J M g Q := by
  intro _ _ _ heq
  obtain ⟨M', hrun, hkeep, hQ⟩ := h heq
  exact ⟨M', hrun, hkeep.mono hP, hQ⟩

theorem imp {Q' : α → Cache → State → Prop} (h : Emits maps m P J M g Q)
    (hQ : ∀ x J' M', Keeps m P J M J' M' → Q x J' M' → Q' x J' M') :
    Emits maps m P J M g Q' := by
  intro _ _ _ heq
  obtain ⟨M', hrun, hkeep, hQ'⟩ := h heq
  exact ⟨M', hrun, hkeep, hQ _ _ _ hkeep hQ'⟩

end Emits

end Translator
end SubleqEmu
