import SubleqEmu.TranslatorModel

/-!
# What the cache says

The entries of the cache, which lookups find, and what the operations on the tables do
to them.
-/

namespace SubleqEmu
namespace Translator

open ByteMemory Subleq Emitter Machine

/-- An entry that says how the word at `a` is known. -/
def Entry (J : Cache) (a : Word) : CVal → Prop
  | .none => False
  | .const c => ∃ k, J.consts k = some (a, c)
  | .reg r => (J.regs r).addr = some a ∨ ∃ k, J.aliases k = some ⟨a, r, false⟩
  | .neg r => ∃ k, J.aliases k = some ⟨a, r, true⟩

/-- A word that stands for a register, or for its negation. -/
def Alias (J : Cache) (a : Word) (r : Reg) (n : Bool) : Prop := ∃ k, J.aliases k = some ⟨a, r, n⟩

/-- A value that needs a register. -/
def Uses (v : CVal) (r : Reg) : Prop := v = .reg r ∨ v = .neg r

instance (v : CVal) (r : Reg) : Decidable (Uses v r) := inferInstanceAs (Decidable (_ ∨ _))

/-- No word stands for the register. -/
def Free (J : Cache) (r : Reg) : Prop := ∀ a v, Entry J a v → ¬ Uses v r

variable {J J' : Cache} {a b : Word} {r s : Reg} {v : CVal}

theorem not_uses_none : ¬ Uses .none r := by rintro (h | h) <;> cases h

theorem not_uses_const {c : Word} : ¬ Uses (.const c) r := by rintro (h | h) <;> cases h

theorem uses_reg : Uses (.reg s) r ↔ r = s := by
  constructor
  · rintro (h | h) <;> cases h
    rfl
  · rintro rfl
    exact Or.inl rfl

theorem uses_neg : Uses (.neg s) r ↔ r = s := by
  constructor
  · rintro (h | h) <;> cases h
    rfl
  · rintro rfl
    exact Or.inr rfl

/-! ## Lookups -/

theorem findConst_eq_some {c : Word} (h : J.findConst a = some c) :
    ∃ k, J.consts k = some (a, c) := by
  obtain ⟨k, -, hk⟩ := List.exists_of_findSome?_eq_some h
  obtain ⟨e, he, rfl⟩ := Option.map_eq_some_iff.mp hk
  rw [Option.filter_eq_some_iff, decide_eq_true_eq] at he
  obtain ⟨he, rfl⟩ := he
  exact ⟨k, he⟩

theorem findConst_eq_none (h : J.findConst a = none) (k : Fin 16) (c : Word) :
    J.consts k ≠ some (a, c) := by
  intro hk
  have := List.findSome?_eq_none_iff.mp h k (List.mem_finRange k)
  simp [hk] at this

theorem findAlias_eq_some {c : Calias} (h : J.findAlias a = some c) :
    ∃ k, J.aliases k = some ⟨a, c.reg, c.neg⟩ := by
  obtain ⟨k, -, hk⟩ := List.exists_of_findSome?_eq_some h
  rw [Option.filter_eq_some_iff, decide_eq_true_eq] at hk
  obtain ⟨hk, rfl⟩ := hk
  exact ⟨k, hk⟩

theorem findAlias_eq_none (h : J.findAlias a = none) (k : Fin 16) (r : Reg) (n : Bool) :
    J.aliases k ≠ some ⟨a, r, n⟩ := by
  intro hk
  have := List.findSome?_eq_none_iff.mp h k (List.mem_finRange k)
  simp [hk] at this

theorem findReg_eq_none (h : J.findReg a = none) (r : Reg) : (J.regs r).addr ≠ some a := by
  have := List.find?_eq_none.mp h r (List.mem_finRange r)
  simpa using this

theorem lookup_entry (h : J.lookup a ≠ .none) : Entry J a (J.lookup a) := by
  unfold Cache.lookup at h ⊢
  split_ifs at h ⊢ with hcache
  · exact absurd rfl h
  · cases hconst : J.findConst a with
    | some c => exact findConst_eq_some hconst
    | none =>
        cases hreg : J.findReg a with
        | some r =>
            have hr := List.find?_some hreg
            exact Or.inl (by simpa using hr)
        | none =>
            cases halias : J.findAlias a with
            | some c =>
                obtain ⟨k, hk⟩ := findAlias_eq_some halias
                cases hneg : c.neg with
                | true =>
                    rw [hneg] at hk
                    simp only [hneg, if_true]
                    exact ⟨k, hk⟩
                | false =>
                    rw [hneg] at hk
                    simp only [hneg, Bool.false_eq_true, if_false]
                    exact Or.inr ⟨k, hk⟩
            | none =>
                rw [hconst, hreg, halias] at h
                exact absurd rfl h

theorem lookup_ne_none (hcache : cacheable a = true) (h : Entry J a v) :
    J.lookup a ≠ .none := by
  intro hnone
  unfold Cache.lookup at hnone
  rw [hcache] at hnone
  cases hconst : J.findConst a with
  | some c => simp [hconst] at hnone
  | none =>
      cases hreg : J.findReg a with
      | some r => simp [hconst, hreg] at hnone
      | none =>
          cases halias : J.findAlias a with
          | some c =>
              rw [hconst, hreg, halias] at hnone
              cases hneg : c.neg <;> simp [hneg] at hnone
          | none =>
              cases v with
              | none => exact h
              | const c =>
                  obtain ⟨k, hk⟩ := h
                  exact findConst_eq_none hconst k c hk
              | reg r =>
                  rcases h with h | ⟨k, hk⟩
                  · exact findReg_eq_none hreg r h
                  · exact findAlias_eq_none halias k r _ hk
              | neg r =>
                  obtain ⟨k, hk⟩ := h
                  exact findAlias_eq_none halias k r _ hk

theorem lookup_eq_none (h : J.lookup a = .none) (hcache : cacheable a = true) :
    ∀ v, ¬ Entry J a v :=
  fun _ hv => lookup_ne_none hcache hv h

theorem aliased_iff : J.aliased r = true ↔ ∃ a n, Alias J a r n := by
  constructor
  · intro h
    obtain ⟨k, -, hk⟩ := List.any_eq_true.mp h
    obtain ⟨⟨a, s, n⟩, hc⟩ := Option.isSome_iff_exists.mp hk
    rw [Option.filter_eq_some_iff, decide_eq_true_eq] at hc
    obtain ⟨hc, rfl⟩ := hc
    exact ⟨a, n, k, hc⟩
  · rintro ⟨a, n, k, hk⟩
    refine List.any_eq_true.mpr ⟨k, List.mem_finRange k, ?_⟩
    simp [hk]

theorem free_iff : Free J r ↔ (J.regs r).addr = none ∧ ∀ a n, ¬ Alias J a r n := by
  constructor
  · intro h
    constructor
    · by_contra haddr
      obtain ⟨a, ha⟩ := Option.ne_none_iff_exists'.mp haddr
      exact h a (.reg r) (Or.inl ha) (Or.inl rfl)
    · intro a n hk
      cases n
      · exact h a (.reg r) (Or.inr hk) (Or.inl rfl)
      · exact h a (.neg r) hk (Or.inr rfl)
  · rintro ⟨haddr, halias⟩ a v hv huse
    rcases huse with rfl | rfl
    · rcases hv with hv | hk
      · rw [haddr] at hv
        cases hv
      · exact halias a _ hk
    · exact halias a _ hv

/-! ## Operations that change no entry -/

/-- Caches with the same tables. -/
structure SameEntries (J J' : Cache) : Prop where
  regs : ∀ r, (J'.regs r).addr = (J.regs r).addr
  consts : J'.consts = J.consts
  aliases : J'.aliases = J.aliases

theorem SameEntries.trans {J'' : Cache} (h : SameEntries J J') (h' : SameEntries J' J'') :
    SameEntries J J'' :=
  ⟨fun r => (h'.regs r).trans (h.regs r), h'.consts.trans h.consts, h'.aliases.trans h.aliases⟩

theorem SameEntries.entry (h : SameEntries J J') : Entry J' a v ↔ Entry J a v := by
  cases v with
  | none => rfl
  | const c => simp only [Entry, h.consts]
  | reg r => simp only [Entry, h.regs, h.aliases]
  | neg r => simp only [Entry, h.aliases]

theorem setReg_regs (J : Cache) (r s : Reg) (f : Creg → Creg) :
    (J.setReg r f).regs s = if s = r then f (J.regs r) else J.regs s := by
  rw [Cache.setReg]
  exact Function.update_apply _ _ _ _

theorem sameEntries_setReg {f : Creg → Creg} (hf : (f (J.regs r)).addr = (J.regs r).addr) :
    SameEntries J (J.setReg r f) := by
  refine ⟨fun s => ?_, rfl, rfl⟩
  rw [setReg_regs]
  split_ifs with h
  · rw [hf, h]
  · rfl

theorem sameEntries_pin : SameEntries J (J.pin r) := sameEntries_setReg rfl

theorem sameEntries_unpin : SameEntries J (J.unpin r) := sameEntries_setReg rfl

theorem sameEntries_touch : SameEntries J (J.touch r) :=
  ⟨(sameEntries_setReg (f := fun c => { c with lru := J.lruClock + 1 }) rfl).regs, rfl, rfl⟩

theorem sameEntries_unpinAll : SameEntries J J.unpinAll := ⟨fun _ => rfl, rfl, rfl⟩

@[simp] theorem pin_pinned : ((J.pin r).regs s).pinned = (decide (s = r) || (J.regs s).pinned) := by
  rw [Cache.pin, setReg_regs]
  split_ifs with h <;> simp [h]

@[simp] theorem unpin_pinned :
    ((J.unpin r).regs s).pinned = (decide (s ≠ r) && (J.regs s).pinned) := by
  rw [Cache.unpin, setReg_regs]
  split_ifs with h <;> simp [h]

@[simp] theorem touch_pinned : ((J.touch r).regs s).pinned = (J.regs s).pinned := by
  rw [Cache.touch]
  simp only [setReg_regs]
  split_ifs with h <;> simp [h]

/-! ## Operations that drop entries -/

theorem alias_drop {n : Bool} : Alias (J.drop a) b r n ↔ Alias J b r n ∧ b ≠ a := by
  simp only [Alias, Cache.drop, Option.filter_eq_some_iff, decide_eq_true_eq]
  simp

theorem entry_drop : Entry (J.drop a) b v ↔ Entry J b v ∧ b ≠ a := by
  have hreg : ∀ r, ((J.drop a).regs r).addr = some b ↔ (J.regs r).addr = some b ∧ b ≠ a := by
    intro r
    simp only [Cache.drop]
    split_ifs with h
    · simp [h, eq_comm]
    · constructor
      · intro hb
        refine ⟨hb, ?_⟩
        rintro rfl
        exact h hb
      · exact And.left
  have halias : ∀ n r, (∃ k, (J.drop a).aliases k = some ⟨b, r, n⟩) ↔
      (∃ k, J.aliases k = some ⟨b, r, n⟩) ∧ b ≠ a := fun n r => alias_drop
  cases v with
  | none => simp [Entry]
  | const c =>
      simp only [Entry, Cache.drop, Option.filter_eq_some_iff, decide_eq_true_eq]
      simp
  | reg r => simp only [Entry, hreg, halias, or_and_right]
  | neg r => simp only [Entry, halias]

theorem entry_dropAll : ¬ Entry J.dropAll a v := by
  cases v <;> simp [Entry, Cache.dropAll]

theorem alias_forget {n : Bool} : Alias (J.forget r) a s n ↔ Alias J a s n ∧ s ≠ r := by
  simp only [Alias, Cache.forget, Option.filter_eq_some_iff, decide_eq_true_eq]
  simp

theorem entry_forget : Entry (J.forget r) a v ↔ Entry J a v ∧ ¬ Uses v r := by
  have halias : ∀ n s, (∃ k, (J.forget r).aliases k = some ⟨a, s, n⟩) ↔
      (∃ k, J.aliases k = some ⟨a, s, n⟩) ∧ s ≠ r := fun n s => alias_forget
  have hregs : ∀ s, ((J.forget r).regs s).addr = some a ↔ (J.regs s).addr = some a ∧ s ≠ r := by
    intro s
    simp only [Cache.forget, setReg_regs]
    split_ifs with h <;> simp [h]
  cases v with
  | none => simp [Entry]
  | const c =>
      simp only [Entry, not_uses_const, not_false_eq_true, and_true]
      rfl
  | reg s =>
      simp only [Entry, hregs, halias, uses_reg, ne_eq, or_and_right, eq_comm (a := r)]
  | neg s => simp only [Entry, halias, uses_neg, ne_eq, eq_comm (a := r)]

@[simp] theorem forget_pinned : ((J.forget r).regs s).pinned = (J.regs s).pinned := by
  simp only [Cache.forget, setReg_regs]
  split_ifs with h
  · rw [h]
  · rfl

theorem forget_addr (h : s ≠ r) : ((J.forget r).regs s).addr = (J.regs s).addr := by
  simp only [Cache.forget, setReg_regs, if_neg h]

theorem free_forget : Free (J.forget r) r := fun _ _ hv => (entry_forget.mp hv).2

/-! ## Operations that add an entry -/

theorem entry_putConst {k : Fin 16} {c : Word}
    (h : Entry { J with consts := Function.update J.consts k (some (a, c)) } b v) :
    Entry J b v ∨ b = a ∧ v = .const c := by
  cases v with
  | const c' =>
      obtain ⟨k', hk'⟩ := h
      simp only at hk'
      by_cases hk : k' = k
      · rw [hk, Function.update_self] at hk'
        obtain ⟨rfl, rfl⟩ := Prod.mk.inj (Option.some.inj hk')
        exact Or.inr ⟨rfl, rfl⟩
      · rw [Function.update_of_ne hk] at hk'
        exact Or.inl ⟨k', hk'⟩
  | _ => exact Or.inl h

theorem entry_putConst_self {k : Fin 16} {c : Word} :
    Entry { J with consts := Function.update J.consts k (some (a, c)) } a (.const c) :=
  ⟨k, Function.update_self _ _ _⟩

theorem entry_setConst {c : Word} (h : Entry (J.setConst a c) b v) :
    Entry J b v ∧ b ≠ a ∨ b = a ∧ v = .const c ∧ cacheable a = true := by
  unfold Cache.setConst at h
  simp only at h
  split_ifs at h with hcache
  · exact Or.inl (entry_drop.mp h)
  · have hcache' : cacheable a = true := by simpa using hcache
    split at h
    · exact (entry_putConst h).imp entry_drop.mp fun h => ⟨h.1, h.2, hcache'⟩
    · exact (entry_putConst h).imp entry_drop.mp fun h => ⟨h.1, h.2, hcache'⟩

theorem entry_setConst_self {c : Word} (hcache : cacheable a = true) :
    Entry (J.setConst a c) a (.const c) := by
  unfold Cache.setConst
  simp only [hcache, Bool.not_true, Bool.false_eq_true, if_false]
  split
  · exact entry_putConst_self
  · exact entry_putConst_self

theorem entry_putAlias {k : Fin 16} {n : Bool}
    (h : Entry { J with aliases := Function.update J.aliases k (some ⟨a, r, n⟩) } b v) :
    Entry J b v ∨ b = a ∧ v = if n then .neg r else .reg r := by
  have halias : ∀ {s n'}, (∃ k', Function.update J.aliases k (some ⟨a, r, n⟩) k' =
      some ⟨b, s, n'⟩) → (∃ k', J.aliases k' = some ⟨b, s, n'⟩) ∨ b = a ∧ s = r ∧ n' = n := by
    rintro s n' ⟨k', hk'⟩
    by_cases hk : k' = k
    · rw [hk, Function.update_self] at hk'
      cases hk'
      exact Or.inr ⟨rfl, rfl, rfl⟩
    · rw [Function.update_of_ne hk] at hk'
      exact Or.inl ⟨k', hk'⟩
  cases v with
  | reg s =>
      rcases h with h | h
      · exact Or.inl (Or.inl h)
      · rcases halias h with h | ⟨rfl, rfl, rfl⟩
        · exact Or.inl (Or.inr h)
        · exact Or.inr ⟨rfl, rfl⟩
  | neg s =>
      rcases halias h with h | ⟨rfl, rfl, rfl⟩
      · exact Or.inl h
      · exact Or.inr ⟨rfl, rfl⟩
  | _ => exact Or.inl h

theorem entry_putAlias_self {k : Fin 16} {n : Bool} :
    Entry { J with aliases := Function.update J.aliases k (some ⟨a, r, n⟩) } a
      (if n then .neg r else .reg r) := by
  cases n
  · exact Or.inr ⟨k, Function.update_self _ _ _⟩
  · exact ⟨k, Function.update_self _ _ _⟩

/-- What another word than that of the alias forgotten had stays. -/
theorem entry_putAlias_of {k : Fin 16} {c : Calias} (hv : Entry J b v)
    (hk : ∀ c', J.aliases k = some c' → c'.addr ≠ b) :
    Entry { J with aliases := Function.update J.aliases k (some c) } b v := by
  have halias : ∀ {s n}, (∃ k', J.aliases k' = some ⟨b, s, n⟩) →
      ∃ k', Function.update J.aliases k (some c) k' = some ⟨b, s, n⟩ := by
    rintro s n ⟨k', hk'⟩
    refine ⟨k', ?_⟩
    rw [Function.update_of_ne, hk']
    rintro rfl
    exact hk _ hk' rfl
  cases v with
  | reg s => exact hv.imp_right halias
  | neg s => exact halias hv
  | _ => exact hv

/-- A register that caches the word at `a` instead of what it cached before. -/
theorem entry_bindReg (h : Entry (J.bindReg r a) b v) :
    Entry J b v ∧ (cacheable a = true → b ≠ a) ∨
      b = a ∧ v = .reg r ∧ cacheable a = true := by
  unfold Cache.bindReg at h
  split_ifs at h with hcache
  · refine Or.inl ⟨h, fun hc => ?_⟩
    simp [hc] at hcache
  · have hcache' : cacheable a = true := by simpa using hcache
    rw [sameEntries_touch.entry] at h
    have hdrop : ∀ {v}, Entry (J.drop a) b v → Entry J b v ∧ (cacheable a = true → b ≠ a) :=
      fun hv => ⟨(entry_drop.mp hv).1, fun _ => (entry_drop.mp hv).2⟩
    cases v with
    | reg s =>
        rcases h with h | h
        · rw [setReg_regs] at h
          split_ifs at h with hs
          · cases h
            rw [hs]
            exact Or.inr ⟨rfl, rfl, hcache'⟩
          · exact Or.inl (hdrop (Or.inl h))
        · exact Or.inl (hdrop (Or.inr h))
    | _ => exact Or.inl (hdrop h)

theorem entry_bindReg_self (hcache : cacheable a = true) :
    Entry (J.bindReg r a) a (.reg r) := by
  unfold Cache.bindReg
  rw [if_neg (by simp [hcache]), sameEntries_touch.entry]
  left
  rw [setReg_regs, if_pos rfl]

/-- What is not for `a`, and not what the register cached before, stays. -/
theorem entry_bindReg_of (hv : Entry J b v) (hb : b ≠ a)
    (hr : (J.regs r).addr = some b → v ≠ .reg r) : Entry (J.bindReg r a) b v := by
  unfold Cache.bindReg
  split_ifs with hcache
  · exact hv
  · rw [sameEntries_touch.entry]
    have hdrop := entry_drop.mpr ⟨hv, hb⟩
    cases v with
    | reg s =>
        rcases hdrop with h | h
        · left
          rw [setReg_regs]
          split_ifs with hs
          · have hdropped : ((J.drop a).regs s).addr = some b → (J.regs s).addr = some b := by
              simp only [Cache.drop]
              split_ifs <;> simp
            exact absurd (by rw [hs]) (hr (hs ▸ hdropped h))
          · exact h
        · exact Or.inr h
    | _ => exact hdrop

@[simp] theorem bindReg_pend : (J.bindReg r a).pend = J.pend := by
  rw [Cache.bindReg]
  split_ifs <;> rfl

@[simp] theorem bindReg_flagsLive : (J.bindReg r a).flagsLive = J.flagsLive := by
  rw [Cache.bindReg]
  split_ifs <;> rfl

@[simp] theorem drop_pinned : ((J.drop a).regs s).pinned = (J.regs s).pinned := by
  simp only [Cache.drop]
  split_ifs <;> rfl

@[simp] theorem bindReg_pinned : ((J.bindReg r a).regs s).pinned = (J.regs s).pinned := by
  rw [Cache.bindReg]
  split_ifs with hcache
  · rfl
  · rw [touch_pinned, setReg_regs]
    split_ifs with hs
    · simp [hs]
    · exact drop_pinned

theorem bindReg_addr (h : cacheable a = true → (J.regs s).addr ≠ some a) (hs : s ≠ r) :
    ((J.bindReg r a).regs s).addr = (J.regs s).addr := by
  rw [Cache.bindReg]
  split_ifs with hcache
  · rfl
  · rw [sameEntries_touch.regs, setReg_regs, if_neg hs, Cache.drop]
    simp only
    rw [if_neg (h (by simpa using hcache))]

theorem alias_bindReg {n : Bool} :
    Alias (J.bindReg r a) b s n ↔ Alias J b s n ∧ (cacheable a = true → b ≠ a) := by
  rw [Cache.bindReg]
  split_ifs with hcache
  · have hcache' : ¬ cacheable a = true := by simpa using hcache
    simp [hcache']
  · have hcache' : cacheable a = true := by simpa using hcache
    rw [show Alias (((J.drop a).setReg r fun c => { c with addr := some a }).touch r) b s n ↔
      Alias (J.drop a) b s n from Iff.rfl, alias_drop]
    simp [hcache']

end Translator
end SubleqEmu
