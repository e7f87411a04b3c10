import SubleqEmu.KeyboardModel
import Mathlib.Data.List.GetD
import Mathlib.Tactic

/-!
# Histories of keys

Keys pressed, repeated and released, as a set-1 keyboard encodes them, and what the
handler makes of them: a flag stands for two keys, and some codes have no character in
the tables.
-/

namespace SubleqEmu
namespace Keyboard

variable {beyond : List (BitVec 8) → ℕ → BitVec 8} {m : Modifiers} {b : BitVec 8}

/-! ## Reads of the tables -/

/-- Where the handler reads the table of its characters, if it does. -/
def tableIndex (m : Modifiers) (inputByte : BitVec 8) : Option ℕ :=
  if inputByte = 0xe0 ∨ m.extraScancodes = true ∨ (keypadWrite inputByte).isSome = true ∨
      (modifierKey m inputByte).isSome = true ∨ maxCode ≤ inputByte.toNat then none
  else some inputByte.toNat

theorem mem_tableIndex {i : ℕ} : i ∈ tableIndex m b ↔
    b ≠ 0xe0 ∧ m.extraScancodes = false ∧ keypadWrite b = none ∧ modifierKey m b = none ∧
      b.toNat < maxCode ∧ b.toNat = i := by
  simp [tableIndex, and_assoc]

def ReadsPast (m : Modifiers) (inputByte : BitVec 8) : Prop :=
  ∃ i ∈ tableIndex m inputByte, m.table.length ≤ i

/-- A byte that reads past no table is handled the same whatever lies behind it. -/
theorem keyboardHandler_congr (h : ¬ ReadsPast m b) (beyond' : List (BitVec 8) → ℕ → BitVec 8) :
    keyboardHandler beyond m b = keyboardHandler beyond' m b := by
  unfold keyboardHandler
  split_ifs with hcode hextra hmax
  · rfl
  · rfl
  · cases hkeypad : keypadWrite b with
    | some write => rfl
    | none =>
        cases hmodifier : modifierKey m b with
        | some m' => rfl
        | none =>
            have hindex : b.toNat ∈ tableIndex m b := mem_tableIndex.mpr
              ⟨hcode, Bool.eq_false_of_not_eq_true hextra, hkeypad, hmodifier, hmax, rfl⟩
            have hlt : b.toNat < m.table.length := by
              by_contra hge
              exact h ⟨b.toNat, hindex, not_lt.mp hge⟩
            dsimp only
            rw [readTable, readTable, List.getD_eq_getElem _ _ hlt,
              List.getD_eq_getElem _ _ hlt]
  · rfl

/-- The tables have the same length. -/
theorem length_table (m : Modifiers) : m.table.length = 58 := by
  obtain ⟨capslock, shift, ctrl, extra⟩ := m
  revert capslock shift ctrl extra
  decide

/-- The codes below `MAX_CODE` that have no character and nothing else to do. -/
def tableless (code : BitVec 8) : Bool :=
  0x3b ≤ code && code < 0x57 && code ∉ [0x47, 0x48, 0x49, 0x4b, 0x4c, 0x4d, 0x50]

theorem readsPast_iff (hextra : m.extraScancodes = false) :
    ReadsPast m b ↔ tableless b = true := by
  have hbytes : ∀ b : BitVec 8, (b ≠ 0xe0 ∧ keypadWrite b = none ∧
      modifierKey ⟨false, false, false, false⟩ b = none ∧ b.toNat < maxCode ∧
        58 ≤ b.toNat) ↔ tableless b = true := by
    decide +kernel
  have hmodifier : modifierKey m b = none ↔
      modifierKey ⟨false, false, false, false⟩ b = none := by
    unfold modifierKey
    split <;> simp
  rw [← hbytes, ← hmodifier]
  constructor
  · rintro ⟨i, hi, hge⟩
    obtain ⟨hcode, -, hkeypad, hmodifier, hmax, rfl⟩ := mem_tableIndex.mp hi
    rw [length_table] at hge
    exact ⟨hcode, hkeypad, hmodifier, hmax, hge⟩
  · rintro ⟨hcode, hkeypad, hmodifier, hmax, hge⟩
    refine ⟨b.toNat, mem_tableIndex.mpr ⟨hcode, hextra, hkeypad, hmodifier, hmax, rfl⟩, ?_⟩
    rwa [length_table]

/-! ## Keys -/

/-- A key by its make code, after the prefix `0xe0` if it is an extended one.  No break
code is the prefix itself. -/
structure Key where
  extended : Bool
  make : BitVec 8
  small : make < 0x80
  ne_escape : make ≠ 0x60
  deriving DecidableEq

def leftShift : Key := ⟨false, 0x2A, by decide, by decide⟩
def rightShift : Key := ⟨false, 0x36, by decide, by decide⟩
def leftCtrl : Key := ⟨false, 0x1D, by decide, by decide⟩
def rightCtrl : Key := ⟨true, 0x1D, by decide, by decide⟩

/-- The make or the break code. -/
def codeByte (make : BitVec 8) (down : Bool) : BitVec 8 := if down then make else make ||| 0x80

/-- What the keyboard sends of a key. -/
def Key.code (k : Key) (down : Bool) : List (BitVec 8) :=
  (if k.extended then [0xe0] else []) ++ [codeByte k.make down]

inductive KeyEvent
  | press (k : Key)
  | typematic (k : Key)
  | release (k : Key)

namespace KeyEvent

def key : KeyEvent → Key
  | press k | typematic k | release k => k

def down : KeyEvent → Bool
  | release _ => false
  | _ => true

def bytes (e : KeyEvent) : List (BitVec 8) := e.key.code e.down

end KeyEvent

/-- The keys held. -/
abbrev Held := Key → Bool

def Held.after (held : Held) (e : KeyEvent) : Held := Function.update held e.key e.down

/-- A key is pressed only when up, and repeated and released only when held. -/
def Held.allows (held : Held) : KeyEvent → Prop
  | .press k => held k = false
  | .typematic k | .release k => held k = true

/-- The handler on one byte after the other. -/
def feed (beyond : List (BitVec 8) → ℕ → BitVec 8) (m : Modifiers) (bytes : List (BitVec 8)) :
    Modifiers :=
  bytes.foldl (fun m b => (keyboardHandler beyond m b).modifiers) m

/-- Whether one of the bytes makes the handler read past a table. -/
def Overreads (beyond : List (BitVec 8) → ℕ → BitVec 8) : Modifiers → List (BitVec 8) → Prop
  | _, [] => False
  | m, b :: rest =>
      ReadsPast m b ∨ Overreads beyond (keyboardHandler beyond m b).modifiers rest

/-- The flags stand for the keys held. -/
structure Matches (held : Held) (m : Modifiers) : Prop where
  shift : m.shiftActive = (held leftShift || held rightShift)
  ctrl : m.ctrlActive = (held leftCtrl || held rightCtrl)

/-! ## One event -/

/-- What a byte without the prefix does to the flags. -/
def plainModifiers (m : Modifiers) (b : BitVec 8) : Modifiers :=
  if (keypadWrite b).isSome then m else (modifierKey m b).getD m

theorem modifiers_plain (hcode : b ≠ 0xe0) (hextra : m.extraScancodes = false) :
    (keyboardHandler beyond m b).modifiers = plainModifiers m b := by
  rw [keyboardHandler, if_neg hcode, hextra, if_neg Bool.false_ne_true, plainModifiers]
  cases keypadWrite b with
  | some write => rfl
  | none =>
      cases modifierKey m b with
      | some m' => rfl
      | none =>
          dsimp only
          split_ifs <;> rfl

theorem modifiers_extended (hcode : b ≠ 0xe0) :
    (keyboardHandler beyond { m with extraScancodes := true } b).modifiers =
      (extraScancode { m with extraScancodes := false } b).modifiers := by
  rw [keyboardHandler, if_neg hcode, if_pos rfl]

theorem codeByte_ne_escape (k : Key) (down : Bool) : codeByte k.make down ≠ 0xe0 := by
  have hbytes : ∀ make : BitVec 8, make < 0x80 → make ≠ 0x60 → ∀ down,
      codeByte make down ≠ 0xe0 := by decide +kernel
  exact hbytes k.make k.small k.ne_escape down

/-- The flags after the code of a key. -/
structure Effect (k : Key) (down : Bool) (m m' : Modifiers) : Prop where
  extra : m'.extraScancodes = false
  shift : m'.shiftActive = if k = leftShift ∨ k = rightShift then down else m.shiftActive
  ctrl : m'.ctrlActive = if k = leftCtrl ∨ k = rightCtrl then down else m.ctrlActive

theorem feed_code (beyond : List (BitVec 8) → ℕ → BitVec 8) (hextra : m.extraScancodes = false)
    (k : Key) (down : Bool) : Effect k down m (feed beyond m (k.code down)) := by
  have hcode := codeByte_ne_escape k down
  obtain ⟨extended, make, small, ne_escape⟩ := k
  obtain ⟨capslock, shift, ctrl, extra⟩ := m
  obtain rfl : extra = false := hextra
  have hkey : ∀ k : Key, (⟨extended, make, small, ne_escape⟩ : Key) = k ↔
      extended = k.extended ∧ make = k.make := by
    intro k
    cases k
    exact Key.mk.injEq .. ▸ Iff.rfl
  cases extended with
  | false =>
      have hbytes : ∀ make : BitVec 8, make < 0x80 → make ≠ 0x60 →
          ∀ down capslock shift ctrl,
          (plainModifiers ⟨capslock, shift, ctrl, false⟩ (codeByte make down)).extraScancodes =
              false ∧
            (plainModifiers ⟨capslock, shift, ctrl, false⟩ (codeByte make down)).shiftActive =
              (if make = 0x2A ∨ make = 0x36 then down else shift) ∧
            (plainModifiers ⟨capslock, shift, ctrl, false⟩ (codeByte make down)).ctrlActive =
              (if make = 0x1D then down else ctrl) := by
        decide +kernel
      have hfeed : feed beyond ⟨capslock, shift, ctrl, false⟩
          (Key.code ⟨false, make, small, ne_escape⟩ down) =
          plainModifiers ⟨capslock, shift, ctrl, false⟩ (codeByte make down) :=
        modifiers_plain hcode rfl
      obtain ⟨h₁, h₂, h₃⟩ := hbytes make small ne_escape down capslock shift ctrl
      rw [hfeed]
      refine ⟨h₁, h₂.trans ?_, h₃.trans ?_⟩ <;> simp [hkey, leftShift, rightShift, leftCtrl,
        rightCtrl]
  | true =>
      have hbytes : ∀ make : BitVec 8, make < 0x80 → make ≠ 0x60 →
          ∀ down capslock shift ctrl,
          (extraScancode ⟨capslock, shift, ctrl, false⟩ (codeByte make down)).modifiers =
            ⟨capslock, shift, if make = 0x1D then down else ctrl, false⟩ := by
        decide +kernel
      have hfeed : feed beyond ⟨capslock, shift, ctrl, false⟩
          (Key.code ⟨true, make, small, ne_escape⟩ down) =
          (extraScancode ⟨capslock, shift, ctrl, false⟩ (codeByte make down)).modifiers :=
        modifiers_extended (m := ⟨capslock, shift, ctrl, false⟩) hcode
      rw [hfeed, hbytes make small ne_escape down capslock shift ctrl]
      refine ⟨rfl, ?_, ?_⟩ <;> simp [hkey, leftShift, rightShift, leftCtrl, rightCtrl]

/-- A key without the prefix whose make code has no character. -/
def Key.Tableless (k : Key) : Prop := k.extended = false ∧ tableless k.make = true

theorem overreads_code (hextra : m.extraScancodes = false) (k : Key) (down : Bool) :
    Overreads beyond m (k.code down) ↔ down = true ∧ k.Tableless := by
  obtain ⟨extended, make, small, ne_escape⟩ := k
  have hbreak : ∀ make : BitVec 8, tableless (make ||| 0x80) = false := by decide +kernel
  cases extended with
  | false =>
      show ReadsPast m (codeByte make down) ∨ False ↔ _
      rw [or_false, readsPast_iff hextra]
      cases down with
      | false =>
          rw [codeByte, if_neg Bool.false_ne_true, hbreak]
          simp
      | true => simp [codeByte, Key.Tableless]
  | true =>
      have hbefore : ¬ ReadsPast m 0xe0 := by
        rintro ⟨i, hi, -⟩
        exact (mem_tableIndex.mp hi).1 rfl
      have hafter : ¬ ReadsPast { m with extraScancodes := true } (codeByte make down) := by
        rintro ⟨i, hi, -⟩
        exact Bool.noConfusion (mem_tableIndex.mp hi).2.1
      show ReadsPast m 0xe0 ∨ ReadsPast { m with extraScancodes := true } (codeByte make down) ∨
        False ↔ _
      rw [Key.Tableless]
      simp only [hbefore, hafter, reduceCtorEq, or_self, false_and, and_false]

/-- A flag that stands for two keys goes wrong when one is released and the other held. -/
theorem flag_iff {held : Held} {k l : Key} {flag : Bool} (hne : k ≠ l)
    (hflag : flag = (held k || held l)) (e : KeyEvent) :
    (if e.key = k ∨ e.key = l then e.down else flag) =
        (held.after e k || held.after e l) ↔
      ¬ (e.down = false ∧ (e.key = k ∧ held l = true ∨ e.key = l ∧ held k = true)) := by
  unfold Held.after
  by_cases hk : e.key = k
  · subst hk
    rw [if_pos (Or.inl rfl), Function.update_self, Function.update_of_ne hne.symm]
    cases e.down <;> simp [hne]
  · by_cases hl : e.key = l
    · subst hl
      rw [if_pos (Or.inr rfl), Function.update_self, Function.update_of_ne hne]
      cases e.down <;> simp [hk]
    · rw [if_neg (by simp [hk, hl]), Function.update_of_ne (Ne.symm hk),
        Function.update_of_ne (Ne.symm hl)]
      simp [hk, hl, hflag]

/-- An event that leaves the flags right and reads past no table. -/
structure Harmless (held : Held) (e : KeyEvent) : Prop where
  shift : ¬ (e.down = false ∧
    (e.key = leftShift ∧ held rightShift = true ∨ e.key = rightShift ∧ held leftShift = true))
  ctrl : ¬ (e.down = false ∧
    (e.key = leftCtrl ∧ held rightCtrl = true ∨ e.key = rightCtrl ∧ held leftCtrl = true))
  table : ¬ (e.down = true ∧ e.key.Tableless)

theorem event_iff {held : Held} (hmatches : Matches held m) (hextra : m.extraScancodes = false)
    (e : KeyEvent) :
    (Matches (held.after e) (feed beyond m e.bytes) ∧ ¬ Overreads beyond m e.bytes) ↔
      Harmless held e := by
  have heffect := feed_code beyond hextra e.key e.down
  have hshift := flag_iff (by decide : leftShift ≠ rightShift) hmatches.shift e
  have hctrl := flag_iff (by decide : leftCtrl ≠ rightCtrl) hmatches.ctrl e
  rw [← heffect.shift] at hshift
  rw [← heffect.ctrl] at hctrl
  rw [KeyEvent.bytes, overreads_code hextra]
  constructor
  · rintro ⟨hafter, htable⟩
    exact ⟨hshift.mp hafter.shift, hctrl.mp hafter.ctrl, htable⟩
  · intro h
    exact ⟨⟨hshift.mpr h.shift, hctrl.mpr h.ctrl⟩, h.table⟩

/-! ## Histories -/

/-- Whether keys can be pressed and released like this. -/
def Possible : Held → List KeyEvent → Prop
  | _, [] => True
  | held, e :: rest => held.allows e ∧ Possible (held.after e) rest

/-- After each event the flags match the keys held, and no byte reads past a table. -/
def Follows (beyond : List (BitVec 8) → ℕ → BitVec 8) :
    Held → Modifiers → List KeyEvent → Prop
  | _, _, [] => True
  | held, m, e :: rest =>
      (Matches (held.after e) (feed beyond m e.bytes) ∧ ¬ Overreads beyond m e.bytes) ∧
        Follows beyond (held.after e) (feed beyond m e.bytes) rest

def AllHarmless : Held → List KeyEvent → Prop
  | _, [] => True
  | held, e :: rest => Harmless held e ∧ AllHarmless (held.after e) rest

theorem follows_iff_of_matches {held : Held} {events : List KeyEvent}
    (hmatches : Matches held m) (hextra : m.extraScancodes = false) :
    Follows beyond held m events ↔ AllHarmless held events := by
  induction events generalizing held m with
  | nil => exact Iff.rfl
  | cons e rest ih =>
      rw [Follows, AllHarmless, event_iff hmatches hextra]
      apply and_congr_right
      intro hharmless
      have hafter := ((@event_iff beyond _ _ hmatches hextra e).mpr hharmless).1
      exact ih hafter (feed_code beyond hextra e.key e.down).extra

def noKeys : Held := fun _ => false

/-- The statics as they are at first. -/
def Modifiers.initial : Modifiers := ⟨false, false, false, false⟩

/-- The handler follows a history exactly if all its events are harmless. -/
theorem follows_iff (beyond : List (BitVec 8) → ℕ → BitVec 8) (events : List KeyEvent) :
    Follows beyond noKeys .initial events ↔ AllHarmless noKeys events :=
  follows_iff_of_matches ⟨rfl, rfl⟩ rfl

/-- Both shifts are pressed, and the left one is released. -/
def bothShifts : List KeyEvent := [.press leftShift, .press rightShift, .release leftShift]

/-- The right shift is held, but the flag is clear. -/
theorem not_follows_bothShifts :
    ¬ ∀ beyond events, Possible noKeys events → Follows beyond noKeys .initial events := by
  intro h
  have hpossible : Possible noKeys bothShifts := by
    refine ⟨rfl, rfl, rfl, trivial⟩
  obtain ⟨-, -, ⟨hmatches, -⟩, -⟩ := h (fun _ _ => 0) bothShifts hpossible
  exact absurd hmatches.shift (by decide)

end Keyboard
end SubleqEmu
