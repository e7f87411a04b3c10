import Mathlib.Data.List.Destutter
import SubleqEmu.MousePosition

/-!
# Button changes reach Dawn in order

The states of the buttons that `mouse_update` writes, without repeats, are those
of the packets, without repeats, but for the changes still in the queue.
-/

namespace SubleqEmu
namespace Mouse

/-! ## Lists without repeats -/

section

variable {α : Type} [DecidableEq α]

theorem destutter'_concat (a x : α) (l : List α) :
    (l ++ [x]).destutter' (· ≠ ·) a =
      if l.getLastD a = x then l.destutter' (· ≠ ·) a else l.destutter' (· ≠ ·) a ++ [x] := by
  induction l generalizing a with
  | nil =>
      by_cases heq : a = x <;> simp [List.destutter', heq]
  | cons b l ih =>
      rw [List.getLastD_cons, List.cons_append]
      by_cases heq : a = b
      · subst heq
        rw [List.destutter'_cons_neg _ (by simp), List.destutter'_cons_neg _ (by simp)]
        exact ih a
      · rw [List.destutter'_cons_pos _ heq, List.destutter'_cons_pos _ heq, ih b]
        split_ifs <;> rfl

theorem getLastD_destutter' (a d : α) (l : List α) :
    (l.destutter' (· ≠ ·) a).getLastD d = l.getLastD a := by
  induction l generalizing a d with
  | nil => rfl
  | cons b l ih =>
      rw [List.getLastD_cons]
      by_cases heq : a = b
      · subst heq
        rw [List.destutter'_cons_neg _ (by simp)]
        exact ih a d
      · rw [List.destutter'_cons_pos _ heq, List.getLastD_cons]
        exact ih b a

end

/-! ## The states of the buttons -/

/-- The left, right and middle button. -/
abbrev Buttons := Word × Word × Word

def DmousePacket.buttons (dp : DmousePacket) : Buttons :=
  (dp.mouseClickL, dp.mouseClickR, dp.mouseClickM)

def released : Buttons := (0, 0, 0)

/-- The states a sequence of packets goes through from all buttons released. -/
def changes (packets : List DmousePacket) : List Buttons :=
  (released :: packets.map DmousePacket.buttons).destutter (· ≠ ·)

/-- The state after them. -/
def lastButtons (packets : List DmousePacket) : Buttons :=
  (packets.map DmousePacket.buttons).getLastD released

theorem changes_concat (packets : List DmousePacket) (dp : DmousePacket) :
    changes (packets ++ [dp]) =
      if lastButtons packets = dp.buttons then changes packets
      else changes packets ++ [dp.buttons] := by
  unfold changes lastButtons
  rw [List.map_append]
  exact destutter'_concat _ _ _

theorem getLastD_changes (packets : List DmousePacket) (d : Buttons) :
    (changes packets).getLastD d = lastButtons packets :=
  getLastD_destutter' _ _ _

theorem lastButtons_concat (packets : List DmousePacket) (dp : DmousePacket) :
    lastButtons (packets ++ [dp]) = dp.buttons := by
  simp [lastButtons]

theorem click_ne_zero (pressed : Bool) : decide (click pressed ≠ 0) = pressed := by
  cases pressed <;> decide

/-- A state of the buttons that some packet has. -/
def Clicks (b : Buttons) : Prop := ∃ l r m, b = (click l, click r, click m)

theorem clicks_released : Clicks released := ⟨false, false, false, rfl⟩

theorem clicks_processPacket (width height : ℕ) (s : State) (p : MousePacket) :
    Clicks (processPacket width height s p).1.buttons :=
  ⟨_, _, _, rfl⟩

/-- `is_location_info` compares the buttons with those of the last packet. -/
theorem isLocationInfo_iff {width height : ℕ} {s : State} {p : MousePacket}
    (hlast : Clicks s.last.buttons) :
    isLocationInfo s p = true ↔
      (processPacket width height s p).1.buttons = s.last.buttons := by
  obtain ⟨l, r, m, hbuttons⟩ := hlast
  obtain ⟨hl, hr, hm⟩ : s.last.mouseClickL = click l ∧ s.last.mouseClickR = click r ∧
      s.last.mouseClickM = click m := by
    simpa [DmousePacket.buttons] using hbuttons
  have hclick : ∀ a b, click a = click b ↔ a = b := by decide
  rw [hbuttons]
  unfold isLocationInfo
  dsimp only
  rw [show s.packets.getLastD s.dawn = s.last from rfl, hl, hr, hm]
  simp only [click_ne_zero, Bool.and_eq_true, beq_iff_eq, processPacket, DmousePacket.buttons,
    Prod.mk.injEq, hclick, and_assoc]

/-! ## The invariant -/

/-- What is written and what is still queued make up what was received. -/
structure History.Inv (r : History) : Prop where
  split : changes r.written ++ r.state.packets.map DmousePacket.buttons = changes r.received
  current : r.state.packets = [] → r.state.dawn.buttons = lastButtons r.written
  clicks : Clicks r.state.last.buttons

theorem State.last_buttons (s : State) :
    s.last.buttons = (s.packets.map DmousePacket.buttons).getLastD s.dawn.buttons := by
  exact List.getLastD_map.symm

theorem History.Inv.last {r : History} (h : r.Inv) :
    r.state.last.buttons = lastButtons r.received := by
  rw [← getLastD_changes r.received released, ← h.split, State.last_buttons]
  cases hpackets : r.state.packets with
  | nil =>
      rw [List.map_nil, List.append_nil, getLastD_changes]
      exact h.current hpackets
  | cons dp rest =>
      rw [List.getLastD_eq_getLast?, List.getLastD_eq_getLast?, List.getLast?_append,
        List.map_cons, List.getLast?_cons]
      rfl

theorem inv_boot (d : Screen.Dimensions) : (boot d).Inv :=
  ⟨rfl, fun _ => rfl, clicks_released⟩

theorem History.Inv.packet {width height : ℕ} {r r' : History} {p : MousePacket} (h : r.Inv)
    (hstep : step width height r (.packet p) = some r') : r'.Inv := by
  obtain ⟨⟨dp, s⟩, haccept, rfl⟩ := Option.map_eq_some_iff.mp hstep
  obtain ⟨rfl, -, hcases⟩ := acceptPacket_eq_some haccept
  have hiff := @isLocationInfo_iff width height _ p h.clicks
  rw [h.last] at hiff
  have hclicks := clicks_processPacket width height r.state p
  rcases hcases with ⟨hinfo, hpackets, hdawn⟩ | ⟨hinfo, hpackets, hdawn⟩
  · have hsame := hiff.mp hinfo
    refine ⟨?_, fun hempty => ?_, ?_⟩
    · show changes r.written ++ s.packets.map _ = changes (r.received ++ [_])
      rw [changes_concat, if_pos hsame.symm, hpackets]
      exact h.split
    · show s.dawn.buttons = lastButtons r.written
      rw [hdawn, hsame, ← h.last, State.last_buttons, ← hpackets, hempty]
      exact h.current (hpackets ▸ hempty)
    · show Clicks s.last.buttons
      cases hqueue : s.packets with
      | nil =>
          rw [State.last_buttons, hqueue, hdawn]
          exact hclicks
      | cons first rest =>
          have hlast : s.last = r.state.last := by
            rw [State.last, State.last, ← hpackets, hqueue, List.getLastD_cons,
              List.getLastD_cons]
          rw [hlast]
          exact h.clicks
  · have hne : ¬ lastButtons r.received = (processPacket width height r.state p).1.buttons := by
      intro heq
      rw [hiff.mpr heq.symm] at hinfo
      cases hinfo
    refine ⟨?_, fun hempty => ?_, ?_⟩
    · show changes r.written ++ s.packets.map _ = changes (r.received ++ [_])
      rw [changes_concat, if_neg hne, hpackets, ← h.split, List.map_append, List.append_assoc]
      rfl
    · have hlength := congrArg List.length (hpackets.symm.trans hempty)
      simp at hlength
    · show Clicks s.last.buttons
      rw [State.last, hpackets]
      simpa using hclicks

theorem getLast?_changes (packets : List DmousePacket) :
    (changes packets).getLast? = some (lastButtons packets) := by
  have hne : changes packets ≠ [] := List.destutter'_ne_nil _ _
  rw [List.getLast?_eq_some_getLast hne, ← getLastD_changes packets released,
    List.getLastD_eq_getLast?, List.getLast?_eq_some_getLast hne]
  rfl

/-- The first change queued is one from what is written. -/
theorem History.Inv.first_ne {r : History} (h : r.Inv) {dp : DmousePacket}
    {rest : List DmousePacket} (hqueue : r.state.packets = dp :: rest) :
    lastButtons r.written ≠ dp.buttons := by
  have hchain : (changes r.received).IsChain (· ≠ ·) := List.isChain_destutter _ _
  rw [← h.split, hqueue, List.map_cons, List.isChain_append] at hchain
  exact hchain.2.2 _ (getLast?_changes r.written) _ rfl

theorem History.Inv.update {width height : ℕ} {r r' : History} {cleared : Bool} (h : r.Inv)
    (hstep : step width height r (.update cleared) = some r') : r'.Inv := by
  cases cleared with
  | false =>
      cases hstep
      exact h
  | true =>
      simp only [step] at hstep
      rcases mouseUpdate_cases r.state with heq | ⟨hempty, heq⟩ | ⟨dp, rest, hqueue, heq⟩
      · rw [heq] at hstep
        cases hstep
        refine ⟨?_, fun hempty => ?_, h.clicks⟩
        · show changes (r.written ++ []) ++ _ = _
          rw [List.append_nil]
          exact h.split
        · show r.state.dawn.buttons = lastButtons (r.written ++ [])
          rw [List.append_nil]
          exact h.current hempty
      · rw [heq] at hstep
        cases hstep
        have hcurrent := h.current hempty
        refine ⟨?_, fun _ => ?_, h.clicks⟩
        · show changes (r.written ++ [r.state.dawn]) ++ _ = _
          rw [changes_concat, if_pos hcurrent.symm]
          exact h.split
        · exact (lastButtons_concat _ _).symm
      · rw [heq] at hstep
        cases hstep
        refine ⟨?_, fun _ => (lastButtons_concat _ _).symm, ?_⟩
        · show changes (r.written ++ [dp]) ++ rest.map DmousePacket.buttons = changes r.received
          rw [changes_concat, if_neg (h.first_ne hqueue), ← h.split, hqueue, List.map_cons,
            List.append_assoc]
          rfl
        · have hlast : State.last { r.state with dawn := dp, packets := rest } =
              r.state.last := by
            rw [State.last, State.last, hqueue, List.getLastD_cons]
          show Clicks (State.last _).buttons
          rw [hlast]
          exact h.clicks

theorem History.Inv.run {width height : ℕ} {events : List Event} {r r' : History} (h : r.Inv)
    (hrun : Mouse.run width height r events = some r') : r'.Inv := by
  induction events generalizing r with
  | nil =>
      cases hrun
      exact h
  | cons event events ih =>
      obtain ⟨r₁, hstep, hrest⟩ := Option.bind_eq_some_iff.mp hrun
      cases event with
      | packet p => exact ih (h.packet hstep) hrest
      | update cleared => exact ih (h.update hstep) hrest

/-! ## Transitions -/

/-- The states written are a prefix of those received and all of them once the queue
is empty; a packet only overflows the queue when 1024 of its changes are not taken. -/
theorem buttons_in_order (d : Screen.Dimensions) {events : List Event} {r : History}
    (hrun : run d.width d.height (boot d) events = some r) :
    changes r.written <+: changes r.received ∧
      (r.state.packets = [] → changes r.written = changes r.received) ∧
      ∀ p, step d.width d.height r (.packet p) = none →
        (changes r.received).length = (changes r.written).length + 1024 := by
  have hinv := (inv_boot d).run hrun
  refine ⟨⟨_, hinv.split⟩, fun hempty => ?_, fun p hpanic => ?_⟩
  · rw [← hinv.split, hempty, List.map_nil, List.append_nil]
  · obtain ⟨-, hfull⟩ := acceptPacket_eq_none (Option.map_eq_none_iff.mp hpanic)
    rw [← hinv.split, List.length_append, List.length_map, hfull]
    rfl

/-- A button is pressed and released again, and Dawn takes the press. -/
def pressAndRelease : List Event := [.packet ⟨0x09, 0, 0⟩, .packet ⟨0x08, 0, 0⟩, .update true]

theorem pressAndRelease_isSome :
    (run vgaScreen.width vgaScreen.height (boot vgaScreen) pressAndRelease).isSome = true := by
  decide +kernel

theorem buttons_in_order_pressAndRelease :
    ∃ r, run vgaScreen.width vgaScreen.height (boot vgaScreen) pressAndRelease = some r ∧
      changes r.written <+: changes r.received ∧
      (r.state.packets = [] → changes r.written = changes r.received) ∧
      ∀ p, step vgaScreen.width vgaScreen.height r (.packet p) = none →
        (changes r.received).length = (changes r.written).length + 1024 := by
  obtain ⟨r, hr⟩ := Option.isSome_iff_exists.mp pressAndRelease_isSome
  exact ⟨r, hr, buttons_in_order vgaScreen hr⟩

/-- Without the released buttons in front of them, the states written need not begin
with those of the packets, which do start from there. -/
theorem written_not_prefix :
    ∃ r, run vgaScreen.width vgaScreen.height (boot vgaScreen) pressAndRelease = some r ∧
      ¬ (r.written.map DmousePacket.buttons).destutter (· ≠ ·) <+: changes r.received := by
  obtain ⟨r, hr⟩ := Option.isSome_iff_exists.mp pressAndRelease_isSome
  have hfirst : (run vgaScreen.width vgaScreen.height (boot vgaScreen) pressAndRelease).all
      (fun r => !((r.written.map DmousePacket.buttons).destutter (· ≠ ·)).isPrefixOf
        (changes r.received)) = true := by decide +kernel
  rw [hr, Option.all_some] at hfirst
  refine ⟨r, hr, fun hprefix => ?_⟩
  rw [List.isPrefixOf_iff_prefix.mpr hprefix] at hfirst
  cases hfirst

end Mouse
end SubleqEmu
