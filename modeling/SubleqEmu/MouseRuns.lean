import Mathlib.Tactic
import SubleqEmu.MouseModel
import SubleqEmu.ScreenModel

/-!
# Runs of the mouse

Packets the handler accepts, interleaved in any way with `mouse_update`.  A run
keeps what `process_packet` computed from each packet and what `mouse_update`
wrote.
-/

namespace SubleqEmu
namespace Mouse

/-- `mouse_update` only writes once Dawn has cleared the mouse registers. -/
inductive Event
  | packet (p : MousePacket)
  | update (cleared : Bool)
  deriving DecidableEq

/-- The mouse, with what it received and wrote so far. -/
structure History where
  state : State
  received : List DmousePacket
  written : List DmousePacket
  deriving DecidableEq

/-- `mouse_handler` at the last byte of a packet that is not discarded, but for the
cursor; `none` is the panic. -/
def acceptPacket (width height : ℕ) (s : State) (p : MousePacket) : Option (DmousePacket × State) :=
  let (dp, s) := processPacket width height { s with hwMouseEnabled := true } p
  (queuePacket s p dp).map fun s => (dp, s)

def step (width height : ℕ) (r : History) : Event → Option History
  | .packet p =>
      (acceptPacket width height r.state p).map fun (dp, s) =>
        { r with state := s, received := r.received ++ [dp] }
  | .update true =>
      let (dp, s) := mouseUpdate r.state
      some { r with state := s, written := r.written ++ dp.toList }
  | .update false => some r

def run (width height : ℕ) : History → List Event → Option History
  | r, [] => some r
  | r, event :: events =>
      (step width height r event).bind fun r => run width height r events

def boot (d : Screen.Dimensions) : History := ⟨(Screen.boot d).mouse, [], []⟩

/-- Plotting the cursor changes nothing else of the mouse. -/
theorem acceptPacket_screen (d : Screen.Dimensions) (s : Screen.State) (p : MousePacket) :
    (Screen.acceptPacket d s p).map
        (fun s' => { s'.mouse with lastPlottedMouseX := 0, lastPlottedMouseY := 0 }) =
      (acceptPacket d.width d.height s.mouse p).map
        (fun r => { r.2 with lastPlottedMouseX := 0, lastPlottedMouseY := 0 }) := by
  simp only [Screen.acceptPacket, acceptPacket, Screen.putMouseCursor, processPacket, if_true,
    queuePacket]
  have hlocation : ∀ s', s'.packets = s.mouse.packets → s'.dawn = s.mouse.dawn →
      isLocationInfo s' p = isLocationInfo s.mouse p := by
    intro s' hpackets hdawn
    rw [isLocationInfo, hpackets, hdawn]
    rfl
  simp only [hlocation]
  cases isLocationInfo s.mouse p with
  | true => rfl
  | false => by_cases hfull : s.mouse.packets.length = maxPackets <;> simp [hfull]

/-! ## What the handler and `mouse_update` do -/

/-- The packet whose buttons the next one is compared with. -/
def State.last (s : State) : DmousePacket := s.packets.getLastD s.dawn

theorem mouseUpdate_cases (s : State) :
    mouseUpdate s = (none, s) ∨
      (s.packets = [] ∧ mouseUpdate s = (some s.dawn, s)) ∨
      ∃ dp rest, s.packets = dp :: rest ∧
        mouseUpdate s = (some dp, { s with dawn := dp, packets := rest }) := by
  unfold mouseUpdate
  split_ifs
  · cases hpackets : s.packets with
    | nil => exact Or.inr (Or.inl ⟨rfl, rfl⟩)
    | cons dp rest => exact Or.inr (Or.inr ⟨dp, rest, rfl, rfl⟩)
  · exact Or.inl rfl

theorem last_mouseUpdate (s : State) : (mouseUpdate s).2.last = s.last := by
  rcases mouseUpdate_cases s with heq | ⟨-, heq⟩ | ⟨dp, rest, hpackets, heq⟩
  · rw [heq]
  · rw [heq]
  · rw [heq, State.last, State.last, hpackets, List.getLastD_cons]

theorem mouseUpdate_of_empty {s : State} (henabled : s.hwMouseEnabled = true)
    (hempty : s.packets = []) : mouseUpdate s = (some s.dawn, s) := by
  rw [mouseUpdate, if_pos henabled, hempty]

theorem mouseUpdate_enabled (s : State) :
    (mouseUpdate s).2.hwMouseEnabled = s.hwMouseEnabled := by
  rcases mouseUpdate_cases s with heq | ⟨-, heq⟩ | ⟨dp, rest, -, heq⟩ <;> rw [heq]

/-- What an accepted packet does to the queue and to the current values. -/
theorem acceptPacket_eq_some {width height : ℕ} {s s' : State} {p : MousePacket}
    {dp : DmousePacket} (h : acceptPacket width height s p = some (dp, s')) :
    dp = (processPacket width height s p).1 ∧ s'.hwMouseEnabled = true ∧
      ((isLocationInfo s p = true ∧ s'.packets = s.packets ∧ s'.dawn = dp) ∨
        (isLocationInfo s p = false ∧ s'.packets = s.packets ++ [dp] ∧ s'.dawn = s.dawn)) := by
  simp only [acceptPacket, queuePacket] at h
  have hlocation : isLocationInfo (processPacket width height
      { s with hwMouseEnabled := true } p).2 p = isLocationInfo s p := rfl
  rw [hlocation] at h
  cases hinfo : isLocationInfo s p with
  | true =>
      rw [hinfo, if_pos rfl] at h
      cases h
      exact ⟨rfl, rfl, Or.inl ⟨rfl, rfl, rfl⟩⟩
  | false =>
      rw [hinfo, if_neg (by decide)] at h
      split_ifs at h
      · cases h
      · cases h
        exact ⟨rfl, rfl, Or.inr ⟨rfl, rfl, rfl⟩⟩

theorem acceptPacket_eq_none {width height : ℕ} {s : State} {p : MousePacket}
    (h : acceptPacket width height s p = none) :
    isLocationInfo s p = false ∧ s.packets.length = maxPackets := by
  simp only [acceptPacket, queuePacket] at h
  have hlocation : isLocationInfo (processPacket width height
      { s with hwMouseEnabled := true } p).2 p = isLocationInfo s p := rfl
  rw [hlocation] at h
  cases hinfo : isLocationInfo s p with
  | true =>
      rw [hinfo, if_pos rfl] at h
      cases h
  | false =>
      rw [hinfo, if_neg (by decide)] at h
      split_ifs at h with hfull
      · exact ⟨rfl, hfull⟩
      · cases h

end Mouse
end SubleqEmu
