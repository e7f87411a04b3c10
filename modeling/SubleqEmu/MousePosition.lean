import SubleqEmu.MouseRuns

/-!
# The position Dawn is left with

Moves without a change of the buttons go straight into the current values, while
button changes wait in the queue with the position they came at.  Taking one from
the queue overwrites a later move.
-/

namespace SubleqEmu
namespace Mouse

def DmousePacket.SamePosition (a b : DmousePacket) : Prop :=
  a.mouseX = b.mouseX ∧ a.mouseY = b.mouseY

instance (a b : DmousePacket) : Decidable (a.SamePosition b) :=
  inferInstanceAs (Decidable (_ ∧ _))

/-- A packet that arrives at an empty queue, or is itself queued, or leaves the pointer
where the last queued packet has it. -/
def KeepsPosition (width height : ℕ) (s : State) (p : MousePacket) : Prop :=
  s.packets = [] ∨ isLocationInfo s p = false ∨
    s.last.SamePosition (processPacket width height s p).1

/-- The next `mouse_update` writes the position of the last packet received. -/
def History.PositionCurrent (r : History) : Prop :=
  ∃ w dp, (mouseUpdate r.state).1 = some w ∧ r.received.getLast? = some dp ∧ w.SamePosition dp

theorem step_update {width height : ℕ} {r r' : History} {cleared : Bool}
    (h : step width height r (.update cleared) = some r') :
    r'.state.last = r.state.last ∧ r'.received = r.received ∧
      r'.state.hwMouseEnabled = r.state.hwMouseEnabled := by
  cases cleared with
  | true =>
      cases h
      exact ⟨last_mouseUpdate r.state, rfl, mouseUpdate_enabled r.state⟩
  | false =>
      cases h
      exact ⟨rfl, rfl, rfl⟩

theorem run_updates {width height : ℕ} {updates : List Event} {r r' : History}
    (hupdates : ∀ event ∈ updates, ∃ cleared, event = .update cleared)
    (h : run width height r updates = some r') :
    r'.state.last = r.state.last ∧ r'.received = r.received ∧
      r'.state.hwMouseEnabled = r.state.hwMouseEnabled := by
  induction updates generalizing r with
  | nil =>
      cases h
      exact ⟨rfl, rfl, rfl⟩
  | cons event updates ih =>
      obtain ⟨cleared, rfl⟩ := hupdates event List.mem_cons_self
      obtain ⟨r₁, hstep, hrest⟩ := Option.bind_eq_some_iff.mp h
      obtain ⟨hlast, hreceived, henabled⟩ := step_update hstep
      obtain ⟨hlast', hreceived', henabled'⟩ :=
        ih (fun event hevent => hupdates event (List.mem_cons_of_mem _ hevent)) hrest
      exact ⟨hlast'.trans hlast, hreceived'.trans hreceived, henabled'.trans henabled⟩

/-- The packet that decides about the position after the queue has been taken. -/
theorem last_acceptPacket {width height : ℕ} {s s' : State} {p : MousePacket}
    {dp : DmousePacket} (h : acceptPacket width height s p = some (dp, s')) :
    s'.last.SamePosition dp ↔ KeepsPosition width height s p := by
  obtain ⟨rfl, -, ⟨hinfo, hpackets, hdawn⟩ | ⟨hinfo, hpackets, hdawn⟩⟩ := acceptPacket_eq_some h
  · cases hqueue : s.packets with
    | nil =>
        have hlast : s'.last = s'.dawn := by rw [State.last, hpackets, hqueue]; rfl
        rw [hlast, hdawn]
        exact iff_of_true ⟨rfl, rfl⟩ (Or.inl hqueue)
    | cons first rest =>
        have hlast : s'.last = s.last := by
          rw [State.last, State.last, hpackets, hqueue, List.getLastD_cons, List.getLastD_cons]
        rw [hlast]
        constructor
        · intro hsame
          exact Or.inr (Or.inr hsame)
        · rintro (hnil | hqueued | hsame)
          · rw [hqueue] at hnil
            cases hnil
          · rw [hinfo] at hqueued
            cases hqueued
          · exact hsame
  · have hlast : s'.last = (processPacket width height s p).1 := by
      rw [State.last, hpackets]
      simp
    rw [hlast]
    exact iff_of_true ⟨rfl, rfl⟩ (Or.inr (Or.inl hinfo))

/-- After every run whose last packet is `p`, once the queue is empty, the position is
current exactly when `p` kept it, whatever came before. -/
theorem positionCurrent_iff (d : Screen.Dimensions) {updates : List Event} {p : MousePacket}
    {r₀ r : History} (hupdates : ∀ event ∈ updates, ∃ cleared, event = .update cleared)
    (hrun : run d.width d.height r₀ (.packet p :: updates) = some r)
    (hempty : r.state.packets = []) :
    r.PositionCurrent ↔ KeepsPosition d.width d.height r₀.state p := by
  obtain ⟨r₁, hstep, hrest⟩ := Option.bind_eq_some_iff.mp hrun
  obtain ⟨⟨dp, s⟩, haccept, rfl⟩ := Option.map_eq_some_iff.mp hstep
  obtain ⟨hlast, hreceived, henabled⟩ := run_updates hupdates hrest
  obtain ⟨-, hs, -⟩ := acceptPacket_eq_some haccept
  have hwritten : mouseUpdate r.state = (some r.state.dawn, r.state) :=
    mouseUpdate_of_empty (henabled.trans hs) hempty
  have hdawn : r.state.dawn = s.last := by
    rw [← hlast, State.last, hempty]
    rfl
  have hlatest : r.received.getLast? = some dp := by
    rw [hreceived]
    exact List.getLast?_concat
  rw [← last_acceptPacket haccept]
  constructor
  · rintro ⟨w, dp', hw, hdp, hsame⟩
    rw [hwritten] at hw
    cases hw
    rw [hlatest] at hdp
    cases hdp
    rwa [← hdawn]
  · intro hsame
    exact ⟨r.state.dawn, dp, by rw [hwritten], hlatest, by rwa [hdawn]⟩

def vgaScreen : Screen.Dimensions where
  width := 640
  height := 480
  pitch := 2560
  width_pos := by decide
  height_pos := by decide
  width_le := by decide
  height_lt := by decide
  pitch_lt := by decide

/-- The left button is pressed, and before Dawn takes the press the pointer moves. -/
def pressAndMove : List Event :=
  [.packet ⟨0x09, 0, 0⟩, .packet ⟨0x09, 10, 0⟩, .update true]

theorem pressAndMove_leaves_stale :
    ∃ r, run vgaScreen.width vgaScreen.height (boot vgaScreen) pressAndMove = some r ∧
      r.state.packets = [] ∧ ¬ r.PositionCurrent := by
  obtain ⟨r, hr⟩ := Option.isSome_iff_exists.mp
    (by decide +kernel : (run vgaScreen.width vgaScreen.height (boot vgaScreen)
      pressAndMove).isSome = true)
  have hstale : (run vgaScreen.width vgaScreen.height (boot vgaScreen) pressAndMove).all
      (fun r => r.state.packets.isEmpty && match (mouseUpdate r.state).1, r.received.getLast? with
        | some w, some dp => w.mouseX != dp.mouseX
        | _, _ => false) = true := by decide +kernel
  rw [hr, Option.all_some] at hstale
  obtain ⟨hempty, hmoved⟩ := Bool.and_eq_true_iff.mp hstale
  refine ⟨r, hr, List.isEmpty_iff.mp hempty, ?_⟩
  rintro ⟨w, dp, hw, hdp, hsame, -⟩
  rw [hw, hdp] at hmoved
  simp [hsame] at hmoved

theorem positionCurrent_iff_pressAndMove :
    ∃ r₀ r, run vgaScreen.width vgaScreen.height (boot vgaScreen) [.packet ⟨0x09, 0, 0⟩] =
        some r₀ ∧
      run vgaScreen.width vgaScreen.height r₀ [.packet ⟨0x09, 10, 0⟩, .update true] = some r ∧
      (r.PositionCurrent ↔
        KeepsPosition vgaScreen.width vgaScreen.height r₀.state ⟨0x09, 10, 0⟩) := by
  obtain ⟨r, hr, hempty, -⟩ := pressAndMove_leaves_stale
  obtain ⟨r₀, hfirst, hrest⟩ := Option.bind_eq_some_iff.mp hr
  have hbefore : run vgaScreen.width vgaScreen.height (boot vgaScreen)
      [.packet ⟨0x09, 0, 0⟩] = some r₀ := by rw [run, hfirst]; rfl
  refine ⟨r₀, r, hbefore, hrest, positionCurrent_iff vgaScreen ?_ hrest hempty⟩
  simp

end Mouse
end SubleqEmu
