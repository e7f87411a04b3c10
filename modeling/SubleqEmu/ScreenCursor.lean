import SubleqEmu.ScreenModel
import Mathlib.Tactic.Linarith
import Mathlib.Tactic.Ring

/-!
# What is on screen

A pixel of the framebuffer differs from `antibuffer0` only under an opaque pixel
of the cursor plotted last, and while the mouse is enabled the pointer is where
that cursor is.  So every packet and every new frame leave the frame on screen,
with the cursor at the pointer if the mouse is enabled.
-/

namespace SubleqEmu
namespace Screen

open Mouse

variable {d : Dimensions}

/-! ## Pixels -/

def Dimensions.Visible (d : Dimensions) (x y : ℕ) : Prop := x < d.width ∧ y < d.height

/-- Where a pixel of the screen is in the buffers. -/
def Dimensions.place (d : Dimensions) (x y : ℕ) : ℕ := x + d.pitchPixels * y

theorem width_le_pitchPixels (d : Dimensions) : d.width ≤ d.pitchPixels := by
  have h := d.width_le
  unfold Dimensions.pitchPixels
  omega

theorem pitchPixels_lt (d : Dimensions) : d.pitchPixels < 2 ^ 29 := by
  have h := d.pitch_lt
  unfold Dimensions.pitchPixels
  omega

theorem place_lt {x y : ℕ} (h : d.Visible x y) :
    d.place x y < d.pitchPixels * d.height := by
  have hx : x < d.pitchPixels := h.1.trans_le (width_le_pitchPixels d)
  calc
    d.place x y < d.pitchPixels + d.pitchPixels * y := Nat.add_lt_add_right hx _
    _ = d.pitchPixels * (y + 1) := by ring
    _ ≤ d.pitchPixels * d.height := Nat.mul_le_mul_left _ h.2

theorem size_lt (d : Dimensions) : d.pitchPixels * d.height < 2 ^ 60 := by
  calc
    d.pitchPixels * d.height < 2 ^ 29 * 2 ^ 31 :=
      Nat.mul_lt_mul'' (pitchPixels_lt d) d.height_lt
    _ = 2 ^ 60 := by norm_num

theorem place_inj {x y x' y' : ℕ} (h : d.Visible x y) (h' : d.Visible x' y')
    (heq : d.place x y = d.place x' y') : x = x' ∧ y = y' := by
  have hx : x < d.pitchPixels := h.1.trans_le (width_le_pitchPixels d)
  have hx' : x' < d.pitchPixels := h'.1.trans_le (width_le_pitchPixels d)
  unfold Dimensions.place at heq
  have hmod := congrArg (· % d.pitchPixels) heq
  simp only [Nat.add_mul_mod_self_left, Nat.mod_eq_of_lt hx, Nat.mod_eq_of_lt hx'] at hmod
  subst hmod
  exact ⟨rfl, Nat.eq_of_mul_eq_mul_left (by omega) (Nat.add_left_cancel heq)⟩

theorem index_eq_place {x y : ℕ} (h : d.Visible x y) : index d x y = d.place x y := by
  have hlt := (place_lt h).trans (size_lt d)
  unfold index toSize
  have hcast : (x : ℤ) + d.pitchPixels * y = (d.place x y : ℕ) := by
    unfold Dimensions.place
    push_cast
    ring
  rw [hcast]
  omega

/-- An `int` that has wrapped around does not reach the screen. -/
theorem index_ne_place {left top : ℤ} {x y : ℕ} (h : d.Visible x y)
    (hleft : 0 ≤ left) (hwidth : left < d.width) (htop : -2 ^ 31 ≤ top) (hneg : top < 0) :
    index d left top ≠ d.place x y := by
  have hplace := (place_lt h).trans (size_lt d)
  have hpitch : (d.pitchPixels : ℤ) < 2 ^ 29 := by exact_mod_cast pitchPixels_lt d
  have hwidth' : (d.width : ℤ) ≤ d.pitchPixels := by exact_mod_cast width_le_pitchPixels d
  have hlow : -2 ^ 60 ≤ left + d.pitchPixels * top := by nlinarith
  have hhigh : left + d.pitchPixels * top < 0 := by nlinarith
  unfold index toSize
  omega

theorem plotPx_place {left top : ℤ} {x y : ℕ} (framebuffer : Buffer) (hex : Pixel)
    (h : d.Visible x y) (hleft : 0 ≤ left) (htop : -2 ^ 31 ≤ top) :
    plotPx d framebuffer left top hex (d.place x y) =
      if left = x ∧ top = y then hex else framebuffer (d.place x y) := by
  have hx : (x : ℤ) < d.width := by exact_mod_cast h.1
  have hy : (y : ℤ) < d.height := by exact_mod_cast h.2
  unfold plotPx
  by_cases hon : left ≥ d.width ∨ top ≥ d.height
  · rw [if_pos hon, if_neg (by omega)]
  rw [if_neg hon]
  by_cases hneg : top < 0
  · rw [if_neg (by omega), Function.update_of_ne]
    exact (index_ne_place h hleft (by omega) htop hneg).symm
  obtain ⟨x', rfl⟩ := Int.eq_ofNat_of_zero_le hleft
  obtain ⟨y', rfl⟩ := Int.eq_ofNat_of_zero_le (not_lt.mp hneg)
  have h' : d.Visible x' y' := ⟨by omega, by omega⟩
  rw [index_eq_place h']
  by_cases heq : x' = x ∧ y' = y
  · obtain ⟨rfl, rfl⟩ := heq
    rw [Function.update_self, if_pos ⟨rfl, rfl⟩]
  · rw [if_neg (by omega), Function.update_of_ne]
    exact fun hplace => heq ((place_inj h h' hplace).imp Eq.symm Eq.symm)

/-! ## Cursors -/

/-- The cursor is somewhere on screen. -/
structure Inside (d : Dimensions) (left top : ℤ) : Prop where
  left_nonneg : 0 ≤ left
  left_lt : left < d.width
  top_nonneg : 0 ≤ top
  top_lt : top < d.height

/-- The opaque pixel that a cursor at `(left, top)` has over a pixel of the
screen. -/
def cursorOver (left top : ℤ) (x y : ℕ) : Option Pixel :=
  if left ≤ x ∧ x < left + 16 ∧ top ≤ y ∧ y < top + 16 ∧
      cursorPixel (x - left).toNat (y - top).toNat ≠ -1 then
    some (BitVec.ofInt 32 (cursorPixel (x - left).toNat (y - top).toNat))
  else none

/-- A loop of plots which all leave the same value at a place. -/
theorem foldl_place {plot : Buffer → ℕ × ℕ → Buffer} {place : ℕ} {value : Pixel}
    {Hits : ℕ × ℕ → Prop} [DecidablePred Hits] (l : List (ℕ × ℕ))
    (hplot : ∀ framebuffer, ∀ cell ∈ l, plot framebuffer cell place =
      if Hits cell then value else framebuffer place) (framebuffer : Buffer) :
    l.foldl plot framebuffer place =
      if ∃ cell ∈ l, Hits cell then value else framebuffer place := by
  induction l generalizing framebuffer with
  | nil => simp
  | cons cell l ih =>
      rw [List.foldl_cons, ih fun framebuffer cell hcell =>
        hplot framebuffer cell (List.mem_cons_of_mem _ hcell),
        hplot framebuffer cell List.mem_cons_self]
      by_cases hrest : ∃ cell ∈ l, Hits cell
      · rw [if_pos hrest, if_pos (by simpa using Or.inr (by simpa using hrest))]
      · rw [if_neg hrest]
        by_cases hcell : Hits cell
        · rw [if_pos hcell, if_pos ⟨cell, List.mem_cons_self, hcell⟩]
        · rw [if_neg hcell, if_neg]
          rintro ⟨other, hother, hhits⟩
          rcases List.mem_cons.mp hother with rfl | hother
          · exact hcell hhits
          · exact hrest ⟨other, hother, hhits⟩

theorem mem_cells {cell : ℕ × ℕ} : cell ∈ cells ↔ cell.1 < 16 ∧ cell.2 < 16 := by
  obtain ⟨x, y⟩ := cell
  simp [cells]

theorem toInt_eq (i : ℤ) :
    toInt i = if i % 4294967296 < 2147483648 then i % 4294967296
      else i % 4294967296 - 4294967296 :=
  Int.bmod_def i (2 ^ 32)

theorem toInt_left {left : ℤ} {x : ℕ} (hleft : 0 ≤ left) (hlt : left < d.width)
    (hx : x < 16) : toInt (left + x) = left + x := by
  have h := pitchPixels_lt d
  have hwidth := width_le_pitchPixels d
  rw [toInt_eq]
  split_ifs <;> omega

theorem toInt_top {top : ℤ} {y : ℕ} : -2 ^ 31 ≤ toInt (top + y) := by
  rw [toInt_eq]
  split_ifs <;> omega

theorem toInt_top_eq_iff {top : ℤ} {y row : ℕ} (htop : 0 ≤ top) (hlt : top < d.height)
    (hy : y < 16) (hrow : row < d.height) : toInt (top + y) = row ↔ top + y = row := by
  have h := d.height_lt
  rw [toInt_eq]
  split_ifs <;> omega

theorem restoreUnder_place {antibuffer0 framebuffer : Buffer} {left top : ℤ} {x y : ℕ}
    (h : Inside d left top) (hv : d.Visible x y) :
    restoreUnder d antibuffer0 left top framebuffer (d.place x y) =
      if ∃ cell ∈ cells, left + (cell.1 : ℕ) = x ∧ top + (cell.2 : ℕ) = y then
        antibuffer0 (d.place x y)
      else framebuffer (d.place x y) := by
  refine foldl_place cells ?_ framebuffer
  intro framebuffer cell hcell
  obtain ⟨hx, hy⟩ := mem_cells.mp hcell
  rw [toInt_left h.left_nonneg h.left_lt hx,
    plotPx_place _ _ hv (by have := h.left_nonneg; omega) toInt_top]
  simp only [toInt_top_eq_iff h.top_nonneg h.top_lt hy hv.2]
  split_ifs with hhits
  · obtain ⟨hleft, htop⟩ := hhits
    rw [hleft, (toInt_top_eq_iff h.top_nonneg h.top_lt hy hv.2).mpr htop, getAb0Px,
      if_neg (by have := hv.1; have := hv.2; omega), index_eq_place hv]
  · rfl

theorem cursorOver_eq_none {left top : ℤ} {x y : ℕ}
    (h : ¬ ∃ cell ∈ cells, left + (cell.1 : ℕ) = x ∧ top + (cell.2 : ℕ) = y) :
    cursorOver left top x y = none := by
  unfold cursorOver
  rw [if_neg]
  rintro ⟨hleft, hlt, htop, hlt', -⟩
  refine h ⟨((x - left).toNat, (y - top).toNat), mem_cells.mpr ⟨?_, ?_⟩, ?_, ?_⟩ <;>
    simp only <;> omega

theorem drawCursor_place {framebuffer : Buffer} {left top : ℤ} {x y : ℕ}
    (h : Inside d left top) (hv : d.Visible x y) :
    drawCursor d left top framebuffer (d.place x y) =
      (cursorOver left top x y).getD (framebuffer (d.place x y)) := by
  have hplot : ∀ framebuffer, ∀ cell ∈ cells,
      (if cursorPixel cell.1 cell.2 ≠ -1 then
        plotPx d framebuffer (toInt (left + cell.1)) (toInt (top + cell.2))
          (BitVec.ofInt 32 (cursorPixel cell.1 cell.2))
      else framebuffer) (d.place x y) =
        if (left + (cell.1 : ℕ) = x ∧ top + (cell.2 : ℕ) = y) ∧
            cursorPixel cell.1 cell.2 ≠ -1 then
          BitVec.ofInt 32 (cursorPixel (x - left).toNat (y - top).toNat)
        else framebuffer (d.place x y) := by
    intro framebuffer cell hcell
    obtain ⟨hx, hy⟩ := mem_cells.mp hcell
    by_cases hopaque : cursorPixel cell.1 cell.2 ≠ -1
    · rw [if_pos hopaque, toInt_left h.left_nonneg h.left_lt hx,
        plotPx_place _ _ hv (by have := h.left_nonneg; omega) toInt_top]
      simp only [toInt_top_eq_iff h.top_nonneg h.top_lt hy hv.2, hopaque, and_true,
        not_false_eq_true, ne_eq]
      split_ifs with hhits
      · rw [show (x - left).toNat = cell.1 by omega, show (y - top).toNat = cell.2 by omega]
      · rfl
    · rw [if_neg hopaque, if_neg (by tauto)]
  rw [drawCursor, foldl_place cells hplot framebuffer]
  unfold cursorOver
  by_cases hover : left ≤ x ∧ x < left + 16 ∧ top ≤ y ∧ y < top + 16 ∧
      cursorPixel (x - left).toNat (y - top).toNat ≠ -1
  · rw [if_pos hover, if_pos]
    · rfl
    · refine ⟨((x - left).toNat, (y - top).toNat), mem_cells.mpr ⟨?_, ?_⟩, ⟨?_, ?_⟩,
        hover.2.2.2.2⟩ <;>
        simp only <;> omega
  · rw [if_neg hover, if_neg]
    · rfl
    · rintro ⟨cell, hcell, ⟨hleft, htop⟩, hopaque⟩
      obtain ⟨hx, hy⟩ := mem_cells.mp hcell
      refine hover ⟨by omega, by omega, by omega, by omega, ?_⟩
      rw [show (x - left).toNat = cell.1 by omega, show (y - top).toNat = cell.2 by omega]
      exact hopaque

/-! ## Frames -/

theorem swapFrom_apply (antibuffer0 antibuffer1 : Buffer) (count i place : ℕ)
    (framebuffer : Buffer) :
    swapFrom antibuffer0 antibuffer1 count i framebuffer place =
      if (i ≤ place ∧ place < i + count) ∧ antibuffer0 place ≠ antibuffer1 place then
        antibuffer0 place
      else framebuffer place := by
  induction count generalizing i framebuffer with
  | zero =>
      rw [swapFrom, if_neg (by omega)]
  | succ count ih =>
      rw [swapFrom, ih]
      by_cases hplace : place = i
      · subst hplace
        rw [if_neg (by omega)]
        by_cases heq : antibuffer0 place = antibuffer1 place
        · rw [if_pos heq, if_neg (by tauto)]
        · rw [if_neg heq, if_pos ⟨⟨le_rfl, by omega⟩, heq⟩, Function.update_self]
      · have hrest : (if antibuffer0 i = antibuffer1 i then framebuffer
            else Function.update framebuffer i (antibuffer0 i)) place = framebuffer place := by
          split_ifs
          · rfl
          · exact Function.update_of_ne hplace _ _
        rw [hrest]
        congr 1
        simp only [eq_iff_iff]
        constructor <;> rintro ⟨hrange, hne⟩ <;> exact ⟨by omega, hne⟩

theorem swapVbufs_place {antibuffer0 antibuffer1 framebuffer : Buffer} {x y : ℕ}
    (hv : d.Visible x y) :
    swapVbufs d antibuffer0 antibuffer1 framebuffer (d.place x y) =
      if antibuffer0 (d.place x y) = antibuffer1 (d.place x y) then
        framebuffer (d.place x y)
      else antibuffer0 (d.place x y) := by
  have hlt := place_lt hv
  have hcount : d.place x y < swapCount d := by
    rw [swapCount, if_neg (by omega)]
    exact hlt
  rw [swapVbufs, swapFrom_apply, Nat.zero_add]
  by_cases heq : antibuffer0 (d.place x y) = antibuffer1 (d.place x y)
  · rw [if_neg (by tauto), if_pos heq]
  · rw [if_pos ⟨⟨Nat.zero_le _, hcount⟩, heq⟩, if_neg heq]

/-- One row, from index `start` on. -/
theorem redrawRow_apply (src buffer : Buffer) (start first width place : ℕ) :
    (List.range width).foldl (fun buffer x =>
        Function.update buffer (start + x) (shuffle (src (first + x)))) buffer place =
      if start ≤ place ∧ place < start + width then shuffle (src (first + (place - start)))
      else buffer place := by
  induction width with
  | zero => rw [if_neg (by omega), List.range_zero, List.foldl_nil]
  | succ width ih =>
      rw [List.range_succ, List.foldl_append, List.foldl_cons, List.foldl_nil]
      by_cases hlast : place = start + width
      · rw [hlast, Function.update_self, if_pos (by omega), Nat.add_sub_cancel_left]
      · rw [Function.update_of_ne hlast, ih]
        congr 1
        simp only [eq_iff_iff]
        omega

/-- What is drawn at a pixel if no row wraps around. -/
theorem screenRedraw_apply {dst src : Buffer} {width height dstPitch srcPitch x y : ℕ}
    (hwidth : width ≤ dstPitch) (hlt : height * dstPitch ≤ 2 ^ 32) (hx : x < dstPitch) :
    screenRedraw dst src width height dstPitch srcPitch (y * dstPitch + x) =
      if x < width ∧ y < height then shuffle (src (y * srcPitch % 2 ^ 32 + x))
      else dst (y * dstPitch + x) := by
  unfold screenRedraw
  induction height with
  | zero => rw [if_neg (by omega), List.range_zero, List.foldl_nil]
  | succ height ih =>
      rw [Nat.succ_mul] at hlt
      rw [List.range_succ, List.foldl_append, List.foldl_cons, List.foldl_nil,
        redrawRow_apply, ih (by omega), Nat.mod_eq_of_lt (a := height * dstPitch) (by omega)]
      rcases Nat.lt_trichotomy y height with hy | rfl | hy
      · have hrow := Nat.mul_le_mul_right dstPitch (Nat.succ_le_of_lt hy)
        rw [Nat.succ_mul] at hrow
        rw [if_neg (by omega)]
        congr 1
        simp only [eq_iff_iff]
        omega
      · by_cases hdrawn : x < width
        · rw [if_pos (by omega), if_pos (by omega), Nat.add_sub_cancel_left]
        · rw [if_neg (by omega), if_neg (by omega), if_neg (by omega)]
      · have hrow := Nat.mul_le_mul_right dstPitch (Nat.succ_le_of_lt hy)
        rw [Nat.succ_mul] at hrow
        rw [if_neg (by omega), if_neg (by omega), if_neg (by omega)]

/-! ## Runs -/

/-- The screen shows `antibuffer0` alone. -/
def ShowsFrame (d : Dimensions) (s : State) : Prop :=
  ∀ x y, d.Visible x y → s.framebuffer (d.place x y) = s.antibuffer0 (d.place x y)

/-- The screen shows `antibuffer0` with the cursor at the pointer. -/
def ShowsCursor (d : Dimensions) (s : State) : Prop :=
  ∀ x y, d.Visible x y → s.framebuffer (d.place x y) =
    (cursorOver s.mouse.mouseX s.mouse.mouseY x y).getD (s.antibuffer0 (d.place x y))

/-- `antibuffer0` is Dawn's frame, converted. -/
def HoldsFrame (d : Dimensions) (frame : Buffer) (s : State) : Prop :=
  ∀ x y, d.Visible x y → s.antibuffer0 (d.place x y) = shuffle (frame (x + d.width * y))

structure Inv (d : Dimensions) (s : State) : Prop where
  pointer : Inside d s.mouse.mouseX s.mouse.mouseY
  plotted : Inside d s.mouse.lastPlottedMouseX s.mouse.lastPlottedMouseY
  /-- what is not `antibuffer0` is under the cursor plotted last -/
  uncovered : ∀ x y, d.Visible x y →
    cursorOver s.mouse.lastPlottedMouseX s.mouse.lastPlottedMouseY x y = none →
    s.framebuffer (d.place x y) = s.antibuffer0 (d.place x y)
  enabled : s.mouse.hwMouseEnabled = true →
    s.mouse.lastPlottedMouseX = s.mouse.mouseX ∧ s.mouse.lastPlottedMouseY = s.mouse.mouseY

theorem ShowsCursor.inv {s : State} (h : ShowsCursor d s)
    (hpointer : Inside d s.mouse.mouseX s.mouse.mouseY)
    (hx : s.mouse.lastPlottedMouseX = s.mouse.mouseX)
    (hy : s.mouse.lastPlottedMouseY = s.mouse.mouseY) : Inv d s where
  pointer := hpointer
  plotted := by
    rw [hx, hy]
    exact hpointer
  uncovered := by
    intro x y hv hnone
    rw [hx, hy] at hnone
    rw [h x y hv, hnone]
    rfl
  enabled _ := ⟨hx, hy⟩

/-- Without a refresh the area under the last cursor is put back first; with one,
the pointer has to be where that cursor is. -/
theorem putMouseCursor_showsCursor {s : State} {refresh : Bool}
    (hpointer : Inside d s.mouse.mouseX s.mouse.mouseY)
    (hplotted : Inside d s.mouse.lastPlottedMouseX s.mouse.lastPlottedMouseY)
    (huncovered : ∀ x y, d.Visible x y →
      cursorOver s.mouse.lastPlottedMouseX s.mouse.lastPlottedMouseY x y = none →
      s.framebuffer (d.place x y) = s.antibuffer0 (d.place x y))
    (henabled : s.mouse.hwMouseEnabled = true)
    (hrefresh : refresh = true → s.mouse.lastPlottedMouseX = s.mouse.mouseX ∧
      s.mouse.lastPlottedMouseY = s.mouse.mouseY) :
    ShowsCursor d (putMouseCursor d refresh s) := by
  intro x y hv
  rw [putMouseCursor, if_pos henabled]
  simp only
  rw [drawCursor_place hpointer hv]
  cases hover : cursorOver s.mouse.mouseX s.mouse.mouseY x y with
  | some p => rfl
  | none =>
      simp only [Option.getD_none]
      cases refresh with
      | true =>
          obtain ⟨hx, hy⟩ := hrefresh rfl
          exact huncovered x y hv (by rw [hx, hy]; exact hover)
      | false =>
          rw [if_neg Bool.false_ne_true, restoreUnder_place hplotted hv]
          split_ifs with hunder
          · rfl
          · exact huncovered x y hv (cursorOver_eq_none hunder)

theorem putMouseCursor_showsFrame {s : State} {refresh : Bool}
    (hplotted : Inside d s.mouse.lastPlottedMouseX s.mouse.lastPlottedMouseY)
    (huncovered : ∀ x y, d.Visible x y →
      cursorOver s.mouse.lastPlottedMouseX s.mouse.lastPlottedMouseY x y = none →
      s.framebuffer (d.place x y) = s.antibuffer0 (d.place x y))
    (hdisabled : s.mouse.hwMouseEnabled = false) :
    ShowsFrame d (putMouseCursor d refresh s) := by
  intro x y hv
  rw [putMouseCursor, hdisabled, if_neg Bool.false_ne_true]
  simp only
  rw [restoreUnder_place hplotted hv]
  split_ifs with hunder
  · rfl
  · exact huncovered x y hv (cursorOver_eq_none hunder)

theorem moveBy_bounds {position delta size : ℤ} (hsize : 0 < size) :
    0 ≤ moveBy position delta size ∧ moveBy position delta size < size := by
  unfold moveBy
  split_ifs <;> omega

/-- A packet draws the cursor at the new pointer. -/
theorem Inv.acceptPacket {s s' : State} {p : MousePacket} (hs : Inv d s)
    (h : Screen.acceptPacket d s p = some s') : ShowsCursor d s' ∧ Inv d s' := by
  have hwidth : (0 : ℤ) < d.width := by exact_mod_cast d.width_pos
  have hheight : (0 : ℤ) < d.height := by exact_mod_cast d.height_pos
  have hshows : ∀ dp mouse,
      processPacket d.width d.height { s.mouse with hwMouseEnabled := true } p =
        (dp, mouse) →
      ShowsCursor d (putMouseCursor d false { s with mouse := mouse }) ∧
        Inside d mouse.mouseX mouse.mouseY ∧ mouse.hwMouseEnabled = true := by
    rintro dp mouse hmouse
    obtain ⟨-, rfl⟩ := Prod.mk.inj hmouse
    have hpointer : Inside d
        (moveBy s.mouse.mouseX (movement p.xMov (p.flags.getLsbD 4)) d.width)
        (moveBy s.mouse.mouseY (-movement p.yMov (p.flags.getLsbD 5)) d.height) :=
      ⟨(moveBy_bounds hwidth).1, (moveBy_bounds hwidth).2, (moveBy_bounds hheight).1,
        (moveBy_bounds hheight).2⟩
    exact ⟨putMouseCursor_showsCursor hpointer hs.plotted hs.uncovered rfl nofun,
      hpointer, rfl⟩
  unfold Screen.acceptPacket at h
  simp only at h
  generalize hmouse : processPacket d.width d.height
    { s.mouse with hwMouseEnabled := true } p = result at h
  obtain ⟨dp, mouse⟩ := result
  obtain ⟨hcursor, hpointer, henabled⟩ := hshows dp mouse hmouse
  obtain ⟨mouse', hqueue, rfl⟩ := Option.map_eq_some_iff.mp h
  have hkeeps : mouse'.mouseX = mouse.mouseX ∧ mouse'.mouseY = mouse.mouseY ∧
      mouse'.lastPlottedMouseX = mouse.mouseX ∧
      mouse'.lastPlottedMouseY = mouse.mouseY := by
    rw [putMouseCursor, if_pos henabled, queuePacket] at hqueue
    split_ifs at hqueue <;> obtain rfl := Option.some.inj hqueue <;> exact ⟨rfl, rfl, rfl, rfl⟩
  have hdrawn : (putMouseCursor d false { s with mouse := mouse }).mouse.mouseX =
        mouse.mouseX ∧
      (putMouseCursor d false { s with mouse := mouse }).mouse.mouseY = mouse.mouseY := by
    rw [putMouseCursor, if_pos henabled]
    exact ⟨rfl, rfl⟩
  obtain ⟨hx, hy, hlastX, hlastY⟩ := hkeeps
  have hshows' : ShowsCursor d
      { putMouseCursor d false { s with mouse := mouse } with mouse := mouse' } := by
    intro x y hv
    rw [hcursor x y hv, hdrawn.1, hdrawn.2]
    simp only [hx, hy]
  exact ⟨hshows', hshows'.inv (by simp only [hx, hy]; exact hpointer)
    (by simp only [hx, hlastX]) (by simp only [hy, hlastY])⟩

/-- A new frame is on screen, with the cursor if the mouse is enabled. -/
theorem Inv.dawnRedrawScreen {s : State} (hs : Inv d s) {frameCounter : Word}
    (hnew : s.lastFrameCounter ≠ frameCounter) (frame : Buffer) :
    (if s.mouse.hwMouseEnabled then
      ShowsCursor d (Screen.dawnRedrawScreen d s frameCounter frame)
    else ShowsFrame d (Screen.dawnRedrawScreen d s frameCounter frame)) ∧
      Inv d (Screen.dawnRedrawScreen d s frameCounter frame) := by
  rw [Screen.dawnRedrawScreen, if_pos hnew]
  simp only
  set redrawn := screenRedraw s.antibuffer1 frame d.width d.height d.pitchPixels d.width
  -- what did not change between the frames was on screen before
  have huncovered : ∀ x y, d.Visible x y →
      cursorOver s.mouse.lastPlottedMouseX s.mouse.lastPlottedMouseY x y = none →
      swapVbufs d redrawn s.antibuffer0 s.framebuffer (d.place x y) =
        redrawn (d.place x y) := by
    intro x y hv hnone
    rw [swapVbufs_place hv]
    split_ifs with heq
    · rw [heq]
      exact hs.uncovered x y hv hnone
    · rfl
  cases henabled : s.mouse.hwMouseEnabled with
  | true =>
      have hshows := @putMouseCursor_showsCursor d
        { s with
          lastFrameCounter := frameCounter
          antibuffer0 := redrawn
          antibuffer1 := s.antibuffer0
          framebuffer := swapVbufs d redrawn s.antibuffer0 s.framebuffer } true
        hs.pointer hs.plotted huncovered henabled fun _ => hs.enabled henabled
      rw [if_pos rfl]
      refine ⟨hshows, hshows.inv ?_ ?_ ?_⟩ <;> rw [putMouseCursor, if_pos henabled]
      exact hs.pointer
  | false =>
      have hshows := @putMouseCursor_showsFrame d
        { s with
          lastFrameCounter := frameCounter
          antibuffer0 := redrawn
          antibuffer1 := s.antibuffer0
          framebuffer := swapVbufs d redrawn s.antibuffer0 s.framebuffer } true
        hs.plotted huncovered henabled
      rw [if_neg Bool.false_ne_true]
      refine ⟨hshows, ?_, ?_, fun x y hv _ => hshows x y hv, ?_⟩ <;>
        rw [putMouseCursor, henabled, if_neg Bool.false_ne_true]
      · exact hs.pointer
      · exact hs.plotted
      · exact fun htrue => absurd (henabled.symm.trans htrue) Bool.false_ne_true

theorem putMouseCursor_antibuffer0 (refresh : Bool) (s : State) :
    (putMouseCursor d refresh s).antibuffer0 = s.antibuffer0 := by
  unfold putMouseCursor
  split_ifs <;> rfl

theorem dawnRedrawScreen_holdsFrame {s : State} {frameCounter : Word}
    (hnew : s.lastFrameCounter ≠ frameCounter) (hlt : d.height * d.pitchPixels ≤ 2 ^ 32)
    (frame : Buffer) : HoldsFrame d frame (dawnRedrawScreen d s frameCounter frame) := by
  rintro x y ⟨hx, hy⟩
  have hwidth := width_le_pitchPixels d
  have hrow : y * d.width < 2 ^ 32 := by
    have hpos := d.width_pos
    calc y * d.width < d.height * d.width := Nat.mul_lt_mul_of_pos_right hy hpos
      _ ≤ d.height * d.pitchPixels := Nat.mul_le_mul_left _ hwidth
      _ ≤ 2 ^ 32 := hlt
  have hplace : d.place x y = y * d.pitchPixels + x := by
    unfold Dimensions.place
    ring
  rw [dawnRedrawScreen, if_pos hnew]
  simp only [putMouseCursor_antibuffer0]
  rw [hplace, screenRedraw_apply hwidth hlt (by omega), if_pos ⟨hx, hy⟩,
    Nat.mod_eq_of_lt hrow, Nat.mul_comm y, Nat.add_comm]

/-- Whether the byte is the last one of a packet that is not discarded. -/
def Accepts (s : State) : Event → Prop
  | .mouse _ => s.mouse.handlerCycle = .yMov ∧ s.mouse.discardPacket = false
  | _ => False

/-- Whether Dawn has a new frame to draw. -/
def NewFrame (s : State) : Event → Prop
  | .redraw frameCounter _ => s.lastFrameCounter ≠ frameCounter
  | _ => False

theorem Inv.mouseHandler {s s' : State} (hs : Inv d s) {byte : BitVec 8}
    (h : Screen.mouseHandler d s byte = some s') :
    (Accepts s (.mouse byte) → ShowsCursor d s') ∧ Inv d s' := by
  unfold Screen.mouseHandler at h
  cases hcycle : s.mouse.handlerCycle with
  | flags =>
      simp only [hcycle] at h
      obtain rfl := Option.some.inj h
      refine ⟨fun haccepts => ?_, hs.pointer, hs.plotted, hs.uncovered, hs.enabled⟩
      rw [haccepts.1] at hcycle
      contradiction
  | xMov =>
      simp only [hcycle] at h
      obtain rfl := Option.some.inj h
      refine ⟨fun haccepts => ?_, hs.pointer, hs.plotted, hs.uncovered, hs.enabled⟩
      rw [haccepts.1] at hcycle
      contradiction
  | yMov =>
      simp only [hcycle] at h
      cases hdiscard : s.mouse.discardPacket with
      | true =>
          rw [hdiscard, if_pos rfl] at h
          obtain rfl := Option.some.inj h
          refine ⟨fun haccepts => ?_, hs.pointer, hs.plotted, hs.uncovered, hs.enabled⟩
          rw [haccepts.2] at hdiscard
          contradiction
      | false =>
          rw [hdiscard, if_neg Bool.false_ne_true] at h
          have hread : Inv d { s with mouse := { s.mouse with
              currentPacket := { s.mouse.currentPacket with yMov := byte }
              handlerCycle := .flags
              discardPacket := false } } :=
            ⟨hs.pointer, hs.plotted, hs.uncovered, hs.enabled⟩
          obtain ⟨hshows, hinv⟩ := hread.acceptPacket h
          exact ⟨fun _ => hshows, hinv⟩

/-- What one handler leaves on screen. -/
theorem Inv.step {beyond : List (BitVec 8) → ℕ → BitVec 8} {s s' : State}
    (hs : Inv d s) {event : Event} (h : Screen.step d beyond s event = some s') :
    (Accepts s event → ShowsCursor d s') ∧
      (NewFrame s event →
        if s.mouse.hwMouseEnabled then ShowsCursor d s' else ShowsFrame d s') ∧
      Inv d s' := by
  cases event with
  | mouse byte =>
      obtain ⟨hshows, hinv⟩ := hs.mouseHandler h
      exact ⟨hshows, False.elim, hinv⟩
  | key byte =>
      obtain rfl := Option.some.inj h
      refine ⟨False.elim, False.elim, hs.pointer, hs.plotted, hs.uncovered, ?_⟩
      exact fun henabled => hs.enabled (Bool.and_eq_true_iff.mp henabled).1
  | redraw frameCounter frame =>
      obtain rfl := Option.some.inj h
      refine ⟨False.elim, fun hnew => (hs.dawnRedrawScreen hnew frame).1, ?_⟩
      by_cases hnew : s.lastFrameCounter ≠ frameCounter
      · exact (hs.dawnRedrawScreen hnew frame).2
      · rw [Screen.dawnRedrawScreen, if_neg hnew]
        exact hs
  | mouseUpdate =>
      obtain rfl := Option.some.inj h
      refine ⟨False.elim, False.elim, ?_⟩
      have hkeeps : ∃ dawn packets, (mouseUpdate s.mouse).2 =
          { s.mouse with dawn := dawn, packets := packets } := by
        unfold mouseUpdate
        split_ifs
        · cases s.mouse.packets with
          | nil => exact ⟨_, _, rfl⟩
          | cons dp rest => exact ⟨_, _, rfl⟩
        · exact ⟨_, _, rfl⟩
      obtain ⟨dawn, packets, hkeeps⟩ := hkeeps
      rw [hkeeps]
      exact ⟨hs.pointer, hs.plotted, hs.uncovered, hs.enabled⟩

theorem inv_boot (d : Dimensions) : Inv d (boot d) := by
  have hwidth := d.width_pos
  have hheight := d.height_pos
  refine ⟨⟨?_, ?_, ?_, ?_⟩, ⟨le_rfl, ?_, le_rfl, ?_⟩, fun x y _ _ => rfl, nofun⟩ <;>
    simp only [boot] <;> omega

theorem Inv.run {beyond : List (BitVec 8) → ℕ → BitVec 8} {events : List Event}
    {s s' : State} (hs : Inv d s) (h : Screen.run d beyond s events = some s') :
    Inv d s' := by
  induction events generalizing s with
  | nil =>
      obtain rfl := Option.some.inj h
      exact hs
  | cons event events ih =>
      obtain ⟨s₁, hstep, hrest⟩ := Option.bind_eq_some_iff.mp h
      exact ih (hs.step hstep).2.2 hrest

/-- Whatever has happened since `mouse_init`, an accepted packet leaves the frame
with the cursor at the pointer on screen, and so does a new frame if the mouse is
enabled; if it is disabled, the frame alone.  The frame is Dawn's, as long as the
offset of a row fits into the register of the redraw kernels. -/
theorem screen_shows {beyond : List (BitVec 8) → ℕ → BitVec 8} {events : List Event}
    {event : Event} {s s' : State} (hrun : run d beyond (boot d) events = some s)
    (hstep : step d beyond s event = some s') :
    (Accepts s event → ShowsCursor d s') ∧
      (NewFrame s event →
        if s.mouse.hwMouseEnabled then ShowsCursor d s' else ShowsFrame d s') ∧
      (∀ frameCounter frame, event = .redraw frameCounter frame → NewFrame s event →
        d.height * d.pitchPixels ≤ 2 ^ 32 → HoldsFrame d frame s') := by
  obtain ⟨hpacket, hframe, -⟩ := ((inv_boot d).run hrun).step hstep
  refine ⟨hpacket, hframe, ?_⟩
  rintro frameCounter frame rfl hnew hlt
  obtain rfl := Option.some.inj hstep
  exact dawnRedrawScreen_holdsFrame hnew hlt frame

def smallScreen : Dimensions where
  width := 20
  height := 10
  pitch := 96
  width_pos := by decide
  height_pos := by decide
  width_le := by decide
  height_lt := by decide
  pitch_lt := by decide

/-- A packet, and a frame after the next one has begun. -/
theorem screen_shows_firstPacket :
    (∃ s s', run smallScreen (fun _ _ => 0) (boot smallScreen) [.mouse 8, .mouse 2] = some s ∧
      step smallScreen (fun _ _ => 0) s (.mouse 3) = some s' ∧ ShowsCursor smallScreen s') ∧
    ∃ s s', run smallScreen (fun _ _ => 0) (boot smallScreen)
        [.mouse 8, .mouse 2, .mouse 3, .mouse 8] = some s ∧
      step smallScreen (fun _ _ => 0) s (.redraw 1 fun _ => 7) = some s' ∧
      ShowsCursor smallScreen s' ∧ HoldsFrame smallScreen (fun _ => 7) s' := by
  constructor
  · obtain ⟨s, hrun, haccepts, s', hstep⟩ : ∃ s,
        run smallScreen (fun _ _ => 0) (boot smallScreen) [.mouse 8, .mouse 2] = some s ∧
        Accepts s (.mouse 3) ∧
        ∃ s', step smallScreen (fun _ _ => 0) s (.mouse 3) = some s' :=
      ⟨_, rfl, ⟨rfl, rfl⟩, _, rfl⟩
    exact ⟨s, s', hrun, hstep, (screen_shows hrun hstep).1 haccepts⟩
  · obtain ⟨s, hrun, hnew, henabled, s', hstep⟩ : ∃ s,
        run smallScreen (fun _ _ => 0) (boot smallScreen)
          [.mouse 8, .mouse 2, .mouse 3, .mouse 8] = some s ∧
        NewFrame s (.redraw 1 fun _ => 7) ∧ s.mouse.hwMouseEnabled = true ∧
        ∃ s', step smallScreen (fun _ _ => 0) s (.redraw 1 fun _ => 7) = some s' :=
      ⟨_, rfl, (by decide : (0 : Word) ≠ 1), rfl, _, rfl⟩
    obtain ⟨-, hshows, hholds⟩ := screen_shows hrun hstep
    replace hshows := hshows hnew
    rw [if_pos henabled] at hshows
    exact ⟨s, s', hrun, hstep, hshows, hholds 1 _ rfl hnew (by decide)⟩

end Screen
end SubleqEmu
