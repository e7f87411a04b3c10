import SubleqEmu.InvalidationSafety

/-!
# Draining the queue

Whatever the CPUs do, a CPU that has drained its queue has no block left with a
word that had been pushed to it before, and bakes that word into none again.
-/

namespace SubleqEmu
namespace Invalidation

variable {n : ℕ} {s s' t u : State n} {c o : Fin n} {p : Point n} {w : ℕ}

/-! ## Reachable states -/

theorem Initial.orderly (h : Initial s) : Orderly s where
  lock o c := by
    rw [h.qlock, h.point]
    simp [Point.Holds]
  points c := by
    rw [h.point]
    trivial
  pushed o w hw := by
    rw [h.pushed] at hw
    cases hw

theorem Initial.not_bakes (h : Initial s) : ¬ Bakes s o w := by
  rintro (⟨b, hb, -⟩ | hw)
  · rw [h.table] at hb
    cases hb
  · rw [h.point] at hw
    cases hw

theorem Initial.safe (h : Initial s) : Safe s where
  done _ _ hdone := absurd hdone.bakes h.not_bakes
  bakes _ _ hbakes := absurd hbakes h.not_bakes
  queued _ _ hbakes := absurd hbakes h.not_bakes

theorem Reachable.inv (h : Reachable s) : Orderly s ∧ Safe s := by
  obtain ⟨s₀, hinit, hrun⟩ := h
  induction hrun with
  | refl => exact ⟨hinit.orderly, hinit.safe⟩
  | tail _ hnext ih =>
      obtain ⟨c, hstep⟩ := hnext
      exact ⟨hstep.orderly ih.1 rfl, ih.2.step (hstep.keeps ih.2 ih.1 rfl)⟩

theorem Reachable.next (h : Reachable s) (hnext : Next s s') : Reachable s' := by
  obtain ⟨s₀, hinit, hrun⟩ := h
  exact ⟨s₀, hinit, hrun.tail hnext⟩

theorem Reachable.step (h : Reachable s) (c : Fin n) (hp : s.point c = p)
    (hstep : StepFrom c s p s') : Reachable s' :=
  h.next ⟨c, by rw [Step, hp]; exact hstep⟩

/-- A word baked into a valid block, or into an instruction of the new one whose fields have
been marked, is marked still, or what holds it is about to be dropped; so it is where a word
baked in has turned dynamic. -/
theorem baked_marked_or_pending (hs : Reachable s) :
    (Done s o w → s.staticMap w = true ∨ Pending s o w) ∧
      (Bakes s o w → s.dynMap w = false ∨ Pending s o w) :=
  ⟨hs.inv.2.done o w, hs.inv.2.bakes o w⟩

/-! ## What the steps of others leave -/

theorem StepFrom.pushed (hstep : StepFrom c s p s') (hw : w ∈ s.pushed o) : w ∈ s'.pushed o := by
  have hnote : ∀ o' w', w ∈ (s.notePush o' w').pushed o := fun o' w' => by
    simp only [State.notePush, Function.update_apply]
    split_ifs with ho
    · exact List.mem_cons_of_mem _ (ho ▸ hw)
    · exact hw
  cases hstep with
  | full => exact hnote _ _
  | publish => exact hnote _ _
  | _ => exact hw

theorem StepFrom.point (hstep : StepFrom c s p s') (ho : o ≠ c) : s'.point o = s.point o := by
  cases hstep <;> exact Function.update_of_ne ho _ _

theorem StepFrom.table (hstep : StepFrom c s p s') (ho : o ≠ c) : s'.table o = s.table o := by
  cases hstep with
  | translate => exact Function.update_of_ne ho _ _
  | flush => exact Function.update_of_ne ho _ _
  | drop => exact Function.update_of_ne ho _ _
  | dropOwn => exact Function.update_of_ne ho _ _
  | insert => exact Function.update_of_ne ho _ _
  | _ => rfl

theorem StepFrom.queue (hord : Orderly s) (hp : s.point c = p) (hstep : StepFrom c s p s')
    (ho : o ≠ c) (hw : w ∈ (s.queue o).toList) : w ∈ (s'.queue o).toList := by
  cases hstep with
  | rewind =>
      simp only [State.goTo, State.setQueue, Function.update_of_ne ho]
      exact hw
  | advance =>
      simp only [State.goTo, State.setQueue, Function.update_of_ne ho]
      exact hw
  | @slot w' o' =>
      simp only [State.goTo, State.setQueue, Function.update_apply]
      split_ifs with heq
      · rw [Ring.toList_store, ← heq]
        exact hw
      · exact hw
  | @publish w' o' =>
      obtain ⟨-, hroom, -⟩ : Local s c (.hit w' (.push o' .publish)) := hp ▸ hord.points c
      simp only [State.goTo, State.notePush, State.setQueue, Function.update_apply]
      split_ifs with heq
      · rw [Ring.toList_advanceTail _ hroom, ← heq]
        exact List.mem_append_left _ hw
      · exact hw
  | _ => exact hw

/-! ## A drain -/

def Point.Draining : Point n → Prop
  | .drain _ => True
  | _ => False

/-- What a drain has still to do for a word pushed before it. -/
def Due (s : State n) (o : Fin n) (w : ℕ) : Point n → Prop
  | .drain .next => Bakes s o w → w ∈ (s.queue o).toList
  | .drain (.drop _) => Bakes s o w → w ∈ (s.queue o).toList
  | .drain (.advance _) => Bakes s o w → w ∈ (s.queue o).toList
  | _ => True

theorem Due.of_other (h : Due s o w p) (hbakes : Bakes s' o w → Bakes s o w)
    (hqueue : w ∈ (s.queue o).toList → w ∈ (s'.queue o).toList) : Due s' o w p := by
  cases p with
  | drain d => cases d <;> first | exact fun hb => hqueue (h (hbakes hb)) | trivial
  | _ => trivial

theorem Bakes.exists_block (h : Bakes s o w) (hidle : (s.point o).baked = []) :
    ∃ b ∈ s.table o, w ∈ b.baked := by
  refine h.resolve_right fun hw => ?_
  rw [hidle] at hw
  cases hw

theorem StepFrom.due (hs : Reachable s) (hpushed : w ∈ s.pushed o) (hp : s.point o = p)
    (hdrain : p.Draining) (hdue : Due s o w p) (hstep : StepFrom o s p s') :
    Due s' o w (s'.point o) := by
  obtain ⟨hord, hsafe⟩ := hs.inv
  have hpoint : ∀ {s₁ : State n} {p' : Point n}, s₁.point = Function.update s.point o p' →
      Due s₁ o w p' → Due s₁ o w (s₁.point o) := fun heq hdue' => by
    rw [heq, Function.update_self]
    exact hdue'
  have hidle : ∀ {s₁ : State n} {d : Drain}, s₁.point = Function.update s.point o (.drain d) →
      (s₁.point o).baked = [] := fun heq => by
    rw [heq, Function.update_self]
    rfl
  cases hstep with
  | overflowed h => exact hpoint rfl trivial
  | notOverflowed h =>
      refine hpoint rfl fun hbakes => ?_
      have hold := hsafe.queued o w (Or.inl (hbakes.exists_block (hidle rfl))) hpushed
      rcases hold with hover | hmem | hflushes
      · rw [h] at hover
        cases hover
      · exact hmem
      · rw [hp] at hflushes
        exact hflushes.elim
  | lockOwn h => exact hpoint rfl trivial
  | clear => exact hpoint rfl trivial
  | rewind => exact hpoint rfl trivial
  | unlockOwn => exact hpoint rfl trivial
  | flush => exact hpoint rfl trivial
  | drained h => exact hpoint rfl trivial
  | take h =>
      exact hpoint rfl fun hbakes => hdue (Or.inl (hbakes.exists_block (hidle rfl)))
  | @drop w' =>
      refine hpoint rfl fun hbakes => hdue (Or.inl ?_)
      refine (hbakes.exists_block (hidle rfl)).imp fun b hb => ⟨?_, hb.2⟩
      exact setTable_subset invalidateWord_subset o hb.1
  | @advance w' =>
      obtain ⟨⟨rest, heq⟩, hnone⟩ : Local s o (.drain (.advance w')) := hp ▸ hord.points o
      have hpop := (s.queue o).toList_eq_front_cons (isEmpty_of_toList heq)
      have hfront : (s.queue o).front = w' := (List.cons.inj (hpop.symm.trans heq)).1
      refine hpoint rfl fun hbakes => ?_
      obtain ⟨b, hb, hw⟩ := hbakes.exists_block (hidle rfl)
      have hmem := hdue (Or.inl ⟨b, hb, hw⟩)
      rw [hpop, hfront] at hmem
      simp only [State.goTo, State.setQueue, Function.update_self]
      refine (List.mem_cons.mp hmem).resolve_left ?_
      rintro rfl
      exact hnone b hb hw
  | _ => exact hdrain.elim

/-- Steps of all CPUs while `o` is in `drain_queue`. -/
def WhileDraining (o : Fin n) (s s' : State n) : Prop := Next s s' ∧ (s'.point o).Draining

/-- Up to a point inside the drain. -/
theorem drain_run (hs : Reachable s) (hstart : s.point o = .drain .test)
    (hpushed : w ∈ s.pushed o) (hrun : Relation.ReflTransGen (WhileDraining o) s s') :
    Reachable s' ∧ w ∈ s'.pushed o ∧ (s'.point o).Draining ∧ Due s' o w (s'.point o) := by
  induction hrun with
  | refl =>
      rw [hstart]
      exact ⟨hs, hpushed, trivial, trivial⟩
  | @tail s₁ s₂ _ hnext ih =>
      obtain ⟨hreach, hpushed₁, hdrain₁, hdue₁⟩ := ih
      obtain ⟨⟨c, hstep⟩, hdrain₂⟩ := hnext
      refine ⟨hreach.next ⟨c, hstep⟩, hstep.pushed hpushed₁, hdrain₂, ?_⟩
      by_cases hc : o = c
      · subst hc
        exact hstep.due hreach hpushed₁ rfl hdrain₁ hdue₁
      · rw [hstep.point hc]
        refine hdue₁.of_other (fun hbakes => ?_) (hstep.queue hreach.inv.1 rfl hc)
        unfold Bakes at hbakes ⊢
        rwa [hstep.table hc, hstep.point hc] at hbakes

/-- Nothing is left of the word when the drain returns. -/
theorem drain_return (hdrain : (s.point o).Draining)
    (hdue : Due s o w (s.point o)) (hnext : Next s s') (hret : s'.point o = .free) :
    ¬ Bakes s' o w := by
  obtain ⟨c, hstep⟩ := hnext
  have hc : o = c := by
    by_contra hc
    rw [hstep.point hc] at hret
    rw [hret] at hdrain
    exact hdrain
  subst hc
  unfold Step at hstep
  generalize hp : s.point o = p at hstep hdrain hdue
  have hidle : ∀ {s₁ : State n}, s₁.point = Function.update s.point o .free →
      (s₁.point o).baked = [] := fun heq => by
    rw [heq, Function.update_self]
    rfl
  have hstays : ∀ {s₁ : State n} {d : Drain}, s₁.point = Function.update s.point o (.drain d) →
      s₁.point o ≠ .free := fun heq => by
    rw [heq, Function.update_self]
    simp
  cases hstep with
  | flush =>
      intro hbakes
      obtain ⟨b, hb, -⟩ := hbakes.exists_block (hidle rfl)
      simp only [State.goTo, State.setTable, Function.update_self] at hb
      cases hb
  | drained h =>
      intro hbakes
      have hmem := hdue (Or.inl (hbakes.exists_block (hidle rfl)))
      rw [(s.queue o).isEmpty_iff.mp h] at hmem
      cases hmem
  | overflowed _ => exact absurd hret (hstays rfl)
  | notOverflowed _ => exact absurd hret (hstays rfl)
  | lockOwn _ => exact absurd hret (hstays rfl)
  | clear => exact absurd hret (hstays rfl)
  | rewind => exact absurd hret (hstays rfl)
  | unlockOwn => exact absurd hret (hstays rfl)
  | take _ => exact absurd hret (hstays rfl)
  | drop => exact absurd hret (hstays rfl)
  | advance => exact absurd hret (hstays rfl)
  | _ => exact hdrain.elim

/-- The word is not baked in again. -/
theorem not_bakes_of_pushed (hs : Reachable s) (hpushed : w ∈ s.pushed o) (hnot : ¬ Bakes s o w)
    (hrun : Relation.ReflTransGen Next s s') : ¬ Bakes s' o w := by
  have hinv : Reachable s' ∧ w ∈ s'.pushed o ∧ ¬ Bakes s' o w := by
    induction hrun with
    | refl => exact ⟨hs, hpushed, hnot⟩
    | tail _ hnext ih =>
        obtain ⟨hreach, hpushed₁, hnot₁⟩ := ih
        obtain ⟨c, hstep⟩ := hnext
        have hpushed₂ := hstep.pushed hpushed₁
        refine ⟨hreach.next ⟨c, hstep⟩, hpushed₂, fun hbakes => ?_⟩
        rcases (hstep.keeps hreach.inv.2 hreach.inv.1 rfl).bakes o w hbakes with hold | ⟨-, hout⟩
        · exact hnot₁ hold
        · exact hout hpushed₂
  exact hinv.2.2

/-- Once a CPU has returned from a `drain_queue` that it called after the word was pushed to it,
no block of its table or in the making has the word baked in, and none will. -/
theorem drained_forever (hs : Reachable s) (hstart : s.point o = .drain .test)
    (hpushed : w ∈ s.pushed o) (hrun : Relation.ReflTransGen (WhileDraining o) s s')
    (hreturn : Next s' t) (hfree : t.point o = .free)
    (hlater : Relation.ReflTransGen Next t u) : ¬ Bakes u o w := by
  obtain ⟨hreach, hpushed', hdrain, hdue⟩ := drain_run hs hstart hpushed hrun
  have hnot := drain_return hdrain hdue hreturn hfree
  have hpushed'' : w ∈ t.pushed o := by
    obtain ⟨c, hstep⟩ := hreturn
    exact hstep.pushed hpushed'
  exact not_bakes_of_pushed (hreach.next hreturn) hpushed'' hnot hlater

/-! ## Two CPUs -/

def bootState (n : ℕ) : State n where
  dynMap _ := false
  staticMap _ := false
  queue _ := Ring.empty (fun _ => 0) (by decide)
  qoverflow _ := false
  qlock _ := none
  table _ := []
  point _ := .free
  pushed _ := []

theorem initial_bootState (n : ℕ) : Initial (bootState n) where
  dynMap _ := rfl
  staticMap _ := rfl
  queue _ := Ring.toList_empty _ _
  qoverflow _ := rfl
  qlock _ := rfl
  table _ := rfl
  point _ := rfl
  pushed _ := rfl

/-- CPU 0 translates a block of one instruction at word 8.  CPU 1 hits the word and pushes it,
and CPU 0 drains its queue. -/
theorem exists_run : ∃ r s s' t : State 2, Reachable r ∧ (∃ b ∈ r.table 0, 8 ∈ b.baked) ∧
    r.staticMap 8 = false ∧ r.point 0 = .free ∧ Reachable s ∧ s.point 0 = .drain .test ∧
    8 ∈ s.pushed 0 ∧ Relation.ReflTransGen (WhileDraining 0) s s' ∧ Next s' t ∧
    t.point 0 = .free := by
  have h₀ : Reachable (bootState 2) := ⟨_, initial_bootState 2, .refl⟩
  have h₁ := h₀.step 0 rfl (.translate 8 (fun _ => false) false)
  have h₂ := h₁.step 0 rfl (.static (by decide) rfl rfl)
  have h₃ := h₂.step 0 rfl (.static (by decide) rfl rfl)
  have h₄ := (h₃.step 0 rfl (.static (by decide) rfl rfl)).step 0 rfl .classified
  have h₅ := (h₄.step 0 rfl (.mark (by decide) rfl)).step 0 rfl .setBit
  have h₆ := (h₅.step 0 rfl (.mark (by decide) rfl)).step 0 rfl .setBit
  have h₇ := (h₆.step 0 rfl (.mark (by decide) rfl)).step 0 rfl .setBit
  have h₈ := (h₇.step 0 rfl .insert).step 1 rfl (.hit 8)
  have h₉ := ((h₈.step 1 rfl .setDyn).step 1 rfl .clearStatic).step 1 rfl .dropOwn
  have h₁₀ := (h₉.step 1 rfl (.turn 0 (by decide))).step 1 rfl (.lock rfl)
  have h₁₁ := (h₁₀.step 1 rfl (.testRoom rfl)).step 1 rfl .slot
  have h₁₂ := ((h₁₁.step 1 rfl .publish).step 1 rfl .unlock).step 0 rfl .drain
  refine ⟨_, _, _, _, h₉, ⟨_, List.mem_cons_self, by decide⟩, rfl, rfl, h₁₂, rfl,
    List.mem_cons_self, .tail (.tail (.tail (.tail .refl
      ⟨⟨0, .notOverflowed rfl⟩, trivial⟩) ⟨⟨0, .take rfl⟩, trivial⟩) ⟨⟨0, .drop⟩, trivial⟩)
      ⟨⟨0, .advance⟩, trivial⟩, ⟨0, .drained rfl⟩, rfl⟩

theorem baked_marked_or_pending_run : ∃ s : State 2, Reachable s ∧ s.point 0 = .free ∧
    (∃ b ∈ s.table 0, 8 ∈ b.baked) ∧ s.staticMap 8 = false ∧ Pending s 0 8 := by
  obtain ⟨r, _, _, _, hr, ⟨b, hb, hw⟩, hclear, hfree, -⟩ := exists_run
  refine ⟨r, hr, hfree, ⟨b, hb, hw⟩, hclear, ?_⟩
  refine ((baked_marked_or_pending hr).1 (Or.inl ⟨b, hb, hw⟩)).resolve_left ?_
  rw [hclear]
  exact Bool.false_ne_true

theorem drained_forever_run : ∃ t : State 2, 8 ∈ t.pushed 0 ∧ ¬ Bakes t 0 8 := by
  obtain ⟨_, s, s', t, -, -, -, -, hs, hstart, hpushed, hrun, hreturn, hfree⟩ := exists_run
  obtain ⟨c, hstep⟩ := hreturn
  refine ⟨t, hstep.pushed (drain_run hs hstart hpushed hrun).2.1, ?_⟩
  exact drained_forever hs hstart hpushed hrun ⟨c, hstep⟩ hfree .refl

end Invalidation
end SubleqEmu
