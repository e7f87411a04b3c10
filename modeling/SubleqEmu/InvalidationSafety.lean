import SubleqEmu.InvalidationLocks

/-!
# No mark is lost

A word baked into a valid block is marked for stores to find, unless the block is
about to be dropped: the word is in the CPU's queue, or the queue's flag says that
there was no room, or a CPU that hit the word has still to push it.
-/

namespace SubleqEmu
namespace Invalidation

variable {n : ℕ} {s s' : State n} {c o : Fin n} {p q : Point n} {w : ℕ}

def Point.baked : Point n → List ℕ
  | .translate t _ => t.baked
  | _ => []

/-- How many of the instruction's fields have been marked. -/
def Phase.marked : Phase → ℕ
  | .classify _ => 0
  | .mark f => f
  | .setBit f => f

/-- A word baked in that the translator is done with. -/
def Point.Done (w : ℕ) : Point n → Prop
  | .translate t phase => w ∈ t.baked ∧ w < t.word phase.marked
  | _ => False

/-- The CPU is giving up its queue, and its blocks next. -/
def Point.Flushes : Point n → Prop
  | .drain .rewind => True
  | .drain .unlock => True
  | .drain .flush => True
  | _ => False

/-- CPU `c` has hit word `w` and has still to drop the blocks of `o`, or to push it to `o`. -/
def Point.Owes (c o : Fin n) (w : ℕ) : Point n → Prop
  | .hit w' .clearStatic => w' = w
  | .hit w' .dropOwn => w' = w
  | .hit w' (.next k) => w' = w ∧ o ≠ c ∧ k ≤ o.val
  | .hit w' (.push o' at_) => w' = w ∧ o ≠ c ∧ (o'.val < o.val ∨ o' = o ∧ at_ ≠ .unlock)
  | _ => False

/-- The word is baked into a block of the CPU, or into one that it translates. -/
def Bakes (s : State n) (o : Fin n) (w : ℕ) : Prop :=
  (∃ b ∈ s.table o, w ∈ b.baked) ∨ w ∈ (s.point o).baked

/-- The word is baked in, past the marking of its instruction. -/
def Done (s : State n) (o : Fin n) (w : ℕ) : Prop :=
  (∃ b ∈ s.table o, w ∈ b.baked) ∨ (s.point o).Done w

/-- The CPU will drop its blocks of the word when it next drains its queue. -/
def Queued (s : State n) (o : Fin n) (w : ℕ) : Prop :=
  s.qoverflow o = true ∨ w ∈ (s.queue o).toList ∨ (s.point o).Flushes

def Owed (s : State n) (o : Fin n) (w : ℕ) : Prop := ∃ c, (s.point c).Owes c o w

def Pending (s : State n) (o : Fin n) (w : ℕ) : Prop := Queued s o w ∨ Owed s o w

structure Safe (s : State n) : Prop where
  done : ∀ o w, Done s o w → s.staticMap w = true ∨ Pending s o w
  bakes : ∀ o w, Bakes s o w → s.dynMap w = false ∨ Pending s o w
  queued : ∀ o w, Bakes s o w → w ∈ s.pushed o → Queued s o w

theorem Done.bakes (h : Done s o w) : Bakes s o w := by
  refine h.imp_right fun hdone => ?_
  cases hp : s.point o with
  | translate t phase =>
      rw [hp] at hdone
      exact hdone.1
  | _ =>
      rw [hp] at hdone
      exact hdone.elim

/-- What a step may do to the words baked in and to what is pending. -/
structure Keeps (s s' : State n) : Prop where
  bakes : ∀ o w, Bakes s' o w → Bakes s o w ∨ s'.dynMap w = false ∧ w ∉ s'.pushed o
  done : ∀ o w, Done s' o w → Done s o w ∨ s'.staticMap w = true ∨ Pending s' o w
  queued : ∀ o w, Bakes s' o w → Queued s o w → Queued s' o w
  owed : ∀ o w, Bakes s' o w → Owed s o w → Pending s' o w
  static : ∀ w, s.staticMap w = true → s'.staticMap w = true ∨ ∀ o, Bakes s' o w → Pending s' o w
  dyn : ∀ w, s'.dynMap w = true → s.dynMap w = true ∨ ∀ o, Bakes s' o w → Pending s' o w
  pushed : ∀ o w, w ∈ s'.pushed o → w ∈ s.pushed o ∨ Queued s' o w

theorem Keeps.pending (h : Keeps s s') (hbakes : Bakes s' o w) (hpending : Pending s o w) :
    Pending s' o w :=
  hpending.elim (fun hqueued => Or.inl (h.queued o w hbakes hqueued)) (h.owed o w hbakes)

theorem Safe.step (hs : Safe s) (h : Keeps s s') : Safe s' where
  done o w hdone := by
    have hbakes := hdone.bakes
    rcases h.done o w hdone with hold | hmarked | hpending
    · rcases hs.done o w hold with hmarked | hpending
      · exact (h.static w hmarked).imp_right fun hall => hall o hbakes
      · exact Or.inr (h.pending hbakes hpending)
    · exact Or.inl hmarked
    · exact Or.inr hpending
  bakes o w hbakes := by
    rcases h.bakes o w hbakes with hold | ⟨hstatic, -⟩
    · cases hdyn : s'.dynMap w with
      | false => exact Or.inl rfl
      | true =>
          refine Or.inr ?_
          rcases h.dyn w hdyn with hdyn | hall
          · refine h.pending hbakes ((hs.bakes o w hold).resolve_left ?_)
            rw [hdyn]
            exact Bool.true_eq_false_eq_False
          · exact hall o hbakes
    · exact Or.inl hstatic
  queued o w hbakes hpushed := by
    rcases h.bakes o w hbakes with hold | ⟨-, hnot⟩
    · rcases h.pushed o w hpushed with hpushed | hqueued
      · exact h.queued o w hbakes (hs.queued o w hold hpushed)
      · exact hqueued
    · exact absurd hpushed hnot

/-! ## Where a CPU goes -/

/-- A CPU that goes on bakes no other words. -/
structure Onward (p q : Point n) : Prop where
  baked : ∀ w ∈ q.baked, w ∈ p.baked
  done : ∀ w, q.Done w → p.Done w

section Onward

variable (hp : s.point c = p) (hpoint : s'.point = Function.update s.point c q)
include hp hpoint

theorem Onward.bakes (h : Onward p q) (htable : ∀ o, s'.table o ⊆ s.table o)
    (hbakes : Bakes s' o w) : Bakes s o w := by
  refine hbakes.imp (fun hb => hb.imp fun b hb => ⟨htable o hb.1, hb.2⟩) fun hw => ?_
  rw [hpoint, Function.update_apply] at hw
  split_ifs at hw with ho
  · rw [ho, hp]
    exact h.baked w hw
  · exact hw

theorem Onward.dones (h : Onward p q) (htable : ∀ o, s'.table o ⊆ s.table o)
    (hdone : Done s' o w) : Done s o w := by
  refine hdone.imp (fun hb => hb.imp fun b hb => ⟨htable o hb.1, hb.2⟩) fun hw => ?_
  rw [hpoint, Function.update_apply] at hw
  split_ifs at hw with ho
  · rw [ho, hp]
    exact h.done w hw
  · exact hw

theorem Queued.goes (hflushes : p.Flushes → q.Flushes)
    (hover : s.qoverflow o = true → s'.qoverflow o = true)
    (hqueue : w ∈ (s.queue o).toList → w ∈ (s'.queue o).toList)
    (hqueued : Queued s o w) : Queued s' o w := by
  refine hqueued.imp hover fun hrest => hrest.imp hqueue fun hflush => ?_
  rw [hpoint, Function.update_apply]
  split_ifs with ho
  · rw [ho, hp] at hflush
    exact hflushes hflush
  · exact hflush

/-- The word of a hit is owed to nobody less, or queued. -/
theorem Owed.pending (howes : p.Owes c o w → q.Owes c o w ∨ Queued s' o w) (howed : Owed s o w) :
    Pending s' o w := by
  obtain ⟨c', hc'⟩ := howed
  by_cases hc : c' = c
  · rw [hc, hp] at hc'
    rcases howes hc' with howes | hqueued
    · exact Or.inr ⟨c, by rw [hpoint, Function.update_self]; exact howes⟩
    · exact Or.inl hqueued
  · exact Or.inr ⟨c', by rw [hpoint, Function.update_of_ne hc]; exact hc'⟩

theorem Onward.keeps (h : Onward p q) (htable : ∀ o, s'.table o ⊆ s.table o)
    (hqueued : ∀ o w, Bakes s' o w → Queued s o w → Queued s' o w)
    (howes : ∀ o w, Bakes s' o w → p.Owes c o w → q.Owes c o w ∨ Queued s' o w)
    (hstatic : ∀ w, s.staticMap w = true →
      s'.staticMap w = true ∨ ∀ o, Bakes s' o w → Pending s' o w)
    (hdyn : ∀ w, s'.dynMap w = true → s.dynMap w = true ∨ ∀ o, Bakes s' o w → Pending s' o w)
    (hpushed : ∀ o w, w ∈ s'.pushed o → w ∈ s.pushed o ∨ Queued s' o w) : Keeps s s' where
  bakes _ _ hbakes := Or.inl (h.bakes hp hpoint htable hbakes)
  done _ _ hdone := Or.inl (h.dones hp hpoint htable hdone)
  queued := hqueued
  owed o w hbakes howed := howed.pending hp hpoint (howes o w hbakes)
  static := hstatic
  dyn := hdyn
  pushed := hpushed

omit hp in
/-- Another CPU's queue. -/
theorem Queued.of_ne (ho : o ≠ c) (hover : s'.qoverflow o = s.qoverflow o)
    (hqueue : s'.queue o = s.queue o) (h : Queued s o w) : Queued s' o w := by
  unfold Queued
  rw [hover, hqueue, hpoint, Function.update_of_ne ho]
  exact h

omit hp in
theorem queued_of_flushes (h : q.Flushes) : Queued s' c w := by
  refine Or.inr (Or.inr ?_)
  rw [hpoint, Function.update_self]
  exact h

end Onward

theorem Keeps.goTo (hp : s.point c = p) (h : Onward p q) (hflushes : p.Flushes → q.Flushes)
    (howes : ∀ o w, p.Owes c o w → q.Owes c o w) : Keeps s (s.goTo c q) :=
  h.keeps hp rfl (fun _ _ hb => hb) (fun _ _ _ => Queued.goes hp rfl hflushes id id)
    (fun o w _ hw => Or.inl (howes o w hw)) (fun _ => Or.inl) (fun _ => Or.inl)
    fun _ _ => Or.inl

theorem Keeps.setLock {holder : Option (Fin n)} (hp : s.point c = p) (h : Onward p q)
    (hflushes : p.Flushes → q.Flushes) (howes : ∀ o w, p.Owes c o w → q.Owes c o w) :
    Keeps s ((s.setLock o holder).goTo c q) :=
  h.keeps hp rfl (fun _ _ hb => hb) (fun _ _ _ => Queued.goes hp rfl hflushes id id)
    (fun o w _ hw => Or.inl (howes o w hw)) (fun _ => Or.inl) (fun _ => Or.inl)
    fun _ _ => Or.inl

theorem setTable_subset {table : List Block} (hsub : table ⊆ s.table c) (o : Fin n) :
    ((s.setTable c table).goTo c q).table o ⊆ s.table o := by
  simp only [State.goTo, State.setTable, Function.update_apply]
  split_ifs with ho
  · rw [ho]
    exact hsub
  · exact fun _ hb => hb

theorem Keeps.setTable {table : List Block} (hp : s.point c = p) (hsub : table ⊆ s.table c)
    (h : Onward p q) (hflushes : p.Flushes → q.Flushes)
    (howes : ∀ o w, Bakes ((s.setTable c table).goTo c q) o w → p.Owes c o w → q.Owes c o w) :
    Keeps s ((s.setTable c table).goTo c q) :=
  h.keeps hp rfl (setTable_subset hsub) (fun _ _ _ => Queued.goes hp rfl hflushes id id)
    (fun o w hbakes hw => Or.inl (howes o w hbakes hw)) (fun _ => Or.inl) (fun _ => Or.inl)
    fun _ _ => Or.inl

/-- From one field of an instruction to the next, with the marks of those done. -/
theorem Keeps.fields {t : Translation} {phase phase' : Phase}
    (hp : s.point c = .translate t phase)
    (hpoint : s'.point = Function.update s.point c (.translate t phase'))
    (htable : s'.table = s.table) (hover : s'.qoverflow = s.qoverflow)
    (hqueue : s'.queue = s.queue) (hpushed : s'.pushed = s.pushed) (hdyn : s'.dynMap = s.dynMap)
    (hstatic : ∀ w, s.staticMap w = true → s'.staticMap w = true)
    (hmarked : ∀ w ∈ t.baked, w < t.word phase'.marked →
      w < t.word phase.marked ∨ s'.staticMap w = true ∨ Pending s c w) : Keeps s s' := by
  have hqueued : ∀ o w, Queued s o w → Queued s' o w := fun o w =>
    Queued.goes hp hpoint id (by rw [hover]; exact id) (by rw [hqueue]; exact id)
  have howed : ∀ o w, Owed s o w → Pending s' o w := fun _ _ howed =>
    howed.pending hp hpoint fun hw => hw.elim
  refine {
    bakes := fun o w hbakes => Or.inl ?_
    done := fun o w hdone => ?_
    queued := fun o w _ => hqueued o w
    owed := fun o w _ => howed o w
    static := fun w hw => Or.inl (hstatic w hw)
    dyn := fun w hw => Or.inl (hdyn ▸ hw)
    pushed := fun o w hw => Or.inl (hpushed ▸ hw) }
  · refine hbakes.imp (fun hb => htable ▸ hb) fun hw => ?_
    rw [hpoint, Function.update_apply] at hw
    split_ifs at hw with ho
    · rw [ho, hp]
      exact hw
    · exact hw
  · rcases hdone with hb | hw
    · exact Or.inl (Or.inl (htable ▸ hb))
    · rw [hpoint, Function.update_apply] at hw
      split_ifs at hw with ho
      · subst ho
        rcases hmarked w hw.1 hw.2 with hlt | hset | hpending
        · exact Or.inl (Or.inr (by rw [hp]; exact ⟨hw.1, hlt⟩))
        · exact Or.inr (Or.inl hset)
        · exact Or.inr (Or.inr (hpending.elim (fun h => Or.inl (hqueued o w h)) (howed o w)))
      · exact Or.inl (Or.inr hw)

theorem invalidateWord_subset {table : List Block} : invalidateWord w table ⊆ table :=
  List.filter_subset_self _

theorem not_bakes_invalidateWord (h : q.baked = []) :
    ¬ Bakes ((s.setTable c (invalidateWord w (s.table c))).goTo c q) c w := by
  rintro (⟨b, hb, hw⟩ | hw)
  · simp only [State.goTo, State.setTable, Function.update_self] at hb
    exact not_covers_of_mem hb (b.baked_covered w hw)
  · simp only [goTo_point, if_true, h] at hw
    cases hw

theorem StepFrom.keeps (hs : Safe s) (hord : Orderly s) (hp : s.point c = p)
    (hstep : StepFrom c s p s') : Keeps s s' := by
  cases hstep with
  | drain => exact .goTo hp ⟨fun _ => id, fun _ => id⟩ id fun _ _ => id
  | hit w => exact .goTo hp ⟨fun _ => id, fun _ => id⟩ id fun _ _ => id
  | translate start written flush =>
      refine .setTable hp ?_ ⟨fun _ => id, fun _ hw => absurd hw.1 List.not_mem_nil⟩ id
        fun _ _ _ => id
      split_ifs
      · exact List.nil_subset _
      · exact fun _ hb => hb
  | overflowed h => exact .goTo hp ⟨fun _ => id, fun _ => id⟩ id fun _ _ => id
  | notOverflowed h => exact .goTo hp ⟨fun _ => id, fun _ => id⟩ id fun _ _ => id
  | lockOwn h => exact .setLock hp ⟨fun _ => id, fun _ => id⟩ id fun _ _ => id
  | clear =>
      refine Onward.keeps (q := .drain .rewind) hp rfl ⟨fun _ => id, fun _ => id⟩
        (fun _ _ hb => hb) (fun o w _ hqueued => ?_) (fun _ _ _ => Or.inl) (fun _ => Or.inl)
        (fun _ => Or.inl) fun _ _ => Or.inl
      by_cases ho : o = c
      · exact ho ▸ queued_of_flushes rfl trivial
      · exact Queued.of_ne (s := s) rfl ho (Function.update_of_ne ho _ _) rfl hqueued
  | rewind =>
      refine Onward.keeps (q := .drain .unlock) hp rfl ⟨fun _ => id, fun _ => id⟩
        (fun _ _ hb => hb) (fun o w _ hqueued => ?_) (fun _ _ _ => Or.inl) (fun _ => Or.inl)
        (fun _ => Or.inl) fun _ _ => Or.inl
      by_cases ho : o = c
      · exact ho ▸ queued_of_flushes rfl trivial
      · exact Queued.of_ne (s := s) rfl ho rfl (Function.update_of_ne ho _ _) hqueued
  | unlockOwn => exact .setLock hp ⟨fun _ => id, fun _ => id⟩ id fun _ _ => id
  | flush =>
      have hnot : ∀ w, ¬ Bakes ((s.setTable c []).goTo c .free) c w := by
        rintro w (⟨b, hb, -⟩ | hw)
        · simp only [State.goTo, State.setTable, Function.update_self] at hb
          cases hb
        · simp only [goTo_point, if_true] at hw
          cases hw
      refine Onward.keeps (q := .free) hp rfl ⟨fun _ => id, fun _ => id⟩
        (setTable_subset (List.nil_subset _)) (fun o w hbakes hqueued => ?_)
        (fun _ _ _ => Or.inl) (fun _ => Or.inl) (fun _ => Or.inl) fun _ _ => Or.inl
      refine Queued.of_ne (s := s) rfl (fun ho => ?_) rfl rfl hqueued
      exact hnot w (ho ▸ hbakes)
  | drained h => exact .goTo hp ⟨fun _ => id, fun _ => id⟩ id fun _ _ => id
  | take h => exact .goTo hp ⟨fun _ => id, fun _ => id⟩ id fun _ _ => id
  | drop =>
      exact .setTable hp invalidateWord_subset ⟨fun _ => id, fun _ => id⟩ id fun _ _ _ => id
  | @advance w =>
      obtain ⟨⟨rest, heq⟩, hnone⟩ : Local s c (.drain (.advance w)) := hp ▸ hord.points c
      have hpop := (s.queue c).toList_eq_front_cons (isEmpty_of_toList heq)
      have hfront : (s.queue c).front = w := (List.cons.inj (hpop.symm.trans heq)).1
      refine Onward.keeps (q := .drain .next) hp rfl ⟨fun _ => id, fun _ => id⟩
        (fun _ _ hb => hb) (fun o w' hbakes hqueued => ?_) (fun _ _ _ => Or.inl) (fun _ => Or.inl)
        (fun _ => Or.inl) fun _ _ => Or.inl
      by_cases ho : o = c
      · subst ho
        refine Queued.goes (s := s) hp rfl id id (fun hmem => ?_) hqueued
        rw [hpop, hfront] at hmem
        simp only [State.goTo, State.setQueue, Function.update_self]
        refine (List.mem_cons.mp hmem).resolve_left ?_
        rintro rfl
        rcases hbakes with ⟨b, hb, hw⟩ | hw
        · exact hnone b hb hw
        · simp only [goTo_point, if_true] at hw
          cases hw
      · exact Queued.of_ne (s := s) rfl ho rfl (Function.update_of_ne ho _ _) hqueued
  | @setDyn w =>
      refine Onward.keeps (q := .hit w .clearStatic) hp rfl ⟨fun _ => id, fun _ => id⟩
        (fun _ _ hb => hb) (fun _ _ _ => Queued.goes (s := s) hp rfl id id id)
        (fun _ _ _ howes => howes.elim) (fun _ => Or.inl) (fun w' hdyn => ?_) fun _ _ => Or.inl
      simp only [Function.update_apply] at hdyn
      split_ifs at hdyn with heq
      · subst heq
        exact Or.inr fun o _ => Or.inr ⟨c, by simp [Point.Owes]⟩
      · exact Or.inl hdyn
  | @clearStatic w =>
      refine Onward.keeps (q := .hit w .dropOwn) hp rfl ⟨fun _ => id, fun _ => id⟩
        (fun _ _ hb => hb) (fun _ _ _ => Queued.goes (s := s) hp rfl id id id)
        (fun _ _ _ => Or.inl) (fun w' hmarked => ?_) (fun _ => Or.inl) fun _ _ => Or.inl
      simp only [Function.update_apply]
      split_ifs with heq
      · subst heq
        exact Or.inr fun o _ => Or.inr ⟨c, by simp [Point.Owes]⟩
      · exact Or.inl hmarked
  | @dropOwn w =>
      refine .setTable hp invalidateWord_subset ⟨fun _ => id, fun _ => id⟩ id
        fun o w' hbakes howes => ?_
      obtain rfl : w = w' := howes
      refine ⟨rfl, ?_, Nat.zero_le _⟩
      rintro rfl
      exact not_bakes_invalidateWord rfl hbakes
  | finished h =>
      refine .goTo hp ⟨fun _ => id, fun _ => id⟩ id fun o w howes => ?_
      have hlt := o.isLt
      have hle := howes.2.2
      omega
  | skip =>
      refine .goTo hp ⟨fun _ => id, fun _ => id⟩ id fun o w howes => ⟨howes.1, howes.2.1, ?_⟩
      have hne : o.val ≠ c.val := fun heq => howes.2.1 (Fin.ext heq)
      have hle := howes.2.2
      omega
  | turn o' h =>
      refine .goTo hp ⟨fun _ => id, fun _ => id⟩ id fun o w howes => ⟨howes.1, howes.2.1, ?_⟩
      exact (Nat.lt_or_eq_of_le howes.2.2).imp id fun heq => ⟨Fin.ext heq, by simp⟩
  | lock h =>
      refine .setLock hp ⟨fun _ => id, fun _ => id⟩ id fun o w howes => ⟨howes.1, howes.2.1, ?_⟩
      exact howes.2.2.imp_right fun hpush => ⟨hpush.1, by simp⟩
  | testFull h =>
      refine .goTo hp ⟨fun _ => id, fun _ => id⟩ id fun o w howes => ⟨howes.1, howes.2.1, ?_⟩
      exact howes.2.2.imp_right fun hpush => ⟨hpush.1, by simp⟩
  | testRoom h =>
      refine .goTo hp ⟨fun _ => id, fun _ => id⟩ id fun o w howes => ⟨howes.1, howes.2.1, ?_⟩
      exact howes.2.2.imp_right fun hpush => ⟨hpush.1, by simp⟩
  | @full w o' =>
      have hover : ∀ w, Queued (((s.setOverflow o' true).notePush o' w).goTo c
          (.hit w (.push o' .unlock))) o' w := fun w => Or.inl (Function.update_self _ _ _)
      refine Onward.keeps (q := .hit w (.push o' .unlock)) hp rfl ⟨fun _ => id, fun _ => id⟩
        (fun _ _ hb => hb) (fun o w' _ hqueued => ?_) (fun o w' _ howes => ?_) (fun _ => Or.inl)
        (fun _ => Or.inl) fun o w' hw => ?_
      · refine Queued.goes (s := s) hp rfl id (fun hold => ?_) id hqueued
        simp only [State.goTo, State.notePush, State.setOverflow, Function.update_apply]
        split_ifs
        · rfl
        · exact hold
      · obtain ⟨rfl, hne, hlt | ⟨rfl, -⟩⟩ := howes
        · exact Or.inl ⟨rfl, hne, Or.inl hlt⟩
        · exact Or.inr (hover w)
      · refine (mem_notePush hw).imp_right ?_
        rintro ⟨rfl, rfl⟩
        exact hover w'
  | @slot w o' =>
      refine Onward.keeps (q := .hit w (.push o' .publish)) hp rfl ⟨fun _ => id, fun _ => id⟩
        (fun _ _ hb => hb) (fun o w' _ hqueued => ?_) (fun o w' _ howes => Or.inl ?_)
        (fun _ => Or.inl)
        (fun _ => Or.inl) fun _ _ => Or.inl
      · refine Queued.goes (s := s) hp rfl id id (fun hmem => ?_) hqueued
        simp only [State.goTo, State.setQueue, Function.update_apply]
        split_ifs with ho
        · rwa [Ring.toList_store, ← ho]
        · exact hmem
      · exact ⟨howes.1, howes.2.1, howes.2.2.imp_right fun hpush => ⟨hpush.1, by simp⟩⟩
  | @publish w o' =>
      obtain ⟨-, hroom, hslot⟩ : Local s c (.hit w (.push o' .publish)) := hp ▸ hord.points c
      have hring := (s.queue o').toList_advanceTail hroom
      rw [hslot] at hring
      have hin : Queued (((s.setQueue o' (s.queue o').advanceTail).notePush o' w).goTo c
          (.hit w (.push o' .unlock))) o' w := by
        refine Or.inr (Or.inl ?_)
        simp only [State.goTo, State.notePush, State.setQueue, Function.update_self, hring]
        exact List.mem_append_right _ List.mem_cons_self
      refine Onward.keeps (q := .hit w (.push o' .unlock)) hp rfl ⟨fun _ => id, fun _ => id⟩
        (fun _ _ hb => hb) (fun o w' _ hqueued => ?_) (fun o w' _ howes => ?_) (fun _ => Or.inl)
        (fun _ => Or.inl) fun o w' hw => ?_
      · refine Queued.goes (s := s) hp rfl id id (fun hmem => ?_) hqueued
        simp only [State.goTo, State.notePush, State.setQueue, Function.update_apply]
        split_ifs with ho
        · rw [hring, ← ho]
          exact List.mem_append_left _ hmem
        · exact hmem
      · obtain ⟨rfl, hne, hlt | ⟨rfl, -⟩⟩ := howes
        · exact Or.inl ⟨rfl, hne, Or.inl hlt⟩
        · exact Or.inr hin
      · refine (mem_notePush hw).imp_right ?_
        rintro ⟨rfl, rfl⟩
        exact hin
  | unlock =>
      refine .setLock hp ⟨fun _ => id, fun _ => id⟩ id fun o w howes => ⟨howes.1, howes.2.1, ?_⟩
      rcases howes.2.2 with hlt | ⟨-, hne⟩
      · exact hlt
      · exact absurd rfl hne
  | dynamic hf h => exact .goTo hp ⟨fun _ => id, fun _ => id⟩ id fun _ _ => id
  | @static t f hf h hw =>
      have hpushed : t.word f ∉ s.pushed c := fun hmem => by
        rw [hord.pushed c _ hmem] at h
        cases h
      exact {
        bakes := fun o w hbakes => by
          refine or_iff_not_imp_right.mpr fun hnot => ?_
          refine hbakes.imp id fun hmem => ?_
          simp only [goTo_point] at hmem
          split_ifs at hmem with ho
          · subst ho
            rw [hp]
            refine (List.mem_cons.mp hmem).resolve_left ?_
            rintro rfl
            exact hnot ⟨h, hpushed⟩
          · exact hmem
        done := fun o w hdone => by
          refine Or.inl (hdone.imp id fun hmem => ?_)
          simp only [goTo_point] at hmem
          split_ifs at hmem with ho
          · subst ho
            rw [hp]
            refine ⟨(List.mem_cons.mp hmem.1).resolve_left ?_, hmem.2⟩
            rintro rfl
            have hlt : t.start + 3 * t.n + f < t.start + 3 * t.n + 0 := hmem.2
            omega
          · exact hmem
        queued := fun _ _ _ => Queued.goes hp rfl id id id
        owed := fun _ _ _ howed => howed.pending hp rfl fun hw => hw.elim
        static := fun _ => Or.inl
        dyn := fun _ => Or.inl
        pushed := fun _ _ => Or.inl }
  | classified => exact .goTo hp ⟨fun _ => id, fun _ => id⟩ id fun _ _ => id
  | @noMark t f hf h =>
      refine .fields hp rfl rfl rfl rfl rfl rfl (fun _ => id) fun w hw hlt => ?_
      by_cases hbefore : w < t.word f
      · exact Or.inl hbefore
      · have heq : t.word f = w := by
          have hlt' : w < t.start + 3 * t.n + (f + 1) := hlt
          unfold Translation.word at hbefore ⊢
          omega
        rw [heq, Translation.isDynamic, t.baked_unwritten w hw, Bool.or_false] at h
        refine Or.inr (Or.inr ((hs.bakes c w (Or.inr ?_)).resolve_left ?_))
        · rw [hp]
          exact hw
        · rw [h]
          exact Bool.true_eq_false_eq_False
  | mark hf h => exact .goTo hp ⟨fun _ => id, fun _ => id⟩ id fun _ _ => id
  | @setBit t f =>
      refine .fields hp rfl rfl rfl rfl rfl rfl (fun w hw => ?_) fun w hw hlt => ?_
      · simp only [Function.update_apply]
        split_ifs
        · rfl
        · exact hw
      · have hlt' : w < t.start + 3 * t.n + (f + 1) := hlt
        by_cases heq : w = t.word f
        · rw [heq]
          exact Or.inr (Or.inl (Function.update_self _ _ _))
        · refine Or.inl ?_
          show w < t.start + 3 * t.n + f
          unfold Translation.word at heq
          omega
  | @more t h =>
      refine .goTo hp ⟨fun _ => id, fun w hw => ⟨hw.1, ?_⟩⟩ id fun _ _ => id
      have hlt : w < t.start + 3 * (t.n + 1) + 0 := hw.2
      show w < t.start + 3 * t.n + 3
      omega
  | @insert t =>
      have htable : ∀ o, ∀ b ∈ ((s.setTable c (t.block :: s.table c)).goTo c .free).table o,
          b ∈ s.table o ∨ o = c ∧ b = t.block := by
        intro o b hb
        simp only [State.goTo, State.setTable, Function.update_apply] at hb
        split_ifs at hb with ho
        · subst ho
          exact (List.mem_cons.mp hb).symm.imp_right fun heq => ⟨rfl, heq⟩
        · exact Or.inl hb
      have hpoint : ∀ o, o ≠ c →
          ((s.setTable c (t.block :: s.table c)).goTo c .free).point o = s.point o := fun o ho =>
        Function.update_of_ne ho _ _
      have hidle : ((s.setTable c (t.block :: s.table c)).goTo c .free).point c = .free :=
        Function.update_self _ _ _
      refine {
        bakes := fun o w hbakes => Or.inl ?_
        done := fun o w hdone => Or.inl ?_
        queued := fun _ _ _ => Queued.goes (s := s) hp rfl id id id
        owed := fun _ _ _ howed => howed.pending (s := s) hp rfl fun hw => hw.elim
        static := fun _ => Or.inl
        dyn := fun _ => Or.inl
        pushed := fun _ _ => Or.inl }
      · rcases hbakes with ⟨b, hb, hw⟩ | hw
        · rcases htable o b hb with hb | ⟨rfl, rfl⟩
          · exact Or.inl ⟨b, hb, hw⟩
          · exact Or.inr (by rw [hp]; exact hw)
        · by_cases ho : o = c
          · rw [ho, hidle] at hw
            cases hw
          · exact Or.inr (hpoint o ho ▸ hw)
      · rcases hdone with ⟨b, hb, hw⟩ | hw
        · rcases htable o b hb with hb | ⟨rfl, rfl⟩
          · exact Or.inl ⟨b, hb, hw⟩
          · refine Or.inr ?_
            rw [hp]
            refine ⟨hw, ?_⟩
            have hcovered := t.baked_covered w hw
            show w < t.start + 3 * t.n + 3
            omega
        · by_cases ho : o = c
          · rw [ho, hidle] at hw
            exact hw.elim
          · exact Or.inr (hpoint o ho ▸ hw)

end Invalidation
end SubleqEmu
