import SubleqEmu.InvalidationModel

/-!
# The queues under their locks

A CPU has the lock of a queue while it changes its tail, or gives up what is in
it.  So a queue with room keeps it until the word is in, and what is at the head
of a CPU's own queue stays there until it takes it off.
-/

namespace SubleqEmu
namespace Invalidation

variable {n : ℕ} {s s' : State n} {c o : Fin n} {p p' : Point n} {w : ℕ}

@[simp] theorem goTo_point : (s.goTo c p).point o = if o = c then p else s.point o :=
  Function.update_apply _ _ _ _

/-- The lock that a CPU has at this point. -/
def Point.Holds (c o : Fin n) : Point n → Prop
  | .drain .clear => o = c
  | .drain .rewind => o = c
  | .drain .unlock => o = c
  | .hit _ (.push o' at_) => o' = o ∧ at_ ≠ .lock
  | _ => False

/-- What a CPU relies on at a point. -/
def Local (s : State n) (c : Fin n) : Point n → Prop
  | .drain (.drop w) => ∃ rest, (s.queue c).toList = w :: rest
  | .drain (.advance w) =>
      (∃ rest, (s.queue c).toList = w :: rest) ∧ ∀ b ∈ s.table c, w ∉ b.baked
  | .hit _ .setDyn => True
  | .hit w (.push o .slot) => s.dynMap w = true ∧ (s.queue o).isFull = false
  | .hit w (.push o .publish) =>
      s.dynMap w = true ∧ (s.queue o).isFull = false ∧ (s.queue o).slots (s.queue o).tail = w
  | .hit w _ => s.dynMap w = true
  | _ => True

structure Orderly (s : State n) : Prop where
  lock : ∀ o c, s.qlock o = some c ↔ (s.point c).Holds c o
  points : ∀ c, Local s c (s.point c)
  pushed : ∀ o w, w ∈ s.pushed o → s.dynMap w = true

theorem Local.dynMap {h : Hit n} (hlocal : Local s c (.hit w h)) (hne : h ≠ .setDyn) :
    s.dynMap w = true := by
  cases h with
  | setDyn => exact absurd rfl hne
  | push o at_ =>
      cases at_ with
      | slot => exact hlocal.1
      | publish => exact hlocal.1
      | _ => exact hlocal
  | _ => exact hlocal

/-- What another CPU relies on stays, if no queue changes. -/
theorem Local.of_queue (h : Local s o p) (hqueue : s'.queue = s.queue)
    (htable : s'.table o = s.table o) (hdyn : ∀ w, s.dynMap w = true → s'.dynMap w = true) :
    Local s' o p := by
  cases p with
  | free => trivial
  | translate t phase => trivial
  | drain d =>
      cases d with
      | drop w =>
          simp only [Local, hqueue]
          exact h
      | advance w =>
          simp only [Local, hqueue, htable]
          exact h
      | _ => trivial
  | hit w at_ =>
      cases at_ with
      | push o' at_ =>
          cases at_ with
          | slot =>
              simp only [Local, hqueue]
              exact ⟨hdyn w h.1, h.2⟩
          | publish =>
              simp only [Local, hqueue]
              exact ⟨hdyn w h.1, h.2⟩
          | _ => exact hdyn w h
      | setDyn => trivial
      | _ => exact hdyn w h

/-- What another CPU relies on stays, if the queue it looks at is a longer one, or it does
not have the queue's lock and it is a shorter one. -/
theorem Local.of_update {r : Ring ℕ queueLen} (h : Local s o p)
    (hqueue : s'.queue = Function.update s.queue c r) (htable : s'.table o = s.table o)
    (hdyn : s'.dynMap = s.dynMap)
    (hown : o = c → ∀ w rest, (s.queue c).toList = w :: rest → ∃ rest, r.toList = w :: rest)
    (hheld : p.Holds o c → (s.queue c).isFull = false →
      r.isFull = false ∧ r.slots r.tail = (s.queue c).slots (s.queue c).tail) :
    Local s' o p := by
  have hfront : ∀ w, (∃ rest, (s.queue o).toList = w :: rest) →
      ∃ rest, (s'.queue o).toList = w :: rest := by
    rintro w ⟨rest, heq⟩
    rw [hqueue, Function.update_apply]
    split_ifs with ho
    · exact hown ho w rest (ho ▸ heq)
    · exact ⟨rest, heq⟩
  cases p with
  | free => trivial
  | translate t phase => trivial
  | drain d =>
      cases d with
      | drop w => exact hfront w h
      | advance w =>
          refine ⟨hfront w h.1, ?_⟩
          rw [htable]
          exact h.2
      | _ => trivial
  | hit w at_ =>
      cases at_ with
      | setDyn => trivial
      | push o' at_ =>
          cases at_ with
          | slot =>
              simp only [Local, hdyn, hqueue, Function.update_apply]
              refine ⟨h.1, ?_⟩
              split_ifs with ho
              · exact (hheld ⟨ho, by simp⟩ (ho ▸ h.2)).1
              · exact h.2
          | publish =>
              simp only [Local, hdyn, hqueue, Function.update_apply]
              refine ⟨h.1, ?_⟩
              split_ifs with ho
              · obtain ⟨hroom, hslot⟩ := hheld ⟨ho, by simp⟩ (ho ▸ h.2.1)
                exact ⟨hroom, by rw [hslot, ← ho]; exact h.2.2⟩
              · exact h.2
          | _ =>
              simp only [Local, hdyn]
              exact h
      | _ =>
          simp only [Local, hdyn]
          exact h

/-! ## Steps -/

/-- A step to `p'`, by what it makes of the locks and of what the CPUs rely on. -/
theorem Orderly.step (hs : Orderly s) (hpoint : s'.point = Function.update s.point c p')
    (hlock : ∀ o, (s'.qlock o = some c ↔ p'.Holds c o) ∧
      ∀ c', c' ≠ c → (s'.qlock o = some c' ↔ s.qlock o = some c'))
    (hself : Local s' c p')
    (hothers : ∀ c', c' ≠ c → Local s c' (s.point c') → Local s' c' (s.point c'))
    (hpushed : ∀ o w, w ∈ s'.pushed o → s'.dynMap w = true) : Orderly s' where
  lock o c' := by
    rw [hpoint, Function.update_apply]
    split_ifs with hc
    · rw [hc]
      exact (hlock o).1
    · exact ((hlock o).2 c' hc).trans (hs.lock o c')
  points c' := by
    rw [hpoint, Function.update_apply]
    split_ifs with hc
    · rw [hc]
      exact hself
    · exact hothers c' hc (hs.points c')
  pushed := hpushed

/-- The locks after a step that takes and gives back none. -/
theorem Orderly.lock_keep (hs : Orderly s) (hp : s.point c = p) (hlock : s'.qlock = s.qlock)
    (hholds : ∀ o, p'.Holds c o ↔ p.Holds c o) (o : Fin n) :
    (s'.qlock o = some c ↔ p'.Holds c o) ∧
      ∀ c', c' ≠ c → (s'.qlock o = some c' ↔ s.qlock o = some c') := by
  rw [hlock, hholds, ← hp]
  exact ⟨hs.lock o c, fun _ _ => Iff.rfl⟩

theorem Orderly.lock_take (hs : Orderly s) (hp : s.point c = p)
    (hlock : s'.qlock = Function.update s.qlock o (some c)) (hfree : s.qlock o = none)
    (hholds : ∀ o', p'.Holds c o' ↔ o' = o) (hnot : ∀ o', ¬ p.Holds c o') (o' : Fin n) :
    (s'.qlock o' = some c ↔ p'.Holds c o') ∧
      ∀ c', c' ≠ c → (s'.qlock o' = some c' ↔ s.qlock o' = some c') := by
  rw [hlock, Function.update_apply, hholds]
  split_ifs with ho
  · subst ho
    refine ⟨by simp, fun c' hc => ?_⟩
    rw [hfree]
    simp [hc.symm]
  · refine ⟨iff_of_false (fun hheld => ?_) ho, fun _ _ => Iff.rfl⟩
    exact hnot o' (hp ▸ (hs.lock o' c).mp hheld)

theorem Orderly.lock_free (hs : Orderly s) (hp : s.point c = p)
    (hlock : s'.qlock = Function.update s.qlock o none) (hheld : ∀ o', p.Holds c o' ↔ o' = o)
    (hnot : ∀ o', ¬ p'.Holds c o') (o' : Fin n) :
    (s'.qlock o' = some c ↔ p'.Holds c o') ∧
      ∀ c', c' ≠ c → (s'.qlock o' = some c' ↔ s.qlock o' = some c') := by
  have hown : ∀ o', s.qlock o' = some c ↔ o' = o := fun o' =>
    (hs.lock o' c).trans (hp ▸ hheld o')
  rw [hlock, Function.update_apply]
  split_ifs with ho
  · refine ⟨iff_of_false (by simp) (hnot o'), fun c' hc => ?_⟩
    rw [(hown o').mpr ho]
    simp [hc.symm]
  · exact ⟨iff_of_false (fun hc => ho ((hown o').mp hc)) (hnot o'), fun _ _ => Iff.rfl⟩

/-- Only one CPU has the lock of a queue. -/
theorem Orderly.not_holds (hs : Orderly s) {c' : Fin n} (hheld : (s.point c).Holds c o)
    (hne : c' ≠ c) : ¬ (s.point c').Holds c' o := by
  intro hheld'
  have heq := ((hs.lock o c).mpr hheld).symm.trans ((hs.lock o c').mpr hheld')
  exact hne (Option.some.inj heq).symm

theorem Orderly.queue_keep (hs : Orderly s) (hp : s.point c = p)
    (hpoint : s'.point = Function.update s.point c p')
    (hlock : ∀ o, (s'.qlock o = some c ↔ p'.Holds c o) ∧
      ∀ c', c' ≠ c → (s'.qlock o = some c' ↔ s.qlock o = some c'))
    (hself : Local s c p → Local s' c p') (hqueue : s'.queue = s.queue)
    (htable : ∀ o, o ≠ c → s'.table o = s.table o)
    (hdyn : ∀ w, s.dynMap w = true → s'.dynMap w = true)
    (hpushed : ∀ o w, w ∈ s'.pushed o → w ∈ s.pushed o ∨ s'.dynMap w = true) : Orderly s' :=
  hs.step hpoint hlock (hself (hp ▸ hs.points c))
    (fun c' hc h => h.of_queue hqueue (htable c' hc) hdyn)
    fun o w hw => (hpushed o w hw).elim (fun hold => hdyn w (hs.pushed o w hold)) id

/-- A step that changes nothing but where the CPU is. -/
theorem Orderly.goTo (hs : Orderly s) (hp : s.point c = p)
    (hholds : ∀ o, p'.Holds c o ↔ p.Holds c o) (hself : Local s c p → Local s c p') :
    Orderly (s.goTo c p') := by
  refine hs.queue_keep hp rfl (hs.lock_keep hp rfl hholds) (fun h => ?_) rfl (fun _ _ => rfl)
    (fun _ => id) fun _ _ => Or.inl
  exact (hself h).of_queue rfl rfl fun _ => id

/-- A step on the CPU's own blocks. -/
theorem Orderly.setTable (hs : Orderly s) (hp : s.point c = p) {table : List Block}
    (hholds : ∀ o, p'.Holds c o ↔ p.Holds c o)
    (hself : Local s c p → Local (s.setTable c table) c p') :
    Orderly ((s.setTable c table).goTo c p') := by
  refine hs.queue_keep hp rfl (hs.lock_keep hp rfl hholds) (fun h => ?_) rfl (fun o ho => ?_)
    (fun _ => id) fun _ _ => Or.inl
  · exact (hself h).of_queue rfl rfl fun _ => id
  · exact Function.update_of_ne ho _ _

/-- A step on a queue that the CPU has the lock of, or its own. -/
theorem Orderly.setQueue (hs : Orderly s) (hp : s.point c = p) {r : Ring ℕ queueLen}
    (hpoint : s'.point = Function.update s.point c p') (hlock : s'.qlock = s.qlock)
    (hqueue : s'.queue = Function.update s.queue o r) (htable : s'.table = s.table)
    (hdyn : s'.dynMap = s.dynMap) (hholds : ∀ o, p'.Holds c o ↔ p.Holds c o)
    (hself : Local s c p → Local s' c p')
    (hown : o ≠ c → ∀ w rest, (s.queue o).toList = w :: rest → ∃ rest, r.toList = w :: rest)
    (hheld : p.Holds c o ∨ ((s.queue o).isFull = false → r.isFull = false ∧
      r.slots r.tail = (s.queue o).slots (s.queue o).tail))
    (hpushed : ∀ o w, w ∈ s'.pushed o → w ∈ s.pushed o ∨ s.dynMap w = true) : Orderly s' := by
  refine hs.step hpoint (hs.lock_keep hp hlock hholds) (hself (hp ▸ hs.points c))
    (fun c' hc h => ?_)
    fun o w hw => ?_
  · refine h.of_update hqueue (by rw [htable]) hdyn (fun heq => ?_) fun hheld' hroom => ?_
    · subst heq
      exact hown hc
    · rcases hheld with hheld | hring
      · exact absurd hheld' (hs.not_holds (hp ▸ hheld) hc)
      · exact hring hroom
  · rw [hdyn]
    exact (hpushed o w hw).elim (hs.pushed o w) id

theorem not_covers_of_mem {b : Block} {table : List Block} (h : b ∈ invalidateWord w table) :
    ¬ b.Covers w := by
  simpa using (List.mem_filter.mp h).2

theorem mem_notePush {w' : ℕ} {o' : Fin n} (h : w' ∈ (s.notePush o w).pushed o') :
    w' ∈ s.pushed o' ∨ w' = w ∧ o' = o := by
  simp only [State.notePush, Function.update_apply] at h
  split_ifs at h with ho
  · subst ho
    exact (List.mem_cons.mp h).symm.imp_right fun heq => ⟨heq, rfl⟩
  · exact Or.inl h

theorem isEmpty_of_toList {r : Ring ℕ queueLen} {rest : List ℕ} (h : r.toList = w :: rest) :
    r.isEmpty = false := by
  by_contra hempty
  rw [(r.isEmpty_iff).mp (by simpa using hempty)] at h
  cases h

theorem StepFrom.orderly (hs : Orderly s) (hp : s.point c = p) (hstep : StepFrom c s p s') :
    Orderly s' := by
  cases hstep with
  | drain => exact hs.goTo hp (fun _ => Iff.rfl) fun _ => trivial
  | hit w => exact hs.goTo hp (fun _ => Iff.rfl) fun _ => trivial
  | translate start written flush =>
      exact hs.setTable hp (fun _ => Iff.rfl) fun _ => trivial
  | overflowed h => exact hs.goTo hp (fun _ => Iff.rfl) fun _ => trivial
  | notOverflowed h => exact hs.goTo hp (fun _ => Iff.rfl) fun _ => trivial
  | lockOwn h =>
      refine hs.queue_keep hp rfl (hs.lock_take hp rfl h (fun _ => Iff.rfl) fun _ => id)
        (fun _ => trivial) rfl (fun _ _ => rfl) (fun _ => id) fun _ _ => Or.inl
  | clear =>
      exact hs.queue_keep hp rfl (hs.lock_keep hp rfl fun _ => Iff.rfl) (fun _ => trivial) rfl
        (fun _ _ => rfl) (fun _ => id) fun _ _ => Or.inl
  | rewind =>
      exact hs.setQueue hp rfl rfl rfl rfl rfl (fun _ => Iff.rfl) (fun _ => trivial)
        (fun hne => absurd rfl hne) (Or.inl rfl) fun _ _ => Or.inl
  | unlockOwn =>
      exact hs.queue_keep hp rfl (hs.lock_free hp rfl (fun _ => Iff.rfl) fun _ => id)
        (fun _ => trivial) rfl (fun _ _ => rfl) (fun _ => id) fun _ _ => Or.inl
  | flush => exact hs.setTable hp (fun _ => Iff.rfl) fun _ => trivial
  | drained h => exact hs.goTo hp (fun _ => Iff.rfl) fun _ => trivial
  | take h => exact hs.goTo hp (fun _ => Iff.rfl) fun _ =>
      ⟨_, Ring.toList_eq_front_cons _ h⟩
  | drop =>
      refine hs.setTable hp (fun _ => Iff.rfl) fun hfront => ⟨hfront, fun b hb hbaked => ?_⟩
      simp only [State.setTable, Function.update_self] at hb
      exact not_covers_of_mem hb (b.baked_covered _ hbaked)
  | advance =>
      obtain ⟨⟨rest, heq⟩, -⟩ := hp ▸ hs.points c
      have hempty := isEmpty_of_toList heq
      exact hs.setQueue hp rfl rfl rfl rfl rfl (fun _ => Iff.rfl) (fun _ => trivial)
        (fun hne => absurd rfl hne) (Or.inr fun _ => ⟨Ring.isFull_pop _ hempty, rfl⟩)
        fun _ _ => Or.inl
  | setDyn =>
      refine hs.queue_keep hp rfl (hs.lock_keep hp rfl fun _ => Iff.rfl) (fun _ => ?_) rfl
        (fun _ _ => rfl) (fun w' hw => ?_) fun _ _ => Or.inl
      · exact Function.update_self _ _ _
      · simp only [Function.update_apply]
        split_ifs
        · rfl
        · exact hw
  | clearStatic =>
      exact hs.queue_keep hp rfl (hs.lock_keep hp rfl fun _ => Iff.rfl) (fun h => h) rfl
        (fun _ _ => rfl) (fun _ => id) fun _ _ => Or.inl
  | dropOwn => exact hs.setTable hp (fun _ => Iff.rfl) fun h => h
  | finished h => exact hs.goTo hp (fun _ => Iff.rfl) fun _ => trivial
  | skip => exact hs.goTo hp (fun _ => Iff.rfl) fun h => h
  | turn o h => exact hs.goTo hp (fun _ => by simp [Point.Holds]) fun h => h
  | lock h =>
      refine hs.queue_keep hp rfl (hs.lock_take hp rfl h (fun o' => ?_) fun o' => ?_) (fun h => h)
        rfl (fun _ _ => rfl) (fun _ => id) fun _ _ => Or.inl
      · simp [Point.Holds, eq_comm]
      · simp [Point.Holds]
  | testFull h => exact hs.goTo hp (fun _ => by simp [Point.Holds]) fun h => h
  | testRoom h => exact hs.goTo hp (fun _ => by simp [Point.Holds]) fun hdyn => ⟨hdyn, h⟩
  | @full w o =>
      have hdyn : s.dynMap w = true := (hp ▸ hs.points c).dynMap (by simp)
      refine hs.queue_keep hp rfl (hs.lock_keep hp rfl fun _ => by simp [Point.Holds]) (fun h => h)
        rfl (fun _ _ => rfl) (fun _ => id) fun o' w' hw => ?_
      refine (mem_notePush hw).imp_right ?_
      rintro ⟨rfl, -⟩
      exact hdyn
  | @slot w o =>
      refine hs.setQueue hp rfl rfl rfl rfl rfl (fun _ => by simp [Point.Holds])
        (fun hlocal => ⟨hlocal.1, ?_⟩) (fun _ w' rest heq => ⟨rest, ?_⟩)
        (Or.inl ⟨rfl, by simp⟩) fun _ _ => Or.inl
      · simp only [State.goTo, State.setQueue, Function.update_self]
        exact ⟨hlocal.2, Function.update_self _ _ _⟩
      · rw [Ring.toList_store, heq]
  | @publish w o =>
      have hlocal : Local s c (.hit w (.push o .publish)) := hp ▸ hs.points c
      refine hs.setQueue hp rfl rfl rfl rfl rfl (fun _ => by simp [Point.Holds])
        (fun _ => hlocal.1) (fun _ w' rest heq => ⟨rest ++ [w], ?_⟩)
        (Or.inl ⟨rfl, by simp⟩) fun o' w' hw => ?_
      · rw [Ring.toList_advanceTail _ hlocal.2.1, heq, hlocal.2.2]
        rfl
      · refine (mem_notePush hw).imp_right ?_
        rintro ⟨rfl, -⟩
        exact hlocal.1
  | unlock =>
      refine hs.queue_keep hp rfl (hs.lock_free hp rfl (fun o' => ?_) fun o' => ?_) (fun h => h)
        rfl (fun _ _ => rfl) (fun _ => id) fun _ _ => Or.inl
      · simp [Point.Holds, eq_comm]
      · simp [Point.Holds]
  | dynamic hf h => exact hs.goTo hp (fun _ => Iff.rfl) fun _ => trivial
  | static hf h hw => exact hs.goTo hp (fun _ => Iff.rfl) fun _ => trivial
  | classified => exact hs.goTo hp (fun _ => Iff.rfl) fun _ => trivial
  | noMark hf h => exact hs.goTo hp (fun _ => Iff.rfl) fun _ => trivial
  | mark hf h => exact hs.goTo hp (fun _ => Iff.rfl) fun _ => trivial
  | setBit =>
      exact hs.queue_keep hp rfl (hs.lock_keep hp rfl fun _ => Iff.rfl) (fun _ => trivial) rfl
        (fun _ _ => rfl) (fun _ => id) fun _ _ => Or.inl
  | more h => exact hs.goTo hp (fun _ => Iff.rfl) fun _ => trivial
  | insert => exact hs.setTable hp (fun _ => Iff.rfl) fun _ => trivial

end Invalidation
end SubleqEmu
