import SubleqEmu.IoStackModel

/-!
# Deferred writes are delivered once and in order

In any interleaving the entries passed are those flushed, those in the ring that
are not, and the one being put in.  The flusher's entry counts as flushed from its
write to the device word on, which is before the head passes it.
-/

namespace SubleqEmu
namespace IoStack

/-- The entry of a call that is going on. -/
def WritePoint.pending : WritePoint → List Entry
  | .idle => []
  | .test e | .storeLoc e | .storeValue e | .storeTail e | .panicked e => [e]

/-- The entries in the ring still to be written to their words. -/
def State.waiting (s : State) : List Entry :=
  if s.flusher = .storeHead then s.ring.toList.tail else s.ring.toList

/-- What a writer has put in the slot at the tail, and that there is room. -/
def State.WriterHolds (s : State) : Prop :=
  match s.writer with
  | .idle | .test _ => True
  | .storeLoc _ => s.ring.isFull = false
  | .storeValue e => s.ring.isFull = false ∧ (s.ring.slots s.ring.tail).ioLoc = e.ioLoc
  | .storeTail e => s.ring.isFull = false ∧ s.ring.slots s.ring.tail = e
  | .panicked _ => True

/-- What the flusher knows of the first entry of the ring, the list of which is `l`. -/
def FlushPoint.Holds (device : Word → Word) (l : List Entry) : FlushPoint → Prop
  | .idle | .test => True
  | .loadLoc => ∃ e rest, l = e :: rest
  | .readram ioLoc => ∃ e rest, l = e :: rest ∧ ioLoc = e.ioLoc
  | .loadLocAgain => ∃ e rest, l = e :: rest ∧ device e.ioLoc = 0
  | .loadValue ioLoc => ∃ e rest, l = e :: rest ∧ ioLoc = e.ioLoc ∧ device e.ioLoc = 0
  | .writeram ioLoc value => ∃ e rest, l = e :: rest ∧ e = ⟨ioLoc, value⟩ ∧ device e.ioLoc = 0
  | .storeHead => ∃ e rest, l = e :: rest

structure State.Inv (s : State) : Prop where
  split : s.passed = s.flushed ++ s.waiting ++ s.writer.pending
  writer : s.WriterHolds
  flusher : s.flusher.Holds s.device s.ring.toList

theorem inv_initial (slots : ℕ → Entry) (device : Word → Word) :
    (State.initial slots device).Inv :=
  ⟨by simp [State.initial, State.waiting, WritePoint.pending], trivial, trivial⟩

/-- What the flusher knows survives clearing words and new entries at the end. -/
theorem FlushPoint.Holds.mono {device device' : Word → Word} {l l' : List Entry}
    {point : FlushPoint} (h : point.Holds device l)
    (hdevice : ∀ a, device a = 0 → device' a = 0) : point.Holds device' (l ++ l') := by
  cases point with
  | idle => trivial
  | test => trivial
  | loadLoc =>
      obtain ⟨e, rest, rfl⟩ := h
      exact ⟨e, rest ++ l', rfl⟩
  | readram ioLoc =>
      obtain ⟨e, rest, rfl, hloc⟩ := h
      exact ⟨e, rest ++ l', rfl, hloc⟩
  | loadLocAgain =>
      obtain ⟨e, rest, rfl, hzero⟩ := h
      exact ⟨e, rest ++ l', rfl, hdevice _ hzero⟩
  | loadValue ioLoc =>
      obtain ⟨e, rest, rfl, hloc, hzero⟩ := h
      exact ⟨e, rest ++ l', rfl, hloc, hdevice _ hzero⟩
  | writeram ioLoc value =>
      obtain ⟨e, rest, rfl, he, hzero⟩ := h
      exact ⟨e, rest ++ l', rfl, he, hdevice _ hzero⟩
  | storeHead =>
      obtain ⟨e, rest, rfl⟩ := h
      exact ⟨e, rest ++ l', rfl⟩

theorem State.waiting_concat {s s' : State} {l : List Entry} (h : s.Inv)
    (hpoint : s'.flusher = s.flusher) (hring : s'.ring.toList = s.ring.toList ++ l) :
    s'.waiting = s.waiting ++ l := by
  unfold State.waiting
  rw [hpoint, hring]
  split_ifs with hstore
  · have hholds := h.flusher
    rw [hstore] at hholds
    obtain ⟨e, rest, heq⟩ := hholds
    rw [heq]
    rfl
  · rfl

/-! ## Steps -/

/-- A step of the writer that puts `l` at the end of the ring. -/
theorem State.Inv.writes {s s' : State} (h : s.Inv) {l : List Entry}
    (hpoint : s'.flusher = s.flusher) (hdevice : s'.device = s.device)
    (hflushed : s'.flushed = s.flushed) (hring : s'.ring.toList = s.ring.toList ++ l)
    (hpassed : s'.passed = s.flushed ++ s.waiting ++ l ++ s'.writer.pending)
    (hholds : s'.WriterHolds) : s'.Inv := by
  refine ⟨?_, hholds, ?_⟩
  · rw [hpassed, hflushed, State.waiting_concat h hpoint hring]
    simp only [List.append_assoc]
  · rw [hpoint, hdevice, hring]
    exact h.flusher.mono fun _ hzero => hzero

theorem State.Inv.writerStep {s : State} (h : s.Inv) : s.writerStep.Inv := by
  have hsplit := h.split
  have hholds := h.writer
  unfold State.WriterHolds at hholds
  unfold State.writerStep
  cases hwriter : s.writer with
  | idle => exact h
  | test e =>
      rw [hwriter] at hsplit
      simp only
      cases hfull : s.ring.isFull with
      | true =>
          refine h.writes (l := []) rfl rfl rfl (List.append_nil _).symm ?_ trivial
          rw [List.append_nil]
          exact hsplit
      | false =>
          refine h.writes (l := []) rfl rfl rfl (List.append_nil _).symm ?_ hfull
          rw [List.append_nil]
          exact hsplit
  | storeLoc e =>
      rw [hwriter] at hsplit hholds
      refine h.writes (l := []) rfl rfl rfl ?_ ?_ ⟨hholds, ?_⟩
      · rw [List.append_nil]
        exact Ring.toList_store _ _
      · rw [List.append_nil]
        exact hsplit
      · show (Function.update s.ring.slots s.ring.tail _ s.ring.tail).ioLoc = e.ioLoc
        rw [Function.update_self]
  | storeValue e =>
      rw [hwriter] at hsplit hholds
      refine h.writes (l := []) rfl rfl rfl ?_ ?_ ⟨hholds.1, ?_⟩
      · rw [List.append_nil]
        exact Ring.toList_store _ _
      · rw [List.append_nil]
        exact hsplit
      · show Function.update s.ring.slots s.ring.tail _ s.ring.tail = e
        rw [Function.update_self, hholds.2]
  | storeTail e =>
      rw [hwriter] at hsplit hholds
      refine h.writes (l := [e]) rfl rfl rfl ?_ ?_ trivial
      · rw [← hholds.2]
        exact Ring.toList_advanceTail _ hholds.1
      · rw [hsplit]
        simp only [WritePoint.pending, List.append_nil]
  | panicked e => exact h

/-- A step of the flusher that leaves the ring and the device words alone. -/
theorem State.Inv.reads {s s' : State} (h : s.Inv) (hring : s'.ring = s.ring)
    (hwriter : s'.writer = s.writer) (hpassed : s'.passed = s.passed)
    (hflushed : s'.flushed = s.flushed) (hstay : s.flusher ≠ .storeHead)
    (hgo : s'.flusher ≠ .storeHead) (hholds : s'.flusher.Holds s'.device s'.ring.toList) :
    s'.Inv := by
  have hwaiting : s'.waiting = s.waiting := by
    rw [State.waiting, State.waiting, if_neg hgo, if_neg hstay, hring]
  refine ⟨?_, ?_, hholds⟩
  · rw [hpassed, hflushed, hwaiting, hwriter]
    exact h.split
  · have hw := h.writer
    unfold State.WriterHolds at *
    rwa [hwriter, hring]

theorem State.isEmpty_of_toList {s : State} {e : Entry} {rest : List Entry}
    (h : s.ring.toList = e :: rest) : s.ring.isEmpty = false := by
  rw [← Bool.not_eq_true, Ring.isEmpty_iff, h]
  exact List.cons_ne_nil e rest

theorem State.front_of_toList {s : State} {e : Entry} {rest : List Entry}
    (h : s.ring.toList = e :: rest) : s.ring.front = e ∧ s.ring.pop.toList = rest := by
  have hfront := s.ring.toList_eq_front_cons (State.isEmpty_of_toList h)
  rw [h] at hfront
  exact ⟨(List.cons.inj hfront).1.symm, (List.cons.inj hfront).2.symm⟩

theorem State.Inv.flusherStep {s : State} (h : s.Inv) : s.flusherStep.Inv := by
  have hholds := h.flusher
  unfold State.flusherStep
  cases hpoint : s.flusher with
  | idle => exact h
  | test =>
      cases hempty : s.ring.isEmpty with
      | true => exact h.reads rfl rfl rfl rfl (by rw [hpoint]; nofun) nofun trivial
      | false =>
          exact h.reads rfl rfl rfl rfl (by rw [hpoint]; nofun) nofun
            ⟨_, _, s.ring.toList_eq_front_cons hempty⟩
  | loadLoc =>
      rw [hpoint] at hholds
      obtain ⟨e, rest, heq⟩ := hholds
      refine h.reads rfl rfl rfl rfl (by rw [hpoint]; nofun) nofun ?_
      exact ⟨e, rest, heq, by rw [(State.front_of_toList heq).1]⟩
  | readram ioLoc =>
      rw [hpoint] at hholds
      obtain ⟨e, rest, heq, hloc⟩ := hholds
      dsimp only
      by_cases hzero : s.device ioLoc = 0
      · rw [if_pos hzero]
        refine h.reads rfl rfl rfl rfl (by rw [hpoint]; nofun) nofun ?_
        exact ⟨e, rest, heq, hloc ▸ hzero⟩
      · rw [if_neg hzero]
        exact h.reads rfl rfl rfl rfl (by rw [hpoint]; nofun) nofun trivial
  | loadLocAgain =>
      rw [hpoint] at hholds
      obtain ⟨e, rest, heq, hzero⟩ := hholds
      refine h.reads rfl rfl rfl rfl (by rw [hpoint]; nofun) nofun ?_
      exact ⟨e, rest, heq, by rw [(State.front_of_toList heq).1], hzero⟩
  | loadValue ioLoc =>
      rw [hpoint] at hholds
      obtain ⟨e, rest, heq, hloc, hzero⟩ := hholds
      refine h.reads rfl rfl rfl rfl (by rw [hpoint]; nofun) nofun ?_
      exact ⟨e, rest, heq, by rw [hloc, (State.front_of_toList heq).1], hzero⟩
  | writeram ioLoc value =>
      rw [hpoint] at hholds
      obtain ⟨e, rest, heq, rfl, -⟩ := hholds
      refine ⟨?_, h.writer, ⟨_, rest, heq⟩⟩
      have hsplit := h.split
      rw [State.waiting, if_neg (by rw [hpoint]; nofun), heq] at hsplit
      show s.passed = s.flushed ++ [⟨ioLoc, value⟩] ++ (if _ then _ else _) ++ s.writer.pending
      rw [if_pos rfl, hsplit]
      show _ = s.flushed ++ [⟨ioLoc, value⟩] ++ s.ring.toList.tail ++ s.writer.pending
      rw [heq]
      simp only [List.tail_cons, List.append_assoc, List.cons_append, List.nil_append]
  | storeHead =>
      rw [hpoint] at hholds
      obtain ⟨e, rest, heq⟩ := hholds
      have hpop := (State.front_of_toList heq).2
      have hsplit := h.split
      rw [State.waiting, if_pos hpoint, heq] at hsplit
      refine ⟨?_, ?_, trivial⟩
      · show s.passed = s.flushed ++ (if _ then _ else s.ring.pop.toList) ++ s.writer.pending
        rw [if_neg nofun, hpop, hsplit]
        rfl
      · have hfull := s.ring.isFull_pop (State.isEmpty_of_toList heq)
        have hw := h.writer
        unfold State.WriterHolds at *
        cases hwriter : s.writer with
        | idle => trivial
        | test e => trivial
        | storeLoc e =>
            simp only [hwriter] at hw ⊢
            exact hfull
        | storeValue e =>
            simp only [hwriter] at hw ⊢
            exact ⟨hfull, hw.2⟩
        | storeTail e =>
            simp only [hwriter] at hw ⊢
            exact ⟨hfull, hw.2⟩
        | panicked e => trivial

theorem State.Inv.step {s : State} (h : s.Inv) (event : Event) : (s.step event).Inv := by
  cases event with
  | write e =>
      rw [State.step]
      by_cases hidle : s.writer = .idle
      · rw [if_pos hidle]
        refine h.writes (l := []) rfl rfl rfl (List.append_nil _).symm ?_ trivial
        have hsplit := h.split
        rw [hidle] at hsplit
        show s.passed ++ [e] = _
        rw [hsplit]
        simp [WritePoint.pending]
      · rwa [if_neg hidle]
  | flush =>
      rw [State.step]
      by_cases hidle : s.flusher = .idle
      · rw [if_pos hidle]
        exact h.reads rfl rfl rfl rfl (by rw [hidle]; nofun) nofun trivial
      · rwa [if_neg hidle]
  | writer => exact h.writerStep
  | flusher => exact h.flusherStep
  | clear ioLoc =>
      refine ⟨h.split, h.writer, ?_⟩
      have hholds := @FlushPoint.Holds.mono _ (Function.update s.device ioLoc 0) _ [] _ h.flusher ?_
      · rwa [List.append_nil] at hholds
      · intro a hzero
        by_cases heq : a = ioLoc
        · rw [heq, Function.update_self]
        · rw [Function.update_of_ne heq, hzero]

theorem State.Inv.run {s : State} (h : s.Inv) (events : List Event) : (s.run events).Inv := by
  induction events generalizing s with
  | nil => exact h
  | cons event events ih => exact ih (h.step event)

/-! ## What a step does to the device words -/

/-- A device word was written after it was read as zero, or words were cleared. -/
def State.Delivers (s s' : State) : Prop :=
  (s'.flushed = s.flushed ∧ ∀ a, s'.device a = s.device a ∨ s'.device a = 0) ∨
    ∃ e, s'.flushed = s.flushed ++ [e] ∧ s.device e.ioLoc = 0 ∧
      s'.device = Function.update s.device e.ioLoc e.value

theorem State.Delivers.of_device {s s' : State} (hflushed : s'.flushed = s.flushed)
    (hdevice : s'.device = s.device) : s.Delivers s' :=
  Or.inl ⟨hflushed, fun a => Or.inl (congrFun hdevice a)⟩

theorem State.Inv.delivers {s : State} (h : s.Inv) (event : Event) :
    s.Delivers (s.step event) := by
  cases event with
  | write e =>
      rw [State.step]
      split_ifs <;> exact .of_device rfl rfl
  | flush =>
      rw [State.step]
      split_ifs <;> exact .of_device rfl rfl
  | writer =>
      show s.Delivers s.writerStep
      unfold State.writerStep
      cases s.writer <;> exact .of_device rfl rfl
  | flusher =>
      show s.Delivers s.flusherStep
      have hholds := h.flusher
      unfold State.flusherStep
      cases hpoint : s.flusher with
      | writeram ioLoc value =>
          rw [hpoint] at hholds
          obtain ⟨e, rest, -, rfl, hzero⟩ := hholds
          exact Or.inr ⟨_, rfl, hzero, rfl⟩
      | _ => exact .of_device rfl rfl
  | clear ioLoc =>
      refine Or.inl ⟨rfl, fun a => ?_⟩
      show Function.update s.device ioLoc 0 a = _ ∨ Function.update s.device ioLoc 0 a = 0
      by_cases heq : a = ioLoc
      · rw [heq, Function.update_self]
        exact Or.inr rfl
      · rw [Function.update_of_ne heq]
        exact Or.inl rfl

/--
The panic comes with 4095 entries in the ring.  With the caller's, 4096 entries are
undelivered, or 4095 if the flusher has written one that it has yet to pass.
-/
theorem State.Inv.panic {s : State} (h : s.Inv) {e : Entry} (hwriter : s.writer = .test e)
    (hpanic : s.writerStep.writer = .panicked e) :
    s.ring.toList.length = 4095 ∧
      ∃ undelivered, s.passed = s.flushed ++ undelivered ∧
        (undelivered.length = 4096 ∨ s.flusher = .storeHead ∧ undelivered.length = 4095) := by
  have hfull : s.ring.isFull = true := by
    rw [State.writerStep, hwriter] at hpanic
    by_contra hfull
    rw [Bool.not_eq_true] at hfull
    simp [hfull] at hpanic
  have hring : s.ring.toList.length + 1 = 4096 := (Ring.isFull_iff _).mp hfull
  have hsplit := h.split
  rw [hwriter, List.append_assoc] at hsplit
  refine ⟨by omega, s.waiting ++ [e], hsplit, ?_⟩
  rw [List.length_append, List.length_singleton, State.waiting]
  by_cases hstore : s.flusher = .storeHead
  · rw [if_pos hstore, List.length_tail]
    exact Or.inr ⟨hstore, by omega⟩
  · rw [if_neg hstore]
    exact Or.inl (by omega)

/-! ## A call of the flusher -/

/-- The events of a call of `dawn_io_flush` up to its next test, if nothing comes between. -/
def flushHead : List Event := .flush :: List.replicate 7 .flusher

theorem State.flush_delivers {s : State} {e : Entry} {rest : List Entry}
    (hring : s.ring.toList = e :: rest) (hidle : s.flusher = .idle)
    (hzero : s.device e.ioLoc = 0) :
    (s.run flushHead).flushed = s.flushed ++ [e] ∧
      (s.run flushHead).device = Function.update s.device e.ioLoc e.value ∧
      (s.run flushHead).ring.toList = rest := by
  have hempty : s.ring.isEmpty = false := by
    rw [Bool.eq_false_iff, Ne, Ring.isEmpty_iff, hring]
    exact List.cons_ne_nil e rest
  have hcons := s.ring.toList_eq_front_cons hempty
  rw [hring] at hcons
  obtain ⟨hfront, hrest⟩ := List.cons.inj hcons
  have hrun : s.run flushHead = { s with
      ring := s.ring.pop
      device := Function.update s.device e.ioLoc e.value
      flushed := s.flushed ++ [e]
      flusher := .test } := by
    simp [flushHead, State.run, List.replicate, State.step, State.flusherStep, hidle, hempty,
      ← hfront, hzero]
  rw [hrun]
  exact ⟨rfl, rfl, hrest.symm⟩

/-! ## Every interleaving -/

theorem writes_delivered (slots : ℕ → Entry) (device : Word → Word) (events : List Event) :
    let s := (State.initial slots device).run events
    s.flushed <+: s.passed ∧ (∀ event, s.Delivers (s.step event)) ∧
      (∀ e, s.writer = .test e → s.writerStep.writer = .panicked e →
        s.ring.toList.length = 4095 ∧
          ∃ undelivered, s.passed = s.flushed ++ undelivered ∧
            (undelivered.length = 4096 ∨
              s.flusher = .storeHead ∧ undelivered.length = 4095)) ∧
      ∀ e rest, s.ring.toList = e :: rest → s.flusher = .idle → s.device e.ioLoc = 0 →
        (s.run flushHead).flushed = s.flushed ++ [e] ∧
          (s.run flushHead).device = Function.update s.device e.ioLoc e.value ∧
          (s.run flushHead).ring.toList = rest := by
  intro s
  have hinv : s.Inv := (inv_initial slots device).run events
  refine ⟨⟨s.waiting ++ s.writer.pending, ?_⟩, hinv.delivers, fun e => hinv.panic,
    fun e rest => State.flush_delivers⟩
  rw [hinv.split, List.append_assoc]

end IoStack
end SubleqEmu
