import SubleqEmu.CpuControlModel

/-!
# The start and stop handshake

Between its start and its answer to a stop request a CPU owns its bank's eip
word; while the status is 4 CPU 0 does.  The invariant says who owns it at
every point, and that the owner has the next instruction.  A CPU that comes up
says that it is stopped before it has stored its eip, so the invariant only holds
while CPU 0 leaves it the time for that.
-/

namespace SubleqEmu
namespace CpuControl

variable {hasMonitor : Bool} {b b' : Bank} {access : Access} {h : History}

/-- The CPU has taken up the eip of its bank and may change it. -/
def Point.InSlice : Point → Bool
  | .running | .storeEip => true
  | _ => false

/-- A bank and its history agree. -/
structure Agrees (b : Bank) (h : History) : Prop where
  eip : b.eip = h.eip
  arrive : b.ap.point = .arrive → b.status = 0
  values : b.ap.point ≠ .arrive → b.status = 1 ∨ b.status = 2 ∨ b.status = 4
  /-- before the loop the eip is 0, and not from CPU 0 -/
  fresh : b.ap.point = .arrive ∨ b.ap.point = .clearEip →
    b.eip = 0 ∧ h.unread = false ∧ b.ap.halted = true
  /-- outside slices the eip word is the next instruction -/
  next : b.ap.point.InSlice = false → b.eip = h.next
  /-- a CPU that is not halted has it itself -/
  local_next : b.ap.halted = false → b.ap.point ≠ .loadEip →
    b.ap.eip = h.next ∧ h.unread = false
  started : b.status ≠ 4 → ∀ eip, h.started = some eip → h.next = eip
  /-- in a slice or started, the CPU has not answered a stop request -/
  active : b.ap.halted = false → b.status ≠ 4
  inSlice : b.ap.point.InSlice = true → b.ap.halted = false
  loadEip : b.ap.point = .loadEip → b.ap.halted = false
  storeStopped : b.ap.point = .storeStopped → b.status = 2
  stopRequested : b.status = 2 → h.stopRequested = true
  waiting : b.ap.point = .waiting ∨ b.ap.point = .monitored → b.ap.halted = true
  sawStopped : b.sawStopped = true → b.status = 4

theorem Agrees.initial : Agrees .initial .initial := by
  constructor <;> simp [Bank.initial, History.initial, Point.InSlice]

/-- While the status is 4 the CPU is outside its slices, and CPU 0 may write
the eip. -/
theorem Agrees.stopped (hb : Agrees b h) (hstatus : b.status = 4) :
    b.ap.halted = true ∧ b.ap.point.InSlice = false ∧ b.ap.point ≠ .loadEip ∧
      b.ap.point ≠ .storeStopped ∧ b.ap.point ≠ .arrive ∧ b.eip = h.next := by
  have hhalted : b.ap.halted = true := by
    by_contra hrunning
    exact hb.active (Bool.not_eq_true _ ▸ hrunning) hstatus
  have hslice : b.ap.point.InSlice = false := by
    by_contra hin
    have := hb.inSlice (Bool.not_eq_false _ ▸ hin)
    simp [hhalted] at this
  refine ⟨hhalted, hslice, ?_, ?_, ?_, hb.next hslice⟩
  · intro hpoint
    have := hb.loadEip hpoint
    simp [hhalted] at this
  · intro hpoint
    have := hb.storeStopped hpoint
    rw [hstatus] at this
    exact absurd this (by decide)
  · intro hpoint
    have := hb.arrive hpoint
    rw [hstatus] at this
    exact absurd this (by decide)

theorem Point.outside_of_loadsStatus {point : Point} (hload : point.LoadsStatus = true) :
    point.InSlice = false ∧ point ≠ .loadEip ∧ point ≠ .arrive ∧ point ≠ .clearEip := by
  cases point <;> simp [LoadsStatus, InSlice] at hload ⊢

/-- Outside its slices the CPU may go on to wait, or to its answer to a stop request. -/
theorem Agrees.goTo {point : Point} (hb : Agrees b h) (hload : b.ap.point.LoadsStatus = true)
    (hto : point = .storeStopped ∧ b.status = 2 ∨
      point.LoadsStatus = true ∧ (point = .poll ∨ b.ap.halted = true)) :
    Agrees { b with ap := { b.ap with point } } h := by
  obtain ⟨hslice, hout, harrive, -⟩ := Point.outside_of_loadsStatus hload
  have hvalues := hb.values harrive
  have hnext := hb.next hslice
  have hown := fun hrunning => hb.local_next hrunning hout
  rcases hto with ⟨rfl, hstatus⟩ | ⟨hload, hhalted⟩
  · exact ⟨hb.eip, by simp, fun _ => hvalues, by simp, fun _ => hnext, fun hrunning _ =>
      hown hrunning, hb.started, hb.active, by simp [Point.InSlice], by simp, fun _ => hstatus,
      hb.stopRequested, by simp, hb.sawStopped⟩
  · obtain ⟨hslice, hout, harrive, hclear⟩ := Point.outside_of_loadsStatus hload
    refine ⟨hb.eip, fun heq => absurd heq harrive, fun _ => hvalues, ?_, fun _ => hnext,
      fun hrunning _ => hown hrunning, hb.started, hb.active, ?_, fun heq => absurd heq hout, ?_,
      hb.stopRequested, ?_, hb.sawStopped⟩
    · rintro (heq | heq)
      · exact absurd heq harrive
      · exact absurd heq hclear
    · intro hin
      exact absurd (hslice.symm.trans hin) (by decide)
    · rintro rfl
      simp [Point.LoadsStatus] at hload
    · rintro (rfl | rfl) <;> simpa using hhalted

/-- An access of the CPU which leaves bank and history alone: the status it
has read. -/
theorem Agrees.loadStatus (hb : Agrees b h) (hload : b.ap.point.LoadsStatus = true) :
    Agrees { b with ap := b.ap.loadedStatus hasMonitor b.status } h := by
  obtain ⟨hslice, hout, harrive, -⟩ := Point.outside_of_loadsStatus hload
  cases hpoint : b.ap.point with
  | poll =>
      simp only [Ap.loadedStatus, hpoint]
      split_ifs with hone hhalted htwo hfour
      · -- started: the eip is read next
        have hne : b.status ≠ 4 := by
          rw [hone]
          decide
        exact ⟨hb.eip, by simp, fun _ => Or.inl hone, by simp, fun _ => hb.next hslice, by simp,
          hb.started, fun _ => hne, by simp [Point.InSlice], fun _ => rfl, by simp,
          hb.stopRequested, by simp, hb.sawStopped⟩
      · -- another slice
        have hrunning := Bool.eq_false_iff.mpr hhalted
        have hown := hb.local_next hrunning hout
        exact ⟨hb.eip, by simp, fun _ => Or.inl hone, by simp, by simp [Point.InSlice],
          fun _ _ => hown, hb.started, hb.active, fun _ => hrunning, by simp, by simp,
          hb.stopRequested, by simp, hb.sawStopped⟩
      · exact hb.goTo hload (Or.inl ⟨rfl, htwo⟩)
      · obtain ⟨hhalted, -⟩ := hb.stopped hfour
        have hwaits : Agrees { b with ap := { b.ap with point := .waiting } } h :=
          hb.goTo hload (Or.inr ⟨rfl, Or.inr hhalted⟩)
        simpa only [hhalted] using hwaits
      · exact hb
  | waiting =>
      have hhalted := hb.waiting (Or.inl hpoint)
      simp only [Ap.loadedStatus, hpoint]
      split_ifs
      · exact hb.goTo hload (Or.inr ⟨rfl, Or.inr hhalted⟩)
      · exact hb
      · exact hb.goTo hload (Or.inr ⟨rfl, Or.inl rfl⟩)
  | monitored =>
      have hhalted := hb.waiting (Or.inr hpoint)
      simp only [Ap.loadedStatus, hpoint]
      exact hb.goTo hload (Or.inr ⟨rfl, Or.inr hhalted⟩)
  | _ => simp [hpoint, Point.LoadsStatus] at hload

theorem Step.agrees (hstep : Step hasMonitor b access b') (hwaits : Waits b access)
    (hb : Agrees b h) : Agrees b' (h.after access) := by
  cases hstep with
  | arrive hpoint =>
      have hnext := hb.next (by rw [hpoint]; rfl)
      obtain ⟨hzero, hunread, hhalted⟩ := hb.fresh (Or.inl hpoint)
      exact {
        eip := hb.eip
        arrive := by simp
        values := fun _ => Or.inr (Or.inr rfl)
        fresh := fun _ => ⟨hzero, hunread, hhalted⟩
        next := fun _ => hnext
        local_next := by simp [hhalted]
        started := by simp
        active := by simp [hhalted]
        inSlice := by simp [Point.InSlice]
        loadEip := by simp
        storeStopped := by simp
        stopRequested := fun htwo => absurd (show (4 : Word) = 2 from htwo) (by decide)
        waiting := by simp
        sawStopped := fun _ => rfl }
  | clearEip hpoint =>
      have hnext := hb.next (by rw [hpoint]; rfl)
      have hvalues := hb.values (by rw [hpoint]; decide)
      obtain ⟨hzero, -, hhalted⟩ := hb.fresh (Or.inr hpoint)
      exact {
        eip := rfl
        arrive := by simp
        values := fun _ => hvalues
        fresh := by simp
        next := fun _ => hzero.symm.trans hnext
        local_next := by simp [hhalted]
        started := hb.started
        active := hb.active
        inSlice := by simp [Point.InSlice]
        loadEip := by simp
        storeStopped := by simp
        stopRequested := hb.stopRequested
        waiting := by simp
        sawStopped := hb.sawStopped }
  | loadStatus hload => exact hb.loadStatus hload
  | loadEip hpoint =>
      have hhalted := hb.loadEip hpoint
      have hnext := hb.next (by rw [hpoint]; rfl)
      have hvalues := hb.values (by rw [hpoint]; decide)
      have hactive := hb.active hhalted
      exact ⟨hb.eip, by simp, fun _ => hvalues, by simp, by simp [Point.InSlice],
        fun _ _ => ⟨hnext, rfl⟩, hb.started, fun _ => hactive, fun _ => hhalted,
        by simp, by simp, hb.stopRequested, by simp, hb.sawStopped⟩
  | exec hpoint next =>
      have hhalted := hb.inSlice (by rw [hpoint]; rfl)
      obtain ⟨-, hunread⟩ := hb.local_next hhalted (by rw [hpoint]; decide)
      exact ⟨hb.eip, hb.arrive, hb.values, hb.fresh, by simp [hpoint, Point.InSlice],
        fun _ _ => ⟨rfl, hunread⟩, by simp [History.after], hb.active, hb.inSlice,
        hb.loadEip, hb.storeStopped, hb.stopRequested, hb.waiting, hb.sawStopped⟩
  | leave hpoint =>
      have hhalted := hb.inSlice (by rw [hpoint]; rfl)
      have hown := hb.local_next hhalted (by rw [hpoint]; decide)
      have hvalues := hb.values (by rw [hpoint]; decide)
      exact ⟨hb.eip, by simp, fun _ => hvalues, by simp, by simp [Point.InSlice],
        fun _ _ => hown, hb.started, hb.active, fun _ => hhalted, by simp, by simp,
        hb.stopRequested, by simp, hb.sawStopped⟩
  | storeEip hpoint =>
      have hhalted := hb.inSlice (by rw [hpoint]; rfl)
      have hown := hb.local_next hhalted (by rw [hpoint]; decide)
      have hvalues := hb.values (by rw [hpoint]; decide)
      exact ⟨rfl, by simp, fun _ => hvalues, by simp, fun _ => hown.1, fun _ _ => hown,
        hb.started, hb.active, by simp [Point.InSlice], by simp, by simp, hb.stopRequested,
        by simp, hb.sawStopped⟩
  | storeStatus hpoint =>
      have hnext := hb.next (by rw [hpoint]; rfl)
      have hstatus := hb.storeStopped hpoint
      refine ⟨hb.eip, by simp, fun _ => Or.inr (Or.inr rfl), by simp, fun _ => hnext, by simp,
        by simp, by simp, by simp [Point.InSlice], by simp, by simp, ?_, by simp, fun _ => rfl⟩
      intro htwo
      exact absurd (show (4 : Word) = 2 from htwo) (by decide)
  | cpu0Load =>
      exact ⟨hb.eip, hb.arrive, hb.values, hb.fresh, hb.next, hb.local_next, hb.started,
        hb.active, hb.inSlice, hb.loadEip, hb.storeStopped, hb.stopRequested, hb.waiting,
        by simp⟩
  | cpu0Stop hone =>
      have hne : b.status ≠ 4 := by
        rw [hone]
        decide
      have hin : b.ap.point ≠ .arrive := by
        intro hpoint
        have hzero := hb.arrive hpoint
        rw [hone] at hzero
        exact absurd hzero (by decide)
      have hstarted := hb.started hne
      exact ⟨hb.eip, fun hpoint => absurd hpoint hin, fun _ => Or.inr (Or.inl rfl), hb.fresh,
        hb.next, hb.local_next, by simpa [History.after] using hstarted, by simp, hb.inSlice,
        hb.loadEip, fun _ => rfl, fun _ => rfl, hb.waiting, by simp⟩
  | cpu0StoreEip hsaw value =>
      have hstatus := hb.sawStopped hsaw
      obtain ⟨hhalted, -, -, -, hin, -⟩ := hb.stopped hstatus
      have hout := hwaits value rfl
      exact ⟨rfl, hb.arrive, hb.values, fun hpoint => absurd hpoint (by simp [hin, hout]),
        fun _ => rfl, by simp [hhalted], by simp [hstatus], hb.active, hb.inSlice, hb.loadEip,
        hb.storeStopped, hb.stopRequested, hb.waiting, hb.sawStopped⟩
  | cpu0Start hsaw =>
      have hstatus := hb.sawStopped hsaw
      obtain ⟨hhalted, -, hload, hstore, hin, hnext⟩ := hb.stopped hstatus
      refine ⟨hb.eip, fun hpoint => absurd hpoint hin, fun _ => Or.inl rfl, hb.fresh, hb.next,
        hb.local_next, ?_, by simp [hhalted], hb.inSlice, hb.loadEip,
        fun hpoint => absurd hpoint hstore, ?_, hb.waiting, by simp⟩
      · rintro - eip heip
        have hleft : h.eip = eip := by
          simpa [History.after] using heip
        exact hnext.symm.trans (hb.eip.trans hleft)
      · intro htwo
        exact absurd (show (1 : Word) = 2 from htwo) (by decide)

variable {ι : Type} [DecidableEq ι]

theorem Run.agrees {trace : List (ι × Access)} {banks : ι → Bank}
    (hrun : Run hasMonitor Waits trace banks) (cpu : ι) :
    Agrees (banks cpu) (history cpu trace) := by
  induction hrun with
  | nil => exact .initial
  | @step trace banks banks' other access hrun hwaits hstep hother ih =>
      by_cases heq : other = cpu
      · subst heq
        simp only [history, if_true]
        exact hstep.agrees hwaits ih
      · simp only [history, if_neg heq]
        rw [hother cpu (Ne.symm heq)]
        exact ih

/-! ## What the handshake promises -/

/-- An access keeps the handshake. -/
structure Handshake (b : Bank) (h : History) (access : Access) : Prop where
  /-- when CPU 0 reads 4, the CPU is in no slice and the eip word is its next instruction -/
  stopped : access = .cpu0LoadStatus 4 →
    b.ap.halted = true ∧ b.ap.point.InSlice = false ∧ b.ap.point ≠ .loadEip ∧ b.eip = h.next
  /-- each instruction is the next one, so the first after a start is at the eip CPU 0 left -/
  exec : ∀ addr next, access = .exec addr next →
    addr = h.next ∧ ∀ eip, h.started = some eip → addr = eip
  /-- the CPU writes the eip only after it has read what CPU 0 wrote there -/
  storeEip : ∀ value, access = .storeEip value → h.unread = false
  /-- the CPU overwrites no start, and in its loop it only answers stop requests -/
  storeStatus : ∀ value, access = .storeStatus value → value = 4 ∧ b.status ≠ 1 ∧
    (b.ap.point ≠ .arrive → b.status = 2 ∧ h.stopRequested = true)

theorem Agrees.keeps (hb : Agrees b h) (hstep : Step hasMonitor b access b') :
    Handshake b h access := by
  refine ⟨?_, ?_, ?_, ?_⟩
  · intro haccess
    have hstatus : b.status = 4 := by
      cases hstep with
      | cpu0Load => exact Access.cpu0LoadStatus.inj haccess
      | _ => contradiction
    obtain ⟨hhalted, hslice, hload, -, -, hnext⟩ := hb.stopped hstatus
    exact ⟨hhalted, hslice, hload, hnext⟩
  · rintro addr next rfl
    cases hstep with
    | exec hpoint =>
        have hhalted := hb.inSlice (by rw [hpoint]; rfl)
        obtain ⟨hown, -⟩ := hb.local_next hhalted (by rw [hpoint]; decide)
        refine ⟨hown, fun eip heip => ?_⟩
        rw [hown]
        exact hb.started (hb.active hhalted) eip heip
  · rintro value rfl
    cases hstep with
    | clearEip hpoint => exact (hb.fresh (Or.inr hpoint)).2.1
    | storeEip hpoint =>
        have hhalted := hb.inSlice (by rw [hpoint]; rfl)
        exact (hb.local_next hhalted (by rw [hpoint]; decide)).2
  · rintro value rfl
    cases hstep with
    | arrive hpoint =>
        have hstatus := hb.arrive hpoint
        exact ⟨rfl, by rw [hstatus]; decide, fun hin => absurd hpoint hin⟩
    | storeStatus hpoint =>
        have hstatus := hb.storeStopped hpoint
        exact ⟨rfl, by rw [hstatus]; decide, fun _ => ⟨hstatus, hb.stopRequested hstatus⟩⟩

/-- The next thing a CPU does after an eip was written too early is to overwrite it. -/
theorem Step.overwrites (hstep : Step hasMonitor b access b') (hwaits : ¬ Waits b access) :
    b'.ap.point = .clearEip ∧ (h.after access).unread = true := by
  simp only [Waits, not_forall, not_not] at hwaits
  obtain ⟨value, rfl, hpoint⟩ := hwaits
  cases hstep with
  | cpu0StoreEip => exact ⟨hpoint, rfl⟩

/-- In every run of the CPUs and CPU 0 in which CPU 0 writes no eip to a bank between the
two first stores of its CPU, each access keeps the handshake.  Where it does, the CPU's next
access does not. -/
theorem handshake :
    (∀ {trace : List (ι × Access)} {banks : ι → Bank}, Run hasMonitor Waits trace banks →
      ∀ (cpu : ι) {access : Access} {b' : Bank}, Step hasMonitor (banks cpu) access b' →
        Handshake (banks cpu) (history cpu trace) access) ∧
      ∀ {b b' : Bank} {h : History} {access : Access}, Step hasMonitor b access b' →
        ¬ Waits b access → ∃ b'', Step hasMonitor b' (.storeEip 0) b'' ∧
          ¬ Handshake b' (h.after access) (.storeEip 0) := by
  constructor
  · intro trace banks hrun cpu access b' hstep
    exact (hrun.agrees cpu).keeps hstep
  · intro b b' h access hstep hwaits
    obtain ⟨hpoint, hunread⟩ := hstep.overwrites hwaits
    refine ⟨_, .clearEip hpoint, fun hkept => ?_⟩
    exact absurd (hunread.symm.trans (hkept.storeEip 0 rfl)) (by decide)

/-- The CPU comes up, and CPU 0 reads 4 and starts it at `0x100`. -/
def startTrace : List (Unit × Access) :=
  [((), .loadEip 0x100), ((), .loadStatus 1), ((), .cpu0StoreStatus 1),
    ((), .cpu0StoreEip 0x100), ((), .cpu0LoadStatus 4), ((), .storeEip 0),
    ((), .storeStatus 4)]

theorem run_startTrace : Run false Waits startTrace
    fun _ => ⟨1, 0x100, ⟨.running, false, 0x100⟩, false⟩ := by
  refine .step (?_ : Run false Waits _ fun _ => ⟨1, 0x100, ⟨.loadEip, false, 0⟩, false⟩)
    nofun (.loadEip rfl) (fun _ h => absurd rfl h)
  refine .step (?_ : Run false Waits _ fun _ => ⟨1, 0x100, ⟨.poll, true, 0⟩, false⟩)
    nofun (.loadStatus rfl) (fun _ h => absurd rfl h)
  refine .step (?_ : Run false Waits _ fun _ => ⟨4, 0x100, ⟨.poll, true, 0⟩, true⟩)
    nofun (.cpu0Start rfl) (fun _ h => absurd rfl h)
  refine .step (?_ : Run false Waits _ fun _ => ⟨4, 0, ⟨.poll, true, 0⟩, true⟩)
    (fun _ _ => by decide) (.cpu0StoreEip rfl 0x100) (fun _ h => absurd rfl h)
  refine .step (?_ : Run false Waits _ fun _ => ⟨4, 0, ⟨.poll, true, 0⟩, false⟩)
    nofun .cpu0Load (fun _ h => absurd rfl h)
  refine .step (?_ : Run false Waits _ fun _ => ⟨4, 0, ⟨.clearEip, true, 0⟩, false⟩)
    nofun (.clearEip rfl) (fun _ h => absurd rfl h)
  exact .step .nil nofun (.arrive rfl) (fun _ h => absurd rfl h)

theorem handshake_startTrace :
    Run false Waits startTrace (fun _ => ⟨1, 0x100, ⟨.running, false, 0x100⟩, false⟩) ∧
      (0x100 : Word) = (history () startTrace).next ∧
        ∀ eip, (history () startTrace).started = some eip → 0x100 = eip := by
  have hkept := handshake.1 run_startTrace () (.exec rfl 0x118)
  exact ⟨run_startTrace, hkept.exec 0x100 0x118 rfl⟩

/-- CPU 0 reads 4, writes `0x100` and 1 before the CPU stores its first eip. -/
def lostTrace : List (Unit × Access) :=
  [((), .loadEip 0), ((), .loadStatus 1), ((), .storeEip 0), ((), .cpu0StoreStatus 1),
    ((), .cpu0StoreEip 0x100), ((), .cpu0LoadStatus 4), ((), .storeStatus 4)]

theorem run_lostTrace : Run false Unrestricted lostTrace
    fun _ => ⟨1, 0, ⟨.running, false, 0⟩, false⟩ := by
  refine .step (?_ : Run false Unrestricted _ fun _ => ⟨1, 0, ⟨.loadEip, false, 0⟩, false⟩)
    trivial (.loadEip rfl) (fun _ h => absurd rfl h)
  refine .step (?_ : Run false Unrestricted _ fun _ => ⟨1, 0, ⟨.poll, true, 0⟩, false⟩)
    trivial (.loadStatus rfl) (fun _ h => absurd rfl h)
  refine .step (?_ : Run false Unrestricted _ fun _ => ⟨1, 0x100, ⟨.clearEip, true, 0⟩, false⟩)
    trivial (.clearEip rfl) (fun _ h => absurd rfl h)
  refine .step (?_ : Run false Unrestricted _ fun _ => ⟨4, 0x100, ⟨.clearEip, true, 0⟩, true⟩)
    trivial (.cpu0Start rfl) (fun _ h => absurd rfl h)
  refine .step (?_ : Run false Unrestricted _ fun _ => ⟨4, 0, ⟨.clearEip, true, 0⟩, true⟩)
    trivial (.cpu0StoreEip rfl 0x100) (fun _ h => absurd rfl h)
  refine .step (?_ : Run false Unrestricted _ fun _ => ⟨4, 0, ⟨.clearEip, true, 0⟩, false⟩)
    trivial .cpu0Load (fun _ h => absurd rfl h)
  exact .step .nil trivial (.arrive rfl) (fun _ h => absurd rfl h)

/-- The CPU, started at `0x100`, begins at 0. -/
theorem not_handshake_lostTrace :
    ¬ ∀ {trace : List (Unit × Access)} {banks : Unit → Bank},
      Run false Unrestricted trace banks → ∀ {access : Access} {b' : Bank},
        Step false (banks ()) access b' → Handshake (banks ()) (history () trace) access := by
  intro hall
  have hkept := hall run_lostTrace (.exec rfl 24)
  have hstart := (hkept.exec 0 24 rfl).2 0x100 rfl
  exact absurd hstart (by decide)

end CpuControl
end SubleqEmu
