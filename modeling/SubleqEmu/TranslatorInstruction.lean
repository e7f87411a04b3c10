import SubleqEmu.TranslatorOperation
import SubleqEmu.TranslatorSpanned
import SubleqEmu.WriteBuffer

/-!
# Instructions

An instruction from its check to its branch: it leaves before it, or after it through
its branch, or goes on, with the memory of the interpreter each time.
-/

namespace SubleqEmu
namespace Translator

open ByteMemory Subleq Emitter Machine WriteBuffer

variable {maps : Maps} {m : Memory} {P : Set Reg} {J J' J₁ : Cache} {M M' : State}
  {p : Word} {r : Reg} {v : CVal} {src : Source} {fa fb fc : Field} {rb : Option Reg}
  {q : Result × Option Reg} {i : ℕ}

/-! ## Up to the store -/

/-- `translate_insn` up to the subtraction. -/
def prepare (src : Source) (i : ℕ) (p : Word) :
    T (Field × Field × Option Reg × Result × Option Reg) := do
  modifyState (·.unpinAll)
  let fa ← field src p
  let fb ← field src (p + 8)
  let fc ← field src (p + 16)
  let rb ← checkTarget src i p fb
  let q ← result p fa fb fc rb
  return (fb, fc, rb, q)

/-- And from there on. -/
def finish (i : ℕ) (p : Word) (fb fc : Field) (rb : Option Reg) (q : Result × Option Reg) :
    T Bool := do
  modifyState fun J =>
    { J with flagsLive := (fc.dyn ∨ fc.value ≠ p + 24) ∧ q.1.taken = none }
  let spanned ← storeResult fb.value rb q.1
  modifyState fun J => { J with flagsLive := false }
  let ended ← branchTo i p fc q.2 q.1.taken
  updateAfter fb.value ended spanned
  return ended

theorem translateInsn_eq (src : Source) (i : ℕ) (p : Word) :
    translateInsn src i p =
      prepare src i p >>= fun w => finish i p w.1 w.2.1 w.2.2.1 w.2.2.2 := by
  simp only [translateInsn, prepare, finish, bind_assoc, pure_bind_eq]

theorem Keeps.entry_reg {a : Word} (h : Keeps m P J M J' M') (hr : r ∈ P)
    (he : Entry J a (.reg r)) : Entry J' a (.reg r) :=
  he.imp (fun haddr => (h.addr r hr).trans haddr) fun hname => (h.names r hr a false).mpr hname

theorem Keeps.spoils {a : Word} (h : Keeps m P J M J' M') (huse : ∀ s, Uses fc.cached s → s ∈ P) :
    Spoils J' a fa fb fc r ↔ Spoils J a fa fb fc r := by
  constructor
  · intro hs
    have hr := huse r (Or.inl hs.creg)
    exact ⟨hs.dyn, hs.creg, hs.target, (h.addr r hr).symm.trans hs.addr,
      (h.aliased hr).symm.trans hs.aliased, hs.other⟩
  · intro hs
    have hr := huse r (Or.inl hs.creg)
    exact ⟨hs.dyn, hs.creg, hs.target, (h.addr r hr).trans hs.addr,
      (h.aliased hr).trans hs.aliased, hs.other⟩

theorem SameEntries.spoils {a : Word} (h : SameEntries J J') :
    Spoils J' a fa fb fc r ↔ Spoils J a fa fb fc r := by
  have haliased : J'.aliased r = J.aliased r := by
    rw [Cache.aliased, h.aliases, Cache.aliased]
  constructor
  · exact fun hs => ⟨hs.dyn, hs.creg, hs.target, (h.regs r).symm.trans hs.addr,
      haliased.symm.trans hs.aliased, hs.other⟩
  · exact fun hs => ⟨hs.dyn, hs.creg, hs.target, (h.regs r).trans hs.addr,
      haliased.trans hs.aliased, hs.other⟩

/-- The registers of the fields. -/
def fieldRegs (src : Source) (J : Cache) (p : Word) : Set Reg :=
  {s | Uses (fieldOf src J p).cached s ∨ Uses (fieldOf src J (p + 8)).cached s ∨
    Uses (fieldOf src J (p + 16)).cached s}

theorem fields_eq (src : Source) (p : Word) (J : Cache) :
    ∃ J', SameEntries J J' ∧ J'.pend = J.pend ∧ J'.flagsLive = J.flagsLive ∧
      (∀ s ∈ fieldRegs src J p, (J'.regs s).pinned = true) ∧
      ∀ {α : Type} (k : Field → Field → Field → T α), (do
        modifyState Cache.unpinAll
        let fa ← field src p
        let fb ← field src (p + 8)
        let fc ← field src (p + 16)
        k fa fb fc) J =
          k (fieldOf src J p) (fieldOf src J (p + 8)) (fieldOf src J (p + 16)) J' := by
  have hsame₀ : SameEntries J J.unpinAll := sameEntries_unpinAll
  obtain ⟨J₁, hsame₁, hpend₁, hlive₁, hpin₁, heq₁⟩ := field_eq src p J.unpinAll
  obtain ⟨J₂, hsame₂, hpend₂, hlive₂, hpin₂, heq₂⟩ := field_eq src (p + 8) J₁
  obtain ⟨J₃, hsame₃, hpend₃, hlive₃, hpin₃, heq₃⟩ := field_eq src (p + 16) J₂
  have hsame₀₁ := hsame₀.trans hsame₁
  have hsame₀₂ := hsame₀₁.trans hsame₂
  rw [fieldOf_sameEntries hsame₀] at heq₁ hpin₁
  rw [fieldOf_sameEntries hsame₀₁] at heq₂ hpin₂
  rw [fieldOf_sameEntries hsame₀₂] at heq₃ hpin₃
  refine ⟨J₃, hsame₀₂.trans hsame₃, hpend₃.trans (hpend₂.trans hpend₁),
    hlive₃.trans (hlive₂.trans hlive₁), ?_, fun k => ?_⟩
  · rintro s (hs | hs | hs)
    · exact hpin₃ s (Or.inl (hpin₂ s (Or.inl (hpin₁ s (Or.inr hs)))))
    · exact hpin₃ s (Or.inl (hpin₂ s (Or.inr hs)))
    · exact hpin₃ s (Or.inr hs)
  · rw [modifyState_bind, bind_of_quiet heq₁, bind_of_quiet heq₂, bind_of_quiet heq₃]

/-- The static fields of an instruction are as they were read. -/
def Baked (src : Source) (m : Memory) (p : Word) : Prop :=
  ∀ q ∈ [p, p + 8, p + 16], src.dynamic q = false → src.raw q = read m q

/-- The check has passed, and the subtraction is done. -/
structure Prepared (src : Source) (maps : Maps) (m : Memory) (p : Word) (J : Cache) (M : State)
    (fb fc : Field) (rb : Option Reg) (q : Result × Option Reg) (J' : Cache) (M' : State) :
    Prop where
  fb_eq : fb = fieldOf src J (p + 8)
  fc_eq : fc = fieldOf src J (p + 16)
  value : fb.dyn = false → fb.value = read m (p + 8)
  valueC : fc.dyn = false → fc.value = read m (p + 16)
  target : Holds rb (read m (p + 8)) J' M'
  isSome : rb.isSome = fb.dyn
  clear : Clear maps src.size (read m (p + 8))
  computed : Computed m fb.dyn fb.value (difference m p) ∅ J M J' M'
  resulted : Resulted m p (fieldOf src J p) fb fc J q J' M'

theorem prepare_leaves (h : Sound m J M) (hc : Current m J M) (hlive : J.flagsLive = false)
    (hm : Marked maps) (hp : p.toNat % 8 = 0) (hbaked : Baked src m p)
    (hb : src.size.Holds (read m (p + 8))) (hhoist : ∀ w ∈ src.hoist, maps.static w = false)
    (i : ℕ) :
    Leaves maps J M (prepare src i p)
      (fun w J' M' => Prepared src maps m p J M w.1 w.2.1 w.2.2.1 w.2.2.2 J' M')
      (LeavesBefore maps i M.init (M.stores ++ held m J)) := by
  obtain ⟨J₁, hsame, hpend, hlive₁, hpin, heq⟩ := fields_eq src p J
  have hp₈ : (p + 8).toNat % 8 = 0 := by bv_omega
  have hp₁₆ : (p + 16).toNat % 8 = 0 := by bv_omega
  have hne : p ≠ p + 8 := by bv_omega
  have hs₁ := hsame.sound hpend h
  have hheld : held m J₁ = held m J := by simp only [held, hpend]
  have hc₁ : Current m J₁ M := by rwa [Current, hheld]
  have hready : Ready m (fieldRegs src J p) J₁ M := ⟨hs₁, hpin⟩
  have hknown : ∀ a ∈ [p, p + 8, p + 16],
      (∀ s, Uses (fieldOf src J a).cached s → s ∈ fieldRegs src J p) →
      FieldKnown (fieldOf src J a) a (read m a) J₁ M := by
    intro a ha huse
    have hknown := @fieldOf_known _ _ _ a src hs₁ (hbaked a ha)
    rw [fieldOf_sameEntries hsame] at hknown
    exact hknown fun s hs => hpin s (huse s hs)
  have hnot : ∀ a, (fieldOf src J a).dyn = true → (fieldOf src J a).cached = .none →
      ∀ s ∈ fieldRegs src J p, NotFor J₁ a s := by
    intro a hdyn hcached s _
    refine notFor_of_lookup hs₁ ?_
    rw [hsame.lookup, lookup_of_fieldOf hdyn, hcached]
  have hrest : Leaves maps J₁ M (do
      let rb ← checkTarget src i p (fieldOf src J (p + 8))
      let q ← result p (fieldOf src J p) (fieldOf src J (p + 8)) (fieldOf src J (p + 16)) rb
      return (fieldOf src J (p + 8), fieldOf src J (p + 16), rb, q))
      (fun w J' M' => Prepared src maps m p J M w.1 w.2.1 w.2.2.1 w.2.2.2 J' M')
      (LeavesBefore maps i M.init (M.stores ++ held m J)) := by
    have hb' := hknown (p + 8) (by simp) fun s hs => Or.inr (Or.inl hs)
    have hc' := hknown (p + 16) (by simp) fun s hs => Or.inr (Or.inr hs)
    refine .bind (Leaves.imp (checkTarget_leaves hready hc₁ (hlive₁.trans hlive) hm hp₈ hb' rfl
      (fun s hs => Or.inr (Or.inl hs)) (hnot (p + 8)) hb hhoist i) (fun _ _ _ => id)
      fun e M' hE => by rwa [← hheld]) ?_
    rintro rb J₂ M₂ ⟨hkeep, htarget, hclear⟩
    have hf : FieldsKnown m (withReg (fieldRegs src J p) rb) p (fieldOf src J p)
        (fieldOf src J (p + 8)) (fieldOf src J (p + 16)) rb J₂ M₂ := {
      a := hkeep.fieldKnown (hknown p (by simp) fun s hs => Or.inl hs) fun s hs => Or.inl hs
      notFor := fun hdyn hcached s hs => by
        rcases hs with hs | hs
        · exact hkeep.notFor hs (hnot p hdyn hcached s hs)
        · exact htarget.notFor p hne (hnot p hdyn hcached) s hs
      value := hb'.value
      target := htarget.holds
      isSome := htarget.isSome
      mem := fun r hr => Or.inr hr
      c := hkeep.fieldKnown hc' fun s hs => Or.inr (Or.inr hs)
      uses := fun s hs => Or.inl (Or.inr (Or.inr hs))
      entry := fun r hr => by
        have hdyn := @fieldOf_dyn J (p + 16) src (by rw [hr]; simp)
        have hlookup := (lookup_of_fieldOf hdyn).trans hr
        have hentry := lookup_entry (J := J) (a := p + 16) (by rw [hlookup]; simp)
        rw [hlookup] at hentry
        exact hkeep.entry_reg (Or.inr (Or.inr (Or.inl hr))) (hsame.entry.mpr hentry) }
    refine .of_runs (Runs.bind (result_computes (hkeep.ready.withReg htarget.holds)
      (hkeep.current hc₁) (hkeep.live.trans (hlive₁.trans hlive)) hp hp₁₆ hf) ?_)
    rintro q J₃ M₃ ⟨hcomp, hres⟩
    refine .pure ⟨rfl, rfl, hb'.value, hc'.value, ?_, htarget.isSome, hclear, ?_, ?_⟩
    · exact ⟨fun r hr => (hcomp.reg r hr).trans (htarget.holds.reg r hr), hcomp.pinned⟩
    · have hcomp₁ := (hkeep.mono (Set.empty_subset _)).trans_computed
        (hcomp.mono (Set.empty_subset _))
      exact {
        sound := hcomp₁.sound
        pinned := fun _ hs => hs.elim
        reg := fun _ hs => hs.elim
        live := hcomp₁.live.trans hlive₁
        pend := by rw [← hpend]; exact hcomp₁.pend
        init := hcomp₁.init
        stores := by rw [← hheld]; exact hcomp₁.stores }
    · have hspoils : ∀ r, Spoils J₂ (p + 16) (fieldOf src J p) (fieldOf src J (p + 8))
          (fieldOf src J (p + 16)) r ↔ Spoils J (p + 16) (fieldOf src J p)
          (fieldOf src J (p + 8)) (fieldOf src J (p + 16)) r := fun r =>
        (hkeep.spoils fun s hs => Or.inr (Or.inr hs)).trans hsame.spoils
      exact {
        hres with
        creg := fun r hr hs => hres.creg r hr ((hspoils r).not.mpr hs)
        spoils := fun r hs => hres.spoils r ((hspoils r).mpr hs) }
  intro x J' c hx
  rw [prepare, heq] at hx
  exact hrest hx

/-! ## The store and the branch -/

/-- The store of the instruction at `p`. -/
def storeOf (m : Memory) (p : Word) (idle : Bool) : Store Word Word :=
  ⟨read m (p + 8), difference m p, idle⟩

/-- A store that is not held back. -/
def direct (fb : Field) : Bool := fb.dyn || !cacheable fb.value

theorem Orders.joins {b z : Word} {u pendable : Bool} (h : Orders m b z u pendable J M J' M') :
    Joins ⟨b, z, u⟩ (pendable = true) (M.stores ++ held m J)
      (M'.stores ++ held (write m b z) J') := by
  unfold Orders at h
  split_ifs at h with hu hp
  · rw [h]
    exact .idle hu
  · obtain ⟨hpend, ⟨-, hstores⟩ | ⟨hpend₀, hstores⟩⟩ := h
    · simp only [held, hpend, read_write_self] at hstores ⊢
      rw [hstores]
      exact .added
    · simp only [held, hpend, hpend₀, read_write_self]
      rw [hstores]
      exact .replaced hp
  · obtain ⟨hpend, hstores⟩ := h
    simp only [held, hpend, hstores, List.append_nil]
    exact .added

/-- What an instruction has done to memory. -/
structure Executed (m : Memory) (p : Word) (u d : Bool) (J : Cache) (M : State) (J' : Cache)
    (M' : State) : Prop where
  init : M'.init = M.init
  joins : Joins (storeOf m p u) (d = false) (M.stores ++ held m J)
    (M'.stores ++ held (after m p) J')
  direct : u = false → d = true → J'.pend = none

theorem Stored.executed {u pendable d : Bool} {J₀ : Cache} {M₀ : State}
    (h : Stored m (read m (p + 8)) (difference m p) u pendable P J M J' M')
    (hinit : M.init = M₀.init) (hstores : M.stores ++ held m J = M₀.stores ++ held m J₀)
    (hd : pendable = !d) : Executed m p u d J₀ M₀ J' M' where
  init := h.init.trans hinit
  joins := by
    have hjoins := h.stores.joins
    rw [hd, hstores, Bool.not_eq_true'] at hjoins
    exact hjoins
  direct hu hd' := by
    have horders := h.stores
    rw [Orders, if_neg (by simp [hu]), hd, hd', if_neg (by simp)] at horders
    exact horders.1

/-- An exit through the branch, after the instruction. -/
structure LeavesAfter (maps : Maps) (i : ℕ) (m : Memory) (p : Word) (u d : Bool)
    (fa fb fc : Field) (J : Cache) (M : State) (s : Stub) (M' : State) : Prop where
  idx : s.idx = i
  dyn : s.dyn = fc.dyn
  zero : u = true → operandOf m p = 0
  taken : (operandOf m (p + 8)).sle (operandOf m p) = true
  target : s.dyn = false → s.target = read m (p + 16)
  creg : s.dyn = true → ∃ r, s.creg = some r ∧
    ((∃ t, Spoils J (p + 16) fa fb fc t) ∧ M'.reg r = difference m p ∨
      ¬ (∃ t, Spoils J (p + 16) fa fb fc t) ∧ M'.reg r = read m (p + 16))
  settles : ∀ keep, ∃ l, Joins (storeOf m p u) (d = false) (M.stores ++ held m J) l ∧
    Settles maps s.pend keep M.init l M' ∧ (u = false → d = true → M'.stores = l)

theorem Prepared.store {f : Bool} (h : Prepared src maps m p J M fb fc rb q J₁ M') :
    Runs maps { J₁ with flagsLive := f } M' (storeResult fb.value rb q.1) fun o J₂ M₂ =>
      Executed m p q.1.unchanged (direct fb) J M J₂ M₂ ∧ (f = true → M₂.flags = M'.flags) ∧
      (∀ r, q.2 = some r → M₂.reg r = M'.reg r) ∧
      (o = none → Sound (after m p) J₂ M₂) ∧
      ∀ w, o = some w → fb.value = read m (p + 8) ∧ Sound m J₂ M₂ ∧
        Denotes M₂ w (difference m p) ∧ spansCacheable (read m (p + 8)) ∧ J₂.pend = none := by
  have hnone : rb = none ↔ fb.dyn = false := by
    rw [← h.isSome]
    cases rb <;> simp
  have hres := h.resulted
  have hsame : SameEntries J₁ { J₁ with flagsLive := f } := ⟨fun _ => rfl, rfl, rfl⟩
  have hsound : Sound m { J₁ with flagsLive := f } M' ∨
      rb = none ∧ cacheable (read m (p + 8)) = true ∧
        Sound (after m p) { J₁ with flagsLive := f } M' := by
    rcases h.computed.sound with hs | ⟨hdyn, hcache, hs⟩
    · exact Or.inl (hsame.sound rfl hs)
    · rw [h.value hdyn] at hcache hs
      exact Or.inr ⟨hnone.mpr hdyn, hcache, hsame.sound rfl hs⟩
  refine (storeResult_runs (P := {s | rb = some s ∨ q.2 = some s ∨ Uses q.1.value s})
    (b := read m (p + 8)) (z := difference m p) (m := m) ?_ (fun s hs => Or.inr (Or.inr hs))
    hres.value.denotes ?_ ?_ ?_ ?_ ?_).imp ?_
  · rintro s (hs | hs | hs)
    · exact h.target.pinned s hs
    · exact hres.pinned s hs
    · exact hres.value.pinned s hs
  · intro hu
    obtain ⟨hzero, hconst⟩ := hres.unchanged hu
    exact ⟨by rw [difference, hzero]; exact BitVec.sub_zero _, hconst⟩
  · exact ⟨fun hn => h.value (hnone.mp hn), h.target.reg, fun r hr => Or.inl hr⟩
  · intro _ hcache
    rcases hsound with hs | ⟨-, -, hs⟩
    · exact hs.but _
    · exact (hs.but _).of_write hcache
  · intro hn _ hu hpend
    rcases hsound with hs | -
    · exact Or.inl hs
    · rcases hres.held hu with hs | hs | hs
      · exact Or.inl (hsame.sound rfl hs)
      · exact Or.inr hs
      · rw [h.value (hnone.mp hn)] at hs
        exact absurd hs hpend
  · intro hnot
    rcases hsound with hs | ⟨hn, hcache, -⟩
    · exact hs
    · exact absurd ⟨hn, hcache⟩ hnot
  · rintro o J₂ M₂ ⟨hstored, hdone, hspanned⟩
    refine ⟨hstored.executed h.computed.init h.computed.stores ?_, hstored.flags,
      fun r hr => hstored.reg r (Or.inr (Or.inl hr)), hdone, fun w hw => ?_⟩
    · rw [direct]
      cases hdyn : fb.dyn with
      | true =>
          rw [hdyn] at hnone
          simp [hnone]
      | false =>
          rw [hdyn] at hnone
          simp [hnone, h.value hdyn]
    · obtain ⟨hn, hs, hw, -, hspan, hpend⟩ := hspanned w hw
      exact ⟨h.value (hnone.mp hn), hs, hw.denotes, hspan, hpend⟩

theorem Executed.congr {J₀ J₂ : Cache} {M₀ M₂ : State} {u d : Bool}
    (h : Executed m p u d J M J₀ M₀) (hinit : M₂.init = M₀.init)
    (hstores : M₂.stores ++ held (after m p) J₂ = M₀.stores ++ held (after m p) J₀)
    (hpend : J₀.pend = none → J₂.pend = none) : Executed m p u d J M J₂ M₂ where
  init := hinit.trans h.init
  joins := hstores ▸ h.joins
  direct hu hd := hpend (h.direct hu hd)

/-- The instruction has run, and the next one follows. -/
structure GoesOn (m : Memory) (p : Word) (u d : Bool) (fc : Field) (J : Cache) (M : State)
    (J' : Cache) (M' : State) : Prop where
  zero : u = true → operandOf m p = 0
  next : (operandOf m (p + 8)).sle (operandOf m p) = true →
    fc.dyn = false ∧ read m (p + 16) = p + 24
  sound : Sound (after m p) J' M'
  live : J'.flagsLive = false
  executed : Executed m p u d J M J' M'

/-- The branch after the store: it leaves if it is taken, to another place than the next
instruction. -/
theorem branchTo_leaves {J₂ : Cache} {M₂ : State} {x y : Word} {rc : Option Reg}
    {taken : Option Bool} (htaken : ∀ t, taken = some t → t = y.sle x)
    (hflags : taken = none → (fc.dyn = true ∨ fc.value ≠ p + 24) → Decides M₂ y x) :
    Leaves maps J₂ M₂ (branchTo i p fc rc taken)
      (fun ended J' M' => ended = false ∧ Touched J₂ J' ∧ M' = M₂ ∧
        (y.sle x = true → fc.dyn = false ∧ fc.value = p + 24))
      (fun e M' => M' = M₂ ∧ y.sle x = true ∧ e = .stub ⟨fc.dyn, i, fc.value, rc, snapOf J₂⟩) := by
  unfold branchTo
  by_cases hbranch : taken ≠ some false ∧ (fc.dyn = true ∨ fc.value ≠ p + 24)
  · rw [if_pos hbranch]
    obtain ⟨J₃, htouch, hsnap⟩ := snapPending_eq J₂
    refine .quiet_bind hsnap ?_
    cases taken with
    | some t =>
        cases t with
        | true => exact .emit_exit_bind rfl ⟨rfl, (htaken true rfl).symm, rfl⟩
        | false => exact absurd rfl hbranch.1
    | none =>
        obtain ⟨f, hf, hle⟩ := hflags rfl hbranch.2
        cases hsle : y.sle x with
        | true =>
            have hstep : step maps (.jle ⟨fc.dyn, i, fc.value, rc, snapOf J₂⟩) M₂ =
                .exit (.stub ⟨fc.dyn, i, fc.value, rc, snapOf J₂⟩) M₂ := by
              rw [step, hf]
              simp only [hle, hsle, if_true]
            exact .emit_exit_bind hstep ⟨rfl, rfl, rfl⟩
        | false =>
            have hstep : step maps (.jle ⟨fc.dyn, i, fc.value, rc, snapOf J₂⟩) M₂ = .run M₂ := by
              rw [step, hf]
              simp only [hle, hsle, Bool.false_eq_true, if_false]
            exact .emit_bind hstep (.of_runs (.pure ⟨rfl, htouch, rfl, by simp⟩))
  · rw [if_neg hbranch]
    refine .of_runs (.pure ⟨rfl, .refl J₂, rfl, fun hsle => ?_⟩)
    have hne : taken ≠ some false := by
      intro hfalse
      rw [← htaken false hfalse] at hsle
      cases hsle
    simpa using fun hto => hbranch ⟨hne, hto⟩

/-- Whether the instruction is known to subtract 0. -/
def idleOf (src : Source) (i : ℕ) (p : Word) (J : Cache) : Bool :=
  match prepare src i p J with
  | some (w, _, _) => w.2.2.2.1.unchanged
  | none => false

theorem Prepared.finish (h : Prepared src maps m p J M fb fc rb q J₁ M') (i : ℕ) :
    Leaves maps J₁ M' (Translator.finish i p fb fc rb q)
      (fun ended J₂ M₂ => ended = false ∧
        GoesOn m p q.1.unchanged (direct fb) fc J M J₂ M₂)
      (fun e M₂ => ∃ s, e = .stub s ∧ LeavesAfter maps i m p q.1.unchanged (direct fb)
        (fieldOf src J p) fb fc J M s M₂) := by
  have hzero := fun hu => (h.resulted.unchanged hu).1
  refine .modify_bind (.bind (.of_runs h.store) ?_)
  rintro o J₂ M₂ ⟨hexec, hflags, hcreg, hdone, hspanned⟩
  have hsame : SameEntries J₂ { J₂ with flagsLive := false } := ⟨fun _ => rfl, rfl, rfl⟩
  refine .modify_bind (.bind (Leaves.imp (branchTo_leaves h.resulted.taken ?_)
    (fun _ _ _ => id) ?_) ?_)
  · intro hnone hto
    obtain ⟨f, hf, hle⟩ := h.resulted.decides hnone hto
    exact ⟨f, (hflags (decide_eq_true ⟨hto, hnone⟩)).trans hf, hle⟩
  · rintro e M₃ ⟨rfl, hsle, rfl⟩
    refine ⟨_, rfl, rfl, rfl, hzero, hsle, h.valueC, fun hdyn => ?_, fun keep => ?_⟩
    · obtain ⟨r, hr⟩ := Option.isSome_iff_exists.mp (h.resulted.isSome.trans hdyn)
      refine ⟨r, hr, ?_⟩
      rw [hcreg r hr]
      by_cases hs : ∃ t, Spoils J (p + 16) (fieldOf src J p) fb fc t
      · obtain ⟨t, ht⟩ := hs
        obtain ⟨hcreg, hvalue⟩ := h.resulted.spoils t ht
        obtain rfl := Option.some.inj (hcreg.symm.trans hr)
        have hdenotes := h.resulted.value.denotes
        rw [hvalue] at hdenotes
        exact Or.inl ⟨⟨t, ht⟩, hdenotes⟩
      · exact Or.inr ⟨hs, h.resulted.creg r hr fun ht => hs ⟨r, ht⟩⟩
    · refine ⟨_, hexec.joins, ?_, fun hu hd => ?_⟩
      · rw [← hexec.init]
        cases o with
        | none => exact (hdone rfl).settles keep
        | some w =>
            obtain ⟨-, hs, -, -, hpend⟩ := hspanned w rfl
            have hsettles := @Sound.settles maps _ _ _ hs keep
            rwa [held_none hpend] at hsettles ⊢
      · rw [held_none (hexec.direct hu hd), List.append_nil]
  · rintro _ J₃ M₃ ⟨rfl, htouch, rfl, hnext⟩
    have hnext' : (operandOf m (p + 8)).sle (operandOf m p) = true →
        fc.dyn = false ∧ read m (p + 16) = p + 24 := by
      intro hsle
      obtain ⟨hdyn, hvalue⟩ := hnext hsle
      exact ⟨hdyn, by rw [← h.valueC hdyn, hvalue]⟩
    have hsame₃ := hsame.trans htouch.same
    cases o with
    | none =>
        refine .of_runs (.quiet_bind rfl (.pure ⟨rfl, hzero, hnext', ?_, htouch.live, ?_⟩))
        · exact hsame₃.sound htouch.pend (hdone rfl)
        · refine hexec.congr rfl ?_ fun hp => htouch.pend.trans hp
          simp only [held, htouch.pend]
    | some w =>
        obtain ⟨hvalue, hs, hw, hspan, hpend⟩ := hspanned w rfl
        have hpend₃ : J₃.pend = none := htouch.pend.trans hpend
        have hs₃ := hsame₃.sound htouch.pend hs
        have hupdate := @updateSpanned_runs maps _ _ _ _ _ _ hs₃ hpend₃ htouch.live hw hspan
        rw [hvalue]
        refine .of_runs (.bind hupdate ?_)
        rintro _ J₄ M₄ ⟨hs₄, hframe⟩
        have hpend₄ := hframe.pend_eq_none hpend₃
        have hstores := hframe.stores
        rw [held_none hpend₄, held_none hpend₃] at hstores
        refine .pure ⟨rfl, hzero, hnext', hs₄, hframe.live.trans htouch.live, ?_⟩
        refine hexec.congr hframe.init ?_ fun _ => hpend₄
        rw [held_none hpend₄, held_none hpend]
        exact hstores

/-- One instruction, on what it finds: it leaves before it, or after it through its
branch, or the next one follows. -/
theorem translateInsn_leaves (h : Sound m J M) (hc : Current m J M) (hlive : J.flagsLive = false)
    (hm : Marked maps) (hp : p.toNat % 8 = 0) (hbaked : Baked src m p)
    (hb : src.size.Holds (read m (p + 8))) (hhoist : ∀ w ∈ src.hoist, maps.static w = false)
    (i : ℕ) :
    Leaves maps J M (translateInsn src i p)
      (fun ended J' M' => ended = false ∧ Clear maps src.size (read m (p + 8)) ∧
        GoesOn m p (idleOf src i p J) (direct (fieldOf src J (p + 8))) (fieldOf src J (p + 16))
          J M J' M')
      (fun e M' => LeavesBefore maps i M.init (M.stores ++ held m J) e M' ∨
        Clear maps src.size (read m (p + 8)) ∧ ∃ s, e = .stub s ∧
          LeavesAfter maps i m p (idleOf src i p J) (direct (fieldOf src J (p + 8)))
            (fieldOf src J p) (fieldOf src J (p + 8)) (fieldOf src J (p + 16)) J M s M') := by
  rw [translateInsn_eq]
  refine .bind (Leaves.imp (prepare_leaves h hc hlive hm hp hbaked hb hhoist i).with_eq
    (fun _ _ _ => id) fun _ _ => Or.inl) ?_
  rintro ⟨fb, fc, rb, q⟩ J₁ M₁ ⟨hprep, c, heq⟩
  have hidle : idleOf src i p J = q.1.unchanged := by
    rw [idleOf, heq]
  obtain rfl := hprep.fb_eq
  obtain rfl := hprep.fc_eq
  rw [hidle]
  refine (hprep.finish i).imp ?_ ?_
  · exact fun _ _ _ hrun => ⟨hrun.1, hprep.clear, hrun.2⟩
  · exact fun _ _ hexit => Or.inr ⟨hprep.clear, hexit⟩

end Translator
end SubleqEmu
