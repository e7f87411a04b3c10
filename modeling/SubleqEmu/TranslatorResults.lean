import SubleqEmu.TranslatorFields

/-!
# Results

What the subtraction leaves: the value to be stored, and the branch or the flags that
decide it.  It may be done in the register that caches B, whose entry is then ahead of
memory.
-/

namespace SubleqEmu
namespace Translator

open ByteMemory Subleq Emitter Machine

variable {maps : Maps} {m : Memory} {P P' : Set Reg} {J J' : Cache} {M M' M₁ : State}
  {a b fb p q : Word} {r s t rr : Reg} {v w va vb : CVal} {x y z : Word} {dynb branch : Bool}
  {f : Option Flags} {α β : Type}

/-! ## Computing in place -/

/-- B's register, if the result may go there. -/
def MayOverwrite (J : Cache) (dynb : Bool) (fb : Word) (vb : CVal) (r : Reg) : Prop :=
  vb = .reg r ∧ J.aliased r = false ∧
    ((J.regs r).addr = none ∨ dynb = false ∧ (J.regs r).addr = some fb)

theorem inPlace_eq_some {ok : Option Word → Bool} :
    inPlace J vb ok = some r ↔
      vb = .reg r ∧ J.aliased r = false ∧ ok (J.regs r).addr = true := by
  cases vb with
  | reg s =>
      simp only [inPlace, Option.ite_none_right_eq_some, Option.some.injEq, CVal.reg.injEq,
        Bool.not_eq_true', eq_comm (a := s)]
      constructor
      · rintro ⟨h, rfl⟩
        exact ⟨rfl, by simpa using h⟩
      · rintro ⟨rfl, h⟩
        exact ⟨by simpa using h, rfl⟩
  | _ => simp [inPlace]

/-- The register stands for nothing, or only for the word that is stored to. -/
def Only (J : Cache) (dynb : Bool) (fb : Word) (r : Reg) : Prop :=
  (∀ a n, ¬ Alias J a r n) ∧
    ((J.regs r).addr = none ∨ dynb = false ∧ (J.regs r).addr = some fb)

theorem MayOverwrite.only (h : MayOverwrite J dynb fb vb r) : Only J dynb fb r := by
  refine ⟨fun a n hn => ?_, h.2.2⟩
  have haliased := aliased_iff.mpr ⟨a, n, hn⟩
  rw [h.2.1] at haliased
  cases haliased

theorem Fresh.only (h : Fresh P r J) : Only J dynb fb r :=
  ⟨(free_iff.mp h.free).2, Or.inl (free_iff.mp h.free).1⟩

theorem Keeps.only (h : Keeps m P J M J' M') (hr : r ∈ P) (ho : Only J dynb fb r) :
    Only J' dynb fb r := by
  simpa only [Only, h.addr r hr, h.names r hr] using ho

/-- The cache after the word at `b` was computed in the register that caches it. -/
theorem Sound.overwrite (h : Sound m J M) (haddr : (J.regs r).addr = some b)
    (hname : ∀ a n, ¬ Alias J a r n) (z : Word) (f : Option Flags) :
    Sound (write m b z) J ((M.set r z).setFlags f) where
  entry {a v} hv := by
    obtain ⟨hcache, hdenotes⟩ := h.entry hv
    have hb : Entry J b (.reg r) := Or.inl haddr
    refine ⟨hcache, ?_⟩
    by_cases huse : Uses v r
    · rcases huse with rfl | rfl
      · rcases hv with hv | hv
        · rw [haddr] at hv
          obtain rfl := Option.some.inj hv
          rw [read_write_self]
          exact set_setFlags_reg f
        · exact absurd hv (hname a false)
      · exact absurd hv (hname a true)
    · have hne : b ≠ a := by
        rintro rfl
        exact huse (Or.inl (h.unique hv hb))
      have hapart := apart_of_ne (aligned_of_cacheable (h.entry hb).1)
        (aligned_of_cacheable hcache) hne
      rw [read_write_apart _ _ hapart]
      exact hdenotes.set_of_not_uses huse z
  unique := h.unique
  pend := h.pend

/-- From the operands to the result: as in a step that keeps the cache, but that the word
`fb` may be ahead of memory. -/
structure Computed (m : Memory) (dynb : Bool) (fb z : Word) (P : Set Reg) (J : Cache) (M : State)
    (J' : Cache) (M' : State) : Prop where
  sound : Sound m J' M' ∨ dynb = false ∧ cacheable fb = true ∧ Sound (write m fb z) J' M'
  pinned : ∀ r ∈ P, (J'.regs r).pinned = true
  reg : ∀ r ∈ P, M'.reg r = M.reg r
  live : J'.flagsLive = J.flagsLive
  pend : J'.pend = J.pend ∨ J'.pend = none
  init : M'.init = M.init
  stores : M'.stores ++ held m J' = M.stores ++ held m J

theorem Keeps.computed (h : Keeps m P J M J' M') : Computed m dynb fb z P J M J' M' where
  sound := Or.inl h.ready.toSound
  pinned := h.ready.pinned
  reg := h.reg
  live := h.live
  pend := h.pend
  init := h.init
  stores := h.stores

theorem Keeps.trans_computed {J'' : Cache} {M'' : State} (h : Keeps m P J M J' M')
    (h' : Computed m dynb fb z P J' M' J'' M'') : Computed m dynb fb z P J M J'' M'' where
  sound := h'.sound
  pinned := h'.pinned
  reg r hr := (h'.reg r hr).trans (h.reg r hr)
  live := h'.live.trans h.live
  pend := by
    rcases h'.pend with hp | hp
    · rw [hp]
      exact h.pend
    · exact Or.inr hp
  init := h'.init.trans h.init
  stores := h'.stores.trans h.stores

theorem Computed.mono (h : Computed m dynb fb z P' J M J' M') (hP : P ⊆ P') :
    Computed m dynb fb z P J M J' M' where
  sound := h.sound
  pinned r hr := h.pinned r (hP hr)
  reg r hr := h.reg r (hP hr)
  live := h.live
  pend := h.pend
  init := h.init
  stores := h.stores

def Computes (maps : Maps) (m : Memory) (dynb : Bool) (fb z : Word) (P : Set Reg) (J : Cache)
    (M : State) (g : T α) (Q : α → Cache → State → Prop) : Prop :=
  Runs maps J M g fun x J' M' => Computed m dynb fb z P J M J' M' ∧ Q x J' M'

theorem Emits.computes {g : T α} {Q : α → Cache → State → Prop}
    (h : Emits maps m P J M g Q) : Computes maps m dynb fb z P J M g Q :=
  Runs.imp h fun _ _ _ hx => ⟨hx.1.computed, hx.2⟩

namespace Computes

theorem bind_in {g : T α} {k : α → T β} {Q : α → Cache → State → Prop}
    {R : β → Cache → State → Prop} (hg : Emits maps m P' J M g Q) (hP : P ⊆ P')
    (hk : ∀ x J' M', Keeps m P' J M J' M' → Q x J' M' →
      Computes maps m dynb fb z P J' M' (k x) R) :
    Computes maps m dynb fb z P J M (g >>= k) R :=
  Runs.bind hg fun _ _ _ hx => (hk _ _ _ hx.1 hx.2).imp fun _ _ _ hy =>
    ⟨(hx.1.mono hP).trans_computed hy.1, hy.2⟩

theorem imp {g : T α} {Q R : α → Cache → State → Prop}
    (h : Computes maps m dynb fb z P J M g Q) (hQ : ∀ x J' M', Q x J' M' → R x J' M') :
    Computes maps m dynb fb z P J M g R :=
  Runs.imp h fun _ _ _ hx => ⟨hx.1, hQ _ _ _ hx.2⟩

/-- With what the step before left. -/
theorem imp_computed {g : T α} {Q R : α → Cache → State → Prop}
    (h : Computes maps m dynb fb z P J M g Q)
    (hQ : ∀ x J' M', Computed m dynb fb z P J M J' M' → Q x J' M' → R x J' M') :
    Computes maps m dynb fb z P J M g R :=
  Runs.imp h fun _ _ _ hx => ⟨hx.1, hQ _ _ _ hx.1 hx.2⟩

theorem mono_set {g : T α} {Q : α → Cache → State → Prop}
    (h : Computes maps m dynb fb z P' J M g Q) (hP : P ⊆ P') :
    Computes maps m dynb fb z P J M g Q :=
  Runs.imp h fun _ _ _ hx => ⟨hx.1.mono hP, hx.2⟩

theorem then_pure {g : T α} {Q : α → Cache → State → Prop} {R : β → Cache → State → Prop}
    {k : α → β} (h : Computes maps m dynb fb z P J M g Q)
    (hR : ∀ x J' M', Computed m dynb fb z P J M J' M' → Q x J' M' → R (k x) J' M') :
    Computes maps m dynb fb z P J M (g >>= fun x => pure (k x)) R :=
  Runs.bind h fun x J' M' hx => .pure ⟨hx.1, hR x J' M' hx.1 hx.2⟩

/-- The instruction that gives the result, and steps of the generator alone. -/
theorem emit_quiet {i : Insn} {x : β} (h : Ready m P J M)
    (hr : rr ∉ P) (ho : Only J dynb fb rr) (hlive : J.flagsLive = false)
    (hstep : step maps i M = .run ((M.set rr z).setFlags f)) :
    Computes maps m dynb fb z P J M (Emitter.emit i >>= fun _ => pure x) fun x' J' M' =>
      x = x' ∧ J = J' ∧ (M.set rr z).setFlags f = M' := by
  intro _ _ _ heq
  obtain ⟨c', hpure, rfl⟩ := emit_bind_eq_some.mp heq
  obtain ⟨rfl, rfl, rfl⟩ := pure_eq_some.mp hpure
  refine ⟨_, by rw [exec_singleton, hstep], ?_, rfl, rfl, rfl⟩
  obtain ⟨hname, haddr | ⟨hdyn, haddr⟩⟩ := ho
  · refine (h.set hr (free_iff.mpr ⟨haddr, hname⟩) z fun hl => ?_).computed
    rw [hlive] at hl
    cases hl
  · have hcache := (h.entry (v := .reg rr) (Or.inl haddr)).1
    exact {
      sound := Or.inr ⟨hdyn, hcache, h.toSound.overwrite haddr hname z f⟩
      pinned := h.pinned
      reg := fun s hs => by
        have hne : s ≠ rr := fun heq => hr (heq ▸ hs)
        simp only [State.set, State.setFlags, Function.update_of_ne hne]
      live := rfl
      pend := Or.inl rfl
      init := rfl
      stores := rfl }

end Computes

/-! ## Registers for the result -/

theorem copyReg_emits (h : Ready m P J M) (hv : Known v x J M) :
    Emits maps m (keeping P v) J M (copyReg v) fun rr J' M' =>
      M'.reg rr = x ∧ Fresh (keeping P v) rr J' := by
  refine .bind (scratch_emits (h.keeping hv)) fun rr J₁ M₁ hkeep hfresh => ?_
  have hv₁ := hkeep.known_keeping hv
  cases v with
  | const c =>
      have hmove := hkeep.ready.move hfresh.notMem hfresh.free c
      exact .emit_bind rfl hmove (.pure hmove.ready ⟨set_reg.trans hv.denotes, hfresh⟩)
  | reg s =>
      have hmove := hkeep.ready.move hfresh.notMem hfresh.free (M₁.reg s)
      exact .emit_bind rfl hmove (.pure hmove.ready ⟨set_reg.trans hv₁.denotes, hfresh⟩)
  | _ => exact .fail

theorem resultReg_emits {ok : Option Word → Bool} (h : Ready m P J M) (hv : Known vb y J M) :
    Emits maps m (keeping P vb) J M (resultReg ok vb) fun rr J' M' =>
      M'.reg rr = y ∧ (J'.regs rr).pinned = true ∧ (inPlace J vb ok = some rr ∧ J' = J ∨
        inPlace J vb ok = none ∧ Fresh (keeping P vb) rr J') := by
  refine .getState ?_
  cases hplace : inPlace J vb ok with
  | some rr =>
      obtain ⟨rfl, -, -⟩ := inPlace_eq_some.mp hplace
      exact .pure (h.keeping hv) ⟨hv.denotes, hv.pinned rr (Or.inl rfl), Or.inl ⟨rfl, rfl⟩⟩
  | none =>
      have hcopy : Emits maps m (keeping P vb) J M (copyReg vb) fun rr J' M' =>
          M'.reg rr = y ∧ (J'.regs rr).pinned = true ∧
            (none = some rr ∧ J' = J ∨ True ∧ Fresh (keeping P vb) rr J') :=
        (copyReg_emits h hv).imp fun rr J' M' _ hrr =>
        ⟨hrr.1, hrr.2.pinned, Or.inr ⟨trivial, hrr.2⟩⟩
      cases vb with
      | neg r =>
          refine (toReg_known h hv).imp fun rr J' M' _ hrr => ⟨hrr.1, ?_⟩
          obtain ⟨heq, -⟩ | ⟨-, hfresh⟩ := hrr.2
          · cases heq
          · exact ⟨hfresh.pinned, Or.inr ⟨rfl, hfresh⟩⟩
      | _ => simpa using hcopy

theorem inPlace_subtraction :
    inPlace J vb (fun a => a = none ∨ !dynb ∧ a = some fb) = some r ↔
      MayOverwrite J dynb fb vb r := by
  rw [inPlace_eq_some, MayOverwrite]
  simp

theorem inPlace_addition
    (h : inPlace J vb (fun a => !dynb ∧ (a = none ∨ a = some fb)) = some r) :
    MayOverwrite J dynb fb vb r := by
  rw [inPlace_eq_some] at h
  refine ⟨h.1, h.2.1, ?_⟩
  obtain ⟨hdyn, haddr⟩ := by simpa using h.2.2
  exact haddr.imp_right fun haddr => ⟨hdyn, haddr⟩

/-- The register of the result, with the operand it takes off still known. -/
theorem resultReg_operand {ok : Option Word → Bool} (h : Ready m P J M) (ha : Known va x J M)
    (hb : Known vb y J M) (hP : ∀ r ∈ P, ¬ MayOverwrite J dynb fb vb r)
    (hok : ∀ r, inPlace J vb ok = some r → MayOverwrite J dynb fb vb r) :
    Emits maps m (keeping P va) J M (resultReg ok vb) fun rr J' M' =>
      M'.reg rr = y ∧ (J'.regs rr).pinned = true ∧ rr ∉ P ∧ Only J' dynb fb rr ∧
        (inPlace J vb ok = some rr ∨ inPlace J vb ok = none) := by
  refine .mono_set ((resultReg_emits (h.keeping ha) hb).imp fun rr J' M' hkeep hrr => ?_)
    (subset_keeping (v := vb))
  obtain ⟨hy, hpin, ⟨hplace, rfl⟩ | ⟨hplace, hfresh⟩⟩ := hrr
  · have hmay := hok rr hplace
    exact ⟨hy, hpin, fun hr => hP rr hr hmay, hmay.only, Or.inl hplace⟩
  · exact ⟨hy, hpin, fun hr => hfresh.notMem (subset_keeping (subset_keeping hr)), hfresh.only,
      Or.inr hplace⟩

/-- What the flags of the result decide. -/
def Decides (M : State) (y x : Word) : Prop := ∃ f, M.flags = some f ∧ f.le = y.sle x

theorem subtraction_computes (h : Ready m P J M) (ha : Known va x J M) (hb : Known vb y J M)
    (hlive : J.flagsLive = false) (hP : ∀ r ∈ P, ¬ MayOverwrite J dynb fb vb r) :
    Computes maps m dynb fb (y - x) P J M (subtraction dynb fb va vb) fun rr J' M' =>
      M'.reg rr = y - x ∧ (J'.regs rr).pinned = true ∧ Decides M' y x ∧
        ∀ r, MayOverwrite J dynb fb vb r → rr = r := by
  refine .bind_in (resultReg_operand h ha hb hP fun r hr => inPlace_subtraction.mp hr)
    subset_keeping fun rr J₁ M₁ hkeep₁ hrr => ?_
  obtain ⟨hy, hpin, hrrP, honly, hplace⟩ := hrr
  have ha₁ := hkeep₁.known_keeping ha
  have hready₁ := (hkeep₁.ready.mono subset_keeping).insert hpin
  have hsub : P ⊆ keeping (insert rr P) va := (Set.subset_insert rr P).trans subset_keeping
  have hrr : rr ∈ keeping (insert rr P) va := Or.inl (Set.mem_insert rr P)
  refine .bind_in (toReg_known hready₁ ha₁) hsub fun t J₂ M₂ hkeep₂ ht => ?_
  have hstep : step maps (.sub rr t) M₂ =
      .run ((M₂.set rr (y - x)).setFlags (some (subFlags y x))) := by
    rw [step, hkeep₂.reg rr hrr, hy, ht.1]
  have hlive₂ := hkeep₂.live.trans (hkeep₁.live.trans hlive)
  refine (Computes.emit_quiet (hkeep₂.ready.mono hsub) hrrP (hkeep₂.only hrr honly) hlive₂
    hstep).imp ?_
  rintro _ _ _ ⟨rfl, rfl, rfl⟩
  refine ⟨set_setFlags_reg _, hkeep₂.ready.pinned rr hrr,
    ⟨_, rfl, le_subFlags y x⟩, fun r hr => ?_⟩
  have hr := inPlace_subtraction.mpr hr
  rcases hplace with hplace | hplace
  · exact Option.some.inj (hplace.symm.trans hr)
  · rw [hplace] at hr
    cases hr

theorem addition_computes (h : Ready m P J M) (hra : M.reg r = -x)
    (hpin : (J.regs r).pinned = true) (hb : Known vb y J M) (hlive : J.flagsLive = false)
    (hP : ∀ r ∈ P, ¬ MayOverwrite J dynb fb vb r) :
    Computes maps m dynb fb (y - x) P J M (addition dynb fb r vb) fun rr J' M' =>
      M'.reg rr = y - x ∧ (J'.regs rr).pinned = true := by
  have ha : Known (.reg r) (-x) J M := known_reg hra hpin
  refine .bind_in (resultReg_operand h ha hb hP fun r hr => inPlace_addition hr)
    subset_keeping fun rr J₁ M₁ hkeep₁ hrr => ?_
  obtain ⟨hy, hpin, hrrP, honly, -⟩ := hrr
  have ha₁ := (hkeep₁.known_keeping ha).denotes
  have hstep : step maps (.add rr r) M₁ =
      .run ((M₁.set rr (y - x)).setFlags (some (addFlags y (-x)))) := by
    have hneg : y + -x = y - x := (sub_eq_add_neg y x).symm
    rw [step, hy, show M₁.reg r = -x from ha₁, hneg]
  refine (Computes.emit_quiet (hkeep₁.ready.mono subset_keeping) hrrP honly
    (hkeep₁.live.trans hlive) hstep).imp ?_
  rintro _ _ _ ⟨rfl, rfl, rfl⟩
  exact ⟨set_setFlags_reg _, hpin⟩

theorem negation_computes (h : Ready m P J M) (ha : Known va x J M) (hlive : J.flagsLive = false) :
    Computes maps m dynb fb (0 - x) P J M (negation va) fun rr J' M' =>
      M'.reg rr = 0 - x ∧ (J'.regs rr).pinned = true ∧ Decides M' 0 x := by
  have hown : Emits maps m (keeping P va) J M (ownReg va) fun rr J' M' =>
      M'.reg rr = x ∧ Fresh (keeping P va) rr J' := by
    have hreg : Emits maps m (keeping P va) J M (toReg va) fun rr J' M' =>
        (∀ s, va ≠ .reg s) → M'.reg rr = x ∧ Fresh (keeping P va) rr J' :=
      (toReg_known h ha).imp fun rr J' M' _ hrr hne =>
        ⟨hrr.1, (hrr.2.resolve_left fun heq => hne _ heq.1).2⟩
    cases va with
    | reg s => exact copyReg_emits h ha
    | _ => exact hreg.imp fun rr J' M' _ hrr => hrr nofun
  refine .bind_in hown subset_keeping fun rr J₁ M₁ hkeep₁ hrr => ?_
  have hstep : step maps (.neg rr) M₁ =
      .run ((M₁.set rr (0 - x)).setFlags (some (subFlags 0 x))) := by
    have hneg : -x = 0 - x := (zero_sub x).symm
    rw [step, hrr.1, hneg]
  refine (Computes.emit_quiet (hkeep₁.ready.mono subset_keeping)
    (fun hr => hrr.2.notMem (subset_keeping hr)) hrr.2.only (hkeep₁.live.trans hlive) hstep).imp ?_
  rintro _ _ _ ⟨rfl, rfl, rfl⟩
  exact ⟨set_setFlags_reg _, hrr.2.pinned, _, rfl, le_subFlags 0 x⟩

/-! ## The forms of the subtraction -/

/-- The result of `y - x`, for an A known as `va`. -/
structure ResultOk (branch : Bool) (va : CVal) (x y : Word) (res : Result) (J : Cache)
    (M : State) : Prop where
  value : Known res.value (y - x) J M
  unchanged : res.unchanged = true → va = .const 0 ∧ ∀ c, res.value ≠ .const c
  taken : ∀ t, res.taken = some t → t = y.sle x
  decides : res.taken = none → branch = true → Decides M y x

theorem SameEntries.computed {J'' : Cache} {M'' : State} (hsame : SameEntries J' J'')
    (h : Computed m dynb fb z P J M J' M'') (hpend : J''.pend = J'.pend)
    (hlive : J''.flagsLive = J'.flagsLive)
    (hpin : ∀ r, (J'.regs r).pinned = true → (J''.regs r).pinned = true) :
    Computed m dynb fb z P J M J'' M'' where
  sound := h.sound.imp (hsame.sound hpend)
    fun hs => ⟨hs.1, hs.2.1, hsame.sound hpend hs.2.2⟩
  pinned r hr := hpin r (h.pinned r hr)
  reg := h.reg
  live := hlive.trans h.live
  pend := by
    rw [hpend]
    exact h.pend
  init := h.init
  stores := by
    rw [← h.stores, held, hpend, held]

theorem Computes.then_pin {g : T Reg} {Q : Reg → Cache → State → Prop}
    (h : Computes maps m dynb fb z P J M g Q)
    {R : Result → Cache → State → Prop}
    (hR : ∀ rr J' M', Q rr J' M' → R ⟨.reg rr, none, false⟩ (J'.pin rr) M') :
    Computes maps m dynb fb z P J M (g >>= pinResult) R := by
  intro _ _ _ heq
  obtain ⟨rr, J₁, c₁, c₂, hg, hpin, rfl⟩ := bind_eq_some.mp heq
  obtain ⟨M₁, hrun, hcomp, hQ⟩ := h hg
  rw [pinResult, modifyState_bind] at hpin
  obtain ⟨rfl, rfl, rfl⟩ := pure_eq_some.mp hpin
  refine ⟨M₁, by rwa [List.append_nil], ?_, hR rr J₁ M₁ hQ⟩
  exact sameEntries_pin.computed hcomp rfl rfl fun s hs => by simp [hs]

theorem known_pin (hreg : M.reg rr = z) : Known (.reg rr) z (J.pin rr) M :=
  known_reg hreg (by simp)

theorem subtract_computes (h : Ready m P J M) (ha : Known va x J M) (hb : Known vb y J M)
    (hlive : J.flagsLive = false) (hP : ∀ r ∈ P, ¬ MayOverwrite J dynb fb vb r) :
    Computes maps m dynb fb (y - x) P J M (subtract dynb fb va vb) fun res J' M' =>
      ResultOk branch va x y res J' M' ∧
        ∀ r, MayOverwrite J dynb fb vb r → res.value = .reg r := by
  rw [subtract]
  split_ifs with hzero
  · subst hzero
    obtain rfl : 0 = y := hb.denotes
    refine (negation_computes h ha hlive).then_pin fun rr J' M' hrr => ?_
    refine ⟨⟨known_pin hrr.1, nofun, nofun, fun _ _ => hrr.2.2⟩, fun r hr => ?_⟩
    cases hr.1
  · refine (subtraction_computes h ha hb hlive hP).then_pin fun rr J' M' hrr => ?_
    refine ⟨⟨known_pin hrr.1, nofun, nofun, fun _ _ => hrr.2.2.1⟩, fun r hr => ?_⟩
    rw [hrr.2.2.2 r hr]

theorem testOnly_emits (h : Ready m P J M) (hb : Known vb y J M) (hlive : J.flagsLive = false) :
    Emits maps m (keeping P vb) J M (testOnly branch vb) fun _ _ M' =>
      branch = true → Decides M' y 0 := by
  unfold testOnly onlyIf
  split_ifs with hbranch
  · refine .bind (toReg_known h hb) fun t J₁ M₁ hkeep ht => ?_
    have hflags := hkeep.ready.setFlags (f := some (logicFlags y)) fun hl => by
      rw [hkeep.live, hlive] at hl
      cases hl
    refine .emit ?_ hflags fun _ => ⟨_, rfl, le_logicFlags y⟩
    rw [step, ht.1, BitVec.and_self]
  · exact .pure (h.keeping hb) fun hb => absurd hb hbranch

/-- Nothing is subtracted. -/
theorem unchanged_emits (h : Ready m P J M) (hb : Known vb y J M) (hlive : J.flagsLive = false)
    (hconst : ∀ d, vb ≠ .const d) :
    Emits maps m P J M (do
      testOnly branch vb
      return (⟨vb, none, true⟩ : Result)) fun res J' M' =>
        ResultOk branch (.const 0) 0 y res J' M' ∧ res.unchanged = true ∧ res.value = vb := by
  have hy : y - 0 = y := BitVec.sub_zero y
  refine .bind_in (testOnly_emits h hb hlive) subset_keeping fun _ J₁ M₁ hkeep hdecides => ?_
  have hb₁ := hkeep.known_keeping hb
  exact .pure (hkeep.ready.mono subset_keeping)
    ⟨⟨hy.symm ▸ hb₁, fun _ => ⟨rfl, hconst⟩, nofun, fun _ => hdecides⟩, rfl, rfl⟩

theorem compute_const {c : Word} (hconst : ∀ d, vb ≠ .const d) :
    compute dynb fb branch (.const c) vb =
      if c = 0 then (do
        testOnly branch vb
        return ⟨vb, none, true⟩)
      else subtract dynb fb (.const c) vb := by
  cases vb with
  | const d => exact absurd rfl (hconst d)
  | _ => rfl

theorem compute_computes (h : Ready m P J M) (ha : Known va x J M) (hb : Known vb y J M)
    (hlive : J.flagsLive = false) (hP : ∀ r ∈ P, ¬ MayOverwrite J dynb fb vb r) :
    Computes maps m dynb fb (y - x) P J M (compute dynb fb branch va vb) fun res J' M' =>
      ResultOk branch va x y res J' M' ∧
        (branch = true → ∀ r, MayOverwrite J dynb fb vb r → res.value = .reg r) := by
  have hsubtract : Computes maps m dynb fb (y - x) P J M (subtract dynb fb va vb)
      fun res J' M' => ResultOk branch va x y res J' M' ∧
        (branch = true → ∀ r, MayOverwrite J dynb fb vb r → res.value = .reg r) :=
    (subtract_computes h ha hb hlive hP).imp fun _ _ _ hres => ⟨hres.1, fun _ => hres.2⟩
  cases va with
  | none => exact ha.denotes.elim
  | const c =>
      obtain rfl : c = x := ha.denotes
      by_cases hconst : ∃ d, vb = .const d
      · obtain ⟨d, rfl⟩ := hconst
        obtain rfl : d = y := hb.denotes
        refine (Emits.pure h ⟨⟨known_const rfl, nofun, ?_, nofun⟩, fun _ r hr => ?_⟩).computes
        · rintro _ ⟨⟩
          rfl
        · cases hr.1
      · rw [compute_const fun d hd => hconst ⟨d, hd⟩]
        split_ifs with hzero
        · subst hzero
          have hconst' : ∀ d, vb ≠ .const d := fun d hd => hconst ⟨d, hd⟩
          exact ((unchanged_emits h hb hlive hconst').imp fun _ _ _ _ hres =>
            ⟨hres.1, fun _ r hr => hres.2.2.trans hr.1⟩).computes
        · exact hsubtract
  | reg r =>
      rw [compute]
      split_ifs with hneg
      · obtain ⟨rfl, hbranch⟩ := hneg
        obtain rfl : 0 = y := hb.denotes
        have hreg : M.reg r = x := ha.denotes
        have hz : Known (.neg r) (0 - x) J M := ⟨by rw [← hreg]; exact (zero_sub _).symm,
          fun s hs => ha.pinned s (Or.inl (by rw [uses_neg.mp hs]))⟩
        refine (Emits.pure h ⟨⟨hz, nofun, nofun, fun _ hb => ?_⟩, fun _ r hr => ?_⟩).computes
        · rw [hb] at hbranch
          cases hbranch
        · cases hr.1
      · exact hsubtract
  | neg r =>
      have hreg : M.reg r = -x := by
        rw [← show -M.reg r = x from ha.denotes, neg_neg]
      have hpin := ha.pinned r (Or.inr rfl)
      by_cases hneg : ∃ s, vb = .neg s
      · obtain ⟨s, rfl⟩ := hneg
        have hcompute : compute dynb fb branch (.neg r) (.neg s) =
            if branch then subtract dynb fb (.neg r) (.neg s)
            else subtract dynb fb (.neg r) (.neg s) := rfl
        rw [hcompute, ite_self]
        exact hsubtract
      · have hcompute : compute dynb fb branch (.neg r) vb =
            if branch then subtract dynb fb (.neg r) vb
            else if vb = .const 0 then pure ⟨.reg r, none, false⟩
            else addition dynb fb r vb >>= pinResult := by
          cases vb with
          | neg s => exact absurd ⟨s, rfl⟩ hneg
          | _ => rfl
        rw [hcompute]
        split_ifs with hbranch hzero
        · exact hsubtract
        · subst hzero
          obtain rfl : 0 = y := hb.denotes
          have hz : Known (.reg r) (0 - x) J M := known_reg (hreg.trans (zero_sub x).symm) hpin
          exact (Emits.pure h ⟨⟨hz, nofun, nofun, fun _ hb => absurd hb hbranch⟩,
            fun hb => absurd hb hbranch⟩).computes
        · refine (addition_computes h hreg hpin hb hlive hP).then_pin fun rr J' M' hrr => ?_
          exact ⟨⟨known_pin hrr.1, nofun, nofun, fun _ hb => absurd hb hbranch⟩,
            fun hb => absurd hb hbranch⟩

end Translator
end SubleqEmu
