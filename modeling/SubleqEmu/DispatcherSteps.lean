import SubleqEmu.BudgetSimulation
import SubleqEmu.DispatcherCopies

/-!
# Steps of the dispatcher

Each does so many steps of the interpreter as it takes from the budget, and keeps the
invariant, for the programs that the translator runs as the interpreter does.
-/

namespace SubleqEmu
namespace Dispatcher

open ByteMemory Subleq Emitter Machine BudgetSimulation
open CopyLoop (Desc Loop compared insnAt matchCopy matchCopy_eq_some)
open CopyGuard (Touches LeftoversApart)
open Translator (Marked NoFault countOf leave)

variable {cfg : Config} {s s' : Jit} {b : Block} {a eip : Word} {o : Option Block} {size : MemSize}
  {k n : ℕ} {x y : Jit × Point} {p : Point}

/-! ## Programs -/

/-- The B fields of 14 and 15 of a copy loop at `p` hold nothing that points to a word
of the loop that is compared. -/
def LeftoversClear (size : MemSize) (m : Memory) (p : Word) : Prop :=
  ∀ desc, Loop size (fun _ => false) m desc → desc.start = p → ∀ k, k = 14 ∨ k = 15 →
    ∀ a ∈ compared p, ¬ Touches (read m (insnAt p k + 8)) a

/-- So many steps of the interpreter run without a fault, and meet none of the things
that the translator does otherwise. -/
structure Supported (size : MemSize) (k : ℕ) (r : Memory × Word) : Prop where
  runs : (interpRun size k r).isSome = true
  own : ∀ i < k, ∀ m p, interpRun size i r = some (m, p) → ¬ TakesOwnResult m p
  leftovers : ∀ i ≤ k, ∀ m p, interpRun size i r = some (m, p) → LeftoversClear size m p
  /-- `translate` counts on it -/
  wrap : ∀ m p, interpRun size k r = some (m, p) → p.toNat + 24 < 2 ^ 64

theorem runs_interpRun (size : MemSize) : Runs (interpRun size) where
  zero _ := rfl
  add := interpRun_add size

theorem hereditary_supported (size : MemSize) : Hereditary (interpRun size) (Supported size) := by
  intro k n r r' h hrun
  have hadd : ∀ i, interpRun size (k + i) r = interpRun size i r' := by
    intro i
    rw [interpRun_add, hrun]
    rfl
  constructor
  · rw [← hadd]
    exact h.runs
  · intro i hi m p hreach
    exact h.own (k + i) (by omega) m p ((hadd i).trans hreach)
  · intro i hi m p hreach
    exact h.leftovers (k + i) (by omega) m p ((hadd i).trans hreach)
  · intro m p hreach
    exact h.wrap m p ((hadd n).trans hreach)

theorem Supported.step_isSome {m : Memory} {p : Word} {r : Memory × Word}
    (h : Supported size k r) (hn : n < k) (hrun : interpRun size n r = some (m, p)) :
    (Subleq.interpStep size m p).isSome = true := by
  have hruns := h.runs
  rw [show k = n + (1 + (k - n - 1)) by omega, interpRun_add, hrun, Option.bind_some,
    interpRun_add, interpRun_one] at hruns
  cases hstep : Subleq.interpStep size m p with
  | none =>
      rw [hstep] at hruns
      cases hruns
  | some _ => rfl

theorem Supported.noFault {m : Memory} (h : Supported size k (m, a)) (hn : n ≤ k) :
    NoFault size a n m := by
  intro i hi m' hrun
  exact h.step_isSome (by omega) hrun

/-- Where the program is now. -/
theorem Supported.here {m : Memory} (h : Supported size k (m, a)) :
    a.toNat + 24 < 2 ^ 64 ∧ LeftoversClear size m a := by
  refine ⟨?_, h.leftovers 0 (Nat.zero_le k) m a rfl⟩
  cases k with
  | zero => exact h.wrap m a rfl
  | succ k =>
      have hstep := h.step_isSome (Nat.succ_pos k) rfl
      obtain ⟨r, hr⟩ := Option.isSome_iff_exists.mp hstep
      simp only [Subleq.interpStep, Option.bind_eq_bind, Option.bind_eq_some_iff,
        rd_eq_some] at hr
      obtain ⟨_, ⟨hholds, -⟩, -⟩ := hr
      have hle := size.le
      unfold MemSize.Holds at hholds
      omega

/-! ## Finding a block -/

theorem leftoversApart_view (h : LeftoversClear cfg.size s.mem a)
    (hmatch : ∃ desc, matchCopy cfg.size s.dynMap s.mem a = some desc) :
    LeftoversApart (s.view cfg) a := by
  obtain ⟨desc, hmatch⟩ := hmatch
  obtain ⟨hloop, hstart⟩ := matchCopy_eq_some hmatch
  have hclear := h desc { hloop with notDynamic := fun _ _ => rfl } hstart
  exact fun k hk => Or.inr (hclear k hk)

/-- What a look for a block at `a` leaves. -/
structure Found (cfg : Config) (s : Jit) (a : Word) (o : Option Block) (s' : Jit) : Prop where
  mem : s'.mem = s.mem
  eip : s'.eip = s.eip
  budget : s'.budget = s.budget
  dyn : ∀ w, s.dynMap w = true → s'.dynMap w = true
  inv : s'.Inv cfg
  block : ∀ b, o = some b → b ∈ s'.table ∧ b.start = a

theorem found_of_fetches {flushed : Bool} (h : Fetches cfg s a o s' flushed) (hinv : s.Inv cfg)
    (hnew : s.lookup a = none) (hhere : a.toNat + 24 < 2 ^ 64 ∧ LeftoversClear cfg.size s.mem a) :
    Found cfg s a o s' := by
  cases h with
  | refused _ => exact ⟨rfl, rfl, rfl, fun _ => id, hinv, fun _ ho => (by cases ho)⟩
  | made setup _ _ hmade =>
      generalize hs₁ : (if flushed = true then s.flush else s) = s₁ at hmade
      have hhits : Hits cfg s s₁ := by
        rw [← hs₁]
        split_ifs
        · exact .flush s
        · exact .refl s
      have hnew₁ : s₁.lookup a = none := lookup_eq_none.mpr fun b hb =>
        lookup_eq_none.mp hnew b (hhits.table.subset hb)
      have hclear : LeftoversClear cfg.size s₁.mem a := hhits.mem.symm ▸ hhere.2
      have hspec := translate_spec (hhits.inv hinv) hnew₁ hhere.1
        (fun desc hmatch => leftoversApart_view hclear ⟨desc, hmatch⟩) hmade
      refine ⟨hspec.mem.trans hhits.mem, hspec.eip.trans hhits.eip,
        hspec.budget.trans hhits.budget, fun w hw => ?_, hspec.inv, ?_⟩
      · rw [hspec.dyn]
        exact hhits.dyn w hw
      · rintro _ ⟨⟩
        exact ⟨hspec.block, hspec.start⟩

theorem found_of_finds (h : Finds cfg s o s') (hinv : s.Inv cfg)
    (hhere : s.eip.toNat + 24 < 2 ^ 64 ∧ LeftoversClear cfg.size s.mem s.eip) :
    Found cfg s s.eip o s' := by
  cases h with
  | found hb =>
      refine ⟨rfl, rfl, rfl, fun _ => id, hinv, ?_⟩
      rintro _ ⟨⟩
      exact lookup_eq_some hb
  | weak _ _ => exact ⟨rfl, rfl, rfl, fun _ => id, hinv, fun _ ho => (by cases ho)⟩
  | fetched hnone _ hfetch => exact found_of_fetches hfetch hinv hnone hhere

/-! ## Where the machine is -/

/-- The address that it is about to go on from. -/
def address (x : Jit × Point) : Word :=
  match x.2 with
  | .entry b => b.start
  | _ => x.1.eip

def view (x : Jit × Point) : Memory × Word := (x.1.mem, address x)

def budget (x : Jit × Point) : ℕ := x.1.budget.toNat

structure Good (cfg : Config) (x : Jit × Point) : Prop where
  inv : x.1.Inv cfg
  lt : budget x < 2 ^ 63
  block : ∀ b, x.2 = .entry b → b ∈ x.1.table

/-- How many words are not known to change. -/
def undyn (size : MemSize) (dynMap : Word → Bool) : ℕ :=
  ((Finset.range (size.val / 8)).filter fun w => dynMap (BitVec.ofNat 64 w) = false).card

/-- The returned state comes last, and before the dispatcher goes on without a step a
block is entered with too little left. -/
def stage (x : Jit × Point) : ℕ :=
  match x.2 with
  | .returned => 0
  | .entry b => if b.n ≤ budget x then 1 else 3
  | .top => 2

theorem stage_entry (h : b.n ≤ s.budget.toNat) : stage (s, .entry b) = 1 := if_pos h

theorem stage_short (h : s.budget.toNat < b.n) : stage (s, .entry b) = 3 :=
  if_neg (Nat.not_le.mpr h)

def rank (size : MemSize) (x : Jit × Point) : ℕ ×ₗ ℕ := toLex (undyn size x.1.dynMap, stage x)

theorem undyn_le {dynMap dynMap' : Word → Bool} (h : ∀ w, dynMap w = true → dynMap' w = true) :
    undyn size dynMap' ≤ undyn size dynMap := by
  apply Finset.card_le_card
  intro w hw
  obtain ⟨hmem, hclear⟩ := Finset.mem_filter.mp hw
  refine Finset.mem_filter.mpr ⟨hmem, Bool.eq_false_iff.mpr fun hdyn => ?_⟩
  rw [h _ hdyn] at hclear
  cases hclear

theorem undyn_lt {dynMap dynMap' : Word → Bool} (h : ∀ w, dynMap w = true → dynMap' w = true)
    {w : Word} (hw : w.toNat < size.val / 8) (hclear : dynMap w = false)
    (hdyn : dynMap' w = true) : undyn size dynMap' < undyn size dynMap := by
  apply Finset.card_lt_card
  refine Finset.ssubset_iff_of_subset ?_ |>.mpr ⟨w.toNat, ?_, ?_⟩
  · intro v hv
    obtain ⟨hmem, hv⟩ := Finset.mem_filter.mp hv
    refine Finset.mem_filter.mpr ⟨hmem, Bool.eq_false_iff.mpr fun hdyn => ?_⟩
    rw [h _ hdyn] at hv
    cases hv
  · rw [Finset.mem_filter, BitVec.ofNat_toNat, BitVec.setWidth_eq]
    exact ⟨Finset.mem_range.mpr hw, hclear⟩
  · rw [Finset.mem_filter, BitVec.ofNat_toNat, BitVec.setWidth_eq, hdyn]
    rintro ⟨-, h⟩
    cases h

theorem rank_lt (hdyn : ∀ w, x.1.dynMap w = true → y.1.dynMap w = true)
    (hstage : stage y < stage x) : rank size y < rank size x := by
  have hle : undyn size y.1.dynMap ≤ undyn size x.1.dynMap := undyn_le hdyn
  rcases Nat.lt_or_eq_of_le hle with hlt | heq
  · exact Prod.Lex.left _ _ hlt
  · unfold rank
    rw [heq]
    exact Prod.Lex.right _ hstage

/-! ## The budget -/

theorem le_of_slt (hb : b.Made size) (hlt : s.budget.toNat < 2 ^ 63)
    (h : s.budget.slt b.size = false) : b.n ≤ s.budget.toNat := by
  have hsize := hb.size_toNat
  have hle := hb.le
  unfold CopyGuard.jitMaxBlock at hle
  rw [BitVec.slt_eq_decide, decide_eq_false_iff_not, BitVec.toInt_eq_toNat_cond,
    BitVec.toInt_eq_toNat_cond, hsize, if_pos (by omega), if_pos (by omega)] at h
  omega

theorem lt_of_slt (hb : b.Made size) (hlt : s.budget.toNat < 2 ^ 63)
    (h : s.budget.slt b.size = true) : s.budget.toNat < b.n := by
  have hsize := hb.size_toNat
  have hle := hb.le
  unfold CopyGuard.jitMaxBlock at hle
  rw [BitVec.slt_eq_decide, decide_eq_true_eq, BitVec.toInt_eq_toNat_cond,
    BitVec.toInt_eq_toNat_cond, hsize, if_pos (by omega), if_pos (by omega)] at h
  omega

/-- A part of what the entry took is given back. -/
theorem toNat_giveBack (hb : b.Made size) (hle : b.n ≤ s.budget.toNat) (hk : k ≤ b.n) {z : ℤ}
    (hz : z = b.n - k) : (s.budget - b.size + BitVec.ofInt 64 z).toNat = s.budget.toNat - k := by
  have hsize := hb.size_toNat
  have hback : BitVec.ofInt 64 z = BitVec.ofNat 64 (b.n - k) := by
    rw [hz, ← Int.ofNat_sub hk]
    exact BitVec.ofInt_natCast 64 _
  have hmax := hb.le
  unfold CopyGuard.jitMaxBlock at hmax
  rw [hback]
  bv_omega

/-- A copy takes more than the entry took. -/
theorem toNat_copied (hloop : b.n = 19) (hle : b.n ≤ s.budget.toNat) {n : Word} (hn : n ≠ 0)
    (h : 19 * (n.toNat - 1) ≤ (s.budget - b.size).toNat) :
    s.budget.toNat = 19 * n.toNat + (s.budget - b.size - (19 * n - 19)).toNat := by
  have hsize : b.size = 19 := by
    unfold Block.size
    rw [hloop]
    rfl
  have hpos : n.toNat ≠ 0 := fun h0 => hn (BitVec.eq_of_toNat_eq h0)
  rw [hloop] at hle
  rw [hsize] at h ⊢
  generalize s.budget = w at hle h
  have hentry : (w - 19).toNat = w.toNat - 19 := by bv_omega
  have hsmall : (19 * n - 19).toNat = 19 * (n.toNat - 1) := by bv_omega
  have hsub : (w - 19 - (19 * n - 19)).toNat = (w - 19).toNat - (19 * n - 19).toNat :=
    BitVec.toNat_sub_of_le (BitVec.le_def.mpr (by omega))
  omega

/-! ## Jumps -/

theorem Jit.Inv.link (h : s.Inv cfg) {l : Word × Site}
    (ht : ∃ t ∈ s.table, t.start = l.2.target l.1) :
    ({ s with links := l :: s.links } : Jit).Inv cfg where
  blocks b hb := ⟨(h.blocks b hb).toMade, (h.blocks b hb).baked, (h.blocks b hb).marked⟩
  unique := h.unique
  pages := h.pages
  disjoint := h.disjoint
  links l' hl' := by
    rcases List.mem_cons.mp hl' with rfl | hl'
    · exact ht
    · exact h.links l' hl'

/-- A jump out of a block goes to its target, one way or the other. -/
structure Gone (cfg : Config) (s : Jit) (target : Word) (y : Jit × Point) : Prop where
  good : Good cfg y
  view : view y = (s.mem, target)
  budget : budget y = s.budget.toNat

theorem gone_of_jumps {site : Site} {start : Word} (h : Jumps cfg s start site s' p)
    (hinv : s.Inv cfg) (hlt : s.budget.toNat < 2 ^ 63)
    (hhere : (site.target start).toNat + 24 < 2 ^ 64 ∧
      LeftoversClear cfg.size s.mem (site.target start)) :
    Gone cfg s (site.target start) (s', p) := by
  cases h with
  | linked _ ht =>
      obtain ⟨hmem, hstart⟩ := lookup_eq_some ht
      refine ⟨⟨hinv, hlt, ?_⟩, Prod.ext rfl hstart, rfl⟩
      rintro _ ⟨⟩
      exact hmem
  | found _ ht room =>
      obtain ⟨hmem, hstart⟩ := lookup_eq_some ht
      refine ⟨⟨?_, hlt, fun _ hp => (by cases hp)⟩, rfl, rfl⟩
      have hback := hinv.back (site.target start) s.budget
      cases room with
      | true => exact hback.link (l := (start, site)) ⟨_, hmem, hstart⟩
      | false => exact hback
  | @fetched o s₁ flushed _ ht hfetch room =>
      have hfound := found_of_fetches hfetch (hinv.back (site.target start) s.budget) ht hhere
      refine ⟨⟨?_, ?_, fun _ hp => (by cases hp)⟩, Prod.ext hfound.mem hfound.eip,
        congrArg BitVec.toNat hfound.budget⟩
      · show Jit.Inv cfg { s₁ with
          links := if o.isSome ∧ !flushed ∧ room then (start, site) :: s₁.links else s₁.links }
        by_cases hlink : o.isSome ∧ !flushed ∧ room
        · obtain ⟨b, hb⟩ := Option.isSome_iff_exists.mp hlink.1
          obtain ⟨hmem, hstart⟩ := hfound.block b hb
          rw [if_pos hlink]
          exact hfound.inv.link (l := (start, site)) ⟨b, hmem, hstart⟩
        · rw [if_neg hlink]
          exact hfound.inv
      · exact lt_of_eq_of_lt (congrArg BitVec.toNat hfound.budget) hlt

theorem leave_branch {maps : Maps} {u : Bool} {start : Word} {x : Stub} {M M' : State}
    (h : leave maps u start (.stub x) M = some (M', eip)) (hdyn : x.dyn = false) :
    eip = x.target := by
  unfold leave at h
  simp only [hdyn, Bool.false_eq_true, if_false] at h
  split at h
  · exact (Prod.mk.inj (Option.some.inj h)).2.symm
  · cases h

/-! ## Steps -/

structure Stepped (cfg : Config) (x y : Jit × Point) : Prop where
  good : Good cfg y
  follows : Follows (interpRun cfg.size) view budget x y
  rank : budget y = budget x → rank cfg.size y < rank cfg.size x

/-- A step that pays. -/
theorem stepped_of_run (hgood : Good cfg y) (h : budget x = k + budget y) (hk : 0 < k)
    (hrun : interpRun cfg.size k (view x) = some (view y)) : Stepped cfg x y :=
  ⟨hgood, .of_run h hrun, fun heq => by omega⟩

/-- A step that pays nothing. -/
theorem stepped_of_view (hgood : Good cfg y) (hbudget : budget y = budget x)
    (hview : view y = view x) (hrank : rank cfg.size y < rank cfg.size x) : Stepped cfg x y :=
  ⟨hgood, .of_run (k := 0) (by omega) (congrArg some hview.symm), fun _ => hrank⟩

/-- The top of the dispatcher. -/
theorem found_at_top (hx : Good cfg (s, .top))
    (hsup : Supported cfg.size (budget (s, .top)) (view (s, .top))) (checked : List Word)
    (hfind : Finds cfg (checked.foldl Jit.revalidateAt s) o s') : Found cfg s s.eip o s' := by
  have hhits : Hits cfg s (checked.foldl Jit.revalidateAt s) := .foldl Hits.revalidateAt checked s
  have hfound := found_of_finds hfind (hhits.inv hx.inv) (by
    rw [hhits.eip, hhits.mem]
    exact hsup.here)
  exact ⟨hfound.mem.trans hhits.mem, hfound.eip.trans hhits.eip,
    hfound.budget.trans hhits.budget, fun w hw => hfound.dyn w (hhits.dyn w hw), hfound.inv,
    fun b hb => hhits.eip ▸ hfound.block b hb⟩

theorem interpret_spec {s'' : Jit} (h : s.interpret cfg = some s'') :
    Subleq.interpStep cfg.size s.mem s.eip = some (s''.mem, s''.eip) ∧
      s''.budget = s.budget - 1 ∧ (s.Inv cfg → s''.Inv cfg) := by
  obtain ⟨s₁, hstep, rfl⟩ := Option.map_eq_some_iff.mp h
  obtain ⟨hrun, hbudget, -, hinv⟩ := interpStep_spec hstep
  exact ⟨hrun, hbudget, fun hs => (hinv hs).congr (Jit.keeps_self _) rfl rfl rfl rfl rfl⟩

theorem stepped_from_top (hx : Good cfg (s, .top))
    (hsup : Supported cfg.size (budget (s, .top)) (view (s, .top)))
    (h : Step cfg (s, .top) y) : Stepped cfg (s, .top) y := by
  have hbudgetEq : ∀ {s' : Jit}, s'.budget = s.budget → s'.budget.toNat = s.budget.toNat :=
    fun h => congrArg BitVec.toNat h
  have hreturn : ∀ {s' : Jit} {o : Option Block}, Found cfg s s.eip o s' →
      Stepped cfg (s, .top) (s', .returned) := by
    intro s' o hfound
    have hb := hbudgetEq hfound.budget
    exact stepped_of_view ⟨hfound.inv, lt_of_eq_of_lt hb hx.lt, fun _ hp => by cases hp⟩ hb
      (Prod.ext hfound.mem hfound.eip) (rank_lt hfound.dyn (show 0 < 2 by decide))
  cases h with
  | exhausted checked hfind _ _ => exact hreturn (found_at_top hx hsup checked hfind)
  | short checked hfind _ _ => exact hreturn (found_at_top hx hsup checked hfind)
  | @interpret _ s' s'' o checked hfind _ hbudget hinterp =>
      have hfound := found_at_top hx hsup checked hfind
      obtain ⟨hrun, hpaid, hinv⟩ := interpret_spec hinterp
      have hb := hbudgetEq hfound.budget
      have hlt : s.budget.toNat < 2 ^ 63 := hx.lt
      have hpos : s'.budget.toNat ≠ 0 := fun h0 => hbudget (BitVec.eq_of_toNat_eq h0)
      have hpaid' : s''.budget.toNat = s.budget.toNat - 1 := by
        rw [hpaid]
        bv_omega
      refine stepped_of_run (k := 1) ⟨hinv hfound.inv, ?_, fun _ hp => by cases hp⟩ ?_
        Nat.one_pos ?_
      · show s''.budget.toNat < 2 ^ 63
        omega
      · show s.budget.toNat = 1 + s''.budget.toNat
        omega
      · rw [interpRun_one]
        show Subleq.interpStep cfg.size s.mem s.eip = some (s''.mem, s''.eip)
        rw [← hfound.mem, ← hfound.eip]
        exact hrun
  | @enter _ s' b checked hfind hbudget =>
      have hfound := found_at_top hx hsup checked hfind
      obtain ⟨hmem, hstart⟩ := hfound.block b rfl
      have hb := hbudgetEq hfound.budget
      have hsize := (hfound.inv.blocks b hmem).toMade.size_toNat
      refine stepped_of_view ⟨hfound.inv, lt_of_eq_of_lt hb hx.lt, ?_⟩ hb
        (Prod.ext hfound.mem hstart) (rank_lt hfound.dyn ?_)
      · rintro _ ⟨⟩
        exact hmem
      · rw [stage_entry (show b.n ≤ s'.budget.toNat from hsize ▸ hbudget)]
        exact Nat.one_lt_two

/-- The handler of an exit at the tests of the block's targets makes one of them dynamic. -/
theorem undyn_hoisted (hinv : s.Inv cfg) (hb : b ∈ s.table)
    (h : b.src.hoist.any s.staticMap = true) :
    undyn cfg.size (s.hitStatic b.src.hoist).dynMap < undyn cfg.size s.dynMap := by
  obtain ⟨w, hw, hstatic⟩ := List.any_eq_true.mp h
  have hdyn : ∀ (words : List Word) (s : Jit), w ∈ words → s.staticMap w = true →
      (s.hitStatic words).dynMap w = true := by
    intro words
    induction words with
    | nil => exact fun _ hw => absurd hw List.not_mem_nil
    | cons v words ih =>
        intro s hw hstatic
        show (Jit.hitStatic (if s.staticMap v then s.smcHit v else s) words).dynMap w = true
        by_cases hwv : w = v
        · subst hwv
          rw [if_pos hstatic]
          exact (@Hits.hitStatic cfg _ words).dyn w (dynMap_smcHit s w)
        · have hmem := (List.mem_cons.mp hw).resolve_left hwv
          split_ifs
          · by_cases hstill : (s.smcHit v).staticMap w = true
            · exact ih _ hmem hstill
            · have hhit : (s.smcHit v).staticMap w = Function.update s.staticMap v false w := by
                unfold Jit.smcHit
                rw [(Dropped.invalidateWord _ v).eq]
              rw [hhit, Function.update_of_ne hwv] at hstill
              exact absurd hstatic hstill
          · exact ih s hmem hstatic
  exact undyn_lt (@Hits.hitStatic cfg s b.src.hoist).dyn
    ((hinv.blocks b hb).hoist w hw) (hinv.disjoint w hstatic) (hdyn _ s hw hstatic)

/-- A block that is left with so many instructions done goes on elsewhere. -/
theorem stepped_of_jump {site : Site} {s₁ : Jit} (hx : Good cfg (s, .entry b))
    (hsup : Supported cfg.size (budget (s, .entry b)) (view (s, .entry b))) (hk : 0 < k)
    (hpaid : s.budget.toNat = k + s₁.budget.toNat)
    (hrun : interpRun cfg.size k (s.mem, b.start) = some (s₁.mem, site.target b.start))
    (hinv : s₁.Inv cfg) (hjump : Jumps cfg s₁ b.start site s' p) :
    Stepped cfg (s, .entry b) (s', p) := by
  have hlt : s.budget.toNat < 2 ^ 63 := hx.lt
  have hnext : Supported cfg.size s₁.budget.toNat (s₁.mem, site.target b.start) := by
    refine hereditary_supported cfg.size k _ _ _ ?_ hrun
    rwa [← hpaid]
  have hgone := gone_of_jumps hjump hinv (by omega) hnext.here
  refine stepped_of_run hgone.good ?_ hk ?_
  · rw [hgone.budget]
    exact hpaid
  · rw [hgone.view]
    exact hrun

/-- The tests at the entry of a block. -/
theorem stepped_of_passes (hx : Good cfg (s, .entry b)) (h : Passes s b) :
    b.Valid cfg.size s ∧ b.n ≤ s.budget.toNat ∧ s.budget.toNat < 2 ^ 63 := by
  have hvalid := hx.inv.blocks b (hx.block b rfl)
  exact ⟨hvalid, le_of_slt hvalid.toMade hx.lt h.budget, hx.lt⟩

/-- What a block that has run leaves. -/
theorem ran_from_entry {M₀ M M' : State} {e : Exit} (hx : Good cfg (s, .entry b))
    (hsup : Supported cfg.size (budget (s, .entry b)) (view (s, .entry b))) (h : Passes s b)
    (hstart : s.Starts M₀)
    (hleaves : Translator.LeavesBlock b.src s.maps b.start b.n b.setup.cache M₀ e M)
    (hleave : leave s.maps b.setup.useMovbe b.start e M = some (M', eip)) :
    Ran cfg s b e M'.mem eip := by
  obtain ⟨hvalid, hle, -⟩ := stepped_of_passes hx h
  refine ran_of_leavesBlock hvalid hx.inv.pages h hstart hleaves hleave (hsup.noFault hle) ?_
  intro j hj m p hrun
  exact hsup.own j (Nat.lt_of_lt_of_le hj hle) m p hrun

/-- A block that stops at a store takes that instruction with the interpreter. -/
theorem stepped_of_smc {mem : Memory} {m : Smc} (hx : Good cfg (s, .entry b)) (h : Passes s b)
    (hran : Ran cfg s b (.smc m) mem eip)
    (hinterp : ({ s with mem }.back eip
      (s.budget - b.size + BitVec.ofInt 64 (b.n - m.idx))).interpStep cfg = some s') :
    Stepped cfg (s, .entry b) (s', .top) := by
  obtain ⟨hvalid, hle, hlt⟩ := stepped_of_passes hx h
  have hidx : m.idx < b.n := hran.smc m rfl
  have hback := toNat_giveBack hvalid.toMade hle (Nat.le_of_lt hidx) (z := b.n - m.idx) rfl
  obtain ⟨hrun, hbudget, -, hinv⟩ := interpStep_spec hinterp
  have hkeeps : Jit.Inv cfg { s with mem } := hx.inv.congr hran.keeps rfl rfl rfl rfl rfl
  have hpaid : s.budget.toNat = m.idx + 1 + s'.budget.toNat := by
    rw [hbudget]
    show _ = _ + (s.budget - b.size + BitVec.ofInt 64 (b.n - m.idx) - 1).toNat
    generalize s.budget - b.size + BitVec.ofInt 64 (b.n - m.idx) = v at hback
    bv_omega
  refine stepped_of_run (k := m.idx + 1) ⟨hinv (hkeeps.back _ _), ?_, fun _ hp => by cases hp⟩
    hpaid (Nat.succ_pos _) ?_
  · exact lt_of_le_of_lt (hpaid ▸ Nat.le_add_left _ _) hlt
  · have hfirst : interpRun cfg.size m.idx (s.mem, b.start) = some (mem, eip) := hran.run
    show interpRun cfg.size (m.idx + 1) (s.mem, b.start) = some (s'.mem, s'.eip)
    rw [interpRun_add, hfirst, Option.bind_some, interpRun_one]
    exact hrun

/-- What a block that ends at a branch has paid. -/
theorem paid_of_stub {mem : Memory} {x : Stub} (hx : Good cfg (s, .entry b)) (h : Passes s b)
    (hran : Ran cfg s b (.stub x) mem eip) :
    s.budget.toNat = x.idx + 1 + (s.budget - b.size + (Site.branch x).left b.n).toNat := by
  obtain ⟨hvalid, hle, -⟩ := stepped_of_passes hx h
  have hidx : x.idx + 1 ≤ b.n := hran.le
  have hback : (s.budget - b.size + (Site.branch x).left b.n).toNat =
      s.budget.toNat - (x.idx + 1) := toNat_giveBack hvalid.toMade hle hidx (by omega)
  omega

theorem stepped_of_computed {mem : Memory} {x : Stub} (hx : Good cfg (s, .entry b))
    (h : Passes s b) (hran : Ran cfg s b (.stub x) mem eip) :
    Stepped cfg (s, .entry b)
      ({ s with mem }.back eip (s.budget - b.size + (Site.branch x).left b.n), .top) := by
  obtain ⟨-, -, hlt⟩ := stepped_of_passes hx h
  have hpaid := paid_of_stub hx h hran
  have hkeeps : Jit.Inv cfg { s with mem } := hx.inv.congr hran.keeps rfl rfl rfl rfl rfl
  refine stepped_of_run (k := x.idx + 1) ⟨hkeeps.back _ _, ?_, fun _ hp => by cases hp⟩ hpaid
    (Nat.succ_pos _) hran.run
  exact lt_of_le_of_lt (hpaid ▸ Nat.le_add_left _ _) hlt

theorem stepped_of_branch {mem : Memory} {x : Stub} (hx : Good cfg (s, .entry b))
    (hsup : Supported cfg.size (budget (s, .entry b)) (view (s, .entry b))) (h : Passes s b)
    (hran : Ran cfg s b (.stub x) mem x.target)
    (hjump : Jumps cfg { s with mem, budget := s.budget - b.size + (Site.branch x).left b.n }
      b.start (.branch x) s' p) : Stepped cfg (s, .entry b) (s', p) := by
  have hpaid := paid_of_stub hx h hran
  have hkeeps : Jit.Inv cfg
      { s with mem, budget := s.budget - b.size + (Site.branch x).left b.n } :=
    hx.inv.congr hran.keeps rfl rfl rfl rfl rfl
  have hrun : interpRun cfg.size (x.idx + 1) (s.mem, b.start) =
      some (mem, (Site.branch x).target b.start) := hran.run
  exact stepped_of_jump hx hsup (Nat.succ_pos _) hpaid hrun hkeeps hjump

/-- A call of `jit_copy` that copies, and the entry again. -/
theorem stepped_of_copied {desc : Desc} {n : Word} {mem : Memory} (hx : Good cfg (s, .entry b))
    (h : Passes s b) (hcopy : b.copy = some desc)
    (hcopied : Copied cfg s b (s.budget - b.size) n false mem) (hn : n ≠ 0) :
    Stepped cfg (s, .entry b)
      ({ s with mem, budget := s.budget - b.size - (19 * n - 19) }, .entry b) := by
  obtain ⟨hvalid, hle, hlt⟩ := stepped_of_passes hx h
  have hpaid := toNat_copied (hvalid.loop desc hcopy).n hle hn hcopied.le
  have hpos : n.toNat ≠ 0 := fun h0 => hn (BitVec.eq_of_toNat_eq h0)
  have hkeeps : Jit.Inv cfg { s with mem, budget := s.budget - b.size - (19 * n - 19) } :=
    hx.inv.congr hcopied.keeps rfl rfl rfl rfl rfl
  refine stepped_of_run (k := 19 * n.toNat) ⟨hkeeps, ?_, ?_⟩ hpaid (by omega) hcopied.run
  · exact lt_of_le_of_lt (hpaid ▸ Nat.le_add_left _ _) hlt
  · rintro _ ⟨⟩
    exact hx.block b rfl

/-- A call of `jit_copy` that does the rest of the loop. -/
theorem stepped_of_copiedAll {desc : Desc} {n : Word} {mem : Memory} (hx : Good cfg (s, .entry b))
    (hsup : Supported cfg.size (budget (s, .entry b)) (view (s, .entry b))) (h : Passes s b)
    (hcopy : b.copy = some desc)
    (hcopied : Copied cfg s b (s.budget - b.size) n true mem) (hn : n ≠ 0)
    (hjump : Jumps cfg
      { s with mem, budget := s.budget - b.size - (19 * n - 19) + Site.copy.left b.n }
      b.start .copy s' p) : Stepped cfg (s, .entry b) (s', p) := by
  obtain ⟨hvalid, hle, hlt⟩ := stepped_of_passes hx h
  have hloop := (hvalid.loop desc hcopy).n
  have hpos : n.toNat ≠ 0 := fun h0 => hn (BitVec.eq_of_toNat_eq h0)
  have hleft : ∀ w : Word, w + Site.copy.left b.n = w := by
    intro w
    rw [hloop]
    exact BitVec.add_zero w
  have hpaid := toNat_copied hloop hle hn hcopied.le
  have hkeeps : Jit.Inv cfg
      { s with mem, budget := s.budget - b.size - (19 * n - 19) + Site.copy.left b.n } :=
    hx.inv.congr hcopied.keeps rfl rfl rfl rfl rfl
  refine stepped_of_jump (k := 19 * n.toNat) hx hsup (by omega) ?_ hcopied.run hkeeps hjump
  show _ = _ + (s.budget - b.size - (19 * n - 19) + Site.copy.left b.n).toNat
  rw [hleft]
  exact hpaid

theorem stepped_from_entry (hx : Good cfg (s, .entry b))
    (hsup : Supported cfg.size (budget (s, .entry b)) (view (s, .entry b)))
    (h : Step cfg (s, .entry b) y) : Stepped cfg (s, .entry b) y := by
  have hmem := hx.block b rfl
  have hvalid := hx.inv.blocks b hmem
  have hlt : s.budget.toNat < 2 ^ 63 := hx.lt
  cases h with
  | spent hspent =>
      refine stepped_of_view ⟨hx.inv.back _ _, hlt, fun _ hp => by cases hp⟩ rfl rfl
        (rank_lt (fun _ => id) ?_)
      rw [stage_short (lt_of_slt hvalid.toMade hlt hspent)]
      exact Nat.lt_succ_self 2
  | watched hbudget _ =>
      refine stepped_of_view ⟨hx.inv.back _ _, hlt, fun _ hp => by cases hp⟩ rfl rfl
        (rank_lt (fun _ => id) ?_)
      rw [stage_entry (le_of_slt hvalid.toMade hlt hbudget)]
      exact Nat.one_pos
  | hoisted _ _ hhoist =>
      rw [lookup_of_mem hx.inv.unique hmem]
      have hback := hx.inv.back b.start s.budget
      have hhits := @Hits.hitStatic cfg (s.back b.start s.budget) b.src.hoist
      have hb := congrArg BitVec.toNat hhits.budget
      exact stepped_of_view ⟨hhits.inv hback, lt_of_eq_of_lt hb hlt, fun _ hp => by cases hp⟩ hb
        (Prod.ext hhits.mem hhits.eip) (Prod.Lex.left _ _ (undyn_hoisted hback hmem hhoist))
  | copied h hcopy hjit hn =>
      exact stepped_of_copied hx h hcopy
        (copied_of_jitCopy hvalid hx.inv.pages h.hoist hcopy hjit hn) hn
  | copiedAll h hcopy hjit hn hjump =>
      exact stepped_of_copiedAll hx hsup h hcopy
        (copied_of_jitCopy hvalid hx.inv.pages h.hoist hcopy hjit hn) hn hjump
  | smc h _ hstart hleaves hleave hinterp =>
      exact stepped_of_smc hx h (ran_from_entry hx hsup h hstart hleaves hleave) hinterp
  | computed h _ hstart _ hleaves hleave =>
      exact stepped_of_computed hx h (ran_from_entry hx hsup h hstart hleaves hleave)
  | branch h _ hstart hdyn hleaves hleave hjump =>
      have hran := ran_from_entry hx hsup h hstart hleaves hleave
      rw [leave_branch hleave hdyn] at hran
      exact stepped_of_branch hx hsup h hran hjump

/-- A step of the dispatcher is so many steps of the interpreter as it takes from the
budget, or it gets nearer to one that takes some. -/
theorem stepped (hx : Good cfg x) (hsup : Supported cfg.size (budget x) (view x))
    (h : Step cfg x y) : Stepped cfg x y := by
  obtain ⟨s, p⟩ := x
  cases p with
  | top => exact stepped_from_top hx hsup h
  | entry b => exact stepped_from_entry hx hsup h
  | returned => cases h

end Dispatcher
end SubleqEmu
