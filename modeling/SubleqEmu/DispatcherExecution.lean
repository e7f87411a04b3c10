import SubleqEmu.DispatcherModel

/-!
# Executing the dispatcher

The dispatcher with what its model leaves open decided: no block is due for a check,
nothing is flushed, there is a record for every link, and registers are zero when a block
is entered.  What it does then is one of the runs of the model.
-/

namespace SubleqEmu
namespace Dispatcher

open ByteMemory Subleq Emitter Machine
open CopyLoop (jitCopy)
open CopyGuard (jitMaxBlock)
open Translator (leave translateBody)

section Execution

variable (cfg : Config)

def defaultSetup : Setup := ⟨true, 0, 0, 0⟩

namespace Jit

variable (s : Jit)

/-! ## Passes -/

def fetch (a : Word) : Option (Option Block × Jit) :=
  if Translates cfg a then (s.translate cfg defaultSetup a).map fun r => (some r.1, r.2)
  else some (none, s)

def find : Option (Option Block × Jit) :=
  match s.lookup s.eip with
  | some b => some (some b, s)
  | none =>
      if s.strong ∨ s.weakSteps ≥ BitVec.ofNat 32 jitMaxBlock then s.fetch cfg s.eip
      else some (none, s)

def jump (start : Word) (site : Site) : Option (Jit × Point) :=
  match s.lookup (site.target start) with
  | some t =>
      if (start, site) ∈ s.links then some (s, .entry t)
      else some ({ s.back (site.target start) s.budget with
        links := (start, site) :: s.links }, .top)
  | none =>
      if (start, site) ∈ s.links then none
      else
        ((s.back (site.target start) s.budget).fetch cfg (site.target start)).map fun r =>
          ({ r.2 with links := if r.1.isSome then (start, site) :: r.2.links else r.2.links },
            .top)

/-- A step of the interpreter, unless the budget is used up. -/
def interpretMore : Option (Jit × Point) :=
  if s.budget = 0 then some (s, .returned) else (s.interpret cfg).map fun s' => (s', .top)

def dispatch : Option (Jit × Point) :=
  (s.find cfg).bind fun r =>
    match r.1 with
    | none => r.2.interpretMore cfg
    | some b =>
        if b.size ≤ r.2.budget then some (r.2, .entry b)
        else if cfg.exact then r.2.interpretMore cfg
        else some (r.2, .returned)

/-- The instructions of a block, and what follows its exit. -/
def body (b : Block) : Option (Jit × Point) :=
  (translateBody b.src b.start b.n b.setup.cache).bind fun r =>
    match exec (step s.maps) r.2.2 ⟨fun _ => 0, none, s.mem, []⟩ with
    | .exit e M =>
        (leave s.maps b.setup.useMovbe b.start e M).bind fun l =>
          match e with
          | .smc m =>
              (({ s with mem := l.1.mem }.back l.2
                (s.budget - b.size + BitVec.ofInt 64 (b.n - m.idx))).interpStep cfg).map
                fun s' => (s', .top)
          | .stub x =>
              if x.dyn then
                some ({ s with mem := l.1.mem }.back l.2
                  (s.budget - b.size + (Site.branch x).left b.n), .top)
              else
                { s with
                  mem := l.1.mem
                  budget := s.budget - b.size + (Site.branch x).left b.n }.jump cfg b.start
                  (.branch x)
    | _ => none

def enter (b : Block) : Option (Jit × Point) :=
  if s.budget.slt b.size then some (s.back b.start s.budget, .top)
  else if b.watchChanged s.mem then some (s.back b.start s.budget, .returned)
  else if b.src.hoist.any s.staticMap then
    some (match s.lookup b.start with
      | none => s.back b.start s.budget
      | some f => (s.back b.start s.budget).hitStatic f.src.hoist, .top)
  else
    match b.copy with
    | none => s.body cfg b
    | some desc =>
        (jitCopy cfg.size s.pageMap cfg.copyFn desc (s.budget - b.size) s.mem).bind fun r =>
          if r.1.n = 0 then s.body cfg b
          else if r.1.done then
            { s with
              mem := r.2
              budget := s.budget - b.size - (19 * r.1.n - 19) + Site.copy.left b.n }.jump cfg
              b.start .copy
          else
            some ({ s with mem := r.2, budget := s.budget - b.size - (19 * r.1.n - 19) },
              .entry b)

end Jit

def advance : Jit × Point → Option (Jit × Point)
  | (s, .top) => s.dispatch cfg
  | (s, .entry b) => s.enter cfg b
  | (_, .returned) => none

/-- So many passes. -/
def advances : ℕ → Jit × Point → Option (Jit × Point)
  | 0, x => some x
  | k + 1, x => (advance cfg x).bind (advances k)

end Execution

/-! ## They are passes of the model -/

section Sound

variable {cfg : Config} {s s' : Jit} {a : Word} {b : Block} {o : Option Block} {p : Point}
  {x y : Jit × Point}

theorem fetches_of_fetch (h : s.fetch cfg a = some (o, s')) : Fetches cfg s a o s' false := by
  unfold Jit.fetch at h
  split_ifs at h with htranslates
  · obtain ⟨⟨b, s₁⟩, hmade, heq⟩ := Option.map_eq_some_iff.mp h
    obtain ⟨rfl, rfl⟩ := Prod.mk.inj heq
    exact .made defaultSetup false htranslates hmade
  · obtain ⟨rfl, rfl⟩ := Prod.mk.inj (Option.some.inj h)
    exact .refused htranslates

theorem finds_of_find (h : s.find cfg = some (o, s')) : Finds cfg s o s' := by
  unfold Jit.find at h
  cases hlookup : s.lookup s.eip with
  | some b =>
      rw [hlookup] at h
      obtain ⟨rfl, rfl⟩ := Prod.mk.inj (Option.some.inj h)
      exact .found hlookup
  | none =>
      rw [hlookup] at h
      simp only at h
      split_ifs at h with hstrong
      · exact .fetched hlookup hstrong (fetches_of_fetch h)
      · obtain ⟨rfl, rfl⟩ := Prod.mk.inj (Option.some.inj h)
        exact .weak hlookup hstrong

theorem jumps_of_jump {start : Word} {site : Site}
    (h : s.jump cfg start site = some (s', p)) : Jumps cfg s start site s' p := by
  unfold Jit.jump at h
  cases hlookup : s.lookup (site.target start) with
  | some t =>
      rw [hlookup] at h
      simp only at h
      split_ifs at h with hlink
      · obtain ⟨rfl, rfl⟩ := Prod.mk.inj (Option.some.inj h)
        exact .linked hlink hlookup
      · obtain ⟨rfl, rfl⟩ := Prod.mk.inj (Option.some.inj h)
        exact .found hlink hlookup true
  | none =>
      rw [hlookup] at h
      simp only at h
      split_ifs at h with hlink
      obtain ⟨⟨o, s₁⟩, hfetch, heq⟩ := Option.map_eq_some_iff.mp h
      obtain ⟨rfl, rfl⟩ := Prod.mk.inj heq
      have hjump := Jumps.fetched hlink hlookup (fetches_of_fetch hfetch) true
      simpa using hjump

theorem step_of_interpretMore {s₁ : Jit} (hfind : Finds cfg s o s₁)
    (hnone : ∀ b, o = some b → cfg.exact ∧ s₁.budget < b.size)
    (h : s₁.interpretMore cfg = some y) : Step cfg (s, .top) y := by
  unfold Jit.interpretMore at h
  split_ifs at h with hbudget
  · obtain rfl := Option.some.inj h
    exact .exhausted [] hfind hnone hbudget
  · obtain ⟨s₂, hinterp, rfl⟩ := Option.map_eq_some_iff.mp h
    exact .interpret [] hfind hnone hbudget hinterp

theorem step_of_dispatch (h : s.dispatch cfg = some y) : Step cfg (s, .top) y := by
  unfold Jit.dispatch at h
  obtain ⟨⟨o, s₁⟩, hfind, h⟩ := Option.bind_eq_some_iff.mp h
  have hfinds := finds_of_find hfind
  cases o with
  | none => exact step_of_interpretMore hfinds nofun h
  | some b =>
      simp only at h
      split_ifs at h with hbudget hexact
      · obtain rfl := Option.some.inj h
        exact .enter [] hfinds hbudget
      · refine step_of_interpretMore hfinds (fun b' hb => ?_) h
        obtain rfl := Option.some.inj hb
        exact ⟨hexact, BitVec.not_le.mp hbudget⟩
      · obtain rfl := Option.some.inj h
        exact .short [] hfinds (Bool.eq_false_iff.mpr hexact) (BitVec.not_le.mp hbudget)

theorem step_of_body (hpasses : Passes s b) (hcopy : CopiesNone cfg s b)
    (h : s.body cfg b = some y) : Step cfg (s, .entry b) y := by
  unfold Jit.body at h
  obtain ⟨⟨k, J, c⟩, htranslate, h⟩ := Option.bind_eq_some_iff.mp h
  simp only at h
  split at h
  next e M hexec =>
    have hleaves : Translator.LeavesBlock b.src s.maps b.start b.n b.setup.cache
        ⟨fun _ => 0, none, s.mem, []⟩ e M := ⟨k, J, c, htranslate, hexec⟩
    obtain ⟨⟨M', eip⟩, hleave, h⟩ := Option.bind_eq_some_iff.mp h
    cases e with
    | smc m =>
        obtain ⟨s₁, hinterp, rfl⟩ := Option.map_eq_some_iff.mp h
        exact .smc hpasses hcopy ⟨rfl, rfl⟩ hleaves hleave hinterp
    | stub x =>
        simp only at h
        split_ifs at h with hdyn
        · obtain rfl := Option.some.inj h
          exact .computed hpasses hcopy ⟨rfl, rfl⟩ hdyn hleaves hleave
        · exact .branch hpasses hcopy ⟨rfl, rfl⟩ (Bool.eq_false_iff.mpr hdyn) hleaves hleave
            (jumps_of_jump h)
  next => contradiction

theorem step_of_enter (h : s.enter cfg b = some y) : Step cfg (s, .entry b) y := by
  unfold Jit.enter at h
  split_ifs at h with hbudget hwatch hhoist
  · obtain rfl := Option.some.inj h
    exact .spent hbudget
  · obtain rfl := Option.some.inj h
    exact .watched (Bool.eq_false_iff.mpr hbudget) hwatch
  · obtain rfl := Option.some.inj h
    exact .hoisted (Bool.eq_false_iff.mpr hbudget) (Bool.eq_false_iff.mpr hwatch) hhoist
  have hpasses : Passes s b := ⟨Bool.eq_false_iff.mpr hbudget, Bool.eq_false_iff.mpr hwatch,
    Bool.eq_false_iff.mpr hhoist⟩
  cases hcopy : b.copy with
  | none =>
      rw [hcopy] at h
      refine step_of_body hpasses (fun desc hdesc => ?_) h
      rw [hcopy] at hdesc
      contradiction
  | some desc =>
      rw [hcopy] at h
      obtain ⟨⟨⟨n, done⟩, mem⟩, hjit, h⟩ := Option.bind_eq_some_iff.mp h
      simp only at h
      split_ifs at h with hn hdone
      · refine step_of_body hpasses (fun desc' hdesc => ?_) h
        obtain rfl := Option.some.inj (hcopy.symm.trans hdesc)
        exact ⟨done, mem, hn ▸ hjit⟩
      · exact .copiedAll hpasses hcopy (hdone ▸ hjit) hn (jumps_of_jump h)
      · obtain rfl := Option.some.inj h
        exact .copied hpasses hcopy (Bool.eq_false_iff.mpr hdone ▸ hjit) hn

theorem step_of_advance (h : advance cfg x = some y) : Step cfg x y := by
  obtain ⟨s, p⟩ := x
  cases p with
  | top => exact step_of_dispatch h
  | entry b => exact step_of_enter h
  | returned => contradiction

theorem steps_of_advances {k : ℕ} (h : advances cfg k x = some y) :
    Relation.ReflTransGen (Step cfg) x y := by
  induction k generalizing x with
  | zero =>
      obtain rfl := Option.some.inj h
      exact .refl
  | succ k ih =>
      obtain ⟨z, hfirst, hrest⟩ := Option.bind_eq_some_iff.mp h
      exact .head (step_of_advance hfirst) (ih hrest)

end Sound

end Dispatcher
end SubleqEmu
