import SubleqEmu.BlockCodeEntry
import SubleqEmu.TranslatorSoundness

/-!
# Running the code of a block

From its first byte the code of a block runs until it is left: to the dispatcher when a test
on entry has failed, else where the instructions go, with the memory and the place that
they leave and with what they have done taken from the budget.
-/

namespace SubleqEmu
namespace BlockCode

open X86 Emitter ByteMemory EmitterBytes BlockBuffers Parts
open CopyLoop (insnAt)
open Machine (Insn Smc Stub Maps Exit)
open Subleq (MemSize interpRun)
open Translator (Source Entered NoFault LeavesBlock Left countOf leave)

attribute [local instance] X86.neZero_sixteen BlockBuffers.neZero_eleven

variable {b : Parts} {maps : Maps} {M M' : Machine.State} {X X' X'' : X86.State} {size k : ℕ}
  {a base eip info : Word} {m : Memory} {place : Label → Word} {e : Exit} {l : Label}
  {C : Word → X86.State → X86.State → Prop} {targets : ℕ → Word}

/-! ## Where the parts are -/

/-- The finished parts of a block in memory. -/
structure Placed (b : Parts) (size : ℕ) (m : Memory) (place : Label → Word) (a : Word) :
    Prop where
  entry : Ready size m place a b.entryCode
  watch : Ready size m place (a + BitVec.ofNat 64 (codeSize b.entryCode)) b.watchCode
  hoist : Ready size m place (a + BitVec.ofNat 64 (codeSize b.entryCode) +
    BitVec.ofNat 64 (codeSize b.watchCode)) b.hoistCode
  copy : Ready size m place (a + BitVec.ofNat 64 (codeSize b.entryCode) +
    BitVec.ofNat 64 (codeSize b.watchCode) + BitVec.ofNat 64 (codeSize b.hoistCode))
      (b.desc.elim [] b.copyCode)
  body : Ready size m place (a + BitVec.ofNat 64 (codeSize b.entryCode) +
    BitVec.ofNat 64 (codeSize b.watchCode) + BitVec.ofNat 64 (codeSize b.hoistCode) +
    BitVec.ofNat 64 (codeSize (b.desc.elim [] b.copyCode)))
      (b.bodyCode 0 (b.desc.elim 0 fun _ => 1) b.body)
  budget : Ready size m place (place .budget) (b.exitCode .budget b.n 0)
  watched : ∀ w, b.host.watch = some w →
    Ready size m place (place .watch) (b.exitCode .watch b.n 3)
  hoisted : b.sites ≠ [] → Ready size m place (place .hoist) (b.exitCode .hoist b.n 2)
  smcs : ∀ n s, (smcsOf b.body)[n]? = some s →
    Ready size m place (place (.smc n)) (b.smcCode n s)
  stubs : ∀ n t, b.stubs[n]? = some t → Ready size m place (place (.stub n)) (b.stubCode n t)

theorem Ready.named {ps : Code} (h : Ready size m place a (.label l :: ps)) :
    Ready size m place (place l) (.label l :: ps) := by
  rwa [h.laid.1]

theorem ready_numbered {α : Type} {f : ℕ → α → Code} {xs : List α}
    (h : Ready size m place a (numbered f k xs)) {n : ℕ} {x : α} (hx : xs[n]? = some x) :
    ∃ a', Ready size m place a' (f (k + n) x) := by
  induction xs generalizing a k n with
  | nil => cases hx
  | cons y ys ih =>
      obtain ⟨hfirst, hrest⟩ := h.append
      cases n with
      | zero =>
          obtain rfl := Option.some.inj hx
          exact ⟨a, hfirst⟩
      | succ n =>
          obtain ⟨a', hready⟩ := ih hrest hx
          exact ⟨a', by rwa [Nat.add_right_comm] at hready⟩

theorem Ready.placed (h : Ready size m place a b.code) : Placed b size m place a := by
  have hcode : b.code = b.entryCode ++ (b.watchCode ++ (b.hoistCode ++
      (b.desc.elim [] b.copyCode ++ (b.bodyCode 0 (b.desc.elim 0 fun _ => 1) b.body ++
      (b.exitCode .budget b.n 0 ++ (b.host.watch.elim [] (fun _ => b.exitCode .watch b.n 3) ++
      (b.invCode ++ ((if b.sites = [] then [] else b.exitCode .hoist b.n 2) ++
      (numbered b.smcCode 0 (smcsOf b.body) ++ numbered b.stubCode 0 b.stubs))))))))) := by
    simp only [Parts.code, List.append_assoc]
  rw [hcode] at h
  obtain ⟨hentry, h⟩ := h.append
  obtain ⟨hwatch, h⟩ := h.append
  obtain ⟨hhoist, h⟩ := h.append
  obtain ⟨hcopy, h⟩ := h.append
  obtain ⟨hbody, h⟩ := h.append
  obtain ⟨hbudget, h⟩ := h.append
  obtain ⟨hwatched, h⟩ := h.append
  obtain ⟨-, h⟩ := h.append
  obtain ⟨hhoisted, h⟩ := h.append
  obtain ⟨hsmcs, hstubs⟩ := h.append
  refine ⟨hentry, hwatch, hhoist, hcopy, hbody, hbudget.named, ?_, ?_, ?_, ?_⟩
  · intro w hw
    rw [hw] at hwatched
    exact hwatched.named
  · intro hsites
    rw [if_neg hsites] at hhoisted
    exact hhoisted.named
  · intro n s hs
    obtain ⟨x, hready⟩ := ready_numbered hsmcs hs
    rw [Nat.zero_add] at hready
    exact hready.named
  · intro n t ht
    obtain ⟨x, hready⟩ := ready_numbered hstubs ht
    rw [Nat.zero_add] at hready
    exact hready.named

/-! ## Tests that fail -/

/-- The machine that the instructions of a block start with. -/
def started (X : X86.State) : Machine.State := ⟨fun r => X.reg (allocRegs r), none, X.mem, []⟩

theorem follows_started (hbias : X.reg r15 = Machine.bias) :
    Follows size X.mem (started X) X where
  agrees := ⟨fun _ => rfl, hbias, rfl, fun _ h => by cases h⟩
  init := rfl
  dawn := by
    intro s hs
    cases hs

/-- A way out in front of the instructions. -/
theorem exit_steps {back : BitVec 32} (hbias : X.reg r15 = Machine.bias)
    (hready : Ready size X.mem place (place l) (b.exitCode l back info)) :
    ∃ X', Steps C ⟨place l, X⟩ ⟨X.reg r12, X'⟩ ∧
      HandedBack X X' X.mem (X.reg rbp + back.signExtend 64) b.start info :=
  gives_back_exits (follows_started hbias) hready.label.2

/-- The reason to leave a block on entry. -/
def turnsBack (b : Parts) (X : X86.State) : Option Word :=
  if (X.reg rbp).slt (b.n.signExtend 64) then some 0
  else if b.host.watch.any fun w => read X.mem w.1 ≠ w.2 then some 3
  else if b.sites.any (StaticMap.testGroup X.mem (X.reg r14)) then some 2
  else none

/-- Past the test of the watched word. -/
theorem watch_part (hbias : X.reg r15 = Machine.bias) (hlaid : Laid X.mem place a b.watchCode) :
    ∃ X', Steps C ⟨a, X⟩ ⟨if b.host.watch.any fun w => read X.mem w.1 ≠ w.2 then place .watch
        else a + BitVec.ofNat 64 (codeSize b.watchCode), X'⟩ ∧
      Handed X X' X.mem (X.reg rbp) := by
  unfold watchCode at hlaid ⊢
  cases hwatch : b.host.watch with
  | none => exact ⟨X, by simpa using Relation.ReflTransGen.refl, .self X⟩
  | some w =>
      rw [hwatch] at hlaid
      obtain ⟨X', hsteps, hhanded⟩ := watch_steps (C := C) hbias hlaid
      refine ⟨X', ?_, hhanded⟩
      simpa [Piece.size] using hsteps

/-- Past the tests on entry, or back in the dispatcher. -/
def Tested (b : Parts) (X X' : X86.State) (past x : Word) : Option Word → Prop
  | some info => x = X.reg r12 ∧ HandedBack X X' X.mem (X.reg rbp) b.start info
  | none => x = past ∧ Handed X X' X.mem (X.reg rbp - b.n.signExtend 64)

/-- The tests on entry, in the order of the code. -/
theorem tests_steps (h : Placed b size X.mem place a) (hbias : X.reg r15 = Machine.bias) :
    ∃ x X', Steps C ⟨a, X⟩ ⟨x, X'⟩ ∧ Tested b X X' (a + BitVec.ofNat 64 (codeSize b.entryCode) +
      BitVec.ofNat 64 (codeSize b.watchCode) + BitVec.ofNat 64 (codeSize b.hoistCode)) x
      (turnsBack b X) := by
  have hback : ∀ {X₁ : X86.State} {l : Label} {info : Word}, Steps C ⟨a, X⟩ ⟨place l, X₁⟩ →
      Handed X X₁ X.mem (X.reg rbp - b.n.signExtend 64) →
      Ready size X.mem place (place l) (b.exitCode l b.n info) →
      ∃ x X', Steps C ⟨a, X⟩ ⟨x, X'⟩ ∧
        x = X.reg r12 ∧ HandedBack X X' X.mem (X.reg rbp) b.start info := by
    intro X₁ l info hsteps hhanded hready
    rw [← hhanded.mem] at hready
    obtain ⟨X₂, hsteps', hexit⟩ := exit_steps (C := C) (hhanded.bias.trans hbias) hready
    rw [hhanded.exit] at hsteps'
    rw [hhanded.budget, BitVec.sub_add_cancel, hhanded.mem] at hexit
    exact ⟨_, X₂, hsteps.trans hsteps', rfl, hexit.after hhanded⟩
  obtain ⟨X₁, hsteps₁, hhanded₁⟩ := entry_steps (C := C) h.entry.laid
  unfold turnsBack
  by_cases hbudget : (X.reg rbp).slt (b.n.signExtend 64)
  · rw [if_pos hbudget] at hsteps₁ ⊢
    exact hback hsteps₁ hhanded₁ h.budget
  rw [if_neg hbudget] at hsteps₁ ⊢
  have hlaid := h.watch.laid
  rw [← hhanded₁.mem] at hlaid
  obtain ⟨X₂, hsteps₂, hhanded₂⟩ := watch_part (C := C) (hhanded₁.bias.trans hbias) hlaid
  rw [hhanded₁.mem] at hsteps₂ hhanded₂
  rw [hhanded₁.budget] at hhanded₂
  by_cases hwatch : b.host.watch.any fun w => read X.mem w.1 ≠ w.2
  · rw [if_pos hwatch] at hsteps₂ ⊢
    obtain ⟨w, hw, -⟩ := (Option.any_eq_true _ _).mp hwatch
    exact hback (hsteps₁.trans hsteps₂) (hhanded₁.trans hhanded₂) (h.watched w hw)
  rw [if_neg hwatch] at hsteps₂ ⊢
  have hhanded := hhanded₁.trans hhanded₂
  have hlaid' := h.hoist.laid
  rw [← hhanded.mem] at hlaid'
  obtain ⟨X₃, hsteps₃, hhanded₃⟩ := hoist_steps (C := C) hlaid'
  rw [hhanded.mem, hhanded.maps] at hsteps₃
  rw [hhanded.mem, hhanded.budget] at hhanded₃
  by_cases hhoist : b.sites.any (StaticMap.testGroup X.mem (X.reg r14))
  · rw [if_pos hhoist] at hsteps₃ ⊢
    refine hback ((hsteps₁.trans hsteps₂).trans hsteps₃) (hhanded.trans hhanded₃) (h.hoisted ?_)
    intro hnil
    simp [hnil] at hhoist
  rw [if_neg hhoist] at hsteps₃ ⊢
  exact ⟨_, X₃, (hsteps₁.trans hsteps₂).trans hsteps₃, rfl, hhanded.trans hhanded₃⟩

/-! ## The instructions and the way out -/

theorem signExtend_small {v : BitVec 32} (h : v.toNat < 2 ^ 31) :
    v.signExtend 64 = BitVec.ofNat 64 v.toNat := by
  have hmsb : v.msb = false := by
    rw [BitVec.msb_eq_decide]
    simp only [decide_eq_false_iff_not]
    omega
  rw [BitVec.signExtend_eq_setWidth_of_msb_false hmsb]
  bv_omega

/-- What is given back leaves the instructions that were run taken. -/
theorem budget_left {n : BitVec 32} {j : ℕ} (v : Word) (hn : n.toNat < 2 ^ 31) (hj : j ≤ n.toNat) :
    v - n.signExtend 64 + (n - BitVec.ofNat 32 j).signExtend 64 = v - BitVec.ofNat 64 j := by
  have hsub : (n - BitVec.ofNat 32 j).toNat = n.toNat - j := by bv_omega
  rw [signExtend_small hn, signExtend_small (by omega), hsub]
  bv_omega

/-- Where a block is left with `mem`, after so many instructions. -/
def LeftTo (b : Parts) (C : Word → X86.State → X86.State → Prop) (place : Label → Word)
    (budget : Word) (X X' : X86.State) (x : Word) (mem : Memory) (eip : Word) : Exit → Prop
  | .smc s => x = X.reg r12 ∧ HandedBack X X' mem (budget - BitVec.ofNat 64 s.idx) eip 1
  | .stub t =>
      if t.dyn then
        x = X.reg r12 ∧ HandedBack X X' mem (budget - BitVec.ofNat 64 (t.idx + 1)) eip 0
      else
        ∃ k, b.stubs[k]? = some t ∧ eip = t.target ∧ x = place (.target k) ∧
          Handed X X' mem (budget - BitVec.ofNat 64 (t.idx + 1)) ∧
          -- a jump that is not linked
          (place (.target k) = place (.slow k) → ∃ X'', Steps C ⟨x, X'⟩ ⟨X.reg r12, X''⟩ ∧
            HandedBack X X'' mem (budget - BitVec.ofNat 64 (t.idx + 1)) eip (place (.site k)))

theorem stub_ends {t : Stub} (h : Follows size m M X)
    (hready : Ready size m place (place (.stub k)) (b.stubCode k t))
    (hleave : leave maps b.useMovbe b.start (.stub t) M = some (M', eip))
    (hdawn : InDawn size M'.stores) (hdyn : t.dyn = false) :
    ∃ X', Steps C ⟨place (.stub k), X⟩ ⟨place (.target k), X'⟩ ∧
      Handed X X' M'.mem (X.reg rbp + (b.unexec t).signExtend 64) ∧
      (place (.target k) = place (.slow k) →
        ∃ X'', Steps C ⟨place (.target k), X'⟩ ⟨X.reg r12, X''⟩ ∧ HandedBack X X'' M'.mem
          (X.reg rbp + (b.unexec t).signExtend 64) eip (place (.site k))) := by
  obtain ⟨x, X₁, hsteps, hlaid, hhanded, -⟩ := stub_leaves (C := C) h hready hleave hdawn
  have heip := (leave_stub hleave).2
  rw [hdyn] at hlaid heip
  refine ⟨X₁, hsteps.tail (slow_jumps hlaid), hhanded, fun hslow => ?_⟩
  obtain ⟨X₂, hsteps', hback⟩ := slow_exits (C := C) hlaid
  rw [hhanded.exit, ← hslow] at hsteps'
  rw [hhanded.mem, hhanded.budget, ← heip] at hback
  exact ⟨X₂, hsteps', hback.after hhanded⟩

theorem LeftTo.after {budget budget' x : Word} {mem mem' : Memory}
    (h : LeftTo b C place budget X' X'' x mem' eip e) (h' : Handed X X' mem budget') :
    LeftTo b C place budget X X'' x mem' eip e := by
  cases e with
  | smc s =>
      obtain ⟨rfl, hback⟩ := h
      exact ⟨h'.exit, hback.after h'⟩
  | stub t =>
      simp only [LeftTo] at h ⊢
      split_ifs at h ⊢ with hdyn
      · obtain ⟨rfl, hback⟩ := h
        exact ⟨h'.exit, hback.after h'⟩
      · obtain ⟨k, hk, heip, hx, hhanded, hslow⟩ := h
        refine ⟨k, hk, heip, hx, h'.trans hhanded, fun hplace => ?_⟩
        obtain ⟨X₁, hsteps, hback⟩ := hslow hplace
        rw [h'.exit] at hsteps
        exact ⟨X₁, hsteps, hback.after h'⟩

theorem leave_grows {useMovbe : Bool} {start : Word}
    (h : leave maps useMovbe start e M = some (M', eip)) : Grows M M' := by
  cases e with
  | smc s => exact exec_run_grows (leave_smc h).1
  | stub t => exact exec_run_grows (leave_stub h).1

/-- The instructions, with a budget that they have been taken from. -/
theorem body_leaves {budget : Word} (hplaced : Placed b size X.mem place a)
    (hbias : X.reg r15 = Machine.bias) (hbudget : X.reg rbp = budget - b.n.signExtend 64)
    (hmaps : MapsRead maps size X.mem (X.reg r14) b.host.pageOff)
    (hchecked : Checked size maps b.body (started X))
    (hexec : exec (Machine.step maps) b.body (started X) = .exit e M)
    (hleave : leave maps b.useMovbe b.start e M = some (M', eip))
    (hdawn : InDawn size M'.stores) (hn : b.n.toNat < 2 ^ 31) (hcount : countOf e ≤ b.n.toNat) :
    ∃ x X', Steps C ⟨a + BitVec.ofNat 64 (codeSize b.entryCode) +
        BitVec.ofNat 64 (codeSize b.watchCode) + BitVec.ofNat 64 (codeSize b.hoistCode) +
        BitVec.ofNat 64 (codeSize (b.desc.elim [] b.copyCode)), X⟩ ⟨x, X'⟩ ∧
      LeftTo b C place budget X X' x M'.mem eip e := by
  have hend : AtEnd (fun M' => InDawn size M'.stores)
      (exec (Machine.step maps) b.body (started X)) := by
    rw [hexec]
    exact .of_grows (leave_grows hleave) hdawn
  have harrives := body_arrives (C := C) (follows_started hbias) hmaps hchecked hplaced.body
    (fun n s hs => by simpa using hplaced.smcs n s hs) hend
  rw [hexec] at harrives
  cases e with
  | smc s =>
      obtain ⟨-, x, htail, X₁, hsteps, hfollow, hspare⟩ := harrives
      have hhanded := hfollow.handed hspare
      obtain ⟨X₂, hsteps', hexit⟩ := smcTail_exits (C := C) hfollow htail hleave hdawn
      rw [hhanded.exit] at hsteps'
      rw [hhanded.budget, hbudget, budget_left (j := s.idx) budget hn hcount] at hexit
      exact ⟨_, X₂, hsteps.trans hsteps', rfl, hexit.after hhanded⟩
  | stub t =>
      obtain ⟨n, hget, X₁, hsteps, hfollow, hspare⟩ := harrives
      have hhanded := hfollow.handed hspare
      have hstub : b.stubs[b.desc.elim 0 (fun _ => 1) + n]? = some t := by
        cases hdesc : b.desc <;> simp [stubs, hdesc, hget, Nat.add_comm]
      have hready := hplaced.stubs _ t hstub
      have hunexec : b.unexec t = b.n - BitVec.ofNat 32 (t.idx + 1) := by
        unfold unexec
        bv_omega
      have hback : X₁.reg rbp + (b.unexec t).signExtend 64 =
          budget - BitVec.ofNat 64 (t.idx + 1) := by
        rw [hhanded.budget, hbudget, hunexec]
        exact budget_left budget hn hcount
      simp only [LeftTo]
      cases hdyn : t.dyn with
      | true =>
          obtain ⟨X₂, hsteps', hexit⟩ := stub_exits (C := C) hfollow hdyn hready hleave hdawn
          rw [hhanded.exit] at hsteps'
          rw [hback] at hexit
          exact ⟨_, X₂, hsteps.trans hsteps', rfl, hexit.after hhanded⟩
      | false =>
          have heip := (leave_stub hleave).2
          rw [hdyn] at heip
          obtain ⟨X₂, hsteps', hend, hslow⟩ :=
            stub_ends (C := C) hfollow hready hleave hdawn hdyn
          rw [hback] at hend hslow
          refine ⟨_, X₂, hsteps.trans hsteps', _, hstub, heip, rfl, hhanded.trans hend, ?_⟩
          intro hplace
          obtain ⟨X₃, hsteps'', hexit⟩ := hslow hplace
          rw [hhanded.exit] at hsteps''
          exact ⟨X₃, hsteps'', hexit.after hhanded⟩

/-! ## The whole block -/

/-- A call of `jit_copy` that leaves the loop to the block. -/
def CopiesNone (b : Parts) (C : Word → X86.State → X86.State → Prop) (m : Memory) : Prop :=
  ∀ desc X, b.desc = some desc → X.mem = m →
    ∃ X', C b.host.jitCopy (copyEntry b desc X) X' ∧ Handed X X' m (X.reg rbp) ∧ X'.reg rax = 0

theorem copy_part (hcopies : CopiesNone b C X.mem)
    (hlaid : Laid X.mem place a (b.desc.elim [] b.copyCode)) :
    ∃ X', Steps C ⟨a, X⟩ ⟨a + BitVec.ofNat 64 (codeSize (b.desc.elim [] b.copyCode)), X'⟩ ∧
      Handed X X' X.mem (X.reg rbp) := by
  cases hdesc : b.desc with
  | none => exact ⟨X, by simpa using Relation.ReflTransGen.refl, .self X⟩
  | some desc =>
      rw [hdesc] at hlaid
      obtain ⟨X₁, hcall, hhanded, hrax⟩ := hcopies desc X hdesc rfl
      have hsteps := copy_calls hcall hlaid
      simp only [Option.elim_some] at hlaid ⊢
      rw [← hhanded.mem] at hlaid
      obtain ⟨X₂, hsteps', hhanded'⟩ := copy_returns (C := C) hlaid
      rw [if_pos hrax] at hsteps' hhanded'
      rw [hhanded.mem, hhanded.budget] at hhanded'
      exact ⟨X₂, hsteps.trans hsteps', hhanded.trans hhanded'⟩

/-- The code of a block as `translate` has written it, with its jumps patched. -/
structure Written (b : Parts) (base : Word) (targets : ℕ → Word) (m : Memory) : Prop where
  bytes : ∃ m₀, Holds m₀ base b.bytes ∧
    m = patched (BlockCode.place b.code base targets) m₀ (sites base b.code)
  short : b.bytes.length < 2 ^ 31
  near : ∀ k s, (s, .target k) ∈ sites base b.code → Near s (targets k)

theorem Written.ready (h : Written b base targets m) (hbeyond : Beyond size b.bytes.length base) :
    Ready size m (BlockCode.place b.code base targets) base b.code := by
  obtain ⟨m₀, hheld, rfl⟩ := h.bytes
  refine ⟨laid_code hheld h.short h.near, ?_⟩
  rwa [← length_blank, blank_code]

end BlockCode
end SubleqEmu
