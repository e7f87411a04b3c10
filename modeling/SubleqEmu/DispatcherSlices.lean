import SubleqEmu.DispatcherRuns
import SubleqEmu.TranslatorDemand

/-!
# The loop of the boot CPU

`subleq` on CPU 0 calls `jit_run` over and over, each time from where it returned, and
never sets a watch.
-/

namespace SubleqEmu
namespace Dispatcher

open ByteMemory Subleq BudgetSimulation
open CopyGuard (jitMaxBlock touchedWords)
open CopyLoop (insnAt)
open Emitter (bind_eq_some)

variable {cfg : Config} {s s' : Jit} {b : Block} {a : Word} {o : Option Block} {x y : Jit × Point}
  {k n : ℕ} {mem : Memory}

/-! ## Watches -/

/-- No watch is set, and none was when a block was made. -/
structure Jit.Unwatched (s : Jit) : Prop where
  watch : s.watch = none
  table : ∀ b ∈ s.table, b.watch = none

theorem Jit.Unwatched.hits (h : s.Unwatched) (hhits : Hits cfg s s') : s'.Unwatched where
  watch := hhits.watch.trans h.watch
  table b hb := h.table b (hhits.table.subset hb)

theorem Jit.Unwatched.congr (h : s.Unwatched) (hwatch : s'.watch = s.watch)
    (htable : s'.table = s.table) : s'.Unwatched where
  watch := hwatch.trans h.watch
  table := htable ▸ h.table

theorem Jit.Unwatched.fetches {flushed : Bool} (h : s.Unwatched)
    (hfetch : Fetches cfg s a o s' flushed) : s'.Unwatched := by
  cases hfetch with
  | refused _ => exact h
  | made setup _ _ hmade =>
      have hflush : (if flushed = true then s.flush else s).Unwatched := by
        split_ifs
        · exact h.hits (@Hits.flush cfg s)
        · exact h
      obtain ⟨T, -, heq⟩ := Option.map_eq_some_iff.mp hmade
      obtain ⟨rfl, rfl⟩ := Prod.mk.inj heq
      refine ⟨hflush.watch, fun b hb => ?_⟩
      rcases List.mem_cons.mp hb with rfl | hb
      · exact hflush.watch
      · exact hflush.table b hb

theorem Jit.Unwatched.finds (h : s.Unwatched) (hfind : Finds cfg s o s') : s'.Unwatched := by
  cases hfind with
  | found _ => exact h
  | weak _ _ => exact h
  | fetched _ _ hfetch => exact h.fetches hfetch

theorem Jit.Unwatched.checks (h : s.Unwatched) (cfg : Config) (checked : List Word) :
    (checked.foldl Jit.revalidateAt s).Unwatched :=
  h.hits (.foldl (@Hits.revalidateAt cfg) checked s)

theorem Jit.Unwatched.jumps {start : Word} {site : Site} {p : Point} (h : s.Unwatched)
    (hjump : Jumps cfg s start site s' p) : s'.Unwatched := by
  cases hjump with
  | linked _ _ => exact h
  | found _ _ _ => exact h.congr rfl rfl
  | @fetched _ s₁ _ _ _ hfetch _ =>
      have hback : (s.back (site.target start) s.budget).Unwatched := h.congr rfl rfl
      exact (hback.fetches hfetch).congr rfl rfl

theorem Jit.Unwatched.interpStep (h : s.Unwatched) (hstep : s.interpStep cfg = some s') :
    s'.Unwatched := by
  simp only [Jit.interpStep, Option.bind_eq_bind, Option.bind_eq_some_iff] at hstep
  obtain ⟨_, -, b, -, _, -, _, -, _, -, _, -, hstep⟩ := hstep
  obtain rfl := Option.some.inj hstep
  exact (h.hits (@Hits.storeCheck cfg s b)).congr rfl rfl

theorem unwatched_step (h : x.1.Unwatched) (hstep : Step cfg x y) : y.1.Unwatched := by
  cases hstep with
  | exhausted checked hfind _ _ => exact (h.checks cfg checked).finds hfind
  | interpret checked hfind _ _ hinterp =>
      obtain ⟨s₁, hstep, rfl⟩ := Option.map_eq_some_iff.mp hinterp
      exact (((h.checks cfg checked).finds hfind).interpStep hstep).congr rfl rfl
  | short checked hfind _ _ => exact (h.checks cfg checked).finds hfind
  | enter checked hfind _ => exact (h.checks cfg checked).finds hfind
  | spent _ => exact h.congr rfl rfl
  | watched _ _ => exact h.congr rfl rfl
  | @hoisted s b _ _ _ =>
      have hback : (s.back b.start s.budget).Unwatched := h.congr rfl rfl
      cases s.lookup b.start with
      | none => exact hback
      | some f => exact hback.hits (@Hits.hitStatic cfg _ f.src.hoist)
  | copied _ _ _ _ => exact h.congr rfl rfl
  | copiedAll _ _ _ _ hjump =>
      refine Jit.Unwatched.jumps ?_ hjump
      exact h.congr rfl rfl
  | smc _ _ _ _ _ hinterp =>
      refine Jit.Unwatched.interpStep ?_ hinterp
      exact h.congr rfl rfl
  | computed _ _ _ _ _ _ => exact h.congr rfl rfl
  | branch _ _ _ _ _ _ hjump =>
      refine Jit.Unwatched.jumps ?_ hjump
      exact h.congr rfl rfl

theorem unwatched_steps (h : x.1.Unwatched) (hrun : Relation.ReflTransGen (Step cfg) x y) :
    y.1.Unwatched := by
  induction hrun with
  | refl => exact h
  | tail _ hstep ih => exact unwatched_step ih hstep

/-! ## Slices -/

theorem Supported.mono {size : MemSize} {r : Memory × Word} (h : Supported size n r)
    (hk : k ≤ n) : Supported size k r := by
  have hruns : (interpRun size k r).isSome = true := by
    have hall := h.runs
    rw [show n = k + (n - k) by omega, interpRun_add] at hall
    cases hrun : interpRun size k r with
    | none =>
        rw [hrun] at hall
        cases hall
    | some _ => rfl
  refine ⟨hruns, fun i hi => h.own i (by omega), fun i hi => h.leftovers i (by omega), ?_⟩
  intro m p hrun
  have hrest : Supported size (n - k) (m, p) := by
    refine hereditary_supported size k (n - k) r (m, p) ?_ hrun
    rwa [show k + (n - k) = n by omega]
  exact hrest.here.1

/-- What is left to do after a part of it. -/
theorem Supported.rest {size : MemSize} {r r' : Memory × Word} {j : ℕ} (h : Supported size n r)
    (hrun : interpRun size k r = some r') (hj : k + j ≤ n) : Supported size j r' := by
  have hall : Supported size (n - k) r' := by
    refine hereditary_supported size k (n - k) r r' ?_ hrun
    rwa [show k + (n - k) = n by omega]
  exact hall.mono (by omega)

/-- `JIT_SLICE` -/
def jitSlice : Word := 65536

/-- Where the loop is after `n` calls: it has done `k` instructions. -/
structure After (cfg : Config) (n k : ℕ) (mem : Memory) (s : Jit) : Prop where
  reachable : Reachable cfg (s, .returned)
  unwatched : s.Unwatched
  least : 65473 * n ≤ k
  most : k ≤ 65536 * n
  exact : cfg.exact = true → k = 65536 * n
  run : interpRun cfg.size k (mem, 0) = some (s.mem, s.eip)

theorem After.supported (h : After cfg n k mem s)
    (hsup : Supported cfg.size (65536 * (n + 1)) (mem, 0)) :
    Supported cfg.size jitSlice.toNat (s.mem, s.eip) := by
  have hmost := h.most
  have hslice : jitSlice.toNat = 65536 := rfl
  exact hsup.rest h.run (by omega)

theorem After.next (h : After cfg n k mem s)
    (hsup : Supported cfg.size (65536 * (n + 1)) (mem, 0))
    (hrun : Relation.ReflTransGen (Step cfg) (s.call s.eip jitSlice, .top) (s', .returned)) :
    ∃ k', After cfg (n + 1) k' mem s' := by
  have hslice := h.supported hsup
  have hbudget : jitSlice.toNat < 2 ^ 63 := by decide
  have hgood : Good cfg (s.call s.eip jitSlice, .top) := h.reachable.good.1.call s.eip hbudget
  obtain ⟨-, -, hfollows⟩ := stepped_steps hgood hslice hrun
  have hunwatched : s'.Unwatched :=
    unwatched_steps (x := (s.call s.eip jitSlice, .top)) (h.unwatched.congr rfl rfl) hrun
  have hcall : Reachable cfg (s', .returned) :=
    (Reachable.call s.eip jitSlice h.reachable hbudget hslice).steps hrun
  have hle : s'.budget.toNat ≤ 65536 := hfollows.le
  have hdone : interpRun cfg.size (65536 - s'.budget.toNat) (s.mem, s.eip) =
      some (s'.mem, s'.eip) := hfollows.run
  have hended : s'.budget.toNat = 0 ∨ cfg.exact = false ∧ s'.budget.toNat < 64 := by
    cases ended_of_steps hgood hslice hrun with
    | exhausted hzero => exact Or.inl (congrArg BitVec.toNat hzero)
    | short hinexact hshort => exact Or.inr ⟨hinexact, hshort⟩
    | watched hb hchanged =>
        unfold Block.watchChanged at hchanged
        rw [hunwatched.table _ hb] at hchanged
        cases hchanged
  generalize s'.budget.toNat = left at hle hdone hended
  have hleast := h.least
  have hmost := h.most
  clear hbudget
  obtain ⟨d, hd, hsum⟩ : ∃ d, 65536 - left = d ∧ d + left = 65536 :=
    ⟨_, rfl, Nat.sub_add_cancel hle⟩
  rw [hd] at hdone
  refine ⟨k + d, hcall, hunwatched, by omega, by omega, fun hexact => ?_, ?_⟩
  · have hall := h.exact hexact
    rcases hended with hzero | ⟨hinexact, -⟩
    · omega
    · rw [hexact] at hinexact
      cases hinexact
  · rw [interpRun_add, h.run]
    exact hdone

end Dispatcher
end SubleqEmu
