import SubleqEmu.X86Assembly
import Mathlib.Logic.Relation

/-!
# Running code in memory

A processor that fetches its instructions: jumps, addresses from the next instruction, and
calls, of which only what they leave is known.
-/

namespace X86

open ByteMemory

/-! ## Instructions -/

/-- Two more instructions. -/
inductive Extra
  | call (target : Reg)
  | imul (dst : Reg) (src : Operand) (v : Word)
  deriving DecidableEq

def decodeExtra (bs : List Byte) : Option (Extra × List Byte) :=
  let p := takeRex bs
  match p.2 with
  | [] => none
  | op :: bs =>
      (takeModRM p.1 bs).bind fun r =>
        if op.toNat = 0xff ∧ r.1.ext = 2 then
          match r.1.rm with
          | .reg t => some (.call t, r.2)
          | .mem _ => none
        else if op.toNat = 0x6b ∧ p.1.w then
          (takeSigned 1 r.2).map fun v => (.imul r.1.reg r.1.rm v.1, v.2)
        else none

/-- The longest instruction. -/
def fetch (m : Memory) (a : Word) : List Byte :=
  (List.range 15).map fun k => m (a + BitVec.ofNat 64 k)

/-- Where the next instruction is, from what is left of the bytes fetched. -/
def next (a : Word) (rest : List Byte) : Word := a + BitVec.ofNat 64 (15 - rest.length)

/-- The condition of a jump, if the flags it looks at are known; none for those on parity. -/
def condition (c : ℕ) (f : Flags) : Option Bool :=
  (match c / 2 with
    | 0 => f.of
    | 1 => f.cf
    | 2 => f.zf
    | 3 => f.cf.bind fun cf => f.zf.map fun zf => cf || zf
    | 4 => f.sf
    | 6 => f.sf.bind fun sf => f.of.map fun of => sf != of
    | 7 => f.zf.bind fun zf => f.sf.bind fun sf => f.of.map fun of => zf || sf != of
    | _ => none).map fun b => b != decide (c % 2 = 1)

/-- A processor with the address of its next instruction. -/
structure Core where
  rip : Word
  state : State

/-- An instruction that `next` follows. -/
def Instr.run (next : Word) (s : State) : Instr → Option Core
  | .jmp d => some ⟨next + d, s⟩
  | .jcc c d => (condition c s.flags).map fun taken => ⟨if taken then next + d else next, s⟩
  | .jmpTo o => (s.get .qword o).map fun t => ⟨t, s⟩
  | .lea size dst ⟨.rip, none, d⟩ => some ⟨next, s.setReg size dst (next + d)⟩
  | i => (s.step i).map fun s' => ⟨next, s'⟩

def State.imul (s : State) (dst : Reg) (src : Operand) (v : Word) : Option State :=
  (s.get .qword src).map fun a =>
    let lost := decide ((a * v).toInt ≠ a.toInt * v.toInt)
    { s.set dst (a * v) with flags := ⟨none, none, some lost, some lost⟩ }

def Core.step (c : Core) : Option Core :=
  match decode (fetch c.state.mem c.rip), decodeExtra (fetch c.state.mem c.rip) with
  | some (i, rest), _ => i.run (next c.rip rest) c.state
  | none, some (.imul dst src v, rest) =>
      (c.state.imul dst src v).map fun s => ⟨next c.rip rest, s⟩
  | none, _ => none

/-- `C` has the states before and after the calls of each address. -/
inductive Step (C : Word → State → State → Prop) : Core → Core → Prop
  | step {c c' : Core} (h : c.step = some c') : Step C c c'
  | call {a : Word} {s s' : State} {r : Reg} {rest : List Byte}
      (hdecode : decodeExtra (fetch s.mem a) = some (.call r, rest))
      (hcall : C (s.reg r) s s') : Step C ⟨a, s⟩ ⟨next a rest, s'⟩

abbrev Steps (C : Word → State → State → Prop) : Core → Core → Prop :=
  Relation.ReflTransGen (Step C)

variable {C : Word → State → State → Prop} {c : Core} {s s' : State} {a x : Word}
  {bs : List Byte} {i : Instr} {m : Memory}

/-! ## Fetching -/

theorem fetch_of_holds (h : Holds m a bs) (hlen : bs.length ≤ 15) :
    ∃ rest, fetch m a = bs ++ rest ∧ next a rest = a + BitVec.ofNat 64 bs.length := by
  refine ⟨(fetch m a).drop bs.length, ?_, ?_⟩
  · have hprefix : (fetch m a).take bs.length = bs := by
      apply List.ext_getElem
      · simp [fetch, hlen]
      · intro k hk hk'
        simp [fetch, h k hk']
    conv_rhs => rw [← hprefix]
    simp [fetch, Nat.min_eq_left hlen]
  · simp only [next, fetch, List.length_drop, List.length_map, List.length_range]
    rw [Nat.sub_sub_self hlen]

theorem step_of_decodes (h : Holds s.mem a bs) (hlen : bs.length ≤ 15)
    (hdecode : ∀ rest, decode (bs ++ rest) = some (i, rest))
    (hrun : i.run (a + BitVec.ofNat 64 bs.length) s = some c) : Step C ⟨a, s⟩ c := by
  obtain ⟨rest, hfetch, hnext⟩ := fetch_of_holds h hlen
  refine .step ?_
  simp only [Core.step, hfetch, hdecode]
  rw [hnext, hrun]

theorem call_of_decodes {r : Reg} (h : Holds s.mem a bs) (hlen : bs.length ≤ 15)
    (hdecode : ∀ rest, decodeExtra (bs ++ rest) = some (.call r, rest))
    (hcall : C (s.reg r) s s') :
    Step C ⟨a, s⟩ ⟨a + BitVec.ofNat 64 bs.length, s'⟩ := by
  obtain ⟨rest, hfetch, hnext⟩ := fetch_of_holds h hlen
  rw [← hnext]
  exact .call (by rw [hfetch, hdecode]) hcall

/-- An instruction that goes on to the next one. -/
theorem run_of_step (hstep : s.step i = some s') : i.run x s = some ⟨x, s'⟩ := by
  cases i with
  | jmp d => cases hstep
  | jcc c d => cases hstep
  | jmpTo o => cases hstep
  | lea size dst a =>
      obtain ⟨base, index, disp⟩ := a
      cases base with
      | rip => simp [State.step, State.address] at hstep
      | none => simp [Instr.run, hstep]
      | reg r => simp [Instr.run, hstep]
  | _ => simp [Instr.run, hstep]

theorem step_plain (h : Holds s.mem a bs) (hlen : bs.length ≤ 15)
    (hdecode : ∀ rest, decode (bs ++ rest) = some (i, rest)) (hstep : s.step i = some s') :
    Step C ⟨a, s⟩ ⟨a + BitVec.ofNat 64 bs.length, s'⟩ :=
  step_of_decodes h hlen hdecode (run_of_step hstep)

theorem step_imul {dst : Reg} {src : Operand} {v : Word} (h : Holds s.mem a bs)
    (hlen : bs.length ≤ 15) (hnone : ∀ rest, decode (bs ++ rest) = none)
    (hdecode : ∀ rest, decodeExtra (bs ++ rest) = some (.imul dst src v, rest))
    (hrun : s.imul dst src v = some s') :
    Step C ⟨a, s⟩ ⟨a + BitVec.ofNat 64 bs.length, s'⟩ := by
  obtain ⟨rest, hfetch, hnext⟩ := fetch_of_holds h hlen
  refine .step ?_
  simp only [Core.step, hfetch, hnone, hdecode, hrun, Option.map_some]
  rw [hnext]

/-! ## Jumps to labels -/

variable {L : Type} {place : L → Word} {l : L} {ps : List (Piece L)} {taken : Bool}

def jcc (c : ℕ) (l : L) : List (Piece L) :=
  [.bytes [BitVec.ofNat 8 0x0f, BitVec.ofNat 8 (0x80 + c)], .rel l]

def jmp (l : L) : List (Piece L) := [.bytes [BitVec.ofNat 8 0xe9], .rel l]

@[simp] theorem codeSize_jcc (c : ℕ) (l : L) : codeSize (jcc c l) = 6 := rfl

@[simp] theorem codeSize_jmp (l : L) : codeSize (jmp l) = 5 := rfl

theorem decode_jcc {c : ℕ} (hc : c < 16) (d : BitVec 32) (rest : List Byte) :
    decode ([BitVec.ofNat 8 0x0f, BitVec.ofNat 8 (0x80 + c)] ++ littleEndian 4 d.toNat ++ rest) =
      some (.jcc c (d.signExtend 64), rest) := by
  have hop : (BitVec.ofNat 8 (0x80 + c)).toNat = 0x80 + c := by
    rw [BitVec.toNat_ofNat]
    omega
  have hdisp : takeSigned 4 (littleEndian 4 d.toNat ++ rest) = some (d.signExtend 64, rest) :=
    takeSigned_littleEndian 4 d rest
  have htwo : (0x80 + c) / 16 = 8 := by omega
  have hcond : (0x80 + c) % 16 = c := by omega
  show decodeTwo _ (BitVec.ofNat 8 (0x80 + c)).toNat (littleEndian 4 d.toNat ++ rest) = _
  rw [hop]
  refine (if_pos htwo).trans ?_
  rw [hdisp, hcond]
  rfl

theorem decode_jmp (d : BitVec 32) (rest : List Byte) :
    decode ([BitVec.ofNat 8 0xe9] ++ littleEndian 4 d.toNat ++ rest) =
      some (.jmp (d.signExtend 64), rest) := by
  have hdisp : takeSigned 4 (littleEndian 4 d.toNat ++ rest) = some (d.signExtend 64, rest) :=
    takeSigned_littleEndian 4 d rest
  have hrex : takeRex (BitVec.ofNat 8 0xe9 :: (littleEndian 4 d.toNat ++ rest)) =
      (⟨false, false, false, false⟩, BitVec.ofNat 8 0xe9 :: (littleEndian 4 d.toNat ++ rest)) := by
    simp [takeRex]
  rw [List.append_assoc, List.singleton_append, decode, hrex]
  refine (if_neg (by decide)).trans ?_
  refine (if_neg (by decide)).trans ?_
  exact congrArg (Option.map _) hdisp

theorem step_jcc {c : ℕ} (hc : c < 16) (h : Laid s.mem place a (jcc c l))
    (hcond : condition c s.flags = some taken) :
    Step C ⟨a, s⟩ ⟨if taken then place l else a + 6, s⟩ := by
  obtain ⟨hop, ⟨hdisp, hnear⟩, -⟩ := h
  have hheld := holds_append.mpr ⟨hop, hdisp⟩
  refine step_of_decodes hheld (by simp) (decode_jcc hc _) ?_
  have hnext : a + BitVec.ofNat 64 2 + 4 = a + 6 := by bv_omega
  simp only [Near, List.length_cons, List.length_nil] at hnear
  simp only [Instr.run, hcond, Option.map_some, List.length_append, length_littleEndian,
    List.length_cons, List.length_nil]
  rw [hnear, hnext]
  cases taken with
  | true => simp
  | false => rfl

theorem step_jmp (h : Laid s.mem place a (jmp l)) : Step C ⟨a, s⟩ ⟨place l, s⟩ := by
  obtain ⟨hop, ⟨hdisp, hnear⟩, -⟩ := h
  have hheld := holds_append.mpr ⟨hop, hdisp⟩
  refine step_of_decodes hheld (by simp) (decode_jmp _) ?_
  simp only [Near, List.length_cons, List.length_nil] at hnear
  simp only [Instr.run, List.length_append, length_littleEndian, List.length_cons,
    List.length_nil]
  rw [hnear]
  have htarget : a + BitVec.ofNat 64 (0 + 1 + 4) + (place l - (a + BitVec.ofNat 64 (0 + 1) + 4)) =
      place l := by
    bv_omega
  rw [htarget]

end X86
