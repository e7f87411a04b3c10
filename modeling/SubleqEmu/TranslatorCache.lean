import SubleqEmu.MachineModel

/-!
# The register cache

The translator's tables of known values, and the registers and stores it emits for
them.  A generator fails where `scratch` finds no register.
-/

namespace SubleqEmu
namespace Translator

open ByteMemory Subleq Emitter Machine

def hwLo : Word := 0x13e00000
def hwHi : Word := 0x14000000

def cacheable (a : Word) : Bool := a &&& 7 = 0 && (a < hwLo || a ≥ hwHi)

structure Creg where
  /-- the address cached, if the register is used -/
  addr : Option Word
  pinned : Bool
  lru : BitVec 32

structure Calias where
  addr : Word
  reg : Reg
  neg : Bool
  deriving DecidableEq

structure Cache where
  useMovbe : Bool
  pend : Option Word
  flagsLive : Bool
  regs : Reg → Creg
  lruClock : BitVec 32
  consts : Fin 16 → Option (Word × Word)
  constNext : BitVec 32
  aliases : Fin 16 → Option Calias
  aliasNext : BitVec 32

abbrev T (α : Type) : Type := Gen Cache Insn α

namespace Cache

def setReg (J : Cache) (r : Reg) (f : Creg → Creg) : Cache :=
  { J with regs := Function.update J.regs r (f (J.regs r)) }

def pin (J : Cache) (r : Reg) : Cache := J.setReg r fun c => { c with pinned := true }

def unpin (J : Cache) (r : Reg) : Cache := J.setReg r fun c => { c with pinned := false }

def unpinAll (J : Cache) : Cache :=
  { J with regs := fun r => { J.regs r with pinned := false } }

/-- `lru = ++lru_clock` -/
def touch (J : Cache) (r : Reg) : Cache :=
  { J.setReg r fun c => { c with lru := J.lruClock + 1 } with lruClock := J.lruClock + 1 }

def findConst (J : Cache) (a : Word) : Option Word :=
  (List.finRange 16).findSome? fun k => ((J.consts k).filter fun e => e.1 = a).map (·.2)

def findReg (J : Cache) (a : Word) : Option Reg :=
  (List.finRange 11).find? fun r => (J.regs r).addr = some a

def findAlias (J : Cache) (a : Word) : Option Calias :=
  (List.finRange 16).findSome? fun k => (J.aliases k).filter fun c => c.addr = a

/-- What `cache_find` finds. -/
def lookup (J : Cache) (a : Word) : CVal :=
  if !cacheable a then .none
  else
    match J.findConst a, J.findReg a, J.findAlias a with
    | some v, _, _ => .const v
    | none, some r, _ => .reg r
    | none, none, some c => if c.neg then .neg c.reg else .reg c.reg
    | none, none, none => .none

def drop (J : Cache) (a : Word) : Cache :=
  { J with
    regs := fun r => if (J.regs r).addr = some a then { J.regs r with addr := none } else J.regs r
    consts := fun k => (J.consts k).filter fun e => e.1 ≠ a
    aliases := fun k => (J.aliases k).filter fun c => c.addr ≠ a }

def dropAll (J : Cache) : Cache :=
  { J with
    regs := fun r => { J.regs r with addr := none }
    consts := fun _ => none
    aliases := fun _ => none }

def aliased (J : Cache) (r : Reg) : Bool :=
  (List.finRange 16).any fun k => ((J.aliases k).filter fun c => c.reg = r).isSome

/-- Forgetting the words that stand for a register. -/
def forget (J : Cache) (r : Reg) : Cache :=
  { J.setReg r fun c => { c with addr := none } with
    aliases := fun k => (J.aliases k).filter fun c => c.reg ≠ r }

def setConst (J : Cache) (a v : Word) : Cache :=
  let J := J.drop a
  if !cacheable a then J
  else
    match (List.finRange 16).find? fun k => (J.consts k).isNone with
    | some k => { J with consts := Function.update J.consts k (some (a, v)) }
    | none =>
        { J with
          consts := Function.update J.consts (Fin.ofNat 16 J.constNext.toNat) (some (a, v))
          constNext := J.constNext + 1 }

/-- `bind`: register `r` caches the value at `a`. -/
def bindReg (J : Cache) (r : Reg) (a : Word) : Cache :=
  if !cacheable a then J
  else ((J.drop a).setReg r fun c => { c with addr := some a }).touch r

/-- The register that `scratch` takes: a free one, or else the least recently used. -/
def pick (J : Cache) (best : Option Reg) : List Reg → Option Reg
  | [] => best
  | r :: rest =>
      if (J.regs r).pinned then pick J best rest
      else if (J.regs r).addr = none ∧ !J.aliased r then some r
      else
        pick J (match best with
          | none => some r
          | some b => if (J.regs r).lru < (J.regs b).lru then some r else some b) rest

end Cache

def touchVal : CVal → T Unit
  | .reg r => modifyState (·.touch r)
  | .neg r => modifyState (·.touch r)
  | _ => pure ()

def cacheFind (a : Word) : T CVal := do
  let J ← getState
  touchVal (J.lookup a)
  return J.lookup a

def pinVal : CVal → T Unit
  | .reg r => modifyState (·.pin r)
  | .neg r => modifyState (·.pin r)
  | _ => pure ()

/-! ## Registers

`flush_pending` stops holding the store back before it takes registers, so what these
release needs no flush of its own; the functions between take the flush as an
argument. -/

/-- Storing what is held back through register `r`. -/
def flushHeld (flush : T Unit) (r : Reg) : T Unit := do
  let J ← getState
  match J.pend with
  | none => pure ()
  | some a => do
      let v ← cacheFind a
      onlyIf (v = .reg r ∨ v = .neg r) flush

def release (flush : T Unit) (r : Reg) : T Unit := do
  flushHeld flush r
  modifyState (·.forget r)

def scratchWith (flush : T Unit) : T Reg := do
  let J ← getState
  match J.pick none (List.finRange 11) with
  | none => fail
  | some r =>
      modifyState (·.pin r)
      release flush r
      return r

def negate (r : Reg) : T Unit := do
  let J ← getState
  if !J.flagsLive then emit (.neg r)
  else do
    emit (.not r)
    emit (.leaOne r)

def toRegWith (flush : T Unit) : CVal → T Reg
  | .reg r => return r
  | .neg r => do
      modifyState (·.pin r)
      let t ← scratchWith flush
      emit (.mov t r)
      negate t
      return t
  | .const v => do
      let t ← scratchWith flush
      emit (.movImm t v)
      return t
  | .none => do
      let t ← scratchWith flush
      emit (.movImm t 0)
      return t

/-! ## Stores -/

def fitsDisp (a : Word) : Bool := a < bias <<< 1

def int32 (x : Word) : BitVec 32 := x.setWidth 32

/-- Where a store goes: a static address, or the one in a register. -/
inductive Target
  | static (a : Word)
  | dynamic (base : Reg)
  deriving DecidableEq

/-- The operand of a store, with an address that needs it in a register. -/
def targetOperand (flush : T Unit) : Target → T (Base × BitVec 32)
  | .static a =>
      if fitsDisp a then return (.r15, int32 (a - bias))
      else do
        let base ← scratchWith flush
        emit (.movImm base a)
        return (.reg base, 0)
  | .dynamic base => return (.reg base, 0)

def storeRegWith (flush : T Unit) (r : Reg) (target : Target) : T Unit := do
  let op ← targetOperand flush target
  let J ← getState
  if J.useMovbe then emit (.movbeStore r op.1 op.2)
  else do
    let t ← scratchWith flush
    emit (.mov t r)
    emit (.bswap t)
    emit (.store t op.1 op.2)

/-- Whether a constant can be stored as it is. -/
def immediate (v : Word) : Target → Bool
  | .static a => fitsDisp a ∧ (int32 (bswap v)).signExtend 64 = bswap v
  | .dynamic _ => false

def storeConstWith (flush : T Unit) (v : Word) (target : Target) : T Unit :=
  match target, immediate v target with
  | .static a, true => emit (.storeImm (int32 (a - bias)) (int32 (bswap v)))
  | target, _ => do
      let t ← scratchWith flush
      emit (.movImm t (bswap v))
      let op ← targetOperand flush target
      emit (.store t op.1 op.2)

/-- The store of a value to a static address, its register pinned meanwhile. -/
def storeHeld (a : Word) (v : CVal) : T Unit :=
  match v with
  | .const c => storeConstWith (pure ()) c (.static a)
  | .reg r => do
      let J ← getState
      modifyState (·.pin r)
      storeRegWith (pure ()) r (.static a)
      modifyState (·.setReg r fun c => { c with pinned := (J.regs r).pinned })
  | .neg r => do
      let J ← getState
      modifyState (·.pin r)
      let t ← toRegWith (pure ()) (.neg r)
      storeRegWith (pure ()) t (.static a)
      modifyState (·.unpin t)
      modifyState (·.setReg r fun c => { c with pinned := (J.regs r).pinned })
  | .none => fail

def flushPending : T Unit := do
  let J ← getState
  match J.pend with
  | none => pure ()
  | some a => do
      modifyState fun J => { J with pend := none }
      let v ← cacheFind a
      storeHeld a v

def scratch : T Reg := scratchWith flushPending
def toReg : CVal → T Reg := toRegWith flushPending
def storeReg : Reg → Target → T Unit := storeRegWith flushPending
def storeConst : Word → Target → T Unit := storeConstWith flushPending

def putAlias (k : Fin 16) (c : Calias) (J : Cache) : Cache :=
  { J with aliases := Function.update J.aliases k (some c) }

def setAlias (a : Word) (r : Reg) (neg : Bool) : T Unit := do
  modifyState (·.drop a)
  let J ← getState
  if !cacheable a then pure ()
  else
    match (List.finRange 16).find? fun k => (J.aliases k).isNone with
    | some k => modifyState (putAlias k ⟨a, r, neg⟩)
    | none => do
        -- full: forget one, after storing it if held back
        let k : Fin 16 := Fin.ofNat 16 J.aliasNext.toNat
        modifyState fun J => { J with aliasNext := J.aliasNext + 1 }
        onlyIf (J.pend.isSome ∧ J.pend = (J.aliases k).map (·.addr)) flushPending
        modifyState (putAlias k ⟨a, r, neg⟩)

def snapPending : T Pending := do
  let J ← getState
  match J.pend with
  | none => return ⟨.none, 0⟩
  | some a => do
      let v ← cacheFind a
      return ⟨v, a⟩

/-- The first register from `t` on that is not taken, of which at most two are. -/
def spareFrom (taken : List Reg) (t : Reg) : Reg :=
  if t ∉ taken then t else if t + 1 ∉ taken then t + 1 else t + 2

/-- `stub_store`: what a stub does with the store held back, keeping a register. -/
def stubStore (useMovbe : Bool) (p : Pending) (keep : Option Reg) : List Insn :=
  let reg := match p.val with
    | .reg r => some r
    | .neg r => some r
    | _ => none
  let taken := reg.toList ++ keep.toList
  let t := spareFrom taken 0
  let spare := spareFrom taken (t + 1)
  let (pre, base, disp) :=
    if fitsDisp p.addr then ([], Base.r15, int32 (p.addr - bias))
    else ([Insn.movImm spare p.addr], Base.reg spare, 0)
  match p.val with
  | .none => []
  | .const v => pre ++ [.movImm t (bswap v), .store t base disp]
  | .reg r =>
      if useMovbe then pre ++ [.movbeStore r base disp]
      else pre ++ [.mov t r, .bswap t, .store t base disp]
  | .neg r =>
      pre ++ [.mov t r, .neg t] ++
        if useMovbe then [.movbeStore t base disp] else [.bswap t, .store t base disp]

end Translator
end SubleqEmu
