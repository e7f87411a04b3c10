import SubleqEmu.TranslatorCache

/-!
# Translating an instruction

`translate_insn`, on an instruction's fields as they were read and a classification
of them as static or dynamic.
-/

namespace SubleqEmu
namespace Translator

open ByteMemory Subleq Emitter Machine

/-! ## Operands -/

/-- `load_mem` -/
def loadMem (r : Reg) (base : Base) (disp : BitVec 32) : T Unit := do
  let J ← getState
  if J.useMovbe then emit (.movbeLoad r base disp)
  else do
    emit (.load r base disp)
    emit (.bswap r)

def loadStatic (r : Reg) (a : Word) : T Unit :=
  if fitsDisp a then loadMem r .r15 (int32 (a - bias))
  else do
    emit (.movImm r a)
    loadMem r (.reg r) 0

def andImm64 (r : Reg) (mask : Word) : T Unit :=
  if (int32 mask).signExtend 64 = mask then emit (.andImm r (int32 mask))
  else if mask = 0xffffffff then emit (.movLow r)
  else do
    let t ← scratch
    emit (.movImm t mask)
    emit (.and r t)
    modifyState (·.unpin t)

/-- Letting go of the register that `to_reg` took, if it took one. -/
def unpinNew (v : CVal) (t : Reg) : T Unit :=
  match v with
  | .reg _ => pure ()
  | _ => modifyState (·.unpin t)

def orVal (r : Reg) (v : CVal) : T Unit :=
  if v = .const 0 then pure ()
  else do
    let t ← toReg v
    emit (.or r t)
    unpinNew v t

def shiftInsn (left : Bool) (r : Reg) (n : ℕ) : Insn := if left then .shl r n else .shr r n

def shift (left : Bool) (x : Word) (n : ℕ) : Word := if left then x <<< n else x >>> n

/-- A negation is put in a register of its own before. -/
def shifted (v : CVal) (left : Bool) (n : ℕ) : T CVal :=
  match v with
  | .const c => return .const (shift left c n)
  | v => do
      let s ← toReg v
      let r ← scratch
      emit (.mov r s)
      emit (shiftInsn left r n)
      return .reg r

def loadWord (a : Word) : T CVal := do
  let J ← getState
  -- memory has to have a held back store the load covers
  onlyIf (a &&& 7 ≠ 0 ∧
    (J.pend = some (a &&& ~~~7#64) ∨ J.pend = some ((a &&& ~~~7#64) + 8))) flushPending
  let r ← scratch
  loadStatic r a
  modifyState (·.bindReg r a)
  return .reg r

/-- `get_static` past the case of an address whose two words are looked up. -/
def getWord (a : Word) : T CVal := do
  let v ← cacheFind a
  pinVal v
  if v ≠ .none then return v else loadWord a

/-- An unaligned word from the two that it spans: `(lo << k) | (hi >> (64 - k))`. -/
def putTogether (lo hi : CVal) (k : ℕ) : T CVal := do
  let v ← shifted lo true k
  let h ← shifted hi false (64 - k)
  match v, h with
  | .const x, .const y => return .const (x ||| y)
  | .const x, h => do
      match h with
      | .reg r => do
          orVal r (.const x)
          return .reg r
      | _ => fail
  | .reg r, h => do
      orVal r h
      return .reg r
  | _, _ => fail

def getIfMissing (v : CVal) (a : Word) : T CVal :=
  if v = .none then getWord a else return v

/-- An unaligned word; `lo` is where the first of its two words is. -/
def getSpanned (a lo : Word) : T CVal := do
  let v ← cacheFind lo
  let h ← cacheFind (lo + 8)
  if v ≠ .none ∨ h ≠ .none then do
    pinVal v
    pinVal h
    let v ← getIfMissing v lo
    let h ← getIfMissing h (lo + 8)
    putTogether v h (8 * (a.toNat % 8))
  else getWord a

/-- Whether the words that an unaligned one spans can be cached. -/
def spansCacheable (a : Word) : Prop :=
  a &&& 7 ≠ 0 ∧ cacheable (a &&& ~~~7#64) = true ∧ cacheable ((a &&& ~~~7#64) + 8) = true

instance (a : Word) : Decidable (spansCacheable a) := inferInstanceAs (Decidable (_ ∧ _))

def getStatic (a : Word) : T CVal :=
  if spansCacheable a then getSpanned a (a &&& ~~~7#64) else getWord a

/-- `(w & keep) | part`, as a new value -/
def maskedOr (w : CVal) (keep : Word) (part : CVal) : T CVal :=
  match w with
  | .const c =>
      match part with
      | .const x => return .const (c &&& keep ||| x)
      | part =>
          if c &&& keep = 0 then return part
          else do
            let r ← scratch
            emit (.movImm r (c &&& keep))
            orVal r part
            return .reg r
  | w => do
      let s ← toReg w
      let r ← scratch
      emit (.mov r s)
      andImm64 r keep
      orVal r part
      return .reg r

/-- A word put together anew goes to the cache. -/
def rebind (a : Word) : CVal → T Unit
  | .const c => modifyState (·.setConst a c)
  | .reg r => modifyState (·.bindReg r a)
  | _ => fail

/-- One of the words that a store of `v` spans, if the cache had it. -/
def updateWord (w : Word) (old : CVal) (keep : Word) (v : CVal) (left : Bool) (n : ℕ) :
    T Unit :=
  onlyIf (old ≠ .none) do
    let part ← shifted v left n
    let new ← maskedOr old keep part
    rebind w new

def updateSpanned (a : Word) (v : CVal) : T Unit := do
  let k := 8 * (a.toNat % 8)
  let lo := a &&& ~~~7#64
  modifyState (·.unpinAll)
  pinVal v
  let lv ← cacheFind lo
  let hv ← cacheFind (lo + 8)
  pinVal lv
  pinVal hv
  updateWord lo lv (~~~(BitVec.allOnes 64 >>> k)) v false k
  updateWord (lo + 8) hv (BitVec.allOnes 64 >>> k) v true (64 - k)

/-! ## Fields -/

/-- A field: whether it is still dynamic, its value if not, and what the cache has for
it if so. -/
structure Field where
  dyn : Bool
  value : Word
  cached : CVal

/-- A block's view of memory: its fields as they were read, and which are dynamic. -/
structure Source where
  size : MemSize
  raw : Word → Word
  dynamic : Word → Bool
  hoist : List Word

/-- Dynamic fields known as constants are static after all. -/
def field (src : Source) (p : Word) : T Field :=
  if src.dynamic p then do
    let v ← cacheFind p
    match v with
    | .const c => return ⟨false, c, .none⟩
    | v => do
        pinVal v
        return ⟨true, 0, v⟩
  else return ⟨false, src.raw p, .none⟩

/-- A dynamic field in a register; the cache gets to know it. -/
def fieldReg (p : Word) (f : Field) : T Reg :=
  match f.cached with
  | .none => do
      let r ← scratch
      loadStatic r p
      modifyState (·.bindReg r p)
      return r
  | v => toReg v

/-- The words that a store at `b` changes, as the checks count them. -/
def spannedWords (size : MemSize) (b : Word) : List Word :=
  let w := b >>> 3
  let w' := (b + 7) >>> 3
  (if w ≤ w' ∧ w.toNat < size.val / 8 then [w] else []) ++
    (if w < w' ∧ w'.toNat < size.val / 8 ∧ w.toNat < size.val / 8 then [w'] else [])

/-- The checks of a static target, where the entry of the block has not made them. -/
def checkWordsOf (i : ℕ) : List Word → T Unit
  | [] => pure ()
  | w :: rest => do
      emit (.testBitmap w)
      let pend ← snapPending
      emit (.jnz ⟨i, pend, none⟩)
      checkWordsOf i rest

def checkComputed (i : ℕ) (rb : Reg) : T Unit := do
  let t1 ← scratch
  let t2 ← scratch
  emit (.mov t1 rb)
  emit (.shr t1 12)
  emit (.cmpPage t1)
  let pend ← snapPending
  emit (.jnz ⟨i, pend, some ⟨rb, t1, t2⟩⟩)
  modifyState (·.unpin t1)
  modifyState (·.unpin t2)

/-- The check of the store against translated code; the register with a dynamic B. -/
def checkTarget (src : Source) (i : ℕ) (p : Word) (fb : Field) : T (Option Reg) :=
  if !fb.dyn then do
    checkWordsOf i ((spannedWords src.size fb.value).filter (· ∉ src.hoist))
    return none
  else do
    let rb ← fieldReg (p + 8) fb
    checkComputed i rb
    return some rb

/-- A load through a register. -/
def loadThrough (base : Reg) : T CVal := do
  flushPending
  let r ← scratch
  loadMem r (.reg base) 0
  return .reg r

def operandA (p : Word) (fa : Field) : T CVal :=
  if !fa.dyn then getStatic fa.value
  else do
    let ra ← fieldReg p fa
    loadThrough ra

def operandB (fb : Field) (rb : Option Reg) : T CVal :=
  match rb with
  | none => getStatic fb.value
  | some rb => loadThrough rb

/-- A dynamic C is read before the store. -/
def readC (p : Word) (fc : Field) : T (Option Reg) :=
  if fc.dyn then
    match fc.cached with
    | .none => do
        let r ← scratch
        loadStatic r (p + 16)
        return some r
    | v => do
        let r ← toReg v
        return some r
  else return none

/-! ## The instruction -/

/-- What the subtraction gives: the value, whether the branch is known, and whether
the store would change nothing. -/
structure Result where
  value : CVal
  taken : Option Bool
  unchanged : Bool

/-- B's register, if it may take the result: nothing else stands for it. -/
def inPlace (J : Cache) (vb : CVal) (ok : Option Word → Bool) : Option Reg :=
  match vb with
  | .reg r => if !J.aliased r ∧ ok (J.regs r).addr then some r else none
  | _ => none

/-- A register of its own with a value. -/
def copyReg (v : CVal) : T Reg := do
  let r ← scratch
  match v with
  | .const c => do
      emit (.movImm r c)
      return r
  | .reg s => do
      emit (.mov r s)
      return r
  | _ => fail

/-- B's register, or a copy of B. -/
def resultReg (ok : Option Word → Bool) (vb : CVal) : T Reg := do
  let J ← getState
  match inPlace J vb ok with
  | some r => return r
  | none =>
      match vb with
      | .neg r => toReg (.neg r)
      | vb => copyReg vb

/-- `B + R` for `B - -R` -/
def addition (dynb : Bool) (fb : Word) (ra : Reg) (vb : CVal) : T Reg := do
  let rr ← resultReg (fun a => !dynb ∧ (a = none ∨ a = some fb)) vb
  emit (.add rr ra)
  return rr

/-- A's value in a register that may be changed. -/
def ownReg (v : CVal) : T Reg :=
  match v with
  | .reg s => copyReg (.reg s)
  | v => toReg v

/-- `0 - A` with its flags -/
def negation (va : CVal) : T Reg := do
  let rr ← ownReg va
  emit (.neg rr)
  return rr

def subtraction (dynb : Bool) (fb : Word) (va vb : CVal) : T Reg := do
  let rr ← resultReg (fun a => a = none ∨ !dynb ∧ a = some fb) vb
  let ra ← toReg va
  emit (.sub rr ra)
  return rr

/-- The result in a register, pinned from here on. -/
def pinResult (rr : Reg) : T Result := do
  modifyState (·.pin rr)
  return ⟨.reg rr, none, false⟩

/-- The subtraction itself, which leaves the flags of the branch. -/
def subtract (dynb : Bool) (fb : Word) (va vb : CVal) : T Result := do
  let rr ← (if vb = .const 0 then negation va else subtraction dynb fb va vb)
  pinResult rr

/-- Nothing to subtract: only the flags. -/
def testOnly (branch : Bool) (vb : CVal) : T Unit :=
  onlyIf branch do
    let t ← toReg vb
    emit (.test t t)

/-- The result by how A is known.  Where there is a branch the flags come from the same
subtraction, as computing `B + R` for `B - -R` would set them otherwise. -/
def compute (dynb : Bool) (fb : Word) (branch : Bool) (va vb : CVal) : T Result :=
  match va with
  | .const x =>
      match vb with
      | .const y => return ⟨.const (y - x), some (y.sle x), false⟩
      | vb =>
          if x = 0 then do
            testOnly branch vb
            return ⟨vb, none, true⟩
          else subtract dynb fb (.const x) vb
  | .reg r =>
      if vb = .const 0 ∧ !branch then return ⟨.neg r, none, false⟩
      else subtract dynb fb (.reg r) vb
  | .neg r =>
      if branch then subtract dynb fb (.neg r) vb
      else
        match vb with
        | .neg s => subtract dynb fb (.neg r) (.neg s)
        | vb =>
            if vb = .const 0 then return ⟨.reg r, none, false⟩
            else do
              let rr ← addition dynb fb r vb
              pinResult rr
  | .none => fail

/-- The store of a value that is not held back. -/
def storeNow (fb : Word) (rb : Option Reg) (v : CVal) : T CVal := do
  flushPending
  let target := match rb with
    | some rb => Target.dynamic rb
    | none => Target.static fb
  match v with
  | .const c => do
      storeConst c target
      return .const c
  | v => do
      let r ← toReg v
      storeReg r target
      return .reg r

/-- The value of a store to a word that is cached. -/
def cacheResult (fb : Word) : CVal → T Unit
  | .const c => modifyState (·.setConst fb c)
  | .neg r => setAlias fb r true
  | .reg r => do
      let J ← getState
      if (J.regs r).addr = none ∨ (J.regs r).addr = some fb then
        modifyState (·.bindReg r fb)
      else setAlias fb r false
  | .none => fail

/-- A store to a cached word is held back from now on. -/
def storeHeldBack (fb : Word) (res : Result) : T Unit := do
  let J ← getState
  onlyIf (!res.unchanged ∧ J.pend ≠ some fb) flushPending
  cacheResult fb res.value
  onlyIf (!res.unchanged) (modifyState fun J => { J with pend := some fb })

/-- A store through a register. -/
def storeComputed (rb : Reg) (res : Result) : T Unit :=
  onlyIf (!res.unchanged) do
    let _ ← storeNow 0 (some rb) res.value
    modifyState (·.dropAll)

/-- A store to a static address that is not cached; the value if the words it spans are
to be put together after the branch, which needs the flags. -/
def storeUncached (fb : Word) (res : Result) : T (Option CVal) :=
  if res.unchanged then return none
  else do
    let v ← storeNow fb none res.value
    if spansCacheable fb then return some v
    else do
      modifyState fun J => (J.drop (fb &&& ~~~7#64)).drop ((fb &&& ~~~7#64) + 8)
      return none

def storeResult (fb : Word) (rb : Option Reg) (res : Result) : T (Option CVal) :=
  match rb with
  | some rb => do
      storeComputed rb res
      return none
  | none =>
      if cacheable fb then do
        storeHeldBack fb res
        return none
      else storeUncached fb res

/-- The branch; whether it ends the block. -/
def branchTo (i : ℕ) (p : Word) (fc : Field) (rc : Option Reg) (taken : Option Bool) :
    T Bool :=
  if taken ≠ some false ∧ (fc.dyn ∨ fc.value ≠ p + 24) then do
    let pend ← snapPending
    if taken = some true then do
      emit (.jmp ⟨fc.dyn, i, fc.value, rc, pend⟩)
      return true
    else do
      emit (.jle ⟨fc.dyn, i, fc.value, rc, pend⟩)
      return false
  else return false

def CVal.isConst : CVal → Bool
  | .const _ => true
  | _ => false

/-- A store held back for another word goes before the subtraction, unless that will
change nothing. -/
def flushBefore (fb : Word) (pendable : Bool) (va vb : CVal) : T Unit := do
  let J ← getState
  onlyIf (¬ (va = .const 0 ∧ !CVal.isConst vb) ∧ (!pendable ∨ J.pend ≠ some fb)) flushPending

/-- The operands and the result, with the register that a dynamic C was read to. -/
def result (p : Word) (fa fb fc : Field) (rb : Option Reg) : T (Result × Option Reg) :=
  if !fa.dyn ∧ !fb.dyn ∧ fa.value = fb.value then do
    let rc ← readC p fc
    return (⟨.const 0, some true, false⟩, rc)
  else do
    let va ← operandA p fa
    let vb ← operandB fb rb
    let rc ← readC p fc
    flushBefore fb.value (!fb.dyn ∧ cacheable fb.value) va vb
    let res ← compute fb.dyn fb.value (fc.dyn ∨ fc.value ≠ p + 24) va vb
    return (res, rc)

def updateAfter (fb : Word) (ended : Bool) : Option CVal → T Unit
  | some v => onlyIf (!ended) (updateSpanned fb v)
  | none => pure ()

/-- `translate_insn` for the instruction at `p`, the `i`-th of its block; whether it ends
the block with an unconditional jump. -/
def translateInsn (src : Source) (i : ℕ) (p : Word) : T Bool := do
  modifyState (·.unpinAll)
  let fa ← field src p
  let fb ← field src (p + 8)
  let fc ← field src (p + 16)
  let rb ← checkTarget src i p fb
  let r ← result p fa fb fc rb
  modifyState fun J =>
    { J with flagsLive := (fc.dyn ∨ fc.value ≠ p + 24) ∧ r.1.taken = none }
  let spanned ← storeResult fb.value rb r.1
  modifyState fun J => { J with flagsLive := false }
  let ended ← branchTo i p fc r.2 r.1.taken
  updateAfter fb.value ended spanned
  return ended

end Translator
end SubleqEmu
