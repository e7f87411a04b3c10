import SubleqEmu.BlockCodeSteps

/-!
# The instructions of a block

What the processor does on the instructions of a block and on the checks that are out of
line: it gets where the machine does.
-/

namespace SubleqEmu
namespace BlockCode

open X86 Emitter ByteMemory EmitterBytes BlockBuffers Parts
open Machine (Insn Pending Precise Smc Stub Maps)

variable {b : Parts} {maps : Maps} {M M' : Machine.State} {X X' : X86.State} {i : Insn}
  {is : List Insn} {o : Machine.Exit} {size k j : ℕ} {a : Word} {place : Label → Word}
  {C : Word → X86.State → X86.State → Prop} {m : Memory} {s : Smc} {q : Precise}

/-! ## Checks -/

/-- The tests of an instruction stay within the maps, and its shifts within a word. -/
def InMaps (size : ℕ) : Insn → Machine.State → Prop
  | .shl _ n, _ => n < 64
  | .shr _ n, _ => n < 64
  | .testBitmap w, _ => w.toNat * 8 < size
  | .cmpPage t, M => (M.reg t).toNat * 4096 < size
  | .jnz s, M => ∀ q, s.precise = some q →
      (q.t1 ≠ q.t2 ∧ q.rb ≠ q.t1 ∧ q.rb ≠ q.t2) ∧ (M.reg q.rb).toNat + 8 ≤ size
  | _, _ => True

/-- All along a run. -/
def Checked (size : ℕ) (maps : Maps) : List Insn → Machine.State → Prop
  | [], _ => True
  | i :: is, M =>
      InMaps size i M ∧ ∀ M', Machine.step maps i M = .run M' → Checked size maps is M'

/-! ## Conditions -/

section Conditions

variable {f : X86.Flags} {z : Bool}

theorem condition_nz (h : f.zf = some z) : condition 0x5 f = some (!z) := by
  simp [condition, h]

theorem condition_z (h : f.zf = some z) : condition 0x4 f = some z := by
  simp [condition, h]

theorem condition_c (h : f.cf = some z) : condition 0x2 f = some z := by
  simp [condition, h]

theorem condition_le {g : Machine.Flags} (hz : f.zf = some g.zf) (hs : f.sf = some g.sf)
    (ho : f.of = some g.of) : condition 0xe f = some g.le := by
  simp [condition, hz, hs, ho, Machine.Flags.le]

end Conditions

/-! ## Pieces -/

theorem laid_map_bytes {l : List (List Byte)} :
    Laid m place a (l.map .bytes) ↔ Holds m a l.flatten := by
  induction l generalizing a with
  | nil => simp [Laid, Holds]
  | cons bs l ih => simp [Laid, ih, holds_append]

theorem codeSize_map_bytes (l : List (List Byte)) :
    codeSize (l.map .bytes : Code) = l.flatten.length := by
  rw [← length_blank, blank_map_bytes]

/-- Finished code beyond Dawn's memory. -/
structure Ready (size : ℕ) (m : Memory) (place : Label → Word) (a : Word) (ps : Code) : Prop where
  laid : Laid m place a ps
  beyond : Beyond size (codeSize ps) a

theorem Ready.append {ps qs : Code} (h : Ready size m place a (ps ++ qs)) :
    Ready size m place a ps ∧ Ready size m place (a + BitVec.ofNat 64 (codeSize ps)) qs := by
  obtain ⟨hleft, hright⟩ := laid_append.mp h.laid
  have hbeyond := h.beyond
  rw [codeSize_append] at hbeyond
  exact ⟨⟨hleft, hbeyond.left⟩, ⟨hright, hbeyond.right⟩⟩

theorem Follows.laid {ps : Code} (h : Follows size m M X) (hready : Ready size m place a ps) :
    Laid X.mem place a ps := by
  have hsame := hready.laid
  rw [h.agrees.mem]
  obtain rfl := h.init
  exact hsame.same (same_mem h.dawn hready.beyond)

theorem Follows.jumps {c : ℕ} {l : Label} {taken : Bool} (h : Follows size m M X) (hc : c < 16)
    (hready : Ready size m place a (jcc c l)) (hcond : condition c X.flags = some taken) :
    Step C ⟨a, X⟩ ⟨if taken then place l else a + 6, X⟩ :=
  step_jcc hc (h.laid hready) hcond

/-! ## Looking at the words of a store -/

theorem follows_look (h : Follows size m M X)
    (hmaps : MapsRead maps size m (X.reg r14) b.host.pageOff) (hne : q.t1 ≠ q.t2) (second : Bool)
    (hw : (checkedWord q second M).toNat * 8 < size)
    (hready : Ready size m place a
      ((preciseLoad q second).map .bytes ++ jcc 0x2 (Label.hit k))) :
    ∃ X', Steps C ⟨a, X⟩ ⟨if maps.static (checkedWord q second M) then place (.hit k)
        else a + BitVec.ofNat 64 (codeSize ((preciseLoad q second).map .bytes ++
          jcc 0x2 (Label.hit k))), X'⟩ ∧
      Follows size m (afterLook maps q second M) X' ∧ Spares X X' := by
  obtain ⟨hload, hjump⟩ := hready.append
  obtain ⟨X', hreads, hfollow, hspare, hcf⟩ := precise_reads h hmaps q hne second hw
  have hheld := laid_map_bytes.mp (h.laid hload)
  have hbytes : (preciseLoad q second).flatten =
      (preciseRequests q second).flatMap Request.bytes := by
    rw [preciseLoad_eq, List.flatMap_def]
  rw [hbytes] at hheld
  have hsize : codeSize ((preciseLoad q second).map .bytes : Code) =
      ((preciseRequests q second).flatMap Request.bytes).length := by
    rw [codeSize_map_bytes, hbytes]
  refine ⟨X', ?_, hfollow, hspare⟩
  have hjcc := hfollow.jumps (C := C) (by decide) hjump (condition_c hcf)
  rw [hsize] at hjcc
  rw [codeSize_append, hsize, codeSize_jcc, ← add_ofNat_add]
  exact (steps_reads hreads hheld).tail hjcc

theorem checkedWord_lt (second : Bool) (h : (M.reg q.rb).toNat + 8 ≤ size) :
    (checkedWord q second M).toNat * 8 < size := by
  unfold checkedWord
  cases second <;> simp only [Bool.false_eq_true, if_true, if_false] <;> bv_omega

theorem afterLook_reg (hne : q.rb ≠ q.t1 ∧ q.rb ≠ q.t2) (second : Bool) :
    (afterLook maps q second M).reg q.rb = M.reg q.rb := by
  simp [afterLook, Machine.State.set, Machine.State.setFlags, hne.1, hne.2]

/-! ## Where the machine goes -/

/-- The processor gets to `x` as the machine to `M`. -/
def Lands (C : Word → X86.State → X86.State → Prop) (size : ℕ) (m : Memory) (c : Core)
    (x : Word) (M : Machine.State) : Prop :=
  ∃ X', Steps C c ⟨x, X'⟩ ∧ Follows size m M X' ∧ Spares c.state X'

theorem Follows.lands {x : Word} (h : Follows size m M X) (hstep : Step C ⟨a, X⟩ ⟨x, X⟩) :
    Lands C size m ⟨a, X⟩ x M :=
  ⟨X, .single hstep, h, .refl X⟩

theorem Lands.head {x y : Word} (h : Lands C size m ⟨x, X⟩ y M)
    (hstep : Step C ⟨a, X⟩ ⟨x, X⟩) : Lands C size m ⟨a, X⟩ y M := by
  obtain ⟨X', hsteps, hfollow, hspare⟩ := h
  exact ⟨X', .head hstep hsteps, hfollow, hspare⟩

theorem Ready.label {l : Label} {ps : Code} (h : Ready size m place a (.label l :: ps)) :
    place l = a ∧ Ready size m place a ps :=
  ⟨h.laid.1, h.laid.2, by simpa [Piece.size] using h.beyond⟩

/-- A check out of line goes back, or gets to the way out in front of the instruction. -/
def ChecksOut (b : Parts) (C : Word → X86.State → X86.State → Prop) (size : ℕ) (m : Memory)
    (place : Label → Word) (s : Smc) (c : Core) (back : Word) :
    Outcome Machine.State Machine.Exit → Prop
  | .run M => Lands C size m c back M
  | .exit o M =>
      o = .smc s ∧
        ∃ x, Ready size m place x ((b.smcTail s).map .bytes) ∧ Lands C size m c x M
  | .stuck => True

theorem checkWords_lands (h : Follows size m M X)
    (hmaps : MapsRead maps size m (X.reg r14) b.host.pageOff) (hprecise : s.precise = some q)
    (hin : InMaps size (.jnz s) M)
    (hready : Ready size m place (place (.smc k)) (b.smcCode k s)) :
    ChecksOut b C size m place s ⟨place (.smc k), X⟩ (place (.back k))
      (Machine.checkWords maps s q M) := by
  obtain ⟨⟨hne, hrb⟩, hbound⟩ := hin q hprecise
  have hcode : b.smcCode k s = .label (.smc k) ::
      (((preciseLoad q false).map .bytes ++ jcc 0x2 (.hit k)) ++
        (((preciseLoad q true).map .bytes ++ jcc 0x2 (.hit k)) ++
          (jmp (.back k) ++ .label (.hit k) :: (b.smcTail s).map .bytes))) := by
    simp [smcCode, hprecise, preciseCode]
  rw [hcode] at hready
  obtain ⟨hfirst, hrest⟩ := hready.label.2.append
  obtain ⟨hsecond, hrest⟩ := hrest.append
  obtain ⟨hjmp, hhit⟩ := hrest.append
  obtain ⟨hplace, htail⟩ := hhit.label
  rw [← hplace] at htail
  obtain ⟨X₁, hsteps₁, hfollow₁, hspare₁⟩ := follows_look (C := C) h hmaps hne false
    (checkedWord_lt false hbound) hfirst
  rw [checkWords_eq]
  cases hword : maps.static (checkedWord q false M) with
  | true =>
      rw [hword] at hsteps₁
      exact ⟨rfl, _, htail, X₁, hsteps₁, hfollow₁, hspare₁⟩
  | false =>
      rw [hword] at hsteps₁
      rw [← spares_r14 hspare₁] at hmaps
      have hreg := @afterLook_reg maps M q hrb false
      obtain ⟨X₂, hsteps₂, hfollow₂, hspare₂⟩ := follows_look (C := C) hfollow₁ hmaps hne
        true (checkedWord_lt true (by rwa [hreg])) hsecond
      have hsteps := hsteps₁.trans hsteps₂
      have hspare := hspare₁.trans hspare₂
      simp only [Bool.false_eq_true, if_false]
      cases hword' : maps.static (checkedWord q true (afterLook maps q false M)) with
      | true =>
          rw [hword'] at hsteps
          exact ⟨rfl, _, htail, X₂, hsteps, hfollow₂, hspare⟩
      | false =>
          rw [hword'] at hsteps
          exact ⟨X₂, hsteps.tail (step_jmp (hfollow₂.laid hjmp)), hfollow₂, hspare⟩

/-- The same for instructions; exits through a branch get to the code of theirs. -/
def Arrives (b : Parts) (C : Word → X86.State → X86.State → Prop) (size : ℕ) (m : Memory)
    (place : Label → Word) (j : ℕ) (is : List Insn) (c : Core) (past : Word) :
    Outcome Machine.State Machine.Exit → Prop
  | .run M => Lands C size m c past M
  | .exit (.smc s) M =>
      s ∈ smcsOf is ∧
        ∃ x, Ready size m place x ((b.smcTail s).map .bytes) ∧ Lands C size m c x M
  | .exit (.stub s) M =>
      ∃ n, (stubsOf is)[n]? = some s ∧ Lands C size m c (place (.stub (j + n))) M
  | .stuck => True

theorem insn_arrives (h : Follows size m M X)
    (hmaps : MapsRead maps size m (X.reg r14) b.host.pageOff) (hin : InMaps size i M)
    (hready : Ready size m place a (b.insnCode k j i))
    (hsmc : ∀ s ∈ smcsOf [i], Ready size m place (place (.smc k)) (b.smcCode k s))
    (hdawn : AtEnd (fun M' => InDawn size M'.stores) (Machine.step maps i M)) :
    Arrives b C size m place j [i] ⟨a, X⟩ (a + BitVec.ofNat 64 (codeSize (b.insnCode k j i)))
      (Machine.step maps i M) := by
  have hplain : ∀ {q : Request}, b.insnCode k j i = [.bytes q.bytes] → q.Allowed →
      ∀ {X'}, X.step q.meaning = some X' →
        Step C ⟨a, X⟩ ⟨a + BitVec.ofNat 64 (codeSize (b.insnCode k j i)), X'⟩ := by
    intro q hcode hallowed X' hstep
    have hlaid := h.laid hready
    rw [hcode] at hlaid ⊢
    exact step_request hallowed hlaid.1 hstep
  have hstraight : b.insnCode k j i = [.bytes (encode b.host.pageOff i)] → Straight i →
      Arrives b C size m place j [i] ⟨a, X⟩
        (a + BitVec.ofNat 64 (codeSize (b.insnCode k j i))) (Machine.step maps i M) := by
    intro hcode hi
    obtain ⟨M', hstep⟩ := @straight_step maps i hi M
    rw [hstep] at hdawn ⊢
    rw [hcode] at hready ⊢
    obtain ⟨X', hone, hfollow, hspare⟩ := step_straight (C := C) h hi hready.laid.1
      hready.beyond hstep hdawn
    exact ⟨X', .single hone, hfollow, hspare⟩
  cases i with
  | testBitmap w =>
      obtain ⟨X', hstep, hspare, hfollow⟩ := follows_testBitmap h hmaps hin
      exact ⟨X', .single (hplain (q := .testBitmap w) rfl trivial hstep), hfollow, hspare⟩
  | cmpPage t =>
      obtain ⟨X', hstep, hspare, hfollow⟩ := follows_cmpPage h hmaps hin
      have hallowed : (Request.cmpByteZero r14 (allocRegs t) b.host.pageOff).Allowed :=
        (allocRegs_ne t).1
      exact ⟨X', .single (hplain rfl hallowed hstep), hfollow, hspare⟩
  | jnz s =>
      obtain ⟨hjump, hback⟩ := hready.append
      have hsmc' := hsmc s (by simp [smcsOf])
      cases hflags : M.flags with
      | none => simp [Machine.step, hflags, Arrives]
      | some f =>
          have hjcc := h.jumps (C := C) (by decide) hjump
            (condition_nz (h.agrees.flags f hflags).1)
          cases hz : f.zf with
          | true =>
              have hstep : Machine.step maps (.jnz s) M = .run M := by
                simp [Machine.step, hflags, hz]
              rw [hz] at hjcc
              rw [hstep]
              exact h.lands hjcc
          | false =>
              rw [hz] at hjcc
              cases hprecise : s.precise with
              | none =>
                  have hstep : Machine.step maps (.jnz s) M = .exit (.smc s) M := by
                    simp [Machine.step, hflags, hz, hprecise]
                  have hcode : b.smcCode k s =
                      .label (.smc k) :: (b.smcTail s).map .bytes := by
                    simp [smcCode, hprecise]
                  rw [hcode] at hsmc'
                  rw [hstep]
                  exact ⟨by simp [smcsOf], _, hsmc'.label.2, h.lands hjcc⟩
              | some q =>
                  have hstep : Machine.step maps (.jnz s) M = Machine.checkWords maps s q M := by
                    simp [Machine.step, hflags, hz, hprecise]
                  have hchecks := checkWords_lands (C := C) h hmaps hprecise
                    hin hsmc'
                  have hplace : place (.back k) =
                      a + BitVec.ofNat 64 (codeSize (b.insnCode k j (.jnz s))) :=
                    hback.label.1.trans (by simp [insnCode, Piece.size])
                  rw [hstep]
                  cases hwords : Machine.checkWords maps s q M with
                  | run M' =>
                      rw [hwords, hplace] at hchecks
                      exact Lands.head hchecks hjcc
                  | exit o M' =>
                      rw [hwords] at hchecks
                      obtain ⟨rfl, x, htail, hlands⟩ := hchecks
                      exact ⟨by simp [smcsOf], x, htail, hlands.head hjcc⟩
                  | stuck => trivial
  | jle s =>
      cases hflags : M.flags with
      | none => simp [Machine.step, hflags, Arrives]
      | some f =>
          obtain ⟨hz, hs, ho⟩ := h.agrees.flags f hflags
          have hstep : Machine.step maps (.jle s) M =
              if f.le then .exit (.stub s) M else .run M := by
            simp [Machine.step, hflags]
          have hjcc := h.jumps (C := C) (by decide) hready (condition_le hz hs ho)
          rw [hstep]
          cases hle : f.le with
          | true =>
              rw [hle] at hjcc
              exact ⟨0, rfl, h.lands hjcc⟩
          | false =>
              rw [hle] at hjcc
              exact h.lands hjcc
  | jmp s => exact ⟨0, rfl, h.lands (step_jmp (h.laid hready))⟩
  | shl r n => exact hstraight rfl hin
  | shr r n => exact hstraight rfl hin
  | _ => exact hstraight rfl trivial

theorem Arrives.cons {past : Word} {c : Core} {r : Outcome Machine.State Machine.Exit}
    (h : Arrives b C size m place (j + (stubsOf [i]).length) is c past r) :
    Arrives b C size m place j (i :: is) c past r := by
  cases r with
  | run M => exact h
  | stuck => trivial
  | exit o M =>
      cases o with
      | smc s =>
          obtain ⟨hmem, hlands⟩ := h
          exact ⟨by rw [smcsOf_cons]; exact List.mem_append_right _ hmem, hlands⟩
      | stub s =>
          obtain ⟨n, hn, hlands⟩ := h
          refine ⟨(stubsOf [i]).length + n, ?_, by rwa [← Nat.add_assoc]⟩
          rw [stubsOf_cons, List.getElem?_append_right (Nat.le_add_right _ _),
            Nat.add_sub_cancel_left, hn]

theorem Arrives.first {past : Word} {c : Core} {r : Outcome Machine.State Machine.Exit}
    (h : Arrives b C size m place j [i] c past r) (hrun : ∀ M, r ≠ .run M) {past' : Word} :
    Arrives b C size m place j (i :: is) c past' r := by
  cases r with
  | run M => exact absurd rfl (hrun M)
  | stuck => trivial
  | exit o M =>
      cases o with
      | smc s =>
          obtain ⟨hmem, hlands⟩ := h
          exact ⟨by rw [smcsOf_cons]; exact List.mem_append_left _ hmem, hlands⟩
      | stub s =>
          obtain ⟨n, hn, hlands⟩ := h
          refine ⟨n, ?_, hlands⟩
          rw [stubsOf_cons, List.getElem?_append_left (List.getElem?_eq_some_iff.mp hn).1, hn]

theorem Arrives.head {c c' : Core} {past : Word} {r : Outcome Machine.State Machine.Exit}
    (hsteps : Steps C c c') (hspare : Spares c.state c'.state)
    (h : Arrives b C size m place j is c' past r) :
    Arrives b C size m place j is c past r := by
  have hlands : ∀ {x : Word} {M : Machine.State}, Lands C size m c' x M →
      Lands C size m c x M := by
    rintro x M ⟨X', hsteps', hfollow, hspare'⟩
    exact ⟨X', hsteps.trans hsteps', hfollow, hspare.trans hspare'⟩
  cases r with
  | run M => exact hlands h
  | stuck => trivial
  | exit o M =>
      cases o with
      | smc s =>
          obtain ⟨hmem, x, htail, h⟩ := h
          exact ⟨hmem, x, htail, hlands h⟩
      | stub s =>
          obtain ⟨n, hn, h⟩ := h
          exact ⟨n, hn, hlands h⟩

theorem dawn_of_end {r : Outcome Machine.State Machine.Exit} (hgrows : AtEnd (Grows M) r)
    (hdawn : AtEnd (fun M' => InDawn size M'.stores) r) (hr : r ≠ .stuck) :
    InDawn size M.stores := by
  cases r with
  | run M' => exact .of_grows hgrows hdawn
  | exit o M' => exact .of_grows hgrows hdawn
  | stuck => exact absurd rfl hr

/-- The instructions of a block, from the one that starts at `a`. -/
theorem body_arrives (h : Follows size m M X)
    (hmaps : MapsRead maps size m (X.reg r14) b.host.pageOff) (hchecked : Checked size maps is M)
    (hready : Ready size m place a (b.bodyCode k j is))
    (hsmcs : ∀ n s, (smcsOf is)[n]? = some s →
      Ready size m place (place (.smc (k + n))) (b.smcCode (k + n) s))
    (hdawn : AtEnd (fun M' => InDawn size M'.stores) (exec (Machine.step maps) is M)) :
    Arrives b C size m place j is ⟨a, X⟩
      (a + BitVec.ofNat 64 (codeSize (b.bodyCode k j is))) (exec (Machine.step maps) is M) := by
  induction is generalizing M X a k j with
  | nil => exact ⟨X, by simpa [bodyCode] using Relation.ReflTransGen.refl, h, .refl X⟩
  | cons i is ih =>
      obtain ⟨hin, hrest⟩ := hchecked
      rw [bodyCode] at hready
      obtain ⟨hfirst, hafter⟩ := hready.append
      have hsmc : ∀ s ∈ smcsOf [i], Ready size m place (place (.smc k)) (b.smcCode k s) := by
        intro s hs
        obtain ⟨n, hn, hget⟩ := List.mem_iff_getElem.mp hs
        have hone := length_smcsOf_le i
        obtain rfl : n = 0 := by omega
        refine hsmcs 0 s ?_
        rw [smcsOf_cons, List.getElem?_append_left hn, List.getElem?_eq_getElem hn, hget]
      have hstep := @insn_arrives b maps M X i size k j a place C m h hmaps hin hfirst hsmc
      rw [exec] at hdawn ⊢
      cases hrun : Machine.step maps i M with
      | run M' =>
          simp only [hrun] at hdawn hstep ⊢
          by_cases hstuck : exec (Machine.step maps) is M' = .stuck
          · rw [hstuck]
            trivial
          obtain ⟨X', hsteps, hfollow, hspare⟩ :=
            hstep (dawn_of_end (exec_grows is M') hdawn hstuck)
          refine .cons (.head hsteps hspare ?_)
          rw [bodyCode, codeSize_append, ← add_ofNat_add]
          refine ih hfollow (by rwa [spares_r14 hspare]) (hrest M' hrun) hafter ?_ hdawn
          intro n s hn
          rw [Nat.add_assoc]
          refine hsmcs _ s ?_
          rw [smcsOf_cons, List.getElem?_append_right (Nat.le_add_right _ _),
            Nat.add_sub_cancel_left, hn]
      | exit o M' =>
          simp only [hrun] at hdawn hstep ⊢
          exact (hstep hdawn).first (by simp)
      | stuck => trivial

end BlockCode
end SubleqEmu
