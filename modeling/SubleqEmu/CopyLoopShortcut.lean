import SubleqEmu.CopyLoopRun

/-!
# `jit_copy` is the loop

What `jit_copy` refuses leaves the ranges apart from all that the loop changes, and
then its copy and its nine stores leave the bytes that the last iteration leaves.
-/

namespace SubleqEmu
namespace CopyLoop

open ByteMemory Subleq

variable {size : MemSize} {dynMap pageMap : Word → Bool} {mem m m' : Memory} {desc : Desc}

/-- `memmove` of `n` bytes. -/
def moved (mem : Memory) (d s n : Word) : Memory := fun a =>
  if (a - d).toNat < n.toNat then mem (s + (a - d)) else mem a

theorem ranges_of_refuses {n s d : Word} (hloop : Loop size dynMap mem desc)
    (hn : n.toNat ≤ 2 ^ 60 + 1) (h : refuses size pageMap desc n s d = false)
    (hholds : ∀ v ∈ [desc.t1, desc.t2, desc.s, desc.d, desc.c, desc.m], size.Holds v) :
    Ranges size desc s d n.toNat ∧ 4 ≤ n.toNat := by
  have hsize := size.le
  have hstart := hloop.start_le
  have hbytes : (8 * n).toNat = 8 * n.toNat := by bv_omega
  simp only [refuses, Bool.or_eq_false_iff, decide_eq_false_iff_not,
    List.any_eq_false, Bool.or_eq_true, not_or, Bool.not_eq_true, Bool.and_eq_false_iff] at h
  obtain ⟨⟨⟨⟨⟨hmin, ⟨⟨hs, hsb⟩, hd⟩, hdb⟩, horder⟩, hvars⟩, ⟨⟨⟨hm, hsl⟩, hdl⟩, -⟩, -⟩, -⟩ := h
  unfold copyMin at hmin
  have hs_le : s.toNat + 8 * n.toNat ≤ size.val := by bv_omega
  have hd_le : d.toNat + 8 * n.toNat ≤ size.val := by bv_omega
  have height : (8 : Word).toNat = 8 := rfl
  have hlength : (19 * 24 : Word).toNat = 456 := rfl
  have hsum : ∀ v, size.Holds v → v.toNat + (8 : Word).toNat < 2 ^ 64 := by
    intro v hv
    unfold MemSize.Holds at hv
    omega
  refine ⟨⟨hs_le, hd_le, ?_, ?_, ?_, ?_, ?_, hholds⟩, by bv_omega⟩
  · rcases horder with horder | horder <;> bv_omega
  · intro v hv
    have hmem : v ∈ [desc.t1, desc.t2, desc.s, desc.d, desc.c] ++ [desc.m] :=
      List.mem_append_left _ hv
    have hover := (overlaps_eq_false (by omega) (hsum v (hholds v hmem))).mp (hvars v hv).1
    omega
  · intro v hv
    have hover : overlaps d (8 * n) v 8 = false := by
      simp only [List.mem_cons, List.not_mem_nil, or_false] at hv hvars
      rcases hv with rfl | rfl | rfl | rfl | rfl | rfl
      · exact (hvars _ (by simp)).2
      · exact (hvars _ (by simp)).2
      · exact (hvars _ (by simp)).2
      · exact (hvars _ (by simp)).2
      · exact (hvars _ (by simp)).2
      · exact hm
    have hover' := (overlaps_eq_false (by omega) (hsum v (hholds v hv))).mp hover
    omega
  · have hover := (overlaps_eq_false (by omega) (by omega)).mp hsl
    omega
  · have hover := (overlaps_eq_false (by omega) (by omega)).mp hdl
    omega

/-- The variables that `jit_copy` writes are in memory if it returns. -/
theorem writeVars_holds {s d c bytes last : Word}
    (h : writeVars size desc s d c bytes last m = some m') :
    ∀ v ∈ [desc.t1, desc.t2, desc.s, desc.d, desc.c], size.Holds v := by
  unfold writeVars at h
  simp only [Option.bind_eq_bind, Option.bind_eq_some_iff, wr_eq_some] at h
  obtain ⟨_, ⟨hs, -⟩, _, ⟨hd, -⟩, _, ⟨hc, -⟩, _, ⟨ht1, -⟩, _, ⟨ht2, -⟩, -⟩ := h
  simp only [List.mem_cons, List.not_mem_nil, or_false]
  rintro v (rfl | rfl | rfl | rfl | rfl)
  exacts [ht1, ht2, hs, hd, hc]

/-- The nine stores, on the cells. -/
theorem writeVars_cells {s d c bytes last dst : Word} {env : Cell → Word}
    (hset : Setting size mem desc dst) (hat : At mem desc dst m env)
    (h : writeVars size desc s d c bytes last m = some m') :
    ∃ env', At mem desc dst m' env' ∧ env' .s = s + bytes ∧ env' .d = d + bytes ∧
      env' .c = c + bytes ∧ env' .t1 = -(d + bytes - 8) ∧ env' .t2 = -last ∧
      env' .f1 = s + bytes - 8 ∧ env' .f2 = d + bytes - 8 ∧ env' .f3 = d + bytes - 8 ∧
      env' .f4 = d + bytes - 8 ∧ env' .m = env .m ∧ env' .dst = env .dst := by
  have h₁ : desc.start + 5 * 24 = fieldAt desc.start 15 := by
    unfold fieldAt
    bv_omega
  have h₂ : desc.start + 15 * 24 + 8 = fieldAt desc.start 46 := by
    unfold fieldAt
    bv_omega
  have h₃ : desc.start + 14 * 24 = fieldAt desc.start 42 := by
    unfold fieldAt
    bv_omega
  have h₄ : desc.start + 14 * 24 + 8 = fieldAt desc.start 43 := by
    unfold fieldAt
    bv_omega
  unfold writeVars at h
  rw [h₄, h₃, h₂, h₁] at h
  simp only [Option.bind_eq_bind, Option.bind_eq_some_iff, wr_eq_some] at h
  obtain ⟨_, ⟨-, rfl⟩, _, ⟨-, rfl⟩, _, ⟨-, rfl⟩, _, ⟨-, rfl⟩, _, ⟨-, rfl⟩, _, ⟨-, rfl⟩, _,
    ⟨-, rfl⟩, _, ⟨-, rfl⟩, -, rfl⟩ := h
  have hwritten := ((((((((hat.write hset .s (s + bytes)).write hset .d
    (d + bytes)).write hset .c (c + bytes)).write hset .t1 (-(d + bytes - 8))).write hset .t2
    (-last)).write hset .f1 (s + bytes - 8)).write hset .f3 (d + bytes - 8)).write hset .f4
    (d + bytes - 8)).write hset .f2 (d + bytes - 8)
  exact ⟨_, hwritten, by simp [Function.update]⟩

section Shortcut

variable {n : ℕ}

/-- The copy and the nine stores leave what the iterations leave. -/
theorem After.eq_writeVars {last : Word} (hloop : Loop size dynMap m desc)
    (hranges : Ranges size desc (read m desc.s) (read m desc.d) (n + 1))
    (hafter : After m desc (n + 1) mem)
    (hlast : last = read m (read m desc.s + 8 * BitVec.ofNat 64 n))
    (h : writeVars size desc (read m desc.s) (read m desc.d) (read m desc.c)
      (8 * BitVec.ofNat 64 (n + 1)) last
      (moved m (read m desc.d) (read m desc.s) (8 * BitVec.ofNat 64 (n + 1))) = some m') :
    m' = mem := by
  have hsize := size.le
  have hd := hranges.d_le
  have hbytes : (8 * BitVec.ofNat 64 (n + 1)).toNat = 8 * (n + 1) := by bv_omega
  have hdl : read m desc.d + 8 * BitVec.ofNat 64 (n + 1) - 8 =
      read m desc.d + 8 * BitVec.ofNat 64 n := by bv_omega
  have hsl : read m desc.s + 8 * BitVec.ofNat 64 (n + 1) - 8 =
      read m desc.s + 8 * BitVec.ofNat 64 n := by bv_omega
  have hmoved : ∀ a : Word, 8 * (n + 1) ≤ (a - read m desc.d).toNat →
      moved m (read m desc.d) (read m desc.s) (8 * BitVec.ofNat 64 (n + 1)) a = m a :=
    fun a ha => if_neg (by omega)
  -- the block copy changes none of the cells
  have hkept : ∀ x : Cell, x ≠ .dst →
      read (moved m (read m desc.d) (read m desc.s) (8 * BitVec.ofNat 64 (n + 1)))
        (x.addr desc 0) = read m (x.addr desc 0) := by
    intro x hx
    refine read_congr fun k hk => hmoved _ ?_
    by_contra hin
    have hfar := hranges.destination_far hloop (Nat.lt_of_not_le hin) hx
    bv_omega
  have hloop' : Loop size dynMap
      (moved m (read m desc.d) (read m desc.s) (8 * BitVec.ofNat 64 (n + 1))) desc := by
    refine hloop.congr fun a ha => read_congr fun k hk => hmoved _ ?_
    obtain ⟨i, hi, -, rfl⟩ := mem_compared_iff.mp ha
    have hfield := fieldAt_toNat (hloop.start_le.trans hsize) hi
    have hstart := hloop.start_le
    rcases hranges.d_loop with hout | hout <;> bv_omega
  have hset := hranges.setting hloop' (read m desc.d + 8 * BitVec.ofNat 64 n) (by bv_omega)
    (by bv_omega)
  obtain ⟨env, hat, hs', hd', hc', ht1, ht2, hf1, hf2, hf3, hf4, hm', hdst'⟩ :=
    writeVars_cells hset ⟨fun _ _ _ => rfl, fun _ => rfl, fun _ _ => rfl⟩ h
  obtain ⟨hcs, hcd, hcc, hcm⟩ := cellsAfter_counts m desc n
  have hcells : ∀ x : Cell, x ≠ .dst → env x = cellsAfter m desc (n + 1) x := by
    intro x hx
    obtain ⟨hcs', hcd', hcc', hcm'⟩ := cellsAfter_counts m desc (n + 1)
    cases x with
    | s => rw [hs', hcs']
    | d => rw [hd', hcd']
    | c => rw [hc', hcc']
    | m => exact (hm'.trans (hkept .m nofun)).trans hcm'.symm
    | t1 => rw [ht1, hdl, cellsAfter, iterated, hcd]
    | t2 => rw [ht2, hlast, cellsAfter, iterated]
    | f1 => rw [hf1, hsl, cellsAfter, iterated, hcs]
    | f2 => rw [hf2, hdl, cellsAfter, iterated, hcd]
    | f3 => rw [hf3, hdl, cellsAfter, iterated, hcd]
    | f4 => rw [hf4, hdl, cellsAfter, iterated, hcd]
    | dst => exact absurd rfl hx
  funext a
  by_cases hcell : ∃ x : Cell, x ≠ .dst ∧ (a - x.addr desc 0).toNat < 8
  · obtain ⟨x, hx, ha⟩ := hcell
    have hread := hat.cell x
    rw [x.addr_of_ne hx, hcells x hx, ← hafter.cell x hx] at hread
    exact byte_congr hread ha
  · have hfar : ∀ x : Cell, x ≠ .dst → 8 ≤ (a - x.addr desc 0).toNat :=
      fun x hx => Nat.le_of_not_lt fun ha => hcell ⟨x, hx, ha⟩
    have hcopy : m' a =
        moved m (read m desc.d) (read m desc.s) (8 * BitVec.ofNat 64 (n + 1)) a := by
      by_cases hlastWord : (a - (read m desc.d + 8 * BitVec.ofNat 64 n)).toNat < 8
      · exact byte_congr ((hat.cell .dst).trans hdst') hlastWord
      · refine hat.other a fun x => ?_
        by_cases hx : x = .dst
        · subst hx
          exact Nat.le_of_not_lt hlastWord
        · rw [x.addr_of_ne hx]
          exact hfar x hx
    rw [hcopy]
    by_cases ha : (a - read m desc.d).toNat < 8 * (n + 1)
    · rw [hafter.copied a ha, moved, if_pos (by omega)]
    · rw [hafter.other a hfar (by omega), hmoved a (by omega)]

theorem jitCopy_eq_some {copyFn : Memory → Word → Word → Word → Memory} {budget : Word}
    {r : CopyResult} (h : jitCopy size pageMap copyFn desc budget m = some (r, m')) :
    r.n = 0 ∧ m' = m ∨
    ∃ n : Word, n.toNat ≤ budget.toNat / 19 + 1 ∧
      n.toNat ≤ (totalOf (read m desc.c)).toNat ∧
      r = ⟨n, n = totalOf (read m desc.c)⟩ ∧ size.Holds desc.m ∧ read m desc.m = -8 ∧
      refuses size pageMap desc n (read m desc.s) (read m desc.d) = false ∧
      writeVars size desc (read m desc.s) (read m desc.d) (read m desc.c) (8 * n)
        (read m (read m desc.s + 8 * n - 8))
        (copyFn m (read m desc.d) (read m desc.s) (8 * n)) = some m' := by
  unfold jitCopy at h
  obtain ⟨mv, hmv, h⟩ := Option.bind_eq_some_iff.mp h
  obtain ⟨hholds, rfl⟩ := rd_eq_some.mp hmv
  split_ifs at h with hm
  · obtain ⟨rfl, rfl⟩ := Prod.mk.inj (Option.some.inj h)
    exact Or.inl ⟨rfl, rfl⟩
  obtain ⟨s, hs, h⟩ := Option.bind_eq_some_iff.mp h
  obtain ⟨-, rfl⟩ := rd_eq_some.mp hs
  obtain ⟨d, hd, h⟩ := Option.bind_eq_some_iff.mp h
  obtain ⟨-, rfl⟩ := rd_eq_some.mp hd
  obtain ⟨c, hc, h⟩ := Option.bind_eq_some_iff.mp h
  obtain ⟨-, rfl⟩ := rd_eq_some.mp hc
  have hbudget : (budget / 19 + 1).toNat = budget.toNat / 19 + 1 := by
    rw [BitVec.toNat_add, BitVec.toNat_udiv]
    simp only [show (19 : Word).toNat = 19 from rfl, show (1 : Word).toNat = 1 from rfl]
    omega
  obtain ⟨n, hn⟩ : ∃ n, n = if budget / 19 + 1 > totalOf (read m desc.c)
    then totalOf (read m desc.c) else budget / 19 + 1 := ⟨_, rfl⟩
  simp only [← hn] at h
  split_ifs at h with hrefuses
  · obtain ⟨rfl, rfl⟩ := Prod.mk.inj (Option.some.inj h)
    exact Or.inl ⟨rfl, rfl⟩
  obtain ⟨last, hlast, h⟩ := Option.bind_eq_some_iff.mp h
  obtain ⟨-, rfl⟩ := rd_eq_some.mp hlast
  obtain ⟨written, hwritten, h⟩ := Option.bind_eq_some_iff.mp h
  obtain ⟨rfl, rfl⟩ := Prod.mk.inj (Option.some.inj h)
  refine Or.inr ⟨n, ?_, ?_, rfl, hholds, not_not.mp hm, by simpa using hrefuses, hwritten⟩
  · rw [hn]
    split_ifs with hle <;> bv_omega
  · rw [hn]
    split_ifs with hle <;> bv_omega

/-- What `jit_copy` does at once is what the interpreter does in 19 steps for each
iteration, and only the last iteration can end after the budget. -/
theorem jitCopy_eq_loop {mem₀ : Memory} {copyFn : Memory → Word → Word → Word → Memory}
    (hcopy : ∀ (m : Memory) (d s n : Word), s.toNat + n.toNat ≤ size.val →
      d.toNat + n.toNat ≤ size.val → d.toNat ≤ s.toNat ∨ s.toNat + n.toNat ≤ d.toNat →
      copyFn m d s n = moved m d s n)
    {start budget : Word} {r : CopyResult}
    (hmatch : matchCopy size dynMap mem₀ start = some desc)
    (hsame : ∀ a ∈ compared start, read m a = read mem₀ a)
    (hrun : jitCopy size pageMap copyFn desc budget m = some (r, m')) :
    (r.n = 0 → m' = m) ∧
    (0 < r.n → interpRun size (19 * r.n.toNat) (m, start) =
        some (m', if r.done then start + 19 * 24 else start) ∧
      19 * (r.n.toNat - 1) ≤ budget.toNat) := by
  obtain ⟨hloop₀, rfl⟩ := matchCopy_eq_some hmatch
  have hloop := hloop₀.congr hsame
  have hsize := size.le
  rcases jitCopy_eq_some hrun with ⟨hn, hm⟩ | ⟨n, hbudget, htotal, rfl, hholds, hm, hrefuses, hw⟩
  · refine ⟨fun _ => hm, fun hpos => ?_⟩
    rw [hn] at hpos
    exact absurd hpos (by decide)
  have hle := (totalOf_bounds (read m desc.c)).2
  have hvars : ∀ v ∈ [desc.t1, desc.t2, desc.s, desc.d, desc.c] ++ [desc.m],
      size.Holds v := by
    intro v hv
    rcases List.mem_append.mp hv with hv | hv
    · exact writeVars_holds hw v hv
    · rwa [List.mem_singleton.mp hv]
  obtain ⟨hranges, hmin⟩ := ranges_of_refuses hloop (htotal.trans hle) hrefuses hvars
  refine ⟨fun hn => ?_, fun _ => ⟨?_, by simp only; omega⟩⟩
  · simp only at hn
    rw [hn] at hmin
    exact absurd hmin (by decide)
  obtain ⟨j, hj⟩ : ∃ j, n.toNat = j + 1 := ⟨n.toNat - 1, by omega⟩
  have hnj : n = BitVec.ofNat 64 (j + 1) := by bv_omega
  obtain ⟨m₁, hloopRun, hafter⟩ := After.run hloop hranges hm le_rfl htotal
  have hs := hranges.s_le
  have hd := hranges.d_le
  have hbytes : (8 * n).toNat = 8 * n.toNat := by bv_omega
  rw [hcopy _ _ _ _ (by omega) (by omega) (by have := hranges.order; omega), hnj] at hw
  rw [hj] at hranges hafter
  have hword : read m desc.s + 8 * BitVec.ofNat 64 (j + 1) - 8 =
      read m desc.s + 8 * BitVec.ofNat 64 j := by bv_omega
  rw [hword] at hw
  obtain rfl := hafter.eq_writeVars hloop hranges rfl hw
  rw [hloopRun]
  have hend : insnAt desc.start 19 = desc.start + 19 * 24 := by
    unfold insnAt
    bv_omega
  simp only [decide_eq_true_eq, hend, BitVec.toNat_inj]

end Shortcut

/-! ## A loop of four words -/

def sampleDesc : Desc := ⟨4096, 8192, 8200, 8208, 8216, 8224, 8232⟩

/-- Word `i` of a memory with the loop, its variables, and what it is to copy. -/
def sampleWord (i : ℕ) : Word :=
  if 512 ≤ i ∧ i < 569 then
    let k := (i - 512) / 3
    let symbolOf : Symbol → Word
      | .any => 0
      | .sd => if k = 16 then sampleDesc.s else sampleDesc.d
      | x => sampleDesc.addr x
    match copyTmpl[k]?, (i - 512) % 3 with
    | some fields, 0 => symbolOf fields.1
    | some fields, 1 => symbolOf fields.2
    | _, _ => nextOf 4096 k
  else if i = 1026 then 8704
  else if i = 1027 then 9216
  else if i = 1028 then -24
  else if i = 1029 then -8
  else BitVec.ofNat 64 (i * i)

def sampleMemory : Memory := fun a => byteAt (sampleWord (a.toNat / 8)) (a.toNat % 8)

def sampleSize : MemSize := ⟨16384, by decide⟩

/-- Four words are copied, as 76 instructions do. -/
theorem jitCopy_eq_loop_fourWords :
    ∃ m, jitCopy sampleSize (fun _ => false) moved sampleDesc 57 sampleMemory =
        some (⟨4, true⟩, m) ∧
      interpRun sampleSize 76 (sampleMemory, 4096) = some (m, 4552) := by
  have hmatch : matchCopy sampleSize (fun _ => false) sampleMemory 4096 = some sampleDesc := by
    decide +kernel
  have hresult : (jitCopy sampleSize (fun _ => false) moved sampleDesc 57 sampleMemory).map
      Prod.fst = some ⟨4, true⟩ := by decide +kernel
  obtain ⟨⟨r, m⟩, hrun, hr⟩ := Option.map_eq_some_iff.mp hresult
  obtain rfl : r = ⟨4, true⟩ := hr
  refine ⟨m, hrun, ?_⟩
  exact ((jitCopy_eq_loop (fun _ _ _ _ _ _ _ => rfl) hmatch (fun _ _ => rfl) hrun).2
    (by decide)).1

end CopyLoop
end SubleqEmu
