import SubleqEmu.CopyLoopModel

/-!
# What `match_copy` accepts

A matched loop has the fields of the template, none of them dynamic, with one
address for each symbol, and its variables are apart from each other and from the
loop.
-/

namespace SubleqEmu
namespace CopyLoop

open ByteMemory Subleq

variable {size : MemSize} {dynMap : Word → Bool} {mem : Memory}

/-! ## Symbols -/

/-- What is bound stays so. -/
def Match.Extends (st st' : Match) : Prop :=
  ∀ x, st.bound x = true → st'.bound x = true ∧ st'.sym x = st.sym x

theorem Match.Extends.refl (st : Match) : st.Extends st := fun _ h => ⟨h, rfl⟩

theorem Match.Extends.trans {st st' st'' : Match} (h : st.Extends st')
    (h' : st'.Extends st'') : st.Extends st'' := by
  intro x hx
  obtain ⟨hbound, hsym⟩ := h x hx
  obtain ⟨hbound', hsym'⟩ := h' x hbound
  exact ⟨hbound', hsym'.trans hsym⟩

/-- A field that was compared with a symbol. -/
structure FieldOk (size : MemSize) (dynMap : Word → Bool) (mem : Memory) (st : Match)
    (p : Word) (x : Symbol) : Prop where
  holds : size.Holds p
  field : x ≠ .any → dynMap (p >>> 3) = false ∧
    (x ≠ .sd → st.bound x = true ∧ read mem p = st.sym x)

theorem FieldOk.mono {st st' : Match} {p : Word} {x : Symbol}
    (h : FieldOk size dynMap mem st p x) (hst : st.Extends st') :
    FieldOk size dynMap mem st' p x := by
  refine ⟨h.holds, fun hany => ⟨(h.field hany).1, fun hsd => ?_⟩⟩
  obtain ⟨hbound, hread⟩ := (h.field hany).2 hsd
  obtain ⟨hbound', hsym⟩ := hst x hbound
  exact ⟨hbound', hread.trans hsym.symm⟩

theorem matchField_normal {k : ℕ} {p : Word} {x : Symbol} {st st' : Match}
    (hsd : x ≠ .sd) (h : matchField size dynMap mem k p x st = some st') :
    st.Extends st' ∧ FieldOk size dynMap mem st' p x := by
  obtain ⟨v, hrd, h⟩ := Option.bind_eq_some_iff.mp h
  obtain ⟨hholds, hread⟩ := rd_eq_some.mp hrd
  by_cases hany : x = .any
  · subst hany
    obtain rfl := Option.some.inj h
    exact ⟨.refl _, hholds, fun hne => absurd rfl hne⟩
  replace h : (if dynMap (p >>> 3) then none
      else if st.bound x = false then
        some { st with
          sym := Function.update st.sym x v
          bound := Function.update st.bound x true }
      else if st.sym x ≠ v then none
      else some st) = some st' := by
    cases x <;> first | exact h | exact absurd rfl hany | exact absurd rfl hsd
  split_ifs at h with hdyn hbound hne
  · -- the symbol is bound here
    obtain rfl := Option.some.inj h
    refine ⟨?_, hholds, fun _ => ⟨by simpa using hdyn, fun _ => ?_⟩⟩
    · intro y hy
      have hyx : y ≠ x := by
        rintro rfl
        rw [hbound] at hy
        contradiction
      simp only [Function.update_of_ne hyx]
      exact ⟨hy, trivial⟩
    · simp only [Function.update_self]
      exact ⟨trivial, hread⟩
  · obtain rfl := Option.some.inj h
    refine ⟨.refl _, hholds, fun _ => ⟨by simpa using hdyn, fun _ => ?_⟩⟩
    exact ⟨by simpa using hbound, hread.trans (not_not.mp hne).symm⟩

theorem matchField_sd {k : ℕ} {p : Word} {st st' : Match}
    (h : matchField size dynMap mem k p .sd st = some st') :
    st.Extends st' ∧ FieldOk size dynMap mem st' p .sd ∧
      (read mem p = st.sym .s ∨ read mem p = st.sym .d) ∧
      if k = 16 then st'.sd = read mem p else st' = st ∧ read mem p ≠ st.sd := by
  obtain ⟨v, hrd, h⟩ := Option.bind_eq_some_iff.mp h
  obtain ⟨hholds, rfl⟩ := rd_eq_some.mp hrd
  simp only at h
  split_ifs at h with hdyn hk hne hne
  · obtain rfl := Option.some.inj h
    refine ⟨fun _ hx => ⟨hx, rfl⟩, ⟨hholds, fun _ => ⟨by simpa using hdyn, fun hsd => ?_⟩⟩,
      by tauto, by rw [if_pos hk]⟩
    exact absurd rfl hsd
  · obtain rfl := Option.some.inj h
    refine ⟨.refl _, ⟨hholds, fun _ => ⟨by simpa using hdyn, fun hsd => absurd rfl hsd⟩⟩,
      by tauto, ?_⟩
    rw [if_neg hk]
    exact ⟨rfl, fun heq => hne (Or.inl heq)⟩

/-! ## Instructions -/

/-- An instruction that matched its row of the template. -/
structure RowOk (size : MemSize) (dynMap : Word → Bool) (mem : Memory) (st : Match)
    (start : Word) (k : ℕ) (fields : Symbol × Symbol) : Prop where
  a : FieldOk size dynMap mem st (insnAt start k) fields.1
  b : FieldOk size dynMap mem st (insnAt start k + 8) fields.2
  c : size.Holds (insnAt start k + 16) ∧
    dynMap ((insnAt start k + 16) >>> 3) = false ∧
    read mem (insnAt start k + 16) = nextOf start k

theorem RowOk.mono {st st' : Match} {start : Word} {k : ℕ} {fields : Symbol × Symbol}
    (h : RowOk size dynMap mem st start k fields) (hst : st.Extends st') :
    RowOk size dynMap mem st' start k fields :=
  ⟨h.a.mono hst, h.b.mono hst, h.c⟩

theorem matchInsn_eq_some {start : Word} {k : ℕ} {fields : Symbol × Symbol} {st st' : Match}
    (h : matchInsn size dynMap mem start k fields st = some st') :
    (size.Holds (insnAt start k + 16) ∧
      dynMap ((insnAt start k + 16) >>> 3) = false ∧
      read mem (insnAt start k + 16) = nextOf start k) ∧
    ∃ st₁, matchField size dynMap mem k (insnAt start k) fields.1 st = some st₁ ∧
      matchField size dynMap mem k (insnAt start k + 8) fields.2 st₁ = some st' := by
  obtain ⟨c, hrd, h⟩ := Option.bind_eq_some_iff.mp h
  obtain ⟨hholds, rfl⟩ := rd_eq_some.mp hrd
  split_ifs at h with hc
  obtain ⟨st₁, ha, hb⟩ := Option.bind_eq_some_iff.mp h
  rw [not_or, not_not] at hc
  exact ⟨⟨hholds, by simpa using hc.2, hc.1⟩, st₁, ha, hb⟩

theorem matchInsn_normal {start : Word} {k : ℕ} {fields : Symbol × Symbol} {st st' : Match}
    (ha : fields.1 ≠ .sd) (hb : fields.2 ≠ .sd)
    (h : matchInsn size dynMap mem start k fields st = some st') :
    st.Extends st' ∧ RowOk size dynMap mem st' start k fields := by
  obtain ⟨hc, st₁, hfst, hsnd⟩ := matchInsn_eq_some h
  obtain ⟨hext₁, hok₁⟩ := matchField_normal ha hfst
  obtain ⟨hext₂, hok₂⟩ := matchField_normal hb hsnd
  exact ⟨hext₁.trans hext₂, hok₁.mono hext₂, hok₂, hc⟩

theorem matchInsns_append {start : Word} {k : ℕ} {rows rows' : List (Symbol × Symbol)}
    {st : Match} :
    matchInsns size dynMap mem start k (rows ++ rows') st =
      (matchInsns size dynMap mem start k rows st).bind
        (matchInsns size dynMap mem start (k + rows.length) rows') := by
  induction rows generalizing k st with
  | nil => rfl
  | cons row rows ih =>
      rw [List.cons_append, matchInsns, matchInsns]
      cases matchInsn size dynMap mem start k row st with
      | none => rfl
      | some st₁ =>
          rw [Option.bind_some, Option.bind_some, ih, List.length_cons, Nat.add_right_comm,
            Nat.add_assoc]

theorem matchInsns_normal {start : Word} {k : ℕ} {rows : List (Symbol × Symbol)}
    {st st' : Match} (hrows : ∀ row ∈ rows, row.1 ≠ .sd ∧ row.2 ≠ .sd)
    (h : matchInsns size dynMap mem start k rows st = some st') :
    st.Extends st' ∧ ∀ j row, rows[j]? = some row →
      RowOk size dynMap mem st' start (k + j) row := by
  induction rows generalizing k st with
  | nil =>
      obtain rfl := Option.some.inj h
      exact ⟨.refl _, by simp⟩
  | cons row rows ih =>
      obtain ⟨st₁, hfirst, hrest⟩ := Option.bind_eq_some_iff.mp h
      obtain ⟨ha, hb⟩ := hrows row List.mem_cons_self
      obtain ⟨hext₁, hok⟩ := matchInsn_normal ha hb hfirst
      obtain ⟨hext₂, hoks⟩ :=
        ih (fun row hrow => hrows row (List.mem_cons_of_mem _ hrow)) hrest
      refine ⟨hext₁.trans hext₂, ?_⟩
      intro j other hother
      cases j with
      | zero =>
          obtain rfl := Option.some.inj hother
          exact hok.mono hext₂
      | succ j =>
          have hrow := hoks j other hother
          rwa [Nat.add_right_comm, Nat.add_assoc] at hrow

/-! ## Loops -/

/-- A loop, as `match_copy` has found it in memory. -/
structure Loop (size : MemSize) (dynMap : Word → Bool) (mem : Memory) (desc : Desc) :
    Prop where
  start_le : desc.start.toNat + 456 ≤ size.val
  next : ∀ k < 19, read mem (insnAt desc.start k + 16) = nextOf desc.start k
  fieldA : ∀ k a b, copyTmpl[k]? = some (a, b) → a ≠ .any → a ≠ .sd →
    read mem (insnAt desc.start k) = desc.addr a
  fieldB : ∀ k a b, copyTmpl[k]? = some (a, b) → b ≠ .any → b ≠ .sd →
    read mem (insnAt desc.start k + 8) = desc.addr b
  /-- `S` and `D` in either order -/
  fieldsSd :
    read mem (insnAt desc.start 16 + 8) = desc.s ∧
        read mem (insnAt desc.start 17 + 8) = desc.d ∨
      read mem (insnAt desc.start 16 + 8) = desc.d ∧
        read mem (insnAt desc.start 17 + 8) = desc.s
  notDynamic : ∀ a ∈ compared desc.start, dynMap (a >>> 3) = false
  /-- the check lets the last word of the address space pass -/
  var : ∀ v ∈ [desc.t1, desc.t2, desc.s, desc.d, desc.c, desc.m],
    v.toNat % 8 = 0 ∧ (size.Holds v →
      v.toNat + 8 ≤ desc.start.toNat ∨ desc.start.toNat + 456 ≤ v.toNat)
  vars_nodup : [desc.t1, desc.t2, desc.s, desc.d, desc.c, desc.m].Nodup

theorem insnAt_toNat {start : Word} {k : ℕ} (h : start.toNat + 456 ≤ 2 ^ 47) (hk : k < 19) :
    (insnAt start k).toNat = start.toNat + 24 * k := by
  unfold insnAt
  bv_omega

theorem var_of_varOk {start v : Word} (hstart : start.toNat + 456 ≤ size.val)
    (h : varOk (BitVec.ofNat 64 size.val) start v = true) :
    v.toNat % 8 = 0 ∧ (size.Holds v →
      v.toNat + 8 ≤ start.toNat ∨ start.toNat + 456 ≤ v.toNat) := by
  have hsize := size.le
  simp only [varOk, Bool.and_eq_true, decide_eq_true_eq, Bool.not_eq_true',
    Bool.and_eq_false_iff, decide_eq_false_iff_not] at h
  obtain ⟨⟨haligned, -⟩, hloop⟩ := h
  refine ⟨?_, fun hholds => ?_⟩
  · have hbits := congrArg BitVec.toNat haligned
    rw [BitVec.toNat_and] at hbits
    simpa using (Nat.and_two_pow_sub_one_eq_mod v.toNat 3).symm.trans hbits
  · unfold MemSize.Holds at hholds
    rcases hloop with hloop | hloop <;> [left; right] <;> bv_omega

/-- The rows before the ones in which `S` and `D` come in either order. -/
theorem copyTmpl_eq : copyTmpl = copyTmpl.take 16 ++ [(.m, .sd), (.m, .sd), (.m, .c)] := rfl

theorem Match.start_sym {start : Word} {st : Match} (h : (Match.start start).Extends st)
    {x : Symbol} (hx : (Match.start start).bound x = true) :
    st.sym x = (Match.start start).sym x :=
  (h x hx).2

/-- The addresses that the description does not name are those of the fields. -/
theorem addr_eq {start : Word} {st : Match} (h : (Match.start start).Extends st) {x : Symbol}
    (hany : x ≠ .any) (hsd : x ≠ .sd) :
    st.sym x = Desc.addr ⟨start, st.sym .t1, st.sym .t2, st.sym .s, st.sym .d, st.sym .c,
      st.sym .m⟩ x := by
  cases x <;> first
    | rfl
    | exact Match.start_sym h rfl
    | exact absurd rfl hany
    | exact absurd rfl hsd

theorem mem_compared {start a : Word} (h : a ∈ compared start) :
    ∃ k fields, copyTmpl[k]? = some fields ∧
      (fields.1 ≠ .any ∧ a = insnAt start k ∨ fields.2 ≠ .any ∧ a = insnAt start k + 8 ∨
        a = insnAt start k + 16) := by
  unfold compared at h
  obtain ⟨⟨fields, k⟩, hrow, ha⟩ := List.mem_flatMap.mp h
  refine ⟨k, fields, List.mem_zipIdx_iff_getElem?.mp hrow, ?_⟩
  simp only [List.mem_append, List.mem_singleton] at ha
  split_ifs at ha <;> simp_all [or_assoc]

/-- The 19 rows one after the other. -/
theorem matchInsns_copyTmpl {start : Word} {st st' : Match}
    (h : matchInsns size dynMap mem start 0 copyTmpl st = some st') :
    st.Extends st' ∧
      (∀ k row, copyTmpl[k]? = some row → RowOk size dynMap mem st' start k row) ∧
      (read mem (insnAt start 16 + 8) = st'.sym .s ∧
          read mem (insnAt start 17 + 8) = st'.sym .d ∨
        read mem (insnAt start 16 + 8) = st'.sym .d ∧
          read mem (insnAt start 17 + 8) = st'.sym .s) := by
  have hlength : 0 + (copyTmpl.take 16).length = 16 := rfl
  rw [copyTmpl_eq, matchInsns_append, hlength] at h
  obtain ⟨st₀, hrows, h⟩ := Option.bind_eq_some_iff.mp h
  obtain ⟨hext₀, hok₀⟩ := matchInsns_normal (by decide) hrows
  obtain ⟨st₁, hrow₁, h⟩ := Option.bind_eq_some_iff.mp h
  obtain ⟨st₂, hrow₂, h⟩ := Option.bind_eq_some_iff.mp h
  obtain ⟨hext₃, hok₃⟩ := matchInsns_normal (by decide) h
  obtain ⟨hc₁, st₁', hm₁, hsd₁⟩ := matchInsn_eq_some hrow₁
  obtain ⟨hc₂, st₂', hm₂, hsd₂⟩ := matchInsn_eq_some hrow₂
  obtain ⟨hextm₁, hokm₁⟩ := matchField_normal (by decide) hm₁
  obtain ⟨hextm₂, hokm₂⟩ := matchField_normal (by decide) hm₂
  obtain ⟨hexts₁, hoks₁, hor₁, heq₁⟩ := matchField_sd hsd₁
  obtain ⟨hexts₂, hoks₂, hor₂, heq₂⟩ := matchField_sd hsd₂
  have hext₂' := hexts₂.trans hext₃
  have hext₁ := hextm₂.trans hext₂'
  have hext₁' := hexts₁.trans hext₁
  refine ⟨hext₀.trans (hextm₁.trans hext₁'), ?_, ?_⟩
  · intro k row hk
    have hlt : k < 19 := (List.getElem?_eq_some_iff.mp hk).1
    by_cases hfirst : k < 16
    · have hrow := hok₀ k row (by rwa [List.getElem?_take_of_lt hfirst])
      rw [Nat.zero_add] at hrow
      exact hrow.mono (hextm₁.trans hext₁')
    obtain rfl | rfl | rfl : k = 16 ∨ k = 17 ∨ k = 18 := by omega
    · obtain rfl := Option.some.inj hk
      exact ⟨hokm₁.mono hext₁', hoks₁.mono hext₁, hc₁⟩
    · obtain rfl := Option.some.inj hk
      exact ⟨hokm₂.mono hext₂', hoks₂.mono hext₃, hc₂⟩
    · exact hok₃ 0 row hk
  · -- `S` and `D` are bound by then, so that both rows compare with the same values
    have hbound : ∀ x, x = .s ∨ x = .d → st₀.bound x = true := by
      rintro x (rfl | rfl)
      · exact (((hok₀ 3 _ rfl).a.field (by decide)).2 (by decide)).1
      · exact (((hok₀ 10 _ rfl).a.field (by decide)).2 (by decide)).1
    have hsym : ∀ x, x = .s ∨ x = .d →
        st₁'.sym x = st'.sym x ∧ st₂'.sym x = st'.sym x := by
      intro x hx
      have h₁ := (hextm₁ x (hbound x hx)).1
      have h₂ := (hexts₁ x h₁).1
      exact ⟨((hext₁' x h₁).2).symm, ((hext₂' x ((hextm₂ x h₂).1)).2).symm⟩
    have hother : read mem (insnAt start 17 + 8) ≠ read mem (insnAt start 16 + 8) := by
      rw [if_pos rfl] at heq₁
      rw [if_neg (by decide)] at heq₂
      have hkept : st₂'.sd = st₁.sd := by
        obtain ⟨v, -, hm⟩ := Option.bind_eq_some_iff.mp hm₂
        simp only at hm
        split_ifs at hm <;> obtain rfl := Option.some.inj hm <;> rfl
      rw [← heq₁, ← hkept]
      exact heq₂.2
    rw [(hsym _ (Or.inl rfl)).1, (hsym _ (Or.inr rfl)).1] at hor₁
    rw [(hsym _ (Or.inl rfl)).2, (hsym _ (Or.inr rfl)).2] at hor₂
    rcases hor₁ with h₁ | h₁ <;> rcases hor₂ with h₂ | h₂
    · exact absurd (h₂.trans h₁.symm) hother
    · exact Or.inl ⟨h₁, h₂⟩
    · exact Or.inr ⟨h₁, h₂⟩
    · exact absurd (h₂.trans h₁.symm) hother

theorem matchCopy_eq_some {start : Word} {desc : Desc}
    (h : matchCopy size dynMap mem start = some desc) :
    Loop size dynMap mem desc ∧ desc.start = start := by
  have hsize := size.le
  unfold matchCopy at h
  simp only at h
  split_ifs at h with hend
  obtain ⟨st, hrows, h⟩ := Option.bind_eq_some_iff.mp h
  split_ifs at h with hvars
  obtain rfl := Option.some.inj h
  obtain ⟨hext, hrow, hsd⟩ := matchInsns_copyTmpl hrows
  rw [Bool.and_eq_true, List.all_eq_true, decide_eq_true_eq] at hvars
  have hlow : start.toNat + 8 ≤ size.val := by
    have hfirst := (hrow 0 _ rfl).a.holds
    unfold MemSize.Holds insnAt at hfirst
    bv_omega
  have hstart : start.toNat + 456 ≤ size.val := by bv_omega
  refine ⟨⟨hstart, ?_, ?_, ?_, hsd, ?_, ?_, hvars.2⟩, rfl⟩
  · intro k hk
    obtain ⟨row, hget⟩ : ∃ row, copyTmpl[k]? = some row := ⟨_, List.getElem?_eq_getElem hk⟩
    exact (hrow k row hget).c.2.2
  · intro k a b hget hany hsd
    have hfield := ((hrow k _ hget).a.field hany).2 hsd
    exact hfield.2.trans (addr_eq hext hany hsd)
  · intro k a b hget hany hsd
    have hfield := ((hrow k _ hget).b.field hany).2 hsd
    exact hfield.2.trans (addr_eq hext hany hsd)
  · intro a ha
    obtain ⟨k, fields, hget, ⟨hany, rfl⟩ | ⟨hany, rfl⟩ | rfl⟩ := mem_compared ha
    · exact ((hrow k fields hget).a.field hany).1
    · exact ((hrow k fields hget).b.field hany).1
    · exact (hrow k fields hget).c.2.1
  · intro v hv
    exact var_of_varOk hstart (hvars.1 v hv)

end CopyLoop
end SubleqEmu
