import SubleqEmu.X86Processor

/-!
# Code with labels

Code is emitted with the displacements of its jumps left open, and these are filled in once
the places of their labels are known.
-/

namespace X86

open ByteMemory

/-! ## Bytes in memory -/

def Holds (m : Memory) (a : Word) (bs : List Byte) : Prop :=
  ∀ k (hk : k < bs.length), m (a + BitVec.ofNat 64 k) = bs[k]

/-- Two memories with the same `n` bytes from `a` on. -/
def Same (m m' : Memory) (a : Word) (n : ℕ) : Prop :=
  ∀ k < n, m' (a + BitVec.ofNat 64 k) = m (a + BitVec.ofNat 64 k)

variable {m m' m'' : Memory} {a : Word} {bs bs' : List Byte} {n k : ℕ}

theorem add_ofNat_add (a : Word) (n k : ℕ) :
    a + BitVec.ofNat 64 n + BitVec.ofNat 64 k = a + BitVec.ofNat 64 (n + k) := by
  rw [BitVec.ofNat_add, BitVec.add_assoc]

@[simp] theorem holds_nil (m : Memory) (a : Word) : Holds m a [] := by simp [Holds]

theorem holds_append : Holds m a (bs ++ bs') ↔
    Holds m a bs ∧ Holds m (a + BitVec.ofNat 64 bs.length) bs' := by
  constructor
  · intro h
    constructor
    · intro k hk
      have hbyte := h k (by simp; omega)
      rwa [List.getElem_append_left hk] at hbyte
    · intro k hk
      have hbyte := h (bs.length + k) (by simp; omega)
      rw [List.getElem_append_right (by omega)] at hbyte
      simpa [add_ofNat_add] using hbyte
  · rintro ⟨h, h'⟩ k hk
    by_cases hleft : k < bs.length
    · rw [List.getElem_append_left hleft]
      exact h k hleft
    · have hbyte := h' (k - bs.length) (by simp at hk; omega)
      rw [add_ofNat_add, Nat.add_sub_cancel' (by omega)] at hbyte
      rw [List.getElem_append_right (by omega), hbyte]

theorem Same.left {n' : ℕ} (h : Same m m' a (n + n')) : Same m m' a n :=
  fun k hk => h k (by omega)

theorem Same.right {n' : ℕ} (h : Same m m' a (n + n')) :
    Same m m' (a + BitVec.ofNat 64 n) n' := by
  intro k hk
  rw [add_ofNat_add]
  exact h (n + k) (by omega)

theorem Holds.same (h : Holds m a bs) (hsame : Same m m' a bs.length) : Holds m' a bs :=
  fun k hk => (hsame k hk).trans (h k hk)

/-- The low bytes of a number, the lowest first, are what a write leaves. -/
theorem getElem_littleEndian (n v k : ℕ) (hk : k < (littleEndian n v).length) :
    (littleEndian n v)[k] = BitVec.ofNat 8 (v / 256 ^ k) := by
  induction n generalizing v k with
  | zero => simp [littleEndian] at hk
  | succ n ih =>
      cases k with
      | zero => simp [littleEndian]
      | succ k =>
          simp only [littleEndian, List.getElem_cons_succ]
          rw [ih, Nat.div_div_eq_div_mul, pow_succ']

theorem holds_writeLittle (m : Memory) (a v : Word) {n : ℕ} (hn : n < 2 ^ 64) :
    Holds (writeLittle m a n v) a (littleEndian n v.toNat) := by
  intro k hk
  have hn' : k < n := by simpa using hk
  have hat : (a + BitVec.ofNat 64 k - a).toNat = k := by
    rw [BitVec.add_comm, BitVec.add_sub_cancel, BitVec.toNat_ofNat,
      Nat.mod_eq_of_lt (by omega)]
  rw [getElem_littleEndian, writeLittle, hat, if_pos hn']
  apply BitVec.eq_of_toNat_eq
  rw [BitVec.toNat_setWidth, BitVec.toNat_ushiftRight, Nat.shiftRight_eq_div_pow, pow_mul,
    BitVec.toNat_ofNat]
  rfl

theorem writeLittle_apart (m : Memory) (a v : Word) {n : ℕ} {x : Word}
    (h : n ≤ (x - a).toNat) : writeLittle m a n v x = m x :=
  if_neg (by omega)

/-! ## Pieces of code -/

inductive Piece (L : Type)
  | bytes (bs : List Byte)
  /-- the displacement of 32 bits from the byte after it to a label -/
  | rel (l : L)
  | label (l : L)

variable {L : Type} {place : L → Word} {p : Piece L} {ps qs : List (Piece L)} {l : L}

def Piece.size : Piece L → ℕ
  | .bytes bs => bs.length
  | .rel _ => 4
  | .label _ => 0

def codeSize : List (Piece L) → ℕ
  | [] => 0
  | p :: ps => p.size + codeSize ps

@[simp] theorem codeSize_nil : codeSize ([] : List (Piece L)) = 0 := rfl

@[simp] theorem codeSize_cons : codeSize (p :: ps) = p.size + codeSize ps := rfl

@[simp] theorem codeSize_append : codeSize (ps ++ qs) = codeSize ps + codeSize qs := by
  induction ps with
  | nil => simp
  | cons p ps ih => simp [ih, Nat.add_assoc]

/-- The code as it is emitted at first. -/
def blank : List (Piece L) → List Byte
  | [] => []
  | .bytes bs :: ps => bs ++ blank ps
  | .rel _ :: ps => littleEndian 4 0 ++ blank ps
  | .label _ :: ps => blank ps

theorem length_blank (ps : List (Piece L)) : (blank ps).length = codeSize ps := by
  induction ps with
  | nil => rfl
  | cons p ps ih => cases p <;> simp [blank, Piece.size, ih]

@[simp] theorem blank_append : blank (ps ++ qs) = blank ps ++ blank qs := by
  induction ps with
  | nil => rfl
  | cons p ps ih => cases p <;> simp [blank, ih]

/-- The places of displacements in code from `a` on, with the labels they are for. -/
def sites : Word → List (Piece L) → List (Word × L)
  | _, [] => []
  | a, .bytes bs :: ps => sites (a + BitVec.ofNat 64 bs.length) ps
  | a, .rel l :: ps => (a, l) :: sites (a + 4) ps
  | a, .label _ :: ps => sites a ps

def labels : Word → List (Piece L) → List (L × Word)
  | _, [] => []
  | a, .bytes bs :: ps => labels (a + BitVec.ofNat 64 bs.length) ps
  | a, .rel _ :: ps => labels (a + 4) ps
  | a, .label l :: ps => (l, a) :: labels a ps

/-- The displacement of a jump, whose target is close enough. -/
def disp32 (site target : Word) : BitVec 32 := (target - (site + 4)).setWidth 32

def Near (site target : Word) : Prop := (disp32 site target).signExtend 64 = target - (site + 4)

/-- A displacement filled in. -/
def patchRel32 (m : Memory) (site target : Word) : Memory :=
  writeLittle m site 4 ((disp32 site target).setWidth 64)

/-- All of them. -/
def patched (place : L → Word) (m : Memory) (sites : List (Word × L)) : Memory :=
  sites.foldl (fun m s => patchRel32 m s.1 (place s.2)) m

/-- The labels that jumps go to. -/
def rels : List (Piece L) → List L
  | [] => []
  | .bytes _ :: ps => rels ps
  | .rel l :: ps => l :: rels ps
  | .label _ :: ps => rels ps

/-- The labels that have a place. -/
def names : List (Piece L) → List L
  | [] => []
  | .bytes _ :: ps => names ps
  | .rel _ :: ps => names ps
  | .label l :: ps => l :: names ps

@[simp] theorem rels_append : rels (ps ++ qs) = rels ps ++ rels qs := by
  induction ps with
  | nil => rfl
  | cons p ps ih => cases p <;> simp [rels, ih]

@[simp] theorem names_append : names (ps ++ qs) = names ps ++ names qs := by
  induction ps with
  | nil => rfl
  | cons p ps ih => cases p <;> simp [names, ih]

theorem map_labels (a : Word) (ps : List (Piece L)) : (labels a ps).map Prod.fst = names ps := by
  induction ps generalizing a with
  | nil => rfl
  | cons p ps ih => cases p <;> simp [labels, names, ih]

/-- Displacements and labels are in the code. -/
theorem place_of_site {s : Word} (h : (s, l) ∈ sites a ps) :
    l ∈ rels ps ∧ ∃ n, n + 4 ≤ codeSize ps ∧ s = a + BitVec.ofNat 64 n := by
  induction ps generalizing a with
  | nil => cases h
  | cons p ps ih =>
      cases p with
      | bytes bs =>
          obtain ⟨hl, n, hn, rfl⟩ := ih h
          refine ⟨hl, bs.length + n, ?_, by rw [add_ofNat_add]⟩
          simp only [codeSize_cons, Piece.size]
          omega
      | rel l' =>
          rcases List.mem_cons.mp h with h | h
          · cases h
            exact ⟨List.mem_cons_self, 0, by simp [Piece.size], by simp⟩
          · obtain ⟨hl, n, hn, rfl⟩ := ih h
            refine ⟨List.mem_cons_of_mem _ hl, 4 + n, ?_, (add_ofNat_add a 4 n)⟩
            simp only [codeSize_cons, Piece.size]
            omega
      | label l' =>
          obtain ⟨hl, n, hn, rfl⟩ := ih h
          exact ⟨hl, n, by simpa [Piece.size] using hn, rfl⟩

theorem place_of_label {x : Word} (h : (l, x) ∈ labels a ps) :
    ∃ n ≤ codeSize ps, x = a + BitVec.ofNat 64 n := by
  induction ps generalizing a with
  | nil => cases h
  | cons p ps ih =>
      cases p with
      | bytes bs =>
          obtain ⟨n, hn, rfl⟩ := ih h
          exact ⟨bs.length + n, by simpa [Piece.size] using hn, by rw [add_ofNat_add]⟩
      | rel l' =>
          obtain ⟨n, hn, rfl⟩ := ih h
          exact ⟨4 + n, by simpa [Piece.size] using hn, add_ofNat_add a 4 n⟩
      | label l' =>
          rcases List.mem_cons.mp h with h | h
          · cases h
            exact ⟨0, Nat.zero_le _, by simp⟩
          · obtain ⟨n, hn, rfl⟩ := ih h
            exact ⟨n, by simpa [Piece.size] using hn, rfl⟩

/-- What is less than 2 GiB away is near. -/
theorem near_of_le {n k : ℕ} (hn : n + 4 < 2 ^ 31) (hk : k < 2 ^ 31) :
    Near (a + BitVec.ofNat 64 n) (a + BitVec.ofNat 64 k) := by
  have hdiff : a + BitVec.ofNat 64 k - (a + BitVec.ofNat 64 n + 4) =
      BitVec.ofNat 64 k - BitVec.ofNat 64 (n + 4) := by
    bv_omega
  have hsize : (BitVec.ofNat 64 k - BitVec.ofNat 64 (n + 4)).toNat =
      if n + 4 ≤ k then k - (n + 4) else 2 ^ 64 - (n + 4 - k) := by
    split_ifs <;> bv_omega
  unfold Near disp32
  rw [hdiff]
  apply BitVec.eq_of_toInt_eq
  rw [BitVec.toInt_signExtend_of_le (by omega), BitVec.toInt_setWidth,
    BitVec.toInt_eq_toNat_cond, hsize, Int.bmod_def]
  split_ifs <;> omega

/-! ## Finished code -/

/-- The code from `a` on, with its displacements, and its labels where they should be. -/
def Laid (m : Memory) (place : L → Word) : Word → List (Piece L) → Prop
  | _, [] => True
  | a, .bytes bs :: ps => Holds m a bs ∧ Laid m place (a + BitVec.ofNat 64 bs.length) ps
  | a, .rel l :: ps =>
      (Holds m a (littleEndian 4 (disp32 a (place l)).toNat) ∧ Near a (place l)) ∧
        Laid m place (a + 4) ps
  | a, .label l :: ps => place l = a ∧ Laid m place a ps

theorem laid_append : Laid m place a (ps ++ qs) ↔
    Laid m place a ps ∧ Laid m place (a + BitVec.ofNat 64 (codeSize ps)) qs := by
  induction ps generalizing a with
  | nil => simp [Laid]
  | cons p ps ih =>
      cases p with
      | bytes bs => simp [Laid, ih, Piece.size, add_ofNat_add, and_assoc]
      | rel l =>
          have hfour : (4 : Word) = BitVec.ofNat 64 4 := rfl
          simp [Laid, ih, Piece.size, hfour, add_ofNat_add, and_assoc]
      | label l => simp [Laid, ih, Piece.size, and_assoc]

theorem Laid.same (h : Laid m place a ps) (hsame : Same m m' a (codeSize ps)) :
    Laid m' place a ps := by
  induction ps generalizing a with
  | nil => trivial
  | cons p ps ih =>
      cases p with
      | bytes bs => exact ⟨h.1.same hsame.left, ih h.2 hsame.right⟩
      | rel l =>
          have hleft : Same m m' a (littleEndian 4 (disp32 a (place l)).toNat).length := by
            rw [length_littleEndian]
            exact hsame.left
          exact ⟨⟨h.1.1.same hleft, h.1.2⟩, ih h.2 hsame.right⟩
      | label l => exact ⟨h.1, ih h.2 (by simpa [Piece.size] using hsame)⟩

/-! ## Filling in -/

/-- The displacements are within the code. -/
theorem patched_apart (m : Memory) {x : Word} (hfit : codeSize ps ≤ 2 ^ 64)
    (hx : codeSize ps ≤ (x - a).toNat) : patched place m (sites a ps) x = m x := by
  induction ps generalizing m a with
  | nil => rfl
  | cons p ps ih =>
      cases p with
      | bytes bs =>
          simp only [codeSize_cons, Piece.size] at hfit hx
          exact ih m (by omega) (by bv_omega)
      | rel l =>
          simp only [codeSize_cons, Piece.size] at hfit hx
          refine (ih _ (by omega) (by bv_omega)).trans (writeLittle_apart _ _ _ ?_)
          exact (Nat.le_add_right 4 _).trans hx
      | label l =>
          simp only [codeSize_cons, Piece.size, Nat.zero_add] at hfit hx
          exact ih m hfit hx

theorem same_patched (m : Memory) (a : Word) (hfit : n + codeSize ps ≤ 2 ^ 64) :
    Same m (patched place m (sites (a + BitVec.ofNat 64 n) ps)) a n := by
  intro k hk
  refine patched_apart m (by omega) ?_
  have hback : (a + BitVec.ofNat 64 k - (a + BitVec.ofNat 64 n)).toNat = 2 ^ 64 - (n - k) := by
    have hle : n ≤ 2 ^ 64 := by omega
    bv_omega
  omega

theorem setWidth_disp32 (site target : Word) :
    ((disp32 site target).setWidth 64).toNat = (disp32 site target).toNat := by
  rw [BitVec.toNat_setWidth, Nat.mod_eq_of_lt]
  have := (disp32 site target).isLt
  omega

theorem holds_patchRel32 (m : Memory) (site target : Word) :
    Holds (patchRel32 m site target) site (littleEndian 4 (disp32 site target).toNat) := by
  rw [← setWidth_disp32]
  exact holds_writeLittle m site _ (by decide)

theorem patchRel32_apart (m : Memory) (site target : Word) {x : Word}
    (h : 4 ≤ (x - site).toNat) : patchRel32 m site target x = m x :=
  writeLittle_apart m site _ h

theorem same_patchRel32 (m : Memory) (site target : Word) {n : ℕ} (hfit : 4 + n ≤ 2 ^ 64) :
    Same m (patchRel32 m site target) (site + 4) n := by
  intro k hk
  exact patchRel32_apart m site target (by bv_omega)

/-- Emitted code with its displacements filled in is finished. -/
theorem laid_patched (hheld : Holds m a (blank ps)) (hfit : codeSize ps ≤ 2 ^ 64)
    (hlabels : ∀ l x, (l, x) ∈ labels a ps → place l = x)
    (hnear : ∀ s l, (s, l) ∈ sites a ps → Near s (place l)) :
    Laid (patched place m (sites a ps)) place a ps := by
  induction ps generalizing m a with
  | nil => trivial
  | cons p ps ih =>
      cases p with
      | bytes bs =>
          simp only [codeSize_cons, Piece.size] at hfit
          obtain ⟨hbytes, hrest⟩ := holds_append.mp hheld
          exact ⟨hbytes.same (same_patched m a hfit), ih hrest (by omega) hlabels hnear⟩
      | rel l =>
          simp only [codeSize_cons, Piece.size] at hfit
          obtain ⟨-, hrest⟩ := holds_append.mp hheld
          rw [length_littleEndian] at hrest
          have hnearest := hnear a l (by simp [sites])
          have hkept := same_patchRel32 m a (place l) (length_blank ps ▸ hfit)
          have hother : Same (patchRel32 m a (place l))
              (patched place m (sites a (.rel l :: ps))) a 4 := same_patched _ a hfit
          refine ⟨⟨(holds_patchRel32 m a (place l)).same ?_, hnearest⟩, ?_⟩
          · rwa [length_littleEndian]
          · exact ih (hrest.same hkept) (by omega) hlabels fun s l' hs =>
              hnear s l' (List.mem_cons_of_mem _ hs)
      | label l =>
          simp only [codeSize_cons, Piece.size, Nat.zero_add] at hfit
          exact ⟨hlabels l a (by simp [labels]),
            ih hheld hfit (fun l' x hx => hlabels l' x (by simp [labels, hx])) hnear⟩

end X86
