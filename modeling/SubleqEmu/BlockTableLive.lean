import SubleqEmu.BlockTableStructure

/-!
# Jumps to dropped blocks

A new block is in its hash chain while `translate` waits for room, so that checking an
older block can drop it.  It is returned and linked to all the same.  Else only valid
blocks are.
-/

namespace SubleqEmu
namespace BlockTable

open IntrusiveList

variable {sizes : Sizes} {J : Jit} {chain : ℕ → List ℕ} {L : Links} {start site t : ℕ}
  {made : Made} {s s' : State} {event : Event} {blocks : ℕ → Block} {links : ℕ → Link}
  {code : ℕ → BitVec 8} {events : List Event}

/-- Only valid blocks are linked to, or about to be returned. -/
structure State.Live (s : State) : Prop where
  links : s.jit.LinksLive
  waiting : ∀ blk exit, s.point = .waiting blk exit → (s.jit.blocks blk).valid = true

/-- What is checked while `translate` waits has no changed block over the new one. -/
def State.SparesNew (sizes : Sizes) (s : State) : Event → Prop
  | .revalidate mem others => ∀ blk exit, s.point = .waiting blk exit →
      s.jit.Spares sizes mem (min s.quiet others) (s.jit.blocks blk) s.jit.pending
  | _ => True

/-- The same in every step of a run. -/
def State.RunSpares (sizes : Sizes) (s : State) : List Event → Prop
  | [] => True
  | event :: events => s.SparesNew sizes event ∧
      ∀ s', s.step sizes event = some s' → State.RunSpares sizes s' events

/-! ## Steps -/

theorem Jit.LinksLive.insert (h : J.LinksLive) : (J.insert start made).LinksLive := by
  intro b hb
  rcases Jit.lt_insert_iff.mp hb with hb | rfl
  · rw [Jit.blocks_insert_of_lt hb]
    exact h b hb
  · rw [Jit.blocks_insert_self]
    exact fun _ => rfl

theorem Jit.LinksLive.make (h : J.LinksLive) :
    (J.make sizes start made).LinksLive ∧
      ((J.make sizes start made).blocks ((J.make sizes start made).nblocks - 1)).valid = true := by
  unfold Jit.make
  split_ifs with hflush
  · refine ⟨Jit.LinksLive.insert fun b hb => absurd hb (Nat.not_lt_zero b), ?_⟩
    exact congrArg Block.valid (Jit.blocks_insert_self (J := J.flush))
  · exact ⟨h.insert, congrArg Block.valid (Jit.blocks_insert_self (J := J))⟩

theorem Jit.LinksLive.link (h : J.LinksLive) (ht : (J.blocks t).valid = true) (l site : ℕ) :
    (J.link l site t).LinksLive := by
  intro b hb
  obtain ⟨-, hvalid, -, hincoming⟩ := Jit.link_blocks J l site t b
  rw [hvalid, hincoming]
  split_ifs with hbt
  · rw [hbt]
    exact fun _ => ht
  · exact h b hb

theorem Jit.LinksLive.linkTo (h : J.LinksLive) (ht : (J.blocks t).valid = true) (site : ℕ) :
    (J.linkTo sizes site t).LinksLive := by
  unfold Jit.linkTo
  cases J.freeLinks with
  | some l => exact Jit.LinksLive.link (J := { J with freeLinks := J.next l }) h ht l site
  | none =>
      dsimp only
      split_ifs with hroom
      · exact Jit.LinksLive.link (J := { J with nlinks := J.nlinks + 1 }) h ht J.nlinks site
      · exact h

theorem State.Live.translate {exit : Option (ℕ × ℕ)} (h : s.Live)
    (hstep : s.translate sizes start made exit = some s') : s'.Live := by
  unfold State.translate at hstep
  split_ifs at hstep
  · obtain rfl := Option.some.inj hstep
    refine ⟨h.links.make.1, fun blk exit' hwaiting => ?_⟩
    obtain ⟨rfl, rfl⟩ := Point.waiting.inj hwaiting
    exact h.links.make.2
  · obtain rfl := Option.some.inj hstep
    exact h

/-- A block that waits is dropped exactly if what is checked does not spare it. -/
theorem State.Inv.valid_revalidate (hinv : s.Inv sizes) {mem : Contents} {others blk : ℕ}
    {exit : Option (ℕ × ℕ)} (hpoint : s.point = .waiting blk exit)
    (hvalid : (s.jit.blocks blk).valid = true) :
    ((s.jit.revalidate sizes mem (min s.quiet others)).blocks blk).valid = true ↔
      s.jit.Spares sizes mem (min s.quiet others) (s.jit.blocks blk) s.jit.pending := by
  obtain ⟨chain, L, htable⟩ := hinv.table
  obtain ⟨J', pending, hdrops, heq⟩ := htable.revalidateFrom mem (min s.quiet others) s.jit.pending
  have hblk := (hinv.waiting blk exit hpoint).1
  have hlive := hdrops.live_iff blk
  rw [not_not] at hlive
  have hblk' : blk < J'.nblocks := hdrops.frame.nblocks.symm ▸ hblk
  rw [Jit.revalidate, heq]
  constructor
  · exact fun hvalid' => (hlive.mp ⟨hblk', hvalid'⟩).2
  · exact fun hspares => (hlive.mpr ⟨⟨hblk, hvalid⟩, hspares⟩).2

theorem State.Live.step (h : s.Live) (hinv : s.Inv sizes) (hspares : s.SparesNew sizes event)
    (hstep : s.step sizes event = some s') : s'.Live := by
  obtain ⟨chain, L, htable⟩ := hinv.table
  cases event with
  | tick =>
      obtain rfl := Option.some.inj hstep
      exact ⟨h.links, h.waiting⟩
  | hit w =>
      rw [State.step] at hstep
      split_ifs at hstep with hcan
      obtain rfl := Option.some.inj hstep
      refine ⟨(htable.invalidateWord w).linksLive h.links, fun blk exit hwaiting => ?_⟩
      rw [hcan.1] at hwaiting
      cases hwaiting
  | overflow =>
      rw [State.step] at hstep
      split_ifs at hstep with htop
      obtain rfl := Option.some.inj hstep
      refine ⟨fun b hb => absurd hb (Nat.not_lt_zero b), fun blk exit hwaiting => ?_⟩
      rw [htop] at hwaiting
      cases hwaiting
  | revalidate mem others =>
      obtain rfl := Option.some.inj hstep
      obtain ⟨J', pending, hdrops, heq⟩ := htable.revalidateFrom mem
        (min (if s.point = .top then s.epoch else s.quiet) others) s.jit.pending
      refine ⟨?_, fun blk exit hwaiting => ?_⟩
      · show (Jit.revalidateFrom sizes _ _ _ _).LinksLive
        rw [heq]
        exact hdrops.linksLive h.links
      · have hnot : s.point ≠ .top := by
          rw [show s.point = .waiting blk exit from hwaiting]
          simp
        show ((s.jit.revalidate sizes mem _).blocks blk).valid = true
        rw [if_neg hnot]
        exact (hinv.valid_revalidate hwaiting (h.waiting blk exit hwaiting)).mpr
          (hspares blk exit hwaiting)
  | enter eip made =>
      rw [State.step] at hstep
      split_ifs at hstep with htop
      cases hlookup : s.jit.lookup sizes eip with
      | some b =>
          rw [hlookup] at hstep
          obtain rfl := Option.some.inj hstep
          exact h
      | none =>
          rw [hlookup] at hstep
          exact h.translate hstep
  | leave site eip made =>
      rw [State.step] at hstep
      split_ifs at hstep with hcan
      cases hlookup : s.jit.lookup sizes eip with
      | some t =>
          rw [hlookup] at hstep
          obtain rfl := Option.some.inj hstep
          have ht := (htable.chained.lookup_eq_some_iff.mp hlookup).1
          refine ⟨h.links.linkTo ht.2 site, fun blk exit hwaiting => ?_⟩
          rw [hcan.1] at hwaiting
          cases hwaiting
      | none =>
          rw [hlookup] at hstep
          exact h.translate hstep
  | ready =>
      rw [State.step] at hstep
      cases hpoint : s.point with
      | top =>
          rw [hpoint] at hstep
          cases hstep
      | waiting blk exit =>
          rw [hpoint] at hstep
          have hvalid := h.waiting blk exit hpoint
          dsimp only at hstep
          split_ifs at hstep with hroom
          obtain rfl := Option.some.inj hstep
          refine ⟨?_, fun _ _ hwaiting => by cases hwaiting⟩
          cases exit with
          | none => exact h.links
          | some exit =>
              obtain ⟨site, gen⟩ := exit
              dsimp only
              split_ifs with hgen
              · exact Jit.LinksLive.linkTo
                  (J := { s.jit with pending := s.jit.pending ++ [⟨blk, s.epoch + 1⟩] })
                  h.links hvalid site
              · exact h.links

theorem State.Live.run (h : s.Live) (hinv : s.Inv sizes) (hspares : s.RunSpares sizes events)
    (hrun : s.run sizes events = some s') : s'.Live := by
  induction events generalizing s with
  | nil =>
      obtain rfl := Option.some.inj hrun
      exact h
  | cons event events ih =>
      obtain ⟨s₁, hstep, hrest⟩ := Option.bind_eq_some_iff.mp hrun
      exact ih (h.step hinv hspares.1 hstep) (hinv.step hstep) (hspares.2 s₁ hstep) hrest

/--
Only valid blocks are linked to or returned in a run whose checks spare the new blocks;
a check that does not drops the block that `translate` then returns.
-/
theorem links_live (hrun : (State.initial blocks links code).run sizes events = some s) :
    ((State.initial blocks links code).RunSpares sizes events → s.Live) ∧
      ∀ mem others blk exit, s.point = .waiting blk exit → (s.jit.blocks blk).valid = true →
        (((s.jit.revalidate sizes mem (min s.quiet others)).blocks blk).valid = true ↔
          s.jit.Spares sizes mem (min s.quiet others) (s.jit.blocks blk) s.jit.pending) := by
  have hinitial := State.inv_initial sizes blocks links code
  refine ⟨fun hspares => ?_, fun mem others blk exit hpoint hvalid => ?_⟩
  · have hlive : (State.initial blocks links code).Live :=
      ⟨fun b hb => absurd hb (Nat.not_lt_zero b), nofun⟩
    exact hlive.run hinitial hspares hrun
  · exact (hinitial.run hrun).valid_revalidate hpoint hvalid

/-- A block that is checked for while it waits, and linked to itself. -/
def checkedLink : List Event :=
  [.enter 4096 oneExit, .revalidate (fun _ => 0) 1, .ready, .leave 16 4096 oneExit]

theorem checkedLink_isSome : (sampleState.run sampleSizes checkedLink).isSome = true := by
  rfl

theorem links_live_checkedLink :
    ((sampleState.run sampleSizes checkedLink).get checkedLink_isSome).Live := by
  refine (links_live (Option.some_get checkedLink_isSome).symm).1 ⟨trivial, fun s₁ h₁ => ?_⟩
  obtain rfl := Option.some.inj h₁
  exact ⟨fun blk exit _ => trivial,
    fun s₂ _ => ⟨trivial, fun s₃ _ => ⟨trivial, fun _ _ => trivial⟩⟩⟩

/-! ## A full ring -/

theorem State.run_append (s : State) (events events' : List Event) :
    s.run sizes (events ++ events') = (s.run sizes events).bind (State.run sizes · events') := by
  induction events generalizing s with
  | nil => rfl
  | cons event events ih =>
      show (s.step sizes event).bind _ = ((s.step sizes event).bind _).bind _
      rw [Option.bind_assoc]
      exact Option.bind_congr fun s₁ _ => ih s₁

/-- Two instructions, of which the A field of the second is static, and was zero. -/
def twoInsns : Made where
  n := 2
  smask := 8
  shash := 0x9e3779b97f4a7c15 * 0x100000001b3
  nmeta := 0
  code := List.replicate 32 0
  exits := [16]
  invStub := 24
  n_pos := by decide
  n_le := by decide
  code_le := oneExit.code_le
  entry_le := oneExit.entry_le
  exits_bounds := oneExit.exits_bounds
  exits_apart := oneExit.exits_apart
  exits_slow := oneExit.exits_slow
  invStub_le := oneExit.invStub_le

/-- Once round `jit_run` to a new block, while another CPU stays where it is. -/
def dispatch (eip : ℕ) (made : Made) : List Event :=
  [.revalidate (fun _ => 0) 1, .enter eip made, .ready]

/-- `k` blocks of one instruction after the first, all waiting to be checked. -/
structure Filled (k : ℕ) (s : State) : Prop where
  inv : s.Inv sampleSizes
  point : s.point = .top
  flushes : s.jit.flushes = 0
  nblocks : s.jit.nblocks = k + 1
  nlinks : s.jit.nlinks = 0
  nmeta : s.jit.nmeta = 0
  codePtr : s.jit.codePtr = 32 * (k + 1)
  pending : ∃ rest, s.jit.pending = ⟨0, 2⟩ :: rest ∧ rest.length = k ∧ ∀ p ∈ rest, 3 ≤ p.stamp
  epoch : 2 ≤ s.epoch
  first : (s.jit.blocks 0).start = 4096 ∧ (s.jit.blocks 0).n = 2 ∧ (s.jit.blocks 0).smask = 8 ∧
    (s.jit.blocks 0).shash = twoInsns.shash ∧ (s.jit.blocks 0).valid = true
  starts : ∀ b, s.jit.Live b → (s.jit.blocks b).start = 4096 ∨
    8192 ≤ (s.jit.blocks b).start ∧ (s.jit.blocks b).start < 8192 + 24 * k
  site : 16 ∈ s.jit.exits ∧ jumpTarget s.jit.code 16 = 20

theorem filled_zero : ∃ s, sampleState.run sampleSizes (dispatch 4096 twoInsns) = some s ∧
    Filled 0 s := by
  have hsome : (sampleState.run sampleSizes (dispatch 4096 twoInsns)).isSome = true := rfl
  obtain ⟨s, hs⟩ := Option.isSome_iff_exists.mp hsome
  refine ⟨s, hs, ?_⟩
  have hinv := (State.inv_initial sampleSizes _ _ _).run hs
  obtain rfl := Option.some.inj hs
  refine ⟨hinv, rfl, rfl, rfl, rfl, rfl, rfl, ⟨[], rfl, rfl, nofun⟩, by decide,
    ⟨rfl, rfl, rfl, rfl, rfl⟩, ?_, by decide, by decide⟩
  rintro b ⟨hb, -⟩
  obtain rfl : b = 0 := Nat.lt_one_iff.mp hb
  exact Or.inl rfl

theorem Jit.revalidate_of_lt {mem : Contents} {min : ℕ} {p : Pending} {rest : List Pending}
    (hpending : J.pending = p :: rest) (hlt : min < p.stamp) :
    J.revalidate sizes mem min = J := by
  rw [Jit.revalidate, hpending, Jit.revalidateFrom, if_neg (Nat.not_le.mpr hlt), ← hpending]

theorem Filled.lookup_eq_none {k : ℕ} (h : Filled k s) {a : ℕ} (ha : a ≠ 4096)
    (hout : a < 8192 ∨ 8192 + 24 * k ≤ a) : s.jit.lookup sampleSizes a = none := by
  obtain ⟨chain, L, htable⟩ := h.inv.table
  cases hlookup : s.jit.lookup sampleSizes a with
  | none => rfl
  | some b =>
      obtain ⟨hb, hstart⟩ := htable.chained.lookup_eq_some_iff.mp hlookup
      have hstarts := h.starts b hb
      omega

theorem Filled.make_eq {k : ℕ} (h : Filled k s) (hk : k ≤ 4094) (a : ℕ) :
    s.jit.make sampleSizes a oneExit = s.jit.insert a oneExit := by
  rw [Jit.make, if_neg]
  have hcode : sampleSizes.codeBytes = 2097152 := rfl
  have hmax : sampleSizes.maxMeta = 65536 := rfl
  have hblocks : sampleSizes.maxBlocks = 4096 := rfl
  simp only [Jit.mustFlush, h.codePtr, h.nblocks, h.nmeta, hcode, hmax, hblocks, codeSlack,
    jitMaxBlock, Bool.or_eq_true, decide_eq_true_eq, beq_iff_eq]
  omega

/-- A round of `jit_run` that begins with nothing to check. -/
theorem Filled.revalidate {k : ℕ} (h : Filled k s) :
    s.step sampleSizes (.revalidate (fun _ => 0) 1) = some { s with quiet := s.epoch } := by
  obtain ⟨rest, hpending, -⟩ := h.pending
  have hchecked : s.jit.revalidate sampleSizes (fun _ => 0) (min s.epoch 1) = s.jit :=
    Jit.revalidate_of_lt hpending (by simp only; omega)
  simp only [State.step, if_pos h.point, hchecked]

/-- `translate` to where it waits for room. -/
theorem Filled.translate {k : ℕ} (h : Filled k s) (hk : k ≤ 4094) {a : ℕ} (haligned : a % 8 = 0)
    (ha : a + 24 ≤ 1048576) (quiet : ℕ) (exit : Option (ℕ × ℕ)) :
    State.translate sampleSizes { s with quiet := quiet } a oneExit exit = some
      { jit := s.jit.insert a oneExit
        epoch := s.epoch
        quiet := quiet
        point := .waiting (k + 1) exit } := by
  have htranslates : sampleSizes.Translates a := ⟨haligned, ha⟩
  have hfits : a + 24 * oneExit.n ≤ sampleSizes.memSize ∧ oneExit.nmeta ≤ jitMaxBlock * 2 + 8 :=
    ⟨ha, by decide⟩
  have hlast : (s.jit.insert a oneExit).nblocks - 1 = k + 1 := h.nblocks
  rw [State.translate, if_neg (not_not.mpr htranslates), if_pos hfits, h.make_eq hk]
  dsimp only
  rw [hlast]

/-- What a dispatch to a new block leaves. -/
theorem Filled.run_dispatch {k : ℕ} (h : Filled k s) (hk : k < 4094) :
    s.run sampleSizes (dispatch (8192 + 24 * k) oneExit) = some
      { jit := { s.jit.insert (8192 + 24 * k) oneExit with
          pending := s.jit.pending ++ [⟨k + 1, s.epoch + 1⟩] }
        epoch := s.epoch + 1
        quiet := s.epoch
        point := .top } := by
  obtain ⟨rest, hpending, hlength, -⟩ := h.pending
  have hroom : (s.jit.insert (8192 + 24 * k) oneExit).hasRoom = true := by
    show (s.jit.pending.length + 1 != pendingLen) = true
    rw [hpending, List.length_cons, hlength, bne_iff_ne]
    unfold pendingLen
    omega
  have henter : State.step sampleSizes { s with quiet := s.epoch }
      (.enter (8192 + 24 * k) oneExit) = some
        { jit := s.jit.insert (8192 + 24 * k) oneExit
          epoch := s.epoch
          quiet := s.epoch
          point := .waiting (k + 1) none } := by
    rw [State.step, if_pos h.point]
    dsimp only
    rw [h.lookup_eq_none (by omega) (Or.inr le_rfl)]
    exact h.translate (by omega) (by omega) (by omega) _ _
  rw [dispatch, State.run, h.revalidate, Option.bind_some, State.run, henter, Option.bind_some,
    State.run, State.step]
  dsimp only
  rw [hroom, if_neg (by decide)]
  rfl

theorem Filled.next {k : ℕ} (h : Filled k s) (hk : k < 4094) :
    ∃ s', s.run sampleSizes (dispatch (8192 + 24 * k) oneExit) = some s' ∧
      Filled (k + 1) s' := by
  have hrun := h.run_dispatch hk
  obtain ⟨chain, L, htable⟩ := h.inv.table
  obtain ⟨rest, hpending, hlength, hstamps⟩ := h.pending
  have hepoch := h.epoch
  have hzero : (s.jit.insert (8192 + 24 * k) oneExit).blocks 0 = s.jit.blocks 0 :=
    Jit.blocks_insert_of_lt (h.nblocks ▸ Nat.succ_pos k)
  refine ⟨_, hrun, ⟨h.inv.run hrun, rfl, h.flushes, ?_, h.nlinks, h.nmeta, ?_, ?_, ?_, ?_, ?_, ?_⟩⟩
  · exact congrArg (· + 1) h.nblocks
  · show s.jit.codePtr + 32 = _
    rw [h.codePtr]
    omega
  · refine ⟨rest ++ [⟨k + 1, s.epoch + 1⟩], ?_, ?_, ?_⟩
    · show s.jit.pending ++ _ = _
      rw [hpending]
      rfl
    · rw [List.length_append, hlength]
      rfl
    · intro p hp
      rcases List.mem_append.mp hp with hp | hp
      · exact hstamps p hp
      · rw [List.mem_singleton.mp hp]
        exact Nat.succ_le_succ hepoch
  · exact Nat.le_succ_of_le hepoch
  · rw [hzero]
    exact h.first
  · intro b hb
    rcases Jit.live_insert_iff.mp hb with hlive | rfl
    · have hstarts := h.starts b hlive
      rw [Jit.blocks_insert_of_lt hlive.1]
      omega
    · rw [Jit.blocks_insert_self]
      exact Or.inr ⟨Nat.le_add_right _ _, Nat.add_lt_add_left (by omega) _⟩
  · obtain ⟨hsite, hslow⟩ := htable.slow_insert (8192 + 24 * k) oneExit
      h.site.1 h.site.2
    exact ⟨hsite, hslow⟩

theorem exists_filled {k : ℕ} (hk : k ≤ 4094) : ∃ events s,
    sampleState.run sampleSizes events = some s ∧ Filled k s := by
  induction k with
  | zero =>
      obtain ⟨s, hrun, hfilled⟩ := filled_zero
      exact ⟨_, s, hrun, hfilled⟩
  | succ k ih =>
      obtain ⟨events, s, hrun, hfilled⟩ := ih (by omega)
      obtain ⟨s', hrun', hfilled'⟩ := hfilled.next (by omega)
      refine ⟨events ++ dispatch (8192 + 24 * k) oneExit, s', ?_, hfilled'⟩
      rw [State.run_append, hrun]
      exact hrun'

/-- The round after the first block leaves for its second instruction: the new block
waits for the first one to be checked, which has changed meanwhile. -/
def lateRound : List Event :=
  [.revalidate (fun _ => 0) 1, .enter 4096 twoInsns, .leave 16 4120 oneExit,
    .revalidate (fun _ => 1) 2, .ready]

theorem Jit.link_self (J : Jit) (l site t : ℕ) :
    ((J.link l site t).blocks t).incoming ≠ none ∧
      ((J.link l site t).blocks t).valid = (J.blocks t).valid := by
  obtain ⟨-, hvalid, -, hincoming⟩ := Jit.link_blocks J l site t t
  refine ⟨?_, hvalid⟩
  rw [hincoming, if_pos rfl]
  exact Option.some_ne_none l

/-- Linking takes a record while there is one. -/
theorem Jit.linkTo_incoming (site t : ℕ) (hroom : J.nlinks < sizes.maxLinks) :
    ((J.linkTo sizes site t).blocks t).incoming ≠ none ∧
      ((J.linkTo sizes site t).blocks t).valid = (J.blocks t).valid := by
  unfold Jit.linkTo
  cases hfree : J.freeLinks with
  | some l => exact Jit.link_self { J with freeLinks := J.next l } l site t
  | none =>
      dsimp only
      rw [if_pos hroom]
      exact Jit.link_self { J with nlinks := J.nlinks + 1 } J.nlinks site t

theorem Jit.nblocks_linkTo (J : Jit) (site t : ℕ) :
    (J.linkTo sizes site t).nblocks = J.nblocks := by
  unfold Jit.linkTo
  cases J.freeLinks with
  | some l => rfl
  | none =>
      dsimp only
      split_ifs <;> rfl

/-- The loop of `revalidate` stops at a block that is too new. -/
theorem Jit.revalidateFrom_of_late {mem : Contents} {min : ℕ} {list : List Pending}
    (hlate : ∀ p ∈ list, min < p.stamp) :
    J.revalidateFrom sizes mem min list = { J with pending := list } := by
  cases list with
  | nil => rfl
  | cons p rest =>
      rw [Jit.revalidateFrom, if_neg (Nat.not_le.mpr (hlate p List.mem_cons_self))]

/-- The first block is found changed in its fourth field. -/
theorem Filled.first_changed {k : ℕ} (h : Filled k s) :
    s.jit.passes (fun _ => 1) 0 = false ∧ (s.jit.blocks 0).staticWords = [515] := by
  obtain ⟨hstart, hn, hsmask, hshash, hvalid⟩ := h.first
  have hfields : (s.jit.blocks 0).staticFields = [3] := by
    unfold Block.staticFields
    have hstatic : (s.jit.blocks 0).isStatic = fun f => f < 6 && (8 : BitVec 192).getLsbD f := by
      funext f
      rw [Block.isStatic, hn, hsmask]
    rw [hn, hstatic]
    decide
  refine ⟨?_, ?_⟩
  · rw [Jit.passes, staticHash, hfields, hvalid, hshash]
    decide
  · rw [Block.staticWords, hfields, hstart]
    rfl

theorem Filled.run_lateRound (h : Filled 4094 s) :
    ∃ s', s.run sampleSizes lateRound = some s' ∧ ¬ s'.jit.LinksLive := by
  obtain ⟨rest, hpending, hlength, hstamps⟩ := h.pending
  obtain ⟨chain, L, htable⟩ := h.inv.table
  have hlookup : s.jit.lookup sampleSizes 4096 = some 0 :=
    htable.chained.lookup_eq_some_iff.mpr ⟨⟨by rw [h.nblocks]; decide, h.first.2.2.2.2⟩, h.first.1⟩
  obtain ⟨s₂, hs₂⟩ : ∃ s₂ : State, s₂ =
      { jit := s.jit.insert 4120 oneExit
        epoch := s.epoch
        quiet := s.epoch
        point := .waiting 4095 (some (16, 0)) } := ⟨_, rfl⟩
  have henter : State.step sampleSizes { s with quiet := s.epoch } (.enter 4096 twoInsns) =
      some { s with quiet := s.epoch } := by
    rw [State.step, if_pos h.point]
    dsimp only
    rw [hlookup]
  have hleave : State.step sampleSizes { s with quiet := s.epoch } (.leave 16 4120 oneExit) =
      some s₂ := by
    rw [State.step, if_pos ⟨h.point, h.site⟩]
    dsimp only
    rw [h.lookup_eq_none (by decide) (Or.inl (by decide)), h.flushes, hs₂]
    exact h.translate le_rfl (by decide) (by decide) _ _
  have hinv₂ : s₂.Inv sampleSizes := (h.inv.step h.revalidate).step hleave
  obtain ⟨chain₂, L₂, htable₂⟩ := hinv₂.table
  -- the first block is as it was, and the new one is over its changed word
  have hfirst : s₂.jit.blocks 0 = s.jit.blocks 0 := by
    rw [hs₂]
    exact Jit.blocks_insert_of_lt (h.nblocks ▸ Nat.succ_pos _)
  have hnew : s₂.jit.blocks 4095 = s.jit.newBlock 4120 oneExit := by
    rw [hs₂]
    show (s.jit.insert 4120 oneExit).blocks (4094 + 1) = _
    rw [← h.nblocks]
    exact Jit.blocks_insert_self
  have hpasses : s₂.jit.passes (fun _ => 1) 0 = false := by
    rw [Jit.passes, hfirst]
    exact h.first_changed.1
  have hmin : min s₂.quiet 2 = 2 := by
    rw [hs₂]
    exact Nat.min_eq_right h.epoch
  have hpending₂ : s₂.jit.pending = ⟨0, 2⟩ :: rest := by
    rw [hs₂]
    exact hpending
  obtain ⟨J, hJ⟩ : ∃ J : Jit, J = s₂.jit.invalidateWords sampleSizes [515] := ⟨_, rfl⟩
  have hdrops := htable₂.invalidateWords [515]
  rw [← hJ] at hdrops
  have hchecked : s₂.jit.revalidate sampleSizes (fun _ => 1) (min s₂.quiet 2) =
      { J with pending := rest } := by
    rw [Jit.revalidate, hpending₂, Jit.revalidateFrom, if_pos hmin.ge, hpasses, if_neg (by decide),
      hfirst, h.first_changed.2, ← hJ]
    apply Jit.revalidateFrom_of_late
    intro p hp
    rw [hmin]
    exact hstamps p hp
  have hlate : s₂.step sampleSizes (.revalidate (fun _ => 1) 2) =
      some { s₂ with jit := { J with pending := rest } } := by
    have hpoint : s₂.point ≠ .top := by
      rw [hs₂]
      simp
    simp only [State.step, if_neg hpoint, hchecked]
  have hnblocks : J.nblocks = 4096 := by
    rw [hdrops.frame.nblocks, hs₂]
    exact congrArg (· + 1) h.nblocks
  have hdropped : (J.blocks 4095).valid = false := by
    have hcovers : ∃ w ∈ [515], (s₂.jit.blocks 4095).Covers (8 * w) := by
      refine ⟨515, List.mem_singleton_self _, ?_⟩
      rw [hnew]
      refine ⟨le_rfl, ?_⟩
      show 8 * 515 < 4120 + 24 * 1
      decide
    rw [← Bool.not_eq_true]
    intro hvalid
    exact ((hdrops.live_iff 4095).mp ⟨by rw [hnblocks]; decide, hvalid⟩).2 hcovers
  have hroom : ({ J with pending := rest } : Jit).hasRoom = true := by
    show (rest.length + 1 != pendingLen) = true
    rw [hlength]
    rfl
  obtain ⟨J', hJ'⟩ : ∃ J' : Jit, J' = { J with pending := rest ++ [⟨4095, s.epoch + 1⟩] } :=
    ⟨_, rfl⟩
  have hready : State.step sampleSizes { s₂ with jit := { J with pending := rest } } .ready =
      some { s₂ with
        jit := J'.linkTo sampleSizes 16 4095
        epoch := s.epoch + 1
        point := .top } := by
    have hflushes : 0 = J.flushes := by
      rw [hdrops.frame.flushes, hs₂]
      exact h.flushes.symm
    rw [hs₂, State.step]
    dsimp only
    rw [hroom, if_neg (by decide), if_pos hflushes, hJ']
  refine ⟨{ s₂ with
      jit := J'.linkTo sampleSizes 16 4095
      epoch := s.epoch + 1
      point := .top }, ?_, fun hlinks => ?_⟩
  · rw [lateRound, State.run, h.revalidate, Option.bind_some, State.run, henter, Option.bind_some,
      State.run, hleave, Option.bind_some, State.run, hlate, Option.bind_some, State.run, hready,
      Option.bind_some, State.run]
  · have hnlinks : J'.nlinks < sampleSizes.maxLinks := by
      have hzero : J'.nlinks = 0 := by
        rw [hJ']
        show J.nlinks = 0
        rw [hdrops.frame.nlinks, hs₂]
        exact h.nlinks
      rw [hzero]
      decide
    obtain ⟨hincoming, hvalid⟩ := J'.linkTo_incoming 16 4095 hnlinks
    have hlive := hlinks 4095 (by
      show 4095 < (J'.linkTo sampleSizes 16 4095).nblocks
      rw [Jit.nblocks_linkTo, hJ']
      exact hnblocks.symm ▸ by decide) hincoming
    have hdead : (J'.blocks 4095).valid = false := by
      rw [hJ']
      exact hdropped
    rw [show ((J'.linkTo sampleSizes 16 4095).blocks 4095).valid = true from hlive] at hvalid
    rw [hdead] at hvalid
    cases hvalid

/-- A block that was dropped before `translate` returned it is linked to. -/
theorem dropped_block_linked : ∃ events s, sampleState.run sampleSizes events = some s ∧
    ∃ b < s.jit.nblocks, (s.jit.blocks b).incoming ≠ none ∧ (s.jit.blocks b).valid = false := by
  obtain ⟨events, s, hrun, hfilled⟩ := exists_filled le_rfl
  obtain ⟨s', hrun', hnot⟩ := hfilled.run_lateRound
  refine ⟨events ++ lateRound, s', ?_, ?_⟩
  · rw [State.run_append, hrun]
    exact hrun'
  · unfold Jit.LinksLive at hnot
    push Not at hnot
    obtain ⟨b, hb, hincoming, hvalid⟩ := hnot
    exact ⟨b, hb, hincoming, Bool.eq_false_iff.mpr hvalid⟩

end BlockTable
end SubleqEmu
