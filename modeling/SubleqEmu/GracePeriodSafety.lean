import SubleqEmu.GracePeriodModel

/-!
# Nothing from before the marks is outstanding

A CPU has outstanding checks only while it runs, between two publications of
the epoch.  So once a CPU has published an epoch not below the stamp of a
block, its checks are from after the block's marks, and stay so; the scan finds
this of one CPU after another.  The stamps on a ring, but for the block made at
the top of the pass, are not above what the CPU itself has published, so that
of CPUs that all wait, the one with the least publication need not.
-/

namespace SubleqEmu
namespace GracePeriod

variable {n : ℕ}

/-! ## The invariant -/

/-- The CPU's outstanding checks are from after the marks of the block. -/
def Clean (cpu : Cpu) (entry : Entry) : Prop :=
  ∀ check time, (check, time) ∈ cpu.checks →
    ∀ field ∈ entry.block.fields, field.marked ≤ time

def Point.Published : Point → Bool
  | .outside | .enter | .loaded _ => false
  | _ => true

def After.fields : After → List Field
  | .dispatch => []
  | .wait block _ => block.fields

/-- The static fields a CPU is about to put on its ring. -/
def Point.fields : Point → List Field
  | .scan _ _ after | .pop _ after => after.fields
  | .translate t _ => t.fields
  | .wait block _ => block.fields
  | _ => []

def Pass.late : Pass → ℕ
  | .top => 0
  | .link => 1

def After.late : After → ℕ
  | .dispatch => 0
  | .wait _ pass => pass.late

/-- How many blocks the CPU may have put on its ring since it published. -/
def Point.late : Point → Option ℕ
  | .outside | .enter | .loaded _ => none
  | .drain | .dispatch => some 0
  | .scan _ _ after | .pop _ after => some after.late
  | .translate _ pass | .wait _ pass => some pass.late
  | .dispatched | .running | .linkExit => some 1

/-- All pending blocks but the last few have stamps not above `q`. -/
def Settled (q : WithTop ℕ) (late : ℕ) (pending : List Entry) : Prop :=
  ∀ entry ∈ pending.take (pending.length - late), (entry.stamp : WithTop ℕ) ≤ q

/-- What holds of one CPU, with its publication `q`. -/
structure Local (epoch now : ℕ) (q : WithTop ℕ) (cpu : Cpu) : Prop where
  quiet_le : q ≠ ⊤ → q ≤ epoch
  published : cpu.point.Published = true → q ≠ ⊤
  outside : cpu.point = .outside → q = ⊤
  loaded : ∀ e, cpu.point = .loaded e → e ≤ epoch ∧
    ∀ entry ∈ cpu.pending.toList, entry.stamp ≤ e
  checks : cpu.point ≠ .running → cpu.checks = []
  stamp_le : ∀ entry ∈ cpu.pending.toList, entry.stamp ≤ epoch
  marked : ∀ entry ∈ cpu.pending.toList, ∀ field ∈ entry.block.fields,
    field.marked ≤ now
  marking : ∀ field ∈ cpu.point.fields, field.marked ≤ now
  settled : ∀ late, cpu.point.late = some late → Settled q late cpu.pending.toList

/-- What a scan has found of the CPU `o`. -/
structure Found (cpu : Cpu) (o : Fin n) (other : Cpu) : Prop where
  scan : ∀ next min after, cpu.point = .scan next min after → o < next →
    ∀ entry ∈ cpu.pending.toList, (entry.stamp : WithTop ℕ) ≤ min → Clean other entry
  pop : ∀ min after, cpu.point = .pop min after →
    ∀ entry ∈ cpu.pending.toList, (entry.stamp : WithTop ℕ) ≤ min → Clean other entry

structure Inv (s : State n) : Prop where
  local_ok : ∀ c, Local s.epoch s.now (s.quiet c) (s.cpu c)
  /-- a CPU that has published the stamp has only checks from after the marks -/
  published : ∀ c o, ∀ entry ∈ (s.cpu c).pending.toList,
    (entry.stamp : WithTop ℕ) ≤ s.quiet o → Clean (s.cpu o) entry
  found : ∀ c o, Found (s.cpu c) o (s.cpu o)

theorem Local.mono {epoch epoch' now now' : ℕ} {q : WithTop ℕ} {cpu : Cpu}
    (h : Local epoch now q cpu) (hepoch : epoch ≤ epoch') (hnow : now ≤ now') :
    Local epoch' now' q cpu where
  quiet_le hq := (h.quiet_le hq).trans (by exact_mod_cast hepoch)
  published := h.published
  outside := h.outside
  loaded e he := ⟨(h.loaded e he).1.trans hepoch, (h.loaded e he).2⟩
  checks := h.checks
  stamp_le entry hentry := (h.stamp_le entry hentry).trans hepoch
  marked entry hentry field hfield := (h.marked entry hentry field hfield).trans hnow
  marking field hfield := (h.marking field hfield).trans hnow
  settled := h.settled

theorem Settled.mono {q : WithTop ℕ} {late late' : ℕ} {pending : List Entry}
    (h : Settled q late pending) (hle : late ≤ late') : Settled q late' pending := by
  intro entry hentry
  exact h entry (List.take_subset_take_left _ (by omega) hentry)

theorem Settled.tail {q : WithTop ℕ} {late : ℕ} {entry : Entry} {pending : List Entry}
    (h : Settled q late (entry :: pending)) : Settled q late pending := by
  intro other hother
  by_cases hle : pending.length ≤ late
  · rw [Nat.sub_eq_zero_of_le hle, List.take_zero] at hother
    contradiction
  · refine h other ?_
    rw [List.length_cons, Nat.succ_sub (by omega), List.take_succ_cons]
    exact List.mem_cons_of_mem _ hother

theorem Settled.concat {q : WithTop ℕ} {pending : List Entry}
    (h : Settled q 0 pending) (entry : Entry) : Settled q 1 (pending ++ [entry]) := by
  intro other hother
  refine h other ?_
  simpa using hother

theorem settled_of_le {q : WithTop ℕ} {late : ℕ} {pending : List Entry}
    (h : ∀ entry ∈ pending, (entry.stamp : WithTop ℕ) ≤ q) : Settled q late pending :=
  fun entry hentry => h entry (List.mem_of_mem_take hentry)

theorem settled_nil (q : WithTop ℕ) (late : ℕ) : Settled q late [] := by
  intro entry hentry
  simp at hentry

theorem Clean.later {cpu cpu' : Cpu} {entry : Entry} {now : ℕ} (h : Clean cpu entry)
    (hmarked : ∀ field ∈ entry.block.fields, field.marked ≤ now)
    (hchecks : ∀ x ∈ cpu'.checks, x ∈ cpu.checks ∨ x.2 = now) : Clean cpu' entry := by
  intro check time hmem field hfield
  rcases hchecks (check, time) hmem with hold | hnew
  · exact h check time hold field hfield
  · have hnow : time = now := hnew
    rw [hnow]
    exact hmarked field hfield

theorem clean_of_nil {cpu : Cpu} {entry : Entry} (h : cpu.checks = []) :
    Clean cpu entry := by
  intro check time hmem
  rw [h] at hmem
  contradiction

theorem Found.later {cpu other other' : Cpu} {o : Fin n} (h : Found cpu o other)
    (hclean : ∀ entry ∈ cpu.pending.toList, Clean other entry → Clean other' entry) :
    Found cpu o other' where
  scan next min after hpoint ho entry hentry hle :=
    hclean entry hentry (h.scan next min after hpoint ho entry hentry hle)
  pop min after hpoint entry hentry hle :=
    hclean entry hentry (h.pop min after hpoint entry hentry hle)

/-- A CPU which is not in `revalidate` has found nothing. -/
theorem found_of_ne {cpu other : Cpu} {o : Fin n}
    (hscan : ∀ next min after, cpu.point ≠ .scan next min after)
    (hpop : ∀ min after, cpu.point ≠ .pop min after) : Found cpu o other where
  scan next min after hpoint := absurd hpoint (hscan next min after)
  pop min after hpoint := absurd hpoint (hpop min after)

theorem Local.checks_of_top {epoch now : ℕ} {cpu : Cpu}
    (h : Local epoch now ⊤ cpu) : cpu.checks = [] := by
  refine h.checks ?_
  intro hrunning
  exact h.published (by rw [hrunning]; rfl) rfl

/-- Stamps above the epoch are published by nobody inside. -/
theorem Local.checks_of_stamp {epoch now stamp : ℕ} {q : WithTop ℕ} {cpu : Cpu}
    (h : Local epoch now q cpu) {epoch' : ℕ} (hq : q ≠ ⊤ → q ≤ epoch')
    (hstamp : epoch' < stamp) (hle : (stamp : WithTop ℕ) ≤ q) : cpu.checks = [] := by
  by_cases htop : q = ⊤
  · subst htop
    exact h.checks_of_top
  · have hlt : (stamp : WithTop ℕ) ≤ epoch' := hle.trans (hq htop)
    have : stamp ≤ epoch' := by exact_mod_cast hlt
    omega

/-- What a step of one CPU has to keep for the invariant to hold of all. -/
theorem Inv.update {s s' : State n} {c : Fin n} {cpu' : Cpu} {q : WithTop ℕ}
    (hs : Inv s) (hcpu : s'.cpu = Function.update s.cpu c cpu')
    (hquiet : s'.quiet = Function.update s.quiet c q) (hepoch : s.epoch ≤ s'.epoch)
    (hnow : s'.now = s.now + 1) (hlocal : Local s'.epoch s'.now q cpu')
    (hchecks : ∀ x ∈ cpu'.checks, x ∈ (s.cpu c).checks ∨ x.2 = s.now)
    (hq : q = s.quiet c ∨ cpu'.checks = [])
    (hpending : ∀ entry ∈ cpu'.pending.toList,
      entry ∈ (s.cpu c).pending.toList ∨ s.epoch < entry.stamp)
    (hfound : ∀ o, Found cpu' o (s.cpu o)) : Inv s' := by
  have hself : s'.cpu c = cpu' := by
    rw [hcpu, Function.update_self]
  have hother : ∀ o, o ≠ c → s'.cpu o = s.cpu o := by
    intro o ho
    rw [hcpu, Function.update_of_ne ho]
  have hquietSelf : s'.quiet c = q := by
    rw [hquiet, Function.update_self]
  have hquietOther : ∀ o, o ≠ c → s'.quiet o = s.quiet o := by
    intro o ho
    rw [hquiet, Function.update_of_ne ho]
  have hold : ∀ c₁, ∀ entry ∈ (s'.cpu c₁).pending.toList,
      entry ∈ (s.cpu c₁).pending.toList ∨ s.epoch < entry.stamp := by
    intro c₁ entry hentry
    by_cases hc : c₁ = c
    · subst hc
      exact hpending entry (hself ▸ hentry)
    · exact Or.inl (hother c₁ hc ▸ hentry)
  have hlater : ∀ c₁, ∀ entry ∈ (s.cpu c₁).pending.toList,
      Clean (s.cpu c) entry → Clean cpu' entry := by
    intro c₁ entry hentry hclean
    exact hclean.later ((hs.local_ok c₁).marked entry hentry) hchecks
  refine ⟨?_, ?_, ?_⟩
  · intro o
    by_cases ho : o = c
    · subst ho
      rw [hself, hquietSelf]
      exact hlocal
    · rw [hother o ho, hquietOther o ho]
      exact (hs.local_ok o).mono hepoch (by omega)
  · intro c₁ o entry hentry hle
    by_cases ho : o = c
    · subst ho
      rw [hself]
      rw [hquietSelf] at hle
      rcases hq with hq | hnil
      · rcases hold c₁ entry hentry with hmem | hstamp
        · exact hlater c₁ entry hmem (hs.published c₁ o entry hmem (hq ▸ hle))
        · exact clean_of_nil (hlocal.checks_of_stamp
            (hq ▸ (hs.local_ok o).quiet_le) hstamp hle)
      · exact clean_of_nil hnil
    · rw [hother o ho]
      rw [hquietOther o ho] at hle
      rcases hold c₁ entry hentry with hmem | hstamp
      · exact hs.published c₁ o entry hmem hle
      · exact clean_of_nil ((hs.local_ok o).checks_of_stamp
          (hs.local_ok o).quiet_le hstamp hle)
  · intro c₁ o
    by_cases hc : c₁ = c
    · subst hc
      by_cases ho : o = c₁
      · subst ho
        rw [hself]
        have hscanning : ∀ entry ∈ cpu'.pending.toList, cpu'.point ≠ .running →
            Clean cpu' entry :=
          fun entry _ hpoint => clean_of_nil (hlocal.checks hpoint)
        refine ⟨?_, ?_⟩
        · intro next min after hpoint _ entry hentry _
          exact hscanning entry hentry (by rw [hpoint]; exact nofun)
        · intro min after hpoint entry hentry _
          exact hscanning entry hentry (by rw [hpoint]; exact nofun)
      · rw [hself, hother o ho]
        exact hfound o
    · rw [hother c₁ hc]
      by_cases ho : o = c
      · subst ho
        rw [hself]
        exact (hs.found c₁ o).later (hlater c₁)
      · rw [hother o ho]
        exact hs.found c₁ o

/-! ## Every step keeps it -/

theorem toList_flushed (flush : Bool) (pending : Ring Entry pendingLen) :
    (flushed flush pending).toList = if flush then [] else pending.toList := by
  unfold flushed
  cases flush
  · rfl
  · exact Ring.toList_clear _

theorem mem_flushed {flush : Bool} {pending : Ring Entry pendingLen} {entry : Entry}
    (h : entry ∈ (flushed flush pending).toList) : entry ∈ pending.toList := by
  rw [toList_flushed] at h
  split_ifs at h
  · contradiction
  · exact h

theorem Settled.flushed {q : WithTop ℕ} {late : ℕ} {pending : Ring Entry pendingLen}
    (h : Settled q late pending.toList) (flush : Bool) :
    Settled q late (flushed flush pending).toList := by
  rw [toList_flushed]
  split_ifs
  · exact settled_nil q late
  · exact h

section Local

variable {epoch now : ℕ} {q : WithTop ℕ} {cpu : Cpu}

/-- A CPU that moves on inside a pass. -/
theorem Local.goTo (h : Local epoch now q cpu) {point : Point}
    (hpublished : point.Published = true) (hq : q ≠ ⊤)
    (hchecks : point ≠ .running → cpu.checks = [])
    (hmarking : ∀ field ∈ point.fields, field.marked ≤ now)
    (hsettled : ∀ late, point.late = some late →
      Settled q late cpu.pending.toList) :
    Local epoch (now + 1) q { cpu with point := point } where
  quiet_le := h.quiet_le
  published _ := hq
  outside hpoint := by
    have : point = .outside := hpoint
    rw [this] at hpublished
    contradiction
  loaded e hpoint := by
    have : point = .loaded e := hpoint
    rw [this] at hpublished
    contradiction
  checks := hchecks
  stamp_le := h.stamp_le
  marked entry hentry field hfield := (h.marked entry hentry field hfield).trans (by omega)
  marking field hfield := (hmarking field hfield).trans (by omega)
  settled := hsettled

/-- A CPU that begins a pass. -/
theorem Local.unpublished (h : Local epoch now q cpu) {cpu' : Cpu}
    (hpending : cpu'.pending = cpu.pending) (hnil : cpu'.checks = [])
    (hpoint : cpu'.point = .enter ∨ ∃ e, cpu'.point = .loaded e ∧ e ≤ epoch ∧
      ∀ entry ∈ cpu.pending.toList, entry.stamp ≤ e) :
    Local epoch (now + 1) q cpu' := by
  have hpublished : cpu'.point.Published = false ∧ cpu'.point ≠ .outside ∧
      cpu'.point.fields = [] ∧ cpu'.point.late = none := by
    rcases hpoint with hpoint | ⟨e, hpoint, -⟩ <;> rw [hpoint] <;>
      exact ⟨rfl, nofun, rfl, rfl⟩
  obtain ⟨hnot, houtside, hfields, hlate⟩ := hpublished
  refine ⟨h.quiet_le, ?_, fun hout => absurd hout houtside, ?_, fun _ => hnil,
    hpending ▸ h.stamp_le, ?_, ?_, ?_⟩
  · intro hyes
    rw [hnot] at hyes
    contradiction
  · intro e he
    rcases hpoint with hpoint | ⟨e', hpoint, hle, hstamps⟩
    · rw [hpoint] at he
      contradiction
    · rw [hpoint] at he
      cases he
      exact ⟨hle, hpending ▸ hstamps⟩
  · intro entry hentry field hfield
    exact (h.marked entry (hpending ▸ hentry) field hfield).trans (by omega)
  · intro field hfield
    rw [hfields] at hfield
    contradiction
  · intro late heq
    rw [hlate] at heq
    contradiction

end Local

theorem After.point_published (after : After) : after.point.Published = true := by
  cases after <;> rfl

theorem After.point_fields (after : After) : after.point.fields = after.fields := by
  cases after <;> rfl

theorem After.point_late (after : After) : after.point.late = some after.late := by
  cases after <;> rfl

theorem After.point_ne_running (after : After) : after.point ≠ .running := by
  cases after <;> exact nofun

/-- A CPU that calls `revalidate` has found nothing yet. -/
theorem found_revalidate {cpu other : Cpu} {o : Fin n} {after : After}
    {pending : Ring Entry pendingLen} (h : cpu.point = revalidate pending after) :
    Found cpu o other := by
  unfold revalidate at h
  split_ifs at h
  · refine found_of_ne ?_ ?_ <;> intros <;> rw [h] <;> cases after <;> exact nofun
  · refine ⟨?_, ?_⟩
    · intro next min after' hpoint ho
      rw [h] at hpoint
      cases hpoint
      exact absurd ho (Nat.not_lt_zero _)
    · intro min after' hpoint
      rw [h] at hpoint
      cases hpoint

theorem revalidate_point (pending : Ring Entry pendingLen) (after : After) :
    (revalidate pending after).Published = true ∧
      (revalidate pending after).fields = after.fields ∧
      (revalidate pending after).late = some after.late ∧
      revalidate pending after ≠ .running := by
  unfold revalidate
  split_ifs
  · exact ⟨after.point_published, after.point_fields, after.point_late,
      after.point_ne_running⟩
  · exact ⟨rfl, rfl, rfl, nofun⟩

section Step

variable {s : State n} {c : Fin n}

theorem Inv.move (hs : Inv s) {point : Point}
    (hmove : Move s (s.cpu c) (s.cpu c).point point) : Inv (s.goTo c point) := by
  have hlocal := hs.local_ok c
  have hupdate : ∀ hnew : Local s.epoch (s.now + 1) (s.quiet c)
      { s.cpu c with point := point },
      (∀ o, Found { s.cpu c with point := point } o (s.cpu o)) → Inv (s.goTo c point) :=
    fun hnew hfound => hs.update rfl (Function.update_eq_self c s.quiet).symm le_rfl rfl
      hnew (fun x hx => Or.inl hx) (Or.inl rfl) (fun entry hentry => Or.inl hentry) hfound
  have hstay : ∀ from_ : Point, (s.cpu c).point = from_ → from_.Published = true →
      from_ ≠ .running → point.Published = true →
      (∀ field ∈ point.fields, field ∈ from_.fields) →
      (∀ late, point.late = some late →
        ∃ late', from_.late = some late' ∧ late' ≤ late) →
      Local s.epoch (s.now + 1) (s.quiet c) { s.cpu c with point := point } := by
    intro from_ hfrom hpublished hrunning hpublished' hfields hlate
    refine hlocal.goTo hpublished' (hlocal.published (hfrom ▸ hpublished))
      (fun _ => hlocal.checks (hfrom ▸ hrunning)) ?_ ?_
    · intro field hfield
      exact hlocal.marking field (hfrom ▸ hfields field hfield)
    · intro late heq
      obtain ⟨late', heq', hle⟩ := hlate late heq
      exact (hlocal.settled late' (hfrom ▸ heq')).mono hle
  generalize hfrom : (s.cpu c).point = from_ at hmove
  cases hmove with
  | enter =>
      have hnil := hlocal.checks (by rw [hfrom]; exact nofun)
      exact hupdate (hlocal.unpublished rfl hnil (Or.inl rfl))
        fun o => found_of_ne nofun nofun
  | load =>
      have hnil := hlocal.checks (by rw [hfrom]; exact nofun)
      exact hupdate (hlocal.unpublished rfl hnil
          (Or.inr ⟨s.epoch, rfl, le_rfl, hlocal.stamp_le⟩))
        fun o => found_of_ne nofun nofun
  | @scan k min after =>
      refine hupdate (hstay _ hfrom rfl nofun rfl
        (fun field hfield => hfield) fun late hlate => ⟨late, hlate, le_rfl⟩) ?_
      intro o
      refine ⟨?_, nofun⟩
      intro next min' after' hpoint ho entry hentry hle
      obtain ⟨rfl, rfl, rfl⟩ := Point.scan.inj hpoint
      obtain ⟨hmin, hquiet⟩ := le_min_iff.mp hle
      by_cases heq : o = k
      · subst heq
        exact hs.published c o entry hentry hquiet
      · have hlt : o.val < k.val := by
          have : o.val ≠ k.val := fun h => heq (Fin.ext h)
          omega
        exact (hs.found c o).scan _ _ _ hfrom hlt entry hentry hmin
  | @scanned next min after hend =>
      refine hupdate (hstay _ hfrom rfl nofun rfl
        (fun field hfield => hfield) fun late hlate => ⟨late, hlate, le_rfl⟩) ?_
      intro o
      refine ⟨nofun, ?_⟩
      intro min' after' hpoint entry hentry hle
      obtain ⟨rfl, rfl⟩ := Point.pop.inj hpoint
      exact (hs.found c o).scan _ _ _ hfrom (o.isLt.trans_le hend) entry hentry hle
  | @popped min after h =>
      refine hupdate (hstay _ hfrom rfl nofun after.point_published
        (fun field hfield => by rwa [after.point_fields] at hfield)
        fun late hlate => ⟨late, after.point_late.symm.trans hlate, le_rfl⟩) ?_
      intro o
      refine found_of_ne ?_ ?_ <;> cases after <;> exact nofun
  | readWord w =>
      exact hupdate (hstay _ hfrom rfl nofun rfl
        (fun field hfield => hfield) fun late hlate => ⟨late, hlate, le_rfl⟩)
        fun o => found_of_ne nofun nofun
  | translated h =>
      exact hupdate (hstay _ hfrom rfl nofun rfl
        (fun field hfield => hfield) fun late hlate => ⟨late, hlate, le_rfl⟩)
        fun o => found_of_ne nofun nofun
  | @waitFull block pass h =>
      obtain ⟨hpublished, hfields, hlate, -⟩ :=
        revalidate_point (s.cpu c).pending (.wait block pass)
      exact hupdate (hstay _ hfrom rfl nofun hpublished
        (fun field hfield => by rwa [hfields] at hfield)
        fun late heq => ⟨late, hlate.symm.trans heq, le_rfl⟩)
        fun o => found_revalidate rfl
  | run =>
      exact hupdate (hstay _ hfrom rfl nofun rfl
        (fun field hfield => by simp [Point.fields] at hfield)
        fun late hlate => ⟨0, rfl, Nat.zero_le _⟩)
        fun o => found_of_ne nofun nofun
  | runTranslated =>
      exact hupdate (hstay _ hfrom rfl nofun rfl
        (fun field hfield => by simp [Point.fields] at hfield)
        fun late hlate => ⟨late, hlate, le_rfl⟩)
        fun o => found_of_ne nofun nofun
  | linked =>
      have hnil := hlocal.checks (by rw [hfrom]; exact nofun)
      exact hupdate (hlocal.unpublished rfl hnil (Or.inl rfl))
        fun o => found_of_ne nofun nofun

/-- A step that leaves the CPU and what it has published as they are. -/
theorem Inv.idle (hs : Inv s) {s' : State n} (hcpu : s'.cpu = Function.update s.cpu c (s.cpu c))
    (hquiet : s'.quiet = s.quiet) (hepoch : s'.epoch = s.epoch)
    (hnow : s'.now = s.now + 1) : Inv s' := by
  refine hs.update hcpu ?_ hepoch.ge hnow ?_ (fun x hx => Or.inl hx) (Or.inl rfl)
    (fun entry hentry => Or.inl hentry) (hs.found c)
  · rw [hquiet, Function.update_eq_self]
  · rw [hepoch, hnow]
    exact (hs.local_ok c).mono le_rfl (by omega)

/-- A CPU inside `translate` which comes no further than that. -/
theorem Inv.translating (hs : Inv s) {s' : State n} {t t' : Translation} {pass : Pass}
    (hpoint : (s.cpu c).point = .translate t pass)
    (hcpu : s'.cpu = Function.update s.cpu c
      { s.cpu c with point := .translate t' pass })
    (hquiet : s'.quiet = s.quiet) (hepoch : s'.epoch = s.epoch)
    (hnow : s'.now = s.now + 1)
    (hfields : ∀ field ∈ t'.fields, field ∈ t.fields ∨ field.marked = s.now) : Inv s' := by
  have hlocal := hs.local_ok c
  refine hs.update hcpu ?_ hepoch.ge hnow ?_ (fun x hx => Or.inl hx) (Or.inl rfl)
    (fun entry hentry => Or.inl hentry) (fun o => found_of_ne nofun nofun)
  · rw [hquiet, Function.update_eq_self]
  · rw [hepoch, hnow]
    refine hlocal.goTo rfl (hlocal.published (by rw [hpoint]; rfl))
      (fun _ => hlocal.checks (by rw [hpoint]; exact nofun)) ?_ ?_
    · intro field hfield
      rcases hfields field hfield with hold | hnew
      · exact hlocal.marking field (by rw [hpoint]; exact hold)
      · exact hnew.le
    · intro late hlate
      exact hlocal.settled late (by rw [hpoint]; exact hlate)

theorem Step.inv {s' : State n} (hs : Inv s) (hstep : Step c s s') : Inv s' := by
  have hlocal := hs.local_ok c
  cases hstep with
  | move h => exact hs.move h
  | @publish e h =>
      obtain ⟨hepoch, hstamps⟩ := hlocal.loaded e h
      have hnil := hlocal.checks (by rw [h]; exact nofun)
      refine hs.update (q := (e : WithTop ℕ)) rfl rfl le_rfl rfl ?_
        (fun x hx => Or.inl hx) (Or.inr hnil) (fun entry hentry => Or.inl hentry)
        (fun o => found_of_ne nofun nofun)
      refine ⟨fun _ => by exact_mod_cast hepoch, fun _ => WithTop.coe_ne_top, nofun, nofun,
        fun _ => hnil, hlocal.stamp_le, ?_, nofun, ?_⟩
      · intro entry hentry field hfield
        exact (hlocal.marked entry hentry field hfield).trans (Nat.le_succ _)
      · intro late _
        exact settled_of_le fun entry hentry => by exact_mod_cast hstamps entry hentry
  | drain h flush =>
      obtain ⟨hpublished, hfields, hlate, hrunning⟩ :=
        revalidate_point (flushed flush (s.cpu c).pending) .dispatch
      have hnil := hlocal.checks (by rw [h]; exact nofun)
      have hq := hlocal.published (by rw [h]; rfl)
      refine hs.update rfl (Function.update_eq_self c s.quiet).symm le_rfl rfl ?_
        (fun x hx => Or.inl hx) (Or.inl rfl)
        (fun entry hentry => Or.inl (mem_flushed hentry)) (fun o => found_revalidate rfl)
      refine ⟨hlocal.quiet_le, fun _ => hq, ?_, ?_, fun _ => hnil, ?_, ?_, ?_, ?_⟩
      · intro hpoint
        rw [show revalidate _ _ = Point.outside from hpoint] at hpublished
        contradiction
      · intro e hpoint
        rw [show revalidate _ _ = Point.loaded e from hpoint] at hpublished
        contradiction
      · exact fun entry hentry => hlocal.stamp_le entry (mem_flushed hentry)
      · intro entry hentry field hfield
        exact (hlocal.marked entry (mem_flushed hentry) field hfield).trans (Nat.le_succ _)
      · intro field hfield
        rw [hfields] at hfield
        contradiction
      · intro late heq
        obtain rfl : 0 = late := by
          rw [hlate] at heq
          exact Option.some.inj heq
        exact (hlocal.settled 0 (by rw [h]; rfl)).flushed flush
  | @pop min after h hempty hstamp =>
      have hlist := Ring.toList_eq_front_cons (s.cpu c).pending hempty
      have hmem : ∀ entry ∈ (s.cpu c).pending.pop.toList,
          entry ∈ (s.cpu c).pending.toList := by
        intro entry hentry
        rw [hlist]
        exact List.mem_cons_of_mem _ hentry
      refine hs.update rfl (Function.update_eq_self c s.quiet).symm le_rfl rfl ?_
        (fun x hx => Or.inl hx) (Or.inl rfl)
        (fun entry hentry => Or.inl (hmem entry hentry)) ?_
      · refine ⟨hlocal.quiet_le, hlocal.published, hlocal.outside, ?_, hlocal.checks,
          fun entry hentry => hlocal.stamp_le entry (hmem entry hentry), ?_, ?_, ?_⟩
        · intro e he
          rw [h] at he
          contradiction
        · intro entry hentry field hfield
          exact (hlocal.marked entry (hmem entry hentry) field hfield).trans
            (Nat.le_succ _)
        · intro field hfield
          exact (hlocal.marking field hfield).trans (Nat.le_succ _)
        · intro late hlate
          have hsettled := hlocal.settled late hlate
          rw [hlist] at hsettled
          exact hsettled.tail
      · intro o
        refine ⟨?_, ?_⟩
        · intro next min' after' hpoint
          rw [h] at hpoint
          contradiction
        · intro min' after' hpoint entry hentry hle
          exact (hs.found c o).pop min' after' hpoint entry (hmem entry hentry) hle
  | @translate pass h flush =>
      have hfrom : (s.cpu c).point ≠ .running ∧ (s.cpu c).point.Published = true ∧
          (s.cpu c).point.late = some pass.late := by
        generalize (s.cpu c).point = from_ at h
        cases h <;> exact ⟨nofun, rfl, rfl⟩
      obtain ⟨hrunning, hpublished, hlate⟩ := hfrom
      have hnil := hlocal.checks hrunning
      refine hs.update rfl (Function.update_eq_self c s.quiet).symm le_rfl rfl ?_
        (fun x hx => Or.inl hx) (Or.inl rfl)
        (fun entry hentry => Or.inl (mem_flushed hentry))
        (fun o => found_of_ne nofun nofun)
      refine ⟨hlocal.quiet_le, fun _ => hlocal.published hpublished, nofun, nofun,
        fun _ => hnil, fun entry hentry => hlocal.stamp_le entry (mem_flushed hentry),
        ?_, nofun, ?_⟩
      · intro entry hentry field hfield
        exact (hlocal.marked entry (mem_flushed hentry) field hfield).trans (Nat.le_succ _)
      · intro late heq
        obtain rfl : pass.late = late := Option.some.inj heq
        exact (hlocal.settled _ hlate).flushed flush
  | markBit h hidle hraw =>
      exact hs.translating h rfl rfl rfl rfl fun field hfield => Or.inl hfield
  | markPage h hmarking =>
      exact hs.translating h rfl rfl rfl rfl fun field hfield => Or.inl hfield
  | markPrevious h hmarking =>
      refine hs.translating h rfl rfl rfl rfl fun field hfield => ?_
      rcases List.mem_append.mp hfield with hold | hnew
      · exact Or.inl hold
      · rw [List.mem_singleton.mp hnew]
        exact Or.inr rfl
  | @stamp block pass h hfull =>
      have hnil := hlocal.checks (by rw [h]; exact nofun)
      have hq := hlocal.published (by rw [h]; rfl)
      have hlist := Ring.toList_push (s.cpu c).pending ⟨block, s.epoch + 1⟩ hfull
      have hmem : ∀ entry ∈ ((s.cpu c).pending.push ⟨block, s.epoch + 1⟩).toList,
          entry ∈ (s.cpu c).pending.toList ∨ entry = ⟨block, s.epoch + 1⟩ := by
        intro entry hentry
        rw [hlist] at hentry
        simpa using hentry
      have hnext : pass.next ≠ .outside ∧ pass.next ≠ .running ∧
          pass.next.fields = [] ∧ ∀ e, pass.next ≠ .loaded e := by
        cases pass <;> exact ⟨nofun, nofun, rfl, nofun⟩
      obtain ⟨houtside, hrunning, hfields, hloaded⟩ := hnext
      refine hs.update rfl (Function.update_eq_self c s.quiet).symm (Nat.le_succ _) rfl ?_
        (fun x hx => Or.inl hx) (Or.inl rfl) ?_ ?_
      · refine ⟨fun htop => (hlocal.quiet_le htop).trans (by exact_mod_cast Nat.le_succ _),
          fun _ => hq, fun hpoint => absurd hpoint houtside,
          fun e hpoint => absurd hpoint (hloaded e), fun _ => hnil, ?_, ?_, ?_, ?_⟩
        · intro entry hentry
          rcases hmem entry hentry with hold | rfl
          · exact (hlocal.stamp_le entry hold).trans (Nat.le_succ _)
          · exact le_rfl
        · intro entry hentry field hfield
          rcases hmem entry hentry with hold | rfl
          · exact (hlocal.marked entry hold field hfield).trans (Nat.le_succ _)
          · exact (hlocal.marking field (by rw [h]; exact hfield)).trans (Nat.le_succ _)
        · intro field hfield
          rw [hfields] at hfield
          contradiction
        · intro late heq
          cases pass with
          | top =>
              obtain rfl : 1 = late := Option.some.inj heq
              rw [hlist]
              exact (hlocal.settled 0 (by rw [h]; rfl)).concat _
          | link => contradiction
      · intro entry hentry
        rcases hmem entry hentry with hold | rfl
        · exact Or.inl hold
        · exact Or.inr (Nat.lt_succ_self _)
      · intro o
        cases pass <;> exact found_of_ne nofun nofun
  | check h check hclear =>
      refine hs.update rfl (Function.update_eq_self c s.quiet).symm le_rfl rfl ?_ ?_
        (Or.inl rfl) (fun entry hentry => Or.inl hentry) (fun o => ?_)
      · have hnew := hlocal.mono (le_refl s.epoch) (Nat.le_succ s.now)
        exact ⟨hnew.quiet_le, hnew.published, hnew.outside, hnew.loaded,
          fun hpoint => absurd h hpoint, hnew.stamp_le, hnew.marked, hnew.marking,
          hnew.settled⟩
      · intro x hx
        rcases List.mem_cons.mp hx with rfl | hx
        · exact Or.inr rfl
        · exact Or.inl hx
      · refine found_of_ne ?_ ?_ <;> intros <;> rw [h] <;> exact nofun
  | store h value hcheck hcovers => exact hs.idle rfl rfl rfl rfl
  | unmark w => exact hs.idle rfl rfl rfl rfl
  | @passEnd h point hpoint =>
      rcases hpoint with rfl | rfl
      · exact hs.update rfl (Function.update_eq_self c s.quiet).symm le_rfl rfl
          (hlocal.unpublished rfl rfl (Or.inl rfl)) nofun (Or.inl rfl)
          (fun entry hentry => Or.inl hentry) (fun o => found_of_ne nofun nofun)
      · refine hs.update rfl (Function.update_eq_self c s.quiet).symm le_rfl rfl ?_ nofun
          (Or.inl rfl) (fun entry hentry => Or.inl hentry)
          (fun o => found_of_ne nofun nofun)
        have hsettled := hlocal.settled 1 (by rw [h]; rfl)
        refine ⟨hlocal.quiet_le, fun _ => hlocal.published (by rw [h]; rfl), nofun, nofun,
          fun _ => rfl, hlocal.stamp_le, ?_, nofun, ?_⟩
        · intro entry hentry field hfield
          exact (hlocal.marked entry hentry field hfield).trans (Nat.le_succ _)
        · intro late heq
          obtain rfl : 1 = late := Option.some.inj heq
          exact hsettled
  | leave h =>
      refine hs.update (q := ⊤) rfl rfl le_rfl rfl ?_ nofun (Or.inr rfl)
        (fun entry hentry => Or.inl hentry) (fun o => found_of_ne nofun nofun)
      refine ⟨fun htop => absurd rfl htop, nofun, fun _ => rfl, nofun, fun _ => rfl,
        hlocal.stamp_le, ?_, nofun, nofun⟩
      intro entry hentry field hfield
      exact (hlocal.marked entry hentry field hfield).trans (Nat.le_succ _)

end Step

/-! ## Runs -/

theorem Initial.inv {s : State n} (hs : Initial s) : Inv s := by
  have hnone : ∀ c, ∀ entry ∈ (s.cpu c).pending.toList, False := by
    intro c entry hentry
    rw [hs.pending c] at hentry
    contradiction
  refine ⟨?_, fun c o entry hentry => (hnone c entry hentry).elim, ?_⟩
  · intro c
    rw [hs.quiet c]
    refine ⟨fun htop => absurd rfl htop, ?_, fun _ => rfl, ?_, fun _ => hs.checks c,
      fun entry hentry => (hnone c entry hentry).elim,
      fun entry hentry => (hnone c entry hentry).elim, ?_, ?_⟩
    all_goals rw [hs.outside c]; exact nofun
  · intro c o
    refine found_of_ne ?_ ?_ <;> intros <;> rw [hs.outside c] <;> exact nofun

theorem Reachable.inv {s : State n} (hs : Reachable s) : Inv s := by
  obtain ⟨s₀, hinitial, hrun⟩ := hs
  induction hrun with
  | refl => exact hinitial.inv
  | tail _ hstep ih =>
      obtain ⟨c, hstep⟩ := hstep
      exact hstep.inv ih

/-- Nobody inside, and memory all zero. -/
def idleState (n : ℕ) : State n where
  epoch := 1
  quiet := fun _ => ⊤
  mem := fun _ => 0
  staticMap := fun _ => false
  pageMap := fun _ => false
  now := 0
  cpu := fun _ =>
    { point := .outside
      pending := .empty (fun _ => ⟨⟨[]⟩, 0⟩) (by decide)
      checks := [] }

theorem initial_idleState (n : ℕ) : Initial (idleState n) where
  epoch := rfl
  quiet _ := rfl
  staticMap _ := rfl
  pageMap _ := rfl
  outside _ := rfl
  pending _ := Ring.toList_empty _ _
  checks _ := rfl

theorem exists_run_of_step {P : State n → Prop} {s s' : State n} (c : Fin n)
    (hstep : Step c s s') (hrest : ∃ t, Relation.ReflTransGen Next s' t ∧ P t) :
    ∃ t, Relation.ReflTransGen Next s t ∧ P t := by
  obtain ⟨t, hrun, ht⟩ := hrest
  exact ⟨t, .head ⟨c, hstep⟩ hrun, ht⟩

/-! ## Blocks that stay -/

/-- A store to the word may still come from a check made at that time. -/
def Outstanding (cpu : Cpu) (w time : ℕ) : Prop :=
  ∃ check, (check, time) ∈ cpu.checks ∧ check.Covers w

/-- When `revalidate` lets a block stay, no CPU has a store outstanding to one of
its static words from a check before the word's marks were complete. -/
theorem marked_le_of_outstanding {s : State n} (hs : Reachable s) {c : Fin n}
    {entry : Entry} (hkeeps : Keeps s c entry) :
    ∀ field ∈ entry.block.fields, ∀ o time, Outstanding (s.cpu o) field.word time →
      field.marked ≤ time := by
  rintro field hfield o time ⟨check, hcheck, -⟩
  obtain ⟨min, after, hpoint, hstamp⟩ := hkeeps.pop
  have hmem : entry ∈ (s.cpu c).pending.toList := by
    rw [Ring.toList_eq_front_cons _ hkeeps.nonempty, hkeeps.front]
    exact List.mem_cons_self
  exact (hs.inv.found c o).pop min after hpoint entry hmem hstamp check time hcheck
    field hfield

/-- One CPU translates a word and takes the block off its ring while another, in
a block since, is about to store to another word. -/
theorem marked_le_of_outstanding_oneWordBlock :
    ∃ (s : State 2) (entry : Entry), Reachable s ∧ Keeps s 0 entry ∧
      entry.block.fields ≠ [] ∧ (∃ w time, Outstanding (s.cpu 1) w time) ∧
      ∀ field ∈ entry.block.fields, ∀ o time, Outstanding (s.cpu o) field.word time →
        field.marked ≤ time := by
  have hrun : ∃ s : State 2, Relation.ReflTransGen Next (idleState 2) s ∧
      ∃ entry, Keeps s 0 entry ∧ entry.block.fields ≠ [] ∧
        ∃ w time, Outstanding (s.cpu 1) w time := by
    refine exists_run_of_step 0 (.move .enter) ?_
    refine exists_run_of_step 0 (.move .load) ?_
    refine exists_run_of_step 0 (.publish rfl) ?_
    refine exists_run_of_step 0 (.drain rfl false) ?_
    refine exists_run_of_step 0 (.translate .top false) ?_
    refine exists_run_of_step 0 (.move (.readWord 5)) ?_
    refine exists_run_of_step 0 (.markBit rfl rfl List.mem_cons_self) ?_
    refine exists_run_of_step 0 (.markPage rfl rfl) ?_
    refine exists_run_of_step 0 (.markPrevious rfl rfl) ?_
    refine exists_run_of_step 0 (.move (.translated rfl)) ?_
    refine exists_run_of_step 0 (.stamp rfl rfl) ?_
    refine exists_run_of_step 0 (.move .runTranslated) ?_
    refine exists_run_of_step 0 (.passEnd rfl (Or.inl rfl)) ?_
    refine exists_run_of_step 0 (.move .load) ?_
    refine exists_run_of_step 0 (.publish rfl) ?_
    refine exists_run_of_step 1 (.move .enter) ?_
    refine exists_run_of_step 1 (.move .load) ?_
    refine exists_run_of_step 1 (.publish rfl) ?_
    refine exists_run_of_step 1 (.drain rfl false) ?_
    refine exists_run_of_step 1 (.move .run) ?_
    refine exists_run_of_step 1 (.check rfl (.word 9) rfl) ?_
    refine exists_run_of_step 0 (.drain rfl false) ?_
    refine exists_run_of_step 0 (.move (.scan (k := 0))) ?_
    refine exists_run_of_step 0 (.move (.scan (k := 1))) ?_
    refine exists_run_of_step 0 (.move (.scanned le_rfl)) ?_
    refine ⟨_, .refl, _, ⟨⟨_, _, rfl, ?_⟩, ?_, rfl, ?_⟩, ?_, 9, _, _, List.mem_cons_self, ?_⟩
    · exact le_min (le_min le_top le_rfl) le_rfl
    · rfl
    · exact congrArg (hashStep hashSeed) rfl
    · exact List.cons_ne_nil _ _
    · rfl
  obtain ⟨s, hrun, entry, hkeeps, hfields, hout⟩ := hrun
  have hs : Reachable s := ⟨_, initial_idleState 2, hrun⟩
  exact ⟨s, entry, hs, hkeeps, hfields, hout, marked_le_of_outstanding hs hkeeps⟩

/-! ## Full rings -/

section Full

variable {s : State n} {c : Fin n}

/-- The CPU is at the end of `translate`, its ring full. -/
structure Waiting (s : State n) (c : Fin n) : Prop where
  point : ∃ block pass, (s.cpu c).point = .wait block pass ∨
    (∃ next min, (s.cpu c).point = .scan next min (.wait block pass)) ∨
    ∃ min, (s.cpu c).point = .pop min (.wait block pass)
  full : (s.cpu c).pending.isFull = true

theorem Waiting.late (h : Waiting s c) :
    (s.cpu c).point.late = some 0 ∨ (s.cpu c).point.late = some 1 := by
  obtain ⟨block, pass, hpoint | ⟨next, min, hpoint⟩ | ⟨min, hpoint⟩⟩ := h.point <;>
    rw [hpoint] <;> cases pass
  all_goals first | exact Or.inl rfl | exact Or.inr rfl

theorem Waiting.published (h : Waiting s c) : (s.cpu c).point.Published = true := by
  obtain ⟨block, pass, hpoint | ⟨next, min, hpoint⟩ | ⟨min, hpoint⟩⟩ := h.point <;>
    rw [hpoint] <;> rfl

theorem Waiting.isEmpty (h : Waiting s c) : (s.cpu c).pending.isEmpty = false := by
  have hfull := (Ring.isFull_iff _).mp h.full
  by_contra hempty
  have hnil := (Ring.isEmpty_iff _).mp (Bool.not_eq_false _ ▸ hempty)
  rw [hnil] at hfull
  exact absurd hfull (by decide)

/-- The oldest block on a full ring is not above what its CPU published. -/
theorem Waiting.front_le (h : Waiting s c) (hs : Inv s) :
    ((s.cpu c).pending.front.stamp : WithTop ℕ) ≤ s.quiet c := by
  have hlist := Ring.toList_eq_front_cons _ h.isEmpty
  have hfull := (Ring.isFull_iff _).mp h.full
  have hsettled : Settled (s.quiet c) 1 (s.cpu c).pending.toList := by
    rcases h.late with hlate | hlate
    · exact ((hs.local_ok c).settled 0 hlate).mono (Nat.zero_le 1)
    · exact (hs.local_ok c).settled 1 hlate
  refine hsettled _ ?_
  have hlength : (s.cpu c).pending.toList.length - 1 ≠ 0 := by
    have hlen : (s.cpu c).pending.toList.length + 1 = 4096 := hfull
    omega
  rw [hlist] at hlength ⊢
  obtain ⟨k, hk⟩ := Nat.exists_eq_succ_of_ne_zero hlength
  rw [hk, List.take_succ_cons]
  exact List.mem_cons_self

/-- What the steps of a CPU on its way through `revalidate` leave alone. -/
structure Onward (s s' : State n) (c : Fin n) (point : Point) : Prop where
  steps : Relation.ReflTransGen (Step c) s s'
  point : (s'.cpu c).point = point
  pending : (s'.cpu c).pending = (s.cpu c).pending
  quiet : s'.quiet = s.quiet

theorem Onward.trans {s₁ s₂ : State n} {point₁ point₂ : Point}
    (h : Onward s s₁ c point₁) (h' : Onward s₁ s₂ c point₂) : Onward s s₂ c point₂ :=
  ⟨h.steps.trans h'.steps, h'.point, h'.pending.trans h.pending, h'.quiet.trans h.quiet⟩

theorem Onward.move {point : Point} (h : Move s (s.cpu c) (s.cpu c).point point) :
    Onward s (s.goTo c point) c point := by
  have hself : ((s.goTo c point).cpu c) = { s.cpu c with point := point } :=
    Function.update_self ..
  refine ⟨.single (.move h), ?_, ?_, rfl⟩
  · rw [hself]
  · rw [hself]

/-- A scan ends, with a minimum not below what none of the CPUs is below. -/
theorem onward_scan (stamp : ℕ) {next : ℕ} {min : WithTop ℕ} {after : After}
    (hpoint : (s.cpu c).point = .scan next min after)
    (hquiet : ∀ o, (stamp : WithTop ℕ) ≤ s.quiet o) :
    ∃ s' min', Onward s s' c (.pop min' after) ∧
      ((stamp : WithTop ℕ) ≤ min → (stamp : WithTop ℕ) ≤ min') := by
  induction hleft : n - next generalizing s next min with
  | zero =>
      exact ⟨_, min, Onward.move (hpoint ▸ .scanned (by omega)), id⟩
  | succ left ih =>
      have hlt : next < n := by omega
      have hfirst : Onward s _ c (.scan (next + 1) (min ⊓ s.quiet ⟨next, hlt⟩) after) :=
        Onward.move (hpoint ▸ Move.scan (k := ⟨next, hlt⟩))
      obtain ⟨s', min', honward, hmin⟩ :=
        ih hfirst.point (by rw [hfirst.quiet]; exact hquiet) (by omega)
      exact ⟨s', min', hfirst.trans honward,
        fun hle => hmin (le_min hle (hquiet ⟨next, hlt⟩))⟩

/-- Taking a block off makes room. -/
theorem frees_of_pop {min : WithTop ℕ} {after : After}
    (hpoint : (s.cpu c).point = .pop min after)
    (hfull : (s.cpu c).pending.isFull = true) (hempty : (s.cpu c).pending.isEmpty = false)
    (hstamp : ((s.cpu c).pending.front.stamp : WithTop ℕ) ≤ min) :
    ∃ s', Relation.ReflTransGen (Step c) s s' ∧ (s'.cpu c).pending.isFull = false := by
  refine ⟨_, .single (.pop hpoint hempty hstamp), ?_⟩
  have hself : (s.put c { s.cpu c with pending := (s.cpu c).pending.pop }).cpu c =
      { s.cpu c with pending := (s.cpu c).pending.pop } := Function.update_self ..
  rw [hself]
  by_contra hstill
  have hlength := (Ring.isFull_iff _).mp hfull
  have hlength' := (Ring.isFull_iff _).mp (Bool.not_eq_false _ ▸ hstill)
  rw [Ring.toList_eq_front_cons _ hempty, List.length_cons] at hlength
  simp only at hlength'
  omega

theorem frees_of_wait {block : Block} {pass : Pass}
    (hpoint : (s.cpu c).point = .wait block pass)
    (hfull : (s.cpu c).pending.isFull = true) (hempty : (s.cpu c).pending.isEmpty = false)
    (hquiet : ∀ o, ((s.cpu c).pending.front.stamp : WithTop ℕ) ≤ s.quiet o) :
    ∃ s', Relation.ReflTransGen (Step c) s s' ∧ (s'.cpu c).pending.isFull = false := by
  have hscan : revalidate (s.cpu c).pending (.wait block pass) =
      .scan 0 ⊤ (.wait block pass) := by
    rw [revalidate, hempty]
    rfl
  have hfirst : Onward s _ c (.scan 0 ⊤ (.wait block pass)) :=
    Onward.move (hpoint ▸ hscan ▸ Move.waitFull hfull)
  obtain ⟨s₁, min, hrest, hmin⟩ :=
    onward_scan (s.cpu c).pending.front.stamp hfirst.point
      (by rw [hfirst.quiet]; exact hquiet)
  have honward := hfirst.trans hrest
  obtain ⟨s₂, hsteps, hfree⟩ := frees_of_pop honward.point
    (by rw [honward.pending]; exact hfull) (by rw [honward.pending]; exact hempty)
    (by rw [honward.pending]; exact hmin le_top)
  exact ⟨s₂, honward.steps.trans hsteps, hfree⟩

/-- From a full ring whose oldest block all CPUs have published, the CPU makes
room by steps of its own, even if it has to scan once more. -/
theorem Waiting.frees (h : Waiting s c)
    (hquiet : ∀ o, ((s.cpu c).pending.front.stamp : WithTop ℕ) ≤ s.quiet o) :
    ∃ s', Relation.ReflTransGen (Step c) s s' ∧ (s'.cpu c).pending.isFull = false := by
  have hpopping : ∀ {s₁ : State n} {min : WithTop ℕ} {block : Block} {pass : Pass},
      Onward s s₁ c (.pop min (.wait block pass)) →
      ∃ s', Relation.ReflTransGen (Step c) s s' ∧ (s'.cpu c).pending.isFull = false := by
    intro s₁ min block pass h₁
    have hfull₁ : (s₁.cpu c).pending.isFull = true := by
      rw [h₁.pending]
      exact h.full
    have hempty₁ : (s₁.cpu c).pending.isEmpty = false := by
      rw [h₁.pending]
      exact h.isEmpty
    by_cases hstamp : ((s₁.cpu c).pending.front.stamp : WithTop ℕ) ≤ min
    · obtain ⟨s', hsteps, hfree⟩ := frees_of_pop h₁.point hfull₁ hempty₁ hstamp
      exact ⟨s', h₁.steps.trans hsteps, hfree⟩
    · have h₂ : Onward s₁ _ c (.wait block pass) :=
        Onward.move (h₁.point ▸ Move.popped (Or.inr hstamp))
      have h₃ := h₁.trans h₂
      obtain ⟨s', hsteps, hfree⟩ := frees_of_wait h₃.point
        (by rw [h₃.pending]; exact h.full) (by rw [h₃.pending]; exact h.isEmpty)
        (by rw [h₃.pending, h₃.quiet]; exact hquiet)
      exact ⟨s', h₃.steps.trans hsteps, hfree⟩
  obtain ⟨block, pass, hpoint | ⟨next, min, hpoint⟩ | ⟨min, hpoint⟩⟩ := h.point
  · exact frees_of_wait hpoint h.full h.isEmpty hquiet
  · obtain ⟨s₁, min', h₁, -⟩ := onward_scan _ hpoint hquiet
    exact hpopping h₁
  · exact hpopping ⟨.refl, hpoint, rfl, rfl⟩

end Full

/-- If all CPUs inside `jit_run` wait with full rings, one of them has an oldest
block with a stamp not above the minimum of `quiet`, and makes room by steps of
its own. -/
theorem exists_frees_of_waiting {s : State n} (hs : Reachable s)
    (hinside : ∃ c, (s.cpu c).point ≠ .outside)
    (hwaiting : ∀ c, (s.cpu c).point ≠ .outside → Waiting s c) :
    ∃ c, Waiting s c ∧
      (∀ o, ((s.cpu c).pending.front.stamp : WithTop ℕ) ≤ s.quiet o) ∧
      ∃ s', Relation.ReflTransGen (Step c) s s' ∧
        (s'.cpu c).pending.isFull = false := by
  classical
  obtain ⟨c₀, hc₀⟩ := hinside
  -- the CPU inside with the least publication
  obtain ⟨c, hc, hleast⟩ := Finset.exists_min_image
    (Finset.univ.filter fun c => (s.cpu c).point ≠ .outside) s.quiet ⟨c₀, by simpa using hc₀⟩
  have hwait := hwaiting c (by simpa using hc)
  have hquiet : ∀ o, ((s.cpu c).pending.front.stamp : WithTop ℕ) ≤ s.quiet o := by
    intro o
    by_cases ho : (s.cpu o).point = .outside
    · rw [(hs.inv.local_ok o).outside ho]
      exact le_top
    · exact (hwait.front_le hs.inv).trans (hleast o (by simpa using ho))
  exact ⟨c, hwait, hquiet, hwait.frees hquiet⟩

section Fill

variable {c o : Fin 2} {e k : ℕ} {other : Cpu} {point : Point} {s : State 2}

/-- The CPU has `k` blocks on its ring, all from after the epoch which the other
one, which does not move, has published. -/
structure Filled (c o : Fin 2) (e : ℕ) (other : Cpu) (point : Point) (k : ℕ)
    (s : State 2) : Prop where
  ne : o ≠ c
  point : (s.cpu c).point = point
  length : (s.cpu c).pending.toList.length = k
  stamps : ∀ entry ∈ (s.cpu c).pending.toList, e < entry.stamp
  epoch : e ≤ s.epoch
  quiet : s.quiet o = (e : ℕ)
  other : s.cpu o = other

theorem Filled.isEmpty (h : Filled c o e other point k s) :
    (s.cpu c).pending.isEmpty = decide (k = 0) := by
  rw [Bool.eq_iff_iff, decide_eq_true_iff, Ring.isEmpty_iff, ← List.length_eq_zero_iff,
    h.length]

theorem Filled.isFull (h : Filled c o e other point k s) :
    (s.cpu c).pending.isFull = decide (k = 4095) := by
  have hlen : pendingLen = 4096 := rfl
  rw [Bool.eq_iff_iff, decide_eq_true_iff, Ring.isFull_iff, h.length]
  omega

theorem Filled.put (h : Filled c o e other point k s) (point' : Point)
    (checks : List (Check × ℕ)) :
    Filled c o e other point' k (s.put c ⟨point', (s.cpu c).pending, checks⟩) := by
  have hself : ∀ cpu, (s.put c cpu).cpu c = cpu := fun _ => Function.update_self ..
  have hother : ∀ cpu, (s.put c cpu).cpu o = s.cpu o :=
    fun _ => Function.update_of_ne h.ne ..
  refine ⟨h.ne, ?_, ?_, ?_, h.epoch, h.quiet, (hother _).trans h.other⟩
  · rw [hself]
  · rw [hself]
    exact h.length
  · rw [hself]
    exact h.stamps

theorem Filled.move (h : Filled c o e other point k s) {point' : Point}
    (hmove : Move s (s.cpu c) point point') :
    Next s (s.goTo c point') ∧ Filled c o e other point' k (s.goTo c point') :=
  ⟨⟨c, .move (h.point.symm ▸ hmove)⟩, h.put _ _⟩

theorem Filled.publish {q : ℕ} (h : Filled c o e other (.loaded q) k s) :
    ∃ s', Next s s' ∧ Filled c o e other .drain k s' := by
  refine ⟨_, ⟨c, .publish h.point⟩, ?_⟩
  have hput : Filled c o e other .drain k (s.goTo c .drain) := h.put _ _
  exact ⟨hput.ne, hput.point, hput.length, hput.stamps, hput.epoch,
    (Function.update_of_ne h.ne ..).trans hput.quiet, hput.other⟩

theorem Filled.drain (h : Filled c o e other .drain k s) :
    ∃ s', Next s s' ∧
      Filled c o e other (if k = 0 then .dispatch else .scan 0 ⊤ .dispatch) k s' := by
  refine ⟨_, ⟨c, .drain h.point false⟩, ?_⟩
  have hpoint : revalidate (s.cpu c).pending .dispatch =
      if k = 0 then .dispatch else .scan 0 ⊤ .dispatch := by
    simp only [revalidate, h.isEmpty, decide_eq_true_eq]
    rfl
  rw [← hpoint]
  exact h.put _ _

/-- A scan takes nothing off the ring: the other CPU has not moved. -/
theorem Filled.scan (h : Filled c o e other (.scan 0 ⊤ .dispatch) k s) (hk : k ≠ 0) :
    ∃ s', Relation.ReflTransGen Next s s' ∧ Filled c o e other .dispatch k s' := by
  obtain ⟨hnext₁, h₁⟩ := h.move (.scan (k := 0))
  obtain ⟨hnext₂, h₂⟩ := h₁.move (.scan (k := 1))
  obtain ⟨hnext₃, h₃⟩ := h₂.move (.scanned le_rfl)
  set s₁ := s.goTo c _
  set s₂ := s₁.goTo c _
  set s₃ := s₂.goTo c _
  have hmin : ⊤ ⊓ s.quiet 0 ⊓ s₁.quiet 1 ≤ (e : ℕ) := by
    have hquiet := h.quiet
    have hquiet₁ := h₁.quiet
    clear_value s₁
    fin_cases o
    · exact inf_le_left.trans (inf_le_right.trans hquiet.le)
    · exact inf_le_right.trans hquiet₁.le
  have hempty : (s₃.cpu c).pending.isEmpty = false := by
    rw [h₃.isEmpty]
    exact decide_eq_false hk
  have hstamp : e < (s₃.cpu c).pending.front.stamp := by
    refine h₃.stamps _ ?_
    rw [Ring.toList_eq_front_cons _ hempty]
    exact List.mem_cons_self
  obtain ⟨hnext₄, h₄⟩ := h₃.move (.popped (Or.inr fun hle => by
    have : (s₃.cpu c).pending.front.stamp ≤ e := by exact_mod_cast hle.trans hmin
    omega))
  exact ⟨_, .head hnext₁ (.head hnext₂ (.head hnext₃ (.single hnext₄))), h₄⟩

theorem Filled.dispatch (h : Filled c o e other .enter k s) :
    ∃ s', Relation.ReflTransGen Next s s' ∧ Filled c o e other .dispatch k s' := by
  obtain ⟨hnext₁, h₁⟩ := h.move .load
  obtain ⟨s₂, hnext₂, h₂⟩ := h₁.publish
  obtain ⟨s₃, hnext₃, h₃⟩ := h₂.drain
  have hrun : Relation.ReflTransGen Next s s₃ :=
    .head hnext₁ (.head hnext₂ (.single hnext₃))
  by_cases hk : k = 0
  · rw [if_pos hk] at h₃
    exact ⟨s₃, hrun, h₃⟩
  · rw [if_neg hk] at h₃
    obtain ⟨s₄, hrun₄, h₄⟩ := h₃.scan hk
    exact ⟨s₄, hrun.trans hrun₄, h₄⟩

/-- The CPU translates an empty block. -/
theorem Filled.wait (h : Filled c o e other .enter k s) :
    ∃ s', Relation.ReflTransGen Next s s' ∧
      Filled c o e other (.wait ⟨[]⟩ .top) k s' := by
  obtain ⟨s₁, hrun₁, h₁⟩ := h.dispatch
  have htop : Translates (s₁.cpu c).point .top := h₁.point ▸ .top
  have h₂ : Filled c o e other (.translate .start .top) k
      (s₁.put c { s₁.cpu c with point := .translate .start .top }) := h₁.put _ _
  obtain ⟨hnext₃, h₃⟩ := h₂.move (.translated rfl)
  exact ⟨_, hrun₁.trans (.head ⟨c, .translate htop false⟩ (.single hnext₃)), h₃⟩

theorem Filled.stamp (h : Filled c o e other (.wait ⟨[]⟩ .top) k s) (hk : k < 4095) :
    ∃ s', Next s s' ∧ Filled c o e other .dispatched (k + 1) s' := by
  have hfull : (s.cpu c).pending.isFull = false := by
    rw [h.isFull]
    exact decide_eq_false (by omega)
  have hlist := Ring.toList_push (s.cpu c).pending ⟨⟨[]⟩, s.epoch + 1⟩ hfull
  refine ⟨_, ⟨c, .stamp h.point hfull⟩, ?_⟩
  have hself : ∀ cpu, (s.put c cpu).cpu c = cpu := fun _ => Function.update_self ..
  have hother : ∀ cpu, (s.put c cpu).cpu o = s.cpu o :=
    fun _ => Function.update_of_ne h.ne ..
  refine ⟨h.ne, ?_, ?_, ?_, h.epoch.trans (Nat.le_add_right _ 1), h.quiet,
    (hother _).trans h.other⟩
  · simp only [hself]
    rfl
  · simp only [hself, hlist, List.length_append, h.length, List.length_singleton]
  · intro entry hentry
    simp only [hself, hlist, List.mem_append, List.mem_singleton] at hentry
    rcases hentry with hold | rfl
    · exact h.stamps entry hold
    · exact Nat.lt_succ_of_le h.epoch

theorem Filled.next (h : Filled c o e other .enter k s) (hk : k < 4095) :
    ∃ s', Relation.ReflTransGen Next s s' ∧ Filled c o e other .enter (k + 1) s' := by
  obtain ⟨s₁, hrun₁, h₁⟩ := h.wait
  obtain ⟨s₂, hnext₂, h₂⟩ := h₁.stamp hk
  obtain ⟨hnext₃, h₃⟩ := h₂.move .runTranslated
  have hnext₄ := Step.passEnd h₃.point (Or.inl rfl)
  exact ⟨_, hrun₁.trans (.head hnext₂ (.head hnext₃ (.single ⟨c, hnext₄⟩))), h₃.put _ _⟩

theorem exists_filled (h : Filled c o e other .enter 0 s) (hk : k ≤ 4095) :
    ∃ s', Relation.ReflTransGen Next s s' ∧ Filled c o e other .enter k s' := by
  induction k with
  | zero => exact ⟨s, .refl, h⟩
  | succ k ih =>
      obtain ⟨s₁, hrun₁, h₁⟩ := ih (by omega)
      obtain ⟨s₂, hrun₂, h₂⟩ := h₁.next (by omega)
      exact ⟨s₂, hrun₁.trans hrun₂, h₂⟩

theorem Filled.full (h : Filled c o e other .enter 0 s) :
    ∃ s', Relation.ReflTransGen Next s s' ∧ Waiting s' c ∧ s'.cpu o = other := by
  obtain ⟨s₁, hrun₁, h₁⟩ := exists_filled h (le_refl 4095)
  obtain ⟨s₂, hrun₂, h₂⟩ := h₁.wait
  exact ⟨s₂, hrun₁.trans hrun₂, ⟨⟨_, _, Or.inl h₂.point⟩, h₂.isFull⟩, h₂.other⟩

end Fill

/-- The first CPU fills its ring while the second is in a long block, then the
second while the first waits. -/
theorem exists_waiting :
    ∃ s : State 2, Reachable s ∧ ∀ c, Waiting s c := by
  have hstart : ∃ s : State 2, Relation.ReflTransGen Next (idleState 2) s ∧
      Filled 0 1 1 (s.cpu 1) .enter 0 s ∧ (s.cpu 1).point = .running ∧
        (s.cpu 1).pending.toList = [] := by
    have hnil := (initial_idleState 2).pending
    refine exists_run_of_step 1 (.move .enter) ?_
    refine exists_run_of_step 1 (.move .load) ?_
    refine exists_run_of_step 1 (.publish rfl) ?_
    refine exists_run_of_step 1 (.drain rfl false) ?_
    refine exists_run_of_step 1 (.move .run) ?_
    refine exists_run_of_step 0 (.move .enter) ?_
    refine ⟨_, .refl, ⟨by decide, rfl, rfl, ?_, le_rfl, rfl, rfl⟩, rfl, hnil 1⟩
    intro entry hentry
    have hmem : entry ∈ ((idleState 2).cpu 0).pending.toList := hentry
    rw [hnil 0] at hmem
    contradiction
  obtain ⟨s, hrun, hs, hpoint, hnil⟩ := hstart
  obtain ⟨s₁, hrun₁, hwait, hother⟩ := hs.full
  have hs₁ : Reachable s₁ := ⟨_, initial_idleState 2, hrun.trans hrun₁⟩
  -- what the first CPU published last is not above the epoch
  have hlocal := hs₁.inv.local_ok 0
  have hpublished := hlocal.published hwait.published
  obtain ⟨e, he⟩ := WithTop.ne_top_iff_exists.mp hpublished
  have hle : e ≤ s₁.epoch := by
    have hquiet := hlocal.quiet_le hpublished
    rw [← he] at hquiet
    exact WithTop.coe_le_coe.mp hquiet
  have hnext₂ := Step.passEnd (s := s₁) (c := 1) (by rw [hother, hpoint]) (Or.inl rfl)
  have hs₂ : Filled 1 0 e (s₁.cpu 0) .enter 0
      (s₁.put 1 { s₁.cpu 1 with point := .enter, checks := [] }) := by
    have hpending : (s₁.cpu 1).pending.toList = [] := by rw [hother, hnil]
    refine ⟨by decide, rfl, congrArg List.length hpending, ?_, hle, he.symm, rfl⟩
    intro entry hentry
    have hmem : entry ∈ (s₁.cpu 1).pending.toList := hentry
    rw [hpending] at hmem
    contradiction
  obtain ⟨s₃, hrun₃, hwait₃, hother₃⟩ := hs₂.full
  refine ⟨s₃, ⟨_, initial_idleState 2, hrun.trans (hrun₁.trans (.head ⟨1, hnext₂⟩ hrun₃))⟩, ?_⟩
  intro c
  fin_cases c
  · exact ⟨hother₃ ▸ hwait.point, hother₃ ▸ hwait.full⟩
  · exact hwait₃

/-- Both CPUs wait with full rings, and one of them makes room. -/
theorem exists_frees_of_waiting_fullRing :
    ∃ s : State 2, (∀ c, Waiting s c) ∧
      ∃ c, Waiting s c ∧
        (∀ o, ((s.cpu c).pending.front.stamp : WithTop ℕ) ≤ s.quiet o) ∧
        ∃ s', Relation.ReflTransGen (Step c) s s' ∧
          (s'.cpu c).pending.isFull = false := by
  obtain ⟨s, hs, hwaiting⟩ := exists_waiting
  refine ⟨s, hwaiting, exists_frees_of_waiting hs ⟨0, ?_⟩ fun c _ => hwaiting c⟩
  intro houtside
  have hpublished := (hwaiting 0).published
  rw [houtside] at hpublished
  contradiction

end GracePeriod
end SubleqEmu
