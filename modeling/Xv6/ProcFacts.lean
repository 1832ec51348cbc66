import Xv6.ProcFamily

/- What is known of an entry, and by whom.

   A process has a pid and owns the page table that `pgdir` points to. Both come
   and go while the slot is no process of its own: `fork` fills the slot in under
   no lock, and `wait` takes it apart under the lock while it is a ZOMBIE still.
   What holds of the entry at each place in `fork` and in `wait` is what the code
   there knows of the slot it has for itself (`Main.Knows`, `Crit.Knows`), and
   everyone else can rely on `Entry.Whole`.

   Pids are 32 bits wide: `b` is the assumption that they have not run out. -/
namespace Xv6.Ptable
open Function Bits Table Family

variable {κ : Type} {b : Prop}

def Entry.Whole (b : Prop) (e : Entry) : Prop := (b → e.pid ≠ 0) ∧ e.dir = e.pgdir

/-- What `fork` knows of the slot it fills. -/
def Main.Knows (b : Prop) (e : Entry) : Main → Prop
  | .pidStore _ pid => b → pid ≠ 0
  | .kalloc _ | .copyuvm _ | .freeStack _ | .giveUp _ => b → e.pid ≠ 0
  | .setParent _ | .readPid _ | .publish _ _ => e.Whole b
  | _ => True

/-- The slot that `wait` takes apart. -/
def Crit.reaps : Crit → Option SlotId
  | .waitPid j | .waitStack j _ | .waitDir j _ | .waitClear j _ | .waitOrphan j _
  | .waitUnused j _ => some j
  | _ => none

/-- What it knows of it. -/
def Crit.Knows (b : Prop) (e : Entry) : Crit → Prop
  | .waitPid _ => e.Whole b
  | .waitStack _ r | .waitDir _ r => r.pid = e.pid ∧ e.Whole b
  | .waitClear _ r => r.pid = e.pid ∧ (b → e.pid ≠ 0)
  | _ => True

def Thread.Reaps (th : Thread) (j : SlotId) : Prop := ∃ k, th.crit = some k ∧ k.reaps = some j

structure Facts (b : Prop) (t : Table κ) : Prop where
  next : b → t.nextpid.toNat = t.allocs + 1
  live : ∀ {j}, t.kinds j = .live → (t.proc j).Whole b
  dead : ∀ {j}, t.kinds j = .dead → (∀ i, ¬(t.thread i).Reaps j) → (t.proc j).Whole b
  held : ∀ {i j}, (t.thread i).main.claim = some j → (t.thread i).main.Knows b (t.proc j)
  taken : ∀ {i k j}, (t.thread i).crit = some k → k.reaps = some j → k.Knows b (t.proc j)

/-! ## Only its owner changes an entry -/

def Entry.own (e : Entry) : Word × Option Page × Option Page := (e.pid, e.pgdir, e.dir)

section Frame

variable {t t' : Table κ} {i p j : SlotId} {e e' : Entry}

theorem Entry.own_eq (h : e'.own = e.own) :
    e'.pid = e.pid ∧ e'.pgdir = e.pgdir ∧ e'.dir = e.dir := by
  obtain ⟨hpid, hrest⟩ := Prod.mk.inj h
  exact ⟨hpid, Prod.mk.inj hrest⟩

theorem Entry.Whole.congr (h : e'.own = e.own) (hw : e.Whole b) : e'.Whole b := by
  obtain ⟨hpid, hpgdir, hdir⟩ := Entry.own_eq h
  rw [Entry.Whole, hpid, hpgdir, hdir]
  exact hw

theorem Main.Knows.congr {m : Main} (h : e'.own = e.own) (hm : m.Knows b e) : m.Knows b e' := by
  obtain ⟨hpid, -⟩ := Entry.own_eq h
  cases m with
  | setParent | readPid | publish => exact Entry.Whole.congr h hm
  | kalloc | copyuvm | freeStack | giveUp => rw [Main.Knows, hpid]; exact hm
  | _ => exact hm

theorem Crit.Knows.congr {k : Crit} (h : e'.own = e.own) (hk : k.Knows b e) : k.Knows b e' := by
  obtain ⟨hpid, -⟩ := Entry.own_eq h
  cases k with
  | waitPid => exact Entry.Whole.congr h hk
  | waitStack | waitDir => exact ⟨hk.1.trans hpid.symm, Entry.Whole.congr h hk.2⟩
  | waitClear => rw [Crit.Knows, hpid]; exact hk
  | _ => trivial

theorem role_reaps {k : Crit} (h : k.reaps = some j) :
    k.alone = true ∧ ∃ p, k.role = .reaps j p := by
  cases k <;> cases h <;> exact ⟨rfl, _, rfl⟩

theorem FamilyOk.reaps_role (hf : FamilyOk t) (h : (t.thread i).Reaps j) :
    ∃ p, t.roles i = .reaps j p := by
  obtain ⟨k, hk, hj⟩ := h
  obtain ⟨hal, p, hp⟩ := role_reaps hj
  exact ⟨p, (hf.role_alone hk hal).trans hp⟩

theorem FamilyOk.dead_of_reaps (hf : FamilyOk t) (h : (t.thread i).Reaps j) :
    t.kinds j = .dead := by
  obtain ⟨p, hp⟩ := hf.reaps_role h
  exact (hf.family.reaps hp).1

/-- Process `i` has slot `j` for itself. -/
def Thread.Has (th : Thread) (j : SlotId) : Prop := th.main.claim = some j ∨ th.Reaps j

theorem FamilyOk.has_inj (hf : FamilyOk t) (hi : (t.thread i).Has j) (hp : (t.thread p).Has j) :
    i = p := by
  rcases hi with hi | hi <;> rcases hp with hp | hp
  · exact hf.claim_inj hi hp
  · cases (hf.embryo_of_claim hi).symm.trans (hf.dead_of_reaps hp)
  · cases (hf.embryo_of_claim hp).symm.trans (hf.dead_of_reaps hi)
  · obtain ⟨x, hx⟩ := hf.reaps_role hi
    obtain ⟨y, hy⟩ := hf.reaps_role hp
    exact hf.family.reapInj hx hy

theorem FamilyOk.not_live_of_has (hf : FamilyOk t) (h : (t.thread i).Has j) :
    t.kinds j ≠ .live := by
  rcases h with h | h
  · rw [hf.embryo_of_claim h]
    nofun
  · rw [hf.dead_of_reaps h]
    nofun

theorem FamilyOk.not_reaps_of_not_live (hf : FamilyOk t) (hi : t.kinds i ≠ .live) :
    ¬(t.thread i).Reaps j := by
  intro h
  obtain ⟨p, hp⟩ := hf.reaps_role h
  cases (hf.family.idle hi).symm.trans hp

/-- Whoever is new among the processes has all its fields set. -/
def WholeKinds (b : Prop) (t t' : Table κ) : Prop :=
  ∀ j, t'.kinds j = .live ∨ t'.kinds j = .dead → t.kinds j = .live ∨ t.kinds j = t'.kinds j ∨ (t'.proc j).Whole b

/-- A step of process `i`: it changes its own slot or one that it has for itself, and
nobody else loses or learns anything. -/
theorem Facts.move (h : Facts b t) (hf : FamilyOk t) (hnext : b → t'.nextpid.toNat = t'.allocs + 1)
    (hothers : ∀ p, p ≠ i → t'.thread p = t.thread p ∨
      t.kinds p ≠ .live ∧ t'.thread p = newborn)
    (hkind : WholeKinds b t t')
    (hown : ∀ j, (t'.proc j).own = (t.proc j).own ∨ (t.thread i).Has j ∨
      t.kinds j = .live ∧ (t'.proc j).Whole b)
    (hstay : ∀ j, (t.thread i).Reaps j → (t'.thread i).Reaps j ∨ t'.kinds j ≠ .dead)
    (hmain : ∀ j, (t'.thread i).main.claim = some j → (t'.thread i).main.Knows b (t'.proc j))
    (hcrit : ∀ k j, (t'.thread i).crit = some k → k.reaps = some j → k.Knows b (t'.proc j)) :
    Facts b t' := by
  have hkeep : ∀ {j}, t.kinds j = .live ∨ t.kinds j = .dead ∧ (∀ p, ¬(t.thread p).Reaps j) →
      (t'.proc j).Whole b := by
    intro j hj
    rcases hown j with heq | (hclaim | hreaps) | ⟨_, hw⟩
    · exact Entry.Whole.congr heq (hj.elim h.live fun hd => h.dead hd.1 hd.2)
    · rw [hf.embryo_of_claim hclaim] at hj
      rcases hj with hj | hj
      · cases hj
      · cases hj.1
    · rcases hj with hj | hj
      · cases hj.symm.trans (hf.dead_of_reaps hreaps)
      · exact absurd hreaps (hj.2 i)
    · exact hw
  -- what another process has for itself is left alone
  have hother : ∀ {p j}, p ≠ i → (t.thread p).Has j → (t'.proc j).own = (t.proc j).own := by
    intro p j hp hj
    rcases hown j with heq | hi | ⟨hlive, _⟩
    · exact heq
    · exact absurd (hf.has_inj hj hi) hp
    · exact absurd hlive (hf.not_live_of_has hj)
  refine ⟨hnext, ?_, ?_, ?_, ?_⟩
  · intro j hj
    rcases hkind j (.inl hj) with hold | hold | hw
    · exact hkeep (.inl hold)
    · exact hkeep (.inl (hold.trans hj))
    · exact hw
  · intro j hj hno
    rcases hkind j (.inr hj) with hold | hold | hw
    · exact hkeep (.inl hold)
    · -- nobody was taking it apart before either
      refine hkeep (.inr ⟨hold.trans hj, fun p hp => ?_⟩)
      by_cases hpi : p = i
      · subst hpi
        exact (hstay j hp).elim (hno p) fun hne => hne hj
      · rcases hothers p hpi with heq | ⟨hlive, _⟩
        · exact hno p (heq ▸ hp)
        · exact hf.not_reaps_of_not_live hlive hp
    · exact hw
  · intro p j hj
    by_cases hpi : p = i
    · subst hpi
      exact hmain j hj
    · rcases hothers p hpi with heq | ⟨_, heq⟩ <;> rw [heq] at hj ⊢
      · exact Main.Knows.congr (hother hpi (.inl hj)) (h.held hj)
      · cases hj
  · intro p k j hk hj
    by_cases hpi : p = i
    · subst hpi
      exact hcrit k j hk hj
    · rcases hothers p hpi with heq | ⟨_, heq⟩ <;> rw [heq] at hk
      · exact Crit.Knows.congr (hother hpi (.inr ⟨k, hk, hj⟩)) (h.taken hk hj)
      · cases hk
        cases hj

end Frame

/-! ## The kinds of steps -/

section Kinds

variable {t t' : Table κ} {i j : SlotId} {e : Entry}

theorem Facts.same (h : Facts b t) (hthread : t'.thread = t.thread) (hkinds : t'.kinds = t.kinds)
    (hown : ∀ j, (t'.proc j).own = (t.proc j).own)
    (hpid : t'.nextpid = t.nextpid ∧ t'.allocs = t.allocs) : Facts b t' where
  next := by
    rw [hpid.1, hpid.2]
    exact h.next
  live := fun hj => Entry.Whole.congr (hown _) (h.live (hkinds ▸ hj))
  dead := fun hj hno => Entry.Whole.congr (hown _) (h.dead (hkinds ▸ hj) (hthread ▸ hno))
  held := by
    rw [hthread]
    exact fun hj => Main.Knows.congr (hown _) (h.held hj)
  taken := by
    rw [hthread]
    exact fun hk hj => Crit.Knows.congr (hown _) (h.taken hk hj)

theorem kinds_kept (hkinds : t'.kinds = t.kinds) : WholeKinds b t t' :=
  fun j _ => .inr (.inl (congrFun hkinds j).symm)

theorem kinds_out (hkinds : t'.kinds = update t.kinds j (kind e.state))
    (he : kind e.state ≠ .live ∧ kind e.state ≠ .dead) : WholeKinds b t t' := by
  intro p hp
  rw [hkinds] at hp ⊢
  by_cases hpj : p = j
  · subst hpj
    rw [update_self] at hp
    exact absurd hp (not_or.mpr he)
  · rw [update_of_ne hpj]
    exact .inr (.inl rfl)

theorem own_kept (hproc : t'.proc = update t.proc j e) (he : e.own = (t.proc j).own)
    (p : SlotId) : (t'.proc p).own = (t.proc p).own := by
  rw [hproc]
  exact update_field Entry.own he p

theorem own_changed {P : SlotId → Prop} (hproc : t'.proc = update t.proc j e) (hj : P j)
    (p : SlotId) : (t'.proc p).own = (t.proc p).own ∨ P p := by
  rw [hproc]
  by_cases hp : p = j
  · rw [hp]
    exact .inr hj
  · rw [update_of_ne hp]
    exact .inl rfl

/-- Process `i` enters a critical section, goes on in it or leaves it. -/
theorem Facts.recrit {ko : Option Crit} (h : Facts b t) (hf : FamilyOk t)
    (hthread : t'.thread = update t.thread i ⟨(t.thread i).main, ko⟩)
    (hpid : t'.nextpid = t.nextpid ∧ t'.allocs = t.allocs)
    (hkind : WholeKinds b t t')
    (hown : ∀ j, (t'.proc j).own = (t.proc j).own ∨ (t.thread i).Reaps j)
    (hstay : ∀ j, (t.thread i).Reaps j →
      (∃ k, ko = some k ∧ k.reaps = some j) ∨ t'.kinds j ≠ .dead)
    (hcrit : ∀ k j, ko = some k → k.reaps = some j → k.Knows b (t'.proc j)) : Facts b t' := by
  have hi : t'.thread i = ⟨(t.thread i).main, ko⟩ := by rw [hthread, update_self]
  refine h.move (i := i) hf ?_ ?_ hkind ?_ ?_ ?_ ?_
  · rw [hpid.1, hpid.2]
    exact h.next
  · intro p hp
    rw [hthread, update_of_ne hp]
    exact .inl rfl
  · exact fun j => (hown j).imp_right fun hj => .inl (.inr hj)
  · rw [hi]
    exact hstay
  · rw [hi]
    intro j hj
    rcases hown j with heq | hreaps
    · exact Main.Knows.congr heq (h.held hj)
    · cases (hf.embryo_of_claim hj).symm.trans (hf.dead_of_reaps hreaps)
  · rw [hi]
    exact hcrit

/-- The same, with no slot for itself before and after. -/
theorem Facts.quiet {ko : Option Crit} (h : Facts b t) (hf : FamilyOk t)
    (hold : ∀ j, ¬(t.thread i).Reaps j)
    (hthread : t'.thread = update t.thread i ⟨(t.thread i).main, ko⟩)
    (hnew : ∀ k, ko = some k → k.reaps = none)
    (hpid : t'.nextpid = t.nextpid ∧ t'.allocs = t.allocs)
    (hkind : WholeKinds b t t')
    (hown : ∀ j, (t'.proc j).own = (t.proc j).own) : Facts b t' :=
  h.recrit hf hthread hpid hkind (fun j => .inl (hown j)) (fun j hj => absurd hj (hold j))
    fun k _ hk hj => nomatch (hnew k hk).symm.trans hj

theorem not_reaps {k : Crit} (hk : (t.thread i).crit = some k) (hno : k.reaps = none) (j : SlotId) :
    ¬(t.thread i).Reaps j := by
  intro ⟨l, hl, hj⟩
  cases hk.symm.trans hl
  cases hno.symm.trans hj

/-- A step of process `i` in `fork`. -/
theorem Facts.goto {m : Main} (h : Facts b t) (hf : FamilyOk t) (hk : (t.thread i).crit = none)
    (hthread : t'.thread = (t.goto i m).thread)
    (hnext : b → t'.nextpid.toNat = t'.allocs + 1)
    (hkind : WholeKinds b t t')
    (hown : ∀ j, (t'.proc j).own = (t.proc j).own ∨ (t.thread i).main.claim = some j)
    (hmain : ∀ j, m.claim = some j → m.Knows b (t'.proc j)) : Facts b t' := by
  have hi : t'.thread i = ⟨m, none⟩ := by simp [hthread, hk]
  refine h.move (i := i) hf hnext ?_ hkind ?_ ?_ ?_ ?_
  · intro p hp
    rw [hthread]
    exact .inl (update_of_ne hp ..)
  · exact fun j => (hown j).imp_right fun hj => .inl (.inl hj)
  · intro j ⟨l, hl, _⟩
    cases hk.symm.trans hl
  · rw [hi]
    exact hmain
  · rw [hi]
    exact fun _ _ hl => nomatch hl

theorem Facts.newborn (h : Facts b t) (hf : FamilyOk t) (hj : t.kinds j ≠ .live) :
    Facts b { t with thread := update t.thread j Ptable.newborn } := by
  refine h.move (i := j) hf h.next ?_ (kinds_kept rfl) (fun _ => .inl rfl) ?_ ?_ ?_
  · intro p hp
    exact .inl (update_of_ne hp ..)
  · exact fun p hp => absurd hp (hf.not_reaps_of_not_live hj)
  · simp [Ptable.newborn, Main.claim]
  · intro k p hk hp
    cases (congrArg Thread.crit (update_self j _ t.thread)).symm.trans hk
    cases hp

end Kinds

/-! ## Every step keeps them -/

section Steps

variable {t t' : Table κ} {c : κ} {i : SlotId} {rest : List SlotId}

theorem cont_reaps (k : Cont) : k.crit.reaps = none := by
  cases k <;> rfl

theorem enters_reaps {m : Main} {k : Crit} (h : Enters i m k) : k.reaps = none := by
  cases h <;> rfl

theorem Facts.pid_ne_zero (h : Facts b t) (hb : b → t.allocs + 2 < 2 ^ 32) (hyp : b) :
    (t.nextpid + 1).toNat = t.allocs + 2 ∧ t.nextpid + 1 ≠ 0 := by
  have hnext := h.next hyp
  have hlt := hb hyp
  have hsucc : (t.nextpid + 1).toNat = t.allocs + 2 := by
    rw [BitVec.toNat_add, hnext]
    exact Nat.mod_eq_of_lt hlt
  refine ⟨hsucc, fun heq => ?_⟩
  rw [heq] at hsucc
  cases hsucc

theorem facts_goes {m m' : Main} (h : Facts b t) (hf : FamilyOk t) (hk : (t.thread i).crit = none)
    (hm : (t.thread i).main = m) (hg : Goes t m m') : Facts b (t.goto i m') := by
  refine h.goto hf hk rfl h.next (kinds_kept rfl) (fun _ => .inl rfl) ?_
  intro j hj
  have hheld := h.held (i := i) (j := j)
  rw [hm] at hheld
  cases hg with
  | readPid _ => exact hheld hj
  | fork | full | used _ _ => cases hj
  | read _ | retry _ _ => trivial

theorem facts_runs (h : Facts b t) (hf : FamilyOk t) (hsched : Sched t)
    (hpc : (t.cpu c).pc = .away i rest) (hk : (t.thread i).crit = none)
    (hb : b → t'.allocs + 1 < 2 ^ 32) (hr : Runs t c i (t.thread i).main t') : Facts b t' := by
  have hrun := hsched.running_of_away hpc (by rw [hk]; rfl)
  have hlive : t.kinds i = .live := kinds_of_state hrun
  generalize hm : (t.thread i).main = m at hr
  have hheld : ∀ {j}, m.claim = some j → m.Knows b (t.proc j) := by
    intro j hj
    rw [← hm] at hj ⊢
    exact h.held hj
  cases hr with
  | enter _ k he hl =>
    refine h.quiet hf ?_ rfl ?_ ⟨rfl, rfl⟩ (kinds_kept rfl) (fun _ => rfl)
    · exact fun j ⟨l, hl, _⟩ => nomatch hk.symm.trans hl
    · intro l hl
      cases hl
      exact enters_reaps he
  | goes _ m' hg => exact facts_goes h hf hk hm hg
  | stay => exact h
  | sigkill _ hs =>
    rw [hrun] at hs
    cases hs
  | claim j rest hj =>
    exact h.goto hf hk rfl h.next (kinds_out (kinds_update rfl) ⟨nofun, nofun⟩)
      (fun p => .inl (own_kept rfl (by rfl) p)) (fun _ _ => trivial)
  | cas j localPid hn =>
    -- the one step that counts a pid
    subst hn
    refine h.goto hf hk rfl (fun hyp => (h.pid_ne_zero hb hyp).1) (kinds_kept rfl)
      (fun _ => .inl rfl) ?_
    exact fun _ _ hyp => (h.pid_ne_zero hb hyp).2
  | pidStore j pid =>
    refine h.goto hf hk rfl h.next (kinds_kept (kinds_same rfl rfl))
      (own_changed rfl (by rw [hm]; rfl)) ?_
    intro p hp
    cases hp
    simpa [Main.Knows] using hheld rfl
  | kalloc j =>
    have hj : t.kinds j ≠ .live := hf.not_live_of_has (i := i) (.inl (by rw [hm]; rfl))
    have hij : i ≠ j := fun heq => hj (heq ▸ hlive)
    refine (h.newborn hf hj).goto (hf.newborn hj) (by simpa [hij] using hk) rfl h.next
      (kinds_kept (kinds_same rfl rfl)) (fun p => .inl (own_kept rfl (by rfl) p)) ?_
    intro p hp
    cases hp
    simpa [Main.Knows] using hheld rfl
  | copyuvm j =>
    refine h.goto hf hk rfl h.next (kinds_kept (kinds_same rfl rfl))
      (own_changed rfl (by rw [hm]; rfl)) ?_
    intro p hp
    cases hp
    simpa [Main.Knows, Entry.Whole] using hheld rfl
  | noDir j =>
    refine h.goto hf hk rfl h.next (kinds_kept (kinds_same rfl rfl))
      (own_changed rfl (by rw [hm]; rfl)) ?_
    intro p hp
    cases hp
    simpa [Main.Knows] using hheld rfl
  | noStack j | freeStack j =>
    refine h.goto hf hk rfl h.next (kinds_kept (kinds_same rfl rfl))
      (fun p => .inl (own_kept rfl (by rfl) p)) ?_
    intro p hp
    cases hp
    simpa [Main.Knows] using hheld rfl
  | giveUp j =>
    exact h.goto hf hk rfl h.next (kinds_out (kinds_update rfl) ⟨nofun, nofun⟩)
      (fun p => .inl (own_kept rfl (by rfl) p)) (fun _ hp => nomatch hp)
  | setParent j =>
    refine h.goto hf hk rfl h.next (kinds_kept (kinds_same rfl rfl))
      (fun p => .inl (own_kept rfl (by rfl) p)) ?_
    intro p hp
    cases hp
    simpa [Main.Knows, Entry.Whole] using hheld rfl
  | exec p hp =>
    -- the one store under no lock to the slot of a process that can run: its own
    have hwhole := h.live hlive
    refine h.move (i := i) hf h.next (fun _ _ => .inl rfl) (kinds_kept (kinds_same rfl rfl)) ?_
      (fun _ => .inl) ?_ ?_
    · intro q
      by_cases hq : q = i
      · subst hq
        exact .inr (.inr ⟨hlive, by simpa [Entry.Whole] using hwhole.1⟩)
      · exact .inl (by simp [hq])
    · exact fun _ hq => nomatch (congrArg Main.claim hm).symm.trans hq
    · exact fun _ _ hl => nomatch hk.symm.trans hl

theorem facts_jumps {k k' : Crit} (h : Facts b t) (hf : FamilyOk t)
    (hk : (t.thread i).crit = some k) (hj : Jumps t i k k') : Facts b (t.next i k') := by
  have hquiet (hold : k.reaps = none) (hnew : k'.reaps = none) : Facts b (t.next i k') :=
    h.quiet hf (not_reaps hk hold) rfl (fun l hl => Option.some.inj hl ▸ hnew) ⟨rfl, rfl⟩
      (kinds_kept rfl) (fun _ => rfl)
  cases hj with
  | resumed k | woken chan k => exact hquiet rfl (cont_reaps k)
  | waitFound j js hz =>
    have hdead : t.kinds j = .dead := kinds_of_state hz
    have hwaits : t.roles i = .waits j := hf.role_alone hk rfl
    refine h.recrit hf rfl ⟨rfl, rfl⟩ (kinds_kept rfl) (fun _ => .inl rfl)
      (fun p hp => absurd hp (not_reaps hk rfl p)) ?_
    intro l p hl hp
    cases hl
    cases hp
    -- a ZOMBIE that its parent has just found is whole: only the parent takes it apart
    refine h.dead hdead fun q hq => ?_
    obtain ⟨x, hx⟩ := hf.reaps_role hq
    exact hf.family.not_reaps_of_waits hwaits hx
  | waitPid j =>
    refine h.recrit hf rfl ⟨rfl, rfl⟩ (kinds_kept rfl) (fun _ => .inl rfl) ?_ ?_
    · intro p ⟨l, hl, hp⟩
      cases hk.symm.trans hl
      exact .inl ⟨_, rfl, hp⟩
    · intro l p hl hp
      cases hl
      cases hp
      exact ⟨rfl, h.taken hk rfl⟩
  | _ => exact hquiet rfl rfl

variable [DecidableEq κ]

theorem facts_schedules (h : Facts b t) (hsched : Sched t) (hs : Schedules t c t') :
    Facts b t' := by
  cases hs with
  | start p rest hpc =>
    have hready := (hsched.cpu c).2
    rw [hpc] at hready
    have hstate : (t.proc p).state = .RUNNABLE := hready.2
    exact h.same rfl (kinds_same rfl (by rw [hstate]; rfl)) (own_kept rfl (by rfl)) ⟨rfl, rfl⟩
  | wake chan j rest hpc hsleep =>
    exact h.same rfl (kinds_same rfl (by rw [hsleep]; rfl)) (own_kept rfl (by rfl)) ⟨rfl, rfl⟩
  | _ => exact h.same rfl rfl (fun _ => rfl) ⟨rfl, rfl⟩

theorem facts_works {k : Crit} (h : Facts b t) (hf : FamilyOk t) (hsched : Sched t)
    (hpc : (t.cpu c).pc = .away i rest) (hk : (t.thread i).crit = some k)
    (hw : Works t c i rest k t') : Facts b t' := by
  have hrun : leaving (some k) = false → (t.proc i).state = .RUNNING := by
    intro hleave
    exact hsched.running_of_away hpc (by rw [hk]; exact hleave)
  have hnone : ∀ {k' : Crit}, k'.reaps = none →
      ∀ l, some k' = some l → l.reaps = none :=
    fun hk' _ hl => Option.some.inj hl ▸ hk'
  -- the slot that `wait` takes apart stays the same
  have hkeep : ∀ {k' : Crit}, k'.reaps = k.reaps → ∀ p, (t.thread i).Reaps p →
      (∃ l, some k' = some l ∧ l.reaps = some p) ∨ t'.kinds p ≠ .dead := by
    rintro k' hk' p ⟨l, hl, hp⟩
    cases hk.symm.trans hl
    exact .inl ⟨k', rfl, hk'.trans hp⟩
  cases hw with
  | jumps _ k' hj => exact facts_jumps h hf hk hj
  | release _ | waitReturn r _ =>
    exact h.quiet hf (not_reaps hk rfl) rfl (by rintro _ ⟨⟩) ⟨rfl, rfl⟩ (kinds_kept rfl) (fun _ => rfl)
  | publish j pid hm =>
    have hj : (t.proc j).Whole b := by
      have hheld := h.held (i := i) (j := j) (by rw [hm]; rfl)
      rw [hm] at hheld
      exact hheld
    refine h.move (i := i) hf h.next ?_ ?_ (fun p => .inl (own_kept rfl (by rfl) p)) ?_ ?_ ?_
    · intro p hp
      simp [hp]
    · intro p hp
      by_cases hpj : p = j
      · subst hpj
        exact .inr (.inr (by simpa [Entry.Whole] using hj))
      · exact .inr (.inl (by simp [Table.kinds, hpj]))
    · exact fun p hp => absurd hp (not_reaps hk rfl p)
    · simp [Main.claim]
    · intro l p hl hp
      simp at hl
      subst hl
      cases hp
  | yield =>
    exact h.quiet hf (not_reaps hk rfl) rfl (hnone rfl) ⟨rfl, rfl⟩
      (kinds_kept (kinds_same rfl (by rw [hrun rfl]; rfl))) (own_kept rfl (by rfl))
  | asleep k =>
    exact h.quiet hf (not_reaps hk rfl) rfl (hnone rfl) ⟨rfl, rfl⟩
      (kinds_kept (kinds_same rfl (by rw [hrun rfl]; rfl))) (own_kept rfl (by rfl))
  | sleep chan k =>
    exact h.quiet hf (not_reaps hk rfl) rfl (hnone rfl) ⟨rfl, rfl⟩ (kinds_kept (kinds_same rfl rfl))
      (own_kept rfl (by rfl))
  | tidy k =>
    exact h.quiet hf (not_reaps hk rfl) rfl (hnone (cont_reaps k)) ⟨rfl, rfl⟩
      (kinds_kept (kinds_same rfl rfl)) (own_kept rfl (by rfl))
  | sched k _ _ =>
    exact h.quiet hf (not_reaps hk rfl) rfl (hnone rfl) ⟨rfl, rfl⟩ (kinds_kept rfl) (fun _ => rfl)
  | wake chan j js k hs =>
    exact h.quiet hf (not_reaps hk rfl) rfl (hnone rfl) ⟨rfl, rfl⟩
      (kinds_kept (kinds_same rfl (by rw [hs]; rfl))) (own_kept rfl (by rfl))
  | adopt j js =>
    exact h.quiet hf (not_reaps hk rfl) rfl (hnone rfl) ⟨rfl, rfl⟩ (kinds_kept (kinds_same rfl rfl))
      (own_kept rfl (by rfl))
  | zombie =>
    refine h.quiet hf (not_reaps hk rfl) rfl (hnone rfl) ⟨rfl, rfl⟩ ?_ (own_kept rfl (by rfl))
    intro p _
    by_cases hp : p = i
    · rw [hp, Table.kinds, hrun rfl]
      exact .inl rfl
    · exact .inr (.inl (by simp [Table.kinds, hp]))
  | waitStack j r p _ =>
    refine h.recrit hf rfl ⟨rfl, rfl⟩ (kinds_kept (kinds_same rfl rfl))
      (fun q => .inl (own_kept rfl (by rfl) q)) (hkeep rfl) ?_
    intro l q hl hq
    cases hl
    cases hq
    exact Crit.Knows.congr (k := .waitStack j r) (own_kept rfl (by rfl) j) (h.taken hk rfl)
  | waitDir j r p _ =>
    obtain ⟨hpid, hwhole, -⟩ := h.taken hk rfl
    refine h.recrit hf rfl ⟨rfl, rfl⟩ (kinds_kept (kinds_same rfl rfl))
      (own_changed rfl ⟨_, hk, rfl⟩) (hkeep rfl) ?_
    intro l q hl hq
    cases hl
    cases hq
    simpa [Crit.Knows] using ⟨hpid, hwhole⟩
  | waitClear j r =>
    refine h.recrit hf rfl ⟨rfl, rfl⟩ (kinds_kept (kinds_same rfl rfl))
      (own_changed rfl ⟨_, hk, rfl⟩) (hkeep rfl) ?_
    intro l q hl _
    cases hl
    trivial
  | waitOrphan j r =>
    refine h.recrit hf rfl ⟨rfl, rfl⟩ (kinds_kept (kinds_same rfl rfl))
      (fun q => .inl (own_kept rfl (by rfl) q)) (hkeep rfl) ?_
    intro l q hl _
    cases hl
    trivial
  | waitUnused j r =>
    refine h.recrit hf rfl ⟨rfl, rfl⟩ (kinds_out (kinds_update rfl) ⟨by rintro ⟨⟩, by rintro ⟨⟩⟩)
      (fun q => .inl (own_kept rfl (by rfl) q)) ?_ ?_
    · rintro q ⟨l, hl, hq⟩
      cases hk.symm.trans hl
      cases hq
      exact .inr (by simp [Table.kinds, kind])
    · intro l q hl hq
      cases (hnone rfl l hl).symm.trans hq

end Steps

end Xv6.Ptable
