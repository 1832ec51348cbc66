import Xv6.Family
import Xv6.ProcSched

/- Claims, parents and reapers in the process table.

   `kind` and `role` read the table as a family of slots: what a state means for
   the others, and what a process is doing to other slots at its place in the
   code. Every step of the table is one of the rules of `Family`, under the lock or
   not, or changes nothing that the family sees (`family_runs`, `family_works`).
   `Sound` puts this together with what `ProcSched` says about CPUs. -/
namespace Xv6.Ptable
open Function Table Family

variable {κ : Type}

/-! ## The table as a family -/

def kind : ProcState → Kind
  | .UNUSED => .unused
  | .EMBRYO => .embryo
  | .SLEEPING | .RUNNABLE | .RUNNING => .live
  | .ZOMBIE => .dead

def Main.role : Main → Role SlotId
  | .run | .scan _ => .none
  | .pidRead j | .pidCas j _ | .pidStore j _ | .kalloc j | .copyuvm j | .freeStack j | .giveUp j
  | .setParent j => .claims j false
  | .readPid j | .publish j _ => .claims j true

def Cont.role : Cont → Role SlotId
  | .release | .rescan | .dead => .none
  | .tidy k => k.role
  | .reparent rest => .exits rest false

def Crit.role : Crit → Role SlotId
  | .release | .publish | .yield | .dead | .waitScan _ _ | .waitReturn _ => .none
  | .sleep _ k | .asleep k | .tidy k | .sched k | .resumed k | .wakeup1 _ _ k => k.role
  | .exit => .exits slots false
  | .reparent rest => .exits rest false
  | .adopt j rest => .exits (j :: rest) true
  | .adopted _ rest => .exits rest false
  | .zombie => .exits [] false
  | .waitState j _ => .waits j
  | .waitPid j | .waitStack j _ | .waitDir j _ | .waitClear j _ | .waitOrphan j _ => .reaps j true
  | .waitUnused j _ => .reaps j false

/-- The sections that are entered only with nothing claimed. -/
def Cont.alone : Cont → Bool
  | .release | .dead => false
  | .tidy k => k.alone
  | .rescan | .reparent _ => true

def Crit.alone : Crit → Bool
  | .release | .publish | .yield | .dead => false
  | .sleep _ k | .asleep k | .tidy k | .sched k | .resumed k | .wakeup1 _ _ k => k.alone
  | _ => true

/-- What a process is doing to other slots. -/
def Thread.role (th : Thread) : Role SlotId :=
  match th.main.role with
  | .none => th.crit.elim .none Crit.role
  | r => r

def Table.kinds (t : Table κ) : SlotId → Kind := fun j => kind (t.proc j).state

def Table.parents (t : Table κ) : SlotId → Option SlotId := fun j => (t.proc j).parent

def Table.roles (t : Table κ) : SlotId → Role SlotId := fun i => (t.thread i).role

structure FamilyOk (t : Table κ) : Prop where
  family : Family initproc t.kinds t.parents t.roles
  alone : ∀ {i k}, (t.thread i).crit = some k → k.alone = true → (t.thread i).main = .run

@[simp] theorem role_cont (k : Cont) : k.crit.role = k.role := by
  cases k <;> rfl

@[simp] theorem alone_cont (k : Cont) : k.crit.alone = k.alone := by
  cases k <;> rfl

theorem role_alone {k : Cont} (h : k.alone = false) : k.role = .none := by
  induction k with
  | tidy k ih => exact ih h
  | release | dead => rfl
  | rescan | reparent => cases h

theorem crit_role_alone {k : Crit} (h : k.alone = false) : k.role = .none := by
  cases k with
  | release | publish | yield | dead => rfl
  | sleep _ k | asleep k | tidy k | sched k | resumed k | wakeup1 _ _ k => exact role_alone h
  | _ => cases h

theorem role_of_alone {th : Thread} {k : Crit} (hk : th.crit = some k) (hm : th.main = .run) :
    th.role = k.role := by
  simp [Thread.role, hk, hm, Main.role]

theorem role_of_main {th : Thread} (hk : ∀ k, th.crit = some k → k.role = .none) :
    th.role = th.main.role := by
  unfold Thread.role
  split
  · next hm =>
    rw [hm]
    cases hc : th.crit with
    | none => rfl
    | some k => exact hk k hc
  · rfl

/-! ## How the family sees a step -/

section Views

variable {t t' : Table κ} {c : κ} {i j : SlotId} {k k' : Crit} {rest : List SlotId} {e : Entry}
  {th : Thread}

theorem kinds_of_state {s : ProcState} (h : (t.proc j).state = s) : t.kinds j = kind s :=
  congrArg kind h

theorem kinds_update (hproc : t'.proc = update t.proc j e) :
    t'.kinds = update t.kinds j (kind e.state) := by
  funext p
  by_cases hp : p = j <;> simp [Table.kinds, hproc, hp]

theorem parents_update (hproc : t'.proc = update t.proc j e) :
    t'.parents = update t.parents j e.parent := by
  funext p
  by_cases hp : p = j <;> simp [Table.parents, hproc, hp]

theorem kinds_same (hproc : t'.proc = update t.proc j e)
    (hkind : kind e.state = kind (t.proc j).state) : t'.kinds = t.kinds := by
  rw [kinds_update hproc, hkind]
  exact update_eq_self ..

theorem parents_same (hproc : t'.proc = update t.proc j e)
    (hparent : e.parent = (t.proc j).parent) : t'.parents = t.parents := by
  rw [parents_update hproc, hparent]
  exact update_eq_self ..

theorem roles_update (hthread : t'.thread = update t.thread i th) :
    t'.roles = update t.roles i th.role := by
  funext p
  by_cases hp : p = i <;> simp [Table.roles, hthread, hp]

theorem FamilyOk.same (h : FamilyOk t) (hviews : t'.kinds = t.kinds ∧ t'.parents = t.parents)
    (hroles : t'.roles = t.roles)
    (halone : ∀ {i k}, (t'.thread i).crit = some k → k.alone = true → (t'.thread i).main = .run) :
    FamilyOk t' := by
  refine ⟨?_, halone⟩
  rw [hviews.1, hviews.2, hroles]
  exact h.family

theorem role_free (hk : (t.thread i).crit = none) : t.roles i = (t.thread i).main.role :=
  role_of_main fun _ hk' => nomatch hk.symm.trans hk'

theorem role_outside (hk : (t.thread i).crit = some k) (hrole : k.role = .none) :
    t.roles i = (t.thread i).main.role :=
  role_of_main fun l hl => by cases hk.symm.trans hl; exact hrole

theorem FamilyOk.role_alone (h : FamilyOk t) (hk : (t.thread i).crit = some k)
    (hal : k.alone = true) : t.roles i = k.role :=
  role_of_alone hk (h.alone hk hal)

/-- Process `i` goes on at `th`: a step that the family sees as one of its rules. -/
theorem FamilyOk.next_of {K : SlotId → Kind} {P : SlotId → Option SlotId} {r : Role SlotId}
    (h : FamilyOk t) (hthread : t'.thread = update t.thread i th) (hrole : th.role = r)
    (halone : ∀ k, th.crit = some k → k.alone = true → th.main = .run)
    (hfam : Family initproc K P (update t.roles i r)) (hK : t'.kinds = K)
    (hP : t'.parents = P) : FamilyOk t' := by
  refine ⟨by rw [hK, hP, roles_update hthread, hrole]; exact hfam, ?_⟩
  intro p l hl hla
  rw [hthread] at hl ⊢
  by_cases hp : p = i
  · subst hp
    rw [update_self] at hl ⊢
    exact halone l hl hla
  · rw [update_of_ne hp] at hl ⊢
    exact h.alone hl hla

theorem FamilyOk.update_same (h : FamilyOk t)
    (hthread : t'.thread = update t.thread i th) (hrole : th.role = t.roles i)
    (halone : ∀ k, th.crit = some k → k.alone = true → th.main = .run)
    (hviews : t'.kinds = t.kinds ∧ t'.parents = t.parents) : FamilyOk t' := by
  refine h.next_of hthread hrole halone ?_ hviews.1 hviews.2
  rw [update_eq_self]
  exact h.family

theorem FamilyOk.keep (h : FamilyOk t) (hk : (t.thread i).crit = some k)
    (hthread : t'.thread = (t.next i k').thread) (hal : k'.alone = true → k.alone = true)
    (hrole : k'.role = k.role)
    (hviews : t'.kinds = t.kinds ∧ t'.parents = t.parents) : FamilyOk t' := by
  have hsame : Thread.role ⟨(t.thread i).main, some k'⟩ = t.roles i := by
    cases hka : k.alone with
    | true =>
      -- the role is that of the section
      rw [h.role_alone hk hka, ← hrole]
      exact role_of_alone rfl (h.alone hk hka)
    | false =>
      -- the role is that of `fork`, before and after
      have hka' : k'.alone = false := by
        by_contra hne
        rw [hal (Bool.not_eq_false _ ▸ hne)] at hka
        cases hka
      rw [role_outside hk (crit_role_alone hka)]
      exact role_of_main fun l hl => by cases hl; exact crit_role_alone hka'
  refine h.update_same hthread hsame (fun l hl hla => ?_) hviews
  cases hl
  exact h.alone hk (hal hla)

theorem FamilyOk.leave (h : FamilyOk t) (hk : (t.thread i).crit = some k) (hrole : k.role = .none)
    (hthread : t'.thread = (t.leave i).thread)
    (hviews : t'.kinds = t.kinds ∧ t'.parents = t.parents) : FamilyOk t' := by
  refine h.update_same hthread ?_ nofun hviews
  rw [role_outside hk hrole]
  exact role_of_main nofun

/-- A step in a section of its own that gives process `i` the role of `k'`. -/
theorem FamilyOk.move {K : SlotId → Kind} {P : SlotId → Option SlotId} (h : FamilyOk t)
    (hk : (t.thread i).crit = some k) (hal : k.alone = true)
    (hfam : Family initproc K P (update t.roles i k'.role))
    (hthread : t'.thread = (t.next i k').thread) (hK : t'.kinds = K) (hP : t'.parents = P) :
    FamilyOk t' := by
  have hm := h.alone hk hal
  exact h.next_of hthread (role_of_alone rfl hm) (fun _ _ _ => hm) hfam hK hP

theorem FamilyOk.goto {K : SlotId → Kind} {P : SlotId → Option SlotId} {m : Main} (h : FamilyOk t)
    (hk : (t.thread i).crit = none)
    (hfam : Family initproc K P (update t.roles i m.role))
    (hthread : t'.thread = (t.goto i m).thread) (hK : t'.kinds = K) (hP : t'.parents = P) :
    FamilyOk t' := by
  have hnone : ∀ l, (t.thread i).crit ≠ some l := fun l hl => nomatch hk.symm.trans hl
  exact h.next_of hthread (role_of_main fun l hl => absurd hl (hnone l))
    (fun l hl => absurd hl (hnone l)) hfam hK hP

theorem FamilyOk.goto_same {m : Main} (h : FamilyOk t) (hk : (t.thread i).crit = none)
    (hm : m.role = (t.thread i).main.role) (hthread : t'.thread = (t.goto i m).thread)
    (hviews : t'.kinds = t.kinds ∧ t'.parents = t.parents) : FamilyOk t' := by
  refine h.goto hk ?_ hthread hviews.1 hviews.2
  rw [hm, ← role_free hk, update_eq_self]
  exact h.family

theorem mem_slots (j : SlotId) : j ∈ slots := List.mem_finRange j

theorem FamilyOk.enter {m : Main} (h : FamilyOk t) (hk : (t.thread i).crit = none)
    (hm : (t.thread i).main = m) (hlive : t.kinds i = .live) (he : Enters i m k)
    (hthread : t'.thread = (t.next i k).thread)
    (hviews : t'.kinds = t.kinds ∧ t'.parents = t.parents) : FamilyOk t' := by
  have hrole : t.roles i = m.role := by rw [role_free hk, hm]
  have halone : ∀ l, some k = some l → l.alone = true → (t.thread i).main = .run := by
    intro l hl hla
    cases hl
    cases he with
    | exit | wait => exact hm
    | _ => cases hla
  -- only `exit` has a role from the start
  by_cases hkr : k.role = .none
  · refine h.update_same hthread ?_ halone hviews
    rw [hrole, ← hm]
    exact role_of_main fun l hl => by cases hl; exact hkr
  · cases he with
    | exit hi =>
      exact h.next_of hthread (role_of_alone rfl hm) halone
        (h.family.exit hlive hrole hi mem_slots) hviews.1 hviews.2
    | _ => exact absurd rfl hkr

theorem FamilyOk.newborn (h : FamilyOk t) (hj : t.kinds j ≠ .live) :
    FamilyOk { t with thread := update t.thread j Ptable.newborn } := by
  refine h.update_same rfl (h.family.idle hj).symm (fun l hl hla => ?_) ⟨rfl, rfl⟩
  cases hl
  cases hla

end Views

/-! ## Every step keeps it -/

section Steps

variable {t t' : Table κ} {c : κ} {i : SlotId} {rest : List SlotId}

theorem family_runs (h : FamilyOk t) (hsched : Sched t) (hpc : (t.cpu c).pc = .away i rest)
    (hk : (t.thread i).crit = none) (hr : Runs t c i (t.thread i).main t') : FamilyOk t' := by
  have hrun := hsched.running_of_away hpc (by rw [hk]; rfl)
  have hlive : t.kinds i = .live := kinds_of_state hrun
  have hrole := role_free hk
  generalize hm : (t.thread i).main = m at hr hrole
  cases hr with
  | enter _ k he hl => exact h.enter hk hm hlive he rfl ⟨rfl, rfl⟩
  | goes _ m' hg =>
    refine h.goto_same hk ?_ rfl ⟨rfl, rfl⟩
    rw [hm]
    cases hg <;> rfl
  | stay => exact h
  | sigkill _ hs =>
    rw [hrun] at hs
    cases hs
  | claim j rest hj =>
    have hunused : t.kinds j = .unused := kinds_of_state hj
    exact h.goto hk (h.family.claim hlive hrole hunused) rfl (kinds_update rfl)
      (parents_same rfl rfl)
  | giveUp j =>
    exact h.goto hk (h.family.release (.inl hrole)) rfl (kinds_update rfl) (parents_same rfl rfl)
  | setParent j =>
    exact h.goto hk (h.family.give hlive hrole) rfl (kinds_same rfl rfl) (parents_update rfl)
  | kalloc j =>
    have hj : t.kinds j = .embryo := (h.family.claims hrole).1
    have hij : i ≠ j := by
      intro heq
      rw [heq, hj] at hlive
      cases hlive
    -- first the context of the child, then the step of `fork` itself
    refine (h.newborn (j := j) (by rw [hj]; nofun)).goto_same ?_ ?_ rfl
      ⟨kinds_same rfl rfl, parents_same rfl rfl⟩
    · simpa [hij] using hk
    · simp [hij, hm, Main.role]
  | cas j localPid _ => exact h.goto_same hk (by rw [hm]; rfl) rfl ⟨rfl, rfl⟩
  | pidStore j | noStack j | copyuvm j | noDir j | freeStack j =>
    exact h.goto_same hk (by rw [hm]; rfl) rfl ⟨kinds_same rfl rfl, parents_same rfl rfl⟩
  | exec p _ => exact h.same ⟨kinds_same rfl rfl, parents_same rfl rfl⟩ rfl h.alone

theorem family_jumps {k k' : Crit} (h : FamilyOk t) (hlive : t.kinds i = .live)
    (hk : (t.thread i).crit = some k) (hj : Jumps t i k k') : FamilyOk (t.next i k') := by
  -- most of them keep the role
  have hsame (hal : k'.alone = true → k.alone = true) (hrole : k'.role = k.role) :
      FamilyOk (t.next i k') := h.keep hk rfl hal hrole ⟨rfl, rfl⟩
  cases hj with
  | resumed k | woken chan k => exact hsame (alone_cont k).symm.trans (role_cont k)
  | child j js hp => exact h.move hk rfl (h.family.find (h.role_alone hk rfl) hp) rfl rfl rfl
  | stranger j js hp => exact h.move hk rfl (h.family.skip (h.role_alone hk rfl) hp) rfl rfl rfl
  | waitChild j js _ hp =>
    exact h.move hk rfl (h.family.look hlive (h.role_alone hk rfl) hp) rfl rfl rfl
  | waitFound j js hz =>
    have hdead : t.kinds j = .dead := kinds_of_state hz
    exact h.move hk rfl (h.family.reap (h.role_alone hk rfl) hdead) rfl rfl rfl
  | waitAlive j js => exact h.move hk rfl (h.family.leave (h.role_alone hk rfl)) rfl rfl rfl
  | awake chan j js k => exact hsame id rfl
  | _ => exact hsame (fun _ => rfl) rfl

variable [DecidableEq κ]

theorem family_schedules (h : FamilyOk t) (hsched : Sched t) (hs : Schedules t c t') :
    FamilyOk t' := by
  cases hs with
  | start p rest hpc =>
    have hready := (hsched.cpu c).2
    rw [hpc] at hready
    have hstate : (t.proc p).state = .RUNNABLE := hready.2
    exact h.same ⟨kinds_same rfl (by rw [hstate]; rfl), parents_same rfl rfl⟩ rfl h.alone
  | wake chan j rest hpc hsleep =>
    exact h.same ⟨kinds_same rfl (by rw [hsleep]; rfl), parents_same rfl rfl⟩ rfl h.alone
  | _ => exact h.same ⟨rfl, rfl⟩ rfl h.alone

theorem family_works {k : Crit} (h : FamilyOk t) (hsched : Sched t)
    (hpc : (t.cpu c).pc = .away i rest) (hk : (t.thread i).crit = some k)
    (hw : Works t c i rest k t') : FamilyOk t' := by
  have hrun : leaving (some k) = false → (t.proc i).state = .RUNNING := by
    intro hleave
    exact hsched.running_of_away hpc (by rw [hk]; exact hleave)
  cases hw with
  | jumps _ k' hj =>
    have hlive : t.kinds i = .live := kinds_of_state (hrun (leaving_of_jumps hj).1)
    exact family_jumps h hlive hk hj
  | release _ | waitReturn r _ => exact h.leave hk rfl rfl ⟨rfl, rfl⟩
  | publish j pid hm =>
    have hrole : t.roles i = .claims j true := by
      rw [role_outside hk rfl, hm]
      rfl
    have hthread : (((t.put j { t.proc j with state := .RUNNABLE }).goto i .run).next i
        .release).thread = update t.thread i ⟨.run, some .release⟩ := by simp
    exact h.next_of hthread rfl (fun _ _ _ => rfl) (h.family.publish hrole)
      (kinds_update (e := { t.proc j with state := .RUNNABLE }) rfl) (parents_same (j := j) rfl rfl)
  | yield =>
    exact h.keep hk rfl id rfl ⟨kinds_same rfl (by rw [hrun rfl]; rfl), parents_same rfl rfl⟩
  | asleep k =>
    exact h.keep hk rfl id rfl ⟨kinds_same rfl (by rw [hrun rfl]; rfl), parents_same rfl rfl⟩
  | sleep chan k =>
    exact h.keep hk rfl id rfl ⟨kinds_same rfl rfl, parents_same rfl rfl⟩
  | tidy k =>
    exact h.keep hk rfl (alone_cont k).symm.trans (role_cont k)
      ⟨kinds_same rfl rfl, parents_same rfl rfl⟩
  | sched k _ _ => exact h.keep hk rfl id rfl ⟨rfl, rfl⟩
  | wake chan j js k hs =>
    exact h.keep hk rfl id rfl ⟨kinds_same rfl (by rw [hs]; rfl), parents_same rfl rfl⟩
  | adopt j js =>
    exact h.move hk rfl (h.family.adopt (h.role_alone hk rfl)) rfl (kinds_same rfl rfl)
      (parents_update rfl)
  | zombie =>
    exact h.move hk rfl (h.family.die (h.role_alone hk rfl)) rfl (kinds_update rfl)
      (parents_same rfl rfl)
  | waitStack j | waitDir j | waitClear j =>
    exact h.keep hk rfl id rfl ⟨kinds_same rfl rfl, parents_same rfl rfl⟩
  | waitOrphan j r =>
    exact h.move hk rfl (h.family.orphan (h.role_alone hk rfl)) rfl (kinds_same rfl rfl)
      (parents_update rfl)
  | waitUnused j r =>
    exact h.move hk rfl (h.family.release (.inr (h.role_alone hk rfl))) rfl (kinds_update rfl)
      (parents_same rfl rfl)

end Steps

/-! ## Both at once -/

structure Sound (t : Table κ) : Prop where
  sched : Sched t
  family : FamilyOk t

section Sound

variable {t t' : Table κ} {i j : SlotId} {k : Crit} {m : Main}

theorem role_claim (h : m.claim = some j) : ∃ g, m.role = .claims j g := by
  cases m <;> cases h <;> exact ⟨_, rfl⟩

theorem state_embryo {s : ProcState} (h : kind s = .embryo) : s = .EMBRYO := by
  cases s <;> first | rfl | cases h

theorem state_zombie {s : ProcState} (h : kind s = .dead) : s = .ZOMBIE := by
  cases s <;> first | rfl | cases h

theorem claims_of_claim (hj : (t.thread i).main.claim = some j) :
    ∃ g, t.roles i = .claims j g := by
  obtain ⟨g, hg⟩ := role_claim hj
  exact ⟨g, by simp [Table.roles, Thread.role, hg]⟩

theorem FamilyOk.embryo_of_claim (h : FamilyOk t) (hj : (t.thread i).main.claim = some j) :
    t.kinds j = .embryo := by
  obtain ⟨g, hg⟩ := claims_of_claim hj
  exact (h.family.claims hg).1

theorem FamilyOk.claim_inj {i' : SlotId} (h : FamilyOk t)
    (hi : (t.thread i).main.claim = some j) (hi' : (t.thread i').main.claim = some j) : i = i' := by
  obtain ⟨g, hg⟩ := claims_of_claim hi
  obtain ⟨g', hg'⟩ := claims_of_claim hi'
  exact h.family.claimInj hg hg'

variable [DecidableEq κ]

theorem sound_stepped (h : Sound t) (hs : Stepped t t') : Sound t' := by
  cases hs with
  | sched c hs => exact ⟨sched_schedules h.sched hs, family_schedules h.family h.sched hs⟩
  | main c i rest hpc hk hr =>
    exact ⟨sched_runs h.sched hpc hk (fun _ hj => state_embryo (h.family.embryo_of_claim hj)) hr,
      family_runs h.family h.sched hpc hk hr⟩
  | crit c i rest k hpc hk hw =>
    refine ⟨sched_works h.sched hpc hk (fun _ hj => state_embryo (h.family.embryo_of_claim hj)) ?_ hw,
      family_works h.family h.sched hpc hk hw⟩
    intro j r hkj
    subst hkj
    exact state_zombie (h.family.family.reaps (h.family.role_alone hk rfl)).1

end Sound

/-! ## The first table -/

theorem sched_start : Sched (start : Table κ) where
  cpu := fun _ => ⟨rfl, nofun⟩
  alone := fun h => nomatch h
  proc := by
    intro p
    refine ⟨fun hs => ?_, fun _ => .inl ?_⟩ <;> by_cases hp : p = initproc
    · simp [start, hp] at hs
    · simp [start, hp, unused] at hs
    · simp [start, hp, newborn, parked]
    · simp [start, hp, parked]

theorem roles_start (i : SlotId) : (start : Table κ).roles i = .none := by
  by_cases hi : i = initproc
  · simp [Table.roles, start, hi, newborn, Thread.role, Main.role, Crit.role, Cont.role]
  · simp [Table.roles, start, hi, Thread.role, Main.role, Crit.role, Cont.role]

theorem parents_start (j : SlotId) : (start : Table κ).parents j = none := by
  by_cases hj : j = initproc
  · simp [Table.parents, start, hj]
  · simp [Table.parents, start, hj, unused]

theorem kinds_start (j : SlotId) :
    (start : Table κ).kinds j = if j = initproc then .live else .unused := by
  by_cases hj : j = initproc
  · simp [Table.kinds, start, hj, kind]
  · simp [Table.kinds, start, hj, unused, kind]

theorem family_start : FamilyOk (start : Table κ) where
  family := by
    have hroles := roles_start (κ := κ)
    have hparents := parents_start (κ := κ)
    have hkinds := kinds_start (κ := κ)
    constructor <;> grind
  alone := by
    intro i k _ _
    by_cases hi : i = initproc
    · simp [start, hi, newborn]
    · simp [start, hi]

theorem sound_start : Sound (start : Table κ) := ⟨sched_start, family_start⟩

end Xv6.Ptable
