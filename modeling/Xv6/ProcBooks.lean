import Xv6.Ledger
import Xv6.ProcFacts

/- Who holds which pid and which page.

   A pid is given out by the CAS in `allocpid`; it is in the hands of the process
   that forks, then in a slot, then in the hands of the process that waits, and at
   last it is returned. A page is in a slot until it is freed. Both are tokens of a
   `Ledger`: every step issues one, moves one, retires one or leaves the books
   alone. A slot of which `fork` has failed keeps its pid until the next one is
   stored there.

   `Reaping` is what `wait` has done so far for the pid that it is about to return. -/
namespace Xv6.Ptable
open Function List Bits Table Family

variable {κ : Type} {b : Prop}

/-! ## Pids -/

/-- The pid a slot holds: 0 is none. -/
def num (pid : Word) : Option Nat := if pid = 0 then none else some pid.toNat

def Main.pid : Main → Option Word
  | .pidStore _ pid => some pid
  | _ => none

def Crit.pid : Crit → Option Word
  | .waitOrphan _ r | .waitUnused _ r | .waitReturn r => some r.pid
  | _ => none

def Thread.pid (th : Thread) : Option Word := th.main.pid.or (th.crit.bind Crit.pid)

def Table.pids (t : Table κ) : SlotId ⊕ SlotId → Option Nat
  | .inl j => num (t.proc j).pid
  | .inr i => (t.thread i).pid.map BitVec.toNat

def Table.spent (t : Table κ) : List Nat := t.returned.map fun r => r.pid.toNat

/-- No pid is in two places, and none is used again. -/
def PidsOk (t : Table κ) : Prop := Ledger t.pids t.spent (t.allocs + 2)

section Pids

variable {t t' : Table κ} {c : κ} {i j : SlotId} {rest : List SlotId} {e : Entry}

theorem num_of_ne {pid : Word} (h : pid ≠ 0) : num pid = some pid.toNat := if_neg h

theorem PidsOk.same (h : PidsOk t) (hproc : ∀ j, (t'.proc j).pid = (t.proc j).pid)
    (hthread : ∀ i, (t'.thread i).pid = (t.thread i).pid)
    (hlog : t'.returned = t.returned ∧ t'.allocs = t.allocs) : PidsOk t' := by
  have hpids : t'.pids = t.pids := by
    funext x
    cases x with
    | inl j => simp only [Table.pids, hproc]
    | inr i => simp only [Table.pids, hthread]
  rw [PidsOk, hpids, Table.spent, hlog.1, hlog.2]
  exact h

theorem PidsOk.of_thread (th : Thread) (hproc : ∀ j, (t'.proc j).pid = (t.proc j).pid)
    (hthread : t'.thread = update t.thread i th)
    (h : Ledger (update t.pids (.inr i) (th.pid.map BitVec.toNat)) t'.spent
      (t'.allocs + 2)) : PidsOk t' := by
  have hpids : t'.pids = update t.pids (.inr i) (th.pid.map BitVec.toNat) := by
    funext x
    rcases x with p | p
    · simp [Table.pids, hproc]
    · by_cases hp : p = i <;> simp [Table.pids, hthread, hp]
  rw [PidsOk, hpids]
  exact h

theorem PidsOk.of_store (th : Thread) (hproc : t'.proc = update t.proc j e)
    (hthread : t'.thread = update t.thread i th)
    (h : Ledger (update (update t.pids (.inl j) (num e.pid)) (.inr i)
      (th.pid.map BitVec.toNat)) t'.spent (t'.allocs + 2)) : PidsOk t' := by
  have hpids : t'.pids = update (update t.pids (.inl j) (num e.pid)) (.inr i)
      (th.pid.map BitVec.toNat) := by
    funext x
    rcases x with p | p
    · by_cases hp : p = j <;> simp [Table.pids, hproc, hp]
    · by_cases hp : p = i <;> simp [Table.pids, hthread, hp]
  rw [PidsOk, hpids]
  exact h

theorem pid_recrit {ko : Option Crit}
    (hthread : t'.thread = update t.thread i ⟨(t.thread i).main, ko⟩)
    (hpid : ko.bind Crit.pid = (t.thread i).crit.bind Crit.pid) (p : SlotId) :
    (t'.thread p).pid = (t.thread p).pid := by
  rw [hthread]
  by_cases hp : p = i
  · rw [hp, update_self, Thread.pid, hpid]
    rfl
  · rw [update_of_ne hp]

theorem pid_goto {m : Main} (hthread : t'.thread = (t.goto i m).thread)
    (hpid : m.pid = (t.thread i).main.pid) (p : SlotId) :
    (t'.thread p).pid = (t.thread p).pid := by
  rw [hthread]
  by_cases hp : p = i
  · simp [hp, Thread.pid, hpid]
  · simp [hp]

theorem parked_pid {ko : Option Crit} (h : parked ko = true ∨ leaving ko = true) :
    ko.bind Crit.pid = none := by
  rcases h with h | h
  · unfold parked at h
    split at h
    · rfl
    · cases h
  · unfold leaving at h
    split at h
    · rfl
    · cases h

theorem Sound.pid_of_not_live (h : Sound t) (hj : t.kinds j ≠ .live) : (t.thread j).pid = none := by
  have hrole := h.family.family.idle hj
  have hmain : (t.thread j).main.pid = none := by
    cases hm : (t.thread j).main with
    | pidStore x pid =>
      obtain ⟨g, hg⟩ := claims_of_claim (t := t) (i := j) (j := x) (by rw [hm]; rfl)
      cases hrole.symm.trans hg
    | _ => rfl
  have hoff : (t.proc j).state ≠ .RUNNING := fun hs => hj (by rw [Table.kinds, hs]; rfl)
  have hcrit := parked_pid (((h.sched.proc j).off hoff).imp_right And.left)
  rw [Thread.pid, hmain, hcrit]
  rfl

theorem goes_pid {m m' : Main} (h : Goes t m m') : m'.pid = m.pid := by
  cases h <;> rfl

theorem enters_pid {m : Main} {k : Crit} (h : Enters i m k) : k.pid = none := by
  cases h <;> rfl

theorem cont_pid (k : Cont) : k.crit.pid = none := by
  cases k <;> rfl

theorem jumps_pid {k k' : Crit} (h : Jumps t i k k') : k'.pid = k.pid := by
  cases h with
  | resumed k | woken _ k => exact cont_pid k
  | _ => rfl

theorem pids_runs (h : PidsOk t) (hfacts : Facts b t) (hyp : b) (hsound : Sound t)
    (hlive : t.kinds i = .live) (hk : (t.thread i).crit = none) (hb : t'.allocs + 1 < 2 ^ 32)
    (hr : Runs t c i (t.thread i).main t') : PidsOk t' := by
  generalize hm : (t.thread i).main = m at hr
  have hgoto {t' : Table κ} {m' : Main} (hthread : t'.thread = (t.goto i m').thread)
      (hpid : m'.pid = m.pid) (p : SlotId) : (t'.thread p).pid = (t.thread p).pid :=
    pid_goto hthread (hpid.trans (congrArg _ hm.symm)) p
  cases hr with
  | enter _ k he _ =>
    exact h.same (fun _ => rfl) (pid_recrit rfl (by rw [hk]; exact enters_pid he)) ⟨rfl, rfl⟩
  | goes _ m' hg => exact h.same (fun _ => rfl) (hgoto rfl (goes_pid hg)) ⟨rfl, rfl⟩
  | stay => exact h
  | sigkill _ _ | exec _ _ =>
    exact h.same (update_field Entry.pid (by rfl)) (fun _ => rfl) ⟨rfl, rfl⟩
  | cas j localPid hn =>
    -- from the counter to the process that forks
    subst hn
    have hpid := (hfacts.pid_ne_zero (fun _ => hb) hyp).1
    refine PidsOk.of_thread (t := t) (i := i) ⟨.pidStore j (t.nextpid + 1), none⟩ (fun _ => rfl)
      (by simp [hk]) ?_
    rw [Thread.pid, Main.pid, Option.some_or, Option.map_some, hpid]
    exact h.issue (.inr i)
  | pidStore j pid =>
    -- from there to the slot
    have hpid : pid ≠ 0 := by
      have hheld := hfacts.held (i := i) (j := j) (by rw [hm]; rfl)
      rw [hm] at hheld
      exact hheld hyp
    have hmine : t.pids (.inr i) = some pid.toNat := by
      rw [Table.pids, Thread.pid, hm]
      rfl
    refine PidsOk.of_store (t := t) (i := i) ⟨.kalloc j, none⟩ rfl (by simp [hk]) ?_
    rw [num_of_ne hpid, update_comm (by simp)]
    exact h.move hmine
  | kalloc j =>
    have hj := hsound.family.not_live_of_has (i := i) (.inl (by rw [hm]; rfl))
    have hij : i ≠ j := fun heq => hj (heq ▸ hlive)
    refine h.same (update_field Entry.pid (by rfl)) (fun p => ?_) ⟨rfl, rfl⟩
    by_cases hp : p = i
    · simp [hp, hij, Thread.pid, hk, hm, Main.pid]
    · by_cases hpj : p = j
      · subst hpj
        rw [hsound.pid_of_not_live hj]
        simp [hp, Thread.pid, newborn, Main.pid, Crit.pid]
      · simp [hp, hpj]
  | claim | noStack | copyuvm | noDir | freeStack | giveUp | setParent =>
    exact h.same (update_field Entry.pid (by rfl)) (hgoto rfl rfl) ⟨rfl, rfl⟩

theorem pids_works [DecidableEq κ] {k : Crit} (h : PidsOk t) (hfacts : Facts b t) (hyp : b)
    (hsound : Sound t) (hk : (t.thread i).crit = some k) (hw : Works t c i rest k t') :
    PidsOk t' := by
  have hnext {t' : Table κ} {ko : Option Crit}
      (hthread : t'.thread = update t.thread i ⟨(t.thread i).main, ko⟩)
      (hpid : ko.bind Crit.pid = k.pid) (p : SlotId) : (t'.thread p).pid = (t.thread p).pid :=
    pid_recrit hthread (by rw [hk]; exact hpid) p
  cases hw with
  | jumps _ k' hj => exact h.same (fun _ => rfl) (hnext rfl (jumps_pid hj)) ⟨rfl, rfl⟩
  | release _ => exact h.same (fun _ => rfl) (hnext rfl rfl) ⟨rfl, rfl⟩
  | publish j pid hm =>
    refine h.same (update_field Entry.pid (by rfl)) (fun p => ?_) ⟨rfl, rfl⟩
    by_cases hp : p = i
    · simp [hp, Thread.pid, hk, hm, Main.pid, Crit.pid]
    · simp [hp]
  | sched k _ _ => exact h.same (fun _ => rfl) (hnext rfl rfl) ⟨rfl, rfl⟩
  | tidy k =>
    exact h.same (update_field Entry.pid (by rfl)) (hnext rfl (cont_pid k)) ⟨rfl, rfl⟩
  | waitClear j r =>
    -- from the slot to the process that waits
    obtain ⟨hpid, hne⟩ := hfacts.taken hk rfl
    have hm := hsound.family.alone hk rfl
    have hslot : t.pids (.inl j) = some r.pid.toNat := by
      rw [Table.pids, num_of_ne (hne hyp), hpid]
    exact PidsOk.of_store (t := t) (i := i) ⟨.run, some (.waitOrphan j r)⟩ rfl (by simp [hm])
      (h.move hslot)
  | waitReturn r _ =>
    -- and out of the books
    have hm := hsound.family.alone hk rfl
    have hmine : t.pids (.inr i) = some r.pid.toNat := by
      rw [Table.pids, Thread.pid, hm, hk]
      rfl
    exact PidsOk.of_thread (t := t) (i := i) ⟨.run, none⟩ (fun _ => rfl) (by simp [hm])
      (h.retire hmine)
  | yield | sleep | asleep | wake | adopt | zombie | waitStack | waitDir | waitOrphan
  | waitUnused =>
    exact h.same (update_field Entry.pid (by rfl)) (hnext rfl rfl) ⟨rfl, rfl⟩

theorem pids_schedules [DecidableEq κ] (h : PidsOk t) (hs : Schedules t c t') : PidsOk t' := by
  cases hs with
  | start | wake => exact h.same (update_field Entry.pid (by rfl)) (fun _ => rfl) ⟨rfl, rfl⟩
  | _ => exact h.same (fun _ => rfl) (fun _ => rfl) ⟨rfl, rfl⟩

end Pids

/-! ## Pages -/

/-- The kernel stack of a slot, and the page table it owns. -/
def Table.held (t : Table κ) : SlotId ⊕ SlotId → Option Nat
  | .inl j => (t.proc j).kstack
  | .inr j => (t.proc j).dir

/-- No page is in two places, and none is freed twice. -/
def PagesOk (t : Table κ) : Prop := Ledger t.held t.freed t.pages

section Pages

variable {t t' : Table κ} {c : κ} {i j : SlotId} {rest : List SlotId} {e : Entry}

theorem PagesOk.same (h : PagesOk t) (hproc : ∀ j, (t'.proc j).kstack = (t.proc j).kstack ∧
    (t'.proc j).dir = (t.proc j).dir) (hlog : t'.freed = t.freed ∧ t'.pages = t.pages) :
    PagesOk t' := by
  have hheld : t'.held = t.held := by
    funext x
    cases x with
    | inl j => exact (hproc j).1
    | inr j => exact (hproc j).2
  rw [PagesOk, hheld, hlog.1, hlog.2]
  exact h

theorem held_kept (he : e.kstack = (t.proc j).kstack ∧ e.dir = (t.proc j).dir) (p : SlotId) :
    (update t.proc j e p).kstack = (t.proc p).kstack ∧
      (update t.proc j e p).dir = (t.proc p).dir :=
  ⟨update_field Entry.kstack he.1 p, update_field Entry.dir he.2 p⟩

theorem held_stack (hproc : t'.proc = update t.proc j e) (he : e.dir = (t.proc j).dir) :
    t'.held = update t.held (.inl j) e.kstack := by
  funext x
  rcases x with p | p
  · by_cases hp : p = j <;> simp [Table.held, hproc, hp]
  · by_cases hp : p = j <;> simp [Table.held, hproc, hp, he]

theorem held_dir (hproc : t'.proc = update t.proc j e)
    (he : e.kstack = (t.proc j).kstack) :
    t'.held = update t.held (.inr j) e.dir := by
  funext x
  rcases x with p | p
  · by_cases hp : p = j <;> simp [Table.held, hproc, hp, he]
  · by_cases hp : p = j <;> simp [Table.held, hproc, hp]

theorem pages_runs (h : PagesOk t) (hfacts : Facts b t) (hlive : t.kinds i = .live)
    (hr : Runs t c i (t.thread i).main t') : PagesOk t' := by
  generalize (t.thread i).main = m at hr
  cases hr with
  | enter | goes | cas => exact h.same (fun _ => ⟨rfl, rfl⟩) ⟨rfl, rfl⟩
  | stay => exact h
  | kalloc j =>
    rw [PagesOk, held_stack (t := t) rfl (by rfl)]
    exact h.issue (.inl j)
  | noStack j =>
    rw [PagesOk, held_stack (t := t) rfl (by rfl)]
    exact h.drop (.inl j)
  | copyuvm j =>
    rw [PagesOk, held_dir (t := t) rfl (by rfl)]
    exact h.issue (.inr j)
  | freeStack j p hp =>
    have hstack : t.held (.inl j) = some p := hp
    rw [PagesOk, held_stack (t := t) rfl (by rfl)]
    exact h.retire hstack
  | exec p hp =>
    have hdir : t.held (.inr i) = some p := (hfacts.live hlive).2.trans hp
    -- the old page table is freed, and its place taken by the new one
    have hexec := (h.retire hdir).issue (.inr i)
    rw [update_idem] at hexec
    rw [PagesOk, held_dir (t := t) rfl (by rfl)]
    exact hexec
  | sigkill | claim | pidStore | noDir | giveUp | setParent =>
    exact h.same (held_kept ⟨rfl, rfl⟩) ⟨rfl, rfl⟩

theorem pages_works [DecidableEq κ] {k : Crit} (h : PagesOk t) (hfacts : Facts b t)
    (hk : (t.thread i).crit = some k) (hw : Works t c i rest k t') : PagesOk t' := by
  cases hw with
  | jumps | release | sched | waitReturn => exact h.same (fun _ => ⟨rfl, rfl⟩) ⟨rfl, rfl⟩
  | waitStack j r p hp =>
    have hstack : t.held (.inl j) = some p := hp
    rw [PagesOk, held_stack (t := t) rfl (by rfl)]
    exact h.retire hstack
  | waitDir j r p hp =>
    have hdir : t.held (.inr j) = some p := (hfacts.taken hk rfl).2.2.trans hp
    rw [PagesOk, held_dir (t := t) rfl (by rfl)]
    exact h.retire hdir
  | publish | yield | sleep | asleep | tidy | wake | adopt | zombie | waitClear | waitOrphan
  | waitUnused => exact h.same (held_kept ⟨rfl, rfl⟩) ⟨rfl, rfl⟩

theorem pages_schedules [DecidableEq κ] (h : PagesOk t) (hs : Schedules t c t') : PagesOk t' := by
  cases hs with
  | start | wake => exact h.same (held_kept ⟨rfl, rfl⟩) ⟨rfl, rfl⟩
  | _ => exact h.same (fun _ => ⟨rfl, rfl⟩) ⟨rfl, rfl⟩

end Pages

/-! ## What `wait` has done -/

/-- A `wait` that can return: the parent has waited, and the child's pages are freed. -/
def Reap.Done (freed : List Page) (r : Reap) : Prop :=
  r.ppid = r.waiter ∧ r.stack ∈ freed.map some ∧ r.dir ∈ freed.map some

/-- No kernel stack was freed for two of these. -/
def Stacks (freed : List Page) (returned : List Reap) : Prop :=
  (returned.map Reap.stack).Sublist (freed.map some)

def Crit.Reaped (freed : List Page) (returned : List Reap) : Crit → Prop
  | .waitStack _ r => r.ppid = r.waiter
  | .waitDir _ r => r.ppid = r.waiter ∧ Stacks freed (r :: returned)
  | .waitClear _ r | .waitOrphan _ r | .waitUnused _ r | .waitReturn r =>
    r.Done freed ∧ Stacks freed (r :: returned)
  | _ => True

structure Reaping (t : Table κ) : Prop where
  /-- A parent is the process that became the parent. -/
  parent : ∀ {j q}, (t.proc j).parent = some q → (t.proc j).ppid = (t.proc q).pid
  crit : ∀ {i k}, (t.thread i).crit = some k → k.Reaped t.freed t.returned
  kstacks : Stacks t.freed t.returned
  returned : ∀ r ∈ t.returned, r.Done t.freed

/-- The fields that say whose child a process is. -/
def Entry.line (e : Entry) : Option SlotId × Word × Word := (e.parent, e.ppid, e.pid)

section Reaping

variable {t t' : Table κ} {c : κ} {i j : SlotId} {rest : List SlotId}

theorem Entry.line_eq {e e' : Entry} (h : e'.line = e.line) :
    e'.parent = e.parent ∧ e'.ppid = e.ppid ∧ e'.pid = e.pid := by
  obtain ⟨hparent, hrest⟩ := Prod.mk.inj h
  exact ⟨hparent, Prod.mk.inj hrest⟩

theorem Stacks.mono {l l' : List Page} {rs : List Reap} (hl : l.Sublist l') (h : Stacks l rs) :
    Stacks l' rs := h.trans (hl.map some)

theorem Reap.Done.mono {l l' : List Page} {r : Reap} (hl : l.Sublist l') (h : r.Done l) :
    r.Done l' :=
  ⟨h.1, (hl.map some).subset h.2.1, (hl.map some).subset h.2.2⟩

theorem Crit.Reaped.mono {l l' : List Page} {rs : List Reap} {k : Crit} (hl : l.Sublist l')
    (h : k.Reaped l rs) : k.Reaped l' rs := by
  cases k with
  | waitDir _ r => exact ⟨h.1, h.2.mono hl⟩
  | waitClear _ r | waitOrphan _ r | waitUnused _ r | waitReturn r =>
    exact ⟨h.1.mono hl, h.2.mono hl⟩
  | _ => exact h

theorem cont_reaped (freed : List Page) (rs : List Reap) (k : Cont) : k.crit.Reaped freed rs := by
  cases k <;> trivial

theorem enters_reaped {m : Main} {k : Crit} (freed : List Page) (rs : List Reap)
    (h : Enters i m k) : k.Reaped freed rs := by
  cases h <;> trivial

theorem parked_reaped {k : Crit} (freed : List Page) (rs : List Reap)
    (h : parked (some k) = true ∨ leaving (some k) = true) : k.Reaped freed rs := by
  cases k with
  | resumed | sched => trivial
  | _ => rcases h with h | h <;> cases h

theorem Reaping.parent_same (h : Reaping t) (hproc : ∀ j, (t'.proc j).line = (t.proc j).line)
    {q : SlotId} (hq : (t'.proc j).parent = some q) : (t'.proc j).ppid = (t'.proc q).pid := by
  obtain ⟨hparent, hppid, _⟩ := Entry.line_eq (hproc j)
  obtain ⟨_, _, hpid⟩ := Entry.line_eq (hproc q)
  rw [hppid, hpid]
  exact h.parent (hparent.symm.trans hq)

theorem Reaping.parent_pid {pid : Word} (h : Reaping t) (hf : FamilyOk t)
    (hx : t.kinds j ≠ .live) {p q : SlotId}
    (hq : (update t.proc j { t.proc j with pid } p).parent = some q) :
    (update t.proc j { t.proc j with pid } p).ppid =
      (update t.proc j { t.proc j with pid } q).pid := by
  rw [update_field Entry.parent (by rfl)] at hq
  have hqj : q ≠ j := by
    intro heq
    subst heq
    exact hx (hf.family.parentLive hq)
  rw [update_field Entry.ppid (by rfl), update_of_ne hqj]
  exact h.parent hq

theorem Reaping.parent_new {q : SlotId} (h : Reaping t) {p x : SlotId}
    (hq : (update t.proc j
      { t.proc j with parent := some q, ppid := (t.proc q).pid } p).parent = some x) :
    (update t.proc j { t.proc j with parent := some q, ppid := (t.proc q).pid } p).ppid =
      (update t.proc j
        { t.proc j with parent := some q, ppid := (t.proc q).pid } x).pid := by
  rw [update_field Entry.pid (by rfl)]
  by_cases hp : p = j
  · subst hp
    rw [update_self] at hq ⊢
    cases hq
    rfl
  · rw [update_of_ne hp] at hq ⊢
    exact h.parent hq

theorem Reaping.parent_none (h : Reaping t) {p q : SlotId}
    (hq : (update t.proc j { t.proc j with parent := none } p).parent = some q) :
    (update t.proc j { t.proc j with parent := none } p).ppid =
      (update t.proc j { t.proc j with parent := none } q).pid := by
  rw [update_field Entry.pid (by rfl), update_field Entry.ppid (by rfl)]
  by_cases hp : p = j
  · rw [hp, update_self] at hq
    cases hq
  · rw [update_of_ne hp] at hq
    exact h.parent hq

theorem Reaping.step (h : Reaping t) (hreturned : t'.returned = t.returned)
    (hfreed : t.freed.Sublist t'.freed)
    (hcrit : ∀ p, (t'.thread p).crit = (t.thread p).crit ∨
      ∀ k, (t'.thread p).crit = some k → k.Reaped t'.freed t.returned)
    (hparent : ∀ {j q}, (t'.proc j).parent = some q → (t'.proc j).ppid = (t'.proc q).pid) :
    Reaping t' where
  parent := hparent
  crit := by
    rw [hreturned]
    intro p k hk
    rcases hcrit p with heq | hnew
    · exact (h.crit (heq.symm.trans hk)).mono hfreed
    · exact hnew k hk
  kstacks := by
    rw [hreturned]
    exact h.kstacks.mono hfreed
  returned := by
    rw [hreturned]
    exact fun r hr => (h.returned r hr).mono hfreed

theorem reaped_update {th : Thread} {freed : List Page} {rs : List Reap}
    (hth : ∀ k, th.crit = some k → k.Reaped freed rs) (p : SlotId) :
    (update t.thread i th p).crit = (t.thread p).crit ∨
      ∀ k, (update t.thread i th p).crit = some k → k.Reaped freed rs := by
  by_cases hp : p = i
  · rw [hp, update_self]
    exact .inr hth
  · rw [update_of_ne hp]
    exact .inl rfl

theorem reaping_runs (h : Reaping t) (hf : FamilyOk t) (hk : (t.thread i).crit = none)
    (hr : Runs t c i (t.thread i).main t') : Reaping t' := by
  generalize hm : (t.thread i).main = m at hr
  have hrefl := List.Sublist.refl t.freed
  have hgoto {m' : Main} {freed : List Page} (k : Crit)
      (hl : ({ t.thread i with main := m' } : Thread).crit = some k) : k.Reaped freed t.returned :=
    nomatch hk.symm.trans hl
  cases hr with
  | enter _ k he _ =>
    refine h.step rfl hrefl (reaped_update fun l hl => ?_) (h.parent_same fun _ => rfl)
    cases hl
    exact enters_reaped _ _ he
  | goes | cas => exact h.step rfl hrefl (reaped_update hgoto) (h.parent_same fun _ => rfl)
  | stay => exact h
  | pidStore j pid =>
    have hj : t.kinds j ≠ .live := hf.not_live_of_has (i := i) (.inl (by rw [hm]; rfl))
    exact h.step rfl hrefl (reaped_update hgoto) (h.parent_pid hf hj)
  | setParent j => exact h.step rfl hrefl (reaped_update hgoto) h.parent_new
  | kalloc j =>
    refine h.step rfl hrefl (fun p => ?_) (h.parent_same (update_field Entry.line (by rfl)))
    simp only [Table.goto, update_main_crit]
    refine reaped_update (fun l hl => ?_) p
    cases hl
    trivial
  | freeStack j p _ =>
    exact h.step rfl (sublist_cons_self ..) (reaped_update hgoto)
      (h.parent_same (update_field Entry.line (by rfl)))
  | exec p _ =>
    exact h.step rfl (sublist_cons_self ..) (fun _ => .inl rfl)
      (h.parent_same (update_field Entry.line (by rfl)))
  | sigkill _ _ =>
    exact h.step rfl hrefl (fun _ => .inl rfl) (h.parent_same (update_field Entry.line (by rfl)))
  | claim | noStack | copyuvm | noDir | giveUp =>
    exact h.step rfl hrefl (reaped_update hgoto) (h.parent_same (update_field Entry.line (by rfl)))

theorem jumps_reaped {k k' : Crit} (h : Reaping t) (hf : FamilyOk t)
    (hk : (t.thread i).crit = some k) (hj : Jumps t i k k') : k'.Reaped t.freed t.returned := by
  cases hj with
  | resumed k | woken _ k => exact cont_reaped _ _ k
  | waitPid j =>
    have hparent : (t.proc j).parent = some i :=
      (hf.family.reaps (j := j) (hf.role_alone hk rfl)).2
    exact h.parent hparent
  | _ => trivial

theorem Reaping.return {r : Reap} (h : Reaping t) (hsched : Sched t)
    (hk : (t.thread i).crit = some (.waitReturn r)) :
    Reaping { t.leave i with returned := r :: t.returned } where
  parent := h.parent
  crit := by
    intro p k hp
    by_cases hpi : p = i
    · simp [hpi] at hp
    · simp only [Table.leave, update_of_ne hpi] at hp
      -- only one process can be in a critical section and not in `sched`
      apply parked_reaped
      by_contra hno
      rw [not_or, Bool.not_eq_true, Bool.not_eq_true] at hno
      exact hpi (hsched.crit_inj hp hk hno.1 rfl hno.2 rfl)
  kstacks := (h.crit hk).2
  returned := by
    intro r' hr'
    rcases List.mem_cons.mp hr' with rfl | hr'
    · exact (h.crit hk).1
    · exact h.returned r' hr'

theorem reaping_works [DecidableEq κ] {k : Crit} (h : Reaping t) (hf : FamilyOk t)
    (hsched : Sched t) (hk : (t.thread i).crit = some k) (hw : Works t c i rest k t') :
    Reaping t' := by
  have hrefl := List.Sublist.refl t.freed
  have hnow := h.crit hk
  have hnext {k' : Crit} {freed : List Page} (hk' : k'.Reaped freed t.returned) (l : Crit)
      (hl : ({ t.thread i with crit := some k' } : Thread).crit = some l) :
      l.Reaped freed t.returned := Option.some.inj hl ▸ hk'
  cases hw with
  | jumps _ k' hj =>
    have hreaped := jumps_reaped h hf hk hj
    exact h.step rfl hrefl (reaped_update (hnext hreaped)) (h.parent_same fun _ => rfl)
  | release _ => exact h.step rfl hrefl (reaped_update nofun) (h.parent_same fun _ => rfl)
  | sched k _ _ =>
    exact h.step rfl hrefl (reaped_update (hnext trivial)) (h.parent_same fun _ => rfl)
  | publish j pid hm =>
    refine h.step rfl hrefl (fun p => ?_) (h.parent_same (update_field Entry.line (by rfl)))
    by_cases hp : p = i
    · refine .inr fun l hl => ?_
      simp only [hp, Table.next, update_self, Option.some.injEq] at hl
      subst hl
      trivial
    · simp [hp]
  | tidy k =>
    exact h.step rfl hrefl (reaped_update (hnext (cont_reaped _ _ k)))
      (h.parent_same (update_field Entry.line (by rfl)))
  | adopt j js => exact h.step rfl hrefl (reaped_update (hnext trivial)) h.parent_new
  | waitStack j r p _ =>
    have hkstacks : Stacks (p :: t.freed) ({ r with stack := some p } :: t.returned) :=
      h.kstacks.cons_cons _
    have hreaped : Crit.Reaped (p :: t.freed) t.returned (.waitDir j { r with stack := some p }) :=
      ⟨hnow, hkstacks⟩
    exact h.step rfl (sublist_cons_self ..) (reaped_update (hnext hreaped))
      (h.parent_same (update_field Entry.line (by rfl)))
  | waitDir j r p _ =>
    have hkstacks := hnow.2.mono (sublist_cons_self p t.freed)
    have hdone : Reap.Done (p :: t.freed) { r with dir := some p } :=
      ⟨hnow.1, hkstacks.subset mem_cons_self, mem_cons_self⟩
    have hreaped : Crit.Reaped (p :: t.freed) t.returned (.waitClear j { r with dir := some p }) :=
      ⟨hdone, hkstacks⟩
    exact h.step rfl (sublist_cons_self ..) (reaped_update (hnext hreaped))
      (h.parent_same (update_field Entry.line (by rfl)))
  | waitClear j r =>
    have hj : t.kinds j ≠ .live := hf.not_live_of_has (i := i) (.inr ⟨_, hk, rfl⟩)
    exact h.step rfl hrefl (reaped_update (hnext hnow)) (h.parent_pid hf hj)
  | waitOrphan j r => exact h.step rfl hrefl (reaped_update (hnext hnow)) h.parent_none
  | waitUnused j r =>
    exact h.step rfl hrefl (reaped_update (hnext hnow))
      (h.parent_same (update_field Entry.line (by rfl)))
  | waitReturn r _ => exact h.return hsched hk
  | yield | sleep | asleep | wake | zombie =>
    exact h.step rfl hrefl (reaped_update (hnext trivial))
      (h.parent_same (update_field Entry.line (by rfl)))

theorem reaping_schedules [DecidableEq κ] (h : Reaping t) (hs : Schedules t c t') :
    Reaping t' := by
  have hrefl := List.Sublist.refl t.freed
  cases hs with
  | start | wake =>
    exact h.step rfl hrefl (fun _ => .inl rfl) (h.parent_same (update_field Entry.line (by rfl)))
  | _ => exact h.step rfl hrefl (fun _ => .inl rfl) (h.parent_same fun _ => rfl)

end Reaping

end Xv6.Ptable
