import Mathlib
import Xv6.LogCommit
import Xv6.Transition

/- Operations that share the log (log.c).

   Any number of processes call `begin_op`, then `log_write` as often as they like,
   then `end_op`, again and again. Their steps interleave: a step is one test or
   store of a field of `log`. `log_write` tests the space without the lock, and the
   process that ends last commits without it.

   History, which no code looks at: the operations are numbered (`ops`), each with
   the blocks it has logged (`cur`); `active` are the processes inside one, `ended`
   the operations that have ended since the last commit, and `commits` what each
   commit has copied to the log, listed in the header and installed, with the
   operations that had ended when it was made.

   1. The three functions and `commit`, step by step (`stepOf`).
   2. The invariant (`Books`): what each process knows at its place in the code
      (`Knows`), who is inside an operation, who commits, and that the list of blocks
      is what the operations of the open group have logged.
   3. `group_commit`: no operation is split. A commit finds no operation outstanding,
      and it covers exactly what the operations that ended since the last one have
      logged.

   `sleep(&log, &log.lock)` is a release, after which the process takes the lock and
   tests again at any time. A process that has paniced takes no more steps. Entries
   of `block` from `LOGSIZE` on stand for the memory behind the array; only operations
   that log more than they may get there.

   Correspondence (C ↔ Lean):
     `log.outstanding`, `log.committing`, `log.lh` ↔ `outstanding`, `committing`, `n`, `block`
     `begin_op`, `log_write`, `end_op`             ↔ `Pc.beginAcquire` .., `Pc.writeFull` .., `Pc.endAcquire` ..
     `commit`, `write_log`, `write_head`, `install_trans` ↔ `Pc.commit` .. `Pc.writeEmpty`
     `MAXOPBLOCKS`, `LOGSIZE`                      ↔ `MAXOPBLOCKS`, `Log.LOGSIZE` -/
namespace Xv6.LogOps
open Function List Bits Log Transition

def MAXOPBLOCKS : Nat := 10

/-- `panic` in log.c. -/
inductive Panic where
  /-- `too big a transaction` -/
  | tooBig
  /-- `log_write outside of trans` -/
  | outside
  /-- `log.committing` -/
  | committing
  deriving DecidableEq

inductive Pc where
  | idle
  /-- In `begin_op`: at `acquire`, at the two tests, at `log.outstanding += 1`, at `release`. -/
  | beginAcquire
  | beginTest
  | beginSpace
  | beginCount
  | beginRelease
  /-- Between `begin_op` and `end_op`, in no function of the log. -/
  | inOp
  /-- In `log_write`: at the three tests, at `acquire`, in the loop at entry `i`, at
  `log.lh.block[i] = b->blockno`, at `if (i == log.lh.n)`, at `release`. -/
  | writeFull (b : Word)
  | writeRoom (b : Word)
  | writeTrans (b : Word)
  | writeAcquire (b : Word)
  | writeScan (b : Word) (i : Nat)
  | writeStore (b : Word) (i : Nat)
  | writeCount (b : Word) (i : Nat)
  | writeRelease
  /-- In `end_op`: at `acquire`, at `log.outstanding -= 1`, at the two tests, at `release`. -/
  | endAcquire
  | endCount
  | endTest
  | endLast
  | endRelease (doCommit : Bool)
  /-- In `commit`: at `if (log.lh.n > 0)`, in the loop of `write_log`, at `write_head`, in the
  loop of `install_trans`, at `log.lh.n = 0`, at `write_head`. -/
  | commit
  | writeLog (tail : Nat) (copied : List Word)
  | writeHead (copied : List Word)
  | installTrans (tail : Nat) (copied header installed : List Word)
  | clearHead (copied header installed : List Word)
  | writeEmpty
  /-- Back in `end_op`: at `acquire`, at `log.committing = 0`, at `release`. -/
  | doneAcquire
  | doneCommit
  | doneRelease
  | panicked (m : Panic)
  deriving DecidableEq

/-- `log.outstanding` counts the process. -/
def Pc.inTrans : Pc → Bool
  | .beginRelease | .inOp | .writeFull _ | .writeRoom _ | .writeTrans _ | .writeAcquire _
  | .writeScan .. | .writeStore .. | .writeCount .. | .writeRelease | .endAcquire | .endCount
  | .panicked _ => true
  | _ => false

/-- The process has set `log.committing` and not cleared it yet. -/
def Pc.inCommit : Pc → Bool
  | .endRelease c => c
  | .commit | .writeLog .. | .writeHead _ | .installTrans .. | .clearHead .. | .writeEmpty
  | .doneAcquire | .doneCommit => true
  | _ => false

/-- An operation: its number and the blocks it has logged. -/
structure Op where
  id : Nat
  blocks : List Word
  deriving DecidableEq

/-- What a commit has done, and the operations it was made for. -/
structure Commit where
  ops : List Op
  copied : List Word
  header : List Word
  installed : List Word
  deriving DecidableEq

structure LogState (π : Type) where
  lock : Option π
  outstanding : Int
  committing : Bool
  n : Nat
  block : Nat → Word
  pc : π → Pc
  cur : π → Op
  active : List π
  committer : Option π
  ops : Nat
  ended : List Op
  commits : List Commit

/-- `log.lh.block[0..k)`. -/
def LogState.blocks {π : Type} (s : LogState π) (k : Nat) : List Word := (range k).map s.block

inductive Choice where
  | go
  | beginOp
  | logWrite (b : Word)
  | endOp

section

variable {π : Type} [DecidableEq π] (size : Nat)

namespace LogState

@[simp] def goto (s : LogState π) (p : π) (k : Pc) : LogState π :=
  { s with pc := update s.pc p k }

def acquire (s : LogState π) (p : π) (k : Pc) : Option (LogState π) :=
  if s.lock = none then some ({ s with lock := some p }.goto p k) else none

def release (s : LogState π) (p : π) (k : Pc) : Option (LogState π) :=
  if s.lock = some p then some ({ s with lock := none }.goto p k) else none

end LogState

/-- The next step of process `p`, which stands at `k`, with `log.size = size`. -/
def goStep (s : LogState π) (p : π) : Pc → Option (LogState π)
  | .idle | .inOp | .panicked _ => none
  | .beginAcquire => s.acquire p .beginTest
  | .beginTest => if s.committing then s.release p .beginAcquire else some (s.goto p .beginSpace)
  | .beginSpace =>
    if s.n + (s.outstanding + 1) * MAXOPBLOCKS > LOGSIZE then s.release p .beginAcquire
    else some (s.goto p .beginCount)
  | .beginCount =>
    some ({ s with
      outstanding := s.outstanding + 1
      active := p :: s.active
      cur := update s.cur p ⟨s.ops, []⟩
      ops := s.ops + 1 }.goto p .beginRelease)
  | .beginRelease => s.release p .inOp
  | .writeFull b => some (s.goto p (if s.n ≥ LOGSIZE then .panicked .tooBig else .writeRoom b))
  | .writeRoom b => some (s.goto p (if s.n + 1 ≥ size then .panicked .tooBig else .writeTrans b))
  | .writeTrans b =>
    some (s.goto p (if s.outstanding < 1 then .panicked .outside else .writeAcquire b))
  | .writeAcquire b => s.acquire p (.writeScan b 0)
  | .writeScan b i =>
    some (s.goto p (if i < s.n ∧ s.block i ≠ b then .writeScan b (i + 1) else .writeStore b i))
  | .writeStore b i =>
    some ({ s with block := update s.block i b }.goto p (.writeCount b i))
  | .writeCount b i =>
    some ({ s with
      n := if i = s.n then s.n + 1 else s.n
      cur := update s.cur p ⟨(s.cur p).id, b :: (s.cur p).blocks⟩ }.goto p .writeRelease)
  | .writeRelease => s.release p .inOp
  | .endAcquire => s.acquire p .endCount
  | .endCount =>
    some ({ s with
      outstanding := s.outstanding - 1
      active := s.active.erase p
      ended := s.cur p :: s.ended }.goto p .endTest)
  | .endTest => some (s.goto p (if s.committing then .panicked .committing else .endLast))
  | .endLast =>
    if s.outstanding = 0 then
      some ({ s with committing := true, committer := some p }.goto p (.endRelease true))
    -- wakeup(&log): who waits in begin_op can test again
    else some (s.goto p (.endRelease false))
  | .endRelease doCommit => s.release p (if doCommit then .commit else .idle)
  | .commit =>
    if 0 < s.n then some (s.goto p (.writeLog 0 []))
    else
      some ({ s with ended := [], commits := ⟨s.ended, [], [], []⟩ :: s.commits }.goto p .doneAcquire)
  | .writeLog tail copied =>
    some (s.goto p
      (if tail < s.n then .writeLog (tail + 1) (copied ++ [s.block tail]) else .writeHead copied))
  | .writeHead copied => some (s.goto p (.installTrans 0 copied (s.blocks s.n) []))
  | .installTrans tail copied header installed =>
    some (s.goto p
      (if tail < s.n then .installTrans (tail + 1) copied header (installed ++ [s.block tail])
       else .clearHead copied header installed))
  | .clearHead copied header installed =>
    some ({ s with
      n := 0
      ended := []
      commits := ⟨s.ended, copied, header, installed⟩ :: s.commits }.goto p .writeEmpty)
  | .writeEmpty => some (s.goto p .doneAcquire)
  | .doneAcquire => s.acquire p .doneCommit
  | .doneCommit => some ({ s with committing := false, committer := none }.goto p .doneRelease)
  | .doneRelease => s.release p .idle

def stepOf (s : LogState π) (l : π × Choice) : Option (LogState π) :=
  match s.pc l.1, l.2 with
  | k, .go => goStep size s l.1 k
  | .idle, .beginOp => some (s.goto l.1 .beginAcquire)
  | .inOp, .logWrite b => some (s.goto l.1 (.writeFull b))
  | .inOp, .endOp => some (s.goto l.1 .endAcquire)
  | _, _ => none

end

def start {π : Type} : LogState π where
  lock := none
  outstanding := 0
  committing := false
  n := 0
  block := fun _ => 0
  pc := fun _ => .idle
  cur := fun _ => ⟨0, []⟩
  active := []
  committer := none
  ops := 0
  ended := []
  commits := []

/-! ## What a process knows -/

section

variable {π : Type}

/-- What process `p` knows at `k`. Under the lock it knows what it has tested; without
it, only the process that commits knows the list of blocks. -/
def Knows (s : LogState π) (p : π) : Pc → Prop
  | .beginTest | .beginRelease | .writeRelease | .endCount | .endRelease _ | .doneCommit
  | .doneRelease => s.lock = some p
  | .beginSpace | .beginCount | .endTest | .endLast => s.lock = some p ∧ s.committing = false
  | .writeScan b i => s.lock = some p ∧ i ≤ s.n ∧ ∀ j < i, s.block j ≠ b
  | .writeStore b i =>
    s.lock = some p ∧ i ≤ s.n ∧ (∀ j < i, s.block j ≠ b) ∧ (i < s.n → s.block i = b)
  | .writeCount b i => s.lock = some p ∧ i ≤ s.n ∧ (∀ j < i, s.block j ≠ b) ∧ s.block i = b
  | .writeLog tail copied => tail ≤ s.n ∧ copied = s.blocks tail
  | .writeHead copied => copied = s.blocks s.n
  | .installTrans tail copied header installed =>
    tail ≤ s.n ∧ copied = s.blocks s.n ∧ header = s.blocks s.n ∧ installed = s.blocks tail
  | .clearHead copied header installed =>
    copied = s.blocks s.n ∧ header = s.blocks s.n ∧ installed = s.blocks s.n
  | .panicked m => m = .tooBig
  | .idle | .beginAcquire | .inOp | .writeFull _ | .writeRoom _ | .writeTrans _ | .writeAcquire _
  | .endAcquire | .commit | .writeEmpty | .doneAcquire => True

/-- The commit made three times the same list, without repetition, and it is what its
operations have logged. -/
structure Commit.Exact (c : Commit) : Prop where
  copied : c.copied = c.header
  installed : c.installed = c.header
  nodup : c.header.Nodup
  covers : ∀ b, b ∈ c.header ↔ ∃ op ∈ c.ops, b ∈ op.blocks

/-- All operations so far: of the commits, of the open group, and those still active. -/
def LogState.allOps (s : LogState π) : List Op :=
  s.commits.flatMap Commit.ops ++ s.ended ++ s.active.map s.cur

structure Control (s : LogState π) : Prop where
  knows : ∀ p, Knows s p (s.pc p)
  active : ∀ p, p ∈ s.active ↔ (s.pc p).inTrans = true
  nodup : s.active.Nodup
  outstanding : s.outstanding = s.active.length
  committing : s.committing = true ↔ s.committer ≠ none
  committer : ∀ p, (s.pc p).inCommit = true ↔ s.committer = some p
  alone : s.committing = true → s.active = []

structure Contents (s : LogState π) : Prop where
  nodup : (s.blocks s.n).Nodup
  covers : ∀ b, b ∈ s.blocks s.n ↔
    (∃ op ∈ s.ended, b ∈ op.blocks) ∨ ∃ p ∈ s.active, b ∈ (s.cur p).blocks
  commits : ∀ c ∈ s.commits, c.Exact
  /-- Every operation is in one of these places, once. -/
  ids : (s.allOps.map Op.id).Perm (range s.ops)

theorem Control.committing_of_inCommit {s : LogState π} (h : Control s) {p : π}
    (hp : (s.pc p).inCommit = true) : s.committing = true := by
  rw [h.committing, (h.committer p).mp hp]
  simp

theorem Control.committing_eq_false {s : LogState π} (h : Control s) {p : π}
    (hp : (s.pc p).inTrans = true) : s.committing = false := by
  by_contra hc
  have hmem := (h.active p).mpr hp
  rw [h.alone (by simpa using hc)] at hmem
  cases hmem

theorem Control.not_inCommit {s : LogState π} (h : Control s) {p : π}
    (hp : (s.pc p).inTrans = true) (q : π) : (s.pc q).inCommit ≠ true := by
  intro hq
  have := h.committing_of_inCommit hq
  rw [h.committing_eq_false hp] at this
  cases this

/-- What the knowledge of a process rests on: the lock, if it has it, and the list of
blocks, if it is in the middle of logging one or commits. -/
theorem Knows.congr {s t : LogState π} {p : π} {k : Pc} (h : Knows s p k)
    (hlock : s.lock = some p → t.lock = some p ∧ t.committing = s.committing)
    (hlist : s.lock = some p ∧ k.inTrans = true ∨ k.inCommit = true → t.n = s.n ∧ t.block = s.block) :
    Knows t p k := by
  cases k with
  | beginTest | beginRelease | writeRelease | endCount | endRelease | doneCommit | doneRelease =>
    exact (hlock h).1
  | beginSpace | beginCount | endTest | endLast =>
    obtain ⟨hl, hc⟩ := h
    exact ⟨(hlock hl).1, (hlock hl).2.trans hc⟩
  | writeScan b i | writeStore b i | writeCount b i =>
    obtain ⟨hl, h⟩ := h
    obtain ⟨hn, hb⟩ := hlist (.inl ⟨hl, rfl⟩)
    exact ⟨(hlock hl).1, by rw [hn, hb]; exact h⟩
  | writeLog | writeHead | installTrans | clearHead =>
    obtain ⟨hn, hb⟩ := hlist (.inr rfl)
    simpa only [Knows, LogState.blocks, hn, hb] using h
  | panicked => exact h
  | idle | beginAcquire | inOp | writeFull | writeRoom | writeTrans | writeAcquire | endAcquire
  | commit | writeEmpty | doneAcquire => trivial

/-! ## Who is where -/

section

variable {s t : LogState π} {p : π}

theorem Control.knows_of_inTrans (h : Control s) (hheld : s.lock = some p)
    (hp : (s.pc p).inTrans = true) (q : π) (hq : q ≠ p) : Knows t q (s.pc q) := by
  have hno : s.lock ≠ some q := by
    rw [hheld]
    simpa using Ne.symm hq
  refine (h.knows q).congr (fun hl => absurd hl hno) ?_
  rintro (⟨hl, -⟩ | hc)
  · exact absurd hl hno
  · exact absurd hc (h.not_inCommit hp q)

theorem Control.knows_of_lock (h : Control s) (hheld : s.lock = some p) (hn : t.n = s.n)
    (hb : t.block = s.block) (q : π) (hq : q ≠ p) : Knows t q (s.pc q) := by
  have hno : s.lock ≠ some q := by
    rw [hheld]
    simpa using Ne.symm hq
  exact (h.knows q).congr (fun hl => absurd hl hno) fun _ => ⟨hn, hb⟩

theorem Control.knows_of_inCommit (h : Control s) (hp : (s.pc p).inCommit = true)
    (hl : t.lock = s.lock) (hc : t.committing = s.committing) (q : π) (hq : q ≠ p) :
    Knows t q (s.pc q) := by
  refine (h.knows q).congr (fun hlock => ⟨hl.trans hlock, hc⟩) ?_
  rintro (⟨-, htrans⟩ | hcommit)
  · exact absurd hp (h.not_inCommit htrans p)
  · have := (h.committer q).mp hcommit
    rw [(h.committer p).mp hp] at this
    exact absurd (Option.some.inj this).symm hq

end

variable [DecidableEq π] {s t : LogState π} {p : π} {k : Pc}

theorem Control.goto (h : Control s) (hpc : t.pc = update s.pc p k) (hk : Knows t p k)
    (hknows : ∀ q ≠ p, Knows t q (s.pc q)) (hact : t.active = s.active)
    (hout : t.outstanding = s.outstanding) (hcomm : t.committing = s.committing)
    (hcter : t.committer = s.committer) (htrans : k.inTrans = (s.pc p).inTrans)
    (hcommit : k.inCommit = (s.pc p).inCommit) : Control t where
  knows := by
    intro q
    rw [hpc]
    by_cases hq : q = p
    · subst hq
      simpa using hk
    · simpa [hq] using hknows q hq
  active := by
    intro q
    rw [hact, hpc]
    by_cases hq : q = p
    · subst hq
      simpa [htrans] using h.active q
    · simpa [hq] using h.active q
  nodup := hact ▸ h.nodup
  outstanding := by rw [hout, hact, h.outstanding]
  committing := by rw [hcomm, hcter, h.committing]
  committer := by
    intro q
    rw [hcter, hpc]
    by_cases hq : q = p
    · subst hq
      simpa [hcommit] using h.committer q
    · simpa [hq] using h.committer q
  alone := by
    rw [hcomm, hact]
    exact h.alone

theorem Control.move (h : Control s) (hk : Knows (s.goto p k) p k)
    (htrans : k.inTrans = (s.pc p).inTrans) (hcommit : k.inCommit = (s.pc p).inCommit) :
    Control (s.goto p k) :=
  h.goto rfl hk (fun q _ => (h.knows q).congr (fun hl => ⟨hl, rfl⟩) fun _ => ⟨rfl, rfl⟩) rfl rfl rfl rfl
    htrans hcommit

theorem Control.acquire (h : Control s) (hs : s.acquire p k = some t) (hk : s.lock = none → Knows t p k)
    (htrans : k.inTrans = (s.pc p).inTrans) (hcommit : k.inCommit = (s.pc p).inCommit) : Control t := by
  rw [LogState.acquire] at hs
  split at hs <;> cases hs
  rename_i hfree
  refine h.goto rfl (hk hfree) (fun q _ => (h.knows q).congr (fun hl => ?_) fun _ => ⟨rfl, rfl⟩) rfl rfl rfl
    rfl htrans hcommit
  rw [hfree] at hl
  cases hl

theorem Control.release (h : Control s) (hs : s.release p k = some t) (hk : Knows t p k)
    (htrans : k.inTrans = (s.pc p).inTrans) (hcommit : k.inCommit = (s.pc p).inCommit) : Control t := by
  rw [LogState.release] at hs
  split at hs <;> cases hs
  rename_i hheld
  refine h.goto rfl hk (fun q hq => (h.knows q).congr (fun hl => ?_) fun _ => ⟨rfl, rfl⟩) rfl rfl rfl
    rfl htrans hcommit
  rw [hheld] at hl
  cases hl
  exact absurd rfl hq

/-- `log.outstanding += 1`. -/
theorem Control.begin (h : Control s) (hpc : s.pc p = .beginCount)
    (hpc' : t.pc = update s.pc p .beginRelease) (hlock : t.lock = s.lock) (hn : t.n = s.n)
    (hb : t.block = s.block) (hact : t.active = p :: s.active)
    (hout : t.outstanding = s.outstanding + 1) (hcomm : t.committing = s.committing)
    (hcter : t.committer = s.committer) : Control t := by
  obtain ⟨hheld, hfree⟩ : s.lock = some p ∧ s.committing = false := by
    have := h.knows p
    rwa [hpc] at this
  have hnot : p ∉ s.active := by rw [h.active, hpc]; decide
  refine ⟨?_, ?_, ?_, ?_, by rw [hcomm, hcter, h.committing], ?_, ?_⟩
  · intro q
    rw [hpc']
    by_cases hq : q = p
    · subst hq
      simpa [Knows, hlock] using hheld
    · simpa [hq] using h.knows_of_lock hheld hn hb q hq
  · intro q
    rw [hact, hpc']
    by_cases hq : q = p
    · subst hq
      rw [update_self]
      exact ⟨fun _ => rfl, fun _ => mem_cons_self⟩
    · simpa [hq] using h.active q
  · rw [hact]
    exact List.nodup_cons.mpr ⟨hnot, h.nodup⟩
  · rw [hout, hact, h.outstanding, length_cons]
    omega
  · intro q
    rw [hcter, hpc']
    by_cases hq : q = p
    · subst hq
      rw [update_self, ← h.committer, hpc]
      decide
    · simpa [hq] using h.committer q
  · rw [hcomm, hfree]
    exact fun h => absurd h (by decide)

theorem Control.end (h : Control s) (hpc : s.pc p = .endCount)
    (hpc' : t.pc = update s.pc p .endTest) (hlock : t.lock = s.lock)
    (hact : t.active = s.active.erase p) (hout : t.outstanding = s.outstanding - 1)
    (hcomm : t.committing = s.committing) (hcter : t.committer = s.committer) : Control t := by
  have hheld : s.lock = some p := by
    have := h.knows p
    rwa [hpc] at this
  have htrans : (s.pc p).inTrans = true := by rw [hpc]; rfl
  have hmem : p ∈ s.active := (h.active p).mpr htrans
  have hfree := h.committing_eq_false htrans
  refine ⟨?_, ?_, ?_, ?_, by rw [hcomm, hcter, h.committing], ?_, ?_⟩
  · intro q
    rw [hpc']
    by_cases hq : q = p
    · subst hq
      simpa [Knows, hlock, hcomm] using And.intro hheld hfree
    · simpa [hq] using h.knows_of_inTrans hheld htrans q hq
  · intro q
    rw [hact, hpc', h.nodup.mem_erase_iff]
    by_cases hq : q = p
    · subst hq
      rw [update_self]
      exact ⟨fun h => absurd rfl h.1, fun h => absurd h (by decide)⟩
    · simpa [hq] using h.active q
  · rw [hact]
    exact h.nodup.erase p
  · rw [hout, hact, h.outstanding, length_erase_of_mem hmem]
    have := length_pos_of_mem hmem
    omega
  · intro q
    rw [hcter, hpc']
    by_cases hq : q = p
    · subst hq
      rw [update_self, ← h.committer, hpc]
      decide
    · simpa [hq] using h.committer q
  · rw [hcomm, hfree]
    exact fun h => absurd h (by decide)

/-- `log.committing = 1` by the last to leave, and `log.committing = 0`. -/
theorem Control.commit (h : Control s) (hheld : s.lock = some p) {c : Bool}
    (hpc' : t.pc = update s.pc p k) (hk : Knows t p k) (hn : t.n = s.n)
    (hb : t.block = s.block) (hact : t.active = s.active) (hout : t.outstanding = s.outstanding)
    (hcomm : t.committing = c) (hcter : t.committer = if c then some p else none)
    (halone : c = true → s.active = []) (htrans : k.inTrans = (s.pc p).inTrans)
    (hcommit : k.inCommit = c) (honly : s.committer = none ∨ s.committer = some p) : Control t := by
  refine ⟨?_, ?_, hact ▸ h.nodup, by rw [hout, hact, h.outstanding], ?_, ?_, ?_⟩
  · intro q
    rw [hpc']
    by_cases hq : q = p
    · subst hq
      simpa using hk
    · simpa [hq] using h.knows_of_lock hheld hn hb q hq
  · intro q
    rw [hact, hpc']
    by_cases hq : q = p
    · subst hq
      simpa [htrans] using h.active q
    · simpa [hq] using h.active q
  · rw [hcomm, hcter]
    cases c <;> simp
  · intro q
    rw [hcter, hpc']
    by_cases hq : q = p
    · subst hq
      cases c <;> simp [hcommit]
    · have hsq : s.committer ≠ some q := by
        rcases honly with honly | honly <;> rw [honly]
        · simp
        · simpa using Ne.symm hq
      have := (h.committer q).not.mpr hsq
      cases c <;> simpa [hq, Ne.symm hq] using this
  · rw [hcomm, hact]
    exact halone

/-! ## What the log holds -/

omit [DecidableEq π] in
theorem Contents.congr (h : Contents s) (hn : t.n = s.n) (hb : t.blocks s.n = s.blocks s.n)
    (hact : t.active = s.active) (hcur : t.cur = s.cur) (hops : t.ops = s.ops)
    (hend : t.ended = s.ended) (hcommits : t.commits = s.commits) : Contents t := by
  have hall : t.allOps = s.allOps := by simp only [LogState.allOps, hact, hcur, hend, hcommits]
  refine ⟨by rw [hn, hb]; exact h.nodup, fun b => ?_, hcommits ▸ h.commits, ?_⟩
  · rw [hn, hb, hend, hact, hcur]
    exact h.covers b
  · rw [hall, hops]
    exact h.ids

theorem Contents.begin (h : Contents s) (hnot : p ∉ s.active) (hn : t.n = s.n) (hb : t.block = s.block)
    (hact : t.active = p :: s.active) (hcur : t.cur = update s.cur p ⟨s.ops, []⟩)
    (hops : t.ops = s.ops + 1) (hend : t.ended = s.ended) (hcommits : t.commits = s.commits) :
    Contents t := by
  have hother : ∀ q ∈ s.active, t.cur q = s.cur q := by
    intro q hq
    rw [hcur, update_of_ne]
    rintro rfl
    exact hnot hq
  have hself : t.cur p = ⟨s.ops, []⟩ := by rw [hcur, update_self]
  have hall : t.allOps = (s.commits.flatMap Commit.ops ++ s.ended) ++ ⟨s.ops, []⟩ :: s.active.map s.cur := by
    rw [LogState.allOps, hact, hend, hcommits, map_cons, hself, map_congr_left hother]
  refine ⟨by rw [hn, LogState.blocks, hb]; exact h.nodup, fun b => ?_, hcommits ▸ h.commits, ?_⟩
  · rw [hn, LogState.blocks, hb, hend, hact]
    refine (h.covers b).trans (or_congr_right ?_)
    constructor
    · rintro ⟨q, hq, hmem⟩
      exact ⟨q, mem_cons_of_mem _ hq, hother q hq ▸ hmem⟩
    · rintro ⟨q, hq, hmem⟩
      rcases List.mem_cons.mp hq with rfl | hq
      · rw [hself] at hmem
        cases hmem
      · exact ⟨q, hq, hother q hq ▸ hmem⟩
  · rw [hall, hops, map_append, map_cons, range_succ]
    refine List.perm_middle.trans (.trans ?_ (perm_append_singleton _ _).symm)
    rw [← map_append]
    exact h.ids.cons s.ops

omit [DecidableEq π] in
theorem blocks_update {i : Nat} {b : Word} (hi : i < s.n → s.block i = b)
    (hb : t.block = update s.block i b) : t.blocks s.n = s.blocks s.n := by
  refine map_congr_left fun j hj => ?_
  rw [hb]
  by_cases hji : j = i
  · subst hji
    rw [update_self, hi (List.mem_range.mp hj)]
  · rw [update_of_ne hji]

/-- The end of `log_write`: block `b` is at entry `i`, which may be the first new one. -/
theorem Contents.count (h : Contents s) {b : Word} {i : Nat} (hp : p ∈ s.active) (hi : i ≤ s.n)
    (hbefore : ∀ j < i, s.block j ≠ b) (hat : s.block i = b)
    (hn : t.n = if i = s.n then s.n + 1 else s.n) (hb : t.block = s.block) (hact : t.active = s.active)
    (hcur : t.cur = update s.cur p ⟨(s.cur p).id, b :: (s.cur p).blocks⟩)
    (hops : t.ops = s.ops) (hend : t.ended = s.ended) (hcommits : t.commits = s.commits) :
    Contents t := by
  have hmem : ∀ x, x ∈ t.blocks t.n ↔ x = b ∨ x ∈ s.blocks s.n := by
    intro x
    by_cases hlast : i = s.n
    · rw [hn, if_pos hlast, LogState.blocks, hb, range_succ, map_append, mem_append,
        or_comm, ← hlast]
      simp [hat, LogState.blocks]
    · rw [hn, if_neg hlast, LogState.blocks, hb]
      refine ⟨.inr, ?_⟩
      rintro (rfl | hx)
      · exact List.mem_map.mpr ⟨i, List.mem_range.mpr (by omega), hat⟩
      · exact hx
  have hids : t.allOps.map Op.id = s.allOps.map Op.id := by
    have : (Op.id ∘ t.cur) = Op.id ∘ s.cur := by
      funext q
      by_cases hq : q = p
      · simp [hcur, hq]
      · simp [hcur, hq]
    simp only [LogState.allOps, hact, hend, hcommits, map_append, map_map, this]
  refine ⟨?_, fun x => ?_, hcommits ▸ h.commits, by rw [hids, hops]; exact h.ids⟩
  · rw [hn, LogState.blocks, hb]
    split
    · rename_i hlast
      rw [range_succ, map_append, nodup_append]
      refine ⟨h.nodup, nodup_singleton _, ?_⟩
      intro x hx y hy
      obtain ⟨j, hj, rfl⟩ := List.mem_map.mp hx
      rw [map_singleton, mem_singleton, ← hlast, hat] at hy
      rw [hy]
      exact hbefore j (hlast ▸ List.mem_range.mp hj)
    · exact h.nodup
  · rw [hmem, h.covers, hend, hact, ← or_assoc, or_comm (a := x = b), or_assoc]
    refine or_congr_right ?_
    constructor
    · rintro (rfl | ⟨q, hq, hx⟩)
      · exact ⟨p, hp, by simp [hcur]⟩
      · refine ⟨q, hq, ?_⟩
        by_cases hqp : q = p
        · subst hqp
          simp [hcur, hx]
        · simpa [hcur, hqp] using hx
    · rintro ⟨q, hq, hx⟩
      by_cases hqp : q = p
      · subst hqp
        have : x = b ∨ x ∈ (s.cur q).blocks := by simpa [hcur] using hx
        exact this.imp_right fun hx => ⟨q, hq, hx⟩
      · exact .inr ⟨q, hq, by simpa [hcur, hqp] using hx⟩

theorem Contents.end (h : Contents s) (hp : p ∈ s.active) (hn : t.n = s.n)
    (hb : t.block = s.block) (hact : t.active = s.active.erase p) (hcur : t.cur = s.cur)
    (hops : t.ops = s.ops) (hend : t.ended = s.cur p :: s.ended) (hcommits : t.commits = s.commits) :
    Contents t := by
  have hperm : t.allOps.Perm s.allOps := by
    rw [LogState.allOps, LogState.allOps, hact, hend, hcommits, hcur, append_assoc, append_assoc]
    refine List.Perm.append_left _ ?_
    have := (perm_cons_erase hp).symm.map s.cur
    rw [map_cons] at this
    exact List.perm_middle.symm.trans (List.Perm.append_left _ this)
  refine ⟨by rw [hn, LogState.blocks, hb]; exact h.nodup, fun b => ?_, hcommits ▸ h.commits,
    (hperm.map Op.id).trans (hops ▸ h.ids)⟩
  rw [hn, LogState.blocks, hb, hend, hact, hcur]
  refine (h.covers b).trans ?_
  constructor
  · rintro (⟨op, hop, hmem⟩ | ⟨q, hq, hmem⟩)
    · exact .inl ⟨op, mem_cons_of_mem _ hop, hmem⟩
    · by_cases hqp : q = p
      · exact .inl ⟨s.cur p, mem_cons_self, hqp ▸ hmem⟩
      · exact .inr ⟨q, (mem_erase_of_ne hqp).mpr hq, hmem⟩
  · rintro (⟨op, hop, hmem⟩ | ⟨q, hq, hmem⟩)
    · rcases List.mem_cons.mp hop with rfl | hop
      · exact .inr ⟨p, hp, hmem⟩
      · exact .inl ⟨op, hop, hmem⟩
    · exact .inr ⟨q, mem_of_mem_erase hq, hmem⟩

omit [DecidableEq π] in
/-- A commit takes over what the group has logged, and the list starts anew. -/
theorem Contents.commit (h : Contents s) {c : Commit} (hactive : s.active = []) (hn : t.n = 0)
    (hact : t.active = s.active) (hops : t.ops = s.ops) (hend : t.ended = [])
    (hcommits : t.commits = c :: s.commits) (hc : c.ops = s.ended) (hcopied : c.copied = s.blocks s.n)
    (hheader : c.header = s.blocks s.n) (hinst : c.installed = s.blocks s.n) : Contents t := by
  have hexact : c.Exact := by
    refine ⟨hcopied.trans hheader.symm, hinst.trans hheader.symm, hheader ▸ h.nodup, fun b => ?_⟩
    rw [hheader, h.covers, hactive, hc]
    simp
  have hperm : t.allOps.Perm s.allOps := by
    rw [LogState.allOps, LogState.allOps, hact, hactive, hend, hcommits, flatMap_cons, hc]
    simpa using perm_append_comm
  refine ⟨by simp [hn, LogState.blocks], fun b => ?_, ?_, (hperm.map Op.id).trans (hops ▸ h.ids)⟩
  · simp [hn, LogState.blocks, hend, hact, hactive]
  · rw [hcommits]
    intro d hd
    rcases List.mem_cons.mp hd with rfl | hd
    · exact hexact
    · exact h.commits d hd

/-! ## Runs -/

structure Books (s : LogState π) : Prop where
  control : Control s
  contents : Contents s

omit [DecidableEq π] in
theorem blocks_succ (i : Nat) : s.blocks (i + 1) = s.blocks i ++ [s.block i] := by
  simp [LogState.blocks, range_succ]

theorem Books.move (h : Books s) {k₀ : Pc} (hpc : s.pc p = k₀) (hk : Knows (s.goto p k) p k)
    (htrans : k.inTrans = k₀.inTrans) (hcommit : k.inCommit = k₀.inCommit) : Books (s.goto p k) :=
  ⟨h.control.move hk (hpc ▸ htrans) (hpc ▸ hcommit), h.contents.congr rfl rfl rfl rfl rfl rfl rfl⟩

theorem Books.acquire (h : Books s) {k₀ : Pc} (hpc : s.pc p = k₀) (hs : s.acquire p k = some t)
    (hk : Knows t p k) (htrans : k.inTrans = k₀.inTrans) (hcommit : k.inCommit = k₀.inCommit) :
    Books t := by
  refine ⟨h.control.acquire hs (fun _ => hk) (hpc ▸ htrans) (hpc ▸ hcommit), ?_⟩
  rw [LogState.acquire] at hs
  split at hs <;> cases hs
  exact h.contents.congr rfl rfl rfl rfl rfl rfl rfl

theorem Books.release (h : Books s) {k₀ : Pc} (hpc : s.pc p = k₀) (hs : s.release p k = some t)
    (hk : Knows t p k) (htrans : k.inTrans = k₀.inTrans) (hcommit : k.inCommit = k₀.inCommit) :
    Books t := by
  refine ⟨h.control.release hs hk (hpc ▸ htrans) (hpc ▸ hcommit), ?_⟩
  rw [LogState.release] at hs
  split at hs <;> cases hs
  exact h.contents.congr rfl rfl rfl rfl rfl rfl rfl

theorem LogState.lock_of_acquire (hs : s.acquire p k = some t) :
    t.lock = some p ∧ t.n = s.n ∧ t.block = s.block := by
  rw [LogState.acquire] at hs
  split at hs <;> cases hs
  exact ⟨rfl, rfl, rfl⟩

theorem books_goStep {size : Nat} (h : Books s) (hpc : s.pc p = k)
    (hs : goStep size s p k = some t) : Books t := by
  have hp := h.control.knows p
  have hact := h.control.active p
  rw [hpc] at hp hact
  cases k with
  | idle | inOp | panicked => cases hs
  | beginAcquire => exact h.acquire hpc hs (LogState.lock_of_acquire hs).1 rfl rfl
  | beginTest =>
    simp only [goStep] at hs
    split at hs
    · exact h.release hpc hs trivial rfl rfl
    · rename_i hc
      cases hs
      exact h.move hpc ⟨hp, by simpa using hc⟩ rfl rfl
  | beginSpace =>
    simp only [goStep] at hs
    split at hs
    · exact h.release hpc hs trivial rfl rfl
    · cases hs
      exact h.move hpc hp rfl rfl
  | beginCount =>
    cases hs
    have hnot : p ∉ s.active := by rw [hact]; decide
    exact ⟨h.control.begin hpc rfl rfl rfl rfl rfl rfl rfl rfl,
      h.contents.begin hnot rfl rfl rfl rfl rfl rfl rfl⟩
  | beginRelease | writeRelease =>
    exact h.release hpc hs trivial rfl rfl
  | writeFull b =>
    cases hs
    split
    · exact h.move hpc rfl rfl rfl
    · exact h.move hpc trivial rfl rfl
  | writeRoom b =>
    cases hs
    split
    · exact h.move hpc rfl rfl rfl
    · exact h.move hpc trivial rfl rfl
  | writeTrans b =>
    cases hs
    -- the process itself is outstanding
    have hpos : ¬s.outstanding < 1 := by
      have := length_pos_of_mem (hact.mpr rfl)
      rw [h.control.outstanding]
      omega
    rw [if_neg hpos]
    exact h.move hpc trivial rfl rfl
  | writeAcquire b =>
    obtain ⟨hl, hn, hb⟩ := LogState.lock_of_acquire hs
    exact h.acquire hpc hs ⟨hl, Nat.zero_le _, by simp⟩ rfl rfl
  | writeScan b i =>
    obtain ⟨hl, hi, hbefore⟩ := hp
    cases hs
    split
    · rename_i hnext
      refine h.move hpc ⟨hl, hnext.1, fun j hj => ?_⟩ rfl rfl
      rcases Nat.lt_succ_iff_lt_or_eq.mp hj with hj | rfl
      · exact hbefore j hj
      · exact hnext.2
    · rename_i hstop
      refine h.move hpc ⟨hl, hi, hbefore, fun hlt => ?_⟩ rfl rfl
      by_contra hne
      exact hstop ⟨hlt, hne⟩
  | writeStore b i =>
    obtain ⟨hl, hi, hbefore, hat⟩ := hp
    cases hs
    have htrans : (s.pc p).inTrans = true := by rw [hpc]; rfl
    refine ⟨h.control.goto (p := p) (k := .writeCount b i) rfl ⟨hl, hi, fun j hj => ?_, ?_⟩
      (h.control.knows_of_inTrans hl htrans) rfl rfl rfl rfl htrans.symm (by rw [hpc]; rfl),
      h.contents.congr rfl (blocks_update hat rfl) rfl rfl rfl rfl rfl⟩
    · have hne : j ≠ i := by omega
      simpa [hne] using hbefore j hj
    · simp
  | writeCount b i =>
    obtain ⟨hl, hi, hbefore, hat⟩ := hp
    cases hs
    have htrans : (s.pc p).inTrans = true := by rw [hpc]; rfl
    exact ⟨h.control.goto (p := p) (k := .writeRelease) rfl hl (h.control.knows_of_inTrans hl htrans)
      rfl rfl rfl rfl htrans.symm (by rw [hpc]; rfl),
      h.contents.count (hact.mpr rfl) hi hbefore hat rfl rfl rfl rfl rfl rfl rfl⟩
  | endAcquire => exact h.acquire hpc hs (LogState.lock_of_acquire hs).1 rfl rfl
  | endCount =>
    cases hs
    exact ⟨h.control.end hpc rfl rfl rfl rfl rfl rfl,
      h.contents.end (hact.mpr rfl) rfl rfl rfl rfl rfl rfl rfl⟩
  | endTest =>
    cases hs
    rw [hp.2]
    exact h.move hpc hp rfl rfl
  | endLast =>
    obtain ⟨hl, hfree⟩ := hp
    simp only [goStep] at hs
    split at hs
    · rename_i hzero
      cases hs
      have hnone : s.active = [] := by
        rw [h.control.outstanding] at hzero
        exact List.length_eq_zero_iff.mp (by omega)
      have hcter : s.committer = none := by
        by_contra hne
        have := h.control.committing.mpr hne
        rw [hfree] at this
        cases this
      exact ⟨h.control.commit (p := p) (k := .endRelease true) (c := true) hl rfl hl rfl rfl rfl rfl rfl
        rfl (fun _ => hnone) (by rw [hpc]; rfl) rfl (.inl hcter),
        h.contents.congr rfl rfl rfl rfl rfl rfl rfl⟩
    · cases hs
      exact h.move hpc hl rfl rfl
  | endRelease doCommit =>
    cases doCommit <;> exact h.release hpc hs trivial rfl rfl
  | commit =>
    have hcommit : (s.pc p).inCommit = true := by rw [hpc]; rfl
    simp only [goStep] at hs
    split at hs
    · cases hs
      exact h.move hpc ⟨Nat.zero_le _, rfl⟩ rfl rfl
    · rename_i hzero
      have hn : s.n = 0 := by omega
      cases hs
      have hempty : s.blocks s.n = [] := by rw [hn]; rfl
      exact ⟨h.control.goto (p := p) (k := .doneAcquire) rfl trivial
        (h.control.knows_of_inCommit hcommit rfl rfl) rfl rfl rfl rfl (by rw [hpc]; rfl) hcommit.symm,
        h.contents.commit (c := ⟨s.ended, [], [], []⟩)
          (h.control.alone (h.control.committing_of_inCommit hcommit)) hn rfl rfl rfl rfl rfl
          hempty.symm hempty.symm hempty.symm⟩
  | writeLog tail copied =>
    obtain ⟨hle, hcopied⟩ := hp
    cases hs
    split
    · rename_i hlt
      refine h.move hpc ⟨hlt, ?_⟩ rfl rfl
      rw [hcopied]
      exact (blocks_succ tail).symm
    · have : tail = s.n := by omega
      subst this
      exact h.move hpc hcopied rfl rfl
  | writeHead copied =>
    cases hs
    exact h.move hpc ⟨Nat.zero_le _, hp, rfl, rfl⟩ rfl rfl
  | installTrans tail copied header installed =>
    obtain ⟨hle, hcopied, hheader, hinst⟩ := hp
    cases hs
    split
    · rename_i hlt
      refine h.move hpc ⟨hlt, hcopied, hheader, ?_⟩ rfl rfl
      rw [hinst]
      exact (blocks_succ tail).symm
    · have : tail = s.n := by omega
      exact h.move hpc ⟨hcopied, hheader, this ▸ hinst⟩ rfl rfl
  | clearHead copied header installed =>
    obtain ⟨hcopied, hheader, hinst⟩ := hp
    have hcommit : (s.pc p).inCommit = true := by rw [hpc]; rfl
    cases hs
    exact ⟨h.control.goto (p := p) (k := .writeEmpty) rfl trivial
      (h.control.knows_of_inCommit hcommit rfl rfl) rfl rfl rfl rfl (by rw [hpc]; rfl) hcommit.symm,
      h.contents.commit (c := ⟨s.ended, copied, header, installed⟩)
        (h.control.alone (h.control.committing_of_inCommit hcommit)) rfl rfl rfl rfl rfl rfl
        hcopied hheader hinst⟩
  | writeEmpty =>
    cases hs
    exact h.move hpc trivial rfl rfl
  | doneAcquire => exact h.acquire hpc hs (LogState.lock_of_acquire hs).1 rfl rfl
  | doneCommit =>
    cases hs
    have hcommit : (s.pc p).inCommit = true := by rw [hpc]; rfl
    exact ⟨h.control.commit (p := p) (k := .doneRelease) (c := false) hp rfl hp rfl rfl rfl rfl rfl
      rfl (fun h => absurd h (by decide)) (by rw [hpc]; rfl) rfl (.inr ((h.control.committer p).mp hcommit)),
      h.contents.congr rfl rfl rfl rfl rfl rfl rfl⟩
  | doneRelease => exact h.release hpc hs trivial rfl rfl

theorem books_step {size : Nat} (h : Books s) {l : π × Choice} (hs : stepOf size s l = some t) :
    Books t := by
  obtain ⟨p, c⟩ := l
  simp only [stepOf] at hs
  split at hs
  · exact books_goStep h rfl hs
  · rename_i hpc
    cases hs
    exact h.move hpc trivial rfl rfl
  · rename_i hpc
    cases hs
    exact h.move hpc trivial rfl rfl
  · rename_i hpc
    cases hs
    exact h.move hpc trivial rfl rfl
  · cases hs

omit [DecidableEq π] in
theorem books_start : Books (start : LogState π) where
  control := ⟨fun _ => trivial, fun _ => ⟨fun h => (not_mem_nil h).elim, Bool.noConfusion⟩, .nil, rfl,
    ⟨Bool.noConfusion, fun h => absurd rfl h⟩, fun _ => ⟨Bool.noConfusion, nofun⟩, fun _ => rfl⟩
  contents := ⟨.nil, fun b => by simp [start, LogState.blocks], by simp [start], .refl _⟩

theorem books_run {size : Nat} {ls : List (π × Choice)} (hrun : run (stepOf size) start ls = some s) :
    Books s :=
  run_invariant Books (C := fun _ _ => True) (fun _ _ _ h _ hs => books_step h hs) books_start
    (along_of_forall (fun _ _ => trivial) _ _) hrun

end

section

variable {π : Type}

structure Whole (s : LogState π) : Prop where
  /-- A commit finds no operation outstanding. -/
  outstanding : s.committing = true → s.outstanding = 0
  /-- The panics `log.committing` and `log_write outside of trans` do not happen. -/
  panics : ∀ p, s.pc p ≠ .panicked .committing ∧ s.pc p ≠ .panicked .outside
  nodup : (s.blocks s.n).Nodup
  /-- A commit covers what the operations that ended since the one before have logged. -/
  covers : ∀ c ∈ s.commits, c.Exact
  /-- No two commits share an operation. -/
  once : s.commits.Pairwise fun c d => ∀ x ∈ c.ops, ∀ y ∈ d.ops, x.id ≠ y.id
  /-- Every operation is in a commit, or in the group of the next one, or not ended. -/
  all : ∀ i < s.ops, (∃ c ∈ s.commits, ∃ op ∈ c.ops, op.id = i) ∨ (∃ op ∈ s.ended, op.id = i) ∨
    ∃ p ∈ s.active, (s.cur p).id = i

theorem Books.whole {s : LogState π} (h : Books s) : Whole s where
  outstanding := by
    intro hc
    rw [h.control.outstanding, h.control.alone hc]
    rfl
  panics := by
    intro p
    have hp := h.control.knows p
    constructor <;>
    · intro hpc
      rw [hpc] at hp
      cases hp
  nodup := h.contents.nodup
  covers := h.contents.commits
  once := by
    have hnodup : (s.allOps.map Op.id).Nodup := h.contents.ids.nodup_iff.mpr nodup_range
    rw [LogState.allOps, append_assoc, map_append, map_flatMap] at hnodup
    refine (List.nodup_flatMap.mp hnodup.of_append_left).2.imp fun {c d} hdisj x hx y hy hid => ?_
    exact hdisj (mem_map_of_mem hx) (hid ▸ mem_map_of_mem hy)
  all := by
    intro i hi
    have hmem : i ∈ s.allOps.map Op.id := h.contents.ids.mem_iff.mpr (List.mem_range.mpr hi)
    obtain ⟨op, hop, rfl⟩ := List.mem_map.mp hmem
    rcases List.mem_append.mp hop with hop | hop
    · rcases List.mem_append.mp hop with hop | hop
      · obtain ⟨c, hc, hop⟩ := List.mem_flatMap.mp hop
        exact .inl ⟨c, hc, op, hop, rfl⟩
      · exact .inr (.inl ⟨op, hop, rfl⟩)
    · obtain ⟨p, hp, rfl⟩ := List.mem_map.mp hop
      exact .inr (.inr ⟨p, hp, rfl⟩)

/-- **Group commit never splits an operation**, for any number of processes, in any
interleaving, and whatever the operations log. -/
theorem group_commit [DecidableEq π] {size : Nat} {ls : List (π × Choice)} {s : LogState π}
    (hrun : run (stepOf size) start ls = some s) : Whole s :=
  (books_run hrun).whole

def goes (p : π) (n : Nat) : List (π × Choice) := replicate n (p, .go)

/-- `log_write(b)` by process `p`, up to its end; the loop goes round `rounds` times. -/
def writes (p : π) (b : Word) (rounds : Nat) : List (π × Choice) :=
  (p, .logWrite b) :: goes p (7 + rounds)

-- the numerals below are the two processes
local instance two_procs : NeZero 2 := ⟨by decide⟩

/-- Two operations overlap: one logs block 5, the other blocks 5 and 6. The second to end
commits for both. -/
def twoOps : List (Fin 2 × Choice) :=
  [(0, .beginOp), (1, .beginOp)] ++ goes 0 5 ++ goes 1 5 ++ writes 0 5 1 ++ writes 1 5 1 ++
  writes 1 6 2 ++ (0, .endOp) :: goes 0 5 ++ (1, .endOp) :: goes 1 18

theorem group_commit_twoOps : ∃ s, run (stepOf 30) start twoOps = some s ∧
    s.commits = [⟨[⟨1, [6, 5]⟩, ⟨0, [5]⟩], [5, 6], [5, 6], [5, 6]⟩] ∧ Whole s := by
  have hrun : (run (stepOf 30) start twoOps).map (fun s => s.commits) =
      some [⟨[⟨1, [6, 5]⟩, ⟨0, [5]⟩], [5, 6], [5, 6], [5, 6]⟩] := by decide +kernel
  obtain ⟨s, hs, hc⟩ := Option.map_eq_some_iff.mp hrun
  exact ⟨s, hs, hc, group_commit hs⟩

end

end Xv6.LogOps
