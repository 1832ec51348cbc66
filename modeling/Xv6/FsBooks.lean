import Mathlib
import Xv6.FsRefs

/- The books of the calls: every reference is accounted for.

   A reference to a cached inode is an open file of type FD_INODE or the current
   directory of a process; a reference to a file is a descriptor of a process. In the
   middle of a call there may be more: `Books s k y` says that the counts are those of
   the tables and what the call has in hand, the inodes, locks and operations in `k`
   and the files in `y`. Between calls it has nothing in hand.

   1. One rule for each way a table changes (`Books.setFile`, `setOfile`, `setCwd`): what
      the table loses the call has in hand, and the other way round.
   2. Each call starts and ends with nothing in hand, on every path that returns.
   3. So after any sequence of calls the counts are exact (`RefsExact`). -/
namespace Xv6.Fs
open Function List Bits ByteBlock Log Command Transition Tally

variable {α β : Type} {s t u : Kernel} {σ k k' : Shape} {y y' : Fp → Int} {e : Ip} {f : Fp} {p : Pp}

/-- The inode that an open file refers to. -/
def held (x : File) : Option Ip := if x.type = .inode then some x.ip else none

def opens (s : Kernel) (f : Fp) : Option Ip := held (s.file f)

def cwds (s : Kernel) (p : Pp) : Option Ip := (s.proc p).cwd

def slots (s : Kernel) (x : Pp × Fin NOFILE) : Option Fp := (s.proc x.1).ofile x.2

/-- References to inodes from the tables. -/
def tabled (s : Kernel) : Ip → Int := tally (opens s) + tally (cwds s)

/-- Only a process that runs has files and a directory. -/
def Proc.Idle (x : Proc) : Prop := x.state ≠ .used → x.cwd = none ∧ ∀ fd, x.ofile fd = none

structure Books (s : Kernel) (k : Shape) (y : Fp → Int) : Prop where
  shape : shape s = k.plus (tabled s)
  files : ∀ f, (s.file f).ref = tally (slots s) f + y f
  closed : ∀ f, (s.file f).ref = 0 → (s.file f).type = .none
  unique : Unique s
  idle : ∀ p, (s.proc p).Idle

def rest : Shape := ⟨0, fun _ => false, [], 0⟩

@[simp] theorem lock_rest (e : Ip) : rest.lock e false = rest := Shape.lock_self rfl

theorem Books.cast (h : Books s k y) (hk : k = k') (hy : y = y') : Books s k' y' := by
  subst hk hy
  exact h

theorem Books.start (h : Books s k y) : Does s (k.plus (tabled s)) s := (Does.refl s).cast h.shape

theorem Books.does (h : Books s k y) (hd : Does s σ t) (hσ : σ = k'.plus (tabled s)) : Books t k' y where
  shape := by
    have hopens : opens t = opens s := funext fun f => congrArg held (congrFun hd.file f)
    have hcwds : cwds t = cwds s := funext fun p => congrArg Proc.cwd (congrFun hd.proc p)
    rw [hd.shape, hσ, tabled, tabled, hopens, hcwds]
  files := by
    have hslots : slots t = slots s := funext fun x => congrFun (congrArg Proc.ofile (congrFun hd.proc x.1)) x.2
    rw [hslots, hd.file]
    exact h.files
  closed := by
    rw [hd.file]
    exact h.closed
  unique := hd.unique h.unique
  idle := by
    rw [hd.proc]
    exact h.idle

theorem Books.homed (h : Books s k y) (hk : 0 ≤ k.refs) : Homed s p := by
  intro e he
  have hrefs : (s.inode e).ref = k.refs e + (tally (opens s) e + tally (cwds s) e) := by
    rw [← shape_refs, h.shape]
    rfl
  have h₁ := hk e
  have h₂ := tally_nonneg (opens s) e
  have h₃ : 0 < tally (cwds s) e := tally_pos (i := p) he
  simp only [Pi.zero_apply] at h₁ h₂
  omega

/-! ## Changes of the tables -/

theorem file_setFile (f f' : Fp) (x : File) : (s.setFile f x).file f' = if f' = f then x else s.file f' :=
  update_apply s.file f x f'

theorem proc_setProc (p q : Pp) (x : Proc) : (s.setProc p x).proc q = if q = p then x else s.proc q :=
  update_apply s.proc p x q

theorem opens_setFile (f : Fp) (x : File) : opens (s.setFile f x) = update (opens s) f (held x) := by
  funext f'
  simp only [opens, file_setFile, update_apply]
  split <;> rfl

theorem Books.setFile (h : Books s k y) (f : Fp) {x : File} (hclosed : x.ref = 0 → x.type = .none) :
    Books (s.setFile f x) (k.plus (point (held (s.file f)) - point (held x)))
      (y + Pi.single f (x.ref - (s.file f).ref)) where
  shape := by
    have hshape : Fs.shape (s.setFile f x) = Fs.shape s := rfl
    have hcwds : cwds (s.setFile f x) = cwds s := rfl
    rw [hshape, h.shape, Shape.plus_plus, tabled, tabled, hcwds, opens_setFile, tally_update]
    refine congrArg (Shape.plus · k) ?_
    rw [show opens s f = held (s.file f) from rfl]
    abel
  files := by
    intro f'
    have hslots : slots (s.setFile f x) = slots s := rfl
    have := h.files f'
    rw [hslots, Pi.add_apply, Pi.single_apply, file_setFile]
    split
    · subst f'
      omega
    · omega
  closed := by
    intro f'
    rw [file_setFile]
    split
    · exact hclosed
    · exact h.closed f'
  unique := h.unique
  idle := h.idle

theorem Books.touch (h : Books s k y) (f : Fp) {x : File} (htype : x.type = (s.file f).type)
    (hip : x.ip = (s.file f).ip) (href : x.ref = (s.file f).ref) : Books (s.setFile f x) k y := by
  refine (h.setFile f fun hx => ?_).cast ?_ ?_
  · rw [htype]
    exact h.closed f (href.symm.trans hx)
  · rw [held, held, htype, hip, sub_self, Shape.plus_zero]
  · rw [href, sub_self, Pi.single_zero, add_zero]

theorem Books.retype (h : Books s k y) (f : Fp) {x : File} (hold : (s.file f).type ≠ .inode)
    (hnew : x.type ≠ .inode) (href : x.ref = (s.file f).ref) (hpos : x.ref ≠ 0) : Books (s.setFile f x) k y := by
  refine (h.setFile f fun hx => absurd hx hpos).cast ?_ ?_
  · rw [held, held, if_neg hold, if_neg hnew, sub_self, Shape.plus_zero]
  · rw [href, sub_self, Pi.single_zero, add_zero]

theorem slots_setOfile (p : Pp) (fd : Fin NOFILE) (o : Option Fp) :
    slots (s.setProc p { s.proc p with ofile := update (s.proc p).ofile fd o }) =
      update (slots s) (p, fd) o := by
  funext ⟨q, fd'⟩
  by_cases hq : q = p
  · subst q
    by_cases hfd : fd' = fd
    · subst fd'
      simp [slots, Kernel.setProc]
    · simp [slots, Kernel.setProc, hfd]
  · simp [slots, Kernel.setProc, hq]

theorem cwds_setProc (p : Pp) (x : Proc) : cwds (s.setProc p x) = update (cwds s) p x.cwd := by
  funext q
  simp only [cwds, proc_setProc, update_apply]
  split <;> rfl

theorem idle_setProc {x : Proc} (h : ∀ q, (s.proc q).Idle) (hx : x.Idle) :
    ∀ q, ((s.setProc p x).proc q).Idle := by
  intro q
  rw [proc_setProc]
  split
  · exact hx
  · exact h q

theorem Books.setOfile (h : Books s k y) (p : Pp) (fd : Fin NOFILE) {o : Option Fp}
    (hused : (s.proc p).state = .used ∨ o = none) :
    Books (s.setProc p { s.proc p with ofile := update (s.proc p).ofile fd o }) k
      (y + (point ((s.proc p).ofile fd) - point o)) where
  shape := by
    refine h.shape.trans ?_
    rw [tabled, tabled, cwds_setProc]
    change _ = k.plus (tally (opens s) + tally (update (cwds s) p (cwds s p)))
    rw [update_eq_self]
  files := by
    intro f
    have := h.files f
    rw [slots_setOfile, tally_update]
    simp only [Pi.add_apply, Pi.sub_apply]
    rw [show slots s (p, fd) = (s.proc p).ofile fd from rfl]
    change (s.file f).ref = _
    omega
  closed := h.closed
  unique := h.unique
  idle := by
    refine idle_setProc h.idle fun hp => ⟨(h.idle p hp).1, fun fd' => ?_⟩
    change update (s.proc p).ofile fd o fd' = none
    rw [update_apply]
    split
    · exact hused.resolve_left hp
    · exact (h.idle p hp).2 fd'

theorem Books.setCwd (h : Books s k y) (p : Pp) {o : Option Ip}
    (hused : (s.proc p).state = .used ∨ o = none) :
    Books (s.setProc p { s.proc p with cwd := o }) (k.plus (point (s.proc p).cwd - point o)) y where
  shape := by
    refine h.shape.trans ?_
    rw [Shape.plus_plus, tabled, tabled, cwds_setProc, tally_update]
    refine congrArg (Shape.plus · k) ?_
    rw [show opens (s.setProc p { s.proc p with cwd := o }) = opens s from rfl,
      show cwds s p = (s.proc p).cwd from rfl]
    abel
  files := by
    have hslots : slots (s.setProc p { s.proc p with cwd := o }) = slots s := by
      funext ⟨q, fd⟩
      simp only [slots, proc_setProc]
      split
      · subst q
        rfl
      · rfl
    rw [hslots]
    exact h.files
  closed := h.closed
  unique := h.unique
  idle := idle_setProc h.idle fun hp => ⟨hused.resolve_left hp, (h.idle p hp).2⟩

theorem Books.of_proc (h : Books s k y) {g : Pp → Proc} (hofile : ∀ q, (g q).ofile = (s.proc q).ofile)
    (hcwd : ∀ q, (g q).cwd = (s.proc q).cwd)
    (hidle : ∀ q, (g q).Idle) : Books { s with proc := g } k y where
  shape := by
    have hcwds : cwds { s with proc := g } = cwds s := funext hcwd
    rw [tabled, hcwds]
    exact h.shape
  files := by
    have hslots : slots { s with proc := g } = slots s := by
      funext x
      exact congrFun (hofile x.1) x.2
    rw [hslots]
    exact h.files
  closed := h.closed
  unique := h.unique
  idle := hidle

theorem Books.setState (h : Books s k y) (p : Pp) {x : Proc} (hofile : x.ofile = (s.proc p).ofile)
    (hcwd : x.cwd = (s.proc p).cwd) (hidle : x.Idle) : Books (s.setProc p x) k y := by
  refine h.of_proc (fun q => ?_) (fun q => ?_) (idle_setProc h.idle hidle)
  · rw [update_apply]
    split
    · rename_i heq
      rw [heq, hofile]
    · rfl
  · rw [update_apply]
    split
    · rename_i heq
      rw [heq, hcwd]
    · rfl

/-! ## Files -/

theorem then_gets {g : Kernel → α} {m : α → M β} {R : β → Kernel → Prop} (h : Then s (m (g s)) R) :
    Then s (gets g >>= m) R := h

theorem then_getFile {m : File → M β} {R : β → Kernel → Prop} (h : Then s (m (s.file f)) R) :
    Then s (getFile f >>= m) R := h

theorem then_getProc {m : Proc → M β} {R : β → Kernel → Prop} (h : Then s (m (s.proc p)) R) :
    Then s (getProc p >>= m) R := h

theorem then_setFile {x : File} {m : Unit → M β} {R : β → Kernel → Prop} (h : Then (s.setFile f x) (m ()) R) :
    Then s (setFile f x >>= m) R := h

structure Fresh (s : Kernel) (f : Fp) (t : Kernel) : Prop where
  free : (s.file f).ref = 0
  ref : (t.file f).ref = 1
  type : (t.file f).type = .none
  other : ∀ f', f' ≠ f → t.file f' = s.file f'
  proc : t.proc = s.proc

theorem filealloc_next {m : Option Fp → M β} {R : β → Kernel → Prop} (h : Books s k y)
    (hnone : Then s (m none) R)
    (hsome : ∀ f t, Books t k (y + Pi.single f 1) → Fresh s f t → Then t (m (some f)) R) :
    Then s (filealloc >>= m) R := by
  simp only [Then, filealloc, wp_bind, wp_gets, id]
  split
  · rename_i f hf
    have hzero : (s.file f).ref = 0 := by simpa using List.find?_some hf
    have hbooks := h.setFile f (x := { s.file f with ref := 1 }) (by rintro ⟨⟩)
    refine hsome f _ (hbooks.cast ?_ ?_) ⟨hzero, ?_, ?_, fun f' hne => ?_, rfl⟩
    · rw [show held { s.file f with ref := 1 } = held (s.file f) from rfl, sub_self, Shape.plus_zero]
    · rw [hzero]
      rfl
    · rw [file_setFile, if_pos rfl]
    · rw [file_setFile, if_pos rfl]
      exact h.closed f hzero
    · rw [file_setFile, if_neg hne]
  · exact hnone

theorem filedup_next {m : Fp → M β} {R : β → Kernel → Prop} (h : Books s k y)
    (hm : ∀ t, Books t k (y + Pi.single f 1) → t.proc = s.proc → Then t (m f) R) :
    Then s (filedup f >>= m) R := by
  refine Then.bind (Q := fun f' t => f' = f ∧ Books t k (y + Pi.single f 1) ∧ t.proc = s.proc) ?_ ?_
  · refine then_getFile (.ite (fun _ => then_panic) fun hpos => ⟨rfl, ?_, rfl⟩)
    have hbooks := h.setFile f (x := { s.file f with ref := (s.file f).ref + 1 }) fun h0 => by
      simp only at h0
      omega
    refine hbooks.cast ?_ ?_
    · rw [show held { s.file f with ref := (s.file f).ref + 1 } = held (s.file f) from rfl, sub_self,
        Shape.plus_zero]
    · rw [show ((s.file f).ref + 1 - (s.file f).ref) = 1 by omega]
  · rintro _ t ⟨rfl, ht, hproc⟩
    exact hm t ht hproc

theorem fileclose_next {m : Unit → M β} {R : β → Kernel → Prop} (h : Books s k y)
    (hm : ∀ t, Books t k (y - Pi.single f 1) → t.proc = s.proc → Then t (m ()) R) :
    Then s (fileclose f >>= m) R := by
  refine Then.bind (Q := fun _ t => Books t k (y - Pi.single f 1) ∧ t.proc = s.proc) ?_
    fun _ t ht => hm t ht.1 ht.2
  refine then_getFile (.ite (fun _ => then_panic) fun hpos => .ite (fun hmore => ?_) fun hlast => ?_)
  · have hbooks := h.setFile f (x := { s.file f with ref := (s.file f).ref - 1 }) fun h0 => by
      simp only at h0
      omega
    refine ⟨hbooks.cast ?_ ?_, rfl⟩
    · rw [show held { s.file f with ref := (s.file f).ref - 1 } = held (s.file f) from rfl, sub_self,
        Shape.plus_zero]
    · rw [show ((s.file f).ref - 1 - (s.file f).ref) = -1 by omega, Pi.single_neg, sub_eq_add_neg]
  · have hbooks := h.setFile f (x := { s.file f with ref := 0, type := .none }) fun _ => rfl
    have hone : (0 : Int) - (s.file f).ref = -1 := by omega
    rw [show held { s.file f with ref := 0, type := .none } = none from rfl, point_none, sub_zero] at hbooks
    simp only [hone, Pi.single_neg, ← sub_eq_add_neg] at hbooks
    refine Then.bind (Q := fun _ t => t = s.setFile f { s.file f with ref := 0, type := .none }) rfl ?_
    rintro _ t rfl
    cases htype : (s.file f).type with
    | inode =>
      rw [show held (s.file f) = some (s.file f).ip by rw [held, if_pos htype]] at hbooks
      refine beginOp_next hbooks.start fun t h => iput_next h fun t _ h => ?_
      refine Then.imp (acts_endOp t) fun _ u hu => ?_
      rw [h.shape] at hu
      exact ⟨hbooks.does (h.trans hu) (by simp [add_comm]), (h.trans hu).proc⟩
    | pipe =>
      refine ⟨hbooks.cast ?_ rfl, rfl⟩
      simp [held, htype]
    | none =>
      refine ⟨hbooks.cast ?_ rfl, rfl⟩
      simp [held, htype]

theorem then_filestat (h : Books s k y) : Then s (filestat f) fun _ t => Books t k y := by
  refine then_getFile ?_
  cases htype : (s.file f).type with
  | inode =>
    refine ilock_next h.start fun t hl hd => iunlock_next hd fun t _ hd => h.does hd ?_
    simp_all
  | pipe => exact h
  | none => exact h

theorem then_fileread (h : Books s k y) (n : Word) (piped : Option (List Byte)) :
    Then s (fileread f n piped) fun _ t => Books t k y := by
  refine then_getFile (.ite (fun _ => h) fun _ => ?_)
  cases htype : (s.file f).type with
  | pipe => exact h
  | none => exact then_panic
  | inode =>
    refine ilock_next h.start fun t hl hd => (quiet_readi _ _ _).next hd fun r t hd => ?_
    have ht : Books t (k.lock (s.file f).ip true) y := h.does hd (by simp)
    refine then_setFile ?_
    have hu := ht.touch f (x := { s.file f with off := (s.file f).off + BitVec.ofNat 32 (r.getD []).length })
      (by rw [hd.file]) (by rw [hd.file]) (by rw [hd.file])
    rw [← htype]
    refine iunlock_next hu.start fun v _ hv => hu.does hv ?_
    simp_all

theorem then_filewriteFrom (h : Books s k y) (fuel : Nat) (src : List Byte) :
    Then s (filewriteFrom f fuel src) fun _ t => Books t k y := by
  induction fuel generalizing s src with
  | zero => exact h
  | succ fuel ih =>
    refine .ite (fun _ => h) fun _ => then_getFile ?_
    refine beginOp_next h.start fun t hd => ilock_next hd fun t hl hd => ?_
    refine (quiet_writei _ _ _).next hd fun r t hd => then_setFile ?_
    have ht : Books t ((k.op 1).lock (s.file f).ip true) y := h.does hd (by simp)
    have hu := ht.touch f (x := { s.file f with off := (s.file f).off + BitVec.ofNat 32 (r.getD 0) })
      (by rw [hd.file]) (by rw [hd.file]) (by rw [hd.file])
    refine iunlock_next hu.start fun u _ hv => endOp_next hv fun v hv => ?_
    have hw : Books v k y := hu.does hv (by simp_all)
    cases r with
    | none => exact hw
    | some r => exact .ite (fun _ => then_panic) fun _ => ih hw _

theorem then_filewrite (h : Books s k y) (src : List Byte) (piped : Bool) :
    Then s (filewrite f src piped) fun _ t => Books t k y := by
  refine then_getFile (.ite (fun _ => h) fun _ => ?_)
  cases htype : (s.file f).type with
  | pipe => exact h
  | none => exact then_panic
  | inode => exact then_filewriteFrom h _ _

/-! ## Descriptors -/

theorem then_argfd {fd : Int} {m : Option (Fin NOFILE × Fp) → M β} {R : β → Kernel → Prop}
    (hnone : Then s (m none) R)
    (hsome : ∀ fd f, (s.proc p).ofile fd = some f → Then s (m (some (fd, f))) R) :
    Then s (argfd p fd >>= m) R := by
  refine Then.bind (Q := fun a t => t = s ∧ ∀ x, a = some x → (s.proc p).ofile x.1 = some x.2) ?_ ?_
  · refine then_getProc ?_
    split
    · rename_i hfd
      cases hofile : (s.proc p).ofile ⟨fd.toNat, hfd.2⟩ with
      | none => exact ⟨rfl, nofun⟩
      | some f =>
        refine ⟨rfl, fun x hx => ?_⟩
        cases hx
        exact hofile
    · exact ⟨rfl, nofun⟩
  · rintro a t ⟨rfl, ha⟩
    cases a with
    | none => exact hnone
    | some x => exact hsome x.1 x.2 (ha x rfl)

theorem then_setOfile {fd : Fin NOFILE} {o : Option Fp} {m : Unit → M β} {R : β → Kernel → Prop}
    (h : Then (s.setProc p { s.proc p with ofile := update (s.proc p).ofile fd o }) (m ()) R) :
    Then s (setOfile p fd o >>= m) R := h

/-- `fdalloc` takes a file over from its caller. -/
theorem fdalloc_next {m : Option (Fin NOFILE) → M β} {R : β → Kernel → Prop} (h : Books s k y)
    (hp : (s.proc p).state = .used) (hnone : Then s (m none) R)
    (hsome : ∀ fd t, Books t k (y - Pi.single f 1) → t.file = s.file → (t.proc p).state = .used →
      (t.proc p).ofile fd = some f → Then t (m (some fd)) R) : Then s (fdalloc p f >>= m) R := by
  simp only [Then, fdalloc, getProc, wp_bind, wp_gets]
  split
  · rename_i fd hfd
    have hfree : (s.proc p).ofile fd = none := by simpa using List.find?_some hfd
    have hbooks := h.setOfile p fd (o := some f) (.inl hp)
    refine hsome fd _ (hbooks.cast rfl ?_) rfl ?_ ?_
    · rw [hfree, point_none, point_some, zero_sub, ← sub_eq_add_neg]
    · rw [proc_setProc, if_pos rfl]
      exact hp
    · rw [proc_setProc, if_pos rfl]
      exact update_self fd (some f) (s.proc p).ofile
  · exact hnone

/-! ## The calls -/

theorem then_sysDup (h : Books s rest 0) (hp : (s.proc p).state = .used) (fd : Int) :
    Then s (sysDup p fd) fun _ t => Books t rest 0 := by
  refine then_argfd h fun fd f _ => fdalloc_next h hp h fun _ t ht _ _ _ => ?_
  exact filedup_next ht fun u hu _ => hu.cast rfl (by simp)

theorem then_sysRead (h : Books s rest 0) (fd : Int) (n : Option Word) (piped : Option (List Byte)) :
    Then s (sysRead p fd n piped) fun _ t => Books t rest 0 := by
  refine then_argfd h fun fd f _ => ?_
  cases n with
  | none => exact h
  | some n => exact (then_fileread h n piped).bind fun _ _ ht => ht

theorem then_sysWrite (h : Books s rest 0) (fd : Int) (src : Option (List Byte)) (piped : Bool) :
    Then s (sysWrite p fd src piped) fun _ t => Books t rest 0 := by
  refine then_argfd h fun fd f _ => ?_
  cases src with
  | none => exact h
  | some src => exact then_filewrite h src piped

theorem then_sysClose (h : Books s rest 0) (fd : Int) :
    Then s (sysClose p fd) fun _ t => Books t rest 0 := by
  refine then_argfd h fun fd f hf => then_setOfile ?_
  refine fileclose_next (h.setOfile p fd (.inr rfl)) fun t ht _ => ht.cast rfl ?_
  simp [hf]

theorem then_sysFstat (h : Books s rest 0) (fd : Int) (st : Bool) :
    Then s (sysFstat p fd st) fun _ t => Books t rest 0 := by
  refine then_argfd h fun fd f _ => ?_
  cases st with
  | false => exact h
  | true => exact then_filestat h

theorem Books.of_does (h : Books s rest 0) (hd : Does s (Fs.shape s) t) : Books t rest 0 :=
  h.does hd h.shape

theorem then_openInode (hp : Homed t p) (path : List Byte) (omode : Word) (h : Does s σ t) :
    Then t (openInode p path omode) (Opened s σ) := by
  refine .ite (fun _ => then_create hp path _ _ _ h) fun _ => ?_
  refine namei_next hp h (fun t h => h) fun ip t h => ?_
  refine ilock_next h fun t hip h => then_getInode (.ite (fun _ => ?_) fun _ => ⟨hip, h⟩)
  exact iunlockput_next h fun t _ h => h.cast (by simp_all)

theorem then_sysOpen (h : Books s rest 0) (hp : (s.proc p).state = .used) (path : Option (List Byte))
    (omode : Word) : Then s (sysOpen p path omode) fun _ t => Books t rest 0 := by
  cases path with
  | none => exact h
  | some path =>
    refine beginOp_next (Does.refl s) fun t hd => ?_
    refine (then_openInode ((h.homed le_rfl).op hd) path omode hd).opened (fun t hd => ?_) fun ip t hip hd => ?_
    · exact endOp_next hd fun t hd => h.of_does (hd.cast (by simp))
    · have ht : Books t (((rest.op 1).lock ip true).plus (Pi.single ip 1)) 0 :=
        h.does hd (by rw [h.shape]; simp [add_comm])
      -- what has to be done when there is no file or no descriptor
      have hback : ∀ {u}, Books u (((rest.op 1).lock ip true).plus (Pi.single ip 1)) 0 →
          Then u (iunlockput ip >>= fun _ => endOp >>= fun _ => pure false) fun _ t => Books t rest 0 := by
        intro u hu
        refine iunlockput_next hu.start fun v _ hv => endOp_next hv fun v hv => hu.does hv ?_
        simp
      refine filealloc_next ht (hback ht) fun f u hu hf => ?_
      have hused : (u.proc p).state = .used := by rw [hf.proc, hd.proc]; exact hp
      refine fdalloc_next hu hused ?_ fun fd v hv hfile _ _ => ?_
      · exact fileclose_next hu fun v hv _ => hback (hv.cast rfl (by simp))
      · refine iunlock_next hv.start fun w _ hw => endOp_next hw fun w hw => then_getFile (then_setFile ?_)
        have hw' : Books w (rest.plus (Pi.single ip 1)) 0 :=
          (hv.does hw (by simp)).cast rfl (by simp)
        have hnone : held (w.file f) = none := by
          rw [held, if_neg]
          rw [hw.file, hfile, hf.type]
          nofun
        refine (hw'.setFile f fun h0 => ?_).cast ?_ ?_
        · rw [hw.file, hfile, hf.ref] at h0
          exact absurd h0 one_ne_zero
        · rw [hnone]
          simp [held]
        · simp

theorem then_sysMake (h : Books s rest 0) (path : Option (List Byte)) (type major minor : Half) :
    Then s (sysMake p path type major minor) fun _ t => Books t rest 0 := by
  refine beginOp_next (Does.refl s) fun t hd => ?_
  have hm : Then t (createAt p path type major minor) (Opened s ((Fs.shape s).op 1)) := by
    cases path with
    | none => exact hd
    | some path => exact then_create ((h.homed le_rfl).op hd) path _ _ _ hd
  refine hm.opened (fun t hd => ?_) fun ip t hip hd => ?_
  · exact endOp_next hd fun t hd => h.of_does (hd.cast (by simp))
  · refine iunlockput_next hd fun t _ hd => endOp_next hd fun t hd => h.of_does (hd.cast ?_)
    simp_all

theorem then_sysChdir (h : Books s rest 0) (hp : (s.proc p).state = .used) (path : Option (List Byte)) :
    Then s (sysChdir p path) fun _ t => Books t rest 0 := by
  refine beginOp_next (Does.refl s) fun t hd => ?_
  have hm : Then t (nameiAt p path) fun a u => Does t ((Fs.shape t).plus (point a)) u := by
    cases path with
    | none => exact (Does.refl t).cast (by simp)
    | some path => exact (then_namex ((h.homed le_rfl).op hd) path false).bind fun _ _ ht => ht
  refine Then.next_gain (g := id) hd hm (fun a t ha hd => ?_) fun a ip t ha hd => ?_
  · cases ha
    exact endOp_next hd fun t hd => h.of_does (hd.cast (by simp))
  · cases ha
    refine ilock_next hd fun t hip hd => then_getInode (.ite (fun _ => ?_) fun _ => ?_)
    · refine iunlockput_next hd fun t _ hd => endOp_next hd fun t hd => h.of_does (hd.cast ?_)
      simp_all
    · refine iunlock_next hd fun t _ hd => then_getProc ?_
      cases hcwd : (t.proc p).cwd with
      | none => exact then_panic
      | some cwd =>
        refine iput_next hd fun u _ hu => endOp_next hu fun u hu => then_getProc ?_
        have hu' : Books u (rest.plus (Pi.single ip 1 - Pi.single cwd 1)) 0 := h.does hu <| by
          rw [h.shape]
          simp [sub_eq_add_neg, add_comm, add_assoc]
        refine (hu'.setCwd p (.inl ?_)).cast ?_ rfl
        · rw [hu.proc]
          exact hp
        · rw [hu.proc, ← hd.proc, hcwd]
          simp

theorem quiet_flip : Quiet flip :=
  (quiet_gets id).bind fun _ => Quiet.bind
    (quiet_modify (fun _ => rfl) (fun _ => rfl) (fun _ => rfl) (fun _ => rfl) fun _ => rfl) fun _ => quiet_pure _

theorem quiet_loaduvm (ip : Ip) (fuel : Nat) (offset : Word) (sz : Nat) : Quiet (loaduvm ip fuel offset sz) := by
  induction fuel generalizing offset sz with
  | zero => exact quiet_pure _
  | succ fuel ih =>
    refine .ite (quiet_pure _) ((quiet_readi _ _ _).bind fun bytes => ?_)
    cases bytes with
    | none => exact quiet_pure _
    | some bytes => exact .ite (quiet_pure _) (ih _ _)

theorem quiet_loadFrom (ip : Ip) (phnum : Nat) (off : Word) : Quiet (loadFrom ip phnum off) := by
  induction phnum generalizing off with
  | zero => exact quiet_pure _
  | succ phnum ih =>
    refine (quiet_readi _ _ _).bind fun ph => ?_
    cases ph with
    | none => exact quiet_pure _
    | some ph =>
      refine .ite (quiet_pure _) (.ite (ih _) (.ite (quiet_pure _) (.ite (quiet_pure _) ?_)))
      refine quiet_flip.bind fun memory => .ite (.ite (quiet_pure _) ?_) (quiet_pure _)
      exact (quiet_loaduvm _ _ _ _).bind fun loaded => .ite (ih _) (quiet_pure _)

theorem quiet_load (ip : Ip) : Quiet (load ip) := by
  refine (quiet_readi _ _ _).bind fun elf => ?_
  cases elf with
  | none => exact quiet_pure _
  | some elf =>
    refine .ite (quiet_pure _) (.ite (quiet_pure _) (quiet_flip.bind fun memory => ?_))
    exact .ite (quiet_loadFrom _ _ _) (quiet_pure _)

theorem then_exec (h : Books s rest 0) (path : Option (List Byte)) :
    Then s (exec p path) fun _ t => Books t rest 0 := by
  cases path with
  | none => exact h
  | some path =>
    refine beginOp_next (Does.refl s) fun t hd => ?_
    refine namei_next ((h.homed le_rfl).op hd) hd (fun t hd => ?_) fun ip t hd => ?_
    · exact endOp_next hd fun t hd => h.of_does (hd.cast (by simp))
    · refine ilock_next hd fun t hip hd => (quiet_load ip).next hd fun loaded t hd => ?_
      refine iunlockput_next hd fun t _ hd => endOp_next hd fun t hd => ?_
      have hd := hd.cast (τ := Fs.shape s) (by simp_all)
      refine .ite (fun _ => Then.imp (quiet_flip t) fun _ u hu => ?_) fun _ => h.of_does hd
      rw [id, hd.shape] at hu
      exact h.of_does (hd.trans hu)

theorem pipealloc_next {m : Option (Fp × Fp) → M β} {R : β → Kernel → Prop} (h : Books s k y)
    (hnone : ∀ t, Books t k y → t.proc = s.proc → Then t (m none) R)
    (hsome : ∀ f0 f1 t, Books t k (y + Pi.single f0 1 + Pi.single f1 1) → t.proc = s.proc →
      Then t (m (some (f0, f1))) R) : Then s (pipealloc >>= m) R := by
  refine Then.bind (Q := fun a t => t.proc = s.proc ∧ match a with
    | none => Books t k y
    | some x => Books t k (y + Pi.single x.1 1 + Pi.single x.2 1)) ?_ fun a t ht => ?_
  · refine filealloc_next h ⟨rfl, h⟩ fun f0 t h0 hf0 => filealloc_next h0 ?_ fun f1 u h1 hf1 => ?_
    · exact fileclose_next h0 fun u hu hproc => ⟨hproc.trans hf0.proc, hu.cast rfl (by simp)⟩
    · have hne : f0 ≠ f1 := by
        rintro rfl
        exact one_ne_zero (hf0.ref.symm.trans hf1.free)
      have hproc : u.proc = s.proc := hf1.proc.trans hf0.proc
      refine quiet_flip.next h1.start fun memory v hv => ?_
      have hv' := h1.does hv rfl
      refine .ite (fun _ => then_getFile (then_setFile (then_getFile (then_setFile ?_)))) fun _ => ?_
      · have hw := hv'.retype f0 (x := { v.file f0 with type := .pipe, readable := true, writable := false })
          (by rw [hv.file, hf1.other f0 hne, hf0.type]; nofun) nofun rfl
          (by rw [hv.file, hf1.other f0 hne, hf0.ref]; nofun)
        have hother : (v.setFile f0 { v.file f0 with type := .pipe, readable := true, writable := false }).file f1 =
            u.file f1 := by rw [file_setFile, if_neg hne.symm, hv.file]
        refine ⟨hv.proc.trans hproc, hw.retype f1 ?_ nofun rfl ?_⟩
        · rw [hother, hf1.type]
          nofun
        · rw [hother, hf1.ref]
          nofun
      · refine fileclose_next hv' fun w hw hw' => ?_
        refine Then.imp (fileclose_next hw fun x hx hx' => ?_) fun _ _ h => h
        refine ⟨hx'.trans (hw'.trans (hv.proc.trans hproc)), hx.cast rfl ?_⟩
        abel
  · cases a with
    | none => exact hnone t ht.2 ht.1
    | some x => exact hsome x.1 x.2 t ht.2 ht.1

theorem then_sysPipe (h : Books s rest 0) (hp : (s.proc p).state = .used) (arg : Bool) :
    Then s (sysPipe p arg) fun _ t => Books t rest 0 := by
  refine .ite (fun _ => h) fun _ => pipealloc_next h (fun t ht _ => ht) fun rf wf t ht hproc => ?_
  have hused : (t.proc p).state = .used := by rw [hproc]; exact hp
  refine fdalloc_next ht hused ?_ fun fd0 u hu _ hused' hfd => fdalloc_next hu hused' ?_ fun fd1 v hv _ _ _ => ?_
  · refine fileclose_next ht fun u hu _ => fileclose_next hu fun v hv _ => hv.cast rfl ?_
    abel
  · refine then_setOfile (fileclose_next (hu.setOfile p fd0 (.inr rfl)) fun v hv _ => ?_)
    refine fileclose_next hv fun w hw _ => hw.cast rfl ?_
    rw [hfd, point_some, point_none]
    abel
  · refine hv.cast rfl ?_
    abel

/-- One descriptor of the child. -/
theorem then_dupFd {np : Pp} {fd : Fin NOFILE} (h : Books s rest 0) (hnp : (s.proc np).state = .used)
    (hfree : (s.proc np).ofile fd = none) :
    Then s (dupFd p np fd) fun _ t => Books t rest 0 ∧ (t.proc np).state = .used ∧
      (t.proc np).cwd = (s.proc np).cwd ∧ ∀ fd', fd' ≠ fd → (t.proc np).ofile fd' = (s.proc np).ofile fd' := by
  refine then_getProc ?_
  cases hofile : (s.proc p).ofile fd with
  | none => exact ⟨h, hnp, rfl, fun _ _ => rfl⟩
  | some f =>
    refine filedup_next h fun t ht hproc => ?_
    have hu := ht.setOfile np fd (o := some f) (.inl (by rw [hproc]; exact hnp))
    refine ⟨hu.cast rfl ?_, ?_, ?_, fun fd' hne => ?_⟩
    · rw [hproc, hfree]
      simp
    · rw [proc_setProc, if_pos rfl]
      exact (congrArg Proc.state (congrFun hproc np)).trans hnp
    · rw [proc_setProc, if_pos rfl]
      change (t.proc np).cwd = (s.proc np).cwd
      rw [hproc]
    · rw [proc_setProc, if_pos rfl]
      exact (update_of_ne hne _ _).trans (congrFun (congrArg Proc.ofile (congrFun hproc np)) fd')

theorem then_dupFds {np : Pp} (h : Books s rest 0) (hnp : (s.proc np).state = .used)
    (hfree : ∀ fd, (s.proc np).ofile fd = none) (hcwd : (s.proc np).cwd = none) :
    Then s (each (dupFd p np) (finRange NOFILE)) fun _ t =>
      Books t rest 0 ∧ (t.proc np).state = .used ∧ (t.proc np).cwd = none := by
  let Inv (l : List (Fin NOFILE)) (t : Kernel) : Prop :=
    (Books t rest 0 ∧ (t.proc np).state = .used ∧ (t.proc np).cwd = none) ∧
      l.Nodup ∧ ∀ fd ∈ l, (t.proc np).ofile fd = none
  refine Then.imp (wp_each Inv ?_ ⟨⟨h, hnp, hcwd⟩, nodup_finRange _, fun fd _ => hfree fd⟩) fun _ t ht => ht.1
  intro fd l t _ ⟨⟨ht, hstate, hcwd⟩, hnodup, hl⟩
  obtain ⟨hfd, hnodup⟩ := List.nodup_cons.mp hnodup
  refine Then.imp (then_dupFd ht hstate (hl fd (mem_cons_self ..))) ?_
  intro _ u ⟨hu, hstate', hcwd', hother⟩
  refine ⟨⟨hu, hstate', hcwd'.trans hcwd⟩, hnodup, fun fd' hfd' => ?_⟩
  rw [hother fd' (ne_of_mem_of_not_mem hfd' hfd)]
  exact hl fd' (mem_cons_of_mem _ hfd')

theorem then_setProc {x : Proc} {m : Unit → M β} {R : β → Kernel → Prop} (h : Then (s.setProc p x) (m ()) R) :
    Then s (setProc p x >>= m) R := h

theorem then_fork (h : Books s rest 0) : Then s (fork p) fun _ t => Books t rest 0 := by
  refine then_gets ?_
  split
  · exact h
  · rename_i np hnp
    have hunused : (s.proc np).state = .unused := by simpa using List.find?_some hnp
    refine quiet_flip.next (Does.refl s) fun memory t hd => .ite (fun _ => then_getProc (then_setProc ?_))
      fun _ => h.of_does hd
    have ht : Books t rest 0 := h.of_does hd
    obtain ⟨hcwd, hofile⟩ := ht.idle np (by rw [hd.proc, hunused]; nofun)
    have hu := ht.setState np (x := { t.proc np with state := .used, parent := some p }) rfl rfl
      fun hne => absurd rfl hne
    have hself : (t.setProc np { t.proc np with state := .used, parent := some p }).proc np =
        { t.proc np with state := .used, parent := some p } := by rw [proc_setProc, if_pos rfl]
    refine (then_dupFds hu (by rw [hself]) (by rw [hself]; exact hofile) (by rw [hself]; exact hcwd)).bind ?_
    intro _ v ⟨hv, hstate, hnocwd⟩
    refine then_getProc ?_
    cases hp : (v.proc p).cwd with
    | none => exact then_panic
    | some cwd =>
      refine (then_idup (hv.homed le_rfl cwd hp)).bind ?_
      rintro cwd w ⟨rfl, hw⟩
      have hw' : Books w (rest.plus (Pi.single cwd 1)) 0 :=
        hv.does hw (by rw [hv.shape]; simp [add_comm])
      refine then_getProc ((hw'.setCwd np (.inl ?_)).cast ?_ rfl)
      · rw [hw.proc]
        exact hstate
      · rw [hw.proc, hnocwd]
        simp

theorem then_closeFd {fd : Fin NOFILE} (h : Books s rest 0) :
    Then s (closeFd p fd) fun _ t => Books t rest 0 ∧ (t.proc p).ofile fd = none ∧
      ∀ fd', (s.proc p).ofile fd' = none → (t.proc p).ofile fd' = none := by
  refine then_getProc ?_
  cases hofile : (s.proc p).ofile fd with
  | none => exact ⟨h, hofile, fun _ => id⟩
  | some f =>
    refine fileclose_next h fun t ht hproc => ?_
    have hu := ht.setOfile p fd (.inr rfl)
    refine ⟨hu.cast rfl ?_, ?_, fun fd' hfd' => ?_⟩
    · rw [hproc, hofile]
      simp
    · rw [proc_setProc, if_pos rfl]
      exact update_self _ _ _
    · rw [proc_setProc, if_pos rfl]
      change update (t.proc p).ofile fd none fd' = none
      rw [update_apply, hproc, hfd', ite_self]

theorem then_closeFds (h : Books s rest 0) :
    Then s (each (closeFd p) (finRange NOFILE)) fun _ t =>
      Books t rest 0 ∧ ∀ fd, (t.proc p).ofile fd = none := by
  let Inv (l : List (Fin NOFILE)) (t : Kernel) : Prop :=
    Books t rest 0 ∧ ∀ fd, fd ∉ l → (t.proc p).ofile fd = none
  refine Then.imp (wp_each Inv ?_ ⟨h, fun fd hfd => absurd (mem_finRange fd) hfd⟩) fun _ t ht =>
    ⟨ht.1, fun fd => ht.2 fd not_mem_nil⟩
  intro fd l t _ ⟨ht, hl⟩
  refine Then.imp (then_closeFd ht) fun _ u ⟨hu, hfd, hother⟩ => ⟨hu, fun fd' hfd' => ?_⟩
  by_cases heq : fd' = fd
  · exact heq ▸ hfd
  · exact hother fd' (hl fd' (by simp [heq, hfd']))

theorem then_exit (h : Books s rest 0) : Then s (exit p) fun _ t => Books t rest 0 := by
  refine .ite (fun _ => then_panic) fun _ => (then_closeFds h).bind fun _ t ht => ?_
  obtain ⟨ht, hofile⟩ := ht
  refine beginOp_next ht.start fun u hu => then_getProc ?_
  cases hcwd : (u.proc p).cwd with
  | none => exact then_panic
  | some cwd =>
    refine iput_next hu fun v _ hv => endOp_next hv fun v hv => then_getProc (then_setProc ?_)
    have hv' : Books v (rest.plus (-Pi.single cwd 1)) 0 := ht.does hv (by simp [add_comm])
    have hw : Books (v.setProc p { v.proc p with cwd := none }) rest 0 := by
      refine (hv'.setCwd p (.inr rfl)).cast ?_ rfl
      rw [hv.proc, ← hu.proc, hcwd]
      simp
    have hself : (v.setProc p { v.proc p with cwd := none }).proc p = { v.proc p with cwd := none } := by
      rw [proc_setProc, if_pos rfl]
    refine Then.bind (Q := fun _ x => Books x rest 0 ∧ (x.proc p).cwd = none ∧
      (x.proc p).ofile = (v.proc p).ofile) ?_ fun _ x hx => then_getProc ?_
    · refine ⟨hw.of_proc ?_ ?_ ?_, ?_, ?_⟩
      · intro q
        split <;> rfl
      · intro q
        split <;> rfl
      · intro q
        split
        · exact hw.idle q
        · exact hw.idle q
      · simp only [hself]
        split <;> rfl
      · simp only [hself]
        split <;> rfl
    · obtain ⟨hx, hcwd, hofile'⟩ := hx
      refine hx.setState p rfl rfl fun _ => ⟨hcwd, fun fd => ?_⟩
      change (x.proc p).ofile fd = none
      rw [hofile', hv.proc]
      exact hofile fd

theorem then_wait (h : Books s rest 0) : Then s (wait p) fun _ t => Books t rest 0 := by
  refine then_gets ?_
  split
  · exact h
  · rename_i q hq
    have hzombie : (s.proc q).state = .zombie := by
      have := List.find?_some hq
      simp only [decide_eq_true_eq] at this
      exact this.2
    exact h.setState q rfl rfl fun _ => h.idle q (by rw [hzombie]; nofun)

/-! ## Runs of calls -/

theorem then_call (h : Books s rest 0) (hp : (s.proc p).state = .used) (call : Call) :
    Then s (call.run p) fun _ t => Books t rest 0 := by
  have hhome : Homed s p := h.homed le_rfl
  cases call with
  | dup fd => exact then_sysDup h hp fd
  | read fd n piped => exact then_sysRead h fd n piped
  | write fd src piped => exact then_sysWrite h fd src piped
  | close fd => exact then_sysClose h fd
  | fstat fd st => exact then_sysFstat h fd st
  | link old new =>
    cases old <;> cases new
    case some.some => exact (then_sysLink hhome _ _).imp fun _ _ hd => h.of_does hd
    all_goals exact h
  | unlink path =>
    cases path with
    | none => exact h
    | some path => exact (then_sysUnlink hhome path).imp fun _ _ hd => h.of_does hd
  | «open» path omode => exact then_sysOpen h hp path omode
  | mkdir path => exact then_sysMake h path _ _ _
  | mknod path major minor => exact then_sysMake h path _ _ _
  | chdir path => exact then_sysChdir h hp path
  | exec path => exact then_exec h path
  | pipe arg => exact then_sysPipe h hp arg
  | fork => exact then_fork h
  | wait => exact then_wait h
  | exit => exact then_exit h

theorem step_books {l : Label} (h : Books s rest 0) (hstep : step s l = some t) : Books t rest 0 := by
  rw [step] at hstep
  split at hstep
  · rename_i hused
    have h' : Books { s with input := l.input, coin := l.coin } rest 0 :=
      ⟨h.shape, h.files, h.closed, h.unique, h.idle⟩
    split at hstep
    · rename_i hok
      cases hstep
      exact wp_ok (Q := fun _ t => Books t rest 0) (then_call h' hused l.call) hok
    · cases hstep
  · cases hstep

theorem boot_books (blk : Nat → Blk) : Books (boot blk) rest 0 where
  shape := by
    have hopens : opens (boot blk) = fun _ => none := rfl
    have hcwds : cwds (boot blk) = update (fun _ => none) initproc (some ⟨0, by decide⟩) := by
      funext p
      simp only [cwds, boot, update_apply]
      split <;> rfl
    rw [tabled, hopens, hcwds, tally_update, tally_none, tally_none]
    simp only [Fs.shape, Shape.plus, rest, Shape.mk.injEq]
    refine ⟨?_, ?_, rfl, rfl⟩
    · funext e
      simp only [boot, point_some, point_none, Pi.single_apply, Pi.add_apply, Pi.sub_apply, Pi.zero_apply, Fin.ext_iff]
      split <;> rfl
    · funext e
      simp only [boot]
      split <;> rfl
  files := by
    intro f
    have hslots : slots (boot blk) = fun _ => none := by
      funext x
      simp only [slots, boot]
      split <;> rfl
    rw [hslots, tally_none]
    rfl
  closed := fun _ _ => rfl
  unique := by
    have hroot : ∀ e, 0 < ((boot blk).inode e).ref → e.val = 0 := by
      intro e he
      by_contra hne
      simp [boot, hne, zeroInode] at he
    intro e e' he he' _ _
    exact Fin.ext ((hroot e he).trans (hroot e' he').symm)
  idle := by
    intro p hp
    simp only [boot] at hp ⊢
    split
    · rename_i heq
      rw [if_pos heq] at hp
      exact absurd rfl hp
    · exact ⟨rfl, fun _ => rfl⟩

/-- The counts are exact, and no call has left a lock or an operation behind. -/
structure RefsExact (s : Kernel) : Prop where
  inodes : ∀ e, (s.inode e).ref =
    (Finset.univ.filter fun f => 0 < (s.file f).ref ∧ (s.file f).type = .inode ∧ (s.file f).ip = e).card +
      (Finset.univ.filter fun p => (s.proc p).cwd = some e).card
  files : ∀ f, (s.file f).ref =
    (Finset.univ.filter fun x : Pp × Fin NOFILE => (s.proc x.1).ofile x.2 = some f).card
  unique : Unique s
  inodeLocks : ∀ e, (s.inode e).lock = false
  bufferLocks : s.locked = []
  outstanding : s.outstanding = 0

theorem Books.refsExact (h : Books s rest 0) : RefsExact s where
  inodes := by
    intro e
    have hopen : (fun f => opens s f = some e) =
        fun f => 0 < (s.file f).ref ∧ (s.file f).type = .inode ∧ (s.file f).ip = e := by
      funext f
      have href := h.files f
      have hnonneg := tally_nonneg (slots s) f
      have hclosed := h.closed f
      simp only [Pi.zero_apply] at href hnonneg
      simp only [opens, held, eq_iff_iff]
      constructor
      · intro hf
        split at hf
        · rename_i htype
          refine ⟨?_, htype, Option.some.inj hf⟩
          rcases eq_or_ne (s.file f).ref 0 with h0 | h0
          · rw [hclosed h0] at htype
            cases htype
          · omega
        · cases hf
      · rintro ⟨_, htype, rfl⟩
        rw [if_pos htype]
    have hrefs : (s.inode e).ref = tally (opens s) e + tally (cwds s) e := by
      rw [← shape_refs, h.shape]
      exact zero_add _
    rw [hrefs, tally_apply, tally_apply]
    simp only [hopen]
    rfl
  files := by
    intro f
    rw [h.files f, tally_apply, Pi.zero_apply, add_zero]
    rfl
  unique := h.unique
  inodeLocks := by
    intro e
    rw [← shape_locks, h.shape]
    rfl
  bufferLocks := congrArg Shape.bufs h.shape
  outstanding := congrArg Shape.ops h.shape

/-- Whatever is on the disk and whatever the calls are, between calls every count is exact. -/
theorem refs_exact (blk : Nat → Blk) (calls : List Label) : Always step RefsExact (boot blk) calls :=
  always_of_inductive (fun s => Books s rest 0) (fun _ _ _ => step_books) (fun _ h => h.refsExact)
    (boot_books blk) calls

-- The first process opens the root directory and forks: one open file with two descriptors, two
-- current directories.
example : (run step (boot fun b i => if b = 1 ∧ i.val = 20 then 2 else if b = 2 ∧ i.val = 64 then 1 else 0)
    [⟨initproc, .open (some [47]) 0, [], []⟩, ⟨initproc, .fork, [], [true]⟩]).map
      (fun s => ((s.inode ⟨0, by decide⟩).ref, (s.file ⟨0, by decide⟩).ref)) = some (3, 2) := by
  decide +kernel

end Xv6.Fs
