import Mathlib
import Xv6.FsCalls
import Xv6.Tally

/- What the functions of fs.c do to the tables.

   `shape` is what a call has to leave in order: the references and locks of the
   cached inodes, the locked buffers, the operations of the log. `Does s σ t` says
   that a command has gone from `s` to `t` with shape `σ`, has not touched the
   tables of files and processes, and has kept the inodes in use distinct.

   1. Functions whose effect on the shape is the same whatever the disk holds
      (`Acts`): one rule for sequences, so that a buffer that is read and released is
      gone from the shape.
   2. `iget`, `iput`, `dirlookup`, `namex`, `create` and the rest, which point and
      drop references.

   Nothing is assumed of the disk. -/
namespace Xv6.Fs
open Function Bits ByteBlock Log Command Tally

structure Shape where
  refs : Ip → Int
  locks : Ip → Bool
  bufs : List Nat
  ops : Int

def shape (s : Kernel) : Shape :=
  ⟨fun e => (s.inode e).ref, fun e => (s.inode e).lock, s.locked, s.outstanding⟩

/-- No two cached inodes in use are the same inode. -/
def Unique (s : Kernel) : Prop :=
  ∀ e e', 0 < (s.inode e).ref → 0 < (s.inode e').ref → (s.inode e).dev = (s.inode e').dev →
    (s.inode e).inum = (s.inode e').inum → e = e'

structure Does (s : Kernel) (σ : Shape) (t : Kernel) : Prop where
  shape : shape t = σ
  unique : Unique s → Unique t
  file : t.file = s.file
  proc : t.proc = s.proc

variable {α β : Type} {s t u : Kernel} {σ τ : Shape} {e e' : Ip} {b : Nat}

theorem Does.trans (h : Does s σ t) (h' : Does t τ u) : Does s τ u :=
  ⟨h'.shape, h'.unique ∘ h.unique, h'.file.trans h.file, h'.proc.trans h.proc⟩

theorem Does.cast (h : Does s σ t) (hσ : σ = τ) : Does s τ t := hσ ▸ h

theorem Does.of_inode (h : ∀ e, (t.inode e).ref = (s.inode e).ref ∧ (t.inode e).dev = (s.inode e).dev ∧
      (t.inode e).inum = (s.inode e).inum) (hshape : Fs.shape t = σ) (hfile : t.file = s.file)
    (hproc : t.proc = s.proc) : Does s σ t := by
  refine ⟨hshape, ?_, hfile, hproc⟩
  intro hu e e' he he' hdev hinum
  rw [(h e).1] at he
  rw [(h e').1] at he'
  rw [(h e).2.1, (h e').2.1] at hdev
  rw [(h e).2.2, (h e').2.2] at hinum
  exact hu e e' he he' hdev hinum

/-! ## Commands with a fixed effect -/

/-- If the command returns, its effect on the shape is `F`. -/
def Acts (m : M α) (F : Shape → Shape) : Prop :=
  ∀ s, wp m (fun _ t => Does s (F (shape s)) t) (fun _ => True) s

def Quiet (m : M α) : Prop := Acts m id

theorem Acts.bind {m : M α} {f : α → M β} {F G : Shape → Shape} (hm : Acts m F)
    (hf : ∀ a, Acts (f a) G) : Acts (m >>= f) (fun σ => G (F σ)) := by
  intro s
  rw [wp_bind]
  refine wp_imp (hm s) fun a t ht => ?_
  refine wp_imp (hf a t) fun b u hu => ?_
  rw [ht.shape] at hu
  exact ht.trans hu

theorem Acts.congr {m : M α} {F G : Shape → Shape} (hm : Acts m F) (h : ∀ σ, F σ = G σ) : Acts m G := by
  intro s
  rw [← h]
  exact hm s

theorem Quiet.bind {m : M α} {f : α → M β} {F : Shape → Shape} (hm : Quiet m) (hf : ∀ a, Acts (f a) F) :
    Acts (m >>= f) F :=
  Acts.bind hm hf

theorem Acts.ite {c : Prop} [Decidable c] {m₁ m₂ : M α} {F : Shape → Shape} (h₁ : Acts m₁ F)
    (h₂ : Acts m₂ F) : Acts (if c then m₁ else m₂) F := by
  split
  · exact h₁
  · exact h₂

theorem acts_fail {F : Shape → Shape} (e : Stop) : Acts (fail e : M α) F := fun _ => trivial

theorem acts_panic {F : Shape → Shape} (m : Panic) : Acts (panic m : M α) F := fun _ => trivial

theorem Does.refl (s : Kernel) : Does s (Fs.shape s) s := ⟨rfl, id, rfl, rfl⟩

theorem quiet_pure (a : α) : Quiet (pure a : M α) := fun s => Does.refl s

theorem quiet_gets (f : Kernel → α) : Quiet (gets f : M α) := fun s => Does.refl s

theorem quiet_modify {f : Kernel → Kernel} (hinode : ∀ s, (f s).inode = s.inode)
    (hbufs : ∀ s, (f s).locked = s.locked) (hops : ∀ s, (f s).outstanding = s.outstanding)
    (hfile : ∀ s, (f s).file = s.file) (hproc : ∀ s, (f s).proc = s.proc) : Quiet (modify f : M Unit) := by
  intro s
  refine Does.of_inode (fun e => by rw [hinode]; exact ⟨rfl, rfl, rfl⟩) ?_ (hfile s) (hproc s)
  simp only [shape, hinode, hbufs, hops, id]

def Shape.push (b : Nat) (σ : Shape) : Shape := { σ with bufs := b :: σ.bufs }

def Shape.pop (b : Nat) (σ : Shape) : Shape := { σ with bufs := σ.bufs.erase b }

@[simp] theorem Shape.pop_push (b : Nat) (σ : Shape) : (σ.push b).pop b = σ := by
  simp [push, pop]

theorem acts_bread (b : Nat) : Acts (bread b) (Shape.push b) := by
  intro s
  simp only [bread, wp_bind, wp_gets, wp_ite, hang, panic, wp_fail, wp_modify, implies_true, true_and, id]
  intro _ _ _
  exact Does.of_inode (fun _ => ⟨rfl, rfl, rfl⟩) rfl rfl rfl

theorem acts_brelse (b : Nat) : Acts (brelse b) (Shape.pop b) := by
  intro s
  simp only [brelse, wp_bind, wp_gets, wp_ite, panic, wp_fail, wp_modify, implies_true, and_true, id]
  intro _
  exact Does.of_inode (fun _ => ⟨rfl, rfl, rfl⟩) rfl rfl rfl

theorem quiet_data (b : Nat) : Quiet (data b) := quiet_gets _

theorem quiet_setData (b : Nat) (x : Blk) : Quiet (setData b x) :=
  quiet_modify (fun _ => rfl) (fun _ => rfl) (fun _ => rfl) (fun _ => rfl) fun _ => rfl

theorem quiet_logWrite (b : Nat) : Quiet (logWrite b) := by
  refine (quiet_gets _).bind fun s => ?_
  refine .ite (acts_panic _) (.ite (acts_panic _) (.ite (quiet_pure _) ?_))
  exact quiet_modify (fun _ => rfl) (fun _ => rfl) (fun _ => rfl) (fun _ => rfl) fun _ => rfl

theorem quiet_bracket {m : M α} (h : Acts m (Shape.pop b)) : Quiet (bread b >>= fun _ => m) :=
  ((acts_bread b).bind fun _ => h).congr (Shape.pop_push b)

theorem quiet_readsb : Quiet readsb :=
  quiet_bracket ((quiet_data 1).bind fun _ => ((acts_brelse 1).bind fun _ => quiet_pure _).congr fun _ => rfl)

theorem quiet_bzero (b : Nat) : Quiet (bzero b) :=
  quiet_bracket ((quiet_setData b _).bind fun _ => (quiet_logWrite b).bind fun _ => acts_brelse b)

theorem quiet_ballocFrom (fuel b : Nat) : Quiet (ballocFrom fuel b) := by
  induction fuel generalizing b with
  | zero => exact acts_panic _
  | succ fuel ih =>
    refine (quiet_gets _).bind fun sb => .ite (quiet_bracket ((quiet_data _).bind fun x => ?_)) (acts_panic _)
    split
    · exact (quiet_setData _ _).bind fun _ => (quiet_logWrite _).bind fun _ =>
        (acts_brelse _).bind fun _ => (quiet_bzero _).bind fun _ => quiet_pure _
    · exact (acts_brelse _).bind fun _ => ih _

theorem quiet_balloc : Quiet balloc := (quiet_gets _).bind fun _ => quiet_ballocFrom _ _

theorem quiet_bfree (b : Word) : Quiet (bfree b) := by
  refine quiet_readsb.bind fun sb => Quiet.bind ?_ fun _ => ?_
  · exact quiet_modify (fun _ => rfl) (fun _ => rfl) (fun _ => rfl) (fun _ => rfl) fun _ => rfl
  · refine quiet_bracket ((quiet_data _).bind fun x => .ite (acts_panic _) ?_)
    exact (quiet_setData _ _).bind fun _ => (quiet_logWrite _).bind fun _ => acts_brelse _

/-! ## Single cached inodes -/

theorem quiet_getInode (e : Ip) : Quiet (getInode e) := quiet_gets _

theorem does_setInode {x : Inode} (hdev : x.dev = (s.inode e).dev) (hinum : x.inum = (s.inode e).inum)
    (hpos : 0 < x.ref → 0 < (s.inode e).ref) :
    Does s { shape s with
      refs := update (shape s).refs e x.ref
      locks := update (shape s).locks e x.lock } (s.setInode e x) := by
  refine ⟨?_, ?_, rfl, rfl⟩
  · have hrefs : (fun e' => ((s.setInode e x).inode e').ref) =
        update (shape s).refs e x.ref := by
      funext e'
      by_cases he : e' = e
      · subst he
        simp [Kernel.setInode]
      · simp [Kernel.setInode, he, shape]
    have hlocks : (fun e' => ((s.setInode e x).inode e').lock) =
        update (shape s).locks e x.lock := by
      funext e'
      by_cases he : e' = e
      · subst he
        simp [Kernel.setInode]
      · simp [Kernel.setInode, he, shape]
    rw [shape, hrefs, hlocks]
    rfl
  · intro hu e₁ e₂ h₁ h₂ hd hi
    have hkeep : ∀ e', 0 < ((s.setInode e x).inode e').ref → 0 < (s.inode e').ref ∧
        ((s.setInode e x).inode e').dev = (s.inode e').dev ∧
        ((s.setInode e x).inode e').inum = (s.inode e').inum := by
      intro e' he'
      by_cases he : e' = e
      · subst he
        simp only [Kernel.setInode, update_self] at he' ⊢
        exact ⟨hpos he', hdev, hinum⟩
      · simp only [Kernel.setInode, update_of_ne he] at he' ⊢
        exact ⟨he', trivial, trivial⟩
    obtain ⟨h₁', hd₁, hi₁⟩ := hkeep e₁ h₁
    obtain ⟨h₂', hd₂, hi₂⟩ := hkeep e₂ h₂
    exact hu e₁ e₂ h₁' h₂' (hd₁ ▸ hd₂ ▸ hd) (hi₁ ▸ hi₂ ▸ hi)

def Shape.lock (e : Ip) (k : Bool) (σ : Shape) : Shape := { σ with locks := update σ.locks e k }

def Shape.plus (r : Ip → Int) (σ : Shape) : Shape := { σ with refs := σ.refs + r }

theorem shape_refs (s : Kernel) (e : Ip) : (shape s).refs e = (s.inode e).ref := rfl

theorem shape_locks (s : Kernel) (e : Ip) : (shape s).locks e = (s.inode e).lock := rfl

theorem update_refs (f : Ip → Int) (e : Ip) (d : Int) :
    update f e (f e + d) = f + Pi.single e d := by
  funext e'
  by_cases he : e' = e
  · subst he
    simp
  · simp [he]

theorem does_ref {d : Int} (hpos : 0 < (s.inode e).ref + d → 0 < (s.inode e).ref) :
    Does s ((shape s).plus (Pi.single e d)) (s.setInode e { s.inode e with ref := (s.inode e).ref + d }) := by
  have := does_setInode (s := s) (e := e) (x := { s.inode e with ref := (s.inode e).ref + d }) rfl rfl hpos
  rw [← shape_refs, update_refs, ← shape_locks, update_eq_self] at this
  exact this

theorem does_lock (k : Bool) : Does s ((shape s).lock e k) (s.setInode e { s.inode e with lock := k }) := by
  have := does_setInode (s := s) (e := e) (x := { s.inode e with lock := k }) rfl rfl id
  rw [← shape_refs, update_eq_self] at this
  exact this

theorem does_copy (d : Dinode) (valid : Bool) :
    Does s (shape s) (s.setInode e { s.inode e with d, valid }) := by
  have := does_setInode (s := s) (e := e) (x := { s.inode e with d, valid }) rfl rfl id
  rw [← shape_refs, ← shape_locks, update_eq_self, update_eq_self] at this
  exact this

theorem quiet_editInode (e : Ip) (f : Dinode → Dinode) : Quiet (editInode e f) :=
  fun s => does_copy (f (s.inode e).d) (s.inode e).valid

theorem quiet_setValid (e : Ip) (valid : Bool) : Quiet (setValid e valid) :=
  fun s => does_copy (s.inode e).d valid

theorem quiet_iupdate (e : Ip) : Quiet (iupdate e) := by
  refine (quiet_getInode e).bind fun ip => (quiet_gets _).bind fun sb => quiet_bracket ?_
  exact (quiet_data _).bind fun x => (quiet_setData _ _).bind fun _ => (quiet_logWrite _).bind fun _ =>
    acts_brelse _

theorem quiet_bmapAddr (e : Ip) (k : Nat) : Quiet (bmapAddr e k) := by
  refine (quiet_getInode e).bind fun ip => .ite ?_ (quiet_pure _)
  exact quiet_balloc.bind fun _ => (quiet_editInode e _).bind fun _ => quiet_pure _

theorem quiet_bmapEntry (ind : Word) (j : Nat) : Quiet (bmapEntry ind j) := by
  refine quiet_bracket ((quiet_data _).bind fun x => .ite ?_ ?_)
  · exact quiet_balloc.bind fun _ => (quiet_data _).bind fun _ => (quiet_setData _ _).bind fun _ =>
      (quiet_logWrite _).bind fun _ => (acts_brelse _).bind fun _ => quiet_pure _
  · exact (acts_brelse _).bind fun _ => quiet_pure _

theorem quiet_bmap (e : Ip) (bn : Nat) : Quiet (bmap e bn) := by
  refine .ite (quiet_bmapAddr e bn) (.ite ?_ (acts_panic _))
  exact (quiet_bmapAddr e NDIRECT).bind fun ind => quiet_bmapEntry ind _

theorem quiet_each {γ : Type} {f : γ → M Unit} (hf : ∀ a, Quiet (f a)) (l : List γ) : Quiet (each f l) := by
  induction l with
  | nil => exact quiet_pure _
  | cons a l ih => exact (hf a).bind fun _ => ih

theorem quiet_itrunc (e : Ip) : Quiet (itrunc e) := by
  have hdirect : ∀ i, Quiet (freeDirect e i) := fun i =>
    (quiet_getInode e).bind fun ip => .ite (quiet_pure _)
      ((quiet_bfree _).bind fun _ => quiet_editInode e _)
  have hentry : ∀ b j, Quiet (freeEntry b j) := fun b j =>
    (quiet_data b).bind fun x => .ite (quiet_pure _) (quiet_bfree _)
  have hindirect : Quiet (freeIndirect e) := by
    refine (quiet_getInode e).bind fun ip => .ite (quiet_pure _) (quiet_bracket ?_)
    exact (quiet_each (hentry _) _).bind fun _ => (acts_brelse _).bind fun _ => (quiet_bfree _).bind fun _ =>
      quiet_editInode e _
  exact (quiet_each hdirect _).bind fun _ => hindirect.bind fun _ => (quiet_editInode e _).bind fun _ =>
    quiet_iupdate e

theorem quiet_freeIfLast (e : Ip) : Quiet (freeIfLast e) := by
  refine (quiet_getInode e).bind fun ip => .ite ?_ (quiet_pure _)
  exact (quiet_itrunc e).bind fun _ => (quiet_editInode e _).bind fun _ => (quiet_iupdate e).bind fun _ =>
    quiet_setValid e false

theorem quiet_readInode (e : Ip) : Quiet (readInode e) := by
  refine (quiet_getInode e).bind fun ip => .ite (quiet_pure _) ((quiet_gets _).bind fun sb => quiet_bracket ?_)
  exact (quiet_data _).bind fun x => (quiet_editInode e _).bind fun _ => (acts_brelse _).bind fun _ =>
    (quiet_setValid e true).bind fun _ => (quiet_getInode e).bind fun _ => .ite (acts_panic _) (quiet_pure _)

/-! ## Locks and references -/

section

variable {k k' : Bool} {r r' : Ip → Int}

@[simp] theorem Shape.lock_lock : (σ.lock e k).lock e k' = σ.lock e k' := by
  simp [lock]

@[simp] theorem Shape.lock_self (h : σ.locks e = k) : σ.lock e k = σ := by
  simp [lock, ← h]

theorem Shape.lock_comm (h : e ≠ e') : (σ.lock e' k).lock e k' = (σ.lock e k').lock e' k := by
  simp [lock, update_comm h]

@[simp] theorem Shape.plus_plus : (σ.plus r).plus r' = σ.plus (r + r') := by
  simp [plus, add_assoc]

@[simp] theorem Shape.plus_zero : σ.plus 0 = σ := by
  simp [plus]

@[simp] theorem Shape.lock_plus : (σ.plus r).lock e k = (σ.lock e k).plus r := rfl

@[simp] theorem Shape.locks_plus : (σ.plus r).locks = σ.locks := rfl

@[simp] theorem Shape.locks_lock : (σ.lock e k).locks = update σ.locks e k := rfl

@[simp] theorem Shape.refs_lock : (σ.lock e k).refs = σ.refs := rfl

end

/-- Partial correctness: what holds if the command returns. -/
def Then (s : Kernel) (m : M α) (Q : α → Kernel → Prop) : Prop := wp m Q (fun _ => True) s

theorem Then.bind {m : M α} {f : α → M β} {Q : α → Kernel → Prop} {R : β → Kernel → Prop}
    (hm : Then s m Q) (hf : ∀ a t, Q a t → Then t (f a) R) : Then s (m >>= f) R := by
  rw [Then, wp_bind]
  exact wp_imp hm hf

theorem Then.imp {m : M α} {Q R : α → Kernel → Prop} (hm : Then s m Q) (h : ∀ a t, Q a t → R a t) :
    Then s m R :=
  wp_imp hm h

theorem Then.ite {c : Prop} [Decidable c] {m₁ m₂ : M α} {Q : α → Kernel → Prop}
    (h₁ : c → Then s m₁ Q) (h₂ : ¬c → Then s m₂ Q) : Then s (if c then m₁ else m₂) Q :=
  wp_ite.mpr ⟨h₁, h₂⟩

theorem then_panic {m : Panic} {Q : α → Kernel → Prop} : Then s (panic m) Q := trivial

theorem Acts.then {m : M α} {f : α → M β} {F : Shape → Shape} {R : β → Kernel → Prop} (hm : Acts m F)
    (hf : ∀ a t, Does s (F (shape s)) t → Then t (f a) R) : Then s (m >>= f) R :=
  Then.bind (hm s) hf

theorem then_getInode {f : Inode → M β} {R : β → Kernel → Prop} (h : Then s (f (s.inode e)) R) :
    Then s (getInode e >>= f) R := h

theorem then_acquireInode (e : Ip) :
    Then s (acquireInode e) fun _ t => (shape s).locks e = false ∧ Does s ((shape s).lock e true) t := by
  refine then_getInode (.ite (fun _ => trivial) fun hl => ?_)
  exact ⟨Bool.eq_false_iff.mpr hl, does_lock true⟩

theorem acts_releaseInode (e : Ip) : Acts (releaseInode e) (Shape.lock e false) :=
  fun _ => does_lock false

theorem then_ilock (e : Ip) :
    Then s (ilock e) fun _ t => (shape s).locks e = false ∧ Does s ((shape s).lock e true) t := by
  refine then_getInode (.ite (fun _ => trivial) fun _ => ?_)
  refine (then_acquireInode e).bind fun _ t ⟨hl, ht⟩ => ?_
  refine Then.imp (quiet_readInode e t) fun _ u hu => ⟨hl, ?_⟩
  rw [ht.shape] at hu
  exact ht.trans hu

theorem then_iunlock (e : Ip) :
    Then s (iunlock e) fun _ t => (shape s).locks e = true ∧ Does s ((shape s).lock e false) t := by
  refine then_getInode (.ite (fun _ => trivial) fun h => ?_)
  refine Then.imp (acts_releaseInode e s) fun _ t ht => ⟨?_, ht⟩
  by_contra hl
  exact h (.inl (Bool.eq_false_iff.mpr hl))

theorem then_iput (e : Ip) :
    Then s (iput e) fun _ t =>
      (shape s).locks e = false ∧ Does s ((shape s).plus (-Pi.single e 1)) t := by
  refine (then_acquireInode e).bind fun _ t ⟨hl, ht⟩ => ?_
  refine (quiet_freeIfLast e).then fun _ u hu => (acts_releaseInode e).then fun _ v hv => ?_
  refine then_getInode ⟨hl, ?_⟩
  have hw := does_ref (s := v) (e := e) (d := -1) (by omega)
  rw [Pi.single_neg] at hw
  rw [id, ht.shape] at hu
  rw [hu.shape, Shape.lock_lock, Shape.lock_self hl] at hv
  rw [hv.shape] at hw
  exact ht.trans (hu.trans (hv.trans hw))

theorem then_iunlockput (e : Ip) :
    Then s (iunlockput e) fun _ t =>
      (shape s).locks e = true ∧ Does s (((shape s).lock e false).plus (-Pi.single e 1)) t := by
  refine (then_iunlock e).bind fun _ t ⟨hl, ht⟩ => ?_
  refine (then_iput e).imp fun _ u ⟨_, hu⟩ => ⟨hl, ?_⟩
  rw [ht.shape] at hu
  exact ht.trans hu

theorem then_idup (h : 0 < (s.inode e).ref) :
    Then s (idup e) fun a t => a = e ∧ Does s ((shape s).plus (Pi.single e 1)) t :=
  ⟨rfl, does_ref fun _ => h⟩

theorem then_iget (dev inum : Word) :
    Then s (iget dev inum) fun e t => Does s ((shape s).plus (Pi.single e 1)) t := by
  simp only [Then, iget, wp_bind, wp_gets, id]
  split
  · rename_i e he
    have hpos : 0 < (s.inode e).ref := by
      have := List.find?_some he
      simp only [decide_eq_true_eq] at this
      exact this.1
    exact does_ref fun _ => hpos
  · rename_i hnone
    split
    · rename_i e he
      have hzero : (s.inode e).ref = 0 := by simpa using List.find?_some he
      have hnot : ∀ e', 0 < (s.inode e').ref → ¬((s.inode e').dev = dev ∧ (s.inode e').inum = inum) := by
        intro e' hpos hid
        have := List.find?_eq_none.mp hnone e' (List.mem_finRange e')
        simp [hpos, hid] at this
      refine ⟨?_, ?_, rfl, rfl⟩
      · have hrefs : (fun e' => ((s.setInode e { s.inode e with dev, inum, ref := 1, valid := false }).inode
            e').ref) = (shape s).refs + Pi.single e 1 := by
          rw [← update_refs]
          funext e'
          by_cases he : e' = e
          · subst he
            simp [Kernel.setInode, shape_refs, hzero]
          · simp [Kernel.setInode, he, shape_refs]
        have hlocks : (fun e' => ((s.setInode e { s.inode e with dev, inum, ref := 1, valid := false }).inode
            e').lock) = (shape s).locks := by
          funext e'
          by_cases he : e' = e
          · subst he
            simp [Kernel.setInode, shape_locks]
          · simp [Kernel.setInode, he, shape_locks]
        rw [shape, hrefs, hlocks]
        rfl
      · intro hu e₁ e₂ h₁ h₂ hd hi
        simp only [Kernel.setInode] at h₁ h₂ hd hi
        by_cases he₁ : e₁ = e <;> by_cases he₂ : e₂ = e
        · rw [he₁, he₂]
        · simp only [he₁, update_self, update_of_ne he₂] at h₂ hd hi
          exact absurd ⟨hd.symm, hi.symm⟩ (hnot e₂ h₂)
        · simp only [he₂, update_self, update_of_ne he₁] at h₁ hd hi
          exact absurd ⟨hd, hi⟩ (hnot e₁ h₁)
        · simp only [update_of_ne he₁, update_of_ne he₂] at h₁ h₂ hd hi
          exact hu e₁ e₂ h₁ h₂ hd hi
    · trivial

/-! ## Contents and directories -/

theorem quiet_relock {m : M α} (e : Ip) (hm : Quiet m) {f : α → M β} (hf : ∀ a, Quiet (f a)) :
    Quiet (iunlock e >>= fun _ => m >>= fun a => ilock e >>= fun _ => f a) := by
  intro s
  refine (then_iunlock e).bind fun _ t ⟨hl, ht⟩ => hm.then fun a u hu => ?_
  refine (then_ilock e).bind fun _ v ⟨_, hv⟩ => ?_
  refine Then.imp (hf a v) fun _ w hw => ?_
  rw [id, ht.shape] at hu
  rw [hu.shape, Shape.lock_lock, Shape.lock_self hl] at hv
  rw [id, hv.shape] at hw
  exact ht.trans (hu.trans (hv.trans hw))

theorem quiet_consoleread (e : Ip) (n : Nat) : Quiet (consoleread e n) := by
  refine quiet_relock e ((quiet_gets _).bind fun s => Quiet.bind ?_ fun _ => quiet_pure _) fun _ => quiet_pure _
  exact quiet_modify (fun _ => rfl) (fun _ => rfl) (fun _ => rfl) (fun _ => rfl) fun _ => rfl

theorem quiet_consolewrite (e : Ip) (n : Nat) : Quiet (consolewrite e n) :=
  quiet_relock e (quiet_pure ()) fun _ => quiet_pure _

theorem quiet_readLoop (e : Ip) (fuel off n : Nat) : Quiet (readLoop e fuel off n) := by
  induction fuel generalizing off n with
  | zero => exact quiet_pure _
  | succ fuel ih =>
    refine .ite (quiet_pure _) ((quiet_bmap e _).bind fun addr => quiet_bracket ?_)
    exact (quiet_data _).bind fun x => (acts_brelse _).bind fun _ => (ih _ _).bind fun _ => quiet_pure _

theorem quiet_readi (e : Ip) (off n : Word) : Quiet (readi e off n) := by
  refine (quiet_getInode e).bind fun ip => .ite (.ite (quiet_consoleread e _) (quiet_pure _)) ?_
  exact .ite (quiet_pure _) ((quiet_readLoop e _ _ _).bind fun _ => quiet_pure _)

theorem quiet_writeLoop (e : Ip) (fuel off : Nat) (src : List Byte) : Quiet (writeLoop e fuel off src) := by
  induction fuel generalizing off src with
  | zero => exact quiet_pure _
  | succ fuel ih =>
    refine .ite (quiet_pure _) ((quiet_bmap e _).bind fun addr => quiet_bracket ?_)
    exact (quiet_data _).bind fun x => (quiet_setData _ _).bind fun _ => (quiet_logWrite _).bind fun _ =>
      (acts_brelse _).bind fun _ => ih _ _

theorem quiet_writei (e : Ip) (src : List Byte) (off : Word) : Quiet (writei e src off) := by
  have hgrow : ∀ w, Quiet (growTo e w) := fun w =>
    (quiet_getInode e).bind fun ip => .ite ((quiet_editInode e _).bind fun _ => quiet_iupdate e) (quiet_pure _)
  refine (quiet_getInode e).bind fun ip => .ite (.ite (quiet_consolewrite e _) (quiet_pure _)) ?_
  refine .ite (quiet_pure _) (.ite (quiet_pure _) (.ite (quiet_pure _) ?_))
  exact (quiet_writeLoop e _ _ _).bind fun _ => (hgrow _).bind fun _ => quiet_pure _

theorem then_lookupFrom (e : Ip) (name : List Byte) (fuel off : Nat) :
    Then s (lookupFrom e name fuel off) fun a t => Does s ((shape s).plus (point (a.map Prod.fst))) t := by
  induction fuel generalizing off s with
  | zero => exact ⟨by simp, id, rfl, rfl⟩
  | succ fuel ih =>
    refine then_getInode (.ite (fun _ => ?_) fun _ => ⟨by simp, id, rfl, rfl⟩)
    refine (quiet_readi e _ _).then fun bytes t ht => ?_
    rw [id] at ht
    cases bytes with
    | none => exact then_panic
    | some bytes =>
      refine .ite (fun _ => then_panic) fun _ => .ite (fun _ => ?_) fun _ => ?_
      · refine (then_iget _ _).bind fun next u hu => ?_
        rw [ht.shape] at hu
        exact ht.trans hu
      · refine (ih _).imp fun a u hu => ?_
        rw [ht.shape] at hu
        exact ht.trans hu

theorem then_dirlookup (e : Ip) (name : List Byte) :
    Then s (dirlookup e name) fun a t => Does s ((shape s).plus (point (a.map Prod.fst))) t :=
  then_getInode (.ite (fun _ => then_panic) fun _ => then_lookupFrom e name _ _)

theorem quiet_emptyFrom (e : Ip) (fuel off : Nat) : Quiet (emptyFrom e fuel off) := by
  induction fuel generalizing off with
  | zero => exact quiet_pure _
  | succ fuel ih =>
    refine (quiet_getInode e).bind fun ip => .ite ((quiet_readi e _ _).bind fun bytes => ?_) (quiet_pure _)
    cases bytes with
    | none => exact acts_panic _
    | some bytes => exact .ite (acts_panic _) (.ite (quiet_pure _) (ih _))

theorem quiet_dirlink (e : Ip) (name : List Byte) (inum : Word) : Quiet (dirlink e name inum) := by
  intro s
  refine (then_dirlookup e name).bind fun a t ht => ?_
  cases a with
  | some found =>
    refine (then_iput found.1).bind fun _ u ⟨_, hu⟩ => ?_
    rw [ht.shape, Shape.plus_plus] at hu
    rw [Option.map_some, point, add_neg_cancel, Shape.plus_zero] at hu
    exact ht.trans hu
  | none =>
    rw [Option.map_none, point, Shape.plus_zero] at ht
    have hrest : Quiet (getInode e >>= fun ip => emptyFrom e (ip.d.size.toNat / direntSize + 1) 0 >>= fun off =>
        writei e (Dirent.bytes ⟨inum.setWidth 16, padName name⟩) (BitVec.ofNat 32 off) >>= fun r =>
        if r = some direntSize then pure true else panic .dirlink) :=
      (quiet_getInode e).bind fun ip => (quiet_emptyFrom e _ _).bind fun off =>
        (quiet_writei e _ _).bind fun r => .ite (quiet_pure _) (acts_panic _)
    refine Then.imp (hrest t) fun _ u hu => ?_
    rw [ht.shape] at hu
    exact ht.trans hu

/-! ## One command after another -/

section

variable {f : α → M β} {R : β → Kernel → Prop}

theorem Then.next {m : M α} {G : α → Shape → Shape} {P : Shape → Prop} (h : Does s σ t)
    (hm : Then t m fun a u => P (shape t) ∧ Does t (G a (shape t)) u)
    (hf : ∀ a u, P σ → Does s (G a σ) u → Then u (f a) R) : Then t (m >>= f) R := by
  refine hm.bind fun a u ⟨hP, hu⟩ => hf a u (h.shape ▸ hP) ?_
  rw [h.shape] at hu
  exact h.trans hu

theorem Acts.next {m : M α} {F : Shape → Shape} (hm : Acts m F) (h : Does s σ t)
    (hf : ∀ a u, Does s (F σ) u → Then u (f a) R) : Then t (m >>= f) R :=
  Then.next (G := fun _ => F) (P := fun _ => True) h (Then.imp (hm t) fun _ _ hu => ⟨trivial, hu⟩)
    fun a u _ hu => hf a u hu

theorem Quiet.next {m : M α} (hm : Quiet m) (h : Does s σ t)
    (hf : ∀ a u, Does s σ u → Then u (f a) R) : Then t (m >>= f) R :=
  Acts.next hm h hf

theorem ilock_next {f : Unit → M β} (h : Does s σ t)
    (hf : ∀ u, σ.locks e = false → Does s (σ.lock e true) u → Then u (f ()) R) :
    Then t (ilock e >>= f) R :=
  Then.next (G := fun _ σ => σ.lock e true) (P := fun σ => σ.locks e = false) h (then_ilock e)
    fun _ => hf

theorem iunlock_next {f : Unit → M β} (h : Does s σ t)
    (hf : ∀ u, σ.locks e = true → Does s (σ.lock e false) u → Then u (f ()) R) :
    Then t (iunlock e >>= f) R :=
  Then.next (G := fun _ σ => σ.lock e false) (P := fun σ => σ.locks e = true) h (then_iunlock e)
    fun _ => hf

theorem iput_next {f : Unit → M β} (h : Does s σ t)
    (hf : ∀ u, σ.locks e = false → Does s (σ.plus (-Pi.single e 1)) u → Then u (f ()) R) :
    Then t (iput e >>= f) R :=
  Then.next (G := fun _ σ => σ.plus (-Pi.single e 1)) (P := fun σ => σ.locks e = false) h (then_iput e)
    fun _ => hf

theorem iunlockput_next {f : Unit → M β} (h : Does s σ t)
    (hf : ∀ u, σ.locks e = true → Does s ((σ.lock e false).plus (-Pi.single e 1)) u → Then u (f ()) R) :
    Then t (iunlockput e >>= f) R :=
  Then.next (G := fun _ σ => (σ.lock e false).plus (-Pi.single e 1)) (P := fun σ => σ.locks e = true) h
    (then_iunlockput e) fun _ => hf

/-- A command that may return an inode gains a reference if it does. -/
theorem Then.next_gain {m : M α} {g : α → Option Ip} (h : Does s σ t)
    (hm : Then t m fun a u => Does t ((shape t).plus (point (g a))) u)
    (hnone : ∀ a u, g a = none → Does s σ u → Then u (f a) R)
    (hsome : ∀ a e u, g a = some e → Does s (σ.plus (Pi.single e 1)) u → Then u (f a) R) :
    Then t (m >>= f) R := by
  refine Then.next (G := fun a σ => σ.plus (point (g a))) (P := fun _ => True) h
    (hm.imp fun _ _ hu => ⟨trivial, hu⟩) fun a u _ hu => ?_
  cases ha : g a with
  | none => exact hnone a u ha (hu.cast (by rw [ha, point_none, Shape.plus_zero]))
  | some e => exact hsome a e u ha (hu.cast (by rw [ha, point_some]))

theorem dirlookup_next {name : List Byte} {f : Option (Ip × Nat) → M β} (h : Does s σ t)
    (hnone : ∀ u, Does s σ u → Then u (f none) R)
    (hsome : ∀ a u, Does s (σ.plus (Pi.single a.1 1)) u → Then u (f (some a)) R) :
    Then t (dirlookup e name >>= f) R := by
  refine Then.next_gain h (then_dirlookup e name) (fun a u ha hu => ?_) fun a e u ha hu => ?_
  · rw [Option.map_eq_none_iff] at ha
    exact ha ▸ hnone u hu
  · obtain ⟨a', rfl, rfl⟩ := Option.map_eq_some_iff.mp ha
    exact hsome a' u hu

end

/-! ## Paths -/

theorem skipelem_length {path name rest : List Byte} (h : skipelem path = some (name, rest)) :
    rest.length < path.length := by
  unfold skipelem at h
  dsimp only at h
  split at h
  · cases h
  · rename_i hne
    cases h
    set s := path.dropWhile (· = slash) with hs
    have hpath : s.length ≤ path.length := (List.dropWhile_suffix _).length_le
    have hrest : ((s.dropWhile (· ≠ slash)).dropWhile (· = slash)).length ≤ (s.dropWhile (· ≠ slash)).length :=
      (List.dropWhile_suffix _).length_le
    -- the first byte is not a slash, so the element takes it
    have hfirst : (s.dropWhile (· ≠ slash)).length < s.length := by
      cases hcons : s with
      | nil => exact absurd hcons hne
      | cons c cs =>
        have hc : c ≠ slash := by
          have hhead := List.head?_dropWhile_not (fun c : Byte => decide (c = slash)) path
          rw [← hs, hcons] at hhead
          simpa using hhead
        have : (c :: cs).dropWhile (· ≠ slash) = cs.dropWhile (· ≠ slash) := by
          simp [hc]
        rw [this]
        exact Nat.lt_succ_of_le (List.dropWhile_suffix _).length_le
    omega

theorem then_namexFrom (parent : Bool) {fuel : Nat} (e : Ip) {path : List Byte} (name : List Byte)
    (hfuel : path.length < fuel) (h : Does s σ t) :
    Then t (namexFrom parent fuel e path name) fun a u =>
      Does s (σ.plus (point (a.map Prod.fst) - Pi.single e 1)) u := by
  induction fuel generalizing t σ e path name with
  | zero => exact absurd hfuel (Nat.not_lt_zero _)
  | succ fuel ih =>
    rw [namexFrom]
    split
    · refine .ite (fun _ => iput_next h fun u _ hu => hu.cast (by simp)) fun _ => ?_
      exact h.cast (by simp)
    · rename_i name' rest hskip
      have hrest := skipelem_length hskip
      refine ilock_next h fun u hl h => then_getInode ?_
      refine .ite (fun _ => iunlockput_next h fun v _ h => ?_) fun _ => .ite (fun _ => ?_) fun _ => ?_
      · exact h.cast (by simp [hl])
      · exact iunlock_next h fun v _ h => h.cast (by simp [hl])
      · refine dirlookup_next h (fun v h => ?_) fun found v h => ?_
        · exact iunlockput_next h fun w _ h => h.cast (by simp [hl])
        · refine iunlockput_next h fun w _ h => ?_
          refine (ih found.1 name' (by omega) h).imp fun a y hy => hy.cast ?_
          simp only [Shape.lock_plus, Shape.lock_lock, Shape.lock_self hl, Shape.plus_plus]
          exact congrArg (Shape.plus · σ) (by abel)

/-- The current directory of the process is in use. -/
def Homed (s : Kernel) (p : Pp) : Prop := ∀ e, (s.proc p).cwd = some e → 0 < (s.inode e).ref

theorem then_namexStart {p : Pp} (hp : Homed s p) (path : List Byte) :
    Then s (namexStart p path) fun e t => Does s ((shape s).plus (Pi.single e 1)) t := by
  refine .ite (fun _ => then_iget _ _) fun _ => ?_
  simp only [Then, wp_bind, wp_gets, id]
  cases hcwd : (s.proc p).cwd with
  | none => exact then_panic
  | some e =>
    refine (then_idup (hp e hcwd)).imp fun a t h => ?_
    obtain ⟨ha, ht⟩ := h
    rwa [ha]

theorem then_namex {p : Pp} (hp : Homed s p) (path : List Byte) (parent : Bool) :
    Then s (namex p path parent) fun a t => Does s ((shape s).plus (point (a.map Prod.fst))) t := by
  refine (then_namexStart hp path).bind fun e t ht => ?_
  refine (then_namexFrom parent e [] (Nat.lt_succ_self _) ht).imp fun a u hu => hu.cast ?_
  rw [Shape.plus_plus]
  exact congrArg (Shape.plus · (shape s)) (by abel)

theorem Homed.congr {p : Pp} (hp : Homed s p) (hproc : t.proc = s.proc)
    (hrefs : ∀ e, (shape s).refs e ≤ (shape t).refs e) : Homed t p := by
  intro e he
  rw [hproc] at he
  exact lt_of_lt_of_le (hp e he) (hrefs e)

theorem namei_next {p : Pp} {path : List Byte} {f : Option Ip → M β} {R : β → Kernel → Prop} (hp : Homed t p)
    (h : Does s σ t) (hnone : ∀ u, Does s σ u → Then u (f none) R)
    (hsome : ∀ e u, Does s (σ.plus (Pi.single e 1)) u → Then u (f (some e)) R) :
    Then t (namei p path >>= f) R := by
  refine Then.next_gain (g := id) h ((then_namex hp path false).bind fun _ _ ht => ht) ?_ ?_
  · rintro _ u rfl hu
    exact hnone u hu
  · rintro _ e u rfl hu
    exact hsome e u hu

theorem nameiparent_next {p : Pp} {path : List Byte} {f : Option (Ip × List Byte) → M β}
    {R : β → Kernel → Prop} (hp : Homed t p) (h : Does s σ t) (hnone : ∀ u, Does s σ u → Then u (f none) R)
    (hsome : ∀ a u, Does s (σ.plus (Pi.single a.1 1)) u → Then u (f (some a)) R) :
    Then t (nameiparent p path >>= f) R := by
  refine Then.next_gain h (then_namex hp path true) (fun a u ha hu => ?_) fun a e u ha hu => ?_
  · rw [Option.map_eq_none_iff] at ha
    exact ha ▸ hnone u hu
  · obtain ⟨a', rfl, rfl⟩ := Option.map_eq_some_iff.mp ha
    exact hsome a' u hu

/-! ## Names -/

theorem then_iallocFrom (dev : Word) (type : Half) (fuel inum : Nat) (h : Does s σ t) :
    Then t (iallocFrom dev type fuel inum) fun e u => Does s (σ.plus (Pi.single e 1)) u := by
  induction fuel generalizing t inum with
  | zero => exact then_panic
  | succ fuel ih =>
    refine (quiet_gets _).next h fun sb t h => .ite (fun _ => ?_) fun _ => then_panic
    refine (acts_bread _).next h fun _ t h => (quiet_data _).next h fun x t h => .ite (fun _ => ?_) fun _ => ?_
    · refine (quiet_setData _ _).next h fun _ t h => (quiet_logWrite _).next h fun _ t h => ?_
      refine (acts_brelse _).next h fun _ t h => ?_
      rw [Shape.pop_push] at h
      refine (then_iget _ _).imp fun e u hu => ?_
      rw [h.shape] at hu
      exact h.trans hu
    · refine (acts_brelse _).next h fun _ t h => ?_
      rw [Shape.pop_push] at h
      exact ih _ h

theorem quiet_createDots (dp ip : Ip) : Quiet (createDots dp ip) := by
  refine (quiet_editInode dp _).bind fun _ => (quiet_iupdate dp).bind fun _ => (quiet_getInode ip).bind fun i =>
    (quiet_getInode dp).bind fun d => (quiet_dirlink ip _ _).bind fun linked => .ite ?_ (acts_panic _)
  exact (quiet_dirlink ip _ _).bind fun linked => .ite (quiet_pure _) (acts_panic _)

/-- The new inode is locked; the directory is released. -/
theorem createNew_next {dp : Ip} {name : List Byte} {type major minor : Half} {f : Ip → M β}
    {R : β → Kernel → Prop} (hl : σ.locks dp = false) (h : Does s (σ.lock dp true) t)
    (hf : ∀ ip u, σ.locks ip = false →
      Does s ((σ.plus (Pi.single ip 1 - Pi.single dp 1)).lock ip true) u → Then u (f ip) R) :
    Then t (createNew dp name type major minor >>= f) R := by
  refine Then.bind (Q := fun ip u => σ.locks ip = false ∧
    Does s ((σ.plus (Pi.single ip 1 - Pi.single dp 1)).lock ip true) u) ?_ fun ip u hu => hf ip u hu.1 hu.2
  refine then_getInode ?_
  refine (then_iallocFrom _ _ _ _ h).bind fun ip t h => ilock_next h fun t hip h => ?_
  -- the directory is locked, so the new inode is another one
  have hne : ip ≠ dp := by
    rintro rfl
    simp at hip
  refine (quiet_editInode ip _).next h fun _ t h => (quiet_iupdate ip).next h fun _ t h => ?_
  refine Quiet.next (.ite (quiet_createDots dp ip) (quiet_pure _)) h fun _ t h => then_getInode ?_
  refine (quiet_dirlink dp name _).next h fun linked t h => .ite (fun _ => ?_) fun _ => then_panic
  refine iunlockput_next h fun t _ h => ⟨by simpa [hne] using hip, h.cast ?_⟩
  simp [Shape.lock_comm hne, hl, hne.symm, sub_eq_add_neg]

/-- What a command returns is a locked inode, or nothing. -/
def Opened (s : Kernel) (σ : Shape) : Option Ip → Kernel → Prop
  | none, t => Does s σ t
  | some ip, t => σ.locks ip = false ∧ Does s ((σ.plus (Pi.single ip 1)).lock ip true) t

theorem Then.opened {m : M (Option Ip)} {f : Option Ip → M β} {R : β → Kernel → Prop}
    (hm : Then t m (Opened s σ)) (hnone : ∀ u, Does s σ u → Then u (f none) R)
    (hsome : ∀ ip u, σ.locks ip = false → Does s ((σ.plus (Pi.single ip 1)).lock ip true) u →
      Then u (f (some ip)) R) : Then t (m >>= f) R := by
  refine hm.bind fun a u hu => ?_
  cases a with
  | none => exact hnone u hu
  | some ip => exact hsome ip u hu.1 hu.2

theorem then_create {p : Pp} (hp : Homed t p) (path : List Byte) (type major minor : Half) (h : Does s σ t) :
    Then t (create p path type major minor) (Opened s σ) := by
  refine nameiparent_next hp h (fun t h => h) fun ⟨dp, name⟩ t h => ?_
  refine ilock_next h fun t hdp h => dirlookup_next h (fun t h => ?_) fun ⟨ip, off⟩ t h => ?_
  · exact createNew_next hdp h fun ip t hip h => ⟨hip, h.cast (by simp)⟩
  · refine iunlockput_next h fun t _ h => ?_
    have h := h.cast (τ := σ.plus (Pi.single ip 1)) (by simp_all)
    refine ilock_next h fun t hip h => then_getInode (.ite (fun _ => ⟨hip, h⟩) fun _ => ?_)
    exact iunlockput_next h fun t _ h => h.cast (by simp_all)

/-! ## Calls on names -/

def Shape.op (k : Int) (σ : Shape) : Shape := { σ with ops := σ.ops + k }

@[simp] theorem Shape.op_op {k k' : Int} : (σ.op k).op k' = σ.op (k + k') := by
  simp [op, add_assoc]

@[simp] theorem Shape.op_zero : σ.op 0 = σ := by
  simp [op]

@[simp] theorem Shape.op_plus {k : Int} {r : Ip → Int} : (σ.plus r).op k = (σ.op k).plus r := rfl

@[simp] theorem Shape.lock_op {k : Int} {b : Bool} : (σ.op k).lock e b = (σ.lock e b).op k := rfl

@[simp] theorem Shape.locks_op {k : Int} : (σ.op k).locks = σ.locks := rfl

theorem acts_beginOp : Acts beginOp (Shape.op 1) := by
  refine (quiet_gets id).bind fun s => .ite (acts_fail _) fun t => ?_
  exact Does.of_inode (fun _ => ⟨rfl, rfl, rfl⟩) rfl rfl rfl

theorem acts_endOp : Acts endOp (Shape.op (-1)) :=
  fun _ => Does.of_inode (fun _ => ⟨rfl, rfl, rfl⟩) rfl rfl rfl

theorem beginOp_next {f : Unit → M β} {R : β → Kernel → Prop} (h : Does s σ t)
    (hf : ∀ u, Does s (σ.op 1) u → Then u (f ()) R) : Then t (beginOp >>= f) R :=
  acts_beginOp.next h fun _ u hu => hf u hu

theorem endOp_next {f : Unit → M β} {R : β → Kernel → Prop} (h : Does s σ t)
    (hf : ∀ u, Does s (σ.op (-1)) u → Then u (f ()) R) : Then t (endOp >>= f) R :=
  acts_endOp.next h fun _ u hu => hf u hu

theorem Homed.does {p : Pp} {r : Ip → Int} {k : Int} (hp : Homed s p) (hr : 0 ≤ r)
    (h : Does s (((shape s).op k).plus r) t) : Homed t p := by
  refine hp.congr h.proc fun e => ?_
  rw [h.shape]
  exact le_add_of_nonneg_right (hr e)

theorem Homed.op {p : Pp} {k : Int} (hp : Homed s p) (h : Does s ((shape s).op k) t) : Homed t p :=
  hp.does (k := k) le_rfl (h.cast Shape.plus_zero.symm)

theorem then_linkBad {ip : Ip} (hip : σ.locks ip = false) (h : Does s ((σ.op 1).plus (Pi.single ip 1)) t) :
    Then t (linkBad ip) fun _ u => Does s σ u := by
  refine ilock_next h fun t _ h => (quiet_editInode ip _).next h fun _ t h => ?_
  refine (quiet_iupdate ip).next h fun _ t h => iunlockput_next h fun t _ h => ?_
  exact endOp_next h fun t h => h.cast (by simp [hip])

theorem quiet_linkIn (dp : Ip) (name : List Byte) (ip : Ip) : Quiet (linkIn dp name ip) :=
  (quiet_getInode dp).bind fun _ => (quiet_getInode ip).bind fun _ => .ite (quiet_pure _) (quiet_dirlink _ _ _)

theorem then_sysLink {p : Pp} (hp : Homed s p) (old new : List Byte) :
    Then s (sysLink p old new) fun _ t => Does s (shape s) t := by
  refine beginOp_next (Does.refl s) fun t h => ?_
  refine namei_next (hp.op h) h (fun t h => ?_) fun ip t h => ?_
  · exact endOp_next h fun t h => h.cast (by simp)
  · refine ilock_next h fun t hip h => then_getInode (.ite (fun _ => ?_) fun _ => ?_)
    · exact iunlockput_next h fun t _ h => endOp_next h fun t h => h.cast (by simp_all)
    · refine (quiet_editInode ip _).next h fun _ t h => (quiet_iupdate ip).next h fun _ t h => ?_
      refine iunlock_next h fun t _ h => ?_
      have h := h.cast (τ := ((shape s).op 1).plus (Pi.single ip 1)) (by simp_all)
      have hp := hp.does (Pi.single_nonneg.mpr Int.one_nonneg) h
      refine nameiparent_next hp h (fun t h => then_linkBad hip h) fun ⟨dp, name⟩ t h => ?_
      refine ilock_next h fun t hdp h => (quiet_linkIn dp name ip).next h fun linked t h => ?_
      refine .ite (fun _ => ?_) fun _ => ?_
      · refine iunlockput_next h fun t _ h => iput_next h fun t _ h => endOp_next h fun t h => h.cast ?_
        simp_all
      · exact iunlockput_next h fun t _ h => then_linkBad hip (h.cast (by simp_all))

theorem quiet_isdiremptyFrom (e : Ip) (fuel off : Nat) : Quiet (isdiremptyFrom e fuel off) := by
  induction fuel generalizing off with
  | zero => exact quiet_pure _
  | succ fuel ih =>
    refine (quiet_getInode e).bind fun ip => .ite ((quiet_readi e _ _).bind fun bytes => ?_) (quiet_pure _)
    cases bytes with
    | none => exact acts_panic _
    | some bytes => exact .ite (acts_panic _) (.ite (quiet_pure _) (ih _))

theorem quiet_isBusy (e : Ip) : Quiet (isBusy e) := by
  refine (quiet_getInode e).bind fun ip => .ite (Quiet.bind ?_ fun _ => quiet_pure _) (quiet_pure _)
  exact (quiet_getInode e).bind fun ip => quiet_isdiremptyFrom e _ _

theorem quiet_unlinkEntry (dp ip : Ip) (off : Nat) : Quiet (unlinkEntry dp ip off) := by
  refine (quiet_writei dp _ _).bind fun r => .ite (acts_panic _) ((quiet_getInode ip).bind fun i => ?_)
  exact .ite ((quiet_editInode dp _).bind fun _ => quiet_iupdate dp) (quiet_pure _)

theorem then_unlinkBad {dp : Ip} (hdp : σ.locks dp = false)
    (h : Does s (((σ.lock dp true).op 1).plus (Pi.single dp 1)) t) :
    Then t (unlinkBad dp) fun _ u => Does s σ u :=
  iunlockput_next h fun t _ h => endOp_next h fun t h => h.cast (by simp [hdp])

theorem then_sysUnlink {p : Pp} (hp : Homed s p) (path : List Byte) :
    Then s (sysUnlink p path) fun _ t => Does s (shape s) t := by
  refine beginOp_next (Does.refl s) fun t h => ?_
  refine nameiparent_next (hp.op h) h (fun t h => ?_) fun ⟨dp, name⟩ t h => ?_
  · exact endOp_next h fun t h => h.cast (by simp)
  · refine ilock_next h fun t hdp h => .ite (fun _ => then_unlinkBad hdp h) fun _ => ?_
    refine dirlookup_next h (fun t h => then_unlinkBad hdp h) fun ⟨ip, off⟩ t h => ?_
    refine ilock_next h fun t hip h => then_getInode (.ite (fun _ => then_panic) fun _ => ?_)
    have hne : ip ≠ dp := by
      rintro rfl
      simp at hip
    refine (quiet_isBusy ip).next h fun busy t h => .ite (fun _ => ?_) fun _ => ?_
    · refine iunlockput_next h fun t _ h => then_unlinkBad hdp (h.cast ?_)
      simp_all
    · refine (quiet_unlinkEntry dp ip off).next h fun _ t h => iunlockput_next h fun t _ h => ?_
      refine (quiet_editInode ip _).next h fun _ t h => (quiet_iupdate ip).next h fun _ t h => ?_
      refine iunlockput_next h fun t _ h => endOp_next h fun t h => h.cast ?_
      simp_all [Shape.lock_comm hne]

end Xv6.Fs
