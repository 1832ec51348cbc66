import Xv6.FsSound

/- Calls on names keep the file system in order.

   `Fine sb F s σ t`: the commands so far have gone from `s` to `t` with shape `σ`, and `t` is
   sound with the places in `F` pinned. The rules are those of `Does` and those of
   `Sound` together: the shape says which references are in hand, so that `iput` is
   never called with the last reference to a pinned place.

   A function that works on an inode while it calls others pins it for that time. -/
namespace Xv6.Fs
open Bits ByteBlock Log Command Tally

variable {α β : Type} {s t u : Kernel} {sb : Superblock} {F F' : Pins} {σ τ : Shape} {r : Ip → Int} {e e' dp ip : Ip}
  {p : Pp}
  {name path : List Byte} {f : α → M β} {R : β → Kernel → Prop}

structure Fine (sb : Superblock) (F : Pins) (s : Kernel) (σ : Shape) (t : Kernel) : Prop where
  does : Does s σ t
  sound : Sound sb F t

theorem Fine.cast (h : Fine sb F s σ t) (hσ : σ = τ) : Fine sb F s τ t := hσ ▸ h

theorem Fine.lock (h : Fine sb F s σ t) (he : σ.locks e = true) : (t.inode e).lock = true := by
  rw [← shape_locks, h.does.shape]
  exact he

/-- The references besides those in hand: none is negative, and each pinned place has one. -/
structure Guards (F : Pins) (σ : Shape) : Prop where
  nonneg : 0 ≤ σ.refs
  pinned : ∀ e, F e ≠ none → 1 ≤ σ.refs e

theorem Guards.lock {k : Bool} (h : Guards F σ) : Guards F (σ.lock e k) := ⟨h.nonneg, h.pinned⟩

theorem Guards.op {k : Int} (h : Guards F σ) : Guards F (σ.op k) := ⟨h.nonneg, h.pinned⟩

theorem Guards.plus (h : Guards F σ) (hr : 0 ≤ r) : Guards F (σ.plus r) where
  nonneg := add_nonneg h.nonneg hr
  pinned e he := le_add_of_le_of_nonneg (h.pinned e he) (hr e)

theorem single_nonneg (e : Ip) : 0 ≤ (Pi.single e 1 : Ip → Int) := Pi.single_nonneg.mpr Int.one_nonneg

theorem one_le_single (e : Ip) : 1 ≤ (Pi.single e 1 : Ip → Int) e := by rw [Pi.single_eq_same]

theorem one_le_single_add (e e' : Ip) : 1 ≤ (Pi.single e 1 + Pi.single e' 1 : Ip → Int) e :=
  le_add_of_le_of_nonneg (one_le_single e) (single_nonneg e' e)

theorem Guards.pin (h : Guards F σ) : Guards (F.pin sb s e) (σ.plus (Pi.single e 1)) where
  nonneg := add_nonneg h.nonneg (single_nonneg e)
  pinned e' he' := by
    change 1 ≤ σ.refs e' + (Pi.single e 1 : Ip → Int) e'
    by_cases heq : e' = e
    · subst heq
      have := h.nonneg e'
      rw [Pi.single_eq_same]
      simp only [Pi.zero_apply] at this
      omega
    · rw [Pins.pin, Function.update_of_ne heq] at he'
      rw [Pi.single_eq_of_ne heq, add_zero]
      exact h.pinned e' he'

theorem Guards.spare (h : Guards F σ) (hr : 1 ≤ r e) (ht : Fine sb F s (σ.plus r) t) : Spare F t e := by
  intro he
  have := h.pinned e he
  rw [← shape_refs, ht.does.shape]
  change 2 ≤ σ.refs e + r e
  omega

/-! ## Rules -/

theorem Runs.and_then {m : M α} {Q : α → Kernel → Prop} {Q' : α → Kernel → Prop} (h : Runs False m Q s)
    (h' : Then s m Q') :
    Runs False m (fun a t => Q a t ∧ Q' a t) s :=
  wp_mono (wp_and h h') (fun _ _ => id) fun _ => And.left

theorem Runs.assoc {γ : Type} {P : Prop} {m : M α} {g : α → M γ} {k : γ → M β}
    (h : Runs P (m >>= g) (fun c t => Runs P (k c) R t) s) : Runs P (m >>= fun a => g a >>= k) R s := by
  have h := wp_bind.mp h
  exact .seq (wp_imp h fun a t ht => .seq ht)

/-- One more command, with what it does to the shape and with what it keeps. -/
theorem Fine.next {m : M α} {G : α → Shape → Shape} {P : Shape → Prop} {X : α → Kernel → Prop} (h : Fine sb F s σ t)
    (hm : Then t m fun a u => P (shape t) ∧ Does t (G a (shape t)) u)
    (hs : Runs False m (fun a u => Sound sb F' u ∧ X a u) t)
    (hf : ∀ a u, P σ → X a u → Fine sb F' s (G a σ) u → Runs False (f a) R u) : Runs False (m >>= f) R t := by
  refine (hs.and_then hm).bind ?_
  rintro a u ⟨⟨hsound, hX⟩, hP, hdoes⟩
  rw [h.does.shape] at hP hdoes
  exact hf a u hP hX ⟨h.does.trans hdoes, hsound⟩

theorem Fine.quiet {m : M α} {X : α → Kernel → Prop} (hq : Quiet m) (h : Fine sb F s σ t)
    (hs : Runs False m (fun a u => Sound sb F' u ∧ X a u) t)
    (hf : ∀ a u, X a u → Fine sb F' s σ u → Runs False (f a) R u) : Runs False (m >>= f) R t :=
  h.next (G := fun _ σ => σ) (P := fun _ => True) (Then.imp (hq t) fun _ _ hu => ⟨trivial, hu⟩) hs
    fun a u _ hX hu => hf a u hX hu

theorem fine_ilock {f : Unit → M β} (h : Fine sb F s (σ.plus r) t)
    (hf : ∀ u, σ.locks e = false → Fine sb F s ((σ.lock e true).plus r) u → Locked t e u → Runs False (f ()) R u) :
    Runs False (ilock e >>= f) R t :=
  h.next (G := fun _ σ => σ.lock e true) (P := fun σ => σ.locks e = false) (then_ilock e) (sound_ilock h.sound)
    fun _ u hl hX hu => hf u hl hu hX

theorem fine_iunlock {f : Unit → M β} (hl : σ.locks e = false) (h : Fine sb F s ((σ.lock e true).plus r) t)
    (hf : ∀ u, Fine sb F s (σ.plus r) u → Runs False (f ()) R u) : Runs False (iunlock e >>= f) R t :=
  h.next (G := fun _ σ => σ.lock e false) (P := fun _ => True) (X := fun _ _ => True)
    ((then_iunlock e).imp fun _ _ hu => ⟨trivial, hu.2⟩) ((sound_iunlock h.sound).imp fun _ _ hu => ⟨hu, trivial⟩)
    fun _ u _ _ hu => hf u (hu.cast (by simp [hl]))

theorem fine_iput {f : Unit → M β} (hG : Guards F σ) (hr : 1 ≤ r e) (h : Fine sb F s (σ.plus r) t)
    (hf : ∀ u, Fine sb F s (σ.plus (r - Pi.single e 1)) u → Runs False (f ()) R u) : Runs False (iput e >>= f) R t :=
  h.next (G := fun _ σ => σ.plus (-Pi.single e 1)) (P := fun _ => True) (X := fun _ _ => True)
    ((then_iput e).imp fun _ _ hu => ⟨trivial, hu.2⟩)
    ((sound_iput h.sound (hG.spare hr h)).imp fun _ _ hu => ⟨hu, trivial⟩)
    fun _ u _ _ hu => hf u (hu.cast (by rw [Shape.plus_plus, sub_eq_add_neg]))

theorem fine_iunlockput {f : Unit → M β} (hG : Guards F σ) (hl : σ.locks e = false) (hr : 1 ≤ r e)
    (h : Fine sb F s ((σ.lock e true).plus r) t)
    (hf : ∀ u, Fine sb F s (σ.plus (r - Pi.single e 1)) u → Runs False (f ()) R u) :
    Runs False (iunlockput e >>= f) R t :=
  h.next (G := fun _ σ => (σ.lock e false).plus (-Pi.single e 1)) (P := fun _ => True) (X := fun _ _ => True)
    ((then_iunlockput e).imp fun _ _ hu => ⟨trivial, hu.2⟩)
    ((sound_iunlockput h.sound (hG.lock.spare hr h)).imp fun _ _ hu => ⟨hu, trivial⟩)
    fun _ u _ _ hu => hf u (hu.cast (by simp [hl, sub_eq_add_neg]))

theorem fine_drop {f : Unit → M β} (hG : Guards F σ) (hl : σ.locks e = false)
    (h : Fine sb F s ((σ.lock e true).plus (Pi.single e 1)) t) (hf : ∀ u, Fine sb F s σ u → Runs False (f ()) R u) :
    Runs False (iunlockput e >>= f) R t :=
  fine_iunlockput hG hl (one_le_single e) h fun u hu => hf u (hu.cast (by rw [sub_self, Shape.plus_zero]))

theorem fine_dirlookup {f : Option (Ip × Nat) → M β} (h : Fine sb F s ((σ.lock e true).plus r) t)
    (hnone : ∀ u, Fine sb F s ((σ.lock e true).plus r) u → Runs False (f none) R u)
    (hsome : ∀ a u, Fine sb F s ((σ.lock e true).plus (r + Pi.single a.1 1)) u → IsEntry sb u e a.2 →
      Runs False (f (some a)) R u) : Runs False (dirlookup e name >>= f) R t := by
  have hlock : (t.inode e).lock = true := h.lock (by simp)
  refine h.next (G := fun a σ => σ.plus (point (a.map Prod.fst))) (P := fun _ => True)
    ((then_dirlookup e name).imp fun _ _ hu => ⟨trivial, hu⟩) (sound_dirlookup h.sound hlock) fun a u _ hX hu => ?_
  cases a with
  | none => exact hnone u (hu.cast (by simp))
  | some a => exact hsome a u (hu.cast (by simp)) (hX.2.2 a rfl).2

theorem fine_beginOp {f : Unit → M β} (h : Fine sb F s σ t) (hf : ∀ u, Fine sb F s (σ.op 1) u → Runs False (f ()) R u) :
    Runs False (beginOp >>= f) R t := by
  have hs : Runs False beginOp (fun _ u => Sound sb F u ∧ True) t :=
    .seq (runs_gets (.ite (fun _ => runs_fail id (by rintro ⟨⟩)) fun _ => ⟨h.sound.congr rfl rfl rfl, trivial⟩))
  exact h.next (G := fun _ σ => σ.op 1) (P := fun _ => True) (Then.imp (acts_beginOp t) fun _ _ hu => ⟨trivial, hu⟩) hs
    fun _ u _ _ hu => hf u hu

theorem fine_endOp {f : Unit → M β} (h : Fine sb F s ((σ.op 1).plus r) t)
    (hf : ∀ u, Fine sb F s (σ.plus r) u → Runs False (f ()) R u) : Runs False (endOp >>= f) R t := by
  have hs : Runs False endOp (fun _ u => Sound sb F u ∧ True) t := ⟨h.sound.congr rfl rfl rfl, trivial⟩
  exact h.next (G := fun _ σ => σ.op (-1)) (P := fun _ => True) (Then.imp (acts_endOp t) fun _ _ hu => ⟨trivial, hu⟩) hs
    fun _ u _ _ hu => hf u (hu.cast (by simp))

theorem fine_endOp_zero {f : Unit → M β} (h : Fine sb F s (σ.op 1) t)
    (hf : ∀ u, Fine sb F s σ u → Runs False (f ()) R u) :
    Runs False (endOp >>= f) R t :=
  fine_endOp (r := 0) (h.cast Shape.plus_zero.symm) fun u hu => hf u (hu.cast Shape.plus_zero)

theorem fine_save {g : Dinode → Dinode} {f : Unit → M β} (hg : ∀ d, SameBlocks d (g d)) (h : Fine sb F s σ t)
    (he : σ.locks e = true) (hf : ∀ u, Fine sb F s σ u → Runs False (f ()) R u) :
    Runs False (editInode e g >>= fun _ => iupdate e >>= f) R t :=
  .assoc (((sound_saveInode h.sound (h.lock he) (hg _)).and_then
    ((quiet_editInode e g).bind (fun _ => quiet_iupdate e) t)).imp fun _ u hu =>
      hf u ⟨h.does.trans (hu.2.cast h.does.shape), hu.1⟩)

theorem fine_dirlink {inum : Word} {f : Bool → M β} (h : Fine sb F s σ t) (he : σ.locks e = true)
    (hinum : inum.toNat < sb.ninodes.toNat) (hf : ∀ b u, Fine sb F s σ u → Runs False (f b) R u) :
    Runs False (dirlink e name inum >>= f) R t :=
  h.quiet (X := fun _ _ => True) (quiet_dirlink e name inum)
    ((sound_dirlink h.sound (h.lock he) hinum).imp fun _ _ hu => ⟨hu, trivial⟩) fun b u _ hu => hf b u hu

/-! ## Paths -/

theorem fine_namexFrom (parent : Bool) {fuel : Nat} (e : Ip) {path : List Byte} (name : List Byte)
    (hfuel : path.length < fuel) (hG : Guards F σ) (h : Fine sb F s (σ.plus (Pi.single e 1)) t) :
    Runs False (namexFrom parent fuel e path name) (fun a u => Fine sb F s (σ.plus (point (a.map Prod.fst))) u) t := by
  induction fuel generalizing t e path name with
  | zero => exact absurd hfuel (Nat.not_lt_zero _)
  | succ fuel ih =>
    rw [namexFrom]
    split
    · exact .ite (fun _ => fine_iput hG (one_le_single e) h fun u hu => hu.cast (by simp)) fun _ => h
    · rename_i name' rest hskip
      have hrest := skipelem_length hskip
      refine fine_ilock h fun u hl h _ => .seq (runs_getInode ?_)
      refine .ite (fun _ => fine_drop hG hl h fun v h => h.cast (by simp)) fun _ => .ite (fun _ => ?_) fun _ => ?_
      · exact fine_iunlock hl h fun v h => h
      · refine fine_dirlookup h (fun v h => fine_drop hG hl h fun w h => h.cast (by simp)) fun found v h _ => ?_
        refine fine_iunlockput hG hl (one_le_single_add e found.1) h fun w h => ?_
        exact ih found.1 name' (by omega) (h.cast (by rw [add_sub_cancel_left]))

theorem fine_namexStart (hp : Homed t p) (h : Fine sb F s σ t) :
    Runs False (namexStart p path) (fun e u => Fine sb F s (σ.plus (Pi.single e 1)) u) t := by
  have hdoes := then_namexStart hp path
  rw [h.does.shape] at hdoes
  have hs : Runs False (namexStart p path) (fun _ u => Sound sb F u) t := by
    refine .ite (fun _ => ?_) fun _ => .seq (runs_gets ?_)
    · have hrange : 1 ≤ ROOTINO.toNat ∧ ROOTINO.toNat < sb.ninodes.toNat := ⟨le_refl 1, h.sound.disk.vol.layout.root⟩
      exact (sound_iget h.sound rfl hrange).imp fun _ _ hu => hu.1
    · dsimp only [id]
      cases hcwd : (t.proc p).cwd with
      | none => exact runs_fail id (by rintro ⟨⟩)
      | some e => exact sound_idup h.sound (hp e hcwd)
  exact (hs.and_then hdoes).imp fun e u hu => ⟨h.does.trans hu.2, hu.1⟩

theorem fine_namex (parent : Bool) (hp : Homed t p) (hG : Guards F σ) (h : Fine sb F s σ t) :
    Runs False (namex p path parent) (fun a u => Fine sb F s (σ.plus (point (a.map Prod.fst))) u) t :=
  (fine_namexStart hp h).bind fun e _ h => fine_namexFrom parent e [] (Nat.lt_succ_self _) hG h

theorem fine_namei {f : Option Ip → M β} (hp : Homed t p) (hG : Guards F σ) (h : Fine sb F s σ t)
    (hnone : ∀ u, Fine sb F s σ u → Runs False (f none) R u)
    (hsome : ∀ e u, Fine sb F s (σ.plus (Pi.single e 1)) u → Runs False (f (some e)) R u) :
    Runs False (namei p path >>= f) R t := by
  refine .seq ((fine_namex false hp hG h).bind fun a u hu => runs_pure ?_)
  cases a with
  | none => exact hnone u (hu.cast (by simp))
  | some a => exact hsome a.1 u hu

theorem fine_nameiparent {f : Option (Ip × List Byte) → M β} (hp : Homed t p) (hG : Guards F σ) (h : Fine sb F s σ t)
    (hnone : ∀ u, Fine sb F s σ u → Runs False (f none) R u)
    (hsome : ∀ e name u, Fine sb F s (σ.plus (Pi.single e 1)) u → Runs False (f (some (e, name))) R u) :
    Runs False (nameiparent p path >>= f) R t := by
  refine (fine_namex true hp hG h).bind fun a u hu => ?_
  cases a with
  | none => exact hnone u (hu.cast (by simp))
  | some a => exact hsome a.1 a.2 u hu

/-! ## create -/

theorem Fine.inum_lt (h : Fine sb F s σ t) (he : σ.locks e = true) : (t.inode e).inum.toNat < sb.ninodes.toNat :=
  (h.sound.live (h.lock he)).alloc.2.1

theorem fine_createDots (h : Fine sb F s σ t) (hdp : σ.locks dp = true) (hip : σ.locks ip = true) :
    Runs False (createDots dp ip) (fun _ u => Fine sb F s σ u) t := by
  refine fine_save (fun d => ⟨rfl, rfl, rfl⟩) h hdp fun u h => .seq (runs_getInode (.seq (runs_getInode ?_)))
  refine fine_dirlink h hip (h.inum_lt hip) fun b v h' => .ite (fun _ => ?_) fun _ => runs_fail id (by rintro ⟨⟩)
  exact fine_dirlink h' hip (h.inum_lt hdp) fun b w h => .ite (fun _ => h) fun _ => runs_fail id (by rintro ⟨⟩)

structure Made (sb : Superblock) (F : Pins) (s : Kernel) (σ : Shape) (type : Half) (ip : Ip) (t : Kernel) : Prop
    extends Fine sb F s ((σ.lock ip true).plus (Pi.single ip 1)) t where
  free : σ.locks ip = false
  type : (onDisk sb t ip).type = type

theorem fine_ialloc {f : Ip → M β} {dev : Word} {type : Half} (hdev : dev = ROOTDEV) (h : Fine sb F s (σ.plus r) t)
    (hf : ∀ e u, Fine sb F s (σ.plus (r + Pi.single e 1)) u → onDisk sb u e = { Dinode.zero with type } →
      Runs False (f e) R u) : Runs False (ialloc dev type >>= f) R t := by
  have hdoes : Then t (ialloc dev type) fun e u => True ∧ Does t ((shape t).plus (Pi.single e 1)) u :=
    (then_iallocFrom _ _ _ _ (Does.refl t)).imp fun _ _ hu => ⟨trivial, hu⟩
  refine h.next (G := fun e σ => σ.plus (Pi.single e 1)) (P := fun _ => True)
    (X := fun e u => onDisk sb u e = { Dinode.zero with type }) hdoes
    ((sound_ialloc h.sound hdev).imp fun _ _ hu => ⟨hu.1, hu.2.2.1⟩) fun e u _ hX hu => hf e u (hu.cast ?_) hX
  rw [Shape.plus_plus]

theorem fine_createNew {type major minor : Half} (hG : Guards F σ) (hl : σ.locks dp = false)
    (h : Fine sb F s ((σ.lock dp true).plus (Pi.single dp 1)) t) :
    Runs False (createNew dp name type major minor) (fun ip u => Made sb F s σ type ip u) t := by
  have hdev : (t.inode dp).dev = ROOTDEV := h.sound.dev dp (h.sound.live (h.lock (by simp))).pos
  refine .seq (runs_getInode (fine_ialloc hdev h fun ip t h hdisk => ?_))
  refine fine_ilock h fun t' hip h hlocked => ?_
  -- the directory is locked, so the new inode is another one
  have hne : ip ≠ dp := by
    rintro rfl
    simp at hip
  have hfree : σ.locks ip = false := by simpa [hne] using hip
  have hlock : ((σ.lock dp true).lock ip true).locks ip = true := by simp
  have hlock' : ((σ.lock dp true).lock ip true).locks dp = true := by simp [hne.symm]
  have hdisk' : (onDisk sb t' ip).type = type := by
    rw [onDisk, hlocked.disk, hlocked.inum]
    exact congrArg Dinode.type hdisk
  -- it is pinned, so that it keeps its type
  have hold := h.sound
  have hpin : Fine sb (F.pin sb t' ip) s (((σ.lock dp true).lock ip true).plus (Pi.single dp 1 + Pi.single ip 1)) t' :=
    ⟨h.does, h.sound.pin (h.sound.live (h.lock hlock))⟩
  refine fine_save (fun d => ⟨rfl, rfl, rfl⟩) hpin hlock fun u h => ?_
  refine .bind (Q := fun _ v => Fine sb (F.pin sb t' ip) s
    (((σ.lock dp true).lock ip true).plus (Pi.single dp 1 + Pi.single ip 1)) v)
    (.ite (fun _ => fine_createDots h hlock' hlock) fun _ => runs_pure h) fun _ v h => ?_
  refine .seq (runs_getInode (fine_dirlink h hlock' (h.inum_lt hlock) fun b w h => ?_))
  refine .ite (fun _ => ?_) fun _ => runs_fail id (by rintro ⟨⟩)
  have hcomm : ((σ.lock dp true).lock ip true).plus (Pi.single dp 1 + Pi.single ip 1) =
      (((σ.plus (Pi.single ip 1)).lock ip true).lock dp true).plus (Pi.single dp 1) := by
    simp [Shape.lock_comm hne, add_comm]
  refine fine_iunlockput (σ := (σ.plus (Pi.single ip 1)).lock ip true) (r := Pi.single dp 1) hG.pin.lock
    (by simp [hne.symm, hl]) (one_le_single dp) (h.cast hcomm) fun x h => ?_
  have hpinned := h.sound.pinned ip _ F.pin_self
  refine ⟨⟨h.does.cast ?_, hold.unpin h.sound⟩, hfree, ?_⟩
  · simp
  · exact (congrArg Prod.fst hpinned.2.2).trans hdisk'

def Created (sb : Superblock) (F : Pins) (s : Kernel) (σ : Shape) (type : Half) : Option Ip → Kernel → Prop
  | none, t => Fine sb F s σ t
  | some ip, t => Made sb F s σ type ip t

theorem fine_create {type major minor : Half} (hp : Homed t p) (hG : Guards F σ) (h : Fine sb F s σ t) :
    Runs False (create p path type major minor) (Created sb F s σ type) t := by
  refine fine_nameiparent hp hG h (fun u h => h) fun dp name u h => fine_ilock h fun v hdp h _ => ?_
  refine fine_dirlookup h (fun w h => (fine_createNew hG hdp h).bind fun ip x hx => hx) fun a w h _ => ?_
  obtain ⟨ip, off⟩ := a
  refine fine_iunlockput hG hdp (one_le_single_add dp ip) h fun x h => ?_
  have h := h.cast (τ := σ.plus (Pi.single ip 1)) (by rw [add_sub_cancel_left])
  refine fine_ilock h fun y hip h _ => .seq (runs_getInode (.ite (fun htype => ?_) fun _ => ?_))
  · refine ⟨h, hip, ?_⟩
    rw [(h.sound.live (h.lock (by simp))).copy] at htype
    exact htype.2.trans htype.1.symm
  · exact fine_drop hG hip h fun z h => h

/-! ## link and unlink -/

theorem fine_linkBad (hG : Guards F σ) (h : Fine sb F s ((σ.op 1).plus (Pi.single ip 1)) t) :
    Runs False (linkBad ip) (fun _ u => Fine sb F s σ u) t := by
  refine fine_ilock h fun t hip h _ => fine_save (fun d => ⟨rfl, rfl, rfl⟩) h (by simp) fun t h => ?_
  exact fine_drop hG.op hip h fun _ h => fine_endOp_zero h fun _ h => h

theorem fine_sysLink {old new : List Byte} (hp : Homed s p) (hG : Guards F (shape s)) (h : Sound sb F s) :
    Runs False (sysLink p old new) (fun _ t => Fine sb F s (shape s) t) s := by
  refine fine_beginOp ⟨Does.refl s, h⟩ fun t h => ?_
  refine fine_namei (hp.op h.does) hG.op h (fun t h => fine_endOp_zero h fun t h => h) fun ip t h => ?_
  refine fine_ilock h fun t hip h _ => .seq (runs_getInode (.ite (fun _ => ?_) fun _ => ?_))
  · exact fine_drop hG.op hip h fun t h => fine_endOp_zero h fun t h => h
  refine fine_save (fun d => ⟨rfl, rfl, rfl⟩) h (by simp) fun t₀ h => ?_
  -- the inode is pinned while the other path is resolved
  have hold := h.sound
  have hpin : Fine sb (F.pin sb t₀ ip) s ((((shape s).op 1).lock ip true).plus (Pi.single ip 1)) t₀ :=
    ⟨h.does, h.sound.pin (h.sound.live (h.lock (by simp)))⟩
  refine fine_iunlock hip hpin fun t h => ?_
  have hG' : Guards (F.pin sb t₀ ip) (((shape s).op 1).plus (Pi.single ip 1)) := hG.op.pin
  refine fine_nameiparent (hp.does (single_nonneg ip) h.does) hG' h (fun t h => ?_) fun dp name t h => ?_
  · exact fine_linkBad hG ⟨h.does, hold.unpin h.sound⟩
  refine fine_ilock h fun t hdp h _ => ?_
  have hin : Runs False (linkIn dp name ip) (fun _ u => Sound sb (F.pin sb t₀ ip) u ∧ True) t := by
    refine .seq (runs_getInode (.seq (runs_getInode (.ite (fun _ => ⟨h.sound, trivial⟩) fun _ => ?_))))
    refine (sound_dirlink h.sound (h.lock (by simp)) ?_).imp fun _ _ hu => ⟨hu, trivial⟩
    exact (h.sound.range ip (h.sound.pinned ip _ F.pin_self).1).2
  refine h.quiet (quiet_linkIn dp name ip) hin fun linked t _ h => .ite (fun _ => ?_) fun _ => ?_
  · refine fine_drop hG' hdp h fun t h => ?_
    have h : Fine sb F s (((shape s).op 1).plus (Pi.single ip 1)) t := ⟨h.does, hold.unpin h.sound⟩
    refine fine_iput hG.op (one_le_single ip) h fun t h => fine_endOp_zero (h.cast ?_) fun t h => h
    simp
  · exact fine_drop hG' hdp h fun t h => fine_linkBad hG ⟨h.does, hold.unpin h.sound⟩

theorem IsEntry.locked {off : Nat} (h : IsEntry sb s e off) (hl : Locked s e' t) (hne : e ≠ e') :
    IsEntry sb t e off := by
  rw [IsEntry, onDisk, hl.disk, hl.other e hne]
  exact h

theorem fine_unlinkBad (hG : Guards F σ) (hl : σ.locks dp = false)
    (h : Fine sb F s (((σ.op 1).lock dp true).plus (Pi.single dp 1)) t) :
    Runs False (unlinkBad dp) (fun _ u => Fine sb F s σ u) t :=
  fine_drop hG.op hl h fun _ h => fine_endOp_zero h fun _ h => h

theorem fine_sysUnlink (hp : Homed s p) (hG : Guards F (shape s)) (h : Sound sb F s) :
    Runs False (sysUnlink p path) (fun _ t => Fine sb F s (shape s) t) s := by
  refine fine_beginOp ⟨Does.refl s, h⟩ fun t h => ?_
  refine fine_nameiparent (hp.op h.does) hG.op h (fun t h => fine_endOp_zero h fun t h => h) fun dp name t h => ?_
  refine fine_ilock h fun t hdp h _ => .ite (fun _ => fine_unlinkBad hG hdp h) fun _ => ?_
  refine fine_dirlookup h (fun t h => fine_unlinkBad hG hdp h) fun a t h hentry => ?_
  obtain ⟨ip, off⟩ := a
  refine fine_ilock h fun t hip h hlocked => .seq (runs_getInode (.ite (fun _ => runs_fail id (by rintro ⟨⟩))
    fun _ => ?_))
  have hne : dp ≠ ip := by
    rintro rfl
    simp at hip
  have hfree : ((shape s).op 1).locks ip = false := by simpa [hne.symm] using hip
  have hentry := hentry.locked hlocked hne
  have hlock : ((((shape s).op 1).lock dp true).lock ip true).locks ip = true := by simp
  have hlock' : ((((shape s).op 1).lock dp true).lock ip true).locks dp = true := by simp [hne]
  -- first the one, then the other
  have hcomm : ((((shape s).op 1).lock dp true).lock ip true).plus (Pi.single dp 1 + Pi.single ip 1) =
      ((((shape s).op 1).lock ip true).lock dp true).plus (Pi.single dp 1 + Pi.single ip 1) := by
    rw [Shape.lock_comm hne.symm]
  refine .bind (sound_isBusy h.sound (h.lock hlock)) ?_
  rintro busy _ rfl
  refine .ite (fun _ => ?_) fun _ => ?_
  · refine fine_iunlockput (σ := ((shape s).op 1).lock dp true) hG.op.lock (by simpa using hip)
      (by rw [add_comm]; exact one_le_single_add ip dp) h fun t h => fine_unlinkBad hG hdp (h.cast ?_)
    rw [add_sub_cancel_right]
  refine h.quiet (X := fun _ _ => True) (quiet_unlinkEntry dp ip off)
    ((sound_unlinkEntry h.sound (h.lock hlock') hentry).imp fun _ _ hu => ⟨hu, trivial⟩) fun _ t _ h => ?_
  refine fine_iunlockput (σ := ((shape s).op 1).lock ip true) hG.op.lock (by simpa [hne] using hdp)
    (one_le_single_add dp ip) (h.cast hcomm) fun t h => ?_
  have h := h.cast (τ := (((shape s).op 1).lock ip true).plus (Pi.single ip 1)) (by rw [add_sub_cancel_left])
  refine fine_save (fun d => ⟨rfl, rfl, rfl⟩) h (by simp) fun t h => ?_
  exact fine_drop hG.op hfree h fun t h => fine_endOp_zero h fun t h => h

end Xv6.Fs
