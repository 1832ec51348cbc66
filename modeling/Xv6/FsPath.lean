import Xv6.FsDir

/- Path names.

   A path is the bytes before its NUL.

   1. The elements that `skipelem` takes off a path are its `components`: the maximal runs
      of bytes that are not slashes, cut to `DIRSIZ` bytes.
   2. `walk` looks one component up after the other on the disk. While `namex` does so, the
      tables change by the reference it holds, and by copies of inodes that it reads
      (`Visit`); no inode on its way is freed.
   3. `namex_folds_lookup`: `namei` is `walk` over all components, `nameiparent` over all
      but the last. -/
namespace Xv6.Fs
open Bits ByteBlock Log Command Allocation SlotTable

variable {Q : Unit → Kernel → Prop} {parent : Bool}
variable {P : Prop} {s t u : Kernel} {sb : Superblock} {e e' : Ip} {p : Pp} {blk : Nat → Blk} {i : Nat} {inum : Word}
  {path rest name : List Byte} {comps : List (List Byte)}

/-! ## Elements -/

/-- The maximal runs of bytes that are not slashes, cut to `DIRSIZ` bytes. -/
def components (path : List Byte) : List (List Byte) :=
  ((path.splitOn slash).filter (· ≠ [])).map (·.take DIRSIZ)

theorem components_nil : components [] = [] := rfl

theorem components_slash (path : List Byte) : components (slash :: path) = components path := by
  have hsplit : (slash :: path).splitOn slash = [] :: path.splitOn slash :=
    List.splitOn_append_cons_self [] path
  rw [components, hsplit]
  rfl

theorem components_dropWhile (path : List Byte) : components (path.dropWhile (· = slash)) = components path := by
  induction path with
  | nil => rfl
  | cons b path ih =>
    by_cases hb : b = slash
    · subst hb
      rw [List.dropWhile_cons_of_pos (by simp), ih, components_slash]
    · rw [List.dropWhile_cons_of_neg (by simpa using hb)]

theorem components_run {w : List Byte} (hne : w ≠ []) (hw : slash ∉ w) (hrest : rest = [] ∨ rest.head? = some slash) :
    components (w ++ rest) = w.take DIRSIZ :: components rest := by
  have hone : w.splitOn slash = [w] := List.splitOn_eq_singleton hw
  rcases rest with _ | ⟨b, rest⟩
  · rw [List.append_nil, components, hone, components_nil]
    simp [hne]
  · obtain rfl : b = slash := by simpa using hrest
    rw [components_slash, components, List.splitOn_append_cons_self, hone, List.singleton_append,
      List.filter_cons_of_pos (by simpa using hne)]
    rfl

theorem run_ne_nil (hne : path ≠ []) (hhead : path.head? ≠ some slash) : path.takeWhile (· ≠ slash) ≠ [] := by
  rcases path with _ | ⟨b, path⟩
  · exact absurd rfl hne
  · have hb : b ≠ slash := by simpa using hhead
    rw [List.takeWhile_cons_of_pos (by simpa using hb)]
    exact List.cons_ne_nil b _

theorem components_takeWhile (hne : path ≠ []) (hhead : path.head? ≠ some slash) :
    components path = (path.takeWhile (· ≠ slash)).take DIRSIZ :: components (path.dropWhile (· ≠ slash)) := by
  have hsplit := List.takeWhile_append_dropWhile (p := (· ≠ slash)) (l := path)
  have hnone : slash ∉ path.takeWhile (· ≠ slash) := fun hmem => by
    have := List.all_eq_true.mp (List.all_takeWhile (p := (· ≠ slash)) (l := path)) slash hmem
    simp at this
  have hafter : path.dropWhile (· ≠ slash) = [] ∨ (path.dropWhile (· ≠ slash)).head? = some slash := by
    cases hdrop : path.dropWhile (· ≠ slash) with
    | nil => exact .inl rfl
    | cons b rest =>
      have := List.head?_dropWhile_not (· ≠ slash) path
      rw [hdrop] at this
      exact .inr (by simpa using this)
  rw [← components_run (run_ne_nil hne hhead) hnone hafter, hsplit]

theorem components_eq_nil (hhead : path.head? ≠ some slash) : components path = [] ↔ path = [] := by
  constructor
  · intro hnil
    by_contra hne
    rw [components_takeWhile hne hhead] at hnil
    cases hnil
  · rintro rfl
    rfl

theorem head?_dropWhile_slash (path : List Byte) : (path.dropWhile (· = slash)).head? ≠ some slash := by
  intro hhead
  have := List.head?_dropWhile_not (· = slash) path
  rw [hhead] at this
  simp at this

theorem skipelem_none (h : skipelem path = none) : components path = [] := by
  simp only [skipelem] at h
  split at h
  · rename_i hnil
    rw [← components_dropWhile, hnil, components_nil]
  · cases h

theorem skipelem_some (h : skipelem path = some (name, rest)) :
    components path = name :: components rest ∧ (rest = [] ↔ components rest = []) ∧ rest.length < path.length := by
  have hlt := skipelem_length h
  simp only [skipelem] at h
  split at h
  · cases h
  rename_i hne
  obtain ⟨rfl, rfl⟩ := Prod.mk.inj (Option.some.inj h)
  have hfirst := components_takeWhile hne (head?_dropWhile_slash path)
  refine ⟨?_, (components_eq_nil (head?_dropWhile_slash _)).symm, hlt⟩
  rw [← components_dropWhile path, hfirst, components_dropWhile]

/-- The elements that `skipelem` takes off, one after the other. -/
def elements : Nat → List Byte → List (List Byte)
  | 0, _ => []
  | fuel + 1, path =>
    match skipelem path with
    | none => []
    | some (name, rest) => name :: elements fuel rest

theorem elements_eq_components {fuel : Nat} (hfuel : path.length < fuel) : elements fuel path = components path := by
  induction fuel generalizing path with
  | zero => omega
  | succ fuel ih =>
    rw [elements]
    split
    · rename_i hnone
      exact (skipelem_none hnone).symm
    · rename_i name rest hsome
      obtain ⟨hcons, -, hlt⟩ := skipelem_some hsome
      rw [hcons, ih (by omega)]

/-! ## Walks -/

/-- The inode reached from `i`, if every one on the way is a directory with the next name in it. -/
def walk (sb : Superblock) (blk : Nat → Blk) : List (List Byte) → Nat → Option Nat
  | [], i => some i
  | name :: comps, i =>
    if (dinodeOf sb blk i).type = T_DIR then
      (lookup (table blk (dinodeOf sb blk i)) (trim name)).bind fun v => walk sb blk comps v.toNat
    else none

/-- Where `namex` ends: with all components looked up or, for the parent, all but the last, in a directory. -/
def target (sb : Superblock) (blk : Nat → Blk) (parent : Bool) (comps : List (List Byte)) (i : Nat) : Option Nat :=
  if parent then
    if comps = [] then none
    else (walk sb blk comps.dropLast i).filter fun i => (dinodeOf sb blk i).type = T_DIR
  else walk sb blk comps i

theorem target_nil (parent : Bool) : target sb blk parent [] i = if parent then none else some i := by
  cases parent <;> rfl

theorem target_of_not_dir (hne : comps ≠ []) (hi : (dinodeOf sb blk i).type ≠ T_DIR) :
    target sb blk parent comps i = none := by
  obtain ⟨name, comps, rfl⟩ := List.exists_cons_of_ne_nil hne
  cases parent with
  | false => exact if_neg hi
  | true =>
    rcases comps with _ | ⟨name', comps⟩
    · simp [target, walk, hi]
    · simp [target, walk, hi]

theorem target_single (hi : (dinodeOf sb blk i).type = T_DIR) : target sb blk true [name] i = some i := by
  simp [target, walk, hi]

theorem target_cons (hi : (dinodeOf sb blk i).type = T_DIR) (hmore : ¬(parent = true ∧ comps = [])) :
    target sb blk parent (name :: comps) i =
      (lookup (table blk (dinodeOf sb blk i)) (trim name)).bind fun v => target sb blk parent comps v.toNat := by
  cases parent with
  | false => exact if_pos hi
  | true =>
    have hne : comps ≠ [] := fun hnil => hmore ⟨rfl, hnil⟩
    have hdrop : (name :: comps).dropLast = name :: comps.dropLast := List.dropLast_cons_of_ne_nil hne
    simp only [target, hdrop, walk, hi, hne, if_true, if_false, reduceCtorEq]
    cases lookup (table blk (dinodeOf sb blk i)) (trim name) <;> rfl

/-! ## What a walk does to the tables -/

/-- `t` is `s`, but for `n e` more references to the inode at place `e`, the lock of the inode at `l`, and copies
that have been read. -/
structure Visit (sb : Superblock) (s : Kernel) (n : Ip → Int) (l : Option Ip) (t : Kernel) : Prop where
  rest : { t with inode := s.inode } = s
  extra : ∀ e, 0 ≤ n e
  refs : ∀ e, (t.inode e).ref = (s.inode e).ref + n e
  locks : ∀ e, (t.inode e).lock = decide (l = some e)
  same : ∀ e, 0 < (s.inode e).ref → (t.inode e).dev = (s.inode e).dev ∧ (t.inode e).inum = (s.inode e).inum
  cache : Cache sb t

namespace Visit

variable {n : Ip → Int} {l : Option Ip}

theorem disk (h : Visit sb s n l t) : t.blk = s.blk := by
  rw [← h.rest]

theorem super (h : Visit sb s n l t) : t.sb = s.sb := by
  rw [← h.rest]

theorem calm (h : Visit sb s n l t) (hc : Calm sb s) : Calm sb t := by
  have hlocked : t.locked = s.locked := by rw [← h.rest]
  have hlogged : t.logged = s.logged := by rw [← h.rest]
  exact ⟨hc.disk, hlocked ▸ hc.locked, hlogged ▸ hc.bufs⟩

/-- A store to one place that keeps which inode it is for. -/
theorem set {x : Inode} {n' : Ip → Int} {l' : Option Ip} (h : Visit sb s n l t) (hdev : x.dev = (t.inode e).dev)
    (hinum : x.inum = (t.inode e).inum) (hextra : ∀ e', 0 ≤ n' e')
    (hrefs : x.ref = (s.inode e).ref + n' e) (hother : ∀ e', e' ≠ e → n' e' = n e')
    (hlock : x.lock = decide (l' = some e)) (hlocks : ∀ e', e' ≠ e → decide (l' = some e') = decide (l = some e'))
    (hcache : Cache sb (t.setInode e x)) : Visit sb s n' l' (t.setInode e x) where
  rest := h.rest
  extra := hextra
  refs e' := by
    by_cases he : e' = e
    · subst he
      rw [setInode_inode_self, hrefs]
    · rw [setInode_inode_of_ne t _ he, h.refs, hother e' he]
  locks e' := by
    by_cases he : e' = e
    · subst he
      rw [setInode_inode_self, hlock]
    · rw [setInode_inode_of_ne t _ he, h.locks, hlocks e' he]
  same e' hpos := by
    by_cases he : e' = e
    · subst he
      rw [setInode_inode_self, hdev, hinum]
      exact h.same e' hpos
    · rw [setInode_inode_of_ne t _ he]
      exact h.same e' hpos
  cache := hcache

theorem pos (h : Visit sb s n l t) (hs : ∀ e, 0 ≤ (s.inode e).ref) (he : 0 < n e) : 0 < (t.inode e).ref := by
  rw [h.refs]
  have := hs e
  omega

theorem lock (h : Visit sb s n none t) (hinum : (t.inode e).inum.toNat = i) : Visit sb s n (some e)
    (t.setInode e { t.inode e with lock := true, valid := true, d := dinodeOf sb t.blk i }) := by
  refine h.set rfl rfl h.extra (h.refs e) (fun _ _ => rfl) (by simp) (fun e' he => ?_) ?_
  · simp [Ne.symm he]
  · exact h.cache.set rfl rfl id fun _ _ => by rw [← hinum]

theorem unlock (h : Visit sb s n (some e) t) : Visit sb s n none (t.setInode e { t.inode e with lock := false }) := by
  refine h.set rfl rfl h.extra (h.refs e) (fun _ _ => rfl) (by simp) (fun e' he => ?_) ?_
  · simp [Ne.symm he]
  · exact h.cache.set rfl rfl id fun hpos hvalid => h.cache.copy e hpos hvalid

theorem put (h : Visit sb s n l t) (hs : ∀ e, 0 ≤ (s.inode e).ref) (he : 0 < n e) : Visit sb s (n - Pi.single e 1) l
    (t.setInode e { t.inode e with ref := (t.inode e).ref - 1 }) := by
  have hself : (n - Pi.single e 1 : Ip → Int) e = n e - 1 := by simp
  have hpos := h.pos hs he
  have hother : ∀ e', e' ≠ e → (n - Pi.single e 1 : Ip → Int) e' = n e' := by
    intro e' hne
    simp [hne]
  refine h.set rfl rfl (fun e' => ?_) ?_ hother (h.locks e) (fun _ _ => rfl) ?_
  · by_cases hne : e' = e
    · subst hne
      omega
    · rw [hother e' hne]
      exact h.extra e'
  · change (t.inode e).ref - 1 = _
    rw [hself, h.refs]
    omega
  · exact h.cache.set rfl rfl (fun _ => hpos) fun _ hvalid => h.cache.copy e hpos hvalid

theorem got (h : Visit sb s n l t) (hs : ∀ e, 0 ≤ (s.inode e).ref) (hg : Got t ROOTDEV inum e u) :
    Visit sb s (n + Pi.single e 1) l u := by
  have hcache := h.cache.got hg
  have hself : (n + Pi.single e 1 : Ip → Int) e = n e + 1 := by simp
  have hother : ∀ e', e' ≠ e → (n + Pi.single e 1 : Ip → Int) e' = n e' := by
    intro e' hne
    simp [hne]
  have hextra : ∀ e', 0 ≤ (n + Pi.single e 1 : Ip → Int) e' := by
    intro e'
    have := h.extra e'
    by_cases hne : e' = e
    · subst hne
      omega
    · rw [hother e' hne]
      exact this
  cases hg with
  | hit hcached =>
    refine h.set rfl rfl hextra ?_ hother (h.locks e) (fun _ _ => rfl) hcache
    change (t.inode e).ref + 1 = _
    rw [hself, h.refs]
    omega
  | miss hfree hnone =>
    have hrefs := h.refs e
    have hn := h.extra e
    have hnonneg := hs e
    refine ⟨h.rest, hextra, fun e' => ?_, fun e' => ?_, fun e' hpos => ?_, hcache⟩
    · by_cases hne : e' = e
      · subst hne
        rw [setInode_inode_self, hself]
        change 1 = _
        omega
      · rw [setInode_inode_of_ne t _ hne, hother e' hne, h.refs]
    · by_cases hne : e' = e
      · subst hne
        rw [setInode_inode_self]
        exact h.locks e'
      · rw [setInode_inode_of_ne t _ hne]
        exact h.locks e'
    · have hne : e' ≠ e := by
        rintro rfl
        omega
      rw [setInode_inode_of_ne t _ hne]
      exact h.same e' hpos

end Visit

/-- The inode is in use, and has a link or is held by somebody. -/
def Anchored (sb : Superblock) (s : Kernel) (i : Nat) : Prop :=
  Allocated sb (dinodeOf sb s.blk) i ∧
    ((dinodeOf sb s.blk i).nlink ≠ 0 ∨ ∃ e, 0 < (s.inode e).ref ∧ (s.inode e).inum.toNat = i)

/-- A file system in which every name leads to an inode, as process `p` finds it when it holds no inode. -/
structure Tree (sb : Superblock) (s : Kernel) (p : Pp) : Prop where
  wf : WellFormed sb s.blk
  super : s.sb = sb
  cache : Cache sb s
  nonneg : ∀ e, 0 ≤ (s.inode e).ref
  unlocked : ∀ e, (s.inode e).lock = false
  dirs : ∀ i, Allocated sb (dinodeOf sb s.blk) i → (dinodeOf sb s.blk i).type = T_DIR →
    (dinodeOf sb s.blk i).size.toNat % direntSize = 0 ∧ Distinct (tableOf sb s.blk i)
  named : ∀ i, Allocated sb (dinodeOf sb s.blk) i → (dinodeOf sb s.blk i).type = T_DIR →
    ∀ (k : Nat) x v, (tableOf sb s.blk i)[k]? = some (some (x, v)) → Anchored sb s v.toNat
  root : Anchored sb s ROOTINO.toNat
  cwd : ∃ e, (s.proc p).cwd = some e ∧ 0 < (s.inode e).ref ∧ Allocated sb (dinodeOf sb s.blk) (s.inode e).inum.toNat

/-- Buffers can be had, and two places in the inode cache. -/
def Roomy (sb : Superblock) (s : Kernel) : Prop :=
  Calm sb s ∧ ∃ e e', e ≠ e' ∧ (s.inode e).ref = 0 ∧ (s.inode e').ref = 0

namespace Visit

variable {n : Ip → Int} {l : Option Ip}

theorem keeps (h : Visit sb s n l t) (hs : ∀ e, 0 ≤ (s.inode e).ref) (he : 0 < n e) (hinum : (t.inode e).inum.toNat = i)
    (ha : Anchored sb s i) : t.keeps e := by
  have hpos := h.pos hs he
  rintro ⟨hvalid, hnlink, hlast⟩
  rw [h.cache.copy e hpos hvalid, h.disk, hinum] at hnlink
  rcases ha.2 with hlinks | ⟨e', hpos', hinum'⟩
  · exact hlinks hnlink
  · -- whoever holds it, holds it at the same place
    obtain ⟨hdev, hsame⟩ := h.same e' hpos'
    have hpos'' : 0 < (t.inode e').ref := by
      have := h.extra e'
      rw [h.refs]
      omega
    have heq : e' = e := by
      refine h.cache.unique e' e hpos'' hpos ?_ ?_
      · rw [h.cache.dev e' hpos'', h.cache.dev e hpos]
      · refine BitVec.eq_of_toNat_eq ?_
        rw [hsame, hinum', hinum]
    subst heq
    rw [h.refs] at hlast
    omega

theorem runs_ilock (h : Visit sb s n none t) (hT : Tree sb s p) (he : 0 < n e)
    (hinum : (t.inode e).inum.toNat = i) (ha : Anchored sb s i) (hP : P → Calm sb s)
    (hQ : ∀ u, Visit sb s n (some e) u → (u.inode e).inum.toNat = i → (u.inode e).d = dinodeOf sb s.blk i → Q () u) :
    Runs P (ilock e) Q t := by
  have hpos := h.pos hT.nonneg he
  refine Fs.runs_ilock hT.wf.vol.layout (h.super.trans hT.super) hinum ha.1.2.1 (fun hvalid => ?_) (fun hp => ?_)
    fun _ _ _ => ?_
  · rw [h.cache.copy e hpos hvalid, hinum]
  · refine ⟨h.locks e, hpos, h.calm (hP hp), ?_⟩
    rw [h.disk]
    exact ha.1.2.2
  · refine hQ _ (h.lock hinum) ?_ ?_
    · rw [setInode_inode_self]
      exact hinum
    · rw [setInode_inode_self, h.disk]

theorem runs_iput (h : Visit sb s n none t) (hs : ∀ e, 0 ≤ (s.inode e).ref) (he : 0 < n e)
    (hinum : (t.inode e).inum.toNat = i) (ha : Anchored sb s i) (hQ : ∀ u, Visit sb s (n - Pi.single e 1) none u →
      (∀ e', (u.inode e').inum = (t.inode e').inum) → Q () u) : Runs P (iput e) Q t := by
  refine runs_iput_keeps (h.keeps hs he hinum ha) (fun _ => h.locks e) fun _ => hQ _ (h.put hs he) fun e' => ?_
  by_cases hne : e' = e
  · subst hne
    rw [setInode_inode_self]
  · rw [setInode_inode_of_ne t _ hne]

theorem runs_iunlock (h : Visit sb s n (some e) t) (hs : ∀ e, 0 ≤ (s.inode e).ref) (he : 0 < n e)
    (hQ : ∀ u, Visit sb s n none u → (∀ e', (u.inode e').inum = (t.inode e').inum) → Q () u) :
    Runs P (iunlock e) Q t := by
  refine Fs.runs_iunlock (fun _ => ⟨?_, h.pos hs he⟩) fun _ => hQ _ h.unlock fun e' => ?_
  · rw [h.locks e]
    simp
  · by_cases hne : e' = e
    · subst hne
      rw [setInode_inode_self]
    · rw [setInode_inode_of_ne t _ hne]

theorem runs_iunlockput (h : Visit sb s n (some e) t) (hs : ∀ e, 0 ≤ (s.inode e).ref) (he : 0 < n e)
    (hinum : (t.inode e).inum.toNat = i) (ha : Anchored sb s i) (hQ : ∀ u, Visit sb s (n - Pi.single e 1) none u →
      (∀ e', (u.inode e').inum = (t.inode e').inum) → Q () u) : Runs P (iunlockput e) Q t := by
  refine .seq (h.runs_iunlock hs he fun u hu hsame => ?_)
  refine hu.runs_iput hs he (by rw [hsame]; exact hinum) ha fun v hv hsame' => hQ v hv fun e' => ?_
  rw [hsame', hsame]

theorem dir (h : Visit sb s n l t) (hT : Tree sb s p) (hinum : (t.inode e).inum.toNat = i)
    (hcopy : (t.inode e).d = dinodeOf sb s.blk i) (hi : Allocated sb (dinodeOf sb s.blk) i)
    (htype : (dinodeOf sb s.blk i).type = T_DIR) : Dir sb t e i := by
  obtain ⟨hwhole, hdistinct⟩ := hT.dirs i hi htype
  rw [← h.disk] at hi hcopy htype hwhole hdistinct
  exact ⟨⟨h.disk ▸ hT.wf, h.super.trans hT.super, hi, hinum, hcopy, htype, hwhole⟩, hdistinct⟩

theorem cacheable (h : Visit sb s (Pi.single e 1) l t) (hroom : Roomy sb s) (dev inum : Word) :
    Cacheable t dev inum := by
  obtain ⟨-, e₁, e₂, hne, h₁, h₂⟩ := hroom
  by_cases he : e₁ = e
  · refine ⟨e₂, .inr ?_⟩
    rw [h.refs, h₂, Pi.single_eq_of_ne (he ▸ hne.symm)]
    rfl
  · refine ⟨e₁, .inr ?_⟩
    rw [h.refs, h₁, Pi.single_eq_of_ne he]
    rfl

end Visit

/-! ## namex -/

/-- The loop of `namex` at inode `i`. -/
theorem runs_namexFrom {Q : Option (Ip × List Byte) → Kernel → Prop} {fuel : Nat} (hT : Tree sb s p)
    (ht : Visit sb s (Pi.single e 1) none t) (hinum : (t.inode e).inum.toNat = i) (ha : Anchored sb s i)
    (hfuel : path.length < fuel) (hP : P → Roomy sb s)
    (hnone : target sb s.blk parent (components path) i = none → ∀ u, Visit sb s 0 none u → Q none u)
    (hsome : ∀ j, target sb s.blk parent (components path) i = some j → ∀ e' last u, Visit sb s
      (Pi.single e' 1) none u →
      (u.inode e').inum.toNat = j → (parent = true → (components path).getLast? = some last) → Q (some (e', last)) u) :
    Runs P (namexFrom parent fuel e path name) Q t := by
  have hone : ∀ e : Ip, 0 < (Pi.single e 1 : Ip → Int) e := by
    intro e
    simp
  have hsub : ∀ e : Ip, (Pi.single e 1 - Pi.single e 1 : Ip → Int) = 0 := fun e => sub_self _
  induction fuel generalizing t e i path name with
  | zero => omega
  | succ fuel ih =>
    rw [namexFrom]
    split
    · rename_i hskip
      rw [skipelem_none hskip, target_nil] at hnone hsome
      cases parent with
      | false => exact runs_pure (hsome i rfl e name t ht hinum (by rintro ⟨⟩))
      | true =>
        refine .seq (ht.runs_iput hT.nonneg (hone e) hinum ha fun u hu _ => runs_pure (hnone rfl u ?_))
        rwa [hsub] at hu
    · rename_i name rest hskip
      obtain ⟨hcons, hlast, hlt⟩ := skipelem_some hskip
      rw [hcons] at hnone hsome
      refine .seq (ht.runs_ilock hT (hone e) hinum ha (fun hp => (hP hp).1) fun u hu hinum hcopy => .seq
        (runs_getInode ?_))
      rw [hcopy]
      refine .ite (fun htype => .seq ?_) fun htype => ?_
      · -- not a directory
        refine hu.runs_iunlockput hT.nonneg (hone e) hinum ha fun v hv _ => runs_pure (hnone ?_ v ?_)
        · exact target_of_not_dir (List.cons_ne_nil _ _) htype
        · rwa [hsub] at hv
      have htype : (dinodeOf sb s.blk i).type = T_DIR := Decidable.not_not.mp htype
      refine .ite (fun hstop => .seq ?_) fun hmore => .seq ?_
      · -- one level early
        obtain ⟨rfl, hnil⟩ := hstop
        rw [hlast.mp hnil] at hsome
        refine hu.runs_iunlock hT.nonneg (hone e) fun v hv hsame => runs_pure ?_
        exact hsome i (target_single htype) e name v hv (by rw [hsame]; exact hinum) fun _ => rfl
      · rw [hlast] at hmore
        rw [target_cons htype hmore] at hnone
        simp only [target_cons htype hmore] at hsome
        have hdir := hu.dir hT hinum hcopy ha.1 htype
        refine hdir.runs_dirlookup (fun hp => hu.calm (hP hp).1) (fun hmiss => ?_) fun k v hk => ?_
        · rw [hu.disk] at hmiss
          refine .seq (hu.runs_iunlockput hT.nonneg (hone e) hinum ha fun w hw _ => runs_pure (hnone ?_ w ?_))
          · rw [hmiss]
            rfl
          · rwa [hsub] at hw
        · rw [hu.cache.dev e (hu.pos hT.nonneg (hone e))]
          refine runs_iget (fun hp => hu.cacheable (hP hp) _ _) fun next w hg => ?_
          rw [hu.disk] at hk
          have hfound : lookup (tableOf sb s.blk i) (trim name) = some v :=
            (lookup_eq_some (hT.dirs i ha.1 htype).2).mpr ⟨k, hk⟩
          rw [hfound] at hnone
          simp only [hfound] at hsome
          have hw := hu.got hT.nonneg hg
          have hnext : (w.inode next).inum.toNat = v.toNat := by
            rw [hg.caches.2.2, BitVec.toNat_setWidth]
            have := v.isLt
            omega
          have hinum' : (w.inode e).inum.toNat = i := by
            rw [hg.inum_of_pos (hu.pos hT.nonneg (hone e)), hinum]
          have hpos : 0 < (Pi.single e 1 + Pi.single next 1 : Ip → Int) e := by
            have : 0 ≤ (Pi.single next 1 : Ip → Int) e := by
              rw [Pi.single_apply]
              split <;> decide
            simp only [Pi.add_apply]
            have := hone e
            omega
          refine .seq (hw.runs_iunlockput hT.nonneg hpos hinum' ha fun x hx hsame => ?_)
          refine ih (e := next) (i := v.toNat) ?_ (by rw [hsame]; exact hnext) (hT.named i ha.1 htype k _ v hk)
            (by omega) hnone fun j hj e' last u hu hj' hparent => hsome j hj e' last u hu hj' fun hp => ?_
          · have : (Pi.single e 1 + Pi.single next 1 - Pi.single e 1 : Ip → Int) = Pi.single next 1 := by abel
            rwa [this] at hx
          · obtain ⟨c, cs, hcs⟩ := List.exists_cons_of_ne_nil fun hnil => hmore ⟨hp, hnil⟩
            rw [← hparent hp, hcs, List.getLast?_cons_cons]

/-- The inode that a path starts from. -/
def start (s : Kernel) (p : Pp) (path : List Byte) : Nat :=
  if path.head? = some slash then ROOTINO.toNat
  else
    match (s.proc p).cwd with
    | some e => (s.inode e).inum.toNat
    | none => 0

theorem Tree.visit (hT : Tree sb s p) : Visit sb s 0 none s :=
  ⟨rfl, fun _ => le_refl _, fun _ => (Int.add_zero _).symm, hT.unlocked, fun _ _ => ⟨rfl, rfl⟩, hT.cache⟩

theorem runs_namexStart {Q : Ip → Kernel → Prop} (hT : Tree sb s p) (hP : P → Roomy sb s)
    (hQ : ∀ e t, Visit sb s (Pi.single e 1) none t → (t.inode e).inum.toNat = start s p path →
      Anchored sb s (start s p path) →
      Q e t) : Runs P (namexStart p path) Q s := by
  refine .ite (fun hslash => ?_) fun hslash => .seq (runs_gets ?_)
  · rw [start, if_pos hslash] at hQ
    refine runs_iget (fun hp => ?_) fun e t hg => hQ e t ?_ (congrArg BitVec.toNat hg.caches.2.2) hT.root
    · obtain ⟨-, e, -, -, he, -⟩ := hP hp
      exact ⟨e, .inr he⟩
    · have := hT.visit.got hT.nonneg hg
      rwa [zero_add] at this
  · obtain ⟨e, hcwd, hpos, halloc⟩ := hT.cwd
    have hcwd' : ((id s).proc p).cwd = some e := hcwd
    rw [start, if_neg hslash, hcwd] at hQ
    rw [hcwd']
    have hg : Got s ROOTDEV (s.inode e).inum e _ := .hit ⟨hpos, hT.cache.dev e hpos, rfl⟩
    refine hQ e _ ?_ (congrArg BitVec.toNat hg.caches.2.2) ⟨halloc, .inr ⟨e, hpos, rfl⟩⟩
    have := hT.visit.got hT.nonneg hg
    rwa [zero_add] at this

theorem runs_namex {Q : Option (Ip × List Byte) → Kernel → Prop} (hT : Tree sb s p) (hP : P → Roomy sb s)
    (hnone : target sb s.blk parent (components path) (start s p path) = none → ∀ t, Visit sb s 0 none t → Q none t)
    (hsome : ∀ i, target sb s.blk parent (components path) (start s p path) = some i → ∀ e last t,
      Visit sb s (Pi.single e 1) none t → (t.inode e).inum.toNat = i →
      (parent = true → (components path).getLast? = some last) → Q (some (e, last)) t) :
    Runs P (namex p path parent) Q s := by
  refine .seq (runs_namexStart hT hP fun e t ht hinum ha => ?_)
  exact runs_namexFrom hT ht hinum ha (Nat.lt_succ_self _) hP hnone hsome

/-- `skipelem` yields the components of a path, and `namex` is the fold of the lookup of names over them: `namei`
returns the inode that all of them lead to, `nameiparent` the directory that all but the last lead to, with the last as
name; both return 0 if there is none. The reference to what is returned is all that has changed, but for copies of
inodes that have been read. -/
theorem namex_folds_lookup (hT : Tree sb s p) (path : List Byte) :
    elements (path.length + 1) path = components path ∧
    Runs (Roomy sb s) (namei p path) (fun r t =>
      match walk sb s.blk (components path) (start s p path) with
      | none => r = none ∧ Visit sb s 0 none t
      | some i => ∃ e, r = some e ∧ (t.inode e).inum.toNat = i ∧ Visit sb s (Pi.single e 1) none t) s ∧
    Runs (Roomy sb s) (nameiparent p path) (fun r t =>
      match walk sb s.blk (components path).dropLast (start s p path), (components path).getLast? with
      | some i, some last =>
        if (dinodeOf sb s.blk i).type = T_DIR then
          ∃ e, r = some (e, last) ∧ (t.inode e).inum.toNat = i ∧ Visit sb s (Pi.single e 1) none t
        else r = none ∧ Visit sb s 0 none t
      | _, _ => r = none ∧ Visit sb s 0 none t) s := by
  refine ⟨elements_eq_components (Nat.lt_succ_self _), ?_, ?_⟩
  · refine .seq (runs_namex hT id (fun hnone t ht => runs_pure ?_) fun i hi e last t ht hinum _ => runs_pure ?_)
    · have hnone : walk sb s.blk (components path) (start s p path) = none := hnone
      rw [hnone]
      exact ⟨rfl, ht⟩
    · have hi : walk sb s.blk (components path) (start s p path) = some i := hi
      rw [hi]
      exact ⟨e, rfl, hinum, ht⟩
  · refine runs_namex hT id (fun hnone t ht => ?_) fun i hi e last t ht hinum hlast => ?_
    · simp only [target, if_true] at hnone
      split
      · rename_i i last hwalk hlast
        split
        · rename_i htype
          have hne : components path ≠ [] := by
            intro hnil
            rw [hnil] at hlast
            cases hlast
          rw [if_neg hne, hwalk] at hnone
          simp [htype] at hnone
        · exact ⟨rfl, ht⟩
      · exact ⟨rfl, ht⟩
    · simp only [target, if_true] at hi
      split at hi
      · cases hi
      · obtain ⟨hwalk, htype⟩ := Option.filter_eq_some_iff.mp hi
        rw [hwalk, hlast rfl]
        simp only [of_decide_eq_true htype, if_true]
        exact ⟨e, rfl, hinum, ht⟩

/-! ### The small disk -/

/-- The directory after a name for the file has been entered as well. -/
def tinyFile : Kernel :=
  match dirlink ⟨0, NINODE_pos⟩ [97] 2 tinyDot with
  | .ok (_, t) => t
  | .error _ => tinyDot

theorem tinyFile_stored : Stored tinySb ⟨0, by decide⟩ 1 1 (some ([97], 2)) tinyDot tinyFile := by
  have hrun : Runs True (dirlink ⟨0, by decide⟩ [97] 2)
      (fun _ t => Stored tinySb ⟨0, by decide⟩ 1 1 (some ([97], 2)) tinyDot t) tinyDot := by
    refine tinyDot_stored.dir.runs_dirlink_new ?_ (by decide) (fun _ => ?_) fun t ht => ?_
    · rw [tinyDot_table]
      rfl
    · rw [tinyDot_table]
      exact ⟨⟨by decide, by decide +kernel, by decide +kernel, by decide +kernel, by decide +kernel, by decide +kernel,
        by decide +kernel, by decide +kernel⟩, by decide⟩
    · rw [tinyDot_table] at ht
      exact ht
  obtain ⟨_, t, hok, ht⟩ := hrun.returns trivial
  rw [tinyFile, hok]
  exact ht

/-- The directory is the current one of process 0, and unlocked. -/
def tinyTree : Kernel :=
  { tinyFile.setInode ⟨0, NINODE_pos⟩ { tinyFile.inode ⟨0, NINODE_pos⟩ with lock := false } with
    proc := fun _ => ⟨.used, none, fun _ => none, some ⟨0, NINODE_pos⟩⟩ }

theorem tinyTree_used : ∀ e, 0 < (tinyTree.inode e).ref → e = ⟨0, by decide⟩ := by decide +kernel

theorem tinyTree_dir : ∀ i, Allocated tinySb (dinodeOf tinySb tinyTree.blk) i →
    (dinodeOf tinySb tinyTree.blk i).type = T_DIR → i = 1 := by
  have hall : ∀ i < 8, Allocated tinySb (dinodeOf tinySb tinyTree.blk) i →
      (dinodeOf tinySb tinyTree.blk i).type = T_DIR → i = 1 := by decide +kernel
  exact fun i hi => hall i hi.2.1 hi

theorem tinyTree_root : Anchored tinySb tinyTree 1 := ⟨by decide +kernel, .inl (by decide +kernel)⟩

theorem tinyTree_tree : Tree tinySb tinyTree ⟨0, by decide⟩ where
  wf := tinyFile_stored.dir.wf
  super := tinyFile_stored.dir.super
  cache :=
    { unique := fun e e' he he' _ _ => (tinyTree_used e he).trans (tinyTree_used e' he').symm
      dev := by decide +kernel
      copy := fun e he _ => by
        rw [tinyTree_used e he]
        exact tinyFile_stored.dir.copy }
  nonneg := by decide +kernel
  unlocked := by decide +kernel
  dirs := fun i hi htype => by
    rw [tinyTree_dir i hi htype]
    exact ⟨tinyFile_stored.dir.whole, tinyFile_stored.dir.distinct⟩
  named := fun i hi htype k x v hk => by
    have htable : tableOf tinySb tinyTree.blk 1 = [some (dot, 1), some ([97], 2)] := by
      refine tinyFile_stored.slots.trans ?_
      rw [tinyDot_table]
      rfl
    rw [tinyTree_dir i hi htype, htable] at hk
    obtain heq | hmem := List.mem_cons.mp (List.mem_of_getElem? hk)
    · cases heq
      exact tinyTree_root
    · cases List.mem_singleton.mp hmem
      exact ⟨by decide +kernel, .inl (by decide +kernel)⟩
  root := tinyTree_root
  cwd := ⟨⟨0, by decide⟩, rfl, by decide +kernel, by decide +kernel⟩

-- only the kernel is to compute with it
attribute [irreducible] tinyTree

/-- `/./a` and its parent. -/
theorem namex_folds_lookup_tiny :
    (∃ e t, namei ⟨0, by decide⟩ [47, 46, 47, 97] tinyTree = .ok (some e, t) ∧ (t.inode e).inum.toNat = 2) ∧
    ∃ e t, nameiparent ⟨0, by decide⟩ [47, 46, 47, 97] tinyTree = .ok (some (e, [97]), t) ∧
      (t.inode e).inum.toNat = 1 := by
  have hroomy : Roomy tinySb tinyTree :=
    ⟨⟨by decide, by decide +kernel, by decide +kernel⟩, ⟨1, by decide⟩, ⟨2, by decide⟩,
    by decide, by decide +kernel, by decide +kernel⟩
  obtain ⟨-, hnamei, hparent⟩ := namex_folds_lookup tinyTree_tree [47, 46, 47, 97]
  have hwalk : walk tinySb tinyTree.blk (components [47, 46, 47, 97]) (start tinyTree ⟨0, by decide⟩ [47, 46, 47, 97]) =
      some 2 := by decide +kernel
  have hwalk' : walk tinySb tinyTree.blk (components [47, 46, 47, 97]).dropLast
      (start tinyTree ⟨0, by decide⟩ [47, 46, 47, 97]) = some 1 := by decide +kernel
  have hlast : (components [47, 46, 47, 97]).getLast? = some [97] := by decide +kernel
  rw [hwalk] at hnamei
  rw [hwalk', hlast] at hparent
  obtain ⟨_, t, hok, e, rfl, hinum, -⟩ := hnamei.returns hroomy
  have htype : (dinodeOf tinySb tinyTree.blk 1).type = T_DIR := by decide +kernel
  simp only [htype, if_true] at hparent
  obtain ⟨_, t', hok', e', rfl, hinum', -⟩ := hparent.returns hroomy
  exact ⟨⟨e, t, hok, hinum⟩, e', t', hok', hinum'⟩

end Xv6.Fs
