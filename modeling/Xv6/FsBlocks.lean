import Xv6.FsKernel
import Xv6.FsVolume

/- What the functions of fs.c do to the disk.

   `Runs P m Q s`: if `m` returns from `s`, then `Q` holds of what it returns. It does not panic
   with "freeing free block", and if `P` holds, it returns. `P` stands for enough room: the
   rules ask for buffers, log space and free blocks only under `P`. With `P` false they say what
   holds whatever happens, with `P` true that nothing else happens.

   1. Buffers and the log: a block that is read and released leaves the state as it was, one
      that is written gives `put`.
   2. `balloc` and `bfree` against the free map.
   3. `bmap`, `iupdate` and `itrunc` against the slots of the inode. -/
namespace Xv6.Fs
open Function List Bits ByteBlock Log Command Allocation
open BitVec (ofNat)

variable {α β : Type} {P : Prop} {s t : Kernel} {sb : Superblock} {b : Nat} {x : Blk}

/-- The errors that can happen. -/
def Errs (P : Prop) (e : Stop) : Prop := ¬P ∧ e ≠ .panic .freeingFree

def Runs (P : Prop) (m : M α) (Q : α → Kernel → Prop) (s : Kernel) : Prop := wp m Q (Errs P) s

section

variable {m : M α} {f : α → M β} {Q Q' : α → Kernel → Prop} {R : β → Kernel → Prop}

theorem Runs.seq (h : Runs P m (fun a t => Runs P (f a) R t) s) : Runs P (m >>= f) R s := wp_bind.mpr h

theorem Runs.imp (h : Runs P m Q s) (hQ : ∀ a t, Q a t → Q' a t) : Runs P m Q' s := wp_imp h hQ

theorem Runs.bind (h : Runs P m Q s) (hf : ∀ a t, Q a t → Runs P (f a) R t) : Runs P (m >>= f) R s :=
  .seq (h.imp hf)

theorem Runs.ite {c : Prop} [Decidable c] {m₁ m₂ : M α} (h₁ : c → Runs P m₁ Q s) (h₂ : ¬c → Runs P m₂ Q s) :
    Runs P (if c then m₁ else m₂) Q s :=
  wp_ite.mpr ⟨h₁, h₂⟩

theorem runs_fail {e : Stop} (hP : ¬P) (he : e ≠ .panic .freeingFree) : Runs P (fail e) Q s := ⟨hP, he⟩

theorem Runs.returns (h : Runs P m Q s) (hp : P) : ∃ a t, m s = .ok (a, t) ∧ Q a t := by
  unfold Runs wp at h
  split at h
  · rename_i a t hm
    exact ⟨a, t, hm, h⟩
  · exact absurd hp h.1

theorem runs_pure {a : α} (h : Q a s) : Runs P (pure a) Q s := h

theorem runs_gets {g : Kernel → α} (h : Q (g s) s) : Runs P (gets g) Q s := h

end

theorem runs_each {γ : Type} {f : γ → M Unit} (Inv : List γ → Kernel → Prop) {l : List γ}
    (hstep : ∀ a rest t, a ∈ l → Inv (a :: rest) t → Runs P (f a) (fun _ => Inv rest) t) (h0 : Inv l s) :
    Runs P (each f l) (fun _ => Inv []) s :=
  wp_each Inv hstep h0

/-! ## Buffers -/

namespace Kernel

def hold (s : Kernel) (b : Nat) : Kernel := { s with locked := b :: s.locked }

def put (s : Kernel) (b : Nat) (x : Blk) : Kernel :=
  { s with blk := update s.blk b x, logged := if b ∈ s.logged then s.logged else s.logged ++ [b] }

end Kernel

structure Readable (s : Kernel) (b : Nat) : Prop where
  free : b ∉ s.locked
  bufs : s.logged.length + s.locked.length < NBUF
  disk : b < FSSIZE

structure Loggable (s : Kernel) : Prop where
  log : s.logged.length < LOGSIZE
  size : s.logged.length + 1 < s.logsize
  op : 1 ≤ s.outstanding

section

variable {Q : Unit → Kernel → Prop}

theorem runs_bread (h : P → Readable s b) (hQ : Q () (s.hold b)) : Runs P (bread b) Q s := by
  refine .seq (runs_gets (.ite (fun hb => ?_) fun _ => .ite (fun hfull => ?_) fun _ => .ite (fun hb => ?_) fun _ => ?_))
  · exact runs_fail (fun hP => (h hP).free hb) nofun
  · refine runs_fail (fun hP => ?_) nofun
    have hbufs := (h hP).bufs
    have hle : (s.locked.filter (· ∉ s.logged)).length ≤ s.locked.length := length_filter_le _ _
    have hfull := hfull.2
    simp only [Kernel.buffers, id] at hfull
    omega
  · refine runs_fail (fun hP => ?_) nofun
    have := (h hP).disk
    omega
  · exact hQ

theorem runs_brelse (hQ : Q () s) : Runs P (brelse b) Q (s.hold b) := by
  refine .seq (runs_gets (.ite (fun _ => ?_) fun hb => absurd (mem_cons_self ..) hb))
  have hs : { s.hold b with locked := (s.hold b).locked.erase b } = s := by
    simp [Kernel.hold]
  exact (congrArg (Q ()) hs).mpr hQ

theorem runs_logWrite (h : P → Loggable s)
    (hQ : Q () { s with logged := if b ∈ s.logged then s.logged else s.logged ++ [b] }) :
    Runs P (logWrite b) Q s := by
  refine .seq (runs_gets (.ite (fun hfull => ?_) fun _ => .ite (fun hop => ?_) fun _ => .ite (fun hb => ?_)
    fun hb => ?_))
  · refine runs_fail (fun hP => ?_) nofun
    have := (h hP).log
    have := (h hP).size
    simp only [id] at hfull
    omega
  · refine runs_fail (fun hP => ?_) nofun
    have := (h hP).op
    simp only [id] at hop
    omega
  · have hb : b ∈ s.logged := hb
    simp only [if_pos hb] at hQ
    exact hQ
  · have hb : b ∉ s.logged := hb
    simp only [if_neg hb] at hQ
    exact hQ

theorem runs_store {f : Unit → M β} {R : β → Kernel → Prop} (h : P → Loggable s)
    (hf : Runs P (brelse b >>= f) R ((s.put b x).hold b)) :
    Runs P (setData b x >>= fun _ => logWrite b >>= fun _ => brelse b >>= f) R (s.hold b) := by
  refine .seq ?_
  change Runs P _ R ((s.hold b).setBlk b x)
  exact .seq (runs_logWrite (fun hP => ⟨(h hP).log, (h hP).size, (h hP).op⟩) hf)

theorem runs_bzero (hr : P → Readable s b) (hl : P → Loggable s) (hQ : Q () (s.put b zeroBlk)) :
    Runs P (bzero b) Q s := by
  refine .seq (runs_bread hr (.seq ?_))
  change Runs P _ Q ((s.hold b).setBlk b zeroBlk)
  refine .seq (runs_logWrite (fun hP => ⟨(hl hP).log, (hl hP).size, (hl hP).op⟩) ?_)
  exact runs_brelse (s := s.put b zeroBlk) hQ

end

/-! ## Room -/

/-- Enough room to log the blocks in `W` and, besides, as many as make `K` blocks in all. -/
structure Room (sb : Superblock) (K : Nat) (W : Finset Nat) (s : Kernel) : Prop where
  disk : sb.size.toNat ≤ FSSIZE
  locked : s.locked.length ≤ 1
  apart : ∀ b ∈ s.locked, dataStart sb ≤ b ∧ b < sb.size.toNat ∧ bitOf sb s.blk b = true
  nodup : s.logged.Nodup
  mem : ∀ b ∈ s.logged, b ∈ W
  bitmap : ∀ b, b < sb.size.toNat → bblock sb b ∈ W
  card : W.card ≤ K
  log : K < LOGSIZE
  logsize : K + 1 < s.logsize
  bufs : K + 2 ≤ NBUF
  op : 1 ≤ s.outstanding

variable {K : Nat} {W : Finset Nat} {slots : Option (Nat × Nat) → Nat} {y : Option (Nat × Nat)}

namespace Room

theorem logged_le (h : Room sb K W s) : s.logged.length ≤ K := by
  have hsub : s.logged.toFinset ⊆ W := fun b hb => h.mem b (List.mem_toFinset.mp hb)
  have hcard := Finset.card_le_card hsub
  rw [toFinset_card_of_nodup h.nodup] at hcard
  exact hcard.trans h.card

theorem loggable (h : Room sb K W s) : Loggable s := by
  have := h.logged_le
  have := h.log
  have := h.logsize
  exact ⟨by omega, by omega, h.op⟩

theorem readable (h : Room sb K W s) (hb : b ∉ s.locked) (hsize : b < sb.size.toNat) : Readable s b := by
  have := h.logged_le
  have := h.locked
  have := h.bufs
  have := h.disk
  exact ⟨hb, by omega, by omega⟩

theorem insert (h : Room sb K W s) (b : Nat) (hcard : W.card + 1 ≤ K) : Room sb K (insert b W) s :=
  { h with
    mem := fun b' hb' => Finset.mem_insert_of_mem (h.mem b' hb')
    bitmap := fun b' hb' => Finset.mem_insert_of_mem (h.bitmap b' hb')
    card := (Finset.card_insert_le b W).trans hcard }

theorem put (h : Room sb K W s) (hb : b ∈ W)
    (hbit : ∀ b', b' < sb.size.toNat → bitOf sb s.blk b' = true → bitOf sb (update s.blk b x) b' = true) :
    Room sb K W (s.put b x) :=
  { h with
    apart := by
      intro b' hb'
      obtain ⟨hdata, hlt, hset⟩ := h.apart b' hb'
      exact ⟨hdata, hlt, hbit b' hlt hset⟩
    nodup := by
      simp only [Kernel.put]
      split
      · exact h.nodup
      · rename_i hnot
        exact List.nodup_append.mpr ⟨h.nodup, nodup_singleton b, by
          rintro b₁ hb₁ b₂ hb₂ rfl
          rw [mem_singleton] at hb₂
          exact hnot (hb₂ ▸ hb₁)⟩
    mem := by
      intro b' hb'
      simp only [Kernel.put] at hb'
      split at hb'
      · exact h.mem b' hb'
      · rcases List.mem_append.mp hb' with hb' | hb'
        · exact h.mem b' hb'
        · rw [List.mem_singleton.mp hb']
          exact hb }

end Room

/-! ## Free blocks -/

def freeBlocks (sb : Superblock) (blk : Nat → Blk) : Nat := freeUnits sb.size.toNat (bitOf sb blk)

/-- The state after `balloc` has taken block `b`. -/
def Kernel.alloc (s : Kernel) (sb : Superblock) (b : Nat) : Kernel :=
  (s.put (bblock sb b) (markBit (s.blk (bblock sb b)) (b % BPB))).put b zeroBlk

def Kernel.enter (s : Kernel) (a j : Nat) (w : Word) : Kernel := s.put a (putAddr (s.blk a) j w)

theorem bitOf_round (hl : Layout sb) (blk : Nat → Blk) {bi : Nat} (hb : b % BPB = 0) (hbi : bi < BPB)
    (hsize : b + bi < sb.size.toNat) :
    bblock sb (b + bi) = bblock sb b ∧ (b + bi) % BPB = bi ∧ bitOf sb blk (b + bi) = bitAt (blk (bblock sb b)) bi := by
  have hdiv : (b + bi) / BPB = b / BPB := by
    simp only [BPB] at *
    omega
  have hmod : (b + bi) % BPB = bi := by
    simp only [BPB] at *
    omega
  have hblock : bblock sb (b + bi) = bblock sb b := by
    rw [hl.bblock_eq hsize, hl.bblock_eq (by omega), hdiv]
  exact ⟨hblock, hmod, by rw [bitOf, hblock, hmod]⟩

theorem Room.put_other (h : Room sb K W s) (hl : Layout sb) (hb : b ∈ W)
    (hmap : b < sb.bmapstart.toNat ∨ dataStart sb ≤ b) : Room sb K W (s.put b x) := by
  refine h.put hb fun b' hlt hbit => ?_
  rw [bitOf_update_of_ne, hbit]
  have := hl.bblock_bounds hlt
  omega

theorem Room.mark (h : Room sb K W s) (hl : Layout sb) (hb : b < sb.size.toNat) :
    Room sb K W (s.put (bblock sb b) (markBit (s.blk (bblock sb b)) (b % BPB))) := by
  refine h.put (h.bitmap b hb) fun b' hlt hbit => ?_
  rw [bitOf_markBit hl hb hlt, update_apply]
  split
  · rfl
  · exact hbit

theorem Room.alloc (h : Room sb K W s) (hl : Layout sb) (hb : b < sb.size.toNat) (hdata : dataStart sb ≤ b)
    (hcard : W.card + 1 ≤ K) : Room sb K (Insert.insert b W) (s.alloc sb b) :=
  ((h.mark hl hb).insert b hcard).put_other hl (Finset.mem_insert_self b W) (.inr hdata)

theorem runs_ballocFrom {Q : Word → Kernel → Prop} {fuel : Nat} (hv : Vol sb s.blk slots) (hsb : s.sb = sb)
    (hP : P → Room sb K W s ∧ 0 < freeBlocks sb s.blk) (hround : b % BPB = 0)
    (hfuel : sb.size.toNat < b + fuel * BPB)
    (hfull : ∀ b', b' < b → b' < sb.size.toNat → bitOf sb s.blk b' = true)
    (hQ : ∀ b, b < sb.size.toNat → bitOf sb s.blk b = false → Q (ofNat 32 b) (s.alloc sb b)) :
    Runs P (ballocFrom fuel b) Q s := by
  -- if there is room for one more block, the map is not full
  have hsome : ∀ b, (∀ b', b' < b → b' < sb.size.toNat → bitOf sb s.blk b' = true) → sb.size.toNat ≤ b → ¬P := by
    intro b hfull hle hp
    obtain ⟨b', hlt, hbit⟩ := exists_free (hP hp).2
    exact Bool.false_ne_true (hbit.symm.trans (hfull b' (by omega) hlt))
  induction fuel generalizing b with
  | zero => exact runs_fail (hsome b hfull (by omega)) (by rintro ⟨⟩)
  | succ fuel ih =>
    refine .seq (runs_gets ?_)
    rw [hsb]
    refine .ite (fun hb => ?_) fun hb => runs_fail (hsome b hfull (by omega)) (by rintro ⟨⟩)
    have hblock := hv.layout.bblock_bounds hb
    have hread : P → Readable s (bblock sb b) := by
      intro hp
      refine (hP hp).1.readable (fun hmem => ?_) (by have := Layout.dataStart_le sb; omega)
      have := ((hP hp).1.apart _ hmem).1
      omega
    refine .seq (runs_bread hread (.seq (runs_gets ?_)))
    rw [show (s.hold (bblock sb b)).blk = s.blk from rfl]
    split
    · rename_i bi hbi
      have hmem := List.mem_range.mp (mem_of_find?_eq_some hbi)
      have hclear : bitAt (s.blk (bblock sb b)) bi = false := by simpa using List.find?_some hbi
      have hlt : b + bi < sb.size.toNat := by omega
      obtain ⟨heq, hmod, hbit⟩ := bitOf_round hv.layout s.blk hround (by omega) hlt
      rw [hclear] at hbit
      refine runs_store (fun hp => (hP hp).1.loggable) (.seq (runs_brelse (.seq ?_)))
      have hmark : s.put (bblock sb b) (markBit (s.blk (bblock sb b)) bi) =
          s.put (bblock sb (b + bi)) (markBit (s.blk (bblock sb (b + bi))) ((b + bi) % BPB)) := by
        rw [heq, hmod]
      change Runs P _ _ (s.put (bblock sb b) (markBit (s.blk (bblock sb b)) bi))
      rw [hmark]
      have hroom : P → Room sb K W (s.put (bblock sb (b + bi)) (markBit (s.blk (bblock sb (b + bi)))
          ((b + bi) % BPB))) :=
        fun hp => (hP hp).1.mark hv.layout hlt
      refine runs_bzero (fun hp => (hroom hp).readable (fun hmem => ?_) hlt) (fun hp => (hroom hp).loggable) ?_
      · exact Bool.false_ne_true (hbit.symm.trans ((hP hp).1.apart _ hmem).2.2)
      · exact hQ (b + bi) hlt hbit
    · rename_i hnone
      refine .seq (runs_brelse (ih (by simp only [BPB] at *; omega) (by simp only [BPB] at *; omega) ?_))
      intro b' hlt hsize
      rcases Nat.lt_or_ge b' b with hb' | hb'
      · exact hfull b' hb' hsize
      · obtain ⟨bi, rfl⟩ := Nat.exists_eq_add_of_le hb'
        rw [(bitOf_round hv.layout s.blk hround (by omega) hsize).2.2]
        have := List.find?_eq_none.mp hnone bi (List.mem_range.mpr (by omega))
        simpa using this

theorem runs_balloc {Q : Word → Kernel → Prop} (hv : Vol sb s.blk slots) (hsb : s.sb = sb)
    (hP : P → Room sb K W s ∧ 0 < freeBlocks sb s.blk)
    (hQ : ∀ b, b < sb.size.toNat → bitOf sb s.blk b = false → Q (ofNat 32 b) (s.alloc sb b)) :
    Runs P balloc Q s := by
  refine .seq (runs_gets ?_)
  rw [hsb]
  refine runs_ballocFrom hv hsb hP (Nat.zero_mod _) ?_ nofun hQ
  simp only [BPB]
  omega

theorem freeBlocks_update (hl : Layout sb) {blk : Nat → Blk} (hb : b < sb.bmapstart.toNat ∨ dataStart sb ≤ b) :
    freeBlocks sb (update blk b x) = freeBlocks sb blk := by
  refine freeUnits_congr fun k hk => bitOf_update_of_ne ?_
  have := hl.bblock_bounds hk
  omega

theorem freeBlocks_alloc (hl : Layout sb) {blk : Nat → Blk} (hb : b < sb.size.toNat) (hdata : dataStart sb ≤ b)
    (hbit : bitOf sb blk b = false) :
    freeBlocks sb (allocBlk sb blk b) + 1 = freeBlocks sb blk := by
  rw [allocBlk, freeBlocks_update hl (.inr hdata), freeBlocks, freeBlocks, ← freeUnits_alloc hb hbit]
  rw [freeUnits_congr fun k hk => bitOf_markBit hl hb hk]

theorem runs_readsb {Q : Superblock → Kernel → Prop} (hr : P → Readable s 1) (hQ : Q (superblockAt (s.blk 1)) s) :
    Runs P readsb Q s :=
  .seq (runs_bread hr (.seq (runs_gets (.seq (runs_brelse hQ)))))

/-- The state after `bfree` has given block `b` back. -/
def Kernel.free (s : Kernel) (sb : Superblock) (b : Nat) : Kernel :=
  s.put (bblock sb b) (clearBit (s.blk (bblock sb b)) (b % BPB))

theorem runs_bfree {Q : Unit → Kernel → Prop} {w : Word} (hv : Vol sb s.blk slots) (hsb : s.sb = sb)
    (hw : slots y = w.toNat) (hne : w ≠ 0) (hP : ¬P) (hQ : Q () (s.free sb w.toNat)) : Runs P (bfree w) Q s := by
  have hy : slots y ≠ 0 := by
    rw [hw]
    exact toNat_ne_zero.mpr hne
  refine .seq (runs_readsb (fun hp => absurd hp hP) (.seq ?_))
  have hsame : { s with sb := superblockAt (s.blk 1) } = s := by rw [hv.super, ← hsb]
  change Runs P _ Q { s with sb := superblockAt (s.blk 1) }
  rw [hsame, hv.super]
  refine .seq (runs_bread (fun hp => absurd hp hP) (.seq (runs_gets (.ite (fun hbit => ?_) fun _ => ?_))))
  · have hset := hv.owned.bit_slot hy
    rw [hw] at hset
    exact absurd (hset.symm.trans hbit) nofun
  · refine .seq ?_
    refine .seq (runs_logWrite (fun hp => absurd hp hP) ?_)
    exact runs_brelse (s := s.free sb w.toNat) hQ

/-! ## The blocks of an inode -/

/-- The state with another disk, another log and another copy of the inode at `e`. -/
def Kernel.work (s : Kernel) (e : Ip) (blk : Nat → Blk) (logged : List Nat) (d : Dinode) : Kernel :=
  { s with blk, logged, inode := update s.inode e { s.inode e with d } }

variable {e : Ip} {blk blk' : Nat → Blk} {l l' : List Nat} {d d' : Dinode} {T T' : Nat → Dinode} {i k n bn : Nat}

theorem work_self (s : Kernel) (e : Ip) : s.work e s.blk s.logged (s.inode e).d = s := by
  simp [Kernel.work]

@[simp] theorem work_work : (s.work e blk l d).work e blk' l' d' = s.work e blk' l' d' := by
  simp [Kernel.work]

@[simp] theorem work_inode : ((s.work e blk l d).inode e).d = d := by
  simp [Kernel.work]

theorem runs_editInode {Q : Unit → Kernel → Prop} {f : Dinode → Dinode}
    (hQ : Q () (s.work e s.blk s.logged (f (s.inode e).d))) : Runs P (editInode e f) Q s := hQ

theorem runs_getInode {Q : Inode → Kernel → Prop} (hQ : Q (s.inode e) s) : Runs P (getInode e) Q s := hQ

theorem Room.work (h : Room sb K W t) (hlocked : t.locked = s.locked) (hlogsize : t.logsize = s.logsize)
    (hop : t.outstanding = s.outstanding) : Room sb K W (s.work e t.blk t.logged d) where
  disk := h.disk
  locked := hlocked ▸ h.locked
  apart := fun b hb => h.apart b (hlocked ▸ hb)
  nodup := h.nodup
  mem := h.mem
  bitmap := h.bitmap
  card := h.card
  log := h.log
  logsize := hlogsize ▸ h.logsize
  bufs := h.bufs
  op := hop ▸ h.op

theorem Room.hold (h : Room sb K W s) (hidle : s.locked = []) (hv : Vol sb s.blk slots) (hy : slots y ≠ 0) :
    Room sb K W (s.hold (slots y)) :=
  { h with
    locked := by
      rw [Kernel.hold, hidle]
      exact le_refl 1
    apart := by
      intro b hb
      rw [Kernel.hold, hidle, mem_singleton] at hb
      subst hb
      exact ⟨(hv.owned.range hy).1, (hv.owned.range hy).2, hv.owned.bit_slot hy⟩ }

theorem runs_bmap_mapped {Q : Word → Kernel → Prop} (he : (s.inode e).d = d) (hbn : bn < MAXFILE)
    (hmapped : index s.blk d bn ≠ 0) (hr : P → NDIRECT ≤ bn → Readable s (d.addr NDIRECT).toNat)
    (hQ : ∀ a : Word, a.toNat = index s.blk d bn → Q a s) : Runs P (bmap e bn) Q s := by
  refine .ite (fun hdirect => .seq (runs_getInode ?_)) fun hdirect => .ite (fun hj => .seq (.seq (runs_getInode ?_))) ?_
  · rw [he]
    rw [index_direct hdirect] at hmapped hQ
    exact .ite (fun hzero => absurd hzero (toNat_ne_zero.mp hmapped)) fun _ => hQ _ rfl
  · obtain ⟨j, rfl⟩ := Nat.exists_eq_add_of_le (Nat.le_of_not_lt hdirect)
    rw [Nat.add_sub_cancel_left] at hj ⊢
    have hind : d.addr NDIRECT ≠ 0 := by
      intro hzero
      refine hmapped ?_
      rw [index, dataSlot_entry, slot, if_neg (by omega), if_neg (by simp [hzero])]
    rw [index, dataSlot_entry, slot_entry hj hind] at hmapped hQ
    rw [he]
    refine .ite (fun hzero => absurd hzero hind) fun _ => ?_
    refine .seq (runs_bread (fun hp => hr hp (by omega)) (.seq (runs_gets (.ite (fun hzero => ?_) fun _ => ?_))))
    · exact absurd hzero (toNat_ne_zero.mp hmapped)
    · exact .seq (runs_brelse (hQ _ rfl))
  · intro hj
    simp only [MAXFILE] at hbn
    omega

/-- A block is set aside for the indirect block, if it will be needed for `n` blocks. -/
def debt (d : Dinode) (n : Nat) : Nat := if d.addr NDIRECT = 0 ∧ NDIRECT < n then 1 else 0

/-! ### What is logged -/

theorem mem_logged_put {b' : Nat} (h : b' ∈ (s.put b x).logged) : b' ∈ s.logged ∨ b' = b := by
  simp only [Kernel.put] at h
  split at h
  · exact .inl h
  · rw [mem_append, mem_singleton] at h
    exact h

theorem mem_logged_alloc {b' : Nat} (h : b' ∈ (s.alloc sb b).logged) :
    b' ∈ s.logged ∨ b' = bblock sb b ∨ b' = b := by
  rcases mem_logged_put h with h | rfl
  · exact (mem_logged_put h).imp_right .inl
  · exact .inr (.inr rfl)

/-- The blocks `B` are logged for the indirect block of an inode, which was `d` and is `d'`: itself, and the
block of the free map if it is new. -/
structure Indirect (d d' : Dinode) (B : Finset Nat) : Prop where
  kept : d.addr NDIRECT ≠ 0 → d'.addr NDIRECT = d.addr NDIRECT ∧ B ⊆ {(d.addr NDIRECT).toNat}
  none : d.addr NDIRECT = 0 → d'.addr NDIRECT = 0 → B = ∅
  new : d.addr NDIRECT = 0 → d'.addr NDIRECT ≠ 0 → B.card ≤ 2 ∧ (d'.addr NDIRECT).toNat ∈ B

/-- The log has grown from `l` to `l'` by at most `c` blocks, not counting those for the indirect block. -/
def Charge (d d' : Dinode) (c : Nat) (l l' : List Nat) : Prop :=
  ∃ A B : Finset Nat, A.card ≤ c ∧ Indirect d d' B ∧ ∀ b ∈ l', b ∈ l ∨ b ∈ A ∨ b ∈ B

theorem Indirect.same (h : d'.addr NDIRECT = d.addr NDIRECT) : Indirect d d' ∅ where
  kept _ := ⟨h, Finset.empty_subset _⟩
  none _ _ := rfl
  new hzero hne := absurd (h.trans hzero) hne

theorem Indirect.card_le {B : Finset Nat} (h : Indirect d d' B) : B.card ≤ 2 := by
  by_cases hzero : d.addr NDIRECT = 0
  · by_cases hzero' : d'.addr NDIRECT = 0
    · rw [h.none hzero hzero']
      exact Nat.zero_le 2
    · exact (h.new hzero hzero').1
  · have := Finset.card_le_card (h.kept hzero).2
    rw [Finset.card_singleton] at this
    omega

theorem Indirect.trans {d'' : Dinode} {B B' : Finset Nat} (h : Indirect d d' B) (h' : Indirect d' d'' B') :
    Indirect d d'' (B ∪ B') := by
  by_cases hzero : d.addr NDIRECT = 0
  · by_cases hzero' : d'.addr NDIRECT = 0
    · rw [h.none hzero hzero', Finset.empty_union]
      exact ⟨fun hne => absurd hzero hne, fun _ => h'.none hzero', fun _ => h'.new hzero'⟩
    · obtain ⟨hcard, hmem⟩ := h.new hzero hzero'
      obtain ⟨heq, hsub⟩ := h'.kept hzero'
      have hunion : B ∪ B' = B := by
        refine Finset.union_eq_left.mpr fun b hb => ?_
        rw [Finset.mem_singleton.mp (hsub hb)]
        exact hmem
      rw [hunion]
      exact ⟨fun hne => absurd hzero hne, fun _ hnone => absurd (heq.symm.trans hnone) hzero',
        fun _ _ => ⟨hcard, heq ▸ hmem⟩⟩
  · obtain ⟨heq, hsub⟩ := h.kept hzero
    obtain ⟨heq', hsub'⟩ := h'.kept (by rw [heq]; exact hzero)
    rw [heq] at hsub'
    exact ⟨fun _ => ⟨heq'.trans heq, Finset.union_subset hsub hsub'⟩, fun hnone => absurd hnone hzero,
      fun hnone => absurd hnone hzero⟩

section Charge

variable {c c' : Nat} {l l' l'' : List Nat}

theorem Charge.self (h : ∀ b ∈ l', b ∈ l) : Charge d d c l l' :=
  ⟨∅, ∅, Nat.zero_le c, .same rfl, fun b hb => .inl (h b hb)⟩

theorem Charge.trans {d'' : Dinode} (h : Charge d d' c l l') (h' : Charge d' d'' c' l' l'') :
    Charge d d'' (c + c') l l'' := by
  obtain ⟨A, B, hA, hB, hl⟩ := h
  obtain ⟨A', B', hA', hB', hl'⟩ := h'
  refine ⟨A ∪ A', B ∪ B', (Finset.card_union_le A A').trans (Nat.add_le_add hA hA'), hB.trans hB', fun b hb => ?_⟩
  rw [Finset.mem_union, Finset.mem_union]
  rcases hl' b hb with h | h | h
  · rcases hl b h with h | h | h
    · exact .inl h
    · exact .inr (.inl (.inl h))
    · exact .inr (.inr (.inl h))
  · exact .inr (.inl (.inr h))
  · exact .inr (.inr (.inr h))

theorem Charge.mono (h : Charge d d' c l l') (hc : c ≤ c') (hl : ∀ b ∈ l'', b ∈ l') : Charge d d' c' l l'' := by
  obtain ⟨A, B, hA, hB, hmem⟩ := h
  exact ⟨A, B, hA.trans hc, hB, fun b hb => hmem b (hl b hb)⟩

theorem Charge.blocks (h : Charge d d' c l l') : ∃ W : Finset Nat, W.card ≤ c + 2 ∧ ∀ b ∈ l', b ∈ l ∨ b ∈ W := by
  obtain ⟨A, B, hA, hB, hmem⟩ := h
  refine ⟨A ∪ B, (Finset.card_union_le A B).trans (Nat.add_le_add hA hB.card_le), fun b hb => ?_⟩
  rw [Finset.mem_union]
  exact hmem b hb

end Charge

structure Budget (sb : Superblock) (K : Nat) (W : Finset Nat) (n : Nat) (s : Kernel) (d : Dinode) : Prop
    extends Room sb K W s where
  idle : s.locked = []
  ind : d.addr NDIRECT ≠ 0 → NDIRECT < n → (d.addr NDIRECT).toNat ∈ W

/-- The new block has been logged, and no more than was set aside has been spent. -/
structure Paid (sb : Superblock) (K : Nat) (W : Finset Nat) (n : Nat) (blk : Nat → Blk) (d : Dinode) (a : Nat)
    (W' : Finset Nat) (t : Kernel) (d' : Dinode) : Prop extends Budget sb K W' n t d' where
  sub : W ⊆ W'
  new : a ∈ W'
  spent : W'.card + debt d' n ≤ W.card + 1 + debt d n
  free : freeBlocks sb blk + debt d' n ≤ freeBlocks sb t.blk + 1 + debt d n

theorem debt_of_ne (hd : d.addr NDIRECT ≠ 0) : debt d n = 0 := if_neg fun h => hd h.1

/-- `bmap` for an entry that is empty. -/
theorem runs_bmapEntry_new {Q : Word → Kernel → Prop} {j : Nat} (hv : Vol sb s.blk (slotsOf sb s.blk T 0))
    (hsb : s.sb = sb) (hi : Allocated sb T i) (he : (s.inode e).d = T i) (hj : NDIRECT + j < n) (hn : n ≤ MAXFILE)
    (hind : (T i).addr NDIRECT ≠ 0) (hentry : addrAt (s.blk ((T i).addr NDIRECT).toNat) j = 0)
    (hP : P → Budget sb K W n s (T i) ∧ W.card + 1 ≤ K ∧ 0 < freeBlocks sb s.blk)
    (hQ : ∀ a blk l, Maps sb i (NDIRECT + j) s.blk T a blk T → Charge (T i) (T i) 2 s.logged (a.toNat :: l) →
      (P → ∃ W', Paid sb K W n s.blk (T i) a.toNat W' (s.work e blk l (T i)) (T i)) →
      Q a (s.work e blk l (T i))) :
    Runs P (bmapEntry ((T i).addr NDIRECT) j) Q s := by
  have hj' : j < NINDIRECT := by
    simp only [MAXFILE] at hn
    omega
  have hname : slotsOf sb s.blk T 0 (some (i, NDIRECT)) = ((T i).addr NDIRECT).toNat := by
    rw [slotsOf, if_pos hi, slot_direct (le_refl _)]
  have hne : slotsOf sb s.blk T 0 (some (i, NDIRECT)) ≠ 0 := by
    rw [hname]
    exact toNat_ne_zero.mpr hind
  have hrange := hv.owned.range hne
  rw [hname] at hrange
  have hheld : P → Room sb K W (s.hold ((T i).addr NDIRECT).toNat) := by
    intro hp
    have := (hP hp).1.toRoom.hold (hP hp).1.idle hv hne
    rwa [hname] at this
  have hread : P → Readable s ((T i).addr NDIRECT).toNat := fun hp =>
    (hP hp).1.readable (by rw [(hP hp).1.idle]; exact not_mem_nil) hrange.2
  refine .seq (runs_bread hread (.seq (runs_gets (.ite (fun _ => .seq ?_) fun hne' => absurd hentry hne'))))
  refine runs_balloc (s := s.hold ((T i).addr NDIRECT).toNat) hv hsb (fun hp => ⟨hheld hp, (hP hp).2.2⟩) ?_
  intro b hb hbit
  have hbit : bitOf sb s.blk b = false := hbit
  have hw : (ofNat 32 b).toNat = b := by
    rw [BitVec.toNat_ofNat]
    exact Nat.mod_eq_of_lt (hb.trans sb.size.isLt)
  have hdata := hv.owned.le_of_free hb hbit
  have hroom : P → Room sb K (insert b W) (s.alloc sb b) := fun hp =>
    (hP hp).1.toRoom.alloc hv.layout hb hdata (hP hp).2.1
  have hindW : P → ((T i).addr NDIRECT).toNat ∈ insert b W := fun hp =>
    Finset.mem_insert_of_mem ((hP hp).1.ind hind (by omega))
  refine .seq (runs_gets ?_)
  refine runs_store (s := s.alloc sb b) (fun hp => (hroom hp).loggable) (.seq (runs_brelse ?_))
  have hmaps := hv.maps_entry (w := ofNat 32 b) hi (by rw [hw]; exact hb) (by rw [hw]; exact hbit) hj' hind hentry
  rw [hw] at hmaps
  have hstate : (s.alloc sb b).enter ((T i).addr NDIRECT).toNat j (ofNat 32 b) =
      s.work e (enter (allocBlk sb s.blk b) ((T i).addr NDIRECT).toNat j (ofNat 32 b))
        ((s.alloc sb b).enter ((T i).addr NDIRECT).toNat j (ofNat 32 b)).logged (T i) := by
    simp only [Kernel.work, ← he, update_eq_self]
    rfl
  have hpaid : P → ∃ W', Paid sb K W n s.blk (T i) b W'
      ((s.alloc sb b).enter ((T i).addr NDIRECT).toNat j (ofNat 32 b)) (T i) := by
    intro hp
    have hput := (hroom hp).put_other (x := putAddr ((s.alloc sb b).blk ((T i).addr NDIRECT).toNat) j (ofNat 32 b))
      hv.layout (hindW hp) (.inr hrange.1)
    refine ⟨insert b W, ⟨⟨hput, (hP hp).1.idle, fun _ _ => hindW hp⟩, Finset.subset_insert b W,
      Finset.mem_insert_self b W, ?_, ?_⟩⟩
    · have := Finset.card_insert_le b W
      omega
    · change freeBlocks sb s.blk + _ ≤ freeBlocks sb (update (allocBlk sb s.blk b) _ _) + 1 + _
      rw [freeBlocks_update hv.layout (.inr hrange.1), freeBlocks_alloc hv.layout hb hdata hbit]
  change Q (ofNat 32 b) ((s.alloc sb b).enter ((T i).addr NDIRECT).toNat j (ofNat 32 b))
  rw [hstate] at hpaid ⊢
  refine hQ _ _ _ hmaps ?_ (by rw [hw]; exact hpaid)
  rw [hw]
  refine ⟨{bblock sb b, b}, {((T i).addr NDIRECT).toNat}, Finset.card_le_two, ⟨fun _ => ⟨rfl, Finset.Subset.refl _⟩,
    fun hzero => absurd hzero hind, fun hzero => absurd hzero hind⟩, fun b' hb' => ?_⟩
  rw [Finset.mem_insert, Finset.mem_singleton, Finset.mem_singleton]
  rcases List.mem_cons.mp hb' with rfl | hb'
  · exact .inr (.inl (.inr rfl))
  · rcases mem_logged_put hb' with hb' | rfl
    · exact (mem_logged_alloc hb').imp_right .inl
    · exact .inr (.inr rfl)

/-- A new block for a direct address, or a new indirect block. -/
theorem runs_bmapAddr_new {Q : Word → Kernel → Prop} (hv : Vol sb s.blk (slotsOf sb s.blk T 0)) (hsb : s.sb = sb)
    (he : (s.inode e).d = T i) (haddr : (T i).addr k = 0)
    (hP : P → Room sb K W s ∧ 0 < freeBlocks sb s.blk)
    (hQ : ∀ w : Word, w.toNat < sb.size.toNat → bitOf sb s.blk w.toNat = false →
      Q w (s.work e (allocBlk sb s.blk w.toNat) (s.alloc sb w.toNat).logged ((T i).setAddr k w))) :
    Runs P (bmapAddr e k) Q s := by
  refine .seq (runs_getInode ?_)
  rw [he]
  refine .ite (fun _ => .seq (runs_balloc hv hsb hP fun b hb hbit => .seq (runs_editInode ?_)))
    fun hne => absurd haddr hne
  have hw : (ofNat 32 b).toNat = b := by
    rw [BitVec.toNat_ofNat]
    exact Nat.mod_eq_of_lt (hb.trans sb.size.isLt)
  have := hQ (ofNat 32 b) (by rw [hw]; exact hb) (by rw [hw]; exact hbit)
  rw [hw, ← he] at this
  exact this

theorem charge_alloc (hind : d'.addr NDIRECT = d.addr NDIRECT) :
    Charge d d' 2 s.logged (b :: (s.alloc sb b).logged) := by
  refine ⟨{bblock sb b, b}, ∅, Finset.card_le_two, .same hind, fun b' hb' => ?_⟩
  rw [Finset.mem_insert, Finset.mem_singleton]
  rcases List.mem_cons.mp hb' with rfl | hb'
  · exact .inr (.inl (.inr rfl))
  · exact (mem_logged_alloc hb').imp_right .inl

theorem charge_indirect {w : Word} (haddr : d.addr NDIRECT = 0) (hw : w ≠ 0) (hind : d'.addr NDIRECT = w) :
    Charge d d' 0 s.logged (s.alloc sb w.toNat).logged := by
  refine ⟨∅, {bblock sb w.toNat, w.toNat}, Nat.zero_le 0, ⟨fun hne => absurd haddr hne, fun _ hzero => ?_,
    fun _ _ => ?_⟩, fun b hb => ?_⟩
  · exact absurd (hind.symm.trans hzero) hw
  · rw [hind, Finset.mem_insert, Finset.mem_singleton]
    exact ⟨Finset.card_le_two, .inr rfl⟩
  · rw [Finset.mem_insert, Finset.mem_singleton]
    exact (mem_logged_alloc hb).imp_right .inr

/-- `bmap` for an index that has no block yet. -/
theorem runs_bmap_new {Q : Word → Kernel → Prop} (hv : Vol sb s.blk (slotsOf sb s.blk T 0)) (hsb : s.sb = sb)
    (hi : Allocated sb T i) (he : (s.inode e).d = T i) (hbn : bn < n) (hn : n ≤ MAXFILE)
    (hzero : index s.blk (T i) bn = 0)
    (hP : P → Budget sb K W n s (T i) ∧ W.card + 1 + debt (T i) n ≤ K ∧ 1 + debt (T i) n ≤ freeBlocks sb s.blk)
    (hQ : ∀ a blk l T', Maps sb i bn s.blk T a blk T' → Charge (T i) (T' i) 2 s.logged (a.toNat :: l) →
      (P → ∃ W', Paid sb K W n s.blk (T i) a.toNat W' (s.work e blk l (T' i)) (T' i)) →
      Q a (s.work e blk l (T' i))) :
    Runs P (bmap e bn) Q s := by
  refine .ite (fun hdirect => ?_) fun hdirect => .ite (fun hj => .seq ?_) fun hj => ?_
  · rw [index_direct hdirect] at hzero
    have haddr : (T i).addr bn = 0 := by
      by_contra hne
      exact toNat_ne_zero.mpr hne hzero
    refine runs_bmapAddr_new hv hsb he haddr (fun hp => ⟨(hP hp).1.toRoom, by have := (hP hp).2.2; omega⟩) ?_
    intro w hb hbit
    have hdata := hv.owned.le_of_free hb hbit
    have hmaps := hv.maps_direct hi hb hbit hdirect haddr
    have hind : ((T i).setAddr bn w).addr NDIRECT = (T i).addr NDIRECT :=
      Dinode.addr_setAddr_of_ne _ _ (by omega)
    have hQ := hQ w _ (s.alloc sb w.toNat).logged _ hmaps
    rw [update_self] at hQ
    refine hQ (charge_alloc hind) fun hp => ?_
    obtain ⟨hbudget, hcard, hfree⟩ := hP hp
    have hroom := hbudget.toRoom.alloc hv.layout hb hdata (by omega)
    refine ⟨insert w.toNat W, ⟨⟨hroom.work rfl rfl rfl, hbudget.idle, fun hne hlt => ?_⟩, Finset.subset_insert _ W,
      Finset.mem_insert_self _ W, ?_, ?_⟩⟩
    · rw [hind] at hne ⊢
      exact Finset.mem_insert_of_mem (hbudget.ind hne hlt)
    · have := Finset.card_insert_le w.toNat W
      rw [debt, hind, ← debt]
      omega
    · rw [debt, hind, ← debt]
      change freeBlocks sb s.blk + _ ≤ freeBlocks sb (allocBlk sb s.blk w.toNat) + 1 + _
      rw [freeBlocks_alloc hv.layout hb hdata hbit]
  · obtain ⟨j, rfl⟩ := Nat.exists_eq_add_of_le (Nat.le_of_not_lt hdirect)
    rw [Nat.add_sub_cancel_left] at hj
    simp only [Nat.add_sub_cancel_left]
    by_cases haddr : (T i).addr NDIRECT = 0
    · have hdebt : debt (T i) n = 1 := if_pos ⟨haddr, by omega⟩
      rw [hdebt] at hP
      refine runs_bmapAddr_new hv hsb he haddr (fun hp => ⟨(hP hp).1.toRoom, by have := (hP hp).2.2; omega⟩) ?_
      intro w hb hbit
      have hdata := hv.owned.le_of_free hb hbit
      have hpos := hv.owned.pos
      have hw : w ≠ 0 := toNat_ne_zero.mp (by omega)
      have hgrows := hv.grows_addr hi hb hbit (le_refl _) haddr
      have hT : update T i ((T i).setAddr NDIRECT w) i = (T i).setAddr NDIRECT w := update_self _ _ _
      have hind : (update T i ((T i).setAddr NDIRECT w) i).addr NDIRECT = w := by
        rw [hT, Dinode.addr_setAddr_self _ _ (Nat.lt_succ_self _)]
      have hfree := freeBlocks_alloc hv.layout hb hdata hbit
      have hentry := runs_bmapEntry_new (P := P) (Q := Q) (K := K) (W := insert w.toNat W) (n := n) (e := e) (j := j)
        (s := s.work e (allocBlk sb s.blk w.toNat) (s.alloc sb w.toNat).logged ((T i).setAddr NDIRECT w)) hgrows.vol hsb
        ((hgrows.allocated i).mpr hi) (work_inode.trans hT.symm) hbn hn (by rw [hind]; exact hw)
      rw [hind] at hentry
      refine hentry ?_ (fun hp => ?_) fun a blk l hmaps hcharge hpaid => ?_
      · change addrAt (allocBlk sb s.blk w.toNat w.toNat) j = 0
        rw [allocBlk, update_self, addrAt_zeroBlk]
      · obtain ⟨hbudget, hcard, hfree'⟩ := hP hp
        have hroom := hbudget.toRoom.alloc hv.layout hb hdata (by omega)
        have := Finset.card_insert_le w.toNat W
        refine ⟨⟨hroom.work rfl rfl rfl, hbudget.idle, fun _ _ => ?_⟩, by omega, ?_⟩
        · rw [hind]
          exact Finset.mem_insert_self _ W
        · change 0 < freeBlocks sb (allocBlk sb s.blk w.toNat)
          omega
      · rw [work_work] at hpaid ⊢
        refine hQ a blk l _ ⟨hgrows.trans hmaps.toGrows, hmaps.here, hmaps.ne, fun bn' hne => ?_⟩ ?_ fun hp => ?_
        · rw [hmaps.rest bn' hne, hT]
          exact congrFun (hv.index_indirect hi hb hbit haddr) bn'
        · rw [hT] at hcharge ⊢
          exact (charge_indirect haddr hw (by rw [← hT, hind])).trans hcharge
        · obtain ⟨W', hW'⟩ := hpaid hp
          have hspent := hW'.spent
          have hleft : freeBlocks sb (allocBlk sb s.blk w.toNat) + _ ≤ _ := hW'.free
          rw [debt_of_ne (by rw [hind]; exact hw)] at hspent hleft
          have := Finset.card_insert_le w.toNat W
          refine ⟨W', { hW' with
            sub := (Finset.subset_insert _ W).trans hW'.sub
            spent := ?_
            free := ?_ }⟩
          · rw [debt_of_ne (by rw [hind]; exact hw), hdebt]
            omega
          · rw [debt_of_ne (by rw [hind]; exact hw), hdebt]
            omega
    · have hdebt : debt (T i) n = 0 := debt_of_ne haddr
      rw [hdebt] at hP
      refine .seq (runs_getInode ?_)
      rw [he]
      refine .ite (fun hzero => absurd hzero haddr) fun _ => ?_
      refine runs_bmapEntry_new hv hsb hi he hbn hn haddr ?_ hP fun a blk l hmaps hcharge hpaid => hQ a blk l T hmaps
        hcharge hpaid
      rw [index, dataSlot_entry, slot_entry hj haddr] at hzero
      by_contra hne
      exact toNat_ne_zero.mpr hne hzero
  · simp only [MAXFILE] at hn
    omega

end Xv6.Fs
