import Xv6.FsBlocks
import Xv6.FsCalls

/- Inodes are arrays of bytes.

   1. `readi` returns a stretch of the contents and leaves the state as it was.
   2. `writei` goes block by block. `Written` is what one stretch of it does to the disk and to
      the inode; two stretches one after the other are one. The other inodes keep their blocks.
   3. The size is set at the end, and with it the inode on the disk.
   4. What `filewrite` hands to one `writei` logs no more blocks than one operation may log
      (`filewrite_chunk_fits`). -/
namespace Xv6.Fs
open Function List Bits ByteBlock Log Command Allocation

variable {P : Prop} {s t : Kernel} {sb : Superblock} {e : Ip} {blk blk' blk'' : Nat → Blk} {d : Dinode}
  {T T' T'' : Nat → Dinode} {i bn off n K : Nat} {W : Finset Nat} {src : List Byte}

/-! ## Reading -/

structure Calm (sb : Superblock) (s : Kernel) : Prop where
  disk : sb.size.toNat ≤ FSSIZE
  locked : s.locked = []
  bufs : s.logged.length < NBUF

theorem Calm.readable (h : Calm sb s) {b : Nat} (hb : b < sb.size.toNat) : Readable s b where
  free := by
    rw [h.locked]
    exact not_mem_nil
  bufs := by
    rw [h.locked]
    exact h.bufs
  disk := hb.trans_le h.disk

theorem Vol.slot_lt (hv : Vol sb blk (slotsOf sb blk T 0)) (hi : Allocated sb T i) {k : Nat}
    (hk : slot blk (T i) k ≠ 0) :
    slot blk (T i) k < sb.size.toNat := by
  have hname : slotsOf sb blk T 0 (some (i, k)) = slot blk (T i) k := if_pos hi
  have := hv.owned.range (k := some (i, k)) (by rw [hname]; exact hk)
  rw [hname] at this
  exact this.2

theorem Vol.indirect_lt (hv : Vol sb blk (slotsOf sb blk T 0)) (hi : Allocated sb T i) (hbn : index blk (T i) bn ≠ 0)
    (hle : NDIRECT ≤ bn) : ((T i).addr NDIRECT).toNat < sb.size.toNat := by
  have hslot : slot blk (T i) NDIRECT = ((T i).addr NDIRECT).toNat := slot_direct (le_refl _)
  rw [← hslot]
  refine hv.slot_lt hi ?_
  rw [hslot]
  refine toNat_ne_zero.mpr fun hzero => hbn ?_
  rw [index, dataSlot, if_neg (by omega), slot, if_neg (by omega), if_neg (by simp [hzero])]

def bytes (blk : Nat → Blk) (d : Dinode) (off n : Nat) : List Byte := (range n).map fun k => content blk d (off + k)

theorem bytes_append (m n : Nat) : bytes blk d off (m + n) = bytes blk d off m ++ bytes blk d (off + m) n := by
  simp only [bytes, range_add, map_append, map_map]
  congr 2
  funext k
  simp [Nat.add_assoc]

theorem slice_eq_bytes {m : Nat} (hm : m ≤ BSIZE - off % BSIZE) :
    slice (blk (index blk d (off / BSIZE))) (off % BSIZE) m = bytes blk d off m := by
  refine map_congr_left fun k hk => ?_
  have hk := List.mem_range.mp hk
  have hdiv : (off + k) / BSIZE = off / BSIZE := by
    simp only [BSIZE] at *
    omega
  have hmod : (off + k) % BSIZE = off % BSIZE + k := by
    simp only [BSIZE] at *
    omega
  rw [content, hdiv, hmod]

theorem runs_readLoop {Q : List Byte → Kernel → Prop} {fuel : Nat} (hv : Vol sb s.blk (slotsOf sb s.blk T 0))
    (hi : Allocated sb T i) (he : (s.inode e).d = T i) (hs : Sized s.blk (T i)) (hP : P → Calm sb s) (hfuel : n ≤ fuel)
    (hn : off + n ≤ (T i).size.toNat) (hQ : Q (bytes s.blk (T i) off n) s) : Runs P (readLoop e fuel off n) Q s := by
  induction fuel generalizing off n Q with
  | zero =>
    obtain rfl : n = 0 := by omega
    exact hQ
  | succ fuel ih =>
    refine .ite (fun hzero => ?_) fun hpos => .seq ?_
    · subst hzero
      exact hQ
    · have hmax := hs.max
      have hbn : off / BSIZE < MAXFILE := by
        simp only [BSIZE, MAXFILE, NDIRECT, NINDIRECT] at *
        omega
      have hmapped : index s.blk (T i) (off / BSIZE) ≠ 0 := (hs.mapped _ hbn).mpr (by simp only [BSIZE]; omega)
      have hlt : index s.blk (T i) (off / BSIZE) < sb.size.toNat := hv.slot_lt hi hmapped
      refine runs_bmap_mapped he hbn hmapped (fun hp hle => (hP hp).readable (hv.indirect_lt hi hmapped hle))
        fun a ha => .seq ?_
      rw [ha]
      refine runs_bread (fun hp => (hP hp).readable hlt) (.seq (runs_gets (.seq (runs_brelse (.seq ?_)))))
      have hm : min n (BSIZE - off % BSIZE) ≤ n := Nat.min_le_left _ _
      have hm' : 0 < min n (BSIZE - off % BSIZE) := by
        simp only [BSIZE]
        omega
      refine ih (by omega) (by omega) ?_
      change Q (slice (s.blk (index s.blk (T i) (off / BSIZE))) (off % BSIZE) (min n (BSIZE - off % BSIZE)) ++ _) s
      rw [slice_eq_bytes (Nat.min_le_right _ _), ← bytes_append, Nat.add_sub_of_le hm]
      exact hQ

theorem bytes_eq_contents (hn : off + n ≤ d.size.toNat) :
    bytes blk d off n = ((contents blk d).drop off).take n := by
  apply ext_getElem
  · simp only [bytes, contents, length_map, length_range, length_take, length_drop]
    omega
  · intro k h₁ h₂
    simp [bytes, contents]

theorem wraps_iff (off n : Word) : off + n < off ↔ 2 ^ 32 ≤ off.toNat + n.toNat := by
  have := off.isLt
  have := n.isLt
  rw [BitVec.lt_def, BitVec.toNat_add]
  omega

/-- `readi` returns the bytes, as far as the file goes, and changes nothing. -/
theorem runs_readi {Q : Option (List Byte) → Kernel → Prop} {off n : Word} (hv : Vol sb s.blk (slotsOf sb s.blk T 0))
    (hi : Allocated sb T i) (he : (s.inode e).d = T i) (hs : Sized s.blk (T i)) (htype : (T i).type ≠ T_DEV)
    (hP : P → off ≤ (T i).size → off.toNat + n.toNat < 2 ^ 32 → Calm sb s)
    (hbad : (T i).size < off ∨ 2 ^ 32 ≤ off.toNat + n.toNat → Q none s)
    (hQ : off ≤ (T i).size → off.toNat + n.toNat < 2 ^ 32 →
      Q (some (((contents s.blk (T i)).drop off.toNat).take n.toNat)) s) : Runs P (readi e off n) Q s := by
  refine .seq (runs_getInode ?_)
  rw [he]
  refine .ite (fun h => absurd h htype) fun _ => .ite (fun h => ?_) fun h => .seq ?_
  · exact hbad (h.imp id (wraps_iff off n).mp)
  · rw [wraps_iff] at h
    have hle : off ≤ (T i).size := by
      rw [BitVec.le_def]
      by_contra hlt
      exact h (.inl (BitVec.lt_def.mpr (by omega)))
    have hsum : (off + n).toNat = off.toNat + n.toNat := by
      rw [BitVec.toNat_add]
      omega
    have hle' := BitVec.le_def.mp hle
    have hlen : (if (T i).size < off + n then (T i).size - off else n).toNat =
        min n.toNat ((T i).size.toNat - off.toNat) := by
      split
      · rename_i hlt
        rw [BitVec.lt_def, hsum] at hlt
        rw [BitVec.toNat_sub_of_le hle]
        omega
      · rename_i hge
        rw [BitVec.lt_def, hsum] at hge
        omega
    refine runs_readLoop hv hi he hs (fun hp => hP hp hle (by omega)) (le_refl _) (by rw [hlen]; omega) ?_
    have hbytes : ((contents s.blk (T i)).drop off.toNat).take n.toNat =
        bytes s.blk (T i) off.toNat (min n.toNat ((T i).size.toNat - off.toNat)) := by
      rw [bytes_eq_contents (by omega), take_eq_take_iff]
      simp only [contents, length_drop, length_map, length_range]
      omega
    rw [hlen, ← hbytes]
    exact hQ hle (by omega)

/-! ## Writing -/

theorem work_eq (he : (s.inode e).d = d) : s.work e s.blk s.logged d = s := by
  rw [← he]
  exact work_self s e

structure Written (sb : Superblock) (i : Nat) (blk : Nat → Blk) (T : Nat → Dinode) (off : Nat) (src : List Byte)
    (blk' : Nat → Blk) (T' : Nat → Dinode) : Prop extends Changes sb i blk T blk' T' where
  mapped : MappedTo blk' (T' i) (max (T i).size.toNat (off + src.length))
  content : ∀ o, o < max (T i).size.toNat (off + src.length) → content blk' (T' i) o =
    if off ≤ o ∧ o < off + src.length then src.getD (o - off) 0 else content blk (T i) o
  fixed : off + src.length ≤ (T i).size.toNat → T' = T

theorem Written.nil (hv : Vol sb blk (slotsOf sb blk T 0)) (hm : MappedTo blk (T i) (max (T i).size.toNat off)) :
    Written sb i blk T off [] blk T where
  toChanges := .refl hv
  mapped := hm
  content o _ := by
    rw [if_neg]
    simp only [length_nil]
    omega
  fixed _ := rfl

theorem Written.append {src' : List Byte} (hw : Written sb i blk T off src blk' T')
    (hw' : Written sb i blk' T' (off + src.length) src' blk'' T'') :
    Written sb i blk T off (src ++ src') blk'' T'' := by
  have hsize : (T' i).size = (T i).size := hw.size i
  have hmapped := hw'.mapped
  have hcontent := hw'.content
  have hfixed := hw'.fixed
  simp only [hsize] at hmapped hcontent hfixed
  refine ⟨hw.toChanges.trans hw'.toChanges, ?_, fun o ho => ?_, fun hle => ?_⟩
  · rw [length_append, ← Nat.add_assoc]
    exact hmapped
  · rw [length_append, ← Nat.add_assoc] at ho ⊢
    rw [hcontent o ho]
    by_cases h₂ : off + src.length ≤ o ∧ o < off + src.length + src'.length
    · rw [if_pos h₂, if_pos (by omega), getD_append_right _ _ _ _ (by omega), Nat.sub_sub]
    · rw [if_neg h₂, hw.content o (by omega)]
      by_cases h₁ : off ≤ o ∧ o < off + src.length
      · rw [if_pos h₁, if_pos (by omega), getD_append _ _ _ _ (by omega)]
      · rw [if_neg h₁, if_neg (by omega)]
  · rw [length_append] at hle
    rw [hfixed (by omega), hw.fixed (by omega)]

/-- One block of it. -/
theorem Maps.written {a : Word} (hmaps : Maps sb i (off / BSIZE) blk T a blk' T') (hi : Allocated sb T i)
    (hm : MappedTo blk (T i) (max (T i).size.toNat off)) (hsize : (T i).size.toNat ≤ MAXFILE * BSIZE)
    (hmax : off < MAXFILE * BSIZE)
    (hfix : index blk (T i) (off / BSIZE) ≠ 0 → T' = T) (hpos : 0 < src.length)
    (hfit : off % BSIZE + src.length ≤ BSIZE) :
    Written sb i blk T off src (update blk' a.toNat (blit (blk' a.toNat) (off % BSIZE) src)) T' := by
  have hhere := hmaps.here
  have hne : index blk' (T' i) (off / BSIZE) ≠ 0 := by
    rw [hhere]
    exact toNat_ne_zero.mpr hmaps.ne
  have hi' := (hmaps.allocated i).mpr hi
  have hslot : slot (update blk' a.toNat (blit (blk' a.toNat) (off % BSIZE) src)) (T' i) = slot blk' (T' i) := by
    rw [← hhere]
    exact hmaps.vol.slot_data hi' hi' _
  have hindex : index (update blk' a.toNat (blit (blk' a.toNat) (off % BSIZE) src)) (T' i) = index blk' (T' i) := by
    funext bn
    rw [index, hslot, index]
  have hbn : off / BSIZE < MAXFILE := by
    simp only [BSIZE] at *
    omega
  refine ⟨?_, fun bn hbn' => ?_, fun o ho => ?_, fun hle => ?_⟩
  · have := hmaps.vol.changes_data hi' hne (blit (blk' a.toNat) (off % BSIZE) src)
    rw [hhere] at this
    exact hmaps.toChanges.trans this
  · rw [hindex]
    by_cases heq : bn = off / BSIZE
    · subst heq
      simp only [hne, ne_eq, not_false_eq_true, true_iff]
      simp only [BSIZE]
      omega
    · rw [hmaps.rest bn heq, hm bn hbn']
      simp only [BSIZE] at *
      omega
  · have hold : o < max (T i).size.toNat off → index blk (T i) (o / BSIZE) ≠ 0 := by
      intro hlt
      refine (hm _ ?_).mpr ?_ <;> simp only [BSIZE] at * <;> omega
    have hmod : o % BSIZE < 512 := Nat.mod_lt _ (by decide)
    rw [Fs.content, hindex]
    by_cases hblock : o / BSIZE = off / BSIZE
    · rw [hblock, hhere, update_self, byteAt_blit _ _ _ _ hmod]
      by_cases hin : off ≤ o ∧ o < off + src.length
      · rw [if_pos hin, if_pos (by simp only [BSIZE] at *; omega)]
        congr 1
        simp only [BSIZE] at *
        omega
      · rw [if_neg hin, if_neg (by simp only [BSIZE] at *; omega)]
        obtain ⟨h₁, h₂⟩ := hmaps.data _ (hold (by omega))
        rw [hblock] at h₁ h₂
        rw [Fs.content, hblock, ← h₂, ← h₁, hhere]
    · have hout : ¬(off ≤ o ∧ o < off + src.length) := by
        simp only [BSIZE] at *
        omega
      have hlt : o < max (T i).size.toNat off := by omega
      obtain ⟨h₁, h₂⟩ := hmaps.data _ (hold hlt)
      have hapart : index blk' (T' i) (o / BSIZE) ≠ a.toNat := by
        rw [← hhere]
        refine hmaps.vol.index_apart hi' hi' ?_ (.inr fun heq => hblock (dataSlot_inj heq))
        change index blk' (T' i) (o / BSIZE) ≠ 0
        rw [h₁]
        exact hold hlt
      rw [if_neg hout, update_of_ne hapart, h₁, h₂, Fs.content]
  · refine hfix ((hm _ hbn).mpr ?_)
    simp only [BSIZE] at *
    omega

/-- `bmap` as `writei` calls it: one block more is logged, new or not. -/
theorem runs_bmap {Q : Word → Kernel → Prop} (hv : Vol sb s.blk (slotsOf sb s.blk T 0)) (hsb : s.sb = sb)
    (hi : Allocated sb T i) (he : (s.inode e).d = T i) (hbn : bn < n) (hn : n ≤ MAXFILE)
    (hP : P → Budget sb K W n s (T i) ∧ W.card + 1 + debt (T i) n ≤ K)
    (hfree : P → index s.blk (T i) bn = 0 → 1 + debt (T i) n ≤ freeBlocks sb s.blk)
    (hQ : ∀ a blk l T', Maps sb i bn s.blk T a blk T' → (index s.blk (T i) bn ≠ 0 → T' = T) →
      Charge (T i) (T' i) (if index s.blk (T i) bn = 0 then 2 else 1) s.logged (a.toNat :: l) →
      (P → ∃ W', (Budget sb K W' n (s.work e blk l (T' i)) (T' i) ∧ W ⊆ W' ∧ a.toNat ∈ W' ∧
        W'.card + debt (T' i) n ≤ W.card + 1 + debt (T i) n) ∧
        freeBlocks sb s.blk + debt (T' i) n ≤
          freeBlocks sb blk + (if index s.blk (T i) bn = 0 then 1 else 0) + debt (T i) n) →
      Q a (s.work e blk l (T' i))) :
    Runs P (bmap e bn) Q s := by
  by_cases hzero : index s.blk (T i) bn = 0
  · refine runs_bmap_new hv hsb hi he hbn hn hzero (fun hp => ⟨(hP hp).1, (hP hp).2, hfree hp hzero⟩) ?_
    intro a blk l T' hmaps hcharge hpaid
    refine hQ a blk l T' hmaps (fun hne => absurd hzero hne) (by rw [if_pos hzero]; exact hcharge) fun hp => ?_
    obtain ⟨W', hW'⟩ := hpaid hp
    refine ⟨W', ⟨hW'.toBudget, hW'.sub, hW'.new, hW'.spent⟩, ?_⟩
    rw [if_pos hzero]
    exact hW'.free
  · have hlt : index s.blk (T i) bn < sb.size.toNat := hv.slot_lt hi hzero
    refine runs_bmap_mapped he (by omega) hzero (fun hp hle => ?_) fun a ha => ?_
    · have hb := (hP hp).1
      exact hb.readable (by rw [hb.idle]; exact not_mem_nil) (hv.indirect_lt hi hzero hle)
    · have hmaps : Maps sb i bn s.blk T a s.blk T :=
        ⟨.refl hv, ha.symm, toNat_ne_zero.mp (by rw [ha]; exact hzero), fun _ _ => rfl⟩
      have hcharge : Charge (T i) (T i) 1 s.logged (a.toNat :: s.logged) := by
        refine ⟨{a.toNat}, ∅, le_refl 1, .same rfl, fun b hb => ?_⟩
        rw [Finset.mem_singleton]
        exact (List.mem_cons.mp hb).elim (fun h => .inr (.inl h)) .inl
      have := hQ a s.blk s.logged T hmaps (fun _ => rfl) (by rw [if_neg hzero]; exact hcharge)
      rw [work_eq he] at this
      refine this fun hp => ⟨insert a.toNat W, ⟨?_, Finset.subset_insert _ W, Finset.mem_insert_self _ W, ?_⟩, ?_⟩
      · have hb := (hP hp).1
        have hcard := (hP hp).2
        exact ⟨hb.toRoom.insert _ (by omega), hb.idle, fun h₁ h₂ => Finset.mem_insert_of_mem (hb.ind h₁ h₂)⟩
      · have := Finset.card_insert_le a.toNat W
        omega
      · rw [if_neg hzero]
        omega

theorem exists_of_imp {γ : Type} (c : γ) {R : γ → Prop} (h : P → ∃ c, R c) : ∃ c, P → R c := by
  by_cases hp : P
  · obtain ⟨c, hc⟩ := h hp
    exact ⟨c, fun _ => hc⟩
  · exact ⟨c, fun hp' => absurd hp' hp⟩

/-- How many blocks are logged for the data that is written from `off` up to block index `n`: each block, and for
each new one a block of the free map. -/
def writeCost (d : Dinode) (off n : Nat) : Nat :=
  (n - off / BSIZE) + (n - (max d.size.toNat off + (BSIZE - 1)) / BSIZE)

theorem runs_writeLoop {Q : Unit → Kernel → Prop} {fuel : Nat} (hv : Vol sb s.blk (slotsOf sb s.blk T 0))
    (hsb : s.sb = sb) (hi : Allocated sb T i) (he : (s.inode e).d = T i) (hsize : (T i).size.toNat ≤ MAXFILE * BSIZE)
    (hm : MappedTo s.blk (T i) (max (T i).size.toNat off)) (hfuel : src.length ≤ fuel)
    (hend : off + src.length ≤ n * BSIZE) (hn : n ≤ MAXFILE)
    (hP : P → Budget sb K W n s (T i) ∧ (src ≠ [] → W.card + (n - off / BSIZE) + debt (T i) n ≤ K ∧
      n - (max (T i).size.toNat off + (BSIZE - 1)) / BSIZE + debt (T i) n ≤ freeBlocks sb s.blk))
    (hQ : ∀ blk l T', Written sb i s.blk T off src blk T' →
      Charge (T i) (T' i) (if src = [] then 0 else writeCost (T i) off n) s.logged l →
      (P → ∃ W', Budget sb K W' n (s.work e blk l (T' i)) (T' i) ∧ W ⊆ W') → Q () (s.work e blk l (T' i))) :
    Runs P (writeLoop e fuel off src) Q s := by
  induction fuel generalizing s T off src W with
  | zero =>
    obtain rfl := eq_nil_of_length_eq_zero (l := src) (by omega)
    have := hQ s.blk s.logged T (.nil hv hm) (.self fun _ hb => hb)
    rw [work_eq he] at this
    exact this fun hp => ⟨W, (hP hp).1, Finset.Subset.refl W⟩
  | succ fuel ih =>
    refine .ite (fun hsrc => ?_) fun hsrc => .seq ?_
    · subst hsrc
      have := hQ s.blk s.logged T (.nil hv hm) (.self fun _ hb => hb)
      rw [work_eq he] at this
      exact this fun hp => ⟨W, (hP hp).1, Finset.Subset.refl W⟩
    have hpos : 0 < src.length := length_pos_of_ne_nil hsrc
    have hbn : off / BSIZE < n := by
      simp only [BSIZE] at *
      omega
    have hm' := hm (off / BSIZE) (by omega)
    refine runs_bmap hv hsb hi he hbn hn (fun hp => ⟨(hP hp).1, ?_⟩) (fun hp hzero => ?_) ?_
    · have := ((hP hp).2 hsrc).1
      omega
    · have := ((hP hp).2 hsrc).2
      rw [hzero] at hm'
      simp only [BSIZE] at *
      omega
    · intro a blk l T' hmaps hfix hcharge hpaid
      set m := min src.length (BSIZE - off % BSIZE) with hmdef
      have hlen : (src.take m).length = m := by
        rw [length_take]
        omega
      have hmod : off % BSIZE < BSIZE := Nat.mod_lt _ (by decide)
      have hwritten : Written sb i s.blk T off (src.take m) _ T' := hmaps.written hi hm hsize
        (by simp only [BSIZE] at *; omega) hfix (by omega) (by omega)
      have hi' := (hmaps.allocated i).mpr hi
      have hne : index blk (T' i) (off / BSIZE) ≠ 0 := by
        rw [hmaps.here]
        exact toNat_ne_zero.mpr hmaps.ne
      have hname : slotsOf sb blk T' 0 (some (i, dataSlot (off / BSIZE))) = a.toNat := by
        rw [slotsOf, if_pos hi']
        exact hmaps.here
      have hrange := hmaps.vol.owned.range (k := some (i, dataSlot (off / BSIZE)))
        (by rw [hname]; exact toNat_ne_zero.mpr hmaps.ne)
      rw [hname] at hrange
      have hread : P → Readable (s.work e blk l (T' i)) a.toNat := by
        intro hp
        obtain ⟨W', ⟨hb, -⟩, -⟩ := hpaid hp
        exact hb.readable (by rw [hb.idle]; exact not_mem_nil) hrange.2
      have hlog : P → Loggable (s.work e blk l (T' i)) := by
        intro hp
        obtain ⟨W', ⟨hb, -⟩, -⟩ := hpaid hp
        exact hb.loggable
      refine .seq (runs_bread hread (.seq (runs_gets (runs_store hlog (.seq (runs_brelse ?_))))))
      set l' := ((s.work e blk l (T' i)).put a.toNat (blit (blk a.toNat) (off % BSIZE) (src.take m))).logged with hl'
      have hstate : (s.work e blk l (T' i)).put a.toNat
          (blit (((s.work e blk l (T' i)).hold a.toNat).blk a.toNat) (off % BSIZE) (src.take m)) =
          s.work e (update blk a.toNat (blit (blk a.toNat) (off % BSIZE) (src.take m))) l' (T' i) := rfl
      rw [hstate]
      have hsize' : (T' i).size = (T i).size := hmaps.size i
      have hdrop : (src.drop m).length = src.length - m := length_drop ..
      have hmapped := hwritten.mapped
      rw [hlen, ← hsize'] at hmapped
      have hroom : P → ∃ W', Budget sb K W' n (s.work e
          (update blk a.toNat (blit (blk a.toNat) (off % BSIZE) (src.take m))) l' (T' i)) (T' i) ∧ W ⊆ W' ∧
          (src.drop m ≠ [] → W'.card + (n - (off + m) / BSIZE) + debt (T' i) n ≤ K ∧
            n - (max (T' i).size.toNat (off + m) + (BSIZE - 1)) / BSIZE + debt (T' i) n ≤ freeBlocks sb
              (update blk a.toNat (blit (blk a.toNat) (off % BSIZE) (src.take m)))) := by
        intro hp
        obtain ⟨W', ⟨hb, hsub, hmem, hspent⟩, hfree⟩ := hpaid hp
        refine ⟨W', ⟨hb.toRoom.put_other hmaps.vol.layout hmem (.inr hrange.1), hb.idle, hb.ind⟩, hsub, fun hrest => ?_⟩
        have hpos' := length_pos_of_ne_nil hrest
        obtain ⟨hcard, hneed⟩ := (hP hp).2 hsrc
        rw [freeBlocks_update hmaps.vol.layout (.inr hrange.1), hsize']
        by_cases hzero : index s.blk (T i) (off / BSIZE) = 0
        · rw [if_pos hzero] at hfree
          rw [hzero] at hm'
          simp only [BSIZE] at *
          omega
        · rw [if_neg hzero] at hfree
          simp only [BSIZE] at *
          omega
      obtain ⟨W', hW'⟩ := exists_of_imp ∅ hroom
      refine ih (W := W') hwritten.vol hsb hi' work_inode (by rw [hsize']; exact hsize) hmapped (by omega) (by omega)
        (fun hp => ⟨(hW' hp).1, (hW' hp).2.2⟩) (fun blk'' l'' T'' hw hrest hb => ?_)
      rw [work_work] at hb ⊢
      refine hQ blk'' l'' T'' ?_ ?_ fun hp => ?_
      · have := hwritten.append (by rw [hlen]; exact hw)
        rwa [take_append_drop] at this
      · -- What this block costs is what the rest costs less.
        have hlogged : ∀ b ∈ l', b ∈ a.toNat :: l := fun b hb =>
          List.mem_cons.mpr ((mem_logged_put (s := s.work e blk l (T' i)) hb).symm)
        refine ((hcharge.mono (le_refl _) hlogged).trans hrest).mono ?_ fun _ hb => hb
        rw [if_neg hsrc]
        simp only [writeCost, hsize']
        by_cases hzero : index s.blk (T i) (off / BSIZE) = 0
        · rw [if_pos hzero]
          rw [hzero] at hm'
          split
          · simp only [BSIZE] at *
            omega
          · rename_i hdrop'
            have := length_pos_of_ne_nil hdrop'
            simp only [BSIZE] at *
            omega
        · rw [if_neg hzero]
          split
          · simp only [BSIZE] at *
            omega
          · rename_i hdrop'
            have := length_pos_of_ne_nil hdrop'
            simp only [BSIZE] at *
            omega
      · obtain ⟨W'', hb'', hsub⟩ := hb hp
        exact ⟨W'', hb'', (hW' hp).2.1.trans hsub⟩

/-! ## The inode on the disk -/

/-- The disk after inode `i` has been written to its place. -/
def saveBlk (sb : Superblock) (blk : Nat → Blk) (i : Nat) (d : Dinode) : Nat → Blk :=
  update blk (iblock sb i) (putDinode (blk (iblock sb i)) (i % IPB) d)

theorem runs_iupdate {Q : Unit → Kernel → Prop} (hl : Layout sb) (hsb : s.sb = sb)
    (hinum : (s.inode e).inum.toNat = i) (hi : i < sb.ninodes.toNat) (he : (s.inode e).d = d)
    (hP : P → Room sb K W s ∧ s.locked = [])
    (hQ : ∀ l, (∀ b ∈ l, b ∈ s.logged ∨ b = iblock sb i) →
      (P → iblock sb i ∈ W → Room sb K W (s.work e (saveBlk sb s.blk i d) l d)) →
      Q () (s.work e (saveBlk sb s.blk i d) l d)) : Runs P (iupdate e) Q s := by
  refine .seq (runs_getInode (.seq (runs_gets ?_)))
  rw [hsb, hinum, he]
  have hblock := hl.iblock_bounds hi
  have hstart := hl.bmapstart_lt
  have hle := Layout.dataStart_le sb
  have hread : P → Readable s (iblock sb i) := fun hp =>
    (hP hp).1.readable (by rw [(hP hp).2]; exact not_mem_nil) (by omega)
  refine .seq (runs_bread hread (.seq (runs_gets (.seq ?_))))
  refine .seq (runs_logWrite (fun hp => ⟨(hP hp).1.loggable.log, (hP hp).1.loggable.size, (hP hp).1.loggable.op⟩) ?_)
  refine runs_brelse (s := s.put (iblock sb i) (putDinode (s.blk (iblock sb i)) (i % IPB) d)) ?_
  have hstate : s.put (iblock sb i) (putDinode (s.blk (iblock sb i)) (i % IPB) d) =
      s.work e (saveBlk sb s.blk i d)
        (s.put (iblock sb i) (putDinode (s.blk (iblock sb i)) (i % IPB) d)).logged d := by
    simp only [Kernel.work, ← he, update_eq_self]
    rfl
  rw [hstate]
  refine hQ _ (fun _ hb => mem_logged_put hb) fun hp hmem => ?_
  rw [← hstate]
  exact (hP hp).1.put_other hl hmem (.inl hblock.2)

theorem Vol.save (hv : Vol sb blk (slotsOf sb blk T 0)) (hi : i < sb.ninodes.toNat) (d : Dinode) :
    Vol sb (saveBlk sb blk i d) (slotsOf sb (saveBlk sb blk i d) T 0) := by
  have hblock := hv.layout.iblock_bounds hi
  have ha : Agrees (slotsOf sb blk T 0) blk (saveBlk sb blk i d) := hv.agrees_inode hi
  rw [ha.slotsOf]
  exact hv.store hblock.1 (.inl hblock.2) _

theorem Vol.save_kept (hv : Vol sb blk (slotsOf sb blk T 0)) (hi : i < sb.ninodes.toNat) {i' : Nat}
    (hi' : Allocated sb T i') : Kept blk (saveBlk sb blk i d) (T i') :=
  (hv.agrees_inode hi).kept hi'

structure Wrote (sb : Superblock) (i : Nat) (blk : Nat → Blk) (T : Nat → Dinode) (off : Nat) (src : List Byte)
    (blk' : Nat → Blk) (T' : Nat → Dinode) : Prop where
  table : ∀ i', i' ≠ i → T' i' = T i'
  same : T' i = { T i with addrs := (T' i).addrs, size := (T' i).size }
  vol : Vol sb blk' (slotsOf sb blk' T' 0)
  others : ∀ i', i' ≠ i → Allocated sb T i' → Kept blk blk' (T i')
  disk : ∀ i', i' < sb.ninodes.toNat → dinodeOf sb blk' i' = if i' = i then T' i else dinodeOf sb blk i'
  size : (T' i).size.toNat = max (T i).size.toNat (off + src.length)
  sized : Sized blk' (T' i)
  contents : contents blk' (T' i) =
    (contents blk (T i)).take off ++ (src ++ (contents blk (T i)).drop (off + src.length))

/-- The bytes after a stretch has been written. -/
theorem contents_of_content {d' : Dinode} (hoff : off ≤ d.size.toNat)
    (hsize : d'.size.toNat = max d.size.toNat (off + src.length))
    (h : ∀ o, o < d'.size.toNat → content blk' d' o =
      if off ≤ o ∧ o < off + src.length then src.getD (o - off) 0 else content blk d o) :
    contents blk' d' = (contents blk d).take off ++ (src ++ (contents blk d).drop (off + src.length)) := by
  apply ext_getElem
  · simp only [contents, length_append, length_take, length_drop, length_map, length_range]
    omega
  · intro o h₁ h₂
    have ho : o < d'.size.toNat := by simpa [contents] using h₁
    have htake : ((contents blk d).take off).length = off := by
      simp only [contents, length_take, length_map, length_range]
      omega
    rw [show (contents blk' d')[o] = content blk' d' o by simp [contents], h o ho]
    rcases Nat.lt_or_ge o off with hlt | hge
    · rw [if_neg (by omega), getElem_append_left (by omega), getElem_take]
      simp [contents]
    · rw [getElem_append_right (by omega)]
      simp only [htake]
      rcases Nat.lt_or_ge o (off + src.length) with hlt | hge'
      · rw [if_pos ⟨hge, hlt⟩, getElem_append_left (by omega), getD_eq_getElem _ _ (by omega)]
      · rw [if_neg (by omega), getElem_append_right (by omega), getElem_drop]
        simp only [contents, getElem_map, getElem_range]
        congr 1
        omega

theorem slotsOf_setSize (w : Word) :
    slotsOf sb blk (update T i { T i with size := w }) n = slotsOf sb blk T n := by
  funext y
  rcases y with _ | ⟨i', k⟩
  · rfl
  · by_cases heq : i' = i
    · subst heq
      simp only [slotsOf, Allocated, update_self]
      rfl
    · have hiff : Allocated sb (update T i { T i with size := w }) i' ↔ Allocated sb T i' := by
        rw [Allocated, Allocated, update_of_ne heq]
      simp only [slotsOf, hiff, update_of_ne heq]

theorem Changes.dinodeOf (hc : Changes sb i blk T blk' T') {i' : Nat} (hi' : i' < sb.ninodes.toNat) :
    dinodeOf sb blk' i' = dinodeOf sb blk i' := by
  rw [Fs.dinodeOf, Fs.dinodeOf, hc.low _ (hc.vol.layout.iblock_bounds hi').2]

/-- The file has grown. -/
theorem Written.wrote_grown {w : Word} (hw : Written sb i blk T off src blk' T') (hi : Allocated sb T i)
    (hoff : off ≤ (T i).size.toNat) (hlt : (T i).size.toNat < off + src.length) (hsize : w.toNat = off + src.length)
    (hmax : off + src.length ≤ MAXFILE * BSIZE) :
    Wrote sb i blk T off src (saveBlk sb blk' i { T' i with size := w }) (update T' i { T' i with size := w }) := by
  have hmaxsize : max (T i).size.toNat (off + src.length) = w.toNat := by omega
  have hvol : Vol sb blk' (slotsOf sb blk' (update T' i { T' i with size := w }) 0) := by
    rw [slotsOf_setSize]
    exact hw.vol
  have hi' : Allocated sb (update T' i { T' i with size := w }) i := by
    rw [Allocated, update_self]
    exact (hw.allocated i).mpr hi
  have hkept : Kept blk' (saveBlk sb blk' i { T' i with size := w }) { T' i with size := w } := by
    have := hvol.save_kept (d := { T' i with size := w }) hi.2.1 hi'
    rwa [update_self] at this
  have hsized : Sized blk' { T' i with size := w } := by
    have hmapped := hw.mapped
    rw [hmaxsize] at hmapped
    exact ⟨by simp only [hsize]; exact hmax, hmapped⟩
  refine
    { table := fun i' hne => by rw [update_of_ne hne, hw.table i' hne]
      same := by
        rw [update_self, hw.same]
      vol := hvol.save hi.2.1 _
      others := fun i' hne halloc => ?_
      disk := fun i' hlt' => ?_
      size := by rw [update_self, hmaxsize]
      sized := by
        rw [update_self]
        exact hkept.sized hsized
      contents := ?_ }
  · refine (hw.others i' hne halloc).trans ?_
    have := hw.vol.save_kept (d := { T' i with size := w }) hi.2.1 ((hw.allocated i').mpr halloc)
    rwa [hw.table i' hne] at this
  · rw [saveBlk, dinodeOf_putDinode hw.vol.layout hi.2.1 hlt', update_self, hw.toChanges.dinodeOf hlt']
  · rw [update_self, hkept.contents hsized]
    refine contents_of_content hoff hmaxsize.symm fun o ho => ?_
    exact hw.content o (by rw [hmaxsize]; exact ho)

theorem Written.wrote_within (hw : Written sb i blk T off src blk' T') (hs : Sized blk (T i))
    (hdisk : dinodeOf sb blk i = T i) (hle : off + src.length ≤ (T i).size.toNat) :
    Wrote sb i blk T off src blk' T' := by
  have hT := hw.fixed hle
  have hmaxsize : max (T i).size.toNat (off + src.length) = (T i).size.toNat := by omega
  have hmapped := hw.mapped
  have hcontent := hw.content
  rw [hmaxsize] at hmapped
  simp only [hmaxsize] at hcontent
  refine
    { table := hw.table
      same := by rw [hT]
      vol := hw.vol
      others := hw.others
      disk := fun i' hlt => ?_
      size := by rw [hT, hmaxsize]
      sized := by
        rw [hT] at hmapped ⊢
        exact ⟨hs.max, hmapped⟩
      contents := ?_ }
  · rw [hw.toChanges.dinodeOf hlt]
    split
    · rename_i heq
      rw [heq, hdisk, hT]
    · rfl
  · refine contents_of_content (by omega) (by rw [hT, hmaxsize]) fun o ho => hcontent o ?_
    rwa [hT] at ho

structure WriteRoom (sb : Superblock) (K : Nat) (W : Finset Nat) (s : Kernel) (i : Nat) (d : Dinode) (off n : Nat) :
    Prop
    extends Budget sb K W n s d where
  inode : iblock sb i ∈ W
  blocks : W.card + (n - off / BSIZE) + debt d n ≤ K
  free : n - (d.size.toNat + (BSIZE - 1)) / BSIZE + debt d n ≤ freeBlocks sb s.blk

/-- `writei` refuses what does not fit a file, and otherwise writes it. -/
theorem runs_writei {Q : Option Nat → Kernel → Prop} {off : Word} (hv : Vol sb s.blk (slotsOf sb s.blk T 0))
    (hsb : s.sb = sb) (hi : Allocated sb T i) (hinum : (s.inode e).inum.toNat = i) (he : (s.inode e).d = T i)
    (hs : Sized s.blk (T i)) (htype : (T i).type ≠ T_DEV) (hdisk : dinodeOf sb s.blk i = T i)
    (hlen : src.length < 2 ^ 32)
    (hP : P → off ≤ (T i).size → off.toNat + src.length ≤ MAXFILE * BSIZE →
      WriteRoom sb K W s i (T i) off.toNat ((off.toNat + src.length + (BSIZE - 1)) / BSIZE))
    (hbad : (T i).size < off ∨ MAXFILE * BSIZE < off.toNat + src.length → Q none s)
    (hQ : off ≤ (T i).size → off.toNat + src.length ≤ MAXFILE * BSIZE → ∀ blk l T',
      Wrote sb i s.blk T off.toNat src blk T' →
      (∃ W' : Finset Nat, W'.card ≤ (if src = [] then 0 else
          writeCost (T i) off.toNat ((off.toNat + src.length + (BSIZE - 1)) / BSIZE) + 3) ∧
        ∀ b ∈ l, b ∈ s.logged ∨ b ∈ W') →
      (P → ∃ W', Room sb K W' (s.work e blk l (T' i)) ∧ iblock sb i ∈ W') →
      Q (some src.length) (s.work e blk l (T' i))) :
    Runs P (writei e src off) Q s := by
  have hn : (BitVec.ofNat 32 src.length).toNat = src.length := by
    rw [BitVec.toNat_ofNat]
    exact Nat.mod_eq_of_lt hlen
  refine .seq (runs_getInode ?_)
  rw [he]
  refine .ite (fun h => absurd h htype) fun _ => .ite (fun h => hbad (h.imp id fun hwrap => ?_)) fun h =>
    .ite (fun h' => hbad (.inr ?_)) fun h' => ?_
  · rw [wraps_iff, hn] at hwrap
    simp only [MAXFILE, NDIRECT, NINDIRECT, BSIZE]
    omega
  · have := BitVec.toNat_add off (BitVec.ofNat 32 src.length)
    rw [hn] at this
    have : (off.toNat + src.length) % 2 ^ 32 ≤ off.toNat + src.length := Nat.mod_le _ _
    omega
  · rw [wraps_iff, hn] at h
    have hsum : (off + BitVec.ofNat 32 src.length).toNat = off.toNat + src.length := by
      rw [BitVec.toNat_add, hn]
      omega
    have hle : off ≤ (T i).size := by
      rw [BitVec.le_def]
      by_contra hlt
      exact h (.inl (BitVec.lt_def.mpr (by omega)))
    have hle' := BitVec.le_def.mp hle
    rw [hsum] at h'
    have hfit : off.toNat + src.length ≤ MAXFILE * BSIZE := by omega
    have hm : MappedTo s.blk (T i) (max (T i).size.toNat off.toNat) := by
      rw [Nat.max_eq_left hle']
      exact hs.mapped
    refine .ite (fun hsrc => ?_) fun hsrc => .seq ?_
    · subst hsrc
      have hw : Wrote sb i s.blk T off.toNat [] s.blk T :=
        (Written.nil hv hm).wrote_within hs hdisk (by simpa using hle')
      have := hQ hle hfit s.blk s.logged T hw ⟨∅, Nat.zero_le _, fun _ hb => .inl hb⟩
      rw [work_eq he] at this
      exact this fun hp => ⟨W, (hP hp hle hfit).toRoom, (hP hp hle hfit).inode⟩
    · set n := (off.toNat + src.length + (BSIZE - 1)) / BSIZE with hndef
      have hnmax : n ≤ MAXFILE := by
        simp only [BSIZE] at hfit hndef
        omega
      have hcover : off.toNat + src.length ≤ n * BSIZE := by
        simp only [BSIZE] at hndef ⊢
        omega
      refine runs_writeLoop (K := K) (W := W) hv hsb hi he hs.max hm (le_refl _) hcover hnmax
        (fun hp => ⟨(hP hp hle hfit).toBudget, fun _ => ⟨(hP hp hle hfit).blocks, ?_⟩⟩)
        fun blk l T' hw hcharge hb => .seq (.seq (runs_getInode ?_))
      · rw [Nat.max_eq_left hle']
        exact (hP hp hle hfit).free
      · have hsize : (T' i).size = (T i).size := hw.size i
        rw [if_neg hsrc] at hcharge
        obtain ⟨L, hcard, hlogged⟩ := hcharge.blocks
        rw [work_inode, hsize]
        refine .ite (fun hlt => ?_) fun hge => ?_
        · rw [BitVec.lt_def, hsum] at hlt
          refine .seq (runs_editInode ?_)
          obtain ⟨W', hW'⟩ := exists_of_imp ∅ hb
          rw [work_inode, work_work]
          refine runs_iupdate (K := K) (W := W') (i := i) (d := { T' i with size := off + BitVec.ofNat 32 src.length })
            hv.layout hsb ?_ hi.2.1 work_inode (fun hp => ⟨?_, (hW' hp).1.idle⟩) fun l' hl' hroom => ?_
          · simp only [Kernel.work, update_self]
            exact hinum
          · exact (hW' hp).1.toRoom.work rfl rfl rfl
          · rw [work_work] at hroom ⊢
            have := hQ hle hfit _ l' _ (hw.wrote_grown hi hle' hlt hsum hfit)
            rw [update_self] at this
            refine this ⟨insert (iblock sb i) L, ?_, fun b hb => ?_⟩ fun hp => ?_
            · rw [if_neg hsrc]
              exact (Finset.card_insert_le ..).trans (Nat.succ_le_succ hcard)
            · rw [Finset.mem_insert]
              rcases hl' b hb with hb | rfl
              · exact (hlogged b hb).imp_right .inr
              · exact .inr (.inl rfl)
            · have hmem := (hW' hp).2 (hP hp hle hfit).inode
              exact ⟨W', hroom hp hmem, hmem⟩
        · rw [BitVec.lt_def, hsum] at hge
          refine hQ hle hfit blk l T' (hw.wrote_within hs hdisk (by omega)) ⟨L, ?_, hlogged⟩ fun hp => ?_
          · rw [if_neg hsrc]
            exact hcard.trans (Nat.le_succ _)
          · obtain ⟨W', hb', hsub⟩ := hb hp
            exact ⟨W', hb'.toRoom, hsub (hP hp hle hfit).inode⟩

/-! ## Byte arrays -/

/-- A file system on a disk: the free map and the inodes agree, and files and directories have the
blocks that their sizes ask for. -/
structure WellFormed (sb : Superblock) (blk : Nat → Blk) : Prop where
  vol : Vol sb blk (slotsOf sb blk (dinodeOf sb blk) 0)
  sized : ∀ i, Allocated sb (dinodeOf sb blk) i → (dinodeOf sb blk i).type ≠ T_DEV → Sized blk (dinodeOf sb blk i)

def bitmapBlocks (sb : Superblock) : Finset Nat :=
  (Finset.range ((sb.size.toNat - 1) / BPB + 1)).image (· + sb.bmapstart.toNat)

/-- The blocks of the bytes from `off` on. -/
def touched (off n : Nat) : Nat := (off + n + (BSIZE - 1)) / BSIZE - off / BSIZE

/-- How many blocks a file of `size` bytes needs more to have `n` bytes, with the indirect block. -/
def newBlocks (d : Dinode) (n : Nat) : Nat :=
  (n + (BSIZE - 1)) / BSIZE - (d.size.toNat + (BSIZE - 1)) / BSIZE + debt d ((n + (BSIZE - 1)) / BSIZE)

/-- Room for writing `n` bytes at `off`: in the log, in the buffer cache and on the disk. -/
structure Enough (sb : Superblock) (s : Kernel) (d : Dinode) (off n : Nat) : Prop where
  disk : sb.size.toNat ≤ FSSIZE
  locked : s.locked = []
  nodup : s.logged.Nodup
  op : 1 ≤ s.outstanding
  log : s.logged.length + (bitmapBlocks sb).card + touched off n + 2 < LOGSIZE
  logsize : s.logged.length + (bitmapBlocks sb).card + touched off n + 2 + 1 < s.logsize
  bufs : s.logged.length + (bitmapBlocks sb).card + touched off n + 2 + 2 ≤ NBUF
  free : newBlocks d (off + n) ≤ freeBlocks sb s.blk

theorem bblock_mem_bitmapBlocks (hl : Layout sb) {b : Nat} (hb : b < sb.size.toNat) :
    bblock sb b ∈ bitmapBlocks sb := by
  rw [hl.bblock_eq hb]
  refine Finset.mem_image_of_mem _ (Finset.mem_range.mpr ?_)
  have : b / BPB ≤ (sb.size.toNat - 1) / BPB := Nat.div_le_div_right (by omega)
  omega

theorem Enough.writeRoom (h : Enough sb s d off n) (hl : Layout sb) (i : Nat) :
    ∃ K W, WriteRoom sb K W s i d off ((off + n + (BSIZE - 1)) / BSIZE) := by
  set m := (off + n + (BSIZE - 1)) / BSIZE with hm
  let W : Finset Nat := s.logged.toFinset ∪ bitmapBlocks sb ∪ {iblock sb i} ∪
    (if d.addr NDIRECT = 0 then ∅ else {(d.addr NDIRECT).toNat})
  have hcard : W.card + debt d m ≤ s.logged.length + (bitmapBlocks sb).card + 2 := by
    have h₁ := toFinset_card_le s.logged
    have h₂ : W.card ≤ s.logged.toFinset.card + (bitmapBlocks sb).card + 1 +
        (if d.addr NDIRECT = 0 then ∅ else {(d.addr NDIRECT).toNat} : Finset Nat).card :=
      (Finset.card_union_le _ _).trans (Nat.add_le_add_right ((Finset.card_union_le _ _).trans
        (Nat.add_le_add_right (Finset.card_union_le _ _) _)) _)
    by_cases hzero : d.addr NDIRECT = 0
    · have : debt d m ≤ 1 := by
        rw [debt]
        split <;> omega
      rw [if_pos hzero, Finset.card_empty] at h₂
      omega
    · rw [if_neg hzero, Finset.card_singleton] at h₂
      rw [debt_of_ne hzero]
      omega
  have h₁ := h.log
  have h₂ := h.logsize
  have h₃ := h.bufs
  simp only [touched, ← hm] at h₁ h₂ h₃
  refine ⟨W.card + (m - off / BSIZE) + debt d m, W, ?_⟩
  exact
    { disk := h.disk
      locked := by rw [h.locked]; exact Nat.zero_le 1
      apart := by simp [h.locked]
      nodup := h.nodup
      mem := fun b hb => by simp [W, hb]
      bitmap := fun b hb => by simp [W, bblock_mem_bitmapBlocks hl hb]
      card := by omega
      log := by omega
      logsize := by omega
      bufs := by omega
      op := h.op
      idle := h.locked
      ind := fun hne _ => Finset.mem_union_right _ (by rw [if_neg hne]; exact Finset.mem_singleton_self _)
      inode := by simp [W]
      blocks := le_refl _
      free := h.free }

theorem slotsOf_table (hT : ∀ i, i < sb.ninodes.toNat → T' i = T i) : slotsOf sb blk T' n = slotsOf sb blk T n := by
  funext y
  rcases y with _ | ⟨i, k⟩
  · rfl
  · rcases Nat.lt_or_ge i sb.ninodes.toNat with hlt | hge
    · have hiff : Allocated sb T' i ↔ Allocated sb T i := by
        rw [Allocated, Allocated, hT i hlt]
      simp only [slotsOf, hiff, hT i hlt]
    · have h₁ : ¬Allocated sb T' i := fun h => absurd h.2.1 (by omega)
      have h₂ : ¬Allocated sb T i := fun h => absurd h.2.1 (by omega)
      simp only [slotsOf, if_neg h₁, if_neg h₂]

theorem WellFormed.wrote (hwf : WellFormed sb blk)
    (hw : Wrote sb i blk (dinodeOf sb blk) off src blk' T') :
    WellFormed sb blk' ∧ ∀ i', i' < sb.ninodes.toNat → dinodeOf sb blk' i' = T' i' := by
  have hT : ∀ i', i' < sb.ninodes.toNat → dinodeOf sb blk' i' = T' i' := by
    intro i' hlt
    rw [hw.disk i' hlt]
    split
    · rename_i heq
      rw [heq]
    · rename_i hne
      rw [hw.table i' hne]
  refine ⟨⟨?_, fun i' hi' htype => ?_⟩, hT⟩
  · rw [slotsOf_table hT]
    exact hw.vol
  · rw [hT i' hi'.2.1] at htype ⊢
    by_cases heq : i' = i
    · rw [heq]
      exact hw.sized
    · rw [hw.table i' heq] at htype ⊢
      have halloc : Allocated sb (dinodeOf sb blk) i' := by
        have := hi'
        rwa [Allocated, hT i' hi'.2.1, hw.table i' heq] at this
      exact (hw.others i' heq halloc).sized (hwf.sized i' halloc htype)

/-- The inode at `e`, which is on the disk as it is in memory, is an array of bytes for `writei` and
`readi`: both refuse an offset beyond the end and a range that wraps around, `writei` also one that is
too long for a file; otherwise `writei` replaces a stretch and extends the file if need be, other files
keep their bytes, and `readi` returns a stretch and changes nothing at all. -/
theorem inode_is_byte_array (off n : Word) (hwf : WellFormed sb s.blk) (hsb : s.sb = sb)
    (hi : Allocated sb (dinodeOf sb s.blk) i) (htype : (dinodeOf sb s.blk i).type ≠ T_DEV)
    (hinum : (s.inode e).inum.toNat = i) (hd : (s.inode e).d = dinodeOf sb s.blk i) (hlen : src.length < 2 ^ 32) :
    ((dinodeOf sb s.blk i).size < off ∨ 2 ^ 32 ≤ off.toNat + src.length ∨ MAXFILE * BSIZE < off.toNat + src.length →
      writei e src off s = .ok (none, s)) ∧
    (off ≤ (dinodeOf sb s.blk i).size → off.toNat + src.length ≤ MAXFILE * BSIZE →
      Enough sb s (dinodeOf sb s.blk i) off.toNat src.length →
      ∃ t, writei e src off s = .ok (some src.length, t) ∧ WellFormed sb t.blk ∧
        (t.inode e).d = dinodeOf sb t.blk i ∧
        contents t.blk (dinodeOf sb t.blk i) = (contents s.blk (dinodeOf sb s.blk i)).take off.toNat ++
          (src ++ (contents s.blk (dinodeOf sb s.blk i)).drop (off.toNat + src.length)) ∧
        (dinodeOf sb t.blk i).size.toNat = max (dinodeOf sb s.blk i).size.toNat (off.toNat + src.length) ∧
        ∀ i', i' ≠ i → Allocated sb (dinodeOf sb s.blk) i' → dinodeOf sb t.blk i' = dinodeOf sb s.blk i' ∧
          ((dinodeOf sb s.blk i').type ≠ T_DEV →
            contents t.blk (dinodeOf sb t.blk i') = contents s.blk (dinodeOf sb s.blk i'))) ∧
    ((dinodeOf sb s.blk i).size < off ∨ 2 ^ 32 ≤ off.toNat + n.toNat → readi e off n s = .ok (none, s)) ∧
    (off ≤ (dinodeOf sb s.blk i).size → off.toNat + n.toNat < 2 ^ 32 → Calm sb s →
      readi e off n s = .ok (some (((contents s.blk (dinodeOf sb s.blk i)).drop off.toNat).take n.toNat), s)) := by
  have hs := hwf.sized i hi htype
  refine ⟨fun hbad => ?_, fun hle hfit henough => ?_, fun hbad => ?_, fun hle hsum hcalm => ?_⟩
  · have hnot : ¬(off ≤ (dinodeOf sb s.blk i).size ∧ off.toNat + src.length ≤ MAXFILE * BSIZE) := by
      rintro ⟨hle, hfit⟩
      rcases hbad with hlt | hwrap | hmax
      · exact absurd (BitVec.le_def.mp hle) (Nat.not_le.mpr (BitVec.lt_def.mp hlt))
      · simp only [MAXFILE, NDIRECT, NINDIRECT, BSIZE] at hfit
        omega
      · omega
    have hrun : Runs True (writei e src off) (fun a t => a = none ∧ t = s) s :=
      runs_writei (K := 0) (W := ∅) hwf.vol hsb hi hinum hd hs htype rfl hlen
        (fun _ hle hfit => absurd ⟨hle, hfit⟩ hnot) (fun _ => ⟨rfl, rfl⟩) fun hle hfit => absurd ⟨hle, hfit⟩ hnot
    obtain ⟨_, _, hok, rfl, rfl⟩ := hrun.returns trivial
    exact hok
  · obtain ⟨K, W, hroom⟩ := henough.writeRoom hwf.vol.layout i
    have hrun : Runs True (writei e src off) (fun a t => a = some src.length ∧ ∃ blk l T',
        t = s.work e blk l (T' i) ∧ Wrote sb i s.blk (dinodeOf sb s.blk) off.toNat src blk T') s := by
      refine runs_writei hwf.vol hsb hi hinum hd hs htype rfl hlen (fun _ _ _ => hroom) (fun hbad => ?_)
        fun _ _ blk l T' hw _ _ => ⟨rfl, blk, l, T', rfl, hw⟩
      rcases hbad with hlt | hmax
      · exact absurd (BitVec.le_def.mp hle) (Nat.not_le.mpr (BitVec.lt_def.mp hlt))
      · omega
    obtain ⟨_, _, hok, rfl, blk, l, T', rfl, hw⟩ := hrun.returns trivial
    obtain ⟨hwf', hT⟩ := hwf.wrote hw
    have hTi := hT i hi.2.1
    refine ⟨_, hok, hwf', ?_, ?_, ?_, fun i' hne hi' => ?_⟩
    · rw [work_inode]
      exact hTi.symm
    · change contents blk (dinodeOf sb blk i) = _
      rw [hTi]
      exact hw.contents
    · change (dinodeOf sb blk i).size.toNat = _
      rw [hTi]
      exact hw.size
    · change dinodeOf sb blk i' = _ ∧ (_ → contents blk (dinodeOf sb blk i') = _)
      rw [hT i' hi'.2.1, hw.table i' hne]
      exact ⟨rfl, fun htype' => (hw.others i' hne hi').contents (hwf.sized i' hi' htype')⟩
  · have hnot : ¬(off ≤ (dinodeOf sb s.blk i).size ∧ off.toNat + n.toNat < 2 ^ 32) := by
      rintro ⟨hle, hsum⟩
      rcases hbad with hlt | hwrap
      · exact absurd (BitVec.le_def.mp hle) (Nat.not_le.mpr (BitVec.lt_def.mp hlt))
      · omega
    have hrun : Runs True (readi e off n) (fun a t => a = none ∧ t = s) s :=
      runs_readi hwf.vol hi hd hs htype (fun _ hle hsum => absurd ⟨hle, hsum⟩ hnot) (fun _ => ⟨rfl, rfl⟩)
        fun hle hsum => absurd ⟨hle, hsum⟩ hnot
    obtain ⟨_, _, hok, rfl, rfl⟩ := hrun.returns trivial
    exact hok
  · have hrun : Runs True (readi e off n) (fun a t =>
        a = some (((contents s.blk (dinodeOf sb s.blk i)).drop off.toNat).take n.toNat) ∧ t = s) s := by
      refine runs_readi hwf.vol hi hd hs htype (fun _ _ _ => hcalm) (fun hbad => ?_) fun _ _ => ⟨rfl, rfl⟩
      rcases hbad with hlt | hwrap
      · exact absurd (BitVec.le_def.mp hle) (Nat.not_le.mpr (BitVec.lt_def.mp hlt))
      · omega
    obtain ⟨_, _, hok, rfl, rfl⟩ := hrun.returns trivial
    exact hok

/-! ### A small disk -/

/-- No inode has a block, and the free map marks the metadata. -/
theorem wellFormed_of_empty (hl : Layout sb) (hsuper : superblockAt (blk 1) = sb)
    (hempty : ∀ i, i < sb.ninodes.toNat → (dinodeOf sb blk i).size = 0 ∧
      ∀ k, k < NDIRECT + 1 → (dinodeOf sb blk i).addr k = 0)
    (hbits : ∀ b, b < sb.size.toNat → bitOf sb blk b = decide (b < dataStart sb)) : WellFormed sb blk := by
  have hslot : ∀ i k, i < sb.ninodes.toNat → slot blk (dinodeOf sb blk i) k = 0 := by
    intro i k hi
    have haddr := (hempty i hi).2
    by_cases hk : k ≤ NDIRECT
    · rw [slot_direct hk, haddr k (by omega)]
      rfl
    · rw [slot, if_neg hk, if_neg (by simp [haddr NDIRECT])]
  have hslots : ∀ y, slotsOf sb blk (dinodeOf sb blk) 0 y = 0 := by
    rintro (_ | ⟨i, k⟩)
    · rfl
    · rw [slotsOf]
      split
      · rename_i hi
        exact hslot i k hi.2.1
      · rfl
  have hstart := hl.bmapstart_lt
  refine ⟨⟨hl, hsuper, ?_⟩, fun i hi _ => ⟨?_, fun bn _ => ?_⟩⟩
  · refine ⟨by omega, fun hk => absurd (hslots _) hk, fun hk => absurd (hslots _) hk, fun hlo hhi => ?_,
      fun hlo hhi => ?_⟩
    · rw [hbits _ hhi, decide_eq_true hlo]
    · rw [hbits _ hhi, decide_eq_false (by omega)]
      refine ⟨by rintro ⟨⟩, ?_⟩
      rintro ⟨y, hy⟩
      rw [hslots y] at hy
      omega
  · rw [(hempty i hi.2.1).1]
    exact Nat.zero_le _
  · rw [(hempty i hi.2.1).1, index, hslot i _ hi.2.1]
    simp

/-- 100 blocks, of which 34 are metadata, and 8 inodes. -/
def tinySb : Superblock := ⟨100, 66, 8, 30, 2, 32, 33⟩

/-- Inode 1 is an empty directory, inode 2 an empty file. -/
def tinyDisk (b : Nat) : Blk :=
  if b = 1 then blit zeroBlk 0 (words [100, 66, 8, 30, 2, 32, 33])
  else if b = 32 then
    putDinode (putDinode zeroBlk 1 { Dinode.zero with type := T_DIR, nlink := 1 }) 2
      { Dinode.zero with type := T_FILE, nlink := 1 }
  else if b = 33 then blit zeroBlk 0 [255, 255, 255, 255, 3]
  else zeroBlk

/-- An operation has begun and inode 2 is locked, at place 1 of the cache. -/
def tiny : Kernel :=
  { boot tinyDisk with
    outstanding := 1
    inode := update (boot tinyDisk).inode ⟨1, by decide⟩
      ⟨ROOTDEV, 2, 1, true, true, dinodeOf tinySb tinyDisk 2⟩ }

theorem tiny_wellFormed : WellFormed tinySb tiny.blk :=
  wellFormed_of_empty ⟨by decide, by decide, by decide, by decide⟩ (by decide +kernel) (by decide +kernel)
    (by decide +kernel)

theorem tiny_allocated : Allocated tinySb (dinodeOf tinySb tiny.blk) 2 := by decide +kernel

/-- Three bytes are written, and the last two of them read back. -/
theorem inode_is_byte_array_tiny : ∃ t, writei ⟨1, by decide⟩ [7, 8, 9] 0 tiny = .ok (some 3, t) ∧
    contents t.blk (dinodeOf tinySb t.blk 2) = [7, 8, 9] ∧ readi ⟨1, by decide⟩ 1 5 t = .ok (some [8, 9], t) := by
  have hsize : (dinodeOf tinySb tiny.blk 2).size = 0 := by decide +kernel
  have hnil : contents tiny.blk (dinodeOf tinySb tiny.blk 2) = [] := by
    rw [contents, hsize]
    rfl
  have hdisk : tinySb.size.toNat ≤ FSSIZE := by decide
  have henough : Enough tinySb tiny (dinodeOf tinySb tiny.blk 2) 0 3 :=
    ⟨hdisk, rfl, nodup_nil, le_refl _, by decide, by decide +kernel, by decide, by decide +kernel⟩
  have hwrite := (inode_is_byte_array (s := tiny) (e := ⟨1, by decide⟩) (i := 2) 0 5 tiny_wellFormed (by decide +kernel)
    tiny_allocated (by decide +kernel) rfl rfl (by decide : ([7, 8, 9] : List Byte).length < 2 ^ 32)).2.1
  rw [hsize, hnil] at hwrite
  obtain ⟨t, hok, hwf, hd, hcontents, hgrown, -⟩ := hwrite (BitVec.le_refl _) (by decide) henough
  have heval : (writei ⟨1, by decide⟩ [7, 8, 9] 0 tiny).toOption.map (fun r => (r.2.sb, (r.2.inode ⟨1, by decide⟩).inum,
      (dinodeOf tinySb r.2.blk 2).type, r.2.locked, r.2.logged.length)) = some (tinySb, 2, T_FILE, [], 3) := by
    decide +kernel
  rw [hok] at heval
  simp only [Except.toOption, Option.map_some, Option.some.injEq, Prod.mk.injEq] at heval
  obtain ⟨hsb, hinum, htype, hlocked, hlogged⟩ := heval
  refine ⟨t, hok, hcontents, ?_⟩
  have hread := (inode_is_byte_array (e := ⟨1, by decide⟩) 1 5 hwf hsb ⟨by decide, by decide, by rw [htype]; decide⟩
    (by rw [htype]; decide) (by rw [hinum]; rfl) hd (by decide : ([] : List Byte).length < 2 ^ 32)).2.2.2
  rw [hcontents] at hread
  refine hread (BitVec.le_def.mpr ?_) (by decide) ⟨hdisk, hlocked, by rw [hlogged]; decide⟩
  rw [hgrown]
  decide

/-- 28 blocks fit the file and the disk, but not the log. -/
theorem writei_exceeds_log :
    WellFormed tinySb tiny.blk ∧ tiny.sb = tinySb ∧ Allocated tinySb (dinodeOf tinySb tiny.blk) 2 ∧
      (tiny.inode ⟨1, by decide⟩).d = dinodeOf tinySb tiny.blk 2 ∧ 28 * BSIZE ≤ MAXFILE * BSIZE ∧
      newBlocks (dinodeOf tinySb tiny.blk 2) (28 * BSIZE) ≤ freeBlocks tinySb tiny.blk ∧
      writei ⟨1, by decide⟩ (replicate (28 * BSIZE) 0) 0 tiny = .error (.panic .tooBig) :=
  ⟨tiny_wellFormed, by decide +kernel, tiny_allocated, rfl, by decide, by decide +kernel,
    eq_error_iff.mpr (by decide +kernel)⟩

/-! ## One operation -/

theorem writeCost_le {off n : Nat} (hoff : off ≤ d.size.toNat) (hn : n ≤ maxWrite) :
    writeCost d off ((off + n + (BSIZE - 1)) / BSIZE) + 3 ≤ MAXOPBLOCKS := by
  have hmax : maxWrite = 1536 := rfl
  rw [hmax] at hn
  simp only [writeCost, BSIZE, MAXOPBLOCKS, Nat.max_eq_left hoff]
  -- An offset inside a block lies in a block that is there already.
  by_cases haligned : off % 512 = 0
  · omega
  · omega

/-- What `writei` logs for a chunk of `filewrite`, data, free map, indirect block and inode, are `MAXOPBLOCKS` blocks
at most, whatever the disk. -/
theorem filewrite_chunk_fits {off : Word} (hwf : WellFormed sb s.blk) (hsb : s.sb = sb)
    (hi : Allocated sb (dinodeOf sb s.blk) i) (htype : (dinodeOf sb s.blk i).type ≠ T_DEV)
    (hinum : (s.inode e).inum.toNat = i) (hd : (s.inode e).d = dinodeOf sb s.blk i)
    (hoff : off ≤ (dinodeOf sb s.blk i).size) (hn : src.length ≤ maxWrite) :
    wp (writei e src off) (fun _ t => ∃ W : Finset Nat, W.card ≤ MAXOPBLOCKS ∧ ∀ b ∈ t.logged, b ∈ s.logged ∨ b ∈ W)
      (fun _ => True) s := by
  have hlen : src.length < 2 ^ 32 := by
    have hmax : maxWrite = 1536 := rfl
    omega
  have hrun : Runs False (writei e src off) (fun _ t => ∃ W : Finset Nat, W.card ≤ MAXOPBLOCKS ∧
      ∀ b ∈ t.logged, b ∈ s.logged ∨ b ∈ W) s := by
    refine runs_writei (K := 0) (W := ∅) hwf.vol hsb hi hinum hd (hwf.sized i hi htype) htype rfl hlen nofun
      (fun _ => ⟨∅, Nat.zero_le _, fun b hb => .inl hb⟩) fun _ _ blk l T' _ ⟨W, hcard, hlogged⟩ _ => ⟨W,
      hcard.trans ?_, hlogged⟩
    split
    · exact Nat.zero_le _
    · exact writeCost_le (BitVec.le_def.mp hoff) hn
  exact wp_mono hrun (fun _ _ h => h) fun _ _ => trivial

/-- Three bytes for the empty file: the free map, the new block, the inode. -/
theorem filewrite_chunk_fits_tiny : ∃ t, writei ⟨1, by decide⟩ [7, 8, 9] 0 tiny = .ok (some 3, t) ∧
    t.logged = [33, 34, 32] ∧
    ∃ W : Finset Nat, W.card ≤ MAXOPBLOCKS ∧ ∀ b ∈ t.logged, b ∈ tiny.logged ∨ b ∈ W := by
  have heval : (writei ⟨1, by decide⟩ [7, 8, 9] 0 tiny).toOption.map (fun r => (r.1, r.2.logged)) =
      some (some 3, [33, 34, 32]) := by
    decide +kernel
  have hzero : (0 : Word) ≤ (dinodeOf tinySb tiny.blk 2).size := by decide +kernel
  have hfits := filewrite_chunk_fits (s := tiny) (e := ⟨1, by decide⟩) (i := 2) tiny_wellFormed (by decide +kernel)
    tiny_allocated (by decide +kernel) rfl rfl hzero (by decide : ([7, 8, 9] : List Byte).length ≤ maxWrite)
  cases hrun : writei ⟨1, by decide⟩ [7, 8, 9] 0 tiny with
  | error e =>
    rw [hrun] at heval
    cases heval
  | ok r =>
    rw [hrun] at heval
    rw [wp, hrun] at hfits
    obtain ⟨hret, hlogged⟩ := Prod.mk.inj (Option.some.inj heval)
    exact ⟨r.2, by rw [← hret], hlogged, hfits⟩

end Xv6.Fs
